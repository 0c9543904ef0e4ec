import Mathlib.Algebra.BigOperators.Group.Finset.Sigma
import Mathlib.Algebra.Order.Ring.Nat
import Mathlib.Data.Finset.Sigma
import RISCover.Lib.Dict

/-!
# Waiting for the machines

`Server.run` without a terminal accepts one client after the other and leaves when `expect` machines
are there with all their cores. It does not look at the cores: it compares the number of clients
with the numbers of cores that the machines announced. `run_returns_iff` says that this is enough.
-/

namespace RISCover

/-- What `recv_client_info` knows a client by. -/
structure ClientInfo where
  hostname : String
  numCpus : Nat
  nCore : Nat
  deriving DecidableEq

/-- `serial_to_hostname`: all its entries are comments. -/
def serialToHostname : Dict String String := Dict.empty

/-- The head of `recv_client_info`; `none` is the failing assertion. -/
def recvClientInfo (singleClient : Bool) (announced : ClientInfo) : Option ClientInfo :=
  let hostname := (serialToHostname.get? announced.hostname).getD announced.hostname
  -- a single client has one core
  if !singleClient || announced.numCpus == 1 then some { announced with hostname := hostname }
  else none

/-- What `Server.run` looks at. -/
structure ServerConfig where
  expect : Nat
  singleClient : Bool

/-- Where the accepting loop stands. -/
inductive Accepting where
  | waiting (clients : List ClientInfo)
  | returned (clients : List ClientInfo)
  | raised
  deriving DecidableEq

namespace ServerConfig

/-- `{c.hostname: c.num_cpus for c in self.clients}`. -/
def machineToNCores (clients : List ClientInfo) : Dict String Nat :=
  clients.foldl (fun d c => d.set c.hostname c.numCpus) Dict.empty

/-- Are all machines connected? Are all cores per machine connected? -/
def allConnected (s : ServerConfig) (clients : List ClientInfo) : Bool :=
  let machines := machineToNCores clients
  let nAwaitedClients := (machines.items.map Prod.snd).sum
  s.expect != 0 && (machines.keys.length == s.expect && clients.length == nAwaitedClients)

/-- A client connects. After the loop is left the socket is closed. -/
def connect (s : ServerConfig) : Accepting → ClientInfo → Accepting
  | .waiting clients, announced =>
    match recvClientInfo s.singleClient announced with
    | none => .raised
    | some client =>
      let clients := clients ++ [client]
      if s.allConnected clients then .returned clients else .waiting clients
  | left, _ => left

/-- `run` while these clients connect. -/
def run (s : ServerConfig) (arrivals : List ClientInfo) : Accepting :=
  arrivals.foldl s.connect (.waiting [])

/-! ## The machines

`Complete` is what the barrier waits for: enough machines, each with a client on every core. -/

/-- The known machines. -/
def machines (clients : List ClientInfo) : Finset String :=
  (clients.map ClientInfo.hostname).toFinset

/-- Every core of every known machine is connected. -/
def Complete (cores : String → Finset Nat) (clients : List ClientInfo) : Prop :=
  ∀ machine ∈ machines clients, ∀ core ∈ cores machine,
    ∃ c ∈ clients, c.hostname = machine ∧ c.nCore = core

instance (cores : String → Finset Nat) (clients : List ClientInfo) :
    Decidable (Complete cores clients) :=
  inferInstanceAs (Decidable (∀ machine ∈ machines clients, ∀ core ∈ cores machine,
    ∃ c ∈ clients, c.hostname = machine ∧ c.nCore = core))

/-- At most `expect` machines take part, and each of their cores connects at most once and announces
how many there are. -/
structure Arrivals (s : ServerConfig) (cores : String → Finset Nat) (clients : List ClientInfo) :
    Prop where
  machines_le : (machines clients).card ≤ s.expect
  core_mem : ∀ c ∈ clients, c.nCore ∈ cores c.hostname
  numCpus : ∀ c ∈ clients, c.numCpus = (cores c.hostname).card
  once : (clients.map fun c => (c.hostname, c.nCore)).Nodup
  accepted : ∀ c ∈ clients, recvClientInfo s.singleClient c ≠ none

variable {s : ServerConfig} {cores : String → Finset Nat} {clients before : List ClientInfo}
  {last : ClientInfo}

theorem Arrivals.init (h : s.Arrivals cores (before ++ [last])) : s.Arrivals cores before where
  machines_le := by
    refine le_trans (Finset.card_le_card ?_) h.machines_le
    intro machine hmem
    simp only [machines, List.map_append, List.toFinset_append]
    exact Finset.mem_union_left _ hmem
  core_mem := fun c hc => h.core_mem c (List.mem_append_left _ hc)
  numCpus := fun c hc => h.numCpus c (List.mem_append_left _ hc)
  once := by
    have honce := h.once
    rw [List.map_append] at honce
    exact honce.of_append_left
  accepted := fun c hc => h.accepted c (List.mem_append_left _ hc)

/-- No serial number is replaced. -/
theorem recvClientInfo_eq {singleClient : Bool} {c : ClientInfo}
    (h : recvClientInfo singleClient c ≠ none) : recvClientInfo singleClient c = some c := by
  unfold recvClientInfo at h ⊢
  split
  next => rfl
  next hcond => rw [if_neg hcond] at h; exact absurd rfl h

/-! ## The two counts

The server compares two numbers, of clients and of cores. The clients are cores of the machines that
came, so equal numbers mean all cores. -/

theorem mem_machineToNCores_foldl (d : Dict String Nat) (clients : List ClientInfo)
    (machine : String) (n : Nat)
    (h : (machine, n) ∈ (clients.foldl (fun d c => d.set c.hostname c.numCpus) d).items) :
    (machine, n) ∈ d.items ∨ ∃ c ∈ clients, c.hostname = machine ∧ c.numCpus = n := by
  rw [Dict.mem_items_iff] at h ⊢
  exact (Dict.exists_of_look_foldl (fun d c k => Dict.get?_set d c.hostname k c.numCpus) h).symm

theorem keys_machineToNCores_toFinset (clients : List ClientInfo) :
    (machineToNCores clients).keys.toFinset = machines clients := by
  ext machine
  rw [List.mem_toFinset, machines, List.mem_toFinset, List.mem_map]
  constructor
  · intro hmem
    obtain ⟨⟨_, n⟩, hitem, rfl⟩ := List.mem_map.mp hmem
    rcases mem_machineToNCores_foldl Dict.empty clients _ n hitem with hempty | ⟨c, hc, hhost, -⟩
    · cases hempty
    · exact ⟨c, hc, hhost⟩
  · rintro ⟨c, hc, rfl⟩
    have hlook := Dict.look_foldl_ne_none
      (fun (d : Dict String Nat) (c : ClientInfo) k => Dict.get?_set d c.hostname k c.numCpus)
      (Or.inl ⟨c, hc, rfl⟩ :
        (∃ x ∈ clients, x.hostname = c.hostname) ∨
          (Dict.empty : Dict String Nat).get? c.hostname ≠ none)
    by_contra hmem
    exact hlook (Dict.get?_eq_none_iff.mpr hmem)

/-- `len(machines)`. -/
theorem length_keys_machineToNCores (clients : List ClientInfo) :
    (machineToNCores clients).keys.length = (machines clients).card := by
  rw [← keys_machineToNCores_toFinset, Dict.keys,
    List.toFinset_card_of_nodup (machineToNCores clients).nodup]

/-- `n_awaited_clients`. -/
theorem Arrivals.sum_machineToNCores (h : s.Arrivals cores clients) :
    ((machineToNCores clients).items.map Prod.snd).sum =
      ∑ machine ∈ machines clients, (cores machine).card := by
  rw [← keys_machineToNCores_toFinset, Dict.keys,
    List.sum_toFinset _ (machineToNCores clients).nodup, List.map_map]
  congr 1
  apply List.map_congr_left
  rintro ⟨machine, n⟩ hitem
  rcases mem_machineToNCores_foldl Dict.empty clients machine n hitem with
    hempty | ⟨c, hc, rfl, rfl⟩
  · cases hempty
  · exact h.numCpus c hc

/-- The cores that are connected and those that the known machines have. -/
def connected (clients : List ClientInfo) : Finset (Σ _ : String, Nat) :=
  (clients.map fun c => ⟨c.hostname, c.nCore⟩).toFinset

theorem Arrivals.connected_subset (h : s.Arrivals cores clients) :
    connected clients ⊆ (machines clients).sigma cores := by
  intro core hmem
  obtain ⟨c, hc, rfl⟩ := List.mem_map.mp (List.mem_toFinset.mp hmem)
  rw [Finset.mem_sigma]
  exact ⟨List.mem_toFinset.mpr (List.mem_map_of_mem hc), h.core_mem c hc⟩

theorem Arrivals.card_connected (h : s.Arrivals cores clients) :
    (connected clients).card = clients.length := by
  have honce : (clients.map fun c => (⟨c.hostname, c.nCore⟩ : Σ _ : String, Nat)).Nodup := by
    have hinj : Function.Injective fun p : String × Nat => (⟨p.1, p.2⟩ : Σ _ : String, Nat) := by
      rintro ⟨a, b⟩ ⟨c, d⟩ heq
      simpa using heq
    simpa [List.map_map, Function.comp_def] using h.once.map hinj
  rw [connected, List.toFinset_card_of_nodup honce, List.length_map]

theorem complete_iff_subset :
    Complete cores clients ↔ (machines clients).sigma cores ⊆ connected clients := by
  constructor
  · rintro hcomplete ⟨machine, core⟩ hmem
    obtain ⟨hmachine, hcore⟩ := Finset.mem_sigma.mp hmem
    obtain ⟨c, hc, rfl, rfl⟩ := hcomplete machine hmachine core hcore
    exact List.mem_toFinset.mpr (List.mem_map.mpr ⟨c, hc, rfl⟩)
  · intro hsub machine hmachine core hcore
    have hmem := hsub (Finset.mem_sigma.mpr ⟨hmachine, hcore⟩ : (⟨machine, core⟩ : Σ _, Nat) ∈ _)
    obtain ⟨c, hc, heq⟩ := List.mem_map.mp (List.mem_toFinset.mp hmem)
    cases heq
    exact ⟨c, hc, rfl, rfl⟩

/-- No machine can have more clients than cores, so the totals agree only when every one of them is
complete. -/
theorem Arrivals.length_eq_iff (h : s.Arrivals cores clients) :
    clients.length = ∑ machine ∈ machines clients, (cores machine).card ↔
      Complete cores clients := by
  rw [complete_iff_subset, ← h.card_connected, ← Finset.card_sigma]
  constructor
  · intro hcard
    exact (Finset.eq_of_subset_of_card_le h.connected_subset hcard.ge).ge
  · intro hsub
    exact congrArg Finset.card (Finset.Subset.antisymm h.connected_subset hsub)

theorem Arrivals.allConnected_iff (h : s.Arrivals cores clients) (hne : clients ≠ []) :
    s.allConnected clients = true ↔
      (machines clients).card = s.expect ∧ Complete cores clients := by
  have hpos : s.expect ≠ 0 := by
    obtain ⟨c, hc⟩ := List.exists_mem_of_ne_nil clients hne
    have hcard : 0 < (machines clients).card :=
      Finset.card_pos.mpr ⟨c.hostname, List.mem_toFinset.mpr (List.mem_map_of_mem hc)⟩
    have hle := h.machines_le
    omega
  simp only [allConnected, Bool.and_eq_true, bne_iff_ne, ne_eq, beq_iff_eq, hpos,
    not_false_eq_true, true_and, length_keys_machineToNCores, h.sum_machineToNCores,
    h.length_eq_iff]

/-! ## The loop

It returns behind the first client with which the machines are complete. -/

/-- Once everything is connected no further core is left to connect. -/
theorem Arrivals.not_complete_before (h : s.Arrivals cores (before ++ [last])) :
    ¬((machines before).card = s.expect ∧ Complete cores before) := by
  rintro ⟨hcard, hcomplete⟩
  have hsub : machines before ⊆ machines (before ++ [last]) := by
    simp only [machines, List.map_append, List.toFinset_append]
    exact Finset.subset_union_left
  have hsame : machines before = machines (before ++ [last]) :=
    Finset.eq_of_subset_of_card_le hsub (hcard ▸ h.machines_le)
  have hlast : last ∈ before ++ [last] := by simp
  have hmachine : last.hostname ∈ machines before := by
    rw [hsame]
    exact List.mem_toFinset.mpr (List.mem_map_of_mem hlast)
  obtain ⟨c, hc, hhost, hcore⟩ := hcomplete _ hmachine _ (h.core_mem last hlast)
  have honce := h.once
  rw [List.map_append, List.nodup_append] at honce
  exact honce.2.2 _ (List.mem_map_of_mem hc) _ (List.mem_map_of_mem (List.mem_singleton_self last))
    (by rw [hhost, hcore])

theorem run_append (s : ServerConfig) (before : List ClientInfo) (last : ClientInfo) :
    s.run (before ++ [last]) = s.connect (s.run before) last := by
  rw [run, List.foldl_append, List.foldl_cons, List.foldl_nil, ← run]

/-- One connection. -/
theorem Arrivals.connect_waiting (h : s.Arrivals cores (before ++ [last])) :
    s.connect (.waiting before) last =
      if s.allConnected (before ++ [last]) then .returned (before ++ [last])
      else .waiting (before ++ [last]) := by
  rw [connect, recvClientInfo_eq (h.accepted last (by simp))]

/-- As long as a core is still to come the loop waits. -/
theorem Arrivals.run_before (before : List ClientInfo) : ∀ last,
    s.Arrivals cores (before ++ [last]) → s.run before = .waiting before := by
  induction before using List.reverseRecOn with
  | nil => intro last _; rfl
  | append_singleton before c ih =>
      intro last h
      have hne : before ++ [c] ≠ [] := by simp
      have hnot : ¬s.allConnected (before ++ [c]) = true := fun hall =>
        h.not_complete_before ((h.init.allConnected_iff hne).mp hall)
      rw [run_append, ih c h.init, h.init.connect_waiting, if_neg hnot]

/-- `run` returns after a connection exactly when the expected machines are there with all cores. -/
theorem run_returns_iff (s : ServerConfig) (cores : String → Finset Nat)
    (before : List ClientInfo) (last : ClientInfo) (h : s.Arrivals cores (before ++ [last])) :
    s.run before = .waiting before ∧
      (s.run (before ++ [last]) = .returned (before ++ [last]) ↔
        (machines (before ++ [last])).card = s.expect ∧ Complete cores (before ++ [last])) ∧
      (s.run (before ++ [last]) ≠ .returned (before ++ [last]) →
        s.run (before ++ [last]) = .waiting (before ++ [last])) := by
  have hbefore := Arrivals.run_before before last h
  rw [run_append, hbefore, h.connect_waiting, ← h.allConnected_iff (by simp)]
  refine ⟨rfl, ?_, ?_⟩
  · cases s.allConnected (before ++ [last]) <;> simp
  · cases s.allConnected (before ++ [last]) <;> simp

/-- Two cores of one machine, one of another, the first machine's in between. -/
def labArrivals : List ClientInfo := [⟨"lab1", 2, 1⟩, ⟨"lab2", 1, 0⟩]

def labCores (machine : String) : Finset Nat := if machine = "lab1" then {0, 1} else {0}

theorem run_returns_iff_lab :
    (⟨2, false⟩ : ServerConfig).run labArrivals = .waiting labArrivals ∧
      (⟨2, false⟩ : ServerConfig).run (labArrivals ++ [⟨"lab1", 2, 0⟩]) =
        .returned (labArrivals ++ [⟨"lab1", 2, 0⟩]) := by
  have harrivals : (⟨2, false⟩ : ServerConfig).Arrivals labCores
      (labArrivals ++ [⟨"lab1", 2, 0⟩]) :=
    ⟨by decide, by decide, by decide, by decide, by decide⟩
  obtain ⟨hbefore, hreturns, -⟩ := run_returns_iff ⟨2, false⟩ labCores labArrivals _ harrivals
  exact ⟨hbefore, hreturns.mpr ⟨by decide, by decide⟩⟩

end ServerConfig

end RISCover
