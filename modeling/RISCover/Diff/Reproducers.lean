import RISCover.Diff.Batches
import RISCover.Diff.Differences

/-!
# The reproducers of the fuzzer

Every reproducer gets a number off `reproducer_counter`, which its file is named after, and a worker
that wrote one with too large a number leaves. `DiffFuzz.numberedFiles_of_reaches` says that no file
is written over another one, and how many there can be.
-/

open Text

namespace RISCover

/-! ## Names of files

The file is named by the number in decimal and lies in a directory named by the number, so different
numbers have different files. -/

namespace Reproducer

variable {κ α : Type}

theorem ne_dash_of_isBase {c : Char} (h : isBase 10 c = true) : (c != '-') = true := by
  rw [bne_iff_ne]
  rintro rfl
  cases h

/-- Files with different numbers have different names. -/
theorem reproN_eq_of_path_eq {r r' : Reproducer κ α} (h : r.path = r'.path) :
    r.reproN = r'.reproN := by
  have htake : ∀ (n : Nat) (t : Text),
      (decPad 8 n ++ '-' :: t).takeWhile (· != '-') = decPad 8 n := by
    intro n t
    rw [List.takeWhile_append_of_pos fun c hc => ne_dash_of_isBase (isBase_decPad 8 n c hc)]
    simp
  have hnames := List.append_cancel_left h
  have hnumbers := congrArg (List.takeWhile (· != '-')) hnames
  rw [htake, htake] at hnumbers
  rw [← ofBase_decPad 8 r.reproN, hnumbers, ofBase_decPad]

end Reproducer

namespace DiffFuzz

variable {ι κ α : Type} {u : DiffFuzz κ α}

/-! ## No exceptions

All clients of a worker answer every input, so the results of a batch are zipped and searched, and
the splits pass the assertion of `log_repro`. -/

/-- What a worker has left to log passes the assertion. Only a batch that cannot be sent ends it. -/
def Worker.Sound (u : DiffFuzz κ α) : Worker κ α → Prop
  | .logging _ _ rest => ∀ entry ∈ rest, LogReproAsserts entry.split
  | .writing _ _ _ first rest => ∀ entry ∈ first :: rest, LogReproAsserts entry.split
  | .raised b => u.accepts (sendFull (u.generator.generate b u.batchSize)) = false
  | _ => True

section

variable [DecidableEq κ] {s s' : State ι κ α} {i : ι} {d : Draws ι}

/-- What the clients of a worker answer is analysed, and leaves the differences of the batch. -/
theorem Shares.entries_eq (h : Shares u s d) {b : Nat} {inputs : List (FuzzInput α)}
    {resultsPerClient : List (List (MultiResult κ))} (hw : s.workers i = .executing b inputs)
    (hlt : ¬(s.clients i).length < 2)
    (hres : u.Answered (inputs.map FuzzInput.getNumResults).sum (s.clients i) resultsPerClient) :
    u.Answered u.batchSize (s.clients i) resultsPerClient ∧
      u.entries b (u.expand b (sendFull inputs)) resultsPerClient =
        some (u.differences b resultsPerClient) := by
  have hk := h.keeps i
  rw [hw] at hk
  have hinputs : inputs = u.generator.generate b u.batchSize := hk
  have hsum : (inputs.map FuzzInput.getNumResults).sum = u.batchSize := by
    rw [hinputs, DiffFuzzGenerator.generate]
    split
    · rfl
    · rw [List.map_map]
      simp [Function.comp_def, FuzzInput.getNumResults]
  rw [hsum] at hres
  refine ⟨hres, ?_⟩
  rw [hinputs]
  exact DiffFuzz.entries_eq hres (u.clients_nodup.sublist (h.clients i)) (Nat.not_lt.mp hlt) b

theorem differences_asserts {clients : List κ} {b : Nat}
    {resultsPerClient : List (List (MultiResult κ))} (hnodup : clients.Nodup)
    (hres : u.Answered u.batchSize clients resultsPerClient) :
    ∀ entry ∈ u.differences b resultsPerClient, LogReproAsserts entry.split := by
  intro entry hentry
  obtain ⟨j, hj, hmem⟩ := List.mem_flatMap.mp hentry
  obtain ⟨split, hsplit, rfl⟩ := List.mem_map.mp hmem
  exact splitsOf_asserts (Answered.family hres hnodup (List.mem_range.mp hj)) split hsplit

theorem sound_step [DecidableEq ι] (h : Shares u s d) (hs : ∀ i, (s.workers i).Sound u)
    (hmoves : Moves u s i s') : ∀ i, (s'.workers i).Sound u := by
  have hi := hs i
  -- one worker moves
  have hbecome : ∀ w : Worker κ α, w.Sound u → ∀ j, (Function.update s.workers i w j).Sound u :=
    fun w hw => (Function.forall_update_iff s.workers fun _ w => w.Sound u).mpr
      ⟨hw, fun j _ => hs j⟩
  cases hmoves with
  | claim hw => exact hbecome _ trivial
  | quit hw hlt => exact hbecome _ trivial
  | @reject b inputs hw hlt hsend =>
      have hk := h.keeps i
      rw [hw] at hk
      have hinputs : inputs = u.generator.generate b u.batchSize := hk
      rw [hinputs] at hsend
      exact hbecome _ hsend
  | retry hw hlt hsend hlost => exact hbecome _ trivial
  | analyse hw hlt hsend hres hrest =>
      obtain ⟨hres', hentries⟩ := h.entries_eq hw hlt hres
      obtain rfl := Option.some.inj (hrest.symm.trans hentries)
      exact hbecome _ (differences_asserts (u.clients_nodup.sublist (h.clients i)) hres')
  | unanalysable hw hlt hsend hres hrest =>
      rw [(h.entries_eq hw hlt hres).2] at hrest
      cases hrest
  | draw hw =>
      rw [hw] at hi
      exact hbecome _ hi
  | undiffering hw hdiffs =>
      rw [hw] at hi
      exact absurd (hi _ List.mem_cons_self) hdiffs
  | exit hw hdiffs hmany => exact hbecome _ trivial
  | write hw hdiffs hmany =>
      rw [hw] at hi
      exact hbecome _ fun entry hentry => hi entry (List.mem_cons_of_mem _ hentry)
  | complete hw => exact hbecome _ trivial

end

/-! ## Numbers of reproducers

The numbers are drawn off `reproducer_counter` as the batches are off `counter`, and a number comes
back with its file. A worker that leaves keeps its number. -/

/-- The number that a worker took for a file that is not known to be followed by another one. -/
def Worker.number : Worker κ α → Option Nat
  | .writing _ _ reproN _ _ => some reproN
  | .exited _ reproN => some reproN
  | _ => none

/-- The workers draw numbers: `d` says who has which one. A worker that leaves keeps its number. -/
structure Numbers (s : State ι κ α) (d : Draws ι) : Prop where
  valid : d.Valid
  counter : s.reproducerCounter = UInt64.ofNat d.owners.length
  small : ∀ n ∈ d.returned, n < 300000
  number : ∀ i, (s.workers i).number = (d.holds i).map (· + 1)
  nodup : (s.reproducers.map Reproducer.reproN).Nodup
  mem_iff : ∀ n, n ∈ s.reproducers.map Reproducer.reproN ↔
    (∃ m ∈ d.returned, n = m + 1) ∨ ∃ i b, s.workers i = .exited b n
  exited : ∀ i b n, s.workers i = .exited b n → 300000 < n

theorem numbers_init (u : DiffFuzz κ α) : Numbers (init u : State ι κ α) Draws.start where
  valid := Draws.valid_start
  counter := rfl
  small := fun _ hn => absurd hn List.not_mem_nil
  number := fun _ => rfl
  nodup := List.nodup_nil
  mem_iff := by
    intro n
    refine iff_of_false List.not_mem_nil ?_
    rintro (⟨m, hm, -⟩ | ⟨i, b, hw⟩)
    · exact List.not_mem_nil hm
    · cases hw
  exited := by
    intro i b n hw
    cases hw

section

variable [DecidableEq ι] {s s' : State ι κ α} {i : ι} {d : Draws ι} {w : Worker κ α}

/-- Whoever leaves was not just moved. -/
theorem update_eq_exited_iff {f : ι → Worker κ α} (hold : ∀ b n, f i ≠ .exited b n)
    (hnew : ∀ b n, w ≠ .exited b n) (j : ι) (b n : Nat) :
    Function.update f i w j = .exited b n ↔ f j = .exited b n := by
  by_cases hj : j = i
  · subst hj
    rw [Function.update_self]
    exact iff_of_false (hnew b n) (hold b n)
  · rw [Function.update_of_ne hj]

/-- A worker without a number goes on without one. -/
theorem Numbers.without (h : Numbers s d) (hnone : (s.workers i).number = none)
    (hw : w.number = none) (hcounter : s'.reproducerCounter = s.reproducerCounter)
    (hfiles : s'.reproducers = s.reproducers)
    (hworkers : s'.workers = Function.update s.workers i w) : Numbers s' d := by
  -- a worker without a number does not leave with one
  have hexited : ∀ j b n, s'.workers j = .exited b n ↔ s.workers j = .exited b n := by
    intro j b n
    rw [hworkers]
    refine update_eq_exited_iff (fun b n heq => ?_) (fun b n heq => ?_) j b n
    · rw [heq] at hnone
      cases hnone
    · rw [heq] at hw
      cases hw
  constructor
  · exact h.valid
  · rw [hcounter]
    exact h.counter
  · exact h.small
  · rw [hworkers]
    refine (Function.forall_update_iff s.workers fun j w =>
      w.number = (d.holds j).map (· + 1)).mpr ⟨?_, fun j _ => h.number j⟩
    rw [hw, ← h.number i, hnone]
  · rw [hfiles]
    exact h.nodup
  · intro n
    simp only [hfiles, hexited]
    exact h.mem_iff n
  · intro j b n hj
    exact h.exited j b n ((hexited j b n).mp hj)

omit [DecidableEq ι] in
/-- The number that a worker writes with is not used yet. -/
theorem Numbers.fresh (h : Numbers s d) {b n reproN : Nat} {entry : LogEntry κ α}
    {rest : List (LogEntry κ α)} (hw : s.workers i = .writing b n reproN entry rest) :
    ∃ m, d.holds i = some m ∧ reproN = m + 1 ∧ reproN ∉ s.reproducers.map Reproducer.reproN := by
  have hnumber := h.number i
  rw [hw] at hnumber
  obtain ⟨m, hm, rfl⟩ := Option.map_eq_some_iff.mp hnumber.symm
  refine ⟨m, hm, rfl, fun hmem => ?_⟩
  rcases (h.mem_iff _).mp hmem with ⟨k, hk, heq⟩ | ⟨j, b', hj⟩
  · obtain rfl := Nat.succ_injective heq
    exact h.valid.not_mem_of_holds hm hk
  · -- whoever left with it would still hold it
    have hnumber' := h.number j
    rw [hj] at hnumber'
    obtain ⟨k, hk, heq⟩ := Option.map_eq_some_iff.mp hnumber'.symm
    obtain rfl := Nat.succ_injective heq
    obtain rfl := h.valid.alone hm hk
    rw [hw] at hj
    cases hj

omit [DecidableEq ι] in
theorem Numbers.nodup_append (h : Numbers s d) {b n reproN : Nat} {entry : LogEntry κ α}
    {rest : List (LogEntry κ α)} (hw : s.workers i = .writing b n reproN entry rest) :
    ((s.reproducers ++ [Reproducer.mk reproN entry]).map Reproducer.reproN).Nodup := by
  obtain ⟨-, -, -, hfresh⟩ := h.fresh hw
  rw [List.map_append, List.nodup_append]
  refine ⟨h.nodup, List.nodup_singleton _, fun m hm k hk heq => hfresh ?_⟩
  rw [List.map_singleton, List.mem_singleton] at hk
  rwa [heq, hk] at hm

theorem Numbers.draw (h : Numbers s d) (hlt : d.owners.length < 2 ^ 64) {b n : Nat}
    {entry : LogEntry κ α} {rest : List (LogEntry κ α)}
    (hw : s.workers i = .logging b n (entry :: rest)) :
    Numbers ({ s with reproducerCounter := s.reproducerCounter + 1 }.become i
      (.writing b n (s.reproducerCounter.toNat + 1) entry rest)) (d.draw i) := by
  have hnone : d.holds i = none := by
    have hnumber := h.number i
    rw [hw] at hnumber
    exact Option.map_eq_none_iff.mp hnumber.symm
  -- the counter has not gone round, so the new number is one more than the draw
  have hcounter : s.reproducerCounter.toNat = d.owners.length := by
    rw [h.counter]
    exact UInt64.toNat_ofNat_of_lt' hlt
  have hexited := update_eq_exited_iff (f := s.workers) (i := i)
    (w := .writing b n (s.reproducerCounter.toNat + 1) entry rest)
    (fun b' m heq => by rw [hw] at heq; cases heq) (fun b' m heq => by cases heq)
  constructor
  · exact h.valid.draw hnone
  · show s.reproducerCounter + 1 = _
    rw [h.counter, Draws.owners_draw, List.length_append, List.length_singleton, UInt64.ofNat_add]
    rfl
  · exact h.small
  · refine (Function.forall_update_iff s.workers fun j w =>
      w.number = ((d.draw i).holds j).map (· + 1)).mpr ⟨?_, fun j hj => ?_⟩
    · rw [Draws.holds_draw_self, Option.map_some, hcounter]
      rfl
    · rw [Draws.holds_draw_of_ne hj]
      exact h.number j
  · exact h.nodup
  · intro m
    refine (h.mem_iff m).trans (or_congr_right ?_)
    exact exists_congr fun j => exists_congr fun b' => (hexited j b' m).symm
  · intro j b' m hj
    exact h.exited j b' m ((hexited j b' m).mp hj)

theorem Numbers.exit (h : Numbers s d) {b n reproN : Nat} {entry : LogEntry κ α}
    {rest : List (LogEntry κ α)} (hw : s.workers i = .writing b n reproN entry rest)
    (hmany : 300000 < reproN) :
    Numbers ({ s with reproducers := s.reproducers ++ [Reproducer.mk reproN entry] }.become i
      (.exited b reproN)) d := by
  -- the worker keeps the draw, but its file is written from now on
  obtain ⟨m, hm, hreproN, -⟩ := h.fresh hw
  constructor
  · exact h.valid
  · exact h.counter
  · exact h.small
  · refine (Function.forall_update_iff s.workers fun j w =>
      w.number = (d.holds j).map (· + 1)).mpr ⟨?_, fun j _ => h.number j⟩
    rw [hm, hreproN]
    rfl
  · exact h.nodup_append hw
  · intro k
    show k ∈ (s.reproducers ++ [Reproducer.mk reproN entry]).map Reproducer.reproN ↔
      _ ∨ ∃ j b', Function.update s.workers i (.exited b reproN) j = .exited b' k
    rw [List.map_append, List.mem_append, h.mem_iff k, or_assoc]
    refine or_congr_right ⟨?_, ?_⟩
    · rintro (⟨j, b', hj⟩ | hk)
      · refine ⟨j, b', ?_⟩
        rw [Function.update_of_ne, hj]
        rintro rfl
        rw [hw] at hj
        cases hj
      · rw [List.map_singleton, List.mem_singleton] at hk
        exact ⟨i, b, by rw [Function.update_self, hk]⟩
    · rintro ⟨j, b', hj⟩
      by_cases hji : j = i
      · subst hji
        rw [Function.update_self] at hj
        cases hj
        exact Or.inr List.mem_cons_self
      · rw [Function.update_of_ne hji] at hj
        exact Or.inl ⟨j, b', hj⟩
  · intro j b' k hj
    have hcases : Function.update s.workers i (.exited b reproN) j = .exited b' k := hj
    by_cases hji : j = i
    · subst hji
      rw [Function.update_self] at hcases
      cases hcases
      exact hmany
    · rw [Function.update_of_ne hji] at hcases
      exact h.exited j b' k hcases

theorem Numbers.write (h : Numbers s d) {b n reproN : Nat} {entry : LogEntry κ α}
    {rest : List (LogEntry κ α)} (hw : s.workers i = .writing b n reproN entry rest)
    (hmany : ¬300000 < reproN) :
    ∃ m, Numbers ({ s with reproducers := s.reproducers ++ [Reproducer.mk reproN entry] }.become i
      (.logging b n rest)) (d.giveBack i m) := by
  obtain ⟨m, hm, hreproN, -⟩ := h.fresh hw
  have hexited := update_eq_exited_iff (f := s.workers) (i := i) (w := .logging b n rest)
    (fun b' k heq => by rw [hw] at heq; cases heq) (fun b' k heq => by cases heq)
  refine ⟨m, ?_⟩
  constructor
  · exact h.valid.giveBack hm
  · exact h.counter
  · intro k hk
    rw [Draws.returned_giveBack, List.mem_append, List.mem_singleton] at hk
    rcases hk with hk | rfl
    · exact h.small k hk
    · -- a worker with a greater number would have left
      omega
  · refine (Function.forall_update_iff s.workers fun j w =>
      w.number = ((d.giveBack i m).holds j).map (· + 1)).mpr ⟨?_, fun j hj => ?_⟩
    · rw [Draws.holds_giveBack_self]
      rfl
    · rw [Draws.holds_giveBack_of_ne hj]
      exact h.number j
  · exact h.nodup_append hw
  · intro k
    show k ∈ (s.reproducers ++ [Reproducer.mk reproN entry]).map Reproducer.reproN ↔
      (∃ l ∈ d.returned ++ [m], k = l + 1) ∨
        ∃ j b', Function.update s.workers i (.logging b n rest) j = .exited b' k
    simp only [hexited, List.map_append, List.mem_append, h.mem_iff k, List.map_singleton,
      List.mem_singleton, or_and_right, exists_or, exists_eq_left, hreproN]
    rw [or_right_comm]
  · intro j b' k hj
    exact h.exited j b' k ((hexited j b' k).mp hj)

/-- What happens to the numbers in a step. -/
theorem Numbers.step [DecidableEq κ] [Fintype ι] (h : Numbers s d)
    (hcard : Fintype.card ι < 2 ^ 63) (hsound : ∀ i, (s.workers i).Sound u)
    (hmoves : Moves u s i s') : ∃ d', Numbers s' d' := by
  have hlt : d.owners.length < 2 ^ 64 := by
    have hle := h.valid.length_le h.small
    omega
  have hnone : ∀ {w : Worker κ α}, s.workers i = w → w.number = none →
      (s.workers i).number = none := fun hw hn => hw ▸ hn
  cases hmoves with
  | claim hw => exact ⟨d, h.without (hnone hw rfl) rfl rfl rfl rfl⟩
  | quit hw hlt => exact ⟨d, h.without (hnone hw rfl) rfl rfl rfl rfl⟩
  | reject hw hlt hsend => exact ⟨d, h.without (hnone hw rfl) rfl rfl rfl rfl⟩
  | retry hw hlt hsend hlost => exact ⟨d, h.without (hnone hw rfl) rfl rfl rfl rfl⟩
  | analyse hw hlt hsend hres hrest => exact ⟨d, h.without (hnone hw rfl) rfl rfl rfl rfl⟩
  | unanalysable hw hlt hsend hres hrest => exact ⟨d, h.without (hnone hw rfl) rfl rfl rfl rfl⟩
  | draw hw => exact ⟨_, h.draw hlt hw⟩
  | undiffering hw hdiffs =>
      -- its number would be lost
      have hi := hsound i
      rw [hw] at hi
      exact absurd (hi _ List.mem_cons_self) hdiffs
  | exit hw hdiffs hmany => exact ⟨d, h.exit hw hmany⟩
  | write hw hdiffs hmany =>
      obtain ⟨m, hm⟩ := h.write hw hmany
      exact ⟨_, hm⟩
  | complete hw => exact ⟨d, h.without (hnone hw rfl) rfl rfl rfl rfl⟩

/-- What holds after every run of not too many workers. -/
theorem numbers_of_reaches [DecidableEq κ] [Fintype ι] (hcard : Fintype.card ι < 2 ^ 63)
    (h : u.Reaches (init u) s) : (∀ i, (s.workers i).Sound u) ∧ ∃ d, Numbers s d := by
  induction h with
  | refl => exact ⟨fun _ => trivial, _, numbers_init u⟩
  | tail hreach hstep ih =>
      obtain ⟨hsound, d, hd⟩ := ih
      obtain ⟨b, hb⟩ := shares_of_reaches hreach
      obtain ⟨i, hmoves⟩ := step_iff.mp hstep
      exact ⟨sound_step hb hsound hmoves, hd.step hcard hsound hmoves⟩

end

/-- The file that a worker is about to write. -/
def Worker.writes : Worker κ α → Option Nat
  | .writing _ _ reproN _ _ => some reproN
  | _ => none

/-- How the files are numbered. -/
structure NumberedFiles [Fintype ι] (u : DiffFuzz κ α) (s : State ι κ α) : Prop where
  /-- After the last number that is not too large, every worker takes one more at most. -/
  le : s.reproducerCounter.toNat ≤ 300000 + Fintype.card ι
  /-- No file is written over another one. -/
  paths : (s.reproducers.map Reproducer.path).Nodup
  /-- The numbers up to the counter are those of the files, written or about to be. -/
  numbers : ∀ n, (1 ≤ n ∧ n ≤ s.reproducerCounter.toNat) ↔
    n ∈ s.reproducers.map Reproducer.reproN ∨ ∃ i, (s.workers i).writes = some n
  /-- A file that is about to be written was not written before, and one worker writes it. -/
  once : ∀ i n, (s.workers i).writes = some n → n ∉ s.reproducers.map Reproducer.reproN ∧
    ∀ j, (s.workers j).writes = some n → j = i
  /-- A worker leaves when its file was too many. -/
  exited : ∀ i b n, s.workers i = .exited b n →
    300000 < n ∧ n ∈ s.reproducers.map Reproducer.reproN
  /-- No assertion fails, and no `IndexError` or `KeyError` is raised, as long as every batch can be
  packed into a message that is not too long. -/
  raised : ∀ i b, s.workers i = .raised b →
    u.accepts (sendFull (u.generator.generate b u.batchSize)) = false

section

variable {s : State ι κ α} {d : Draws ι}

theorem Worker.number_eq_some_iff (w : Worker κ α) (n : Nat) :
    w.number = some n ↔ w.writes = some n ∨ ∃ b, w = .exited b n := by
  cases w <;> simp [Worker.number, Worker.writes]

theorem Numbers.numberedFiles [Fintype ι] (h : Numbers s d) (hcard : Fintype.card ι < 2 ^ 63)
    (hsound : ∀ i, (s.workers i).Sound u) : NumberedFiles u s := by
  have hle := h.valid.length_le h.small
  have hcounter : s.reproducerCounter.toNat = d.owners.length := by
    rw [h.counter]
    exact UInt64.toNat_ofNat_of_lt' (show d.owners.length < 2 ^ 64 by omega)
  -- a number that a worker has is one more than its draw
  have hheld : ∀ {i n}, (s.workers i).number = some n →
      ∃ m, d.holds i = some m ∧ n = m + 1 ∧ m < d.owners.length := by
    intro i n hn
    rw [h.number i] at hn
    obtain ⟨m, hm, rfl⟩ := Option.map_eq_some_iff.mp hn
    exact ⟨m, hm, rfl, h.valid.lt_of_holds hm⟩
  have hwrites : ∀ {i n}, (s.workers i).writes = some n → (s.workers i).number = some n :=
    fun hn => (Worker.number_eq_some_iff _ _).mpr (Or.inl hn)
  have hexited : ∀ {i b n}, s.workers i = .exited b n → (s.workers i).number = some n :=
    fun hn => (Worker.number_eq_some_iff _ _).mpr (Or.inr ⟨_, hn⟩)
  constructor
  · rw [hcounter]
    exact hle
  · exact List.pairwise_map.mpr ((List.pairwise_map.mp h.nodup).imp fun hne heq =>
      hne (Reproducer.reproN_eq_of_path_eq heq))
  · intro n
    rw [hcounter]
    constructor
    · rintro ⟨hpos, hn⟩
      -- the draw of the number was given back with a file, or a worker has it
      rcases h.valid.settled (n := n - 1) (by omega) with hret | ⟨i, hi⟩
      · exact Or.inl ((h.mem_iff n).mpr (Or.inl ⟨n - 1, hret, by omega⟩))
      · have hnumber := h.number i
        rw [hi, Option.map_some, show n - 1 + 1 = n by omega] at hnumber
        rcases (Worker.number_eq_some_iff _ n).mp hnumber with hw | ⟨b, hw⟩
        · exact Or.inr ⟨i, hw⟩
        · exact Or.inl ((h.mem_iff n).mpr (Or.inr ⟨i, b, hw⟩))
    · rintro (hmem | ⟨i, hi⟩)
      · rcases (h.mem_iff n).mp hmem with ⟨m, hm, rfl⟩ | ⟨i, b, hi⟩
        · have hlt := h.valid.lt m hm
          omega
        · obtain ⟨m, -, rfl, hlt⟩ := hheld (hexited hi)
          omega
      · obtain ⟨m, -, rfl, hlt⟩ := hheld (hwrites hi)
        omega
  · intro i n hi
    obtain ⟨m, hm, rfl, -⟩ := hheld (hwrites hi)
    constructor
    · intro hmem
      rcases (h.mem_iff _).mp hmem with ⟨k, hk, heq⟩ | ⟨j, b, hj⟩
      · obtain rfl := Nat.succ_injective heq
        exact h.valid.not_mem_of_holds hm hk
      · obtain ⟨k, hk, heq, -⟩ := hheld (hexited hj)
        obtain rfl := Nat.succ_injective heq
        obtain rfl := h.valid.alone hm hk
        rw [hj] at hi
        cases hi
    · intro j hj
      obtain ⟨k, hk, heq, -⟩ := hheld (hwrites hj)
      obtain rfl := Nat.succ_injective heq
      exact h.valid.alone hk hm
  · exact fun i b n hi => ⟨h.exited i b n hi, (h.mem_iff n).mpr (Or.inr ⟨i, b, hi⟩)⟩
  · intro i b hi
    have hs := hsound i
    rw [hi] at hs
    exact hs

end

/-! ## After every run

How many workers there are is a constant of the fuzzer, far below what the counters would need to go
round. -/

/-- In whatever order the workers go on: every reproducer has a file of its own, and when there are
too many of them, all workers leave one after the other. -/
theorem numberedFiles_of_reaches [DecidableEq κ] (u : DiffFuzz κ α) (singleStep : Bool)
    (s : State (Fin (numWorkers singleStep)) κ α) (h : u.Reaches (init u) s) :
    NumberedFiles u s := by
  have hcard : Fintype.card (Fin (numWorkers singleStep)) < 2 ^ 63 := by
    rw [Fintype.card_fin]
    cases singleStep <;> decide
  obtain ⟨hsound, d, hd⟩ := numbers_of_reaches hcard h
  exact hd.numberedFiles hcard hsound

/-- What the two clients answer. -/
def twoAnswers : List (List (MultiResult String)) := [[onePrefix "a" 1], [onePrefix "b" 2]]

theorem twoAnswers_answered : twoClients.Answered 1 ["a", "b"] twoAnswers := by
  have hrunner : ∀ client ra, (onePrefix client ra).FromRunner (plainBuild .riscv64) 1 := by
    intro client ra
    refine ⟨Nat.le_refl 1, ?_, fun h => absurd h (Nat.lt_irrefl 1), ?_⟩
    · simp [onePrefix]
    · simp [onePrefix, sampleResult_ofConfig]
  refine .cons ⟨rfl, ?_⟩ (.cons ⟨rfl, ?_⟩ .nil)
  · exact List.forall_mem_singleton.mpr ⟨rfl, hrunner "a" 1⟩
  · exact List.forall_mem_singleton.mpr ⟨rfl, hrunner "b" 2⟩

/-- A worker loses nothing but a connection, tries again, and logs a difference. -/
theorem exists_reaches_twoClients : ∃ s : State (Fin (numWorkers false)) String Nat,
    twoClients.Reaches (init twoClients) s ∧ s.claimed = [10] ∧ s.completed = [10] ∧
      (s.reproducers.map Reproducer.reproN) = [1] := by
  have hone : (twoClients.differences 10 twoAnswers).length = 1 := by
    decide +kernel
  obtain ⟨entry, hentry⟩ := List.length_eq_one_iff.mp hone
  have hdiffs : allDiffs (reproResultToClients entry.split.resultToClients) ≠ ∅ :=
    differences_asserts twoClients_nodup twoAnswers_answered entry (hentry ▸ List.mem_cons_self)
  have hentries : twoClients.entries 10 (twoClients.expand 10 (sendFull
      (twoClients.generator.generate 10 1))) twoAnswers = some [entry] :=
    (DiffFuzz.entries_eq twoAnswers_answered twoClients_nodup (Nat.le_refl 2) 10).trans
      (congrArg some hentry)
  have hres : twoClients.Answered ((twoClients.generator.generate 10 1).map
      FuzzInput.getNumResults).sum ["a", "b"] twoAnswers := twoAnswers_answered
  have hlost : ∀ client ∈ none, client ∈ ["a", "b"] := by decide
  have hfew : ¬300000 < 0 + 1 := by decide
  let first : Fin (numWorkers false) := ⟨0, by decide⟩
  refine ⟨_, .head (step_of_moves (.claim (i := first) rfl)) (.head
    (step_of_moves (.retry (i := first) rfl (by decide) (by decide) hlost)) (.head
    (step_of_moves (.analyse (i := first) rfl (by decide) (by decide) hres hentries)) (.head
    (step_of_moves (.draw (i := first) rfl)) (.head
    (step_of_moves (.write (i := first) rfl hdiffs hfew))
    (.single (step_of_moves (.complete (i := first) rfl))))))), rfl, rfl, rfl⟩

theorem numberedFiles_of_reaches_twoClients : ∃ s : State (Fin (numWorkers false)) String Nat,
    s.reproducers.map Reproducer.reproN = [1] ∧ NumberedFiles twoClients s := by
  obtain ⟨s, hs, -, -, hfiles⟩ := exists_reaches_twoClients
  exact ⟨s, hfiles, numberedFiles_of_reaches twoClients false s hs⟩

end DiffFuzz

end RISCover
