import Mathlib.Logic.Function.Basic
import Mathlib.Logic.Relation
import RISCover.Lib.Dict

/-!
# `MultiClient` when members are lost

A `MultiClient` spreads inputs over its members. A ticket remembers its member by position, and the
positions shift when a member is lost. The parts under `self.condition` are atomic, the calls of the
members happen between them, so a run is any order of these parts, of members that answer and of
members that die.

The workers are processes: `ticket_map` and `next_ticket` are shared, but every process has its own
list `self.clients`. Several workers in one process share it.
-/

open Relation

namespace RISCover

namespace MultiClient

variable {P W M ι : Type}

/-! ## Members

A member numbers its own tickets. It is dead for good, and fetches what it has even then. -/

/-- A member, as far as its own tickets go: what it was asked and has not answered, and the answers
that were not fetched. An answer is named by the inputs whose results it consists of. -/
structure Member (ι : Type) where
  nextTicket : Nat
  jobs : Dict Nat ι
  results : Dict Nat ι
  isDead : Bool

namespace Member

def new : Member ι := ⟨0, Dict.empty, Dict.empty, false⟩

/-- `schedule_packed_inputs` of a member, which does not look whether it is dead. -/
def schedule (c : Member ι) (inputs : ι) : Member ι :=
  { c with nextTicket := c.nextTicket + 1, jobs := c.jobs.set c.nextTicket inputs }

/-- The results of a ticket arrive. -/
def deliver (c : Member ι) (ticket : Nat) (inputs : ι) : Member ι :=
  { c with jobs := c.jobs.erase ticket, results := c.results.set ticket inputs }

/-- The results of a ticket are fetched. -/
def fetch (c : Member ι) (ticket : Nat) : Member ι :=
  { c with results := c.results.erase ticket }

/-- The ticket was given out for these inputs, and nothing else is kept under it. -/
structure Holds (c : Member ι) (ticket : Nat) (inputs : ι) : Prop where
  lt : ticket < c.nextTicket
  jobs : ∀ x, c.jobs.get? ticket = some x → x = inputs
  results : ∀ x, c.results.get? ticket = some x → x = inputs

/-- The inputs are with the member, or their results are. -/
def Keeps (c : Member ι) (ticket : Nat) (inputs : ι) : Prop :=
  c.jobs.get? ticket = some inputs ∨ c.results.get? ticket = some inputs

/-- Nothing is kept under tickets that were not given out yet. -/
structure Fresh (c : Member ι) : Prop where
  jobs : ∀ ticket x, c.jobs.get? ticket = some x → ticket < c.nextTicket
  results : ∀ ticket x, c.results.get? ticket = some x → ticket < c.nextTicket

variable {c : Member ι} {ticket : Nat} {inputs : ι}

theorem new_fresh : (new : Member ι).Fresh := by
  constructor
  · intro ticket x h
    cases h
  · intro ticket x h
    cases h

theorem Fresh.schedule (h : c.Fresh) (inputs : ι) : (c.schedule inputs).Fresh := by
  constructor
  · intro ticket x hx
    simp only [Member.schedule, Dict.get?_set] at hx ⊢
    split at hx
    next heq => omega
    next => exact (h.jobs ticket x hx).trans (Nat.lt_succ_self _)
  · intro ticket x hx
    exact (h.results ticket x hx).trans (Nat.lt_succ_self _)

theorem Fresh.deliver (h : c.Fresh) (hjob : c.jobs.get? ticket = some inputs) :
    (c.deliver ticket inputs).Fresh := by
  constructor
  · intro t x hx
    simp only [Member.deliver, Dict.get?_erase] at hx
    split at hx
    next => cases hx
    next => exact h.jobs t x hx
  · intro t x hx
    simp only [Member.deliver, Dict.get?_set] at hx
    split at hx
    next heq => exact heq ▸ h.jobs ticket inputs hjob
    next => exact h.results t x hx

theorem Fresh.fetch (h : c.Fresh) (ticket : Nat) : (c.fetch ticket).Fresh := by
  constructor
  · exact h.jobs
  · intro t x hx
    simp only [Member.fetch, Dict.get?_erase] at hx
    split at hx
    next => cases hx
    next => exact h.results t x hx

theorem Fresh.holds_schedule (h : c.Fresh) (inputs : ι) :
    (c.schedule inputs).Holds c.nextTicket inputs := by
  constructor
  · exact Nat.lt_succ_self _
  · intro x hx
    simp only [Member.schedule, Dict.get?_set, if_true] at hx
    exact (Option.some.inj hx).symm
  · intro x hx
    exact absurd (h.results _ x hx) (Nat.lt_irrefl _)

theorem Holds.schedule (h : c.Holds ticket inputs) (other : ι) :
    (c.schedule other).Holds ticket inputs := by
  constructor
  · exact h.lt.trans (Nat.lt_succ_self _)
  · intro x hx
    simp only [Member.schedule, Dict.get?_set, if_neg h.lt.ne] at hx
    exact h.jobs x hx
  · exact h.results

theorem Holds.deliver (h : c.Holds ticket inputs) {t : Nat} {x : ι}
    (hjob : c.jobs.get? t = some x) : (c.deliver t x).Holds ticket inputs := by
  constructor
  · exact h.lt
  · intro y hy
    simp only [Member.deliver, Dict.get?_erase] at hy
    split at hy
    next => cases hy
    next => exact h.jobs y hy
  · intro y hy
    simp only [Member.deliver, Dict.get?_set] at hy
    split at hy
    next heq =>
      obtain rfl := Option.some.inj hy
      exact h.jobs x (heq ▸ hjob)
    next => exact h.results y hy

theorem Holds.fetch (h : c.Holds ticket inputs) (t : Nat) : (c.fetch t).Holds ticket inputs := by
  constructor
  · exact h.lt
  · exact h.jobs
  · intro y hy
    simp only [Member.fetch, Dict.get?_erase] at hy
    split at hy
    next => cases hy
    next => exact h.results y hy

theorem keeps_schedule (c : Member ι) (inputs : ι) :
    (c.schedule inputs).Keeps c.nextTicket inputs := by
  left
  show (c.jobs.set _ _).get? _ = _
  rw [Dict.get?_set, if_pos rfl]

theorem Fresh.lt_of_keeps (h : c.Fresh) (hkeeps : c.Keeps ticket inputs) :
    ticket < c.nextTicket := by
  rcases hkeeps with hjob | hresult
  · exact h.jobs ticket inputs hjob
  · exact h.results ticket inputs hresult

theorem Keeps.schedule (h : c.Keeps ticket inputs) (hlt : ticket < c.nextTicket) (other : ι) :
    (c.schedule other).Keeps ticket inputs := by
  rcases h with hjob | hresult
  · left
    show (c.jobs.set _ _).get? _ = _
    rw [Dict.get?_set, if_neg hlt.ne]
    exact hjob
  · exact .inr hresult

/-- What is delivered under the ticket is what was asked under it. -/
theorem Keeps.deliver (h : c.Keeps ticket inputs) {t : Nat} {x : ι}
    (hx : t = ticket → x = inputs) :
    (c.deliver t x).Keeps ticket inputs := by
  by_cases heq : ticket = t
  · right
    show (c.results.set _ _).get? _ = _
    rw [Dict.get?_set, if_pos heq, hx heq.symm]
  · rcases h with hjob | hresult
    · left
      show (c.jobs.erase _).get? _ = _
      rw [Dict.get?_erase, if_neg heq]
      exact hjob
    · right
      show (c.results.set _ _).get? _ = _
      rw [Dict.get?_set, if_neg heq]
      exact hresult

theorem Keeps.fetch (h : c.Keeps ticket inputs) {t : Nat} (hne : ticket ≠ t) :
    (c.fetch t).Keeps ticket inputs := by
  rcases h with hjob | hresult
  · exact .inl hjob
  · right
    show (c.results.erase _).get? _ = _
    rw [Dict.get?_erase, if_neg hne]
    exact hresult

end Member

/-! ## Runs

The threads of a process share the list of its members, and all processes share the tickets. What is
not under the lock is a step of its own. -/

/-- The exceptions that the two methods may raise. -/
inductive Failure where
  | lostClient
  | indexError
  | valueError
  | zeroDivisionError
  deriving DecidableEq

/-- Where a worker stands in a call, with the local variables that it still needs. -/
inductive Call (M ι : Type) where
  | idle
  | picked (ourTicket clientI : Nat) (client : M) (inputs : ι)
  | placed (ourTicket realTicket clientI : Nat)
  | waiting (ticket realTicket : Nat) (client : M)
  | lost (ticket : Nat) (client : M)

/-- What a ticket was given out for. -/
structure Origin (P M ι : Type) where
  process : P
  client : M
  inputs : ι

/-- The last two fields are histories: no step looks at `outcomes`, and `origins` only says which
tickets a worker may know. -/
structure State (P W M ι : Type) where
  clients : P → List M
  members : M → Member ι
  ticketMap : Dict Nat (Nat × Nat)
  nextTicket : Nat
  calls : W → Call M ι
  origins : Dict Nat (Origin P M ι)
  outcomes : List (Nat × Except Failure ι)

/-- The list that a `MultiClient` is made of. -/
structure Pool (M : Type) where
  clients : List M
  nodup : clients.Nodup

namespace State

def init (pool : Pool M) : State P W M ι where
  clients _ := pool.clients
  members _ := Member.new
  ticketMap := Dict.empty
  nextTicket := 0
  calls _ := .idle
  origins := Dict.empty
  outcomes := []

def setCall [DecidableEq W] (s : State P W M ι) (w : W) (call : Call M ι) : State P W M ι :=
  { s with calls := Function.update s.calls w call }

def setMember [DecidableEq M] (s : State P W M ι) (m : M) (c : Member ι) : State P W M ι :=
  { s with members := Function.update s.members m c }

/-- A call ends. -/
def finish [DecidableEq W] (s : State P W M ι) (w : W) (ticket : Nat)
    (outcome : Except Failure ι) : State P W M ι :=
  { s with
    calls := Function.update s.calls w .idle
    outcomes := s.outcomes ++ [(ticket, outcome)] }

end State

/-- The atomic parts: three of `schedule_packed_inputs`, two things that happen to a member, and the
parts of `get_results`. -/
inductive Action (W M ι : Type) where
  | pick (w : W) (inputs : ι)
  | place (w : W)
  | record (w : W)
  | deliver (m : M) (realTicket : Nat)
  | die (m : M)
  | lookUp (w : W) (ticket : Nat)
  | collect (w : W)
  | drop (w : W)

section step

variable [DecidableEq P] [DecidableEq W] [DecidableEq M]

/-- One atomic part; `none` where it cannot happen, for example because a worker waits. -/
def step (process : W → P) (s : State P W M ι) : Action W M ι → Option (State P W M ι)
  | .pick w inputs =>
    match s.calls w with
    | .idle =>
      let clients := s.clients (process w)
      let ourTicket := s.nextTicket
      let s := { s with nextTicket := s.nextTicket + 1 }
      let clientI := ourTicket % clients.length
      match clients[clientI]? with
      -- the remainder by the length of an empty list
      | none => some (s.finish w ourTicket (.error .zeroDivisionError))
      | some client =>
        some ({ s with origins := s.origins.set ourTicket ⟨process w, client, inputs⟩ }.setCall w
          (.picked ourTicket clientI client inputs))
    | _ => none
  | .place w =>
    match s.calls w with
    | .picked ourTicket clientI client inputs =>
      let c := s.members client
      some ((s.setMember client (c.schedule inputs)).setCall w
        (.placed ourTicket c.nextTicket clientI))
    | _ => none
  | .record w =>
    match s.calls w with
    | .placed ourTicket realTicket clientI =>
      some ({ s with ticketMap := s.ticketMap.set ourTicket (realTicket, clientI) }.setCall w .idle)
    | _ => none
  | .deliver m realTicket =>
    match (s.members m).isDead, (s.members m).jobs.get? realTicket with
    | false, some inputs => some (s.setMember m ((s.members m).deliver realTicket inputs))
    | _, _ => none
  | .die m => some (s.setMember m { s.members m with isDead := true })
  | .lookUp w ticket =>
    match s.calls w, s.origins.get? ticket, s.ticketMap.get? ticket with
    | .idle, some origin, some (realTicket, clientI) =>
      -- a ticket is fetched in the process that it was given to
      if origin.process = process w then
        let s := { s with ticketMap := s.ticketMap.erase ticket }
        match (s.clients (process w))[clientI]? with
        | none => some (s.finish w ticket (.error .indexError))
        | some client => some (s.setCall w (.waiting ticket realTicket client))
      else none
    | _, _, _ => none
  | .collect w =>
    match s.calls w with
    | .waiting ticket realTicket client =>
      match (s.members client).results.get? realTicket with
      | some inputs =>
        some ((s.setMember client ((s.members client).fetch realTicket)).finish w ticket
          (.ok inputs))
      | none =>
        if (s.members client).isDead then some (s.setCall w (.lost ticket client)) else none
    | _ => none
  | .drop w =>
    match s.calls w with
    | .lost ticket client =>
      let clients := s.clients (process w)
      if client ∈ clients then
        some ({ s with
          clients := Function.update s.clients (process w) (clients.erase client) }.finish w ticket
            (.error .lostClient))
      -- `list.remove` of what is not in the list
      else some (s.finish w ticket (.error .valueError))
    | _ => none

/-- One step of a run. -/
def Step (process : W → P) (s s' : State P W M ι) : Prop := ∃ a, step process s a = some s'

end step

/-! ## What the class promises

`Intact` speaks of calls that have ended and of tickets that are out, `Answers` of how a call that
waits can end. -/

/-- A call of `get_results` gives results of the ticket's own inputs or says that a client was
lost. -/
def Fine (s : State P W M ι) (ticket : Nat) : Except Failure ι → Prop
  | .ok inputs => ∃ origin, s.origins.get? ticket = some origin ∧ origin.inputs = inputs
  | .error e => e = .lostClient

/-- The position leads to the member that the ticket was scheduled on. -/
def LooksUp (s : State P W M ι) (ticket clientI : Nat) : Prop :=
  ∃ origin, s.origins.get? ticket = some origin ∧
    (s.clients origin.process)[clientI]? = some origin.client

/-- Ticket integrity: all calls ended well, and all tickets lead to their own members. -/
structure Intact (s : State P W M ι) : Prop where
  outcomes : ∀ o ∈ s.outcomes, Fine s o.1 o.2
  lookups : ∀ ticket realTicket clientI,
    s.ticketMap.get? ticket = some (realTicket, clientI) → LooksUp s ticket clientI

/-- The call of the worker comes to its end. -/
structure Ends (s s' : State P W M ι) (w : W) (ticket : Nat) (outcome : Except Failure ι) :
    Prop where
  call : s'.calls w = .idle
  outcomes : s'.outcomes = s.outcomes ++ [(ticket, outcome)]

/-- What becomes of the calls of `get_results`: one part ends a call whose results have arrived, two
parts end a call on a member that died without them, and any other call waits for a member that has
its inputs and is about to answer. -/
structure Answers [DecidableEq P] [DecidableEq W] [DecidableEq M] (process : W → P)
    (s : State P W M ι) : Prop where
  fetches : ∀ w ticket realTicket client inputs, s.calls w = .waiting ticket realTicket client →
    (s.members client).results.get? realTicket = some inputs →
      ∃ s', step process s (.collect w) = some s' ∧ Ends s s' w ticket (.ok inputs) ∧
        Fine s' ticket (.ok inputs)
  dies : ∀ w ticket realTicket client, s.calls w = .waiting ticket realTicket client →
    (s.members client).results.get? realTicket = none → (s.members client).isDead = true →
      ∃ s', step process s (.collect w) = some s' ∧ s'.calls w = .lost ticket client ∧
        (client ∈ s.clients (process w) → ∃ s'', step process s' (.drop w) = some s'' ∧
          Ends s s'' w ticket (.error .lostClient))
  raises : ∀ w ticket client, s.calls w = .lost ticket client → client ∈ s.clients (process w) →
    ∃ s', step process s (.drop w) = some s' ∧ Ends s s' w ticket (.error .lostClient)
  waits : ∀ w ticket realTicket client, s.calls w = .waiting ticket realTicket client →
    (s.members client).results.get? realTicket = none → (s.members client).isDead = false →
      ∃ s' inputs, step process s (.deliver client realTicket) = some s' ∧
        s'.calls w = .waiting ticket realTicket client ∧
          (s'.members client).results.get? realTicket = some inputs ∧
            Fine s' ticket (.ok inputs)

/-- Some ticket of the process is outstanding, or is just being scheduled, at this position. -/
def Outstanding (process : W → P) (s : State P W M ι) (p : P) (clientI : Nat) : Prop :=
  (∃ ticket realTicket origin, s.ticketMap.get? ticket = some (realTicket, clientI) ∧
    s.origins.get? ticket = some origin ∧ origin.process = p) ∨
  ∃ w, process w = p ∧ ((∃ ticket client inputs, s.calls w = .picked ticket clientI client inputs) ∨
    ∃ ticket realTicket, s.calls w = .placed ticket realTicket clientI)

/-- Members are there when inputs are scheduled; a lost member is removed only once, and only while
all tickets of the process lead to members in front of it. -/
def Careful [DecidableEq M] (process : W → P) (s : State P W M ι) : Action W M ι → Prop
  | .pick w _ => s.clients (process w) ≠ []
  | .drop w => ∀ ticket client, s.calls w = .lost ticket client →
      client ∈ s.clients (process w) ∧
        ∀ clientI, Outstanding process s (process w) clientI →
          clientI < (s.clients (process w)).idxOf client
  | _ => True

/-- A loss that is seen when nothing else goes on. -/
theorem careful_drop [DecidableEq M] {process : W → P} {s : State P W M ι} {w : W} {ticket : Nat}
    {client : M} (hcall : s.calls w = .lost ticket client)
    (hclient : client ∈ s.clients (process w)) (hmap : ∀ t, s.ticketMap.get? t = none)
    (hidle : ∀ w', w' ≠ w → s.calls w' = .idle) : Careful process s (.drop w) := by
  intro ticket' client' hcall'
  obtain ⟨-, rfl⟩ := Call.lost.inj (hcall.symm.trans hcall')
  refine ⟨hclient, ?_⟩
  have hother {w' : W} {call : Call M ι} (h : s.calls w' = call) :
      call = .lost ticket client ∨ call = .idle := by
    by_cases heq : w' = w
    · exact .inl (h.symm.trans (heq ▸ hcall))
    · exact .inr (h.symm.trans (hidle w' heq))
  rintro i (⟨t, r, origin, hget, -⟩ | ⟨w', -, ⟨t, m, inputs, hpicked⟩ | ⟨t, r, hplaced⟩⟩)
  · rw [hmap t] at hget
    cases hget
  · rcases hother hpicked with h | h <;> cases h
  · rcases hother hplaced with h | h <;> cases h

/-- One step of a run that meets the condition. -/
def CarefulStep [DecidableEq P] [DecidableEq W] [DecidableEq M] (process : W → P)
    (s s' : State P W M ι) : Prop :=
  ∃ a, Careful process s a ∧ step process s a = some s'

/-! ## The invariant

A ticket that is filed has the position of its member in the list of the process that scheduled it.
-/

/-- Everything recorded about a ticket belongs together. -/
structure Filed (s : State P W M ι) (process : P) (ticket realTicket clientI : Nat)
    (origin : Origin P M ι) : Prop where
  origin_eq : s.origins.get? ticket = some origin
  process_eq : origin.process = process
  client_eq : (s.clients process)[clientI]? = some origin.client
  holds : (s.members origin.client).Holds realTicket origin.inputs

/-- What a call of a worker relies on. -/
def CallOk (process : W → P) (s : State P W M ι) (w : W) : Call M ι → Prop
  | .idle => True
  | .picked ticket clientI client inputs =>
      s.origins.get? ticket = some ⟨process w, client, inputs⟩ ∧
        (s.clients (process w))[clientI]? = some client
  | .placed ticket realTicket clientI =>
      ∃ origin, Filed s (process w) ticket realTicket clientI origin
  | .waiting ticket realTicket client =>
      ∃ origin, s.origins.get? ticket = some origin ∧
        (s.members client).Holds realTicket origin.inputs
  | .lost _ _ => True

structure Inv (process : W → P) (s : State P W M ι) : Prop where
  nodup : ∀ p, (s.clients p).Nodup
  fresh : ∀ m, (s.members m).Fresh
  lt : ∀ ticket origin, s.origins.get? ticket = some origin → ticket < s.nextTicket
  calls : ∀ w, CallOk process s w (s.calls w)
  mapped : ∀ ticket realTicket clientI, s.ticketMap.get? ticket = some (realTicket, clientI) →
    ∃ origin, Filed s origin.process ticket realTicket clientI origin
  outcomes : ∀ o ∈ s.outcomes, Fine s o.1 o.2

theorem Inv.intact {process : W → P} {s : State P W M ι} (h : Inv process s) : Intact s where
  outcomes := h.outcomes
  lookups ticket realTicket clientI hget := by
    obtain ⟨origin, hfiled⟩ := h.mapped ticket realTicket clientI hget
    exact ⟨origin, hfiled.origin_eq, hfiled.client_eq⟩

theorem inv_init (process : W → P) (pool : Pool M) :
    Inv process (State.init pool : State P W M ι) where
  nodup _ := pool.nodup
  fresh _ := Member.new_fresh
  lt _ _ h := by cases h
  calls _ := trivial
  mapped _ _ _ h := by cases h
  outcomes _ h := by cases h

/-! ## What stays as it was

Most steps change little of the state. What they leave alone keeps what it was known of it. -/

/-- Tickets keep their origin, members what they hold, and the lists stay as they are. -/
structure Extends (s s' : State P W M ι) : Prop where
  clients : s'.clients = s.clients
  origins : ∀ ticket origin, s.origins.get? ticket = some origin →
    s'.origins.get? ticket = some origin
  members : ∀ m ticket inputs, (s.members m).Holds ticket inputs →
    (s'.members m).Holds ticket inputs

section Extends

variable {process : W → P} {s s' : State P W M ι}

theorem Extends.filed (h : Extends s s') {p : P} {ticket realTicket clientI : Nat}
    {origin : Origin P M ι} (hfiled : Filed s p ticket realTicket clientI origin) :
    Filed s' p ticket realTicket clientI origin where
  origin_eq := h.origins ticket origin hfiled.origin_eq
  process_eq := hfiled.process_eq
  client_eq := by rw [h.clients]; exact hfiled.client_eq
  holds := h.members _ _ _ hfiled.holds

theorem Extends.callOk (h : Extends s s') {w : W} {call : Call M ι}
    (hcall : CallOk process s w call) : CallOk process s' w call := by
  cases call with
  | idle => trivial
  | picked ticket clientI client inputs =>
      exact ⟨h.origins _ _ hcall.1, by rw [h.clients]; exact hcall.2⟩
  | placed ticket realTicket clientI =>
      obtain ⟨origin, hfiled⟩ := hcall
      exact ⟨origin, h.filed hfiled⟩
  | waiting ticket realTicket client =>
      obtain ⟨origin, horigin, hholds⟩ := hcall
      exact ⟨origin, h.origins _ _ horigin, h.members _ _ _ hholds⟩
  | lost ticket client => trivial

theorem Extends.fine (h : Extends s s') {ticket : Nat} {outcome : Except Failure ι}
    (hfine : Fine s ticket outcome) : Fine s' ticket outcome := by
  cases outcome with
  | ok inputs =>
      obtain ⟨origin, horigin, hinputs⟩ := hfine
      exact ⟨origin, h.origins _ _ horigin, hinputs⟩
  | error e => exact hfine

theorem Extends.setCall [DecidableEq W] (h : Extends s s') (w : W) (call : Call M ι) :
    Extends s (s'.setCall w call) :=
  ⟨h.clients, h.origins, h.members⟩

theorem Extends.finish [DecidableEq W] (h : Extends s s') (w : W) (ticket : Nat)
    (outcome : Except Failure ι) : Extends s (s'.finish w ticket outcome) :=
  ⟨h.clients, h.origins, h.members⟩

theorem Extends.of_eq (hclients : s'.clients = s.clients) (horigins : s'.origins = s.origins)
    (hmembers : s'.members = s.members) : Extends s s' where
  clients := hclients
  origins _ _ horigin := by rw [horigins]; exact horigin
  members _ _ _ hholds := by rw [hmembers]; exact hholds

/-- A step that only adds: what is new has to be looked at. -/
theorem Extends.inv (h : Extends s s') (hs : Inv process s)
    (hfresh : ∀ m, (s'.members m).Fresh)
    (hlt : ∀ ticket origin, s'.origins.get? ticket = some origin → ticket < s'.nextTicket)
    (hcalls : ∀ w, s'.calls w = s.calls w ∨ CallOk process s' w (s'.calls w))
    (hmapped : ∀ ticket realTicket clientI,
      s'.ticketMap.get? ticket = some (realTicket, clientI) →
        s.ticketMap.get? ticket = some (realTicket, clientI) ∨
          ∃ origin, Filed s' origin.process ticket realTicket clientI origin)
    (houtcomes : ∀ o ∈ s'.outcomes, o ∈ s.outcomes ∨ Fine s' o.1 o.2) : Inv process s' where
  nodup p := by rw [h.clients]; exact hs.nodup p
  fresh := hfresh
  lt := hlt
  calls w := by
    rcases hcalls w with heq | hok
    · rw [heq]
      exact h.callOk (hs.calls w)
    · exact hok
  mapped ticket realTicket clientI hget := by
    rcases hmapped ticket realTicket clientI hget with hold | hnew
    · obtain ⟨origin, hfiled⟩ := hs.mapped ticket realTicket clientI hold
      exact ⟨origin, h.filed hfiled⟩
    · exact hnew
  outcomes o ho := by
    rcases houtcomes o ho with hold | hnew
    · exact h.fine (hs.outcomes o hold)
    · exact hnew

end Extends

/-! ## One step

Each action keeps the invariant, if a loss shifts no position that is still needed (`Careful`). -/

section one

variable {process : W → P} {s s' : State P W M ι}

/-- Only one worker moves. -/
theorem callOk_update [DecidableEq W] {w : W} {call : Call M ι}
    (hcalls : s'.calls = Function.update s.calls w call) (h : CallOk process s' w call) (w' : W) :
    s'.calls w' = s.calls w' ∨ CallOk process s' w' (s'.calls w') := by
  by_cases heq : w' = w
  · right
    rw [hcalls, heq, Function.update_self]
    exact h
  · left
    rw [hcalls, Function.update_of_ne heq]

/-- Only one member changes. -/
theorem holds_setMember [DecidableEq M] {m : M} {c : Member ι}
    (h : ∀ ticket inputs, (s.members m).Holds ticket inputs → c.Holds ticket inputs) (m' : M)
    (ticket : Nat) (inputs : ι) (hholds : (s.members m').Holds ticket inputs) :
    ((s.setMember m c).members m').Holds ticket inputs := by
  show (Function.update s.members m c m').Holds ticket inputs
  by_cases heq : m' = m
  · rw [heq, Function.update_self]
    exact h ticket inputs (heq ▸ hholds)
  · rw [Function.update_of_ne heq]
    exact hholds

theorem fresh_setMember [DecidableEq M] (hs : ∀ m, (s.members m).Fresh) {m : M} {c : Member ι}
    (h : c.Fresh) (m' : M) : ((s.setMember m c).members m').Fresh := by
  show (Function.update s.members m c m').Fresh
  by_cases heq : m' = m
  · rw [heq, Function.update_self]
    exact h
  · rw [Function.update_of_ne heq]
    exact hs m'

theorem extends_setMember [DecidableEq M] {m : M} {c : Member ι}
    (h : ∀ ticket inputs, (s.members m).Holds ticket inputs → c.Holds ticket inputs) :
    Extends s (s.setMember m c) where
  clients := rfl
  origins _ _ horigin := horigin
  members := holds_setMember h

variable [DecidableEq P] [DecidableEq W] [DecidableEq M]

theorem inv_pick (hs : Inv process s) {w : W} {inputs : ι} (hclients : s.clients (process w) ≠ [])
    (h : step process s (.pick w inputs) = some s') : Inv process s' := by
  simp only [step] at h
  split at h
  next =>
    have hlength := List.length_pos_iff.mpr hclients
    split at h
    next hnone =>
      rw [List.getElem?_eq_none_iff] at hnone
      exact absurd (Nat.mod_lt s.nextTicket hlength) (Nat.not_lt.mpr hnone)
    next client hsome =>
      obtain rfl := Option.some.inj h
      have hext : Extends s ({ s with
          nextTicket := s.nextTicket + 1
          origins := s.origins.set s.nextTicket ⟨process w, client, inputs⟩ }.setCall w
            (.picked s.nextTicket (s.nextTicket % (s.clients (process w)).length) client
              inputs)) := by
        refine ⟨rfl, ?_, fun _ _ _ hholds => hholds⟩
        intro ticket origin horigin
        -- the number is new, so no ticket that is out has it
        have hne := (hs.lt ticket origin horigin).ne
        show (s.origins.set _ _).get? ticket = some origin
        rw [Dict.get?_set, if_neg hne]
        exact horigin
      apply hext.inv hs hs.fresh
      · intro ticket origin horigin
        change (s.origins.set _ _).get? ticket = some origin at horigin
        show ticket < s.nextTicket + 1
        rw [Dict.get?_set] at horigin
        split at horigin
        next heq => omega
        next => exact (hs.lt ticket origin horigin).trans (Nat.lt_succ_self _)
      · refine callOk_update rfl ⟨?_, hsome⟩
        show (s.origins.set _ _).get? s.nextTicket = _
        rw [Dict.get?_set, if_pos rfl]
      · exact fun _ _ _ hget => .inl hget
      · exact fun _ ho => .inl ho
  next => cases h

theorem inv_place (hs : Inv process s) {w : W} (h : step process s (.place w) = some s') :
    Inv process s' := by
  simp only [step] at h
  split at h
  next ourTicket clientI client inputs hcall =>
    obtain rfl := Option.some.inj h
    have hok := hs.calls w
    rw [hcall] at hok
    have hext : Extends s (s.setMember client ((s.members client).schedule inputs)) :=
      extends_setMember fun _ _ hholds => hholds.schedule inputs
    refine (hext.setCall w _).inv hs ?_ hs.lt ?_ ?_ ?_
    · exact fresh_setMember hs.fresh ((hs.fresh client).schedule inputs)
    · refine callOk_update rfl ⟨⟨process w, client, inputs⟩, hok.1, rfl, hok.2, ?_⟩
      show (Function.update s.members client _ client).Holds _ _
      rw [Function.update_self]
      exact (hs.fresh client).holds_schedule inputs
    · exact fun _ _ _ hget => .inl hget
    · exact fun _ ho => .inl ho
  next => cases h

theorem inv_record (hs : Inv process s) {w : W} (h : step process s (.record w) = some s') :
    Inv process s' := by
  simp only [step] at h
  split at h
  next ourTicket realTicket clientI hcall =>
    obtain rfl := Option.some.inj h
    have hok := hs.calls w
    rw [hcall] at hok
    obtain ⟨origin, hfiled⟩ := hok
    refine Extends.inv (s := s) (.of_eq rfl rfl rfl) hs hs.fresh hs.lt ?_ ?_ ?_
    · exact callOk_update rfl trivial
    · intro ticket realTicket' clientI' hget
      change (s.ticketMap.set _ _).get? ticket = _ at hget
      rw [Dict.get?_set] at hget
      split at hget
      next heq =>
        obtain ⟨rfl, rfl⟩ := Prod.mk.inj (Option.some.inj hget)
        subst heq
        exact .inr ⟨origin, hfiled.origin_eq, rfl, hfiled.process_eq ▸ hfiled.client_eq,
          hfiled.holds⟩
      next => exact .inl hget
    · exact fun _ ho => .inl ho
  next => cases h

theorem inv_deliver (hs : Inv process s) {m : M} {realTicket : Nat}
    (h : step process s (.deliver m realTicket) = some s') : Inv process s' := by
  simp only [step] at h
  split at h
  next inputs _ hjob =>
    obtain rfl := Option.some.inj h
    refine (extends_setMember fun _ _ hholds => hholds.deliver hjob).inv hs ?_ hs.lt ?_ ?_ ?_
    · exact fresh_setMember hs.fresh ((hs.fresh m).deliver hjob)
    · exact fun _ => .inl rfl
    · exact fun _ _ _ hget => .inl hget
    · exact fun _ ho => .inl ho
  next => cases h

theorem inv_die (hs : Inv process s) {m : M} (h : step process s (.die m) = some s') :
    Inv process s' := by
  obtain rfl := Option.some.inj h
  have hext : Extends s (s.setMember m { s.members m with isDead := true }) :=
    extends_setMember fun _ _ hholds => ⟨hholds.lt, hholds.jobs, hholds.results⟩
  refine hext.inv hs ?_ hs.lt ?_ ?_ ?_
  · exact fresh_setMember hs.fresh ⟨(hs.fresh m).jobs, (hs.fresh m).results⟩
  · exact fun _ => .inl rfl
  · exact fun _ _ _ hget => .inl hget
  · exact fun _ ho => .inl ho

theorem inv_lookUp (hs : Inv process s) {w : W} {ticket : Nat}
    (h : step process s (.lookUp w ticket) = some s') : Inv process s' := by
  simp only [step] at h
  split at h
  next origin realTicket clientI _ horigin hget =>
    split at h
    next hprocess =>
      -- the position is still that of the member that the ticket was scheduled on
      obtain ⟨origin', hfiled⟩ := hs.mapped ticket realTicket clientI hget
      obtain rfl := Option.some.inj (horigin.symm.trans hfiled.origin_eq)
      have hclient := hfiled.client_eq
      rw [hprocess] at hclient
      have hmapped : ∀ t r i, (s.ticketMap.erase ticket).get? t = some (r, i) →
          s.ticketMap.get? t = some (r, i) := by
        intro t r i ht
        rw [Dict.get?_erase] at ht
        split at ht
        next => cases ht
        next => exact ht
      rw [hclient] at h
      obtain rfl := Option.some.inj h
      refine Extends.inv (s := s) (.of_eq rfl rfl rfl) hs hs.fresh hs.lt ?_ ?_ ?_
      · exact callOk_update rfl ⟨origin, horigin, hfiled.holds⟩
      · exact fun t r i ht => .inl (hmapped t r i ht)
      · exact fun _ ho => .inl ho
    next => cases h
  next => cases h

theorem inv_collect (hs : Inv process s) {w : W} (h : step process s (.collect w) = some s') :
    Inv process s' := by
  simp only [step] at h
  split at h
  next ticket realTicket client hcall =>
    have hok := hs.calls w
    rw [hcall] at hok
    obtain ⟨origin, horigin, hholds⟩ := hok
    split at h
    next inputs hresult =>
      obtain rfl := Option.some.inj h
      have hext : Extends s (s.setMember client ((s.members client).fetch realTicket)) :=
        extends_setMember fun _ _ hholds => hholds.fetch realTicket
      refine (hext.finish w ticket (.ok inputs)).inv hs ?_ hs.lt ?_ ?_ ?_
      · exact fresh_setMember hs.fresh ((hs.fresh client).fetch realTicket)
      · exact callOk_update rfl trivial
      · exact fun _ _ _ hget => .inl hget
      · intro o ho
        rcases List.mem_append.mp ho with hold | hnew
        · exact .inl hold
        · -- what the member has under the ticket are the inputs that were scheduled
          obtain rfl := List.mem_singleton.mp hnew
          exact .inr ⟨origin, horigin, (hholds.results inputs hresult).symm⟩
    next =>
      split at h
      next =>
        obtain rfl := Option.some.inj h
        refine Extends.inv (s := s) (.of_eq rfl rfl rfl) hs hs.fresh hs.lt ?_ ?_ ?_
        · exact callOk_update rfl trivial
        · exact fun _ _ _ hget => .inl hget
        · exact fun _ ho => .inl ho
      next => cases h
  next => cases h

/-- Positions in front of a lost member stay. -/
theorem getElem?_erase_of_lt {clients : List M} {client : M} {i : Nat}
    (hi : i < clients.idxOf client) : (clients.erase client)[i]? = clients[i]? := by
  rw [← List.eraseIdx_idxOf_eq_erase, List.getElem?_eraseIdx_of_lt hi]

/-- All other positions lead elsewhere. -/
theorem getElem?_erase_ne {clients : List M} (hnodup : clients.Nodup) {client m : M} {i : Nat}
    (hi : clients.idxOf client ≤ i) (hm : clients[i]? = some m) :
    (clients.erase client)[i]? ≠ some m := by
  rw [← List.eraseIdx_idxOf_eq_erase, List.getElem?_eraseIdx_of_ge hi]
  intro hnext
  have hlt := (List.getElem?_eq_some_iff.mp hm).1
  have heq := (List.getElem?_inj hlt hnodup).mp (hm.trans hnext.symm)
  omega

theorem inv_drop (hs : Inv process s) {w : W} (hcareful : Careful process s (.drop w))
    (h : step process s (.drop w) = some s') : Inv process s' := by
  simp only [step] at h
  split at h
  next ticket client hcall =>
    obtain ⟨hclient, hfront⟩ := hcareful ticket client hcall
    rw [if_pos hclient] at h
    obtain rfl := Option.some.inj h
    -- every position that a ticket or a call still needs is in front of the lost member
    have hkeep {p : P} {i : Nat} {m : M} (hout : Outstanding process s p i)
        (hm : (s.clients p)[i]? = some m) :
        (Function.update s.clients (process w) ((s.clients (process w)).erase client) p)[i]? =
          some m := by
      by_cases heq : p = process w
      · subst heq
        rw [Function.update_self, getElem?_erase_of_lt (hfront i hout)]
        exact hm
      · rw [Function.update_of_ne heq]
        exact hm
    constructor
    case nodup =>
      intro p
      show (Function.update s.clients (process w) _ p).Nodup
      by_cases heq : p = process w
      · rw [heq, Function.update_self]
        exact (hs.nodup _).erase _
      · rw [Function.update_of_ne heq]
        exact hs.nodup p
    case fresh => exact hs.fresh
    case lt => exact hs.lt
    case calls =>
      intro w'
      show CallOk process _ w' (Function.update s.calls w .idle w')
      by_cases heq : w' = w
      · rw [heq, Function.update_self]
        trivial
      · rw [Function.update_of_ne heq]
        have hok := hs.calls w'
        cases hcall' : s.calls w' with
        | idle => trivial
        | picked t i m inputs =>
            rw [hcall'] at hok
            exact ⟨hok.1, hkeep (.inr ⟨w', rfl, .inl ⟨t, m, inputs, hcall'⟩⟩) hok.2⟩
        | placed t r i =>
            rw [hcall'] at hok
            obtain ⟨origin, hfiled⟩ := hok
            exact ⟨origin, hfiled.origin_eq, hfiled.process_eq,
              hkeep (.inr ⟨w', rfl, .inr ⟨t, r, hcall'⟩⟩) hfiled.client_eq, hfiled.holds⟩
        | waiting t r m =>
            rw [hcall'] at hok
            exact hok
        | lost t m => trivial
    case mapped =>
      intro t r i hget
      obtain ⟨origin, hfiled⟩ := hs.mapped t r i hget
      exact ⟨origin, hfiled.origin_eq, rfl,
        hkeep (.inl ⟨t, r, origin, hget, hfiled.origin_eq, rfl⟩) hfiled.client_eq, hfiled.holds⟩
    case outcomes =>
      intro o ho
      rcases List.mem_append.mp ho with hold | hnew
      · have hfine := hs.outcomes o hold
        obtain ⟨t, outcome⟩ := o
        cases outcome <;> exact hfine
      · obtain rfl := List.mem_singleton.mp hnew
        rfl
  next => cases h

/-- One step keeps what the tickets rely on, if the condition is met. -/
theorem inv_step (hs : Inv process s) {a : Action W M ι} (hcareful : Careful process s a)
    (h : step process s a = some s') : Inv process s' := by
  cases a with
  | pick w inputs => exact inv_pick hs hcareful h
  | place w => exact inv_place hs h
  | record w => exact inv_record hs h
  | deliver m realTicket => exact inv_deliver hs h
  | die m => exact inv_die hs h
  | lookUp w ticket => exact inv_lookUp hs h
  | collect w => exact inv_collect hs h
  | drop w => exact inv_drop hs hcareful h

/-! ## What the members keep

A ticket, or a call that is under way, holds a ticket of its member, and the member keeps it until
it is fetched. Nobody else holds the same one. -/

/-- Who will fetch what a member keeps under a real ticket: an entry of `ticket_map`, or a worker
that is about to make this entry or has taken it out. -/
def Holder (s : State P W M ι) : Nat ⊕ W → (client : M) → (realTicket : Nat) → ι → Prop
  | .inl ticket, client, realTicket, inputs =>
      ∃ clientI origin, s.ticketMap.get? ticket = some (realTicket, clientI) ∧
        s.origins.get? ticket = some origin ∧ origin.client = client ∧ origin.inputs = inputs
  | .inr w, client, realTicket, inputs =>
      ∃ ticket origin, s.origins.get? ticket = some origin ∧ origin.inputs = inputs ∧
        ((∃ clientI, s.calls w = .placed ticket realTicket clientI ∧ origin.client = client) ∨
          s.calls w = .waiting ticket realTicket client)

/-- Every real ticket has one holder, and the member has what it waits for. -/
structure Kept (s : State P W M ι) : Prop where
  keeps : ∀ h client realTicket inputs, Holder s h client realTicket inputs →
    (s.members client).Keeps realTicket inputs
  unique : ∀ h h' client realTicket inputs inputs', Holder s h client realTicket inputs →
    Holder s h' client realTicket inputs' → h = h'

omit [DecidableEq P] [DecidableEq W] [DecidableEq M] in
theorem kept_init (pool : Pool M) : Kept (State.init pool : State P W M ι) := by
  have hnone (h : Nat ⊕ W) (client : M) (realTicket : Nat) (inputs : ι) :
      ¬Holder (State.init pool : State P W M ι) h client realTicket inputs := by
    cases h with
    | inl ticket =>
        rintro ⟨_, _, hget, -⟩
        cases hget
    | inr w =>
        rintro ⟨_, _, horigin, -⟩
        cases horigin
  exact ⟨fun h m r x hh => absurd hh (hnone h m r x),
    fun h _ m r x _ hh => absurd hh (hnone h m r x)⟩

omit [DecidableEq P] [DecidableEq W] [DecidableEq M] in
/-- What a holder waits for was asked under its real ticket. -/
theorem Holder.holds (hi : Inv process s) {holder : Nat ⊕ W} {client : M} {realTicket : Nat}
    {inputs : ι} (h : Holder s holder client realTicket inputs) :
    (s.members client).Holds realTicket inputs := by
  cases holder with
  | inl ticket =>
      obtain ⟨clientI, origin, hget, horigin, rfl, rfl⟩ := h
      obtain ⟨origin', hfiled⟩ := hi.mapped ticket realTicket clientI hget
      obtain rfl := Option.some.inj (horigin.symm.trans hfiled.origin_eq)
      exact hfiled.holds
  | inr w =>
      obtain ⟨ticket, origin, horigin, rfl, hcall⟩ := h
      have hok := hi.calls w
      rcases hcall with ⟨clientI, hcall, rfl⟩ | hcall
      · rw [hcall] at hok
        obtain ⟨origin', hfiled⟩ := hok
        obtain rfl := Option.some.inj (horigin.symm.trans hfiled.origin_eq)
        exact hfiled.holds
      · rw [hcall] at hok
        obtain ⟨origin', horigin', hholds⟩ := hok
        obtain rfl := Option.some.inj (horigin.symm.trans horigin')
        exact hholds

omit [DecidableEq P] [DecidableEq W] [DecidableEq M] in
/-- Every holder was one before, and what it waits for stays. -/
theorem Kept.of_holders (hs : Kept s) (e : Nat ⊕ W → Nat ⊕ W) (he : Function.Injective e)
    (h : ∀ holder client realTicket inputs, Holder s' holder client realTicket inputs →
      Holder s (e holder) client realTicket inputs ∧
        ((s.members client).Keeps realTicket inputs →
          (s'.members client).Keeps realTicket inputs)) : Kept s' where
  keeps holder client realTicket inputs hholder := by
    obtain ⟨hold, hkeeps⟩ := h holder client realTicket inputs hholder
    exact hkeeps (hs.keeps _ client realTicket inputs hold)
  unique holder holder' client realTicket inputs inputs' hholder hholder' :=
    he (hs.unique _ _ client realTicket inputs inputs'
      (h holder client realTicket inputs hholder).1
      (h holder' client realTicket inputs' hholder').1)

omit [DecidableEq P] [DecidableEq M] in
/-- Where one worker moves to a place in which it holds nothing, no holder is new. -/
theorem Holder.of_update (hi : Inv process s) {holder : Nat ⊕ W} {client : M} {realTicket : Nat}
    {inputs : ι} (h : Holder s' holder client realTicket inputs)
    (horigins : ∀ ticket origin, s.origins.get? ticket = some origin →
      s'.origins.get? ticket = some origin)
    (hmap : ∀ ticket v, s'.ticketMap.get? ticket = some v → s.ticketMap.get? ticket = some v)
    {w : W} {call : Call M ι} (hcalls : s'.calls = Function.update s.calls w call)
    (hplaced : ∀ t r i, call ≠ .placed t r i) (hwaiting : ∀ t r m, call ≠ .waiting t r m) :
    Holder s holder client realTicket inputs ∧ holder ≠ .inr w := by
  -- the holder is a ticket that is filed, or a call that has not filed it yet
  cases holder with
  | inl ticket =>
      obtain ⟨clientI, origin', hget, horigin', hclient, hinputs⟩ := h
      have hget := hmap ticket _ hget
      obtain ⟨origin, hfiled⟩ := hi.mapped ticket realTicket clientI hget
      obtain rfl := Option.some.inj
        (horigin'.symm.trans (horigins ticket origin hfiled.origin_eq))
      exact ⟨⟨clientI, origin', hget, hfiled.origin_eq, hclient, hinputs⟩, Sum.inl_ne_inr⟩
  | inr w' =>
      obtain ⟨ticket, origin', horigin', hinputs, hcall⟩ := h
      have hne : w' ≠ w := by
        rintro rfl
        rw [hcalls, Function.update_self] at hcall
        rcases hcall with ⟨clientI, hcall, -⟩ | hcall
        · exact hplaced _ _ _ hcall
        · exact hwaiting _ _ _ hcall
      rw [hcalls, Function.update_of_ne hne] at hcall
      have hok := hi.calls w'
      have horigin : s.origins.get? ticket = some origin' := by
        rcases hcall with ⟨clientI, hcall, -⟩ | hcall
        · rw [hcall] at hok
          obtain ⟨origin, hfiled⟩ := hok
          have heq := horigin'.symm.trans (horigins ticket origin hfiled.origin_eq)
          rw [heq]
          exact hfiled.origin_eq
        · rw [hcall] at hok
          obtain ⟨origin, horigin, -⟩ := hok
          have heq := horigin'.symm.trans (horigins ticket origin horigin)
          rw [heq]
          exact horigin
      exact ⟨⟨ticket, origin', horigin, hinputs, hcall⟩, fun heq => hne (Sum.inr.inj heq)⟩

omit [DecidableEq P] [DecidableEq M] in
/-- A worker moves, and the members stay as they are. -/
theorem Kept.of_update (hi : Inv process s) (hs : Kept s)
    (horigins : ∀ ticket origin, s.origins.get? ticket = some origin →
      s'.origins.get? ticket = some origin)
    (hmap : ∀ ticket v, s'.ticketMap.get? ticket = some v → s.ticketMap.get? ticket = some v)
    (hmembers : s'.members = s.members)
    {w : W} {call : Call M ι} (hcalls : s'.calls = Function.update s.calls w call)
    (hplaced : ∀ t r i, call ≠ .placed t r i) (hwaiting : ∀ t r m, call ≠ .waiting t r m) :
    Kept s' := by
  refine hs.of_holders id Function.injective_id fun holder client realTicket inputs h => ?_
  rw [hmembers]
  exact ⟨(h.of_update hi horigins hmap hcalls hplaced hwaiting).1, id⟩

theorem kept_pick (hi : Inv process s) (hs : Kept s) {w : W} {inputs : ι}
    (h : step process s (.pick w inputs) = some s') : Kept s' := by
  simp only [step] at h
  split at h
  next =>
    split at h
    next =>
      obtain rfl := Option.some.inj h
      exact hs.of_update hi (fun _ _ ho => ho) (fun _ _ hv => hv) rfl rfl nofun nofun
    next client hsome =>
      obtain rfl := Option.some.inj h
      refine hs.of_update hi ?_ (fun _ _ hv => hv) rfl rfl nofun nofun
      intro ticket origin horigin
      show (s.origins.set _ _).get? ticket = some origin
      rw [Dict.get?_set, if_neg (hi.lt ticket origin horigin).ne]
      exact horigin
  next => cases h

/-- The member gives out a real ticket that nobody holds. -/
theorem kept_place (hi : Inv process s) (hs : Kept s) {w : W}
    (h : step process s (.place w) = some s') : Kept s' := by
  simp only [step] at h
  split at h
  next ourTicket clientI client inputs hcall =>
    obtain rfl := Option.some.inj h
    have hok := hi.calls w
    rw [hcall] at hok
    -- the new ticket of the member is held by the call alone
    have hcase (holder : Nat ⊕ W) (m : M) (r : Nat) (x : ι)
        (hholder : Holder ((s.setMember client ((s.members client).schedule inputs)).setCall w
          (.placed ourTicket (s.members client).nextTicket clientI)) holder m r x) :
        (holder = .inr w ∧ m = client ∧ r = (s.members client).nextTicket ∧ x = inputs) ∨
          Holder s holder m r x := by
      by_cases hw : holder = .inr w
      · subst hw
        obtain ⟨ticket, origin, horigin, rfl, hcall'⟩ := hholder
        simp only [State.setCall, Function.update_self] at hcall'
        rcases hcall' with ⟨i, hcall', rfl⟩ | hcall'
        · obtain ⟨rfl, rfl, -⟩ := Call.placed.inj hcall'
          obtain rfl := Option.some.inj (hok.1.symm.trans horigin)
          exact .inl ⟨rfl, rfl, rfl, rfl⟩
        · cases hcall'
      · right
        cases holder with
        | inl ticket => exact hholder
        | inr w' =>
            have hne : w' ≠ w := fun heq => hw (congrArg Sum.inr heq)
            obtain ⟨ticket, origin, horigin, hinputs, hcall'⟩ := hholder
            simp only [State.setCall, Function.update_of_ne hne] at hcall'
            exact ⟨ticket, origin, horigin, hinputs, hcall'⟩
    constructor
    case keeps =>
      intro holder m r x hholder
      show (Function.update s.members client _ m).Keeps r x
      rcases hcase holder m r x hholder with ⟨-, rfl, rfl, rfl⟩ | hold
      · rw [Function.update_self]
        exact Member.keeps_schedule _ _
      · have hkeeps := hs.keeps holder m r x hold
        by_cases hm : m = client
        · subst hm
          rw [Function.update_self]
          exact hkeeps.schedule ((hi.fresh m).lt_of_keeps hkeeps) inputs
        · rw [Function.update_of_ne hm]
          exact hkeeps
    case unique =>
      have hnew (holder : Nat ⊕ W) (x : ι) :
          ¬Holder s holder client (s.members client).nextTicket x := fun hold =>
        Nat.lt_irrefl _ ((hi.fresh client).lt_of_keeps (hs.keeps holder client _ x hold))
      intro holder holder' m r x x' hholder hholder'
      rcases hcase holder m r x hholder with ⟨rfl, rfl, rfl, -⟩ | hold
      · rcases hcase holder' _ _ x' hholder' with ⟨rfl, -⟩ | hold'
        · rfl
        · exact absurd hold' (hnew holder' x')
      · rcases hcase holder' m r x' hholder' with ⟨rfl, rfl, rfl, -⟩ | hold'
        · exact absurd hold (hnew holder x)
        · exact hs.unique holder holder' m r x x' hold hold'
  next => cases h

/-- The entry of `ticket_map` takes over from the worker. -/
theorem kept_record (hs : Kept s) {w : W} (h : step process s (.record w) = some s') :
    Kept s' := by
  simp only [step] at h
  split at h
  next ourTicket realTicket clientI hcall =>
    obtain rfl := Option.some.inj h
    refine hs.of_holders (Equiv.swap (.inl ourTicket) (.inr w)) (Equiv.injective _) ?_
    intro holder m r x hholder
    refine ⟨?_, id⟩
    cases holder with
    | inl ticket =>
        obtain ⟨i, origin, hget, horigin, hclient, hinputs⟩ := hholder
        change (s.ticketMap.set _ _).get? ticket = _ at hget
        rw [Dict.get?_set] at hget
        split at hget
        next heq =>
          subst heq
          obtain ⟨rfl, rfl⟩ := Prod.mk.inj (Option.some.inj hget)
          rw [Equiv.swap_apply_left]
          exact ⟨ticket, origin, horigin, hinputs, .inl ⟨clientI, hcall, hclient⟩⟩
        next hne =>
          rw [Equiv.swap_apply_of_ne_of_ne (fun heq => hne (Sum.inl.inj heq)) Sum.inl_ne_inr]
          exact ⟨i, origin, hget, horigin, hclient, hinputs⟩
    | inr w' =>
        obtain ⟨ticket, origin, horigin, hinputs, hcall'⟩ := hholder
        by_cases hw : w' = w
        · simp [State.setCall, hw] at hcall'
        · simp only [State.setCall, Function.update_of_ne hw] at hcall'
          rw [Equiv.swap_apply_of_ne_of_ne Sum.inr_ne_inl fun heq => hw (Sum.inr.inj heq)]
          exact ⟨ticket, origin, horigin, hinputs, hcall'⟩
  next => cases h

theorem kept_deliver (hi : Inv process s) (hs : Kept s) {m : M} {realTicket : Nat}
    (h : step process s (.deliver m realTicket) = some s') : Kept s' := by
  simp only [step] at h
  split at h
  next inputs _ hjob =>
    obtain rfl := Option.some.inj h
    refine hs.of_holders id Function.injective_id fun holder client r x hholder => ⟨hholder, ?_⟩
    intro hkeeps
    show (Function.update s.members m _ client).Keeps r x
    by_cases hm : client = m
    · subst hm
      rw [Function.update_self]
      refine hkeeps.deliver ?_
      rintro rfl
      exact (hholder.holds hi).jobs _ hjob
    · rw [Function.update_of_ne hm]
      exact hkeeps
  next => cases h

theorem kept_die (hs : Kept s) {m : M} (h : step process s (.die m) = some s') : Kept s' := by
  obtain rfl := Option.some.inj h
  refine hs.of_holders id Function.injective_id fun holder client r x hholder => ⟨hholder, ?_⟩
  intro hkeeps
  show (Function.update s.members m _ client).Keeps r x
  by_cases hm : client = m
  · subst hm
    rw [Function.update_self]
    exact hkeeps
  · rw [Function.update_of_ne hm]
    exact hkeeps

/-- The worker takes over from the entry of `ticket_map`. -/
theorem kept_lookUp (hi : Inv process s) (hs : Kept s) {w : W} {ticket : Nat}
    (h : step process s (.lookUp w ticket) = some s') : Kept s' := by
  have herase (t : Nat) (v : Nat × Nat) (hv : (s.ticketMap.erase ticket).get? t = some v) :
      t ≠ ticket ∧ s.ticketMap.get? t = some v := by
    rw [Dict.get?_erase] at hv
    split at hv
    next => cases hv
    next hne => exact ⟨hne, hv⟩
  simp only [step] at h
  split at h
  next origin realTicket clientI hidle horigin hget =>
    split at h
    next hprocess =>
      split at h
      next =>
        obtain rfl := Option.some.inj h
        exact hs.of_update hi (fun _ _ ho => ho) (fun t v hv => (herase t v hv).2) rfl rfl (by simp)
          (by simp)
      next client hsome =>
        obtain rfl := Option.some.inj h
        refine hs.of_holders (Equiv.swap (.inl ticket) (.inr w)) (Equiv.injective _) ?_
        intro holder m r x hholder
        refine ⟨?_, id⟩
        cases holder with
        | inl t =>
            obtain ⟨i, o, hgett, hrest⟩ := hholder
            obtain ⟨hne, hgett⟩ := herase t _ hgett
            rw [Equiv.swap_apply_of_ne_of_ne (fun heq => hne (Sum.inl.inj heq)) Sum.inl_ne_inr]
            exact ⟨i, o, hgett, hrest⟩
        | inr w' =>
            obtain ⟨t, o, ho, hinputs, hcall⟩ := hholder
            by_cases hw : w' = w
            · subst hw
              simp only [State.setCall, Function.update_self] at hcall
              rcases hcall with ⟨i, hcall, -⟩ | hcall
              · cases hcall
              · obtain ⟨rfl, rfl, rfl⟩ := Call.waiting.inj hcall
                -- the position leads to the member that the ticket was scheduled on
                obtain ⟨origin', hfiled⟩ := hi.mapped ticket realTicket clientI hget
                obtain rfl := Option.some.inj (horigin.symm.trans hfiled.origin_eq)
                obtain rfl := Option.some.inj (horigin.symm.trans ho)
                have hclient := hfiled.client_eq
                rw [hprocess, hsome] at hclient
                rw [Equiv.swap_apply_right]
                exact ⟨clientI, origin, hget, horigin, (Option.some.inj hclient).symm, hinputs⟩
            · simp only [State.setCall, Function.update_of_ne hw] at hcall
              rw [Equiv.swap_apply_of_ne_of_ne Sum.inr_ne_inl fun heq => hw (Sum.inr.inj heq)]
              exact ⟨t, o, ho, hinputs, hcall⟩
    next => cases h
  next => cases h

/-- Nobody else waits for what is fetched. -/
theorem kept_collect (hi : Inv process s) (hs : Kept s) {w : W}
    (h : step process s (.collect w) = some s') : Kept s' := by
  simp only [step] at h
  split at h
  next ticket realTicket client hcall =>
    split at h
    next inputs hresult =>
      obtain rfl := Option.some.inj h
      have hok := hi.calls w
      rw [hcall] at hok
      obtain ⟨origin, horigin, -⟩ := hok
      have hholder : Holder s (.inr w) client realTicket origin.inputs :=
        ⟨ticket, origin, horigin, rfl, .inr hcall⟩
      refine hs.of_holders id Function.injective_id fun holder m r x hholder' => ?_
      obtain ⟨hold, hne⟩ := hholder'.of_update hi (fun _ _ ho => ho) (fun _ _ hv => hv) rfl
        (by simp) (by simp)
      refine ⟨hold, fun hkeeps => ?_⟩
      show (Function.update s.members client _ m).Keeps r x
      by_cases hm : m = client
      · subst hm
        rw [Function.update_self]
        refine hkeeps.fetch ?_
        rintro rfl
        exact hne (hs.unique holder (.inr w) m r x origin.inputs hold hholder)
      · rw [Function.update_of_ne hm]
        exact hkeeps
    next =>
      split at h
      next =>
        obtain rfl := Option.some.inj h
        exact hs.of_update hi (fun _ _ ho => ho) (fun _ _ hv => hv) rfl rfl (by simp) (by simp)
      next => cases h
  next => cases h

theorem kept_drop (hi : Inv process s) (hs : Kept s) {w : W}
    (h : step process s (.drop w) = some s') : Kept s' := by
  simp only [step] at h
  split at h
  next ticket client hcall =>
    split at h
    all_goals
      obtain rfl := Option.some.inj h
      exact hs.of_update hi (fun _ _ ho => ho) (fun _ _ hv => hv) rfl rfl nofun nofun
  next => cases h

/-- One step keeps what is outstanding with the members. -/
theorem kept_step (hi : Inv process s) (hs : Kept s) {a : Action W M ι}
    (h : step process s a = some s') : Kept s' := by
  cases a with
  | pick w inputs => exact kept_pick hi hs h
  | place w => exact kept_place hi hs h
  | record w => exact kept_record hs h
  | deliver m realTicket => exact kept_deliver hi hs h
  | die m => exact kept_die hs h
  | lookUp w ticket => exact kept_lookUp hi hs h
  | collect w => exact kept_collect hi hs h
  | drop w => exact kept_drop hi hs h

/-! ## How the calls end

A call on a member with the results returns them, and one on a dead member without them raises. -/

/-- A call whose results have arrived returns them. -/
theorem ends_collect (hi : Inv process s) {w : W} {ticket realTicket : Nat} {client : M}
    {inputs : ι} (hcall : s.calls w = .waiting ticket realTicket client)
    (hresult : (s.members client).results.get? realTicket = some inputs) :
    ∃ s', step process s (.collect w) = some s' ∧ Ends s s' w ticket (.ok inputs) ∧
      Fine s' ticket (.ok inputs) := by
  have hok := hi.calls w
  rw [hcall] at hok
  obtain ⟨origin, horigin, hholds⟩ := hok
  have hcollect : step process s (.collect w) =
      some ((s.setMember client ((s.members client).fetch realTicket)).finish w ticket
        (.ok inputs)) := by
    simp only [step, hcall, hresult]
  exact ⟨_, hcollect, ⟨Function.update_self w _ _, rfl⟩, origin, horigin,
    (hholds.results inputs hresult).symm⟩

/-- A call that knows of a lost member raises. -/
theorem ends_drop {w : W} {ticket : Nat} {client : M} (hcall : s.calls w = .lost ticket client)
    (hclient : client ∈ s.clients (process w)) :
    ∃ s', step process s (.drop w) = some s' ∧ Ends s s' w ticket (.error .lostClient) := by
  have hdrop : step process s (.drop w) = some ({ s with
      clients := Function.update s.clients (process w)
        ((s.clients (process w)).erase client) }.finish w ticket (.error .lostClient)) := by
    simp only [step, hcall, if_pos hclient]
  exact ⟨_, hdrop, Function.update_self w _ _, rfl⟩

/-- A call on a member that died without an answer. -/
theorem lost_collect {w : W} {ticket realTicket : Nat} {client : M}
    (hcall : s.calls w = .waiting ticket realTicket client)
    (hnone : (s.members client).results.get? realTicket = none)
    (hdead : (s.members client).isDead = true) :
    ∃ s', step process s (.collect w) = some s' ∧ s'.calls w = .lost ticket client ∧
      (client ∈ s.clients (process w) → ∃ s'', step process s' (.drop w) = some s'' ∧
        Ends s s'' w ticket (.error .lostClient)) := by
  have hcollect : step process s (.collect w) = some (s.setCall w (.lost ticket client)) := by
    simp only [step, hcall, hnone, hdead, if_true]
  have hlost : (s.setCall w (.lost ticket client)).calls w = .lost ticket client :=
    Function.update_self w _ _
  refine ⟨_, hcollect, hlost, fun hclient => ?_⟩
  have hdrop : ∃ s'', step process (s.setCall w (.lost ticket client)) (.drop w) = some s'' ∧
      Ends (s.setCall w (.lost ticket client)) s'' w ticket (.error .lostClient) :=
    ends_drop hlost hclient
  obtain ⟨s'', hs'', hends⟩ := hdrop
  exact ⟨s'', hs'', hends.call, hends.outcomes⟩

/-- A member that is alive can answer a call that waits for it. -/
theorem deliver_of_waiting (hi : Inv process s) (hs : Kept s) {w : W} {ticket realTicket : Nat}
    {client : M} (hcall : s.calls w = .waiting ticket realTicket client)
    (hnone : (s.members client).results.get? realTicket = none)
    (halive : (s.members client).isDead = false) :
    ∃ s' inputs, step process s (.deliver client realTicket) = some s' ∧
      s'.calls w = .waiting ticket realTicket client ∧
        (s'.members client).results.get? realTicket = some inputs ∧
          Fine s' ticket (.ok inputs) := by
  have hok := hi.calls w
  rw [hcall] at hok
  obtain ⟨origin, horigin, -⟩ := hok
  -- the member still has the job, as the call holds its ticket and there are no results
  have hjob : (s.members client).jobs.get? realTicket = some origin.inputs := by
    rcases hs.keeps (.inr w) client realTicket origin.inputs
      ⟨ticket, origin, horigin, rfl, .inr hcall⟩ with hjob | hresult
    · exact hjob
    · rw [hnone] at hresult
      cases hresult
  have hdeliver : step process s (.deliver client realTicket) =
      some (s.setMember client ((s.members client).deliver realTicket origin.inputs)) := by
    simp only [step, halive, hjob]
  refine ⟨_, origin.inputs, hdeliver, hcall, ?_, origin, horigin, rfl⟩
  show (Function.update s.members client _ client).results.get? realTicket = _
  rw [Function.update_self]
  show ((s.members client).results.set _ _).get? realTicket = _
  rw [Dict.get?_set, if_pos rfl]

theorem Inv.answers (hi : Inv process s) (hs : Kept s) : Answers process s where
  fetches _ _ _ _ _ hcall hresult := ends_collect hi hcall hresult
  dies _ _ _ _ hcall hnone hdead := lost_collect hcall hnone hdead
  raises _ _ _ hcall hclient := ends_drop hcall hclient
  waits _ _ _ _ hcall hnone halive := deliver_of_waiting hi hs hcall hnone halive

end one

/-! ## All runs

The invariant holds of all states of a run, and the promises follow from it. -/

section runs

variable [DecidableEq P] [DecidableEq W] [DecidableEq M] {process : W → P}

theorem inv_of_run {pool : Pool M} {s : State P W M ι}
    (h : ReflTransGen (CarefulStep process) (State.init pool) s) : Inv process s ∧ Kept s := by
  induction h with
  | refl => exact ⟨inv_init process pool, kept_init pool⟩
  | tail _ hstep ih =>
      obtain ⟨a, hcareful, ha⟩ := hstep
      exact ⟨inv_step ih.1 hcareful ha, kept_step ih.1 ih.2 ha⟩

/-- In every run that meets the condition, all calls that ended have ended well, all tickets lead to
their own members, and the calls that have not ended do so once their members answer or die. -/
theorem tickets_keep_member {process : W → P} (pool : Pool M) (s : State P W M ι)
    (h : ReflTransGen (CarefulStep process) (State.init pool) s) :
    Intact s ∧ Answers process s := by
  obtain ⟨hi, hs⟩ := inv_of_run h
  exact ⟨hi.intact, hi.answers hs⟩

/-! ## The condition leaves nothing else out

From a state with the invariant, a step that is not careful leads to a state where the promise is
broken. -/

omit [DecidableEq P] [DecidableEq W] [DecidableEq M] in
theorem not_intact_of_outcome {s : State P W M ι} {ticket : Nat} {e : Failure}
    (h : (ticket, .error e) ∈ s.outcomes) (hne : e ≠ .lostClient) : ¬Intact s :=
  fun hs => hne (hs.outcomes _ h)

omit [DecidableEq W] in
/-- A position behind a removed member leads elsewhere. -/
theorem not_looksUp_of_erase {s s' : State P W M ι} (hs : Inv process s) {w : W} {client : M}
    (hclients : s'.clients =
      Function.update s.clients (process w) ((s.clients (process w)).erase client))
    {ticket i : Nat} {origin : Origin P M ι} (horigin : s'.origins.get? ticket = some origin)
    (hprocess : origin.process = process w)
    (hclient : (s.clients (process w))[i]? = some origin.client)
    (hi : (s.clients (process w)).idxOf client ≤ i) : ¬LooksUp s' ticket i := by
  rintro ⟨origin', horigin', hlook⟩
  obtain rfl := Option.some.inj (horigin.symm.trans horigin')
  rw [hclients, hprocess, Function.update_self] at hlook
  exact getElem?_erase_ne (hs.nodup _) hi hclient hlook

/-- A call that is about to record a wrong position does so. -/
theorem exists_not_intact_of_placed (process : W → P) {s : State P W M ι} {w : W}
    {ticket realTicket i : Nat} (hcall : s.calls w = .placed ticket realTicket i)
    (h : ¬LooksUp s ticket i) :
    ∃ s', ReflTransGen (Step process) s s' ∧ ¬Intact s' := by
  have hrecord : step process s (.record w) =
      some ({ s with ticketMap := s.ticketMap.set ticket (realTicket, i) }.setCall w .idle) := by
    simp only [step, hcall]
  refine ⟨_, .single ⟨_, hrecord⟩, fun hintact => h (hintact.lookups ticket realTicket i ?_)⟩
  show (s.ticketMap.set _ _).get? ticket = _
  rw [Dict.get?_set, if_pos rfl]

theorem exists_not_intact_of_picked (process : W → P) {s : State P W M ι} {w : W}
    {ticket i : Nat} {client : M} {inputs : ι} (hcall : s.calls w = .picked ticket i client inputs)
    (h : ¬LooksUp s ticket i) :
    ∃ s', ReflTransGen (Step process) s s' ∧ ¬Intact s' := by
  have hplace : step process s (.place w) =
      some ((s.setMember client ((s.members client).schedule inputs)).setCall w
        (.placed ticket (s.members client).nextTicket i)) := by
    simp only [step, hcall]
  obtain ⟨s', hrun, hbad⟩ := exists_not_intact_of_placed process
    (s := (s.setMember client ((s.members client).schedule inputs)).setCall w
      (.placed ticket (s.members client).nextTicket i)) (Function.update_self w _ _) h
  exact ⟨s', .head ⟨_, hplace⟩ hrun, hbad⟩

/-- Where the condition is not met, some continuation breaks the promise. -/
theorem exists_not_intact {s s' : State P W M ι} (hs : Inv process s) {a : Action W M ι}
    (ha : step process s a = some s') (hn : ¬Careful process s a) :
    ∃ s'', ReflTransGen (Step process) s' s'' ∧ ¬Intact s'' := by
  cases a with
  | pick w inputs =>
      have hnil : s.clients (process w) = [] := not_not.mp hn
      simp only [step, hnil, List.length_nil, List.getElem?_nil] at ha
      split at ha
      next =>
        obtain rfl := Option.some.inj ha
        exact ⟨_, .refl, not_intact_of_outcome
          (List.mem_append_right _ (List.mem_singleton_self _)) Failure.noConfusion⟩
      next => cases ha
  | drop w =>
      simp only [Careful, not_forall] at hn
      obtain ⟨ticket, client, hcall, hn⟩ := hn
      simp only [step, hcall] at ha
      by_cases hclient : client ∈ s.clients (process w)
      · rw [if_pos hclient] at ha
        obtain rfl := Option.some.inj ha
        rw [not_and, not_forall] at hn
        obtain ⟨i, hn⟩ := hn hclient
        rw [Classical.not_imp, Nat.not_lt] at hn
        obtain ⟨hout, hi⟩ := hn
        -- a ticket behind the member is out, or a call is about to file one
        rcases hout with ⟨t, r, origin, hget, horigin, hprocess⟩ | ⟨w', hprocess, hcall'⟩
        · obtain ⟨origin', hfiled⟩ := hs.mapped t r i hget
          obtain rfl := Option.some.inj (horigin.symm.trans hfiled.origin_eq)
          have hlook := hprocess ▸ hfiled.client_eq
          exact ⟨_, .refl, fun hintact => absurd (hintact.lookups t r i hget)
            (not_looksUp_of_erase hs rfl horigin hprocess hlook hi)⟩
        · have hok := hs.calls w'
          have hkeep {call : Call M ι} (heq : s.calls w' = call)
              (hne : call ≠ .lost ticket client) :
              Function.update s.calls w .idle w' = call := by
            have hw : w' ≠ w := by
              rintro rfl
              exact hne (heq.symm.trans hcall)
            rw [Function.update_of_ne hw, heq]
          rcases hcall' with ⟨t, m, inputs, hcall'⟩ | ⟨t, r, hcall'⟩
          · rw [hcall'] at hok
            exact exists_not_intact_of_picked process (hkeep hcall' nofun)
              (not_looksUp_of_erase hs rfl hok.1 hprocess (hprocess ▸ hok.2) hi)
          · rw [hcall'] at hok
            obtain ⟨origin, hfiled⟩ := hok
            exact exists_not_intact_of_placed process (hkeep hcall' nofun)
              (not_looksUp_of_erase hs rfl hfiled.origin_eq (hfiled.process_eq.trans hprocess)
                (hprocess ▸ hfiled.client_eq) hi)
      · rw [if_neg hclient] at ha
        obtain rfl := Option.some.inj ha
        exact ⟨_, .refl, not_intact_of_outcome
          (List.mem_append_right _ (List.mem_singleton_self _)) Failure.noConfusion⟩
  | place w => exact absurd trivial hn
  | record w => exact absurd trivial hn
  | deliver m realTicket => exact absurd trivial hn
  | die m => exact absurd trivial hn
  | lookUp w ticket => exact absurd trivial hn
  | collect w => exact absurd trivial hn

end runs

/-! ## A loss in front of other tickets

With three members, the loss of the first one shifts the others. -/

/-- The steps of a run, one after the other. -/
def steps [DecidableEq P] [DecidableEq W] [DecidableEq M] (process : W → P) (s : State P W M ι)
    (actions : List (Action W M ι)) : Option (State P W M ι) :=
  actions.foldlM (step process) s

theorem run_of_steps [DecidableEq P] [DecidableEq W] [DecidableEq M] {process : W → P}
    {actions : List (Action W M ι)} : ∀ {s s' : State P W M ι},
    steps process s actions = some s' → ReflTransGen (Step process) s s' := by
  induction actions with
  | nil =>
      intro s s' h
      obtain rfl := Option.some.inj h
      exact .refl
  | cons a actions ih =>
      intro s s' h
      obtain ⟨t, ht, hrest⟩ := Option.bind_eq_some_iff.mp h
      exact ReflTransGen.head ⟨a, ht⟩ (ih hrest)

def threeMembers : Pool Nat := ⟨[0, 1, 2], by decide⟩

/-- One worker schedules three inputs, the first member dies, and the worker fetches. -/
def lossFirst : List (Action Unit Nat String) :=
  [.pick () "a", .place (), .record (), .pick () "b", .place (), .record (),
    .pick () "c", .place (), .record (), .die 0, .deliver 2 0,
    .lookUp () 0, .collect (), .drop (), .lookUp () 1, .collect (), .lookUp () 2]

/-- A loss with no other ticket outstanding. -/
theorem tickets_keep_member_afterLoss : ∃ s : State Unit Unit Nat String,
    s.outcomes = [(0, .error .lostClient)] ∧ s.clients () = [1] ∧
      Intact s ∧ Answers (fun _ => ()) s := by
  let pool : Pool Nat := ⟨[0, 1], by decide⟩
  let process : Unit → Unit := fun _ => ()
  have hstart : ReflTransGen (CarefulStep process) (State.init pool : State Unit Unit Nat String)
    (State.init pool) := .refl
  have hpicked := hstart.tail ⟨.pick () "a", List.cons_ne_nil _ _, rfl⟩
  have hplaced := hpicked.tail ⟨.place (), trivial, rfl⟩
  have hrecorded := hplaced.tail ⟨.record (), trivial, rfl⟩
  have hdead := hrecorded.tail ⟨.die 0, trivial, rfl⟩
  have hwaiting := hdead.tail ⟨.lookUp () 0, trivial, rfl⟩
  have hlost := hwaiting.tail ⟨.collect (), trivial, rfl⟩
  have hdropped := hlost.tail ⟨.drop (),
    careful_drop rfl List.mem_cons_self (fun _ => rfl) (fun _ hne => absurd rfl hne), rfl⟩
  exact ⟨_, rfl, rfl, tickets_keep_member pool _ hdropped⟩

/-- The second ticket is given the results of the third, which is then not found. -/
theorem lossFirst_not_intact : ∃ s : State Unit Unit Nat String,
    ReflTransGen (Step fun _ => ()) (State.init threeMembers) s ∧
      s.origins.get? 1 = some ⟨(), 1, "b"⟩ ∧
      s.outcomes = [(0, .error .lostClient), (1, .ok "c"), (2, .error .indexError)] := by
  have hsome : (steps (fun _ => ()) (State.init threeMembers) lossFirst).isSome = true := rfl
  obtain ⟨s, hs⟩ := Option.isSome_iff_exists.mp hsome
  have horigin : (steps (fun _ => ()) (State.init threeMembers) lossFirst).map
      (fun s => s.origins.get? 1) = some (some ⟨(), 1, "b"⟩) := rfl
  have houtcomes : (steps (fun _ => ()) (State.init threeMembers) lossFirst).map State.outcomes =
      some [(0, .error .lostClient), (1, .ok "c"), (2, .error .indexError)] := rfl
  rw [hs] at horigin houtcomes
  exact ⟨s, run_of_steps hs, Option.some.inj horigin, Option.some.inj houtcomes⟩

end MultiClient

end RISCover
