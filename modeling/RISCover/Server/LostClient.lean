import RISCover.Lib.Inevitable
import RISCover.Server.RealClient

/-!
# A lost client is reported

`RealClient.run` catches what the socket raises, saves it for `get_results` and marks the client as
dead. What the decompressor raises, what `struct.unpack` raises on too few bytes and what `pop`
raises on an empty list is not caught: the process ends without a word, and `get_results` waits for
ever.

The sockets of the model deliver any bytes, and may break at any time. `zlib` is a parameter.
-/

open Bytes Relation

namespace RISCover

namespace LostClient

/-! ## The socket

What has arrived can still be read after the connection broke. A call that needs more raises then,
and one that has begun to wait is woken up. -/

/-- What `run` catches: a connection that was closed, or any `OSError`. -/
inductive SocketError where
  | receivedZero
  | osError
  deriving DecidableEq

/-- The bytes that have arrived, and what `recv_into` does behind them once the connection broke. -/
structure Socket where
  pending : Bytes
  broken : Option SocketError

/-- `recv_all`; `none` while it waits. -/
def recvAll (n : Nat) (s : Socket) : Option (Except SocketError (Bytes × Socket)) :=
  if n ≤ s.pending.length then
    some (.ok (s.pending.take n, { s with pending := s.pending.drop n }))
  else s.broken.map .error

/-- `recv_msg`, with the header that `recv_hdr` reads. -/
def recvMsg (s : Socket) : Option (Except SocketError (Bytes × Socket)) :=
  match recvAll 4 s with
  | some (.ok (hdr, s)) => recvAll (ofLeBytes hdr) s
  | some (.error e) => some (.error e)
  | none => none

theorem recvAll_of_broken {s : Socket} (h : s.broken.isSome = true) (n : Nat) :
    ∃ r, recvAll n s = some r := by
  unfold recvAll
  split
  next => exact ⟨_, rfl⟩
  next =>
    obtain ⟨e, he⟩ := Option.isSome_iff_exists.mp h
    exact ⟨.error e, by rw [he]; rfl⟩

theorem recvAll_eq_ok {n : Nat} {s s' : Socket} {bytes : Bytes}
    (h : recvAll n s = some (.ok (bytes, s'))) :
    s'.broken = s.broken ∧ s'.pending.length + n = s.pending.length := by
  unfold recvAll at h
  split at h
  next hn =>
    obtain ⟨-, rfl⟩ := Prod.mk.inj (Except.ok.inj (Option.some.inj h))
    exact ⟨rfl, by rw [List.length_drop, Nat.sub_add_cancel hn]⟩
  next =>
    obtain ⟨e, -, he⟩ := Option.map_eq_some_iff.mp h
    cases he

/-- A broken connection does not let the process wait. -/
theorem recvMsg_of_broken {s : Socket} (h : s.broken.isSome = true) :
    ∃ r, recvMsg s = some r := by
  obtain ⟨r, hr⟩ := recvAll_of_broken h 4
  unfold recvMsg
  rw [hr]
  cases r with
  | error e => exact ⟨.error e, rfl⟩
  | ok p =>
      obtain ⟨hdr, s'⟩ := p
      rw [← (recvAll_eq_ok hr).1] at h
      exact recvAll_of_broken h _

/-- A message takes at least its header from what has arrived. -/
theorem recvMsg_eq_ok {s s' : Socket} {bytes : Bytes} (h : recvMsg s = some (.ok (bytes, s'))) :
    s'.broken = s.broken ∧ s'.pending.length + 4 ≤ s.pending.length := by
  unfold recvMsg at h
  split at h
  next hdr t hhdr =>
    obtain ⟨hbroken, hlength⟩ := recvAll_eq_ok hhdr
    obtain ⟨hbroken', hlength'⟩ := recvAll_eq_ok h
    exact ⟨hbroken'.trans hbroken, by omega⟩
  next => cases h
  next => cases h

/-! ## Storing results

The answer to a message has a frame for each result of its inputs. One that is too short makes
`struct.unpack` raise. -/

/-- `for ticket, n in inputs`: the results that are stored, and whether all of them could be. -/
def storeResults (data : Bytes) : List (Nat × Nat) → (dataIndex : Nat) → Dict Nat Bytes →
    Dict Nat Bytes × Bool
  | [], _, results => (results, true)
  | (ticket, n) :: inputs, dataIndex, results =>
    match recvResults n data dataIndex with
    | .ok (d, dataIndex) => storeResults data inputs dataIndex (results.set ticket d)
    -- `struct.unpack` of less than two bytes
    | .error _ => (results, false)

/-- `n` frames, none of them shorter than announced. -/
def framesComplete : (n : Nat) → Bytes → Bool
  | 0, _ => true
  | n + 1, data =>
      decide (2 ≤ data.length) &&
        (decide (2 + ofLeBytes (data.take 2) ≤ data.length) &&
          framesComplete n (data.drop (2 + ofLeBytes (data.take 2))))

/-- The number of frames in an answer to a message. -/
def framesOf (inputs : List (Nat × Nat)) : Nat := (inputs.map Prod.snd).sum

/-- One round of the inner loop. -/
def recvFrame (d : Bytes) : Parser Bytes := do
  let resultBytes ← unpack 2
  let body ← Cursor.take resultBytes
  pure (d ++ body)

theorem recvFrame_of_header {data : Bytes} {dataIndex : Nat} (d : Bytes)
    (h : 2 ≤ (data.drop dataIndex).length) :
    ∃ d', recvFrame d data dataIndex =
      .ok (d', dataIndex + 2 + ofLeBytes ((data.drop dataIndex).take 2)) := by
  have hunpack : (unpack 2 : Parser Nat) data dataIndex =
      .ok (ofLeBytes ((data.drop dataIndex).take 2), dataIndex + 2) := by
    unfold unpack Cursor.unpack slice
    rw [if_pos (by rw [List.length_take]; omega)]
  refine ⟨d ++ slice data (dataIndex + 2) (ofLeBytes ((data.drop dataIndex).take 2)), ?_⟩
  rw [recvFrame, Cursor.bind_apply_ok hunpack]
  rfl

/-- Complete frames are read without an error, and those behind them are complete as well. -/
theorem foldN_recvFrame_of_complete {data : Bytes} (n : Nat) : ∀ (m dataIndex : Nat) (d : Bytes),
    framesComplete (n + m) (data.drop dataIndex) = true →
      ∃ d' dataIndex', Cursor.foldN recvFrame n d data dataIndex = .ok (d', dataIndex') ∧
        framesComplete m (data.drop dataIndex') = true := by
  induction n with
  | zero =>
      intro m dataIndex d h
      rw [Nat.zero_add] at h
      exact ⟨d, dataIndex, rfl, h⟩
  | succ n ih =>
      intro m dataIndex d h
      rw [Nat.succ_add] at h
      simp only [framesComplete, Bool.and_eq_true, decide_eq_true_iff, List.drop_drop] at h
      obtain ⟨hheader, -, hrest⟩ := h
      rw [← Nat.add_assoc] at hrest
      obtain ⟨d', hframe⟩ := recvFrame_of_header d hheader
      obtain ⟨d'', dataIndex', hfold, hm⟩ := ih m _ d' hrest
      exact ⟨d'', dataIndex', (Cursor.bind_apply_ok hframe _).trans hfold, hm⟩

theorem storeResults_of_complete {data : Bytes} (inputs : List (Nat × Nat)) :
    ∀ (dataIndex : Nat) (results : Dict Nat Bytes),
      framesComplete (framesOf inputs) (data.drop dataIndex) = true →
        (storeResults data inputs dataIndex results).2 = true := by
  induction inputs with
  | nil => intro dataIndex results _; rfl
  | cons input inputs ih =>
      intro dataIndex results h
      obtain ⟨ticket, n⟩ := input
      obtain ⟨d, dataIndex', hrecv, hrest⟩ :=
        foldN_recvFrame_of_complete n (framesOf inputs) dataIndex [] h
      have hresults : recvResults n data dataIndex = .ok (d, dataIndex') := hrecv
      rw [storeResults, hresults]
      exact ih dataIndex' _ hrest

/-! ## The process and its callers

The loop of the process with its `try`, and the callers in other processes, who see only what is
shared. -/

/-- Where the process stands: in the fill loop, at the `select`, with an exception that it caught
and has not saved, with one that it saved, at the end of `run`, or gone. -/
inductive Phase where
  | fill
  | select
  | raised (e : SocketError)
  | saved
  | ended
  | crashed
  deriving DecidableEq

/-- `failed` is a history: the loop met an error of the connection, or something that came over it
and cannot be what a client sends. A connection that broke is seen in `socket`, before the loop
meets it. -/
structure State (δ : Type) where
  loop : LoopState
  phase : Phase
  socket : Socket
  decomp : δ
  results : Dict Nat Bytes
  savedE : Option SocketError
  savedTickets : Option (Option (List Nat))
  isDead : Bool
  failed : Bool

variable {δ : Type}

def State.init (decomp : δ) : State δ where
  loop := .idle []
  phase := .fill
  socket := ⟨[], none⟩
  decomp := decomp
  results := Dict.empty
  savedE := none
  savedTickets := none
  isDead := false
  failed := false

/-- How `get_results` may fail. -/
inductive GetError where
  | lostClient (e : SocketError) (unrelated : Bool)
  | keyError
  deriving DecidableEq

/-- `get_results` up to the parsing of the data; `none` while it waits. -/
def getResults (s : State δ) (ticket : Nat) : Option (Except GetError Bytes) :=
  match s.results.get? ticket with
  | some data => some (.ok data)
  | none =>
    if s.isDead then
      match s.savedTickets, s.savedE with
      | some none, some e => some (.error (.lostClient e true))
      | some (some tickets), some e => some (.error (.lostClient e (!tickets.contains ticket)))
      | _, _ => some (.error .keyError)
    else none

/-- What may happen next: a worker schedules or fetches, the socket delivers or breaks, and the
process takes its next step. -/
inductive Action where
  | schedule (e : Entry) (priority : Bool)
  | fetch (ticket : Nat)
  | arrive (bytes : Bytes)
  | breaks (e : SocketError)
  | send
  | sendFails
  | leaveFill
  | timeout
  | selectFails
  | recv
  | save
  | finish

/-- An exception that `run` catches. -/
def State.raise (s : State δ) (e : SocketError) : State δ :=
  { s with phase := .raised e, failed := true }

/-- An exception that it does not catch. -/
def State.crash (s : State δ) : State δ := { s with phase := .crashed, failed := true }

/-- A message from the client has been decompressed. -/
def received (s : State δ) (data : Bytes) : State δ :=
  match s.loop.inFlightInputs with
  -- `self.in_flight_inputs.pop(0)` of an empty list
  | [] => s.crash
  | inputs :: _ =>
    let stored := storeResults data inputs 0 s.results
    let s := { s with loop := s.loop.pop, results := stored.1 }
    if stored.2 then
      -- a last frame that is too short is stored as it is
      { s with phase := .fill, failed := s.failed || !framesComplete (framesOf inputs) data }
    else s.crash

/-- One step; `none` where it cannot happen. -/
def step (l : LoopConfig) (decompress : δ → Bytes → Option (δ × Bytes)) (s : State δ) :
    Action → Option (State δ)
  | .schedule e priority =>
    some { s with
      loop := { s.loop with queue := if priority then e :: s.loop.queue else s.loop.queue ++ [e] } }
  | .fetch ticket =>
    match s.results.get? ticket with
    | some _ => some { s with results := s.results.erase ticket }
    | none => none
  | .arrive bytes =>
    match s.socket.broken with
    | none => some { s with socket := { s.socket with pending := s.socket.pending ++ bytes } }
    | some _ => none
  | .breaks e =>
    match s.socket.broken with
    | none => some { s with socket := { s.socket with broken := some e } }
    | some _ => none
  | .send =>
    match s.phase, fillPass l s.loop with
    | .fill, some (_, loop) => some { s with loop := loop }
    | _, _ => none
  | .sendFails =>
    match s.phase, fillPass l s.loop with
    -- the entries are out of the queue, and not in flight
    | .fill, some (_, loop) =>
      some ({ s with loop := { s.loop with queue := loop.queue } }.raise .osError)
    | _, _ => none
  | .leaveFill =>
    match s.phase, fillPass l s.loop with
    | .fill, none => some { s with phase := .select }
    | _, _ => none
  | .timeout =>
    match s.phase, s.socket.pending, s.socket.broken with
    | .select, [], none => some { s with phase := .fill }
    | _, _, _ => none
  | .selectFails =>
    match s.phase with
    | .select => some (s.raise .osError)
    | _ => none
  | .recv =>
    match s.phase, recvMsg s.socket with
    | .select, some (.error e) => some (s.raise e)
    | .select, some (.ok (compressed, socket)) =>
      match decompress s.decomp compressed with
      | none => some ({ s with socket := socket }.crash)
      | some (decomp, data) => some (received { s with socket := socket, decomp := decomp } data)
    | _, _ => none
  | .save =>
    match s.phase with
    | .raised e =>
      some { s with
        phase := .saved
        savedE := some e
        savedTickets := some (s.loop.inFlightInputs.head?.map fun inputs => inputs.map Prod.fst) }
    | _ => none
  | .finish =>
    match s.phase with
    | .saved => some { s with phase := .ended, isDead := true }
    | _ => none

/-- One step of a run. -/
def Step (l : LoopConfig) (decompress : δ → Bytes → Option (δ × Bytes)) (s s' : State δ) : Prop :=
  ∃ a, step l decompress s a = some s'

/-- A step of the process alone. -/
def Finishes (l : LoopConfig) (decompress : δ → Bytes → Option (δ × Bytes)) (s s' : State δ) :
    Prop :=
  step l decompress s .save = some s' ∨ step l decompress s .finish = some s'

/-- The steps of the process itself. -/
def Action.Own : Action → Prop
  | .schedule _ _ | .fetch _ | .arrive _ | .breaks _ => False
  | _ => True

/-! ## What is promised

`Reported` is about a process with a broken connection, and about a caller that waits. `Careful`
leaves out the answers that the process cannot unpack. -/

/-- A received message is one that a client sends: the decompressor accepts it, it answers a message
in flight, and none of its frames is shorter than announced. -/
def Careful (decompress : δ → Bytes → Option (δ × Bytes)) (s : State δ) : Action → Prop
  | .recv => ∀ compressed socket, recvMsg s.socket = some (.ok (compressed, socket)) →
      ∃ decomp data inputs rest, decompress s.decomp compressed = some (decomp, data) ∧
        s.loop.inFlightInputs = inputs :: rest ∧ framesComplete (framesOf inputs) data = true
  | _ => True

/-- A step of the process that meets the condition. A message that takes nothing from the queue is
not one of them: it could be sent again and again, but not for ever on a broken connection. -/
def OwnStep (l : LoopConfig) (decompress : δ → Bytes → Option (δ × Bytes)) (s s' : State δ) :
    Prop :=
  ∃ a : Action, a.Own ∧ Careful decompress s a ∧ step l decompress s a = some s' ∧
    (a = .send → s'.loop.queue.length < s.loop.queue.length)

/-- The end of `run`, with both keys and the mark. -/
def Ended (s : State δ) : Prop :=
  s.phase = .ended ∧ s.isDead = true ∧ s.savedE.isSome = true ∧ s.savedTickets.isSome = true

/-- After a failure `run` comes to its end, and then every ticket without results is told. Once the
connection broke, the process does not wait for it, and all that it still can do leads there. -/
structure Reported (l : LoopConfig) (decompress : δ → Bytes → Option (δ × Bytes)) (s : State δ) :
    Prop where
  ends : s.failed = true → ∃ s', ReflTransGen (Finishes l decompress) s s' ∧ s'.phase = .ended
  wakes : s.socket.broken.isSome = true → s.phase = .select →
    ∃ s', step l decompress s .recv = some s'
  breaks : s.socket.broken.isSome = true → Inevitably (OwnStep l decompress) Ended s
  complete : s.phase = .ended →
    s.isDead = true ∧ s.savedE.isSome = true ∧ s.savedTickets.isSome = true
  told : s.phase = .ended → ∀ ticket, s.results.get? ticket = none →
    ∃ e unrelated, getResults s ticket = some (.error (.lostClient e unrelated))

/-- A broken connection is no message. -/
theorem careful_recv {decompress : δ → Bytes → Option (δ × Bytes)} {s : State δ} {e : SocketError}
    (h : recvMsg s.socket = some (.error e)) : Careful decompress s .recv := by
  intro compressed socket hmsg
  rw [h] at hmsg
  cases hmsg

/-- One step of a run that meets the condition. -/
def CarefulStep (l : LoopConfig) (decompress : δ → Bytes → Option (δ × Bytes))
    (s s' : State δ) : Prop :=
  ∃ a, Careful decompress s a ∧ step l decompress s a = some s'

/-! ## The invariant

Once the exception is saved it stays, and a process that has ended is dead. -/

/-- Both keys are there. -/
def Saved (s : State δ) : Prop := s.savedE.isSome = true ∧ s.savedTickets.isSome = true

/-- What is known in each phase. -/
def PhaseOk (s : State δ) : Prop :=
  match s.phase with
  | .fill | .select => s.failed = false
  | .raised _ => True
  | .saved => Saved s
  | .ended => s.isDead = true ∧ Saved s
  | .crashed => False

section steps

variable {l : LoopConfig} {decompress : δ → Bytes → Option (δ × Bytes)} {s s' : State δ}

theorem getResults_of_dead (hdead : s.isDead = true) (hsaved : Saved s) {ticket : Nat}
    (h : s.results.get? ticket = none) :
    ∃ e unrelated, getResults s ticket = some (.error (.lostClient e unrelated)) := by
  obtain ⟨he, htickets⟩ := hsaved
  obtain ⟨e, he⟩ := Option.isSome_iff_exists.mp he
  obtain ⟨tickets, htickets⟩ := Option.isSome_iff_exists.mp htickets
  unfold getResults
  rw [h, hdead, he, htickets]
  cases tickets with
  | none => exact ⟨e, true, rfl⟩
  | some tickets => exact ⟨e, !tickets.contains ticket, rfl⟩

theorem finishes_of_saved (l : LoopConfig) (decompress : δ → Bytes → Option (δ × Bytes))
    (h : s.phase = .saved) :
    ∃ s', ReflTransGen (Finishes l decompress) s s' ∧ s'.phase = .ended :=
  have hfinish : step l decompress s .finish =
      some { s with phase := .ended, isDead := true } := by
    simp only [step, h]
  ⟨_, .single (.inr hfinish), rfl⟩

/-- A message that the condition admits leaves nothing behind but results. -/
theorem received_of_complete {data : Bytes} {inputs : List (Nat × Nat)}
    {rest : List (List (Nat × Nat))} (hflight : s.loop.inFlightInputs = inputs :: rest)
    (hcomplete : framesComplete (framesOf inputs) data = true) :
    received s data = { s with
      loop := s.loop.pop
      results := (storeResults data inputs 0 s.results).1
      phase := .fill } := by
  have hstored := storeResults_of_complete inputs 0 s.results hcomplete
  unfold received
  rw [hflight]
  simp only [hstored, hcomplete, if_true, Bool.not_true, Bool.or_false]

/-- A step keeps the invariant, if the condition is met. -/
theorem phaseOk_step (hs : PhaseOk s) {a : Action} (hcareful : Careful decompress s a)
    (h : step l decompress s a = some s') : PhaseOk s' := by
  cases a with
  | schedule e priority =>
      obtain rfl := Option.some.inj h
      exact hs
  | fetch _ | arrive _ | breaks _ | send =>
      simp only [step] at h
      split at h
      next =>
        obtain rfl := Option.some.inj h
        exact hs
      next => cases h
  -- the exception is caught further out, whatever was going on
  | sendFails | selectFails =>
      simp only [step] at h
      split at h
      next =>
        obtain rfl := Option.some.inj h
        trivial
      next => cases h
  | leaveFill =>
      simp only [step] at h
      split at h
      next hphase _ =>
        obtain rfl := Option.some.inj h
        rw [PhaseOk, hphase] at hs
        exact hs
      next => cases h
  | timeout =>
      simp only [step] at h
      split at h
      next hphase _ _ =>
        obtain rfl := Option.some.inj h
        rw [PhaseOk, hphase] at hs
        exact hs
      next => cases h
  | recv =>
      simp only [step] at h
      split at h
      next =>
        obtain rfl := Option.some.inj h
        trivial
      next compressed socket hphase hmsg =>
        -- the answer is complete, so nothing raises outside of the `try`
        obtain ⟨decomp, data, inputs, rest, hdecomp, hflight, hcomplete⟩ :=
          hcareful compressed socket hmsg
        rw [hdecomp] at h
        obtain rfl := Option.some.inj h
        rw [PhaseOk, hphase] at hs
        rw [received_of_complete (s := { s with socket := socket, decomp := decomp }) hflight
          hcomplete]
        exact hs
      next => cases h
  | save =>
      simp only [step] at h
      split at h
      next =>
        obtain rfl := Option.some.inj h
        exact ⟨rfl, rfl⟩
      next => cases h
  | finish =>
      simp only [step] at h
      split at h
      next hphase =>
        obtain rfl := Option.some.inj h
        rw [PhaseOk, hphase] at hs
        exact ⟨rfl, hs⟩
      next => cases h

/-! ### What is left to do -/

/-- How far the process is from the end of `run`, when it receives nothing more. -/
def Phase.rank : Phase → Nat
  | .fill => 4
  | .select => 3
  | .raised _ => 2
  | .saved => 1
  | .ended | .crashed => 0

/-- A message that is received leads back to the fill loop, but is no longer among the bytes that
have arrived. -/
def State.remaining (s : State δ) : Nat :=
  s.socket.pending.length + s.loop.queue.length + s.phase.rank

/-- There is something to receive, or an error to meet. -/
theorem recv_of_broken (hbroken : s.socket.broken.isSome = true) (hphase : s.phase = .select) :
    ∃ s', step l decompress s .recv = some s' := by
  obtain ⟨r, hr⟩ := recvMsg_of_broken hbroken
  cases r with
  | error e => exact ⟨s.raise e, by simp only [step, hphase, hr]⟩
  | ok p =>
      obtain ⟨compressed, socket⟩ := p
      cases hd : decompress s.decomp compressed with
      | none =>
          simp only [step, hphase, hr, hd]
          exact ⟨_, rfl⟩
      | some q =>
          simp only [step, hphase, hr, hd]
          exact ⟨_, rfl⟩

theorem exists_ownStep {a : Action} (hown : a.Own) (hcareful : Careful decompress s a)
    (hne : a ≠ .send) (h : (step l decompress s a).isSome = true) :
    ∃ s', OwnStep l decompress s s' := by
  obtain ⟨s', hs'⟩ := Option.isSome_iff_exists.mp h
  exact ⟨s', a, hown, hcareful, hs', fun heq => absurd heq hne⟩

/-- As long as `run` has not come to its end, the process has a step. -/
theorem PhaseOk.ended_or_ownStep (l : LoopConfig) (decompress : δ → Bytes → Option (δ × Bytes))
    (hs : PhaseOk s) : Ended s ∨ ∃ s', OwnStep l decompress s s' := by
  -- every phase has a step of the process' own, up to the last one
  cases hphase : s.phase with
  | fill =>
      right
      cases hfill : fillPass l s.loop with
      | none =>
          exact exists_ownStep (a := .leaveFill) trivial trivial nofun
            (by simp [step, hphase, hfill])
      | some p =>
          exact exists_ownStep (a := .sendFails) trivial trivial nofun
            (by simp [step, hphase, hfill])
  | select =>
      exact .inr (exists_ownStep (a := .selectFails) trivial trivial nofun (by simp [step, hphase]))
  | raised e =>
      exact .inr (exists_ownStep (a := .save) trivial trivial nofun (by simp [step, hphase]))
  | saved =>
      exact .inr (exists_ownStep (a := .finish) trivial trivial nofun (by simp [step, hphase]))
  | ended =>
      rw [PhaseOk, hphase] at hs
      exact .inl ⟨hphase, hs⟩
  | crashed =>
      rw [PhaseOk, hphase] at hs
      exact hs.elim

/-- The next phase is closer to the end, if nothing comes in meanwhile. -/
theorem remaining_lt_of_rank (hpending : s'.socket.pending.length ≤ s.socket.pending.length)
    (hqueue : s'.loop.queue.length ≤ s.loop.queue.length)
    (hrank : s'.phase.rank < s.phase.rank) : s'.remaining < s.remaining := by
  unfold State.remaining
  omega

/-- Receiving from a broken connection either fails, or leaves less to receive. -/
theorem remaining_lt_of_recv (hcareful : Careful decompress s .recv)
    (hbroken : s.socket.broken.isSome = true) (h : step l decompress s .recv = some s') :
    s'.socket.broken.isSome = true ∧ s'.remaining < s.remaining := by
  simp only [step] at h
  split at h
  next hphase _ =>
    obtain rfl := Option.some.inj h
    refine ⟨hbroken, remaining_lt_of_rank le_rfl le_rfl ?_⟩
    rw [hphase]
    exact Nat.lt_succ_self _
  next compressed socket hphase hmsg =>
    -- what is read is not there to be read again, which makes up for the phase
    obtain ⟨hsame, hlength⟩ := recvMsg_eq_ok hmsg
    obtain ⟨decomp, data, inputs, rest, hdecomp, hflight, hcomplete⟩ :=
      hcareful compressed socket hmsg
    rw [hdecomp] at h
    obtain rfl := Option.some.inj h
    rw [received_of_complete (s := { s with socket := socket, decomp := decomp }) hflight hcomplete]
    refine ⟨hsame ▸ hbroken, ?_⟩
    simp only [State.remaining, LoopState.pop, hphase, Phase.rank]
    omega
  next => cases h

/-- After the connection broke, every step of the process brings it closer to the end. -/
theorem PhaseOk.ownStep (hs : PhaseOk s) (hbroken : s.socket.broken.isSome = true)
    (h : OwnStep l decompress s s') :
    (PhaseOk s' ∧ s'.socket.broken.isSome = true) ∧ s'.remaining < s.remaining := by
  obtain ⟨a, hown, hcareful, ha, hsend⟩ := h
  have hok := phaseOk_step hs hcareful ha
  rw [and_assoc]
  refine ⟨hok, ?_⟩
  cases a with
  | schedule _ _ | fetch _ | arrive _ | breaks _ => exact hown.elim
  | send =>
      have hlt := hsend rfl
      simp only [step] at ha
      split at ha
      next =>
        obtain rfl := Option.some.inj ha
        refine ⟨hbroken, ?_⟩
        simp only [State.remaining] at hlt ⊢
        omega
      next => cases ha
  | sendFails =>
      simp only [step] at ha
      split at ha
      next m loop hphase hfill =>
        obtain rfl := Option.some.inj ha
        -- sending takes entries off the queue
        have hle : loop.queue.length ≤ s.loop.queue.length := by
          obtain ⟨-, -, -, -, rfl⟩ := fillPass_eq_some.mp hfill
          have hlength := @length_taken_add_left l.biggerMaxBatchN 0 s.loop.queue
          dsimp only
          omega
        refine ⟨hbroken, remaining_lt_of_rank le_rfl hle ?_⟩
        rw [hphase]
        show 2 < 4
        decide
      next => cases ha
  | timeout =>
      -- there is no waiting for a broken connection
      simp only [step] at ha
      split at ha
      next hnone =>
        rw [hnone] at hbroken
        cases hbroken
      next => cases ha
  | leaveFill =>
      simp only [step] at ha
      split at ha
      next hphase _ =>
        obtain rfl := Option.some.inj ha
        refine ⟨hbroken, remaining_lt_of_rank le_rfl le_rfl ?_⟩
        rw [hphase]
        exact Nat.lt_succ_self _
      next => cases ha
  | recv => exact remaining_lt_of_recv hcareful hbroken ha
  | selectFails | save | finish =>
      simp only [step] at ha
      split at ha
      next hphase =>
        obtain rfl := Option.some.inj ha
        refine ⟨hbroken, remaining_lt_of_rank le_rfl le_rfl ?_⟩
        rw [hphase]
        exact Nat.lt_succ_self _
      next => cases ha

theorem PhaseOk.reported (hs : PhaseOk s) : Reported l decompress s := by
  have h := hs
  unfold PhaseOk at h
  constructor
  case ends =>
    intro hfailed
    cases hphase : s.phase with
    | fill => simp [hphase, hfailed] at h
    | select => simp [hphase, hfailed] at h
    | raised e =>
        -- the handler saves the exception and the tickets of the message that was waited for
        obtain ⟨s', hrun, hended⟩ := finishes_of_saved l decompress (s := { s with
          phase := .saved
          savedE := some e
          savedTickets := some (s.loop.inFlightInputs.head?.map fun inputs =>
            inputs.map Prod.fst) }) rfl
        exact ⟨s', .head (.inl (by simp only [step, hphase])) hrun, hended⟩
    | saved => exact finishes_of_saved l decompress hphase
    | ended => exact ⟨s, .refl, hphase⟩
    | crashed => simp [hphase] at h
  case wakes => exact fun hbroken hphase => recv_of_broken hbroken hphase
  case breaks =>
    exact fun hbroken => Inevitably.of_measure (fun s => PhaseOk s ∧ s.socket.broken.isSome = true)
      State.remaining (fun _ hs => hs.1.ended_or_ownStep l decompress)
        (fun _ _ hs hstep => hs.1.ownStep hs.2 hstep)
      s.remaining s ⟨hs, hbroken⟩ le_rfl
  case complete =>
    intro hphase
    rw [hphase] at h
    exact h
  case told =>
    intro hphase ticket hnone
    rw [hphase] at h
    exact getResults_of_dead h.1 h.2 hnone

theorem phaseOk_of_run {decomp : δ}
    (h : ReflTransGen (CarefulStep l decompress) (State.init decomp) s) : PhaseOk s := by
  induction h with
  | refl => rfl
  | tail _ hstep ih =>
      obtain ⟨a, hcareful, ha⟩ := hstep
      exact phaseOk_step ih hcareful ha

end steps

/-- In every run in which all messages are such that a client sends them, failures are reported, and
a broken connection makes `run` come to its end. -/
theorem lost_client_reported (l : LoopConfig) (decompress : δ → Bytes → Option (δ × Bytes))
    (decomp : δ) (s : State δ)
    (h : ReflTransGen (CarefulStep l decompress) (State.init decomp) s) :
    Reported l decompress s :=
  (phaseOk_of_run h).reported

/-- The connection is closed before the first message. -/
theorem lost_client_reported_closed : ∃ s : State Unit,
    s.phase = .ended ∧ Reported ⟨1, false, by decide⟩ (fun _ data => some ((), data)) s := by
  have hstart : ReflTransGen (CarefulStep ⟨1, false, by decide⟩ fun _ data => some ((), data))
    (State.init ()) (State.init ()) := .refl
  have hselect := hstart.tail ⟨.leaveFill, trivial, rfl⟩
  have hbroken := hselect.tail ⟨.breaks .receivedZero, trivial, rfl⟩
  have hraised := hbroken.tail ⟨.recv, careful_recv rfl, rfl⟩
  have hsaved := hraised.tail ⟨.save, trivial, rfl⟩
  have hended := hsaved.tail ⟨.finish, trivial, rfl⟩
  exact ⟨_, rfl, lost_client_reported _ _ () _ hended⟩

/-! ## What is not caught

An exception from unpacking ends the process without a word, so its callers wait for ever. -/

section crash

variable {l : LoopConfig} {decompress : δ → Bytes → Option (δ × Bytes)} {s s' : State δ}

/-- Neither a process that is gone nor one that goes on comes to the end of `run`. -/
theorem not_reported_of_phase (hfailed : s.failed = true)
    (hphase : s.phase = .crashed ∨ s.phase = .fill) : ¬Reported l decompress s := by
  intro hs
  obtain ⟨s', hrun, hended⟩ := hs.ends hfailed
  rcases ReflTransGen.cases_head hrun with rfl | ⟨t, hstep, -⟩
  · rcases hphase with h | h <;> cases h.symm.trans hended
  · rcases hphase with h | h <;> rcases hstep with hstep | hstep <;> simp [step, h] at hstep

/-- Where the condition is not met, the failure is not reported: the process is gone, or goes on
with what it has. -/
theorem not_reported_of_step {a : Action} (hn : ¬Careful decompress s a)
    (h : step l decompress s a = some s') : ¬Reported l decompress s' := by
  cases a with
  | recv =>
      simp only [step] at h
      split at h
      next hmsg => exact absurd (careful_recv hmsg) hn
      next compressed socket _ hmsg =>
        split at h
        next =>
          obtain rfl := Option.some.inj h
          exact not_reported_of_phase rfl (.inl rfl)
        next decomp data hdecomp =>
          obtain rfl := Option.some.inj h
          unfold received
          split
          next => exact not_reported_of_phase rfl (.inl rfl)
          next inputs rest hflight =>
            dsimp only
            split
            next =>
              -- only a frame that is too short is left
              have hshort : framesComplete (framesOf inputs) data = false := by
                by_contra hcomplete
                rw [Bool.not_eq_false] at hcomplete
                apply hn
                intro compressed' socket' hmsg'
                obtain ⟨rfl, rfl⟩ := Prod.mk.inj (Except.ok.inj (Option.some.inj
                  (hmsg.symm.trans hmsg')))
                exact ⟨decomp, data, inputs, rest, hdecomp, hflight, hcomplete⟩
              exact not_reported_of_phase (by simp [hshort]) (.inr rfl)
            next => exact not_reported_of_phase rfl (.inl rfl)
      next => cases h
  | _ => exact absurd trivial hn

/-- Nobody ever marks a crashed client as dead. -/
theorem crashed_waits (hphase : s.phase = .crashed) (hdead : s.isDead = false) {ticket : Nat}
    (hnone : s.results.get? ticket = none) (h : ReflTransGen (Step l decompress) s s') :
    getResults s' ticket = none := by
  -- nobody is left to mark the client as dead, or to store a result
  have hstays : s'.phase = .crashed ∧ s'.isDead = false ∧ s'.results.get? ticket = none := by
    induction h with
    | refl => exact ⟨hphase, hdead, hnone⟩
    | tail _ hstep ih =>
        obtain ⟨hphase, hdead, hnone⟩ := ih
        obtain ⟨a, ha⟩ := hstep
        cases a with
        | schedule e priority =>
            obtain rfl := Option.some.inj ha
            exact ⟨hphase, hdead, hnone⟩
        | fetch t =>
            simp only [step] at ha
            split at ha
            next =>
              obtain rfl := Option.some.inj ha
              refine ⟨hphase, hdead, ?_⟩
              rw [Dict.get?_erase, hnone, ite_self]
            next => cases ha
        | arrive _ | breaks _ =>
            simp only [step] at ha
            split at ha
            next =>
              obtain rfl := Option.some.inj ha
              exact ⟨hphase, hdead, hnone⟩
            next => cases ha
        | _ => simp [step, hphase] at ha
  obtain ⟨-, hdead, hnone⟩ := hstays
  simp only [getResults, hdead, hnone, Bool.false_eq_true, if_false]

end crash

/-- A decompressor that has seen nothing yet: it refuses what does not begin like `gzip`, and two
bytes that do say nothing yet. -/
def firstBytes (_ : Unit) : Bytes → Option (Unit × Bytes)
  | [] | [0x1f] | [0x1f, 0x8b] => some ((), [])
  | _ => none

/-- Four bytes of garbage instead of an answer: the failure is there, but no call of `get_results`
will ever say so. -/
theorem garbage_not_reported : ∃ s : State Unit,
    ReflTransGen (Step ⟨1, false, by decide⟩ firstBytes) (State.init ()) s ∧ s.failed = true ∧
      ¬Reported ⟨1, false, by decide⟩ firstBytes s ∧
        ∀ s', ReflTransGen (Step ⟨1, false, by decide⟩ firstBytes) s s' →
          getResults s' 0 = none := by
  have hstart : ReflTransGen (Step ⟨1, false, by decide⟩ firstBytes) (State.init ())
    (State.init ()) := .refl
  have hscheduled := hstart.tail ⟨.schedule ⟨0, 1, [1]⟩ false, rfl⟩
  have hsent := hscheduled.tail ⟨.send, rfl⟩
  have hselect := hsent.tail ⟨.leaveFill, rfl⟩
  have harrived := hselect.tail ⟨.arrive [4, 0, 0, 0, 0xde, 0xad, 0xbe, 0xef], rfl⟩
  have hcrashed := harrived.tail ⟨.recv, rfl⟩
  exact ⟨_, hcrashed, rfl, not_reported_of_phase rfl (.inl rfl),
    fun s' => crashed_waits rfl rfl rfl⟩

end LostClient

end RISCover
