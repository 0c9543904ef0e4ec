import Mathlib.Logic.Relation
import RISCover.Lib.Bytes

/-!
# The send side of `send_recv_loop`

Workers put entries into the queue of a `RealClient`; its loop merges as many entries as the
client's batch limit admits into one message and keeps messages in flight up to a number of bytes.
The merge walks the queue with four accumulators and afterwards pops the chosen indices one by one;
`taken` and `left` say what this amounts to.
-/

namespace RISCover

/-- An entry of the queue: ticket, `n_results`, `packed_inputs`. -/
structure Entry where
  ticket : Nat
  n : Nat
  packed : Bytes
  deriving DecidableEq

/-- `max_in_flight_bytes`. -/
def maxInFlightBytes : Nat := 524288

/-- The settings the loop looks at. -/
structure LoopConfig where
  maxBatchN : Nat
  singleStep : Bool
  maxBatchN_pos : 1 ≤ maxBatchN

/-- `bigger_max_batch_n`: some space for merging smaller inputs. -/
def LoopConfig.biggerMaxBatchN (l : LoopConfig) : Nat := 2 * l.maxBatchN - 1

/-! ## Merging inputs

`merge_inputs` as the source has it, with the entries that are skipped put back. -/

/-- The accumulators of the merge. -/
structure Merge where
  absoluteN : Nat
  inputs : List (Nat × Nat)
  packedInputs : Bytes
  pop : List Nat
  deriving DecidableEq

/-- One round: the entry at index `i` is merged when its results still fit. -/
def Merge.round (limit : Nat) (m : Merge) : Entry × Nat → Merge
  | (e, i) =>
    if m.absoluteN + e.n ≤ limit then
      { absoluteN := m.absoluteN + e.n
        inputs := m.inputs ++ [(e.ticket, e.n)]
        packedInputs := m.packedInputs ++ e.packed
        pop := m.pop ++ [i] }
    -- the loop does not stop here: an entry further back may still fit
    else m

/-- `for i, (ticket, n, packed) in enumerate(self.queue)`. -/
def mergeInputs (limit : Nat) (queue : List Entry) : Merge :=
  queue.zipIdx.foldl (Merge.round limit) ⟨0, [], [], []⟩

/-- `self.queue.pop(i - pop_shift)`. -/
def popRound : List Entry × Nat → Nat → List Entry × Nat
  | (queue, popShift), i => (queue.eraseIdx (i - popShift), popShift + 1)

/-- The second loop: pop the merged indices. -/
def popQueue (queue : List Entry) (pop : List Nat) : List Entry := (pop.foldl popRound (queue, 0)).1

/-! ## What is merged and what stays

The same in one pass over the queue: an entry is taken if it fits behind those that were taken, and
otherwise it stays. -/

/-- The entries that are merged when `n` results are already in the message. -/
def taken (limit : Nat) : Nat → List Entry → List Entry
  | _, [] => []
  | n, e :: queue =>
    if n + e.n ≤ limit then e :: taken limit (n + e.n) queue else taken limit n queue

/-- The entries that stay in the queue. -/
def left (limit : Nat) : Nat → List Entry → List Entry
  | _, [] => []
  | n, e :: queue =>
    if n + e.n ≤ limit then left limit (n + e.n) queue else e :: left limit n queue

/-- The indices of the merged entries, when the queue starts at index `i`. -/
def takenIdx (limit : Nat) : Nat → Nat → List Entry → List Nat
  | _, _, [] => []
  | n, i, e :: queue =>
    if n + e.n ≤ limit then i :: takenIdx limit (n + e.n) (i + 1) queue
    else takenIdx limit n (i + 1) queue

variable {limit : Nat}

theorem taken_append_left_perm (n : Nat) (queue : List Entry) :
    (taken limit n queue ++ left limit n queue).Perm queue := by
  induction queue generalizing n with
  | nil => exact List.Perm.refl _
  | cons e queue ih =>
      unfold taken left
      by_cases h : n + e.n ≤ limit
      · rw [if_pos h, if_pos h, List.cons_append]
        exact (ih (n + e.n)).cons e
      · rw [if_neg h, if_neg h]
        exact List.perm_middle.trans ((ih n).cons e)

theorem mem_of_mem_taken {n : Nat} {queue : List Entry} {e : Entry} (h : e ∈ taken limit n queue) :
    e ∈ queue :=
  (taken_append_left_perm n queue).subset (List.mem_append_left _ h)

theorem mem_of_mem_left {n : Nat} {queue : List Entry} {e : Entry} (h : e ∈ left limit n queue) :
    e ∈ queue :=
  (taken_append_left_perm n queue).subset (List.mem_append_right _ h)

theorem length_taken_add_left (n : Nat) (queue : List Entry) :
    (taken limit n queue).length + (left limit n queue).length = queue.length := by
  rw [← List.length_append, (taken_append_left_perm n queue).length_eq]

/-- The message keeps to the limit. -/
theorem sum_taken_le {n : Nat} (h : n ≤ limit) (queue : List Entry) :
    n + ((taken limit n queue).map Entry.n).sum ≤ limit := by
  induction queue generalizing n with
  | nil => simpa [taken] using h
  | cons e queue ih =>
      unfold taken
      by_cases he : n + e.n ≤ limit
      · have hrest := ih he
        rw [if_pos he, List.map_cons, List.sum_cons]
        omega
      · rw [if_neg he]
        exact ih h

/-- An entry over the limit is never merged. -/
theorem mem_left_of_lt {n : Nat} {queue : List Entry} {e : Entry} (he : e ∈ queue)
    (hlimit : limit < e.n) : e ∈ left limit n queue := by
  induction queue generalizing n with
  | nil => cases he
  | cons x queue ih =>
      unfold left
      by_cases hx : n + x.n ≤ limit
      · rw [if_pos hx]
        rcases List.mem_cons.mp he with rfl | hmem
        · omega
        · exact ih hmem
      · rw [if_neg hx]
        rcases List.mem_cons.mp he with rfl | hmem
        · exact List.mem_cons_self
        · exact List.mem_cons_of_mem x (ih hmem)

/-- The accumulators of the merge describe the merged entries. -/
theorem foldl_round (queue : List Entry) : ∀ (m : Merge) (i : Nat),
    (queue.zipIdx i).foldl (Merge.round limit) m =
      { absoluteN := m.absoluteN + ((taken limit m.absoluteN queue).map Entry.n).sum
        inputs := m.inputs ++ (taken limit m.absoluteN queue).map fun e => (e.ticket, e.n)
        packedInputs := m.packedInputs ++ (taken limit m.absoluteN queue).flatMap Entry.packed
        pop := m.pop ++ takenIdx limit m.absoluteN i queue } := by
  induction queue with
  | nil => intro m i; simp [taken, takenIdx]
  | cons e queue ih =>
      intro m i
      rw [List.zipIdx_cons, List.foldl_cons, ih, Merge.round, taken, takenIdx]
      by_cases h : m.absoluteN + e.n ≤ limit
      · simp [h, Nat.add_assoc]
      · simp [h]

theorem mergeInputs_eq (queue : List Entry) :
    mergeInputs limit queue =
      { absoluteN := ((taken limit 0 queue).map Entry.n).sum
        inputs := (taken limit 0 queue).map fun e => (e.ticket, e.n)
        packedInputs := (taken limit 0 queue).flatMap Entry.packed
        pop := takenIdx limit 0 0 queue } := by
  simpa [mergeInputs] using foldl_round queue ⟨0, [], [], []⟩ 0

/-- Popping with a growing shift removes exactly the merged entries. `kept` are the entries already
passed over, so the next index of the shrunken queue is its length. -/
theorem foldl_popRound (queue : List Entry) : ∀ (n shift : Nat) (kept : List Entry),
    (takenIdx limit n (kept.length + shift) queue).foldl popRound (kept ++ queue, shift) =
      (kept ++ left limit n queue, shift + (taken limit n queue).length) := by
  induction queue with
  | nil => intro n shift kept; simp [takenIdx, left, taken]
  | cons e queue ih =>
      intro n shift kept
      unfold takenIdx left taken
      by_cases h : n + e.n ≤ limit
      · -- `e` is popped, and every later index is one more too large
        have herase :
            (kept ++ e :: queue).eraseIdx (kept.length + shift - shift) = kept ++ queue := by
          rw [Nat.add_sub_cancel, List.eraseIdx_append_of_length_le (Nat.le_refl _)]
          simp
        rw [if_pos h, if_pos h, if_pos h, List.foldl_cons, popRound, herase, Nat.add_assoc, ih]
        simp only [List.length_cons]
        congr 1
        omega
      · -- `e` stays and joins the entries passed over
        have hkept := ih n shift (kept ++ [e])
        rw [List.length_append, List.length_singleton, Nat.add_right_comm] at hkept
        rw [if_neg h, if_neg h, if_neg h]
        simpa using hkept

theorem popQueue_mergeInputs (queue : List Entry) :
    popQueue queue (mergeInputs limit queue).pop = left limit 0 queue := by
  have h : (takenIdx limit 0 0 queue).foldl popRound (queue, 0) =
      (left limit 0 queue, 0 + (taken limit 0 queue).length) :=
    foldl_popRound queue 0 0 []
  rw [mergeInputs_eq, popQueue, h]

/-! ## The loop

The loop around it fills the connection up to a number of bytes in flight. -/

/-- A message to the client: the number of results and the packed inputs. -/
structure Message where
  n : Nat
  packed : Bytes
  deriving DecidableEq

/-- The state of `send_recv_loop`. -/
structure LoopState where
  queue : List Entry
  inFlightInputs : List (List (Nat × Nat))
  inFlightBytes : List Nat
  deriving DecidableEq

/-- The state in which nothing is in flight. -/
def LoopState.idle (queue : List Entry) : LoopState := ⟨queue, [], []⟩

/-- The guard of the fill loop, and the `break` of `single_step`. -/
def LoopState.mayFill (l : LoopConfig) (s : LoopState) : Bool :=
  (s.inFlightInputs.length == 0 || decide (s.inFlightBytes.sum < maxInFlightBytes)) &&
    -- one message at a time with `single_step`
    !(l.singleStep && s.inFlightInputs.length == 1)

/-- One pass of the fill loop: the message sent and the state after it. The loop is left when there
is none. -/
def fillPass (l : LoopConfig) (s : LoopState) : Option (Message × LoopState) :=
  if s.mayFill l && !s.queue.isEmpty then
    let m := mergeInputs l.biggerMaxBatchN s.queue
    some (⟨m.absoluteN, m.packedInputs⟩,
      { queue := popQueue s.queue m.pop
        inFlightInputs := s.inFlightInputs ++ [m.inputs]
        inFlightBytes := s.inFlightBytes ++ [m.packedInputs.length] })
  else none

/-- The fill loop, if it ends within `fuel` passes. -/
def fillLoop (l : LoopConfig) : (fuel : Nat) → LoopState → Option LoopState
  | 0, _ => none
  | fuel + 1, s =>
    match fillPass l s with
    | none => some s
    | some (_, s) => fillLoop l fuel s

/-- What receiving an answer does to this state: the oldest message is no longer in flight. -/
def LoopState.pop (s : LoopState) : LoopState :=
  { s with inFlightInputs := s.inFlightInputs.tail, inFlightBytes := s.inFlightBytes.tail }

/-- Everything a pass does. -/
theorem fillPass_eq_some {l : LoopConfig} {s s' : LoopState} {m : Message} :
    fillPass l s = some (m, s') ↔
      s.mayFill l = true ∧ s.queue ≠ [] ∧
      m.n = ((taken l.biggerMaxBatchN 0 s.queue).map Entry.n).sum ∧
      m.packed = (taken l.biggerMaxBatchN 0 s.queue).flatMap Entry.packed ∧
      s' =
        { queue := left l.biggerMaxBatchN 0 s.queue
          inFlightInputs := s.inFlightInputs ++
            [(taken l.biggerMaxBatchN 0 s.queue).map fun e => (e.ticket, e.n)]
          inFlightBytes := s.inFlightBytes ++
            [((taken l.biggerMaxBatchN 0 s.queue).flatMap Entry.packed).length] } := by
  simp only [fillPass, popQueue_mergeInputs]
  rw [mergeInputs_eq]
  rcases m with ⟨n, packed⟩
  -- a pass is made as long as there is room and something to send
  by_cases h : s.mayFill l = true ∧ s.queue ≠ []
  · rw [if_pos (by simpa [List.isEmpty_iff] using h)]
    simp only [Option.some.injEq, Prod.mk.injEq, Message.mk.injEq, h.1, h.2, ne_eq,
      not_false_eq_true, true_and]
    constructor
    · rintro ⟨⟨rfl, rfl⟩, rfl⟩
      exact ⟨rfl, rfl, rfl⟩
    · rintro ⟨rfl, rfl, rfl⟩
      exact ⟨⟨rfl, rfl⟩, rfl⟩
  · rw [if_neg (by simpa [List.isEmpty_iff] using h)]
    simp only [reduceCtorEq, false_iff]
    rintro ⟨hfill, hqueue, -⟩
    exact h ⟨hfill, hqueue⟩

end RISCover
