import RISCover.Collection.Index
import RISCover.Config
import RISCover.Input.Basic
import RISCover.Lib.Turns

/-!
# The scan for undocumented instructions

The workers of `undocfuzz-scan` share a counter. Each takes a batch of words from it, executes the
unknown ones among them, and waits until it is its turn to analyse the results. What happens under
`condition` is one step, so a run is any order of these steps. The inputs of a batch are instances
of the class `Input` itself, which cannot be packed, so a worker ends on the first batch with an
unknown word and the others wait for its turn; `UndocFuzz.ordered_iff` says when the batches are
analysed in order.
-/

open Relation

namespace RISCover

namespace InstructionMaps

/-- `not d`: there is no disassembly, or an empty one. -/
def isUnknown (d : Option String) : Bool := d.all (· == "")

/-- The loop of `gen_unknown_instr_sequentially_until`, for as many words as are left; `none` is the
failing assertion of `disassemble`. -/
def genUnknownLoop (self : InstructionMaps) (ifilter : Option (Nat → Bool)) :
    Nat → Nat → List Nat → Option (List Nat)
  | 0, _, l => some l
  | left + 1, startAt, l =>
    match self.disassemble startAt with
    | none => none
    | some d =>
      if isUnknown d && !ifilter.any (· startAt) then
        genUnknownLoop self ifilter left (startAt + 1) (l ++ [startAt])
      else genUnknownLoop self ifilter left (startAt + 1) l

def genUnknownInstrSequentiallyUntil (self : InstructionMaps) (startAt until_ : Nat)
    (ifilter : Option (Nat → Bool)) : Option (List Nat) :=
  genUnknownLoop self ifilter (until_ - startAt) startAt []

/-- The words that are sent out. -/
def unknown (self : InstructionMaps) (ifilter : Option (Nat → Bool)) (word : Nat) : Bool :=
  (self.disassemble word).any isUnknown && !ifilter.any (· word)

variable {self : InstructionMaps} {ifilter : Option (Nat → Bool)}

theorem eq_of_genUnknownLoop {left startAt : Nat} {l l' : List Nat}
    (h : genUnknownLoop self ifilter left startAt l = some l') :
    l' = l ++ (List.range' startAt left).filter (self.unknown ifilter) := by
  induction left generalizing startAt l with
  | zero =>
      cases h
      exact (List.append_nil _).symm
  | succ left ih =>
      rw [genUnknownLoop] at h
      rw [List.range'_succ]
      -- the loop raises at a word that is too large
      cases hd : self.disassemble startAt with
      | none =>
          rw [hd] at h
          cases h
      | some d =>
          have hunknown : self.unknown ifilter startAt =
              (isUnknown d && !ifilter.any (· startAt)) := by
            rw [unknown, hd, Option.any_some]
          simp only [hd] at h
          split at h
          next hsent =>
            rw [List.filter_cons_of_pos (hunknown.trans hsent), ih h, List.append_assoc]
            rfl
          next hsent =>
            rw [List.filter_cons_of_neg (by rw [hunknown]; exact hsent), ih h]

/-- `disassemble` takes every word of 32 bits and no other. -/
theorem genUnknownLoop_ne_none {left startAt : Nat} (h : startAt + left ≤ 2 ^ 32) (l : List Nat) :
    genUnknownLoop self ifilter left startAt l ≠ none := by
  induction left generalizing startAt l with
  | zero => exact Option.some_ne_none l
  | succ left ih =>
      obtain ⟨d, hd⟩ : ∃ d, self.disassemble startAt = some d := by
        rw [disassemble, if_pos (by omega)]
        split
        · exact ⟨_, rfl⟩
        · exact ⟨_, rfl⟩
      rw [genUnknownLoop, hd]
      show (if _ then _ else _) ≠ none
      split
      · apply ih
        omega
      · apply ih
        omega

theorem lt_of_genUnknownLoop {left startAt : Nat} {l l' : List Nat}
    (h : genUnknownLoop self ifilter left startAt l = some l') :
    ∀ word ∈ List.range' startAt left, word < 2 ^ 32 := by
  induction left generalizing startAt l with
  | zero => exact List.forall_mem_nil _
  | succ left ih =>
      rw [genUnknownLoop] at h
      rw [List.range'_succ, List.forall_mem_cons]
      cases hd : self.disassemble startAt with
      | none =>
          rw [hd] at h
          cases h
      | some d =>
          have hlt : startAt < 2 ^ 32 := by
            by_contra hge
            rw [disassemble, if_neg hge] at hd
            cases hd
          simp only [hd] at h
          split at h
          · exact ⟨hlt, ih h⟩
          · exact ⟨hlt, ih h⟩

end InstructionMaps

/-- What the scan is started with. The counters have 64 bits. -/
structure UndocFuzz where
  startAt : UInt64
  until_ : UInt64
  step : Nat
  step_pos : 0 < step
  instructionCollection : InstructionMaps
  instructionFilter : Option (Nat → Bool)

namespace UndocFuzz

/-! ## The inputs of a batch

The inputs of this generator have neither a `pack` of their own nor an `instr_seq`, so a batch with
an input in it raises on its way to the clients. -/

/-- Class `Input`. `Input([instr])` makes the list its `seq_len`. -/
structure Input where
  seqLen : List Nat

/-- `Input.pack` is abstract and returns `None`, which is nothing that can be joined. -/
def Input.pack (_self : Input) : Option Bytes := none

/-- `inp.instr_seq`; the class has no such attribute. -/
def Input.instrSeq (_self : Input) : Option (List Nat) := none

/-- `generator.generate` of a batch. -/
def generate (u : UndocFuzz) (toGenerate : UInt64) : Option (List Input) :=
  (u.instructionCollection.genUnknownInstrSequentiallyUntil toGenerate.toNat
    (min (toGenerate.toNat + u.step) u.until_.toNat) u.instructionFilter).map fun instrs =>
      instrs.map fun instr => ⟨[instr]⟩

/-- `execute_inputs_on_clients`, up to what is sent to each client; `none` where it raises. -/
def executeInputsOnClients (inputs : List Input) : Option Bytes :=
  if inputs.isEmpty then some [] else packInputs Input.pack inputs

/-! ## The workers

A worker takes its batch under one lock and waits for its turn under another. A step is what happens
between two points where others can come in. -/

/-- Where a worker stands, with the counter that its batch starts at. -/
inductive Worker where
  | idle
  | executing (toGenerate : UInt64)
  /-- In `wait_for`, after the results are there. -/
  | waiting (toGenerate : UInt64) (inputs : List Input) (asleep : Bool)
  | analysing (toGenerate : UInt64) (inputs rest : List Input)
  | ended
  /-- It has raised an exception, with its batch. -/
  | raised (toGenerate : UInt64)

namespace Worker

/-- The batch that was taken and is not analysed. -/
def batch : Worker → Option UInt64
  | idle => none
  | executing b => some b
  | waiting b _ _ => some b
  | analysing b _ _ => some b
  | ended => none
  | raised b => some b

/-- `notify_all` reaches the worker. -/
def notify : Worker → Worker
  | waiting b inputs _ => waiting b inputs false
  | w => w

def Analysing : Worker → Prop
  | analysing _ _ _ => True
  | _ => False

def Asleep : Worker → Prop
  | waiting _ _ asleep => asleep = true
  | _ => False

end Worker

/-- The shared values and the workers. `analysed` and `words` record the batches and the words that
were analysed. -/
structure State (ι : Type) where
  counter : UInt64
  analysedCounter : UInt64
  executedCounter : UInt64
  finished : Bool
  workers : ι → Worker
  analysed : List UInt64
  words : List Nat

variable {ι : Type}

/-- `UndocFuzzServer` with its workers before their first step. -/
def init (u : UndocFuzz) : State ι :=
  ⟨u.startAt, u.startAt, u.startAt, false, fun _ => .idle, [], []⟩

/-- `analysis` of one input, up to the word that it looks at; `none` where it raises. -/
def analysis (s : State ι) (inp : Input) : Option (State ι) := do
  let instr ← (← inp.instrSeq).head?
  pure { s with words := s.words ++ [instr] }

/-- One worker goes on. -/
def State.become [DecidableEq ι] (s : State ι) (i : ι) (w : Worker) : State ι :=
  { s with workers := Function.update s.workers i w }

/-- `condition.notify_all`. -/
def State.notifyAll (s : State ι) : State ι :=
  { s with workers := fun i => (s.workers i).notify }

/-- The counter behind the next batch. -/
def State.take (u : UndocFuzz) (s : State ι) : State ι :=
  { s with counter := UInt64.ofNat (min (s.counter.toNat + u.step) u.until_.toNat) }

/-- The counters behind the analysis of a batch. -/
def State.count (u : UndocFuzz) (s : State ι) (b : UInt64) (inputs : List Input) : State ι :=
  { s with
    executedCounter := s.executedCounter + UInt64.ofNat inputs.length
    analysedCounter := UInt64.ofNat (s.analysedCounter.toNat + u.step)
    analysed := s.analysed ++ [b] }

/-- The next step of a worker; `none` while it sleeps and after it has left. -/
def next [DecidableEq ι] (u : UndocFuzz) (i : ι) (s : State ι) : Option (State ι) :=
  match s.workers i with
  | .idle =>
    if u.until_ ≤ s.counter then some ({ s with finished := true }.become i .ended)
    else some ((s.take u).become i (.executing s.counter))
  | .executing b =>
    match u.generate b with
    | none => some (s.become i (.raised b))
    | some inputs =>
      match executeInputsOnClients inputs with
      | none => some (s.become i (.raised b))
      | some _ => some (s.become i (.waiting b inputs false))
  | .waiting _ _ true => none
  | .waiting b inputs false =>
    if s.analysedCounter == b then some (s.become i (.analysing b inputs inputs))
    else some (s.become i (.waiting b inputs true))
  | .analysing b inputs (inp :: rest) =>
    match analysis s inp with
    | none => some (s.become i (.raised b))
    | some s => some (s.become i (.analysing b inputs rest))
  | .analysing b inputs [] =>
    some ((s.count u b inputs).become i .idle).notifyAll
  | .ended => none
  | .raised _ => none

/-- The workers take steps in any order. -/
def Reaches [DecidableEq ι] (u : UndocFuzz) : State ι → State ι → Prop :=
  ReflTransGen fun s s' => ∃ i, u.next i s = some s'

/-- The workers take steps in this order. -/
def run [DecidableEq ι] (u : UndocFuzz) (schedule : List ι) (s : State ι) : Option (State ι) :=
  schedule.foldlM (fun s i => u.next i s) s

/-! ## What the scan promises

`Ordered` is what the scan is for. `Quiet` is the condition under which it is so: no batch of it has
an input. -/

/-- The words of a batch. -/
def range (u : UndocFuzz) (toGenerate : UInt64) : List Nat :=
  List.range' toGenerate.toNat
    (min (toGenerate.toNat + u.step) u.until_.toNat - toGenerate.toNat)

/-- The words of the collection's gaps that pass the filter. -/
def unknown (u : UndocFuzz) : Nat → Bool :=
  u.instructionCollection.unknown u.instructionFilter

/-- The analysis goes through the batches in order. -/
structure Ordered [DecidableEq ι] (u : UndocFuzz) (s : State ι) : Prop where
  /-- Batches are analysed in increasing order. -/
  increasing : s.analysed.Pairwise (· < ·)
  /-- The inputs of the batches, too, none left out and none twice. -/
  inputs : s.words <+:
    (List.range' u.startAt.toNat (s.counter.toNat - u.startAt.toNat)).filter u.unknown
  /-- One at a time. -/
  alone : ∀ i j, (s.workers i).Analysing → (s.workers j).Analysing → i = j
  /-- A batch that is still to be analysed was not analysed, and one worker has it. -/
  once : ∀ i b, (s.workers i).batch = some b →
    b ∉ s.analysed ∧ ∀ j, (s.workers j).batch = some b → j = i
  /-- What was taken from the counter is in one batch each. -/
  partition : ∃ held : List UInt64, (∀ b, b ∈ held ↔ ∃ i, (s.workers i).batch = some b) ∧
    (s.analysed ++ held).flatMap u.range =
      List.range' u.startAt.toNat (s.counter.toNat - u.startAt.toNat)
  /-- In the end all words were in a batch, and the unknown ones were analysed. -/
  complete : u.until_ ≤ s.counter → (∀ i, (s.workers i).batch = none) →
    s.analysed.flatMap u.range =
        List.range' u.startAt.toNat (u.until_.toNat - u.startAt.toNat) ∧
      s.words =
        (List.range' u.startAt.toNat (u.until_.toNat - u.startAt.toNat)).filter u.unknown
  /-- While there is a batch to analyse, one of them is next. -/
  turn : (∃ i b, (s.workers i).batch = some b) →
    ∃ i, (s.workers i).batch = some s.analysedCounter
  /-- Waiting can be resolved: the batches that were taken do come to be analysed. -/
  resolved : ∃ s', u.Reaches s s' ∧ s'.counter = s.counter ∧ ∀ i, (s'.workers i).batch = none

/-- No word of the scan is sent out, and none is too large for `disassemble`. -/
def Quiet (u : UndocFuzz) : Prop :=
  ∀ word, u.startAt.toNat ≤ word → word < u.until_.toNat →
    word < 2 ^ 32 ∧ u.unknown word = false

variable {u : UndocFuzz} {s s' : State ι} {t : Turns ι}

/-! ## The batches

The batches follow on each other from the start to the end of the scan, and the last one may be
shorter. -/

/-- Where the `n`-th batch starts. -/
def batchAt (u : UndocFuzz) (n : Nat) : UInt64 := UInt64.ofNat (u.startAt.toNat + n * u.step)

/-- The counter after `n` batches. -/
def bound (u : UndocFuzz) (n : Nat) : Nat :=
  min (u.startAt.toNat + n * u.step) (max u.startAt.toNat u.until_.toNat)

theorem toNat_batchAt {n : Nat} (h : u.startAt.toNat + n * u.step < u.until_.toNat) :
    (u.batchAt n).toNat = u.startAt.toNat + n * u.step := by
  apply UInt64.toNat_ofNat_of_lt'
  exact h.trans u.until_.toNat_lt

theorem bound_eq {n : Nat} (h : u.startAt.toNat + n * u.step < u.until_.toNat) :
    u.bound n = u.startAt.toNat + n * u.step := by
  unfold bound
  omega

theorem bound_succ {n : Nat} (h : u.startAt.toNat + n * u.step < u.until_.toNat) :
    u.bound (n + 1) = min (u.startAt.toNat + n * u.step + u.step) u.until_.toNat := by
  unfold bound
  rw [Nat.succ_mul]
  omega

/-- Earlier batches start below `until`, too. -/
theorem lt_until_of_le {m n : Nat} (hle : m ≤ n)
    (h : u.startAt.toNat + n * u.step < u.until_.toNat) :
    u.startAt.toNat + m * u.step < u.until_.toNat := by
  have hmul := Nat.mul_le_mul_right u.step hle
  omega

/-- Different batches start at different words. -/
theorem batchAt_lt {m n : Nat} (hlt : m < n)
    (h : u.startAt.toNat + n * u.step < u.until_.toNat) : u.batchAt m < u.batchAt n := by
  rw [UInt64.lt_iff_toNat_lt, toNat_batchAt h, toNat_batchAt (lt_until_of_le hlt.le h)]
  have hmul := Nat.mul_lt_mul_of_pos_right hlt u.step_pos
  omega

theorem batchAt_inj {m n : Nat} (hm : u.startAt.toNat + m * u.step < u.until_.toNat)
    (hn : u.startAt.toNat + n * u.step < u.until_.toNat) (heq : u.batchAt m = u.batchAt n) :
    m = n := by
  rcases Nat.lt_trichotomy m n with hlt | rfl | hgt
  · exact absurd (heq ▸ batchAt_lt hlt hn) (UInt64.lt_irrefl _)
  · rfl
  · exact absurd (heq ▸ batchAt_lt hgt hm) (UInt64.lt_irrefl _)

theorem range_batchAt {n : Nat} (h : u.startAt.toNat + n * u.step < u.until_.toNat) :
    u.range (u.batchAt n) = List.range' (u.bound n) (u.bound (n + 1) - u.bound n) := by
  rw [range, toNat_batchAt h, bound_succ h, bound_eq h]

theorem bound_mono (n : Nat) : u.bound n ≤ u.bound (n + 1) := by
  unfold bound
  rw [Nat.succ_mul]
  omega

/-- The batches follow one another. -/
theorem flatMap_range_batchAt {n : Nat}
    (h : ∀ m < n, u.startAt.toNat + m * u.step < u.until_.toNat) :
    ((List.range n).map u.batchAt).flatMap u.range =
      List.range' u.startAt.toNat (u.bound n - u.startAt.toNat) := by
  induction n with
  | zero => simp [bound]
  | succ n ih =>
      have hle : u.startAt.toNat ≤ u.bound n := by
        unfold bound
        omega
      have hmono := u.bound_mono n
      rw [List.range_succ, List.map_append, List.flatMap_append,
        ih fun m hm => h m (Nat.lt_succ_of_lt hm), List.map_singleton, List.flatMap_singleton,
        range_batchAt (h n (Nat.lt_succ_self n))]
      have hstart : u.bound n = u.startAt.toNat + (u.bound n - u.startAt.toNat) := by omega
      have hlen : u.bound (n + 1) - u.startAt.toNat =
          u.bound n - u.startAt.toNat + (u.bound (n + 1) - u.bound n) := by omega
      rw [hlen, ← List.range'_append_1, ← hstart]

/-- The batch goes through, as there is nothing to send. -/
def Passes (u : UndocFuzz) (b : UInt64) : Prop := u.generate b = some []

theorem passes_iff {b : UInt64} :
    u.Passes b ↔ ∀ word ∈ u.range b, word < 2 ^ 32 ∧ u.unknown word = false := by
  -- a batch passes when the generator succeeds and yields nothing
  have hgenerate : u.Passes b ↔ u.instructionCollection.genUnknownInstrSequentiallyUntil b.toNat
      (min (b.toNat + u.step) u.until_.toNat) u.instructionFilter = some [] := by
    rw [Passes, generate, Option.map_eq_some_iff]
    simp
  rw [hgenerate]
  constructor
  · intro h word hword
    have heq := InstructionMaps.eq_of_genUnknownLoop h
    rw [List.nil_append, eq_comm, List.filter_eq_nil_iff] at heq
    exact ⟨InstructionMaps.lt_of_genUnknownLoop h word hword,
      Bool.eq_false_iff.mpr (heq word hword)⟩
  · intro h
    have hnone : u.instructionCollection.genUnknownInstrSequentiallyUntil b.toNat
        (min (b.toNat + u.step) u.until_.toNat) u.instructionFilter ≠ none := by
      by_cases hempty : min (b.toNat + u.step) u.until_.toNat - b.toNat = 0
      · rw [InstructionMaps.genUnknownInstrSequentiallyUntil, hempty]
        exact Option.some_ne_none _
      · apply InstructionMaps.genUnknownLoop_ne_none
        -- no word of the range is too large when its last one is not
        have hlast := h (b.toNat + (min (b.toNat + u.step) u.until_.toNat - b.toNat) - 1) (by
          rw [range, List.mem_range'_1]
          omega)
        omega
    obtain ⟨instrs, hinstrs⟩ := Option.ne_none_iff_exists'.mp hnone
    have heq := InstructionMaps.eq_of_genUnknownLoop hinstrs
    rw [List.nil_append] at heq
    rw [hinstrs, heq]
    refine congrArg some (List.filter_eq_nil_iff.mpr fun word hword => ?_)
    exact Bool.eq_false_iff.mp (h word hword).2

/-- The batches are those of the words, so all of them go through exactly if there is no word to
send. -/
theorem quiet_iff : u.Quiet ↔ ∀ n, u.startAt.toNat + n * u.step < u.until_.toNat →
    u.Passes (u.batchAt n) := by
  constructor
  · intro h n hn
    rw [passes_iff, range_batchAt hn]
    intro word hword
    rw [List.mem_range'_1, bound_eq hn, bound_succ hn] at hword
    exact h word (by omega) (by omega)
  · intro h word hstart hstop
    -- the batch that the word is in
    have hdiv := Nat.div_add_mod (word - u.startAt.toNat) u.step
    have hmod := Nat.mod_lt (word - u.startAt.toNat) u.step_pos
    rw [Nat.mul_comm] at hdiv
    have hn : u.startAt.toNat + (word - u.startAt.toNat) / u.step * u.step < u.until_.toNat := by
      omega
    refine passes_iff.mp (h _ hn) word ?_
    rw [range_batchAt hn, List.mem_range'_1, bound_eq hn, bound_succ hn]
    omega

/-! ## Taking turns

The batches are drawn from the counter and analysed in the order in which they were drawn, as
tickets are served (`Turns`). -/

/-- What waits has nothing to be analysed; a worker raises only over a batch that does not go
through. -/
def Worker.Passed (u : UndocFuzz) : Worker → Prop
  | .waiting b inputs _ => u.Passes b ∧ inputs = []
  | .analysing b inputs rest => u.Passes b ∧ inputs = [] ∧ rest = []
  | .raised b => ¬u.Passes b
  | _ => True

/-- A worker that holds this number while `served` is next. -/
structure Worker.Keeps (u : UndocFuzz) (served : Nat) (number : Option Nat) (w : Worker) :
    Prop where
  batch : w.batch = number.map u.batchAt
  passed : w.Passed u
  turn : w.Analysing → number = some served
  asleep : w.Asleep → number ≠ some served

/-- The workers take turns: `t` says who holds which batch, by its number. -/
structure Refines (u : UndocFuzz) (s : State ι) (t : Turns ι) : Prop where
  valid : t.Valid
  lt : ∀ n < t.taken, u.startAt.toNat + n * u.step < u.until_.toNat
  counter : s.counter.toNat = u.bound t.taken
  analysedCounter : s.analysedCounter = u.batchAt t.served
  analysed : s.analysed = (List.range t.served).map u.batchAt
  workers : ∀ i, (s.workers i).Keeps u t.served (t.holds i)
  words : s.words = []
  passed : ∀ n < t.served, u.Passes (u.batchAt n)
  ended : ∀ i, s.workers i = .ended → u.until_ ≤ s.counter

theorem refines_init (u : UndocFuzz) : u.Refines (init u : State ι) Turns.start where
  valid := Turns.valid_start
  lt := fun n hn => absurd hn (Nat.not_lt_zero n)
  counter := by
    show u.startAt.toNat = min (u.startAt.toNat + 0 * u.step) _
    omega
  analysedCounter := by
    show u.startAt = UInt64.ofNat (u.startAt.toNat + 0 * u.step)
    rw [Nat.zero_mul, Nat.add_zero, UInt64.ofNat_toNat]
  analysed := rfl
  workers := fun _ => ⟨rfl, trivial, False.elim, False.elim⟩
  words := rfl
  passed := fun n hn => absurd hn (Nat.not_lt_zero n)
  ended := by
    intro i hi
    cases hi

/-! ## The steps

`Refines` says which number each worker holds and is kept by every step, whether or not the scan is
quiet. -/

namespace Worker

variable {served : Nat} {number : Option Nat} {w : Worker}

theorem not_asleep_notify (w : Worker) : ¬w.notify.Asleep := by
  cases w with
  | waiting b inputs asleep => exact Bool.false_ne_true
  | _ => exact id

theorem notify_eq_ended {w : Worker} : w.notify = .ended ↔ w = .ended := by
  cases w with
  | waiting b inputs asleep =>
      constructor
      · intro h
        cases h
      · intro h
        cases h
  | _ => exact Iff.rfl

/-- A worker that does not analyse does not mind what the others do. -/
theorem Keeps.notify (h : w.Keeps u served number) (hw : ¬w.Analysing) (served' : Nat) :
    w.notify.Keeps u served' number where
  batch := by
    rw [← h.batch]
    cases w <;> rfl
  passed := by
    cases w with
    | waiting b inputs asleep => exact h.passed
    | analysing b inputs rest => exact absurd trivial hw
    | raised b => exact h.passed
    | _ => trivial
  turn := by
    intro hA
    cases w with
    | analysing b inputs rest => exact absurd trivial hw
    | _ => exact hA.elim
  asleep := fun hA => absurd hA (not_asleep_notify w)

end Worker

/-- Who analyses is next, and so there is only one. -/
theorem Refines.eq_of_analysing (h : u.Refines s t) {i j : ι} (hi : (s.workers i).Analysing)
    (hj : t.holds j = some t.served) : i = j :=
  h.valid.alone i j t.served ((h.workers i).turn hi) hj

/-- The counter is where the next batch starts. -/
theorem Refines.counter_eq (h : u.Refines s t) (hlt : ¬u.until_ ≤ s.counter) :
    u.startAt.toNat + t.taken * u.step < u.until_.toNat ∧ s.counter = u.batchAt t.taken := by
  have hcounter := h.counter
  rw [UInt64.le_iff_toNat_le] at hlt
  unfold bound at hcounter
  have hbelow : u.startAt.toNat + t.taken * u.step < u.until_.toNat := by omega
  refine ⟨hbelow, UInt64.toNat_inj.mp ?_⟩
  rw [toNat_batchAt hbelow]
  omega

/-- It is the turn of a worker whose batch starts at `analysed_counter`, and of no other. -/
theorem Refines.holds_served_iff (h : u.Refines s t) {i : ι} {w : Worker} {b : UInt64}
    (hi : s.workers i = w) (hb : w.batch = some b) :
    t.holds i = some t.served ↔ s.analysedCounter = b := by
  rw [← hi, (h.workers i).batch, Option.map_eq_some_iff] at hb
  obtain ⟨n, hn, rfl⟩ := hb
  rw [hn, h.analysedCounter]
  constructor
  · intro heq
    cases heq
    rfl
  · intro heq
    have hout := h.valid.out i n hn
    have hlt := h.lt n hout.2
    exact congrArg some (batchAt_inj (lt_until_of_le hout.1 hlt) hlt heq).symm

variable [DecidableEq ι]

theorem State.workers_become_self (s : State ι) (i : ι) (w : Worker) :
    (s.become i w).workers i = w := by
  unfold State.become
  exact Function.update_self i w s.workers

theorem State.workers_become_of_ne {s : State ι} {i j : ι} (w : Worker) (h : j ≠ i) :
    (s.become i w).workers j = s.workers j := by
  unfold State.become
  exact Function.update_of_ne h w s.workers

theorem State.forall_become {s : State ι} {i : ι} {w : Worker} {p : ι → Worker → Prop}
    (hi : p i w) (hne : ∀ j, j ≠ i → p j (s.workers j)) (j : ι) :
    p j ((s.become i w).workers j) := by
  by_cases hji : j = i
  · subst hji
    rw [State.workers_become_self]
    exact hi
  · rw [State.workers_become_of_ne w hji]
    exact hne j hji

/-- A worker goes on with its batch. -/
theorem Refines.become (h : u.Refines s t) {i : ι} {w : Worker}
    (hkeeps : w.Keeps u t.served (t.holds i)) (hended : w = .ended → u.until_ ≤ s.counter) :
    u.Refines (s.become i w) t where
  valid := h.valid
  lt := h.lt
  counter := h.counter
  analysedCounter := h.analysedCounter
  analysed := h.analysed
  workers := State.forall_become hkeeps fun j _ => h.workers j
  words := h.words
  passed := h.passed
  ended := State.forall_become (p := fun _ w => w = .ended → u.until_ ≤ s.counter) hended
    fun j _ => h.ended j

/-- A worker takes the next batch. -/
theorem Refines.take (h : u.Refines s t) {i : ι} (hi : s.workers i = .idle)
    (hlt : ¬u.until_ ≤ s.counter) :
    u.Refines ((s.take u).become i (.executing s.counter)) (t.take i) where
  valid := by
    apply h.valid.take
    have hb := (h.workers i).batch
    rw [hi] at hb
    exact Option.map_eq_none_iff.mp hb.symm
  lt := by
    intro n hn
    rcases Nat.lt_succ_iff_lt_or_eq.mp hn with hn | rfl
    · exact h.lt n hn
    · exact (h.counter_eq hlt).1
  counter := by
    obtain ⟨hbelow, heq⟩ := h.counter_eq hlt
    show (UInt64.ofNat (min (s.counter.toNat + u.step) u.until_.toNat)).toNat =
      u.bound (t.taken + 1)
    rw [UInt64.toNat_ofNat_of_lt' ((Nat.min_le_right _ _).trans_lt u.until_.toNat_lt), heq,
      toNat_batchAt hbelow, bound_succ hbelow]
  analysedCounter := h.analysedCounter
  analysed := h.analysed
  workers := by
    apply State.forall_become
    · rw [Turns.holds_take_self]
      exact ⟨congrArg some (h.counter_eq hlt).2, trivial, False.elim, False.elim⟩
    · intro j hji
      rw [Turns.holds_take_of_ne hji]
      exact h.workers j
  words := h.words
  passed := h.passed
  ended := by
    -- nobody has ended while there are batches to take
    apply State.forall_become
      (p := fun (_ : ι) (w : Worker) => w = .ended → u.until_ ≤ (s.take u).counter)
    · intro heq
      cases heq
    · exact fun j _ hj => absurd (h.ended j hj) hlt

/-- The batch is analysed, and the next one may be. -/
theorem Refines.serve (h : u.Refines s t) {i : ι} {b : UInt64} {inputs : List Input}
    (hi : s.workers i = .analysing b inputs []) :
    u.Refines ((s.count u b inputs).become i .idle).notifyAll (t.serve i) := by
  have hkeeps := h.workers i
  rw [hi] at hkeeps
  have hserved : t.holds i = some t.served := hkeeps.turn trivial
  have hout := h.valid.out i t.served hserved
  have hbelow := h.lt t.served hout.2
  -- the worker that analyses has the number that is served
  have hb : b = u.batchAt t.served := by
    have hbatch := hkeeps.batch
    rw [hserved] at hbatch
    exact Option.some.inj hbatch
  exact
    { valid := h.valid.serve hserved
      lt := h.lt
      counter := h.counter
      analysedCounter := by
        show UInt64.ofNat (s.analysedCounter.toNat + u.step) = u.batchAt (t.served + 1)
        rw [h.analysedCounter, toNat_batchAt hbelow, batchAt, Nat.succ_mul, Nat.add_assoc]
      analysed := by
        show s.analysed ++ [b] = _
        rw [h.analysed, hb, Turns.served_serve, List.range_succ, List.map_append,
          List.map_singleton]
      workers := by
        apply State.forall_become
          (p := fun j w => Worker.Keeps u (t.served + 1) ((t.serve i).holds j) w.notify)
        · rw [Turns.holds_serve_self]
          exact ⟨rfl, trivial, False.elim, False.elim⟩
        · intro j hji
          rw [Turns.holds_serve_of_ne hji]
          exact (h.workers j).notify (fun hj => hji (h.eq_of_analysing hj hserved)) _
      words := h.words
      passed := by
        intro n hn
        rcases Nat.lt_succ_iff_lt_or_eq.mp hn with hn | rfl
        · exact h.passed n hn
        · rw [← hb]
          exact hkeeps.passed.1
      ended := by
        apply State.forall_become (p := fun _ w => w.notify = .ended → u.until_ ≤ s.counter)
        · intro heq
          cases heq
        · exact fun j _ hj => h.ended j (Worker.notify_eq_ended.mp hj) }

/-- A worker goes on with its batch and does not analyse it. -/
theorem Refines.goOn (h : u.Refines s t) {i : ι} {v w : Worker} (hi : s.workers i = v)
    (hbatch : w.batch = v.batch) (hpassed : w.Passed u) (hw : ¬w.Analysing)
    (hasleep : w.Asleep → t.holds i ≠ some t.served)
    (hended : w = .ended → u.until_ ≤ s.counter) : u.Refines (s.become i w) t := by
  have hheld : v.batch = (t.holds i).map u.batchAt := hi ▸ (h.workers i).batch
  exact h.become ⟨hbatch.trans hheld, hpassed, fun hA => absurd hA hw, hasleep⟩ hended

/-- A worker whose turn it is starts to analyse. -/
theorem Refines.turn (h : u.Refines s t) {i : ι} {b : UInt64} {inputs : List Input}
    (hi : s.workers i = .waiting b inputs false) (hturn : s.analysedCounter = b) :
    u.Refines (s.become i (.analysing b inputs inputs)) t := by
  have hkeeps := h.workers i
  rw [hi] at hkeeps
  have hserved : t.holds i = some t.served := (h.holds_served_iff hi rfl).mpr hturn
  refine h.become ⟨hkeeps.batch, ?_, fun _ => hserved, False.elim⟩ fun heq => nomatch heq
  exact ⟨hkeeps.passed.1, hkeeps.passed.2, hkeeps.passed.2⟩

/-- A batch that goes through waits for its turn. -/
theorem Refines.execute (h : u.Refines s t) {i : ι} {b : UInt64} (hi : s.workers i = .executing b)
    (hpasses : u.Passes b) : u.Refines (s.become i (.waiting b [] false)) t :=
  h.goOn hi rfl ⟨hpasses, rfl⟩ id (fun hasleep => absurd hasleep Bool.false_ne_true)
    fun heq => nomatch heq

/-- What a step of a worker can be. -/
inductive Step (u : UndocFuzz) (i : ι) (s : State ι) : State ι → Prop
  | finish (hi : s.workers i = .idle) (hdone : u.until_ ≤ s.counter) :
      Step u i s ({ s with finished := true }.become i .ended)
  | take (hi : s.workers i = .idle) (hlt : ¬u.until_ ≤ s.counter) :
      Step u i s ((s.take u).become i (.executing s.counter))
  | pass {b : UInt64} (hi : s.workers i = .executing b) (hpasses : u.Passes b) :
      Step u i s (s.become i (.waiting b [] false))
  | fail {b : UInt64} (hi : s.workers i = .executing b) (hraises : ¬u.Passes b) :
      Step u i s (s.become i (.raised b))
  | turn {b : UInt64} {inputs : List Input} (hi : s.workers i = .waiting b inputs false)
      (hturn : s.analysedCounter = b) : Step u i s (s.become i (.analysing b inputs inputs))
  | sleep {b : UInt64} {inputs : List Input} (hi : s.workers i = .waiting b inputs false)
      (hturn : s.analysedCounter ≠ b) : Step u i s (s.become i (.waiting b inputs true))
  | stop {b : UInt64} {inputs rest : List Input} {inp : Input}
      (hi : s.workers i = .analysing b inputs (inp :: rest)) : Step u i s (s.become i (.raised b))
  | serve {b : UInt64} {inputs : List Input} (hi : s.workers i = .analysing b inputs []) :
      Step u i s ((s.count u b inputs).become i .idle).notifyAll

theorem step_of_next {i : ι} (h : u.next i s = some s') : Step u i s s' := by
  cases hi : s.workers i with
  | idle =>
      simp only [UndocFuzz.next, hi] at h
      split at h
      next hdone =>
        cases h
        exact .finish hi hdone
      next hlt =>
        cases h
        exact .take hi hlt
  | executing b =>
      simp only [UndocFuzz.next, hi] at h
      cases hgen : u.generate b with
      | none =>
          simp only [hgen] at h
          cases h
          exact .fail hi fun hpasses => Option.some_ne_none _ (hpasses.symm.trans hgen)
      | some inputs =>
          cases inputs with
          | nil =>
              simp only [hgen] at h
              cases h
              exact .pass hi hgen
          | cons inp inputs =>
              -- the first input has no bytes to join
              simp only [hgen] at h
              cases h
              refine .fail hi fun hpasses => ?_
              exact List.cons_ne_nil _ _ (Option.some.inj (hgen.symm.trans hpasses))
  | waiting b inputs asleep =>
      cases asleep with
      | true =>
          simp only [UndocFuzz.next, hi] at h
          cases h
      | false =>
          simp only [UndocFuzz.next, hi, beq_iff_eq] at h
          split at h
          next hturn =>
            cases h
            exact .turn hi hturn
          next hturn =>
            cases h
            exact .sleep hi hturn
  | analysing b inputs rest =>
      cases rest with
      | nil =>
          simp only [UndocFuzz.next, hi] at h
          cases h
          exact .serve hi
      | cons inp rest =>
          simp only [UndocFuzz.next, hi] at h
          cases h
          exact .stop hi
  | ended =>
      simp only [UndocFuzz.next, hi] at h
      cases h
  | raised b =>
      simp only [UndocFuzz.next, hi] at h
      cases h

theorem next_executing {i : ι} {b : UInt64} (hi : s.workers i = .executing b)
    (hpasses : u.Passes b) : u.next i s = some (s.become i (.waiting b [] false)) := by
  rw [Passes] at hpasses
  simp only [UndocFuzz.next, hi, hpasses]
  rfl

/-- Every step is one of the abstract steps, or none of them. -/
theorem Refines.next (h : u.Refines s t) {i : ι} (hnext : u.next i s = some s') :
    ∃ t', u.Refines s' t' := by
  have hkeeps := h.workers i
  cases step_of_next hnext with
  | finish hi hdone =>
      have hfinished : u.Refines { s with finished := true } t :=
        ⟨h.valid, h.lt, h.counter, h.analysedCounter, h.analysed, h.workers, h.words, h.passed,
          h.ended⟩
      exact ⟨t, hfinished.goOn hi rfl trivial id False.elim fun _ => hdone⟩
  | take hi hlt => exact ⟨t.take i, h.take hi hlt⟩
  | pass hi hpasses => exact ⟨t, h.execute hi hpasses⟩
  | fail hi hraises => exact ⟨t, h.goOn hi rfl hraises id False.elim fun heq => nomatch heq⟩
  | turn hi hturn => exact ⟨t, h.turn hi hturn⟩
  | sleep hi hturn =>
      rw [hi] at hkeeps
      refine ⟨t, h.goOn hi rfl hkeeps.passed id (fun _ hserved => ?_) fun heq => nomatch heq⟩
      exact hturn ((h.holds_served_iff hi rfl).mp hserved)
  | stop hi =>
      -- a batch that is analysed went through, so nothing is left of it
      rw [hi] at hkeeps
      exact absurd hkeeps.passed.2.2 (List.cons_ne_nil _ _)
  | serve hi => exact ⟨t.serve i, h.serve hi⟩

theorem exists_refines (h : u.Reaches (init u) s) : ∃ t, u.Refines s t := by
  induction h with
  | refl => exact ⟨Turns.start, u.refines_init⟩
  | tail _ hstep ih =>
      obtain ⟨t, ht⟩ := ih
      obtain ⟨i, hnext⟩ := hstep
      exact ht.next hnext

theorem reaches_of_run {schedule : List ι} (h : u.run schedule s = some s') :
    u.Reaches s s' := by
  induction schedule generalizing s with
  | nil =>
      cases h
      exact ReflTransGen.refl
  | cons i schedule ih =>
      rw [run, List.foldlM_cons] at h
      obtain ⟨s₁, hnext, hrun⟩ := Option.bind_eq_some_iff.mp h
      exact ReflTransGen.head ⟨i, hnext⟩ (ih hrun)

/-! ## Coming to an end

The worker whose turn it is gets through if its batch passes. If it does not, it has raised and
nobody is served any more. -/

theorem Reaches.head (i : ι) {s s₁ s' : State ι} (h : u.next i s = some s₁)
    (h' : u.Reaches s₁ s') : u.Reaches s s' := ReflTransGen.head ⟨i, h⟩ h'

/-- A worker whose turn it is does not sleep and has its batch analysed. -/
theorem Refines.exists_serve_of_waiting (h : u.Refines s t) {i : ι} {b : UInt64}
    {inputs : List Input} {asleep : Bool} (hi : s.workers i = .waiting b inputs asleep)
    (hserved : t.holds i = some t.served) : ∃ s', u.Reaches s s' ∧ u.Refines s' (t.serve i) := by
  have hkeeps := h.workers i
  rw [hi] at hkeeps
  cases asleep with
  | true => exact absurd hserved (hkeeps.asleep rfl)
  | false =>
      have hturn : s.analysedCounter = b := (h.holds_served_iff hi rfl).mp hserved
      have hanalysing := h.turn hi hturn
      obtain rfl := hkeeps.passed.2
      have hmid := State.workers_become_self s i (.analysing b [] [])
      have hfirst : u.next i s = some (s.become i (.analysing b [] [])) := by
        simp only [UndocFuzz.next, hi, beq_iff_eq, if_pos hturn]
      refine ⟨_, Reaches.head i hfirst (ReflTransGen.single ⟨i, ?_⟩), hanalysing.serve hmid⟩
      simp only [UndocFuzz.next, hmid]

/-- The worker that is next has its batch analysed, if that goes through. -/
theorem Refines.exists_serve (h : u.Refines s t) (hpasses : u.Passes (u.batchAt t.served)) {i : ι}
    (hserved : t.holds i = some t.served) : ∃ s', u.Reaches s s' ∧ u.Refines s' (t.serve i) := by
  have hkeeps := h.workers i
  have hbatch := hkeeps.batch
  rw [hserved, Option.map_some] at hbatch
  -- the worker has a batch, and what it still has to do depends on where it stands
  cases hi : s.workers i with
  | executing b =>
      rw [hi] at hbatch
      obtain rfl := Option.some.inj hbatch
      have hwaiting := State.workers_become_self s i (.waiting (u.batchAt t.served) [] false)
      obtain ⟨s', hreach, hs'⟩ := (h.execute hi hpasses).exists_serve_of_waiting hwaiting hserved
      refine ⟨s', Reaches.head i ?_ hreach, hs'⟩
      exact next_executing hi hpasses
  | waiting b inputs asleep => exact h.exists_serve_of_waiting hi hserved
  | analysing b inputs rest =>
      rw [hi] at hkeeps
      obtain rfl := hkeeps.passed.2.2
      refine ⟨_, ReflTransGen.single ⟨i, ?_⟩, h.serve hi⟩
      simp only [UndocFuzz.next, hi]
  | raised b =>
      rw [hi] at hkeeps hbatch
      obtain rfl := Option.some.inj hbatch
      exact absurd hpasses hkeeps.passed
  | idle =>
      rw [hi] at hbatch
      cases hbatch
  | ended =>
      rw [hi] at hbatch
      cases hbatch

/-- One batch after the other is analysed, until no worker has one. -/
theorem Refines.exists_resolved (h : u.Refines s t) (hquiet : u.Quiet) :
    ∃ s', u.Reaches s s' ∧ s'.counter = s.counter ∧ ∀ i, (s'.workers i).batch = none := by
  induction hleft : t.taken - t.served generalizing s t with
  | zero =>
      have hle := h.valid.le
      refine ⟨s, ReflTransGen.refl, rfl, fun i => ?_⟩
      rw [(h.workers i).batch, h.valid.holds_eq_none (by omega) i]
      rfl
  | succ left ih =>
      obtain ⟨i, hserved⟩ := h.valid.held t.served (Nat.le_refl _) (by omega)
      have hpasses := quiet_iff.mp hquiet t.served (h.lt _ (by omega))
      obtain ⟨s₁, hreach₁, hs₁⟩ := h.exists_serve hpasses hserved
      obtain ⟨s', hreach, hcounter, hnone⟩ := ih hs₁ (by
        rw [Turns.taken_serve, Turns.served_serve]
        omega)
      refine ⟨s', hreach₁.trans hreach, hcounter.trans (UInt64.toNat_inj.mp ?_), hnone⟩
      rw [hs₁.counter, h.counter]
      rfl

/-- A worker that has raised takes no step any more. -/
theorem Step.raised {j : ι} (h : Step u j s s') {i : ι} {b : UInt64}
    (hi : s.workers i = .raised b) : s'.workers i = .raised b := by
  have hne : ∀ w, s.workers j = w → w ≠ .raised b → i ≠ j := by
    rintro w hj hw rfl
    exact hw (hj.symm.trans hi)
  cases h with
  | finish hj => exact (State.workers_become_of_ne _ (hne _ hj Worker.noConfusion)).trans hi
  | take hj => exact (State.workers_become_of_ne _ (hne _ hj Worker.noConfusion)).trans hi
  | pass hj => exact (State.workers_become_of_ne _ (hne _ hj Worker.noConfusion)).trans hi
  | fail hj => exact (State.workers_become_of_ne _ (hne _ hj Worker.noConfusion)).trans hi
  | turn hj => exact (State.workers_become_of_ne _ (hne _ hj Worker.noConfusion)).trans hi
  | sleep hj => exact (State.workers_become_of_ne _ (hne _ hj Worker.noConfusion)).trans hi
  | stop hj => exact (State.workers_become_of_ne _ (hne _ hj Worker.noConfusion)).trans hi
  | @serve b' inputs hj =>
      have hkept := (State.workers_become_of_ne (s := s.count u b' inputs) .idle
        (hne _ hj Worker.noConfusion)).trans hi
      exact congrArg Worker.notify hkept

theorem raised_of_reaches (h : u.Reaches s s') {i : ι} {b : UInt64}
    (hi : s.workers i = .raised b) : s'.workers i = .raised b := by
  induction h with
  | refl => exact hi
  | tail _ hstep ih =>
      obtain ⟨j, hnext⟩ := hstep
      exact (step_of_next hnext).raised ih

/-! ## The order of the analysis

What the numbers say of the batches, in a scan that is quiet and in one that is not. -/

theorem range_eq_append {m n : Nat} (h : m ≤ n) :
    List.range n = List.range m ++ List.range' m (n - m) := by
  have happend := @List.range'_append_1 0 m (n - m)
  rw [Nat.zero_add, Nat.add_sub_of_le h] at happend
  rw [List.range_eq_range', List.range_eq_range']
  exact happend.symm

/-- The batches that are held, in their order. -/
def outstanding (u : UndocFuzz) (t : Turns ι) : List UInt64 :=
  (List.range' t.served (t.taken - t.served)).map u.batchAt

omit [DecidableEq ι] in
theorem Refines.mem_outstanding_iff (h : u.Refines s t) {b : UInt64} :
    b ∈ u.outstanding t ↔ ∃ i, (s.workers i).batch = some b := by
  simp only [outstanding, List.mem_map, List.mem_range'_1]
  constructor
  · rintro ⟨n, ⟨hle, hlt⟩, rfl⟩
    obtain ⟨i, hi⟩ := h.valid.held n hle (by omega)
    refine ⟨i, ?_⟩
    rw [(h.workers i).batch, hi]
    rfl
  · rintro ⟨i, hi⟩
    rw [(h.workers i).batch, Option.map_eq_some_iff] at hi
    obtain ⟨n, hn, rfl⟩ := hi
    have hout := h.valid.out i n hn
    exact ⟨n, ⟨hout.1, by omega⟩, rfl⟩

omit [DecidableEq ι] in
theorem Refines.flatMap_range (h : u.Refines s t) :
    (s.analysed ++ u.outstanding t).flatMap u.range =
      List.range' u.startAt.toNat (s.counter.toNat - u.startAt.toNat) := by
  rw [h.analysed, outstanding, ← List.map_append, ← range_eq_append h.valid.le,
    flatMap_range_batchAt h.lt, h.counter]

omit [DecidableEq ι] in
/-- When no worker has a batch, all that were taken are analysed. -/
theorem Refines.served_eq_taken (h : u.Refines s t) (hnone : ∀ i, (s.workers i).batch = none) :
    t.served = t.taken := by
  by_contra hne
  have hle := h.valid.le
  obtain ⟨i, hi⟩ := h.valid.held t.served (Nat.le_refl _) (by omega)
  have hbatch := (h.workers i).batch
  rw [hnone i, hi] at hbatch
  cases hbatch

omit [DecidableEq ι] in
/-- A batch that a worker has is not analysed yet. -/
theorem Refines.notMem_analysed (h : u.Refines s t) {i : ι} {n : Nat} (hn : t.holds i = some n) :
    u.batchAt n ∉ s.analysed := by
  intro hmem
  obtain ⟨hserved, htaken⟩ := h.valid.out i n hn
  have hbelow := h.lt n htaken
  rw [h.analysed] at hmem
  obtain ⟨m, hm, heq⟩ := List.mem_map.mp hmem
  have hlt := List.mem_range.mp hm
  have hsame := batchAt_inj (lt_until_of_le (by omega) hbelow) hbelow heq
  omega

theorem Refines.ordered (h : u.Refines s t) (hquiet : u.Quiet) : u.Ordered s where
  increasing := by
    rw [h.analysed, List.pairwise_map]
    apply List.pairwise_lt_range.imp_of_mem
    intro m n _ hn hlt
    exact batchAt_lt hlt (h.lt n ((List.mem_range.mp hn).trans_le h.valid.le))
  inputs := by
    rw [h.words]
    exact List.nil_prefix
  alone := fun i j hi hj => h.eq_of_analysing hi ((h.workers j).turn hj)
  once := by
    intro i b hi
    rw [(h.workers i).batch, Option.map_eq_some_iff] at hi
    obtain ⟨n, hn, rfl⟩ := hi
    refine ⟨h.notMem_analysed hn, fun j hj => ?_⟩
    rw [(h.workers j).batch, Option.map_eq_some_iff] at hj
    obtain ⟨m, hm, heq⟩ := hj
    have hbelow := h.lt n (h.valid.out i n hn).2
    -- batches with one start have one number, and this has one holder
    have hsame := batchAt_inj (h.lt m (h.valid.out j m hm).2) hbelow heq
    subst hsame
    exact h.valid.alone j i m hm hn
  partition := ⟨u.outstanding t, fun _ => h.mem_outstanding_iff, h.flatMap_range⟩
  complete := by
    intro hdone hnone
    have hserved := h.served_eq_taken hnone
    have hcounter := h.counter
    have hlen : s.counter.toNat - u.startAt.toNat = u.until_.toNat - u.startAt.toNat := by
      rw [UInt64.le_iff_toNat_le] at hdone
      unfold bound at hcounter
      omega
    have hall : s.analysed.flatMap u.range =
        List.range' u.startAt.toNat (u.until_.toNat - u.startAt.toNat) := by
      rw [h.analysed, hserved, flatMap_range_batchAt h.lt, ← hcounter, hlen]
    refine ⟨hall, ?_⟩
    rw [h.words, eq_comm, List.filter_eq_nil_iff]
    intro word hword
    rw [List.mem_range'_1] at hword
    exact Bool.eq_false_iff.mp (hquiet word hword.1 (by omega)).2
  turn := by
    rintro ⟨i, b, hi⟩
    rw [(h.workers i).batch, Option.map_eq_some_iff] at hi
    obtain ⟨n, hn, -⟩ := hi
    obtain ⟨j, hj⟩ := h.valid.exists_holds_served hn
    refine ⟨j, ?_⟩
    rw [(h.workers j).batch, hj, h.analysedCounter]
    rfl
  resolved := h.exists_resolved hquiet

/-- The first `n` batches are analysed, and no worker has another one. -/
structure Between (u : UndocFuzz) (n : Nat) (s : State ι) : Prop where
  reaches : u.Reaches (init u) s
  counter : s.counter.toNat = u.bound n
  idle : ∀ i, (s.workers i).batch = none

/-- A worker takes the next batch. If waiting can always be resolved it does not raise, and this
batch will be analysed like those before it. -/
theorem Between.succ [Nonempty ι] {n : Nat} (hs : u.Between n s)
    (hresolved : ∀ s : State ι, u.Reaches (init u) s →
      ∃ s', u.Reaches s s' ∧ s'.counter = s.counter ∧ ∀ i, (s'.workers i).batch = none)
    (hn : u.startAt.toNat + n * u.step < u.until_.toNat) :
    u.Passes (u.batchAt n) ∧ ∃ s' : State ι, u.Between (n + 1) s' := by
  obtain ⟨i⟩ := ‹Nonempty ι›
  obtain ⟨t, ht⟩ := exists_refines hs.reaches
  have hcounter : s.counter = u.batchAt n := by
    apply UInt64.toNat_inj.mp
    rw [hs.counter, bound_eq hn, toNat_batchAt hn]
  have hlt : ¬u.until_ ≤ s.counter := by
    rw [UInt64.le_iff_toNat_le, hcounter, toNat_batchAt hn]
    omega
  have hidle : s.workers i = .idle := by
    have hbatch := hs.idle i
    cases hi : s.workers i with
    | idle => rfl
    | ended => exact absurd (ht.ended i hi) hlt
    | _ =>
        rw [hi] at hbatch
        cases hbatch
  have htake : u.next i s = some ((s.take u).become i (.executing s.counter)) := by
    simp only [UndocFuzz.next, hidle, if_neg hlt]
  have hreach := hs.reaches.tail ⟨i, htake⟩
  have hexecuting := State.workers_become_self (s.take u) i (.executing s.counter)
  have hnext : ((s.take u).become i (.executing s.counter)).counter.toNat = u.bound (n + 1) := by
    show (UInt64.ofNat (min (s.counter.toNat + u.step) u.until_.toNat)).toNat = _
    rw [UInt64.toNat_ofNat_of_lt' ((Nat.min_le_right _ _).trans_lt u.until_.toNat_lt), hcounter,
      toNat_batchAt hn, bound_succ hn]
  -- the step that executes the batch
  obtain ⟨s₂, hs₂⟩ : ∃ s₂, u.next i ((s.take u).become i (.executing s.counter)) = some s₂ := by
    simp only [UndocFuzz.next, hexecuting]
    repeat' split
    all_goals exact ⟨_, rfl⟩
  have hreach₂ := hreach.tail ⟨i, hs₂⟩
  obtain ⟨s₃, hreach₃, hcounter₃, hidle₃⟩ := hresolved s₂ hreach₂
  cases step_of_next hs₂ with
  | pass hi hpasses =>
      obtain rfl := Worker.executing.inj (hexecuting.symm.trans hi)
      refine ⟨hcounter ▸ hpasses, s₃, hreach₂.trans hreach₃, ?_, hidle₃⟩
      rw [hcounter₃]
      exact hnext
  | fail hi hraises =>
      -- nobody else takes the batch of a worker that raised
      have hraised := raised_of_reaches hreach₃ (State.workers_become_self _ i _)
      have hnone := hidle₃ i
      rw [hraised] at hnone
      cases hnone
  | _ hi => exact absurd (hexecuting.symm.trans hi) Worker.noConfusion

/-- If waiting can always be resolved, every batch goes through: a worker would come to it. -/
theorem passes_of_resolved [Nonempty ι]
    (hresolved : ∀ s : State ι, u.Reaches (init u) s →
      ∃ s', u.Reaches s s' ∧ s'.counter = s.counter ∧ ∀ i, (s'.workers i).batch = none) (n : Nat)
    (hn : u.startAt.toNat + n * u.step < u.until_.toNat) : u.Passes (u.batchAt n) := by
  have hbetween : ∀ m ≤ n, ∃ s : State ι, u.Between m s := by
    intro m
    induction m with
    | zero =>
        intro _
        refine ⟨init u, ReflTransGen.refl, ?_, fun _ => rfl⟩
        show u.startAt.toNat = min (u.startAt.toNat + 0 * u.step) _
        omega
    | succ m ih =>
        intro hm
        obtain ⟨s, hs⟩ := ih (by omega)
        exact (hs.succ hresolved (lt_until_of_le (Nat.le_of_succ_le hm) hn)).2
  obtain ⟨s, hs⟩ := hbetween n (Nat.le_refl n)
  exact (hs.succ hresolved hn).1

/-- The batches are analysed in order, whatever the order of the steps, exactly if none of them has
a word to send. -/
theorem ordered_iff [Nonempty ι] (u : UndocFuzz) :
    (∀ s : State ι, u.Reaches (init u) s → u.Ordered s) ↔ u.Quiet := by
  constructor
  · intro h
    exact quiet_iff.mpr (passes_of_resolved fun s hs => (h s hs).resolved)
  · intro hquiet s hs
    obtain ⟨t, ht⟩ := exists_refines hs
    exact ht.ordered hquiet

/-- Five words in batches of three, with a collection that knows none of them. -/
def fiveWords (instructionFilter : Option (Nat → Bool)) : UndocFuzz :=
  ⟨0, 5, 3, Nat.succ_pos 2, ⟨Dict.empty, 0, Dict.empty, Dict.empty⟩, instructionFilter⟩

/-- The filter drops all of them. -/
def filteredScan : UndocFuzz := fiveWords (some fun _ => true)

/-- The second of two workers is first to wait and sleeps until the first batch is analysed. -/
theorem ordered_iff_filtered :
    ∃ s : State Bool, filteredScan.Reaches (init filteredScan) s ∧ s.analysed = [0, 3] ∧
      filteredScan.Ordered s := by
  have hquiet : filteredScan.Quiet := by
    intro word _ hword
    refine ⟨hword.trans (by decide), ?_⟩
    show (_ && !true) = false
    exact Bool.and_false _
  have hrun : (filteredScan.run [true, false, false, false, true, true, true, false, false]
      (init filteredScan)).map State.analysed = some [0, 3] := by decide
  obtain ⟨s, hs, heq⟩ := Option.map_eq_some_iff.mp hrun
  have hreach := reaches_of_run hs
  exact ⟨s, hreach, heq, (ordered_iff filteredScan).mpr hquiet s hreach⟩

/-- All of them are sent out. -/
def unfilteredScan : UndocFuzz := fiveWords none

/-- With `--step` there is one worker. It raises, and nobody analyses its batch. -/
theorem unfilteredScan_not_ordered :
    ∃ s : State Unit, unfilteredScan.Reaches (init unfilteredScan) s ∧ s.workers () = .raised 0 ∧
      ¬unfilteredScan.Ordered s := by
  let s₁ : State Unit := ((init unfilteredScan).take unfilteredScan).become () (.executing 0)
  have htake : unfilteredScan.next () (init unfilteredScan) = some s₁ := rfl
  have hraise : unfilteredScan.next () s₁ = some (s₁.become () (.raised 0)) := rfl
  have hraised := State.workers_become_self s₁ () (.raised 0)
  refine ⟨_, Reaches.head () htake (ReflTransGen.single ⟨(), hraise⟩), hraised, ?_⟩
  intro h
  obtain ⟨s', hreach, -, hnone⟩ := h.resolved
  have hbatch := hnone ()
  rw [raised_of_reaches hreach hraised] at hbatch
  cases hbatch

end UndocFuzz

end RISCover
