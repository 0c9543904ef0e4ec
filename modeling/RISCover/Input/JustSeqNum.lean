import Mathlib.Algebra.Order.BigOperators.Group.List
import RISCover.Generator.Seeded
import RISCover.Input.Basic
import RISCover.Result.Buffer

/-!
# Inputs named by their sequence number (`JUST_SEQ_NUM`)

`InputJustSeqNum` stands for `n` inputs that the client generates itself. The client receives a
batch of packed structs into a buffer that it keeps from message to message. The number in front of
the batch is the number of results; the client takes it for the number of structs. It ends on an
input that it cannot generate or run, on an answer that is too long for its length field, and when
the answers of a message reach the end of `out_bigbuffer`.
-/

open Bytes StructPack

namespace RISCover

/-- Class `InputJustSeqNum`. -/
structure InputJustSeqNum where
  seqNum : Nat
  n : Nat
  seqLen : Nat
  fullSeq : Bool
  deriving DecidableEq

/-- What is passed to `generate_input`, and how the generated input is run. -/
structure Generated where
  seqNum : Nat
  seqLen : Nat
  fullSeq : Bool
  deriving DecidableEq

namespace InputJustSeqNum

/-! ## The server

An input of this kind stands for `n` results but is packed once, in twelve bytes. -/

/-- `get_num_results`. -/
def getNumResults (inp : InputJustSeqNum) : Nat := inp.n

/-- `sum(i.get_num_results() for i in inputs)`. -/
def numResults (inputs : List InputJustSeqNum) : Nat := (inputs.map getNumResults).sum

/-- `pack`: `"QHBB"`. -/
def pack (inp : InputJustSeqNum) : Option Bytes :=
  StructPack.pack [(1, .Q), (1, .H), (1, .B), (1, .B)]
    (ints [inp.seqNum, inp.n, inp.seqLen, inp.fullSeq.toNat])

/-- What the server expands the input to after the execution: `seq_num + 0`, `seq_num + 1`, and so
on. -/
def expand (inp : InputJustSeqNum) : List Generated :=
  (List.range inp.n).map fun a => ⟨inp.seqNum + a, inp.seqLen, inp.fullSeq⟩

/-- The message that the server sends for `inputs`. -/
structure Sent (l : LoopConfig) (inputs : List InputJustSeqNum) (m : Message) : Prop where
  n : m.n = numResults inputs
  packed : packInputs pack inputs = some m.packed
  le : m.n ≤ l.biggerMaxBatchN

/-! ## The client

The loop over the batch counts structs up to the number of results, and reads on in the buffer when
the structs are fewer. `executed` and `reads` record what it ran and where it read. -/

/-- `sizeof(struct input)`. -/
def sizeofInput : Nat := 12

/-- The struct at the pointer. -/
def readInput (buf : Bytes) (p : Nat) : InputJustSeqNum where
  seqNum := ofLeBytes (slice buf p 8)
  n := ofLeBytes (slice buf (p + 8) 2)
  seqLen := ofLeBytes (slice buf (p + 10) 1)
  fullSeq := ofLeBytes (slice buf (p + 11) 1) != 0

/-- What a run depends on besides its input: the build of the client with its tables, the seed that
the server sent, what is in memory before the generator draws, and what the processor does. The last
two may be different after every run. -/
structure Client where
  build : Build
  map : FuzzingValueMap
  table : InstructionTable
  seed : UInt64
  prior : List Generated → PriorContents build.toRegConfig
  exec : List Generated → (inp : GeneratedInput build.toRegConfig) → Runs build inp.regs

namespace Client

variable (cl : Client)

abbrev generatorBuild : GeneratorBuild := ⟨cl.build.toRegConfig, cl.map, cl.table⟩

/-- `generate_input` and the run of what it generates, behind the runs that are `done`; `none` where
the client ends. -/
def answer (done : List Generated) (g : Generated) : Option (Reply cl.build.toConfig) :=
  -- the sequence is generated into an array of `MAX_SEQ_LEN` words
  if cl.build.MAX_SEQ_LEN < g.seqLen then none
  else do
    let inp ← (cl.generatorBuild.clientInput (cl.prior done) cl.seed (UInt64.ofNat g.seqNum)
      g.seqLen).toOption
    let runs := cl.exec done inp
    if g.fullSeq then do
      let results ← runs.runWithInstrSeqFullSeq g.seqLen
      pure ⟨inp.regs, .multi results⟩
    else do
      let r ← runs.runWithInstrSeq g.seqLen
      pure ⟨inp.regs, .single r⟩

end Client

/-- What the loop over a batch does: where it reads structs, what it runs, how many frames it puts
into `out_bigbuffer`, and `bigbuffer_out_i`. -/
structure Batch where
  reads : List Nat
  executed : List Generated
  results : Nat
  out : Nat
  deriving DecidableEq

section client

variable (cl : Client) (done : List Generated)

/-- A run and its frame; either kind of run is answered by one. The client compares its offset with
the size of the buffer behind the write. -/
def runGenerated (s : Batch) (g : Generated) : Option Batch := do
  let reply ← cl.answer (done ++ s.executed) g
  let frame ← reply.frame
  if s.out + frame.length < OUT_BIGBUFFER_SIZE then
    pure { s with
      executed := s.executed ++ [g]
      results := s.results + 1
      out := s.out + frame.length }
  else none

/-- `for (unsigned a = 0; a < input->n; a++)`: `seq_num + a` is a `uint64_t`. -/
def runInput (inp : InputJustSeqNum) (s : Batch) : Option Batch :=
  (List.range inp.n).foldlM (fun s a =>
    runGenerated cl done s ⟨(inp.seqNum + a) % 2 ^ 64, inp.seqLen, inp.fullSeq⟩) s

/-- `for (unsigned b = 0; b < n; b++)`. -/
def runInputs (buf : Bytes) : (n p : Nat) → Batch → Option Batch
  | 0, _, s => some s
  | n + 1, p, s => do
      let s ← runInput cl done (readInput buf p) { s with reads := s.reads ++ [p] }
      runInputs buf n (p + sizeofInput) s

/-- One round of the receive loop and the buffer behind it. The client exits on a number over its
limit and on more bytes than that number of structs has. -/
def recvBatch (maxBatchN : Nat) (buf : Bytes) (m : Message) : Option (Batch × Bytes) :=
  if m.n > maxBatchN then none
  else if m.packed.length > sizeofInput * m.n then none
  else do
    -- the message overwrites the front of the buffer, the rest of it stays
    let buf := m.packed ++ buf.drop m.packed.length
    let b ← runInputs cl done buf m.n 0 ⟨[], [], 0, 0⟩
    pure (b, buf)

end client

/-- The rounds of the receive loop, behind the runs that are `done`. -/
def recvBatches (cl : Client) (maxBatchN : Nat) :
    List Generated → Bytes → List Message → Option (List Batch)
  | _, _, [] => some []
  | done, buf, m :: ms => do
      let (b, buf) ← recvBatch cl done maxBatchN buf m
      let bs ← recvBatches cl maxBatchN (done ++ b.executed) buf ms
      pure (b :: bs)

/-- The client does with a message what the server sent it for. -/
structure Batch.Faithful (inputs : List InputJustSeqNum) (m : Message) (b : Batch) : Prop where
  executed : b.executed = inputs.flatMap expand
  received : ∀ p ∈ b.reads, p + sizeofInput ≤ m.packed.length
  results : b.results = m.n

/-! ## What the server sends

The loop of the server merges batches of several tickets, so a message is the packed inputs of a
list of inputs. -/

/-- The string of one struct. -/
def bytes (inp : InputJustSeqNum) : Bytes :=
  leBytes 8 inp.seqNum ++ leBytes 2 inp.n ++ leBytes 1 inp.seqLen ++ leBytes 1 inp.fullSeq.toNat

@[simp] theorem length_bytes (inp : InputJustSeqNum) : inp.bytes.length = sizeofInput := by
  simp [bytes, sizeofInput]

/-- The fields fit the members of the struct. -/
structure Fits (inp : InputJustSeqNum) : Prop where
  seqNum : inp.seqNum < 256 ^ 8
  n : inp.n < 256 ^ 2
  seqLen : inp.seqLen < 256 ^ 1

theorem fits_iff {inp : InputJustSeqNum} :
    inp.seqNum < 256 ^ 8 ∧ inp.n < 256 ^ 2 ∧ inp.seqLen < 256 ^ 1 ↔ inp.Fits := by
  constructor
  · rintro ⟨hseqNum, hn, hseqLen⟩
    exact ⟨hseqNum, hn, hseqLen⟩
  · intro h
    exact ⟨h.seqNum, h.n, h.seqLen⟩

instance (inp : InputJustSeqNum) : Decidable inp.Fits := decidable_of_iff _ fits_iff

theorem pack_eq_some (inp : InputJustSeqNum) (buf : Bytes) :
    inp.pack = some buf ↔ inp.Fits ∧ buf = inp.bytes := by
  have hflag : inp.fullSeq.toNat < 256 ^ Code.B.size := by cases inp.fullSeq <;> decide
  have hpad : ∀ k, padding Code.B.size k = 0 := fun k => by simp [padding, Code.size, Nat.mod_one]
  have hQ : padding Code.Q.size ([] : Bytes).length = 0 := rfl
  have hH : ∀ v, padding Code.H.size ([] ++ leBytes Code.Q.size v).length = 0 := fun v => by
    simp [padding, Code.size]
  simp only [pack, StructPack.pack, ints, List.map_cons, List.map_nil, packItems_one, hQ,
    List.replicate_zero, List.append_nil, hH, hpad, if_pos hflag]
  by_cases hfits : inp.Fits
  · rw [if_pos (by exact hfits.seqNum), if_pos (by exact hfits.n), if_pos (by exact hfits.seqLen)]
    simp [hfits, packItems, bytes, Code.size, eq_comm]
  · simp only [hfits, false_and, iff_false]
    intro h
    split at h
    next hseqNum =>
      split at h
      next hn =>
        split at h
        next hseqLen => exact hfits ⟨hseqNum, hn, hseqLen⟩
        next => cases h
      next => cases h
    next => cases h

theorem packInputs_pack (inputs : List InputJustSeqNum) (buf : Bytes) :
    packInputs pack inputs = some buf ↔ (∀ inp ∈ inputs, inp.Fits) ∧ buf = inputs.flatMap bytes :=
  packInputs_eq_some inputs (fun inp _ => inp.pack_eq_some) buf

/-- A pass of the fill loop sends such a message, when every entry of the queue is a call of
`schedule_packed_inputs` with packed inputs and their number of results. -/
theorem sent_of_fillPass {l : LoopConfig} {s s' : LoopState} {m : Message}
    (h : fillPass l s = some (m, s'))
    (hqueue : ∀ e ∈ s.queue, ∃ inputs, packInputs pack inputs = some e.packed ∧
      e.n = numResults inputs) : ∃ inputs, Sent l inputs m := by
  obtain ⟨-, -, hn, hpacked, -⟩ := fillPass_eq_some.mp h
  -- the entries of the queue are packed one behind the other, and their numbers of results add up
  have hmerged : ∀ es : List Entry,
      (∀ e ∈ es, ∃ inputs, packInputs pack inputs = some e.packed ∧ e.n = numResults inputs) →
      ∃ inputs, packInputs pack inputs = some (es.flatMap Entry.packed) ∧
        (es.map Entry.n).sum = numResults inputs := by
    intro es
    induction es with
    | nil => exact fun _ => ⟨[], rfl, rfl⟩
    | cons e es ih =>
        intro hes
        obtain ⟨first, hfirst, hfirstN⟩ := hes e List.mem_cons_self
        obtain ⟨rest, hrest, hrestN⟩ := ih fun x hx => hes x (List.mem_cons_of_mem e hx)
        rw [packInputs_pack] at hfirst hrest
        refine ⟨first ++ rest, (packInputs_pack _ _).mpr ⟨?_, ?_⟩, ?_⟩
        · intro inp hinp
          exact (List.mem_append.mp hinp).elim (hfirst.1 inp) (hrest.1 inp)
        · rw [List.flatMap_cons, List.flatMap_append, hfirst.2, hrest.2]
        · simp [numResults, hfirstN, hrestN]
  obtain ⟨inputs, hinputs, hsum⟩ := hmerged _ fun e he => hqueue e (mem_of_mem_taken he)
  have hle := sum_taken_le (Nat.zero_le l.biggerMaxBatchN) s.queue
  exact ⟨inputs, hn.trans hsum, hpacked ▸ hinputs, by omega⟩

/-! ## What the client makes of it

The inputs that the structs stand for, each generated from the registers that the ones before it
left behind. -/

/-- What the client generates for a struct. -/
def generated (inp : InputJustSeqNum) : List Generated :=
  (List.range inp.n).map fun a => ⟨(inp.seqNum + a) % 2 ^ 64, inp.seqLen, inp.fullSeq⟩

@[simp] theorem length_generated (inp : InputJustSeqNum) : inp.generated.length = inp.n := by
  simp [generated]

namespace Client

variable (cl : Client)

/-- The answers to inputs that are run one after the other, behind the runs that are `done`. -/
def answers : List Generated → List Generated → Option (List (Reply cl.build.toConfig))
  | _, [] => some []
  | done, g :: gs => do
      let r ← cl.answer done g
      let rs ← answers (done ++ [g]) gs
      pure (r :: rs)

/-- The client gets through the inputs of a message: it can generate and run all of them, every
answer fits its length field, and together they leave room in the buffer. -/
def GetsThrough (done gs : List Generated) : Prop :=
  ∃ replies, cl.answers done gs = some replies ∧ (∀ r ∈ replies, RISCover.Fits r.frameSize) ∧
    (replies.map Reply.frameSize).sum < OUT_BIGBUFFER_SIZE

end Client

/-- Some runs more, with that many bytes. -/
def Batch.push (s : Batch) (gs : List Generated) (bytes : Nat) : Batch :=
  ⟨s.reads, s.executed ++ gs, s.results + gs.length, s.out + bytes⟩

namespace Batch

variable (s : Batch) (gs gs' : List Generated) (bytes bytes' : Nat)

@[simp] theorem push_executed : (s.push gs bytes).executed = s.executed ++ gs := rfl

@[simp] theorem push_out : (s.push gs bytes).out = s.out + bytes := rfl

@[simp] theorem push_nil : s.push [] 0 = s := by simp [push]

@[simp] theorem push_push :
    (s.push gs bytes).push gs' bytes' = s.push (gs ++ gs') (bytes + bytes') := by
  simp [push, Nat.add_assoc]

end Batch

section client

variable {cl : Client} {done : List Generated}

theorem runGenerated_eq_some {s s' : Batch} {g : Generated} :
    runGenerated cl done s g = some s' ↔ ∃ r, cl.answer (done ++ s.executed) g = some r ∧
      RISCover.Fits r.frameSize ∧ s.out + r.frameSize < OUT_BIGBUFFER_SIZE ∧
        s' = s.push [g] r.frameSize := by
  have hframe : ∀ (r : Reply cl.build.toConfig) (frame : Bytes), r.frame = some frame ↔
      RISCover.Fits r.frameSize ∧ frame = leBytes 2 r.body.length ++ r.body := by
    intro r frame
    rw [Reply.frame_eq]
    split
    next hfits => simp [hfits, eq_comm]
    next hfits => simp [hfits]
  have hlength : ∀ r : Reply cl.build.toConfig,
      (leBytes 2 r.body.length ++ r.body).length = r.frameSize := by
    intro r
    rw [List.length_append, length_leBytes, Reply.frameSize]
  simp only [runGenerated, Option.bind_eq_bind, Option.bind_eq_some_iff, hframe,
    Option.ite_none_right_eq_some, Option.pure_def, Option.some.injEq, eq_comm (b := s')]
  constructor
  · rintro ⟨r, hr, frame, ⟨hfits, rfl⟩, hroom, hs'⟩
    rw [hlength] at hroom hs'
    exact ⟨r, hr, hfits, hroom, hs'⟩
  · rintro ⟨r, hr, hfits, hroom, hs'⟩
    exact ⟨r, hr, _, ⟨hfits, rfl⟩, by rwa [hlength], by rwa [hlength]⟩

/-- The runs of a list of inputs, by what is answered to them. -/
theorem foldlM_runGenerated_eq_some (cl : Client) (done gs : List Generated) : ∀ {s s' : Batch},
    s.out < OUT_BIGBUFFER_SIZE →
      (gs.foldlM (runGenerated cl done) s = some s' ↔ ∃ replies,
        cl.answers (done ++ s.executed) gs = some replies ∧
          (∀ r ∈ replies, RISCover.Fits r.frameSize) ∧
            s.out + (replies.map Reply.frameSize).sum < OUT_BIGBUFFER_SIZE ∧
              s' = s.push gs (replies.map Reply.frameSize).sum) := by
  induction gs with
  | nil =>
      intro s s' hout
      simp [Client.answers, hout, eq_comm]
  | cons g gs ih =>
      intro s s' hout
      rw [List.foldlM_cons, Option.bind_eq_bind, Option.bind_eq_some_iff]
      simp only [Client.answers, Option.bind_eq_bind, Option.bind_eq_some_iff, Option.pure_def,
        Option.some.injEq]
      constructor
      · -- the first input is run, and the offset is below the end of the buffer behind its answer
        rintro ⟨mid, hmid, hrest⟩
        obtain ⟨r, hr, hfits, hroom, rfl⟩ := runGenerated_eq_some.mp hmid
        obtain ⟨replies, hreplies, hall, hsum, rfl⟩ := (ih hroom).mp hrest
        rw [Batch.push_executed, ← List.append_assoc] at hreplies
        rw [Batch.push_out, Nat.add_assoc] at hsum
        exact ⟨r :: replies, ⟨r, hr, replies, hreplies, rfl⟩,
          List.forall_mem_cons.mpr ⟨hfits, hall⟩, hsum, Batch.push_push s [g] gs _ _⟩
      · rintro ⟨_, ⟨r, hr, replies, hreplies, rfl⟩, hall, hsum, rfl⟩
        rw [List.forall_mem_cons] at hall
        rw [List.map_cons, List.sum_cons] at hsum
        -- the answers of the others only add to the offset, so it was below the end before
        have hroom : s.out + r.frameSize < OUT_BIGBUFFER_SIZE := by omega
        refine ⟨s.push [g] r.frameSize,
          runGenerated_eq_some.mpr ⟨r, hr, hall.1, hroom, rfl⟩, (ih hroom).mpr
            ⟨replies, ?_, hall.2, ?_, (Batch.push_push s [g] gs _ _).symm⟩⟩
        · rwa [Batch.push_executed, ← List.append_assoc]
        · rwa [Batch.push_out, Nat.add_assoc]

theorem runInput_eq (inp : InputJustSeqNum) (s : Batch) :
    runInput cl done inp s = inp.generated.foldlM (runGenerated cl done) s := by
  rw [runInput, generated, List.foldlM_map]

/-- The same runs, with other reads behind them. -/
def Batch.withReads (s : Batch) (reads : List Nat) : Batch := { s with reads }

theorem runGenerated_withReads (s : Batch) (reads : List Nat) (g : Generated) :
    runGenerated cl done (s.withReads reads) g =
      (runGenerated cl done s g).map fun s' => s'.withReads reads := by
  apply Option.ext
  intro s'
  simp only [Option.map_eq_some_iff, runGenerated_eq_some]
  constructor
  · rintro ⟨r, hr, hfits, hroom, rfl⟩
    exact ⟨_, ⟨r, hr, hfits, hroom, rfl⟩, rfl⟩
  · rintro ⟨_, ⟨r, hr, hfits, hroom, rfl⟩, rfl⟩
    exact ⟨r, hr, hfits, hroom, rfl⟩

/-- The inner loop has nothing to do with the reads. -/
theorem foldlM_withReads (gs : List Generated) : ∀ (s : Batch) (reads : List Nat),
    gs.foldlM (runGenerated cl done) (s.withReads reads) =
      (gs.foldlM (runGenerated cl done) s).map fun s' => s'.withReads reads := by
  induction gs with
  | nil => intro s reads; rfl
  | cons g gs ih =>
      intro s reads
      rw [List.foldlM_cons, List.foldlM_cons, runGenerated_withReads]
      cases runGenerated cl done s g with
      | none => rfl
      | some mid => exact ih mid reads

/-- The structs that a loop over `n` of them reads. -/
def readsFrom (p n : Nat) : List Nat := (List.range n).map fun b => p + b * sizeofInput

theorem readsFrom_succ (p n : Nat) : readsFrom p (n + 1) = p :: readsFrom (p + sizeofInput) n := by
  rw [readsFrom, readsFrom, List.range_succ_eq_map]
  simp [Nat.succ_mul, Nat.add_assoc, Nat.add_comm sizeofInput]

/-- The loop reads `n` structs in a row. -/
theorem reads_runInputs {buf : Bytes} {n p : Nat} {s s' : Batch}
    (h : runInputs cl done buf n p s = some s') : s'.reads = s.reads ++ readsFrom p n := by
  induction n generalizing p s with
  | zero =>
      obtain rfl := Option.some.inj h
      simp [readsFrom]
  | succ n ih =>
      obtain ⟨mid, hmid, hrest⟩ := Option.bind_eq_some_iff.mp h
      have hreads : mid.reads = s.reads ++ [p] := by
        rw [runInput_eq, ← Batch.withReads, foldlM_withReads] at hmid
        obtain ⟨s₀, -, rfl⟩ := Option.map_eq_some_iff.mp hmid
        rfl
      rw [ih hrest, hreads, readsFrom_succ, List.append_assoc, List.singleton_append]

/-- The loop stays within the first `k` structs exactly when it reads at most `k`. -/
theorem reads_within_iff (n k : Nat) :
    (∀ p ∈ readsFrom 0 n, p + sizeofInput ≤ k * sizeofInput) ↔ n ≤ k := by
  have hsize : 0 < sizeofInput := by decide
  simp only [readsFrom, List.mem_map, List.mem_range, Nat.zero_add]
  constructor
  · intro h
    by_contra hlt
    have hbehind := h (k * sizeofInput) ⟨k, Nat.not_le.mp hlt, rfl⟩
    omega
  · rintro hle p ⟨b, hb, rfl⟩
    rw [← Nat.succ_mul]
    exact Nat.mul_le_mul_right sizeofInput (hb.trans_le hle)

end client

theorem readInput_mid {inp : InputJustSeqNum} (h : inp.Fits) (pre post : Bytes) :
    readInput (pre ++ (inp.bytes ++ post)) pre.length = inp := by
  have hflag : (ofLeBytes (leBytes 1 inp.fullSeq.toNat) != 0) = inp.fullSeq := by
    cases inp.fullSeq <;> decide
  -- every member stands behind the ones in front of it
  have h₁ := slice_mid pre (leBytes 8 inp.seqNum) (leBytes 2 inp.n ++ (leBytes 1 inp.seqLen ++
    (leBytes 1 inp.fullSeq.toNat ++ post)))
  have h₂ := slice_mid (pre ++ leBytes 8 inp.seqNum) (leBytes 2 inp.n) (leBytes 1 inp.seqLen ++
    (leBytes 1 inp.fullSeq.toNat ++ post))
  have h₃ := slice_mid (pre ++ leBytes 8 inp.seqNum ++ leBytes 2 inp.n) (leBytes 1 inp.seqLen)
    (leBytes 1 inp.fullSeq.toNat ++ post)
  have h₄ := slice_mid (pre ++ leBytes 8 inp.seqNum ++ leBytes 2 inp.n ++ leBytes 1 inp.seqLen)
    (leBytes 1 inp.fullSeq.toNat) post
  simp only [List.append_assoc, List.length_append, length_leBytes, Nat.reduceAdd] at h₁ h₂ h₃ h₄
  simp only [readInput, bytes, List.append_assoc, h₁, h₂, h₃, h₄, hflag,
    ofLeBytes_leBytes_of_lt h.seqNum, ofLeBytes_leBytes_of_lt h.n, ofLeBytes_leBytes_of_lt h.seqLen]

/-- Over received structs the loop runs what they say. -/
theorem runInputs_flatMap (cl : Client) (done : List Generated) (inputs : List InputJustSeqNum)
    (h : ∀ inp ∈ inputs, inp.Fits) (post : Bytes) : ∀ (pre : Bytes) (s : Batch),
      runInputs cl done (pre ++ (inputs.flatMap bytes ++ post)) inputs.length pre.length s =
        ((inputs.flatMap generated).foldlM (runGenerated cl done) s).map fun s' =>
          s'.withReads (s.reads ++ readsFrom pre.length inputs.length) := by
  induction inputs with
  | nil =>
      intro pre s
      show some s = some _
      simp [readsFrom, Batch.withReads]
  | cons inp inputs ih =>
      intro pre s
      have hread := readInput_mid (h inp List.mem_cons_self) pre (inputs.flatMap bytes ++ post)
      have hrest := ih (fun x hx => h x (List.mem_cons_of_mem inp hx)) (pre ++ inp.bytes)
      rw [List.length_append, length_bytes, List.append_assoc] at hrest
      rw [List.flatMap_cons, List.append_assoc, List.length_cons, runInputs, hread, runInput_eq,
        ← Batch.withReads, foldlM_withReads, List.flatMap_cons, List.foldlM_append]
      -- the client ends in the middle of an input, or goes on with the next struct
      cases inp.generated.foldlM (runGenerated cl done) s with
      | none => rfl
      | some mid =>
          show runInputs cl done _ _ _ (mid.withReads _) =
            Option.map _ (List.foldlM (runGenerated cl done) mid (inputs.flatMap generated))
          rw [hrest, foldlM_withReads, Option.map_map, readsFrom_succ]
          simp [Function.comp_def, Batch.withReads]

/-- The client generates what the server expands to as long as no sequence number wraps around. -/
theorem generated_eq_expand_iff {inp : InputJustSeqNum} (h : inp.Fits) :
    inp.generated = inp.expand ↔ inp.seqNum + inp.n ≤ 2 ^ 64 := by
  have hseqNum : inp.seqNum < 2 ^ 64 := h.seqNum
  simp only [generated, expand, List.map_inj_left, List.mem_range, Generated.mk.injEq, and_true]
  constructor
  · intro hall
    rcases Nat.eq_zero_or_pos inp.n with hn | hn
    · omega
    · -- the last number is the first to wrap around
      have hlast := hall (inp.n - 1) (by omega)
      have hlt := Nat.mod_lt (inp.seqNum + (inp.n - 1)) (Nat.two_pow_pos 64)
      omega
  · intro hle a ha
    exact Nat.mod_eq_of_lt (by omega)

theorem flatMap_generated_eq_iff {inputs : List InputJustSeqNum} (h : ∀ inp ∈ inputs, inp.Fits) :
    inputs.flatMap generated = inputs.flatMap expand ↔
      ∀ inp ∈ inputs, inp.seqNum + inp.n ≤ 2 ^ 64 := by
  induction inputs with
  | nil => simp
  | cons inp inputs ih =>
      have hrest := ih fun x hx => h x (List.mem_cons_of_mem inp hx)
      have hlen : inp.generated.length = inp.expand.length := by simp [expand]
      have hsplit :
          inp.generated ++ inputs.flatMap generated = inp.expand ++ inputs.flatMap expand ↔
          inp.generated = inp.expand ∧ inputs.flatMap generated = inputs.flatMap expand :=
        ⟨fun heq => List.append_inj heq hlen, fun ⟨h₁, h₂⟩ => by rw [h₁, h₂]⟩
      rw [List.flatMap_cons, List.flatMap_cons, hsplit,
        generated_eq_expand_iff (h inp List.mem_cons_self), hrest, List.forall_mem_cons]

/-! ## When the client does what was sent

The first struct must stand for one input, and so must all others, as the number of structs is the
number of results then. Besides, the client must get through them. -/

/-- The inputs announce as many results as there are inputs, and no sequence number leaves its 64
bits. -/
def OnePerInput (inputs : List InputJustSeqNum) : Prop :=
  numResults inputs = inputs.length ∧ ∀ inp ∈ inputs, inp.seqNum + inp.n ≤ 2 ^ 64

/-- What the loop does with received structs that the client gets through. -/
theorem runInputs_of_getsThrough (cl : Client) (done : List Generated)
    (inputs : List InputJustSeqNum) (h : ∀ inp ∈ inputs, inp.Fits)
    (hruns : cl.GetsThrough done (inputs.flatMap generated)) (post : Bytes) :
    ∃ out, runInputs cl done (inputs.flatMap bytes ++ post) inputs.length 0 ⟨[], [], 0, 0⟩ =
      some ⟨readsFrom 0 inputs.length, inputs.flatMap generated, numResults inputs, out⟩ := by
  obtain ⟨replies, hreplies, hall, hroom⟩ := hruns
  have hlength : (inputs.flatMap generated).length = numResults inputs := by
    rw [List.length_flatMap]
    simp only [length_generated]
    rfl
  have hloop := runInputs_flatMap cl done inputs h post [] ⟨[], [], 0, 0⟩
  rw [(foldlM_runGenerated_eq_some cl done (inputs.flatMap generated) (by decide)).mpr
    ⟨replies, by rwa [List.append_nil], hall, by rwa [Nat.zero_add], rfl⟩] at hloop
  refine ⟨(replies.map Reply.frameSize).sum, hloop.trans ?_⟩
  simp [Batch.withReads, Batch.push, hlength]

theorem recvBatch_eq_some {cl : Client} {done : List Generated} {maxBatchN : Nat} {buf : Bytes}
    {m : Message} {b : Batch} (hn : m.n ≤ maxBatchN)
    (hbytes : m.packed.length ≤ sizeofInput * m.n)
    (hrun : runInputs cl done (m.packed ++ buf.drop m.packed.length) m.n 0 ⟨[], [], 0, 0⟩ =
      some b) :
    recvBatch cl done maxBatchN buf m = some (b, m.packed ++ buf.drop m.packed.length) := by
  rw [recvBatch, if_neg (Nat.not_lt.mpr hn), if_neg (Nat.not_lt.mpr hbytes)]
  exact Option.bind_eq_some_iff.mpr ⟨b, hrun, rfl⟩

theorem recvBatches_cons {cl : Client} {done : List Generated} {maxBatchN : Nat} {buf buf' : Bytes}
    {m : Message} {ms : List Message} {b : Batch} {bs : List Batch}
    (hb : recvBatch cl done maxBatchN buf m = some (b, buf'))
    (hbs : recvBatches cl maxBatchN (done ++ b.executed) buf' ms = some bs) :
    recvBatches cl maxBatchN done buf (m :: ms) = some (b :: bs) := by
  rw [recvBatches]
  exact Option.bind_eq_some_iff.mpr ⟨(b, buf'), hb, Option.bind_eq_some_iff.mpr ⟨bs, hbs, rfl⟩⟩

/-- One message, whatever is in the buffer. -/
theorem recvBatch_faithful_iff {l : LoopConfig} {inputs : List InputJustSeqNum} {m : Message}
    (h : Sent l inputs m) (cl : Client) (done : List Generated) (buf : Bytes) :
    (∃ b buf', recvBatch cl done l.biggerMaxBatchN buf m = some (b, buf') ∧
        b.Faithful inputs m) ↔
      OnePerInput inputs ∧ cl.GetsThrough done (inputs.flatMap expand) := by
  obtain ⟨hfits, hpacked⟩ := (packInputs_pack _ _).mp h.packed
  have hlen : m.packed.length = inputs.length * sizeofInput := by
    rw [hpacked, List.length_flatMap]
    simp
  have hsize : 0 < sizeofInput := by decide
  have hloop := runInputs_flatMap cl done inputs hfits
    (buf.drop m.packed.length) [] ⟨[], [], 0, 0⟩
  rw [List.nil_append, ← hpacked, List.length_nil, List.nil_append] at hloop
  have hruns (s' : Batch) :=
    @foldlM_runGenerated_eq_some cl done (inputs.flatMap generated) ⟨[], [], 0, 0⟩ s' (by decide)
  simp only [List.append_nil, Nat.zero_add] at hruns
  constructor
  · rintro ⟨b, buf', hrecv, hfaithful⟩
    rw [recvBatch, if_neg (Nat.not_lt.mpr h.le)] at hrecv
    split at hrecv
    next => cases hrecv
    next hmax =>
      obtain ⟨b', hb', heq⟩ := Option.bind_eq_some_iff.mp hrecv
      obtain ⟨rfl, -⟩ := Prod.mk.inj (Option.some.inj heq)
      -- the client did not exit, so the bytes are not too many for the number
      have hle : inputs.length ≤ m.n := by
        rw [hlen, Nat.mul_comm] at hmax
        exact Nat.le_of_mul_le_mul_left (Nat.not_lt.mp hmax) hsize
      -- with a larger number the loop reads the struct behind the last one received
      have hge : m.n ≤ inputs.length := by
        have hreceived := hfaithful.received
        rwa [reads_runInputs hb', List.nil_append, hlen, reads_within_iff] at hreceived
      have hn : m.n = inputs.length := Nat.le_antisymm hge hle
      rw [hn, hloop] at hb'
      obtain ⟨s, hs, rfl⟩ := Option.map_eq_some_iff.mp hb'
      obtain ⟨replies, hreplies, hall, hsum, rfl⟩ := (hruns s).mp hs
      have hexecuted : inputs.flatMap generated = inputs.flatMap expand := hfaithful.executed
      refine ⟨⟨h.n.symm.trans hn, (flatMap_generated_eq_iff hfits).mp hexecuted⟩, ?_⟩
      rw [← hexecuted]
      exact ⟨replies, hreplies, hall, hsum⟩
  · rintro ⟨⟨hsum, hwrap⟩, hthrough⟩
    have hn : m.n = inputs.length := h.n.trans hsum
    have hexecuted := (flatMap_generated_eq_iff hfits).mpr hwrap
    rw [← hexecuted] at hthrough
    obtain ⟨out, hrun⟩ :=
      runInputs_of_getsThrough cl done inputs hfits hthrough (buf.drop m.packed.length)
    rw [← hpacked, ← hn] at hrun
    have hbytes : m.packed.length ≤ sizeofInput * m.n := by
      rw [hlen, hn, Nat.mul_comm]
    refine ⟨_, _, recvBatch_eq_some h.le hbytes hrun, hexecuted, ?_, h.n.symm⟩
    show ∀ p ∈ readsFrom 0 m.n, p + sizeofInput ≤ m.packed.length
    rw [hlen, reads_within_iff]
    exact hn.le

/-! ### Getting through -/

section throughput

variable {cl : Client} {done : List Generated} {g : Generated}

/-- A sequence that is not too long is run, unless the generator stops. -/
theorem Client.exists_answer (hlen : g.seqLen ≤ cl.build.MAX_SEQ_LEN)
    {inp : GeneratedInput cl.build.toRegConfig}
    (hinp : cl.generatorBuild.clientInput (cl.prior done) cl.seed (UInt64.ofNat g.seqNum)
      g.seqLen = .ok inp) : ∃ r, cl.answer done g = some r := by
  have hfull := (cl.exec done inp).fullSeqLoop_eq_some g.seqLen 0 (by omega)
  rw [Client.answer, if_neg (Nat.not_lt.mpr hlen), hinp]
  cases hflag : g.fullSeq with
  | true =>
      refine ⟨⟨inp.regs, .multi (runPrefixes (cl.exec done inp).exec g.seqLen 0)⟩, ?_⟩
      show (Option.bind (some inp) fun inp => _) = _
      rw [Option.bind_some, if_pos rfl]
      exact Option.bind_eq_some_iff.mpr ⟨_, hfull, rfl⟩
  | false =>
      refine ⟨⟨inp.regs, .single ((cl.exec done inp).exec g.seqLen)⟩, ?_⟩
      show (Option.bind (some inp) fun inp => _) = _
      rw [Option.bind_some, if_neg Bool.false_ne_true]
      exact Option.bind_eq_some_iff.mpr ⟨_, if_neg (Nat.not_lt.mpr hlen), rfl⟩

theorem Client.produces_of_answer {r : Reply cl.build.toConfig} (h : cl.answer done g = some r)
    (hbyte : g.seqLen ≤ 255) : cl.build.Produces r := by
  rw [Client.answer] at h
  split at h
  next => cases h
  next =>
    obtain ⟨inp, -, h⟩ := Option.bind_eq_some_iff.mp h
    split at h
    next =>
      obtain ⟨results, hresults, heq⟩ := Option.bind_eq_some_iff.mp h
      obtain rfl := Option.some.inj heq
      exact .multi _ hbyte hresults
    next =>
      obtain ⟨r, hr, heq⟩ := Option.bind_eq_some_iff.mp h
      obtain rfl := Option.some.inj heq
      exact .single _ hbyte hr

/-- The client gets through a message if the generator does not stop, no sequence is too long, and
the largest frame of the build is small enough. -/
theorem Client.getsThrough_of_frameMax {gs : List Generated}
    (hgen : ∀ g ∈ gs, ∀ done, ∃ inp, cl.generatorBuild.clientInput (cl.prior done) cl.seed
      (UInt64.ofNat g.seqNum) g.seqLen = .ok inp)
    (hlen : ∀ g ∈ gs, g.seqLen ≤ cl.build.MAX_SEQ_LEN ∧ g.seqLen ≤ 255)
    (hfits : RISCover.Fits cl.build.frameMax)
    (hroom : gs.length * cl.build.frameMax < OUT_BIGBUFFER_SIZE) (done : List Generated) :
    cl.GetsThrough done gs := by
  -- every input is generated, is not too long and gives an answer of at most the largest size
  have hall : ∃ replies, cl.answers done gs = some replies ∧ replies.length = gs.length ∧
      ∀ r ∈ replies, r.frameSize ≤ cl.build.frameMax := by
    clear hroom
    induction gs generalizing done with
    | nil => exact ⟨[], rfl, rfl, by simp⟩
    | cons g gs ih =>
        rw [List.forall_mem_cons] at hgen hlen
        obtain ⟨inp, hinp⟩ := hgen.1 done
        obtain ⟨r, hr⟩ := exists_answer hlen.1.1 hinp
        obtain ⟨replies, hreplies, hcount, hsizes⟩ := ih hgen.2 hlen.2 (done ++ [g])
        refine ⟨r :: replies, ?_, by simp [hcount], List.forall_mem_cons.mpr
          ⟨(produces_of_answer hr hlen.1.2).frameSize_le, hsizes⟩⟩
        rw [answers, hr, Option.bind_eq_bind, Option.bind_some, hreplies]
        rfl
  obtain ⟨replies, hreplies, hcount, hsizes⟩ := hall
  have hsum := List.sum_le_card_nsmul (replies.map Reply.frameSize) cl.build.frameMax
    (List.forall_mem_map.mpr hsizes)
  rw [List.length_map, hcount, nsmul_eq_mul, Nat.cast_id] at hsum
  exact ⟨replies, hreplies, fun r hr => le_trans (hsizes r hr) hfits, hsum.trans_lt hroom⟩

end throughput

/-! ### Runs of messages -/

/-- Every message announces as many results as it has inputs, and the client gets through its
inputs behind those of the messages before. -/
def Served (cl : Client) : List Generated → List (List InputJustSeqNum) → Prop
  | _, [] => True
  | done, inputs :: rest =>
      OnePerInput inputs ∧ cl.GetsThrough done (inputs.flatMap expand) ∧
        Served cl (done ++ inputs.flatMap expand) rest

/-- A client without floats. -/
def quietBuild : Build where
  arch := .riscv64
  FLOATS := false
  VECTOR := false
  admitted := buildAdmits_integer
  META := false
  CHECK_MEM := false
  AUTO_MAP_MEM := false
  AUTO_MAP_MEM_RW_PROT := false
  MAX_SEQ_LEN := 4

theorem quiet_runResult (before : Regs quietBuild.toRegConfig) :
    RunResult quietBuild before (quietBuild.changed before 0 fun _ => false) :=
  runResult_changed before (by decide) fun _ => rfl

/-- It knows `addi`, and its processor changes nothing. -/
def quietClient : Client where
  build := quietBuild
  map := InputWithRegSelect.sampleMap
  table := ⟨[addiTemplate], length_addiTemplate⟩
  seed := 7
  prior _ := filledWith _ 0
  exec _ inp := Runs.const (quiet_runResult inp.regs)

/-- It gets through whatever fits its sequence length. -/
theorem quietClient_getsThrough {gs : List Generated} (hlen : ∀ g ∈ gs, g.seqLen ≤ 4)
    (hcount : gs.length ≤ 1000) (done : List Generated) : quietClient.GetsThrough done gs := by
  have hmax : quietBuild.frameMax = 1121 := by decide +kernel
  have hgen : ∀ g ∈ gs, ∀ done, ∃ inp, quietClient.generatorBuild.clientInput
      (quietClient.prior done) quietClient.seed (UInt64.ofNat g.seqNum) g.seqLen = .ok inp := by
    intro g _ done
    rw [GeneratorBuild.clientInput_eq]
    cases hd : quietClient.generatorBuild.seedDraws quietClient.seed (UInt64.ofNat g.seqNum)
      g.seqLen with
    | error e =>
        obtain ⟨-, harch⟩ := seedDraws_error (Or.inr (List.cons_ne_nil _ _)) hd
        cases harch
    | ok d => exact ⟨_, rfl⟩
  have hfits : RISCover.Fits quietClient.build.frameMax := by
    show quietBuild.frameMax ≤ 2 + 0xffff
    omega
  have hroom : gs.length * quietClient.build.frameMax < OUT_BIGBUFFER_SIZE := by
    show gs.length * quietBuild.frameMax < 10 <<< 20
    rw [hmax]
    omega
  exact Client.getsThrough_of_frameMax hgen
    (fun g hg => ⟨hlen g hg, (hlen g hg).trans (by decide)⟩) hfits hroom done

/-- A message with two inputs, one result each, and another message. -/
def oneByOne : List (List InputJustSeqNum × Message) :=
  [([⟨5, 1, 3, true⟩, ⟨6, 1, 3, false⟩], ⟨2, bytes ⟨5, 1, 3, true⟩ ++ bytes ⟨6, 1, 3, false⟩⟩),
    ([⟨7, 1, 3, true⟩], ⟨1, bytes ⟨7, 1, 3, true⟩⟩)]

/-- Two batches of two inputs are merged into a message, a third is sent alone. -/
def mergedThenAlone : List (List InputJustSeqNum × Message) :=
  [([⟨0, 2, 4, true⟩, ⟨2, 2, 4, true⟩], ⟨4, bytes ⟨0, 2, 4, true⟩ ++ bytes ⟨2, 2, 4, true⟩⟩),
    ([⟨4, 2, 4, true⟩], ⟨2, bytes ⟨4, 2, 4, true⟩⟩)]

end InputJustSeqNum

end RISCover
