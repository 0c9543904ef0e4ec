import RISCover.Input.FullRegs
import RISCover.Input.RegSelect
import RISCover.Lib.Fallible
import RISCover.Result.Buffer
import RISCover.Server.Tickets

/-!
# A batch goes to the clients and its results come back

The server packs inputs, each client loads them from memory, runs them and packs what it finds, and
the server cuts the answer into frames and parses them. `ReportsRuns` says what comes of the whole
way: every client reports, in the order of the inputs, the runs that the server asked for, unless
the results of some client do not fit its buffer.
-/

open Bytes Cursor

namespace RISCover

variable {b : Build} {ι κ : Type}

/-! ## The client

The loop over a batch, as the builds that receive instructions have it. `none` is a client that has
ended. -/

/-- What the flags of a build make of `struct input`. -/
structure InputLoader (b : Build) where
  header : Nat
  load : Bytes → Option (Regs b.toRegConfig)

/-- `WITH_REGS`. -/
def withRegs (b : Build) (map : FuzzingValueMap) : InputLoader b where
  header := selectBytes b.toRegConfig
  load := loadSelects b.toRegConfig map

/-- `WITH_FULL_REGS`. -/
def withFullRegs (b : Build) : InputLoader b where
  header := b.sizeofRegs
  load head := some (copyRegs b.toRegConfig head)

/-- A connected client. What its processor makes of a sequence that starts from given registers may
be another thing for every input of a batch. -/
structure ClientProcess (b : Build) (κ : Type) where
  client : κ
  processor : Nat → Regs b.toRegConfig → List Nat → CResult b.toConfig
  processor_result : ∀ i regs seq, RunResult b regs (processor i regs seq)

namespace ClientProcess

variable (cl : ClientProcess b κ)

/-- The runs of the prefixes of a sequence, as the `i`th input of a batch. -/
def runs (i : Nat) (regs : Regs b.toRegConfig) (instrSeq : List Nat) : Runs b regs where
  exec n := cl.processor i regs (instrSeq.take n)
  exec_result n := cl.processor_result i regs (instrSeq.take n)

/-- One round of the batch loop behind loading the input; `none` is the exit of the runner. -/
def answerInput (i : Nat) (e : Exec b.toRegConfig) : Option (Reply b.toConfig) :=
  if e.fullSeq then
    ((cl.runs i e.regs e.instrSeq).runWithInstrSeqFullSeq e.seqLen).map fun results =>
      ⟨e.regs, .multi results⟩
  else
    ((cl.runs i e.regs e.instrSeq).runWithInstrSeq e.seqLen).map fun r => ⟨e.regs, .single r⟩

/-- The loop over the inputs of a batch. `none` is the end of the client: an input that is not
there, an exit of the runner, or one of the assertions behind a result. -/
def batchLoop (ld : InputLoader b) (inputsBuf : Bytes) :
    (n i p : Nat) → (out : Bytes) → Option Bytes
  | 0, _, _, out => some out
  | n + 1, i, p, out => do
      let e ← readInput ld.header ld.load inputsBuf p
      let r ← cl.answerInput i e
      let frame ← r.frame
      if (out ++ frame).length < OUT_BIGBUFFER_SIZE then
        batchLoop ld inputsBuf n (i + 1) (nextInput ld.header p e.seqLen) (out ++ frame)
      else none

/-- `max_input_size`. -/
def maxInputSize (ld : InputLoader b) : Nat := sizeofInput ld.header + (b.MAX_SEQ_LEN - 1) * 4

/-- A round of the loop of `start_client`: from a message to the bytes of the answer. -/
def serveBatch (ld : InputLoader b) (maxBatchN : Nat) (m : Message) : Option Bytes :=
  if maxBatchN < m.n then none
  else if maxInputSize ld * m.n < m.packed.length then none
  else cl.batchLoop ld m.packed m.n 0 0 []

end ClientProcess

/-! ## The server

A format says how an input is packed and what it means. -/

/-- Inputs with instructions: how the server packs them and what it says of their registers, and how
the clients load them. -/
structure InputFormat (b : Build) (ι : Type) where
  fullInput : ι → FullInput
  pack : ι → Option Bytes
  decodeRegs : ι → Option (Dict String Nat)
  loader : InputLoader b

def InputFormat.regSelect (b : Build) (map : FuzzingValueMap) :
    InputFormat b InputWithRegSelect where
  fullInput := InputWithRegSelect.toFullInput
  pack := InputWithRegSelect.pack b.toRegConfig
  decodeRegs := InputWithRegSelect.decodeRegs b.toRegConfig map
  loader := withRegs b map

def InputFormat.values (b : Build) : InputFormat b (InputWithValues b.arch) where
  fullInput := InputWithValues.toFullInput
  pack := InputWithValues.pack
  decodeRegs inp := some inp.decodeRegs
  loader := withFullRegs b

inductive ExchangeError where
  | assertion
  | packError
  | lostClient
  | parseError (e : ParseError)

/-- `get_results` of the ticket of a batch that was sent by itself. -/
def getResults (fmt : InputFormat b ι) (l : LoopConfig) (n : Nat) (packed : Bytes)
    (cl : ClientProcess b κ) : Except ExchangeError (List (Parsed κ)) :=
  match cl.serveBatch fmt.loader l.biggerMaxBatchN ⟨n, packed⟩ with
  | none => .error .lostClient
  | some data =>
    match recvResults n data 0 with
    | .error e => .error (.parseError e)
    | .ok (d, _) =>
      match parseResults b.toConfig d cl.client with
      | .error e => .error (.parseError e)
      | .ok results => .ok results

/-- `execute_inputs_on_clients`. -/
def executeInputsOnClients (fmt : InputFormat b ι) (l : LoopConfig) (inputs : List ι)
    (clients : List (ClientProcess b κ)) : Except ExchangeError (List (List (Parsed κ))) :=
  if clients = [] then .error .assertion
  else if inputs = [] then .ok (List.replicate clients.length [])
  else
    match packInputs fmt.pack inputs with
    | none => .error .packError
    | some packed =>
      -- `schedule_packed_inputs`
      if maxInFlightBytes ≤ packed.length then .error .assertion
      else clients.mapM (getResults fmt l inputs.length packed)

/-! ## What was asked for

The answer that an input asks for, and when all answers fit the buffer of the client. -/

/-- The register file with the values that stand under the names of its registers. -/
def Regs.ofNames (c : RegConfig) (d : Dict String Nat) : Regs c := fun k =>
  Vector.ofFn fun i => BitVec.ofNat _ ((d.get? (Reg.name (⟨k, i⟩ : Reg c))).getD 0)

theorem OUT_BIGBUFFER_SIZE_pos : 0 < OUT_BIGBUFFER_SIZE := by decide

/-- Every assertion behind a result holds. -/
def FitsBuffer (out : Nat) (replies : List (Reply b.toConfig)) : Prop :=
  (∀ r ∈ replies, Fits r.frameSize) ∧ out + (replies.map Reply.frameSize).sum < OUT_BIGBUFFER_SIZE

instance (out : Nat) (replies : List (Reply b.toConfig)) : Decidable (FitsBuffer out replies) :=
  inferInstanceAs (Decidable (_ ∧ _))

namespace InputFormat

variable (fmt : InputFormat b ι)

/-- The registers that `decode_regs` reports of an input. -/
def regs (inp : ι) : Regs b.toRegConfig :=
  Regs.ofNames b.toRegConfig ((fmt.decodeRegs inp).getD Dict.empty)

/-- The answer of a client to its `i`th input: the run of the sequence, or the runs of its prefixes
up to the first that ends with a signal. -/
def asked (cl : ClientProcess b κ) (i : Nat) (inp : ι) : Reply b.toConfig :=
  let full := fmt.fullInput inp
  let runs := cl.runs i (fmt.regs inp) full.getInstrSeq
  ⟨fmt.regs inp, if full.fullSeq then .multi (runWithInstrSeqFullSeq runs.exec full.seqLen)
    else .single (cl.processor i (fmt.regs inp) full.getInstrSeq)⟩

/-- The answers to a batch. -/
def askedAll (cl : ClientProcess b κ) (inputs : List ι) : List (Reply b.toConfig) :=
  inputs.mapIdx (fmt.asked cl)

/-- Both sides mean the same by the packed input; `head` is what stands in front of the
instructions. -/
structure Agrees (head : ι → Bytes) (inp : ι) : Prop where
  seqLen_le : (fmt.fullInput inp).seqLen ≤ 255
  pack : ∀ bs, fmt.pack inp = some bs ↔ bs = inputBytes (head inp) (fmt.fullInput inp).seqLen
    (fmt.fullInput inp).fullSeq (fmt.fullInput inp).getInstrSeq
  length_head : (head inp).length = fmt.loader.header
  load : fmt.loader.load (head inp) = some (fmt.regs inp)

/-- The batch goes to all clients, and each of them reports its runs of the inputs in their order.
The only thing that can go wrong is that the results do not fit the buffer of a client. -/
structure ReportsRuns (l : LoopConfig) (inputs : List ι) (clients : List (ClientProcess b κ)) :
    Prop where
  reports : (∀ cl ∈ clients, FitsBuffer 0 (fmt.askedAll cl inputs)) →
    ∃ rows, executeInputsOnClients fmt l inputs clients = .ok rows ∧
      List.Forall₂ (fun cl row => List.Forall₂ (fun r parsed =>
        AnswerReports r.regsBefore cl.client r.answer parsed) (fmt.askedAll cl inputs) row)
        clients rows
  lost : (∃ cl ∈ clients, ¬FitsBuffer 0 (fmt.askedAll cl inputs)) →
    executeInputsOnClients fmt l inputs clients = .error .lostClient

end InputFormat

theorem Regs.ofNames_eq {c : RegConfig} {d : Dict String Nat} {regs : Regs c}
    (h : ∀ r : Reg c, d.get? r.name = some (r.val regs).toNat) : Regs.ofNames c d = regs := by
  apply Regs.ext
  rintro ⟨k, i⟩
  have hval : Reg.val ⟨k, i⟩ (Regs.ofNames c d) =
      BitVec.ofNat _ ((d.get? (Reg.name (⟨k, i⟩ : Reg c))).getD 0) := by
    simp [Reg.val, Regs.ofNames]
  rw [hval, h ⟨k, i⟩, Option.getD_some, BitVec.ofNat_toNat, BitVec.setWidth_eq]

/-! ## The runs of an input

The client runs all prefixes or the whole sequence, as the input says. -/

section runs

variable {regsBefore : Regs b.toRegConfig}

theorem exists_of_mem_runPrefixes {c : Config} {run : Nat → CResult c} {r : CResult c}
    (left : Nat) : ∀ n, r ∈ runPrefixes run left n → ∃ m, r = run m := by
  induction left with
  | zero =>
      intro n hr
      cases hr
  | succ left ih =>
      intro n hr
      rw [runPrefixes] at hr
      split at hr
      next => exact ⟨n + 1, List.mem_singleton.mp hr⟩
      next =>
        rcases List.mem_cons.mp hr with rfl | hr
        · exact ⟨n + 1, rfl⟩
        · exact ih (n + 1) hr

end runs

namespace InputFormat

variable {fmt : InputFormat b ι}

/-- What a client runs for an input. -/
def exec (fmt : InputFormat b ι) (inp : ι) : Exec b.toRegConfig :=
  ⟨(fmt.fullInput inp).seqLen, (fmt.fullInput inp).fullSeq, (fmt.fullInput inp).getInstrSeq,
    fmt.regs inp⟩

theorem answerInput_exec (cl : ClientProcess b κ) {inp : ι}
    (h : (fmt.fullInput inp).seqLen ≤ b.MAX_SEQ_LEN) (i : Nat) :
    cl.answerInput i (fmt.exec inp) = some (fmt.asked cl i inp) := by
  rw [ClientProcess.answerInput, asked]
  cases hfull : (fmt.fullInput inp).fullSeq with
  | false =>
      have htake : (fmt.fullInput inp).getInstrSeq.take (fmt.fullInput inp).seqLen =
          (fmt.fullInput inp).getInstrSeq :=
        List.take_of_length_le (Nat.le_of_eq (FullInput.length_getInstrSeq _))
      simp only [exec, hfull, Bool.false_eq_true, if_false, Runs.runWithInstrSeq,
        Nat.not_lt.mpr h, Option.map_some, ClientProcess.runs, htake]
  | true =>
      have hloop := (cl.runs i (fmt.regs inp) (fmt.fullInput inp).getInstrSeq).fullSeqLoop_eq_some
        (fmt.fullInput inp).seqLen 0 (by omega)
      simp only [exec, hfull, if_true, Runs.runWithInstrSeqFullSeq, hloop, Option.map_some,
        runWithInstrSeqFullSeq]

theorem asked_fromRunner (cl : ClientProcess b κ) {inp : ι}
    (h : (fmt.fullInput inp).seqLen ≤ 255) (i : Nat) :
    (fmt.asked cl i inp).answer.FromRunner := by
  rw [asked]
  dsimp only
  split
  next =>
    refine ⟨?_, fun r hr => ?_⟩
    · exact ((runPrefixes_shape _ _ 0).1).trans h
    · obtain ⟨m, rfl⟩ := exists_of_mem_runPrefixes _ 0 hr
      exact ((cl.runs i _ _).exec_result m).fromRunner
  next => exact (cl.processor_result i _ _).fromRunner

theorem askedAll_fromRunner (cl : ClientProcess b κ) {inputs : List ι}
    (h : ∀ inp ∈ inputs, (fmt.fullInput inp).seqLen ≤ 255) :
    ∀ r ∈ fmt.askedAll cl inputs, r.answer.FromRunner := by
  intro r hr
  obtain ⟨i, hi, rfl⟩ := List.mem_mapIdx.mp hr
  exact asked_fromRunner cl (h _ (List.getElem_mem hi)) i

/-! ## The batch loop

It ends early at an answer that does not fit its frame, or that reaches the end of the buffer. -/

/-- The loop goes through the inputs that the walk finds; what is in the buffer in the end is one
frame behind the other. -/
theorem batchLoop_eq (cl : ClientProcess b κ) {buf : Bytes} (inputs : List ι)
    (hseq : ∀ inp ∈ inputs, (fmt.fullInput inp).seqLen ≤ b.MAX_SEQ_LEN) : ∀ (i p q : Nat)
    (out : Bytes), out.length < OUT_BIGBUFFER_SIZE →
      walkInputs fmt.loader.header fmt.loader.load buf inputs.length p =
        some (inputs.map fmt.exec, q) →
      cl.batchLoop fmt.loader buf inputs.length i p out =
        if FitsBuffer out.length (inputs.mapIdx fun j inp => fmt.asked cl (i + j) inp) then
          some (out ++ (inputs.mapIdx fun j inp => fmt.asked cl (i + j) inp).flatMap
            Reply.frameBytes)
        else none := by
  induction inputs with
  | nil =>
      intro i p q out hout _
      have hfits : FitsBuffer out.length ([] : List (Reply b.toConfig)) :=
        ⟨List.forall_mem_nil _, hout⟩
      rw [List.mapIdx_nil, if_pos hfits]
      show some out = some (out ++ [])
      rw [List.append_nil]
  | cons inp inputs ih =>
      intro i p q out hout hwalk
      rw [List.length_cons, walkInputs] at hwalk
      obtain ⟨e, he, hwalk⟩ := Option.bind_eq_some_iff.mp hwalk
      obtain ⟨⟨es, q'⟩, hrest, hpure⟩ := Option.bind_eq_some_iff.mp hwalk
      obtain ⟨hes, -⟩ := Prod.mk.inj (Option.some.inj hpure)
      rw [List.map_cons] at hes
      obtain ⟨rfl, rfl⟩ := List.cons.inj hes
      have hshift : (inputs.mapIdx fun j inp => fmt.asked cl (i + (j + 1)) inp) =
          inputs.mapIdx fun j inp => fmt.asked cl (i + 1 + j) inp := by
        congr 1
        funext j inp
        rw [Nat.add_comm j 1, Nat.add_assoc]
      generalize hr : fmt.asked cl i inp = r
      have hframeBytes : r.frameBytes.length = r.frameSize := by
        rw [Reply.frameBytes, List.length_append, length_leBytes, Reply.frameSize]
      have hframe : r.frame = if Fits r.frameSize then some r.frameBytes else none := r.frame_eq
      -- the first input is answered before the others are loaded
      have hanswer := answerInput_exec cl (hseq inp List.mem_cons_self) i
      rw [List.mapIdx_cons, hshift, Nat.add_zero, hr, List.length_cons, ClientProcess.batchLoop,
        he, Option.bind_eq_bind, Option.bind_some, hanswer, hr, Option.bind_eq_bind,
        Option.bind_some, hframe]
      generalize hrs : (inputs.mapIdx fun j inp => fmt.asked cl (i + 1 + j) inp) = rs
      by_cases hfits : Fits r.frameSize
      · rw [if_pos hfits]
        show (if (out ++ r.frameBytes).length < _ then _ else _) = _
        by_cases hroom : (out ++ r.frameBytes).length < OUT_BIGBUFFER_SIZE
        · have hloop := ih (fun x hx => hseq x (List.mem_cons_of_mem inp hx)) (i + 1) _ q' _ hroom
            hrest
          rw [if_pos hroom, hloop, hrs]
          -- the others have the room that the first answer leaves
          have hiff : FitsBuffer (out ++ r.frameBytes).length rs ↔
              FitsBuffer out.length (r :: rs) := by
            unfold FitsBuffer
            rw [List.length_append, hframeBytes, List.forall_mem_cons, List.map_cons, List.sum_cons,
              Nat.add_assoc]
            tauto
          rw [if_congr hiff rfl rfl, List.flatMap_cons, List.append_assoc]
        · rw [if_neg hroom, if_neg]
          rintro ⟨-, hsum⟩
          rw [List.length_append, hframeBytes] at hroom
          rw [List.map_cons, List.sum_cons] at hsum
          omega
      · rw [if_neg hfits, if_neg]
        · rfl
        · rintro ⟨hall, -⟩
          exact hfits (hall r List.mem_cons_self)

/-! ## The exchange

What was packed is walked through, run and sent, and the server cuts and parses what comes. -/

section exchange

variable {head : ι → Bytes} {inputs : List ι}

/-- The packed inputs. -/
def packed (fmt : InputFormat b ι) (head : ι → Bytes) (inputs : List ι) : Bytes :=
  inputs.flatMap fun inp => inputBytes (head inp) (fmt.fullInput inp).seqLen
    (fmt.fullInput inp).fullSeq (fmt.fullInput inp).getInstrSeq

theorem packInputs_eq (h : ∀ inp ∈ inputs, fmt.Agrees head inp) :
    packInputs fmt.pack inputs = some (packed fmt head inputs) := by
  refine (packInputs_eq_some (P := fun _ => True) inputs (fun inp hinp bs => ?_) _).mpr
    ⟨fun _ _ => trivial, rfl⟩
  rw [(h inp hinp).pack bs, true_and]

theorem walkInputs_packed (h : ∀ inp ∈ inputs, fmt.Agrees head inp) :
    walkInputs fmt.loader.header fmt.loader.load (packed fmt head inputs) inputs.length 0 =
      some (inputs.map fmt.exec, (packed fmt head inputs).length) :=
  walkInputs_flatMap head fmt.exec inputs (fun inp hinp => (h inp hinp).length_head)
    (fun inp hinp => (h inp hinp).load)
    (fun inp hinp => ⟨(FullInput.length_getInstrSeq _).symm, (h inp hinp).seqLen_le,
      FullInput.getInstrSeq_lt _⟩) []

/-- The client has room for the inputs of a batch. -/
theorem length_packed_le (h : ∀ inp ∈ inputs, fmt.Agrees head inp)
    (hseq : ∀ inp ∈ inputs, (fmt.fullInput inp).seqLen ≤ b.MAX_SEQ_LEN) :
    (packed fmt head inputs).length ≤ ClientProcess.maxInputSize fmt.loader * inputs.length := by
  induction inputs with
  | nil => exact Nat.zero_le _
  | cons inp inputs ih =>
      have hrest := ih (fun x hx => h x (List.mem_cons_of_mem inp hx))
        fun x hx => hseq x (List.mem_cons_of_mem inp hx)
      have hinp : (inputBytes (head inp) (fmt.fullInput inp).seqLen (fmt.fullInput inp).fullSeq
          (fmt.fullInput inp).getInstrSeq).length ≤ ClientProcess.maxInputSize fmt.loader := by
        have hlen : (inputBytes (head inp) (fmt.fullInput inp).getInstrSeq.length
            (fmt.fullInput inp).fullSeq (fmt.fullInput inp).getInstrSeq).length = _ :=
          length_inputBytes
        rw [FullInput.length_getInstrSeq, (h inp List.mem_cons_self).length_head] at hlen
        have hle := hseq inp List.mem_cons_self
        rw [hlen, ClientProcess.maxInputSize, sizeofInput]
        omega
      rw [packed, List.flatMap_cons, List.length_append, List.length_cons, Nat.mul_succ,
        Nat.add_comm]
      exact Nat.add_le_add hrest hinp

/-- A batch of few inputs can be scheduled. -/
theorem length_lt_maxInFlightBytes (h : ∀ inp ∈ inputs, fmt.Agrees head inp)
    (hseq : ∀ inp ∈ inputs, (fmt.fullInput inp).seqLen ≤ b.MAX_SEQ_LEN)
    (hroom : ClientProcess.maxInputSize fmt.loader * inputs.length < maxInFlightBytes) (bs : Bytes)
    (hbs : packInputs fmt.pack inputs = some bs) : bs.length < maxInFlightBytes := by
  rw [packInputs_eq h] at hbs
  obtain rfl := Option.some.inj hbs
  exact (length_packed_le h hseq).trans_lt hroom

variable {l : LoopConfig}

/-- One client, over the whole way. -/
theorem getResults_eq (cl : ClientProcess b κ) (hne : inputs ≠ [])
    (h : ∀ inp ∈ inputs, fmt.Agrees head inp)
    (hseq : ∀ inp ∈ inputs, (fmt.fullInput inp).seqLen ≤ b.MAX_SEQ_LEN)
    (hbatch : inputs.length ≤ l.biggerMaxBatchN) :
    getResults fmt l inputs.length (packed fmt head inputs) cl =
      if FitsBuffer 0 (fmt.askedAll cl inputs) then
        .ok ((fmt.askedAll cl inputs).map (Reply.decoded cl.client))
      else .error .lostClient := by
  have hall : (inputs.mapIdx fun j inp => fmt.asked cl (0 + j) inp) = fmt.askedAll cl inputs := by
    rw [askedAll]
    congr 1
    funext j inp
    rw [Nat.zero_add]
  have hloop := batchLoop_eq cl inputs hseq 0 0 _ [] OUT_BIGBUFFER_SIZE_pos (walkInputs_packed h)
  -- the client reads what was packed, so its loop is over the inputs that were asked for
  have hserve : cl.serveBatch fmt.loader l.biggerMaxBatchN ⟨inputs.length, packed fmt head inputs⟩ =
      if FitsBuffer 0 (fmt.askedAll cl inputs) then
        some ((fmt.askedAll cl inputs).flatMap Reply.frameBytes)
      else none := by
    rw [ClientProcess.serveBatch, if_neg (Nat.not_lt.mpr hbatch),
      if_neg (Nat.not_lt.mpr (length_packed_le h hseq)), hloop, hall]
    rfl
  rw [getResults, hserve]
  by_cases hfits : FitsBuffer 0 (fmt.askedAll cl inputs)
  · rw [if_pos hfits, if_pos hfits]
    -- what fits its frame has a length of 16 bits, so the server cuts at the right places
    have hbodies : ∀ r ∈ fmt.askedAll cl inputs, r.body.length ≤ 0xffff := fun r hr => by
      have hr := hfits.1 r hr
      unfold Fits Reply.frameSize at hr
      omega
    have hrecv := decodes_recvResults _ hbodies [] []
    have hlen : (fmt.askedAll cl inputs).length = inputs.length := List.length_mapIdx
    have hnonempty : fmt.askedAll cl inputs ≠ [] := by
      rw [Ne, ← List.length_eq_zero_iff, hlen, List.length_eq_zero_iff]
      exact hne
    rw [List.nil_append, List.append_nil, hlen] at hrecv
    have hparse := parseResults_bodies cl.client hnonempty
      (askedAll_fromRunner cl fun inp hinp => (h inp hinp).seqLen_le)
    simp only [List.length_nil] at hrecv
    simp only [hrecv, hparse]
  · rw [if_neg hfits, if_neg hfits]

/-- All clients: what `execute_inputs_on_clients` comes to where both sides agree on the inputs. -/
theorem reportsRuns {clients : List (ClientProcess b κ)} (hclients : clients ≠ [])
    (h : ∀ inp ∈ inputs, fmt.Agrees head inp)
    (hseq : ∀ inp ∈ inputs, (fmt.fullInput inp).seqLen ≤ b.MAX_SEQ_LEN)
    (hbatch : inputs.length ≤ l.biggerMaxBatchN)
    (hbytes : ∀ bs, packInputs fmt.pack inputs = some bs → bs.length < maxInFlightBytes) :
    fmt.ReportsRuns l inputs clients := by
  -- without inputs nothing is sent
  by_cases hne : inputs = []
  · subst hne
    have hfits : ∀ cl : ClientProcess b κ, FitsBuffer 0 (fmt.askedAll cl []) := fun cl =>
      ⟨List.forall_mem_nil _, OUT_BIGBUFFER_SIZE_pos⟩
    refine ⟨fun _ => ⟨_, by rw [executeInputsOnClients, if_neg hclients, if_pos rfl], ?_⟩, ?_⟩
    · clear hclients
      induction clients with
      | nil => exact List.Forall₂.nil
      | cons cl clients ih => exact List.Forall₂.cons List.Forall₂.nil (ih fun cl _ => hfits cl)
    · rintro ⟨cl, -, hno⟩
      exact absurd (hfits cl) hno
  · have hpack := packInputs_eq h
    have hgo : executeInputsOnClients fmt l inputs clients =
        clients.mapM (getResults fmt l inputs.length (packed fmt head inputs)) := by
      rw [executeInputsOnClients, if_neg hclients, if_neg hne, hpack]
      exact if_neg (Nat.not_le.mpr (hbytes _ hpack))
    -- each client answers for itself, and the first that is lost raises
    have hresult := fun cl => getResults_eq (l := l) (κ := κ) cl hne h hseq hbatch
    constructor
    · intro hfits
      refine ⟨clients.map fun cl => (fmt.askedAll cl inputs).map (Reply.decoded cl.client), ?_, ?_⟩
      · rw [hgo]
        exact Fallible.mapM_eq_ok fun cl hcl => by rw [hresult, if_pos (hfits cl hcl)]
      · rw [List.forall₂_map_right_iff, List.forall₂_same]
        exact fun cl _ => decoded_forall₂_reports cl.client
          (askedAll_fromRunner cl fun inp hinp => (h inp hinp).seqLen_le)
    · rintro ⟨cl, hcl, hno⟩
      rw [hgo]
      refine Fallible.mapM_eq_error (fun cl e he => ?_) hcl ?_
      · rw [hresult] at he
        split at he
        next => cases he
        next => exact (Except.error.inj he).symm
      · rw [hresult, if_neg hno]

end exchange

/-! ## The formats

Each of the formats gives the client the registers that the server means. -/

/-- With selectors both sides look up the same values. -/
theorem agrees_regSelect {map : FuzzingValueMap} {inp : InputWithRegSelect}
    (h : inp.Carries b.toRegConfig map) (hlen : inp.seqLen ≤ 255) :
    (regSelect b map).Agrees InputWithRegSelect.head inp where
  seqLen_le := hlen
  pack bs := by
    show InputWithRegSelect.pack b.toRegConfig inp = _ ↔ _
    rw [InputWithRegSelect.pack_eq_some h]
    exact and_iff_right hlen
  length_head := h.length_head
  load := by
    obtain ⟨d, hd, hnames⟩ := InputWithRegSelect.get?_decodeRegs h
    have hregs : (regSelect b map).regs inp =
        Regs.ofLists b.toRegConfig (inp.values b.toRegConfig map) := by
      show Regs.ofNames _ ((inp.decodeRegs b.toRegConfig map).getD Dict.empty) = _
      rw [hd]
      exact Regs.ofNames_eq hnames
    rw [hregs]
    exact loadSelects_head h

/-- With whole register files they do where the packed bytes spell what was meant. -/
theorem agrees_values {inp : InputWithValues b.arch} (h : inp.Carries b.toRegConfig)
    (hlen : inp.seqLen ≤ 255)
    (hspell : b.arch = .aarch64 ∨ b.FLOATS = true ∧ ∀ l, inp.fp = some l → ∀ v ∈ l, v = 0) :
    (values b).Agrees (InputWithValues.head b.toRegConfig) inp where
  seqLen_le := hlen
  pack bs := by
    show inp.pack = _ ↔ _
    rw [InputWithValues.pack_eq_some h]
    exact and_iff_right ⟨hspell.imp id And.left, hlen⟩
  length_head := Regs.length_bytes _
  load := by
    -- on riscv64 the registers are sent in another order, which shows in none that are zero
    have hmeant : ∀ k, inp.packedValues b.toRegConfig k = inp.values b.toRegConfig k := by
      rw [InputWithValues.packedValues_eq_iff h]
      rcases hspell with harch | ⟨-, hzero⟩
      · left
        simp [RegConfig.count, harch]
      · right
        simp only [InputWithValues.values, InputWithValues.words]
        cases hfp : inp.fp with
        | none => simp
        | some l =>
            intro v hv
            obtain ⟨x, hx, rfl⟩ := List.mem_map.mp hv
            rw [hzero l hfp x hx]
            rfl
    have hregs : (values b).regs inp =
        Regs.ofLists b.toRegConfig (inp.packedValues b.toRegConfig) :=
      Regs.ofNames_eq ((InputWithValues.recovers_packedExec_iff h).mpr hmeant).regs
    show some (copyRegs _ _) = _
    rw [hregs, InputWithValues.head, copyRegs_bytes]

variable {l : LoopConfig} {clients : List (ClientProcess b κ)}

/-- A run that changes no register. -/
def stopResult (regs : Regs b.toRegConfig) (signum : UInt8) : CResult b.toConfig where
  signum := Int32.ofNat signum.toNat
  siAddrr := 0
  siPc := 0
  siCode := 0
  regsResult := regs
  counters := ⟨0, 0⟩
  memChanges := []
  memChanges_le := Nat.zero_le _

theorem runResult_stopResult (regs : Regs b.toRegConfig) (signum : UInt8) :
    RunResult b regs (stopResult regs signum) := by
  have hlt := signum.toNat_lt
  have hint : (Int32.ofNat signum.toNat).toInt = signum.toNat :=
    Int32.toInt_ofNat_of_lt (by omega)
  refine ⟨⟨?_, ?_, fun _ => ⟨rfl, rfl, rfl⟩⟩, fun _ => rfl, fun m hm => ?_⟩
  · show 0 ≤ (Int32.ofNat signum.toNat).toInt
    omega
  · show (Int32.ofNat signum.toNat).toInt < 256
    omega
  · cases hm

theorem admits_vectorBuild : buildAdmits .riscv64 true true = true := rfl

/-- A riscv64 client with floats and vectors that counts cycles. -/
def vectorBuild : Build :=
  ⟨⟨⟨.riscv64, true, true, admits_vectorBuild⟩, false, true⟩, false, false, 2⟩

/-- A client on which every sequence of `steps` instructions ends with a signal, and no instruction
changes a register. -/
def stoppingClient (b : Build) (client : String) (steps : Nat) (signum : UInt8) :
    ClientProcess b String where
  client := client
  processor _ regs seq := if seq.length < steps then stopResult regs 0 else stopResult regs signum
  processor_result _ regs seq := by
    split
    next => exact runResult_stopResult regs 0
    next => exact runResult_stopResult regs signum

theorem sampleSelects_mem {inp : InputWithRegSelect}
    (hinp : inp ∈ [InputWithRegSelect.sampleSelects true]) :
    inp.Carries vectorBuild.toRegConfig InputWithRegSelect.sampleMap ∧ inp.seqLen ≤ 2 := by
  rw [List.mem_singleton.mp hinp]
  exact ⟨InputWithRegSelect.sampleSelects_carries true, Nat.le_refl 2⟩

theorem admits_neonBuild : buildAdmits .aarch64 false true = true := rfl

/-- An aarch64 client with vectors. -/
def neonBuild : Build :=
  ⟨⟨⟨.aarch64, false, true, admits_neonBuild⟩, false, false⟩, false, false, 2⟩

theorem aarch64Input_mem {inp : InputWithValues .aarch64}
    (hinp : inp ∈ [InputWithValues.aarch64Input]) :
    inp.Carries neonBuild.toRegConfig ∧ inp.seqLen ≤ 2 := by
  rw [List.mem_singleton.mp hinp]
  exact ⟨⟨rfl, rfl⟩, Nat.le_refl 2⟩

end InputFormat

end RISCover
