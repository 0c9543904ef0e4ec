import RISCover.Result.Pack
import RISCover.Result.Parse

/-!
# What the client packs is what the server parses

The round trip over the wire, bottom up: a register, a memory change and the optional sections are
read back by the parser functions written for them (`Cursor.Decodes`), hence a whole result, hence
a frame body, hence by induction the concatenation of any list of bodies.
-/

open Bytes Cursor

namespace RISCover

variable {c : Config} {κ : Type}

/-! ## The expected result

What the server should have of a result of the client: the registers that changed, by name. -/

/-- The tuple the server makes of a memory change. -/
def MemChange.toDiff (m : MemChange) : MemDiff where
  start := m.start.toNat
  n := m.n.toNat
  val := ofLeBytes (m.val.toList.take m.nCap)
  checksum := m.checksum.toNat

/-- The dictionary of the changed registers. -/
def changedRegs (before after : Regs c) : Dict String Nat :=
  (regsDiff before after).foldl (fun d r => d.set r.name (r.val after).toNat) Dict.empty

/-- The parsed form of `r`. -/
def CResult.decoded (regsBefore : Regs c) (client : κ) (r : CResult c) : Result κ where
  signum := intBits r.signum
  cycleDiff := if c.META then some (r.counters.cycle.toNat % 2 ^ 16) else none
  instretDiff :=
    if c.META && c.arch == .riscv64 then some (r.counters.instret.toNat % 2 ^ 16) else none
  regs := changedRegs regsBefore r.regsResult
  siAddr := r.siAddrr.toNat
  siPc := r.siPc.toNat
  siCode := intBits r.siCode
  client := client
  realClient := client
  memDiffs := if c.CHECK_MEM then some (r.memChanges.map MemChange.toDiff) else none

/-- The changed registers, filled in from the list of the differences. -/
theorem changedRegs_items (before after : Regs c) :
    (changedRegs before after).items =
      (regsDiff before after).map fun r => (r.name, (r.val after).toNat) := by
  have hnames : ((regsDiff before after).map Reg.name).Nodup := by
    rw [regsDiff_eq]
    exact Reg.allRegs_nodup.sublist (List.filter_sublist.map Reg.name)
  have hfold := Dict.items_foldl_set
    ((regsDiff before after).map fun r => (r.name, (r.val after).toNat))
    (by rw [List.map_map]; exact hnames)
  rwa [List.foldl_map] at hfold

/-- A register is in the dictionary exactly when it changed, under its own name and with its value
after the run. -/
theorem get?_changedRegs {before after : Regs c} {name : String} {v : Nat} :
    (changedRegs before after).get? name = some v ↔
      ∃ r : Reg c, r.name = name ∧ r.val before ≠ r.val after ∧ v = (r.val after).toNat := by
  rw [← Dict.mem_items_iff, changedRegs_items, List.mem_map]
  constructor
  · rintro ⟨r, hr, heq⟩
    obtain ⟨rfl, rfl⟩ := Prod.mk.inj heq
    exact ⟨r, rfl, mem_regsDiff.mp hr, rfl⟩
  · rintro ⟨r, rfl, hne, rfl⟩
    exact ⟨r, mem_regsDiff.mpr hne, rfl⟩

/-! ## Fields

A field of a fixed width, read behind any bytes. -/

theorem decodes_field {k n : Nat} (h : n < 256 ^ k) : Decodes (unpack k) (leBytes k n) n := by
  have hd := Decodes.unpack_leBytes ParseError.structError k n
  rwa [Nat.mod_eq_of_lt h] at hd

theorem decodes_byte {n : Nat} (h : n < 256) : Decodes (unpack 1) [UInt8.ofNat n] n :=
  decodes_field (k := 1) (by simpa using h)

theorem decodes_uint64 (x : UInt64) : Decodes (unpack 8) (leBytes 8 x.toNat) x.toNat :=
  decodes_field x.toNat_lt

theorem decodes_uint32 (x : UInt32) : Decodes (unpack 4) (leBytes 4 x.toNat) x.toNat :=
  decodes_field x.toNat_lt

theorem decodes_meta (m : Meta) :
    Decodes (parseMeta c) (packMeta c m)
      (if c.META then some (m.cycle.toNat % 2 ^ 16) else none,
        if c.META && c.arch == .riscv64 then some (m.instret.toNat % 2 ^ 16) else none) := by
  have hcycle := Decodes.unpack_leBytes ParseError.structError 2 m.cycle.toNat
  have hinstret := Decodes.unpack_leBytes ParseError.structError 2 m.instret.toNat
  unfold parseMeta packMeta
  cases c.META with
  | false => exact Decodes.pure _
  | true =>
      cases c.arch with
      | riscv64 => exact hcycle.bind (hinstret.map _)
      | aarch64 => exact hcycle.bind (Decodes.pure _)

/-! ## Registers

A register is its index in the order of all registers, and its value. -/

theorem decodes_regValue (r : Reg c) (after : Regs c) :
    Decodes (parseRegValue r.name) (r.val after).bytes (r.val after).toNat := by
  unfold parseRegValue
  rw [Reg.startsWithV_name, ← RegVal.ofLeBytes_bytes]
  by_cases hk : r.1 = .vec
  · -- the parser goes by the name, the client by the class
    have hlen : (r.val after).bytes.length = VEC_REG_SIZE := by
      rw [RegVal.length_bytes, hk]
      rfl
    rw [if_pos (by simpa using hk)]
    exact Decodes.fromBytes hlen
  · have hlen : (r.val after).bytes.length = 8 := by
      rw [RegVal.length_bytes]
      cases h : r.1 <;> first | rfl | exact absurd h hk
    rw [if_neg (by simpa using hk)]
    exact Decodes.unpack _ hlen

theorem decodes_reg (regs : Dict String Nat) (r : Reg c) (after : Regs c) :
    Decodes (parseReg c regs) (packReg after r) (regs.set r.name (r.val after).toNat) := by
  rw [parseReg, packReg]
  refine (decodes_byte r.abiIndex_lt).bind ?_
  rw [Reg.regsMapping_getElem]
  exact (decodes_regValue r after).map _

theorem decodes_regs (before after : Regs c) :
    Decodes (Cursor.foldN (parseReg c) (regsDiff before after).length Dict.empty)
      ((regsDiff before after).flatMap (packReg after)) (changedRegs before after) :=
  Decodes.foldN (fun regs r _ => decodes_reg regs r after) Dict.empty

/-! ## Signal information and memory changes

A memory change carries at most as many bytes as are reported. -/

theorem decodes_si {r : CResult c} (h : r.FromRunner) :
    Decodes (parseSi (intBits r.signum)) (packSi r)
      (r.siAddrr.toNat, r.siPc.toNat, intBits r.siCode) := by
  unfold parseSi packSi
  by_cases hz : r.signum = 0
  · -- nothing is sent, and the parser's zeros are what the runner left
    obtain ⟨hAddr, hPc, hCode⟩ := h.si_zero hz
    rw [if_neg (by simp [intBits_eq_zero, hz]), if_neg (by simp [hz]), hAddr, hPc, hCode]
    exact Decodes.pure _
  · rw [if_pos (by simpa [intBits_eq_zero] using hz), if_pos hz, List.append_assoc]
    exact (decodes_uint64 r.siAddrr).bind ((decodes_uint64 r.siPc).bind
      ((decodes_field (intBits_lt r.siCode)).map _))

theorem MemChange.length_kept (m : MemChange) : (m.val.toList.take m.nCap).length = m.nCap := by
  have hcap : m.nCap ≤ CHECK_MEM_CUT_AT := by
    unfold MemChange.nCap
    split <;> omega
  rw [List.length_take, Vector.length_toList]
  omega

theorem decodes_memDiff (m : MemChange) : Decodes parseMemDiff (packMemChange m) m.toDiff := by
  unfold packMemChange
  rw [List.append_assoc, List.append_assoc]
  exact (decodes_uint64 m.start).bind ((decodes_uint32 m.n).bind
    ((Decodes.fromBytes m.length_kept).bind ((decodes_uint32 m.checksum).map _)))

theorem decodes_memDiffs (r : CResult c) :
    Decodes (parseMemDiffs c) (packMemChanges c r.memChanges)
      (if c.CHECK_MEM then some (r.memChanges.map MemChange.toDiff) else none) := by
  have hlen : r.memChanges.length < 256 :=
    r.memChanges_le.trans_lt c.arch.CHECK_MEM_MAX_NUMBER_MEM_CHANGES_lt
  unfold parseMemDiffs packMemChanges
  cases c.CHECK_MEM with
  | false => exact Decodes.pure _
  | true =>
      exact (decodes_byte hlen).bind
        ((Decodes.collect fun m _ => decodes_memDiff m).map _)

/-! ## A whole result

The parts of a result one behind the other, each at the place where the parser is then. -/

theorem decodes_resultBody (before : Regs c) (client : κ) {r : CResult c} (h : r.FromRunner) :
    Decodes (parseResultBody c client) (packInnerResult before r) (r.decoded before client) := by
  have hcount := regsDiff_length_lt before r.regsResult
  have hbytes : packInnerResult before r =
      [UInt8.ofNat (intBits r.signum)] ++ (packMeta c r.counters ++
        ([UInt8.ofNat (regsDiff before r.regsResult).length] ++
          ((regsDiff before r.regsResult).flatMap (packReg r.regsResult) ++
            (packSi r ++ packMemChanges c r.memChanges)))) := by
    simp [packInnerResult]
  rw [hbytes]
  exact (decodes_byte h.intBits_signum_lt).bind ((decodes_meta r.counters).bind
    ((decodes_byte hcount).bind ((decodes_regs before r.regsResult).bind
      ((decodes_si h).bind ((decodes_memDiffs r).map _)))))

theorem decodes_oneResult (before : Regs c) (client : κ) {r : CResult c} (h : r.FromRunner) :
    Decodes (parseOneResult c client) (packInnerResult before r)
      (some (r.decoded before client)) := by
  intro pre post
  have hbody := (decodes_resultBody before client h).map some pre post
  have hne : slice (pre ++ packInnerResult before r ++ post) pre.length 1 ≠ [] := by
    rw [List.append_assoc, slice_append]
    simp [packInnerResult]
  rw [parseOneResult, if_neg hne]
  exact hbody

/-! ## A frame body

The tag tells the parser which of the two forms it is. -/

namespace Answer

/-- The body of the frame: what is left of it without its length. -/
def body (before : Regs c) : Answer c → Bytes
  | .single r => RESULT_TAG_SINGLE :: packInnerResult before r
  | .multi results =>
      RESULT_TAG_MULTI :: UInt8.ofNat results.length :: results.flatMap (packInnerResult before)

/-- The answers a client gives: what its runner produces, with a count that fits its byte. -/
def FromRunner : Answer c → Prop
  | .single r => r.FromRunner
  | .multi results => results.length ≤ 255 ∧ ∀ r ∈ results, r.FromRunner

/-- The parsed form of an answer. -/
def decoded (before : Regs c) (client : κ) : Answer c → Parsed κ
  | .single r => .result (r.decoded before client)
  | .multi results => .multiResult (results.map fun r => some (r.decoded before client))

end Answer

theorem packAnswer_eq_some {before : Regs c} {a : Answer c} {frame : Bytes}
    (h : packAnswer before a = some frame) :
    (a.body before).length ≤ 0xffff ∧
      frame = leBytes 2 (a.body before).length ++ a.body before := by
  have hframe : packAnswer before a = packFrame (a.body before) := by
    cases a <;> rfl
  rw [hframe, packFrame] at h
  split at h
  next hlen =>
    cases h
    exact ⟨hlen, rfl⟩
  next => cases h

/-- Without its length a frame is the body. -/
theorem drop_frame {before : Regs c} {a : Answer c} {frame : Bytes}
    (h : packAnswer before a = some frame) : frame.drop 2 = a.body before := by
  rw [(packAnswer_eq_some h).2]
  exact List.drop_left' (length_leBytes 2 _)

theorem decodes_fullSeq (before : Regs c) (client : κ) {results : List (CResult c)}
    (hlen : results.length ≤ 255) (h : ∀ r ∈ results, r.FromRunner) :
    Decodes (parseOneResultFullSeq c client)
      (UInt8.ofNat results.length :: results.flatMap (packInnerResult before))
      (results.map fun r => some (r.decoded before client)) :=
  (decodes_byte (by omega)).bind
    (Decodes.collect fun r hr => (decodes_oneResult before client (h r hr)).sub)

theorem decodes_step (before : Regs c) (client : κ) {a : Answer c} (h : a.FromRunner) :
    Decodes (parseStep c client) (a.body before) (a.decoded before client) := by
  unfold parseStep
  cases a with
  | single r =>
      refine (decodes_byte (n := 0) (by omega)).bind ?_
      rw [if_neg (by decide)]
      have hone := (decodes_oneResult before client h).sub
      show Decodes _ (packInnerResult before r) _
      rw [← List.append_nil (packInnerResult before r)]
      exact hone.bind (Decodes.pure _)
  | multi results =>
      refine (decodes_byte (n := 1) (by omega)).bind ?_
      rw [if_pos rfl]
      exact (decodes_fullSeq before client h.1 h.2).sub.map _

/-! ## All answers of a message

The server takes the lengths off and joins the bodies, so the parser has to find the ends of the
bodies itself. -/

/-- An answer and the registers its input started from. -/
structure Reply (c : Config) where
  regsBefore : Regs c
  answer : Answer c

namespace Reply

/-- The frame the client sends. -/
def frame (r : Reply c) : Option Bytes := packAnswer r.regsBefore r.answer

def body (r : Reply c) : Bytes := r.answer.body r.regsBefore

def decoded (client : κ) (r : Reply c) : Parsed κ := r.answer.decoded r.regsBefore client

theorem body_pos (r : Reply c) : 0 < r.body.length := by
  unfold body
  cases r.answer <;> simp [Answer.body]

end Reply

/-- The loop of `parse_results` reads the remaining bodies one by one and stops at the end. The
induction is on the replies that are still to be read. -/
theorem parseResultsLoop_ok (client : κ) (replies : List (Reply c)) (hne : replies ≠ [])
    (h : ∀ a ∈ replies, a.answer.FromRunner) :
    ∀ (pre : Bytes) (fuel : Nat) (results : List (Parsed κ)), replies.length ≤ fuel →
      parseResultsLoop c client (pre ++ replies.flatMap Reply.body) fuel pre.length results =
        .ok (results ++ replies.map (Reply.decoded client)) := by
  induction replies with
  | nil => exact absurd rfl hne
  | cons a replies ih =>
      intro pre fuel results hfuel
      -- one round reads the first body
      obtain ⟨fuel, rfl⟩ : ∃ n, fuel = n + 1 := ⟨fuel - 1, by simp at hfuel; omega⟩
      have hstep : parseStep c client (pre ++ a.body ++ replies.flatMap Reply.body) pre.length =
          .ok (a.decoded client, (pre ++ a.body).length) :=
        decodes_step a.regsBefore client (h a List.mem_cons_self) pre (replies.flatMap Reply.body)
      rw [List.flatMap_cons, ← List.append_assoc, parseResultsLoop, hstep]
      have hle : ¬ (pre ++ a.body ++ replies.flatMap Reply.body).length <
          (pre ++ a.body).length := by
        rw [List.length_append]
        omega
      simp only [hle, if_false]
      cases replies with
      | nil => simp
      | cons b replies =>
          -- the data goes on, so the loop does too
          have hb := b.body_pos
          have hmore : ¬ (pre ++ a.body).length =
              (pre ++ a.body ++ (b :: replies).flatMap Reply.body).length := by
            simp only [List.length_append, List.flatMap_cons]
            omega
          have hrest := ih (by simp) (fun x hx => h x (List.mem_cons_of_mem _ hx))
            (pre ++ a.body) fuel (results ++ [a.decoded client]) (by simpa using hfuel)
          rw [if_neg hmore, hrest]
          simp

theorem length_le_flatMap_body (replies : List (Reply c)) :
    replies.length ≤ (replies.flatMap Reply.body).length := by
  induction replies with
  | nil => simp
  | cons a replies ih =>
      have ha := a.body_pos
      simp only [List.length_cons, List.flatMap_cons, List.length_append]
      omega

/-- Parsing the concatenated bodies gives back all answers, in order. -/
theorem parseResults_bodies (client : κ) {replies : List (Reply c)} (hne : replies ≠ [])
    (h : ∀ a ∈ replies, a.answer.FromRunner) :
    parseResults c (replies.flatMap Reply.body) client =
      .ok (replies.map (Reply.decoded client)) := by
  have hlen := length_le_flatMap_body replies
  have hloop := parseResultsLoop_ok client replies hne h []
    ((replies.flatMap Reply.body).length + 1) [] (by omega)
  simpa [parseResults] using hloop

/-! ## What the parsed result says

The parsed results, in words of the executions they are about. -/

/-- `p` reports exactly what the client's result `r` holds, relative to the registers before the
run. -/
structure Reports (before : Regs c) (client : κ) (r : CResult c) (p : Result κ) : Prop where
  signum : (p.signum : Int) = r.signum.toInt
  regs : ∀ name v, p.regs.get? name = some v ↔
    ∃ reg : Reg c, reg.name = name ∧ reg.val before ≠ reg.val r.regsResult ∧
      v = (reg.val r.regsResult).toNat
  siAddr : p.siAddr = r.siAddrr.toNat
  siPc : p.siPc = r.siPc.toNat
  siCode : (p.siCode : Int) = r.siCode.toInt % 2 ^ 32
  cycleDiff : p.cycleDiff = if c.META then some (r.counters.cycle.toNat % 2 ^ 16) else none
  instretDiff : p.instretDiff =
    if c.META && c.arch == .riscv64 then some (r.counters.instret.toNat % 2 ^ 16) else none
  memDiffs : p.memDiffs =
    if c.CHECK_MEM then
      some (r.memChanges.map fun m =>
        ⟨m.start.toNat, m.n.toNat, ofLeBytes (m.val.toList.take (min m.n.toNat 16)),
          m.checksum.toNat⟩)
    else none
  client_eq : p.client = client ∧ p.realClient = client

/-- The same for an answer: a single result, or as many results in the same order. -/
def AnswerReports (before : Regs c) (client : κ) : Answer c → Parsed κ → Prop
  | .single r, .result p => Reports before client r p
  | .multi rs, .multiResult ps =>
      List.Forall₂ (fun r p => ∃ q, p = some q ∧ Reports before client r q) rs ps
  | _, _ => False

theorem MemChange.nCap_eq_min (m : MemChange) : m.nCap = min m.n.toNat 16 := by
  unfold MemChange.nCap CHECK_MEM_CUT_AT
  split <;> omega

theorem decoded_reports (before : Regs c) (client : κ) {r : CResult c} (h : r.FromRunner) :
    Reports before client r (r.decoded before client) where
  signum := h.intBits_signum
  regs := fun _ _ => get?_changedRegs
  siAddr := rfl
  siPc := rfl
  siCode := intBits_eq_emod r.siCode
  cycleDiff := rfl
  instretDiff := rfl
  memDiffs := by
    have hdiff : (fun m : MemChange => m.toDiff) = fun m =>
        ⟨m.start.toNat, m.n.toNat, ofLeBytes (m.val.toList.take (min m.n.toNat 16)),
          m.checksum.toNat⟩ := by
      funext m
      simp only [MemChange.toDiff, MemChange.nCap_eq_min]
    simp only [CResult.decoded, ← hdiff]
  client_eq := ⟨rfl, rfl⟩

theorem decoded_answerReports (before : Regs c) (client : κ) {a : Answer c} (h : a.FromRunner) :
    AnswerReports before client a (a.decoded before client) := by
  cases a with
  | single r => exact decoded_reports before client h
  | multi results =>
      have hall : ∀ r ∈ results, r.FromRunner := h.2
      show List.Forall₂ _ results (results.map _)
      rw [List.forall₂_map_right_iff, List.forall₂_same]
      exact fun r hr => ⟨_, rfl, decoded_reports before client (hall r hr)⟩

/-- The parsed answers report the replies, one by one. -/
theorem decoded_forall₂_reports (client : κ) {replies : List (Reply c)}
    (h : ∀ a ∈ replies, a.answer.FromRunner) :
    List.Forall₂ (fun a p => AnswerReports a.regsBefore client a.answer p) replies
      (replies.map (Reply.decoded client)) := by
  rw [List.forall₂_map_right_iff, List.forall₂_same]
  exact fun a ha => decoded_answerReports a.regsBefore client (h a ha)

/-- The wire round trip: the server parses the bodies of the frames the client packed, and its
list reports exactly the client's answers. Each answer may have its own registers before the run. -/
theorem parseResults_packAnswers (c : Config) (client : κ) (replies : List (Reply c))
    (frames : List Bytes) (hne : replies ≠ []) (hrunner : ∀ a ∈ replies, a.answer.FromRunner)
    (hpack : List.Forall₂ (fun a frame => packAnswer a.regsBefore a.answer = some frame)
      replies frames) :
    ∃ parsed, parseResults c (frames.flatMap fun frame => frame.drop 2) client = .ok parsed ∧
      List.Forall₂ (fun a p => AnswerReports a.regsBefore client a.answer p) replies parsed := by
  have hdata : (frames.flatMap fun frame => frame.drop 2) = replies.flatMap Reply.body := by
    clear hne hrunner
    induction hpack with
    | nil => rfl
    | cons hframe _ ih =>
        rw [List.flatMap_cons, List.flatMap_cons, drop_frame hframe, ih]
        rfl
  refine ⟨replies.map (Reply.decoded client), ?_, decoded_forall₂_reports client hrunner⟩
  rw [hdata]
  exact parseResults_bodies client hne hrunner

/-- A riscv64 build with floats that checks memory and counts cycles. -/
def riscvBuild : Config := ⟨⟨.riscv64, true, false, buildAdmits_floats⟩, true, true⟩

/-- A run that wrote `ft0` and two bytes of memory before it faulted. -/
def faultingRun : CResult riscvBuild where
  signum := 11
  siAddrr := 0x10000
  siPc := 0x4
  siCode := -1
  regsResult := fun
    | .fp => (Regs.fill riscvBuild 0 .fp).set 0 7 (by decide)
    | k => Regs.fill riscvBuild 0 k
  counters := ⟨70000, 2⟩
  memChanges := [⟨0x2000, 2, Vector.replicate _ 5, 99⟩]
  memChanges_le := by decide

theorem faultingRun_fromRunner : faultingRun.FromRunner where
  signum_nonneg := by decide
  signum_lt := by decide
  si_zero := by decide

/-- The answers to two inputs: a full sequence of one prefix, and a single result. -/
def faultingReplies : List (Reply riscvBuild) :=
  [⟨Regs.fill riscvBuild 0, .multi [faultingRun]⟩, ⟨Regs.fill riscvBuild 7, .single faultingRun⟩]

theorem faultingReplies_fromRunner : ∀ a ∈ faultingReplies, a.answer.FromRunner := by
  intro a ha
  simp only [faultingReplies, List.mem_cons, List.not_mem_nil, or_false] at ha
  rcases ha with rfl | rfl
  · exact ⟨by decide, by simpa using faultingRun_fromRunner⟩
  · exact faultingRun_fromRunner

theorem parseResults_packAnswers_faultingReplies :
    ∃ parsed,
      parseResults riscvBuild
        ((faultingReplies.map fun a => a.frame.getD []).flatMap fun frame => frame.drop 2)
        "client" = .ok parsed ∧
      List.Forall₂ (fun a p => AnswerReports a.regsBefore "client" a.answer p)
        faultingReplies parsed :=
  parseResults_packAnswers riscvBuild "client" faultingReplies _ (by simp [faultingReplies])
    faultingReplies_fromRunner (.cons (by decide +kernel) (.cons (by decide +kernel) .nil))

end RISCover
