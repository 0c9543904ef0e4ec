import RISCover.Repro.Sections

/-!
# What the client logs it loads again

`load_repro` on the text of `log_repro`. The text is a list of lines, and each of the sections is
read by its own loop; everything between the sections opens none. The result holds whatever the
comments, the results and the names of the client are.
-/

open Text Machine Bytes

namespace RISCover

variable {b : Build} {heap : Nat → Bytes}

/-! ## The input

The lines of `log_input` are lines of instructions and registers in the sense of `Sections`. -/

/-- The digits of a register. -/
def logDigits {k : RegClass} (v : RegVal k) : Text :=
  match k with
  | .vec => v.bytes.reverse.flatMap fun x => hexPad 2 x.toNat
  | _ => hex v.toNat

theorem regText_eq {k : RegClass} (v : RegVal k) : regText v = "0x".toList ++ logDigits v := by
  cases k <;> rfl

theorem spells_logDigits {k : RegClass} (v : RegVal k) : Spells (logDigits v) v := by
  cases k with
  | vec =>
      have hlen : (logDigits v).length = 2 * RegClass.vec.size := by
        unfold logDigits
        rw [length_flatMap_hexPad, List.length_reverse, RegVal.length_bytes]
      refine ⟨?_, isHex_flatMap_hexPad _, hlen.le, ?_⟩
      · intro hnil
        rw [hnil] at hlen
        cases hlen
      · unfold logDigits
        rw [fprintVec_digits, RegVal.ofLeBytes_bytes]
  | _ => exact spells_hex v

theorem logRegs_eq (k : RegClass) (regs : Regs b.toRegConfig) :
    logRegs (c := b.toConfig) k regs =
      regLines b.toRegConfig (fun r => logDigits (r.val regs)) k := by
  unfold logRegs regLines regLine
  simp only [regText_eq]

/-! ## Mappings

The client puts double quotes around the words of a mapping, which it takes off again. -/

/-- The content between its quotes. -/
def quoteWords (m : Mapping) : Text := "\"".toList ++ logWords m ++ "\"".toList

/-- The digits between the quotes. -/
theorem valDigits_quoteWords (m : Mapping) : valDigits (' ' :: quoteWords m) = logWords m := by
  have hwords := isHex_logWords m
  have hquote : valDigits (' ' :: quoteWords m) =
      (scan0x (logWords m ++ "\"".toList)).takeWhile isHex := rfl
  rw [hquote, scan0x_digits hwords (by decide), List.takeWhile_append_of_pos hwords]
  exact List.append_nil _

theorem logMapping_eq (m : Mapping) : logMapping m = mappingLines quoteWords m := by
  unfold logMapping mappingLines quoteWords
  simp

/-! ## The results and the comments

None of these lines opens a section, as they begin with other words or with `#`. -/

@[simp] theorem newline_notMem_orUnknown (name : Option OneLine) : '\n' ∉ orUnknown name := by
  cases name with
  | none => decide
  | some t => exact t.2

@[simp] theorem newline_notMem_fprintHex (bytes : Bytes) : '\n' ∉ fprintHex bytes := by
  simp [fprintHex]

@[simp] theorem newline_notMem_regText {k : RegClass} (v : RegVal k) : '\n' ∉ regText v := by
  cases k <;> simp [regText, fprintVec]

section Results

variable {c : Config} (env : LogEnv c)

theorem plain_logDeviceBlock :
    ∀ l ∈ logDeviceBlock env "  - ".toList "    ".toList, Plain l := by
  simp only [logDeviceBlock, List.forall_mem_append, List.forall_mem_cons]
  refine ⟨⟨⟨⟨⟨plain_append rfl ?_, plain_append rfl (by simp), by simp⟩, ?_⟩, ?_⟩, ?_⟩, ?_⟩
  · split
    next => decide
    next => simp
  all_goals
    split
    next =>
      rw [List.forall_mem_singleton]
      exact plain_append rfl (by simp)
    next => exact List.forall_mem_nil _

theorem plain_logMicroarchitectureBlock (cpu : LoggedCpu) :
    ∀ l ∈ logMicroarchitectureBlock env "    ".toList cpu, Plain l := by
  simp only [logMicroarchitectureBlock, List.forall_mem_cons]
  refine ⟨plain_append rfl (by simp), plain_append rfl (by simp), plain_append rfl (by simp),
    plain_append rfl (by simp), plain_append rfl (by simp), plain_append rfl (by simp),
    plain_append rfl (by simp), ⟨⟨by decide, by decide⟩, by decide⟩, List.forall_mem_nil _⟩

theorem plain_logClientBlock (cpu : Option LoggedCpu) :
    ∀ l ∈ logClientBlock env [] cpu, Plain l := by
  cases cpu with
  | none => exact List.forall_mem_nil _
  | some cpu =>
      simp only [logClientBlock, List.forall_mem_append, List.forall_mem_cons]
      exact ⟨⟨⟨⟨plain_of_plainStart rfl, List.forall_mem_nil _⟩, plain_logDeviceBlock env⟩,
        plain_append rfl (by simp), plain_of_plainStart rfl, List.forall_mem_nil _⟩,
        plain_logMicroarchitectureBlock env cpu⟩

variable (r : LoggedResult c)

theorem plain_logSignal : ∀ l ∈ logSignal r [], Plain l := by
  simp only [logSignal, List.forall_mem_append, List.forall_mem_cons]
  refine ⟨⟨plain_append rfl (by simp), List.forall_mem_nil _⟩, ?_⟩
  split
  next =>
    rw [List.forall_mem_append]
    simp only [List.forall_mem_cons]
    refine ⟨⟨plain_append rfl (by simp), plain_append rfl (by simp), plain_append rfl (by simp),
      List.forall_mem_nil _⟩, ?_⟩
    split
    next =>
      rw [List.forall_mem_singleton]
      exact plain_append rfl (by simp)
    next => exact List.forall_mem_nil _
  next => exact List.forall_mem_nil _

theorem plain_logReg (reg : Reg c.toRegConfig) (regs : Regs c.toRegConfig) :
    Plain ("      ".toList ++ reg.name.toList ++ ": ".toList ++ regText (reg.val regs)) := by
  rw [regText_eq]
  apply plain_regLine
  exact fun hmem => newline_notMem_regText (reg.val regs) (by
    rw [regText_eq]
    exact List.mem_append_right _ hmem)

theorem plain_logRegsAfter (regsBefore : Regs c.toRegConfig) :
    ∀ l ∈ logRegsAfter r regsBefore [], Plain l := by
  unfold logRegsAfter
  dsimp only
  split
  next =>
    rw [List.forall_mem_singleton]
    exact plain_of_plainStart rfl
  next =>
    rw [List.forall_mem_cons]
    refine ⟨plain_of_plainStart rfl, ?_⟩
    intro l hl
    obtain ⟨reg, -, rfl⟩ := List.mem_map.mp hl
    exact plain_logReg reg r.regsResult

theorem plain_logMemChange (m : MemChange) : ∀ l ∈ logMemChange [] m, Plain l := by
  simp only [logMemChange, List.forall_mem_append, List.forall_mem_cons]
  refine ⟨⟨⟨plain_append rfl (by simp), plain_append rfl (by simp), plain_append rfl (by simp),
    List.forall_mem_nil _⟩, ?_⟩, plain_append rfl (by simp), List.forall_mem_nil _⟩
  split
  next =>
    rw [List.forall_mem_singleton]
    exact plain_append rfl (by simp)
  next => exact List.forall_mem_nil _

theorem plain_logMemDiffs : ∀ l ∈ logMemDiffs r [], Plain l := by
  unfold logMemDiffs
  split
  next =>
    rw [List.forall_mem_singleton]
    exact plain_of_plainStart rfl
  next =>
    rw [List.forall_mem_append, List.forall_mem_cons]
    refine ⟨?_, plain_of_plainStart rfl, ?_⟩
    · split
      next =>
        rw [List.forall_mem_singleton]
        exact plain_append rfl (by simp)
      next => exact List.forall_mem_nil _
    · intro l hl
      obtain ⟨m, -, hm⟩ := List.mem_flatMap.mp hl
      exact plain_logMemChange m l hm

theorem plain_logMeta : ∀ l ∈ logMeta r [], Plain l := by
  simp only [logMeta, List.forall_mem_cons]
  exact ⟨plain_of_plainStart rfl, plain_append rfl (by simp), plain_append rfl (by simp),
    List.forall_mem_nil _⟩

/-- No line of a result opens a section. -/
theorem plain_logResult (regsBefore : Regs c.toRegConfig) (cpu : Option LoggedCpu) :
    ∀ l ∈ logResult env r regsBefore [] cpu, Plain l := by
  simp only [logResult, List.forall_mem_append]
  refine ⟨⟨⟨⟨⟨?_, plain_logSignal r⟩, plain_logRegsAfter r regsBefore⟩, ?_⟩, ?_⟩,
    plain_logClientBlock env cpu⟩
  · rw [List.forall_mem_singleton]
    exact plain_of_plainStart rfl
  · split
    next => exact plain_logMemDiffs r
    next => exact List.forall_mem_nil _
  · split
    next => exact plain_logMeta r
    next => exact List.forall_mem_nil _

theorem plain_comment {t : Text} (h : '\n' ∉ t) : Plain (comment t) := plain_append rfl h

theorem newline_notMem_logCpuLine (cpu : LoggedCpu) : '\n' ∉ logCpuLine env cpu := by
  have hhost : '\n' ∉ (if env.hostname.1 = [] then "unknown".toList else env.hostname.1) := by
    split
    next => decide
    next => exact env.hostname.2
  simp only [logCpuLine, vecSuffix, List.mem_append, not_or]
  refine ⟨⟨⟨⟨⟨⟨⟨⟨by simp, by decide⟩, by simp⟩, by decide⟩, by simp⟩, by decide⟩, hhost⟩, ?_⟩,
    by decide⟩
  split <;> decide

/-- The header consists of comments. -/
theorem plain_logHeader (items : List (ResultCpuPair c)) (regsBefore : Regs c.toRegConfig) :
    ∀ l ∈ logHeader env items regsBefore, Plain l := by
  -- a comment opens no section, whatever stands behind the `#`
  have hcomments : ∀ ls : List OneLine, ∀ l ∈ ls.map fun t => comment t.1, Plain l := by
    intro ls l hl
    obtain ⟨t, -, rfl⟩ := List.mem_map.mp hl
    exact plain_comment t.2
  rw [logHeader, List.forall_mem_append]
  constructor
  · unfold logDiffComments
    split
    next =>
      rw [List.forall_mem_cons]
      exact ⟨plain_comment (by decide), hcomments _⟩
    next => exact List.forall_mem_nil _
  · intro l hl
    obtain ⟨⟨item, i⟩, -, hitem⟩ := List.mem_flatMap.mp hl
    have hall : ∀ l ∈ logResultComments env regsBefore i item, Plain l := by
      rw [logResultComments, List.forall_mem_cons, List.forall_mem_append]
      refine ⟨plain_comment (by simp), ?_, hcomments _⟩
      cases item.cpu with
      | none => exact List.forall_mem_nil _
      | some cpu =>
          rw [Option.map_some, Option.toList_some, List.forall_mem_singleton]
          exact plain_comment (newline_notMem_logCpuLine env cpu)
    exact hall l hitem

end Results

/-- The section of the mappings: there is something behind the colon if there are none. -/
theorem exists_logMappings (mappings : List Mapping) :
    ∃ t, '\n' ∉ t ∧
      logMappings mappings = ("mappings:".toList ++ t) :: mappings.flatMap logMapping := by
  unfold logMappings
  split
  next => exact ⟨[], by simp, rfl⟩
  next h =>
    rw [not_not] at h
    exact ⟨" []".toList, by decide, by rw [h]; rfl⟩

/-! ## The whole text

The sections are read in the order in which they are written. -/

/-- The lines of a reproducer, from the input on. -/
theorem steps_logRepro {env : LogEnv b.toConfig} {items : List (ResultCpuPair b.toConfig)}
    {instrSeq : List UInt32} {regsBefore : Regs b.toRegConfig} {mappings : List Mapping}
    {lines : List Text}
    (hflags : (b.VECTOR || b.FLOATS || b.CHECK_MEM || b.AUTO_MAP_MEM || b.META) = true)
    (hmappings : ∀ m ∈ mappings, m.Whole)
    (hlines : logReproLines b env items instrSeq regsBefore mappings = some lines)
    (s : Load b.toRegConfig) (hlen : s.instrSeq.length + instrSeq.length ≤ b.MAX_SEQ_LEN) :
    Steps (loadStep b heap) (s.goto .top lines)
      ({ s with
        instrSeq := s.instrSeq ++ instrSeq
        regs := loadedRegs s.regs regsBefore
        mappings := s.mappings ++ mappings
        parsedMask := some b.expectedMask }.goto .top []) := by
  simp only [logReproLines, logInput, Option.bind_eq_bind, Option.bind_eq_some_iff,
    Option.some.injEq] at hlines
  obtain ⟨input, ⟨dis, -, rfl⟩, rfl⟩ := hlines
  have hsome : logFlags b = "flags:".toList ::
      (Flag.all.filter b.defines).map fun f => "- -D".toList ++ f.name.toList := by
    have hnot : (!b.VECTOR && !b.FLOATS && !b.CHECK_MEM && !b.AUTO_MAP_MEM && !b.META) = false := by
      rw [← Bool.not_or, ← Bool.not_or, ← Bool.not_or, ← Bool.not_or, hflags]
      rfl
    rw [logFlags, hnot]
    rfl
  have hregs : ∀ t, "  regs:".toList :: "    gp:".toList ::
      (logRegs (c := b.toConfig) .gp regsBefore ++
        ((if b.FLOATS then "    fp:".toList :: logRegs (c := b.toConfig) .fp regsBefore else []) ++
          ((if b.VECTOR then "    vec:".toList :: logRegs (c := b.toConfig) .vec regsBefore
            else []) ++ t))) = regsLines b (fun r => logDigits (r.val regsBefore)) ++ t := by
    intro t
    simp only [regsLines, otherLines, vecLines, logRegs_eq, List.cons_append, List.append_assoc]
  obtain ⟨t, -, hmappingsLines⟩ := exists_logMappings mappings
  simp only [hsome, hmappingsLines, List.append_assoc, List.cons_append, List.nil_append, hregs]
  -- the comments and the head of the input
  refine (steps_skipped (fun l hl => (plain_logHeader env items regsBefore l hl).2) s _).trans ?_
  refine Steps.head (loadStep_skipped rfl s _) (Steps.head (loadStep_instrSeq [] s _) ?_)
  -- the instructions and their disassembly
  have hinstr : ∀ instr : UInt32, _ ∧ _ := fun instr =>
    scanInstr_line (scanHex_hexPad (w := 8) (instr.toNat_lt.trans (by decide)))
  refine (steps_instrSeq hinstr instrSeq s hlen _).trans ?_
  let s₁ : Load b.toRegConfig := { s with instrSeq := s.instrSeq ++ instrSeq }
  have hdis : ∀ l ∈ dis.map (fun text => "  - '".toList ++ (text.1 ++ "'".toList)),
      skipped l = true := by
    intro l hl
    obtain ⟨text, -, rfl⟩ := List.mem_map.mp hl
    exact skipped_append rfl _
  refine Steps.head (loadStep_endInstrSeq [] s₁ _) (Steps.head (loadStep_skipped rfl s₁ _) ?_)
  refine (steps_skipped hdis s₁ _).trans ?_
  -- the registers and the mappings
  refine (steps_regsLines (fun r => spells_logDigits (r.val regsBefore))
    (endsRegs_mappings t) (Or.inr (Or.inr (endsGp_mappings t))) s₁ _).trans ?_
  let s₂ : Load b.toRegConfig := { s₁ with regs := loadedRegs s.regs regsBefore }
  refine Steps.head (loadStep_mappings t s₂ _) ?_
  have hmapping : ∀ m ∈ mappings, ∀ (s : Load b.toRegConfig) rest,
      loadStep b heap (s.goto .mappings (logMapping m ++ rest)) =
        .next ({ s with mappings := s.mappings ++ [m] }.goto .mappings rest) := by
    intro m hm s rest
    rw [logMapping_eq]
    exact loadStep_mappingLines (hmappings m hm) (valDigits_quoteWords m) s rest
  refine (steps_mappings hmapping s₂ _).trans ?_
  let s₃ : Load b.toRegConfig := { s₂ with mappings := s.mappings ++ mappings }
  have hresultsHead : ∀ rest, loadStep b heap (s₃.goto .mappings ("results:".toList :: rest)) =
      .next (s₃.goto .top ("results:".toList :: rest)) := fun _ => rfl
  -- the results
  have hresults : ∀ l ∈ items.flatMap fun item =>
      logResult env item.result regsBefore [] item.cpu, skipped l = true := by
    intro l hl
    obtain ⟨item, -, hitem⟩ := List.mem_flatMap.mp hl
    exact (plain_logResult env item.result regsBefore item.cpu l hitem).2
  refine Steps.head (hresultsHead _) (Steps.head (loadStep_skipped rfl s₃ _) ?_)
  refine (steps_skipped hresults s₃ _).trans ?_
  -- the flags and what is behind them
  let s₄ : Load b.toRegConfig := { s₃ with parsedMask := some ∅ }
  have hflagsHead : ∀ rest, loadStep b heap (s₃.goto .top ("flags:".toList :: rest)) =
      .next (s₄.goto .flags rest) := fun _ => rfl
  refine Steps.head (hflagsHead _) ?_
  refine (steps_flags (Flag.all.filter b.defines) ∅ s₄ _ rfl).trans ?_
  rw [Finset.empty_union]
  let s₅ : Load b.toRegConfig := { s₄ with parsedMask := some b.expectedMask }
  have harch : (lstrip ("arch: ".toList ++ b.arch.name.toList)).head? ≠ some '-' := by
    show some 'a' ≠ some '-'
    decide
  refine Steps.head (loadStep_endFlags harch (s := s₅) rfl _) ?_
  exact Steps.head (loadStep_skipped (skipped_append rfl _) s₅ _)
    (Steps.single (loadStep_skipped (skipped_append rfl _) s₅ _))

theorem isLine_logRegs (k : RegClass) (regs : Regs b.toRegConfig) :
    ∀ l ∈ logRegs (c := b.toConfig) k regs, IsLine l := by
  intro l hl
  obtain ⟨i, -, rfl⟩ := List.mem_map.mp hl
  exact (plain_logReg (c := b.toConfig) ⟨k, i⟩ regs).1

theorem isLine_logMapping (m : Mapping) : ∀ l ∈ logMapping m, IsLine l := by
  have hwords : '\n' ∉ logWords m := fun h => absurd (isHex_logWords m _ h) (by decide)
  have hline : ∀ (p t : Text), p ≠ [] → '\n' ∉ p → '\n' ∉ t → IsLine (p ++ t) :=
    fun _ _ => isLine_append
  simp only [logMapping, List.forall_mem_cons]
  refine ⟨hline _ _ (by decide) (by decide) (by simp), hline _ _ (by decide) (by decide) (by simp),
    hline _ _ (by decide) (by decide) (by simp), ?_, List.forall_mem_nil _⟩
  exact hline _ _ (by simp) (by simp [hwords]) (by decide)

theorem isLine_logFlags (b : Build) : ∀ l ∈ logFlags b, IsLine l := by
  unfold logFlags
  split
  next =>
    rw [List.forall_mem_singleton]
    exact ⟨by decide, by decide⟩
  next =>
    rw [List.forall_mem_cons]
    refine ⟨⟨by decide, by decide⟩, ?_⟩
    intro l hl
    obtain ⟨f, -, rfl⟩ := List.mem_map.mp hl
    apply isLine_append
    · decide
    · decide
    · cases f <;> decide

/-- A reproducer consists of lines, so nothing is lost between writing and reading it. -/
theorem isLine_logRepro {env : LogEnv b.toConfig} {items : List (ResultCpuPair b.toConfig)}
    {instrSeq : List UInt32} {regsBefore : Regs b.toRegConfig} {mappings : List Mapping}
    {lines : List Text}
    (hlines : logReproLines b env items instrSeq regsBefore mappings = some lines) :
    ∀ l ∈ lines, IsLine l := by
  simp only [logReproLines, logInput, Option.bind_eq_bind, Option.bind_eq_some_iff,
    Option.some.injEq] at hlines
  obtain ⟨input, ⟨dis, -, rfl⟩, rfl⟩ := hlines
  -- no line is empty, and none has a line break in it
  have hmaps : ∀ l ∈ logMappings mappings, IsLine l := by
    obtain ⟨t, ht, hmappingsLines⟩ := exists_logMappings mappings
    rw [hmappingsLines, List.forall_mem_cons]
    constructor
    · exact isLine_append (by decide) (by decide) ht
    · intro l hl
      obtain ⟨m, -, hm⟩ := List.mem_flatMap.mp hl
      exact isLine_logMapping m l hm
  have hinstrs : ∀ l ∈ instrSeq.map (fun instr => "  - 0x".toList ++ hexPad 8 instr.toNat),
      IsLine l := by
    intro l hl
    obtain ⟨instr, -, rfl⟩ := List.mem_map.mp hl
    exact isLine_append (by decide) (by decide) (by simp)
  have hdis : ∀ l ∈ dis.map (fun text => "  - '".toList ++ text.1 ++ "'".toList), IsLine l := by
    intro l hl
    obtain ⟨text, -, rfl⟩ := List.mem_map.mp hl
    exact isLine_append (by simp) (by simp [text.2]) (by decide)
  have hresults : ∀ l ∈ items.flatMap fun item =>
      logResult env item.result regsBefore [] item.cpu, IsLine l := by
    intro l hl
    obtain ⟨item, -, hitem⟩ := List.mem_flatMap.mp hl
    exact (plain_logResult env item.result regsBefore item.cpu l hitem).1
  have hclosed : ∀ t : Text, t ≠ [] → '\n' ∉ t → IsLine t := fun t hne hnl => ⟨hne, hnl⟩
  simp only [List.forall_mem_append, List.forall_mem_cons]
  refine ⟨⟨⟨⟨⟨fun l hl => (plain_logHeader env items regsBefore l hl).1, ?_⟩,
    hclosed _ (by decide) (by decide), List.forall_mem_nil _⟩, hresults⟩, isLine_logFlags b⟩,
    ?_, ?_, List.forall_mem_nil _⟩
  · refine ⟨⟨⟨⟨⟨⟨⟨⟨⟨hclosed _ (by decide) (by decide), hclosed _ (by decide) (by decide),
      List.forall_mem_nil _⟩, hinstrs⟩, hclosed _ (by decide) (by decide), List.forall_mem_nil _⟩,
      hdis⟩, hclosed _ (by decide) (by decide), hclosed _ (by decide) (by decide),
      List.forall_mem_nil _⟩, isLine_logRegs .gp regsBefore⟩, ?_⟩, ?_⟩, hmaps⟩
    · split
      next =>
        rw [List.forall_mem_cons]
        exact ⟨hclosed _ (by decide) (by decide), isLine_logRegs .fp regsBefore⟩
      next => exact List.forall_mem_nil _
    · split
      next =>
        rw [List.forall_mem_cons]
        exact ⟨hclosed _ (by decide) (by decide), isLine_logRegs .vec regsBefore⟩
      next => exact List.forall_mem_nil _
  · apply isLine_append (by decide) (by decide)
    cases b.arch <;> decide
  · exact isLine_append (by decide) (by decide) env.gitCommit.2

/-- What `log_repro` writes in a build with one of the five flags, `load_repro` of that build reads:
the instructions, the registers of the three classes and the mappings, and no value is stored
outside of its class. -/
theorem loadRepro_logRepro (b : Build) (heap : Nat → Bytes) (env : LogEnv b.toConfig)
    (items : List (ResultCpuPair b.toConfig)) (instrSeq : List UInt32)
    (regsBefore : Regs b.toRegConfig) (mappings : List Mapping) (caller : Regs b.toRegConfig)
    (wantsMidrs : Bool) (content : Text)
    (hflags : (b.VECTOR || b.FLOATS || b.CHECK_MEM || b.AUTO_MAP_MEM || b.META) = true)
    (hlen : instrSeq.length ≤ b.MAX_SEQ_LEN) (hmappings : ∀ m ∈ mappings, m.Whole)
    (hcontent : logRepro b env items instrSeq regsBefore mappings = some content) :
    ∃ repro, LoadRepro b heap caller wantsMidrs content (.returned repro) ∧
      repro.instrSeq = instrSeq ∧ repro.mappings = mappings ∧ repro.stray = [] ∧
      ∀ k ∈ [RegClass.gp, .fp, .vec], repro.regs k = regsBefore k := by
  obtain ⟨lines, hlines, rfl⟩ := Option.map_eq_some_iff.mp hcontent
  -- the text is cut into the lines that it was made of
  have hback : (unlines lines).lines = lines := lines_unlines (isLine_logRepro hlines)
  let s : Load b.toRegConfig := Load.init caller wantsMidrs (unlines lines)
  have hstart : s = s.goto .top lines := by
    show s = { s with loc := .top, lines := lines }
    rw [← hback]
    rfl
  have hsteps : Steps (loadStep b heap) _ _ := steps_logRepro hflags hmappings hlines s
    (by simpa [s, Load.init] using hlen)
  obtain ⟨midrs, hend⟩ : ∃ midrs, Stops (loadStep b heap) _ _ := stops_top_nil { s with
    instrSeq := s.instrSeq ++ instrSeq
    regs := loadedRegs s.regs regsBefore
    mappings := s.mappings ++ mappings
    parsedMask := some b.expectedMask }
  rw [← hstart] at hsteps
  exact ⟨_, (Steps.stops_iff hsteps _).mpr hend, rfl, rfl, rfl, loadedRegs_eq caller regsBefore⟩

/-- A riscv64 build with floating point and vector registers. -/
def Build.vector : Build where
  arch := .riscv64
  FLOATS := true
  VECTOR := true
  admitted := buildAdmits_vector
  META := false
  CHECK_MEM := true
  AUTO_MAP_MEM := true
  AUTO_MAP_MEM_RW_PROT := false
  MAX_SEQ_LEN := 2

def Mapping.sample : Mapping where
  start := 0x10000
  n := 8
  prot := 3
  val := [1, 2, 3, 4, 5, 6, 7, 8]

/-- A result that changed nothing. -/
def LoggedResult.unchanged {c : Config} (regs : Regs c.toRegConfig) : LoggedResult c where
  signum := 0
  siAddrr := 0
  siPc := 0
  siCode := 0
  regsResult := regs
  counters := ⟨0, 0⟩
  memChanges := []
  memChanges_le := Nat.zero_le _
  instrIdx := 0

theorem loadRepro_logRepro_sample :
    ∃ content repro,
      logRepro Build.vector (LogEnv.unknown _)
        [⟨LoggedResult.unchanged (Regs.fill _ 7), some ⟨0, 1, 2, 3, 4, 5⟩⟩]
        [0x13, 0x8067] (Regs.fill _ 7) [Mapping.sample] = some content ∧
      LoadRepro Build.vector (fun _ => []) (Regs.fill _ 0) true content (.returned repro) ∧
      repro.instrSeq = [0x13, 0x8067] ∧ repro.mappings = [Mapping.sample] ∧ repro.stray = [] ∧
      ∀ k ∈ [RegClass.gp, .fp, .vec], repro.regs k = Regs.fill Build.vector.toRegConfig 7 k := by
  have hcontent : ∃ content, logRepro Build.vector (LogEnv.unknown _)
      [⟨LoggedResult.unchanged (Regs.fill _ 7), some ⟨0, 1, 2, 3, 4, 5⟩⟩]
      [0x13, 0x8067] (Regs.fill _ 7) [Mapping.sample] = some content := ⟨_, rfl⟩
  obtain ⟨content, hcontent⟩ := hcontent
  have hwhole : ∀ m ∈ [Mapping.sample], m.Whole := by
    rw [List.forall_mem_singleton]
    exact ⟨rfl, rfl⟩
  obtain ⟨repro, hload⟩ := loadRepro_logRepro Build.vector (fun _ => []) (LogEnv.unknown _)
    [⟨LoggedResult.unchanged (Regs.fill _ 7), some ⟨0, 1, 2, 3, 4, 5⟩⟩] [0x13, 0x8067]
    (Regs.fill _ 7) [Mapping.sample] (Regs.fill _ 0) true content rfl (by decide) hwhole hcontent
  exact ⟨content, repro, hcontent, hload⟩

end RISCover
