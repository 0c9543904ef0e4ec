import RISCover.Repro.ServerLines
import RISCover.Repro.Terminates

/-!
# The client loads what the server logs

`load_repro` on the text of `Repro.to_yaml`. The input comes back under four conditions, and
`loadsBack_iff` says that there are no others: the sequence fits, behind the general registers
stands a section that their loop stops at, no content of a mapping is in single quotes, and there is
a flag. Without the second the loop over the general registers runs into the results and stores
their numbers past the end of its class.
-/

open Text Machine Yaml

namespace RISCover

variable {b : Build} {heap : Nat → Bytes}

/-! ## What is never taken back

A pass only adds to `stray`, and so does a run. So one store outside of a class spoils the whole
run. -/

/-- A pass over the mappings leaves its loop, takes a mapping or stops with an error. -/
theorem mappingsPass_cases (heap : Nat → Bytes) (s : Load b.toRegConfig) :
    mappingsPass b heap s = .next (s.leave .top) ∨
      (∃ rest mappings,
        mappingsPass b heap s = .next { s with lines := rest, mappings := mappings }) ∨
      ∃ e, mappingsPass b heap s = .stop (.exited e) := by
  unfold mappingsPass
  dsimp only
  split
  · exact Or.inl rfl
  · split
    · exact Or.inl rfl
    · split
      · grind
      · grind
      · split
        · grind
        · grind
        · split <;> grind

/-- A pass keeps what has been stored outside of a class, and may add to it. -/
theorem loadStep_stray {s s' : Load b.toRegConfig} (h : loadStep b heap s = .next s') :
    s.stray <+: s'.stray := by
  -- a store is inside its class, or goes onto the list
  have hstore : ∀ k i v, s.stray <+: (s.store k i v).stray := by
    intro k i v
    unfold Load.store
    split
    · exact List.prefix_rfl
    · exact List.prefix_append _ _
  have hcheck : ∀ t t' : Load b.toRegConfig, checkFlags b t = .next t' → t'.stray = t.stray := by
    intro t t' ht
    rw [checkFlags_eq_next ht]
    rfl
  unfold loadStep at h
  split at h
  · unfold topPass at h
    grind [Load.advance]
  · unfold instrSeqPass at h
    grind [Load.advance, Load.leave]
  · unfold regsPass at h
    grind [Load.advance, Load.leave]
  · unfold gpPass at h
    grind [Load.advance, Load.leave]
  · unfold vecPass at h
    grind [Load.advance, Load.leave]
  · unfold fpPass at h
    grind [Load.advance, Load.leave]
  · -- a mapping is read in one pass, which stores no register
    obtain hleave | ⟨rest, mappings, htake⟩ | ⟨e, hstop⟩ := mappingsPass_cases heap s
    · rw [hleave] at h
      cases h
      exact List.prefix_rfl
    · rw [htake] at h
      cases h
      exact List.prefix_rfl
    · rw [hstop] at h
      cases h
  · unfold flagsPass at h
    grind [Load.advance]
  · unfold midrsPass at h
    grind [Load.advance]

theorem loadStep_returned {s : Load b.toRegConfig} {repro : LoadedRepro b.toRegConfig}
    (h : loadStep b heap s = .stop (.returned repro)) : repro.stray = s.stray := by
  unfold loadStep at h
  split at h
  · unfold topPass checkFlags at h
    grind
  · unfold instrSeqPass at h
    grind
  · unfold regsPass at h
    grind
  · unfold gpPass at h
    grind
  · unfold vecPass at h
    grind
  · unfold fpPass at h
    grind
  · obtain hleave | ⟨rest, mappings, htake⟩ | ⟨e, hstop⟩ := mappingsPass_cases heap s
    · rw [hleave] at h
      cases h
    · rw [htake] at h
      cases h
    · rw [hstop] at h
      cases h
  · unfold flagsPass checkFlags at h
    grind
  · unfold midrsPass at h
    grind

/-- What has once been stored outside of a class is there at the end. -/
theorem stray_ne_nil_of_stops {s : Load b.toRegConfig} {repro : LoadedRepro b.toRegConfig}
    (hs : s.stray ≠ []) (h : Stops (loadStep b heap) s (.returned repro)) : repro.stray ≠ [] := by
  have hnext : ∀ s s' : Load b.toRegConfig, s.stray ≠ [] → loadStep b heap s = .next s' →
      s'.stray ≠ [] := by
    intro s s' hs hstep hnil
    exact hs (List.prefix_nil.mp (hnil ▸ loadStep_stray hstep))
  have hstop : ∀ (s : Load b.toRegConfig) r, s.stray ≠ [] → loadStep b heap s = .stop r →
      ∀ repro, r = .returned repro → repro.stray ≠ [] := by
    rintro s r hs hstep repro rfl
    rw [loadStep_returned hstep]
    exact hs
  exact Stops.of_invariant hnext hstop hs h repro rfl

/-! ## The input

The sequence comes back if it fits, and otherwise the parser exits. -/

namespace Repro

variable {repro : Repro b}

theorem scanInstr_instrLine (instr : UInt32) :
    (lstrip ("  - 0x".toList ++ hex instr.toNat)).head? = some '-' ∧
      scanInstr (lstrip ("  - 0x".toList ++ hex instr.toNat)) = some instr :=
  scanInstr_line (scanHex_hex (instr.toNat_lt.trans (by decide)))

theorem steps_instrLines (s : Load b.toRegConfig) (rest : List Text) :
    Steps (loadStep b heap)
      (s.goto .top ("input:".toList :: (indent (entryLines (repro.inp.toDict repro.dis)) ++ rest)))
      (s.goto .instrSeq (repro.instrLines ++
        (indent (entryLines repro.disEntries) ++ (repro.regsLines ++ rest)))) := by
  obtain ⟨t, -, hinput⟩ := repro.exists_inputLines
  rw [hinput, List.cons_append, List.append_assoc, List.append_assoc]
  exact Steps.head (loadStep_skipped rfl s _) (Steps.single (loadStep_instrSeq t s _))

/-- The parser gets to the registers with the instructions in hand. -/
theorem steps_input (s : Load b.toRegConfig)
    (hlen : s.instrSeq.length + repro.instrSeq.length ≤ b.MAX_SEQ_LEN) (rest : List Text) :
    Steps (loadStep b heap)
      (s.goto .top ("input:".toList :: (indent (entryLines (repro.inp.toDict repro.dis)) ++ rest)))
      ({ s with instrSeq := s.instrSeq ++ repro.instrSeq }.goto .top
        (repro.regsLines ++ rest)) := by
  obtain ⟨t, ls, hdis⟩ := repro.exists_disLines
  let s' : Load b.toRegConfig := { s with instrSeq := s.instrSeq ++ repro.instrSeq }
  refine (steps_instrLines s rest).trans ?_
  refine (steps_instrSeq scanInstr_instrLine repro.instrSeq s hlen _).trans ?_
  have hend : loadStep b heap
      (s'.goto .instrSeq (indent (entryLines repro.disEntries) ++ (repro.regsLines ++ rest))) =
        .next (s'.goto .top
          (indent (entryLines repro.disEntries) ++ (repro.regsLines ++ rest))) := by
    rw [hdis]
    exact loadStep_endInstrSeq t s' _
  exact Steps.head hend (steps_skipped repro.skipped_disEntries s' _)

end Repro

/-- A sequence that does not fit is refused. -/
theorem stops_instrSeq {line : UInt32 → Text}
    (hline : ∀ instr, (lstrip (line instr)).head? = some '-' ∧
      scanInstr (lstrip (line instr)) = some instr)
    (instrs : List UInt32) (s : Load b.toRegConfig) (hne : instrs ≠ [])
    (hlen : b.MAX_SEQ_LEN < s.instrSeq.length + instrs.length) (rest : List Text) :
    ∃ e, Stops (loadStep b heap) (s.goto .instrSeq (instrs.map line ++ rest)) (.exited e) := by
  induction instrs generalizing s with
  | nil => exact absurd rfl hne
  | cons instr instrs ih =>
      obtain ⟨hdash, hscan⟩ := hline instr
      -- the instruction that does not fit is this one or a later one
      by_cases hfull : b.MAX_SEQ_LEN ≤ s.instrSeq.length
      · refine ⟨.sequenceTooLong (s.instrSeq.length + 1), Stops.of_stop ?_⟩
        show instrSeqPass b (s.goto .instrSeq (line instr :: _)) = _
        simp only [instrSeqPass, Load.goto, hdash, ne_eq, not_true_eq_false, if_false, hscan]
        exact if_pos hfull
      · rw [not_le] at hfull
        rw [List.length_cons] at hlen
        have hrest : instrs ≠ [] := by
          rintro rfl
          rw [List.length_nil] at hlen
          omega
        obtain ⟨e, hstops⟩ := ih { s with instrSeq := s.instrSeq ++ [instr] } hrest (by
          simp only [List.length_append, List.length_singleton]
          omega)
        exact ⟨e, (stops_next (loadStep_instr hdash hscan hfull _)).mpr hstops⟩

/-! ## The registers

The loop over the general registers stops at `fp:`, `vec:` or `mappings:`, but not at `results:`.
The lines of the results are taken for registers then. -/

namespace Repro

variable {repro : Repro b}

theorem spells_regs (repro : Repro b) (r : Reg b.toRegConfig) :
    Spells (hex (r.val repro.regs).toNat) (r.val repro.regs) :=
  spells_hex _

/-- The first lines of the results, if there are any. -/
theorem exists_resultsLines (h : repro.resultToClients ≠ []) : ∃ n ls,
    entryLines repro.resultsToDict =
      "results:".toList :: "- result:".toList :: ("    signum: 0x".toList ++ hex n) :: ls := by
  obtain ⟨p, results, hresults⟩ := List.exists_cons_of_ne_nil h
  refine ⟨p.1.signum, ?_⟩
  rw [resultsToDict, if_neg h, hresults, entryLines_singleton, List.map_cons, Node.under, itemLines,
    Node.lines, entryLines, Result.toDict, List.append_assoc, List.append_assoc, List.append_assoc,
    List.cons_append, Node.under, entryLines]
  exact ⟨_, rfl⟩

/-- The parser gets from the registers to the mappings if the loop over the general registers ends
where they do. -/
theorem steps_regs
    (hends : b.FLOATS = true ∨ b.VECTOR = true ∨ repro.resultToClients = [])
    (s : Load b.toRegConfig) (t : Text) (rest : List Text) :
    Steps (loadStep b heap)
      (s.goto .top (repro.regsLines ++
        (entryLines repro.resultsToDict ++ ("mappings:".toList ++ t) :: rest)))
      ({ s with regs := loadedRegs s.regs repro.regs }.goto .mappings rest) := by
  let s' : Load b.toRegConfig := { s with regs := loadedRegs s.regs repro.regs }
  -- without results the mappings stand behind the registers, and they stop every loop
  by_cases hresults : repro.resultToClients = []
  · have hnil : entryLines repro.resultsToDict = [] := by
      rw [resultsToDict, if_pos hresults]
      rfl
    rw [hnil, List.nil_append]
    refine (steps_regsLines repro.spells_regs (endsRegs_mappings t)
      (Or.inr (Or.inr (endsGp_mappings t))) s rest).trans ?_
    exact Steps.single (loadStep_mappings t s' rest)
  · obtain ⟨n, ls, hlines⟩ := exists_resultsLines hresults
    have hskipped := repro.skipped_results
    have hstop : endsRegs "results:".toList = true := rfl
    have hends' := (or_assoc.mpr hends).resolve_right hresults
    have hregs : Steps (loadStep b heap) _ _ := steps_regsLines repro.spells_regs hstop
      (hends'.imp_right Or.inl) s ("- result:".toList :: ("    signum: 0x".toList ++ hex n) ::
        (ls ++ ("mappings:".toList ++ t) :: rest))
    refine Steps.trans ?_ ((steps_skipped hskipped s' (("mappings:".toList ++ t) :: rest)).trans
      (Steps.single (loadStep_mappings t s' rest)))
    rw [hlines]
    exact hregs

/-- Otherwise the loop takes the signal of the first result for a register. -/
theorem stray_of_stops (hfloats : b.FLOATS = false) (hvector : b.VECTOR = false)
    (hresults : repro.resultToClients ≠ []) {s : Load b.toRegConfig} {rest : List Text}
    {loaded : LoadedRepro b.toRegConfig}
    (h : Stops (loadStep b heap)
      (s.goto .top (repro.regsLines ++ (entryLines repro.resultsToDict ++ rest)))
      (.returned loaded)) :
    loaded.stray ≠ [] := by
  obtain ⟨n, ls, hlines⟩ := exists_resultsLines hresults
  let s₁ : Load b.toRegConfig := { s with regs := s.regs.setClass .gp (repro.regs .gp) }
  have hother : otherLines b (fun r => hex (r.val repro.regs).toNat) = [] := by
    simp [otherLines, vecLines, hfloats, hvector]
  have hgp : Steps (loadStep b heap) _ _ := steps_gpLines repro.spells_regs s
    (entryLines repro.resultsToDict ++ rest)
  rw [hother, List.nil_append, hlines] at hgp
  -- neither of the first two lines has a number behind its colon
  have hpast : ∀ line ∈ ["results:".toList, "- result:".toList], ∀ rest : List Text,
      loadStep b heap (s₁.goto (.gp (b.count .gp)) (line :: rest)) =
        .next (s₁.goto (.gp (b.count .gp)) rest) := by
    simp only [List.forall_mem_cons]
    exact ⟨fun _ => rfl, fun _ => rfl, List.forall_mem_nil _⟩
  rw [List.forall_mem_cons, List.forall_mem_singleton] at hpast
  have hscan : scanReg (lstrip ("    signum: 0x".toList ++ hex n)) =
      (scanHex ('0' :: 'x' :: hex n)).bind fun p => some p.1 := rfl
  rw [scanHex_0x (hex_ne_nil n) (isHex_hex n), Option.bind_some] at hscan
  have hne : lstrip ("    signum: 0x".toList ++ hex n) ≠ [] := List.cons_ne_nil _ _
  have hstore : ∀ rest, loadStep b heap (s₁.goto (.gp (b.count .gp))
      (("    signum: 0x".toList ++ hex n) :: rest)) = .next _ := fun rest =>
    loadStep_gp hne rfl hscan s₁ (b.count .gp) rest
  have hsteps := hgp.trans (Steps.head (hpast.1 _) (Steps.head (hpast.2 _)
    (Steps.single (hstore (ls ++ rest)))))
  rw [← hlines] at hsteps
  apply stray_ne_nil_of_stops _ ((Steps.stops_iff hsteps _).mp h)
  simp [Load.goto, Load.store]

/-! ## The mappings

PyYAML quotes a text that would read as a number. The client takes double quotes off, but these are
single ones. -/

/-- The content of a mapping reads as a text, so that it stands there without quotes. -/
def Unquoted (m : Mapping) : Prop := m.n = 0 ∨ isStr (logWords m) = true

theorem valDigits_quoted {m : Mapping} (h : Unquoted m) :
    valDigits (' ' :: quoted (logWords m)) = logWords m := by
  have hwords := isHex_logWords m
  have hplain : valDigits (' ' :: logWords m) = logWords m := by
    have hstrip : lstrip (' ' :: logWords m) = logWords m := by
      rw [lstrip_space]
      exact List.dropWhile_eq_self_iff.mpr fun hne => by
        rw [not_isSpace_of_isHex (hwords _ (List.getElem_mem hne))]
        exact Bool.false_ne_true
    have hhead : (logWords m).head? ≠ some '"' := by
      intro hhead
      have hhex := hwords '"' (List.mem_of_mem_head? hhead)
      exact absurd hhex (by decide)
    have hscan := scan0x_digits (t := []) hwords (by decide)
    rw [List.append_nil] at hscan
    rw [valDigits, hstrip]
    simp only [if_neg hhead, hscan]
    exact List.takeWhile_eq_self_iff.mpr hwords
  by_cases hstr : isStr (logWords m) = true
  · rw [quoted, if_pos hstr, hplain]
  · -- the empty text is quoted, but then there is nothing to be read
    have hn : m.n = 0 := h.resolve_right hstr
    have hnil : logWords m = [] := by
      apply List.eq_nil_of_length_eq_zero
      rw [length_logWords, hn]
      rfl
    rw [hnil]
    decide

/-- In single quotes no digits are found. -/
theorem valDigits_of_not_unquoted {m : Mapping} (h : ¬Unquoted m) :
    valDigits (' ' :: quoted (logWords m)) = [] := by
  rw [Unquoted, not_or] at h
  rw [quoted, if_neg h.2]
  rfl

theorem steps_mappingLines (hwhole : ∀ m ∈ repro.mappings, m.Whole)
    (h : ∀ m ∈ repro.mappings, Unquoted m) (s : Load b.toRegConfig) (rest : List Text) :
    Steps (loadStep b heap)
      (s.goto .mappings
        (repro.mappings.flatMap (mappingLines fun m => quoted (logWords m)) ++ rest))
      ({ s with mappings := s.mappings ++ repro.mappings }.goto .mappings rest) := by
  apply steps_mappings
  intro m hm s rest
  exact loadStep_mappingLines (hwhole m hm) (valDigits_quoted (h m hm)) s rest

/-- The first mapping in quotes is the end. -/
theorem stops_mappingLines {mappings : List Mapping} (hwhole : ∀ m ∈ mappings, m.Whole)
    (h : ∃ m ∈ mappings, ¬Unquoted m) (s : Load b.toRegConfig) (rest : List Text) :
    Stops (loadStep b heap)
      (s.goto .mappings (mappings.flatMap (mappingLines fun m => quoted (logWords m)) ++ rest))
      (.exited .assertion) := by
  induction mappings generalizing s with
  | nil =>
      obtain ⟨m, hm, -⟩ := h
      exact absurd hm List.not_mem_nil
  | cons m mappings ih =>
      rw [List.forall_mem_cons] at hwhole
      rw [List.flatMap_cons, List.append_assoc]
      -- the first mapping with quotes stops the parser, those in front of it are read
      by_cases hm : Unquoted m
      · have hrest : ∃ m ∈ mappings, ¬Unquoted m := by
          obtain ⟨m', hm', hquoted⟩ := h
          obtain rfl | hmem := List.mem_cons.mp hm'
          · exact absurd hm hquoted
          · exact ⟨m', hmem, hquoted⟩
        exact (stops_next (loadStep_mappingLines hwhole.1 (valDigits_quoted hm) s _)).mpr
          (ih hwhole.2 hrest _)
      · apply Stops.of_stop
        apply loadStep_mappingLines_stop hwhole.1.dvd
        rw [valDigits_of_not_unquoted hm]
        rw [Unquoted, not_or] at hm
        have hn : m.n.toNat ≠ 0 := fun hzero => hm.1 (UInt64.toNat_inj.mp hzero)
        simpa using hn

/-! ## The flags

An empty list of flags is written as `[]`, on which the loop over the text never goes on. -/

theorem loadStep_endFlags_nil {s : Load b.toRegConfig} (hs : s.parsedMask = some b.expectedMask) :
    loadStep b heap (s.goto .flags []) = .next (s.goto .top []) := by
  show flagsPass b (s.goto .flags []) = _
  simp [flagsPass, Load.goto, checkFlags, hs, Load.leave]

/-- From the flags the parser gets to the end of the text. -/
theorem steps_flagLines (s : Load b.toRegConfig) :
    Steps (loadStep b heap)
      (s.goto .top (("flags:".toList :: repro.flagLines) ++ entryLines repro.coreEntries))
      ({ s with parsedMask := some b.expectedMask }.goto .top []) := by
  let s₁ : Load b.toRegConfig := { s with parsedMask := some ∅ }
  let s₂ : Load b.toRegConfig := { s with parsedMask := some b.expectedMask }
  have hhead : loadStep b heap (s.goto .top
      (("flags:".toList :: repro.flagLines) ++ entryLines repro.coreEntries)) =
        .next (s₁.goto .flags (repro.flagLines ++ entryLines repro.coreEntries)) := rfl
  have hmask : Steps (loadStep b heap) _ _ :=
    steps_flags repro.flags ∅ s₁ (entryLines repro.coreEntries) rfl
  rw [Finset.empty_union, repro.flags_eq] at hmask
  refine Steps.head hhead (hmask.trans ?_)
  rw [repro.coreLines_eq]
  cases repro.core with
  | none => exact Steps.single (loadStep_endFlags_nil (s := s₂) rfl)
  | some core =>
      have hdash : (lstrip ("core: ".toList ++ core.1)).head? ≠ some '-' := by
        show some 'c' ≠ some '-'
        decide
      exact Steps.head (loadStep_endFlags hdash (s := s₂) rfl [])
        (Steps.single (loadStep_skipped (skipped_append rfl core.1) s₂ []))

/-! ## The whole text

Each condition of `Loadable` rules out one of the failures above. -/

/-- What has to be so for the client to get the input back. -/
structure Loadable (repro : Repro b) : Prop where
  fits : repro.instrSeq.length ≤ b.MAX_SEQ_LEN
  /-- Behind the general registers stands something else than the results. -/
  ends : b.FLOATS = true ∨ b.VECTOR = true ∨ repro.resultToClients = []
  unquoted : ∀ m ∈ repro.mappings, Unquoted m
  flagged : b.expectedMask ≠ ∅

/-- `load_repro` returns with the input of the reproducer, and nothing is stored outside of a
class. -/
def LoadsBack (repro : Repro b) (heap : Nat → Bytes) (caller : Regs b.toRegConfig)
    (wantsMidrs : Bool) : Prop :=
  ∃ loaded, LoadRepro b heap caller wantsMidrs repro.toYaml (.returned loaded) ∧
    loaded.instrSeq = repro.instrSeq ∧ loaded.mappings = repro.mappings ∧ loaded.stray = [] ∧
    ∀ k ∈ [RegClass.gp, .fp, .vec], loaded.regs k = repro.regs k

/-- The start of the parser, with the sections of the document in its hands. -/
theorem exists_init (repro : Repro b) (caller : Regs b.toRegConfig) (wantsMidrs : Bool) : ∃ t tail,
    Load.init caller wantsMidrs repro.toYaml =
      (Load.init caller wantsMidrs repro.toYaml).goto .top
        ("input:".toList :: (indent (entryLines (repro.inp.toDict repro.dis)) ++
          (entryLines repro.resultsToDict ++ ("mappings:".toList ++ t) ::
            (repro.mappings.flatMap (mappingLines fun m => quoted (logWords m)) ++
              (entryLines repro.tailEntries ++ (tail ++ entryLines repro.coreEntries)))))) ∧
    tail =
      if repro.flags = [] then ["flags: []".toList] else "flags:".toList :: repro.flagLines := by
  obtain ⟨t, hmappings⟩ := repro.exists_mappingsLines
  refine ⟨t, _, ?_, rfl⟩
  have hlines := repro.lines_toYaml
  rw [repro.lines_eq, hmappings, repro.flagsLines_eq, List.cons_append] at hlines
  rw [← hlines]
  rfl

section Run

variable {caller : Regs b.toRegConfig} {wantsMidrs : Bool}

/-- With the list of flags empty the parser does not come to an end. -/
theorem not_stops_flagLines (hmask : b.expectedMask = ∅) (s : Load b.toRegConfig)
    (rest : List Text) (e : LoadEnd b.toRegConfig) :
    ¬Stops (loadStep b heap) (s.goto .top ("flags: []".toList :: rest)) e :=
  not_stops_of_holds hmask ⟨rfl, _, _, rfl, by decide, by decide⟩ e

theorem Loadable.loadsBack (h : repro.Loadable) : repro.LoadsBack heap caller wantsMidrs := by
  obtain ⟨t, tail, hinit, htail⟩ := repro.exists_init caller wantsMidrs
  obtain ⟨l, ls, htailLines, hdash, hskipped⟩ := repro.exists_tailLines
  have hflags : repro.flags ≠ [] := by
    intro hnil
    have hmask := repro.flags_eq
    rw [hnil, List.toFinset_nil] at hmask
    exact h.flagged hmask.symm
  rw [if_neg hflags] at htail
  subst htail
  -- the states between the sections
  let s := Load.init caller wantsMidrs repro.toYaml
  let s₁ : Load b.toRegConfig := { s with instrSeq := repro.instrSeq }
  let s₂ : Load b.toRegConfig := { s₁ with regs := loadedRegs caller repro.regs }
  let s₃ : Load b.toRegConfig := { s₂ with mappings := repro.mappings }
  let s₄ : Load b.toRegConfig := { s₃ with parsedMask := some b.expectedMask }
  obtain ⟨midrs, hend⟩ : ∃ midrs, Stops (loadStep b heap) _ _ := stops_top_nil s₄
  have hsteps : Steps (loadStep b heap) s (s₄.goto .top []) := by
    show Steps _ (Load.init caller wantsMidrs repro.toYaml) _
    rw [hinit]
    refine (steps_input s (by simpa [s, Load.init] using h.fits) _).trans ?_
    refine (steps_regs h.ends s₁ t _).trans ?_
    refine (steps_mappingLines repro.whole h.unquoted s₂ _).trans ?_
    rw [htailLines]
    refine Steps.head (loadStep_endMappings hdash s₃ _) ?_
    exact (steps_skipped hskipped s₃ _).trans (steps_flagLines s₃)
  exact ⟨_, (Steps.stops_iff hsteps _).mpr hend, rfl, rfl, rfl,
    loadedRegs_eq caller repro.regs⟩

theorem LoadsBack.loadable (h : repro.LoadsBack heap caller wantsMidrs) : repro.Loadable := by
  obtain ⟨loaded, hload, -, -, hstray, -⟩ := h
  obtain ⟨t, tail, hinit, htail⟩ := repro.exists_init caller wantsMidrs
  obtain ⟨l, ls, htailLines, hdash, hskipped⟩ := repro.exists_tailLines
  let s := Load.init caller wantsMidrs repro.toYaml
  let s₁ : Load b.toRegConfig := { s with instrSeq := repro.instrSeq }
  let s₂ : Load b.toRegConfig := { s₁ with regs := loadedRegs caller repro.regs }
  let s₃ : Load b.toRegConfig := { s₂ with mappings := repro.mappings }
  rw [LoadRepro, hinit] at hload
  -- each condition is needed for the run to get past its section
  have hfits : repro.instrSeq.length ≤ b.MAX_SEQ_LEN := by
    by_contra hlong
    rw [not_le] at hlong
    have hne : repro.instrSeq ≠ [] := by
      intro hnil
      rw [hnil, List.length_nil] at hlong
      exact absurd hlong (Nat.not_lt_zero _)
    obtain ⟨e, hexit⟩ := stops_instrSeq scanInstr_instrLine repro.instrSeq s hne
      (by simpa [s, Load.init] using hlong) _
    cases Stops.unique ((Steps.stops_iff (steps_instrLines s _) _).mp hload) hexit
  have hlen : s.instrSeq.length + repro.instrSeq.length ≤ b.MAX_SEQ_LEN := by
    simpa [s, Load.init] using hfits
  have hinput := (Steps.stops_iff (steps_input s hlen _) _).mp hload
  have hends : b.FLOATS = true ∨ b.VECTOR = true ∨ repro.resultToClients = [] := by
    by_contra hnot
    simp only [not_or, Bool.not_eq_true] at hnot
    exact stray_of_stops hnot.1 hnot.2.1 hnot.2.2 hinput hstray
  have hregs := (Steps.stops_iff (steps_regs hends s₁ t _) _).mp hinput
  have hunquoted : ∀ m ∈ repro.mappings, Unquoted m := by
    by_contra hnot
    push Not at hnot
    cases hregs.unique (stops_mappingLines repro.whole hnot s₂ _)
  refine ⟨hfits, hends, hunquoted, fun hmask => ?_⟩
  have hmappings := (Steps.stops_iff (steps_mappingLines repro.whole hunquoted s₂ _) _).mp hregs
  have hflags : repro.flags = [] := by
    rw [← List.toFinset_eq_empty_iff, repro.flags_eq, hmask]
  rw [if_pos hflags] at htail
  subst htail
  rw [htailLines] at hmappings
  have htop := (stops_next (loadStep_endMappings hdash s₃ _)).mp hmappings
  have hempty := (Steps.stops_iff (steps_skipped hskipped s₃ _) _).mp htop
  exact not_stops_flagLines hmask s₃ _ _ hempty

end Run

end Repro

/-- The client gets back the input of a reproducer of the server under exactly these conditions. -/
theorem loadsBack_iff (b : Build) (heap : Nat → Bytes) (repro : Repro b)
    (caller : Regs b.toRegConfig) (wantsMidrs : Bool) :
    repro.LoadsBack heap caller wantsMidrs ↔ repro.Loadable :=
  ⟨Repro.LoadsBack.loadable, Repro.Loadable.loadsBack⟩

/-! ## A build for integers

A reproducer with results, on a build without floats and vectors. -/

/-- A riscv64 build without floating point and vector registers. -/
def Build.integer : Build where
  arch := .riscv64
  FLOATS := false
  VECTOR := false
  admitted := buildAdmits_integer
  META := true
  CHECK_MEM := false
  AUTO_MAP_MEM := false
  AUTO_MAP_MEM_RW_PROT := false
  MAX_SEQ_LEN := 1

def ClientMeta.sample (hostname : OneLine) : ClientMeta where
  hostname := hostname
  numCpus := 4
  nCore := 0
  microarchitecture := ⟨0x710, ⟨"rv64".toList, by decide⟩, 4, 1, 1, []⟩
  tags := []
  vecSize := none
  sveMaxSize := none
  smeMaxSize := none

/-- What a client reports about an instruction, and where it stopped. -/
def Result.sample (signum siPc siCode : Nat) (client : ClientMeta) : Result ClientMeta where
  signum := signum
  cycleDiff := none
  instretDiff := none
  regs := Dict.empty
  siAddr := 0
  siPc := siPc
  siCode := siCode
  client := client
  realClient := client
  memDiffs := none

/-- An instruction that one of two clients knows. -/
def Repro.sample : Repro Build.integer where
  inp :=
    { InputWithValues.gpInput with
      instrSeq := [0x0000000b]
      seqLen_le := le_rfl }
  carries := ⟨rfl, rfl⟩
  dis := ⟨[⟨"unknown".toList, by decide⟩], [⟨"unknown".toList, by decide⟩],
    [⟨"unknown".toList, by decide⟩]⟩
  resultToClients :=
    let lab1 := ClientMeta.sample ⟨"lab1".toList, by decide⟩
    let lab2 := ClientMeta.sample ⟨"lab2".toList, by decide⟩
    [(Result.sample SIGILL 0x10000 1 lab1, [lab1]), (Result.sample 0 0 0 lab2, [lab2])]
  regs_subset := by simp [Result.sample, Dict.keys, Dict.empty]
  mappings := []
  whole := List.forall_mem_nil _
  generator := none
  counter := some 11
  flags := [.META]
  flags_nodup := List.nodup_singleton _
  flags_eq := rfl
  core := none

/-- The signal of the first client ends up behind the general registers. -/
theorem sample_not_loadsBack :
    ¬Repro.sample.LoadsBack (fun _ => []) (Regs.fill _ 0) false := by
  intro h
  obtain hfloats | hvector | hresults := h.loadable.ends
  · cases hfloats
  · cases hvector
  · cases hresults

end RISCover
