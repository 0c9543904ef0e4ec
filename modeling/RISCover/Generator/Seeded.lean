import RISCover.Generator.Faults

/-!
# Generation from a seed

Two set-ups of the generator with one seed, in memory with different contents. What is drawn is the
same; what is not overwritten shows in the input: on riscv64 with `VECTOR` the floating point
registers, and `num_regs`, which `random_difffuzz_generator_init` leaves as it is.
-/

open Words Runs

namespace RISCover

/-! ## Fields of a word

The fields of a template lie apart, so the word can be told from the bits of its fields and the
other way round. -/

/-- The fields of a template lie side by side in the word, and its value leaves open what they leave
open. -/
structure Instruction.Separated (templ : Instruction) : Prop where
  range : ∀ f ∈ templ.fields, f.rangeLow ≤ f.rangeHigh ∧ f.rangeHigh < 32 ∧ f.bits ≤ 30
  disjoint : templ.fields.Pairwise fun f g => f.rangeHigh < g.rangeLow ∨ g.rangeHigh < f.rangeLow
  clear : ∀ f ∈ templ.fields, templ.value &&& f.invertedMask = 0

theorem toNat_shiftOne_sub_one {bits : Nat} (h : bits ≤ 30) :
    (shiftOne bits - 1).toNat = 2 ^ bits - 1 := by
  have hpow : 2 ^ bits < 2 ^ 32 := Nat.pow_lt_pow_right (by decide) (by omega)
  have hbits : bits % 2 ^ 32 % 32 = bits := by omega
  have hone : (shiftOne bits).toNat = 2 ^ bits := by
    rw [shiftOne, UInt32.toNat_shiftLeft, UInt32.toNat_ofNat', hbits, UInt32.toNat_one,
      Nat.one_shiftLeft, Nat.mod_eq_of_lt hpow]
  have hle : (1 : UInt32) ≤ shiftOne bits := by
    rw [UInt32.le_iff_toNat_le, hone]
    exact Nat.two_pow_pos bits
  rw [UInt32.toNat_sub_of_le _ _ hle, hone, UInt32.toNat_one]

/-- The open bits of a field lie in its range, where its mask is clear. -/
theorem testBit_invertedMask {f : InstrField} (hlow : f.rangeLow < 32) (hbits : f.bits ≤ 30)
    {i : Nat} (h : f.invertedMask.toNat.testBit i = true) :
    f.rangeLow ≤ i ∧ i < f.rangeLow + f.bits ∧
      f.mask.toNat.testBit (i - f.rangeLow) = false := by
  have hshift : f.rangeLow % 2 ^ 32 % 32 = f.rangeLow := by omega
  rw [InstrField.invertedMask, UInt32.toNat_shiftLeft, UInt32.toNat_ofNat', hshift,
    Nat.testBit_mod_two_pow, Nat.testBit_shiftLeft, UInt32.toNat_and, Nat.testBit_and,
    toNat_shiftOne_sub_one hbits, Nat.testBit_two_pow_sub_one] at h
  simp only [Bool.and_eq_true, decide_eq_true_eq] at h
  obtain ⟨-, hle, hnot, hlt⟩ := h
  refine ⟨hle, by omega, ?_⟩
  rw [← Bool.not_eq_true]
  intro hmask
  have hand : (~~~f.mask &&& f.mask).toNat.testBit (i - f.rangeLow) = true := by
    rw [UInt32.toNat_and, Nat.testBit_and, hnot, hmask]
    rfl
  rw [UInt32.not_and_self, UInt32.toNat_zero, Nat.zero_testBit] at hand
  cases hand

theorem Instruction.Separated.invertedMask_and {templ : Instruction} (h : templ.Separated)
    {f g : InstrField} (hf : f ∈ templ.fields) (hg : g ∈ templ.fields)
    (hdisj : f.rangeHigh < g.rangeLow ∨ g.rangeHigh < f.rangeLow) :
    f.invertedMask &&& g.invertedMask = 0 := by
  obtain ⟨hflow, hfhigh, hfbits⟩ := h.range f hf
  obtain ⟨hglow, hghigh, hgbits⟩ := h.range g hg
  apply and_eq_zero
  intro i hfi hgi
  have hfrange := testBit_invertedMask (by omega) hfbits hfi
  have hgrange := testBit_invertedMask (by omega) hgbits hgi
  simp only [InstrField.bits] at hfrange hgrange
  omega

/-- What is drawn for the fields of a template goes into bits of their own. -/
theorem Instruction.Separated.separate {templ : Instruction} (h : templ.Separated)
    {ds : List FieldDraw} (hds : (ds.map FieldDraw.field).Sublist templ.fields)
    (numRegs : UInt32) :
    Separate (fun d : FieldDraw => d.field.invertedMask) (FieldDraw.bits numRegs) templ.value
      ds := by
  have hmem : ∀ d ∈ ds, d.field ∈ templ.fields := fun d hd =>
    hds.subset (List.mem_map_of_mem hd)
  constructor
  · intro d hd
    rw [FieldDraw.bits, InstrField.place, UInt32.and_assoc, UInt32.and_self]
  · have hpairs := List.pairwise_map.mp (h.disjoint.sublist hds)
    exact hpairs.imp_of_mem fun hd he hdisj =>
      h.invertedMask_and (hmem _ hd) (hmem _ he) hdisj
  · exact fun d hd => h.clear d.field (hmem d hd)

theorem InstrDraw.encoded_eq_iff {arch : Arch} {table : InstructionTable} {d : InstrDraw}
    (hd : d.From arch table) (hsep : ∀ templ ∈ table.instructions, templ.Separated)
    (numRegs numRegs' : UInt32) :
    d.encoded numRegs = d.encoded numRegs' ↔
      ∀ f ∈ d.fields, f.bits numRegs = f.bits numRegs' :=
  ((hsep _ hd.mem).separate hd.fields.sublist numRegs).orAll_eq_iff
    ((hsep _ hd.mem).separate hd.fields.sublist numRegs')

/-! ## The registers that are run

What the runner reads of the register file, when `fill` has drawn for all classes but those that the
build leaves out. -/

theorem getVector_eq_of_count_eq_zero {c : RegConfig} {k : RegClass} (h : c.count k = 0)
    (a b : Vector (RegVal k) (c.count k)) : a = b := by
  ext i hi
  omega

/-- Only the floating point registers can show what was in memory before. -/
theorem zeroControl_fill_eq_iff {c : RegConfig} (d : DrawnRegs c) (regs regs' : Regs c) :
    zeroControl c (d.fill regs) = zeroControl c (d.fill regs') ↔
      (c.arch = .riscv64 → c.VECTOR = true → regs .fp = regs' .fp) := by
  constructor
  · intro h harch hvec
    have hfp := congrFun h .fp
    simpa [zeroControl, DrawnRegs.fill, hvec] using hfp
  · intro h
    funext k
    cases k with
    | gp => rfl
    | pstate =>
        simp only [zeroControl, DrawnRegs.fill]
        split
        next => rfl
        next harch => exact getVector_eq_of_count_eq_zero (by simp [RegConfig.count, harch]) _ _
    | fcsr =>
        simp only [zeroControl, DrawnRegs.fill]
        split
        next => rfl
        next hfcsr =>
          exact getVector_eq_of_count_eq_zero (by simpa [RegConfig.count] using hfcsr) _ _
    | fpsr =>
        simp only [zeroControl, DrawnRegs.fill]
        split
        next => rfl
        next hfpsr =>
          exact getVector_eq_of_count_eq_zero (by simpa [RegConfig.count] using hfpsr) _ _
    | fp =>
        simp only [zeroControl, DrawnRegs.fill]
        split
        next => rfl
        next hfp =>
          cases hfloats : c.FLOATS with
          | false => exact getVector_eq_of_count_eq_zero (by simp [RegConfig.count, hfloats]) _ _
          | true =>
              -- both flags: only riscv64 admits them
              have hvec : c.VECTOR = true := by simpa [hfloats] using hfp
              have hadmitted := c.admitted
              cases harch : c.arch with
              | riscv64 => exact h harch hvec
              | aarch64 => simp [harch, hfloats, hvec, buildAdmits] at hadmitted
    | vec =>
        simp only [zeroControl, DrawnRegs.fill]
        split
        next => rfl
        next hvec => exact getVector_eq_of_count_eq_zero (by simp [RegConfig.count, hvec]) _ _

/-! ## Two set-ups

The draws are the same, so only `num_regs` and the registers that nothing is drawn for can differ.
-/

/-- Two runs generate the same input, or both stop at an assertion of the generator; neither divides
by zero or draws from an empty range. -/
def Reproducible {c : RegConfig} (x y : Except Fault (GeneratedInput c)) : Prop :=
  match x, y with
  | .ok a, .ok b => a.instrSeq = b.instrSeq ∧ ∀ r : Reg c, r.val a.regs = r.val b.regs
  | .error .assertion, .error .assertion => True
  | _, _ => False

/-- The seed decides the input whatever is in memory: there is something to draw, the registers that
the configuration leaves out are alike, and no register field that the seed's draws reach depends on
which `num_regs` is in memory. -/
structure SeedDecides (b : GeneratorBuild) (prior prior' : PriorContents b.config)
    (seed seqNum : UInt64) (seqLen : Nat) : Prop where
  instructions : seqLen = 0 ∨ b.table.instructions ≠ []
  fp : b.config.arch = .riscv64 → b.config.VECTOR = true → prior.regs .fp = prior'.regs .fp
  registers : ∀ d, b.seedDraws seed seqNum seqLen = .ok d → ∀ i ∈ d.instrs, ∀ f ∈ i.fields,
    f.bits prior.generator.numRegs = f.bits prior'.generator.numRegs

variable {b : GeneratorBuild}

/-- What is known of every run is known of the draws of a seed. -/
theorem gives_seedDraws {E : Fault → Prop} {Q : SeedDraws b.config → Prop} {seqLen : Nat}
    (h : Gives E Q (b.drawSeed seqLen)) (seed seqNum : UInt64) :
    (∀ d, b.seedDraws seed seqNum seqLen = .ok d → Q d) ∧
      ∀ e, b.seedDraws seed seqNum seqLen = .error e → E e := by
  rw [GeneratorBuild.seedDraws]
  cases hrun : b.drawSeed seqLen (rngInit ⟨Vector.replicate _ 0, 0⟩ (seqNum ^^^ seed)) with
  | error e =>
      refine ⟨fun d hd => (by cases hd), fun e' he => ?_⟩
      obtain rfl : e = e' := by simpa using he
      exact h.of_error hrun
  | ok p =>
      refine ⟨fun d hd => ?_, fun e he => (by cases he)⟩
      obtain rfl : p.1 = d := by simpa using hd
      exact h.of_ok hrun

theorem seedDraws_ok {seed seqNum : UInt64} {seqLen : Nat} {d : SeedDraws b.config}
    (hne : seqLen = 0 ∨ b.table.instructions ≠ [])
    (hd : b.seedDraws seed seqNum seqLen = .ok d) :
    ∀ i ∈ d.instrs, i.From b.config.arch b.table :=
  (gives_seedDraws (gives_drawSeed (E := fun _ => True) b hne fun _ => trivial) seed seqNum).1 d hd

theorem seedDraws_error {seed seqNum : UInt64} {seqLen : Nat} {e : Fault}
    (hne : seqLen = 0 ∨ b.table.instructions ≠ [])
    (hd : b.seedDraws seed seqNum seqLen = .error e) :
    e = .assertion ∧ b.config.arch = .aarch64 := by
  have hgives := gives_drawSeed (E := fun e => e = .assertion ∧ b.config.arch = .aarch64) b hne (by
    rintro ⟨templ, -, f, -, hwidth⟩
    refine ⟨rfl, ?_⟩
    by_contra harch
    exact hwidth fun h => absurd h harch)
  exact (gives_seedDraws hgives seed seqNum).2 e hd

/-- Without instructions nothing is drawn. -/
theorem seedDraws_empty {seed seqNum : UInt64} {seqLen : Nat} (hlen : seqLen ≠ 0)
    (hempty : b.table.instructions = []) :
    b.seedDraws seed seqNum seqLen = .error .emptyRange := by
  obtain ⟨hok, herror⟩ := gives_seedDraws (gives_drawSeed_empty b hlen hempty) seed seqNum
  cases hd : b.seedDraws seed seqNum seqLen with
  | error e => rw [herror e hd]
  | ok d => exact (hok d hd).elim

/-- As many instructions are drawn as the sequence is to have. -/
theorem length_instrs {seed seqNum : UInt64} {seqLen : Nat} {d : SeedDraws b.config}
    (hd : b.seedDraws seed seqNum seqLen = .ok d) : d.instrs.length = seqLen := by
  have hgives : Gives (fun _ => True) (fun d => d.instrs.length = seqLen) (b.drawSeed seqLen) :=
    (gives_drawRegs b.config b.map).bind fun _ _ =>
      Gives.bind (gives_trivial _) fun instrs _ => gives_pure instrs.length_toList
  exact (gives_seedDraws hgives seed seqNum).1 d hd

/-- If the draws stop, they stop at an assertion, which nothing in memory decides. -/
theorem seedDecides_of_error {prior prior' : PriorContents b.config} {seed seqNum : UInt64}
    {seqLen : Nat} {e : Fault} (hne : seqLen = 0 ∨ b.table.instructions ≠ [])
    (hd : b.seedDraws seed seqNum seqLen = .error e) :
    SeedDecides b prior prior' seed seqNum seqLen where
  instructions := hne
  fp := by
    intro hriscv
    rw [(seedDraws_error hne hd).2] at hriscv
    cases hriscv
  registers := by
    intro d hok
    rw [hd] at hok
    cases hok

/-- One set of draws and what was in memory in two places give one input. -/
theorem seedDecides_iff_of_ok (hsep : ∀ templ ∈ b.table.instructions, templ.Separated)
    {prior prior' : PriorContents b.config} {seed seqNum : UInt64} {seqLen : Nat}
    {d : SeedDraws b.config} (hne : seqLen = 0 ∨ b.table.instructions ≠ [])
    (hd : b.seedDraws seed seqNum seqLen = .ok d) :
    SeedDecides b prior prior' seed seqNum seqLen ↔
      d.instrs.map (InstrDraw.encoded prior.generator.numRegs) =
          d.instrs.map (InstrDraw.encoded prior'.generator.numRegs) ∧
        ∀ r : Reg b.config, r.val (zeroControl b.config (d.regs.fill prior.regs)) =
          r.val (zeroControl b.config (d.regs.fill prior'.regs)) := by
  have hfrom := seedDraws_ok hne hd
  -- the words agree when the fields do, as they lie apart
  have hinstrs : d.instrs.map (InstrDraw.encoded prior.generator.numRegs) =
      d.instrs.map (InstrDraw.encoded prior'.generator.numRegs) ↔
      ∀ i ∈ d.instrs, ∀ f ∈ i.fields,
        f.bits prior.generator.numRegs = f.bits prior'.generator.numRegs := by
    rw [List.map_inj_left]
    exact forall₂_congr fun i hi => InstrDraw.encoded_eq_iff (hfrom i hi) hsep _ _
  -- what is not drawn is the floating point registers next to vectors on riscv64
  have hregs : (∀ r : Reg b.config, r.val (zeroControl b.config (d.regs.fill prior.regs)) =
      r.val (zeroControl b.config (d.regs.fill prior'.regs))) ↔
      (b.config.arch = .riscv64 → b.config.VECTOR = true →
        prior.regs .fp = prior'.regs .fp) := by
    rw [← zeroControl_fill_eq_iff d.regs]
    exact ⟨Regs.ext, fun h r => by rw [h]⟩
  constructor
  · exact fun h => ⟨hinstrs.mpr (h.registers d hd), hregs.mpr h.fp⟩
  · intro h
    refine ⟨hne, hregs.mp h.2, fun d' hd' => ?_⟩
    obtain rfl : d = d' := by simpa [hd] using hd'
    exact hinstrs.mp h.1

/-- The seed alone decides the input exactly if nothing that it is made of was in memory before. -/
theorem reproducible_iff (b : GeneratorBuild)
    (hsep : ∀ templ ∈ b.table.instructions, templ.Separated)
    (prior prior' : PriorContents b.config) (seed seqNum : UInt64) (seqLen : Nat) :
    Reproducible (b.clientInput prior seed seqNum seqLen)
        (b.clientInput prior' seed seqNum seqLen) ↔
      SeedDecides b prior prior' seed seqNum seqLen := by
  rw [b.clientInput_eq prior, b.clientInput_eq prior']
  by_cases hne : seqLen = 0 ∨ b.table.instructions ≠ []
  · cases hd : b.seedDraws seed seqNum seqLen with
    | error e =>
        obtain ⟨rfl, -⟩ := seedDraws_error hne hd
        exact ⟨fun _ => seedDecides_of_error hne hd, fun _ => trivial⟩
    | ok d => exact (seedDecides_iff_of_ok hsep hne hd).symm
  · obtain ⟨hlen, hempty⟩ := not_or.mp hne
    rw [seedDraws_empty hlen (not_not.mp hempty)]
    exact ⟨fun h => h.elim, fun h => absurd h.instructions hne⟩

/-- `addi` of the riscv64 collection. -/
def addiTemplate : Instruction where
  fields := [⟨6, 0, .other 0, 0x13, 0x7f⟩, ⟨14, 12, .other 0, 0, 7⟩, ⟨11, 7, .other 1, 0, 0⟩,
    ⟨19, 15, .other 2, 0, 0⟩, ⟨31, 20, .imm12, 0, 0⟩]
  mask := 0x707f
  value := 0x13

theorem addiTemplate_separated : addiTemplate.Separated where
  range := by decide
  disjoint := by decide
  clear := by decide

theorem length_addiTemplate : [addiTemplate].length < 2 ^ 31 := by decide

/-- A client with vectors that knows `addi`. -/
def vectorBuild : GeneratorBuild where
  config := ⟨.riscv64, true, true, rfl⟩
  map := InputWithRegSelect.sampleMap
  table := ⟨[addiTemplate], length_addiTemplate⟩

/-- Memory with one number in every register. -/
def filledWith (c : RegConfig) (n : Nat) : PriorContents c :=
  ⟨⟨⟨Vector.replicate _ 0, 0⟩, 0, 0⟩, Regs.fill c n⟩

theorem reproducible_iff_vectorBuild :
    Reproducible (vectorBuild.clientInput (filledWith _ 0) 7 1 5)
        (vectorBuild.clientInput (filledWith _ 0) 7 1 5) ↔
      SeedDecides vectorBuild (filledWith _ 0) (filledWith _ 0) 7 1 5 :=
  reproducible_iff vectorBuild (by simp [vectorBuild, addiTemplate_separated]) _ _ 7 1 5

/-- With vectors the client runs whatever the floating point registers held before. -/
theorem vectorBuild_not_reproducible :
    ¬Reproducible (vectorBuild.clientInput (filledWith _ 0) 7 1 5)
      (vectorBuild.clientInput (filledWith _ 1) 7 1 5) := by
  rw [vectorBuild.clientInput_eq, vectorBuild.clientInput_eq]
  cases hd : vectorBuild.seedDraws 7 1 5 with
  | error e =>
      obtain ⟨-, harch⟩ := seedDraws_error (Or.inr (List.cons_ne_nil _ _)) hd
      cases harch
  | ok d =>
      intro h
      have hft0 := h.2 ⟨.fp, (0 : Fin 32)⟩
      have hne : ¬(0 : BitVec 64) = 1 := by decide
      exact hne hft0

end RISCover
