import RISCover.Lib.Runs
import RISCover.Lib.Words
import RISCover.Generator.Generate

/-!
# What the seed decides

A generated input in two steps. The draws depend on the seed and on the build: a register of an
instruction takes two words of the generator whatever `num_regs` is. What was in memory before comes
in behind the draws, in the words made of them and in the registers that nothing is drawn for.
-/

open Runs

namespace RISCover

/-! ## Instructions

`encode` puts the words that were drawn in place. A register that is drawn for a field is the only
thing that depends on `num_regs`. -/

/-- What is drawn for a field: its value, or the two words that make a register. -/
inductive Choice where
  | value (v : UInt32)
  | register (first second : UInt64)

/-- The value that the words make. -/
def Choice.chosen (numRegs : UInt32) : Choice → UInt32
  | .value v => v
  | .register first second =>
    if first % (numRegs.toUInt64 + 1) = 0 then second.toUInt32
    else (second % numRegs.toUInt64).toUInt32

structure FieldDraw where
  field : InstrField
  choice : Choice

/-- What the field adds to the word. -/
def FieldDraw.bits (numRegs : UInt32) (d : FieldDraw) : UInt32 :=
  d.field.place (d.choice.chosen numRegs)

def encode (numRegs : UInt32) (word : UInt32) (ds : List FieldDraw) : UInt32 :=
  Words.orAll (FieldDraw.bits numRegs) word ds

structure InstrDraw where
  templ : Instruction
  fields : List FieldDraw

def InstrDraw.encoded (numRegs : UInt32) (d : InstrDraw) : UInt32 :=
  encode numRegs d.templ.value d.fields

def drawChoice (arch : Arch) (f : InstrField) : Draw Choice :=
  if arch = .aarch64 ∧ f.isRegister = true then do
    if ¬(3 ≤ f.bits ∧ f.bits ≤ 5) then throw .assertion
    let first ← rngNext
    let second ← rngNext
    pure (.register first second)
  else Choice.value <$> chosen arch 0 f

def drawFields (arch : Arch) : List InstrField → Draw (List FieldDraw)
  | [] => pure []
  | f :: fs =>
    if f.invertedMask = 0 then drawFields arch fs
    else do
      let choice ← drawChoice arch f
      let ds ← drawFields arch fs
      pure (⟨f, choice⟩ :: ds)

def drawInstr (arch : Arch) (table : InstructionTable) : Draw InstrDraw := do
  let idx ← rngRandint 0 (Int64.ofNat table.instructions.length - 1)
  let templ ← element table.instructions idx.toNatClampNeg
  let fields ← drawFields arch templ.fields
  pure ⟨templ, fields⟩

/-- The names of registers stand in no other case. -/
theorem not_immediate_of_isRegister {f : InstrField} (h : f.isRegister = true) :
    f.name ∉ unsignedImmediates ∧ f.name ∉ signedImmediates := by
  have hnames : ∀ name ∈ registerFields,
      name ∉ unsignedImmediates ∧ name ∉ signedImmediates := by decide
  exact hnames f.name (by simpa [InstrField.isRegister] using h)

/-- A register takes two words, with the second one divided only where `num_regs` is not zero. -/
theorem randomRegister_eq (numRegs : UInt32) :
    randomRegister numRegs = (do
      let first ← rngNext
      let second ← rngNext
      pure (Choice.chosen numRegs (.register first second))) := by
  rw [randomRegister, rngRandint_numRegs, map_eq_pure_bind, bind_assoc]
  refine bind_congr fun first => ?_
  rw [pure_bind]
  simp only [toInt64_eq_zero, Choice.chosen]
  by_cases hfirst : first % (numRegs.toUInt64 + 1) = 0
  · simp only [if_pos hfirst]
  · have hne : numRegs.toUInt64 ≠ 0 := by
      intro hzero
      rw [hzero] at hfirst
      exact hfirst (UInt64.mod_one)
    simp only [if_neg hfirst, cMod, if_neg hne, pure_bind]

theorem chosen_eq (arch : Arch) (numRegs : UInt32) (f : InstrField) :
    chosen arch numRegs f = Choice.chosen numRegs <$> drawChoice arch f := by
  rw [drawChoice]
  by_cases hreg : arch = .aarch64 ∧ f.isRegister = true
  · obtain ⟨rfl, hregister⟩ := hreg
    obtain ⟨hunsigned, hsigned⟩ := not_immediate_of_isRegister hregister
    simp only [chosen, if_neg hunsigned, if_neg hsigned, if_pos hregister, randomRegister_eq,
      true_and, map_eq_pure_bind]
    by_cases hbits : 3 ≤ f.bits ∧ f.bits ≤ 5
    · simp only [hbits, not_true_eq_false, if_false, and_self, pure_bind, bind_assoc]
    · simp only [hbits, not_false_eq_true, if_true]
      rfl
  · have hsame : chosen arch numRegs f = chosen arch 0 f := by
      cases arch with
      | riscv64 => rfl
      | aarch64 =>
          have hname : ¬f.isRegister = true := fun h => hreg ⟨rfl, h⟩
          simp only [chosen, if_neg hname]
    rw [if_neg hreg, hsame, ← comp_map]
    exact (id_map _).symm

theorem randomlyInitPickedInstr_eq (arch : Arch) (numRegs : UInt32) (templ : Instruction) :
    randomlyInitPickedInstr arch numRegs templ =
      encode numRegs templ.value <$> drawFields arch templ.fields := by
  rw [randomlyInitPickedInstr]
  generalize templ.value = word
  induction templ.fields generalizing word with
  | nil => simp [drawFields, encode, Words.orAll]
  | cons f fs ih =>
      rw [List.foldlM_cons, drawFields]
      by_cases hmask : f.invertedMask = 0
      · rw [if_pos hmask, if_pos hmask, pure_bind, ih]
      · simp only [if_neg hmask, chosen_eq, map_eq_pure_bind, bind_assoc, pure_bind] at ih ⊢
        refine bind_congr fun choice => ?_
        rw [ih]
        rfl

theorem randomlyInitInstr_eq (arch : Arch) (numRegs : UInt32) (table : InstructionTable) :
    randomlyInitInstr arch numRegs table =
      InstrDraw.encoded numRegs <$> drawInstr arch table := by
  simp only [randomlyInitInstr, drawInstr, randomlyInitPickedInstr_eq, map_eq_pure_bind, bind_assoc,
    pure_bind]
  rfl

/-- The first of several draws is made in the state that all of them start from. -/
theorem drawEach_first {α : Type} {m : Draw α} {n : Nat} (hn : 0 < n) {s s₁ s₂ : SharedRng} {x : α}
    {xs : Vector α n} (hm : m s = .ok (x, s₁)) (h : drawEach m n s = .ok (xs, s₂)) :
    xs[0] = x := by
  induction n generalizing s₂ with
  | zero => exact absurd hn (Nat.lt_irrefl 0)
  | succ n ih =>
      rw [drawEach] at h
      obtain ⟨ys, s₃, hys, hrest⟩ := of_bind_eq_ok h
      obtain ⟨y, s₄, hy, hpush⟩ := of_bind_eq_ok hrest
      obtain rfl := of_pure_eq_ok hpush
      rcases Nat.eq_zero_or_pos n with rfl | hpos
      · have hnone : (Except.ok (#v[], s) : Except Fault _) = .ok (ys, s₃) := hys
        obtain ⟨rfl, rfl⟩ := Prod.mk.inj (Except.ok.inj hnone)
        obtain ⟨rfl, -⟩ := Prod.mk.inj (Except.ok.inj (hm.symm.trans hy))
        rfl
      · rw [Vector.getElem_push_lt hpos]
        exact ih hpos hys

/-! ## Inputs

`SeedDraws` is all that is drawn from a seed, and `input` and `fill` are what the generator makes of
it in the memory that it finds. -/

/-- What is drawn for the registers; the value of a class that nothing is drawn for is not used. -/
structure DrawnRegs (c : RegConfig) where
  gp : Vector (RegVal .gp) (c.count .gp)
  fp : Vector (RegVal .fp) (c.count .fp)
  vec : Vector (RegVal .vec) (c.count .vec)

def drawRegs (c : RegConfig) (map : FuzzingValueMap) : Draw (DrawnRegs c) := do
  let gp ← drawEach (wordReg .gp map.gpValOrRand) (c.count .gp)
  let fp ← drawIf (c.FLOATS && !c.VECTOR) (drawEach (wordReg .fp map.fpValOrRand) (c.count .fp))
    (Vector.replicate _ 0)
  let vec ← drawIf c.VECTOR (drawEach map.vecVal (c.count .vec)) (Vector.replicate _ 0)
  pure ⟨gp, fp, vec⟩

/-- The register file that is filled. -/
def DrawnRegs.fill {c : RegConfig} (d : DrawnRegs c) (regs : Regs c) : Regs c := fun
  | .gp => d.gp
  | .pstate => if c.arch = .aarch64 then Vector.replicate _ 0 else regs .pstate
  | .fcsr => regs .fcsr
  | .fpsr =>
    if c.arch = .aarch64 ∧ (c.FLOATS || c.VECTOR) then Vector.replicate _ 0 else regs .fpsr
  | .fp => if c.FLOATS && !c.VECTOR then d.fp else regs .fp
  | .vec => if c.VECTOR then d.vec else regs .vec

theorem fillRegsWithFuzzingValueMap_eq (c : RegConfig) (map : FuzzingValueMap) (regs : Regs c) :
    fillRegsWithFuzzingValueMap c map regs = (DrawnRegs.fill · regs) <$> drawRegs c map := by
  have hfp := drawIf_eq (c.FLOATS && !c.VECTOR)
    (drawEach (wordReg .fp map.fpValOrRand) (c.count .fp)) (regs .fp) (Vector.replicate _ 0)
  have hvec := drawIf_eq c.VECTOR (drawEach map.vecVal (c.count .vec)) (regs .vec)
    (Vector.replicate _ 0)
  rw [fillRegsWithFuzzingValueMap, drawRegs, hfp, hvec]
  simp only [map_eq_pure_bind, bind_assoc, pure_bind]
  rfl

structure SeedDraws (c : RegConfig) where
  regs : DrawnRegs c
  instrs : List InstrDraw

/-- The input that is made of the draws. -/
def SeedDraws.input {c : RegConfig} (d : SeedDraws c) (numRegs : UInt32) (regs : Regs c) :
    GeneratedInput c :=
  ⟨d.instrs.map (InstrDraw.encoded numRegs), d.regs.fill regs⟩

namespace GeneratorBuild

def drawSeed (b : GeneratorBuild) (seqLen : Nat) : Draw (SeedDraws b.config) := do
  let regs ← drawRegs b.config b.map
  let instrs ← drawEach (drawInstr b.config.arch b.table) seqLen
  pure ⟨regs, instrs.toList⟩

theorem drawInput_eq (b : GeneratorBuild) (numRegs : UInt32) (seqLen : Nat)
    (regs : Regs b.config) :
    b.drawInput numRegs seqLen regs = (SeedDraws.input · numRegs regs) <$> b.drawSeed seqLen := by
  rw [drawInput, drawSeed, fillRegsWithFuzzingValueMap_eq, randomlyInitInstr_eq, drawEach_map]
  simp only [map_eq_pure_bind, bind_assoc, pure_bind, Vector.toList_map]
  rfl

/-- The draws of a seed and a sequence number. -/
def seedDraws (b : GeneratorBuild) (seed seqNum : UInt64) (seqLen : Nat) :
    Except Fault (SeedDraws b.config) :=
  Prod.fst <$> b.drawSeed seqLen (rngInit ⟨Vector.replicate _ 0, 0⟩ (seqNum ^^^ seed))

/-- The draws depend on the first word of the generator. -/
theorem seedDraws_congr (b : GeneratorBuild) {seed seqNum seed' seqNum' : UInt64}
    (h : firstWord (seqNum ^^^ seed) = firstWord (seqNum' ^^^ seed')) (seqLen : Nat) :
    b.seedDraws seed seqNum seqLen = b.seedDraws seed' seqNum' seqLen := by
  rw [seedDraws, seedDraws, rngInit_congr _ ⟨Vector.replicate _ 0, 0⟩ h]

/-- Whatever the generator and the registers held before, the input is made of the draws. -/
theorem generateInput_eq (b : GeneratorBuild) (generator : RandomDifffuzzGenerator)
    (seqNum : UInt64) (seqLen : Nat) (regs : Regs b.config) :
    Prod.fst <$> b.generateInput generator seqNum seqLen regs =
      (SeedDraws.input · generator.numRegs regs) <$> b.seedDraws generator.seed seqNum seqLen := by
  have hrng := rngInit_congr generator.rng ⟨Vector.replicate _ 0, 0⟩
    (Eq.refl (firstWord (seqNum ^^^ generator.seed)))
  rw [generateInput, seedDraws, drawInput_eq, hrng, map_run]
  cases b.drawSeed seqLen (rngInit ⟨Vector.replicate _ 0, 0⟩ (seqNum ^^^ generator.seed)) with
  | ok p => rfl
  | error e => rfl

/-- The client runs what is drawn for the seed, with `num_regs` and the registers that nothing is
drawn for as they were before. -/
theorem clientInput_eq (b : GeneratorBuild) (prior : PriorContents b.config) (seed seqNum : UInt64)
    (seqLen : Nat) :
    b.clientInput prior seed seqNum seqLen =
      (fun d => ⟨d.instrs.map (InstrDraw.encoded prior.generator.numRegs),
        zeroControl b.config (d.regs.fill prior.regs)⟩) <$> b.seedDraws seed seqNum seqLen := by
  have hgenerate := b.generateInput_eq (randomDifffuzzGeneratorInit prior.generator seed) seqNum
    seqLen prior.regs
  have hclient : b.clientInput prior seed seqNum seqLen =
      (fun inp => { inp with regs := zeroControl b.config inp.regs }) <$>
        (Prod.fst <$> b.generateInput (randomDifffuzzGeneratorInit prior.generator seed) seqNum
          seqLen prior.regs) := by
    rw [clientInput]
    cases b.generateInput (randomDifffuzzGeneratorInit prior.generator seed) seqNum seqLen
      prior.regs with
    | ok p => rfl
    | error e => rfl
  rw [hclient, hgenerate, ← comp_map]
  rfl

end GeneratorBuild

end RISCover
