import RISCover.Config
import RISCover.Generator.Rng

/-!
# Random instructions

`immediates.h` and the two `randomdifffuzzgenerator.h` up to `randomly_init_instr`. The table of
instructions is generated for each build from the instruction collection, so it is a parameter here.
A shift `1 << bits` is taken modulo the width of a word; it is only defined for fields of at most 30
bits.
-/

namespace RISCover

/-! ## Immediates

The values are drawn by cases, with bounds that are made by shifting. They are cut to the width of
the field when they are put in place. -/

/-- `1 << bits`. -/
def shiftOne (bits : Nat) : UInt32 := 1 <<< UInt32.ofNat bits

/-- `random_unsigned_immediate`. -/
def randomUnsignedImmediate (bits : Nat) : Draw UInt32 := do
  let kind ← cMod (← rngNext) 3
  match kind.toNat with
  | 0 => pure 0
  | 1 => pure (shiftOne bits - 1)
  | 2 =>
    -- a small immediate in nine of ten cases
    if (← rngRandint 1 10) ≤ 9 then
      pure (← rngRandint 0 16).toUInt64.toUInt32
    else pure (← rngNext).toUInt32
  | _ => pure 0

/-- `random_signed_immediate`. -/
def randomSignedImmediate (bits : Nat) : Draw UInt32 := do
  let kind ← cMod (← rngNext) 5
  match kind.toNat with
  | 0 => pure 0
  | 1 => pure (0 - 1)
  | 2 => pure (0 - shiftOne (bits - 1))
  | 3 => pure (shiftOne (bits - 1) - 1)
  | 4 =>
    if (← rngRandint 1 10) ≤ 9 then
      pure (← rngRandint (-8) 8).toUInt64.toUInt32
    else pure (← rngNext).toUInt32
  | _ => pure 0

/-! ## Templates

`InstrField` and `Instruction` are the structs of the generated header, with a static field as one
of the types. -/

/-- The names of fields that the generator tells apart, without their prefix `FIELD_NAME_`. -/
inductive FieldType where
  | uimm4 | uimm6
  | imm2 | imm3 | imm4 | imm5 | imm6 | imm7 | imm8 | imm9 | imm12 | imm13 | imm14 | imm16 | imm19
  | imm26
  | Rd | Rn | Rm
  | Vd | Vn | Vm | Vdn
  | Zn | Zm | Za | Zda | Zdn
  | Pd | Pn | Pm | Pg | PNg | PNd | Pv | PNn | Pdm | Pdn | Pt
  | other (i : Nat)
  deriving DecidableEq

open FieldType in
/-- The cases of `random_unsigned_immediate`. -/
def unsignedImmediates : List FieldType := [uimm4, uimm6]

open FieldType in
/-- The cases of `random_signed_immediate`. -/
def signedImmediates : List FieldType :=
  [imm2, imm3, imm4, imm5, imm6, imm7, imm8, imm9, imm12, imm13, imm14, imm16, imm19, imm26]

open FieldType in
/-- The cases of a random register. -/
def registerFields : List FieldType :=
  [Rd, Rn, Rm, Vd, Vn, Vm, Vdn, Zn, Zm, Za, Zda, Zdn, Pd, Pn, Pm, Pg, PNg, PNd, Pv, PNn, Pdm, Pdn,
    Pt]

/-- `InstrField`. -/
structure InstrField where
  rangeHigh : Nat
  rangeLow : Nat
  name : FieldType
  value : UInt32
  mask : UInt32

/-- `Instruction`. -/
structure Instruction where
  fields : List InstrField
  mask : UInt32
  value : UInt32

/-- The array `instructions`; its length is an `int`. -/
structure InstructionTable where
  instructions : List Instruction
  length_lt : instructions.length < 2 ^ 31

namespace InstrField

def bits (f : InstrField) : Nat := f.rangeHigh - f.rangeLow + 1

/-- `inverted_mask`: the bits of the word that the field leaves open. -/
def invertedMask (f : InstrField) : UInt32 :=
  (~~~f.mask &&& (shiftOne f.bits - 1)) <<< UInt32.ofNat f.rangeLow

/-- What a field adds to the word. -/
def place (f : InstrField) (chosen : UInt32) : UInt32 :=
  ((chosen &&& (shiftOne f.bits - 1)) <<< UInt32.ofNat f.rangeLow) &&& f.invertedMask

/-- A field whose value is a register. -/
def isRegister (f : InstrField) : Bool := f.name ∈ registerFields

end InstrField

/-! ## Instantiation

The fields are drawn for in their order, and each is put into the word under its `inverted_mask`. -/

/-- A register below `num_regs`, or any register in one of `num_regs + 1` cases. -/
def randomRegister (numRegs : UInt32) : Draw UInt32 := do
  if (← rngRandint 0 numRegs.toUInt64.toInt64) = 0 then pure (← rngNext).toUInt32
  else pure (← cMod (← rngNext) numRegs.toUInt64).toUInt32

/-- `rng_next(rng) % (1<<bits)`. -/
def randomBits (bits : Nat) : Draw UInt32 := do
  pure (← cMod (← rngNext) (shiftOne bits).toUInt64).toUInt32

/-- `chosen`, in `randomly_init_picked_instr` of the architecture; on riscv64 the cases are
commented out. -/
def chosen (arch : Arch) (numRegs : UInt32) (f : InstrField) : Draw UInt32 :=
  match arch with
  | .riscv64 => randomBits f.bits
  | .aarch64 =>
    if f.name ∈ unsignedImmediates then randomUnsignedImmediate f.bits
    else if f.name ∈ signedImmediates then randomSignedImmediate f.bits
    else if f.isRegister then do
      if ¬(3 ≤ f.bits ∧ f.bits ≤ 5) then throw .assertion
      randomRegister numRegs
    else randomBits f.bits

/-- `randomly_init_picked_instr`, as far as `encoded`. -/
def randomlyInitPickedInstr (arch : Arch) (numRegs : UInt32) (templ : Instruction) : Draw UInt32 :=
  templ.fields.foldlM (fun encoded f =>
    if f.invertedMask = 0 then pure encoded
    else do pure (encoded ||| f.place (← chosen arch numRegs f))) templ.value

/-- `randomly_init_instr`. -/
def randomlyInitInstr (arch : Arch) (numRegs : UInt32) (table : InstructionTable) :
    Draw UInt32 := do
  let idx ← rngRandint 0 (Int64.ofNat table.instructions.length - 1)
  randomlyInitPickedInstr arch numRegs (← element table.instructions idx.toNatClampNeg)

end RISCover
