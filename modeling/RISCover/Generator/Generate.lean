import RISCover.Input.RegSelect
import RISCover.Generator.Instructions

/-!
# Inputs generated from a seed

`generate_input` fills a register file with interesting values and a sequence with random
instructions. With `JUST_SEQ_NUM` the client calls it for each input, on one generator and one
register file that stay from input to input.
-/

open Bytes

namespace RISCover

/-! ## Values of registers

The index that is drawn can be one past the table, and then the value is drawn as well. -/

/-- `fuzzing_value_map_gp_val_or_rand` and `fuzzing_value_map_fp_val_or_rand`: a random number in
one of `n + 1` cases. -/
def valOrRand (table : List UInt64) : Draw UInt64 := do
  let i ← cMod (← rngNext) (UInt64.ofNat (table.length + 1))
  if i = UInt64.ofNat table.length then rngNext else element table i.toNat

/-- `fuzzing_value_map_gp_val_or_rand`. -/
def FuzzingValueMap.gpValOrRand (map : FuzzingValueMap) : Draw UInt64 := valOrRand map.gp

/-- `fuzzing_value_map_fp_val_or_rand`. -/
def FuzzingValueMap.fpValOrRand (map : FuzzingValueMap) : Draw UInt64 := valOrRand map.fp

/-- `fuzzing_value_any_val`. -/
def FuzzingValueMap.anyVal (map : FuzzingValueMap) : Draw UInt64 := do
  if (← cMod (← rngNext) 2) = 0 then map.fpValOrRand else map.gpValOrRand

/-- A vector register, word by word. -/
def FuzzingValueMap.vecVal (map : FuzzingValueMap) : Draw (RegVal .vec) := do
  let low ← map.anyVal
  let rest ← drawEach map.gpValOrRand (wordsPerVec - 1)
  pure (BitVec.ofNat _ (ofLeBytes ((low :: rest.toList).flatMap fun w => leBytes 8 w.toNat)))

/-- A register of one word. -/
def wordReg (k : RegClass) (m : Draw UInt64) : Draw (RegVal k) := do
  pure (BitVec.ofNat _ (← m).toNat)

/-- `fill_regs_with_fuzzing_value_map`. -/
def fillRegsWithFuzzingValueMap (c : RegConfig) (map : FuzzingValueMap) (regs : Regs c) :
    Draw (Regs c) := do
  let gp ← drawEach (wordReg .gp map.gpValOrRand) (c.count .gp)
  -- the condition of aarch64, where the two kinds share their storage, stands in both headers
  let fp ← drawIf (c.FLOATS && !c.VECTOR) (drawEach (wordReg .fp map.fpValOrRand) (c.count .fp))
    (regs .fp)
  let vec ← drawIf c.VECTOR (drawEach map.vecVal (c.count .vec)) (regs .vec)
  pure fun
    | .gp => gp
    | .pstate => if c.arch = .aarch64 then Vector.replicate _ 0 else regs .pstate
    | .fcsr => regs .fcsr
    | .fpsr =>
      if c.arch = .aarch64 ∧ (c.FLOATS || c.VECTOR) then Vector.replicate _ 0 else regs .fpsr
    | .fp => fp
    | .vec => vec

/-! ## The generator

The structs that the generator writes to are not cleared, so what was in them is a parameter
(`PriorContents`). -/

/-- `random_difffuzz_generator`. -/
structure RandomDifffuzzGenerator where
  rng : SharedRng
  seed : UInt64
  numRegs : UInt32

/-- `random_difffuzz_generator_init`. -/
def randomDifffuzzGeneratorInit (generator : RandomDifffuzzGenerator) (seed : UInt64) :
    RandomDifffuzzGenerator := { generator with seed := seed }

/-- What `generate_input` fills: the sequence and the register file. -/
structure GeneratedInput (c : RegConfig) where
  instrSeq : List UInt32
  regs : Regs c

/-- The part of a build that the generator depends on. -/
structure GeneratorBuild where
  config : RegConfig
  map : FuzzingValueMap
  table : InstructionTable

instance : Coe GeneratorBuild RegConfig := ⟨GeneratorBuild.config⟩

namespace GeneratorBuild

/-- The draws of `generate_input`. -/
def drawInput (b : GeneratorBuild) (numRegs : UInt32) (seqLen : Nat) (regs : Regs b.config) :
    Draw (GeneratedInput b.config) := do
  let regs ← fillRegsWithFuzzingValueMap b.config b.map regs
  let instrSeq ← drawEach (randomlyInitInstr b.config.arch numRegs b.table) seqLen
  pure ⟨instrSeq.toList, regs⟩

/-- `generate_input`: the input, and the generator behind it. -/
def generateInput (b : GeneratorBuild) (generator : RandomDifffuzzGenerator) (seqNum : UInt64)
    (seqLen : Nat) (regs : Regs b.config) :
    Except Fault (GeneratedInput b.config × RandomDifffuzzGenerator) := do
  let (inp, rng) ← b.drawInput generator.numRegs seqLen regs
    (rngInit generator.rng (seqNum ^^^ generator.seed))
  pure (inp, { generator with rng := rng })

end GeneratorBuild

/-- The control registers that the client zeroes before it runs an input. -/
def zeroControl (c : RegConfig) (regs : Regs c) : Regs c := fun k =>
  match k with
  | .fcsr => if c.arch = .riscv64 ∧ c.FLOATS then Vector.replicate _ 0 else regs .fcsr
  | .pstate => if c.arch = .aarch64 then Vector.replicate _ 0 else regs .pstate
  | .fpsr => if c.arch = .aarch64 ∧ (c.FLOATS || c.VECTOR) then Vector.replicate _ 0 else regs .fpsr
  | k => regs k

/-- What is in memory before the generator is set up. -/
structure PriorContents (c : RegConfig) where
  generator : RandomDifffuzzGenerator
  regs : Regs c

/-- `start_client` with `JUST_SEQ_NUM`, from the set-up of the generator to the input that it
runs. -/
def GeneratorBuild.clientInput (b : GeneratorBuild) (prior : PriorContents b.config)
    (seed seqNum : UInt64) (seqLen : Nat) : Except Fault (GeneratedInput b.config) := do
  let generator := randomDifffuzzGeneratorInit prior.generator seed
  let (inp, _) ← b.generateInput generator seqNum seqLen prior.regs
  pure { inp with regs := zeroControl b.config inp.regs }

end RISCover
