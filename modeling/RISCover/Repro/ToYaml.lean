import RISCover.Input.FullRegs
import RISCover.Lib.Yaml
import RISCover.Repro.Log
import RISCover.Result.Basic

/-!
# The server writes a reproducer

`Repro.to_yaml`: the dictionaries of the `to_dict` methods, as the block document that PyYAML makes
of them. Integers are in hexadecimal, as `hexint_presenter` represents them. A text from outside
stands in its place as the one line that PyYAML writes for it; only the content of a mapping is made
of digits and is quoted here, where PyYAML has to tell it from a number.
-/

open Text Yaml

namespace RISCover

/-! ## Scalars

Numbers are written in hexadecimal, and a text as it is or between single quotes. -/

/-- `hexint_presenter`. -/
def hexintPresenter : Int → Text
  | .ofNat n => "0x".toList ++ hex n
  | .negSucc n => "-0x".toList ++ hex (n + 1)

def hexNode (n : Nat) : Node := .scalar (hexintPresenter n)

def optNode : Option Nat → Node
  | some n => hexNode n
  | none => .scalar "null".toList

def strNode (t : OneLine) : Node := .scalar t.1

/-- A text of letters and digits: in quotes, if it would be read as something else than a text. -/
def quoted (t : Text) : Text := if isStr t then t else "'".toList ++ t ++ "'".toList

/-! ## The input

The registers of a class in their order, below the name of the class. -/

/-- What stands under `dis_opcodes`, `dis_capstone` and `dis_mra`. -/
structure Disassembly where
  opcodes : List OneLine
  capstone : List OneLine
  mra : List OneLine

/-- `{j: v for j, v in zip(names, values)}`. -/
def regsNode (names : List String) (values : List Nat) : Node :=
  .map ((names.zip values).map fun p => (p.1.toList, hexNode p.2))

namespace InputWithValues

variable {arch : Arch} (inp : InputWithValues arch) (dis : Disassembly)

def regsToDict : List (Text × Node) :=
  [("gp".toList, regsNode arch.gp (words inp.gp))] ++
    (inp.fp.toList.map fun fp => ("fp".toList, regsNode arch.fp (words fp))) ++
    inp.vec.toList.map fun vec => ("vec".toList, regsNode pyVec (vec.map BitVec.toNat))

/-- `InputWithValues.to_dict`. -/
def toDict : List (Text × Node) :=
  [("instr_seq".toList, .seq (inp.getInstrSeq.map hexNode)),
    ("dis_opcodes".toList, .seq (dis.opcodes.map strNode)),
    ("dis_capstone".toList, .seq (dis.capstone.map strNode)),
    ("dis_mra".toList, .seq (dis.mra.map strNode)),
    ("regs".toList, .map inp.regsToDict)]

end InputWithValues

/-! ## A result and its clients

A counter is written when it is there and not zero, and the memory changes when the result has them.
-/

/-- One of the `mem_diffs`. -/
def MemDiff.toDict (d : MemDiff) : List (Text × Node) :=
  [("start".toList, hexNode d.start), ("n".toList, hexNode d.n), ("val".toList, hexNode d.val),
    ("checksum".toList, hexNode d.checksum)]

/-- An entry for a counter that is there and not zero. -/
def counterEntry (key : String) (n : Option Nat) : List (Text × Node) :=
  (n.toList.filter (· ≠ 0)).map fun n => (key.toList, hexNode n)

/-- `Result.to_dict`. -/
def Result.toDict {κ : Type} (r : Result κ) : List (Text × Node) :=
  [("signum".toList, hexNode r.signum), ("si_addr".toList, hexNode r.siAddr),
    ("si_pc".toList, hexNode r.siPc), ("si_code".toList, hexNode r.siCode)] ++
  counterEntry "cycle_diff" r.cycleDiff ++ counterEntry "instret_diff" r.instretDiff ++
  [("regs_after".toList, .map (r.regs.items.map fun p => (p.1.toList, hexNode p.2)))] ++
  r.memDiffs.toList.map fun ds =>
    ("mem_diffs".toList, .seq (ds.map fun d => .map d.toDict))

/-- `Microarchitecture`. -/
structure Microarchitecture where
  midr : Nat
  modelName : OneLine
  numCores : Nat
  numSockets : Nat
  threadsPerCore : Nat
  flags : List OneLine

/-- `Microarchitecture.to_dict`. -/
def Microarchitecture.toDict (m : Microarchitecture) : List (Text × Node) :=
  [("midr".toList, hexNode m.midr), ("model_name".toList, strNode m.modelName),
    ("num_cores".toList, hexNode m.numCores), ("num_sockets".toList, hexNode m.numSockets),
    ("threads_per_core".toList, hexNode m.threadsPerCore),
    ("flags".toList, .seq (m.flags.map strNode))]

/-- The keys that the clients put into `tags`. -/
inductive Tag where
  | androidSerialno
  | androidModel
  | androidProduct

def Tag.name : Tag → String
  | .androidSerialno => "android_serialno"
  | .androidModel => "android_model"
  | .androidProduct => "android_product"

/-- `ClientMeta`, without the processor, which a reproducer leaves out. -/
structure ClientMeta where
  hostname : OneLine
  numCpus : Nat
  nCore : Nat
  microarchitecture : Microarchitecture
  tags : List (Tag × OneLine)
  vecSize : Option Nat
  /-- What clients for aarch64 have in `other`. -/
  sveMaxSize : Option Nat
  smeMaxSize : Option Nat

/-- `ClientMeta.to_dict(log_cpu=False)`. -/
def ClientMeta.toDict (arch : Arch) (m : ClientMeta) : List (Text × Node) :=
  [field "type" "realclient".toList, ("hostname".toList, strNode m.hostname),
    ("num_cpus".toList, hexNode m.numCpus), ("n_core".toList, hexNode m.nCore),
    ("microarchitecture".toList, .map m.microarchitecture.toDict),
    ("tags".toList, .map (m.tags.map fun p => (p.1.name.toList, strNode p.2)))] ++
  counterEntry "vec_size" m.vecSize ++
  [("other".toList, .map (match arch with
    | .riscv64 => []
    | .aarch64 => [("sve_max_size".toList, optNode m.sveMaxSize),
        ("sme_max_size".toList, optNode m.smeMaxSize)]))]

/-! ## The generator

What is needed to generate the input again. -/

/-- `InstructionCollection`. -/
structure InstructionCollection where
  /-- `None` where all extensions are in use. -/
  extensions : Option (List OneLine)
  removedInstructions : List OneLine
  commit : OneLine
  /-- Only there on riscv64. -/
  weightsFile : OneLine

/-- `to_dict` of the two subclasses. -/
def InstructionCollection.toDict (arch : Arch) (i : InstructionCollection) : List (Text × Node) :=
  [("extensions".toList, match i.extensions with
      | some l => .seq (l.map strNode)
      | none => .scalar "null".toList),
    ("removed_instructions".toList, .seq (i.removedInstructions.map strNode)),
    ("commit".toList, strNode i.commit)] ++
  match arch with
  | .aarch64 => [field "type" "ArmInstructionCollection".toList]
  | .riscv64 => [field "type" "RiscvInstructionCollection".toList,
      ("weights_file".toList, strNode i.weightsFile)]

/-- The attributes that a generator adds to those of its base class. -/
inductive GeneratorArgs where
  | template (exampleArg seed : Int)
  | random (seqLen numRegs seed : Int) (weighted : Bool)
  | offlineRandom (seqLen numRegs seed : Int) (weighted : Bool)

/-- `self.__class__.__name__`. -/
def GeneratorArgs.className : GeneratorArgs → String
  | .template .. => "TemplateDifffuzzGenerator"
  | .random .. => "RandomDiffFuzzGenerator"
  | .offlineRandom .. => "OfflineRandomDiffFuzzGenerator"

def GeneratorArgs.toDict : GeneratorArgs → List (Text × Node)
  | .template exampleArg seed =>
      [field "example_arg" (hexintPresenter exampleArg), field "seed" (hexintPresenter seed)]
  | .random seqLen numRegs seed weighted | .offlineRandom seqLen numRegs seed weighted =>
      [field "seq_len" (hexintPresenter seqLen), field "num_regs" (hexintPresenter numRegs),
        field "seed" (hexintPresenter seed),
        field "weighted" (if weighted then "true".toList else "false".toList)]

structure Generator where
  instructionCollection : InstructionCollection
  args : GeneratorArgs

/-- `to_dict` of the generators. -/
def Generator.toDict (arch : Arch) (g : Generator) : List (Text × Node) :=
  [field "type" g.args.className.toList,
    ("instruction_collection".toList, .map (g.instructionCollection.toDict arch))] ++
  g.args.toDict

/-! ## The reproducer

The entries of the whole document. `results` is left out when there are none. -/

/-- `Mapping.to_dict`. -/
def Mapping.toDict (m : Mapping) : List (Text × Node) :=
  [("start".toList, hexNode m.start.toNat), ("n".toList, hexNode m.n.toNat),
    ("prot".toList, hexNode m.prot.toNat), field "val" (quoted (logWords m))]

/-- Class `Repro`, for a client built with its flags. -/
structure Repro (b : Build) where
  inp : InputWithValues b.arch
  carries : inp.Carries b.toRegConfig
  dis : Disassembly
  /-- Empty where there is no `result_to_clients`. -/
  resultToClients : List (Result ClientMeta × List ClientMeta)
  regs_subset : ∀ p ∈ resultToClients, p.1.regs.keys ⊆ b.regsMapping
  mappings : List Mapping
  whole : ∀ m ∈ mappings, m.Whole
  generator : Option Generator
  counter : Option Nat
  /-- `list(self.flags)`, in the order that the set has. -/
  flags : List Flag
  flags_nodup : flags.Nodup
  flags_eq : flags.toFinset = b.expectedMask
  core : Option OneLine

namespace Repro

variable {b : Build} (repro : Repro b)

def resultsToDict : List (Text × Node) :=
  if repro.resultToClients = [] then []
  else [("results".toList, .seq (repro.resultToClients.map fun p =>
    .map [("result".toList, .map p.1.toDict),
      ("clients".toList, .seq (p.2.map fun m => .map (m.toDict b.arch)))]))]

/-- `to_dict`, of a reproducer that comes from no document. -/
def toDict : List (Text × Node) :=
  [("input".toList, .map (repro.inp.toDict repro.dis))] ++ repro.resultsToDict ++
  [("mappings".toList, .seq (repro.mappings.map fun m => .map m.toDict))] ++
  (repro.generator.toList.map fun g => ("generator".toList, .map (g.toDict b.arch))) ++
  (repro.counter.toList.map fun n => ("counter".toList, hexNode n)) ++
  [field "arch" b.arch.name.toList,
    ("flags".toList, .seq (repro.flags.map fun f => .scalar ("-D".toList ++ f.name.toList)))] ++
  repro.core.toList.map fun core => ("core".toList, strNode core)

/-- `to_yaml`. -/
def toYaml : Text := unlines (Node.map repro.toDict).lines

end Repro

end RISCover
