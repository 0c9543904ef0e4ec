import RISCover.Lib.Dict
import RISCover.Lib.Store
import RISCover.Regs

/-!
# Inputs that name only some registers

`InputWithSparseValues` keeps its register values in dictionaries, and these are objects: the
default of `_gp` is one dictionary, made when the class is defined, and every input that is built
without its own keeps a reference to it.
-/

namespace RISCover

/-- The values of some registers. -/
abbrev RegDict := Dict String Int

namespace RegDict

/-- `self.update(items)`. -/
def update (d : RegDict) (items : List (String × Int)) : RegDict :=
  items.foldl (fun d p => d.set p.1 p.2) d

theorem update_append (d : RegDict) (items more : List (String × Int)) :
    d.update (items ++ more) = (d.update items).update more :=
  List.foldl_append

/-- An update looks the same whatever it is applied to, apart from what it does not name. -/
theorem get?_update (d : RegDict) (items : List (String × Int)) (name : String) :
    (d.update items).get? name =
      ((update Dict.empty items).get? name).or (d.get? name) := by
  induction items generalizing d with
  | nil => rfl
  | cons p items ih =>
      have hd := ih (d.set p.1 p.2)
      have hempty := ih (Dict.empty.set p.1 p.2)
      simp only [update, List.foldl_cons] at hd hempty ⊢
      rw [hd, hempty, Dict.get?_set, Dict.get?_set, Dict.get?_empty]
      split
      next => rw [Option.or_assoc, Option.some_or]
      next => rw [Option.or_none]

end RegDict

/-! ## The server's configuration and its errors

The names of the registers depend on the architecture, and so does where a value that is given by
name belongs. -/

/-- What ends a call. -/
inductive PyError where
  | assertionError
  | attributeError (object name : String)
  | indexError
  /-- `exit(1)`. -/
  | exit
  deriving DecidableEq

/-- The dictionaries of an input. -/
inductive RegKind where
  | gp
  | fp
  | vec
  deriving DecidableEq

/-- The lists `gp`, `fp` and `vec` of `util.py`. -/
def RegKind.names (arch : Arch) : RegKind → List String
  | .gp => arch.gp
  | .fp => arch.fp
  | .vec => pyVec

/-! ## The class

A dictionary is a reference into the heap. The default of `_gp` was allocated when the class was
defined, so all inputs have the one reference. -/

/-- The dictionaries of the process. -/
abbrev Heap := Store RegDict

/-- The object that `_gp={}` in the signature stands for. -/
def Heap.defaultGp : Nat := 0

/-- When the class is defined. -/
def Heap.init : Heap := ⟨1, fun _ => Dict.empty⟩

structure InputWithSparseValues where
  instrSeq : List UInt32
  seqLen : Nat
  fullSeq : Bool
  disCapstone : Option (List String)
  disOpcodes : Option (List String)
  disMra : Option (List String)
  gp : Nat
  fp : Option Nat
  vec : Option Nat

/-- What is read from a dictionary besides the registers. -/
structure FullInputDict where
  instrSeq : Option (List UInt32)
  disOpcodes : Option (List String)
  disCapstone : Option (List String)
  disMra : Option (List String)

/-- The entry `regs`. -/
structure RegsEntry where
  gp : Option RegDict
  fp : Option RegDict
  vec : Option RegDict

/-- The dictionary of an input. -/
structure InputDict extends FullInputDict where
  regs : Option RegsEntry

/-- `FullInput.shared_parse_dict`: the instructions, assembled if they are not there. -/
def FullInputDict.sharedParseDict (asmOpcodes : String → List UInt32) (d : FullInputDict) :
    Except PyError (List UInt32) :=
  match d.instrSeq with
  | some instrSeq => .ok instrSeq
  | none =>
    match d.disOpcodes with
    | some disOpcodes => .ok (disOpcodes.flatMap asmOpcodes)
    | none => .error .assertionError

namespace InputWithSparseValues

/-- `if _fp == None and config.FLOATS: _fp = {}`. -/
def orEmpty (flag : Bool) (regs : Option Nat) (heap : Heap) : Option Nat × Heap :=
  match regs, flag with
  | none, true =>
    let (r, heap) := heap.alloc Dict.empty
    (some r, heap)
  | regs, _ => (regs, heap)

/-- `__init__`. -/
def init (c : RegConfig) (instrSeq : List UInt32) (seqLen : Nat) (gp : Nat) (fp vec : Option Nat)
    (disCapstone disOpcodes disMra : Option (List String)) (heap : Heap) :
    InputWithSparseValues × Heap :=
  let (fp, heap) := orEmpty c.FLOATS fp heap
  let (vec, heap) := orEmpty c.VECTOR vec heap
  (⟨instrSeq, seqLen, false, disCapstone, disOpcodes, disMra, gp, fp, vec⟩, heap)

/-- The attribute that holds a dictionary. -/
def regs (inp : InputWithSparseValues) : RegKind → Option Nat
  | .gp => some inp.gp
  | .fp => inp.fp
  | .vec => inp.vec

/-- `inp.gp.update(items)`, and the same for the others; `None` has no `update`. -/
def update (inp : InputWithSparseValues) (k : RegKind) (items : List (String × Int)) (heap : Heap) :
    Except PyError Heap :=
  match inp.regs k with
  | some r => .ok (heap.modify r fun d => d.update items)
  | none => .error (.attributeError "NoneType" "update")

/-- The entry of one kind, if the dictionary has it. -/
def updateFrom (inp : InputWithSparseValues) (k : RegKind) (entry : Option RegDict) (heap : Heap) :
    Except PyError Heap :=
  match entry with
  | some given => inp.update k given.items heap
  | none => .ok heap

/-- `from_dict`: the input, and the dictionary that remains of the one that is read. -/
def fromDict (c : RegConfig) (asmOpcodes : String → List UInt32) (d : InputDict) (heap : Heap) :
    Except PyError (InputWithSparseValues × InputDict × Heap) := do
  let instrSeq ← d.sharedParseDict asmOpcodes
  let (inp, heap) := init c instrSeq instrSeq.length Heap.defaultGp none none d.disCapstone
    d.disOpcodes d.disMra heap
  match d.regs with
  | none => pure (inp, d, heap)
  | some regs =>
    let heap ← inp.updateFrom .gp regs.gp heap
    let heap ← inp.updateFrom .fp regs.fp heap
    let heap ← inp.updateFrom .vec regs.vec heap
    -- each entry is popped after its update
    pure (inp, { d with regs := some ⟨none, none, none⟩ }, heap)

/-- One `--reg`, split at its `=` and with the value read. -/
def setArg (c : RegConfig) (inp : InputWithSparseValues) (heap : Heap) (arg : String × Int) :
    Except PyError Heap :=
  if arg.1 ∈ RegKind.gp.names c.arch then inp.update .gp [arg] heap
  else if arg.1 ∈ RegKind.fp.names c.arch then
    if inp.fp = none then .error .exit else inp.update .fp [arg] heap
  else if arg.1 ∈ RegKind.vec.names c.arch then
    if inp.vec = none then .error .exit else inp.update .vec [arg] heap
  else .error .exit

/-- `from_args`. -/
def fromArgs (c : RegConfig) (args : List (String × Int)) (instrSeq : List UInt32) (heap : Heap) :
    Except PyError (InputWithSparseValues × Heap) := do
  let (inp, heap) := init c instrSeq instrSeq.length Heap.defaultGp none none none none none heap
  let heap ← args.foldlM (setArg c inp) heap
  pure (inp, heap)

end InputWithSparseValues

/-! ## A process that loads inputs

Inputs are loaded from dictionaries, built from arguments and edited, in any order. -/

structure Process where
  heap : Heap
  inputs : List InputWithSparseValues

/-- What a process does with inputs: load one, build one, or set a register of one it has. -/
inductive InputOp where
  | fromDict (d : InputDict)
  | fromArgs (args : List (String × Int)) (instrSeq : List UInt32)
  | edit (i : Nat) (k : RegKind) (name : String) (value : Int)

namespace Process

def init : Process := ⟨Heap.init, []⟩

def step (c : RegConfig) (asmOpcodes : String → List UInt32) (s : Process) :
    InputOp → Except PyError Process
  | .fromDict d => do
      let (inp, _, heap) ← InputWithSparseValues.fromDict c asmOpcodes d s.heap
      pure ⟨heap, s.inputs ++ [inp]⟩
  | .fromArgs args instrSeq => do
      let (inp, heap) ← InputWithSparseValues.fromArgs c args instrSeq s.heap
      pure ⟨heap, s.inputs ++ [inp]⟩
  | .edit i k name value =>
    match s.inputs[i]? with
    | some inp => do
        let heap ← inp.update k [(name, value)] s.heap
        pure { s with heap := heap }
    | none => .error .indexError

/-- The process up to the first error. -/
def run (c : RegConfig) (asmOpcodes : String → List UInt32) (ops : List InputOp) :
    Except PyError Process :=
  ops.foldlM (step c asmOpcodes) init

end Process

end RISCover
