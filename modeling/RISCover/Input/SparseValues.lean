import RISCover.Input.FullRegs
import RISCover.Input.Sparse

/-!
# From some registers to all of them

`to_input_with_values` of an input that names only some registers: the others get a filler. The
expansion does what it should (`toInputWithValuesHelper_dictOf`), but it is never reached: the
method reads the sequence length from an attribute that the object does not have.
-/

namespace RISCover

/-! ## Expanding dictionaries

A register that is not named gets the filler. What is expanded is turned into an input with values,
in the helper. -/

def filler64 : Nat := 0xdeadbeefdeadbeef

/-- `repeat_int64`. -/
def repeatInt64 (i n : Nat) : Nat := (List.range n).foldl (fun res j => res ||| i <<< (j * 64)) 0

/-- `expand_regs`. -/
def expandRegs (regs : RegDict) (fillVal : Int) (allRegs : List String) :
    Except PyError (List Int) :=
  if regs.keys.all fun reg => allRegs.contains reg then
    .ok (allRegs.map fun reg => (regs.get? reg).getD fillVal)
  else .error .assertionError

/-- The value for a register that is not named. -/
def RegKind.fill : RegKind → Int
  | .gp => filler64
  | .fp => filler64
  | .vec => repeatInt64 filler64 (VEC_REG_SIZE / 8)

/-- `expand_regs_gp`, `expand_regs_fp` and `expand_regs_vec` with the values for what is missing. -/
def RegKind.expand (arch : Arch) (k : RegKind) (regs : RegDict) : Except PyError (List Int) :=
  expandRegs regs k.fill (k.names arch)

/-- The values of attributes. -/
inductive Attr where
  | int (n : Nat)
  | bool (b : Bool)
  | instrs (l : List UInt32)
  | texts (l : Option (List String))
  | dict (r : Option Nat)

/-- An `InputWithValues` as Python has it: nothing but the lengths of its lists is checked. -/
structure PyInputWithValues where
  instrSeq : List UInt32
  seqLen : Attr
  gp : List Int
  fp : Option (List Int)
  vec : Option (List Int)

/-- `if l: self.fp = l`, with the assertion about its length. -/
def truthyList (length : Nat) : Option (List Int) → Except PyError (Option (List Int))
  | some (v :: l) =>
      if (v :: l).length = length then .ok (some (v :: l)) else .error .assertionError
  | _ => .ok none

/-- The constructors of `InputWithValuesRiscv64` and `InputWithValuesAarch64`. -/
def PyInputWithValues.new (arch : Arch) (gp : List Int) (instrSeq : List UInt32) (seqLen : Attr)
    (fp vec : Option (List Int)) : Except PyError PyInputWithValues := do
  if gp.length ≠ arch.gp.length then .error .assertionError
  let fp ← truthyList arch.fp.length fp
  let vec ← truthyList pyVec.length vec
  match arch with
  | .riscv64 => if vec.isSome && fp.isNone then .error .assertionError
  | .aarch64 => if fp.isSome && vec.isSome then .error .assertionError
  pure ⟨instrSeq, seqLen, gp, fp, vec⟩

/-- `to_input_with_values_helper`. -/
def toInputWithValuesHelper (arch : Arch) (instrSeq : List UInt32) (seqLen : Attr) (gp : RegDict)
    (fp vec : Option RegDict) : Except PyError PyInputWithValues := do
  let gp ← RegKind.gp.expand arch gp
  let fp ← fp.mapM (RegKind.fp.expand arch)
  let vec ← vec.mapM (RegKind.vec.expand arch)
  PyInputWithValues.new arch gp instrSeq seqLen fp vec

namespace InputWithSparseValues

/-- What the three constructors set. -/
def attributes (inp : InputWithSparseValues) : List (String × Attr) :=
  [("seq_len", .int inp.seqLen), ("full_seq", .bool inp.fullSeq)] ++
    [("_instr_seq", .instrs inp.instrSeq), ("dis_capstone", .texts inp.disCapstone),
      ("dis_opcodes", .texts inp.disOpcodes), ("dis_mra", .texts inp.disMra)] ++
    [("gp", .dict (some inp.gp)), ("fp", .dict inp.fp), ("vec", .dict inp.vec)]

/-- `self.name`, where no class has anything of that name. -/
def getattr (inp : InputWithSparseValues) (name : String) : Except PyError Attr :=
  match inp.attributes.lookup name with
  | some a => .ok a
  | none => .error (.attributeError "InputWithSparseValues" name)

/-- `to_input_with_values`. -/
def toInputWithValues (arch : Arch) (inp : InputWithSparseValues) (heap : Heap) :
    Except PyError PyInputWithValues := do
  let seqNum ← inp.getattr "seq_num"
  toInputWithValuesHelper arch inp.instrSeq seqNum (heap.cell inp.gp) (inp.fp.map heap.cell)
    (inp.vec.map heap.cell)

end InputWithSparseValues

/-! ## What an input with values writes

The dictionaries that the other class writes, to compare the two. -/

/-- `{j: v for j, v in zip(names, values)}`. -/
def RegDict.zip (names : List String) (values : List Int) : RegDict :=
  RegDict.update Dict.empty (names.zip values)

/-- The values of an input as Python has them. -/
def InputWithValues.ints {arch : Arch} (v : InputWithValues arch) : RegKind → Option (List Int)
  | .gp => some (v.gp.map fun x => x.toNat)
  | .fp => v.fp.map fun l => l.map fun x => x.toNat
  | .vec => v.vec.map fun l => l.map fun x => x.toNat

/-- The dictionary of `InputWithValues.to_dict`, with the disassemblies as they are. -/
def InputWithValues.dictOf {arch : Arch} (v : InputWithValues arch)
    (disOpcodes disCapstone disMra : List String) : InputDict where
  instrSeq := some (v.instrSeq.take v.seqLen)
  disOpcodes := some (disOpcodes.take v.seqLen)
  disCapstone := some (disCapstone.take v.seqLen)
  disMra := some (disMra.take v.seqLen)
  regs := some {
    gp := (v.ints .gp).map (RegDict.zip arch.gp)
    fp := (v.ints .fp).map (RegDict.zip arch.fp)
    vec := (v.ints .vec).map (RegDict.zip pyVec) }

/-- The values of a Python input. -/
def PyInputWithValues.ints (e : PyInputWithValues) : RegKind → Option (List Int)
  | .gp => some e.gp
  | .fp => e.fp
  | .vec => e.vec

/-! ## The expansion

On a dictionary that names registers of the build, the helper gives every named one its value and
every other one the filler. -/

section expansion

variable {arch : Arch}

/-- Every named register keeps its value and every other one is filled. -/
theorem expandRegs_eq {regs : RegDict} {allRegs : List String}
    (h : ∀ reg ∈ regs.keys, reg ∈ allRegs) (fillVal : Int) :
    expandRegs regs fillVal allRegs =
      .ok (allRegs.map fun reg => (regs.get? reg).getD fillVal) := by
  rw [expandRegs, if_pos]
  simpa using h

theorem keys_zip_subset {names : List String} (values : List Int) :
    ∀ reg ∈ (RegDict.zip names values).keys, reg ∈ names := by
  intro reg hreg
  obtain ⟨⟨_, v⟩, hitem, rfl⟩ := List.mem_map.mp hreg
  rcases Dict.exists_of_look_foldl
    (fun (d : RegDict) (p : String × Int) name => Dict.get?_set d p.1 name p.2)
    (Dict.mem_items_iff.mp hitem) with ⟨p, hp, hname, -⟩ | hempty
  · exact hname ▸ (List.of_mem_zip hp).1
  · cases hempty

/-- A dictionary that names all registers is expanded to its values. -/
theorem expandRegs_zip {names : List String} {values : List Int} (hnodup : names.Nodup)
    (hlen : values.length = names.length) (fillVal : Int) :
    expandRegs (RegDict.zip names values) fillVal names = .ok values := by
  rw [expandRegs_eq (keys_zip_subset values)]
  congr 1
  have hfst : (names.zip values).map Prod.fst = names := List.map_fst_zip hlen.ge
  have hitems : (RegDict.zip names values).items = names.zip values :=
    Dict.items_foldl_set _ (by rw [hfst]; exact hnodup)
  apply List.ext_getElem
  · rw [List.length_map, hlen]
  · intro i hi hi'
    have hname : i < names.length := by simpa using hi
    have hmem : (names[i], values[i]) ∈ (RegDict.zip names values).items := by
      rw [hitems]
      exact List.mem_iff_getElem.mpr ⟨i, by simp [hname, hi'], List.getElem_zip⟩
    rw [List.getElem_map, Dict.mem_items_iff.mp hmem, Option.getD_some]

theorem names_nodup (arch : Arch) (k : RegKind) : (k.names arch).Nodup := by
  cases arch <;> cases k <;> decide

theorem RegKind.expand_zip (k : RegKind) {values : List Int}
    (hlen : values.length = (k.names arch).length) :
    k.expand arch (RegDict.zip (k.names arch) values) = .ok values :=
  expandRegs_zip (names_nodup arch k) hlen k.fill

theorem truthyList_eq {length : Nat} {l : Option (List Int)}
    (h : ∀ values, l = some values → values.length = length) (hpos : 0 < length) :
    truthyList length l = .ok l := by
  cases l with
  | none => rfl
  | some values =>
      have hlen := h values rfl
      cases values with
      | nil => rw [← hlen] at hpos; exact absurd hpos (Nat.lt_irrefl 0)
      | cons x values => rw [truthyList, if_pos hlen]

theorem length_ints (v : InputWithValues arch) (k : RegKind) :
    ∀ values, v.ints k = some values → values.length = (k.names arch).length := by
  intro values hvalues
  cases k with
  | gp =>
      obtain rfl := Option.some.inj hvalues
      rw [List.length_map]
      exact v.gp_length
  | fp =>
      obtain ⟨l, hl, rfl⟩ := Option.map_eq_some_iff.mp hvalues
      rw [List.length_map]
      exact v.fp_length l hl
  | vec =>
      obtain ⟨l, hl, rfl⟩ := Option.map_eq_some_iff.mp hvalues
      rw [List.length_map]
      exact v.vec_length l hl

theorem mapM_expand (v : InputWithValues arch) (k : RegKind) :
    ((v.ints k).map (RegDict.zip (k.names arch))).mapM (k.expand arch) = .ok (v.ints k) := by
  cases hints : v.ints k with
  | none => rfl
  | some values =>
      rw [Option.map_some, Option.mapM_some, k.expand_zip (length_ints v k values hints)]
      rfl

/-- The constructors accept the values of an input. -/
theorem new_ints (v : InputWithValues arch) (instrSeq : List UInt32) (seqLen : Attr) :
    PyInputWithValues.new arch (v.gp.map fun x => x.toNat) instrSeq seqLen (v.ints .fp)
        (v.ints .vec) =
      .ok ⟨instrSeq, seqLen, v.gp.map fun x => x.toNat, v.ints .fp, v.ints .vec⟩ := by
  have hgp : (v.gp.map fun x => (x.toNat : Int)).length = arch.gp.length := by
    rw [List.length_map, v.gp_length]
  have hfp := truthyList_eq (length_ints v .fp) (by cases arch <;> decide)
  have hvec := truthyList_eq (length_ints v .vec) (by cases arch <;> decide)
  have hadmitted : buildAdmits arch (v.ints .fp).isSome (v.ints .vec).isSome = true := by
    simpa [InputWithValues.ints] using v.admitted
  simp only [RegKind.names] at hfp hvec
  unfold PyInputWithValues.new
  rw [if_neg (not_not.mpr hgp), hfp, hvec]
  cases arch with
  | riscv64 =>
      simp only [buildAdmits] at hadmitted
      cases hf : v.ints .fp <;> cases hv : v.ints .vec <;> simp [hf, hv] at hadmitted ⊢ <;> rfl
  | aarch64 =>
      simp only [buildAdmits] at hadmitted
      cases hf : v.ints .fp <;> cases hv : v.ints .vec <;> simp [hf, hv] at hadmitted ⊢ <;> rfl

/-- The dictionaries that an input writes are expanded to its values. -/
theorem toInputWithValuesHelper_dictOf (v : InputWithValues arch) (instrSeq : List UInt32)
    (seqLen : Attr) :
    toInputWithValuesHelper arch instrSeq seqLen
        (RegDict.zip arch.gp (v.gp.map fun x => x.toNat))
        ((v.ints .fp).map (RegDict.zip arch.fp)) ((v.ints .vec).map (RegDict.zip pyVec)) =
      .ok ⟨instrSeq, seqLen, v.gp.map fun x => x.toNat, v.ints .fp, v.ints .vec⟩ := by
  have hgp : RegKind.gp.expand arch (RegDict.zip (RegKind.gp.names arch) _) = _ :=
    RegKind.gp.expand_zip (length_ints v .gp _ rfl)
  have hfp := mapM_expand v .fp
  have hvec := mapM_expand v .vec
  simp only [RegKind.names] at hgp hfp hvec
  rw [toInputWithValuesHelper, hgp, hfp, hvec]
  exact new_ints v instrSeq seqLen

end expansion

/-! ## The round trip

The method asks for `seq_num`, which the class does not have, before it comes to the helper. -/

/-- An input is loaded back from the dictionary it writes, in a process with this heap. -/
def RoundTrips (c : RegConfig) (asmOpcodes : String → List UInt32) (v : InputWithValues c.arch)
    (disOpcodes disCapstone disMra : List String) (heap : Heap) : Prop :=
  ∃ inp rest heap' e,
    InputWithSparseValues.fromDict c asmOpcodes (v.dictOf disOpcodes disCapstone disMra) heap =
      .ok (inp, rest, heap') ∧
    inp.toInputWithValues c.arch heap' = .ok e ∧
    e.instrSeq = v.instrSeq.take v.seqLen ∧ e.seqLen = .int v.seqLen ∧ ∀ k, e.ints k = v.ints k

/-- The registers that a dictionary names. -/
def InputDict.named (d : InputDict) (k : RegKind) : RegDict :=
  (d.regs.bind fun regs =>
    match k with
    | .gp => regs.gp
    | .fp => regs.fp
    | .vec => regs.vec).getD Dict.empty

/-- Those it does not name are filled, in a process with this heap. -/
def Fills (c : RegConfig) (asmOpcodes : String → List UInt32) (d : InputDict) (heap : Heap) :
    Prop :=
  ∃ inp rest heap' e,
    InputWithSparseValues.fromDict c asmOpcodes d heap = .ok (inp, rest, heap') ∧
    inp.toInputWithValues c.arch heap' = .ok e ∧
    ∀ k values, e.ints k = some values →
      values = (k.names c.arch).map fun reg => ((d.named k).get? reg).getD k.fill

/-- The sequence length is looked for under a name that no constructor sets. -/
theorem toInputWithValues_eq (arch : Arch) (inp : InputWithSparseValues) (heap : Heap) :
    inp.toInputWithValues arch heap =
      .error (.attributeError "InputWithSparseValues" "seq_num") := rfl

/-- No input is loaded back and no dictionary is filled, whatever was loaded before. -/
theorem not_roundTrips (c : RegConfig) (asmOpcodes : String → List UInt32) (heap : Heap) :
    (∀ (v : InputWithValues c.arch) (disOpcodes disCapstone disMra : List String),
      ¬RoundTrips c asmOpcodes v disOpcodes disCapstone disMra heap) ∧
    ∀ d : InputDict, ¬Fills c asmOpcodes d heap := by
  constructor
  · rintro v disOpcodes disCapstone disMra ⟨inp, rest, heap', e, -, he, -⟩
    rw [toInputWithValues_eq] at he
    cases he
  · rintro d ⟨inp, rest, heap', e, -, he, -⟩
    rw [toInputWithValues_eq] at he
    cases he

/-- An input with `nop` and all registers zero. -/
def nopInput : InputWithValues .riscv64 := InputWithValues.gpInput

/-- It is loaded, but not converted. -/
theorem nopInput_not_roundTrips :
    ¬RoundTrips ⟨.riscv64, false, false, rfl⟩ (fun _ => []) nopInput ["nop"] ["nop"] ["nop"]
      Heap.init := by
  rintro ⟨inp, rest, heap', e, -, he, -⟩
  rw [toInputWithValues_eq] at he
  cases he

end RISCover
