import RISCover.Input.FullRegs
import RISCover.Lib.Quoted
import RISCover.Repro.Logged

/-!
# The server reads a logged input

`InputWithValues.from_dict` on what `log_input` writes: every instruction and every register value
comes back.
-/

open Text Yaml

namespace RISCover

variable {c : Config}

/-! ## The input as a document

The nodes whose lines `log_input` writes. The disassembly stands between quotes. -/

/-- The lines of one register class. -/
def regEntries (k : RegClass) (regs : Regs c.toRegConfig) : List (Text × Node) :=
  (List.finRange (c.count k)).map fun i =>
    let r : Reg c.toRegConfig := ⟨k, i⟩
    (r.name.toList, .scalar (regText (r.val regs)))

def regsEntries (regs : Regs c.toRegConfig) : List (Text × Node) :=
  [("gp".toList, .map (regEntries .gp regs))] ++
    (if c.FLOATS then [("fp".toList, .map (regEntries .fp regs))] else []) ++
    (if c.VECTOR then [("vec".toList, .map (regEntries .vec regs))] else [])

def inputEntries (dis : List OneLine) (instrSeq : List UInt32) (regs : Regs c.toRegConfig) :
    List (Text × Node) :=
  [("instr_seq".toList, .seq (instrSeq.map fun w => .scalar ("0x".toList ++ hexPad 8 w.toNat))),
    ("dis_opcodes".toList, .seq (dis.map fun t => .scalar (quote t.1))),
    ("regs".toList, .map (regsEntries regs))]

/-- What `log_input` writes, without mappings. -/
def inputDocument (dis : List OneLine) (instrSeq : List UInt32) (regs : Regs c.toRegConfig) :
    Node :=
  .map [("input".toList, .map (inputEntries dis instrSeq regs)), ("mappings".toList, .seq [])]

theorem under_seq {items : List Node} (h : items ≠ []) (key : Text) :
    (Node.seq items).under key = below key (itemLines items) := by
  obtain ⟨item, rest, rfl⟩ := List.exists_cons_of_ne_nil h
  rw [Node.under]

theorem under_map {entries : List (Text × Node)} (h : entries ≠ []) (key : Text) :
    (Node.map entries).under key = below key (indent (entryLines entries)) := by
  obtain ⟨p, rest, rfl⟩ := List.exists_cons_of_ne_nil h
  rw [Node.under]

theorem regEntries_ne_nil {k : RegClass} (h : c.count k ≠ 0) (regs : Regs c.toRegConfig) :
    regEntries k regs ≠ [] := by
  intro hnil
  have hlen := congrArg List.length hnil
  rw [regEntries, List.length_map, List.length_finRange, List.length_nil] at hlen
  exact h hlen

/-- The lines of a class below its key. -/
theorem lines_regEntries {k : RegClass} (h : c.count k ≠ 0) (regs : Regs c.toRegConfig)
    (key : Text) :
    indent (indent ((Node.map (regEntries k regs)).under key)) =
      ("    ".toList ++ key ++ ":".toList) :: logRegs k regs := by
  have hlines : ∀ l : List (Fin (c.count k)),
      indent (indent (indent (entryLines (l.map fun i =>
        let r : Reg c.toRegConfig := ⟨k, i⟩
        (r.name.toList, .scalar (regText (r.val regs))))))) =
      l.map fun i =>
        let r : Reg c.toRegConfig := ⟨k, i⟩
        "      ".toList ++ r.name.toList ++ ": ".toList ++ regText (r.val regs) := by
    intro l
    induction l with
    | nil => rfl
    | cons i l ih =>
        rw [List.map_cons, List.map_cons, ← ih]
        simp [entryLines, Node.under, behind, indent]
  rw [under_map (regEntries_ne_nil h regs), below, indent_cons, indent_cons]
  refine congrArg₂ List.cons ?_ (hlines (List.finRange (c.count k)))
  simp

theorem count_gp_ne_zero (c : RegConfig) : c.count .gp ≠ 0 := by
  cases harch : c.arch <;> simp [RegConfig.count, harch]

theorem count_fp_ne_zero {c : RegConfig} (h : c.FLOATS = true) : c.count .fp ≠ 0 := by
  simp [RegConfig.count, h]

theorem count_vec_ne_zero {c : RegConfig} (h : c.VECTOR = true) : c.count .vec ≠ 0 := by
  simp [RegConfig.count, h]

/-- The lines of a class that only some configurations have. -/
theorem lines_ite_regEntries {p : Bool} {k : RegClass} (h : p = true → c.count k ≠ 0)
    (regs : Regs c.toRegConfig) (key : Text) :
    indent (indent (entryLines (if p then [(key, .map (regEntries k regs))] else []))) =
      if p then ("    ".toList ++ key ++ ":".toList) :: logRegs k regs else [] := by
  cases p with
  | false => rfl
  | true =>
      rw [if_pos rfl, if_pos rfl, entryLines_singleton]
      exact lines_regEntries (h rfl) regs key

theorem lines_regsEntries (regs : Regs c.toRegConfig) :
    indent (indent (entryLines (regsEntries regs))) =
      "    gp:".toList :: logRegs .gp regs ++
        (if c.FLOATS then "    fp:".toList :: logRegs .fp regs else []) ++
        (if c.VECTOR then "    vec:".toList :: logRegs .vec regs else []) := by
  unfold regsEntries
  rw [entryLines_append, entryLines_append, indent_append, indent_append, indent_append,
    indent_append, lines_ite_regEntries count_fp_ne_zero, lines_ite_regEntries count_vec_ne_zero,
    entryLines_singleton, lines_regEntries (count_gp_ne_zero _)]
  rfl

theorem ne_nil_of_mapM {α β : Type} {f : α → Option β} {l : List α} {l' : List β} (hne : l ≠ [])
    (h : l.mapM f = some l') : l' ≠ [] := by
  obtain ⟨x, rest, rfl⟩ := List.exists_cons_of_ne_nil hne
  simp only [List.mapM_cons, Option.bind_eq_bind, Option.bind_eq_some_iff] at h
  obtain ⟨y, -, rest', -, hout⟩ := h
  cases hout
  exact List.cons_ne_nil _ _

/-- The document has the lines that `log_input` writes. -/
theorem lines_inputDocument {env : LogEnv c} {instrSeq : List UInt32} {dis : List OneLine}
    (hne : instrSeq ≠ []) (hdis : instrSeq.mapM env.disasmOpcodes = some dis)
    (regs : Regs c.toRegConfig) :
    logInput env instrSeq regs [] = some (inputDocument dis instrSeq regs).lines := by
  have hinstrs : (instrSeq.map fun w => Node.scalar ("0x".toList ++ hexPad 8 w.toNat)) ≠ [] :=
    fun h => hne (List.map_eq_nil_iff.mp h)
  have hnames : (dis.map fun t => Node.scalar (quote t.1)) ≠ [] :=
    fun h => ne_nil_of_mapM hne hdis (List.map_eq_nil_iff.mp h)
  have hregs : regsEntries regs ≠ [] := List.cons_ne_nil _ _
  -- below `input:` the lists are not indented any further, but the registers are
  have hsplit : entryLines (inputEntries dis instrSeq regs) =
      "instr_seq:".toList ::
        (instrSeq.map fun w => "- ".toList ++ ("0x".toList ++ hexPad 8 w.toNat)) ++
      ("dis_opcodes:".toList :: (dis.map fun t => "- ".toList ++ quote t.1) ++
      ("regs:".toList :: indent (entryLines (regsEntries regs)))) := by
    rw [inputEntries, entryLines, entryLines, entryLines, entryLines, under_seq hinstrs,
      under_seq hnames, under_map hregs, itemLines_scalars, itemLines_scalars, List.append_nil]
    rfl
  have hentries : inputEntries dis instrSeq regs ≠ [] := List.cons_ne_nil _ _
  -- an input alone is logged without mappings
  have hlines : (inputDocument dis instrSeq regs).lines =
      "input:".toList :: indent (entryLines (inputEntries dis instrSeq regs)) ++
        ["mappings: []".toList] := by
    rw [inputDocument, Node.lines, entryLines, entryLines_singleton, under_map hentries]
    rfl
  have hindent : ∀ l : List UInt32,
      indent (l.map fun w => "- ".toList ++ ("0x".toList ++ hexPad 8 w.toNat)) =
        l.map fun w => "  - 0x".toList ++ hexPad 8 w.toNat := by
    intro l
    rw [indent, List.map_map]
    rfl
  have hindent' : ∀ l : List OneLine, indent (l.map fun t => "- ".toList ++ quote t.1) =
      l.map fun t => "  - '".toList ++ t.1 ++ "'".toList := by
    intro l
    rw [indent, List.map_map]
    rfl
  have hregsLines : indent ("regs:".toList :: indent (entryLines (regsEntries regs))) =
      "  regs:".toList :: indent (indent (entryLines (regsEntries regs))) := rfl
  have hinstrLines : ∀ ls, indent ("instr_seq:".toList :: ls) =
      "  instr_seq:".toList :: indent ls := fun _ => rfl
  have hnameLines : ∀ ls, indent ("dis_opcodes:".toList :: ls) =
      "  dis_opcodes:".toList :: indent ls := fun _ => rfl
  rw [hlines, hsplit, indent_append, indent_append, hinstrLines, hnameLines, hregsLines, hindent,
    hindent', lines_regsEntries, logInput, hdis, Option.bind_eq_bind, Option.bind_some]
  have hmappings : logMappings [] = ["mappings: []".toList] := rfl
  rw [hmappings]
  simp only [List.cons_append, List.append_assoc, List.nil_append]

/-! ## It is a document

No register has two lines, and what is between quotes must not have one itself (`Quotable`). -/

theorem nodup_regNames (k : RegClass) :
    ((List.finRange (c.count k)).map fun i =>
      (Reg.name (⟨k, i⟩ : Reg c.toRegConfig)).toList).Nodup := by
  refine (List.nodup_finRange _).map_on fun i _ j _ h => ?_
  have hreg := Reg.name_inj (String.toList_inj.mp h)
  exact eq_of_heq (Sigma.mk.inj hreg).2

theorem document_regEntries (k : RegClass) (regs : Regs c.toRegConfig) :
    (Node.map (regEntries k regs)).Document := by
  apply Node.Document.map
  · rw [regEntries, List.map_map]
    exact nodup_regNames k
  · intro p hp
    obtain ⟨i, -, rfl⟩ := List.mem_map.mp hp
    refine ⟨Reg.forall_name isKey_names (⟨k, i⟩ : Reg c.toRegConfig), ?_⟩
    exact Node.Document.scalar (Or.inl (isPlain_regText _))

theorem document_regsEntries (regs : Regs c.toRegConfig) :
    (Node.map (regsEntries regs)).Document := by
  have hkeys : ((regsEntries regs).map Prod.fst).Sublist
      ["gp".toList, "fp".toList, "vec".toList] := by
    rw [regsEntries, List.map_append, List.map_append]
    exact ((List.Sublist.refl ["gp".toList]).append (keys_ite _ _)).append (keys_ite _ _)
  apply Node.Document.map
  · exact List.Nodup.sublist hkeys (by decide)
  · intro p hp
    have hclass : ∀ (q : Bool) (key : String) (k : RegClass), isKey key.toList = true →
        p ∈ (if q then [(key.toList, Node.map (regEntries k regs))] else []) →
        isKey p.1 = true ∧ p.2.Document := by
      intro q key k hkey hmem
      cases q with
      | false => cases hmem
      | true =>
          obtain rfl := List.mem_singleton.mp hmem
          exact ⟨hkey, document_regEntries k regs⟩
    rcases List.mem_append.mp hp with hp | hp
    · rcases List.mem_append.mp hp with hp | hp
      · exact hclass true "gp" .gp rfl hp
      · exact hclass c.FLOATS "fp" .fp rfl hp
    · exact hclass c.VECTOR "vec" .vec rfl hp

/-- A disassembly that can stand between the quotes. -/
def Quotable (dis : List OneLine) : Prop := ∀ t ∈ dis, isQuotable t.1 = true

theorem document_inputDocument {dis : List OneLine} (hdis : Quotable dis) (instrSeq : List UInt32)
    (regs : Regs c.toRegConfig) : (inputDocument dis instrSeq regs).Document := by
  have hinstrs : (Node.seq (instrSeq.map fun w =>
      .scalar ("0x".toList ++ hexPad 8 w.toNat))).Document := by
    apply Node.Document.seq
    intro v hv
    obtain ⟨w, -, rfl⟩ := List.mem_map.mp hv
    exact Node.Document.scalar (Or.inl (isPlain_hexPad 8 _))
  -- the texts of the disassembly are the only quoted scalars
  have hnames : (Node.seq (dis.map fun t => .scalar (quote t.1))).Document := by
    apply Node.Document.seq
    intro v hv
    obtain ⟨t, ht, rfl⟩ := List.mem_map.mp hv
    exact Node.Document.scalar (Or.inr ⟨t.1, hdis t ht, rfl⟩)
  obtain ⟨hinput, hmappings, hseq, hdisOpcodes, hregs⟩ : isKey "input".toList = true ∧
      isKey "mappings".toList = true ∧ isKey "instr_seq".toList = true ∧
      isKey "dis_opcodes".toList = true ∧ isKey "regs".toList = true := by decide +kernel
  have hentries : (Node.map (inputEntries dis instrSeq regs)).Document := by
    apply Node.Document.map
    · show (["instr_seq".toList, "dis_opcodes".toList, "regs".toList]).Nodup
      decide
    · intro p hp
      simp only [inputEntries, List.mem_cons, List.not_mem_nil, or_false] at hp
      rcases hp with rfl | rfl | rfl
      · exact ⟨hseq, hinstrs⟩
      · exact ⟨hdisOpcodes, hnames⟩
      · exact ⟨hregs, document_regsEntries regs⟩
  apply Node.Document.map
  · show (["input".toList, "mappings".toList]).Nodup
    decide
  · intro p hp
    simp only [List.mem_cons, List.not_mem_nil, or_false] at hp
    rcases hp with rfl | rfl
    · exact ⟨hinput, hentries⟩
    · exact ⟨hmappings, Node.Document.seq (List.forall_mem_nil _)⟩

/-! ## `from_dict`

The registers of a class are looked up by their names. One that is missing, or has no number of its
width, makes the call fail. -/

/-- An integer of so many bits; no other value fits into the input. -/
def toBits (n : Nat) : Value → Option Nat
  | .int i => if 0 ≤ i ∧ i < 2 ^ n then some i.toNat else none
  | _ => none

/-- `[regs[key][j] for j in names]`. -/
def regValues (n : Nat) (regs : Value) (key : String) (names : List String) :
    Option (List Nat) := do
  let d ← regs.getItem key
  names.mapM fun j => do toBits n (← d.getItem j)

/-- The same for a class that only some configurations have. -/
def optRegValues (given : Bool) (n : Nat) (regs : Value) (key : String) (names : List String) :
    Option (Option (List Nat)) :=
  if given then (regValues n regs key names).map some else some none

namespace InputWithValues

/-- The constructors of the two subclasses, with what they assert. -/
def new (arch : Arch) (instrSeq : List UInt32) (gp : List UInt64) (fp : Option (List UInt64))
    (vec : Option (List (BitVec 128))) : Option (InputWithValues arch) :=
  if h : gp.length = arch.gp.length ∧
      (fp.all fun l => l.length == arch.fp.length) = true ∧
      (vec.all fun l => l.length == pyVec.length) = true ∧
      buildAdmits arch fp.isSome vec.isSome = true then
    some
      { instrSeq := instrSeq
        seqLen := instrSeq.length
        fullSeq := false
        seqLen_le := Nat.le_refl _
        gp := gp
        fp := fp
        vec := vec
        gp_length := h.1
        fp_length := by
          rintro l rfl
          simpa using h.2.1
        vec_length := by
          rintro l rfl
          simpa using h.2.2.1
        admitted := h.2.2.2 }
  else none

/-- `from_dict`. A document without `instr_seq` would be assembled; `log_input` writes it always. -/
def fromDict (c : RegConfig) (d : Value) : Option (InputWithValues c.arch) := do
  let instrSeq ← (← (← d.getItem "instr_seq").elements).mapM (toBits 32)
  let regs ← d.getItem "regs"
  let gp ← regValues 64 regs "gp" c.arch.gp
  let fp ← optRegValues c.FLOATS 64 regs "fp" c.arch.fp
  let vec ← optRegValues c.VECTOR 128 regs "vec" pyVec
  new c.arch (instrSeq.map UInt32.ofNat) (gp.map UInt64.ofNat) (fp.map (·.map UInt64.ofNat))
    (vec.map (·.map (BitVec.ofNat 128)))

end InputWithValues

/-- `from_str`. -/
def InputWithValues.fromStr (c : RegConfig) (safeLoad : Text → Option Value) (txt : Text) :
    Option (InputWithValues c.arch) := do
  InputWithValues.fromDict c (← (← safeLoad txt).getItem "input")

/-- An input passes the assertions itself. -/
theorem InputWithValues.new_eq {arch : Arch} (inp : InputWithValues arch)
    (hlen : inp.seqLen = inp.instrSeq.length) (hfull : inp.fullSeq = false) :
    new arch inp.instrSeq inp.gp inp.fp inp.vec = some inp := by
  have hfp : (inp.fp.all fun l => l.length == arch.fp.length) = true := by
    cases hfp : inp.fp with
    | none => rfl
    | some l => simp [inp.fp_length l hfp]
  have hvec : (inp.vec.all fun l => l.length == pyVec.length) = true := by
    cases hvec : inp.vec with
    | none => rfl
    | some l => simp [inp.vec_length l hvec]
  rw [new, dif_pos ⟨inp.gp_length, hfp, hvec, inp.admitted⟩]
  obtain ⟨⟨instrSeq, seqLen, fullSeq, hle⟩, gp, fp, vec, _, _, _, _⟩ := inp
  obtain rfl : seqLen = instrSeq.length := hlen
  obtain rfl : fullSeq = false := hfull
  rfl

/-! ## What it reads back

Every register of a class is named, so all values come from the document. -/

/-- The numbers in the registers of a class. -/
def classValues {c : RegConfig} (regs : Regs c) (k : RegClass) : List Nat :=
  (List.finRange (c.count k)).map fun i => (Reg.val (⟨k, i⟩ : Reg c) regs).toNat

theorem length_classValues {c : RegConfig} (regs : Regs c) (k : RegClass) :
    (classValues regs k).length = c.count k := by
  rw [classValues, List.length_map, List.length_finRange]

theorem getD_classValues {c : RegConfig} (regs : Regs c) (r : Reg c) :
    (classValues regs r.1).getD r.2 0 = (r.val regs).toNat := by
  obtain ⟨k, i⟩ := r
  have hi : i.1 < (List.finRange (c.count k)).length := by simp
  have hget : (List.finRange (c.count k))[i.1] = i := by simp
  rw [List.getD_eq_getElem?_getD, classValues, List.getElem?_map, List.getElem?_eq_getElem hi, hget]
  rfl

/-- The input with these registers, as the server holds it. -/
def InputWithValues.ofRegs (c : RegConfig) (instrSeq : List UInt32) (regs : Regs c) :
    InputWithValues c.arch where
  instrSeq := instrSeq
  seqLen := instrSeq.length
  fullSeq := false
  seqLen_le := Nat.le_refl _
  gp := (classValues regs .gp).map UInt64.ofNat
  fp := if c.FLOATS then some ((classValues regs .fp).map UInt64.ofNat) else none
  vec := if c.VECTOR then some ((classValues regs .vec).map (BitVec.ofNat 128)) else none
  gp_length := by
    rw [List.length_map, length_classValues]
    exact (RegConfig.length_names c .gp).symm
  fp_length := by
    intro l hl
    split at hl
    next hfloats =>
      cases hl
      have hnames := RegConfig.length_names c .fp
      rw [RegConfig.names, if_pos hfloats] at hnames
      rw [List.length_map, length_classValues, hnames]
    next => cases hl
  vec_length := by
    intro l hl
    split at hl
    next hvector =>
      cases hl
      have hnames := RegConfig.length_names c .vec
      rw [RegConfig.names, if_pos hvector] at hnames
      rw [List.length_map, length_classValues, hnames]
    next => cases hl
  admitted := by
    have hadmitted := c.admitted
    cases hfloats : c.FLOATS <;> cases hvector : c.VECTOR <;>
      simpa [hfloats, hvector] using hadmitted

theorem lookup_map_of_nodup {α β γ : Type} [BEq β] [LawfulBEq β] {f : α → β} (g : α → γ)
    {l : List α} (h : (l.map f).Nodup) {x : α} (hx : x ∈ l) :
    (l.map fun x => (f x, g x)).lookup (f x) = some (g x) := by
  induction l with
  | nil => cases hx
  | cons y l ih =>
      rw [List.map_cons, List.nodup_cons] at h
      rw [List.map_cons, List.lookup_cons]
      rcases List.mem_cons.mp hx with rfl | hmem
      · rw [beq_self_eq_true]
      · have hne : (f x == f y) = false :=
          beq_eq_false_iff_ne.mpr fun heq => h.1 (heq ▸ List.mem_map_of_mem hmem)
        rw [hne]
        exact ih h.2 hmem

theorem toBits_of_lt {n m : Nat} (h : m < 2 ^ n) : toBits n (.int m) = some m := by
  have hcast : (m : Int) < 2 ^ n := by exact_mod_cast h
  rw [toBits, if_pos ⟨Int.natCast_nonneg m, hcast⟩, Int.toNat_natCast]

/-- The registers of a class are found under their names. -/
theorem regValues_eq {n : Nat} {k : RegClass} (hn : 8 * k.size = n) {regs : Regs c.toRegConfig}
    {v : Value} {key : String}
    (hv : v.getItem key = some (Node.map (regEntries k regs)).value.unquote) :
    regValues n v key (c.names k) = some (classValues regs k) := by
  subst hn
  rw [regValues, hv, ← RegConfig.names_eq, Option.bind_eq_bind, Option.bind_some, List.mapM_map,
    classValues]
  apply Dict.mapM_eq_some
  intro i hi
  have hlookup : (regEntries k regs).lookup (Reg.name (⟨k, i⟩ : Reg c.toRegConfig)).toList =
      some (Node.scalar (regText (Reg.val (⟨k, i⟩ : Reg c.toRegConfig) regs))) :=
    lookup_map_of_nodup (fun i => Node.scalar (regText (Reg.val (⟨k, i⟩ : Reg c.toRegConfig) regs)))
      (nodup_regNames k) hi
  show ((Node.map (regEntries k regs)).value.unquote.getItem
    (Reg.name (⟨k, i⟩ : Reg c.toRegConfig))).bind (toBits (8 * k.size)) = _
  rw [getItem_unquote, hlookup, Option.map_some, Node.value, resolve_regText, Value.unquote_int,
    Option.bind_some]
  exact toBits_of_lt (BitVec.isLt _)

theorem lookup_regsEntries_fp {regs : Regs c.toRegConfig} (h : c.FLOATS = true) :
    (regsEntries regs).lookup "fp".toList = some (.map (regEntries .fp regs)) := by
  rw [regsEntries, if_pos h]
  rfl

theorem lookup_regsEntries_vec {regs : Regs c.toRegConfig} (h : c.VECTOR = true) :
    (regsEntries regs).lookup "vec".toList = some (.map (regEntries .vec regs)) := by
  rw [regsEntries, if_pos h]
  cases c.FLOATS <;> rfl

/-- The server reads back what was logged. -/
theorem fromDict_inputDocument (dis : List OneLine) (instrSeq : List UInt32)
    (regs : Regs c.toRegConfig) :
    InputWithValues.fromDict c.toRegConfig
        (Node.map (inputEntries dis instrSeq regs)).value.unquote =
      some (InputWithValues.ofRegs c.toRegConfig instrSeq regs) := by
  have hitem : ∀ key v, (inputEntries dis instrSeq regs).lookup (String.toList key) = some v →
      (Node.map (inputEntries dis instrSeq regs)).value.unquote.getItem key =
        some v.value.unquote := by
    intro key v hv
    rw [getItem_unquote, hv, Option.map_some]
  -- what is found under a key of the registers
  have hclass : ∀ key v, (regsEntries regs).lookup (String.toList key) = some v →
      (Node.map (regsEntries regs)).value.unquote.getItem key = some v.value.unquote := by
    intro key v hv
    rw [getItem_unquote, hv, Option.map_some]
  have hinstrs : (instrSeq.map fun w =>
      (Node.scalar ("0x".toList ++ hexPad 8 w.toNat)).value.unquote).mapM (toBits 32) =
        some (instrSeq.map UInt32.toNat) := by
    rw [List.mapM_map]
    apply Dict.mapM_eq_some
    intro w _
    show toBits 32 (Node.scalar ("0x".toList ++ hexPad 8 w.toNat)).value.unquote = _
    rw [Node.value, resolve_hexPad, Value.unquote_int]
    exact toBits_of_lt w.toNat_lt
  have hgpItem := hclass "gp" (.map (regEntries .gp regs)) rfl
  have hgp : regValues 64 (Node.map (regsEntries regs)).value.unquote "gp" c.arch.gp =
      some (classValues regs .gp) := regValues_eq (k := .gp) rfl hgpItem
  -- the class is there exactly if the build has it, on both sides
  have hfp : optRegValues c.FLOATS 64 (Node.map (regsEntries regs)).value.unquote "fp" c.arch.fp =
      some (if c.FLOATS then some (classValues regs .fp) else none) := by
    unfold optRegValues
    split
    next h =>
      have hitem := hclass "fp" (.map (regEntries .fp regs)) (lookup_regsEntries_fp h)
      have hvalues : regValues 64 (Node.map (regsEntries regs)).value.unquote "fp" (c.names .fp) =
          some (classValues regs .fp) := regValues_eq (k := .fp) rfl hitem
      rw [RegConfig.names, if_pos h] at hvalues
      rw [hvalues]
      rfl
    next => rfl
  have hvec : optRegValues c.VECTOR 128 (Node.map (regsEntries regs)).value.unquote "vec" pyVec =
      some (if c.VECTOR then some (classValues regs .vec) else none) := by
    unfold optRegValues
    split
    next h =>
      have hitem := hclass "vec" (.map (regEntries .vec regs)) (lookup_regsEntries_vec h)
      have hvalues : regValues 128 (Node.map (regsEntries regs)).value.unquote "vec"
          (c.names .vec) = some (classValues regs .vec) := regValues_eq (k := .vec) rfl hitem
      rw [RegConfig.names, if_pos h] at hvalues
      rw [hvalues]
      rfl
    next => rfl
  have helements : (Node.seq (instrSeq.map fun w =>
      .scalar ("0x".toList ++ hexPad 8 w.toNat))).value.unquote.elements =
        some (instrSeq.map fun w =>
          (Node.scalar ("0x".toList ++ hexPad 8 w.toNat)).value.unquote) := by
    rw [elements_unquote, List.map_map]
    rfl
  have hite : ∀ {α β : Type} (f : α → β) (p : Bool) (x : α),
      (if p then some x else none).map f = if p then some (f x) else none := by
    intro α β f p x
    cases p <;> rfl
  have hwords : (instrSeq.map UInt32.toNat).map UInt32.ofNat = instrSeq := by
    simp [List.map_map, Function.comp_def]
  have hnew := InputWithValues.new_eq (InputWithValues.ofRegs c.toRegConfig instrSeq regs) rfl rfl
  rw [← hnew]
  simp only [InputWithValues.fromDict, hitem "instr_seq" _ rfl, hitem "regs" _ rfl, helements,
    hinstrs, hgp, hfp, hvec, Option.bind_eq_bind, Option.bind_some, hite, hwords]
  rfl

/-- The disassembler names every instruction, in a text that can stand between quotes. -/
def LogEnv.Disassembles (env : LogEnv c) : Prop :=
  ∀ w, ∃ t, env.disasmOpcodes w = some t ∧ isQuotable t.1 = true

theorem LogEnv.Disassembles.mapM {env : LogEnv c} (h : env.Disassembles)
    (instrSeq : List UInt32) :
    ∃ dis, instrSeq.mapM env.disasmOpcodes = some dis ∧ Quotable dis := by
  induction instrSeq with
  | nil => exact ⟨[], rfl, List.forall_mem_nil _⟩
  | cons w instrSeq ih =>
      obtain ⟨t, ht, hquotable⟩ := h w
      obtain ⟨dis, hdis, hall⟩ := ih
      refine ⟨t :: dis, ?_, List.forall_mem_cons.mpr ⟨hquotable, hall⟩⟩
      rw [List.mapM_cons, ht, hdis]
      rfl

/-- What `log_input` writes is the input that `from_str` gives. -/
theorem fromStr_logInput {env : LogEnv c} (henv : env.Disassembles)
    {safeLoad : Text → Option Value} (hload : ReadsDocuments safeLoad) {instrSeq : List UInt32}
    (hne : instrSeq ≠ []) (regs : Regs c.toRegConfig) :
    ((logInput env instrSeq regs []).map unlines).bind
        (InputWithValues.fromStr c.toRegConfig safeLoad) =
      some (InputWithValues.ofRegs c.toRegConfig instrSeq regs) := by
  obtain ⟨dis, hdis, hquotable⟩ := henv.mapM instrSeq
  have hread := hload _ (document_inputDocument hquotable instrSeq regs)
  have hitem : (inputDocument dis instrSeq regs).value.unquote.getItem "input" =
      some (Node.map (inputEntries dis instrSeq regs)).value.unquote := by
    rw [inputDocument, getItem_unquote]
    rfl
  rw [lines_inputDocument hne hdis, Option.map_some, Option.bind_some, InputWithValues.fromStr,
    hread, Option.bind_eq_bind, Option.bind_some, hitem, Option.bind_some]
  exact fromDict_inputDocument dis instrSeq regs

end RISCover
