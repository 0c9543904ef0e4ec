import RISCover.Repro.Sections
import RISCover.Repro.ToYaml

/-!
# The lines of what the server logs

`Repro.to_yaml` as lines: the sections that `load_repro` knows, with what the loops over them need,
and lines between them that open none. Below a key of the server's dictionaries only the input has
lines that do.
-/

open Text Yaml

namespace RISCover

/-! ## Keys that open no section

Below a key the lines are indented, but `load_repro` skips the indentation. So it is the keys that
matter, and which of them open a section is decided once for all. -/

/-- The line, with some indentation, opens one of the sections. -/
def opens (l : Text) : Bool :=
  startsWith (lstrip l) "instr_seq:" || startsWith (lstrip l) "regs:" ||
    startsWith (lstrip l) "mappings:"

/-- A key whose line opens none of them, whatever stands behind it. -/
def inner (key : Text) : Bool :=
  key ≠ [] && !key.contains '\n' && lstrip (key ++ ":".toList) ≠ [] &&
    ["instr_seq:", "regs:", "mappings:"].all fun head =>
      apart (lstrip (key ++ ":".toList)) head.toList

theorem opens_append {key : Text} (h : inner key = true) (t : Text) :
    opens (key ++ ":".toList ++ t) = false := by
  simp only [inner, Bool.and_eq_true, decide_eq_true_eq, List.all_cons, List.all_nil] at h
  obtain ⟨⟨-, hne⟩, hinstr, hregs, hmappings, -⟩ := h
  simp only [opens, lstrip_append hne, startsWith_append_eq_false hinstr,
    startsWith_append_eq_false hregs, startsWith_append_eq_false hmappings, Bool.or_self]

theorem isLine_of_inner {key : Text} (h : inner key = true) : IsLine key := by
  simp only [inner, Bool.and_eq_true, decide_eq_true_eq, Bool.not_eq_true', List.contains_eq_mem,
    decide_eq_false_iff_not] at h
  exact ⟨h.1.1.1, h.1.1.2⟩

/-- No line below such keys opens a section. -/
theorem lineRule_opens :
    LineRule (fun key => inner key = true) (fun t => '\n' ∉ t) (fun l => opens l = false) where
  of_indent l h := h
  of_dash l _ := rfl
  of_below key h := by
    rw [← List.append_nil (key ++ ":".toList)]
    exact opens_append h []
  of_behind key t h _ := by
    have hline : key ++ ": ".toList ++ t = key ++ ":".toList ++ (' ' :: t) := by simp
    rw [hline]
    exact opens_append h _
  seq_nil := by decide
  map_nil := by decide

/-- The loop over the text goes past an indented line if it opens none of its sections. -/
theorem skipped_of_opens {l : Text} (h : opens l = false) (hkey : ofKey l = true) :
    skipped l = true := by
  have hflags : topLevelFlags l = false := by
    rw [topLevelFlags, decide_eq_false_iff_not]
    rintro ⟨-, hstart⟩
    cases l with
    | nil => cases hkey
    | cons ch t =>
        have hhead : ch = 'f' := by
          by_contra hne
          have hflags : startsWith (ch :: t) "flags:" = false := startsWith_cons_of_ne hne t rfl
          rw [hflags] at hstart
          cases hstart
        subst hhead
        cases hkey
  rw [opens, Bool.or_eq_false_iff, Bool.or_eq_false_iff] at h
  simp only [skipped, h.1.1, h.1.2, h.2, hflags, Bool.or_self, Bool.not_false]

/-- A part of a document without the heads of sections. -/
def Inner (v : Node) : Prop := v.All (fun key => inner key = true) fun t => '\n' ∉ t

def InnerEntries (entries : List (Text × Node)) : Prop :=
  ∀ p ∈ entries, inner p.1 = true ∧ Inner p.2

theorem Inner.oneLine {v : Node} (h : Inner v) : v.All IsLine fun t => '\n' ∉ t :=
  h.imp (fun _ => isLine_of_inner) fun _ ht => ht

/-- All lines below a key that is no head itself are passed over. -/
theorem skipped_under {key : Text} (hkey : plainStart (key ++ ":".toList) = true) {v : Node}
    (hv : Inner v) (hinner : inner key = true) : ∀ l ∈ v.under key, skipped l = true := by
  have hopens := (lineRule_opens.forall_lines v hv).2 key hinner
  obtain ⟨t, ls, hunder, hls⟩ := exists_under key v
  rw [hunder] at hopens ⊢
  rw [List.forall_mem_cons] at hopens ⊢
  refine ⟨?_, fun l hl => skipped_of_opens (hopens.2 l hl) (hls l hl)⟩
  rw [plainStart, Bool.and_eq_true] at hkey
  have hline : key ++ ':' :: t = key ++ ":".toList ++ t := by simp
  rw [hline]
  exact skipped_append hkey.1 t

/-! ## The dictionaries of the server

Each of them has inner keys only, and scalars without a line break. -/

section Dictionaries

theorem inner_map {entries : List (Text × Node)} (h : InnerEntries entries) :
    Inner (.map entries) :=
  allEntries_iff.mpr h

theorem inner_seq {α : Type} {f : α → Node} {xs : List α} (h : ∀ x ∈ xs, Inner (f x)) :
    Inner (.seq (xs.map f)) := by
  apply allItems_iff.mpr
  intro v hv
  obtain ⟨x, hx, rfl⟩ := List.mem_map.mp hv
  exact h x hx

theorem innerEntries_append {xs ys : List (Text × Node)} :
    InnerEntries (xs ++ ys) ↔ InnerEntries xs ∧ InnerEntries ys :=
  List.forall_mem_append

theorem innerEntries_cons {p : Text × Node} {entries : List (Text × Node)} :
    InnerEntries (p :: entries) ↔ (inner p.1 = true ∧ Inner p.2) ∧ InnerEntries entries :=
  List.forall_mem_cons

theorem innerEntries_nil : InnerEntries [] := List.forall_mem_nil _

theorem innerEntries_map {α : Type} {f : α → Text × Node} {xs : List α}
    (h : ∀ x ∈ xs, inner (f x).1 = true ∧ Inner (f x).2) : InnerEntries (xs.map f) := by
  intro p hp
  obtain ⟨x, hx, rfl⟩ := List.mem_map.mp hp
  exact h x hx

@[simp] theorem newline_notMem_hexintPresenter (n : Int) : '\n' ∉ hexintPresenter n := by
  cases n <;> simp [hexintPresenter]

theorem inner_hexNode (n : Nat) : Inner (hexNode n) := newline_notMem_hexintPresenter n

theorem inner_strNode (t : OneLine) : Inner (strNode t) := t.2

theorem inner_optNode (n : Option Nat) : Inner (optNode n) := by
  cases n with
  | none =>
      show '\n' ∉ "null".toList
      decide
  | some n => exact inner_hexNode n

theorem inner_strs (l : List OneLine) : Inner (.seq (l.map strNode)) :=
  inner_seq fun t _ => inner_strNode t

/-- The keys of registers are inner keys. -/
theorem inner_names (arch : Arch) (k : RegClass) :
    ∀ name ∈ k.names arch, inner name.toList = true := by
  cases arch <;> cases k <;> decide +kernel

theorem inner_of_mem_regsMapping {c : RegConfig} {name : String} (h : name ∈ c.regsMapping) :
    inner name.toList = true := by
  rw [← RegConfig.allRegs_name] at h
  obtain ⟨r, -, rfl⟩ := List.mem_map.mp h
  exact r.forall_name inner_names

theorem inner_counterEntry {key : String} (hkey : inner key.toList = true) (n : Option Nat) :
    InnerEntries (counterEntry key n) :=
  innerEntries_map fun n _ => ⟨hkey, inner_hexNode n⟩

theorem inner_memDiff (d : MemDiff) : InnerEntries d.toDict := by
  simp only [MemDiff.toDict, innerEntries_cons, innerEntries_nil, inner_hexNode, and_true]
  decide

theorem inner_result {κ : Type} {c : RegConfig} {r : Result κ}
    (h : r.regs.keys ⊆ c.regsMapping) : InnerEntries r.toDict := by
  simp only [Result.toDict, innerEntries_append, innerEntries_cons, innerEntries_nil,
    inner_hexNode, and_true]
  refine ⟨⟨⟨⟨by decide, inner_counterEntry rfl _⟩, inner_counterEntry rfl _⟩, rfl, ?_⟩, ?_⟩
  · apply inner_map
    apply innerEntries_map
    intro p hp
    exact ⟨inner_of_mem_regsMapping (h (List.mem_map_of_mem hp)), inner_hexNode _⟩
  · apply innerEntries_map
    intro ds _
    exact ⟨rfl, inner_seq fun d _ => inner_map (inner_memDiff d)⟩

theorem inner_microarchitecture (m : Microarchitecture) : InnerEntries m.toDict := by
  simp only [Microarchitecture.toDict, innerEntries_cons, innerEntries_nil, inner_hexNode,
    inner_strNode, inner_strs, and_true]
  decide

theorem inner_clientMeta (arch : Arch) (m : ClientMeta) : InnerEntries (m.toDict arch) := by
  simp only [ClientMeta.toDict, innerEntries_append, innerEntries_cons, innerEntries_nil,
    inner_hexNode, inner_strNode, and_true]
  refine ⟨⟨⟨⟨by decide, ?_⟩, by decide, by decide, by decide,
    ⟨by decide, inner_map (inner_microarchitecture _)⟩, by decide, ?_⟩,
    inner_counterEntry rfl _⟩, by decide, ?_⟩
  · show '\n' ∉ "realclient".toList
    decide
  · have htag : ∀ tag : Tag, inner tag.name.toList = true := by
      intro tag
      cases tag <;> decide
    exact inner_map (innerEntries_map fun p _ => ⟨htag p.1, inner_strNode p.2⟩)
  · apply inner_map
    cases arch with
    | riscv64 => exact innerEntries_nil
    | aarch64 =>
        simp only [innerEntries_cons, innerEntries_nil, inner_optNode, and_true]
        decide

theorem inner_instructionCollection (arch : Arch) (i : InstructionCollection) :
    InnerEntries (i.toDict arch) := by
  simp only [InstructionCollection.toDict, innerEntries_append, innerEntries_cons,
    innerEntries_nil, inner_strNode, inner_strs, and_true]
  refine ⟨⟨⟨by decide, ?_⟩, by decide⟩, ?_⟩
  · cases i.extensions with
    | none =>
        show '\n' ∉ "null".toList
        decide
    | some l => exact inner_strs l
  · cases arch with
    | aarch64 =>
        simp only [innerEntries_cons, innerEntries_nil, and_true]
        exact ⟨rfl, by show '\n' ∉ "ArmInstructionCollection".toList; decide⟩
    | riscv64 =>
        simp only [innerEntries_cons, innerEntries_nil, inner_strNode, and_true]
        exact ⟨⟨rfl, by show '\n' ∉ "RiscvInstructionCollection".toList; decide⟩, rfl⟩

theorem innerEntries_field {key : String} {t : Text} (hkey : inner key.toList = true)
    (ht : '\n' ∉ t) {entries : List (Text × Node)} (h : InnerEntries entries) :
    InnerEntries (field key t :: entries) :=
  innerEntries_cons.mpr ⟨⟨hkey, ht⟩, h⟩

theorem inner_generator (arch : Arch) (g : Generator) : InnerEntries (g.toDict arch) := by
  have hname : '\n' ∉ g.args.className.toList := by
    cases g.args <;> simp [GeneratorArgs.className]
  have hbool : ∀ b : Bool, '\n' ∉ (if b then "true".toList else "false".toList) := by decide
  have hargs : InnerEntries g.args.toDict := by
    cases g.args with
    | template exampleArg seed =>
        exact innerEntries_field rfl (by simp) (innerEntries_field rfl (by simp) innerEntries_nil)
    | random seqLen numRegs seed weighted | offlineRandom seqLen numRegs seed weighted =>
        exact innerEntries_field rfl (by simp) (innerEntries_field rfl (by simp)
          (innerEntries_field rfl (by simp) (innerEntries_field rfl (hbool _) innerEntries_nil)))
  rw [Generator.toDict, innerEntries_append]
  refine ⟨innerEntries_field rfl hname (innerEntries_cons.mpr ⟨⟨rfl, ?_⟩, innerEntries_nil⟩), hargs⟩
  exact inner_map (inner_instructionCollection arch _)

end Dictionaries

/-! ## The registers

A class is a dictionary below its key, so its registers are indented three times. -/

variable {b : Build}

theorem indent_hexNode (key : Text) (n : Nat) :
    indent (indent (indent ((hexNode n).under key))) =
      ["      ".toList ++ key ++ ": ".toList ++ ("0x".toList ++ hex n)] := by
  simp [hexNode, Node.under, behind, indent, hexintPresenter]

/-- The names of a class with their values are its lines. -/
theorem lines_regsNode {c : RegConfig} {k : RegClass} (key : Text) {values : List Nat}
    {target : Regs c} (hne : c.count k ≠ 0)
    (hvalues : values = (List.finRange (c.count k)).map fun i => ((target k).get i).toNat) :
    indent (indent ((regsNode (c.names k) values).under key)) =
      ("    ".toList ++ key ++ ":".toList) ::
        regLines c (fun r => hex (r.val target).toNat) k := by
  let value (i : Fin (c.count k)) : Text × Node :=
    ((Reg.name (⟨k, i⟩ : Reg c)).toList, hexNode ((target k).get i).toNat)
  have hentries : regsNode (c.names k) values = .map ((List.finRange (c.count k)).map value) := by
    rw [regsNode, hvalues, ← RegConfig.names_eq, List.zip_map', List.map_map]
    rfl
  -- one line for each register, with three indentations
  have hlines : ∀ l : List (Fin (c.count k)),
      indent (indent (indent (entryLines (l.map value)))) =
        l.map fun i => regLine ⟨k, i⟩ (hex ((target k).get i).toNat) := by
    intro l
    induction l with
    | nil => rfl
    | cons i l ih =>
        have hline : indent (indent (indent ((value i).2.under (value i).1))) =
            [regLine ⟨k, i⟩ (hex ((target k).get i).toNat)] := indent_hexNode _ _
        rw [List.map_cons, entryLines, List.map_cons, ← ih, indent_append, indent_append,
          indent_append, hline]
        rfl
  obtain ⟨i, l, hcons⟩ : ∃ i l, List.finRange (c.count k) = i :: l := by
    apply List.exists_cons_of_ne_nil
    rw [Ne, List.finRange_eq_nil_iff]
    exact hne
  have hregs : regLines c (fun r => hex (r.val target).toNat) k =
      indent (indent (indent (entryLines ((List.finRange (c.count k)).map value)))) :=
    (hlines _).symm
  rw [hentries, hregs, hcons, List.map_cons, Node.under]
  rfl

/-- The register values of an input as a register file. -/
def InputWithValues.regs (c : RegConfig) (inp : InputWithValues c.arch) : Regs c :=
  Regs.ofLists c (inp.values c)

section Input

variable {c : RegConfig} {inp : InputWithValues c.arch}

theorem InputWithValues.Carries.values_eq (h : inp.Carries c) (k : RegClass) :
    inp.values c k =
      (List.finRange (c.count k)).map fun i => ((inp.regs c k).get i).toNat := by
  have hlen := h.length_values k
  apply List.ext_getElem
  · simp [hlen]
  · intro i h₁ h₂
    have hi : i < c.count k := hlen ▸ h₁
    have hval : ((inp.regs c k).get ⟨i, hi⟩).toNat = (inp.values c k).getD i 0 :=
      Regs.toNat_val_ofLists (inp.values c) ⟨k, ⟨i, hi⟩⟩ (inp.values_lt c k)
    rw [List.getD_eq_getElem?_getD, List.getElem?_eq_getElem h₁, Option.getD_some] at hval
    simpa using hval.symm

end Input

/-- The registers of the input are the section that `load_repro` knows. -/
theorem lines_regs {inp : InputWithValues b.arch} (h : inp.Carries b.toRegConfig) :
    indent ((Node.map inp.regsToDict).under "regs".toList) =
      regsLines b fun r => hex (r.val (inp.regs b.toRegConfig)).toNat := by
  -- the classes that the build has, and the input has exactly these
  have hclass : ∀ k key, b.count k ≠ 0 →
      indent (indent ((regsNode (b.names k) (inp.values b.toRegConfig k)).under key)) =
        ("    ".toList ++ key ++ ":".toList) ::
          regLines b.toRegConfig (fun r => hex (r.val (inp.regs b.toRegConfig)).toNat) k :=
    fun k key hne => lines_regsNode key hne (h.values_eq k)
  have hgp := hclass .gp "gp".toList (by cases harch : b.arch <;> simp [RegConfig.count, harch])
  have hfp : indent (indent (entryLines (inp.fp.toList.map fun fp =>
        ("fp".toList, regsNode b.arch.fp (InputWithValues.words fp))))) =
      if b.FLOATS then "    fp:".toList :: regLines b.toRegConfig
        (fun r => hex (r.val (inp.regs b.toRegConfig)).toNat) .fp else [] := by
    have hsome := h.fp_isSome
    cases hfp : inp.fp with
    | none =>
        rw [← hsome, hfp]
        rfl
    | some fp =>
        have hfloats : b.FLOATS = true := by rw [← hsome, hfp]; rfl
        have hlines := hclass .fp "fp".toList (by simp [RegConfig.count, hfloats])
        have hnames : b.names .fp = b.arch.fp := by simp [RegConfig.names, hfloats]
        have hvalues : inp.values b.toRegConfig .fp = InputWithValues.words fp := by
          simp [InputWithValues.values, hfp]
        rw [hnames, hvalues] at hlines
        rw [hfloats, Option.toList_some, List.map_singleton, entryLines_singleton, hlines]
        rfl
  have hvec : indent (indent (entryLines (inp.vec.toList.map fun vec =>
        ("vec".toList, regsNode pyVec (vec.map BitVec.toNat))))) =
      vecLines b fun r => hex (r.val (inp.regs b.toRegConfig)).toNat := by
    have hsome := h.vec_isSome
    cases hvec : inp.vec with
    | none =>
        rw [vecLines, ← hsome, hvec]
        rfl
    | some vec =>
        have hvector : b.VECTOR = true := by rw [← hsome, hvec]; rfl
        have hlines := hclass .vec "vec".toList (by simp [RegConfig.count, hvector])
        have hnames : b.names .vec = pyVec := by simp [RegConfig.names, hvector]
        have hvalues : inp.values b.toRegConfig .vec = vec.map BitVec.toNat := by
          simp [InputWithValues.values, hvec]
        rw [hnames, hvalues] at hlines
        rw [vecLines, hvector, Option.toList_some, List.map_singleton, entryLines_singleton, hlines]
        rfl
  have hunder : indent ((Node.map inp.regsToDict).under "regs".toList) =
      "  regs:".toList :: indent (indent (entryLines inp.regsToDict)) := by
    rw [InputWithValues.regsToDict, List.append_assoc, List.singleton_append, Node.under]
    rfl
  rw [hunder, InputWithValues.regsToDict, entryLines_append, entryLines_append,
    entryLines_singleton, indent_append, indent_append, indent_append, indent_append, hfp, hvec]
  have hgpLines : indent (indent ((regsNode b.arch.gp (InputWithValues.words inp.gp)).under
      "gp".toList)) = "    gp:".toList :: regLines b.toRegConfig
        (fun r => hex (r.val (inp.regs b.toRegConfig)).toNat) .gp := hgp
  rw [hgpLines, regsLines, otherLines]
  simp only [List.cons_append, List.append_assoc]

/-! ## The document

The sections in the order of the dictionary, and the lines between them. -/

theorem skipped_indent {entries : List (Text × Node)} (h : InnerEntries entries) :
    ∀ l ∈ indent (entryLines entries), skipped l = true := by
  intro l hl
  obtain ⟨x, hx, rfl⟩ := List.mem_map.mp hl
  exact skipped_of_opens (lineRule_opens.forall_entryLines h x hx) rfl

namespace Repro

variable (repro : Repro b)

/-- The instructions that are written. -/
def instrSeq : List UInt32 := repro.inp.instrSeq.take repro.inp.seqLen

def instrLines : List Text := repro.instrSeq.map fun instr => "  - 0x".toList ++ hex instr.toNat

def disEntries : List (Text × Node) :=
  [("dis_opcodes".toList, .seq (repro.dis.opcodes.map strNode)),
    ("dis_capstone".toList, .seq (repro.dis.capstone.map strNode)),
    ("dis_mra".toList, .seq (repro.dis.mra.map strNode))]

/-- The registers of the input. -/
def regs : Regs b.toRegConfig := repro.inp.regs b.toRegConfig

/-- The section of the registers. -/
def regsLines : List Text := RISCover.regsLines b fun r => hex (r.val repro.regs).toNat

/-- What stands between the mappings and the flags. -/
def tailEntries : List (Text × Node) :=
  (repro.generator.toList.map fun g => ("generator".toList, .map (g.toDict b.arch))) ++
  (repro.counter.toList.map fun n => ("counter".toList, hexNode n)) ++
  [field "arch" b.arch.name.toList]

def coreEntries : List (Text × Node) :=
  repro.core.toList.map fun core => ("core".toList, strNode core)

def flagLines : List Text := repro.flags.map fun f => "- -D".toList ++ f.name.toList

theorem skipped_disEntries : ∀ l ∈ indent (entryLines repro.disEntries), skipped l = true := by
  apply skipped_indent
  simp only [disEntries, innerEntries_cons, innerEntries_nil, inner_strs, and_true]
  decide

/-- The lines of the input. -/
theorem exists_inputLines : ∃ t, '\n' ∉ t ∧ indent (entryLines (repro.inp.toDict repro.dis)) =
    ("  instr_seq:".toList ++ t) :: (repro.instrLines ++
      (indent (entryLines repro.disEntries) ++ repro.regsLines)) := by
  obtain ⟨t, ht, hseq⟩ := exists_under_seq "instr_seq".toList (repro.inp.getInstrSeq.map hexNode)
  have hitems : indent (itemLines (repro.inp.getInstrSeq.map hexNode)) = repro.instrLines := by
    have hscalars := itemLines_scalars (fun instr : UInt32 => hexintPresenter instr.toNat)
      repro.instrSeq
    have hnodes : repro.inp.getInstrSeq.map hexNode =
        repro.instrSeq.map fun instr => Node.scalar (hexintPresenter instr.toNat) := by
      rw [FullInput.getInstrSeq, List.map_map]
      rfl
    rw [hnodes, hscalars, indent, List.map_map]
    rfl
  have hdict : repro.inp.toDict repro.dis = [("instr_seq".toList,
      .seq (repro.inp.getInstrSeq.map hexNode))] ++ (repro.disEntries ++
        [("regs".toList, .map repro.inp.regsToDict)]) := rfl
  refine ⟨t, ht, ?_⟩
  rw [hdict, entryLines_append, entryLines_append, entryLines_singleton, entryLines_singleton,
    hseq, indent_append, indent_append, indent_cons, hitems, lines_regs repro.carries]
  rfl

/-- The lines of the disassembly start with those of `dis_opcodes`. -/
theorem exists_disLines : ∃ t ls, indent (entryLines repro.disEntries) =
    ("  dis_opcodes:".toList ++ t) :: ls := by
  obtain ⟨t, -, hseq⟩ := exists_under_seq "dis_opcodes".toList (repro.dis.opcodes.map strNode)
  refine ⟨t, indent (itemLines (repro.dis.opcodes.map strNode) ++
    entryLines repro.disEntries.tail), ?_⟩
  rw [disEntries, entryLines, hseq]
  rfl

/-- The document, section after section. -/
theorem lines_eq : (Node.map repro.toDict).lines =
    "input:".toList :: (indent (entryLines (repro.inp.toDict repro.dis)) ++
      (entryLines repro.resultsToDict ++
        ((Node.seq (repro.mappings.map fun m => .map m.toDict)).under "mappings".toList ++
          (entryLines repro.tailEntries ++
            ((Node.seq (repro.flags.map fun f => .scalar ("-D".toList ++ f.name.toList))).under
              "flags".toList ++ entryLines repro.coreEntries))))) := by
  -- the sections that the parser reads, and what stands between them
  have hdict : repro.toDict = [("input".toList, .map (repro.inp.toDict repro.dis))] ++
      (repro.resultsToDict ++
        ([("mappings".toList, .seq (repro.mappings.map fun m => .map m.toDict))] ++
          (repro.tailEntries ++ ([("flags".toList,
            .seq (repro.flags.map fun f => .scalar ("-D".toList ++ f.name.toList)))] ++
              repro.coreEntries)))) := by
    simp only [toDict, tailEntries, coreEntries, List.append_assoc, List.cons_append,
      List.nil_append]
  have hlines : (Node.map repro.toDict).lines = entryLines repro.toDict := by
    rw [hdict, List.cons_append, Node.lines]
  have hinput : (Node.map (repro.inp.toDict repro.dis)).under "input".toList =
      "input:".toList :: indent (entryLines (repro.inp.toDict repro.dis)) := by
    rw [InputWithValues.toDict, Node.under]
    rfl
  rw [hlines, hdict, entryLines_append, entryLines_append, entryLines_append, entryLines_append,
    entryLines_append, entryLines_singleton, entryLines_singleton, entryLines_singleton, hinput,
    List.cons_append]

theorem skipped_results : ∀ l ∈ entryLines repro.resultsToDict, skipped l = true := by
  unfold resultsToDict
  split
  next => exact List.forall_mem_nil _
  next =>
    rw [entryLines_singleton]
    apply skipped_under rfl _ rfl
    apply inner_seq
    intro p hp
    apply inner_map
    simp only [innerEntries_cons, innerEntries_nil, and_true]
    refine ⟨⟨rfl, inner_map (inner_result (repro.regs_subset p hp))⟩, rfl, ?_⟩
    exact inner_seq fun m _ => inner_map (inner_clientMeta b.arch m)

/-- Behind the mappings comes a line that is no item, and none that opens a section up to the
flags. -/
theorem exists_tailLines : ∃ l ls, entryLines repro.tailEntries = l :: ls ∧
    (lstrip l).head? ≠ some '-' ∧ ∀ x ∈ l :: ls, skipped x = true := by
  have hskipped : ∀ x ∈ entryLines repro.tailEntries, skipped x = true := by
    unfold tailEntries
    rw [entryLines_append, entryLines_append, List.forall_mem_append, List.forall_mem_append]
    refine ⟨⟨?_, ?_⟩, ?_⟩
    · cases repro.generator with
      | none => exact List.forall_mem_nil _
      | some g =>
          rw [Option.toList_some, List.map_singleton, entryLines_singleton]
          exact skipped_under rfl (inner_map (inner_generator b.arch g)) rfl
    · cases repro.counter with
      | none => exact List.forall_mem_nil _
      | some n =>
          rw [Option.toList_some, List.map_singleton, entryLines_singleton]
          exact skipped_under rfl (inner_hexNode n) rfl
    · rw [field, entryLines_singleton]
      refine skipped_under rfl ?_ rfl
      show '\n' ∉ b.arch.name.toList
      cases b.arch <;> decide
  -- the first line behind the mappings begins with a key, and so not with a dash
  have hkey : ∀ (key : Text) (v : Node) (ls : List Text),
      (∀ t, (lstrip (key ++ ':' :: t)).head? ≠ some '-') →
      ∃ l ls', v.under key ++ ls = l :: ls' ∧ (lstrip l).head? ≠ some '-' := by
    intro key v ls hhead
    obtain ⟨t, ls', hunder, -⟩ := exists_under key v
    exact ⟨_, ls' ++ ls, by rw [hunder]; rfl, hhead t⟩
  have hgenerator : ∀ t, (lstrip ("generator".toList ++ ':' :: t)).head? ≠ some '-' := by
    intro t
    show some 'g' ≠ some '-'
    decide
  have hcounter : ∀ t, (lstrip ("counter".toList ++ ':' :: t)).head? ≠ some '-' := by
    intro t
    show some 'c' ≠ some '-'
    decide
  have harch : ∀ t, (lstrip ("arch".toList ++ ':' :: t)).head? ≠ some '-' := by
    intro t
    show some 'a' ≠ some '-'
    decide
  obtain ⟨l, ls, hlines, hhead⟩ : ∃ l ls, entryLines repro.tailEntries = l :: ls ∧
      (lstrip l).head? ≠ some '-' := by
    unfold tailEntries
    cases repro.generator with
    | some g => exact hkey "generator".toList _ _ hgenerator
    | none =>
        cases repro.counter with
        | some n => exact hkey "counter".toList _ _ hcounter
        | none => exact hkey "arch".toList _ _ harch
  rw [hlines] at hskipped
  exact ⟨l, ls, hlines, hhead, hskipped⟩

/-- The lines of the mappings. -/
theorem exists_mappingsLines : ∃ t,
    (Node.seq (repro.mappings.map fun m => .map m.toDict)).under "mappings".toList =
      ("mappings:".toList ++ t) ::
        repro.mappings.flatMap (mappingLines fun m => quoted (logWords m)) := by
  obtain ⟨t, -, hseq⟩ := exists_under_seq "mappings".toList
    (repro.mappings.map fun m => .map m.toDict)
  have hitems : ∀ mappings : List Mapping,
      itemLines (mappings.map fun m => .map m.toDict) =
        mappings.flatMap (mappingLines fun m => quoted (logWords m)) := by
    intro mappings
    induction mappings with
    | nil => rfl
    | cons m mappings ih =>
        rw [List.map_cons, itemLines, ih, List.flatMap_cons]
        rfl
  rw [hitems] at hseq
  exact ⟨t, hseq⟩

/-- The lines of the flags. -/
theorem flagsLines_eq :
    (Node.seq (repro.flags.map fun f => .scalar ("-D".toList ++ f.name.toList))).under
      "flags".toList =
      if repro.flags = [] then ["flags: []".toList] else "flags:".toList :: repro.flagLines := by
  have hitems := itemLines_scalars (fun f : Flag => "-D".toList ++ f.name.toList) repro.flags
  unfold flagLines
  cases hflags : repro.flags with
  | nil => rfl
  | cons f flags =>
      rw [hflags] at hitems
      rw [List.map_cons] at hitems
      rw [if_neg (List.cons_ne_nil f flags), List.map_cons, Node.under, hitems]
      rfl

theorem coreLines_eq :
    entryLines repro.coreEntries = repro.core.toList.map fun core => "core: ".toList ++ core.1 := by
  unfold coreEntries
  cases repro.core <;> rfl

/-! ## Its text

A scalar that is written on one line stays on it, so the text is cut into the lines again. -/

theorem lined_of_inner {entries : List (Text × Node)} (h : InnerEntries entries) :
    ∀ p ∈ entries, IsLine p.1 ∧ p.2.All IsLine fun t => '\n' ∉ t :=
  fun p hp => ⟨isLine_of_inner (h p hp).1, (h p hp).2.oneLine⟩

/-- The registers of a class are on one line each. -/
theorem lined_regsNode {names : List String} (hnames : ∀ name ∈ names, inner name.toList = true)
    (values : List Nat) : (regsNode names values).All IsLine fun t => '\n' ∉ t := by
  apply Inner.oneLine
  apply inner_map
  apply innerEntries_map
  intro p hp
  exact ⟨hnames p.1 (List.of_mem_zip hp).1, inner_hexNode p.2⟩

theorem lined_regsToDict {arch : Arch} (inp : InputWithValues arch) :
    (Node.map inp.regsToDict).All IsLine fun t => '\n' ∉ t := by
  rw [Node.All, allEntries_iff, InputWithValues.regsToDict]
  simp only [List.forall_mem_append, List.forall_mem_singleton, List.forall_mem_map]
  refine ⟨⟨⟨⟨by decide, by decide⟩, ?_⟩, fun fp _ => ⟨⟨by decide, by decide⟩, ?_⟩⟩,
    fun vec _ => ⟨⟨by decide, by decide⟩, ?_⟩⟩
  · exact lined_regsNode (inner_names arch .gp) _
  · exact lined_regsNode (inner_names arch .fp) _
  · exact lined_regsNode (inner_names arch .vec) _

theorem lined_input {arch : Arch} (inp : InputWithValues arch) (dis : Disassembly) :
    (Node.map (inp.toDict dis)).All IsLine fun t => '\n' ∉ t := by
  have hstrs : ∀ l : List OneLine, (Node.seq (l.map strNode)).All IsLine fun t => '\n' ∉ t :=
    fun l => (inner_strs l).oneLine
  have hseq : (Node.seq (inp.getInstrSeq.map hexNode)).All IsLine fun t => '\n' ∉ t :=
    (inner_seq fun n _ => inner_hexNode n).oneLine
  rw [Node.All, allEntries_iff, InputWithValues.toDict]
  simp only [List.forall_mem_cons, hstrs, hseq, lined_regsToDict, and_true]
  exact ⟨⟨by decide, by decide⟩, ⟨by decide, by decide⟩, ⟨by decide, by decide⟩,
    ⟨by decide, by decide⟩, ⟨by decide, by decide⟩, List.forall_mem_nil _⟩

theorem newline_notMem_quoted {t : Text} (h : '\n' ∉ t) : '\n' ∉ quoted t := by
  unfold quoted
  split
  · exact h
  · simpa using h

theorem lined_toDict : (Node.map repro.toDict).All IsLine fun t => '\n' ∉ t := by
  -- a mapping has numbers, and a text of digits, perhaps between quotes
  have hmapping : ∀ m ∈ repro.mappings, Inner (.map m.toDict) := by
    intro m _
    apply inner_map
    have hwords : '\n' ∉ logWords m := fun h => absurd (isHex_logWords m _ h) (by decide)
    simp only [Mapping.toDict, innerEntries_cons, innerEntries_nil, inner_hexNode, and_true]
    exact ⟨rfl, rfl, rfl, rfl, newline_notMem_quoted hwords⟩
  have hflag : ∀ f ∈ repro.flags, Inner (.scalar ("-D".toList ++ f.name.toList)) := by
    intro f _
    show '\n' ∉ "-D".toList ++ f.name.toList
    cases f <;> decide
  have harch : '\n' ∉ b.arch.name.toList := by
    cases b.arch <;> decide
  have hresults : ∀ p ∈ repro.resultsToDict, IsLine p.1 ∧ p.2.All IsLine fun t => '\n' ∉ t := by
    apply lined_of_inner
    unfold resultsToDict
    split
    next => exact innerEntries_nil
    next =>
      refine innerEntries_cons.mpr ⟨⟨rfl, inner_seq fun p hp => inner_map ?_⟩, innerEntries_nil⟩
      simp only [innerEntries_cons, innerEntries_nil, and_true]
      refine ⟨⟨rfl, inner_map (inner_result (repro.regs_subset p hp))⟩, rfl, ?_⟩
      exact inner_seq fun m _ => inner_map (inner_clientMeta b.arch m)
  have hlined : ∀ entries, InnerEntries entries →
      ∀ p ∈ entries, IsLine p.1 ∧ p.2.All IsLine fun t => '\n' ∉ t := fun _ => lined_of_inner
  have hinput : IsLine "input".toList := ⟨by decide, by decide⟩
  have hmappings : IsLine "mappings".toList := ⟨by decide, by decide⟩
  rw [Node.All, allEntries_iff, toDict]
  simp only [List.forall_mem_append, List.forall_mem_singleton]
  refine ⟨⟨⟨⟨⟨⟨⟨hinput, lined_input _ _⟩, hresults⟩, hmappings, (inner_seq hmapping).oneLine⟩,
    hlined _ ?_⟩, hlined _ ?_⟩, hlined _ ?_⟩, hlined _ ?_⟩
  · exact innerEntries_map fun g _ => ⟨rfl, inner_map (inner_generator b.arch g)⟩
  · exact innerEntries_map fun n _ => ⟨rfl, inner_hexNode n⟩
  · exact innerEntries_field rfl harch
      (innerEntries_cons.mpr ⟨⟨rfl, inner_seq hflag⟩, innerEntries_nil⟩)
  · exact innerEntries_map fun core _ => ⟨rfl, inner_strNode core⟩

/-- Nothing is lost between the lines of the document and its text. -/
theorem lines_toYaml : repro.toYaml.lines = (Node.map repro.toDict).lines :=
  lines_unlines (isLine_lines repro.lined_toDict nofun)

end Repro

end RISCover
