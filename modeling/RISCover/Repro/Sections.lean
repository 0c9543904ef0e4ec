import RISCover.Repro.Log
import RISCover.Repro.Read

/-!
# The sections of a reproducer

What `load_repro` makes of the sections that the client and the server both write. The two spell the
registers with different digits and quote the mappings differently, so the lemmas about a section
take its digits, or its lines, as a parameter.
-/

open Text Machine Bytes

namespace RISCover

variable {b : Build} {heap : Nat → Bytes}

/-! ## Lines between the sections

A line is plain when the way it starts rules out that it opens a section. -/

/-- A line that the loop over the text goes past. -/
def Plain (l : Text) : Prop := IsLine l ∧ skipped l = true

/-- Enough of a line to know that it is one the loop over the text goes past. -/
def plainStart (p : Text) : Bool := inert p && !p.contains '\n'

theorem plain_append {p t : Text} (hp : plainStart p = true) (ht : '\n' ∉ t) : Plain (p ++ t) := by
  rw [plainStart, Bool.and_eq_true, Bool.not_eq_true', List.contains_eq_mem,
    decide_eq_false_iff_not] at hp
  obtain ⟨hinert, hnl⟩ := hp
  have hne : p ≠ [] := by
    rintro rfl
    cases hinert
  exact ⟨isLine_append hne hnl ht, skipped_append hinert t⟩

theorem plain_of_plainStart {p : Text} (hp : plainStart p = true) : Plain p := by
  have h := plain_append hp (List.not_mem_nil (a := '\n'))
  rwa [List.append_nil] at h

@[simp] theorem OneLine.newline_notMem (t : OneLine) : '\n' ∉ t.1 := t.2

/-! ## Instructions

Both writers put each instruction in a line of its own, behind a dash. -/

theorem scanInstr_line {instr : UInt32} {digits : Text}
    (h : scanHex ('0' :: 'x' :: digits) = some (instr.toNat, [])) :
    (lstrip ("  - 0x".toList ++ digits)).head? = some '-' ∧
      scanInstr (lstrip ("  - 0x".toList ++ digits)) = some instr := by
  have hscan : scanInstr (lstrip ("  - 0x".toList ++ digits)) =
      (scanHex ('0' :: 'x' :: digits)).bind fun p => some (UInt32.ofNat p.1) := rfl
  refine ⟨rfl, ?_⟩
  rw [hscan, h, Option.bind_some, UInt32.ofNat_toNat]

theorem loadStep_instrSeq (t : Text) (s : Load b.toRegConfig) (rest : List Text) :
    loadStep b heap (s.goto .top (("  instr_seq:".toList ++ t) :: rest)) =
      .next (s.goto .instrSeq rest) := rfl

/-- The disassembly ends the sequence. -/
theorem loadStep_endInstrSeq (t : Text) (s : Load b.toRegConfig) (rest : List Text) :
    loadStep b heap (s.goto .instrSeq (("  dis_opcodes:".toList ++ t) :: rest)) =
      .next (s.goto .top (("  dis_opcodes:".toList ++ t) :: rest)) := rfl

/-! ## Names of registers

The loops do not read the names, but a name may look like the line that a loop stops at. None does
(`readable_names`). -/

/-- What the loops over the registers rely on. -/
def readable (k : RegClass) (name : Text) : Bool :=
  name ≠ [] && name.all (fun ch => !isSpace ch && ch ≠ ':') &&
  plainStart ("      ".toList ++ name ++ ": ".toList) &&
  match k with
  | .gp => ["vec:", "fp:", "dis_", "instr_seq:", "mappings:"].all fun stop =>
      apart (name ++ ": ".toList) stop.toList
  | .fp => name.head? = some 'f' || name.head? = some 'd'
  | .vec => name.head? = some 'v' && !name.contains 'x'
  | _ => true

theorem readable_names (arch : Arch) (k : RegClass) :
    ∀ name ∈ k.names arch, readable k name.toList = true := by
  cases arch <;> cases k <;> decide +kernel

/-- The facts in `readable`, for a register. -/
theorem Reg.readable {c : RegConfig} (r : Reg c) : readable r.1 r.name.toList = true :=
  r.forall_name readable_names

/-! ## Lines of registers

The digits may be padded or not, as long as they spell the value. -/

/-- The digits spell the value of the register. -/
structure Spells {k : RegClass} (digits : Text) (v : RegVal k) : Prop where
  ne_nil : digits ≠ []
  all_hex : ∀ ch ∈ digits, isHex ch = true
  length_le : digits.length ≤ 2 * k.size
  value : ofHex digits = v.toNat

theorem spells_hex {k : RegClass} (v : RegVal k) : Spells (hex v.toNat) v where
  ne_nil := hex_ne_nil _
  all_hex := isHex_hex _
  length_le := by
    apply length_hex_le
    · cases k <;> decide
    · have hlt := v.toNat_lt
      rwa [Nat.pow_mul]
  value := ofHex_hex _

section Lines

variable {c : RegConfig} {r : Reg c} {digits : Text}

/-- The line of a register. -/
def regLine (r : Reg c) (digits : Text) : Text :=
  "      ".toList ++ r.name.toList ++ ": ".toList ++ ("0x".toList ++ digits)

theorem lstrip_regLine (r : Reg c) (digits : Text) :
    lstrip (regLine r digits) = r.name.toList ++ ": ".toList ++ ("0x".toList ++ digits) := by
  have h := r.readable
  simp only [readable, Bool.and_eq_true, decide_eq_true_eq] at h
  obtain ⟨⟨⟨hne, hall⟩, -⟩, -⟩ := h
  unfold regLine
  cases hname : r.name.toList with
  | nil => exact absurd hname hne
  | cons ch name =>
      rw [hname, List.all_cons, Bool.and_eq_true, Bool.and_eq_true, Bool.not_eq_true'] at hall
      exact lstrip_cons_of_not_space _ hall.1.1

theorem lstrip_regLine_ne_nil (r : Reg c) (digits : Text) : lstrip (regLine r digits) ≠ [] := by
  rw [lstrip_regLine]
  simp

theorem head?_lstrip_regLine {ch : Char} (h : r.name.toList.head? = some ch) :
    (lstrip (regLine r digits)).head? = some ch := by
  rw [lstrip_regLine, List.head?_append, List.head?_append, h]
  rfl

theorem scanReg_regLine {v : RegVal r.1} (h : Spells digits v) (hv : v.toNat < 2 ^ 64) :
    scanReg (lstrip (regLine r digits)) = some v.toNat := by
  have hread := r.readable
  simp only [readable, Bool.and_eq_true, decide_eq_true_eq] at hread
  obtain ⟨⟨⟨hne, hall⟩, -⟩, -⟩ := hread
  have hcolon : ':' ∉ r.name.toList := by
    intro hmem
    have hch := List.all_eq_true.mp hall ':' hmem
    revert hch
    decide
  have hscan := scanNotColon_append hne hcolon (' ' :: ("0x".toList ++ digits))
  have hnumber : scanHex (scanSpace (' ' :: ("0x".toList ++ digits))) = some (v.toNat, []) := by
    have hdigits := scanHex_digits h.ne_nil h.all_hex (by rwa [h.value])
    rwa [h.value] at hdigits
  have hcolon' : scanLit ":" (':' :: ' ' :: ("0x".toList ++ digits)) =
      some (' ' :: ("0x".toList ++ digits)) := rfl
  have htext : r.name.toList ++ ": ".toList ++ ("0x".toList ++ digits) =
      r.name.toList ++ ':' :: ' ' :: ("0x".toList ++ digits) := by simp
  rw [lstrip_regLine, htext, scanReg, hscan]
  simp only [Option.bind_eq_bind, Option.bind_some, hcolon', hnumber]

/-- The line of a register, wherever it stands. -/
theorem plain_regLine {digits : Text} (r : Reg c) (h : '\n' ∉ digits) :
    Plain (regLine r digits) := by
  have hread := r.readable
  simp only [readable, Bool.and_eq_true] at hread
  exact plain_append hread.1.2 (by simpa using h)

end Lines

/-! ## One class

The loop over a class stores as many registers as there are lines, and these are all of the class.
-/

/-- The lines of the registers of a class. -/
def regLines (c : RegConfig) (digits : Reg c → Text) (k : RegClass) : List Text :=
  (List.finRange (c.count k)).map fun i => regLine ⟨k, i⟩ (digits ⟨k, i⟩)

section Classes

variable {digits : Reg b.toRegConfig → Text} {target : Regs b.toRegConfig}

theorem steps_gp (h : ∀ r, Spells (digits r) (r.val target)) (s : Load b.toRegConfig)
    (rest : List Text) :
    Steps (loadStep b heap) (s.goto (.gp 0) (regLines b.toRegConfig digits .gp ++ rest))
      ({ s with regs := s.regs.setClass .gp (target .gp) }.goto (.gp (b.count .gp)) rest) := by
  apply steps_regs Loc.gp
  intro s i rest
  let r : Reg b.toRegConfig := ⟨.gp, i⟩
  have hread := Reg.readable (⟨.gp, i⟩ : Reg b.toRegConfig)
  apply loadStep_gp
  · exact lstrip_regLine_ne_nil r _
  · show endsGp (lstrip (regLine (⟨.gp, i⟩ : Reg b.toRegConfig) _)) = false
    rw [lstrip_regLine]
    simp only [readable, Bool.and_eq_true, List.all_cons, List.all_nil] at hread
    obtain ⟨-, hvec, hfp, hdis, hinstr, hmappings, -⟩ := hread
    simp only [endsGp, startsWith_append_eq_false hvec, startsWith_append_eq_false hfp,
      startsWith_append_eq_false hdis, startsWith_append_eq_false hinstr,
      startsWith_append_eq_false hmappings, Bool.or_self]
  · exact scanReg_regLine (h r) (r.val target).isLt

theorem steps_fp (h : ∀ r, Spells (digits r) (r.val target)) (s : Load b.toRegConfig)
    (rest : List Text) :
    Steps (loadStep b heap) (s.goto (.fp 0) (regLines b.toRegConfig digits .fp ++ rest))
      ({ s with regs := s.regs.setClass .fp (target .fp) }.goto (.fp (b.count .fp)) rest) := by
  apply steps_regs Loc.fp
  intro s i rest
  let r : Reg b.toRegConfig := ⟨.fp, i⟩
  have hread := Reg.readable (⟨.fp, i⟩ : Reg b.toRegConfig)
  simp only [readable, Bool.and_eq_true, Bool.or_eq_true, decide_eq_true_eq] at hread
  apply loadStep_fp
  · exact hread.2.imp head?_lstrip_regLine head?_lstrip_regLine
  · exact scanReg_regLine (h r) (r.val target).isLt

theorem steps_vec (h : ∀ r, Spells (digits r) (r.val target)) (s : Load b.toRegConfig)
    (rest : List Text) :
    Steps (loadStep b heap) (s.goto (.vec 0) (regLines b.toRegConfig digits .vec ++ rest))
      ({ s with regs := s.regs.setClass .vec (target .vec) }.goto (.vec (b.count .vec)) rest) := by
  apply steps_regs Loc.vec
  intro s i rest
  let r : Reg b.toRegConfig := ⟨.vec, i⟩
  have hspells := h r
  have hread := Reg.readable (⟨.vec, i⟩ : Reg b.toRegConfig)
  simp only [readable, Bool.and_eq_true, decide_eq_true_eq, Bool.not_eq_true',
    List.contains_eq_mem, decide_eq_false_iff_not] at hread
  obtain ⟨-, hhead, hx⟩ := hread
  -- the digits are found behind the first `0x` of the line, and the name has no `x`
  have hdigits : strstr (lstrip (regLine r (digits r))) "0x" = some ('0' :: 'x' :: digits r) := by
    rw [lstrip_regLine]
    exact strstr_0x (by simpa using hx) (digits r)
  have htake : ((digits r).takeWhile isHex).take (2 * VEC_REG_SIZE) = digits r := by
    rw [List.takeWhile_eq_self_iff.mpr hspells.all_hex]
    exact List.take_of_length_le hspells.length_le
  have hvalue : ofLeBytes (parseHexLeBytes (digits r) VEC_REG_SIZE) = (r.val target).toNat := by
    rw [parseHexLeBytes_eq, hspells.value]
    exact ofLeBytes_leBytes_of_lt (r.val target).toNat_lt
  have hline : loadStep b heap (s.goto (.vec i) (regLine r (digits r) :: rest)) = _ :=
    loadStep_vec (head?_lstrip_regLine hhead) hdigits s i rest
  rw [htake, hvalue] at hline
  exact hline

end Classes

/-! ## The section of the registers

Which loop a line ends, and which one goes on with it, for the lines that can stand behind a class.
-/

theorem loadStep_regs_fp (hfloats : b.FLOATS = true) (s : Load b.toRegConfig) (rest : List Text) :
    loadStep b heap (s.goto .regs ("    fp:".toList :: rest)) = .next (s.goto (.fp 0) rest) := by
  have hvec : startsWith (lstrip "    fp:".toList) "vec:" = false := rfl
  have hgp : startsWith (lstrip "    fp:".toList) "gp:" = false := rfl
  have hfp : startsWith (lstrip "    fp:".toList) "fp:" = true := rfl
  show regsPass b (s.goto .regs ("    fp:".toList :: rest)) = _
  simp only [regsPass, Load.goto, hvec, hgp, hfp, hfloats, Bool.false_eq_true, and_false, and_true,
    if_false, if_true]
  rfl

theorem loadStep_regs_vec (hvector : b.VECTOR = true) (s : Load b.toRegConfig)
    (rest : List Text) :
    loadStep b heap (s.goto .regs ("    vec:".toList :: rest)) = .next (s.goto (.vec 0) rest) := by
  have hgp : startsWith (lstrip "    vec:".toList) "gp:" = false := rfl
  have hvec : startsWith (lstrip "    vec:".toList) "vec:" = true := rfl
  show regsPass b (s.goto .regs ("    vec:".toList :: rest)) = _
  simp only [regsPass, Load.goto, hgp, hvec, hvector, Bool.false_eq_true, and_self, if_false,
    if_true]
  rfl

/-- What stands behind the registers: a line with which neither a class nor one of its registers
begins. -/
def endsRegs (stop : Text) : Bool :=
  (lstrip stop).head?.any fun ch => ch != 'g' && ch != 'f' && ch != 'd' && ch != 'v'

section Stop

variable {stop : Text}

theorem endsRegs_cons (h : endsRegs stop = true) :
    ∃ ch t, lstrip stop = ch :: t ∧ ch ≠ 'g' ∧ ch ≠ 'f' ∧ ch ≠ 'd' ∧ ch ≠ 'v' := by
  unfold endsRegs at h
  cases hstop : lstrip stop with
  | nil =>
      rw [hstop] at h
      cases h
  | cons ch t =>
      rw [hstop] at h
      simp only [List.head?_cons, Option.any_some, Bool.and_eq_true, bne_iff_ne] at h
      exact ⟨ch, t, rfl, h.1.1.1, h.1.1.2, h.1.2, h.2⟩

theorem startsWith_cons_of_ne {ch x : Char} (h : ch ≠ x) (t : Text) {pre : String} {p : Text}
    (hpre : pre.toList = x :: p) : startsWith (ch :: t) pre = false := by
  rw [startsWith, hpre, List.isPrefixOf_cons_cons]
  simp [Ne.symm h]

theorem loadStep_regs_stop (h : endsRegs stop = true) (s : Load b.toRegConfig)
    (rest : List Text) :
    loadStep b heap (s.goto .regs (stop :: rest)) = .next (s.goto .top (stop :: rest)) := by
  obtain ⟨ch, t, hstop, hg, hf, -, hv⟩ := endsRegs_cons h
  have hgp : startsWith (ch :: t) "gp:" = false := startsWith_cons_of_ne hg t rfl
  have hvec : startsWith (ch :: t) "vec:" = false := startsWith_cons_of_ne hv t rfl
  have hfp : startsWith (ch :: t) "fp:" = false := startsWith_cons_of_ne hf t rfl
  show regsPass b (s.goto .regs (stop :: rest)) = _
  simp only [regsPass, Load.goto, hstop, hvec, hgp, hfp, Bool.false_eq_true, and_false, if_false]
  rfl

theorem loadStep_fp_stop (h : endsRegs stop = true) (s : Load b.toRegConfig) (i : Nat)
    (rest : List Text) :
    loadStep b heap (s.goto (.fp i) (stop :: rest)) = .next (s.goto .regs (stop :: rest)) := by
  obtain ⟨ch, t, hstop, -, hf, hd, -⟩ := endsRegs_cons h
  show fpPass b i (s.goto (.fp i) (stop :: rest)) = _
  simp [fpPass, Load.goto, hstop, hf, hd, Load.leave]

theorem loadStep_vec_stop (h : endsRegs stop = true) (s : Load b.toRegConfig) (i : Nat)
    (rest : List Text) :
    loadStep b heap (s.goto (.vec i) (stop :: rest)) = .next (s.goto .regs (stop :: rest)) := by
  obtain ⟨ch, t, hstop, -, -, -, hv⟩ := endsRegs_cons h
  show vecPass b i (s.goto (.vec i) (stop :: rest)) = _
  simp [vecPass, Load.goto, hstop, hv, Load.leave]

theorem loadStep_gp_stop {line : Text} (h : endsGp (lstrip line) = true) (s : Load b.toRegConfig)
    (i : Nat) (rest : List Text) :
    loadStep b heap (s.goto (.gp i) (line :: rest)) = .next (s.goto .regs (line :: rest)) := by
  have hne : lstrip line ≠ [] := by
    intro hnil
    rw [hnil] at h
    cases h
  show gpPass b i (s.goto (.gp i) (line :: rest)) = _
  simp only [gpPass, Load.goto, if_neg hne, h, if_true]
  rfl

end Stop

/-- A class without registers has nothing to replace. -/
theorem Regs.setClass_of_count_eq_zero {c : RegConfig} (regs : Regs c) {k : RegClass}
    (h : c.count k = 0) (v : Vector (RegVal k) (c.count k)) : regs.setClass k v = regs := by
  apply Regs.ext
  rintro ⟨k', i⟩
  by_cases hk : k' = k
  · subst hk
    exact absurd i.2 (by omega)
  · simp [Reg.val, Regs.setClass_of_ne _ hk]

/-- The registers that `load_repro` finds in the text, in the place of the caller's. -/
def loadedRegs (caller regs : Regs b.toRegConfig) : Regs b.toRegConfig :=
  ((caller.setClass .gp (regs .gp)).setClass .fp (regs .fp)).setClass .vec (regs .vec)

/-- The loaded registers are those of the text, in each of the three classes. -/
theorem loadedRegs_eq (caller regs : Regs b.toRegConfig) :
    ∀ k ∈ [RegClass.gp, .fp, .vec], loadedRegs caller regs k = regs k := by
  unfold loadedRegs
  simp only [List.forall_mem_cons]
  refine ⟨?_, ?_, Regs.setClass_self _ _ _, List.forall_mem_nil _⟩
  · rw [Regs.setClass_of_ne _ (by decide), Regs.setClass_of_ne _ (by decide), Regs.setClass_self]
  · rw [Regs.setClass_of_ne _ (by decide), Regs.setClass_self]

/-- The lines of the vector registers, where there are any. -/
def vecLines (b : Build) (digits : Reg b.toRegConfig → Text) : List Text :=
  if b.VECTOR then "    vec:".toList :: regLines b.toRegConfig digits .vec else []

/-- The lines of the floating point and the vector registers. -/
def otherLines (b : Build) (digits : Reg b.toRegConfig → Text) : List Text :=
  (if b.FLOATS then "    fp:".toList :: regLines b.toRegConfig digits .fp else []) ++
    vecLines b digits

/-- The section `regs:`. -/
def regsLines (b : Build) (digits : Reg b.toRegConfig → Text) : List Text :=
  "  regs:".toList :: "    gp:".toList ::
    (regLines b.toRegConfig digits .gp ++ otherLines b digits)

section Section

variable {digits : Reg b.toRegConfig → Text} {target : Regs b.toRegConfig} {stop : Text}

theorem steps_vecLines (h : ∀ r, Spells (digits r) (r.val target)) (hstop : endsRegs stop = true)
    (s : Load b.toRegConfig) (rest : List Text) :
    Steps (loadStep b heap) (s.goto .regs (vecLines b digits ++ stop :: rest))
      ({ s with regs := s.regs.setClass .vec (target .vec) }.goto .regs (stop :: rest)) := by
  unfold vecLines
  cases hvector : b.VECTOR with
  | false =>
      have hcount : b.count .vec = 0 := by simp [RegConfig.count, hvector]
      rw [Regs.setClass_of_count_eq_zero _ hcount]
      exact Steps.refl _
  | true =>
      rw [if_pos rfl, List.cons_append]
      refine Steps.head (loadStep_regs_vec hvector s _) ((steps_vec h s _).trans ?_)
      exact Steps.single (loadStep_vec_stop hstop _ _ _)

theorem steps_otherLines (h : ∀ r, Spells (digits r) (r.val target))
    (hstop : endsRegs stop = true) (s : Load b.toRegConfig) (rest : List Text) :
    Steps (loadStep b heap) (s.goto .regs (otherLines b digits ++ stop :: rest))
      ({ s with regs := (s.regs.setClass .fp (target .fp)).setClass .vec (target .vec) }.goto .regs
        (stop :: rest)) := by
  rw [otherLines, List.append_assoc]
  cases hfloats : b.FLOATS with
  | false =>
      have hcount : b.count .fp = 0 := by simp [RegConfig.count, hfloats]
      rw [Regs.setClass_of_count_eq_zero _ hcount]
      exact steps_vecLines h hstop s rest
  | true =>
      rw [if_pos rfl, List.cons_append]
      refine Steps.head (loadStep_regs_fp hfloats s _) ((steps_fp h s _).trans ?_)
      refine Steps.head ?_ (steps_vecLines h hstop
        { s with regs := s.regs.setClass .fp (target .fp) } rest)
      unfold vecLines
      cases b.VECTOR with
      | false => exact loadStep_fp_stop hstop _ _ _
      | true => rfl

/-- The loop over `gp:` stores the registers of its class and has the next line in hand. -/
theorem steps_gpLines (h : ∀ r, Spells (digits r) (r.val target)) (s : Load b.toRegConfig)
    (rest : List Text) :
    Steps (loadStep b heap) (s.goto .top (regsLines b digits ++ rest))
      ({ s with regs := s.regs.setClass .gp (target .gp) }.goto (.gp (b.count .gp))
        (otherLines b digits ++ rest)) := by
  have hhead : Steps (loadStep b heap) (s.goto .top (regsLines b digits ++ rest))
      (s.goto (.gp 0) (regLines b.toRegConfig digits .gp ++ otherLines b digits ++ rest)) :=
    Steps.head rfl (Steps.single rfl)
  rw [List.append_assoc] at hhead
  exact hhead.trans (steps_gp h s _)

/-- The section as a whole, if the loop over `gp:` ends at the line behind its registers. -/
theorem steps_regsLines (h : ∀ r, Spells (digits r) (r.val target)) (hstop : endsRegs stop = true)
    (hgp : b.FLOATS = true ∨ b.VECTOR = true ∨ endsGp (lstrip stop) = true)
    (s : Load b.toRegConfig) (rest : List Text) :
    Steps (loadStep b heap) (s.goto .top (regsLines b digits ++ stop :: rest))
      ({ s with regs := loadedRegs s.regs target }.goto .top (stop :: rest)) := by
  refine (steps_gpLines h s _).trans (Steps.head ?_ ((steps_otherLines h hstop
    { s with regs := s.regs.setClass .gp (target .gp) } rest).trans
      (Steps.single (loadStep_regs_stop hstop _ _))))
  unfold otherLines vecLines
  cases hfloats : b.FLOATS with
  | true => rfl
  | false =>
      cases hvector : b.VECTOR with
      | true => rfl
      | false =>
          apply loadStep_gp_stop
          rw [hfloats, hvector] at hgp
          simpa using hgp

end Section

/-! ## Mappings

The content of a mapping is read word by word, so it must consist of whole words. -/

/-- The pieces of a string of whole words. -/
theorem flatMap_slice (words : Nat) (val : Bytes) (h : val.length = words * 8) :
    ((List.range words).flatMap fun j => slice val (j * 8) 8) = val := by
  induction words generalizing val with
  | zero =>
      rw [Nat.zero_mul] at h
      rw [List.eq_nil_of_length_eq_zero h]
      rfl
  | succ words ih =>
      have hdrop := ih (val.drop 8) (by rw [List.length_drop]; omega)
      have hshift : ∀ j, slice val ((j + 1) * 8) 8 = slice (val.drop 8) (j * 8) 8 := by
        intro j
        rw [slice, slice, List.drop_drop, Nat.succ_mul, Nat.add_comm]
      rw [List.range_succ_eq_map, List.flatMap_cons, List.flatMap_map, Nat.zero_mul]
      simp only [Nat.succ_eq_add_one, hshift, hdrop]
      rw [slice, List.drop_zero, List.take_append_drop]

theorem length_word (val : Bytes) (r : Nat) :
    (hexPad 16 (ofLeBytes (slice val r 8))).length = 16 := by
  apply length_hexPad (by decide)
  have hlt := ofLeBytes_lt (slice val r 8)
  have hle : (slice val r 8).length ≤ 8 := by
    rw [slice, List.length_take]
    omega
  calc ofLeBytes (slice val r 8) < 256 ^ (slice val r 8).length := hlt
    _ ≤ 256 ^ 8 := Nat.pow_le_pow_right (by decide) hle
    _ = 16 ^ 16 := by decide

theorem length_logWords (m : Mapping) : (logWords m).length = m.n.toNat / 8 * 16 := by
  rw [logWords, List.length_flatMap]
  simp [length_word]

/-- The words of a mapping are decoded to its content. -/
theorem valBytes_logWords {m : Mapping} (h : m.Whole) :
    valBytes (m.n.toNat / 8) (logWords m) = m.val := by
  have hwords : m.val.length = m.n.toNat / 8 * 8 := by
    have := h.dvd
    rw [h.length_val]
    omega
  have hdecode := valBytes_flatMap (f := fun j => hexPad 16 (ofLeBytes (slice m.val (j * 8) 8)))
    (fun j => length_word m.val (j * 8)) (List.range (m.n.toNat / 8))
  rw [List.length_range] at hdecode
  rw [logWords, hdecode]
  have hword : ∀ j ∈ List.range (m.n.toNat / 8),
      leBytes 8 (ofHex (hexPad 16 (ofLeBytes (slice m.val (j * 8) 8)))) =
        slice m.val (j * 8) 8 := by
    intro j hj
    have hlen : (slice m.val (j * 8) 8).length = 8 := by
      have := List.mem_range.mp hj
      rw [slice, List.length_take, List.length_drop]
      omega
    rw [ofHex_hexPad]
    have hback := leBytes_ofLeBytes (slice m.val (j * 8) 8)
    rwa [hlen] at hback
  rw [List.flatMap_congr hword]
  exact flatMap_slice _ _ hwords

theorem isHex_logWords (m : Mapping) : ∀ ch ∈ logWords m, isHex ch = true := by
  intro ch hch
  obtain ⟨j, -, hj⟩ := List.mem_flatMap.mp hch
  exact isHex_hexPad _ _ ch hj

/-- The lines of a mapping, up to what stands behind `val:`. -/
def mappingLines (quoted : Mapping → Text) (m : Mapping) : List Text :=
  ["- start: 0x".toList ++ hex m.start.toNat,
    "  n: 0x".toList ++ hex m.n.toNat,
    "  prot: 0x".toList ++ hex m.prot.toNat,
    "  val: ".toList ++ quoted m]

theorem scanVal_mappingLines {m : Mapping} {quoted : Text} (hdvd : m.n.toNat % 8 = 0) :
    scanVal heap m.n.toNat (lstrip ("  val: ".toList ++ quoted)) =
      if (valDigits (' ' :: quoted)).length = m.n.toNat * 2 then
        some (valBytes (m.n.toNat / 8) (valDigits (' ' :: quoted)))
      else none := by
  have hstrip : lstrip ("  val: ".toList ++ quoted) = "val:".toList ++ (' ' :: quoted) := rfl
  have hdrop : ∀ t : Text, ("val:".toList ++ t).drop 4 = t := fun _ => rfl
  rw [hstrip, scanVal, strstr_of_startsWith (startsWith_append "val:" _)]
  simp only [hdrop, hdvd, true_and]

section Mappings

variable {quoted : Mapping → Text} {m : Mapping}

theorem scanStart_mappingLines (m : Mapping) :
    scanStart (lstrip ("- start: 0x".toList ++ hex m.start.toNat)) = some m.start.toNat := by
  have hscan : scanStart (lstrip ("- start: 0x".toList ++ hex m.start.toNat)) =
      (scanHex ('0' :: 'x' :: hex m.start.toNat)).bind fun p => some p.1 := rfl
  rw [hscan, scanHex_hex m.start.toNat_lt, Option.bind_some]

theorem scanN_mappingLines (m : Mapping) :
    scanField "n:" (lstrip ("  n: 0x".toList ++ hex m.n.toNat)) = some m.n.toNat := by
  have hscan : scanField "n:" (lstrip ("  n: 0x".toList ++ hex m.n.toNat)) =
      (scanHex ('0' :: 'x' :: hex m.n.toNat)).bind fun p => some p.1 := rfl
  rw [hscan, scanHex_hex m.n.toNat_lt, Option.bind_some]

theorem scanProt_mappingLines (m : Mapping) :
    scanField "prot:" (lstrip ("  prot: 0x".toList ++ hex m.prot.toNat)) =
      some m.prot.toNat := by
  have hscan : scanField "prot:" (lstrip ("  prot: 0x".toList ++ hex m.prot.toNat)) =
      (scanHex ('0' :: 'x' :: hex m.prot.toNat)).bind fun p => some p.1 := rfl
  rw [hscan, scanHex_hex (m.prot.toNat_lt.trans (by decide)), Option.bind_some]

/-- A mapping whose digits are found behind `val:` is read. -/
theorem loadStep_mappingLines (h : m.Whole) (hdigits : valDigits (' ' :: quoted m) = logWords m)
    (s : Load b.toRegConfig) (rest : List Text) :
    loadStep b heap (s.goto .mappings (mappingLines quoted m ++ rest)) =
      .next ({ s with mappings := s.mappings ++ [m] }.goto .mappings rest) := by
  have hval : scanVal heap m.n.toNat (lstrip ("  val: ".toList ++ quoted m)) = some m.val := by
    have hlen : (logWords m).length = m.n.toNat * 2 := by
      have hdvd := h.dvd
      rw [length_logWords]
      omega
    rw [scanVal_mappingLines h.dvd, hdigits, if_pos hlen, valBytes_logWords h]
  have hstep : loadStep b heap _ = _ := loadStep_mapping rfl (scanStart_mappingLines m)
    (scanN_mappingLines m) (scanProt_mappingLines m) hval s rest
  simp only [UInt64.ofNat_toNat, UInt32.ofNat_toNat] at hstep
  exact hstep

/-- The content of a mapping with too few or too many digits is refused. -/
theorem loadStep_mappingLines_stop (hdvd : m.n.toNat % 8 = 0)
    (hdigits : (valDigits (' ' :: quoted m)).length ≠ m.n.toNat * 2)
    (s : Load b.toRegConfig) (rest : List Text) :
    loadStep b heap (s.goto .mappings (mappingLines quoted m ++ rest)) =
      .stop (.exited .assertion) := by
  have hval : scanVal heap m.n.toNat (lstrip ("  val: ".toList ++ quoted m)) = none := by
    rw [scanVal_mappingLines hdvd, if_neg hdigits]
  have hdash : (lstrip ("- start: 0x".toList ++ hex m.start.toNat)).head? = some '-' := rfl
  show mappingsPass b heap (s.goto .mappings (mappingLines quoted m ++ rest)) = _
  simp only [mappingsPass, Load.goto, mappingLines, List.cons_append, hdash, ne_eq,
    not_true_eq_false, if_false, scanStart_mappingLines, scanN_mappingLines,
    scanProt_mappingLines, hval]

end Mappings

/-! What stands behind the colon of `mappings:` does not matter to any of the loops. -/

theorem endsRegs_mappings (t : Text) : endsRegs ("mappings:".toList ++ t) = true := rfl

theorem endsGp_mappings (t : Text) : endsGp (lstrip ("mappings:".toList ++ t)) = true := rfl

theorem loadStep_mappings (t : Text) (s : Load b.toRegConfig) (rest : List Text) :
    loadStep b heap (s.goto .top (("mappings:".toList ++ t) :: rest)) =
      .next (s.goto .mappings rest) := rfl

theorem loadStep_endMappings {line : Text} (hdash : (lstrip line).head? ≠ some '-')
    (s : Load b.toRegConfig) (rest : List Text) :
    loadStep b heap (s.goto .mappings (line :: rest)) = .next (s.goto .top (line :: rest)) := by
  show mappingsPass b heap (s.goto .mappings (line :: rest)) = _
  simp only [mappingsPass, Load.goto, if_pos hdash]
  rfl

/-! ## The flags

The flags of the build in any order, at the end of the text or in front of a line that is no item.
-/

theorem steps_flags (flags : List Flag) (mask : Mask) (s : Load b.toRegConfig) (rest : List Text)
    (hs : s.parsedMask = some mask) :
    Steps (loadStep b heap)
      (s.goto .flags (flags.map (fun f => "- -D".toList ++ f.name.toList) ++ rest))
      ({ s with parsedMask := some (mask ∪ flags.toFinset) }.goto .flags rest) := by
  induction flags generalizing mask s with
  | nil =>
      have hsame : { s with parsedMask := some (mask ∪ [].toFinset) } = s := by
        rw [List.toFinset_nil, Finset.union_empty, ← hs]
      rw [hsame]
      exact Steps.refl _
  | cons f flags ih =>
      have hscan : scanFlag (lstrip ("- -D".toList ++ f.name.toList)) = some f.name.toList := by
        cases f <;> rfl
      have hor : maskOr mask (flagName f.name.toList) = some (insert f mask) := by
        cases f <;> rfl
      have hrest := ih (insert f mask) { s with parsedMask := some (insert f mask) } rfl
      have hunion : insert f mask ∪ flags.toFinset = mask ∪ (f :: flags).toFinset := by
        rw [List.toFinset_cons, Finset.insert_union, Finset.union_insert]
      rw [hunion] at hrest
      exact Steps.head (loadStep_flag rfl hscan hor hs _) hrest

end RISCover
