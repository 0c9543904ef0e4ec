import RISCover.Input.Sparse
import RISCover.Repro.Read

/-!
# The registers of a generated reproducer

`init-repro-template` writes a C program that assigns the registers of an input one by one to an
uninitialised `struct regs`. A vector register is assigned by a macro for as many words as its value
needs, which may be fewer than the register has: `sameAsInput_iff` says when nothing of what was in
the register before is left.
-/

open Bytes

namespace RISCover

/-! ## The macros of `util.h`

A macro stores words of eight bytes from the highest one down. The bytes behind them stay as they
were. -/

/-- `((uint64_t*)&reg)[i] = hex;`. -/
def putWord (reg : Bytes) (i hex : Nat) : Bytes :=
  reg.take (8 * i) ++ leBytes 8 hex ++ reg.drop (8 * i + 8)

/-- The stores of a macro, from the last word to the first. -/
def putWords : Bytes → List Nat → Bytes
  | reg, [] => reg
  | reg, hex :: rest => putWords (putWord reg rest.length hex) rest

/-- What the four macros have in common; `none` is the failing `static_assert`. -/
def assignWords (size : Nat) (reg : Bytes) (hexes : List Nat) : Option Bytes :=
  if size ≤ reg.length then some (putWords reg hexes) else none

def ASSIGN_8 (reg : Bytes) (hex : Nat) : Option Bytes := assignWords 8 reg [hex]

def ASSIGN_16 (reg : Bytes) (hex1 hex0 : Nat) : Option Bytes := assignWords 16 reg [hex1, hex0]

def ASSIGN_24 (reg : Bytes) (hex2 hex1 hex0 : Nat) : Option Bytes :=
  assignWords 24 reg [hex2, hex1, hex0]

def ASSIGN_32 (reg : Bytes) (hex3 hex2 hex1 hex0 : Nat) : Option Bytes :=
  assignWords 32 reg [hex3, hex2, hex1, hex0]

/-- `ASSIGN_n(reg, args)`; there are no other macros of that name. -/
def expandAssign (n : Nat) (reg : Bytes) (args : List Nat) : Option Bytes :=
  match n, args with
  | 8, [hex] => ASSIGN_8 reg hex
  | 16, [hex1, hex0] => ASSIGN_16 reg hex1 hex0
  | 24, [hex2, hex1, hex0] => ASSIGN_24 reg hex2 hex1 hex0
  | 32, [hex3, hex2, hex1, hex0] => ASSIGN_32 reg hex3 hex2 hex1 hex0
  | _, _ => none

/-! ## The generator

The words of a value are those up to the highest that is not zero, so a small value has fewer than
the register. -/

/-- The registers that an input names, with their values. -/
structure NamedRegs (c : RegConfig) where
  gp : Dict String (BitVec 64)
  fp : Option (Dict String (BitVec 64))
  vec : Option (Dict String (BitVec 128))
  gp_names : ∀ name ∈ gp.keys, name ∈ c.names .gp
  fp_names : ∀ regs, fp = some regs → ∀ name ∈ regs.keys, name ∈ c.names .fp
  vec_names : ∀ regs, vec = some regs → ∀ name ∈ regs.keys, name ∈ c.names .vec

/-- A line of `regs_lines`. -/
inductive RegsLine where
  /-- `regs.gp.{reg} = {hex(v)};` -/
  | gp (reg : String) (v : Nat)
  /-- `regs.fp.{reg}.u = {hex(v)};` -/
  | fp (reg : String) (v : Nat)
  /-- `ASSIGN_{n}(regs.vec.{reg}, …)` -/
  | vec (n : Nat) (reg : String) (args : List Nat)

/-- `while v > 0`: the words of a number, lowest first. -/
def wordsLoop (v : Nat) : List Nat :=
  if _ : v > 0 then (v &&& ((1 <<< 64) - 1)) :: wordsLoop (v >>> 64) else []
termination_by v
decreasing_by
  rw [Nat.shiftRight_eq_div_pow]
  exact Nat.div_lt_self ‹v > 0› (by decide)

/-- `nums`. -/
def splitWords (v : Nat) : List Nat := if v == 0 then [0] else wordsLoop v

def RegsLine.ofVec (reg : String) (v : Nat) : RegsLine :=
  let nums := splitWords v
  .vec (nums.length * 8) reg nums.reverse

namespace NamedRegs

variable {c : RegConfig}

/-- `regs_lines`. -/
def regsLines (inp : NamedRegs c) : List RegsLine :=
  (inp.gp.items.map fun p => .gp p.1 p.2.toNat) ++
    ((inp.fp.getD Dict.empty).items.map fun p => .fp p.1 p.2.toNat) ++
    ((inp.vec.getD Dict.empty).items.map fun p => .ofVec p.1 p.2.toNat)

/-- What the input says about a register. -/
def value? (inp : NamedRegs c) (k : RegClass) (name : String) : Option Nat :=
  match k with
  | .gp => (inp.gp.get? name).map BitVec.toNat
  | .fp => ((inp.fp.getD Dict.empty).get? name).map BitVec.toNat
  | .vec => ((inp.vec.getD Dict.empty).get? name).map BitVec.toNat
  | _ => none

end NamedRegs

/-! ## The generated program

A line names its register, and the assignments run one after the other. -/

namespace RegsLine

/-- The member of `struct regs` that the line is about. -/
def cls : RegsLine → RegClass
  | gp _ _ => .gp
  | fp _ _ => .fp
  | vec _ _ _ => .vec

def reg : RegsLine → String
  | gp reg _ => reg
  | fp reg _ => reg
  | vec _ reg _ => reg

/-- What the register holds after the line; `none` if it does not compile. -/
def store (line : RegsLine) (old : Bytes) : Option Nat :=
  match line with
  | gp _ v => some v
  | fp _ v => some v
  | vec n _ args => (expandAssign n old args).map ofLeBytes

variable {c : RegConfig}

/-- The line is executed; `none` if it does not compile. -/
def exec (line : RegsLine) (regs : Regs c) : Option (Regs c) := do
  let i ← (List.finRange (c.count line.cls)).find? fun i =>
    Reg.name (⟨line.cls, i⟩ : Reg c) == line.reg
  let v ← line.store (RegVal.bytes (Reg.val ⟨line.cls, i⟩ regs))
  some (regs.set line.cls i v)

end RegsLine

/-- The assignments of `run`, one after the other. -/
def runRegsLines {c : RegConfig} (lines : List RegsLine) (regs : Regs c) : Option (Regs c) :=
  lines.foldlM (fun regs line => line.exec regs) regs

/-- Every named register has the value of the input. -/
def SameAsInput {c : RegConfig} (inp : NamedRegs c) (regs : Regs c) : Prop :=
  ∀ (r : Reg c) (v : Nat), inp.value? r.1 r.name = some v → (r.val regs).toNat = v

/-! ## Words and bytes

A value in words is the number that its words spell, below what is left of the register. -/

theorem ofLeBytes_drop (bs : Bytes) (k : Nat) : ofLeBytes (bs.drop k) = ofLeBytes bs / 256 ^ k := by
  by_cases hk : k ≤ bs.length
  · have hlen : (bs.take k).length = k := List.length_take_of_le hk
    have hlt := ofLeBytes_lt (bs.take k)
    have happend := ofLeBytes_append (bs.take k) (bs.drop k)
    rw [List.take_append_drop, hlen] at happend
    rw [hlen] at hlt
    rw [happend, Nat.add_mul_div_left _ _ (Nat.pow_pos (by decide)), Nat.div_eq_of_lt hlt,
      Nat.zero_add]
  · have hlt := ofLeBytes_lt bs
    have hle : 256 ^ bs.length ≤ 256 ^ k := Nat.pow_le_pow_right (by decide) (by omega)
    rw [List.drop_of_length_le (by omega), Nat.div_eq_of_lt (by omega)]
    rfl

/-- The first word of a register is replaced, and the others stay. -/
theorem ofLeBytes_putWord_zero (reg : Bytes) {hex : Nat} (h : hex < 2 ^ 64) :
    ofLeBytes (putWord reg 0 hex) = hex + 2 ^ 64 * (ofLeBytes reg / 2 ^ 64) := by
  have hpow : (256 : Nat) ^ 8 = 2 ^ 64 := by decide
  rw [putWord, Nat.mul_zero, List.take_zero, List.nil_append, ofLeBytes_append, length_leBytes,
    ofLeBytes_leBytes_of_lt (by omega), Nat.zero_add, ofLeBytes_drop, hpow]

/-- Two words are all that a vector register has. -/
theorem ofLeBytes_putWords_two {reg : Bytes} (hlen : reg.length = 16) {hex1 hex0 : Nat}
    (h1 : hex1 < 2 ^ 64) (h0 : hex0 < 2 ^ 64) :
    ofLeBytes (putWords reg [hex1, hex0]) = hex0 + 2 ^ 64 * hex1 := by
  have hpow : (256 : Nat) ^ 8 = 2 ^ 64 := by decide
  have htake : (reg.take 8).length = 8 := List.length_take_of_le (by omega)
  have hupper : putWord reg 1 hex1 = reg.take 8 ++ leBytes 8 hex1 := by
    rw [putWord, List.drop_of_length_le (by omega), List.append_nil]
  show ofLeBytes (putWord (putWord reg 1 hex1) 0 hex0) = _
  rw [ofLeBytes_putWord_zero _ h0, hupper, ofLeBytes_append, htake, hpow,
    ofLeBytes_leBytes_of_lt (by omega)]
  have hlower := ofLeBytes_lt (reg.take 8)
  rw [htake, hpow] at hlower
  omega

theorem wordsLoop_zero : wordsLoop 0 = [] := by
  rw [wordsLoop, dif_neg (Nat.lt_irrefl 0)]

theorem wordsLoop_of_pos {v : Nat} (h : 0 < v) :
    wordsLoop v = v % 2 ^ 64 :: wordsLoop (v / 2 ^ 64) := by
  have hmask : (1 <<< 64 : Nat) - 1 = 2 ^ 64 - 1 := by decide
  rw [wordsLoop, dif_pos h, hmask, Nat.and_two_pow_sub_one_eq_mod, Nat.shiftRight_eq_div_pow]

theorem splitWords_of_lt {v : Nat} (h : v < 2 ^ 64) : splitWords v = [v] := by
  unfold splitWords
  split
  next hzero => rw [beq_iff_eq.mp hzero]
  next hne =>
    have hpos : 0 < v := Nat.pos_of_ne_zero fun hzero => hne (beq_iff_eq.mpr hzero)
    rw [wordsLoop_of_pos hpos, Nat.mod_eq_of_lt h, Nat.div_eq_of_lt h, wordsLoop_zero]

theorem splitWords_of_ge {v : Nat} (h : 2 ^ 64 ≤ v) (hlt : v < 2 ^ 128) :
    splitWords v = [v % 2 ^ 64, v / 2 ^ 64] := by
  have hne : ¬(v == 0) = true := by
    rw [beq_iff_eq]
    omega
  have hupper : v / 2 ^ 64 < 2 ^ 64 := by omega
  rw [splitWords, if_neg hne, wordsLoop_of_pos (by omega), wordsLoop_of_pos (by omega),
    Nat.mod_eq_of_lt hupper, Nat.div_eq_of_lt hupper, wordsLoop_zero]

/-- A value of one word leaves the upper half of the register as it was. -/
theorem RegsLine.store_ofVec {reg : String} {v : Nat} (hv : v < 2 ^ 128) {old : Bytes}
    (hlen : old.length = 16) : (RegsLine.ofVec reg v).store old =
      some (if 2 ^ 64 ≤ v then v else v + 2 ^ 64 * (ofLeBytes old / 2 ^ 64)) := by
  split
  next hge =>
    have hexpand : (RegsLine.ofVec reg v).store old =
        (ASSIGN_16 old (v / 2 ^ 64) (v % 2 ^ 64)).map ofLeBytes := by
      rw [RegsLine.ofVec, splitWords_of_ge hge hv]
      rfl
    rw [hexpand, ASSIGN_16, assignWords, if_pos hlen.ge, Option.map_some,
      ofLeBytes_putWords_two hlen (by omega) (by omega)]
    congr 1
    omega
  next hlt =>
    have hexpand : (RegsLine.ofVec reg v).store old = (ASSIGN_8 old v).map ofLeBytes := by
      rw [RegsLine.ofVec, splitWords_of_lt (by omega)]
      rfl
    rw [hexpand, ASSIGN_8, assignWords, if_pos (by omega), Option.map_some]
    exact congrArg some (ofLeBytes_putWord_zero old (by omega))

/-! ## Running the assignments

No register is named twice, so what a line has stored is not overwritten. -/

section run

variable {c : RegConfig}

theorem exists_name_eq {k : RegClass} {name : String} (h : name ∈ c.names k) :
    ∃ i, Reg.name (⟨k, i⟩ : Reg c) = name := by
  rw [← RegConfig.names_eq] at h
  obtain ⟨i, -, hi⟩ := List.mem_map.mp h
  exact ⟨i, hi⟩

theorem RegsLine.exec_eq {regs : Regs c} {line : RegsLine} {i : Fin (c.count line.cls)} {v : Nat}
    (hname : Reg.name (⟨line.cls, i⟩ : Reg c) = line.reg)
    (hstore : line.store (RegVal.bytes (Reg.val ⟨line.cls, i⟩ regs)) = some v) :
    line.exec regs = some (regs.set line.cls i v) := by
  have hfind : (List.finRange (c.count line.cls)).find? (fun j =>
      Reg.name (⟨line.cls, j⟩ : Reg c) == line.reg) = some i := by
    cases hj : (List.finRange (c.count line.cls)).find? (fun j =>
        Reg.name (⟨line.cls, j⟩ : Reg c) == line.reg) with
    | none =>
        have hnot := List.find?_eq_none.mp hj i (List.mem_finRange i)
        exact absurd (beq_iff_eq.mpr hname) hnot
    | some j =>
        have hbeq := List.find?_some hj
        have hreg : (⟨line.cls, j⟩ : Reg c) = ⟨line.cls, i⟩ :=
          Reg.name_inj ((beq_iff_eq.mp hbeq).trans hname.symm)
        cases hreg
        rfl
  rw [RegsLine.exec, hfind]
  show (line.store _).bind _ = _
  rw [hstore]
  rfl

/-- What the lines make of the registers: those they are about, and the others. -/
structure Assigned (lines : List RegsLine) (prior regs : Regs c) : Prop where
  named : ∀ line ∈ lines, ∀ r : Reg c, line.cls = r.1 → line.reg = r.name →
    ∃ v, line.store (r.val prior).bytes = some v ∧ r.val regs = BitVec.ofNat _ v
  others : ∀ r : Reg c, (∀ line ∈ lines, line.cls = r.1 → line.reg ≠ r.name) →
    r.val regs = r.val prior

/-- Lines about different registers are executed if each of them compiles. -/
theorem exists_assigned {lines : List RegsLine}
    (hnodup : lines.Pairwise fun line line' => line.cls = line'.cls → line.reg ≠ line'.reg)
    (hname : ∀ line ∈ lines, line.reg ∈ c.names line.cls)
    (hstore : ∀ line ∈ lines, ∀ old : Bytes, old.length = line.cls.size →
      ∃ v, line.store old = some v) (prior : Regs c) :
    ∃ regs, runRegsLines lines prior = some regs ∧ Assigned lines prior regs := by
  induction lines generalizing prior with
  | nil => exact ⟨prior, rfl, fun _ h => absurd h List.not_mem_nil, fun _ _ => rfl⟩
  | cons line lines ih =>
      obtain ⟨hne, hnodup⟩ := List.pairwise_cons.mp hnodup
      obtain ⟨i, hi⟩ := exists_name_eq (hname line List.mem_cons_self)
      obtain ⟨v, hv⟩ := hstore line List.mem_cons_self _ (RegVal.length_bytes _)
      obtain ⟨regs, hrun, hregs⟩ := ih hnodup (fun l hl => hname l (List.mem_cons_of_mem _ hl))
        (fun l hl => hstore l (List.mem_cons_of_mem _ hl)) (prior.set line.cls i v)
      refine ⟨regs, ?_, ?_, ?_⟩
      · show (line.exec prior).bind _ = _
        rw [RegsLine.exec_eq hi hv]
        exact hrun
      · intro l hl r hcls hreg
        rcases List.mem_cons.mp hl with rfl | hl
        · -- the register of the first line: no later line names it again
          have hr : r = ⟨l.cls, i⟩ := Reg.name_inj (hreg.symm.trans hi.symm)
          subst hr
          refine ⟨v, hv, ?_⟩
          rw [hregs.others _ fun l' hl' hcls' hreg' =>
            hne l' hl' hcls'.symm (hi.symm.trans hreg'.symm)]
          exact Reg.val_set_self prior ⟨l.cls, i⟩ v
        · have hr : r ≠ ⟨line.cls, i⟩ := by
            rintro rfl
            exact hne l hl hcls.symm (hi.symm.trans hreg.symm)
          have hnamed := hregs.named l hl r hcls hreg
          rwa [Reg.val_set_of_ne prior hr] at hnamed
      · intro r hnone
        have hr : r ≠ ⟨line.cls, i⟩ := by
          rintro rfl
          exact hnone line List.mem_cons_self rfl hi.symm
        rw [hregs.others r fun l hl => hnone l (List.mem_cons_of_mem _ hl),
          Reg.val_set_of_ne prior hr]

end run

/-! ## The lines of an input

Every register of the input has one line, and the others keep what was in memory. -/

namespace NamedRegs

variable {c : RegConfig} (inp : NamedRegs c)

/-- The line about a register. -/
def line (k : RegClass) (name : String) (v : Nat) : RegsLine :=
  match k with
  | .fp => .fp name v
  | .vec => .ofVec name v
  | _ => .gp name v

theorem mem_regsLines_iff {l : RegsLine} :
    l ∈ inp.regsLines ↔ ∃ k name v, inp.value? k name = some v ∧ l = line k name v := by
  simp only [regsLines, List.mem_append, List.mem_map]
  constructor
  · rintro ((⟨p, hp, rfl⟩ | ⟨p, hp, rfl⟩) | ⟨p, hp, rfl⟩)
    · refine ⟨.gp, p.1, p.2.toNat, ?_, rfl⟩
      rw [value?, Dict.mem_items_iff.mp hp]
      rfl
    · refine ⟨.fp, p.1, p.2.toNat, ?_, rfl⟩
      rw [value?, Dict.mem_items_iff.mp hp]
      rfl
    · refine ⟨.vec, p.1, p.2.toNat, ?_, rfl⟩
      rw [value?, Dict.mem_items_iff.mp hp]
      rfl
  · rintro ⟨k, name, v, hvalue, rfl⟩
    -- the control registers are not assigned
    cases k with
    | gp =>
        obtain ⟨w, hw, rfl⟩ := Option.map_eq_some_iff.mp hvalue
        exact Or.inl (Or.inl ⟨(name, w), Dict.mem_items_iff.mpr hw, rfl⟩)
    | fp =>
        obtain ⟨w, hw, rfl⟩ := Option.map_eq_some_iff.mp hvalue
        exact Or.inl (Or.inr ⟨(name, w), Dict.mem_items_iff.mpr hw, rfl⟩)
    | vec =>
        obtain ⟨w, hw, rfl⟩ := Option.map_eq_some_iff.mp hvalue
        exact Or.inr ⟨(name, w), Dict.mem_items_iff.mpr hw, rfl⟩
    | pstate => cases hvalue
    | fcsr => cases hvalue
    | fpsr => cases hvalue

/-- The values fit the registers. -/
theorem value?_lt {k : RegClass} {name : String} {v : Nat} (h : inp.value? k name = some v) :
    v < 256 ^ k.size := by
  cases k with
  | gp =>
      obtain ⟨w, -, rfl⟩ := Option.map_eq_some_iff.mp h
      exact w.isLt
  | fp =>
      obtain ⟨w, -, rfl⟩ := Option.map_eq_some_iff.mp h
      exact w.isLt
  | vec =>
      obtain ⟨w, -, rfl⟩ := Option.map_eq_some_iff.mp h
      exact w.isLt
  | pstate => cases h
  | fcsr => cases h
  | fpsr => cases h

theorem cls_line {k : RegClass} {name : String} {v : Nat} (h : inp.value? k name = some v) :
    (line k name v).cls = k := by
  cases k with
  | gp => rfl
  | fp => rfl
  | vec => rfl
  | pstate => cases h
  | fcsr => cases h
  | fpsr => cases h

theorem reg_line (k : RegClass) (name : String) (v : Nat) : (line k name v).reg = name := by
  cases k <;> rfl

theorem mem_names {k : RegClass} {name : String} {v : Nat} (h : inp.value? k name = some v) :
    name ∈ c.names k := by
  -- a register with a value is a key of its dictionary
  have hkeys : ∀ {n : Nat} (d : Dict String (BitVec n)),
      (d.get? name).map BitVec.toNat = some v → name ∈ d.keys := by
    intro n d hd
    obtain ⟨w, hw, -⟩ := Option.map_eq_some_iff.mp hd
    exact List.mem_map.mpr ⟨(name, w), Dict.mem_items_iff.mpr hw, rfl⟩
  cases k with
  | gp => exact inp.gp_names name (hkeys _ h)
  | fp =>
      cases hfp : inp.fp with
      | none =>
          rw [value?, hfp] at h
          cases h
      | some regs =>
          rw [value?, hfp] at h
          exact inp.fp_names regs hfp name (hkeys regs h)
  | vec =>
      cases hvec : inp.vec with
      | none =>
          rw [value?, hvec] at h
          cases h
      | some regs =>
          rw [value?, hvec] at h
          exact inp.vec_names regs hvec name (hkeys regs h)
  | pstate => cases h
  | fcsr => cases h
  | fpsr => cases h

/-- What a line stores over `old`: only a short value of a vector register keeps some of it. -/
def stored (k : RegClass) (v old : Nat) : Nat :=
  if k = .vec ∧ v < 2 ^ 64 then v + 2 ^ 64 * (old / 2 ^ 64) else v

theorem stored_lt {k : RegClass} {v old : Nat} (hv : v < 256 ^ k.size) (hold : old < 256 ^ k.size) :
    stored k v old < 256 ^ k.size := by
  unfold stored
  split
  next hshort =>
    obtain ⟨rfl, hlt⟩ := hshort
    have hpow : (256 : Nat) ^ RegClass.vec.size = 2 ^ 128 := by decide
    omega
  next => exact hv

theorem store_line {k : RegClass} {name : String} {v : Nat} (h : inp.value? k name = some v)
    {old : Bytes} (hlen : old.length = k.size) :
    (line k name v).store old = some (stored k v (ofLeBytes old)) := by
  cases k with
  | gp => rfl
  | fp => rfl
  | vec =>
      show (RegsLine.ofVec name v).store old = _
      rw [RegsLine.store_ofVec (inp.value?_lt h) hlen, stored]
      by_cases hlt : v < 2 ^ 64
      · rw [if_neg (by omega), if_pos ⟨rfl, hlt⟩]
      · rw [if_pos (by omega), if_neg fun hand => hlt hand.2]
  | pstate => cases h
  | fcsr => cases h
  | fpsr => cases h

/-- The lines of a dictionary are about different registers. -/
theorem pairwise_map_items {n : Nat} (d : Dict String (BitVec n))
    {f : String × BitVec n → RegsLine} (hf : ∀ p, (f p).reg = p.1) :
    (d.items.map f).Pairwise fun line line' => line.cls = line'.cls → line.reg ≠ line'.reg := by
  rw [List.pairwise_map]
  apply (List.pairwise_map.mp d.nodup).imp
  intro p q hne _ heq
  rw [hf, hf] at heq
  exact hne heq

theorem pairwise_regsLines :
    inp.regsLines.Pairwise fun line line' => line.cls = line'.cls → line.reg ≠ line'.reg := by
  unfold regsLines
  rw [List.pairwise_append, List.pairwise_append]
  refine ⟨⟨pairwise_map_items _ fun _ => rfl, pairwise_map_items _ fun _ => rfl, ?_⟩,
    pairwise_map_items _ fun _ => rfl, ?_⟩
  · intro line hline line' hline' hcls
    obtain ⟨p, -, rfl⟩ := List.mem_map.mp hline
    obtain ⟨q, -, rfl⟩ := List.mem_map.mp hline'
    cases hcls
  · intro line hline line' hline' hcls
    obtain ⟨q, -, rfl⟩ := List.mem_map.mp hline'
    rcases List.mem_append.mp hline with hline | hline
    · obtain ⟨p, -, rfl⟩ := List.mem_map.mp hline
      cases hcls
    · obtain ⟨p, -, rfl⟩ := List.mem_map.mp hline
      cases hcls

/-- The program compiles, and every named register holds what its line stores. -/
theorem exists_runRegsLines (prior : Regs c) :
    ∃ regs, runRegsLines inp.regsLines prior = some regs ∧
      (∀ (r : Reg c) (v : Nat), inp.value? r.1 r.name = some v →
        (r.val regs).toNat = stored r.1 v (r.val prior).toNat) ∧
      ∀ r : Reg c, inp.value? r.1 r.name = none → r.val regs = r.val prior := by
  obtain ⟨regs, hrun, hassigned⟩ := exists_assigned inp.pairwise_regsLines
    (fun l hl => by
      obtain ⟨k, name, v, hvalue, rfl⟩ := inp.mem_regsLines_iff.mp hl
      rw [inp.cls_line hvalue, reg_line]
      exact inp.mem_names hvalue)
    (fun l hl old hlen => by
      obtain ⟨k, name, v, hvalue, rfl⟩ := inp.mem_regsLines_iff.mp hl
      rw [inp.cls_line hvalue] at hlen
      exact ⟨_, inp.store_line hvalue hlen⟩) prior
  refine ⟨regs, hrun, fun r v hvalue => ?_, fun r hnone => ?_⟩
  · have hline := inp.mem_regsLines_iff.mpr ⟨r.1, r.name, v, hvalue, rfl⟩
    obtain ⟨w, hstore, hval⟩ := hassigned.named _ hline r (inp.cls_line hvalue) (reg_line _ _ _)
    rw [inp.store_line hvalue (RegVal.length_bytes _), RegVal.ofLeBytes_bytes] at hstore
    cases hstore
    -- what is stored fits the register, so it can be told from the number
    have hfits := stored_lt (inp.value?_lt hvalue) (RegVal.toNat_lt (r.val prior))
    rw [hval, BitVec.toNat_ofNat, Nat.pow_mul]
    exact Nat.mod_eq_of_lt hfits
  · apply hassigned.others
    intro l hl hcls hreg
    obtain ⟨k, name, v, hvalue, rfl⟩ := inp.mem_regsLines_iff.mp hl
    rw [inp.cls_line hvalue] at hcls
    rw [reg_line] at hreg
    rw [hcls, hreg, hnone] at hvalue
    cases hvalue

theorem stored_eq_iff {k : RegClass} {v old : Nat} :
    stored k v old = v ↔ (k = .vec → 2 ^ 64 ≤ v ∨ old < 2 ^ 64) := by
  unfold stored
  split
  next hshort =>
    constructor
    · intro heq _
      omega
    · intro hupper
      have hold := hupper hshort.1
      omega
  next hnot =>
    constructor
    · intro _ hk
      have hlt : ¬v < 2 ^ 64 := fun hlt => hnot ⟨hk, hlt⟩
      omega
    · exact fun _ => rfl

end NamedRegs

/-- The generated program sets the named registers to the values of the input if and only if each
vector register with a value of one word held zeroes in its upper half before. -/
theorem sameAsInput_iff {c : RegConfig} (inp : NamedRegs c) (prior : Regs c) :
    ∃ regs, runRegsLines inp.regsLines prior = some regs ∧
      (SameAsInput inp regs ↔ ∀ (r : Reg c) (v : Nat), r.1 = .vec →
        inp.value? r.1 r.name = some v → 2 ^ 64 ≤ v ∨ (r.val prior).toNat < 2 ^ 64) := by
  obtain ⟨regs, hrun, hnamed, -⟩ := inp.exists_runRegsLines prior
  refine ⟨regs, hrun, ?_⟩
  constructor
  · intro hsame r v hvec hvalue
    have hstored := hsame r v hvalue
    rw [hnamed r v hvalue] at hstored
    exact NamedRegs.stored_eq_iff.mp hstored hvec
  · intro hupper r v hvalue
    rw [hnamed r v hvalue]
    exact NamedRegs.stored_eq_iff.mpr fun hvec => hupper r v hvec hvalue

/-- An input that clears a vector register. -/
def clearedVec : NamedRegs ⟨.riscv64, true, true, buildAdmits_vector⟩ where
  gp := Dict.empty
  fp := none
  vec := some (Dict.empty.set "v0" 0)
  gp_names := fun _ h => absurd h List.not_mem_nil
  fp_names := fun _ h => nomatch h
  vec_names := by
    intro regs hregs name hname
    cases hregs
    rcases Dict.mem_keys_set.mp hname with rfl | hname
    · decide
    · exact absurd hname List.not_mem_nil

/-- Over a memory of ones, half of the ones stay. -/
theorem clearedVec_not_sameAsInput :
    ¬∃ regs, runRegsLines clearedVec.regsLines (Regs.fill _ (2 ^ 128 - 1)) = some regs ∧
      SameAsInput clearedVec regs := by
  rintro ⟨regs, hrun, hsame⟩
  obtain ⟨regs', hrun', hnamed, -⟩ :=
    clearedVec.exists_runRegsLines (Regs.fill _ (2 ^ 128 - 1))
  cases Option.some.inj (hrun.symm.trans hrun')
  let v0 : Reg ⟨.riscv64, true, true, rfl⟩ := ⟨.vec, ⟨0, by decide⟩⟩
  have hvalue : clearedVec.value? .vec v0.name = some 0 := by decide
  have hstored := hnamed v0 0 hvalue
  rw [hsame v0 0 hvalue] at hstored
  exact absurd hstored (by decide)

end RISCover
