import RISCover.Collection.LowBits
import RISCover.Lib.Bytes

/-!
# Disassembling a string of bytes

`disassemble_bytes` looks at four bytes at a time, and goes on by two or by four of them. It stops
when two bytes are left: a compressed instruction at the end is lost.
-/

open Bytes

namespace RISCover

/-- `disassemble_bytes`; `none` is the failing assertion of `disassemble`. -/
def InstructionMaps.disassembleBytes (self : InstructionMaps) (byteSeq : Bytes) :
    Option (List String) :=
  if byteSeq.length > 2 then
    let instr := ofLeBytes (byteSeq.take 4)
    match self.disassemble instr with
    | none => none
    | some op =>
      -- an empty name is as good as none
      match op.filter fun name => name != "" with
      | some name =>
        if instr &&& 0xffff = 0 ∨ instr &&& 3 ≠ 3 then
          (self.disassembleBytes (byteSeq.drop 2)).map (name :: ·)
        else (self.disassembleBytes (byteSeq.drop 4)).map (name :: ·)
      | none => (self.disassembleBytes (byteSeq.drop 2)).map ("unknown" :: ·)
  else some []
termination_by byteSeq.length
decreasing_by
  all_goals
    rw [List.length_drop]
    omega

/-- A collection of RISC-V instructions: the compressed ones have no static bits in the upper half,
the others have the lowest two bits set. -/
structure InstructionMaps.IsRiscv (maps : InstructionMaps) : Prop where
  named : ∀ p ∈ maps.instructions.items, p.1 ≠ ""
  size : ∀ p ∈ maps.instructions.items,
    p.2.combinedMask.mask < 2 ^ 16 ∨ p.2.combinedMask.FourBytes

/-- An encoded instruction. -/
inductive Encoding where
  | two (half : UInt16) (h : half.toNat &&& 3 ≠ 3)
  | four (word : UInt32) (h : word.toNat &&& 3 = 3)

namespace Encoding

def word : Encoding → Nat
  | two half _ => half.toNat
  | four word _ => word.toNat

def size : Encoding → Nat
  | two _ _ => 2
  | four _ _ => 4

def bytes (i : Encoding) : Bytes := leBytes i.size i.word

theorem word_lt (i : Encoding) : i.word < 256 ^ i.size := by
  cases i with
  | two half _ => exact half.toNat_lt
  | four word _ => exact word.toNat_lt

theorem two_le_size (i : Encoding) : 2 ≤ i.size := by
  cases i with
  | two _ _ => exact Nat.le_refl 2
  | four _ _ => exact Nat.le_add_left 2 2

theorem word_lt_two_pow (i : Encoding) : i.word < 2 ^ 32 := by
  apply Nat.lt_of_lt_of_le i.word_lt
  cases i with
  | two _ _ => exact Nat.pow_le_pow_right (Nat.succ_pos 255) (show 2 ≤ 4 by omega)
  | four _ _ => exact Nat.le_refl _

end Encoding

namespace InstructionMaps

variable {self : InstructionMaps}

theorem ofLeBytes_take_lt (byteSeq : Bytes) : ofLeBytes (byteSeq.take 4) < 2 ^ 32 := by
  have hbytes := ofLeBytes_lt (byteSeq.take 4)
  have hlen : (byteSeq.take 4).length ≤ 4 := List.length_take_le 4 byteSeq
  exact Nat.lt_of_lt_of_le hbytes (Nat.pow_le_pow_right (Nat.succ_pos 255) hlen)

/-- The assertion of `disassemble` holds of four bytes. -/
theorem exists_disassemble (self : InstructionMaps) (byteSeq : Bytes) :
    ∃ op, self.updateMaps.disassemble (ofLeBytes (byteSeq.take 4)) = some op := by
  have heq := disassemble_eq self (UInt32.ofNat (ofLeBytes (byteSeq.take 4)))
  rw [UInt32.toNat_ofNat_of_lt' (ofLeBytes_take_lt byteSeq)] at heq
  exact ⟨_, heq⟩

/-- The loop ends on every string of bytes. -/
theorem exists_disassembleBytes (self : InstructionMaps) (byteSeq : Bytes) :
    ∃ names, self.updateMaps.disassembleBytes byteSeq = some names := by
  induction hlen : byteSeq.length using Nat.strongRecOn generalizing byteSeq with
  | ind n ih =>
      rw [disassembleBytes]
      split
      next hmore =>
        obtain ⟨op, hop⟩ := exists_disassemble self byteSeq
        have hrest : ∀ k, 0 < k → ∀ name : String, ∃ names,
            (self.updateMaps.disassembleBytes (byteSeq.drop k)).map (name :: ·) = some names := by
          intro k hk name
          obtain ⟨names, hnames⟩ := ih (byteSeq.drop k).length
            (by rw [List.length_drop]; omega) (byteSeq.drop k) rfl
          exact ⟨name :: names, by rw [hnames]; rfl⟩
        simp only [hop]
        split
        next name _ =>
          split
          next => exact hrest 2 (Nat.succ_pos 1) name
          next => exact hrest 4 (Nat.succ_pos 3) name
        next => exact hrest 2 (Nat.succ_pos 1) "unknown"
      next => exact ⟨[], rfl⟩

/-- One round of the loop on an instruction with a name. -/
theorem disassembleBytes_step {byteSeq : Bytes} {name : String} (hlen : 2 < byteSeq.length)
    (hop : self.disassemble (ofLeBytes (byteSeq.take 4)) = some (some name)) (hname : name ≠ "") :
    self.disassembleBytes byteSeq =
      (self.disassembleBytes (byteSeq.drop
        (if ofLeBytes (byteSeq.take 4) &&& 3 = 3 then 4 else 2))).map (name :: ·) := by
  have hfilter : (some name).filter (fun name => name != "") = some name := by
    rw [Option.filter_some, if_pos (bne_iff_ne.mpr hname)]
  rw [disassembleBytes, if_pos hlen]
  simp only [hop, hfilter]
  by_cases hthree : ofLeBytes (byteSeq.take 4) &&& 3 = 3
  · have hnonzero : ofLeBytes (byteSeq.take 4) &&& 0xffff ≠ 0 := by
      intro hzero
      have hand : ofLeBytes (byteSeq.take 4) &&& 0xffff &&& 3 = 3 := by
        rw [Nat.and_assoc]
        exact hthree
      rw [hzero] at hand
      cases hand
    rw [if_pos hthree, if_neg (not_or.mpr ⟨hnonzero, not_not.mpr hthree⟩)]
  · rw [if_neg hthree, if_pos (Or.inr hthree)]

/-- The names of the collection are not empty. -/
theorem ne_empty_of_disassemble (h : self.IsRiscv) {word : Nat} (hlt : word < 2 ^ 32)
    {name : String} (hop : self.updateMaps.disassemble word = some (some name)) : name ≠ "" := by
  have heq := disassemble_eq self (UInt32.ofNat word)
  rw [UInt32.toNat_ofNat_of_lt' hlt, hop] at heq
  obtain ⟨e, he, -⟩ := best_of_searchBucket (Option.some.inj heq).symm
  exact h.named _ ((items_sortedInstructions_perm self.instructions).mem_iff.mp he)

/-- The four bytes at the front of an instruction and what follows it. -/
theorem ofLeBytes_take (i : Encoding) (rest : Bytes) :
    ∃ n, ofLeBytes ((i.bytes ++ rest).take 4) = i.word + 256 ^ i.size * n ∧
      (i.size = 4 → n = 0) := by
  have hlen : i.bytes.length = i.size := length_leBytes _ _
  refine ⟨ofLeBytes (rest.take (4 - i.size)), ?_, ?_⟩
  · rw [List.take_append, hlen, List.take_of_length_le, ofLeBytes_append, hlen, Encoding.bytes,
      ofLeBytes_leBytes_of_lt i.word_lt]
    rw [hlen]
    cases i with
    | two half _ => exact Nat.le_add_left 2 2
    | four word _ => exact Nat.le_refl 4
  · intro hfour
    rw [hfour, Nat.sub_self, List.take_zero]
    rfl

/-- The bytes behind an instruction do not change how it is read. -/
theorem disassembleBytes_cons (h : self.IsRiscv) (i : Encoding) {rest : Bytes} {name : String}
    (hlen : 2 < (i.bytes ++ rest).length)
    (hop : self.updateMaps.disassemble i.word = some (some name)) :
    self.updateMaps.disassembleBytes (i.bytes ++ rest) =
      (self.updateMaps.disassembleBytes rest).map (name :: ·) := by
  have hbytes : i.bytes.length = i.size := length_leBytes _ _
  obtain ⟨n, htake, hfour⟩ := ofLeBytes_take i rest
  have hread : self.updateMaps.disassemble (ofLeBytes ((i.bytes ++ rest).take 4)) =
      some (some name) ∧ (if ofLeBytes ((i.bytes ++ rest).take 4) &&& 3 = 3 then 4 else 2) =
        i.size := by
    -- two bytes are looked up together with the two behind them, but only the lower half decides
    cases i with
    | two half hhalf =>
      have hmod : half.toNat % 2 ^ 16 = ofLeBytes (((Encoding.two half hhalf).bytes ++
          rest).take 4) % 2 ^ 16 := by
        rw [htake]
        exact (Nat.add_mul_mod_self_left half.toNat (2 ^ 16) n).symm
      have hlow : half.toNat &&& 3 = ofLeBytes (((Encoding.two half hhalf).bytes ++
          rest).take 4) &&& 3 := and_mask_congr hmod (by decide)
      have hsame := disassemble_congr h.size (Encoding.two half hhalf).word_lt_two_pow
        (ofLeBytes_take_lt _) hmod hhalf
      rw [← hsame, ← hlow, if_neg hhalf]
      exact ⟨hop, rfl⟩
    | four word hword =>
      rw [hfour rfl, Nat.mul_zero, Nat.add_zero] at htake
      rw [htake]
      exact ⟨hop, if_pos hword⟩
  have hname := ne_empty_of_disassemble h i.word_lt_two_pow hop
  rw [disassembleBytes_step hlen hread.1 hname, hread.2, ← hbytes, List.drop_left]

theorem disassembleBytes_short (self : InstructionMaps) {byteSeq : Bytes}
    (h : byteSeq.length ≤ 2) : self.disassembleBytes byteSeq = some [] := by
  rw [disassembleBytes, if_neg (Nat.not_lt.mpr h)]

theorem map_cons_eq_some_iff {ops : Option (List String)} {name : String} {names : List String} :
    ops.map (name :: ·) = some (name :: names) ↔ ops = some names := by
  cases ops with
  | none => exact iff_of_false (fun h => nomatch h) fun h => nomatch h
  | some ops =>
    rw [Option.map_some, Option.some_inj, Option.some_inj]
    exact List.cons_inj_right name

/-- All names are there unless the last instruction has two bytes only. -/
theorem disassembleBytes_iff (h : self.IsRiscv) {instrs : List Encoding} {names : List String}
    (hnames : List.Forall₂ (fun i name => self.updateMaps.disassemble i.word = some (some name))
      instrs names) :
    (∀ byteSeq, ∃ ops, self.updateMaps.disassembleBytes byteSeq = some ops) ∧
    (self.updateMaps.disassembleBytes (instrs.flatMap Encoding.bytes) = some names ↔
      ∀ i ∈ instrs.getLast?, i.size = 4) := by
  refine ⟨exists_disassembleBytes self, ?_⟩
  -- only the instruction at the end can be cut off, so the others are taken one by one
  induction hnames with
  | nil => exact iff_of_true (disassembleBytes_short _ (Nat.zero_le 2)) fun i hi => by cases hi
  | @cons i name instrs names hop hrest ih =>
      have hlen : ∀ i : Encoding, i.bytes.length = i.size := fun i => length_leBytes _ _
      rw [List.flatMap_cons]
      cases hrest with
      | nil =>
        rw [List.flatMap_nil]
        have hlast : (i.bytes ++ []).length = i.size := by rw [List.append_nil, hlen]
        cases i with
        | two half hhalf =>
          -- no more than two bytes are left: the loop does not look at them
          rw [disassembleBytes_short self.updateMaps (Nat.le_of_eq hlast)]
          refine iff_of_false (fun heq => ?_) fun hfour => ?_
          · cases heq
          · cases hfour _ rfl
        | four word hword =>
          have hmore : 2 < ((Encoding.four word hword).bytes ++ []).length := by
            rw [hlast]
            exact Nat.lt_add_of_pos_right (Nat.succ_pos 1)
          rw [disassembleBytes_cons h _ hmore hop, map_cons_eq_some_iff]
          refine iff_of_true (disassembleBytes_short _ (Nat.zero_le 2)) fun i hi => ?_
          obtain rfl := Option.some.inj hi
          rfl
      | @cons j name' instrs names' hop' hrest' =>
        have hmore : 2 < (i.bytes ++ (j :: instrs).flatMap Encoding.bytes).length := by
          have hi := i.two_le_size
          have hj := j.two_le_size
          rw [List.flatMap_cons, List.length_append, List.length_append, hlen, hlen]
          omega
        rw [disassembleBytes_cons h i hmore hop, map_cons_eq_some_iff, ih, List.getLast?_cons_cons]

/-! ## Two instructions

A compressed `nop` is found in front of another instruction, and is lost at the end. -/

/-- A word that only one instruction matches. -/
theorem disassemble_eq_of_unique {word : Nat} (hlt : word < 2 ^ 32) {i : String}
    {e : InstructionEntry} (he : (i, e) ∈ self.instructions.items)
    (hmatch : e.combinedMask.Matches word)
    (hunique : ∀ p ∈ self.instructions.items, p.2.combinedMask.Matches word → p.1 = i) :
    self.updateMaps.disassemble word = some (some i) := by
  obtain ⟨j, hj⟩ := exists_disassemble_of_matches he hlt hmatch
  have heq := disassemble_eq self (UInt32.ofNat word)
  rw [UInt32.toNat_ofNat_of_lt' hlt, hj] at heq
  obtain ⟨e', he', hmatch', -⟩ := best_of_searchBucket (Option.some.inj heq).symm
  have hmem := (items_sortedInstructions_perm self.instructions).mem_iff.mp he'
  obtain rfl : j = i := hunique (j, e') hmem hmatch'
  exact hj

/-- `c.nop` and `nop`. -/
def nops : InstructionMaps where
  instructions := ⟨[("c.nop", ⟨⟨0xffff, 0x0001, by decide⟩, ["rv_c"]⟩),
    ("nop", ⟨⟨0xffffffff, 0x00000013, by decide⟩, ["rv_i"]⟩)], by decide⟩
  absMask := 0
  maskMap := Dict.empty
  instrPerExtension := Dict.empty

/-- The items of the collection, one by one. -/
theorem forall_nops {P : String × InstructionEntry → Prop}
    (hcnop : ∀ e, e.combinedMask.mask = 0xffff → e.combinedMask.value = 0x0001 → P ("c.nop", e))
    (hnop : ∀ e, e.combinedMask.mask = 0xffffffff → e.combinedMask.value = 0x00000013 →
      P ("nop", e)) : ∀ p ∈ nops.instructions.items, P p := by
  intro p hp
  rcases List.mem_cons.mp hp with rfl | hp
  · exact hcnop _ rfl rfl
  · obtain rfl := List.mem_singleton.mp hp
    exact hnop _ rfl rfl

theorem isRiscv_nops : nops.IsRiscv where
  named := forall_nops (fun _ _ _ => show "c.nop" ≠ "" by decide)
    fun _ _ _ => show "nop" ≠ "" by decide
  size := forall_nops (fun _ hmask _ => Or.inl (by rw [hmask]; omega))
    fun _ hmask hvalue => Or.inr ⟨by rw [hmask]; rfl, by rw [hvalue]; rfl⟩

theorem disassemble_cnop : nops.updateMaps.disassemble 1 = some (some "c.nop") := by
  apply disassemble_eq_of_unique (by omega) List.mem_cons_self
  · rfl
  · apply forall_nops
    · exact fun _ _ _ _ => rfl
    · intro e hmask hvalue hmatch
      rw [CombinedMask.Matches, hmask, hvalue] at hmatch
      cases hmatch

theorem disassemble_nop : nops.updateMaps.disassemble 0x13 = some (some "nop") := by
  apply disassemble_eq_of_unique (by omega) (List.mem_cons_of_mem _ List.mem_cons_self)
  · rfl
  · apply forall_nops
    · intro e hmask hvalue hmatch
      rw [CombinedMask.Matches, hmask, hvalue] at hmatch
      cases hmatch
    · exact fun _ _ _ _ => rfl

theorem disassembleBytes_iff_nops : nops.updateMaps.disassembleBytes [0x01, 0x00, 0x13, 0, 0, 0] =
    some ["c.nop", "nop"] := by
  let instrs : List Encoding := [.two 1 (by decide), .four 0x13 (by decide)]
  have hnames : List.Forall₂ (fun i name => nops.updateMaps.disassemble i.word = some (some name))
      instrs ["c.nop", "nop"] :=
    .cons disassemble_cnop (.cons disassemble_nop .nil)
  exact (disassembleBytes_iff isRiscv_nops hnames).2.mpr fun i hi => by
    obtain rfl := Option.some.inj hi
    rfl

/-- A single `c.nop` has no name. -/
theorem not_disassembleBytes_cnop : nops.updateMaps.disassemble 1 = some (some "c.nop") ∧
    nops.updateMaps.disassembleBytes (Encoding.two 1 (by decide)).bytes ≠ some ["c.nop"] := by
  refine ⟨disassemble_cnop, ?_⟩
  have hlen : (Encoding.two 1 (by decide)).bytes.length = 2 := length_leBytes 2 _
  rw [disassembleBytes_short nops.updateMaps (Nat.le_of_eq hlen)]
  intro h
  cases h

end InstructionMaps

end RISCover
