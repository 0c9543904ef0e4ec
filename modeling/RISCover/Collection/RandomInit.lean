import Mathlib.Data.List.Infix
import Mathlib.Data.List.Pairwise
import RISCover.Config
import RISCover.Lib.Text
import RISCover.Lib.Words
import RISCover.Collection.Immediate
import RISCover.Collection.Index

/-!
# Random instructions of the server

`randomly_init_instr` of the two instruction collections. On aarch64 everything that is drawn goes
through the `inverted_mask` of its field. On riscv64 it is or-ed in as it is, an immediate at the
bits that its name has in the table `immediates`, and what looks compressed gets an upper half.
-/

open Choices Runs

namespace RISCover

/-! ## Entries of a collection -/

/-- A field of an instruction: its range in the word, and the bits of the range that are fixed. -/
structure CollectionField where
  rangeEnd : Nat
  rangeStart : Nat
  name : Option Text
  value : Nat
  mask : Nat
  range_le : rangeStart ≤ rangeEnd
  range_lt : rangeEnd < 32
  mask_lt : mask < 2 ^ (rangeEnd - rangeStart + 1)

namespace CollectionField

def bits (f : CollectionField) : Nat := f.rangeEnd - f.rangeStart + 1

def static (f : CollectionField) : StaticField := ⟨f.rangeStart, f.mask, f.value⟩

/-- The bits of the word that the field has. -/
def Covers (f : CollectionField) (i : Nat) : Prop := f.rangeStart ≤ i ∧ i ≤ f.rangeEnd

/-- A field with a name, as `if not name` tells. -/
def Named (f : CollectionField) : Prop := f.name.getD [] ≠ []

instance (f : CollectionField) : Decidable f.Named := inferInstanceAs (Decidable (_ ≠ _))

end CollectionField

/-- An instruction of a collection: its fields lie side by side in the word and make its combined
mask. -/
structure CollectionEntry where
  mnemonic : String
  extension : List String
  fields : List CollectionField
  combinedMask : CombinedMask
  disjoint : fields.Pairwise fun f g => f.rangeEnd < g.rangeStart ∨ g.rangeEnd < f.rangeStart
  combined : genCombinedMask (fields.map CollectionField.static) = some combinedMask

/-- What the index of the collection keeps of an entry. -/
def CollectionEntry.toInstructionEntry (e : CollectionEntry) : InstructionEntry :=
  ⟨e.combinedMask, e.extension⟩

/-! ## Drawing -/

/-- A register: in one of `num_regs + 1` cases any that the field can name. -/
def randomRegisterNumber (numRegs bits : Nat) : Rand InitError Nat := do
  if (← randint .valueError 0 numRegs) = 0 then
    pure (← randint .valueError 0 (2 ^ bits - 1)).toNat
  else pure (← randint .valueError 0 (min (numRegs - 1) (2 ^ bits - 1))).toNat

/-- `name.replace("lo", "hi")`. -/
def replaceLoHi : Text → Text
  | 'l' :: 'o' :: cs => 'h' :: 'i' :: replaceLoHi cs
  | c :: cs => c :: replaceLoHi cs
  | [] => []

/-- `immediates` of the riscv64 collection. -/
def riscvImmediates (name : Text) : Option Immediate :=
  if name = "imm12".toList then some (Immediate.init .unsigned [(31, 20)] (by decide))
  else if name = "imm12hi".toList then
    some (Immediate.init .unsigned [(31, 25), (11, 7)] (by decide))
  else none

/-- The texts by which the name of a register is recognised. -/
def riscvRegisterTexts : List Text := ["rd", "rs", "fd", "fs", "vd", "vs"].map String.toList

def isRiscvRegister (name : Text) : Bool := riscvRegisterTexts.any fun r => r <:+: name

/-- What a field adds to the word on riscv64. -/
def riscvBits (e : CollectionEntry) (numRegs : Nat) (var : CollectionField) :
    Rand InitError Nat :=
  match var.name with
  | none | some [] => pure 0
  | some name =>
    if (riscvImmediates (replaceLoHi name)).isSome then
      if "lo".toList <:+ name then
        if e.fields.any fun n => n.name == some (replaceLoHi name) then pure 0
        else throw .assertionError
      else
        match riscvImmediates name with
        | some imm => do pure (imm.bitMask (← imm.getRandom))
        | none => throw .keyError
    else if isRiscvRegister name then do
      if ¬(var.bits = 5 ∨ var.bits = 3) then throw .assertionError
      let v ← if e.mnemonic = "csrrs" ∧ name = "rd".toList then pure 0
        else randomRegisterNumber numRegs var.bits
      pure (v <<< var.rangeStart)
    else do pure ((← getrandbits var.bits) <<< var.rangeStart)

/-- A row of `immediates` of the aarch64 collection: the ranges that the name may have. -/
def armImmediateRanges : List (Text × ImmediateClass × List (Nat × Nat)) :=
  [("imm2".toList, .unsigned, [(9, 8), (13, 12), (23, 22), (11, 10)]),
    ("imm3".toList, .unsigned, [(7, 5), (12, 10), (18, 16)]),
    ("imm4".toList, .unsigned, [(14, 11), (19, 16)]),
    ("imm5".toList, .unsigned, [(9, 5), (20, 16)]),
    ("imm6".toList, .unsigned, [(10, 5), (15, 10), (20, 15), (21, 16)]),
    ("imm7".toList, .unsigned, [(20, 14), (21, 15)]),
    ("imm8".toList, .unsigned, [(7, 0), (12, 5), (17, 10), (20, 13)]),
    ("imm9".toList, .unsigned, [(20, 12)]),
    ("imm12".toList, .unsigned, [(21, 10)]),
    ("imm13".toList, .unsigned, [(17, 5)]),
    ("imm14".toList, .unsigned, [(18, 5)]),
    ("imm16".toList, .unsigned, [(20, 5)]),
    ("imm19".toList, .unsigned, [(23, 5)]),
    ("imm26".toList, .unsigned, [(25, 0)]),
    ("uimm4".toList, .unsigned, [(13, 10)]),
    ("uimm6".toList, .unsigned, [(21, 16)]),
    ("simm7".toList, .signed, [(21, 15)])]

/-- The names with `imm` for which nothing is drawn. -/
def armKeptImmediates : List Text :=
  ["immh", "immb", "imm9h", "imm9l", "imm8h", "imm8l", "immlo", "immhi", "immr", "imms",
    "imm5b"].map String.toList

/-- `set_val` of a field on aarch64. The assertions on an immediate of the table repeat its key. -/
def armSetVal (numRegs : Nat) (var : CollectionField) : Rand InitError Nat :=
  let name := var.name.getD []
  if name ∈ ["Rd", "Rn", "Rm"].map String.toList then do
    if ¬(var.bits = 5 ∨ var.bits = 4) then throw .assertionError
    pure ((← randomRegisterNumber numRegs var.bits) <<< var.rangeStart)
  else
    match armImmediateRanges.lookup name with
    | some (cls, ranges) =>
      if (var.rangeEnd, var.rangeStart) ∈ ranges then
        let imm : Immediate := ⟨cls, [(var.rangeEnd, var.rangeStart)], by simpa using var.range_le⟩
        do pure (imm.bitMask (← imm.getRandom))
      else throw .keyError
    | none =>
      if "imm".toList <:+: name then
        if name ∈ armKeptImmediates then pure 0 else throw .assertionError
      else do pure ((← getrandbits var.bits) <<< var.rangeStart)

/-- `inverted_mask`. -/
def CollectionField.invertedMask (f : CollectionField) : Nat :=
  (2 ^ f.bits - 1).ldiff f.mask <<< f.rangeStart

/-- What a field adds to the word on aarch64. -/
def armBits (numRegs : Nat) (var : CollectionField) : Rand InitError Nat := do
  pure ((← armSetVal numRegs var) &&& var.invertedMask)

/-- The loop over the fields: `b |= …`. -/
def initFields (value : Nat) (bits : CollectionField → Rand InitError Nat)
    (fields : List CollectionField) : Rand InitError Nat :=
  fields.foldlM (fun b var => do pure (b ||| (← bits var))) value

/-- What looks compressed gets an upper half. -/
def withUpperHalf (b : Nat) : Nat := if b &&& 3 ≠ 3 then b ||| 1 <<< 16 else b

/-- `randomly_init_instr`, as far as `value` of the instruction. -/
def CollectionEntry.randomlyInitInstr (arch : Arch) (e : CollectionEntry) (numRegs : Nat) :
    Rand InitError Nat :=
  match arch with
  | .riscv64 => withUpperHalf <$> initFields e.combinedMask.value (riscvBits e numRegs) e.fields
  | .aarch64 => initFields e.combinedMask.value (armBits numRegs) e.fields

/-! ## Fixed bits

A part leaves a match a match when it does not touch the bits that the entry fixes (`Keeps`). -/

/-- What leaves the fixed bits alone when it is or-ed in: of them it sets ones only. -/
def CombinedMask.Keeps (c : CombinedMask) (part : Nat) : Prop :=
  ∀ i, part.testBit i = true → c.mask.testBit i = true → c.value.testBit i = true

namespace CombinedMask

variable {c : CombinedMask}

theorem matches_iff {word : Nat} : c.Matches word ↔
    ∀ i, (word.testBit i && c.mask.testBit i) = c.value.testBit i := by
  rw [Matches]
  constructor
  · intro h i
    rw [← h, Nat.testBit_and]
  · intro h
    apply Nat.eq_of_testBit_eq
    intro i
    rw [Nat.testBit_and, h]

theorem matches_value : c.Matches c.value := by
  rw [Matches, Nat.and_comm]
  exact c.inside

theorem Matches.or_iff {word part : Nat} (h : c.Matches word) :
    c.Matches (word ||| part) ↔ c.Keeps part := by
  rw [matches_iff] at h ⊢
  refine forall_congr' fun i => ?_
  have hi := h i
  rw [Nat.testBit_or]
  grind

/-- A word that matches has the ones of the value. -/
theorem Matches.testBit {word : Nat} (h : c.Matches word) {i : Nat}
    (hi : c.value.testBit i = true) : word.testBit i = true := by
  have hword := matches_iff.mp h i
  grind

theorem Matches.foldl_or {word : Nat} {parts : List Nat} (h : c.Matches word)
    (hparts : ∀ p ∈ parts, c.Keeps p) : c.Matches (parts.foldl (· ||| ·) word) := by
  induction parts generalizing word with
  | nil => exact h
  | cons p parts ih =>
      exact ih (h.or_iff.mpr (hparts p List.mem_cons_self))
        fun q hq => hparts q (List.mem_cons_of_mem p hq)

end CombinedMask

theorem testBit_foldl_or {parts : List Nat} {word i : Nat} :
    (parts.foldl (· ||| ·) word).testBit i = true ↔
      word.testBit i = true ∨ ∃ p ∈ parts, p.testBit i = true := by
  induction parts generalizing word with
  | nil => simp
  | cons p parts ih =>
      rw [List.foldl_cons, ih, Nat.testBit_or, Bool.or_eq_true, or_assoc, List.exists_mem_cons_iff]

namespace CollectionEntry

variable (e : CollectionEntry)

/-- In the range of a field the mask of the entry is the mask of the field. -/
theorem testBit_mask {f : CollectionField} (hf : f ∈ e.fields) {i : Nat} (hi : f.Covers i) :
    e.combinedMask.mask.testBit i = f.mask.testBit (i - f.rangeStart) := by
  rw [Bool.eq_iff_iff, testBit_mask_genCombinedMask e.combined]
  constructor
  · rintro ⟨s, hs, hstart, hbit⟩
    obtain ⟨g, hg, rfl⟩ := List.mem_map.mp hs
    change g.rangeStart ≤ i at hstart
    change g.mask.testBit (i - g.rangeStart) = true at hbit
    have hwidth : i - g.rangeStart < g.rangeEnd - g.rangeStart + 1 :=
      Words.lt_of_testBit g.mask_lt hbit
    have hsame : g = f := by
      by_contra hne
      have hsymm : Std.Symm fun f g : CollectionField =>
          f.rangeEnd < g.rangeStart ∨ g.rangeEnd < f.rangeStart := ⟨fun _ _ => Or.symm⟩
      have hpair := e.disjoint.forall hg hf hne
      have hgle := g.range_le
      unfold CollectionField.Covers at hi
      omega
    rwa [← hsame]
  · intro hbit
    exact ⟨f.static, List.mem_map_of_mem hf, hi.1, hbit⟩

/-- The mask is one of a word. -/
theorem testBit_mask_lt {i : Nat} (h : e.combinedMask.mask.testBit i = true) : i < 32 := by
  obtain ⟨s, hs, hstart, hbit⟩ := (testBit_mask_genCombinedMask e.combined).mp h
  obtain ⟨g, hg, rfl⟩ := List.mem_map.mp hs
  change g.rangeStart ≤ i at hstart
  change g.mask.testBit (i - g.rangeStart) = true at hbit
  have hgle := g.range_le
  have hglt := g.range_lt
  have hwidth : i - g.rangeStart < g.rangeEnd - g.rangeStart + 1 :=
    Words.lt_of_testBit g.mask_lt hbit
  omega

end CollectionEntry

/-- What fits a field goes into its bits. -/
theorem covers_of_testBit_shiftLeft {f : CollectionField} {v i : Nat} (hv : v < 2 ^ f.bits)
    (h : (v <<< f.rangeStart).testBit i = true) : f.Covers i := by
  rw [Nat.testBit_shiftLeft, Bool.and_eq_true, decide_eq_true_iff] at h
  have hlt : i - f.rangeStart < f.bits := Words.lt_of_testBit hv h.2
  have hle := f.range_le
  unfold CollectionField.bits at hlt
  exact ⟨h.1, by omega⟩

/-! ## What the fields add

On aarch64 every part leaves the fixed bits alone. On riscv64 it does so in an open entry
(`RiscvOpen`). -/

variable {E : InitError → Prop}

theorem gives_randomRegisterNumber (numRegs bits : Nat) :
    Gives E (fun v => v < 2 ^ bits) (randomRegisterNumber numRegs bits) := by
  have hpow : ((2 ^ bits : Nat) : Int) = 2 ^ bits := by push_cast; rfl
  have hpos := Nat.two_pow_pos bits
  refine (gives_randint (by omega)).bind fun r hr => gives_ite (fun _ => ?_) fun hne => ?_
  · exact (gives_randint (by omega)).bind fun v hv => gives_pure (by omega)
  · exact (gives_randint (by omega)).bind fun v hv => gives_pure (by omega)

/-- On riscv64 the table `immediates` may meet fixed bits, and so may the upper half. -/
structure CollectionEntry.RiscvOpen (e : CollectionEntry) : Prop where
  immediates : ∀ var ∈ e.fields, ∀ name imm, var.name = some name → ¬"lo".toList <:+ name →
    riscvImmediates name = some imm → ∀ i, imm.Covers i →
      e.combinedMask.mask.testBit i = true → e.combinedMask.value.testBit i = true
  upper : e.combinedMask.value &&& 3 = 3 ∨
    (e.combinedMask.mask.testBit 16 = true → e.combinedMask.value.testBit 16 = true)

/-- The immediates of the table lie in the word and are unsigned. -/
theorem riscvImmediates_spec {name : Text} {imm : Immediate} (h : riscvImmediates name = some imm) :
    imm.cls = .unsigned ∧ ∀ i, imm.Covers i → i < 32 := by
  have hranges : ∀ (ranges : List (Nat × Nat)) (hle : ∀ r ∈ ranges, r.2 ≤ r.1),
      (∀ r ∈ ranges, r.1 < 32) → ∀ i, (Immediate.init .unsigned ranges hle).Covers i → i < 32 := by
    rintro ranges hle hlt i ⟨r, hr, -, hi⟩
    exact hi.trans_lt (hlt r ((List.mem_insertionSort _).mp hr))
  unfold riscvImmediates at h
  split at h
  · cases h
    exact ⟨rfl, hranges _ _ (by decide)⟩
  · split at h
    · cases h
      exact ⟨rfl, hranges _ _ (by decide)⟩
    · cases h

/-- A part that leaves the fixed bits alone and stays in the word. -/
def CollectionEntry.Fits (e : CollectionEntry) (part : Nat) : Prop :=
  e.combinedMask.Keeps part ∧ ∀ i, part.testBit i = true → i < 32

theorem CollectionEntry.fits_zero (e : CollectionEntry) : e.Fits 0 := by
  constructor <;> · intro i hi; rw [Nat.zero_testBit] at hi; cases hi

/-- What goes into the range of a field without fixed bits. -/
theorem CollectionEntry.fits_of_open (e : CollectionEntry) {var : CollectionField}
    (hvar : var ∈ e.fields) (hopen : var.mask = 0) {v : Nat} (hv : v < 2 ^ var.bits) :
    e.Fits (v <<< var.rangeStart) := by
  constructor
  · intro i hi hmask
    rw [e.testBit_mask hvar (covers_of_testBit_shiftLeft hv hi), hopen, Nat.zero_testBit] at hmask
    cases hmask
  · intro i hi
    exact (covers_of_testBit_shiftLeft hv hi).2.trans_lt var.range_lt

theorem gives_riscvBits {e : CollectionEntry} (hopen : e.RiscvOpen) (numRegs : Nat)
    {var : CollectionField} (hvar : var ∈ e.fields) (hnamed : var.Named → var.mask = 0) :
    Gives (fun _ => True) e.Fits (riscvBits e numRegs var) := by
  unfold riscvBits
  split
  next => exact gives_pure e.fits_zero
  next => exact gives_pure e.fits_zero
  next name hne hname =>
    have hmask : var.mask = 0 := hnamed (by rw [CollectionField.Named, hname]; exact hne)
    refine gives_ite (fun _ => gives_ite (fun _ => ?_) fun hlo => ?_) fun _ =>
      gives_ite (fun _ => ?_) fun _ => ?_
    · exact gives_ite (fun _ => gives_pure e.fits_zero) fun _ => gives_throw trivial
    · -- an immediate goes to the bits that the table gives to its name
      split
      next imm himm =>
        refine imm.gives_getRandom.bind fun v _ => gives_pure ⟨?_, ?_⟩
        · intro i hi
          exact hopen.immediates var hvar name imm hname hlo himm i
            (imm.covers_of_testBit_bitMask hi)
        · intro i hi
          exact (riscvImmediates_spec himm).2 i (imm.covers_of_testBit_bitMask hi)
      next => exact gives_throw trivial
    · -- a register
      refine gives_ite (fun _ => gives_throw trivial) fun _ => gives_ite (fun _ => ?_) fun _ => ?_
      · exact gives_pure (e.fits_of_open hvar hmask (Nat.two_pow_pos _))
      · exact (gives_randomRegisterNumber numRegs var.bits).bind
          fun v hv => gives_pure (e.fits_of_open hvar hmask hv)
    · exact (gives_getrandbits _).bind fun v hv => gives_pure (e.fits_of_open hvar hmask hv)

/-- On aarch64 the inverted mask of a field keeps the part beside the fixed bits. -/
theorem gives_armBits (e : CollectionEntry) (numRegs : Nat) {var : CollectionField}
    (hvar : var ∈ e.fields) : Gives (fun _ => True) e.Fits (armBits numRegs var) := by
  have hlt : (2 ^ var.bits - 1).ldiff var.mask < 2 ^ var.bits := by
    apply Nat.lt_pow_two_of_testBit
    intro i hi
    rw [Nat.testBit_ldiff, Nat.testBit_two_pow_sub_one, decide_eq_false (Nat.not_lt.mpr hi)]
    rfl
  refine (gives_trivial (armSetVal numRegs var)).bind fun setVal _ => gives_pure ⟨?_, ?_⟩
  · intro i hi hmask
    rw [Nat.testBit_and, Bool.and_eq_true] at hi
    rw [e.testBit_mask hvar (covers_of_testBit_shiftLeft hlt hi.2)] at hmask
    have hclear := hi.2
    rw [CollectionField.invertedMask, Nat.testBit_shiftLeft, Nat.testBit_ldiff, hmask] at hclear
    simp at hclear
  · intro i hi
    rw [Nat.testBit_and, Bool.and_eq_true] at hi
    exact (covers_of_testBit_shiftLeft hlt hi.2).2.trans_lt var.range_lt

/-- The loop ors in a part for every field. -/
theorem gives_initFields {bits : CollectionField → Rand InitError Nat} {P : Nat → Prop}
    {fields : List CollectionField} (h : ∀ var ∈ fields, Gives E P (bits var)) (word : Nat) :
    Gives E (fun w => ∃ parts : List Nat, (∀ p ∈ parts, P p) ∧ w = parts.foldl (· ||| ·) word)
      (initFields word bits fields) := by
  induction fields generalizing word with
  | nil => exact gives_pure ⟨[], nofun, rfl⟩
  | cons var fields ih =>
      rw [initFields, List.foldlM_cons, bind_assoc]
      refine (h var List.mem_cons_self).bind fun p hp => ?_
      rw [pure_bind]
      refine (ih (fun v hv => h v (List.mem_cons_of_mem var hv)) (word ||| p)).mono
        (fun _ hE => hE) ?_
      rintro w ⟨parts, hparts, rfl⟩
      exact ⟨p :: parts, List.forall_mem_cons.mpr ⟨hp, hparts⟩, rfl⟩

/-- The parts of a loop: one for every field. -/
def PartsOf (P : CollectionField → Nat → Prop) (fields : List CollectionField)
    (parts : List Nat) : Prop :=
  (∀ var ∈ fields, ∃ p ∈ parts, P var p) ∧ ∀ p ∈ parts, ∃ var ∈ fields, P var p

theorem steady_initFields {k : Nat} {bits : CollectionField → Rand InitError Nat}
    {P : CollectionField → Nat → Prop} {fields : List CollectionField}
    (h : ∀ var ∈ fields, Steady k (P var) (bits var)) (word : Nat) :
    Steady k (fun w => ∃ parts, PartsOf P fields parts ∧ w = parts.foldl (· ||| ·) word)
      (initFields word bits fields) := by
  induction fields generalizing word with
  | nil => exact steady_pure ⟨[], ⟨nofun, nofun⟩, rfl⟩
  | cons var fields ih =>
      rw [initFields, List.foldlM_cons, bind_assoc]
      refine (h var List.mem_cons_self).bind fun p hp => ?_
      rw [pure_bind]
      refine (ih (fun v hv => h v (List.mem_cons_of_mem var hv)) (word ||| p)).mono ?_
      rintro w ⟨parts, ⟨hfields, hparts⟩, rfl⟩
      refine ⟨p :: parts, ⟨?_, ?_⟩, rfl⟩
      · refine List.forall_mem_cons.mpr ⟨⟨p, List.mem_cons_self, hp⟩, fun v hv => ?_⟩
        obtain ⟨q, hq, hP⟩ := hfields v hv
        exact ⟨q, List.mem_cons_of_mem p hq, hP⟩
      · refine List.forall_mem_cons.mpr ⟨⟨var, List.mem_cons_self, hp⟩, fun q hq => ?_⟩
        obtain ⟨v, hv, hP⟩ := hparts q hq
        exact ⟨v, List.mem_cons_of_mem var hv, hP⟩

/-- One field that always stops the loop stops it. -/
theorem initFields_stops {bits : CollectionField → Rand InitError Nat}
    {fields : List CollectionField} {var : CollectionField} (hvar : var ∈ fields)
    (h : Gives (fun _ => True) (fun _ => False) (bits var)) (word : Nat) :
    Gives (fun _ => True) (fun _ => False) (initFields word bits fields) := by
  induction fields generalizing word with
  | nil => cases hvar
  | cons f fields ih =>
      rw [initFields, List.foldlM_cons, bind_assoc]
      rcases List.mem_cons.mp hvar with rfl | hmem
      · exact h.bind fun _ hfalse => hfalse.elim
      · refine (gives_trivial (bits f)).bind fun p _ => ?_
        rw [pure_bind]
        exact ih hmem (word ||| p)

/-! ## The assertions on riscv64

Which layouts pass the assertions, and what is added then when every choice is the first or the
second one. These two runs show every bit that can be added. -/

/-- The layout of a field passes the assertions. -/
def riscvAccepts (e : CollectionEntry) (var : CollectionField) : Prop :=
  match var.name with
  | none | some [] => True
  | some name =>
    if (riscvImmediates (replaceLoHi name)).isSome then
      if "lo".toList <:+ name then ∃ n ∈ e.fields, n.name = some (replaceLoHi name)
      else (riscvImmediates name).isSome
    else isRiscvRegister name → var.bits = 5 ∨ var.bits = 3

theorem riscvBits_stops {e : CollectionEntry} {numRegs : Nat} {var : CollectionField}
    (h : ¬riscvAccepts e var) :
    Gives (fun _ => True) (fun _ => False) (riscvBits e numRegs var) := by
  unfold riscvAccepts at h
  unfold riscvBits
  split
  next hname => simp [hname] at h
  next hname => simp [hname] at h
  next name hne hname =>
    simp only [hname] at h
    refine gives_ite (fun hsome => gives_ite (fun hlo => ?_) fun hlo => ?_) fun hnone =>
      gives_ite (fun hregister => ?_) fun hregister => ?_
    · -- the low part of an immediate without its high part
      rw [if_pos hsome, if_pos hlo] at h
      refine gives_ite (fun hany => absurd ?_ h) fun _ => gives_throw trivial
      simpa using hany
    · -- an immediate that the table does not have
      rw [if_pos hsome, if_neg hlo] at h
      split
      next imm himm => exact absurd (by rw [himm]; rfl) h
      next => exact gives_throw trivial
    · rw [if_neg hnone] at h
      refine gives_ite (fun _ => gives_throw trivial) fun hbits => ?_
      exact absurd (fun _ => not_not.mp hbits) h
    · rw [if_neg hnone] at h
      exact absurd (fun hr => absurd hr hregister) h

theorem steady_randomRegisterNumber {k : Nat} (numRegs bits : Nat) :
    Steady k (fun v => k = 0 → v = 0) (randomRegisterNumber numRegs bits) := by
  have hpow : ((2 ^ bits : Nat) : Int) = 2 ^ bits := by push_cast; rfl
  have hpos := Nat.two_pow_pos bits
  refine (steady_randint (by omega)).bind fun r hr => ?_
  by_cases hzero : r = 0
  · rw [if_pos hzero]
    refine (steady_randint (by omega)).bind fun v hv => steady_pure fun hk => ?_
    rw [hv, hk]
    rfl
  · have hregs : numRegs ≠ 0 := by
      rintro rfl
      exact hzero (by rw [hr]; simp)
    rw [if_neg hzero]
    refine (steady_randint (by omega)).bind fun v hv => steady_pure fun hk => ?_
    rw [hv, hk]
    rfl

/-- The part has all bits of the immediate that the name stands for. -/
def CollectionField.Shows (var : CollectionField) (part : Nat) : Prop :=
  ∀ name imm, var.name = some name → ¬"lo".toList <:+ name → riscvImmediates name = some imm →
    ∀ i, imm.Covers i → part.testBit i = true

theorem replaceLoHi_of_isSome {name : Text} (h : (riscvImmediates name).isSome = true) :
    replaceLoHi name = name := by
  unfold riscvImmediates at h
  split at h
  next heq => rw [heq]; rfl
  next =>
    split at h
    next heq => rw [heq]; rfl
    next => cases h

/-- With the first of all choices nothing is added; with the second an immediate is added at all of
its bits. -/
theorem steady_riscvBits {k : Nat} (hk : k ≤ 1) {e : CollectionEntry} {numRegs : Nat}
    {var : CollectionField} (h : riscvAccepts e var) :
    Steady k (fun p => (k = 0 → p = 0) ∧ (k = 1 → var.Shows p)) (riscvBits e numRegs var) := by
  unfold riscvAccepts at h
  unfold riscvBits CollectionField.Shows
  split
  next hname => exact steady_pure ⟨fun _ => rfl, fun _ name imm hsome => by simp [hname] at hsome⟩
  next hname =>
    refine steady_pure ⟨fun _ => rfl, fun _ name imm hsome _ himm => ?_⟩
    rw [hname] at hsome
    cases hsome
    cases himm
  next name hne hname =>
    simp only [hname, Option.some.injEq] at h ⊢
    split
    next hsome =>
      rw [if_pos hsome] at h
      split
      next hlo =>
        rw [if_pos hlo] at h
        rw [if_pos (by simpa using h)]
        refine steady_pure ⟨fun _ => rfl, ?_⟩
        rintro - _ imm rfl hnotlo
        exact absurd hlo hnotlo
      next hlo =>
        rw [if_neg hlo] at h
        obtain ⟨imm, himm⟩ := Option.isSome_iff_exists.mp h
        rw [himm]
        refine (Immediate.steady_getRandom hk (riscvImmediates_spec himm).1).bind fun v hv =>
          steady_pure ⟨?_, ?_⟩
        · intro hzero
          rw [hv, if_pos hzero, imm.bitMask_zero]
        · rintro hone _ imm' rfl - himm' i hi
          obtain rfl := Option.some.inj (himm'.symm.trans himm)
          rw [hv, if_neg (by omega)]
          exact imm'.testBit_bitMask_max hi
    next hnone =>
      -- what is no immediate has no bits of the table
      have hshows : ∀ part : Nat, k = 1 → ∀ name' imm, name = name' → ¬"lo".toList <:+ name' →
          riscvImmediates name' = some imm → ∀ i, imm.Covers i → part.testBit i = true := by
        rintro part - _ imm rfl - himm
        rw [replaceLoHi_of_isSome (by rw [himm]; rfl), himm] at hnone
        exact absurd rfl hnone
      rw [if_neg hnone] at h
      split
      next hregister =>
        have hbits := h hregister
        simp only [hbits, not_true_eq_false, if_false]
        split
        next => exact steady_pure ⟨fun _ => Nat.zero_shiftLeft _, hshows _⟩
        next =>
          refine (steady_randomRegisterNumber numRegs var.bits).bind fun v hv =>
            steady_pure ⟨fun hzero => ?_, hshows _⟩
          rw [hv hzero, Nat.zero_shiftLeft]
      next =>
        refine (steady_getrandbits _).bind fun v hv => steady_pure ⟨fun hzero => ?_, hshows _⟩
        rw [hv, hzero, Nat.zero_mod, Nat.zero_shiftLeft]

/-! ## Words of an entry

In an open entry every word matches, and the two runs above show that an entry whose words all match
is open. -/

/-- Every word that is returned for the entry matches it, so that a collection with the entry finds
a match for the word. -/
def CollectionEntry.WordsMatch (arch : Arch) (e : CollectionEntry) (numRegs : Nat) : Prop :=
  ∀ draws word draws', e.randomlyInitInstr arch numRegs draws = .ok (word, draws') →
    e.combinedMask.Matches word ∧
    ∀ maps : InstructionMaps, maps.instructions.get? e.mnemonic = some e.toInstructionEntry →
      ∃ i, maps.updateMaps.disassemble word = some (some i)

theorem testBit_withUpperHalf {b i : Nat} (h : b.testBit i = true) :
    (withUpperHalf b).testBit i = true := by
  unfold withUpperHalf
  split
  · rw [Nat.testBit_or, h]
    rfl
  · exact h

theorem testBit_upperHalf {i : Nat} : (1 <<< 16).testBit i = true ↔ i = 16 := by
  rw [Nat.one_shiftLeft, Nat.testBit_two_pow, decide_eq_true_iff, eq_comm]

namespace CollectionEntry

variable {e : CollectionEntry} {numRegs : Nat}

/-- A word that matches has the two low bits of the value. -/
theorem and_three_of_matches {word : Nat} (h : e.combinedMask.Matches word)
    (hvalue : e.combinedMask.value &&& 3 = 3) : word &&& 3 = 3 := by
  apply Nat.eq_of_testBit_eq
  intro i
  have hi := congrArg (fun n => n.testBit i) hvalue
  simp only [Nat.testBit_and] at hi ⊢
  cases hthree : (3 : Nat).testBit i with
  | false => exact Bool.and_false _
  | true =>
      rw [hthree, Bool.and_true] at hi
      rw [h.testBit hi]
      rfl

/-- A match of which all bits lie in the word is found by the index. -/
theorem matches_and_disassembles {word : Nat} (h : e.combinedMask.Matches word)
    (hword : ∀ i, word.testBit i = true → i < 32) :
    e.combinedMask.Matches word ∧
    ∀ maps : InstructionMaps, maps.instructions.get? e.mnemonic = some e.toInstructionEntry →
      ∃ i, maps.updateMaps.disassemble word = some (some i) := by
  have hlt : word < 2 ^ 32 := by
    apply Nat.lt_pow_two_of_testBit
    intro i hi
    rw [← Bool.not_eq_true]
    exact fun hbit => absurd (hword i hbit) (Nat.not_lt.mpr hi)
  refine ⟨h, fun maps hmaps => ?_⟩
  exact InstructionMaps.exists_disassemble_of_matches (Dict.mem_items_iff.mpr hmaps) hlt h

/-- Parts that fit leave a match. -/
theorem fits_foldl {parts : List Nat} (h : ∀ p ∈ parts, e.Fits p) :
    e.combinedMask.Matches (parts.foldl (· ||| ·) e.combinedMask.value) ∧
    ∀ i, (parts.foldl (· ||| ·) e.combinedMask.value).testBit i = true → i < 32 := by
  have hstart := e.combinedMask.matches_value
  refine ⟨hstart.foldl_or fun p hp => (h p hp).1, fun i hi => ?_⟩
  rcases testBit_foldl_or.mp hi with hvalue | ⟨p, hp, hbit⟩
  · have hmask := CombinedMask.matches_iff.mp hstart i
    rw [hvalue, Bool.true_and] at hmask
    exact e.testBit_mask_lt hmask
  · exact (h p hp).2 i hbit

theorem wordsMatch_of_gives {arch : Arch} (h : Gives (fun _ => True)
    (fun w => e.combinedMask.Matches w ∧ ∀ i, w.testBit i = true → i < 32)
    (e.randomlyInitInstr arch numRegs)) : e.WordsMatch arch numRegs := by
  intro draws word draws' hrun
  have hword := h draws
  rw [hrun] at hword
  exact matches_and_disassembles hword.1 hword.2

theorem wordsMatch_aarch64 : e.WordsMatch .aarch64 numRegs := by
  refine wordsMatch_of_gives ((gives_initFields (fun var hvar => gives_armBits e numRegs hvar)
    e.combinedMask.value).mono (fun _ h => h) ?_)
  rintro w ⟨parts, hparts, rfl⟩
  exact fits_foldl hparts

theorem wordsMatch_riscv64 (hnamed : ∀ var ∈ e.fields, var.Named → var.mask = 0)
    (hopen : e.RiscvOpen) : e.WordsMatch .riscv64 numRegs := by
  refine wordsMatch_of_gives ((gives_initFields
    (fun var hvar => gives_riscvBits hopen numRegs hvar (hnamed var hvar))
    e.combinedMask.value).map ?_)
  rintro w ⟨parts, hparts, rfl⟩
  obtain ⟨hmatches, hword⟩ := fits_foldl hparts
  unfold withUpperHalf
  split
  next hlow =>
    refine ⟨hmatches.or_iff.mpr fun i hi => ?_, fun i hi => ?_⟩
    · rw [testBit_upperHalf.mp hi]
      exact hopen.upper.resolve_left fun hvalue => hlow (and_three_of_matches hmatches hvalue)
    · rw [Nat.testBit_or, Bool.or_eq_true, testBit_upperHalf] at hi
      rcases hi with hi | rfl
      · exact hword i hi
      · decide
  next => exact ⟨hmatches, hword⟩

/-- Where a field fails its assertion, nothing is returned. -/
theorem not_returns_of_not_accepts {var : CollectionField} (hvar : var ∈ e.fields)
    (h : ¬riscvAccepts e var) (draws : Nat → Nat) (r : Nat × (Nat → Nat)) :
    e.randomlyInitInstr .riscv64 numRegs draws ≠ .ok r := by
  have hstops : Gives (fun _ => True) (fun _ => False)
      (e.randomlyInitInstr .riscv64 numRegs) :=
    (initFields_stops hvar (riscvBits_stops h) e.combinedMask.value).map fun _ hfalse => hfalse
  have hword := hstops draws
  intro hrun
  rw [hrun] at hword
  exact hword.elim

/-- A run with one choice for all draws, and the match that it returns. -/
theorem matches_of_steady (haccepts : ∀ var ∈ e.fields, riscvAccepts e var)
    (h : e.WordsMatch .riscv64 numRegs) {k : Nat} (hk : k ≤ 1) :
    ∃ parts, PartsOf (fun var p => (k = 0 → p = 0) ∧ (k = 1 → var.Shows p)) e.fields parts ∧
      e.combinedMask.Matches (withUpperHalf (parts.foldl (· ||| ·) e.combinedMask.value)) := by
  have hbits : ∀ var ∈ e.fields, Steady k (fun p => (k = 0 → p = 0) ∧ (k = 1 → var.Shows p))
      (riscvBits e numRegs var) := fun var hvar => steady_riscvBits hk (haccepts var hvar)
  have hloop := steady_initFields hbits e.combinedMask.value
  obtain ⟨w, hrun, parts, hparts, rfl⟩ := hloop.bind
    (R := fun w => ∃ parts, PartsOf (fun var p => (k = 0 → p = 0) ∧ (k = 1 → var.Shows p))
      e.fields parts ∧ w = withUpperHalf (parts.foldl (· ||| ·) e.combinedMask.value))
    (f := fun b => pure (withUpperHalf b))
    (by
      rintro w ⟨parts, hparts, rfl⟩
      exact steady_pure ⟨parts, hparts, rfl⟩)
  rw [← map_eq_pure_bind] at hrun
  exact ⟨parts, hparts, (h _ _ _ hrun).1⟩

/-- The runs with the first and with the second of all choices show whether the entry is open. -/
theorem riscvOpen_of_wordsMatch (haccepts : ∀ var ∈ e.fields, riscvAccepts e var)
    (h : e.WordsMatch .riscv64 numRegs) : e.RiscvOpen := by
  constructor
  case immediates =>
    intro var hvar name imm hname hlo himm i hi hmask
    -- the second choice everywhere: the immediates have all their bits
    obtain ⟨parts, hparts, hmatches⟩ := matches_of_steady haccepts h (Nat.le_refl 1)
    obtain ⟨p, hp, -, hshows⟩ := hparts.1 var hvar
    have hpart : (parts.foldl (· ||| ·) e.combinedMask.value).testBit i = true :=
      testBit_foldl_or.mpr (Or.inr ⟨p, hp, hshows rfl name imm hname hlo himm i hi⟩)
    have hbit := CombinedMask.matches_iff.mp hmatches i
    rwa [testBit_withUpperHalf hpart, hmask, Bool.true_and, eq_comm] at hbit
  case upper =>
    by_contra hnone
    obtain ⟨hlow, hhigh⟩ := not_or.mp hnone
    -- the first choice everywhere: nothing is added to the fixed bits
    obtain ⟨parts, hparts, hmatches⟩ := matches_of_steady haccepts h (Nat.zero_le 1)
    have hvalue : parts.foldl (· ||| ·) e.combinedMask.value = e.combinedMask.value := by
      apply Nat.eq_of_testBit_eq
      intro i
      rw [Bool.eq_iff_iff, testBit_foldl_or, or_iff_left]
      rintro ⟨p, hp, hbit⟩
      obtain ⟨var, -, hzero, -⟩ := hparts.2 p hp
      rw [hzero rfl, Nat.zero_testBit] at hbit
      cases hbit
    rw [hvalue, withUpperHalf, if_pos hlow, CombinedMask.matches_value.or_iff] at hmatches
    exact hhigh fun hmask => hmatches 16 (testBit_upperHalf.mpr rfl) hmask

/-- On aarch64 all words match. On riscv64, where no assertion stops the generator, they do if and
only if the table of immediates and the upper half leave the fixed bits alone; where one does, no
word is returned. -/
theorem wordsMatch_iff (arch : Arch) (e : CollectionEntry) (numRegs : Nat)
    (hnamed : arch = .riscv64 → ∀ var ∈ e.fields, var.Named → var.mask = 0) :
    (e.WordsMatch arch numRegs ↔
      (arch = .riscv64 → (∀ var ∈ e.fields, riscvAccepts e var) → e.RiscvOpen)) ∧
    (arch = .riscv64 → ∀ var ∈ e.fields, ¬riscvAccepts e var →
      ∀ draws r, e.randomlyInitInstr arch numRegs draws ≠ .ok r) := by
  cases arch with
  | aarch64 => exact ⟨⟨fun _ => nofun, fun _ => wordsMatch_aarch64⟩, nofun⟩
  | riscv64 =>
      refine ⟨⟨?_, ?_⟩, fun _ var hvar hrejects => not_returns_of_not_accepts hvar hrejects⟩
      · exact fun h _ haccepts => riscvOpen_of_wordsMatch haccepts h
      · intro h
        by_cases haccepts : ∀ var ∈ e.fields, riscvAccepts e var
        · exact wordsMatch_riscv64 (hnamed rfl) (h rfl haccepts)
        · push Not at haccepts
          obtain ⟨var, hvar, hrejects⟩ := haccepts
          exact fun draws word draws' hrun =>
            absurd hrun (not_returns_of_not_accepts hvar hrejects draws (word, draws'))

/-- `sw`, whose immediate stands in two fields. -/
def swEntry : CollectionEntry where
  mnemonic := "sw"
  extension := ["rv_i"]
  fields := [⟨6, 0, none, 0x23, 0x7f, by decide, by decide, by decide⟩,
    ⟨14, 12, none, 2, 7, by decide, by decide, by decide⟩,
    ⟨31, 25, some "imm12hi".toList, 0, 0, by decide, by decide, by decide⟩,
    ⟨19, 15, some "rs1".toList, 0, 0, by decide, by decide, by decide⟩,
    ⟨24, 20, some "rs2".toList, 0, 0, by decide, by decide, by decide⟩,
    ⟨11, 7, some "imm12lo".toList, 0, 0, by decide, by decide, by decide⟩]
  combinedMask := ⟨0x707f, 0x2023, rfl⟩
  disjoint := by decide
  combined := rfl

theorem wordsMatch_iff_sw :
    (swEntry.WordsMatch .riscv64 31 ↔
      (Arch.riscv64 = .riscv64 → (∀ var ∈ swEntry.fields, riscvAccepts swEntry var) →
        swEntry.RiscvOpen)) ∧
    (Arch.riscv64 = .riscv64 → ∀ var ∈ swEntry.fields, ¬riscvAccepts swEntry var →
      ∀ draws r, swEntry.randomlyInitInstr .riscv64 31 draws ≠ .ok r) :=
  wordsMatch_iff .riscv64 swEntry 31 (by decide)

/-- An entry that has `imm12` beside the bits that the table gives to this name. -/
def misplacedEntry : CollectionEntry where
  mnemonic := "misplaced"
  extension := ["custom"]
  fields := [⟨7, 0, none, 0x13, 0xff, by decide, by decide, by decide⟩,
    ⟨19, 8, some "imm12".toList, 0, 0, by decide, by decide, by decide⟩,
    ⟨31, 20, none, 0, 0xfff, by decide, by decide, by decide⟩]
  combinedMask := ⟨0xfff000ff, 0x13, rfl⟩
  disjoint := by decide
  combined := rfl

/-- With the largest immediate the fixed bits at the top are overwritten. -/
theorem misplacedEntry_not_wordsMatch :
    (∀ var ∈ misplacedEntry.fields, var.Named → var.mask = 0) ∧
      ¬misplacedEntry.WordsMatch .riscv64 31 := by
  refine ⟨by decide, fun h => ?_⟩
  have hrun : misplacedEntry.randomlyInitInstr .riscv64 31 (fun _ => 1) =
      .ok (0xfff00013, fun _ => 1) := rfl
  have hmatches : 0xfff00013 &&& 0xfff000ff = 0x13 := (h _ _ _ hrun).1
  exact absurd hmatches (by decide)

end CollectionEntry

end RISCover
