import RISCover.Collection.Index
import RISCover.Lib.BitText
import RISCover.Lib.Fallible
import RISCover.Lib.Pieces

/-!
# The encodings of `riscv-opcodes`

`riscv_opcodes_to_instruction_collection` makes the collection out of texts such as
`101011010111-----000-----1110111`. `split_encoding_str` cuts a text into its static fields, which
is `Cuts` of the text read from the right (`cuts_splitEncodingStr`), and the combined mask of these
fields has the bits that the text fixes (`exists_describes`). What is converted accepts the words
that fit the text, and the conversion stops if `match` and `mask` accept any others
(`exists_convert_iff`).
-/

open Fallible Pieces Text

namespace RISCover

/-- The exceptions of the converter. -/
inductive ConvertError where
  | valueError
  | assertionError
  | keyError
  deriving DecidableEq

/-- A field as it is written: static bits have no name. -/
structure OpcodeField where
  rangeEnd : Nat
  rangeStart : Nat
  name : Option Text
  value : Nat
  mask : Nat
  deriving DecidableEq

def OpcodeField.static (f : OpcodeField) : StaticField := ⟨f.rangeStart, f.mask, f.value⟩

/-- What `instr_dict.yaml` says about an instruction. -/
structure InsnValues where
  encoding : Text
  extension : List String
  matchHex : Text
  maskHex : Text
  variableFields : List Text

/-- What is written for a mnemonic. -/
structure OpcodeEntry where
  extension : List String
  fields : List OpcodeField
  combinedMask : CombinedMask

def OpcodeEntry.toInstructionEntry (e : OpcodeEntry) : InstructionEntry :=
  ⟨e.combinedMask, e.extension⟩

/-! ## `split_encoding_str`

`step` is the body of the loop, which reads the text from the left. -/

/-- The variables of the loop. -/
structure SplitState where
  encodings : List (Nat × Text)
  current : Text
  currentStart : Nat

/-- One character. -/
def SplitState.step (s : SplitState) (p : Char × Nat) : SplitState :=
  let (e, i) := p
  if e = '-' then
    if s.current ≠ [] then
      { s with encodings := s.encodings ++ [(s.currentStart, s.current)], current := [] }
    else s
  else if s.current ≠ [] then { s with current := e :: s.current }
  else { s with currentStart := i, current := [e] }

def splitEncodingStr (encoding : Text) : List (Nat × Text) :=
  let s := encoding.reverse.zipIdx.foldl SplitState.step ⟨[], [], 0⟩
  if s.current ≠ [] then s.encodings ++ [(s.currentStart, s.current)] else s.encodings

example : splitEncodingStr "101011010111-----000-----1110111".toList =
    [(0, "1110111".toList), (12, "000".toList), (20, "101011010111".toList)] := by decide

/-! ## `main` -/

/-- `int(t, b)`. -/
def intOf (b : Nat) (t : Text) : Except ConvertError Int :=
  match pyIntBase b t with
  | some n => .ok n
  | none => .error .valueError

/-- A static field. There is no minus in its text, so the value is not negative. -/
def OpcodeField.ofEncoding (p : Nat × Text) : Except ConvertError OpcodeField := do
  let value ← intOf 2 p.2
  pure ⟨p.2.length + p.1 - 1, p.1, none, value.toNat, 1 <<< p.2.length - 1⟩

/-- A variable field: everything can be set for its bits. -/
def OpcodeField.ofVariable (argLut : Dict Text (Nat × Nat)) (field : Text) :
    Except ConvertError OpcodeField :=
  match argLut.get? field with
  | some (msb, lsb) => .ok ⟨msb, lsb, some field, 0, 0⟩
  | none => .error .keyError

/-- `gen_combined_mask` with its assertion. -/
def combinedMaskOf (fields : List OpcodeField) : Except ConvertError CombinedMask :=
  match genCombinedMask (fields.map OpcodeField.static) with
  | some c => .ok c
  | none => .error .assertionError

/-- The body of the loop of `main` for one instruction. -/
def convert (argLut : Dict Text (Nat × Nat)) (values : InsnValues) :
    Except ConvertError OpcodeEntry := do
  let static ← (splitEncodingStr values.encoding).mapM OpcodeField.ofEncoding
  let valueHex ← intOf 16 values.matchHex
  let maskHex ← intOf 16 values.maskHex
  let combined ← combinedMaskOf static
  if ((combined.mask : Int), (combined.value : Int)) ≠ (maskHex, valueHex) then
    throw .assertionError
  let named ← values.variableFields.mapM (OpcodeField.ofVariable argLut)
  pure ⟨values.extension, static ++ named, ← combinedMaskOf (static ++ named)⟩

/-- The loop of `main`. -/
def convertAll (argLut : Dict Text (Nat × Nat)) (insns : Dict String InsnValues) :
    Except ConvertError (Dict String OpcodeEntry) :=
  insns.items.foldlM (fun instructions p =>
    if p.1 ∈ instructions.keys then pure instructions
    else do pure (instructions.set p.1 (← convert argLut p.2))) Dict.empty

/-! ## What an encoding says

An encoding fixes some bits of the word and leaves the others open. `Describes` says that a combined
mask fixes the same bits to the same values. -/

/-- The characters of an encoding. -/
def OfBits (encoding : Text) : Prop := ∀ c ∈ encoding, c = '-' ∨ IsBit c

instance (encoding : Text) : Decidable (OfBits encoding) :=
  List.decidableBAll (fun c => c = '-' ∨ IsBit c) encoding

/-- The word has every bit that the encoding fixes; the text ends with bit 0. -/
def FitsEncoding (encoding : Text) (word : Nat) : Prop :=
  ∀ i c, encoding.reverse[i]? = some c → c ≠ '-' → word.testBit i = (c == '1')

/-- How many bits the encoding fixes. -/
def fixedBits (encoding : Text) : Nat := encoding.countP (· ≠ '-')

/-- The combined mask has the bits that the encoding fixes, with their values. -/
structure CombinedMask.Describes (c : CombinedMask) (encoding : Text) : Prop where
  mask : ∀ i, c.mask.testBit i = true ↔ ∃ d, encoding.reverse[i]? = some d ∧ d ≠ '-'
  value : ∀ i, c.value.testBit i = true ↔ encoding.reverse[i]? = some '1'

namespace CombinedMask

variable {c : CombinedMask} {encoding : Text}

theorem Describes.matches_iff (h : c.Describes encoding) (hplain : OfBits encoding) {word : Nat} :
    c.Matches word ↔ FitsEncoding encoding word := by
  have hbits : c.Matches word ↔
      ∀ i, (word.testBit i && c.mask.testBit i) = c.value.testBit i := by
    rw [Matches]
    refine ⟨fun hword i => by rw [← hword, Nat.testBit_and], fun hall => ?_⟩
    apply Nat.eq_of_testBit_eq
    intro i
    rw [Nat.testBit_and, hall]
  rw [hbits, FitsEncoding]
  refine forall_congr' fun i => ?_
  have hmask := h.mask i
  have hvalue := h.value i
  cases hget : encoding.reverse[i]? with
  | none => simp_all
  | some d =>
      have hd := hplain d (List.mem_reverse.mp (List.mem_of_getElem? hget))
      rw [hget] at hmask hvalue
      rcases hd with rfl | rfl | rfl <;> simp_all

theorem Describes.unique {c' : CombinedMask} (h : c.Describes encoding)
    (h' : c'.Describes encoding) : c = c' := by
  have hmask : c.mask = c'.mask := Nat.eq_of_testBit_eq fun i => by
    rw [Bool.eq_iff_iff, h.mask, h'.mask]
  have hvalue : c.value = c'.value := Nat.eq_of_testBit_eq fun i => by
    rw [Bool.eq_iff_iff, h.value, h'.value]
  cases c
  cases c'
  cases hmask
  cases hvalue
  rfl

/-- The mask has as many bits as the encoding fixes. -/
theorem Describes.bitCount_mask (h : c.Describes encoding) :
    bitCount c.mask = fixedBits encoding := by
  rw [fixedBits, ← List.countP_reverse]
  exact count_bits fun i => by simpa using h.mask i

/-- The words that match tell the mask and the value apart. -/
theorem eq_iff_matches (c : CombinedMask) (mask value : Nat) :
    c.mask = mask ∧ c.value = value ↔ ∀ word, c.Matches word ↔ word &&& mask = value := by
  constructor
  · rintro ⟨rfl, rfl⟩ word
    rfl
  · intro h
    have hvalue : c.value &&& mask = value := by
      rw [← h, Matches, Nat.and_comm]
      exact c.inside
    -- flipping one bit of the value leaves a match if and only if the bit is not in the mask
    have hmask : ∀ i, c.mask.testBit i = mask.testBit i := by
      intro i
      have hflip : ∀ m v : Nat, c.value &&& m = v →
          ((c.value ^^^ 1 <<< i) &&& m = v ↔ m.testBit i = false) := by
        rintro m v rfl
        constructor
        · intro hsame
          have hbit := congrArg (fun n => n.testBit i) hsame
          rw [Nat.testBit_and, Nat.testBit_and, Nat.testBit_xor, Nat.one_shiftLeft,
            Nat.testBit_two_pow_self] at hbit
          grind
        · intro hbit
          apply Nat.eq_of_testBit_eq
          intro j
          rw [Nat.testBit_and, Nat.testBit_and, Nat.testBit_xor, Nat.one_shiftLeft]
          by_cases hij : i = j
          · rw [← hij, hbit, Bool.and_false, Bool.and_false]
          · rw [Nat.testBit_two_pow_of_ne hij, Bool.xor_false]
      have hc := hflip c.mask c.value (by rw [Nat.and_comm]; exact c.inside)
      have hm := hflip mask value hvalue
      have hword := h (c.value ^^^ 1 <<< i)
      rw [Matches, hc, hm] at hword
      grind
    have heq : c.mask = mask := Nat.eq_of_testBit_eq hmask
    exact ⟨heq, by rw [← hvalue, ← heq, Nat.and_comm]; exact c.inside.symm⟩

end CombinedMask

/-! ## The fields of an encoding

The pieces of the text, counted from its right end, are the fields. Their masks and values are read
off bit by bit. -/

/-- The characters of static bits. -/
def isStatic (c : Char) : Bool := c ≠ '-'

/-- A piece with its lowest bit first. -/
def lowFirst (p : Nat × Text) : Nat × Text := (p.1, p.2.reverse)

/-- The variables of the loop when the characters `read` are read. -/
def SplitState.Reads (s : SplitState) (read : Text) : Prop :=
  Scanning isStatic read (s.encodings.map lowFirst) s.currentStart s.current.reverse

theorem SplitState.Reads.step {s : SplitState} {read : Text} (h : s.Reads read) (e : Char) :
    (s.step (e, read.length)).Reads (read ++ [e]) := by
  rw [SplitState.step]
  unfold SplitState.Reads at h ⊢
  have hrun : s.current.reverse = [] ↔ s.current = [] := List.reverse_eq_nil_iff
  by_cases he : e = '-'
  · have hstatic : isStatic e = false := by simpa [isStatic] using he
    rw [if_pos he]
    by_cases hcur : s.current = []
    · rw [if_neg (not_not.mpr hcur), hcur]
      rw [hcur] at h
      exact h.skip hstatic _
    · rw [if_pos hcur, List.map_append]
      exact h.close (fun hnil => hcur (hrun.mp hnil)) hstatic _
  · have hstatic : isStatic e = true := by simpa [isStatic] using he
    rw [if_neg he]
    by_cases hcur : s.current = []
    · rw [if_neg (not_not.mpr hcur)]
      rw [hcur] at h
      exact h.begin hstatic
    · rw [if_pos hcur]
      simp only [List.reverse_cons]
      exact h.take (fun hnil => hcur (hrun.mp hnil)) hstatic

theorem SplitState.Reads.foldl {s : SplitState} {read : Text} (h : s.Reads read) (rest : Text) :
    ((rest.zipIdx read.length).foldl SplitState.step s).Reads (read ++ rest) := by
  induction rest generalizing s read with
  | nil => simpa using h
  | cons e rest ih =>
      rw [List.zipIdx_cons, List.foldl_cons, List.append_cons]
      have hstep := ih (h.step e)
      rwa [List.length_append] at hstep

/-- The static fields are the maximal runs of static bits. -/
theorem cuts_splitEncodingStr (encoding : Text) :
    Cuts isStatic encoding.reverse ((splitEncodingStr encoding).map lowFirst) := by
  have hstart : SplitState.Reads ⟨[], [], 0⟩ [] := Scanning.nil 0
  have hcuts := (hstart.foldl encoding.reverse).cuts
  rw [List.nil_append] at hcuts
  rw [splitEncodingStr]
  simp only [List.length_nil] at hcuts
  generalize encoding.reverse.zipIdx.foldl SplitState.step ⟨[], [], 0⟩ = s at hcuts ⊢
  by_cases hcur : s.current = []
  · rw [if_neg (not_not.mpr hcur)]
    rwa [hcur, openPiece, if_pos List.reverse_nil, List.append_nil] at hcuts
  · rw [if_pos hcur, List.map_append]
    rwa [openPiece, if_neg (List.reverse_eq_nil_iff.not.mpr hcur)] at hcuts

/-- The field of a static piece. -/
def staticField (p : Nat × Text) : OpcodeField :=
  ⟨p.2.length + p.1 - 1, p.1, none, ofBase 2 p.2, 1 <<< p.2.length - 1⟩

/-- In the encodings of the table all pieces are binary digits. -/
theorem isBit_of_mem_splitEncodingStr {encoding : Text} (hplain : OfBits encoding)
    {p : Nat × Text} (hp : p ∈ splitEncodingStr encoding) : p.2 ≠ [] ∧ ∀ c ∈ p.2, IsBit c := by
  have hcuts := cuts_splitEncodingStr encoding
  have hlow : lowFirst p ∈ (splitEncodingStr encoding).map lowFirst := List.mem_map_of_mem hp
  refine ⟨fun hnil => hcuts.ne_nil _ hlow (by rw [lowFirst, hnil]; rfl), fun c hc => ?_⟩
  have hrev : c ∈ (lowFirst p).2 := List.mem_reverse.mpr hc
  have hstatic := hcuts.sound _ hlow c hrev
  obtain ⟨k, hk⟩ := List.mem_iff_getElem?.mp hrev
  have hmem : c ∈ encoding.reverse := by
    obtain ⟨hlt, -⟩ := List.getElem?_eq_some_iff.mp hk
    exact List.mem_of_getElem? ((hcuts.get _ hlow k hlt).trans hk)
  rcases hplain c (List.mem_reverse.mp hmem) with rfl | hbit
  · exact absurd hstatic (by decide)
  · exact hbit

theorem mapM_ofEncoding {encoding : Text} (hplain : OfBits encoding) :
    (splitEncodingStr encoding).mapM OpcodeField.ofEncoding =
      .ok ((splitEncodingStr encoding).map staticField) := by
  apply mapM_eq_ok
  intro p hp
  obtain ⟨hne, hbits⟩ := isBit_of_mem_splitEncodingStr hplain hp
  rw [OpcodeField.ofEncoding, intOf, pyIntBase_two hbits hne]
  rfl

theorem testBit_mask_staticField (p : Nat × Text) (k : Nat) :
    (staticField p).mask.testBit k = true ↔ ∃ d, (lowFirst p).2[k]? = some d ∧ True := by
  show (1 <<< p.2.length - 1).testBit k = true ↔ ∃ d, p.2.reverse[k]? = some d ∧ True
  rw [Nat.one_shiftLeft, Nat.testBit_two_pow_sub_one, decide_eq_true_iff]
  simp [← Option.isSome_iff_exists]

theorem testBit_value_staticField {p : Nat × Text} (hbits : ∀ c ∈ p.2, IsBit c) (k : Nat) :
    (staticField p).value.testBit k = true ↔ ∃ d, (lowFirst p).2[k]? = some d ∧ d = '1' := by
  rw [exists_eq_right]
  exact testBit_ofBase_two hbits k

/-- What the bits of the fields say about the pieces, they say about the encoding. -/
theorem exists_field_iff {encoding : Text} {part : StaticField → Nat} {P : Char → Prop}
    (hpart : ∀ p ∈ splitEncodingStr encoding, ∀ k,
      (part (staticField p).static).testBit k = true ↔ ∃ d, (lowFirst p).2[k]? = some d ∧ P d)
    (i : Nat) :
    (∃ f ∈ ((splitEncodingStr encoding).map staticField).map OpcodeField.static,
      f.rangeStart ≤ i ∧ (part f).testBit (i - f.rangeStart) = true) ↔
      ∃ d, encoding.reverse[i]? = some d ∧ d ≠ '-' ∧ P d := by
  have hcuts := cuts_splitEncodingStr encoding
  constructor
  · rintro ⟨f, hf, hle, hbit⟩
    obtain ⟨g, hg, rfl⟩ := List.mem_map.mp hf
    obtain ⟨p, hp, rfl⟩ := List.mem_map.mp hg
    obtain ⟨d, hd, hP⟩ := (hpart p hp _).mp hbit
    obtain ⟨hget, hstatic⟩ := hcuts.exists_piece_iff.mp ⟨_, List.mem_map_of_mem hp, hle, hd⟩
    exact ⟨d, hget, of_decide_eq_true hstatic, hP⟩
  · rintro ⟨d, hget, hstatic, hP⟩
    obtain ⟨q, hq, hle, hd⟩ := hcuts.exists_piece_iff.mpr ⟨hget, decide_eq_true hstatic⟩
    obtain ⟨p, hp, rfl⟩ := List.mem_map.mp hq
    exact ⟨_, List.mem_map_of_mem (List.mem_map_of_mem hp), hle, (hpart p hp _).mpr ⟨d, hd, hP⟩⟩

/-- A bit of the combined value is a bit of the value of a field. -/
theorem testBit_value_genCombinedMask {fields : List StaticField} {c : CombinedMask}
    (h : genCombinedMask fields = some c) {i : Nat} : c.value.testBit i = true ↔
      ∃ f ∈ fields, f.rangeStart ≤ i ∧ f.value.testBit (i - f.rangeStart) = true := by
  have hvalue : c.value = fields.foldl (fun value f => value ||| f.value <<< f.rangeStart) 0 := by
    unfold genCombinedMask at h
    grind
  rw [hvalue, testBit_foldl_shiftLeft StaticField.value StaticField.rangeStart, Nat.zero_testBit,
    or_iff_right Bool.false_ne_true]

/-- Fields that have the bits of an encoding have a combined mask that describes it. -/
theorem describes_of_fields {fields : List StaticField} {encoding : Text}
    (hinside : ∀ f ∈ fields, f.mask &&& f.value = f.value)
    (hmask : ∀ i, (∃ f ∈ fields, f.rangeStart ≤ i ∧ f.mask.testBit (i - f.rangeStart) = true) ↔
      ∃ d, encoding.reverse[i]? = some d ∧ d ≠ '-')
    (hvalue : ∀ i, (∃ f ∈ fields, f.rangeStart ≤ i ∧ f.value.testBit (i - f.rangeStart) = true) ↔
      encoding.reverse[i]? = some '1') :
    ∃ c, genCombinedMask fields = some c ∧ c.Describes encoding := by
  obtain ⟨c, hc⟩ := Option.isSome_iff_exists.mp (genCombinedMask_isSome hinside)
  exact ⟨c, hc, fun i => (testBit_mask_genCombinedMask hc).trans (hmask i),
    fun i => (testBit_value_genCombinedMask hc).trans (hvalue i)⟩

/-- The static fields of an encoding have a combined mask, and it has the bits of the encoding. -/
theorem exists_describes {encoding : Text} (hplain : OfBits encoding) :
    ∃ c, genCombinedMask (((splitEncodingStr encoding).map staticField).map OpcodeField.static) =
      some c ∧ c.Describes encoding := by
  -- bit by bit a static field has what its piece of the text says
  have hmask : ∀ p ∈ splitEncodingStr encoding, ∀ k,
      (staticField p).static.mask.testBit k = true ↔ ∃ d, (lowFirst p).2[k]? = some d ∧ True :=
    fun p _ k => testBit_mask_staticField p k
  have hvalue : ∀ p ∈ splitEncodingStr encoding, ∀ k,
      (staticField p).static.value.testBit k = true ↔ ∃ d, (lowFirst p).2[k]? = some d ∧ d = '1' :=
    fun p hp k => testBit_value_staticField (isBit_of_mem_splitEncodingStr hplain hp).2 k
  have hinside : ∀ f ∈ ((splitEncodingStr encoding).map staticField).map OpcodeField.static,
      f.mask &&& f.value = f.value := by
    simp only [List.map_map, List.forall_mem_map, Function.comp_apply]
    intro p hp
    apply Nat.eq_of_testBit_eq
    intro k
    have hbit := hvalue p hp k
    rw [Nat.testBit_and, Bool.eq_iff_iff, Bool.and_eq_true, hmask p hp k, hbit]
    grind
  refine describes_of_fields hinside (fun i => ?_) (fun i => ?_)
  · rw [exists_field_iff hmask i]
    simp only [and_true]
  · rw [exists_field_iff hvalue i]
    constructor
    · rintro ⟨d, hget, -, rfl⟩
      exact hget
    · intro hget
      exact ⟨'1', hget, by decide, rfl⟩

end RISCover
