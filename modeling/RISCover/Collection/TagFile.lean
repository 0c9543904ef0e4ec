import RISCover.Collection.OpcodeTable

/-!
# The diagrams of aarch64

`mra_tools_to_instruction_collection` makes the instructions of aarch64 out of the lines of a tag
file. A section begins with a line `TAG:`; in the section of a diagram every line behind the first
two is a field of the instruction. `convertsDiagrams` says which diagrams of a file are converted,
and which words their masks accept: behind a diagram the tag of the next section is skipped, so that
a diagram right behind another one is left out.
-/

open Text

namespace RISCover

/-- What is kept of a diagram. -/
structure TagEntry where
  fields : List OpcodeField
  ff : Text
  combinedMask : CombinedMask

namespace TagFile

/-! ## The lines

A line at a time, as the regular expressions and `split` read it. -/

/-- `diagram_start.match(line)`: what stands between `TAG:` and `:diagram` has no white space and is
not empty. -/
def diagramStart (line : Text) : Bool :=
  match scanLit "TAG:" line with
  | some t => (strstr ((t.takeWhile (!isPySpace ·)).drop 1) ":diagram").isSome
  | none => false

/-- Undefined instructions are left out. -/
def isDiagram (line : Text) : Bool := diagramStart line && (strstr line "undef").isNone

/-- `line.split(':')[1]`. -/
def currentTag (line : Text) : Option String := (line.splitOn ':')[1]?.map String.ofList

/-- `re.sub(r'\((.*?)\)', lambda m: 'x' * len(m.group(1)), value)`; the flag is set behind a
parenthesis that is closed later. -/
def unparen : (inside : Bool) → Text → Text
  | _, [] => []
  | false, c :: cs =>
    if c = '(' ∧ ')' ∈ cs then unparen true cs else c :: unparen false cs
  | true, c :: cs => if c = ')' then unparen false cs else 'x' :: unparen true cs

example : unparen false "01(0)(11)x".toList = "01xxxx".toList := by decide

/-- `s.replace(old, new)` for characters. -/
def replaceChar (old new : Char) (t : Text) : Text := t.map fun c => if c = old then new else c

/-- A line of a field; `none` is an exception. There is no sign in the numbers of the file. -/
def fieldOfLine (line : Text) : Option OpcodeField :=
  match pySplit line with
  | [bitRange, name, value] =>
    match bitRange.splitOn ':' with
    | [rangeEnd, rangeStart] => do
      let rangeEnd ← pyInt rangeEnd
      let rangeStart ← pyInt rangeStart
      let value := unparen false value
      let mask ← pyIntBase 2 (replaceChar 'x' '0' (replaceChar '0' '1' value))
      let value ← pyIntBase 2 (replaceChar 'x' '0' value)
      pure ⟨rangeEnd.toNat, rangeStart.toNat, if name = ['_'] then none else some name,
        value.toNat, mask.toNat⟩
    | _ => none
  | _ => none

/-- The lines in front of the next tag. -/
def untilTag (lines : List Text) : List Text := lines.takeWhile fun l => !startsWith l "TAG:"

def fromTag (lines : List Text) : List Text := lines.dropWhile fun l => !startsWith l "TAG:"

/-- The loop over the lines. Behind a diagram it goes on with the line after the next tag. -/
def convertLines : List Text → Dict String TagEntry → Option (Dict String TagEntry)
  | [], instructions => some instructions
  | line :: lines, instructions =>
    if isDiagram line then do
      let currentTag ← currentTag line
      let ff ← lines[0]?
      let fields ← (untilTag (lines.drop 2)).mapM fieldOfLine
      let combinedMask ← genCombinedMask (fields.map OpcodeField.static)
      convertLines ((fromTag (lines.drop 2)).drop 1)
        (instructions.set currentTag ⟨fields, pyStrip ff, combinedMask⟩)
    else convertLines lines instructions
termination_by lines => lines.length
decreasing_by
  · have hle := (List.dropWhile_sublist (fun l => !startsWith l "TAG:")
      (l := lines.drop 2)).length_le
    simp only [fromTag, List.length_drop, List.length_cons] at hle ⊢
    omega
  · exact Nat.lt_succ_self _

/-! ## The layout of a file

What a tag file consists of. The structures carry what is needed to read it back, so every list of
sections is a file. -/

/-- A part of the value of a field. What stands in parentheses is unpredictable. -/
structure ValuePart where
  bits : Text
  paren : Bool
  of_bits : ∀ c ∈ bits, IsBit c ∨ c = 'x'

namespace ValuePart

def text (p : ValuePart) : Text := if p.paren then '(' :: (p.bits ++ [')']) else p.bits

/-- Without the parentheses. -/
def opened (p : ValuePart) : Text := if p.paren then List.replicate p.bits.length 'x' else p.bits

end ValuePart

/-- A field of a diagram. -/
structure DiagramField where
  rangeEnd : Nat
  rangeStart : Nat
  name : Text
  value : List ValuePart
  range_le : rangeStart ≤ rangeEnd
  length_eq : (value.flatMap ValuePart.opened).length = rangeEnd + 1 - rangeStart
  name_ne_nil : name ≠ []
  name_word : ∀ c ∈ name, isPySpace c = false

namespace DiagramField

/-- The value without parentheses. -/
def pattern (f : DiagramField) : Text := f.value.flatMap ValuePart.opened

/-- What the field fixes, as an encoding has it. -/
def encoding (f : DiagramField) : Text := replaceChar 'x' '-' f.pattern

/-- The line of the field. -/
def line (f : DiagramField) : Text :=
  (dec f.rangeEnd ++ ':' :: dec f.rangeStart) ++ ' ' ::
    (f.name ++ ' ' :: (f.value.flatMap ValuePart.text ++ ['\n']))

/-- What is made of it. -/
def opcodeField (f : DiagramField) : OpcodeField where
  rangeEnd := f.rangeEnd
  rangeStart := f.rangeStart
  name := if f.name = ['_'] then none else some f.name
  value := ofBase 2 (replaceChar 'x' '0' f.pattern)
  mask := ofBase 2 (replaceChar 'x' '0' (replaceChar '0' '1' f.pattern))

end DiagramField

/-- The fields cover the bits below `top`, from the highest to the lowest. -/
def Covers : (top : Nat) → List DiagramField → Prop
  | top, [] => top = 0
  | top, f :: fields => f.rangeEnd + 1 = top ∧ Covers f.rangeStart fields

/-- The section of a diagram; two lines stand in front of its fields. -/
structure Diagram where
  name : String
  isa : Text
  ff : Text
  second : Text
  fields : List DiagramField
  name_ne_nil : name.toList ≠ []
  name_word : ∀ c ∈ name.toList, isPySpace c = false ∧ c ≠ ':'
  ff_not_tag : startsWith ff "TAG:" = false
  second_not_tag : startsWith second "TAG:" = false
  covers : Covers 32 fields

namespace Diagram

def tagLine (d : Diagram) : Text := "TAG:".toList ++ (d.name.toList ++ (":diagram".toList ++ d.isa))

def body (d : Diagram) : List Text := d.ff :: d.second :: d.fields.map DiagramField.line

/-- The encoding of the instruction. -/
def encoding (d : Diagram) : Text := d.fields.flatMap DiagramField.encoding

end Diagram

/-- A section of a tag file. -/
inductive Section where
  | diagram (d : Diagram) (hdef : strstr d.tagLine "undef" = none)
  | other (tagLine : Text) (body : List Text) (htag : startsWith tagLine "TAG:" = true)
    (hno : isDiagram tagLine = false) (hbody : ∀ l ∈ body, startsWith l "TAG:" = false)

namespace Section

def tagLine : Section → Text
  | diagram d _ => d.tagLine
  | other tagLine _ _ _ _ => tagLine

def body : Section → List Text
  | diagram d _ => d.body
  | other _ body _ _ _ => body

def lines (s : Section) : List Text := s.tagLine :: s.body

end Section

/-- The diagrams that are converted: one right behind a converted one is not. -/
def converted : List Section → List Diagram
  | [] => []
  | [.diagram d _] => [d]
  | .diagram d _ :: _ :: rest => d :: converted rest
  | .other _ _ _ _ _ :: rest => converted rest

example (d d' : Diagram) (h : strstr d.tagLine "undef" = none)
    (h' : strstr d'.tagLine "undef" = none) :
    converted [.diagram d h, .diagram d' h'] = [d] := rfl

/-! ## A field

The line of a field is split at white space, its range at the colon, and its value is read with the
parentheses opened. -/

theorem isBit_replaceChar {t : Text} (ht : ∀ c ∈ t, IsBit c ∨ c = 'x') :
    ∀ c ∈ replaceChar 'x' '0' t, IsBit c := by
  intro c hc
  obtain ⟨d, hd, rfl⟩ := List.mem_map.mp hc
  rcases ht d hd with (rfl | rfl) | rfl
  · decide
  · decide
  · decide

theorem ValuePart.of_bits_open (p : ValuePart) : ∀ c ∈ p.opened, IsBit c ∨ c = 'x' := by
  unfold opened
  split
  · intro c hc
    exact Or.inr (List.eq_of_mem_replicate hc)
  · exact p.of_bits

theorem DiagramField.of_pattern (f : DiagramField) : ∀ c ∈ f.pattern, IsBit c ∨ c = 'x' := by
  intro c hc
  obtain ⟨p, -, hp⟩ := List.mem_flatMap.mp hc
  exact p.of_bits_open c hp

theorem unparen_true {bits : Text} (h : ∀ c ∈ bits, IsBit c ∨ c = 'x') (t : Text) :
    unparen true (bits ++ ')' :: t) = List.replicate bits.length 'x' ++ unparen false t := by
  induction bits with
  | nil => rfl
  | cons c bits ih =>
      have hc : c ≠ ')' := by
        rintro rfl
        exact absurd (h ')' List.mem_cons_self) (by decide)
      rw [List.cons_append, unparen, if_neg hc, ih fun d hd => h d (List.mem_cons_of_mem c hd)]
      rfl

theorem unparen_false {bits : Text} (h : ∀ c ∈ bits, IsBit c ∨ c = 'x') (t : Text) :
    unparen false (bits ++ t) = bits ++ unparen false t := by
  induction bits with
  | nil => rfl
  | cons c bits ih =>
      have hc : c ≠ '(' := by
        rintro rfl
        exact absurd (h '(' List.mem_cons_self) (by decide)
      rw [List.cons_append, unparen, if_neg fun hboth => hc hboth.1,
        ih fun d hd => h d (List.mem_cons_of_mem c hd)]
      rfl

theorem unparen_value (value : List ValuePart) :
    unparen false (value.flatMap ValuePart.text) = value.flatMap ValuePart.opened := by
  induction value with
  | nil => rfl
  | cons p value ih =>
      rw [List.flatMap_cons, List.flatMap_cons, ← ih]
      unfold ValuePart.text ValuePart.opened
      split
      · have hclosed : ')' ∈ p.bits ++ [')'] ++ value.flatMap ValuePart.text := by simp
        rw [List.cons_append, unparen, if_pos ⟨rfl, hclosed⟩, List.append_assoc,
          List.singleton_append, unparen_true p.of_bits]
      · exact unparen_false p.of_bits _

theorem ValuePart.isPySpace_of_mem {p : ValuePart} {c : Char} (hc : c ∈ p.text) :
    isPySpace c = false := by
  have hbits : ∀ c ∈ p.bits, isPySpace c = false := by
    intro c hc
    rcases p.of_bits c hc with (rfl | rfl) | rfl
    · decide
    · decide
    · decide
  unfold text at hc
  split at hc
  · rcases List.mem_cons.mp hc with rfl | hc
    · decide
    · rcases List.mem_append.mp hc with hc | hc
      · exact hbits c hc
      · rw [List.mem_singleton.mp hc]
        decide
  · exact hbits c hc

namespace DiagramField

variable (f : DiagramField)

theorem of_ones : ∀ c ∈ replaceChar '0' '1' f.pattern, IsBit c ∨ c = 'x' := by
  intro c hc
  obtain ⟨d, hd, rfl⟩ := List.mem_map.mp hc
  rcases f.of_pattern d hd with (rfl | rfl) | rfl
  · decide
  · decide
  · decide

theorem pattern_ne_nil : f.pattern ≠ [] := by
  have hlen := f.length_eq
  have hle := f.range_le
  intro hnil
  rw [pattern] at hnil
  rw [hnil, List.length_nil] at hlen
  omega

theorem text_ne_nil : f.value.flatMap ValuePart.text ≠ [] := by
  intro hnil
  have hpattern := unparen_value f.value
  rw [hnil] at hpattern
  exact f.pattern_ne_nil hpattern.symm

theorem pySplit_line : pySplit f.line =
    [dec f.rangeEnd ++ ':' :: dec f.rangeStart, f.name, f.value.flatMap ValuePart.text] := by
  have hdec : ∀ n, ∀ c ∈ dec n, isPySpace c = false := fun n c hc =>
    not_isPySpace_of_isHex (isHex_of_isBase (isBase_dec n c hc))
  have hrange : ∀ c ∈ dec f.rangeEnd ++ ':' :: dec f.rangeStart, isPySpace c = false := by
    intro c hc
    rcases List.mem_append.mp hc with hc | hc
    · exact hdec _ c hc
    · rcases List.mem_cons.mp hc with rfl | hc
      · decide
      · exact hdec _ c hc
  have hvalue : ∀ c ∈ f.value.flatMap ValuePart.text, isPySpace c = false := by
    intro c hc
    obtain ⟨p, -, hp⟩ := List.mem_flatMap.mp hc
    exact ValuePart.isPySpace_of_mem hp
  have hne : dec f.rangeEnd ++ ':' :: dec f.rangeStart ≠ [] :=
    List.append_ne_nil_of_left_ne_nil (dec_ne_nil _) _
  unfold line
  rw [pySplit_append hne hrange (by decide), pySplit_append f.name_ne_nil f.name_word (by decide),
    pySplit_append f.text_ne_nil hvalue (by decide)]
  rfl

theorem splitOn_range : (dec f.rangeEnd ++ ':' :: dec f.rangeStart).splitOn ':' =
    [dec f.rangeEnd, dec f.rangeStart] := by
  have hcolon : ∀ n, ':' ∉ dec n := fun n h => absurd (isBase_dec n ':' h) (by decide)
  rw [List.splitOn_append_cons_self_of_not_mem (hcolon _), List.splitOn_eq_singleton (hcolon _)]

/-- A line of the layout is read as the field that it was written for. -/
theorem fieldOfLine_line : fieldOfLine f.line = some f.opcodeField := by
  have hbits : ∀ c ∈ replaceChar 'x' '0' f.pattern, IsBit c := isBit_replaceChar f.of_pattern
  have hne : ∀ old new t, t ≠ [] → replaceChar old new t ≠ [] := fun old new t ht hnil =>
    ht (List.map_eq_nil_iff.mp hnil)
  have hmask := pyIntBase_two (isBit_replaceChar f.of_ones)
    (hne _ _ _ (hne _ _ _ f.pattern_ne_nil))
  have hvalue := pyIntBase_two hbits (hne _ _ _ f.pattern_ne_nil)
  unfold fieldOfLine
  rw [f.pySplit_line]
  dsimp only
  rw [f.splitOn_range]
  dsimp only
  rw [pyInt_dec, pyInt_dec, unparen_value]
  show (pyIntBase 2 (replaceChar 'x' '0' (replaceChar '0' '1' f.pattern))).bind _ = _
  rw [hmask]
  show (pyIntBase 2 (replaceChar 'x' '0' f.pattern)).bind _ = _
  rw [hvalue]
  rfl

/-! ### Its bits

Mask and value of a field are the bits of its encoding. -/

theorem getElem?_reverse_replaceChar (old new : Char) (t : Text) (k : Nat) :
    (replaceChar old new t).reverse[k]? =
      t.reverse[k]?.map fun c => if c = old then new else c := by
  rw [replaceChar, ← List.map_reverse, List.getElem?_map]

theorem of_getElem? {k : Nat} {c : Char} (h : f.pattern.reverse[k]? = some c) :
    IsBit c ∨ c = 'x' :=
  f.of_pattern c (List.mem_reverse.mp (List.mem_of_getElem? h))

theorem testBit_value (k : Nat) :
    f.opcodeField.value.testBit k = true ↔ f.encoding.reverse[k]? = some '1' := by
  rw [opcodeField, testBit_ofBase_two (isBit_replaceChar f.of_pattern), encoding,
    getElem?_reverse_replaceChar, getElem?_reverse_replaceChar]
  cases hget : f.pattern.reverse[k]? with
  | none => rfl
  | some c =>
      rcases f.of_getElem? hget with (rfl | rfl) | rfl
      · decide
      · decide
      · decide

theorem testBit_mask (k : Nat) : f.opcodeField.mask.testBit k = true ↔
    ∃ d, f.encoding.reverse[k]? = some d ∧ d ≠ '-' := by
  rw [opcodeField, testBit_ofBase_two (isBit_replaceChar f.of_ones), encoding,
    getElem?_reverse_replaceChar, getElem?_reverse_replaceChar, getElem?_reverse_replaceChar]
  cases hget : f.pattern.reverse[k]? with
  | none => simp
  | some c =>
      rcases f.of_getElem? hget with (rfl | rfl) | rfl
      · simp
      · simp
      · simp

theorem inside : f.opcodeField.mask &&& f.opcodeField.value = f.opcodeField.value := by
  apply Nat.eq_of_testBit_eq
  intro k
  rw [Nat.testBit_and, Bool.eq_iff_iff, Bool.and_eq_true, f.testBit_mask, f.testBit_value]
  constructor
  · exact And.right
  · intro h
    exact ⟨⟨'1', h, by decide⟩, h⟩

theorem length_encoding : f.encoding.length = f.rangeEnd + 1 - f.rangeStart := by
  rw [encoding, replaceChar, List.length_map, pattern]
  exact f.length_eq

theorem ofBits_encoding : OfBits f.encoding := by
  intro c hc
  obtain ⟨d, hd, rfl⟩ := List.mem_map.mp hc
  rcases f.of_pattern d hd with (rfl | rfl) | rfl
  · decide
  · decide
  · decide

end DiagramField

/-! ## A diagram

The fields cover the word from the top to bit 0, so the encodings stand side by side and a bit
belongs to one field. -/

namespace Covers

variable {top : Nat} {fields : List DiagramField}

theorem rangeEnd_lt (h : Covers top fields) {f : DiagramField} (hf : f ∈ fields) :
    f.rangeEnd < top := by
  induction fields generalizing top with
  | nil => cases hf
  | cons g fields ih =>
      obtain ⟨rfl, hrest⟩ := h
      rcases List.mem_cons.mp hf with rfl | hf
      · exact Nat.lt_succ_self _
      · have hlt := ih hrest hf
        have hle := g.range_le
        omega

theorem length_encoding (h : Covers top fields) :
    (fields.flatMap DiagramField.encoding).length = top := by
  induction fields generalizing top with
  | nil =>
      obtain rfl : top = 0 := h
      rfl
  | cons f fields ih =>
      obtain ⟨rfl, hrest⟩ := h
      have hle := f.range_le
      rw [List.flatMap_cons, List.length_append, ih hrest, f.length_encoding]
      omega

/-- What the encoding has at a bit, one of the fields has. -/
theorem getElem?_encoding (h : Covers top fields) {i : Nat} {d : Char} :
    (fields.flatMap DiagramField.encoding).reverse[i]? = some d ↔
      ∃ f ∈ fields, f.rangeStart ≤ i ∧ f.encoding.reverse[i - f.rangeStart]? = some d := by
  induction fields generalizing top with
  | nil => simp
  | cons f fields ih =>
      obtain ⟨-, hrest⟩ := h
      have hlen : (fields.flatMap DiagramField.encoding).reverse.length = f.rangeStart := by
        rw [List.length_reverse, hrest.length_encoding]
      rw [List.flatMap_cons, List.reverse_append, List.exists_mem_cons_iff]
      -- the bits below the first field belong to the others
      by_cases hi : i < f.rangeStart
      · rw [List.getElem?_append_left (by rw [hlen]; exact hi), ih hrest]
        exact ⟨Or.inr, fun h => h.resolve_left fun hf => absurd hf.1 (Nat.not_le.mpr hi)⟩
      · rw [List.getElem?_append_right (by rw [hlen]; exact Nat.not_lt.mp hi), hlen]
        constructor
        · intro hget
          exact Or.inl ⟨Nat.not_lt.mp hi, hget⟩
        · rintro (hf | ⟨g, hg, hle, hget⟩)
          · exact hf.2
          · -- the other fields lie below
            obtain ⟨hlt, -⟩ := List.getElem?_eq_some_iff.mp hget
            have hend := hrest.rangeEnd_lt hg
            have hwidth := g.length_encoding
            rw [List.length_reverse] at hlt
            omega

end Covers

namespace Diagram

variable (d : Diagram)

def staticFields : List StaticField :=
  (d.fields.map DiagramField.opcodeField).map OpcodeField.static

theorem exists_staticField_iff {P : StaticField → Prop} :
    (∃ sf ∈ d.staticFields, P sf) ↔ ∃ f ∈ d.fields, P f.opcodeField.static := by
  simp only [staticFields, List.map_map, List.mem_map, Function.comp_apply,
    exists_exists_and_eq_and]

theorem exists_describes :
    ∃ c, genCombinedMask d.staticFields = some c ∧ c.Describes d.encoding := by
  apply describes_of_fields
  · intro sf hsf
    simp only [staticFields, List.map_map, List.mem_map, Function.comp_apply] at hsf
    obtain ⟨f, -, rfl⟩ := hsf
    exact f.inside
  · intro i
    rw [exists_staticField_iff]
    constructor
    · rintro ⟨f, hf, hle, hbit⟩
      obtain ⟨e, he, hfixed⟩ := (f.testBit_mask _).mp hbit
      exact ⟨e, d.covers.getElem?_encoding.mpr ⟨f, hf, hle, he⟩, hfixed⟩
    · rintro ⟨e, he, hfixed⟩
      obtain ⟨f, hf, hle, hget⟩ := d.covers.getElem?_encoding.mp he
      exact ⟨f, hf, hle, (f.testBit_mask _).mpr ⟨e, hget, hfixed⟩⟩
  · intro i
    rw [exists_staticField_iff, Diagram.encoding, d.covers.getElem?_encoding]
    refine exists_congr fun f => and_congr_right fun _ => and_congr_right fun _ => ?_
    exact f.testBit_value _

theorem ofBits_encoding : OfBits d.encoding := by
  intro c hc
  obtain ⟨f, -, hf⟩ := List.mem_flatMap.mp hc
  exact f.ofBits_encoding c hf

/-- What stands in the entry of a diagram. -/
structure Converts (d : Diagram) (e : TagEntry) : Prop where
  fields : e.fields = d.fields.map DiagramField.opcodeField
  ff : e.ff = pyStrip d.ff
  /-- Exactly the words of the diagram's bits are accepted. -/
  accepts : ∀ word, e.combinedMask.Matches word ↔ FitsEncoding d.encoding word

end Diagram

/-! ## The lines of a section

The section of a diagram is taken as a whole, together with the tag that follows it; other lines are
passed over. -/

theorem isSome_strstr_append (p : Text) (needle : String) (t : Text) :
    (strstr (p ++ (needle.toList ++ t)) needle).isSome = true := by
  induction p with
  | nil =>
      rw [List.nil_append, strstr_of_startsWith (startsWith_append needle t)]
      rfl
  | cons c p ih =>
      rw [List.cons_append, strstr]
      split
      · rfl
      · exact ih

theorem isDiagram_of_not_tag {line : Text} (h : startsWith line "TAG:" = false) :
    isDiagram line = false := by
  rw [isDiagram, diagramStart, scanLit, h, if_neg Bool.false_ne_true]
  rfl

/-- Lines that are no tags are passed over. -/
theorem convertLines_skip {body : List Text} (h : ∀ l ∈ body, startsWith l "TAG:" = false)
    (rest : List Text) (instructions : Dict String TagEntry) :
    convertLines (body ++ rest) instructions = convertLines rest instructions := by
  induction body with
  | nil => rfl
  | cons l body ih =>
      rw [List.forall_mem_cons] at h
      rw [List.cons_append, convertLines, isDiagram_of_not_tag h.1, if_neg Bool.false_ne_true]
      exact ih h.2

/-- The lines of a section end where the next one begins. -/
theorem untilTag_append {body rest : List Text} (hbody : ∀ l ∈ body, startsWith l "TAG:" = false)
    (hrest : ∀ l ∈ rest.head?, startsWith l "TAG:" = true) : untilTag (body ++ rest) = body := by
  rw [untilTag, List.takeWhile_append_of_pos fun l hl => by rw [hbody l hl]; rfl]
  cases rest with
  | nil => exact List.append_nil _
  | cons l rest => rw [List.takeWhile_cons_of_neg (by simp [hrest l rfl]), List.append_nil]

theorem fromTag_append {body rest : List Text} (hbody : ∀ l ∈ body, startsWith l "TAG:" = false)
    (hrest : ∀ l ∈ rest.head?, startsWith l "TAG:" = true) : fromTag (body ++ rest) = rest := by
  rw [fromTag, List.dropWhile_append_of_pos fun l hl => by rw [hbody l hl]; rfl]
  cases rest with
  | nil => rfl
  | cons l rest => exact List.dropWhile_cons_of_neg (by simp [hrest l rfl])

theorem DiagramField.line_not_tag (f : DiagramField) : startsWith f.line "TAG:" = false := by
  unfold DiagramField.line
  cases hdec : dec f.rangeEnd with
  | nil => exact absurd hdec (dec_ne_nil _)
  | cons c cs =>
      have hc : c ≠ 'T' := by
        rintro rfl
        exact absurd (isBase_dec f.rangeEnd 'T' (hdec ▸ List.mem_cons_self)) (by decide)
      simp [startsWith, List.isPrefixOf, hc.symm]

namespace Diagram

variable (d : Diagram)

theorem body_not_tag : ∀ l ∈ d.body, startsWith l "TAG:" = false := by
  refine List.forall_mem_cons.mpr ⟨d.ff_not_tag, List.forall_mem_cons.mpr ⟨d.second_not_tag, ?_⟩⟩
  intro l hl
  obtain ⟨f, -, rfl⟩ := List.mem_map.mp hl
  exact f.line_not_tag

theorem tagLine_tag : startsWith d.tagLine "TAG:" = true := startsWith_append "TAG:" _

/-- The name is followed by `:diagram`, with no white space in between. -/
theorem diagramStart_tagLine : diagramStart d.tagLine = true := by
  have hscan : scanLit "TAG:" d.tagLine = some (d.name.toList ++ (":diagram".toList ++ d.isa)) := by
    rw [scanLit, if_pos d.tagLine_tag, tagLine, List.drop_left]
  have hname : ∀ c ∈ d.name.toList, (!isPySpace c) = true := fun c hc => by
    rw [(d.name_word c hc).1]
    rfl
  have hcolon : ∀ c ∈ ":diagram".toList, (!isPySpace c) = true := List.all_eq_true.mp (by decide)
  rw [diagramStart, hscan]
  dsimp only
  rw [List.takeWhile_append_of_pos hname, List.takeWhile_append_of_pos hcolon]
  cases hlist : d.name.toList with
  | nil => exact absurd hlist d.name_ne_nil
  | cons c cs =>
      rw [List.cons_append, List.drop_one, List.tail_cons]
      exact isSome_strstr_append cs ":diagram" _

theorem currentTag_tagLine : currentTag d.tagLine = some d.name := by
  have hno : ':' ∉ d.name.toList := fun h => (d.name_word ':' h).2 rfl
  have hline : d.tagLine =
      ['T', 'A', 'G'] ++ ':' :: (d.name.toList ++ ':' :: ("diagram".toList ++ d.isa)) := rfl
  rw [currentTag, hline, List.splitOn_append_cons_self_of_not_mem (by decide),
    List.splitOn_append_cons_self_of_not_mem hno]
  exact congrArg some String.ofList_toList

/-- The section of a diagram is converted, and the next tag goes with it. -/
theorem convertLines_diagram (hdef : strstr d.tagLine "undef" = none) {rest : List Text}
    (hrest : ∀ l ∈ rest.head?, startsWith l "TAG:" = true) (instructions : Dict String TagEntry) :
    ∃ e, d.Converts e ∧ convertLines (d.tagLine :: (d.body ++ rest)) instructions =
      convertLines (rest.drop 1) (instructions.set d.name e) := by
  obtain ⟨c, hc, hdescribes⟩ := d.exists_describes
  refine ⟨⟨d.fields.map DiagramField.opcodeField, pyStrip d.ff, c⟩,
    ⟨rfl, rfl, fun word => hdescribes.matches_iff d.ofBits_encoding⟩, ?_⟩
  have hdiagram : isDiagram d.tagLine = true := by
    rw [isDiagram, d.diagramStart_tagLine, hdef]
    rfl
  have hlines : ∀ l ∈ d.fields.map DiagramField.line, startsWith l "TAG:" = false := by
    intro l hl
    obtain ⟨f, -, rfl⟩ := List.mem_map.mp hl
    exact f.line_not_tag
  have hdrop : (d.body ++ rest).drop 2 = d.fields.map DiagramField.line ++ rest := rfl
  -- every field is read as it was written
  have hfields : (d.fields.map DiagramField.line).mapM fieldOfLine =
      some (d.fields.map DiagramField.opcodeField) := by
    rw [List.mapM_map]
    exact Dict.mapM_eq_some fun f _ => f.fieldOfLine_line
  have hmask : genCombinedMask ((d.fields.map DiagramField.opcodeField).map OpcodeField.static) =
      some c := hc
  rw [convertLines, if_pos hdiagram, d.currentTag_tagLine, hdrop, untilTag_append hlines hrest,
    fromTag_append hlines hrest, hfields]
  show (genCombinedMask _).bind _ = _
  rw [hmask]
  rfl

end Diagram

/-! ## A file

The induction follows `converted`: a diagram takes the tag of the next section along. -/

theorem Section.tagLine_tag (s : Section) : startsWith s.tagLine "TAG:" = true := by
  cases s with
  | diagram d hdef => exact d.tagLine_tag
  | other tagLine body htag hno hbody => exact htag

theorem Section.body_not_tag (s : Section) : ∀ l ∈ s.body, startsWith l "TAG:" = false := by
  cases s with
  | diagram d hdef => exact d.body_not_tag
  | other tagLine body htag hno hbody => exact hbody

/-- The entries of the converted diagrams are filed in the order of the file. -/
theorem convertLines_lines (sections : List Section) : ∀ instructions : Dict String TagEntry,
    ∃ entries, List.Forall₂ Diagram.Converts (converted sections) entries ∧
      convertLines (sections.flatMap Section.lines) instructions =
        some (((converted sections).zip entries).foldl (fun db p => db.set p.1.name p.2)
          instructions) := by
  induction sections using converted.induct with
  | case1 => exact fun instructions => ⟨[], .nil, by rw [List.flatMap_nil, convertLines]; rfl⟩
  | case2 d hdef =>
      intro instructions
      obtain ⟨e, he, hconvert⟩ := @Diagram.convertLines_diagram d hdef [] nofun instructions
      refine ⟨[e], .cons he .nil, ?_⟩
      rw [List.append_nil] at hconvert
      show convertLines (d.tagLine :: (d.body ++ [])) instructions = _
      rw [List.append_nil, hconvert, List.drop_nil, convertLines]
      rfl
  | case3 d hdef next rest ih =>
      intro instructions
      have hnext : ∀ l ∈ ((next :: rest).flatMap Section.lines).head?,
          startsWith l "TAG:" = true := by
        rintro l ⟨⟩
        exact next.tagLine_tag
      obtain ⟨e, he, hconvert⟩ := d.convertLines_diagram hdef hnext instructions
      obtain ⟨entries, hentries, hrest⟩ := ih (instructions.set d.name e)
      refine ⟨e :: entries, .cons he hentries, ?_⟩
      show convertLines (d.tagLine :: (d.body ++ (next :: rest).flatMap Section.lines))
        instructions = _
      rw [hconvert]
      -- the next section has lost its tag
      show convertLines (next.body ++ rest.flatMap Section.lines) _ = _
      rw [convertLines_skip next.body_not_tag, hrest]
      rfl
  | case4 tagLine body htag hno hbody rest ih =>
      intro instructions
      obtain ⟨entries, hentries, hrest⟩ := ih instructions
      refine ⟨entries, hentries, ?_⟩
      show convertLines (tagLine :: (body ++ rest.flatMap Section.lines)) instructions = _
      rw [convertLines, hno, if_neg Bool.false_ne_true, convertLines_skip hbody, hrest]
      rfl

/-- The last of the diagrams with a name. -/
def lastNamed (ds : List Diagram) (name : String) : Option Diagram :=
  ds.reverse.find? fun d => d.name = name

theorem lastNamed_cons (d : Diagram) (ds : List Diagram) (name : String) :
    lastNamed (d :: ds) name =
      (lastNamed ds name).or (if d.name = name then some d else none) := by
  rw [lastNamed, List.reverse_cons, List.find?_append, lastNamed]
  by_cases h : d.name = name <;> simp [h]

/-- Under a name the entry of the last diagram with this name is found. -/
theorem get?_foldl_set_zip {ds : List Diagram} {entries : List TagEntry}
    (h : List.Forall₂ Diagram.Converts ds entries) (name : String) :
    ∀ db : Dict String TagEntry,
      (lastNamed ds name = none →
        ((ds.zip entries).foldl (fun db p => db.set p.1.name p.2) db).get? name = db.get? name) ∧
      ∀ d, lastNamed ds name = some d → ∃ e, d.Converts e ∧
        ((ds.zip entries).foldl (fun db p => db.set p.1.name p.2) db).get? name = some e := by
  induction h with
  | nil => exact fun db => ⟨fun _ => rfl, nofun⟩
  | @cons d e ds entries he _ ih =>
      intro db
      obtain ⟨hnone, hsome⟩ := ih (db.set d.name e)
      rw [lastNamed_cons, List.zip_cons_cons, List.foldl_cons]
      -- a later diagram with the name replaces the entry
      cases hlast : lastNamed ds name with
      | some d' =>
          refine ⟨nofun, fun d'' hd'' => ?_⟩
          obtain rfl := Option.some.inj hd''
          exact hsome d' hlast
      | none =>
          rw [Option.none_or, hnone hlast, Dict.get?_set]
          by_cases hname : name = d.name
          · rw [if_pos hname, if_pos hname.symm]
            refine ⟨nofun, fun d' hd' => ?_⟩
            obtain rfl := Option.some.inj hd'
            exact ⟨e, he, rfl⟩
          · rw [if_neg hname, if_neg (Ne.symm hname)]
            exact ⟨fun _ => rfl, nofun⟩

/-- A tag file is converted without an exception. Its converted diagrams are found under their
names, the last one where several have a name, and nothing else is found; what is found accepts
exactly the words of the diagram. -/
theorem convertsDiagrams (sections : List Section) :
    ∃ db, convertLines (sections.flatMap Section.lines) Dict.empty = some db ∧ ∀ name,
      (lastNamed (converted sections) name = none → db.get? name = none) ∧
      ∀ d, lastNamed (converted sections) name = some d →
        ∃ e, d.Converts e ∧ db.get? name = some e := by
  obtain ⟨entries, hentries, hconvert⟩ := convertLines_lines sections Dict.empty
  exact ⟨_, hconvert, fun name => get?_foldl_set_zip hentries name Dict.empty⟩

end TagFile

end RISCover
