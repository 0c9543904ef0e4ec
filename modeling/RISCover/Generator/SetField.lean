import Mathlib.Data.List.Nodup
import Mathlib.Data.List.Pairwise
import RISCover.Lib.IntBits

/-!
# Assignments to the fields of an instruction

`Instruction` of `instruction.py` keeps a word as an integer of any size. `set_field` clears the
bits of a field and ors the new number in; it is asserted that the number is not too large, but not
that it is not too small.
-/

open IntBits

namespace RISCover

namespace SetField

/-- A field of an entry of the collection; not every field has a name. -/
structure Field where
  name : Option String
  rangeEnd : Nat
  rangeStart : Nat
  start_le : rangeStart ≤ rangeEnd
  end_lt : rangeEnd < 32

def Field.bits (f : Field) : Nat := f.rangeEnd - f.rangeStart + 1

/-- The bits of the word that the field has. -/
def Field.Covers (f : Field) (i : Nat) : Prop := f.rangeStart ≤ i ∧ i ≤ f.rangeEnd

instance (f : Field) (i : Nat) : Decidable (f.Covers i) :=
  inferInstanceAs (Decidable (f.rangeStart ≤ i ∧ i ≤ f.rangeEnd))

/-- Two fields without a common bit. -/
def Field.Apart (f g : Field) : Prop := ∀ i, f.Covers i → ¬g.Covers i

instance : Std.Symm Field.Apart where
  symm _ _ h i hg hf := h i hf hg

/-- An entry whose fields lie apart, each name with one field. -/
structure Entry where
  fields : List Field
  apart : fields.Pairwise Field.Apart
  names_nodup : (fields.filterMap Field.name).Nodup

/-- `Instruction`. -/
structure Instruction where
  mnemonic : String
  mraInstruction : Entry
  value : Int

inductive FieldError where
  | assertionError
  | runtimeError (text : String)

/-- A method that may raise an exception; what it did to the object stays done. -/
abbrev Method := ExceptT FieldError (StateM Instruction)

/-! ## Methods

A method can raise an exception, and what it did to the object before stays done. The assertions of
`set_field` come before anything is written. -/

/-- `extract_value`. -/
def Instruction.extractValue (self : Instruction) (msb lsb : Nat) : Int :=
  let bits := msb - lsb + 1
  (self.value >>> lsb).land (2 ^ bits - 1)

/-- `__getattr__` with the name of a field; `none` stands for an `AttributeError`. -/
def Instruction.getattr (self : Instruction) (name : String) : Option Int :=
  (self.mraInstruction.fields.find? fun f => f.name = some name).map fun f =>
    self.extractValue f.rangeEnd f.rangeStart

/-- `set_value`. -/
def setValue (msb lsb : Nat) (val : Int) : Method Unit := do
  let bits := msb - lsb + 1
  if ¬val < (1 : Int) <<< bits then throw .assertionError
  let unsetMask := (((1 : Int) <<< bits - 1) <<< lsb).lnot
  modify fun self => { self with value := (self.value.land unsetMask).lor (val <<< lsb) }

/-- The text of the exception for a name that no field has. -/
def notFound (fields : List Field) (fieldName : String) (mnemonic : Option String) : String :=
  "Field " ++ fieldName ++ " not found on instruction " ++ mnemonic.getD "None" ++
    ". Available fields: " ++ ", ".intercalate (fields.filterMap Field.name)

/-- `set_field` behind the filter, with the fields that matched. -/
def setMatched (fields : List Field) (fieldName : String) (newVal : Int) (noMatchFine : Bool)
    (mnemonic : Option String) : List Field → Method Unit
  | [] =>
    if noMatchFine then pure () else throw (.runtimeError (notFound fields fieldName mnemonic))
  | [field] => do
    if ¬newVal < (1 : Int) <<< (field.rangeEnd - field.rangeStart + 1) then throw .assertionError
    setValue field.rangeEnd field.rangeStart newVal
  | _ => throw .assertionError

/-- `set_field`. -/
def setField (fieldName : String) (newVal : Int) (noMatchFine : Bool) (mnemonic : Option String) :
    Method Unit := do
  let fields := (← get).mraInstruction.fields
  setMatched fields fieldName newVal noMatchFine mnemonic
    (fields.filter fun f => f.name = some fieldName)

/-- `set_field` as an attribute assignment calls it: how it ends, and the object afterwards. -/
def Instruction.assign (self : Instruction) (name : String) (v : Int) :
    Except FieldError Unit × Instruction :=
  (setField name v false none).run.run self

/-! ## A field of a word

`put` is what an assignment does to the word, bit by bit. -/

/-- What `set_value` makes of a word. -/
def put (value : Int) (f : Field) (v : Int) : Int :=
  (value.land (((1 : Int) <<< f.bits - 1) <<< f.rangeStart).lnot).lor (v <<< f.rangeStart)

theorem one_shiftLeft (k : Nat) : (1 : Int) <<< k = 2 ^ k := by
  rw [Int.shiftLeft_eq, Int.one_mul]

theorem testBit_put (value : Int) (f : Field) (v : Int) (i : Nat) :
    (put value f v).testBit i =
      ((value.testBit i && !decide (f.Covers i)) ||
        (decide (f.rangeStart ≤ i) && v.testBit (i - f.rangeStart))) := by
  have hcovers : decide (f.Covers i) =
      (decide (f.rangeStart ≤ i) && decide (i - f.rangeStart < f.bits)) := by
    have hle := f.start_le
    rw [← Bool.decide_and, decide_eq_decide, Field.Covers, Field.bits]
    omega
  rw [put, Int.testBit_lor, Int.testBit_land, Int.testBit_lnot, testBit_shiftLeft,
    testBit_shiftLeft, one_shiftLeft, testBit_two_pow_sub_one, hcovers]

/-- A number that fits the field changes the bits of the field only. -/
theorem testBit_put_of_fits (value : Int) (f : Field) {v : Int} (hv : 0 ≤ v) (hlt : v < 2 ^ f.bits)
    (i : Nat) : (put value f v).testBit i =
      if f.Covers i then v.testBit (i - f.rangeStart) else value.testBit i := by
  have hle := f.start_le
  rw [testBit_put]
  by_cases hcovers : f.Covers i
  · rw [if_pos hcovers, decide_eq_true hcovers, decide_eq_true hcovers.1]
    simp
  · rw [if_neg hcovers, decide_eq_false hcovers]
    by_cases hstart : f.rangeStart ≤ i
    · have hhigh : f.bits ≤ i - f.rangeStart := by
        rw [Field.Covers] at hcovers
        rw [Field.bits]
        omega
      rw [(lt_two_pow_iff hv f.bits).mp hlt _ hhigh]
      simp
    · rw [decide_eq_false hstart]
      simp

/-- The number in the bits of a field. -/
def extract (value : Int) (f : Field) : Int := (value >>> f.rangeStart).land (2 ^ f.bits - 1)

theorem testBit_extract (value : Int) (f : Field) (i : Nat) :
    (extract value f).testBit i = (value.testBit (f.rangeStart + i) && decide (i < f.bits)) := by
  rw [extract, Int.testBit_land, testBit_shiftRight, testBit_two_pow_sub_one]

theorem extract_nonneg (value : Int) (f : Field) : 0 ≤ extract value f := by
  apply nonneg_of_testBit f.bits
  intro i hi
  rw [testBit_extract, decide_eq_false (Nat.not_lt.mpr hi), Bool.and_false]

theorem covers_add {f : Field} {i : Nat} (hi : i < f.bits) : f.Covers (f.rangeStart + i) := by
  have hle := f.start_le
  rw [Field.bits] at hi
  exact ⟨Nat.le_add_right _ _, by omega⟩

/-- What was put in is read back. -/
theorem extract_put_self (value : Int) (f : Field) {v : Int} (hv : 0 ≤ v) (hlt : v < 2 ^ f.bits) :
    extract (put value f v) f = v := by
  apply eq_of_testBit_eq
  intro i
  rw [testBit_extract]
  by_cases hi : i < f.bits
  · rw [testBit_put_of_fits value f hv hlt, if_pos (covers_add hi), decide_eq_true hi,
      Nat.add_sub_cancel_left, Bool.and_true]
  · rw [decide_eq_false hi, Bool.and_false,
      (lt_two_pow_iff hv f.bits).mp hlt i (Nat.not_lt.mp hi)]

theorem extract_put_of_apart (value : Int) {f g : Field} (hapart : f.Apart g)
    {v : Int} (hv : 0 ≤ v) (hlt : v < 2 ^ f.bits) :
    extract (put value f v) g = extract value g := by
  apply eq_of_testBit_eq
  intro i
  rw [testBit_extract, testBit_extract]
  by_cases hi : i < g.bits
  · have hcovers : ¬f.Covers (g.rangeStart + i) := fun h => hapart _ h (covers_add hi)
    rw [testBit_put_of_fits value f hv hlt, if_neg hcovers]
  · rw [decide_eq_false hi, Bool.and_false, Bool.and_false]

theorem put_comm (value : Int) {f g : Field} (hapart : f.Apart g) {v w : Int}
    (hv : 0 ≤ v) (hlt : v < 2 ^ f.bits) (hw : 0 ≤ w) (hlt' : w < 2 ^ g.bits) :
    put (put value f v) g w = put (put value g w) f v := by
  apply eq_of_testBit_eq
  intro i
  rw [testBit_put_of_fits _ g hw hlt', testBit_put_of_fits _ f hv hlt,
    testBit_put_of_fits _ f hv hlt, testBit_put_of_fits _ g hw hlt']
  by_cases hf : f.Covers i
  · rw [if_neg (hapart i hf), if_pos hf, if_pos hf]
  · rw [if_neg hf, if_neg hf]

/-- The value of a word stays in 32 bits. -/
theorem put_range {value : Int} (hvalue : 0 ≤ value ∧ value < 2 ^ 32) (f : Field) {v : Int}
    (hv : 0 ≤ v) (hlt : v < 2 ^ f.bits) : 0 ≤ put value f v ∧ put value f v < 2 ^ 32 := by
  have hhigh : ∀ i, 32 ≤ i → (put value f v).testBit i = false := by
    intro i hi
    have hcovers : ¬f.Covers i := by
      rintro ⟨-, hle⟩
      have hend := f.end_lt
      omega
    rw [testBit_put_of_fits value f hv hlt, if_neg hcovers]
    exact (lt_two_pow_iff hvalue.1 32).mp hvalue.2 i hi
  have hnonneg := nonneg_of_testBit 32 hhigh
  exact ⟨hnonneg, (lt_two_pow_iff hnonneg 32).mpr hhigh⟩

/-! ## Assignments

The name of a field is its own, so an assignment finds one field or none. -/

/-- The instruction with another word. -/
def Instruction.withValue (self : Instruction) (value : Int) : Instruction :=
  { self with value := value }

/-- A name finds its field and no other. -/
theorem Entry.filter_name {entry : Entry} {f : Field} (hf : f ∈ entry.fields) {name : String}
    (hname : f.name = some name) :
    (entry.fields.filter fun f => f.name = some name) = [f] := by
  have hnodup := entry.names_nodup
  generalize entry.fields = fields at hf hnodup ⊢
  induction fields with
  | nil => exact absurd hf List.not_mem_nil
  | cons g fields ih =>
      -- the field with the name is the first one, and no later one has the name
      by_cases hg : g.name = some name
      · rw [List.filterMap_cons_some hg, List.nodup_cons] at hnodup
        have hrest : ∀ h ∈ fields, h.name ≠ some name := fun h hh heq =>
          hnodup.1 (List.mem_filterMap.mpr ⟨h, hh, heq⟩)
        have hfg : f = g := (List.mem_cons.mp hf).resolve_right fun hmem => hrest f hmem hname
        have hnil : fields.filter (fun f => f.name = some name) = [] :=
          List.filter_eq_nil_iff.mpr fun h hh => by
            rw [decide_eq_true_eq]
            exact hrest h hh
        rw [List.filter_cons, if_pos (decide_eq_true hg), hnil, hfg]
      · have hmem : f ∈ fields := (List.mem_cons.mp hf).resolve_left fun heq => hg (heq ▸ hname)
        rw [List.filter_cons, if_neg (by rw [decide_eq_true_eq]; exact hg)]
        apply ih hmem
        cases hgname : g.name with
        | none => rwa [List.filterMap_cons_none hgname] at hnodup
        | some other =>
            rw [List.filterMap_cons_some hgname, List.nodup_cons] at hnodup
            exact hnodup.2

variable {self : Instruction} {f : Field} {name : String} {v : Int}

/-- What `set_field` does, by the fields that match. -/
theorem assign_of_filter {self : Instruction} {name : String} {matched : List Field}
    (h : (self.mraInstruction.fields.filter fun f => f.name = some name) = matched) (v x : Int) :
    (self.withValue x).assign name v =
      ((setMatched self.mraInstruction.fields name v false none matched).run.run
        (self.withValue x)) := by
  rw [← h]
  rfl

theorem setMatched_of_fits (hlt : v < 2 ^ f.bits) (fields : List Field) :
    (setMatched fields name v false none [f]).run.run self =
      (.ok (), self.withValue (put self.value f v)) := by
  have hassert : ¬¬v < (1 : Int) <<< (f.rangeEnd - f.rangeStart + 1) := by
    rw [one_shiftLeft]
    exact not_not.mpr hlt
  simp only [setMatched, setValue, if_neg hassert]
  rfl

theorem setMatched_of_large (hle : 2 ^ f.bits ≤ v) (fields : List Field) :
    (setMatched fields name v false none [f]).run.run self = (.error .assertionError, self) := by
  have hassert : ¬v < (1 : Int) <<< (f.rangeEnd - f.rangeStart + 1) := by
    rw [one_shiftLeft]
    exact Int.not_lt.mpr hle
  simp only [setMatched, if_pos hassert]
  rfl

/-- An assignment changes the word in the one field of its name, or it is rejected. -/
theorem assign_cases (self : Instruction) (name : String) (v : Int) :
    (∃ f ∈ self.mraInstruction.fields, f.name = some name ∧ v < 2 ^ f.bits ∧ ∀ x,
      (self.withValue x).assign name v = (.ok (), self.withValue (put x f v))) ∨
    ∃ e, ∀ x, (self.withValue x).assign name v = (.error e, self.withValue x) := by
  by_cases hname : ∃ f ∈ self.mraInstruction.fields, f.name = some name
  · obtain ⟨f, hf, hfname⟩ := hname
    have hmatched := Entry.filter_name hf hfname
    by_cases hlt : v < 2 ^ f.bits
    · refine Or.inl ⟨f, hf, hfname, hlt, fun x => ?_⟩
      rw [assign_of_filter hmatched]
      exact setMatched_of_fits hlt _
    · refine Or.inr ⟨.assertionError, fun x => ?_⟩
      rw [assign_of_filter hmatched]
      exact setMatched_of_large (Int.not_lt.mp hlt) _
  · have hmatched : (self.mraInstruction.fields.filter fun f => f.name = some name) = [] :=
      List.filter_eq_nil_iff.mpr fun f hf => by
        rw [decide_eq_true_eq]
        exact fun hfname => hname ⟨f, hf, hfname⟩
    refine Or.inr ⟨.runtimeError (notFound self.mraInstruction.fields name none), fun x => ?_⟩
    rw [assign_of_filter hmatched]
    rfl

theorem getattr_withValue (self : Instruction) (x : Int) (name : String) :
    (self.withValue x).getattr name =
      (self.mraInstruction.fields.find? fun f => f.name = some name).map (extract x) := rfl

theorem getattr_eq {f : Field} (hf : f ∈ self.mraInstruction.fields) {name : String}
    (hname : f.name = some name) (x : Int) :
    (self.withValue x).getattr name = some (extract x f) := by
  have hfind : (self.mraInstruction.fields.find? fun f => f.name = some name) = some f := by
    rw [← List.head?_filter, Entry.filter_name hf hname]
    rfl
  rw [getattr_withValue, hfind]
  rfl

theorem Entry.apart_of_ne {entry : Entry} {f g : Field} (hf : f ∈ entry.fields)
    (hg : g ∈ entry.fields) (hne : f ≠ g) : f.Apart g := entry.apart.forall hf hg hne

/-! ## The law of assignments

What is assigned can be read back, and nothing else changes. For a negative number this fails, as
its bits go on above the field. -/

/-- What an assignment is expected to do: it keeps everything if it is rejected, and otherwise
changes the field to the number that is read back, and nothing else. -/
structure Instruction.Assigns (instr : Instruction) (name : String) (v : Int) : Prop where
  rejected : ∀ e self', instr.assign name v = (.error e, self') → self' = instr
  readBack : ∀ self', instr.assign name v = (.ok (), self') → self'.getattr name = some v
  others : ∀ self', instr.assign name v = (.ok (), self') → ∀ other, other ≠ name →
    self'.getattr other = instr.getattr other
  bits : ∀ self', instr.assign name v = (.ok (), self') → ∀ i,
    (∀ f ∈ instr.mraInstruction.fields, f.name = some name → ¬f.Covers i) →
      self'.value.testBit i = instr.value.testBit i
  range : ∀ self', instr.assign name v = (.ok (), self') → 0 ≤ self'.value ∧ self'.value < 2 ^ 32

/-- The order of two assignments does not matter. -/
def Instruction.Commute (self : Instruction) (name : String) (v : Int) (name' : String) (w : Int) :
    Prop :=
  ((self.assign name v).2.assign name' w).2 = ((self.assign name' w).2.assign name v).2

/-- No other field of the instruction changes. -/
theorem getattr_put_of_ne (hf : f ∈ self.mraInstruction.fields) (hname : f.name = some name)
    (hv : 0 ≤ v) (hlt : v < 2 ^ f.bits) {other : String} (hother : other ≠ name) (x : Int) :
    (self.withValue (put x f v)).getattr other = (self.withValue x).getattr other := by
  rw [getattr_withValue, getattr_withValue]
  cases hfind : self.mraInstruction.fields.find? fun f => f.name = some other with
  | none => rfl
  | some g =>
      have hg : g ∈ self.mraInstruction.fields := List.mem_of_find?_eq_some hfind
      have hgname := List.find?_some hfind
      rw [decide_eq_true_eq] at hgname
      have hne : f ≠ g := by
        rintro rfl
        exact hother (Option.some.inj (hgname.symm.trans hname))
      exact congrArg some (extract_put_of_apart x (Entry.apart_of_ne hf hg hne) hv hlt)

/-- An assignment does what is expected of it unless it is to a field and of a negative number. -/
theorem assigns_iff (hvalue : 0 ≤ self.value ∧ self.value < 2 ^ 32) :
    self.Assigns name v ↔ ∀ f ∈ self.mraInstruction.fields, f.name = some name → 0 ≤ v := by
  constructor
  · intro h f hf hname
    by_contra hneg
    rw [Int.not_le] at hneg
    have hlt : v < 2 ^ f.bits := Int.lt_trans hneg (Int.pow_pos (by decide))
    have hok : self.assign name v = (.ok (), self.withValue (put self.value f v)) :=
      (assign_of_filter (Entry.filter_name hf hname) v self.value).trans (setMatched_of_fits hlt _)
    -- a negative number passes the assertion, but is read back as one that is not negative
    have hread := h.readBack _ hok
    rw [getattr_eq hf hname] at hread
    have hnonneg := extract_nonneg (put self.value f v) f
    rw [Option.some.inj hread] at hnonneg
    exact absurd hneg (Int.not_lt.mpr hnonneg)
  · intro hpos
    -- the number is put into the field, or the assignment raises and changes nothing
    rcases assign_cases self name v with ⟨f, hf, hname, hlt, hassign⟩ | ⟨e, hassign⟩
    · have hok : self.assign name v = (.ok (), self.withValue (put self.value f v)) :=
        hassign self.value
      have hv := hpos f hf hname
      have hself : ∀ self', self.assign name v = (.ok (), self') →
          self' = self.withValue (put self.value f v) := by
        intro self' h
        rw [hok] at h
        exact (Prod.mk.inj h).2.symm
      constructor
      · intro e self' h
        rw [hok] at h
        cases h
      · intro self' h
        rw [hself self' h, getattr_eq hf hname, extract_put_self _ f hv hlt]
      · intro self' h other hother
        rw [hself self' h]
        exact getattr_put_of_ne hf hname hv hlt hother self.value
      · intro self' h i hi
        rw [hself self' h]
        show (put self.value f v).testBit i = _
        rw [testBit_put_of_fits _ f hv hlt, if_neg (hi f hf hname)]
      · intro self' h
        rw [hself self' h]
        exact put_range hvalue f hv hlt
    · have herror : self.assign name v = (.error e, self) := hassign self.value
      constructor
      · intro e' self' h
        rw [herror] at h
        exact (Prod.mk.inj h).2.symm
      all_goals
        intro self' h
        rw [herror] at h
        cases h

/-- Assignments to different names that are as expected commute. -/
theorem commute_of_nonneg {name' : String} (hne : name ≠ name') {w : Int}
    (hv : ∀ f ∈ self.mraInstruction.fields, f.name = some name → 0 ≤ v)
    (hw : ∀ f ∈ self.mraInstruction.fields, f.name = some name' → 0 ≤ w) :
    self.Commute name v name' w := by
  show (((self.withValue self.value).assign name v).2.assign name' w).2 =
    (((self.withValue self.value).assign name' w).2.assign name v).2
  rcases assign_cases self name v with ⟨f, hf, hname, hlt, hassign⟩ | ⟨e, hassign⟩
  · rcases assign_cases self name' w with ⟨g, hg, hname', hlt', hassign'⟩ | ⟨e', hassign'⟩
    · have hfg : f ≠ g := by
        rintro rfl
        exact hne (Option.some.inj (hname.symm.trans hname'))
      simp only [hassign, hassign']
      rw [put_comm self.value (Entry.apart_of_ne hf hg hfg) (hv f hf hname) hlt (hw g hg hname')
        hlt']
    · simp only [hassign, hassign']
  · rcases assign_cases self name' w with ⟨g, hg, hname', hlt', hassign'⟩ | ⟨e', hassign'⟩
    · simp only [hassign, hassign']
    · simp only [hassign, hassign']

/-- Two assignments to different names are as expected, and commute, if and only if none is of a
negative number to a field. -/
theorem assignments_iff (self : Instruction) (hvalue : 0 ≤ self.value ∧ self.value < 2 ^ 32)
    {name name' : String} (hne : name ≠ name') (v w : Int) :
    (self.Assigns name v ∧ self.Assigns name' w ∧ self.Commute name v name' w) ↔
      (∀ f ∈ self.mraInstruction.fields, f.name = some name → 0 ≤ v) ∧
        ∀ f ∈ self.mraInstruction.fields, f.name = some name' → 0 ≤ w := by
  constructor
  · rintro ⟨hassign, hassign', -⟩
    exact ⟨(assigns_iff hvalue).mp hassign, (assigns_iff hvalue).mp hassign'⟩
  · rintro ⟨hv, hw⟩
    exact ⟨(assigns_iff hvalue).mpr hv, (assigns_iff hvalue).mpr hw, commute_of_nonneg hne hv hw⟩

def Field.named (name : String) (rangeEnd rangeStart : Nat)
    (h : rangeStart ≤ rangeEnd ∧ rangeEnd < 32) : Field :=
  ⟨some name, rangeEnd, rangeStart, h.1, h.2⟩

def addiFields : List Field :=
  [.named "imm12" 31 20 (by decide), .named "rs1" 19 15 (by decide), .named "rd" 11 7 (by decide)]

theorem addiFields_apart : addiFields.Pairwise Field.Apart := by
  simp only [addiFields, List.pairwise_cons, List.mem_cons, Field.Apart, Field.Covers, Field.named]
  grind

theorem addiFields_names_nodup : (addiFields.filterMap Field.name).Nodup := by decide

/-- An `addi` with the fields that stay open. -/
def addi : Instruction where
  mnemonic := "addi"
  mraInstruction := ⟨addiFields, addiFields_apart, addiFields_names_nodup⟩
  value := 0x13

theorem assignments_iff_addi :
    addi.Assigns "rd" 1 ∧ addi.Assigns "rs1" 2 ∧ addi.Commute "rd" 1 "rs1" 2 := by
  apply (assignments_iff addi (by decide) (by decide) 1 2).mpr
  exact ⟨fun _ _ _ => by decide, fun _ _ _ => by decide⟩

/-- A negative number is let through, and sets all bits of the word from the field on. -/
theorem negative_not_assigns : ¬addi.Assigns "rd" (-1) := by
  rw [assigns_iff (by decide)]
  intro h
  have hrd := h (.named "rd" 11 7 (by decide)) (by simp [addi, addiFields]) rfl
  exact absurd hrd (by decide)

end SetField

end RISCover
