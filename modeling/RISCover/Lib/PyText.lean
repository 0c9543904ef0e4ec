import RISCover.Lib.Scanf
import Mathlib.Data.List.DropRight

/-!
# Texts and integers in Python

The string methods and the calls of `int` that a line parser in Python is made of. `pyInt0` is
`int(_, 0)`, which reads a number in the base its prefix names; on a number that was written in base
ten or sixteen it is given by `pyInt0_dec` and `pyInt0_0x`. Digits are the ASCII ones.
-/

namespace Text

/-! ## White space

`str.strip` and `str.split` know more characters as white space than C does. -/

/-- `str.isspace`. -/
def isPySpace (c : Char) : Bool :=
  let n := c.toNat
  (9 ≤ n && n ≤ 13) || (28 ≤ n && n ≤ 32) || n == 0x85 || n == 0xa0 || n == 0x1680 ||
    (0x2000 ≤ n && n ≤ 0x200a) || n == 0x2028 || n == 0x2029 || n == 0x202f || n == 0x205f ||
    n == 0x3000

/-- `str.strip`. -/
def pyStrip (t : Text) : Text := (t.dropWhile isPySpace).rdropWhile isPySpace

/-- `str.split` at white space. -/
def pySplit (t : Text) : List Text := (t.splitOnP isPySpace).filter (· ≠ [])

/-- The second part of `str.split` with one separator, where there is one. -/
def pySplitOnce (sep : Char) (t : Text) : Option Text :=
  match t.dropWhile (· ≠ sep) with
  | [] => none
  | _ :: rest => some rest

theorem isPySpace_of_isSpace {c : Char} (h : isSpace c = true) : isPySpace c = true := by
  simp only [isSpace, Bool.or_eq_true, beq_iff_eq] at h
  obtain ((((rfl | rfl) | rfl) | rfl) | rfl) | rfl := h <;> rfl

theorem not_isPySpace_of_isHex {c : Char} (h : isHex c = true) : isPySpace c = false := by
  have hcode : c.toNat < 128 ∧ 48 ≤ c.toNat := by
    simp only [isHex, hexNibble, Char.le_def, UInt32.le_iff_toNat_le] at h
    split_ifs at h with h₁ h₂ h₃
    · exact ⟨Nat.lt_of_le_of_lt h₁.2 (by decide), h₁.1⟩
    · exact ⟨Nat.lt_of_le_of_lt h₂.2 (by decide), Nat.le_trans (by decide) h₂.1⟩
    · exact ⟨Nat.lt_of_le_of_lt h₃.2 (by decide), Nat.le_trans (by decide) h₃.1⟩
    · exact Bool.noConfusion h
  simp only [isPySpace, Bool.or_eq_false_iff, Bool.and_eq_false_iff, decide_eq_false_iff_not,
    beq_eq_false_iff_ne]
  omega

theorem pyStrip_eq_nil_iff {t : Text} : pyStrip t = [] ↔ ∀ c ∈ t, isPySpace c = true := by
  rw [pyStrip, List.rdropWhile_eq_nil_iff]
  constructor
  · intro h
    rw [← List.dropWhile_eq_nil_iff]
    cases hdrop : t.dropWhile isPySpace with
    | nil => rfl
    | cons c cs =>
        -- the first character that is left would be white space
        have hhead := List.head_dropWhile_not isPySpace (by rw [hdrop]; exact List.cons_ne_nil c cs)
        simp only [hdrop, List.head_cons] at hhead
        have hc := h c (by rw [hdrop]; exact List.mem_cons_self)
        rw [hc] at hhead
        exact Bool.noConfusion hhead
  · intro h c hc
    exact h c ((List.dropWhile_suffix isPySpace).subset hc)

/-- White space in front of anything else is stripped. -/
theorem pyStrip_append {ws t : Text} (hws : ∀ c ∈ ws, isPySpace c = true)
    (ht : ∀ c ∈ t, isPySpace c = false) : pyStrip (ws ++ t) = t := by
  have hdrop : (ws ++ t).dropWhile isPySpace = t := by
    rw [List.dropWhile_append_of_pos hws]
    cases t with
    | nil => rfl
    | cons c t => simp [ht c List.mem_cons_self]
  rw [pyStrip, hdrop, List.rdropWhile_eq_self_iff]
  intro hne
  rw [ht _ (List.getLast_mem hne)]
  exact Bool.false_ne_true

/-- A word at the beginning of a line. -/
theorem pySplit_append {w : Text} (hne : w ≠ []) (hw : ∀ c ∈ w, isPySpace c = false) {sep : Char}
    (hsep : isPySpace sep = true) (t : Text) : pySplit (w ++ sep :: t) = w :: pySplit t := by
  unfold pySplit
  rw [List.splitOnP_append_cons_of_forall_mem hw sep hsep, List.filter_cons_of_pos]
  exact decide_eq_true hne

theorem pySplitOnce_append {sep : Char} {p : Text} (hp : sep ∉ p) (t : Text) :
    pySplitOnce sep (p ++ sep :: t) = some t := by
  have hall : ∀ c ∈ p, decide (c ≠ sep) = true := fun c hc => decide_eq_true fun h => hp (h ▸ hc)
  rw [pySplitOnce, List.dropWhile_append_of_pos hall]
  simp

/-! ## Integers

`int` allows a sign, single underscores between digits, and a prefix that has to fit the base. -/

/-- Digits of a base, with single underscores between them. -/
def pyDigits (b : Nat) (t : Text) : Option Nat :=
  if (t.splitOn '_').all fun ds => ds ≠ [] && ds.all (isBase b) then
    some (ofBase b (t.splitOn '_').flatten)
  else none

/-- The underscore that may stand behind a prefix. -/
def dropUnderscore : Text → Text
  | '_' :: t => t
  | t => t

/-- The digits of `int(_, 0)` with their prefix; a decimal number has no leading zeros. -/
def pyMagnitude : Text → Option Nat
  | '0' :: 'x' :: t => pyDigits 16 (dropUnderscore t)
  | '0' :: 'X' :: t => pyDigits 16 (dropUnderscore t)
  | '0' :: 'o' :: t => pyDigits 8 (dropUnderscore t)
  | '0' :: 'O' :: t => pyDigits 8 (dropUnderscore t)
  | '0' :: 'b' :: t => pyDigits 2 (dropUnderscore t)
  | '0' :: 'B' :: t => pyDigits 2 (dropUnderscore t)
  | t => (pyDigits 10 t).filter fun n => n = 0 || t.head? ≠ some '0'

/-- `int(t)`; `none` stands for a `ValueError`. -/
def pyInt (t : Text) : Option Int :=
  let (neg, t) := scanSign (pyStrip t)
  (pyDigits 10 t).map fun n => if neg then -↑n else ↑n

/-- `int(t, 0)`. -/
def pyInt0 (t : Text) : Option Int :=
  let (neg, t) := scanSign (pyStrip t)
  (pyMagnitude t).map fun n => if neg then -↑n else ↑n

/-- The prefix that base two or sixteen allows. -/
def dropBasePrefix : Nat → Text → Text
  | 2, '0' :: 'b' :: t => dropUnderscore t
  | 2, '0' :: 'B' :: t => dropUnderscore t
  | 16, '0' :: 'x' :: t => dropUnderscore t
  | 16, '0' :: 'X' :: t => dropUnderscore t
  | _, t => t

/-- `int(t, b)` for base two and sixteen. -/
def pyIntBase (b : Nat) (t : Text) : Option Int :=
  let (neg, t) := scanSign (pyStrip t)
  (pyDigits b (dropBasePrefix b t)).map fun n => if neg then -↑n else ↑n

theorem pyDigits_of_isBase {b : Nat} {ds : Text} (hds : ∀ c ∈ ds, isBase b c = true)
    (hne : ds ≠ []) : pyDigits b ds = some (ofBase b ds) := by
  have hno : '_' ∉ ds := fun h => absurd (isHex_of_isBase (hds _ h)) (by decide)
  rw [pyDigits, List.splitOn_eq_singleton hno, if_pos]
  · simp
  · simpa [hne] using hds

theorem pyMagnitude_dec (n : Nat) : pyMagnitude (dec n) = some n := by
  have hdigits : pyDigits 10 (dec n) = some n := by
    rw [pyDigits_of_isBase (isBase_dec n) (dec_ne_nil n), ofBase_dec]
  rcases Nat.eq_zero_or_pos n with rfl | hn
  · decide
  · have hhead := head?_dec hn
    obtain ⟨c, cs, heq⟩ := List.exists_cons_of_ne_nil (dec_ne_nil n)
    rw [heq] at hhead hdigits ⊢
    have hc : c ≠ '0' := fun h => hhead (congrArg some h)
    simp [pyMagnitude, hc, hdigits]

theorem pyInt_dec (n : Nat) : pyInt (dec n) = some (n : Int) := by
  have hspace : ∀ c ∈ dec n, isPySpace c = false := fun c hc =>
    not_isPySpace_of_isHex (isHex_of_isBase (isBase_dec n c hc))
  have hstrip : pyStrip (dec n) = dec n :=
    pyStrip_append (fun c hc => absurd hc List.not_mem_nil) hspace
  have hsign : scanSign (dec n) = (false, dec n) := by
    obtain ⟨c, cs, heq⟩ := List.exists_cons_of_ne_nil (dec_ne_nil n)
    have hc : isHex c = true :=
      isHex_of_isBase (isBase_dec n c (by rw [heq]; exact List.mem_cons_self))
    rw [heq]
    have hscan := scanSign_digit hc cs
    rwa [lstrip_cons_of_not_space cs (not_isSpace_of_isHex hc)] at hscan
  unfold pyInt
  rw [hstrip, hsign]
  show (pyDigits 10 (dec n)).map (fun n => if false = true then -(↑n : Int) else ↑n) = _
  rw [pyDigits_of_isBase (isBase_dec n) (dec_ne_nil n), ofBase_dec]
  rfl

theorem pyInt0_append {ws t : Text} (hws : ∀ c ∈ ws, isPySpace c = true)
    (ht : ∀ c ∈ t, isPySpace c = false) (hsign : scanSign t = (false, t)) :
    pyInt0 (ws ++ t) = (pyMagnitude t).map fun n => (↑n : Int) := by
  rw [pyInt0, pyStrip_append hws ht, hsign]
  rfl

variable {ws : Text}

/-- `int(_, 0)` reads what `%lu` writes. -/
theorem pyInt0_dec (hws : ∀ c ∈ ws, isPySpace c = true) (n : Nat) :
    pyInt0 (ws ++ dec n) = some (↑n : Int) := by
  have hsign : scanSign (dec n) = (false, dec n) := by
    have hscan := scanSign_dec n []
    obtain ⟨c, cs, heq⟩ := List.exists_cons_of_ne_nil (dec_ne_nil n)
    have hc : isHex c = true := by
      apply isHex_of_isBase
      apply isBase_dec n
      rw [heq]
      exact List.mem_cons_self
    rw [List.append_nil, heq, lstrip_cons_of_not_space _ (not_isSpace_of_isHex hc)] at hscan
    rw [heq]
    exact hscan
  rw [pyInt0_append hws (fun c hc => not_isPySpace_of_isHex (isHex_of_isBase (isBase_dec n c hc)))
    hsign, pyMagnitude_dec]
  rfl

/-- `int(_, 0)` reads hexadecimal digits behind their prefix. -/
theorem pyInt0_0x (hws : ∀ c ∈ ws, isPySpace c = true) {x : Char} (hx : x = 'x' ∨ x = 'X')
    {ds : Text} (hds : ∀ c ∈ ds, isBase 16 c = true) (hne : ds ≠ []) :
    pyInt0 (ws ++ '0' :: x :: ds) = some (↑(ofBase 16 ds) : Int) := by
  have hspace : ∀ c ∈ '0' :: x :: ds, isPySpace c = false := by
    intro c hc
    rw [List.mem_cons, List.mem_cons] at hc
    rcases hc with rfl | rfl | hc
    · rfl
    · rcases hx with rfl | rfl <;> rfl
    · exact not_isPySpace_of_isHex (isHex_of_isBase (hds c hc))
  have hunder : dropUnderscore ds = ds := by
    unfold dropUnderscore
    split
    next => exact absurd (isHex_of_isBase (hds '_' List.mem_cons_self)) (by decide)
    next => rfl
  have hmagnitude : pyMagnitude ('0' :: x :: ds) = some (ofBase 16 ds) := by
    rcases hx with rfl | rfl
    · show pyDigits 16 (dropUnderscore ds) = _
      rw [hunder, pyDigits_of_isBase hds hne]
    · show pyDigits 16 (dropUnderscore ds) = _
      rw [hunder, pyDigits_of_isBase hds hne]
  rw [pyInt0_append hws hspace rfl, hmagnitude]
  rfl

end Text
