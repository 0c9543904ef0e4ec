import RISCover.Lib.Text

/-!
# Coloured pairs of numbers

The printers of `hexdiff.h` that show two numbers next to each other, with the differing digits in
yellow. The ones of a fixed width compare the digits of the same weight (`nibblesAgainst`).
`fprint_hex_pair_diff_0x_ul` prints the numbers without leading zeros and compares the texts,
shifted by the difference of their lengths: to the wrong side (`digitsAgainst_hex`).
-/

open Text

namespace RISCover

/-- A printed character, maybe between `COLOR_YELLOW` and `COLOR_RESET`. -/
inductive DiffChar where
  | plain (c : Char)
  | yellow (c : Char)
  deriving DecidableEq

namespace DiffChar

def of (colorOn : Bool) (c : Char) (differs : Bool) : DiffChar :=
  if colorOn && differs then .yellow c else .plain c

def char : DiffChar → Char
  | plain c => c
  | yellow c => c

theorem char_of (colorOn : Bool) (c : Char) (differs : Bool) : (of colorOn c differs).char = c := by
  unfold of
  split <;> rfl

theorem of_true_inj {c : Char} {p q : Bool} : of true c p = of true c q ↔ p = q := by
  cases p <;> cases q <;> simp [of]

end DiffChar

/-- `fputs`. -/
def plainText (s : String) : List DiffChar := s.toList.map .plain

/-! ## A fixed width

Every digit is compared with the digit of the same weight. -/

/-- `(n >> (i * 4)) & 0xF`. -/
def nibbleAt (n : UInt64) (i : Nat) : Nat := (n.toNat >>> (i * 4)) &&& 0xF

/-- The loop over the digits of `a`, next to those of `b`. -/
def nibblesAgainst (colorOn : Bool) (a b : UInt64) (widthNibbles : Nat) : List DiffChar :=
  (List.range widthNibbles).reverse.map fun i =>
    let ca := nibbleAt a i
    let cb := nibbleAt b i
    DiffChar.of colorOn ("0123456789abcdef".toList.getD ca '0') (ca != cb)

/-- `fprint_hex_pair_diff_0x_fixed_ul`. -/
def hexPairDiffFixed (colorOn : Bool) (a b : UInt64) (widthNibbles : Nat) : List DiffChar :=
  plainText "0x" ++ nibblesAgainst colorOn a b widthNibbles ++
    (plainText " -> 0x" ++ nibblesAgainst colorOn b a widthNibbles)

theorem nibbleAt_eq (n : UInt64) (i : Nat) : nibbleAt n i = hexDigit n.toNat i := by
  have hpow : 2 ^ (i * 4) = 16 ^ i := by rw [Nat.mul_comm, Nat.pow_mul]
  rw [nibbleAt, hexDigit, Nat.shiftRight_eq_div_pow, hpow]
  exact Nat.and_two_pow_sub_one_eq_mod _ 4

theorem getD_digits {d : Nat} (h : d < 16) :
    "0123456789abcdef".toList.getD d '0' = d.digitChar := by
  have hall : ∀ e < 16, "0123456789abcdef".toList.getD e '0' = e.digitChar := by decide
  exact hall d h

theorem nibblesAgainst_eq (colorOn : Bool) (a b : UInt64) (width : Nat) :
    nibblesAgainst colorOn a b width = (List.range width).reverse.map fun k =>
      DiffChar.of colorOn (hexDigit a.toNat k).digitChar
        (hexDigit a.toNat k != hexDigit b.toNat k) := by
  apply List.map_congr_left
  intro k _
  show DiffChar.of colorOn ("0123456789abcdef".toList.getD (nibbleAt a k) '0') _ = _
  rw [nibbleAt_eq, nibbleAt_eq, getD_digits (hexDigit_lt _ k)]

/-! ## Without leading zeros

The index into the other text does not line up the last digits when the texts have different
lengths. `comparedWith` is the number that is compared with instead. -/

/-- `snprintf` into a buffer. -/
def snprintf (size : Nat) (t : Text) : Text := t.take (size - 1)

/-- One of the two loops: the digits of `sa`, next to those of `sb`. -/
def digitsAgainst (colorOn : Bool) (sa sb : Text) : List DiffChar :=
  let la := sa.length
  let lb := sb.length
  let L := if la > lb then la else lb
  (List.range la).map fun i : Nat =>
    let j : Int := (i : Int) - ((L : Int) - la)
    let ca := sa.getD i '0'
    let cb := if 0 ≤ j ∧ j < lb then sb.getD j.toNat '0' else '0'
    DiffChar.of colorOn ca (ca != cb)

/-- `fprint_hex_pair_diff_0x_ul`. -/
def hexPairDiff (colorOn : Bool) (a b : UInt64) : List DiffChar :=
  let sa := snprintf 17 (hex a.toNat)
  let sb := snprintf 17 (hex b.toNat)
  plainText "0x" ++ digitsAgainst colorOn sa sb ++
    (plainText " -> 0x" ++ digitsAgainst colorOn sb sa)

/-- The buffers are large enough. -/
theorem snprintf_hex (n : UInt64) : snprintf 17 (hex n.toNat) = hex n.toNat := by
  apply List.take_of_length_le
  apply length_hex_le (Nat.succ_pos 15)
  exact Nat.lt_of_lt_of_le n.toNat_lt (Nat.le_of_eq rfl)

/-- The number whose digits the loop over `la` digits compares with, where the other number has `lb`
digits: a shorter one is shifted to the left end, a longer one is shifted by twice the
difference. -/
def comparedWith (la lb other : Nat) : Nat :=
  if lb ≤ la then other * 16 ^ (la - lb) else other / 16 ^ (2 * (lb - la))

section loops

variable (m n : Nat)

/-- The digit that the loop finds in the other text. -/
theorem compared_digit {i : Nat} (hi : i < (hex m).length) :
    let la := (hex m).length
    let lb := (hex n).length
    let L := if la > lb then la else lb
    let j : Int := (i : Int) - ((L : Int) - la)
    (if 0 ≤ j ∧ j < lb then (hex n).getD j.toNat '0' else '0') =
      (hexDigit (comparedWith la lb n) (la - 1 - i)).digitChar := by
  intro la lb L j
  have hzero : Nat.digitChar 0 = '0' := rfl
  have hget : ∀ k < lb, (hex n).getD k '0' = (hexDigit n (lb - 1 - k)).digitChar := by
    intro k hk
    rw [List.getD_eq_getElem?_getD, getElem?_hex n k hk, Option.getD_some]
  rw [comparedWith]
  -- the longer of the two decides what the index is shifted by
  by_cases hle : lb ≤ la
  · have hL : L = la := by grind
    have hj : j = i := by omega
    rw [if_pos hle, hj, Int.toNat_natCast]
    split
    next hlt =>
      have hk : la - 1 - i = lb - 1 - i + (la - lb) := by omega
      rw [hget i (by omega), hk, hexDigit_mul_add]
    next hge =>
      rw [hexDigit_mul_of_lt n (by omega), hzero]
  · have hL : L = lb := by grind
    rw [if_neg hle, hexDigit_div]
    split
    next hlt =>
      have hk : la - 1 - i + 2 * (lb - la) = lb - 1 - j.toNat := by omega
      rw [hget j.toNat (by omega), hk]
    next hge =>
      have hlong : lb ≤ la - 1 - i + 2 * (lb - la) := by omega
      rw [hexDigit_of_length_le hlong, hzero]

theorem digitsAgainst_hex (colorOn : Bool) : digitsAgainst colorOn (hex m) (hex n) =
    (List.range (hex m).length).reverse.map fun k =>
      DiffChar.of colorOn (hexDigit m k).digitChar
        (hexDigit m k != hexDigit (comparedWith (hex m).length (hex n).length n) k) := by
  have hreverse : (List.range (hex m).length).reverse =
      (List.range (hex m).length).map ((hex m).length - 1 - ·) := by
    have h := @List.reverse_range' 0 (hex m).length
    rw [← List.range_eq_range', Nat.zero_add] at h
    exact h
  rw [hreverse, List.map_map]
  apply List.map_congr_left
  intro i hi
  have hlt : i < (hex m).length := List.mem_range.mp hi
  have hget : (hex m).getD i '0' = (hexDigit m ((hex m).length - 1 - i)).digitChar := by
    rw [List.getD_eq_getElem?_getD, getElem?_hex m i hlt, Option.getD_some]
  show DiffChar.of colorOn ((hex m).getD i '0') ((hex m).getD i '0' != _) = _
  rw [compared_digit m n hlt, hget]
  congr 1
  rw [Bool.eq_iff_iff, bne_iff_ne, bne_iff_ne]
  exact not_congr (digitChar_inj (hexDigit_lt _ _) (hexDigit_lt _ _))

end loops

/-! ## What is coloured

A digit is coloured exactly when it differs from the digit of the same weight: for which pairs of
numbers this is so. -/

def hexLength (n : UInt64) : Nat := (hex n.toNat).length

/-- The digits without leading zeros, coloured as in the loops of a fixed width. -/
def ShowsDiff (a b : UInt64) : Prop :=
  hexPairDiff true a b =
    plainText "0x" ++ nibblesAgainst true a b (hexLength a) ++
      (plainText " -> 0x" ++ nibblesAgainst true b a (hexLength b))

instance (a b : UInt64) : Decidable (ShowsDiff a b) := inferInstanceAs (Decidable (_ = _))

/-- Numbers of one length are to look as they do with a fixed width. -/
theorem showsDiff_iff_fixed {a b : UInt64} (h : hexLength a = hexLength b) :
    ShowsDiff a b ↔ hexPairDiff true a b = hexPairDiffFixed true a b (hexLength a) := by
  rw [ShowsDiff, hexPairDiffFixed, h]

theorem map_char_digitsAgainst (colorOn : Bool) (sa sb : Text) :
    (digitsAgainst colorOn sa sb).map DiffChar.char = sa := by
  apply List.ext_getElem
  · rw [digitsAgainst, List.length_map, List.length_map, List.length_range]
  · intro i hi hsa
    simp only [digitsAgainst, List.map_map, List.getElem_map, List.getElem_range,
      Function.comp_apply, DiffChar.char_of]
    exact List.getElem_eq_getD _ |>.symm

/-- Whatever is coloured, both numbers are printed. -/
theorem map_char_hexPairDiff (colorOn : Bool) (a b : UInt64) :
    (hexPairDiff colorOn a b).map DiffChar.char =
      "0x".toList ++ hex a.toNat ++ (" -> 0x".toList ++ hex b.toNat) := by
  have hplain : ∀ s, (plainText s).map DiffChar.char = s.toList := by
    intro s
    rw [plainText, List.map_map]
    exact List.map_id _
  rw [hexPairDiff, snprintf_hex, snprintf_hex]
  simp only [List.map_append, map_char_digitsAgainst, hplain]

theorem digitsAgainst_hexLength (colorOn : Bool) (a b : UInt64) :
    digitsAgainst colorOn (hex a.toNat) (hex b.toNat) =
      (List.range (hexLength a)).reverse.map fun k =>
        DiffChar.of colorOn (hexDigit a.toNat k).digitChar
          (hexDigit a.toNat k !=
            hexDigit (comparedWith (hexLength a) (hexLength b) b.toNat) k) :=
  digitsAgainst_hex a.toNat b.toNat colorOn

/-- Both loops colour the same digits if each finds the same differences. -/
theorem digitsAgainst_eq_nibblesAgainst_iff (a b : UInt64) :
    digitsAgainst true (hex a.toNat) (hex b.toNat) = nibblesAgainst true a b (hexLength a) ↔
      ∀ k < hexLength a,
        (hexDigit a.toNat k = hexDigit (comparedWith (hexLength a) (hexLength b) b.toNat) k ↔
          hexDigit a.toNat k = hexDigit b.toNat k) := by
  rw [digitsAgainst_hexLength, nibblesAgainst_eq, List.map_inj_left]
  simp only [List.mem_reverse, List.mem_range, DiffChar.of_true_inj]
  refine forall₂_congr fun k _ => ?_
  rw [Bool.eq_iff_iff, bne_iff_ne, bne_iff_ne, not_iff_not]

theorem showsDiff_iff_loops (a b : UInt64) : ShowsDiff a b ↔
    digitsAgainst true (hex a.toNat) (hex b.toNat) = nibblesAgainst true a b (hexLength a) ∧
      digitsAgainst true (hex b.toNat) (hex a.toNat) = nibblesAgainst true b a (hexLength b) := by
  have hlength : (digitsAgainst true (hex a.toNat) (hex b.toNat)).length =
      (nibblesAgainst true a b (hexLength a)).length := by
    rw [digitsAgainst_hexLength, nibblesAgainst_eq, List.length_map, List.length_map]
  rw [ShowsDiff, hexPairDiff, snprintf_hex, snprintf_hex]
  constructor
  · intro h
    obtain ⟨hleft, hright⟩ := List.append_inj h (by
      rw [List.length_append, List.length_append, hlength])
    exact ⟨List.append_cancel_left hleft, List.append_cancel_left hright⟩
  · rintro ⟨hleft, hright⟩
    rw [hleft, hright]

/-- Numbers of one length are not shifted. -/
theorem comparedWith_self (l other : Nat) : comparedWith l l other = other := by
  rw [comparedWith, if_pos (Nat.le_refl l), Nat.sub_self, Nat.pow_zero, Nat.mul_one]

/-- The colours are right for two numbers of the same length, and otherwise only if the digits of
each agree with those of the other one, shifted, where they agree with those of the other one. -/
theorem showsDiff_iff (a b : UInt64) :
    ShowsDiff a b ↔ hexLength a = hexLength b ∨
      (∀ k < hexLength a,
        hexDigit a.toNat k = hexDigit (comparedWith (hexLength a) (hexLength b) b.toNat) k ↔
          hexDigit a.toNat k = hexDigit b.toNat k) ∧
      ∀ k < hexLength b,
        hexDigit b.toNat k = hexDigit (comparedWith (hexLength b) (hexLength a) a.toNat) k ↔
          hexDigit b.toNat k = hexDigit a.toNat k := by
  rw [showsDiff_iff_loops, digitsAgainst_eq_nibblesAgainst_iff,
    digitsAgainst_eq_nibblesAgainst_iff]
  refine ⟨Or.inr, fun h => ?_⟩
  rcases h with heq | h
  · constructor
    · intro k _
      rw [heq, comparedWith_self]
    · intro k _
      rw [heq, comparedWith_self]
  · exact h

/-- `0x11 -> 0x1`: the wrong one of the first two digits is yellow. -/
theorem not_showsDiff : ¬ShowsDiff 0x11 0x1 := by
  decide

end RISCover
