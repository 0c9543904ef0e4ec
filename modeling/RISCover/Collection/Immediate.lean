import Mathlib.Data.List.Sort
import Mathlib.Data.Nat.Bitwise
import RISCover.Lib.Choices

/-!
# Random immediates of the server

The classes of `immediate.py`: an immediate is drawn from a list of interesting numbers or at
random, and scattered over the ranges of bits that it has in the word.
-/

open Choices Runs

namespace RISCover

/-- The exceptions that the server's generator may raise. -/
inductive InitError where
  | assertionError
  | keyError
  | indexError
  | valueError
  deriving DecidableEq

/-- `SignedImmediate` and `UnsignedImmediate`. -/
inductive ImmediateClass where
  | signed
  | unsigned

/-- An object of one of the two classes. -/
structure Immediate where
  cls : ImmediateClass
  ranges : List (Nat × Nat)
  range_le : ∀ r ∈ ranges, r.2 ≤ r.1

namespace Immediate

/-- `__init__`, which sorts the ranges. -/
def init (cls : ImmediateClass) (ranges : List (Nat × Nat)) (h : ∀ r ∈ ranges, r.2 ≤ r.1) :
    Immediate where
  cls := cls
  ranges := ranges.insertionSort fun p q => p.1 < q.1 ∨ p.1 = q.1 ∧ p.2 ≤ q.2
  range_le r hr := h r ((List.mem_insertionSort _).mp hr)

def bits (self : Immediate) : Nat := (self.ranges.map fun (msb, lsb) => msb - lsb + 1).sum

def max (self : Immediate) : Int :=
  match self.cls with
  | .signed => 2 ^ (self.bits - 1) - 1
  | .unsigned => 2 ^ self.bits - 1

def min (self : Immediate) : Int :=
  match self.cls with
  | .signed => -2 ^ (self.bits - 1)
  | .unsigned => 0

/-- `twos`, called with numbers between `min` and `max` only. -/
def twos (self : Immediate) (n : Int) : Nat :=
  if n < 0 then (2 ^ self.bits + n).toNat else n.toNat

/-- `nums`; `none` generates a random number. -/
def nums (self : Immediate) : List (Option Nat) :=
  match self.cls with
  | .signed =>
    [some (self.twos (-1)), some (self.twos 0), some (self.twos self.min),
      some (self.twos self.max), none]
  | .unsigned => [some self.min.toNat, some self.max.toNat, none]

def smallImmediate (self : Immediate) : Rand InitError Nat :=
  match self.cls with
  | .signed => do
    pure (self.twos (← randint .valueError (Max.max self.min (-8)) (Min.min self.max 8)))
  | .unsigned => do pure (← randint .valueError 0 (Max.max self.max 16)).toNat

/-- `get_random`. -/
def getRandom (self : Immediate) : Rand InitError Nat := do
  match ← choice .indexError self.nums with
  | some r => pure r
  | none =>
    -- a small immediate in nine of ten cases
    if (← randint .valueError 1 10) ≤ 9 then self.smallImmediate else getrandbits self.bits

/-- `bit_mask`: the loop over the ranges, with the mask and the bits used so far. -/
def bitMask (self : Immediate) (num : Nat) : Nat :=
  (self.ranges.foldl (fun (mask, bit) (msb, lsb) =>
    let bits := msb - lsb + 1
    (mask ||| ((2 ^ bits - 1) &&& (num >>> bit)) <<< lsb, bit + bits)) (0, 0)).1

/-! ## Where the bits go

The loop hands the bits of the number to the ranges one after the other. `Covers` says which bits of
the word the ranges have. -/

/-- The bits of the word that the immediate has. -/
def Covers (self : Immediate) (i : Nat) : Prop := ∃ r ∈ self.ranges, r.2 ≤ i ∧ i ≤ r.1

/-- A step of the loop of `bit_mask`. -/
def place (num : Nat) (s : Nat × Nat) (r : Nat × Nat) : Nat × Nat :=
  (s.1 ||| ((2 ^ (r.1 - r.2 + 1) - 1) &&& (num >>> s.2)) <<< r.2, s.2 + (r.1 - r.2 + 1))

theorem testBit_place {num mask bit i : Nat} {r : Nat × Nat} :
    (place num (mask, bit) r).1.testBit i = true ↔
      mask.testBit i = true ∨
        r.2 ≤ i ∧ i - r.2 < r.1 - r.2 + 1 ∧ num.testBit (bit + (i - r.2)) = true := by
  simp [place, Nat.testBit_or, Nat.testBit_shiftLeft, Nat.testBit_and,
    Nat.testBit_two_pow_sub_one, Nat.testBit_shiftRight]

/-- `bit_mask` stays in the ranges. -/
theorem covers_of_testBit_bitMask (self : Immediate) {num i : Nat}
    (h : (self.bitMask num).testBit i = true) : self.Covers i := by
  have hfold : ∀ (rs : List (Nat × Nat)) (s : Nat × Nat), (∀ r ∈ rs, r.2 ≤ r.1) →
      (rs.foldl (place num) s).1.testBit i = true →
        s.1.testBit i = true ∨ ∃ r ∈ rs, r.2 ≤ i ∧ i ≤ r.1 := by
    intro rs
    induction rs with
    | nil => exact fun s _ hs => Or.inl hs
    | cons r rs ih =>
        intro s hle hs
        have hr := hle r List.mem_cons_self
        rcases ih _ (fun r' hr' => hle r' (List.mem_cons_of_mem r hr')) hs with
          hplace | ⟨r', hr', hi⟩
        · rcases testBit_place.mp hplace with hmask | ⟨hlow, hlt, -⟩
          · exact Or.inl hmask
          · exact Or.inr ⟨r, List.mem_cons_self, hlow, by omega⟩
        · exact Or.inr ⟨r', List.mem_cons_of_mem r hr', hi⟩
  rcases hfold self.ranges (0, 0) self.range_le h with hzero | hcovers
  · rw [Nat.zero_testBit] at hzero
    cases hzero
  · exact hcovers

/-- The largest number sets all bits of the ranges. -/
theorem testBit_bitMask_max (self : Immediate) {i : Nat} (h : self.Covers i) :
    (self.bitMask (2 ^ self.bits - 1)).testBit i = true := by
  have hfold : ∀ (n : Nat) (rs : List (Nat × Nat)) (s : Nat × Nat),
      s.2 + (rs.map fun (msb, lsb) => msb - lsb + 1).sum ≤ n →
      (s.1.testBit i = true ∨ ∃ r ∈ rs, r.2 ≤ i ∧ i ≤ r.1) →
        (rs.foldl (place (2 ^ n - 1)) s).1.testBit i = true := by
    -- a bit is there already, or a range that is still to come puts it
    intro n rs
    induction rs with
    | nil =>
        rintro s - (hs | ⟨r, hr, -⟩)
        · exact hs
        · cases hr
    | cons r rs ih =>
        intro s hle hi
        rw [List.map_cons, List.sum_cons] at hle
        change s.2 + (r.1 - r.2 + 1 + _) ≤ n at hle
        apply ih
        · show s.2 + (r.1 - r.2 + 1) + _ ≤ n
          omega
        · rcases hi with hs | ⟨r', hr', hi⟩
          · exact Or.inl (testBit_place.mpr (Or.inl hs))
          · rcases List.mem_cons.mp hr' with rfl | hmem
            · refine Or.inl (testBit_place.mpr (Or.inr ⟨hi.1, by omega, ?_⟩))
              rw [Nat.testBit_two_pow_sub_one, decide_eq_true_iff]
              omega
            · exact Or.inr ⟨r', hmem, hi⟩
  exact hfold self.bits self.ranges (0, 0) (by rw [Nat.zero_add]; exact Nat.le_refl _) (Or.inr h)

theorem bitMask_zero (self : Immediate) : self.bitMask 0 = 0 := by
  have hfold : ∀ (rs : List (Nat × Nat)) (s : Nat × Nat), (rs.foldl (place 0) s).1 = s.1 := by
    intro rs
    induction rs with
    | nil => exact fun s => rfl
    | cons r rs ih =>
        intro s
        rw [List.foldl_cons, ih]
        simp [place]
  exact hfold self.ranges (0, 0)

/-! ## Draws

What `get_random` can draw at all, and what it draws when every choice is the first or the second.
-/

theorem nums_ne_nil (self : Immediate) : self.nums ≠ [] := by
  unfold nums
  cases self.cls <;> exact List.cons_ne_nil _ _

theorem two_pow_pos_int (n : Nat) : (0 : Int) < 2 ^ n := by
  exact_mod_cast Nat.two_pow_pos n

theorem min_nonpos (self : Immediate) : self.min ≤ 0 := by
  have hpow := two_pow_pos_int (self.bits - 1)
  unfold min
  split <;> omega

theorem max_nonneg (self : Immediate) : 0 ≤ self.max := by
  have hpow := two_pow_pos_int (self.bits - 1)
  have hpow' := two_pow_pos_int self.bits
  unfold max
  split <;> omega

/-- Nothing stops the draw of an immediate. -/
theorem gives_getRandom {E : InitError → Prop} (self : Immediate) :
    Gives E (fun _ => True) self.getRandom := by
  have hsmall : Gives E (fun _ => True) self.smallImmediate := by
    have hmin := self.min_nonpos
    have hmax := self.max_nonneg
    unfold smallImmediate
    split
    · exact (gives_randint (by omega)).bind fun v _ => gives_pure trivial
    · exact (gives_randint (by omega)).bind fun v _ => gives_pure trivial
  refine (gives_choice self.nums_ne_nil).bind fun r _ => ?_
  cases r with
  | some r => exact gives_pure trivial
  | none =>
      refine (gives_randint (by decide)).bind fun v _ => gives_ite (fun _ => hsmall) fun _ => ?_
      exact (gives_getrandbits _).mono (fun _ h => h) fun _ _ => trivial

/-- An unsigned immediate is zero if every choice is the first, and as large as it can be if every
choice is the second. -/
theorem steady_getRandom {k : Nat} (hk : k ≤ 1) {self : Immediate} (h : self.cls = .unsigned) :
    Steady k (fun v => v = if k = 0 then 0 else 2 ^ self.bits - 1) self.getRandom := by
  have hmin : self.min.toNat = 0 := by simp [min, h]
  have hmax : self.max.toNat = 2 ^ self.bits - 1 := by
    have hpow : ((2 ^ self.bits : Nat) : Int) = 2 ^ self.bits := by push_cast; rfl
    have hpos := Nat.two_pow_pos self.bits
    simp only [max, h, ← hpow]
    omega
  have hnums : self.nums = [some 0, some (2 ^ self.bits - 1), none] := by
    simp only [nums, h, hmin, hmax]
  have hchosen : self.nums[k % self.nums.length]? =
      some (some (if k = 0 then 0 else 2 ^ self.bits - 1)) := by
    rw [hnums]
    obtain rfl | rfl : k = 0 ∨ k = 1 := by omega
    · rfl
    · rfl
  refine (steady_choice hchosen).bind fun r hr => ?_
  rw [hr]
  exact steady_pure rfl

end Immediate

end RISCover
