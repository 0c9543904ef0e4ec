import Mathlib.Algebra.Order.Ring.Nat
import Mathlib.Data.List.Basic

/-!
# Words made of parts

A word that parts are or-ed into, each part under a mask of its own. Where the masks do not meet,
every part can be read back.
-/

namespace Words

theorem and_or_distrib (x y m : UInt32) : (x ||| y) &&& m = (x &&& m) ||| (y &&& m) := by
  rw [← UInt32.toBitVec_inj, UInt32.toBitVec_or, UInt32.toBitVec_and, UInt32.toBitVec_and,
    UInt32.toBitVec_and, UInt32.toBitVec_or]
  exact BitVec.and_or_distrib_right

/-- A number below `2 ^ n` has its bits below `n`. -/
theorem lt_of_testBit {v n i : Nat} (hv : v < 2 ^ n) (h : v.testBit i = true) : i < n :=
  (Nat.pow_lt_pow_iff_right Nat.one_lt_two).mp (Nat.lt_of_le_of_lt (Nat.ge_two_pow_of_testBit h) hv)

/-- Words without a common bit. -/
theorem and_eq_zero {x y : UInt32}
    (h : ∀ i, x.toNat.testBit i = true → y.toNat.testBit i = true → False) : x &&& y = 0 := by
  rw [← UInt32.toNat_inj, UInt32.toNat_and, UInt32.toNat_zero]
  apply Nat.eq_of_testBit_eq
  intro i
  rw [Nat.testBit_and, Nat.zero_testBit, Bool.and_eq_false_iff]
  cases hx : x.toNat.testBit i with
  | false => exact Or.inl rfl
  | true =>
      cases hy : y.toNat.testBit i with
      | false => exact Or.inr rfl
      | true => exact (h i hx hy).elim

section parts

variable {α : Type} {mask part part' : α → UInt32} {xs : List α} {word : UInt32}

/-- The word with a part for each of `xs`. -/
def orAll (part : α → UInt32) (word : UInt32) (xs : List α) : UInt32 :=
  xs.foldl (fun w x => w ||| part x) word

/-- A bit of the word is a bit it had or a bit of a part. -/
theorem testBit_orAll {i : Nat} : (orAll part word xs).toNat.testBit i = true ↔
    word.toNat.testBit i = true ∨ ∃ x ∈ xs, (part x).toNat.testBit i = true := by
  induction xs generalizing word with
  | nil => simp [orAll]
  | cons x xs ih =>
      rw [orAll, List.foldl_cons, ← orAll, ih, UInt32.toNat_or, Nat.testBit_or, Bool.or_eq_true,
        or_assoc, List.exists_mem_cons_iff]

/-- Or-ing parts in changes a bit only to set it for a part. -/
theorem exists_testBit_of_xor_orAll {i : Nat}
    (h : (orAll part word xs ^^^ word).toNat.testBit i = true) :
    ∃ x ∈ xs, (part x).toNat.testBit i = true := by
  rw [UInt32.toNat_xor, Nat.testBit_xor] at h
  have hiff : (orAll part word xs).toNat.testBit i = true ↔ _ := testBit_orAll
  by_contra hnone
  rw [or_iff_left hnone, ← Bool.eq_iff_iff] at hiff
  rw [hiff, Bool.xor_self] at h
  cases h

/-- Parts beside a mask leave what is under it. -/
theorem orAll_and_of_disjoint {m : UInt32} (h : ∀ x ∈ xs, part x &&& m = 0) :
    orAll part word xs &&& m = word &&& m := by
  induction xs generalizing word with
  | nil => rfl
  | cons x xs ih =>
      rw [orAll, List.foldl_cons, ← orAll, ih fun y hy => h y (List.mem_cons_of_mem x hy),
        and_or_distrib, h x List.mem_cons_self, UInt32.or_zero]

/-- Parts under masks that do not meet, in bits that the word leaves clear. -/
structure Separate (mask part : α → UInt32) (word : UInt32) (xs : List α) : Prop where
  under : ∀ x ∈ xs, part x &&& mask x = part x
  disjoint : xs.Pairwise fun x y => mask x &&& mask y = 0
  clear : ∀ x ∈ xs, word &&& mask x = 0

theorem part_and_eq_zero {x y : α} (hx : part x &&& mask x = part x)
    (hdisj : mask x &&& mask y = 0) : part x &&& mask y = 0 := by
  rw [← hx, UInt32.and_assoc, hdisj, UInt32.and_zero]

/-- Every part is read back under its mask. -/
theorem Separate.orAll_and (h : Separate mask part word xs) :
    ∀ x ∈ xs, orAll part word xs &&& mask x = part x := by
  induction xs generalizing word with
  | nil => exact fun x hx => absurd hx List.not_mem_nil
  | cons x xs ih =>
      have hdisj := List.pairwise_cons.mp h.disjoint
      have hunder : ∀ y ∈ xs, part y &&& mask y = part y :=
        fun y hy => h.under y (List.mem_cons_of_mem x hy)
      intro y hy
      rw [orAll, List.foldl_cons, ← orAll]
      rcases List.mem_cons.mp hy with rfl | hy
      · -- the parts behind it lie beside its mask
        have hrest : ∀ z ∈ xs, part z &&& mask y = 0 := fun z hz =>
          part_and_eq_zero (hunder z hz) (by rw [UInt32.and_comm]; exact hdisj.1 z hz)
        rw [orAll_and_of_disjoint hrest, and_or_distrib, h.clear y List.mem_cons_self,
          h.under y List.mem_cons_self, UInt32.zero_or]
      · refine ih ⟨hunder, hdisj.2, fun z hz => ?_⟩ y hy
        rw [and_or_distrib, h.clear z (List.mem_cons_of_mem x hz),
          part_and_eq_zero (h.under x List.mem_cons_self) (hdisj.1 z hz), UInt32.or_zero]

/-- Two choices of parts make the same word only if they are the same. -/
theorem Separate.orAll_eq_iff (h : Separate mask part word xs) (h' : Separate mask part' word xs) :
    orAll part word xs = orAll part' word xs ↔ ∀ x ∈ xs, part x = part' x := by
  constructor
  · intro heq x hx
    rw [← h.orAll_and x hx, ← h'.orAll_and x hx, heq]
  · intro hsame
    rw [orAll, orAll]
    exact List.foldl_ext _ _ word fun w x hx => by rw [hsame x hx]

end parts

end Words
