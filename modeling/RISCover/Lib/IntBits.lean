import Mathlib.Data.Int.Bitwise

/-!
# Bits of integers

An integer is an infinite row of bits, all of which are set from some place on if it is negative.
The operations of a language with integers of any size are read bit by bit here, and an integer is
known by its bits (`eq_of_testBit_eq`).
-/

namespace IntBits

/-- All bits from some place on are the sign. -/
theorem exists_testBit_sign (m : Int) : ∃ k, ∀ i, k ≤ i → m.testBit i = decide (m < 0) := by
  cases m with
  | ofNat m =>
      refine ⟨m, fun i hi => ?_⟩
      have hlt : m < 2 ^ i :=
        Nat.lt_of_lt_of_le Nat.lt_two_pow_self (Nat.pow_le_pow_right (by omega) hi)
      show m.testBit i = _
      rw [Nat.testBit_lt_two_pow hlt]
      exact (decide_eq_false (Int.not_lt.mpr (Int.natCast_nonneg m))).symm
  | negSucc m =>
      refine ⟨m, fun i hi => ?_⟩
      have hlt : m < 2 ^ i :=
        Nat.lt_of_lt_of_le Nat.lt_two_pow_self (Nat.pow_le_pow_right (by omega) hi)
      show (!m.testBit i) = _
      rw [Nat.testBit_lt_two_pow hlt]
      exact (decide_eq_true (Int.negSucc_lt_zero m)).symm

/-- An integer whose bits are clear from some place on is not negative. -/
theorem nonneg_of_testBit {m : Int} (k : Nat) (h : ∀ i, k ≤ i → m.testBit i = false) : 0 ≤ m := by
  obtain ⟨l, hl⟩ := exists_testBit_sign m
  have hsign := hl (max k l) (Nat.le_max_right k l)
  rw [h _ (Nat.le_max_left k l)] at hsign
  exact Int.not_lt.mp (of_decide_eq_false hsign.symm)

theorem eq_of_testBit_eq {m n : Int} (h : ∀ i, m.testBit i = n.testBit i) : m = n := by
  cases m with
  | ofNat m =>
      cases n with
      | ofNat n => exact congrArg Int.ofNat (Nat.eq_of_testBit_eq h)
      | negSucc n =>
          obtain ⟨k, hk⟩ := exists_testBit_sign (Int.ofNat m)
          have hnonneg := nonneg_of_testBit k fun i hi =>
            (h i).symm.trans ((hk i hi).trans (decide_eq_false (Int.not_lt.mpr
              (Int.natCast_nonneg m))))
          exact absurd hnonneg (Int.not_le.mpr (Int.negSucc_lt_zero n))
  | negSucc m =>
      cases n with
      | ofNat n =>
          obtain ⟨k, hk⟩ := exists_testBit_sign (Int.ofNat n)
          have hnonneg := nonneg_of_testBit k fun i hi =>
            (h i).trans ((hk i hi).trans (decide_eq_false (Int.not_lt.mpr (Int.natCast_nonneg n))))
          exact absurd hnonneg (Int.not_le.mpr (Int.negSucc_lt_zero m))
      | negSucc n =>
          refine congrArg Int.negSucc (Nat.eq_of_testBit_eq fun i => ?_)
          exact Bool.not_inj (h i)

theorem testBit_natCast (m i : Nat) : (↑m : Int).testBit i = m.testBit i := rfl

/-- Below `2 ^ k` there are no bits from `k` on. -/
theorem lt_two_pow_iff {m : Int} (hm : 0 ≤ m) (k : Nat) :
    m < 2 ^ k ↔ ∀ i, k ≤ i → m.testBit i = false := by
  obtain ⟨m, rfl⟩ := Int.eq_ofNat_of_zero_le hm
  constructor
  · intro h i hi
    have hlt : m < 2 ^ k := by exact_mod_cast h
    exact Nat.testBit_lt_two_pow (Nat.lt_of_lt_of_le hlt (Nat.pow_le_pow_right (by omega) hi))
  · intro h
    have hlt : m < 2 ^ k := Nat.lt_pow_two_of_testBit m fun i hi => h i hi
    exact_mod_cast hlt

/-! ## Operations

The bits of the results. Cutting a number to some bits is its remainder. -/

theorem lor_assoc (l m n : Int) : (l.lor m).lor n = l.lor (m.lor n) := by
  apply eq_of_testBit_eq
  intro i
  simp only [Int.testBit_lor, Bool.or_assoc]

theorem zero_lor (m : Int) : Int.lor 0 m = m := by
  apply eq_of_testBit_eq
  intro i
  rw [Int.testBit_lor]
  show (Nat.testBit 0 i || _) = _
  rw [Nat.zero_testBit, Bool.false_or]

theorem lor_zero (m : Int) : m.lor 0 = m := by
  apply eq_of_testBit_eq
  intro i
  rw [Int.testBit_lor]
  show (_ || Nat.testBit 0 i) = _
  rw [Nat.zero_testBit, Bool.or_false]

theorem testBit_shiftRight (m : Int) (k i : Nat) : (m >>> k).testBit i = m.testBit (k + i) := by
  cases m with
  | ofNat m => exact Nat.testBit_shiftRight m
  | negSucc m => exact congrArg not (Nat.testBit_shiftRight m)

theorem testBit_shiftLeft (m : Int) (k i : Nat) :
    (m <<< k).testBit i = (decide (k ≤ i) && m.testBit (i - k)) := by
  cases m with
  | ofNat m =>
      show (m <<< k).testBit i = _
      rw [Nat.testBit_shiftLeft]
      rfl
  | negSucc m =>
      have hpow := Nat.two_pow_pos k
      have hsplit : (m + 1) <<< k - 1 = 2 ^ k * m + (2 ^ k - 1) := by
        rw [Nat.shiftLeft_eq, Nat.add_mul, Nat.mul_comm m]
        omega
      show (!((m + 1) <<< k - 1).testBit i) = (decide (k ≤ i) && !m.testBit (i - k))
      rw [hsplit, Nat.testBit_two_pow_mul_add _ (by omega)]
      split
      next hlt =>
        rw [Nat.testBit_two_pow_sub_one, decide_eq_true hlt, decide_eq_false (Nat.not_le.mpr hlt)]
        rfl
      next hge =>
        rw [decide_eq_true (Nat.not_lt.mp hge)]
        rfl

/-- `2**k - 1`. -/
theorem testBit_two_pow_sub_one (k i : Nat) : (2 ^ k - 1 : Int).testBit i = decide (i < k) := by
  have hcast : (2 ^ k - 1 : Int) = ((2 ^ k - 1 : Nat) : Int) := by
    have hpow := Nat.two_pow_pos k
    push_cast [hpow]
    rfl
  rw [hcast, testBit_natCast, Nat.testBit_two_pow_sub_one]

/-- `m % 2**k` keeps the lowest bits. -/
theorem testBit_emod_two_pow (m : Int) (k i : Nat) :
    (m % 2 ^ k).testBit i = (decide (i < k) && m.testBit i) := by
  have hpow : (2 ^ k : Int) = ((2 ^ k : Nat) : Int) := by
    push_cast
    rfl
  rw [hpow]
  cases m with
  | ofNat m => exact Nat.testBit_mod_two_pow m k i
  | negSucc m =>
      have hlt : m % 2 ^ k < 2 ^ k := Nat.mod_lt _ (Nat.two_pow_pos k)
      have hmod : Int.negSucc m % ((2 ^ k : Nat) : Int) =
          ((2 ^ k - (m % 2 ^ k + 1) : Nat) : Int) := by
        rw [Int.negSucc_emod m (by exact_mod_cast Nat.two_pow_pos k)]
        omega
      rw [hmod, testBit_natCast, Nat.testBit_two_pow_sub_succ hlt, Nat.testBit_mod_two_pow]
      show _ = (decide (i < k) && !m.testBit i)
      cases decide (i < k) <;> rfl

end IntBits
