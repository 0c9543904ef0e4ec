import Mathlib.Logic.Function.Basic

/-!
# Taking turns

Parties draw numbers, one after the other, and are served in the order of their numbers. Whatever
the order in which they draw and are served, the numbers that are out are exactly those from the
one to be served next up to the last one drawn, and each of them is held by one party
(`Turns.Valid`). So there is always somebody to serve while anybody waits
(`Turns.Valid.exists_holds_served`).
-/

/-- How many numbers were drawn, how many were served, and who holds which one. -/
structure Turns (ι : Type) where
  taken : Nat
  served : Nat
  holds : ι → Option Nat

namespace Turns

variable {ι : Type}

/-- Nobody has drawn a number yet. -/
def start : Turns ι := ⟨0, 0, fun _ => none⟩

/-- The numbers that are out are held, each by one party. -/
structure Valid (t : Turns ι) : Prop where
  le : t.served ≤ t.taken
  out : ∀ i n, t.holds i = some n → t.served ≤ n ∧ n < t.taken
  held : ∀ n, t.served ≤ n → n < t.taken → ∃ i, t.holds i = some n
  alone : ∀ i j n, t.holds i = some n → t.holds j = some n → i = j

theorem valid_start : (start : Turns ι).Valid where
  le := Nat.le_refl 0
  out := by
    intro i n h
    cases h
  held := by
    intro n _ hn
    exact absurd hn (Nat.not_lt_zero n)
  alone := by
    intro i j n h
    cases h

variable {t : Turns ι} {i : ι}

/-- While anybody holds a number, somebody is to be served. -/
theorem Valid.exists_holds_served (h : t.Valid) {n : Nat} (hi : t.holds i = some n) :
    ∃ j, t.holds j = some t.served := by
  have hout := h.out i n hi
  exact h.held t.served (Nat.le_refl _) (Nat.lt_of_le_of_lt hout.1 hout.2)

/-- Once all are served, nobody holds a number. -/
theorem Valid.holds_eq_none (h : t.Valid) (heq : t.served = t.taken) (i : ι) :
    t.holds i = none := by
  cases hi : t.holds i with
  | none => rfl
  | some n =>
      have hout := h.out i n hi
      omega

/-! ## Drawing and serving

A party that draws is behind all others, and the one that is served was in front. -/

variable [DecidableEq ι]

/-- A party draws the next number. -/
def take (t : Turns ι) (i : ι) : Turns ι :=
  ⟨t.taken + 1, t.served, Function.update t.holds i (some t.taken)⟩

/-- A party that was served gives its number back. -/
def serve (t : Turns ι) (i : ι) : Turns ι := ⟨t.taken, t.served + 1, Function.update t.holds i none⟩

@[simp] theorem taken_serve (t : Turns ι) (i : ι) : (t.serve i).taken = t.taken := rfl
@[simp] theorem served_serve (t : Turns ι) (i : ι) : (t.serve i).served = t.served + 1 := rfl

theorem holds_take_self (t : Turns ι) (i : ι) : (t.take i).holds i = some t.taken :=
  Function.update_self i _ t.holds

theorem holds_take_of_ne {t : Turns ι} {i j : ι} (h : j ≠ i) : (t.take i).holds j = t.holds j :=
  Function.update_of_ne h _ t.holds

theorem holds_serve_self (t : Turns ι) (i : ι) : (t.serve i).holds i = none :=
  Function.update_self i _ t.holds

theorem holds_serve_of_ne {t : Turns ι} {i j : ι} (h : j ≠ i) : (t.serve i).holds j = t.holds j :=
  Function.update_of_ne h _ t.holds

/-- Whoever holds nothing may draw. -/
theorem Valid.take (h : t.Valid) (hi : t.holds i = none) : (t.take i).Valid where
  le := Nat.le_succ_of_le h.le
  out := by
    intro j n hj
    by_cases hji : j = i
    · subst hji
      rw [holds_take_self] at hj
      cases hj
      exact ⟨h.le, Nat.lt_succ_self _⟩
    · rw [holds_take_of_ne hji] at hj
      have hout := h.out j n hj
      exact ⟨hout.1, Nat.lt_succ_of_lt hout.2⟩
  held := by
    intro n hle hlt
    rcases Nat.lt_succ_iff_lt_or_eq.mp hlt with hlt | rfl
    · obtain ⟨j, hj⟩ := h.held n hle hlt
      have hji : j ≠ i := by
        rintro rfl
        rw [hi] at hj
        cases hj
      exact ⟨j, (holds_take_of_ne hji).trans hj⟩
    · exact ⟨i, holds_take_self t i⟩
  alone := by
    intro j k n hj hk
    -- the new number is above all that are out
    have hnew : ∀ l, l ≠ i → (t.take i).holds l = some n → n < t.taken := by
      intro l hl hn
      rw [holds_take_of_ne hl] at hn
      exact (h.out l n hn).2
    by_cases hji : j = i
    · subst hji
      rw [holds_take_self] at hj
      cases hj
      by_contra hjk
      exact absurd (hnew k (Ne.symm hjk) hk) (Nat.lt_irrefl _)
    · by_cases hki : k = i
      · subst hki
        rw [holds_take_self] at hk
        cases hk
        exact absurd (hnew j hji hj) (Nat.lt_irrefl _)
      · rw [holds_take_of_ne hji] at hj
        rw [holds_take_of_ne hki] at hk
        exact h.alone j k n hj hk

/-- Whoever is next may be served. -/
theorem Valid.serve (h : t.Valid) (hi : t.holds i = some t.served) : (t.serve i).Valid where
  le := (h.out i t.served hi).2
  out := by
    intro j n hj
    have hji : j ≠ i := by
      rintro rfl
      rw [holds_serve_self] at hj
      cases hj
    rw [holds_serve_of_ne hji] at hj
    have hout := h.out j n hj
    -- the number that was served was its holder's alone
    have hne : n ≠ t.served := by
      rintro rfl
      exact hji (h.alone j i t.served hj hi)
    exact ⟨Nat.lt_of_le_of_ne hout.1 (Ne.symm hne), hout.2⟩
  held := by
    intro n hle hlt
    obtain ⟨j, hj⟩ := h.held n (Nat.le_of_succ_le hle) hlt
    have hji : j ≠ i := by
      rintro rfl
      rw [hi] at hj
      cases hj
      exact absurd hle (Nat.not_succ_le_self _)
    exact ⟨j, (holds_serve_of_ne hji).trans hj⟩
  alone := by
    intro j k n hj hk
    have hne : ∀ l, (t.serve i).holds l = some n → l ≠ i := by
      rintro l hl rfl
      rw [holds_serve_self] at hl
      cases hl
    rw [holds_serve_of_ne (hne j hj)] at hj
    rw [holds_serve_of_ne (hne k hk)] at hk
    exact h.alone j k n hj hk

end Turns
