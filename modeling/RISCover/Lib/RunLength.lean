import Mathlib.Algebra.Order.Ring.Nat
import Mathlib.Data.List.Range

/-!
# Alternating run lengths

A predicate on an interval of numbers can be written as the lengths of the runs on which it is
constant, when it is known which value the first run has. `flagged` reads such a list back: the
positions in every other run. `Alternates` says that a list of run lengths belongs to a predicate,
and then reading gives the positions where the predicate holds (`Alternates.flagged_eq`).
-/

namespace RunLength

/-- The positions in the flagged runs. The runs follow each other from `i` on; the first one is
flagged if `flag` says so, and then every other one. -/
def flagged : (runs : List Nat) → (flag : Bool) → (i : Nat) → List Nat
  | [], _, _ => []
  | run :: runs, flag, i =>
      (if flag then List.range' i run else []) ++ flagged runs (!flag) (i + run)

/-- The flag of the run that comes next. -/
def flagAfter (runs : List Nat) (flag : Bool) : Bool := runs.foldl (fun flag _ => !flag) flag

/-- On the runs from `i` on, `p` is in turn `flag` and `!flag`. -/
def Alternates (p : Nat → Bool) : (runs : List Nat) → (flag : Bool) → (i : Nat) → Prop
  | [], _, _ => True
  | run :: runs, flag, i =>
      (∀ w, i ≤ w → w < i + run → p w = flag) ∧ Alternates p runs (!flag) (i + run)

theorem mem_flagged {runs : List Nat} {flag : Bool} {i w : Nat} (h : w ∈ flagged runs flag i) :
    i ≤ w ∧ w < i + runs.sum := by
  induction runs generalizing flag i with
  | nil => cases h
  | cons run runs ih =>
      rw [flagged, List.mem_append] at h
      rw [List.sum_cons]
      rcases h with h | h
      · cases flag with
        | false => cases h
        | true =>
            have hw := List.mem_range'_1.mp h
            omega
      · have hw := ih h
        omega

/-- The runs of `p` give the positions where `p` holds. -/
theorem Alternates.flagged_eq {p : Nat → Bool} {runs : List Nat} {flag : Bool} {i : Nat}
    (h : Alternates p runs flag i) :
    flagged runs flag i = (List.range' i runs.sum).filter p := by
  induction runs generalizing flag i with
  | nil => rfl
  | cons run runs ih =>
      obtain ⟨hrun, hruns⟩ := h
      rw [flagged, ih hruns, List.sum_cons, ← List.range'_append_1, List.filter_append]
      congr 1
      have hconst : ∀ w ∈ List.range' i run, p w = flag := by
        intro w hw
        obtain ⟨h₁, h₂⟩ := List.mem_range'_1.mp hw
        exact hrun w h₁ h₂
      cases flag with
      | true => exact (List.filter_eq_self.mpr hconst).symm
      | false =>
          refine (List.filter_eq_nil_iff.mpr fun w hw => ?_).symm
          rw [hconst w hw]
          exact Bool.false_ne_true

/-- One more run at the end. -/
theorem Alternates.concat {p : Nat → Bool} {runs : List Nat} {flag : Bool} {i run : Nat}
    (h : Alternates p runs flag i)
    (hrun : ∀ w, i + runs.sum ≤ w → w < i + runs.sum + run → p w = flagAfter runs flag) :
    Alternates p (runs ++ [run]) flag i := by
  induction runs generalizing flag i with
  | nil => exact ⟨by simpa [flagAfter] using hrun, trivial⟩
  | cons r runs ih =>
      obtain ⟨hr, hruns⟩ := h
      refine ⟨hr, ih hruns fun w h₁ h₂ => ?_⟩
      rw [List.sum_cons, ← Nat.add_assoc] at hrun
      exact hrun w h₁ h₂

@[simp] theorem flagAfter_concat (runs : List Nat) (run : Nat) (flag : Bool) :
    flagAfter (runs ++ [run]) flag = !flagAfter runs flag := by
  simp [flagAfter]

/-! ## Cutting a range into parts

The runs are the parts of the range, and the predicate does not change inside one. -/

/-- The numbers of a range between two bounds. -/
theorem filter_range_between {s e n : Nat} (hse : s ≤ e) (hen : e ≤ n) :
    ((List.range n).filter fun w => decide (s ≤ w) && decide (w < e)) = List.range' s (e - s) := by
  have hcut : List.range n = List.range' 0 s ++ List.range' s (e - s) ++ List.range' e (n - e) := by
    have h₁ := List.range'_append_1 (s := 0) (m := s) (n := e - s)
    have h₂ := List.range'_append_1 (s := 0) (m := e) (n := n - e)
    rw [Nat.zero_add] at h₁ h₂
    rw [h₁, Nat.add_sub_of_le hse, h₂, Nat.add_sub_of_le hen, List.range_eq_range']
  have hnone : ∀ a m, a + m ≤ s ∨ e ≤ a →
      ((List.range' a m).filter fun w => decide (s ≤ w) && decide (w < e)) = [] := by
    intro a m h
    refine List.filter_eq_nil_iff.mpr fun w hw => ?_
    have hw' := List.mem_range'_1.mp hw
    simp only [Bool.and_eq_true, decide_eq_true_eq, not_and]
    omega
  have hall : ((List.range' s (e - s)).filter fun w => decide (s ≤ w) && decide (w < e)) =
      List.range' s (e - s) := by
    refine List.filter_eq_self.mpr fun w hw => ?_
    have hw' := List.mem_range'_1.mp hw
    simp only [Bool.and_eq_true, decide_eq_true_eq]
    omega
  rw [hcut, List.filter_append, List.filter_append, hnone 0 s (by omega), hall,
    hnone e (n - e) (by omega), List.nil_append, List.append_nil]

/-- Parts that follow each other make up the whole. -/
theorem flatMap_range'_parts {b : Nat → Nat} (n : Nat) (hmono : ∀ j < n, b j ≤ b (j + 1)) :
    (List.range n).flatMap (fun j => List.range' (b j) (b (j + 1) - b j)) =
        List.range' (b 0) (b n - b 0) ∧ b 0 ≤ b n := by
  induction n with
  | zero => exact ⟨by simp, Nat.le_refl _⟩
  | succ n ih =>
      obtain ⟨hparts, hle⟩ := ih fun j hj => hmono j (Nat.lt_succ_of_lt hj)
      have hstep := hmono n (Nat.lt_succ_self n)
      have happend := List.range'_append_1 (s := b 0) (m := b n - b 0) (n := b (n + 1) - b n)
      have hb : b 0 + (b n - b 0) = b n := Nat.add_sub_of_le hle
      have hsum : b n - b 0 + (b (n + 1) - b n) = b (n + 1) - b 0 := by omega
      rw [hb, hsum] at happend
      refine ⟨?_, hle.trans hstep⟩
      rw [List.range_succ, List.flatMap_append, hparts, List.flatMap_singleton, happend]

end RunLength
