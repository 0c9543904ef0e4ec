import Mathlib.Tactic.Common

/-!
# What all runs come to

`Inevitably R P s` says that `P` comes to hold in every run of `R` from `s`, whatever choices the
run makes: as long as `P` does not hold there is a step, and no run can go on for ever without it.
Each step brings such a run closer to the end, so an induction on it is an induction on what is left
of the run.
-/

/-- Every run from the state comes to a state with the property. -/
inductive Inevitably {σ : Type} (R : σ → σ → Prop) (P : σ → Prop) : σ → Prop
  | here {s : σ} (h : P s) : Inevitably R P s
  | later {s : σ} (hstep : ∃ s', R s s') (h : ∀ s', R s s' → Inevitably R P s') : Inevitably R P s

namespace Inevitably

variable {σ : Type} {R : σ → σ → Prop} {P : σ → Prop}

/-- An invariant under which there is a step as long as the property does not hold, and under which
every step brings a measure down. -/
theorem of_measure (Inv : σ → Prop) (measure : σ → Nat)
    (hstep : ∀ s, Inv s → P s ∨ ∃ s', R s s')
    (hdown : ∀ s s', Inv s → R s s' → Inv s' ∧ measure s' < measure s) (n : Nat) :
    ∀ s, Inv s → measure s ≤ n → Inevitably R P s := by
  induction n with
  | zero =>
      intro s hs hn
      rcases hstep s hs with h | ⟨s', hs'⟩
      · exact .here h
      · have hlt := (hdown s s' hs hs').2
        omega
  | succ n ih =>
      intro s hs hn
      rcases hstep s hs with h | hex
      · exact .here h
      · refine .later hex fun s' hs' => ?_
        obtain ⟨hinv, hlt⟩ := hdown s s' hs hs'
        exact ih s' hinv (by omega)

end Inevitably
