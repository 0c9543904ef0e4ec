import Mathlib.Logic.Basic

/-!
# Programs that fail together

A program with errors and a simpler one without: either both come to a result, and the results are
related, or neither does.
-/

/-- Related results, or no result on either side. -/
def Together {ε α β : Type} (R : α → β → Prop) : Except ε α → Option β → Prop
  | .ok a, some b => R a b
  | .error _, none => True
  | _, _ => False

namespace Together

variable {ε α β γ δ : Type} {R S : α → β → Prop} {x : Except ε α} {y : Option β}

theorem of_ok {a : α} (h : Together R x y) (hx : x = .ok a) : ∃ b, y = some b ∧ R a b := by
  subst hx
  cases y with
  | none => exact h.elim
  | some b => exact ⟨b, rfl, h⟩

theorem of_some {b : β} (h : Together R x y) (hy : y = some b) : ∃ a, x = .ok a ∧ R a b := by
  subst hy
  cases x with
  | error e => exact h.elim
  | ok a => exact ⟨a, rfl, h⟩

theorem mono (h : Together R x y) (hRS : ∀ a b, R a b → S a b) : Together S x y := by
  cases x with
  | error e =>
      cases y with
      | none => trivial
      | some b => exact h.elim
  | ok a =>
      cases y with
      | none => exact h.elim
      | some b => exact hRS a b h

theorem of_error {e : ε} (h : Together R (.error e) y) : y = none := by
  cases y with
  | none => rfl
  | some b => exact h.elim

theorem toOption (x : Except ε α) : Together (fun a b => a = b) x x.toOption := by
  cases x with
  | error e => trivial
  | ok a => exact rfl

theorem bind_pure {T : γ → β → Prop} {f : α → γ} (h : Together R x y)
    (hf : ∀ a b, R a b → T (f a) b) : Together T (x >>= fun a => pure (f a)) y := by
  cases x with
  | error e =>
      cases y with
      | none => trivial
      | some b => exact h.elim
  | ok a =>
      cases y with
      | none => exact h.elim
      | some b => exact hf a b h

theorem map_right {T : α → δ → Prop} {g : β → δ} (h : Together R x y)
    (hg : ∀ a b, R a b → T a (g b)) : Together T x (y.map g) := by
  cases x with
  | error e =>
      cases y with
      | none => trivial
      | some b => exact h.elim
  | ok a =>
      cases y with
      | none => exact h.elim
      | some b => exact hg a b h

/-- One step after the other. -/
theorem bind {T : γ → δ → Prop} {f : α → Except ε γ} {g : β → Option δ} (h : Together R x y)
    (hfg : ∀ a b, R a b → Together T (f a) (g b)) : Together T (x >>= f) (y >>= g) := by
  cases x with
  | error e =>
      cases y with
      | none => trivial
      | some b => exact h.elim
  | ok a =>
      cases y with
      | none => exact h.elim
      | some b => exact hfg a b h

/-- What every round of a loop keeps, the loop keeps. -/
theorem foldlM {ξ : Type} {f : α → ξ → Except ε α} {g : β → ξ → Option β}
    (h : ∀ a b x, R a b → Together R (f a x) (g b x)) (xs : List ξ) {a : α} {b : β} (hab : R a b) :
    Together R (xs.foldlM f a) (xs.foldlM g b) := by
  induction xs generalizing a b with
  | nil => exact hab
  | cons x xs ih =>
      rw [List.foldlM_cons, List.foldlM_cons]
      exact (h a b x hab).bind fun a' b' hab' => ih hab'

end Together
