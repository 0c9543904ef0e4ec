import Mathlib.Logic.Basic

/-!
# Computations over a state that may stop

What holds of every run of a computation in `StateT σ (Except ε)`, whatever state it starts from:
the value it gives, or the error that it stops with.
-/

namespace Runs

variable {σ ε α β : Type} {E : ε → Prop} {Q : α → Prop} {R : β → Prop}

/-- Every run of `m` gives a value in `Q` or stops with an error in `E`. -/
def Gives (E : ε → Prop) (Q : α → Prop) (m : StateT σ (Except ε) α) : Prop :=
  ∀ s, match m s with
    | .ok (a, _) => Q a
    | .error e => E e

theorem Gives.mono {E' : ε → Prop} {Q' : α → Prop} {m : StateT σ (Except ε) α} (h : Gives E Q m)
    (hE : ∀ e, E e → E' e) (hQ : ∀ a, Q a → Q' a) : Gives E' Q' m := by
  intro s
  have hs := h s
  cases hm : m s with
  | ok p => exact hQ _ (by simpa [hm] using hs)
  | error e => exact hE _ (by simpa [hm] using hs)

theorem gives_pure {a : α} (h : Q a) : Gives E Q (pure a : StateT σ (Except ε) α) := fun _ => h

theorem gives_throw {e : ε} (h : E e) : Gives E Q (throw e : StateT σ (Except ε) α) := fun _ => h

theorem gives_trivial (m : StateT σ (Except ε) α) : Gives (fun _ => True) (fun _ => True) m := by
  intro s
  split <;> trivial

theorem Gives.bind {m : StateT σ (Except ε) α} {f : α → StateT σ (Except ε) β} (h : Gives E Q m)
    (hf : ∀ a, Q a → Gives E R (f a)) : Gives E R (m >>= f) := by
  intro s
  have hs := h s
  show match (m s >>= fun p => f p.1 p.2) with
    | .ok (b, _) => R b
    | .error e => E e
  cases hm : m s with
  | ok p => exact hf p.1 (by simpa [hm] using hs) p.2
  | error e =>
      have he : E e := by simpa [hm] using hs
      exact he

theorem Gives.map {m : StateT σ (Except ε) α} {f : α → β} (h : Gives E Q m)
    (hf : ∀ a, Q a → R (f a)) : Gives E R (f <$> m) := by
  rw [map_eq_pure_bind]
  exact h.bind fun a ha => gives_pure (hf a ha)

theorem gives_ite {p : Prop} [Decidable p] {m n : StateT σ (Except ε) α} (hm : p → Gives E Q m)
    (hn : ¬p → Gives E Q n) : Gives E Q (if p then m else n) := by
  split
  next h => exact hm h
  next h => exact hn h

theorem map_run (f : α → β) (m : StateT σ (Except ε) α) (s : σ) :
    (f <$> m) s = (fun p => (f p.1, p.2)) <$> m s := by
  show (m s >>= fun p => pure (f p.1, p.2)) = _
  exact (map_eq_pure_bind _ _).symm

/-- What a run gives. -/
theorem Gives.of_ok {m : StateT σ (Except ε) α} (h : Gives E Q m) {s s' : σ} {a : α}
    (hrun : m s = .ok (a, s')) : Q a := by
  simpa [hrun] using h s

/-- Why a run stops. -/
theorem Gives.of_error {m : StateT σ (Except ε) α} (h : Gives E Q m) {s : σ} {e : ε}
    (hrun : m s = .error e) : E e := by
  simpa [hrun] using h s

/-- A run of one computation after the other. -/
theorem of_bind_eq_ok {m : StateT σ (Except ε) α} {f : α → StateT σ (Except ε) β} {s s' : σ} {b : β}
    (h : (m >>= f) s = .ok (b, s')) : ∃ a s₁, m s = .ok (a, s₁) ∧ f a s₁ = .ok (b, s') := by
  have hrun : (m s >>= fun p => f p.1 p.2) = .ok (b, s') := h
  cases hm : m s with
  | ok p =>
      rw [hm] at hrun
      exact ⟨p.1, p.2, rfl, hrun⟩
  | error e =>
      rw [hm] at hrun
      cases hrun

theorem of_pure_eq_ok {a b : α} {s s' : σ}
    (h : (pure a : StateT σ (Except ε) α) s = .ok (b, s')) : a = b :=
  congrArg Prod.fst (Except.ok.inj h)

end Runs
