import Mathlib.Logic.Relation

/-!
# Deterministic machines

A machine makes one pass after another: a pass either leads to the next state or stops with a
result. `Stops` says that the machine comes to an end from a state, and with which result. It comes
to an end at most one way (`Stops.unique`), always when a measure goes down in every pass
(`exists_stops`), and never from a state that a pass leads back to itself (`not_stops_of_loop`).
-/

/-- What one pass leads to. -/
inductive Outcome (σ ρ : Type) where
  | next (s : σ)
  | stop (r : ρ)

namespace Machine

variable {σ ρ : Type} (step : σ → Outcome σ ρ)

/-- Pass after pass, at most `fuel` of them. -/
def run : Nat → σ → Option ρ
  | 0, _ => none
  | fuel + 1, s =>
    match step s with
    | .next s' => run fuel s'
    | .stop r => some r

/-- Some passes lead from one state to the other. -/
def Steps : σ → σ → Prop := Relation.ReflTransGen fun s s' => step s = .next s'

/-- The machine comes to an end with this result. -/
def Stops (s : σ) (r : ρ) : Prop := ∃ fuel, run step fuel s = some r

variable {step}

theorem Steps.refl (s : σ) : Steps step s s := Relation.ReflTransGen.refl

theorem Steps.trans {s s' s'' : σ} (h : Steps step s s') (h' : Steps step s' s'') :
    Steps step s s'' :=
  Relation.ReflTransGen.trans h h'

theorem Steps.head {s s' s'' : σ} (h : step s = .next s') (h' : Steps step s' s'') :
    Steps step s s'' :=
  Relation.ReflTransGen.head h h'

theorem Steps.single {s s' : σ} (h : step s = .next s') : Steps step s s' :=
  Steps.head h (Steps.refl s')

/-! ## Coming to an end

The passes are deterministic, so how a run ends is a property of the state. -/

theorem Stops.of_stop {s : σ} {r : ρ} (h : step s = .stop r) : Stops step s r :=
  ⟨1, by rw [run, h]⟩

theorem stops_next {s s' : σ} {r : ρ} (h : step s = .next s') :
    Stops step s r ↔ Stops step s' r := by
  constructor
  · rintro ⟨fuel, hrun⟩
    cases fuel with
    | zero => cases hrun
    | succ fuel =>
        rw [run, h] at hrun
        exact ⟨fuel, hrun⟩
  · rintro ⟨fuel, hrun⟩
    exact ⟨fuel + 1, by rw [run, h]; exact hrun⟩

/-- A state and the states it leads to come to the same end. -/
theorem Steps.stops_iff {s s' : σ} (h : Steps step s s') (r : ρ) :
    Stops step s r ↔ Stops step s' r := by
  induction h with
  | refl => exact Iff.rfl
  | tail _ hstep ih => exact ih.trans (stops_next hstep)

theorem run_eq_none_of_loop {s : σ} (h : step s = .next s) (fuel : Nat) :
    run step fuel s = none := by
  induction fuel with
  | zero => rfl
  | succ fuel ih => rw [run, h]; exact ih

/-- A pass that leads back to where it started is repeated for ever. -/
theorem not_stops_of_loop {s : σ} (h : step s = .next s) (r : ρ) : ¬Stops step s r := by
  rintro ⟨fuel, hrun⟩
  rw [run_eq_none_of_loop h] at hrun
  cases hrun

/-- What holds at the start and is kept by every pass decides about the end. -/
theorem Stops.of_invariant {P : σ → Prop} {Q : ρ → Prop}
    (hnext : ∀ s s', P s → step s = .next s' → P s') (hstop : ∀ s r, P s → step s = .stop r → Q r)
    {s : σ} {r : ρ} (hs : P s) (h : Stops step s r) : Q r := by
  obtain ⟨fuel, hrun⟩ := h
  induction fuel generalizing s with
  | zero => cases hrun
  | succ fuel ih =>
      cases hstep : step s with
      | next s' =>
          rw [run, hstep] at hrun
          exact ih (hnext s s' hs hstep) hrun
      | stop r' =>
          rw [run, hstep] at hrun
          exact hstop s r hs (hstep.trans (congrArg Outcome.stop (Option.some.inj hrun)))

theorem Stops.unique {s : σ} {r r' : ρ} (h : Stops step s r) (h' : Stops step s r') : r = r' := by
  obtain ⟨fuel, hrun⟩ := h
  induction fuel generalizing s with
  | zero => cases hrun
  | succ fuel ih =>
      cases hstep : step s with
      | next s' =>
          rw [run, hstep] at hrun
          exact ih ((stops_next hstep).mp h') hrun
      | stop r'' =>
          obtain ⟨fuel', hrun'⟩ := h'
          cases fuel' with
          | zero => cases hrun'
          | succ fuel' =>
              rw [run, hstep] at hrun hrun'
              exact Option.some.inj (hrun.symm.trans hrun')

/-- A machine comes to an end if a measure goes down in every pass it makes. -/
theorem exists_stops {μ : σ → Nat} {s : σ}
    (h : ∀ s', Steps step s s' → ∀ s'', step s' = .next s'' → μ s'' < μ s') :
    ∃ r, Stops step s r := by
  induction hn : μ s using Nat.strongRecOn generalizing s with
  | ind n ih =>
      cases hstep : step s with
      | stop r => exact ⟨r, Stops.of_stop hstep⟩
      | next s' =>
          have hlt : μ s' < n := hn ▸ h s (Steps.refl s) s' hstep
          obtain ⟨r, hr⟩ := ih (μ s') hlt (fun t ht => h t (Steps.head hstep ht)) rfl
          exact ⟨r, (stops_next hstep).mpr hr⟩

/-- An invariant with a measure that goes down in every pass: the machine comes to an end, and with
what the last pass gives. -/
theorem exists_stops_of_invariant {P : σ → Prop} {Q : ρ → Prop} (μ : σ → Nat)
    (h : ∀ s, P s → (∃ s', step s = .next s' ∧ P s' ∧ μ s' < μ s) ∨ ∃ r, step s = .stop r ∧ Q r)
    {s : σ} (hs : P s) : ∃ r, Stops step s r ∧ Q r := by
  induction hn : μ s using Nat.strongRecOn generalizing s with
  | ind n ih =>
      rcases h s hs with ⟨s', hnext, hs', hlt⟩ | ⟨r, hstop, hr⟩
      · obtain ⟨r, hstops, hr⟩ := ih (μ s') (hn ▸ hlt) hs' rfl
        exact ⟨r, (stops_next hnext).mpr hstops, hr⟩
      · exact ⟨r, Stops.of_stop hstop, hr⟩

end Machine
