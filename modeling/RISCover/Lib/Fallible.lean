import Mathlib.Data.List.Forall2

/-!
# Fallible loops

When a computation in `Except` succeeds: a sequence of two exactly if both do, a loop over a list
exactly if it does on every element, with the results in the order of the list.
-/

namespace Fallible

variable {ε α β : Type}

theorem bind_eq_ok_iff {m : Except ε α} {f : α → Except ε β} {b : β} :
    (m >>= f) = .ok b ↔ ∃ a, m = .ok a ∧ f a = .ok b := by
  cases m with
  | error e =>
      constructor
      · intro h
        cases h
      · rintro ⟨a, h, -⟩
        cases h
  | ok a =>
      constructor
      · intro h
        exact ⟨a, rfl, h⟩
      · rintro ⟨a', h, hf⟩
        cases h
        exact hf

theorem mapM_eq_ok_iff {f : α → Except ε β} {l : List α} {bs : List β} :
    l.mapM f = .ok bs ↔ List.Forall₂ (fun a b => f a = .ok b) l bs := by
  induction l generalizing bs with
  | nil =>
      rw [List.forall₂_nil_left_iff]
      exact ⟨fun h => by cases h; rfl, fun h => by rw [h]; rfl⟩
  | cons a l ih =>
      rw [List.mapM_cons, bind_eq_ok_iff, List.forall₂_cons_left_iff]
      constructor
      · rintro ⟨b, hb, hrest⟩
        obtain ⟨bs', hbs', hpure⟩ := bind_eq_ok_iff.mp hrest
        cases hpure
        exact ⟨b, bs', hb, ih.mp hbs', rfl⟩
      · rintro ⟨b, bs', hb, hbs', rfl⟩
        exact ⟨b, hb, bind_eq_ok_iff.mpr ⟨bs', ih.mpr hbs', rfl⟩⟩

/-- A loop whose steps all succeed. -/
theorem mapM_eq_ok {f : α → Except ε β} {g : α → β} {l : List α} (h : ∀ a ∈ l, f a = .ok (g a)) :
    l.mapM f = .ok (l.map g) := by
  rw [mapM_eq_ok_iff, List.forall₂_map_right_iff, List.forall₂_same]
  exact h

/-- A loop that fails can fail in one way only. -/
theorem mapM_eq_error {f : α → Except ε β} {l : List α} {e : ε}
    (honly : ∀ a e', f a = .error e' → e' = e) {a : α} (ha : a ∈ l) (h : f a = .error e) :
    l.mapM f = .error e := by
  induction l with
  | nil => cases ha
  | cons x l ih =>
      rw [List.mapM_cons]
      cases hx : f x with
      | error e' =>
          rw [honly x e' hx]
          rfl
      | ok b =>
          rcases List.mem_cons.mp ha with rfl | hmem
          · rw [h] at hx
            cases hx
          · show (l.mapM f >>= fun bs => pure (b :: bs)) = _
            rw [ih hmem]
            rfl

section related

variable {R : α → β → Prop} {l : List α} {bs : List β}

theorem exists_of_mem_left (h : List.Forall₂ R l bs) {a : α} (ha : a ∈ l) : ∃ b ∈ bs, R a b := by
  induction h with
  | nil => exact absurd ha List.not_mem_nil
  | @cons _ b _ _ hab _ ih =>
      rcases List.mem_cons.mp ha with rfl | hmem
      · exact ⟨b, List.mem_cons_self, hab⟩
      · obtain ⟨b', hb', hR⟩ := ih hmem
        exact ⟨b', List.mem_cons_of_mem b hb', hR⟩

theorem exists_of_mem_right (h : List.Forall₂ R l bs) {b : β} (hb : b ∈ bs) : ∃ a ∈ l, R a b :=
  exists_of_mem_left h.flip hb

/-- A list that is related exists if every element has one that is. -/
theorem exists_forall₂_iff : (∃ bs, List.Forall₂ R l bs) ↔ ∀ a ∈ l, ∃ b, R a b := by
  induction l with
  | nil => exact ⟨fun _ a ha => absurd ha List.not_mem_nil, fun _ => ⟨[], List.Forall₂.nil⟩⟩
  | cons a l ih =>
      rw [List.forall_mem_cons, ← ih]
      constructor
      · rintro ⟨bs, h⟩
        obtain ⟨b, bs', hb, hbs', rfl⟩ := List.forall₂_cons_left_iff.mp h
        exact ⟨⟨b, hb⟩, bs', hbs'⟩
      · rintro ⟨⟨b, hb⟩, bs', hbs'⟩
        exact ⟨b :: bs', List.Forall₂.cons hb hbs'⟩

end related

/-- Where a loop succeeds. -/
theorem exists_mapM_eq_ok_iff {f : α → Except ε β} {l : List α} :
    (∃ bs, l.mapM f = .ok bs) ↔ ∀ a ∈ l, ∃ b, f a = .ok b := by
  simp only [mapM_eq_ok_iff]
  exact exists_forall₂_iff

end Fallible
