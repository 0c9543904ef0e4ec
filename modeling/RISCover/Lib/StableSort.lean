import Mathlib.Logic.Basic

/-!
# Stable sorting and filtering

What is left out of a list does not change the order in which a stable sort puts the rest
(`filter_mergeSort`). So a search through a sorted list that cannot stop at some of the elements may
be made without them (`findSome?_reverse_mergeSort`).
-/

namespace StableSort

variable {α β : Type} {le : α → α → Bool}

/-- Two lists are cut at the same place if a property changes there. -/
theorem append_inj_of_all {q : α → Bool} {xs ys us vs : List α} (h : xs ++ ys = us ++ vs)
    (hxs : ∀ a ∈ xs, q a = true) (hus : ∀ a ∈ us, q a = true) (hys : ∀ a ∈ ys, q a = false)
    (hvs : ∀ a ∈ vs, q a = false) : xs = us ∧ ys = vs := by
  have hcut : ∀ {s t : List α}, (∀ a ∈ s, q a = true) → (∀ a ∈ t, q a = false) →
      (s ++ t).filter q = s := by
    intro s t hs ht
    rw [List.filter_append, List.filter_eq_self.mpr hs, List.filter_eq_nil_iff.mpr, List.append_nil]
    intro a ha hq
    rw [ht a ha] at hq
    cases hq
  have hxu : xs = us := by rw [← hcut hxs hys, h, hcut hus hvs]
  rw [hxu] at h
  exact ⟨hxu, List.append_cancel_left h⟩

theorem filter_mergeSort (htrans : ∀ a b c, le a b → le b c → le a c)
    (htotal : ∀ a b, le a b || le b a) (p : α → Bool) (l : List α) :
    (l.mergeSort le).filter p = (l.filter p).mergeSort le := by
  induction l with
  | nil => rw [List.filter_nil, List.mergeSort_nil, List.filter_nil]
  | cons a l ih =>
      obtain ⟨l₁, l₂, hcons, hl, hlt⟩ := List.mergeSort_cons htrans htotal a l
      rw [hl, List.filter_append] at ih
      rw [hcons, List.filter_append, List.filter_cons, List.filter_cons]
      split
      next hp =>
        obtain ⟨m₁, m₂, hcons', hm, hlt'⟩ := List.mergeSort_cons htrans htotal a (l.filter p)
        rw [hm] at ih
        -- `a` stands in front of the elements that it is not above
        have hbehind : ∀ {s t ys : List α}, ys.mergeSort le = s ++ a :: t → ∀ b ∈ t, le a b := by
          intro s t ys hsort b hb
          have hsorted := List.pairwise_mergeSort htrans htotal ys
          rw [hsort] at hsorted
          exact (List.pairwise_cons.mp (List.pairwise_append.mp hsorted).2.1).1 b hb
        obtain ⟨hleft, hright⟩ := append_inj_of_all (q := fun b => !le a b) ih
          (fun b hb => hlt b (List.mem_filter.mp hb).1) hlt'
          (fun b hb => by rw [hbehind hcons b (List.mem_filter.mp hb).1]; rfl)
          (fun b hb => by rw [hbehind hcons' b hb]; rfl)
        rw [hcons', hleft, hright]
      next => exact ih

theorem findSome?_congr {f g : α → Option β} {l : List α} (h : ∀ a ∈ l, f a = g a) :
    l.findSome? f = l.findSome? g := by
  induction l with
  | nil => rfl
  | cons a l ih =>
      rw [List.findSome?_cons, List.findSome?_cons, h a List.mem_cons_self,
        ih fun b hb => h b (List.mem_cons_of_mem a hb)]

/-- A search does not stop at what is left out. -/
theorem findSome?_filter {f : α → Option β} {p : α → Bool} {l : List α}
    (h : ∀ a ∈ l, p a = false → f a = none) : (l.filter p).findSome? f = l.findSome? f := by
  induction l with
  | nil => rfl
  | cons a l ih =>
      have hl := ih fun b hb => h b (List.mem_cons_of_mem a hb)
      rw [List.filter_cons]
      split
      next => rw [List.findSome?_cons, List.findSome?_cons, hl]
      next hp => rw [List.findSome?_cons, h a List.mem_cons_self (Bool.eq_false_iff.mpr hp), hl]

theorem findSome?_reverse_mergeSort (htrans : ∀ a b c, le a b → le b c → le a c)
    (htotal : ∀ a b, le a b || le b a) {f : α → Option β} {p : α → Bool} {l : List α}
    (h : ∀ a ∈ l, p a = false → f a = none) :
    (l.mergeSort le).reverse.findSome? f = ((l.filter p).mergeSort le).reverse.findSome? f := by
  rw [← filter_mergeSort htrans htotal, ← List.filter_reverse]
  refine (findSome?_filter fun a ha => h a ?_).symm
  exact List.mem_mergeSort.mp (List.mem_reverse.mp ha)

end StableSort
