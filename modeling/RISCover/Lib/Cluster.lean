import Mathlib.Data.List.Nodup
import Mathlib.Data.List.Perm.Basic

/-!
# Grouping by a comparison

`cluster r val l` files the elements of `l` one by one under the first key that compares equal,
as a dictionary does whose keys all have one hash; an element that no key equals becomes a key.
`r` need not be an equivalence. `groups_cons` says what the loop amounts to: the first element
takes what it equals, the others are grouped among themselves.
-/

namespace Cluster

variable {α β : Type} {r : α → α → Bool}

/-- File `v` under `x`. -/
def insert (r : α → α → Bool) (x : α) (v : β) : List (α × List β) → List (α × List β)
  | [] => [(x, [v])]
  | (k, vs) :: gs => if r k x then (k, vs ++ [v]) :: gs else (k, vs) :: insert r x v gs

/-- File the values of all elements. -/
def cluster (r : α → α → Bool) (val : α → β) (l : List α) : List (α × List β) :=
  l.foldl (fun gs x => insert r x (val x) gs) []

/-- Two values are filed under one key. -/
def Together (gs : List (α × List β)) (v w : β) : Prop := ∃ g ∈ gs, v ∈ g.2 ∧ w ∈ g.2

/-- The groups with the elements themselves. -/
def groups (r : α → α → Bool) (l : List α) : List (α × List α) := cluster r id l

/-! ## The groups of a list

The groups are found by recursion on what the first element leaves over (`groups_induct`). -/

@[simp] theorem groups_nil : groups r ([] : List α) = [] := rfl

/-- A group that is there takes what its key equals. -/
theorem foldl_insert_cons (k : α) (l vs : List α) (gs : List (α × List α)) :
    l.foldl (fun gs x => insert r x x gs) ((k, vs) :: gs) =
      (k, vs ++ l.filter (r k)) ::
        (l.filter fun x => !r k x).foldl (fun gs x => insert r x x gs) gs := by
  induction l generalizing vs gs with
  | nil => simp
  | cons x l ih =>
      rw [List.foldl_cons, insert]
      by_cases h : r k x = true
      · rw [if_pos h, ih]
        simp [h]
      · rw [if_neg h, ih]
        simp [h]

theorem groups_cons (x : α) (l : List α) :
    groups r (x :: l) =
      (x, x :: l.filter (r x)) :: groups r (l.filter fun y => !r x y) :=
  foldl_insert_cons x l [x] []

/-- Induction along `groups_cons`. -/
theorem groups_induct {motive : List α → Prop} (nil : motive [])
    (cons : ∀ x l, motive (l.filter fun y => !r x y) → motive (x :: l)) (l : List α) :
    motive l := by
  induction hn : l.length using Nat.strongRecOn generalizing l with
  | _ n ih =>
    cases l with
    | nil => exact nil
    | cons x l =>
        have hlt : (l.filter fun y => !r x y).length < n := by
          rw [← hn, List.length_cons]
          exact Nat.lt_succ_of_le (List.length_filter_le _ l)
        exact cons x l (ih _ hlt _ rfl)

/-- Filing values is filing elements. -/
theorem cluster_eq_map (val : α → β) (l : List α) :
    cluster r val l = (groups r l).map fun g => (g.1, g.2.map val) := by
  -- what is filed does not decide where
  have hinsert : ∀ (x : α) (gs : List (α × List α)),
      insert r x (val x) (gs.map fun g => (g.1, g.2.map val)) =
        (insert r x x gs).map fun g => (g.1, g.2.map val) := by
    intro x gs
    induction gs with
    | nil => rfl
    | cons g gs ih =>
        rw [List.map_cons, insert, insert]
        by_cases h : r g.1 x = true
        · rw [if_pos h, if_pos h]
          simp
        · rw [if_neg h, if_neg h, ih]
          rfl
  have hfold : ∀ gs : List (α × List α),
      l.foldl (fun gs x => insert r x (val x) gs) (gs.map fun g => (g.1, g.2.map val)) =
        (l.foldl (fun gs x => insert r x x gs) gs).map fun g => (g.1, g.2.map val) := by
    induction l with
    | nil => intro gs; rfl
    | cons x l ih =>
        intro gs
        rw [List.foldl_cons, List.foldl_cons, hinsert, ih]
  exact hfold []

/-- Grouping images is grouping what they are images of. -/
theorem groups_map {γ : Type} (f : γ → α) (l : List γ) :
    groups r (l.map f) =
      (groups (fun x y => r (f x) (f y)) l).map fun g => (f g.1, g.2.map f) := by
  induction l using groups_induct (r := fun x y => r (f x) (f y)) with
  | nil => rfl
  | cons x l ih =>
      rw [List.map_cons, groups_cons, groups_cons, List.filter_map, List.filter_map, List.map_cons]
      exact congrArg _ ih

/-- Nothing is lost and nothing is filed twice. -/
theorem flatMap_groups_perm (l : List α) : ((groups r l).flatMap Prod.snd).Perm l := by
  induction l using groups_induct (r := r) with
  | nil => exact List.Perm.refl _
  | cons x l ih =>
      rw [groups_cons, List.flatMap_cons, List.cons_append]
      exact ((ih.append_left _).trans (List.filter_append_perm (r x) l)).cons x

theorem mem_of_mem_groups {l : List α} {g : α × List α} (hg : g ∈ groups r l) {x : α}
    (hx : x ∈ g.2) : x ∈ l :=
  (flatMap_groups_perm l).subset (List.mem_flatMap.mpr ⟨g, hg, hx⟩)

theorem exists_group {l : List α} {x : α} (hx : x ∈ l) : ∃ g ∈ groups r l, x ∈ g.2 :=
  List.mem_flatMap.mp ((flatMap_groups_perm l).symm.subset hx)

/-- The key is the first element of its group. -/
theorem head?_of_mem_groups {l : List α} {g : α × List α} (hg : g ∈ groups r l) :
    g.2.head? = some g.1 := by
  induction l using groups_induct (r := r) with
  | nil => cases hg
  | cons x l ih =>
      rw [groups_cons] at hg
      rcases List.mem_cons.mp hg with rfl | hg
      · rfl
      · exact ih hg

theorem key_mem {l : List α} {g : α × List α} (hg : g ∈ groups r l) : g.1 ∈ g.2 :=
  List.mem_of_mem_head? (head?_of_mem_groups hg)

/-- Groups of distinct elements are disjoint. -/
theorem groups_pairwise_disjoint {l : List α} (hl : l.Nodup) :
    ((groups r l).map Prod.snd).Pairwise List.Disjoint := by
  have h := (flatMap_groups_perm (r := r) l).nodup_iff.mpr hl
  rw [List.pairwise_map]
  exact (List.nodup_flatMap.mp h).2

/-- A key is not filed under an earlier one. -/
theorem groups_pairwise_apart (l : List α) :
    (groups r l).Pairwise fun g g' => r g.1 g'.1 = false := by
  induction l using groups_induct (r := r) with
  | nil => exact List.Pairwise.nil
  | cons x l ih =>
      rw [groups_cons]
      refine List.Pairwise.cons (fun g hg => ?_) ih
      simpa using (List.mem_filter.mp (mem_of_mem_groups hg (key_mem hg))).2

/-! ## How many groups there are

There are two groups as soon as an element is not in the first one. A property that equal elements
share can be looked at group by group. -/

/-- There is a second group when the first element does not equal all others. -/
theorem one_lt_length_groups_iff {l : List α} (hrefl : ∀ x ∈ l, r x x = true) :
    1 < (groups r l).length ↔ ∃ x ∈ l.head?, ∃ y ∈ l, r x y = false := by
  cases l with
  | nil => simp
  | cons x l =>
      have hx := hrefl x List.mem_cons_self
      have hpos : 0 < (groups r (l.filter fun y => !r x y)).length ↔
          ∃ y ∈ l, r x y = false := by
        rw [List.length_pos_iff]
        constructor
        · intro hne
          obtain ⟨g, hg⟩ := List.exists_mem_of_ne_nil _ hne
          have hmem := List.mem_filter.mp (mem_of_mem_groups hg (key_mem hg))
          exact ⟨g.1, hmem.1, by simpa using hmem.2⟩
        · rintro ⟨y, hy, hne⟩
          have hmem : y ∈ l.filter fun y => !r x y := List.mem_filter.mpr ⟨hy, by simpa using hne⟩
          obtain ⟨g, hg, -⟩ := exists_group (r := r) hmem
          exact List.ne_nil_of_mem hg
      rw [groups_cons, List.length_cons]
      simp only [List.head?_cons, Option.mem_def, Option.some.injEq, List.mem_cons, exists_eq_left',
        exists_eq_or_imp, hx, Bool.true_eq_false, false_or]
      rw [← hpos]
      omega

/-- The groups whose keys have a property that equal elements share. -/
theorem filter_groups (p : α → Bool) (l : List α)
    (hp : ∀ x ∈ l, ∀ y ∈ l, r x y = true → p x = p y) :
    (groups r l).filter (fun g => p g.1) = groups r (l.filter p) := by
  induction l using groups_induct (r := r) with
  | nil => rfl
  | cons x l ih =>
      have hx : ∀ y ∈ l, r x y = true → p x = p y := fun y hy =>
        hp x List.mem_cons_self y (List.mem_cons_of_mem x hy)
      have hrest := ih fun y hy z hz =>
        hp y (List.mem_cons_of_mem x (List.mem_of_mem_filter hy)) z
          (List.mem_cons_of_mem x (List.mem_of_mem_filter hz))
      rw [groups_cons, List.filter_cons, List.filter_cons, hrest, List.filter_filter]
      by_cases hpx : p x = true
      · -- the first element is kept, and so is all that it takes
        have htake : (l.filter p).filter (r x) = l.filter (r x) := by
          rw [List.filter_filter]
          apply List.filter_congr
          intro y hy
          by_cases hs : r x y = true
          · rw [hs, ← hx y hy hs, hpx]
            rfl
          · simp [hs]
        rw [if_pos hpx, if_pos hpx, groups_cons, htake, List.filter_filter]
        simp only [Bool.and_comm]
      · -- the first element is left out, and with it all that it takes
        have hleave : (l.filter fun y => p y && !r x y) = l.filter p := by
          apply List.filter_congr
          intro y hy
          by_cases hs : r x y = true
          · rw [← hx y hy hs]
            simp [hpx]
          · simp [hs]
        rw [if_neg hpx, if_neg hpx, hleave]

/-- The first group whose key has the property is that of the first element that has it. -/
theorem find?_groups (p : α → Bool) (l : List α) (hrefl : ∀ x ∈ l, r x x = true)
    (hp : ∀ x ∈ l, ∀ y ∈ l, r x y = true → p x = p y) :
    (groups r l).find? (fun g => p g.1) = (l.find? p).map fun x => (x, l.filter (r x)) := by
  rw [← List.head?_filter, filter_groups p l hp, ← List.head?_filter]
  cases hl : l.filter p with
  | nil => rfl
  | cons x l' =>
      have hx : x ∈ l ∧ p x = true := List.mem_filter.mp (by rw [hl]; exact List.mem_cons_self)
      have htake : l.filter (r x) = (l.filter p).filter (r x) := by
        rw [List.filter_filter]
        apply List.filter_congr
        intro y hy
        by_cases hs : r x y = true
        · rw [hs, ← hp x hx.1 y hy hs, hx.2]
          rfl
        · simp [hs]
      rw [groups_cons, List.head?_cons, List.head?_cons, Option.map_some, htake, hl,
        List.filter_cons, if_pos (hrefl x hx.1)]

/-! ## Grouping by an equivalence

With a symmetric and transitive comparison a group is all elements equal to any of its own. -/

/-- The comparison is reflexive and symmetric on the elements. -/
structure ToleranceOn (r : α → α → Bool) (l : List α) : Prop where
  refl : ∀ x ∈ l, r x x = true
  symm : ∀ x ∈ l, ∀ y ∈ l, r x y = true → r y x = true

/-- The comparison is transitive on the elements. -/
def TransOn (r : α → α → Bool) (l : List α) : Prop :=
  ∀ x ∈ l, ∀ y ∈ l, ∀ z ∈ l, r x y = true → r y z = true → r x z = true

theorem ToleranceOn.mono {l l' : List α} (h : ToleranceOn r l) (hsub : l' ⊆ l) :
    ToleranceOn r l' :=
  ⟨fun x hx => h.refl x (hsub hx), fun x hx y hy => h.symm x (hsub hx) y (hsub hy)⟩

theorem TransOn.mono {l l' : List α} (h : TransOn r l) (hsub : l' ⊆ l) : TransOn r l' :=
  fun x hx y hy z hz => h x (hsub hx) y (hsub hy) z (hsub hz)

section Equivalence

variable {l : List α} (htol : ToleranceOn r l) (htrans : TransOn r l)

include htol htrans

/-- A group consists of everything its key equals. -/
theorem group_eq_filter {g : α × List α} (hg : g ∈ groups r l) :
    g.2 = l.filter (r g.1) := by
  induction l using groups_induct (r := r) with
  | nil => cases hg
  | cons x l ih =>
      have hxmem : x ∈ x :: l := List.mem_cons_self
      have hsub : (l.filter fun y => !r x y) ⊆ x :: l := fun y hy =>
        List.mem_cons_of_mem x (List.mem_of_mem_filter hy)
      rw [groups_cons] at hg
      rcases List.mem_cons.mp hg with rfl | hg
      · -- the first group
        rw [List.filter_cons, if_pos (htol.refl x hxmem)]
      · have hgroup := ih (htol.mono hsub) (htrans.mono hsub) hg
        have hkey := mem_of_mem_groups hg (key_mem hg)
        have hne : r x g.1 = false := by simpa using (List.mem_filter.mp hkey).2
        -- what the key equals is not equal to `x`
        have hapart : ∀ y ∈ x :: l, r g.1 y = true → r x y = false := by
          intro y hy hs
          by_contra hxy
          have hback := htol.symm g.1 (hsub hkey) y hy hs
          have hxk := htrans x hxmem y hy g.1 (hsub hkey) (by simpa using hxy) hback
          rw [hne] at hxk
          cases hxk
        have hxkey : r g.1 x = false := by
          by_contra hs
          have := hapart x hxmem (by simpa using hs)
          rw [htol.refl x hxmem] at this
          cases this
        rw [hgroup, List.filter_filter, List.filter_cons, if_neg (by simp [hxkey])]
        apply List.filter_congr
        intro y hy
        by_cases hs : r g.1 y = true
        · rw [hs, hapart y (List.mem_cons_of_mem x hy) hs]
          rfl
        · simp [hs]

theorem together_groups_iff {x y : α} (hx : x ∈ l) (hy : y ∈ l) :
    Together (groups r l) x y ↔ r x y = true := by
  constructor
  · rintro ⟨g, hg, hxg, hyg⟩
    have hk := mem_of_mem_groups hg (key_mem hg)
    rw [group_eq_filter htol htrans hg, List.mem_filter] at hxg hyg
    exact htrans x hx g.1 hk y hy (htol.symm g.1 hk x hx hxg.2) hyg.2
  · intro hs
    obtain ⟨g, hg, hxg⟩ := exists_group (r := r) hx
    have hk := mem_of_mem_groups hg (key_mem hg)
    refine ⟨g, hg, hxg, ?_⟩
    rw [group_eq_filter htol htrans hg, List.mem_filter] at hxg ⊢
    exact ⟨hy, htrans g.1 hk x hx y hy hxg.2 hs⟩

/-- There is a second group when two elements differ. -/
theorem one_lt_length_groups_iff_exists :
    1 < (groups r l).length ↔ ∃ x ∈ l, ∃ y ∈ l, r x y = false := by
  rw [one_lt_length_groups_iff htol.refl]
  constructor
  · rintro ⟨x, hx, y, hy, hne⟩
    exact ⟨x, List.mem_of_mem_head? hx, y, hy, hne⟩
  · rintro ⟨x, hx, y, hy, hne⟩
    obtain ⟨z, hz⟩ : ∃ z, l.head? = some z := by
      cases l with
      | nil => cases hx
      | cons z l => exact ⟨z, rfl⟩
    have hzmem := List.mem_of_mem_head? hz
    refine ⟨z, hz, ?_⟩
    by_cases hzx : r z x = true
    · refine ⟨y, hy, ?_⟩
      by_contra hzy
      have hxy := htrans x hx z hzmem y hy (htol.symm z hzmem x hx hzx) (by simpa using hzy)
      rw [hne] at hxy
      cases hxy
    · exact ⟨x, hx, by simpa using hzx⟩

end Equivalence

/-! ## Order independence

If `x` equals `y` and `y` equals `z`, the list that begins with `y` has all three in one group. That
the one that begins with `x` has them as well is transitivity. -/

/-- The grouping is the same for every order of the elements exactly when the comparison is
transitive. -/
theorem together_perm_iff_transOn {l : List α} (htol : ToleranceOn r l) :
    (∀ l', l'.Perm l → ∀ x ∈ l, ∀ y ∈ l,
      (Together (groups r l') x y ↔ Together (groups r l) x y)) ↔ TransOn r l := by
  constructor
  · intro h x hx y hy z hz hxy hyz
    -- with `y` first all three are filed under `y`
    have hyfirst : Together (groups r l) x z := by
      obtain ⟨s, t, rfl⟩ := List.append_of_mem hy
      have hperm : (y :: (s ++ t)).Perm (s ++ y :: t) := List.perm_middle.symm
      refine (h _ hperm x hx z hz).mp ⟨(y, y :: (s ++ t).filter (r y)), ?_, ?_, ?_⟩
      · rw [groups_cons]
        exact List.mem_cons_self
      · rcases List.mem_cons.mp (hperm.symm.subset hx) with rfl | hmem
        · exact List.mem_cons_self
        · exact List.mem_cons_of_mem y (List.mem_filter.mpr ⟨hmem, htol.symm x hx y hy hxy⟩)
      · rcases List.mem_cons.mp (hperm.symm.subset hz) with rfl | hmem
        · exact List.mem_cons_self
        · exact List.mem_cons_of_mem y (List.mem_filter.mpr ⟨hmem, hyz⟩)
    -- with `x` first only what equals `x` is filed with it
    obtain ⟨s, t, rfl⟩ := List.append_of_mem hx
    have hperm : (x :: (s ++ t)).Perm (s ++ x :: t) := List.perm_middle.symm
    obtain ⟨g, hg, hxg, hzg⟩ := (h _ hperm x hx z hz).mpr hyfirst
    rw [groups_cons] at hg
    rcases List.mem_cons.mp hg with rfl | hg
    · rcases List.mem_cons.mp hzg with rfl | hmem
      · exact htol.refl z hz
      · exact (List.mem_filter.mp hmem).2
    · have hxx := (List.mem_filter.mp (mem_of_mem_groups hg hxg)).2
      simp [htol.refl x hx] at hxx
  · intro htrans l' hperm x hx y hy
    have hsub := hperm.subset
    rw [together_groups_iff (htol.mono hsub) (htrans.mono hsub) (hperm.mem_iff.mpr hx)
      (hperm.mem_iff.mpr hy), together_groups_iff htol htrans hx hy]

end Cluster
