import RISCover.Lib.Cluster

/-!
# Splitting blocks round by round

A list is split into blocks over and over: in round `n` every block is grouped by the comparison
`same n`, groups that do not go on and groups of one element are dropped, and the others are the
blocks of the next round. After `n` rounds a block consists of the elements that agreed in all of
them, in their old order (`eq_filter_of_mem_blocks`), and elements that agreed are never lost
(`filter_mem_blocks`).
-/

open Cluster

namespace Refine

variable {α : Type} (same : Nat → α → α → Bool) (goesOn : Nat → α → Bool)
  (arrange : List (α × List α) → List (α × List α)) (l : List α)

/-- The blocks that one block leaves; `arrange` puts its groups into some order. -/
def survivors (n : Nat) (block : List α) : List (List α) :=
  (arrange (groups (same n) block)).filterMap fun g =>
    if goesOn n g.1 && decide (1 < g.2.length) then some g.2 else none

/-- The blocks in front of round `n`. -/
def blocks : Nat → List (List α)
  | 0 => [l]
  | n + 1 => (blocks n).flatMap (survivors same goesOn arrange n)

/-- The elements agreed in all rounds up to `n`, and went on. -/
def agree (n : Nat) (x y : α) : Bool := (List.range n).all fun i => goesOn i x && same i x y

/-- What the rounds have to fulfil. -/
structure Lawful : Prop where
  arrange_perm : ∀ gs, (arrange gs).Perm gs
  tolerance : ∀ n, ToleranceOn (same n) l
  trans : ∀ n, TransOn (same n) l
  goesOn_congr : ∀ n, ∀ x ∈ l, ∀ y ∈ l, same n x y = true → goesOn n x = goesOn n y

variable {same goesOn arrange l}

/-! ## Agreement

Agreeing in the first `n` rounds, one round at a time. -/

@[simp] theorem agree_zero (x y : α) : agree same goesOn 0 x y = true := rfl

theorem agree_succ (n : Nat) (x y : α) :
    agree same goesOn (n + 1) x y = (agree same goesOn n x y && (goesOn n x && same n x y)) := by
  simp [agree, List.range_succ, List.all_append]

theorem agree_iff {n : Nat} {x y : α} :
    agree same goesOn n x y = true ↔ ∀ i < n, goesOn i x = true ∧ same i x y = true := by
  simp [agree]

namespace Lawful

variable (h : Lawful same goesOn arrange l)

include h

theorem agree_refl_left {n : Nat} {x y : α} (hx : x ∈ l) (hxy : agree same goesOn n x y = true) :
    agree same goesOn n x x = true := by
  rw [agree_iff] at hxy ⊢
  exact fun i hi => ⟨(hxy i hi).1, (h.tolerance i).refl x hx⟩

/-- What equals one of two equal elements equals the other. -/
theorem same_congr {n : Nat} {x y z : α} (hx : x ∈ l) (hy : y ∈ l) (hz : z ∈ l)
    (hxy : same n x y = true) : same n x z = same n y z := by
  rw [Bool.eq_iff_iff]
  constructor
  · intro hxz
    exact h.trans n y hy x hx z hz ((h.tolerance n).symm x hx y hy hxy) hxz
  · intro hyz
    exact h.trans n x hx y hy z hz hxy hyz

/-! ## Blocks

Both directions are by induction on the rounds: what is in a block agreed, and what agreed is in one
block. -/

/-- A surviving block is a group of its predecessor. -/
theorem exists_group_of_mem_survivors {n : Nat} {B C : List α}
    (hC : C ∈ survivors same goesOn arrange n B) :
    ∃ g ∈ groups (same n) B, g.2 = C ∧ goesOn n g.1 = true ∧ 1 < C.length := by
  obtain ⟨g, hg, hkeep⟩ := List.mem_filterMap.mp hC
  refine ⟨g, (h.arrange_perm _).mem_iff.mp hg, ?_⟩
  split at hkeep
  next hcond =>
    obtain rfl := Option.some.inj hkeep
    rw [Bool.and_eq_true, decide_eq_true_eq] at hcond
    exact ⟨rfl, hcond⟩
  next => cases hkeep

/-- A block consists of everything that agrees with one of its elements. -/
theorem eq_filter_of_mem_blocks {n : Nat} {B : List α} (hB : B ∈ blocks same goesOn arrange l n)
    {x : α} (hx : x ∈ B) : x ∈ l ∧ B = l.filter (agree same goesOn n x) := by
  induction n generalizing B x with
  | zero =>
      obtain rfl := List.mem_singleton.mp hB
      exact ⟨hx, (List.filter_eq_self.mpr fun y _ => agree_zero x y).symm⟩
  | succ n ih =>
      obtain ⟨B', hB', hC⟩ := List.mem_flatMap.mp hB
      obtain ⟨g, hg, rfl, hgo, -⟩ := h.exists_group_of_mem_survivors hC
      obtain ⟨hxl, hfilter⟩ := ih hB' (mem_of_mem_groups hg hx)
      have hsub : B' ⊆ l := fun y hy => (ih hB' hy).1
      have hkey : g.1 ∈ l := hsub (mem_of_mem_groups hg (key_mem hg))
      have hgroup := group_eq_filter ((h.tolerance n).mono hsub) ((h.trans n).mono hsub) hg
      have hkx : same n g.1 x = true := by
        rw [hgroup] at hx
        exact (List.mem_filter.mp hx).2
      have hgox : goesOn n x = true := (h.goesOn_congr n g.1 hkey x hxl hkx).symm.trans hgo
      refine ⟨hxl, ?_⟩
      rw [hgroup, hfilter, List.filter_filter]
      apply List.filter_congr
      intro y hy
      rw [agree_succ, hgox, Bool.true_and, Bool.and_comm, h.same_congr hkey hxl hy hkx]

/-- Elements that agree are in a block. -/
theorem filter_mem_blocks {n : Nat} {x y : α} (hx : x ∈ l) (hy : y ∈ l) (hne : x ≠ y)
    (hxy : agree same goesOn n x y = true) :
    l.filter (agree same goesOn n x) ∈ blocks same goesOn arrange l n := by
  induction n with
  | zero =>
      rw [List.filter_eq_self.mpr fun y _ => agree_zero x y]
      exact List.mem_singleton_self l
  | succ n ih =>
      have hstep := hxy
      rw [agree_succ, Bool.and_eq_true, Bool.and_eq_true] at hstep
      obtain ⟨hbefore, hgo, hs⟩ := hstep
      have hB := ih hbefore
      have hsub : l.filter (agree same goesOn n x) ⊆ l := List.filter_subset_self l
      have hxB : x ∈ l.filter (agree same goesOn n x) :=
        List.mem_filter.mpr ⟨hx, h.agree_refl_left hx hbefore⟩
      have hyB : y ∈ l.filter (agree same goesOn n x) := List.mem_filter.mpr ⟨hy, hbefore⟩
      obtain ⟨g, hg, hxg, hyg⟩ := (together_groups_iff ((h.tolerance n).mono hsub)
        ((h.trans n).mono hsub) hxB hyB).mpr hs
      have hkey : g.1 ∈ l := hsub (mem_of_mem_groups hg (key_mem hg))
      have hkx : same n g.1 x = true := by
        rw [group_eq_filter ((h.tolerance n).mono hsub) ((h.trans n).mono hsub) hg] at hxg
        exact (List.mem_filter.mp hxg).2
      -- the group has both elements, so it is not dropped
      have hlen : 1 < g.2.length := by
        by_contra hle
        obtain ⟨z, hz⟩ := List.length_eq_one_iff.mp
          (Nat.le_antisymm (Nat.not_lt.mp hle) (List.length_pos_of_mem hxg))
        rw [hz, List.mem_singleton] at hxg hyg
        exact hne (hxg.trans hyg.symm)
      have hmem : g.2 ∈ blocks same goesOn arrange l (n + 1) := by
        refine List.mem_flatMap.mpr ⟨_, hB, List.mem_filterMap.mpr ⟨g, ?_, ?_⟩⟩
        · exact (h.arrange_perm _).mem_iff.mpr hg
        · rw [h.goesOn_congr n g.1 hkey x hx hkx, hgo]
          simp [hlen]
      exact (h.eq_filter_of_mem_blocks hmem hxg).2 ▸ hmem

theorem nodup_of_mem_blocks (hl : l.Nodup) {n : Nat} {B : List α}
    (hB : B ∈ blocks same goesOn arrange l n) : B.Nodup := by
  cases B with
  | nil => exact List.nodup_nil
  | cons x B =>
      rw [(h.eq_filter_of_mem_blocks hB List.mem_cons_self).2]
      exact hl.filter _

/-- Blocks do not overlap. -/
theorem blocks_pairwise_disjoint (hl : l.Nodup) (n : Nat) :
    (blocks same goesOn arrange l n).Pairwise List.Disjoint := by
  induction n with
  | zero => exact List.pairwise_singleton _ _
  | succ n ih =>
      rw [blocks, List.pairwise_flatMap]
      constructor
      · intro B hB
        have hgroups := groups_pairwise_disjoint (r := same n) (h.nodup_of_mem_blocks hl hB)
        rw [List.pairwise_map, ← (h.arrange_perm _).pairwise_iff List.disjoint_symm] at hgroups
        rw [survivors, List.pairwise_filterMap]
        refine hgroups.imp fun hdisjoint B₁ h₁ B₂ h₂ => ?_
        split at h₁
        next =>
          split at h₂
          next => exact Option.some.inj h₁ ▸ Option.some.inj h₂ ▸ hdisjoint
          next => cases h₂
        next => cases h₁
      · refine ih.imp_of_mem fun hB hB' hdisjoint C hC C' hC' x hx hx' => ?_
        obtain ⟨g, hg, rfl, -⟩ := h.exists_group_of_mem_survivors hC
        obtain ⟨g', hg', rfl, -⟩ := h.exists_group_of_mem_survivors hC'
        exact hdisjoint (mem_of_mem_groups hg hx) (mem_of_mem_groups hg' hx')

/-- Two elements of one block agree. -/
theorem agree_of_mem_blocks {n : Nat} {B : List α} (hB : B ∈ blocks same goesOn arrange l n)
    {x y : α} (hx : x ∈ B) (hy : y ∈ B) : agree same goesOn n x y = true := by
  rw [(h.eq_filter_of_mem_blocks hB hx).2] at hy
  exact (List.mem_filter.mp hy).2

end Lawful

end Refine
