import Mathlib.Data.Fintype.Card
import Mathlib.Data.List.Dedup
import Mathlib.Logic.Function.Basic

/-!
# Drawing numbers

Parties draw numbers from a shared counter, one at a time, and give them back in any order. A party
may also keep its number for ever. Whatever the order, every number that was drawn was given back
once or is held by one party (`Draws.Valid.settled`). When only small numbers are given back, the
counter cannot go far beyond them (`Draws.Valid.length_le`).
-/

/-- Who drew which number, who holds which one, and the numbers that were given back. -/
structure Draws (ι : Type) where
  owners : List ι
  holds : ι → Option Nat
  returned : List Nat

namespace Draws

variable {ι : Type}

/-- Nobody has drawn a number yet. -/
def start : Draws ι := ⟨[], fun _ => none, []⟩

/-- A party holds the numbers that it drew and did not give back, so it has drawn one at most since
it held none. -/
structure Valid (d : Draws ι) : Prop where
  holds_iff : ∀ i n, d.holds i = some n ↔ d.owners[n]? = some i ∧ n ∉ d.returned
  nodup : d.returned.Nodup
  lt : ∀ n ∈ d.returned, n < d.owners.length

theorem valid_start : (start : Draws ι).Valid where
  holds_iff := by
    intro i n
    simp [start]
  nodup := List.nodup_nil
  lt := by
    intro n hn
    cases hn

variable {d : Draws ι} {i : ι} {n : Nat}

theorem Valid.lt_of_holds (h : d.Valid) (hi : d.holds i = some n) : n < d.owners.length :=
  (List.getElem?_eq_some_iff.mp ((h.holds_iff i n).mp hi).1).1

theorem Valid.not_mem_of_holds (h : d.Valid) (hi : d.holds i = some n) : n ∉ d.returned :=
  ((h.holds_iff i n).mp hi).2

/-- Nobody else holds the number. -/
theorem Valid.alone (h : d.Valid) {j : ι} (hi : d.holds i = some n) (hj : d.holds j = some n) :
    i = j := by
  have hown := ((h.holds_iff i n).mp hi).1
  rw [((h.holds_iff j n).mp hj).1] at hown
  exact (Option.some.inj hown).symm

/-- A number that was drawn was given back, or somebody holds it. -/
theorem Valid.settled (h : d.Valid) (hn : n < d.owners.length) :
    n ∈ d.returned ∨ ∃ i, d.holds i = some n := by
  by_cases hret : n ∈ d.returned
  · exact Or.inl hret
  · exact Or.inr ⟨d.owners[n], (h.holds_iff _ n).mpr ⟨List.getElem?_eq_getElem hn, hret⟩⟩

/-- Once only numbers below `bound` come back, every party draws one more at most. -/
theorem Valid.length_le [Fintype ι] (h : d.Valid) {bound : Nat}
    (hbound : ∀ n ∈ d.returned, n < bound) : d.owners.length ≤ bound + Fintype.card ι := by
  by_contra hlt
  rw [not_le] at hlt
  -- the numbers from `bound` on are held, and by different parties
  let late (k : Fin (d.owners.length - bound)) : ι :=
    d.owners.get ⟨bound + k.val, by omega⟩
  have hholds : ∀ k, d.holds (late k) = some (bound + k.val) := by
    intro k
    refine (h.holds_iff _ _).mpr ⟨List.getElem?_eq_getElem (by omega), fun hret => ?_⟩
    have hle := hbound _ hret
    omega
  have hinj : Function.Injective late := by
    intro k l hkl
    have heq := hholds k
    rw [hkl, hholds l] at heq
    have hval := Option.some.inj heq
    exact Fin.ext (by omega)
  have hcard := Fintype.card_le_of_injective late hinj
  rw [Fintype.card_fin] at hcard
  omega

/-! ## Drawing and giving back

Both keep what is said of the others: a number is drawn by one party, and nobody else can give it
back. -/

variable [DecidableEq ι]

/-- A party draws the next number. -/
def draw (d : Draws ι) (i : ι) : Draws ι :=
  ⟨d.owners ++ [i], Function.update d.holds i (some d.owners.length), d.returned⟩

/-- A party gives its number back. -/
def giveBack (d : Draws ι) (i : ι) (n : Nat) : Draws ι :=
  ⟨d.owners, Function.update d.holds i none, d.returned ++ [n]⟩

@[simp] theorem owners_draw (d : Draws ι) (i : ι) : (d.draw i).owners = d.owners ++ [i] := rfl
@[simp] theorem returned_draw (d : Draws ι) (i : ι) : (d.draw i).returned = d.returned := rfl
@[simp] theorem owners_giveBack (d : Draws ι) (i : ι) (n : Nat) :
    (d.giveBack i n).owners = d.owners := rfl
@[simp] theorem returned_giveBack (d : Draws ι) (i : ι) (n : Nat) :
    (d.giveBack i n).returned = d.returned ++ [n] := rfl

theorem holds_draw_self (d : Draws ι) (i : ι) : (d.draw i).holds i = some d.owners.length :=
  Function.update_self i _ d.holds

theorem holds_draw_of_ne {j : ι} (h : j ≠ i) : (d.draw i).holds j = d.holds j :=
  Function.update_of_ne h _ d.holds

theorem holds_giveBack_self (d : Draws ι) (i : ι) (n : Nat) : (d.giveBack i n).holds i = none :=
  Function.update_self i _ d.holds

theorem holds_giveBack_of_ne {j : ι} (h : j ≠ i) : (d.giveBack i n).holds j = d.holds j :=
  Function.update_of_ne h _ d.holds

/-- Whoever holds nothing may draw. -/
theorem Valid.draw (h : d.Valid) (hi : d.holds i = none) : (d.draw i).Valid where
  holds_iff := by
    intro j n
    by_cases hji : j = i
    · subst hji
      rw [holds_draw_self, owners_draw, returned_draw, Option.some.injEq]
      constructor
      · rintro rfl
        exact ⟨by simp, fun hret => absurd (h.lt _ hret) (Nat.lt_irrefl _)⟩
      · -- what it drew before is given back
        rintro ⟨hown, hret⟩
        by_cases hn : n < d.owners.length
        · rw [List.getElem?_append_left hn] at hown
          rw [(h.holds_iff j n).mpr ⟨hown, hret⟩] at hi
          cases hi
        · have hlt := (List.getElem?_eq_some_iff.mp hown).1
          rw [List.length_append, List.length_singleton] at hlt
          omega
    · rw [holds_draw_of_ne hji, h.holds_iff j n, owners_draw, returned_draw]
      refine and_congr_left fun _ => ?_
      by_cases hn : n < d.owners.length
      · rw [List.getElem?_append_left hn]
      · rw [List.getElem?_append_right (Nat.le_of_not_lt hn),
          List.getElem?_eq_none (Nat.le_of_not_lt hn)]
        -- the new number is the one behind those that were drawn
        cases hk : n - d.owners.length with
        | zero => simp [Ne.symm hji]
        | succ k => simp
  nodup := h.nodup
  lt := by
    intro n hn
    rw [owners_draw, List.length_append]
    exact Nat.lt_add_right _ (h.lt n hn)

theorem Valid.giveBack (h : d.Valid) (hi : d.holds i = some n) : (d.giveBack i n).Valid where
  holds_iff := by
    intro j m
    rw [owners_giveBack, returned_giveBack, List.mem_append, List.mem_singleton, not_or]
    by_cases hji : j = i
    · subst hji
      rw [holds_giveBack_self]
      refine iff_of_false (fun hnone => by cases hnone) ?_
      rintro ⟨hown, hret, hne⟩
      rw [(h.holds_iff j m).mpr ⟨hown, hret⟩] at hi
      exact hne (Option.some.inj hi)
    · rw [holds_giveBack_of_ne hji, h.holds_iff j m]
      refine ⟨fun ⟨hown, hret⟩ => ⟨hown, hret, ?_⟩, fun ⟨hown, hret, _⟩ => ⟨hown, hret⟩⟩
      rintro rfl
      exact hji (h.alone ((h.holds_iff j m).mpr ⟨hown, hret⟩) hi)
  nodup := by
    rw [returned_giveBack, List.nodup_append]
    refine ⟨h.nodup, List.nodup_singleton n, fun a ha b hb => ?_⟩
    rw [List.mem_singleton.mp hb]
    exact fun hab => h.not_mem_of_holds hi (hab ▸ ha)
  lt := by
    intro m hm
    rw [returned_giveBack, List.mem_append, List.mem_singleton] at hm
    rw [owners_giveBack]
    exact hm.elim (h.lt m) fun heq => heq ▸ h.lt_of_holds hi

end Draws
