import RISCover.Lib.IntBits

/-!
# Scattering a number over parts of a word

A number is cut into pieces, lowest bits first, and each piece is put into a segment of a word.
Gathering the segments in the same order gives the number back, as far as the segments have room
(`gather_scatter`).
-/

open IntBits

/-- Adjacent bits of a word. -/
structure Segment where
  start : Nat
  width : Nat

namespace Segment

def Covers (s : Segment) (i : Nat) : Prop := s.start ≤ i ∧ i < s.start + s.width

instance (s : Segment) (i : Nat) : Decidable (s.Covers i) :=
  inferInstanceAs (Decidable (s.start ≤ i ∧ i < s.start + s.width))

/-- The number in a segment. -/
def extract (s : Segment) (word : Int) : Int := (word >>> s.start).land (2 ^ s.width - 1)

theorem testBit_extract (s : Segment) (word : Int) (i : Nat) :
    (s.extract word).testBit i = (decide (i < s.width) && word.testBit (s.start + i)) := by
  rw [extract, Int.testBit_land, testBit_shiftRight, testBit_two_pow_sub_one, Bool.and_comm]

end Segment

namespace Scatter

/-- The segments with the piece of `n` from bit `k` on. -/
def scatter (n : Int) : Nat → List Segment → Int
  | _, [] => 0
  | k, s :: ss =>
    (((2 ^ s.width - 1 : Int).land (n >>> k)) <<< s.start).lor (scatter n (k + s.width) ss)

/-- What the segments of a word hold, from bit `k` on. -/
def gather (word : Int) : Nat → List Segment → Int
  | _, [] => 0
  | k, s :: ss => (s.extract word <<< k).lor (gather word (k + s.width) ss)

/-- The bits that the segments have room for. -/
def room (ss : List Segment) : Nat := (ss.map Segment.width).sum

/-- Segments without common bits. -/
def Apart (ss : List Segment) : Prop := ss.Pairwise fun s t => ∀ i, s.Covers i → ¬t.Covers i

variable {n word : Int} {k i : Nat} {ss : List Segment}

theorem testBit_zero (i : Nat) : (0 : Int).testBit i = false := Nat.zero_testBit i

theorem testBit_scatter_cons (s : Segment) : (scatter n k (s :: ss)).testBit i =
    ((decide (s.Covers i) && n.testBit (k + (i - s.start))) ||
      (scatter n (k + s.width) ss).testBit i) := by
  have hcovers : decide (s.Covers i) =
      (decide (s.start ≤ i) && decide (i - s.start < s.width)) := by
    rw [← Bool.decide_and, decide_eq_decide, Segment.Covers]
    omega
  rw [scatter, Int.testBit_lor, testBit_shiftLeft, Int.testBit_land, testBit_two_pow_sub_one,
    testBit_shiftRight, hcovers, Bool.and_assoc]

/-- Every bit that is set lies in a segment. -/
theorem exists_covers_of_testBit (h : (scatter n k ss).testBit i = true) :
    ∃ s ∈ ss, s.Covers i := by
  induction ss generalizing k with
  | nil =>
      rw [scatter, testBit_zero] at h
      cases h
  | cons s ss ih =>
      rw [testBit_scatter_cons, Bool.or_eq_true, Bool.and_eq_true, decide_eq_true_eq] at h
      rcases h with ⟨hs, -⟩ | hrest
      · exact ⟨s, List.mem_cons_self, hs⟩
      · obtain ⟨t, ht, hcovers⟩ := ih hrest
        exact ⟨t, List.mem_cons_of_mem s ht, hcovers⟩

theorem testBit_scatter_of_covers {s : Segment} (h : Apart (s :: ss)) (hs : s.Covers i) :
    (scatter n k (s :: ss)).testBit i = n.testBit (k + (i - s.start)) := by
  have hrest : (scatter n (k + s.width) ss).testBit i = false := by
    by_contra hset
    rw [Bool.not_eq_false] at hset
    obtain ⟨t, ht, hcovers⟩ := exists_covers_of_testBit hset
    exact (List.pairwise_cons.mp h).1 t ht i hs hcovers
  rw [testBit_scatter_cons, hrest, decide_eq_true hs, Bool.true_and, Bool.or_false]

theorem testBit_scatter_of_not_covers {s : Segment} (hs : ¬s.Covers i) :
    (scatter n k (s :: ss)).testBit i = (scatter n (k + s.width) ss).testBit i := by
  rw [testBit_scatter_cons, decide_eq_false hs, Bool.false_and, Bool.false_or]

/-- Only the bits in the segments are gathered. -/
theorem gather_congr {word' : Int} (h : ∀ s ∈ ss, ∀ i, s.Covers i →
    word.testBit i = word'.testBit i) : gather word k ss = gather word' k ss := by
  induction ss generalizing k with
  | nil => rfl
  | cons s ss ih =>
      have hextract : s.extract word = s.extract word' := by
        apply eq_of_testBit_eq
        intro i
        rw [Segment.testBit_extract, Segment.testBit_extract]
        by_cases hi : i < s.width
        · rw [h s List.mem_cons_self (s.start + i) ⟨Nat.le_add_right _ _, by omega⟩]
        · rw [decide_eq_false hi, Bool.false_and, Bool.false_and]
      rw [gather, gather, hextract, ih fun t ht => h t (List.mem_cons_of_mem s ht)]

/-- The first segment holds the lowest bits. -/
theorem extract_scatter (s : Segment) (h : Apart (s :: ss)) :
    s.extract (scatter n k (s :: ss)) = (n >>> k) % 2 ^ s.width := by
  apply eq_of_testBit_eq
  intro i
  rw [Segment.testBit_extract, testBit_emod_two_pow, testBit_shiftRight]
  by_cases hi : i < s.width
  · rw [testBit_scatter_of_covers h ⟨Nat.le_add_right _ _, by omega⟩, Nat.add_sub_cancel_left]
  · rw [decide_eq_false hi, Bool.false_and, Bool.false_and]

theorem testBit_gather_scatter (h : Apart ss) :
    (gather (scatter n k ss) k ss).testBit i =
      (decide (k ≤ i ∧ i < k + room ss) && n.testBit i) := by
  induction ss generalizing k with
  | nil =>
      have hempty : ¬(k ≤ i ∧ i < k + room []) := by
        show ¬(k ≤ i ∧ i < k + 0)
        omega
      rw [gather, testBit_zero, decide_eq_false hempty, Bool.false_and]
  | cons s ss ih =>
      obtain ⟨hs, hss⟩ := List.pairwise_cons.mp h
      -- the other segments hold what they would hold without the first one
      have hrest : gather (scatter n k (s :: ss)) (k + s.width) ss =
          gather (scatter n (k + s.width) ss) (k + s.width) ss := by
        apply gather_congr
        intro t ht i hi
        exact testBit_scatter_of_not_covers fun hcovers => hs t ht i hcovers hi
      have hroom : room (s :: ss) = s.width + room ss := rfl
      rw [gather, Int.testBit_lor, hrest, ih hss, extract_scatter s h, testBit_shiftLeft,
        testBit_emod_two_pow, testBit_shiftRight, hroom]
      by_cases hlow : k ≤ i
      · rw [Nat.add_sub_cancel' hlow]
        grind
      · have hnot : ¬(k + s.width ≤ i ∧ i < k + s.width + room ss) := by omega
        have hnot' : ¬(k ≤ i ∧ i < k + (s.width + room ss)) := fun h => hlow h.1
        rw [decide_eq_false hlow, decide_eq_false hnot, decide_eq_false hnot', Bool.false_and,
          Bool.false_and, Bool.or_self]

/-- Gathering gives back what was scattered, as far as there is room. -/
theorem gather_scatter (n : Int) (h : Apart ss) :
    gather (scatter n 0 ss) 0 ss = n % 2 ^ room ss := by
  apply eq_of_testBit_eq
  intro i
  rw [testBit_gather_scatter h, testBit_emod_two_pow, Nat.zero_add]
  congr 1
  rw [decide_eq_decide]
  exact ⟨fun hi => hi.2, fun hi => ⟨Nat.zero_le i, hi⟩⟩

end Scatter
