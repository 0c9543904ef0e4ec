import Mathlib.Data.List.Basic
import Mathlib.Data.Nat.Bitwise

/-!
# Indexing numbers by some of their bits

`orBits` is the number with the given bits. Its submasks are the numbers of the sub-lists of its
bits (`exists_combination`), so a table that files a pattern under every combination of the bits the
pattern leaves open has it wherever a match of the pattern looks (`key_of_match`). Among the hits of
one bucket the best comes first when the bucket is sorted (`findSome?_best`).
-/

namespace BitIndex

variable {α β : Type}

/-! ## Combinations

The sub-lists of a list in the order of their lengths, as `itertools.combinations` gives them for
one length after the other. -/

/-- The sub-lists with `r` elements, those with earlier elements first. -/
def combinations : List α → Nat → List (List α)
  | _, 0 => [[]]
  | [], _ + 1 => []
  | x :: xs, r + 1 => (combinations xs r).map (x :: ·) ++ combinations xs (r + 1)

/-- All sub-lists, the shorter ones first. -/
def powerset (l : List α) : List (List α) := (List.range (l.length + 1)).flatMap (combinations l)

theorem mem_combinations {s l : List α} (h : s.Sublist l) : s ∈ combinations l s.length := by
  induction h with
  | slnil => exact List.mem_singleton_self []
  | @cons s l x hsub ih =>
      cases s with
      | nil => rw [List.length_nil, combinations]; exact List.mem_singleton_self []
      | cons y s => exact List.mem_append_right _ ih
  | @cons_cons s l x hsub ih => exact List.mem_append_left _ (List.mem_map_of_mem ih)

theorem mem_powerset {s l : List α} (h : s.Sublist l) : s ∈ powerset l :=
  List.mem_flatMap.mpr ⟨s.length, List.mem_range.mpr (Nat.lt_succ_of_le h.length_le),
    mem_combinations h⟩

/-! ## Numbers made of bits -/

/-- The number with these bits set. -/
def orBits (bits : List Nat) : Nat := bits.foldl (fun n bit => n ||| 1 <<< bit) 0

theorem testBit_foldl_orBits (bits : List Nat) : ∀ n i : Nat,
    (bits.foldl (fun n bit => n ||| 1 <<< bit) n).testBit i =
      (n.testBit i || decide (i ∈ bits)) := by
  induction bits with
  | nil => simp
  | cons bit bits ih =>
      intro n i
      have hbit : (1 <<< bit).testBit i = decide (i = bit) := by
        rw [Nat.one_shiftLeft, Nat.testBit_two_pow]
        simp only [eq_comm]
      rw [List.foldl_cons, ih, Nat.testBit_or, hbit, Bool.or_assoc, ← Bool.decide_or]
      simp only [List.mem_cons]

theorem testBit_orBits (bits : List Nat) (i : Nat) :
    (orBits bits).testBit i = decide (i ∈ bits) := by
  rw [orBits, testBit_foldl_orBits, Nat.zero_testBit, Bool.false_or]

/-- The bits a number has under a mask are one of the combinations of the mask's bits. -/
theorem exists_combination (bits : List Nat) (n : Nat) :
    ∃ s ∈ powerset bits, orBits s = n &&& orBits bits := by
  refine ⟨bits.filter fun bit => n.testBit bit, mem_powerset List.filter_sublist, ?_⟩
  apply Nat.eq_of_testBit_eq
  intro i
  rw [testBit_orBits, Nat.testBit_and, testBit_orBits]
  grind

/-! ## Patterns

A pattern is a mask and a value. Where its mask has a bit of the key, a match has the bit of the
value. -/

/-- A word matches a pattern when it has the pattern's value under its mask. -/
theorem key_of_match {word mask value key : Nat} (h : word &&& mask = value) :
    (value ||| (word &&& key).ldiff mask) &&& key = word &&& key := by
  subst h
  apply Nat.eq_of_testBit_eq
  intro i
  simp only [Nat.testBit_and, Nat.testBit_or, Nat.testBit_ldiff]
  grind

/-! ## The best hit -/

/-- The first hit in a list that is sorted downwards is a best one. -/
theorem findSome?_best {score : α → Nat} {f : α → Option β} {l : List α} {b : β}
    (h : l.Pairwise fun x y => score y ≤ score x) (hfind : l.findSome? f = some b) :
    ∃ x ∈ l, f x = some b ∧ ∀ y ∈ l, f y ≠ none → score y ≤ score x := by
  obtain ⟨before, x, after, rfl, hx, hbefore⟩ := List.findSome?_eq_some_iff.mp hfind
  refine ⟨x, by simp, hx, ?_⟩
  intro y hy hhit
  have hafter := (List.pairwise_cons.mp (List.pairwise_append.mp h).2.1).1
  rcases List.mem_append.mp hy with hmem | hmem
  · exact absurd (hbefore y hmem) hhit
  · rcases List.mem_cons.mp hmem with rfl | hmem
    · exact Nat.le_refl _
    · exact hafter y hmem

end BitIndex
