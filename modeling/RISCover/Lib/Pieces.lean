import Mathlib.Data.List.GetD
import Mathlib.Data.List.Pairwise

/-!
# Cutting a list into positioned pieces

The pieces of a list are its maximal runs of marked elements, each with the position it starts at:
`Cuts`. A scan reads the list from the front, with the pieces it has closed and the run it is in;
`Scanning` says that these are the right ones of what it has read. One element is skipped, begins a
run, goes into it or closes it, and at the end the run that is left is the last piece
(`Scanning.cuts`).

`exists_piece_iff` is how the pieces are used: a position is inside one exactly if its element is
marked, and the element is the one the piece has there.
-/

namespace Pieces

variable {α : Type} {marked : α → Bool} {l : List α} {pieces : List (Nat × List α)}

/-- The maximal runs of marked elements and where they start. -/
structure Cuts (marked : α → Bool) (l : List α) (pieces : List (Nat × List α)) : Prop where
  sound : ∀ p ∈ pieces, ∀ a ∈ p.2, marked a = true
  get : ∀ p ∈ pieces, ∀ k < p.2.length, l[p.1 + k]? = p.2[k]?
  covered : ∀ i a, l[i]? = some a → marked a = true →
    ∃ p ∈ pieces, p.1 ≤ i ∧ i < p.1 + p.2.length
  ne_nil : ∀ p ∈ pieces, p.2 ≠ []
  apart : pieces.Pairwise fun p q => p.1 + p.2.length < q.1

namespace Cuts

theorem nil : Cuts marked [] [] :=
  ⟨by simp, by simp, by simp, by simp, List.Pairwise.nil⟩

/-- A piece lies in the list. -/
theorem end_le (h : Cuts marked l pieces) {p : Nat × List α} (hp : p ∈ pieces) :
    p.1 + p.2.length ≤ l.length := by
  have hpos : 0 < p.2.length := List.length_pos_iff.mpr (h.ne_nil p hp)
  have hlast := h.get p hp (p.2.length - 1) (by omega)
  rw [List.getElem?_eq_getElem (by omega : p.2.length - 1 < p.2.length)] at hlast
  obtain ⟨hlt, -⟩ := List.getElem?_eq_some_iff.mp hlast
  omega

/-- A longer list has the pieces at the same places. -/
theorem get_append (h : Cuts marked l pieces) (m : List α) {p : Nat × List α} (hp : p ∈ pieces)
    {k : Nat} (hk : k < p.2.length) : (l ++ m)[p.1 + k]? = p.2[k]? := by
  have hend := h.end_le hp
  rw [List.getElem?_append_left (by omega), h.get p hp k hk]

theorem skip (h : Cuts marked l pieces) {a : α} (ha : marked a = false) :
    Cuts marked (l ++ [a]) pieces := by
  refine ⟨h.sound, fun p hp k hk => h.get_append [a] hp hk, ?_, h.ne_nil, h.apart⟩
  intro i b hb hmarked
  rw [List.getElem?_append] at hb
  split at hb
  · exact h.covered i b hb hmarked
  · obtain rfl : b = a := by grind
    rw [ha] at hmarked
    cases hmarked

/-- A run begins behind an element that is not marked. -/
theorem start (h : Cuts marked l pieces) {a : α} (ha : marked a = true)
    (hlast : ∀ b ∈ l.getLast?, marked b = false) :
    Cuts marked (l ++ [a]) (pieces ++ [(l.length, [a])]) := by
  refine ⟨?_, ?_, ?_, ?_, ?_⟩
  · intro p hp
    rcases List.mem_append.mp hp with hp | hp
    · exact h.sound p hp
    · rw [List.mem_singleton.mp hp]
      exact List.forall_mem_singleton.mpr ha
  · intro p hp k hk
    rcases List.mem_append.mp hp with hp | hp
    · exact h.get_append [a] hp hk
    · rw [List.mem_singleton.mp hp] at hk ⊢
      obtain rfl : k = 0 := Nat.lt_one_iff.mp hk
      simp
  · intro i b hb hmarked
    rw [List.getElem?_append] at hb
    split at hb
    · obtain ⟨p, hp, hle, hlt⟩ := h.covered i b hb hmarked
      exact ⟨p, List.mem_append_left _ hp, hle, hlt⟩
    · have hi : i = l.length := by
        obtain ⟨hlt, -⟩ := List.getElem?_eq_some_iff.mp hb
        rw [List.length_singleton] at hlt
        omega
      exact ⟨_, List.mem_append_right _ (List.mem_singleton_self _), Nat.le_of_eq hi.symm,
        Nat.lt_succ_of_le (Nat.le_of_eq hi)⟩
  · intro p hp
    rcases List.mem_append.mp hp with hp | hp
    · exact h.ne_nil p hp
    · rw [List.mem_singleton.mp hp]
      exact List.cons_ne_nil _ _
  · rw [List.pairwise_append]
    refine ⟨h.apart, List.pairwise_singleton _ _, fun p hp q hq => ?_⟩
    rw [List.mem_singleton.mp hq]
    -- a piece that reached the end would have a marked last element
    refine Nat.lt_of_le_of_ne (h.end_le hp) fun heq => ?_
    have hne := h.ne_nil p hp
    have hpos : 0 < p.2.length := List.length_pos_iff.mpr hne
    have hget := h.get p hp (p.2.length - 1) (by omega)
    have hidx : p.1 + (p.2.length - 1) = l.length - 1 := by omega
    rw [hidx, ← List.getLast?_eq_getElem?, ← List.getLast?_eq_getElem?,
      List.getLast?_eq_some_getLast hne] at hget
    have hno := hlast _ (Option.mem_def.mpr hget)
    rw [h.sound p hp _ (List.getLast_mem hne)] at hno
    cases hno

/-- The last piece grows while it reaches the end of the list. -/
theorem extend {start : Nat} {run : List α} (h : Cuts marked l (pieces ++ [(start, run)]))
    (hend : start + run.length = l.length) {a : α} (ha : marked a = true) :
    Cuts marked (l ++ [a]) (pieces ++ [(start, run ++ [a])]) := by
  have hmem : (start, run) ∈ pieces ++ [(start, run)] :=
    List.mem_append_right _ (List.mem_singleton_self _)
  refine ⟨?_, ?_, ?_, ?_, ?_⟩
  · intro p hp b hb
    rcases List.mem_append.mp hp with hp | hp
    · exact h.sound p (List.mem_append_left _ hp) b hb
    · rw [List.mem_singleton.mp hp] at hb
      rcases List.mem_append.mp hb with hb | hb
      · exact h.sound _ hmem b hb
      · rw [List.mem_singleton.mp hb]
        exact ha
  · intro p hp k hk
    rcases List.mem_append.mp hp with hp | hp
    · exact h.get_append [a] (List.mem_append_left _ hp) hk
    · rw [List.mem_singleton.mp hp] at hk ⊢
      rw [List.length_append, List.length_singleton] at hk
      by_cases hlt : k < run.length
      · rw [List.getElem?_append_left hlt]
        exact h.get_append [a] hmem hlt
      · -- the new element stands where the run ended
        obtain rfl : k = run.length := by omega
        show (l ++ [a])[start + run.length]? = _
        rw [hend, List.getElem?_concat_length, List.getElem?_concat_length]
  · intro i b hb hmarked
    rw [List.getElem?_append] at hb
    split at hb
    · obtain ⟨p, hp, hle, hlt⟩ := h.covered i b hb hmarked
      rcases List.mem_append.mp hp with hp | hp
      · exact ⟨p, List.mem_append_left _ hp, hle, hlt⟩
      · rw [List.mem_singleton.mp hp] at hle hlt
        refine ⟨_, List.mem_append_right _ (List.mem_singleton_self _), hle, ?_⟩
        rw [List.length_append, List.length_singleton]
        exact Nat.lt_succ_of_lt hlt
    · -- a marked element is one of before, or the one that is added
      have hi : i = l.length := by
        obtain ⟨hlt, -⟩ := List.getElem?_eq_some_iff.mp hb
        rw [List.length_singleton] at hlt
        omega
      refine ⟨_, List.mem_append_right _ (List.mem_singleton_self _), by omega, ?_⟩
      rw [List.length_append, List.length_singleton]
      omega
  · intro p hp
    rcases List.mem_append.mp hp with hp | hp
    · exact h.ne_nil p (List.mem_append_left _ hp)
    · rw [List.mem_singleton.mp hp]
      exact List.append_ne_nil_of_right_ne_nil _ (List.cons_ne_nil _ _)
  · obtain ⟨hpieces, -, hrun⟩ := List.pairwise_append.mp h.apart
    rw [List.pairwise_append]
    refine ⟨hpieces, List.pairwise_singleton _ _, fun p hp q hq => ?_⟩
    rw [List.mem_singleton.mp hq]
    exact hrun p hp (start, run) (List.mem_singleton_self _)

/-- A position is inside a piece exactly if it is marked, and the piece has its element. -/
theorem exists_piece_iff (h : Cuts marked l pieces) {i : Nat} {a : α} :
    (∃ p ∈ pieces, p.1 ≤ i ∧ p.2[i - p.1]? = some a) ↔ l[i]? = some a ∧ marked a = true := by
  constructor
  · rintro ⟨p, hp, hle, hget⟩
    obtain ⟨hlt, -⟩ := List.getElem?_eq_some_iff.mp hget
    have hl := h.get p hp (i - p.1) hlt
    rw [Nat.add_sub_cancel' hle, hget] at hl
    exact ⟨hl, h.sound p hp a (List.mem_of_getElem? hget)⟩
  · rintro ⟨hget, ha⟩
    obtain ⟨p, hp, hle, hlt⟩ := h.covered i a hget ha
    have hl := h.get p hp (i - p.1) (by omega)
    rw [Nat.add_sub_cancel' hle, hget] at hl
    exact ⟨p, hp, hle, hl.symm⟩

end Cuts

/-! ## Scanning

Either a piece is open and ends where the reading is, or none is and the last element read was not
marked. -/

/-- The run that is open, as a piece. -/
def openPiece (start : Nat) (run : List α) : List (Nat × List α) :=
  if run = [] then [] else [(start, run)]

/-- Of what was read the pieces `done` are closed and `run` is open. -/
structure Scanning (marked : α → Bool) (l : List α) (done : List (Nat × List α)) (start : Nat)
    (run : List α) : Prop where
  cuts : Cuts marked l (done ++ openPiece start run)
  reaches : run ≠ [] → start + run.length = l.length
  behind : run = [] → ∀ b ∈ l.getLast?, marked b = false

namespace Scanning

variable {done : List (Nat × List α)} {start : Nat} {run : List α} {a : α}

theorem nil (start : Nat) : Scanning marked [] [] start [] :=
  ⟨Cuts.nil, fun h => absurd rfl h, by simp⟩

/-- An unmarked element outside of a run. -/
theorem skip (h : Scanning marked l done start []) (ha : marked a = false) (start' : Nat) :
    Scanning marked (l ++ [a]) done start' [] :=
  ⟨h.cuts.skip ha, fun h => absurd rfl h, by simpa using ha⟩

/-- An unmarked element closes the run. -/
theorem close (h : Scanning marked l done start run) (hne : run ≠ []) (ha : marked a = false)
    (start' : Nat) : Scanning marked (l ++ [a]) (done ++ [(start, run)]) start' [] := by
  have hcuts := h.cuts
  rw [openPiece, if_neg hne] at hcuts
  refine ⟨?_, fun h => absurd rfl h, by simpa using ha⟩
  rw [openPiece, if_pos rfl, List.append_nil]
  exact hcuts.skip ha

theorem begin (h : Scanning marked l done start []) (ha : marked a = true) :
    Scanning marked (l ++ [a]) done l.length [a] := by
  have hcuts := h.cuts
  rw [openPiece, if_pos rfl, List.append_nil] at hcuts
  refine ⟨?_, by simp, fun h => absurd h (List.cons_ne_nil _ _)⟩
  rw [openPiece, if_neg (List.cons_ne_nil _ _)]
  exact hcuts.start ha (h.behind rfl)

theorem take (h : Scanning marked l done start run) (hne : run ≠ []) (ha : marked a = true) :
    Scanning marked (l ++ [a]) done start (run ++ [a]) := by
  have hcuts := h.cuts
  have happend : run ++ [a] ≠ [] := List.append_ne_nil_of_left_ne_nil hne _
  rw [openPiece, if_neg hne] at hcuts
  refine ⟨?_, fun _ => ?_, fun h => absurd h happend⟩
  · rw [openPiece, if_neg happend]
    exact hcuts.extend (h.reaches hne) ha
  · rw [List.length_append, List.length_append, ← h.reaches hne, Nat.add_assoc]

end Scanning

end Pieces
