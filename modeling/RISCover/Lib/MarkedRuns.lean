import Mathlib.Data.List.SplitBy

/-!
# Maximal runs of marked elements

`markedRuns` cuts a list where two neighbours are not `linked` and keeps the pieces of marked
elements. A scan goes through the list from left to right with the runs it has closed and the one
that is open; `Scanning` says that these are the right ones at a position. It skips an unmarked
element, takes a marked one into the open run or closes that run, and when nothing is left it has
found `markedRuns`.

`ended` counts the ends of runs that a list shows: it can only grow as the list gets longer
(`ended_le_append`) and a scan has always closed at least as many (`Scanning.ended_le`).
-/

namespace MarkedRuns

variable {α : Type} (marked : α → Bool) (adj : α → α → Bool)

/-- Two neighbours belong to the same run. -/
def linked (a b : α) : Bool := marked a && marked b && adj a b

/-- The maximal runs of marked elements, in order. -/
def markedRuns (l : List α) : List (List α) :=
  (l.splitBy (linked marked adj)).filter fun run => run.all marked

/-- How many runs end in front of another element of the list. -/
def ended : List α → Nat
  | a :: b :: l => (if marked a && !linked marked adj a b then 1 else 0) + ended (b :: l)
  | _ => 0

variable {marked adj}

theorem linked_iff {a b : α} :
    linked marked adj a b = true ↔ marked a = true ∧ marked b = true ∧ adj a b = true := by
  rw [linked, Bool.and_eq_true, Bool.and_eq_true, and_assoc]

theorem linked_eq_false_of_left {a : α} (h : marked a = false) (b : α) :
    linked marked adj a b = false := by
  rw [linked, h, Bool.false_and, Bool.false_and]

/-! ## Cutting

Where two lists meet, a cut is made unless the elements there are linked. -/

theorem markedRuns_append {l m : List α}
    (h : ∀ x ∈ l.getLast?, ∀ y ∈ m.head?, linked marked adj x y = false) :
    markedRuns marked adj (l ++ m) = markedRuns marked adj l ++ markedRuns marked adj m := by
  rw [markedRuns, List.splitBy_append h, List.filter_append]
  rfl

theorem markedRuns_unmarked {a : α} (h : marked a = false) : markedRuns marked adj [a] = [] := by
  rw [markedRuns, List.splitBy_of_isChain (List.cons_ne_nil _ _) (List.isChain_singleton _)]
  simp [h]

theorem markedRuns_of_isChain {run : List α} (hne : run ≠ [])
    (hchain : run.IsChain fun a b => linked marked adj a b = true)
    (hmarked : ∀ a ∈ run, marked a = true) : markedRuns marked adj run = [run] := by
  rw [markedRuns, List.splitBy_of_isChain hne hchain]
  simpa using hmarked

theorem markedRuns_eq_nil {l : List α} (h : ∀ a ∈ l, marked a = false) :
    markedRuns marked adj l = [] := by
  rw [markedRuns, List.filter_eq_nil_iff]
  intro run hrun hall
  obtain ⟨a, ha⟩ := List.exists_mem_of_ne_nil run (List.ne_nil_of_mem_splitBy hrun)
  have hl : a ∈ l := by
    rw [← List.flatten_splitBy (linked marked adj) l]
    exact List.mem_flatten_of_mem hrun ha
  have hmarked := List.all_eq_true.mp hall a ha
  rw [h a hl] at hmarked
  cases hmarked

/-! ## Ends of runs

An end shows as soon as another element stands behind it, so a run that reaches the end of the list
is not counted. -/

theorem ended_le_append (l m : List α) : ended marked adj l ≤ ended marked adj (l ++ m) := by
  induction l with
  | nil => exact Nat.zero_le _
  | cons a l ih =>
      cases l with
      | nil => exact Nat.zero_le _
      | cons b l => exact Nat.add_le_add_left ih _

/-- Where a list is cut, a run ends if it reached the cut. -/
theorem ended_append {l m : List α} (hm : m ≠ [])
    (h : ∀ x ∈ l.getLast?, ∀ y ∈ m.head?, linked marked adj x y = false) :
    ended marked adj (l ++ m) =
      ended marked adj l + (if l.getLast?.any marked then 1 else 0) + ended marked adj m := by
  induction l with
  | nil => simp [ended]
  | cons a l ih =>
      cases l with
      | nil =>
          obtain ⟨b, m, rfl⟩ := List.exists_cons_of_ne_nil hm
          have hcut : linked marked adj a b = false := h a rfl b rfl
          cases ha : marked a <;> simp [ended, hcut, ha]
      | cons b l =>
          have hrest := ih h
          show _ + ended marked adj (b :: l ++ m) = _ + ended marked adj (b :: l) + _ + _
          rw [hrest, List.getLast?_cons_cons]
          omega

theorem ended_of_isChain {l : List α} (h : l.IsChain fun a b => linked marked adj a b = true) :
    ended marked adj l = 0 := by
  induction l with
  | nil => rfl
  | cons a l ih =>
      cases l with
      | nil => rfl
      | cons b l =>
          obtain ⟨hab, hl⟩ := List.isChain_cons_cons.mp h
          rw [ended, ih hl, hab, Bool.not_true, Bool.and_false]
          rfl

/-! ## Scanning

The closed runs and the open one are those of the part that was read. What is left to read can only
add to the open one. -/

variable (marked adj)

/-- In front of `rest` the runs `done` are closed, they lie in `closed`, and `run` is open. -/
structure Cut (closed : List α) (done : List (List α)) (run rest : List α) : Prop where
  runs : markedRuns marked adj closed = done
  count : ended marked adj closed + (if closed.getLast?.any marked then 1 else 0) = done.length
  apart : ∀ x ∈ closed.getLast?, ∀ y ∈ (run ++ rest).head?, linked marked adj x y = false
  chain : run.IsChain fun a b => linked marked adj a b = true
  marked : ∀ a ∈ run, marked a = true

/-- At position `pos` of the list the runs `done` are closed and `run` is open. -/
def Scanning (l : List α) (pos : Nat) (done : List (List α)) (run : List α) : Prop :=
  ∃ closed, l.take pos = closed ++ run ∧ Cut marked adj closed done run (l.drop pos)

variable {marked adj} {l : List α} {pos : Nat} {done : List (List α)} {run : List α}

theorem Cut.apart_run {closed rest : List α} (h : Cut marked adj closed done run rest) :
    ∀ x ∈ closed.getLast?, ∀ y ∈ run.head?, linked marked adj x y = false := by
  intro x hx y hy
  exact h.apart x hx y (by rw [List.head?_append, Option.mem_def.mp hy]; rfl)

theorem scanning_zero : Scanning marked adj l 0 [] [] :=
  ⟨[], rfl, rfl, rfl, nofun, List.isChain_nil, nofun⟩

theorem take_succ_of_getElem? {a : α} (h : l[pos]? = some a) :
    l.take (pos + 1) = l.take pos ++ [a] := by
  rw [List.take_add_one, h]
  rfl

theorem drop_of_getElem? {a : α} (h : l[pos]? = some a) : l.drop pos = a :: l.drop (pos + 1) := by
  obtain ⟨hlt, rfl⟩ := List.getElem?_eq_some_iff.mp h
  exact List.drop_eq_getElem_cons hlt

/-- An unmarked element is passed over. -/
theorem Scanning.skip (h : Scanning marked adj l pos done []) {a : α} (hget : l[pos]? = some a)
    (ha : marked a = false) : Scanning marked adj l (pos + 1) done [] := by
  obtain ⟨closed, htake, hcut⟩ := h
  have hapart : ∀ x ∈ closed.getLast?, ∀ y ∈ [a].head?, linked marked adj x y = false := by
    intro x hx y hy
    exact hcut.apart x hx y (by rw [List.nil_append, drop_of_getElem? hget]; exact hy)
  refine ⟨closed ++ [a], ?_, ?_, ?_, ?_, List.isChain_nil, nofun⟩
  · rw [take_succ_of_getElem? hget, htake, List.append_nil, List.append_nil]
  · rw [markedRuns_append hapart, hcut.runs, markedRuns_unmarked ha, List.append_nil]
  · rw [ended_append (List.cons_ne_nil _ _) hapart, hcut.count, ended_of_isChain
      (List.isChain_singleton _), List.getLast?_append]
    simp [ha]
  · intro x hx y _
    have hxa : x = a := by simpa [eq_comm] using hx
    rw [hxa]
    exact linked_eq_false_of_left ha y

/-- A marked element that belongs to the open run, or begins one. -/
theorem Scanning.take (h : Scanning marked adj l pos done run) {a : α} (hget : l[pos]? = some a)
    (ha : marked a = true) (hadj : ∀ x ∈ run.getLast?, adj x a = true) :
    Scanning marked adj l (pos + 1) done (run ++ [a]) := by
  obtain ⟨closed, htake, hcut⟩ := h
  refine ⟨closed, ?_, hcut.runs, hcut.count, ?_, ?_, ?_⟩
  · rw [take_succ_of_getElem? hget, htake, List.append_assoc]
  · have hdrop := drop_of_getElem? hget
    have hhead := hcut.apart
    rw [hdrop, List.append_cons] at hhead
    exact hhead
  · rw [List.isChain_append]
    refine ⟨hcut.chain, List.isChain_singleton _, fun x hx y hy => ?_⟩
    have hya : y = a := by simpa [eq_comm] using hy
    rw [hya, linked_iff]
    exact ⟨hcut.marked x (List.mem_of_getLast? hx), ha, hadj x hx⟩
  · intro x hx
    rcases List.mem_append.mp hx with hx | hx
    · exact hcut.marked x hx
    · rw [List.mem_singleton.mp hx]
      exact ha

/-- The open run ends here. -/
theorem Scanning.close (h : Scanning marked adj l pos done run) (hne : run ≠ [])
    (hend : ∀ x ∈ run.getLast?, ∀ y ∈ l[pos]?, linked marked adj x y = false) :
    Scanning marked adj l pos (done ++ [run]) [] := by
  obtain ⟨closed, htake, hcut⟩ := h
  refine ⟨closed ++ run, ?_, ?_, ?_, ?_, List.isChain_nil, nofun⟩
  · rw [htake, List.append_nil]
  · rw [markedRuns_append hcut.apart_run, hcut.runs,
      markedRuns_of_isChain hne hcut.chain hcut.marked]
  · have hlast : (closed ++ run).getLast?.any marked = true := by
      rw [List.getLast?_append_of_ne_nil _ hne, List.getLast?_eq_some_getLast hne]
      exact hcut.marked _ (List.getLast_mem hne)
    rw [ended_append hne hcut.apart_run, hcut.count, ended_of_isChain hcut.chain, hlast,
      List.length_append]
    rfl
  · intro x hx y hy
    rw [List.getLast?_append_of_ne_nil _ hne] at hx
    rw [List.nil_append, List.head?_drop] at hy
    exact hend x hx y hy

/-- What is closed will not change any more. -/
theorem Scanning.markedRuns_eq (h : Scanning marked adj l pos done run) :
    markedRuns marked adj l = done ++ markedRuns marked adj (run ++ l.drop pos) := by
  obtain ⟨closed, htake, hcut⟩ := h
  rw [← hcut.runs, ← markedRuns_append hcut.apart, ← List.append_assoc, ← htake,
    List.take_append_drop]

/-- Nothing is left. -/
theorem Scanning.markedRuns_eq_done (h : Scanning marked adj l pos done [])
    (hpos : l.length ≤ pos) : markedRuns marked adj l = done := by
  rw [h.markedRuns_eq, List.drop_eq_nil_of_le hpos]
  exact List.append_nil _

/-- Every end of a run that the list has shown so far was noticed. -/
theorem Scanning.ended_le (h : Scanning marked adj l pos done run) :
    ended marked adj (l.take pos) ≤ done.length := by
  obtain ⟨closed, htake, hcut⟩ := h
  have hcount := hcut.count
  rw [htake]
  by_cases hne : run = []
  · rw [hne, List.append_nil]
    omega
  · rw [ended_append hne hcut.apart_run, ended_of_isChain hcut.chain, hcount]
    exact Nat.le_refl _

end MarkedRuns
