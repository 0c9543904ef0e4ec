import RISCover.Diff.FuzzServer
import RISCover.Diff.Search

/-!
# The differences of a batch

What a worker logs of a batch, once all its clients answered: for every input, in order, the splits
that the search finds in the clients' results to this input. Nothing on the way there raises
(`DiffFuzz.entries_eq`), and every split passes the assertion in `log_repro`.
-/

namespace RISCover

namespace DiffFuzz

variable {κ α : Type} {u : DiffFuzz κ α}

/-! ## The inputs that are analysed

`full_seq` adds results to an input but no inputs, so the index in the batch stays that of the seed.
-/

/-- The input of a counter, as it is analysed. -/
def inputAt (u : DiffFuzz κ α) (counter : Nat) : FuzzInput α where
  source := if u.generator.offline then .justSeqNum counter 1
    else .drawn (u.generator.genNewInput (counter ^^^ u.generator.seed))
  seqLen := u.generator.seqLen
  fullSeq := true

theorem generate_one (u : DiffFuzz κ α) (counter : Nat) :
    u.generator.generate counter 1 = [{ u.inputAt counter with fullSeq := false }] := by
  unfold DiffFuzzGenerator.generate inputAt
  split
  · rfl
  · simp

/-- Whether they were expanded or not, the inputs are those that the counters of the batch stand
for. -/
theorem expand_eq (u : DiffFuzz κ α) (b : Nat) :
    u.expand b ((u.generator.generate b u.batchSize).map fun inp => { inp with fullSeq := true }) =
      (List.range u.batchSize).map fun j => u.inputAt (b + j) := by
  unfold expand
  split
  next hoffline =>
    have hone : ∀ j, (u.generator.generate (b + j) 1).take 1 =
        [{ u.inputAt (b + j) with fullSeq := false }] := fun j => by
      rw [generate_one]
      rfl
    simp only [hone, ← List.map_eq_flatMap, List.map_map]
    rfl
  next honline =>
    have hoff : ¬u.generator.offline = true := honline
    rw [DiffFuzzGenerator.generate, if_neg hoff, List.map_map]
    refine List.map_congr_left fun j _ => ?_
    rw [inputAt, if_neg hoff]
    rfl

/-! ## The results to one input

The clients answer with a list each. Row `j` has what every client answered to input `j`, and it is
a family in the sense of the search. -/

/-- The results of all clients to the `j`-th input. -/
def row {β : Type} (resultsPerClient : List (List β)) (j : Nat) : List β :=
  resultsPerClient.filterMap (·[j]?)

/-- One more list for `zip`. -/
theorem zipWith_row {β : Type} {n : Nat} (done : List (List β)) {l : List β} (hl : l.length = n) :
    List.zipWith (fun row x => row ++ [x]) ((List.range n).map (row done)) l =
      (List.range n).map (row (done ++ [l])) := by
  apply List.ext_getElem
  · simp [hl]
  · intro j hj hj'
    rw [List.length_map, List.length_range] at hj'
    simp [row, List.filterMap_append, List.getElem?_eq_getElem (hl.symm ▸ hj')]

theorem zipAll_eq {β : Type} {n : Nat} {ls : List (List β)} (hne : ls ≠ [])
    (hlen : ∀ l ∈ ls, l.length = n) : zipAll ls = (List.range n).map (row ls) := by
  cases ls with
  | nil => exact absurd rfl hne
  | cons l ls =>
      rw [List.forall_mem_cons] at hlen
      -- the rows so far are those of the lists that were zipped so far
      have hfold : ∀ (ls done : List (List β)), (∀ l ∈ ls, l.length = n) →
          ls.foldl (fun rows l => List.zipWith (fun row x => row ++ [x]) rows l)
            ((List.range n).map (row done)) = (List.range n).map (row (done ++ ls)) := by
        intro ls
        induction ls with
        | nil =>
            intro done _
            rw [List.append_nil]
            rfl
        | cons l ls ih =>
            intro done hls
            rw [List.forall_mem_cons] at hls
            rw [List.foldl_cons, zipWith_row done hls.1, ih (done ++ [l]) hls.2, List.append_assoc]
            rfl
      -- to begin with, every row has the one entry of the first list
      have hfirst : l.map ([·]) = (List.range n).map (row [l]) := by
        apply List.ext_getElem
        · simp [hlen.1]
        · intro j hj hj'
          rw [List.length_map, List.length_range] at hj'
          simp [row, List.getElem?_eq_getElem (hlen.1.symm ▸ hj')]
      rw [zipAll, hfirst, hfold ls [l] hlen.2]
      rfl

/-- Every client has its own result to the input. -/
theorem Answered.row {n : Nat} {clients : List κ} {resultsPerClient : List (List (MultiResult κ))}
    (h : u.Answered n clients resultsPerClient) {j : Nat} (hj : j < n) :
    List.Forall₂ (fun client m => m.client = client ∧
      m.FromRunner u.config u.generator.seqLen) clients (row resultsPerClient j) := by
  induction h with
  | nil => exact .nil
  | @cons client multiresults clients resultsPerClient hhead _ ih =>
      obtain ⟨hlen, hown⟩ := hhead
      rw [DiffFuzz.row, List.filterMap_cons, List.getElem?_eq_getElem (hlen.symm ▸ hj)]
      exact .cons (hown _ (List.getElem_mem _)) ih

section

variable {clients : List κ} {ms : List (MultiResult κ)}
  (h : List.Forall₂ (fun client m => m.client = client ∧
    m.FromRunner u.config u.generator.seqLen) clients ms)

include h

theorem map_client_of_answered : ms.map MultiResult.client = clients := by
  induction h with
  | nil => rfl
  | cons hhead _ ih => rw [List.map_cons, hhead.1, ih]

theorem family_of_answered (hnodup : clients.Nodup) :
    MultiResult.Family u.config u.generator.seqLen ms where
  fromRunner := by
    induction h with
    | nil => exact fun m hm => absurd hm List.not_mem_nil
    | cons hhead _ ih =>
        rw [List.nodup_cons] at hnodup
        exact List.forall_mem_cons.mpr ⟨hhead.2, ih hnodup.2⟩
  clients_nodup := by
    rw [map_client_of_answered h]
    exact hnodup

end

/-! ## What is logged

The search succeeds on every row, so the loop over the inputs has all splits of all rows. -/

/-- The splits of one input's results. -/
def splitsOf [DecidableEq κ] (u : DiffFuzz κ α) (ms : List (MultiResult κ)) : List (Split κ) :=
  MultiResult.splitsUntil u.hash u.config.arch ms u.generator.seqLen

/-- What there is to log of a batch. -/
def differences [DecidableEq κ] (u : DiffFuzz κ α) (b : Nat)
    (resultsPerClient : List (List (MultiResult κ))) : List (LogEntry κ α) :=
  (List.range u.batchSize).flatMap fun j =>
    (u.splitsOf (row resultsPerClient j)).map fun split => ⟨b + j, u.inputAt (b + j), split⟩

/-- The first results, which the clients are taken from. -/
theorem firstResults_eq {ms : List (MultiResult κ)} {seqLen : Nat} (hpos : 0 < seqLen) :
    (multiresultsToResultsPerSeqLen (ms.map MultiResult.results) seqLen)[0]? =
      some (ms.map (MultiResult.resultAt 0)) := by
  rw [multiresultsToResultsPerSeqLen, List.getElem?_map, List.getElem?_range hpos, Option.map_some,
    List.filterMap_map, Option.some.injEq]
  have hfirst : ∀ m : MultiResult κ, m.results[0]? = some (m.resultAt 0) := fun m =>
    MultiResult.getElem?_of_lt (List.length_pos_iff.mpr m.results_ne_nil)
  show ms.filterMap (fun m => m.results[0]?) = _
  simp only [hfirst]
  rw [List.filterMap_eq_map']

variable [DecidableEq κ]

theorem diffTree_eq {ms : List (MultiResult κ)}
    (h : MultiResult.Family u.config u.generator.seqLen ms) (hle : 2 ≤ ms.length) :
    u.diffTree ms = some (u.splitsOf ms) := by
  have hpos : 0 < u.generator.seqLen := by
    obtain ⟨m, hm⟩ := List.exists_mem_of_length_pos (Nat.lt_of_lt_of_le Nat.zero_lt_two hle)
    have hlen := (h.fromRunner m hm).length_le
    have hne := List.length_pos_iff.mpr m.results_ne_nil
    omega
  have hclients : (ms.map (MultiResult.resultAt 0)).map Result.client =
      ms.map MultiResult.client := by
    rw [List.map_map]
    exact List.map_congr_left fun m _ => m.client_resultAt 0
  rw [diffTree, if_neg (Nat.not_lt_of_le hle)]
  simp only [firstResults_eq hpos, Option.bind_some]
  rw [hclients, findMinimalDiffTree_eq u.hash u.config.arch h]
  rfl

theorem splitsOf_asserts {ms : List (MultiResult κ)}
    (h : MultiResult.Family u.config u.generator.seqLen ms) :
    ∀ split ∈ u.splitsOf ms, LogReproAsserts split := by
  intro split hsplit
  have hsearch := findMinimalDiffTree_eq u.hash u.config.arch h
  refine (findMinimalDiffTree_differs (c := u.config) ?_ hsearch split hsplit).asserts
  intro clients seqLen results filteredResults hget r hr
  obtain ⟨m, hm, hmem⟩ := mem_of_getResultsForSeqLen hget hr
  exact (h.fromRunner m hm).ofConfig r hmem

section

variable {clients : List κ} {resultsPerClient : List (List (MultiResult κ))}
  (h : u.Answered u.batchSize clients resultsPerClient) (hnodup : clients.Nodup)

include h hnodup

omit [DecidableEq κ] in
theorem Answered.family {j : Nat} (hj : j < u.batchSize) :
    MultiResult.Family u.config u.generator.seqLen (DiffFuzz.row resultsPerClient j) :=
  family_of_answered (Answered.row h hj) hnodup

/-- The analysis of a batch does not raise, and leaves what there is to log. -/
theorem entries_eq (hle : 2 ≤ clients.length) (b : Nat) :
    u.entries b (u.expand b ((u.generator.generate b u.batchSize).map
      fun inp => { inp with fullSeq := true })) resultsPerClient =
        some (u.differences b resultsPerClient) := by
  have hne : resultsPerClient ≠ [] := by
    rintro rfl
    rw [List.forall₂_nil_right_iff.mp h] at hle
    exact absurd hle (Nat.not_succ_le_zero 1)
  have hlen : ∀ l ∈ resultsPerClient, l.length = u.batchSize := by
    clear hle hne hnodup
    induction h with
    | nil => exact fun l hl => absurd hl List.not_mem_nil
    | cons hhead _ ih => exact List.forall_mem_cons.mpr ⟨hhead.1, ih⟩
  -- with two clients or more a row is a family, and the search finds its splits
  have hrow : ∀ j < u.batchSize, u.diffTree (row resultsPerClient j) =
      some (u.splitsOf (row resultsPerClient j)) := by
    intro j hj
    refine diffTree_eq (Answered.family h hnodup hj) ?_
    rw [← (Answered.row h hj).length_eq]
    exact hle
  have hidx : ∀ f : Nat → FuzzInput α × List (MultiResult κ),
      ((List.range u.batchSize).map f).zipIdx = (List.range u.batchSize).map fun j => (f j, j) := by
    intro f
    apply List.ext_getElem
    · simp
    · intro j hj hj'
      simp
  rw [entries, expand_eq, zipAll_eq hne hlen, List.zip_map', hidx, List.mapM_map,
    Dict.mapM_eq_some (g := fun j => (u.splitsOf (row resultsPerClient j)).map
      fun split => (⟨b + j, u.inputAt (b + j), split⟩ : LogEntry κ α))]
  · rw [differences, List.flatMap_def]
    rfl
  · intro j hj
    show (u.diffTree (row resultsPerClient j)).bind _ = _
    rw [hrow j (List.mem_range.mp hj)]
    rfl

end

end DiffFuzz

end RISCover
