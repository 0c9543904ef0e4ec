import RISCover.Diff.Tree

/-!
# What the search computes

The classes of the search are the blocks of `Refine`, with the raw results of a prefix as the
comparison of its round, and no client of a class ever lacks a result. So the whole search is a
formula (`findMinimalDiffTree_eq`): the splits are those of the blocks, round by round.
-/

open Cluster Refine

namespace RISCover

variable {κ : Type} {c : Config}

namespace MultiResult

/-! ## Rounds of the search as rounds of a refinement

`Refine` refines a partition by one comparison after the other. `FromRunner` gives what its rules
ask for: the comparisons are equivalences, and no client is asked for a result that it does not
have. -/

/-- Two clients are kept together at prefix `n`. -/
def sameAt (hash : HashKey → Int) (n : Nat) (m m' : MultiResult κ) : Bool :=
  Result.sameKey hash (m.resultAt n) (m'.resultAt n)

/-- The sequence goes on after prefix `n`. -/
def goesOn (n : Nat) (m : MultiResult κ) : Bool := (m.resultAt n).signum == 0

/-- The order of the classes: large ones first. -/
def largeFirst (gs : List (MultiResult κ × List (MultiResult κ))) :
    List (MultiResult κ × List (MultiResult κ)) :=
  gs.insertionSort fun p q => q.2.length ≤ p.2.length

/-- The results of the clients agreed, without a signal, at all of the first `n` prefixes. -/
def agreed (hash : HashKey → Int) (n : Nat) (m m' : MultiResult κ) : Bool :=
  agree (sameAt hash) goesOn n m m'

/-- The classes of the clients in front of round `n`. -/
def classes (hash : HashKey → Int) (ms : List (MultiResult κ)) (n : Nat) :
    List (List (MultiResult κ)) :=
  blocks (sameAt hash) goesOn largeFirst ms n

variable {seqLen : Nat} {ms : List (MultiResult κ)} (hash : HashKey → Int)

theorem FromRunner.resultAt_ofConfig {m : MultiResult κ} (h : m.FromRunner c seqLen) (n : Nat) :
    (m.resultAt n).OfConfig c :=
  h.ofConfig _ (m.resultAt_mem n)

theorem Family.ofConfig_of_mem_map (h : Family c seqLen ms) {B : List (MultiResult κ)}
    (hB : B ⊆ ms) (n : Nat) : ∀ r ∈ B.map (resultAt n), r.OfConfig c := by
  intro r hr
  obtain ⟨m, hm, rfl⟩ := List.mem_map.mp hr
  exact (h.fromRunner m (hB hm)).resultAt_ofConfig n

theorem Family.lawful (h : Family c seqLen ms) :
    Lawful (sameAt hash) goesOn largeFirst ms where
  arrange_perm gs := List.perm_insertionSort _ gs
  tolerance n := by
    have htol := Result.sameKey_toleranceOn (h.ofConfig_of_mem_map (List.Subset.refl ms) n) hash
    exact ⟨fun m hm => htol.refl _ (List.mem_map_of_mem hm),
      fun m hm m' hm' => htol.symm _ (List.mem_map_of_mem hm) _ (List.mem_map_of_mem hm')⟩
  trans n := by
    have htrans := Result.sameKey_transOn (h.ofConfig_of_mem_map (List.Subset.refl ms) n) hash
    exact fun m hm m' hm' m'' hm'' => htrans _ (List.mem_map_of_mem hm) _ (List.mem_map_of_mem hm')
      _ (List.mem_map_of_mem hm'')
  goesOn_congr n m _ m' _ hs := by
    rw [sameAt, Result.sameKey, Bool.and_eq_true] at hs
    rw [goesOn, goesOn, (Result.eq_iff.mp hs.2).1]

theorem sameAt_iff {m m' : MultiResult κ} (hm : m.FromRunner c seqLen)
    (hm' : m'.FromRunner c seqLen) (n : Nat) :
    sameAt hash n m m' = (m.resultAt n).eq (m'.resultAt n) :=
  Result.sameKey_eq hash (hm.resultAt_ofConfig n) (hm'.resultAt_ofConfig n)

theorem Family.ms_nodup (h : Family c seqLen ms) : ms.Nodup := h.clients_nodup.of_map

theorem Family.client_inj (h : Family c seqLen ms) {m m' : MultiResult κ} (hm : m ∈ ms)
    (hm' : m' ∈ ms) (heq : m.client = m'.client) : m = m' :=
  List.inj_on_of_nodup_map h.clients_nodup hm hm' heq

/-- A client stands for its results. -/
theorem Family.client_mem_iff (h : Family c seqLen ms) {B : List (MultiResult κ)} (hB : B ⊆ ms)
    {m : MultiResult κ} (hm : m ∈ ms) : m.client ∈ B.map client ↔ m ∈ B := by
  constructor
  · intro hclient
    obtain ⟨x, hx, heq⟩ := List.mem_map.mp hclient
    exact h.client_inj (hB hx) hm heq ▸ hx
  · exact List.mem_map_of_mem

variable {hash}

theorem Family.subset_of_mem_classes (h : Family c seqLen ms) {n : Nat}
    {B : List (MultiResult κ)} (hB : B ∈ classes hash ms n) : B ⊆ ms := fun _ hm =>
  ((h.lawful hash).eq_filter_of_mem_blocks hB hm).1

/-- Every client of a class has a result at the next prefix. -/
theorem Family.lt_length_of_mem_classes (h : Family c seqLen ms) {n : Nat} (hn : n < seqLen)
    {B : List (MultiResult κ)} (hB : B ∈ classes hash ms n) {m : MultiResult κ} (hm : m ∈ B) :
    n < m.results.length := by
  apply (h.fromRunner m (h.subset_of_mem_classes hB hm)).lt_length hn
  intro i hi
  have hgo := (agree_iff.mp ((h.lawful hash).agree_of_mem_blocks hB hm hm) i hi).1
  simpa [goesOn] using hgo

/-! ## The clusters of a class

What `cluster_clients_by_results` and the filters make of a class, as a function of the class alone.
-/

variable (hash) (arch : Arch)

/-- `result_to_clients`, sorted, for a class at prefix `n`. -/
def clustersAt (n : Nat) (B : List (MultiResult κ)) : Clusters (Result κ) κ :=
  sortByClients (clusterResults hash (B.map (resultAt n)))

/-- Whether the split of a class at prefix `n` is recorded. -/
def recordsSplitAt (n : Nat) (B : List (MultiResult κ)) : Bool :=
  recordsSplit hash arch (B.map (resultAt n))
    (B.map fun m => LenientResult.ofResult (m.resultAt n))

/-- What a class adds to `splits`. -/
def splitAt (n : Nat) (B : List (MultiResult κ)) : Option (Split κ) :=
  if recordsSplitAt hash arch n B then some ⟨clustersAt hash n B, n + 1⟩ else none

theorem splitAt_eq_some_iff {n : Nat} {B : List (MultiResult κ)} {split : Split κ} :
    splitAt hash arch n B = some split ↔
      recordsSplitAt hash arch n B = true ∧ split = ⟨clustersAt hash n B, n + 1⟩ := by
  rw [splitAt]
  by_cases h : recordsSplitAt hash arch n B = true
  · rw [if_pos h, Option.some.injEq]
    exact ⟨fun heq => ⟨h, heq.symm⟩, fun heq => heq.2.symm⟩
  · simp [h]

/-- What the first `n` rounds add to `splits`. -/
def splitsUntil (ms : List (MultiResult κ)) (n : Nat) : List (Split κ) :=
  (List.range n).flatMap fun i => (classes hash ms i).filterMap (splitAt hash arch i)

theorem clustersAt_eq (n : Nat) (B : List (MultiResult κ)) :
    clustersAt hash n B =
      (largeFirst (groups (sameAt hash n) B)).map fun g =>
        (g.1.resultAt n, g.2.map fun m => (m.client, (m.resultAt n).realClient)) := by
  rw [clustersAt, clusterResults, clusterClientsByResults, cluster_eq_map, groups_map, List.map_map,
    sortByClients, largeFirst, List.map_insertionSort _ (fun p q => q.2.length ≤ p.2.length)]
  · simp only [Function.comp_def, List.map_map, client_resultAt, id_eq]
    rfl
  · intro g _ g' _
    simp

/-- The clients in the clusters of a class, by groups. -/
theorem clients_clustersAt (n : Nat) (B : List (MultiResult κ)) :
    (clustersAt hash n B).map (fun p => clientsFromClientTuples p.2) =
      (largeFirst (groups (sameAt hash n) B)).map fun g => g.2.map client := by
  rw [clustersAt_eq, List.map_map]
  apply List.map_congr_left
  intro g _
  simp [clientsFromClientTuples]

theorem newClasses_clustersAt (n : Nat) (B : List (MultiResult κ)) :
    newClasses (clustersAt hash n B) =
      (survivors (sameAt hash) goesOn largeFirst n B).map (List.map client) := by
  rw [newClasses, clustersAt_eq, List.filterMap_map, survivors, List.map_filterMap]
  apply List.filterMap_congr
  intro g _
  have hclients : clientsFromClientTuples
      (g.2.map fun m => (m.client, (m.resultAt n).realClient)) = g.2.map client := by
    simp [clientsFromClientTuples]
  show (if goesOn n g.1 && decide (1 < (g.2.map _).length) then _ else none) = _
  rw [List.length_map, hclients]
  split <;> rfl

end MultiResult

open MultiResult

/-! ## The rounds

The state after a number of rounds is a formula in the classes of this round (`stateAt`), by
induction on the rounds. -/

/-- The clients that have a result at the prefix. -/
def answered (ms : List (MultiResult κ)) (n : Nat) : List (MultiResult κ) :=
  ms.filter fun m => decide (n < m.results.length)

/-- Sorting does not change how many clusters are usable. -/
theorem length_clusterRemoveUnusable_sort {ρ : Type} (toResult : ρ → Result κ)
    (gs : Clusters ρ κ) :
    (clusterRemoveUnusable toResult (sortByClients gs)).length =
      (clusterRemoveUnusable toResult gs).length := by
  have hperm : (sortByClients gs).Perm gs := List.perm_insertionSort _ gs
  rw [clusterRemoveUnusable, clusterRemoveUnusable, hperm.countP_eq]
  exact (hperm.filter _).length_eq

section Rounds

variable [DecidableEq κ] (hash : HashKey → Int) (arch : Arch) {seqLen : Nat}
  {ms : List (MultiResult κ)}

/-- A class whose clients all have a result. -/
theorem visitClass_eq {n : Nat} {B : List (MultiResult κ)} {d : Dict κ (Result κ)}
    {e : Dict κ (LenientResult κ)} (hd : ∀ m ∈ B, d.get? m.client = some (m.resultAt n))
    (he : ∀ m ∈ B, e.get? m.client = some (LenientResult.ofResult (m.resultAt n)))
    (acc : List (Split κ) × List (List κ)) :
    visitClass hash arch (n + 1) d e acc (B.map client) =
      some (acc.1 ++ (splitAt hash arch n B).toList,
        acc.2 ++ (survivors (sameAt hash) goesOn largeFirst n B).map (List.map client)) := by
  have hresults : (B.map client).mapM d.get? = some (B.map (resultAt n)) := by
    rw [List.mapM_map]
    exact Dict.mapM_eq_some hd
  have hfiltered : (B.map client).mapM e.get? =
      some (B.map fun m => LenientResult.ofResult (m.resultAt n)) := by
    rw [List.mapM_map]
    exact Dict.mapM_eq_some he
  have hclasses := newClasses_clustersAt hash n B
  rw [clustersAt] at hclasses
  rw [visitClass, hresults, Option.bind_eq_bind, Option.bind_some]
  simp only [hfiltered, Option.bind_eq_bind, Option.bind_some, hclasses,
    length_clusterRemoveUnusable_sort, splitAt, recordsSplitAt, recordsSplit, clustersAt,
    Bool.and_eq_true, decide_eq_true_eq]
  split
  next hraw =>
    split
    next hfilt => simp [hraw, hfilt]
    next hfilt => simp [hfilt]
  next hraw => simp [hraw]

theorem byClient_get? (results : List (MultiResult κ)) (hnodup : (results.map client).Nodup)
    (n : Nat) {m : MultiResult κ} (hm : m ∈ results) :
    let dicts := byClient (results.map (resultAt n))
      (results.map fun m => LenientResult.ofResult (m.resultAt n))
    dicts.1.get? m.client = some (m.resultAt n) ∧
      dicts.2.get? m.client = some (LenientResult.ofResult (m.resultAt n)) := by
  have hpair : ∀ (l : List (MultiResult κ)) (d : Dict κ (Result κ)) (e : Dict κ (LenientResult κ)),
      l.foldl (fun d m => (d.1.set m.client (m.resultAt n),
          d.2.set m.client (LenientResult.ofResult (m.resultAt n)))) (d, e) =
        (l.foldl (fun d m => d.set m.client (m.resultAt n)) d,
          l.foldl (fun d m => d.set m.client (LenientResult.ofResult (m.resultAt n))) e) := by
    intro l
    induction l with
    | nil => intro d e; rfl
    | cons m l ih => intro d e; exact ih _ _
  have hloop := hpair results Dict.empty Dict.empty
  simp only [byClient, List.zip_map', List.foldl_map, client_resultAt]
  rw [hloop]
  exact ⟨Dict.get?_foldl_set client (resultAt n) hnodup hm,
    Dict.get?_foldl_set client (fun m => LenientResult.ofResult (m.resultAt n)) hnodup hm⟩

omit [DecidableEq κ] in
/-- What is looked up for a round: the results of the clients that have one. -/
theorem getResultsForSeqLen_eq (ms : List (MultiResult κ)) {n : Nat} (hn : n < seqLen)
    (clients : List κ) :
    getResultsForSeqLen ms seqLen clients (n + 1) =
      some ((answered ms n).map (resultAt n),
        (answered ms n).map fun m => LenientResult.ofResult (m.resultAt n)) := by
  -- `results_per_seq_len` lists the results of one length, without the clients that stopped before
  have hat : ∀ (l : List (List (Result κ))), (multiresultsToResultsPerSeqLen l seqLen)[n]? =
      some (l.filterMap fun results => results[n]?) := by
    intro l
    rw [multiresultsToResultsPerSeqLen, List.getElem?_map, List.getElem?_range hn]
    rfl
  have hatF : ∀ (l : List (List (LenientResult κ))), (multiresultsToResultsPerSeqLen l seqLen)[n]? =
      some (l.filterMap fun results => results[n]?) := by
    intro l
    rw [multiresultsToResultsPerSeqLen, List.getElem?_map, List.getElem?_range hn]
    rfl
  -- a client has a result for a length or was stopped by a signal before
  have hget : ∀ m : MultiResult κ, m.results[n]? =
      if decide (n < m.results.length) then some (m.resultAt n) else none := by
    intro m
    by_cases hlt : n < m.results.length
    · rw [getElem?_of_lt hlt, if_pos (decide_eq_true hlt)]
    · rw [List.getElem?_eq_none (Nat.not_lt.mp hlt), if_neg (by simpa using hlt)]
  simp only [getResultsForSeqLen, Nat.add_sub_cancel, hat, hatF, Option.bind_eq_bind,
    Option.bind_some, List.filterMap_map, Function.comp_def, List.getElem?_map, hget, answered]
  congr 2
  · rw [← List.filterMap_eq_map, List.filterMap_filter]
    rfl
  · rw [← List.filterMap_eq_map, List.filterMap_filter]
    apply List.filterMap_congr
    intro m _
    split <;> rfl

/-- The state of the loop after `n` rounds. -/
def stateAt (ms : List (MultiResult κ)) (n : Nat) : Search κ where
  currentClasses := (classes hash ms n).map (List.map client)
  splits := splitsUntil hash arch ms n

omit [DecidableEq κ] in
theorem splitsUntil_succ (ms : List (MultiResult κ)) (n : Nat) :
    splitsUntil hash arch ms (n + 1) =
      splitsUntil hash arch ms n ++ (classes hash ms n).filterMap (splitAt hash arch n) := by
  rw [splitsUntil, List.range_succ, List.flatMap_append, List.flatMap_singleton]
  rfl

/-- A round does to the classes and to the splits what the blocks say. -/
theorem visitSeqLen_stateAt (h : Family c seqLen ms) {n : Nat} (hn : n < seqLen) :
    visitSeqLen hash arch (getResultsForSeqLen ms seqLen) (stateAt hash arch ms n) (n + 1) =
      some (stateAt hash arch ms (n + 1)) := by
  have hnodup : ((answered ms n).map client).Nodup :=
    h.clients_nodup.sublist (List.filter_sublist.map client)
  have hanswered : ∀ B ∈ classes hash ms n, ∀ m ∈ B, m ∈ answered ms n := fun B hB m hm =>
    List.mem_filter.mpr ⟨h.subset_of_mem_classes hB hm,
      decide_eq_true (h.lt_length_of_mem_classes hn hB hm)⟩
  have hlook := fun m (hm : m ∈ answered ms n) => byClient_get? (answered ms n) hnodup n hm
  rw [visitSeqLen, getResultsForSeqLen_eq ms hn, Option.bind_eq_bind, Option.bind_some]
  simp only at hlook ⊢
  generalize byClient ((answered ms n).map (resultAt n))
    ((answered ms n).map fun m => LenientResult.ofResult (m.resultAt n)) = dicts at hlook ⊢
  obtain ⟨d, e⟩ := dicts
  -- the loop over the classes, on those that are still to be visited
  have hloop : ∀ (bs : List (List (MultiResult κ))), (∀ B ∈ bs, B ∈ classes hash ms n) →
      ∀ acc : List (Split κ) × List (List κ),
        (bs.map (List.map client)).foldlM (visitClass hash arch (n + 1) d e) acc =
          some (acc.1 ++ bs.filterMap (splitAt hash arch n),
            acc.2 ++ (bs.flatMap (survivors (sameAt hash) goesOn largeFirst n)).map
              (List.map client)) := by
    intro bs
    induction bs with
    | nil => intro _ acc; simp
    | cons B bs ih =>
        intro hbs acc
        have hB := hbs B List.mem_cons_self
        have hvisit := visitClass_eq hash arch (fun m hm => (hlook m (hanswered B hB m hm)).1)
          (fun m hm => (hlook m (hanswered B hB m hm)).2) acc
        rw [List.map_cons, List.foldlM_cons, hvisit, Option.bind_eq_bind, Option.bind_some,
          ih fun B' hB' => hbs B' (List.mem_cons_of_mem B hB')]
        cases hsplit : splitAt hash arch n B <;> simp [hsplit]
  show Option.bind ((stateAt hash arch ms n).currentClasses.foldlM
    (visitClass hash arch (n + 1) d e) ((stateAt hash arch ms n).splits, [])) _ = _
  rw [stateAt, hloop _ (fun B hB => hB), Option.bind_some, stateAt, splitsUntil_succ]
  rfl

omit [DecidableEq κ] in
/-- Once no class is left, nothing is added any more. -/
theorem splitsUntil_of_classes_eq_nil {n : Nat} (hnil : classes hash ms n = []) (k : Nat) :
    classes hash ms (n + k) = [] ∧
      splitsUntil hash arch ms (n + k) = splitsUntil hash arch ms n := by
  induction k with
  | zero => exact ⟨hnil, rfl⟩
  | succ k ih =>
      refine ⟨?_, ?_⟩
      · rw [classes, Nat.add_succ, blocks]
        rw [classes] at ih
        rw [ih.1, List.flatMap_nil]
      · rw [Nat.add_succ, splitsUntil_succ, ih.1, ih.2, List.filterMap_nil, List.append_nil]

theorem search_stateAt (h : Family c seqLen ms) (k n : Nat) (hk : n + k = seqLen) :
    ∃ s, search hash arch (getResultsForSeqLen ms seqLen) k (n + 1) (stateAt hash arch ms n) =
      some s ∧ s.splits = splitsUntil hash arch ms seqLen := by
  induction k generalizing n with
  | zero => exact ⟨_, rfl, by rw [← hk]; rfl⟩
  | succ k ih =>
      rw [search, visitSeqLen_stateAt hash arch h (by omega), Option.bind_eq_bind, Option.bind_some]
      by_cases hnil : (stateAt hash arch ms (n + 1)).currentClasses.length = 0
      · -- the loop breaks, and the rounds it leaves out would add nothing
        rw [if_pos hnil]
        refine ⟨_, rfl, ?_⟩
        have hempty : classes hash ms (n + 1) = [] := by
          simpa [stateAt] using hnil
        have hrest := (splitsUntil_of_classes_eq_nil hash arch hempty k).2
        rw [show n + 1 + k = seqLen by omega] at hrest
        exact hrest.symm
      · rw [if_neg hnil]
        exact ih (n + 1) (by omega)

/-- The search does not run into a `KeyError`, and records the splits of all rounds. -/
theorem findMinimalDiffTree_eq (h : Family c seqLen ms) :
    findMinimalDiffTree hash arch seqLen (getResultsForSeqLen ms seqLen) (ms.map client) =
      some (splitsUntil hash arch ms seqLen) := by
  obtain ⟨s, hs, hsplits⟩ := search_stateAt hash arch h seqLen 0 (Nat.zero_add seqLen)
  have hstart : stateAt hash arch ms 0 = ⟨[ms.map client], []⟩ := rfl
  rw [hstart, Nat.zero_add] at hs
  rw [findMinimalDiffTree, hs, Option.map_some, hsplits]

/-- The states of the loop are these states. -/
theorem eq_stateAt_of_iteration (h : Family c seqLen ms) {n : Nat} {s : Search κ}
    (hs : Iteration hash arch seqLen (getResultsForSeqLen ms seqLen) (ms.map client) n s) :
    s = stateAt hash arch ms n := by
  induction hs with
  | start => rfl
  | next _ hn _ hvisit ih =>
      rw [ih, visitSeqLen_stateAt hash arch h hn] at hvisit
      exact (Option.some.inj hvisit).symm

end Rounds

end RISCover
