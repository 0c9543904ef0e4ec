import RISCover.Diff.Tree
import RISCover.Result.Parsed

/-!
# Logging a split

`log_repro` puts what a split's results differ in into the reproducer, and asserts that this is not
nothing. The results are the keys of a dictionary, so it rests on `__eq__`, `__hash__` and `diff`
seeing the same things.
-/

namespace RISCover

variable {κ : Type} {c : Config}

/-! ## What the results of a split differ in

`combinations` takes the keys two by two, so of two different results there is a pair. -/

/-- `combinations(l, 2)`. -/
def combinations {α : Type} : List α → List (α × α)
  | [] => []
  | x :: l => l.map (fun y => (x, y)) ++ combinations l

/-- `Repro.__init__`: of the tuples only the real clients are kept. -/
def reproResultToClients (resultToClients : Clusters (Result κ) κ) : List (Result κ × List κ) :=
  resultToClients.map fun p => (p.1, p.2.map Prod.snd)

/-- `Repro.all_diffs`. -/
def allDiffs (resultToClients : List (Result κ × List κ)) (noRegs : Bool := false) :
    Finset String :=
  (combinations (resultToClients.map Prod.fst)).foldl
    (fun diffs p => diffs ∪ p.1.diff p.2 noRegs) ∅

/-- `assert(diffs)` in `log_repro` does not fail. -/
def LogReproAsserts (split : Split κ) : Prop :=
  allDiffs (reproResultToClients split.resultToClients) ≠ ∅

/-- There are several results, and any two of them differ in something. -/
def Split.Differs (split : Split κ) : Prop :=
  1 < split.resultToClients.length ∧
    split.resultToClients.Pairwise fun p q => p.1.diff q.1 ≠ ∅

theorem subset_foldl_union {α : Type} (f : α → Finset String) (l : List α) (t : Finset String) :
    t ⊆ l.foldl (fun diffs p => diffs ∪ f p) t := by
  induction l generalizing t with
  | nil => exact Finset.Subset.refl t
  | cons x l ih => exact Finset.subset_union_left.trans (ih (t ∪ f x))

/-- The first two results are enough. -/
theorem Split.Differs.asserts {split : Split κ} (h : split.Differs) : LogReproAsserts split := by
  obtain ⟨hlen, hdiffer⟩ := h
  unfold LogReproAsserts allDiffs reproResultToClients
  rcases hsplit : split.resultToClients with _ | ⟨p, _ | ⟨q, rest⟩⟩
  · rw [hsplit] at hlen
    cases hlen
  · rw [hsplit] at hlen
    exact absurd hlen (Nat.lt_irrefl 1)
  · rw [hsplit, List.pairwise_cons] at hdiffer
    have hpq := hdiffer.1 q List.mem_cons_self
    intro hempty
    simp only [List.map_cons, combinations, List.cons_append, List.foldl_cons] at hempty
    have hsub := subset_foldl_union (fun r : Result κ × Result κ => r.1.diff r.2)
      ((rest.map fun x => (p.1, x.1)) ++ combinations (q.1 :: rest.map Prod.fst))
      (∅ ∪ p.1.diff q.1)
    refine hpq (Finset.subset_empty.mp ?_)
    calc p.1.diff q.1 = ∅ ∪ p.1.diff q.1 := (Finset.empty_union _).symm
      _ ⊆ _ := hsub
      _ = ∅ := by simpa [combinations, Function.comp_def] using hempty

/-! ## The recorded splits

The keys of a dictionary differ from each other, also after they have been sorted. -/

theorem clusterResults_pairwise (hash : HashKey → Int) {results : List (Result κ)}
    (h : ∀ r ∈ results, r.OfConfig c) :
    (clusterResults hash results).Pairwise fun p q => p.1.diff q.1 ≠ ∅ := by
  rw [clusterResults, clusterClientsByResults, Cluster.cluster_eq_map, List.pairwise_map]
  have hkey : ∀ g ∈ Cluster.groups (Result.sameKey hash) results, g.1.OfConfig c := fun g hg =>
    h g.1 (Cluster.mem_of_mem_groups hg (Cluster.key_mem hg))
  refine (Cluster.groups_pairwise_apart results).imp_of_mem fun {g g'} hg hg' hapart => ?_
  intro hnone
  rw [Result.sameKey_eq hash (hkey g hg) (hkey g' hg'),
    ((hkey g hg).eq_iff_diff_eq_empty (hkey g' hg')).mpr hnone] at hapart
  cases hapart

theorem sortByClients_pairwise {gs : Clusters (Result κ) κ}
    (h : gs.Pairwise fun p q => p.1.diff q.1 ≠ ∅) :
    (sortByClients gs).Pairwise fun p q => p.1.diff q.1 ≠ ∅ := by
  have hperm : (sortByClients gs).Perm gs := List.perm_insertionSort _ gs
  exact (hperm.pairwise_iff fun {p q} hne => by rwa [Result.diff_comm]).mpr h

/-! ## The recorded splits differ

A split is recorded when two clusters are left, so it has two keys. Through all rounds the splits
stay of this kind. -/

theorem exists_of_mem_mapM {α β : Type} {f : α → Option β} {l : List α} {l' : List β}
    (h : l.mapM f = some l') {y : β} (hy : y ∈ l') : ∃ x ∈ l, f x = some y := by
  induction l generalizing l' with
  | nil =>
      cases h
      cases hy
  | cons x l ih =>
      simp only [List.mapM_cons, Option.bind_eq_bind, Option.bind_eq_some_iff] at h
      obtain ⟨z, hz, rest, hrest, hout⟩ := h
      cases hout
      rcases List.mem_cons.mp hy with rfl | hy
      · exact ⟨x, List.mem_cons_self, hz⟩
      · obtain ⟨x', hx', hf⟩ := ih hrest hy
        exact ⟨x', List.mem_cons_of_mem x hx', hf⟩

/-- A loop keeps what its body keeps. -/
theorem foldlM_keeps {α β : Type} {q : β → Prop} {f : β → α → Option β}
    (hf : ∀ b x b', q b → f b x = some b' → q b') {l : List α} {b b' : β} (hb : q b)
    (h : l.foldlM f b = some b') : q b' := by
  induction l generalizing b with
  | nil =>
      cases h
      exact hb
  | cons x l ih =>
      simp only [List.foldlM_cons, Option.bind_eq_bind, Option.bind_eq_some_iff] at h
      obtain ⟨b₁, hstep, hrest⟩ := h
      exact ih (hf b x b₁ hb hstep) hrest

variable [DecidableEq κ] {hash : HashKey → Int} {arch : Arch}

theorem visitClass_differs {seqLen : Nat} {d : Dict κ (Result κ)} {e : Dict κ (LenientResult κ)}
    (hd : ∀ p ∈ d.items, p.2.OfConfig c) {acc acc' : List (Split κ) × List (List κ)}
    {clients : List κ} (hacc : ∀ split ∈ acc.1, split.Differs)
    (h : visitClass hash arch seqLen d e acc clients = some acc') :
    ∀ split ∈ acc'.1, split.Differs := by
  simp only [visitClass, Option.bind_eq_bind, Option.bind_eq_some_iff] at h
  obtain ⟨results, hresults, h⟩ := h
  -- the results of a class are results of the round
  have hof : ∀ r ∈ results, r.OfConfig c := by
    intro r hr
    obtain ⟨client, -, hget⟩ := exists_of_mem_mapM hresults hr
    exact hd _ (Dict.mem_items_iff.mpr hget)
  split at h
  next husable =>
    simp only [Option.bind_eq_some_iff] at h
    obtain ⟨filteredResults, -, splits, hsplits, hout⟩ := h
    cases hout
    split at hsplits
    next =>
      cases hsplits
      -- a split is one of an earlier class, or the one that is recorded now
      intro split hsplit
      rcases List.mem_append.mp hsplit with hold | hnew
      · exact hacc split hold
      · obtain rfl := List.mem_singleton.mp hnew
        exact ⟨husable.trans_le (List.length_filter_le _ _),
          sortByClients_pairwise (clusterResults_pairwise hash hof)⟩
    next =>
      cases hsplits
      exact hacc
  next =>
    cases h
    exact hacc

theorem byClient_ofConfig {results : List (Result κ)} {filteredResults : List (LenientResult κ)}
    (h : ∀ r ∈ results, r.OfConfig c) :
    ∀ p ∈ (byClient results filteredResults).1.items, p.2.OfConfig c := by
  have hloop : ∀ (l : List (Result κ × LenientResult κ))
      (d : Dict κ (Result κ) × Dict κ (LenientResult κ)), (∀ p ∈ l, p.1.OfConfig c) →
      (∀ p ∈ d.1.items, p.2.OfConfig c) →
      ∀ p ∈ (l.foldl (fun d p => (d.1.set p.1.client p.1, d.2.set p.1.client p.2)) d).1.items,
        p.2.OfConfig c := by
    intro l
    induction l with
    | nil => intro d _ hd; exact hd
    | cons x l ih =>
        intro d hl hd
        refine ih _ (fun p hp => hl p (List.mem_cons_of_mem x hp)) fun p hp => ?_
        rcases Dict.mem_items_set hp with rfl | hold
        · exact hl x List.mem_cons_self
        · exact hd p hold
  refine hloop _ _ (fun p hp => h p.1 (List.of_mem_zip hp).1) ?_
  rintro p ⟨⟩

section Search

variable {getResults : List κ → Nat → Option (List (Result κ) × List (LenientResult κ))}
  (hget : ∀ clients seqLen results filteredResults,
    getResults clients seqLen = some (results, filteredResults) → ∀ r ∈ results, r.OfConfig c)

include hget

theorem visitSeqLen_differs {s s' : Search κ} {seqLen : Nat}
    (hs : ∀ split ∈ s.splits, split.Differs)
    (h : visitSeqLen hash arch getResults s seqLen = some s') :
    ∀ split ∈ s'.splits, split.Differs := by
  simp only [visitSeqLen, Option.bind_eq_bind, Option.bind_eq_some_iff] at h
  obtain ⟨⟨results, filteredResults⟩, hresults, ⟨splits, newClasses⟩, hfold, hout⟩ := h
  cases hout
  have hd : ∀ p ∈ (byClient results filteredResults).1.items, p.2.OfConfig c :=
    byClient_ofConfig (hget _ _ _ _ hresults)
  exact foldlM_keeps (q := fun acc : List (Split κ) × List (List κ) =>
    ∀ split ∈ acc.1, split.Differs) (fun acc clients acc' hacc hvisit =>
      visitClass_differs hd hacc hvisit) hs hfold

theorem search_differs (n seqLen : Nat) {s s' : Search κ}
    (hs : ∀ split ∈ s.splits, split.Differs)
    (h : search hash arch getResults n seqLen s = some s') :
    ∀ split ∈ s'.splits, split.Differs := by
  induction n generalizing seqLen s with
  | zero =>
      cases h
      exact hs
  | succ n ih =>
      simp only [search, Option.bind_eq_bind, Option.bind_eq_some_iff] at h
      obtain ⟨s₁, hvisit, hrest⟩ := h
      have hs₁ := visitSeqLen_differs hget hs hvisit
      split at hrest
      next =>
        cases hrest
        exact hs₁
      next => exact ih _ hs₁ hrest

/-- Every recorded split has results that differ. -/
theorem findMinimalDiffTree_differs {untilSeqLen : Nat} {clients : List κ} {splits : List (Split κ)}
    (h : findMinimalDiffTree hash arch untilSeqLen getResults clients = some splits) :
    ∀ split ∈ splits, split.Differs := by
  obtain ⟨s, hsearch, rfl⟩ := Option.map_eq_some_iff.mp h
  refine search_differs hget untilSeqLen 1 ?_ hsearch
  rintro split ⟨⟩

end Search

omit [DecidableEq κ] in
theorem mem_of_getResultsForSeqLen {ms : List (MultiResult κ)} {maxSeqLen seqLen : Nat}
    {clients : List κ} {results : List (Result κ)} {filteredResults : List (LenientResult κ)}
    (h : getResultsForSeqLen ms maxSeqLen clients seqLen = some (results, filteredResults))
    {r : Result κ} (hr : r ∈ results) : ∃ m ∈ ms, r ∈ m.results := by
  simp only [getResultsForSeqLen, Option.bind_eq_bind, Option.bind_eq_some_iff] at h
  obtain ⟨results', hresults, filteredResults', -, hout⟩ := h
  cases hout
  obtain ⟨i, -, rfl⟩ := List.mem_map.mp (List.mem_of_getElem? hresults)
  obtain ⟨l, hl, hget⟩ := List.mem_filterMap.mp hr
  obtain ⟨m, hm, rfl⟩ := List.mem_map.mp hl
  exact ⟨m, hm, List.mem_of_getElem? hget⟩

/-- `==`, `hash` and `diff` agree on parsed results, so the assertion in `log_repro` holds for every
split of parsed results that is recorded. -/
theorem logRepro_asserts (c : Config) (hash : HashKey → Int) :
    (∀ r1 r2 : Result κ, r1.ParsedBy c → r2.ParsedBy c →
      (r1.eq r2 = true ↔ r1.diff r2 = ∅) ∧
        (r1.eq r2 = true → hash r1.hashKey = hash r2.hashKey)) ∧
    ∀ (ms : List (MultiResult κ)), (∀ m ∈ ms, ∀ r ∈ m.results, r.ParsedBy c) →
      ∀ (maxSeqLen untilSeqLen : Nat) (clients : List κ) (splits : List (Split κ)),
        findMinimalDiffTree hash c.arch untilSeqLen (getResultsForSeqLen ms maxSeqLen) clients =
          some splits → ∀ split ∈ splits, LogReproAsserts split := by
  constructor
  · intro r1 r2 h1 h2
    have hof1 := h1.formed.toOfConfig
    have hof2 := h2.formed.toOfConfig
    exact ⟨hof1.eq_iff_diff_eq_empty hof2, fun heq =>
      congrArg hash (Result.hashKey_eq hof1 hof2 heq)⟩
  · intro ms hms maxSeqLen untilSeqLen clients splits h split hsplit
    refine (findMinimalDiffTree_differs (c := c) ?_ h split hsplit).asserts
    intro clients seqLen results filteredResults hget r hr
    obtain ⟨m, hm, hmem⟩ := mem_of_getResultsForSeqLen hget hr
    exact (hms m hm r hmem).formed.toOfConfig

/-- A client that answers a sequence of one instruction, which changes `ra`. -/
def onePrefix (client : String) (ra : UInt8) : MultiResult String where
  results := [sampleResult 0 "ra" ra.toNat client]
  client := client
  results_ne_nil := List.cons_ne_nil _ _
  client_eq := by simp [sampleResult]

theorem logRepro_asserts_onePrefix :
    ∃ splits, findMinimalDiffTree (fun key => key.1) .riscv64 1
        (getResultsForSeqLen [onePrefix "a" 1, onePrefix "b" 2] 1) ["a", "b"] = some splits ∧
      splits.length = 1 ∧ ∀ split ∈ splits, LogReproAsserts split := by
  have hone : (findMinimalDiffTree (fun key => key.1) .riscv64 1
      (getResultsForSeqLen [onePrefix "a" 1, onePrefix "b" 2] 1) ["a", "b"]).map List.length =
        some 1 := by
    decide +kernel
  obtain ⟨splits, hsplits, hlen⟩ := Option.map_eq_some_iff.mp hone
  refine ⟨splits, hsplits, hlen, (logRepro_asserts (plainBuild .riscv64) (fun key => key.1)).2
    [onePrefix "a" 1, onePrefix "b" 2] ?_ 1 1 ["a", "b"] splits hsplits⟩
  intro m hm r hr
  rcases List.mem_pair.mp hm with rfl | rfl
  · obtain rfl := List.mem_singleton.mp hr
    exact sampleResult_parsedBy 1 "a"
  · obtain rfl := List.mem_singleton.mp hr
    exact sampleResult_parsedBy 2 "b"

end RISCover
