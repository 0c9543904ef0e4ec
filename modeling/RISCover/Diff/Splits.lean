import RISCover.Diff.Search

/-!
# Which clients a split separates

A recorded split separates two clients at the first prefix at which their results differ, so two
clients are separated at most once.
-/

open Cluster Refine

namespace RISCover

variable {κ : Type} {c : Config}

/-! ## Separation

Two clients are separated by the split of a class when their results there differ. This happens in
the round where they part and in no other. -/

/-- The split puts the two clients into different classes. -/
structure Split.Separates (split : Split κ) (a b : κ) : Prop where
  left : ∃ p ∈ split.resultToClients, a ∈ clientsFromClientTuples p.2
  right : ∃ p ∈ split.resultToClients, b ∈ clientsFromClientTuples p.2
  apart : ¬ InOneClass split.resultToClients a b

/-- The results of two clients differ at prefix `n`, and at no earlier one. -/
structure FirstDifferAt (n : Nat) (m m' : MultiResult κ) : Prop where
  before : ∀ i < n, ∃ r r', m.results[i]? = some r ∧ m'.results[i]? = some r' ∧ r.eq r' = true
  here : ∃ r r', m.results[n]? = some r ∧ m'.results[n]? = some r' ∧ r.eq r' = false

namespace MultiResult

variable {hash : HashKey → Int} {arch : Arch} {seqLen : Nat} {ms : List (MultiResult κ)}

/-- The clients of the clusters, by groups. -/
theorem exists_mem_clustersAt {n : Nat} {B : List (MultiResult κ)} {q : List κ → Prop} :
    (∃ p ∈ clustersAt hash n B, q (clientsFromClientTuples p.2)) ↔
      ∃ g ∈ groups (sameAt hash n) B, q (g.2.map client) := by
  have hclients := clients_clustersAt hash n B
  have hmem : ∀ l : List κ,
      (∃ p ∈ clustersAt hash n B, clientsFromClientTuples p.2 = l) ↔
        ∃ g ∈ groups (sameAt hash n) B, g.2.map client = l := by
    intro l
    rw [← List.mem_map, hclients, List.mem_map]
    simp only [largeFirst, List.mem_insertionSort]
  constructor
  · rintro ⟨p, hp, hq⟩
    obtain ⟨g, hg, heq⟩ := (hmem _).mp ⟨p, hp, rfl⟩
    exact ⟨g, hg, heq ▸ hq⟩
  · rintro ⟨g, hg, hq⟩
    obtain ⟨p, hp, heq⟩ := (hmem _).mpr ⟨g, hg, rfl⟩
    exact ⟨p, hp, heq ▸ hq⟩

/-- A client is in the split of its class. -/
theorem exists_mem_clustersAt_client {n : Nat} {B : List (MultiResult κ)} {a : κ} :
    (∃ p ∈ clustersAt hash n B, a ∈ clientsFromClientTuples p.2) ↔ ∃ m ∈ B, m.client = a := by
  rw [exists_mem_clustersAt (q := fun l => a ∈ l)]
  constructor
  · rintro ⟨g, hg, ha⟩
    obtain ⟨m, hm, rfl⟩ := List.mem_map.mp ha
    exact ⟨m, mem_of_mem_groups hg hm, rfl⟩
  · rintro ⟨m, hm, rfl⟩
    obtain ⟨g, hg, hmg⟩ := exists_group (r := sameAt hash n) hm
    exact ⟨g, hg, List.mem_map_of_mem hmg⟩

section Class

variable (h : Family c seqLen ms) {n : Nat} {B : List (MultiResult κ)}
  (hB : B ∈ classes hash ms n)

include h hB

theorem inOneClass_clustersAt {m m' : MultiResult κ} (hm : m ∈ B) (hm' : m' ∈ B) :
    InOneClass (clustersAt hash n B) m.client m'.client ↔ sameAt hash n m m' = true := by
  have hsub := h.subset_of_mem_classes hB
  have hlawful := h.lawful hash
  rw [InOneClass, exists_mem_clustersAt (q := fun l => m.client ∈ l ∧ m'.client ∈ l),
    ← together_groups_iff ((hlawful.tolerance n).mono hsub) ((hlawful.trans n).mono hsub) hm hm']
  constructor
  · rintro ⟨g, hg, ha, hb⟩
    have hgsub : g.2 ⊆ ms := fun x hx => hsub (mem_of_mem_groups hg hx)
    exact ⟨g, hg, (h.client_mem_iff hgsub (hsub hm)).mp ha,
      (h.client_mem_iff hgsub (hsub hm')).mp hb⟩
  · rintro ⟨g, hg, hx, hy⟩
    exact ⟨g, hg, List.mem_map_of_mem hx, List.mem_map_of_mem hy⟩

/-- A split of a class separates those of its clients whose results differ. -/
theorem separates_clustersAt_iff (k : Nat) {a b : κ} :
    Split.Separates ⟨clustersAt hash n B, k⟩ a b ↔
      ∃ m ∈ B, ∃ m' ∈ B, m.client = a ∧ m'.client = b ∧ sameAt hash n m m' = false := by
  constructor
  · rintro ⟨hleft, hright, hapart⟩
    obtain ⟨m, hm, rfl⟩ := exists_mem_clustersAt_client.mp hleft
    obtain ⟨m', hm', rfl⟩ := exists_mem_clustersAt_client.mp hright
    rw [inOneClass_clustersAt h hB hm hm', Bool.not_eq_true] at hapart
    exact ⟨m, hm, m', hm', rfl, rfl, hapart⟩
  · rintro ⟨m, hm, m', hm', rfl, rfl, hdiff⟩
    refine ⟨exists_mem_clustersAt_client.mpr ⟨m, hm, rfl⟩,
      exists_mem_clustersAt_client.mpr ⟨m', hm', rfl⟩, ?_⟩
    rw [inOneClass_clustersAt h hB hm hm', hdiff]
    exact Bool.false_ne_true

/-- The same for two given clients. -/
theorem separates_client_iff (k : Nat) {m m' : MultiResult κ} (hm : m ∈ ms) (hm' : m' ∈ ms) :
    Split.Separates ⟨clustersAt hash n B, k⟩ m.client m'.client ↔
      m ∈ B ∧ m' ∈ B ∧ sameAt hash n m m' = false := by
  have hsub := h.subset_of_mem_classes hB
  rw [separates_clustersAt_iff h hB]
  constructor
  · rintro ⟨x, hx, x', hx', hxm, hxm', hdiff⟩
    obtain rfl := h.client_inj (hsub hx) hm hxm
    obtain rfl := h.client_inj (hsub hx') hm' hxm'
    exact ⟨hx, hx', hdiff⟩
  · rintro ⟨hmB, hmB', hdiff⟩
    exact ⟨m, hmB, m', hmB', rfl, rfl, hdiff⟩

/-- The results of two clients of a class at the earlier prefixes. -/
theorem results_of_mem_class (hn : n ≤ seqLen) {m m' : MultiResult κ} (hm : m ∈ B) (hm' : m' ∈ B)
    {i : Nat} (hi : i < n) : ∃ r r', m.results[i]? = some r ∧ m'.results[i]? = some r' ∧
      r.signum = 0 ∧ r'.signum = 0 ∧ r.eq r' = true := by
  have hlawful := h.lawful hash
  have hrunner := h.fromRunner m (h.subset_of_mem_classes hB hm)
  have hrunner' := h.fromRunner m' (h.subset_of_mem_classes hB hm')
  have hgo : ∀ x ∈ B, ∀ j < n, (x.resultAt j).signum = 0 := by
    intro x hx j hj
    simpa [goesOn] using (agree_iff.mp (hlawful.agree_of_mem_blocks hB hx hx) j hj).1
  have hsame := (agree_iff.mp (hlawful.agree_of_mem_blocks hB hm hm') i hi).2
  rw [sameAt_iff hash hrunner hrunner'] at hsame
  have hlt := hrunner.lt_length (by omega : i < seqLen) fun j hj => hgo m hm j (by omega)
  have hlt' := hrunner'.lt_length (by omega : i < seqLen) fun j hj => hgo m' hm' j (by omega)
  exact ⟨_, _, getElem?_of_lt hlt, getElem?_of_lt hlt', hgo m hm i hi, hgo m' hm' i hi, hsame⟩

end Class

/-- Every split belongs to a class. -/
theorem mem_splitsUntil {n : Nat} {split : Split κ} (hsplit : split ∈ splitsUntil hash arch ms n) :
    ∃ i < n, ∃ B ∈ classes hash ms i, recordsSplitAt hash arch i B = true ∧
      split = ⟨clustersAt hash i B, i + 1⟩ := by
  obtain ⟨i, hi, hmem⟩ := List.mem_flatMap.mp hsplit
  obtain ⟨B, hB, hsome⟩ := List.mem_filterMap.mp hmem
  exact ⟨i, List.mem_range.mp hi, B, hB, (splitAt_eq_some_iff hash arch).mp hsome⟩

/-- The clients that a split separates differ for the first time at its prefix. -/
theorem Family.firstDifferAt (h : Family c seqLen ms) {n : Nat} (hn : n < seqLen)
    {B : List (MultiResult κ)} (hB : B ∈ classes hash ms n) {m m' : MultiResult κ} (hm : m ∈ B)
    (hm' : m' ∈ B) (hdiff : sameAt hash n m m' = false) : FirstDifferAt n m m' where
  before i hi := by
    obtain ⟨r, r', hr, hr', -, -, heq⟩ := results_of_mem_class h hB hn.le hm hm' hi
    exact ⟨r, r', hr, hr', heq⟩
  here := by
    rw [sameAt_iff hash (h.fromRunner m (h.subset_of_mem_classes hB hm))
      (h.fromRunner m' (h.subset_of_mem_classes hB hm'))] at hdiff
    exact ⟨_, _, getElem?_of_lt (h.lt_length_of_mem_classes hn hB hm),
      getElem?_of_lt (h.lt_length_of_mem_classes hn hB hm'), hdiff⟩

/-- Splits of one round belong to disjoint classes; a later round does not separate again what
differed before. -/
theorem Family.splitsUntil_pairwise (h : Family c seqLen ms) (n : Nat) :
    (splitsUntil hash arch ms n).Pairwise fun s t =>
      ∀ a b, s.Separates a b → ¬ t.Separates a b := by
  have hlawful := h.lawful hash
  rw [splitsUntil, List.pairwise_flatMap]
  constructor
  · intro i _
    rw [List.pairwise_filterMap]
    -- two splits of one round are of different classes, which have no client in common
    refine (hlawful.blocks_pairwise_disjoint h.ms_nodup i).imp_of_mem ?_
    intro B B' hB hB' hdisjoint s hs t ht a b hsab htab
    obtain ⟨-, rfl⟩ := (splitAt_eq_some_iff hash arch).mp hs
    obtain ⟨-, rfl⟩ := (splitAt_eq_some_iff hash arch).mp ht
    obtain ⟨m, hm, m', hm', rfl, rfl, -⟩ := (separates_clustersAt_iff h hB _).mp hsab
    obtain ⟨hx, -, -⟩ := (separates_client_iff h hB' _ (h.subset_of_mem_classes hB hm)
      (h.subset_of_mem_classes hB hm')).mp htab
    exact hdisjoint hm hx
  · -- what a later round visits agreed in the earlier one, so that did not separate it
    refine List.pairwise_lt_range.imp ?_
    intro i j hij s hs t ht a b hsab htab
    obtain ⟨B, hB, hsB⟩ := List.mem_filterMap.mp hs
    obtain ⟨B', hB', htB⟩ := List.mem_filterMap.mp ht
    obtain ⟨-, rfl⟩ := (splitAt_eq_some_iff hash arch).mp hsB
    obtain ⟨-, rfl⟩ := (splitAt_eq_some_iff hash arch).mp htB
    obtain ⟨m, hm, m', hm', rfl, rfl, hdiff⟩ := (separates_clustersAt_iff h hB _).mp hsab
    obtain ⟨hx, hx', -⟩ := (separates_client_iff h hB' _ (h.subset_of_mem_classes hB hm)
      (h.subset_of_mem_classes hB hm')).mp htab
    have hsame := (agree_iff.mp (hlawful.agree_of_mem_blocks hB' hx hx') i hij).2
    rw [hdiff] at hsame
    cases hsame

end MultiResult

open MultiResult

/-! ## The structure of the search

What holds after every round, and at the end, where it says that two clients are separated at most
once. -/

/-- What holds of the classes in front of round `n`. -/
structure Search.Structured (seqLen : Nat) (ms : List (MultiResult κ)) (n : Nat) (s : Search κ) :
    Prop where
  disjoint : s.currentClasses.Pairwise List.Disjoint
  /-- The clients of a class have equal results, without a signal, at all earlier prefixes. -/
  agree : ∀ clients ∈ s.currentClasses, ∀ m ∈ ms, ∀ m' ∈ ms, m.client ∈ clients →
    m'.client ∈ clients → ∀ i < n, ∃ r r', m.results[i]? = some r ∧ m'.results[i]? = some r' ∧
      r.signum = 0 ∧ r'.signum = 0 ∧ r.eq r' = true
  /-- Every client of a class has a result at the next prefix. -/
  inRange : n < seqLen → ∀ clients ∈ s.currentClasses, ∀ a ∈ clients,
    ∃ m ∈ ms, m.client = a ∧ n < m.results.length

theorem Search.structured_stateAt {seqLen : Nat} {ms : List (MultiResult κ)}
    (h : Family c seqLen ms) (hash : HashKey → Int) (arch : Arch) {n : Nat} (hn : n ≤ seqLen) :
    Search.Structured seqLen ms n (stateAt hash arch ms n) where
  disjoint := by
    rw [stateAt, List.pairwise_map]
    refine ((h.lawful hash).blocks_pairwise_disjoint h.ms_nodup n).imp_of_mem ?_
    intro B B' hB hB' hdisjoint a ha ha'
    obtain ⟨m, hm, rfl⟩ := List.mem_map.mp ha
    have hm' := (h.client_mem_iff (h.subset_of_mem_classes hB')
      (h.subset_of_mem_classes hB hm)).mp ha'
    exact hdisjoint hm hm'
  agree := by
    intro clients hclients m hm m' hm' ha ha' i hi
    obtain ⟨B, hB, rfl⟩ := List.mem_map.mp hclients
    have hsub := h.subset_of_mem_classes hB
    exact results_of_mem_class h hB hn ((h.client_mem_iff hsub hm).mp ha)
      ((h.client_mem_iff hsub hm').mp ha') hi
  inRange := by
    intro hlt clients hclients a ha
    obtain ⟨B, hB, rfl⟩ := List.mem_map.mp hclients
    obtain ⟨m, hm, rfl⟩ := List.mem_map.mp ha
    exact ⟨m, h.subset_of_mem_classes hB hm, rfl, h.lt_length_of_mem_classes hlt hB hm⟩

/-- The search ends without a `KeyError`; its classes are disjoint and consist of clients that
agreed so far; two clients are separated at most once, where their results differ first. -/
theorem findMinimalDiffTree_structured [DecidableEq κ] (c : Config) (hash : HashKey → Int)
    (seqLen : Nat) (ms : List (MultiResult κ)) (h : Family c seqLen ms) :
    (∀ n s, Iteration hash c.arch seqLen (getResultsForSeqLen ms seqLen) (ms.map client) n s →
      s.Structured seqLen ms n) ∧
    ∃ splits, findMinimalDiffTree hash c.arch seqLen (getResultsForSeqLen ms seqLen)
        (ms.map client) = some splits ∧
      (splits.Pairwise fun s t => ∀ a b, s.Separates a b → ¬ t.Separates a b) ∧
      ∀ split ∈ splits, ∀ m ∈ ms, ∀ m' ∈ ms, split.Separates m.client m'.client →
        ∃ n, split.seqLen = n + 1 ∧ FirstDifferAt n m m' := by
  constructor
  · intro n s hs
    have hn : n ≤ seqLen := by
      cases hs with
      | start => exact Nat.zero_le seqLen
      | next _ hn => exact hn
    rw [eq_stateAt_of_iteration hash c.arch h hs]
    exact Search.structured_stateAt h hash c.arch hn
  · refine ⟨_, findMinimalDiffTree_eq hash c.arch h, h.splitsUntil_pairwise seqLen, ?_⟩
    intro split hsplit m hm m' hm' hsep
    obtain ⟨n, hn, B, hB, -, rfl⟩ := mem_splitsUntil hsplit
    obtain ⟨hmB, hmB', hdiff⟩ := (separates_client_iff h hB _ hm hm').mp hsep
    exact ⟨n, rfl, h.firstDifferAt hn hB hmB hmB' hdiff⟩

/-- A sequence of two instructions, the first of which sets `pstate` and the second `x0`. -/
def twoPrefixes (client : String) (pstate x0 : Nat) : MultiResult String where
  results := [sampleResult 0 "pstate" pstate client, sampleResult 0 "x0" x0 client]
  client := client
  results_ne_nil := List.cons_ne_nil _ _
  client_eq := by simp [sampleResult]

/-- Two clients that differ at both prefixes. -/
def differTwice : List (MultiResult String) := [twoPrefixes "a" 1 1, twoPrefixes "b" 2 2]

theorem differTwice_family (arch : Arch) : Family (plainBuild arch) 2 differTwice where
  fromRunner := by
    have hone : ∀ client pstate x0,
        (twoPrefixes client pstate x0).FromRunner (plainBuild arch) 2 := by
      intro client pstate x0
      refine ⟨Nat.le_refl 2, ?_, fun h => absurd h (Nat.lt_irrefl 2), ?_⟩
      · simp [twoPrefixes, sampleResult]
      · simp [twoPrefixes, sampleResult_ofConfig]
    simp [differTwice, hone]
  clients_nodup := by decide

theorem findMinimalDiffTree_structured_differTwice :
    (∀ n s, Iteration (fun key => key.1) .riscv64 2 (getResultsForSeqLen differTwice 2)
        (differTwice.map client) n s → s.Structured 2 differTwice n) ∧
      ∃ splits, findMinimalDiffTree (fun key => key.1) .riscv64 2
          (getResultsForSeqLen differTwice 2) (differTwice.map client) = some splits ∧
        (splits.Pairwise fun s t => ∀ a b, s.Separates a b → ¬ t.Separates a b) ∧
        ∀ split ∈ splits, ∀ m ∈ differTwice, ∀ m' ∈ differTwice,
          split.Separates m.client m'.client →
            ∃ n, split.seqLen = n + 1 ∧ FirstDifferAt n m m' :=
  findMinimalDiffTree_structured (plainBuild .riscv64) (fun key => key.1) 2 differTwice
    (differTwice_family .riscv64)

end RISCover
