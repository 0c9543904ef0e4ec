import RISCover.Diff.Splits

/-!
# Which differences are reported

Clients part ways at the first prefix at which their results differ, whether or not the filters hide
that difference. So two clients whose filtered results differ somewhere are separated by a split
exactly when the filtered results of their class are several clusters where they part.
-/

open Cluster Refine

namespace RISCover

variable {κ : Type} {c : Config}

/-! ## Parting

Two clients part at the first prefix at which their raw results differ. Up to there they are in one
class, with the clients that agree with them so far. -/

theorem FirstDifferAt.ne {m m' : MultiResult κ} {n : Nat} (h : FirstDifferAt n m m') : m ≠ m' := by
  rintro rfl
  obtain ⟨r, r', hr, hr', heq⟩ := h.here
  obtain rfl := Option.some.inj (hr.symm.trans hr')
  rw [Result.eq_refl] at heq
  cases heq

/-- Clients part only once. -/
theorem FirstDifferAt.unique {m m' : MultiResult κ} {i j : Nat} (hi : FirstDifferAt i m m')
    (hj : FirstDifferAt j m m') : i = j := by
  have hnot : ∀ {i j : Nat}, FirstDifferAt i m m' → FirstDifferAt j m m' → ¬ i < j := by
    intro i j hi hj hlt
    obtain ⟨r, r', hr, hr', hdiff⟩ := hi.here
    obtain ⟨s, s', hs, hs', heq⟩ := hj.before i hlt
    rw [hr] at hs
    rw [hr'] at hs'
    obtain rfl := Option.some.inj hs
    obtain rfl := Option.some.inj hs'
    rw [hdiff] at heq
    cases heq
  exact Nat.le_antisymm (Nat.not_lt.mp (hnot hj hi)) (Nat.not_lt.mp (hnot hi hj))

namespace MultiResult

/-- The results of the two clients were equal in front of prefix `n`. -/
def agreeBefore (n : Nat) (m m' : MultiResult κ) : Bool :=
  (List.range n).all fun i => (m.resultAt i).eq (m'.resultAt i)

/-- The filtered results at prefix `n` of the clients that agreed with `m` so far, in the order of
the clients. -/
def peerResults (ms : List (MultiResult κ)) (n : Nat) (m : MultiResult κ) :
    List (LenientResult κ) :=
  (ms.filter (agreeBefore n m)).map fun m' => LenientResult.ofResult (m'.resultAt n)

/-- Of the results with `SIGILL`, or of those without, one is not equal to the first. -/
def FilterSplits (arch : Arch) (results : List (LenientResult κ)) : Prop :=
  ∃ ill : Bool,
    ∃ x ∈ (results.filter fun r => (r.signum == SIGILL) == ill).head?,
      ∃ y ∈ results.filter fun r => (r.signum == SIGILL) == ill, x.filteredEq arch y = false

variable {hash : HashKey → Int} {seqLen : Nat} {ms : List (MultiResult κ)}

/-- Only the last result has a signal. -/
theorem FromRunner.signum_of_lt {m : MultiResult κ} (h : m.FromRunner c seqLen) {i n : Nat}
    (hn : n < m.results.length) (hi : i < n) : (m.resultAt i).signum = 0 := by
  apply h.signum_init
  apply List.mem_of_getElem? (i := i)
  rw [List.getElem?_dropLast, if_pos (by omega)]
  exact getElem?_of_lt (by omega)

/-- For a client that reaches prefix `n`, agreeing is having equal results. -/
theorem Family.agreed_eq (h : Family c seqLen ms) {m x : MultiResult κ} (hm : m ∈ ms) (hx : x ∈ ms)
    {n : Nat} (hn : n < m.results.length) : agreed hash n m x = agreeBefore n m x := by
  rw [Bool.eq_iff_iff, agreed, agree_iff, agreeBefore, List.all_eq_true]
  simp only [List.mem_range]
  refine forall₂_congr fun i hi => ?_
  have hgo : goesOn i m = true := by
    simpa [goesOn] using (h.fromRunner m hm).signum_of_lt hn hi
  rw [hgo, sameAt_iff hash (h.fromRunner m hm) (h.fromRunner x hx)]
  simp

/-- Equal results are equal under the filters. -/
theorem filteredEq_of_eq (arch : Arch) {r r' : Result κ} (h : r.eq r' = true) :
    (LenientResult.ofResult r).filteredEq arch (LenientResult.ofResult r') = true := by
  apply LenientResult.filteredEq_iff.mpr
  right
  obtain ⟨hsignum, haddr, hpc, hcode, hmem, hregs⟩ := Result.eq_iff.mp h
  rw [Result.eq_iff, LenientResult.ofResult, LenientResult.ofResult, hsignum]
  split
  next => exact ⟨rfl, rfl, rfl, rfl, fun _ => rfl, Dict.beq_refl _⟩
  next => exact ⟨rfl, haddr, hpc, hcode, hmem, hregs⟩

/-- Clients whose filtered results differ at some prefix part there or earlier. -/
theorem exists_firstDifferAt {m m' : MultiResult κ} {k : Nat} (hk : k < m.results.length)
    (hk' : k < m'.results.length) (hdiff : (m.resultAt k).eq (m'.resultAt k) = false) :
    ∃ j ≤ k, FirstDifferAt j m m' := by
  have hex : ∃ j, (m.resultAt j).eq (m'.resultAt j) = false := ⟨k, hdiff⟩
  classical
  have hle : Nat.find hex ≤ k := Nat.find_min' hex hdiff
  refine ⟨Nat.find hex, hle, fun i hi => ?_, ?_⟩
  · have heq := Nat.find_min hex hi
    rw [Bool.not_eq_false] at heq
    exact ⟨_, _, getElem?_of_lt (by omega), getElem?_of_lt (by omega), heq⟩
  · exact ⟨_, _, getElem?_of_lt (by omega), getElem?_of_lt (by omega), Nat.find_spec hex⟩

/-! ## Where two clients part

The round of the prefix at which they part finds both in one class and separates them. -/

section FirstDiffer

variable (h : Family c seqLen ms) {m m' : MultiResult κ} (hm : m ∈ ms) (hm' : m' ∈ ms) {j : Nat}
  (hj : FirstDifferAt j m m')

include h hm hm' hj

theorem Family.not_sameAt_of_firstDifferAt : sameAt hash j m m' = false := by
  obtain ⟨r, r', hr, hr', heq⟩ := hj.here
  rw [sameAt_iff hash (h.fromRunner m hm) (h.fromRunner m' hm'), resultAt_of_getElem? hr,
    resultAt_of_getElem? hr', heq]

theorem Family.agreed_of_firstDifferAt : agreed hash j m m' = true := by
  obtain ⟨_, _, hr, -, -⟩ := hj.here
  rw [h.agreed_eq hm hm' (List.getElem?_eq_some_iff.mp hr).1, agreeBefore, List.all_eq_true]
  intro i hi
  obtain ⟨s, s', hs, hs', heq⟩ := hj.before i (List.mem_range.mp hi)
  rw [resultAt_of_getElem? hs, resultAt_of_getElem? hs', heq]

variable (hash) in
/-- In front of the prefix at which they part, both clients are in one class. -/
theorem Family.exists_class_of_firstDifferAt :
    ms.filter (agreed hash j m) ∈ classes hash ms j ∧ m ∈ ms.filter (agreed hash j m) ∧
      m' ∈ ms.filter (agreed hash j m) := by
  have hlawful := h.lawful hash
  have hagree : agreed hash j m m' = true := h.agreed_of_firstDifferAt hm hm' hj
  refine ⟨hlawful.filter_mem_blocks hm hm' hj.ne hagree, ?_, ?_⟩
  · exact List.mem_filter.mpr ⟨hm, hlawful.agree_refl_left hm hagree⟩
  · exact List.mem_filter.mpr ⟨hm', hagree⟩

end FirstDiffer

/-! ## Where a split is recorded

The raw results of a class in which two clients part are several clusters, so the filtered ones
decide. -/

/-- When two clients of a class differ and neither has a `SIGILL`, it depends on the filtered
results whether the split is recorded. -/
theorem Family.recordsSplitAt_iff (h : Family c seqLen ms) {B : List (MultiResult κ)} (hB : B ⊆ ms)
    {n : Nat} {m m' : MultiResult κ} (hm : m ∈ B) (hm' : m' ∈ B)
    (hill : (m.resultAt n).signum ≠ SIGILL) (hill' : (m'.resultAt n).signum ≠ SIGILL)
    (hdiff : sameAt hash n m m' = false) :
    recordsSplitAt hash c.arch n B = true ↔
      FilterSplits c.arch (B.map fun x => LenientResult.ofResult (x.resultAt n)) := by
  have hof := h.ofConfig_of_mem_map hB n
  have hofFiltered : ∀ r ∈ B.map fun x => LenientResult.ofResult (x.resultAt n),
      r.OfConfig c := by
    intro r hr
    obtain ⟨x, hx, rfl⟩ := List.mem_map.mp hr
    exact LenientResult.ofConfig_ofResult ((h.fromRunner x (hB hx)).resultAt_ofConfig n)
  -- the two results differ, and `SIGILL` is not what they are left out for
  have hraw : 1 < (clusterRemoveUnusable id (clusterResults hash (B.map (resultAt n)))).length := by
    have hmem : ∀ x ∈ B, (x.resultAt n).signum ≠ SIGILL →
        x.resultAt n ∈ (B.map (resultAt n)).filter fun r => (id r).signum != SIGILL :=
      fun x hx hne => List.mem_filter.mpr ⟨List.mem_map_of_mem hx, by simpa using hne⟩
    have hsub : ((B.map (resultAt n)).filter fun r => (id r).signum != SIGILL) ⊆
        B.map (resultAt n) := List.filter_subset_self _
    apply (one_lt_usable_iff _ fun x _ y _ => sigill_of_sameKey).mpr
    left
    apply (one_lt_length_groups_iff_exists ((Result.sameKey_toleranceOn hof hash).mono hsub)
      ((Result.sameKey_transOn hof hash).mono hsub)).mpr
    exact ⟨_, hmem m hm hill, _, hmem m' hm' hill', hdiff⟩
  have hsigill : ∀ x ∈ B.map fun x => LenientResult.ofResult (x.resultAt n),
      ∀ y ∈ B.map fun x => LenientResult.ofResult (x.resultAt n),
        LenientResult.filteredEq c.arch x y = true →
          (x.toResult.signum = SIGILL ↔ y.toResult.signum = SIGILL) := fun x hx y hy =>
    LenientResult.sigill_of_filteredEq c.arch (hofFiltered x hx) (hofFiltered y hy)
  have hfiltered := one_lt_usable_iff _ hsigill
  -- to be several clusters is to have two results that differ, for filtered results as well
  have hgroups : ∀ p : LenientResult κ → Bool,
      1 < (groups (LenientResult.filteredEq c.arch)
        ((B.map fun x => LenientResult.ofResult (x.resultAt n)).filter p)).length ↔ _ := fun p =>
    one_lt_length_groups_iff fun x _ => LenientResult.filteredEq_refl c.arch x
  rw [recordsSplitAt, recordsSplit, decide_eq_true hraw, Bool.true_and, decide_eq_true_eq,
    clusterFilteredResults, hfiltered, hgroups, hgroups, FilterSplits, Bool.exists_bool]
  simp only [beq_true, beq_false, bne]

end MultiResult

open MultiResult

/-- Two clients whose filtered results differ at prefix `k`, with no `SIGILL`, are separated there
or earlier exactly when the filters leave a difference in their class where their results part. -/
theorem findMinimalDiffTree_separates_iff [DecidableEq κ] (c : Config) (hash : HashKey → Int)
    (seqLen : Nat) (ms : List (MultiResult κ)) (h : Family c seqLen ms) (m m' : MultiResult κ)
    (hm : m ∈ ms) (hm' : m' ∈ ms) (k : Nat) (r r' : Result κ) (hr : m.results[k]? = some r)
    (hr' : m'.results[k]? = some r') (hill : r.signum ≠ SIGILL) (hill' : r'.signum ≠ SIGILL)
    (hne : (LenientResult.ofResult r).filteredEq c.arch (LenientResult.ofResult r') = false) :
    (∃ splits, findMinimalDiffTree hash c.arch seqLen (getResultsForSeqLen ms seqLen)
        (ms.map client) = some splits ∧
      ∃ split ∈ splits, split.seqLen ≤ k + 1 ∧ split.Separates m.client m'.client) ↔
    ∀ j, FirstDifferAt j m m' → FilterSplits c.arch (peerResults ms j m) := by
  have hlt : k < m.results.length := (List.getElem?_eq_some_iff.mp hr).1
  have hlt' : k < m'.results.length := (List.getElem?_eq_some_iff.mp hr').1
  obtain rfl := resultAt_of_getElem? hr
  obtain rfl := resultAt_of_getElem? hr'
  have hdiff : (m.resultAt k).eq (m'.resultAt k) = false := by
    by_contra heq
    rw [filteredEq_of_eq c.arch (by simpa using heq)] at hne
    cases hne
  obtain ⟨j, hjk, hj⟩ := exists_firstDifferAt hlt hlt' hdiff
  have hjlt : j < m.results.length := by omega
  have hrunner := h.fromRunner m hm
  have hrunner' := h.fromRunner m' hm'
  -- where they part, neither has a `SIGILL`
  have hnoill : (m.resultAt j).signum ≠ SIGILL ∧ (m'.resultAt j).signum ≠ SIGILL := by
    rcases Nat.lt_or_eq_of_le hjk with hlt₁ | rfl
    · rw [hrunner.signum_of_lt hlt hlt₁, hrunner'.signum_of_lt hlt' hlt₁]
      decide
    · exact ⟨hill, hill'⟩
  -- their class, and its filtered results
  have hapart : sameAt hash j m m' = false := h.not_sameAt_of_firstDifferAt hm hm' hj
  obtain ⟨hclass, hmB, hmB'⟩ := h.exists_class_of_firstDifferAt hash hm hm' hj
  have hpeers : ms.filter (agreed hash j m) = ms.filter (agreeBefore j m) :=
    List.filter_congr fun x hx => h.agreed_eq hm hx hjlt
  have hrecords :=
    h.recordsSplitAt_iff (List.filter_subset_self _) hmB hmB' hnoill.1 hnoill.2 hapart
  have hsplits : (∀ i, FirstDifferAt i m m' → FilterSplits c.arch (peerResults ms i m)) ↔
      recordsSplitAt hash c.arch j (ms.filter (agreed hash j m)) = true := by
    rw [hrecords, hpeers]
    exact ⟨fun hall => hall j hj, fun hone i hi => hi.unique hj ▸ hone⟩
  rw [hsplits, findMinimalDiffTree_eq hash c.arch h]
  constructor
  · -- a split that separates the two was recorded where they part
    rintro ⟨splits, hsome, split, hsplit, -, hsep⟩
    obtain rfl := Option.some.inj hsome
    obtain ⟨n, hn, B, hB, hrec, rfl⟩ := mem_splitsUntil hsplit
    obtain ⟨hx, hx', hxdiff⟩ := (separates_client_iff h hB _ hm hm').mp hsep
    obtain rfl := (h.firstDifferAt hn hB hx hx' hxdiff).unique hj
    rw [((h.lawful hash).eq_filter_of_mem_blocks hB hx).2] at hrec
    exact hrec
  · intro hrec
    have hsplit := (splitAt_eq_some_iff hash c.arch).mpr ⟨hrec, rfl⟩
    have hjseq : j < seqLen := hjlt.trans_le hrunner.length_le
    refine ⟨_, rfl, _, List.mem_flatMap.mpr ⟨j, List.mem_range.mpr hjseq,
      List.mem_filterMap.mpr ⟨_, hclass, hsplit⟩⟩, Nat.succ_le_succ hjk, ?_⟩
    exact (separates_client_iff h hclass _ hm hm').mpr ⟨hmB, hmB', hapart⟩

theorem findMinimalDiffTree_separates_iff_differTwice :
    (∃ splits, findMinimalDiffTree (fun key => key.1) .aarch64 2
        (getResultsForSeqLen differTwice 2) (differTwice.map client) = some splits ∧
      ∃ split ∈ splits, split.seqLen ≤ 1 + 1 ∧ split.Separates "a" "b") ↔
    ∀ j, FirstDifferAt j (twoPrefixes "a" 1 1) (twoPrefixes "b" 2 2) →
      FilterSplits .aarch64 (peerResults differTwice j (twoPrefixes "a" 1 1)) :=
  findMinimalDiffTree_separates_iff (plainBuild .aarch64) (fun key => key.1) 2 differTwice
    (differTwice_family .aarch64) (twoPrefixes "a" 1 1) (twoPrefixes "b" 2 2)
    (by simp [differTwice]) (by simp [differTwice]) 1 (sampleResult 0 "x0" 1 "a")
    (sampleResult 0 "x0" 2 "b") rfl rfl (by decide) (by decide) (by decide +kernel)

/-- On aarch64 the first prefix differs in `pstate` alone, which the filter ignores; the second one
differs in `x0`, and no split is recorded. -/
theorem differTwice_not_separated :
    Family (plainBuild .aarch64) 2 differTwice ∧
      (twoPrefixes "a" 1 1).results[1]? = some (sampleResult 0 "x0" 1 "a") ∧
      (twoPrefixes "b" 2 2).results[1]? = some (sampleResult 0 "x0" 2 "b") ∧
      (LenientResult.ofResult (sampleResult 0 "x0" 1 "a")).filteredEq .aarch64
        (LenientResult.ofResult (sampleResult 0 "x0" 2 "b")) = false ∧
      ¬ ∃ splits, findMinimalDiffTree (fun key => key.1) .aarch64 2
          (getResultsForSeqLen differTwice 2) (differTwice.map client) = some splits ∧
        ∃ split ∈ splits, split.seqLen ≤ 2 ∧ split.Separates "a" "b" := by
  have hnone : (findMinimalDiffTree (fun key => key.1) .aarch64 2
      (getResultsForSeqLen differTwice 2) (differTwice.map client)).map List.length = some 0 := by
    decide +kernel
  refine ⟨differTwice_family .aarch64, rfl, rfl, by decide +kernel, ?_⟩
  rintro ⟨splits, hsplits, split, hmem, -⟩
  rw [hsplits, Option.map_some, Option.some.injEq] at hnone
  rw [List.length_eq_zero_iff.mp hnone] at hmem
  cases hmem

end RISCover
