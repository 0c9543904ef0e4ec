import RISCover.Lib.Cluster
import RISCover.Result.Filter

/-!
# Clustering the clients

`cluster_clients_by_results` makes a dictionary with the results as keys. The results themselves are
hashed by their contents; the filtered results all hash to 0, so that a result is filed under the
first one that compares equal. Whether the outcome depends on the order in which the results come is
a question about the comparison.
-/

namespace RISCover

variable {κ ρ : Type} {c : Config}

/-! ## Clusters

The dictionary is a list of groups: a result joins the first group whose key is the same as it. -/

/-- `result_to_clients`: the results with the tuples of client and real client. -/
abbrev Clusters (ρ κ : Type) := List (ρ × List (κ × κ))

/-- `clients_from_client_tuples`. -/
def clientsFromClientTuples (clientTuples : List (κ × κ)) : List κ := clientTuples.map Prod.fst

/-- `cluster_clients_by_results`: `same` is how the dictionary compares its keys. -/
def clusterClientsByResults (same : ρ → ρ → Bool) (toResult : ρ → Result κ) (results : List ρ) :
    Clusters ρ κ :=
  Cluster.cluster same (fun r => ((toResult r).client, (toResult r).realClient)) results

/-- `cluster_remove_unusable`: a single cluster with `SIGILL` is removed. The keys of a dictionary
stay apart, so the new one has the other items as they are. -/
def clusterRemoveUnusable (toResult : ρ → Result κ) (resultToClients : Clusters ρ κ) :
    Clusters ρ κ :=
  let sigill := resultToClients.countP fun p => (toResult p.1).signum == SIGILL
  resultToClients.filter fun p => !(sigill == 1 && (toResult p.1).signum == SIGILL)

/-- What `Result.__hash__` passes to `hash`. -/
abbrev HashKey := Nat × Nat × Nat × Nat × Finset (String × Nat) × List MemDiff

def Result.hashKey (r : Result κ) : HashKey :=
  (r.signum, r.siAddr, r.siPc, r.siCode, r.regs.itemSet, r.memDiffs.getD [])

/-- A dictionary compares results with one hash; `hash` is Python's. -/
def Result.sameKey (hash : HashKey → Int) (key r : Result κ) : Bool :=
  hash key.hashKey == hash r.hashKey && key.eq r

def clusterResults (hash : HashKey → Int) (results : List (Result κ)) : Clusters (Result κ) κ :=
  clusterClientsByResults (Result.sameKey hash) id results

def clusterFilteredResults (arch : Arch) (results : List (LenientResult κ)) :
    Clusters (LenientResult κ) κ :=
  clusterClientsByResults (LenientResult.filteredEq arch) LenientResult.toResult results

/-- A class of clients is split when its results form several usable clusters, filtered and as they
are. -/
def recordsSplit (hash : HashKey → Int) (arch : Arch) (results : List (Result κ))
    (filteredResults : List (LenientResult κ)) : Bool :=
  decide (1 < (clusterRemoveUnusable id (clusterResults hash results)).length) &&
    decide (1 < (clusterRemoveUnusable LenientResult.toResult
      (clusterFilteredResults arch filteredResults)).length)

/-! ## Clusters that are left

A single cluster with `SIGILL` is taken out. Whether two are left can be told from those with
`SIGILL` and those without, each for itself. -/

/-- There are several usable clusters when there are several with `SIGILL` or several without. -/
theorem one_lt_usable_iff {same : ρ → ρ → Bool} {toResult : ρ → Result κ} (l : List ρ)
    (hsigill : ∀ x ∈ l, ∀ y ∈ l, same x y = true →
      ((toResult x).signum = SIGILL ↔ (toResult y).signum = SIGILL)) :
    1 < (clusterRemoveUnusable toResult (clusterClientsByResults same toResult l)).length ↔
      1 < (Cluster.groups same (l.filter fun x => (toResult x).signum != SIGILL)).length ∨
        1 < (Cluster.groups same (l.filter fun x => (toResult x).signum == SIGILL)).length := by
  have hill := Cluster.filter_groups (r := same) (fun x => (toResult x).signum == SIGILL) l
    (fun x hx y hy h => by
      rw [Bool.eq_iff_iff, beq_iff_eq, beq_iff_eq]
      exact hsigill x hx y hy h)
  have hnot := Cluster.filter_groups (r := same) (fun x => (toResult x).signum != SIGILL) l
    (fun x hx y hy h => by
      rw [Bool.eq_iff_iff, bne_iff_ne, bne_iff_ne]
      exact not_congr (hsigill x hx y hy h))
  -- the groups with `SIGILL` and those without are all groups
  have hsplit := List.length_eq_length_filter_add
    (l := Cluster.groups same l) fun g => (toResult g.1).signum == SIGILL
  have hlenill := congrArg List.length hill
  have hlennot := congrArg List.length hnot
  rw [clusterRemoveUnusable, clusterClientsByResults, Cluster.cluster_eq_map, List.countP_map,
    List.countP_eq_length_filter, List.filter_map, List.length_map]
  simp only [Function.comp_def]
  rw [hlenill]
  by_cases hone : (Cluster.groups same (l.filter fun x => (toResult x).signum == SIGILL)).length = 1
  · -- the single cluster with `SIGILL` goes, the others are left
    simp only [hone, beq_self_eq_true, Bool.true_and, bne] at hlennot ⊢
    rw [hlennot]
    omega
  · -- none goes; several with `SIGILL`, or none
    have hdrop : ((Cluster.groups same (l.filter fun x => (toResult x).signum == SIGILL)).length
        == 1) = false := by simpa using hone
    simp only [hdrop, Bool.false_and, Bool.not_false, List.filter_true, bne] at hlennot ⊢
    rw [hsplit, hlenill, hlennot]
    omega

/-! ## Results as keys

The hash is that of the contents and `==` compares the contents, so this is an equivalence. -/

namespace Result

theorem eq_symm {x y : Result κ} (hx : x.OfConfig c) (hy : y.OfConfig c) (h : x.eq y = true) :
    y.eq x = true := by
  have hsome := hx.memDiffs_isSome.trans hy.memDiffs_isSome.symm
  obtain ⟨hsignum, haddr, hpc, hcode, hmem, hregs⟩ := eq_iff.mp h
  exact eq_iff.mpr ⟨hsignum.symm, haddr.symm, hpc.symm, hcode.symm,
    fun hm => (hmem (hsome ▸ hm)).symm, (Dict.beq_comm _ _).trans hregs⟩

theorem eq_trans {x y z : Result κ} (hx : x.OfConfig c) (hy : y.OfConfig c) (hxy : x.eq y = true)
    (hyz : y.eq z = true) : x.eq z = true := by
  have hsome := hx.memDiffs_isSome.trans hy.memDiffs_isSome.symm
  obtain ⟨hsignum, haddr, hpc, hcode, hmem, hregs⟩ := eq_iff.mp hxy
  obtain ⟨hsignum', haddr', hpc', hcode', hmem', hregs'⟩ := eq_iff.mp hyz
  exact eq_iff.mpr ⟨hsignum.trans hsignum', haddr.trans haddr', hpc.trans hpc', hcode.trans hcode',
    fun hm => (hmem hm).trans (hmem' (hsome ▸ hm)), Dict.beq_trans hregs hregs'⟩

/-- Equal results have one hash. -/
theorem hashKey_eq {x y : Result κ} (hx : x.OfConfig c) (hy : y.OfConfig c) (h : x.eq y = true) :
    x.hashKey = y.hashKey := by
  have hsome := hx.memDiffs_isSome.trans hy.memDiffs_isSome.symm
  obtain ⟨hsignum, haddr, hpc, hcode, hmem, hregs⟩ := eq_iff.mp h
  rw [hashKey, hashKey, hsignum, haddr, hpc, hcode, Dict.beq_iff_itemSet.mp hregs,
    option_eq_of_isSome hsome hmem]

theorem sameKey_eq (hash : HashKey → Int) {x y : Result κ} (hx : x.OfConfig c)
    (hy : y.OfConfig c) : sameKey hash x y = x.eq y := by
  rw [sameKey]
  cases h : x.eq y with
  | true => simp [hashKey_eq hx hy h]
  | false => simp

variable {results : List (Result κ)} (h : ∀ r ∈ results, r.OfConfig c)

include h

theorem sameKey_toleranceOn (hash : HashKey → Int) :
    Cluster.ToleranceOn (sameKey hash) results where
  refl x hx := by rw [sameKey_eq hash (h x hx) (h x hx), eq_refl]
  symm x hx y hy hs := by
    rw [sameKey_eq hash (h x hx) (h y hy)] at hs
    rw [sameKey_eq hash (h y hy) (h x hx)]
    exact eq_symm (h x hx) (h y hy) hs

theorem sameKey_transOn (hash : HashKey → Int) : Cluster.TransOn (sameKey hash) results := by
  intro x hx y hy z hz hxy hyz
  rw [sameKey_eq hash (h x hx) (h y hy)] at hxy
  rw [sameKey_eq hash (h y hy) (h z hz)] at hyz
  rw [sameKey_eq hash (h x hx) (h z hz)]
  exact eq_trans (h x hx) (h y hy) hxy hyz

end Result

theorem sigill_of_sameKey {hash : HashKey → Int} {x y : Result κ}
    (h : Result.sameKey hash x y = true) : x.signum = SIGILL ↔ y.signum = SIGILL := by
  rw [Result.sameKey, Bool.and_eq_true] at h
  rw [(Result.eq_iff.mp h.2).1]

/-! ## Filtered results as keys

`filteredEq` is reflexive and symmetric, but on aarch64 it is transitive only when the results are
`Unambiguous`. -/

namespace LenientResult

/-- No two filters meet in one family of results (aarch64). -/
structure Unambiguous (l : List (LenientResult κ)) : Prop where
  /-- Next to a `SIGBUS`, results without a signal do not really differ. -/
  ok : ∀ b ∈ l, ∀ o ∈ l, ∀ o' ∈ l, b.origSignum = SIGBUS → o.origSignum = 0 →
    o'.origSignum = 0 → o.diff o'.toResult ⊆ signalKeys
  /-- Next to a result without a signal, results with `SIGBUS` do not really differ. -/
  bus : ∀ o ∈ l, ∀ b ∈ l, ∀ b' ∈ l, o.origSignum = 0 → b.origSignum = SIGBUS →
    b'.origSignum = SIGBUS → b.diff b'.toResult ⊆ signalKeys ∨ OnlyAtPages b b'
  /-- Next to a result without a signal, `SIGBUS` and `SIGSEGV` do differ. -/
  segv : ∀ o ∈ l, ∀ b ∈ l, ∀ s ∈ l, o.origSignum = 0 → b.origSignum = SIGBUS →
    s.origSignum = SIGSEGV → ¬ (b.diff s.toResult ⊆ signalKeys ∨ OnlyAtPages b s)
  /-- A result that differs from another only at page boundaries does not differ from a third only
  in its signal information. -/
  pages : ∀ x ∈ l, ∀ y ∈ l, ∀ z ∈ l, OnlyAtPages x y → y.diff z.toResult ⊆ signalKeys →
    y.diff z.toResult = ∅

variable {l : List (LenientResult κ)} (h : ∀ x ∈ l, x.OfConfig c)

include h

theorem filteredEq_toleranceOn (arch : Arch) : Cluster.ToleranceOn (filteredEq arch) l where
  refl x _ := filteredEq_refl arch x
  symm x hx y hy := filteredEq_symm arch (h x hx) (h y hy)

theorem filteredEq_riscv64_transOn : Cluster.TransOn (filteredEq .riscv64) l := by
  intro x hx y hy z hz hxy hyz
  rw [filteredEq_riscv64_iff (h x hx) (h y hy)] at hxy
  rw [filteredEq_riscv64_iff (h y hy) (h z hz)] at hyz
  rw [filteredEq_riscv64_iff (h x hx) (h z hz)]
  exact Result.diff_trans (signum_eq_of_diff_subset hxy) hxy hyz

theorem Unambiguous.of_transOn (htrans : Cluster.TransOn (filteredEq .aarch64) l) :
    Unambiguous l := by
  -- with equal signals the exception for `SIGBUS` next to no signal is out
  have hchain : ∀ x ∈ l, ∀ y ∈ l, ∀ z ∈ l,
      (BusNextToOk x y ∨ x.diff y.toResult ⊆ signalKeys ∨ OnlyAtPages x y) →
      (BusNextToOk y z ∨ y.diff z.toResult ⊆ signalKeys ∨ OnlyAtPages y z) → x.signum = z.signum →
      x.diff z.toResult ⊆ signalKeys ∨ OnlyAtPages x z := by
    intro x hx y hy z hz hxy hyz hsignum
    have hxz := htrans x hx y hy z hz ((filteredEq_aarch64_iff (h x hx) (h y hy)).mpr hxy)
      ((filteredEq_aarch64_iff (h y hy) (h z hz)).mpr hyz)
    rw [filteredEq_aarch64_iff (h x hx) (h z hz)] at hxz
    exact hxz.resolve_left (not_busNextToOk (h x hx) (h z hz) hsignum)
  constructor
  case ok =>
    -- two results without a signal, each filtered against the `SIGBUS` between them
    intro b hb o ho o' ho' hbus hok hok'
    have hsignum := (h o ho).signum_of_ok hok
    have hsame := hsignum.trans ((h o' ho').signum_of_ok hok').symm
    refine (hchain o ho b hb o' ho' (Or.inl (Or.inr ⟨hbus, hok⟩)) (Or.inl (Or.inl ⟨hbus, hok'⟩))
      hsame).resolve_right fun hpages => ?_
    rw [hpages.1] at hsignum
    cases hsignum
  case bus =>
    intro o ho b hb b' hb' hok hbus hbus'
    have hsame := ((h b hb).signum_of_sigbus hbus).trans ((h b' hb').signum_of_sigbus hbus').symm
    exact hchain b hb o ho b' hb' (Or.inl (Or.inl ⟨hbus, hok⟩)) (Or.inl (Or.inr ⟨hbus', hok⟩)) hsame
  case segv =>
    -- no signal and `SIGSEGV` would have to be filtered against each other, and never are
    intro o ho b hb s hs hok hbus hsegv hbs
    have hos := htrans o ho b hb s hs
      ((filteredEq_aarch64_iff (h o ho) (h b hb)).mpr (Or.inl (Or.inr ⟨hbus, hok⟩)))
      ((filteredEq_aarch64_iff (h b hb) (h s hs)).mpr (Or.inr hbs))
    have hoSignum := (h o ho).signum_of_ok hok
    have hsSignum : s.signum = SIGSEGV := by
      rw [(h s hs).signum, hsegv]
      rfl
    rw [filteredEq_aarch64_iff (h o ho) (h s hs)] at hos
    rcases hos with (⟨hbus', -⟩ | ⟨hbus', -⟩) | hkeys | hpages
    · rw [hok] at hbus'
      cases hbus'
    · rw [hsegv] at hbus'
      cases hbus'
    · have hsame := signum_eq_of_diff_subset hkeys
      rw [hoSignum, hsSignum] at hsame
      cases hsame
    · rw [hpages.1] at hoSignum
      cases hoSignum
  case pages =>
    intro x hx y hy z hz hpages hkeys
    have hsame : x.signum = z.signum :=
      hpages.1.trans (hpages.2.1.symm.trans (signum_eq_of_diff_subset hkeys))
    exact hpages.diff_eq_empty_of_trans hkeys
      (hchain x hx y hy z hz (Or.inr (Or.inr hpages)) (Or.inr (Or.inl hkeys)) hsame)

theorem Unambiguous.transOn (hun : Unambiguous l) :
    Cluster.TransOn (filteredEq .aarch64) l := by
  -- a `SIGBUS` that is next to a result without a signal reaches only other `SIGBUS`
  have hbusStep : ∀ x ∈ l, ∀ y ∈ l, ∀ z ∈ l, BusNextToOk x y →
      (y.diff z.toResult ⊆ signalKeys ∨ OnlyAtPages y z) → BusNextToOk x z := by
    rintro x hx y hy z hz (⟨hbus, hok⟩ | ⟨hbus, hok⟩) hyz
    · have hySignum := (h y hy).signum_of_ok hok
      rcases hyz with hkeys | hpages
      · have hzSignum := (signum_eq_of_diff_subset hkeys).symm.trans hySignum
        rw [(h z hz).signum, newSignum_eq_zero] at hzSignum
        exact Or.inl ⟨hbus, hzSignum⟩
      · rw [hpages.1] at hySignum
        cases hySignum
    · have hzSignum : z.signum = SIGSEGV := by
        rcases hyz with hkeys | hpages
        · rw [← signum_eq_of_diff_subset hkeys, (h y hy).signum_of_sigbus hbus]
        · exact hpages.2.1
      rcases (h z hz).origSignum_of_sigsegv hzSignum with hzbus | hzsegv
      · exact Or.inr ⟨hzbus, hok⟩
      · exact absurd hyz (hun.segv x hx y hy z hz hok hbus hzsegv)
  intro x hx y hy z hz hxy hyz
  rw [filteredEq_aarch64_iff (h x hx) (h y hy)] at hxy
  rw [filteredEq_aarch64_iff (h y hy) (h z hz)] at hyz
  rw [filteredEq_aarch64_iff (h x hx) (h z hz)]
  rcases hxy with hxy | hxy
  · rcases hyz with hyz | hyz
    · -- over a result without a signal, or over a `SIGBUS`
      rcases hxy with ⟨hbus, hok⟩ | ⟨hbus, hok⟩
      · rcases hyz with ⟨hbus', -⟩ | ⟨hbus', -⟩
        · rw [hok] at hbus'
          cases hbus'
        · exact Or.inr (hun.bus y hy x hx z hz hok hbus hbus')
      · rcases hyz with ⟨-, hok'⟩ | ⟨-, hok'⟩
        · exact Or.inr (Or.inl (hun.ok y hy x hx z hz hbus hok hok'))
        · rw [hbus] at hok'
          cases hok'
    · exact Or.inl (hbusStep x hx y hy z hz hxy hyz)
  · rcases hyz with hyz | hyz
    · have hback : y.diff x.toResult ⊆ signalKeys ∨ OnlyAtPages y x := by
        rw [Result.diff_comm]
        exact hxy.imp_right fun hpages => hpages.symm (h x hx) (h y hy)
      exact Or.inl (hbusStep z hz y hy x hx hyz.symm hback).symm
    · rcases hxy with hxy | hxy
      · rcases hyz with hyz | hyz
        · exact Or.inr (Or.inl (Result.diff_trans (signum_eq_of_diff_subset hxy) hxy hyz))
        · have hback := hyz.symm (h y hy) (h z hz)
          have hnone := hun.pages z hz y hy x hx hback (by rwa [Result.diff_comm])
          exact Or.inr (Or.inr ((hback.congr_right hnone).symm (h z hz) (h x hx)))
      · rcases hyz with hyz | hyz
        · have hnone := hun.pages x hx y hy z hz hxy hyz
          exact Or.inr (Or.inr (hxy.congr_right hnone))
        · exact Or.inr (hxy.trans hyz)

/-- The tolerant comparison is transitive exactly when no two filters meet. -/
theorem filteredEq_transOn_iff (arch : Arch) :
    Cluster.TransOn (filteredEq arch) l ↔ (arch = .aarch64 → Unambiguous l) := by
  cases arch with
  | riscv64 => exact ⟨fun _ harch => (by cases harch), fun _ => filteredEq_riscv64_transOn h⟩
  | aarch64 =>
      exact ⟨fun htrans _ => Unambiguous.of_transOn h htrans, fun hun => (hun rfl).transOn h⟩

end LenientResult

/-! ## Order independence

With an equivalence the clusters are its classes in any order. Without one there are three results
of which the middle one decides, if it comes first, that all are in one cluster. -/

/-- Two clients are in one class. -/
def InOneClass (clusters : Clusters ρ κ) (a b : κ) : Prop :=
  ∃ p ∈ clusters, a ∈ clientsFromClientTuples p.2 ∧ b ∈ clientsFromClientTuples p.2

/-- However the results of the clients are enumerated, the filtered results give the same classes,
and a split is recorded or not. -/
def OrderIndependent (hash : HashKey → Int) (arch : Arch) (results : List (Result κ)) : Prop :=
  ∀ results' : List (Result κ), results'.Perm results →
    (∀ a b,
      InOneClass (clusterFilteredResults arch (results'.map LenientResult.ofResult)) a b ↔
        InOneClass (clusterFilteredResults arch (results.map LenientResult.ofResult)) a b) ∧
    recordsSplit hash arch results' (results'.map LenientResult.ofResult) =
      recordsSplit hash arch results (results.map LenientResult.ofResult)

/-- Clients are in one class when their results are in one group. -/
theorem inOneClass_iff {same : ρ → ρ → Bool} {toResult : ρ → Result κ} {l : List ρ} {a b : κ} :
    InOneClass (clusterClientsByResults same toResult l) a b ↔
      ∃ x y, (toResult x).client = a ∧ (toResult y).client = b ∧
        Cluster.Together (Cluster.groups same l) x y := by
  rw [InOneClass, clusterClientsByResults, Cluster.cluster_eq_map]
  simp only [clientsFromClientTuples, List.mem_map, exists_exists_and_eq_and]
  constructor
  · rintro ⟨g, hg, ⟨x, hx, rfl⟩, ⟨y, hy, rfl⟩⟩
    exact ⟨x, y, rfl, rfl, g, hg, hx, hy⟩
  · rintro ⟨x, y, rfl, rfl, g, hg, hx, hy⟩
    exact ⟨g, hg, ⟨x, hx, rfl⟩, ⟨y, hy, rfl⟩⟩

/-- For results of distinct clients, the classes are the groups. -/
theorem inOneClass_client_iff {same : ρ → ρ → Bool} {toResult : ρ → Result κ} {l : List ρ}
    (hinj : ∀ x ∈ l, ∀ y ∈ l, (toResult x).client = (toResult y).client → x = y) {x y : ρ}
    (hx : x ∈ l) (hy : y ∈ l) :
    InOneClass (clusterClientsByResults same toResult l) (toResult x).client (toResult y).client ↔
      Cluster.Together (Cluster.groups same l) x y := by
  rw [inOneClass_iff]
  constructor
  · rintro ⟨x', y', hxx, hyy, g, hg, hx', hy'⟩
    rw [← hinj x' (Cluster.mem_of_mem_groups hg hx') x hx hxx,
      ← hinj y' (Cluster.mem_of_mem_groups hg hy') y hy hyy]
    exact ⟨g, hg, hx', hy'⟩
  · intro htog
    exact ⟨x, y, rfl, rfl, htog⟩

/-- By an equivalence, whether there are several usable clusters does not depend on the order. -/
theorem one_lt_usable_perm {same : ρ → ρ → Bool} {toResult : ρ → Result κ} {l l' : List ρ}
    (hperm : l'.Perm l) (htol : Cluster.ToleranceOn same l) (htrans : Cluster.TransOn same l)
    (hsigill : ∀ x ∈ l, ∀ y ∈ l, same x y = true →
      ((toResult x).signum = SIGILL ↔ (toResult y).signum = SIGILL)) :
    1 < (clusterRemoveUnusable toResult (clusterClientsByResults same toResult l')).length ↔
      1 < (clusterRemoveUnusable toResult (clusterClientsByResults same toResult l)).length := by
  have hcount : ∀ p : ρ → Bool, 1 < (Cluster.groups same (l'.filter p)).length ↔
      1 < (Cluster.groups same (l.filter p)).length := by
    intro p
    have hsub : l.filter p ⊆ l := List.filter_subset_self l
    have hsub' : l'.filter p ⊆ l := fun x hx => hperm.subset (List.mem_of_mem_filter hx)
    rw [Cluster.one_lt_length_groups_iff_exists (htol.mono hsub') (htrans.mono hsub'),
      Cluster.one_lt_length_groups_iff_exists (htol.mono hsub) (htrans.mono hsub)]
    simp only [(hperm.filter p).mem_iff]
  rw [one_lt_usable_iff l hsigill, one_lt_usable_iff l' fun x hx y hy =>
    hsigill x (hperm.subset hx) y (hperm.subset hy), hcount, hcount]

/-- The order of the clients does not matter on riscv64, and on aarch64 exactly when no two filters
meet. -/
theorem orderIndependent_iff (c : Config) (hash : HashKey → Int) (results : List (Result κ))
    (h : ∀ r ∈ results, r.OfConfig c) (hclients : (results.map Result.client).Nodup) :
    OrderIndependent hash c.arch results ↔
      (c.arch = .aarch64 → LenientResult.Unambiguous (results.map LenientResult.ofResult)) := by
  have hl : ∀ x ∈ results.map LenientResult.ofResult, x.OfConfig c := by
    intro x hx
    obtain ⟨r, hr, rfl⟩ := List.mem_map.mp hx
    exact LenientResult.ofConfig_ofResult (h r hr)
  have hinj : ∀ x ∈ results.map LenientResult.ofResult, ∀ y ∈ results.map LenientResult.ofResult,
      x.client = y.client → x = y := by
    intro x hx y hy hxy
    obtain ⟨r, hr, rfl⟩ := List.mem_map.mp hx
    obtain ⟨s, hs, rfl⟩ := List.mem_map.mp hy
    rw [LenientResult.client_ofResult, LenientResult.client_ofResult] at hxy
    rw [List.inj_on_of_nodup_map hclients hr hs hxy]
  have htol := LenientResult.filteredEq_toleranceOn hl c.arch
  rw [← LenientResult.filteredEq_transOn_iff hl c.arch]
  constructor
  · intro hindep
    rw [← Cluster.together_perm_iff_transOn htol]
    intro l' hperm x hx y hy
    -- every order of the filtered results comes from an order of the results
    obtain ⟨results', rfl, hperm'⟩ : ∃ results' : List (Result κ),
        l' = results'.map LenientResult.ofResult ∧ results'.Perm results :=
      (congrFun₂ (List.eq_map_comp_perm LenientResult.ofResult) l' results).mpr hperm
    have hclass := (hindep results' hperm').1 x.client y.client
    have hsub := hperm.subset
    rwa [clusterFilteredResults, clusterFilteredResults, inOneClass_client_iff hinj hx hy,
      inOneClass_client_iff (fun x hx y hy => hinj x (hsub hx) y (hsub hy)) (hperm.mem_iff.mpr hx)
        (hperm.mem_iff.mpr hy)] at hclass
  · intro htrans results' hperm
    have hpermL := hperm.map LenientResult.ofResult
    have htog := (Cluster.together_perm_iff_transOn htol).mpr htrans _ hpermL
    constructor
    · intro a b
      rw [clusterFilteredResults, clusterFilteredResults, inOneClass_iff, inOneClass_iff]
      constructor
      · rintro ⟨x, y, hx, hy, g, hg, hxg, hyg⟩
        exact ⟨x, y, hx, hy, (htog x (hpermL.subset (Cluster.mem_of_mem_groups hg hxg)) y
          (hpermL.subset (Cluster.mem_of_mem_groups hg hyg))).mp ⟨g, hg, hxg, hyg⟩⟩
      · rintro ⟨x, y, hx, hy, g, hg, hxg, hyg⟩
        exact ⟨x, y, hx, hy, (htog x (Cluster.mem_of_mem_groups hg hxg) y
          (Cluster.mem_of_mem_groups hg hyg)).mpr ⟨g, hg, hxg, hyg⟩⟩
    · have hraw : 1 < (clusterRemoveUnusable id (clusterResults hash results')).length ↔
          1 < (clusterRemoveUnusable id (clusterResults hash results)).length :=
        one_lt_usable_perm hperm (Result.sameKey_toleranceOn h hash)
          (Result.sameKey_transOn h hash) fun x _ y _ => sigill_of_sameKey
      have hfiltered : 1 < (clusterRemoveUnusable LenientResult.toResult
            (clusterFilteredResults c.arch (results'.map LenientResult.ofResult))).length ↔
          1 < (clusterRemoveUnusable LenientResult.toResult
            (clusterFilteredResults c.arch (results.map LenientResult.ofResult))).length :=
        one_lt_usable_perm hpermL htol htrans fun x hx y hy =>
          LenientResult.sigill_of_filteredEq c.arch (hl x hx) (hl y hy)
      rw [recordsSplit, recordsSplit, decide_eq_decide.mpr hraw, decide_eq_decide.mpr hfiltered]

/-- An execution that ends with one changed register. -/
def sampleResult (signum : Nat) (reg : String) (value : Nat) (client : String) : Result String where
  signum := signum
  cycleDiff := none
  instretDiff := none
  regs := Dict.empty.set reg value
  siAddr := 0
  siPc := 0
  siCode := 0
  client := client
  realClient := client
  memDiffs := none

/-- Builds without any option. -/
def plainBuild (arch : Arch) : Config := ⟨⟨arch, false, false, by cases arch <;> rfl⟩, false, false⟩

theorem sampleResult_ofConfig (arch : Arch) (signum : Nat) (reg : String) (value : Nat)
    (client : String) : (sampleResult signum reg value client).OfConfig (plainBuild arch) :=
  ⟨rfl, fun _ => ⟨rfl, rfl, rfl⟩⟩

/-- A `SIGBUS` and two results without a signal that differ in a register. -/
def busFirst : List (Result String) :=
  [sampleResult SIGBUS "x0" 3 "c", sampleResult 0 "x0" 1 "a", sampleResult 0 "x0" 2 "b"]

theorem busFirst_ofConfig (arch : Arch) : ∀ r ∈ busFirst, r.OfConfig (plainBuild arch) := by
  simp only [busFirst, List.forall_mem_cons, sampleResult_ofConfig, List.not_mem_nil,
    false_implies, implies_true, and_self]

theorem orderIndependent_iff_busFirst :
    OrderIndependent (fun key => key.1) .riscv64 busFirst :=
  (orderIndependent_iff (plainBuild .riscv64) (fun key => key.1) busFirst
    (busFirst_ofConfig .riscv64) (by decide)).mpr fun harch => by cases harch

/-- On aarch64 the client with the `SIGBUS` hides the difference between the two others when it
comes first, and does not when it comes last. -/
theorem busFirst_not_orderIndependent :
    (∀ r ∈ busFirst, r.OfConfig (plainBuild .aarch64)) ∧ (busFirst.map Result.client).Nodup ∧
      ¬ OrderIndependent (fun key => key.1) .aarch64 busFirst := by
  refine ⟨busFirst_ofConfig .aarch64, by decide, fun hindep => ?_⟩
  have hperm : [sampleResult 0 "x0" 1 "a", sampleResult 0 "x0" 2 "b",
      sampleResult SIGBUS "x0" 3 "c"].Perm busFirst :=
    (List.perm_append_comm : ([sampleResult 0 "x0" 1 "a", sampleResult 0 "x0" 2 "b"] ++
      [sampleResult SIGBUS "x0" 3 "c"]).Perm _)
  have hsame := (hindep _ hperm).2
  have hfirst : recordsSplit (fun key => key.1) .aarch64 busFirst
      (busFirst.map LenientResult.ofResult) = false := by decide +kernel
  have hlast : recordsSplit (fun key => key.1) .aarch64
      [sampleResult 0 "x0" 1 "a", sampleResult 0 "x0" 2 "b", sampleResult SIGBUS "x0" 3 "c"]
      ([sampleResult 0 "x0" 1 "a", sampleResult 0 "x0" 2 "b", sampleResult SIGBUS "x0" 3 "c"].map
        LenientResult.ofResult) = true := by decide +kernel
  rw [hfirst, hlast] at hsame
  cases hsame

end RISCover
