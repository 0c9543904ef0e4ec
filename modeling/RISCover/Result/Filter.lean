import Mathlib.Data.Finset.Powerset
import Mathlib.Order.Interval.Finset.Nat
import RISCover.Result.Compare

/-!
# Tolerant comparison of results

The server compares results a second time through filters that hide known false positives
(`LenientResult`, `FilteredResult`, `SimpleDiffFuzzWorker.custom_filters`). A filter decides on two
results, mostly on the set of things in which they differ; this comparison is what the results are
clustered by.
-/

namespace RISCover

variable {κ : Type}

/-! ## Results that are treated leniently

`SIGBUS` is taken for `SIGSEGV`, and of a result with `SIGALRM` nothing but the signal is left. -/

/-- Class `LenientResult`. -/
structure LenientResult (κ : Type) extends Result κ where
  origSignum : Nat

/-- `new_signum`: a `SIGBUS` counts as a `SIGSEGV`. -/
def newSignum (signum : Nat) : Nat := if signum = SIGBUS then SIGSEGV else signum

/-- `LenientResult.__init__`: nothing but the signal is kept of a `SIGALRM`. -/
def LenientResult.ofResult (result : Result κ) : LenientResult κ :=
  if newSignum result.signum = SIGALRM then
    { signum := newSignum result.signum
      cycleDiff := result.cycleDiff, instretDiff := result.instretDiff
      regs := Dict.empty, siAddr := 0, siPc := 0, siCode := 0
      client := result.client, realClient := result.client, memDiffs := some []
      origSignum := result.signum }
  else
    { signum := newSignum result.signum
      cycleDiff := result.cycleDiff, instretDiff := result.instretDiff
      regs := result.regs, siAddr := result.siAddr, siPc := result.siPc, siCode := result.siCode
      client := result.client, realClient := result.client, memDiffs := result.memDiffs
      origSignum := result.signum }

/-! ## What two results differ in

The names of the fields and registers that differ, as a set. -/

/-- `diff`: the fields that differ, and the names of the registers that differ. -/
def Result.diff (self other : Result κ) (noRegs : Bool := false) : Finset String :=
  (if self.signum ≠ other.signum then {"signum"} else ∅) ∪
  (if self.signum ≠ 0 ∧ other.signum ≠ 0 then
    (if self.siAddr ≠ other.siAddr then {"si_addr"} else ∅) ∪
    (if self.siPc ≠ other.siPc then {"si_pc"} else ∅) ∪
    (if self.siCode ≠ other.siCode then {"si_code"} else ∅)
  else ∅) ∪
  (if noRegs then ∅
  else (self.regs.keys ++ other.regs.keys).toFinset.filter fun reg =>
    other.regs.get? reg = none ∨ self.regs.get? reg = none ∨
      self.regs.get? reg ≠ other.regs.get? reg) ∪
  (if self.memDiffs ≠ none ∨ other.memDiffs ≠ none then
    if self.memDiffs ≠ other.memDiffs then {"mem"} else ∅
  else ∅)

/-- `signal_powerset`: the subsets that are not empty. -/
def signalPowerset (l : Finset String) : Finset (Finset String) :=
  (Finset.Icc 1 l.card).biUnion fun r => l.powersetCard r

/-! ## The filters

Two results that a filter accepts compare equal, and the others are compared as they are. -/

/-- `filter_bidirectional`. -/
def filterBidirectional (res1 res2 : LenientResult κ)
    (diffFilter : LenientResult κ → LenientResult κ → Bool) (generalFilter : Bool) : Bool :=
  (diffFilter res1 res2 || diffFilter res2 res1) && generalFilter

/-- What may differ between two results with the same signal. -/
def signalKeys : Finset String := {"pstate", "si_addr", "si_pc", "si_code"}

/-- `custom_filters_riscv64`. -/
def customFiltersRiscv64 (res1 res2 : LenientResult κ) : Bool :=
  let diffs := res1.diff res2.toResult
  filterBidirectional res1 res2 (fun _ _ => true) (diffs ∈ signalPowerset signalKeys)

/-- The memory change reaches over a page boundary, with the maximum size of a store instruction. -/
def MemDiff.crossesPage (d : MemDiff) : Prop :=
  (d.start + 32) / Arch.aarch64.PAGE_SIZE ≠ d.start / Arch.aarch64.PAGE_SIZE

instance (d : MemDiff) : Decidable d.crossesPage := by
  unfold MemDiff.crossesPage
  infer_instance

/-- `diffs1.symmetric_difference(diffs2)` of the memory changes. -/
def memDiffsOnOneSide (res1 res2 : LenientResult κ) : Finset MemDiff :=
  let diffs1 := (res1.memDiffs.getD []).toFinset
  let diffs2 := (res2.memDiffs.getD []).toFinset
  diffs1 \ diffs2 ∪ diffs2 \ diffs1

/-- `custom_filters_aarch64`. -/
def customFiltersAarch64 (res1 res2 : LenientResult κ) : Bool :=
  if filterBidirectional res1 res2
      (fun res1 res2 => res1.origSignum == SIGBUS && res2.origSignum == 0) true then true
  else
    let diffs := res1.diff res2.toResult
    if filterBidirectional res1 res2 (fun _ _ => true) (diffs ∈ signalPowerset signalKeys) then true
    else if res1.memDiffs ≠ none ∧ diffs ≠ ∅ ∧ res1.signum = SIGSEGV ∧ res2.signum = SIGSEGV ∧
        diffs = {"mem"} then
      decide (∀ d ∈ memDiffsOnOneSide res1 res2, d.crossesPage)
    else false

/-- `custom_filters`. -/
def customFilters : Arch → (res1 res2 : LenientResult κ) → Bool
  | .riscv64 => customFiltersRiscv64
  | .aarch64 => customFiltersAarch64

/-- `FilteredResult.__eq__`: what the filter hides compares equal. The input is handed to the filter
as well, but no filter looks at it. -/
def LenientResult.filteredEq (arch : Arch) (self other : LenientResult κ) : Bool :=
  if customFilters arch self other then true else self.toResult.eq other.toResult

/-! ## Results of one build

What is known of a result that was made from the bytes of a client. -/

namespace LenientResult

/-- What `Result.OfConfig` becomes. -/
structure OfConfig (c : Config) (x : LenientResult κ) : Prop where
  memDiffs_isSome : x.memDiffs.isSome = (c.CHECK_MEM || x.signum == SIGALRM)
  si_zero : x.signum = 0 → x.siAddr = 0 ∧ x.siPc = 0 ∧ x.siCode = 0
  signum : x.signum = newSignum x.origSignum

variable {c : Config}

@[simp] theorem origSignum_ofResult (r : Result κ) : (ofResult r).origSignum = r.signum := by
  unfold ofResult
  split <;> rfl

@[simp] theorem signum_ofResult (r : Result κ) : (ofResult r).signum = newSignum r.signum := by
  unfold ofResult
  split <;> rfl

@[simp] theorem client_ofResult (r : Result κ) : (ofResult r).client = r.client := by
  unfold ofResult
  split <;> rfl

theorem newSignum_eq_zero {n : Nat} : newSignum n = 0 ↔ n = 0 := by
  unfold newSignum
  split
  next hbus => simp [hbus, SIGSEGV, SIGBUS]
  next => rfl

theorem ofConfig_ofResult {r : Result κ} (h : r.OfConfig c) : (ofResult r).OfConfig c where
  memDiffs_isSome := by
    have hmem := h.memDiffs_isSome
    unfold ofResult
    split
    next halrm => simp [halrm]
    next halrm => simp [hmem, halrm]
  si_zero := by
    intro hzero
    rw [signum_ofResult, newSignum_eq_zero] at hzero
    unfold ofResult
    split
    next => exact ⟨rfl, rfl, rfl⟩
    next => exact h.si_zero hzero
  signum := by rw [signum_ofResult, origSignum_ofResult]

end LenientResult

/-! ## Membership in the differences

Two results without a common signal are not compared by the other signal fields, so the differences
of two pairs do not simply add up. -/

theorem Result.mem_diff {x y : Result κ} {s : String} :
    s ∈ x.diff y ↔
      (s = "signum" ∧ x.signum ≠ y.signum) ∨
      ((x.signum ≠ 0 ∧ y.signum ≠ 0) ∧
        ((s = "si_addr" ∧ x.siAddr ≠ y.siAddr) ∨ (s = "si_pc" ∧ x.siPc ≠ y.siPc) ∨
          (s = "si_code" ∧ x.siCode ≠ y.siCode))) ∨
      x.regs.get? s ≠ y.regs.get? s ∨
      (s = "mem" ∧ x.memDiffs ≠ y.memDiffs) := by
  have hif : ∀ {p : Prop} [Decidable p] {t : String},
      s ∈ (if p then ({t} : Finset String) else ∅) ↔ s = t ∧ p := by
    intro p _ t
    split
    next hp => simp [hp]
    next hp => simp [hp]
  -- a register is a difference when one side has it alone, or both have it with other values
  have hregs : s ∈ ((x.regs.keys ++ y.regs.keys).toFinset.filter fun reg =>
      y.regs.get? reg = none ∨ x.regs.get? reg = none ∨ x.regs.get? reg ≠ y.regs.get? reg) ↔
      x.regs.get? s ≠ y.regs.get? s := by
    simp only [Finset.mem_filter, List.mem_toFinset, List.mem_append]
    have hx : s ∉ x.regs.keys ↔ x.regs.get? s = none := Dict.get?_eq_none_iff.symm
    have hy : s ∉ y.regs.keys ↔ y.regs.get? s = none := Dict.get?_eq_none_iff.symm
    grind
  have hmem : s ∈ (if x.memDiffs ≠ none ∨ y.memDiffs ≠ none then
      if x.memDiffs ≠ y.memDiffs then ({"mem"} : Finset String) else ∅ else ∅) ↔
      s = "mem" ∧ x.memDiffs ≠ y.memDiffs := by
    split
    next => exact hif
    next hnone =>
      rw [not_or, not_not, not_not] at hnone
      simp [hnone]
  -- the other fields of the signal are looked at only if both have one
  have hsi : s ∈ (if x.signum ≠ 0 ∧ y.signum ≠ 0 then
      (if x.siAddr ≠ y.siAddr then ({"si_addr"} : Finset String) else ∅) ∪
      (if x.siPc ≠ y.siPc then {"si_pc"} else ∅) ∪
      (if x.siCode ≠ y.siCode then {"si_code"} else ∅) else ∅) ↔
      (x.signum ≠ 0 ∧ y.signum ≠ 0) ∧
        ((s = "si_addr" ∧ x.siAddr ≠ y.siAddr) ∨ (s = "si_pc" ∧ x.siPc ≠ y.siPc) ∨
          (s = "si_code" ∧ x.siCode ≠ y.siCode)) := by
    split
    next hp =>
      rw [Finset.mem_union, Finset.mem_union, hif, hif, hif]
      simp only [hp, true_and, or_assoc, ne_eq, not_false_eq_true, and_self]
    next hp => simp only [Finset.notMem_empty, hp, false_and]
  rw [diff, Finset.mem_union, Finset.mem_union, Finset.mem_union, hif, hsi, hmem]
  simp only [Bool.false_eq_true, if_false, hregs, or_assoc]

namespace Result

/-- Nothing differs but what is in `t`. -/
theorem diff_subset_iff {x y : Result κ} {t : Finset String} :
    x.diff y ⊆ t ↔
      (x.signum ≠ y.signum → "signum" ∈ t) ∧
      (x.signum ≠ 0 → y.signum ≠ 0 → (x.siAddr ≠ y.siAddr → "si_addr" ∈ t) ∧
        (x.siPc ≠ y.siPc → "si_pc" ∈ t) ∧ (x.siCode ≠ y.siCode → "si_code" ∈ t)) ∧
      (∀ s, x.regs.get? s ≠ y.regs.get? s → s ∈ t) ∧
      (x.memDiffs ≠ y.memDiffs → "mem" ∈ t) := by
  constructor
  · intro h
    refine ⟨fun hne => h (mem_diff.mpr (Or.inl ⟨rfl, hne⟩)), fun hx hy => ?_, fun s hne => ?_,
      fun hne => h (mem_diff.mpr (Or.inr (Or.inr (Or.inr ⟨rfl, hne⟩))))⟩
    · have hsi : ∀ s, ((s = "si_addr" ∧ x.siAddr ≠ y.siAddr) ∨ (s = "si_pc" ∧ x.siPc ≠ y.siPc) ∨
          (s = "si_code" ∧ x.siCode ≠ y.siCode)) → s ∈ t := by
        intro s hs
        exact h (mem_diff.mpr (Or.inr (Or.inl ⟨⟨hx, hy⟩, hs⟩)))
      exact ⟨fun hne => hsi _ (Or.inl ⟨rfl, hne⟩), fun hne => hsi _ (Or.inr (Or.inl ⟨rfl, hne⟩)),
        fun hne => hsi _ (Or.inr (Or.inr ⟨rfl, hne⟩))⟩
    · exact h (mem_diff.mpr (Or.inr (Or.inr (Or.inl hne))))
  · rintro ⟨hsignum, hsi, hregs, hmem⟩ s hs
    -- a difference is of one of the four kinds
    rcases mem_diff.mp hs with ⟨rfl, hne⟩ | ⟨⟨hx, hy⟩, hs⟩ | hne | ⟨rfl, hne⟩
    · exact hsignum hne
    · obtain ⟨haddr, hpc, hcode⟩ := hsi hx hy
      rcases hs with ⟨rfl, hne⟩ | ⟨rfl, hne⟩ | ⟨rfl, hne⟩
      · exact haddr hne
      · exact hpc hne
      · exact hcode hne
    · exact hregs s hne
    · exact hmem hne

/-- Results are equal when `diff` finds nothing. What `__eq__` and `diff` leave out when there is no
signal or no memory does not matter for results of one build. -/
theorem eq_iff_diff_eq_empty {x y : Result κ}
    (hsome : x.signum = y.signum → x.memDiffs.isSome = y.memDiffs.isSome)
    (hx : x.signum = 0 → x.siAddr = 0 ∧ x.siPc = 0 ∧ x.siCode = 0)
    (hy : y.signum = 0 → y.siAddr = 0 ∧ y.siPc = 0 ∧ y.siCode = 0) :
    x.eq y = true ↔ x.diff y = ∅ := by
  rw [Result.eq_iff, Dict.beq_iff, ← Finset.subset_empty, diff_subset_iff]
  simp only [Finset.notMem_empty, imp_false, not_not]
  constructor
  · rintro ⟨hsignum, haddr, hpc, hcode, hmem, hregs⟩
    exact ⟨hsignum, fun _ _ => ⟨haddr, hpc, hcode⟩, hregs,
      option_eq_of_isSome (hsome hsignum) hmem⟩
  · rintro ⟨hsignum, hsi, hregs, hmem⟩
    refine ⟨hsignum, ?_⟩
    -- without a signal `diff` does not look at the signal information, but then it is zero
    by_cases hzero : x.signum = 0
    · obtain ⟨ha, hp, hc⟩ := hx hzero
      obtain ⟨ha', hp', hc'⟩ := hy (hsignum ▸ hzero)
      exact ⟨ha.trans ha'.symm, hp.trans hp'.symm, hc.trans hc'.symm, fun _ => hmem, hregs⟩
    · obtain ⟨ha, hp, hc⟩ := hsi hzero (hsignum ▸ hzero)
      exact ⟨ha, hp, hc, fun _ => hmem, hregs⟩

theorem diff_comm (x y : Result κ) : x.diff y = y.diff x := by
  ext s
  simp only [mem_diff, ne_comm, and_comm (a := x.signum ≠ 0)]

/-- Two results with one signal differ from a third in the same things, apart from what they differ
in themselves. -/
theorem mem_diff_congr {x y : Result κ} (hsignum : x.signum = y.signum) {s : String}
    (h : s ∉ x.diff y) (z : Result κ) : s ∈ x.diff z ↔ s ∈ y.diff z := by
  rw [mem_diff, mem_diff]
  rw [mem_diff] at h
  grind

theorem diff_trans {x y z : Result κ} (hsignum : x.signum = y.signum) {t : Finset String}
    (hxy : x.diff y ⊆ t) (hyz : y.diff z ⊆ t) : x.diff z ⊆ t := by
  intro s hs
  -- either `x` and `y` differ there, or `y` and `z` do
  by_cases hmem : s ∈ x.diff y
  · exact hxy hmem
  · exact hyz ((mem_diff_congr hsignum hmem z).mp hs)

end Result

theorem mem_signalPowerset {l d : Finset String} : d ∈ signalPowerset l ↔ d ≠ ∅ ∧ d ⊆ l := by
  simp only [signalPowerset, Finset.mem_biUnion, Finset.mem_Icc, Finset.mem_powersetCard]
  constructor
  · rintro ⟨r, ⟨hr, -⟩, hsub, hcard⟩
    refine ⟨?_, hsub⟩
    rintro rfl
    rw [Finset.card_empty] at hcard
    omega
  · rintro ⟨hne, hsub⟩
    have hpos := Finset.card_pos.mpr (Finset.nonempty_iff_ne_empty.mpr hne)
    exact ⟨d.card, ⟨hpos, Finset.card_le_card hsub⟩, hsub, rfl⟩

/-! ## The comparison in terms of the differences

For each architecture, which differences the filters accept. -/

namespace LenientResult

variable {c : Config} {x y z : LenientResult κ}

/-- One of the two stopped with a `SIGBUS`, the other without a signal. -/
def BusNextToOk (x y : LenientResult κ) : Prop :=
  (x.origSignum = SIGBUS ∧ y.origSignum = 0) ∨ (y.origSignum = SIGBUS ∧ x.origSignum = 0)

/-- Two segmentation faults whose memory differs only around page boundaries. -/
def OnlyAtPages (x y : LenientResult κ) : Prop :=
  x.signum = SIGSEGV ∧ y.signum = SIGSEGV ∧ x.diff y.toResult = {"mem"} ∧ x.memDiffs ≠ none ∧
    ∀ d ∈ memDiffsOnOneSide x y, d.crossesPage

/-- Without a difference the results compare equal. -/
theorem eq_iff_diff_eq_empty (hx : x.OfConfig c) (hy : y.OfConfig c) :
    x.toResult.eq y.toResult = true ↔ x.diff y.toResult = ∅ :=
  Result.eq_iff_diff_eq_empty
    (fun hsignum => by rw [hx.memDiffs_isSome, hy.memDiffs_isSome, hsignum]) hx.si_zero hy.si_zero

theorem filteredEq_iff {arch : Arch} :
    x.filteredEq arch y = true ↔
      customFilters arch x y = true ∨ x.toResult.eq y.toResult = true := by
  unfold filteredEq
  split
  next h => simp [h]
  next h => simp [h]

theorem customFiltersRiscv64_iff :
    customFiltersRiscv64 x y = true ↔
      x.diff y.toResult ≠ ∅ ∧ x.diff y.toResult ⊆ signalKeys := by
  simp only [customFiltersRiscv64, filterBidirectional, Bool.or_self, Bool.true_and,
    decide_eq_true_eq, mem_signalPowerset]

theorem customFiltersAarch64_iff :
    customFiltersAarch64 x y = true ↔
      BusNextToOk x y ∨ (x.diff y.toResult ≠ ∅ ∧ x.diff y.toResult ⊆ signalKeys) ∨
        OnlyAtPages x y := by
  -- what the third filter asks for besides the pages is that memory is the only difference
  have hpages : OnlyAtPages x y ↔ (x.memDiffs ≠ none ∧ x.diff y.toResult ≠ ∅ ∧
      x.signum = SIGSEGV ∧ y.signum = SIGSEGV ∧ x.diff y.toResult = {"mem"}) ∧
      ∀ d ∈ memDiffsOnOneSide x y, d.crossesPage := by
    unfold OnlyAtPages
    constructor
    · rintro ⟨hx, hy, hdiff, hmem, hcross⟩
      exact ⟨⟨hmem, hdiff ▸ Finset.singleton_ne_empty "mem", hx, hy, hdiff⟩, hcross⟩
    · rintro ⟨⟨hmem, -, hx, hy, hdiff⟩, hcross⟩
      exact ⟨hx, hy, hdiff, hmem, hcross⟩
  rw [hpages]
  unfold BusNextToOk
  simp only [customFiltersAarch64, filterBidirectional, Bool.or_self, Bool.true_and, Bool.and_true,
    decide_eq_true_eq, mem_signalPowerset, Bool.or_eq_true, Bool.and_eq_true, beq_iff_eq]
  split
  next hbus => simp only [hbus, true_or]
  next hbus =>
    split
    next hkeys => simp only [hkeys, true_or, or_true, and_self, ne_eq, not_false_eq_true]
    next hkeys =>
      split
      next hfilter =>
        rw [decide_eq_true_eq, or_iff_right hbus, or_iff_right hkeys, and_iff_right hfilter]
      next hfilter => simp only [hbus, hkeys, hfilter, false_and, or_self, Bool.false_eq_true]

theorem filteredEq_riscv64_iff (hx : x.OfConfig c) (hy : y.OfConfig c) :
    x.filteredEq .riscv64 y = true ↔ x.diff y.toResult ⊆ signalKeys := by
  rw [filteredEq_iff, customFilters, customFiltersRiscv64_iff, eq_iff_diff_eq_empty hx hy]
  by_cases hempty : x.diff y.toResult = ∅
  · simp [hempty]
  · simp [hempty]

theorem filteredEq_aarch64_iff (hx : x.OfConfig c) (hy : y.OfConfig c) :
    x.filteredEq .aarch64 y = true ↔
      BusNextToOk x y ∨ x.diff y.toResult ⊆ signalKeys ∨ OnlyAtPages x y := by
  rw [filteredEq_iff, customFilters, customFiltersAarch64_iff, eq_iff_diff_eq_empty hx hy]
  by_cases hempty : x.diff y.toResult = ∅
  · simp [hempty]
  · simp [hempty]

/-! ## How the parts of the comparison chain

Each part is symmetric. What two of them say together depends on the signal of the result in the
middle. -/

theorem BusNextToOk.symm (h : BusNextToOk x y) : BusNextToOk y x := Or.symm h

theorem memDiffsOnOneSide_comm (x y : LenientResult κ) :
    memDiffsOnOneSide x y = memDiffsOnOneSide y x := Finset.union_comm _ _

theorem memDiffsOnOneSide_trans (x y z : LenientResult κ) :
    memDiffsOnOneSide x z ⊆ memDiffsOnOneSide x y ∪ memDiffsOnOneSide y z := by
  intro d
  simp only [memDiffsOnOneSide, Finset.mem_union, Finset.mem_sdiff]
  tauto

theorem OnlyAtPages.symm (hx : x.OfConfig c) (hy : y.OfConfig c) (h : OnlyAtPages x y) :
    OnlyAtPages y x := by
  obtain ⟨hxs, hys, hdiff, hmem, hcross⟩ := h
  have hsome : y.memDiffs.isSome = x.memDiffs.isSome := by
    rw [hx.memDiffs_isSome, hy.memDiffs_isSome, hxs, hys]
  refine ⟨hys, hxs, Result.diff_comm x.toResult y.toResult ▸ hdiff, ?_, ?_⟩
  · rw [← Option.isSome_iff_ne_none] at hmem ⊢
    rwa [hsome]
  · rwa [memDiffsOnOneSide_comm]

theorem signum_eq_of_diff_subset (h : x.diff y.toResult ⊆ signalKeys) : x.signum = y.signum := by
  by_contra hne
  have hmem : "signum" ∈ x.diff y.toResult := Result.mem_diff.mpr (Or.inl ⟨rfl, hne⟩)
  exact absurd (h hmem) (by decide)

/-- The signal of a result that counts as a segmentation fault. -/
theorem OfConfig.origSignum_of_sigsegv (hx : x.OfConfig c) (h : x.signum = SIGSEGV) :
    x.origSignum = SIGBUS ∨ x.origSignum = SIGSEGV := by
  rw [hx.signum, newSignum] at h
  split at h
  next hbus => exact Or.inl hbus
  next => exact Or.inr h

theorem OfConfig.signum_of_sigbus (hx : x.OfConfig c) (h : x.origSignum = SIGBUS) :
    x.signum = SIGSEGV := by
  rw [hx.signum, newSignum, if_pos h]

theorem OfConfig.signum_of_ok (hx : x.OfConfig c) (h : x.origSignum = 0) : x.signum = 0 := by
  rw [hx.signum, newSignum_eq_zero, h]

/-- Between two segmentation faults the filter for `SIGBUS` does not apply. -/
theorem not_busNextToOk (hx : x.OfConfig c) (hy : y.OfConfig c) (h : x.signum = y.signum) :
    ¬ BusNextToOk x y := by
  rintro (⟨hbus, hok⟩ | ⟨hbus, hok⟩)
  · rw [hx.signum_of_sigbus hbus, hy.signum_of_ok hok] at h
    cases h
  · rw [hx.signum_of_ok hok, hy.signum_of_sigbus hbus] at h
    cases h

/-- Results that do not differ stand for each other. -/
theorem OnlyAtPages.congr_right (h : OnlyAtPages x y) (hyz : y.diff z.toResult = ∅) :
    OnlyAtPages x z := by
  obtain ⟨hxs, hys, hdiff, hmem, hcross⟩ := h
  have hsignum : y.signum = z.signum :=
    signum_eq_of_diff_subset (hyz ▸ Finset.empty_subset signalKeys)
  have hmemEq : y.memDiffs = z.memDiffs := by
    by_contra hne
    have hin : "mem" ∈ y.diff z.toResult :=
      Result.mem_diff.mpr (Or.inr (Or.inr (Or.inr ⟨rfl, hne⟩)))
    simp [hyz] at hin
  refine ⟨hxs, hsignum ▸ hys, ?_, hmem, ?_⟩
  · rw [Result.diff_comm] at hdiff ⊢
    rw [← hdiff]
    ext s
    exact (Result.mem_diff_congr hsignum (by simp [hyz]) x.toResult).symm
  · unfold memDiffsOnOneSide at hcross ⊢
    rwa [← hmemEq]

/-- Differences at page boundaries do not chain with differences in the signal information. -/
theorem OnlyAtPages.diff_eq_empty_of_trans (hxy : OnlyAtPages x y)
    (hyz : y.diff z.toResult ⊆ signalKeys)
    (hxz : x.diff z.toResult ⊆ signalKeys ∨ OnlyAtPages x z) : y.diff z.toResult = ∅ := by
  obtain ⟨hxs, hys, hdiff, -, -⟩ := hxy
  have hsignum := signum_eq_of_diff_subset hyz
  have hmem : "mem" ∉ y.diff z.toResult := fun h => absurd (hyz h) (by decide)
  have hmemX : "mem" ∈ x.diff z.toResult := by
    have hyx : "mem" ∈ y.diff x.toResult := by rw [Result.diff_comm, hdiff]; simp
    rw [Result.diff_comm]
    exact (Result.mem_diff_congr hsignum hmem x.toResult).mp hyx
  rcases hxz with hkeys | ⟨-, -, hdiff', -, -⟩
  · exact absurd (hkeys hmemX) (by decide)
  · -- what `y` and `z` differ in, `x` and `z` differ in, and that is only the memory
    apply Finset.eq_empty_of_forall_notMem
    intro s hs
    have hne : s ≠ "mem" := fun h => hmem (h ▸ hs)
    have hsx : s ∉ x.diff y.toResult := by rw [hdiff]; simpa using hne
    have hin := (Result.mem_diff_congr (hxs.trans hys.symm) hsx z.toResult).mpr hs
    rw [hdiff', Finset.mem_singleton] at hin
    exact hne hin

theorem OnlyAtPages.trans (hxy : OnlyAtPages x y) (hyz : OnlyAtPages y z) :
    x.diff z.toResult ⊆ signalKeys ∨ OnlyAtPages x z := by
  obtain ⟨hxs, hys, hdiff, hmem, hcross⟩ := hxy
  obtain ⟨-, hzs, hdiff', -, hcross'⟩ := hyz
  have hsub : x.diff z.toResult ⊆ {"mem"} :=
    Result.diff_trans (hxs.trans hys.symm) hdiff.subset hdiff'.subset
  rcases Finset.subset_singleton_iff.mp hsub with hempty | honly
  · exact Or.inl (hempty ▸ Finset.empty_subset signalKeys)
  · refine Or.inr ⟨hxs, hzs, honly, hmem, fun d hd => ?_⟩
    exact (Finset.mem_union.mp (memDiffsOnOneSide_trans x y z hd)).elim (hcross d) (hcross' d)

/-- The comparison is reflexive. -/
theorem filteredEq_refl (arch : Arch) (x : LenientResult κ) : x.filteredEq arch x = true :=
  filteredEq_iff.mpr (Or.inr x.toResult.eq_refl)

/-- The comparison is symmetric. -/
theorem filteredEq_symm (arch : Arch) (hx : x.OfConfig c) (hy : y.OfConfig c)
    (h : x.filteredEq arch y = true) : y.filteredEq arch x = true := by
  cases arch with
  | riscv64 =>
      rw [filteredEq_riscv64_iff hx hy] at h
      rwa [filteredEq_riscv64_iff hy hx, Result.diff_comm]
  | aarch64 =>
      rw [filteredEq_aarch64_iff hx hy] at h
      rw [filteredEq_aarch64_iff hy hx, Result.diff_comm]
      rcases h with hbus | hkeys | hpages
      · exact Or.inl hbus.symm
      · exact Or.inr (Or.inl hkeys)
      · exact Or.inr (Or.inr (hpages.symm hx hy))

/-- An illegal instruction only equals another one. -/
theorem sigill_of_filteredEq (arch : Arch) (hx : x.OfConfig c) (hy : y.OfConfig c)
    (h : x.filteredEq arch y = true) : (x.signum = SIGILL ↔ y.signum = SIGILL) := by
  have hkeys : x.diff y.toResult ⊆ signalKeys → (x.signum = SIGILL ↔ y.signum = SIGILL) :=
    fun hsub => by rw [signum_eq_of_diff_subset hsub]
  cases arch with
  | riscv64 => exact hkeys ((filteredEq_riscv64_iff hx hy).mp h)
  | aarch64 =>
      rcases (filteredEq_aarch64_iff hx hy).mp h with (⟨hbus, hok⟩ | ⟨hbus, hok⟩) | hsub | hpages
      · rw [hx.signum_of_sigbus hbus, hy.signum_of_ok hok]
        decide
      · rw [hy.signum_of_sigbus hbus, hx.signum_of_ok hok]
        decide
      · exact hkeys hsub
      · rw [hpages.1, hpages.2.1]

end LenientResult

end RISCover
