import RISCover.Diff.Cluster

/-!
# Results that were parsed

Whatever bytes a client sends, the results that the server makes of them have a certain form. It is
enough to characterise the comparisons: plain results are equal when `diff` finds nothing, filtered
results of riscv64 when it finds nothing but what the filter hides.
-/

open Cursor

namespace RISCover

variable {κ : Type} {c : Config}

/-! ## The form of parsed results

`Formed` goes through the parser from its smallest parts up. What it asks of the attributes holds
whatever the bytes are. -/

/-- The results in an element of the list that `parse_results` returns. -/
def Parsed.results : Parsed κ → List (Result κ)
  | .result r => [r]
  | .multiResult results => results.filterMap id

/-- A server of this configuration parsed `r` out of some message of some client. -/
def Result.ParsedBy (c : Config) (r : Result κ) : Prop :=
  ∃ data client parsed, parseResults c data client = .ok parsed ∧ ∃ p ∈ parsed, r ∈ p.results

/-- What holds of every parsed result. -/
structure Result.Formed (c : Config) (r : Result κ) : Prop extends r.OfConfig c where
  keys_subset : r.regs.keys ⊆ c.regsMapping

theorem returns_parseReg (regs : Dict String Nat) (h : regs.keys ⊆ c.regsMapping) :
    Returns (parseReg c regs) fun regs => regs.keys ⊆ c.regsMapping := by
  refine (Returns.true _).bind fun regIndex _ => ?_
  cases hreg : c.regsMapping[regIndex]? with
  | none =>
      intro data r a r' hfail
      cases hfail
  | some reg =>
      refine (Returns.true _).bind fun value _ => Returns.pure fun k hk => ?_
      rcases Dict.mem_keys_set.mp hk with rfl | hold
      · exact List.mem_of_getElem? hreg
      · exact h hold

theorem returns_parseSi (signum : Nat) :
    Returns (parseSi signum) fun si => signum = 0 → si.1 = 0 ∧ si.2.1 = 0 ∧ si.2.2 = 0 := by
  unfold parseSi
  split
  next hsignum =>
    intro data r a r' _ hzero
    exact absurd hzero hsignum
  next => exact Returns.pure fun _ => ⟨rfl, rfl, rfl⟩

theorem returns_parseMemDiffs : Returns (parseMemDiffs c) fun m => m.isSome = c.CHECK_MEM := by
  unfold parseMemDiffs
  split
  next hcheck =>
    exact (Returns.true _).bind fun n _ => (Returns.true _).bind fun memDiffs _ =>
      Returns.pure hcheck.symm
  next hcheck => exact Returns.pure (by simpa using hcheck)

theorem returns_parseResultBody (client : κ) :
    Returns (parseResultBody c client) fun r => r.Formed c := by
  refine (Returns.true _).bind fun signum _ => (Returns.true _).bind fun counters _ =>
    (Returns.true _).bind fun n _ => ?_
  have hregs : Returns (foldN (parseReg c) n Dict.empty) fun regs => regs.keys ⊆ c.regsMapping :=
    Returns.foldN returns_parseReg n (List.nil_subset _)
  refine hregs.bind fun regs hkeys => (returns_parseSi signum).bind fun si hsi =>
    returns_parseMemDiffs.bind fun memDiffs hmem => Returns.pure ?_
  exact { memDiffs_isSome := hmem, si_zero := hsi, keys_subset := hkeys }

theorem returns_parseOneResult (client : κ) :
    Returns (parseOneResult c client) fun result => ∀ r ∈ result, r.Formed c := by
  intro data r a r' h
  unfold parseOneResult at h
  split at h
  next =>
    cases h
    rintro x ⟨⟩
  next =>
    have hsome : Returns (parseResultBody c client >>= fun result => pure (some result))
        fun result => ∀ r ∈ result, r.Formed c := by
      refine (returns_parseResultBody client).bind fun x hx => Returns.pure ?_
      rintro y ⟨rfl⟩
      exact hx
    exact hsome data r a r' h

theorem returns_parseOneResultFullSeq (client : κ) :
    Returns (parseOneResultFullSeq c client) fun results =>
      ∀ r ∈ results.filterMap id, r.Formed c := by
  refine (Returns.true _).bind fun seqLen _ => Returns.foldN (fun acc hacc => ?_) seqLen ?_
  · refine (returns_parseOneResult client).sub.bind fun result hresult => Returns.pure ?_
    intro r hr
    rw [List.filterMap_append, List.mem_append] at hr
    rcases hr with hr | hr
    · exact hacc r hr
    · cases result with
      | none => cases hr
      | some x =>
        obtain rfl : r = x := by simpa using hr
        exact hresult r rfl
  · rintro r ⟨⟩

theorem returns_parseStep (client : κ) :
    Returns (parseStep c client) fun p => ∀ r ∈ p.results, r.Formed c := by
  refine (Returns.true _).bind fun fullSeq _ => ?_
  split
  · exact (returns_parseOneResultFullSeq client).sub.bind fun results h => Returns.pure h
  · refine (returns_parseOneResult client).sub.bind fun result h => ?_
    cases result with
    | none =>
        intro data r a r' hfail
        cases hfail
    | some x =>
        refine Returns.pure fun r hr => ?_
        obtain rfl := List.mem_singleton.mp hr
        exact h r rfl

theorem parseResultsLoop_formed (client : κ) (data : Bytes) : ∀ (fuel aread : Nat)
    (results : List (Parsed κ)), (∀ p ∈ results, ∀ r ∈ p.results, r.Formed c) →
      ∀ {parsed}, parseResultsLoop c client data fuel aread results = .ok parsed →
        ∀ p ∈ parsed, ∀ r ∈ p.results, r.Formed c := by
  intro fuel
  induction fuel with
  | zero => intro aread results _ parsed h; cases h
  | succ fuel ih =>
      intro aread results hresults parsed h
      unfold parseResultsLoop at h
      split at h
      next => cases h
      next result aread' hstep =>
        -- the result of this pass joins the ones before
        have hnew : ∀ p ∈ results ++ [result], ∀ r ∈ p.results, r.Formed c := by
          intro p hp
          rcases List.mem_append.mp hp with hp | hp
          · exact hresults p hp
          · obtain rfl := List.mem_singleton.mp hp
            exact returns_parseStep client data aread p aread' hstep
        split at h
        next => cases h
        next =>
          split at h
          next =>
            cases h
            exact hnew
          next => exact ih aread' _ hnew h

theorem Result.ParsedBy.formed {r : Result κ} (h : r.ParsedBy c) : r.Formed c := by
  obtain ⟨data, client, parsed, hparsed, p, hp, hr⟩ := h
  exact parseResultsLoop_formed client data _ 0 [] (by rintro p ⟨⟩) hparsed p hp r hr

/-! ## Plain results

A parsed result has memory changes or not by its build, so two of them are equal when nothing
differs. -/

/-- `==` and `diff` agree on the results of one build, and `hash` follows them. -/
theorem Result.OfConfig.eq_iff_diff_eq_empty {x y : Result κ} (hx : x.OfConfig c)
    (hy : y.OfConfig c) : x.eq y = true ↔ x.diff y = ∅ :=
  Result.eq_iff_diff_eq_empty (fun _ => hx.memDiffs_isSome.trans hy.memDiffs_isSome.symm) hx.si_zero
    hy.si_zero

/-! ## Filtered results of riscv64

The filter hides the fields of the signal and `pstate`. So results are equal when they agree up to
these, which is an equivalence. -/

/-- `FilteredResult.__hash__`. -/
def LenientResult.filteredHash (_ : LenientResult κ) : Int := 0

/-- The results agree but for the signal information: their signals are the same when `SIGBUS`
counts as `SIGSEGV`, and unless it is a `SIGALRM` so are the registers (without `pstate`) and the
memory. -/
structure Result.AgreesLeniently (r1 r2 : Result κ) : Prop where
  signum : newSignum r1.signum = newSignum r2.signum
  regs : newSignum r1.signum ≠ SIGALRM → ∀ reg ≠ "pstate", r1.regs.get? reg = r2.regs.get? reg
  memDiffs : newSignum r1.signum ≠ SIGALRM → r1.memDiffs = r2.memDiffs

/-- The keys that the filter hides are no registers, but for `pstate`. -/
theorem notMem_regsMapping_of_mem_signalKeys (c : RegConfig) {key : String} (h : key ∈ signalKeys)
    (hne : key ≠ "pstate") : key ∉ c.regsMapping := by
  have hkeys : ∀ key ∈ ["si_addr", "si_pc", "si_code"], key ∉ c.regsMapping := by
    rcases c with ⟨_ | _, _ | _, _ | _, hc⟩ <;> revert hc <;> decide +kernel
  simp only [signalKeys, Finset.mem_insert, Finset.mem_singleton] at h
  exact hkeys key (by simpa [hne] using h)

namespace Result

variable {r1 r2 r3 : Result κ}

theorem Formed.get?_eq_none (h : r1.Formed c) {key : String} (hkey : key ∈ signalKeys)
    (hne : key ≠ "pstate") : r1.regs.get? key = none :=
  Dict.get?_eq_none_iff.mpr fun hmem =>
    notMem_regsMapping_of_mem_signalKeys c hkey hne (h.keys_subset hmem)

theorem filteredEq_riscv64_iff_agreesLeniently (h1 : r1.Formed c) (h2 : r2.Formed c) :
    (LenientResult.ofResult r1).filteredEq .riscv64 (LenientResult.ofResult r2) = true ↔
      r1.AgreesLeniently r2 := by
  rw [LenientResult.filteredEq_riscv64_iff (LenientResult.ofConfig_ofResult h1.toOfConfig)
    (LenientResult.ofConfig_ofResult h2.toOfConfig), diff_subset_iff]
  have hsi : "si_addr" ∈ signalKeys ∧ "si_pc" ∈ signalKeys ∧ "si_code" ∈ signalKeys := by decide
  have hsignum : "signum" ∉ signalKeys := by decide
  have hmem : "mem" ∉ signalKeys := by decide
  simp only [hsi, hsignum, hmem, imp_true_iff, and_true, true_and, imp_false, not_not,
    LenientResult.signum_ofResult]
  constructor
  · rintro ⟨hsame, hregs, hmemDiffs⟩
    refine ⟨hsame, fun halrm key hne => ?_, fun halrm => ?_⟩
    · -- no register but `pstate` is called after one of the keys
      by_cases hkey : key ∈ signalKeys
      · rw [h1.get?_eq_none hkey hne, h2.get?_eq_none hkey hne]
      · by_contra hdiff
        refine hkey (hregs key ?_)
        simpa [LenientResult.ofResult, halrm, hsame ▸ halrm] using hdiff
    · simpa [LenientResult.ofResult, halrm, hsame ▸ halrm] using hmemDiffs
  · rintro ⟨hsame, hregs, hmemDiffs⟩
    refine ⟨hsame, fun key hdiff => ?_, ?_⟩
    · by_cases halrm : newSignum r1.signum = SIGALRM
      · simp [LenientResult.ofResult, halrm, hsame ▸ halrm] at hdiff
      · -- the only register that the filter hides
        have hkey : key = "pstate" := by
          by_contra hne
          refine hdiff ?_
          simpa [LenientResult.ofResult, halrm, hsame ▸ halrm] using hregs halrm key hne
        subst hkey
        decide
    · by_cases halrm : newSignum r1.signum = SIGALRM
      · simp [LenientResult.ofResult, halrm, hsame ▸ halrm]
      · simpa [LenientResult.ofResult, halrm, hsame ▸ halrm] using hmemDiffs halrm

theorem AgreesLeniently.refl (r : Result κ) : r.AgreesLeniently r :=
  ⟨rfl, fun _ _ _ => rfl, fun _ => rfl⟩

theorem AgreesLeniently.symm (h : r1.AgreesLeniently r2) : r2.AgreesLeniently r1 :=
  ⟨h.signum.symm, fun halrm key hne => (h.regs (h.signum ▸ halrm) key hne).symm,
    fun halrm => (h.memDiffs (h.signum ▸ halrm)).symm⟩

theorem AgreesLeniently.trans (h : r1.AgreesLeniently r2) (h' : r2.AgreesLeniently r3) :
    r1.AgreesLeniently r3 :=
  ⟨h.signum.trans h'.signum,
    fun halrm key hne => (h.regs halrm key hne).trans (h'.regs (h.signum ▸ halrm) key hne),
    fun halrm => (h.memDiffs halrm).trans (h'.memDiffs (h.signum ▸ halrm))⟩

end Result

/-- What comparing two parsed results of riscv64 through the filter amounts to; it is an
equivalence. -/
theorem filteredEq_riscv64_characterised (c : Config) (harch : c.arch = .riscv64) :
    let same (r1 r2 : Result κ) :=
      (LenientResult.ofResult r1).filteredEq c.arch (LenientResult.ofResult r2) = true
    (∀ r1 r2 : Result κ, r1.ParsedBy c → r2.ParsedBy c → (same r1 r2 ↔ r1.AgreesLeniently r2)) ∧
    (∀ r : Result κ, r.ParsedBy c → same r r) ∧
    (∀ r1 r2 : Result κ, r1.ParsedBy c → r2.ParsedBy c → same r1 r2 → same r2 r1) ∧
    (∀ r1 r2 r3 : Result κ, r1.ParsedBy c → r2.ParsedBy c → r3.ParsedBy c → same r1 r2 →
      same r2 r3 → same r1 r3) ∧
    (∀ r1 r2 : Result κ, same r1 r2 → (LenientResult.ofResult r1).filteredHash =
      (LenientResult.ofResult r2).filteredHash) := by
  intro same
  -- the comparison is a relation on the fields, whose laws are seen there
  have hsame : ∀ r1 r2 : Result κ, r1.ParsedBy c → r2.ParsedBy c →
      (same r1 r2 ↔ r1.AgreesLeniently r2) := by
    intro r1 r2 h1 h2
    simp only [same, harch]
    exact Result.filteredEq_riscv64_iff_agreesLeniently h1.formed h2.formed
  refine ⟨hsame, fun r h => ?_, fun r1 r2 h1 h2 h => ?_, fun r1 r2 r3 h1 h2 h3 h12 h23 => ?_,
    fun _ _ _ => rfl⟩
  · rw [hsame r r h h]
    exact Result.AgreesLeniently.refl r
  · rw [hsame r1 r2 h1 h2] at h
    rw [hsame r2 r1 h2 h1]
    exact h.symm
  · rw [hsame r1 r2 h1 h2] at h12
    rw [hsame r2 r3 h2 h3] at h23
    rw [hsame r1 r3 h1 h3]
    exact h12.trans h23

/-- The message with one result without a signal that changed `ra`. -/
theorem sampleResult_parsedBy (value : UInt8) (client : String) :
    (sampleResult 0 "ra" value.toNat client).ParsedBy (plainBuild .riscv64) :=
  ⟨[0, 0, 1, 0, value, 0, 0, 0, 0, 0, 0, 0], client, [.result _], rfl, _,
    List.mem_singleton_self _, List.mem_singleton_self _⟩

theorem filteredEq_riscv64_characterised_sample :
    ((LenientResult.ofResult (sampleResult 0 "ra" 1 "a")).filteredEq .riscv64
        (LenientResult.ofResult (sampleResult 0 "ra" 2 "b")) = true ↔
      (sampleResult 0 "ra" 1 "a").AgreesLeniently (sampleResult 0 "ra" 2 "b")) :=
  (filteredEq_riscv64_characterised (plainBuild .riscv64) rfl).1 _ _ (sampleResult_parsedBy 1 "a")
    (sampleResult_parsedBy 2 "b")

end RISCover
