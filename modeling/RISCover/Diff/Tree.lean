import Mathlib.Data.List.Sort
import RISCover.Diff.Cluster
import RISCover.Lib.Refine

/-!
# The search for differences

`find_minimal_diff_tree` goes through the prefixes of a sequence. It keeps classes of clients whose
results were equal so far, splits every class by the results of the next prefix, and records the
split when the filtered results differ as well.
-/

open Cluster

namespace RISCover

variable {κ ρ : Type} {c : Config}

/-! ## Results of the prefixes

A client runs the prefixes of a sequence up to the first that is stopped by a signal, so the lists
of results have different lengths. -/

/-- Class `MultiResult`: what one client answers to a full sequence. -/
structure MultiResult (κ : Type) where
  results : List (Result κ)
  client : κ
  results_ne_nil : results ≠ []
  client_eq : ∀ r ∈ results, r.client = client

/-- `multiresults_to_results_per_seq_len`, of the lists of results. -/
def multiresultsToResultsPerSeqLen (multiresults : List (List ρ)) (maxSeqLen : Nat) :
    List (List ρ) :=
  (List.range maxSeqLen).map fun i => multiresults.filterMap fun results => results[i]?

/-- `get_results_for_seq_len`: the results at the prefix, as they are and filtered. The classes are
passed to it, but not looked at. -/
def getResultsForSeqLen (multiresults : List (MultiResult κ)) (maxSeqLen : Nat)
    (_clients : List κ) (seqLen : Nat) : Option (List (Result κ) × List (LenientResult κ)) := do
  let resultsPerSeqLen :=
    multiresultsToResultsPerSeqLen (multiresults.map MultiResult.results) maxSeqLen
  let filteredResultsPerSeqLen := multiresultsToResultsPerSeqLen
    (multiresults.map fun m => m.results.map LenientResult.ofResult) maxSeqLen
  let results ← resultsPerSeqLen[seqLen - 1]?
  let filteredResults ← filteredResultsPerSeqLen[seqLen - 1]?
  pure (results, filteredResults)

/-! ## The search

Python's dictionaries are lists here in the order in which the keys were put in. A key that is
missing makes the search `none`. -/

/-- An element of `splits`. -/
structure Split (κ : Type) where
  resultToClients : Clusters (Result κ) κ
  seqLen : Nat

/-- What the loop over the prefixes keeps. -/
structure Search (κ : Type) where
  currentClasses : List (List κ)
  splits : List (Split κ)

section Search

variable [DecidableEq κ] (hash : HashKey → Int) (arch : Arch)

/-- `result_by_client` and `filtered_result_by_client`. -/
def byClient (results : List (Result κ)) (filteredResults : List (LenientResult κ)) :
    Dict κ (Result κ) × Dict κ (LenientResult κ) :=
  (results.zip filteredResults).foldl
    (fun d p => (d.1.set p.1.client p.1, d.2.set p.1.client p.2)) (Dict.empty, Dict.empty)

omit [DecidableEq κ] in
/-- `sorted(…, key=lambda x: len(x[1]), reverse=True)`, which is stable. -/
def sortByClients (resultToClients : Clusters ρ κ) : Clusters ρ κ :=
  resultToClients.insertionSort fun p q => q.2.length ≤ p.2.length

omit [DecidableEq κ] in
/-- The classes to go further with: several clients, without a signal. -/
def newClasses (resultToClients : Clusters (Result κ) κ) : List (List κ) :=
  resultToClients.filterMap fun p =>
    if p.1.signum == 0 && decide (1 < p.2.length) then some (clientsFromClientTuples p.2) else none

/-- The body of `for clients in current_classes`; a client without a result is a `KeyError`. -/
def visitClass (seqLen : Nat) (resultByClient : Dict κ (Result κ))
    (filteredResultByClient : Dict κ (LenientResult κ)) (acc : List (Split κ) × List (List κ))
    (clients : List κ) : Option (List (Split κ) × List (List κ)) := do
  let results ← clients.mapM resultByClient.get?
  let resultToClients := sortByClients (clusterResults hash results)
  let usableClusters := clusterRemoveUnusable id resultToClients
  let splits ←
    -- the filters are only asked when the results themselves differ
    if 1 < usableClusters.length then do
      let filteredResults ← clients.mapM filteredResultByClient.get?
      let filteredResultToClients := clusterRemoveUnusable LenientResult.toResult
        (clusterFilteredResults arch filteredResults)
      pure (if 1 < filteredResultToClients.length then acc.1 ++ [⟨resultToClients, seqLen⟩]
        else acc.1)
    else pure acc.1
  -- whether or not the split was recorded, the classes follow the results themselves
  pure (splits, acc.2 ++ newClasses resultToClients)

/-- The body of `for seq_len in range(1, until_seq_len+1)`. -/
def visitSeqLen
    (getResults : List κ → Nat → Option (List (Result κ) × List (LenientResult κ)))
    (s : Search κ) (seqLen : Nat) : Option (Search κ) := do
  let (results, filteredResults) ← getResults s.currentClasses.flatten seqLen
  let (resultByClient, filteredResultByClient) := byClient results filteredResults
  let (splits, newClasses) ← s.currentClasses.foldlM
    (visitClass hash arch seqLen resultByClient filteredResultByClient) (s.splits, [])
  pure ⟨newClasses, splits⟩

/-- The loop, from `seqLen` on for at most `n` rounds; it breaks when no class is left. -/
def search (getResults : List κ → Nat → Option (List (Result κ) × List (LenientResult κ))) :
    (n seqLen : Nat) → Search κ → Option (Search κ)
  | 0, _, s => some s
  | n + 1, seqLen, s => do
      let s ← visitSeqLen hash arch getResults s seqLen
      if s.currentClasses.length = 0 then pure s else search getResults n (seqLen + 1) s

/-- `find_minimal_diff_tree`. -/
def findMinimalDiffTree (untilSeqLen : Nat)
    (getResults : List κ → Nat → Option (List (Result κ) × List (LenientResult κ)))
    (clients : List κ) : Option (List (Split κ)) :=
  (search hash arch getResults untilSeqLen 1 ⟨[clients], []⟩).map Search.splits

/-- The states of the loop: `Iteration … n s` when `s` is the state after `n` rounds. -/
inductive Iteration (untilSeqLen : Nat)
    (getResults : List κ → Nat → Option (List (Result κ) × List (LenientResult κ)))
    (clients : List κ) : Nat → Search κ → Prop where
  | start : Iteration untilSeqLen getResults clients 0 ⟨[clients], []⟩
  | next {n : Nat} {s s' : Search κ} (h : Iteration untilSeqLen getResults clients n s)
      (hn : n < untilSeqLen) (hclasses : s.currentClasses.length ≠ 0)
      (hvisit : visitSeqLen hash arch getResults s (n + 1) = some s') :
      Iteration untilSeqLen getResults clients (n + 1) s'

end Search

/-! ## What the runner produces

`FromRunner` says what is known of the results of one client: all but the last have no signal, and
the last one has one if prefixes are missing. -/

namespace MultiResult

/-- The result at prefix `n`. Past its end a sequence stays where it stopped. -/
def resultAt (n : Nat) (m : MultiResult κ) : Result κ :=
  m.results.getD n (m.results.getLast m.results_ne_nil)

/-- The shape of what `run_with_instr_seq_full_seq` leaves: only the last result may have a signal,
and it has one when the sequence was not run to its end. -/
structure FromRunner (c : Config) (seqLen : Nat) (m : MultiResult κ) : Prop where
  length_le : m.results.length ≤ seqLen
  signum_init : ∀ r ∈ m.results.dropLast, r.signum = 0
  signum_last : m.results.length < seqLen → (m.results.getLast m.results_ne_nil).signum ≠ 0
  ofConfig : ∀ r ∈ m.results, r.OfConfig c

/-- The clients are different, and all answered a sequence of this length. -/
structure Family (c : Config) (seqLen : Nat) (ms : List (MultiResult κ)) : Prop where
  fromRunner : ∀ m ∈ ms, m.FromRunner c seqLen
  clients_nodup : (ms.map client).Nodup

theorem resultAt_of_getElem? {n : Nat} {m : MultiResult κ} {r : Result κ}
    (h : m.results[n]? = some r) : m.resultAt n = r := by
  rw [resultAt, List.getD_eq_getElem?_getD, h]
  rfl

theorem getElem?_of_lt {n : Nat} {m : MultiResult κ} (h : n < m.results.length) :
    m.results[n]? = some (m.resultAt n) := by
  rw [resultAt, List.getD_eq_getElem?_getD, List.getElem?_eq_getElem h]
  rfl

theorem resultAt_mem (n : Nat) (m : MultiResult κ) : m.resultAt n ∈ m.results := by
  by_cases h : n < m.results.length
  · exact List.mem_of_getElem? (getElem?_of_lt h)
  · rw [resultAt, List.getD_eq_getElem?_getD, List.getElem?_eq_none (Nat.not_lt.mp h)]
    exact List.getLast_mem m.results_ne_nil

@[simp] theorem client_resultAt (n : Nat) (m : MultiResult κ) : (m.resultAt n).client = m.client :=
  m.client_eq _ (m.resultAt_mem n)

/-- A client that went on in all earlier rounds has a result in this one. -/
theorem FromRunner.lt_length {seqLen : Nat} {m : MultiResult κ} (h : m.FromRunner c seqLen)
    {n : Nat} (hn : n < seqLen) (hgo : ∀ i < n, (m.resultAt i).signum = 0) :
    n < m.results.length := by
  have hpos := List.length_pos_iff.mpr m.results_ne_nil
  by_contra hle
  have hlast := h.signum_last (by omega)
  have hstop := hgo (m.results.length - 1) (by omega)
  rw [resultAt_of_getElem? (List.getLast?_eq_getElem? ▸
    List.getLast?_eq_some_getLast m.results_ne_nil)] at hstop
  exact hlast hstop

end MultiResult

/-- The loop of `run_with_instr_seq_full_seq`, `left` instructions before its end: `run n` is the
result of the first `n` instructions. -/
def runPrefixes (run : Nat → CResult c) : (left n : Nat) → List (CResult c)
  | 0, _ => []
  | left + 1, n =>
      let r := run (n + 1)
      if r.signum ≠ 0 then [r] else r :: runPrefixes run left (n + 1)

/-- `run_with_instr_seq_full_seq`. -/
def runWithInstrSeqFullSeq (run : Nat → CResult c) (l : Nat) : List (CResult c) :=
  runPrefixes run l 0

theorem runPrefixes_shape (run : Nat → CResult c) : ∀ left n,
    (runPrefixes run left n).length ≤ left ∧
      (∀ r ∈ (runPrefixes run left n).dropLast, r.signum = 0) ∧
      ((runPrefixes run left n).length < left →
        ∀ r ∈ (runPrefixes run left n).getLast?, r.signum ≠ 0) := by
  intro left
  induction left with
  | zero => intro n; simp [runPrefixes]
  | succ left ih =>
      intro n
      obtain ⟨hlen, hinit, hlast⟩ := ih (n + 1)
      rw [runPrefixes]
      -- a signal ends the loop
      by_cases hstop : (run (n + 1)).signum ≠ 0
      · rw [if_pos hstop]
        simp [hstop]
      · rw [if_neg hstop]
        have hzero : (run (n + 1)).signum = 0 := not_not.mp hstop
        refine ⟨Nat.succ_le_succ hlen, fun r hr => ?_, fun hlt r hr => ?_⟩
        · rcases hrest : runPrefixes run left (n + 1) with _ | ⟨x, rest⟩
          · rw [hrest] at hr
            cases hr
          · rw [hrest, List.dropLast_cons_of_ne_nil (List.cons_ne_nil x rest), ← hrest] at hr
            exact (List.mem_cons.mp hr).elim (fun heq => heq ▸ hzero) (hinit r)
        · have hlt' : (runPrefixes run left (n + 1)).length < left := Nat.lt_of_succ_lt_succ hlt
          rcases hrest : runPrefixes run left (n + 1) with _ | ⟨x, rest⟩
          · -- nothing left to run: then nothing was cut off
            cases left with
            | zero => exact absurd hlt' (Nat.not_lt_zero _)
            | succ left =>
                rw [runPrefixes] at hrest
                split at hrest <;> cases hrest
          · rw [hrest, List.getLast?_cons_cons, ← hrest] at hr
            exact hlast hlt' r hr

namespace MultiResult

/-- The answer of a client to a full sequence, as the server parses it. -/
def ofRuns (before : Regs c) (client : κ) (runs : List (CResult c)) (h : runs ≠ []) :
    MultiResult κ where
  results := runs.map fun r => r.decoded before client
  client := client
  results_ne_nil := by simpa using h
  client_eq := by
    intro r hr
    obtain ⟨s, -, rfl⟩ := List.mem_map.mp hr
    rfl

theorem decoded_ofConfig (before : Regs c) (client : κ) {r : CResult c} (h : r.FromRunner) :
    (r.decoded before client).OfConfig c where
  memDiffs_isSome := by
    rw [CResult.decoded]
    cases c.CHECK_MEM <;> rfl
  si_zero := by
    intro hzero
    obtain ⟨haddr, hpc, hcode⟩ := h.si_zero (intBits_eq_zero.mp hzero)
    simp only [CResult.decoded, haddr, hpc, hcode]
    exact ⟨rfl, rfl, rfl⟩

/-- What the runner answers has the shape that the search relies on. -/
theorem fromRunner_ofRuns (before : Regs c) (client : κ) (run : Nat → CResult c) (l : Nat)
    (hrun : ∀ n, (run n).FromRunner) (h : runWithInstrSeqFullSeq run l ≠ []) :
    (ofRuns before client (runWithInstrSeqFullSeq run l) h).FromRunner c l := by
  obtain ⟨hlen, hinit, hlast⟩ := runPrefixes_shape run l 0
  constructor
  case length_le =>
    rw [ofRuns, List.length_map]
    exact hlen
  case signum_init =>
    intro r hr
    rw [ofRuns, ← List.map_dropLast] at hr
    obtain ⟨s, hs, rfl⟩ := List.mem_map.mp hr
    exact intBits_eq_zero.mpr (hinit s hs)
  case signum_last =>
    intro hlt hzero
    simp only [ofRuns, List.length_map, List.getLast_map] at hlt hzero
    exact hlast hlt _ (List.getLast?_eq_some_getLast h) (intBits_eq_zero.mp hzero)
  case ofConfig =>
    intro r hr
    obtain ⟨s, hs, rfl⟩ := List.mem_map.mp hr
    -- every result in the list is one of a run
    have hmem : ∀ left n, ∀ r ∈ runPrefixes run left n, r.FromRunner := by
      intro left
      induction left with
      | zero => intro n r hr; cases hr
      | succ left ih =>
          intro n r hr
          rw [runPrefixes] at hr
          split at hr
          next => exact List.mem_singleton.mp hr ▸ hrun _
          next => exact (List.mem_cons.mp hr).elim (fun heq => heq ▸ hrun _) (ih (n + 1) r)
    exact decoded_ofConfig before client (hmem l 0 s hs)

end MultiResult

end RISCover
