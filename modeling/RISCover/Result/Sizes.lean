import Mathlib.Algebra.Order.BigOperators.Group.List
import Mathlib.Data.Nat.Cast.Basic
import RISCover.Diff.Tree
import RISCover.Repro.Load
import RISCover.Result.RoundTrip

/-!
# How large the results of a sequence become

What the runner promises about one run is little: without a signal the scrap register is put back,
and memory changes in pages that were mapped for the run. Everything else is up to the processor, so
the largest result of a build has all other registers changed and all slots of `mem_changes` used.
`bodies_fit_iff` compares the results of all prefixes of a sequence with the `uint16` in front of
them.
-/

open Bytes

namespace RISCover

/-! ## The runner

The loop over the prefixes of a sequence. What an execution does is a parameter with the promises of
the runner. -/

/-- The index of `x29`, which the runner uses itself. -/
def Arch.scrapIndex : Arch → Nat
  | .riscv64 => 28
  | .aarch64 => 29

theorem RegConfig.scrapIndex_lt (c : RegConfig) : c.arch.scrapIndex < c.count .gp := by
  unfold RegConfig.count Arch.scrapIndex
  cases c.arch with
  | riscv64 => show 28 < 31; omega
  | aarch64 => show 29 < 32; omega

/-- The scrap register. -/
def RegConfig.scrap (c : RegConfig) : Reg c := ⟨.gp, ⟨c.arch.scrapIndex, c.scrapIndex_lt⟩⟩

/-- What `run_with_instr_seq` makes sure of, whatever the instructions do. -/
structure RunResult (b : Build) (regsBefore : Regs b.toRegConfig) (r : CResult b.toConfig) :
    Prop where
  fromRunner : r.FromRunner
  /-- Changes to the scrap register are ignored. -/
  scrap : r.signum = 0 → b.scrap.val r.regsResult = b.scrap.val regsBefore
  /-- Only automatically mapped pages are compared, and a range has at least one byte. -/
  mapped : ∀ m ∈ r.memChanges, b.CHECK_MEM = true ∧ b.AUTO_MAP_MEM = true ∧ 0 < m.n.toNat

/-- The runs of the prefixes of a sequence, each from the same registers. -/
structure Runs (b : Build) (regsBefore : Regs b.toRegConfig) where
  exec : Nat → CResult b.toConfig
  exec_result : ∀ n, RunResult b regsBefore (exec n)

section runner

variable {b : Build} {regsBefore : Regs b.toRegConfig}

/-- `run_with_instr_seq` of the first `n` instructions; `none` is the exit for a sequence that is
too long. -/
def Runs.runWithInstrSeq (runs : Runs b regsBefore) (n : Nat) : Option (CResult b.toConfig) :=
  if b.MAX_SEQ_LEN < n then none else some (runs.exec n)

/-- The loop of `run_with_instr_seq_full_seq` behind its first `n` rounds. -/
def Runs.fullSeqLoop (runs : Runs b regsBefore) :
    (rounds n : Nat) → Option (List (CResult b.toConfig))
  | 0, _ => some []
  | rounds + 1, n => do
    let r ← runs.runWithInstrSeq (n + 1)
    if r.signum ≠ 0 then pure [r]
    else do
      let results ← runs.fullSeqLoop rounds (n + 1)
      pure (r :: results)

/-- `run_with_instr_seq_full_seq`: the results that it filled in. -/
def Runs.runWithInstrSeqFullSeq (runs : Runs b regsBefore) (l : Nat) :
    Option (List (CResult b.toConfig)) :=
  runs.fullSeqLoop l 0

/-- The runner does not exit over a sequence that is short enough, and these are the results the
search for differences starts from. -/
theorem Runs.fullSeqLoop_eq_some (runs : Runs b regsBefore) (rounds : Nat) : ∀ n,
    n + rounds ≤ b.MAX_SEQ_LEN →
      runs.fullSeqLoop rounds n = some (runPrefixes runs.exec rounds n) := by
  induction rounds with
  | zero => exact fun n _ => rfl
  | succ rounds ih =>
      intro n hn
      have hgo : ¬b.MAX_SEQ_LEN < n + 1 := by omega
      rw [Runs.fullSeqLoop, Runs.runWithInstrSeq, if_neg hgo, runPrefixes]
      show (if _ then _ else _) = _
      split
      next hsignal => rfl
      next hquiet =>
        rw [ih (n + 1) (by omega)]
        rfl

end runner

/-! ## Sizes

The number of bytes of each part, as it is packed. -/

/-- Bytes of the `META` section. -/
def metaBytes (c : Config) : Nat :=
  if c.META then
    match c.arch with
    | .riscv64 => 4
    | .aarch64 => 2
  else 0

/-- Bytes of a register in a result. -/
def Reg.packedBytes {c : RegConfig} (r : Reg c) : Nat := 1 + r.1.size

/-- Bytes of some registers in a result. -/
def packedBytes {c : RegConfig} (regs : List (Reg c)) : Nat := (regs.map Reg.packedBytes).sum

/-- Bytes of the `CHECK_MEM` section. -/
def memBytes (c : Config) (changes : List MemChange) : Nat :=
  if c.CHECK_MEM then 1 + (changes.map fun m => 16 + m.nCap).sum else 0

/-- Bytes of a result. -/
def innerBytes {c : Config} (regsBefore : Regs c) (r : CResult c) : Nat :=
  2 + metaBytes c + packedBytes (regsDiff regsBefore r.regsResult) +
    (if r.signum ≠ 0 then 20 else 0) + memBytes c r.memChanges

section sizes

variable {c : Config}

theorem length_packReg (after : Regs c) (r : Reg c) :
    (packReg after r).length = r.packedBytes := by
  rw [packReg, List.length_cons, RegVal.length_bytes, Reg.packedBytes, Nat.add_comm]

theorem length_packMeta (m : Meta) : (packMeta c m).length = metaBytes c := by
  unfold packMeta metaBytes
  cases c.META with
  | false => rfl
  | true => cases c.arch <;> simp

theorem length_packSi (r : CResult c) : (packSi r).length = if r.signum ≠ 0 then 20 else 0 := by
  unfold packSi
  split
  next => simp
  next => rfl

theorem length_packMemChange (m : MemChange) : (packMemChange m).length = 16 + m.nCap := by
  simp only [packMemChange, List.length_append, length_leBytes, m.length_kept]
  omega

theorem length_packMemChanges (changes : List MemChange) :
    (packMemChanges c changes).length = memBytes c changes := by
  unfold packMemChanges memBytes
  cases c.CHECK_MEM with
  | false => rfl
  | true =>
      simp only [if_true, List.length_cons, List.length_flatMap, length_packMemChange]
      exact Nat.add_comm _ 1

theorem length_packInnerResult (regsBefore : Regs c) (r : CResult c) :
    (packInnerResult regsBefore r).length = innerBytes regsBefore r := by
  have hregs : ((regsDiff regsBefore r.regsResult).flatMap (packReg r.regsResult)).length =
      packedBytes (regsDiff regsBefore r.regsResult) := by
    rw [List.length_flatMap]
    exact congrArg List.sum (List.map_congr_left fun reg _ => length_packReg r.regsResult reg)
  simp only [packInnerResult, innerBytes, List.length_cons, List.length_append, hregs,
    length_packMeta, length_packSi, length_packMemChanges]
  omega

theorem length_multi (regsBefore : Regs c) (results : List (CResult c)) :
    ((Answer.multi results).body regsBefore).length =
      2 + (results.map (innerBytes regsBefore)).sum := by
  have hinner : (results.flatMap (packInnerResult regsBefore)).length =
      (results.map (innerBytes regsBefore)).sum := by
    rw [List.length_flatMap]
    exact congrArg List.sum (List.map_congr_left fun r _ => length_packInnerResult regsBefore r)
  rw [Answer.body, List.length_cons, List.length_cons, hinner]
  omega

theorem length_single (regsBefore : Regs c) (r : CResult c) :
    ((Answer.single r).body regsBefore).length = 1 + innerBytes regsBefore r := by
  rw [Answer.body, List.length_cons, length_packInnerResult]
  omega

end sizes

/-! ## The largest results

A result is large when many registers changed. Without a signal one register is put back, so it is
smaller then. -/

/-- Bytes of all registers in a result. -/
def RegConfig.regsMax (c : RegConfig) : Nat := packedBytes c.allRegs

/-- Bytes of the `CHECK_MEM` section with all slots used, if there are pages to change. -/
def Build.memMax (b : Build) : Nat :=
  if b.CHECK_MEM then
    1 + if b.AUTO_MAP_MEM then
      b.arch.CHECK_MEM_MAX_NUMBER_MEM_CHANGES * (16 + CHECK_MEM_CUT_AT) else 0
  else 0

/-- The largest result without a signal: all registers but the scrap register have changed. -/
def Build.quietMax (b : Build) : Nat :=
  2 + metaBytes b.toConfig + (b.regsMax - b.scrap.packedBytes) + b.memMax

/-- The largest result with a signal. -/
def Build.signalMax (b : Build) : Nat := 2 + metaBytes b.toConfig + b.regsMax + 20 + b.memMax

/-- The largest body for the prefixes of a sequence of `n` instructions. -/
def Build.multiMax (b : Build) (n : Nat) : Nat :=
  if n = 0 then 2 else 2 + (n - 1) * b.quietMax + b.signalMax

section bounds

variable {b : Build} {regsBefore : Regs b.toRegConfig}

theorem packedBytes_sublist {c : RegConfig} {xs ys : List (Reg c)} (h : xs.Sublist ys) :
    packedBytes xs ≤ packedBytes ys :=
  (h.map Reg.packedBytes).sum_le_sum (by simp)

theorem packedBytes_scrap_add (c : RegConfig) :
    packedBytes (c.allRegs.filter fun r => r != c.scrap) + c.scrap.packedBytes = c.regsMax := by
  have hperm : c.allRegs.Perm (c.scrap :: c.allRegs.filter fun r => r != c.scrap) := by
    have hnodup : c.allRegs.Nodup := List.Nodup.of_map _ Reg.allRegs_nodup
    rw [← List.Nodup.erase_eq_filter hnodup]
    exact List.perm_cons_erase (RegConfig.mem_allRegs c.scrap)
  have hsum := (hperm.map Reg.packedBytes).sum_eq
  rw [List.map_cons, List.sum_cons] at hsum
  rw [RegConfig.regsMax, packedBytes, packedBytes, hsum, Nat.add_comm]

theorem memBytes_le {r : CResult b.toConfig} (h : RunResult b regsBefore r) :
    memBytes b.toConfig r.memChanges ≤ b.memMax := by
  unfold memBytes Build.memMax
  by_cases hcheck : b.CHECK_MEM = true
  · rw [if_pos hcheck, if_pos hcheck]
    by_cases hauto : b.AUTO_MAP_MEM = true
    · rw [if_pos hauto]
      have hcap : ∀ m ∈ r.memChanges, 16 + m.nCap ≤ 16 + CHECK_MEM_CUT_AT := by
        intro m _
        unfold MemChange.nCap
        split <;> omega
      have hsum := List.sum_le_card_nsmul (r.memChanges.map fun m => 16 + m.nCap)
        (16 + CHECK_MEM_CUT_AT) (by simpa only [List.forall_mem_map] using hcap)
      have hmul := Nat.mul_le_mul_right (16 + CHECK_MEM_CUT_AT) r.memChanges_le
      rw [List.length_map, nsmul_eq_mul, Nat.cast_id] at hsum
      omega
    · have hnil : r.memChanges = [] := by
        rw [List.eq_nil_iff_forall_not_mem]
        exact fun m hm => hauto (h.mapped m hm).2.1
      rw [hnil]
      simp
  · rw [if_neg hcheck]
    exact Nat.zero_le _

theorem innerBytes_le_signalMax {r : CResult b.toConfig} (h : RunResult b regsBefore r) :
    innerBytes regsBefore r ≤ b.signalMax := by
  have hmem := memBytes_le h
  have hregs : packedBytes (regsDiff regsBefore r.regsResult) ≤ b.regsMax := by
    rw [regsDiff_eq]
    exact packedBytes_sublist List.filter_sublist
  have hsi : (if r.signum ≠ 0 then 20 else 0) ≤ 20 := by split <;> omega
  unfold innerBytes Build.signalMax
  omega

theorem innerBytes_le_quietMax {r : CResult b.toConfig} (h : RunResult b regsBefore r)
    (hquiet : r.signum = 0) : innerBytes regsBefore r ≤ b.quietMax := by
  have hmem := memBytes_le h
  have hscrap := packedBytes_scrap_add b.toRegConfig
  have hregs : packedBytes (regsDiff regsBefore r.regsResult) ≤
      packedBytes (b.allRegs.filter fun r => r != b.scrap) := by
    rw [regsDiff_eq]
    apply packedBytes_sublist
    apply List.monotone_filter_right
    intro reg hne
    rw [bne_iff_ne] at hne ⊢
    rintro rfl
    exact hne (h.scrap hquiet).symm
  unfold innerBytes Build.quietMax
  rw [if_neg (not_not.mpr hquiet)]
  omega

theorem quietMax_le_signalMax (b : Build) : b.quietMax ≤ b.signalMax := by
  unfold Build.quietMax Build.signalMax
  omega

/-- Round after round: all results but the last are without a signal. -/
theorem Runs.sum_fullSeqLoop_le (runs : Runs b regsBefore) (rounds : Nat) : ∀ n results,
    runs.fullSeqLoop rounds n = some results →
      2 + (results.map (innerBytes regsBefore)).sum ≤
        b.multiMax (min rounds (b.MAX_SEQ_LEN - n)) := by
  induction rounds with
  | zero =>
      intro n results h
      cases h
      simp [Build.multiMax]
  | succ rounds ih =>
      intro n results h
      simp only [Runs.fullSeqLoop, Runs.runWithInstrSeq, Option.bind_eq_bind, Option.pure_def] at h
      by_cases hn : b.MAX_SEQ_LEN < n + 1
      · rw [if_pos hn] at h
        cases h
      · rw [if_neg hn, Option.bind_some] at h
        obtain ⟨k, hk⟩ : ∃ k, min (rounds + 1) (b.MAX_SEQ_LEN - n) = k + 1 :=
          ⟨min rounds (b.MAX_SEQ_LEN - (n + 1)), by omega⟩
        have hle := quietMax_le_signalMax b
        rw [hk, Build.multiMax, if_neg (Nat.succ_ne_zero k), Nat.add_sub_cancel]
        -- a signal makes this prefix the last one
        split at h
        next hsignal =>
          obtain rfl := Option.some.inj h
          have hlast := innerBytes_le_signalMax (runs.exec_result (n + 1))
          simp only [List.map_cons, List.map_nil, List.sum_cons, List.sum_nil]
          omega
        next hquiet =>
          obtain ⟨rest, hrest, heq⟩ := Option.bind_eq_some_iff.mp h
          obtain rfl := Option.some.inj heq
          -- without a signal there may be more prefixes, but this result is one of the smaller ones
          have hfirst := innerBytes_le_quietMax (runs.exec_result (n + 1)) (not_not.mp hquiet)
          have hsum := ih (n + 1) rest hrest
          have hmin : min rounds (b.MAX_SEQ_LEN - (n + 1)) = k := by omega
          rw [hmin, Build.multiMax] at hsum
          rw [List.map_cons, List.sum_cons]
          cases k with
          | zero => simp only [if_true] at hsum; omega
          | succ k =>
              rw [if_neg (Nat.succ_ne_zero k), Nat.add_sub_cancel] at hsum
              rw [Nat.succ_mul]
              omega

end bounds

/-! ## They occur

A run that changes all registers and as much memory as is recorded. -/

/-- One more in the registers that `p` picks. -/
def Regs.bump {c : RegConfig} (regs : Regs c) (p : Reg c → Bool) : Regs c := fun k =>
  Vector.ofFn fun i =>
    let r : Reg c := ⟨k, i⟩
    if p r then r.val regs + 1 else r.val regs

theorem Reg.val_bump {c : RegConfig} (regs : Regs c) (p : Reg c → Bool) (r : Reg c) :
    r.val (regs.bump p) = if p r then r.val regs + 1 else r.val regs := by
  simp [Reg.val, Regs.bump]

theorem RegVal.ne_add_one {k : RegClass} (v : RegVal k) : v ≠ v + 1 := by
  have hone : (1 : RegVal k) ≠ 0 := by
    cases k <;> decide
  intro h
  exact hone (BitVec.add_right_eq_self.mp h.symm)

theorem regsDiff_bump {c : Config} (before : Regs c) (p : Reg c.toRegConfig → Bool) :
    regsDiff before (before.bump p) = c.allRegs.filter p := by
  rw [regsDiff_eq]
  apply List.filter_congr
  intro r _
  rw [Reg.val_bump]
  cases p r with
  | false => simp
  | true => simpa using RegVal.ne_add_one (r.val before)

/-- `n` changes of as many bytes as are kept. -/
def changedRanges (n : Nat) : List MemChange :=
  List.replicate n ⟨0, UInt32.ofNat CHECK_MEM_CUT_AT, Vector.replicate _ 0, 0⟩

/-- As many changes as there can be. -/
def Build.changesMax (b : Build) : List MemChange :=
  changedRanges
    (if b.CHECK_MEM && b.AUTO_MAP_MEM then b.arch.CHECK_MEM_MAX_NUMBER_MEM_CHANGES else 0)

/-- A result with the registers changed that `p` picks and with all slots of `mem_changes` used. -/
def Build.changed (b : Build) (before : Regs b.toRegConfig) (signum : Int32)
    (p : Reg b.toRegConfig → Bool) : CResult b.toConfig where
  signum := signum
  siAddrr := 0
  siPc := 0
  siCode := 0
  regsResult := before.bump p
  counters := ⟨0, 0⟩
  memChanges := b.changesMax
  memChanges_le := by
    rw [Build.changesMax, changedRanges, List.length_replicate]
    split <;> omega

/-- All registers but the scrap register. -/
def notScrap (c : RegConfig) (r : Reg c) : Bool := r != c.scrap

/-- The largest result, with the signal of an illegal instruction or without one. -/
def Build.largest (b : Build) (before : Regs b.toRegConfig) (signal : Bool) :
    CResult b.toConfig :=
  if signal then b.changed before (Int32.ofNat SIGILL) fun _ => true
  else b.changed before 0 (notScrap b.toRegConfig)

section largest

variable {b : Build} (before : Regs b.toRegConfig)

theorem memBytes_changesMax (b : Build) : memBytes b.toConfig b.changesMax = b.memMax := by
  have hcap : MemChange.nCap ⟨0, UInt32.ofNat CHECK_MEM_CUT_AT, Vector.replicate _ 0, 0⟩ =
      CHECK_MEM_CUT_AT := rfl
  unfold memBytes Build.memMax Build.changesMax changedRanges
  rw [List.map_replicate, List.sum_replicate, hcap, nsmul_eq_mul, Nat.cast_id]
  cases b.CHECK_MEM <;> cases b.AUTO_MAP_MEM <;> simp

theorem innerBytes_changed (signum : Int32) (p : Reg b.toRegConfig → Bool) :
    innerBytes before (b.changed before signum p) =
      2 + metaBytes b.toConfig + packedBytes (b.allRegs.filter p) +
        (if signum ≠ 0 then 20 else 0) + b.memMax := by
  unfold innerBytes
  rw [← memBytes_changesMax, ← regsDiff_bump before]
  rfl

theorem innerBytes_largest (signal : Bool) :
    innerBytes before (b.largest before signal) =
      if signal then b.signalMax else b.quietMax := by
  cases signal with
  | true =>
      show innerBytes _ (b.changed before (Int32.ofNat SIGILL) fun _ => true) = b.signalMax
      rw [innerBytes_changed, if_pos (by decide), List.filter_true]
      rfl
  | false =>
      show innerBytes _ (b.changed before 0 (notScrap b.toRegConfig)) = b.quietMax
      have hscrap := packedBytes_scrap_add b.toRegConfig
      rw [innerBytes_changed, if_neg (by simp), Build.quietMax]
      unfold notScrap
      omega

theorem runResult_changed {signum : Int32} {p : Reg b.toRegConfig → Bool}
    (hsignum : 0 ≤ signum.toInt ∧ signum.toInt < 256) (hp : signum = 0 → p b.scrap = false) :
    RunResult b before (b.changed before signum p) where
  fromRunner := ⟨hsignum.1, hsignum.2, fun _ => ⟨rfl, rfl, rfl⟩⟩
  scrap := by
    intro hzero
    rw [Build.changed, Reg.val_bump, hp hzero]
    rfl
  mapped := by
    intro m hm
    obtain ⟨hn, rfl⟩ := List.mem_replicate.mp hm
    simp only [ne_eq, ite_eq_right_iff, Bool.and_eq_true, not_forall] at hn
    obtain ⟨⟨hcheck, hauto⟩, -⟩ := hn
    exact ⟨hcheck, hauto, by decide⟩

theorem runResult_largest (signal : Bool) :
    RunResult b before (b.largest before signal) := by
  cases signal with
  | true => exact runResult_changed before (by decide) (by decide)
  | false => exact runResult_changed before (by decide) fun _ => by simp [notScrap]

theorem largest_signum (signal : Bool) : (b.largest before signal).signum ≠ 0 ↔ signal = true := by
  cases signal with
  | true => simp [Build.largest, Build.changed, SIGILL]
  | false => simp [Build.largest, Build.changed]

end largest

/-! ## All prefixes of a sequence

The answer to a whole sequence has a result for each prefix, the last of which may have a signal. -/

section loop

variable {b : Build} {regsBefore : Regs b.toRegConfig}

/-- Prefixes without a signal up to `l` instructions; the loop ends there, or the signal ends it. -/
theorem Runs.fullSeqLoop_eq (runs : Runs b regsBefore) {l : Nat} (hmax : l ≤ b.MAX_SEQ_LEN)
    (hquiet : ∀ k < l, (runs.exec k).signum = 0) (rounds : Nat) : ∀ n < l, l ≤ n + rounds →
    ((runs.exec l).signum ≠ 0 ∨ l = n + rounds) →
      runs.fullSeqLoop rounds n = some ((List.range' (n + 1) (l - n)).map runs.exec) := by
  induction rounds with
  | zero => intro n hn hl; omega
  | succ rounds ih =>
      intro n hn hl hend
      rw [Runs.fullSeqLoop, Runs.runWithInstrSeq, if_neg (by omega)]
      simp only [Option.bind_eq_bind, Option.bind_some, Option.pure_def]
      obtain rfl | hlt : n + 1 = l ∨ n + 1 < l := by omega
      · -- the last round
        rw [show n + 1 - n = 1 by omega, List.range'_one, List.map_singleton]
        by_cases hsignal : (runs.exec (n + 1)).signum = 0
        · have hrounds : rounds = 0 := by
            rcases hend with h | h
            · exact absurd hsignal h
            · omega
          rw [if_neg (not_not.mpr hsignal), hrounds]
          rfl
        · rw [if_pos hsignal]
      · rw [if_neg (not_not.mpr (hquiet (n + 1) hlt)),
          ih (n + 1) hlt (by omega) (hend.imp_right (by omega))]
        rw [show l - n = l - (n + 1) + 1 by omega, List.range'_succ, List.map_cons]
        rfl

/-- The largest results: a signal in the `l`-th prefix, none before. -/
def Build.largestRuns (b : Build) (before : Regs b.toRegConfig) (l : Nat) : Runs b before where
  exec n := b.largest before (n == l)
  exec_result n := runResult_largest before (n == l)

theorem sum_largestRuns (before : Regs b.toRegConfig) (l : Nat) :
    ((List.range' 1 (l + 1)).map fun n =>
        innerBytes before ((b.largestRuns before (l + 1)).exec n)).sum =
      l * b.quietMax + b.signalMax := by
  have hquiet : ((List.range' 1 l).map fun n =>
      innerBytes before ((b.largestRuns before (l + 1)).exec n)) =
        List.replicate l b.quietMax := by
    rw [List.map_congr_left (g := fun _ => b.quietMax), List.map_const', List.length_range']
    intro n hn
    have hlt := (List.mem_range'_1.mp hn).2
    have hne : (n == l + 1) = false := beq_false_of_ne (by omega)
    show innerBytes _ (b.largest before (n == l + 1)) = b.quietMax
    rw [hne, innerBytes_largest]
    rfl
  have hlast : innerBytes before ((b.largestRuns before (l + 1)).exec (1 + l)) =
      b.signalMax := by
    show innerBytes _ (b.largest before (1 + l == l + 1)) = b.signalMax
    rw [Nat.add_comm 1 l, beq_self_eq_true, innerBytes_largest]
    rfl
  rw [List.range'_1_concat, List.map_append, List.sum_append, hquiet, List.sum_replicate,
    nsmul_eq_mul, Nat.cast_id, List.map_singleton, List.sum_singleton, hlast]

/-- The largest family of results is one that the runner may produce, whatever the registers. -/
theorem exists_multiMax (before : Regs b.toRegConfig) {seqLen : Nat}
    (hpos : 0 < min seqLen b.MAX_SEQ_LEN) :
    ∃ runs : Runs b before, ∃ results, runs.runWithInstrSeqFullSeq seqLen = some results ∧
      ((Answer.multi results).body before).length =
        b.multiMax (min seqLen b.MAX_SEQ_LEN) := by
  obtain ⟨l, hl⟩ : ∃ l, min seqLen b.MAX_SEQ_LEN = l + 1 :=
    ⟨min seqLen b.MAX_SEQ_LEN - 1, by omega⟩
  refine ⟨b.largestRuns before (l + 1),
    (List.range' 1 (l + 1)).map (b.largestRuns before (l + 1)).exec, ?_, ?_⟩
  · have hquiet : ∀ k < l + 1, ((b.largestRuns before (l + 1)).exec k).signum = 0 := by
      intro k hk
      by_contra hne
      have heq := (largest_signum before _).mp hne
      rw [beq_iff_eq] at heq
      omega
    have hsignal : ((b.largestRuns before (l + 1)).exec (l + 1)).signum ≠ 0 :=
      (largest_signum before _).mpr (beq_self_eq_true _)
    exact Runs.fullSeqLoop_eq _ (by omega) hquiet seqLen 0 (by omega) (by omega) (.inl hsignal)
  · rw [length_multi, List.map_map]
    show 2 + ((List.range' 1 (l + 1)).map fun n =>
      innerBytes before ((b.largestRuns before (l + 1)).exec n)).sum = _
    rw [sum_largestRuns, hl, Build.multiMax, if_neg (Nat.succ_ne_zero l), Nat.add_sub_cancel]
    omega

theorem packResults_isSome_iff {c : Config} (before : Regs c) (results : List (CResult c)) :
    (packResults before results).isSome = true ↔
      ((Answer.multi results).body before).length ≤ 0xffff := by
  show (packFrame ((Answer.multi results).body before)).isSome = true ↔ _
  unfold packFrame
  split
  next hle => exact iff_of_true rfl hle
  next hlt => exact iff_of_false Bool.false_ne_true hlt

/-- The assertion of `pack_results` holds for all results of a sequence of `seqLen` instructions. -/
def Build.BodiesFit (b : Build) (seqLen : Nat) : Prop :=
  ∀ (regsBefore : Regs b.toRegConfig) (runs : Runs b regsBefore) results,
    runs.runWithInstrSeqFullSeq seqLen = some results →
      (packResults regsBefore results).isSome = true

/-- A body fits its length field exactly when the largest one does. -/
theorem bodies_fit_iff (b : Build) (seqLen : Nat) :
    b.BodiesFit seqLen ↔ b.multiMax (min seqLen b.MAX_SEQ_LEN) ≤ 0xffff := by
  constructor
  · intro h
    rcases Nat.eq_zero_or_pos (min seqLen b.MAX_SEQ_LEN) with hzero | hpos
    · rw [hzero]
      show 2 ≤ 0xffff
      omega
    · obtain ⟨runs, results, hruns, hlength⟩ := exists_multiMax (Regs.fill _ 0) hpos
      rw [← hlength]
      exact (packResults_isSome_iff _ results).mp (h _ runs results hruns)
  · intro h regsBefore runs results hruns
    have hsum := runs.sum_fullSeqLoop_le seqLen 0 results hruns
    rw [packResults_isSome_iff, length_multi]
    rw [Nat.sub_zero] at hsum
    exact hsum.trans h

end loop

/-- What the rounds behind the first `k` add to a sum. -/
theorem mul_le_sum_range' (f : Nat → Nat) {q : Nat} (k l : Nat) (h : ∀ n, k + 1 ≤ n → q ≤ f n) :
    l * q ≤ ((List.range' 1 (k + l)).map f).sum := by
  have hlate := List.card_nsmul_le_sum ((List.range' (1 + k) l).map f) q (by
    intro x hx
    obtain ⟨n, hn, rfl⟩ := List.mem_map.mp hx
    have hle := (List.mem_range'_1.mp hn).1
    exact h n (by omega))
  rw [List.length_map, List.length_range', nsmul_eq_mul, Nat.cast_id] at hlate
  rw [← List.range'_append_1, List.map_append, List.sum_append]
  omega

/-- Floats and vectors, and room for long sequences. -/
def longBuild : Build where
  arch := .riscv64
  FLOATS := true
  VECTOR := true
  admitted := buildAdmits_vector
  META := false
  CHECK_MEM := false
  AUTO_MAP_MEM := false
  AUTO_MAP_MEM_RW_PROT := false
  MAX_SEQ_LEN := 255

-- a result can be four times as large with changes to memory, so that less than 16 prefixes fit
example :
    let b : Build := { longBuild with META := true, CHECK_MEM := true, AUTO_MAP_MEM := true }
    b.multiMax 15 ≤ 0xffff ∧ 0xffff < b.multiMax 16 := by decide +kernel

/-- The `n`-th instruction writes the register with the `n`-th ABI index; behind the last register
come instructions that change nothing. -/
def writingRuns : Runs longBuild (Regs.fill _ 0) where
  exec n := longBuild.changed (Regs.fill _ 0) 0 fun r =>
    r.abiIndex < n && notScrap longBuild.toRegConfig r
  exec_result n := runResult_changed _ (by decide) fun _ => by simp [notScrap]

theorem innerBytes_writingRuns {n : Nat} (h : 96 ≤ n) :
    innerBytes (Regs.fill _ 0) (writingRuns.exec n) = longBuild.quietMax := by
  have hindex : ∀ r ∈ longBuild.allRegs, r.abiIndex < 96 := by decide +kernel
  have hall : longBuild.allRegs.filter
      (fun r => r.abiIndex < n && notScrap longBuild.toRegConfig r) =
        longBuild.allRegs.filter (notScrap longBuild.toRegConfig) := by
    apply List.filter_congr
    intro r hr
    have hlt := hindex r hr
    rw [decide_eq_true (by omega), Bool.true_and]
  rw [writingRuns, innerBytes_changed, hall, ← innerBytes_changed (Regs.fill _ 0)]
  exact innerBytes_largest _ false

/-- The registers of 255 prefixes that write one register after the other do not fit. -/
theorem writingRuns_not_packed :
    ∃ results, writingRuns.runWithInstrSeqFullSeq 255 = some results ∧
      packResults (Regs.fill longBuild.toRegConfig 0) results = none := by
  refine ⟨(List.range' 1 255).map writingRuns.exec, ?_, ?_⟩
  · exact writingRuns.fullSeqLoop_eq (l := 255) (le_refl 255) (fun _ _ => rfl) 255 0 (by omega)
      (by omega) (.inr rfl)
  · have hsum := mul_le_sum_range' (innerBytes (Regs.fill _ 0) ∘ writingRuns.exec) 95 160
      fun n hn => (innerBytes_writingRuns hn).ge
    have hquiet : 1000 ≤ longBuild.quietMax := by decide +kernel
    rw [show 95 + 160 = 255 from rfl] at hsum
    rw [← Option.not_isSome_iff_eq_none, packResults_isSome_iff, length_multi, List.map_map]
    omega

end RISCover
