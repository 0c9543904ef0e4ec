import RISCover.Undoc.Ranges

/-!
# The workers of the scan

Every core of a group of cores of one type runs its part of all words. A worker finds the range in
which its part begins, runs the words of every other range and tells how far it is. It does not
depend on anything but the archive and its part, so it is modelled by the sequence of what it does.
-/

open RunLength

namespace RISCover

/-! ## Groups of cores

The words are dealt out to the cores of a group in equal parts, the last of which takes the rest. -/

def MAX_CPUS : Nat := 256

/-- What the scan uses of a `cpu_info`. -/
structure CpuInfo where
  processor : Nat
  midr : UInt32
  deriving DecidableEq

/-- `core_type`; `count` is the number of its `cpus`. -/
structure CoreType where
  midr : UInt32
  cpus : List CpuInfo
  cpus_ne_nil : cpus ≠ []

def CoreType.count (ct : CoreType) : Nat := ct.cpus.length

theorem CoreType.count_pos (ct : CoreType) : 0 < ct.count := List.length_pos_iff.mpr ct.cpus_ne_nil

/-- The body of the loop of `group_core_types`: the first type that matches, or a new one. -/
def fileCpu (cpu : CpuInfo) : List CoreType → List CoreType
  | [] => [⟨cpu.midr, [cpu], List.cons_ne_nil _ _⟩]
  | ct :: coreTypes =>
      if cpu.midr = ct.midr then
        ⟨ct.midr, ct.cpus ++ [cpu], List.append_ne_nil_of_left_ne_nil ct.cpus_ne_nil _⟩ :: coreTypes
      else ct :: fileCpu cpu coreTypes

/-- `group_core_types`. -/
def groupCoreTypes (cpus : List CpuInfo) : List CoreType :=
  cpus.foldl (fun coreTypes cpu => fileCpu cpu coreTypes) []

theorem flatMap_cpus_fileCpu (cpu : CpuInfo) (coreTypes : List CoreType) :
    ((fileCpu cpu coreTypes).flatMap CoreType.cpus).Perm
      (coreTypes.flatMap CoreType.cpus ++ [cpu]) := by
  induction coreTypes with
  | nil => exact List.Perm.refl _
  | cons ct coreTypes ih =>
      rw [fileCpu]
      split
      · rw [List.flatMap_cons, List.flatMap_cons, List.append_assoc, List.append_assoc]
        exact List.Perm.append_left _ List.perm_append_comm
      · rw [List.flatMap_cons, List.flatMap_cons, List.append_assoc]
        exact List.Perm.append_left _ ih

/-- Every core is in one group, once. -/
theorem flatMap_cpus_groupCoreTypes (cpus : List CpuInfo) :
    ((groupCoreTypes cpus).flatMap CoreType.cpus).Perm cpus := by
  have hloop : ∀ (cpus : List CpuInfo) (coreTypes : List CoreType),
      ((cpus.foldl (fun coreTypes cpu => fileCpu cpu coreTypes) coreTypes).flatMap
        CoreType.cpus).Perm (coreTypes.flatMap CoreType.cpus ++ cpus) := by
    intro cpus
    induction cpus with
    | nil => intro coreTypes; simp
    | cons cpu cpus ih =>
        intro coreTypes
        refine (ih (fileCpu cpu coreTypes)).trans ?_
        rw [List.append_cons]
        exact (flatMap_cpus_fileCpu cpu coreTypes).append_right cpus
  exact hloop cpus []

/-- A worker: its core and its part of the words. -/
structure Worker where
  processor : Nat
  start : Nat
  stop : Nat
  deriving DecidableEq

/-- `tmp_start` of the core with number `j` in a group of `count`. -/
def tmpStart (count j : Nat) : Nat := (WORDS + 1) / count * j

/-- `tmp_end`: the last core takes what is left. -/
def tmpEnd (count j : Nat) : Nat :=
  if j + 1 = count then WORDS else (WORDS + 1) / count * (j + 1)

/-- The workers that are forked for a group. -/
def CoreType.workers (ct : CoreType) : List Worker :=
  ct.cpus.mapIdx fun j cpu => ⟨cpu.processor, tmpStart ct.count j, tmpEnd ct.count j⟩

@[simp] theorem CoreType.length_workers (ct : CoreType) : ct.workers.length = ct.count := by
  simp [workers, count]

@[simp] theorem CoreType.map_processor_workers (ct : CoreType) :
    ct.workers.map Worker.processor = ct.cpus.map CpuInfo.processor := by
  apply List.ext_getElem
  · simp [workers]
  · intro j h₁ h₂
    simp [workers]

/-! ## What a worker does

The ranges are run lengths of known and unknown words by turns. The part of a worker may begin and
end inside a range. -/

/-- The steps of a worker that others can see: it sets `stats->progress`, or runs a word (up to ten
times, until there is no `SIGALRM`). -/
inductive Event where
  | progress (value : UInt32)
  | run (instr : Nat)
  deriving DecidableEq

/-- The words that are run. -/
def executed (events : List Event) : List Nat :=
  events.filterMap fun
    | .progress _ => none
    | .run instr => some instr

/-- `(i < end ? i : end)-start`, as it is stored into the `uint32_t`. -/
def progressAt (start stop i : Nat) : UInt32 :=
  UInt32.ofNat (if i < stop then i else stop) - UInt32.ofNat start

/-- The `while` in front: the ranges from the one on in which the part begins, where that range
begins, and whether it is undocumented. Reading behind the array is `none`. -/
def skipToStart (start : Nat) : (ranges : List Nat) → (i : Nat) → (curRangeUndef : Bool) →
    Option (List Nat × Nat × Bool)
  | [], _, _ => none
  | range :: ranges, i, curRangeUndef =>
      if i + range < start then skipToStart start ranges (i + range) (!curRangeUndef)
      else some (range :: ranges, i, curRangeUndef)

/-- The `for` over the words of a range, `left` words before its end; also the last `i`. -/
def runRange (start stop : Nat) : (left i : Nat) → List Event × Nat
  | 0, i => ([], i)
  | left + 1, i =>
      if i ≥ stop then ([], i)
      else
        let (events, i') := runRange start stop left (i + 1)
        ((if i % 2 ^ 18 = 0 then [.progress (progressAt start stop i)] else []) ++
          .run i :: events, i')

/-- What is done with the current range; also the next `i`. -/
def visitRange (start stop range i : Nat) (curRangeUndef : Bool) : List Event × Nat :=
  if curRangeUndef then
    let rangeStart := i
    let i := if i < start then start else i
    runRange start stop (rangeStart + range - i) i
  else ([], i + range)

/-- The `while` over the ranges, from the current one on. Reading behind the array is `none`. -/
def runRanges (start stop : Nat) : (ranges : List Nat) → (i : Nat) → (curRangeUndef : Bool) →
    Option (List Event)
  | [], i, _ => if i < stop then none else some []
  | range :: ranges, i, curRangeUndef =>
      if i < stop then do
        let (events, i') := visitRange start stop range i curRangeUndef
        let rest ← runRanges start stop ranges i' (!curRangeUndef)
        pure (events ++ .progress (progressAt start stop i') :: rest)
      else some []

/-- `worker`. -/
def worker (ranges : List Nat) (w : Worker) : Option (List Event) := do
  let (ranges, i, curRangeUndef) ← skipToStart w.start ranges 0 true
  runRanges w.start w.stop ranges i curRangeUndef

/-! ## The words of a worker

What is run is what is unknown between the bounds of the part. -/

@[simp] theorem executed_append (xs ys : List Event) :
    executed (xs ++ ys) = executed xs ++ executed ys := List.filterMap_append

@[simp] theorem executed_progress (value : UInt32) (events : List Event) :
    executed (.progress value :: events) = executed events := rfl

@[simp] theorem executed_run (instr : Nat) (events : List Event) :
    executed (.run instr :: events) = instr :: executed events := rfl

theorem runRange_spec (start stop left : Nat) : ∀ i,
    executed (runRange start stop left i).1 = (List.range' i left).filter (· < stop) ∧
      (runRange start stop left i).2 = if i < stop then min (i + left) stop else i := by
  induction left with
  | zero =>
      intro i
      refine ⟨rfl, ?_⟩
      simp only [runRange]
      split <;> omega
  | succ left ih =>
      intro i
      rw [runRange]
      -- the part ends inside the range
      by_cases hstop : i ≥ stop
      · rw [if_pos hstop]
        refine ⟨?_, by rw [if_neg (by omega)]⟩
        refine (List.filter_eq_nil_iff.mpr fun w hw => ?_).symm
        have hw' := List.mem_range'_1.mp hw
        simp only [decide_eq_true_eq]
        omega
      · obtain ⟨hexec, hlast⟩ := ih (i + 1)
        rw [if_neg hstop]
        constructor
        · have hprogress : executed (if i % 2 ^ 18 = 0 then
              [Event.progress (progressAt start stop i)] else []) = [] := by
            split <;> rfl
          rw [executed_append, hprogress, List.nil_append, executed_run, hexec, List.range'_succ,
            List.filter_cons, if_pos (by simpa using hstop)]
        · show (runRange start stop left (i + 1)).2 = _
          rw [hlast]
          split <;> split <;> omega

/-- A worker that is through with its part leaves the loop. -/
theorem runRanges_of_le {start stop i : Nat} (h : stop ≤ i) (ranges : List Nat) (undef : Bool) :
    runRanges start stop ranges i undef = some [] := by
  cases ranges with
  | nil => rw [runRanges, if_neg (Nat.not_lt.mpr h)]
  | cons range ranges => rw [runRanges, if_neg (Nat.not_lt.mpr h)]

theorem runRanges_cons {start stop i : Nat} (h : i < stop) (range : Nat) (ranges : List Nat)
    (undef : Bool) :
    runRanges start stop (range :: ranges) i undef =
      (runRanges start stop ranges (visitRange start stop range i undef).2 (!undef)).map fun rest =>
        (visitRange start stop range i undef).1 ++
          .progress (progressAt start stop (visitRange start stop range i undef).2) :: rest := by
  rw [runRanges, if_pos h, Option.map_eq_bind]
  rfl

/-- The words of an undocumented range are run from the beginning of the part on. -/
theorem visitRange_true (start stop range i : Nat) :
    visitRange start stop range i true =
      runRange start stop (i + range - max i start) (max i start) := by
  have hmax : (if i < start then start else i) = max i start := by
    split <;> omega
  simp only [visitRange, if_true, hmax]

/-- A range either ends before the part does, or the part ends in it. -/
theorem visitRange_snd {start stop range i : Nat} (h : i < stop) (hstart : start ≤ i + range)
    (undef : Bool) :
    (visitRange start stop range i undef).2 = i + range ∨
      (stop ≤ (visitRange start stop range i undef).2 ∧ (stop ≤ i + range ∨ stop ≤ start)) := by
  cases undef with
  | false => exact Or.inl rfl
  | true =>
      have hlast := (runRange_spec start stop (i + range - max i start) (max i start)).2
      rw [visitRange_true, hlast]
      split <;> omega

theorem executed_visitRange {start stop range i : Nat} (hstart : start ≤ i + range) (undef : Bool) :
    executed (visitRange start stop range i undef).1 =
      (if undef then List.range' i range else []).filter fun w =>
        decide (start ≤ w) && decide (w < stop) := by
  cases undef with
  | false => rfl
  | true =>
      have hexec := (runRange_spec start stop (i + range - max i start) (max i start)).1
      have hsplit : List.range' i range =
          List.range' i (max i start - i) ++
            List.range' (max i start) (i + range - max i start) := by
        have happend := List.range'_append_1 (s := i) (m := max i start - i)
          (n := i + range - max i start)
        have hi : i + (max i start - i) = max i start := by omega
        have hn : max i start - i + (i + range - max i start) = range := by omega
        rw [hi, hn] at happend
        exact happend.symm
      -- what is in front of the part
      have hfront : (List.range' i (max i start - i)).filter
          (fun w => decide (start ≤ w) && decide (w < stop)) = [] := by
        refine List.filter_eq_nil_iff.mpr fun w hw => ?_
        have hw' := List.mem_range'_1.mp hw
        simp only [Bool.and_eq_true, decide_eq_true_eq, not_and]
        omega
      rw [visitRange_true, if_pos rfl, hexec, hsplit, List.filter_append, hfront, List.nil_append]
      apply List.filter_congr
      intro w hw
      have hw' := List.mem_range'_1.mp hw
      have hge : start ≤ w := by omega
      simp [hge]

/-- The words of the ranges from `i` on that belong to the part. -/
theorem executed_runRanges (start stop : Nat) : ∀ (ranges : List Nat) (i : Nat) (undef : Bool),
    start ≤ i + ranges.headD 0 → stop ≤ i + ranges.sum →
    ∃ events, runRanges start stop ranges i undef = some events ∧
      executed events =
        (flagged ranges undef i).filter fun w => decide (start ≤ w) && decide (w < stop) := by
  intro ranges
  induction ranges with
  | nil =>
      intro i undef _ hstop
      exact ⟨[], runRanges_of_le (by simpa using hstop) _ _, rfl⟩
  | cons range ranges ih =>
      intro i undef hstart hstop
      rw [List.headD_cons] at hstart
      rw [List.sum_cons] at hstop
      by_cases hi : i < stop
      · have hrest : ∃ rest,
            runRanges start stop ranges (visitRange start stop range i undef).2 (!undef) =
              some rest ∧
            executed rest = (flagged ranges (!undef) (i + range)).filter
              fun w => decide (start ≤ w) && decide (w < stop) := by
          -- the part goes on behind the range, or it ends inside it and nothing of the others is in
          -- it
          rcases visitRange_snd hi hstart undef with hnext | ⟨hdone, hend⟩
          · rw [hnext]
            exact ih (i + range) (!undef) (by omega) (by omega)
          · refine ⟨[], runRanges_of_le hdone _ _, (List.filter_eq_nil_iff.mpr fun w hw => ?_).symm⟩
            have hw' := mem_flagged hw
            simp only [Bool.and_eq_true, decide_eq_true_eq, not_and]
            omega
        obtain ⟨rest, hsome, hexec⟩ := hrest
        refine ⟨_, by rw [runRanges_cons hi, hsome]; rfl, ?_⟩
        rw [executed_append, executed_progress, executed_visitRange hstart, hexec, flagged,
          List.filter_append]
      · refine ⟨[], runRanges_of_le (Nat.not_lt.mp hi) _ _,
          (List.filter_eq_nil_iff.mpr fun w hw => ?_).symm⟩
        have hw' := mem_flagged hw
        simp only [Bool.and_eq_true, decide_eq_true_eq, not_and]
        omega

/-- The `while` in front stops at the range in which the part begins; the words of the part come
from there on. -/
theorem skipToStart_spec {start : Nat} : ∀ (ranges : List Nat) (i : Nat) (undef : Bool),
    ranges ≠ [] → start ≤ i + ranges.sum →
    ∃ rest i' undef', skipToStart start ranges i undef = some (rest, i', undef') ∧
      start ≤ i' + rest.headD 0 ∧ i' + rest.sum = i + ranges.sum ∧
      (flagged rest undef' i').filter (fun w => decide (start ≤ w)) =
        (flagged ranges undef i).filter (fun w => decide (start ≤ w)) := by
  intro ranges
  induction ranges with
  | nil => intro i undef h; exact absurd rfl h
  | cons range ranges ih =>
      intro i undef _ hstart
      rw [List.sum_cons] at hstart
      rw [skipToStart]
      by_cases hskip : i + range < start
      · have hne : ranges ≠ [] := by
          rintro rfl
          simp at hstart
          omega
        obtain ⟨rest, i', undef', hsome, hhead, hsum, hflagged⟩ :=
          ih (i + range) (!undef) hne (by omega)
        refine ⟨rest, i', undef', by rw [if_pos hskip, hsome], hhead, ?_, ?_⟩
        · rw [hsum, List.sum_cons, Nat.add_assoc]
        · -- a range that is skipped ends in front of the part
          have hfront : (if undef then List.range' i range else []).filter
              (fun w => decide (start ≤ w)) = [] := by
            refine List.filter_eq_nil_iff.mpr fun w hw => ?_
            cases undef with
            | false => cases hw
            | true =>
                have hw' := List.mem_range'_1.mp hw
                simp only [decide_eq_true_eq]
                omega
          rw [hflagged, flagged, List.filter_append, hfront, List.nil_append]
      · refine ⟨range :: ranges, i, undef, by rw [if_neg hskip], ?_, rfl, rfl⟩
        rw [List.headD_cons]
        omega

/-- A worker runs the undocumented words of its part, and never reads behind the array. -/
theorem executed_worker {ranges : List Nat} {w : Worker} (hne : ranges ≠ [])
    (hstart : w.start ≤ ranges.sum) (hstop : w.stop ≤ ranges.sum) :
    ∃ events, worker ranges w = some events ∧
      executed events = (flagged ranges true 0).filter fun instr =>
        decide (w.start ≤ instr) && decide (instr < w.stop) := by
  obtain ⟨rest, i, undef, hskip, hhead, hsum, hflagged⟩ :=
    skipToStart_spec ranges 0 true hne (by omega : w.start ≤ 0 + ranges.sum)
  obtain ⟨events, hrun, hexec⟩ := executed_runRanges w.start w.stop rest i undef hhead (by omega)
  refine ⟨events, by rw [worker, hskip]; exact hrun, ?_⟩
  have hand : ∀ l : List Nat, (l.filter fun instr => decide (w.start ≤ instr) &&
      decide (instr < w.stop)) =
        (l.filter fun instr => decide (w.start ≤ instr)).filter fun instr =>
          decide (instr < w.stop) := by
    intro l
    rw [List.filter_filter]
    exact List.filter_congr fun instr _ => Bool.and_comm _ _
  rw [hexec, hand, hand, hflagged]

/-! ## The parts of a group

The parts follow on each other from the first word to the last, so nothing is run twice or left out.
-/

/-- The bounds between the parts. -/
def bound (count j : Nat) : Nat := if j = count then WORDS else (WORDS + 1) / count * j

theorem bound_zero {count : Nat} (h : 0 < count) : bound count 0 = 0 := by
  rw [bound, if_neg (by omega), Nat.mul_zero]

theorem bound_count (count : Nat) : bound count count = WORDS := if_pos rfl

/-- The quotient of `WORDS + 1`, not of `WORDS`: the part before the last still ends in time. -/
theorem bound_mono {count j : Nat} (h : j < count) : bound count j ≤ bound count (j + 1) := by
  have hdiv : (WORDS + 1) / count * count ≤ WORDS + 1 := Nat.div_mul_le_self _ _
  rw [bound, bound, if_neg (by omega)]
  split
  next hlast =>
    have hcount : (WORDS + 1) / count * j + (WORDS + 1) / count = (WORDS + 1) / count * count := by
      rw [← hlast, Nat.mul_succ]
    rcases Nat.eq_zero_or_pos ((WORDS + 1) / count) with hzero | hpos
    · rw [hzero, Nat.zero_mul]
      exact Nat.zero_le _
    · omega
  next => exact Nat.mul_le_mul_left _ (Nat.le_succ j)

theorem tmpStart_eq {count j : Nat} (h : j < count) : tmpStart count j = bound count j := by
  rw [tmpStart, bound, if_neg (by omega)]

/-- The parts of the workers of a group. -/
theorem CoreType.workers_parts (ct : CoreType) :
    (ct.workers.map fun w => (w.start, w.stop)) =
      (List.range ct.count).map fun j => (bound ct.count j, bound ct.count (j + 1)) := by
  apply List.ext_getElem
  · simp [workers, count]
  · intro j h₁ h₂
    have hj : j < ct.count := by simpa using h₂
    simp [workers, tmpStart_eq hj, tmpEnd, bound]

theorem bound_le_words {count : Nat} : ∀ j ≤ count, bound count j ≤ WORDS := by
  intro j hj
  have hchain : ∀ k, j + k ≤ count → bound count j ≤ bound count (j + k) := by
    intro k
    induction k with
    | zero => intro _; exact Nat.le_refl _
    | succ k ih => intro hk; exact (ih (by omega)).trans (bound_mono (by omega))
  have hlast := hchain (count - j) (by omega)
  rwa [Nat.add_sub_of_le hj, bound_count] at hlast

/-- A worker has one of the parts. -/
theorem CoreType.exists_part {ct : CoreType} {w : Worker} (hw : w ∈ ct.workers) :
    ∃ j < ct.count, bound ct.count j = w.start ∧ bound ct.count (j + 1) = w.stop := by
  have hmem : (w.start, w.stop) ∈ ct.workers.map fun w => (w.start, w.stop) :=
    List.mem_map_of_mem hw
  rw [ct.workers_parts, List.mem_map] at hmem
  obtain ⟨j, hj, heq⟩ := hmem
  exact ⟨j, List.mem_range.mp hj, Prod.mk.inj heq⟩

theorem CoreType.start_le_stop {ct : CoreType} {w : Worker} (hw : w ∈ ct.workers) :
    w.start ≤ w.stop ∧ w.stop ≤ WORDS := by
  obtain ⟨j, hj, hstart, hstop⟩ := CoreType.exists_part hw
  rw [← hstart, ← hstop]
  exact ⟨bound_mono hj, bound_le_words _ hj⟩

/-- What the workers of a group run, one after the other. -/
def CoreType.executed (ct : CoreType) (ranges : List Nat) : List Nat :=
  ct.workers.flatMap fun w => RISCover.executed ((worker ranges w).getD [])

/-- The workers of a group together run the words of the flagged ranges, each of them once. -/
theorem CoreType.executed_eq (ct : CoreType) {ranges : List Nat} {p : Nat → Bool}
    (hsum : ranges.sum = WORDS) (halt : Alternates p ranges true 0) :
    (∀ w ∈ ct.workers, (worker ranges w).isSome) ∧
      ct.executed ranges = (List.range WORDS).filter p := by
  have hne : ranges ≠ [] := by
    rintro rfl
    exact absurd hsum (by decide)
  -- a worker runs the unknown words of its part
  have hone : ∀ w ∈ ct.workers, ∃ events, worker ranges w = some events ∧
      RISCover.executed events = (List.range' w.start (w.stop - w.start)).filter p := by
    intro w hw
    obtain ⟨hle, hstop⟩ := ct.start_le_stop hw
    obtain ⟨events, hsome, hexec⟩ :=
      executed_worker hne (by omega : w.start ≤ ranges.sum) (by omega)
    refine ⟨events, hsome, ?_⟩
    rw [hexec, halt.flagged_eq, hsum, ← List.range_eq_range', List.filter_comm,
      filter_range_between hle hstop]
  refine ⟨fun w hw => ?_, ?_⟩
  · obtain ⟨events, hsome, -⟩ := hone w hw
    rw [hsome]
    rfl
  · have hparts := (flatMap_range'_parts (b := bound ct.count) ct.count
      fun j hj => bound_mono hj).1
    calc ct.executed ranges
        = ct.workers.flatMap fun w => (List.range' w.start (w.stop - w.start)).filter p := by
          refine List.flatMap_congr fun w hw => ?_
          obtain ⟨events, hsome, hexec⟩ := hone w hw
          rw [hsome, Option.getD_some, hexec]
      _ = (ct.workers.map fun w => (w.start, w.stop)).flatMap
            fun part => (List.range' part.1 (part.2 - part.1)).filter p := by
          rw [List.flatMap_map]
      _ = ((List.range ct.count).flatMap fun j =>
            List.range' (bound ct.count j)
              (bound ct.count (j + 1) - bound ct.count j)).filter p := by
          rw [ct.workers_parts, List.flatMap_map, List.filter_flatMap]
      _ = (List.range WORDS).filter p := by
          rw [hparts, bound_zero ct.count_pos, bound_count, Nat.sub_zero, List.range_eq_range']

/-- The archive and the division of the words fit together: every group runs every undocumented word
once and no documented one, and no worker reads behind the array of ranges. -/
theorem scan_covers (arch : Arch) (documented : Nat → Bool) (hfirst : documented 0 = false)
    (hlast : documented (WORDS - 1) = false) (hfit : RunsFit arch.byteSize documented)
    (cpus : List CpuInfo) :
    ∃ archive, listEncodingGaps arch documented = some archive ∧
      ∀ ct ∈ groupCoreTypes cpus,
        (∀ w ∈ ct.workers, (worker (loadRanges arch.byteSize archive) w).isSome) ∧
        ct.executed (loadRanges arch.byteSize archive) =
          (List.range WORDS).filter fun instr => !documented instr := by
  obtain ⟨runs, hgaps, hlt, hsum, halt⟩ := listEncodingGaps_eq hfirst hlast hfit
  have hbytes : 0 < arch.byteSize := by cases arch <;> decide
  refine ⟨_, hgaps, fun ct _ => ?_⟩
  rw [loadRanges_flatMap hbytes hlt]
  exact ct.executed_eq hsum halt

/-- Every word but 1 is undocumented, and there are two types of cores. -/
theorem scan_covers_oneDocumented :
    ∃ archive, listEncodingGaps .aarch64 (· == 1) = some archive ∧
      ∀ ct ∈ groupCoreTypes [⟨0, 1⟩, ⟨1, 2⟩, ⟨2, 1⟩],
        (∀ w ∈ ct.workers, (worker (loadRanges 4 archive) w).isSome) ∧
        ct.executed (loadRanges 4 archive) =
          (List.range WORDS).filter fun instr => !(instr == 1) := by
  refine scan_covers .aarch64 (· == 1) rfl (by decide) ?_ _
  intro a b hb hconst
  by_contra hlong
  have hwords : WORDS = 2 ^ 32 := rfl
  have hbytes : 256 ^ Arch.aarch64.byteSize = 2 ^ 32 := rfl
  rw [hbytes] at hlong
  have ha : a = 0 := by omega
  have hone := hconst 1 (by omega) (by omega)
  rw [ha] at hone
  cases hone

end RISCover
