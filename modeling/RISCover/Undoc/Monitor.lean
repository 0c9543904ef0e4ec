import Mathlib.Data.List.Nodup
import Mathlib.Logic.Relation
import RISCover.Undoc.Worker

/-!
# The parent waits for the workers

While the workers run, the parent reads their counters group by group, adds them up in 64 bits and
leaves its loop when every group has reached the number of words. The counters themselves have 32
bits. The workers and the parent take their steps in any order; the parent reads one counter at a
time.
-/

open RunLength

namespace RISCover

/-! ## The system

The workers write their counters while the parent reads them one by one, so what it adds up was
never there at one time. -/

/-- The parent within its loop. -/
structure Parent where
  /-- The groups from the current one on. -/
  coreTypes : List CoreType
  /-- The cores of the current group whose counter was not read yet. -/
  toRead : List Worker
  progress : Nat
  finishedGroups : Nat
  left : Bool

/-- The cores of the first group. -/
def firstWorkers : List CoreType → List Worker
  | [] => []
  | ct :: _ => ct.workers

/-- The beginning of a round of `while(1)`. -/
def Parent.start (coreTypes : List CoreType) : Parent :=
  ⟨coreTypes, firstWorkers coreTypes, 0, 0, false⟩

/-- One step of the parent: it reads a counter, closes a group, or ends a round. -/
def Parent.step (coreTypes : List CoreType) (stats : Nat → UInt32) (p : Parent) : Parent :=
  match p.coreTypes with
  | [] =>
      if p.finishedGroups = coreTypes.length then { p with left := true }
      else Parent.start coreTypes
  | _ :: rest =>
      match p.toRead with
      | w :: toRead => { p with toRead, progress := p.progress + (stats w.processor).toNat }
      | [] =>
          { p with
            coreTypes := rest
            toRead := firstWorkers rest
            progress := 0
            finishedGroups := if p.progress ≥ WORDS then p.finishedGroups + 1
              else p.finishedGroups }

section Step

variable (coreTypes : List CoreType) (stats : Nat → UInt32) (ct : CoreType) (rest : List CoreType)
  (w : Worker) (toRead : List Worker) (progress finishedGroups : Nat) (left : Bool)

theorem Parent.step_read :
    (⟨ct :: rest, w :: toRead, progress, finishedGroups, left⟩ : Parent).step coreTypes stats =
      ⟨ct :: rest, toRead, progress + (stats w.processor).toNat, finishedGroups, left⟩ := rfl

theorem Parent.step_close :
    (⟨ct :: rest, [], progress, finishedGroups, left⟩ : Parent).step coreTypes stats =
      ⟨rest, firstWorkers rest, 0,
        if progress ≥ WORDS then finishedGroups + 1 else finishedGroups, left⟩ := rfl

theorem Parent.step_end :
    (⟨[], toRead, progress, finishedGroups, left⟩ : Parent).step coreTypes stats =
      if finishedGroups = coreTypes.length then ⟨[], toRead, progress, finishedGroups, true⟩
      else Parent.start coreTypes := rfl

end Step

/-- What is left to do for the workers, `stats[…].progress` by processor, and the parent. -/
structure Scan where
  todo : Worker → List Event
  stats : Nat → UInt32
  parent : Parent

/-- All workers are forked, the counters are zeroed. -/
def Scan.init (coreTypes : List CoreType) (ranges : List Nat) : Scan :=
  ⟨fun w => (worker ranges w).getD [], fun _ => 0, Parent.start coreTypes⟩

/-- What an event of a worker does to its counter. -/
def Event.apply (processor : Nat) (e : Event) (stats : Nat → UInt32) : Nat → UInt32 :=
  match e with
  | .progress value => Function.update stats processor value
  | .run _ => stats

inductive Scan.Step (coreTypes : List CoreType) : Scan → Scan → Prop where
  | work {s : Scan} {ct : CoreType} {w : Worker} {e : Event} {rest : List Event}
      (hct : ct ∈ coreTypes) (hw : w ∈ ct.workers) (h : s.todo w = e :: rest) :
      Step coreTypes s
        { s with todo := Function.update s.todo w rest, stats := e.apply w.processor s.stats }
  | poll {s : Scan} (h : s.parent.left = false) :
      Step coreTypes s { s with parent := s.parent.step coreTypes s.stats }

/-- The states of the scan, over every interleaving. -/
def Scan.Reachable (coreTypes : List CoreType) (ranges : List Nat) (s : Scan) : Prop :=
  Relation.ReflTransGen (Scan.Step coreTypes) (Scan.init coreTypes ranges) s

/-- The worker has no words left to run. -/
def Scan.Finished (s : Scan) (w : Worker) : Prop := executed (s.todo w) = []

/-- The parent recognises the end: when all workers are through with everything it leaves the loop,
and it does not leave while there are words to run. -/
structure DetectsEnd (coreTypes : List CoreType) (ranges : List Nat) : Prop where
  leaves : ∀ s, Scan.Reachable coreTypes ranges s →
    (∀ ct ∈ coreTypes, ∀ w ∈ ct.workers, s.todo w = []) →
    ∃ n, ((Parent.step coreTypes s.stats)^[n] s.parent).left = true
  sound : ∀ s, Scan.Reachable coreTypes ranges s → s.parent.left = true →
    ∀ ct ∈ coreTypes, ∀ w ∈ ct.workers, s.Finished w

/-! ## What the counters say

A worker counts where it is in its part, and the whole part at its end. `Honest` says that it does
not count the whole before. -/

/-- The number of words of a part. -/
def Worker.share (w : Worker) : Nat := w.stop - w.start

/-- No counter value exceeds the share, and none reaches it before the last word was run. -/
def Honest (share : Nat) : List Event → Prop
  | [] => True
  | .progress value :: rest =>
      value.toNat ≤ share ∧ (value.toNat = share → executed rest = []) ∧ Honest share rest
  | .run _ :: rest => Honest share rest

/-- The counter after the events. -/
def lastProgress (value : UInt32) : List Event → UInt32
  | [] => value
  | .progress value :: rest => lastProgress value rest
  | .run _ :: rest => lastProgress value rest

theorem lastProgress_append (value : UInt32) (xs ys : List Event) :
    lastProgress value (xs ++ ys) = lastProgress (lastProgress value xs) ys := by
  induction xs generalizing value with
  | nil => rfl
  | cons e xs ih => cases e <;> exact ih _

/-- A share that fits 32 bits is counted without loss. -/
theorem progressAt_toNat {start stop i : Nat} (hi : start ≤ i) (hle : start ≤ stop)
    (hshare : stop - start < 2 ^ 32) :
    (progressAt start stop i).toNat = min i stop - start := by
  have hmin : (if i < stop then i else stop) = min i stop := by
    split <;> omega
  rw [progressAt, hmin, UInt32.toNat_sub, UInt32.toNat_ofNat', UInt32.toNat_ofNat']
  omega

/-- Events that stay below the share do not matter for what comes after. -/
theorem Honest.append {share : Nat} {xs ys : List Event}
    (hxs : ∀ value, Event.progress value ∈ xs → value.toNat < share) (hys : Honest share ys) :
    Honest share (xs ++ ys) := by
  induction xs with
  | nil => exact hys
  | cons e xs ih =>
      have hrest := ih fun value hv => hxs value (List.mem_cons_of_mem e hv)
      cases e with
      | run => exact hrest
      | progress value =>
          have hlt := hxs value List.mem_cons_self
          exact ⟨hlt.le, fun heq => absurd heq hlt.ne, hrest⟩

section Part

variable {start stop : Nat} (hle : start ≤ stop) (hshare : stop - start < 2 ^ 32)

include hle hshare

theorem runRange_progress_lt (left : Nat) : ∀ i, start ≤ i → ∀ value,
    Event.progress value ∈ (runRange start stop left i).1 → value.toNat < stop - start := by
  induction left with
  | zero => intro i _ value h; cases h
  | succ left ih =>
      intro i hi value h
      rw [runRange] at h
      split at h
      next => cases h
      next hlt =>
        rcases List.mem_append.mp h with h | h
        · split at h
          next =>
            obtain rfl : value = progressAt start stop i := by simpa using h
            rw [progressAt_toNat hi hle hshare]
            omega
          next => cases h
        · rcases List.mem_cons.mp h with h | h
          · cases h
          · exact ih (i + 1) (by omega) value h

theorem runRanges_honest : ∀ (ranges : List Nat) (i : Nat) (undef : Bool) (events : List Event),
    start ≤ i + ranges.headD 0 → runRanges start stop ranges i undef = some events →
      Honest (stop - start) events ∧
        (i < stop → ∀ value, (lastProgress value events).toNat = stop - start) := by
  intro ranges
  induction ranges with
  | nil =>
      intro i undef events _ h
      rw [runRanges] at h
      split at h
      next => cases h
      next hi =>
        cases h
        exact ⟨trivial, fun hlt => absurd hlt hi⟩
  | cons range ranges ih =>
      intro i undef events hstart h
      rw [List.headD_cons] at hstart
      by_cases hi : i < stop
      · rw [runRanges_cons hi] at h
        obtain ⟨rest, hrest, rfl⟩ := Option.map_eq_some_iff.mp h
        have hnext := visitRange_snd hi hstart undef
        generalize hv : visitRange start stop range i undef = visited at *
        obtain ⟨front, i'⟩ := visited
        -- within a range the counter stays below the share
        have hfront : ∀ value, Event.progress value ∈ front → value.toNat < stop - start := by
          intro value hvalue
          cases undef with
          | false =>
              cases hv
              cases hvalue
          | true =>
              rw [visitRange_true] at hv
              refine runRange_progress_lt hle hshare (i + range - max i start) _
                (le_max_right i start) value ?_
              rw [hv]
              exact hvalue
        have hi' : start ≤ i' := by
          simp only at hnext
          omega
        have hprogress := progressAt_toNat hi' hle hshare
        simp only at hrest
        -- the part goes on behind this range, or it is through
        by_cases hdone : i' < stop
        · obtain ⟨hhonest, hlast⟩ := ih i' (!undef) rest (by omega) hrest
          refine ⟨Honest.append hfront ⟨?_, fun heq => ?_, hhonest⟩, fun _ value => ?_⟩
          · rw [hprogress]
            omega
          · rw [hprogress] at heq
            omega
          · rw [lastProgress_append]
            exact hlast hdone _
        · rw [runRanges_of_le (Nat.not_lt.mp hdone)] at hrest
          cases hrest
          refine ⟨Honest.append hfront ⟨?_, fun _ => rfl, trivial⟩, fun _ value => ?_⟩
          · rw [hprogress]
            omega
          · rw [lastProgress_append]
            show (progressAt start stop i').toNat = _
            rw [hprogress]
            omega
      · rw [runRanges_of_le (Nat.not_lt.mp hi)] at h
        cases h
        exact ⟨trivial, fun hlt => absurd hlt hi⟩

end Part

/-- The range in which the part begins does not begin behind the part. -/
theorem skipToStart_le {start : Nat} : ∀ (ranges : List Nat) (i : Nat) (undef : Bool)
    (rest : List Nat) (i' : Nat) (undef' : Bool), i ≤ start →
    skipToStart start ranges i undef = some (rest, i', undef') → i' ≤ start := by
  intro ranges
  induction ranges with
  | nil => intro i undef rest i' undef' _ h; cases h
  | cons range ranges ih =>
      intro i undef rest i' undef' hi h
      rw [skipToStart] at h
      split at h
      next hskip => exact ih _ _ _ _ _ hskip.le h
      next =>
        cases h
        exact hi

/-- What the counter of a worker says, over all its events. -/
theorem worker_honest {ranges : List Nat} {w : Worker} (hsum : ranges.sum = WORDS)
    (hle : w.start ≤ w.stop) (hstop : w.stop ≤ WORDS) (hshare : w.share < 2 ^ 32) :
    ∃ events, worker ranges w = some events ∧ Honest w.share events ∧
      (w.share = 0 → executed events = []) ∧ (lastProgress 0 events).toNat = w.share := by
  have hne : ranges ≠ [] := by
    rintro rfl
    exact absurd hsum (by decide)
  obtain ⟨rest, i, undef, hskip, hhead, hrest, -⟩ :=
    skipToStart_spec ranges 0 true hne (by omega : w.start ≤ 0 + ranges.sum)
  have hi := skipToStart_le ranges 0 true rest i undef (Nat.zero_le _) hskip
  obtain ⟨events, hsome, hexec⟩ := executed_worker hne (by omega : w.start ≤ ranges.sum)
    (by omega : w.stop ≤ ranges.sum)
  have hrun : runRanges w.start w.stop rest i undef = some events := by
    rw [← hsome, worker, hskip]
    rfl
  obtain ⟨hhonest, hlast⟩ := runRanges_honest hle hshare rest i undef events hhead hrun
  refine ⟨events, hsome, hhonest, fun hzero => ?_, ?_⟩
  · rw [hexec]
    refine List.filter_eq_nil_iff.mpr fun instr _ => ?_
    simp only [Worker.share] at hzero
    simp only [Bool.and_eq_true, decide_eq_true_eq, not_and]
    omega
  · by_cases hlt : i < w.stop
    · exact hlast hlt 0
    · -- an empty part: nothing is ever counted
      rw [runRanges_of_le (Nat.not_lt.mp hlt)] at hrun
      cases hrun
      show (0 : UInt32).toNat = w.share
      simp only [Worker.share]
      have hzero : w.stop - w.start = 0 := by omega
      rw [hzero]
      rfl

/-! ## The shares of a group

The parts of a group are all words. One of a single core is 2^32, which its counter cannot hold. -/

theorem CoreType.sum_share (ct : CoreType) : (ct.workers.map Worker.share).sum = WORDS := by
  have hparts := congrArg List.length (flatMap_range'_parts (b := bound ct.count) ct.count
    fun j hj => bound_mono hj).1
  rw [List.length_flatMap, List.length_range', bound_zero ct.count_pos, bound_count,
    Nat.sub_zero] at hparts
  have hshares : ct.workers.map Worker.share =
      (ct.workers.map fun w => (w.start, w.stop)).map fun part => part.2 - part.1 := by
    rw [List.map_map]
    rfl
  rw [hshares, ct.workers_parts, List.map_map]
  simpa [Function.comp_def] using hparts

/-- In a group of several cores, but not of more than there are words, no share needs 33 bits. -/
theorem CoreType.share_lt {ct : CoreType} (htwo : 2 ≤ ct.count) (hmax : ct.count ≤ WORDS)
    {w : Worker} (hw : w ∈ ct.workers) : w.share < 2 ^ 32 := by
  obtain ⟨j, hj, hstart, hstop⟩ := CoreType.exists_part hw
  have hle : bound ct.count (j + 1) ≤ WORDS := bound_le_words _ hj
  have hspan : 1 ≤ (WORDS + 1) / ct.count :=
    (Nat.one_le_div_iff ct.count_pos).mpr (by omega)
  have hhalf : (WORDS + 1) / ct.count ≤ (WORDS + 1) / 2 := Nat.div_le_div_left htwo (by decide)
  have hwords : WORDS = 2 ^ 32 := rfl
  rw [Worker.share, ← hstart, ← hstop]
  rcases Nat.eq_zero_or_pos j with rfl | hpos
  · -- the first part is a quotient
    rw [bound_zero ct.count_pos, bound, if_neg (by omega)]
    omega
  · -- every later part begins after the first
    have hfirst : (WORDS + 1) / ct.count * 1 ≤ bound ct.count j := by
      rw [bound, if_neg (by omega)]
      exact Nat.mul_le_mul_left _ hpos
    omega

/-! ## A round of the parent

What the parent knows in the middle of a round, for any property of what it has read. -/

/-- What is known within a round when a closed group that was counted has the property `Counted`,
and `Read` holds of the current group, the cores that are still to be read and the sum. -/
structure Parent.Round (coreTypes : List CoreType) (Counted : CoreType → Prop)
    (Read : CoreType → List Worker → Nat → Prop) (p : Parent) : Prop where
  groups : ∃ closed, coreTypes = closed ++ p.coreTypes ∧ p.finishedGroups ≤ closed.length ∧
    (p.finishedGroups = closed.length → ∀ ct ∈ closed, Counted ct)
  current : ∀ ct ∈ p.coreTypes.head?, Read ct p.toRead p.progress
  left : p.left = true → ∀ ct ∈ coreTypes, Counted ct

section Round

variable {coreTypes : List CoreType} {Counted : CoreType → Prop}
  {Read : CoreType → List Worker → Nat → Prop}

theorem head_firstWorkers (hstart : ∀ ct ∈ coreTypes, Read ct ct.workers 0)
    {rest : List CoreType} (hsub : rest ⊆ coreTypes) :
    ∀ ct ∈ rest.head?, Read ct (firstWorkers rest) 0 := by
  cases rest with
  | nil => intro ct h; cases h
  | cons ct' rest =>
      intro ct h
      cases h
      exact hstart ct' (hsub List.mem_cons_self)

theorem Parent.Round.of_start (hstart : ∀ ct ∈ coreTypes, Read ct ct.workers 0) :
    (Parent.start coreTypes).Round coreTypes Counted Read where
  groups := ⟨[], rfl, Nat.le_refl 0, fun _ ct h => absurd h List.not_mem_nil⟩
  current := head_firstWorkers hstart (List.Subset.refl coreTypes)
  left := fun h => by cases h

theorem Parent.Round.mono {Counted' : CoreType → Prop} {Read' : CoreType → List Worker → Nat → Prop}
    {p : Parent} (h : p.Round coreTypes Counted Read)
    (hcounted : ∀ ct ∈ coreTypes, Counted ct → Counted' ct)
    (hread : ∀ ct toRead progress, Read ct toRead progress → Read' ct toRead progress) :
    p.Round coreTypes Counted' Read' where
  groups := by
    obtain ⟨closed, hgroups, hle, hall⟩ := h.groups
    refine ⟨closed, hgroups, hle, fun heq ct hct => hcounted ct ?_ (hall heq ct hct)⟩
    rw [hgroups]
    exact List.mem_append_left _ hct
  current := fun ct hct => hread ct _ _ (h.current ct hct)
  left := fun hleft ct hct => hcounted ct hct (h.left hleft ct hct)

theorem Parent.Round.step {stats : Nat → UInt32} {p : Parent}
    (h : p.Round coreTypes Counted Read) (hstart : ∀ ct ∈ coreTypes, Read ct ct.workers 0)
    (hread : ∀ ct ∈ coreTypes, ∀ w toRead progress, Read ct (w :: toRead) progress →
      Read ct toRead (progress + (stats w.processor).toNat))
    (hclose : ∀ ct ∈ coreTypes, ∀ progress, Read ct [] progress → WORDS ≤ progress → Counted ct) :
    (p.step coreTypes stats).Round coreTypes Counted Read := by
  obtain ⟨closed, hgroups, hle, hcounted⟩ := h.groups
  have hcurrent := h.current
  have hleft := h.left
  obtain ⟨rest, toRead, progress, finishedGroups, left⟩ := p
  simp only at hgroups hle hcounted hcurrent hleft
  rcases rest with _ | ⟨ct, rest⟩
  · -- the end of a round
    rw [Parent.step_end]
    rw [List.append_nil] at hgroups
    split
    next hall =>
      refine ⟨⟨closed, by rw [hgroups, List.append_nil], hle, hcounted⟩, ?_, fun _ => ?_⟩
      · intro ct hct
        cases hct
      · rw [hgroups] at hall ⊢
        exact hcounted hall
    next => exact Parent.Round.of_start hstart
  · have hread' := hcurrent ct rfl
    have hmem : ct ∈ coreTypes := by
      rw [hgroups]
      exact List.mem_append_right _ List.mem_cons_self
    -- a counter is read, or the sum of the group is compared
    rcases toRead with _ | ⟨w, toRead⟩
    · -- a group is closed
      rw [Parent.step_close]
      refine ⟨⟨closed ++ [ct], by rw [hgroups, List.append_cons], ?_, ?_⟩,
        head_firstWorkers hstart fun x hx => ?_, hleft⟩
      · show (if progress ≥ WORDS then finishedGroups + 1 else finishedGroups) ≤ _
        rw [List.length_append, List.length_singleton]
        split <;> omega
      · show (if progress ≥ WORDS then finishedGroups + 1 else finishedGroups) = _ → _
        rw [List.length_append, List.length_singleton]
        intro heq
        split at heq
        next hsum =>
          rw [List.forall_mem_append, List.forall_mem_singleton]
          exact ⟨hcounted (by omega), hclose ct hmem progress hread' hsum⟩
        next => omega
      · rw [hgroups]
        exact List.mem_append_right _ (List.mem_cons_of_mem ct hx)
    · rw [Parent.step_read]
      refine ⟨⟨closed, hgroups, hle, hcounted⟩, ?_, hleft⟩
      intro ct' hct'
      cases hct'
      exact hread ct hmem w toRead progress hread'

end Round

/-! ## When the workers are through, the parent leaves

From any point the parent comes to the start of a round, and one whole round is enough. -/

section Leaves

variable (coreTypes : List CoreType) (stats : Nat → UInt32)

theorem Parent.iterate_read (ct : CoreType) (rest : List CoreType) (finishedGroups : Nat)
    (left : Bool) (toRead : List Worker) : ∀ progress,
    (Parent.step coreTypes stats)^[toRead.length]
        ⟨ct :: rest, toRead, progress, finishedGroups, left⟩ =
      ⟨ct :: rest, [], progress + (toRead.map fun w => (stats w.processor).toNat).sum,
        finishedGroups, left⟩ := by
  induction toRead with
  | nil => intro progress; rfl
  | cons w toRead ih =>
      intro progress
      rw [List.length_cons, Function.iterate_succ_apply, Parent.step_read, ih, List.map_cons,
        List.sum_cons, Nat.add_assoc]

/-- The parent always comes to the end of its round. -/
theorem Parent.exists_end (p : Parent) :
    ∃ n, ((Parent.step coreTypes stats)^[n] p).coreTypes = [] := by
  obtain ⟨groups, toRead, progress, finishedGroups, left⟩ := p
  induction groups generalizing toRead progress finishedGroups with
  | nil => exact ⟨0, rfl⟩
  | cons ct rest ih =>
      obtain ⟨n, hn⟩ := ih (firstWorkers rest) 0
        (if progress + (toRead.map fun w => (stats w.processor).toNat).sum ≥ WORDS then
          finishedGroups + 1 else finishedGroups)
      refine ⟨n + (1 + toRead.length), ?_⟩
      rw [Function.iterate_add_apply, Function.iterate_add_apply, Parent.iterate_read,
        Function.iterate_one, Parent.step_close]
      exact hn

/-- A round in which all sums are reached. -/
theorem Parent.exists_round (left : Bool) : ∀ (rest : List CoreType),
    (∀ ct ∈ rest, WORDS ≤ (ct.workers.map fun w => (stats w.processor).toNat).sum) →
    ∀ finishedGroups, ∃ n, (Parent.step coreTypes stats)^[n]
        ⟨rest, firstWorkers rest, 0, finishedGroups, left⟩ =
      ⟨[], [], 0, finishedGroups + rest.length, left⟩ := by
  intro rest
  induction rest with
  | nil => intro _ finishedGroups; exact ⟨0, rfl⟩
  | cons ct rest ih =>
      intro hsums finishedGroups
      obtain ⟨n, hn⟩ := ih (fun ct' hct' => hsums ct' (List.mem_cons_of_mem ct hct'))
        (finishedGroups + 1)
      have hsum := hsums ct List.mem_cons_self
      refine ⟨n + (1 + ct.workers.length), ?_⟩
      rw [Function.iterate_add_apply, Function.iterate_add_apply, firstWorkers,
        Parent.iterate_read, Function.iterate_one, Parent.step_close, Nat.zero_add, if_pos hsum, hn,
        List.length_cons]
      congr 1
      omega

theorem Parent.exists_left
    (hsums : ∀ ct ∈ coreTypes, WORDS ≤ (ct.workers.map fun w => (stats w.processor).toNat).sum)
    (p : Parent) : ∃ n, ((Parent.step coreTypes stats)^[n] p).left = true := by
  obtain ⟨n, hend⟩ := Parent.exists_end coreTypes stats p
  generalize hq : (Parent.step coreTypes stats)^[n] p = q at hend
  obtain ⟨rest, toRead, progress, finishedGroups, left⟩ := q
  simp only at hend
  subst hend
  by_cases hall : finishedGroups = coreTypes.length
  · refine ⟨1 + n, ?_⟩
    rw [Function.iterate_add_apply, hq, Function.iterate_one, Parent.step_end, if_pos hall]
  · -- this round began too early; the next one will do
    obtain ⟨m, hm⟩ := Parent.exists_round coreTypes stats false coreTypes hsums 0
    refine ⟨1 + (m + (1 + n)), ?_⟩
    rw [Function.iterate_add_apply, Function.iterate_add_apply, Function.iterate_add_apply, hq,
      Function.iterate_one, Parent.step_end, if_neg hall, Parent.start, hm, Parent.step_end,
      if_pos (Nat.zero_add _)]

end Leaves

/-! ## The invariant of the scan

No counter is above the share of its worker, and the sum can only be all words when all of them are
there. -/

/-- What the counter of a worker says, in the state `s`. -/
structure Scan.Tracks (s : Scan) (w : Worker) : Prop where
  honest : Honest w.share (s.todo w)
  le : (s.stats w.processor).toNat ≤ w.share
  finished : (s.stats w.processor).toNat = w.share → s.Finished w
  last : (lastProgress (s.stats w.processor) (s.todo w)).toNat = w.share

/-- The cores of the group that were read so far, and what their sum says. -/
def Scan.Read (s : Scan) (ct : CoreType) (toRead : List Worker) (progress : Nat) : Prop :=
  ∃ done, ct.workers = done ++ toRead ∧ progress ≤ (done.map Worker.share).sum ∧
    (progress = (done.map Worker.share).sum → ∀ w ∈ done, s.Finished w)

structure Scan.Inv (coreTypes : List CoreType) (s : Scan) : Prop where
  tracks : ∀ ct ∈ coreTypes, ∀ w ∈ ct.workers, s.Tracks w
  round : s.parent.Round coreTypes (fun ct => ∀ w ∈ ct.workers, s.Finished w) s.Read

/-- No two workers share a counter. -/
def Apart (coreTypes : List CoreType) : Prop :=
  ∀ ct ∈ coreTypes, ∀ w ∈ ct.workers, ∀ ct' ∈ coreTypes, ∀ w' ∈ ct'.workers,
    w.processor = w'.processor → w = w'

theorem apart_groupCoreTypes {cpus : List CpuInfo} (h : (cpus.map CpuInfo.processor).Nodup) :
    Apart (groupCoreTypes cpus) := by
  have hworkers : ∀ coreTypes : List CoreType,
      (coreTypes.flatMap CoreType.workers).map Worker.processor =
        (coreTypes.flatMap CoreType.cpus).map CpuInfo.processor := by
    intro coreTypes
    rw [List.map_flatMap, List.map_flatMap]
    simp only [CoreType.map_processor_workers]
  have hnodup : (((groupCoreTypes cpus).flatMap CoreType.workers).map Worker.processor).Nodup := by
    rw [hworkers]
    exact ((flatMap_cpus_groupCoreTypes cpus).map _).nodup_iff.mpr h
  intro ct hct w hw ct' hct' w' hw' heq
  exact List.inj_on_of_nodup_map hnodup (List.mem_flatMap.mpr ⟨ct, hct, hw⟩)
    (List.mem_flatMap.mpr ⟨ct', hct', hw'⟩) heq

section Invariant

variable {coreTypes : List CoreType} {s s' : Scan}

theorem Scan.Read.mono {ct : CoreType} {toRead : List Worker} {progress : Nat}
    (hfinished : ∀ w, s.Finished w → s'.Finished w) (h : s.Read ct toRead progress) :
    s'.Read ct toRead progress := by
  obtain ⟨done, hdone, hle, hall⟩ := h
  exact ⟨done, hdone, hle, fun heq w hw => hfinished w (hall heq w hw)⟩

theorem Scan.Inv.init {ranges : List Nat} (hsum : ranges.sum = WORDS)
    (hshare : ∀ ct ∈ coreTypes, ∀ w ∈ ct.workers, w.share < 2 ^ 32) :
    (Scan.init coreTypes ranges).Inv coreTypes where
  tracks := by
    intro ct hct w hw
    obtain ⟨hle, hstop⟩ := ct.start_le_stop hw
    obtain ⟨events, hsome, hhonest, hzero, hlast⟩ :=
      worker_honest hsum hle hstop (hshare ct hct w hw)
    have htodo : (Scan.init coreTypes ranges).todo w = events := by
      show (worker ranges w).getD [] = events
      rw [hsome]
      rfl
    refine ⟨htodo ▸ hhonest, Nat.zero_le _, fun heq => ?_, by rw [htodo]; exact hlast⟩
    rw [Scan.Finished, htodo]
    exact hzero heq.symm
  round := Parent.Round.of_start fun ct _ =>
    ⟨[], rfl, Nat.le_refl 0, fun _ w hw => absurd hw List.not_mem_nil⟩

theorem Scan.Inv.step (h : s.Inv coreTypes) (hapart : Apart coreTypes)
    (hstep : Scan.Step coreTypes s s') : s'.Inv coreTypes := by
  cases hstep with
  | @work ct w e rest hct hw htodo =>
      set s' : Scan :=
        { s with todo := Function.update s.todo w rest, stats := e.apply w.processor s.stats }
      -- what was finished stays finished
      have hfinished : ∀ x, s.Finished x → s'.Finished x := by
        intro x hx
        by_cases hxw : x = w
        · subst hxw
          show executed (Function.update s.todo x rest x) = []
          rw [Function.update_self]
          rw [Scan.Finished, htodo] at hx
          cases e with
          | progress value => exact hx
          | run instr => cases hx
        · show executed (Function.update s.todo w rest x) = []
          rw [Function.update_of_ne hxw]
          exact hx
      refine ⟨fun ct' hct' x hx => ?_, h.round.mono (fun ct _ hall x hx => hfinished x (hall x hx))
        fun ct toRead progress hread => hread.mono hfinished⟩
      by_cases hxw : x = w
      · subst hxw
        obtain ⟨hhonest, hle, hdone, hlast⟩ := h.tracks ct hct x hw
        rw [htodo] at hhonest hlast
        have htodo' : s'.todo x = rest := Function.update_self _ _ _
        cases e with
        | progress value =>
            have hstats : s'.stats x.processor = value := Function.update_self _ _ _
            obtain ⟨hvalue, hlastWord, hrest⟩ := hhonest
            refine ⟨htodo' ▸ hrest, hstats ▸ hvalue, fun heq => ?_, ?_⟩
            · rw [Scan.Finished, htodo']
              exact hlastWord (hstats ▸ heq)
            · rw [htodo', hstats]
              exact hlast
        | run instr =>
            refine ⟨htodo' ▸ hhonest, hle, fun heq => hfinished x (hdone heq), ?_⟩
            rw [htodo']
            exact hlast
      · -- another worker, with another counter
        have hne : x.processor ≠ w.processor := fun heq =>
          hxw (hapart ct' hct' x hx ct hct w hw heq)
        have htodo' : s'.todo x = s.todo x := Function.update_of_ne hxw _ _
        have hstats : s'.stats x.processor = s.stats x.processor := by
          cases e with
          | progress value => exact Function.update_of_ne hne _ _
          | run instr => rfl
        obtain ⟨hhonest, hle, hdone, hlast⟩ := h.tracks ct' hct' x hx
        refine ⟨htodo' ▸ hhonest, hstats ▸ hle, fun heq => hfinished x (hdone (hstats ▸ heq)), ?_⟩
        rw [htodo', hstats]
        exact hlast
  | poll hleft =>
      have htracks : ∀ ct ∈ coreTypes, ∀ w ∈ ct.workers,
          Scan.Tracks { s with parent := s.parent.step coreTypes s.stats } w := by
        intro ct hct w hw
        obtain ⟨hhonest, hle, hdone, hlast⟩ := h.tracks ct hct w hw
        exact ⟨hhonest, hle, hdone, hlast⟩
      refine ⟨htracks, h.round.step (fun ct _ => ?_) (fun ct hct w toRead progress hread => ?_)
        fun ct _ progress hread hsum => ?_⟩
      · exact ⟨[], rfl, Nat.le_refl 0, fun _ w hw => absurd hw List.not_mem_nil⟩
      · obtain ⟨done, hdone, hle, hall⟩ := hread
        have hmem : w ∈ ct.workers := by
          rw [hdone]
          exact List.mem_append_right _ List.mem_cons_self
        have htracks := h.tracks ct hct w hmem
        have hle' := htracks.le
        refine ⟨done ++ [w], by rw [hdone, List.append_cons], ?_, fun heq => ?_⟩
        · rw [List.map_append, List.sum_append, List.map_singleton, List.sum_singleton]
          omega
        · rw [List.map_append, List.sum_append, List.map_singleton, List.sum_singleton] at heq
          rw [List.forall_mem_append, List.forall_mem_singleton]
          exact ⟨hall (by omega), htracks.finished (by omega)⟩
      · obtain ⟨done, hdone, hle, hall⟩ := hread
        rw [List.append_nil] at hdone
        have hshares := ct.sum_share
        rw [hdone] at hshares ⊢
        exact hall (by omega)

end Invariant

/-! ## When the end is recognised

With two cores in every group the shares fit their counters. With a group of one core the parent
never leaves. -/

/-- All workers can finish, whatever the parent does. -/
theorem exists_all_finished {coreTypes : List CoreType} (s : Scan) :
    ∃ s', Relation.ReflTransGen (Scan.Step coreTypes) s s' ∧
      ∀ ct ∈ coreTypes, ∀ w ∈ ct.workers, s'.todo w = [] := by
  -- one worker alone can run to its end
  have hone : ∀ (events : List Event) (s : Scan), ∀ ct ∈ coreTypes, ∀ w ∈ ct.workers,
      s.todo w = events → ∃ s', Relation.ReflTransGen (Scan.Step coreTypes) s s' ∧
        s'.todo = Function.update s.todo w [] := by
    intro events
    induction events with
    | nil =>
        intro s ct _ w _ h
        refine ⟨s, Relation.ReflTransGen.refl, ?_⟩
        rw [← h, Function.update_eq_self]
    | cons e rest ih =>
        intro s ct hct w hw h
        obtain ⟨s', hrun, htodo⟩ := ih
          { s with todo := Function.update s.todo w rest, stats := e.apply w.processor s.stats }
          ct hct w hw (Function.update_self _ _ _)
        refine ⟨s', Relation.ReflTransGen.head (Scan.Step.work hct hw h) hrun, ?_⟩
        rw [htodo, Function.update_idem]
  -- and so can one after the other
  have hlist : ∀ (ws : List Worker), (∀ w ∈ ws, ∃ ct ∈ coreTypes, w ∈ ct.workers) → ∀ s : Scan,
      ∃ s', Relation.ReflTransGen (Scan.Step coreTypes) s s' ∧ ∀ w ∈ ws, s'.todo w = [] := by
    intro ws
    induction ws with
    | nil =>
        intro _ s
        exact ⟨s, Relation.ReflTransGen.refl, fun w hw => absurd hw List.not_mem_nil⟩
    | cons w ws ih =>
        intro hws s
        obtain ⟨s₁, hrun₁, hdone⟩ := ih (fun x hx => hws x (List.mem_cons_of_mem w hx)) s
        obtain ⟨ct, hct, hw⟩ := hws w List.mem_cons_self
        obtain ⟨s₂, hrun₂, htodo⟩ := hone _ s₁ ct hct w hw rfl
        refine ⟨s₂, hrun₁.trans hrun₂, fun x hx => ?_⟩
        rw [htodo]
        by_cases hxw : x = w
        · rw [hxw, Function.update_self]
        · rw [Function.update_of_ne hxw]
          exact hdone x (List.mem_of_ne_of_mem hxw hx)
  obtain ⟨s', hrun, hdone⟩ := hlist (coreTypes.flatMap CoreType.workers)
    (fun w hw => List.mem_flatMap.mp hw) s
  exact ⟨s', hrun, fun ct hct w hw => hdone w (List.mem_flatMap.mpr ⟨ct, hct, hw⟩)⟩

/-- With 32 bits a group of one core is never counted. -/
theorem Parent.Round.step_two_le {coreTypes : List CoreType} {stats : Nat → UInt32} {p : Parent}
    (h : p.Round coreTypes (fun ct => 2 ≤ ct.count) fun ct toRead progress =>
      toRead.length ≤ ct.count ∧ progress ≤ (ct.count - toRead.length) * (2 ^ 32 - 1)) :
    (p.step coreTypes stats).Round coreTypes (fun ct => 2 ≤ ct.count) fun ct toRead progress =>
      toRead.length ≤ ct.count ∧ progress ≤ (ct.count - toRead.length) * (2 ^ 32 - 1) := by
  refine h.step (fun ct _ => ?_) (fun ct _ w toRead progress hread => ?_)
    fun ct _ progress hread hsum => ?_
  · exact ⟨ct.length_workers.le, Nat.zero_le _⟩
  · obtain ⟨hlen, hle⟩ := hread
    rw [List.length_cons] at hlen hle
    have hstats := (stats w.processor).toNat_lt
    have hmore : ct.count - toRead.length = (ct.count - (toRead.length + 1)) + 1 := by omega
    refine ⟨by omega, ?_⟩
    rw [hmore, Nat.succ_mul]
    omega
  · have hle := hread.2
    have hwords : WORDS = 2 ^ 32 := rfl
    rw [List.length_nil, Nat.sub_zero] at hle
    by_contra hone
    have hpos := ct.count_pos
    have hcount : ct.count = 1 := by omega
    rw [hcount] at hle
    omega

/-- If the end is recognised, every group has several cores. -/
theorem DetectsEnd.two_le {coreTypes : List CoreType} {ranges : List Nat}
    (h : DetectsEnd coreTypes ranges) : ∀ ct ∈ coreTypes, 2 ≤ ct.count := by
  obtain ⟨s, hrun, hdone⟩ : ∃ s, Relation.ReflTransGen (Scan.Step coreTypes)
      (Scan.init coreTypes ranges) s ∧ ∀ ct ∈ coreTypes, ∀ w ∈ ct.workers, s.todo w = [] :=
    exists_all_finished _
  obtain ⟨n, hleft⟩ := h.leaves s hrun hdone
  -- what is read of one counter is less than 2^32, so a group of one never reaches it
  have hround : ∀ s, Scan.Reachable coreTypes ranges s →
      s.parent.Round coreTypes (fun ct => 2 ≤ ct.count) fun ct toRead progress =>
        toRead.length ≤ ct.count ∧ progress ≤ (ct.count - toRead.length) * (2 ^ 32 - 1) := by
    intro s hs
    induction hs with
    | refl => exact Parent.Round.of_start fun ct _ => ⟨ct.length_workers.le, Nat.zero_le _⟩
    | tail _ hstep ih =>
        cases hstep with
        | work => exact ih
        | poll => exact ih.step_two_le
  have hpolls : ∀ n, ((Parent.step coreTypes s.stats)^[n] s.parent).Round
      coreTypes (fun ct => 2 ≤ ct.count) fun ct toRead progress =>
        toRead.length ≤ ct.count ∧ progress ≤ (ct.count - toRead.length) * (2 ^ 32 - 1) := by
    intro n
    induction n with
    | zero => exact hround s hrun
    | succ n ih =>
        rw [Function.iterate_succ_apply']
        exact ih.step_two_le
  exact (hpolls n).left hleft

/-- The end of the scan is recognised exactly when every group has several cores: the counter of a
core that runs all words is back at zero in the end. -/
theorem detectsEnd_iff (ranges : List Nat) (hsum : ranges.sum = WORDS) (cpus : List CpuInfo)
    (hcpus : cpus.length ≤ MAX_CPUS) (hnodup : (cpus.map CpuInfo.processor).Nodup) :
    DetectsEnd (groupCoreTypes cpus) ranges ↔ ∀ ct ∈ groupCoreTypes cpus, 2 ≤ ct.count := by
  constructor
  · exact DetectsEnd.two_le
  · intro htwo
    have hshare : ∀ ct ∈ groupCoreTypes cpus, ∀ w ∈ ct.workers, w.share < 2 ^ 32 := by
      intro ct hct w hw
      have hle : ct.count ≤ cpus.length := by
        rw [← (flatMap_cpus_groupCoreTypes cpus).length_eq]
        exact (List.sublist_flatten_of_mem (List.mem_map_of_mem hct)).length_le
      refine ct.share_lt (htwo ct hct) (hle.trans (hcpus.trans ?_)) hw
      decide
    have hinv : ∀ s, Scan.Reachable (groupCoreTypes cpus) ranges s →
        s.Inv (groupCoreTypes cpus) := by
      intro s hs
      induction hs with
      | refl => exact Scan.Inv.init hsum hshare
      | tail _ hstep ih => exact ih.step (apart_groupCoreTypes hnodup) hstep
    constructor
    · intro s hs hdone
      refine Parent.exists_left _ _ (fun ct hct => ?_) _
      -- the counters of workers that are through are their shares, and these add up to all words
      have hstats : ct.workers.map (fun w => (s.stats w.processor).toNat) =
          ct.workers.map Worker.share := by
        apply List.map_congr_left
        intro w hw
        have hlast := ((hinv s hs).tracks ct hct w hw).last
        rw [hdone ct hct w hw] at hlast
        exact hlast
      rw [hstats, ct.sum_share]
    · intro s hs hleft
      exact (hinv s hs).round.left hleft

/-- Two cores of one type. -/
theorem detectsEnd_iff_twoCores :
    DetectsEnd (groupCoreTypes [⟨0, 0⟩, ⟨1, 0⟩]) [1, 1, WORDS - 2] ↔
      ∀ ct ∈ groupCoreTypes [⟨0, 0⟩, ⟨1, 0⟩], 2 ≤ ct.count :=
  detectsEnd_iff [1, 1, WORDS - 2] (by decide) [⟨0, 0⟩, ⟨1, 0⟩] (by decide) (by decide)

/-- A single core. -/
theorem oneCore_not_detectsEnd :
    [1, 1, WORDS - 2].sum = WORDS ∧ ¬ DetectsEnd (groupCoreTypes [⟨0, 0⟩]) [1, 1, WORDS - 2] := by
  refine ⟨by decide, fun h => ?_⟩
  have htwo := h.two_le ⟨0, [⟨0, 0⟩], List.cons_ne_nil _ _⟩ List.mem_cons_self
  exact absurd htwo (by decide)

end RISCover
