import RISCover.Lib.Machine
import RISCover.Result.RoundTrip
import RISCover.Runner.Memory

/-!
# The scan for memory changes

After the last run `run_with_instr_seq` looks for the bytes that differ from the reference images
and records every run of them, up to the number of slots of `mem_changes`. Two loops share the
state of the open run: it stays open from one mapping to the next when that one carries on where
the first ends.

The index into a mapping and the length of a run are 32-bit numbers, the length of a mapping is
not, so a pass can leave the range of the index and start over.
-/

open MarkedRuns Machine

namespace RISCover

/-! ## The loops

A pass of one of the loops. Which of them a pass belongs to is told by where the scan stands. -/

/-- The heads of the loops over the mappings and over the bytes of one of them, and of the `while`
that consumes differing bytes. -/
inductive MemScan.Loc where
  | mapping
  | byte
  | run
  deriving DecidableEq

/-- The variables of the scan. `memChanges` are the first `n_mem_changes` slots. -/
structure MemScan where
  loc : MemScan.Loc
  m : Nat
  i : UInt32
  rangeStarted : Bool
  rangeStart : UInt64
  curVal : Vector UInt8 CHECK_MEM_CUT_AT
  curRangeLen : UInt32
  curChecksum : UInt32
  memChanges : List MemChange
  endLogging : Bool

/-- In front of the loops; `cur_val` is not initialised. -/
def MemScan.start (curVal : Vector UInt8 CHECK_MEM_CUT_AT) : MemScan :=
  ⟨.mapping, 0, 0, false, 0, curVal, 0, 0, [], false⟩

/-- `mappings` and behind them `auto_mappings`. -/
def mappingAt (mappings autoMappings : List LiveMapping) (m : Nat) : Option LiveMapping :=
  if m < mappings.length then mappings[m]? else autoMappings[m - mappings.length]?

/-- What the scan ends with: the recorded changes, or the assertion on their number fails. -/
inductive ScanEnd where
  | recorded (memChanges : List MemChange)
  | assertion

abbrev ScanPass := Outcome MemScan ScanEnd

def MemScan.nextMapping (s : MemScan) : MemScan := { s with loc := .mapping, m := s.m + 1 }

def MemScan.change (s : MemScan) : MemChange :=
  ⟨s.rangeStart, s.curRangeLen, s.curVal, s.curChecksum⟩

/-- The open run goes into the next slot, if there is one. -/
def MemScan.record (arch : Arch) (s : MemScan) : Option MemScan :=
  if s.memChanges.length < arch.CHECK_MEM_MAX_NUMBER_MEM_CHANGES then
    some { s with memChanges := s.memChanges ++ [s.change], rangeStarted := false }
  else none

/-- Behind the loops. -/
def MemScan.finish (arch : Arch) (s : MemScan) : ScanPass :=
  if s.rangeStarted && !s.endLogging then
    match s.record arch with
    | some s => .stop (.recorded s.memChanges)
    | none => .stop .assertion
  else .stop (.recorded s.memChanges)

/-- The index behind the equal bytes from `i` on. The sum is an `unsigned`. -/
def MemScan.skipEqual (mapping : LiveMapping) (s : MemScan) : UInt32 :=
  s.i + UInt32.ofNat (mapping.equalFrom s.i.toNat)

/-- A run begins. -/
def MemScan.startRange (mapping : LiveMapping) (s : MemScan) : MemScan :=
  { s with
    loc := .run
    rangeStarted := true
    rangeStart := mapping.start + s.i.toUInt64
    curRangeLen := 0
    curChecksum := 2166136261 }

/-- The body of the `while`. -/
def MemScan.consume (b : UInt8) (s : MemScan) : MemScan :=
  { s with
    curVal := if h : s.curRangeLen.toNat < CHECK_MEM_CUT_AT then s.curVal.set _ b h else s.curVal
    curRangeLen := s.curRangeLen + 1
    curChecksum := (s.curChecksum ^^^ b.toUInt32) * 16777619
    i := s.i + 1 }

/-- The body of the loop over the bytes, up to the `while`. -/
def MemScan.bytePass (mapping : LiveMapping) (s : MemScan) : ScanPass :=
  if s.i.toNat < mapping.n.toNat then
    if s.rangeStarted then .next { s with loc := .run }
    else
      let s := { s with i := s.skipEqual mapping }
      if s.i.toNat ≥ mapping.n.toNat then .next s.nextMapping
      else .next (s.startRange mapping)
  else .next s.nextMapping

/-- The `while` and what follows it. -/
def MemScan.runPass (arch : Arch) (mapping : LiveMapping) (next : Option LiveMapping)
    (s : MemScan) : ScanPass :=
  match mapping.changed s.i.toNat with
  | some b => .next (s.consume b)
  | none =>
      -- the `while` is through, so `i` is behind the mapping or the byte there is equal
      if s.rangeStarted then
        if decide (mapping.n.toNat ≤ s.i.toNat) && mapping.continuesIn next then
          .next s.nextMapping
        else
          match s.record arch with
          | none => .stop .assertion
          | some s =>
              if s.memChanges.length ≥ arch.CHECK_MEM_MAX_NUMBER_MEM_CHANGES then
                .next { s with endLogging := true }.nextMapping
              else .next { s with loc := .byte }
      else .next { s with loc := .byte }

/-- One pass of the loop that the scan is in. -/
def scanStep (arch : Arch) (mappings autoMappings : List LiveMapping) (s : MemScan) : ScanPass :=
  match mappingAt mappings autoMappings s.m with
  | none => s.finish arch
  | some mapping =>
      match s.loc with
      | .mapping => if s.endLogging then s.finish arch else .next { s with loc := .byte, i := 0 }
      | .byte => s.bytePass mapping
      | .run => s.runPass arch mapping (mappingAt mappings autoMappings (s.m + 1))

/-! ## What it should record

Runs of changed bytes that follow on each other, also over the end of a mapping, up to the number of
slots. -/

/-- FNV-1a with 32 bits. -/
def fnv1a (bytes : List UInt8) : UInt32 :=
  bytes.foldl (fun checksum b => (checksum ^^^ b.toUInt32) * 16777619) 2166136261

/-- The slot describes the run: where it begins, its true length, the first bytes, the checksum of
all of them. -/
structure MemChange.Records (m : MemChange) (run : List Cell) : Prop where
  start : run.head?.map Cell.addr = some m.start
  n : m.n.toNat = run.length
  val : m.val.toList.take m.nCap = (run.map Cell.new).take CHECK_MEM_CUT_AT
  checksum : m.checksum = fnv1a (run.map Cell.new)

/-- The runs that have a slot, in order. -/
def recordedRuns (arch : Arch) (ms : List LiveMapping) : List (List Cell) :=
  (changedRuns ms).take arch.CHECK_MEM_MAX_NUMBER_MEM_CHANGES

/-- The first runs of differing bytes are recorded. -/
def ScanEnd.Right (arch : Arch) (ms : List LiveMapping) : ScanEnd → Prop
  | .recorded memChanges => List.Forall₂ MemChange.Records memChanges (recordedRuns arch ms)
  | .assertion => False

/-- The scan comes to the right end, whatever was in `cur_val`. -/
def RecordsChanges (arch : Arch) (mappings autoMappings : List LiveMapping) : Prop :=
  ∀ curVal, ∃ r, Stops (scanStep arch mappings autoMappings) (MemScan.start curVal) r ∧
    r.Right arch (mappings ++ autoMappings)

/-- The 32-bit numbers are wide enough: every run that is recorded is shorter than `2 ^ 32`, and in
a mapping that is not, enough runs have ended at its byte `2 ^ 32 - 1` for the scan to stop. -/
structure Narrow (arch : Arch) (ms : List LiveMapping) : Prop where
  runs : ∀ run ∈ recordedRuns arch ms, run.length < 2 ^ 32
  mappings : ∀ m mapping, ms[m]? = some mapping → 2 ^ 32 ≤ mapping.n.toNat →
    arch.CHECK_MEM_MAX_NUMBER_MEM_CHANGES ≤
      ended Cell.differs (fun _ c => c.joined) ((cells ms).take (offset ms m + 2 ^ 32))

theorem mappingAt_eq (mappings autoMappings : List LiveMapping) (m : Nat) :
    mappingAt mappings autoMappings m = (mappings ++ autoMappings)[m]? :=
  (List.getElem?_append ..).symm

/-! ## The variables of the open run

The start, the length, the first bytes and the checksum are those of the bytes that were taken so
far. -/

theorem fnv1a_append (bytes : List UInt8) (b : UInt8) :
    fnv1a (bytes ++ [b]) = (fnv1a bytes ^^^ b.toUInt32) * 16777619 := List.foldl_append

/-- The variables, as they would go into a slot, describe the part of the open run that is
consumed. -/
structure MemChange.Collects (m : MemChange) (run : List Cell) : Prop where
  start : ∀ c ∈ run.head?, m.start = c.addr
  n : m.n = UInt32.ofNat run.length
  val : run.length < 2 ^ 32 →
    m.val.toList.take run.length = (run.map Cell.new).take CHECK_MEM_CUT_AT
  checksum : m.checksum = fnv1a (run.map Cell.new)

theorem MemChange.Collects.toNat_n {m : MemChange} {run : List Cell} (h : m.Collects run)
    (hlt : run.length < 2 ^ 32) : m.n.toNat = run.length := by
  rw [h.n, UInt32.toNat_ofNat_of_lt' hlt]

theorem MemChange.Collects.consume {s : MemScan} {run : List Cell} {c : Cell}
    (h : s.change.Collects run) (hfirst : run = [] → s.rangeStart = c.addr) :
    (s.consume c.new).change.Collects (run ++ [c]) := by
  refine ⟨?_, ?_, ?_, ?_⟩
  · cases run with
    | nil => rintro _ ⟨⟩; exact hfirst rfl
    | cons first run => exact h.start
  · show s.change.n + 1 = _
    rw [h.n, List.length_append, UInt32.ofNat_add]
    rfl
  · intro hlt
    rw [List.length_append, List.length_singleton] at hlt
    -- below 2^32 the counter is the length of the run
    have hlen : s.curRangeLen.toNat = run.length := h.toNat_n (by omega)
    have hval : s.curVal.toList.take run.length = _ := h.val (by omega)
    have hfull : s.curVal.toList.length = CHECK_MEM_CUT_AT := s.curVal.length_toList
    rw [List.length_append, List.length_singleton, List.map_append, List.map_singleton,
      List.take_append, List.length_map, ← hval]
    show List.take _ (if h : s.curRangeLen.toNat < CHECK_MEM_CUT_AT then
      s.curVal.set _ c.new h else s.curVal).toList = _
    by_cases hroom : run.length < CHECK_MEM_CUT_AT
    · -- the byte goes behind those that are kept already
      have hkeep : CHECK_MEM_CUT_AT - run.length = (CHECK_MEM_CUT_AT - run.length - 1) + 1 := by
        omega
      rw [dif_pos (hlen ▸ hroom), Vector.toList_set, hlen, hkeep, List.take_succ_cons,
        List.take_nil, List.take_add_one, List.take_set_of_le (Nat.le_refl _),
        List.getElem?_set_self (by rwa [hfull])]
      rfl
    · have hfirst : CHECK_MEM_CUT_AT - run.length = 0 := by omega
      rw [dif_neg (hlen ▸ hroom), hfirst, List.take_zero, List.append_nil,
        List.take_of_length_le (by omega), List.take_of_length_le (by omega)]
  · show (s.change.checksum ^^^ c.new.toUInt32) * 16777619 = _
    rw [h.checksum, List.map_append, List.map_singleton, fnv1a_append]

theorem MemChange.Collects.records {m : MemChange} {run : List Cell} (h : m.Collects run)
    (hne : run ≠ []) (hlt : run.length < 2 ^ 32) : m.Records run := by
  have hlen := h.toNat_n hlt
  refine ⟨?_, hlen, ?_, h.checksum⟩
  · obtain ⟨c, run, rfl⟩ := List.exists_cons_of_ne_nil hne
    exact congrArg some (h.start c rfl).symm
  · have hcap : m.nCap = min CHECK_MEM_CUT_AT run.length := by
      rw [MemChange.nCap_eq_min, hlen, Nat.min_comm]
      rfl
    have hfull : m.val.toList.length = CHECK_MEM_CUT_AT := m.val.length_toList
    rw [hcap, ← h.val hlt, ← List.take_take]
    exact List.take_of_length_le ((List.length_take_le' _ _).trans hfull.le)

/-! ## The invariant

The runs that were closed are recorded and the open one is collected. `left` goes down in every
pass. -/

section Invariant

variable {arch : Arch} {ms : List LiveMapping} {s : MemScan} {pos : Nat} {done : List (List Cell)}
  {run : List Cell} {mapping : LiveMapping}

/-- The scan of the source as a scan of all bytes. -/
abbrev ScanningCells (ms : List LiveMapping) (pos : Nat) (done : List (List Cell))
    (run : List Cell) : Prop :=
  Scanning Cell.differs (fun _ c => c.joined) (cells ms) pos done run

/-- At the head of one of the two loops: a run is open only if it goes on here. -/
structure MemScan.AtHead (ms : List LiveMapping) (s : MemScan) (pos : Nat)
    (done : List (List Cell)) (run : List Cell) : Prop where
  scanning : ScanningCells ms pos done run
  closed : s.rangeStarted = false → run = []
  opened : s.rangeStarted = true → run ≠ [] ∧ s.change.Collects run
  goesOn : s.rangeStarted = true → ∃ c, (cells ms)[pos]? = some c ∧ c.differs = true ∧
    c.joined = true

/-- At the head of the `while`: the run is open, and has begun unless it begins here. -/
structure MemScan.InRun (ms : List LiveMapping) (mapping : LiveMapping) (s : MemScan) (pos : Nat)
    (done : List (List Cell)) (run : List Cell) : Prop where
  nonempty : 0 < mapping.n.toNat
  started : s.rangeStarted = true
  scanning : ScanningCells ms pos done run
  opened : s.change.Collects run
  begins : run = [] → s.i.toNat < mapping.n.toNat ∧
    ∃ c, (cells ms)[pos]? = some c ∧ c.differs = true ∧ s.rangeStart = c.addr
  goesOn : run ≠ [] → s.i.toNat < mapping.n.toNat → ∀ c, (cells ms)[pos]? = some c →
    c.joined = true

/-- Where the scan is among all bytes. -/
def MemScan.position (ms : List LiveMapping) (s : MemScan) : Nat :=
  match s.loc with
  | .mapping => offset ms s.m
  | _ => offset ms s.m + s.i.toNat

/-- What holds at the place where the scan is. -/
def MemScan.At (ms : List LiveMapping) (s : MemScan) (done : List (List Cell))
    (run : List Cell) : Prop :=
  match s.loc with
  | .mapping => s.AtHead ms (s.position ms) done run
  | .byte => ∃ mapping, ms[s.m]? = some mapping ∧ s.i.toNat ≤ mapping.n.toNat ∧
      s.AtHead ms (s.position ms) done run
  | .run => ∃ mapping, ms[s.m]? = some mapping ∧ s.i.toNat ≤ mapping.n.toNat ∧
      s.InRun ms mapping (s.position ms) done run

/-- There are still slots. -/
structure MemScan.Going (arch : Arch) (ms : List LiveMapping) (s : MemScan)
    (done : List (List Cell)) (run : List Cell) : Prop where
  records : List.Forall₂ MemChange.Records s.memChanges done
  room : done.length < arch.CHECK_MEM_MAX_NUMBER_MEM_CHANGES
  notEnded : s.endLogging = false
  le : s.m ≤ ms.length
  here : s.At ms done run

/-- All slots are used. -/
structure MemScan.Full (arch : Arch) (ms : List LiveMapping) (s : MemScan) : Prop where
  loc : s.loc = .mapping
  ended : s.endLogging = true
  records : List.Forall₂ MemChange.Records s.memChanges (recordedRuns arch ms)

def MemScan.Inv (arch : Arch) (ms : List LiveMapping) (s : MemScan) : Prop :=
  s.Full arch ms ∨ ∃ done run, s.Going arch ms done run

def MemScan.Loc.rank : MemScan.Loc → Nat
  | .mapping => 2
  | .byte => 1
  | .run => 0

/-- The passes that are left, at most: one for each byte, a few for each mapping and each run. -/
def MemScan.left (arch : Arch) (ms : List LiveMapping) (s : MemScan) : Nat :=
  4 * (arch.CHECK_MEM_MAX_NUMBER_MEM_CHANGES - s.memChanges.length) + 4 * (ms.length - s.m) +
    (offset ms ms.length - s.position ms) + s.loc.rank

/-- A pass keeps the invariant and comes nearer to the end, or is the last and has recorded what it
should. -/
def MemScan.Advances (arch : Arch) (ms : List LiveMapping) (s : MemScan) (pass : ScanPass) : Prop :=
  (∃ s', pass = .next s' ∧ s'.Inv arch ms ∧ s'.left arch ms < s.left arch ms) ∨
    ∃ r, pass = .stop r ∧ r.Right arch ms

/-- The index has not left its range as long as there are slots. -/
theorem Narrow.index_lt (h : Narrow arch ms) {m : Nat} (hm : ms[m]? = some mapping) {k : Nat}
    (hk : k ≤ mapping.n.toNat) (hscan : ScanningCells ms (offset ms m + k) done run)
    (hroom : done.length < arch.CHECK_MEM_MAX_NUMBER_MEM_CHANGES) : k < 2 ^ 32 := by
  by_contra hlong
  have hends := h.mappings m mapping hm (by omega)
  have hshown := hscan.ended_le
  -- the bytes up to the last index are among those that were passed
  have hsplit : (cells ms).take (offset ms m + k) =
      (cells ms).take (offset ms m + 2 ^ 32) ++
        ((cells ms).take (offset ms m + k)).drop (offset ms m + 2 ^ 32) := by
    conv_lhs => rw [← List.take_append_drop (offset ms m + 2 ^ 32)
      ((cells ms).take (offset ms m + k)), List.take_take, Nat.min_eq_left (by omega)]
  have hmono : ended Cell.differs (fun _ c => c.joined) ((cells ms).take (offset ms m + 2 ^ 32)) ≤
      ended Cell.differs (fun _ c => c.joined) ((cells ms).take (offset ms m + k)) := by
    rw [hsplit]
    exact ended_le_append _ _
  omega

/-- A run that is closed while there are slots is shorter than `2 ^ 32`. -/
theorem Narrow.run_lt (h : Narrow arch ms) (hscan : ScanningCells ms pos (done ++ [run]) [])
    (hroom : done.length < arch.CHECK_MEM_MAX_NUMBER_MEM_CHANGES) : run.length < 2 ^ 32 := by
  apply h.runs
  rw [recordedRuns, changedRuns, hscan.markedRuns_eq, List.take_append, List.take_of_length_le (by
    rw [List.length_append, List.length_singleton]; omega)]
  simp

/-! ## One pass

Each loop in turn: it keeps the invariant and gets on. -/

theorem MemScan.AtHead.inRun (h : s.AtHead ms pos done run) (hstarted : s.rangeStarted = true)
    (hi : s.i.toNat < mapping.n.toNat) :
    { s with loc := .run }.InRun ms mapping pos done run := by
  obtain ⟨hne, hcollects⟩ := h.opened hstarted
  refine ⟨by omega, hstarted, h.scanning, hcollects, fun hnil => absurd hnil hne, ?_⟩
  intro _ _ c hc
  obtain ⟨c', hc', -, hjoined⟩ := h.goesOn hstarted
  obtain rfl : c' = c := Option.some.inj (hc'.symm.trans hc)
  exact hjoined

/-- On to the next mapping, from the end of one. -/
theorem MemScan.Going.nextMapping (h : s.Going arch ms done run) (hloc : s.loc ≠ .mapping)
    (hm : ms[s.m]? = some mapping) (hle : s.i.toNat ≤ mapping.n.toNat) (i : UInt32)
    (hhead : { s with i }.AtHead ms (offset ms s.m + mapping.n.toNat) done run) :
    s.Advances arch ms (.next { s with i }.nextMapping) := by
  have hlt : s.m < ms.length := (List.getElem?_eq_some_iff.mp hm).1
  have hpos : { s with i }.nextMapping.position ms = offset ms s.m + mapping.n.toNat :=
    offset_succ hm
  refine Or.inl ⟨_, rfl, Or.inr ⟨done, run, h.records, h.room, h.notEnded, hlt, ?_⟩, ?_⟩
  · show MemScan.AtHead ms _ ({ s with i }.nextMapping.position ms) done run
    rw [hpos]
    exact ⟨hhead.scanning, hhead.closed, hhead.opened, hhead.goesOn⟩
  · have hbefore : s.position ms = offset ms s.m + s.i.toNat := by
      unfold position
      split
      next hmapping => exact absurd hmapping hloc
      next => rfl
    rw [left, left, hpos, hbefore]
    show 4 * (_ - s.memChanges.length) + 4 * (ms.length - (s.m + 1)) + _ + 2 < _
    omega

/-- The open run goes into a slot, and another pass over the bytes follows or the end. -/
theorem MemScan.Going.record (hn : Narrow arch ms) (h : s.Going arch ms done run)
    (hloc : s.loc = .run) (hm : ms[s.m]? = some mapping) (hle : s.i.toNat ≤ mapping.n.toNat)
    (hne : run ≠ []) (hcollects : s.change.Collects run)
    (hclose : ScanningCells ms (offset ms s.m + s.i.toNat) (done ++ [run]) []) :
    s.Advances arch ms (match s.record arch with
      | none => .stop .assertion
      | some s =>
          if s.memChanges.length ≥ arch.CHECK_MEM_MAX_NUMBER_MEM_CHANGES then
            .next { s with endLogging := true }.nextMapping
          else .next { s with loc := .byte }) := by
  have hlt : s.m < ms.length := (List.getElem?_eq_some_iff.mp hm).1
  have hlen := h.records.length_eq
  have hroom := h.room
  -- the run that is closed goes behind the ones that were recorded
  have hrecords : List.Forall₂ MemChange.Records (s.memChanges ++ [s.change]) (done ++ [run]) :=
    List.rel_append h.records
      (List.Forall₂.cons (hcollects.records hne (hn.run_lt hclose h.room)) List.Forall₂.nil)
  have hbefore : s.position ms = offset ms s.m + s.i.toNat := by rw [position, hloc]
  rw [MemScan.record, if_pos (by omega)]
  show s.Advances arch ms (if (s.memChanges ++ [s.change]).length ≥ _ then _ else _)
  rw [List.length_append, List.length_singleton]
  split
  next hfull =>
    refine Or.inl ⟨_, rfl, Or.inl ⟨rfl, rfl, ?_⟩, ?_⟩
    · -- all slots are used, so these are the first of all runs
      have htake : recordedRuns arch ms = done ++ [run] := by
        rw [recordedRuns, changedRuns, hclose.markedRuns_eq]
        exact List.take_left' (by rw [List.length_append, List.length_singleton]; omega)
      rw [htake]
      exact hrecords
    · rw [left, left, hbefore, hloc]
      show 4 * (_ - (s.memChanges ++ [s.change]).length) + 4 * (ms.length - (s.m + 1)) +
        (offset ms ms.length - offset ms (s.m + 1)) + 2 < _
      have hsucc := offset_succ hm
      rw [List.length_append, List.length_singleton]
      omega
  next hfull =>
    refine Or.inl ⟨_, rfl, Or.inr ⟨done ++ [run], [], hrecords, ?_, h.notEnded, h.le, ?_⟩, ?_⟩
    · rw [List.length_append, List.length_singleton]
      omega
    · exact ⟨mapping, hm, hle, hclose, fun _ => rfl, nofun, nofun⟩
    · rw [left, left, hbefore, hloc]
      show 4 * (_ - (s.memChanges ++ [s.change]).length) + 4 * (ms.length - s.m) +
        (offset ms ms.length - (offset ms s.m + s.i.toNat)) + 1 < _
      rw [List.length_append, List.length_singleton]
      omega

/-- Equal bytes are passed over. -/
theorem scanning_skip_equal (hm : ms[s.m]? = some mapping) {k : Nat}
    (hscan : ScanningCells ms (offset ms s.m + s.i.toNat) done [])
    (hle : s.i.toNat + k ≤ mapping.n.toNat)
    (hequal : ∀ j < k, mapping.changed (s.i.toNat + j) = none) :
    ScanningCells ms (offset ms s.m + (s.i.toNat + k)) done [] := by
  induction k with
  | zero => exact hscan
  | succ k ih =>
      have hprev := ih (by omega) fun j hj => hequal j (by omega)
      have hlt : s.i.toNat + k < mapping.n.toNat := by omega
      obtain ⟨c, hc, -⟩ := exists_cell hm hlt
      exact hprev.skip hc (differs_eq_false_of_changed hm hlt hc (hequal k (Nat.lt_succ_self k)))

/-- On to the `while`, from the head of the loop over the bytes or from a byte before. -/
theorem MemScan.Going.toRun (h : s.Going arch ms done run) (hm : ms[s.m]? = some mapping)
    {s' : MemScan} (hloc' : s'.loc = .run) (hm' : s'.m = s.m)
    (hchanges : s'.memChanges = s.memChanges) (hend : s'.endLogging = s.endLogging)
    (hfwd : s.loc = .byte ∧ s.i.toNat ≤ s'.i.toNat ∨ s.loc = .run ∧ s.i.toNat < s'.i.toNat)
    (hle : s'.i.toNat ≤ mapping.n.toNat) (run' : List Cell)
    (hin : s'.InRun ms mapping (offset ms s.m + s'.i.toNat) done run') :
    s.Advances arch ms (.next s') := by
  have hafter : s'.position ms = offset ms s.m + s'.i.toNat := by rw [position, hloc', hm']
  have hin' := offset_add_le hm
  refine Or.inl ⟨s', rfl, Or.inr ⟨done, run', hchanges ▸ h.records, h.room, hend ▸ h.notEnded,
    hm' ▸ h.le, ?_⟩, ?_⟩
  · rw [MemScan.At, hloc']
    exact ⟨mapping, hm' ▸ hm, hle, hafter ▸ hin⟩
  · rw [left, left, hafter, hloc', hchanges, hm']
    rcases hfwd with ⟨hloc, hfwd⟩ | ⟨hloc, hfwd⟩
    · have hbefore : s.position ms = offset ms s.m + s.i.toNat := by rw [position, hloc]
      rw [hbefore, hloc, Loc.rank, Loc.rank]
      omega
    · have hbefore : s.position ms = offset ms s.m + s.i.toNat := by rw [position, hloc]
      rw [hbefore, hloc]
      omega

theorem MemScan.Going.bytePass (hn : Narrow arch ms) (h : s.Going arch ms done run)
    (hloc : s.loc = .byte) (hm : ms[s.m]? = some mapping) :
    s.Advances arch ms (s.bytePass mapping) := by
  have hhere := h.here
  have hbefore : s.position ms = offset ms s.m + s.i.toNat := by rw [position, hloc]
  rw [MemScan.At, hloc] at hhere
  obtain ⟨mapping', hm', hle, hhead⟩ := hhere
  obtain rfl : mapping' = mapping := Option.some.inj (hm'.symm.trans hm)
  rw [hbefore] at hhead
  have hloc' : s.loc ≠ .mapping := by
    rw [hloc]
    nofun
  rw [MemScan.bytePass]
  split
  next hi =>
    by_cases hstarted : s.rangeStarted = true
    · rw [if_pos hstarted]
      exact h.toRun hm rfl rfl rfl rfl (Or.inl ⟨hloc, Nat.le_refl _⟩) hle run
        (hhead.inRun hstarted hi)
    · obtain rfl := hhead.closed (Bool.eq_false_iff.mpr hstarted)
      obtain ⟨hkle, hequal, hstops⟩ := mapping'.equalFrom_spec hi
      have hscan := scanning_skip_equal hm hhead.scanning hkle hequal
      have hlt := hn.index_lt hm hkle hscan h.room
      have hi' : (s.skipEqual mapping').toNat = s.i.toNat + mapping'.equalFrom s.i.toNat := by
        have hsize : mapping'.equalFrom s.i.toNat < UInt32.size :=
          (Nat.le_add_left _ _).trans_lt hlt
        rw [skipEqual, UInt32.toNat_add, UInt32.toNat_ofNat_of_lt' hsize, Nat.mod_eq_of_lt hlt]
      rw [if_neg hstarted]
      show s.Advances arch ms (if (s.skipEqual mapping').toNat ≥ _ then _ else _)
      rw [hi']
      split
      next hend =>
        refine h.nextMapping hloc' hm hle _ ?_
        have heq := Nat.le_antisymm hkle hend
        exact heq ▸ ⟨hscan, fun _ => rfl, fun h => absurd h hstarted, fun h => absurd h hstarted⟩
      next hend =>
        -- the byte behind the equal ones differs, and a run begins there
        have hlt' : s.i.toNat + mapping'.equalFrom s.i.toNat < mapping'.n.toNat := by omega
        obtain ⟨c, hc, haddr, -, hchanged⟩ := exists_cell hm hlt'
        have hdiffers : c.differs = true := by
          by_contra hd
          exact hstops hlt' (hchanged.trans (if_neg hd))
        have hfwd : s.i.toNat ≤ (s.skipEqual mapping').toNat := by omega
        have hstart : mapping'.start + (s.skipEqual mapping').toUInt64 = c.addr := by
          rw [haddr, ← hi', UInt64.ofNat_uInt32ToNat]
        refine h.toRun hm rfl rfl rfl rfl (Or.inl ⟨hloc, hfwd⟩) (hi' ▸ hkle) [] ?_
        exact ⟨by omega, rfl, hi' ▸ hscan, ⟨nofun, rfl, fun _ => rfl, rfl⟩,
          fun _ => ⟨hi' ▸ hlt', c, hi' ▸ hc, hdiffers, hstart⟩, fun h => absurd rfl h⟩
  next hi =>
    have heq : s.i.toNat = mapping'.n.toNat := by omega
    refine h.nextMapping hloc' hm hle s.i ?_
    rw [← heq]
    exact hhead

theorem MemScan.Going.runPass (hn : Narrow arch ms) (h : s.Going arch ms done run)
    (hloc : s.loc = .run) (hm : ms[s.m]? = some mapping) :
    s.Advances arch ms (s.runPass arch mapping ms[s.m + 1]?) := by
  have hhere := h.here
  have hbefore : s.position ms = offset ms s.m + s.i.toNat := by rw [position, hloc]
  rw [MemScan.At, hloc] at hhere
  obtain ⟨mapping', hm', hle, hin⟩ := hhere
  obtain rfl : mapping' = mapping := Option.some.inj (hm'.symm.trans hm)
  rw [hbefore] at hin
  have hloc' : s.loc ≠ .mapping := by
    rw [hloc]
    nofun
  rw [MemScan.runPass]
  split
  next b hb =>
    have hi := LiveMapping.lt_of_changed hb
    obtain ⟨c, hc, -⟩ := exists_cell hm hi
    obtain ⟨hdiffers, rfl⟩ := differs_of_changed hm hi hc hb
    have hscan : ScanningCells ms (offset ms s.m + (s.i.toNat + 1)) done (run ++ [c]) := by
      refine hin.scanning.take hc hdiffers fun x hx => hin.goesOn ?_ hi c hc
      rintro rfl
      cases hx
    have hlt := hn.index_lt hm hi hscan h.room
    have hi' : (s.i + 1).toNat = s.i.toNat + 1 := by
      rw [UInt32.toNat_add]
      exact Nat.mod_eq_of_lt hlt
    have hstart : run = [] → s.rangeStart = c.addr := by
      intro hnil
      obtain ⟨-, c', hc', -, haddr⟩ := hin.begins hnil
      obtain rfl : c' = c := Option.some.inj (hc'.symm.trans hc)
      exact haddr
    refine h.toRun hm hloc rfl rfl rfl (Or.inr ⟨hloc, ?_⟩) ?_ (run ++ [c]) ?_
    · exact hi' ▸ Nat.lt_succ_self _
    · exact hi' ▸ hi
    · refine ⟨hin.nonempty, hin.started, hi' ▸ hscan, hin.opened.consume hstart,
        fun hnil => absurd hnil (by simp), fun _ hlt' c' hc' => ?_⟩
      -- within a mapping every byte is joined to the one before
      obtain ⟨-, hjoined, -⟩ := cell_spec hm hlt' hc'
      have hpos : 0 < (s.i + 1).toNat := by omega
      rw [hjoined]
      exact (Bool.or_eq_true _ _).mpr (Or.inr (decide_eq_true hpos))
  next hb =>
    have hne : run ≠ [] := by
      rintro rfl
      obtain ⟨hi, c, hc, hdiffers, -⟩ := hin.begins rfl
      rw [differs_eq_false_of_changed hm hi hc hb] at hdiffers
      cases hdiffers
    rw [if_pos hin.started]
    split
    next hcont =>
      rw [Bool.and_eq_true, decide_eq_true_eq] at hcont
      have heq := Nat.le_antisymm hle hcont.1
      refine h.nextMapping hloc' hm hle s.i ⟨heq ▸ hin.scanning,
        fun hstarted => absurd (hin.started.symm.trans hstarted) nofun,
        fun _ => ⟨hne, hin.opened⟩, fun _ => ?_⟩
      rw [← offset_succ hm]
      exact (differs_and_joined_iff hm hin.nonempty).mpr hcont.2
    next hcont =>
      refine h.record hn hloc hm hle hne hin.opened (hin.scanning.close hne ?_)
      intro x _ y hy
      by_contra hlinked
      rw [Bool.not_eq_false, linked_iff] at hlinked
      obtain ⟨-, hdiffers, hjoined⟩ := hlinked
      -- the next byte is equal, or behind the mapping and not linked
      rcases Nat.lt_or_ge s.i.toNat mapping'.n.toNat with hlt | hge
      · rw [differs_eq_false_of_changed hm hlt hy hb] at hdiffers
        cases hdiffers
      · have heq := Nat.le_antisymm hle hge
        rw [heq, ← offset_succ hm] at hy
        have hgoes := (differs_and_joined_iff hm hin.nonempty).mp ⟨y, hy, hdiffers, hjoined⟩
        exact hcont (by rw [hgoes, Bool.and_true, decide_eq_true hge])

/-- Behind the last mapping no run is open. -/
theorem MemScan.Going.finish (h : s.Going arch ms done run) (hloc : s.loc = .mapping)
    (hm : ms[s.m]? = none) : s.Advances arch ms (s.finish arch) := by
  have hlen : ms.length ≤ s.m := List.getElem?_eq_none_iff.mp hm
  have hpos : s.position ms = (cells ms).length := by
    rw [position, hloc, length_cells, Nat.le_antisymm h.le hlen]
  have hhere := h.here
  rw [MemScan.At, hloc, hpos] at hhere
  have hclosed : s.rangeStarted = false := by
    by_contra hstarted
    obtain ⟨c, hc, -⟩ := hhere.goesOn (Bool.not_eq_false _ ▸ hstarted)
    rw [List.getElem?_length] at hc
    cases hc
  obtain rfl := hhere.closed hclosed
  rw [MemScan.finish, hclosed]
  have hruns : recordedRuns arch ms = done := by
    rw [recordedRuns, changedRuns, hhere.scanning.markedRuns_eq_done (Nat.le_refl _),
      List.take_of_length_le h.room.le]
  refine Or.inr ⟨.recorded s.memChanges, rfl, ?_⟩
  rw [ScanEnd.Right, hruns]
  exact h.records

theorem MemScan.Going.mappingPass (h : s.Going arch ms done run) (hloc : s.loc = .mapping)
    (hm : ms[s.m]? = some mapping) :
    s.Advances arch ms (.next { s with loc := .byte, i := 0 }) := by
  have hpos : s.position ms = offset ms s.m := by rw [position, hloc]
  have hhere := h.here
  rw [MemScan.At, hloc, hpos] at hhere
  refine Or.inl ⟨_, rfl, Or.inr ⟨done, run, h.records, h.room, h.notEnded, h.le, mapping, hm,
    Nat.zero_le _, hhere.scanning, hhere.closed, hhere.opened, hhere.goesOn⟩, ?_⟩
  rw [left, left, hpos, hloc]
  exact Nat.lt_succ_self _

end Invariant

section Scan

variable {arch : Arch} {mappings autoMappings : List LiveMapping} {s : MemScan}

theorem MemScan.Inv.advances (hn : Narrow arch (mappings ++ autoMappings))
    (h : s.Inv arch (mappings ++ autoMappings)) :
    s.Advances arch (mappings ++ autoMappings) (scanStep arch mappings autoMappings s) := by
  rw [scanStep, mappingAt_eq, mappingAt_eq]
  rcases h with hfull | ⟨done, run, h⟩
  · have hstop : s.finish arch = .stop (.recorded s.memChanges) := by
      rw [finish, hfull.ended, Bool.not_true, Bool.and_false]
      rfl
    refine Or.inr ⟨.recorded s.memChanges, ?_, hfull.records⟩
    rw [hfull.loc]
    split
    · exact hstop
    · exact (if_pos hfull.ended).trans hstop
  · have hhere := h.here
    unfold MemScan.At at hhere
    -- which loop makes the pass
    cases hloc : s.loc with
    | mapping =>
        split
        next hm => exact h.finish hloc hm
        next mapping hm =>
          have hgoing : ¬s.endLogging = true := Bool.eq_false_iff.mp h.notEnded
          show s.Advances arch _ (if s.endLogging = true then _ else _)
          rw [if_neg hgoing]
          exact h.mappingPass hloc hm
    | byte =>
        rw [hloc] at hhere
        obtain ⟨mapping, hm, -⟩ := hhere
        rw [hm]
        exact h.bytePass hn hloc hm
    | run =>
        rw [hloc] at hhere
        obtain ⟨mapping, hm, -⟩ := hhere
        rw [hm]
        exact h.runPass hn hloc hm

theorem MemScan.inv_start (arch : Arch) (ms : List LiveMapping)
    (curVal : Vector UInt8 CHECK_MEM_CUT_AT) : (MemScan.start curVal).Inv arch ms :=
  Or.inr ⟨[], [], List.Forall₂.nil, by cases arch <;> decide, rfl, Nat.zero_le _, scanning_zero,
    fun _ => rfl, nofun, nofun⟩

theorem Narrow.recordsChanges (hn : Narrow arch (mappings ++ autoMappings)) :
    RecordsChanges arch mappings autoMappings := fun curVal =>
  exists_stops_of_invariant (MemScan.left arch (mappings ++ autoMappings))
    (fun _ hs => hs.advances hn) (MemScan.inv_start arch _ curVal)

theorem exists_of_forall₂ {α β : Type} {R : α → β → Prop} {xs : List α} {ys : List β}
    (h : List.Forall₂ R xs ys) {y : β} (hy : y ∈ ys) : ∃ x, R x y := by
  induction h with
  | nil => cases hy
  | cons hxy _ ih =>
      rcases List.mem_cons.mp hy with rfl | hy
      · exact ⟨_, hxy⟩
      · exact ih hy

/-- A slot cannot hold a length from `2 ^ 32` on. -/
theorem RecordsChanges.length_lt (h : RecordsChanges arch mappings autoMappings) :
    ∀ run ∈ recordedRuns arch (mappings ++ autoMappings), run.length < 2 ^ 32 := by
  intro run hrun
  obtain ⟨r, -, hright⟩ := h (Vector.replicate _ 0)
  cases r with
  | assertion => cases hright
  | recorded memChanges =>
      obtain ⟨m, hm⟩ := exists_of_forall₂ hright hrun
      rw [← hm.n]
      exact m.n.toNat_lt

/-! ## The assertion

A run is closed only when there is a slot for it, as the scan stops at the last one. -/

/-- There is a slot left, or the scan is about to end. -/
def MemScan.HasSlot (arch : Arch) (s : MemScan) : Prop :=
  s.endLogging = false ∧ s.memChanges.length < arch.CHECK_MEM_MAX_NUMBER_MEM_CHANGES ∨
    s.endLogging = true ∧ s.loc = .mapping

/-- A pass adds to what is recorded, and the assertion holds. -/
inductive MemScan.Extends (arch : Arch) (s : MemScan) : ScanPass → Prop where
  | next {s' : MemScan} (slot : s'.HasSlot arch) (le : s.memChanges <+: s'.memChanges) :
      Extends arch s (.next s')
  | stop {memChanges : List MemChange} (le : s.memChanges <+: memChanges) :
      Extends arch s (.stop (.recorded memChanges))

theorem MemScan.HasSlot.bytePass (hend : s.endLogging = false)
    (hroom : s.memChanges.length < arch.CHECK_MEM_MAX_NUMBER_MEM_CHANGES) (mapping : LiveMapping) :
    s.Extends arch (s.bytePass mapping) := by
  have hkeep : ∀ s' : MemScan, s'.endLogging = s.endLogging → s'.memChanges = s.memChanges →
      s.Extends arch (.next s') := fun s' hend' hchanges =>
    .next (Or.inl ⟨hend'.trans hend, hchanges ▸ hroom⟩) (hchanges ▸ List.prefix_refl _)
  unfold MemScan.bytePass
  split
  · split
    · exact hkeep _ rfl rfl
    · show s.Extends arch (if _ then _ else _)
      split
      · exact hkeep _ rfl rfl
      · exact hkeep _ rfl rfl
  · exact hkeep _ rfl rfl

theorem MemScan.HasSlot.runPass (hend : s.endLogging = false)
    (hroom : s.memChanges.length < arch.CHECK_MEM_MAX_NUMBER_MEM_CHANGES) (mapping : LiveMapping)
    (next : Option LiveMapping) : s.Extends arch (s.runPass arch mapping next) := by
  have hkeep : ∀ s' : MemScan, s'.endLogging = s.endLogging → s'.memChanges = s.memChanges →
      s.Extends arch (.next s') := fun s' hend' hchanges =>
    .next (Or.inl ⟨hend'.trans hend, hchanges ▸ hroom⟩) (hchanges ▸ List.prefix_refl _)
  unfold MemScan.runPass
  split
  · exact hkeep _ rfl rfl
  · split
    · split
      · exact hkeep _ rfl rfl
      · rw [record, if_pos hroom]
        show s.Extends arch (if (s.memChanges ++ [s.change]).length ≥ _ then _ else _)
        split
        next => exact .next (Or.inr ⟨rfl, rfl⟩) (List.prefix_append _ _)
        next hfull => exact .next (Or.inl ⟨hend, not_le.mp hfull⟩) (List.prefix_append _ _)
    · exact hkeep _ rfl rfl

theorem MemScan.HasSlot.finish (h : s.HasSlot arch) : s.Extends arch (s.finish arch) := by
  unfold MemScan.finish
  split
  next hopen =>
    rw [Bool.and_eq_true, Bool.not_eq_true'] at hopen
    rcases h with ⟨-, hroom⟩ | ⟨hend, -⟩
    · rw [record, if_pos hroom]
      exact .stop (List.prefix_append _ _)
    · rw [hend] at hopen
      cases hopen.2
  next => exact .stop (List.prefix_refl _)

theorem MemScan.HasSlot.scanStep (h : s.HasSlot arch) :
    s.Extends arch (scanStep arch mappings autoMappings s) := by
  unfold RISCover.scanStep
  split
  next => exact h.finish
  next mapping _ =>
    rcases h with ⟨hend, hroom⟩ | ⟨hend, hloc⟩
    · cases hloc : s.loc with
      | mapping =>
          show s.Extends arch (if s.endLogging = true then _ else _)
          rw [if_neg (Bool.eq_false_iff.mp hend)]
          exact .next (Or.inl ⟨hend, hroom⟩) (List.prefix_refl _)
      | byte => exact HasSlot.bytePass hend hroom mapping
      | run => exact HasSlot.runPass hend hroom mapping _
    · rw [hloc]
      show s.Extends arch (if s.endLogging = true then _ else _)
      rw [if_pos hend]
      exact HasSlot.finish (Or.inr ⟨hend, hloc⟩)

/-- Whatever the mappings are, the assertion holds and nothing that was recorded is lost. -/
theorem MemScan.HasSlot.recorded (h : s.HasSlot arch) {r : ScanEnd}
    (hstops : Stops (RISCover.scanStep arch mappings autoMappings) s r) :
    ∃ memChanges, r = .recorded memChanges ∧ s.memChanges <+: memChanges := by
  refine Stops.of_invariant
    (P := fun s' : MemScan => s'.HasSlot arch ∧ s.memChanges <+: s'.memChanges)
    (Q := fun r => ∃ memChanges, r = .recorded memChanges ∧ s.memChanges <+: memChanges)
    ?_ ?_ ⟨h, List.prefix_refl _⟩ hstops
  · rintro s₁ s₂ ⟨hslot, hle⟩ hstep
    have hext : s₁.Extends arch (RISCover.scanStep arch mappings autoMappings s₁) := hslot.scanStep
    rw [hstep] at hext
    cases hext with
    | next hslot' hle' => exact ⟨hslot', hle.trans hle'⟩
  · rintro s₁ r' ⟨hslot, hle⟩ hstep
    have hext : s₁.Extends arch (RISCover.scanStep arch mappings autoMappings s₁) := hslot.scanStep
    rw [hstep] at hext
    cases hext with
    | stop hle' => exact ⟨_, rfl, hle.trans hle'⟩

theorem MemScan.hasSlot_start (arch : Arch) (curVal : Vector UInt8 CHECK_MEM_CUT_AT) :
    (MemScan.start curVal).HasSlot arch :=
  Or.inl ⟨rfl, by cases arch <;> exact Nat.zero_lt_succ _⟩

end Scan

/-! ## When the changes are recorded

The counters are of 32 bits, so this is so for mappings and runs below 2^32. A mapping beyond it
makes the scan go round. -/

/-- The scan records what it should if its 32-bit numbers are wide enough. Where every mapping is
shorter than `2 ^ 32` bytes they have to be. In any case the assertion holds, and comparing in
chunks finds the first difference. -/
theorem recordsChanges_iff (arch : Arch) (mappings autoMappings : List LiveMapping) :
    (Narrow arch (mappings ++ autoMappings) → RecordsChanges arch mappings autoMappings) ∧
    ((∀ mapping ∈ mappings ++ autoMappings, mapping.n.toNat < 2 ^ 32) →
      (RecordsChanges arch mappings autoMappings ↔ Narrow arch (mappings ++ autoMappings))) ∧
    (∀ curVal, ¬Stops (scanStep arch mappings autoMappings) (MemScan.start curVal) .assertion) ∧
    ∀ a b n, memcmpCommonPrefix a b n = skipBytes a b n 0 := by
  refine ⟨Narrow.recordsChanges, fun hshort => ⟨fun h => ?_, Narrow.recordsChanges⟩, ?_,
    memcmpCommonPrefix_eq⟩
  · refine ⟨h.length_lt, fun m mapping hm hlong => ?_⟩
    exact absurd (hshort mapping (List.mem_of_getElem? hm)) (Nat.not_lt.mpr hlong)
  · intro curVal hstops
    obtain ⟨memChanges, heq, -⟩ := (MemScan.hasSlot_start arch curVal).recorded hstops
    cases heq

/-- The changes of `[2, 7, 7]` to `[2, 8, 9]` and, right behind it, of `[1]` to `[3]`. -/
def pair : List LiveMapping :=
  [⟨⟨0x10000, 3, 3, [2, 7, 7]⟩, [2, 8, 9], rfl, rfl⟩, ⟨⟨0x10003, 1, 3, [1]⟩, [3], rfl, rfl⟩]

theorem recordsChanges_iff_pair : RecordsChanges .riscv64 pair [] := by
  refine (recordsChanges_iff .riscv64 pair []).1 ⟨by decide, fun m mapping hm hlong => ?_⟩
  have hshort : ∀ mapping ∈ pair, mapping.n.toNat < 2 ^ 32 := by decide
  exact absurd (hshort mapping (List.mem_of_getElem? hm)) (Nat.not_lt.mpr hlong)

/-- A mapping of zeros that nothing was written to. -/
def zeroMapping (start n : UInt64) : LiveMapping where
  start := start
  n := n
  prot := 3
  val := List.replicate n.toNat 0
  rwMapping := List.replicate n.toNat 0
  length_val := List.length_replicate
  length_rwMapping := List.length_replicate

/-- Skipping all bytes of four gigabytes leads back to the first. -/
theorem skipEqual_zeroMapping {s : MemScan} (start : UInt64) (hi : s.i = 0) :
    s.skipEqual (zeroMapping start 0x100000000) = 0 := by
  have hequal : (zeroMapping start 0x100000000).equalFrom 0 = 2 ^ 32 :=
    (commonPrefix_memcmpCommonPrefix _ _ _).unique
      ⟨Nat.le_refl _, fun _ _ => rfl, fun hlt => absurd hlt (Nat.lt_irrefl _)⟩
  rw [MemScan.skipEqual, hi, UInt32.toNat_zero, hequal]
  rfl

/-- Four gigabytes of which no byte was changed: the index comes back to the first byte, and a run
without bytes is recorded. -/
theorem zeroMapping_not_recordsChanges :
    ¬RecordsChanges .riscv64 [zeroMapping 0x10000000 0x100000000] [] := by
  intro h
  let mapping := zeroMapping 0x10000000 0x100000000
  let curVal : Vector UInt8 CHECK_MEM_CUT_AT := Vector.replicate _ 0
  obtain ⟨r, hstops, hright⟩ := h curVal
  have hunchanged : mapping.changed 0 = none := LiveMapping.changed_of_eq rfl
  -- what the first passes lead to: a slot for a run without bytes
  let s₁ : MemScan := { MemScan.start curVal with loc := .byte, i := 0 }
  let s₂ : MemScan := s₁.startRange mapping
  let s₃ : MemScan :=
    { s₂ with loc := .byte, memChanges := [s₂.change], rangeStarted := false }
  have hstep₁ : scanStep .riscv64 [mapping] [] (MemScan.start curVal) = .next s₁ := rfl
  have hstep₂ : scanStep .riscv64 [mapping] [] s₁ = .next s₂ := by
    show s₁.bytePass mapping = _
    have hskip : s₁.skipEqual mapping = 0 := skipEqual_zeroMapping _ rfl
    have hclosed : ¬s₁.rangeStarted = true := Bool.false_ne_true
    rw [MemScan.bytePass, if_pos (by decide), if_neg hclosed, hskip]
    exact if_neg (by decide)
  have hstep₃ : scanStep .riscv64 [mapping] [] s₂ = .next s₃ := by
    show s₂.runPass .riscv64 mapping none = _
    have hunchanged' : mapping.changed s₂.i.toNat = none := hunchanged
    rw [MemScan.runPass, hunchanged']
    rfl
  have hstops₃ : Stops (scanStep .riscv64 [mapping] []) s₃ r := by
    rwa [← stops_next hstep₃, ← stops_next hstep₂, ← stops_next hstep₁]
  obtain ⟨memChanges, rfl, hle⟩ :=
    MemScan.HasSlot.recorded (Or.inl ⟨rfl, by decide⟩ : s₃.HasSlot .riscv64) hstops₃
  -- but there is no run
  have hruns : recordedRuns .riscv64 [mapping] = [] := by
    rw [recordedRuns, changedRuns, markedRuns_eq_nil fun c hc =>
      differs_eq_false_of_unchanged (show mapping.rwMapping = mapping.val from rfl) hc]
    rfl
  have hnone : List.Forall₂ MemChange.Records memChanges [] := hruns ▸ hright
  rw [List.forall₂_nil_right_iff.mp hnone] at hle
  exact List.cons_ne_nil _ _ (List.prefix_nil.mp hle)

end RISCover
