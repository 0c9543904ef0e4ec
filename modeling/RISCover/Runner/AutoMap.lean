import RISCover.Generator.Faults
import RISCover.Lib.Machine
import RISCover.Result.RoundTrip
import RISCover.Runner.Memory

/-!
# Pages mapped on demand

When a sequence ends with a fault, `run_with_instr_seq` maps the page of the fault address, fills
it and runs the sequence again, until there is no fault, the page cannot be mapped or there were
enough tries; then it runs the sequence once more and frees the pages.

What the tested code does and what the kernel answers is a parameter of the model that may depend
on everything that happened before (`Surroundings`). What the runner does is left in a list of
events.
-/

open Bytes

namespace RISCover

/-- `CHECK_MEM_MAX_TRIES`. -/
def Arch.CHECK_MEM_MAX_TRIES : Arch → Nat
  | .riscv64 => 50
  | .aarch64 => 5

/-! ## A new page

The protection and the content of a page are drawn from a generator that is seeded with the address.
No draw fails, as the ranges are constants. -/

def PROT_READ : UInt32 := 1
def PROT_WRITE : UInt32 := 2
def PROT_EXEC : UInt32 := 4

/-- A generator on the stack, seeded. -/
def seededRng (seed : UInt64) : SharedRng := rngInit ⟨Vector.replicate _ 0, 0⟩ seed

/-- `gen_random_prot`. -/
def genRandomProt (target : UInt64) : Except Fault UInt32 := do
  let (x, _) ← rngRandint 0 7 (seededRng target)
  pure (PROT_READ ||| (if x &&& 2 ≠ 0 then PROT_WRITE else 0) |||
    (if x &&& 4 ≠ 0 then PROT_EXEC else 0))

/-- The words of a new page. -/
def fillPage (arch : Arch) (map : FuzzingValueMap) (target : UInt64) :
    Except Fault (Vector UInt64 (arch.PAGE_SIZE / 8)) := do
  let (words, _) ← drawEach map.anyVal (arch.PAGE_SIZE / 8) (seededRng target)
  pure words

/-- The client's build, as far as this is concerned. -/
structure RunnerBuild where
  config : Config
  AUTO_MAP_MEM : Bool
  AUTO_MAP_MEM_RW_PROT : Bool
  fuzzingValueMap : FuzzingValueMap

theorem length_flatMap_words {n : Nat} (words : Vector UInt64 n) :
    (words.toList.flatMap fun w => leBytes 8 w.toNat).length = n * 8 := by
  rw [List.length_flatMap]
  simp

theorem PAGE_SIZE_eq (arch : Arch) :
    (UInt64.ofNat arch.PAGE_SIZE).toNat = arch.PAGE_SIZE / 8 * 8 := by
  cases arch <;> rfl

/-- `new_mapping` when it is set up and filled. New shared memory is zeroed. -/
def pageMapping (arch : Arch) (target : UInt64) (prot : UInt32)
    (words : Vector UInt64 (arch.PAGE_SIZE / 8)) : LiveMapping where
  start := target
  n := UInt64.ofNat arch.PAGE_SIZE
  prot := prot
  val := words.toList.flatMap fun w => leBytes 8 w.toNat
  rwMapping := List.replicate (UInt64.ofNat arch.PAGE_SIZE).toNat 0
  length_val := by rw [length_flatMap_words, PAGE_SIZE_eq]
  length_rwMapping := List.length_replicate

/-- The protection of a new page. -/
def newProt (b : RunnerBuild) (target : UInt64) : Except Fault UInt32 :=
  if b.AUTO_MAP_MEM_RW_PROT then pure (PROT_WRITE ||| PROT_READ) else genRandomProt target

def newMapping (b : RunnerBuild) (target : UInt64) : Except Fault LiveMapping := do
  let prot ← newProt b target
  let words ← fillPage b.config.arch b.fuzzingValueMap target
  pure (pageMapping b.config.arch target prot words)

/-- Neither the protection nor the content of a page leaves a table or divides by zero. -/
theorem exists_newMapping (b : RunnerBuild) (target : UInt64) :
    ∃ prot words, newMapping b target = .ok (pageMapping b.config.arch target prot words) := by
  -- the only draw has the constant range from 0 to 7
  have hprot : ∃ prot, newProt b target = .ok prot := by
    unfold newProt
    split
    · exact ⟨_, rfl⟩
    · have hgives : Runs.Gives (fun _ => False) (fun _ => True) (rngRandint 0 7) :=
        gives_rngRandint (by decide) (by decide)
      unfold genRandomProt
      cases hdraw : rngRandint 0 7 (seededRng target) with
      | ok p => exact ⟨_, rfl⟩
      | error e => exact (hgives.of_error hdraw).elim
  have hwords : ∃ words, fillPage b.config.arch b.fuzzingValueMap target = .ok words := by
    have hgives := gives_drawEach (E := fun _ => False) (gives_anyVal b.fuzzingValueMap)
      (b.config.arch.PAGE_SIZE / 8)
    unfold fillPage
    cases hdraw : drawEach b.fuzzingValueMap.anyVal (b.config.arch.PAGE_SIZE / 8)
      (seededRng target) with
    | ok p => exact ⟨_, rfl⟩
    | error e => exact (hgives.of_error hdraw).elim
  obtain ⟨prot, hprot⟩ := hprot
  obtain ⟨words, hwords⟩ := hwords
  refine ⟨prot, words, ?_⟩
  rw [newMapping, hprot, hwords]
  rfl

/-! ## The system

The kernel and the executions decide by all that has happened so far. `Surroundings.Keeps` is what
is assumed of them. -/

/-- What the runner does and is told. -/
inductive MemEvent where
  /-- The sequence is run, on the mappings as they are then. -/
  | run (mappings autoMappings : List LiveMapping)
  | check (page : UInt64) (mapped : Bool)
  | map (mapping : Mapping)
  | free (page : UInt64)

/-- The tested code and the kernel. What they do may depend on everything that happened, latest
event first. -/
structure Surroundings (c : Config) where
  result : List MemEvent → CResult c
  /-- What a run leaves in a mapping. -/
  left : List MemEvent → (mapping : LiveMapping) → Vector UInt8 mapping.n.toNat
  pageMapped : List MemEvent → UInt64 → Bool
  /-- Shared memory is there and can be mapped twice. -/
  mapSucceeds : List MemEvent → UInt64 → Bool

/-- The pages that are mapped and not freed. -/
def livePages : List MemEvent → List UInt64
  | [] => []
  | .map mapping :: events => mapping.start :: livePages events
  | .free page :: events => (livePages events).erase page
  | _ :: events => livePages events

/-- A page that was mapped stays reported as mapped until it is freed. -/
def Surroundings.Keeps {c : Config} (sys : Surroundings c) : Prop :=
  ∀ events, ∀ page ∈ livePages events, sys.pageMapped events page = true

/-! ## The runner

One pass maps one page and runs again. The pages are kept in a list that is freed in the end. -/

/-- The mappings as they are, and what happened. -/
structure Session where
  mappings : List LiveMapping
  autoMappings : List LiveMapping
  events : List MemEvent

/-- `load_memory_mapping`. -/
def LiveMapping.load (mapping : LiveMapping) : LiveMapping :=
  { mapping with rwMapping := mapping.val, length_rwMapping := mapping.length_val }

/-- A mapping after a run. -/
def Surroundings.touch {c : Config} (sys : Surroundings c) (events : List MemEvent)
    (mapping : LiveMapping) : LiveMapping :=
  { mapping with
    rwMapping := (sys.left events mapping).toList
    length_rwMapping := Vector.length_toList }

def CResult.isFault {c : Config} (r : CResult c) : Bool :=
  r.signum.toInt = SIGSEGV || r.signum.toInt = SIGBUS

/-- `si_addr & ~(page_size-1)`. -/
def faultPage (arch : Arch) (siAddr : UInt64) : UInt64 :=
  siAddr &&& ~~~UInt64.ofNat (arch.PAGE_SIZE - 1)

section Runner

variable (b : RunnerBuild) (sys : Surroundings b.config)

/-- `run_with_instr_seq_no_check_mem`. -/
def runNoCheckMem (s : Session) : CResult b.config × Session :=
  let mappings := s.mappings.map LiveMapping.load
  let events := .run mappings s.autoMappings :: s.events
  (sys.result events,
    ⟨mappings.map (sys.touch events), s.autoMappings.map (sys.touch events), events⟩)

/-- `run_with_instr_seq_no_check_mem_extra_mappings`, with all auto mappings. -/
def runExtraMappings (s : Session) : CResult b.config × Session :=
  runNoCheckMem b sys { s with autoMappings := s.autoMappings.map LiveMapping.load }

/-- `check_page_mapped`. -/
def checkPageMapped (page : UInt64) (s : Session) : Bool × Session :=
  let mapped := sys.pageMapped s.events page
  (mapped, { s with events := .check page mapped :: s.events })

/-- A page is set up, filled and stored behind the others; when that fails the runner exits. -/
def autoMapPage (target : UInt64) (s : Session) : Except Session Session :=
  let (mapped, s) := checkPageMapped b sys target s
  if mapped || !sys.mapSucceeds s.events target then .error s
  else
    match newMapping b target with
    | .error _ => .error s
    | .ok mapping => .ok { s with
        autoMappings := s.autoMappings ++ [mapping]
        events := .map mapping.toMapping :: s.events }

/-- The body of the loop: it is done again, left, or the runner exits. -/
def autoMapPass (r : CResult b.config) (s : Session) :
    Outcome (CResult b.config × Session) (Except Session Session) :=
  let target := faultPage b.config.arch r.siAddrr
  if target < 0x10000 then .stop (.ok s)
  else if target ≥ (1 : UInt64) <<< 38 then .stop (.ok s)
  else
    let (mapped, s) := checkPageMapped b sys target s
    if mapped then .stop (.ok s)
    else
      match autoMapPage b sys target s with
      | .error s => .stop (.error s)
      | .ok s =>
          let (r, s) := runExtraMappings b sys s
          if r.isFault && decide (s.autoMappings.length < b.config.arch.CHECK_MEM_MAX_TRIES) then
            .next (r, s)
          else .stop (.ok s)

theorem length_autoMapPage {target : UInt64} {s s' : Session}
    (h : autoMapPage b sys target s = .ok s') :
    s'.autoMappings.length = s.autoMappings.length + 1 := by
  unfold autoMapPage checkPageMapped at h
  dsimp only at h
  split at h
  next => cases h
  next =>
    split at h
    next => cases h
    next =>
      cases h
      exact List.length_append

theorem length_autoMapPass {r r' : CResult b.config} {s s' : Session}
    (h : autoMapPass b sys r s = .next (r', s')) :
    s.autoMappings.length < s'.autoMappings.length ∧
      s'.autoMappings.length < b.config.arch.CHECK_MEM_MAX_TRIES := by
  unfold autoMapPass checkPageMapped at h
  dsimp only at h
  split at h
  next => cases h
  next =>
    split at h
    next => cases h
    next =>
      split at h
      next => cases h
      next =>
        split at h
        next => cases h
        next s₁ hmap =>
          have hlen := length_autoMapPage b sys hmap
          -- the run does not change the list, but the new page is in it
          have hrun : (runExtraMappings b sys s₁).2.autoMappings.length =
              s₁.autoMappings.length := by
            simp [runExtraMappings, runNoCheckMem]
          split at h
          next hgo =>
            cases h
            rw [Bool.and_eq_true, decide_eq_true_eq] at hgo
            refine ⟨?_, hgo.2⟩
            rw [hrun, hlen]
            exact Nat.lt_succ_self _
          next => cases h

/-- The loop. -/
def autoMapLoop (r : CResult b.config) (s : Session) : Except Session Session :=
  match _h : autoMapPass b sys r s with
  | .next (r', s') => autoMapLoop r' s'
  | .stop e => e
termination_by b.config.arch.CHECK_MEM_MAX_TRIES - s.autoMappings.length
decreasing_by
  have hlen := length_autoMapPass b sys _h
  omega

/-- `free_memory_mappings`, of the auto mappings; unmapping what was mapped succeeds. -/
def freeAutoMappings (s : Session) : Session :=
  { s with
    autoMappings := []
    events := (s.autoMappings.map fun mapping => .free mapping.start).reverse ++ s.events }

/-- How `run_with_instr_seq` ends; what is returned is the last result and the changes that are
found in the memory. -/
inductive RunEnd (c : Config) where
  | returned (r : CResult c) (mappings autoMappings : List LiveMapping)
  | exited

/-- `run_with_instr_seq`. -/
def runWithInstrSeq (mappings : List LiveMapping) : RunEnd b.config × Session :=
  let (r, s) := runNoCheckMem b sys ⟨mappings, [], []⟩
  if b.config.CHECK_MEM then
    match if b.AUTO_MAP_MEM && r.isFault then autoMapLoop b sys r s else .ok s with
    | .error s => (.exited, s)
    | .ok s =>
        let (r, s) := runExtraMappings b sys s
        (.returned r s.mappings s.autoMappings, freeAutoMappings s)
  else (.returned r [] [], s)

end Runner

/-! ## What the events say

The events are listed the newest first. `EventsFit` says of each one what the pages were like when
it happened. -/

/-- The mappings that were made, latest first. -/
def mappedBy : List MemEvent → List Mapping
  | [] => []
  | .map mapping :: events => mapping :: mappedBy events
  | _ :: events => mappedBy events

/-- The pages that were freed, latest first. -/
def freedBy : List MemEvent → List UInt64
  | [] => []
  | .free page :: events => page :: freedBy events
  | _ :: events => freedBy events

/-- How often the sequence was run. -/
def runCount : List MemEvent → Nat
  | [] => 0
  | .run _ _ :: events => runCount events + 1
  | _ :: events => runCount events

/-- The memory is what the reference image says. -/
def LiveMapping.Reset (mapping : LiveMapping) : Prop := mapping.rwMapping = mapping.val

/-- A page in the part of the address space where pages are mapped. -/
structure PageFits (arch : Arch) (page : UInt64) : Prop where
  aligned : page.toNat % arch.PAGE_SIZE = 0
  low : 0x10000 ≤ page.toNat
  high : page.toNat + arch.PAGE_SIZE ≤ 2 ^ 38

/-- An event after those in `before`: a run starts with all given and all auto mappings, each reset,
and a page is mapped when it was just found not to be. -/
def MemEvent.Fits (arch : Arch) (given : List Mapping) (before : List MemEvent) : MemEvent → Prop
  | .run mappings autoMappings =>
      mappings.map (·.toMapping) = given ∧
      autoMappings.map (·.toMapping) = (mappedBy before).reverse ∧
      ∀ mapping ∈ mappings ++ autoMappings, mapping.Reset
  | .check _ _ => True
  | .map mapping => PageFits arch mapping.start ∧ mapping.n.toNat = arch.PAGE_SIZE ∧
      ∃ before', before = .check mapping.start false :: before'
  | .free page => page ∈ livePages before

/-- Every event fits behind those before it. -/
def EventsFit (arch : Arch) (given : List Mapping) (events : List MemEvent) : Prop :=
  ∀ later event before, events = later ++ event :: before → event.Fits arch given before

/-- What the runner does with the memory. -/
structure AutoMaps {c : Config} (arch : Arch) (given : List Mapping) (e : RunEnd c)
    (events : List MemEvent) : Prop where
  fits : EventsFit arch given events
  distinct : ((mappedBy events).map (·.start)).Nodup
  tries : (mappedBy events).length ≤ arch.CHECK_MEM_MAX_TRIES
  runs : runCount events ≤ arch.CHECK_MEM_MAX_TRIES + 2
  freed : ∀ r mappings autoMappings, e = .returned r mappings autoMappings →
    (freedBy events).Perm ((mappedBy events).map (·.start))

/-! ## One page

The page of an address is on a page boundary and lies inside the range that is mapped. -/

theorem faultPage_and (arch : Arch) (x : UInt64) :
    faultPage arch x &&& UInt64.ofNat (arch.PAGE_SIZE - 1) = 0 := by
  rw [faultPage, UInt64.and_assoc, UInt64.not_and_self, UInt64.and_zero]

/-- The page of a fault address begins at a multiple of the page size. -/
theorem faultPage_mod (arch : Arch) (x : UInt64) :
    (faultPage arch x).toNat % arch.PAGE_SIZE = 0 := by
  have hand := congrArg UInt64.toNat (faultPage_and arch x)
  rw [UInt64.toNat_and] at hand
  cases arch with
  | riscv64 => exact (Nat.and_two_pow_sub_one_eq_mod _ 12).symm.trans hand
  | aarch64 => exact (Nat.and_two_pow_sub_one_eq_mod _ 14).symm.trans hand

theorem pageFits_faultPage {arch : Arch} {x : UInt64} (hlow : ¬faultPage arch x < 0x10000)
    (hhigh : ¬faultPage arch x ≥ (1 : UInt64) <<< 38) : PageFits arch (faultPage arch x) := by
  have hmod := faultPage_mod arch x
  rw [UInt64.lt_iff_toNat_lt] at hlow
  rw [ge_iff_le, UInt64.le_iff_toNat_le] at hhigh
  have h₁ : (0x10000 : UInt64).toNat = 0x10000 := rfl
  have h₂ : ((1 : UInt64) <<< 38).toNat = 2 ^ 38 := rfl
  refine ⟨hmod, by omega, ?_⟩
  cases arch with
  | riscv64 =>
      have hsize : Arch.riscv64.PAGE_SIZE = 4096 := rfl
      rw [hsize] at hmod ⊢
      omega
  | aarch64 =>
      have hsize : Arch.aarch64.PAGE_SIZE = 16384 := rfl
      rw [hsize] at hmod ⊢
      omega

/-! ## The invariant

`Session.Sound` ties the list of pages to the events, and `Session.Tried` counts the tries. Every
step of the runner keeps both. -/

section Invariant

variable {b : RunnerBuild} {sys : Surroundings b.config} {given : List Mapping} {s s' : Session}

/-- The session belongs to its events, and nothing was freed yet. -/
structure Session.Sound (b : RunnerBuild) (given : List Mapping) (s : Session) : Prop where
  mappings : s.mappings.map (·.toMapping) = given
  autoMappings : s.autoMappings.map (·.toMapping) = (mappedBy s.events).reverse
  fits : EventsFit b.config.arch given s.events
  distinct : ((mappedBy s.events).map (·.start)).Nodup
  live : livePages s.events = (mappedBy s.events).map (·.start)
  freed : freedBy s.events = []

theorem EventsFit.cons {arch : Arch} {event : MemEvent} {events : List MemEvent}
    (h : EventsFit arch given events) (hevent : event.Fits arch given events) :
    EventsFit arch given (event :: events) := by
  intro later e before heq
  cases later with
  | nil =>
      obtain ⟨rfl, rfl⟩ := List.cons.inj heq
      exact hevent
  | cons first later =>
      obtain ⟨-, heq'⟩ := List.cons.inj heq
      exact h later e before heq'

theorem load_toMapping (mapping : LiveMapping) :
    mapping.load.toMapping = mapping.toMapping := rfl

theorem touch_toMapping (events : List MemEvent) (mapping : LiveMapping) :
    (sys.touch events mapping).toMapping = mapping.toMapping := rfl

theorem Session.Sound.length (h : s.Sound b given) :
    s.autoMappings.length = (mappedBy s.events).length := by
  have hlen := congrArg List.length h.autoMappings
  rwa [List.length_map, List.length_reverse] at hlen

theorem Session.Sound.check (h : s.Sound b given) (page : UInt64) :
    (checkPageMapped b sys page s).2.Sound b given :=
  ⟨h.mappings, h.autoMappings, h.fits.cons trivial, h.distinct, h.live, h.freed⟩

/-- A run starts with everything reset. -/
theorem Session.Sound.runExtra (h : s.Sound b given) :
    (runExtraMappings b sys s).2.Sound b given := by
  have hmappings : ∀ ms : List LiveMapping, ∀ mapping ∈ ms.map LiveMapping.load, mapping.Reset := by
    intro ms mapping hm
    obtain ⟨m, -, rfl⟩ := List.mem_map.mp hm
    rfl
  refine ⟨?_, ?_, h.fits.cons ⟨?_, ?_, ?_⟩, h.distinct, h.live, h.freed⟩
  · simpa [runExtraMappings, runNoCheckMem, Function.comp_def, load_toMapping,
      touch_toMapping] using h.mappings
  · simpa [runExtraMappings, runNoCheckMem, Function.comp_def, load_toMapping, touch_toMapping,
      mappedBy] using h.autoMappings
  · simpa [Function.comp_def, load_toMapping] using h.mappings
  · simpa [Function.comp_def, load_toMapping] using h.autoMappings
  · intro mapping hm
    rcases List.mem_append.mp hm with hm | hm
    · exact hmappings _ mapping hm
    · exact hmappings _ mapping hm

/-- The first run, without auto mappings. -/
theorem sound_first (b : RunnerBuild) (sys : Surroundings b.config) (mappings : List LiveMapping) :
    (runNoCheckMem b sys ⟨mappings, [], []⟩).2.Sound b (mappings.map (·.toMapping)) := by
  have hempty : (⟨mappings, [], []⟩ : Session).Sound b (mappings.map (·.toMapping)) :=
    ⟨rfl, rfl, fun later _ _ h => absurd h.symm (by simp), List.nodup_nil, rfl, rfl⟩
  exact hempty.runExtra

/-- A page that is mapped was not mapped before, so it is none of those that were mapped. -/
theorem Session.Sound.map (h : s.Sound b given) {mapping : LiveMapping}
    (hpage : PageFits b.config.arch mapping.start)
    (hsize : mapping.n.toNat = b.config.arch.PAGE_SIZE)
    (hnew : mapping.start ∉ livePages s.events) {before : List MemEvent}
    (hchecked : s.events = .check mapping.start false :: before) :
    Session.Sound b given { s with
      autoMappings := s.autoMappings ++ [mapping]
      events := .map mapping.toMapping :: s.events } := by
  refine ⟨h.mappings, ?_, h.fits.cons ⟨hpage, hsize, before, hchecked⟩, ?_, ?_, h.freed⟩
  · show (s.autoMappings ++ [mapping]).map (·.toMapping) =
      (mapping.toMapping :: mappedBy s.events).reverse
    rw [List.map_append, h.autoMappings, List.reverse_cons]
    rfl
  · show (mapping.start :: (mappedBy s.events).map (·.start)).Nodup
    rw [List.nodup_cons, ← h.live]
    exact ⟨hnew, h.live ▸ h.distinct⟩
  · show mapping.start :: livePages s.events = _
    rw [h.live]
    rfl

/-- `Sound`, with the numbers of tries and of runs. -/
structure Session.Tried (b : RunnerBuild) (given : List Mapping) (s : Session) : Prop where
  sound : s.Sound b given
  tries : (mappedBy s.events).length ≤ b.config.arch.CHECK_MEM_MAX_TRIES
  runs : runCount s.events ≤ (mappedBy s.events).length + 1

theorem Session.Tried.check (h : s.Tried b given) (page : UInt64) :
    (checkPageMapped b sys page s).2.Tried b given :=
  ⟨h.sound.check page, h.tries, h.runs⟩

/-- One page more, or the runner exits. -/
def OneMore (b : RunnerBuild) (given : List Mapping) (s : Session) : Except Session Session → Prop
  | .ok s' => s'.Sound b given ∧ (mappedBy s'.events).length = (mappedBy s.events).length + 1 ∧
      runCount s'.events = runCount s.events
  | .error s' => s'.Tried b given

/-- There is room for another page where the loop goes on. -/
def PassTried (b : RunnerBuild) (given : List Mapping) :
    Outcome (CResult b.config × Session) (Except Session Session) → Prop
  | .next (_, s') => s'.Tried b given ∧
      (mappedBy s'.events).length < b.config.arch.CHECK_MEM_MAX_TRIES
  | .stop (.ok s') => s'.Tried b given
  | .stop (.error s') => s'.Tried b given

/-- Behind the check of the loop the page is checked again, set up and stored, or the runner
exits. -/
theorem Session.Tried.autoMapPage (hkeeps : sys.Keeps) (h : s.Tried b given) {target : UInt64}
    (hpage : PageFits b.config.arch target) : OneMore b given s (autoMapPage b sys target s) := by
  have hchecked : (checkPageMapped b sys target s).2.Tried b given := h.check target
  obtain ⟨prot, words, hmapping⟩ := exists_newMapping b target
  unfold RISCover.autoMapPage
  dsimp only
  split
  next => exact hchecked
  next hfree =>
    rw [hmapping]
    rw [Bool.or_eq_true, not_or] at hfree
    have hfalse : sys.pageMapped s.events target = false := Bool.eq_false_iff.mpr hfree.1
    have hlive : target ∉ livePages s.events := by
      intro hmem
      rw [hkeeps s.events target hmem] at hfalse
      cases hfalse
    have hevents : (checkPageMapped b sys target s).2.events = .check target false :: s.events := by
      rw [checkPageMapped, hfalse]
    refine ⟨hchecked.sound.map hpage ?_ hlive hevents, rfl, rfl⟩
    show (UInt64.ofNat b.config.arch.PAGE_SIZE).toNat = b.config.arch.PAGE_SIZE
    cases b.config.arch <;> rfl

/-- A pass of the loop, from a session with room for another page. -/
theorem Session.Tried.autoMapPass (hkeeps : sys.Keeps) (h : s.Tried b given)
    (hroom : (mappedBy s.events).length < b.config.arch.CHECK_MEM_MAX_TRIES)
    (r : CResult b.config) : PassTried b given (autoMapPass b sys r s) := by
  unfold RISCover.autoMapPass
  dsimp only
  split
  next => exact h
  next hlow =>
    split
    next => exact h
    next hhigh =>
      -- that the page is looked up changes nothing of the list
      have hchecked : (checkPageMapped b sys (faultPage b.config.arch r.siAddrr) s).2.Tried
          b given := h.check _
      split
      next => exact hchecked
      next =>
        have hmap := hchecked.autoMapPage hkeeps (pageFits_faultPage hlow hhigh)
        split
        next s₁ herror =>
          rw [herror] at hmap
          exact hmap
        next s₁ hok =>
          rw [hok] at hmap
          obtain ⟨hsound, hcount, hruns⟩ := hmap
          change (mappedBy s₁.events).length = (mappedBy s.events).length + 1 at hcount
          change runCount s₁.events = runCount s.events at hruns
          have hbefore := h.runs
          -- one page more and one run more
          have hafter : (runExtraMappings b sys s₁).2.Tried b given := by
            refine ⟨hsound.runExtra, ?_, ?_⟩
            · show (mappedBy s₁.events).length ≤ _
              omega
            · show runCount s₁.events + 1 ≤ (mappedBy s₁.events).length + 1
              omega
          split
          next hgo =>
            rw [Bool.and_eq_true, decide_eq_true_eq, hafter.sound.length] at hgo
            exact ⟨hafter, hgo.2⟩
          next => exact hafter

/-- The session that an ending leaves. -/
def endOf : Except Session Session → Session
  | .ok s => s
  | .error s => s

theorem Session.Tried.autoMapLoop (hkeeps : sys.Keeps) (h : s.Tried b given)
    (hroom : (mappedBy s.events).length < b.config.arch.CHECK_MEM_MAX_TRIES)
    (r : CResult b.config) : (endOf (autoMapLoop b sys r s)).Tried b given := by
  fun_induction RISCover.autoMapLoop b sys r s with
  | case1 r s r' s' hpass ih =>
      have hnext := h.autoMapPass hkeeps hroom r
      rw [hpass] at hnext
      exact ih hnext.1 hnext.2
  | case2 r s e hpass =>
      have hstop := h.autoMapPass hkeeps hroom r
      rw [hpass] at hstop
      cases e with
      | ok s' => exact hstop
      | error s' => exact hstop

/-! ## The end

The pages are freed one by one, and each of them is live until then. -/

/-- Pages that are mapped are freed one after the other. -/
theorem EventsFit.free {arch : Arch} {events : List MemEvent} (h : EventsFit arch given events)
    {pages : List UInt64} (hnodup : pages.Nodup) (hlive : ∀ page ∈ pages, page ∈ livePages events) :
    EventsFit arch given ((pages.map MemEvent.free).reverse ++ events) := by
  induction pages generalizing events with
  | nil => exact h
  | cons page pages ih =>
      obtain ⟨hpage, hnodup⟩ := List.nodup_cons.mp hnodup
      rw [List.map_cons, List.reverse_cons, List.append_assoc]
      refine ih (h.cons (hlive page List.mem_cons_self)) hnodup fun other hother => ?_
      have hne : other ≠ page := by
        rintro rfl
        exact hpage hother
      exact (List.mem_erase_of_ne hne).mpr (hlive other (List.mem_cons_of_mem _ hother))

section Free

variable (pages : List UInt64) (events : List MemEvent)

theorem mappedBy_free :
    mappedBy ((pages.map MemEvent.free).reverse ++ events) = mappedBy events := by
  induction pages generalizing events with
  | nil => rfl
  | cons page pages ih => rw [List.map_cons, List.reverse_cons, List.append_assoc, ih]; rfl

theorem runCount_free :
    runCount ((pages.map MemEvent.free).reverse ++ events) = runCount events := by
  induction pages generalizing events with
  | nil => rfl
  | cons page pages ih => rw [List.map_cons, List.reverse_cons, List.append_assoc, ih]; rfl

theorem freedBy_free :
    freedBy ((pages.map MemEvent.free).reverse ++ events) = pages.reverse ++ freedBy events := by
  induction pages generalizing events with
  | nil => rfl
  | cons page pages ih =>
      rw [List.map_cons, List.reverse_cons, List.append_assoc, ih, List.reverse_cons,
        List.append_assoc]
      rfl

end Free

/-- All pages are freed, each once. -/
theorem Session.Sound.autoMaps (h : s.Sound b given)
    (htries : (mappedBy s.events).length ≤ b.config.arch.CHECK_MEM_MAX_TRIES)
    (hruns : runCount s.events ≤ b.config.arch.CHECK_MEM_MAX_TRIES + 2) (e : RunEnd b.config) :
    AutoMaps b.config.arch given e (freeAutoMappings s).events := by
  have hpages : s.autoMappings.map (·.start) = ((mappedBy s.events).map (·.start)).reverse := by
    have hstarts := congrArg (List.map Mapping.start) h.autoMappings
    rwa [List.map_map, List.map_reverse] at hstarts
  -- freeing adds one event for each page, and no other
  have hevents : (freeAutoMappings s).events =
      (((s.autoMappings.map (·.start)).map MemEvent.free).reverse ++ s.events) := by
    rw [List.map_map]
    rfl
  rw [hevents, hpages]
  refine ⟨h.fits.free (List.nodup_reverse.mpr h.distinct) ?_, ?_, ?_, ?_, ?_⟩
  · intro page hpage
    rw [h.live]
    exact List.mem_reverse.mp hpage
  · rw [mappedBy_free]
    exact h.distinct
  · rw [mappedBy_free]
    exact htries
  · rw [runCount_free]
    exact hruns
  · intro _ _ _ _
    rw [mappedBy_free, freedBy_free, h.freed, List.reverse_reverse, List.append_nil]

theorem Session.Tried.exited (h : s.Tried b given) :
    AutoMaps (c := b.config) b.config.arch given .exited s.events := by
  have hruns := h.runs
  have htries := h.tries
  exact ⟨h.sound.fits, h.sound.distinct, htries, by omega, nofun⟩

end Invariant

/-- Whatever the tested code does and the kernel answers: the pages that are mapped are aligned,
distinct, in the range where pages are mapped and were not mapped before, there are at most
`CHECK_MEM_MAX_TRIES` of them and two runs more, every run starts with all memory reset, and at the
end every page was freed once. -/
theorem runWithInstrSeq_autoMaps (b : RunnerBuild) (sys : Surroundings b.config)
    (hkeeps : sys.Keeps) (mappings : List LiveMapping) :
    AutoMaps b.config.arch (mappings.map (·.toMapping)) (runWithInstrSeq b sys mappings).1
      (runWithInstrSeq b sys mappings).2.events := by
  have hfirst := sound_first b sys mappings
  have htried : (runNoCheckMem b sys ⟨mappings, [], []⟩).2.Tried b (mappings.map (·.toMapping)) :=
    ⟨hfirst, Nat.zero_le _, Nat.le_refl _⟩
  have hnone : mappedBy (runNoCheckMem b sys ⟨mappings, [], []⟩).2.events = [] := rfl
  have hone : runCount (runNoCheckMem b sys ⟨mappings, [], []⟩).2.events = 1 := rfl
  unfold runWithInstrSeq
  generalize runNoCheckMem b sys ⟨mappings, [], []⟩ = first at hfirst htried hnone hone
  obtain ⟨r, s⟩ := first
  dsimp only at hfirst htried hnone hone ⊢
  split
  next =>
    -- the loop is entered after a fault only, with no page mapped yet
    have hloop : (endOf (if b.AUTO_MAP_MEM && r.isFault then autoMapLoop b sys r s
        else .ok s)).Tried b (mappings.map (·.toMapping)) := by
      split
      next =>
        refine htried.autoMapLoop hkeeps ?_ r
        rw [hnone]
        cases b.config.arch <;> exact Nat.zero_lt_succ _
      next => exact htried
    generalize (if b.AUTO_MAP_MEM && r.isFault then autoMapLoop b sys r s else .ok s) = e at hloop
    cases e with
    | error s' => exact hloop.exited
    | ok s' =>
        have hruns : runCount s'.events ≤ (mappedBy s'.events).length + 1 := hloop.runs
        have htries : (mappedBy s'.events).length ≤ _ := hloop.tries
        have hlast : (runExtraMappings b sys s').2.Sound b _ := hloop.sound.runExtra
        refine hlast.autoMaps htries ?_ _
        show runCount s'.events + 1 ≤ _
        omega
  next =>
    refine ⟨hfirst.fits, hfirst.distinct, htried.tries, ?_, ?_⟩
    · show runCount s.events ≤ _
      omega
    · intro _ _ _ _
      rw [hfirst.freed, hnone]
      exact List.Perm.refl _

/-- The tested code faults at one address for ever, and the kernel knows which pages it has. -/
def faultingSurroundings : Surroundings riscvBuild where
  result _ := faultingRun
  left _ mapping := ⟨mapping.rwMapping.toArray, by simp [mapping.length_rwMapping]⟩
  pageMapped events page := decide (page ∈ livePages events)
  mapSucceeds _ _ := true

def autoMapBuild : RunnerBuild := ⟨riscvBuild, true, true, ⟨[0], [1], by decide, by decide⟩⟩

/-- The page of the fault is mapped once, and freed. -/
theorem runWithInstrSeq_autoMaps_faultingSurroundings :
    AutoMaps .riscv64 [] (runWithInstrSeq autoMapBuild faultingSurroundings []).1
      (runWithInstrSeq autoMapBuild faultingSurroundings []).2.events :=
  runWithInstrSeq_autoMaps autoMapBuild faultingSurroundings
    (fun _ _ hpage => decide_eq_true hpage) []

end RISCover
