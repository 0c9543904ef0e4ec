import RISCover.Lib.Cluster
import RISCover.Lib.Text
import RISCover.Undoc.Worker

/-!
# The core that a reproducer runs on

`common_pin` goes through the wishes of its caller in a fixed order: a core, a microarchitecture, a
MIDR, a list of MIDRs, any core. `Wanted` says of a core that it answers the wishes, in terms of the
processors alone, and `followsPolicy` that pinning ends on the cores that are wanted and on no
other. A core with the MIDR of any client of a list is preferred to one that only its revision
tells from the first client.
-/

open Cluster

namespace RISCover

/-! ## Names

The machine as `parse_cpuinfo` reports it, and the name that a MIDR has in the table of the client.
-/

/-- `str_ieq`. -/
def strIeq : Text → Text → Bool
  | a :: as, b :: bs => if a.toLower ≠ b.toLower then false else strIeq as bs
  | [], [] => true
  | _, _ => false

/-- A machine as the client finds it: what `parse_cpuinfo` fills, `midr_name_table`, and whether the
attempt with a number to move to a core succeeds. -/
structure PinMachine where
  cpus : List CpuInfo
  midrNameTable : List (UInt16 × UInt16 × Text)
  schedSetaffinity : Nat → Nat → Bool

/-- What the caller of `common_pin` wants. -/
structure PinRequest where
  core : Int
  midrs : List UInt32
  midrOverride : UInt32
  uarchOverride : Option Text

/-- How pinning ends: on a core, with `exit(EXIT_FAILURE)`, or with `rand() % 0`. -/
inductive PinEnd where
  | pinned (core : Nat)
  | failed
  | fault
  deriving DecidableEq

def MIDR_IMPLEMENTOR_SHIFT : UInt32 := 24

def MIDR_PARTNUM_SHIFT : UInt32 := 4

/-- `midr_to_microarch`. -/
def midrToMicroarch (table : List (UInt16 × UInt16 × Text)) (midr : UInt32) : Option Text :=
  let implementer := (midr >>> MIDR_IMPLEMENTOR_SHIFT) &&& 0xFF
  let part := (midr >>> MIDR_PARTNUM_SHIFT) &&& 0xFFF
  (table.find? fun e => e.1.toUInt32 = implementer ∧ e.2.1.toUInt32 = part).map fun e => e.2.2

/-- The MIDR without its revision: `midr & ~((1<<MIDR_PARTNUM_SHIFT)-1)`. -/
def withoutRevision (midr : UInt32) : UInt32 := midr &&& ~~~((1 <<< MIDR_PARTNUM_SHIFT) - 1)

/-! ## Pinning

The functions in the order of the source, up to `common_pin`. -/

/-- `ct->cpus[rand() % ct->count]`. -/
def CoreType.pick (ct : CoreType) (rand : Nat) : CpuInfo :=
  ct.cpus.get ⟨rand % ct.count, Nat.mod_lt rand ct.count_pos⟩

namespace PinMachine

variable (m : PinMachine)

/-- The loop of `pin_to_cpu`, with the attempts that are left and the number of the next. -/
def pinLoop (cpu : Nat) : Nat → Nat → PinEnd
  | 0, _ => .failed
  | tries + 1, i => if m.schedSetaffinity i cpu then .pinned cpu else pinLoop cpu tries (i + 1)

/-- `pin_to_cpu`. -/
def pinToCpu (cpu : Nat) : PinEnd := m.pinLoop cpu 10 0

/-- `pin_to_core_verbose`; the core is a place in the list of the processors. -/
def pinToCoreVerbose (core : Nat) : PinEnd :=
  if m.cpus.length ≤ core then .failed else m.pinToCpu core

/-- `pin_to_random_core`. -/
def pinToRandomCore (rand : Nat) : PinEnd :=
  if m.cpus.length = 0 then .fault else m.pinToCpu (rand % m.cpus.length)

/-- The first core type with the MIDR. -/
def exactType (midr : UInt32) : Option CoreType :=
  (groupCoreTypes m.cpus).find? fun ct => ct.midr = midr

/-- The first core type of which only the revision may differ. -/
def revisedType (midr : UInt32) : Option CoreType :=
  (groupCoreTypes m.cpus).find? fun ct => withoutRevision ct.midr = withoutRevision midr

/-- `pin_to_midr`. -/
def pinToMidr (rand : Nat) (midr : UInt32) : PinEnd :=
  match m.exactType midr with
  | some ct => m.pinToCpu (ct.pick rand).processor
  | none =>
    match m.revisedType midr with
    | some ct => m.pinToCpu (ct.pick rand).processor
    | none => .failed

/-- `pin_to_midr_list`; `none` is `UINT_MAX`. -/
def pinToMidrList (rand : Nat) (midrs : List UInt32) : Option PinEnd :=
  match midrs.findSome? m.exactType with
  | some ct => some (m.pinToCpu (ct.pick rand).processor)
  | none => (midrs.findSome? m.revisedType).map fun ct => m.pinToCpu (ct.pick rand).processor

/-- `resolve_uarch_to_core_strict`; `none` is `-1`. -/
def resolveUarchToCoreStrict (name : Text) : Option Nat :=
  if name = [] then none
  else
    ((groupCoreTypes m.cpus).find? fun ct =>
      match midrToMicroarch m.midrNameTable ct.midr with
      | some microarch => strIeq microarch name
      | none => false).map fun ct => (ct.pick 0).processor

/-- `common_pin`. `rand` is drawn once at most. -/
def commonPin (rand : Nat) (req : PinRequest) : PinEnd :=
  if 0 ≤ req.core then m.pinToCoreVerbose req.core.toNat
  else
    match req.uarchOverride.filter (· ≠ []) with
    | some name =>
      match m.resolveUarchToCoreStrict name with
      | some resolved => m.pinToCoreVerbose resolved
      | none => .failed
    | none =>
      if req.midrOverride ≠ 0 then m.pinToMidr rand req.midrOverride
      else if req.midrs ≠ [] then
        match m.pinToMidrList rand req.midrs with
        | some pinnedCore => pinnedCore
        | none => m.pinToRandomCore rand
      else m.pinToRandomCore rand

end PinMachine

/-! ## Core types

`group_core_types` groups the processors by their MIDR, as `Cluster.groups` does. -/

/-- Processors of one type. -/
def sameMidr (a b : CpuInfo) : Bool := a.midr == b.midr

/-- `group_core_types` is grouping by the MIDR. -/
theorem map_groupCoreTypes (cpus : List CpuInfo) :
    (groupCoreTypes cpus).map (fun ct => (ct.midr, ct.cpus)) =
      (groups sameMidr cpus).map fun g => (g.1.midr, g.2) := by
  -- filing a processor is the insertion of the library
  have hfile : ∀ (cpu : CpuInfo) (cts : List CoreType) (gs : List (CpuInfo × List CpuInfo)),
      cts.map (fun ct => (ct.midr, ct.cpus)) = gs.map (fun g => (g.1.midr, g.2)) →
      (fileCpu cpu cts).map (fun ct => (ct.midr, ct.cpus)) =
        (Cluster.insert sameMidr cpu cpu gs).map fun g => (g.1.midr, g.2) := by
    intro cpu cts
    induction cts with
    | nil =>
        intro gs h
        rw [List.map_eq_nil_iff.mp h.symm]
        rfl
    | cons ct cts ih =>
        rintro (_ | ⟨g, gs⟩) h
        · cases h
        · obtain ⟨hg, hgs⟩ := List.cons.inj h
          obtain ⟨hmidr, hcpus⟩ := Prod.mk.inj hg
          rw [fileCpu, Cluster.insert]
          by_cases heq : cpu.midr = ct.midr
          · rw [if_pos heq, if_pos (by rw [sameMidr, ← hmidr, heq, beq_self_eq_true])]
            show (ct.midr, ct.cpus ++ [cpu]) :: _ = (g.1.midr, g.2 ++ [cpu]) :: _
            rw [hgs, hmidr, hcpus]
          · rw [if_neg heq, if_neg (by rw [sameMidr, ← hmidr, beq_iff_eq]; exact Ne.symm heq),
              List.map_cons, List.map_cons, ih gs hgs, hmidr, hcpus]
  have hloop : ∀ (l : List CpuInfo) (cts : List CoreType) (gs : List (CpuInfo × List CpuInfo)),
      cts.map (fun ct => (ct.midr, ct.cpus)) = gs.map (fun g => (g.1.midr, g.2)) →
      (l.foldl (fun cts cpu => fileCpu cpu cts) cts).map (fun ct => (ct.midr, ct.cpus)) =
        (l.foldl (fun gs cpu => Cluster.insert sameMidr cpu cpu gs) gs).map
          fun g => (g.1.midr, g.2) := by
    intro l
    induction l with
    | nil => exact fun cts gs h => h
    | cons cpu l ih => exact fun cts gs h => ih _ _ (hfile cpu cts gs h)
  exact hloop cpus [] [] rfl

/-- The first type with a property is that of the first processor with it. -/
theorem find?_groupCoreTypes (cpus : List CpuInfo) (p : UInt32 → Bool) :
    ((groupCoreTypes cpus).find? fun ct => p ct.midr).map (fun ct => (ct.midr, ct.cpus)) =
      (cpus.find? fun c => p c.midr).map fun c => (c.midr, cpus.filter (sameMidr c)) := by
  have hgroups := find?_groups (r := sameMidr) (fun c => p c.midr) cpus
    (fun c _ => beq_self_eq_true c.midr) fun a _ b _ h => by rw [beq_iff_eq.mp h]
  have htypes : (((groupCoreTypes cpus).map fun ct => (ct.midr, ct.cpus)).find? fun q => p q.1) =
      ((groupCoreTypes cpus).find? fun ct => p ct.midr).map fun ct => (ct.midr, ct.cpus) :=
    List.find?_map
  have hkeys : (((groups sameMidr cpus).map fun g => (g.1.midr, g.2)).find? fun q => p q.1) =
      ((groups sameMidr cpus).find? fun g => p g.1.midr).map fun g => (g.1.midr, g.2) :=
    List.find?_map
  rw [← htypes, map_groupCoreTypes, hkeys, hgroups, Option.map_map]
  rfl

/-- The draw reaches every processor of a type, and no other. -/
theorem CoreType.exists_pick_iff (ct : CoreType) (cpu : CpuInfo) :
    (∃ rand, ct.pick rand = cpu) ↔ cpu ∈ ct.cpus := by
  constructor
  · rintro ⟨rand, rfl⟩
    exact List.get_mem _ _
  · intro hcpu
    obtain ⟨i, rfl⟩ := List.mem_iff_get.mp hcpu
    exact ⟨i, congrArg ct.cpus.get (Fin.ext (Nat.mod_eq_of_lt i.isLt))⟩

/-! ## What is wanted

The policy, in terms of the processors alone: no core types, no loops. -/

namespace PinMachine

variable (m : PinMachine)

/-- One of the attempts to move to the core succeeds. -/
def Online (core : Nat) : Prop := ∃ i < 10, m.schedSetaffinity i core = true

/-- The microarchitecture of the MIDR has the name, whatever the case of its letters. -/
def isNamed (name : Text) (midr : UInt32) : Bool :=
  (midrToMicroarch m.midrNameTable midr).any fun microarch => strIeq microarch name

/-- The MIDR that a list of MIDRs comes to: the first that a processor has, or else the one of the
first processor that only the revision tells from the first MIDR for which there is one. -/
def aim (midrs : List UInt32) : Option UInt32 :=
  (midrs.find? fun midr => m.cpus.any fun c => c.midr = midr).or
    (midrs.findSome? fun midr =>
      (m.cpus.find? fun c => withoutRevision c.midr = withoutRevision midr).map CpuInfo.midr)

/-- The MIDRs of a request. -/
def wishes (req : PinRequest) : List UInt32 :=
  if req.midrOverride ≠ 0 then [req.midrOverride] else req.midrs

/-- The request is answered by the core. -/
def Wanted (req : PinRequest) (core : Nat) : Prop :=
  if 0 ≤ req.core then (core : Int) = req.core ∧ core < m.cpus.length
  else
    match req.uarchOverride.filter (· ≠ []) with
    | some name => ∃ cpu, (m.cpus.find? fun c => m.isNamed name c.midr) = some cpu ∧
        cpu.processor = core ∧ core < m.cpus.length
    | none =>
      match m.aim (wishes req) with
      | some midr => ∃ cpu ∈ m.cpus, cpu.midr = midr ∧ cpu.processor = core
      | none => req.midrOverride = 0 ∧ core < m.cpus.length

/-- Any core would do, and there is none. -/
def Faults (req : PinRequest) : Prop :=
  m.cpus = [] ∧ req.core < 0 ∧ req.uarchOverride.getD [] = [] ∧ req.midrOverride = 0

/-- Pinning ends on the cores that are wanted and come online, and it fails if none is wanted or one
that is wanted does not come online. -/
structure FollowsPolicy (req : PinRequest) : Prop where
  pinned : ∀ core, (∃ rand, m.commonPin rand req = .pinned core) ↔ m.Wanted req core ∧ m.Online core
  failed : (∃ rand, m.commonPin rand req = .failed) ↔
    (∃ core, m.Wanted req core ∧ ¬m.Online core) ∨ ((∀ core, ¬m.Wanted req core) ∧ ¬m.Faults req)
  fault : ∀ rand, m.commonPin rand req = .fault ↔ m.Faults req

/-! ## Moving to a core

The ten attempts end on the core or the process exits. -/

theorem pinLoop_eq (cpu tries i : Nat) :
    m.pinLoop cpu tries i = .pinned cpu ∧
        (∃ j, i ≤ j ∧ j < i + tries ∧ m.schedSetaffinity j cpu = true) ∨
      m.pinLoop cpu tries i = .failed ∧
        ∀ j, i ≤ j → j < i + tries → m.schedSetaffinity j cpu = false := by
  induction tries generalizing i with
  | zero => exact Or.inr ⟨rfl, fun j hle hlt => absurd hlt (Nat.not_lt.mpr hle)⟩
  | succ tries ih =>
      rw [pinLoop]
      by_cases hnow : m.schedSetaffinity i cpu = true
      · rw [if_pos hnow]
        exact Or.inl ⟨rfl, i, Nat.le_refl i, by omega, hnow⟩
      · rw [if_neg hnow]
        rcases ih (i + 1) with ⟨heq, j, hle, hlt, hj⟩ | ⟨heq, hall⟩
        · exact Or.inl ⟨heq, j, by omega, by omega, hj⟩
        · refine Or.inr ⟨heq, fun j hle hlt => ?_⟩
          rcases Nat.eq_or_lt_of_le hle with rfl | hgt
          · exact Bool.eq_false_iff.mpr hnow
          · exact hall j hgt (by omega)

theorem pinToCpu_eq (cpu : Nat) :
    m.pinToCpu cpu = .pinned cpu ∧ m.Online cpu ∨ m.pinToCpu cpu = .failed ∧ ¬m.Online cpu := by
  rcases m.pinLoop_eq cpu 10 0 with ⟨heq, j, -, hlt, hj⟩ | ⟨heq, hall⟩
  · exact Or.inl ⟨heq, j, by omega, hj⟩
  · refine Or.inr ⟨heq, fun ⟨j, hlt, hj⟩ => ?_⟩
    rw [hall j (Nat.zero_le j) (by omega)] at hj
    cases hj

/-! ## Looking for a type

The first type with a MIDR is the one of the first processor with this MIDR. -/

/-- The type that a list of MIDRs leads to. -/
def listType (midrs : List UInt32) : Option CoreType :=
  (midrs.findSome? m.exactType).or (midrs.findSome? m.revisedType)

/-- The cores of a type that was found: those with the MIDR of the first processor of the kind. -/
theorem find?_type (p : UInt32 → Bool) {ct : CoreType}
    (h : (groupCoreTypes m.cpus).find? (fun ct => p ct.midr) = some ct) (cpu : CpuInfo) :
    cpu ∈ ct.cpus ↔ cpu ∈ m.cpus ∧ cpu.midr = ct.midr := by
  have hfind := find?_groupCoreTypes m.cpus p
  rw [h, Option.map_some] at hfind
  obtain ⟨c, -, hc⟩ := Option.map_eq_some_iff.mp hfind.symm
  obtain ⟨hmidr, hcpus⟩ := Prod.mk.inj hc
  rw [← hcpus, ← hmidr, List.mem_filter, sameMidr, beq_iff_eq, eq_comm]

theorem map_midr_find? (p : UInt32 → Bool) :
    ((groupCoreTypes m.cpus).find? fun ct => p ct.midr).map CoreType.midr =
      (m.cpus.find? fun c => p c.midr).map CpuInfo.midr := by
  have hfind := congrArg (Option.map Prod.fst) (find?_groupCoreTypes m.cpus p)
  rw [Option.map_map, Option.map_map] at hfind
  exact hfind

theorem map_midr_exactType (midr : UInt32) :
    (m.exactType midr).map CoreType.midr =
      Option.guard (fun midr => m.cpus.any fun c => c.midr = midr) midr := by
  rw [exactType, m.map_midr_find? fun x => decide (x = midr), Option.guard]
  cases hfind : m.cpus.find? fun c => decide (c.midr = midr) with
  | none =>
      rw [if_neg]
      · rfl
      · simpa using hfind
  | some c =>
      have hc := List.find?_some hfind
      rw [if_pos (List.any_eq_true.mpr ⟨c, List.mem_of_find?_eq_some hfind, hc⟩), Option.map_some,
        of_decide_eq_true hc]

theorem map_midr_listType (midrs : List UInt32) :
    (m.listType midrs).map CoreType.midr = m.aim midrs := by
  have hexact : (midrs.findSome? m.exactType).map CoreType.midr =
      midrs.find? fun midr => m.cpus.any fun c => c.midr = midr := by
    rw [List.map_findSome?, ← List.findSome?_guard]
    exact congrArg (midrs.findSome? ·) (funext m.map_midr_exactType)
  have hrevised : (midrs.findSome? m.revisedType).map CoreType.midr = midrs.findSome? fun midr =>
      (m.cpus.find? fun c => withoutRevision c.midr = withoutRevision midr).map CpuInfo.midr := by
    rw [List.map_findSome?]
    exact congrArg (midrs.findSome? ·)
      (funext fun midr => m.map_midr_find? fun x => withoutRevision x = withoutRevision midr)
  rw [listType, Option.map_or, hexact, hrevised, aim]

theorem mem_cpus_listType {midrs : List UInt32} {ct : CoreType} (h : m.listType midrs = some ct)
    (cpu : CpuInfo) : cpu ∈ ct.cpus ↔ cpu ∈ m.cpus ∧ cpu.midr = ct.midr := by
  rcases Option.or_eq_some_iff.mp h with hexact | ⟨-, hrevised⟩
  · obtain ⟨midr, -, hmidr⟩ := List.exists_of_findSome?_eq_some hexact
    exact m.find?_type (fun x => decide (x = midr)) hmidr cpu
  · obtain ⟨midr, -, hmidr⟩ := List.exists_of_findSome?_eq_some hrevised
    exact m.find?_type (fun x => withoutRevision x = withoutRevision midr) hmidr cpu

/-! ## The wishes in their order

One lemma for each way in which `common_pin` comes to a core; `followsPolicy` picks the lemma. -/

/-- What pinning to MIDRs comes to. -/
def pinToType (rand : Nat) : Option CoreType → Option PinEnd :=
  Option.map fun ct => m.pinToCpu (ct.pick rand).processor

theorem pinToMidrList_eq (rand : Nat) (midrs : List UInt32) :
    m.pinToMidrList rand midrs = m.pinToType rand (m.listType midrs) := by
  rw [pinToMidrList, listType, pinToType]
  cases midrs.findSome? m.exactType <;> rfl

theorem pinToMidr_eq (rand : Nat) (midr : UInt32) :
    m.pinToMidr rand midr = (m.pinToType rand (m.listType [midr])).getD .failed := by
  rw [pinToMidr, listType, pinToType, List.findSome?_singleton, List.findSome?_singleton]
  cases m.exactType midr <;> cases m.revisedType midr <;> rfl

section policy

variable {m : PinMachine} {req : PinRequest}

/-- The draw decides between the cores that are wanted. -/
theorem FollowsPolicy.of_target (target : Nat → Nat)
    (hpin : ∀ rand, m.commonPin rand req = m.pinToCpu (target rand))
    (hwanted : ∀ core, m.Wanted req core ↔ ∃ rand, target rand = core)
    (hfaults : ¬m.Faults req) : m.FollowsPolicy req := by
  -- each draw ends on its target or fails there
  have hend : ∀ rand, m.commonPin rand req = .pinned (target rand) ∧ m.Online (target rand) ∨
      m.commonPin rand req = .failed ∧ ¬m.Online (target rand) := by
    intro rand
    rw [hpin]
    exact m.pinToCpu_eq (target rand)
  refine ⟨fun core => ⟨?_, ?_⟩, ⟨?_, ?_⟩, fun rand => ⟨fun hfault => ?_, fun h => absurd h hfaults⟩⟩
  · rintro ⟨rand, hrand⟩
    rcases hend rand with ⟨heq, honline⟩ | ⟨heq, -⟩
    · obtain rfl := PinEnd.pinned.inj (heq.symm.trans hrand)
      exact ⟨(hwanted _).mpr ⟨rand, rfl⟩, honline⟩
    · rw [heq] at hrand
      cases hrand
  · rintro ⟨hcore, honline⟩
    obtain ⟨rand, rfl⟩ := (hwanted core).mp hcore
    rcases hend rand with ⟨heq, -⟩ | ⟨-, hoffline⟩
    · exact ⟨rand, heq⟩
    · exact absurd honline hoffline
  · rintro ⟨rand, hrand⟩
    rcases hend rand with ⟨heq, -⟩ | ⟨-, hoffline⟩
    · rw [heq] at hrand
      cases hrand
    · exact Or.inl ⟨target rand, (hwanted _).mpr ⟨rand, rfl⟩, hoffline⟩
  · rintro (⟨core, hcore, hoffline⟩ | ⟨hnone, -⟩)
    · obtain ⟨rand, rfl⟩ := (hwanted core).mp hcore
      rcases hend rand with ⟨-, honline⟩ | ⟨heq, -⟩
      · exact absurd honline hoffline
      · exact ⟨rand, heq⟩
    · exact absurd ((hwanted _).mpr ⟨0, rfl⟩) (hnone (target 0))
  · rcases hend rand with ⟨heq, -⟩ | ⟨heq, -⟩ <;>
      · rw [heq] at hfault
        cases hfault

/-- Nothing is wanted that there is. -/
theorem FollowsPolicy.of_failed (hpin : ∀ rand, m.commonPin rand req = .failed)
    (hwanted : ∀ core, ¬m.Wanted req core) (hfaults : ¬m.Faults req) : m.FollowsPolicy req := by
  refine ⟨fun core => ⟨?_, fun h => absurd h.1 (hwanted core)⟩,
    ⟨fun _ => Or.inr ⟨hwanted, hfaults⟩, fun _ => ⟨0, hpin 0⟩⟩, fun rand => ?_⟩
  · rintro ⟨rand, hrand⟩
    rw [hpin] at hrand
    cases hrand
  · rw [hpin]
    constructor
    · intro h
      cases h
    · exact fun h => absurd h hfaults

theorem FollowsPolicy.of_fault (hpin : ∀ rand, m.commonPin rand req = .fault)
    (hwanted : ∀ core, ¬m.Wanted req core) (hfaults : m.Faults req) : m.FollowsPolicy req := by
  refine ⟨fun core => ⟨?_, fun h => absurd h.1 (hwanted core)⟩, ⟨?_, ?_⟩, fun rand => ?_⟩
  · rintro ⟨rand, hrand⟩
    rw [hpin] at hrand
    cases hrand
  · rintro ⟨rand, hrand⟩
    rw [hpin] at hrand
    cases hrand
  · rintro (⟨core, hcore, -⟩ | ⟨-, hno⟩)
    · exact absurd hcore (hwanted core)
    · exact absurd hfaults hno
  · exact ⟨fun _ => hfaults, fun _ => hpin rand⟩

/-- A place in the list of the processors. -/
theorem FollowsPolicy.of_place {core : Nat}
    (hpin : ∀ rand, m.commonPin rand req = m.pinToCoreVerbose core)
    (hwanted : ∀ c, m.Wanted req c ↔ core = c ∧ c < m.cpus.length)
    (hfaults : ¬m.Faults req) : m.FollowsPolicy req := by
  unfold pinToCoreVerbose at hpin
  by_cases hle : m.cpus.length ≤ core
  · refine FollowsPolicy.of_failed (fun rand => (hpin rand).trans (if_pos hle)) ?_ hfaults
    intro c hc
    obtain ⟨rfl, hlt⟩ := (hwanted c).mp hc
    omega
  · refine FollowsPolicy.of_target (fun _ => core) (fun rand => (hpin rand).trans (if_neg hle)) ?_
      hfaults
    intro c
    rw [hwanted]
    constructor
    · rintro ⟨rfl, -⟩
      exact ⟨0, rfl⟩
    · rintro ⟨-, rfl⟩
      exact ⟨rfl, Nat.not_le.mp hle⟩

end policy

/-- The type of the first processor with a property begins with this processor. -/
theorem pick_zero (p : UInt32 → Bool) {ct : CoreType}
    (h : (groupCoreTypes m.cpus).find? (fun ct => p ct.midr) = some ct) :
    (m.cpus.find? fun c => p c.midr) = some (ct.pick 0) := by
  have hfind := find?_groupCoreTypes m.cpus p
  rw [h, Option.map_some] at hfind
  obtain ⟨c, hc, hpair⟩ := Option.map_eq_some_iff.mp hfind.symm
  obtain ⟨-, hcpus⟩ := Prod.mk.inj hpair
  obtain ⟨hpc, before, after, hsplit, hbefore⟩ := List.find?_eq_some_iff_append.mp hc
  have hself : sameMidr c c = true := beq_self_eq_true c.midr
  have hhead : ct.cpus.head? = some c := by
    rw [← hcpus, hsplit, List.filter_append, List.filter_eq_nil_iff.mpr, List.nil_append,
      List.filter_cons, if_pos hself]
    · rfl
    · intro d hd hsame
      have hd' := hbefore d hd
      rw [← beq_iff_eq.mp hsame, hpc] at hd'
      cases hd'
  have hpick : ct.cpus.head? = some (ct.pick 0) := by
    rw [List.head?_eq_getElem?, CoreType.pick, List.get_eq_getElem]
    exact List.getElem?_eq_getElem ct.count_pos
  rw [hc, ← hhead, hpick]

/-- The wish for a microarchitecture. -/
theorem FollowsPolicy.of_name {req : PinRequest} (hcore : ¬0 ≤ req.core) {name : Text}
    (hname : req.uarchOverride.filter (· ≠ []) = some name) : m.FollowsPolicy req := by
  obtain ⟨hsome, hne⟩ := Option.filter_eq_some_iff.mp hname
  have hne : name ≠ [] := of_decide_eq_true hne
  have hfaults : ¬m.Faults req := by
    rintro ⟨-, -, hempty, -⟩
    rw [hsome, Option.getD_some] at hempty
    exact hne hempty
  have hwanted : ∀ core, m.Wanted req core ↔
      ∃ cpu, (m.cpus.find? fun c => m.isNamed name c.midr) = some cpu ∧
        cpu.processor = core ∧ core < m.cpus.length := by
    intro core
    rw [Wanted, if_neg hcore, hname]
  have hpin : ∀ rand, m.commonPin rand req = match m.resolveUarchToCoreStrict name with
      | some resolved => m.pinToCoreVerbose resolved
      | none => .failed := by
    intro rand
    rw [commonPin, if_neg hcore, hname]
  -- the first type with the name, and of it the first core
  have hresolve : m.resolveUarchToCoreStrict name =
      ((groupCoreTypes m.cpus).find? fun ct => m.isNamed name ct.midr).map
        fun ct => (ct.pick 0).processor := by
    rw [resolveUarchToCoreStrict, if_neg hne]
    congr 2
    funext ct
    rw [isNamed]
    cases midrToMicroarch m.midrNameTable ct.midr <;> rfl
  cases hfind : (groupCoreTypes m.cpus).find? fun ct => m.isNamed name ct.midr with
  | none =>
      rw [hfind] at hresolve
      refine FollowsPolicy.of_failed (fun rand => ?_) (fun core hcore' => ?_) hfaults
      · rw [hpin, hresolve]
        rfl
      · obtain ⟨cpu, hcpu, -⟩ := (hwanted core).mp hcore'
        have hmidr := m.map_midr_find? (m.isNamed name)
        rw [hfind, hcpu] at hmidr
        cases hmidr
  | some ct =>
      rw [hfind] at hresolve
      have hfirst := m.pick_zero (m.isNamed name) hfind
      have hplace : ∀ rand, m.commonPin rand req = m.pinToCoreVerbose (ct.pick 0).processor := by
        intro rand
        rw [hpin, hresolve]
        rfl
      refine FollowsPolicy.of_place hplace (fun core => ?_) hfaults
      rw [hwanted, hfirst]
      simp only [Option.some.injEq, exists_eq_left']

/-- The wish for a MIDR or one of several, if it leads to a type. -/
theorem FollowsPolicy.of_type {req : PinRequest} (hcore : ¬0 ≤ req.core)
    (hname : req.uarchOverride.filter (· ≠ []) = none) {ct : CoreType}
    (htype : m.listType (wishes req) = some ct) : m.FollowsPolicy req := by
  have hcpus := m.mem_cpus_listType htype
  have haim := m.map_midr_listType (wishes req)
  rw [htype, Option.map_some] at haim
  have hpin : ∀ rand, m.commonPin rand req = m.pinToCpu (ct.pick rand).processor := by
    intro rand
    rw [commonPin, if_neg hcore, hname]
    by_cases hmidr : req.midrOverride ≠ 0
    · rw [wishes, if_pos hmidr] at htype
      simp only [if_pos hmidr, pinToMidr_eq, htype]
      rfl
    · rw [wishes, if_neg hmidr] at htype
      have hne : req.midrs ≠ [] := by
        intro hnil
        rw [hnil] at htype
        cases htype
      simp only [if_neg hmidr, if_pos hne, pinToMidrList_eq, htype]
      rfl
  refine FollowsPolicy.of_target (fun rand => (ct.pick rand).processor) hpin (fun core => ?_) ?_
  · rw [Wanted, if_neg hcore, hname]
    simp only [← haim]
    constructor
    · -- every processor with the MIDR is in the list of its type, so some draw picks it
      rintro ⟨cpu, hcpu, hmidr, rfl⟩
      obtain ⟨rand, hpick⟩ := (ct.exists_pick_iff cpu).mpr ((hcpus cpu).mpr ⟨hcpu, hmidr⟩)
      exact ⟨rand, by rw [hpick]⟩
    · rintro ⟨rand, rfl⟩
      obtain ⟨hcpu, hmidr⟩ := (hcpus _).mp ((ct.exists_pick_iff _).mp ⟨rand, rfl⟩)
      exact ⟨_, hcpu, hmidr, rfl⟩
  · rintro ⟨hnil, -⟩
    obtain ⟨hcpu, -⟩ := (hcpus _).mp ((ct.exists_pick_iff _).mp ⟨0, rfl⟩)
    rw [hnil] at hcpu
    cases hcpu

/-- No MIDR of the wishes leads to a type. -/
theorem FollowsPolicy.of_no_type {req : PinRequest} (hcore : ¬0 ≤ req.core)
    (hname : req.uarchOverride.filter (· ≠ []) = none)
    (htype : m.listType (wishes req) = none) : m.FollowsPolicy req := by
  have haim := m.map_midr_listType (wishes req)
  rw [htype, Option.map_none] at haim
  have hwanted : ∀ core, m.Wanted req core ↔ req.midrOverride = 0 ∧ core < m.cpus.length := by
    intro core
    rw [Wanted, if_neg hcore, hname]
    simp only [← haim]
  have hempty : req.uarchOverride.getD [] = [] := by
    cases huarch : req.uarchOverride with
    | none => rfl
    | some name =>
        by_contra hne
        have hne : name ≠ [] := hne
        rw [huarch, Option.filter_some, if_pos (decide_eq_true hne)] at hname
        cases hname
  -- without any wish a core is drawn; a MIDR that no processor has is an error
  by_cases hmidr : req.midrOverride = 0
  · have hpin : ∀ rand, m.commonPin rand req = m.pinToRandomCore rand := by
      intro rand
      rw [wishes, if_neg (not_not.mpr hmidr)] at htype
      rw [commonPin, if_neg hcore, hname]
      simp only [if_neg (not_not.mpr hmidr), pinToMidrList_eq, htype]
      split <;> rfl
    unfold pinToRandomCore at hpin
    -- the draw is taken modulo the number of cores
    by_cases hzero : m.cpus.length = 0
    · refine FollowsPolicy.of_fault (fun rand => (hpin rand).trans (if_pos hzero))
        (fun core h => ?_)
        ⟨List.length_eq_zero_iff.mp hzero, Int.not_le.mp hcore, hempty, hmidr⟩
      have hlt := ((hwanted core).mp h).2
      omega
    · refine FollowsPolicy.of_target (fun rand => rand % m.cpus.length)
        (fun rand => (hpin rand).trans (if_neg hzero)) (fun core => ?_) ?_
      · rw [hwanted]
        constructor
        · rintro ⟨-, hlt⟩
          exact ⟨core, Nat.mod_eq_of_lt hlt⟩
        · rintro ⟨rand, rfl⟩
          exact ⟨hmidr, Nat.mod_lt rand (Nat.pos_of_ne_zero hzero)⟩
      · rintro ⟨hnil, -⟩
        rw [hnil] at hzero
        exact hzero rfl
  · refine FollowsPolicy.of_failed (fun rand => ?_) (fun core h => hmidr ((hwanted core).mp h).1)
      fun h => hmidr h.2.2.2
    rw [wishes, if_pos hmidr] at htype
    rw [commonPin, if_neg hcore, hname]
    simp only [ne_eq, hmidr, not_false_eq_true, if_true, pinToMidr_eq, htype]
    rfl

/-- The wishes are followed in their order, and the draw is fair: it can choose every core that is
wanted and no other. -/
theorem followsPolicy (req : PinRequest) : m.FollowsPolicy req := by
  by_cases hcore : 0 ≤ req.core
  · refine FollowsPolicy.of_place (fun rand => by rw [commonPin, if_pos hcore]) (fun core => ?_)
      fun h => absurd hcore (Int.not_le.mpr h.2.1)
    rw [Wanted, if_pos hcore]
    omega
  · cases hname : req.uarchOverride.filter (· ≠ []) with
    | some name => exact FollowsPolicy.of_name m hcore hname
    | none =>
        cases htype : m.listType (wishes req) with
        | some ct => exact FollowsPolicy.of_type m hcore hname htype
        | none => exact FollowsPolicy.of_no_type m hcore hname htype

end PinMachine

end RISCover
