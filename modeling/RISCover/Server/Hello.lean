import RISCover.Config
import RISCover.Cpuinfo.Server
import RISCover.Lib.Bytes
import RISCover.Lib.Dict
import RISCover.Lib.Fallible
import Mathlib.Logic.Function.Basic

/-!
# A client introduces itself

Behind the connection the client sends what it knows about its machine and about the build it is of,
message after message, and `recv_client_info` reads them in the same order. What the server cannot
ask for it works out: `lscpu` counts the cores of every type, `/proc/cpuinfo` says which types there
are, and the number of the core decides which of them the client runs on.

Machines with a broken `lscpu` are looked up in a table of the server. What the server works out is
written into the object that stands there, which the clients of these machines share.
-/

open Bytes Text

namespace RISCover

/-! ## What lscpu says

The types of core with how many there are of each, in the order of lscpu. Some hosts have an entry
in a table instead. -/

/-- `Microarchitecture`. The register is added later. -/
structure Lscpu.Microarchitecture where
  modelName : Text
  numCores : Nat
  numSockets : Nat
  threadsPerCore : Nat
  midr : Option Int

/-- `get_num_logical_cores`. -/
def Lscpu.Microarchitecture.getNumLogicalCores (micro : Lscpu.Microarchitecture) : Nat :=
  micro.numSockets * micro.numCores * micro.threadsPerCore

/-- `CPUInfo` of `lscpu.py`. -/
structure Lscpu.CPUInfo where
  architecture : Option Text
  vendor : Option Text
  microarchitectures : List Lscpu.Microarchitecture

namespace Lscpu.CPUInfo

/-- The loop of `get_microarchitecture_by_core_id`, which finds the `i`th type and those behind it;
`none` is the exit behind the loop. -/
def coreIdLoop (core : Nat) : (current i : Nat) → List Lscpu.Microarchitecture → Option Nat
  | _, _, [] => none
  | current, i, micro :: micros =>
    if core < current + micro.getNumLogicalCores then some i
    else coreIdLoop core (current + micro.getNumLogicalCores) (i + 1) micros

/-- `get_microarchitecture_by_core_id`: the place of the object in the list. -/
def getMicroarchitectureByCoreId (cpu : Lscpu.CPUInfo) (core : Nat) : Option Nat :=
  coreIdLoop core 0 0 cpu.microarchitectures

/-- `sum(map(lambda micro: micro.get_num_logical_cores(), self.cpu.microarchitectures))`. -/
def numLogicalCores (cpu : Lscpu.CPUInfo) : Nat :=
  (cpu.microarchitectures.map Lscpu.Microarchitecture.getNumLogicalCores).sum

/-- `for m, midr in zip(self.cpu.microarchitectures, midrs): m.midr = midr`. -/
def setMidrs (cpu : Lscpu.CPUInfo) (midrs : List Int) : Lscpu.CPUInfo :=
  { cpu with
    microarchitectures := List.zipWith (fun m midr => { m with midr := some midr })
      cpu.microarchitectures midrs }

end Lscpu.CPUInfo

/-- The objects that `hardcoded_machine_info` refers to, by their numbers. -/
abbrev MachineInfo := Nat → Lscpu.CPUInfo

/-- What `self.cpu` refers to: an object of the table, or one that was made for the client. -/
inductive CpuObject where
  | hardcoded (i : Nat)
  | made (cpu : Lscpu.CPUInfo)

namespace CpuObject

def read (machines : MachineInfo) : CpuObject → Lscpu.CPUInfo
  | .hardcoded i => machines i
  | .made cpu => cpu

/-- The object and the table, after the object was changed. -/
def write (machines : MachineInfo) (cpu : Lscpu.CPUInfo) : CpuObject → CpuObject × MachineInfo
  | .hardcoded i => (.hardcoded i, Function.update machines i cpu)
  | .made _ => (.made cpu, machines)

end CpuObject

/-- What the server knows about machines beforehand: the tables of `util.py`, `parse_lscpu_output`,
which may raise, and the hash that stands for the cores of riscv64. Several hosts may have one
object in `hardcoded_machine_info`; `machines` is what the objects are at the start. -/
structure MachineTables where
  serialToHostname : Dict Text Text
  hardcodedMachineInfo : Dict Text Nat
  machines : MachineInfo
  hardcodedLscpu : Dict Text Text
  parseLscpuOutput : Text → Option Lscpu.CPUInfo
  sha256 : Text → Nat

/-- `qemu_config`. -/
def qemuConfig (arch : Arch) (qemuHostname : Text) (numCpus : Nat) : Lscpu.CPUInfo where
  architecture := some (match arch with
    | .riscv64 => "riscv64".toList
    | .aarch64 => "aarch64".toList)
  vendor := some "qemu".toList
  microarchitectures := [⟨qemuHostname, numCpus, 1, 1, none⟩]

namespace MachineTables

/-- `self.cpu`. -/
def lscpuInfo (t : MachineTables) (arch : Arch) (hostname : Text) (numCpus : Nat) (lscpu : Text) :
    Option CpuObject :=
  match t.hardcodedMachineInfo.get? hostname with
  | some i => some (.hardcoded i)
  | none =>
    match t.hardcodedLscpu.get? hostname with
    | some lscpu => (t.parseLscpuOutput lscpu).map .made
    | none =>
      if startsWith hostname "qemu" then some (.made (qemuConfig arch hostname numCpus))
      else (t.parseLscpuOutput lscpu).map .made

end MachineTables

/-! ## The registers of the cores

Where the MIDRs come from depends on the host: `/proc/cpuinfo`, the version of qemu, or a number
that stands for the host. -/

/-- A part of the version of QEMU. -/
def qemuVersionPart (parts : List Text) (i : Nat) : Int :=
  match parts[i]?.bind pyInt with
  | some n => n % 16
  | none => 0

/-- `QemuCPUInfo`. -/
def qemuCPUInfo (arch : Arch) (qemuString : Text) : ServerCpuinfo.CPUInfo :=
  let versionStr := if startsWith qemuString "qemu-" then qemuString.drop 5 else qemuString
  let architecture : Int := match arch with
    | .riscv64 => 0xf
    | .aarch64 => 0x8
  if versionStr = "latest".toList then
    ⟨0, some 0x7F, some architecture, some 0xF, some 0xFFF, some 0xF⟩
  else
    let versionParts := (versionStr.dropWhile (· = 'v')).splitOn '.'
    ⟨0, some 0x7F, some architecture, some (qemuVersionPart versionParts 0), some 0,
      some (qemuVersionPart versionParts 1)⟩

/-- `RiscvFakeCPUInfo`. -/
def riscvFakeCPUInfo (sha256 : Text → Nat) (procCpuinfo : Text) : ServerCpuinfo.CPUInfo :=
  let hashInt := sha256 procCpuinfo
  ⟨0, some ↑(hashInt % 2 ^ 8 : Nat), some 0xf, some ↑(hashInt / 2 ^ 8 % 2 ^ 4 : Nat),
    some ↑(hashInt / 2 ^ 12 % 2 ^ 12 : Nat), some ↑(hashInt / 2 ^ 24 % 2 ^ 4 : Nat)⟩

/-- `[c.midr() for c in cpuinfos]`, core by core. -/
def MachineTables.coreMidrs (t : MachineTables) (arch : Arch) (hostname : Text) (numCpus : Nat)
    (procCpuinfo sysPossible : Text) : Option (List Int) :=
  if startsWith hostname "qemu" then
    (qemuCPUInfo arch hostname).midr.map (List.replicate numCpus)
  else
    match arch with
    | .aarch64 => ServerCpuinfo.midrs procCpuinfo sysPossible
    | .riscv64 => (riscvFakeCPUInfo t.sha256 procCpuinfo).midr.map (List.replicate numCpus)

/-- `list(dict.fromkeys(..))`: the values without their repetitions. -/
def fromkeys (l : List Int) : List Int := (l.foldl (fun d x => d.set x ()) Dict.empty).keys

/-! ## The client

The messages in the order in which they are sent. The last one is the hash of the binary. -/

/-- What `start_client` sends. `sve_max_size` and `sme_max_size` exist on aarch64 only. -/
structure Hello where
  hostname : Bytes
  numCpus : UInt32
  core : UInt32
  lscpu : Bytes
  procCpuinfo : Bytes
  sysPossible : Bytes
  vecSize : UInt32
  sveMaxSize : UInt32
  smeMaxSize : UInt32
  globalTagList : List (Bytes × Bytes)
  elfHash : Bytes
  globalTagList_lt : globalTagList.length < 2 ^ 32
  /-- The section has 32 characters. -/
  elfHash_ne_nil : elfHash ≠ []

/-- An `int` or `unsigned` in memory. -/
def intBytes (n : UInt32) : Bytes := leBytes 4 n.toNat

/-- The sizes of which only aarch64 knows. -/
def Hello.otherMessages (arch : Arch) (h : Hello) : List Bytes :=
  match arch with
  | .aarch64 => [intBytes h.sveMaxSize, intBytes h.smeMaxSize]
  | .riscv64 => []

/-- The messages in front of the batches. The tags are sent from the last to the first. -/
def Hello.messages (arch : Arch) (h : Hello) : List Bytes :=
  [h.hostname, intBytes h.numCpus, intBytes h.core, h.lscpu, h.procCpuinfo, h.sysPossible,
    intBytes h.vecSize] ++ h.otherMessages arch ++
  [leBytes 4 h.globalTagList.length] ++
  h.globalTagList.reverse.flatMap (fun tag => [tag.1, tag.2]) ++ [h.elfHash]

/-! ## The server

The messages are read one by one, and each can raise. The objects of the table are shared by all
hosts of one entry, and the MIDRs are written into them. -/

/-- Why a connection is not accepted; the last is the `exit` of `check_hash`. -/
inductive HelloError where
  | receivedZero
  | msgTooLarge
  | structError
  | unicodeDecodeError
  | assertion
  | lscpuError
  | attributeError
  | invalidCoreId
  | differentElfHash

/-- `decode("utf-8")`. -/
def decodeUtf8 (bs : Bytes) : Option Text := (String.fromUTF8? ⟨bs.toArray⟩).map String.toList

/-- `recv_str`. -/
def recvStr : List Bytes → Except HelloError (Text × List Bytes)
  | [] => throw .receivedZero
  | msg :: msgs =>
    match decodeUtf8 msg with
    | some t => pure (t, msgs)
    | none => throw .unicodeDecodeError

/-- `struct.unpack("I", self.recv_msg(4))[0]`. -/
def recvUnsigned : List Bytes → Except HelloError (Nat × List Bytes)
  | [] => throw .receivedZero
  | msg :: msgs =>
    if 4 < msg.length then throw .msgTooLarge
    else if msg.length = 4 then pure (ofLeBytes msg, msgs)
    else throw .structError

/-- `assert`. -/
def pyAssert (b : Bool) : Except HelloError Unit := if b then pure () else throw .assertion

def orError {α : Type} (e : HelloError) : Option α → Except HelloError α
  | some a => pure a
  | none => throw e

/-- `_ or None`. -/
def orNone (n : Nat) : Option Nat := if n = 0 then none else some n

/-- The loop over the tags. -/
def recvTags : (tagCount : Nat) → Dict Text Text → List Bytes →
    Except HelloError (Dict Text Text × List Bytes)
  | 0, tags, msgs => pure (tags, msgs)
  | n + 1, tags, msgs => do
      let (tagName, msgs) ← recvStr msgs
      let (tagValue, msgs) ← recvStr msgs
      recvTags n (tags.set tagName tagValue) msgs

/-- The sizes that aarch64 sends beside `vec_size`. -/
def recvOther (arch : Arch) (msgs : List Bytes) :
    Except HelloError (Dict String (Option Nat) × List Bytes) :=
  match arch with
  | .aarch64 => do
      let (sveMaxSize, msgs) ← recvUnsigned msgs
      let (smeMaxSize, msgs) ← recvUnsigned msgs
      pure ((Dict.empty.set "sve_max_size" (orNone sveMaxSize)).set "sme_max_size"
        (orNone smeMaxSize), msgs)
  | .riscv64 => pure (Dict.empty, msgs)

/-- A client, as `recv_client_info` fills it in; `microarchitecture` is an object of `cpu`. -/
structure ConnectedClient where
  hostname : Text
  numCpus : Nat
  nCore : Nat
  vecSize : Option Nat
  other : Dict String (Option Nat)
  tags : Dict Text Text
  cpu : CpuObject
  microarchitecture : Nat

/-- The settings of `Server`. -/
structure HelloConfig where
  arch : Arch
  singleClient : Bool
  tables : MachineTables

namespace HelloConfig

variable (s : HelloConfig)

/-- The second half of `recv_client_info`: which machine, and which of its cores. -/
def identify (machines : MachineInfo) (hostname : Text) (numCpus nCore : Nat)
    (lscpu procCpuinfo sysPossible : Text) :
    Except HelloError (CpuObject × Nat × MachineInfo) := do
  let object ← orError .lscpuError (s.tables.lscpuInfo s.arch hostname numCpus lscpu)
  let cpuinfos ← orError .attributeError
    (s.tables.coreMidrs s.arch hostname numCpus procCpuinfo sysPossible)
  let midrs := fromkeys cpuinfos
  let cpu := object.read machines
  pyAssert (cpu.microarchitectures.length == midrs.length)
  let cpu := cpu.setMidrs midrs
  let (object, machines) := object.write machines cpu
  let microarchitecture ← orError .invalidCoreId (cpu.getMicroarchitectureByCoreId nCore)
  pyAssert (s.singleClient || numCpus == cpu.numLogicalCores)
  pure (object, microarchitecture, machines)

/-- `recv_client_info`. -/
def recvClientInfo (machines : MachineInfo) (msgs : List Bytes) :
    Except HelloError (ConnectedClient × MachineInfo × List Bytes) := do
  let (hostname, msgs) ← recvStr msgs
  let hostname := (s.tables.serialToHostname.get? hostname).getD hostname
  let (numCpus, msgs) ← recvUnsigned msgs
  pyAssert (!s.singleClient || numCpus == 1)
  let (nCore, msgs) ← recvUnsigned msgs
  let (lscpu, msgs) ← recvStr msgs
  let (procCpuinfo, msgs) ← recvStr msgs
  let (sysPossible, msgs) ← recvStr msgs
  let (vecSize, msgs) ← recvUnsigned msgs
  let (other, msgs) ← recvOther s.arch msgs
  let (tagCount, msgs) ← recvUnsigned msgs
  let (tags, msgs) ← recvTags tagCount Dict.empty msgs
  let (cpu, microarchitecture, machines) ←
    s.identify machines hostname numCpus nCore lscpu procCpuinfo sysPossible
  pure (⟨hostname, numCpus, nCore, orNone vecSize, other, tags, cpu, microarchitecture⟩, machines,
    msgs)

/-- `check_hash`; the hash of the server is empty until a client sends one. -/
def checkHash (elfHash : Text) (msgs : List Bytes) : Except HelloError (Text × List Bytes) := do
  let (hash, msgs) ← recvStr msgs
  if elfHash = [] then pure (hash, msgs)
  else if elfHash ≠ hash then throw .differentElfHash
  else pure (elfHash, msgs)

end HelloConfig

/-- What the server has: the objects of its table, the hash, and its clients. -/
structure HelloState where
  machines : MachineInfo
  elfHash : Text
  clients : List ConnectedClient

/-- What the `cpu` of a client is by now. -/
def HelloState.cpu (st : HelloState) (m : ConnectedClient) : Lscpu.CPUInfo :=
  m.cpu.read st.machines

/-- `client.microarchitecture.midr`. -/
def HelloState.midr (st : HelloState) (m : ConnectedClient) : Option Int :=
  (st.cpu m).microarchitectures[m.microarchitecture]?.bind Lscpu.Microarchitecture.midr

namespace HelloConfig

variable (s : HelloConfig)

/-- A client connects. -/
def accept (st : HelloState) (h : Hello) : Except HelloError HelloState := do
  let (client, machines, msgs) ← s.recvClientInfo st.machines (h.messages s.arch)
  let (elfHash, _) ← checkHash st.elfHash msgs
  pure ⟨machines, elfHash, st.clients ++ [client]⟩

def acceptAll (arrivals : List Hello) : Except HelloError HelloState :=
  arrivals.foldlM s.accept ⟨s.tables.machines, [], []⟩

end HelloConfig

/-! ## What the server knows

`Knows` says it of one client, and `Final` which MIDRs the object of a machine has in the end. -/

/-- The places of the types of the cores, core by core. -/
def byCores (micros : List Lscpu.Microarchitecture) : List Nat :=
  micros.zipIdx.flatMap fun p => List.replicate p.1.getNumLogicalCores p.2

/-- What the server reads out of the files of the machine: the object that stands for it, and the
MIDRs of its cores. -/
def HelloConfig.Machine (s : HelloConfig) (h : Hello) (object : CpuObject) (midrs : List Int) :
    Prop :=
  ∃ t lscpu procCpuinfo sysPossible, decodeUtf8 h.hostname = some t ∧
    decodeUtf8 h.lscpu = some lscpu ∧ decodeUtf8 h.procCpuinfo = some procCpuinfo ∧
    decodeUtf8 h.sysPossible = some sysPossible ∧
    s.tables.lscpuInfo s.arch ((s.tables.serialToHostname.get? t).getD t) h.numCpus.toNat lscpu =
      some object ∧
    s.tables.coreMidrs s.arch ((s.tables.serialToHostname.get? t).getD t) h.numCpus.toNat
      procCpuinfo sysPossible = some midrs

/-- The machine of a client and the type of its core. An object that is made for the client keeps
the MIDRs. -/
structure HelloConfig.Locates (s : HelloConfig) (numCpus nCore : Nat) (object : CpuObject)
    (midrs : List Int) (cpu : CpuObject) (microarchitecture : Nat) : Prop where
  types : (object.read s.tables.machines).microarchitectures.length = (fromkeys midrs).length
  cpu : cpu = match object with
    | .hardcoded i => .hardcoded i
    | .made info => .made (info.setMidrs (fromkeys midrs))
  core : (byCores (object.read s.tables.machines).microarchitectures)[nCore]? =
    some microarchitecture
  all_cores : s.singleClient = true ∨
    numCpus = (object.read s.tables.machines).numLogicalCores

/-- The text of a tag. -/
def DecodesTag (sent : Bytes × Bytes) (tag : Text × Text) : Prop :=
  decodeUtf8 sent.1 = some tag.1 ∧ decodeUtf8 sent.2 = some tag.2

/-- The server has understood the client: what it knows is what the client told of itself, and the
first of two tags with the same name counts. -/
structure HelloConfig.Knows (s : HelloConfig) (h : Hello) (m : ConnectedClient) : Prop where
  hostname : ∃ t, decodeUtf8 h.hostname = some t ∧
    m.hostname = (s.tables.serialToHostname.get? t).getD t
  numCpus : m.numCpus = h.numCpus.toNat
  single : s.singleClient = true → h.numCpus = 1
  nCore : m.nCore = h.core.toNat
  vecSize : m.vecSize = orNone h.vecSize.toNat
  other : ∀ key, m.other.get? key =
    if s.arch = .aarch64 then
      if key = "sme_max_size" then some (orNone h.smeMaxSize.toNat)
      else if key = "sve_max_size" then some (orNone h.sveMaxSize.toNat)
      else none
    else none
  tags : ∃ tags, List.Forall₂ DecodesTag h.globalTagList tags ∧
    ∀ name, m.tags.get? name = tags.lookup name
  located : ∃ object midrs, s.Machine h object midrs ∧
    s.Locates m.numCpus m.nCore object midrs m.cpu m.microarchitecture

/-- These are the MIDRs of the last client on a machine with this object of the table. -/
def HelloConfig.LastOn (s : HelloConfig) (arrivals : List Hello) (i : Nat) (midrs : List Int) :
    Prop :=
  ∃ before h behind, arrivals = before ++ h :: behind ∧ s.Machine h (.hardcoded i) midrs ∧
    ∀ h' ∈ behind, ∀ midrs', ¬s.Machine h' (.hardcoded i) midrs'

/-- The MIDRs that a machine has after all arrivals: its own, but those of the last client where
machines share an object. -/
def HelloConfig.Final (s : HelloConfig) (arrivals : List Hello) (object : CpuObject)
    (midrs midrs' : List Int) : Prop :=
  match object with
  | .hardcoded i => s.LastOn arrivals i midrs'
  | .made _ => midrs' = midrs

/-! ## Receiving

Each message is read to its end, so a call succeeds when the message is right and the calls behind
it do. -/

section

variable {α : Type} {a : α}

theorem recvStr_bind_eq_ok_iff {msg : Bytes} {msgs : List Bytes}
    {f : Text × List Bytes → Except HelloError α} :
    (recvStr (msg :: msgs) >>= f) = .ok a ↔
      ∃ t, decodeUtf8 msg = some t ∧ f (t, msgs) = .ok a := by
  rw [recvStr]
  cases decodeUtf8 msg with
  | none =>
      constructor
      · intro h
        cases h
      · rintro ⟨t, h, -⟩
        cases h
  | some t =>
      constructor
      · intro h
        exact ⟨t, rfl, h⟩
      · rintro ⟨t', h, hf⟩
        cases h
        exact hf

theorem recvUnsigned_leBytes_bind {n : Nat} (hn : n < 2 ^ 32) (msgs : List Bytes)
    (f : Nat × List Bytes → Except HelloError α) :
    (recvUnsigned (leBytes 4 n :: msgs) >>= f) = f (n, msgs) := by
  have hlen := length_leBytes 4 n
  rw [recvUnsigned, if_neg (by omega), if_pos hlen, ofLeBytes_leBytes_of_lt hn]
  rfl

theorem recvUnsigned_intBytes_bind (n : UInt32) (msgs : List Bytes)
    (f : Nat × List Bytes → Except HelloError α) :
    (recvUnsigned (intBytes n :: msgs) >>= f) = f (n.toNat, msgs) :=
  recvUnsigned_leBytes_bind n.toNat_lt msgs f

theorem pyAssert_bind_eq_ok_iff {b : Bool} {f : Unit → Except HelloError α} :
    (pyAssert b >>= f) = .ok a ↔ b = true ∧ f () = .ok a := by
  cases b with
  | false =>
      constructor
      · intro h
        cases h
      · rintro ⟨h, -⟩
        cases h
  | true => exact ⟨fun h => ⟨rfl, h⟩, fun h => h.2⟩

theorem orError_bind_eq_ok_iff {β : Type} {e : HelloError} {o : Option β}
    {f : β → Except HelloError α} :
    (orError e o >>= f) = .ok a ↔ ∃ b, o = some b ∧ f b = .ok a := by
  cases o with
  | none =>
      constructor
      · intro h
        cases h
      · rintro ⟨b, h, -⟩
        cases h
  | some b =>
      constructor
      · intro h
        exact ⟨b, rfl, h⟩
      · rintro ⟨b', h, hf⟩
        cases h
        exact hf

end

theorem recvTags_bind_eq_ok_iff {α : Type} {a : α} {sent : List (Bytes × Bytes)}
    {msgs : List Bytes} {d : Dict Text Text}
    {f : Dict Text Text × List Bytes → Except HelloError α} :
    (recvTags sent.length d (sent.flatMap (fun tag => [tag.1, tag.2]) ++ msgs) >>= f) = .ok a ↔
      ∃ tags, List.Forall₂ DecodesTag sent tags ∧
        f (tags.foldl (fun d tag => d.set tag.1 tag.2) d, msgs) = .ok a := by
  induction sent generalizing d with
  | nil =>
      constructor
      · intro h
        exact ⟨[], List.Forall₂.nil, h⟩
      · rintro ⟨tags, htags, h⟩
        rw [List.forall₂_nil_left_iff.mp htags] at h
        exact h
  | cons tag sent ih =>
      simp only [List.length_cons, List.flatMap_cons, List.cons_append, List.nil_append, recvTags,
        bind_assoc, recvStr_bind_eq_ok_iff, ih]
      constructor
      · rintro ⟨name, hname, value, hvalue, tags, htags, h⟩
        exact ⟨(name, value) :: tags, List.Forall₂.cons ⟨hname, hvalue⟩ htags, h⟩
      · rintro ⟨tags', htags', h⟩
        obtain ⟨t, tags, ht, htags, rfl⟩ := List.forall₂_cons_left_iff.mp htags'
        exact ⟨t.1, ht.1, t.2, ht.2, tags, htags, h⟩

/-- The tag that is received last wins. -/
theorem get?_tags (tags : List (Text × Text)) (name : Text) :
    (tags.reverse.foldl (fun d tag => d.set tag.1 tag.2) Dict.empty).get? name =
      tags.lookup name := by
  rw [List.foldl_reverse]
  induction tags with
  | nil => rfl
  | cons tag tags ih =>
      rw [List.foldr_cons, Dict.get?_set, ih, List.lookup_cons]
      by_cases h : name = tag.1
      · simp [h]
      · simp [h, beq_eq_false_iff_ne.mpr h]

/-! ## The core

The loop over the types ends at the one that the core is in, counted over their cores. -/

/-- The loop walks over the cores in front. -/
theorem coreIdLoop_eq (micros : List Lscpu.Microarchitecture) (current core i : Nat) :
    Lscpu.CPUInfo.coreIdLoop (current + core) current i micros =
      ((micros.zipIdx i).flatMap fun p => List.replicate p.1.getNumLogicalCores p.2)[core]? := by
  induction micros generalizing current core i with
  | nil => rfl
  | cons micro micros ih =>
      rw [List.zipIdx_cons, List.flatMap_cons]
      unfold Lscpu.CPUInfo.coreIdLoop
      dsimp only
      by_cases h : core < micro.getNumLogicalCores
      · rw [if_pos (by omega), List.getElem?_append_left (by rw [List.length_replicate]; exact h),
          List.getElem?_replicate_of_lt h]
      · have hsplit : current + core =
            current + micro.getNumLogicalCores + (core - micro.getNumLogicalCores) := by omega
        rw [if_neg (by omega), hsplit, ih,
          List.getElem?_append_right (by rw [List.length_replicate]; omega),
          List.length_replicate]

theorem getMicroarchitectureByCoreId_eq (cpu : Lscpu.CPUInfo) (core : Nat) :
    cpu.getMicroarchitectureByCoreId core = (byCores cpu.microarchitectures)[core]? := by
  rw [byCores, ← coreIdLoop_eq cpu.microarchitectures 0 core 0, Nat.zero_add]
  rfl

/-! ## The objects of the table

What is written into an object changes its MIDRs and nothing else. So what is decided by the types
is decided by the table. -/

/-- A machine as it is described, without what was found out. -/
def Lscpu.CPUInfo.described (cpu : Lscpu.CPUInfo) : Lscpu.CPUInfo :=
  { cpu with microarchitectures := cpu.microarchitectures.map fun m => { m with midr := none } }

section described

variable {cpu cpu' : Lscpu.CPUInfo} {midrs : List Int}

theorem described_setMidrs (h : cpu.microarchitectures.length = midrs.length) :
    (cpu.setMidrs midrs).described = cpu.described := by
  rw [Lscpu.CPUInfo.described, Lscpu.CPUInfo.described, Lscpu.CPUInfo.setMidrs,
    Lscpu.CPUInfo.mk.injEq]
  refine ⟨rfl, rfl, ?_⟩
  rw [List.map_zipWith]
  apply List.ext_getElem
  · simp [h]
  · intro i hi hi'
    simp

theorem setMidrs_congr (h : cpu.described = cpu'.described) (midrs : List Int) :
    cpu.setMidrs midrs = cpu'.setMidrs midrs := by
  have hset (c : Lscpu.CPUInfo) : c.setMidrs midrs = c.described.setMidrs midrs := by
    simp [Lscpu.CPUInfo.setMidrs, Lscpu.CPUInfo.described, List.zipWith_map_left]
  rw [hset cpu, h, ← hset]

theorem length_described (cpu : Lscpu.CPUInfo) :
    cpu.described.microarchitectures.length = cpu.microarchitectures.length :=
  List.length_map _

theorem numLogicalCores_described (cpu : Lscpu.CPUInfo) :
    cpu.described.numLogicalCores = cpu.numLogicalCores := by
  rw [Lscpu.CPUInfo.numLogicalCores, Lscpu.CPUInfo.described, List.map_map]
  rfl

theorem byCores_described (cpu : Lscpu.CPUInfo) :
    byCores cpu.described.microarchitectures = byCores cpu.microarchitectures := by
  simp [byCores, Lscpu.CPUInfo.described, List.zipIdx_map, List.flatMap_map,
    Lscpu.Microarchitecture.getNumLogicalCores]

theorem byCores_setMidrs (h : cpu.microarchitectures.length = midrs.length) :
    byCores (cpu.setMidrs midrs).microarchitectures = byCores cpu.microarchitectures := by
  rw [← byCores_described, described_setMidrs h, byCores_described]

theorem numLogicalCores_setMidrs (h : cpu.microarchitectures.length = midrs.length) :
    (cpu.setMidrs midrs).numLogicalCores = cpu.numLogicalCores := by
  rw [← numLogicalCores_described, described_setMidrs h, numLogicalCores_described]

end described

/-- The objects describe the machines that they described at the start. -/
def HelloConfig.Describes (s : HelloConfig) (machines : MachineInfo) : Prop :=
  ∀ i, (machines i).described = (s.tables.machines i).described

namespace HelloConfig

variable {s : HelloConfig} {machines machines' : MachineInfo}

theorem Describes.read (h : s.Describes machines) (object : CpuObject) :
    (object.read machines).described = (object.read s.tables.machines).described := by
  cases object with
  | hardcoded i => exact h i
  | made cpu => rfl

/-- What becomes of the object of a machine and of the table. -/
def writeMidrs (s : HelloConfig) (machines : MachineInfo) (object : CpuObject) (midrs : List Int) :
    CpuObject × MachineInfo :=
  object.write machines ((object.read s.tables.machines).setMidrs (fromkeys midrs))

theorem Describes.writeMidrs (h : s.Describes machines) {object : CpuObject} {midrs : List Int}
    (hlen : (object.read s.tables.machines).microarchitectures.length = (fromkeys midrs).length) :
    s.Describes (s.writeMidrs machines object midrs).2 := by
  cases object with
  | hardcoded i =>
      refine (Function.forall_update_iff machines fun j cpu =>
        cpu.described = (s.tables.machines j).described).mpr ⟨?_, fun j _ => h j⟩
      exact described_setMidrs hlen
  | made cpu => exact h

theorem identify_eq_ok_iff (hdesc : s.Describes machines)
    {hostname lscpu procCpuinfo sysPossible : Text} {numCpus nCore : Nat} {cpu : CpuObject}
    {micro : Nat} :
    s.identify machines hostname numCpus nCore lscpu procCpuinfo sysPossible =
        .ok (cpu, micro, machines') ↔
      ∃ object, s.tables.lscpuInfo s.arch hostname numCpus lscpu = some object ∧
      ∃ midrs, s.tables.coreMidrs s.arch hostname numCpus procCpuinfo sysPossible = some midrs ∧
        s.Locates numCpus nCore object midrs cpu micro ∧
          machines' = (s.writeMidrs machines object midrs).2 := by
  simp only [identify, orError_bind_eq_ok_iff]
  refine exists_congr fun object => and_congr_right fun _ => exists_congr fun midrs =>
    and_congr_right fun _ => ?_
  have hread := hdesc.read object
  -- the objects have been written to since the start, but not the number of types
  have hlen : (object.read machines).microarchitectures.length =
      (object.read s.tables.machines).microarchitectures.length := by
    rw [← length_described, hread, length_described]
  simp only [pyAssert_bind_eq_ok_iff, beq_iff_eq, hlen, setMidrs_congr hread,
    getMicroarchitectureByCoreId_eq, orError_bind_eq_ok_iff, Bool.or_eq_true]
  constructor
  · rintro ⟨htypes, micro', hcore, hall, h⟩
    rw [byCores_setMidrs htypes] at hcore
    rw [numLogicalCores_setMidrs htypes] at hall
    -- an entry of the table is written to, and an object of the client's own is not shared
    cases object with
    | hardcoded i =>
        cases h
        exact ⟨⟨htypes, rfl, hcore, hall⟩, rfl⟩
    | made info =>
        cases h
        exact ⟨⟨htypes, rfl, hcore, hall⟩, rfl⟩
  · rintro ⟨hloc, rfl⟩
    refine ⟨hloc.types, micro, ?_, ?_, ?_⟩
    · rw [byCores_setMidrs hloc.types]
      exact hloc.core
    · rw [numLogicalCores_setMidrs hloc.types]
      exact hloc.all_cores
    · rw [hloc.cpu]
      cases object <;> rfl

theorem identify_bind_eq_ok_iff (hdesc : s.Describes machines)
    {hostname lscpu procCpuinfo sysPossible : Text} {numCpus nCore : Nat} {α : Type} {a : α}
    {f : CpuObject × Nat × MachineInfo → Except HelloError α} :
    (s.identify machines hostname numCpus nCore lscpu procCpuinfo sysPossible >>= f) = .ok a ↔
      ∃ object, s.tables.lscpuInfo s.arch hostname numCpus lscpu = some object ∧
      ∃ midrs, s.tables.coreMidrs s.arch hostname numCpus procCpuinfo sysPossible = some midrs ∧
      ∃ cpu micro, s.Locates numCpus nCore object midrs cpu micro ∧
        f (cpu, micro, (s.writeMidrs machines object midrs).2) = .ok a := by
  rw [Fallible.bind_eq_ok_iff]
  constructor
  · rintro ⟨⟨cpu, micro, machines'⟩, hidentify, hf⟩
    obtain ⟨object, hobject, midrs, hmidrs, hloc, rfl⟩ := (identify_eq_ok_iff hdesc).mp hidentify
    exact ⟨object, hobject, midrs, hmidrs, cpu, micro, hloc, hf⟩
  · rintro ⟨object, hobject, midrs, hmidrs, cpu, micro, hloc, hf⟩
    exact ⟨_, (identify_eq_ok_iff hdesc).mpr ⟨object, hobject, midrs, hmidrs, hloc, rfl⟩, hf⟩

/-- What aarch64 sends beside the size of the vectors, by its name. -/
def otherSizes (arch : Arch) (h : Hello) : Dict String (Option Nat) :=
  match arch with
  | .aarch64 =>
    (Dict.empty.set "sve_max_size" (orNone h.sveMaxSize.toNat)).set "sme_max_size"
      (orNone h.smeMaxSize.toNat)
  | .riscv64 => Dict.empty

theorem recvOther_bind {α : Type} (arch : Arch) (h : Hello) (msgs : List Bytes)
    (f : Dict String (Option Nat) × List Bytes → Except HelloError α) :
    (recvOther arch (h.otherMessages arch ++ msgs) >>= f) = f (otherSizes arch h, msgs) := by
  cases arch with
  | riscv64 => rfl
  | aarch64 =>
      show (recvOther .aarch64 (intBytes h.sveMaxSize :: intBytes h.smeMaxSize :: msgs) >>= f) = _
      simp only [recvOther, recvUnsigned_intBytes_bind, pure_bind]
      rfl

theorem get?_otherSizes (arch : Arch) (h : Hello) (key : String) :
    (otherSizes arch h).get? key =
      if arch = .aarch64 then
        if key = "sme_max_size" then some (orNone h.smeMaxSize.toNat)
        else if key = "sve_max_size" then some (orNone h.sveMaxSize.toNat)
        else none
      else none := by
  cases arch with
  | riscv64 => rfl
  | aarch64 =>
      show ((Dict.empty.set _ _).set _ _).get? key = _
      rw [Dict.get?_set, Dict.get?_set, Dict.get?_empty, if_pos rfl]

/-- What the server makes of the messages. -/
theorem recvClientInfo_eq_ok_iff (hdesc : s.Describes machines) {h : Hello} {m : ConnectedClient}
    {rest : List Bytes} :
    s.recvClientInfo machines (h.messages s.arch) = .ok (m, machines', rest) ↔
      ∃ hostname, decodeUtf8 h.hostname = some hostname ∧
      (!s.singleClient || h.numCpus.toNat == 1) = true ∧
      ∃ lscpu, decodeUtf8 h.lscpu = some lscpu ∧
      ∃ procCpuinfo, decodeUtf8 h.procCpuinfo = some procCpuinfo ∧
      ∃ sysPossible, decodeUtf8 h.sysPossible = some sysPossible ∧
      ∃ tags, List.Forall₂ DecodesTag h.globalTagList.reverse tags ∧
      ∃ object, s.tables.lscpuInfo s.arch ((s.tables.serialToHostname.get? hostname).getD hostname)
        h.numCpus.toNat lscpu = some object ∧
      ∃ midrs, s.tables.coreMidrs s.arch ((s.tables.serialToHostname.get? hostname).getD hostname)
        h.numCpus.toNat procCpuinfo sysPossible = some midrs ∧
      ∃ cpu micro, s.Locates h.numCpus.toNat h.core.toNat object midrs cpu micro ∧
      pure (⟨(s.tables.serialToHostname.get? hostname).getD hostname, h.numCpus.toNat,
        h.core.toNat, orNone h.vecSize.toNat, otherSizes s.arch h,
        tags.foldl (fun d tag => d.set tag.1 tag.2) Dict.empty, cpu, micro⟩,
        (s.writeMidrs machines object midrs).2, [h.elfHash]) =
        (.ok (m, machines', rest) :
          Except HelloError (ConnectedClient × MachineInfo × List Bytes)) := by
  have hlen : h.globalTagList.reverse.length = h.globalTagList.length := List.length_reverse
  -- the number of tags is sent in four bytes
  have hlt : h.globalTagList.reverse.length < 2 ^ 32 := by
    rw [hlen]
    exact h.globalTagList_lt
  unfold recvClientInfo Hello.messages
  simp only [← hlen, List.cons_append, List.nil_append, List.append_assoc, recvStr_bind_eq_ok_iff,
    recvUnsigned_intBytes_bind, pyAssert_bind_eq_ok_iff, recvOther_bind,
    recvUnsigned_leBytes_bind hlt, recvTags_bind_eq_ok_iff, identify_bind_eq_ok_iff hdesc]

theorem single_iff {n : UInt32} :
    (!s.singleClient || n.toNat == 1) = true ↔ (s.singleClient = true → n = 1) := by
  rw [Bool.or_eq_true, Bool.not_eq_true', beq_iff_eq, ← UInt32.toNat_inj]
  cases s.singleClient with
  | false => exact ⟨fun _ h => (by cases h), fun _ => Or.inl rfl⟩
  | true =>
      constructor
      · rintro (h | h) -
        · cases h
        · exact h
      · intro h
        exact Or.inr (h rfl)

theorem knows_of_recvClientInfo (hdesc : s.Describes machines) {h : Hello} {m : ConnectedClient}
    {rest : List Bytes}
    (hrecv : s.recvClientInfo machines (h.messages s.arch) = .ok (m, machines', rest)) :
    rest = [h.elfHash] ∧ s.Knows h m ∧ s.Describes machines' ∧ ∃ object midrs,
      s.Machine h object midrs ∧ machines' = (s.writeMidrs machines object midrs).2 := by
  obtain ⟨hostname, hhost, hsingle, lscpu, hlscpu, procCpuinfo, hproc, sysPossible, hsys, tags,
    htags, object, hobject, midrs, hmidrs, cpu, micro, hloc, hm⟩ :=
    (recvClientInfo_eq_ok_iff hdesc).mp hrecv
  cases hm
  have htags' : List.Forall₂ DecodesTag h.globalTagList tags.reverse := by
    rw [← List.forall₂_reverse_iff, List.reverse_reverse]
    exact htags
  have hmachine : s.Machine h object midrs :=
    ⟨hostname, lscpu, procCpuinfo, sysPossible, hhost, hlscpu, hproc, hsys, hobject, hmidrs⟩
  refine ⟨rfl, ⟨⟨hostname, hhost, rfl⟩, rfl, single_iff.mp hsingle, rfl, rfl,
    get?_otherSizes s.arch h, ⟨tags.reverse, htags', fun name => ?_⟩,
    ⟨object, midrs, hmachine, hloc⟩⟩, hdesc.writeMidrs hloc.types, object, midrs, hmachine, rfl⟩
  rw [← get?_tags, List.reverse_reverse]

theorem exists_recvClientInfo (hdesc : s.Describes machines) {h : Hello} {m : ConnectedClient}
    (hknows : s.Knows h m) :
    ∃ m' machines', s.recvClientInfo machines (h.messages s.arch) =
      .ok (m', machines', [h.elfHash]) := by
  obtain ⟨tags, htags, -⟩ := hknows.tags
  obtain ⟨object, midrs, ⟨hostname, lscpu, procCpuinfo, sysPossible, hhost, hlscpu, hproc, hsys,
    hobject, hmidrs⟩, hloc⟩ := hknows.located
  rw [hknows.numCpus, hknows.nCore] at hloc
  exact ⟨_, _, (recvClientInfo_eq_ok_iff hdesc).mpr ⟨hostname, hhost, single_iff.mpr hknows.single,
    lscpu, hlscpu, procCpuinfo, hproc, sysPossible, hsys, tags.reverse,
    List.forall₂_reverse_iff.mpr htags, object, hobject, midrs, hmidrs, _, _, hloc, rfl⟩⟩

end HelloConfig

/-! ## The hash of the binary

The first client sets the hash, and every other one has to have the same. -/

theorem decodeUtf8_ne_nil {bs : Bytes} {t : Text} (hbs : bs ≠ []) (h : decodeUtf8 bs = some t) :
    t ≠ [] := by
  rintro rfl
  apply hbs
  obtain ⟨str, hstr, hnil⟩ := Option.map_eq_some_iff.mp h
  unfold String.fromUTF8? at hstr
  split at hstr
  case isFalse => cases hstr
  case isTrue hvalid =>
    cases hstr
    have hempty : String.fromUTF8 ⟨bs.toArray⟩ hvalid = "" := String.toList_eq_nil_iff.mp hnil
    have hbytes := congrArg String.toByteArray hempty
    have harr := congrArg ByteArray.data hbytes
    exact congrArg Array.toList harr

namespace HelloConfig

variable {s : HelloConfig}

theorem checkHash_bind_eq_ok_iff {α : Type} {a : α} {elfHash : Text} {msg : Bytes}
    {msgs : List Bytes} {f : Text × List Bytes → Except HelloError α} :
    (checkHash elfHash (msg :: msgs) >>= f) = .ok a ↔
      ∃ hash, decodeUtf8 msg = some hash ∧ (elfHash = [] ∨ elfHash = hash) ∧
        f (hash, msgs) = .ok a := by
  unfold checkHash
  simp only [bind_assoc, recvStr_bind_eq_ok_iff]
  refine exists_congr fun hash => and_congr_right fun _ => ?_
  by_cases hnil : elfHash = []
  · rw [if_pos hnil]
    exact ⟨fun h => ⟨Or.inl hnil, h⟩, fun h => h.2⟩
  · by_cases heq : elfHash = hash
    · rw [if_neg hnil, if_neg (not_not.mpr heq), heq]
      exact ⟨fun h => ⟨Or.inr rfl, h⟩, fun h => h.2⟩
    · rw [if_neg hnil, if_pos heq]
      constructor
      · intro h
        cases h
      · rintro ⟨h | h, -⟩
        · exact absurd h hnil
        · exact absurd h heq

/-- What a server that accepted a client has of it. -/
structure Accepts (s : HelloConfig) (st : HelloState) (h : Hello) (st' : HelloState) : Prop where
  client : ∃ m, s.Knows h m ∧ st'.clients = st.clients ++ [m]
  describes : s.Describes st'.machines
  machine : ∃ object midrs, s.Machine h object midrs ∧
    st'.machines = (s.writeMidrs st.machines object midrs).2
  elfHash : decodeUtf8 h.elfHash = some st'.elfHash
  same : st.elfHash = [] ∨ st.elfHash = st'.elfHash

theorem accepts_of_accept {st st' : HelloState} {h : Hello} (hdesc : s.Describes st.machines)
    (hacc : s.accept st h = .ok st') : s.Accepts st h st' := by
  unfold accept at hacc
  obtain ⟨⟨m, machines, rest⟩, hrecv, hrest⟩ := Fallible.bind_eq_ok_iff.mp hacc
  obtain ⟨rfl, hknows, hdesc', hmachine⟩ := knows_of_recvClientInfo hdesc hrecv
  obtain ⟨hash, hhash, hor, hpure⟩ := checkHash_bind_eq_ok_iff.mp hrest
  cases hpure
  exact ⟨⟨m, hknows, rfl⟩, hdesc', hmachine, hhash, hor⟩

theorem exists_accept {st : HelloState} {h : Hello} {m : ConnectedClient} {hash : Text}
    (hdesc : s.Describes st.machines) (hknows : s.Knows h m)
    (hhash : decodeUtf8 h.elfHash = some hash) (hor : st.elfHash = [] ∨ st.elfHash = hash) :
    ∃ st', s.accept st h = .ok st' ∧ st'.elfHash = hash := by
  obtain ⟨m', machines', hrecv⟩ := exists_recvClientInfo hdesc hknows
  exact ⟨⟨machines', hash, st.clients ++ [m']⟩, Fallible.bind_eq_ok_iff.mpr
    ⟨_, hrecv, checkHash_bind_eq_ok_iff.mpr ⟨hash, hhash, hor, rfl⟩⟩, rfl⟩

/-! ### One after the other -/

/-- A machine has one object and one list of MIDRs. -/
theorem Machine.unique {h : Hello} {object object' : CpuObject} {midrs midrs' : List Int}
    (hm : s.Machine h object midrs) (hm' : s.Machine h object' midrs') :
    object = object' ∧ midrs = midrs' := by
  obtain ⟨t, lscpu, procCpuinfo, sysPossible, ht, hlscpu, hproc, hsys, hobject, hmidrs⟩ := hm
  obtain ⟨t', lscpu', procCpuinfo', sysPossible', ht', hlscpu', hproc', hsys', hobject', hmidrs'⟩ :=
    hm'
  cases ht.symm.trans ht'
  cases hlscpu.symm.trans hlscpu'
  cases hproc.symm.trans hproc'
  cases hsys.symm.trans hsys'
  exact ⟨Option.some.inj (hobject.symm.trans hobject'), Option.some.inj (hmidrs.symm.trans hmidrs')⟩

/-- An object of the table is what the last client on a machine with it made of it, or what it
was. -/
structure Left (s : HelloConfig) (arrivals : List Hello) (machines machines' : MachineInfo)
    (i : Nat) : Prop where
  last : ∀ midrs, s.LastOn arrivals i midrs →
    machines' i = (s.tables.machines i).setMidrs (fromkeys midrs)
  cases : (∃ midrs, s.LastOn arrivals i midrs) ∨
    ((∀ h ∈ arrivals, ∀ midrs, ¬s.Machine h (.hardcoded i) midrs) ∧ machines' i = machines i)

theorem left_nil (machines : MachineInfo) (i : Nat) : s.Left [] machines machines i where
  last := by
    rintro midrs ⟨before, h, behind, heq, -⟩
    exact absurd heq.symm (List.append_ne_nil_of_right_ne_nil before (List.cons_ne_nil h behind))
  cases := .inr ⟨fun h hh => absurd hh List.not_mem_nil, rfl⟩

/-- One more client in front. -/
theorem Left.cons {h : Hello} {object : CpuObject} {midrs : List Int} {arrivals : List Hello}
    {machines machines' : MachineInfo} {i : Nat} (hm : s.Machine h object midrs)
    (hleft : s.Left arrivals (s.writeMidrs machines object midrs).2 machines' i) :
    s.Left (h :: arrivals) machines machines' i := by
  have hwrite : object = .hardcoded i → (s.writeMidrs machines object midrs).2 i =
      (s.tables.machines i).setMidrs (fromkeys midrs) := by
    rintro rfl
    exact Function.update_self _ _ _
  have hkeep : object ≠ .hardcoded i → (s.writeMidrs machines object midrs).2 i = machines i := by
    intro hne
    cases object with
    | hardcoded j =>
        exact Function.update_of_ne (fun heq => hne (congrArg CpuObject.hardcoded heq.symm)) _ _
    | made cpu => rfl
  constructor
  case last =>
    rintro midrs' ⟨before, h', behind, heq, hm', hbehind⟩
    -- the last client on an entry of the table is this one, or it comes later
    cases before with
    | nil =>
        obtain ⟨rfl, rfl⟩ := List.cons.inj heq
        obtain ⟨rfl, rfl⟩ := hm.unique hm'
        rcases hleft.cases with ⟨midrs'', before, h'', behind, rfl, hm'', -⟩ | ⟨-, hsame⟩
        · exact absurd hm'' (hbehind h'' (List.mem_append_right _ List.mem_cons_self) midrs'')
        · exact hsame.trans (hwrite rfl)
    | cons _ before =>
        obtain ⟨-, rfl⟩ := List.cons.inj heq
        exact hleft.last midrs' ⟨before, h', behind, rfl, hm', hbehind⟩
  case cases =>
    rcases hleft.cases with ⟨midrs', before, h', behind, rfl, hm', hbehind⟩ | ⟨hnone, hsame⟩
    · exact .inl ⟨midrs', h :: before, h', behind, rfl, hm', hbehind⟩
    · -- nobody comes later: this one has written to the entry, or nobody has
      by_cases hobject : object = .hardcoded i
      · exact .inl ⟨midrs, [], h, arrivals, rfl, hobject ▸ hm, hnone⟩
      · refine .inr ⟨List.forall_mem_cons.mpr ⟨fun midrs' hm' => hobject (hm.unique hm').1, hnone⟩,
          hsame.trans (hkeep hobject)⟩

theorem accepts_of_foldlM {arrivals : List Hello} {st st' : HelloState}
    (hdesc : s.Describes st.machines) (hacc : arrivals.foldlM s.accept st = .ok st') :
    (∃ ms, List.Forall₂ s.Knows arrivals ms ∧ st'.clients = st.clients ++ ms) ∧
      (∀ h ∈ arrivals, decodeUtf8 h.elfHash = some st'.elfHash) ∧
        (st.elfHash = [] ∨ st.elfHash = st'.elfHash) ∧
          ∀ i, s.Left arrivals st.machines st'.machines i := by
  induction arrivals generalizing st with
  | nil =>
      cases hacc
      exact ⟨⟨[], List.Forall₂.nil, (List.append_nil _).symm⟩,
        fun _ hmem => absurd hmem List.not_mem_nil, Or.inr rfl, left_nil _⟩
  | cons h arrivals ih =>
      rw [List.foldlM_cons, Fallible.bind_eq_ok_iff] at hacc
      obtain ⟨st₁, hfirst, hrest⟩ := hacc
      have hone := accepts_of_accept hdesc hfirst
      obtain ⟨m, hknows, hclients⟩ := hone.client
      obtain ⟨object, midrs, hm, hmachines⟩ := hone.machine
      obtain ⟨⟨ms, hms, hclients'⟩, hall, hkept, hleft⟩ := ih hone.describes hrest
      -- a hash was sent, so it is the one that is kept
      have heq : st₁.elfHash = st'.elfHash :=
        hkept.resolve_left (decodeUtf8_ne_nil h.elfHash_ne_nil hone.elfHash)
      refine ⟨⟨m :: ms, List.Forall₂.cons hknows hms, ?_⟩,
        List.forall_mem_cons.mpr ⟨heq ▸ hone.elfHash, hall⟩, heq ▸ hone.same, fun i => ?_⟩
      · rw [hclients', hclients, List.append_assoc]
        rfl
      · have hi := hleft i
        rw [hmachines] at hi
        exact hi.cons hm

theorem exists_foldlM {arrivals : List Hello} {hash : Text} {st : HelloState}
    (hdesc : s.Describes st.machines) (hknows : ∀ h ∈ arrivals, ∃ m, s.Knows h m)
    (hhash : ∀ h ∈ arrivals, decodeUtf8 h.elfHash = some hash)
    (hor : st.elfHash = [] ∨ st.elfHash = hash) :
    ∃ st', arrivals.foldlM s.accept st = .ok st' := by
  induction arrivals generalizing st with
  | nil => exact ⟨st, rfl⟩
  | cons h arrivals ih =>
      rw [List.forall_mem_cons] at hknows hhash
      obtain ⟨m, hm⟩ := hknows.1
      obtain ⟨st₁, hfirst, hsame⟩ := exists_accept hdesc hm hhash.1 hor
      obtain ⟨st', hrest⟩ := ih (accepts_of_accept hdesc hfirst).describes hknows.2 hhash.2
        (.inr hsame)
      exact ⟨st', by rw [List.foldlM_cons, hfirst]; exact hrest⟩

variable {arrivals : List Hello}

theorem describes_tables (s : HelloConfig) : s.Describes s.tables.machines := fun _ => rfl

theorem exists_acceptAll (hknows : ∀ h ∈ arrivals, ∃ m, s.Knows h m) {hash : Text}
    (hhash : ∀ h ∈ arrivals, decodeUtf8 h.elfHash = some hash) :
    ∃ st, s.acceptAll arrivals = .ok st :=
  exists_foldlM s.describes_tables hknows hhash (.inl rfl)

theorem knows_of_acceptAll {st : HelloState} (hacc : s.acceptAll arrivals = .ok st) :
    List.Forall₂ s.Knows arrivals st.clients ∧
      ∀ h ∈ arrivals, decodeUtf8 h.elfHash = some st.elfHash := by
  obtain ⟨⟨ms, hms, hclients⟩, hall, -⟩ := accepts_of_foldlM s.describes_tables hacc
  rw [List.nil_append] at hclients
  rw [hclients]
  exact ⟨hms, hall⟩

/-- The `cpu` of a client carries the MIDRs that its machine has in the end. -/
theorem cpu_of_acceptAll {st : HelloState} (hacc : s.acceptAll arrivals = .ok st) {h : Hello}
    {m : ConnectedClient} (hh : h ∈ arrivals) (hknows : s.Knows h m) {object : CpuObject}
    {midrs : List Int} (hm : s.Machine h object midrs) :
    (∃ midrs', s.Final arrivals object midrs midrs') ∧
    ∀ midrs', s.Final arrivals object midrs midrs' →
      st.cpu m = (object.read s.tables.machines).setMidrs (fromkeys midrs') := by
  obtain ⟨object', midrs'', hm', hloc⟩ := hknows.located
  obtain ⟨rfl, rfl⟩ := hm.unique hm'
  have hleft := (accepts_of_foldlM s.describes_tables hacc).2.2.2
  unfold HelloState.cpu
  rw [hloc.cpu]
  cases object with
  | hardcoded i =>
      refine ⟨?_, (hleft i).last⟩
      rcases (hleft i).cases with hlast | ⟨hnone, -⟩
      · exact hlast
      · exact absurd hm (hnone h hh midrs)
  | made info =>
      refine ⟨⟨midrs, rfl⟩, ?_⟩
      rintro midrs' rfl
      rfl

/-- Any number of clients connects: the server takes them all if and only if it understands each of
them and all run one binary, and then it knows every one of them; the MIDRs that it has of a machine
of its table are those of the last client on a machine that shares the object. -/
structure AcceptsAll (s : HelloConfig) (arrivals : List Hello) : Prop where
  accepted_iff : (∃ st, s.acceptAll arrivals = .ok st) ↔
    (∀ h ∈ arrivals, ∃ m, s.Knows h m) ∧
      ∃ hash, ∀ h ∈ arrivals, decodeUtf8 h.elfHash = some hash
  knows : ∀ st, s.acceptAll arrivals = .ok st → List.Forall₂ s.Knows arrivals st.clients ∧
    ∀ h ∈ arrivals, decodeUtf8 h.elfHash = some st.elfHash
  midrs : ∀ st, s.acceptAll arrivals = .ok st → List.Forall₂ (fun h m => ∃ object midrs midrs',
    s.Machine h object midrs ∧ s.Final arrivals object midrs midrs' ∧
      st.cpu m = (object.read s.tables.machines).setMidrs (fromkeys midrs')) arrivals st.clients

/-- The server accepts exactly the clients that it understands. -/
theorem acceptsAll (s : HelloConfig) (arrivals : List Hello) : s.AcceptsAll arrivals where
  accepted_iff := by
    constructor
    · rintro ⟨st, hacc⟩
      obtain ⟨hknows, hhash⟩ := knows_of_acceptAll hacc
      refine ⟨fun h hmem => ?_, st.elfHash, hhash⟩
      obtain ⟨m, -, hm⟩ := Fallible.exists_of_mem_left hknows hmem
      exact ⟨m, hm⟩
    · rintro ⟨hknows, hash, hhash⟩
      exact exists_acceptAll hknows hhash
  knows _ := knows_of_acceptAll
  midrs st hacc := by
    have hknows := (knows_of_acceptAll hacc).1
    rw [List.forall₂_iff_zip] at hknows ⊢
    refine ⟨hknows.1, fun {h m} hzip => ?_⟩
    have hm := hknows.2 hzip
    obtain ⟨object, midrs, hmachine, -⟩ := hm.located
    obtain ⟨⟨midrs', hfinal⟩, hcpu⟩ := cpu_of_acceptAll hacc (List.of_mem_zip hzip).1 hm hmachine
    exact ⟨object, midrs, midrs', hmachine, hfinal, hcpu midrs' hfinal⟩

end HelloConfig

end RISCover
