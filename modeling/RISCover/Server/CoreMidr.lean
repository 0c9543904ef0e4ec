import RISCover.Server.Hello

/-!
# The register of a core

On a machine one client runs on every core. The server does not look a core up by its number: it
has the different MIDRs of the machine and the types of core that lscpu lists, and takes the one for
the other in this order. `ownMidr_iff` says when every client has the MIDR of its core, after all
clients have connected.
-/

open Bytes Text

namespace RISCover

/-! ## A machine

All clients of one machine say the same, but for the core. -/

/-- A client on one of the cores. -/
def Hello.onCore (h : Hello) (core : Nat) : Hello := { h with core := UInt32.ofNat core }

/-- One client on every core, as `main` starts them. -/
def Hello.onAllCores (h : Hello) : List Hello := (List.range h.numCpus.toNat).map h.onCore

/-! ### An emulated machine -/

/-- A server for riscv64 that knows no machine beforehand. -/
def HelloConfig.freshServer : HelloConfig where
  arch := .riscv64
  singleClient := false
  tables :=
    ⟨Dict.empty, Dict.empty, fun _ => ⟨none, none, []⟩, Dict.empty, fun _ => none, fun _ => 0⟩

/-- What is sent of a text. -/
def encodeUtf8 (t : String) : Bytes := t.toByteArray.data.toList

theorem decodeUtf8_encodeUtf8 (t : String) : decodeUtf8 (encodeUtf8 t) = some t.toList := by
  unfold decodeUtf8 encodeUtf8 String.fromUTF8?
  rw [dif_pos t.isValidUTF8]
  rfl

/-- An emulated machine with two cores. -/
def Hello.emulated : Hello where
  hostname := encodeUtf8 "qemu-v8.1"
  numCpus := 2
  core := 0
  lscpu := []
  procCpuinfo := []
  sysPossible := []
  vecSize := 16
  sveMaxSize := 0
  smeMaxSize := 0
  globalTagList := [(encodeUtf8 "flags", encodeUtf8 "vector")]
  elfHash := encodeUtf8 "0123"
  globalTagList_lt := Nat.lt_of_sub_eq_succ rfl
  elfHash_ne_nil := List.cons_ne_nil _ _

/-- What stands for the machine. -/
def Hello.emulatedObject : CpuObject := .made (qemuConfig .riscv64 "qemu-v8.1".toList 2)

namespace HelloConfig

/-- The clients of the machine in the order in which they connect. -/
def emulatedArrivals : List Hello := [Hello.emulated.onCore 1, Hello.emulated.onCore 0]

theorem machine_emulated :
    freshServer.Machine Hello.emulated Hello.emulatedObject (List.replicate 2 0x7F8F0001) := by
  have hempty : decodeUtf8 [] = some [] := decodeUtf8_encodeUtf8 ""
  refine ⟨_, [], [], [], decodeUtf8_encodeUtf8 _, hempty, hempty, hempty, rfl, ?_⟩
  decide

theorem knows_emulated {core : Nat} (hcore : core < 2) :
    ∃ m, freshServer.Knows (Hello.emulated.onCore core) m := by
  have hnCore : (UInt32.ofNat core).toNat = core :=
    UInt32.toNat_ofNat_of_lt' (hcore.trans (by decide))
  -- the two cores are of one type, so both are in the first one
  have hplace : [0, 0][core]? = some 0 := List.getElem?_replicate_of_lt hcore
  refine ⟨⟨"qemu-v8.1".toList, 2, core, some 16, Dict.empty,
    Dict.empty.set "flags".toList "vector".toList,
    .made ((qemuConfig .riscv64 "qemu-v8.1".toList 2).setMidrs [0x7F8F0001]), 0⟩, ?_⟩
  constructor
  case hostname => exact ⟨_, decodeUtf8_encodeUtf8 _, rfl⟩
  case numCpus => rfl
  case single =>
    intro h
    cases h
  case nCore => exact hnCore.symm
  case vecSize => rfl
  case other => exact fun _ => rfl
  case tags =>
    refine ⟨[("flags".toList, "vector".toList)], List.Forall₂.cons
      ⟨decodeUtf8_encodeUtf8 _, decodeUtf8_encodeUtf8 _⟩ List.Forall₂.nil,
      get?_tags [("flags".toList, "vector".toList)]⟩
  case located =>
    exact ⟨Hello.emulatedObject, List.replicate 2 0x7F8F0001, machine_emulated, rfl, rfl, hplace,
      Or.inr rfl⟩

theorem forall_emulatedArrivals {P : Hello → Prop}
    (h : ∀ core < 2, P (Hello.emulated.onCore core)) : ∀ c ∈ emulatedArrivals, P c := by
  refine List.forall_mem_cons.mpr ⟨h 1 (by omega), ?_⟩
  exact List.forall_mem_cons.mpr ⟨h 0 (by omega), fun _ h => absurd h List.not_mem_nil⟩

end HelloConfig

/-! ## The order of the cores

The cores are told apart by their types, in the order of lscpu, and the MIDRs of the machine by the
order in which they come up first. The two orders have to agree. -/

/-- The MIDRs core by core, as lscpu counts the cores of every type. -/
def Lscpu.CPUInfo.midrsByCore (cpu : Lscpu.CPUInfo) (midrs : List Int) : List Int :=
  (List.zipWith (fun micro midr => List.replicate micro.getNumLogicalCores midr)
    cpu.microarchitectures midrs).flatten

theorem map_zipIdx_midrs (micros : List Lscpu.Microarchitecture) (midrs : List Int) (k : Nat)
    (h : micros.length + k = midrs.length) :
    ((micros.zipIdx k).flatMap fun p => List.replicate p.1.getNumLogicalCores p.2).map
        (fun place => midrs[place]?) =
      (List.zipWith (fun micro midr => List.replicate micro.getNumLogicalCores midr) micros
        (midrs.drop k)).flatten.map some := by
  induction micros generalizing k with
  | nil => rfl
  | cons micro micros ih =>
      rw [List.length_cons] at h
      have hk : k < midrs.length := by omega
      rw [List.drop_eq_getElem_cons hk, List.zipIdx_cons, List.flatMap_cons, List.zipWith_cons_cons,
        List.flatten_cons, List.map_append, List.map_append, ih (k + 1) (by omega),
        List.map_replicate, List.map_replicate, List.getElem?_eq_getElem hk]

/-- The MIDR of the type that a core is taken for. -/
theorem map_midr_byCores {cpu : Lscpu.CPUInfo} {midrs : List Int}
    (h : cpu.microarchitectures.length = midrs.length) :
    (byCores cpu.microarchitectures).map (fun place => midrs[place]?) =
      (cpu.midrsByCore midrs).map some :=
  map_zipIdx_midrs cpu.microarchitectures midrs 0 h

theorem midr_setMidrs {cpu : Lscpu.CPUInfo} {midrs : List Int}
    (h : cpu.microarchitectures.length = midrs.length) (place : Nat) :
    (cpu.setMidrs midrs).microarchitectures[place]?.bind Lscpu.Microarchitecture.midr =
      midrs[place]? := by
  rw [Lscpu.CPUInfo.setMidrs, List.getElem?_zipWith]
  by_cases hplace : place < midrs.length
  · rw [List.getElem?_eq_getElem hplace, List.getElem?_eq_getElem (h ▸ hplace)]
    rfl
  · rw [List.getElem?_eq_none (Nat.le_of_not_lt hplace)]
    cases cpu.microarchitectures[place]? <;> rfl

theorem exists_mem_zip {α β : Type} {l : List α} {bs : List β} (hlen : l.length = bs.length)
    {a : α} (ha : a ∈ l) : ∃ b, (a, b) ∈ l.zip bs := by
  obtain ⟨i, hi, rfl⟩ := List.mem_iff_getElem.mp ha
  refine ⟨bs[i], List.mem_iff_getElem.mpr ⟨i, ?_, List.getElem_zip⟩⟩
  rw [List.length_zip, ← hlen, Nat.min_self]
  exact hi

theorem forall_getElem?_iff {α : Type} {l l' : List α} {n : Nat} :
    (∀ i < n, l[i]? = l'[i]?) ↔ l.take n = l'.take n := by
  rw [List.ext_getElem?_iff]
  refine forall_congr' fun i => ?_
  rw [List.getElem?_take, List.getElem?_take]
  by_cases hi : i < n
  · rw [if_pos hi, if_pos hi]
    exact ⟨fun h => h hi, fun h _ => h⟩
  · rw [if_neg hi, if_neg hi]
    exact ⟨fun _ => rfl, fun _ h => absurd h hi⟩

namespace HelloConfig

variable {s : HelloConfig} {arrivals : List Hello}

/-- A machine that shares an object has as many MIDRs. -/
theorem length_of_final {st : HelloState} (hacc : s.acceptAll arrivals = .ok st)
    {object : CpuObject} {midrs midrs' : List Int} (hfinal : s.Final arrivals object midrs midrs')
    (htypes : (object.read s.tables.machines).microarchitectures.length =
      (fromkeys midrs).length) :
    (object.read s.tables.machines).microarchitectures.length = (fromkeys midrs').length := by
  cases object with
  | hardcoded i =>
      obtain ⟨before, h, behind, rfl, hm, -⟩ := hfinal
      obtain ⟨m, -, hknows⟩ := Fallible.exists_of_mem_left (knows_of_acceptAll hacc).1
        (List.mem_append_right before List.mem_cons_self)
      obtain ⟨object', midrs'', hm', hloc⟩ := hknows.located
      obtain ⟨rfl, rfl⟩ := hm.unique hm'
      exact hloc.types
  | made info =>
      obtain rfl : midrs' = midrs := hfinal
      exact htypes

/-- A client has the register that stands at its core in the order of lscpu. -/
theorem midr_of_acceptAll {st : HelloState} (hacc : s.acceptAll arrivals = .ok st) {h : Hello}
    {object : CpuObject} {midrs midrs' : List Int} (hm : s.Machine h object midrs)
    (hfinal : s.Final arrivals object midrs midrs') {core : Nat} {m : ConnectedClient}
    (hmem : h.onCore core ∈ arrivals) (hknows : s.Knows (h.onCore core) m) :
    st.midr m = ((object.read s.tables.machines).midrsByCore (fromkeys midrs'))[m.nCore]? := by
  obtain ⟨object', midrs'', hm', hloc⟩ := hknows.located
  obtain ⟨rfl, rfl⟩ := Machine.unique (h := h) hm hm'
  have htypes := length_of_final hacc hfinal hloc.types
  rw [HelloState.midr, (cpu_of_acceptAll hacc hmem hknows hm').2 midrs' hfinal,
    midr_setMidrs htypes]
  have hcore := congrArg (fun l => l[m.nCore]?) (map_midr_byCores htypes)
  simp only [List.getElem?_map, hloc.core, Option.map_some] at hcore
  cases hentry : ((object.read s.tables.machines).midrsByCore (fromkeys midrs'))[m.nCore]? with
  | none =>
      rw [hentry] at hcore
      cases hcore
  | some midr =>
      rw [hentry] at hcore
      exact Option.some.inj hcore

/-- Every client has the register of its own core in the end if and only if the cores stand in the
order of lscpu: first all of the first type, then all of the next one. Where machines share an
object of the table, the registers that the last of them brought have to stand so. -/
theorem ownMidr_iff {st : HelloState} {h : Hello} {object : CpuObject} {midrs midrs' : List Int}
    (hacc : s.acceptAll arrivals = .ok st) (hall : ∀ c ∈ h.onAllCores, c ∈ arrivals)
    (hm : s.Machine h object midrs) (hfinal : s.Final arrivals object midrs midrs') :
    (∀ c m, (c, m) ∈ arrivals.zip st.clients → c ∈ h.onAllCores →
      st.midr m = midrs[m.nCore]?) ↔
    ((object.read s.tables.machines).midrsByCore (fromkeys midrs')).take h.numCpus.toNat =
      midrs.take h.numCpus.toNat := by
  have hknows := (knows_of_acceptAll hacc).1
  have hmem : ∀ c m, (c, m) ∈ arrivals.zip st.clients → s.Knows c m := by
    intro c m hcm
    exact (List.forall₂_iff_zip.mp hknows).2 hcm
  have hnCore : ∀ core m, core < h.numCpus.toNat → s.Knows (h.onCore core) m → m.nCore = core := by
    intro core m hcore hm
    rw [hm.nCore]
    exact UInt32.toNat_ofNat_of_lt' (hcore.trans h.numCpus.toNat_lt)
  -- a client of the machine says no more than its core, and every core has one
  have hcores : (∀ c m, (c, m) ∈ arrivals.zip st.clients → c ∈ h.onAllCores →
      st.midr m = midrs[m.nCore]?) ↔
      ∀ core < h.numCpus.toNat,
        ((object.read s.tables.machines).midrsByCore (fromkeys midrs'))[core]? = midrs[core]? := by
    constructor
    · intro hown core hcore
      have hclient : h.onCore core ∈ h.onAllCores :=
        List.mem_map_of_mem (List.mem_range.mpr hcore)
      obtain ⟨m, hcm⟩ := exists_mem_zip hknows.length_eq (hall _ hclient)
      have hc := hmem _ m hcm
      have hmidr := hown _ m hcm hclient
      rw [midr_of_acceptAll hacc hm hfinal (hall _ hclient) hc, hnCore core m hcore hc] at hmidr
      exact hmidr
    · intro hcores c m hcm hc
      have harrived := hall c hc
      obtain ⟨core, hcore, rfl⟩ := List.mem_map.mp hc
      have hc := hmem _ m hcm
      rw [midr_of_acceptAll hacc hm hfinal harrived hc, hnCore core m (List.mem_range.mp hcore) hc]
      exact hcores core (List.mem_range.mp hcore)
  rw [hcores]
  exact forall_getElem?_iff

theorem ownMidr_iff_emulated : ∃ st, freshServer.acceptAll emulatedArrivals = .ok st ∧
    ((∀ c m, (c, m) ∈ emulatedArrivals.zip st.clients → c ∈ Hello.emulated.onAllCores →
      st.midr m = (List.replicate 2 0x7F8F0001)[m.nCore]?) ↔
    ((qemuConfig .riscv64 "qemu-v8.1".toList 2).midrsByCore
      (fromkeys (List.replicate 2 0x7F8F0001))).take 2 =
      (List.replicate 2 (0x7F8F0001 : Int)).take 2) := by
  obtain ⟨st, hacc⟩ := exists_acceptAll (forall_emulatedArrivals fun _ => knows_emulated)
    (forall_emulatedArrivals fun _ _ => decodeUtf8_encodeUtf8 "0123")
  refine ⟨st, hacc, ownMidr_iff hacc ?_ machine_emulated rfl⟩
  have hperm : emulatedArrivals.Perm Hello.emulated.onAllCores := List.Perm.swap _ _ _
  exact fun c hc => hperm.symm.subset hc

end HelloConfig

end RISCover
