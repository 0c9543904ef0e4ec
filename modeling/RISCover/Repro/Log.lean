import RISCover.Result.Pack
import RISCover.Repro.Load

/-!
# The client logs a reproducer

`log_input`, `log_result` and `log_repro` as the lines they write. Texts that come from outside of
the modelled code (host names, properties, disassembly, names of processors) are texts without a
line break. Everything in front of the input is a comment: `print_result_diff` and
`print_result_opt` start each of their lines with the prefix they are given.
-/

open Text Bytes

namespace RISCover

/-- A text without a line break. -/
def OneLine := { t : Text // '\n' ∉ t }

instance : Coe OneLine Text := ⟨Subtype.val⟩

/-- `cpu_info`, as far as it is logged. -/
structure LoggedCpu where
  processor : UInt32
  midr : UInt32
  implementer : UInt32
  part : UInt32
  variant : UInt32
  revision : UInt32

/-- `struct result`, with the member that only the texts show. -/
structure LoggedResult (c : Config) extends CResult c where
  instrIdx : UInt32

/-- What the client finds out about itself and its surroundings. A property that is not set is
empty; `disasmOpcodes` fails where `disasm_opcodes` returns no text. -/
structure LogEnv (c : Config) where
  hostname : OneLine
  numCpus : Nat
  vecSize : Nat
  androidProduct : OneLine
  androidModel : OneLine
  androidSerialno : OneLine
  midrToVendor : UInt32 → Option OneLine
  midrToMicroarch : UInt32 → Option OneLine
  disasmOpcodes : UInt32 → Option OneLine
  gitCommit : OneLine
  /-- The lines of `print_result_diff`, without their prefix. -/
  printResultDiff : LoggedResult c → LoggedResult c → List OneLine
  /-- The lines of `print_result_opt`, without their prefix. -/
  printResultOpt : Regs c.toRegConfig → LoggedResult c → List OneLine

variable {c : Config}

/-! ## Bytes

Bytes are printed in the order of the memory, and those of a vector register from the last one on,
as a number is. -/

/-- `fprint_hex`: in the order of the memory. -/
def fprintHex (bytes : Bytes) : Text := "0x".toList ++ bytes.flatMap fun b => hexPad 2 b.toNat

/-- `fprint_vec`: the last byte first. -/
def fprintVec (bytes : Bytes) : Text :=
  "0x".toList ++ bytes.reverse.flatMap fun b => hexPad 2 b.toNat

/-- The digits of a vector register spell its number. -/
theorem fprintVec_digits (bytes : Bytes) :
    ofHex (bytes.reverse.flatMap fun b => hexPad 2 b.toNat) = ofLeBytes bytes := by
  induction bytes with
  | nil => rfl
  | cons x bytes ih =>
      have hlen : (hexPad 2 x.toNat).length = 2 := length_hexPad (by decide) x.toNat_lt
      rw [List.reverse_cons, List.flatMap_append, List.flatMap_singleton, ofHex_append, hlen, ih,
        ofHex_hexPad, ofLeBytes, Nat.add_comm]
      rfl

theorem length_flatMap_hexPad (bytes : Bytes) :
    (bytes.flatMap fun b => hexPad 2 b.toNat).length = 2 * bytes.length := by
  induction bytes with
  | nil => rfl
  | cons x bytes ih =>
      rw [List.flatMap_cons, List.length_append, length_hexPad (by decide) x.toNat_lt, ih,
        List.length_cons]
      omega

theorem isHex_flatMap_hexPad (bytes : Bytes) :
    ∀ ch ∈ bytes.flatMap fun b => hexPad 2 b.toNat, isHex ch = true := by
  intro ch hch
  obtain ⟨x, -, hx⟩ := List.mem_flatMap.mp hch
  exact isHex_hexPad _ _ ch hx

/-- A register's value: a number, or the bytes of a vector register. -/
def regText {k : RegClass} (v : RegVal k) : Text :=
  match k with
  | .vec => fprintVec v.bytes
  | _ => "0x".toList ++ hex v.toNat

/-! ## The input

The section that the client reads back. The words of a mapping are written one behind the other, so
bytes behind the last whole word are lost. -/

/-- The lines of `LOOP_OVER_GP`, `LOOP_OVER_FP` and `LOOP_OVER_VECTOR_REGS`. -/
def logRegs (k : RegClass) (regs : Regs c.toRegConfig) : List Text :=
  (List.finRange (c.count k)).map fun i =>
    let r : Reg c.toRegConfig := ⟨k, i⟩
    "      ".toList ++ r.name.toList ++ ": ".toList ++ regText (r.val regs)

/-- A mapping of whole words. -/
structure Mapping.Whole (m : Mapping) : Prop where
  length_val : m.val.length = m.n.toNat
  dvd : m.n.toNat % 8 = 0

/-- The words of a mapping, sixteen digits each. -/
def logWords (m : Mapping) : Text :=
  (List.range (m.n.toNat / 8)).flatMap fun j => hexPad 16 (ofLeBytes (slice m.val (j * 8) 8))

def logMapping (m : Mapping) : List Text :=
  ["- start: 0x".toList ++ hex m.start.toNat,
    "  n: 0x".toList ++ hex m.n.toNat,
    "  prot: 0x".toList ++ hex m.prot.toNat,
    "  val: \"".toList ++ logWords m ++ "\"".toList]

def logMappings (mappings : List Mapping) : List Text :=
  if mappings ≠ [] then "mappings:".toList :: mappings.flatMap logMapping
  else ["mappings: []".toList]

/-- `log_input`; without a disassembly of every instruction its assertion fails. -/
def logInput (env : LogEnv c) (instrSeq : List UInt32) (regsBefore : Regs c.toRegConfig)
    (mappings : List Mapping) : Option (List Text) := do
  let dis ← instrSeq.mapM env.disasmOpcodes
  some (["input:".toList, "  instr_seq:".toList] ++
    instrSeq.map (fun instr => "  - 0x".toList ++ hexPad 8 instr.toNat) ++
    ["  dis_opcodes:".toList] ++
    dis.map (fun text => "  - '".toList ++ text.1 ++ "'".toList) ++
    ["  regs:".toList, "    gp:".toList] ++ logRegs .gp regsBefore ++
    (if c.FLOATS then "    fp:".toList :: logRegs .fp regsBefore else []) ++
    (if c.VECTOR then "    vec:".toList :: logRegs .vec regsBefore else []) ++
    logMappings mappings)

/-! ## A result

The section of the results, which the server reads and the client skips. -/

/-- `log_device_block`; the first line starts at the cursor. -/
def logDeviceBlock (env : LogEnv c) (cursor ind : Text) : List Text :=
  [cursor ++ "hostname: ".toList ++
      (if env.hostname.1 = [] then "unknown".toList else env.hostname),
    ind ++ "num_cpus: ".toList ++ dec env.numCpus] ++
  (if 0 < env.vecSize then [ind ++ "vec_size: ".toList ++ dec env.vecSize] else []) ++
  (if env.androidProduct.1 ≠ [] then
    [ind ++ "android_product: ".toList ++ env.androidProduct] else []) ++
  (if env.androidModel.1 ≠ [] then
    [ind ++ "android_model: ".toList ++ env.androidModel] else []) ++
  (if env.androidSerialno.1 ≠ [] then
    [ind ++ "android_serialno: ".toList ++ env.androidSerialno] else [])

def orUnknown (name : Option OneLine) : Text := (name.map Subtype.val).getD "unknown".toList

/-- `log_microarchitecture_block` for a single processor. -/
def logMicroarchitectureBlock (env : LogEnv c) (ind : Text) (cpu : LoggedCpu) : List Text :=
  let nested := ind ++ "  ".toList
  [ind ++ "  vendor: ".toList ++ orUnknown (env.midrToVendor cpu.midr),
    nested ++ "model_name: ".toList ++ orUnknown (env.midrToMicroarch cpu.midr),
    nested ++ "midr: 0x".toList ++ hex cpu.midr.toNat,
    nested ++ "implementer: 0x".toList ++ hex cpu.implementer.toNat,
    nested ++ "part: 0x".toList ++ hex cpu.part.toNat,
    nested ++ "variant: 0x".toList ++ hex cpu.variant.toNat,
    nested ++ "revision: 0x".toList ++ hex cpu.revision.toNat,
    nested ++ "flags: []".toList]

/-- `log_client_block_yaml`. -/
def logClientBlock (env : LogEnv c) (pref : Text) : Option LoggedCpu → List Text
  | none => []
  | some cpu =>
    let itemIndent := pref ++ "    ".toList
    [pref ++ "  clients:".toList] ++
      logDeviceBlock env (pref ++ "  - ".toList) itemIndent ++
      [itemIndent ++ "n_core: ".toList ++ dec cpu.processor.toNat,
        itemIndent ++ "microarchitecture:".toList] ++
      logMicroarchitectureBlock env itemIndent cpu

/-- The signal and what is known about it. -/
def logSignal (r : LoggedResult c) (pref : Text) : List Text :=
  [pref ++ "    signum: 0x".toList ++ hex (intBits r.signum)] ++
  if r.signum ≠ 0 then
    [pref ++ "    si_addr: 0x".toList ++ hex r.siAddrr.toNat,
      pref ++ "    si_pc: 0x".toList ++ hex r.siPc.toNat,
      pref ++ "    si_code: 0x".toList ++ hex (intBits r.siCode)] ++
    if r.instrIdx ≠ 0 then [pref ++ "    instr_idx: ".toList ++ dec r.instrIdx.toNat] else []
  else []

/-- The registers that changed. -/
def logRegsAfter (r : LoggedResult c) (regsBefore : Regs c.toRegConfig) (pref : Text) :
    List Text :=
  let diff := regsDiff regsBefore r.regsResult
  if diff = [] then [pref ++ "    regs_after: []".toList]
  else (pref ++ "    regs_after:".toList) :: diff.map fun reg =>
    pref ++ "      ".toList ++ reg.name.toList ++ ": ".toList ++
      regText (reg.val r.regsResult)

def logMemChange (pref : Text) (m : MemChange) : List Text :=
  [pref ++ "    - start: 0x".toList ++ hexPad 16 m.start.toNat,
    pref ++ "      n: 0x".toList ++ hex m.n.toNat,
    pref ++ "      val: ".toList ++ fprintHex (m.val.toList.take m.nCap)] ++
  (if CHECK_MEM_CUT_AT < m.n.toNat then
    [pref ++ "      cut_at: 0x".toList ++ hex CHECK_MEM_CUT_AT] else []) ++
  [pref ++ "      checksum: 0x".toList ++ hexPad 8 m.checksum.toNat]

/-- The `CHECK_MEM` section. -/
def logMemDiffs (r : LoggedResult c) (pref : Text) : List Text :=
  if r.memChanges = [] then [pref ++ "    mem_diffs: []".toList]
  else
    (if c.arch.CHECK_MEM_MAX_NUMBER_MEM_CHANGES ≤ r.memChanges.length then
      [pref ++ "    mem_diffs_capped_at: ".toList ++
        dec c.arch.CHECK_MEM_MAX_NUMBER_MEM_CHANGES] else []) ++
    (pref ++ "    mem_diffs:".toList) :: r.memChanges.flatMap (logMemChange pref)

/-- The `META` section. -/
def logMeta (r : LoggedResult c) (pref : Text) : List Text :=
  [pref ++ "    meta:".toList,
    pref ++ "      cycle: ".toList ++ dec r.counters.cycle.toNat,
    pref ++ "      instret: ".toList ++ dec r.counters.instret.toNat]

/-- `log_result`. -/
def logResult (env : LogEnv c) (r : LoggedResult c) (regsBefore : Regs c.toRegConfig)
    (pref : Text) (cpu : Option LoggedCpu) : List Text :=
  [pref ++ "- result:".toList] ++ logSignal r pref ++ logRegsAfter r regsBefore pref ++
    (if c.CHECK_MEM then logMemDiffs r pref else []) ++
    (if c.META then logMeta r pref else []) ++
    logClientBlock env pref cpu

/-! ## A reproducer

The comments come first, then the input and the results, and the flags of the build at the end. -/

/-- A result and the processor that it comes from. -/
structure ResultCpuPair (c : Config) where
  result : LoggedResult c
  cpu : Option LoggedCpu

/-- `fprint_pref` with the prefix of a comment. -/
def comment (t : Text) : Text := "# ".toList ++ t

/-- `build_vec_suffix`. -/
def vecSuffix (c : Config) : Text :=
  if c.VECTOR then " VEC=".toList ++ dec VEC_REG_SIZE else []

/-- The comment on the processor of a result. -/
def logCpuLine (env : LogEnv c) (cpu : LoggedCpu) : Text :=
  orUnknown (env.midrToVendor cpu.midr) ++ " ".toList ++
    orUnknown (env.midrToMicroarch cpu.midr) ++ " 0x".toList ++ hexPad 8 cpu.midr.toNat ++
    " (".toList ++ (if env.hostname.1 = [] then "unknown".toList else env.hostname) ++
    vecSuffix c ++ ")".toList

/-- The difference of the first two results. -/
def logDiffComments (env : LogEnv c) : List (ResultCpuPair c) → List Text
  | a :: b :: _ => comment "=== Diff ===".toList ::
      (env.printResultDiff a.result b.result).map fun l => comment l.1
  | _ => []

/-- The comments on one result. -/
def logResultComments (env : LogEnv c) (regsBefore : Regs c.toRegConfig) (i : Nat)
    (item : ResultCpuPair c) : List Text :=
  comment ("=== Result ".toList ++ dec i ++ " ===".toList) ::
    ((item.cpu.map fun cpu => comment (logCpuLine env cpu)).toList ++
      (env.printResultOpt regsBefore item.result).map fun l => comment l.1)

/-- The human-readable header. -/
def logHeader (env : LogEnv c) (items : List (ResultCpuPair c))
    (regsBefore : Regs c.toRegConfig) : List Text :=
  logDiffComments env items ++
    items.zipIdx.flatMap fun p => logResultComments env regsBefore p.2 p.1

def Flag.name : Flag → String
  | .VECTOR => "VECTOR"
  | .FLOATS => "FLOATS"
  | .CHECK_MEM => "CHECK_MEM"
  | .AUTO_MAP_MEM => "AUTO_MAP_MEM"
  | .AUTO_MAP_MEM_RW_PROT => "AUTO_MAP_MEM_RW_PROT"
  | .META => "META"

/-- The `flags` section; the test for an empty list leaves `AUTO_MAP_MEM_RW_PROT` out. -/
def logFlags (b : Build) : List Text :=
  if !b.VECTOR && !b.FLOATS && !b.CHECK_MEM && !b.AUTO_MAP_MEM && !b.META then
    ["flags: []".toList]
  else "flags:".toList ::
    (Flag.all.filter b.defines).map fun f => "- -D".toList ++ f.name.toList

def Arch.name : Arch → String
  | .riscv64 => "riscv64"
  | .aarch64 => "aarch64"

/-- `log_repro`, as lines. -/
def logReproLines (b : Build) (env : LogEnv b.toConfig) (items : List (ResultCpuPair b.toConfig))
    (instrSeq : List UInt32) (regsBefore : Regs b.toRegConfig) (mappings : List Mapping) :
    Option (List Text) := do
  let input ← logInput env instrSeq regsBefore mappings
  some (logHeader env items regsBefore ++ input ++
    ["results:".toList] ++
    items.flatMap (fun item => logResult env item.result regsBefore [] item.cpu) ++
    logFlags b ++
    ["arch: ".toList ++ b.arch.name.toList, "git_commit: ".toList ++ env.gitCommit])

/-- The text that `log_repro` writes. -/
def logRepro (b : Build) (env : LogEnv b.toConfig) (items : List (ResultCpuPair b.toConfig))
    (instrSeq : List UInt32) (regsBefore : Regs b.toRegConfig) (mappings : List Mapping) :
    Option Text :=
  (logReproLines b env items instrSeq regsBefore mappings).map unlines

/-- A client that knows nothing about itself. -/
def LogEnv.unknown (c : Config) : LogEnv c where
  hostname := ⟨[], by decide⟩
  numCpus := 1
  vecSize := 16
  androidProduct := ⟨[], by decide⟩
  androidModel := ⟨[], by decide⟩
  androidSerialno := ⟨[], by decide⟩
  midrToVendor := fun _ => none
  midrToMicroarch := fun _ => none
  disasmOpcodes := fun _ => some ⟨"nop".toList, by decide⟩
  gitCommit := ⟨"0".toList, by decide⟩
  printResultDiff := fun _ _ => []
  printResultOpt := fun _ _ => [⟨"OK (0)".toList, by decide⟩]

end RISCover
