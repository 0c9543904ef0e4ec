import RISCover.Repro.Log
import RISCover.Result.Dynamic

/-!
# The server reads a logged result

The lines of `log_result` are a block document. `Result.from_dict` of its value is compared with
what the server parses out of the packed result: the two agree only for results with a signal, a
changed register and memory changes that read the same in both directions.
-/

open Text Bytes Yaml

namespace RISCover

variable {c : Config}

/-! ## The document

The nodes whose lines `log_result` writes, entry by entry. -/

def signalEntries (r : LoggedResult c) : List (Text × Node) :=
  field "signum" ("0x".toList ++ hex (intBits r.signum)) ::
  if r.signum ≠ 0 then
    [field "si_addr" ("0x".toList ++ hex r.siAddrr.toNat),
      field "si_pc" ("0x".toList ++ hex r.siPc.toNat),
      field "si_code" ("0x".toList ++ hex (intBits r.siCode))] ++
    if r.instrIdx ≠ 0 then [field "instr_idx" (dec r.instrIdx.toNat)] else []
  else []

def regsAfterNode (r : LoggedResult c) (regsBefore : Regs c.toRegConfig) : Node :=
  let diff := regsDiff regsBefore r.regsResult
  if diff = [] then .seq []
  else .map (diff.map fun reg => (reg.name.toList, .scalar (regText (reg.val r.regsResult))))

def memChangeEntries (m : MemChange) : List (Text × Node) :=
  [field "start" ("0x".toList ++ hexPad 16 m.start.toNat),
    field "n" ("0x".toList ++ hex m.n.toNat),
    field "val" (fprintHex (m.val.toList.take m.nCap))] ++
  (if CHECK_MEM_CUT_AT < m.n.toNat then
    [field "cut_at" ("0x".toList ++ hex CHECK_MEM_CUT_AT)] else []) ++
  [field "checksum" ("0x".toList ++ hexPad 8 m.checksum.toNat)]

def memDiffsEntries (r : LoggedResult c) : List (Text × Node) :=
  (if c.arch.CHECK_MEM_MAX_NUMBER_MEM_CHANGES ≤ r.memChanges.length then
    [field "mem_diffs_capped_at" (dec c.arch.CHECK_MEM_MAX_NUMBER_MEM_CHANGES)] else []) ++
  [("mem_diffs".toList, .seq (r.memChanges.map fun m => .map (memChangeEntries m)))]

def metaEntries (r : LoggedResult c) : List (Text × Node) :=
  [("meta".toList, .map [field "cycle" (dec r.counters.cycle.toNat),
    field "instret" (dec r.counters.instret.toNat)])]

/-- The mapping below `result`. -/
def resultEntries (r : LoggedResult c) (regsBefore : Regs c.toRegConfig) : List (Text × Node) :=
  signalEntries r ++ [("regs_after".toList, regsAfterNode r regsBefore)] ++
    (if c.CHECK_MEM then memDiffsEntries r else []) ++ (if c.META then metaEntries r else [])

def deviceEntries (env : LogEnv c) : List (Text × Node) :=
  [field "hostname" (if env.hostname.1 = [] then "unknown".toList else env.hostname),
    field "num_cpus" (dec env.numCpus)] ++
  (if 0 < env.vecSize then [field "vec_size" (dec env.vecSize)] else []) ++
  (if env.androidProduct.1 ≠ [] then [field "android_product" env.androidProduct] else []) ++
  (if env.androidModel.1 ≠ [] then [field "android_model" env.androidModel] else []) ++
  (if env.androidSerialno.1 ≠ [] then [field "android_serialno" env.androidSerialno] else [])

def microarchitectureEntries (env : LogEnv c) (cpu : LoggedCpu) : List (Text × Node) :=
  [field "vendor" (orUnknown (env.midrToVendor cpu.midr)),
    field "model_name" (orUnknown (env.midrToMicroarch cpu.midr)),
    field "midr" ("0x".toList ++ hex cpu.midr.toNat),
    field "implementer" ("0x".toList ++ hex cpu.implementer.toNat),
    field "part" ("0x".toList ++ hex cpu.part.toNat),
    field "variant" ("0x".toList ++ hex cpu.variant.toNat),
    field "revision" ("0x".toList ++ hex cpu.revision.toNat),
    ("flags".toList, .seq [])]

/-- The client block, next to the result. -/
def clientsEntries (env : LogEnv c) : Option LoggedCpu → List (Text × Node)
  | none => []
  | some cpu => [("clients".toList, .seq [.map (deviceEntries env ++
      [field "n_core" (dec cpu.processor.toNat),
        ("microarchitecture".toList, .map (microarchitectureEntries env cpu))])])]

/-- What `log_result` writes, as a document. -/
def resultBlock (env : LogEnv c) (r : LoggedResult c) (regsBefore : Regs c.toRegConfig)
    (cpu : Option LoggedCpu) : Node :=
  .seq [.map (("result".toList, .map (resultEntries r regsBefore)) :: clientsEntries env cpu)]

/-! ## Its lines

For each entry, that the lines of its node are those that are written. -/

theorem lines_signal (r : LoggedResult c) :
    indent (indent (entryLines (signalEntries r))) = logSignal r [] := by
  unfold signalEntries logSignal
  split
  next =>
    split
    · rfl
    · rfl
  next => rfl

theorem lines_regsAfter (r : LoggedResult c) (regsBefore : Regs c.toRegConfig) :
    indent (indent ((regsAfterNode r regsBefore).under "regs_after".toList)) =
      logRegsAfter r regsBefore [] := by
  unfold regsAfterNode logRegsAfter
  cases hdiff : regsDiff regsBefore r.regsResult with
  | nil => rfl
  | cons reg diff =>
      have hentries : ∀ regs : List (Reg c.toRegConfig),
          indent (indent (indent (entryLines (regs.map fun reg =>
            (reg.name.toList, .scalar (regText (reg.val r.regsResult))))))) =
          regs.map fun reg => [] ++ "      ".toList ++ reg.name.toList ++ ": ".toList ++
            regText (reg.val r.regsResult) := by
        intro regs
        induction regs with
        | nil => rfl
        | cons reg regs ih =>
            rw [List.map_cons, List.map_cons, ← ih]
            simp [entryLines, Node.under, behind, indent]
      rw [if_neg (List.cons_ne_nil _ _), if_neg (List.cons_ne_nil _ _), ← hentries,
        List.map_cons, Node.under]
      rfl

theorem lines_memDiffs (r : LoggedResult c) :
    indent (indent (entryLines (memDiffsEntries r))) = logMemDiffs r [] := by
  -- the changes are written one after the other, each in lines of its own
  have hitems : ∀ changes : List MemChange,
      indent (indent (itemLines (changes.map fun m => .map (memChangeEntries m)))) =
        changes.flatMap (logMemChange []) := by
    intro changes
    induction changes with
    | nil => rfl
    | cons m changes ih =>
        have hlines : indent (indent (dash (Node.map (memChangeEntries m)).lines)) =
            logMemChange [] m := by
          unfold memChangeEntries logMemChange
          split <;> rfl
        rw [List.map_cons, itemLines, List.flatMap_cons, ← ih, ← hlines]
        simp [indent]
  unfold memDiffsEntries logMemDiffs
  cases hchanges : r.memChanges with
  | nil =>
      have hcap : ¬c.arch.CHECK_MEM_MAX_NUMBER_MEM_CHANGES ≤ ([] : List MemChange).length := by
        cases c.arch <;> decide
      rw [if_neg hcap]
      rfl
  | cons m changes =>
      -- the note that there may be more of them comes in front
      have hlast : indent (indent (entryLines [("mem_diffs".toList,
          Node.seq ((m :: changes).map fun m => .map (memChangeEntries m)))])) =
          "    mem_diffs:".toList :: (m :: changes).flatMap (logMemChange []) := by
        rw [← hitems, entryLines_singleton, List.map_cons, Node.under]
        rfl
      rw [if_neg (List.cons_ne_nil _ _), entryLines_append, indent, indent, List.map_append,
        List.map_append]
      split
      · exact congrArg (_ :: ·) hlast
      · exact hlast

theorem lines_meta (r : LoggedResult c) :
    indent (indent (entryLines (metaEntries r))) = logMeta r [] := rfl

/-- The device block starts the item that it is part of. -/
theorem lines_device (env : LogEnv c) (ls : List Text) :
    indent (dash (entryLines (deviceEntries env) ++ ls)) =
      logDeviceBlock env ([] ++ "  - ".toList) ([] ++ "    ".toList) ++ indent (indent ls) := by
  have hfield : ∀ (p : Prop) [Decidable p] (key : String) (t : Text),
      indent (indent (entryLines (if p then [field key t] else []))) =
        if p then ["    ".toList ++ key.toList ++ ": ".toList ++ t] else [] := by
    intro p _ key t
    rw [entryLines_ite, indent_ite, indent_ite]
    rfl
  have hdash : ∀ l ls, indent (dash (l :: ls)) = ("  - ".toList ++ l) :: indent (indent ls) :=
    fun _ _ => rfl
  rw [deviceEntries, entryLines_append, entryLines_append, entryLines_append, entryLines_append,
    entryLines_field, entryLines_field]
  simp only [List.cons_append, hdash, entryLines, indent_cons, indent_append, hfield,
    logDeviceBlock, List.append_assoc, List.nil_append]
  rfl

theorem lines_clients (env : LogEnv c) (cpu : Option LoggedCpu) :
    indent (entryLines (clientsEntries env cpu)) = logClientBlock env [] cpu := by
  cases cpu with
  | none => rfl
  | some cpu =>
      have hlines : entryLines (clientsEntries env (some cpu)) = "clients:".toList ::
          dash (entryLines (deviceEntries env) ++ entryLines
            [field "n_core" (dec cpu.processor.toNat),
              ("microarchitecture".toList, .map (microarchitectureEntries env cpu))]) := by
        rw [← entryLines_append, clientsEntries, entryLines_singleton, Node.under, itemLines,
          itemLines, List.append_nil]
        rfl
      rw [hlines, indent_cons, lines_device, logClientBlock, List.append_assoc, List.append_assoc]
      rfl

/-- `log_result` writes its document. -/
theorem lines_resultBlock (env : LogEnv c) (r : LoggedResult c)
    (regsBefore : Regs c.toRegConfig) (cpu : Option LoggedCpu) :
    (resultBlock env r regsBefore cpu).lines = logResult env r regsBefore [] cpu := by
  have hresult : entryLines (("result".toList, .map (resultEntries r regsBefore)) ::
      clientsEntries env cpu) = "result:".toList ::
        (indent (entryLines (resultEntries r regsBefore)) ++
          entryLines (clientsEntries env cpu)) := by
    obtain ⟨p, entries, hentries⟩ : ∃ p entries, resultEntries r regsBefore = p :: entries :=
      ⟨_, _, rfl⟩
    rw [entryLines, hentries, Node.under]
    rfl
  have hblock : (resultBlock env r regsBefore cpu).lines = "- result:".toList ::
      (indent (indent (entryLines (resultEntries r regsBefore))) ++
        indent (entryLines (clientsEntries env cpu))) := by
    rw [resultBlock, Node.lines, itemLines, itemLines, List.append_nil, Node.lines, hresult, dash,
      indent_append]
    rfl
  rw [hblock, lines_clients, resultEntries, entryLines_append, entryLines_append,
    entryLines_append, entryLines_singleton, indent_append, indent_append, indent_append,
    indent_append, indent_append, indent_append, lines_signal, lines_regsAfter]
  rw [entryLines_ite, entryLines_ite, indent_ite, indent_ite, indent_ite, indent_ite,
    lines_memDiffs, lines_meta, logResult]
  rfl

/-! ## It is plain

A text from outside is plain by assumption (`LogEnv.Plain`); keys and numbers are plain as they are
written. -/

/-- The names that the client found out are plain scalars. -/
structure LogEnv.Plain (env : LogEnv c) : Prop where
  hostname : env.hostname.1 ≠ [] → isPlain env.hostname.1 = true
  androidProduct : env.androidProduct.1 ≠ [] → isPlain env.androidProduct.1 = true
  androidModel : env.androidModel.1 ≠ [] → isPlain env.androidModel.1 = true
  androidSerialno : env.androidSerialno.1 ≠ [] → isPlain env.androidSerialno.1 = true
  midrToVendor : ∀ midr, ∀ name ∈ env.midrToVendor midr, isPlain name.1 = true
  midrToMicroarch : ∀ midr, ∀ name ∈ env.midrToMicroarch midr, isPlain name.1 = true

theorem isKey_names (arch : Arch) (k : RegClass) :
    ∀ name ∈ k.names arch, isKey name.toList = true := by
  cases arch <;> cases k <;> decide +kernel

theorem isPlain_regText {k : RegClass} (v : RegVal k) : isPlain (regText v) = true := by
  cases k with
  | vec => exact isPlain_0x (isHex_flatMap_hexPad _)
  | _ => exact isPlain_0x (isHex_hex _)

theorem plainEntries_append (xs ys : List (Text × Node)) :
    plainEntries (xs ++ ys) ↔ plainEntries xs ∧ plainEntries ys := by
  simp only [plainEntries_iff, List.forall_mem_append]

/-- An entry with a plain scalar. -/
theorem plainEntries_field {key : String} {t : Text} {entries : List (Text × Node)}
    (hkey : isKey key.toList = true) (ht : isPlain t = true) (h : plainEntries entries) :
    plainEntries (field key t :: entries) := ⟨⟨hkey, ht⟩, h⟩

/-- The keys of an optional section. -/
theorem keys_ite (p : Prop) [Decidable p] (entries : List (Text × Node)) :
    ((if p then entries else []).map Prod.fst).Sublist (entries.map Prod.fst) := by
  split
  · exact List.Sublist.refl _
  · exact List.nil_sublist _

theorem plainEntries_ite {p : Prop} [Decidable p] {entries : List (Text × Node)}
    (h : p → plainEntries entries) : plainEntries (if p then entries else []) := by
  split
  next hp => exact h hp
  next => trivial

theorem isPlain_hex (n : Nat) : isPlain ("0x".toList ++ hex n) = true := isPlain_0x (isHex_hex n)

theorem isPlain_hexPad (w n : Nat) : isPlain ("0x".toList ++ hexPad w n) = true :=
  isPlain_0x (isHex_hexPad w n)

theorem plain_signalEntries (r : LoggedResult c) : plainEntries (signalEntries r) := by
  unfold signalEntries
  apply plainEntries_field rfl (isPlain_hex _)
  apply plainEntries_ite
  intro
  apply plainEntries_field rfl (isPlain_hex _)
  apply plainEntries_field rfl (isPlain_hex _)
  apply plainEntries_field rfl (isPlain_hex _)
  apply plainEntries_ite
  intro
  exact plainEntries_field rfl (isPlain_dec _) trivial

theorem plain_regsAfterNode (r : LoggedResult c) (regsBefore : Regs c.toRegConfig) :
    (regsAfterNode r regsBefore).Plain := by
  unfold regsAfterNode
  simp only
  split
  next => exact trivial
  next =>
    have hnames : ((regsDiff regsBefore r.regsResult).map Reg.name).Nodup := by
      rw [regsDiff_eq]
      exact Reg.allRegs_nodup.sublist (List.filter_sublist.map Reg.name)
    rw [Node.Plain, plainEntries_iff, List.map_map]
    constructor
    · have htexts := hnames.map fun a b h => String.toList_inj.mp h
      rwa [List.map_map] at htexts
    · intro p hp
      obtain ⟨reg, -, rfl⟩ := List.mem_map.mp hp
      exact ⟨reg.forall_name isKey_names, isPlain_regText _⟩

theorem plain_memChange (m : MemChange) : (Node.map (memChangeEntries m)).Plain := by
  have hkeys : ((memChangeEntries m).map Prod.fst).Nodup := by
    have hfull : (["start", "n", "val", "cut_at", "checksum"].map String.toList).Nodup := by decide
    refine hfull.sublist ?_
    rw [memChangeEntries, List.map_append, List.map_append]
    exact ((List.Sublist.refl _).append (keys_ite _ _)).append (List.Sublist.refl _)
  refine ⟨hkeys, ?_⟩
  unfold memChangeEntries
  rw [plainEntries_append, plainEntries_append]
  refine ⟨⟨?_, plainEntries_ite fun _ => plainEntries_field rfl (isPlain_hex _) trivial⟩,
    plainEntries_field rfl (isPlain_hexPad _ _) trivial⟩
  apply plainEntries_field rfl (isPlain_hexPad _ _)
  apply plainEntries_field rfl (isPlain_hex _)
  exact plainEntries_field rfl (isPlain_0x (isHex_flatMap_hexPad _)) trivial

theorem plain_memDiffsEntries (r : LoggedResult c) : plainEntries (memDiffsEntries r) := by
  have hlist : (Node.seq (r.memChanges.map fun m => .map (memChangeEntries m))).Plain := by
    rw [Node.Plain, plainItems_iff]
    intro v hv
    obtain ⟨m, -, rfl⟩ := List.mem_map.mp hv
    exact plain_memChange m
  unfold memDiffsEntries
  rw [plainEntries_append]
  exact ⟨plainEntries_ite fun _ => plainEntries_field rfl (isPlain_dec _) trivial,
    ⟨rfl, hlist⟩, trivial⟩

theorem plain_metaEntries (r : LoggedResult c) : plainEntries (metaEntries r) := by
  have hkeys : (["cycle", "instret"].map String.toList).Nodup := by decide
  exact ⟨⟨rfl, hkeys, plainEntries_field rfl (isPlain_dec _)
    (plainEntries_field rfl (isPlain_dec _) trivial)⟩, trivial⟩

def siKeys : List String := ["signum", "si_addr", "si_pc", "si_code", "instr_idx"]

theorem keys_signalEntries (r : LoggedResult c) :
    ((signalEntries r).map Prod.fst).Sublist (siKeys.map String.toList) := by
  unfold signalEntries
  refine List.Sublist.cons_cons _ ((keys_ite _ _).trans ?_)
  rw [List.map_append]
  exact (List.Sublist.refl _).append (keys_ite _ _)

theorem keys_memDiffsEntries (r : LoggedResult c) : ((memDiffsEntries r).map Prod.fst).Sublist
    (["mem_diffs_capped_at", "mem_diffs"].map String.toList) := by
  unfold memDiffsEntries
  rw [List.map_append]
  exact (keys_ite _ _).append (List.Sublist.refl _)

/-- The keys that a result can have. -/
def resultKeys : List String :=
  ["signum", "si_addr", "si_pc", "si_code", "instr_idx", "regs_after", "mem_diffs_capped_at",
    "mem_diffs", "meta"]

theorem keys_resultEntries (r : LoggedResult c) (regsBefore : Regs c.toRegConfig) :
    ((resultEntries r regsBefore).map Prod.fst).Sublist (resultKeys.map String.toList) := by
  rw [resultEntries, List.map_append, List.map_append, List.map_append]
  exact (((keys_signalEntries r).append (List.Sublist.refl _)).append
    ((keys_ite _ _).trans (keys_memDiffsEntries r))).append (keys_ite _ _)

theorem plain_result (r : LoggedResult c) (regsBefore : Regs c.toRegConfig) :
    (Node.map (resultEntries r regsBefore)).Plain := by
  constructor
  · have hfull : (resultKeys.map String.toList).Nodup := by decide
    exact hfull.sublist (keys_resultEntries r regsBefore)
  · rw [resultEntries, plainEntries_append, plainEntries_append, plainEntries_append]
    exact ⟨⟨⟨plain_signalEntries r, ⟨rfl, plain_regsAfterNode r regsBefore⟩, trivial⟩,
      plainEntries_ite fun _ => plain_memDiffsEntries r⟩, plainEntries_ite fun _ =>
      plain_metaEntries r⟩

theorem isPlain_orUnknown {name : Option OneLine}
    (h : ∀ t ∈ name, isPlain t.1 = true) : isPlain (orUnknown name) = true := by
  cases name with
  | none => rfl
  | some t => exact h t rfl

theorem plain_device {env : LogEnv c} (henv : env.Plain) : plainEntries (deviceEntries env) := by
  have hhost : isPlain (if env.hostname.1 = [] then "unknown".toList else env.hostname) = true := by
    split
    next => rfl
    next hne => exact henv.hostname hne
  unfold deviceEntries
  rw [plainEntries_append, plainEntries_append, plainEntries_append, plainEntries_append]
  refine ⟨⟨⟨⟨plainEntries_field rfl hhost (plainEntries_field rfl (isPlain_dec _) trivial), ?_⟩,
    ?_⟩, ?_⟩, ?_⟩
  · exact plainEntries_ite fun _ => plainEntries_field rfl (isPlain_dec _) trivial
  · exact plainEntries_ite fun h => plainEntries_field rfl (henv.androidProduct h) trivial
  · exact plainEntries_ite fun h => plainEntries_field rfl (henv.androidModel h) trivial
  · exact plainEntries_ite fun h => plainEntries_field rfl (henv.androidSerialno h) trivial

theorem plain_microarchitecture {env : LogEnv c} (henv : env.Plain) (cpu : LoggedCpu) :
    (Node.map (microarchitectureEntries env cpu)).Plain := by
  have hkeys : (["vendor", "model_name", "midr", "implementer", "part", "variant", "revision",
      "flags"].map String.toList).Nodup := by decide
  refine ⟨hkeys, ?_⟩
  apply plainEntries_field rfl (isPlain_orUnknown (henv.midrToVendor cpu.midr))
  apply plainEntries_field rfl (isPlain_orUnknown (henv.midrToMicroarch cpu.midr))
  apply plainEntries_field rfl (isPlain_hex _)
  apply plainEntries_field rfl (isPlain_hex _)
  apply plainEntries_field rfl (isPlain_hex _)
  apply plainEntries_field rfl (isPlain_hex _)
  apply plainEntries_field rfl (isPlain_hex _)
  exact ⟨⟨rfl, trivial⟩, trivial⟩

theorem plain_clients {env : LogEnv c} (henv : env.Plain) (cpu : Option LoggedCpu) :
    plainEntries (clientsEntries env cpu) := by
  cases cpu with
  | none => trivial
  | some cpu =>
      refine ⟨⟨rfl, ⟨?_, ?_⟩, trivial⟩, trivial⟩
      · have hfull : ((["hostname", "num_cpus"].map String.toList) ++ ["vec_size".toList] ++
            ["android_product".toList] ++ ["android_model".toList] ++
            ["android_serialno".toList] ++
            ["n_core", "microarchitecture"].map String.toList).Nodup := by decide
        refine hfull.sublist ?_
        rw [deviceEntries, List.map_append, List.map_append, List.map_append, List.map_append,
          List.map_append]
        exact (((((List.Sublist.refl _).append (keys_ite _ _)).append (keys_ite _ _)).append
          (keys_ite _ _)).append (keys_ite _ _)).append (List.Sublist.refl _)
      · rw [plainEntries_append]
        exact ⟨plain_device henv, plainEntries_field rfl (isPlain_dec _)
          ⟨⟨rfl, plain_microarchitecture henv cpu⟩, trivial⟩⟩

/-- The document of `log_result` is plain. -/
theorem plain_resultBlock {env : LogEnv c} (henv : env.Plain) (r : LoggedResult c)
    (regsBefore : Regs c.toRegConfig) (cpu : Option LoggedCpu) :
    (resultBlock env r regsBefore cpu).Plain := by
  refine ⟨⟨?_, ⟨rfl, plain_result r regsBefore⟩, plain_clients henv cpu⟩, trivial⟩
  cases cpu with
  | none => exact List.nodup_singleton _
  | some cpu =>
      have hkeys : (["result", "clients"].map String.toList).Nodup := by decide
      exact hkeys

/-! ## Its value

What `Result.from_dict` finds under its keys. What is not written is `None`. -/

theorem resolve_hex (n : Nat) : resolve ("0x".toList ++ hex n) = .int n := by
  show resolve ('0' :: 'x' :: hex n) = _
  rw [resolve_0x (hex_ne_nil n) (isHex_hex n), ofHex_hex]

theorem resolve_hexPad (w n : Nat) :
    resolve ("0x".toList ++ hexPad w n) = .int n := by
  have hne : hexPad w n ≠ [] := by
    rw [hexPad, List.leftpad]
    exact List.append_ne_nil_of_right_ne_nil _ (hex_ne_nil n)
  show resolve ('0' :: 'x' :: hexPad w n) = _
  rw [resolve_0x hne (isHex_hexPad w n), ofHex_hexPad]

/-- Bytes in hexadecimal are a number unless there are none. -/
theorem resolve_bytes {bytes : Bytes} (hne : bytes ≠ []) :
    resolve ("0x".toList ++ bytes.flatMap fun b => hexPad 2 b.toNat) =
      .int (ofLeBytes bytes.reverse) := by
  have hdigits : bytes.flatMap (fun b => hexPad 2 b.toNat) ≠ [] := by
    intro hnil
    have hlen := length_flatMap_hexPad bytes
    rw [hnil, List.length_nil] at hlen
    exact hne (List.eq_nil_of_length_eq_zero (by omega))
  have hvalue := fprintVec_digits bytes.reverse
  rw [List.reverse_reverse] at hvalue
  show resolve ('0' :: 'x' :: bytes.flatMap fun b => hexPad 2 b.toNat) = _
  rw [resolve_0x hdigits (isHex_flatMap_hexPad bytes), hvalue]

theorem resolve_regText {k : RegClass} (v : RegVal k) : resolve (regText v) = .int v.toNat := by
  cases k with
  | vec =>
      have hne : (RegVal.bytes v).reverse ≠ [] := by
        intro hnil
        have hlen := congrArg List.length hnil
        rw [List.length_reverse, RegVal.length_bytes] at hlen
        cases hlen
      have hbytes := resolve_bytes hne
      rw [List.reverse_reverse, RegVal.ofLeBytes_bytes] at hbytes
      exact hbytes
  | _ => exact resolve_hex _

/-- The tuple that the document has for a memory change: the bytes are in the order of the memory,
so the number has the first of them at its high end. -/
def MemChange.logged (m : MemChange) : PyMemDiff :=
  ⟨.int m.start.toNat, .int m.n.toNat, resolve (fprintHex (m.val.toList.take m.nCap)),
    .int m.checksum.toNat⟩

/-- The object that the document stands for. -/
def LoggedResult.logged (r : LoggedResult c) (regsBefore : Regs c.toRegConfig) : PyResult where
  signum := .int (intBits r.signum)
  cycleDiff := .null
  instretDiff := .null
  regs := (regsAfterNode r regsBefore).value
  siAddr := if r.signum ≠ 0 then .int r.siAddrr.toNat else .null
  siPc := if r.signum ≠ 0 then .int r.siPc.toNat else .null
  siCode := if r.signum ≠ 0 then .int (intBits r.siCode) else .null
  memDiffs := if c.CHECK_MEM then some (r.memChanges.map MemChange.logged) else none

theorem fromEntry_memChange (m : MemChange) :
    PyMemDiff.fromEntry (Node.map (memChangeEntries m)).value = some m.logged := by
  have hvalues : (Node.map (memChangeEntries m)).value = .dict (entryValues (memChangeEntries m)) :=
    by rw [Node.value]
  have hget : ∀ key : String, (Node.map (memChangeEntries m)).value.getItem key =
      ((memChangeEntries m).lookup key.toList).map Node.value := by
    intro key
    rw [hvalues, Value.getItem, lookup_entryValues]
  have hchecksum : (memChangeEntries m).lookup "checksum".toList =
      some (.scalar ("0x".toList ++ hexPad 8 m.checksum.toNat)) := by
    unfold memChangeEntries
    split <;> rfl
  have hstart : (memChangeEntries m).lookup "start".toList =
      some (.scalar ("0x".toList ++ hexPad 16 m.start.toNat)) := rfl
  have hn : (memChangeEntries m).lookup "n".toList =
      some (.scalar ("0x".toList ++ hex m.n.toNat)) := rfl
  have hval : (memChangeEntries m).lookup "val".toList =
      some (.scalar (fprintHex (m.val.toList.take m.nCap))) := rfl
  rw [PyMemDiff.fromEntry, hget, hget, hget, hget, hchecksum, hstart, hn, hval]
  simp only [Option.map_some, Node.value, resolve_hex, resolve_hexPad]
  rfl

theorem lookup_ite (p : Prop) [Decidable p] (entries : List (Text × Node)) (key : Text) :
    (if p then entries else []).lookup key = if p then entries.lookup key else none := by
  split <;> rfl

theorem lookup_eq_none_of_keys {entries : List (Text × Node)} {keys : List String} {key : String}
    (hkeys : (entries.map Prod.fst).Sublist (keys.map String.toList)) (hkey : key ∉ keys) :
    entries.lookup key.toList = none := by
  rw [List.lookup_eq_none_iff]
  intro p hp
  rw [bne_iff_ne]
  intro heq
  obtain ⟨key', hmem, htext⟩ := List.mem_map.mp (hkeys.subset (List.mem_map_of_mem hp))
  obtain rfl := String.toList_inj.mp (heq.trans htext.symm)
  exact hkey hmem

def resultEntry (r : LoggedResult c) (regsBefore : Regs c.toRegConfig) (key : String) :
    Option Node := (resultEntries r regsBefore).lookup key.toList

/-- Where the keys of a result are found. -/
theorem resultEntry_eq (r : LoggedResult c) (regsBefore : Regs c.toRegConfig) :
    let get := resultEntry r regsBefore
    get "signum" = some (.scalar ("0x".toList ++ hex (intBits r.signum))) ∧
    get "si_addr" = (if r.signum ≠ 0 then
      some (.scalar ("0x".toList ++ hex r.siAddrr.toNat)) else none) ∧
    get "si_pc" = (if r.signum ≠ 0 then
      some (.scalar ("0x".toList ++ hex r.siPc.toNat)) else none) ∧
    get "si_code" = (if r.signum ≠ 0 then
      some (.scalar ("0x".toList ++ hex (intBits r.siCode))) else none) ∧
    get "regs_after" = some (regsAfterNode r regsBefore) ∧
    get "mem_diffs" = (if c.CHECK_MEM then
      some (.seq (r.memChanges.map fun m => .map (memChangeEntries m))) else none) ∧
    get "cycle_diff" = none ∧ get "instret_diff" = none := by
  intro get
  have habsent : ∀ key ∉ resultKeys, get key = none := fun key hkey =>
    lookup_eq_none_of_keys (keys_resultEntries r regsBefore) hkey
  -- the entries come from four lists, which have no key in common
  have hget : ∀ key : String, get key = ((signalEntries r).lookup key.toList).or
      ((List.lookup key.toList [("regs_after".toList, regsAfterNode r regsBefore)]).or
        ((if c.CHECK_MEM then (memDiffsEntries r).lookup key.toList else none).or
          (if c.META then (metaEntries r).lookup key.toList else none))) := by
    intro key
    simp only [get, resultEntry, resultEntries, List.append_assoc, List.lookup_append, lookup_ite]
  have hsignal : ∀ key ∉ siKeys, (signalEntries r).lookup key.toList = none := fun key hkey =>
    lookup_eq_none_of_keys (keys_signalEntries r) hkey
  have hmem : ∀ key ∉ ["mem_diffs_capped_at", "mem_diffs"],
      (memDiffsEntries r).lookup key.toList = none := fun key hkey =>
    lookup_eq_none_of_keys (keys_memDiffsEntries r) hkey
  -- the keys of a signal are in the first list only
  have hsi : ∀ key ∈ ["si_addr", "si_pc", "si_code"],
      get key = (signalEntries r).lookup key.toList := by
    intro key hkey
    have hkeys : ∀ key ∈ ["si_addr", "si_pc", "si_code"], key ∉ ["regs_after"] ∧
        key ∉ ["mem_diffs_capped_at", "mem_diffs"] ∧ key ∉ ["meta"] := by decide
    obtain ⟨houtRegs, houtMem, houtMeta⟩ := hkeys key hkey
    have hregs :
        List.lookup key.toList [("regs_after".toList, regsAfterNode r regsBefore)] = none :=
      lookup_eq_none_of_keys (List.Sublist.refl (["regs_after"].map String.toList)) houtRegs
    have hmeta : (metaEntries r).lookup key.toList = none :=
      lookup_eq_none_of_keys (List.Sublist.refl (["meta"].map String.toList)) houtMeta
    rw [hget, hregs, hmem key houtMem, hmeta, ite_self, ite_self, Option.or_none, Option.or_none,
      Option.or_none]
  have hmemDiffs : (memDiffsEntries r).lookup "mem_diffs".toList =
      some (.seq (r.memChanges.map fun m => .map (memChangeEntries m))) := by
    unfold memDiffsEntries
    split <;> rfl
  have hmeta : (metaEntries r).lookup "mem_diffs".toList = none := rfl
  refine ⟨rfl, ?_, ?_, ?_, ?_, ?_, habsent _ (by decide), habsent _ (by decide)⟩
  · rw [hsi _ (by decide), signalEntries]
    split <;> rfl
  · rw [hsi _ (by decide), signalEntries]
    split <;> rfl
  · rw [hsi _ (by decide), signalEntries]
    split <;> rfl
  · rw [hget, hsignal _ (by decide)]
    rfl
  · rw [hget, hsignal _ (by decide), hmemDiffs, hmeta, ite_self, Option.or_none]
    rfl

/-- `from_dict` of the document below `result`. -/
theorem fromDict_result (r : LoggedResult c) (regsBefore : Regs c.toRegConfig) :
    PyResult.fromDict (Node.map (resultEntries r regsBefore)).value =
      some (r.logged regsBefore) := by
  obtain ⟨hsignum, haddr, hpc, hcode, hregs, hmem, hcycle, hinstret⟩ :=
    resultEntry_eq r regsBefore
  have hvalue : (Node.map (resultEntries r regsBefore)).value =
      .dict (entryValues (resultEntries r regsBefore)) := by rw [Node.value]
  have hitem : ∀ key : String, (Node.map (resultEntries r regsBefore)).value.getItem key =
      (resultEntry r regsBefore key).map Node.value := by
    intro key
    rw [hvalue, Value.getItem, lookup_entryValues, resultEntry]
  have hget : ∀ key : String, (Node.map (resultEntries r regsBefore)).value.get key =
      some (((resultEntry r regsBefore key).map Node.value).getD .null) := by
    intro key
    rw [hvalue, Value.get, lookup_entryValues, resultEntry]
  -- an entry that is not written is read as `None`
  have hsi : ∀ t v, resolve t = v → ((if r.signum ≠ 0 then some (Node.scalar t) else none).map
      Node.value).getD .null = if r.signum ≠ 0 then v else .null := by
    intro t v ht
    split
    · rw [Option.map_some, Node.value, ht]
      rfl
    · rfl
  -- the changes are there exactly if the build checks the memory
  have hmemDiffs : PyResult.memDiffsFromDict (Node.map (resultEntries r regsBefore)).value =
      some (if c.CHECK_MEM then some (r.memChanges.map MemChange.logged) else none) := by
    rw [PyResult.memDiffsFromDict, hitem, hmem]
    by_cases hcheck : c.CHECK_MEM = true
    · have hall : (r.memChanges.map fun m => (Node.map (memChangeEntries m)).value).mapM
          PyMemDiff.fromEntry = some (r.memChanges.map MemChange.logged) := by
        rw [List.mapM_map]
        exact Dict.mapM_eq_some fun m _ => fromEntry_memChange m
      rw [if_pos hcheck, if_pos hcheck]
      simp only [Option.map_some, Node.value, Value.elements, itemValues_eq, List.map_map]
      show ((r.memChanges.map fun m => (Node.map (memChangeEntries m)).value).mapM
        PyMemDiff.fromEntry).bind (fun memDiffs => some (some memDiffs)) = _
      rw [hall]
      rfl
    · rw [if_neg hcheck, if_neg hcheck]
      rfl
  rw [PyResult.fromDict, hmemDiffs]
  simp only [hget, hsignum, haddr, hpc, hcode, hregs, hcycle, hinstret, hsi _ _ (resolve_hex _)]
  simp only [Option.map_some, Node.value, resolve_hex]
  rfl

/-- The server loads the block of one result; without a result it raises an error. -/
def loadLogged (safeLoad : Text → Option Value) (block : Text) : Option PyResult := do
  let results ← safeLoad block
  match ← results.elements with
  | [resData] => PyResult.fromDict (← resData.getItem "result")
  | _ => none

theorem loadLogged_logResult {safeLoad : Text → Option Value} (hload : ReadsBlocks safeLoad)
    {env : LogEnv c} (henv : env.Plain) (r : LoggedResult c) (regsBefore : Regs c.toRegConfig)
    (cpu : Option LoggedCpu) :
    loadLogged safeLoad (unlines (logResult env r regsBefore [] cpu)) =
      some (r.logged regsBefore) := by
  have hblock := hload _ (plain_resultBlock henv r regsBefore cpu)
  rw [lines_resultBlock] at hblock
  rw [loadLogged, hblock, ← fromDict_result]
  rfl

/-! ## Comparison with the parsed result

What the server parses has the numbers of the packed result, so the two differ where the text leaves
something out or spells it in another order. -/

/-- The bytes of a memory change that are reported. -/
def MemChange.kept (m : MemChange) : Bytes := m.val.toList.take m.nCap

/-- A logged result that reads as it is parsed: there was a signal, a register changed, and the
bytes of the memory changes are the same in both directions. -/
structure LoggedResult.ReadsBack (r : LoggedResult c) (regsBefore : Regs c.toRegConfig) :
    Prop where
  signum : r.signum ≠ 0
  regs : ∃ reg : Reg c.toRegConfig, reg.val regsBefore ≠ reg.val r.regsResult
  memChanges : c.CHECK_MEM = true → ∀ m ∈ r.memChanges, m.n ≠ 0 ∧ m.kept.reverse = m.kept

theorem regsDiff_ne_nil_iff {before after : Regs c.toRegConfig} :
    regsDiff before after ≠ [] ↔ ∃ reg : Reg c.toRegConfig, reg.val before ≠ reg.val after := by
  constructor
  · intro hne
    obtain ⟨reg, hreg⟩ := List.exists_mem_of_ne_nil _ hne
    exact ⟨reg, mem_regsDiff.mp hreg⟩
  · rintro ⟨reg, hreg⟩
    exact List.ne_nil_of_mem (mem_regsDiff.mpr hreg)

theorem MemChange.kept_eq_nil_iff {m : MemChange} : m.kept = [] ↔ m.n = 0 := by
  have hlen : m.kept.length = m.nCap := m.length_kept
  rw [← List.length_eq_zero_iff, hlen, MemChange.nCap, ← UInt32.toNat_inj]
  split
  · rfl
  next hge =>
    have hcut : CHECK_MEM_CUT_AT ≠ 0 := by decide
    have hzero : (0 : UInt32).toNat = 0 := rfl
    omega

/-- The two tuples of a memory change compare equal when the bytes read the same in both
directions. -/
theorem memDiffEq_logged {m : MemChange} :
    PyResult.memDiffEq m.logged m.toDiff.toPy = true ↔ m.n ≠ 0 ∧ m.kept.reverse = m.kept := by
  by_cases hn : m.n = 0
  · have hkept : m.val.toList.take m.nCap = [] := MemChange.kept_eq_nil_iff.mpr hn
    have hval : m.logged.val = .str "0x".toList := by
      rw [MemChange.logged, hkept]
      rfl
    simp [PyResult.memDiffEq, hval, hn, MemDiff.toPy, Value.eq]
  · have hne : m.kept ≠ [] := fun h => hn (MemChange.kept_eq_nil_iff.mp h)
    have hval : m.logged.val = .int (ofLeBytes m.kept.reverse) := resolve_bytes hne
    have hinj : ofLeBytes m.kept.reverse = ofLeBytes (m.val.toList.take m.nCap) ↔
        m.kept.reverse = m.kept :=
      ⟨fun h => ofLeBytes_inj List.length_reverse h, fun h => congrArg ofLeBytes h⟩
    rw [PyResult.memDiffEq, hval]
    simpa [MemChange.logged, MemDiff.toPy, MemChange.toDiff, hn] using hinj

theorem memDiffsEq_logged {changes : List MemChange} :
    PyResult.memDiffsEq (some (changes.map MemChange.logged))
      (some ((changes.map MemChange.toDiff).map MemDiff.toPy)) = true ↔
      ∀ m ∈ changes, m.n ≠ 0 ∧ m.kept.reverse = m.kept := by
  rw [List.map_map, PyResult.memDiffsEq, Bool.and_eq_true, List.all_eq_true]
  simp only [List.length_map, beq_self_eq_true, true_and]
  induction changes with
  | nil => simp
  | cons m changes ih =>
      rw [List.map_cons, List.map_cons, List.zip_cons_cons, List.forall_mem_cons,
        List.forall_mem_cons, ih]
      exact and_congr_left fun _ => memDiffEq_logged

/-- The registers of the document are those of the parsed result when there are any. -/
theorem regsAfterNode_value {r : LoggedResult c} {regsBefore : Regs c.toRegConfig}
    (h : regsDiff regsBefore r.regsResult ≠ []) :
    (regsAfterNode r regsBefore).value = intDict (changedRegs regsBefore r.regsResult).items := by
  rw [regsAfterNode, if_neg h, Node.value, entryValues_eq, intDict, changedRegs_items,
    List.map_map, List.map_map]
  congr 1
  apply List.map_congr_left
  intro reg _
  simp only [Function.comp_apply, Node.value, resolve_regText]

/-- The logged and the parsed result are equal exactly in these cases. -/
theorem logged_eq_decoded_iff {κ : Type} (r : LoggedResult c) (regsBefore : Regs c.toRegConfig)
    (client : κ) :
    (r.logged regsBefore).eq (r.toCResult.decoded regsBefore client).toPy = true ↔
      r.ReadsBack regsBefore := by
  have hmem : (r.logged regsBefore).memDiffs = if c.CHECK_MEM then
      some (r.memChanges.map MemChange.logged) else none := rfl
  have hmem' : (r.toCResult.decoded regsBefore client).toPy.memDiffs = if c.CHECK_MEM then
      some ((r.memChanges.map MemChange.toDiff).map MemDiff.toPy) else none := by
    simp only [Result.toPy, CResult.decoded]
    split <;> rfl
  rw [PyResult.eq_iff, hmem, hmem']
  constructor
  · -- without a signal `si_addr` is missing, and without a change the registers are a list
    rintro ⟨-, haddr, -, -, hchanges, hregs⟩
    refine ⟨fun hsignum => ?_, regsDiff_ne_nil_iff.mp fun hnil => ?_, fun hcheck => ?_⟩
    · rw [LoggedResult.logged, if_neg (not_not.mpr hsignum)] at haddr
      cases haddr
    · rw [LoggedResult.logged, regsAfterNode, hnil] at hregs
      cases hregs
    · rw [if_pos hcheck, if_pos hcheck] at hchanges
      exact memDiffsEq_logged.mp (hchanges rfl)
  · rintro ⟨hsignum, hregs, hchanges⟩
    -- the numbers that were written come back, in a dictionary with the same keys
    have hvalue := regsAfterNode_value (regsDiff_ne_nil_iff.mpr hregs)
    simp only [LoggedResult.logged, Result.toPy, CResult.decoded, if_pos hsignum, Value.eq_int,
      beq_self_eq_true, hvalue, intDict_eq, Dict.beq_refl, true_and, and_true]
    intro hsome
    have hcheck : c.CHECK_MEM = true := by
      by_contra hcheck
      rw [if_neg hcheck] at hsome
      cases hsome
    rw [if_pos hcheck, if_pos hcheck]
    exact memDiffsEq_logged.mpr (hchanges hcheck)

theorem logged_toPy {m : MemChange} (hn : m.n ≠ 0) (hsame : m.kept.reverse = m.kept) :
    m.logged = m.toDiff.toPy := by
  have hne : m.kept ≠ [] := fun h => hn (MemChange.kept_eq_nil_iff.mp h)
  have hval : m.logged.val = .int (ofLeBytes m.kept.reverse) := resolve_bytes hne
  rw [hsame] at hval
  show PyMemDiff.mk _ _ m.logged.val _ = _
  rw [hval]
  rfl

/-- Where they are equal they have the same hash. -/
theorem hashKey_logged {κ : Type} {r : LoggedResult c} {regsBefore : Regs c.toRegConfig}
    (client : κ) (h : r.ReadsBack regsBefore) :
    (r.logged regsBefore).hashKey = (r.toCResult.decoded regsBefore client).toPy.hashKey := by
  obtain ⟨hsignum, hregs, hchanges⟩ := h
  have hvalue := regsAfterNode_value (regsDiff_ne_nil_iff.mpr hregs)
  have hmem : (r.logged regsBefore).memDiffs =
      (r.toCResult.decoded regsBefore client).toPy.memDiffs := by
    by_cases hcheck : c.CHECK_MEM = true
    · simp only [LoggedResult.logged, Result.toPy, CResult.decoded, if_pos hcheck,
        Option.map_some, List.map_map]
      congr 1
      apply List.map_congr_left
      intro m hm
      exact logged_toPy (hchanges hcheck m hm).1 (hchanges hcheck m hm).2
    · simp only [LoggedResult.logged, Result.toPy, CResult.decoded, if_neg hcheck, Option.map_none]
  rw [PyResult.hashKey, PyResult.hashKey, hmem]
  simp only [LoggedResult.logged, if_pos hsignum, hvalue]
  rfl

/-- The server makes equal objects with one hash of the logged block and of the packed result;
`hash` is Python's. -/
def ReadsAlike {κ : Type} (safeLoad : Text → Option Value) (hash : PyResult.HashKey → Int)
    (env : LogEnv c) (r : LoggedResult c) (regsBefore : Regs c.toRegConfig)
    (cpu : Option LoggedCpu) (client : κ) : Prop :=
  ∃ loaded frame parsed n,
    loadLogged safeLoad (unlines (logResult env r regsBefore [] cpu)) = some loaded ∧
    packResult regsBefore r.toCResult = some frame ∧
    parseResults c (frame.drop 2) client = .ok [.result parsed] ∧
    loaded.eq parsed.toPy = true ∧
    loaded.hash hash = some n ∧ parsed.toPy.hash hash = some n

variable {κ : Type} {safeLoad : Text → Option Value}

theorem readsAlike_iff_eq (hload : ReadsBlocks safeLoad) (hash : PyResult.HashKey → Int)
    {env : LogEnv c} (henv : env.Plain) {r : LoggedResult c} (hr : r.toCResult.FromRunner)
    (regsBefore : Regs c.toRegConfig) (cpu : Option LoggedCpu) (client : κ) :
    ReadsAlike safeLoad hash env r regsBefore cpu client ↔ r.ReadsBack regsBefore := by
  obtain ⟨frame, hframe, hparse⟩ := parseResults_packResult regsBefore client hr
  have hloaded := loadLogged_logResult hload henv r regsBefore cpu
  constructor
  · rintro ⟨loaded, frame', parsed, n, hloaded', hframe', hparse', heq, -, -⟩
    obtain rfl := Option.some.inj (hloaded.symm.trans hloaded')
    obtain rfl := Option.some.inj (hframe.symm.trans hframe')
    rw [hparse] at hparse'
    cases hparse'
    exact (logged_eq_decoded_iff r regsBefore client).mp heq
  · intro h
    obtain ⟨n, hn⟩ : ∃ n, (r.toCResult.decoded regsBefore client).toPy.hash hash = some n := by
      rw [PyResult.hash, Result.hashKey_toPy]
      exact ⟨_, rfl⟩
    refine ⟨_, frame, _, n, hloaded, hframe, hparse,
      (logged_eq_decoded_iff r regsBefore client).mpr h, ?_, hn⟩
    rw [PyResult.hash, hashKey_logged client h]
    exact hn

/-- The logged block and the packed result of a run end in equal objects with one hash if and only
if there was a signal, a register changed, and every memory change that is reported has bytes that
are the same in both directions. -/
theorem readsAlike_iff (c : Config) (safeLoad : Text → Option Value)
    (hload : ReadsBlocks safeLoad) (hash : PyResult.HashKey → Int) (env : LogEnv c)
    (henv : env.Plain) (r : LoggedResult c) (hr : r.toCResult.FromRunner)
    (regsBefore : Regs c.toRegConfig) (cpu : Option LoggedCpu) (client : κ) :
    ReadsAlike safeLoad hash env r regsBefore cpu client ↔
      r.signum ≠ 0 ∧
      (∃ reg : Reg c.toRegConfig, reg.val regsBefore ≠ reg.val r.regsResult) ∧
      (c.CHECK_MEM = true → ∀ m ∈ r.memChanges, m.n ≠ 0 ∧ m.kept.reverse = m.kept) := by
  rw [readsAlike_iff_eq hload hash henv hr]
  exact ⟨fun ⟨hsignum, hregs, hmem⟩ => ⟨hsignum, hregs, hmem⟩,
    fun ⟨hsignum, hregs, hmem⟩ => ⟨hsignum, hregs, hmem⟩⟩

theorem LogEnv.plain_unknown (c : Config) : (LogEnv.unknown c).Plain where
  hostname h := absurd rfl h
  androidProduct h := absurd rfl h
  androidModel h := absurd rfl h
  androidSerialno h := absurd rfl h
  midrToVendor _ := by rintro name ⟨⟩
  midrToMicroarch _ := by rintro name ⟨⟩

/-- A run that faulted, with two equal bytes written. -/
theorem readsAlike_iff_faultingRun :
    ReadsAlike Yaml.load (fun _ => 0) (LogEnv.unknown riscvBuild) ⟨faultingRun, 0⟩
        (Regs.fill riscvBuild 0) (some ⟨0, 1, 2, 3, 4, 5⟩) "client" ↔
      faultingRun.signum ≠ 0 ∧
      (∃ reg : Reg riscvBuild.toRegConfig,
        reg.val (Regs.fill riscvBuild 0) ≠ reg.val faultingRun.regsResult) ∧
      (riscvBuild.CHECK_MEM = true → ∀ m ∈ faultingRun.memChanges, m.n ≠ 0 ∧
        m.kept.reverse = m.kept) :=
  readsAlike_iff riscvBuild Yaml.load readsBlocks_load (fun _ => 0) _ (LogEnv.plain_unknown _)
    ⟨faultingRun, 0⟩ faultingRun_fromRunner _ _ _

/-- The same run without a fault. -/
def quietRun : LoggedResult riscvBuild where
  toCResult := { faultingRun with signum := 0, siAddrr := 0, siPc := 0, siCode := 0 }
  instrIdx := 0

theorem quietRun_fromRunner : quietRun.toCResult.FromRunner :=
  ⟨by decide, by decide, by decide⟩

/-- It is logged without signal information, which the document then does not have. -/
theorem quietRun_not_readsAlike :
    ¬ReadsAlike Yaml.load (fun _ => 0) (LogEnv.unknown riscvBuild) quietRun
      (Regs.fill riscvBuild 0) none "client" := by
  rw [readsAlike_iff_eq readsBlocks_load _ (LogEnv.plain_unknown _) quietRun_fromRunner]
  exact fun h => h.signum rfl

end RISCover
