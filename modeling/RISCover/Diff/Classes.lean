import RISCover.Diff.LogRepro
import RISCover.Lib.Representatives
import RISCover.Repro.ToYaml

/-!
# Sorting reproducers into classes

`cluster.py` goes through the reproducer files of a directory and copies each into the directory of
its class: `filtered-out` when its results differ in nothing but the signal information, the class
of the first representative that it is similar to, or a new one, `class-001` and so on. The class
`filtered-out` has a representative like the others and is one of those that are looked through.
Before that it takes the flags for floats and vectors from the first file of the directory, which it
needs to be a reproducer; a broken file further on is passed over.
-/

open Representatives

namespace RISCover

variable {κ : Type} {c : Config}

/-! ## Similar reproducers

The key of a dictionary in a reproducer is a `Result`, and the value the clients that had it. The
comparison goes through two of them side by side. -/

/-- `Microarchitecture.__eq__`, which leaves out the `midr`. -/
def Microarchitecture.eq (self other : Microarchitecture) : Bool :=
  if self.modelName.val ≠ other.modelName.val then false
  else if self.numCores ≠ other.numCores then false
  else if self.numSockets ≠ other.numSockets then false
  else if self.threadsPerCore ≠ other.threadsPerCore then false
  else if (self.flags.map Subtype.val).toFinset ≠ (other.flags.map Subtype.val).toFinset then false
  else true

/-- `ClientMeta.similar`. -/
def ClientMeta.similar (self other : ClientMeta) : Bool :=
  self.microarchitecture.eq other.microarchitecture

/-- `Result.similar`. It fails when only `self` has memory changes, as `None` has no length. -/
def Result.similar (self other : Result κ) : Option Bool :=
  if self.signum ≠ other.signum then some false
  else if self.siCode ≠ other.siCode then some false
  else if self.regs.items.isEmpty ≠ other.regs.items.isEmpty then some false
  else match self.memDiffs with
    | none => some true
    | some diffs => other.memDiffs.map fun diffs' => diffs.isEmpty == diffs'.isEmpty

/-- A reproducer in hand: the name of its file, and `result_to_clients` with results that are
treated leniently. -/
structure ReproEntry (κ : Type) where
  name : String
  resultToClients : List (LenientResult κ × List ClientMeta)

namespace ReproEntry

/-- `Repro.all_diffs`, which looks at nothing but the results. -/
def allDiffs (self : ReproEntry κ) (noRegs : Bool := false) : Finset String :=
  RISCover.allDiffs (self.resultToClients.map fun p => (p.1.toResult, ([] : List κ))) noRegs

/-- The loop of `Repro.similar` over both dictionaries. -/
def similarItems : List (LenientResult κ × List ClientMeta) →
    List (LenientResult κ × List ClientMeta) → Option Bool
  | (res1, clients1) :: items1, (res2, clients2) :: items2 => do
      if ← res1.toResult.similar res2.toResult then
        if clients1.length ≠ clients2.length then some false
        else if (clients1.zip clients2).all fun p => p.1.similar p.2 then similarItems items1 items2
        else some false
      else some false
  | _, _ => some true

/-- `Repro.similar`. -/
def similar (self other : ReproEntry κ) : Option Bool :=
  if self.resultToClients.length ≠ other.resultToClients.length then some false
  else if self.allDiffs true ≠ other.allDiffs true then some false
  else similarItems self.resultToClients other.resultToClients

end ReproEntry

/-! ## The directory

A file is read when its turn comes, so one that cannot be read does not stop the others; only the
first one is needed before. -/

/-- What a reproducer has behind its flags. -/
structure ReproBody (κ : Type) where
  /-- `"fp" in regs` of the input. -/
  fp : Bool
  /-- `"vec" in regs` of the input. -/
  vec : Bool
  results : List (Result κ × List ClientMeta)
  /-- `Repro.__init__` looks at the first client of the first result. -/
  results_ne_nil : results ≠ []
  clients_ne_nil : ∀ p ∈ results, p.2 ≠ []

/-- A mapping with flags; without a body the file is cut off behind them. -/
structure ReproDocument (κ : Type) where
  arch : Arch
  floats : Bool
  vector : Bool
  body : Option (ReproBody κ)

/-- What `safe_load` makes of a file: it raises, there is nothing or no flags, or it is a
reproducer. -/
inductive ReproContent (κ : Type) where
  | malformed
  | broken
  | document (doc : ReproDocument κ)

/-- A file of the directory. -/
structure ReproFile (κ : Type) where
  name : String
  content : ReproContent κ

structure ReproDirectory (κ : Type) where
  files : List (ReproFile κ)
  names_nodup : (files.map ReproFile.name).Nodup

/-- `d[key] = value`. A key that is there stays, with the new value. -/
def setItem {ρ β : Type} (same : ρ → ρ → Bool) (key : ρ) (value : β) :
    List (ρ × β) → List (ρ × β)
  | [] => [(key, value)]
  | (k, v) :: items =>
      if same k key then (k, value) :: items else (k, v) :: setItem same key value items

/-- The dictionary with these items, put in one by one. -/
def dictOf {ρ β : Type} (same : ρ → ρ → Bool) (items : List (ρ × β)) : List (ρ × β) :=
  items.foldl (fun d p => setItem same p.1 p.2 d) []

/-- The results of `Repro.from_dict`, and `new_result_to_clients`. -/
def ReproBody.entry (hash : HashKey → Int) (name : String) (body : ReproBody κ) : ReproEntry κ where
  name := name
  resultToClients := dictOf (fun k x => Result.sameKey hash k.toResult x.toResult)
    ((dictOf (Result.sameKey hash) body.results).map fun p => (LenientResult.ofResult p.1, p.2))

/-- The flags of `config` that an input is loaded under. -/
structure LoadedFlags where
  FLOATS : Bool
  VECTOR : Bool

/-- `load_config_from_repro`; `none` where it raises. -/
def loadConfigFromRepro (arch : Arch) (path : ReproFile κ) : Option LoadedFlags :=
  match path.content with
  | .document doc => if arch = doc.arch then some ⟨doc.floats, doc.vector⟩ else none
  | _ => none

/-- The body of the loop up to the results: `none` where it raises, `some none` for a file that is
passed over. -/
def ReproFile.load (hash : HashKey → Int) (arch : Arch) (config : LoadedFlags)
    (path : ReproFile κ) : Option (Option (ReproEntry κ)) :=
  match path.content with
  | .malformed => none
  | .broken => some none
  | .document doc =>
    if doc.arch ≠ arch then none
    else match doc.body with
      | none => none
      | some body =>
        -- without the flag the input has no dictionary to put the registers into
        if body.fp && !config.FLOATS || body.vec && !config.VECTOR then none
        else some (some (body.entry hash path.name))

/-! ## `cluster.py` -/

/-- `filter_diffs`. -/
def filterDiffs (diffs : Finset String) : Finset String := diffs \ signalKeys

/-- `not filter_diffs(repro.all_diffs())`. -/
def ReproEntry.filteredOut (repro : ReproEntry κ) : Bool := filterDiffs repro.allDiffs = ∅

/-- The loop of `main`: the special class is `filtered-out`, and `class-{n:03}` is number `n`. -/
def clusterFiles (hash : HashKey → Int) (arch : Arch) (config : LoadedFlags)
    (files : List (ReproFile κ)) (s : State (ReproEntry κ)) : Option (State (ReproEntry κ)) :=
  files.foldlM (fun s path => do
    match ← path.load hash arch config with
    | none => some s
    | some repro => visit ReproEntry.filteredOut ReproEntry.similar s repro) s

/-- `main`, with `config.ARCH` from the environment. -/
def clusterReproducers (hash : HashKey → Int) (arch : Arch) (files : List (ReproFile κ)) :
    Option (State (ReproEntry κ)) := do
  let config ← loadConfigFromRepro arch (← files.head?)
  clusterFiles hash arch config files State.empty

/-- In whatever order the files come, they are sorted to the end and into the same classes, and no
reproducer whose results differ in more than the signal information is filtered out. -/
structure ReproDirectory.SortsSoundly (hash : HashKey → Int) (arch : Arch)
    (d : ReproDirectory κ) : Prop where
  ends : ∀ files, files.Perm d.files → ∃ s, clusterReproducers hash arch files = some s
  unique : ∀ files files' s s', files.Perm d.files → files'.Perm d.files →
    clusterReproducers hash arch files = some s → clusterReproducers hash arch files' = some s' →
    s.SamePartition s'
  sound : ∀ files s, files.Perm d.files → clusterReproducers hash arch files = some s →
    ∀ repro, (repro, Name.special) ∈ s.filed → repro.allDiffs ⊆ signalKeys

/-- The body of a reproducer. -/
def ReproFile.body (path : ReproFile κ) : Option (ReproBody κ) :=
  match path.content with
  | .document doc => doc.body
  | _ => none

def ReproFile.repro (hash : HashKey → Int) (path : ReproFile κ) : Option (ReproEntry κ) :=
  path.body.map (ReproBody.entry hash path.name)

/-- The reproducers of the directory. -/
def ReproDirectory.repros (hash : HashKey → Int) (d : ReproDirectory κ) : List (ReproEntry κ) :=
  d.files.filterMap (ReproFile.repro hash)

/-- A whole reproducer of the architecture, which can be loaded behind any of the files. -/
def ReproFile.LoadsBehind (arch : Arch) (files : List (ReproFile κ)) (path : ReproFile κ) : Prop :=
  ∃ doc body, path.content = .document doc ∧ doc.arch = arch ∧ doc.body = some body ∧
    ∀ file ∈ files, ∀ config, loadConfigFromRepro arch file = some config →
      (body.fp = true → config.FLOATS = true) ∧ (body.vec = true → config.VECTOR = true)

/-- There are files, none of them is broken, and the flags of each suit the inputs of all. -/
structure ReproDirectory.Loads (arch : Arch) (d : ReproDirectory κ) : Prop where
  ne_nil : d.files ≠ []
  files : ∀ path ∈ d.files, path.LoadsBehind arch d.files

/-- The results of all reproducers come from one build. -/
def ReproDirectory.OfConfig (c : Config) (d : ReproDirectory κ) : Prop :=
  ∀ path ∈ d.files, ∀ body ∈ path.body, ∀ p ∈ body.results, p.1.OfConfig c

/-! ## The loop sorts the reproducers that load

A file that does not load leaves the classes as they were. So the loop is that of `Representatives`,
over the reproducers that load. -/

theorem ReproEntry.filteredOut_iff {repro : ReproEntry κ} :
    repro.filteredOut = true ↔ repro.allDiffs ⊆ signalKeys := by
  rw [filteredOut, filterDiffs, decide_eq_true_iff, Finset.sdiff_eq_empty_iff_subset]

/-- A file that can be loaded behind the first one is loaded. -/
theorem ReproFile.LoadsBehind.load {hash : HashKey → Int} {arch : Arch} {files : List (ReproFile κ)}
    {path file : ReproFile κ} {config : LoadedFlags} (h : path.LoadsBehind arch files)
    (hfile : file ∈ files) (hconfig : loadConfigFromRepro arch file = some config) :
    ∃ repro, path.repro hash = some repro ∧ path.load hash arch config = some (some repro) := by
  obtain ⟨doc, body, hdoc, harch, hbody, hflags⟩ := h
  obtain ⟨hfp, hvec⟩ := hflags file hfile config hconfig
  have hsuits : (body.fp && !config.FLOATS || body.vec && !config.VECTOR) = false := by
    grind
  refine ⟨body.entry hash path.name, ?_, ?_⟩
  · rw [ReproFile.repro, ReproFile.body, hdoc]
    exact congrArg (Option.map _) hbody
  · rw [ReproFile.load, hdoc]
    dsimp only
    rw [if_neg (not_not_intro harch), hbody]
    dsimp only
    rw [hsuits, if_neg Bool.false_ne_true]

/-- A file under whose flags the loop goes on is a reproducer that suits them, or broken. -/
theorem ReproFile.of_load_eq_some {hash : HashKey → Int} {arch : Arch} {path : ReproFile κ}
    {config : LoadedFlags} {r : Option (ReproEntry κ)}
    (h : path.load hash arch config = some r) {doc : ReproDocument κ}
    (hdoc : path.content = .document doc) : doc.arch = arch ∧ ∃ body, doc.body = some body ∧
      (body.fp = true → config.FLOATS = true) ∧ (body.vec = true → config.VECTOR = true) := by
  rw [ReproFile.load, hdoc] at h
  dsimp only at h
  split at h
  next => cases h
  next harch =>
    cases hbody : doc.body with
    | none =>
        rw [hbody] at h
        cases h
    | some body =>
        rw [hbody] at h
        dsimp only at h
        refine ⟨not_not.mp harch, body, rfl, ?_⟩
        split at h
        next => cases h
        next hsuits => grind

theorem clusterFiles_eq_some {hash : HashKey → Int} {arch : Arch} {config : LoadedFlags}
    {files : List (ReproFile κ)} {s s' : State (ReproEntry κ)}
    (h : clusterFiles hash arch config files s = some s') :
    ∀ path ∈ files, ∃ r, path.load hash arch config = some r := by
  induction files generalizing s with
  | nil => exact List.forall_mem_nil _
  | cons path files ih =>
      rw [clusterFiles, List.foldlM_cons] at h
      obtain ⟨mid, hmid, hrest⟩ := Option.bind_eq_some_iff.mp h
      obtain ⟨r, hr, -⟩ := Option.bind_eq_some_iff.mp hmid
      exact List.forall_mem_cons.mpr ⟨⟨r, hr⟩, ih hrest⟩

/-- Every file may come first, so all of them have to be reproducers that go together. -/
theorem ReproDirectory.loads_of_ends {hash : HashKey → Int} {arch : Arch} {d : ReproDirectory κ}
    (h : ∀ files, files.Perm d.files → ∃ s, clusterReproducers hash arch files = some s) :
    d.Loads arch := by
  -- behind any first file everything is loaded under its flags
  have hfirst : ∀ file ∈ d.files, ∃ config, loadConfigFromRepro arch file = some config ∧
      ∀ path ∈ d.files, ∃ r, path.load hash arch config = some r := by
    intro file hfile
    obtain ⟨front, back, heq⟩ := List.append_of_mem hfile
    have hperm : (file :: (front ++ back)).Perm d.files := by
      rw [heq]
      exact List.perm_middle.symm
    obtain ⟨s, hs⟩ := h _ hperm
    have hmain : (loadConfigFromRepro arch file).bind (fun config =>
        clusterFiles hash arch config (file :: (front ++ back)) State.empty) = some s := hs
    obtain ⟨config, hconfig, hs⟩ := Option.bind_eq_some_iff.mp hmain
    exact ⟨config, hconfig, fun path hpath =>
      clusterFiles_eq_some hs path (hperm.mem_iff.mpr hpath)⟩
  constructor
  · intro hnil
    obtain ⟨s, hs⟩ := h [] (by rw [hnil])
    cases hs
  · intro path hpath
    obtain ⟨own, hown, hloads⟩ := hfirst path hpath
    obtain ⟨doc, hdoc⟩ : ∃ doc, path.content = .document doc := by
      rw [loadConfigFromRepro] at hown
      split at hown
      next doc hdoc => exact ⟨doc, hdoc⟩
      next => cases hown
    obtain ⟨r, hr⟩ := hloads path hpath
    obtain ⟨harch, body, hbody, -⟩ := ReproFile.of_load_eq_some hr hdoc
    refine ⟨doc, body, hdoc, harch, hbody, fun file hfile config hconfig => ?_⟩
    obtain ⟨config', hconfig', hall⟩ := hfirst file hfile
    obtain rfl : config' = config := Option.some.inj (hconfig'.symm.trans hconfig)
    obtain ⟨r', hr'⟩ := hall path hpath
    obtain ⟨-, body', hbody', hsuits⟩ := ReproFile.of_load_eq_some hr' hdoc
    obtain rfl : body = body' := Option.some.inj (hbody.symm.trans hbody')
    exact hsuits

theorem clusterFiles_eq_run {hash : HashKey → Int} {arch : Arch} {config : LoadedFlags}
    {files : List (ReproFile κ)} (h : ∀ path ∈ files, ∃ repro, path.repro hash = some repro ∧
      path.load hash arch config = some (some repro)) (s : State (ReproEntry κ)) :
    clusterFiles hash arch config files s =
      (files.filterMap (ReproFile.repro hash)).foldlM
        (visit ReproEntry.filteredOut ReproEntry.similar) s := by
  induction files generalizing s with
  | nil => rfl
  | cons path files ih =>
      rw [List.forall_mem_cons] at h
      obtain ⟨⟨repro, hrepro, hload⟩, hrest⟩ := h
      rw [clusterFiles, List.foldlM_cons, hload, List.filterMap_cons_some hrepro, List.foldlM_cons]
      show (visit _ _ s repro).bind _ = (visit _ _ s repro).bind _
      exact congrArg _ (funext (ih hrest))

theorem ReproDirectory.Loads.clusterReproducers_eq_run (hash : HashKey → Int) {arch : Arch}
    {d : ReproDirectory κ} (h : d.Loads arch) {files : List (ReproFile κ)}
    (hperm : files.Perm d.files) : clusterReproducers hash arch files =
      run ReproEntry.filteredOut ReproEntry.similar (files.filterMap (ReproFile.repro hash)) := by
  cases files with
  | nil => exact absurd hperm.symm.eq_nil h.ne_nil
  | cons first files =>
      have hmem := hperm.subset List.mem_cons_self
      obtain ⟨doc, -, hdoc, harch, -⟩ := h.files first hmem
      have hconfig : loadConfigFromRepro arch first = some ⟨doc.floats, doc.vector⟩ := by
        rw [loadConfigFromRepro, hdoc]
        exact if_pos harch.symm
      rw [clusterReproducers, List.head?_cons]
      show (loadConfigFromRepro arch first).bind _ = _
      rw [hconfig, Option.bind_some]
      exact clusterFiles_eq_run
        (fun path hpath => (h.files path (hperm.subset hpath)).load hmem hconfig) _

/-- Any order of what is left of a list is left of some order of the list. -/
theorem exists_perm_filterMap {α β : Type} {f : α → Option β} {l : List α} {l' : List β}
    (h : l'.Perm (l.filterMap f)) : ∃ k : List α, k.Perm l ∧ k.filterMap f = l' := by
  induction l' generalizing l with
  | nil => exact ⟨l, List.Perm.refl l, h.symm.eq_nil⟩
  | cons x l' ih =>
      obtain ⟨a, ha, hx⟩ := List.mem_filterMap.mp (h.subset List.mem_cons_self)
      obtain ⟨s, t, rfl⟩ := List.append_of_mem ha
      have hfront : (s ++ a :: t).Perm (a :: (s ++ t)) := List.perm_middle
      have hrest : (x :: l').Perm (x :: (s ++ t).filterMap f) := by
        have hmap := hfront.filterMap f
        rw [List.filterMap_cons_some hx] at hmap
        exact h.trans hmap
      obtain ⟨k, hk, hkf⟩ := ih hrest.cons_inv
      refine ⟨a :: k, (hk.cons a).trans hfront.symm, ?_⟩
      rw [List.filterMap_cons_some hx, hkf]

theorem ReproDirectory.sortsSoundly_iff_partitions (hash : HashKey → Int) {arch : Arch}
    {d : ReproDirectory κ} (hloads : d.Loads arch) :
    d.SortsSoundly hash arch ↔
      Partitions ReproEntry.filteredOut ReproEntry.similar (d.repros hash) := by
  have heq (files : List (ReproFile κ)) (hperm : files.Perm d.files) :=
    hloads.clusterReproducers_eq_run hash hperm
  constructor
  · intro h
    constructor
    · -- every order of the reproducers comes from an order of the files
      intro l' hperm
      obtain ⟨files, hfiles, rfl⟩ := exists_perm_filterMap hperm
      obtain ⟨s, hs⟩ := h.ends files hfiles
      exact ⟨s, (heq files hfiles).symm.trans hs⟩
    · intro l₁ l₂ s₁ s₂ hperm₁ hperm₂ hrun₁ hrun₂
      obtain ⟨files₁, hfiles₁, rfl⟩ := exists_perm_filterMap hperm₁
      obtain ⟨files₂, hfiles₂, rfl⟩ := exists_perm_filterMap hperm₂
      rw [← heq _ hfiles₁] at hrun₁
      rw [← heq _ hfiles₂] at hrun₂
      exact h.unique files₁ files₂ s₁ s₂ hfiles₁ hfiles₂ hrun₁ hrun₂
    · intro l' s hperm hrun repro hrepro
      obtain ⟨files, hfiles, rfl⟩ := exists_perm_filterMap hperm
      rw [← heq _ hfiles] at hrun
      exact ReproEntry.filteredOut_iff.mpr (h.sound files s hfiles hrun repro hrepro)
  · intro h
    constructor
    · intro files hperm
      rw [heq _ hperm]
      exact h.ends _ (hperm.filterMap _)
    · intro files files' s s' hperm hperm' hrun hrun'
      rw [heq _ hperm] at hrun
      rw [heq _ hperm'] at hrun'
      exact h.unique _ _ s s' (hperm.filterMap _) (hperm'.filterMap _) hrun hrun'
    · intro files s hperm hrun repro hrepro
      rw [heq _ hperm] at hrun
      exact ReproEntry.filteredOut_iff.mp
        (h.sound _ s (hperm.filterMap _) hrun repro hrepro)

theorem ReproDirectory.nodup_repros (hash : HashKey → Int) (d : ReproDirectory κ) :
    (d.repros hash).Nodup := by
  have hname : ∀ (path : ReproFile κ) (repro : ReproEntry κ), path.repro hash = some repro →
      repro.name = path.name := by
    intro path repro h
    obtain ⟨body, -, rfl⟩ := Option.map_eq_some_iff.mp h
    rfl
  have hnames := List.pairwise_map.mp d.names_nodup
  refine List.pairwise_filterMap.mpr (hnames.imp fun {path path'} hne repro h repro' h' => ?_)
  rintro rfl
  exact hne ((hname path repro h).symm.trans (hname path' repro h'))

/-! ## Similarity is reflexive -/

theorem Microarchitecture.eq_iff {m m' : Microarchitecture} :
    m.eq m' = true ↔ m.modelName.val = m'.modelName.val ∧ m.numCores = m'.numCores ∧
      m.numSockets = m'.numSockets ∧ m.threadsPerCore = m'.threadsPerCore ∧
      (m.flags.map Subtype.val).toFinset = (m'.flags.map Subtype.val).toFinset := by
  unfold Microarchitecture.eq
  grind

theorem Result.similar_refl (r : Result κ) : r.similar r = some true := by
  unfold Result.similar
  cases hdiffs : r.memDiffs <;> simp

theorem ClientMeta.similar_refl (m : ClientMeta) : m.similar m = true :=
  Microarchitecture.eq_iff.mpr ⟨rfl, rfl, rfl, rfl, rfl⟩

theorem ReproEntry.similarItems_refl (items : List (LenientResult κ × List ClientMeta)) :
    similarItems items items = some true := by
  induction items with
  | nil => rfl
  | cons p items ih =>
      have hall : (p.2.zip p.2).all (fun q => q.1.similar q.2) = true := by
        rw [List.all_eq_true]
        intro q hq
        obtain ⟨i, hi, rfl⟩ := List.mem_iff_getElem.mp hq
        rw [List.getElem_zip]
        exact ClientMeta.similar_refl _
      rw [similarItems, Result.similar_refl, if_neg (not_not_intro rfl), if_pos hall]
      exact ih

theorem ReproEntry.similar_refl (repro : ReproEntry κ) : repro.similar repro = some true := by
  rw [similar, if_neg (not_not_intro rfl), if_neg (not_not_intro rfl)]
  exact similarItems_refl _

/-! ## Reproducers of one build

What `similar` looks at is the outline of a reproducer, and similar reproducers have one outline. So
the order of the files does not matter among them. -/

/-- What `similar` compares of a microarchitecture. -/
structure MicroarchitectureOutline where
  modelName : List Char
  numCores : Nat
  numSockets : Nat
  threadsPerCore : Nat
  flags : Finset (List Char)
  deriving DecidableEq

def Microarchitecture.outline (m : Microarchitecture) : MicroarchitectureOutline :=
  ⟨m.modelName.val, m.numCores, m.numSockets, m.threadsPerCore,
    (m.flags.map Subtype.val).toFinset⟩

/-- What `similar` compares of a result. -/
structure ResultOutline where
  signum : Nat
  siCode : Nat
  noRegs : Bool
  noDiffs : Option Bool
  deriving DecidableEq

def Result.outline (r : Result κ) : ResultOutline :=
  ⟨r.signum, r.siCode, r.regs.items.isEmpty, r.memDiffs.map List.isEmpty⟩

namespace ReproEntry

/-- What `similar` compares of an item. -/
def itemOutline (p : LenientResult κ × List ClientMeta) :
    ResultOutline × List MicroarchitectureOutline :=
  (p.1.toResult.outline, p.2.map fun m => m.microarchitecture.outline)

/-- What `similar` compares of a reproducer. -/
def outline (repro : ReproEntry κ) :
    Finset String × List (ResultOutline × List MicroarchitectureOutline) :=
  (repro.allDiffs true, repro.resultToClients.map itemOutline)

end ReproEntry

theorem ClientMeta.similar_iff {m m' : ClientMeta} :
    m.similar m' = true ↔ m.microarchitecture.outline = m'.microarchitecture.outline := by
  rw [ClientMeta.similar, Microarchitecture.eq_iff, Microarchitecture.outline,
    Microarchitecture.outline]
  simp only [MicroarchitectureOutline.mk.injEq]

theorem Result.similar_eq {x y : LenientResult κ} (hx : x.OfConfig c) (hy : y.OfConfig c) :
    x.toResult.similar y.toResult =
      some (decide (x.toResult.outline = y.toResult.outline)) := by
  unfold Result.similar Result.outline
  by_cases hsignum : x.signum = y.signum
  · -- with one signal, the two have memory changes together
    have hsome : x.memDiffs.isSome = y.memDiffs.isSome := by
      rw [hx.memDiffs_isSome, hy.memDiffs_isSome, hsignum]
    rw [if_neg (not_not_intro hsignum)]
    by_cases hcode : x.siCode = y.siCode
    · rw [if_neg (not_not_intro hcode)]
      by_cases hregs : x.regs.items.isEmpty = y.regs.items.isEmpty
      · rw [if_neg (not_not_intro hregs)]
        cases hdx : x.memDiffs with
        | none =>
            rw [hdx, Option.isSome_none, eq_comm, Option.isSome_eq_false_iff,
              Option.isNone_iff_eq_none] at hsome
            simp [hsignum, hcode, hregs, hsome]
        | some diffs =>
            rw [hdx, Option.isSome_some] at hsome
            obtain ⟨diffs', hdy⟩ := Option.isSome_iff_exists.mp hsome.symm
            simp [hsignum, hcode, hregs, hdy, Bool.beq_eq_decide_eq]
      · simp [hregs]
    · simp [hcode]
  · simp [hsignum]

theorem clients_similar_iff {l l' : List ClientMeta} :
    (l.length = l'.length ∧ (l.zip l').all (fun p => p.1.similar p.2) = true) ↔
      (l.map fun m => m.microarchitecture.outline) =
        l'.map fun m => m.microarchitecture.outline := by
  induction l generalizing l' with
  | nil => cases l' <;> simp
  | cons m l ih =>
      cases l' with
      | nil => simp
      | cons m' l' =>
          rw [List.length_cons, List.length_cons, List.zip_cons_cons, List.all_cons,
            List.map_cons, List.map_cons, List.cons.injEq, ← ih, Bool.and_eq_true,
            ClientMeta.similar_iff, Nat.add_right_cancel_iff]
          exact and_left_comm

namespace ReproEntry

theorem similarItems_eq {items items' : List (LenientResult κ × List ClientMeta)}
    (hlen : items.length = items'.length) (h : ∀ p ∈ items, p.1.OfConfig c)
    (h' : ∀ p ∈ items', p.1.OfConfig c) :
    similarItems items items' =
      some (decide (items.map itemOutline = items'.map itemOutline)) := by
  induction items generalizing items' with
  | nil =>
      obtain rfl := List.length_eq_zero_iff.mp hlen.symm
      rfl
  | cons p items ih =>
      cases items' with
      | nil => cases hlen
      | cons p' items' =>
          have hsimilar := Result.similar_eq (h p List.mem_cons_self) (h' p' List.mem_cons_self)
          have hrest := ih (Nat.succ.inj hlen) (fun q hq => h q (List.mem_cons_of_mem p hq))
            (fun q hq => h' q (List.mem_cons_of_mem p' hq))
          have hclients := @clients_similar_iff p.2 p'.2
          rw [similarItems, hsimilar, List.map_cons, List.map_cons]
          -- the results are looked at first, then the clients, and the others only if both are
          -- similar
          by_cases hres : p.1.toResult.outline = p'.1.toResult.outline
          · by_cases hlist : (p.2.map fun m => m.microarchitecture.outline) =
              p'.2.map fun m => m.microarchitecture.outline
            · obtain ⟨hcount, hall⟩ := hclients.mpr hlist
              have hitem : itemOutline p = itemOutline p' := Prod.ext hres hlist
              simp [hres, hcount, hall, hrest, hitem]
            · have hitem : itemOutline p ≠ itemOutline p' := fun heq =>
                hlist (congrArg Prod.snd heq)
              have hnot := mt hclients.mp hlist
              by_cases hcount : p.2.length = p'.2.length
              · have hall : ¬((p.2.zip p'.2).all fun q => q.1.similar q.2) = true := fun hall =>
                  hnot ⟨hcount, hall⟩
                simp [hres, hcount, hall, hitem]
              · simp [hres, hcount, hitem]
          · have hitem : itemOutline p ≠ itemOutline p' := fun heq => hres (congrArg Prod.fst heq)
            simp [hres, hitem]

theorem similar_eq {x y : ReproEntry κ} (hx : ∀ p ∈ x.resultToClients, p.1.OfConfig c)
    (hy : ∀ p ∈ y.resultToClients, p.1.OfConfig c) :
    x.similar y = some (decide (x.outline = y.outline)) := by
  unfold similar outline
  by_cases hlen : x.resultToClients.length = y.resultToClients.length
  · rw [if_neg (not_not_intro hlen)]
    by_cases hdiffs : x.allDiffs true = y.allDiffs true
    · rw [if_neg (not_not_intro hdiffs), similarItems_eq hlen hx hy]
      simp [hdiffs]
    · simp [hdiffs]
  · have hmap : x.resultToClients.map itemOutline ≠ y.resultToClients.map itemOutline := by
      intro heq
      have hlens := congrArg List.length heq
      rw [List.length_map, List.length_map] at hlens
      exact hlen hlens
    simp [hlen, hmap]

end ReproEntry

/-- A dictionary has only keys that were put in. -/
theorem exists_of_mem_dictOf {ρ β : Type} {same : ρ → ρ → Bool} {items : List (ρ × β)} {p : ρ × β}
    (h : p ∈ dictOf same items) : ∃ q ∈ items, q.1 = p.1 := by
  -- setting a key adds this key or none
  have hset : ∀ (key : ρ) (value : β) (d : List (ρ × β)), ∀ q ∈ setItem same key value d,
      q.1 = key ∨ ∃ q' ∈ d, q'.1 = q.1 := by
    intro key value d
    induction d with
    | nil =>
        intro q hq
        obtain rfl := List.mem_singleton.mp hq
        exact Or.inl rfl
    | cons r d ih =>
        intro q hq
        rw [setItem] at hq
        split at hq
        · rcases List.mem_cons.mp hq with rfl | hq
          · exact Or.inr ⟨r, List.mem_cons_self, rfl⟩
          · exact Or.inr ⟨q, List.mem_cons_of_mem r hq, rfl⟩
        · rcases List.mem_cons.mp hq with rfl | hq
          · exact Or.inr ⟨r, List.mem_cons_self, rfl⟩
          · rcases ih q hq with hkey | ⟨q', hq', heq⟩
            · exact Or.inl hkey
            · exact Or.inr ⟨q', List.mem_cons_of_mem r hq', heq⟩
  -- so all keys of the dictionary come from the list
  have hloop : ∀ (l d : List (ρ × β)),
      (∀ q ∈ d, ∃ q' ∈ items, q'.1 = q.1) → l ⊆ items →
      ∀ q ∈ l.foldl (fun d p => setItem same p.1 p.2 d) d, ∃ q' ∈ items, q'.1 = q.1 := by
    intro l
    induction l with
    | nil => exact fun d hd _ => hd
    | cons r l ih =>
        intro d hd hsub
        refine ih _ (fun q hq => ?_) fun q hq => hsub (List.mem_cons_of_mem r hq)
        rcases hset r.1 r.2 d q hq with hkey | ⟨q', hq', heq⟩
        · exact ⟨r, hsub List.mem_cons_self, hkey.symm⟩
        · obtain ⟨q'', hq'', heq'⟩ := hd q' hq'
          exact ⟨q'', hq'', heq'.trans heq⟩
  exact hloop items [] (List.forall_mem_nil _) (List.Subset.refl _) p h

/-- Loading keeps what the results of one build have in common. -/
theorem ReproDirectory.OfConfig.repros {hash : HashKey → Int} {d : ReproDirectory κ}
    (h : d.OfConfig c) {repro : ReproEntry κ} (hrepro : repro ∈ d.repros hash) :
    ∀ p ∈ repro.resultToClients, p.1.OfConfig c := by
  obtain ⟨path, hpath, hrepro⟩ := List.mem_filterMap.mp hrepro
  obtain ⟨body, hbody, rfl⟩ := Option.map_eq_some_iff.mp hrepro
  intro p hp
  obtain ⟨q, hq, hqp⟩ := exists_of_mem_dictOf hp
  obtain ⟨r, hr, rfl⟩ := List.mem_map.mp hq
  obtain ⟨s, hs, hsr⟩ := exists_of_mem_dictOf hr
  have hof := h path hpath body hbody s hs
  rw [hsr] at hof
  rw [← hqp]
  exact LenientResult.ofConfig_ofResult hof

/-- Similarity of the reproducers of one build is an equivalence. -/
theorem ReproDirectory.OfConfig.equivalenceOn {d : ReproDirectory κ} (h : d.OfConfig c)
    (hash : HashKey → Int) :
    EquivalenceOn ReproEntry.filteredOut ReproEntry.similar (d.repros hash) :=
  EquivalenceOn.of_key fun _ hx _ hy => ReproEntry.similar_eq (h.repros hx) (h.repros hy)

/-- The reproducers are sorted soundly exactly when there is no file that the flags of the first one
could not be read from, or that does not go with them, and similarity is an equivalence on those
that are kept and tells each of them from those that are filtered out. With results of one build,
similarity is an equivalence. -/
theorem sortsSoundly_iff (hash : HashKey → Int) (arch : Arch) :
    (∀ d : ReproDirectory κ, d.SortsSoundly hash arch ↔ d.Loads arch ∧
      EquivalenceOn ReproEntry.filteredOut ReproEntry.similar (d.repros hash) ∧
        Apart ReproEntry.filteredOut ReproEntry.similar (d.repros hash)) ∧
    ∀ (c : Config) (d : ReproDirectory κ), d.OfConfig c → (d.SortsSoundly hash arch ↔
      d.Loads arch ∧ Apart ReproEntry.filteredOut ReproEntry.similar (d.repros hash)) := by
  have hiff : ∀ d : ReproDirectory κ, d.SortsSoundly hash arch ↔ d.Loads arch ∧
      EquivalenceOn ReproEntry.filteredOut ReproEntry.similar (d.repros hash) ∧
        Apart ReproEntry.filteredOut ReproEntry.similar (d.repros hash) := by
    intro d
    have hpartitions := fun hloads : d.Loads arch =>
      (d.sortsSoundly_iff_partitions hash hloads).trans
      (partitions_iff ReproEntry.similar_refl (d.nodup_repros hash))
    constructor
    · intro h
      have hloads := d.loads_of_ends h.ends
      exact ⟨hloads, (hpartitions hloads).mp h⟩
    · rintro ⟨hloads, h⟩
      exact (hpartitions hloads).mpr h
  refine ⟨hiff, fun c d h => ?_⟩
  rw [hiff d]
  exact and_congr_right fun _ => and_iff_right (h.equivalenceOn hash)

/-! ## A reproducer that is filtered out comes first

It becomes the representative of `filtered-out`, where the next one then goes as well, although its
registers differ. -/

theorem rv64_oneLine : '\n' ∉ "rv64".toList := by decide

def ClientMeta.rv64 : ClientMeta where
  hostname := ⟨"lab".toList, by decide⟩
  numCpus := 4
  nCore := 0
  microarchitecture := ⟨0x710, ⟨"rv64".toList, rv64_oneLine⟩, 4, 1, 1, []⟩
  tags := []
  vecSize := none
  sveMaxSize := none
  smeMaxSize := none

/-- Two clients stop at an illegal instruction, at different places and with these values of
`ra`. -/
def sampleBody (value value' : Nat) : ReproBody String where
  fp := false
  vec := false
  results := [({ sampleResult SIGILL "ra" value "a" with siPc := 0x10000 }, [ClientMeta.rv64]),
    ({ sampleResult SIGILL "ra" value' "b" with siPc := 0x10004 }, [ClientMeta.rv64])]
  results_ne_nil := List.cons_ne_nil _ _
  clients_ne_nil := by
    intro p hp
    rcases List.mem_pair.mp hp with rfl | rfl
    · exact List.cons_ne_nil _ _
    · exact List.cons_ne_nil _ _

def ReproFile.ofValues (name : String) (value value' : Nat) : ReproFile String :=
  ⟨name, .document ⟨.riscv64, false, false, some (sampleBody value value')⟩⟩

/-- Of both reproducers the results differ in a register. -/
def ReproDirectory.registersDiffer : ReproDirectory String where
  files := [ReproFile.ofValues "first.yaml" 1 2, ReproFile.ofValues "second.yaml" 3 4]
  names_nodup := by simp [ReproFile.ofValues]

theorem registersDiffer_loads : ReproDirectory.registersDiffer.Loads .riscv64 where
  ne_nil := List.cons_ne_nil _ _
  files := by
    intro path hpath
    rcases List.mem_pair.mp hpath with rfl | rfl
    · exact ⟨_, _, rfl, rfl, rfl, fun _ _ _ _ => ⟨Bool.noConfusion, Bool.noConfusion⟩⟩
    · exact ⟨_, _, rfl, rfl, rfl, fun _ _ _ _ => ⟨Bool.noConfusion, Bool.noConfusion⟩⟩

theorem sortsSoundly_iff_registersDiffer :
    ReproDirectory.registersDiffer.SortsSoundly (fun key => key.1) .riscv64 := by
  refine ((sortsSoundly_iff (fun key => key.1) .riscv64).2 (plainBuild .riscv64)
    ReproDirectory.registersDiffer ?_).mpr ⟨registersDiffer_loads, ?_⟩
  · intro path hpath body hbody p hp
    rcases List.mem_pair.mp hpath with rfl | rfl
    · obtain rfl := Option.some.inj hbody
      rcases List.mem_pair.mp hp with rfl | rfl
      · exact ⟨rfl, fun h => by cases h⟩
      · exact ⟨rfl, fun h => by cases h⟩
    · obtain rfl := Option.some.inj hbody
      rcases List.mem_pair.mp hp with rfl | rfl
      · exact ⟨rfl, fun h => by cases h⟩
      · exact ⟨rfl, fun h => by cases h⟩
  · -- none of the two is filtered out
    have hkept : (ReproDirectory.registersDiffer.repros fun key => key.1).all
        (fun repro => !repro.filteredOut) = true := by
      decide +kernel
    intro x _ f hf _ hfiltered
    have hnot := List.all_eq_true.mp hkept f hf
    rw [hfiltered] at hnot
    cases hnot

/-- Of the first reproducer the results differ in `si_pc` alone, of the second also in a
register. -/
def ReproDirectory.signalFirst : ReproDirectory String where
  files := [ReproFile.ofValues "first.yaml" 1 1, ReproFile.ofValues "second.yaml" 1 2]
  names_nodup := by simp [ReproFile.ofValues]

/-- The second one is similar to the first. -/
theorem signalFirst_not_sortsSoundly :
    ¬ReproDirectory.signalFirst.SortsSoundly (fun key => key.1) .riscv64 := by
  intro h
  have hrun : (clusterReproducers (fun key => key.1) .riscv64
      ReproDirectory.signalFirst.files).map
      (fun s => s.filed.any fun p => p.2 == Name.special && !p.1.filteredOut) = some true := by
    decide +kernel
  obtain ⟨s, hs, hany⟩ := Option.map_eq_some_iff.mp hrun
  obtain ⟨⟨repro, name⟩, hmem, hbad⟩ := List.any_eq_true.mp hany
  rw [Bool.and_eq_true, beq_iff_eq, Bool.not_eq_true'] at hbad
  obtain ⟨rfl, hkept⟩ := hbad
  have hsub := h.sound _ s (List.Perm.refl _) hs repro hmem
  rw [ReproEntry.filteredOut_iff.mpr hsub] at hkept
  cases hkept

end RISCover
