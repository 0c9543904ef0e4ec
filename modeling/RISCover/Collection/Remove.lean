import RISCover.Collection.Index

/-!
# Removing instructions from a collection

`remove_instructions` notes the mnemonics as removed, deletes them from the dictionary one by one
and makes the index anew. A mnemonic that is not there stops it in between: what is noted, what is
left in the dictionary and what the index finds then are three different things. `__init__`, which
leaves such mnemonics out, builds consistent collections (`consistent_init`).
-/

namespace RISCover

/-- An `InstructionCollection`: the instructions with their index, and what is logged as removed. -/
structure IndexedCollection where
  maps : InstructionMaps
  removedInstructions : Finset String

namespace IndexedCollection

/-- `remove_instructions`; the error is the key of the `KeyError`. -/
def removeInstructions (self : IndexedCollection) (mnemonics : List String) :
    Except String Unit × IndexedCollection :=
  let removed := self.removedInstructions ∪ mnemonics.toFinset
  match self.maps.instructions.delEach mnemonics with
  | (.ok (), instructions) =>
    (.ok (), ⟨{ self.maps with instructions := instructions }.updateMaps, removed⟩)
  | (.error m, instructions) =>
    (.error m, ⟨{ self.maps with instructions := instructions }, removed⟩)

def disassemble (self : IndexedCollection) (instr : Nat) : Option (Option String) :=
  self.maps.disassemble instr

/-- The loop of `__init__` over the mnemonics to remove. -/
def initRemove : List String → Dict String InstructionEntry × Finset String →
    Dict String InstructionEntry × Finset String
  | [], s => s
  | i :: is, (instructions, removed) =>
    if i ∈ instructions.keys then initRemove is (instructions.erase i, insert i removed)
    else initRemove is (instructions, removed)

/-- The instructions of the extensions. -/
def ofExtensions (all : Dict String InstructionEntry) (extensions : List String) :
    Dict String InstructionEntry where
  items := all.items.filter fun p => p.2.extension.any fun ext => ext ∈ extensions
  nodup := all.nodup.sublist (List.filter_sublist.map Prod.fst)

/-- `RiscvInstructionCollection.__init__`; `none` is the assertion that no extension is a glob, or
the exception if no instructions are left. -/
def init (all : Dict String InstructionEntry) (extensions remove : List String) :
    Option IndexedCollection :=
  if extensions.all fun x => !x.toList.contains '*' then
    let (instructions, removed) := initRemove remove (ofExtensions all extensions, ∅)
    if instructions.items.length = 0 then none
    else
      let maps : InstructionMaps := ⟨instructions, 0, Dict.empty, Dict.empty⟩
      some ⟨maps.updateMaps, removed⟩
  else none

/-- `remove_instructions` of the generator, for `riscv64`. -/
def unstableInstructions : List String :=
  ["rdcycle", "rdtime", "rdinstret"] ++ ["ecall", "scall"] ++
    ["csrrw", "csrrc", "csrrwi", "csrrsi", "csrrci"] ++ ["fscsr", "frflags"]

/-! ## Consistency

What is found through the index is what the dictionary has, and nothing that was removed is still
there. -/

/-- The index finds the instructions of the dictionary, and no others. -/
def IndexAgrees (maps : InstructionMaps) : Prop :=
  ∀ word : UInt32, ∃ r, maps.disassemble word.toNat = some r ∧
    (r = none ↔ ∀ p ∈ maps.instructions.items, ¬p.2.combinedMask.Matches word.toNat) ∧
    ∀ i, r = some i → ∃ e, maps.instructions.get? i = some e ∧ e.combinedMask.Matches word.toNat

structure Consistent (coll : IndexedCollection) : Prop where
  index : IndexAgrees coll.maps
  removed : ∀ m ∈ coll.removedInstructions, m ∉ coll.maps.instructions.keys

theorem get?_updateMaps (maps : InstructionMaps) (m : String) :
    maps.updateMaps.instructions.get? m = maps.instructions.get? m := by
  have hperm := InstructionMaps.items_sortedInstructions_perm maps.instructions
  apply Option.ext
  intro e
  rw [← Dict.mem_items_iff, ← Dict.mem_items_iff]
  exact hperm.mem_iff

theorem indexAgrees_updateMaps (maps : InstructionMaps) : IndexAgrees maps.updateMaps := by
  intro word
  refine ⟨_, maps.disassemble_eq word, InstructionMaps.searchBucket_eq_none_iff, ?_⟩
  intro i hi
  obtain ⟨e, he, hmatch, -⟩ := InstructionMaps.best_of_searchBucket hi
  exact ⟨e, Dict.mem_items_iff.mp he, hmatch⟩

/-- What is not in the dictionary is not found. -/
theorem IndexAgrees.disassemble_ne {maps : InstructionMaps} (h : IndexAgrees maps) {m : String}
    (hm : maps.instructions.get? m = none) (word : UInt32) :
    maps.disassemble word.toNat ≠ some (some m) := by
  intro hfound
  obtain ⟨r, hr, -, hsome⟩ := h word
  obtain ⟨e, he, -⟩ := hsome m (Option.some.inj (hr.symm.trans hfound))
  rw [hm] at he
  cases he

/-! ## `__init__`

The loop notes only what it deletes, and the index is made behind it. -/

/-- What the loop has noted is not in the dictionary. -/
theorem initRemove_removed {is : List String} {s : Dict String InstructionEntry × Finset String}
    (h : ∀ m ∈ s.2, m ∉ s.1.keys) : ∀ m ∈ (initRemove is s).2, m ∉ (initRemove is s).1.keys := by
  induction is generalizing s with
  | nil => exact h
  | cons i is ih =>
      rw [initRemove]
      split
      next =>
        apply ih
        intro m hm hkey
        obtain ⟨hne, hmem⟩ := Dict.mem_keys_erase.mp hkey
        rcases Finset.mem_insert.mp hm with rfl | hs
        · exact hne rfl
        · exact h m hs hmem
      next => exact ih h

/-- A collection is the index of what the loop has left. -/
theorem eq_of_init {all : Dict String InstructionEntry} {extensions remove : List String}
    {self : IndexedCollection} (h : init all extensions remove = some self) :
    ∃ maps : InstructionMaps, self.maps = maps.updateMaps ∧
      (maps.instructions, self.removedInstructions) =
        initRemove remove (ofExtensions all extensions, ∅) := by
  unfold init at h
  split at h
  next =>
    split at h
    next instructions removed hloop =>
      split at h
      next => cases h
      next =>
        obtain rfl := Option.some.inj h
        exact ⟨_, rfl, hloop.symm⟩
  next => cases h

theorem consistent_init {all : Dict String InstructionEntry} {extensions remove : List String}
    {self : IndexedCollection} (h : init all extensions remove = some self) :
    self.Consistent := by
  obtain ⟨maps, hmaps, hloop⟩ := eq_of_init h
  have hremoved := @initRemove_removed remove (ofExtensions all extensions, ∅)
    fun m hm => absurd hm (Finset.notMem_empty m)
  rw [← hloop] at hremoved
  constructor
  case index =>
    rw [hmaps]
    exact indexAgrees_updateMaps maps
  case removed =>
    intro m hm hkey
    rw [hmaps, ← Dict.get?_ne_none_iff, get?_updateMaps, Dict.get?_ne_none_iff] at hkey
    exact hremoved m hm hkey

/-! ## `remove_instructions`

All mnemonics are noted in front, and the index is made at the end. A failing deletion in between
leaves the three apart. -/

variable {coll : IndexedCollection} {mnemonics : List String}

/-- All of the mnemonics are gone, and nothing else is. -/
structure RemovesAll (coll : IndexedCollection) (mnemonics : List String)
    (after : IndexedCollection) : Prop where
  instructions : ∀ m, after.maps.instructions.get? m =
    if m ∈ mnemonics then none else coll.maps.instructions.get? m
  removed : after.removedInstructions = coll.removedInstructions ∪ mnemonics.toFinset
  disassemble : ∀ m ∈ mnemonics, ∀ word : UInt32, after.disassemble word.toNat ≠ some (some m)
  consistent : coll.Consistent → after.Consistent

/-- Either all is removed or, with an error, nothing is changed. -/
def RemovesAtomically (coll : IndexedCollection) (mnemonics : List String) : Prop :=
  match coll.removeInstructions mnemonics with
  | (.ok (), after) => coll.RemovesAll mnemonics after
  | (.error _, after) => after = coll

theorem removesAll_of_ok (h : (coll.maps.instructions.delEach mnemonics).1 = .ok ()) :
    coll.RemovesAll mnemonics
      ⟨{ coll.maps with instructions := (coll.maps.instructions.delEach mnemonics).2 }.updateMaps,
        coll.removedInstructions ∪ mnemonics.toFinset⟩ := by
  have hget := Dict.get?_delEach h
  have hindex := indexAgrees_updateMaps
    { coll.maps with instructions := (coll.maps.instructions.delEach mnemonics).2 }
  refine ⟨?_, rfl, ?_, fun hcoll => ⟨hindex, ?_⟩⟩
  · intro m
    rw [get?_updateMaps]
    exact hget m
  · intro m hm word
    apply hindex.disassemble_ne
    rw [get?_updateMaps]
    exact (hget m).trans (if_pos hm)
  · intro m hm hkey
    rw [← Dict.get?_ne_none_iff, get?_updateMaps] at hkey
    apply hkey
    show (coll.maps.instructions.delEach mnemonics).2.get? m = none
    rw [hget m]
    split
    next => rfl
    -- what stays in the dictionary was not noted before either
    next hnot =>
      rcases Finset.mem_union.mp hm with hold | hnew
      · exact Dict.get?_eq_none_iff.mpr (hcoll.removed m hold)
      · exact absurd (List.mem_toFinset.mp hnew) hnot

theorem removeInstructions_of_ok (h : (coll.maps.instructions.delEach mnemonics).1 = .ok ()) :
    coll.removeInstructions mnemonics = (.ok (),
      ⟨{ coll.maps with instructions := (coll.maps.instructions.delEach mnemonics).2 }.updateMaps,
        coll.removedInstructions ∪ mnemonics.toFinset⟩) := by
  have hdel : coll.maps.instructions.delEach mnemonics =
      (.ok (), (coll.maps.instructions.delEach mnemonics).2) := Prod.ext h rfl
  rw [removeInstructions, hdel]

/-- A failing call has noted all of the mnemonics, and the index is the old one. -/
theorem removeInstructions_of_error {m : String}
    (h : (coll.maps.instructions.delEach mnemonics).1 = .error m) :
    coll.removeInstructions mnemonics = (.error m,
      ⟨{ coll.maps with instructions := (coll.maps.instructions.delEach mnemonics).2 },
        coll.removedInstructions ∪ mnemonics.toFinset⟩) := by
  have hdel : coll.maps.instructions.delEach mnemonics =
      (.error m, (coll.maps.instructions.delEach mnemonics).2) := Prod.ext h rfl
  rw [removeInstructions, hdel]

/-- A call that fails keeps the old index, whatever it has deleted. -/
theorem disassemble_of_error {m : String}
    (h : (coll.maps.instructions.delEach mnemonics).1 = .error m) (instr : Nat) :
    (coll.removeInstructions mnemonics).2.disassemble instr = coll.disassemble instr := by
  rw [removeInstructions_of_error h]
  rfl

/-- A call changes nothing but the two parts that the loop and the note write. -/
theorem failed_eq_iff (instructions : Dict String InstructionEntry) (removed : Finset String) :
    (⟨{ coll.maps with instructions := instructions }, removed⟩ : IndexedCollection) = coll ↔
      instructions = coll.maps.instructions ∧ removed = coll.removedInstructions := by
  obtain ⟨⟨_, _, _, _⟩, _⟩ := coll
  simp only [mk.injEq, InstructionMaps.mk.injEq, and_true]

theorem union_toFinset_eq_iff (removed : Finset String) :
    removed ∪ mnemonics.toFinset = removed ↔ ∀ m ∈ mnemonics, m ∈ removed := by
  rw [Finset.union_eq_left]
  exact ⟨fun h m hm => h (List.mem_toFinset.mpr hm), fun h m hm => h m (List.mem_toFinset.mp hm)⟩

/-- The instructions have to be there, each named once; or else the first has to be missing, and all
of them noted already. -/
theorem removesAtomically_iff (coll : IndexedCollection) (mnemonics : List String) :
    coll.RemovesAtomically mnemonics ↔
      (mnemonics.Nodup ∧ ∀ m ∈ mnemonics, m ∈ coll.maps.instructions.keys) ∨
        (∀ m ∈ mnemonics.head?, m ∉ coll.maps.instructions.keys) ∧
          ∀ m ∈ mnemonics, m ∈ coll.removedInstructions := by
  cases hdel : (coll.maps.instructions.delEach mnemonics).1 with
  | ok u =>
    have hall := (Dict.delEach_fst_eq_ok_iff _ _).mp hdel
    refine iff_of_true ?_ (Or.inl hall)
    rw [RemovesAtomically, removeInstructions_of_ok hdel]
    exact removesAll_of_ok hdel
  -- nothing has changed only if the first mnemonic was missing and all had been noted
  | error m =>
    have hnot : ¬(mnemonics.Nodup ∧ ∀ m ∈ mnemonics, m ∈ coll.maps.instructions.keys) := by
      intro hall
      have hok := (Dict.delEach_fst_eq_ok_iff _ _).mpr hall
      rw [hdel] at hok
      cases hok
    rw [or_iff_right hnot, RemovesAtomically, removeInstructions_of_error hdel]
    show _ = coll ↔ _
    rw [failed_eq_iff, union_toFinset_eq_iff]
    apply and_congr_left'
    cases mnemonics with
    | nil => cases hdel
    | cons k ks =>
      rw [Dict.delEach_snd_eq_iff]
      simp only [List.head?_cons, Option.mem_some_iff, forall_eq']

/-- The only instruction of a small collection. -/
def ecall : Dict String InstructionEntry :=
  ⟨[("ecall", ⟨⟨0xffffffff, 0x73, by decide⟩, ["rv_i"]⟩)], List.nodup_singleton _⟩

/-- The collection lacks the first mnemonic of the generator's list. -/
theorem not_removesAtomically_unstable : ∃ coll, init ecall ["rv_i"] [] = some coll ∧
    ¬coll.RemovesAtomically unstableInstructions := by
  refine ⟨_, rfl, fun h => ?_⟩
  let maps : InstructionMaps := ⟨ofExtensions ecall ["rv_i"], 0, Dict.empty, Dict.empty⟩
  have hmissing : "rdcycle" ∉ maps.updateMaps.instructions.keys := by
    rw [← Dict.get?_eq_none_iff, get?_updateMaps]
    rfl
  have hdel : (maps.updateMaps.instructions.delEach unstableInstructions).1 =
      .error "rdcycle" := by
    show (maps.updateMaps.instructions.delEach ("rdcycle" :: _)).1 = _
    rw [Dict.delEach, if_neg hmissing]
  unfold RemovesAtomically at h
  rw [@removeInstructions_of_error ⟨maps.updateMaps, ∅⟩ _ _ hdel] at h
  have hremoved : ∅ ∪ unstableInstructions.toFinset = ∅ := congrArg removedInstructions h
  rw [union_toFinset_eq_iff] at hremoved
  exact Finset.notMem_empty "rdcycle" (hremoved "rdcycle" List.mem_cons_self)

/-! ## Runs

Consistency is kept by every run of removals that are atomic. -/

/-- The collections that `__init__` builds, and that removals which are atomic leave. -/
inductive Reached : IndexedCollection → Prop
  | init {all : Dict String InstructionEntry} {extensions remove : List String}
      {coll : IndexedCollection} : init all extensions remove = some coll → Reached coll
  | remove {coll : IndexedCollection} {mnemonics : List String} : Reached coll →
      coll.RemovesAtomically mnemonics → Reached (coll.removeInstructions mnemonics).2

theorem Consistent.removeInstructions (h : coll.Consistent)
    (hatomic : coll.RemovesAtomically mnemonics) :
    (coll.removeInstructions mnemonics).2.Consistent := by
  unfold RemovesAtomically at hatomic
  split at hatomic
  next after heq =>
    rw [heq]
    exact hatomic.consistent h
  next e after heq =>
    rw [heq, hatomic]
    exact h

theorem Reached.consistent (h : Reached coll) : coll.Consistent := by
  induction h with
  | init hinit => exact consistent_init hinit
  | remove _ hatomic ih => exact ih.removeInstructions hatomic

end IndexedCollection

end RISCover
