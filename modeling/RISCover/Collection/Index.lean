import Mathlib.Data.List.Sort
import RISCover.Lib.BitIndex
import RISCover.Lib.Dict

/-!
# The index of `InstructionCollection`

`disassemble` does not search the whole collection. `update_maps` picks the eleven bits that the
fewest instructions leave open and files every instruction under each value these bits may have in
one of its words; `disassemble` looks at one bucket only. `disassemble_updateMaps` says that this
finds what a search through all instructions would find.
-/

open BitIndex

namespace RISCover

/-- A static field of an instruction: where it starts, which bits it has and their value. -/
structure StaticField where
  rangeStart : Nat
  mask : Nat
  value : Nat

/-- `combined_mask`: the static bits of an instruction and their value. -/
structure CombinedMask where
  mask : Nat
  value : Nat
  inside : mask &&& value = value

/-- `word & mask == value`. -/
def CombinedMask.Matches (c : CombinedMask) (word : Nat) : Prop := word &&& c.mask = c.value

/-- `gen_combined_mask`, which asserts that the value stays inside the mask. -/
def genCombinedMask (fields : List StaticField) : Option CombinedMask :=
  let mask := fields.foldl (fun mask f => mask ||| f.mask <<< f.rangeStart) 0
  let value := fields.foldl (fun value f => value ||| f.value <<< f.rangeStart) 0
  if h : mask &&& value = value then some ⟨mask, value, h⟩ else none

/-- Fields whose values stay inside their masks make an instruction whose value does. -/
theorem genCombinedMask_isSome {fields : List StaticField}
    (h : ∀ f ∈ fields, f.mask &&& f.value = f.value) : (genCombinedMask fields).isSome = true := by
  have hfold : ∀ mask value : Nat, mask &&& value = value →
      fields.foldl (fun mask f => mask ||| f.mask <<< f.rangeStart) mask &&&
          fields.foldl (fun value f => value ||| f.value <<< f.rangeStart) value =
        fields.foldl (fun value f => value ||| f.value <<< f.rangeStart) value := by
    induction fields with
    | nil => exact fun mask value hinside => hinside
    | cons f fields ih =>
        intro mask value hinside
        apply ih fun g hg => h g (List.mem_cons_of_mem f hg)
        have hf := h f List.mem_cons_self
        apply Nat.eq_of_testBit_eq
        intro i
        have hi := congrArg (fun n => n.testBit i) hinside
        have hfi := congrArg (fun n => n.testBit (i - f.rangeStart)) hf
        simp only [Nat.testBit_and, Nat.testBit_or, Nat.testBit_shiftLeft] at hi hfi ⊢
        grind
  have hinside := hfold 0 0 rfl
  rw [genCombinedMask, dif_pos hinside]
  rfl

theorem testBit_foldl_shiftLeft {α : Type} (mask start : α → Nat) (xs : List α) (n i : Nat) :
    (xs.foldl (fun n x => n ||| mask x <<< start x) n).testBit i = true ↔
      n.testBit i = true ∨ ∃ x ∈ xs, start x ≤ i ∧ (mask x).testBit (i - start x) = true := by
  induction xs generalizing n with
  | nil => simp
  | cons x xs ih =>
      rw [List.foldl_cons, ih, Nat.testBit_or, Bool.or_eq_true, Nat.testBit_shiftLeft,
        Bool.and_eq_true, decide_eq_true_iff, or_assoc, List.exists_mem_cons_iff]

/-- A bit of the combined mask is a bit of the mask of a field. -/
theorem testBit_mask_genCombinedMask {fields : List StaticField} {c : CombinedMask}
    (h : genCombinedMask fields = some c) {i : Nat} : c.mask.testBit i = true ↔
      ∃ f ∈ fields, f.rangeStart ≤ i ∧ f.mask.testBit (i - f.rangeStart) = true := by
  have hmask : c.mask = fields.foldl (fun mask f => mask ||| f.mask <<< f.rangeStart) 0 := by
    unfold genCombinedMask at h
    grind
  rw [hmask, testBit_foldl_shiftLeft StaticField.mask StaticField.rangeStart]
  simp

/-- What the collection keeps under a mnemonic. -/
structure InstructionEntry where
  combinedMask : CombinedMask
  extension : List String

/-- The buckets: bits, then mask, then value. -/
abbrev MaskMap := Dict Nat (Dict Nat (Dict Nat String))

structure InstructionMaps where
  instructions : Dict String InstructionEntry
  absMask : Nat
  maskMap : MaskMap
  instrPerExtension : Dict String (List String)

/-- `int.bit_count`. -/
def bitCount (n : Nat) : Nat := n.bits.count true

namespace InstructionMaps

/-! ## `update_maps`

The bits that the fewest instructions leave open are the key of the index. `generateCombinations`
lists the values that they can have. -/

/-- `dict(sorted(self.instructions.items()))`. -/
def sortedInstructions (instructions : Dict String InstructionEntry) :
    Dict String InstructionEntry :=
  (instructions.items.mergeSort fun p q => decide (p.1 ≤ q.1)).foldl
    (fun d p => d.set p.1 p.2) Dict.empty

/-- How many instructions leave the bit open. -/
def unusedSum (instructions : List (String × InstructionEntry)) (bit : Nat) : Nat :=
  instructions.countP fun p => (p.2.combinedMask.mask &&& 1 <<< bit) >>> bit == 0

/-- The eleven bits that the fewest instructions leave open. -/
def mostInterestingBits (instructions : List (String × InstructionEntry)) : List Nat :=
  ((List.range 32).mergeSort fun b b' =>
    decide (unusedSum instructions b ≤ unusedSum instructions b')).take 11

/-- All combinations of these bits set. -/
def generateCombinations (bits : List Nat) : List Nat := (powerset bits).map orBits

/-- The innermost loop: the instruction is filed under one combination. A value that is there
already is overwritten: the guard in front of the assertion is true of every mnemonic. -/
def fileUnder (absMask : Nat) (i : String) (c : CombinedMask) (maskMap : MaskMap) (comb : Nat) :
    MaskMap :=
  let comb := comb.ldiff c.mask
  let m := (c.value ||| comb) &&& absMask
  let d := (maskMap.get? m).getD Dict.empty
  let values := (d.get? c.mask).getD Dict.empty
  maskMap.set m (d.set c.mask (values.set c.value i))

/-- The loop over the instructions. -/
def fileAll (absMask : Nat) (combs : List Nat) (instructions : List (String × InstructionEntry)) :
    MaskMap :=
  instructions.foldl
    (fun maskMap p => combs.foldl (fileUnder absMask p.1 p.2.combinedMask) maskMap) Dict.empty

/-- `reversed(sorted(vv.items(), key=lambda item: item[0].bit_count()))`. -/
def sortMasks (d : Dict Nat (Dict Nat String)) : Dict Nat (Dict Nat String) :=
  (d.items.mergeSort fun p q => decide (bitCount p.1 ≤ bitCount q.1)).reverse.foldl
    (fun d p => d.set p.1 p.2) Dict.empty

def sortMaskMap (maskMap : MaskMap) : MaskMap :=
  (maskMap.items.map fun p => (p.1, sortMasks p.2)).foldl (fun d p => d.set p.1 p.2) Dict.empty

/-- The mnemonics of each extension. -/
def groupExtensions (instructions : List (String × InstructionEntry)) :
    Dict String (List String) :=
  instructions.foldl (fun d p => p.2.extension.foldl
    (fun d ext => d.set ext ((d.get? ext).getD [] ++ [p.1])) d) Dict.empty

/-- `update_maps` without the weights. -/
def updateMaps (self : InstructionMaps) : InstructionMaps :=
  let instructions := sortedInstructions self.instructions
  let bits := mostInterestingBits instructions.items
  let absMask := orBits bits
  { instructions := instructions
    absMask := absMask
    maskMap := sortMaskMap (fileAll absMask (generateCombinations bits) instructions.items)
    instrPerExtension := groupExtensions instructions.items }

/-- `disassemble`; `none` is the failing assertion. -/
def disassemble (self : InstructionMaps) (instr : Nat) : Option (Option String) :=
  if instr < 2 ^ 32 then
    match self.maskMap.get? (instr &&& self.absMask) with
    | none => some none
    | some masks => some (masks.items.findSome? fun p => p.2.get? (instr &&& p.1))
  else none

/-! ## Sorting keeps the items -/

theorem items_sortedInstructions_perm (instructions : Dict String InstructionEntry) :
    (sortedInstructions instructions).items.Perm instructions.items := by
  have hperm := List.mergeSort_perm instructions.items fun p q => decide (p.1 ≤ q.1)
  rw [sortedInstructions, Dict.items_foldl_set]
  · exact hperm
  · exact (hperm.map Prod.fst).nodup_iff.mpr instructions.nodup

theorem items_sortMasks (d : Dict Nat (Dict Nat String)) :
    (sortMasks d).items =
      (d.items.mergeSort fun p q => decide (bitCount p.1 ≤ bitCount q.1)).reverse := by
  rw [sortMasks, Dict.items_foldl_set]
  have hperm := (List.reverse_perm _).trans
    (List.mergeSort_perm d.items fun p q => decide (bitCount p.1 ≤ bitCount q.1))
  exact (hperm.map Prod.fst).nodup_iff.mpr d.nodup

theorem mem_sortMasks {d : Dict Nat (Dict Nat String)} {p : Nat × Dict Nat String} :
    p ∈ (sortMasks d).items ↔ p ∈ d.items := by
  rw [items_sortMasks, List.mem_reverse, List.mem_mergeSort]

/-- The masks with the most bits come first. -/
theorem pairwise_sortMasks (d : Dict Nat (Dict Nat String)) :
    (sortMasks d).items.Pairwise fun p q => bitCount q.1 ≤ bitCount p.1 := by
  rw [items_sortMasks, List.pairwise_reverse]
  have hsorted := @List.pairwise_mergeSort _
    (fun p q : Nat × Dict Nat String => decide (bitCount p.1 ≤ bitCount q.1))
    (fun p q r hpq hqr => by grind) (fun p q => by grind) d.items
  exact hsorted.imp fun h => of_decide_eq_true h

theorem get?_sortMaskMap (maskMap : MaskMap) (m : Nat) :
    (sortMaskMap maskMap).get? m = (maskMap.get? m).map sortMasks := by
  have hitems : (sortMaskMap maskMap).items = maskMap.items.map fun p => (p.1, sortMasks p.2) := by
    rw [sortMaskMap, Dict.items_foldl_set]
    rw [List.map_map]
    exact maskMap.nodup
  apply Option.ext
  intro d
  rw [← Dict.mem_items_iff, hitems, Option.map_eq_some_iff]
  simp only [← Dict.mem_items_iff]
  grind

/-! ## What is filed where

An instruction is filed under every value that the key can have in one of its words. What is found
in the index is an instruction of the collection, and an instruction that fits a word is found under
the key of the word. -/

/-- `self.mask_map[m][mask][value]`. -/
def lookup (maskMap : MaskMap) (key : Nat × Nat × Nat) : Option String :=
  ((maskMap.get? key.1).bind fun d => d.get? key.2.1).bind fun values => values.get? key.2.2

/-- Where an instruction is filed for one combination. -/
def fileKey (absMask : Nat) (c : CombinedMask) (comb : Nat) : Nat × Nat × Nat :=
  ((c.value ||| comb.ldiff c.mask) &&& absMask, c.mask, c.value)

theorem lookup_fileUnder (absMask : Nat) (i : String) (c : CombinedMask) (maskMap : MaskMap)
    (comb : Nat) (key : Nat × Nat × Nat) :
    lookup (fileUnder absMask i c maskMap comb) key =
      if key = fileKey absMask c comb then some i else lookup maskMap key := by
  obtain ⟨m, mask, value⟩ := key
  simp only [lookup, fileUnder, fileKey, Dict.get?_set, Prod.mk.injEq]
  by_cases hm : m = (c.value ||| comb.ldiff c.mask) &&& absMask
  · subst hm
    by_cases hmask : mask = c.mask
    · subst hmask
      by_cases hvalue : value = c.value
      · simp [hvalue, Dict.get?_set]
      · cases hd : maskMap.get? ((c.value ||| comb.ldiff c.mask) &&& absMask) with
        | none => simp [Dict.get?_set, hvalue, Dict.get?_empty]
        | some d =>
            cases hvalues : d.get? c.mask <;>
              simp [Dict.get?_set, hvalue, hvalues, Dict.get?_empty]
    · cases hd : maskMap.get? ((c.value ||| comb.ldiff c.mask) &&& absMask) <;>
        simp [Dict.get?_set, hmask, Dict.get?_empty]
  · simp [hm]

/-- The two loops are one over all instructions and combinations. -/
theorem fileAll_eq (absMask : Nat) (combs : List Nat)
    (instructions : List (String × InstructionEntry)) :
    fileAll absMask combs instructions =
      (instructions.flatMap fun p => combs.map fun comb => (p, comb)).foldl
        (fun maskMap x => fileUnder absMask x.1.1 x.1.2.combinedMask maskMap x.2) Dict.empty := by
  rw [fileAll, List.foldl_flatMap]
  simp only [List.foldl_map]

section filed

variable {absMask : Nat} {combs : List Nat} {instructions : List (String × InstructionEntry)}

/-- Only instructions of the collection are found, each under its own mask and value. -/
theorem exists_of_lookup_fileAll {m mask value : Nat} {i : String}
    (h : lookup (fileAll absMask combs instructions) (m, mask, value) = some i) :
    ∃ e, (i, e) ∈ instructions ∧ e.combinedMask.mask = mask ∧ e.combinedMask.value = value := by
  rw [fileAll_eq] at h
  rcases Dict.exists_of_look_foldl (fun s x key => lookup_fileUnder absMask x.1.1
    x.1.2.combinedMask s x.2 key) h with ⟨⟨⟨j, e⟩, comb⟩, hx, hkey, rfl⟩ | hempty
  · obtain ⟨p, hp, hcomb⟩ := List.mem_flatMap.mp hx
    obtain ⟨_, _, heq⟩ := List.mem_map.mp hcomb
    obtain ⟨rfl, -⟩ := Prod.mk.inj heq
    simp only [fileKey, Prod.mk.injEq] at hkey
    exact ⟨e, hp, hkey.2⟩
  · rw [lookup, Dict.get?_empty] at hempty
    cases hempty

/-- Something is found wherever an instruction was filed. -/
theorem lookup_fileAll_ne_none {p : String × InstructionEntry} (hp : p ∈ instructions) {comb : Nat}
    (hcomb : comb ∈ combs) :
    lookup (fileAll absMask combs instructions) (fileKey absMask p.2.combinedMask comb) ≠ none := by
  rw [fileAll_eq]
  apply Dict.look_foldl_ne_none (fun s x key => lookup_fileUnder absMask x.1.1
    x.1.2.combinedMask s x.2 key)
  exact Or.inl ⟨(p, comb), List.mem_flatMap.mpr ⟨p, hp, List.mem_map_of_mem hcomb⟩, rfl⟩

end filed

/-! ## `disassemble`

The search goes through one bucket, from the mask with the most bits on. Its first hit is the best
one, as a better instruction would stand in the same bucket. -/

section search

variable {bits : List Nat} {instructions : List (String × InstructionEntry)} {word : Nat}

/-- An instruction that a word matches is filed in the word's bucket. -/
theorem lookup_of_matches {p : String × InstructionEntry} (hp : p ∈ instructions)
    (h : p.2.combinedMask.Matches word) :
    lookup (fileAll (orBits bits) (generateCombinations bits) instructions)
      (word &&& orBits bits, p.2.combinedMask.mask, p.2.combinedMask.value) ≠ none := by
  obtain ⟨s, hs, hcomb⟩ := exists_combination bits word
  have hmem : word &&& orBits bits ∈ generateCombinations bits := List.mem_map.mpr ⟨s, hs, hcomb⟩
  have hfiled : lookup (fileAll (orBits bits) (generateCombinations bits) instructions)
      (fileKey (orBits bits) p.2.combinedMask (word &&& orBits bits)) ≠ none :=
    lookup_fileAll_ne_none hp hmem
  rwa [fileKey, key_of_match h] at hfiled

/-- The search of `disassemble` through the bucket of a word. -/
def searchBucket (maskMap : MaskMap) (key word : Nat) : Option String :=
  ((maskMap.get? key).map sortMasks).bind fun masks =>
    masks.items.findSome? fun p => p.2.get? (word &&& p.1)

/-- A hit for every mask that has one in the bucket. -/
theorem exists_hit {maskMap : MaskMap} {key mask value : Nat} {masks : Dict Nat (Dict Nat String)}
    (hmasks : maskMap.get? key = some masks) (hlookup : lookup maskMap (key, mask, value) ≠ none)
    (hvalue : word &&& mask = value) :
    ∃ values, (mask, values) ∈ (sortMasks masks).items ∧ values.get? (word &&& mask) ≠ none := by
  rw [lookup, hmasks, Option.bind_some] at hlookup
  cases hvalues : masks.get? mask with
  | none => rw [hvalues] at hlookup; exact absurd rfl hlookup
  | some values =>
      rw [hvalues, Option.bind_some] at hlookup
      exact ⟨values, mem_sortMasks.mpr (Dict.mem_items_iff.mpr hvalues), hvalue ▸ hlookup⟩

theorem searchBucket_ne_none {p : String × InstructionEntry} (hp : p ∈ instructions)
    (h : p.2.combinedMask.Matches word) :
    searchBucket (fileAll (orBits bits) (generateCombinations bits) instructions)
      (word &&& orBits bits) word ≠ none := by
  have hlookup : lookup (fileAll (orBits bits) (generateCombinations bits) instructions)
      (word &&& orBits bits, p.2.combinedMask.mask, p.2.combinedMask.value) ≠ none :=
    lookup_of_matches hp h
  cases hmasks : (fileAll (orBits bits) (generateCombinations bits) instructions).get?
      (word &&& orBits bits) with
  | none => rw [lookup, hmasks] at hlookup; exact absurd rfl hlookup
  | some masks =>
      obtain ⟨values, hmem, hhit⟩ := exists_hit hmasks hlookup h
      rw [searchBucket, hmasks, Option.map_some, Option.bind_some]
      intro hnone
      exact hhit (List.findSome?_eq_none_iff.mp hnone _ hmem)

/-- What the bucket answers is a match, and no match has a mask with more bits. -/
theorem best_of_searchBucket {i : String}
    (h : searchBucket (fileAll (orBits bits) (generateCombinations bits) instructions)
      (word &&& orBits bits) word = some i) :
    ∃ e, (i, e) ∈ instructions ∧ e.combinedMask.Matches word ∧
      ∀ p ∈ instructions, p.2.combinedMask.Matches word →
        bitCount p.2.combinedMask.mask ≤ bitCount e.combinedMask.mask := by
  rw [searchBucket] at h
  cases hmasks : (fileAll (orBits bits) (generateCombinations bits) instructions).get?
      (word &&& orBits bits) with
  | none => rw [hmasks] at h; cases h
  | some masks =>
      rw [hmasks, Option.map_some, Option.bind_some] at h
      obtain ⟨⟨mask, values⟩, hmem, hhit, hbest⟩ := findSome?_best (pairwise_sortMasks masks) h
      have hlookup : lookup (fileAll (orBits bits) (generateCombinations bits) instructions)
          (word &&& orBits bits, mask, word &&& mask) = some i := by
        rw [lookup, hmasks, Option.bind_some, Dict.mem_items_iff.mp (mem_sortMasks.mp hmem)]
        exact hhit
      obtain ⟨e, he, rfl, hvalue⟩ := exists_of_lookup_fileAll hlookup
      refine ⟨e, he, hvalue.symm, ?_⟩
      intro p hp hmatch
      obtain ⟨values', hmem', hhit'⟩ := exists_hit hmasks (lookup_of_matches hp hmatch) hmatch
      exact hbest _ hmem' hhit'

/-- Nothing is found exactly if nothing matches. -/
theorem searchBucket_eq_none_iff :
    searchBucket (fileAll (orBits bits) (generateCombinations bits) instructions)
        (word &&& orBits bits) word = none ↔
      ∀ p ∈ instructions, ¬p.2.combinedMask.Matches word := by
  constructor
  · intro hnone p hp hmatch
    exact searchBucket_ne_none hp hmatch hnone
  · intro hno
    cases hfind : searchBucket (fileAll (orBits bits) (generateCombinations bits) instructions)
        (word &&& orBits bits) word with
    | none => rfl
    | some i =>
        obtain ⟨e, he, hmatch, -⟩ := best_of_searchBucket hfind
        exact absurd hmatch (hno _ he)

end search

/-- After `update_maps` the assertion holds and the bucket is searched. -/
theorem disassemble_eq (self : InstructionMaps) (word : UInt32) :
    self.updateMaps.disassemble word.toNat =
      some (searchBucket
        (fileAll (orBits (mostInterestingBits (sortedInstructions self.instructions).items))
          (generateCombinations (mostInterestingBits (sortedInstructions self.instructions).items))
          (sortedInstructions self.instructions).items)
        (word.toNat &&& orBits (mostInterestingBits (sortedInstructions self.instructions).items))
        word.toNat) := by
  rw [disassemble, if_pos word.toNat_lt, updateMaps]
  simp only [get?_sortMaskMap, searchBucket]
  cases (fileAll (orBits (mostInterestingBits (sortedInstructions self.instructions).items))
    (generateCombinations (mostInterestingBits (sortedInstructions self.instructions).items))
    (sortedInstructions self.instructions).items).get? _ <;> rfl

/-- Some instruction is found for a word that one matches. -/
theorem exists_disassemble_of_matches {self : InstructionMaps} {p : String × InstructionEntry}
    (hp : p ∈ self.instructions.items) {word : Nat} (hlt : word < 2 ^ 32)
    (h : p.2.combinedMask.Matches word) :
    ∃ i, self.updateMaps.disassemble word = some (some i) := by
  have hword : (UInt32.ofNat word).toNat = word := UInt32.toNat_ofNat_of_lt' hlt
  have hperm := items_sortedInstructions_perm self.instructions
  have heq := disassemble_eq self (UInt32.ofNat word)
  rw [hword] at heq
  obtain ⟨i, hi⟩ := Option.ne_none_iff_exists'.mp
    (searchBucket_ne_none (hperm.mem_iff.mpr hp) h)
  exact ⟨i, heq.trans (congrArg some hi)⟩

/-- `disassemble` answers what a plain search for a match with the largest mask may answer. -/
theorem disassemble_updateMaps (self : InstructionMaps) (word : UInt32) :
    ∃ r, self.updateMaps.disassemble word.toNat = some r ∧
      (r = none ↔
        ∀ p ∈ self.instructions.items, ¬p.2.combinedMask.Matches word.toNat) ∧
      ∀ i, r = some i → ∃ e, self.instructions.get? i = some e ∧
        e.combinedMask.Matches word.toNat ∧
        ∀ p ∈ self.instructions.items, p.2.combinedMask.Matches word.toNat →
          bitCount p.2.combinedMask.mask ≤ bitCount e.combinedMask.mask := by
  have hperm := items_sortedInstructions_perm self.instructions
  refine ⟨_, disassemble_eq self word, ?_, ?_⟩
  · rw [searchBucket_eq_none_iff]
    exact ⟨fun h p hp => h p (hperm.mem_iff.mpr hp), fun h p hp => h p (hperm.mem_iff.mp hp)⟩
  · intro i hi
    obtain ⟨e, he, hmatch, hbest⟩ := best_of_searchBucket hi
    exact ⟨e, Dict.mem_items_iff.mp (hperm.mem_iff.mp he), hmatch,
      fun p hp => hbest p (hperm.mem_iff.mpr hp)⟩

end InstructionMaps

end RISCover
