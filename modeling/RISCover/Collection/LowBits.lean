import RISCover.Collection.Index
import RISCover.Lib.StableSort

/-!
# Words with the same lower half

An instruction of two bytes is looked up with the two bytes that follow it. The bucket of the word
depends on these, but not the order of the masks in it that lie in the lower half
(`restrict_bucket`), and for a word of a compressed instruction no other mask is a hit. So the
answer is the one for the instruction alone (`disassemble_congr`).
-/

open BitIndex

namespace RISCover

/-- The lowest two bits are static and set, as they are in instructions of four bytes. -/
def CombinedMask.FourBytes (c : CombinedMask) : Prop := c.mask &&& 3 = 3 ∧ c.value &&& 3 = 3

namespace InstructionMaps

/-! ## One bucket

What a loop over all instructions leaves in one bucket, as a loop that looks at this bucket alone.
-/

def bucket (maskMap : MaskMap) (key : Nat) : Dict Nat (Dict Nat String) :=
  (maskMap.get? key).getD Dict.empty

/-- What an instruction adds to a bucket. -/
def addTo (p : String × InstructionEntry) (d : Dict Nat (Dict Nat String)) :
    Dict Nat (Dict Nat String) :=
  d.set p.2.combinedMask.mask
    (((d.get? p.2.combinedMask.mask).getD Dict.empty).set p.2.combinedMask.value p.1)

theorem addTo_addTo (p : String × InstructionEntry) (d : Dict Nat (Dict Nat String)) :
    addTo p (addTo p d) = addTo p d := by
  have hget : (addTo p d).get? p.2.combinedMask.mask =
      some (((d.get? p.2.combinedMask.mask).getD Dict.empty).set p.2.combinedMask.value p.1) := by
    rw [addTo, Dict.get?_set, if_pos rfl]
  rw [addTo, hget, Option.getD_some, Dict.set_set, addTo, Dict.set_set]

variable {absMask key : Nat}

theorem bucket_fileUnder (p : String × InstructionEntry) (maskMap : MaskMap) (comb : Nat) :
    bucket (fileUnder absMask p.1 p.2.combinedMask maskMap comb) key =
      if key = (fileKey absMask p.2.combinedMask comb).1 then addTo p (bucket maskMap key)
      else bucket maskMap key := by
  have hset : fileUnder absMask p.1 p.2.combinedMask maskMap comb =
      maskMap.set (fileKey absMask p.2.combinedMask comb).1
        (addTo p (bucket maskMap (fileKey absMask p.2.combinedMask comb).1)) := rfl
  rw [hset, bucket, Dict.get?_set]
  split
  next heq =>
    rw [heq]
    rfl
  next => rfl

/-- All combinations of an instruction add it once, if one of them leads to the bucket. -/
theorem bucket_foldl_fileUnder (p : String × InstructionEntry) (combs : List Nat)
    (maskMap : MaskMap) :
    bucket (combs.foldl (fileUnder absMask p.1 p.2.combinedMask) maskMap) key =
      if ∃ comb ∈ combs, key = (fileKey absMask p.2.combinedMask comb).1 then
        addTo p (bucket maskMap key)
      else bucket maskMap key := by
  induction combs generalizing maskMap with
  | nil => rw [if_neg fun h => absurd h.choose_spec.1 List.not_mem_nil, List.foldl_nil]
  | cons comb combs ih =>
      rw [List.foldl_cons, ih, bucket_fileUnder]
      by_cases hkey : key = (fileKey absMask p.2.combinedMask comb).1
      · rw [if_pos hkey, addTo_addTo, ite_self, if_pos ⟨comb, List.mem_cons_self, hkey⟩]
      · rw [if_neg hkey]
        apply if_congr _ rfl rfl
        rw [List.exists_mem_cons_iff, or_iff_right hkey]

/-! ## The bucket of a word

Words with one lower half have different buckets, but the buckets agree on the masks that lie in the
lower half. -/

variable {bits : List Nat} {word word' : Nat}

/-- An instruction is in the buckets that agree with its value. -/
theorem exists_fileKey_iff (c : CombinedMask) :
    (∃ comb ∈ generateCombinations bits, word &&& orBits bits = (fileKey (orBits bits) c comb).1) ↔
      word &&& orBits bits &&& c.mask = c.value &&& orBits bits := by
  have hinside := fun i => congrArg (fun n => n.testBit i) c.inside
  simp only [Nat.testBit_and] at hinside
  constructor
  · rintro ⟨comb, -, hkey⟩
    rw [hkey, fileKey]
    apply Nat.eq_of_testBit_eq
    intro i
    have hi := hinside i
    simp only [Nat.testBit_and, Nat.testBit_or, Nat.testBit_ldiff]
    grind
  · intro hagree
    obtain ⟨s, hs, hcomb⟩ := exists_combination bits word
    refine ⟨word &&& orBits bits, List.mem_map.mpr ⟨s, hs, hcomb⟩, ?_⟩
    rw [fileKey]
    apply Nat.eq_of_testBit_eq
    intro i
    have hi := congrArg (fun n => n.testBit i) hagree
    simp only [Nat.testBit_and, Nat.testBit_or, Nat.testBit_ldiff] at hi ⊢
    grind

theorem bucket_fileAll (instructions : List (String × InstructionEntry)) :
    bucket (fileAll (orBits bits) (generateCombinations bits) instructions)
        (word &&& orBits bits) =
      instructions.foldl (fun d p =>
        if word &&& orBits bits &&& p.2.combinedMask.mask = p.2.combinedMask.value &&& orBits bits
        then addTo p d else d) Dict.empty := by
  have hfold : ∀ maskMap : MaskMap,
      bucket (instructions.foldl (fun maskMap p => (generateCombinations bits).foldl
        (fileUnder (orBits bits) p.1 p.2.combinedMask) maskMap) maskMap) (word &&& orBits bits) =
      instructions.foldl (fun d p =>
        if word &&& orBits bits &&& p.2.combinedMask.mask = p.2.combinedMask.value &&& orBits bits
        then addTo p d else d) (bucket maskMap (word &&& orBits bits)) := by
    induction instructions with
    | nil => exact fun _ => rfl
    | cons p instructions ih =>
        intro maskMap
        rw [List.foldl_cons, List.foldl_cons, ih, bucket_foldl_fileUnder]
        congr 1
        exact if_congr (exists_fileKey_iff p.2.combinedMask) rfl rfl
  exact hfold Dict.empty

/-- The masks in the lower half. -/
def isLow (mask : Nat) : Bool := mask < 2 ^ 16

/-- Words that agree below the mask's length agree under the mask. -/
theorem and_mask_congr {mask : Nat} (hword : word % 2 ^ 16 = word' % 2 ^ 16)
    (hmask : mask < 2 ^ 16) : word &&& mask = word' &&& mask := by
  have hmod : ∀ n, n &&& mask = n % 2 ^ 16 &&& mask := by
    intro n
    have hlt : n &&& mask < 2 ^ 16 := Nat.and_lt_two_pow n hmask
    rw [← Nat.mod_eq_of_lt hlt, Nat.and_mod_two_pow, Nat.mod_eq_of_lt hmask]
  rw [hmod word, hmod word', hword]

/-- Masks of the lower half are added to the part of the bucket that holds these. -/
theorem restrict_addTo (p : String × InstructionEntry) (d : Dict Nat (Dict Nat String)) :
    (addTo p d).restrict isLow =
      if isLow p.2.combinedMask.mask then addTo p (d.restrict isLow) else d.restrict isLow := by
  split
  next hlow => rw [addTo, Dict.restrict_set_of_true hlow, addTo, Dict.get?_restrict hlow]
  next hhigh => rw [addTo, Dict.restrict_set_of_false (Bool.eq_false_iff.mpr hhigh)]

theorem restrict_bucket (instructions : List (String × InstructionEntry))
    (hword : word % 2 ^ 16 = word' % 2 ^ 16) :
    (bucket (fileAll (orBits bits) (generateCombinations bits) instructions)
        (word &&& orBits bits)).restrict isLow =
      (bucket (fileAll (orBits bits) (generateCombinations bits) instructions)
        (word' &&& orBits bits)).restrict isLow := by
  rw [bucket_fileAll, bucket_fileAll]
  -- both buckets are filled side by side, and agree on the low masks throughout
  have hfold : ∀ d d' : Dict Nat (Dict Nat String), d.restrict isLow = d'.restrict isLow →
      (instructions.foldl (fun d p =>
        if word &&& orBits bits &&& p.2.combinedMask.mask = p.2.combinedMask.value &&& orBits bits
        then addTo p d else d) d).restrict isLow =
      (instructions.foldl (fun d p =>
        if word' &&& orBits bits &&& p.2.combinedMask.mask = p.2.combinedMask.value &&& orBits bits
        then addTo p d else d) d').restrict isLow := by
    induction instructions with
    | nil => exact fun _ _ h => h
    | cons p instructions ih =>
        intro d d' h
        rw [List.foldl_cons, List.foldl_cons]
        apply ih
        by_cases hlow : isLow p.2.combinedMask.mask = true
        · have hkeys : (word &&& orBits bits) % 2 ^ 16 = (word' &&& orBits bits) % 2 ^ 16 := by
            rw [Nat.and_mod_two_pow, Nat.and_mod_two_pow, hword]
          rw [and_mask_congr hkeys (of_decide_eq_true hlow)]
          split
          next => rw [restrict_addTo, restrict_addTo, if_pos hlow, if_pos hlow, h]
          next => exact h
        · -- an instruction with another mask does not show
          have hsame : ∀ (q : Prop) [Decidable q] (e : Dict Nat (Dict Nat String)),
              (if q then addTo p e else e).restrict isLow = e.restrict isLow := by
            intro q _ e
            split
            next => rw [restrict_addTo, if_neg hlow]
            next => rfl
          rw [hsame, hsame, h]
  exact hfold Dict.empty Dict.empty rfl

/-! ## The search

A mask that reaches beyond the lower half asks for a word of four bytes, so it is no hit for a
compressed one. -/

theorem searchBucket_eq (maskMap : MaskMap) (key word : Nat) :
    searchBucket maskMap key word =
      (sortMasks (bucket maskMap key)).items.findSome? fun p => p.2.get? (word &&& p.1) := by
  rw [searchBucket, bucket]
  cases maskMap.get? key with
  | none =>
    show none = (sortMasks Dict.empty).items.findSome? _
    rw [items_sortMasks]
    show none = ([].mergeSort _).reverse.findSome? _
    rw [List.mergeSort_nil]
    rfl
  | some masks => rfl

variable {instructions : List (String × InstructionEntry)}

/-- Masks of the upper half belong to instructions of four bytes, and so are no hit. -/
theorem get?_eq_none_of_not_isLow
    (hriscv : ∀ p ∈ instructions,
      p.2.combinedMask.mask < 2 ^ 16 ∨ p.2.combinedMask.FourBytes)
    (hword : word &&& 3 ≠ 3) {p : Nat × Dict Nat String}
    (hp : p ∈ (bucket (fileAll (orBits bits) (generateCombinations bits) instructions) key).items)
    (hhigh : isLow p.1 = false) : p.2.get? (word &&& p.1) = none := by
  -- a hit would be an instruction of four bytes
  by_contra hhit
  obtain ⟨i, hi⟩ := Option.ne_none_iff_exists'.mp hhit
  have hlookup : lookup (fileAll (orBits bits) (generateCombinations bits) instructions)
      (key, p.1, word &&& p.1) = some i := by
    have hget := Dict.mem_items_iff.mp hp
    rw [lookup]
    rw [bucket] at hget
    cases hbucket : (fileAll (orBits bits) (generateCombinations bits) instructions).get? key with
    | none =>
      rw [hbucket] at hget
      cases hget
    | some d =>
      rw [hbucket, Option.getD_some] at hget
      rw [Option.bind_some, hget]
      exact hi
  obtain ⟨e, he, hmask, hvalue⟩ := exists_of_lookup_fileAll hlookup
  rcases hriscv _ he with hlow | hfour
  · rw [hmask] at hlow
    exact absurd (decide_eq_true hlow) (Bool.eq_false_iff.mp hhigh)
  · have hthree : word &&& 3 = 3 := by
      have hand : word &&& p.1 &&& 3 = 3 := by
        rw [← hvalue]
        exact hfour.2
      rw [Nat.and_assoc, ← hmask, hfour.1] at hand
      exact hand
    exact hword hthree

theorem searchBucket_congr
    (hriscv : ∀ p ∈ instructions,
      p.2.combinedMask.mask < 2 ^ 16 ∨ p.2.combinedMask.FourBytes)
    (hword : word % 2 ^ 16 = word' % 2 ^ 16) (hcompressed : word &&& 3 ≠ 3) :
    searchBucket (fileAll (orBits bits) (generateCombinations bits) instructions)
        (word &&& orBits bits) word =
      searchBucket (fileAll (orBits bits) (generateCombinations bits) instructions)
        (word' &&& orBits bits) word' := by
  have htrans : ∀ p q r : Nat × Dict Nat String, decide (bitCount p.1 ≤ bitCount q.1) = true →
      decide (bitCount q.1 ≤ bitCount r.1) = true →
        decide (bitCount p.1 ≤ bitCount r.1) = true := by grind
  have htotal : ∀ p q : Nat × Dict Nat String, (decide (bitCount p.1 ≤ bitCount q.1) ||
      decide (bitCount q.1 ≤ bitCount p.1)) = true := by grind
  -- for a compressed word the other masks can be left out of the search
  have hlower : ∀ w, w &&& 3 ≠ 3 →
      searchBucket (fileAll (orBits bits) (generateCombinations bits) instructions)
        (w &&& orBits bits) w =
      (sortMasks ((bucket (fileAll (orBits bits) (generateCombinations bits) instructions)
        (w &&& orBits bits)).restrict isLow)).items.findSome? fun p => p.2.get? (w &&& p.1) := by
    intro w hw
    rw [searchBucket_eq, items_sortMasks, items_sortMasks, Dict.items_restrict]
    apply StableSort.findSome?_reverse_mergeSort htrans htotal
    intro p hp hhigh
    exact get?_eq_none_of_not_isLow hriscv hw hp hhigh
  have hcompressed' : word' &&& 3 ≠ 3 := by
    rwa [← and_mask_congr hword (by decide)]
  rw [hlower word hcompressed, hlower word' hcompressed', restrict_bucket instructions hword]
  apply StableSort.findSome?_congr
  intro p hp
  rw [mem_sortMasks, Dict.items_restrict, List.mem_filter] at hp
  rw [and_mask_congr hword (of_decide_eq_true hp.2)]

/-- The upper half of the word of a compressed instruction does not matter. -/
theorem disassemble_congr {self : InstructionMaps}
    (hriscv : ∀ p ∈ self.instructions.items,
      p.2.combinedMask.mask < 2 ^ 16 ∨ p.2.combinedMask.FourBytes)
    (hlt : word < 2 ^ 32) (hlt' : word' < 2 ^ 32)
    (hword : word % 2 ^ 16 = word' % 2 ^ 16) (hcompressed : word &&& 3 ≠ 3) :
    self.updateMaps.disassemble word = self.updateMaps.disassemble word' := by
  have heq := disassemble_eq self (UInt32.ofNat word)
  have heq' := disassemble_eq self (UInt32.ofNat word')
  rw [UInt32.toNat_ofNat_of_lt' hlt] at heq
  rw [UInt32.toNat_ofNat_of_lt' hlt'] at heq'
  have hperm := items_sortedInstructions_perm self.instructions
  rw [heq, heq', searchBucket_congr (fun p hp => hriscv p (hperm.mem_iff.mp hp)) hword hcompressed]

end InstructionMaps

end RISCover
