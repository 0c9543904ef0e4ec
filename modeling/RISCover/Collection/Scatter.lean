import Mathlib.Data.List.Pairwise
import RISCover.Collection.Immediate
import RISCover.Lib.Scatter

/-!
# The scatter of an immediate

`bit_mask` takes the ranges in the order in which `__init__` has sorted them. For ranges without
common bits that is the order from the lowest to the highest, so gathering them in this order gives
the number back.
-/

open Scatter

namespace RISCover

/-- `(msb, lsb)`. -/
abbrev BitRange := Nat × Nat

namespace BitRange

def bits (r : BitRange) : Nat := r.1 - r.2 + 1

def Covers (r : BitRange) (i : Nat) : Prop := r.2 ≤ i ∧ i ≤ r.1

/-- Two ranges without a common bit. -/
def Apart (p q : BitRange) : Prop := ∀ i, p.Covers i → ¬q.Covers i

instance : Std.Symm Apart where
  symm _ _ h i hq hp := h i hp hq

def toSegment (r : BitRange) : Segment := ⟨r.2, r.bits⟩

/-- The number in a range of a word. -/
def extract (r : BitRange) (word : Int) : Int := (word >>> r.2).land (2 ^ r.bits - 1)

/-- The next range of a word is added to a number. -/
def take (word : Int) (s : Int × Nat) (r : BitRange) : Int × Nat :=
  (s.1.lor (r.extract word <<< s.2), s.2 + r.bits)

/-- The number in ranges, from the lowest to the highest. -/
def gather (ranges : List BitRange) (word : Int) : Int :=
  ((ranges.insertionSort fun p q => p.2 ≤ q.2).foldl (take word) (0, 0)).1

end BitRange

namespace Immediate

/-- `bit_mask` of any integer. -/
def bitMaskOfInt (self : Immediate) (num : Int) : Int :=
  (self.ranges.foldl (fun ((mask, bit) : Int × Nat) (msb, lsb) =>
    let bits := msb - lsb + 1
    (mask.lor (((2 ^ bits - 1 : Int).land (num >>> bit)) <<< lsb), bit + bits)) (0, 0)).1

/-- A step of the loop of `bit_mask`. -/
def placeInt (num : Int) (s : Int × Nat) (r : BitRange) : Int × Nat :=
  (s.1.lor (((2 ^ r.bits - 1 : Int).land (num >>> s.2)) <<< r.2), s.2 + r.bits)

theorem bitMaskOfInt_eq (self : Immediate) (num : Int) :
    self.bitMaskOfInt num = (self.ranges.foldl (placeInt num) (0, 0)).1 := rfl

/-! ## The order of the ranges

`__init__` sorts the ranges as Python sorts pairs; for ranges that lie apart this is the order of
their places. -/

/-- `sorted` on pairs. -/
def PairLe (p q : BitRange) : Prop := p.1 < q.1 ∨ p.1 = q.1 ∧ p.2 ≤ q.2

instance : DecidableRel PairLe := fun p q =>
  inferInstanceAs (Decidable (p.1 < q.1 ∨ p.1 = q.1 ∧ p.2 ≤ q.2))

instance : Std.Total PairLe where
  total p q := by
    unfold PairLe
    omega

instance : IsTrans BitRange PairLe where
  trans p q r hpq hqr := by
    unfold PairLe at *
    omega

instance : Std.Total fun p q : BitRange => p.2 ≤ q.2 where
  total p q := Nat.le_total p.2 q.2

instance : IsTrans BitRange fun p q => p.2 ≤ q.2 where
  trans _ _ _ hpq hqr := Nat.le_trans hpq hqr

variable {ranges : List BitRange}

/-- Ranges that lie apart are sorted the same way by their ends as by their starts. -/
theorem ranges_init (cls : ImmediateClass) (hle : ∀ r ∈ ranges, r.2 ≤ r.1)
    (hapart : ranges.Pairwise BitRange.Apart) :
    (init cls ranges hle).ranges = ranges.insertionSort fun p q => p.2 ≤ q.2 := by
  have hperm := List.perm_insertionSort PairLe ranges
  have hends : (ranges.insertionSort PairLe).Pairwise PairLe := List.pairwise_insertionSort _ ranges
  have hstarts : (ranges.insertionSort fun p q => p.2 ≤ q.2).Pairwise fun p q => p.2 ≤ q.2 :=
    List.pairwise_insertionSort _ ranges
  have hsorted : (ranges.insertionSort PairLe).Pairwise fun p q => p.2 ≤ q.2 := by
    have hboth := hends.and ((hperm.pairwise_iff fun h => symm h).mpr hapart)
    refine hboth.imp_of_mem fun {p q} hp hq h => ?_
    have hp' := hle p (hperm.mem_iff.mp hp)
    have hq' := hle q (hperm.mem_iff.mp hq)
    -- if `q` began below `p`, it would end behind it
    by_contra hlt
    have hend : p.1 ≤ q.1 := by
      rcases h.1 with h | h
      · exact Nat.le_of_lt h
      · exact Nat.le_of_eq h.1
    exact h.2 p.2 ⟨Nat.le_refl _, hp'⟩ ⟨by omega, by omega⟩
  refine List.Perm.eq_of_pairwise ?_ hsorted hstarts
    (hperm.trans (List.perm_insertionSort _ ranges).symm)
  intro p q hp hq hpq hqp
  have hp' := (List.mem_insertionSort _).mp hp
  have hq' := (List.mem_insertionSort _).mp hq
  by_contra hne
  exact hapart.forall hp' hq' hne p.2 ⟨Nat.le_refl _, hle p hp'⟩
    ⟨by omega, Nat.le_trans hpq (hle q hq')⟩

/-! ## The loops

Both loops hand on what is left of the number, so they agree with the scatter of the library. -/

theorem foldl_placeInt (num : Int) (rs : List BitRange) (mask : Int) (bit : Nat) :
    (rs.foldl (placeInt num) (mask, bit)).1 =
      mask.lor (scatter num bit (rs.map BitRange.toSegment)) := by
  induction rs generalizing mask bit with
  | nil => exact (IntBits.lor_zero mask).symm
  | cons r rs ih =>
      show (rs.foldl (placeInt num) (placeInt num (mask, bit) r)).1 = _
      rw [placeInt, ih, IntBits.lor_assoc]
      rfl

theorem foldl_take (word : Int) (rs : List BitRange) (num : Int) (bit : Nat) :
    (rs.foldl (BitRange.take word) (num, bit)).1 =
      num.lor (gather word bit (rs.map BitRange.toSegment)) := by
  induction rs generalizing num bit with
  | nil => exact (IntBits.lor_zero num).symm
  | cons r rs ih =>
      show (rs.foldl (BitRange.take word) (BitRange.take word (num, bit) r)).1 = _
      rw [BitRange.take, ih, IntBits.lor_assoc]
      rfl

/-! ## Ranges that lie apart

The ranges as segments of a word. The library says that gathering is the inverse of scattering. -/

/-- The ranges from the lowest to the highest. -/
def segments (ranges : List BitRange) : List Segment :=
  (ranges.insertionSort fun p q => p.2 ≤ q.2).map BitRange.toSegment

theorem gather_eq (ranges : List BitRange) (word : Int) :
    BitRange.gather ranges word = gather word 0 (segments ranges) := by
  rw [BitRange.gather, foldl_take, IntBits.zero_lor, segments]

theorem bitMaskOfInt_init (cls : ImmediateClass) (hle : ∀ r ∈ ranges, r.2 ≤ r.1)
    (hapart : ranges.Pairwise BitRange.Apart) (n : Int) :
    (init cls ranges hle).bitMaskOfInt n = scatter n 0 (segments ranges) := by
  rw [bitMaskOfInt_eq, foldl_placeInt, IntBits.zero_lor, ranges_init cls hle hapart, segments]

theorem room_segments (cls : ImmediateClass) (hle : ∀ r ∈ ranges, r.2 ≤ r.1) :
    room (segments ranges) = (init cls ranges hle).bits := by
  have hperm : (ranges.insertionSort fun p q => p.2 ≤ q.2).Perm (init cls ranges hle).ranges :=
    (List.perm_insertionSort _ ranges).trans (List.perm_insertionSort _ ranges).symm
  have hsum := (hperm.map fun r : BitRange => r.1 - r.2 + 1).sum_nat
  rw [room, segments, List.map_map]
  exact hsum

theorem covers_toSegment {r : BitRange} (h : r.2 ≤ r.1) (i : Nat) :
    r.toSegment.Covers i ↔ r.Covers i := by
  show r.2 ≤ i ∧ i < r.2 + (r.1 - r.2 + 1) ↔ r.2 ≤ i ∧ i ≤ r.1
  omega

theorem apart_segments (hle : ∀ r ∈ ranges, r.2 ≤ r.1)
    (hapart : ranges.Pairwise BitRange.Apart) : Scatter.Apart (segments ranges) := by
  have hperm := List.perm_insertionSort (fun p q : BitRange => p.2 ≤ q.2) ranges
  have hsorted := (hperm.pairwise_iff fun h => symm h).mpr hapart
  refine List.pairwise_map.mpr (hsorted.imp_of_mem fun {p q} hp hq h => ?_)
  intro i hi
  rw [covers_toSegment (hle p (hperm.mem_iff.mp hp))] at hi
  rw [covers_toSegment (hle q (hperm.mem_iff.mp hq))]
  exact h i hi

/-- The lowest range is the first. -/
theorem segments_eq_cons {r : BitRange} (hle : ∀ r ∈ ranges, r.2 ≤ r.1)
    (hapart : ranges.Pairwise BitRange.Apart) (hr : r ∈ ranges)
    (hlow : ∀ q ∈ ranges, r.2 ≤ q.2) : ∃ ss, segments ranges = r.toSegment :: ss := by
  have hperm := List.perm_insertionSort (fun p q : BitRange => p.2 ≤ q.2) ranges
  have hsorted := List.pairwise_insertionSort (fun p q : BitRange => p.2 ≤ q.2) ranges
  have hmem := hperm.mem_iff.mpr hr
  rw [segments]
  cases hranges : ranges.insertionSort fun p q => p.2 ≤ q.2 with
  | nil =>
      rw [hranges] at hmem
      cases hmem
  | cons q rs =>
      rw [hranges] at hmem hsorted hperm
      have hq : q ∈ ranges := hperm.mem_iff.mp List.mem_cons_self
      rcases List.mem_cons.mp hmem with rfl | hrs
      · exact ⟨_, rfl⟩
      · have hqr := (List.pairwise_cons.mp hsorted).1 r hrs
        have hrq := hlow q hq
        -- two lowest ranges would have a common bit
        have heq : r = q := by
          by_contra hne
          exact hapart.forall hr hq hne r.2 ⟨Nat.le_refl _, hle r hr⟩
            ⟨hqr, Nat.le_trans hrq (hle q hq)⟩
        rw [heq]
        exact ⟨_, rfl⟩

/-- What `bit_mask` does with a number: it stays in the ranges, which hold the lowest bits of the
number, the lowest ones in the lowest range. -/
structure Scatters (imm : Immediate) (ranges : List BitRange) : Prop where
  inside : ∀ n i, (imm.bitMaskOfInt n).testBit i = true → ∃ r ∈ ranges, r.Covers i
  gather : ∀ n, BitRange.gather ranges (imm.bitMaskOfInt n) = n % 2 ^ imm.bits
  inj : ∀ m n, 0 ≤ m → m < 2 ^ imm.bits → 0 ≤ n → n < 2 ^ imm.bits →
    imm.bitMaskOfInt m = imm.bitMaskOfInt n → m = n
  lowest : ∀ r ∈ ranges, (∀ q ∈ ranges, r.2 ≤ q.2) →
    ∀ n, r.extract (imm.bitMaskOfInt n) = n % 2 ^ r.bits

theorem scatters_init (cls : ImmediateClass) (ranges : List BitRange)
    (hle : ∀ r ∈ ranges, r.2 ≤ r.1) (hapart : ranges.Pairwise BitRange.Apart) :
    (init cls ranges hle).Scatters ranges := by
  have hmask := bitMaskOfInt_init cls hle hapart
  have hsegments := apart_segments hle hapart
  have hgather : ∀ n, BitRange.gather ranges ((init cls ranges hle).bitMaskOfInt n) =
      n % 2 ^ (init cls ranges hle).bits := by
    intro n
    rw [hmask, gather_eq, gather_scatter n hsegments, room_segments cls hle]
  refine ⟨?_, hgather, ?_, ?_⟩
  · -- no bit outside of the ranges
    intro n i hi
    rw [hmask] at hi
    obtain ⟨s, hs, hcovers⟩ := exists_covers_of_testBit hi
    obtain ⟨r, hr, rfl⟩ := List.mem_map.mp hs
    have hmem := (List.mem_insertionSort _).mp hr
    exact ⟨r, hmem, (covers_toSegment (hle r hmem) i).mp hcovers⟩
  · -- gathering tells the numbers apart
    intro m n hm hm' hn hn' h
    have hmod : m % 2 ^ (init cls ranges hle).bits = n % 2 ^ (init cls ranges hle).bits := by
      rw [← hgather m, ← hgather n, h]
    rw [Int.emod_eq_of_lt hm hm', Int.emod_eq_of_lt hn hn'] at hmod
    exact hmod
  · -- the lowest range has the low part of the number
    intro r hr hlow n
    obtain ⟨ss, hss⟩ := segments_eq_cons hle hapart hr hlow
    rw [hss] at hsegments
    have hextract := extract_scatter (n := n) (k := 0) r.toSegment hsegments
    rw [hmask, hss]
    rw [Int.shiftRight_zero] at hextract
    exact hextract

/-- The offset of a store. -/
theorem scatters_init_store :
    BitRange.gather [(31, 25), (11, 7)]
        ((init .signed [(31, 25), (11, 7)] (by decide)).bitMaskOfInt (-3)) = -3 % 2 ^ 12 ∧
      BitRange.extract (11, 7)
        ((init .signed [(31, 25), (11, 7)] (by decide)).bitMaskOfInt (-3)) = -3 % 2 ^ 5 := by
  have hapart : [(31, 25), (11, 7)].Pairwise BitRange.Apart := by
    rw [List.pairwise_pair]
    rintro i ⟨hlow, -⟩ ⟨-, hhigh⟩
    exact absurd (Nat.le_trans hlow hhigh) (by decide)
  have hscatters := scatters_init .signed [(31, 25), (11, 7)] (by decide) hapart
  exact ⟨hscatters.gather (-3), hscatters.lowest (11, 7) (by decide) (by decide) (-3)⟩

end Immediate

end RISCover
