import Mathlib.Data.Nat.Bitwise
import RISCover.Generator.Rng
import RISCover.Lib.Words
import RISCover.Lib.XorShift

/-!
# The generator on both sides

`rng.py` is a second implementation of `rng.c`, over integers without a width. From one state both
give the same numbers, call after call. The seeding differs: the client folds the upper half of the
seed into the first word, the server drops it. As the first 624 numbers determine the first word,
the two agree on the seeds without an upper half and on no others.
-/

namespace RISCover

/-! ## `rng.py`

The numbers of Python have no width, so the masks that `rng.py` applies are part of the definitions.
-/

/-- `SharedRng` of the server. -/
structure PySharedRng where
  mt : Vector Nat MT19937_N
  index : Nat

namespace PySharedRng

/-- What `_seed_mt` writes to word `i`. -/
def nextWord (prev i : Nat) : Nat := (1812433253 * (prev ^^^ (prev >>> 30)) + i) &&& 0xFFFFFFFF

theorem zero_lt : 0 < MT19937_N := by decide

theorem pred_lt : MT19937_N - 1 < MT19937_N := by decide

theorem succ_lt {n i : Nat} (hn : n < MT19937_N) (hi : i < n) : i + 1 < MT19937_N := by omega

/-- The loop of `_seed_mt`, up to word `n`. -/
def fillWords (n : Nat) (hn : n < MT19937_N) (mt : Vector Nat MT19937_N) : Vector Nat MT19937_N :=
  Nat.fold n (fun i hi mt =>
    have hlt : i < MT19937_N := Nat.lt_trans hi hn
    mt.set (i + 1) (nextWord mt[i] (i + 1)) (succ_lt hn hi)) mt

/-- `__init__` with `_seed_mt`. -/
def init (seed : Nat) : PySharedRng where
  mt := fillWords (MT19937_N - 1) pred_lt
    ((Vector.replicate MT19937_N 0).set 0 (seed &&& 0xFFFFFFFF) zero_lt)
  index := 624

/-- What `_twist` writes to a word. -/
def twistWord (word next far : Nat) : Nat :=
  let y := (word &&& 0x80000000) + (next &&& 0x7FFFFFFF)
  let w := far ^^^ (y >>> 1)
  if y % 2 ≠ 0 then w ^^^ 0x9908B0DF else w

/-- The loop of `_twist`, up to word `n`. -/
def twistWords (n : Nat) (hn : n ≤ MT19937_N) (mt : Vector Nat MT19937_N) :
    Vector Nat MT19937_N :=
  Nat.fold n (fun i hi mt =>
    have hlt : i < MT19937_N := Nat.lt_of_lt_of_le hi hn
    mt.set i (twistWord mt[i] (mt.get ⟨(i + 1) % 624, Nat.mod_lt _ zero_lt⟩)
      (mt.get ⟨(i + 397) % 624, Nat.mod_lt _ zero_lt⟩))) mt

/-- `_twist`. -/
def twist (self : PySharedRng) : PySharedRng where
  mt := twistWords MT19937_N (Nat.le_refl _) self.mt
  index := 0

/-- The tempering of `_extract_number`. -/
def temper (y : Nat) : Nat :=
  let y := y ^^^ (y >>> 11)
  let y := y ^^^ ((y <<< 7) &&& 0x9D2C5680)
  let y := y ^^^ ((y <<< 15) &&& 0xEFC60000)
  let y := y ^^^ (y >>> 18)
  y &&& 0xFFFFFFFFFFFFFFFF

/-- `next`. -/
def next (self : PySharedRng) : Nat × PySharedRng :=
  if h : self.index < MT19937_N then
    (temper self.mt[self.index], { self with index := self.index + 1 })
  else
    let self := self.twist
    (temper (self.mt.get ⟨0, zero_lt⟩), { self with index := 1 })

/-- `randint`; the remainder is Python's. -/
def randint (self : PySharedRng) (a b : Int) : Int × PySharedRng :=
  (a + Int.fmod self.next.1 (b - a + 1), self.next.2)

end PySharedRng

/-! ## From one state

Step by step the words of Python are the values of the words of C (`toPy`). -/

theorem toNat_nextWord (prev : UInt32) (i : Nat) :
    (nextWord prev i).toNat = PySharedRng.nextWord prev.toNat i := by
  have hmask : PySharedRng.nextWord prev.toNat i =
      (1812433253 * (prev.toNat ^^^ (prev.toNat >>> 30)) + i) % 2 ^ 32 :=
    Nat.and_two_pow_sub_one_eq_mod _ 32
  rw [hmask]
  simp only [nextWord, UInt64.toNat_toUInt32, UInt64.toNat_add, UInt64.toNat_mul,
    UInt32.toNat_toUInt64, UInt32.toNat_xor, UInt32.toNat_shiftRight]
  simp

/-- The two halves that a twisted word is made of. -/
theorem toNat_upper_or_lower (word next : UInt32) :
    ((word &&& MT19937_UPPER_MASK) ||| (next &&& MT19937_LOWER_MASK)).toNat =
      (word.toNat &&& 0x80000000) + (next.toNat &&& 0x7FFFFFFF) := by
  have hlower : next.toNat &&& 0x7FFFFFFF = next.toNat % 2 ^ 31 :=
    Nat.and_two_pow_sub_one_eq_mod _ 31
  have hupper : word.toNat &&& 0x80000000 = 2 ^ 31 * (word.toNat.testBit 31).toNat := by
    rw [Nat.mul_comm]
    exact Nat.and_two_pow word.toNat 31
  rw [UInt32.toNat_or, UInt32.toNat_and, UInt32.toNat_and]
  show (word.toNat &&& 0x80000000) ||| (next.toNat &&& 0x7FFFFFFF) = _
  rw [hlower, hupper, Nat.two_pow_add_eq_or_of_lt (Nat.mod_lt _ (by decide))]

theorem toNat_twistWord (word next far : UInt32) :
    (twistWord word next far).toNat =
      PySharedRng.twistWord word.toNat next.toNat far.toNat := by
  unfold twistWord PySharedRng.twistWord
  rw [← toNat_upper_or_lower]
  generalize (word &&& MT19937_UPPER_MASK) ||| (next &&& MT19937_LOWER_MASK) = y
  have hparity : y % 2 ≠ 0 ↔ y.toNat % 2 ≠ 0 := by
    rw [ne_eq, ← UInt32.toNat_inj, UInt32.toNat_mod]
    rfl
  have hshift : (y >>> 1).toNat = y.toNat >>> 1 := by simp [UInt32.toNat_shiftRight]
  dsimp only
  by_cases hodd : y % 2 ≠ 0
  · rw [if_pos hodd, if_pos (hparity.mp hodd), UInt32.toNat_xor, UInt32.toNat_xor, hshift,
      Nat.xor_assoc]
    rfl
  · rw [if_neg hodd, if_neg (hparity.not.mp hodd), UInt32.toNat_xor, hshift]

theorem toNat_shiftLeft_and (y m : UInt32) (k : Nat) (hk : k < 32) :
    ((y <<< UInt32.ofNat k) &&& m).toNat = (y.toNat <<< k) &&& m.toNat := by
  have hshift : k % 2 ^ 32 % 32 = k := by omega
  have hm := m.toNat_lt
  rw [UInt32.toNat_and, UInt32.toNat_shiftLeft, UInt32.toNat_ofNat', hshift]
  calc (y.toNat <<< k) % 2 ^ 32 &&& m.toNat
      = (y.toNat <<< k) % 2 ^ 32 &&& m.toNat % 2 ^ 32 := by rw [Nat.mod_eq_of_lt hm]
    _ = (y.toNat <<< k &&& m.toNat) % 2 ^ 32 := (Nat.and_mod_two_pow).symm
    _ = y.toNat <<< k &&& m.toNat :=
        Nat.mod_eq_of_lt (Nat.and_le_right.trans_lt hm)

theorem toNat_temper (y : UInt32) : (temper y).toNat = PySharedRng.temper y.toNat := by
  have hright : ∀ z : UInt32, ∀ k : Nat, k < 32 → (z >>> UInt32.ofNat k).toNat = z.toNat >>> k := by
    intro z k hk
    have hshift : k % 2 ^ 32 % 32 = k := by omega
    rw [UInt32.toNat_shiftRight, UInt32.toNat_ofNat', hshift]
  have hlast : ∀ z : UInt32, z.toNat &&& 0xFFFFFFFFFFFFFFFF = z.toNat := by
    intro z
    have hmod : z.toNat &&& 0xFFFFFFFFFFFFFFFF = z.toNat % 2 ^ 64 :=
      Nat.and_two_pow_sub_one_eq_mod _ 64
    have hlt := z.toNat_lt
    rw [hmod, Nat.mod_eq_of_lt (by omega)]
  -- the four steps of the tempering, one after the other
  have hone : (y ^^^ (y >>> 11)).toNat = y.toNat ^^^ (y.toNat >>> 11) := by
    rw [UInt32.toNat_xor]
    exact congrArg _ (hright y 11 (by decide))
  have htwo : ∀ z : UInt32, (z ^^^ ((z <<< 7) &&& 0x9D2C5680)).toNat =
      z.toNat ^^^ ((z.toNat <<< 7) &&& 0x9D2C5680) := by
    intro z
    rw [UInt32.toNat_xor]
    exact congrArg _ (toNat_shiftLeft_and z 0x9D2C5680 7 (by decide))
  have hthree : ∀ z : UInt32, (z ^^^ ((z <<< 15) &&& 0xEFC60000)).toNat =
      z.toNat ^^^ ((z.toNat <<< 15) &&& 0xEFC60000) := by
    intro z
    rw [UInt32.toNat_xor]
    exact congrArg _ (toNat_shiftLeft_and z 0xEFC60000 15 (by decide))
  have hfour : ∀ z : UInt32, (z ^^^ (z >>> 18)).toNat = z.toNat ^^^ (z.toNat >>> 18) := by
    intro z
    rw [UInt32.toNat_xor]
    exact congrArg _ (hright z 18 (by decide))
  unfold PySharedRng.temper
  dsimp only
  rw [← hone, ← htwo, ← hthree, ← hfour, hlast]
  rfl

/-- The server's state has the client's words as numbers. -/
def SharedRng.toPy (rng : SharedRng) : PySharedRng := ⟨rng.mt.map UInt32.toNat, rng.index⟩

theorem get_map_toNat (mt : Vector UInt32 MT19937_N) (i : Fin MT19937_N) :
    (mt.map UInt32.toNat).get i = (mt.get i).toNat := by
  rw [get_eq_getElem, get_eq_getElem, Vector.getElem_map]

theorem map_twistWords (n : Nat) (hn : n ≤ MT19937_N) (mt : Vector UInt32 MT19937_N) :
    PySharedRng.twistWords n hn (mt.map UInt32.toNat) = (twistWords n hn mt).map UInt32.toNat := by
  induction n with
  | zero => rfl
  | succ n ih =>
      have hprev := ih (by omega)
      unfold PySharedRng.twistWords twistWords at hprev ⊢
      rw [Nat.fold_succ, Nat.fold_succ, hprev, Vector.map_set, toNat_twistWord, get_map_toNat,
        get_map_toNat]
      dsimp only
      rw [Vector.getElem_map]
      rfl

theorem toPy_rngTwist (rng : SharedRng) : (rngTwist rng).toPy = rng.toPy.twist := by
  show PySharedRng.mk ((twistWords MT19937_N (Nat.le_refl _) rng.mt).map UInt32.toNat) 0 =
    ⟨PySharedRng.twistWords MT19937_N (Nat.le_refl _) (rng.mt.map UInt32.toNat), 0⟩
  rw [map_twistWords]

theorem toPy_next (rng : SharedRng) :
    rng.toPy.next = (rng.next.1.toNat, rng.next.2.toPy) := by
  by_cases hindex : rng.index < MT19937_N
  · have hpy : rng.toPy.index < MT19937_N := hindex
    rw [PySharedRng.next, SharedRng.next, dif_pos hpy, dif_pos hindex]
    refine Prod.ext ?_ rfl
    show PySharedRng.temper ((rng.mt.map UInt32.toNat).get ⟨rng.index, hindex⟩) = _
    rw [get_map_toNat, ← toNat_temper]
    exact (UInt32.toNat_toUInt64 _).symm
  · have hpy : ¬rng.toPy.index < MT19937_N := hindex
    rw [PySharedRng.next, SharedRng.next, dif_neg hpy, dif_neg hindex, ← toPy_rngTwist]
    refine Prod.ext ?_ rfl
    show PySharedRng.temper (((rngTwist rng).mt.map UInt32.toNat).get ⟨0, by decide⟩) = _
    rw [get_map_toNat, ← toNat_temper]
    exact (UInt32.toNat_toUInt64 _).symm

/-! ## Calls

A `randint` is only a call on both sides if its range is not empty and fits an `int64_t`, which
`RngCall` carries. -/

/-- A call of one of the two functions, with a range that the signed arithmetic of the client can
count. -/
inductive RngCall where
  | next
  | randint (a b : Int64) (le : a.toInt ≤ b.toInt) (count : b.toInt - a.toInt + 1 < 2 ^ 63)

/-- The values that the calls give on the client. -/
def RngCall.runClient : List RngCall → Draw (List Int)
  | [] => pure []
  | .next :: calls => do
    let x ← rngNext
    pure ((x.toNat : Int) :: (← runClient calls))
  | .randint a b _ _ :: calls => do
    let x ← rngRandint a b
    pure (x.toInt :: (← runClient calls))

/-- The values that they give on the server. -/
def RngCall.runServer : List RngCall → PySharedRng → List Int × PySharedRng
  | [], rng => ([], rng)
  | .next :: calls, rng =>
    let p := rng.next
    let q := runServer calls p.2
    ((p.1 : Int) :: q.1, q.2)
  | .randint a b _ _ :: calls, rng =>
    let p := rng.randint a.toInt b.toInt
    let q := runServer calls p.2
    (p.1 :: q.1, q.2)

theorem next_lt (rng : SharedRng) : rng.next.1.toNat < 2 ^ 32 := by
  unfold SharedRng.next
  split
  · rw [UInt32.toNat_toUInt64]
    exact UInt32.toNat_lt _
  · dsimp only
    rw [UInt32.toNat_toUInt64]
    exact UInt32.toNat_lt _

/-- A draw from a range on both sides. -/
theorem rngRandint_toPy {a b : Int64} (hle : a.toInt ≤ b.toInt)
    (hcount : b.toInt - a.toInt + 1 < 2 ^ 63) (rng : SharedRng) :
    ∃ v, rngRandint a b rng = .ok (v, rng.next.2) ∧
      rng.toPy.randint a.toInt b.toInt = (v.toInt, rng.next.2.toPy) := by
  have hlow := a.le_toInt
  have hhigh := b.toInt_lt
  have hone : Int64.toInt 1 = 1 := rfl
  have hdiff : (b - a + 1).toInt = b.toInt - a.toInt + 1 := by
    have hsub : (b - a).toInt = b.toInt - a.toInt := by
      rw [Int64.toInt_sub]
      exact Int.bmod_eq_of_le (by omega) (by omega)
    rw [Int64.toInt_add, hsub, hone]
    exact Int.bmod_eq_of_le (by omega) (by omega)
  -- the size of the range is positive and fits a word, so C's remainder is that of the integers
  have hcast : (b - a + 1).toUInt64.toNat = (b.toInt - a.toInt + 1).toNat := by
    have hnonneg : 0 ≤ b - a + 1 := by
      rw [Int64.le_iff_toInt_le, hdiff]
      show (0 : Int) ≤ _
      omega
    rw [← hdiff]
    exact Int64.toNat_toBitVec_of_le hnonneg
  have hne : (b - a + 1).toUInt64 ≠ 0 := by
    intro hzero
    rw [hzero] at hcast
    have hzeroNat : (0 : UInt64).toNat = 0 := rfl
    omega
  have hx := next_lt rng
  have hmod : (rng.next.1 % (b - a + 1).toUInt64).toNat =
      rng.next.1.toNat % (b.toInt - a.toInt + 1).toNat := by
    rw [UInt64.toNat_mod, hcast]
  have hmodlt : rng.next.1.toNat % (b.toInt - a.toInt + 1).toNat < (b.toInt - a.toInt + 1).toNat :=
    Nat.mod_lt _ (by omega)
  refine ⟨a + (rng.next.1 % (b - a + 1).toUInt64).toInt64, ?_, ?_⟩
  · rw [rngRandint_eq (Int64.le_iff_toInt_le.mpr hle) hne]
    rfl
  · have hv : (a + (rng.next.1 % (b - a + 1).toUInt64).toInt64).toInt =
        a.toInt + (rng.next.1.toNat % (b.toInt - a.toInt + 1).toNat : Nat) := by
      rw [Int64.toInt_add, toInt_toInt64_of_lt (by omega), hmod]
      exact Int.bmod_eq_of_le (by omega) (by omega)
    rw [hv, PySharedRng.randint, toPy_next]
    refine Prod.ext ?_ rfl
    show a.toInt + Int.fmod _ _ = _
    rw [Int.fmod_eq_emod_of_nonneg _ (by omega), Int.natCast_mod, Int.toNat_of_nonneg (by omega)]

/-- From one state the calls give the same values. -/
theorem runClient_toPy (calls : List RngCall) (rng : SharedRng) :
    ∃ outs rng', RngCall.runClient calls rng = .ok (outs, rng') ∧
      RngCall.runServer calls rng.toPy = (outs, rng'.toPy) := by
  induction calls generalizing rng with
  | nil => exact ⟨[], rng, rfl, rfl⟩
  | cons call calls ih =>
      -- both sides are in states that correspond again, after either kind of call
      cases call with
      | next =>
          obtain ⟨outs, rng', hclient, hserver⟩ := ih rng.next.2
          refine ⟨(rng.next.1.toNat : Int) :: outs, rng', ?_, ?_⟩
          · show (RngCall.runClient calls rng.next.2 >>= fun p =>
              pure ((rng.next.1.toNat : Int) :: p.1, p.2)) = _
            rw [hclient]
            rfl
          · simp only [RngCall.runServer, toPy_next, hserver]
      | randint a b le count =>
          obtain ⟨v, hv, hpy⟩ := rngRandint_toPy le count rng
          obtain ⟨outs, rng', hclient, hserver⟩ := ih rng.next.2
          refine ⟨v.toInt :: outs, rng', ?_, ?_⟩
          · show (rngRandint a b rng >>= fun q => RngCall.runClient calls q.2 >>= fun p =>
              pure (q.1.toInt :: p.1, p.2)) = _
            rw [hv]
            show (RngCall.runClient calls rng.next.2 >>= fun p => pure (v.toInt :: p.1, p.2)) = _
            rw [hclient]
            rfl
          · simp only [RngCall.runServer, hpy, hserver]

/-! ## What the numbers say about the seed

Tempering and the words of the seeding are injective, so a number that comes out gives back the word
that it was made of. -/

theorem temper_inj {x y : UInt32} (h : temper x = temper y) : x = y := by
  have h₁ := XorShift.xor_shiftRight_inj (by decide : 0 < 18) (congrArg UInt32.toBitVec h)
  have h₂ := XorShift.xor_shiftLeft_and_inj (by decide : 0 < 15) h₁
  have h₃ := XorShift.xor_shiftLeft_and_inj (by decide : 0 < 7) h₂
  exact UInt32.toBitVec_inj.mp (XorShift.xor_shiftRight_inj (by decide : 0 < 11) h₃)

theorem nextWord_inj {x y : UInt32} {i : Nat} (h : nextWord x i = nextWord y i) : x = y := by
  have hword : ∀ z : UInt32, (nextWord z i).toBitVec =
      1812433253#32 * (z.toBitVec ^^^ (z.toBitVec >>> 30)) + BitVec.ofNat 32 i := by
    intro z
    have hmask : PySharedRng.nextWord z.toNat i =
        (1812433253 * (z.toNat ^^^ (z.toNat >>> 30)) + i) % 2 ^ 32 :=
      Nat.and_two_pow_sub_one_eq_mod _ 32
    apply BitVec.eq_of_toNat_eq
    show (nextWord z i).toNat = _
    rw [toNat_nextWord, hmask]
    simp [BitVec.toNat_add, BitVec.toNat_mul]
  have hsum := congrArg UInt32.toBitVec h
  rw [hword, hword, BitVec.add_left_inj] at hsum
  -- the factor is odd
  have hxor := XorShift.mul_inj (b := 2520285293#32) (by decide) hsum
  exact UInt32.toBitVec_inj.mp (XorShift.xor_shiftRight_inj (by decide) hxor)

theorem halve_inj {y y' : UInt32}
    (h : (if y % 2 ≠ 0 then (y >>> 1) ^^^ 0x9908B0DF else y >>> 1) =
      if y' % 2 ≠ 0 then (y' >>> 1) ^^^ 0x9908B0DF else y' >>> 1) : y = y' := by
  have hshift : ∀ z : UInt32, (z >>> 1).toNat = z.toNat / 2 := fun z => by
    simp [UInt32.toNat_shiftRight, Nat.shiftRight_eq_div_pow]
  have hparity : ∀ z : UInt32, z % 2 ≠ 0 ↔ z.toNat % 2 ≠ 0 := fun z => by
    rw [ne_eq, ← UInt32.toNat_inj, UInt32.toNat_mod]
    rfl
  have hlast : ∀ {z z' : UInt32}, (z % 2 ≠ 0 ↔ z' % 2 ≠ 0) → z >>> 1 = z' >>> 1 → z = z' := by
    intro z z' hiff heq
    have hdiv := congrArg UInt32.toNat heq
    rw [hshift, hshift] at hdiv
    rw [hparity, hparity] at hiff
    apply UInt32.toNat_inj.mp
    omega
  -- the constant sets the top bit, which the shift leaves clear
  have htop : ∀ z z' : UInt32, (z >>> 1) ^^^ (0x9908B0DF : UInt32) ≠ z' >>> 1 := by
    intro z z' heq
    have hclear : ∀ v : UInt32, (v >>> 1).toNat.testBit 31 = false := by
      intro v
      have hlt := v.toNat_lt
      rw [hshift]
      exact Nat.testBit_lt_two_pow (by omega)
    have hbit := congrArg (fun v : UInt32 => v.toNat.testBit 31) heq
    simp only [UInt32.toNat_xor, Nat.testBit_xor, hclear] at hbit
    exact absurd hbit (by decide)
  split at h
  next hodd =>
    split at h
    next hodd' =>
      refine hlast (iff_of_true hodd hodd') ?_
      have hxor := congrArg (· ^^^ (0x9908B0DF : UInt32)) h
      simpa only [UInt32.xor_assoc, UInt32.xor_self, UInt32.xor_zero] using hxor
    next => exact absurd h (htop y y')
  next heven =>
    split at h
    next => exact absurd h.symm (htop y' y)
    next heven' => exact hlast (iff_of_false heven heven') h

/-- The word that is twisted can be read off the result, if the word that is xored in is known. -/
theorem twistWord_inj {word next word' next' far : UInt32}
    (h : twistWord word next far = twistWord word' next' far) :
    word &&& MT19937_UPPER_MASK = word' &&& MT19937_UPPER_MASK ∧
      next &&& MT19937_LOWER_MASK = next' &&& MT19937_LOWER_MASK := by
  have hxor := congrArg (far ^^^ ·) h
  simp only [twistWord, ← UInt32.xor_assoc, UInt32.xor_self, UInt32.zero_xor] at hxor
  have hy := halve_inj hxor
  have hupper : ∀ w n : UInt32, ((w &&& MT19937_UPPER_MASK) ||| (n &&& MT19937_LOWER_MASK)) &&&
      MT19937_UPPER_MASK = w &&& MT19937_UPPER_MASK := by
    intro w n
    have hnone : MT19937_LOWER_MASK &&& MT19937_UPPER_MASK = 0 := rfl
    rw [Words.and_or_distrib, UInt32.and_assoc, UInt32.and_self, UInt32.and_assoc, hnone,
      UInt32.and_zero, UInt32.or_zero]
  have hlower : ∀ w n : UInt32, ((w &&& MT19937_UPPER_MASK) ||| (n &&& MT19937_LOWER_MASK)) &&&
      MT19937_LOWER_MASK = n &&& MT19937_LOWER_MASK := by
    intro w n
    have hnone : MT19937_UPPER_MASK &&& MT19937_LOWER_MASK = 0 := rfl
    rw [Words.and_or_distrib, UInt32.and_assoc, UInt32.and_assoc, UInt32.and_self, hnone,
      UInt32.and_zero, UInt32.zero_or]
  exact ⟨by rw [← hupper word next, hy, hupper], by rw [← hlower word next, hy, hlower]⟩

theorem eq_of_halves {x y : UInt32} (hupper : x &&& MT19937_UPPER_MASK = y &&& MT19937_UPPER_MASK)
    (hlower : x &&& MT19937_LOWER_MASK = y &&& MT19937_LOWER_MASK) : x = y := by
  have hsplit : ∀ z : UInt32,
      (z &&& MT19937_UPPER_MASK) ||| (z &&& MT19937_LOWER_MASK) = z := by
    intro z
    have hall : MT19937_UPPER_MASK ||| MT19937_LOWER_MASK = -1 := rfl
    rw [UInt32.and_comm z, UInt32.and_comm z, ← Words.and_or_distrib, hall, UInt32.and_comm]
    exact UInt32.and_neg_one
  rw [← hsplit x, ← hsplit y, hupper, hlower]

/-! ## The words behind the first twist

The twist works in place: from word 227 on it mixes in words that it has twisted already. -/

section twist

variable (mt : Vector UInt32 MT19937_N)

/-- Words that are not reached yet are as before. -/
theorem get_twistWords_of_le {n j : Nat} (hn : n ≤ MT19937_N) (hj : j < MT19937_N) (h : n ≤ j) :
    (twistWords n hn mt).get ⟨j, hj⟩ = mt.get ⟨j, hj⟩ := by
  induction n with
  | zero => rfl
  | succ n ih =>
      have hne : n ≠ j := by omega
      rw [← ih (by omega) (by omega), twistWords, Nat.fold_succ, get_eq_getElem,
        Vector.getElem_set_ne _ _ hne]
      rfl

/-- Words that are twisted stay. -/
theorem get_twistWords_of_lt {n j : Nat} (hn : n ≤ MT19937_N) (h : j < n) :
    (twistWords n hn mt).get ⟨j, h.trans_le hn⟩ =
      (twistWords (j + 1) (h.trans_le hn) mt).get ⟨j, h.trans_le hn⟩ := by
  induction n with
  | zero => cases h
  | succ n ih =>
      rcases Nat.lt_succ_iff_lt_or_eq.mp h with hlt | rfl
      · have hne : n ≠ j := by omega
        rw [← ih (by omega) hlt, twistWords, Nat.fold_succ, get_eq_getElem,
          Vector.getElem_set_ne _ _ hne]
        rfl
      · rfl

/-- A word but the last is made of itself and of the word behind it as they were, and of a third
one that may be twisted already. -/
theorem get_twistWords {j : Nat} (hj : j + 1 < MT19937_N) :
    (twistWords MT19937_N (Nat.le_refl _) mt).get ⟨j, by omega⟩ =
      twistWord (mt.get ⟨j, by omega⟩) (mt.get ⟨j + 1, hj⟩)
        ((twistWords j (by omega) mt).get
          ⟨(j + MT19937_M) % MT19937_N, Nat.mod_lt _ (by decide)⟩) := by
  have hnext : (⟨(j + 1) % MT19937_N, Nat.mod_lt _ (by decide)⟩ : Fin MT19937_N) = ⟨j + 1, hj⟩ :=
    Fin.ext (Nat.mod_eq_of_lt hj)
  have hle : j ≤ MT19937_N := by omega
  have hself := get_twistWords_of_le mt hle (by omega) (Nat.le_refl j)
  have hbehind := get_twistWords_of_le mt hle hj (Nat.le_succ j)
  rw [get_twistWords_of_lt mt (Nat.le_refl _) (by omega : j < MT19937_N), ← hself, ← hbehind,
    ← hnext]
  show (Nat.fold (j + 1) _ mt).get _ = _
  rw [Nat.fold_succ, get_eq_getElem, Vector.getElem_set_self]
  rfl

end twist

/-- Two states that are twisted to the same words have the same second word. -/
theorem second_eq_of_twistWords_eq {mt mt' : Vector UInt32 MT19937_N}
    (h : twistWords MT19937_N (Nat.le_refl _) mt = twistWords MT19937_N (Nat.le_refl _) mt') :
    mt.get ⟨1, by decide⟩ = mt'.get ⟨1, by decide⟩ := by
  -- what the word at `j` says, if its third word is known
  have hword : ∀ j (hj : j + 1 < MT19937_N),
      (twistWords j (by omega) mt).get ⟨(j + MT19937_M) % MT19937_N, Nat.mod_lt _ (by decide)⟩ =
        (twistWords j (by omega) mt').get
          ⟨(j + MT19937_M) % MT19937_N, Nat.mod_lt _ (by decide)⟩ →
      mt.get ⟨j, by omega⟩ &&& MT19937_UPPER_MASK = mt'.get ⟨j, by omega⟩ &&& MT19937_UPPER_MASK ∧
        mt.get ⟨j + 1, hj⟩ &&& MT19937_LOWER_MASK =
          mt'.get ⟨j + 1, hj⟩ &&& MT19937_LOWER_MASK := by
    intro j hj hfar
    have hj' := congrArg (fun v => v.get ⟨j, by omega⟩) h
    simp only [get_twistWords mt hj, get_twistWords mt' hj, hfar] at hj'
    exact twistWord_inj hj'
  have hN : MT19937_N = 624 := rfl
  -- from word 227 on the third word is twisted already
  have hlate : ∀ j (hj : j + 1 < MT19937_N), 227 ≤ j →
      mt.get ⟨j, by omega⟩ &&& MT19937_UPPER_MASK = mt'.get ⟨j, by omega⟩ &&& MT19937_UPPER_MASK ∧
        mt.get ⟨j + 1, hj⟩ &&& MT19937_LOWER_MASK =
          mt'.get ⟨j + 1, hj⟩ &&& MT19937_LOWER_MASK := by
    intro j hj hle
    refine hword j hj ?_
    have hfar : (⟨(j + MT19937_M) % MT19937_N, Nat.mod_lt _ (by decide)⟩ : Fin MT19937_N) =
        ⟨j - 227, by omega⟩ := Fin.ext (by show (j + 397) % 624 = j - 227; omega)
    have hle' : j ≤ MT19937_N := by omega
    have hlt : j - 227 < j := by omega
    have hfinal := congrArg (fun v => v.get ⟨j - 227, hlt.trans_le hle'⟩) h
    simp only [get_twistWords_of_lt _ (Nat.le_refl _) (hlt.trans_le hle')] at hfinal
    rw [hfar, get_twistWords_of_lt mt hle' hlt, get_twistWords_of_lt mt' hle' hlt]
    exact hfinal
  -- that gives the words that are xored into the first two
  have hthird : ∀ j (hj : j < 2),
      mt.get ⟨j + 397, by omega⟩ = mt'.get ⟨j + 397, by omega⟩ := by
    intro j hj
    exact eq_of_halves (hlate (j + 397) (by omega) (by omega)).1
      (hlate (j + 396) (by omega) (by omega)).2
  have hearly : ∀ j (hj : j < 2),
      mt.get ⟨j, by omega⟩ &&& MT19937_UPPER_MASK = mt'.get ⟨j, by omega⟩ &&& MT19937_UPPER_MASK ∧
        mt.get ⟨j + 1, by omega⟩ &&& MT19937_LOWER_MASK =
          mt'.get ⟨j + 1, by omega⟩ &&& MT19937_LOWER_MASK := by
    intro j hj
    refine hword j (by omega) ?_
    have hfar : (⟨(j + MT19937_M) % MT19937_N, Nat.mod_lt _ (by decide)⟩ : Fin MT19937_N) =
        ⟨j + 397, by omega⟩ := Fin.ext (by show (j + 397) % 624 = j + 397; omega)
    rw [hfar, get_twistWords_of_le mt (by omega) (by omega) (by omega),
      get_twistWords_of_le mt' (by omega) (by omega) (by omega)]
    exact hthird j hj
  exact eq_of_halves (hearly 1 (by decide)).1 (hearly 0 (by decide)).2

/-! ## Agreement

The first 624 numbers are the twisted words, of which one gives back the second word of the seeding,
and this the first. -/

/-- The values of the next calls, from a state with the words `mt`. -/
theorem runClient_nexts (mt : Vector UInt32 MT19937_N) {n i : Nat} (h : i + n ≤ MT19937_N) :
    ∃ rng', RngCall.runClient (List.replicate n .next) ⟨mt, i⟩ =
      .ok ((List.range' i n).map fun j =>
        (((temper (mt[j]?.getD 0)).toNat : Nat) : Int), rng') := by
  induction n generalizing i with
  | zero => exact ⟨⟨mt, i⟩, rfl⟩
  | succ n ih =>
      have hi : i < MT19937_N := by omega
      obtain ⟨rng', hrest⟩ := ih (by omega : i + 1 + n ≤ MT19937_N)
      refine ⟨rng', ?_⟩
      have hnext : (SharedRng.mk mt i).next = ((temper mt[i]).toUInt64, ⟨mt, i + 1⟩) := dif_pos hi
      show (RngCall.runClient (List.replicate n .next) (SharedRng.mk mt i).next.2 >>= fun p =>
        pure (((SharedRng.mk mt i).next.1.toNat : Int) :: p.1, p.2)) = _
      rw [hnext, hrest]
      show Except.ok _ = Except.ok _
      rw [List.range'_succ, List.map_cons, Vector.getElem?_eq_getElem hi, UInt32.toNat_toUInt64]
      rfl

theorem runClient_next_cons (calls : List RngCall) (rng : SharedRng) :
    RngCall.runClient (.next :: calls) rng =
      (RngCall.runClient calls rng.next.2 >>= fun p =>
        pure ((rng.next.1.toNat : Int) :: p.1, p.2)) := rfl

/-- The first numbers from a state that was just seeded. -/
theorem runClient_rngInit (rng : SharedRng) (seed : UInt64) {n : Nat} (hn : 1 + n ≤ MT19937_N) :
    ∃ rng', RngCall.runClient (List.replicate (n + 1) .next) (rngInit rng seed) =
      .ok ((List.range' 0 (n + 1)).map fun j =>
        (((temper ((rngTwist (rngInit rng seed)).mt[j]?.getD 0)).toNat : Nat) : Int), rng') := by
  have hindex : ¬(rngInit rng seed).index < MT19937_N := Nat.lt_irrefl _
  have hnext : (rngInit rng seed).next =
      ((temper ((rngTwist (rngInit rng seed)).mt.get ⟨0, by decide⟩)).toUInt64,
        ⟨(rngTwist (rngInit rng seed)).mt, 1⟩) := dif_neg hindex
  have hzero : (rngTwist (rngInit rng seed)).mt[0]? =
      some ((rngTwist (rngInit rng seed)).mt.get ⟨0, by decide⟩) :=
    Vector.getElem?_eq_getElem (by decide)
  obtain ⟨rng', hrest⟩ := runClient_nexts (rngTwist (rngInit rng seed)).mt hn
  refine ⟨rng', ?_⟩
  rw [List.replicate_succ, runClient_next_cons, hnext, hrest, List.range'_succ, List.map_cons,
    hzero, UInt32.toNat_toUInt64]
  rfl

/-- Different first words show in the first 624 numbers. -/
theorem firstWord_eq_of_runClient {rng rng' : SharedRng} {seed seed' : UInt64}
    {outs : List Int} {s s' : SharedRng}
    (h : RngCall.runClient (List.replicate (623 + 1) .next) (rngInit rng seed) = .ok (outs, s))
    (h' : RngCall.runClient (List.replicate (623 + 1) .next) (rngInit rng' seed') =
      .ok (outs, s')) : firstWord seed = firstWord seed' := by
  obtain ⟨t, ht⟩ := runClient_rngInit rng seed (by decide : 1 + 623 ≤ MT19937_N)
  obtain ⟨t', ht'⟩ := runClient_rngInit rng' seed' (by decide : 1 + 623 ≤ MT19937_N)
  have houts : (List.range' 0 (623 + 1)).map (fun j =>
        (((temper ((rngTwist (rngInit rng seed)).mt[j]?.getD 0)).toNat : Nat) : Int)) =
      (List.range' 0 (623 + 1)).map fun j =>
        (((temper ((rngTwist (rngInit rng' seed')).mt[j]?.getD 0)).toNat : Nat) : Int) :=
    (congrArg Prod.fst (Except.ok.inj (ht.symm.trans h))).trans
      (congrArg Prod.fst (Except.ok.inj (ht'.symm.trans h'))).symm
  -- the tempering can be undone, so the twisted states are equal
  have hmt : (rngTwist (rngInit rng seed)).mt = (rngTwist (rngInit rng' seed')).mt := by
    apply Vector.ext
    intro j hj
    have hmem : j ∈ List.range' 0 (623 + 1) := List.mem_range'_1.mpr ⟨Nat.zero_le j, by
      rw [Nat.zero_add]
      exact hj⟩
    have hword := List.map_inj_left.mp houts j hmem
    rw [Vector.getElem?_eq_getElem hj, Vector.getElem?_eq_getElem hj] at hword
    exact temper_inj (UInt32.toNat_inj.mp (Int.ofNat.inj hword))
  have hsecond := second_eq_of_twistWords_eq hmt
  rw [get_rngInit, get_rngInit] at hsecond
  exact nextWord_inj hsecond

/-- What the client and the server give for one seed and the same calls. -/
def SameValues (rng : SharedRng) (seed : UInt64) (calls : List RngCall) : Prop :=
  ∃ outs rng' py', RngCall.runClient calls (rngInit rng seed) = .ok (outs, rng') ∧
    RngCall.runServer calls (PySharedRng.init seed.toNat) = (outs, py')

theorem toNat_lower (seed : UInt64) : (seed &&& 0xFFFFFFFF).toNat = seed.toNat % 2 ^ 32 := by
  rw [UInt64.toNat_and]
  exact Nat.and_two_pow_sub_one_eq_mod _ 32

/-- Without an upper half the first word is the seed. -/
theorem firstWord_lower (seed : UInt64) :
    firstWord (seed &&& 0xFFFFFFFF) = (seed &&& 0xFFFFFFFF).toUInt32 := by
  have hupper : ((seed &&& 0xFFFFFFFF) >>> 32).toUInt32 = 0 := by
    apply UInt32.toNat_inj.mp
    rw [UInt64.toNat_toUInt32, UInt64.toNat_shiftRight, toNat_lower]
    show (seed.toNat % 2 ^ 32) >>> 32 % 2 ^ 32 = 0
    rw [Nat.shiftRight_eq_div_pow]
    omega
  rw [firstWord, UInt64.and_assoc, UInt64.and_self, hupper, UInt32.xor_zero]

theorem firstWord_eq_iff (seed : UInt64) :
    firstWord seed = firstWord (seed &&& 0xFFFFFFFF) ↔ seed.toNat < 2 ^ 32 := by
  have hlt := seed.toNat_lt
  have hupper : (seed >>> 32).toUInt32 = 0 ↔ seed.toNat < 2 ^ 32 := by
    rw [← UInt32.toNat_inj, UInt64.toNat_toUInt32, UInt64.toNat_shiftRight]
    show seed.toNat >>> 32 % 2 ^ 32 = 0 ↔ _
    rw [Nat.shiftRight_eq_div_pow]
    omega
  rw [firstWord_lower, firstWord, ← hupper]
  constructor
  · intro h
    have hxor := congrArg ((seed &&& 0xFFFFFFFF).toUInt32 ^^^ ·) h
    simpa only [← UInt32.xor_assoc, UInt32.xor_self, UInt32.zero_xor] using hxor
  · intro h
    rw [h, UInt32.xor_zero]

theorem map_fillWords {n : Nat} (hn : n < MT19937_N) (mt : Vector UInt32 MT19937_N) :
    PySharedRng.fillWords n hn (mt.map UInt32.toNat) = (fillWords n hn mt).map UInt32.toNat := by
  induction n with
  | zero => rfl
  | succ n ih =>
      have hprev := ih (by omega)
      unfold PySharedRng.fillWords fillWords at hprev ⊢
      rw [Nat.fold_succ, Nat.fold_succ, hprev, Vector.map_set, toNat_nextWord]
      dsimp only
      rw [Vector.getElem_map]

/-- The server seeds with the lower half. -/
theorem init_toPy (rng : SharedRng) (seed : UInt64) :
    PySharedRng.init seed.toNat = (rngInit rng (seed &&& 0xFFFFFFFF)).toPy := by
  have hfirst : (firstWord (seed &&& 0xFFFFFFFF)).toNat = seed.toNat &&& 0xFFFFFFFF := by
    have hmask : seed.toNat &&& 0xFFFFFFFF = seed.toNat % 2 ^ 32 :=
      Nat.and_two_pow_sub_one_eq_mod _ 32
    rw [firstWord_lower, UInt64.toNat_toUInt32, toNat_lower, hmask, Nat.mod_mod]
  have hstart : (Vector.replicate MT19937_N 0).set 0 (seed.toNat &&& 0xFFFFFFFF) (by decide) =
      ((Vector.replicate MT19937_N 0).set 0 (firstWord (seed &&& 0xFFFFFFFF)) (by decide)).map
        UInt32.toNat := by
    rw [Vector.map_set, hfirst, Vector.map_replicate]
    rfl
  rw [rngInit_congr rng ⟨Vector.replicate _ 0, 0⟩ rfl, PySharedRng.init, hstart, map_fillWords]
  rfl

/-- The numbers up to the next twist tell the two apart. -/
theorem toNat_lt_of_sameValues {rng : SharedRng} {seed : UInt64}
    (h : SameValues rng seed (List.replicate (623 + 1) .next)) : seed.toNat < 2 ^ 32 := by
  obtain ⟨outs, rng', py', hclient, hserver⟩ := h
  obtain ⟨outs', s, hlower, hpy⟩ := runClient_toPy (List.replicate (623 + 1) .next)
    (rngInit rng (seed &&& 0xFFFFFFFF))
  rw [init_toPy rng, hpy] at hserver
  obtain rfl := congrArg Prod.fst hserver
  exact (firstWord_eq_iff seed).mp (firstWord_eq_of_runClient hclient hlower)

/-- The two generators agree on a seed if and only if it has no upper half. -/
theorem sameValues_iff (rng : SharedRng) (seed : UInt64) :
    (∀ calls, SameValues rng seed calls) ↔ seed.toNat < 2 ^ 32 := by
  constructor
  · exact fun h => toNat_lt_of_sameValues (h _)
  · intro h calls
    obtain ⟨outs, s, hlower, hpy⟩ := runClient_toPy calls (rngInit rng (seed &&& 0xFFFFFFFF))
    refine ⟨outs, s, s.toPy, ?_, ?_⟩
    · rw [rngInit_congr rng rng ((firstWord_eq_iff seed).mpr h)]
      exact hlower
    · rw [init_toPy rng]
      exact hpy

/-- The server takes the seed `1 << 32` for zero, the client for one. -/
theorem not_sameValues_upper_half :
    ¬SameValues ⟨Vector.replicate _ 0, 0⟩ 0x100000000 (List.replicate (623 + 1) .next) :=
  fun h => absurd (toNat_lt_of_sameValues h) (by decide)

end RISCover
