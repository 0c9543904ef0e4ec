import Mathlib.Algebra.Order.Ring.Nat

/-!
# The shared random number generator

`rng.c`: a Mersenne twister whose 624 words are seeded from both halves of a 64-bit seed and are
twisted in place. The draws of the client are computations over its state; what the C code leaves
undefined stops them with a `Fault`.
-/

namespace RISCover

def MT19937_N : Nat := 624
def MT19937_M : Nat := 397
def MT19937_UPPER_MASK : UInt32 := 0x80000000
def MT19937_LOWER_MASK : UInt32 := 0x7fffffff

/-- `shared_rng`. -/
structure SharedRng where
  mt : Vector UInt32 MT19937_N
  index : Nat

/-! ## Seeding

Every word is made of the one before, so the seed shows in all of them. -/

/-- What `rng_init` writes to the first word. -/
def firstWord (seed : UInt64) : UInt32 := (seed &&& 0xFFFFFFFF).toUInt32 ^^^ (seed >>> 32).toUInt32

/-- What `rng_init` writes to word `i`, with the word before it; the product is an
`unsigned long`. -/
def nextWord (prev : UInt32) (i : Nat) : UInt32 :=
  ((1812433253 : UInt64) * (prev ^^^ (prev >>> 30)).toUInt64 + UInt64.ofNat i).toUInt32

/-- The loop of `rng_init`, up to word `n`. -/
def fillWords (n : Nat) (hn : n < MT19937_N) (mt : Vector UInt32 MT19937_N) :
    Vector UInt32 MT19937_N :=
  Nat.fold n (fun i hi mt => mt.set (i + 1) (nextWord mt[i] (i + 1)) (by omega)) mt

/-- `rng_init`. -/
def rngInit (rng : SharedRng) (seed : UInt64) : SharedRng where
  mt := fillWords (MT19937_N - 1) (by decide) (rng.mt.set 0 (firstWord seed) (by decide))
  index := MT19937_N

/-! ## Drawing words

The state is twisted as a whole, when the first word after the seeding or the last 624 is asked for.
-/

/-- What `rng_twist` writes to a word, from the word itself, the one behind it and the one
`MT19937_M` further on. -/
def twistWord (word next far : UInt32) : UInt32 :=
  let y := (word &&& MT19937_UPPER_MASK) ||| (next &&& MT19937_LOWER_MASK)
  let xA := y >>> 1
  far ^^^ (if y % 2 ≠ 0 then xA ^^^ 0x9908B0DF else xA)

/-- `rng_twist`. -/
def rngTwist (rng : SharedRng) : SharedRng where
  mt := Nat.fold MT19937_N (fun i hi mt =>
    mt.set i (twistWord mt[i] (mt.get ⟨(i + 1) % MT19937_N, Nat.mod_lt _ (by decide)⟩)
      (mt.get ⟨(i + MT19937_M) % MT19937_N, Nat.mod_lt _ (by decide)⟩))) rng.mt
  index := 0

/-- The tempering of `rng_next`. -/
def temper (y : UInt32) : UInt32 :=
  let y := y ^^^ (y >>> 11)
  let y := y ^^^ ((y <<< 7) &&& 0x9D2C5680)
  let y := y ^^^ ((y <<< 15) &&& 0xEFC60000)
  y ^^^ (y >>> 18)

/-- `rng_next` on the state. -/
def SharedRng.next (rng : SharedRng) : UInt64 × SharedRng :=
  if h : rng.index < MT19937_N then
    ((temper rng.mt[rng.index]).toUInt64, { rng with index := rng.index + 1 })
  else
    let rng := rngTwist rng
    ((temper (rng.mt.get ⟨0, by decide⟩)).toUInt64, { rng with index := 1 })

/-! ## Draws

A draw reads and writes the state, or stops. The division `cMod` and the index `element` are the
operations that C does not define everywhere. -/

/-- Why a draw stops. -/
inductive Fault where
  | divisionByZero
  | emptyRange
  | outOfBounds
  | assertion
  deriving DecidableEq

/-- A computation that draws from the generator. -/
abbrev Draw (α : Type) := StateT SharedRng (Except Fault) α

/-- `rng_next`. -/
def rngNext : Draw UInt64 := fun rng => .ok rng.next

/-- `x % y` of C. -/
def cMod (x y : UInt64) : Draw UInt64 := if y = 0 then throw .divisionByZero else pure (x % y)

/-- `rng_randint`. -/
def rngRandint (a b : Int64) : Draw Int64 := do
  if b < a then throw .emptyRange
  let r ← cMod (← rngNext) (b - a + 1).toUInt64
  pure (a.toUInt64 + r).toInt64

/-- `table[i]`. -/
def element {α : Type} (table : List α) (i : Nat) : Draw α :=
  match table[i]? with
  | some x => pure x
  | none => throw .outOfBounds

theorem element_eq {α : Type} {table : List α} {i : Nat} (h : i < table.length) :
    element table i = pure table[i] := by
  rw [element, List.getElem?_eq_getElem h]

/-- A draw for each of `n` places, in order. -/
def drawEach {α : Type} (m : Draw α) : (n : Nat) → Draw (Vector α n)
  | 0 => pure #v[]
  | n + 1 => do
    let xs ← drawEach m n
    let x ← m
    pure (xs.push x)

/-- Draws under an `#if`; without them a member keeps what it has. -/
def drawIf {α : Type} (defined : Bool) (m : Draw α) (kept : α) : Draw α :=
  if defined then m else pure kept

theorem drawIf_eq {α : Type} (defined : Bool) (m : Draw α) (kept other : α) :
    drawIf defined m kept = (fun x => if defined then x else kept) <$> drawIf defined m other := by
  cases defined with
  | true =>
      show m = (fun x => x) <$> m
      exact (id_map m).symm
  | false => simp [drawIf]

theorem drawEach_map {α β : Type} (f : α → β) (m : Draw α) (n : Nat) :
    drawEach (f <$> m) n = Vector.map f <$> drawEach m n := by
  induction n with
  | zero => simp [drawEach]
  | succ n ih =>
      rw [drawEach, drawEach, ih]
      simp only [map_eq_pure_bind, bind_assoc, pure_bind, Vector.map_push]

/-! ## Ranges

What `rng_randint` gives for the ranges that the generator asks for, none of which is near the ends
of an `int64_t`. -/

theorem toInt_toInt64_of_lt {x : UInt64} (h : x.toNat < 2 ^ 63) : x.toInt64.toInt = x.toNat := by
  have hlt : x.toBitVec.toNat < 2 ^ 63 := h
  show x.toBitVec.toInt = x.toBitVec.toNat
  exact BitVec.toInt_eq_toNat_of_lt (by omega)

theorem toInt64_eq_zero {x : UInt64} : x.toInt64 = 0 ↔ x = 0 := by
  constructor
  · exact fun h => congrArg Int64.toUInt64 h
  · rintro rfl
    rfl

/-- A draw from a range that is not empty. -/
theorem rngRandint_eq {a b : Int64} (hle : a ≤ b) (hne : (b - a + 1).toUInt64 ≠ 0) :
    rngRandint a b = (fun x => (a.toUInt64 + x % (b - a + 1).toUInt64).toInt64) <$> rngNext := by
  have h : ¬b < a := by simpa using hle
  simp only [rngRandint, cMod, if_neg h, if_neg hne, pure_bind, map_eq_pure_bind]

/-- Numbers from zero on are remainders. -/
theorem rngRandint_zero {b : Int64} {n : UInt64} (hle : 0 ≤ b) (hrange : (b + 1).toUInt64 = n)
    (hne : n ≠ 0) : rngRandint 0 b = (fun x => (x % n).toInt64) <$> rngNext := by
  have hwidth : (b - 0 + 1).toUInt64 = n := by rw [Int64.sub_zero, hrange]
  rw [rngRandint_eq hle (by rwa [hwidth]), hwidth]
  congr 1
  funext x
  rw [show Int64.toUInt64 0 = 0 from rfl, UInt64.zero_add]

/-- `rng_randint(rng, 0, num_regs)`. -/
theorem rngRandint_numRegs (numRegs : UInt32) :
    rngRandint 0 numRegs.toUInt64.toInt64 =
      (fun x => (x % (numRegs.toUInt64 + 1)).toInt64) <$> rngNext := by
  have hlt := numRegs.toNat_lt
  have htoNat : numRegs.toUInt64.toNat = numRegs.toNat := UInt32.toNat_toUInt64 numRegs
  have hle : (0 : Int64) ≤ numRegs.toUInt64.toInt64 := by
    rw [Int64.le_iff_toInt_le, toInt_toInt64_of_lt (by omega), htoNat]
    exact Int.natCast_nonneg _
  refine rngRandint_zero hle rfl fun h => ?_
  have hzero := congrArg UInt64.toNat h
  simp at hzero
  omega

/-- `rng_randint(rng, 0, n - 1)`. -/
theorem rngRandint_index {n : Nat} (hpos : 0 < n) (hlt : n < 2 ^ 31) :
    rngRandint 0 (Int64.ofNat n - 1) = (fun x => (x % UInt64.ofNat n).toInt64) <$> rngNext := by
  have hone : Int64.toInt 1 = 1 := rfl
  have hle : (0 : Int64) ≤ Int64.ofNat n - 1 := by
    rw [Int64.le_iff_toInt_le, Int64.toInt_sub, Int64.toInt_ofNat_of_lt (by omega), hone,
      Int.bmod_eq_of_le] <;> simp <;> omega
  have hrange : (Int64.ofNat n - 1 + 1).toUInt64 = UInt64.ofNat n := by
    rw [Int64.sub_add_cancel]
    rfl
  refine rngRandint_zero hle hrange fun h => ?_
  have hzero := congrArg UInt64.toNat h
  simp at hzero
  omega

/-- A number drawn from `0` to `n - 1` is an index of `n` elements. -/
theorem toNatClampNeg_mod {n : Nat} (hpos : 0 < n) (hlt : n < 2 ^ 31) (x : UInt64) :
    (x % UInt64.ofNat n).toInt64.toNatClampNeg = x.toNat % n := by
  have hn : (UInt64.ofNat n).toNat = n := by
    simp
    omega
  have hmod : (x % UInt64.ofNat n).toNat = x.toNat % n := by rw [UInt64.toNat_mod, hn]
  have hbound : x.toNat % n < n := Nat.mod_lt _ hpos
  rw [Int64.toNatClampNeg, toInt_toInt64_of_lt (by omega), hmod, Int.toNat_natCast]

/-! ## The seed decides the state

`rng_init` overwrites every word, so nothing of the state before is left. -/

theorem get_eq_getElem {α : Type} {n : Nat} (xs : Vector α n) (i : Fin n) : xs.get i = xs[i.1] :=
  rfl

/-- Word `i` of a state that is seeded with a first word. -/
def seedWord (first : UInt32) : Nat → UInt32
  | 0 => first
  | i + 1 => nextWord (seedWord first i) (i + 1)

theorem get_fillWords {n : Nat} (hn : n < MT19937_N) (mt : Vector UInt32 MT19937_N) :
    ∀ j (hj : j ≤ n),
      (fillWords n hn mt).get ⟨j, by omega⟩ = seedWord (mt.get ⟨0, by decide⟩) j := by
  simp only [get_eq_getElem]
  induction n with
  | zero =>
      intro j hj
      obtain rfl : j = 0 := by omega
      rfl
  | succ n ih =>
      intro j hj
      have hword := ih (by omega)
      simp only [fillWords, Nat.fold_succ] at hword ⊢
      -- the new word comes from the one before it, the others stay
      by_cases hlast : j = n + 1
      · subst hlast
        rw [Vector.getElem_set_self, hword n (Nat.le_refl n), seedWord]
      · rw [Vector.getElem_set_ne _ _ (by omega)]
        exact hword j (by omega)

theorem get_rngInit (rng : SharedRng) (seed : UInt64) (i : Fin MT19937_N) :
    (rngInit rng seed).mt.get i = seedWord (firstWord seed) i := by
  have hfirst : (rng.mt.set 0 (firstWord seed) (by decide)).get ⟨0, by decide⟩ =
      firstWord seed := by
    rw [get_eq_getElem, Vector.getElem_set_self]
  rw [rngInit, get_fillWords _ _ i.1 (Nat.le_sub_one_of_lt i.2), hfirst]

/-- Seeding overwrites whatever was in the generator, and depends on the first word only. -/
theorem rngInit_congr (rng rng' : SharedRng) {seed seed' : UInt64}
    (h : firstWord seed = firstWord seed') : rngInit rng seed = rngInit rng' seed' := by
  have hmt : (rngInit rng seed).mt = (rngInit rng' seed').mt := by
    apply Vector.ext
    intro i hi
    show (rngInit rng seed).mt.get ⟨i, hi⟩ = (rngInit rng' seed').mt.get ⟨i, hi⟩
    rw [get_rngInit, get_rngInit, h]
  exact congrArg (fun mt => SharedRng.mk mt MT19937_N) hmt

/-! ## The first draw

The first word of the twist needs three words of the seeding, so a first draw can be computed
without all of it. -/

/-- The words up to `n` twisted. -/
def twistWords (n : Nat) (hn : n ≤ MT19937_N) (mt : Vector UInt32 MT19937_N) :
    Vector UInt32 MT19937_N :=
  Nat.fold n (fun i hi mt =>
    mt.set i (twistWord mt[i] (mt.get ⟨(i + 1) % MT19937_N, Nat.mod_lt _ (by decide)⟩)
      (mt.get ⟨(i + MT19937_M) % MT19937_N, Nat.mod_lt _ (by decide)⟩))) mt

/-- The first word is twisted once, from words that are not twisted yet. -/
theorem get_twistWords_zero (n : Nat) (hn : n + 1 ≤ MT19937_N) (mt : Vector UInt32 MT19937_N) :
    (twistWords (n + 1) hn mt).get ⟨0, by decide⟩ =
      twistWord (mt.get ⟨0, by decide⟩) (mt.get ⟨1, by decide⟩)
        (mt.get ⟨MT19937_M, by decide⟩) := by
  induction n with
  | zero =>
      rw [twistWords, Nat.fold_succ, Nat.fold_zero, get_eq_getElem, Vector.getElem_set_self]
      rfl
  | succ n ih =>
      rw [← ih (by omega), twistWords, Nat.fold_succ, get_eq_getElem,
        Vector.getElem_set_ne _ _ (Nat.succ_ne_zero n)]
      rfl

/-- The first number that a seed gives. -/
theorem next_rngInit (rng : SharedRng) (seed : UInt64) :
    (rngInit rng seed).next.1 = (temper (twistWord (firstWord seed) (seedWord (firstWord seed) 1)
      (seedWord (firstWord seed) MT19937_M))).toUInt64 := by
  have hzero : (rngTwist (rngInit rng seed)).mt.get ⟨0, by decide⟩ = twistWord (firstWord seed)
      (seedWord (firstWord seed) 1) (seedWord (firstWord seed) MT19937_M) := by
    show (twistWords (623 + 1) (by decide) (rngInit rng seed).mt).get ⟨0, by decide⟩ = _
    rw [get_twistWords_zero, get_rngInit, get_rngInit, get_rngInit]
    rfl
  have hindex : ¬(rngInit rng seed).index < MT19937_N := Nat.lt_irrefl _
  rw [SharedRng.next, dif_neg hindex]
  exact congrArg (fun w => (temper w).toUInt64) hzero

end RISCover
