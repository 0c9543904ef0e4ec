import RISCover.Collection.Immediate

/-!
# The numbers that immediates are drawn from

A drawn immediate fits into its bits, and a small one is meant to be small as in the client's
generator. `SignedImmediate` takes its small numbers from the range of `min` and `max` and of `-8`
and `8`; `UnsignedImmediate` takes them from `0` up to the larger one of `max` and `16`.
-/

open Choices

namespace RISCover

namespace Immediate

/-- `twos`. -/
def twosChecked (self : Immediate) (n : Int) : Except InitError Nat :=
  if n < self.min ∨ n > self.max then .error .valueError else .ok (self.twos n)

/-- `nums`, as `__init__` makes them. -/
def numsChecked (self : Immediate) : Except InitError (List (Option Nat)) :=
  match self.cls with
  | .signed => do
    let ones ← self.twosChecked (-1)
    let clear ← self.twosChecked 0
    let low ← self.twosChecked self.min
    let high ← self.twosChecked self.max
    pure [some ones, some clear, some low, some high, none]
  | .unsigned => pure [some self.min.toNat, some self.max.toNat, none]

/-- `small_immediate`. -/
def smallChecked (self : Immediate) : Rand InitError Nat :=
  match self.cls with
  | .signed => do
    let n ← randint .valueError (Max.max self.min (-8)) (Min.min self.max 8)
    self.twosChecked n
  | .unsigned => do pure (← randint .valueError 0 (Max.max self.max 16)).toNat

/-- `__init__` and `get_random`. -/
def initAndGetRandom (self : Immediate) : Rand InitError Nat := do
  let nums ← self.numsChecked
  match ← choice .indexError nums with
  | some r => pure r
  | none =>
    if (← randint .valueError 1 10) ≤ 9 then self.smallChecked else getrandbits self.bits

/-! ## Two's complement

`twos` gives the number modulo the width, without its assertion. -/

variable {instr : Immediate}

/-- `twos` is called with numbers in the range only. -/
theorem twosChecked_eq {n : Int} (hmin : instr.min ≤ n) (hmax : n ≤ instr.max) :
    instr.twosChecked n = .ok (instr.twos n) := by
  rw [twosChecked, if_neg]
  omega

theorem natCast_two_pow (n : Nat) : ((2 ^ n : Nat) : Int) = 2 ^ n := by
  push_cast
  rfl

theorem two_pow_bits (h : 0 < instr.bits) :
    (2 : Int) ^ instr.bits = 2 * 2 ^ (instr.bits - 1) := by
  have hbits : instr.bits = instr.bits - 1 + 1 := by omega
  rw [hbits, Int.pow_succ, Int.mul_comm]
  rfl

theorem max_lt (h : 0 < instr.bits) : instr.max < 2 ^ instr.bits := by
  have hpow := two_pow_pos_int (instr.bits - 1)
  have hbits := two_pow_bits h
  unfold max
  split <;> omega

theorem neg_le_min (h : 0 < instr.bits) : -2 ^ instr.bits ≤ instr.min := by
  have hpow := two_pow_pos_int (instr.bits - 1)
  have hbits := two_pow_bits h
  unfold min
  split <;> omega

theorem twos_eq_emod (h : 0 < instr.bits) {n : Int} (hmin : instr.min ≤ n)
    (hmax : n ≤ instr.max) : (instr.twos n : Int) = n % 2 ^ instr.bits := by
  have hlt := max_lt h
  have hle := neg_le_min h
  unfold twos
  split
  next hneg =>
    rw [Int.toNat_of_nonneg (by omega), ← Int.add_emod_left]
    exact (Int.emod_eq_of_lt (by omega) (by omega)).symm
  next hnonneg =>
    rw [Int.toNat_of_nonneg (by omega)]
    exact (Int.emod_eq_of_lt (by omega) (by omega)).symm

theorem twos_lt (h : 0 < instr.bits) {n : Int} (hmin : instr.min ≤ n) (hmax : n ≤ instr.max) :
    instr.twos n < 2 ^ instr.bits := by
  have hlt := Int.emod_lt_of_pos n (two_pow_pos_int instr.bits)
  rw [← twos_eq_emod h hmin hmax, ← natCast_two_pow] at hlt
  exact Int.ofNat_lt.mp hlt

/-! ## The interesting numbers -/

/-- A signed immediate has at least the numbers `-1` and `0`. -/
theorem min_le_neg_one (h : instr.cls = .signed) : instr.min ≤ -1 := by
  have hpow := two_pow_pos_int (instr.bits - 1)
  simp only [min, h]
  omega

theorem numsChecked_eq : instr.numsChecked = .ok instr.nums := by
  have hmax := instr.max_nonneg
  have hmin := instr.min_nonpos
  cases hcls : instr.cls with
  | signed =>
    simp only [numsChecked, nums, hcls]
    have hneg := min_le_neg_one hcls
    rw [twosChecked_eq hneg (by omega), twosChecked_eq hmin hmax,
      twosChecked_eq (Int.le_refl _) (by omega), twosChecked_eq (by omega) (Int.le_refl _)]
    rfl
  | unsigned =>
    simp only [numsChecked, nums, hcls]
    rfl

theorem lt_of_mem_nums (h : 0 < instr.bits) {r : Nat} (hr : some r ∈ instr.nums) :
    r < 2 ^ instr.bits := by
  have hmax := instr.max_nonneg
  have hmin := instr.min_nonpos
  have hlt := max_lt h
  have hpow := natCast_two_pow instr.bits
  unfold nums at hr
  split at hr
  next hcls =>
    have hneg := min_le_neg_one hcls
    simp only [List.mem_cons, Option.some.injEq, List.not_mem_nil, or_false, reduceCtorEq] at hr
    rcases hr with rfl | rfl | rfl | rfl
    · exact twos_lt h hneg (by omega)
    · exact twos_lt h hmin hmax
    · exact twos_lt h (Int.le_refl _) (by omega)
    · exact twos_lt h (by omega) (Int.le_refl _)
  next =>
    simp only [List.mem_cons, Option.some.injEq, List.not_mem_nil, or_false, reduceCtorEq] at hr
    rcases hr with rfl | rfl
    · omega
    · omega

/-! ## The small numbers

A small number is between -8 and 8, or from 0 to 16. `StaysInRange` is what is meant to hold of
every drawn one. -/

/-- What the client's generator takes for a small immediate, cut to the bits of this one. -/
def IsSmall (self : Immediate) (v : Nat) : Prop :=
  match self.cls with
  | .signed => ∃ n : Int, -8 ≤ n ∧ n ≤ 8 ∧ (v : Int) = n % 2 ^ self.bits
  | .unsigned => v ≤ 16

/-- The draws that lead to a small immediate. -/
def TakesSmall (self : Immediate) (draws : Nat → Nat) : Prop :=
  self.nums[draws 0 % self.nums.length]? = some none ∧ draws 1 % 10 < 9

/-- The drawn number fits, and is small where a small one is drawn. -/
def StaysInRange (self : Immediate) (draws : Nat → Nat) : Prop :=
  ∃ v rest, self.initAndGetRandom draws = .ok (v, rest) ∧ v < 2 ^ self.bits ∧
    (self.TakesSmall draws → self.IsSmall v)

/-- A signed immediate draws small numbers that fit. -/
theorem smallChecked_run_signed (h : 0 < instr.bits) (hcls : instr.cls = .signed)
    (draws : Nat → Nat) : ∃ v, instr.smallChecked draws = .ok (v, later draws) ∧
      v < 2 ^ instr.bits ∧ instr.IsSmall v := by
  have hmax := instr.max_nonneg
  have hmin := instr.min_nonpos
  have hle : Max.max instr.min (-8) ≤ Min.min instr.max 8 := by omega
  obtain ⟨n, hn, hlow, hhigh⟩ := exists_randint_run (e := InitError.valueError) hle draws
  have hlow' : instr.min ≤ n := by omega
  have hhigh' : n ≤ instr.max := by omega
  refine ⟨instr.twos n, ?_, twos_lt h hlow' hhigh', ?_⟩
  · simp only [smallChecked, hcls]
    rw [bind_run hn, twosChecked_eq hlow' hhigh']
    rfl
  · simp only [IsSmall, hcls]
    exact ⟨n, by omega, by omega, twos_eq_emod h hlow' hhigh'⟩

/-- An unsigned immediate draws a number up to `max` and `16`, whichever is larger. -/
theorem smallChecked_run_unsigned (hcls : instr.cls = .unsigned) (draws : Nat → Nat) :
    instr.smallChecked draws =
      .ok (((draws 0 : Int) % (Max.max instr.max 16 + 1)).toNat, later draws) := by
  have hmax := instr.max_nonneg
  have hle : (0 : Int) ≤ Max.max instr.max 16 := by omega
  simp only [smallChecked, hcls]
  rw [bind_run (randint_run hle draws), Int.sub_zero, Int.zero_add]
  rfl

theorem smallChecked_eq : instr.smallChecked = instr.smallImmediate := by
  funext draws
  cases hcls : instr.cls with
  | signed =>
    have hmax := instr.max_nonneg
    have hmin := instr.min_nonpos
    have hle : Max.max instr.min (-8) ≤ Min.min instr.max 8 := by omega
    obtain ⟨n, hn, hlow, hhigh⟩ := exists_randint_run (e := InitError.valueError) hle draws
    simp only [smallChecked, smallImmediate, hcls]
    rw [bind_run hn, bind_run hn, twosChecked_eq (by omega) (by omega)]
    rfl
  | unsigned => simp only [smallChecked, smallImmediate, hcls]

/-- The numbers that `twos` refuses never come up: where instructions are drawn, it need not be
looked at. -/
theorem initAndGetRandom_eq : instr.initAndGetRandom = instr.getRandom := by
  rw [initAndGetRandom, numsChecked_eq, smallChecked_eq, getRandom]
  rfl

/-! ## The cases of `get_random`

The first choice is the list of interesting numbers, the second one any number of the width, the
third one a small number. -/

theorem initAndGetRandom_nums {draws : Nat → Nat} {r : Nat}
    (hr : instr.nums[draws 0 % instr.nums.length]? = some (some r)) :
    instr.initAndGetRandom draws = .ok (r, later draws) := by
  rw [initAndGetRandom, numsChecked_eq]
  have hnums : (liftM (Except.ok instr.nums : Except InitError _) : Rand InitError _) draws =
      .ok (instr.nums, draws) := rfl
  rw [bind_run hnums, bind_run (choice_run hr)]
  rfl

/-- Nine of ten random numbers are small. -/
theorem initAndGetRandom_random {draws : Nat → Nat}
    (hr : instr.nums[draws 0 % instr.nums.length]? = some none) :
    instr.initAndGetRandom draws = (if draws 1 % 10 < 9 then instr.smallChecked else
      getrandbits instr.bits) (later (later draws)) := by
  have hle : (1 : Int) ≤ 10 := by decide
  rw [initAndGetRandom, numsChecked_eq]
  have hnums : (liftM (Except.ok instr.nums : Except InitError _) : Rand InitError _) draws =
      .ok (instr.nums, draws) := rfl
  rw [bind_run hnums, bind_run (choice_run hr)]
  show (randint InitError.valueError 1 10 >>= _) (later draws) = _
  rw [bind_run (randint_run hle (later draws))]
  have hbranch : 1 + ((later draws 0 : Nat) : Int) % (10 - 1 + 1) ≤ 9 ↔ draws 1 % 10 < 9 := by
    show 1 + ((draws 1 : Nat) : Int) % (10 - 1 + 1) ≤ 9 ↔ _
    omega
  rw [if_congr hbranch rfl rfl]

/-- The small number that an unsigned immediate draws. -/
def smallDraw (self : Immediate) (draws : Nat → Nat) : Int :=
  (draws 2 : Int) % (Max.max self.max 16 + 1)

/-! ## The drawn number

Only a small number can leave the range, and only an unsigned one does: it is drawn up to the larger
bound. -/

theorem takesSmall_run {draws : Nat → Nat} (h : instr.TakesSmall draws) :
    instr.initAndGetRandom draws = instr.smallChecked (later (later draws)) := by
  rw [initAndGetRandom_random h.1, if_pos h.2]

/-- All other numbers fit. -/
theorem staysInRange_of_not_takesSmall (h : 0 < instr.bits) {draws : Nat → Nat}
    (hnot : ¬instr.TakesSmall draws) : instr.StaysInRange draws := by
  have hlt : draws 0 % instr.nums.length < instr.nums.length :=
    Nat.mod_lt _ (List.length_pos_iff.mpr instr.nums_ne_nil)
  obtain ⟨r, hr⟩ : ∃ r, instr.nums[draws 0 % instr.nums.length]? = some r :=
    ⟨_, List.getElem?_eq_getElem hlt⟩
  cases r with
  | some r =>
    have hmem := List.mem_of_getElem? hr
    exact ⟨r, _, initAndGetRandom_nums hr, lt_of_mem_nums h hmem, fun htakes => absurd htakes hnot⟩
  | none =>
    have hrun := initAndGetRandom_random hr
    rw [if_neg fun hten => hnot ⟨hr, hten⟩] at hrun
    refine ⟨_, _, hrun, ?_, fun htakes => absurd htakes hnot⟩
    exact Nat.mod_lt _ (Nat.two_pow_pos instr.bits)

theorem staysInRange_of_signed (h : 0 < instr.bits) (hcls : instr.cls = .signed)
    {draws : Nat → Nat} (htakes : instr.TakesSmall draws) : instr.StaysInRange draws := by
  obtain ⟨v, hv, hbits, hsmall⟩ := smallChecked_run_signed h hcls (later (later draws))
  exact ⟨v, _, (takesSmall_run htakes).trans hv, hbits, fun _ => hsmall⟩

theorem staysInRange_unsigned_iff (hcls : instr.cls = .unsigned) {draws : Nat → Nat}
    (htakes : instr.TakesSmall draws) :
    instr.StaysInRange draws ↔ instr.smallDraw draws ≤ Min.min instr.max 16 := by
  have hmax : instr.max = 2 ^ instr.bits - 1 := by simp only [max, hcls]
  have hpow := natCast_two_pow instr.bits
  have hdraw : 0 ≤ instr.smallDraw draws := by
    have hnonneg := instr.max_nonneg
    apply Int.emod_nonneg
    omega
  -- the draw is handed out as it is
  have hvalue : instr.initAndGetRandom draws =
      .ok ((instr.smallDraw draws).toNat, later (later (later draws))) :=
    (takesSmall_run htakes).trans (smallChecked_run_unsigned hcls _)
  have hsmall : ∀ v, instr.IsSmall v ↔ v ≤ 16 := by
    intro v
    simp only [IsSmall, hcls]
  constructor
  · rintro ⟨v, rest, hv, hbits, hsixteen⟩
    rw [hvalue] at hv
    obtain rfl : (instr.smallDraw draws).toNat = v := congrArg Prod.fst (Except.ok.inj hv)
    have hle := (hsmall _).mp (hsixteen htakes)
    omega
  · intro hle
    refine ⟨_, _, hvalue, ?_, fun _ => (hsmall _).mpr ?_⟩
    · omega
    · omega

/-- A drawn number may only be too large where an unsigned immediate draws a small one, and there it
is whenever the draw is above `max` or `16`; for some draws it is. -/
theorem staysInRange_iff (h : 0 < instr.bits) :
    (∀ draws, instr.StaysInRange draws ↔ instr.cls = .signed ∨ ¬instr.TakesSmall draws ∨
      instr.smallDraw draws ≤ Min.min instr.max 16) ∧
    ((∀ draws, instr.StaysInRange draws) ↔ instr.cls = .signed) := by
  have hiff : ∀ draws, instr.StaysInRange draws ↔ instr.cls = .signed ∨
      ¬instr.TakesSmall draws ∨ instr.smallDraw draws ≤ Min.min instr.max 16 := by
    intro draws
    by_cases htakes : instr.TakesSmall draws
    · cases hcls : instr.cls with
      | signed => exact ⟨fun _ => Or.inl rfl, fun _ => staysInRange_of_signed h hcls htakes⟩
      | unsigned =>
        rw [staysInRange_unsigned_iff hcls htakes]
        grind
    · exact ⟨fun _ => Or.inr (Or.inl htakes), fun _ => staysInRange_of_not_takesSmall h htakes⟩
  refine ⟨hiff, fun hall => ?_, fun hcls draws => (hiff draws).mpr (Or.inl hcls)⟩
  cases hcls : instr.cls with
  | signed => rfl
  | unsigned =>
    -- the random number is chosen, and a small one, and the largest of these
    have hnonneg := instr.max_nonneg
    have hpow := natCast_two_pow instr.bits
    have hmax : instr.max = 2 ^ instr.bits - 1 := by simp only [max, hcls]
    let draws : Nat → Nat := fun i => [2, 0, (Max.max instr.max 16).toNat].getD i 0
    have htakes : instr.TakesSmall draws := by
      refine ⟨?_, Nat.zero_lt_succ 8⟩
      simp only [nums, hcls]
      rfl
    have hdraw : instr.smallDraw draws = Max.max instr.max 16 := by
      show (((Max.max instr.max 16).toNat : Nat) : Int) % _ = _
      rw [Int.toNat_of_nonneg (by omega)]
      exact Int.emod_eq_of_lt (by omega) (by omega)
    have hle := (staysInRange_unsigned_iff hcls htakes).mp (hall draws)
    rw [hdraw] at hle
    -- `max` is one less than a power of two
    have hsixteen : 2 ^ instr.bits = 17 := by omega
    have heven : 2 ∣ 2 ^ instr.bits := dvd_pow_self 2 (Nat.ne_of_gt h)
    omega

/-- `imm12` of a load. -/
theorem staysInRange_iff_imm12 :
    ¬∀ draws, (init .unsigned [(31, 20)] (by decide)).StaysInRange draws := by
  rw [(staysInRange_iff (by decide)).2]
  intro h
  cases h

/-- A number of two bits that is `16`, and a small number that is `40`. -/
theorem not_staysInRange :
    ¬(init .unsigned [(9, 8)] (by decide)).StaysInRange (fun i => [2, 0, 16].getD i 0) ∧
    ¬(init .unsigned [(31, 20)] (by decide)).StaysInRange (fun i => [2, 0, 40].getD i 0) := by
  constructor
  · rw [staysInRange_unsigned_iff rfl ⟨rfl, Nat.zero_lt_succ 8⟩]
    exact Int.not_le.mpr (Int.lt_of_sub_pos (show (0 : Int) < 13 by decide))
  · rw [staysInRange_unsigned_iff rfl ⟨rfl, Nat.zero_lt_succ 8⟩]
    exact Int.not_le.mpr (Int.lt_of_sub_pos (show (0 : Int) < 24 by decide))

end Immediate

end RISCover
