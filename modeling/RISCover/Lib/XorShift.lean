import Mathlib.Logic.Basic

/-!
# Steps that mix the bits of a word

A step that xors a word with a shifted copy of itself can be undone, bit after bit: from the side
that the shift comes from, every bit is mixed with one that is known already. So can a
multiplication by a number that has an inverse.
-/

namespace XorShift

section

variable {w : Nat} {x y : BitVec w}

/-- A shift to the right is undone from the top. -/
theorem xor_shiftRight_inj {k : Nat} (hk : 0 < k) (h : x ^^^ (x >>> k) = y ^^^ (y >>> k)) :
    x = y := by
  have hbits : ∀ n i, w - i ≤ n → x.getLsbD i = y.getLsbD i := by
    intro n
    induction n with
    | zero =>
        intro i hi
        rw [BitVec.getLsbD_of_ge x i (by omega), BitVec.getLsbD_of_ge y i (by omega)]
    | succ n ih =>
        intro i hi
        by_cases hiw : i < w
        · have habove := ih (k + i) (by omega)
          have hbit := congrArg (fun v => v.getLsbD i) h
          simp only [BitVec.getLsbD_xor, BitVec.getLsbD_ushiftRight, habove] at hbit
          exact Bool.xor_left_inj.mp hbit
        · rw [BitVec.getLsbD_of_ge x i (by omega), BitVec.getLsbD_of_ge y i (by omega)]
  exact BitVec.eq_of_getLsbD_eq fun i _ => hbits (w - i) i (Nat.le_refl _)

/-- A shift to the left under a mask is undone from the bottom. -/
theorem xor_shiftLeft_and_inj {k : Nat} {m : BitVec w} (hk : 0 < k)
    (h : x ^^^ ((x <<< k) &&& m) = y ^^^ ((y <<< k) &&& m)) : x = y := by
  have hbits : ∀ i, x.getLsbD i = y.getLsbD i := by
    intro i
    induction i using Nat.strongRecOn with
    | _ i ih =>
        have hbelow : (x <<< k).getLsbD i = (y <<< k).getLsbD i := by
          rw [BitVec.getLsbD_shiftLeft, BitVec.getLsbD_shiftLeft]
          by_cases hik : i < k
          · simp [hik]
          · rw [ih (i - k) (by omega)]
        have hbit := congrArg (fun v => v.getLsbD i) h
        simp only [BitVec.getLsbD_xor, BitVec.getLsbD_and, hbelow] at hbit
        exact Bool.xor_left_inj.mp hbit
  exact BitVec.eq_of_getLsbD_eq fun i _ => hbits i

theorem mul_inj {a b : BitVec w} (hinv : b * a = 1) (h : a * x = a * y) : x = y := by
  have hmul := congrArg (b * ·) h
  simp only [← BitVec.mul_assoc, hinv] at hmul
  simpa using hmul

end

end XorShift
