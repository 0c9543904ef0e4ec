import Mathlib.Data.Nat.Bits
import RISCover.Lib.PyText

/-!
# Numbers as rows of bits

A row of binary digits is read by `int(_, 2)` as the number that has them as its bits
(`pyIntBase_two`, `testBit_ofBase_two`), and the set bits of a number are counted along any row that
tells them (`count_bits`).
-/

namespace Text

/-- A binary digit. -/
def IsBit (c : Char) : Prop := c = '0' ∨ c = '1'

instance (c : Char) : Decidable (IsBit c) := inferInstanceAs (Decidable (_ ∨ _))

theorem IsBit.isBase {c : Char} (h : IsBit c) : isBase 2 c = true := by
  rcases h with rfl | rfl <;> decide

theorem ofBase_concat (b : Nat) (t : Text) (c : Char) :
    ofBase b (t ++ [c]) = b * ofBase b t + (hexNibble c).getD 0 := by
  simp [ofBase]

/-- The digit at the right end is the lowest bit. -/
theorem testBit_ofBase_two {t : Text} (h : ∀ c ∈ t, IsBit c) (i : Nat) :
    (ofBase 2 t).testBit i = true ↔ t.reverse[i]? = some '1' := by
  induction t using List.reverseRecOn generalizing i with
  | nil => simp [ofBase]
  | append_singleton t c ih =>
      have ht := ih fun d hd => h d (List.mem_append_left _ hd)
      have hc := h c (List.mem_append_right _ (List.mem_singleton_self c))
      rw [ofBase_concat, List.reverse_append, List.reverse_singleton, List.singleton_append]
      have hdigit : (hexNibble c).getD 0 = if c = '1' then 1 else 0 := by
        rcases hc with rfl | rfl <;> rfl
      rw [hdigit]
      cases i with
      | zero =>
          rw [List.getElem?_cons_zero, Option.some_inj, Nat.testBit_zero, decide_eq_true_iff]
          split <;> simp_all
      | succ i =>
          have hhalf : (2 * ofBase 2 t + if c = '1' then 1 else 0) / 2 = ofBase 2 t := by
            split <;> omega
          rw [List.getElem?_cons_succ, Nat.testBit_succ, hhalf, ht]

/-- `int(_, 2)` reads a row of binary digits. -/
theorem pyIntBase_two {t : Text} (h : ∀ c ∈ t, IsBit c) (hne : t ≠ []) :
    pyIntBase 2 t = some (ofBase 2 t : Int) := by
  have hspace : ∀ c ∈ t, isPySpace c = false := by
    intro c hc
    rcases h c hc with rfl | rfl <;> decide
  have hstrip : pyStrip t = t := pyStrip_append (fun c hc => absurd hc List.not_mem_nil) hspace
  have hsign : scanSign t = (false, t) := by
    unfold scanSign
    split
    next => exact absurd (h '-' List.mem_cons_self) (by decide)
    next => exact absurd (h '+' List.mem_cons_self) (by decide)
    next => rfl
  -- no prefix is taken for one, as `b` and `B` are not bits
  have hdrop : dropBasePrefix 2 t = t := by
    unfold dropBasePrefix
    split
    next => exact absurd (h 'b' (by simp)) (by decide)
    next => exact absurd (h 'B' (by simp)) (by decide)
    next heq => exact absurd heq (by decide)
    next heq => exact absurd heq (by decide)
    next => rfl
  rw [pyIntBase, hstrip, hsign]
  show (pyDigits 2 (dropBasePrefix 2 t)).map (fun n => if false = true then -(↑n : Int) else ↑n) = _
  rw [hdrop, pyDigits_of_isBase (fun c hc => (h c hc).isBase) hne]
  rfl

/-- The set bits of a number, counted along a row that tells them. -/
theorem count_bits {α : Type} {p : α → Bool} {l : List α} {n : Nat}
    (h : ∀ i, n.testBit i = true ↔ ∃ a, l[i]? = some a ∧ p a = true) :
    n.bits.count true = l.countP p := by
  induction l generalizing n with
  | nil =>
      have hzero : n = 0 := Nat.eq_of_testBit_eq fun i => by
        rw [Nat.zero_testBit, Bool.eq_false_iff, Ne, h i]
        simp
      rw [hzero, Nat.zero_bits]
      rfl
  | cons a l ih =>
      -- half the number has the bits of the rest of the row
      have hrest : (n / 2).bits.count true = l.countP p := ih fun i => by
        rw [← Nat.testBit_succ, h (i + 1)]
        rfl
      have hfirst : n.testBit 0 = p a := by
        rw [Bool.eq_iff_iff, h 0]
        simp
      have hn : Nat.bit (n.testBit 0) (n / 2) = n := Nat.bit_testBit_zero_shiftRight_one n
      -- the bits of zero are no bits at all, so it is not a half with one bit more
      by_cases hzero : n / 2 = 0 ∧ n.testBit 0 = false
      · have hnil : n = 0 := by rw [← hn, hzero.1, hzero.2]; rfl
        rw [List.countP_cons, ← hrest, ← hfirst, hnil]
        rfl
      · have hbits := Nat.bits_append_bit (n / 2) (n.testBit 0) (by simpa using hzero)
        rw [hn] at hbits
        rw [hbits, List.count_cons, hrest, List.countP_cons, hfirst]
        cases p a <;> rfl

end Text
