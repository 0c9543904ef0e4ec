import Mathlib.Algebra.Order.Ring.Nat
import Mathlib.Tactic.Ring

/-!
# Little-endian byte strings

`leBytes k n` writes the `k` low bytes of `n`, least significant first; `ofLeBytes` reads such a
string back. Every fixed-width integer field of a binary format is one of these two, so the round
trip `ofLeBytes_leBytes` and the injectivity `ofLeBytes_inj` are all a codec proof needs to know
about bytes.
-/

/-- A byte string. -/
abbrev Bytes := List UInt8

namespace Bytes

/-- The `k` low bytes of `n`, least significant byte first. -/
def leBytes : Nat → Nat → Bytes
  | 0, _ => []
  | k + 1, n => UInt8.ofNat n :: leBytes k (n / 256)

/-- The number a little-endian byte string stands for. -/
def ofLeBytes : Bytes → Nat
  | [] => 0
  | b :: bs => b.toNat + 256 * ofLeBytes bs

@[simp] theorem length_leBytes (k n : Nat) : (leBytes k n).length = k := by
  induction k generalizing n with
  | zero => rfl
  | succ k ih => simp [leBytes, ih]

theorem ofLeBytes_lt (bs : Bytes) : ofLeBytes bs < 256 ^ bs.length := by
  induction bs with
  | nil => simp [ofLeBytes]
  | cons b bs ih =>
      have hb : b.toNat < 256 := b.toNat_lt
      simp only [ofLeBytes, List.length_cons, pow_succ]
      omega

/-- Writing keeps `n` modulo `256 ^ k`. -/
theorem ofLeBytes_leBytes (k n : Nat) : ofLeBytes (leBytes k n) = n % 256 ^ k := by
  induction k generalizing n with
  | zero => simp [leBytes, ofLeBytes, Nat.mod_one]
  | succ k ih =>
      have hbyte : (UInt8.ofNat n).toNat = n % 256 := by simp
      rw [leBytes, ofLeBytes, ih, hbyte, Nat.pow_succ', Nat.mod_mul]

theorem ofLeBytes_leBytes_of_lt {k n : Nat} (h : n < 256 ^ k) :
    ofLeBytes (leBytes k n) = n := by
  rw [ofLeBytes_leBytes, Nat.mod_eq_of_lt h]

/-- Reading and writing back gives the same string. -/
theorem leBytes_ofLeBytes (bs : Bytes) : leBytes bs.length (ofLeBytes bs) = bs := by
  induction bs with
  | nil => rfl
  | cons b bs ih =>
      have hb : b.toNat < 256 := b.toNat_lt
      have hdiv : (b.toNat + 256 * ofLeBytes bs) / 256 = ofLeBytes bs := by omega
      have hhead : UInt8.ofNat (b.toNat + 256 * ofLeBytes bs) = b := by
        apply UInt8.toNat_inj.mp
        rw [UInt8.toNat_ofNat']
        omega
      simp only [List.length_cons, leBytes, ofLeBytes, hdiv, hhead, ih]

/-- Strings of one length are determined by the number they stand for. -/
theorem ofLeBytes_inj {xs ys : Bytes} (hlen : xs.length = ys.length)
    (h : ofLeBytes xs = ofLeBytes ys) : xs = ys := by
  rw [← leBytes_ofLeBytes xs, ← leBytes_ofLeBytes ys, hlen, h]

theorem ofLeBytes_append (xs ys : Bytes) :
    ofLeBytes (xs ++ ys) = ofLeBytes xs + 256 ^ xs.length * ofLeBytes ys := by
  induction xs with
  | nil => simp [ofLeBytes]
  | cons x xs ih =>
      simp only [List.cons_append, ofLeBytes, ih, List.length_cons, pow_succ]
      ring

/-! ## Slices

`data[r : r + k]` of a byte string: like the source's slices it is cut short at the end of the
data, never an error. -/

/-- `data[r:r+k]`. -/
def slice (data : Bytes) (r k : Nat) : Bytes := (data.drop r).take k

/-- A slice that starts where `pre` ends reads from the front of what follows. -/
theorem slice_append (pre post : Bytes) (k : Nat) :
    slice (pre ++ post) pre.length k = post.take k := by
  simp [slice]

theorem slice_mid (pre bs post : Bytes) :
    slice (pre ++ bs ++ post) pre.length bs.length = bs := by
  rw [List.append_assoc, slice_append, List.take_left]

/-- The `i`th piece of a string made of pieces of `k` bytes. -/
theorem slice_flatMap {α : Type} {f : α → Bytes} {k : Nat} (hf : ∀ x, (f x).length = k)
    (l : List α) (post : Bytes) : ∀ (i : Nat) (h : i < l.length),
      slice (l.flatMap f ++ post) (i * k) k = f l[i] := by
  induction l with
  | nil => intro i h; cases h
  | cons x l ih =>
      intro i h
      cases i with
      | zero =>
          rw [Nat.zero_mul, slice, List.drop_zero, List.flatMap_cons, List.append_assoc,
            List.take_left' (hf x)]
          rfl
      | succ i =>
          have hrest := ih i (Nat.lt_of_succ_lt_succ h)
          rw [slice] at hrest ⊢
          rw [List.flatMap_cons, List.append_assoc, Nat.succ_mul, Nat.add_comm, ← List.drop_drop,
            List.drop_left' (hf x), hrest]
          rfl

end Bytes
