import Mathlib.Algebra.BigOperators.Group.List.Basic
import Mathlib.Data.Nat.Cast.Basic
import Mathlib.Order.Bounds.Basic

/-!
# A buffer that is checked behind each write

A loop appends chunks to a buffer of `size` bytes. A chunk has its own check, and only behind the
chunk the offset is compared with `size`; the loop stops at the first check that fails. With chunk
sizes from a set `s`, the furthest byte that `n` chunks can reach is decided by two numbers: the
largest chunk, and the largest chunk that passes its own check.
-/

namespace LateCheck

/-- The ends of the chunks that are written, the first of them at `offset`. -/
def ends (ok : Nat → Prop) [DecidablePred ok] (size : Nat) : (offset : Nat) → List Nat → List Nat
  | _, [] => []
  | offset, n :: chunks =>
      (offset + n) ::
        if ok n ∧ offset + n < size then ends ok size (offset + n) chunks else []

/-- No chunk reaches behind the buffer. -/
def Within (ok : Nat → Prop) [DecidablePred ok] (size : Nat) (chunks : List Nat) : Prop :=
  ∀ e ∈ ends ok size 0 chunks, e ≤ size

section

variable {ok : Nat → Prop} [DecidablePred ok] {size : Nat}

/-- All chunks but the last have passed their checks. -/
theorem ends_le {most accepted : Nat} (chunks : List Nat) : ∀ offset,
    (∀ n ∈ chunks, n ≤ most) → (∀ n ∈ chunks, ok n → n ≤ accepted) →
      ∀ e ∈ ends ok size offset chunks, e ≤ offset + (chunks.length - 1) * accepted + most := by
  induction chunks with
  | nil => intro offset _ _ e he; cases he
  | cons n chunks ih =>
      intro offset hmost haccepted e he
      have hn := hmost n List.mem_cons_self
      rw [List.length_cons, Nat.add_sub_cancel]
      rcases List.mem_cons.mp he with rfl | he
      · omega
      · split at he
        next hok =>
          have hle := ih (offset + n) (fun m hm => hmost m (List.mem_cons_of_mem n hm))
            (fun m hm => haccepted m (List.mem_cons_of_mem n hm)) e he
          have hacc := haccepted n List.mem_cons_self hok.1
          cases chunks with
          | nil => cases he
          | cons m chunks =>
              rw [List.length_cons, Nat.add_sub_cancel] at hle
              rw [List.length_cons, Nat.succ_mul]
              omega
        next => cases he

/-- Chunks that pass all checks are followed by one more. -/
theorem sum_add_mem_ends (chunks : List Nat) (n : Nat) : ∀ offset,
    (∀ m ∈ chunks, ok m) → offset + chunks.sum < size →
      offset + chunks.sum + n ∈ ends ok size offset (chunks ++ [n]) := by
  induction chunks with
  | nil => intro offset _ _; exact List.mem_cons_self
  | cons m chunks ih =>
      intro offset hok hlt
      rw [List.sum_cons] at hlt ⊢
      have hmem := ih (offset + m) (fun x hx => hok x (List.mem_cons_of_mem m hx)) (by omega)
      rw [List.cons_append, ends, if_pos ⟨hok m List.mem_cons_self, by omega⟩]
      rw [← Nat.add_assoc offset]
      exact List.mem_cons_of_mem _ hmem

/-- What a batch of accepted chunks and one more says about the buffer. -/
theorem sum_add_le {chunks : List Nat} {n : Nat} (h : Within ok size (chunks ++ [n]))
    (hok : ∀ m ∈ chunks, ok m) (hlt : chunks.sum < size) : chunks.sum + n ≤ size := by
  have hmem : 0 + chunks.sum + n ∈ ends ok size 0 (chunks ++ [n]) :=
    sum_add_mem_ends chunks n 0 hok (by omega)
  have hle := h _ hmem
  omega

/-- All batches of at most `n` chunks stay within the buffer exactly when the largest chunk still
fits behind all others. A buffer that the largest chunks fill without a gap is no exception: one
smaller chunk shifts the others. -/
theorem within_iff {s : Set Nat} {most accepted small n : Nat} (hmost : IsGreatest s most)
    (haccepted : IsGreatest {m | m ∈ s ∧ ok m} accepted) (hsmall : small ∈ s ∧ ok small)
    (hpos : 0 < small) (hlt : small < accepted) (hsize : 0 < size) (hn : 0 < n) :
    (∀ chunks : List Nat, chunks.length ≤ n → (∀ m ∈ chunks, m ∈ s) → Within ok size chunks) ↔
      (n - 1) * accepted + most ≤ size := by
  constructor
  · intro h
    have hbatch (before : List Nat) (last : Nat) (hbefore : ∀ m ∈ before, m ∈ s ∧ ok m)
        (hlast : last ∈ s) (hlength : before.length + 1 ≤ n) (hsum : before.sum < size) :
        before.sum + last ≤ size := by
      apply sum_add_le (h (before ++ [last]) (by simpa using hlength) ?_)
        (fun m hm => (hbefore m hm).2) hsum
      intro m hm
      rcases List.mem_append.mp hm with hm | hm
      · exact (hbefore m hm).1
      · rw [List.mem_singleton.mp hm]
        exact hlast
    have hreplicate (k : Nat) : ∀ m ∈ List.replicate k accepted, m ∈ s ∧ ok m := by
      intro m hm
      rw [(List.mem_replicate.mp hm).2]
      exact haccepted.1
    have hsum (k : Nat) : (List.replicate k accepted).sum = k * accepted := by
      rw [List.sum_replicate, nsmul_eq_mul, Nat.cast_id]
    rcases Nat.lt_or_ge ((n - 1) * accepted) size with hroom | hfull
    · have hle := hbatch (List.replicate (n - 1) accepted) most (hreplicate _) hmost.1
        (by rw [List.length_replicate]; omega) (by rwa [hsum])
      rwa [hsum] at hle
    · exfalso
      -- `k` accepted chunks end inside, the next one would not
      obtain ⟨k, hk, hnext⟩ : ∃ k, k * accepted < size ∧ size ≤ (k + 1) * accepted := by
        have hdiv := Nat.div_mul_le_self (size - 1) accepted
        have hmod := Nat.lt_mul_div_succ (size - 1) (hpos.trans hlt)
        rw [Nat.mul_comm] at hmod
        exact ⟨(size - 1) / accepted, by omega, by omega⟩
      have hkn : k < n - 1 := by
        by_contra hge
        have hmul := Nat.mul_le_mul_right accepted (Nat.not_lt.mp hge)
        omega
      have hle := hbatch (List.replicate k accepted) accepted (hreplicate _) haccepted.1.1
        (by rw [List.length_replicate]; omega) (by rwa [hsum])
      rw [hsum] at hle
      rw [Nat.succ_mul] at hnext
      -- without a gap behind it, so it must not start there
      have hshift := hbatch (small :: List.replicate k accepted) accepted
        (List.forall_mem_cons.mpr ⟨hsmall, hreplicate k⟩) haccepted.1.1
        (by rw [List.length_cons, List.length_replicate]; omega)
        (by rw [List.sum_cons, hsum]; omega)
      rw [List.sum_cons, hsum] at hshift
      omega
  · intro h chunks hlength hs e he
    have hle := ends_le chunks 0 (fun m hm => hmost.2 (hs m hm))
      (fun m hm hok => haccepted.2 ⟨hs m hm, hok⟩) e he
    have hmul := Nat.mul_le_mul_right accepted (Nat.sub_le_sub_right hlength 1)
    omega

end

end LateCheck
