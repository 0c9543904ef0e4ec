import Mathlib.Data.List.Basic
import RISCover.Lib.Bytes

/-!
# Byte pipes that move as much as they like

A call that moves bytes may stop anywhere behind the first one. `readAll` and `writeAll` are the
loops that call again until everything is moved: what they do does not depend on where the calls
stop (`readAll_eq`, `writeAll_eq`). A single call moves everything only if it says so.
-/

open Bytes

/-- How many bytes the calls on one end of a pipe move, by the number of the call and the number of
bytes it is asked to move. -/
structure Pieces where
  /-- What a single call can move at most. -/
  most : Nat
  count : Nat → Nat → Nat
  count_pos : ∀ call n, 0 < n → 0 < count call n
  count_le : ∀ call n, count call n ≤ n
  count_le_most : ∀ call n, count call n ≤ most

namespace Pipe

variable {p : Pieces}

/-- The reading end: what is still to come and how often it was read. -/
structure Reader where
  stream : Bytes
  calls : Nat

/-- Read until there are `n` bytes; `none` if the pipe runs dry before. -/
def readAll (p : Pieces) (n : Nat) (r : Reader) : Option (Bytes × Reader) :=
  if hn : n = 0 then some ([], r)
  else
    match hs : r.stream with
    | [] => none
    | _ :: _ =>
      let res := min (p.count r.calls n) r.stream.length
      have : 0 < res := by
        have := p.count_pos r.calls n (Nat.pos_of_ne_zero hn)
        simp only [res, hs, List.length_cons]
        omega
      (readAll p (n - res) ⟨r.stream.drop res, r.calls + 1⟩).map fun x =>
        (r.stream.take res ++ x.1, x.2)
termination_by n

/-- Write until nothing is left: the bytes that got into the pipe, and the number of the next
call. -/
def writeAll (p : Pieces) (calls : Nat) (data : Bytes) : Bytes × Nat :=
  if hd : data = [] then ([], calls)
  else
    let res := p.count calls data.length
    have : 0 < res := p.count_pos calls data.length (List.length_pos_iff.mpr hd)
    have : 0 < data.length := List.length_pos_iff.mpr hd
    let x := writeAll p (calls + 1) (data.drop res)
    (data.take res ++ x.1, x.2)
termination_by data.length
decreasing_by
  rw [List.length_drop]
  omega

/-- Write once. -/
def writeOnce (p : Pieces) (calls : Nat) (data : Bytes) : Bytes × Nat :=
  (data.take (p.count calls data.length), calls + 1)

/-! ## The loops move everything

Every call moves at least one byte, so the loop has an end, and the bytes come in the order in which
they were asked for. -/

/-- Reading in pieces is reading at once. -/
theorem readAll_eq (n : Nat) (r : Reader) (h : n ≤ r.stream.length) :
    ∃ calls, readAll p n r = some (r.stream.take n, ⟨r.stream.drop n, calls⟩) := by
  induction n using Nat.strongRecOn generalizing r with
  | ind n ih =>
      rw [readAll]
      by_cases hn : n = 0
      · subst hn
        exact ⟨r.calls, by rw [dif_pos rfl]; rfl⟩
      · have hres := p.count_pos r.calls n (Nat.pos_of_ne_zero hn)
        have hle := p.count_le r.calls n
        rw [dif_neg hn]
        split
        next hs => rw [hs] at h; exact absurd (Nat.le_zero.mp h) hn
        next =>
          have hmin : min (p.count r.calls n) r.stream.length = p.count r.calls n := by omega
          obtain ⟨calls, hrest⟩ := ih (n - p.count r.calls n) (by omega)
            ⟨r.stream.drop (p.count r.calls n), r.calls + 1⟩ (by rw [List.length_drop]; omega)
          refine ⟨calls, ?_⟩
          have hsum : p.count r.calls n + (n - p.count r.calls n) = n := by omega
          simp only [hmin]
          rw [hrest, Option.map_some, List.drop_drop, hsum, ← List.take_add, hsum]

/-- What is read was in the pipe. -/
theorem readAll_eq_some {n : Nat} {r r' : Reader} {buf : Bytes}
    (h : readAll p n r = some (buf, r')) : r.stream = buf ++ r'.stream ∧ buf.length = n := by
  induction n using Nat.strongRecOn generalizing r r' buf with
  | ind n ih =>
      rw [readAll] at h
      by_cases hn : n = 0
      · rw [dif_pos hn] at h
        cases h
        exact ⟨rfl, hn.symm⟩
      · rw [dif_neg hn] at h
        split at h
        next => cases h
        next b bs hs =>
          have hres := p.count_pos r.calls n (Nat.pos_of_ne_zero hn)
          have hlen : 0 < r.stream.length := by rw [hs]; exact Nat.succ_pos _
          have hle := p.count_le r.calls n
          obtain ⟨⟨rest, r''⟩, hrest, heq⟩ := Option.map_eq_some_iff.mp h
          cases heq
          obtain ⟨hstream, hbuf⟩ := ih _ (by omega) hrest
          refine ⟨?_, ?_⟩
          · rw [List.append_assoc, ← hstream, List.take_append_drop]
          · rw [List.length_append, hbuf, List.length_take]
            omega

/-- Writing in pieces is writing at once. -/
theorem writeAll_eq (calls : Nat) (data : Bytes) : (writeAll p calls data).1 = data := by
  induction hlen : data.length using Nat.strongRecOn generalizing calls data with
  | ind n ih =>
      subst hlen
      rw [writeAll]
      by_cases hd : data = []
      · rw [dif_pos hd, hd]
      · have hpos : 0 < data.length := List.length_pos_iff.mpr hd
        have hres := p.count_pos calls data.length hpos
        rw [dif_neg hd]
        simp only
        rw [ih (data.drop (p.count calls data.length)).length (by rw [List.length_drop]; omega) _ _
          rfl, List.take_append_drop]

theorem length_writeOnce (calls : Nat) (data : Bytes) :
    (writeOnce p calls data).1.length = p.count calls data.length := by
  rw [writeOnce, List.length_take, Nat.min_eq_left (p.count_le calls data.length)]

/-- A single call writes everything if it moves as many bytes as there are. -/
theorem writeOnce_eq {calls : Nat} {data : Bytes} (h : p.count calls data.length = data.length) :
    writeOnce p calls data = (data, calls + 1) := by
  rw [writeOnce, h, List.take_length]

end Pipe
