import Mathlib.Data.List.Induction
import RISCover.Lib.Bytes

/-!
# Fully buffered output streams

What is printed to a stream stays in its buffer until the library passes it on, and the library
decides when that is: it only has to keep no more than the buffer holds. So without a flush at the
end nobody but the library knows how much was passed on (`Stdio.print`), only that it is a first
part of what was printed (`sent_append_buffered_print`).
-/

/-- How a library passes on what is printed: of what the buffer holds and what is printed now, so
many bytes. -/
structure Stdio where
  /-- `BUFSIZ`. -/
  bufsiz : Nat
  transmits : (buffered s : Bytes) → Nat
  fits : ∀ buffered s, buffered.length ≤ bufsiz →
    (buffered ++ s).length - transmits buffered s ≤ bufsiz

/-- A stream: what was passed on and what is in the buffer. -/
structure OutStream where
  sent : Bytes
  buffered : Bytes

/-- A text in the pieces in which it is printed. -/
structure Printed (text : Bytes) where
  pieces : List Bytes
  flatten_eq : pieces.flatten = text

namespace Stdio

/-- A piece is printed. -/
def fwrite (io : Stdio) (f : OutStream) (s : Bytes) : OutStream :=
  let n := io.transmits f.buffered s
  ⟨f.sent ++ (f.buffered ++ s).take n, (f.buffered ++ s).drop n⟩

/-- Pieces are printed to a new stream. -/
def print (io : Stdio) (pieces : List Bytes) : OutStream := pieces.foldl io.fwrite ⟨[], []⟩

variable (io : Stdio)

theorem sent_append_buffered_fwrite (f : OutStream) (s : Bytes) :
    (io.fwrite f s).sent ++ (io.fwrite f s).buffered = f.sent ++ f.buffered ++ s := by
  unfold fwrite
  rw [List.append_assoc, List.take_append_drop, List.append_assoc]

/-- Nothing is lost while the stream is open. -/
theorem sent_append_buffered_print (pieces : List Bytes) :
    (io.print pieces).sent ++ (io.print pieces).buffered = pieces.flatten := by
  have hloop : ∀ (pieces : List Bytes) (f : OutStream),
      (pieces.foldl io.fwrite f).sent ++ (pieces.foldl io.fwrite f).buffered =
        f.sent ++ f.buffered ++ pieces.flatten := by
    intro pieces
    induction pieces with
    | nil =>
        intro f
        exact (List.append_nil _).symm
    | cons s pieces ih =>
        intro f
        rw [List.foldl_cons, ih, sent_append_buffered_fwrite, List.flatten_cons, List.append_assoc]
  exact hloop pieces ⟨[], []⟩

theorem print_concat (pieces : List Bytes) (s : Bytes) :
    io.print (pieces ++ [s]) = io.fwrite (io.print pieces) s := by
  unfold print
  rw [List.foldl_append]
  rfl

theorem length_buffered_print (pieces : List Bytes) :
    (io.print pieces).buffered.length ≤ io.bufsiz := by
  induction pieces using List.reverseRecOn with
  | nil => exact Nat.zero_le _
  | append_singleton pieces s ih =>
      rw [print_concat]
      show (((io.print pieces).buffered ++ s).drop _).length ≤ _
      rw [List.length_drop]
      exact io.fits _ s ih

/-! ## musl

A `fwrite` that does not fit what is left of the buffer passes on all that is in it, and what is
written with it. -/

/-- musl keeps a piece that fits the rest of the buffer, and otherwise passes on everything. -/
def musl : Stdio where
  bufsiz := 1024
  transmits buffered s := if s.length > 1024 - buffered.length then (buffered ++ s).length else 0
  fits := by
    intro buffered s hle
    split
    next => omega
    next hfits =>
      rw [List.length_append]
      omega

theorem fwrite_musl_of_fits {f : OutStream} {s : Bytes} (h : s.length ≤ 1024 - f.buffered.length) :
    musl.fwrite f s = ⟨f.sent, f.buffered ++ s⟩ := by
  show (⟨f.sent ++ (f.buffered ++ s).take (if _ then _ else _), _⟩ : OutStream) = _
  rw [if_neg (Nat.not_lt.mpr h), List.take_zero, List.append_nil]
  show (⟨f.sent, (f.buffered ++ s).drop (if _ then _ else _)⟩ : OutStream) = _
  rw [if_neg (Nat.not_lt.mpr h), List.drop_zero]

theorem fwrite_musl_of_not_fits {f : OutStream} {s : Bytes}
    (h : 1024 - f.buffered.length < s.length) :
    musl.fwrite f s = ⟨f.sent ++ (f.buffered ++ s), []⟩ := by
  show (⟨f.sent ++ (f.buffered ++ s).take (if _ then _ else _), _⟩ : OutStream) = _
  rw [if_pos h, List.take_length]
  show (⟨_, (f.buffered ++ s).drop (if _ then _ else _)⟩ : OutStream) = _
  rw [if_pos h, List.drop_length]

/-- Nothing is passed on before the buffer would overflow. -/
theorem sent_print_musl (pieces : List Bytes) :
    (musl.print pieces).sent = [] ∨ 1024 < (musl.print pieces).sent.length := by
  induction pieces using List.reverseRecOn with
  | nil => exact Or.inl rfl
  | append_singleton pieces s ih =>
      rw [print_concat]
      by_cases hfits : s.length ≤ 1024 - (musl.print pieces).buffered.length
      · rw [fwrite_musl_of_fits hfits]
        exact ih
      · right
        rw [fwrite_musl_of_not_fits (Nat.not_le.mp hfits), List.length_append, List.length_append]
        omega

/-- Of a text that is too short to overflow the buffer twice the last character stays in it. -/
theorem buffered_print_musl_ne_nil {pieces : List Bytes} {b : UInt8}
    (hlt : (pieces.flatten).length < 2 * 1024 + 1) (hne : (pieces.flatten).length ≠ 1024) :
    (musl.print (pieces ++ [[b]])).buffered ≠ [] := by
  have happend := congrArg List.length (musl.sent_append_buffered_print pieces)
  rw [List.length_append] at happend
  have hle : (musl.print pieces).buffered.length ≤ 1024 := musl.length_buffered_print pieces
  have hfits : [b].length ≤ 1024 - (musl.print pieces).buffered.length := by
    rw [List.length_singleton]
    rcases sent_print_musl pieces with hnil | hsent
    · rw [hnil, List.length_nil] at happend
      omega
    · omega
  rw [print_concat, fwrite_musl_of_fits hfits]
  exact List.append_ne_nil_of_right_ne_nil _ (List.cons_ne_nil b [])

end Stdio
