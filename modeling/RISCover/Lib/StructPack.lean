import RISCover.Lib.Bytes

/-!
# `struct.pack` and C structs

Python's `struct.pack` in native mode: a format is a list of repeat counts and type codes, every
item is aligned to its size relative to the start of the string, and the arguments have to be as
many and as large as the format says. A C struct whose members are aligned the same way is the same
string, so a codec proof needs `pack_eq_some` and the offsets.
-/

open Bytes

namespace StructPack

/-- Type codes of unsigned integers. -/
inductive Code where
  | B
  | H
  | I
  | Q
  deriving DecidableEq

def Code.size : Code → Nat
  | .B => 1
  | .H => 2
  | .I => 4
  | .Q => 8

/-- Repeat counts and codes, in order. -/
abbrev Format := List (Nat × Code)

/-- An argument: an integer, or a list that was passed where integers are needed. -/
inductive Arg where
  | int (n : Nat)
  | list (l : List Nat)
  deriving DecidableEq

/-- The padding that brings `offset` to a multiple of `k`. -/
def padding (k offset : Nat) : Nat := (k - offset % k) % k

/-- The next multiple of `k`. -/
def alignUp (k offset : Nat) : Nat := offset + padding k offset

/-- Write one integer; anything else and a value out of range are a `struct.error`. -/
def packInt (code : Code) (out : Bytes) : Arg → Option Bytes
  | .int n => if n < 256 ^ code.size then some (out ++ leBytes code.size n) else none
  | .list _ => none

/-- The items of a format one after the other. -/
def packItems : Format → Bytes → List Arg → Option Bytes
  | [], out, args => if args.isEmpty then some out else none
  | (n, code) :: format, out, args =>
    if args.length < n then none
    else
      ((args.take n).foldlM (packInt code)
        (out ++ List.replicate (padding code.size out.length) 0)).bind fun out =>
          packItems format out (args.drop n)

/-- `struct.pack(format, *args)`. -/
def pack (format : Format) (args : List Arg) : Option Bytes := packItems format [] args

/-! ## What is packed

An item that is aligned already is packed without padding, so a row of items of one size is a row of
its bytes. -/

/-- Integers as arguments. -/
def ints (vals : List Nat) : List Arg := vals.map Arg.int

theorem foldlM_packInt {code : Code} {vals : List Nat} (h : ∀ v ∈ vals, v < 256 ^ code.size) :
    ∀ out, (ints vals).foldlM (packInt code) out =
      some (out ++ vals.flatMap (leBytes code.size)) := by
  induction vals with
  | nil => intro out; simp [ints]
  | cons v vals ih =>
      intro out
      have hv := h v List.mem_cons_self
      have hrest := ih (fun x hx => h x (List.mem_cons_of_mem v hx))
      simp only [ints, List.map_cons, List.foldlM_cons, packInt, if_pos hv] at hrest ⊢
      show (vals.map Arg.int).foldlM (packInt code) (out ++ leBytes code.size v) = _
      rw [hrest]
      simp

/-- One item of a format takes its arguments from the front. -/
theorem packItems_cons {n : Nat} {code : Code} {vals : List Nat} (hn : vals.length = n)
    (h : ∀ v ∈ vals, v < 256 ^ code.size) (format : Format) (out : Bytes) (args : List Arg) :
    packItems ((n, code) :: format) out (ints vals ++ args) =
      packItems format
        (out ++ List.replicate (padding code.size out.length) 0 ++
          vals.flatMap (leBytes code.size)) args := by
  have hlen : (ints vals).length = n := by simp [ints, hn]
  have hnot : ¬ (ints vals ++ args).length < n := by
    rw [List.length_append, hlen]
    omega
  rw [packItems, if_neg hnot, List.take_left' hlen, List.drop_left' hlen, foldlM_packInt h]
  rfl

/-- An item that starts where its size divides the offset is not padded. -/
theorem packItems_aligned {n : Nat} {code : Code} {vals : List Nat} (hn : vals.length = n)
    (h : ∀ v ∈ vals, v < 256 ^ code.size) (format : Format) {out : Bytes}
    (hout : code.size ∣ out.length) (args : List Arg) :
    packItems ((n, code) :: format) out (ints vals ++ args) =
      packItems format (out ++ vals.flatMap (leBytes code.size)) args := by
  have hpad : padding code.size out.length = 0 := by
    rw [padding, Nat.dvd_iff_mod_eq_zero.mp hout, Nat.sub_zero, Nat.mod_self]
  rw [packItems_cons hn h, hpad, List.replicate_zero, List.append_nil]

/-- Bytes are never padded. -/
theorem packItems_bytes {n : Nat} {vals : List Nat} (hn : vals.length = n)
    (h : ∀ v ∈ vals, v < 256) (format : Format) (out : Bytes) (args : List Arg) :
    packItems ((n, .B) :: format) out (ints vals ++ args) =
      packItems format (out ++ vals.map UInt8.ofNat) args := by
  have hbytes : vals.flatMap (leBytes Code.B.size) = vals.map UInt8.ofNat := by
    rw [List.map_eq_flatMap]
    rfl
  have hsmall : ∀ v ∈ vals, v < 256 ^ Code.B.size := by simpa [Code.size] using h
  rw [packItems_aligned hn hsmall format (by simp [Code.size]), hbytes]

/-- A single integer, in range or not. -/
theorem packItems_one (code : Code) (format : Format) (out : Bytes) (v : Nat) (args : List Arg) :
    packItems ((1, code) :: format) out (.int v :: args) =
      if v < 256 ^ code.size then
        packItems format
          (out ++ List.replicate (padding code.size out.length) 0 ++ leBytes code.size v) args
      else none := by
  have hnot : ¬ (Arg.int v :: args).length < 1 := by simp
  rw [packItems, if_neg hnot]
  by_cases hv : v < 256 ^ code.size
  · simp [packInt, hv]
  · simp [packInt, hv]

/-- A format takes exactly as many arguments as its counts say. -/
theorem length_of_packItems {format : Format} {out buf : Bytes} {args : List Arg}
    (h : packItems format out args = some buf) : args.length = (format.map Prod.fst).sum := by
  induction format generalizing out args with
  | nil =>
      rw [packItems] at h
      split at h
      next hnil => simpa [List.isEmpty_iff] using hnil
      next => cases h
  | cons item format ih =>
      obtain ⟨n, code⟩ := item
      rw [packItems] at h
      split at h
      next => cases h
      next hlen =>
        cases hitem : (args.take n).foldlM (packInt code)
            (out ++ List.replicate (padding code.size out.length) 0) with
        | none =>
            rw [hitem] at h
            cases h
        | some out' =>
            rw [hitem] at h
            -- each item takes as many arguments as it counts
            have hrest := ih h
            rw [List.length_drop] at hrest
            rw [List.map_cons, List.sum_cons]
            omega

end StructPack
