import Mathlib.Data.Finset.Insert
import Mathlib.Data.Finset.Dedup
import RISCover.Result.Basic
import RISCover.Lib.Machine
import RISCover.Lib.Text

/-!
# The client loads a reproducer

`load_repro` reads a reproducer line by line. Eight loops take turns at one tokenizer: the loop over
the whole text, the loops of its sections, the three loops inside `regs:` and, for callers that ask
for it, a second loop that collects the `midr` values. Each pass of each of them is one step of a
machine whose state is the loop it is in, the lines not yet consumed and what has been read.

A value stored past the end of its register class lands outside of the class; such a store is kept
in `stray` and leaves the registers alone.
-/

open Text Bytes

namespace RISCover

/-! ## Builds

The flags are compared as sets of bits, so their order in the reproducer does not matter. -/

/-- The compile flags that a reproducer has to agree on. -/
inductive Flag where
  | VECTOR
  | FLOATS
  | CHECK_MEM
  | AUTO_MAP_MEM
  | AUTO_MAP_MEM_RW_PROT
  | META
  deriving DecidableEq

/-- The flags in the order of their bits. -/
def Flag.all : List Flag :=
  [.VECTOR, .FLOATS, .CHECK_MEM, .AUTO_MAP_MEM, .AUTO_MAP_MEM_RW_PROT, .META]

/-- A build of the client: the flags that decide about memory mapping and the length of the
longest sequence come on top of the configuration. -/
structure Build extends Config where
  AUTO_MAP_MEM : Bool
  AUTO_MAP_MEM_RW_PROT : Bool
  MAX_SEQ_LEN : Nat

/-- The `#ifdef` of a flag. -/
def Build.defines (b : Build) : Flag → Bool
  | .VECTOR => b.VECTOR
  | .FLOATS => b.FLOATS
  | .CHECK_MEM => b.CHECK_MEM
  | .AUTO_MAP_MEM => b.AUTO_MAP_MEM
  | .AUTO_MAP_MEM_RW_PROT => b.AUTO_MAP_MEM_RW_PROT
  | .META => b.META

/-- A set of flags, one bit each. -/
abbrev Mask := Finset Flag

/-- `expected_mask`. -/
def Build.expectedMask (b : Build) : Mask := (Flag.all.filter b.defines).toFinset

/-! ## The state of the parser

`content` is tokenized in place, so the parser only ever goes forward: what it has are the lines
that are left. -/

/-- `struct mapping`, as far as a reproducer carries it. -/
structure Mapping where
  start : UInt64
  n : UInt64
  prot : UInt32
  val : Bytes
  deriving DecidableEq

/-- The loops. Those over the lines of a register class count the registers they have stored. -/
inductive Loc where
  | top
  | instrSeq
  | regs
  | gp (i : Nat)
  | vec (i : Nat)
  | fp (i : Nat)
  | mappings
  | flags
  | midrs
  deriving DecidableEq

structure Load (c : RegConfig) where
  loc : Loc
  /-- The line in hand and those behind it. -/
  lines : List Text
  instrSeq : List UInt32
  regs : Regs c
  stray : List (RegClass × Nat)
  mappings : List Mapping
  /-- `parsed_mask`; `none` is not seen. -/
  parsedMask : Option Mask
  /-- `content_copy`, for callers that ask for the `midr` values. -/
  contentCopy : Option (List Text)
  midrs : List UInt32

/-- How `load_repro` stops before its end. -/
inductive LoadError where
  | assertion
  /-- `lstrip_ws` on the line behind the last one. -/
  | nullLine
  | sequenceTooLong (got : Nat)
  | unknownFlag (name : Text)
  | flagsMismatch (expected found : Mask)
  deriving DecidableEq

/-- What the caller gets back. -/
structure LoadedRepro (c : RegConfig) where
  instrSeq : List UInt32
  regs : Regs c
  stray : List (RegClass × Nat)
  mappings : List Mapping
  midrs : List UInt32

inductive LoadEnd (c : RegConfig) where
  | returned (repro : LoadedRepro c)
  | exited (e : LoadError)

/-- One pass of a loop. -/
abbrev Pass (c : RegConfig) := Outcome (Load c) (LoadEnd c)

/-- The register file with one class replaced. -/
def Regs.setClass {c : RegConfig} (regs : Regs c) (k : RegClass)
    (v : Vector (RegVal k) (c.count k)) : Regs c :=
  fun k' => if h : k' = k then h ▸ v else regs k'

/-- The register file with one register replaced. -/
def Regs.set {c : RegConfig} (regs : Regs c) (k : RegClass) (i : Fin (c.count k)) (v : Nat) :
    Regs c :=
  regs.setClass k ((regs k).set i.1 (BitVec.ofNat _ v) i.2)

@[simp] theorem Regs.setClass_self {c : RegConfig} (regs : Regs c) (k : RegClass)
    (v : Vector (RegVal k) (c.count k)) : regs.setClass k v k = v := by
  rw [Regs.setClass, dif_pos rfl]

theorem Regs.setClass_of_ne {c : RegConfig} (regs : Regs c) {k k' : RegClass} (h : k' ≠ k)
    (v : Vector (RegVal k) (c.count k)) : regs.setClass k v k' = regs k' := by
  rw [Regs.setClass, dif_neg h]

/-- `((T*)&regs_before->k)[i] = v`. -/
def Load.store {c : RegConfig} (s : Load c) (k : RegClass) (i v : Nat) : Load c :=
  if h : i < c.count k then { s with regs := s.regs.set k ⟨i, h⟩ v }
  else { s with stray := s.stray ++ [(k, i)] }

/-- The next line, in the same loop or in another one. -/
def Load.advance {c : RegConfig} (s : Load c) (loc : Loc) : Load c :=
  { s with loc := loc, lines := s.lines.tail }

/-- `break` and `continue` without a new line. -/
def Load.leave {c : RegConfig} (s : Load c) (loc : Loc) : Load c := { s with loc := loc }

/-! ## Lines

What the `sscanf`s and the `strstr`s of the loops find in one line. -/

/-- `hex_nibble`, with the digits that are none counting as zero. -/
def nibble (c : Char) : Nat := (hexNibble c).getD 0

/-- The loop of `parse_hex_le_bytes`, over the digits from the last one on. -/
def parseHexLeLoop : Text → Nat → Bytes
  | _, 0 => []
  | [], _ + 1 => []
  | [lo], _ + 1 => [UInt8.ofNat (nibble lo)]
  | lo :: hi :: rest, room + 1 =>
    UInt8.ofNat (16 * nibble hi + nibble lo) :: parseHexLeLoop rest room

/-- `parse_hex_le_bytes`. -/
def parseHexLeBytes (digits : Text) (outLen : Nat) : Bytes :=
  let bytes := parseHexLeLoop digits.reverse outLen
  bytes ++ List.replicate (outLen - bytes.length) 0

/-- `"- %x"`. -/
def scanInstr (t : Text) : Option UInt32 := do
  let t ← scanLit "-" t
  let (v, _) ← scanHex (scanSpace t)
  some (UInt32.ofNat v)

/-- `"%*[^:]: %lx"`. -/
def scanReg (u : Text) : Option Nat := do
  let u ← scanNotColon u
  let u ← scanLit ":" u
  let (v, _) ← scanHex (scanSpace u)
  some v

/-- `"- start: %lx"`, `"n: %lx"` and `"prot: %x"`. -/
def scanField (label : String) (t : Text) : Option Nat := do
  let t ← scanLit label t
  let (v, _) ← scanHex (scanSpace t)
  some v

def scanStart (t : Text) : Option Nat := do
  let t ← scanLit "-" t
  scanField "start:" (scanSpace t)

/-- `"- -D%63s"`. -/
def scanFlag (t : Text) : Option Text := do
  let t ← scanLit "-" t
  let t ← scanLit "-D" (scanSpace t)
  let (name, _) ← scanWord 63 t
  some name

/-- The bytes that one group of sixteen digits stands for, last pair first. -/
def wordBytes : Text → Bytes
  | hi :: lo :: rest => wordBytes rest ++ [UInt8.ofNat (16 * nibble hi + nibble lo)]
  | _ => []

/-- The content of a mapping, group after group. -/
def valBytes : Nat → Text → Bytes
  | 0, _ => []
  | groups + 1, digits => wordBytes (digits.take 16) ++ valBytes groups (digits.drop 16)

/-- The digits in a line `val:`, between optional quotes and behind an optional `0x`. -/
def valDigits (valp : Text) : Text :=
  let valp := lstrip valp
  let valp := if valp.head? = some '"' then valp.tail else valp
  (scan0x valp).takeWhile isHex

/-- Is the line one on which the loop over `gp:` stops? -/
def endsGp (u : Text) : Bool :=
  startsWith u "vec:" || startsWith u "fp:" || startsWith u "dis_" ||
    startsWith u "instr_seq:" || startsWith u "mappings:"

/-- The name of a flag without a comma or a carriage return at its end. -/
def flagName (name : Text) : Text :=
  if name.getLast? = some ',' ∨ name.getLast? = some '\r' then name.dropLast else name

/-- `parsed_mask |= …`; `none` is a name that is not known. -/
def maskOr (mask : Mask) (name : Text) : Option Mask :=
  if name = "VECTOR".toList then some (insert .VECTOR mask)
  else if name = "FLOATS".toList then some (insert .FLOATS mask)
  else if name = "CHECK_MEM".toList then some (insert .CHECK_MEM mask)
  else if name = "AUTO_MAP_MEM".toList then some (insert .AUTO_MAP_MEM mask)
  else if name = "AUTO_MAP_MEM_RW_PROT".toList then some (insert .AUTO_MAP_MEM_RW_PROT mask)
  else if name = "META".toList then some (insert .META mask)
  else if name = "VERBOSE".toList then some mask
  else none

/-- `strtoul` with base zero. -/
def strtoul (t : Text) : Nat :=
  let (neg, t) := scanSign (lstrip t)
  match t with
  | '0' :: 'x' :: t => toUlong neg (ofHex (t.takeWhile isHex))
  | '0' :: 'X' :: t => toUlong neg (ofHex (t.takeWhile isHex))
  | '0' :: t => toUlong neg (Nat.ofDigitChars 8 (t.takeWhile fun c => '0' ≤ c ∧ c ≤ '7') 0)
  | t => toUlong neg (Nat.ofDigitChars 10 (t.takeWhile Char.isDigit) 0)

/-! ## The loops

One pass of each loop. A loop that is left without a new line hands its line to the loop around it.
-/

variable (b : Build) (heap : Nat → Bytes)

/-- The test for a `flags:` line, which only counts without indentation. -/
def topLevelFlags (line : Text) : Bool := lstrip line = line ∧ startsWith line "flags:"

/-- The check behind the `flags:` section. -/
def checkFlags (s : Load b.toRegConfig) : Pass b.toRegConfig :=
  if s.parsedMask.any (· ≠ b.expectedMask) then
    .stop (.exited (.flagsMismatch b.expectedMask (s.parsedMask.getD ∅)))
  else .next (s.leave .top)

/-- One pass over the whole text. -/
def topPass (s : Load b.toRegConfig) : Pass b.toRegConfig :=
  match s.lines with
  | [] =>
    match s.contentCopy with
    | some copy => .next { s with loc := .midrs, lines := copy, contentCopy := none }
    | none => .stop (.returned ⟨s.instrSeq, s.regs, s.stray, s.mappings, s.midrs⟩)
  | line :: _ =>
    let t := lstrip line
    if t = [] ∨ t.head? = some '#' then .next (s.advance .top)
    else if startsWith t "input:" ∨ startsWith t "results:" then .next (s.advance .top)
    else if startsWith t "instr_seq:" then .next (s.advance .instrSeq)
    else if startsWith t "regs:" then .next (s.advance .regs)
    else if startsWith t "mappings:" then .next (s.advance .mappings)
    else if topLevelFlags line then
      if (strstr t "[]").isNone then .next { s.advance .flags with parsedMask := some ∅ }
      -- the line stays in hand
      else checkFlags b { s with parsedMask := some ∅ }
    else .next (s.advance .top)

def instrSeqPass (s : Load b.toRegConfig) : Pass b.toRegConfig :=
  match s.lines with
  | [] => .next (s.leave .top)
  | line :: _ =>
    let t := lstrip line
    if t.head? ≠ some '-' then .next (s.leave .top)
    else match scanInstr t with
      | none => .stop (.exited .assertion)
      | some instr =>
        if b.MAX_SEQ_LEN ≤ s.instrSeq.length then
          .stop (.exited (.sequenceTooLong (s.instrSeq.length + 1)))
        else .next { s.advance .instrSeq with instrSeq := s.instrSeq ++ [instr] }

def regsPass (s : Load b.toRegConfig) : Pass b.toRegConfig :=
  match s.lines with
  | [] => .next (s.leave .top)
  | line :: _ =>
    let t := lstrip line
    if startsWith t "gp:" then .next (s.advance (.gp 0))
    else if b.VECTOR ∧ startsWith t "vec:" then .next (s.advance (.vec 0))
    else if b.FLOATS ∧ startsWith t "fp:" then .next (s.advance (.fp 0))
    else .next (s.leave .top)

def gpPass (i : Nat) (s : Load b.toRegConfig) : Pass b.toRegConfig :=
  match s.lines with
  | [] => .next (s.leave .regs)
  | line :: _ =>
    let u := lstrip line
    if u = [] then .next (s.advance (.gp i))
    else if endsGp u then .next (s.leave .regs)
    else match scanReg u with
      | some val => .next ((s.store .gp i val).advance (.gp (i + 1)))
      | none => .next (s.advance (.gp i))

def vecPass (i : Nat) (s : Load b.toRegConfig) : Pass b.toRegConfig :=
  match s.lines with
  | [] => .next (s.leave .regs)
  | line :: _ =>
    let u := lstrip line
    if u = [] then .next (s.advance (.vec i))
    else if u.head? ≠ some 'v' then .next (s.leave .regs)
    else
      -- a line without `0x` clears the register
      let digits := ((strstr u "0x").map fun p =>
        ((p.drop 2).takeWhile isHex).take (2 * VEC_REG_SIZE)).getD []
      .next ((s.store .vec i (ofLeBytes (parseHexLeBytes digits VEC_REG_SIZE))).advance
        (.vec (i + 1)))

def fpPass (i : Nat) (s : Load b.toRegConfig) : Pass b.toRegConfig :=
  match s.lines with
  | [] => .next (s.leave .regs)
  | line :: _ =>
    let u := lstrip line
    if u = [] then .next (s.advance (.fp i))
    else if u.head? ≠ some 'f' ∧ u.head? ≠ some 'd' then .next (s.leave .regs)
    else match scanReg u with
      | some val => .next ((s.store .fp i val).advance (.fp (i + 1)))
      | none => .next (s.advance (.fp i))

/-- The content of a mapping of `n` bytes: what a line `val:` spells, else what `malloc` left there.
The digits have to be those of whole words. -/
def scanVal (n : Nat) (t : Text) : Option Bytes :=
  match strstr t "val:" with
  | none => some (heap n)
  | some valp =>
    let digits := valDigits (valp.drop 4)
    if n % 8 = 0 ∧ digits.length = n * 2 then some (valBytes (n / 8) digits) else none

/-- One pass takes the four lines of a mapping. Memory does not run out. -/
def mappingsPass (s : Load b.toRegConfig) : Pass b.toRegConfig :=
  match s.lines with
  | [] => .next (s.leave .top)
  | line :: rest =>
    let t := lstrip line
    if t.head? ≠ some '-' then .next (s.leave .top)
    else match scanStart t, rest with
      | none, _ => .stop (.exited .assertion)
      | some _, [] => .stop (.exited .nullLine)
      | some start, line₁ :: rest₁ =>
        match scanField "n:" (lstrip line₁), rest₁ with
        | none, _ => .stop (.exited .assertion)
        | some _, [] => .stop (.exited .nullLine)
        | some n, line₂ :: rest₂ =>
          match scanField "prot:" (lstrip line₂), rest₂ with
          | none, _ => .stop (.exited .assertion)
          | some _, [] => .stop (.exited .nullLine)
          | some prot, line₃ :: rest₃ =>
            match scanVal heap n (lstrip line₃) with
            | none => .stop (.exited .assertion)
            | some val =>
              .next { s with
                lines := rest₃
                mappings := s.mappings ++
                  [⟨UInt64.ofNat start, UInt64.ofNat n, UInt32.ofNat prot, val⟩] }

def flagsPass (s : Load b.toRegConfig) : Pass b.toRegConfig :=
  match s.lines with
  | [] => checkFlags b s
  | line :: _ =>
    let t := lstrip line
    if t.head? ≠ some '-' then checkFlags b s
    else match scanFlag t with
      | none => .stop (.exited .assertion)
      | some name =>
        match maskOr (s.parsedMask.getD ∅) (flagName name) with
        | none => .stop (.exited (.unknownFlag (flagName name)))
        | some mask => .next { s.advance .flags with parsedMask := some mask }

/-- The `midr:` of a line outside of a comment, unless it is zero or in the list already. -/
def noteMidr (midrs : List UInt32) (t : Text) : List UInt32 :=
  if t.head? = some '#' then midrs
  else match strstr t "midr:" with
    | none => midrs
    | some pos =>
      let v := strtoul ((pos.drop 5).dropWhile fun c => c = ' ' ∨ c = '\t')
      let val := UInt32.ofNat v
      if v ≠ 0 ∧ val ∉ midrs then midrs ++ [val] else midrs

/-- The second loop over the text. -/
def midrsPass (s : Load b.toRegConfig) : Pass b.toRegConfig :=
  match s.lines with
  | [] => .stop (.returned ⟨s.instrSeq, s.regs, s.stray, s.mappings, s.midrs⟩)
  | line :: _ => .next { s.advance .midrs with midrs := noteMidr s.midrs (lstrip line) }

/-- One pass of the loop that the parser is in. -/
def loadStep (s : Load b.toRegConfig) : Pass b.toRegConfig :=
  match s.loc with
  | .top => topPass b s
  | .instrSeq => instrSeqPass b s
  | .regs => regsPass b s
  | .gp i => gpPass b i s
  | .vec i => vecPass b i s
  | .fp i => fpPass b i s
  | .mappings => mappingsPass b heap s
  | .flags => flagsPass b s
  | .midrs => midrsPass b s

/-- `load_repro` when it is called: `regs` is what the caller passes in. -/
def Load.init {c : RegConfig} (regs : Regs c) (wantsMidrs : Bool) (content : Text) : Load c where
  loc := .top
  lines := content.lines
  instrSeq := []
  regs := regs
  stray := []
  mappings := []
  parsedMask := none
  contentCopy := if wantsMidrs then some content.lines else none
  midrs := []

/-- `load_repro` comes to this end. -/
def LoadRepro (regs : Regs b.toRegConfig) (wantsMidrs : Bool) (content : Text) :
    LoadEnd b.toRegConfig → Prop :=
  Machine.Stops (loadStep b heap) (Load.init regs wantsMidrs content)

end RISCover
