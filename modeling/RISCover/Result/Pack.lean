import RISCover.Result.Basic

/-!
# The client packs a result

`pack_inner_result`, `pack_result` and `pack_results` of the client. A frame is a `uint16` length
and a body; the body is a tag and one inner result, or a tag, a count and that many inner results.
-/

open Bytes

namespace RISCover

variable {c : Config}

/-! ## The registers that changed

The loops over the classes together give the list of the registers whose values differ, in the order
of the classes. -/

/-- The loop shared by the `LOOP_OVER_*_DIFF` macros and the single comparisons: the registers of
one class whose value changed, in index order. -/
def loopOverDiff (k : RegClass) (before after : Regs c) : List (Reg c) :=
  ((List.finRange (c.count k)).map fun i => (⟨k, i⟩ : Reg c)).filter fun r =>
    r.val before != r.val after

def loopOverGpDiff (before after : Regs c) : List (Reg c) := loopOverDiff .gp before after
def pstateDiff (before after : Regs c) : List (Reg c) := loopOverDiff .pstate before after
def fcsrDiff (before after : Regs c) : List (Reg c) := loopOverDiff .fcsr before after
def fpsrDiff (before after : Regs c) : List (Reg c) := loopOverDiff .fpsr before after
def loopOverFpDiff (before after : Regs c) : List (Reg c) := loopOverDiff .fp before after
def loopOverVectorRegsDiff (before after : Regs c) : List (Reg c) :=
  loopOverDiff .vec before after

/-- The registers `pack_inner_result` reports, in its order. -/
def regsDiff (before after : Regs c) : List (Reg c) :=
  loopOverGpDiff before after ++ pstateDiff before after ++ fcsrDiff before after ++
    fpsrDiff before after ++ loopOverFpDiff before after ++ loopOverVectorRegsDiff before after

/-- The order of the reports is the order of the struct. -/
theorem regsDiff_eq (before after : Regs c) :
    regsDiff before after =
      (RegConfig.allRegs c).filter fun r => r.val before != r.val after := by
  simp [regsDiff, loopOverGpDiff, pstateDiff, fcsrDiff, fpsrDiff, loopOverFpDiff,
    loopOverVectorRegsDiff, loopOverDiff, RegConfig.allRegs, RegClass.members]

theorem mem_regsDiff {before after : Regs c} {r : Reg c} :
    r ∈ regsDiff before after ↔ r.val before ≠ r.val after := by
  simp [regsDiff_eq, RegConfig.mem_allRegs]

theorem regsDiff_length_lt (before after : Regs c) : (regsDiff before after).length < 256 := by
  rw [regsDiff_eq]
  exact (List.length_filter_le _ _).trans_lt (RegConfig.allRegs_length_lt c)

/-! ## Packing

Each part of a frame, and what makes it fail: a length that does not fit its field. -/

/-- ABI index, then the register's bytes. -/
def packReg (after : Regs c) (r : Reg c) : Bytes :=
  UInt8.ofNat r.abiIndex :: (r.val after).bytes

/-- The `META` section; only riscv64 sends `instret`. -/
def packMeta (c : Config) (m : Meta) : Bytes :=
  if c.META then
    leBytes 2 m.cycle.toNat ++
      match c.arch with
      | .riscv64 => leBytes 2 m.instret.toNat
      | .aarch64 => []
  else []

/-- The signal information, sent only when there was a signal. -/
def packSi (r : CResult c) : Bytes :=
  if r.signum ≠ 0 then
    leBytes 8 r.siAddrr.toNat ++ leBytes 8 r.siPc.toNat ++ leBytes 4 (intBits r.siCode)
  else []

/-- `n_cap`: how many bytes of a change are kept. -/
def MemChange.nCap (m : MemChange) : Nat :=
  if m.n.toNat < CHECK_MEM_CUT_AT then m.n.toNat else CHECK_MEM_CUT_AT

def packMemChange (m : MemChange) : Bytes :=
  leBytes 8 m.start.toNat ++ leBytes 4 m.n.toNat ++ m.val.toList.take m.nCap ++
    leBytes 4 m.checksum.toNat

/-- The `CHECK_MEM` section. -/
def packMemChanges (c : Config) (changes : List MemChange) : Bytes :=
  if c.CHECK_MEM then UInt8.ofNat changes.length :: changes.flatMap packMemChange else []

/-- `pack_inner_result`. -/
def packInnerResult (regsBefore : Regs c) (r : CResult c) : Bytes :=
  let diff := regsDiff regsBefore r.regsResult
  UInt8.ofNat (intBits r.signum) ::
    (packMeta c r.counters ++ UInt8.ofNat diff.length ::
      (diff.flatMap (packReg r.regsResult) ++ packSi r ++ packMemChanges c r.memChanges))

/-- The length in front of a body; a body that does not fit the `uint16` fails the assertion. -/
def packFrame (body : Bytes) : Option Bytes :=
  if body.length ≤ 0xffff then some (leBytes 2 body.length ++ body) else none

def RESULT_TAG_SINGLE : UInt8 := 0
def RESULT_TAG_MULTI : UInt8 := 1

/-- `pack_result`. -/
def packResult (regsBefore : Regs c) (r : CResult c) : Option Bytes :=
  packFrame (RESULT_TAG_SINGLE :: packInnerResult regsBefore r)

/-- `pack_results`. -/
def packResults (regsBefore : Regs c) (results : List (CResult c)) : Option Bytes :=
  packFrame (RESULT_TAG_MULTI :: UInt8.ofNat results.length ::
    results.flatMap (packInnerResult regsBefore))

/-- What the client answers to one input: the result of the whole sequence, or with `full_seq` the
results of its prefixes. -/
inductive Answer (c : Config) where
  | single (r : CResult c)
  | multi (results : List (CResult c))

def packAnswer (regsBefore : Regs c) : Answer c → Option Bytes
  | .single r => packResult regsBefore r
  | .multi results => packResults regsBefore results

end RISCover
