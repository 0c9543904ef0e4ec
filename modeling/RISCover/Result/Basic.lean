import RISCover.Regs
import RISCover.Lib.Dict

/-!
# Results

One execution of an input leaves a `struct result` on the client (`CResult`) and, after the trip
over the network, a Python object of class `Result` on the server. The first carries the whole
register file, the second only the registers that changed, by name.
-/

namespace RISCover

/-! ## The client's `struct result`

The members that are packed, and what the runner promises about them (`CResult.FromRunner`). -/

/-- `struct mem_change`. -/
structure MemChange where
  start : UInt64
  n : UInt32
  val : Vector UInt8 CHECK_MEM_CUT_AT
  checksum : UInt32
  deriving DecidableEq

/-- `struct meta`. -/
structure Meta where
  cycle : UInt64
  instret : UInt64
  deriving DecidableEq

/-- `struct result`. `memChanges` are the first `n_mem_changes` slots of the array `mem_changes`,
so there are at most as many as the array has. Without `META` or `CHECK_MEM` the members `counters`
and `memChanges` do not exist in the struct and nothing reads them. -/
structure CResult (c : Config) where
  signum : Int32
  siAddrr : UInt64
  siPc : UInt64
  siCode : Int32
  regsResult : Regs c
  counters : Meta
  memChanges : List MemChange
  memChanges_le : memChanges.length ≤ c.arch.CHECK_MEM_MAX_NUMBER_MEM_CHANGES

/-- The bit pattern of a C `int`, as it is stored into a byte string. -/
def intBits (x : Int32) : Nat := x.toUInt32.toNat

theorem intBits_lt (x : Int32) : intBits x < 2 ^ 32 := x.toUInt32.toNat_lt

/-- The bit pattern is the value modulo `2 ^ 32`. -/
theorem intBits_eq_emod (x : Int32) : (intBits x : Int) = x.toInt % 2 ^ 32 := by
  have h : x.toInt = x.toBitVec.toInt := rfl
  have hbits : intBits x = x.toBitVec.toNat := rfl
  have hlt := x.toBitVec.isLt
  rw [h, hbits, BitVec.toInt_eq_toNat_cond]
  split <;> omega

theorem intBits_inj {x y : Int32} (h : intBits x = intBits y) : x = y := by
  apply Int32.toBitVec.inj
  apply BitVec.eq_of_toNat_eq
  exact h

/-- What the runner guarantees of its results: a signal number is a small non-negative number, and
a run without a signal has no signal information. -/
structure CResult.FromRunner {c : Config} (r : CResult c) : Prop where
  signum_nonneg : 0 ≤ r.signum.toInt
  signum_lt : r.signum.toInt < 256
  si_zero : r.signum = 0 → r.siAddrr = 0 ∧ r.siPc = 0 ∧ r.siCode = 0

theorem CResult.FromRunner.intBits_signum {c : Config} {r : CResult c} (h : r.FromRunner) :
    (intBits r.signum : Int) = r.signum.toInt := by
  have h₁ := h.signum_nonneg
  have h₂ := h.signum_lt
  rw [intBits_eq_emod]
  omega

theorem CResult.FromRunner.intBits_signum_lt {c : Config} {r : CResult c} (h : r.FromRunner) :
    intBits r.signum < 256 := by
  have h₁ := h.intBits_signum
  have h₂ := h.signum_lt
  omega

theorem intBits_eq_zero {x : Int32} : intBits x = 0 ↔ x = 0 :=
  ⟨fun h => intBits_inj h, fun h => by rw [h]; rfl⟩

/-! ## The server's class `Result`

`OfConfig` says which attributes a result of a build has: those about memory exactly if the build
checks it, and names of its own registers. -/

/-- One tuple `(start, n, val, checksum)` of `mem_diffs`. -/
structure MemDiff where
  start : Nat
  n : Nat
  val : Nat
  checksum : Nat
  deriving DecidableEq

/-- Class `Result`. `κ` is the type of the client objects. -/
structure Result (κ : Type) where
  signum : Nat
  cycleDiff : Option Nat
  instretDiff : Option Nat
  regs : Dict String Nat
  siAddr : Nat
  siPc : Nat
  siCode : Nat
  client : κ
  realClient : κ
  memDiffs : Option (List MemDiff)

/-- What the clients of one build promise about their parsed results: memory changes are reported
by all of them or by none, and a result without a signal has no signal information. -/
structure Result.OfConfig {κ : Type} (c : Config) (r : Result κ) : Prop where
  memDiffs_isSome : r.memDiffs.isSome = c.CHECK_MEM
  si_zero : r.signum = 0 → r.siAddr = 0 ∧ r.siPc = 0 ∧ r.siCode = 0

end RISCover
