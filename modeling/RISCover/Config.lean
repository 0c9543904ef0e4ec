import Mathlib.Logic.Basic

/-!
# Build configurations

The client is compiled and the server is started with the same flags; together with the
architecture they decide which registers exist, what a result carries and how both are laid out.
Two combinations are refused (`#error` in the two `regs.h`, an `assert` in `parse_and_set_flags`),
so `RegConfig` carries the proof that its combination is one of the others.

Macros, module constants and signal numbers keep their capitals.
-/

namespace RISCover

inductive Arch where
  | riscv64
  | aarch64
  deriving DecidableEq

/-- `regs.h`: on riscv64 `VECTOR` needs `FLOATS`; on aarch64 the two exclude each other. -/
def buildAdmits : Arch → (floats vector : Bool) → Bool
  | .riscv64, floats, vector => !vector || floats
  | .aarch64, floats, vector => !(floats && vector)

/-! The three builds of riscv64. -/

theorem buildAdmits_integer : buildAdmits .riscv64 false false = true := rfl
theorem buildAdmits_floats : buildAdmits .riscv64 true false = true := rfl
theorem buildAdmits_vector : buildAdmits .riscv64 true true = true := rfl

/-- The part of a configuration that decides which registers exist. -/
structure RegConfig where
  arch : Arch
  FLOATS : Bool
  VECTOR : Bool
  admitted : buildAdmits arch FLOATS VECTOR = true
  deriving DecidableEq

/-- The architecture and the compile flags that the modelled code looks at. -/
structure Config extends RegConfig where
  META : Bool
  CHECK_MEM : Bool
  deriving DecidableEq

instance : Coe Config RegConfig := ⟨Config.toRegConfig⟩

/-- Bytes of a vector register. -/
def VEC_REG_SIZE : Nat := 16

/-- Bytes kept per memory change; the server calls it `MEM_CUT_AT`. -/
def CHECK_MEM_CUT_AT : Nat := 16

def Arch.CHECK_MEM_MAX_NUMBER_MEM_CHANGES : Arch → Nat
  | .riscv64 => 100
  | .aarch64 => 32

/-- `PAGE_SIZE` of the server. -/
def Arch.PAGE_SIZE : Arch → Nat
  | .riscv64 => 4096
  | .aarch64 => 16384

/-- The number of memory changes fits the byte that carries it. -/
theorem Arch.CHECK_MEM_MAX_NUMBER_MEM_CHANGES_lt (a : Arch) :
    a.CHECK_MEM_MAX_NUMBER_MEM_CHANGES < 256 := by
  cases a <;> decide

/-! ## Signal numbers of Linux -/

def SIGILL : Nat := 4
def SIGBUS : Nat := 7
def SIGSEGV : Nat := 11
def SIGALRM : Nat := 14

end RISCover
