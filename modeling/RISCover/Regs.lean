import Mathlib.Data.List.Nodup
import RISCover.Config
import RISCover.Lib.Bytes

/-!
# The register file

`struct regs` of the two `regs.h`, its ABI indices, and the register names of both sides.

A register is a class (the member of `struct regs` it lives in) and an index within it. The
`#ifdef`s decide how many registers a class has: a member that is compiled out has none, a scalar
member has one. On aarch64 with `VECTOR` the floating point view shares the storage of the vector
registers, so it has no registers of its own.
-/

open Bytes

namespace RISCover

/-- The members of `struct regs`, over both architectures. -/
inductive RegClass where
  | gp
  | pstate
  | fcsr
  | fpsr
  | fp
  | vec
  deriving DecidableEq

/-- Bytes of one register of the class: `sizeof(reg)`, or `sizeof(vv)`. -/
def RegClass.size : RegClass → Nat
  | .vec => VEC_REG_SIZE
  | _ => 8

/-- The members in the order of the struct. -/
def RegClass.members : List RegClass := [.gp, .pstate, .fcsr, .fpsr, .fp, .vec]

/-- How many registers a class has in a configuration. -/
def RegConfig.count (c : RegConfig) : RegClass → Nat
  | .gp => match c.arch with
    | .riscv64 => 31
    | .aarch64 => 32
  | .pstate => (c.arch == .aarch64).toNat
  | .fcsr => (c.arch == .riscv64 && c.FLOATS).toNat
  | .fpsr => (c.arch == .aarch64 && (c.FLOATS || c.VECTOR)).toNat
  | .fp => if c.FLOATS then 32 else 0
  | .vec => if c.VECTOR then 32 else 0

/-- A register's content: the number its bytes spell in memory. -/
abbrev RegVal (k : RegClass) := BitVec (8 * k.size)

/-- `struct regs`. -/
def Regs (c : RegConfig) := (k : RegClass) → Vector (RegVal k) (c.count k)

/-- The register file with one number in every register. -/
def Regs.fill (c : RegConfig) (n : Nat) : Regs c := fun _ => Vector.replicate _ (BitVec.ofNat _ n)

/-- The bytes of a register in memory. -/
def RegVal.bytes {k : RegClass} (v : RegVal k) : Bytes := leBytes k.size v.toNat

@[simp] theorem RegVal.length_bytes {k : RegClass} (v : RegVal k) : v.bytes.length = k.size := by
  simp [RegVal.bytes]

theorem RegVal.toNat_lt {k : RegClass} (v : RegVal k) : v.toNat < 256 ^ k.size := by
  have h := v.isLt
  rwa [Nat.pow_mul] at h

@[simp] theorem RegVal.ofLeBytes_bytes {k : RegClass} (v : RegVal k) :
    ofLeBytes v.bytes = v.toNat :=
  ofLeBytes_leBytes_of_lt v.toNat_lt

/-! ## Layout and ABI indices

The offset of a register counts in eight bytes; a vector register takes as many as it has. -/

/-- `sizeof` of a member. -/
def RegConfig.sizeof (c : RegConfig) (k : RegClass) : Nat := c.count k * k.size

/-- `offsetof(struct regs, k)`: the members in front of it. -/
def RegConfig.offsetof (c : RegConfig) (k : RegClass) : Nat :=
  ((RegClass.members.takeWhile (· ≠ k)).map c.sizeof).sum

/-- `sizeof(struct regs)`. -/
def RegConfig.sizeofRegs (c : RegConfig) : Nat := (RegClass.members.map c.sizeof).sum

/-- `getabiindex`: the offset of a class in units of `sizeof(reg)`. -/
def RegConfig.getabiindex (c : RegConfig) (k : RegClass) : Nat := c.offsetof k / 8

/-! ## Names

`regs_mapping` of the server and `abi_names` of the client are written down separately. -/

/-- `REGS_FP` and `REGS_VECTOR` of the client's headers. -/
def Arch.REGS_FP : Arch → List String
  | .riscv64 => ["ft0", "ft1", "ft2", "ft3",
      "ft4", "ft5", "ft6", "ft7", "fs0", "fs1", "fa0", "fa1", "fa2",
      "fa3", "fa4", "fa5", "fa6", "fa7", "fs2", "fs3", "fs4", "fs5",
      "fs6", "fs7", "fs8", "fs9", "fs10", "fs11", "ft8", "ft9",
      "ft10", "ft11"]
  | .aarch64 => ["d0", "d1", "d2", "d3", "d4", "d5", "d6", "d7", "d8", "d9",
      "d10", "d11", "d12", "d13", "d14", "d15", "d16", "d17", "d18", "d19",
      "d20", "d21", "d22", "d23", "d24", "d25", "d26", "d27",
      "d28", "d29", "d30", "d31"]

def REGS_VECTOR : List String :=
  ["v0", "v1", "v2", "v3", "v4", "v5", "v6", "v7", "v8",
    "v9", "v10", "v11", "v12", "v13", "v14", "v15", "v16", "v17", "v18",
    "v19", "v20", "v21", "v22", "v23", "v24", "v25", "v26", "v27", "v28",
    "v29", "v30", "v31"]

/-- The client's table `abi_names` in `get_abi_name`. -/
def RegConfig.abiNames (c : RegConfig) : List String :=
  match c.arch with
  | .riscv64 =>
      ["ra"] ++ ["sp"] ++ ["gp", "tp", "t0", "t1", "t2"] ++ ["s0"] ++
      ["s1", "a0", "a1", "a2", "a3", "a4", "a5", "a6", "a7",
        "s2", "s3", "s4", "s5", "s6", "s7", "s8", "s9", "s10",
        "s11", "t3", "t4", "t5", "t6"] ++
      ["fcsr"] ++ c.arch.REGS_FP ++ REGS_VECTOR
  | .aarch64 =>
      ["x0", "x1", "x2", "x3", "x4", "x5", "x6", "x7", "x8", "x9",
        "x10", "x11", "x12", "x13", "x14", "x15", "x16", "x17", "x18",
        "x19", "x20", "x21", "x22", "x23", "x24", "x25", "x26", "x27",
        "x28", "x29", "x30"] ++ ["sp", "pstate"] ++
      (if c.FLOATS || c.VECTOR then ["fpsr"] else []) ++
      (if c.FLOATS then c.arch.REGS_FP else []) ++
      (if c.VECTOR then REGS_VECTOR else [])

/-- `get_abi_name`; past the table the client exits. -/
def RegConfig.getAbiName (c : RegConfig) (i : Nat) : Option String := c.abiNames[i]?

/-- `gp` of `util.py`. -/
def Arch.gp : Arch → List String
  | .riscv64 => ["ra", "sp", "gp", "tp", "t0", "t1", "t2", "s0",
      "s1", "a0", "a1", "a2", "a3", "a4", "a5", "a6", "a7",
      "s2", "s3", "s4", "s5", "s6", "s7", "s8", "s9", "s10",
      "s11", "t3", "t4", "t5", "t6"]
  | .aarch64 => ["x0", "x1", "x2", "x3", "x4", "x5", "x6", "x7", "x8",
      "x9", "x10", "x11", "x12", "x13", "x14", "x15", "x16", "x17", "x18",
      "x19", "x20", "x21", "x22", "x23", "x24", "x25", "x26", "x27", "x28",
      "x29", "x30", "sp"]

/-- `fp` of `util.py`. -/
def Arch.fp : Arch → List String
  | .riscv64 => ["ft0", "ft1", "ft2", "ft3",
      "ft4", "ft5", "ft6", "ft7", "fs0", "fs1", "fa0", "fa1", "fa2",
      "fa3", "fa4", "fa5", "fa6", "fa7", "fs2", "fs3", "fs4", "fs5",
      "fs6", "fs7", "fs8", "fs9", "fs10", "fs11", "ft8", "ft9",
      "ft10", "ft11"]
  | .aarch64 => ["d0", "d1", "d2", "d3", "d4", "d5", "d6", "d7", "d8",
      "d9", "d10", "d11", "d12", "d13", "d14", "d15", "d16", "d17", "d18",
      "d19", "d20", "d21", "d22", "d23", "d24", "d25", "d26", "d27", "d28",
      "d29", "d30", "d31"]

/-- `vec` of `util.py`, the same for both architectures. -/
def pyVec : List String :=
  ["v0", "v1", "v2", "v3", "v4", "v5", "v6", "v7", "v8",
    "v9", "v10", "v11", "v12", "v13", "v14", "v15", "v16", "v17", "v18",
    "v19", "v20", "v21", "v22", "v23", "v24", "v25", "v26", "v27", "v28",
    "v29", "v30", "v31"]

/-- `regs_mapping` of `util.py`: the server's name for each ABI index. -/
def RegConfig.regsMapping (c : RegConfig) : List String :=
  match c.arch with
  | .riscv64 =>
      -- `fcsr` stands in front of the floating point registers, as in the struct
      c.arch.gp ++ (if c.FLOATS then ["fcsr"] ++ c.arch.fp else []) ++
        (if c.VECTOR then pyVec else [])
  | .aarch64 =>
      c.arch.gp ++ ["pstate"] ++
        (if c.VECTOR then ["fpsr"] ++ pyVec else if c.FLOATS then ["fpsr"] ++ c.arch.fp else [])

/-- The part of `regs_mapping` that names the registers of a class. -/
def RegConfig.names (c : RegConfig) : RegClass → List String
  | .gp => c.arch.gp
  | .pstate => if c.arch = .aarch64 then ["pstate"] else []
  | .fcsr => if c.arch = .riscv64 ∧ c.FLOATS then ["fcsr"] else []
  | .fpsr => if c.arch = .aarch64 ∧ (c.FLOATS ∨ c.VECTOR) then ["fpsr"] else []
  | .fp => if c.FLOATS then c.arch.fp else []
  | .vec => if c.VECTOR then pyVec else []

/-- The names of a class in the configurations that have it. -/
def RegClass.names (arch : Arch) : RegClass → List String
  | .gp => arch.gp
  | .pstate => ["pstate"]
  | .fcsr => ["fcsr"]
  | .fpsr => ["fpsr"]
  | .fp => arch.fp
  | .vec => pyVec

theorem RegConfig.names_subset (c : RegConfig) (k : RegClass) : c.names k ⊆ k.names c.arch := by
  cases k with
  | gp => exact List.Subset.refl _
  | _ =>
      unfold RegConfig.names RegClass.names
      simp only
      split
      · exact List.Subset.refl _
      · exact List.nil_subset _

/-- `name.startswith("v")`, the test by which the parser recognises a vector register. -/
def startsWithV (name : String) : Bool := name.toList.head? == some 'v'

/-! ## The registers of a configuration

All registers in the order of their indices, by which the two tables of names are one list. -/

/-- A register: its class and its index within the class. -/
abbrev Reg (c : RegConfig) := (k : RegClass) × Fin (c.count k)

/-- All registers, in the order of the struct. -/
def RegConfig.allRegs (c : RegConfig) : List (Reg c) :=
  RegClass.members.flatMap fun k => (List.finRange (c.count k)).map fun i => ⟨k, i⟩

namespace Reg

variable {c : RegConfig}

/-- The index under which the client reports the register. -/
def abiIndex (r : Reg c) : Nat := c.getabiindex r.1 + r.2

/-- The client's own name for the register. -/
def name (r : Reg c) : String := (c.getAbiName r.abiIndex).getD ""

/-- The content of the register. -/
def val (r : Reg c) (regs : Regs c) : RegVal r.1 := (regs r.1)[r.2]

end Reg

namespace RegConfig

theorem mem_members (k : RegClass) : k ∈ RegClass.members := by
  cases k <;> decide

theorem mem_allRegs {c : RegConfig} (r : Reg c) : r ∈ c.allRegs := by
  obtain ⟨k, i⟩ := r
  exact List.mem_flatMap.mpr ⟨k, mem_members k, List.mem_map.mpr ⟨i, List.mem_finRange i, rfl⟩⟩

/-- The ABI indices count the registers through, without a gap. -/
theorem allRegs_abiIndex (c : RegConfig) :
    c.allRegs.map Reg.abiIndex = List.range c.allRegs.length := by
  rcases c with ⟨_ | _, _ | _, _ | _, h⟩ <;> revert h <;> decide +kernel

/-- The server's `regs_mapping` lists exactly the client's names, in the client's order. -/
theorem allRegs_name (c : RegConfig) : c.allRegs.map Reg.name = c.regsMapping := by
  rcases c with ⟨_ | _, _ | _, _ | _, h⟩ <;> revert h <;> decide +kernel

/-- Class by class, the server's names are the client's. -/
theorem names_eq (c : RegConfig) (k : RegClass) :
    (List.finRange (c.count k)).map (fun i => Reg.name (⟨k, i⟩ : Reg c)) = c.names k := by
  rcases c with ⟨_ | _, _ | _, _ | _, h⟩ <;> cases k <;> revert h <;> decide +kernel

theorem length_names (c : RegConfig) (k : RegClass) : (c.names k).length = c.count k := by
  rw [← names_eq, List.length_map, List.length_finRange]

theorem regsMapping_nodup (c : RegConfig) : c.regsMapping.Nodup := by
  rcases c with ⟨_ | _, _ | _, _ | _, h⟩ <;> revert h <;> decide +kernel

/-- The parser's test on the name finds exactly the vector registers. -/
theorem allRegs_startsWithV (c : RegConfig) :
    c.allRegs.map (fun r => startsWithV r.name) = c.allRegs.map (fun r => r.1 == .vec) := by
  rcases c with ⟨_ | _, _ | _, _ | _, h⟩ <;> revert h <;> decide +kernel

/-- Every ABI index fits the byte that carries it. -/
theorem allRegs_length_lt (c : RegConfig) : c.allRegs.length < 256 := by
  rcases c with ⟨_ | _, _ | _, _ | _, h⟩ <;> revert h <;> decide +kernel

end RegConfig

namespace Reg

variable {c : RegConfig}

/-- A register stands in `allRegs` at its ABI index. -/
theorem allRegs_getElem (r : Reg c) :
    ∃ h : r.abiIndex < c.allRegs.length, c.allRegs[r.abiIndex] = r := by
  obtain ⟨i, hi, hr⟩ := List.getElem_of_mem (RegConfig.mem_allRegs r)
  have hmap : i < (c.allRegs.map abiIndex).length := by simpa using hi
  have hidx : (c.allRegs.map abiIndex)[i] = i := by
    simp [RegConfig.allRegs_abiIndex]
  have hri : r.abiIndex = i := by simpa [hr] using hidx
  exact ⟨hri ▸ hi, by simp [hri, hr]⟩

theorem abiIndex_lt (r : Reg c) : r.abiIndex < 256 := by
  obtain ⟨h, _⟩ := allRegs_getElem r
  exact h.trans (RegConfig.allRegs_length_lt c)

/-- The server looks the register's ABI index up and finds the client's name for it. -/
theorem regsMapping_getElem (r : Reg c) : c.regsMapping[r.abiIndex]? = some r.name := by
  obtain ⟨h, hr⟩ := allRegs_getElem r
  rw [← RegConfig.allRegs_name, List.getElem?_map, List.getElem?_eq_getElem h, hr]
  rfl

theorem startsWithV_name (r : Reg c) : startsWithV r.name = (r.1 == .vec) :=
  List.map_inj_left.mp (RegConfig.allRegs_startsWithV c) r (RegConfig.mem_allRegs r)

theorem allRegs_nodup : (c.allRegs.map name).Nodup := by
  rw [RegConfig.allRegs_name]
  exact RegConfig.regsMapping_nodup c

/-- Different registers have different names. -/
theorem name_inj {r s : Reg c} (h : r.name = s.name) : r = s :=
  List.inj_on_of_nodup_map allRegs_nodup (RegConfig.mem_allRegs r) (RegConfig.mem_allRegs s) h

end Reg

theorem Reg.names_getElem {c : RegConfig} (r : Reg c) : (c.names r.1)[r.2.1]? = some r.name := by
  rw [← RegConfig.names_eq, List.getElem?_map]
  simp

/-- What holds of all names of the classes holds of the names of the registers. -/
theorem Reg.forall_name {P : RegClass → String → Prop}
    (h : ∀ arch k, ∀ name ∈ RegClass.names arch k, P k name) {c : RegConfig} (r : Reg c) :
    P r.1 r.name :=
  h c.arch r.1 r.name (c.names_subset r.1 (List.mem_of_getElem? r.names_getElem))

/-- Register files agree when they agree register by register: the struct has no padding. -/
theorem Regs.ext {c : RegConfig} {a b : Regs c} (h : ∀ r : Reg c, r.val a = r.val b) : a = b := by
  funext k
  apply Vector.ext
  intro i hi
  exact h ⟨k, ⟨i, hi⟩⟩

/-! ## The struct as bytes and as lists

The bytes of the struct decide the registers, and lists of values fill it. -/

/-- The memory of a `struct regs`, member after member. -/
def Regs.bytes {c : RegConfig} (regs : Regs c) : Bytes :=
  c.allRegs.flatMap fun r => (r.val regs).bytes

/-- The bytes of all registers determine them: the registers lie at fixed places. -/
theorem Regs.bytes_inj {c : RegConfig} {a b : Regs c} : a.bytes = b.bytes ↔ a = b := by
  refine ⟨fun h => ?_, fun h => h ▸ rfl⟩
  have hall : ∀ l : List (Reg c), (l.flatMap fun r => (r.val a).bytes) =
      (l.flatMap fun r => (r.val b).bytes) → ∀ r ∈ l, r.val a = r.val b := by
    intro l
    induction l with
    | nil => intro _ r hr; cases hr
    | cons s l ih =>
        intro heq
        rw [List.flatMap_cons, List.flatMap_cons] at heq
        obtain ⟨hs, hl⟩ := List.append_inj heq (by simp)
        rw [List.forall_mem_cons]
        refine ⟨?_, ih hl⟩
        apply BitVec.eq_of_toNat_eq
        rw [← RegVal.ofLeBytes_bytes, hs, RegVal.ofLeBytes_bytes]
  exact Regs.ext fun r => hall _ h r (RegConfig.mem_allRegs r)

/-- The register file with the given values, class by class. -/
def Regs.ofLists (c : RegConfig) (f : RegClass → List Nat) : Regs c := fun k =>
  Vector.ofFn fun i => BitVec.ofNat _ ((f k).getD i 0)

theorem Regs.toNat_val_ofLists {c : RegConfig} (f : RegClass → List Nat) (r : Reg c)
    (h : ∀ v ∈ f r.1, v < 256 ^ r.1.size) :
    (r.val (Regs.ofLists c f)).toNat = (f r.1).getD r.2 0 := by
  have hlt : (f r.1).getD r.2 0 < 256 ^ r.1.size := by
    rw [List.getD_eq_getElem?_getD]
    cases hget : (f r.1)[r.2.1]? with
    | none => exact Nat.pow_pos (by decide)
    | some v => exact h v (List.mem_of_getElem? hget)
  have hval : r.val (Regs.ofLists c f) = BitVec.ofNat _ ((f r.1).getD r.2 0) := by
    simp [Reg.val, Regs.ofLists]
  rw [hval, BitVec.toNat_ofNat, Nat.pow_mul]
  exact Nat.mod_eq_of_lt hlt

/-- The memory of such a register file lists the values. -/
theorem Regs.bytes_ofLists {c : RegConfig} {f : RegClass → List Nat}
    (hlen : ∀ k, (f k).length = c.count k) (h : ∀ k, ∀ v ∈ f k, v < 256 ^ k.size) :
    (Regs.ofLists c f).bytes =
      RegClass.members.flatMap fun k => (f k).flatMap (leBytes k.size) := by
  rw [Regs.bytes, RegConfig.allRegs, List.flatMap_assoc]
  congr 1
  funext k
  rw [List.flatMap_map]
  let value (i : Fin (c.count k)) : Nat := (f k).getD i.1 0
  have hvals : (List.finRange (c.count k)).map value = f k := by
    apply List.ext_getElem
    · simp [hlen k]
    · intro i h₁ h₂
      simp [value, List.getElem?_eq_getElem h₂]
  calc (List.finRange (c.count k)).flatMap
        (fun i => (Reg.val (⟨k, i⟩ : Reg c) (Regs.ofLists c f)).bytes)
      = (List.finRange (c.count k)).flatMap (fun i => leBytes k.size (value i)) := by
        congr 1
        funext i
        rw [RegVal.bytes, Regs.toNat_val_ofLists f ⟨k, i⟩ (h k)]
    _ = ((List.finRange (c.count k)).map value).flatMap (leBytes k.size) := by
        rw [List.flatMap_map]
    _ = (f k).flatMap (leBytes k.size) := by rw [hvals]

end RISCover
