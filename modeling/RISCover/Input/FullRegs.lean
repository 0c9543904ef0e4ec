import Mathlib.Data.List.Zip
import Mathlib.Tactic.Tauto
import RISCover.Input.Basic

/-!
# Inputs that carry register values (`WITH_FULL_REGS`)

The server writes a `struct regs` by hand, the client copies it. On aarch64 the two agree. On
riscv64 they do not: without floats the list of general registers is passed as one argument, and
with floats `fcsr` is written behind the floating point registers, where the struct has it in front
of them.
-/

open Bytes StructPack

namespace RISCover

/-! ## The server

`pack` writes the classes of registers in an order of its own. `decode_regs` says which value each
of them should have. -/

/-- Classes `InputWithValuesRiscv64` and `InputWithValuesAarch64`, with what their constructors
assert. -/
structure InputWithValues (arch : Arch) extends FullInput where
  gp : List UInt64
  fp : Option (List UInt64)
  vec : Option (List (BitVec 128))
  gp_length : gp.length = arch.gp.length
  fp_length : ∀ l, fp = some l → l.length = arch.fp.length
  vec_length : ∀ l, vec = some l → l.length = pyVec.length
  admitted : buildAdmits arch fp.isSome vec.isSome = true

namespace InputWithValues

variable {arch : Arch}

/-- `prepare_format_string`. -/
def prepareFormatString (inp : InputWithValues arch) (gpAppend fpAppend fpPrepend : Format)
    (fpVecMerged : Bool) : Format :=
  [(arch.gp.length, .Q)] ++ gpAppend ++ fpPrepend ++
    (if inp.fp.isSome && !(inp.vec.isSome && fpVecMerged) then [(arch.fp.length, .Q)] else []) ++
    fpAppend ++
    match inp.vec with
    | some vec => [(vec.length * VEC_REG_SIZE, .B)]
    | none => []

/-- `get_format_string` of the two subclasses. -/
def formatString (inp : InputWithValues arch) : Format :=
  match arch with
  | .riscv64 =>
      if inp.fp.isSome then inp.prepareFormatString [] [(1, .Q)] [] false
      else inp.prepareFormatString [] [] [] false
  | .aarch64 =>
      if inp.fp.isSome || inp.vec.isSome then
        inp.prepareFormatString [(1, .Q)] [] [(1, .Q)] true
      else inp.prepareFormatString [(1, .Q)] [] [] true

/-- `b"".join([x.to_bytes(VEC_REG_SIZE, "little") for x in self.vec])`. -/
def vecBytes (vec : List (BitVec 128)) : Bytes := vec.flatMap fun x => leBytes VEC_REG_SIZE x.toNat

def words (l : List UInt64) : List Nat := l.map UInt64.toNat

/-- `pack` of the two subclasses. -/
def pack (inp : InputWithValues arch) : Option Bytes :=
  let superFormatString := inp.toFullInput.getFormatString
  let superArgs := inp.toFullInput.getPackArgs
  match arch with
  | .riscv64 =>
      match inp.fp, inp.vec with
      | none, _ =>
          -- `[self.gp, *super_args]`
          StructPack.pack (inp.formatString ++ superFormatString)
            (Arg.list (words inp.gp) :: superArgs)
      | some fp, none =>
          StructPack.pack (inp.formatString ++ superFormatString)
            (ints (words inp.gp) ++ ints (words fp) ++ ints [0] ++ superArgs)
      | some fp, some vec =>
          StructPack.pack (inp.formatString ++ superFormatString)
            (ints (words inp.gp) ++ ints (words fp) ++ ints [0] ++
              ints ((vecBytes vec).map UInt8.toNat) ++ superArgs)
  | .aarch64 =>
      match inp.fp, inp.vec with
      | some fp, _ =>
          StructPack.pack (inp.formatString ++ superFormatString)
            (ints (words inp.gp) ++ ints [0] ++ ints [0] ++ ints (words fp) ++ superArgs)
      | none, some vec =>
          StructPack.pack (inp.formatString ++ superFormatString)
            (ints (words inp.gp) ++ ints [0] ++ ints [0] ++
              ints ((vecBytes vec).map UInt8.toNat) ++ superArgs)
      | none, none =>
          -- `pstate` only
          StructPack.pack (inp.formatString ++ superFormatString)
            (ints (words inp.gp) ++ ints [0] ++ superArgs)

/-- `for j, r in zip(values, names): regs[r] = j`. -/
def setAll (values : List Nat) (names : List String) (regs : Dict String Nat) : Dict String Nat :=
  (values.zip names).foldl (fun regs p => regs.set p.2 p.1) regs

/-- `decode_regs` of the two subclasses. -/
def decodeRegs (inp : InputWithValues arch) : Dict String Nat :=
  let regs := setAll (words inp.gp) arch.gp Dict.empty
  let regs := match inp.fp with
    | some fp => setAll (words fp) arch.fp regs
    | none => regs
  let regs := match inp.vec with
    | some vec => setAll (vec.map BitVec.toNat) pyVec regs
    | none => regs
  match arch with
  | .riscv64 => regs.set "fcsr" 0
  | .aarch64 =>
      let regs := regs.set "pstate" 0
      if inp.fp.isSome || inp.vec.isSome then regs.set "fpsr" 0 else regs

end InputWithValues

/-! ## The client

The struct is copied as it is, so the offsets of the registers decide what is read where. -/

/-- `memcpy(&regs, &input->regs, sizeof(regs))`. -/
def copyRegs (c : RegConfig) (head : Bytes) : Regs c := fun k =>
  Vector.ofFn fun i => BitVec.ofNat _ (ofLeBytes (slice head (c.offsetof k + i * k.size) k.size))

/-- The walk over a batch of `n` inputs. -/
def walkFullRegs (c : RegConfig) (data : Bytes) (n : Nat) : Option (List (Exec c) × Nat) :=
  walkInputs c.sizeofRegs (fun head => some (copyRegs c head)) data n 0

/-- The bytes of one class. -/
def classBytes {c : RegConfig} (regs : Regs c) (k : RegClass) : Bytes :=
  (List.finRange (c.count k)).flatMap fun i => (Reg.val (⟨k, i⟩ : Reg c) regs).bytes

theorem Regs.bytes_eq {c : RegConfig} (regs : Regs c) :
    regs.bytes = RegClass.members.flatMap (classBytes regs) := by
  rw [Regs.bytes, RegConfig.allRegs, List.flatMap_assoc]
  congr 1
  funext k
  rw [List.flatMap_map]
  rfl

theorem length_classBytes {c : RegConfig} (regs : Regs c) (k : RegClass) :
    (classBytes regs k).length = c.sizeof k := by
  rw [classBytes, List.length_flatMap]
  simp [RegConfig.sizeof]

theorem Regs.length_bytes {c : RegConfig} (regs : Regs c) : regs.bytes.length = c.sizeofRegs := by
  rw [Regs.bytes_eq, List.length_flatMap, RegConfig.sizeofRegs]
  congr 2
  funext k
  exact length_classBytes regs k

/-- Copying the memory of a register file gives the register file. -/
theorem copyRegs_bytes {c : RegConfig} (regs : Regs c) : copyRegs c regs.bytes = regs := by
  apply Regs.ext
  rintro ⟨k, i⟩
  have hsplit : RegClass.members =
      RegClass.members.takeWhile (· ≠ k) ++ k :: (RegClass.members.dropWhile (· ≠ k)).tail := by
    cases k <;> decide
  let front := (RegClass.members.takeWhile (· ≠ k)).flatMap (classBytes regs)
  have hfront : front.length = c.offsetof k := by
    rw [List.length_flatMap, RegConfig.offsetof]
    congr 2
    funext k'
    exact length_classBytes regs k'
  have hbytes : regs.bytes = front ++ (classBytes regs k ++
      (RegClass.members.dropWhile (· ≠ k)).tail.flatMap (classBytes regs)) := by
    rw [Regs.bytes_eq]
    nth_rewrite 1 [hsplit]
    rw [List.flatMap_append, List.flatMap_cons]
  -- a register lies behind the classes before its own and the registers before it in its class
  have hslice : slice regs.bytes (c.offsetof k + i * k.size) k.size =
      (Reg.val (⟨k, i⟩ : Reg c) regs).bytes := by
    have hpiece := slice_flatMap (k := k.size) (f := fun i => (Reg.val (⟨k, i⟩ : Reg c) regs).bytes)
      (fun j => RegVal.length_bytes (k := k) _) (List.finRange (c.count k))
      ((RegClass.members.dropWhile (· ≠ k)).tail.flatMap (classBytes regs)) i.1 (by simp)
    rw [List.getElem_finRange] at hpiece
    rw [hbytes, ← hfront, slice, ← List.drop_drop, List.drop_left]
    exact hpiece
  apply BitVec.eq_of_toNat_eq
  have hval : Reg.val (⟨k, i⟩ : Reg c) (copyRegs c regs.bytes) =
      BitVec.ofNat _ (ofLeBytes (slice regs.bytes (c.offsetof k + i * k.size) k.size)) := by
    simp [Reg.val, copyRegs]
  rw [hval, hslice, RegVal.ofLeBytes_bytes]
  simp

/-! ## What is packed, and what was meant

`values` is what was meant and `packedValues` what stands in the places where the client looks. -/

namespace InputWithValues

variable {c : RegConfig} {inp : InputWithValues c.arch}

/-- The input carries the register classes of the configuration. -/
structure Carries (c : RegConfig) (inp : InputWithValues c.arch) : Prop where
  fp_isSome : inp.fp.isSome = c.FLOATS
  vec_isSome : inp.vec.isSome = c.VECTOR

/-- The register values of an input, as `decode_regs` reports them. -/
def values (c : RegConfig) (inp : InputWithValues c.arch) : RegClass → List Nat
  | .gp => words inp.gp
  | .fp => words (inp.fp.getD [])
  | .vec => (inp.vec.getD []).map BitVec.toNat
  | k => List.replicate (c.count k) 0

/-- The register values that the packed bytes spell: where there is an `fcsr`, the first floating
point value stands in its place and the others move up, the zero meant for it last. -/
def packedValues (c : RegConfig) (inp : InputWithValues c.arch) : RegClass → List Nat
  | .fcsr => (values c inp .fp).take (c.count .fcsr)
  | .fp => (values c inp .fp).drop (c.count .fcsr) ++ values c inp .fcsr
  | k => values c inp k

theorem words_lt (l : List UInt64) : ∀ v ∈ words l, v < 256 ^ 8 := by
  intro v hv
  obtain ⟨x, _, rfl⟩ := List.mem_map.mp hv
  exact x.toNat_lt

theorem values_lt (c : RegConfig) (inp : InputWithValues c.arch) (k : RegClass) :
    ∀ v ∈ values c inp k, v < 256 ^ k.size := by
  intro v hv
  have hzero : ∀ n, v ∈ List.replicate n 0 → v < 256 ^ 8 := by
    intro n hn
    rw [List.eq_of_mem_replicate hn]
    decide
  cases k with
  | gp => exact words_lt _ v hv
  | fp => exact words_lt _ v hv
  | vec =>
      obtain ⟨x, _, rfl⟩ := List.mem_map.mp hv
      exact x.isLt
  | pstate => exact hzero _ hv
  | fcsr => exact hzero _ hv
  | fpsr => exact hzero _ hv

theorem packedValues_lt (c : RegConfig) (inp : InputWithValues c.arch) (k : RegClass) :
    ∀ v ∈ packedValues c inp k, v < 256 ^ k.size := by
  intro v hv
  have hfp := values_lt c inp .fp
  have hfcsr := values_lt c inp .fcsr
  cases k with
  | fcsr => exact hfp v (List.mem_of_mem_take hv)
  | fp =>
      rcases List.mem_append.mp hv with hmem | hmem
      · exact hfp v (List.mem_of_mem_drop hmem)
      · exact hfcsr v hmem
  | gp => exact values_lt c inp .gp v hv
  | vec => exact values_lt c inp .vec v hv
  | pstate => exact values_lt c inp .pstate v hv
  | fpsr => exact values_lt c inp .fpsr v hv

theorem Carries.length_values (h : Carries c inp) (k : RegClass) :
    (values c inp k).length = c.count k := by
  have hgp : c.arch.gp.length = c.count .gp := RegConfig.length_names c .gp
  cases k with
  | gp => simpa [values, words, inp.gp_length] using hgp
  | fp =>
      have hnames := RegConfig.length_names c .fp
      have hsome := h.fp_isSome
      simp only [values, words, List.length_map, ← hnames, RegConfig.names, ← hsome]
      cases hfp : inp.fp with
      | none => rfl
      | some l => exact inp.fp_length l hfp
  | vec =>
      have hnames := RegConfig.length_names c .vec
      have hsome := h.vec_isSome
      simp only [values, List.length_map, ← hnames, RegConfig.names, ← hsome]
      cases hvec : inp.vec with
      | none => rfl
      | some l => exact inp.vec_length l hvec
  | pstate => simp [values]
  | fcsr => simp [values]
  | fpsr => simp [values]

/-- There are at least as many floating point registers as `fcsr`s. -/
theorem count_fcsr_le (c : RegConfig) : c.count .fcsr ≤ c.count .fp := by
  rcases c with ⟨_ | _, _ | _, _ | _, h⟩ <;> revert h <;> decide

theorem Carries.length_packedValues (h : Carries c inp) (k : RegClass) :
    (packedValues c inp k).length = c.count k := by
  have hfp := h.length_values .fp
  have hfcsr := h.length_values .fcsr
  have hle := count_fcsr_le c
  cases k with
  | fcsr =>
      rw [packedValues, List.length_take, hfp]
      omega
  | fp =>
      rw [packedValues, List.length_append, List.length_drop, hfp, hfcsr]
      omega
  | gp => exact h.length_values .gp
  | vec => exact h.length_values .vec
  | pstate => exact h.length_values .pstate
  | fpsr => exact h.length_values .fpsr

/-- The bytes of the registers in a packed input. -/
def head (c : RegConfig) (inp : InputWithValues c.arch) : Bytes :=
  (Regs.ofLists c (packedValues c inp)).bytes

theorem head_eq (h : Carries c inp) :
    head c inp =
      RegClass.members.flatMap fun k => (packedValues c inp k).flatMap (leBytes k.size) :=
  Regs.bytes_ofLists h.length_packedValues (packedValues_lt c inp)

/-- Items of eight bytes that follow one another. -/
theorem packItems_words {n : Nat} {vals : List Nat} (hn : vals.length = n)
    (h : ∀ v ∈ vals, v < 256 ^ 8) (format : Format) {out : Bytes} (hout : 8 ∣ out.length)
    (args : List Arg) :
    packItems ((n, .Q) :: format) out (ints vals ++ args) =
      packItems format (out ++ vals.flatMap (leBytes 8)) args := by
  have hsmall : ∀ v ∈ vals, v < 256 ^ Code.Q.size := h
  exact packItems_aligned hn hsmall format hout args

theorem packItems_vec {n : Nat} {vec : List (BitVec 128)} (hn : vec.length * VEC_REG_SIZE = n)
    (format : Format) (out : Bytes) (args : List Arg) :
    packItems ((n, .B) :: format) out (ints ((vecBytes vec).map UInt8.toNat) ++ args) =
      packItems format (out ++ vecBytes vec) args := by
  have hlen : ((vecBytes vec).map UInt8.toNat).length = n := by
    rw [List.length_map, vecBytes, List.length_flatMap]
    simpa using hn
  have hlt : ∀ v ∈ (vecBytes vec).map UInt8.toNat, v < 256 := by
    intro v hv
    obtain ⟨b, _, rfl⟩ := List.mem_map.mp hv
    exact b.toNat_lt
  have hback : ((vecBytes vec).map UInt8.toNat).map UInt8.ofNat = vecBytes vec := by
    simp [List.map_map, Function.comp_def]
  rw [packItems_bytes hlen hlt, hback]

theorem dvd_words (vals : List Nat) : 8 ∣ (vals.flatMap (leBytes 8)).length := by
  rw [List.length_flatMap]
  simp

/-! ## Packing, one architecture at a time

The format string against the arguments. Without floats riscv64 passes a list where a number is
expected, which raises. -/

/-- A control register is written as zero. -/
theorem packItems_zero (format : Format) {out : Bytes} (hout : 8 ∣ out.length) (args : List Arg) :
    packItems ((1, .Q) :: format) out (ints [0] ++ args) =
      packItems format (out ++ [0].flatMap (leBytes 8)) args :=
  packItems_words (List.length_singleton (a := 0)) (by decide) format hout args

/-- Without floats the whole list is one argument, and `struct.pack` refuses. -/
theorem pack_riscv64_none (inp : InputWithValues .riscv64) (hfp : inp.fp = none) :
    inp.pack = none := by
  have hvec : inp.vec = none := by
    have h := inp.admitted
    rw [hfp] at h
    simpa [buildAdmits] using h
  cases hpack : inp.pack with
  | none => rfl
  | some bs =>
      simp only [pack, hfp, StructPack.pack, formatString, prepareFormatString, hvec] at hpack
      have hlen := length_of_packItems hpack
      simp [FullInput.getFormatString, FullInput.getPackArgs, ints, Arch.gp] at hlen
      omega

/-- With floats `fcsr` follows the floating point registers. -/
theorem pack_riscv64_some (inp : InputWithValues .riscv64) {fp : List UInt64}
    (hfp : inp.fp = some fp) :
    inp.pack = packItems inp.toFullInput.getFormatString
      ((words inp.gp).flatMap (leBytes 8) ++ (words fp).flatMap (leBytes 8) ++
        [0].flatMap (leBytes 8) ++ vecBytes (inp.vec.getD []))
      inp.toFullInput.getPackArgs := by
  have hgp : (words inp.gp).length = Arch.riscv64.gp.length := by simp [words, inp.gp_length]
  have hlen : (words fp).length = Arch.riscv64.fp.length := by simp [words, inp.fp_length fp hfp]
  -- the three lists of words, of which `fcsr` is a single zero, one after the other
  have hchain : ∀ format args,
      packItems
        ((Arch.riscv64.gp.length, .Q) :: (Arch.riscv64.fp.length, .Q) :: (1, .Q) :: format) []
        (ints (words inp.gp) ++ (ints (words fp) ++ (ints [0] ++ args))) =
      packItems format ((words inp.gp).flatMap (leBytes 8) ++ (words fp).flatMap (leBytes 8) ++
        [0].flatMap (leBytes 8)) args := by
    intro format args
    have h₁ := dvd_words (words inp.gp)
    have h₂ := Nat.dvd_add h₁ (dvd_words (words fp))
    rw [← List.length_append] at h₂
    rw [packItems_words hgp (words_lt _) _ (by simp), List.nil_append,
      packItems_words hlen (words_lt _) _ h₁, packItems_zero _ h₂]
  cases hvec : inp.vec with
  | none =>
      have hpack := hchain inp.toFullInput.getFormatString inp.toFullInput.getPackArgs
      simpa [pack, hfp, hvec, StructPack.pack, formatString, prepareFormatString,
        vecBytes] using hpack
  | some vec =>
      have hpack := hchain ((vec.length * VEC_REG_SIZE, .B) :: inp.toFullInput.getFormatString)
        (ints ((vecBytes vec).map UInt8.toNat) ++ inp.toFullInput.getPackArgs)
      rw [packItems_vec rfl] at hpack
      simpa [pack, hfp, hvec, StructPack.pack, formatString, prepareFormatString] using hpack

/-- On aarch64 the members follow the struct. -/
theorem pack_aarch64 (inp : InputWithValues .aarch64) :
    inp.pack = packItems inp.toFullInput.getFormatString
      ((words inp.gp).flatMap (leBytes 8) ++ [0].flatMap (leBytes 8) ++
        (if inp.fp.isSome || inp.vec.isSome then [0] else []).flatMap (leBytes 8) ++
        (words (inp.fp.getD [])).flatMap (leBytes 8) ++ vecBytes (inp.vec.getD []))
      inp.toFullInput.getPackArgs := by
  have hgp : (words inp.gp).length = Arch.aarch64.gp.length := by simp [words, inp.gp_length]
  have h₁ := dvd_words (words inp.gp)
  have h₂ := Nat.dvd_add h₁ (dvd_words [0])
  have h₃ := Nat.dvd_add h₂ (dvd_words [0])
  rw [← List.length_append] at h₂
  rw [← List.length_append, ← List.length_append] at h₃
  -- the general registers and the zero for `pstate` behind them
  have hgpZero : ∀ format args,
      packItems ((Arch.aarch64.gp.length, .Q) :: (1, .Q) :: format) []
        (ints (words inp.gp) ++ (ints [0] ++ args)) =
      packItems format ((words inp.gp).flatMap (leBytes 8) ++ [0].flatMap (leBytes 8)) args := by
    intro format args
    rw [packItems_words hgp (words_lt _) _ (by simp), List.nil_append,
      packItems_zero _ h₁]
  have hboth := inp.admitted
  -- a build has floats or vectors or none, and the status register with either of them
  cases hfp : inp.fp with
  | none =>
      cases hvec : inp.vec with
      | none =>
          have hpack := hgpZero inp.toFullInput.getFormatString inp.toFullInput.getPackArgs
          simpa [pack, hfp, hvec, StructPack.pack, formatString, prepareFormatString, vecBytes,
            words] using hpack
      | some vec =>
          have hpack := hgpZero
            ((1, .Q) :: (vec.length * VEC_REG_SIZE, .B) :: inp.toFullInput.getFormatString)
            (ints [0] ++ (ints ((vecBytes vec).map UInt8.toNat) ++ inp.toFullInput.getPackArgs))
          rw [packItems_zero _ h₂, packItems_vec rfl] at hpack
          simpa [pack, hfp, hvec, StructPack.pack, formatString, prepareFormatString,
            words] using hpack
  | some fp =>
      have hvec : inp.vec = none := by
        rw [hfp] at hboth
        simpa [buildAdmits] using hboth
      have hlen : (words fp).length = Arch.aarch64.fp.length := by
        simp [words, inp.fp_length fp hfp]
      have hpack := hgpZero
        ((1, .Q) :: (Arch.aarch64.fp.length, .Q) :: inp.toFullInput.getFormatString)
        (ints [0] ++ (ints (words fp) ++ inp.toFullInput.getPackArgs))
      rw [packItems_zero _ h₂, packItems_words hlen (words_lt _) _ h₃] at hpack
      simpa [pack, hfp, hvec, StructPack.pack, formatString, prepareFormatString,
        vecBytes] using hpack

/-- Packing succeeds unless general registers stand alone on riscv64; the bytes are those of
`packedValues`. -/
theorem pack_eq_some (h : Carries c inp) (bs : Bytes) :
    inp.pack = some bs ↔
      ((c.arch = .aarch64 ∨ c.FLOATS = true) ∧ inp.seqLen ≤ 255) ∧
      bs = inputBytes (head c inp) inp.seqLen inp.fullSeq inp.getInstrSeq := by
  have hfp := h.fp_isSome
  have hvec := h.vec_isSome
  have hhead := head_eq h
  have hra : (Arch.riscv64 == Arch.aarch64) = false := rfl
  have har : (Arch.aarch64 == Arch.riscv64) = false := rfl
  -- the order of the server against that of the struct, for each architecture
  rcases c with ⟨arch, floats, vector, hadmit⟩
  cases arch with
  | riscv64 =>
      cases hsome : inp.fp with
      | none =>
          rw [hsome] at hfp
          have hfloats : floats = false := hfp.symm
          subst hfloats
          rw [pack_riscv64_none inp hsome]
          simp
      | some fp =>
          rw [hsome] at hfp
          have hfloats : floats = true := hfp.symm
          subst hfloats
          have hbytes : head ⟨.riscv64, true, vector, hadmit⟩ inp =
              (words inp.gp).flatMap (leBytes 8) ++ (words fp).flatMap (leBytes 8) ++
                [0].flatMap (leBytes 8) ++ vecBytes (inp.vec.getD []) := by
            rw [hhead, ← List.take_append_drop 1 (words fp)]
            simp [RegClass.members, packedValues, values, RegConfig.count, hsome, RegClass.size,
              vecBytes, List.flatMap_map, hra]
          rw [pack_riscv64_some inp hsome, hbytes, packItems_fullInput]
          simp
  | aarch64 =>
      have hbytes : head ⟨.aarch64, floats, vector, hadmit⟩ inp =
          (words inp.gp).flatMap (leBytes 8) ++ [0].flatMap (leBytes 8) ++
            (if inp.fp.isSome || inp.vec.isSome then [0] else []).flatMap (leBytes 8) ++
            (words (inp.fp.getD [])).flatMap (leBytes 8) ++ vecBytes (inp.vec.getD []) := by
        rw [hhead, hfp, hvec]
        cases floats <;> cases vector <;>
          simp [RegClass.members, packedValues, values, RegConfig.count, RegClass.size, vecBytes,
            List.flatMap_map, har]
      rw [pack_aarch64 inp, hbytes, packItems_fullInput]
      simp

/-! ## Running what was meant

The two differ by where `fcsr` stands. They agree when all of these registers are zero, or when
there are none. -/

/-- What `decode_regs` zeroes at the end. -/
def zeroed (c : RegConfig) : List (String × Nat) :=
  match c.arch with
  | .riscv64 => [("fcsr", 0)]
  | .aarch64 => ("pstate", 0) :: if c.FLOATS || c.VECTOR then [("fpsr", 0)] else []

theorem zeroed_spec (c : RegConfig) :
    (zeroed c).map Prod.fst ⊆ controlNames c.arch ∧ ((zeroed c).map Prod.fst).Nodup ∧
      (∀ p ∈ zeroed c, p.2 = 0) ∧
      c.names .pstate ++ c.names .fcsr ++ c.names .fpsr ⊆ (zeroed c).map Prod.fst := by
  rcases c with ⟨_ | _, _ | _, _ | _, h⟩ <;> revert h <;> decide

theorem setAll_eq (values : List Nat) (names : List String) (regs : Dict String Nat) :
    setAll values names regs = (names.zip values).foldl (fun d p => d.set p.1 p.2) regs := by
  rw [setAll, ← List.zip_swap, List.foldl_map]
  rfl

theorem decodeRegs_eq (h : Carries c inp) :
    inp.decodeRegs = (assignments c (values c inp) (zeroed c)).foldl (fun d p => d.set p.1 p.2)
      Dict.empty := by
  have hfpSome := h.fp_isSome
  have hvecSome := h.vec_isSome
  -- the registers of a class that the build has are set in the order of their names
  have hfp : ∀ regs : Dict String Nat, (match inp.fp with
      | some fp => setAll (words fp) c.arch.fp regs
      | none => regs) =
      ((c.names .fp).zip (values c inp .fp)).foldl (fun d p => d.set p.1 p.2) regs := by
    intro regs
    simp only [RegConfig.names, values, ← hfpSome]
    cases inp.fp with
    | none => rfl
    | some fp => exact setAll_eq _ _ _
  have hvec : ∀ regs : Dict String Nat, (match inp.vec with
      | some vec => setAll (vec.map BitVec.toNat) pyVec regs
      | none => regs) =
      ((c.names .vec).zip (values c inp .vec)).foldl (fun d p => d.set p.1 p.2) regs := by
    intro regs
    simp only [RegConfig.names, values, ← hvecSome]
    cases inp.vec with
    | none => rfl
    | some vec => exact setAll_eq _ _ _
  have hgp : setAll (words inp.gp) c.arch.gp Dict.empty =
      ((c.names .gp).zip (values c inp .gp)).foldl (fun d p => d.set p.1 p.2) Dict.empty :=
    setAll_eq _ _ _
  simp only [decodeRegs, hfp, hvec, hgp, assignments, List.foldl_append, zeroed]
  rcases c with ⟨arch, floats, vector, hadmit⟩
  cases arch with
  | riscv64 => rfl
  | aarch64 =>
      dsimp only at hfpSome hvecSome ⊢
      rw [hfpSome, hvecSome]
      cases floats <;> cases vector <;> rfl

theorem get?_decodeRegs (h : Carries c inp) (r : Reg c) :
    inp.decodeRegs.get? r.name = some ((values c inp r.1).getD r.2 0) := by
  obtain ⟨hextras, hnodup, hzero, hcovers⟩ := zeroed_spec c
  have hcontrol : ∀ k, k ∈ [RegClass.pstate, .fcsr, .fpsr] → ∀ v ∈ values c inp k, v = 0 := by
    intro k hk v hv
    simp only [List.mem_cons, List.not_mem_nil, or_false] at hk
    rcases hk with rfl | rfl | rfl <;> exact List.eq_of_mem_replicate hv
  rw [decodeRegs_eq h]
  exact get?_assignments h.length_values hcontrol hextras hnodup hzero hcovers r

/-- A list that is itself again when its head moves to the end holds one value only. -/
theorem eq_of_rotate {a : Nat} {l : List Nat} (h : l ++ [a] = a :: l) : ∀ v ∈ l, v = a := by
  induction l with
  | nil => simp
  | cons x l ih =>
      rw [List.cons_append, List.cons.injEq] at h
      obtain ⟨rfl, hl⟩ := h
      rw [List.forall_mem_cons]
      exact ⟨rfl, ih hl⟩

/-- The bytes spell what was meant when there is no `fcsr`, or nothing but zeros behind it. -/
theorem packedValues_eq_iff (h : Carries c inp) :
    (∀ k, packedValues c inp k = values c inp k) ↔
      c.count .fcsr = 0 ∨ ∀ v ∈ values c inp .fp, v = 0 := by
  have hlen := h.length_values .fp
  have hle := count_fcsr_le c
  constructor
  · intro heq
    by_cases hnone : c.count .fcsr = 0
    · exact Or.inl hnone
    · right
      -- with floats on riscv64 there is the one `fcsr`
      have hone : c.count .fcsr = 1 := by
        have hbound : c.count .fcsr ≤ 1 := by
          simp only [RegConfig.count]
          exact Bool.toNat_le _
        omega
      have hfcsr := heq .fcsr
      have hfp := heq .fp
      simp only [packedValues, hone] at hfcsr hfp
      have hzero : values c inp .fcsr = [0] := by simp [values, hone]
      rw [hzero] at hfcsr hfp
      cases hl : values c inp .fp with
      | nil => simp
      | cons x rest =>
          rw [hl] at hfcsr hfp
          have hx : x = 0 := by simpa using hfcsr
          subst hx
          rw [List.forall_mem_cons]
          -- the registers are those of one place further on, and the first is zero: so are all
          exact ⟨rfl, eq_of_rotate (by simpa using hfp)⟩
  · rintro (hnone | hzero) k
    · cases k <;> simp [packedValues, values, hnone]
    · have hrep : values c inp .fp = List.replicate (c.count .fp) 0 :=
        List.eq_replicate_iff.mpr ⟨hlen, hzero⟩
      have hfcsr : values c inp .fcsr = List.replicate (c.count .fcsr) 0 := rfl
      cases k with
      | fcsr =>
          rw [packedValues, hrep, hfcsr, List.take_replicate, Nat.min_eq_left hle]
      | fp =>
          rw [packedValues, hrep, hfcsr, List.drop_replicate, ← List.replicate_add,
            Nat.sub_add_cancel hle]
      | gp => rfl
      | vec => rfl
      | pstate => rfl
      | fpsr => rfl

/-- The client runs the input as the server means it. -/
structure Recovers (c : RegConfig) (inp : InputWithValues c.arch) (e : Exec c) : Prop where
  seqLen : e.seqLen = inp.seqLen
  fullSeq : e.fullSeq = inp.fullSeq
  instrSeq : e.instrSeq = inp.getInstrSeq
  regs : ∀ r : Reg c, inp.decodeRegs.get? r.name = some (r.val e.regs).toNat

/-- What the client makes of a packed input. -/
def packedExec (c : RegConfig) (inp : InputWithValues c.arch) : Exec c :=
  ⟨inp.seqLen, inp.fullSeq, inp.getInstrSeq, Regs.ofLists c (packedValues c inp)⟩

theorem recovers_packedExec_iff (h : Carries c inp) :
    Recovers c inp (packedExec c inp) ↔ ∀ k, packedValues c inp k = values c inp k := by
  have hval : ∀ r : Reg c, (r.val (Regs.ofLists c (packedValues c inp))).toNat =
      (packedValues c inp r.1).getD r.2 0 :=
    fun r => Regs.toNat_val_ofLists _ r (packedValues_lt c inp r.1)
  constructor
  · intro hrec k
    apply List.ext_getElem
    · rw [h.length_packedValues, h.length_values]
    · intro i h₁ h₂
      have hi : i < c.count k := by rw [← h.length_values k]; exact h₂
      have hr := hrec.regs ⟨k, ⟨i, hi⟩⟩
      rw [get?_decodeRegs h, packedExec, hval] at hr
      have hget := Option.some.inj hr
      simp only [List.getD_eq_getElem?_getD, List.getElem?_eq_getElem h₁,
        List.getElem?_eq_getElem h₂, Option.getD_some] at hget
      exact hget.symm
  · intro heq
    refine ⟨rfl, rfl, rfl, fun r => ?_⟩
    rw [get?_decodeRegs h, packedExec, hval, heq]

/-- Packing succeeds, and the client runs every input, in order, as the server means it. -/
def RunsAsDecoded (c : RegConfig) (inputs : List (InputWithValues c.arch)) : Prop :=
  ∃ buf execs, packInputs pack inputs = some buf ∧
    walkFullRegs c buf inputs.length = some (execs, buf.length) ∧
    List.Forall₂ (Recovers c) inputs execs

/-- The walk over the packed inputs. -/
theorem walkFullRegs_packed (inputs : List (InputWithValues c.arch))
    (hlen : ∀ inp ∈ inputs, inp.seqLen ≤ 255) :
    walkFullRegs c (inputs.flatMap fun inp =>
        inputBytes (head c inp) inp.seqLen inp.fullSeq inp.getInstrSeq) inputs.length =
      some (inputs.map (packedExec c), (inputs.flatMap fun inp =>
        inputBytes (head c inp) inp.seqLen inp.fullSeq inp.getInstrSeq).length) :=
  walkInputs_flatMap (head c) (packedExec c) inputs (fun inp _ => Regs.length_bytes _)
    (fun inp _ => by rw [head, copyRegs_bytes, packedExec])
    (fun inp hinp => ⟨(inp.length_getInstrSeq).symm, hlen inp hinp, inp.getInstrSeq_lt⟩) []

/-- A batch runs as decoded when each of its inputs packs and spells what was meant. -/
theorem runsAsDecoded_iff_recovers (inputs : List (InputWithValues c.arch))
    (hcarries : ∀ inp ∈ inputs, Carries c inp) :
    RunsAsDecoded c inputs ↔ ∀ inp ∈ inputs,
      ((c.arch = .aarch64 ∨ c.FLOATS = true) ∧ inp.seqLen ≤ 255) ∧
        Recovers c inp (packedExec c inp) := by
  have hpack := packInputs_eq_some inputs fun inp hinp => pack_eq_some (hcarries inp hinp)
  constructor
  · rintro ⟨buf, execs, hbuf, hwalk, hall⟩ inp hinp
    obtain ⟨hP, rfl⟩ := (hpack buf).mp hbuf
    rw [walkFullRegs_packed inputs fun x hx => (hP x hx).2] at hwalk
    obtain rfl := (Prod.mk.inj (Option.some.inj hwalk)).1
    rw [List.forall₂_map_right_iff, List.forall₂_same] at hall
    exact ⟨hP inp hinp, hall inp hinp⟩
  · intro hgood
    refine ⟨_, inputs.map (packedExec c), (hpack _).mpr ⟨fun inp hinp => (hgood inp hinp).1, rfl⟩,
      walkFullRegs_packed inputs fun inp hinp => (hgood inp hinp).1.2, ?_⟩
    rw [List.forall₂_map_right_iff, List.forall₂_same]
    exact fun inp hinp => (hgood inp hinp).2

/-- The inputs run as decoded on aarch64; on riscv64 exactly when floats are on and every floating
point value is zero. The length of a sequence has to fit its byte. -/
theorem runsAsDecoded_iff (c : RegConfig) (inputs : List (InputWithValues c.arch))
    (hcarries : ∀ inp ∈ inputs, Carries c inp) :
    RunsAsDecoded c inputs ↔ ∀ inp ∈ inputs, inp.seqLen ≤ 255 ∧
      (c.arch = .aarch64 ∨ c.FLOATS = true ∧ ∀ l, inp.fp = some l → ∀ v ∈ l, v = 0) := by
  have hcount : c.count .fcsr = 0 ↔ c.arch = .aarch64 ∨ c.FLOATS = false := by
    rcases c with ⟨_ | _, _ | _, _ | _, h⟩ <;> simp [RegConfig.count]
  have hfpZero : ∀ inp : InputWithValues c.arch, (∀ v ∈ values c inp .fp, v = 0) ↔
      ∀ l, inp.fp = some l → ∀ v ∈ l, v = 0 := by
    intro inp
    simp only [values, words]
    cases inp.fp with
    | none => simp
    | some l => simp [← UInt64.toNat_inj]
  rw [runsAsDecoded_iff_recovers inputs hcarries]
  -- input by input: it packs, and its floating point values are where the struct has them
  refine forall₂_congr fun inp hinp => ?_
  rw [recovers_packedExec_iff (hcarries inp hinp), packedValues_eq_iff (hcarries inp hinp), hcount,
    hfpZero inp]
  by_cases hfloats : c.FLOATS = true
  · simp only [hfloats]
    tauto
  · simp only [hfloats]
    tauto

/-- A riscv64 input whose `ft0` is 7 and every other register zero. -/
def ft0Input : InputWithValues .riscv64 where
  instrSeq := [0x13]
  seqLen := 1
  fullSeq := false
  seqLen_le := by decide
  gp := List.replicate 31 0
  fp := some (7 :: List.replicate 31 0)
  vec := none
  gp_length := by simp [Arch.gp]
  fp_length := by rintro l ⟨⟩; decide
  vec_length := by simp
  admitted := rfl

/-- A riscv64 input without floats. -/
def gpInput : InputWithValues .riscv64 :=
  { ft0Input with fp := none, fp_length := by simp, admitted := rfl }

/-- An aarch64 input in which every general and vector register has its own value. -/
def aarch64Input : InputWithValues .aarch64 where
  instrSeq := [0xd503201f, 0xd503201f]
  seqLen := 2
  fullSeq := true
  seqLen_le := by decide
  gp := (List.range 32).map UInt64.ofNat
  fp := none
  vec := some ((List.range 32).map (BitVec.ofNat 128))
  gp_length := by decide
  fp_length := by simp
  vec_length := by rintro l ⟨⟩; decide
  admitted := rfl

theorem runsAsDecoded_iff_aarch64 :
    RunsAsDecoded ⟨.aarch64, false, true, rfl⟩ [aarch64Input, aarch64Input] ↔
      ∀ inp ∈ [aarch64Input, aarch64Input], inp.seqLen ≤ 255 ∧
        (Arch.aarch64 = .aarch64 ∨ false = true ∧ ∀ l, inp.fp = some l → ∀ v ∈ l, v = 0) :=
  runsAsDecoded_iff ⟨.aarch64, false, true, rfl⟩ [aarch64Input, aarch64Input]
    (by
      intro inp hinp
      simp only [List.mem_cons, List.not_mem_nil, or_false, or_self] at hinp
      obtain rfl := hinp
      exact ⟨rfl, rfl⟩)

def fcsrRiscv64 : Reg ⟨.riscv64, true, false, rfl⟩ := ⟨.fcsr, ⟨0, by decide⟩⟩

/-- With floats the client takes the 7 for `fcsr`; without floats nothing can be packed. -/
theorem riscv64_not_runsAsDecoded :
    ¬ RunsAsDecoded ⟨.riscv64, true, false, rfl⟩ [ft0Input] ∧
    ft0Input.decodeRegs.get? "fcsr" = some 0 ∧
    (Reg.val fcsrRiscv64 (packedExec ⟨.riscv64, true, false, rfl⟩ ft0Input).regs).toNat = 7 ∧
    ¬ RunsAsDecoded ⟨.riscv64, false, false, rfl⟩ [gpInput] ∧
    gpInput.pack = none := by
  have hfcsr : ft0Input.decodeRegs.get? "fcsr" = some 0 := by decide +kernel
  have hclient :
      (Reg.val fcsrRiscv64 (packedExec ⟨.riscv64, true, false, rfl⟩ ft0Input).regs).toNat = 7 := by
    decide +kernel
  have hnone : gpInput.pack = none := pack_riscv64_none gpInput rfl
  refine ⟨?_, hfcsr, hclient, ?_, hnone⟩
  · intro h
    have hgood := (runsAsDecoded_iff_recovers (c := ⟨.riscv64, true, false, rfl⟩) [ft0Input]
      (by
        intro inp hinp
        obtain rfl := List.mem_singleton.mp hinp
        exact ⟨rfl, rfl⟩)).mp h ft0Input List.mem_cons_self
    have hname : Reg.name fcsrRiscv64 = "fcsr" := by decide +kernel
    -- the server writes 0 for `fcsr`, and the client finds `ft0` there
    have hr := hgood.2.regs fcsrRiscv64
    rw [hname, hfcsr, hclient] at hr
    cases hr
  · rintro ⟨buf, execs, hbuf, -, -⟩
    simp [packInputs, hnone] at hbuf

end InputWithValues

end RISCover
