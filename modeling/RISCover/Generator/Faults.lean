import RISCover.Generator.Draws

/-!
# What stops the draws

No draw divides by zero or leaves a table. The range of the first draw for an instruction is empty
if there are no instructions; on aarch64 a register whose field has an odd width fails an assertion.
-/

open Runs

namespace RISCover

variable {α : Type} {E : Fault → Prop} {Q : α → Prop}

/-! ## The operations of C

`Gives` says of a draw that it returns a value with a property from every state, or that every fault
is of one kind. The rules follow the operations. -/

theorem gives_rngNext : Gives E (fun _ => True) rngNext := fun _ => trivial

theorem gives_rngNext_map {f : UInt64 → α} (h : ∀ x, Q (f x)) : Gives E Q (f <$> rngNext) :=
  gives_rngNext.map fun x _ => h x

theorem gives_cMod {x y : UInt64} (hy : y ≠ 0) : Gives E (fun _ => True) (cMod x y) := by
  rw [cMod, if_neg hy]
  exact gives_pure trivial

theorem gives_rngRandint {a b : Int64} (hle : a ≤ b) (hne : (b - a + 1).toUInt64 ≠ 0) :
    Gives E (fun _ => True) (rngRandint a b) := by
  rw [rngRandint_eq hle hne]
  exact gives_rngNext_map fun _ => trivial

theorem gives_element {table : List α} {i : Nat} (h : i < table.length) :
    Gives E (fun x => x ∈ table) (element table i) := by
  rw [element_eq h]
  exact gives_pure (List.getElem_mem h)

theorem gives_drawEach {m : Draw α} (h : Gives E Q m) (n : Nat) :
    Gives E (fun xs => ∀ x ∈ xs.toList, Q x) (drawEach m n) := by
  induction n with
  | zero => exact gives_pure (by simp)
  | succ n ih =>
      refine ih.bind fun xs hxs => h.bind fun x hx => gives_pure ?_
      intro y hy
      rw [Vector.toList_push, List.mem_append, List.mem_singleton] at hy
      rcases hy with hy | rfl
      · exact hxs y hy
      · exact hx

theorem gives_drawIf {m : Draw α} {defined : Bool} {kept : α} (h : Gives E (fun _ => True) m) :
    Gives E (fun _ => True) (drawIf defined m kept) := by
  cases defined with
  | true => exact h
  | false => exact gives_pure trivial

/-! ## Registers

An index from zero to the length of a table is that of a value, or asks for a random one. -/

theorem gives_valOrRand {table : List UInt64} (hlen : table.length ≤ 256) :
    Gives E (fun _ => True) (valOrRand table) := by
  have hn : (UInt64.ofNat (table.length + 1)).toNat = table.length + 1 := by
    simp
    omega
  have hne : UInt64.ofNat (table.length + 1) ≠ 0 := by
    intro hzero
    rw [hzero] at hn
    simp at hn
  rw [valOrRand]
  refine gives_rngNext.bind fun x _ => ?_
  rw [cMod, if_neg hne, pure_bind]
  refine gives_ite (fun _ => gives_rngNext) fun hi => ?_
  -- the index that is not the last one is one of the table
  have hlt : (x % UInt64.ofNat (table.length + 1)).toNat < table.length := by
    have hmod : (x % UInt64.ofNat (table.length + 1)).toNat = x.toNat % (table.length + 1) := by
      rw [UInt64.toNat_mod, hn]
    have hle : x.toNat % (table.length + 1) < table.length + 1 := Nat.mod_lt _ (Nat.succ_pos _)
    have hother : (x % UInt64.ofNat (table.length + 1)).toNat ≠ table.length := by
      intro heq
      have hword := congrArg UInt64.ofNat heq
      rw [UInt64.ofNat_toNat] at hword
      exact hi hword
    omega
  exact (gives_element hlt).mono (fun _ h => h) fun _ _ => trivial

theorem gives_anyVal (map : FuzzingValueMap) : Gives E (fun _ => True) map.anyVal := by
  rw [FuzzingValueMap.anyVal]
  refine gives_rngNext.bind fun x _ => (gives_cMod (by decide)).bind fun r _ => ?_
  exact gives_ite (fun _ => gives_valOrRand map.fp_le) fun _ => gives_valOrRand map.gp_le

theorem gives_vecVal (map : FuzzingValueMap) : Gives E (fun _ => True) map.vecVal := by
  rw [FuzzingValueMap.vecVal]
  refine (gives_anyVal map).bind fun low _ => ?_
  exact (gives_drawEach (gives_valOrRand map.gp_le) _).bind fun rest _ => gives_pure trivial

theorem gives_wordReg (k : RegClass) {m : Draw UInt64} (h : Gives E (fun _ => True) m) :
    Gives E (fun _ => True) (wordReg k m) := by
  rw [wordReg]
  exact h.bind fun w _ => gives_pure trivial

theorem gives_drawRegs (c : RegConfig) (map : FuzzingValueMap) :
    Gives E (fun _ => True) (drawRegs c map) := by
  have hgp := gives_wordReg .gp (gives_valOrRand (E := E) map.gp_le)
  have hfp := gives_wordReg .fp (gives_valOrRand (E := E) map.fp_le)
  rw [drawRegs]
  refine (gives_drawEach hgp _).bind fun gp _ => ?_
  refine (gives_drawIf ((gives_drawEach hfp _).mono (fun _ h => h) fun _ _ => trivial)).bind
    fun fp _ => ?_
  refine (gives_drawIf ((gives_drawEach (gives_vecVal map) _).mono (fun _ h => h)
    fun _ _ => trivial)).bind fun vec _ => ?_
  exact gives_pure trivial

/-! ## Instructions

For any template the only fault is the assertion on the width of a register field. -/

theorem shiftOne_ne_zero (bits : Nat) : (shiftOne bits).toUInt64 ≠ 0 := by
  intro hzero
  have hnat := congrArg UInt64.toNat hzero
  have hlt : bits % 2 ^ 32 % 32 < 32 := Nat.mod_lt _ (by decide)
  have hpow : 2 ^ (bits % 2 ^ 32 % 32) < 2 ^ 32 := Nat.pow_lt_pow_right (by decide) hlt
  simp only [shiftOne, UInt32.toNat_toUInt64, UInt32.toNat_shiftLeft, UInt32.toNat_ofNat',
    UInt32.toNat_one, UInt64.toNat_zero, Nat.one_shiftLeft, Nat.mod_eq_of_lt hpow] at hnat
  exact (Nat.two_pow_pos _).ne' hnat

theorem gives_randomBits (bits : Nat) : Gives E (fun _ => True) (randomBits bits) := by
  rw [randomBits]
  refine gives_rngNext.bind fun x _ => ?_
  exact (gives_cMod (shiftOne_ne_zero bits)).bind fun r _ => gives_pure trivial

theorem gives_smallOrAny {a b : Int64} (hle : a ≤ b) (hne : (b - a + 1).toUInt64 ≠ 0) :
    Gives E (fun _ => True) (do
      if (← rngRandint 1 10) ≤ 9 then pure (← rngRandint a b).toUInt64.toUInt32
      else pure (← rngNext).toUInt32) := by
  refine (gives_rngRandint (by decide) (by decide)).bind fun r _ =>
    gives_ite (fun _ => ?_) fun _ => ?_
  · exact (gives_rngRandint hle hne).bind fun v _ => gives_pure trivial
  · exact gives_rngNext.bind fun x _ => gives_pure trivial

theorem gives_randomUnsignedImmediate (bits : Nat) :
    Gives E (fun _ => True) (randomUnsignedImmediate bits) := by
  rw [randomUnsignedImmediate]
  refine gives_rngNext.bind fun x _ => (gives_cMod (by decide)).bind fun kind _ => ?_
  split
  · exact gives_pure trivial
  · exact gives_pure trivial
  · exact gives_smallOrAny (by decide) (by decide)
  · exact gives_pure trivial

theorem gives_randomSignedImmediate (bits : Nat) :
    Gives E (fun _ => True) (randomSignedImmediate bits) := by
  rw [randomSignedImmediate]
  refine gives_rngNext.bind fun x _ => (gives_cMod (by decide)).bind fun kind _ => ?_
  split
  · exact gives_pure trivial
  · exact gives_pure trivial
  · exact gives_pure trivial
  · exact gives_pure trivial
  · exact gives_smallOrAny (by decide) (by decide)
  · exact gives_pure trivial

/-- Without registers nothing is asserted. -/
theorem gives_chosen {arch : Arch} {f : InstrField}
    (h : ¬(arch = .aarch64 ∧ f.isRegister = true)) (numRegs : UInt32) :
    Gives E (fun _ => True) (chosen arch numRegs f) := by
  cases arch with
  | riscv64 => exact gives_randomBits f.bits
  | aarch64 =>
      have hname : ¬f.isRegister = true := fun hf => h ⟨rfl, hf⟩
      simp only [chosen, if_neg hname]
      refine gives_ite (fun _ => gives_randomUnsignedImmediate _) fun _ => ?_
      exact gives_ite (fun _ => gives_randomSignedImmediate _) fun _ => gives_randomBits _

/-- Every register that is drawn has from three to five bits. -/
def InstrField.AssertsWidth (arch : Arch) (f : InstrField) : Prop :=
  arch = .aarch64 → f.isRegister = true → f.invertedMask ≠ 0 → 3 ≤ f.bits ∧ f.bits ≤ 5

theorem gives_drawChoice {arch : Arch} {f : InstrField} (hmask : f.invertedMask ≠ 0)
    (hE : ¬f.AssertsWidth arch → E .assertion) :
    Gives E (fun choice => arch = .riscv64 → ∃ v, choice = .value v) (drawChoice arch f) := by
  rw [drawChoice]
  refine gives_ite (fun hreg => ?_) fun hreg => ?_
  · obtain ⟨rfl, hregister⟩ := hreg
    by_cases hbits : 3 ≤ f.bits ∧ f.bits ≤ 5
    · simp only [hbits, not_true_eq_false, if_false, and_self]
      exact gives_rngNext.bind fun x _ => gives_rngNext.bind fun y _ =>
        gives_pure fun harch => absurd harch (by decide)
    · simp only [hbits, not_false_eq_true, if_true]
      exact gives_throw (hE fun h => hbits (h rfl hregister hmask))
  · exact (gives_chosen hreg 0).map fun v _ _ => ⟨v, rfl⟩

/-- Draws for fields of a template, in their order. -/
structure DrawnFrom (arch : Arch) (fs : List InstrField) (ds : List FieldDraw) : Prop where
  sublist : (ds.map FieldDraw.field).Sublist fs
  value : arch = .riscv64 → ∀ d ∈ ds, ∃ v, d.choice = .value v

theorem gives_drawFields {arch : Arch} (fs : List InstrField)
    (hE : (∃ f ∈ fs, ¬f.AssertsWidth arch) → E .assertion) :
    Gives E (DrawnFrom arch fs) (drawFields arch fs) := by
  induction fs with
  | nil => exact gives_pure ⟨List.Sublist.refl _, nofun⟩
  | cons f fs ih =>
      have hrest := ih fun ⟨g, hg, hasserts⟩ => hE ⟨g, List.mem_cons_of_mem f hg, hasserts⟩
      rw [drawFields]
      refine gives_ite (fun _ => ?_) fun hmask => ?_
      · exact hrest.mono (fun _ h => h) fun ds hds => ⟨hds.sublist.cons f, hds.value⟩
      · have hchoice := gives_drawChoice hmask fun h => hE ⟨f, List.mem_cons_self, h⟩
        refine hchoice.bind fun choice hchoice => hrest.bind fun ds hds => gives_pure ⟨?_, ?_⟩
        · exact hds.sublist.cons_cons f
        · intro harch
          exact List.forall_mem_cons.mpr ⟨hchoice harch, hds.value harch⟩

/-- Draws for an instruction of the table. -/
structure InstrDraw.From (arch : Arch) (table : InstructionTable) (d : InstrDraw) : Prop where
  mem : d.templ ∈ table.instructions
  fields : DrawnFrom arch d.templ.fields d.fields

theorem gives_drawInstr {arch : Arch} {table : InstructionTable} (hne : table.instructions ≠ [])
    (hE : (∃ templ ∈ table.instructions, ∃ f ∈ templ.fields, ¬f.AssertsWidth arch) →
      E .assertion) :
    Gives E (InstrDraw.From arch table) (drawInstr arch table) := by
  have hpos : 0 < table.instructions.length := List.length_pos_iff.mpr hne
  rw [drawInstr, rngRandint_index hpos table.length_lt]
  refine (gives_rngNext_map (Q := fun idx => idx.toNatClampNeg < table.instructions.length)
    fun x => ?_).bind fun idx hidx => ?_
  · rw [toNatClampNeg_mod hpos table.length_lt]
    exact Nat.mod_lt _ hpos
  · refine (gives_element hidx).bind fun templ htempl => ?_
    exact (gives_drawFields templ.fields fun h => hE ⟨templ, htempl, h⟩).bind fun ds hds =>
      gives_pure ⟨htempl, hds⟩

/-- Nothing can be drawn from an empty table. -/
theorem gives_drawInstr_empty {arch : Arch} {table : InstructionTable}
    (hempty : table.instructions = []) :
    Gives (· = .emptyRange) (fun _ => False) (drawInstr arch table) := by
  have hrange : Gives (· = .emptyRange) (fun _ => False) (rngRandint 0 (Int64.ofNat 0 - 1)) :=
    gives_throw rfl
  rw [drawInstr, hempty, List.length_nil]
  exact hrange.bind fun _ h => h.elim

/-! ## Inputs

The instructions are all that can stop the generation of an input, and only when there are any to be
drawn. -/

theorem gives_drawSeed (b : GeneratorBuild) {seqLen : Nat}
    (hne : seqLen = 0 ∨ b.table.instructions ≠ [])
    (hE : (∃ templ ∈ b.table.instructions, ∃ f ∈ templ.fields,
      ¬f.AssertsWidth b.config.arch) → E .assertion) :
    Gives E (fun d => ∀ i ∈ d.instrs, i.From b.config.arch b.table) (b.drawSeed seqLen) := by
  rw [GeneratorBuild.drawSeed]
  refine (gives_drawRegs b.config b.map).bind fun regs _ => ?_
  rcases hne with rfl | hne
  · exact gives_pure (by simp)
  · exact (gives_drawEach (gives_drawInstr hne hE) seqLen).bind fun instrs hinstrs =>
      gives_pure hinstrs

theorem gives_drawSeed_empty (b : GeneratorBuild) {seqLen : Nat} (hlen : seqLen ≠ 0)
    (hempty : b.table.instructions = []) :
    Gives (· = .emptyRange) (fun _ => False) (b.drawSeed seqLen) := by
  obtain ⟨n, rfl⟩ := Nat.exists_eq_succ_of_ne_zero hlen
  have hinstr : Gives _ _ (drawInstr b.config.arch b.table) := gives_drawInstr_empty hempty
  have hprefix := gives_drawEach hinstr n
  rw [GeneratorBuild.drawSeed]
  refine (gives_drawRegs b.config b.map).bind fun regs _ => ?_
  rw [drawEach, bind_assoc]
  refine hprefix.bind fun xs _ => ?_
  rw [bind_assoc]
  exact hinstr.bind fun _ h => h.elim

end RISCover
