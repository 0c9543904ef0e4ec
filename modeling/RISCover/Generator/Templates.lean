import Mathlib.Data.List.Pairwise
import RISCover.Collection.Index
import RISCover.Generator.Seeded

/-!
# What is drawn for a template

The header with the templates is written from an instruction collection, so the mask and the value
of a template are what `gen_combined_mask` makes of its fields. Whatever is drawn for the fields,
the word keeps the static bits of the template: a field is put under its `inverted_mask`, which lies
beside every static bit.
-/

open Words Runs

namespace RISCover

/-! ## Templates

A field that is drawn for has a zero in the place of every static bit. -/

/-- What `gen_combined_mask` reads of a field. -/
def InstrField.static (f : InstrField) : StaticField := ⟨f.rangeLow, f.mask.toNat, f.value.toNat⟩

/-- The bits of the word that the field leaves open. -/
def InstrField.Free (f : InstrField) (i : Nat) : Prop :=
  f.rangeLow ≤ i ∧ i ≤ f.rangeHigh ∧ f.mask.toNat.testBit (i - f.rangeLow) = false

/-- A template as `write_header` writes it: the fields lie side by side in the word, each with a
mask of its own width, and their masks and values make the template's. -/
structure Instruction.Combined (templ : Instruction) : Prop where
  range : ∀ f ∈ templ.fields, f.rangeLow ≤ f.rangeHigh ∧ f.rangeHigh < 32 ∧ f.bits ≤ 30
  disjoint : templ.fields.Pairwise fun f g => f.rangeHigh < g.rangeLow ∨ g.rangeHigh < f.rangeLow
  width : ∀ f ∈ templ.fields, f.mask.toNat < 2 ^ f.bits
  combined : ∃ c, genCombinedMask (templ.fields.map InstrField.static) = some c ∧
    c.mask = templ.mask.toNat ∧ c.value = templ.value.toNat

/-! ## Static bits

`gen_combined_mask` ors the masks together, so every static field is in the combined one with its
value. -/

namespace Instruction.Combined

variable {templ : Instruction} (h : templ.Combined)

include h

theorem testBit_mask {i : Nat} : templ.mask.toNat.testBit i = true ↔
    ∃ f ∈ templ.fields, f.rangeLow ≤ i ∧ f.mask.toNat.testBit (i - f.rangeLow) = true := by
  obtain ⟨c, hc, hmask, -⟩ := h.combined
  rw [← hmask, testBit_mask_genCombinedMask hc]
  simp [InstrField.static]

/-- The value has no bits beside the mask, as `gen_combined_mask` asserts. -/
theorem value_and_mask : templ.value &&& templ.mask = templ.value := by
  obtain ⟨c, -, hmask, hvalue⟩ := h.combined
  rw [← UInt32.toNat_inj, UInt32.toNat_and, ← hmask, ← hvalue, Nat.and_comm]
  exact c.inside

/-- The open bits of a field lie beside the static bits of all fields. -/
theorem invertedMask_and_mask {f : InstrField} (hf : f ∈ templ.fields) :
    f.invertedMask &&& templ.mask = 0 := by
  obtain ⟨hle, hlt, hbits⟩ := h.range f hf
  apply and_eq_zero
  intro i hfi hmask
  obtain ⟨hlow, hhigh, hclear⟩ := testBit_invertedMask (by omega) hbits hfi
  obtain ⟨g, hg, hglow, hgi⟩ := h.testBit_mask.mp hmask
  have hgwidth : i - g.rangeLow < g.bits := lt_of_testBit (h.width g hg) hgi
  obtain ⟨hgle, -, -⟩ := h.range g hg
  -- both ranges have the bit, so the fields are one, and its mask is clear there
  have hsame : f = g := by
    by_contra hne
    have hsymm : Std.Symm fun f g : InstrField =>
        f.rangeHigh < g.rangeLow ∨ g.rangeHigh < f.rangeLow := ⟨fun _ _ => Or.symm⟩
    have hpair := h.disjoint.forall hf hg hne
    simp only [InstrField.bits] at hhigh hgwidth
    omega
  rw [← hsame, hclear] at hgi
  cases hgi

end Instruction.Combined

/-! ## The word

Whatever is drawn for the other fields, the static bits are left. -/

/-- The word has the template's value under the template's mask and changes it in open bits only.
-/
structure Instruction.Instance (templ : Instruction) (word : UInt32) : Prop where
  matching : word &&& templ.mask = templ.value
  free : ∀ i, (word ^^^ templ.value).toNat.testBit i = true → ∃ f ∈ templ.fields, f.Free i

theorem FieldDraw.bits_and_invertedMask (numRegs : UInt32) (d : FieldDraw) :
    d.bits numRegs &&& d.field.invertedMask = d.bits numRegs := by
  rw [FieldDraw.bits, InstrField.place, UInt32.and_assoc, UInt32.and_self]

theorem Instruction.Combined.encode_instance {templ : Instruction} (h : templ.Combined)
    {ds : List FieldDraw} (hds : (ds.map FieldDraw.field).Sublist templ.fields)
    (numRegs : UInt32) : templ.Instance (encode numRegs templ.value ds) := by
  have hmem : ∀ d ∈ ds, d.field ∈ templ.fields := fun d hd =>
    hds.subset (List.mem_map_of_mem hd)
  constructor
  case matching =>
    rw [encode, orAll_and_of_disjoint, h.value_and_mask]
    intro d hd
    rw [← d.bits_and_invertedMask, UInt32.and_assoc, h.invertedMask_and_mask (hmem d hd),
      UInt32.and_zero]
  case free =>
    intro i hi
    obtain ⟨d, hd, hbit⟩ := exists_testBit_of_xor_orAll hi
    obtain ⟨hle, hlt, hbits⟩ := h.range d.field (hmem d hd)
    rw [← d.bits_and_invertedMask, UInt32.toNat_and, Nat.testBit_and, Bool.and_eq_true] at hbit
    obtain ⟨hlow, hhigh, hclear⟩ := testBit_invertedMask (by omega) hbits hbit.2
    simp only [InstrField.bits] at hhigh
    exact ⟨d.field, hmem d hd, hlow, by omega, hclear⟩

/-- Whatever is drawn, the word is an instance of its template; the only thing that can stop the
client is the assertion on the width of a register. -/
theorem randomlyInitPickedInstr_instance (arch : Arch) (numRegs : UInt32) (templ : Instruction)
    (h : templ.Combined) (rng : SharedRng) :
    match randomlyInitPickedInstr arch numRegs templ rng with
    | .ok (word, _) => templ.Instance word
    | .error e => e = .assertion ∧ ∃ f ∈ templ.fields, ¬f.AssertsWidth arch := by
  have hgives : Gives (fun e => e = .assertion ∧ ∃ f ∈ templ.fields, ¬f.AssertsWidth arch)
      templ.Instance (randomlyInitPickedInstr arch numRegs templ) := by
    rw [randomlyInitPickedInstr_eq]
    refine (gives_drawFields templ.fields fun hwidth => ⟨rfl, hwidth⟩).map fun ds hds => ?_
    exact h.encode_instance hds.sublist numRegs
  have hrun := hgives rng
  revert hrun
  cases randomlyInitPickedInstr arch numRegs templ rng <;> exact id

theorem addiTemplate_combined : addiTemplate.Combined where
  range := by decide
  disjoint := by decide
  width := by decide
  combined := ⟨⟨0x707f, 0x13, rfl⟩, rfl, rfl, rfl⟩

theorem randomlyInitPickedInstr_instance_addi :
    match randomlyInitPickedInstr .riscv64 31 addiTemplate ⟨Vector.replicate _ 7, 624⟩ with
    | .ok (word, _) => addiTemplate.Instance word
    | .error e => e = .assertion ∧ ∃ f ∈ addiTemplate.fields, ¬f.AssertsWidth .riscv64 :=
  randomlyInitPickedInstr_instance .riscv64 31 addiTemplate addiTemplate_combined
    ⟨Vector.replicate _ 7, 624⟩

/-- A static field whose mask is wider than its range, below an open field. -/
def wideTemplate : Instruction where
  fields := [⟨3, 0, .other 0, 0, 0x1f⟩, ⟨7, 4, .other 1, 0, 0⟩]
  mask := 0x1f
  value := 0

/-- Without the widths the mask of one field reaches into the next, and what is drawn there breaks
the static bits. -/
theorem wideTemplate_not_instance :
    (∀ f ∈ wideTemplate.fields,
        f.rangeLow ≤ f.rangeHigh ∧ f.rangeHigh < 32 ∧ f.bits ≤ 30) ∧
      wideTemplate.fields.Pairwise
        (fun f g => f.rangeHigh < g.rangeLow ∨ g.rangeHigh < f.rangeLow) ∧
      (∃ c, genCombinedMask (wideTemplate.fields.map InstrField.static) = some c ∧
        c.mask = wideTemplate.mask.toNat ∧ c.value = wideTemplate.value.toNat) ∧
      (∀ arch, ∃ rng', randomlyInitPickedInstr arch 31 wideTemplate ⟨Vector.replicate _ 1, 0⟩ =
        .ok (16, rng')) ∧ ¬wideTemplate.Instance 16 := by
  refine ⟨by decide, by decide, ⟨⟨0x1f, 0, rfl⟩, rfl, rfl, rfl⟩, ?_, ?_⟩
  · -- the first word of the generator tempers to 0x400091, so the open field gets 1
    intro arch
    refine ⟨⟨Vector.replicate _ 1, 1⟩, ?_⟩
    cases arch <;> rfl
  · intro h
    exact absurd h.matching (by decide)

end RISCover
