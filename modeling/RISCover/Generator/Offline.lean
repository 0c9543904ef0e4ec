import RISCover.Generator.Seeded
import RISCover.Repro.LoggedInput

/-!
# Regeneration

The server does not keep the inputs that a client generates with `JUST_SEQ_NUM`. For a reproducer it
runs `input-generator` on the seed and the sequence number, written in decimal, and reads the input
that it logs. `input-generator` takes its arguments through `atoi`, so the lower half of a number
comes in as an `int`; like the client it starts from memory that it does not clear.
-/

open Text Yaml Runs

namespace RISCover

/-! ## `input-generator`

The numbers on the command line are `uint64_t`, but `atoi` brings in an `int`, which the sign
extends again. `IsInt` says which numbers survive this. -/

/-- `uint64_t x = atoi(argv[i])`. -/
def intArgument (t : Text) : UInt64 := (atoi t).toInt64.toUInt64

/-- What comes in of a number that is passed on in decimal. -/
def argument (x : UInt64) : UInt64 := intArgument (dec x.toNat)

/-- The number is that of an `int`. -/
def IsInt (x : UInt64) : Prop := x.toInt64.toInt32.toInt64 = x.toInt64

instance (x : UInt64) : Decidable (IsInt x) := inferInstanceAs (Decidable (_ = _))

/-- The lower half comes in, extended by its sign. -/
theorem toBitVec_intArgument_dec (n : Nat) :
    (intArgument (dec n)).toBitVec = (BitVec.ofNat 32 n).signExtend 64 := by
  rw [intArgument, atoi_dec]
  rfl

theorem toBitVec_argument (x : UInt64) :
    (argument x).toBitVec = (x.toBitVec.setWidth 32).signExtend 64 := by
  rw [argument, toBitVec_intArgument_dec]
  rfl

theorem isInt_iff {x : UInt64} : IsInt x ↔ argument x = x := by
  rw [IsInt, ← UInt64.toBitVec_inj, toBitVec_argument, ← Int64.toBitVec_inj,
    Int32.toBitVec_toInt64, Int64.toBitVec_toInt32,
    BitVec.signExtend_eq_setWidth_of_le (v := 32) _ (by decide)]
  rfl

theorem toNat_intArgument_dec {n : Nat} (h : n < 2 ^ 31) : (intArgument (dec n)).toNat = n := by
  have hmsb : (BitVec.ofNat 32 n).msb = false := by
    rw [BitVec.msb_eq_false_iff_two_mul_lt, BitVec.toNat_ofNat]
    omega
  show (intArgument (dec n)).toBitVec.toNat = n
  rw [toBitVec_intArgument_dec, BitVec.signExtend_eq_setWidth_of_msb_false hmsb,
    BitVec.toNat_setWidth, BitVec.toNat_ofNat]
  omega

theorem argument_xor (x y : UInt64) : argument x ^^^ argument y = argument (x ^^^ y) := by
  rw [← UInt64.toBitVec_inj, UInt64.toBitVec_xor, toBitVec_argument, toBitVec_argument,
    toBitVec_argument, UInt64.toBitVec_xor, BitVec.setWidth_xor, BitVec.signExtend_xor]

/-- The first word of a number and of what comes in of it: they share the lower half, so the upper
halves have to be the same. -/
theorem firstWord_argument (x : UInt64) : firstWord x = firstWord (argument x) ↔ IsInt x := by
  -- the first word of the state is one half of the seed xored with the other
  have hword : ∀ y : UInt64, (firstWord y).toBitVec =
      y.toBitVec.setWidth 32 ^^^ (y.toBitVec >>> 32).setWidth 32 := by
    intro y
    apply BitVec.eq_of_toNat_eq
    simp [firstWord, Nat.and_two_pow_sub_one_eq_mod _ 32]
  -- the lower half of an argument is what `atoi` keeps
  have hlow : (argument x).toBitVec.setWidth 32 = x.toBitVec.setWidth 32 := by
    rw [toBitVec_argument]
    apply BitVec.eq_of_getLsbD_eq
    intro i hi
    have hwide : i < 64 := by omega
    simp [BitVec.getElem_signExtend, hi, hwide]
  rw [isInt_iff]
  constructor
  · intro h
    have hbits := congrArg UInt32.toBitVec h
    rw [hword, hword, hlow, BitVec.xor_right_inj] at hbits
    rw [← UInt64.toBitVec_inj]
    apply BitVec.eq_of_getLsbD_eq
    intro i hi
    -- a bit of the upper half shows in the first word, one of the lower half is kept anyway
    by_cases hhalf : i < 32
    · have hbit := congrArg (fun v => v.getLsbD i) hlow
      simpa [hhalf] using hbit
    · have hbit := congrArg (fun v => v.getLsbD (i - 32)) hbits.symm
      have hupper : i - 32 < 32 := by omega
      have hsum : 32 + (i - 32) = i := by omega
      simpa [hupper, hsum] using hbit
  · intro h
    rw [h]

namespace GeneratorBuild

variable (b : GeneratorBuild) {hasMeta checkMem : Bool}

/-- `main` of `input-generator`, up to what it writes to its output. -/
def inputGenerator (env : LogEnv ⟨b.config, hasMeta, checkMem⟩) (prior : PriorContents b.config)
    (argv1 argv2 argv3 : Text) : Option Text := do
  let seed := intArgument argv1
  let seqNum := intArgument argv2
  let seqLen := intArgument argv3
  let generator := randomDifffuzzGeneratorInit prior.generator seed
  let (inp, _) ← (b.generateInput generator seqNum seqLen.toUInt32.toNat prior.regs).toOption
  (logInput env inp.instrSeq inp.regs []).map unlines

/-- `get_real_input` of `OfflineRandomDiffFuzzGenerator`. -/
def getRealInput (env : LogEnv ⟨b.config, hasMeta, checkMem⟩) (prior : PriorContents b.config)
    (safeLoad : Text → Option Value) (seed seqNum : UInt64) (seqLen : Nat) :
    Option (InputWithValues b.config.arch) := do
  let data ← b.inputGenerator env prior (dec seed.toNat) (dec seqNum.toNat) (dec seqLen)
  let new ← InputWithValues.fromStr b.config safeLoad data
  -- the slices of a longer sequence would be shorter than `seq_len`
  if h : seqLen ≤ new.instrSeq.length then some { new with seqLen := seqLen, seqLen_le := h }
  else none

end GeneratorBuild

/-! ## What the server reads

The log of `input-generator` is one document, and reading it back gives the drawn instructions and
registers. -/

section

variable {b : GeneratorBuild} {hasMeta checkMem : Bool}

/-- What is logged for two numbers is made of the draws for what comes in of them. -/
theorem inputGenerator_eq {env : LogEnv ⟨b.config, hasMeta, checkMem⟩}
    (prior : PriorContents b.config) (seed seqNum : UInt64) {seqLen : Nat}
    (hlen : seqLen < 2 ^ 31) :
    b.inputGenerator env prior (dec seed.toNat) (dec seqNum.toNat) (dec seqLen) =
      (b.seedDraws (argument seed) (argument seqNum) seqLen).toOption.bind fun d =>
        (logInput env (d.instrs.map (InstrDraw.encoded prior.generator.numRegs))
          (d.regs.fill prior.regs) []).map unlines := by
  have hseqLen : (intArgument (dec seqLen)).toUInt32.toNat = seqLen := by
    rw [UInt64.toNat_toUInt32, toNat_intArgument_dec hlen]
    exact Nat.mod_eq_of_lt (by omega)
  have hgenerate := b.generateInput_eq (randomDifffuzzGeneratorInit prior.generator (argument seed))
    (argument seqNum) seqLen prior.regs
  -- the generator that is left behind does not matter, as the process ends
  have hfirst : b.inputGenerator env prior (dec seed.toNat) (dec seqNum.toNat) (dec seqLen) =
      (Prod.fst <$> b.generateInput (randomDifffuzzGeneratorInit prior.generator (argument seed))
        (argument seqNum) seqLen prior.regs).toOption.bind fun inp =>
          (logInput env inp.instrSeq inp.regs []).map unlines := by
    rw [GeneratorBuild.inputGenerator]
    simp only [hseqLen, argument]
    cases b.generateInput (randomDifffuzzGeneratorInit prior.generator
      (intArgument (dec seed.toNat))) (intArgument (dec seqNum.toNat)) seqLen prior.regs with
    | ok p => rfl
    | error e => rfl
  rw [hfirst, hgenerate]
  show (Except.toOption (_ <$> b.seedDraws (argument seed) (argument seqNum) seqLen)).bind _ = _
  cases b.seedDraws (argument seed) (argument seqNum) seqLen with
  | ok d => rfl
  | error e => rfl

/-- The server reads the input that was made of the draws. -/
theorem getRealInput_eq {env : LogEnv ⟨b.config, hasMeta, checkMem⟩} (henv : env.Disassembles)
    {safeLoad : Text → Option Value} (hload : ReadsDocuments safeLoad)
    (prior : PriorContents b.config) (seed seqNum : UInt64) {seqLen : Nat} (hpos : 0 < seqLen)
    (hlen : seqLen < 2 ^ 31) :
    b.getRealInput env prior safeLoad seed seqNum seqLen =
      (b.seedDraws (argument seed) (argument seqNum) seqLen).toOption.map fun d =>
        InputWithValues.ofRegs b.config (d.instrs.map (InstrDraw.encoded prior.generator.numRegs))
          (d.regs.fill prior.regs) := by
  rw [GeneratorBuild.getRealInput, inputGenerator_eq prior seed seqNum hlen]
  cases hd : b.seedDraws (argument seed) (argument seqNum) seqLen with
  | error e => rfl
  | ok d =>
      have hinstrs :
          (d.instrs.map (InstrDraw.encoded prior.generator.numRegs)).length = seqLen := by
        rw [List.length_map, length_instrs hd]
      have hok : (Except.ok d : Except Fault (SeedDraws b.config)).toOption = some d := rfl
      simp only [hok, Option.bind_some, Option.map_some]
      generalize d.instrs.map (InstrDraw.encoded prior.generator.numRegs) = instrSeq at hinstrs ⊢
      have hne : instrSeq ≠ [] := List.ne_nil_of_length_pos (hinstrs ▸ hpos)
      -- the log that is printed reads back as the input that was logged
      have hread : ((logInput env instrSeq (d.regs.fill prior.regs) []).map unlines).bind
          (InputWithValues.fromStr b.config safeLoad) =
            some (InputWithValues.ofRegs b.config instrSeq (d.regs.fill prior.regs)) :=
        fromStr_logInput henv hload hne (d.regs.fill prior.regs)
      obtain ⟨data, hdata, hstr⟩ := Option.bind_eq_some_iff.mp hread
      have hfits : seqLen ≤
          (InputWithValues.ofRegs b.config instrSeq (d.regs.fill prior.regs)).instrSeq.length :=
        hinstrs.ge
      rw [hdata, Option.bind_eq_bind, Option.bind_some, hstr, Option.bind_eq_bind,
        Option.bind_some, dif_pos hfits]
      subst hinstrs
      rfl

end

/-! ## Register values

The registers that were logged, read back by name. What is not logged is not compared either. -/

section

variable {c : RegConfig}

theorem carries_ofRegs (instrSeq : List UInt32) (regs : Regs c) :
    InputWithValues.Carries c (InputWithValues.ofRegs c instrSeq regs) where
  fp_isSome := by
    show (if c.FLOATS then some _ else none).isSome = c.FLOATS
    cases c.FLOATS <;> rfl
  vec_isSome := by
    show (if c.VECTOR then some _ else none).isSome = c.VECTOR
    cases c.VECTOR <;> rfl

theorem words_classValues {k : RegClass} (hk : k.size = 8) (regs : Regs c) :
    InputWithValues.words ((classValues regs k).map UInt64.ofNat) = classValues regs k := by
  rw [InputWithValues.words, List.map_map, classValues, List.map_map]
  apply List.map_congr_left
  intro i _
  have hlt : (Reg.val (⟨k, i⟩ : Reg c) regs).toNat < 2 ^ 64 := by
    have hbits := (Reg.val (⟨k, i⟩ : Reg c) regs).isLt
    simpa only [hk] using hbits
  exact UInt64.toNat_ofNat_of_lt' hlt

/-- The values that the input carries are those of the registers that the build has. -/
theorem values_ofRegs (instrSeq : List UInt32) (regs : Regs c) (r : Reg c) :
    (InputWithValues.values c (InputWithValues.ofRegs c instrSeq regs) r.1).getD r.2 0 =
      (r.val (zeroControl c regs)).toNat := by
  obtain ⟨k, i⟩ := r
  have hcontrol : (List.replicate (c.count k) 0).getD i.1 0 = 0 := by
    rw [List.getD_eq_getElem?_getD, List.getElem?_replicate]
    split <;> rfl
  have hi := i.isLt
  -- every class of registers is kept in another attribute, and the control registers in none
  cases k with
  | gp =>
      show (InputWithValues.words ((classValues regs .gp).map UInt64.ofNat)).getD i 0 = _
      rw [words_classValues rfl]
      exact getD_classValues regs ⟨.gp, i⟩
  | fp =>
      have hfloats : c.FLOATS = true := by
        by_contra h
        simp [RegConfig.count, h] at hi
      show (InputWithValues.words ((if c.FLOATS then some ((classValues regs .fp).map UInt64.ofNat)
        else none).getD [])).getD i 0 = _
      rw [if_pos hfloats, Option.getD_some, words_classValues rfl]
      exact getD_classValues regs ⟨.fp, i⟩
  | vec =>
      have hvector : c.VECTOR = true := by
        by_contra h
        simp [RegConfig.count, h] at hi
      have hnat : ((classValues regs .vec).map (BitVec.ofNat 128)).map BitVec.toNat =
          classValues regs .vec := by
        rw [List.map_map, classValues, List.map_map]
        apply List.map_congr_left
        intro j _
        exact Nat.mod_eq_of_lt (Reg.val (⟨.vec, j⟩ : Reg c) regs).isLt
      show (((if c.VECTOR then some ((classValues regs .vec).map (BitVec.ofNat 128))
        else none).getD []).map BitVec.toNat).getD i 0 = _
      rw [if_pos hvector, Option.getD_some, hnat]
      exact getD_classValues regs ⟨.vec, i⟩
  | pstate =>
      have harch : c.arch = .aarch64 := by
        simpa [RegConfig.count] using i.pos.ne'
      show (List.replicate _ 0).getD i 0 = _
      rw [hcontrol]
      simp [Reg.val, zeroControl, harch]
  | fcsr =>
      have hfcsr : c.arch = .riscv64 ∧ c.FLOATS = true := by
        simpa [RegConfig.count] using i.pos.ne'
      show (List.replicate _ 0).getD i 0 = _
      rw [hcontrol]
      simp [Reg.val, zeroControl, hfcsr]
  | fpsr =>
      have hfpsr : c.arch = .aarch64 ∧ (c.FLOATS || c.VECTOR) = true := by
        simpa only [RegConfig.count, ne_eq, Bool.toNat_eq_zero, Bool.not_eq_false,
          Bool.and_eq_true, beq_iff_eq] using i.pos.ne'
      show (List.replicate _ 0).getD i 0 = _
      rw [hcontrol]
      simp [Reg.val, zeroControl, hfpsr]

/-- The server sees the registers that the client would run. -/
theorem get?_decodeRegs_ofRegs (instrSeq : List UInt32) (regs : Regs c) (r : Reg c) :
    (InputWithValues.ofRegs c instrSeq regs).decodeRegs.get? r.name =
      some (r.val (zeroControl c regs)).toNat := by
  rw [InputWithValues.get?_decodeRegs (carries_ofRegs instrSeq regs) r, values_ofRegs]

end

/-! ## Regeneration

What the client xors and what `input-generator` xors have one first word when the xor is the number
of an `int`. Then both draw alike, and only what is not drawn can differ. -/

/-- The server's input is the one that the client runs. -/
structure SameInput {c : RegConfig} (inp : GeneratedInput c) (real : InputWithValues c.arch) :
    Prop where
  instrSeq : real.getInstrSeq = inp.instrSeq.map UInt32.toNat
  regs : ∀ r : Reg c, real.decodeRegs.get? r.name = some (r.val inp.regs).toNat

/-- The server gets the input that the client runs, or both stop at an assertion. -/
def Regenerates {c : RegConfig} (client : Except Fault (GeneratedInput c))
    (server : Option (InputWithValues c.arch)) : Prop :=
  match client, server with
  | .ok inp, some real => SameInput inp real
  | .error .assertion, none => True
  | _, _ => False

theorem sameInput_ofRegs {c : RegConfig} {inp : GeneratedInput c} {instrSeq : List UInt32}
    {regs : Regs c} :
    SameInput inp (InputWithValues.ofRegs c instrSeq regs) ↔
      inp.instrSeq = instrSeq ∧ ∀ r : Reg c, r.val inp.regs = r.val (zeroControl c regs) := by
  have hseq : (InputWithValues.ofRegs c instrSeq regs).getInstrSeq = instrSeq.map UInt32.toNat := by
    show (instrSeq.take instrSeq.length).map UInt32.toNat = _
    rw [List.take_length]
  have hinj : Function.Injective (List.map UInt32.toNat) :=
    List.map_injective_iff.mpr fun _ _ h => UInt32.toNat_inj.mp h
  constructor
  · intro h
    refine ⟨(hinj (hseq.symm.trans h.instrSeq)).symm, fun r => ?_⟩
    have hval := h.regs r
    rw [get?_decodeRegs_ofRegs] at hval
    exact BitVec.eq_of_toNat_eq (Option.some.inj hval).symm
  · rintro ⟨rfl, hregs⟩
    refine ⟨hseq, fun r => ?_⟩
    rw [get?_decodeRegs_ofRegs, hregs]

/-- Where what seeds the generator is the number of an `int`, the server gets the client's input
exactly if the seed decides it. -/
theorem regenerates_iff (b : GeneratorBuild)
    (hsep : ∀ templ ∈ b.table.instructions, templ.Separated) {hasMeta checkMem : Bool}
    {env : LogEnv ⟨b.config, hasMeta, checkMem⟩} (henv : env.Disassembles)
    {safeLoad : Text → Option Value} (hload : ReadsDocuments safeLoad)
    (prior prior' : PriorContents b.config) {seed seqNum : UInt64}
    (hint : IsInt (seqNum ^^^ seed)) {seqLen : Nat} (hpos : 0 < seqLen) (hlen : seqLen < 256) :
    Regenerates (b.clientInput prior seed seqNum seqLen)
        (b.getRealInput env prior' safeLoad seed seqNum seqLen) ↔
      SeedDecides b prior prior' seed seqNum seqLen := by
  have hword : firstWord (seqNum ^^^ seed) = firstWord (argument seqNum ^^^ argument seed) := by
    rw [argument_xor]
    exact (firstWord_argument _).mpr hint
  rw [b.clientInput_eq prior, getRealInput_eq henv hload prior' seed seqNum hpos (by omega),
    ← b.seedDraws_congr hword]
  by_cases hne : seqLen = 0 ∨ b.table.instructions ≠ []
  · cases hd : b.seedDraws seed seqNum seqLen with
    | error e =>
        obtain ⟨rfl, -⟩ := seedDraws_error hne hd
        exact ⟨fun _ => seedDecides_of_error hne hd, fun _ => trivial⟩
    | ok d => exact sameInput_ofRegs.trans (seedDecides_iff_of_ok hsep hne hd).symm
  · obtain ⟨hzero, hempty⟩ := not_or.mp hne
    rw [seedDraws_empty hzero (not_not.mp hempty)]
    exact ⟨fun h => h.elim, fun h => absurd h.instructions hne⟩

/-- A loader that takes the quotes off. -/
def unquotingLoad (t : Text) : Option Value := (load t).map Value.unquote

theorem readsDocuments_unquotingLoad : ReadsDocuments unquotingLoad := readsDocuments_load

theorem unknown_disassembles (c : Config) : (LogEnv.unknown c).Disassembles := fun _ =>
  ⟨⟨"nop".toList, by decide⟩, rfl, rfl⟩

theorem regenerates_iff_vectorBuild :
    Regenerates (vectorBuild.clientInput (filledWith _ 0) 7 1 5)
        (vectorBuild.getRealInput (LogEnv.unknown ⟨vectorBuild.config, true, false⟩)
          (filledWith _ 0) unquotingLoad 7 1 5) ↔
      SeedDecides vectorBuild (filledWith _ 0) (filledWith _ 0) 7 1 5 :=
  regenerates_iff vectorBuild (by simp [vectorBuild, addiTemplate_separated])
    (unknown_disassembles _) readsDocuments_unquotingLoad (filledWith _ 0) (filledWith _ 0)
    (by decide) (by decide) (by decide)

/-! ## A seed that is cut off

The seed 2^32 comes in as 0, and the first register has another value then. -/

/-- A client without floats that knows `addi`. -/
def integerBuild : GeneratorBuild where
  config := ⟨.riscv64, false, false, buildAdmits_integer⟩
  map := InputWithRegSelect.sampleMap
  table := ⟨[addiTemplate], length_addiTemplate⟩

/-- A number that is not the last case picks an interesting value. -/
theorem valOrRand_picks {table : List UInt64} (hlen : table.length ≤ 256) {s : SharedRng}
    {v : UInt64}
    (hv : table[(s.next.1 % UInt64.ofNat (table.length + 1)).toNat]? = some v) :
    valOrRand table s = .ok (v, s.next.2) := by
  have hnat : (UInt64.ofNat (table.length + 1)).toNat = table.length + 1 := by
    simp
    omega
  have hzero : UInt64.ofNat (table.length + 1) ≠ 0 := by
    intro h
    rw [h] at hnat
    simp at hnat
  have hlast : s.next.1 % UInt64.ofNat (table.length + 1) ≠ UInt64.ofNat table.length := by
    intro h
    have hlt := (List.getElem?_eq_some_iff.mp hv).1
    rw [h] at hlt
    simp at hlt
    omega
  have hrun : valOrRand table s = (do
      let i ← cMod s.next.1 (UInt64.ofNat (table.length + 1))
      if i = UInt64.ofNat table.length then rngNext else element table i.toNat) s.next.2 := rfl
  rw [hrun, cMod, if_neg hzero, pure_bind, if_neg hlast, element, hv]
  rfl

/-- The first register gets the interesting value that the first number picks. -/
theorem drawn_ra {b : GeneratorBuild} {seed seqNum : UInt64} {seqLen : Nat}
    {d : SeedDraws b.config} (hd : b.seedDraws seed seqNum seqLen = .ok d) {v : UInt64}
    (hv : b.map.gp[((rngInit ⟨Vector.replicate _ 0, 0⟩ (seqNum ^^^ seed)).next.1 %
      UInt64.ofNat (b.map.gp.length + 1)).toNat]? = some v) (hpos : 0 < b.config.count .gp) :
    d.regs.gp[0] = BitVec.ofNat _ v.toNat := by
  rw [GeneratorBuild.seedDraws] at hd
  cases hrun : b.drawSeed seqLen (rngInit ⟨Vector.replicate _ 0, 0⟩ (seqNum ^^^ seed)) with
  | error e =>
      rw [hrun] at hd
      cases hd
  | ok p =>
      rw [hrun] at hd
      obtain rfl : p.1 = d := by simpa using hd
      -- the general registers are drawn before everything else
      obtain ⟨regs, s₁, hregs, hrest⟩ := of_bind_eq_ok hrun
      obtain ⟨instrs, s₂, -, hp⟩ := of_bind_eq_ok hrest
      obtain ⟨gp, s₃, hgp, hrest⟩ := of_bind_eq_ok hregs
      obtain ⟨fp, s₄, -, hrest⟩ := of_bind_eq_ok hrest
      obtain ⟨vec, s₅, -, hdrawn⟩ := of_bind_eq_ok hrest
      rw [← of_pure_eq_ok hp, ← of_pure_eq_ok hdrawn]
      have hfirst : wordReg .gp b.map.gpValOrRand
          (rngInit ⟨Vector.replicate _ 0, 0⟩ (seqNum ^^^ seed)) = .ok (BitVec.ofNat _ v.toNat,
            (rngInit ⟨Vector.replicate _ 0, 0⟩ (seqNum ^^^ seed)).next.2) := by
        have hval := valOrRand_picks b.map.gp_le hv
        show (valOrRand b.map.gp (rngInit ⟨Vector.replicate _ 0, 0⟩ (seqNum ^^^ seed)) >>= fun q =>
          .ok (BitVec.ofNat _ q.1.toNat, q.2)) = _
        rw [hval]
        rfl
      exact drawEach_first hpos hfirst hgp

/-- The server regenerates the input of another seed: `atoi` makes `0` of the seed `2 ^ 32`. -/
theorem integerBuild_not_regenerates :
    ¬Regenerates (integerBuild.clientInput (filledWith _ 0) 0x100000000 0 1)
      (integerBuild.getRealInput (LogEnv.unknown ⟨integerBuild.config, true, false⟩)
        (filledWith _ 0) unquotingLoad 0x100000000 0 1) := by
  have hseed : argument 0x100000000 = 0 := by
    rw [argument, intArgument, atoi_dec]
    decide
  have hseqNum : argument 0 = 0 := isInt_iff.mp (by decide)
  rw [integerBuild.clientInput_eq, getRealInput_eq (unknown_disassembles _)
    readsDocuments_unquotingLoad _ _ _ (by decide) (by decide), hseed, hseqNum]
  have hriscv : ∀ e seed, integerBuild.seedDraws seed 0 1 ≠ .error e := by
    intro e seed h
    cases (seedDraws_error (Or.inr (List.cons_ne_nil _ _)) h).2
  cases hd : integerBuild.seedDraws 0x100000000 0 1 with
  | error e => exact absurd hd (hriscv e _)
  | ok d =>
      cases hd' : integerBuild.seedDraws 0 0 1 with
      | error e => exact absurd hd' (hriscv e _)
      | ok d' =>
          intro h
          -- the first register decides, and it is the first draw on both sides
          have hra := (sameInput_ofRegs.mp h).2 ⟨.gp, (0 : Fin 31)⟩
          have hclient : d.regs.gp[0] = 0xff := by
            apply drawn_ra hd (v := 0xff) _ (by decide)
            rw [next_rngInit]
            decide +kernel
          have hserver : d'.regs.gp[0] = 0 := by
            apply drawn_ra hd' (v := 0) _ (by decide)
            rw [next_rngInit]
            decide +kernel
          have hne : ¬(0xff : BitVec 64) = 0 := by decide
          exact hne (hclient.symm.trans (hra.trans hserver))

end RISCover
