import Mathlib.Algebra.Order.BigOperators.Group.List
import RISCover.Result.RoundTrip

/-!
# Comparing on the client and comparing on the server

The client compares two `struct result`s field by field (`result_equal`), the server compares the
parsed objects (`Result.__eq__`), which know only the registers that changed. Packing against one
register file and parsing loses nothing that either comparison looks at.
-/

open Bytes Cursor

namespace RISCover

variable {c : Config} {κ : Type}

/-! ## The two comparisons

The client looks at `si_addr`, `si_pc` and `si_code` only with a signal, and so does the server. -/

/-- `mem_change_equal`. -/
def memChangeEqual (m1 m2 : MemChange) : Bool :=
  if m1.start ≠ m2.start then false
  else if m1.n ≠ m2.n then false
  else if m1.checksum ≠ m2.checksum then false
  else if m1.val.toList.take m1.nCap ≠ m2.val.toList.take m1.nCap then false
  else true

/-- `result_equal`. -/
def resultEqual (r1 r2 : CResult c) : Bool :=
  if r1.signum ≠ r2.signum then false
  else if r1.siAddrr ≠ r2.siAddrr then false
  else if r1.siPc ≠ r2.siPc then false
  else if r1.siCode ≠ r2.siCode then false
  else if r1.regsResult.bytes ≠ r2.regsResult.bytes then false
  else if c.CHECK_MEM then
    if r1.memChanges.length ≠ r2.memChanges.length then false
    else (r1.memChanges.zip r2.memChanges).all fun (m1, m2) => memChangeEqual m1 m2
  else true

/-- `Result.__eq__` between two `Result`s. The memory is compared when `self` has one. -/
def Result.eq (self other : Result κ) : Bool :=
  if self.signum ≠ other.signum then false
  else if self.siAddr ≠ other.siAddr then false
  else if self.siPc ≠ other.siPc then false
  else if self.siCode ≠ other.siCode then false
  else if self.memDiffs.isSome && self.memDiffs ≠ other.memDiffs then false
  else if !(self.regs == other.regs) then false
  else true

theorem Result.eq_iff {x y : Result κ} :
    x.eq y = true ↔ x.signum = y.signum ∧ x.siAddr = y.siAddr ∧ x.siPc = y.siPc ∧
      x.siCode = y.siCode ∧ (x.memDiffs.isSome → x.memDiffs = y.memDiffs) ∧
      (x.regs == y.regs) = true := by
  unfold Result.eq
  grind

theorem Result.eq_refl (x : Result κ) : x.eq x = true :=
  eq_iff.mpr ⟨rfl, rfl, rfl, rfl, fun _ => rfl, Dict.beq_refl _⟩

/-- `Result.__eq__` looks at the memory only when `self` has one; that is enough when the two have
it together. -/
theorem option_eq_of_isSome {α : Type} {o o' : Option α} (hsome : o.isSome = o'.isSome)
    (h : o.isSome = true → o = o') : o = o' := by
  cases o with
  | some x => exact h rfl
  | none => exact (Option.isSome_eq_false_iff.mp hsome.symm |> Option.isNone_iff_eq_none.mp).symm

/-! ## Memory changes

Both sides see the number of changed bytes, a checksum and the first of them. -/

theorem memChangeEqual_iff {m1 m2 : MemChange} :
    memChangeEqual m1 m2 = true ↔ m1.toDiff = m2.toDiff := by
  have hspec : memChangeEqual m1 m2 = true ↔ m1.start = m2.start ∧ m1.n = m2.n ∧
      m1.checksum = m2.checksum ∧ m1.val.toList.take m1.nCap = m2.val.toList.take m1.nCap := by
    unfold memChangeEqual
    grind
  rw [hspec]
  constructor
  · rintro ⟨hstart, hn, hsum, hval⟩
    have hcap : m1.nCap = m2.nCap := by simp only [MemChange.nCap, hn]
    simp only [MemChange.toDiff, hstart, hn, hsum, hval, ← hcap]
  · intro h
    have hstart : m1.start.toNat = m2.start.toNat := congrArg MemDiff.start h
    have hn : m1.n.toNat = m2.n.toNat := congrArg MemDiff.n h
    have hsum : m1.checksum.toNat = m2.checksum.toNat := congrArg MemDiff.checksum h
    have hval := congrArg MemDiff.val h
    have hcap : m1.nCap = m2.nCap := by simp only [MemChange.nCap, hn]
    refine ⟨UInt64.toNat_inj.mp hstart, UInt32.toNat_inj.mp hn, UInt32.toNat_inj.mp hsum, ?_⟩
    -- the kept parts have one length, so their numbers determine them
    have hkept := ofLeBytes_inj
      (by rw [m1.length_kept, m2.length_kept, hcap]) hval
    rwa [← hcap] at hkept

/-- The loop over both arrays finds no difference exactly when the parsed lists agree. -/
theorem memChanges_all_equal_iff {xs ys : List MemChange} :
    (xs.length = ys.length ∧
      (xs.zip ys).all (fun (m1, m2) => memChangeEqual m1 m2) = true) ↔
      xs.map MemChange.toDiff = ys.map MemChange.toDiff := by
  have hloop : (xs.length = ys.length ∧
      (xs.zip ys).all (fun (m1, m2) => memChangeEqual m1 m2) = true) ↔
      List.Forall₂ (fun m1 m2 => m1.toDiff = m2.toDiff) xs ys := by
    rw [List.forall₂_iff_zip, List.all_eq_true]
    refine and_congr_right fun _ => ⟨fun h m1 m2 hm => ?_, fun h m hm => ?_⟩
    · exact memChangeEqual_iff.mp (h (m1, m2) hm)
    · exact memChangeEqual_iff.mpr (h hm)
  rw [hloop, ← List.forall₂_eq_eq_eq, List.forall₂_map_left_iff, List.forall₂_map_right_iff]

/-! ## Registers

What the server has of a register is its value if it changed, and nothing otherwise. Against one
register file this says as much as the value. -/

/-- What the dictionary says about one register. -/
theorem get?_changedRegs_name (before after : Regs c) (r : Reg c) :
    (changedRegs before after).get? r.name =
      if r.val before = r.val after then none else some (r.val after).toNat := by
  apply Option.ext
  intro v
  rw [get?_changedRegs]
  by_cases heq : r.val before = r.val after
  · rw [if_pos heq]
    constructor
    · rintro ⟨s, hname, hne, _⟩
      obtain rfl := Reg.name_inj hname
      exact absurd heq hne
    · intro h
      cases h
  · rw [if_neg heq]
    constructor
    · rintro ⟨s, hname, _, rfl⟩
      obtain rfl := Reg.name_inj hname
      rfl
    · intro h
      cases h
      exact ⟨r, rfl, heq, rfl⟩

/-- Against one register file, the changed registers determine all registers. -/
theorem changedRegs_beq_iff {before a b : Regs c} :
    (changedRegs before a == changedRegs before b) = true ↔ a = b := by
  refine ⟨fun h => Regs.ext fun r => ?_, fun h => h ▸ Dict.beq_refl _⟩
  have hr := Dict.beq_iff.mp h r.name
  rw [get?_changedRegs_name, get?_changedRegs_name] at hr
  -- a register that is not in one dictionary is not in the other, and then both kept its value
  by_cases ha : r.val before = r.val a
  · by_cases hb : r.val before = r.val b
    · exact ha.symm.trans hb
    · rw [if_pos ha, if_neg hb] at hr
      cases hr
  · by_cases hb : r.val before = r.val b
    · rw [if_neg ha, if_pos hb] at hr
      cases hr
    · rw [if_neg ha, if_neg hb] at hr
      exact BitVec.eq_of_toNat_eq (Option.some.inj hr)

/-! ## Whole results

The server's comparison of what was parsed, in terms of what was packed. -/

theorem resultEqual_iff {a b : CResult c} :
    resultEqual a b = true ↔ a.signum = b.signum ∧ a.siAddrr = b.siAddrr ∧ a.siPc = b.siPc ∧
      a.siCode = b.siCode ∧ a.regsResult = b.regsResult ∧
      (c.CHECK_MEM = true →
        a.memChanges.map MemChange.toDiff = b.memChanges.map MemChange.toDiff) := by
  rw [← Regs.bytes_inj, ← memChanges_all_equal_iff]
  unfold resultEqual
  grind

/-- The comparison of the parsed forms is the client's comparison. -/
theorem decoded_eq_iff (before : Regs c) (client₁ client₂ : κ) {a b : CResult c} :
    (a.decoded before client₁).eq (b.decoded before client₂) = true ↔ resultEqual a b = true := by
  rw [Result.eq_iff, resultEqual_iff]
  simp only [CResult.decoded, changedRegs_beq_iff]
  have hsignum : intBits a.signum = intBits b.signum ↔ a.signum = b.signum :=
    ⟨intBits_inj, congrArg intBits⟩
  have hcode : intBits a.siCode = intBits b.siCode ↔ a.siCode = b.siCode :=
    ⟨intBits_inj, congrArg intBits⟩
  have haddr : a.siAddrr.toNat = b.siAddrr.toNat ↔ a.siAddrr = b.siAddrr := UInt64.toNat_inj
  have hpc : a.siPc.toNat = b.siPc.toNat ↔ a.siPc = b.siPc := UInt64.toNat_inj
  rw [hsignum, hcode, haddr, hpc]
  cases c.CHECK_MEM with
  | false => simp [and_comm]
  | true => simp [and_comm]

/-! ## A single result always fits its frame

The sizes of the parts add up to less than 2^16, so packing one result does not fail. -/

theorem packReg_length_le (after : Regs c) (r : Reg c) : (packReg after r).length ≤ 17 := by
  have hsize : r.1.size ≤ 16 := by
    cases r.1 <;> decide
  simp only [packReg, List.length_cons, RegVal.length_bytes]
  omega

theorem packMemChange_length_le (m : MemChange) : (packMemChange m).length ≤ 32 := by
  have hcap := m.length_kept
  have hle : m.nCap ≤ 16 := by
    rw [MemChange.nCap_eq_min]
    exact Nat.min_le_right _ _
  simp only [packMemChange, List.length_append, length_leBytes, hcap]
  omega

theorem length_flatMap_le {α : Type} (f : α → Bytes) {k : Nat} (h : ∀ x, (f x).length ≤ k)
    (l : List α) : (l.flatMap f).length ≤ l.length * k := by
  have hsum := List.sum_le_card_nsmul (l.map fun x => (f x).length) k
    (by simpa using fun x _ => h x)
  simpa [List.length_flatMap] using hsum

/-- Every register and as many memory changes as there can be still fit the `uint16`. -/
theorem packResult_isSome (before : Regs c) (r : CResult c) : (packResult before r).isSome := by
  have hregs := length_flatMap_le (packReg r.regsResult) (packReg_length_le _)
    (regsDiff before r.regsResult)
  have hcount := regsDiff_length_lt before r.regsResult
  have hmem := length_flatMap_le packMemChange packMemChange_length_le r.memChanges
  have hmemCount := r.memChanges_le.trans_lt c.arch.CHECK_MEM_MAX_NUMBER_MEM_CHANGES_lt
  have hmeta : (packMeta c r.counters).length ≤ 4 := by
    unfold packMeta
    cases c.META <;> cases c.arch <;> simp
  have hsi : (packSi r).length ≤ 20 := by
    unfold packSi
    split <;> simp
  have hsection : (packMemChanges c r.memChanges).length ≤ 1 + 256 * 32 := by
    unfold packMemChanges
    split
    · simp only [List.length_cons]
      omega
    · simp
  -- 255 registers of 17 bytes and 255 changes of 32 are far from 0xffff
  have hlen : (RESULT_TAG_SINGLE :: packInnerResult before r).length ≤ 0xffff := by
    simp only [packInnerResult, List.length_cons, List.length_append]
    omega
  rw [packResult, packFrame, if_pos hlen]
  rfl

/-- What the server parses out of the frame of one result. -/
theorem parseResults_packResult (before : Regs c) (client : κ) {r : CResult c}
    (hr : r.FromRunner) : ∃ frame, packResult before r = some frame ∧
      parseResults c (frame.drop 2) client = .ok [.result (r.decoded before client)] := by
  obtain ⟨frame, hframe⟩ := Option.isSome_iff_exists.mp (packResult_isSome before r)
  have hdrop : frame.drop 2 = (Answer.single r).body before :=
    drop_frame (a := .single r) hframe
  have hrunner : ∀ a ∈ [(⟨before, .single r⟩ : Reply c)], a.answer.FromRunner := by
    rintro a ha
    obtain rfl := List.mem_singleton.mp ha
    exact hr
  have hone := parseResults_bodies client (List.cons_ne_nil _ _) hrunner
  refine ⟨frame, hframe, ?_⟩
  rw [hdrop]
  simpa [Reply.decoded, Reply.body, Answer.decoded] using hone

/-- The client's comparison of two results is the server's comparison of what it parses from the
frames in which they are sent. -/
theorem resultEqual_iff_parsed_eq (c : Config) (before : Regs c) (client₁ client₂ : κ)
    (a b : CResult c) (ha : a.FromRunner) (hb : b.FromRunner) :
    ∃ frame₁ frame₂ ra rb,
      packResult before a = some frame₁ ∧ packResult before b = some frame₂ ∧
      parseResults c (frame₁.drop 2) client₁ = .ok [.result ra] ∧
      parseResults c (frame₂.drop 2) client₂ = .ok [.result rb] ∧
      (resultEqual a b = true ↔ ra.eq rb = true) := by
  obtain ⟨frame₁, hframe₁, hparse₁⟩ := parseResults_packResult before client₁ ha
  obtain ⟨frame₂, hframe₂, hparse₂⟩ := parseResults_packResult before client₂ hb
  exact ⟨frame₁, frame₂, _, _, hframe₁, hframe₂, hparse₁, hparse₂,
    (decoded_eq_iff before client₁ client₂).symm⟩

/-- Two runs that differ only in a cycle counter, which neither side compares. -/
theorem resultEqual_iff_parsed_eq_faultingRun :
    ∃ frame₁ frame₂ ra rb,
      packResult (Regs.fill riscvBuild 0) faultingRun = some frame₁ ∧
      packResult (Regs.fill riscvBuild 0) { faultingRun with counters := ⟨1, 2⟩ } = some frame₂ ∧
      parseResults riscvBuild (frame₁.drop 2) "a" = .ok [.result ra] ∧
      parseResults riscvBuild (frame₂.drop 2) "b" = .ok [.result rb] ∧
      (resultEqual faultingRun { faultingRun with counters := ⟨1, 2⟩ } = true ↔
        ra.eq rb = true) :=
  resultEqual_iff_parsed_eq riscvBuild (Regs.fill riscvBuild 0) "a" "b" faultingRun
    { faultingRun with counters := ⟨1, 2⟩ } faultingRun_fromRunner
    ⟨by decide, by decide, by decide⟩

end RISCover
