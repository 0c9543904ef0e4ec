import RISCover.Result.PrintDiff

/-!
# What the report of the differences says

Every projection of the report (the labels, the names of the registers, the positions of the
memory changes) is the list of the fields that differ, so the report has a line for a field if and
only if the two results differ in it.
-/

namespace RISCover

variable {c : Config}

/-! ## Names of registers

No two of the names that the report can use are equal, halves of vector registers included. -/

theorem RegConfig.allRegs_getAbiName (c : RegConfig) :
    c.allRegs.all (fun r => (c.getAbiName r.abiIndex).isSome) = true := by
  rcases c with ⟨_ | _, _ | _, _ | _, h⟩ <;> revert h <;> decide +kernel

theorem getAbiName_abiIndex {c : RegConfig} (r : Reg c) :
    c.getAbiName r.abiIndex = some r.name := by
  have hsome := List.all_eq_true.mp c.allRegs_getAbiName r (RegConfig.mem_allRegs r)
  obtain ⟨name, hname⟩ := Option.isSome_iff_exists.mp hsome
  rw [Reg.name, hname]
  rfl

/-- The names in the order of the report. -/
def RegConfig.reportNames (c : RegConfig) : List String :=
  c.names .gp ++ c.names .pstate ++ c.names .fpsr ++ c.names .fcsr ++
    (if c.sharesVec then Arch.aarch64.REGS_FP else c.names .fp) ++ c.names .vec

theorem RegConfig.reportNames_nodup (c : RegConfig) : c.reportNames.Nodup := by
  rcases c with ⟨_ | _, _ | _, _ | _, h⟩ <;> revert h <;> decide +kernel

theorem names_fp_float (c : RegConfig) (h : c.FLOATS = true) :
    (List.range (c.count .fp)).map (fun i => c.getAbiNameFloat (i + c.getabiindex .fp)) =
      (c.names .fp).map some := by
  revert h
  rcases c with ⟨_ | _, _ | _, _ | _, h⟩ <;> revert h <;> decide +kernel

theorem names_low (c : RegConfig) (h : c.sharesVec = true) :
    (List.range (c.count .vec)).map (fun i => c.getAbiNameFloat (i + c.getabiindex .fp)) =
      Arch.aarch64.REGS_FP.map some := by
  revert h
  rcases c with ⟨_ | _, _ | _, _ | _, h⟩ <;> revert h <;> decide +kernel

section Names

variable (a b : Regs c)

theorem classPairs_names (k : RegClass) :
    (classPairs c.getAbiName k a b).map RegPair.name = (c.names k).map some := by
  rw [classPairs, List.map_map, ← RegConfig.names_eq, List.map_map]
  apply List.map_congr_left
  intro i _
  show c.getAbiName (i + c.getabiindex k) = some (Reg.name (⟨k, i⟩ : Reg c))
  rw [Nat.add_comm]
  exact getAbiName_abiIndex (⟨k, i⟩ : Reg c)

/-- A table of names, as a loop over the indices meets it. -/
theorem finRange_names {n : Nat} {name : Nat → Option String} {names : List String}
    (h : (List.range n).map name = names.map some) (f g : Fin n → Nat) :
    ((List.finRange n).map fun i : Fin n => (⟨name i, f i, g i⟩ : RegPair)).map RegPair.name =
      names.map some := by
  rw [← h, List.map_map, ← List.map_coe_finRange_eq_range, List.map_map]
  rfl

theorem pstatePairs_names :
    (classPairs (fun _ => some "pstate") .pstate a b).map RegPair.name =
      (c.names .pstate).map some := by
  obtain ⟨⟨arch, floats, vector, hadmit⟩, hmeta, hmem⟩ := c
  cases arch <;> rfl

theorem gpPairs_names : (gpPairs a b).map RegPair.name =
    (c.names .gp ++ c.names .pstate ++ c.names .fpsr ++ c.names .fcsr).map some := by
  simp only [gpPairs, List.map_append, classPairs_names, pstatePairs_names]

theorem fpPairs_names : (fpPairs a b).map RegPair.name =
    (if c.sharesVec then Arch.aarch64.REGS_FP else c.names .fp).map some := by
  unfold fpPairs
  split
  next hshares => exact finRange_names (names_low c hshares) _ _
  next =>
    split
    next hfloats => exact finRange_names (names_fp_float c hfloats) _ _
    next hfloats => simp [RegConfig.names, hfloats]

theorem vecPairs_names : (vecPairs a b).map RegPair.name = (c.names .vec).map some := by
  unfold vecPairs
  split
  next => exact classPairs_names a b .vec
  next hvector => simp [RegConfig.names, hvector]

/-- All registers that are compared. -/
def allPairs : List RegPair := gpPairs a b ++ fpPairs a b ++ vecPairs a b

theorem allPairs_names : (allPairs a b).map RegPair.name = c.reportNames.map some := by
  simp only [allPairs, List.map_append, gpPairs_names, fpPairs_names, vecPairs_names,
    RegConfig.reportNames]

theorem isSome_of_mem_allPairs {p : RegPair} (hp : p ∈ allPairs a b) : p.name.isSome = true := by
  have hmem : p.name ∈ (allPairs a b).map RegPair.name := List.mem_map_of_mem hp
  rw [allPairs_names] at hmem
  obtain ⟨name, -, hname⟩ := List.mem_map.mp hmem
  rw [← hname]
  rfl

/-- The name says which of them it is. -/
theorem eq_of_name_eq {p q : RegPair} (hp : p ∈ allPairs a b) (hq : q ∈ allPairs a b)
    (h : p.name = q.name) : p = q := by
  have hnodup : ((allPairs a b).map RegPair.name).Nodup := by
    rw [allPairs_names]
    exact c.reportNames_nodup.map (Option.some_injective _)
  exact List.inj_on_of_nodup_map hnodup hp hq h

/-! ## The pairs are the registers

The sections together look at each register once, and at the lower halves where there are such. -/

/-- A register under its own name. -/
def Reg.pair (r : Reg c) : RegPair := ⟨some r.name, (r.val a).toNat, (r.val b).toNat⟩

theorem classPairs_eq (k : RegClass) {name : Nat → Option String}
    (h : (classPairs name k a b).map RegPair.name = (c.names k).map some) :
    classPairs name k a b = (List.finRange (c.count k)).map fun i => Reg.pair a b ⟨k, i⟩ := by
  rw [classPairs, List.map_map, ← RegConfig.names_eq, List.map_map] at h
  apply List.map_congr_left
  intro i hi
  have hname : name (i + c.getabiindex k) = some (Reg.name (⟨k, i⟩ : Reg c)) :=
    List.map_inj_left.mp h i hi
  rw [hname]
  rfl

/-- The registers of a class. -/
def regPairs (k : RegClass) : List RegPair :=
  (List.finRange (c.count k)).map fun i => Reg.pair a b ⟨k, i⟩

theorem regPairs_eq_nil {k : RegClass} (h : c.count k = 0) : regPairs a b k = [] := by
  rw [← List.length_eq_zero_iff, regPairs, List.length_map, List.length_finRange, h]

theorem fpPairs_eq : fpPairs a b = if c.sharesVec then lowPairs a b else regPairs a b .fp := by
  unfold fpPairs
  split
  next => rfl
  next =>
    split
    next hfloats => exact classPairs_eq a b .fp (finRange_names (names_fp_float c hfloats) _ _)
    next hfloats => exact (regPairs_eq_nil a b (show c.count .fp = 0 from if_neg hfloats)).symm

theorem vecPairs_eq : vecPairs a b = regPairs a b .vec := by
  unfold vecPairs
  split
  next => exact classPairs_eq a b .vec (classPairs_names a b .vec)
  next hvector => exact (regPairs_eq_nil a b (show c.count .vec = 0 from if_neg hvector)).symm

theorem allPairs_eq : allPairs a b =
    regPairs a b .gp ++ regPairs a b .pstate ++ regPairs a b .fpsr ++ regPairs a b .fcsr ++
      (if c.sharesVec then lowPairs a b else regPairs a b .fp) ++ regPairs a b .vec := by
  rw [allPairs, gpPairs, fpPairs_eq, vecPairs_eq,
    classPairs_eq a b .gp (classPairs_names a b .gp),
    classPairs_eq a b .pstate (pstatePairs_names a b),
    classPairs_eq a b .fpsr (classPairs_names a b .fpsr),
    classPairs_eq a b .fcsr (classPairs_names a b .fcsr)]
  rfl

/-- No build shares the storage and has floating point registers of its own. -/
theorem RegConfig.count_fp_of_sharesVec {c : RegConfig} (h : c.sharesVec = true) :
    c.count .fp = 0 := by
  obtain ⟨_ | _, _ | _, _ | _, hadmitted⟩ := c <;> revert h hadmitted <;> decide

/-- Every register is compared. -/
theorem Reg.pair_mem_allPairs (r : Reg c) : r.pair a b ∈ allPairs a b := by
  obtain ⟨k, i⟩ := r
  have hmem : Reg.pair a b ⟨k, i⟩ ∈ regPairs a b k := List.mem_map_of_mem (List.mem_finRange i)
  rw [allPairs_eq]
  simp only [List.mem_append]
  cases k with
  | gp => simp [hmem]
  | pstate => simp [hmem]
  | fcsr => simp [hmem]
  | fpsr => simp [hmem]
  | vec => simp [hmem]
  | fp =>
      have hshares : c.sharesVec ≠ true := fun hshares =>
        absurd i.pos (RegConfig.count_fp_of_sharesVec hshares).not_gt
      simp [hmem, hshares]

theorem lowPair_mem_allPairs (h : c.sharesVec = true) (i : Fin (c.count .vec)) :
    lowPair a b i ∈ allPairs a b := by
  have hmem : lowPair a b i ∈ lowPairs a b := List.mem_map_of_mem (List.mem_finRange i)
  rw [allPairs_eq, if_pos h]
  simp [hmem]

/-- Nothing else is. -/
theorem mem_allPairs {p : RegPair} (hp : p ∈ allPairs a b) :
    (∃ r : Reg c, p = r.pair a b) ∨ ∃ i, p = lowPair a b i := by
  have hreg : ∀ k, p ∈ regPairs a b k → ∃ r : Reg c, p = r.pair a b := by
    intro k hk
    obtain ⟨i, -, rfl⟩ := List.mem_map.mp hk
    exact ⟨⟨k, i⟩, rfl⟩
  have hfp : (p ∈ if c.sharesVec then lowPairs a b else regPairs a b .fp) →
      (∃ r : Reg c, p = r.pair a b) ∨ ∃ i, p = lowPair a b i := by
    split
    · intro hlow
      obtain ⟨i, -, rfl⟩ := List.mem_map.mp hlow
      exact Or.inr ⟨i, rfl⟩
    · exact fun hk => Or.inl (hreg .fp hk)
  rw [allPairs_eq] at hp
  simp only [List.mem_append] at hp
  rcases hp with ((((hp | hp) | hp) | hp) | hp) | hp
  · exact Or.inl (hreg _ hp)
  · exact Or.inl (hreg _ hp)
  · exact Or.inl (hreg _ hp)
  · exact Or.inl (hreg _ hp)
  · exact hfp hp
  · exact Or.inl (hreg _ hp)

/-- Equal register files have no pair that differs. -/
theorem allPairs_differ_iff : (∃ p ∈ allPairs a b, p.a ≠ p.b) ↔ a ≠ b := by
  constructor
  · rintro ⟨p, hp, hne⟩ rfl
    rcases mem_allPairs a a hp with ⟨r, rfl⟩ | ⟨i, rfl⟩
    · exact hne rfl
    · exact hne rfl
  · intro hne
    by_contra hnone
    refine hne (Regs.ext fun r => BitVec.eq_of_toNat_eq ?_)
    by_contra hval
    exact hnone ⟨r.pair a b, r.pair_mem_allPairs a b, hval⟩

end Names

/-! ## What the lines say

What a line reports is one of four things: a member, a register, a counter or a memory change. -/

@[simp] def DiffLine.memberLabel? : DiffLine → Option String
  | .member label _ _ => some label
  | _ => none

@[simp] def DiffLine.regName? : DiffLine → Option String
  | .reg name _ _ => some name
  | _ => none

@[simp] def DiffLine.counterLabel? : DiffLine → Option String
  | .counter label _ _ => some label
  | _ => none

@[simp] def DiffLine.memIndex? : DiffLine → Option Nat
  | .index i _ => some i
  | _ => none

/-- The labels of the members that are reported. -/
def memberLabels (out : List DiffLine) : List String := out.filterMap DiffLine.memberLabel?

/-- The names of the registers that are reported. -/
def regNames (out : List DiffLine) : List String := out.filterMap DiffLine.regName?

/-- The labels of the counters that are reported. -/
def counterLabels (out : List DiffLine) : List String := out.filterMap DiffLine.counterLabel?

/-- The positions of the memory changes that are reported. -/
def memIndices (out : List DiffLine) : List Nat := out.filterMap DiffLine.memIndex?

/-- The memory changes at a position differ, or only one side has one. -/
def MemDiffers (a b : List MemChange) (i : Nat) : Prop :=
  a[i]?.map MemChange.toDiff ≠ b[i]?.map MemChange.toDiff

/-- The report says of every field whether it differs. -/
structure ReportsDiff (a b : CResult c) (out : List DiffLine) : Prop where
  signum : "signum: " ∈ memberLabels out ↔ a.signum ≠ b.signum
  siAddrr : "si_addrr: " ∈ memberLabels out ↔ a.siAddrr ≠ b.siAddrr
  siPc : "si_pc: " ∈ memberLabels out ↔ a.siPc ≠ b.siPc
  siCode : "si_code: " ∈ memberLabels out ↔ a.siCode ≠ b.siCode
  members_nodup : (memberLabels out).Nodup
  regs : ∀ r : Reg c, r.name ∈ regNames out ↔ r.val a.regsResult ≠ r.val b.regsResult
  /-- The line of a register shows its values. -/
  values : ∀ (r : Reg c) (x y : Nat), .reg r.name x y ∈ out →
    x = (r.val a.regsResult).toNat ∧ y = (r.val b.regsResult).toNat
  /-- With shared storage the low half of a vector register has a name of its own. -/
  lowHalves : c.sharesVec = true → ∀ (i : Fin (c.count .vec)) (name : String),
    c.getAbiNameFloat (i + c.getabiindex .fp) = some name →
      (name ∈ regNames out ↔ (a.regsResult .vec)[i].toNat % 2 ^ 64 ≠
        (b.regsResult .vec)[i].toNat % 2 ^ 64)
  regs_nodup : (regNames out).Nodup
  instret : "  instret: " ∈ counterLabels out ↔
    c.META = true ∧ a.counters.instret ≠ b.counters.instret
  cycle : "  cycle: " ∈ counterLabels out ↔ c.META = true ∧ a.counters.cycle ≠ b.counters.cycle
  counters_nodup : (counterLabels out).Nodup
  mem : ∀ i, i ∈ memIndices out ↔ c.CHECK_MEM = true ∧ MemDiffers a.memChanges b.memChanges i
  mem_nodup : (memIndices out).Nodup
  noDifferences : .noDifferences ∈ out ↔
    resultEqual a b = true ∧ (c.META = true → a.counters = b.counters)

/-! ## Reading the sections

For each of the four, the part of the report that says something of it. -/

section Reading

variable {β : Type} {f : DiffLine → Option β}

theorem filterMap_memberLines (h : ∀ label x y, f (.member label x y) = none)
    (a b : CResult c) : (memberLines a b).filterMap f = [] := by
  have hmember : ∀ label x y, (memberLine label x y).filterMap f = [] := by
    intro label x y
    unfold memberLine
    split
    · exact List.filterMap_cons_none (h label x y)
    · rfl
  simp only [memberLines, List.filterMap_append, hmember, List.append_nil]

theorem filterMap_sectionLines (h : ∀ text, f (.header text) = none) (header : String)
    (lines : List DiffLine) :
    (sectionLines header false lines).filterMap f = lines.filterMap f := by
  unfold sectionLines
  split
  next hnil => rw [hnil]
  next => exact List.filterMap_cons_none (h header)

theorem filterMap_diffRegLines (h : ∀ name x y, f (.reg name x y) = none) (pairs : List RegPair) :
    (diffRegLines pairs).filterMap f = [] := by
  rw [List.filterMap_eq_nil_iff]
  intro line hline
  obtain ⟨p, -, hp⟩ := List.mem_filterMap.mp hline
  split at hp
  · obtain ⟨name, -, rfl⟩ := Option.map_eq_some_iff.mp hp
    exact h name _ _
  · cases hp

theorem filterMap_metaLines (h : ∀ label x y, f (.counter label x y) = none)
    (hheader : ∀ text, f (.header text) = none) (a b : Meta) :
    (metaLines a b).filterMap f = [] := by
  have hcounter : ∀ label x y, (counterLine label x y).filterMap f = [] := by
    intro label x y
    unfold counterLine
    split
    · exact List.filterMap_cons_none (h label _ _)
    · rfl
  rw [metaLines, filterMap_sectionLines hheader, List.filterMap_append, hcounter, hcounter]
  rfl

/-- The positions are the only thing that the lines of an entry are read for. -/
theorem filterMap_entryPrint (h : ∀ d, f (.detail d) = none) (i : Nat) (side : String)
    (details : List EntryDetail) :
    (entryPrint i side details).filterMap f = (f (.index i side)).toList := by
  have hdetails : (details.map DiffLine.detail).filterMap f = [] := by
    rw [List.filterMap_map, List.filterMap_eq_nil_iff]
    exact fun d _ => h d
  rw [entryPrint, List.filterMap_cons, hdetails]
  cases f (.index i side) <;> rfl

/-- The lines of the entries are made by `entryPrint`. -/
theorem mem_entryLines {a b : List MemChange} {line : DiffLine} (h : line ∈ entryLines a b) :
    ∃ i side details, line ∈ entryPrint i side details := by
  have hextra : ∀ side ms, line ∈ extraLines side (min a.length b.length) ms →
      ∃ i side details, line ∈ entryPrint i side details := by
    intro side ms hline
    obtain ⟨⟨m, i⟩, -, hm⟩ := List.mem_flatMap.mp hline
    exact ⟨i, side, entryDetails m, hm⟩
  rcases List.mem_append.mp h with h | h
  · rcases List.mem_append.mp h with h | h
    · obtain ⟨p, -, hp⟩ := List.mem_flatMap.mp h
      unfold pairLines at hp
      split at hp
      · cases hp
      · exact ⟨p.2, "", _, hp⟩
    · exact hextra _ a h
  · exact hextra _ b h

theorem filterMap_memLines (hheader : ∀ text, f (.header text) = none)
    (hcount : ∀ x y, f (.memCount x y) = none) (hindex : ∀ i side, f (.index i side) = none)
    (hdetail : ∀ d, f (.detail d) = none) (a b : List MemChange) :
    (memLines a b).filterMap f = [] := by
  have hentries : (entryLines a b).filterMap f = [] := by
    rw [List.filterMap_eq_nil_iff]
    intro line hline
    obtain ⟨i, side, details, hmem⟩ := mem_entryLines hline
    have hnil : (entryPrint i side details).filterMap f = [] := by
      rw [filterMap_entryPrint hdetail, hindex]
      rfl
    exact List.filterMap_eq_nil_iff.mp hnil line hmem
  unfold memLines
  split
  · rw [List.filterMap_cons_none (hcount _ _), hentries]
  · rw [filterMap_sectionLines hheader, hentries]

theorem diffRegLines_allPairs (a b : Regs c) : diffRegLines (allPairs a b) =
    diffRegLines (gpPairs a b) ++ diffRegLines (fpPairs a b) ++ diffRegLines (vecPairs a b) := by
  rw [allPairs, diffRegLines, List.filterMap_append, List.filterMap_append]
  rfl

/-- The headers apart, the lines of all sections. -/
theorem filterMap_diffLines (hheader : ∀ text, f (.header text) = none) (a b : CResult c) :
    (diffLines a b).filterMap f =
      (memberLines a b).filterMap f ++
      (diffRegLines (allPairs a.regsResult b.regsResult)).filterMap f ++
      (if c.META then (metaLines a.counters b.counters).filterMap f else []) ++
      (if c.CHECK_MEM then (memLines a.memChanges b.memChanges).filterMap f else []) := by
  rw [diffRegLines_allPairs]
  simp only [diffLines, List.filterMap_append, filterMap_sectionLines hheader,
    apply_ite (List.filterMap f), List.filterMap_nil, List.append_assoc]

end Reading

theorem memberLabels_diffLines (a b : CResult c) : memberLabels (diffLines a b) =
    (if unsignedLong a.signum ≠ unsignedLong b.signum then ["signum: "] else []) ++
    (if a.siAddrr ≠ b.siAddrr then ["si_addrr: "] else []) ++
    (if a.siPc ≠ b.siPc then ["si_pc: "] else []) ++
    (if unsignedLong a.siCode ≠ unsignedLong b.siCode then ["si_code: "] else []) := by
  have hmember : ∀ label x y, (memberLine label x y).filterMap DiffLine.memberLabel? =
      if x ≠ y then [label] else [] := by
    intro label x y
    unfold memberLine
    split <;> rfl
  rw [memberLabels, filterMap_diffLines (fun _ => rfl), filterMap_diffRegLines (fun _ _ _ => rfl),
    filterMap_metaLines (fun _ _ _ => rfl) (fun _ => rfl),
    filterMap_memLines (fun _ => rfl) (fun _ _ => rfl) (fun _ _ => rfl) (fun _ => rfl)]
  simp [memberLines, List.filterMap_append, hmember, UInt64.toNat_inj]

theorem regNames_diffLines (a b : CResult c) :
    regNames (diffLines a b) = regNames (diffRegLines (allPairs a.regsResult b.regsResult)) := by
  rw [regNames, filterMap_diffLines (fun _ => rfl), filterMap_memberLines (fun _ _ _ => rfl),
    filterMap_metaLines (fun _ _ _ => rfl) (fun _ => rfl),
    filterMap_memLines (fun _ => rfl) (fun _ _ => rfl) (fun _ _ => rfl) (fun _ => rfl)]
  simp only [ite_self, List.append_nil, List.nil_append]
  rfl

theorem counterLabels_diffLines (a b : CResult c) : counterLabels (diffLines a b) =
    if c.META then
      (if a.counters.instret ≠ b.counters.instret then ["  instret: "] else []) ++
      (if a.counters.cycle ≠ b.counters.cycle then ["  cycle: "] else [])
    else [] := by
  have hcounter : ∀ label x y, (counterLine label x y).filterMap DiffLine.counterLabel? =
      if x ≠ y then [label] else [] := by
    intro label x y
    unfold counterLine
    split <;> rfl
  rw [counterLabels, filterMap_diffLines (fun _ => rfl), filterMap_memberLines (fun _ _ _ => rfl),
    filterMap_diffRegLines (fun _ _ _ => rfl), metaLines, filterMap_sectionLines (fun _ => rfl),
    List.filterMap_append, hcounter, hcounter,
    filterMap_memLines (fun _ => rfl) (fun _ _ => rfl) (fun _ _ => rfl) (fun _ => rfl)]
  simp only [ite_self, List.append_nil, List.nil_append]

theorem memIndices_diffLines (a b : CResult c) : memIndices (diffLines a b) =
    if c.CHECK_MEM then memIndices (entryLines a.memChanges b.memChanges) else [] := by
  have hmem : (memLines a.memChanges b.memChanges).filterMap DiffLine.memIndex? =
      memIndices (entryLines a.memChanges b.memChanges) := by
    unfold memLines
    split
    · rfl
    · exact filterMap_sectionLines (fun _ => rfl) _ _
  rw [memIndices, filterMap_diffLines (fun _ => rfl), filterMap_memberLines (fun _ _ _ => rfl),
    filterMap_diffRegLines (fun _ _ _ => rfl),
    filterMap_metaLines (fun _ _ _ => rfl) (fun _ => rfl), hmem]
  simp only [ite_self, List.append_nil, List.nil_append]

/-! ## Registers that are reported

A register is named when its two values differ, and named once. -/

theorem regNames_diffRegLines {pairs : List RegPair} (h : ∀ p ∈ pairs, p.name.isSome = true) :
    (regNames (diffRegLines pairs)).map some =
      (pairs.filter fun p => p.a ≠ p.b).map RegPair.name := by
  induction pairs with
  | nil => rfl
  | cons p pairs ih =>
      obtain ⟨name, hname⟩ := Option.isSome_iff_exists.mp (h p List.mem_cons_self)
      have hrest := ih fun q hq => h q (List.mem_cons_of_mem _ hq)
      by_cases hne : p.a ≠ p.b
      · have hline : diffRegLines (p :: pairs) = .reg name p.a p.b :: diffRegLines pairs := by
          rw [diffRegLines, List.filterMap_cons, if_pos hne, hname]
          rfl
        rw [hline, List.filter_cons_of_pos (by simpa using hne), List.map_cons, ← hrest, hname]
        rfl
      · have hline : diffRegLines (p :: pairs) = diffRegLines pairs := by
          rw [diffRegLines, List.filterMap_cons, if_neg hne]
          rfl
        rw [hline, List.filter_cons_of_neg (by simpa using hne), hrest]

section Names

variable (a b : CResult c)

theorem mem_regNames {name : String} : name ∈ regNames (diffLines a b) ↔
    ∃ p ∈ allPairs a.regsResult b.regsResult, p.name = some name ∧ p.a ≠ p.b := by
  rw [regNames_diffLines, ← List.mem_map_of_injective (Option.some_injective _),
    regNames_diffRegLines fun p => isSome_of_mem_allPairs _ _]
  simp only [List.mem_map, List.mem_filter, decide_eq_true_eq]
  exact ⟨fun ⟨p, ⟨hp, hne⟩, hname⟩ => ⟨p, hp, hname, hne⟩,
    fun ⟨p, hp, hname, hne⟩ => ⟨p, ⟨hp, hne⟩, hname⟩⟩

/-- A register is reported under its name if and only if it differs. -/
theorem mem_regNames_of_mem {p : RegPair} (hp : p ∈ allPairs a.regsResult b.regsResult)
    {name : String} (hname : p.name = some name) :
    name ∈ regNames (diffLines a b) ↔ p.a ≠ p.b := by
  rw [mem_regNames]
  constructor
  · rintro ⟨q, hq, hqname, hne⟩
    rwa [eq_of_name_eq _ _ hp hq (hname.trans hqname.symm)]
  · exact fun hne => ⟨p, hp, hname, hne⟩

theorem regNames_nodup : (regNames (diffLines a b)).Nodup := by
  rw [regNames_diffLines]
  apply List.Nodup.of_map some
  rw [regNames_diffRegLines fun p => isSome_of_mem_allPairs _ _]
  have hall : ((allPairs a.regsResult b.regsResult).map RegPair.name).Nodup := by
    rw [allPairs_names]
    exact c.reportNames_nodup.map (Option.some_injective _)
  exact hall.sublist (List.filter_sublist.map _)

end Names

/-! ## Memory changes that are reported

A position is reported when there is an entry on one side only, or two that differ. -/

theorem memIndices_extraLines (side : String) (minMc : Nat) (ms : List MemChange) :
    memIndices (extraLines side minMc ms) = (List.range ms.length).drop minMc := by
  have hentry : ∀ p : MemChange × Nat,
      (entryPrint p.2 side (entryDetails p.1)).filterMap DiffLine.memIndex? = [p.2] :=
    fun p => filterMap_entryPrint (fun _ => rfl) p.2 side _
  rw [memIndices, extraLines, List.filterMap_flatMap]
  simp only [hentry]
  rw [← List.map_eq_flatMap, List.map_drop, List.zipIdx_map_snd, List.range_eq_range']

theorem memIndices_pairLines (pairs : List ((MemChange × MemChange) × Nat)) :
    memIndices (pairs.flatMap pairLines) =
      (pairs.filter fun p => !memChangeEqual p.1.1 p.1.2).map Prod.snd := by
  induction pairs with
  | nil => rfl
  | cons p pairs ih =>
      rw [List.flatMap_cons, memIndices, List.filterMap_append, ← memIndices, ← memIndices, ih]
      by_cases hequal : memChangeEqual p.1.1 p.1.2 = true
      · rw [pairLines, if_pos hequal, List.filter_cons_of_neg (by simp [hequal])]
        rfl
      · rw [pairLines, if_neg hequal, List.filter_cons_of_pos (by simp [hequal])]
        exact congrArg (· ++ _) (filterMap_entryPrint (fun _ => rfl) p.2 "" _)

section Mem

variable (a b : List MemChange)

theorem memIndices_entryLines : memIndices (entryLines a b) =
    ((a.zip b).zipIdx.filter fun p => !memChangeEqual p.1.1 p.1.2).map Prod.snd ++
      (List.range a.length).drop (min a.length b.length) ++
      (List.range b.length).drop (min a.length b.length) := by
  rw [entryLines, memIndices, List.filterMap_append, List.filterMap_append, ← memIndices,
    ← memIndices, ← memIndices, memIndices_pairLines, memIndices_extraLines,
    memIndices_extraLines]

theorem mem_drop_range {n k i : Nat} : i ∈ (List.range n).drop k ↔ k ≤ i ∧ i < n := by
  rw [List.range_eq_range', List.drop_range', List.mem_range'_1]
  omega

/-- A position is reported if and only if the entries there differ. -/
theorem mem_memIndices {i : Nat} : i ∈ memIndices (entryLines a b) ↔ MemDiffers a b i := by
  have hpairs : i ∈ ((a.zip b).zipIdx.filter fun p => !memChangeEqual p.1.1 p.1.2).map Prod.snd ↔
      ∃ ma mb, a[i]? = some ma ∧ b[i]? = some mb ∧ ma.toDiff ≠ mb.toDiff := by
    constructor
    · intro h
      obtain ⟨⟨⟨ma, mb⟩, j⟩, hp, rfl⟩ := List.mem_map.mp h
      obtain ⟨hmem, hne⟩ := List.mem_filter.mp hp
      obtain ⟨ha, hb⟩ := List.getElem?_zip_eq_some.mp (List.mk_mem_zipIdx_iff_getElem?.mp hmem)
      refine ⟨ma, mb, ha, hb, fun hdiff => ?_⟩
      rw [memChangeEqual_iff.mpr hdiff] at hne
      cases hne
    · rintro ⟨ma, mb, ha, hb, hne⟩
      have hzip : (a.zip b)[i]? = some (ma, mb) := List.getElem?_zip_eq_some.mpr ⟨ha, hb⟩
      refine List.mem_map.mpr ⟨((ma, mb), i), List.mem_filter.mpr ⟨?_, ?_⟩, rfl⟩
      · exact List.mk_mem_zipIdx_iff_getElem?.mpr hzip
      · rw [Bool.not_eq_true', ← Bool.not_eq_true, memChangeEqual_iff]
        exact hne
  rw [memIndices_entryLines, List.mem_append, List.mem_append, hpairs, mem_drop_range,
    mem_drop_range, MemDiffers]
  -- which of the two lists reach the position
  by_cases ha : i < a.length <;> by_cases hb : i < b.length
  · have hmin : ¬ min a.length b.length ≤ i := by omega
    simp [List.getElem?_eq_getElem ha, List.getElem?_eq_getElem hb, hmin]
  · have hmin : min a.length b.length ≤ i := by omega
    have hnone : b[i]? = none := List.getElem?_eq_none (by omega)
    simp [hnone, ha, hmin]
  · have hmin : min a.length b.length ≤ i := by omega
    have hnone : a[i]? = none := List.getElem?_eq_none (by omega)
    simp [hnone, hb, hmin]
  · simp [ha, hb]

theorem memIndices_nodup : (memIndices (entryLines a b)).Nodup := by
  have hsublist : (((a.zip b).zipIdx.filter fun p =>
      !memChangeEqual p.1.1 p.1.2).map Prod.snd).Sublist
      (List.range (min a.length b.length)) := by
    have hall : (a.zip b).zipIdx.map Prod.snd = List.range (min a.length b.length) := by
      rw [List.zipIdx_map_snd, List.length_zip, List.range_eq_range']
    rw [← hall]
    exact List.filter_sublist.map _
  have hnodup := List.nodup_range.sublist hsublist
  have hlt : ∀ i ∈ ((a.zip b).zipIdx.filter fun p =>
      !memChangeEqual p.1.1 p.1.2).map Prod.snd, i < min a.length b.length :=
    fun i hi => List.mem_range.mp (hsublist.subset hi)
  rw [memIndices_entryLines, List.append_assoc, List.nodup_append, List.nodup_append]
  refine ⟨hnodup, ⟨?_, ?_, ?_⟩, ?_⟩
  · exact List.nodup_range.sublist (List.drop_sublist _ _)
  · exact List.nodup_range.sublist (List.drop_sublist _ _)
  · intro i hi j hj
    rw [mem_drop_range] at hi hj
    omega
  · intro i hi j hj
    have := hlt i hi
    rw [List.mem_append, mem_drop_range, mem_drop_range] at hj
    omega

/-- Nothing is printed about lists that agree. -/
theorem entryLines_eq_nil (h : a.map MemChange.toDiff = b.map MemChange.toDiff) :
    entryLines a b = [] := by
  obtain ⟨hlen, hall⟩ := memChanges_all_equal_iff.mpr h
  have hpairs : (a.zip b).zipIdx.flatMap pairLines = [] := by
    rw [List.flatMap_eq_nil_iff]
    intro p hp
    have hmem := List.fst_mem_of_mem_zipIdx hp
    exact if_pos (List.all_eq_true.mp hall p.1 hmem)
  rw [entryLines, hpairs, extraLines_eq_nil _ (by omega), extraLines_eq_nil _ (by omega)]
  rfl

theorem memLines_eq_nil_iff :
    memLines a b = [] ↔ a.map MemChange.toDiff = b.map MemChange.toDiff := by
  constructor
  · intro h
    apply List.ext_getElem?
    intro i
    rw [List.getElem?_map, List.getElem?_map]
    by_contra hdiffers
    have hmem := (mem_memIndices a b).mpr hdiffers
    -- without lines the numbers of changes are equal, and no position is reported
    have hnil : entryLines a b = [] := by
      unfold memLines at h
      split at h
      · cases h
      · unfold sectionLines at h
        split at h
        · assumption
        · cases h
    rw [hnil] at hmem
    cases hmem
  · intro h
    have hlen : a.length = b.length := by
      simpa using congrArg List.length h
    rw [memLines, if_neg (by simpa using hlen), entryLines_eq_nil a b h]
    rfl

end Mem

/-! ## The report as a whole

No line is printed exactly when no field differs. -/

/-- Sign extension keeps the numbers apart. -/
theorem unsignedLong_inj {x y : Int32} : unsignedLong x = unsignedLong y ↔ x = y := by
  refine ⟨fun h => ?_, congrArg unsignedLong⟩
  have hlong : x.toInt64 = y.toInt64 := by
    simpa using congrArg UInt64.toInt64 (UInt64.toNat_inj.mp h)
  have hint := congrArg Int64.toInt hlong
  rw [Int32.toInt_toInt64, Int32.toInt_toInt64] at hint
  exact Int32.toInt_inj.mp hint

section Whole

variable (a b : CResult c)

theorem printGp_eq (r : Report) : printGp a.regsResult b.regsResult r =
    some (r.append (sectionLines "gp diffs:\n" false
      (diffRegLines (gpPairs a.regsResult b.regsResult)))) :=
  printRegs_eq _
    (fun p hp => isSome_of_mem_allPairs a.regsResult b.regsResult (by simp [allPairs, hp])) r

theorem printFp_eq (r : Report) : printFp a.regsResult b.regsResult r =
    some (r.append (sectionLines
      (if c.sharesVec then "fp diffs (subset of vector):\n" else "fp diffs:\n") false
      (diffRegLines (fpPairs a.regsResult b.regsResult)))) := by
  have hnames : ∀ p ∈ fpPairs a.regsResult b.regsResult, p.name.isSome = true :=
    fun p hp => isSome_of_mem_allPairs a.regsResult b.regsResult (by simp [allPairs, hp])
  unfold printFp
  unfold fpPairs at hnames ⊢
  split
  next hshares =>
    rw [if_pos hshares] at hnames
    exact printRegs_eq _ hnames r
  next hshares =>
    rw [if_neg hshares] at hnames
    split
    next hfloats =>
      rw [if_pos hfloats] at hnames
      exact printRegs_eq _ hnames r
    next => exact congrArg some r.append_nil.symm

theorem printVec_eq (r : Report) : printVec a.regsResult b.regsResult r =
    some (r.append (sectionLines "vec diffs:\n" false
      (diffRegLines (vecPairs a.regsResult b.regsResult)))) := by
  have hnames : ∀ p ∈ vecPairs a.regsResult b.regsResult, p.name.isSome = true :=
    fun p hp => isSome_of_mem_allPairs a.regsResult b.regsResult (by simp [allPairs, hp])
  unfold printVec
  unfold vecPairs at hnames ⊢
  split
  next hvector =>
    rw [if_pos hvector] at hnames
    exact printRegs_eq _ hnames r
  next => exact congrArg some r.append_nil.symm

/-- The report is the lines about the differences, or the line that there are none. -/
theorem printResultDiff_eq : printResultDiff a b =
    some (if diffLines a b = [] then [.noDifferences] else diffLines a b) := by
  have hmeta : ∀ r : Report, (if c.META then printMeta a.counters b.counters r else r) =
      r.append (if c.META then metaLines a.counters b.counters else []) := by
    intro r
    split
    · exact printMeta_eq _ _ r
    · exact r.append_nil.symm
  have hmem : ∀ r : Report, (if c.CHECK_MEM then printMem a.memChanges b.memChanges r else r) =
      r.append (if c.CHECK_MEM then memLines a.memChanges b.memChanges else []) := by
    intro r
    split
    · exact printMem_eq _ _ r
    · exact r.append_nil.symm
  -- the flag is set exactly if something was printed
  have hlast : ∀ lines : List DiffLine, (if (Report.append ⟨false, []⟩ lines).any then
      (Report.append ⟨false, []⟩ lines).lines
    else (Report.append ⟨false, []⟩ lines).lines ++ [.noDifferences]) =
      if lines = [] then [.noDifferences] else lines := by
    intro lines
    cases lines <;> rfl
  unfold printResultDiff
  simp only [printMember_eq, printGp_eq, printFp_eq, printVec_eq, Option.bind_eq_bind,
    Option.bind_some, hmeta, hmem, Report.append_append, diffLines, memberLines, List.append_assoc]
  exact congrArg some (hlast _)

theorem memberLines_eq_nil_iff : memberLines a b = [] ↔ a.signum = b.signum ∧
    a.siAddrr = b.siAddrr ∧ a.siPc = b.siPc ∧ a.siCode = b.siCode := by
  have hmember : ∀ label x y, memberLine label x y = [] ↔ x = y := by
    intro label x y
    unfold memberLine
    split <;> simp_all
  simp only [memberLines, List.append_eq_nil_iff, hmember, unsignedLong_inj, UInt64.toNat_inj,
    and_assoc]

theorem sectionLines_eq_nil_iff {header : String} {lines : List DiffLine} :
    sectionLines header false lines = [] ↔ lines = [] := by
  unfold sectionLines
  split <;> simp_all

/-- No register is printed if and only if the register files agree. -/
theorem diffRegLines_allPairs_eq_nil_iff :
    diffRegLines (allPairs a.regsResult b.regsResult) = [] ↔ a.regsResult = b.regsResult := by
  rw [← not_iff_not, ← ne_eq (a.regsResult), ← allPairs_differ_iff, diffRegLines,
    List.filterMap_eq_nil_iff]
  push Not
  refine exists_congr fun p => and_congr_right fun hp => ?_
  obtain ⟨name, hname⟩ := Option.isSome_iff_exists.mp (isSome_of_mem_allPairs _ _ hp)
  rw [hname]
  split <;> simp_all

theorem metaLines_eq_nil_iff {m m' : Meta} : metaLines m m' = [] ↔ m = m' := by
  have hcounter : ∀ label x y, counterLine label x y = [] ↔ x = y := by
    intro label x y
    unfold counterLine
    split <;> simp_all
  rw [metaLines, sectionLines_eq_nil_iff, List.append_eq_nil_iff, hcounter, hcounter,
    Meta.mk.injEq]
  exact and_comm

theorem diffLines_eq_nil_iff : diffLines a b = [] ↔
    resultEqual a b = true ∧ (c.META = true → a.counters = b.counters) := by
  have hregs : (diffRegLines (gpPairs a.regsResult b.regsResult) = [] ∧
      diffRegLines (fpPairs a.regsResult b.regsResult) = []) ∧
      diffRegLines (vecPairs a.regsResult b.regsResult) = [] ↔ a.regsResult = b.regsResult := by
    rw [← diffRegLines_allPairs_eq_nil_iff, diffRegLines_allPairs, List.append_eq_nil_iff,
      List.append_eq_nil_iff]
  rw [resultEqual_iff, diffLines]
  simp only [List.append_eq_nil_iff, sectionLines_eq_nil_iff, memberLines_eq_nil_iff]
  rw [← hregs, ← memLines_eq_nil_iff, ← metaLines_eq_nil_iff]
  cases c.META <;> cases c.CHECK_MEM <;> simp <;> tauto

/-- Every line about a difference is in the report. -/
theorem filterMap_report {β : Type} {f : DiffLine → Option β} (h : f .noDifferences = none) :
    (if diffLines a b = [] then [.noDifferences] else diffLines a b).filterMap f =
      (diffLines a b).filterMap f := by
  split
  next hnil =>
    rw [hnil]
    exact List.filterMap_cons_none h
  next => rfl

theorem noDifferences_not_mem_diffLines : .noDifferences ∉ diffLines a b := by
  intro hmem
  let isNoDifferences : DiffLine → Option Unit := fun
    | .noDifferences => some ()
    | _ => none
  have hnone : (diffLines a b).filterMap isNoDifferences = [] := by
    rw [filterMap_diffLines (fun _ => rfl), filterMap_memberLines (fun _ _ _ => rfl),
      filterMap_diffRegLines (fun _ _ _ => rfl),
      filterMap_metaLines (fun _ _ _ => rfl) (fun _ => rfl),
      filterMap_memLines (fun _ => rfl) (fun _ _ => rfl) (fun _ _ => rfl) (fun _ => rfl)]
    simp only [ite_self, List.append_nil]
  exact absurd (List.filterMap_eq_nil_iff.mp hnone _ hmem) nofun

/-- A line about a register shows its values. -/
theorem values_of_mem_diffLines {r : Reg c} {x y : Nat}
    (h : .reg r.name x y ∈ diffLines a b) :
    x = (r.val a.regsResult).toNat ∧ y = (r.val b.regsResult).toNat := by
  let values : DiffLine → Option (String × Nat × Nat) := fun
    | .reg name x y => some (name, x, y)
    | _ => none
  have hline : (r.name, x, y) ∈ (diffLines a b).filterMap values :=
    List.mem_filterMap.mpr ⟨_, h, rfl⟩
  rw [filterMap_diffLines (fun _ => rfl), filterMap_memberLines (fun _ _ _ => rfl),
    filterMap_metaLines (fun _ _ _ => rfl) (fun _ => rfl),
    filterMap_memLines (fun _ => rfl) (fun _ _ => rfl) (fun _ _ => rfl) (fun _ => rfl)] at hline
  simp only [ite_self, List.append_nil, List.nil_append] at hline
  obtain ⟨line, hmem, hvalues⟩ := List.mem_filterMap.mp hline
  obtain ⟨p, hp, hpline⟩ := List.mem_filterMap.mp hmem
  split at hpline
  · obtain ⟨name, hname, rfl⟩ := Option.map_eq_some_iff.mp hpline
    cases hvalues
    rw [eq_of_name_eq _ _ hp (r.pair_mem_allPairs _ _) hname]
    exact ⟨rfl, rfl⟩
  · cases hpline

theorem memberLabels_report :
    memberLabels (if diffLines a b = [] then [.noDifferences] else diffLines a b) =
      (if a.signum ≠ b.signum then ["signum: "] else []) ++
      (if a.siAddrr ≠ b.siAddrr then ["si_addrr: "] else []) ++
      (if a.siPc ≠ b.siPc then ["si_pc: "] else []) ++
      (if a.siCode ≠ b.siCode then ["si_code: "] else []) := by
  rw [memberLabels, filterMap_report a b rfl, ← memberLabels, memberLabels_diffLines]
  simp only [ne_eq, unsignedLong_inj]

theorem noDifferences_mem_report :
    .noDifferences ∈ (if diffLines a b = [] then [.noDifferences] else diffLines a b) ↔
      resultEqual a b = true ∧ (c.META = true → a.counters = b.counters) := by
  rw [← diffLines_eq_nil_iff]
  split
  next hnil => simp [hnil]
  next hne => simp [hne, noDifferences_not_mem_diffLines]

/-- Under each of its fields the report says whether the two results differ in it. -/
theorem printResultDiff_reports (c : Config) (a b : CResult c) :
    ∃ out, printResultDiff a b = some out ∧ ReportsDiff a b out := by
  refine ⟨_, printResultDiff_eq a b, ?_⟩
  -- the line that says that nothing differs says nothing of a field
  have hregs : regNames (if diffLines a b = [] then [.noDifferences] else diffLines a b) =
      regNames (diffLines a b) := filterMap_report a b rfl
  have hcounters : counterLabels (if diffLines a b = [] then [.noDifferences] else diffLines a b) =
      counterLabels (diffLines a b) := filterMap_report a b rfl
  have hindices : memIndices (if diffLines a b = [] then [.noDifferences] else diffLines a b) =
      memIndices (diffLines a b) := filterMap_report a b rfl
  constructor
  case signum =>
    rw [memberLabels_report]
    split_ifs <;> simp_all
  case siAddrr =>
    rw [memberLabels_report]
    split_ifs <;> simp_all
  case siPc =>
    rw [memberLabels_report]
    split_ifs <;> simp_all
  case siCode =>
    rw [memberLabels_report]
    split_ifs <;> simp_all
  case members_nodup =>
    rw [memberLabels_report]
    split_ifs <;> simp
  case regs =>
    intro r
    rw [hregs, mem_regNames_of_mem a b (r.pair_mem_allPairs _ _) rfl]
    exact not_congr BitVec.toNat_inj
  case values =>
    intro r x y hmem
    split at hmem
    · cases List.mem_singleton.mp hmem
    · exact values_of_mem_diffLines a b hmem
  case lowHalves =>
    intro hshares i name hname
    rw [hregs, mem_regNames_of_mem a b (lowPair_mem_allPairs _ _ hshares i) hname]
    rfl
  case regs_nodup =>
    rw [hregs]
    exact regNames_nodup a b
  case instret =>
    rw [hcounters, counterLabels_diffLines]
    split_ifs <;> simp_all
  case cycle =>
    rw [hcounters, counterLabels_diffLines]
    split_ifs <;> simp_all
  case counters_nodup =>
    rw [hcounters, counterLabels_diffLines]
    split_ifs <;> simp
  case mem =>
    intro i
    rw [hindices, memIndices_diffLines]
    split
    next hcheck => rw [mem_memIndices, and_iff_right hcheck]
    next hcheck => simp [hcheck]
  case mem_nodup =>
    rw [hindices, memIndices_diffLines]
    split
    · exact memIndices_nodup _ _
    · exact List.nodup_nil
  case noDifferences => exact noDifferences_mem_report a b

end Whole

end RISCover
