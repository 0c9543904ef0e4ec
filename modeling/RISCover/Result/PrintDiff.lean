import RISCover.Result.Compare

/-!
# The report of the differences between two results

`print_result_diff` walks through two results by hand, section by section, and keeps flags for
whether it has printed anything. Every section appends the lines of its differences
(`Report.append`), so the report is the list `diffLines`, or one line that there are none.
-/

namespace RISCover

/-! ## Names

On aarch64 with vectors the report has the low halves of the vector registers as well, under the
names of the floating point registers. -/

/-- The table of `get_abi_name_float`. On aarch64 it always has the floating point registers. -/
def RegConfig.abiNamesFloat (c : RegConfig) : List String :=
  match c.arch with
  | .riscv64 => c.abiNames
  | .aarch64 => Arch.aarch64.gp ++ ["pstate", "fpsr"] ++ Arch.aarch64.REGS_FP

/-- `get_abi_name_float`; past the table the client exits. -/
def RegConfig.getAbiNameFloat (c : RegConfig) (i : Nat) : Option String := c.abiNamesFloat[i]?

/-- On aarch64 with `VECTOR` the floating point registers are the low halves of the vector
registers. -/
def RegConfig.sharesVec (c : RegConfig) : Bool := c.arch == .aarch64 && c.VECTOR

/-! ## Lines

A line of the report is its data; how it is laid out does not matter here. -/

/-- A line about an entry of the memory changes: its label, and the numbers or byte strings. -/
structure EntryDetail where
  label : String
  numbers : List Nat
  bytes : List Bytes
  deriving DecidableEq

/-- A line of the report, without the prefix and the colours. -/
inductive DiffLine where
  /-- A member of the result: its label and both values. -/
  | member (label : String) (a b : Nat)
  | header (text : String)
  /-- `"  %s: "` with the name of a register, and both values. -/
  | reg (name : String) (a b : Nat)
  /-- A counter: its label and both values. -/
  | counter (label : String) (a b : Nat)
  /-- `"mem_diffs: count %d -> %d\n"`. -/
  | memCount (a b : Nat)
  /-- `"  - index %d\n"`, maybe with the side that has the entry. -/
  | index (i : Nat) (side : String)
  | detail (d : EntryDetail)
  /-- `"no result differences\n"`. -/
  | noDifferences
  deriving DecidableEq

/-- What is printed so far, and `any`. -/
structure Report where
  any : Bool
  lines : List DiffLine

/-- More lines, if there are any. -/
def Report.append (r : Report) (lines : List DiffLine) : Report :=
  ⟨r.any || !lines.isEmpty, r.lines ++ lines⟩

/-! ## Sections

A section prints its heading in front of its first line. So a section without differences leaves no
trace. -/

/-- A section under way: the report and the flag of the section. -/
abbrev Section := Report × Bool

/-- The header of a section, in front of its first difference. -/
def Section.begin (header : String) (s : Section) : Section :=
  if s.2 then s else (⟨true, s.1.lines ++ [.header header]⟩, true)

def Section.print (lines : List DiffLine) (s : Section) : Section :=
  (⟨s.1.any, s.1.lines ++ lines⟩, s.2)

/-- One of the members in front of the registers. -/
def printMember (label : String) (a b : Nat) (r : Report) : Report :=
  if a ≠ b then ⟨true, r.lines ++ [.member label a b]⟩ else r

/-- A register as a loop meets it: what `get_abi_name` says, and both values. -/
structure RegPair where
  name : Option String
  a : Nat
  b : Nat

/-- The body of a loop over registers. -/
def printReg (header : String) (s : Section) (p : RegPair) : Option Section :=
  if p.a ≠ p.b then do
    let s := s.begin header
    let name ← p.name
    pure (s.print [.reg name p.a p.b])
  else some s

/-- A section of registers. -/
def printRegs (header : String) (pairs : List RegPair) (r : Report) : Option Report :=
  Prod.fst <$> pairs.foldlM (printReg header) (r, false)

variable {c : Config}

/-- The registers of a class, with names from a table. -/
def classPairs (name : Nat → Option String) (k : RegClass) (a b : Regs c) : List RegPair :=
  (List.finRange (c.count k)).map fun i : Fin _ =>
    ⟨name (i + c.getabiindex k), (a k)[i].toNat, (b k)[i].toNat⟩

/-- The low half of a vector register, under the name of the floating point register. -/
def lowPair (a b : Regs c) (i : Fin (c.count .vec)) : RegPair :=
  ⟨c.getAbiNameFloat (i + c.getabiindex .fp), ((a .vec).get i).toNat % 2 ^ 64,
    ((b .vec).get i).toNat % 2 ^ 64⟩

def lowPairs (a b : Regs c) : List RegPair := (List.finRange (c.count .vec)).map (lowPair a b)

/-- The registers of the first section: `LOOP_OVER_GP_DIFF` and the scalar registers. -/
def gpPairs (a b : Regs c) : List RegPair :=
  classPairs c.getAbiName .gp a b ++ classPairs (fun _ => some "pstate") .pstate a b ++
    classPairs c.getAbiName .fpsr a b ++ classPairs c.getAbiName .fcsr a b

def printGp (a b : Regs c) (r : Report) : Option Report := printRegs "gp diffs:\n" (gpPairs a b) r

/-- `LOOP_OVER_FP_DIFF`. -/
def printFp (a b : Regs c) (r : Report) : Option Report :=
  if c.sharesVec then printRegs "fp diffs (subset of vector):\n" (lowPairs a b) r
  else if c.FLOATS then printRegs "fp diffs:\n" (classPairs c.getAbiNameFloat .fp a b) r
  else some r

/-- `LOOP_OVER_VECTOR_REGS_DIFF`. -/
def printVec (a b : Regs c) (r : Report) : Option Report :=
  if c.VECTOR then printRegs "vec diffs:\n" (classPairs c.getAbiName .vec a b) r else some r

def counterLine (label : String) (a b : UInt64) : List DiffLine :=
  if a ≠ b then [.counter label a.toNat b.toNat] else []

def printMeta (a b : Meta) (r : Report) : Report :=
  let r :=
    if a.instret ≠ b.instret || a.cycle ≠ b.cycle then ⟨true, r.lines ++ [.header "meta:\n"]⟩
    else r
  ⟨r.any, r.lines ++ counterLine "  instret: " a.instret b.instret ++
    counterLine "  cycle: " a.cycle b.cycle⟩

/-! ## Memory changes

The entries are compared in pairs as long as both sides have one, and the others are printed on
their own. -/

/-- What is printed about an entry on one side: all of it. -/
def entryDetails (m : MemChange) : List EntryDetail :=
  [⟨"      start: ", [m.start.toNat], []⟩, ⟨"      n: ", [m.n.toNat], []⟩,
    ⟨"      val: ", [], [m.val.toList.take m.nCap]⟩] ++
  (if m.n.toNat > CHECK_MEM_CUT_AT then [⟨"      cut_at: ", [CHECK_MEM_CUT_AT], []⟩] else []) ++
  [⟨"      checksum: ", [m.checksum.toNat], []⟩]

/-- What is printed about two entries that differ. -/
def pairDetails (ma mb : MemChange) : List EntryDetail :=
  let nMin := if ma.n < mb.n then ma.n.toNat else mb.n.toNat
  let nCap := if nMin < CHECK_MEM_CUT_AT then nMin else CHECK_MEM_CUT_AT
  (if ma.start ≠ mb.start then [⟨"      start: ", [ma.start.toNat, mb.start.toNat], []⟩]
    else []) ++
  (if ma.n ≠ mb.n then [⟨"      n: ", [ma.n.toNat, mb.n.toNat], []⟩] else []) ++
  [⟨"      val: ", [], [ma.val.toList.take nCap, mb.val.toList.take nCap]⟩] ++
  (if ma.n.toNat > CHECK_MEM_CUT_AT ∨ mb.n.toNat > CHECK_MEM_CUT_AT then
    [⟨"      cut_at: ", [CHECK_MEM_CUT_AT], []⟩]
  else if ma.n ≠ mb.n then
    -- both are captured completely
    (if ma.n.toNat > nMin then
      [⟨"      val_tail_before: ", [], [Bytes.slice ma.val.toList nMin (ma.n.toNat - nMin)]⟩]
    else []) ++
    (if mb.n.toNat > nMin then
      [⟨"      val_tail_after:  ", [], [Bytes.slice mb.val.toList nMin (mb.n.toNat - nMin)]⟩]
    else [])
  else []) ++
  (if ma.checksum ≠ mb.checksum then
    [⟨"      checksum: ", [ma.checksum.toNat, mb.checksum.toNat], []⟩]
  else [])

/-- The lines of an entry. -/
def entryPrint (i : Nat) (side : String) (details : List EntryDetail) : List DiffLine :=
  .index i side :: details.map .detail

/-- The loop over the entries that both have. -/
def printPair (s : Section) (p : (MemChange × MemChange) × Nat) : Section :=
  if memChangeEqual p.1.1 p.1.2 then s
  else (s.begin "mem_diffs:\n").print (entryPrint p.2 "" (pairDetails p.1.1 p.1.2))

/-- The entries from `minMc` on, of the side that has more. -/
def printExtra (side : String) (minMc : Nat) (ms : List MemChange) (s : Section) : Section :=
  if ms.length > minMc then
    (s.begin "mem_diffs:\n").print
      ((ms.zipIdx.drop minMc).flatMap fun (m, i) => entryPrint i side (entryDetails m))
  else s

def printMem (a b : List MemChange) (r : Report) : Report :=
  let s : Section :=
    if a.length ≠ b.length then (⟨true, r.lines ++ [.memCount a.length b.length]⟩, true)
    else (r, false)
  let minMc := if a.length < b.length then a.length else b.length
  let s := (a.zip b).zipIdx.foldl printPair s
  (printExtra " (only in B)" minMc b (printExtra " (only in A)" minMc a s)).1

/-! ## The whole report

The sections in their order, and a line of its own if none of them printed anything. -/

/-- A signed number as it is printed: `(unsigned long)x`. -/
def unsignedLong (x : Int32) : Nat := x.toInt64.toUInt64.toNat

/-- `print_result_diff`; `none` if the client exits because there is no name. -/
def printResultDiff (a b : CResult c) : Option (List DiffLine) := do
  let r : Report := ⟨false, []⟩
  let r := printMember "signum: " (unsignedLong a.signum) (unsignedLong b.signum) r
  let r := printMember "si_addrr: " a.siAddrr.toNat b.siAddrr.toNat r
  let r := printMember "si_pc: " a.siPc.toNat b.siPc.toNat r
  let r := printMember "si_code: " (unsignedLong a.siCode) (unsignedLong b.siCode) r
  let r ← printGp a.regsResult b.regsResult r
  let r ← printFp a.regsResult b.regsResult r
  let r ← printVec a.regsResult b.regsResult r
  let r := if c.META then printMeta a.counters b.counters r else r
  let r := if c.CHECK_MEM then printMem a.memChanges b.memChanges r else r
  pure (if r.any then r.lines else r.lines ++ [.noDifferences])

/-! ## What the sections append

Each section, whatever was printed before it, appends a list of lines that depends on the two
results only. -/

@[simp] theorem Report.append_nil (r : Report) : r.append [] = r := by
  cases r
  simp [append]

theorem Report.append_append (r : Report) (xs ys : List DiffLine) :
    (r.append xs).append ys = r.append (xs ++ ys) := by
  simp only [append, List.append_assoc, Bool.or_assoc]
  cases xs <;> cases ys <;> simp

/-- The line of a member, if it differs. -/
def memberLine (label : String) (a b : Nat) : List DiffLine :=
  if a ≠ b then [.member label a b] else []

theorem printMember_eq (label : String) (a b : Nat) (r : Report) :
    printMember label a b r = r.append (memberLine label a b) := by
  unfold printMember memberLine
  split
  · simp [Report.append]
  · exact r.append_nil.symm

/-- The lines of a section: the header in front of the first, if it was not printed before. -/
def sectionLines (header : String) (opened : Bool) (lines : List DiffLine) : List DiffLine :=
  if lines = [] then [] else (if opened then [] else [.header header]) ++ lines

/-- A section to which lines were printed. -/
def Section.append (header : String) (s : Section) (lines : List DiffLine) : Section :=
  (⟨s.1.any || !lines.isEmpty, s.1.lines ++ sectionLines header s.2 lines⟩, s.2 || !lines.isEmpty)

theorem Section.append_nil (header : String) (s : Section) : s.append header [] = s := by
  obtain ⟨⟨any, lines⟩, opened⟩ := s
  simp [append, sectionLines]

theorem Section.append_append (header : String) (s : Section) (xs ys : List DiffLine)
    (h : s.2 = true → s.1.any = true) :
    (s.append header xs).append header ys = s.append header (xs ++ ys) := by
  obtain ⟨⟨any, lines⟩, opened⟩ := s
  cases xs <;> cases ys <;> cases opened <;> simp [append, sectionLines]

theorem Section.print_begin (header : String) (s : Section) {lines : List DiffLine}
    (hne : lines ≠ []) (h : s.2 = true → s.1.any = true) :
    (s.begin header).print lines = s.append header lines := by
  obtain ⟨⟨any, lines'⟩, opened⟩ := s
  cases lines with
  | nil => exact absurd rfl hne
  | cons line lines =>
      cases opened with
      | true => simp_all [Section.begin, print, append, sectionLines]
      | false => simp [Section.begin, print, append, sectionLines]

theorem Section.append_any (header : String) {s : Section} (h : s.2 = true → s.1.any = true)
    (lines : List DiffLine) :
    (s.append header lines).2 = true → (s.append header lines).1.any = true := by
  intro hopened
  rcases Bool.or_eq_true _ _ |>.mp hopened with hs | hlines
  · exact (Bool.or_eq_true _ _).mpr (Or.inl (h hs))
  · exact (Bool.or_eq_true _ _).mpr (Or.inr hlines)

/-- A section that nothing was printed to before. -/
theorem Section.append_fst (header : String) (r : Report) (lines : List DiffLine) :
    (Section.append header (r, false) lines).1 = r.append (sectionLines header false lines) := by
  cases lines <;> simp [append, sectionLines, Report.append]

/-- The lines of the registers that differ. -/
def diffRegLines (pairs : List RegPair) : List DiffLine :=
  pairs.filterMap fun p => if p.a ≠ p.b then p.name.map fun name => .reg name p.a p.b else none

theorem foldlM_printReg (header : String) {pairs : List RegPair}
    (hnames : ∀ p ∈ pairs, p.name.isSome = true) {s : Section} (h : s.2 = true → s.1.any = true) :
    pairs.foldlM (printReg header) s = some (s.append header (diffRegLines pairs)) := by
  induction pairs generalizing s with
  | nil => exact congrArg some (s.append_nil header).symm
  | cons p pairs ih =>
      have hrest : ∀ q ∈ pairs, q.name.isSome = true := fun q hq =>
        hnames q (List.mem_cons_of_mem _ hq)
      obtain ⟨name, hname⟩ := Option.isSome_iff_exists.mp (hnames p List.mem_cons_self)
      rw [List.foldlM_cons, printReg, diffRegLines, List.filterMap_cons]
      split
      next hne =>
        rw [hname]
        show List.foldlM _ ((s.begin header).print [.reg name p.a p.b]) pairs = _
        rw [Section.print_begin header s (List.cons_ne_nil _ _) h,
          ih hrest (Section.append_any header h _), Section.append_append header s _ _ h]
        rfl
      next => exact ih hrest h

theorem printRegs_eq (header : String) {pairs : List RegPair}
    (hnames : ∀ p ∈ pairs, p.name.isSome = true) (r : Report) :
    printRegs header pairs r =
      some (r.append (sectionLines header false (diffRegLines pairs))) := by
  rw [printRegs, foldlM_printReg header hnames (s := (r, false)) nofun]
  exact congrArg some (Section.append_fst header r _)

def metaLines (a b : Meta) : List DiffLine :=
  sectionLines "meta:\n" false
    (counterLine "  instret: " a.instret b.instret ++ counterLine "  cycle: " a.cycle b.cycle)

theorem printMeta_eq (a b : Meta) (r : Report) : printMeta a b r = r.append (metaLines a b) := by
  unfold printMeta metaLines counterLine
  by_cases hinstret : a.instret = b.instret <;> by_cases hcycle : a.cycle = b.cycle <;>
    simp [hinstret, hcycle, sectionLines, Report.append]

/-- What the loop over both lists prints for an entry. -/
def pairLines (p : (MemChange × MemChange) × Nat) : List DiffLine :=
  if memChangeEqual p.1.1 p.1.2 then [] else entryPrint p.2 "" (pairDetails p.1.1 p.1.2)

/-- The entries that only one side has. -/
def extraLines (side : String) (minMc : Nat) (ms : List MemChange) : List DiffLine :=
  (ms.zipIdx.drop minMc).flatMap fun (m, i) => entryPrint i side (entryDetails m)

/-- The entries that differ or that only one side has. -/
def entryLines (a b : List MemChange) : List DiffLine :=
  (a.zip b).zipIdx.flatMap pairLines ++ extraLines " (only in A)" (min a.length b.length) a ++
    extraLines " (only in B)" (min a.length b.length) b

def memLines (a b : List MemChange) : List DiffLine :=
  if a.length ≠ b.length then .memCount a.length b.length :: entryLines a b
  else sectionLines "mem_diffs:\n" false (entryLines a b)

theorem foldl_printPair (pairs : List ((MemChange × MemChange) × Nat)) {s : Section}
    (h : s.2 = true → s.1.any = true) :
    pairs.foldl printPair s = s.append "mem_diffs:\n" (pairs.flatMap pairLines) := by
  induction pairs generalizing s with
  | nil => exact (s.append_nil _).symm
  | cons p pairs ih =>
      have hstep : printPair s p = s.append "mem_diffs:\n" (pairLines p) := by
        unfold printPair pairLines
        split
        · exact (s.append_nil _).symm
        · exact Section.print_begin _ s (List.cons_ne_nil _ _) h
      rw [List.foldl_cons, hstep, ih (Section.append_any _ h _), Section.append_append _ s _ _ h]
      rfl

theorem extraLines_eq_nil (side : String) {minMc : Nat} {ms : List MemChange}
    (h : ms.length ≤ minMc) : extraLines side minMc ms = [] := by
  rw [extraLines, List.drop_eq_nil_of_le (by rwa [List.length_zipIdx])]
  rfl

theorem printExtra_eq (side : String) (minMc : Nat) (ms : List MemChange) {s : Section}
    (h : s.2 = true → s.1.any = true) :
    printExtra side minMc ms s = s.append "mem_diffs:\n" (extraLines side minMc ms) := by
  unfold printExtra
  split
  next hlt =>
    refine Section.print_begin _ s ?_ h
    intro hnone
    have hdrop : ms.zipIdx.drop minMc ≠ [] := by
      rw [ne_eq, List.drop_eq_nil_iff, List.length_zipIdx]
      omega
    obtain ⟨p, rest, hp⟩ := List.exists_cons_of_ne_nil hdrop
    rw [hp, List.flatMap_cons] at hnone
    cases hnone
  next hle => rw [extraLines_eq_nil side (Nat.le_of_not_lt hle), Section.append_nil]

theorem printMem_eq (a b : List MemChange) (r : Report) :
    printMem a b r = r.append (memLines a b) := by
  have hmin : (if a.length < b.length then a.length else b.length) = min a.length b.length := by
    split <;> omega
  unfold printMem
  dsimp only
  rw [hmin]
  generalize hs : (if a.length ≠ b.length then
      (⟨true, r.lines ++ [.memCount a.length b.length]⟩, true)
    else (r, false) : Section) = s
  -- a heading that was printed counts as a difference
  have hany : s.2 = true → s.1.any = true := by
    rw [← hs]
    split
    · exact fun _ => rfl
    · nofun
  have hany₁ := Section.append_any "mem_diffs:\n" hany ((a.zip b).zipIdx.flatMap pairLines)
  have hany₂ := Section.append_any "mem_diffs:\n" hany₁
    (extraLines " (only in A)" (min a.length b.length) a)
  rw [foldl_printPair _ hany, printExtra_eq _ _ _ hany₁, printExtra_eq _ _ _ hany₂,
    Section.append_append _ _ _ _ hany₁, Section.append_append _ _ _ _ hany, ← List.append_assoc]
  show (s.append "mem_diffs:\n" (entryLines a b)).1 = _
  rw [← hs, memLines]
  split
  next => cases entryLines a b <;> simp [Section.append, sectionLines, Report.append]
  next => exact Section.append_fst _ r _

/-! ## The report

The lists of all sections, one behind the other. -/

/-- The floating point registers that are compared. -/
def fpPairs (a b : Regs c) : List RegPair :=
  if c.sharesVec then lowPairs a b
  else if c.FLOATS then classPairs c.getAbiNameFloat .fp a b else []

/-- The vector registers that are compared. -/
def vecPairs (a b : Regs c) : List RegPair :=
  if c.VECTOR then classPairs c.getAbiName .vec a b else []

/-- The members in front of the registers. -/
def memberLines (a b : CResult c) : List DiffLine :=
  memberLine "signum: " (unsignedLong a.signum) (unsignedLong b.signum) ++
  memberLine "si_addrr: " a.siAddrr.toNat b.siAddrr.toNat ++
  memberLine "si_pc: " a.siPc.toNat b.siPc.toNat ++
  memberLine "si_code: " (unsignedLong a.siCode) (unsignedLong b.siCode)

/-- All lines about differences. -/
def diffLines (a b : CResult c) : List DiffLine :=
  memberLines a b ++
  sectionLines "gp diffs:\n" false (diffRegLines (gpPairs a.regsResult b.regsResult)) ++
  sectionLines (if c.sharesVec then "fp diffs (subset of vector):\n" else "fp diffs:\n") false
    (diffRegLines (fpPairs a.regsResult b.regsResult)) ++
  sectionLines "vec diffs:\n" false (diffRegLines (vecPairs a.regsResult b.regsResult)) ++
  (if c.META then metaLines a.counters b.counters else []) ++
  (if c.CHECK_MEM then memLines a.memChanges b.memChanges else [])

end RISCover
