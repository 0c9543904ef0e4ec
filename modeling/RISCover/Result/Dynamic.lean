import RISCover.Lib.Yaml
import RISCover.Result.Compare

/-!
# Results that come from a document

`Result.from_dict` takes its attributes as they stand in a document, so they can be any Python
values. The methods of `Result` do not check them: `__eq__` compares whatever is there, `__hash__`
fails when the registers are no dictionary. A parsed result is one of these objects, and its
comparison and its hash are the ones it has as such (`Result.toPy_eq`, `Result.hashKey_toPy`).
-/

open Yaml

namespace RISCover

variable {κ : Type}

/-- One tuple of `mem_diffs`. -/
structure PyMemDiff where
  start : Value
  n : Value
  val : Value
  checksum : Value

/-- Class `Result`. -/
structure PyResult where
  signum : Value
  cycleDiff : Value
  instretDiff : Value
  regs : Value
  siAddr : Value
  siPc : Value
  siCode : Value
  memDiffs : Option (List PyMemDiff)

/-- The tuple of one entry; a missing key is an error. -/
def PyMemDiff.fromEntry (entry : Value) : Option PyMemDiff := do
  some {
    start := ← entry.getItem "start"
    n := ← entry.getItem "n"
    val := ← entry.getItem "val"
    checksum := ← entry.getItem "checksum" }

namespace PyResult

/-- `mem_diffs`, which only some documents have. -/
def memDiffsFromDict (d : Value) : Option (Option (List PyMemDiff)) :=
  match d.getItem "mem_diffs" with
  | none => some none
  | some entries => do
    let entries ← entries.elements
    let memDiffs ← entries.mapM PyMemDiff.fromEntry
    some (some memDiffs)

/-- `from_dict`; without a result it raises an error. -/
def fromDict (d : Value) : Option PyResult := do
  some {
    signum := ← d.get "signum"
    siAddr := ← d.get "si_addr"
    siPc := ← d.get "si_pc"
    siCode := ← d.get "si_code"
    regs := ← d.get "regs_after"
    cycleDiff := ← d.get "cycle_diff"
    instretDiff := ← d.get "instret_diff"
    memDiffs := ← memDiffsFromDict d }

def memDiffEq (a b : PyMemDiff) : Bool :=
  a.start.eq b.start && a.n.eq b.n && a.val.eq b.val && a.checksum.eq b.checksum

/-- `==` between two `mem_diffs`. -/
def memDiffsEq : Option (List PyMemDiff) → Option (List PyMemDiff) → Bool
  | some xs, some ys => xs.length == ys.length && (xs.zip ys).all fun p => memDiffEq p.1 p.2
  | none, none => true
  | _, _ => false

/-- `__eq__`. -/
def eq (self other : PyResult) : Bool :=
  if !self.signum.eq other.signum then false
  else if !self.siAddr.eq other.siAddr then false
  else if !self.siPc.eq other.siPc then false
  else if !self.siCode.eq other.siCode then false
  else if self.memDiffs.isSome && !memDiffsEq self.memDiffs other.memDiffs then false
  else if !self.regs.eq other.regs then false
  else true

theorem eq_iff {x y : PyResult} :
    x.eq y = true ↔ x.signum.eq y.signum = true ∧ x.siAddr.eq y.siAddr = true ∧
      x.siPc.eq y.siPc = true ∧ x.siCode.eq y.siCode = true ∧
      (x.memDiffs.isSome → memDiffsEq x.memDiffs y.memDiffs = true) ∧
      x.regs.eq y.regs = true := by
  unfold eq
  grind

/-- What `__hash__` passes to `hash`. -/
abbrev HashKey := Value × Value × Value × Value × Set (Text × Value) × List PyMemDiff

/-- `frozenset(self.regs.items())`. -/
def frozenItems : Value → Option (Set (Text × Value))
  | .dict entries =>
    if entries.all fun p => p.2.hashable then some {p | p ∈ entries} else none
  | _ => none

/-- `__hash__`, up to the call of `hash`. -/
def hashKey (r : PyResult) : Option HashKey := do
  let regsHash ← frozenItems r.regs
  some (r.signum, r.siAddr, r.siPc, r.siCode, regsHash, r.memDiffs.getD [])

/-- `__hash__`; `hash` is Python's. -/
def hash (hash : HashKey → Int) (r : PyResult) : Option Int := r.hashKey.map hash

end PyResult

/-! ## Parsed results

A result that the server has parsed is one of these as well, with attributes of the right types
(`Result.toPy`). On such results the comparison and the hash are those of the typed model, so the
two models of the class agree. -/

def MemDiff.toPy (d : MemDiff) : PyMemDiff :=
  ⟨.int d.start, .int d.n, .int d.val, .int d.checksum⟩

/-- A dictionary from names to numbers. -/
def intDict (items : List (String × Nat)) : Value :=
  .dict (items.map fun p => (p.1.toList, .int p.2))

/-- A parsed result as the object that it is. -/
def Result.toPy (r : Result κ) : PyResult where
  signum := .int r.signum
  cycleDiff := (r.cycleDiff.map fun n => .int n).getD .null
  instretDiff := (r.instretDiff.map fun n => .int n).getD .null
  regs := intDict r.regs.items
  siAddr := .int r.siAddr
  siPc := .int r.siPc
  siCode := .int r.siCode
  memDiffs := r.memDiffs.map fun ds => ds.map MemDiff.toPy

theorem lookup_intDict (items : List (String × Nat)) (name : String) :
    (items.map fun p => (p.1.toList, Value.int p.2)).lookup name.toList =
      (items.lookup name).map fun n => .int n := by
  induction items with
  | nil => rfl
  | cons p items ih =>
      obtain ⟨name', n⟩ := p
      rw [List.map_cons, List.lookup_cons, List.lookup_cons, ih]
      by_cases h : name = name'
      · subst h
        simp
      · have hne : name.toList ≠ name'.toList := fun htext => h (String.toList_inj.mp htext)
        rw [beq_eq_false_iff_ne.mpr hne, beq_eq_false_iff_ne.mpr h]

theorem intDict_eq (d e : Dict String Nat) :
    (intDict d.items).eq (intDict e.items) = (d == e) := by
  have hentries : ∀ items : List (String × Nat),
      Value.eqEntries (items.map fun p => (p.1.toList, Value.int p.2))
          (e.items.map fun p => (p.1.toList, Value.int p.2)) =
        items.all fun p => e.get? p.1 == some p.2 := by
    intro items
    induction items with
    | nil => rfl
    | cons p items ih =>
        obtain ⟨name, n⟩ := p
        rw [List.map_cons, Value.eqEntries, ih, List.all_cons, lookup_intDict]
        show _ = (e.items.lookup name == some n && _)
        cases e.items.lookup name with
        | none => rfl
        | some m =>
            have hcast : ((n : Int) == (m : Int)) = (some m == some n) := by
              rw [Bool.eq_iff_iff, beq_iff_eq, beq_iff_eq, Option.some_inj, Nat.cast_inj, eq_comm]
            rw [Option.map_some, ← hcast]
            show ((Value.int n).eq (.int m) && _) = _
            rw [Value.eq_int]
  rw [intDict, intDict, Value.eq, hentries, List.length_map, List.length_map]
  rfl

theorem memDiffEq_toPy {a b : MemDiff} : PyResult.memDiffEq a.toPy b.toPy = true ↔ a = b := by
  obtain ⟨start, n, val, checksum⟩ := a
  obtain ⟨start', n', val', checksum'⟩ := b
  simp [PyResult.memDiffEq, MemDiff.toPy, and_assoc]

theorem memDiffsEq_toPy {xs ys : Option (List MemDiff)} :
    PyResult.memDiffsEq (xs.map fun ds => ds.map MemDiff.toPy)
      (ys.map fun ds => ds.map MemDiff.toPy) = true ↔ xs = ys := by
  match xs, ys with
  | none, none => simp [PyResult.memDiffsEq]
  | none, some ys => simp [PyResult.memDiffsEq]
  | some xs, none => simp [PyResult.memDiffsEq]
  | some xs, some ys =>
      have hall : (xs.length = ys.length ∧ ((xs.map MemDiff.toPy).zip (ys.map MemDiff.toPy)).all
          (fun p => PyResult.memDiffEq p.1 p.2) = true) ↔ List.Forall₂ (· = ·) xs ys := by
        rw [List.forall₂_iff_zip, List.all_eq_true, List.zip_map]
        refine and_congr_right fun _ => ⟨fun h a b hab => ?_, fun h p hp => ?_⟩
        · exact memDiffEq_toPy.mp (h _ (List.mem_map_of_mem hab))
        · obtain ⟨⟨a, b⟩, hab, rfl⟩ := List.mem_map.mp hp
          exact memDiffEq_toPy.mpr (h hab)
      rw [Option.map_some, Option.map_some, PyResult.memDiffsEq, Bool.and_eq_true, beq_iff_eq,
        List.length_map, List.length_map, hall, List.forall₂_eq_eq_eq, Option.some_inj]

/-- Parsed results compare as the objects that they are. -/
theorem Result.toPy_eq (x y : Result κ) : x.toPy.eq y.toPy = x.eq y := by
  rw [Bool.eq_iff_iff, PyResult.eq_iff, Result.eq_iff]
  simp only [Result.toPy, Value.eq_int, beq_iff_eq, Nat.cast_inj, memDiffsEq_toPy, intDict_eq,
    Option.isSome_map]

/-- What is hashed of a parsed result: the numbers of `Result.hashKey`, as Python values. -/
theorem Result.hashKey_toPy (r : Result κ) :
    r.toPy.hashKey = some (.int r.signum, .int r.siAddr, .int r.siPc, .int r.siCode,
      {p | p ∈ r.regs.items.map fun p => (p.1.toList, Value.int p.2)},
      (r.memDiffs.getD []).map MemDiff.toPy) := by
  have hhashable : (r.regs.items.map fun p => (p.1.toList, Value.int p.2)).all
      (fun p => p.2.hashable) = true := by
    rw [List.all_eq_true]
    intro p hp
    obtain ⟨q, -, rfl⟩ := List.mem_map.mp hp
    rfl
  have hmem : (r.toPy.memDiffs.getD []) = (r.memDiffs.getD []).map MemDiff.toPy := by
    cases h : r.memDiffs <;> simp [Result.toPy, h]
  simp only [PyResult.hashKey, Result.toPy, intDict, PyResult.frozenItems, hhashable, if_true]
  rw [← hmem]
  rfl

end RISCover
