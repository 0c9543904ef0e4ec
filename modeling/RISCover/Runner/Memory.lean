import RISCover.Lib.MarkedRuns
import RISCover.Repro.Load
import RISCover.Result.Basic

/-!
# Memory under test

A mapping that is set up has a reference image `val` and a window `rw_mapping` through which the
runner sees what the tested code left in it. `cells` lists the bytes of some mappings one after the
other; a byte is `joined` to the one before it if that is its neighbour in memory.
-/

open Bytes MarkedRuns

namespace RISCover

/-- `struct mapping` once `setup_memory_mapping` is through with it. -/
structure LiveMapping extends Mapping where
  rwMapping : Bytes
  length_val : val.length = n.toNat
  length_rwMapping : rwMapping.length = n.toNat

/-- `rw_mapping[i]`, if `i` is within the mapping and `val[i]` is another byte. -/
def LiveMapping.changed (mapping : LiveMapping) (i : Nat) : Option UInt8 :=
  match mapping.rwMapping[i]?, mapping.val[i]? with
  | some new, some old => if new ≠ old then some new else none
  | _, _ => none

theorem LiveMapping.changed_of_eq {mapping : LiveMapping} {i : Nat}
    (h : mapping.rwMapping[i]? = mapping.val[i]?) : mapping.changed i = none := by
  rw [changed, h]
  cases mapping.val[i]? with
  | none => rfl
  | some b => exact if_neg (not_not_intro rfl)

theorem LiveMapping.lt_of_changed {mapping : LiveMapping} {i : Nat} {b : UInt8}
    (h : mapping.changed i = some b) : i < mapping.n.toNat := by
  by_contra hi
  have hval : mapping.val[i]? = none := List.getElem?_eq_none (by rw [mapping.length_val]; omega)
  have hrw : mapping.rwMapping[i]? = none :=
    List.getElem?_eq_none (by rw [mapping.length_rwMapping]; omega)
  rw [changed_of_eq (hrw.trans hval.symm)] at h
  cases h

theorem LiveMapping.changed_ne_none {mapping : LiveMapping} {i : Nat} (hi : i < mapping.n.toNat)
    (h : mapping.rwMapping[i]? ≠ mapping.val[i]?) : mapping.changed i ≠ none := by
  have hval : i < mapping.val.length := mapping.length_val ▸ hi
  have hrw : i < mapping.rwMapping.length := mapping.length_rwMapping ▸ hi
  rw [List.getElem?_eq_getElem hval, List.getElem?_eq_getElem hrw] at h
  rw [changed, List.getElem?_eq_getElem hval, List.getElem?_eq_getElem hrw]
  show (if _ then _ else _) ≠ none
  rw [if_pos fun heq => h (congrArg some heq)]
  nofun

/-- The next mapping is exactly adjacent and starts with a differing byte. -/
def LiveMapping.continuesIn (mapping : LiveMapping) : (next : Option LiveMapping) → Bool
  | none => false
  | some next =>
      next.start == mapping.start + mapping.n && decide (0 < next.n) && (next.changed 0).isSome

/-! ## The common prefix

The scan skips equal memory in chunks and then byte by byte, and stops at the first byte that
differs. -/

/-- The first loop of `memcmp_common_prefix`. -/
def skipChunks (a b : Bytes) (n i : Nat) : Nat :=
  if n - i ≥ 512 then
    if slice a i 512 = slice b i 512 then skipChunks a b n (i + 512) else i
  else i
termination_by n - i
decreasing_by omega

/-- The second loop of `memcmp_common_prefix`. -/
def skipBytes (a b : Bytes) (n i : Nat) : Nat :=
  if i < n ∧ a[i]? = b[i]? then skipBytes a b n (i + 1) else i
termination_by n - i

def memcmpCommonPrefix (a b : Bytes) (n : Nat) : Nat := skipBytes a b n (skipChunks a b n 0)

/-- The bytes in front of `k` agree and those at `k` do not, if there are any. -/
structure CommonPrefix (a b : Bytes) (n k : Nat) : Prop where
  le : k ≤ n
  agree : ∀ j < k, a[j]? = b[j]?
  stops : k < n → a[k]? ≠ b[k]?

theorem CommonPrefix.unique {a b : Bytes} {n k k' : Nat} (h : CommonPrefix a b n k)
    (h' : CommonPrefix a b n k') : k = k' := by
  rcases Nat.lt_trichotomy k k' with hlt | heq | hlt
  · exact absurd (h'.agree k hlt) (h.stops (hlt.trans_le h'.le))
  · exact heq
  · exact absurd (h.agree k' hlt) (h'.stops (hlt.trans_le h.le))

theorem commonPrefix_skipBytes {a b : Bytes} {n i : Nat} (hle : i ≤ n)
    (h : ∀ j < i, a[j]? = b[j]?) : CommonPrefix a b n (skipBytes a b n i) := by
  fun_induction skipBytes a b n i with
  | case1 i hi ih =>
      apply ih hi.1
      intro j hj
      rcases Nat.lt_succ_iff_lt_or_eq.mp hj with hj | rfl
      · exact h j hj
      · exact hi.2
  | case2 i hi => exact ⟨hle, h, fun hlt heq => hi ⟨hlt, heq⟩⟩

theorem skipChunks_agree {a b : Bytes} {n i : Nat} (hle : i ≤ n) (h : ∀ j < i, a[j]? = b[j]?) :
    skipChunks a b n i ≤ n ∧ ∀ j < skipChunks a b n i, a[j]? = b[j]? := by
  fun_induction skipChunks a b n i with
  | case1 i hi heq ih =>
      apply ih (by omega)
      intro j hj
      by_cases hji : j < i
      · exact h j hji
      · -- within the chunk that was compared
        have hchunk := congrArg (fun chunk : Bytes => chunk[j - i]?) heq
        have hlt : j - i < 512 := by omega
        have hadd : i + (j - i) = j := by omega
        simpa only [slice, List.getElem?_take, if_pos hlt, List.getElem?_drop, hadd] using hchunk
  | case2 i hi hne => exact ⟨hle, h⟩
  | case3 i hi => exact ⟨hle, h⟩

theorem commonPrefix_memcmpCommonPrefix (a b : Bytes) (n : Nat) :
    CommonPrefix a b n (memcmpCommonPrefix a b n) := by
  obtain ⟨hle, hagree⟩ := skipChunks_agree (a := a) (b := b) (Nat.zero_le n) (nofun)
  exact commonPrefix_skipBytes hle hagree

/-- Comparing in chunks first makes no difference. -/
theorem memcmpCommonPrefix_eq (a b : Bytes) (n : Nat) :
    memcmpCommonPrefix a b n = skipBytes a b n 0 :=
  (commonPrefix_memcmpCommonPrefix a b n).unique (commonPrefix_skipBytes (Nat.zero_le n) nofun)

/-- `memcmp_common_prefix` from byte `i` on. -/
def LiveMapping.equalFrom (mapping : LiveMapping) (i : Nat) : Nat :=
  memcmpCommonPrefix (mapping.rwMapping.drop i) (mapping.val.drop i) (mapping.n.toNat - i)

theorem LiveMapping.equalFrom_spec (mapping : LiveMapping) {i : Nat} (hi : i < mapping.n.toNat) :
    i + mapping.equalFrom i ≤ mapping.n.toNat ∧
      (∀ j < mapping.equalFrom i, mapping.changed (i + j) = none) ∧
      (i + mapping.equalFrom i < mapping.n.toNat →
        mapping.changed (i + mapping.equalFrom i) ≠ none) := by
  obtain ⟨hle, hagree, hstops⟩ := commonPrefix_memcmpCommonPrefix (mapping.rwMapping.drop i)
    (mapping.val.drop i) (mapping.n.toNat - i)
  change mapping.equalFrom i ≤ _ at hle
  refine ⟨by omega, fun j hj => ?_, fun hlt => ?_⟩
  · have heq := hagree j hj
    rw [List.getElem?_drop, List.getElem?_drop] at heq
    exact changed_of_eq heq
  · have hne := hstops (show mapping.equalFrom i < _ by omega)
    rw [List.getElem?_drop, List.getElem?_drop] at hne
    exact changed_ne_none hlt hne

/-! ## The bytes of some mappings

A byte knows whether it follows on the byte before it, and whether it differs from the reference. -/

/-- One byte: where it is, what it was and what it is. -/
structure Cell where
  addr : UInt64
  old : UInt8
  new : UInt8
  /-- The byte in front of it in the list is the one in front of it in memory. -/
  joined : Bool
  deriving DecidableEq

def Cell.differs (c : Cell) : Bool := c.new != c.old

def LiveMapping.cells (mapping : LiveMapping) (joined : Bool) : List Cell :=
  (mapping.val.zip mapping.rwMapping).mapIdx fun i p =>
    ⟨mapping.start + UInt64.ofNat i, p.1, p.2, joined || decide (0 < i)⟩

/-- The mapping starts where the one before it in the list ends. -/
def LiveMapping.follows (mapping : LiveMapping) : (prev : Option LiveMapping) → Bool
  | none => false
  | some prev => decide (0 < prev.n) && mapping.start == prev.start + prev.n

def cellsAfter : (prev : Option LiveMapping) → List LiveMapping → List Cell
  | _, [] => []
  | prev, mapping :: ms => mapping.cells (mapping.follows prev) ++ cellsAfter (some mapping) ms

/-- The bytes of all mappings. -/
def cells (ms : List LiveMapping) : List Cell := cellsAfter none ms

/-- The maximal runs of bytes that differ from the reference. -/
def changedRuns (ms : List LiveMapping) : List (List Cell) :=
  markedRuns Cell.differs (fun _ c => c.joined) (cells ms)

/-- How many bytes lie in front of mapping `m`. -/
def offset (ms : List LiveMapping) (m : Nat) : Nat := ((ms.take m).map fun m => m.n.toNat).sum

@[simp] theorem LiveMapping.length_cells (mapping : LiveMapping) (joined : Bool) :
    (mapping.cells joined).length = mapping.n.toNat := by
  simp [cells, mapping.length_val, mapping.length_rwMapping]

@[simp] theorem offset_zero (ms : List LiveMapping) : offset ms 0 = 0 := rfl

theorem offset_cons_succ (mapping : LiveMapping) (ms : List LiveMapping) (m : Nat) :
    offset (mapping :: ms) (m + 1) = mapping.n.toNat + offset ms m := rfl

theorem offset_succ {ms : List LiveMapping} {m : Nat} {mapping : LiveMapping}
    (h : ms[m]? = some mapping) : offset ms (m + 1) = offset ms m + mapping.n.toNat := by
  rw [offset, List.take_add_one, h]
  simp [offset]

theorem offset_add_le {ms : List LiveMapping} {m : Nat} {mapping : LiveMapping}
    (h : ms[m]? = some mapping) : offset ms m + mapping.n.toNat ≤ offset ms ms.length := by
  induction ms generalizing m with
  | nil => cases h
  | cons first ms ih =>
      cases m with
      | zero =>
          obtain rfl : first = mapping := Option.some.inj h
          rw [offset_zero, List.length_cons, offset_cons_succ]
          omega
      | succ m =>
          have hrest : offset ms m + mapping.n.toNat ≤ offset ms ms.length := ih h
          rw [offset_cons_succ, List.length_cons, offset_cons_succ]
          omega

theorem length_cellsAfter (prev : Option LiveMapping) (ms : List LiveMapping) :
    (cellsAfter prev ms).length = offset ms ms.length := by
  induction ms generalizing prev with
  | nil => rfl
  | cons mapping ms ih =>
      rw [cellsAfter, List.length_append, ih, mapping.length_cells, List.length_cons,
        offset_cons_succ]

theorem length_cells (ms : List LiveMapping) : (cells ms).length = offset ms ms.length :=
  length_cellsAfter none ms

/-- The mapping in front of mapping `m`. -/
def previous (ms : List LiveMapping) : Nat → Option LiveMapping
  | 0 => none
  | m + 1 => ms[m]?

theorem getElem?_cellsAfter {ms : List LiveMapping} {m : Nat} {mapping : LiveMapping}
    (h : ms[m]? = some mapping) (prev : Option LiveMapping) {i : Nat} (hi : i < mapping.n.toNat) :
    (cellsAfter prev ms)[offset ms m + i]? =
      (mapping.cells (mapping.follows (if m = 0 then prev else previous ms m)))[i]? := by
  induction ms generalizing prev m with
  | nil => cases h
  | cons first ms ih =>
      cases m with
      | zero =>
          obtain rfl : first = mapping := Option.some.inj h
          rw [offset_zero, Nat.zero_add, cellsAfter, if_pos rfl]
          exact List.getElem?_append_left (by rwa [first.length_cells])
      | succ m =>
          rw [offset_cons_succ, cellsAfter, List.getElem?_append_right (by
            rw [first.length_cells]; omega), first.length_cells, if_neg (Nat.succ_ne_zero m)]
          have hidx : first.n.toNat + offset ms m + i - first.n.toNat = offset ms m + i := by omega
          rw [hidx, ih h (some first)]
          cases m with
          | zero => rfl
          | succ m => rfl

theorem LiveMapping.getElem?_cells (mapping : LiveMapping) (joined : Bool) {i : Nat}
    (hi : i < mapping.n.toNat) : ∃ c, (mapping.cells joined)[i]? = some c ∧
      c.addr = mapping.start + UInt64.ofNat i ∧ c.joined = (joined || decide (0 < i)) ∧
      mapping.changed i = if c.differs then some c.new else none := by
  have hval : i < mapping.val.length := mapping.length_val ▸ hi
  have hrw : i < mapping.rwMapping.length := mapping.length_rwMapping ▸ hi
  refine ⟨⟨mapping.start + UInt64.ofNat i, mapping.val[i], mapping.rwMapping[i],
    joined || decide (0 < i)⟩, ?_, rfl, rfl, ?_⟩
  · simp [LiveMapping.cells, hval, hrw]
  · rw [LiveMapping.changed, List.getElem?_eq_getElem hval, List.getElem?_eq_getElem hrw]
    simp only [Cell.differs, bne_iff_ne]

/-- The byte `i` of mapping `m`. -/
theorem exists_cell {ms : List LiveMapping} {m : Nat} {mapping : LiveMapping}
    (h : ms[m]? = some mapping) {i : Nat} (hi : i < mapping.n.toNat) :
    ∃ c, (cells ms)[offset ms m + i]? = some c ∧ c.addr = mapping.start + UInt64.ofNat i ∧
      c.joined = (mapping.follows (previous ms m) || decide (0 < i)) ∧
      mapping.changed i = if c.differs then some c.new else none := by
  obtain ⟨c, hc, hrest⟩ := mapping.getElem?_cells (mapping.follows (previous ms m)) hi
  refine ⟨c, ?_, hrest⟩
  rw [cells, getElem?_cellsAfter h none hi, ← hc]
  cases m with
  | zero => rfl
  | succ m => rfl

theorem cell_spec {ms : List LiveMapping} {m : Nat} {mapping : LiveMapping}
    (h : ms[m]? = some mapping) {i : Nat} (hi : i < mapping.n.toNat) {c : Cell}
    (hc : (cells ms)[offset ms m + i]? = some c) :
    c.addr = mapping.start + UInt64.ofNat i ∧
      c.joined = (mapping.follows (previous ms m) || decide (0 < i)) ∧
      mapping.changed i = if c.differs then some c.new else none := by
  obtain ⟨c', hc', hspec⟩ := exists_cell h hi
  obtain rfl : c' = c := Option.some.inj (hc'.symm.trans hc)
  exact hspec

theorem differs_of_changed {ms : List LiveMapping} {m : Nat} {mapping : LiveMapping}
    (h : ms[m]? = some mapping) {i : Nat} (hi : i < mapping.n.toNat) {c : Cell}
    (hc : (cells ms)[offset ms m + i]? = some c) {b : UInt8} (hb : mapping.changed i = some b) :
    c.differs = true ∧ c.new = b := by
  obtain ⟨-, -, hchanged⟩ := cell_spec h hi hc
  rw [hb] at hchanged
  split at hchanged
  next hdiffers => exact ⟨hdiffers, (Option.some.inj hchanged).symm⟩
  next => cases hchanged

theorem differs_eq_false_of_changed {ms : List LiveMapping} {m : Nat} {mapping : LiveMapping}
    (h : ms[m]? = some mapping) {i : Nat} (hi : i < mapping.n.toNat) {c : Cell}
    (hc : (cells ms)[offset ms m + i]? = some c) (hnone : mapping.changed i = none) :
    c.differs = false := by
  obtain ⟨-, -, hchanged⟩ := cell_spec h hi hc
  rw [hnone] at hchanged
  split at hchanged
  next => cases hchanged
  next hdiffers => exact Bool.eq_false_iff.mpr hdiffers

/-- There is no byte behind the last mapping. -/
theorem getElem?_cells_offset {ms : List LiveMapping} {m : Nat} (h : ms.length ≤ m) :
    (cells ms)[offset ms m]? = none := by
  rw [List.getElem?_eq_none_iff, length_cells, offset, offset, List.take_length,
    List.take_of_length_le h]

/-- A mapping that is its reference image. -/
theorem differs_eq_false_of_unchanged {mapping : LiveMapping}
    (h : mapping.rwMapping = mapping.val) {c : Cell} (hc : c ∈ cells [mapping]) :
    c.differs = false := by
  obtain ⟨i, hi⟩ := List.mem_iff_getElem?.mp hc
  have hlt : i < mapping.n.toNat := by
    have hlen := (List.getElem?_eq_some_iff.mp hi).1
    rwa [length_cells, List.length_singleton, offset_cons_succ] at hlen
  rw [← Nat.zero_add i, ← offset_zero [mapping]] at hi
  exact differs_eq_false_of_changed (show [mapping][0]? = some mapping from rfl) hlt hi
    (LiveMapping.changed_of_eq (congrArg (·[i]?) h))

/-- Behind an empty mapping nothing goes on. -/
theorem joined_eq_false_of_empty {ms : List LiveMapping} {m : Nat} {mapping : LiveMapping}
    (h : ms[m]? = some mapping) (hempty : mapping.n.toNat = 0) {c : Cell}
    (hc : (cells ms)[offset ms (m + 1)]? = some c) : c.joined = false := by
  cases hnext : ms[m + 1]? with
  | none =>
      rw [getElem?_cells_offset (List.getElem?_eq_none_iff.mp hnext)] at hc
      cases hc
  | some next =>
      by_cases hn : next.n.toNat = 0
      · rw [← Nat.add_zero (offset ms (m + 1)), ← hn, ← offset_succ hnext] at hc
        exact joined_eq_false_of_empty hnext hn hc
      · obtain ⟨-, hjoined, -⟩ := cell_spec hnext (Nat.pos_of_ne_zero hn) hc
        have hzero : ¬0 < mapping.n := by
          rw [UInt64.lt_iff_toNat_lt, hempty]
          exact Nat.lt_irrefl 0
        rw [hjoined, previous, h, LiveMapping.follows]
        simp [hzero]
termination_by ms.length - m
decreasing_by
  have hlt := (List.getElem?_eq_some_iff.mp h).1
  omega

/-- Where a mapping ends, a run that reached its end goes on only by `continuesIn`. -/
theorem differs_and_joined_iff {ms : List LiveMapping} {m : Nat} {mapping : LiveMapping}
    (h : ms[m]? = some mapping) (hne : 0 < mapping.n.toNat) :
    (∃ c, (cells ms)[offset ms (m + 1)]? = some c ∧ c.differs = true ∧ c.joined = true) ↔
      mapping.continuesIn ms[m + 1]? = true := by
  cases hnext : ms[m + 1]? with
  | none =>
      refine ⟨?_, nofun⟩
      rintro ⟨c, hc, -⟩
      rw [getElem?_cells_offset (List.getElem?_eq_none_iff.mp hnext)] at hc
      cases hc
  | some next =>
      -- an empty mapping has no first byte, and the byte behind it follows on nothing
      by_cases hn : next.n.toNat = 0
      · have hzero : ¬0 < next.n := by
          rw [UInt64.lt_iff_toNat_lt, hn]
          exact Nat.lt_irrefl 0
        constructor
        · rintro ⟨c, hc, -, hjoined⟩
          rw [← Nat.add_zero (offset ms (m + 1)), ← hn, ← offset_succ hnext] at hc
          rw [joined_eq_false_of_empty hnext hn hc] at hjoined
          cases hjoined
        · intro hcont
          simp [LiveMapping.continuesIn, hzero] at hcont
      · obtain ⟨c, hc, -, hjoined, hchanged⟩ := exists_cell hnext (Nat.pos_of_ne_zero hn)
        have hpos : 0 < next.n := by
          rw [UInt64.lt_iff_toNat_lt]
          exact Nat.pos_of_ne_zero hn
        have hposm : 0 < mapping.n := by
          rw [UInt64.lt_iff_toNat_lt]
          exact hne
        -- the first byte of the next mapping is joined when its address is the one behind
        have hfollows : c.joined = (next.start == mapping.start + mapping.n) := by
          rw [hjoined, previous, h, LiveMapping.follows]
          simp [hposm]
        have hdiffers : (next.changed 0).isSome = c.differs := by
          rw [hchanged]
          cases c.differs <;> rfl
        rw [LiveMapping.continuesIn, hdiffers, ← hfollows]
        rw [Nat.add_zero] at hc
        constructor
        · rintro ⟨c', hc', h₁, h₂⟩
          obtain rfl : c' = c := Option.some.inj (hc'.symm.trans hc)
          simp [h₁, h₂, hpos]
        · intro hcont
          rw [Bool.and_eq_true, Bool.and_eq_true] at hcont
          exact ⟨c, hc, hcont.2, hcont.1.1⟩

end RISCover
