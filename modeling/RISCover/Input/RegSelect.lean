import Mathlib.Data.List.Zip
import RISCover.Input.Basic

/-!
# Inputs that select register values (`WITH_REGS`)

`InputWithRegSelect` names the value of each register by its index in the table of fuzzing values;
a vector register has one index for each of its 64-bit words. Both sides look the indices up, the
server in `decode_regs` and the client while it walks the batch.
-/

open Bytes StructPack

namespace RISCover

/-- The tables `fuzzing_value_map_gp` and `fuzzing_value_map_fp`, the same on both sides. Their
indices are bytes. -/
structure FuzzingValueMap where
  gp : List UInt64
  fp : List UInt64
  gp_le : gp.length ≤ 256
  fp_le : fp.length ≤ 256

/-- Class `InputWithRegSelect`. -/
structure InputWithRegSelect extends FullInput where
  regSelectGp : List Nat
  regSelectFp : Option (List Nat)
  regSelectVec : Option (List Nat)

/-- Indices for the words of one vector register. -/
def wordsPerVec : Nat := VEC_REG_SIZE / 8

namespace InputWithRegSelect

/-! ## The server

A selector is one byte, so the tables have at most 256 values. -/

/-- `input_with_reg_select_bytes`. -/
def inputWithRegSelectBytes (c : RegConfig) : Nat :=
  c.arch.gp.length + (if c.FLOATS then c.arch.fp.length else 0) +
    (if c.VECTOR then pyVec.length * VEC_REG_SIZE / 8 else 0)

/-- `format_string`. -/
def formatString (c : RegConfig) : Format := [(inputWithRegSelectBytes c, .B), (0, .B)]

/-- `pack`. -/
def pack (c : RegConfig) (inp : InputWithRegSelect) : Option Bytes :=
  let superFormatString := inp.getFormatString
  let superArgs := inp.getPackArgs
  match inp.regSelectVec, inp.regSelectFp with
  | some vec, some fp =>
      StructPack.pack (formatString c ++ superFormatString)
        (ints inp.regSelectGp ++ ints fp ++ ints vec ++ superArgs)
  | none, some fp =>
      StructPack.pack (formatString c ++ superFormatString)
        (ints inp.regSelectGp ++ ints fp ++ superArgs)
  | some vec, none =>
      StructPack.pack (formatString c ++ superFormatString)
        (ints inp.regSelectGp ++ ints vec ++ superArgs)
  | none, none =>
      StructPack.pack (formatString c ++ superFormatString) (ints inp.regSelectGp ++ superArgs)

/-- `for j, r in zip(sel, names): regs[r] = table[j]`. -/
def decodeSelects (table : List UInt64) (sel : List Nat) (names : List String)
    (regs : Dict String Nat) : Option (Dict String Nat) :=
  (sel.zip names).foldlM (fun regs p => (table[p.1]?).map fun v => regs.set p.2 v.toNat) regs

/-- The value of the `i`th vector register: its words, the last one first. -/
def decodeVec (table : List UInt64) (sel : List Nat) (i : Nat) : Option Nat :=
  ((sel.drop (i * wordsPerVec)).take wordsPerVec).reverse.foldlM
    (fun v j => (table[j]?).map fun w => v <<< 64 ||| w.toNat) 0

/-- `for i, v in enumerate(vec)`. -/
def decodeVecs (table : List UInt64) (sel : List Nat) (regs : Dict String Nat) :
    Option (Dict String Nat) :=
  pyVec.zipIdx.foldlM (fun regs p => (decodeVec table sel p.2).map fun v => regs.set p.1 v) regs

/-- An optional block of `decode_regs`. -/
def ifGiven (sel : Option (List Nat))
    (decode : List Nat → Dict String Nat → Option (Dict String Nat)) (regs : Dict String Nat) :
    Option (Dict String Nat) :=
  match sel with
  | some sel => decode sel regs
  | none => some regs

/-- `decode_regs`. -/
def decodeRegs (c : RegConfig) (map : FuzzingValueMap) (inp : InputWithRegSelect) :
    Option (Dict String Nat) := do
  let regs ← decodeSelects map.gp inp.regSelectGp c.arch.gp Dict.empty
  let regs ← ifGiven inp.regSelectFp (fun sel => decodeSelects map.fp sel c.arch.fp) regs
  let regs ← ifGiven inp.regSelectVec (decodeVecs map.gp) regs
  match c.arch with
  | .riscv64 => pure (regs.set "fcsr" 0)
  | .aarch64 => pure ((regs.set "pstate" 0).set "fpsr" 0)

end InputWithRegSelect

/-! ## The client

The table has the values in the order of the server's list. The selectors of a vector register are
those of the general registers' table, one for each of its words. -/

/-- The loop that looks an array of selectors up. -/
def lookUp (table : List UInt64) (sel : Bytes) : Option (List UInt64) :=
  sel.mapM fun b => table[b.toNat]?

/-- The number in a vector register whose words are written one by one. -/
def vecOfWords (words : List UInt64) (i : Nat) : Nat :=
  ofLeBytes (((words.drop (i * wordsPerVec)).take wordsPerVec).flatMap fun w => leBytes 8 w.toNat)

/-- Bytes of selectors in `struct input`. -/
def selectBytes (c : RegConfig) : Nat := c.count .gp + c.count .fp + wordsPerVec * c.count .vec

/-- The registers the client makes of the selectors; the control registers are zeroed. -/
def loadSelects (c : RegConfig) (map : FuzzingValueMap) (head : Bytes) : Option (Regs c) := do
  let gp ← lookUp map.gp (slice head 0 (c.count .gp))
  let fp ← lookUp map.fp (slice head (c.count .gp) (c.count .fp))
  let vec ← lookUp map.gp (slice head (c.count .gp + c.count .fp) (wordsPerVec * c.count .vec))
  pure (Regs.ofLists c fun
    | .gp => gp.map UInt64.toNat
    | .fp => fp.map UInt64.toNat
    | .vec => (List.range (c.count .vec)).map (vecOfWords vec)
    | k => List.replicate (c.count k) 0)

/-- The walk over a batch of `n` inputs. -/
def walkRegSelect (c : RegConfig) (map : FuzzingValueMap) (data : Bytes) (n : Nat) :
    Option (List (Exec c) × Nat) :=
  walkInputs (selectBytes c) (loadSelects c map) data n 0

/-! ## What the selectors mean

`Carries` says that an input has selectors for the classes of the build, and that each is within its
table. -/

/-- The selectors stay within a table. -/
def Within (table : List UInt64) (sel : List Nat) : Prop := ∀ j ∈ sel, j < table.length

/-- The selected values. -/
def selected (table : List UInt64) (sel : List Nat) : List UInt64 := sel.map fun j => table.getD j 0

namespace InputWithRegSelect

variable {c : RegConfig} {map : FuzzingValueMap} {inp : InputWithRegSelect}

/-- The input carries the selector arrays of the configuration. -/
structure Carries (c : RegConfig) (map : FuzzingValueMap) (inp : InputWithRegSelect) : Prop where
  gp_length : inp.regSelectGp.length = c.count .gp
  gp_within : Within map.gp inp.regSelectGp
  fp_isSome : inp.regSelectFp.isSome = c.FLOATS
  fp_length : ∀ sel, inp.regSelectFp = some sel → sel.length = c.count .fp
  fp_within : ∀ sel, inp.regSelectFp = some sel → Within map.fp sel
  vec_isSome : inp.regSelectVec.isSome = c.VECTOR
  vec_length : ∀ sel, inp.regSelectVec = some sel → sel.length = wordsPerVec * c.count .vec
  vec_within : ∀ sel, inp.regSelectVec = some sel → Within map.gp sel

def fpSelectors (inp : InputWithRegSelect) : List Nat := inp.regSelectFp.getD []

def vecSelectors (inp : InputWithRegSelect) : List Nat := inp.regSelectVec.getD []

/-- The selectors in the order of `struct input`. -/
def head (inp : InputWithRegSelect) : Bytes :=
  (inp.regSelectGp ++ inp.fpSelectors ++ inp.vecSelectors).map UInt8.ofNat

/-- The register values an input stands for. -/
def values (c : RegConfig) (map : FuzzingValueMap) (inp : InputWithRegSelect) :
    RegClass → List Nat
  | .gp => (selected map.gp inp.regSelectGp).map UInt64.toNat
  | .fp => (selected map.fp inp.fpSelectors).map UInt64.toNat
  | .vec => (List.range (c.count .vec)).map (vecOfWords (selected map.gp inp.vecSelectors))
  | k => List.replicate (c.count k) 0

theorem Carries.fpSelectors_length (h : Carries c map inp) :
    inp.fpSelectors.length = c.count .fp := by
  unfold fpSelectors
  cases hsel : inp.regSelectFp with
  | some sel => exact h.fp_length sel hsel
  | none =>
      have hoff : c.FLOATS = false := by rw [← h.fp_isSome, hsel]; rfl
      simp [RegConfig.count, hoff]

theorem Carries.fpSelectors_within (h : Carries c map inp) : Within map.fp inp.fpSelectors := by
  unfold fpSelectors
  cases hsel : inp.regSelectFp with
  | some sel => exact h.fp_within sel hsel
  | none => exact fun j hj => by cases hj

theorem Carries.vecSelectors_length (h : Carries c map inp) :
    inp.vecSelectors.length = wordsPerVec * c.count .vec := by
  unfold vecSelectors
  cases hsel : inp.regSelectVec with
  | some sel => exact h.vec_length sel hsel
  | none =>
      have hoff : c.VECTOR = false := by rw [← h.vec_isSome, hsel]; rfl
      simp [RegConfig.count, hoff]

theorem Carries.vecSelectors_within (h : Carries c map inp) : Within map.gp inp.vecSelectors := by
  unfold vecSelectors
  cases hsel : inp.regSelectVec with
  | some sel => exact h.vec_within sel hsel
  | none => exact fun j hj => by cases hj

theorem Carries.length_head (h : Carries c map inp) : inp.head.length = selectBytes c := by
  simp only [head, List.length_map, List.length_append, h.gp_length, h.fpSelectors_length,
    h.vecSelectors_length, selectBytes]

theorem Carries.length_values (h : Carries c map inp) (k : RegClass) :
    (inp.values c map k).length = c.count k := by
  cases k with
  | gp => simpa [values, selected] using h.gp_length
  | fp => simpa [values, selected] using h.fpSelectors_length
  | vec => simp [values]
  | pstate => simp [values]
  | fcsr => simp [values]
  | fpsr => simp [values]

end InputWithRegSelect

theorem vecOfWords_lt (words : List UInt64) (i : Nat) :
    vecOfWords words i < 256 ^ VEC_REG_SIZE := by
  refine (ofLeBytes_lt _).trans_le (Nat.pow_le_pow_right (by decide) ?_)
  have hlen : ∀ ws : List UInt64,
      (ws.flatMap fun w => leBytes 8 w.toNat).length = 8 * ws.length := by
    intro ws
    rw [List.length_flatMap]
    simp [Nat.mul_comm]
  have htake : ((words.drop (i * wordsPerVec)).take wordsPerVec).length ≤ wordsPerVec :=
    List.length_take_le _ _
  rw [hlen]
  exact (Nat.mul_le_mul_left 8 htake).trans (by decide)

namespace InputWithRegSelect

variable {c : RegConfig} {map : FuzzingValueMap} {inp : InputWithRegSelect}

theorem values_lt (c : RegConfig) (map : FuzzingValueMap) (inp : InputWithRegSelect)
    (k : RegClass) : ∀ v ∈ inp.values c map k, v < 256 ^ k.size := by
  intro v hv
  have hword : ∀ l : List UInt64, v ∈ l.map UInt64.toNat → v < 256 ^ 8 := by
    intro l hl
    obtain ⟨w, _, rfl⟩ := List.mem_map.mp hl
    exact w.toNat_lt
  have hzero : ∀ n, v ∈ List.replicate n 0 → v < 256 ^ 8 := by
    intro n hn
    rw [List.eq_of_mem_replicate hn]
    decide
  cases k with
  | gp => exact hword _ hv
  | fp => exact hword _ hv
  | vec =>
      obtain ⟨i, _, rfl⟩ := List.mem_map.mp hv
      exact vecOfWords_lt _ i
  | pstate => exact hzero _ hv
  | fcsr => exact hzero _ hv
  | fpsr => exact hzero _ hv

/-! ## Both sides compute these values

What is looked up in the table by the client is what the server takes for the value of the register.
-/

theorem selectBytes_eq (c : RegConfig) : inputWithRegSelectBytes c = selectBytes c := by
  rcases c with ⟨_ | _, _ | _, _ | _, h⟩ <;> revert h <;> decide

/-- A packed input is its selectors and its instructions; only the length of the sequence can make
packing fail. -/
theorem pack_eq_some (h : Carries c map inp) (bs : Bytes) :
    pack c inp = some bs ↔
      inp.seqLen ≤ 255 ∧ bs = inputBytes inp.head inp.seqLen inp.fullSeq inp.getInstrSeq := by
  -- the selectors are below the size of their table, so each is a byte
  have hbytes : ∀ j ∈ inp.regSelectGp ++ inp.fpSelectors ++ inp.vecSelectors, j < 256 := by
    intro j hj
    simp only [List.mem_append] at hj
    rcases hj with (hgp | hfp) | hvec
    · exact (h.gp_within j hgp).trans_le map.gp_le
    · exact (h.fpSelectors_within j hfp).trans_le map.fp_le
    · exact (h.vecSelectors_within j hvec).trans_le map.gp_le
  have hlen : (inp.regSelectGp ++ inp.fpSelectors ++ inp.vecSelectors).length =
      inputWithRegSelectBytes c := by
    rw [selectBytes_eq, ← h.length_head, head, List.length_map]
  have hpack : pack c inp = packItems (formatString c ++ inp.getFormatString) []
      (ints (inp.regSelectGp ++ inp.fpSelectors ++ inp.vecSelectors) ++ inp.getPackArgs) := by
    unfold pack StructPack.pack fpSelectors vecSelectors ints
    cases inp.regSelectVec <;> cases inp.regSelectFp <;> simp
  -- a class without selectors writes nothing
  have hnone : packItems ((0, .B) :: inp.getFormatString) inp.head inp.getPackArgs =
      packItems inp.getFormatString (inp.head ++ []) inp.getPackArgs :=
    packItems_bytes (rfl : ([] : List Nat).length = 0) (by simp) inp.getFormatString inp.head
      inp.getPackArgs
  have hhead : packItems ((0, .B) :: inp.getFormatString) ([] ++ inp.head) inp.getPackArgs =
      some bs ↔ inp.seqLen ≤ 255 ∧
        bs = inputBytes inp.head inp.seqLen inp.fullSeq inp.getInstrSeq := by
    rw [List.nil_append, hnone, List.append_nil, packItems_fullInput]
  rw [hpack, formatString, List.cons_append, packItems_bytes hlen hbytes]
  exact hhead

end InputWithRegSelect

theorem lookUp_ofNat {table : List UInt64} {sel : List Nat} (hle : table.length ≤ 256)
    (h : Within table sel) : lookUp table (sel.map UInt8.ofNat) = some (selected table sel) := by
  induction sel with
  | nil => rfl
  | cons j sel ih =>
      have hj : j < table.length := h j List.mem_cons_self
      have hbyte : (UInt8.ofNat j).toNat = j := by simp; omega
      have hrest := ih fun x hx => h x (List.mem_cons_of_mem j hx)
      rw [lookUp] at hrest ⊢
      rw [List.map_cons, List.mapM_cons, hbyte, hrest, List.getElem?_eq_getElem hj]
      simp [selected, hj]

/-- The client loads the values of the input. -/
theorem loadSelects_head {c : RegConfig} {map : FuzzingValueMap} {inp : InputWithRegSelect}
    (h : inp.Carries c map) :
    loadSelects c map inp.head = some (Regs.ofLists c (inp.values c map)) := by
  have hhead : inp.head = inp.regSelectGp.map UInt8.ofNat ++ (inp.fpSelectors.map UInt8.ofNat ++
      inp.vecSelectors.map UInt8.ofNat) := by
    simp [InputWithRegSelect.head]
  have hgp : slice inp.head 0 (c.count .gp) = inp.regSelectGp.map UInt8.ofNat := by
    rw [hhead, ← h.gp_length, slice, List.drop_zero, List.take_left' (by simp)]
  have hfp : slice inp.head (c.count .gp) (c.count .fp) = inp.fpSelectors.map UInt8.ofNat := by
    rw [hhead, ← h.gp_length, ← h.fpSelectors_length, slice, List.drop_left' (by simp),
      List.take_left' (by simp)]
  have hvec : slice inp.head (c.count .gp + c.count .fp) (wordsPerVec * c.count .vec) =
      inp.vecSelectors.map UInt8.ofNat := by
    rw [hhead, ← h.gp_length, ← h.fpSelectors_length, ← h.vecSelectors_length, ← List.append_assoc,
      slice, List.drop_left' (by simp), List.take_of_length_le (by simp)]
  rw [loadSelects, hgp, hfp, hvec, lookUp_ofNat map.gp_le h.gp_within,
    lookUp_ofNat map.fp_le h.fpSelectors_within, lookUp_ofNat map.gp_le h.vecSelectors_within]
  show some (Regs.ofLists c _) = some (Regs.ofLists c _)
  congr 2

namespace InputWithRegSelect

theorem decodeSelects_eq {table : List UInt64} {sel : List Nat} (h : Within table sel)
    (names : List String) (regs : Dict String Nat) :
    decodeSelects table sel names regs =
      some ((names.zip ((selected table sel).map UInt64.toNat)).foldl
        (fun d p => d.set p.1 p.2) regs) := by
  have hloop := Dict.foldlM_set (h := fun p => table.getD p.1 0) Prod.snd UInt64.toNat
    (sel.zip names) (g := fun p => table[p.1]?) (by
      rintro ⟨j, name⟩ hp
      have hj := h j (List.of_mem_zip hp).1
      simp [hj]) regs
  have hitems : (sel.zip names).map (fun p => (p.2, (table.getD p.1 0).toNat)) =
      names.zip ((selected table sel).map UInt64.toNat) := by
    rw [selected, List.map_map, List.zip_map_right, ← List.zip_swap, List.map_map]
    rfl
  rw [decodeSelects, hloop, hitems]

/-- Shifting the words in from the last one spells the number in the register's memory. -/
theorem foldl_shift_words (words : List UInt64) :
    words.reverse.foldl (fun v w => v <<< 64 ||| w.toNat) 0 =
      ofLeBytes (words.flatMap fun w => leBytes 8 w.toNat) := by
  induction words with
  | nil => rfl
  | cons w words ih =>
      have hw : w.toNat < 2 ^ 64 := w.toNat_lt
      rw [List.reverse_cons, List.foldl_append, ih, List.flatMap_cons, ofLeBytes_append,
        ofLeBytes_leBytes_of_lt hw, length_leBytes, List.foldl_cons, List.foldl_nil,
        ← Nat.shiftLeft_add_eq_or_of_lt hw, Nat.shiftLeft_eq]
      omega

theorem decodeVec_eq {table : List UInt64} {sel : List Nat} (h : Within table sel) (i : Nat) :
    decodeVec table sel i = some (vecOfWords (selected table sel) i) := by
  have hfold : ∀ (l : List Nat) (v : Nat), (∀ j ∈ l, j < table.length) →
      l.foldlM (fun v j => (table[j]?).map fun w => v <<< 64 ||| w.toNat) v =
        some ((selected table l).foldl (fun v w => v <<< 64 ||| w.toNat) v) := by
    intro l
    induction l with
    | nil => intro v _; rfl
    | cons j l ih =>
        intro v hl
        have hj : j < table.length := hl j List.mem_cons_self
        have hrest := ih (v <<< 64 ||| (table.getD j 0).toNat)
          fun x hx => hl x (List.mem_cons_of_mem j hx)
        rw [List.foldlM_cons, List.getElem?_eq_getElem hj]
        simpa [selected, hj] using hrest
  have hpart : ∀ j ∈ ((sel.drop (i * wordsPerVec)).take wordsPerVec).reverse, j < table.length := by
    intro j hj
    rw [List.mem_reverse] at hj
    exact h j (List.mem_of_mem_drop (List.mem_of_mem_take hj))
  rw [decodeVec, hfold _ 0 hpart, vecOfWords, ← foldl_shift_words]
  simp [selected, List.map_reverse, List.map_take, List.map_drop]

theorem decodeVecs_eq {table : List UInt64} {sel : List Nat} (h : Within table sel)
    (regs : Dict String Nat) :
    decodeVecs table sel regs =
      some ((pyVec.zip ((List.range pyVec.length).map (vecOfWords (selected table sel)))).foldl
        (fun d p => d.set p.1 p.2) regs) := by
  have hloop := Dict.foldlM_set (g := fun p : String × Nat => decodeVec table sel p.2)
    (h := fun p => vecOfWords (selected table sel) p.2) Prod.fst id pyVec.zipIdx
    (fun p _ => decodeVec_eq h p.2) regs
  have hitems : pyVec.zipIdx.map (fun p => (p.1, vecOfWords (selected table sel) p.2)) =
      pyVec.zip ((List.range pyVec.length).map (vecOfWords (selected table sel))) := by
    rw [List.zipIdx_eq_zip_range', ← List.range_eq_range', List.zip_map_right]
    rfl
  rw [← hitems]
  exact hloop

variable {c : RegConfig} {map : FuzzingValueMap} {inp : InputWithRegSelect}

/-- What `decode_regs` zeroes at the end. -/
def zeroed (c : RegConfig) : List (String × Nat) := (controlNames c.arch).map fun name => (name, 0)

theorem decodeRegs_eq (h : Carries c map inp) :
    decodeRegs c map inp =
      some ((assignments c (inp.values c map) (zeroed c)).foldl (fun d p => d.set p.1 p.2)
        Dict.empty) := by
  have hfp : ∀ regs, ifGiven inp.regSelectFp (fun sel => decodeSelects map.fp sel c.arch.fp) regs =
      some (((c.names .fp).zip (inp.values c map .fp)).foldl (fun d p => d.set p.1 p.2) regs) := by
    intro regs
    have hsome := h.fp_isSome
    simp only [RegConfig.names, values, fpSelectors]
    cases hsel : inp.regSelectFp with
    | none =>
        have hoff : c.FLOATS = false := by rw [← hsome, hsel]; rfl
        simp [hoff, ifGiven]
    | some sel =>
        have hon : c.FLOATS = true := by rw [← hsome, hsel]; rfl
        simpa [hon, ifGiven] using decodeSelects_eq (h.fp_within sel hsel) c.arch.fp regs
  have hvec : ∀ regs, ifGiven inp.regSelectVec (decodeVecs map.gp) regs =
      some (((c.names .vec).zip (inp.values c map .vec)).foldl
        (fun d p => d.set p.1 p.2) regs) := by
    intro regs
    have hsome := h.vec_isSome
    simp only [RegConfig.names, values, vecSelectors, RegConfig.count]
    cases hsel : inp.regSelectVec with
    | none =>
        have hoff : c.VECTOR = false := by rw [← hsome, hsel]; rfl
        simp [hoff, ifGiven]
    | some sel =>
        have hon : c.VECTOR = true := by rw [← hsome, hsel]; rfl
        have hlen : pyVec.length = 32 := by decide
        have hdecode := decodeVecs_eq (h.vec_within sel hsel) regs
        rw [hlen] at hdecode
        simpa [hon, ifGiven] using hdecode
  simp only [decodeRegs, decodeSelects_eq h.gp_within, hfp, hvec, Option.bind_eq_bind,
    Option.bind_some, assignments, List.foldl_append]
  have hgp : c.names .gp = c.arch.gp := rfl
  -- what is left are the control registers
  cases harch : c.arch with
  | riscv64 => simp [zeroed, controlNames, harch, hgp, values]
  | aarch64 => simp [zeroed, controlNames, harch, hgp, values]

/-- The server reports, under every register's name, the value the client loads. -/
theorem get?_decodeRegs (h : Carries c map inp) :
    ∃ regs, decodeRegs c map inp = some regs ∧ ∀ r : Reg c,
      regs.get? r.name = some (r.val (Regs.ofLists c (inp.values c map))).toNat := by
  refine ⟨_, decodeRegs_eq h, fun r => ?_⟩
  have hkeys : (zeroed c).map Prod.fst = controlNames c.arch := by
    simp [zeroed, Function.comp_def]
  have hzero : ∀ k, k ∈ [RegClass.pstate, .fcsr, .fpsr] → ∀ v ∈ inp.values c map k, v = 0 := by
    intro k hk v hv
    simp only [List.mem_cons, List.not_mem_nil, or_false] at hk
    rcases hk with rfl | rfl | rfl <;> exact List.eq_of_mem_replicate hv
  have hnodup : ((zeroed c).map Prod.fst).Nodup := by
    rw [hkeys]
    exact (names_append_controlNames_nodup c).of_append_right
  rw [Regs.toNat_val_ofLists _ r (values_lt c map inp r.1)]
  exact get?_assignments h.length_values hzero (by rw [hkeys]; exact List.Subset.refl _) hnodup
    (by simp [zeroed]) (by rw [hkeys]; exact names_subset_controlNames c) r

/-- The client runs the input as the server means it. -/
structure Recovers (c : RegConfig) (map : FuzzingValueMap) (inp : InputWithRegSelect)
    (e : Exec c) : Prop where
  seqLen : e.seqLen = inp.seqLen
  fullSeq : e.fullSeq = inp.fullSeq
  instrSeq : e.instrSeq = inp.getInstrSeq
  regs : ∃ regs, decodeRegs c map inp = some regs ∧
    ∀ r : Reg c, regs.get? r.name = some (r.val e.regs).toNat

/-- The client's walk over a packed batch recovers every input, in order, and ends with the batch.
Packing succeeds for every sequence whose length fits its byte. -/
theorem walkRegSelect_packInputs (c : RegConfig) (map : FuzzingValueMap)
    (inputs : List InputWithRegSelect) (hcarries : ∀ inp ∈ inputs, Carries c map inp) :
    (∀ buf, packInputs (pack c) inputs = some buf →
      ∃ execs, walkRegSelect c map buf inputs.length = some (execs, buf.length) ∧
        List.Forall₂ (Recovers c map) inputs execs) ∧
    ((∀ inp ∈ inputs, inp.seqLen ≤ 255) → (packInputs (pack c) inputs).isSome) := by
  have hpack := packInputs_eq_some inputs fun inp hinp => pack_eq_some (hcarries inp hinp)
  constructor
  · intro buf hbuf
    obtain ⟨hlen, rfl⟩ := (hpack buf).mp hbuf
    let out (inp : InputWithRegSelect) : Exec c :=
      ⟨inp.seqLen, inp.fullSeq, inp.getInstrSeq, Regs.ofLists c (inp.values c map)⟩
    have hwalk := walkInputs_flatMap head out inputs
      (fun inp hinp => (hcarries inp hinp).length_head)
      (fun inp hinp => loadSelects_head (hcarries inp hinp))
      (fun inp hinp => ⟨(inp.length_getInstrSeq).symm, hlen inp hinp, inp.getInstrSeq_lt⟩) []
    refine ⟨inputs.map out, hwalk, ?_⟩
    rw [List.forall₂_map_right_iff, List.forall₂_same]
    exact fun inp hinp => ⟨rfl, rfl, rfl, get?_decodeRegs (hcarries inp hinp)⟩
  · intro hlen
    exact Option.isSome_iff_exists.mpr ⟨_, (hpack _).mpr ⟨hlen, rfl⟩⟩

/-- A table with three and one with two values. -/
def sampleMap : FuzzingValueMap := ⟨[0, 0xff, 0xffffffffffffffff], [0, 7], by decide, by decide⟩

/-- Selectors for riscv64 with floats and vectors. -/
def sampleSelects (fullSeq : Bool) : InputWithRegSelect where
  instrSeq := [0x13, 0x6f, 0x73]
  seqLen := 2
  fullSeq := fullSeq
  seqLen_le := by decide
  regSelectGp := List.replicate 31 2
  regSelectFp := some (List.replicate 32 1)
  regSelectVec := some ((List.range 64).map (· % 3))

theorem sampleSelects_carries (fullSeq : Bool) :
    (sampleSelects fullSeq).Carries ⟨.riscv64, true, true, rfl⟩ sampleMap where
  gp_length := by simp [sampleSelects, RegConfig.count]
  gp_within := fun j hj => by rw [List.eq_of_mem_replicate hj]; decide
  fp_isSome := rfl
  fp_length := by rintro sel ⟨⟩; decide
  fp_within := by rintro sel ⟨⟩; unfold Within; decide
  vec_isSome := rfl
  vec_length := by rintro sel ⟨⟩; decide
  vec_within := by rintro sel ⟨⟩; unfold Within; decide

theorem walkRegSelect_packInputs_samples :
    ∃ buf execs,
      packInputs (pack ⟨.riscv64, true, true, rfl⟩) [sampleSelects true, sampleSelects false] =
        some buf ∧
      walkRegSelect ⟨.riscv64, true, true, rfl⟩ sampleMap buf 2 = some (execs, buf.length) ∧
      List.Forall₂ (Recovers ⟨.riscv64, true, true, rfl⟩ sampleMap)
        [sampleSelects true, sampleSelects false] execs := by
  obtain ⟨hwalk, hpack⟩ := walkRegSelect_packInputs ⟨.riscv64, true, true, rfl⟩ sampleMap
    [sampleSelects true, sampleSelects false] (by simp [sampleSelects_carries])
  obtain ⟨buf, hbuf⟩ := Option.isSome_iff_exists.mp (hpack (by decide))
  obtain ⟨execs, hexecs, hall⟩ := hwalk buf hbuf
  exact ⟨buf, execs, hbuf, hexecs, hall⟩

end InputWithRegSelect

end RISCover
