import RISCover.Repro.Load

/-!
# Reading the lines of a reproducer

What the passes of `load_repro` do on the lines that reproducers consist of, whoever wrote them.
`Load.goto` says where in the text the parser is; the data it has read is the rest of the state. A
section is read line by line, so each lemma about a section is an induction over its lines.
-/

open Text Machine Bytes

namespace RISCover

/-- The data of one state with the parser at another place. -/
def Load.goto {c : RegConfig} (s : Load c) (loc : Loc) (lines : List Text) : Load c :=
  { s with loc := loc, lines := lines }

/-! ## Writing registers

Registers are stored one by one, so a class is complete when the store has gone through it. -/

section Registers

variable {c : RegConfig}

theorem Reg.val_set_self (regs : Regs c) (r : Reg c) (v : Nat) :
    r.val (regs.set r.1 r.2 v) = BitVec.ofNat _ v := by
  simp [Reg.val, Regs.set]

theorem Reg.val_set_of_ne (regs : Regs c) {r q : Reg c} (h : q ≠ r) (v : Nat) :
    q.val (regs.set r.1 r.2 v) = q.val regs := by
  obtain ⟨k, i⟩ := r
  obtain ⟨k', j⟩ := q
  by_cases hk : k' = k
  · subst hk
    have hij : i.1 ≠ j.1 := fun hval => h (by rw [Fin.ext hval])
    simp [Reg.val, Regs.set, Vector.getElem_set_ne _ _ hij]
  · simp [Reg.val, Regs.set, Regs.setClass_of_ne _ hk]

/-- Writing some registers of a class one after the other. -/
theorem Reg.val_foldl_set (target : Regs c) (k : RegClass) (r : Reg c)
    (l : List (Fin (c.count k))) (regs : Regs c) :
    r.val (l.foldl (fun regs i => regs.set k i ((target k)[i]).toNat) regs) =
      if r ∈ l.map (fun i => (⟨k, i⟩ : Reg c)) then r.val target else r.val regs := by
  induction l generalizing regs with
  | nil => rfl
  | cons i l ih =>
      rw [List.foldl_cons, ih]
      by_cases hl : r ∈ l.map (fun i => (⟨k, i⟩ : Reg c))
      · rw [if_pos hl, if_pos (by simp [hl])]
      · rw [if_neg hl]
        by_cases hr : r = ⟨k, i⟩
        · subst hr
          rw [if_pos (by simp), Reg.val_set_self regs ⟨k, i⟩]
          simp [Reg.val]
        · have hnot : r ∉ (i :: l).map (fun i => (⟨k, i⟩ : Reg c)) := by
            rw [List.map_cons, List.mem_cons, not_or]
            exact ⟨hr, hl⟩
          rw [if_neg hnot, Reg.val_set_of_ne regs hr]

/-- Writing all registers of a class replaces the class. -/
theorem Regs.foldl_set_finRange (target regs : Regs c) (k : RegClass) :
    (List.finRange (c.count k)).foldl (fun regs i => regs.set k i ((target k)[i]).toNat) regs =
      regs.setClass k (target k) := by
  apply Regs.ext
  intro r
  rw [Reg.val_foldl_set]
  obtain ⟨k', j⟩ := r
  by_cases hk : k' = k
  · subst hk
    rw [if_pos (by simp)]
    simp [Reg.val]
  · rw [if_neg (by simp [Ne.symm hk])]
    simp [Reg.val, Regs.setClass_of_ne _ hk]

end Registers

/-! ## Digits

A row of hex digits is read from the end, two at a time, into little-endian bytes. -/

theorem nibble_lt (ch : Char) : nibble ch < 16 := by
  unfold nibble
  cases h : hexNibble ch with
  | none => decide
  | some d => exact hexNibble_lt h

@[simp] theorem ofHex_singleton (ch : Char) : ofHex [ch] = nibble ch := by
  simp [ofHex, nibble]

/-- Pairs of digits from the right are the bytes from the low end. -/
theorem parseHexLeLoop_eq (room : Nat) (digits : Text) :
    parseHexLeLoop digits room ++
        List.replicate (room - (parseHexLeLoop digits room).length) 0 =
      leBytes room (ofHex digits.reverse) := by
  induction room generalizing digits with
  | zero => simp [parseHexLeLoop, leBytes]
  | succ room ih =>
      have hzero : ∀ n, leBytes n 0 = List.replicate n 0 := by
        intro n
        induction n with
        | zero => rfl
        | succ n ihn => rw [leBytes, Nat.zero_div, ihn]; rfl
      rcases digits with _ | ⟨lo, _ | ⟨hi, digits⟩⟩
      · simpa [parseHexLeLoop, ofHex] using (hzero (room + 1)).symm
      · have hlo := nibble_lt lo
        have hdiv : nibble lo / 256 = 0 := by omega
        simp [parseHexLeLoop, leBytes, hdiv, hzero]
      · have hlo := nibble_lt lo
        have hhi := nibble_lt hi
        -- the two last digits are the first byte, and the others the rest
        have hvalue : ofHex (lo :: hi :: digits).reverse =
            256 * ofHex digits.reverse + (16 * nibble hi + nibble lo) := by
          rw [List.reverse_cons, List.reverse_cons, ofHex_append, ofHex_append,
            ofHex_singleton, ofHex_singleton, List.length_singleton, List.length_singleton]
          ring
        have hdiv : ofHex (lo :: hi :: digits).reverse / 256 = ofHex digits.reverse := by
          omega
        have hbyte : UInt8.ofNat (16 * nibble hi + nibble lo) =
            UInt8.ofNat (ofHex (lo :: hi :: digits).reverse) := by
          apply UInt8.toNat_inj.mp
          rw [UInt8.toNat_ofNat', UInt8.toNat_ofNat']
          omega
        rw [parseHexLeLoop, leBytes, hdiv, ← ih digits, ← hbyte]
        simp

/-- A vector register gets the number that its digits spell. -/
theorem parseHexLeBytes_eq (digits : Text) (outLen : Nat) :
    parseHexLeBytes digits outLen = leBytes outLen (ofHex digits) := by
  rw [parseHexLeBytes, parseHexLeLoop_eq, List.reverse_reverse]

/-- A group of digits with the last pair first is the number it spells, low byte first. -/
theorem wordBytes_eq (k : Nat) (digits : Text) (h : digits.length = 2 * k) :
    wordBytes digits = leBytes k (ofHex digits) := by
  -- by induction from the front, as the value of a byte is known when its digits are
  have hspec : ∀ (k : Nat) (digits : Text), digits.length = 2 * k →
      (wordBytes digits).length = k ∧ ofLeBytes (wordBytes digits) = ofHex digits := by
    intro k
    induction k with
    | zero =>
        intro digits h
        obtain rfl := List.eq_nil_of_length_eq_zero h
        exact ⟨rfl, rfl⟩
    | succ k ih =>
        intro digits h
        match digits, h with
        | [ch], h => simp at h; omega
        | hi :: lo :: digits, h =>
            have hlo := nibble_lt lo
            have hhi := nibble_lt hi
            have hk : digits.length = 2 * k := by
              simp only [List.length_cons] at h
              omega
            obtain ⟨hlen, hvalue⟩ := ih digits hk
            have hpair : ofHex [hi, lo] = 16 * nibble hi + nibble lo := by simp [ofHex, nibble]
            have hsplit : ofHex (hi :: lo :: digits) =
                16 ^ digits.length * ofHex [hi, lo] + ofHex digits := ofHex_append [hi, lo] digits
            have hpow : (256 : Nat) ^ k = 16 ^ digits.length := by
              rw [hk, pow_mul]
              rfl
            have hbyte : (UInt8.ofNat (16 * nibble hi + nibble lo)).toNat =
                16 * nibble hi + nibble lo := by
              rw [UInt8.toNat_ofNat']
              omega
            rw [wordBytes]
            refine ⟨by simp [hlen], ?_⟩
            rw [ofLeBytes_append, hlen, hvalue, hsplit, hpair, hpow, ofLeBytes, ofLeBytes, hbyte]
            ring
  obtain ⟨hlen, hvalue⟩ := hspec k digits h
  apply ofLeBytes_inj
  · rw [hlen, length_leBytes]
  · have hlt := ofLeBytes_lt (wordBytes digits)
    rw [hlen, hvalue] at hlt
    rw [hvalue, ofLeBytes_leBytes_of_lt hlt]

/-- Groups of sixteen digits are decoded one after the other. -/
theorem valBytes_flatMap {α : Type} {f : α → Text} (hf : ∀ x, (f x).length = 16) (xs : List α) :
    valBytes xs.length (xs.flatMap f) = xs.flatMap fun x => leBytes 8 (ofHex (f x)) := by
  induction xs with
  | nil => rfl
  | cons x xs ih =>
      rw [List.length_cons, List.flatMap_cons, List.flatMap_cons, valBytes, List.take_left' (hf x),
        List.drop_left' (hf x), ih, wordBytes_eq 8 _ (hf x)]

variable {b : Build} {heap : Nat → Bytes}

/-! ## The loop over the text

A line that opens no section is passed over, whatever it says. -/

/-- The line opens none of the sections. -/
def skipped (line : Text) : Bool :=
  let t := lstrip line
  !(startsWith t "instr_seq:" || startsWith t "regs:" || startsWith t "mappings:" ||
    topLevelFlags line)

/-- What a line starts with rules out that it opens a section. -/
def inert (p : Text) : Bool :=
  let t := lstrip p
  t ≠ [] && apart t "instr_seq:".toList && apart t "regs:".toList &&
    apart t "mappings:".toList && apart t "flags:".toList

theorem skipped_append {p : Text} (h : inert p = true) (t : Text) : skipped (p ++ t) = true := by
  simp only [inert, Bool.and_eq_true, decide_eq_true_eq] at h
  obtain ⟨⟨⟨⟨hne, hinstr⟩, hregs⟩, hmappings⟩, hflags⟩ := h
  have hnoflags : topLevelFlags (p ++ t) = false := by
    rw [topLevelFlags, decide_eq_false_iff_not]
    rintro ⟨hstrip, hstart⟩
    rw [← hstrip, lstrip_append hne, startsWith_append_eq_false hflags] at hstart
    cases hstart
  simp only [skipped, lstrip_append hne, startsWith_append_eq_false hinstr,
    startsWith_append_eq_false hregs, startsWith_append_eq_false hmappings, hnoflags,
    Bool.or_self, Bool.not_false]

theorem loadStep_skipped {line : Text} (h : skipped line = true) (s : Load b.toRegConfig)
    (rest : List Text) :
    loadStep b heap (s.goto .top (line :: rest)) = .next (s.goto .top rest) := by
  rw [skipped, Bool.not_eq_true', Bool.or_eq_false_iff, Bool.or_eq_false_iff,
    Bool.or_eq_false_iff] at h
  obtain ⟨⟨⟨hinstr, hregs⟩, hmappings⟩, hflags⟩ := h
  show topPass b (s.goto .top (line :: rest)) = _
  simp only [topPass, Load.goto, hinstr, hregs, hmappings, hflags, Bool.false_eq_true, if_false]
  split_ifs <;> rfl

/-- The loop over the text goes past all lines that open no section. -/
theorem steps_skipped {lines : List Text} (h : ∀ l ∈ lines, skipped l = true)
    (s : Load b.toRegConfig) (rest : List Text) :
    Steps (loadStep b heap) (s.goto .top (lines ++ rest)) (s.goto .top rest) := by
  induction lines with
  | nil => exact Steps.refl _
  | cons line lines ih =>
      rw [List.forall_mem_cons] at h
      exact Steps.head (loadStep_skipped h.1 s _) (ih h.2)

/-! ## The instructions

The loop over the instructions goes on as long as lines begin with a dash. -/

theorem loadStep_instr {line : Text} {instr : UInt32} {s : Load b.toRegConfig}
    (hdash : (lstrip line).head? = some '-') (hscan : scanInstr (lstrip line) = some instr)
    (hlen : s.instrSeq.length < b.MAX_SEQ_LEN) (rest : List Text) :
    loadStep b heap (s.goto .instrSeq (line :: rest)) =
      .next ({ s with instrSeq := s.instrSeq ++ [instr] }.goto .instrSeq rest) := by
  have hfits : ¬b.MAX_SEQ_LEN ≤ s.instrSeq.length := Nat.not_le.mpr hlen
  show instrSeqPass b (s.goto .instrSeq (line :: rest)) = _
  simp only [instrSeqPass, Load.goto, hdash, ne_eq, not_true_eq_false, if_false, hscan, hfits]
  rfl

/-- A sequence that fits is read as it is written. -/
theorem steps_instrSeq {line : UInt32 → Text}
    (hline : ∀ instr, (lstrip (line instr)).head? = some '-' ∧
      scanInstr (lstrip (line instr)) = some instr)
    (instrs : List UInt32) (s : Load b.toRegConfig)
    (hlen : s.instrSeq.length + instrs.length ≤ b.MAX_SEQ_LEN) (rest : List Text) :
    Steps (loadStep b heap) (s.goto .instrSeq (instrs.map line ++ rest))
      ({ s with instrSeq := s.instrSeq ++ instrs }.goto .instrSeq rest) := by
  induction instrs generalizing s with
  | nil =>
      rw [List.append_nil]
      exact Steps.refl _
  | cons instr instrs ih =>
      rw [List.length_cons] at hlen
      have hrest := ih { s with instrSeq := s.instrSeq ++ [instr] } (by simp; omega)
      rw [List.append_assoc] at hrest
      exact Steps.head (loadStep_instr (hline instr).1 (hline instr).2 (by omega) _) hrest

/-! ## The registers

Each of the loops stores a register a line, counting up, and does not look at the name. -/

theorem loadStep_gp {line : Text} {v : Nat} (hne : lstrip line ≠ [])
    (hend : endsGp (lstrip line) = false) (hscan : scanReg (lstrip line) = some v)
    (s : Load b.toRegConfig) (i : Nat) (rest : List Text) :
    loadStep b heap (s.goto (.gp i) (line :: rest)) =
      .next ((s.store .gp i v).goto (.gp (i + 1)) rest) := by
  show gpPass b i (s.goto (.gp i) (line :: rest)) = _
  simp only [gpPass, Load.goto, if_neg hne, hend, Bool.false_eq_true, if_false, hscan, Load.store]
  split <;> rfl

theorem loadStep_fp {line : Text} {v : Nat}
    (hhead : (lstrip line).head? = some 'f' ∨ (lstrip line).head? = some 'd')
    (hscan : scanReg (lstrip line) = some v) (s : Load b.toRegConfig) (i : Nat)
    (rest : List Text) :
    loadStep b heap (s.goto (.fp i) (line :: rest)) =
      .next ((s.store .fp i v).goto (.fp (i + 1)) rest) := by
  have hne : lstrip line ≠ [] := by
    intro hnil
    rw [hnil] at hhead
    rcases hhead with h | h <;> cases h
  have hgoes : ¬((lstrip line).head? ≠ some 'f' ∧ (lstrip line).head? ≠ some 'd') := by
    rw [not_and_or, not_not, not_not]
    exact hhead
  show fpPass b i (s.goto (.fp i) (line :: rest)) = _
  simp only [fpPass, Load.goto, if_neg hne, if_neg hgoes, hscan, Load.store]
  split <;> rfl

theorem loadStep_vec {line digits : Text} (hhead : (lstrip line).head? = some 'v')
    (hscan : strstr (lstrip line) "0x" = some ('0' :: 'x' :: digits))
    (s : Load b.toRegConfig) (i : Nat) (rest : List Text) :
    loadStep b heap (s.goto (.vec i) (line :: rest)) =
      .next ((s.store .vec i (ofLeBytes (parseHexLeBytes
        ((digits.takeWhile isHex).take (2 * VEC_REG_SIZE)) VEC_REG_SIZE))).goto
          (.vec (i + 1)) rest) := by
  have hne : lstrip line ≠ [] := by
    intro hnil
    rw [hnil] at hhead
    cases hhead
  show vecPass b i (s.goto (.vec i) (line :: rest)) = _
  simp only [vecPass, Load.goto, if_neg hne, hhead, ne_eq, not_true_eq_false, if_false, hscan,
    Option.map_some, Option.getD_some, List.drop_succ_cons, List.drop_zero, Load.store]
  split <;> rfl

/-- A class whose lines are read one register each is read whole. -/
theorem steps_regs {k : RegClass} (loc : Nat → Loc) {line : Fin (b.count k) → Text}
    {target : Regs b.toRegConfig}
    (hstep : ∀ (s : Load b.toRegConfig) (i : Fin (b.count k)) rest,
      loadStep b heap (s.goto (loc i) (line i :: rest)) =
        .next ((s.store k i ((target k)[i]).toNat).goto (loc (i + 1)) rest))
    (s : Load b.toRegConfig) (rest : List Text) :
    Steps (loadStep b heap)
      (s.goto (loc 0) ((List.finRange (b.count k)).map line ++ rest))
      ({ s with regs := s.regs.setClass k (target k) }.goto (loc (b.count k)) rest) := by
  -- `l` are the registers still to be read, the next one has the index `i`
  have hloop : ∀ (l : List (Fin (b.count k))) (i : Nat), l.map Fin.val = List.range' i l.length →
      ∀ s : Load b.toRegConfig, Steps (loadStep b heap) (s.goto (loc i) (l.map line ++ rest))
        ({ s with regs := l.foldl (fun regs i => regs.set k i ((target k)[i]).toNat) s.regs }.goto
          (loc (i + l.length)) rest) := by
    intro l
    induction l with
    | nil => intro i _ s; exact Steps.refl _
    | cons x l ih =>
        intro i hl s
        rw [List.map_cons, List.length_cons, List.range'_succ, List.cons.injEq] at hl
        obtain ⟨rfl, hl⟩ := hl
        have hstore : s.store k x ((target k)[x]).toNat =
            { s with regs := s.regs.set k x ((target k)[x]).toNat } := by
          rw [Load.store, dif_pos x.2]
        have hrest := ih (x.1 + 1) hl { s with regs := s.regs.set k x ((target k)[x]).toNat }
        rw [Nat.add_right_comm, Nat.add_assoc] at hrest
        have hfirst := hstep s x (l.map line ++ rest)
        rw [hstore] at hfirst
        exact Steps.head hfirst hrest
  have hall := hloop (List.finRange (b.count k)) 0 (by simp [List.range_eq_range']) s
  rwa [Regs.foldl_set_finRange, List.length_finRange, Nat.zero_add] at hall

/-! ## Mappings

A mapping is four lines. The loop reads them all before it goes on. -/

theorem loadStep_mapping {l₀ l₁ l₂ l₃ : Text} {start n prot : Nat} {val : Bytes}
    (hdash : (lstrip l₀).head? = some '-') (hstart : scanStart (lstrip l₀) = some start)
    (hn : scanField "n:" (lstrip l₁) = some n) (hprot : scanField "prot:" (lstrip l₂) = some prot)
    (hval : scanVal heap n (lstrip l₃) = some val) (s : Load b.toRegConfig) (rest : List Text) :
    loadStep b heap (s.goto .mappings (l₀ :: l₁ :: l₂ :: l₃ :: rest)) =
      .next ({ s with mappings := s.mappings ++ [Mapping.mk (UInt64.ofNat start) (UInt64.ofNat n)
        (UInt32.ofNat prot) val] }.goto .mappings rest) := by
  show mappingsPass b heap (s.goto .mappings (l₀ :: l₁ :: l₂ :: l₃ :: rest)) = _
  simp only [mappingsPass, Load.goto, hdash, ne_eq, not_true_eq_false, if_false, hstart, hn, hprot,
    hval]

theorem steps_mappings {lines : Mapping → List Text} {mappings : List Mapping}
    (hlines : ∀ m ∈ mappings, ∀ (s : Load b.toRegConfig) rest,
      loadStep b heap (s.goto .mappings (lines m ++ rest)) =
        .next ({ s with mappings := s.mappings ++ [m] }.goto .mappings rest))
    (s : Load b.toRegConfig) (rest : List Text) :
    Steps (loadStep b heap) (s.goto .mappings (mappings.flatMap lines ++ rest))
      ({ s with mappings := s.mappings ++ mappings }.goto .mappings rest) := by
  induction mappings generalizing s with
  | nil =>
      rw [List.append_nil]
      exact Steps.refl _
  | cons m mappings ih =>
      rw [List.forall_mem_cons] at hlines
      have hrest := ih hlines.2 { s with mappings := s.mappings ++ [m] }
      rw [List.append_assoc] at hrest
      rw [List.flatMap_cons, List.append_assoc]
      exact Steps.head (hlines.1 s _) hrest

/-! ## Flags

The names are collected up to the first line that is no item; then the sets are compared. -/

theorem loadStep_flag {line name : Text} {mask mask' : Mask}
    (hdash : (lstrip line).head? = some '-') (hscan : scanFlag (lstrip line) = some name)
    (hmask : maskOr mask (flagName name) = some mask') {s : Load b.toRegConfig}
    (hs : s.parsedMask = some mask) (rest : List Text) :
    loadStep b heap (s.goto .flags (line :: rest)) =
      .next ({ s with parsedMask := some mask' }.goto .flags rest) := by
  show flagsPass b (s.goto .flags (line :: rest)) = _
  simp only [flagsPass, Load.goto, hdash, ne_eq, not_true_eq_false, if_false, hscan, hs,
    Option.getD_some, hmask]
  rfl

/-- Behind the last flag the check compares what has been read with the build. -/
theorem loadStep_endFlags {line : Text} (hdash : (lstrip line).head? ≠ some '-')
    {s : Load b.toRegConfig} (hs : s.parsedMask = some b.expectedMask) (rest : List Text) :
    loadStep b heap (s.goto .flags (line :: rest)) = .next (s.goto .top (line :: rest)) := by
  show flagsPass b (s.goto .flags (line :: rest)) = _
  simp only [flagsPass, Load.goto, if_pos hdash, checkFlags, hs]
  simp [Load.leave]

/-! ## The end of the text

Without lines the loop over the text returns, or starts over on the copy for the `midr` values. -/

theorem stops_midrs (lines : List Text) (s : Load b.toRegConfig) :
    ∃ midrs, Stops (loadStep b heap) (s.goto .midrs lines)
      (.returned ⟨s.instrSeq, s.regs, s.stray, s.mappings, midrs⟩) := by
  induction lines generalizing s with
  | nil => exact ⟨s.midrs, Stops.of_stop rfl⟩
  | cons line lines ih =>
      have hstep : loadStep b heap (s.goto .midrs (line :: lines)) =
          .next ({ s with midrs := noteMidr s.midrs (lstrip line) }.goto .midrs lines) := rfl
      obtain ⟨midrs, hout⟩ := ih { s with midrs := noteMidr s.midrs (lstrip line) }
      exact ⟨midrs, (stops_next hstep).mpr hout⟩

/-- Behind the last line the parser returns what it has read. -/
theorem stops_top_nil (s : Load b.toRegConfig) :
    ∃ midrs, Stops (loadStep b heap) (s.goto .top [])
      (.returned ⟨s.instrSeq, s.regs, s.stray, s.mappings, midrs⟩) := by
  cases hcopy : s.contentCopy with
  | none =>
      refine ⟨s.midrs, Stops.of_stop ?_⟩
      show topPass b (s.goto .top []) = _
      simp only [topPass, Load.goto, hcopy]
  | some copy =>
      obtain ⟨midrs, hstops⟩ : ∃ midrs, Stops (loadStep b heap) _ _ :=
        stops_midrs copy { s with contentCopy := none }
      refine ⟨midrs, (stops_next ?_).mpr hstops⟩
      show topPass b (s.goto .top []) = _
      simp only [topPass, Load.goto, hcopy]

end RISCover
