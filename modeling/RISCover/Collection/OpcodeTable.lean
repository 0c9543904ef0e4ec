import RISCover.Collection.Opcodes
import RISCover.Collection.Remove

/-!
# From the encodings to `disassemble`

The converter writes an instruction for every encoding of the table, in the order of the table, or
stops. It stops exactly if `match` and `mask` of an instruction accept other words than its encoding
or a variable field has no place (`convertsTable`). A collection that is made of what it writes
disassembles by the encodings: `decodesEncodings_of_init`.
-/

open Fallible Text

namespace RISCover

/-! ## One instruction

When the converter accepts an instruction, and what it writes then (`Renders`). -/

/-- `match` and `mask` accept the words that fit the encoding, and the variable fields have their
places. -/
structure InsnValues.Sound (argLut : Dict Text (Nat × Nat)) (values : InsnValues) : Prop where
  hexes : ∃ mask value : Nat, pyIntBase 16 values.maskHex = some (mask : Int) ∧
    pyIntBase 16 values.matchHex = some (value : Int) ∧
    ∀ word, word &&& mask = value ↔ FitsEncoding values.encoding word
  fields : ∀ f ∈ values.variableFields, f ∈ argLut.keys

section convert

variable {argLut : Dict Text (Nat × Nat)} {values : InsnValues}

theorem intOf_eq_ok_iff {b : Nat} {t : Text} {n : Int} :
    intOf b t = .ok n ↔ pyIntBase b t = some n := by
  rw [intOf]
  cases pyIntBase b t <;> simp

/-- Where everything can be set the combined mask has nothing. -/
theorem genCombinedMask_append {fields named : List StaticField}
    (h : ∀ f ∈ named, f.mask = 0 ∧ f.value = 0) :
    genCombinedMask (fields ++ named) = genCombinedMask fields := by
  have hfold : ∀ part : StaticField → Nat, (∀ f ∈ named, part f = 0) → ∀ n,
      named.foldl (fun n f => n ||| part f <<< f.rangeStart) n = n := by
    intro part hzero n
    apply Nat.eq_of_testBit_eq
    intro i
    rw [Bool.eq_iff_iff, testBit_foldl_shiftLeft part StaticField.rangeStart]
    constructor
    · rintro (hn | ⟨f, hf, -, hbit⟩)
      · exact hn
      · rw [hzero f hf, Nat.zero_testBit] at hbit
        cases hbit
    · exact Or.inl
  have hmask := hfold StaticField.mask fun f hf => (h f hf).1
  have hvalue := hfold StaticField.value fun f hf => (h f hf).2
  simp only [genCombinedMask, List.foldl_append, hmask, hvalue]

theorem combinedMaskOf_eq_ok_iff {fields : List OpcodeField} {c : CombinedMask} :
    combinedMaskOf fields = .ok c ↔ genCombinedMask (fields.map OpcodeField.static) = some c := by
  rw [combinedMaskOf]
  cases genCombinedMask (fields.map OpcodeField.static) <;> simp

theorem ofVariable_eq_ok_iff {f : Text} {field : OpcodeField} :
    OpcodeField.ofVariable argLut f = .ok field ↔
      ∃ range, argLut.get? f = some range ∧ field = ⟨range.1, range.2, some f, 0, 0⟩ := by
  rw [OpcodeField.ofVariable]
  cases hget : argLut.get? f with
  | none => simp
  | some range => simp [eq_comm]

/-- The variable fields have names, and all of their bits are open. -/
theorem open_of_mapM {names : List Text} {named : List OpcodeField}
    (h : names.mapM (OpcodeField.ofVariable argLut) = .ok named) :
    ∀ f ∈ named, f.static.mask = 0 ∧ f.static.value = 0 := by
  have hall := mapM_eq_ok_iff.mp h
  clear h
  induction hall with
  | nil => exact fun f hf => absurd hf List.not_mem_nil
  | cons hname _ ih =>
      obtain ⟨range, -, rfl⟩ := ofVariable_eq_ok_iff.mp hname
      exact List.forall_mem_cons.mpr ⟨⟨rfl, rfl⟩, ih⟩

/-- What the body of the loop comes to for an encoding of the table. -/
theorem convert_eq_ok_iff (hplain : OfBits values.encoding) {e : OpcodeEntry} :
    convert argLut values = .ok e ↔
      ∃ c named, c.Describes values.encoding ∧
        pyIntBase 16 values.matchHex = some (c.value : Int) ∧
        pyIntBase 16 values.maskHex = some (c.mask : Int) ∧
        values.variableFields.mapM (OpcodeField.ofVariable argLut) = .ok named ∧
        e = ⟨values.extension, (splitEncodingStr values.encoding).map staticField ++ named, c⟩ := by
  obtain ⟨c, hc, hdescribes⟩ := exists_describes hplain
  have hgen := combinedMaskOf_eq_ok_iff.mpr hc
  -- the second combined mask is the first one
  have hagain : ∀ named, values.variableFields.mapM (OpcodeField.ofVariable argLut) = .ok named →
      combinedMaskOf ((splitEncodingStr values.encoding).map staticField ++ named) = .ok c := by
    intro named hnamed
    rw [combinedMaskOf_eq_ok_iff, List.map_append, genCombinedMask_append
      (List.forall_mem_map.mpr (open_of_mapM hnamed)), hc]
  constructor
  · intro h
    obtain ⟨static, hstatic, h⟩ := bind_eq_ok_iff.mp h
    rw [mapM_ofEncoding hplain] at hstatic
    cases hstatic
    obtain ⟨valueHex, hvalue, h⟩ := bind_eq_ok_iff.mp h
    obtain ⟨maskHex, hmask, h⟩ := bind_eq_ok_iff.mp h
    obtain ⟨c', hc', h⟩ := bind_eq_ok_iff.mp h
    cases hgen.symm.trans hc'
    split at h
    next => cases h
    next hsame =>
      obtain ⟨named, hnamed, h⟩ := bind_eq_ok_iff.mp h
      obtain ⟨c', hc', h⟩ := bind_eq_ok_iff.mp h
      cases (hagain named hnamed).symm.trans hc'
      cases h
      obtain ⟨rfl, rfl⟩ := Prod.mk.inj (not_not.mp hsame)
      exact ⟨c, named, hdescribes, intOf_eq_ok_iff.mp hvalue, intOf_eq_ok_iff.mp hmask, hnamed, rfl⟩
  · rintro ⟨c', named, hdescribes', hvalue, hmask, hnamed, rfl⟩
    obtain rfl := hdescribes.unique hdescribes'
    refine bind_eq_ok_iff.mpr ⟨_, mapM_ofEncoding hplain, ?_⟩
    refine bind_eq_ok_iff.mpr ⟨_, intOf_eq_ok_iff.mpr hvalue, ?_⟩
    refine bind_eq_ok_iff.mpr ⟨_, intOf_eq_ok_iff.mpr hmask, ?_⟩
    refine bind_eq_ok_iff.mpr ⟨c, hgen, ?_⟩
    rw [if_neg (not_not.mpr rfl)]
    refine bind_eq_ok_iff.mpr ⟨named, hnamed, ?_⟩
    exact bind_eq_ok_iff.mpr ⟨c, hagain named hnamed, rfl⟩

/-- Where an instruction can be converted. -/
theorem exists_convert_iff (hplain : OfBits values.encoding) :
    (∃ e, convert argLut values = .ok e) ↔ values.Sound argLut := by
  simp only [convert_eq_ok_iff hplain]
  have hfields : (∃ named, values.variableFields.mapM (OpcodeField.ofVariable argLut) = .ok named) ↔
      ∀ f ∈ values.variableFields, f ∈ argLut.keys := by
    rw [exists_mapM_eq_ok_iff]
    refine forall₂_congr fun f _ => ?_
    simp only [ofVariable_eq_ok_iff, ← Dict.get?_ne_none_iff, Option.ne_none_iff_exists']
    constructor
    · rintro ⟨_, range, hget, -⟩
      exact ⟨range, hget⟩
    · rintro ⟨range, hget⟩
      exact ⟨_, range, hget, rfl⟩
  constructor
  · rintro ⟨e, c, named, hdescribes, hvalue, hmask, hnamed, -⟩
    refine ⟨⟨c.mask, c.value, hmask, hvalue, fun word => ?_⟩, hfields.mp ⟨named, hnamed⟩⟩
    exact hdescribes.matches_iff hplain
  · rintro ⟨⟨mask, value, hmask, hvalue, hwords⟩, hnames⟩
    obtain ⟨c, -, hdescribes⟩ := exists_describes hplain
    obtain ⟨named, hnamed⟩ := hfields.mpr hnames
    obtain ⟨rfl, rfl⟩ := (c.eq_iff_matches mask value).mpr fun word => by
      rw [hdescribes.matches_iff hplain, hwords]
    exact ⟨_, c, named, hdescribes, hvalue, hmask, hnamed, rfl⟩

/-- The field of a name lies where the table of the fields has it, and nothing of it is fixed. -/
def PlacedAs (argLut : Dict Text (Nat × Nat)) (name : Text) (f : OpcodeField) : Prop :=
  f.name = some name ∧ argLut.get? name = some (f.rangeEnd, f.rangeStart) ∧ f.mask = 0 ∧ f.value = 0

theorem placed_of_mapM {names : List Text} {named : List OpcodeField}
    (h : names.mapM (OpcodeField.ofVariable argLut) = .ok named) :
    List.Forall₂ (PlacedAs argLut) names named := by
  refine (mapM_eq_ok_iff.mp h).imp fun name f hf => ?_
  obtain ⟨range, hget, rfl⟩ := ofVariable_eq_ok_iff.mp hf
  exact ⟨rfl, hget, rfl, rfl⟩

theorem name_of_placed {names : List Text} {named : List OpcodeField}
    (h : List.Forall₂ (PlacedAs argLut) names named) : ∀ f ∈ named, f.name.isSome = true := by
  induction h with
  | nil => exact fun f hf => absurd hf List.not_mem_nil
  | cons hf _ ih => exact List.forall_mem_cons.mpr ⟨by rw [hf.1]; rfl, ih⟩

/-- What is written for an instruction says what the table says. -/
structure OpcodeEntry.Renders (argLut : Dict Text (Nat × Nat)) (values : InsnValues)
    (e : OpcodeEntry) : Prop where
  extension : e.extension = values.extension
  words : ∀ word, e.combinedMask.Matches word ↔ FitsEncoding values.encoding word
  count : bitCount e.combinedMask.mask = fixedBits values.encoding
  /-- Fields without a name lie where the encoding fixes bits, -/
  static : ∀ i, (∃ f ∈ e.fields, f.name = none ∧ f.rangeStart ≤ i ∧ i ≤ f.rangeEnd) ↔
    ∃ d, values.encoding.reverse[i]? = some d ∧ d ≠ '-'
  /-- and an open bit is between any two of them. -/
  apart : (e.fields.filter fun f => f.name.isNone).Pairwise fun f g =>
    f.rangeEnd + 1 < g.rangeStart
  named : List.Forall₂ (PlacedAs argLut) values.variableFields
    (e.fields.filter fun f => f.name.isSome)

/-- The fields of the pieces lie where the encoding fixes bits. -/
theorem exists_staticField_iff (hplain : OfBits values.encoding) (i : Nat) :
    (∃ f ∈ (splitEncodingStr values.encoding).map staticField,
      f.rangeStart ≤ i ∧ i ≤ f.rangeEnd) ↔
      ∃ d, values.encoding.reverse[i]? = some d ∧ d ≠ '-' := by
  have hcuts := cuts_splitEncodingStr values.encoding
  constructor
  · -- a bit of a field is a character of its piece
    rintro ⟨f, hf, hle, hend⟩
    obtain ⟨p, hp, rfl⟩ := List.mem_map.mp hf
    have hpos : 0 < p.2.length :=
      List.length_pos_iff.mpr (isBit_of_mem_splitEncodingStr hplain hp).1
    have hlen : i - p.1 < (lowFirst p).2.length := by
      rw [lowFirst, List.length_reverse]
      change p.1 ≤ i at hle
      change i ≤ p.2.length + p.1 - 1 at hend
      omega
    obtain ⟨hget, hmark⟩ := hcuts.exists_piece_iff.mp
      ⟨_, List.mem_map_of_mem hp, hle, List.getElem?_eq_getElem hlen⟩
    exact ⟨_, hget, of_decide_eq_true hmark⟩
  · -- a fixed bit lies in one of the pieces
    rintro ⟨d, hget, hne⟩
    obtain ⟨q, hq, hle, hd⟩ := hcuts.exists_piece_iff.mpr ⟨hget, decide_eq_true hne⟩
    obtain ⟨p, hp, rfl⟩ := List.mem_map.mp hq
    obtain ⟨hlt, -⟩ := List.getElem?_eq_some_iff.mp hd
    rw [lowFirst, List.length_reverse] at hlt
    refine ⟨_, List.mem_map_of_mem hp, hle, ?_⟩
    change p.1 ≤ i at hle
    show i ≤ p.2.length + p.1 - 1
    omega

theorem pairwise_staticField (hplain : OfBits values.encoding) :
    ((splitEncodingStr values.encoding).map staticField).Pairwise fun f g =>
      f.rangeEnd + 1 < g.rangeStart := by
  have hapart := List.pairwise_map.mp (cuts_splitEncodingStr values.encoding).apart
  rw [List.pairwise_map]
  refine hapart.imp_of_mem fun {p q} hp _ hlt => ?_
  have hpos : 0 < p.2.length :=
    List.length_pos_iff.mpr (isBit_of_mem_splitEncodingStr hplain hp).1
  simp only [lowFirst, List.length_reverse] at hlt
  show p.2.length + p.1 - 1 + 1 < q.1
  omega

theorem renders_of_convert (hplain : OfBits values.encoding) {e : OpcodeEntry}
    (h : convert argLut values = .ok e) : e.Renders argLut values := by
  obtain ⟨c, named, hdescribes, -, -, hnamed, rfl⟩ := (convert_eq_ok_iff hplain).mp h
  have hplaced := placed_of_mapM hnamed
  have hnames := name_of_placed hplaced
  have hstatic : ∀ f ∈ (splitEncodingStr values.encoding).map staticField, f.name = none :=
    List.forall_mem_map.mpr fun _ _ => rfl
  refine ⟨rfl, fun word => hdescribes.matches_iff hplain, hdescribes.bitCount_mask, fun i => ?_,
    ?_, ?_⟩
  · -- the fields without a name are the static ones
    rw [← exists_staticField_iff hplain]
    constructor
    · rintro ⟨f, hf, hname, hrange⟩
      rcases List.mem_append.mp hf with hf | hf
      · exact ⟨f, hf, hrange⟩
      · have hsome := hnames f hf
        rw [hname] at hsome
        cases hsome
    · rintro ⟨f, hf, hrange⟩
      exact ⟨f, List.mem_append_left _ hf, hstatic f hf, hrange⟩
  · have hfilter : ((splitEncodingStr values.encoding).map staticField ++ named).filter
        (fun f => f.name.isNone) = (splitEncodingStr values.encoding).map staticField := by
      rw [List.filter_append, List.filter_eq_self.mpr fun f hf => by rw [hstatic f hf]; rfl,
        List.filter_eq_nil_iff.mpr fun f hf => by
          simpa [Option.isSome_iff_ne_none] using hnames f hf, List.append_nil]
    rw [hfilter]
    exact pairwise_staticField hplain
  · have hfilter : ((splitEncodingStr values.encoding).map staticField ++ named).filter
        (fun f => f.name.isSome) = named := by
      rw [List.filter_append, List.filter_eq_self.mpr hnames,
        List.filter_eq_nil_iff.mpr fun f hf => by rw [hstatic f hf]; exact Bool.false_ne_true,
        List.nil_append]
    rw [hfilter]
    exact hplaced

end convert

/-! ## The whole table

The instructions are converted in the order of the table, and the first one that fails stops the
converter. -/

section table

variable {argLut : Dict Text (Nat × Nat)} {insns : Dict String InsnValues}
  {db : Dict String OpcodeEntry}

/-- The entry of a row. -/
def ConvertedFrom (argLut : Dict Text (Nat × Nat)) (p : String × InsnValues)
    (q : String × OpcodeEntry) : Prop :=
  q.1 = p.1 ∧ convert argLut p.2 = .ok q.2

theorem foldlM_convert {l : List (String × InsnValues)} (hnodup : (l.map Prod.fst).Nodup)
    {d d' : Dict String OpcodeEntry} (hnew : ∀ p ∈ l, p.1 ∉ d.keys) :
    l.foldlM (fun instructions p =>
      if p.1 ∈ instructions.keys then pure instructions
      else do pure (instructions.set p.1 (← convert argLut p.2))) d = .ok d' ↔
    ∃ qs, List.Forall₂ (ConvertedFrom argLut) l qs ∧ d'.items = d.items ++ qs := by
  -- what is converted stands behind what was there before
  induction l generalizing d with
  | nil =>
      simp only [List.forall₂_nil_left_iff, exists_eq_left, List.append_nil]
      constructor
      · intro h
        cases h
        rfl
      · intro h
        exact congrArg Except.ok (Dict.eq_of_items h.symm)
  | cons p l ih =>
      obtain ⟨hp, hl⟩ := List.nodup_cons.mp hnodup
      have hfresh : p.1 ∉ d.keys := hnew p List.mem_cons_self
      have hset : ∀ e, (d.set p.1 e).items = d.items ++ [(p.1, e)] :=
        Dict.items_set_of_notMem hfresh
      have hrest : ∀ e, ∀ q ∈ l, q.1 ∉ (d.set p.1 e).keys := by
        intro e q hq hkey
        rcases Dict.mem_keys_set.mp hkey with heq | hold
        · exact hp (heq ▸ List.mem_map_of_mem hq)
        · exact hnew q (List.mem_cons_of_mem p hq) hold
      rw [List.foldlM_cons, if_neg hfresh, bind_eq_ok_iff]
      constructor
      · rintro ⟨d₁, hd₁, h⟩
        obtain ⟨e, he, hpure⟩ := bind_eq_ok_iff.mp hd₁
        cases hpure
        obtain ⟨qs, hqs, hitems⟩ := (ih hl (hrest e)).mp h
        refine ⟨(p.1, e) :: qs, List.Forall₂.cons ⟨rfl, he⟩ hqs, ?_⟩
        rw [hitems, hset, List.append_assoc, List.singleton_append]
      · rintro ⟨qs', hqs', hitems⟩
        obtain ⟨⟨k, e⟩, qs, ⟨rfl, he⟩, hqs, rfl⟩ := List.forall₂_cons_left_iff.mp hqs'
        refine ⟨d.set p.1 e, bind_eq_ok_iff.mpr ⟨e, he, rfl⟩, (ih hl (hrest e)).mpr ⟨qs, hqs, ?_⟩⟩
        rw [hitems, hset, List.append_assoc, List.singleton_append]

/-- The entries stand in the order of the table. -/
theorem convertAll_eq_ok_iff :
    convertAll argLut insns = .ok db ↔
      List.Forall₂ (ConvertedFrom argLut) insns.items db.items := by
  have hnew : ∀ p ∈ insns.items, p.1 ∉ (Dict.empty : Dict String OpcodeEntry).keys :=
    fun p _ hp => absurd hp List.not_mem_nil
  rw [convertAll, foldlM_convert insns.nodup hnew]
  exact ⟨fun ⟨qs, hqs, hitems⟩ => hitems ▸ hqs, fun h => ⟨_, h, rfl⟩⟩

theorem map_fst_of_converted {l : List (String × InsnValues)} {qs : List (String × OpcodeEntry)}
    (h : List.Forall₂ (ConvertedFrom argLut) l qs) : l.map Prod.fst = qs.map Prod.fst := by
  induction h with
  | nil => rfl
  | cons hpq _ ih => rw [List.map_cons, List.map_cons, ih, hpq.1]

/-- An entry is found under a mnemonic exactly if it was made of what the table has there. -/
theorem get?_of_convertAll (h : convertAll argLut insns = .ok db) {k : String} {e : OpcodeEntry} :
    db.get? k = some e ↔ ∃ v, insns.get? k = some v ∧ convert argLut v = .ok e := by
  have hrows := convertAll_eq_ok_iff.mp h
  simp only [← Dict.mem_items_iff]
  constructor
  · intro hmem
    obtain ⟨⟨k', v⟩, hp, hk, hv⟩ := exists_of_mem_right hrows hmem
    obtain rfl : k = k' := hk
    exact ⟨v, hp, hv⟩
  · rintro ⟨v, hmem, hv⟩
    obtain ⟨⟨k', e'⟩, hq, hk, hv'⟩ := exists_of_mem_left hrows hmem
    obtain rfl : k' = k := hk
    rwa [Except.ok.inj (hv.symm.trans hv')]

/-- The converter writes all of the table or stops: it stops exactly at an instruction whose `match`
and `mask` accept other words than its encoding, or with a field that has no place. -/
theorem convertsTable (hplain : ∀ p ∈ insns.items, OfBits p.2.encoding) :
    ((∃ db, convertAll argLut insns = .ok db) ↔ ∀ p ∈ insns.items, p.2.Sound argLut) ∧
    ∀ db, convertAll argLut insns = .ok db →
      List.Forall₂ (fun p q => q.1 = p.1 ∧ q.2.Renders argLut p.2) insns.items db.items := by
  have hsound : ∀ p ∈ insns.items, (∃ e, convert argLut p.2 = .ok e) ↔ p.2.Sound argLut :=
    fun p hp => exists_convert_iff (hplain p hp)
  refine ⟨⟨?_, fun h => ?_⟩, fun db hdb => ?_⟩
  · rintro ⟨db, hdb⟩ p hp
    obtain ⟨q, -, -, hq⟩ := exists_of_mem_left (convertAll_eq_ok_iff.mp hdb) hp
    exact (hsound p hp).mp ⟨q.2, hq⟩
  · obtain ⟨qs, hqs⟩ := exists_forall₂_iff.mpr fun p hp => by
      obtain ⟨e, he⟩ := (hsound p hp).mpr (h p hp)
      exact (⟨(p.1, e), rfl, he⟩ : ∃ q, ConvertedFrom argLut p q)
    have hnodup : (qs.map Prod.fst).Nodup := map_fst_of_converted hqs ▸ insns.nodup
    exact ⟨⟨qs, hnodup⟩, convertAll_eq_ok_iff.mpr hqs⟩
  · have hrows := (List.forall₂_and_left (p := fun p => OfBits p.2.encoding) _ _).mpr
      ⟨hplain, convertAll_eq_ok_iff.mp hdb⟩
    exact hrows.imp fun p q ⟨hp, hk, hq⟩ => ⟨hk, renders_of_convert hp hq⟩

/-- Two instructions of which one has all words of the other. -/
def compressedInsns : List (String × InsnValues) :=
  [("c.jalr", ⟨"----------------1001-----0000010".toList, ["rv_c"], "0x9002".toList,
    "0xf07f".toList, ["c.rs1.n0".toList]⟩),
  ("c.ebreak", ⟨"----------------1001000000000010".toList, ["rv_c"], "0x9002".toList,
    "0xffff".toList, []⟩)]

theorem compressedInsns_nodup : (compressedInsns.map Prod.fst).Nodup := by decide

def compressedTable : Dict String InsnValues := ⟨compressedInsns, compressedInsns_nodup⟩

def compressedLut : Dict Text (Nat × Nat) := Dict.empty.set "c.rs1.n0".toList (11, 7)

theorem ofBits_compressed : ∀ p ∈ compressedTable.items, OfBits p.2.encoding := by decide

theorem convertsTable_compressed : ∃ db, convertAll compressedLut compressedTable = .ok db ∧
    List.Forall₂ (fun p q => q.1 = p.1 ∧ q.2.Renders compressedLut p.2) compressedTable.items
      db.items :=
  ⟨_, rfl, (convertsTable ofBits_compressed).2 _ rfl⟩

end table

/-! ## The collection

A collection goes by combined masks. For a converted table these say the same as the encodings, so
the answers of `disassemble` can be told from the table alone. -/

/-- What the collection uses of the file. -/
def loadDb (db : Dict String OpcodeEntry) : Dict String InstructionEntry where
  items := db.items.map fun q => (q.1, q.2.toInstructionEntry)
  nodup := by
    rw [List.map_map]
    exact db.nodup

theorem get?_loadDb {db : Dict String OpcodeEntry} {k : String} {ie : InstructionEntry} :
    (loadDb db).get? k = some ie ↔ ∃ e, db.get? k = some e ∧ e.toInstructionEntry = ie := by
  simp only [← Dict.mem_items_iff, loadDb, List.mem_map, Prod.exists, Prod.mk.injEq]
  grind

namespace IndexedCollection

theorem get?_initRemove (is : List String) (s : Dict String InstructionEntry × Finset String)
    (k : String) : (initRemove is s).1.get? k = if k ∈ is then none else s.1.get? k := by
  induction is generalizing s with
  | nil => rfl
  | cons i is ih =>
      rw [initRemove]
      split
      next =>
        rw [ih, Dict.get?_erase]
        grind
      next hi =>
        rw [ih]
        have hnone := Dict.get?_eq_none_iff.mpr hi
        grind

/-- The instructions that `__init__` keeps. -/
theorem get?_init {all : Dict String InstructionEntry} {extensions remove : List String}
    {self : IndexedCollection} (h : init all extensions remove = some self) {k : String}
    {ie : InstructionEntry} : self.maps.instructions.get? k = some ie ↔
      all.get? k = some ie ∧ (∃ ext ∈ ie.extension, ext ∈ extensions) ∧ k ∉ remove := by
  obtain ⟨maps, hmaps, hloop⟩ := eq_of_init h
  have hget := get?_initRemove remove (ofExtensions all extensions, ∅) k
  rw [← hloop] at hget
  rw [hmaps, get?_updateMaps, hget]
  split
  next hk => simp [hk]
  next hk =>
    simp only [← Dict.mem_items_iff, ofExtensions, List.mem_filter]
    simp [hk]

end IndexedCollection

/-- The collection has the instruction. -/
def Chosen (extensions remove : List String) (p : String × InsnValues) : Prop :=
  (∃ ext ∈ p.2.extension, ext ∈ extensions) ∧ p.1 ∉ remove

/-- Words are disassembled by the encodings of the chosen instructions: a word that fits none of
them is unknown, and of those that it fits one is answered that fixes the most bits. -/
def DecodesEncodings (insns : Dict String InsnValues) (extensions remove : List String)
    (coll : IndexedCollection) : Prop :=
  ∀ word : UInt32, ∃ r, coll.disassemble word.toNat = some r ∧
    (r = none ↔ ∀ p ∈ insns.items, Chosen extensions remove p →
      ¬FitsEncoding p.2.encoding word.toNat) ∧
    ∀ i, r = some i → ∃ v, insns.get? i = some v ∧ Chosen extensions remove (i, v) ∧
      FitsEncoding v.encoding word.toNat ∧
      ∀ p ∈ insns.items, Chosen extensions remove p → FitsEncoding p.2.encoding word.toNat →
        fixedBits p.2.encoding ≤ fixedBits v.encoding

/-- What a collection answers for the words of a converted table. -/
theorem decodesEncodings_of_init {argLut : Dict Text (Nat × Nat)} {insns : Dict String InsnValues}
    {db : Dict String OpcodeEntry} {extensions remove : List String} {coll : IndexedCollection}
    (hplain : ∀ p ∈ insns.items, OfBits p.2.encoding)
    (hdb : convertAll argLut insns = .ok db)
    (hinit : IndexedCollection.init (loadDb db) extensions remove = some coll) :
    DecodesEncodings insns extensions remove coll := by
  obtain ⟨maps, hmaps, -⟩ := IndexedCollection.eq_of_init hinit
  have hrenders : ∀ k v e, insns.get? k = some v → convert argLut v = .ok e → e.Renders argLut v :=
    fun k v e hv he => renders_of_convert (hplain _ (Dict.mem_items_iff.mpr hv)) he
  -- the instructions that are searched are the chosen ones of the table
  have hitems : ∀ k ie, (k, ie) ∈ (InstructionMaps.sortedInstructions maps.instructions).items ↔
      ∃ v e, insns.get? k = some v ∧ convert argLut v = .ok e ∧ e.toInstructionEntry = ie ∧
        Chosen extensions remove (k, v) := by
    intro k ie
    rw [(InstructionMaps.items_sortedInstructions_perm maps.instructions).mem_iff,
      Dict.mem_items_iff, ← IndexedCollection.get?_updateMaps, ← hmaps,
      IndexedCollection.get?_init hinit, get?_loadDb]
    simp only [get?_of_convertAll hdb]
    constructor
    · rintro ⟨⟨e, ⟨v, hv, he⟩, rfl⟩, ⟨ext, hext, hchosen⟩, hk⟩
      change ext ∈ e.extension at hext
      rw [(hrenders k v e hv he).extension] at hext
      exact ⟨v, e, hv, he, rfl, ⟨ext, hext, hchosen⟩, hk⟩
    · rintro ⟨v, e, hv, he, rfl, ⟨ext, hext, hchosen⟩, hk⟩
      change ext ∈ v.extension at hext
      rw [← (hrenders k v e hv he).extension] at hext
      exact ⟨⟨e, ⟨v, hv, he⟩, rfl⟩, ⟨ext, hext, hchosen⟩, hk⟩
  have hsearched : ∀ p ∈ insns.items, Chosen extensions remove p → ∃ e : OpcodeEntry,
      (p.1, e.toInstructionEntry) ∈
        (InstructionMaps.sortedInstructions maps.instructions).items ∧
      e.Renders argLut p.2 := by
    intro p hp hchosen
    obtain ⟨q, -, -, he⟩ := exists_of_mem_left (convertAll_eq_ok_iff.mp hdb) hp
    have hv := Dict.mem_items_iff.mp hp
    exact ⟨q.2, (hitems _ _).mpr ⟨p.2, q.2, hv, he, rfl, hchosen⟩, hrenders _ _ _ hv he⟩
  intro word
  refine ⟨_, by rw [IndexedCollection.disassemble, hmaps]; exact maps.disassemble_eq word, ?_, ?_⟩
  · rw [InstructionMaps.searchBucket_eq_none_iff]
    constructor
    · intro hno p hp hchosen hfits
      obtain ⟨e, he, hrendered⟩ := hsearched p hp hchosen
      exact hno _ he ((hrendered.words _).mpr hfits)
    · rintro hno ⟨k, ie⟩ hie hmatch
      obtain ⟨v, e, hv, he, rfl, hchosen⟩ := (hitems k ie).mp hie
      exact hno (k, v) (Dict.mem_items_iff.mpr hv) hchosen
        (((hrenders k v e hv he).words _).mp hmatch)
  · intro i hi
    obtain ⟨ie, hie, hmatch, hbest⟩ := InstructionMaps.best_of_searchBucket hi
    obtain ⟨v, e, hv, he, rfl, hchosen⟩ := (hitems i ie).mp hie
    have hrendered := hrenders i v e hv he
    refine ⟨v, hv, hchosen, (hrendered.words _).mp hmatch, fun p hp hpchosen hfits => ?_⟩
    obtain ⟨e', he', hrendered'⟩ := hsearched p hp hpchosen
    rw [← hrendered'.count, ← hrendered.count]
    exact hbest _ he' ((hrendered'.words _).mpr hfits)

theorem exists_collection_compressed :
    ∃ db coll, convertAll compressedLut compressedTable = .ok db ∧
      IndexedCollection.init (loadDb db) ["rv_c"] [] = some coll :=
  ⟨_, _, rfl, rfl⟩

theorem decodesEncodings_of_init_compressed :
    ∃ coll, DecodesEncodings compressedTable ["rv_c"] [] coll := by
  obtain ⟨db, coll, hdb, hinit⟩ := exists_collection_compressed
  exact ⟨coll, decodesEncodings_of_init ofBits_compressed hdb hinit⟩

end RISCover
