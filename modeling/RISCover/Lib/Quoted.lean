import RISCover.Lib.Yaml

/-!
# Block documents with quoted scalars

A scalar between single quotes stands for the string between them. A text that is not its own
quotation stays in the document as it is written, so the value of a node has the quotes in it, and
`Value.unquote` takes them off.
-/

open Text

namespace Yaml

/-! ## Quotation

A scalar begins with a quote exactly if it was quoted, as plain ones never do. -/

def quote (t : Text) : Text := '\'' :: t ++ ['\'']

/-- What may stand between quotes on one line: printable characters and tabs, without a quote. -/
def isQuotable (t : Text) : Bool :=
  t.all fun ch => (ch == '\t' || ' ' ≤ ch && ch ≤ '~') && ch != '\''

/-- A quoted scalar. -/
def Quoted (t : Text) : Prop := ∃ u, isQuotable u = true ∧ t = quote u

/-- The text without its quotes, if it has any. -/
def unquoted (t : Text) : Text :=
  if t.head? = some '\'' then t.tail.dropLast else t

theorem inert_quote {t : Text} (h : isQuotable t = true) : Inert (quote t) := by
  rw [isQuotable, List.all_eq_true] at h
  refine ⟨'\'', t ++ ['\''], rfl, by decide, by decide, by decide, Or.inl rfl, fun hmem => ?_⟩
  simp only [quote, List.cons_append, List.mem_cons, List.mem_append, List.not_mem_nil,
    or_false] at hmem
  rcases hmem with hquote | hmem | hquote
  · exact absurd hquote (by decide)
  · exact absurd (h _ hmem) (by decide)
  · exact absurd hquote (by decide)

/-! ## Values

The quotes are taken off all strings of a list or a dictionary, at any depth. Keys have none. -/

namespace Value

mutual

/-- The value with its strings unquoted. -/
def unquote : Value → Value
  | .str t => .str (unquoted t)
  | .list items => .list (unquoteItems items)
  | .dict entries => .dict (unquoteEntries entries)
  | v => v

def unquoteItems : List Value → List Value
  | [] => []
  | v :: items => v.unquote :: unquoteItems items

def unquoteEntries : List (Text × Value) → List (Text × Value)
  | [] => []
  | (key, v) :: entries => (key, v.unquote) :: unquoteEntries entries

end

@[simp] theorem unquote_int (n : Int) : (Value.int n).unquote = .int n := by
  simp [unquote]

theorem unquoteItems_eq (items : List Value) : unquoteItems items = items.map unquote := by
  induction items with
  | nil => rfl
  | cons v items ih => rw [unquoteItems, ih, List.map_cons]

theorem lookup_unquoteEntries (entries : List (Text × Value)) (key : Text) :
    (unquoteEntries entries).lookup key = (entries.lookup key).map unquote := by
  induction entries with
  | nil => rfl
  | cons p entries ih =>
      obtain ⟨key', v⟩ := p
      rw [unquoteEntries, List.lookup_cons, List.lookup_cons, ih]
      split <;> rfl

end Value

/-! ## Documents

What a reader of the text is assumed to do: it reads a document whose keys are plain and different,
and takes the quotes off. -/

mutual

/-- The keys of every mapping are different. -/
def Node.Distinct : Node → Prop
  | .scalar _ => True
  | .seq items => distinctItems items
  | .map entries => (entries.map Prod.fst).Nodup ∧ distinctEntries entries

def distinctItems : List Node → Prop
  | [] => True
  | item :: items => item.Distinct ∧ distinctItems items

def distinctEntries : List (Text × Node) → Prop
  | [] => True
  | (_, v) :: entries => v.Distinct ∧ distinctEntries entries

end

theorem distinctItems_iff {items : List Node} : distinctItems items ↔ ∀ v ∈ items, v.Distinct := by
  induction items with
  | nil => simp [distinctItems]
  | cons item items ih => rw [distinctItems, ih, List.forall_mem_cons]

theorem distinctEntries_iff {entries : List (Text × Node)} :
    distinctEntries entries ↔ ∀ p ∈ entries, p.2.Distinct := by
  induction entries with
  | nil => simp [distinctEntries]
  | cons p entries ih => rw [distinctEntries, ih, List.forall_mem_cons]

/-- A document of plain keys, and of scalars that are plain or quoted. -/
structure Node.Document (v : Node) : Prop where
  all : v.All (fun k => isKey k = true) fun t => isPlain t = true ∨ Quoted t
  distinct : v.Distinct

theorem Node.Document.scalar {t : Text} (h : isPlain t = true ∨ Quoted t) :
    (Node.scalar t).Document := ⟨h, trivial⟩

theorem Node.Document.seq {items : List Node} (h : ∀ v ∈ items, v.Document) :
    (Node.seq items).Document where
  all := by
    rw [Node.All, allItems_iff]
    exact fun v hv => (h v hv).all
  distinct := by
    rw [Node.Distinct, distinctItems_iff]
    exact fun v hv => (h v hv).distinct

theorem Node.Document.map {entries : List (Text × Node)} (hkeys : (entries.map Prod.fst).Nodup)
    (h : ∀ p ∈ entries, isKey p.1 = true ∧ p.2.Document) : (Node.map entries).Document where
  all := by
    rw [Node.All, allEntries_iff]
    exact fun p hp => ⟨(h p hp).1, (h p hp).2.all⟩
  distinct := by
    rw [Node.Distinct, distinctEntries_iff]
    exact ⟨hkeys, fun p hp => (h p hp).2.distinct⟩

/-- What a loaded mapping has for a key. -/
theorem getItem_unquote (entries : List (Text × Node)) (key : String) :
    (Node.map entries).value.unquote.getItem key =
      (entries.lookup key.toList).map fun v => v.value.unquote := by
  rw [Node.value, Value.unquote, Value.getItem, Value.lookup_unquoteEntries, lookup_entryValues,
    Option.map_map]
  rfl

/-- What a loop over a loaded sequence sees. -/
theorem elements_unquote (items : List Node) :
    (Node.seq items).value.unquote.elements = some (items.map fun v => v.value.unquote) := by
  rw [Node.value, Value.unquote, Value.elements, Value.unquoteItems_eq, itemValues_eq,
    List.map_map]
  rfl

/-- A loader reads documents with quoted scalars. -/
def ReadsDocuments (safeLoad : Text → Option Value) : Prop :=
  ∀ v : Node, v.Document → safeLoad (unlines v.lines) = some v.value.unquote

theorem readsDocuments_load : ReadsDocuments fun t => (load t).map Value.unquote := by
  intro v hv
  have hinert : v.All InertKey Inert := by
    refine hv.all.imp (fun k hk => (isPlain_cons (isPlain_of_isKey hk)).1) ?_
    rintro t (hplain | ⟨u, hu, rfl⟩)
    · exact (isPlain_cons hplain).2
    · exact inert_quote hu
  show (load (unlines v.lines)).map Value.unquote = _
  rw [load_lines hinert, Option.map_some]

end Yaml
