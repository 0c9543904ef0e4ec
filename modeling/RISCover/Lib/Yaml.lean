import Mathlib.Data.List.SplitBy
import RISCover.Lib.Dict
import RISCover.Lib.Text

/-!
# Block documents of YAML

A document of sequences, mappings and scalars in block style: what it looks like, which Python value
it stands for, and a reader that gets the value back from the lines. Sequences below a key are not
indented any further, as PyYAML writes them.
-/

open Text

namespace Yaml

/-! ## Values

The values a loader makes, with Python's `==` and its lookups. -/

/-- The Python values that a document stands for. -/
inductive Value where
  | null
  | bool (b : Bool)
  | int (n : Int)
  | str (t : Text)
  /-- A scalar that starts like a number and may be a float, a date or a string. -/
  | other (t : Text)
  | list (items : List Value)
  | dict (entries : List (Text × Value))

namespace Value

mutual

/-- Python's `==`. The order of a dictionary does not matter. -/
def eq : Value → Value → Bool
  | .null, .null => true
  | .bool a, .bool b => a == b
  | .bool a, .int n => a.toInt == n
  | .int n, .bool b => n == b.toInt
  | .int m, .int n => m == n
  | .str s, .str t => s == t
  | .other s, .other t => s == t
  | .list xs, .list ys => eqItems xs ys
  | .dict xs, .dict ys => xs.length == ys.length && eqEntries xs ys
  | _, _ => false

def eqItems : List Value → List Value → Bool
  | [], [] => true
  | x :: xs, y :: ys => x.eq y && eqItems xs ys
  | _, _ => false

/-- Every entry is in the other dictionary. -/
def eqEntries : List (Text × Value) → List (Text × Value) → Bool
  | [], _ => true
  | (k, v) :: xs, ys =>
    (match ys.lookup k with
      | some w => v.eq w
      | none => false) && eqEntries xs ys

end

@[simp] theorem eq_int (m n : Int) : (Value.int m).eq (.int n) = (m == n) := by rw [eq]

/-- `d.get(key)`; only a dictionary has it. -/
def get : Value → String → Option Value
  | .dict entries, key => some ((entries.lookup key.toList).getD .null)
  | _, _ => none

/-- `d[key]`. -/
def getItem : Value → String → Option Value
  | .dict entries, key => entries.lookup key.toList
  | _, _ => none

/-- The elements that a loop over the value sees. -/
def elements : Value → Option (List Value)
  | .list items => some items
  | .dict entries => some (entries.map fun p => .str p.1)
  | .str t => some (t.map fun ch => .str [ch])
  | _ => none

/-- Lists and dictionaries have no hash. -/
def hashable : Value → Bool
  | .list _ | .dict _ => false
  | _ => true

end Value

/-! ## Scalars

What a plain scalar stands for is told by its characters. A text that looks like a number, a truth
value or nothing is no string. -/

/-- The integers of YAML 1.1, without the forms that have a `_` or a `:`. -/
def resolveNat : Text → Option Nat
  | '0' :: 'b' :: ds =>
    if ds ≠ [] ∧ ds.all (fun ch => ch == '0' || ch == '1') then some (Nat.ofDigitChars 2 ds 0)
    else none
  | '0' :: 'x' :: ds => if ds ≠ [] ∧ ds.all isHex then some (ofHex ds) else none
  | '0' :: ds =>
    if ds.all (fun ch => '0' ≤ ch && ch ≤ '7') then some (Nat.ofDigitChars 8 ds 0) else none
  | t => if t ≠ [] ∧ t.all Char.isDigit then some (Nat.ofDigitChars 10 t 0) else none

def resolveInt : Text → Option Int
  | '-' :: t => (resolveNat t).map fun n => -n
  | '+' :: t => (resolveNat t).map fun n => n
  | t => (resolveNat t).map fun n => n

def nulls : List String := ["", "~", "null", "Null", "NULL"]

def trues : List String :=
  ["yes", "Yes", "YES", "true", "True", "TRUE", "on", "On", "ON"]

def falses : List String :=
  ["no", "No", "NO", "false", "False", "FALSE", "off", "Off", "OFF"]

/-- The text starts like a number and has a character that only floats, dates and the other forms of
integers have. -/
def maybeNumber (t : Text) : Bool :=
  t.head?.any (fun ch => ch.isDigit || ch == '+' || ch == '-' || ch == '.') &&
    t.any fun ch => ch == '.' || ch == '-' || ch == ':' || ch == '_'

/-- The value of a plain scalar. -/
def resolve (t : Text) : Value :=
  match resolveInt t with
  | some n => .int n
  | none =>
    if nulls.any fun s => t == s.toList then .null
    else if trues.any fun s => t == s.toList then .bool true
    else if falses.any fun s => t == s.toList then .bool false
    else if maybeNumber t then .other t
    else .str t

/-- Numbers in hexadecimal are integers. -/
theorem resolve_0x {ds : Text} (hne : ds ≠ []) (hds : ∀ ch ∈ ds, isHex ch = true) :
    resolve ('0' :: 'x' :: ds) = .int (ofHex ds) := by
  have hnat : resolveNat ('0' :: 'x' :: ds) = some (ofHex ds) := by
    rw [resolveNat, if_pos ⟨hne, List.all_eq_true.mpr hds⟩]
  have hint : resolveInt ('0' :: 'x' :: ds) = some (ofHex ds : Int) := by
    rw [resolveInt, hnat]
    · rfl
    · simp
    · simp
  rw [resolve, hint]

/-- A text that stands for itself as a plain scalar, whatever stands around it: printable, with a
letter or a digit in front, without the characters that end a scalar. -/
def isPlain (t : Text) : Bool :=
  t.head?.any Char.isAlphanum && t.getLast?.all (· != ' ') &&
    t.all fun ch => ' ' ≤ ch && ch ≤ '~' && ch != ':' && ch != '#'

theorem isAlphanum_iff (ch : Char) :
    ch.isAlphanum = true ↔ 65 ≤ ch.toNat ∧ ch.toNat ≤ 90 ∨ 97 ≤ ch.toNat ∧ ch.toNat ≤ 122 ∨
      48 ≤ ch.toNat ∧ ch.toNat ≤ 57 := by
  have hranges : ch.isAlphanum =
      (decide (ch.val ≥ 65 ∧ ch.val ≤ 90) || (decide (ch.val ≥ 97) && decide (ch.val ≤ 122)) ||
        (decide (ch.val ≥ 48) && decide (ch.val ≤ 57))) := rfl
  simp only [hranges, Bool.or_eq_true, Bool.and_eq_true, decide_eq_true_eq,
    UInt32.le_iff_toNat_le, ge_iff_le, or_assoc]
  rfl

/-- Letters and digits are always plain. -/
theorem isPlain_of_isAlphanum {t : Text} (hne : t ≠ []) (h : ∀ ch ∈ t, ch.isAlphanum = true) :
    isPlain t = true := by
  have hch : ∀ ch : Char, ch.isAlphanum = true →
      (' ' ≤ ch ∧ ch ≤ '~') ∧ ch ≠ ':' ∧ ch ≠ '#' ∧ ch ≠ ' ' := by
    intro ch hch
    refine ⟨?_, ?_, ?_, ?_⟩
    · rw [isAlphanum_iff] at hch
      simp only [Char.le_def, UInt32.le_iff_toNat_le]
      simp at hch ⊢
      omega
    all_goals
      rintro rfl
      exact absurd hch (by decide)
  cases t with
  | nil => exact absurd rfl hne
  | cons ch t =>
      simp only [isPlain, Bool.and_eq_true, List.head?_cons, Option.any_some]
      refine ⟨⟨h ch List.mem_cons_self, ?_⟩, List.all_eq_true.mpr fun x hx => ?_⟩
      · rw [List.getLast?_eq_some_getLast (List.cons_ne_nil _ _), Option.all_some, bne_iff_ne]
        exact (hch _ (h _ (List.getLast_mem (List.cons_ne_nil _ _)))).2.2.2
      · obtain ⟨⟨hlo, hhi⟩, hcolon, hhash, -⟩ := hch x (h x hx)
        simp [hlo, hhi, hcolon, hhash]

theorem isAlphanum_of_isHex {ch : Char} (h : isHex ch = true) : ch.isAlphanum = true := by
  simp only [isHex, hexNibble, Char.le_def, UInt32.le_iff_toNat_le] at h
  rw [isAlphanum_iff]
  split_ifs at h with hdigit hlower hupper
  · exact Or.inr (Or.inr hdigit)
  · simp at hlower ⊢
    omega
  · simp at hupper ⊢
    omega
  · cases h

/-- Numbers are plain. -/
theorem isPlain_0x {ds : Text} (h : ∀ ch ∈ ds, isHex ch = true) :
    isPlain ('0' :: 'x' :: ds) = true := by
  apply isPlain_of_isAlphanum (List.cons_ne_nil _ _)
  refine List.forall_mem_cons.mpr ⟨rfl, List.forall_mem_cons.mpr ⟨rfl, fun ch hch => ?_⟩⟩
  exact isAlphanum_of_isHex (h ch hch)

theorem isPlain_dec (n : Nat) : isPlain (dec n) = true := by
  apply isPlain_of_isAlphanum Nat.toDigits_ne_nil
  intro ch hch
  have hdigit := Nat.isDigit_of_mem_toDigits (by decide) (by decide) hch
  rw [Char.isAlphanum, hdigit, Bool.or_true]

/-! ## Documents

A node is written below its key or behind a dash. `Node.induct` is the induction over nested lists
that goes with it. -/

inductive Node where
  | scalar (t : Text)
  | seq (items : List Node)
  | map (entries : List (Text × Node))

/-- The nodes of a document can be taken apart down to the scalars. -/
theorem Node.induct {motive : Node → Prop} (scalar : ∀ t, motive (.scalar t))
    (seq : ∀ items, (∀ v ∈ items, motive v) → motive (.seq items))
    (map : ∀ entries, (∀ p ∈ entries, motive p.2) → motive (.map entries)) :
    ∀ v, motive v := by
  refine @Node.rec motive (fun items => ∀ v ∈ items, motive v)
    (fun entries => ∀ p ∈ entries, motive p.2) (fun p => motive p.2) scalar seq map
    ?_ ?_ ?_ ?_ fun _ _ h => h
  · exact fun v hv => absurd hv List.not_mem_nil
  · exact fun v items hv hitems => List.forall_mem_cons.mpr ⟨hv, hitems⟩
  · exact fun p hp => absurd hp List.not_mem_nil
  · exact fun p entries hp hentries => List.forall_mem_cons.mpr ⟨hp, hentries⟩

def indent (ls : List Text) : List Text := ls.map ("  ".toList ++ ·)

/-- An item of a sequence. -/
def dash : List Text → List Text
  | [] => []
  | l :: ls => ("- ".toList ++ l) :: indent ls

/-- Lines below a key. -/
def below (key : Text) (ls : List Text) : List Text := (key ++ ":".toList) :: ls

/-- A line behind a key. -/
def behind (key : Text) (ls : List Text) : List Text := ls.map (key ++ ": ".toList ++ ·)

mutual

/-- A node in block style. -/
def Node.lines : Node → List Text
  | .scalar t => [t]
  | .seq [] => ["[]".toList]
  | .seq (item :: items) => itemLines (item :: items)
  | .map [] => ["{}".toList]
  | .map (p :: entries) => entryLines (p :: entries)

def itemLines : List Node → List Text
  | [] => []
  | item :: items => dash item.lines ++ itemLines items

def entryLines : List (Text × Node) → List Text
  | [] => []
  | (key, v) :: entries => v.under key ++ entryLines entries

/-- A node as the value of a key. -/
def Node.under (key : Text) : Node → List Text
  | .scalar t => behind key [t]
  | .seq [] => behind key ["[]".toList]
  | .seq (item :: items) => below key (itemLines (item :: items))
  | .map [] => behind key ["{}".toList]
  | .map (p :: entries) => below key (indent (entryLines (p :: entries)))

end

mutual

/-- The value of a node, with plain scalars. -/
def Node.value : Node → Value
  | .scalar t => resolve t
  | .seq items => .list (itemValues items)
  | .map entries => .dict (entryValues entries)

def itemValues : List Node → List Value
  | [] => []
  | item :: items => item.value :: itemValues items

def entryValues : List (Text × Node) → List (Text × Value)
  | [] => []
  | (key, v) :: entries => (key, v.value) :: entryValues entries

end

def isStr (t : Text) : Bool :=
  match resolve t with
  | .str _ => true
  | _ => false

/-- A key on one line is a string of fewer than 1024 characters. -/
def isKey (t : Text) : Bool := isPlain t && isStr t && t.length < 1024

mutual

/-- All scalars and keys are plain, and the keys of a mapping are different strings. -/
def Node.Plain : Node → Prop
  | .scalar t => isPlain t = true
  | .seq items => plainItems items
  | .map entries => (entries.map Prod.fst).Nodup ∧ plainEntries entries

def plainItems : List Node → Prop
  | [] => True
  | item :: items => item.Plain ∧ plainItems items

def plainEntries : List (Text × Node) → Prop
  | [] => True
  | (key, v) :: entries =>
    (isKey key = true ∧ v.Plain) ∧ plainEntries entries

end

/-- A key with a scalar. -/
def field (key : String) (t : Text) : Text × Node := (key.toList, .scalar t)

theorem itemLines_eq (items : List Node) :
    itemLines items = (items.map fun v => dash v.lines).flatten := by
  induction items with
  | nil => rfl
  | cons item items ih => rw [itemLines, ih, List.map_cons, List.flatten_cons]

theorem itemLines_scalars {α : Type} (f : α → Text) (xs : List α) :
    itemLines (xs.map fun x => .scalar (f x)) = xs.map fun x => "- ".toList ++ f x := by
  induction xs with
  | nil => rfl
  | cons x xs ih =>
      rw [List.map_cons, itemLines, ih]
      rfl

theorem entryLines_eq (entries : List (Text × Node)) :
    entryLines entries = (entries.map fun p => p.2.under p.1).flatten := by
  induction entries with
  | nil => rfl
  | cons p entries ih => rw [entryLines, ih, List.map_cons, List.flatten_cons]

theorem entryLines_append (xs ys : List (Text × Node)) :
    entryLines (xs ++ ys) = entryLines xs ++ entryLines ys := by
  rw [entryLines_eq, entryLines_eq, entryLines_eq, List.map_append, List.flatten_append]

@[simp] theorem indent_cons (l : Text) (ls : List Text) :
    indent (l :: ls) = ("  ".toList ++ l) :: indent ls := rfl

@[simp] theorem indent_append (xs ys : List Text) : indent (xs ++ ys) = indent xs ++ indent ys :=
  List.map_append

/-- Entries that may be left out. -/
theorem entryLines_ite (p : Prop) [Decidable p] (entries : List (Text × Node)) :
    entryLines (if p then entries else []) = if p then entryLines entries else [] := by
  split <;> rfl

theorem indent_ite (p : Prop) [Decidable p] (ls : List Text) :
    indent (if p then ls else []) = if p then indent ls else [] := by
  split <;> rfl

theorem entryLines_singleton (key : Text) (v : Node) : entryLines [(key, v)] = v.under key := by
  rw [entryLines, entryLines, List.append_nil]

@[simp] theorem entryLines_field (key : String) (t : Text) (entries : List (Text × Node)) :
    entryLines (field key t :: entries) =
      (key.toList ++ ": ".toList ++ t) :: entryLines entries := rfl

theorem itemValues_eq (items : List Node) : itemValues items = items.map Node.value := by
  induction items with
  | nil => rfl
  | cons item items ih => rw [itemValues, ih, List.map_cons]

theorem entryValues_eq (entries : List (Text × Node)) :
    entryValues entries = entries.map fun p => (p.1, p.2.value) := by
  induction entries with
  | nil => rfl
  | cons p entries ih => rw [entryValues, ih, List.map_cons]

theorem plainItems_iff (items : List Node) : plainItems items ↔ ∀ v ∈ items, v.Plain := by
  induction items with
  | nil => simp [plainItems]
  | cons item items ih => rw [plainItems, ih, List.forall_mem_cons]

theorem plainEntries_iff (entries : List (Text × Node)) : plainEntries entries ↔
    ∀ p ∈ entries, isKey p.1 = true ∧ p.2.Plain := by
  induction entries with
  | nil => simp [plainEntries]
  | cons p entries ih => rw [plainEntries, ih, List.forall_mem_cons]

theorem lookup_entryValues (entries : List (Text × Node)) (key : Text) :
    (entryValues entries).lookup key = (entries.lookup key).map Node.value := by
  induction entries with
  | nil => rfl
  | cons p entries ih =>
      obtain ⟨key', v⟩ := p
      rw [entryValues, List.lookup_cons, List.lookup_cons, ih]
      split <;> rfl

/-! ## All keys and scalars

A property of every key and every scalar of a document. -/

mutual

/-- All keys and all scalars of a node have these properties. -/
def Node.All (key scalar : Text → Prop) : Node → Prop
  | .scalar t => scalar t
  | .seq items => allItems key scalar items
  | .map entries => allEntries key scalar entries

def allItems (key scalar : Text → Prop) : List Node → Prop
  | [] => True
  | item :: items => item.All key scalar ∧ allItems key scalar items

def allEntries (key scalar : Text → Prop) : List (Text × Node) → Prop
  | [] => True
  | (k, v) :: entries => (key k ∧ v.All key scalar) ∧ allEntries key scalar entries

end

section

variable {key scalar : Text → Prop}

theorem allItems_iff {items : List Node} :
    allItems key scalar items ↔ ∀ v ∈ items, v.All key scalar := by
  induction items with
  | nil => simp [allItems]
  | cons item items ih => rw [allItems, ih, List.forall_mem_cons]

theorem allEntries_iff {entries : List (Text × Node)} :
    allEntries key scalar entries ↔ ∀ p ∈ entries, key p.1 ∧ p.2.All key scalar := by
  induction entries with
  | nil => simp [allEntries]
  | cons p entries ih => rw [allEntries, ih, List.forall_mem_cons]

end

theorem Node.All.imp {key scalar key' scalar' : Text → Prop} {v : Node}
    (hkey : ∀ k, key k → key' k) (hscalar : ∀ t, scalar t → scalar' t)
    (h : v.All key scalar) : v.All key' scalar' := by
  induction v using Node.induct with
  | scalar t => exact hscalar t h
  | seq items ih =>
      rw [Node.All, allItems_iff] at h ⊢
      exact fun v hmem => ih v hmem (h v hmem)
  | map entries ih =>
      rw [Node.All, allEntries_iff] at h ⊢
      exact fun p hmem => ⟨hkey _ (h p hmem).1, ih p hmem (h p hmem).2⟩

theorem Node.Plain.all {v : Node} (hv : v.Plain) :
    v.All (fun k => isKey k = true) (fun t => isPlain t = true) := by
  induction v using Node.induct with
  | scalar t => exact hv
  | seq items ih =>
      rw [Node.Plain, plainItems_iff] at hv
      rw [Node.All, allItems_iff]
      exact fun v hmem => ih v hmem (hv v hmem)
  | map entries ih =>
      rw [Node.Plain, plainEntries_iff] at hv
      rw [Node.All, allEntries_iff]
      exact fun p hmem => ⟨(hv.2 p hmem).1, ih p hmem (hv.2 p hmem).2⟩

/-! ## Reading

The reader cuts the lines into the blocks of the items or entries, takes the indentation off and
reads each on its own. The fuel bounds the depth. -/

/-- What stands behind a key, a dash or alone on one line. -/
def inlineValue (t : Text) : Value :=
  if t = "[]".toList then .list [] else if t = "{}".toList then .dict [] else resolve t

def undent (ls : List Text) : List Text := ls.map (List.drop 2)

/-- Lines that belong to the item or the key above them. -/
def ofItem (l : Text) : Bool := l.head? == some ' '

def ofKey (l : Text) : Bool := l.head? == some ' ' || l.head? == some '-'

/-- A line with a key, and the lines below it. -/
def readEntry (read : List Text → Option Value) : List Text → Option (Text × Value)
  | [] => none
  | l :: ls => do
    let key := l.takeWhile (· != ':')
    let v ← match ls with
      | [] => some (inlineValue (l.drop (key.length + 2)))
      | l' :: _ => read (if l'.head? = some '-' then ls else undent ls)
    some (key, v)

/-- The value of the lines of a node that goes at most `fuel` deep. -/
def readNode : (fuel : Nat) → List Text → Option Value
  | 0, _ => none
  | _, [] => none
  | fuel + 1, l :: ls =>
    if l.head? = some '-' then
      (((l :: ls).splitBy fun _ l' => ofItem l').mapM fun item =>
        readNode fuel (undent item)).map .list
    else if ':' ∈ l ∧ l.head? ≠ some '\'' then
      (((l :: ls).splitBy fun _ l' => ofKey l').mapM (readEntry (readNode fuel))).map .dict
    else some (inlineValue l)

/-- The value of a text in block style. -/
def load (t : Text) : Option Value := readNode (t.length + 1) t.lines

/-! ## What is written is read

The lines of an item show no other item at their own depth, so the cuts are where the items begin.
The induction is over the node. -/

theorem lines_ne_nil (v : Node) : v.lines ≠ [] := by
  induction v using Node.induct with
  | scalar t => simp [Node.lines]
  | seq items ih =>
      cases items with
      | nil => simp [Node.lines]
      | cons item items =>
          have hitem := ih item List.mem_cons_self
          obtain ⟨l, ls, hls⟩ := List.exists_cons_of_ne_nil hitem
          simp [Node.lines, itemLines, hls, dash]
  | map entries ih =>
      cases entries with
      | nil => simp [Node.lines]
      | cons p entries =>
          obtain ⟨key, v⟩ := p
          have hunder : v.under key ≠ [] := by
            unfold Node.under
            split <;> simp [behind, below]
          simp [Node.lines, entryLines, hunder]

@[simp] theorem undent_indent (ls : List Text) : undent (indent ls) = ls := by
  rw [undent, indent, List.map_map]
  exact List.map_id ls

@[simp] theorem undent_dash (ls : List Text) : undent (dash ls) = ls := by
  cases ls with
  | nil => rfl
  | cons l ls => exact congrArg (l :: ·) (undent_indent ls)

/-- A key that starts with neither a dash, a blank nor a quote and has no colon. -/
def InertKey (t : Text) : Prop :=
  ∃ ch t', t = ch :: t' ∧ ch ≠ '-' ∧ ch ≠ ' ' ∧ ch ≠ '\'' ∧ ':' ∉ t ∧ '\n' ∉ t

/-- A scalar that starts with neither a dash nor a bracket and has no colon outside of quotes. -/
def Inert (t : Text) : Prop :=
  ∃ ch t', t = ch :: t' ∧ ch ≠ '-' ∧ ch ≠ '[' ∧ ch ≠ '{' ∧ (ch = '\'' ∨ ':' ∉ t) ∧ '\n' ∉ t

theorem isPlain_cons {t : Text} (h : isPlain t = true) : InertKey t ∧ Inert t := by
  cases t with
  | nil => cases h
  | cons ch t' =>
      simp only [isPlain, List.head?_cons, Option.any_some, Bool.and_eq_true] at h
      obtain ⟨⟨hhead, -⟩, hall⟩ := h
      rw [List.all_eq_true] at hall
      have hne : ∀ x, Char.isAlphanum x = false → ch ≠ x := by
        rintro x hx rfl
        rw [hx] at hhead
        cases hhead
      have hcolon : ':' ∉ ch :: t' := fun hmem => absurd (hall _ hmem) (by decide)
      have hnewline : '\n' ∉ ch :: t' := fun hmem => absurd (hall _ hmem) (by decide)
      constructor
      · exact ⟨ch, t', rfl, hne _ (by decide), hne _ (by decide), hne _ (by decide), hcolon,
          hnewline⟩
      · exact ⟨ch, t', rfl, hne _ (by decide), hne _ (by decide), hne _ (by decide),
          Or.inr hcolon, hnewline⟩

theorem isPlain_of_isKey {t : Text} (h : isKey t = true) : isPlain t = true :=
  (Bool.and_eq_true_iff.mp (Bool.and_eq_true_iff.mp h).1).1

/-- Blocks of lines that continue their first line, and only theirs, are found again. -/
theorem splitBy_flatten_blocks {of : Text → Bool} {blocks : List (List Text)}
    (h : ∀ b ∈ blocks, ∃ l ls, b = l :: ls ∧ of l = false ∧ ∀ x ∈ ls, of x = true) :
    blocks.flatten.splitBy (fun _ l => of l) = blocks := by
  apply List.splitBy_flatten
  · intro hnil
    obtain ⟨l, ls, hb, -⟩ := h [] hnil
    cases hb
  · intro b hb
    obtain ⟨l, ls, rfl, -, hls⟩ := h b hb
    clear h hb
    induction ls generalizing l with
    | nil => exact List.isChain_singleton l
    | cons x ls ih =>
        rw [List.forall_mem_cons] at hls
        exact List.isChain_cons_cons.mpr ⟨hls.1, ih x hls.2⟩
  · induction blocks with
    | nil => exact List.isChain_nil
    | cons b blocks ih =>
        rw [List.forall_mem_cons] at h
        cases blocks with
        | nil => exact List.isChain_singleton b
        | cons b' blocks =>
            refine List.isChain_cons_cons.mpr ⟨?_, ih h.2⟩
            obtain ⟨l, ls, rfl, -, -⟩ := h.1
            obtain ⟨l', ls', rfl, hl', -⟩ := h.2 b' List.mem_cons_self
            exact ⟨List.cons_ne_nil _ _, List.cons_ne_nil _ _, hl'⟩

/-- A block of a key: the lines below it, if there are any, hold the value. -/
theorem readEntry_under {read : List Text → Option Value} {key : Text} {v : Node}
    (hkey : ':' ∉ key) (hv : v.All InertKey Inert) (hread : read v.lines = some v.value) :
    readEntry read (v.under key) = some (key, v.value) := by
  -- the key ends at the first colon
  have hname : ∀ t : Text, (key ++ ':' :: t).takeWhile (· != ':') = key := by
    intro t
    rw [List.takeWhile_append_of_pos]
    · simp
    · intro x hx
      simpa using fun h : x = ':' => hkey (h ▸ hx)
  have hinline : ∀ t : Text, readEntry read (behind key [t]) = some (key, inlineValue t) := by
    intro t
    have hrest : (key ++ ':' :: ' ' :: t).drop (key.length + 2) = t := by
      rw [← List.drop_drop, List.drop_left]
      rfl
    have hline : behind key [t] = [key ++ ':' :: ' ' :: t] :=
      congrArg ([·]) (List.append_assoc key [':', ' '] t)
    rw [hline]
    simp only [readEntry, hname, hrest]
    rfl
  match v, hv with
  | .scalar t, hv =>
      obtain ⟨ch, t', rfl, -, hbracket, hbrace, -⟩ := hv
      have hvalue : inlineValue (ch :: t') = resolve (ch :: t') := by
        have hseq : ch :: t' ≠ "[]".toList := fun h => hbracket (List.cons.inj h).1
        have hmap : ch :: t' ≠ "{}".toList := fun h => hbrace (List.cons.inj h).1
        rw [inlineValue, if_neg hseq, if_neg hmap]
      rw [Node.under, hinline, hvalue, Node.value]
  | .seq [], _ => exact hinline _
  | .map [], _ => exact hinline _
  | .seq (item :: items), _ =>
      obtain ⟨l, ls, hls⟩ := List.exists_cons_of_ne_nil (lines_ne_nil item)
      have hlines : (Node.seq (item :: items)).lines =
          ("- ".toList ++ l) :: (indent ls ++ itemLines items) := by
        rw [Node.lines, itemLines, hls]
        rfl
      rw [hlines] at hread
      have hunder : (Node.seq (item :: items)).under key =
          (key ++ [':']) :: ("- ".toList ++ l) :: (indent ls ++ itemLines items) := by
        rw [Node.under, ← hlines]
        rfl
      rw [hunder]
      simp only [readEntry, hname]
      rw [if_pos (by rfl), hread]
      rfl
  | .map (p :: entries), _ =>
      have hlines : (Node.map (p :: entries)).lines = entryLines (p :: entries) := by
        rw [Node.lines]
      obtain ⟨l, ls, hls⟩ := List.exists_cons_of_ne_nil (lines_ne_nil (.map (p :: entries)))
      rw [hls] at hread
      rw [hlines] at hls
      have hunder : (Node.map (p :: entries)).under key =
          (key ++ [':']) :: ("  ".toList ++ l) :: indent ls := by
        rw [Node.under, hls]
        rfl
      have hback : undent (("  ".toList ++ l) :: indent ls) = l :: ls := undent_indent (l :: ls)
      rw [hunder]
      simp only [readEntry, hname]
      rw [if_neg (by simp), hback, hread]
      rfl

/-- The lines of a node are those of its blocks, each headed by a dash or a key. -/
theorem exists_block_dash (v : Node) :
    ∃ l ls, dash v.lines = l :: ls ∧ l.head? = some '-' ∧ ∀ x ∈ ls, ofItem x = true := by
  obtain ⟨l, ls, hls⟩ := List.exists_cons_of_ne_nil (lines_ne_nil v)
  refine ⟨"- ".toList ++ l, indent ls, by rw [hls]; rfl, rfl, fun x hx => ?_⟩
  obtain ⟨y, -, rfl⟩ := List.mem_map.mp hx
  rfl

theorem ofKey_of_mem_itemLines (items : List Node) : ∀ x ∈ itemLines items, ofKey x = true := by
  intro x hx
  rw [itemLines_eq, List.mem_flatten] at hx
  obtain ⟨b, hb, hx⟩ := hx
  obtain ⟨v, -, rfl⟩ := List.mem_map.mp hb
  obtain ⟨l, ls, hblock, hl, hls⟩ := exists_block_dash v
  rw [hblock, List.mem_cons] at hx
  rcases hx with rfl | hx
  · simp [ofKey, hl]
  · have hitem := hls x hx
    rw [ofItem] at hitem
    rw [ofKey, hitem, Bool.true_or]

/-- The value of a key is behind it or below it. -/
theorem exists_under (key : Text) (v : Node) :
    ∃ t ls, v.under key = (key ++ ':' :: t) :: ls ∧ ∀ x ∈ ls, ofKey x = true := by
  have hbehind : ∀ t, behind key [t] = [key ++ ':' :: ' ' :: t] := fun t =>
    congrArg ([·]) (List.append_assoc key [':', ' '] t)
  match v with
  | .scalar t => exact ⟨_, [], hbehind t, by simp⟩
  | .seq [] => exact ⟨_, [], hbehind _, by simp⟩
  | .map [] => exact ⟨_, [], hbehind _, by simp⟩
  | .seq (item :: items) =>
      refine ⟨[], _, ?_, ofKey_of_mem_itemLines (item :: items)⟩
      rw [Node.under]
      rfl
  | .map (p :: entries) =>
      refine ⟨[], indent (entryLines (p :: entries)), ?_, fun x hx => ?_⟩
      · rw [Node.under]
        rfl
      · obtain ⟨y, -, rfl⟩ := List.mem_map.mp hx
        rfl

/-- A sequence as the value of a key; an empty one is behind the key. -/
theorem exists_under_seq (key : Text) (items : List Node) :
    ∃ t, '\n' ∉ t ∧ (Node.seq items).under key = (key ++ ':' :: t) :: itemLines items := by
  cases items with
  | nil =>
      refine ⟨" []".toList, by decide, ?_⟩
      exact congrArg ([·]) (List.append_assoc key [':', ' '] "[]".toList)
  | cons item items =>
      refine ⟨[], by decide, ?_⟩
      rw [Node.under]
      rfl

theorem exists_block_under {key : Text} (hkey : InertKey key) (v : Node) :
    ∃ l ls, v.under key = l :: ls ∧ l.head? ≠ some '-' ∧ (':' ∈ l ∧ l.head? ≠ some '\'') ∧
      ofKey l = false ∧ ∀ x ∈ ls, ofKey x = true := by
  obtain ⟨ch, key, rfl, hdash, hblank, hquote, -⟩ := hkey
  obtain ⟨t, ls, hunder, hls⟩ := exists_under (ch :: key) v
  refine ⟨_, ls, hunder, ?_, ⟨by simp, ?_⟩, ?_, hls⟩
  · simpa using hdash
  · simpa using hquote
  · simp [ofKey, hdash, hblank]

/-- The lines of a part are no more than those of the whole. -/
theorem length_flatten_le {α : Type} {f : α → List Text} {xs : List α} {x : α} (hx : x ∈ xs) :
    (f x).flatten.length ≤ ((xs.map f).flatten).flatten.length := by
  apply List.Sublist.length_le
  apply List.Sublist.flatten
  exact List.sublist_flatten_of_mem (List.mem_map_of_mem hx)

theorem length_le_indent (ls : List Text) : ls.flatten.length ≤ (indent ls).flatten.length := by
  induction ls with
  | nil => exact le_rfl
  | cons l ls ih =>
      have hcons : indent (l :: ls) = ("  ".toList ++ l) :: indent ls := rfl
      rw [hcons, List.flatten_cons, List.flatten_cons, List.length_append, List.length_append,
        List.length_append]
      omega

theorem length_lt_dash (v : Node) : v.lines.flatten.length < (dash v.lines).flatten.length := by
  obtain ⟨l, ls, hls⟩ := List.exists_cons_of_ne_nil (lines_ne_nil v)
  have hdash : dash (l :: ls) = ("- ".toList ++ l) :: indent ls := rfl
  have hindent := length_le_indent ls
  have hmark : "- ".toList.length = 2 := rfl
  rw [hls, hdash, List.flatten_cons, List.flatten_cons, List.length_append, List.length_append,
    List.length_append]
  omega

theorem length_lt_under (key : Text) (v : Node) :
    v.lines.flatten.length < (v.under key).flatten.length := by
  have hbehind : ∀ t, [t].flatten.length < (behind key [t]).flatten.length := by
    intro t
    simp [behind]
    omega
  have hbelow : ∀ ls, ls.flatten.length < (below key ls).flatten.length := by
    intro ls
    simp [below]
    omega
  match v with
  | .scalar t => exact hbehind t
  | .seq [] => exact hbehind _
  | .map [] => exact hbehind _
  | .seq (item :: items) =>
      rw [Node.lines, Node.under]
      exact hbelow _
  | .map (p :: entries) =>
      rw [Node.lines, Node.under]
      exact (length_le_indent _).trans_lt (hbelow _)

/-- Lines that consist of the blocks of items are read item by item. -/
theorem readNode_items {item : Node} {items : List Node} {fuel : Nat}
    (hread : ∀ v ∈ item :: items, readNode fuel v.lines = some v.value) :
    readNode (fuel + 1) (itemLines (item :: items)) = some (Node.seq (item :: items)).value := by
  have hblocks : ∀ b ∈ (item :: items).map (fun v => dash v.lines),
      ∃ l ls, b = l :: ls ∧ ofItem l = false ∧ ∀ x ∈ ls, ofItem x = true := by
    intro b hb
    obtain ⟨v, -, rfl⟩ := List.mem_map.mp hb
    obtain ⟨l, ls, hblock, hl, hls⟩ := exists_block_dash v
    exact ⟨l, ls, hblock, by simp [ofItem, hl], hls⟩
  -- the lines are cut where an item begins
  have hsplit := splitBy_flatten_blocks hblocks
  obtain ⟨l, ls, hblock, hl, -⟩ := exists_block_dash item
  have hcons : itemLines (item :: items) = l :: (ls ++ itemLines items) := by
    rw [itemLines, hblock]
    rfl
  rw [← itemLines_eq, hcons] at hsplit
  rw [hcons, readNode, if_pos hl, hsplit, List.mapM_map]
  have hall : (item :: items).mapM (fun v => readNode fuel (undent (dash v.lines))) =
      some ((item :: items).map Node.value) := by
    apply Dict.mapM_eq_some
    intro v hv
    rw [undent_dash]
    exact hread v hv
  show ((item :: items).mapM fun v => readNode fuel (undent (dash v.lines))).map Value.list = _
  rw [hall, Node.value, itemValues_eq]
  rfl

/-- Lines that consist of the blocks of keys are read key by key. -/
theorem readNode_entries {p : Text × Node} {entries : List (Text × Node)} {fuel : Nat}
    (hinert : ∀ q ∈ p :: entries, InertKey q.1 ∧ q.2.All InertKey Inert)
    (hread : ∀ q ∈ p :: entries, readNode fuel q.2.lines = some q.2.value) :
    readNode (fuel + 1) (entryLines (p :: entries)) = some (Node.map (p :: entries)).value := by
  have hblocks : ∀ b ∈ (p :: entries).map (fun q => q.2.under q.1),
      ∃ l ls, b = l :: ls ∧ ofKey l = false ∧ ∀ x ∈ ls, ofKey x = true := by
    intro b hb
    obtain ⟨q, hq, rfl⟩ := List.mem_map.mp hb
    obtain ⟨l, ls, hblock, -, -, hl, hls⟩ := exists_block_under (hinert q hq).1 q.2
    exact ⟨l, ls, hblock, hl, hls⟩
  -- the lines are cut where a key stands at the margin
  have hsplit := splitBy_flatten_blocks hblocks
  obtain ⟨l, ls, hblock, hdash, hcolon, -⟩ :=
    exists_block_under (hinert p List.mem_cons_self).1 p.2
  have hcons : entryLines (p :: entries) = l :: (ls ++ entryLines entries) := by
    rw [entryLines, hblock]
    rfl
  rw [← entryLines_eq, hcons] at hsplit
  rw [hcons, readNode, if_neg hdash, if_pos hcolon, hsplit, List.mapM_map]
  have hall : (p :: entries).mapM (fun q => readEntry (readNode fuel) (q.2.under q.1)) =
      some ((p :: entries).map fun q => (q.1, q.2.value)) := by
    apply Dict.mapM_eq_some
    intro q hq
    obtain ⟨hkey, hv⟩ := hinert q hq
    obtain ⟨ch, t, -, -, -, -, hnotColon, -⟩ := hkey
    exact readEntry_under hnotColon hv (hread q hq)
  show ((p :: entries).mapM fun q => readEntry (readNode fuel) (q.2.under q.1)).map Value.dict = _
  rw [hall, Node.value, entryValues_eq]
  rfl

/-- Every node is read back from its lines. -/
theorem readNode_lines (v : Node) (hv : v.All InertKey Inert) (fuel : Nat)
    (hfuel : v.lines.flatten.length < fuel) : readNode fuel v.lines = some v.value := by
  induction v using Node.induct generalizing fuel with
  | scalar t =>
      obtain ⟨ch, t', rfl, hdash, hbracket, hbrace, hcolon, -⟩ := hv
      have hvalue : ¬(':' ∈ ch :: t' ∧ (ch :: t').head? ≠ some '\'') := by
        rintro ⟨hmem, hhead⟩
        rcases hcolon with rfl | hcolon
        · exact hhead rfl
        · exact hcolon hmem
      have hseq : ch :: t' ≠ "[]".toList := fun h => hbracket (List.cons.inj h).1
      have hmap : ch :: t' ≠ "{}".toList := fun h => hbrace (List.cons.inj h).1
      obtain ⟨fuel, rfl⟩ := Nat.exists_eq_add_of_lt hfuel
      rw [Node.lines, readNode, if_neg (by simpa using hdash), if_neg hvalue, inlineValue,
        if_neg hseq, if_neg hmap, Node.value]
  | seq items ih =>
      obtain ⟨fuel, rfl⟩ := Nat.exists_eq_add_of_lt hfuel
      match items, ih, hv, hfuel with
      | [], _, _, _ => rfl
      | item :: items, ih, hv, hfuel =>
          rw [Node.All, allItems_iff] at hv
          rw [Node.lines] at hfuel ⊢
          apply readNode_items
          intro v hmem
          apply ih v hmem (hv v hmem)
          -- the lines of an item are fewer characters than all of them, so the fuel is enough
          have hpart := length_flatten_le (f := fun v : Node => dash v.lines) hmem
          rw [← itemLines_eq] at hpart
          have hlt := length_lt_dash v
          omega
  | map entries ih =>
      obtain ⟨fuel, rfl⟩ := Nat.exists_eq_add_of_lt hfuel
      match entries, ih, hv, hfuel with
      | [], _, _, _ => rfl
      | p :: entries, ih, hv, hfuel =>
          rw [Node.All, allEntries_iff] at hv
          rw [Node.lines] at hfuel ⊢
          apply readNode_entries hv
          intro q hmem
          apply ih q hmem (hv q hmem).2
          have hpart := length_flatten_le (f := fun q : Text × Node => q.2.under q.1) hmem
          rw [← entryLines_eq] at hpart
          have hlt := length_lt_under q.1 q.2
          omega

/-! ## Properties of all lines

Every line is a scalar or a key, with an indentation, a dash or a colon. What these keep is true of
all lines. -/

section All

variable {key scalar Q : Text → Prop}

/-- What holds of the lines of scalars and keys, whatever stands in front of them, holds of all
lines. -/
structure LineRule (key scalar Q : Text → Prop) : Prop where
  of_indent : ∀ l, Q l → Q ("  ".toList ++ l)
  of_dash : ∀ l, Q l ∨ scalar l → Q ("- ".toList ++ l)
  of_below : ∀ k, key k → Q (k ++ ":".toList)
  of_behind : ∀ k t, key k → scalar t → Q (k ++ ": ".toList ++ t)
  seq_nil : scalar "[]".toList
  map_nil : scalar "{}".toList

theorem LineRule.forall_indent (h : LineRule key scalar Q) {ls : List Text}
    (hls : ∀ l ∈ ls, Q l) : ∀ l ∈ indent ls, Q l := by
  intro l hl
  obtain ⟨x, hx, rfl⟩ := List.mem_map.mp hl
  exact h.of_indent x (hls x hx)

theorem LineRule.forall_dash (h : LineRule key scalar Q) {ls : List Text}
    (hls : ∀ l ∈ ls, Q l) : ∀ l ∈ dash ls, Q l := by
  cases ls with
  | nil => exact List.forall_mem_nil _
  | cons l ls =>
      rw [List.forall_mem_cons] at hls
      exact List.forall_mem_cons.mpr ⟨h.of_dash l (Or.inl hls.1), h.forall_indent hls.2⟩

/-- The lines of a node that is an item, and of one that is the value of a key. -/
theorem LineRule.forall_lines (h : LineRule key scalar Q) (v : Node) (hv : v.All key scalar) :
    (∀ l ∈ dash v.lines, Q l) ∧ ∀ k, key k → ∀ l ∈ v.under k, Q l := by
  have hinline : ∀ t, scalar t →
      (∀ l ∈ dash [t], Q l) ∧ ∀ k, key k → ∀ l ∈ behind k [t], Q l := fun t ht =>
    ⟨List.forall_mem_singleton.mpr (h.of_dash t (Or.inr ht)), fun k hk =>
      List.forall_mem_singleton.mpr (h.of_behind k t hk ht)⟩
  induction v using Node.induct with
  | scalar t => exact hinline t hv
  | seq items ih =>
      match items, ih, hv with
      | [], _, _ => exact hinline _ h.seq_nil
      | item :: items, ih, hv =>
          rw [Node.All, allItems_iff] at hv
          -- the lines of a sequence are those of its items behind dashes
          have hitems : ∀ l ∈ itemLines (item :: items), Q l := by
            intro l hl
            rw [itemLines_eq, List.mem_flatten] at hl
            obtain ⟨b, hb, hl⟩ := hl
            obtain ⟨v, hmem, rfl⟩ := List.mem_map.mp hb
            exact (ih v hmem (hv v hmem)).1 l hl
          rw [Node.lines]
          refine ⟨h.forall_dash hitems, fun k hk => ?_⟩
          rw [Node.under]
          exact List.forall_mem_cons.mpr ⟨h.of_below k hk, hitems⟩
  | map entries ih =>
      match entries, ih, hv with
      | [], _, _ => exact hinline _ h.map_nil
      | p :: entries, ih, hv =>
          rw [Node.All, allEntries_iff] at hv
          have hentries : ∀ l ∈ entryLines (p :: entries), Q l := by
            intro l hl
            rw [entryLines_eq, List.mem_flatten] at hl
            obtain ⟨b, hb, hl⟩ := hl
            obtain ⟨q, hmem, rfl⟩ := List.mem_map.mp hb
            exact (ih q hmem (hv q hmem).2).2 q.1 (hv q hmem).1 l hl
          rw [Node.lines]
          refine ⟨h.forall_dash hentries, fun k hk => ?_⟩
          rw [Node.under]
          exact List.forall_mem_cons.mpr ⟨h.of_below k hk, h.forall_indent hentries⟩

theorem LineRule.forall_itemLines (h : LineRule key scalar Q) {items : List Node}
    (hitems : ∀ v ∈ items, v.All key scalar) : ∀ l ∈ itemLines items, Q l := by
  intro l hl
  rw [itemLines_eq, List.mem_flatten] at hl
  obtain ⟨b, hb, hl⟩ := hl
  obtain ⟨v, hmem, rfl⟩ := List.mem_map.mp hb
  exact (h.forall_lines v (hitems v hmem)).1 l hl

theorem LineRule.forall_entryLines (h : LineRule key scalar Q) {entries : List (Text × Node)}
    (hentries : ∀ p ∈ entries, key p.1 ∧ p.2.All key scalar) : ∀ l ∈ entryLines entries, Q l := by
  intro l hl
  rw [entryLines_eq, List.mem_flatten] at hl
  obtain ⟨b, hb, hl⟩ := hl
  obtain ⟨q, hmem, rfl⟩ := List.mem_map.mp hb
  exact (h.forall_lines q.2 (hentries q hmem).2).2 q.1 (hentries q hmem).1 l hl

end All

/-- Keys and scalars without a line break make a document of lines. -/
theorem lineRule_isLine : LineRule IsLine (fun t => '\n' ∉ t) IsLine where
  of_indent l h := isLine_append (by simp) (by simp) h.2
  of_dash l h := isLine_append (by simp) (by simp) (h.elim And.right id)
  of_below k h := isLine_append h.1 h.2 (by simp)
  of_behind k t hk ht := by
    rw [List.append_assoc]
    exact isLine_append hk.1 hk.2 (by simpa using ht)
  seq_nil := by simp
  map_nil := by simp

/-- The lines of a node are those of a document if it is one itself. -/
theorem isLine_lines {v : Node} (hv : v.All IsLine fun t => '\n' ∉ t)
    (hscalar : ∀ t, v = .scalar t → t ≠ []) : ∀ l ∈ v.lines, IsLine l := by
  match v, hv with
  | .scalar t, ht => exact List.forall_mem_singleton.mpr ⟨hscalar t rfl, ht⟩
  | .seq [], _ => exact List.forall_mem_singleton.mpr ⟨by simp, by simp⟩
  | .map [], _ => exact List.forall_mem_singleton.mpr ⟨by simp, by simp⟩
  | .seq (item :: items), hitems =>
      rw [Node.lines]
      exact lineRule_isLine.forall_itemLines (allItems_iff.mp hitems)
  | .map (p :: entries), hentries =>
      rw [Node.lines]
      exact lineRule_isLine.forall_entryLines (allEntries_iff.mp hentries)

/-! ## Loaders

A loader of block documents has to read what `Node.lines` writes; `load` does. -/

/-- A loader reads documents in block style. -/
def ReadsBlocks (safeLoad : Text → Option Value) : Prop :=
  ∀ v : Node, v.Plain → safeLoad (unlines v.lines) = some v.value

/-- The lines of a node are read back from their text. -/
theorem load_lines {v : Node} (hv : v.All InertKey Inert) :
    load (unlines v.lines) = some v.value := by
  have hkey : ∀ k, InertKey k → IsLine k := by
    rintro k ⟨ch, k', rfl, -, -, -, -, hnewline⟩
    exact ⟨List.cons_ne_nil _ _, hnewline⟩
  have hline : ∀ t, Inert t → IsLine t := by
    rintro t ⟨ch, t', rfl, -, -, -, -, hnewline⟩
    exact ⟨List.cons_ne_nil _ _, hnewline⟩
  have hall : v.All IsLine fun t => '\n' ∉ t :=
    hv.imp hkey fun t ht => (hline t ht).2
  have hscalar : ∀ t, v = .scalar t → t ≠ [] := by
    rintro t rfl
    exact (hline t hv).1
  rw [load, lines_unlines (isLine_lines hall hscalar)]
  apply readNode_lines v hv
  -- the fuel is the number of characters, newlines included
  have hlen : ∀ ls : List Text, ls.flatten.length ≤ (unlines ls).length := by
    intro ls
    induction ls with
    | nil => exact le_rfl
    | cons l ls ih =>
        rw [unlines, List.flatMap_cons, ← unlines, List.flatten_cons, List.length_append,
          List.length_append, List.length_append]
        omega
  have hle := hlen v.lines
  omega

theorem readsBlocks_load : ReadsBlocks load := fun _ hv =>
  load_lines (hv.all.imp (fun _ hk => (isPlain_cons (isPlain_of_isKey hk)).1) fun _ ht =>
    (isPlain_cons ht).2)

end Yaml
