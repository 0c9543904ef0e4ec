import RISCover.Lib.Blocks
import RISCover.Lib.PyText

/-!
# The lines of `/proc/cpuinfo`

The kernel lists the processors of a machine in blocks of lines. A line names a processor, gives the
value of a field, or is for somebody else; what a text gives each processor is `given`, as records
in blocks.
-/

open Text

namespace RISCover

/-! ## Fields -/

/-- The fields that the main id register of a processor is made of. -/
inductive CpuField where
  | implementer
  | architecture
  | variant
  | part
  | revision
  deriving DecidableEq

namespace CpuField

def key : CpuField → String
  | implementer => "CPU implementer"
  | architecture => "CPU architecture"
  | variant => "CPU variant"
  | part => "CPU part"
  | revision => "CPU revision"

/-- `MIDR_*_SHIFT`. -/
def shift : CpuField → Nat
  | implementer => 24
  | architecture => 16
  | variant => 20
  | part => 4
  | revision => 0

/-- In the order in which both parsers look for them. -/
def all : List CpuField := [implementer, architecture, variant, part, revision]

theorem mem_all (f : CpuField) : f ∈ all := by cases f <;> decide

end CpuField

/-- The fields side by side in one number. -/
def packed (value : CpuField → Nat) : Nat :=
  CpuField.all.foldl (fun midr f => midr ||| value f <<< f.shift) 0

/-! ## Lines

The lines of the file as the kernel prints them, with free white space and any lines in between. -/

/-- White space within a line. -/
abbrev Blanks := {ws : Text // ∀ c ∈ ws, isSpace c = true ∧ c ≠ '\n'}

/-- A number as the kernel prints it: `%d`, or `0x%x` with any number of digits. -/
inductive CpuNumber where
  | decimal (n : Nat)
  | hexadecimal (upper : Bool) (digits : {ds : Text // ds ≠ [] ∧ ∀ c ∈ ds, isBase 16 c = true})

namespace CpuNumber

def text : CpuNumber → Text
  | decimal n => dec n
  | hexadecimal upper digits => '0' :: (if upper then 'X' else 'x') :: digits

def value : CpuNumber → Nat
  | decimal n => n
  | hexadecimal _ digits => ofBase 16 digits

/-- What decimal digits in front of the text spell. -/
def decimalValue : CpuNumber → Nat
  | decimal n => n
  | hexadecimal _ _ => 0

end CpuNumber

/-- A line that both parsers pass over. -/
structure OtherLine where
  text : Text
  newline_notMem : '\n' ∉ text
  not_blank : ∃ c ∈ text, isPySpace c = false
  not_processor : scanFormat "processor".toList text = none
  not_field : ∀ f : CpuField, scanFormat f.key.toList text = none

/-- A line without its newline. -/
inductive CpuinfoLine where
  | blank (ws : Blanks)
  | processor (before after : Blanks) (n : CpuNumber)
  | field (f : CpuField) (before after : Blanks) (n : CpuNumber)
  | other (line : OtherLine)

/-- A key, a colon and a number, with white space around the colon. -/
def keyLine (key : Text) (before after : Blanks) (n : CpuNumber) : Text :=
  key ++ (before ++ ':' :: (after ++ n.text))

def CpuinfoLine.text : CpuinfoLine → Text
  | blank ws => ws
  | processor before after n => keyLine "processor".toList before after n
  | field f before after n => keyLine f.key.toList before after n
  | other line => line.text

/-- The text of `/proc/cpuinfo`; where it ends with a newline, the last line is empty. -/
def cpuinfoText (ls : List CpuinfoLine) : Text := ['\n'].intercalate (ls.map CpuinfoLine.text)

/-! ## What a text gives each processor

A processor line begins a record, and a field goes to all records of its block. -/

/-- A processor with the fields it was given. -/
structure Given where
  processor : Nat
  value : CpuField → Option Nat

/-- On aarch64 the architecture is 8 unless a line says something else. -/
def Given.new (processor : Nat) : Given :=
  ⟨processor, fun f => if f = .architecture then some 8 else none⟩

def Given.set (f : CpuField) (n : Nat) (g : Given) : Given :=
  ⟨g.processor, Function.update g.value f (some n)⟩

/-- What a line does. -/
def CpuinfoLine.event : CpuinfoLine → Option (BlockEvent Given)
  | blank _ => some .close
  | processor _ _ n => some (.entry (Given.new n.decimalValue))
  | field f _ _ n => some (.assign (Given.set f n.value))
  | other _ => none

/-- The processors of a text. -/
def given (ls : List CpuinfoLine) : List Given :=
  (Blocks.empty.run (ls.filterMap CpuinfoLine.event)).records

def CpuinfoLine.isProcessor : CpuinfoLine → Bool
  | processor _ _ _ => true
  | _ => false

theorem countP_event (ls : List CpuinfoLine) :
    (ls.filterMap CpuinfoLine.event).countP BlockEvent.isEntry =
      ls.countP CpuinfoLine.isProcessor := by
  induction ls with
  | nil => rfl
  | cons l ls ih =>
      cases l <;> simp [CpuinfoLine.event, CpuinfoLine.isProcessor, BlockEvent.isEntry,
        List.filterMap_cons, List.countP_cons, ih]

/-- There is a record for every processor line. -/
theorem length_given (ls : List CpuinfoLine) :
    (given ls).length = ls.countP CpuinfoLine.isProcessor := by
  rw [given, Blocks.length_records_run, countP_event]
  exact Nat.zero_add _

/-! ## Characters of a line

No line has a newline in it, and a number begins with a digit. -/

theorem CpuNumber.isHex_or_x (n : CpuNumber) :
    ∀ c ∈ n.text, isHex c = true ∨ c = 'x' ∨ c = 'X' := by
  intro c hc
  cases n with
  | decimal n => exact Or.inl (isHex_of_isBase (isBase_dec n c hc))
  | hexadecimal upper digits =>
      rw [text, List.mem_cons, List.mem_cons] at hc
      rcases hc with rfl | rfl | hc
      · exact Or.inl rfl
      · cases upper with
        | false => exact Or.inr (Or.inl rfl)
        | true => exact Or.inr (Or.inr rfl)
      · exact Or.inl (isHex_of_isBase (digits.2.2 c hc))

/-- A number begins with a digit. -/
theorem CpuNumber.text_eq_cons (n : CpuNumber) : ∃ c cs, n.text = c :: cs ∧ c.isDigit = true := by
  cases n with
  | decimal n =>
      obtain ⟨c, cs, heq⟩ := List.exists_cons_of_ne_nil (dec_ne_nil n)
      exact ⟨c, cs, heq, isDigit_dec n c (by rw [heq]; exact List.mem_cons_self)⟩
  | hexadecimal upper digits => exact ⟨'0', _, rfl, rfl⟩

theorem newline_notMem_keyLine {key : Text} (hkey : '\n' ∉ key) (before after : Blanks)
    (n : CpuNumber) : '\n' ∉ keyLine key before after n := by
  intro h
  rw [keyLine, List.mem_append, List.mem_append, List.mem_cons, List.mem_append] at h
  rcases h with h | h | h | h | h
  · exact hkey h
  · exact (before.2 _ h).2 rfl
  · exact absurd h (by decide)
  · exact (after.2 _ h).2 rfl
  · rcases n.isHex_or_x _ h with h | h | h <;> exact absurd h (by decide)

theorem CpuinfoLine.newline_notMem_text (l : CpuinfoLine) : '\n' ∉ l.text := by
  cases l with
  | blank ws => exact fun h => (ws.2 _ h).2 rfl
  | processor before after n => exact newline_notMem_keyLine (by decide) before after n
  | field f before after n =>
      exact newline_notMem_keyLine (by cases f <;> decide) before after n
  | other line => exact line.newline_notMem

end RISCover
