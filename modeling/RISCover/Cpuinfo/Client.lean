import RISCover.Cpuinfo.Lines
import RISCover.Undoc.Worker

/-!
# `/proc/cpuinfo` on the client

`parse_cpuinfo` reads the file through a buffer of 256 characters and looks at every line with
`sscanf`. On a text of known lines it keeps the records of the blocks (`Tracks`), but it does not
take every line as what it is: a line of white space is not blank to it, a field without a blank in
front of its colon is passed over, and behind a line that fills the buffer it sees an empty one
(`CpuinfoLine.asRead`).
-/

open Text

namespace RISCover

namespace ClientCpuinfo

/-! ## `cpu_info` -/

/-- `cpu_info`. -/
structure CpuInfo where
  processor : UInt32
  implementer : UInt32
  architecture : UInt32
  variant : UInt32
  part : UInt32
  revision : UInt32
  midr : UInt32
  deriving DecidableEq

/-- What `memset` leaves of one. -/
def CpuInfo.zeroed : CpuInfo := ⟨0, 0, 0, 0, 0, 0, 0⟩

/-- The assignment to a field. -/
def CpuInfo.set (f : CpuField) (v : UInt32) (cpu : CpuInfo) : CpuInfo :=
  match f with
  | .implementer => { cpu with implementer := v }
  | .architecture => { cpu with architecture := v }
  | .variant => { cpu with variant := v }
  | .part => { cpu with part := v }
  | .revision => { cpu with revision := v }

/-- `build_midr`. -/
def buildMidr (cpu : CpuInfo) : UInt32 :=
  let midr : UInt32 := 0
  let midr := midr ||| cpu.implementer <<< 24
  let midr := midr ||| cpu.architecture <<< 16
  let midr := midr ||| cpu.variant <<< 20
  let midr := midr ||| cpu.part <<< 4
  midr ||| cpu.revision <<< 0

/-- `cpus[i].midr = build_midr(&cpus[i])`. -/
def CpuInfo.withMidr (cpu : CpuInfo) : CpuInfo := { cpu with midr := buildMidr cpu }

/-! ## `parse_cpuinfo`

The loop has a processor count, the records, and how many of the last ones a field goes back to. -/

/-- `sscanf(line, "processor%*[^0-9]%d", ..)`. -/
def scanProcessor (line : Text) : Option UInt32 := do
  let t ← scanFormat "processor".toList line
  let t ← scanSet (fun c => !c.isDigit) t
  let (n, _) ← scanD t
  return UInt32.ofNat n

/-- `sscanf(line, key"%*[ \t]: %i", ..)`. -/
def scanField (key : String) (line : Text) : Option UInt32 := do
  let t ← scanFormat key.toList line
  let t ← scanSet (fun c => c == ' ' || c == '\t') t
  let t ← scanFormat ": ".toList t
  let (n, _) ← scanI t
  return UInt32.ofNat n

/-- The variables of the loop. -/
structure ParseState where
  cpus : List CpuInfo
  cpuCount : Nat
  reportBackN : Nat
  inBlock : Bool

namespace ParseState

/-- A processor line. -/
def addProcessor (s : ParseState) (processor : UInt32) : ParseState where
  cpus := s.cpus.modify s.cpuCount fun cpu => { cpu with processor, architecture := 8 }
  cpuCount := s.cpuCount + 1
  reportBackN := s.reportBackN + 1
  inBlock := true

/-- The assignment to the last `report_back_n` processors. -/
def reportBack (s : ParseState) (f : CpuField) (v : UInt32) : ParseState :=
  { s with
    cpus := (List.range s.reportBackN).foldl
      (fun cpus l => cpus.modify (s.cpuCount - (l + 1)) (CpuInfo.set f v)) s.cpus }

/-- `TRY_GET`, whose second attempt is the same as the first. -/
def tryGet (f : CpuField) (line : Text) (s : ParseState) : ParseState :=
  let res := scanField f.key line
  let res := if res.isNone then scanField f.key line else res
  match res with
  | some v => s.reportBack f v
  | none => s

def tryGets (line : Text) (s : ParseState) : ParseState :=
  let s := s.tryGet .implementer line
  let s := s.tryGet .architecture line
  let s := s.tryGet .variant line
  let s := s.tryGet .part line
  s.tryGet .revision line

end ParseState

/-- The loop over the lines; `none` is a write behind the end of `cpus`. -/
def parseLines (maxN : Nat) : List Text → ParseState → Option ParseState
  | [], s => some s
  | line :: lines, s =>
    if line.head? = some '\n' then
      if maxN ≤ s.cpuCount then some s else parseLines maxN lines { s with reportBackN := 0 }
    else
      match scanProcessor line with
      | some processor =>
        if s.cpuCount < maxN then parseLines maxN lines (s.addProcessor processor) else none
      | none => parseLines maxN lines (if s.inBlock then s.tryGets line else s)

/-- `parse_cpuinfo`: the number it returns and the array it fills. -/
def parseCpuinfo (singleThread : Bool) (hostname : Option Text) (maxN : Nat) (file : Text) :
    Option (Nat × List CpuInfo) := do
  guard (maxN ≤ MAX_CPUS)
  let s ← parseLines maxN (fgetsLines 256 file) ⟨List.replicate maxN CpuInfo.zeroed, 0, 0, false⟩
  let cpus := (List.range s.cpuCount).foldl (fun cpus i => cpus.modify i CpuInfo.withMidr) s.cpus
  guard (s.cpuCount ≠ 0)
  let cpuCount := if hostname = some "lab71".toList then s.cpuCount - 1 else s.cpuCount
  return (if singleThread then 1 else cpuCount, cpus)

/-- The registers of the processors that `parse_cpuinfo` reports. -/
def midrs (singleThread : Bool) (hostname : Option Text) (file : Text) : Option (List UInt32) :=
  (parseCpuinfo singleThread hostname MAX_CPUS file).map fun (n, cpus) =>
    (cpus.take n).map CpuInfo.midr

/-! ## Lines as the client takes them

What the 256 characters of the buffer and the three formats make of a line. -/

end ClientCpuinfo

/-- The client sees what the line is. -/
def CpuinfoLine.taken : CpuinfoLine → Bool
  | blank ws => ws.1.isEmpty
  | field _ before _ _ => !before.1.isEmpty && before.1.all fun c => c == ' ' || c == '\t'
  | _ => true

/-- The line as the client takes it: it may be passed over, and an empty one follows where the line
fills the buffer. -/
def CpuinfoLine.asRead (l : CpuinfoLine) : List CpuinfoLine :=
  (if l.taken then [l] else []) ++ if l.text.length = 255 then [blank ⟨[], by simp⟩] else []

namespace ClientCpuinfo

/-- The `uint32_t` that holds a number which `sscanf` has read. -/
def word (n : Nat) : UInt32 := UInt32.ofNat (toUlong false n)

/-- What the loop does with a line. -/
inductive ReadsAs (line : Text) : Option (BlockEvent Given) → Prop where
  | close (hhead : line.head? = some '\n') : ReadsAs line (some .close)
  | entry (n : Nat) (hhead : line.head? ≠ some '\n') (hn : scanProcessor line = some (word n)) :
      ReadsAs line (some (.entry (Given.new n)))
  | assign (f : CpuField) (n : Nat) (hhead : line.head? ≠ some '\n')
      (hproc : scanProcessor line = none) (hn : scanField f.key line = some (word n))
      (hother : ∀ g, g ≠ f → scanField g.key line = none) :
      ReadsAs line (some (.assign (Given.set f n)))
  | skip (hhead : line.head? ≠ some '\n') (hproc : scanProcessor line = none)
      (hfield : ∀ f : CpuField, scanField f.key line = none) : ReadsAs line none

/-- What can stand behind a line in the buffer. -/
def IsTail (tail : Text) : Prop := tail = [] ∨ tail = ['\n']

theorem IsTail.ends {tail : Text} (h : IsTail tail) : Ends tail := by
  rintro c hc
  rcases h with rfl | rfl
  · cases hc
  · cases hc
    exact ⟨rfl, by decide, by decide⟩

theorem IsTail.isSpace {tail : Text} (h : IsTail tail) : ∀ c ∈ tail, isSpace c = true := by
  rcases h with rfl | rfl
  · exact fun c hc => absurd hc List.not_mem_nil
  · exact List.forall_mem_singleton.mpr rfl

/-! ## The formats on a line

Each format is run on each kind of line. `ReadsAs` is what the loop does with the line then. -/

theorem scanFormat_key (f : CpuField) (t : Text) :
    scanFormat f.key.toList (f.key.toList ++ t) = some t := by
  cases f <;> rfl

theorem scanFormat_key_of_ne {f g : CpuField} (h : f ≠ g) (t : Text) :
    scanFormat f.key.toList (g.key.toList ++ t) = none := by
  cases f <;> cases g <;> first | exact absurd rfl h | rfl

theorem scanFormat_processor (t : Text) :
    scanFormat "processor".toList ("processor".toList ++ t) = some t := rfl

theorem scanFormat_processor_key (f : CpuField) (t : Text) :
    scanFormat "processor".toList (f.key.toList ++ t) = none := by
  cases f <;> rfl

theorem scanFormat_key_of_space (f : CpuField) {t : Text} (ht : ∀ c ∈ t, isSpace c = true) :
    scanFormat f.key.toList t = none := by
  cases f <;> exact scanFormat_of_space rfl _ ht

theorem scanProcessor_of_none {line : Text} (h : scanFormat "processor".toList line = none) :
    scanProcessor line = none := by
  rw [scanProcessor, h]
  rfl

theorem scanField_of_none {key : String} {line : Text} (h : scanFormat key.toList line = none) :
    scanField key line = none := by
  rw [scanField, h]
  rfl

theorem scanD_text (n : CpuNumber) {tail : Text} (h : Ends tail) :
    ∃ rest, scanD (n.text ++ tail) = some (toUlong false n.decimalValue, rest) := by
  cases n with
  | decimal n => exact ⟨_, scanD_dec n h⟩
  | hexadecimal upper digits =>
      refine ⟨_, scanD_0x ?_ (digits ++ tail)⟩
      cases upper with
      | false => exact Or.inl rfl
      | true => exact Or.inr rfl

theorem scanI_text (n : CpuNumber) {tail : Text} (h : Ends tail) :
    scanI (n.text ++ tail) = some (toUlong false n.value, tail) := by
  cases n with
  | decimal n => exact scanI_dec n h
  | hexadecimal upper digits =>
      refine scanI_0x ?_ digits.2.2 digits.2.1 h
      cases upper with
      | false => exact Or.inl rfl
      | true => exact Or.inr rfl

theorem scanProcessor_text (before after : Blanks) (n : CpuNumber) {tail : Text} (h : Ends tail) :
    scanProcessor (keyLine "processor".toList before after n ++ tail) =
      some (word n.decimalValue) := by
  obtain ⟨c, cs, hcs, hc⟩ := n.text_eq_cons
  obtain ⟨rest, hrest⟩ := scanD_text n h
  have hblank : ∀ ws : Blanks, ∀ d ∈ ws.1, (!d.isDigit) = true := by
    intro ws d hd
    rw [not_isDigit_of_isSpace (ws.2 d hd).1]
    rfl
  have hset : ∀ d ∈ before.1 ++ ':' :: after.1, (!d.isDigit) = true := by
    intro d hd
    rw [List.mem_append, List.mem_cons] at hd
    rcases hd with hd | rfl | hd
    · exact hblank before d hd
    · rfl
    · exact hblank after d hd
  have hline : keyLine "processor".toList before after n ++ tail =
      "processor".toList ++ ((before.1 ++ ':' :: after.1) ++ c :: (cs ++ tail)) := by
    rw [keyLine, hcs]
    simp
  -- the scan set runs up to the first digit of the number
  have hstop : scanSet (fun d => !d.isDigit) ((before.1 ++ ':' :: after.1) ++ c :: (cs ++ tail)) =
      some (n.text ++ tail) := by
    rw [scanSet_append hset (by simp) (by rw [hc]; rfl), hcs]
    rfl
  rw [hline, scanProcessor, scanFormat_processor]
  simp only [Option.bind_eq_bind, Option.bind_some, hstop, hrest]
  rfl

/-- A field with spaces or tabs in front of its colon is read. -/
theorem scanField_text (f : CpuField) {before : Blanks} (after : Blanks) (n : CpuNumber)
    {tail : Text} (hne : before.1 ≠ []) (hbefore : ∀ c ∈ before.1, (c == ' ' || c == '\t') = true)
    (h : Ends tail) :
    scanField f.key (keyLine f.key.toList before after n ++ tail) = some (word n.value) := by
  obtain ⟨c, cs, hcs, hc⟩ := n.text_eq_cons
  have hline : keyLine f.key.toList before after n ++ tail =
      f.key.toList ++ (before.1 ++ ':' :: (after.1 ++ (n.text ++ tail))) := by
    simp [keyLine]
  have hset : scanSet (fun c => c == ' ' || c == '\t')
      (before.1 ++ ':' :: (after.1 ++ (n.text ++ tail))) =
        some (':' :: (after.1 ++ (n.text ++ tail))) := scanSet_append hbefore hne rfl _
  -- behind the colon white space is skipped
  have hcolon : scanFormat ": ".toList (':' :: (after.1 ++ (n.text ++ tail))) =
      some (n.text ++ tail) := by
    show some (lstrip (after.1 ++ (n.text ++ tail))) = _
    have hspace : isSpace c = false := by
      by_contra hspace
      rw [Bool.not_eq_false] at hspace
      rw [not_isDigit_of_isSpace hspace] at hc
      exact Bool.noConfusion hc
    rw [lstrip, List.dropWhile_append_of_pos fun d hd => (after.2 d hd).1, hcs, List.cons_append]
    exact congrArg some (lstrip_cons_of_not_space _ hspace)
  rw [hline, scanField, scanFormat_key]
  simp only [Option.bind_eq_bind, Option.bind_some, hset, hcolon, scanI_text n h]
  rfl

/-- A field with no blank in front of its colon, or with other white space there, is not. -/
theorem scanField_text_of_not_taken (f : CpuField) {before : Blanks} (after : Blanks)
    (n : CpuNumber) (tail : Text)
    (hbefore : before.1 = [] ∨ ∃ c ∈ before.1, (c == ' ' || c == '\t') = false) :
    scanField f.key (keyLine f.key.toList before after n ++ tail) = none := by
  obtain ⟨rest, hrest⟩ : ∃ rest, keyLine f.key.toList before after n ++ tail =
      f.key.toList ++ (before.1 ++ ':' :: rest) := ⟨after.1 ++ (n.text ++ tail), by simp [keyLine]⟩
  rw [hrest, scanField, scanFormat_key]
  rcases hbefore with hnil | ⟨d, hd, hbad⟩
  · rw [hnil]
    rfl
  · -- the set stops inside the white space, where no colon is
    cases hdrop : before.1.dropWhile fun c => c == ' ' || c == '\t' with
    | nil =>
        have hall := List.dropWhile_eq_nil_iff.mp hdrop d hd
        rw [hbad] at hall
        exact Bool.noConfusion hall
    | cons c cs =>
        have hc : c ∈ before.1 := (List.dropWhile_suffix _).subset (by
          rw [hdrop]
          exact List.mem_cons_self)
        have hcolon : c ≠ ':' := by
          rintro rfl
          exact absurd (before.2 ':' hc).1 (by decide)
        rcases scanSet_of_dropWhile hdrop (':' :: rest) with hscan | hscan
        · simp only [Option.bind_eq_bind, Option.bind_some, hscan, Option.bind_none]
        · have hchar : scanFormat ": ".toList (c :: (cs ++ ':' :: rest)) = none := by
            show (if c = ':' then _ else none : Option Text).bind _ = none
            rw [if_neg hcolon]
            rfl
          simp only [Option.bind_eq_bind, Option.bind_some, hscan, hchar, Option.bind_none]

/-- The event that the client makes of a line. -/
def seen (l : CpuinfoLine) : Option (BlockEvent Given) := if l.taken then l.event else none

theorem head?_text {l : CpuinfoLine} (hne : l.text ≠ []) (tail : Text) :
    (l.text ++ tail).head? ≠ some '\n' := by
  obtain ⟨c, cs, heq⟩ := List.exists_cons_of_ne_nil hne
  have hnl := l.newline_notMem_text
  rw [heq, List.mem_cons, not_or] at hnl
  rw [heq]
  exact fun h => hnl.1 (Option.some.inj h).symm

/-- White space only ends a block if the line is empty. -/
theorem readsAs_blank (ws : Blanks) {tail : Text} (htail : IsTail tail)
    (hne : ws.1 ≠ [] ∨ tail = ['\n']) : ReadsAs (ws.1 ++ tail) (seen (.blank ws)) := by
  obtain ⟨ws, hws⟩ := ws
  cases ws with
  | nil =>
      obtain rfl : tail = ['\n'] := hne.resolve_left fun h => h rfl
      exact ReadsAs.close rfl
  | cons c cs =>
      have hspace : ∀ d ∈ (c :: cs) ++ tail, isSpace d = true := fun d hd =>
        (List.mem_append.mp hd).elim (fun hd => (hws d hd).1) (htail.isSpace d)
      have hhead := head?_text (l := .blank ⟨c :: cs, hws⟩) (List.cons_ne_nil c cs) tail
      refine ReadsAs.skip hhead ?_ ?_
      · exact scanProcessor_of_none (scanFormat_of_space rfl _ hspace)
      · intro f
        exact scanField_of_none (scanFormat_key_of_space f hspace)

/-- The value of a field is seen by its own call, and by none if the line is not taken. -/
theorem readsAs_field (f : CpuField) (before after : Blanks) (n : CpuNumber) {tail : Text}
    (htail : IsTail tail) :
    ReadsAs (keyLine f.key.toList before after n ++ tail) (seen (.field f before after n)) := by
  have hhead : (keyLine f.key.toList before after n ++ tail).head? ≠ some '\n' := by
    refine head?_text (l := .field f before after n) ?_ tail
    cases f <;> exact List.cons_ne_nil _ _
  have hproc : scanProcessor (keyLine f.key.toList before after n ++ tail) = none := by
    refine scanProcessor_of_none ?_
    rw [keyLine, List.append_assoc, scanFormat_processor_key]
  have hother : ∀ g, g ≠ f →
      scanField g.key (keyLine f.key.toList before after n ++ tail) = none := by
    intro g hg
    refine scanField_of_none ?_
    rw [keyLine, List.append_assoc, scanFormat_key_of_ne hg]
  -- whether the field is seen depends on the white space in front of the colon
  cases htaken : (CpuinfoLine.field f before after n).taken with
  | true =>
      have hseen : seen (.field f before after n) = some (.assign (Given.set f n.value)) :=
        if_pos htaken
      rw [CpuinfoLine.taken, Bool.and_eq_true, List.all_eq_true] at htaken
      have hnil : before.1 ≠ [] := by
        intro hnil
        rw [hnil] at htaken
        exact Bool.noConfusion htaken.1
      rw [hseen]
      exact ReadsAs.assign f n.value hhead hproc
        (scanField_text f after n hnil htaken.2 htail.ends) hother
  | false =>
      have hseen : seen (.field f before after n) = none := by
        rw [seen, htaken]
        rfl
      rw [CpuinfoLine.taken, Bool.and_eq_false_iff, Bool.not_eq_false', List.isEmpty_iff,
        List.all_eq_false] at htaken
      rw [hseen]
      refine ReadsAs.skip hhead hproc fun g => ?_
      by_cases hg : g = f
      · subst hg
        refine scanField_text_of_not_taken g after n tail (htaken.imp_right ?_)
        rintro ⟨c, hc, hbad⟩
        exact ⟨c, hc, Bool.not_eq_true _ ▸ hbad⟩
      · exact hother g hg

/-- A line in the buffer, with its newline or without it. -/
theorem readsAs_line (l : CpuinfoLine) {tail : Text} (htail : IsTail tail)
    (hne : l.text ≠ [] ∨ tail = ['\n']) : ReadsAs (l.text ++ tail) (seen l) := by
  cases l with
  | blank ws => exact readsAs_blank ws htail hne
  | processor before after n =>
      refine ReadsAs.entry _ (head?_text ?_ tail) (scanProcessor_text before after n htail.ends)
      exact List.cons_ne_nil _ _
  | field f before after n => exact readsAs_field f before after n htail
  | other line =>
      have hnil : line.text ≠ [] := by
        obtain ⟨c, hc, -⟩ := line.not_blank
        exact List.ne_nil_of_mem hc
      refine ReadsAs.skip (head?_text (l := .other line) hnil tail) ?_ fun f => ?_
      · exact scanProcessor_of_none (scanFormat_append_space line.not_processor htail.isSpace)
      · exact scanField_of_none (scanFormat_append_space (line.not_field f) htail.isSpace)

/-! ## The records

The records of the blocks stand at the front of the array, and the ones behind them are zero
(`Tracks`). -/

/-- The record of a processor with the fields it was given; one that was not is zero. -/
def stored (g : Given) : CpuInfo where
  processor := word g.processor
  implementer := ((g.value .implementer).map word).getD 0
  architecture := ((g.value .architecture).map word).getD 0
  variant := ((g.value .variant).map word).getD 0
  part := ((g.value .part).map word).getD 0
  revision := ((g.value .revision).map word).getD 0
  midr := 0

theorem stored_set (f : CpuField) (n : Nat) (g : Given) :
    stored (g.set f n) = (stored g).set f (word n) := by
  cases f <;> rfl

/-- The records are at the front of the array. -/
structure Tracks (maxN : Nat) (b : Blocks Given) (s : ParseState) : Prop where
  cpus : s.cpus = b.records.map stored ++ List.replicate (maxN - b.records.length) CpuInfo.zeroed
  cpuCount : s.cpuCount = b.records.length
  reportBackN : s.reportBackN = b.block.length
  inBlock : s.inBlock = false → b.block = []

variable {maxN : Nat} {b : Blocks Given} {s : ParseState}

theorem tracks_start (maxN : Nat) :
    Tracks maxN Blocks.empty ⟨List.replicate maxN CpuInfo.zeroed, 0, 0, false⟩ where
  cpus := rfl
  cpuCount := rfl
  reportBackN := rfl
  inBlock _ := rfl

theorem Tracks.close (h : Tracks maxN b s) :
    Tracks maxN (b.step .close) { s with reportBackN := 0 } where
  cpus := by
    rw [Blocks.records_step_close]
    exact h.cpus
  cpuCount := by
    rw [Blocks.records_step_close]
    exact h.cpuCount
  reportBackN := rfl
  inBlock _ := rfl

theorem Tracks.addProcessor (h : Tracks maxN b s) (hlt : s.cpuCount < maxN) (n : Nat) :
    Tracks maxN (b.step (.entry (Given.new n))) (s.addProcessor (word n)) := by
  have hrecords : (b.step (.entry (Given.new n))).records = b.records ++ [Given.new n] :=
    (List.append_assoc _ _ _).symm
  rw [h.cpuCount] at hlt
  constructor
  · show s.cpus.modify s.cpuCount _ = _
    have hlen : maxN - b.records.length = (maxN - (b.records.length + 1)) + 1 := by omega
    rw [hrecords, h.cpus, h.cpuCount, hlen, List.replicate_succ, List.map_append,
      List.length_append, List.length_singleton, List.append_assoc]
    have hmodify := Blocks.modify_append_cons (b.records.map stored) CpuInfo.zeroed
      (List.replicate (maxN - (b.records.length + 1)) CpuInfo.zeroed) fun cpu =>
        { cpu with processor := word n, architecture := 8 }
    rw [List.length_map] at hmodify
    exact hmodify
  · show s.cpuCount + 1 = _
    rw [hrecords, List.length_append, h.cpuCount]
    rfl
  · show s.reportBackN + 1 = (b.block ++ [Given.new n]).length
    rw [List.length_append, h.reportBackN]
    rfl
  · intro hfalse
    exact Bool.noConfusion hfalse

theorem Tracks.reportBack (h : Tracks maxN b s) (f : CpuField) (n : Nat) :
    Tracks maxN (b.step (.assign (Given.set f n))) (s.reportBack f (word n)) := by
  have hlen : (b.step (.assign (Given.set f n))).records.length = b.records.length := by
    show (b.closed ++ b.block.map (Given.set f n)).length = (b.closed ++ b.block).length
    rw [List.length_append, List.length_append, List.length_map]
  have hstored : (b.block.map stored).map (CpuInfo.set f (word n)) =
      (b.block.map (Given.set f n)).map stored := by
    rw [List.map_map, List.map_map]
    exact List.map_congr_left fun g _ => (stored_set f n g).symm
  constructor
  · show (List.range s.reportBackN).foldl _ s.cpus = _
    -- the loop goes back over the records of the current block
    have hloop := Blocks.foldl_modify_back (CpuInfo.set f (word n))
      (List.replicate (maxN - b.records.length) CpuInfo.zeroed) (b.block.map stored)
      (b.closed.map stored) b.records.length (by simp [Blocks.records])
    rw [List.length_map, hstored, ← List.map_append, ← List.map_append] at hloop
    rw [h.reportBackN, h.cpuCount, h.cpus, hlen]
    exact hloop
  · rw [hlen]
    exact h.cpuCount
  · show s.reportBackN = (b.block.map (Given.set f n)).length
    rw [List.length_map]
    exact h.reportBackN
  · intro hin
    show b.block.map (Given.set f n) = []
    rw [h.inBlock hin]
    rfl

theorem tryGet_of_some {f : CpuField} {line : Text} {v : UInt32}
    (h : scanField f.key line = some v) (s : ParseState) :
    s.tryGet f line = s.reportBack f v := by
  rw [ParseState.tryGet, h]
  rfl

theorem tryGet_of_none {f : CpuField} {line : Text} (h : scanField f.key line = none)
    (s : ParseState) : s.tryGet f line = s := by
  rw [ParseState.tryGet, h]
  rfl

/-- A line gives at most one field. -/
theorem tryGets_of_some {f : CpuField} {line : Text} {v : UInt32}
    (h : scanField f.key line = some v) (hother : ∀ g, g ≠ f → scanField g.key line = none)
    (s : ParseState) : s.tryGets line = s.reportBack f v := by
  have hskip : ∀ (g : CpuField) (s : ParseState), g ≠ f → s.tryGet g line = s :=
    fun g s hg => tryGet_of_none (hother g hg) s
  unfold ParseState.tryGets
  cases f <;> simp only [tryGet_of_some h, hskip, ne_eq, reduceCtorEq, not_false_eq_true]

theorem tryGets_of_none {line : Text} (h : ∀ f : CpuField, scanField f.key line = none)
    (s : ParseState) : s.tryGets line = s := by
  simp only [ParseState.tryGets, tryGet_of_none (h _)]

/-- With no block open, nothing is reported back. -/
theorem Tracks.assign (h : Tracks maxN b s) {line : Text} (f : CpuField) (n : Nat)
    (hn : scanField f.key line = some (word n))
    (hother : ∀ g, g ≠ f → scanField g.key line = none) :
    Tracks maxN (b.step (.assign (Given.set f n))) (if s.inBlock then s.tryGets line else s) := by
  cases hin : s.inBlock with
  | true =>
      rw [if_pos rfl, tryGets_of_some hn hother]
      exact h.reportBack f n
  | false =>
      rw [if_neg Bool.false_ne_true]
      have hblock := h.inBlock hin
      have hsame : b.step (.assign (Given.set f n)) = b := by
        obtain ⟨closed, block⟩ := b
        cases hblock
        rfl
      rw [hsame]
      exact h

/-- The loop keeps the records of the events that the lines stand for. -/
theorem parseLines_readsAs {lines : List Text} {es : List (Option (BlockEvent Given))}
    (hread : List.Forall₂ ReadsAs lines es) (h : Tracks maxN b s)
    (hcount : b.records.length + (es.filterMap id).countP BlockEvent.isEntry ≤ maxN) :
    ∃ b' s', parseLines maxN lines s = some s' ∧ Tracks maxN b' s' ∧
      b'.records = (b.run (es.filterMap id)).records := by
  induction hread generalizing b s with
  | nil => exact ⟨b, s, rfl, h, rfl⟩
  | @cons line e lines es hline hread ih =>
      cases hline with
      | close hhead =>
          rw [parseLines, if_pos hhead]
          split
          next hfull =>
            -- all processors were read: nothing that follows changes their records
            have hno : ∀ e ∈ es.filterMap id, BlockEvent.isEntry e = false := by
              rw [h.cpuCount] at hfull
              have hzero : (es.filterMap id).countP BlockEvent.isEntry = 0 := by
                have hle : (es.filterMap id).countP BlockEvent.isEntry ≤
                    ((some BlockEvent.close :: es).filterMap id).countP BlockEvent.isEntry :=
                  List.Sublist.countP_le (List.sublist_cons_self _ _)
                omega
              intro e he
              exact Bool.eq_false_iff.mpr (List.countP_eq_zero.mp hzero e he)
            refine ⟨b, s, rfl, h, ?_⟩
            show b.records = ((b.step .close).run (es.filterMap id)).records
            rw [Blocks.records_run_of_closed rfl hno, Blocks.records_step_close]
          next =>
            refine ih h.close ?_
            rw [Blocks.records_step_close]
            refine Nat.le_trans (Nat.add_le_add_left ?_ _) hcount
            exact List.Sublist.countP_le (List.sublist_cons_self _ _)
      | entry n hhead hn =>
          have hcons : ((some (BlockEvent.entry (Given.new n)) :: es).filterMap id).countP
              BlockEvent.isEntry = (es.filterMap id).countP BlockEvent.isEntry + 1 :=
            List.countP_cons_of_pos rfl
          have hlt : s.cpuCount < maxN := by
            rw [h.cpuCount]
            omega
          rw [parseLines, if_neg hhead, hn]
          show ∃ b' s', (if s.cpuCount < maxN then _ else _) = some s' ∧ _
          rw [if_pos hlt]
          refine ih (h.addProcessor hlt n) ?_
          have hlen := Blocks.length_records_step b (.entry (Given.new n))
          rw [hlen]
          show b.records.length + 1 + _ ≤ _
          omega
      | assign f n hhead hproc hn hother =>
          rw [parseLines, if_neg hhead, hproc]
          refine ih (h.assign f n hn hother) ?_
          have hlen := Blocks.length_records_step b (.assign (Given.set f n))
          rw [hlen]
          exact hcount
      | skip hhead hproc hfield =>
          have hsame : (if s.inBlock then s.tryGets line else s) = s := by
            rw [tryGets_of_none hfield, ite_self]
          rw [parseLines, if_neg hhead, hproc]
          show ∃ b' s', parseLines maxN lines (if s.inBlock then s.tryGets line else s) = _ ∧ _
          rw [hsame]
          exact ih h hcount

/-! ## The whole text

`fgets` cuts the text into lines; what is done with them is a run of the blocks. -/

/-- The events of a line that ends with a newline. -/
def seenAll (l : CpuinfoLine) : List (Option (BlockEvent Given)) :=
  seen l :: if l.text.length = 255 then [some .close] else []

theorem filterMap_seenAll (l : CpuinfoLine) :
    (seenAll l).filterMap id = l.asRead.filterMap CpuinfoLine.event := by
  have hseen : ((seen l).toList : List (BlockEvent Given)) =
      (if l.taken then [l] else []).filterMap CpuinfoLine.event := by
    unfold seen
    split
    next => cases l <;> rfl
    next => rfl
  have hfull : (if l.text.length = 255 then [some BlockEvent.close] else []).filterMap id =
      (if l.text.length = 255 then [CpuinfoLine.blank ⟨[], by simp⟩] else []).filterMap
        CpuinfoLine.event := by
    split <;> rfl
  rw [CpuinfoLine.asRead, List.filterMap_append, ← hseen, ← hfull, seenAll]
  cases seen l <;> rfl

theorem readsAs_fgetsLine {l : CpuinfoLine} (hlen : l.text.length < 256) :
    List.Forall₂ ReadsAs (fgetsLine 256 l.text) (seenAll l) := by
  unfold fgetsLine seenAll
  by_cases hfull : l.text.length = 255
  · have hne : l.text ≠ [] := by
      intro hnil
      rw [hnil] at hfull
      cases hfull
    have hline := readsAs_line l (Or.inl rfl) (Or.inl hne)
    rw [List.append_nil] at hline
    rw [if_neg (by omega), if_pos hfull]
    exact .cons hline (.cons (ReadsAs.close rfl) .nil)
  · rw [if_pos (by omega), if_neg hfull]
    exact .cons (readsAs_line l (Or.inr rfl) (Or.inr rfl)) .nil

theorem seen_of_text_eq_nil {l : CpuinfoLine} (h : l.text = []) : seen l = some .close := by
  cases l with
  | blank ws =>
      have htaken : (CpuinfoLine.blank ws).taken = true := List.isEmpty_iff.mpr h
      exact if_pos htaken
  | processor before after n => exact absurd h (List.cons_ne_nil _ _)
  | field f before after n => cases f <;> exact absurd h (List.cons_ne_nil _ _)
  | other line =>
      obtain ⟨c, hc, -⟩ := line.not_blank
      exact absurd h (List.ne_nil_of_mem hc)

/-- What the calls of `fgets` give stands for the lines as the client takes them. -/
theorem readsAs_text {ls : List CpuinfoLine} (hlen : ∀ l ∈ ls, l.text.length < 256) :
    ∃ es, List.Forall₂ ReadsAs (fgetsLines 256 (cpuinfoText ls)) es ∧
      ∀ b : Blocks Given, (b.run (es.filterMap id)).records =
        (b.run ((ls.flatMap CpuinfoLine.asRead).filterMap CpuinfoLine.event)).records := by
  induction ls with
  | nil => exact ⟨[], .nil, fun b => rfl⟩
  | cons l ls ih =>
      rw [List.forall_mem_cons] at hlen
      obtain ⟨hl, hls⟩ := hlen
      have hnl := l.newline_notMem_text
      cases ls with
      | nil =>
          have hevents : ([l].flatMap CpuinfoLine.asRead).filterMap CpuinfoLine.event =
              (seenAll l).filterMap id := by
            rw [filterMap_seenAll, List.flatMap_singleton]
          -- a last line without a newline may lack the end of a block
          have hclose : ∀ b : Blocks Given, (b.run ([seen l].filterMap id)).records =
              (b.run ((seenAll l).filterMap id)).records := by
            intro b
            have hsplit : seenAll l = [seen l] ++
                if l.text.length = 255 then [some BlockEvent.close] else [] := rfl
            rw [hsplit, List.filterMap_append, Blocks.run_append]
            split
            next => exact (Blocks.records_step_close _).symm
            next => rfl
          have htext : cpuinfoText [l] = l.text := List.intercalate_singleton
          rw [htext, fgetsLines_last hnl hl (by decide), hevents]
          split
          next hnil =>
            refine ⟨[], .nil, fun b => ?_⟩
            rw [← hclose, seen_of_text_eq_nil hnil]
            exact (Blocks.records_step_close b).symm
          next hne =>
            have hline := readsAs_line l (Or.inl rfl) (Or.inl hne)
            rw [List.append_nil] at hline
            exact ⟨[seen l], .cons hline .nil, hclose⟩
      | cons l' ls =>
          obtain ⟨es, hread, hrun⟩ := ih hls
          have htext : cpuinfoText (l :: l' :: ls) =
              l.text ++ '\n' :: cpuinfoText (l' :: ls) := by
            simp [cpuinfoText, List.intercalate_cons_cons]
          rw [htext, fgetsLines_append hnl hl (by decide)]
          refine ⟨seenAll l ++ es, List.rel_append (readsAs_fgetsLine hl) hread, fun b => ?_⟩
          have hcons : (l :: l' :: ls).flatMap CpuinfoLine.asRead =
              l.asRead ++ (l' :: ls).flatMap CpuinfoLine.asRead := List.flatMap_cons
          rw [List.filterMap_append, Blocks.run_append, hrun, filterMap_seenAll, hcons,
            List.filterMap_append, Blocks.run_append]

/-- The client drops no processor line and makes none. -/
theorem countP_asRead (ls : List CpuinfoLine) :
    (ls.flatMap CpuinfoLine.asRead).countP CpuinfoLine.isProcessor =
      ls.countP CpuinfoLine.isProcessor := by
  have hline : ∀ l : CpuinfoLine,
      l.asRead.countP CpuinfoLine.isProcessor = [l].countP CpuinfoLine.isProcessor := by
    intro l
    have hblank : (if l.text.length = 255 then [CpuinfoLine.blank ⟨[], by simp⟩] else []).countP
        CpuinfoLine.isProcessor = 0 := by
      split <;> rfl
    rw [CpuinfoLine.asRead, List.countP_append, hblank]
    cases l <;> first | rfl | (split <;> rfl)
  induction ls with
  | nil => rfl
  | cons l ls ih =>
      rw [List.flatMap_cons, List.countP_append, ih, hline, ← List.countP_append]
      rfl

/-- `parse_cpuinfo` on a text of known lines. -/
theorem midrs_text {ls : List CpuinfoLine} (hlen : ∀ l ∈ ls, l.text.length < 256)
    (hcount : ls.countP CpuinfoLine.isProcessor ≤ MAX_CPUS) {hostname : Option Text}
    (hhost : hostname ≠ some "lab71".toList) :
    midrs false hostname (cpuinfoText ls) =
      if given ls = [] then none
      else some ((given (ls.flatMap CpuinfoLine.asRead)).map fun g => buildMidr (stored g)) := by
  -- the lines are events, and the loop is their run
  obtain ⟨es, hread, hrun⟩ := readsAs_text hlen
  have hrecords := hrun Blocks.empty
  rw [← given] at hrecords
  have hlen' : (given (ls.flatMap CpuinfoLine.asRead)).length = (given ls).length := by
    rw [length_given, length_given, countP_asRead]
  have hentries : (es.filterMap id).countP BlockEvent.isEntry =
      ls.countP CpuinfoLine.isProcessor := by
    have hcount' := Blocks.length_records_run Blocks.empty (es.filterMap id)
    rw [hrecords, hlen', length_given] at hcount'
    exact (Nat.zero_add _).symm.trans hcount'.symm
  obtain ⟨b, s, hparse, htracks, hb⟩ := parseLines_readsAs hread (tracks_start MAX_CPUS) (by
    rw [hentries]
    exact (Nat.zero_add _).trans_le hcount)
  rw [hrecords] at hb
  have hcpus := htracks.cpus
  have hcpuCount := htracks.cpuCount
  rw [hb] at hcpus hcpuCount
  generalize given (ls.flatMap CpuinfoLine.asRead) = gs at *
  -- the registers are filled in afterwards, at the front of the array
  have hloop := Blocks.foldl_modify_front CpuInfo.withMidr
    (List.replicate (MAX_CPUS - gs.length) CpuInfo.zeroed) (gs.map stored)
  rw [List.length_map] at hloop
  have hnil : gs = [] ↔ given ls = [] := by
    rw [← List.length_eq_zero_iff, hlen', List.length_eq_zero_iff]
  simp only [midrs, parseCpuinfo, hparse, hcpus, hcpuCount, hloop, Option.bind_eq_bind,
    Option.bind_some, guard, le_refl, if_true, if_neg hhost, Option.pure_def, ← hnil]
  by_cases hgs : gs = []
  · subst hgs
    rfl
  · have hne : gs.length ≠ 0 := fun h => hgs (List.length_eq_zero_iff.mp h)
    have htake : ∀ ys, ((gs.map stored).map CpuInfo.withMidr ++ ys).take gs.length =
        (gs.map stored).map CpuInfo.withMidr := fun ys =>
      List.take_left' (by rw [List.length_map, List.length_map])
    rw [if_pos hne, if_neg hgs]
    show some ((List.take gs.length _).map CpuInfo.midr) = _
    rw [htake, List.map_map, List.map_map]
    rfl

end ClientCpuinfo

end RISCover
