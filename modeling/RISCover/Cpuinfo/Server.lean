import Mathlib.Data.Int.Bitwise
import RISCover.Cpuinfo.Lines

/-!
# `/proc/cpuinfo` on the server

`parse_cpuinfo` of `cpuinfo.py` splits the text at its newlines and looks at every line with a
regular expression and the string methods. It takes every known line as what it is
(`parseCpuinfo_text`); a processor that lacks a field has no register.
-/

open Text

namespace RISCover

namespace ServerCpuinfo

/-! ## `CPUInfo` -/

/-- `CPUInfo`; an attribute that was never set is `none`. -/
structure CPUInfo where
  processor : Nat
  implementer : Option Int
  architecture : Option Int
  variant : Option Int
  part : Option Int
  revision : Option Int

namespace CPUInfo

/-- A new one, with the default of aarch64. -/
def new (processor : Nat) : CPUInfo := ⟨processor, none, some 8, none, none, none⟩

/-- `setattr`. -/
def setattr (f : CpuField) (v : Int) (cpu : CPUInfo) : CPUInfo :=
  match f with
  | .implementer => { cpu with implementer := some v }
  | .architecture => { cpu with architecture := some v }
  | .variant => { cpu with variant := some v }
  | .part => { cpu with part := some v }
  | .revision => { cpu with revision := some v }

/-- `midr`; `none` stands for an `AttributeError`. -/
def midr (self : CPUInfo) : Option Int := do
  let midr : Int := 0
  let midr := midr.lor ((← self.implementer) <<< (24 : Nat))
  let midr := midr.lor ((← self.architecture) <<< (16 : Nat))
  let midr := midr.lor ((← self.variant) <<< (20 : Nat))
  let midr := midr.lor ((← self.part) <<< (4 : Nat))
  return midr.lor ((← self.revision) <<< (0 : Nat))

end CPUInfo

/-! ## `parse_cpuinfo`

The expression and the methods, one line at a time. -/

/-- The tokens of `parse_cpu_possible`; `none` is the exit after an error. -/
def possibleToken (token : Text) : Option Int :=
  let token := pyStrip token
  if '-' ∈ token then
    match token.splitOn '-' with
    | [start, stop] => do return (← pyInt stop) - (← pyInt start) + 1
    | _ => none
  else some 1

/-- `parse_cpu_possible`. -/
def parseCpuPossible (buf : Text) : Option Int :=
  (buf.splitOn ',').foldlM (fun total token => do return total + (← possibleToken token)) 0

/-- `re.match(r"processor\s*:\s*(\d+)", line)`: the number of the group. -/
def matchProcessor (line : Text) : Option Nat := do
  let t ← scanLit "processor" line
  let t ← scanLit ":" (t.dropWhile isPySpace)
  let digits := (t.dropWhile isPySpace).takeWhile (isBase 10)
  if digits = [] then none else some (ofBase 10 digits)

/-- The variables of the loop. -/
structure ParseState where
  cpus : List CPUInfo
  reportBackN : Nat
  inBlock : Bool

namespace ParseState

/-- The assignment to `cpus[-report_back_n:]`; the slice from `-0` is the whole list. -/
def reportBack (s : ParseState) (f : CpuField) (v : Int) : ParseState :=
  let start := if s.reportBackN = 0 then 0 else s.cpus.length - s.reportBackN
  { s with cpus := s.cpus.take start ++ (s.cpus.drop start).map (CPUInfo.setattr f v) }

/-- The body of the loop over `key_attr_map`. -/
def checkKey (line : Text) (s : ParseState) (f : CpuField) : ParseState :=
  if startsWith line f.key then
    match (pySplitOnce ':' line).bind pyInt0 with
    | some v => s.reportBack f v
    | none => s
  else s

/-- The body of the loop over the lines. -/
def parseLine (s : ParseState) (line : Text) : ParseState :=
  if pyStrip line = [] then { s with reportBackN := 0, inBlock := false }
  else
    match matchProcessor line with
    | some processor =>
      { cpus := s.cpus ++ [CPUInfo.new processor]
        reportBackN := s.reportBackN + 1
        inBlock := true }
    | none => if s.inBlock then CpuField.all.foldl (checkKey line) s else s

end ParseState

/-- `parse_cpuinfo`; `none` is the failing assertion. -/
def parseCpuinfo (data sysPossible : Text) : Option (List CPUInfo) :=
  let s := (data.splitOn '\n').foldl ParseState.parseLine ⟨[], 0, false⟩
  if parseCpuPossible sysPossible = some ↑s.cpus.length then some s.cpus else none

/-- `[c.midr() for c in cpuinfos]`. -/
def midrs (data sysPossible : Text) : Option (List Int) := do
  (← parseCpuinfo data sysPossible).mapM CPUInfo.midr

/-! ## Known lines

What the expression and the methods find on a line of each kind. -/

/-- The attributes that a processor was given. -/
def toPy (g : Given) : CPUInfo where
  processor := g.processor
  implementer := (g.value .implementer).map Nat.cast
  architecture := (g.value .architecture).map Nat.cast
  variant := (g.value .variant).map Nat.cast
  part := (g.value .part).map Nat.cast
  revision := (g.value .revision).map Nat.cast

theorem toPy_set (f : CpuField) (n : Nat) (g : Given) :
    toPy (g.set f n) = (toPy g).setattr f n := by
  cases f <;> rfl

theorem isPySpace_blanks (ws : Blanks) : ∀ c ∈ ws.1, isPySpace c = true :=
  fun c hc => isPySpace_of_isSpace (ws.2 c hc).1

theorem notMem_blanks (ws : Blanks) : ':' ∉ ws.1 := fun h => absurd (ws.2 ':' h).1 (by decide)

theorem matchProcessor_text (before after : Blanks) (n : CpuNumber) :
    matchProcessor (keyLine "processor".toList before after n) = some n.decimalValue := by
  have hdigits : (n.text.takeWhile (isBase 10) : Text) ≠ [] ∧
      ofBase 10 (n.text.takeWhile (isBase 10)) = n.decimalValue := by
    cases n with
    | decimal n =>
        have htake : (dec n).takeWhile (isBase 10) = dec n :=
          List.takeWhile_eq_self_iff.mpr (isBase_dec n)
        show (dec n).takeWhile (isBase 10) ≠ [] ∧ ofBase 10 ((dec n).takeWhile (isBase 10)) = n
        rw [htake]
        exact ⟨dec_ne_nil n, ofBase_dec n⟩
    | hexadecimal upper digits =>
        cases upper with
        | false => exact ⟨List.cons_ne_nil _ _, rfl⟩
        | true => exact ⟨List.cons_ne_nil _ _, rfl⟩
  -- the number begins with a digit, so white space ends in front of it
  obtain ⟨c, cs, hcs, hc⟩ := n.text_eq_cons
  have hspace : isPySpace c = false := by
    rcases n.isHex_or_x c (by rw [hcs]; exact List.mem_cons_self) with h | rfl | rfl
    · exact not_isPySpace_of_isHex h
    · exact absurd hc (by decide)
    · exact absurd hc (by decide)
  have hbefore : (before.1 ++ ':' :: (after.1 ++ n.text)).dropWhile isPySpace =
      ':' :: (after.1 ++ n.text) := by
    rw [List.dropWhile_append_of_pos (isPySpace_blanks before)]
    rfl
  have hafter : (after.1 ++ n.text).dropWhile isPySpace = n.text := by
    rw [List.dropWhile_append_of_pos (isPySpace_blanks after), hcs, List.dropWhile_cons, hspace]
    rfl
  have hlit : scanLit "processor" (keyLine "processor".toList before after n) =
      some (before.1 ++ ':' :: (after.1 ++ n.text)) := rfl
  have hcolon : scanLit ":" (':' :: (after.1 ++ n.text)) = some (after.1 ++ n.text) := rfl
  simp only [matchProcessor, hlit, Option.bind_eq_bind, Option.bind_some, hbefore, hcolon, hafter,
    if_neg hdigits.1, hdigits.2]

theorem matchProcessor_of_scanFormat {line : Text}
    (h : scanFormat "processor".toList line = none) : matchProcessor line = none := by
  have hlit : scanLit "processor" line = none := by
    rw [scanLit]
    split
    next hstart =>
      obtain ⟨t, rfl⟩ := List.isPrefixOf_iff_prefix.mp hstart
      exact absurd h (Option.some_ne_none t)
    next => rfl
  rw [matchProcessor, hlit]
  rfl

theorem startsWith_of_scanFormat {f : CpuField} {line : Text}
    (h : scanFormat f.key.toList line = none) : startsWith line f.key = false := by
  by_contra hstart
  rw [Bool.not_eq_false] at hstart
  obtain ⟨t, rfl⟩ := List.isPrefixOf_iff_prefix.mp hstart
  have hsome : scanFormat f.key.toList (f.key.toList ++ t) = some t := by cases f <;> rfl
  rw [hsome] at h
  cases h

theorem pyInt0_text (after : Blanks) (n : CpuNumber) :
    pyInt0 (after.1 ++ n.text) = some (↑n.value : Int) := by
  cases n with
  | decimal n => exact pyInt0_dec (isPySpace_blanks after) n
  | hexadecimal upper digits =>
      refine pyInt0_0x (isPySpace_blanks after) ?_ digits.2.2 digits.2.1
      cases upper with
      | false => exact Or.inl rfl
      | true => exact Or.inr rfl

/-- The value of a field line. -/
theorem value_text (f : CpuField) (before after : Blanks) (n : CpuNumber) :
    (pySplitOnce ':' (keyLine f.key.toList before after n)).bind pyInt0 =
      some (↑n.value : Int) := by
  have hcolon : ':' ∉ f.key.toList ++ before.1 := by
    rw [List.mem_append, not_or]
    exact ⟨by cases f <;> decide, notMem_blanks before⟩
  have hline : keyLine f.key.toList before after n =
      (f.key.toList ++ before.1) ++ ':' :: (after.1 ++ n.text) :=
    (List.append_assoc _ _ _).symm
  rw [hline, pySplitOnce_append hcolon, Option.bind_some, pyInt0_text]

theorem pyStrip_keyLine (key : Text) {c : Char} (hmem : c ∈ key) (hc : isPySpace c = false)
    (before after : Blanks) (n : CpuNumber) : pyStrip (keyLine key before after n) ≠ [] := by
  intro hnil
  have hall := pyStrip_eq_nil_iff.mp hnil c (List.mem_append_left _ hmem)
  rw [hc] at hall
  exact Bool.noConfusion hall

/-! ## The records

The objects of the blocks are the records, with an attribute for each field that was given. -/

/-- The list has the records. -/
structure Tracks (b : Blocks Given) (s : ParseState) : Prop where
  cpus : s.cpus = b.records.map toPy
  reportBackN : s.reportBackN = b.block.length
  inBlock : s.inBlock = true ↔ b.block ≠ []

variable {b : Blocks Given} {s : ParseState}

theorem tracks_start : Tracks Blocks.empty ⟨[], 0, false⟩ where
  cpus := rfl
  reportBackN := rfl
  inBlock := ⟨fun h => Bool.noConfusion h, fun h => absurd rfl h⟩

theorem Tracks.close (h : Tracks b s) :
    Tracks (b.step .close) { s with reportBackN := 0, inBlock := false } where
  cpus := by
    rw [Blocks.records_step_close]
    exact h.cpus
  reportBackN := rfl
  inBlock := ⟨fun h => Bool.noConfusion h, fun h => absurd rfl h⟩

theorem Tracks.entry (h : Tracks b s) (n : Nat) :
    Tracks (b.step (.entry (Given.new n)))
      { cpus := s.cpus ++ [CPUInfo.new n], reportBackN := s.reportBackN + 1, inBlock := true } where
  cpus := by
    have hrecords : (b.step (.entry (Given.new n))).records = b.records ++ [Given.new n] :=
      (List.append_assoc _ _ _).symm
    rw [hrecords, List.map_append, h.cpus]
    rfl
  reportBackN := by
    show s.reportBackN + 1 = (b.block ++ [Given.new n]).length
    rw [List.length_append, h.reportBackN]
    rfl
  inBlock := ⟨fun _ => List.append_ne_nil_of_right_ne_nil _ (List.cons_ne_nil _ _), fun _ => rfl⟩

theorem Tracks.reportBack (h : Tracks b s) (hblock : b.block ≠ []) (f : CpuField) (n : Nat) :
    Tracks (b.step (.assign (Given.set f n))) (s.reportBack f n) := by
  have hback : s.reportBackN ≠ 0 := by
    rw [h.reportBackN]
    exact fun hzero => hblock (List.length_eq_zero_iff.mp hzero)
  have hcpus : s.cpus = b.closed.map toPy ++ b.block.map toPy := by
    rw [h.cpus, Blocks.records, List.map_append]
  have hstart : s.cpus.length - s.reportBackN = (b.closed.map toPy).length := by
    rw [hcpus, h.reportBackN, List.length_append]
    simp only [List.length_map]
    omega
  constructor
  · show s.cpus.take (if s.reportBackN = 0 then 0 else s.cpus.length - s.reportBackN) ++
      (s.cpus.drop (if s.reportBackN = 0 then 0 else s.cpus.length - s.reportBackN)).map _ =
        (b.closed ++ b.block.map (Given.set f n)).map toPy
    rw [if_neg hback, hstart, hcpus, List.take_left, List.drop_left, List.map_append,
      List.map_map, List.map_map]
    exact congrArg _ (List.map_congr_left fun g _ => (toPy_set f n g).symm)
  · show s.reportBackN = (b.block.map (Given.set f n)).length
    rw [List.length_map]
    exact h.reportBackN
  · show s.inBlock = true ↔ b.block.map (Given.set f n) ≠ []
    rw [h.inBlock, Ne, Ne, List.map_eq_nil_iff]

theorem checkKey_of_not_startsWith {line : Text} {f : CpuField} (h : startsWith line f.key = false)
    (s : ParseState) : s.checkKey line f = s := by
  rw [ParseState.checkKey, h]
  rfl

theorem startsWith_key_of_ne {f g : CpuField} (h : g ≠ f) (t : Text) :
    startsWith (f.key.toList ++ t) g.key = false := by
  cases f <;> cases g <;> first | exact absurd rfl h | rfl

/-- Only the key of the line is found on it. -/
theorem foldl_checkKey_text (f : CpuField) (before after : Blanks) (n : CpuNumber)
    (s : ParseState) :
    CpuField.all.foldl (ParseState.checkKey (keyLine f.key.toList before after n)) s =
      s.reportBack f n.value := by
  have hother : ∀ (g : CpuField) (s : ParseState), g ≠ f →
      s.checkKey (keyLine f.key.toList before after n) g = s := fun g s hg =>
    checkKey_of_not_startsWith (startsWith_key_of_ne hg _) s
  have hown : ∀ s : ParseState, s.checkKey (keyLine f.key.toList before after n) f =
      s.reportBack f n.value := by
    intro s
    have hstart : startsWith (keyLine f.key.toList before after n) f.key = true :=
      startsWith_append f.key _
    rw [ParseState.checkKey, if_pos hstart, value_text]
  unfold CpuField.all
  cases f <;> simp only [List.foldl_cons, List.foldl_nil, hown, hother, ne_eq, reduceCtorEq,
    not_false_eq_true]

/-- Every line is taken as what it is. -/
theorem Tracks.parseLine (h : Tracks b s) (l : CpuinfoLine) :
    Tracks (b.run l.event.toList) (s.parseLine l.text) := by
  cases l with
  | blank ws =>
      have hstrip : pyStrip ws.1 = [] := pyStrip_eq_nil_iff.mpr (isPySpace_blanks ws)
      show Tracks (b.step .close) (s.parseLine ws.1)
      rw [ParseState.parseLine, if_pos hstrip]
      exact h.close
  | processor before after n =>
      have hstrip := pyStrip_keyLine "processor".toList (c := 'p') (by decide) rfl before after n
      show Tracks (b.step (.entry (Given.new n.decimalValue)))
        (s.parseLine (keyLine "processor".toList before after n))
      rw [ParseState.parseLine, if_neg hstrip, matchProcessor_text]
      exact h.entry n.decimalValue
  | field f before after n =>
      have hstrip := pyStrip_keyLine f.key.toList (c := 'C') (by cases f <;> decide) rfl before
        after n
      have hmatch : matchProcessor (keyLine f.key.toList before after n) = none := by
        refine matchProcessor_of_scanFormat ?_
        cases f <;> rfl
      show Tracks (b.step (.assign (Given.set f n.value)))
        (s.parseLine (keyLine f.key.toList before after n))
      rw [ParseState.parseLine, if_neg hstrip, hmatch]
      show Tracks _ (if s.inBlock then _ else s)
      rw [foldl_checkKey_text]
      split
      next hin => exact h.reportBack (h.inBlock.mp hin) f n.value
      next hin =>
        -- no block is open, so there is nothing to assign to
        have hblock : b.block = [] := by
          by_contra hne
          exact hin (h.inBlock.mpr hne)
        have hsame : b.step (.assign (Given.set f n.value)) = b := by
          obtain ⟨closed, block⟩ := b
          cases hblock
          rfl
        rw [hsame]
        exact h
  | other line =>
      have hstrip : pyStrip line.text ≠ [] := by
        intro hnil
        obtain ⟨c, hc, hspace⟩ := line.not_blank
        rw [pyStrip_eq_nil_iff.mp hnil c hc] at hspace
        exact Bool.noConfusion hspace
      have hkeys : ∀ (fs : List CpuField) (s : ParseState),
          fs.foldl (ParseState.checkKey line.text) s = s := by
        intro fs
        induction fs with
        | nil => exact fun s => rfl
        | cons f fs ih =>
            intro s
            rw [List.foldl_cons, ih,
              checkKey_of_not_startsWith (startsWith_of_scanFormat (line.not_field f))]
      show Tracks b (s.parseLine line.text)
      rw [ParseState.parseLine, if_neg hstrip, matchProcessor_of_scanFormat line.not_processor]
      show Tracks b (if s.inBlock then _ else s)
      rw [hkeys, ite_self]
      exact h

theorem Tracks.parseLines (h : Tracks b s) (ls : List CpuinfoLine) :
    Tracks (b.run (ls.filterMap CpuinfoLine.event))
      ((ls.map CpuinfoLine.text).foldl ParseState.parseLine s) := by
  induction ls generalizing b s with
  | nil => exact h
  | cons l ls ih =>
      have hrun : b.run ((l :: ls).filterMap CpuinfoLine.event) =
          (b.run l.event.toList).run (ls.filterMap CpuinfoLine.event) := by
        rw [List.filterMap_cons]
        cases l.event <;> rfl
      rw [hrun]
      exact ih (h.parseLine l)

/-- `parse_cpuinfo` on a text of known lines. -/
theorem parseCpuinfo_text (ls : List CpuinfoLine) {sysPossible : Text}
    (hpossible : parseCpuPossible sysPossible = some ↑(ls.countP CpuinfoLine.isProcessor)) :
    parseCpuinfo (cpuinfoText ls) sysPossible = some ((given ls).map toPy) := by
  have hcpus : (((cpuinfoText ls).splitOn '\n').foldl ParseState.parseLine ⟨[], 0, false⟩).cpus =
      (given ls).map toPy := by
    cases ls with
    | nil => rfl
    | cons l ls =>
        have hlines : (cpuinfoText (l :: ls)).splitOn '\n' =
            (l :: ls).map CpuinfoLine.text := by
          refine List.splitOn_intercalate '\n' ?_ (List.cons_ne_nil _ _)
          intro t ht
          obtain ⟨l', -, rfl⟩ := List.mem_map.mp ht
          exact l'.newline_notMem_text
        rw [hlines]
        exact (tracks_start.parseLines (l :: ls)).cpus
  rw [parseCpuinfo, hcpus, List.length_map, length_given, if_pos hpossible]

end ServerCpuinfo

end RISCover
