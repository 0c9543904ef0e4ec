import RISCover.Config
import RISCover.Lib.Bytes
import RISCover.Lib.RunLength

/-!
# The archive of the undocumented encodings

`list_encoding_gaps` asks the disassembler about every 32-bit word and writes how many words in turn
it does not and does know. The client maps the file as an array of these numbers.
-/

open Bytes RunLength

namespace RISCover

/-- `end` of both programs: the number of words. -/
def WORDS : Nat := 2 ^ 32

/-- `byte_size`: the bytes of a number in the archive. -/
def Arch.byteSize : Arch → Nat
  | .aarch64 => 4
  | .riscv64 => 1

/-! ## Writing

`currently_skip` is the kind of the open run. A change of the kind writes the length of the run that
it ends. -/

/-- The variables of `list_encoding_gaps`; `fo` is what was written to the file. -/
structure Gaps where
  currentlySkip : Bool
  lastSplit : Nat
  rangesSum : Nat
  fo : Bytes

/-- `log_skip`; a number that does not fit is an `OverflowError` of `to_bytes`. -/
def Gaps.logSkip (byteSize : Nat) (s : Gaps) (skip : Nat) : Option Gaps :=
  if skip < 256 ^ byteSize then
    some { s with fo := s.fo ++ leBytes byteSize skip, rangesSum := s.rangesSum + skip }
  else none

/-- The body of `for i in range(end)`; `dis` says whether there is a disassembly. -/
def Gaps.visit (byteSize : Nat) (dis : Nat → Bool) (s : Gaps) (i : Nat) : Option Gaps :=
  if !dis i then
    if s.currentlySkip then some s
    else logSkip byteSize { s with currentlySkip := true, lastSplit := i } (i - s.lastSplit)
  else
    if !s.currentlySkip then some s
    else logSkip byteSize { s with currentlySkip := false, lastSplit := i } (i - s.lastSplit)

/-- `list_encoding_gaps`; an assertion that fails or an exception is `none`. -/
def listEncodingGaps (arch : Arch) (disassemble : Nat → Bool) : Option Bytes := do
  guard (arch = .aarch64 → disassemble 0 = false)
  -- on riscv64 the word 0 counts as undocumented
  let dis := fun i => disassemble i && !(arch == .riscv64 && i == 0)
  let s ← (List.range WORDS).foldlM (Gaps.visit arch.byteSize dis) ⟨true, 0, 0, []⟩
  let s ← if s.currentlySkip then s.logSkip arch.byteSize (WORDS - s.lastSplit) else some s
  guard (s.rangesSum = WORDS)
  guard s.currentlySkip
  pure s.fo

/-- `ranges` and `ranges_n` of the client: the archive as an array of numbers. -/
def loadRanges (byteSize : Nat) (buf : Bytes) : List Nat :=
  (List.range (buf.length / byteSize)).map fun index =>
    ofLeBytes (slice buf (index * byteSize) byteSize)

/-! ## What is written

The runs are written alternately, from one of unknown words on, which may be empty. So their lengths
tell the words. -/

/-- A loop over a range, from what one round keeps. -/
theorem foldlM_range_keeps {β : Type} {f : β → Nat → Option β} {q : Nat → β → Prop} {n : Nat}
    (hf : ∀ i < n, ∀ b, q i b → ∃ b', f b i = some b' ∧ q (i + 1) b') {b : β} (hb : q 0 b) :
    ∃ b', (List.range n).foldlM f b = some b' ∧ q n b' := by
  induction n with
  | zero => exact ⟨b, rfl, hb⟩
  | succ n ih =>
      obtain ⟨b₁, hfold, hq⟩ := ih fun i hi => hf i (Nat.lt_succ_of_lt hi)
      obtain ⟨b₂, hstep, hq'⟩ := hf n (Nat.lt_succ_self n) b₁ hq
      refine ⟨b₂, ?_, hq'⟩
      rw [List.range_succ, List.foldlM_append, hfold]
      simpa using hstep

variable {byteSize : Nat} {p : Nat → Bool}

/-- After `i` words: the runs up to `lastSplit` are written, and the one since then goes on. -/
structure Gaps.Written (byteSize : Nat) (p : Nat → Bool) (i : Nat) (s : Gaps) : Prop where
  lastSplit_le : s.lastSplit ≤ i
  lastSplit_lt : 0 < i → s.lastSplit < i
  constant : ∀ w, s.lastSplit ≤ w → w < i → p w = s.currentlySkip
  runs : ∃ runs, s.fo = runs.flatMap (leBytes byteSize) ∧ (∀ run ∈ runs, run < 256 ^ byteSize) ∧
    runs.sum = s.lastSplit ∧ Alternates p runs true 0 ∧ flagAfter runs true = s.currentlySkip
  rangesSum : s.rangesSum = s.lastSplit

/-- The current run is closed at `i`. -/
theorem Gaps.Written.logSkip {i : Nat} {s : Gaps} (h : s.Written byteSize p i)
    (hfits : i - s.lastSplit < 256 ^ byteSize) :
    ∃ fo, Gaps.logSkip byteSize { s with currentlySkip := !s.currentlySkip, lastSplit := i }
        (i - s.lastSplit) = some ⟨!s.currentlySkip, i, i, fo⟩ ∧
      ∃ runs, fo = runs.flatMap (leBytes byteSize) ∧ (∀ run ∈ runs, run < 256 ^ byteSize) ∧
        runs.sum = i ∧ Alternates p runs true 0 ∧ flagAfter runs true = !s.currentlySkip := by
  obtain ⟨runs, hfo, hlt, hsum, halt, hflag⟩ := h.runs
  have hle := h.lastSplit_le
  -- the open run is closed behind the ones that were written
  refine ⟨s.fo ++ leBytes byteSize (i - s.lastSplit), ?_, runs ++ [i - s.lastSplit], ?_, ?_, ?_, ?_,
    ?_⟩
  · rw [Gaps.logSkip, if_pos hfits, h.rangesSum]
    congr 2
    omega
  · simp [hfo]
  · intro run hrun
    rcases List.mem_append.mp hrun with hrun | hrun
    · exact hlt run hrun
    · exact List.mem_singleton.mp hrun ▸ hfits
  · rw [List.sum_append, List.sum_singleton, hsum]
    omega
  · refine halt.concat fun w h₁ h₂ => ?_
    rw [hflag]
    exact h.constant w (by omega) (by omega)
  · rw [flagAfter_concat, hflag]

theorem Gaps.Written.visit {dis : Nat → Bool} {i : Nat} {s : Gaps}
    (h : s.Written byteSize (fun w => !dis w) i) (hfits : i - s.lastSplit < 256 ^ byteSize) :
    ∃ s', Gaps.visit byteSize dis s i = some s' ∧
      s'.Written byteSize (fun w => !dis w) (i + 1) := by
  by_cases hsame : (!dis i) = s.currentlySkip
  · -- the run goes on
    refine ⟨s, ?_, ⟨h.lastSplit_le.trans (Nat.le_succ i), fun _ => Nat.lt_succ_of_le h.lastSplit_le,
      fun w h₁ h₂ => ?_, h.runs, h.rangesSum⟩⟩
    · unfold Gaps.visit
      cases hdis : dis i with
      | false => simp [hdis, ← hsame]
      | true => simp [hdis, ← hsame]
    · rcases Nat.lt_succ_iff_lt_or_eq.mp h₂ with hlt | rfl
      · exact h.constant w h₁ hlt
      · exact hsame
  · obtain ⟨fo, hlog, hruns⟩ := h.logSkip hfits
    -- another kind of word: a run ends here and the other kind begins
    have hswitch : (!dis i) = !s.currentlySkip := by
      cases hdis : dis i <;> cases hskip : s.currentlySkip <;> simp_all
    refine ⟨⟨!s.currentlySkip, i, i, fo⟩, ?_,
      ⟨Nat.le_succ i, fun _ => Nat.lt_succ_self i, fun w h₁ h₂ => ?_, hruns, rfl⟩⟩
    · rw [← hlog]
      unfold Gaps.visit
      cases hdis : dis i with
      | false =>
          have hskip : s.currentlySkip = false := by simpa [hdis] using hswitch.symm
          simp [hskip]
      | true =>
          have hskip : s.currentlySkip = true := by simpa [hdis] using hswitch.symm
          simp [hskip]
    · have hw : w = i := by
        change i ≤ w at h₁
        omega
      rw [hw]
      exact hswitch

/-- Every run of documented or of undocumented words fits a number of the archive. -/
def RunsFit (byteSize : Nat) (documented : Nat → Bool) : Prop :=
  ∀ a b, b ≤ WORDS → (∀ w, a ≤ w → w < b → documented w = documented a) → b - a < 256 ^ byteSize

/-- The archive is the list of the runs of undocumented and documented words. -/
theorem listEncodingGaps_eq {arch : Arch} {documented : Nat → Bool} (hfirst : documented 0 = false)
    (hlast : documented (WORDS - 1) = false) (hfit : RunsFit arch.byteSize documented) :
    ∃ runs, listEncodingGaps arch documented = some (runs.flatMap (leBytes arch.byteSize)) ∧
      (∀ run ∈ runs, run < 256 ^ arch.byteSize) ∧ runs.sum = WORDS ∧
      Alternates (fun w => !documented w) runs true 0 := by
  have hdis : (fun i => documented i && !(arch == .riscv64 && i == 0)) = documented := by
    funext i
    by_cases hi : i = 0
    · rw [hi, hfirst, Bool.false_and]
    · simp [hi]
  have hfits : ∀ (i : Nat) (s : Gaps), i ≤ WORDS →
      s.Written arch.byteSize (fun w => !documented w) i →
      i - s.lastSplit < 256 ^ arch.byteSize := by
    intro i s hi h
    rcases Nat.eq_zero_or_pos (i - s.lastSplit) with hzero | hpos
    · rw [hzero]
      exact Nat.pow_pos (by decide)
    · refine hfit s.lastSplit i hi fun w h₁ h₂ => ?_
      have hw := h.constant w h₁ h₂
      have hsplit := h.constant s.lastSplit (Nat.le_refl _) (by omega)
      exact Bool.not_inj (hw.trans hsplit.symm)
  have hstart : Gaps.Written arch.byteSize (fun w => !documented w) 0 ⟨true, 0, 0, []⟩ :=
    ⟨Nat.le_refl 0, fun h => absurd h (Nat.lt_irrefl 0), fun w _ h => absurd h (Nat.not_lt_zero w),
      ⟨[], rfl, fun _ h => absurd h List.not_mem_nil, rfl, trivial, rfl⟩, rfl⟩
  obtain ⟨s, hfold, hs⟩ := foldlM_range_keeps (f := Gaps.visit arch.byteSize documented)
    (q := fun i s => s.Written arch.byteSize (fun w => !documented w) i) (n := WORDS)
    (fun i hi s h => h.visit (hfits i s hi.le h)) hstart
  have hpos : 0 < WORDS := by decide
  -- the last word is undocumented, so the loop ends within a run that is skipped
  have hskip : s.currentlySkip = true := by
    have hlt := hs.lastSplit_lt hpos
    rw [← hs.constant (WORDS - 1) (by omega) (by omega), hlast]
    rfl
  obtain ⟨fo, hlog, runs, hfo, hlt, hsum, halt, -⟩ := hs.logSkip (hfits WORDS s (Nat.le_refl _) hs)
  refine ⟨runs, ?_, hlt, hsum, halt⟩
  have hclose : s.logSkip arch.byteSize (WORDS - s.lastSplit) =
      some ⟨true, s.lastSplit, WORDS, fo⟩ := by
    rw [Gaps.logSkip] at hlog ⊢
    split at hlog
    next hfit' =>
      rw [if_pos hfit', hskip]
      simp only [Option.some.injEq, Gaps.mk.injEq] at hlog ⊢
      exact ⟨trivial, trivial, hlog.2.2.1, hlog.2.2.2⟩
    next => cases hlog
  unfold listEncodingGaps
  simp only [hdis, hfold, hfirst, Option.bind_eq_bind, Option.bind_some, hskip, if_true, hclose,
    guard, implies_true, hfo, Option.pure_def]

/-- The client reads the numbers that were written. -/
theorem loadRanges_flatMap {byteSize : Nat} (hpos : 0 < byteSize) {runs : List Nat}
    (h : ∀ run ∈ runs, run < 256 ^ byteSize) :
    loadRanges byteSize (runs.flatMap (leBytes byteSize)) = runs := by
  have hlen : (runs.flatMap (leBytes byteSize)).length = runs.length * byteSize := by
    simp [List.length_flatMap, Nat.mul_comm]
  rw [loadRanges, hlen, Nat.mul_div_cancel _ hpos]
  apply List.ext_getElem
  · simp
  · intro i h₁ h₂
    have hslice := slice_flatMap (fun run => length_leBytes byteSize run) runs [] i h₂
    rw [List.append_nil] at hslice
    rw [List.getElem_map, List.getElem_range, hslice]
    exact ofLeBytes_leBytes_of_lt (h _ (List.getElem_mem h₂))

end RISCover
