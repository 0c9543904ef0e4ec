import RISCover.Repro.Load

/-!
# Does loading come to an end?

Every pass of every loop consumes a line or leaves its loop, with one exception: at a `flags:` line
with an empty list the loop over the text keeps the line in hand. The check behind that branch stops
every build that defines one of the flags; a build without flags comes back to the same line for
ever. `terminates_iff` says that this is the only way to hang.
-/

open Text Machine

namespace RISCover

variable {b : Build} {heap : Nat → Bytes}

/-! ## Progress

A pass consumes a line or leaves its loop for one further out. Both make the fuel smaller: first the
lines count, then the depth. -/

/-- How deep a loop is nested. -/
def Loc.depth : Loc → Nat
  | .midrs => 0
  | .top => 1
  | .instrSeq | .regs | .mappings | .flags => 2
  | .gp _ | .vec _ | .fp _ => 3

theorem Loc.depth_le (loc : Loc) : loc.depth ≤ 3 := by
  cases loc <;> simp [Loc.depth]

/-- The pass takes at least one line. -/
def Load.Consumes {c : RegConfig} (s s' : Load c) : Prop := s'.lines.length < s.lines.length

/-- The pass leaves the loop that the parser is in for one further out, or for the second loop over
the text. -/
def Load.Leaves {c : RegConfig} (s s' : Load c) : Prop := s'.loc.depth < s.loc.depth

/-- The lines that are still to be gone through, in both loops over the text. -/
def Load.todo {c : RegConfig} (s : Load c) : Nat :=
  s.lines.length + (s.contentCopy.getD []).length

/-- What a pass does that gets on: fewer lines are left, or as many in a loop further out. -/
def Load.Progresses {c : RegConfig} (s s' : Load c) : Prop :=
  (s.Consumes s' ∧ s'.todo < s.todo) ∨ (s.Leaves s' ∧ s'.todo = s.todo)

/-- Goes down in every pass that gets on. -/
def Load.fuel {c : RegConfig} (s : Load c) : Nat := 4 * s.todo + s.loc.depth

theorem Load.Progresses.fuel_lt {c : RegConfig} {s s' : Load c} (h : s.Progresses s') :
    s'.fuel < s.fuel := by
  have hdepth := s'.loc.depth_le
  rcases h with ⟨-, htodo⟩ | ⟨hleaves, htodo⟩
  · simp only [Load.fuel]
    omega
  · simp only [Load.Leaves] at hleaves
    simp only [Load.fuel]
    omega

section Moves

variable {c : RegConfig} {s s' : Load c} {line : Text} {rest : List Text}

@[simp] theorem Load.lines_store (k : RegClass) (i v : Nat) : (s.store k i v).lines = s.lines := by
  unfold Load.store
  split <;> rfl

@[simp] theorem Load.contentCopy_store (k : RegClass) (i v : Nat) :
    (s.store k i v).contentCopy = s.contentCopy := by
  unfold Load.store
  split <;> rfl

theorem Load.Progresses.of_lines (hlines : s.lines = line :: rest)
    (hlt : s'.lines.length ≤ rest.length) (hcopy : s'.contentCopy = s.contentCopy) :
    s.Progresses s' := by
  have hlen : s.lines.length = rest.length + 1 := by rw [hlines, List.length_cons]
  left
  constructor
  · simp only [Load.Consumes]
    omega
  · simp only [Load.todo, hcopy]
    omega

theorem Load.progresses_advance (loc : Loc) (hlines : s.lines = line :: rest) :
    s.Progresses (s.advance loc) := by
  apply Load.Progresses.of_lines hlines
  · simp [Load.advance, hlines]
  · rfl

theorem Load.progresses_leave {loc : Loc} (h : loc.depth < s.loc.depth) :
    s.Progresses (s.leave loc) :=
  Or.inr ⟨h, rfl⟩

end Moves

/-! ## One pass of each loop

The only pass without progress is that of the loop over the text at an empty list of flags. -/

section Passes

variable {s s' : Load b.toRegConfig}

theorem instrSeqPass_progresses (hloc : s.loc = .instrSeq) (h : instrSeqPass b s = .next s') :
    s.Progresses s' := by
  have hleave : s.Progresses (s.leave .top) := Load.progresses_leave (by rw [hloc]; decide)
  unfold instrSeqPass at h
  split at h
  next => cases h; exact hleave
  next line rest hlines =>
    dsimp only at h
    split at h
    next => cases h; exact hleave
    next =>
      split at h
      next => cases h
      next =>
        split at h
        next => cases h
        next =>
          cases h
          apply Load.Progresses.of_lines hlines
          · simp [Load.advance, hlines]
          · rfl

theorem regsPass_progresses (hloc : s.loc = .regs) (h : regsPass b s = .next s') :
    s.Progresses s' := by
  have hleave : s.Progresses (s.leave .top) := Load.progresses_leave (by rw [hloc]; decide)
  unfold regsPass at h
  split at h
  next => cases h; exact hleave
  next line rest hlines =>
    dsimp only at h
    split_ifs at h
    · cases h; exact Load.progresses_advance _ hlines
    · cases h; exact Load.progresses_advance _ hlines
    · cases h; exact Load.progresses_advance _ hlines
    · cases h; exact hleave

theorem progresses_store (k : RegClass) (i v : Nat) (loc : Loc) {line : Text} {rest : List Text}
    (hlines : s.lines = line :: rest) : s.Progresses ((s.store k i v).advance loc) := by
  apply Load.Progresses.of_lines hlines
  · simp [Load.advance, hlines]
  · simp [Load.advance]

theorem gpPass_progresses {i : Nat} (hloc : s.loc = .gp i) (h : gpPass b i s = .next s') :
    s.Progresses s' := by
  have hleave : s.Progresses (s.leave .regs) :=
    Load.progresses_leave (by simp [hloc, Loc.depth])
  unfold gpPass at h
  split at h
  next => cases h; exact hleave
  next line rest hlines =>
    dsimp only at h
    split_ifs at h
    · cases h; exact Load.progresses_advance _ hlines
    · cases h; exact hleave
    · split at h
      · cases h; exact progresses_store .gp _ _ _ hlines
      · cases h; exact Load.progresses_advance _ hlines

theorem vecPass_progresses {i : Nat} (hloc : s.loc = .vec i) (h : vecPass b i s = .next s') :
    s.Progresses s' := by
  have hleave : s.Progresses (s.leave .regs) :=
    Load.progresses_leave (by simp [hloc, Loc.depth])
  unfold vecPass at h
  split at h
  next => cases h; exact hleave
  next line rest hlines =>
    dsimp only at h
    split_ifs at h
    · cases h; exact Load.progresses_advance _ hlines
    · cases h; exact hleave
    · cases h; exact progresses_store .vec _ _ _ hlines

theorem fpPass_progresses {i : Nat} (hloc : s.loc = .fp i) (h : fpPass b i s = .next s') :
    s.Progresses s' := by
  have hleave : s.Progresses (s.leave .regs) :=
    Load.progresses_leave (by simp [hloc, Loc.depth])
  unfold fpPass at h
  split at h
  next => cases h; exact hleave
  next line rest hlines =>
    dsimp only at h
    split_ifs at h
    · cases h; exact Load.progresses_advance _ hlines
    · cases h; exact hleave
    · split at h
      · cases h; exact progresses_store .fp _ _ _ hlines
      · cases h; exact Load.progresses_advance _ hlines

/-- A mapping takes four lines. -/
theorem mappingsPass_progresses (hloc : s.loc = .mappings)
    (h : mappingsPass b heap s = .next s') : s.Progresses s' := by
  have hleave : s.Progresses (s.leave .top) := Load.progresses_leave (by rw [hloc]; decide)
  unfold mappingsPass at h
  split at h
  next => cases h; exact hleave
  next line rest hlines =>
    dsimp only at h
    split at h
    next => cases h; exact hleave
    next =>
      split at h
      next => cases h
      next => cases h
      next =>
        split at h
        next => cases h
        next => cases h
        next =>
          split at h
          next => cases h
          next => cases h
          next =>
            split at h
            next => cases h
            next =>
              cases h
              -- all four lines of the mapping are consumed
              apply Load.Progresses.of_lines hlines
              · simp only [List.length_cons]
                omega
              · rfl

/-- What the check behind the flags lets through leads back to the loop over the text. -/
theorem checkFlags_eq_next (h : checkFlags b s = .next s') : s' = s.leave .top := by
  unfold checkFlags at h
  split at h
  next => cases h
  next => cases h; rfl

theorem flagsPass_progresses (hloc : s.loc = .flags) (h : flagsPass b s = .next s') :
    s.Progresses s' := by
  have hleave : s.Progresses (s.leave .top) := Load.progresses_leave (by rw [hloc]; decide)
  unfold flagsPass at h
  split at h
  next => rw [checkFlags_eq_next h]; exact hleave
  next line rest hlines =>
    dsimp only at h
    split at h
    next => rw [checkFlags_eq_next h]; exact hleave
    next =>
      split at h
      next => cases h
      next =>
        split at h
        next => cases h
        next =>
          cases h
          apply Load.Progresses.of_lines hlines
          · simp [Load.advance, hlines]
          · rfl

theorem midrsPass_progresses (h : midrsPass b s = .next s') : s.Progresses s' := by
  unfold midrsPass at h
  split at h
  next => cases h
  next line rest hlines =>
    cases h
    apply Load.Progresses.of_lines hlines
    · simp [Load.advance, hlines]
    · rfl

/-- The loop over the text has a `flags:` line with an empty list in hand. -/
def HoldsEmptyFlags (s : Load b.toRegConfig) : Prop :=
  s.loc = .top ∧
    ∃ line rest, s.lines = line :: rest ∧ topLevelFlags line ∧ (strstr line "[]").isSome

/-- The check stops an empty list of flags in a build that defines one. -/
theorem checkFlags_empty (hflags : b.expectedMask ≠ ∅) (s : Load b.toRegConfig) :
    checkFlags b { s with parsedMask := some ∅ } =
      .stop (.exited (.flagsMismatch b.expectedMask ∅)) := by
  have hne : (∅ : Mask) ≠ b.expectedMask := hflags.symm
  simp [checkFlags, hne]

theorem topPass_progresses (hloc : s.loc = .top)
    (hok : b.expectedMask ≠ ∅ ∨ ¬HoldsEmptyFlags s) (h : topPass b s = .next s') :
    s.Progresses s' := by
  unfold topPass at h
  split at h
  next hlines =>
    split at h
    next copy hcopy =>
      cases h
      exact Or.inr ⟨by simp [Load.Leaves, hloc, Loc.depth], by simp [Load.todo, hlines, hcopy]⟩
    next => cases h
  next line rest hlines =>
    dsimp only at h
    -- in the order of the `if`s: what opens a section, the flags, and every other line
    split_ifs at h with _ _ _ _ _ hflags hempty
    · cases h; exact Load.progresses_advance _ hlines
    · cases h; exact Load.progresses_advance _ hlines
    · cases h; exact Load.progresses_advance _ hlines
    · cases h; exact Load.progresses_advance _ hlines
    · cases h; exact Load.progresses_advance _ hlines
    · cases h
      apply Load.Progresses.of_lines hlines
      · simp [Load.advance, hlines]
      · rfl
    · -- the list of flags is empty: the check stops a build with flags
      rcases hok with hmask | hholds
      · rw [checkFlags_empty hmask] at h
        cases h
      · have hstrip : lstrip line = line := (of_decide_eq_true hflags).1
        rw [hstrip] at hempty
        exact absurd ⟨hloc, line, rest, hlines, hflags, by
          rwa [Bool.not_eq_true, Option.isNone_eq_false_iff] at hempty⟩ hholds
    · cases h; exact Load.progresses_advance _ hlines

/-- The one pass that may not get on is the one with an empty list of flags in hand. -/
theorem loadStep_progresses (hok : b.expectedMask ≠ ∅ ∨ ¬HoldsEmptyFlags s)
    (h : loadStep b heap s = .next s') : s.Progresses s' := by
  unfold loadStep at h
  split at h
  next hloc => exact topPass_progresses hloc hok h
  next hloc => exact instrSeqPass_progresses hloc h
  next hloc => exact regsPass_progresses hloc h
  next hloc => exact gpPass_progresses hloc h
  next hloc => exact vecPass_progresses hloc h
  next hloc => exact fpPass_progresses hloc h
  next hloc => exact mappingsPass_progresses hloc h
  next hloc => exact flagsPass_progresses hloc h
  next => exact midrsPass_progresses h

/-- Without flags the check lets an empty list through, with the line still in hand. -/
theorem loadStep_emptyFlags (hflags : b.expectedMask = ∅) (hholds : HoldsEmptyFlags s) :
    loadStep b heap s = .next { s with parsedMask := some ∅ } := by
  obtain ⟨hloc, line, rest, hlines, htop, hempty⟩ := hholds
  obtain ⟨hstrip, hhead⟩ := of_decide_eq_true htop
  have hcheck : checkFlags b { s with parsedMask := some ∅ } =
      .next { s with parsedMask := some ∅ } := by
    simp [checkFlags, hflags, Load.leave, hloc]
  have hfront : ¬(line = [] ∨ line.head? = some '#') := by
    rintro (rfl | hhash)
    · cases hhead
    · cases line with
      | nil => cases hhash
      | cons c line =>
          cases hhash
          cases hhead
  obtain ⟨more, rfl⟩ : ∃ more, line = "flags:".toList ++ more :=
    (List.isPrefixOf_iff_prefix.mp hhead).imp fun _ h => h.symm
  -- the line opens no other section
  have hother : ∀ other : String, apart "flags:".toList other.toList = true →
      startsWith ("flags:".toList ++ more) other = false := fun other h =>
    startsWith_append_eq_false h more
  have hsome : ¬(strstr ("flags:".toList ++ more) "[]").isNone = true := by
    rwa [Bool.not_eq_true, Option.isNone_eq_false_iff]
  simp only [loadStep, hloc, topPass, hlines, hstrip, hother "input:" rfl, hother "results:" rfl,
    hother "instr_seq:" rfl, hother "regs:" rfl, hother "mappings:" rfl, if_neg hfront, htop,
    if_neg hsome, Bool.false_eq_true, or_self, if_false, if_true]
  rw [← hlines, ← hloc]
  exact hcheck

/-- Such a line is never got rid of. -/
theorem not_stops_of_holds (hflags : b.expectedMask = ∅) (hholds : HoldsEmptyFlags s)
    (e : LoadEnd b.toRegConfig) : ¬Stops (loadStep b heap) s e := by
  have hstuck : HoldsEmptyFlags { s with parsedMask := some ∅ } := hholds
  have hloop : loadStep b heap { s with parsedMask := some ∅ } =
      .next { s with parsedMask := some ∅ } := loadStep_emptyFlags hflags hstuck
  have hfirst : loadStep b heap s = _ := loadStep_emptyFlags hflags hholds
  exact fun hend => not_stops_of_loop hloop e ((stops_next hfirst).mp hend)

end Passes

/-! ## Whole runs

A run that comes to such a line on a build without flags goes round for ever. Every other run ends.
-/

/-- `load_repro` returns or stops with an error, and each pass on the way consumes a line or leaves
its loop. -/
structure Terminates (b : Build) (heap : Nat → Bytes) (regs : Regs b.toRegConfig)
    (wantsMidrs : Bool) (content : Text) : Prop where
  ends : ∃ e, LoadRepro b heap regs wantsMidrs content e
  passes : ∀ s, Steps (loadStep b heap) (Load.init regs wantsMidrs content) s →
    ∀ s', loadStep b heap s = .next s' → s.Consumes s' ∨ s.Leaves s'

section Ends

variable {b : Build} {heap : Nat → Bytes} {regs : Regs b.toRegConfig} {wantsMidrs : Bool}
  {content : Text}

theorem Terminates.never_holds (h : Terminates b heap regs wantsMidrs content)
    (hflags : b.expectedMask = ∅) :
    ∀ s, Steps (loadStep b heap) (Load.init regs wantsMidrs content) s → ¬HoldsEmptyFlags s := by
  intro s hsteps hholds
  obtain ⟨e, hend⟩ := h.ends
  exact not_stops_of_holds hflags hholds e ((Steps.stops_iff hsteps e).mp hend)

theorem terminates_of_never_holds
    (hok : b.expectedMask ≠ ∅ ∨
      ∀ s, Steps (loadStep b heap) (Load.init regs wantsMidrs content) s → ¬HoldsEmptyFlags s) :
    Terminates b heap regs wantsMidrs content := by
  have hprogress : ∀ s, Steps (loadStep b heap) (Load.init regs wantsMidrs content) s →
      ∀ s', loadStep b heap s = .next s' → s.Progresses s' := fun s hs s' h =>
    loadStep_progresses (hok.imp_right fun hnever => hnever s hs) h
  refine ⟨exists_stops fun s hs s' h => (hprogress s hs s' h).fuel_lt, fun s hs s' h => ?_⟩
  exact (hprogress s hs s' h).imp And.left And.left

end Ends

/-- Loading comes to an end in every build that defines a flag; in a build without flags it does so
exactly if the loop over the text never has a `flags:` line with an empty list in hand. -/
theorem terminates_iff (b : Build) (heap : Nat → Bytes) (regs : Regs b.toRegConfig)
    (wantsMidrs : Bool) (content : Text) :
    Terminates b heap regs wantsMidrs content ↔
      (b.expectedMask ≠ ∅ ∨
        ∀ s, Steps (loadStep b heap) (Load.init regs wantsMidrs content) s →
          ¬HoldsEmptyFlags s) := by
  refine ⟨fun h => ?_, terminates_of_never_holds⟩
  by_cases hflags : b.expectedMask = ∅
  · exact Or.inr (h.never_holds hflags)
  · exact Or.inl hflags

/-- A build without any of the flags. -/
def Build.plain : Build where
  arch := .riscv64
  FLOATS := false
  VECTOR := false
  admitted := rfl
  META := false
  CHECK_MEM := false
  AUTO_MAP_MEM := false
  AUTO_MAP_MEM_RW_PROT := false
  MAX_SEQ_LEN := 1

/-- The line that such a build itself writes for its flags keeps it busy for ever. -/
theorem plain_not_terminates :
    ¬Terminates Build.plain (fun _ => []) (Regs.fill _ 0) false "flags: []\n".toList := by
  intro h
  refine h.never_holds rfl _ (Steps.refl _) ⟨rfl, "flags: []".toList, [], rfl, ?_, ?_⟩
  · decide
  · decide

/-- Loading comes to an end on every text in exactly the builds that define a flag. -/
theorem terminates_all_iff (b : Build) (heap : Nat → Bytes) (regs : Regs b.toRegConfig)
    (wantsMidrs : Bool) :
    (∀ content, Terminates b heap regs wantsMidrs content) ↔ b.expectedMask ≠ ∅ := by
  constructor
  · intro h hflags
    have hnever := (h "flags: []\n".toList).never_holds hflags
    exact hnever _ (Steps.refl _) ⟨rfl, "flags: []".toList, [], rfl, by decide, by decide⟩
  · exact fun hflags content => terminates_of_never_holds (Or.inl hflags)

end RISCover
