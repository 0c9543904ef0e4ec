import RISCover.Result.Basic
import RISCover.Lib.Cursor

/-!
# The server parses results

`parse_one_result`, `parse_one_result_full_seq` and `parse_results` of the server, over the bodies
of the frames with their lengths already stripped.
-/

open Bytes

namespace RISCover

/-- How parsing ends when the bytes are not what a client sends. -/
inductive ParseError where
  /-- `struct.error`. -/
  | structError
  /-- `regs_mapping[reg_index]` is out of range. -/
  | indexError
  /-- "parsing Result failed". -/
  | noResult
  /-- `assert(aread <= len(data))`. -/
  | assertionError
  /-- The model's loop bound, which is never reached. -/
  | outOfFuel
  deriving DecidableEq

abbrev Parser := Cursor ParseError

/-- `struct.unpack` of a `k`-byte field. -/
def unpack (k : Nat) : Parser Nat := Cursor.unpack .structError k

def failWith {α : Type} (e : ParseError) : Parser α := fun _ _ => .error e

variable {κ : Type}

/-! ## One result

Which parts a result has depends on the build and on the signal. The errors are the assertions and
exceptions of the parser. -/

/-- The `META` section: `cycle_diff` and `instret_diff`. -/
def parseMeta (c : Config) : Parser (Option Nat × Option Nat) :=
  if c.META then do
    let cycleDiff ← unpack 2
    match c.arch with
    | .riscv64 => do
        let instretDiff ← unpack 2
        pure (some cycleDiff, some instretDiff)
    | .aarch64 => pure (some cycleDiff, none)
  else pure (none, none)

/-- The value of a register; its width follows from the name. -/
def parseRegValue (reg : String) : Parser Nat :=
  if startsWithV reg then Cursor.fromBytes VEC_REG_SIZE else unpack 8

/-- One round of the register loop. -/
def parseReg (c : Config) (regs : Dict String Nat) : Parser (Dict String Nat) := do
  let regIndex ← unpack 1
  match c.regsMapping[regIndex]? with
  | some reg => do
      let regValue ← parseRegValue reg
      pure (regs.set reg regValue)
  | none => failWith .indexError

/-- `si_addr`, `si_pc` and `si_code`, zero without a signal. -/
def parseSi (signum : Nat) : Parser (Nat × Nat × Nat) :=
  if signum ≠ 0 then do
    let siAddr ← unpack 8
    let siPc ← unpack 8
    let siCode ← unpack 4
    pure (siAddr, siPc, siCode)
  else pure (0, 0, 0)

/-- One round of the memory loop. -/
def parseMemDiff : Parser MemDiff := do
  let start ← unpack 8
  let n ← unpack 4
  let val ← Cursor.fromBytes (if n < CHECK_MEM_CUT_AT then n else CHECK_MEM_CUT_AT)
  let checksum ← unpack 4
  pure ⟨start, n, val, checksum⟩

/-- The `CHECK_MEM` section. -/
def parseMemDiffs (c : Config) : Parser (Option (List MemDiff)) :=
  if c.CHECK_MEM then do
    let n ← unpack 1
    let memDiffs ← Cursor.foldN
      (fun acc => parseMemDiff >>= fun d => pure (acc ++ [d])) n []
    pure (some memDiffs)
  else pure none

/-- The `try` block of `parse_one_result`. -/
def parseResultBody (c : Config) (client : κ) : Parser (Result κ) := do
  let signum ← unpack 1
  let (cycleDiff, instretDiff) ← parseMeta c
  let regsDiff ← unpack 1
  let regs ← Cursor.foldN (parseReg c) regsDiff Dict.empty
  let (siAddr, siPc, siCode) ← parseSi signum
  let memDiffs ← parseMemDiffs c
  pure {
    signum, cycleDiff, instretDiff, regs, siAddr, siPc, siCode, memDiffs
    client, realClient := client }

/-- `parse_one_result`: `None` when there is no byte at all. -/
def parseOneResult (c : Config) (client : κ) : Parser (Option (Result κ)) := fun data r =>
  -- `if not signum_data: return None, 0`, the only end of the data that is not an error
  if slice data r 1 = [] then .ok (none, r)
  else (parseResultBody c client >>= fun result => pure (some result)) data r

/-! ## Several results

The outer loop takes frames off the data until it is at their end. -/

/-- An element of the list `parse_results` returns: a `Result`, or a `MultiResult`, whose list may
contain `None` when the data ends between two results. -/
inductive Parsed (κ : Type) where
  | result (r : Result κ)
  | multiResult (results : List (Option (Result κ)))

/-- `parse_one_result_full_seq`. -/
def parseOneResultFullSeq (c : Config) (client : κ) :
    Parser (List (Option (Result κ))) := do
  let seqLen ← unpack 1
  Cursor.foldN (fun acc => Cursor.sub (parseOneResult c client) >>= fun r => pure (acc ++ [r]))
    seqLen []

/-- One round of the loop of `parse_results`. -/
def parseStep (c : Config) (client : κ) : Parser (Parsed κ) := do
  let fullSeq ← unpack 1
  if fullSeq = 1 then do
    let results ← Cursor.sub (parseOneResultFullSeq c client)
    pure (.multiResult results)
  else do
    let result ← Cursor.sub (parseOneResult c client)
    match result with
    | some r => pure (.result r)
    -- a `MultiResult` is never falsy, so only a single result is refused
    | none => failWith .noResult

/-- The loop of `parse_results`; every round reads at least the tag, so `fuel` rounds are enough
for fewer than `fuel` bytes. -/
def parseResultsLoop (c : Config) (client : κ) (data : Bytes) :
    (fuel aread : Nat) → List (Parsed κ) → Except ParseError (List (Parsed κ))
  | 0, _, _ => .error .outOfFuel
  | fuel + 1, aread, results =>
    match parseStep c client data aread with
    | .error e => .error e
    | .ok (result, aread) =>
      if data.length < aread then .error .assertionError
      else if aread = data.length then .ok (results ++ [result])
      else parseResultsLoop c client data fuel aread (results ++ [result])

/-- `parse_results`. -/
def parseResults (c : Config) (data : Bytes) (client : κ) : Except ParseError (List (Parsed κ)) :=
  parseResultsLoop c client data (data.length + 1) 0 []

/-! ## The loop bound is never reached

Every pass over the loop reads a tag at least, so it cannot be made more often than there are bytes.
-/

section Fuel

open Cursor

private theorem never_unpack (k : Nat) : Never .outOfFuel (unpack k) :=
  Never.unpack (by decide) k

private theorem never_failWith {α : Type} {e : ParseError} (h : e ≠ .outOfFuel) :
    Never .outOfFuel (failWith e : Parser α) := by
  intro data r
  simpa [failWith] using h

private theorem never_parseMeta (c : Config) : Never .outOfFuel (parseMeta c) := by
  unfold parseMeta
  split
  · refine (never_unpack 2).bind fun _ => ?_
    split
    · exact (never_unpack 2).bind fun _ => Never.pure _ _
    · exact Never.pure _ _
  · exact Never.pure _ _

private theorem never_parseReg (c : Config) (regs : Dict String Nat) :
    Never .outOfFuel (parseReg c regs) := by
  refine (never_unpack 1).bind fun regIndex => ?_
  cases c.regsMapping[regIndex]? with
  | none => exact never_failWith (by decide)
  | some reg =>
      refine Never.bind ?_ fun _ => Never.pure _ _
      unfold parseRegValue
      split
      · exact Never.fromBytes _ _
      · exact never_unpack 8

private theorem never_parseSi (signum : Nat) : Never .outOfFuel (parseSi signum) := by
  unfold parseSi
  split
  · exact (never_unpack 8).bind fun _ => (never_unpack 8).bind fun _ =>
      (never_unpack 4).bind fun _ => Never.pure _ _
  · exact Never.pure _ _

private theorem never_parseMemDiffs (c : Config) : Never .outOfFuel (parseMemDiffs c) := by
  have hdiff : Never .outOfFuel parseMemDiff :=
    (never_unpack 8).bind fun _ => (never_unpack 4).bind fun _ =>
      (Never.fromBytes _ _).bind fun _ => (never_unpack 4).bind fun _ => Never.pure _ _
  unfold parseMemDiffs
  split
  · exact (never_unpack 1).bind fun n =>
      (Never.foldN (fun _ => hdiff.bind fun _ => Never.pure _ _) n []).bind fun _ => Never.pure _ _
  · exact Never.pure _ _

private theorem never_parseOneResult (c : Config) (client : κ) :
    Never .outOfFuel (parseOneResult c client) := by
  have hbody : Never .outOfFuel (parseResultBody c client) :=
    (never_unpack 1).bind fun signum => (never_parseMeta c).bind fun _ =>
      (never_unpack 1).bind fun n => (Never.foldN (never_parseReg c) n Dict.empty).bind fun _ =>
        (never_parseSi signum).bind fun _ => (never_parseMemDiffs c).bind fun _ => Never.pure _ _
  intro data r
  unfold parseOneResult
  split
  · simp
  · exact (hbody.bind fun _ => Never.pure _ _) data r

private theorem never_parseStep (c : Config) (client : κ) :
    Never .outOfFuel (parseStep c client) := by
  have hone := never_parseOneResult c client
  refine (never_unpack 1).bind fun fullSeq => ?_
  split
  · refine Never.bind (Never.sub ?_) fun _ => Never.pure _ _
    exact (never_unpack 1).bind fun n =>
      Never.foldN (fun _ => hone.sub.bind fun _ => Never.pure _ _) n []
  · refine hone.sub.bind fun result => ?_
    cases result with
    | none => exact never_failWith (by decide)
    | some r => exact Never.pure _ _

/-- Every round of the loop reads at least the tag. -/
private theorem advances_parseStep (c : Config) (client : κ) :
    Advances 1 (parseStep c client) := by
  refine (Advances.unpack _ 1).bind (n := 0) fun fullSeq => ?_
  split
  · exact (Advances.sub _).bind fun _ => Advances.pure _
  · refine (Advances.sub _).bind (n := 0) fun result => ?_
    cases result with
    | none =>
        intro data r a r' h
        cases h
    | some r => exact Advances.pure _

/-- `parse_results` ends on every input: the loop bound of the model is never what stops it. -/
theorem parseResults_ne_outOfFuel (c : Config) (data : Bytes) (client : κ) :
    parseResults c data client ≠ .error .outOfFuel := by
  -- what is left of the data is less than the fuel, in every pass
  suffices hgen : ∀ fuel aread results, aread ≤ data.length → data.length < aread + fuel →
      parseResultsLoop c client data fuel aread results ≠ .error .outOfFuel from
    hgen (data.length + 1) 0 [] (Nat.zero_le _) (by omega)
  intro fuel
  induction fuel with
  | zero =>
      intro aread results h₁ h₂
      omega
  | succ fuel ih =>
      intro aread results h₁ h₂
      unfold parseResultsLoop
      cases hstep : parseStep c client data aread with
      | error e =>
          intro he
          have hee : e = .outOfFuel := by injection he
          exact never_parseStep c client data aread (hee ▸ hstep)
      | ok x =>
          obtain ⟨result, aread'⟩ := x
          have hadv := advances_parseStep c client data aread result aread' hstep
          by_cases hpast : data.length < aread'
          · simp [hpast]
          · by_cases hend : aread' = data.length
            · simp [hend]
            · simp only [hpast, hend, if_false]
              exact ih aread' (results ++ [result]) (by omega) (by omega)

end Fuel

end RISCover
