import Mathlib.Data.List.Dedup
import RISCover.Diff.FuzzServer
import RISCover.Lib.Draws

/-!
# The batches of the fuzzer

The batches are numbers that the workers draw off `counter` and give back when all differences of
the batch are logged. `DiffFuzz.sharesBatches_of_reaches` says what that means for the inputs:
whatever clients are lost, every input is taken by one worker, in one batch, and `executed_counter`
counts the completed ones.
-/

open Bytes Relation

namespace RISCover

namespace DiffFuzz

variable {ι κ α : Type} {u : DiffFuzz κ α}

/-! ## What one step does

`next` goes by the worker, and in most cases by what is decided on the way as well. `Moves` lists
what can come out, one constructor for each way through the loop. -/

/-- The inputs as an attempt sends them. -/
def sendFull (inputs : List (FuzzInput α)) : List (FuzzInput α) :=
  inputs.map fun inp => { inp with fullSeq := true }

/-- The inputs after an attempt failed. -/
def reset (u : DiffFuzz κ α) (inputs : List (FuzzInput α)) : List (FuzzInput α) :=
  inputs.map fun inp => { inp with fullSeq := false, seqLen := u.generator.seqLen }

section

variable [DecidableEq ι] [DecidableEq κ]

/-- The steps of worker `i`. -/
inductive Moves (u : DiffFuzz κ α) (s : State ι κ α) (i : ι) : State ι κ α → Prop where
  | claim (hw : s.workers i = .idle) :
      Moves u s i ({ s with
          counter := s.counter + UInt64.ofNat u.batchSize
          claimed := s.claimed ++ [s.counter.toNat] }.become i
        (.executing s.counter.toNat (u.generator.generate s.counter.toNat u.batchSize)))
  | quit {b : Nat} {inputs : List (FuzzInput α)} (hw : s.workers i = .executing b inputs)
      (hlt : (s.clients i).length < 2) : Moves u s i (s.become i (.quit b))
  | reject {b : Nat} {inputs : List (FuzzInput α)} (hw : s.workers i = .executing b inputs)
      (hlt : ¬(s.clients i).length < 2) (hsend : u.accepts (sendFull inputs) = false) :
      Moves u s i (s.become i (.raised b))
  | retry {b : Nat} {inputs : List (FuzzInput α)} {removeClient : Option κ}
      (hw : s.workers i = .executing b inputs) (hlt : ¬(s.clients i).length < 2)
      (hsend : u.accepts (sendFull inputs) = true)
      (hlost : ∀ client ∈ removeClient, client ∈ s.clients i) :
      Moves u s i ({ s with
          clients := Function.update s.clients i
            (removeClient.elim (s.clients i) (s.clients i).erase) }.become i
        (.executing b (u.reset inputs)))
  | analyse {b : Nat} {inputs : List (FuzzInput α)} {rest : List (LogEntry κ α)}
      {resultsPerClient : List (List (MultiResult κ))} (hw : s.workers i = .executing b inputs)
      (hlt : ¬(s.clients i).length < 2) (hsend : u.accepts (sendFull inputs) = true)
      (hres : u.Answered (inputs.map FuzzInput.getNumResults).sum (s.clients i) resultsPerClient)
      (hrest : u.entries b (u.expand b (sendFull inputs)) resultsPerClient = some rest) :
      Moves u s i ({ s with analysed := s.analysed ++ [(b, resultsPerClient)] }.become i
        (.logging b (u.expand b (sendFull inputs)).length rest))
  | unanalysable {b : Nat} {inputs : List (FuzzInput α)}
      {resultsPerClient : List (List (MultiResult κ))} (hw : s.workers i = .executing b inputs)
      (hlt : ¬(s.clients i).length < 2) (hsend : u.accepts (sendFull inputs) = true)
      (hres : u.Answered (inputs.map FuzzInput.getNumResults).sum (s.clients i) resultsPerClient)
      (hrest : u.entries b (u.expand b (sendFull inputs)) resultsPerClient = none) :
      Moves u s i (s.become i (.raised b))
  | draw {b n : Nat} {entry : LogEntry κ α} {rest : List (LogEntry κ α)}
      (hw : s.workers i = .logging b n (entry :: rest)) :
      Moves u s i ({ s with reproducerCounter := s.reproducerCounter + 1 }.become i
        (.writing b n (s.reproducerCounter.toNat + 1) entry rest))
  | undiffering {b n reproN : Nat} {entry : LogEntry κ α} {rest : List (LogEntry κ α)}
      (hw : s.workers i = .writing b n reproN entry rest)
      (hdiffs : ¬LogReproAsserts entry.split) : Moves u s i (s.become i (.raised b))
  | exit {b n reproN : Nat} {entry : LogEntry κ α} {rest : List (LogEntry κ α)}
      (hw : s.workers i = .writing b n reproN entry rest) (hdiffs : LogReproAsserts entry.split)
      (hmany : 300000 < reproN) :
      Moves u s i ({ s with reproducers := s.reproducers ++ [Reproducer.mk reproN entry] }.become i
        (.exited b reproN))
  | write {b n reproN : Nat} {entry : LogEntry κ α} {rest : List (LogEntry κ α)}
      (hw : s.workers i = .writing b n reproN entry rest) (hdiffs : LogReproAsserts entry.split)
      (hmany : ¬300000 < reproN) :
      Moves u s i ({ s with reproducers := s.reproducers ++ [Reproducer.mk reproN entry] }.become i
        (.logging b n rest))
  | complete {b n : Nat} (hw : s.workers i = .logging b n []) :
      Moves u s i ({ s with
          executedCounter := s.executedCounter + UInt64.ofNat n
          completed := s.completed ++ [b] }.become i .idle)

theorem moves_of_next {s s' : State ι κ α} {i : ι} {o : Outcome κ}
    (hpossible : u.Possible (s.clients i) (s.workers i).numResults o)
    (h : u.next i o s = some s') : Moves u s i s' := by
  -- what a worker does depends on where in the loop it is, and only an executing one asks the
  -- clients
  cases hw : s.workers i with
  | idle =>
      simp only [next, hw] at h
      cases h
      exact .claim hw
  | executing b inputs =>
      rw [hw] at hpossible
      simp only [next, hw] at h
      split at h
      next hlt =>
        cases h
        exact .quit hw hlt
      next hlt =>
        split at h
        next hsend =>
          cases h
          exact .reject hw hlt hsend
        next hsend =>
          have hsend : u.accepts (sendFull inputs) = true := (Bool.not_eq_false _).mp hsend
          -- `hpossible` is what is known of the clients' answer
          cases o with
          | lost removeClient =>
              cases h
              exact .retry hw hlt hsend hpossible
          | results resultsPerClient =>
              simp only at h
              cases hrest : u.entries b (u.expand b (sendFull inputs)) resultsPerClient with
              | none =>
                  rw [sendFull] at hrest
                  rw [hrest] at h
                  cases h
                  exact .unanalysable hw hlt hsend hpossible hrest
              | some rest =>
                  rw [sendFull] at hrest
                  rw [hrest] at h
                  cases h
                  exact .analyse hw hlt hsend hpossible hrest
  | logging b n rest =>
      simp only [next, hw] at h
      cases rest with
      | nil =>
          cases h
          exact .complete hw
      | cons entry rest =>
          cases h
          exact .draw hw
  | writing b n reproN entry rest =>
      simp only [next, hw] at h
      split at h
      next hdiffs =>
        cases h
        exact .undiffering hw fun hne => hne hdiffs
      next hdiffs =>
        split at h
        next hmany =>
          cases h
          exact .exit hw hdiffs hmany
        next hmany =>
          cases h
          exact .write hw hdiffs hmany
  | quit b =>
      simp only [next, hw] at h
      cases h
  | exited b reproN =>
      simp only [next, hw] at h
      cases h
  | raised b =>
      simp only [next, hw] at h
      cases h

theorem step_of_moves {s s' : State ι κ α} {i : ι} (h : Moves u s i s') : u.Step s s' := by
  -- an outcome that the clients can always have
  have hnone : u.Possible (s.clients i) (s.workers i).numResults (.lost none) := by
    rintro client ⟨⟩
  refine ⟨i, ?_⟩
  cases h with
  | claim hw => exact ⟨.lost none, hnone, by simp only [next, hw]⟩
  | quit hw hlt => exact ⟨.lost none, hnone, by simp only [next, hw, if_pos hlt]⟩
  | @reject b inputs hw hlt hsend =>
      rw [sendFull] at hsend
      exact ⟨.lost none, hnone, by simp only [next, hw, if_neg hlt, hsend, if_true]⟩
  | @retry b inputs removeClient hw hlt hsend hlost =>
      rw [sendFull] at hsend
      refine ⟨.lost removeClient, hlost, ?_⟩
      simp only [next, hw, if_neg hlt, hsend, Bool.true_eq_false, if_false]
      rfl
  | @analyse b inputs rest resultsPerClient hw hlt hsend hres hrest =>
      refine ⟨.results resultsPerClient, by rw [hw]; exact hres, ?_⟩
      rw [sendFull] at hrest hsend
      simp only [next, hw, if_neg hlt, hsend, Bool.true_eq_false, if_false, hrest]
      rfl
  | @unanalysable b inputs resultsPerClient hw hlt hsend hres hrest =>
      refine ⟨.results resultsPerClient, by rw [hw]; exact hres, ?_⟩
      rw [sendFull] at hrest hsend
      simp only [next, hw, if_neg hlt, hsend, Bool.true_eq_false, if_false, hrest]
  | draw hw => exact ⟨.lost none, hnone, by simp only [next, hw]⟩
  | undiffering hw hdiffs =>
      exact ⟨.lost none, hnone, by simp only [next, hw, if_pos (not_not.mp hdiffs)]⟩
  | exit hw hdiffs hmany =>
      refine ⟨.lost none, hnone, ?_⟩
      simp only [next, hw, if_pos hmany]
      exact if_neg hdiffs
  | write hw hdiffs hmany =>
      refine ⟨.lost none, hnone, ?_⟩
      simp only [next, hw, if_neg hmany]
      exact if_neg hdiffs
  | complete hw => exact ⟨.lost none, hnone, by simp only [next, hw]⟩

/-- The steps of the workers are these. -/
theorem step_iff {s s' : State ι κ α} : u.Step s s' ↔ ∃ i, Moves u s i s' :=
  ⟨fun ⟨i, _, hpossible, hnext⟩ => ⟨i, moves_of_next hpossible hnext⟩,
    fun ⟨_, h⟩ => step_of_moves h⟩

end

/-! ## Numbers of batches

`counter` is drawn from and given back to like a ticket (`Draws`). `Shares` says which draw a worker
holds, and is kept by every step. -/

/-- The batch that a worker took and has not completed. -/
def Worker.batch : Worker κ α → Option Nat
  | .idle => none
  | .executing b _ => some b
  | .logging b _ _ => some b
  | .writing b _ _ _ _ => some b
  | .quit b => some b
  | .exited b _ => some b
  | .raised b => some b

/-- Where the `n`-th batch starts. -/
def batchAt (u : DiffFuzz κ α) (n : Nat) : Nat := (u.startAt.toNat + n * u.batchSize) % 2 ^ 64

/-- The counters do not overflow. -/
def Fits (u : DiffFuzz κ α) (s : State ι κ α) : Prop :=
  u.startAt.toNat + s.claimed.length * u.batchSize ≤ 2 ^ 64

/-- What a worker's state says of its batch. -/
def Worker.Keeps (u : DiffFuzz κ α) (clients : List κ) : Worker κ α → Prop
  | .executing b inputs => inputs = u.generator.generate b u.batchSize
  | .logging _ n _ => n = u.batchSize
  | .writing _ n _ _ _ => n = u.batchSize
  | .quit _ => clients.length < 2
  | _ => True

/-- The workers draw batches: `d` says who has which one, by its number. -/
structure Shares (u : DiffFuzz κ α) (s : State ι κ α) (d : Draws ι) : Prop where
  valid : d.Valid
  counter : s.counter = UInt64.ofNat (u.startAt.toNat + d.owners.length * u.batchSize)
  executedCounter :
    s.executedCounter = UInt64.ofNat (u.startAt.toNat + d.returned.length * u.batchSize)
  claimed : s.claimed = (List.range d.owners.length).map u.batchAt
  completed : s.completed = d.returned.map u.batchAt
  batch : ∀ i, (s.workers i).batch = (d.holds i).map u.batchAt
  clients : ∀ i, (s.clients i).Sublist u.clients
  keeps : ∀ i, (s.workers i).Keeps u (s.clients i)

theorem shares_init (u : DiffFuzz κ α) : Shares u (init u : State ι κ α) Draws.start where
  valid := Draws.valid_start
  counter := by
    show u.startAt = UInt64.ofNat (u.startAt.toNat + 0 * u.batchSize)
    rw [Nat.zero_mul, Nat.add_zero, UInt64.ofNat_toNat]
  executedCounter := by
    show u.startAt = UInt64.ofNat (u.startAt.toNat + 0 * u.batchSize)
    rw [Nat.zero_mul, Nat.add_zero, UInt64.ofNat_toNat]
  claimed := rfl
  completed := rfl
  batch := fun _ => rfl
  clients := fun _ => List.Sublist.refl _
  keeps := fun _ => trivial

theorem generate_length (g : DiffFuzzGenerator α) (counter n : Nat) :
    (g.generate counter n).length = if g.offline then 1 else n := by
  unfold DiffFuzzGenerator.generate
  split
  · rfl
  · rw [List.length_map, List.length_range]

/-- Every batch has as many inputs after the execution. -/
theorem length_expand (b : Nat) :
    (u.expand b (sendFull (u.generator.generate b u.batchSize))).length = u.batchSize := by
  unfold expand
  split
  next hoffline =>
    rw [List.length_map, List.length_flatMap]
    have hone : ∀ i, ((u.generator.generate (b + i) 1).take 1).length = 1 := by
      intro i
      rw [List.length_take, generate_length]
      split <;> rfl
    simp only [hone, List.map_const', List.sum_replicate_nat, List.length_range, Nat.mul_one]
  next hoffline =>
    rw [sendFull, List.length_map, generate_length]
    exact if_neg hoffline

/-- A failed attempt leaves the inputs as they were generated. -/
theorem reset_generate (b : Nat) :
    u.reset (u.generator.generate b u.batchSize) = u.generator.generate b u.batchSize := by
  rw [reset]
  refine (List.map_congr_left fun inp hinp => ?_).trans (List.map_id _)
  unfold DiffFuzzGenerator.generate at hinp
  split at hinp
  · rw [List.mem_singleton] at hinp
    rw [hinp]
    rfl
  · obtain ⟨i, -, rfl⟩ := List.mem_map.mp hinp
    rfl

section

variable [DecidableEq ι] {s s' : State ι κ α} {i : ι} {d : Draws ι} {w : Worker κ α}

/-- A worker goes on with its batch. -/
theorem Shares.become (h : Shares u s d) (hbatch : w.batch = (s.workers i).batch)
    (hkeeps : w.Keeps u (s.clients i)) : Shares u (s.become i w) d where
  valid := h.valid
  counter := h.counter
  executedCounter := h.executedCounter
  claimed := h.claimed
  completed := h.completed
  batch := (Function.forall_update_iff s.workers fun j w => w.batch = (d.holds j).map u.batchAt).mpr
    ⟨hbatch.trans (h.batch i), fun j _ => h.batch j⟩
  clients := h.clients
  keeps := (Function.forall_update_iff s.workers fun j w => w.Keeps u (s.clients j)).mpr
    ⟨hkeeps, fun j _ => h.keeps j⟩

theorem Shares.claim (h : Shares u s d) (hw : s.workers i = .idle) :
    Shares u ({ s with
        counter := s.counter + UInt64.ofNat u.batchSize
        claimed := s.claimed ++ [s.counter.toNat] }.become i
      (.executing s.counter.toNat (u.generator.generate s.counter.toNat u.batchSize)))
      (d.draw i) := by
  have hnone : d.holds i = none := by
    have hbatch := h.batch i
    rw [hw] at hbatch
    exact (Option.map_eq_none_iff.mp hbatch.symm)
  -- the worker draws the batch with the number of draws so far
  have hat : s.counter.toNat = u.batchAt d.owners.length := by
    rw [h.counter, UInt64.toNat_ofNat']
    rfl
  constructor
  · exact h.valid.draw hnone
  · show s.counter + UInt64.ofNat u.batchSize = _
    rw [h.counter, ← UInt64.ofNat_add, Draws.owners_draw, List.length_append, List.length_singleton,
      Nat.succ_mul, Nat.add_assoc]
  · exact h.executedCounter
  · show s.claimed ++ [s.counter.toNat] = _
    rw [h.claimed, Draws.owners_draw, List.length_append, List.length_singleton, List.range_succ,
      List.map_append, hat]
    rfl
  · exact h.completed
  · refine (Function.forall_update_iff s.workers fun j w =>
      w.batch = ((d.draw i).holds j).map u.batchAt).mpr ⟨?_, fun j hj => ?_⟩
    · rw [Draws.holds_draw_self, Option.map_some, ← hat]
      rfl
    · rw [Draws.holds_draw_of_ne hj]
      exact h.batch j
  · exact h.clients
  · exact (Function.forall_update_iff s.workers fun j w => w.Keeps u (s.clients j)).mpr
      ⟨rfl, fun j _ => h.keeps j⟩

theorem Shares.complete (h : Shares u s d) {b n : Nat} (hw : s.workers i = .logging b n []) :
    ∃ k, d.holds i = some k ∧ b = u.batchAt k ∧ Shares u ({ s with
        executedCounter := s.executedCounter + UInt64.ofNat n
        completed := s.completed ++ [b] }.become i .idle) (d.giveBack i k) := by
  have hbatch := h.batch i
  have hkeeps := h.keeps i
  rw [hw] at hbatch hkeeps
  -- the batch that is completed is the one that the worker drew
  obtain ⟨k, hk, hkb⟩ := Option.map_eq_some_iff.mp hbatch.symm
  have hn : n = u.batchSize := hkeeps
  refine ⟨k, hk, hkb.symm, ?_⟩
  constructor
  · exact h.valid.giveBack hk
  · exact h.counter
  · show s.executedCounter + UInt64.ofNat n = _
    rw [h.executedCounter, hn, ← UInt64.ofNat_add, Draws.returned_giveBack, List.length_append,
      List.length_singleton, Nat.succ_mul, Nat.add_assoc]
  · exact h.claimed
  · show s.completed ++ [b] = _
    rw [h.completed, Draws.returned_giveBack, List.map_append, ← hkb]
    rfl
  · refine (Function.forall_update_iff s.workers fun j w =>
      w.batch = ((d.giveBack i k).holds j).map u.batchAt).mpr ⟨?_, fun j hj => ?_⟩
    · rw [Draws.holds_giveBack_self]
      rfl
    · rw [Draws.holds_giveBack_of_ne hj]
      exact h.batch j
  · exact h.clients
  · exact (Function.forall_update_iff s.workers fun j w => w.Keeps u (s.clients j)).mpr
      ⟨trivial, fun j _ => h.keeps j⟩

/-- What happens to the draws in a step. -/
theorem Shares.step [DecidableEq κ] (h : Shares u s d) (hmoves : Moves u s i s') :
    ∃ d', Shares u s' d' := by
  have hk := h.keeps i
  cases hmoves with
  | claim hw => exact ⟨_, h.claim hw⟩
  | quit hw hlt => exact ⟨d, h.become (by rw [hw]; rfl) hlt⟩
  | reject hw hlt hsend => exact ⟨d, h.become (by rw [hw]; rfl) trivial⟩
  | @retry b inputs removeClient hw hlt hsend hlost =>
      rw [hw] at hk
      have hinputs : inputs = u.generator.generate b u.batchSize := hk
      -- the loop starts again, with the lost client left out and the inputs as they were generated
      have hclients : (removeClient.elim (s.clients i) (s.clients i).erase).Sublist
          (s.clients i) := by
        cases removeClient with
        | none => exact List.Sublist.refl _
        | some client => exact List.erase_sublist
      have hshares : Shares u { s with
          clients := Function.update s.clients i
            (removeClient.elim (s.clients i) (s.clients i).erase) } d := by
        refine ⟨h.valid, h.counter, h.executedCounter, h.claimed, h.completed, h.batch, ?_, ?_⟩
        · exact (Function.forall_update_iff s.clients fun _ cs => cs.Sublist u.clients).mpr
            ⟨hclients.trans (h.clients i), fun j _ => h.clients j⟩
        · refine (Function.forall_update_iff s.clients fun j cs => (s.workers j).Keeps u cs).mpr
            ⟨?_, fun j _ => h.keeps j⟩
          rw [hw]
          exact hinputs
      refine ⟨d, hshares.become (by rw [hw]; rfl) ?_⟩
      show u.reset inputs = _
      rw [hinputs, reset_generate]
  | @analyse b inputs rest resultsPerClient hw hlt hsend hres hrest =>
      rw [hw] at hk
      have hinputs : inputs = u.generator.generate b u.batchSize := hk
      have hshares : Shares u { s with analysed := s.analysed ++ [(b, resultsPerClient)] } d :=
        ⟨h.valid, h.counter, h.executedCounter, h.claimed, h.completed, h.batch, h.clients, h.keeps⟩
      refine ⟨d, hshares.become (by rw [hw]; rfl) ?_⟩
      show (u.expand b (sendFull inputs)).length = u.batchSize
      rw [hinputs, length_expand]
  | unanalysable hw hlt hsend hres hrest => exact ⟨d, h.become (by rw [hw]; rfl) trivial⟩
  | draw hw =>
      rw [hw] at hk
      have hshares : Shares u { s with reproducerCounter := s.reproducerCounter + 1 } d :=
        ⟨h.valid, h.counter, h.executedCounter, h.claimed, h.completed, h.batch, h.clients, h.keeps⟩
      exact ⟨d, hshares.become (by rw [hw]; rfl) hk⟩
  | undiffering hw hdiffs => exact ⟨d, h.become (by rw [hw]; rfl) trivial⟩
  | @exit b n reproN entry rest hw hdiffs hmany =>
      have hshares :
          Shares u { s with reproducers := s.reproducers ++ [Reproducer.mk reproN entry] } d :=
        ⟨h.valid, h.counter, h.executedCounter, h.claimed, h.completed, h.batch, h.clients, h.keeps⟩
      exact ⟨d, hshares.become (by rw [hw]; rfl) trivial⟩
  | @write b n reproN entry rest hw hdiffs hmany =>
      rw [hw] at hk
      have hshares :
          Shares u { s with reproducers := s.reproducers ++ [Reproducer.mk reproN entry] } d :=
        ⟨h.valid, h.counter, h.executedCounter, h.claimed, h.completed, h.batch, h.clients, h.keeps⟩
      exact ⟨d, hshares.become (by rw [hw]; rfl) hk⟩
  | complete hw =>
      obtain ⟨k, -, -, hshares⟩ := h.complete hw
      exact ⟨_, hshares⟩

theorem shares_of_reaches [DecidableEq κ] {u : DiffFuzz κ α} (h : u.Reaches (init u) s) :
    ∃ d, Shares u s d := by
  induction h with
  | refl => exact ⟨_, shares_init u⟩
  | tail _ hstep ih =>
      obtain ⟨d, hd⟩ := ih
      obtain ⟨i, hmoves⟩ := step_iff.mp hstep
      exact hd.step hmoves

end

/-! ## Who has which inputs

What the draws say of the inputs themselves. From here on the counter must not have gone round
(`Fits`). -/

/-- How the batches are shared. -/
structure SharesBatches (u : DiffFuzz κ α) (s : State ι κ α) : Prop where
  /-- `counter` is behind the batches that were taken. -/
  counter : s.counter = UInt64.ofNat (u.startAt.toNat + s.claimed.length * u.batchSize)
  /-- `executed_counter` counts the inputs of the completed ones. -/
  executedCounter :
    s.executedCounter = UInt64.ofNat (u.startAt.toNat + s.completed.length * u.batchSize)
  /-- A worker only loses clients. -/
  clients : ∀ i, (s.clients i).Sublist u.clients
  /-- It gives up with less than two of them. -/
  quit : ∀ i b, s.workers i = .quit b → (s.clients i).length < 2
  /-- Every attempt starts with the inputs as they were generated. -/
  inputs : ∀ i b inputs, s.workers i = .executing b inputs →
    inputs = u.generator.generate b u.batchSize
  /-- Every input is in one batch. -/
  seeds : u.Fits s → s.claimed.flatMap (fun b => List.range' b u.batchSize) =
    List.range' u.startAt.toNat (s.claimed.length * u.batchSize)
  /-- A batch that was taken is either completed, once, or one worker has it. -/
  once : u.Fits s → s.completed.Nodup ∧ s.completed ⊆ s.claimed ∧ ∀ b ∈ s.claimed,
    (b ∈ s.completed ∧ ∀ i, (s.workers i).batch ≠ some b) ∨
      (b ∉ s.completed ∧ ∃! i, (s.workers i).batch = some b)

variable {s : State ι κ α} {d : Draws ι}

theorem Shares.claimed_length (h : Shares u s d) : s.claimed.length = d.owners.length := by
  rw [h.claimed, List.length_map, List.length_range]

/-- Without an overflow the batches lie one behind the other. -/
theorem Shares.batchAt_eq (h : Shares u s d) (hfits : u.Fits s) {n : Nat}
    (hn : n < d.owners.length) : u.batchAt n = u.startAt.toNat + n * u.batchSize := by
  apply Nat.mod_eq_of_lt
  calc u.startAt.toNat + n * u.batchSize
      < u.startAt.toNat + (n * u.batchSize + u.batchSize) := by
        have hpos := u.batchSize_pos
        omega
    _ = u.startAt.toNat + (n + 1) * u.batchSize := by rw [Nat.succ_mul]
    _ ≤ u.startAt.toNat + s.claimed.length * u.batchSize :=
        Nat.add_le_add_left (Nat.mul_le_mul_right _ (h.claimed_length ▸ hn)) _
    _ ≤ 2 ^ 64 := hfits

theorem Shares.batchAt_inj (h : Shares u s d) (hfits : u.Fits s) {m n : Nat}
    (hm : m < d.owners.length) (hn : n < d.owners.length) (heq : u.batchAt m = u.batchAt n) :
    m = n := by
  rw [h.batchAt_eq hfits hm, h.batchAt_eq hfits hn] at heq
  exact Nat.eq_of_mul_eq_mul_right u.batchSize_pos (Nat.add_left_cancel heq)

theorem Shares.claimed_nodup (h : Shares u s d) (hfits : u.Fits s) : s.claimed.Nodup := by
  rw [h.claimed]
  exact List.nodup_range.map_on fun m hm n hn heq =>
    h.batchAt_inj hfits (List.mem_range.mp hm) (List.mem_range.mp hn) heq

theorem Shares.mem_claimed (h : Shares u s d) {i : ι} {b : Nat}
    (hi : (s.workers i).batch = some b) : b ∈ s.claimed := by
  rw [h.batch i] at hi
  obtain ⟨n, hn, rfl⟩ := Option.map_eq_some_iff.mp hi
  rw [h.claimed]
  exact List.mem_map_of_mem (List.mem_range.mpr (h.valid.lt_of_holds hn))

/-- A batch that a worker has is not completed. -/
theorem Shares.not_completed (h : Shares u s d) (hfits : u.Fits s) {i : ι} {b : Nat}
    (hi : (s.workers i).batch = some b) : b ∉ s.completed := by
  rw [h.batch i] at hi
  obtain ⟨n, hn, rfl⟩ := Option.map_eq_some_iff.mp hi
  rw [h.completed]
  intro hmem
  obtain ⟨m, hm, heq⟩ := List.mem_map.mp hmem
  obtain rfl := h.batchAt_inj hfits (h.valid.lt m hm) (h.valid.lt_of_holds hn) heq
  exact h.valid.not_mem_of_holds hn hm

/-- Nobody else has it. -/
theorem Shares.batch_alone (h : Shares u s d) (hfits : u.Fits s) {i j : ι} {b : Nat}
    (hi : (s.workers i).batch = some b) (hj : (s.workers j).batch = some b) : i = j := by
  rw [h.batch] at hi hj
  obtain ⟨m, hm, rfl⟩ := Option.map_eq_some_iff.mp hi
  obtain ⟨n, hn, heq⟩ := Option.map_eq_some_iff.mp hj
  obtain rfl := h.batchAt_inj hfits (h.valid.lt_of_holds hn) (h.valid.lt_of_holds hm) heq
  exact h.valid.alone hm hn

/-- Different batches have no counter in common. -/
theorem Shares.disjoint (h : Shares u s d) (hfits : u.Fits s) {b b' : Nat} (hb : b ∈ s.claimed)
    (hb' : b' ∈ s.claimed) (hne : b' ≠ b) {c : Nat} (hc : b ≤ c ∧ c < b + u.batchSize) :
    ¬(b' ≤ c ∧ c < b' + u.batchSize) := by
  rw [h.claimed] at hb hb'
  obtain ⟨m, hm, rfl⟩ := List.mem_map.mp hb
  obtain ⟨n, hn, rfl⟩ := List.mem_map.mp hb'
  rw [List.mem_range] at hm hn
  rw [h.batchAt_eq hfits hm] at hc hne
  rw [h.batchAt_eq hfits hn] at hne ⊢
  rintro ⟨hle, hlt⟩
  rcases Nat.lt_trichotomy m n with hmn | rfl | hnm
  · have hmul := Nat.mul_le_mul_right u.batchSize (Nat.succ_le_of_lt hmn)
    rw [Nat.succ_mul] at hmul
    omega
  · exact hne rfl
  · have hmul := Nat.mul_le_mul_right u.batchSize (Nat.succ_le_of_lt hnm)
    rw [Nat.succ_mul] at hmul
    omega

theorem flatMap_range_batches (start size : Nat) (n : Nat) :
    ((List.range n).map fun k => start + k * size).flatMap (fun b => List.range' b size) =
      List.range' start (n * size) := by
  induction n with
  | zero => simp
  | succ n ih =>
      rw [List.range_succ, List.map_append, List.flatMap_append, ih, List.map_singleton,
        List.flatMap_singleton, List.range'_append_1, Nat.succ_mul]

theorem Shares.sharesBatches (h : Shares u s d) : SharesBatches u s where
  counter := by
    rw [h.claimed_length]
    exact h.counter
  executedCounter := by
    rw [h.completed, List.length_map]
    exact h.executedCounter
  clients := h.clients
  quit := by
    intro i b hw
    have hkeeps := h.keeps i
    rw [hw] at hkeeps
    exact hkeeps
  inputs := by
    intro i b inputs hw
    have hkeeps := h.keeps i
    rw [hw] at hkeeps
    exact hkeeps
  seeds := by
    intro hfits
    have hbatches : s.claimed =
        (List.range d.owners.length).map fun k => u.startAt.toNat + k * u.batchSize := by
      rw [h.claimed]
      exact List.map_congr_left fun k hk => h.batchAt_eq hfits (List.mem_range.mp hk)
    rw [h.claimed_length, hbatches, flatMap_range_batches]
  once := by
    intro hfits
    refine ⟨?_, ?_, fun b hb => ?_⟩
    · rw [h.completed]
      exact h.valid.nodup.map_on fun m hm n hn heq =>
        h.batchAt_inj hfits (h.valid.lt m hm) (h.valid.lt n hn) heq
    · intro b hb
      rw [h.completed] at hb
      obtain ⟨n, hn, rfl⟩ := List.mem_map.mp hb
      rw [h.claimed]
      exact List.mem_map_of_mem (List.mem_range.mpr (h.valid.lt n hn))
    · rw [h.claimed] at hb
      obtain ⟨n, hn, rfl⟩ := List.mem_map.mp hb
      rw [List.mem_range] at hn
      -- a batch that was drawn was given back or is held, and only by one worker
      rcases h.valid.settled hn with hret | ⟨i, hi⟩
      · have hmem : u.batchAt n ∈ s.completed := h.completed ▸ List.mem_map_of_mem hret
        exact Or.inl ⟨hmem, fun i hi => h.not_completed hfits hi hmem⟩
      · have hbatch : (s.workers i).batch = some (u.batchAt n) := by
          rw [h.batch i, hi]
          rfl
        exact Or.inr ⟨h.not_completed hfits hbatch, i, hbatch,
          fun j hj => h.batch_alone hfits hj hbatch⟩

/-- In whatever order the workers go on, and whatever clients they lose: every input is taken once,
by one worker, and stays with it until the batch is completed. -/
theorem sharesBatches_of_reaches [DecidableEq ι] [DecidableEq κ] (u : DiffFuzz κ α)
    (s : State ι κ α) (h : u.Reaches (init u) s) : SharesBatches u s := by
  obtain ⟨d, hd⟩ := shares_of_reaches h
  exact hd.sharesBatches

theorem twoClients_nodup : ["a", "b"].Nodup := by decide

/-- Two clients, and one input in every batch. -/
def twoClients : DiffFuzz String Nat where
  config := plainBuild .riscv64
  hash := fun key => key.1
  generator := ⟨false, 7, 1, id⟩
  pack inp := some (leBytes 1 inp.seqLen ++ leBytes 1 inp.fullSeq.toNat ++ leBytes 4 0x13)
  batchSize := 1
  batchSize_pos := Nat.one_pos
  startAt := 10
  clients := ["a", "b"]
  clients_nodup := twoClients_nodup

/-- Two workers take a batch, and one of them loses a client. -/
theorem sharesBatches_of_reaches_twoClients : ∃ s : State Bool String Nat,
    twoClients.Reaches (init twoClients) s ∧ s.claimed = [10, 11] ∧
      s.workers true = .quit 11 ∧ SharesBatches twoClients s := by
  have hreaches : ∃ s : State Bool String Nat, twoClients.Reaches (init twoClients) s ∧
      s.claimed = [10, 11] ∧ s.workers true = .quit 11 := by
    have hlost : ∀ client ∈ some "a", client ∈ ["a", "b"] := by decide
    exact ⟨_, .head (step_of_moves (.claim (i := false) rfl)) (.head
      (step_of_moves (.claim (i := true) rfl)) (.head
        (step_of_moves (.retry (i := true) rfl (by decide) (by decide) hlost))
        (.single (step_of_moves (.quit (i := true) rfl (by decide)))))), rfl, rfl⟩
  obtain ⟨s, hs, hclaimed, hquit⟩ := hreaches
  exact ⟨s, hs, hclaimed, hquit, sharesBatches_of_reaches twoClients s hs⟩

end DiffFuzz

end RISCover
