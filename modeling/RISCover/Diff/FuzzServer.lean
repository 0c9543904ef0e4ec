import RISCover.Diff.LogRepro
import RISCover.Input.Basic
import RISCover.Lib.Scanf
import RISCover.Server.Queue

/-!
# The workers of the fuzzer

The processes of `DiffFuzzServer` share three counters. A worker takes a batch of inputs off the
first one, has it executed on its clients, again and again while clients are lost, searches the
results for differences and logs each with a number off the second. What happens under `condition`
is one step, so a run is any order of these steps. `use_qemu` is a constant, `False`.
-/

open Bytes Relation Text

namespace RISCover

/-! ## The generators

What a generator makes depends on its seed alone. It is made anew for every input that is logged. -/

/-- What an input is made of: the value that was drawn, or the numbers `seq_num` and `n` of an
`InputJustSeqNum`. -/
inductive InputSource (α : Type) where
  | drawn (value : α)
  | justSeqNum (seqNum n : Nat)

/-- Class `Input`, with the fields that the workers set. -/
structure FuzzInput (α : Type) where
  source : InputSource α
  seqLen : Nat
  fullSeq : Bool

/-- `get_num_results`. -/
def FuzzInput.getNumResults {α : Type} (inp : FuzzInput α) : Nat :=
  match inp.source with
  | .drawn _ => 1
  | .justSeqNum _ n => n

/-- `RandomDiffFuzzGenerator`, or `OfflineRandomDiffFuzzGenerator`. `genNewInput` is what
`gen_new_input` makes of the seed, which it passes to `seed_all`. -/
structure DiffFuzzGenerator (α : Type) where
  offline : Bool
  seed : Nat
  seqLen : Nat
  genNewInput : Nat → α

namespace DiffFuzzGenerator

variable {α : Type}

def expandInputsAfterExec (g : DiffFuzzGenerator α) : Bool := g.offline

/-- `generate`. -/
def generate (g : DiffFuzzGenerator α) (counter n : Nat) : List (FuzzInput α) :=
  if g.offline then [⟨.justSeqNum counter n, g.seqLen, false⟩]
  else
    (List.range n).map fun i => ⟨.drawn (g.genNewInput ((counter + i) ^^^ g.seed)), g.seqLen, false⟩

end DiffFuzzGenerator

/-! ## What the workers share

The counters are fixed-width numbers in shared memory. `Worker` says how far a worker is in its
loop, and the rest of the state is what the processes have in common, or have written. -/

/-- What the fuzzer is started with. The counters have 64 bits. `pack` is the `pack` of the
generator's inputs; `none` is an exception. -/
structure DiffFuzz (κ α : Type) where
  config : Config
  hash : HashKey → Int
  generator : DiffFuzzGenerator α
  pack : FuzzInput α → Option Bytes
  batchSize : Nat
  batchSize_pos : 0 < batchSize
  startAt : UInt64
  clients : List κ
  clients_nodup : clients.Nodup

/-- How many workers `start` makes. -/
def numWorkers (singleStep : Bool) : Nat := if singleStep then 1 else 50

/-- What `log_repro` is called with: `full_input` was made of `inp`, and runs the prefix of the
split. -/
structure LogEntry (κ α : Type) where
  counter : Nat
  inp : FuzzInput α
  split : Split κ

/-- A reproducer that was written. -/
structure Reproducer (κ α : Type) where
  reproN : Nat
  entry : LogEntry κ α

/-- `reproducer-{repro_n:08}-{counter:012}.yaml`. -/
def Reproducer.path {κ α : Type} (r : Reproducer κ α) : Text :=
  "reproducer-".toList ++
    (decPad 8 r.reproN ++ '-' :: (decPad 12 r.entry.counter ++ ".yaml".toList))

namespace DiffFuzz

/-- What `execute_inputs_on_clients` returns, or why it raises `LostClientException`. -/
inductive Outcome (κ : Type) where
  | results (resultsPerClient : List (List (MultiResult κ)))
  | lost (removeClient : Option κ)

/-- Where a worker stands, with the counter that its batch starts at. -/
inductive Worker (κ α : Type) where
  | idle
  /-- At the top of the loop over the attempts. -/
  | executing (toGenerate : Nat) (inputs : List (FuzzInput α))
  /-- In front of the next `log_repro`, or of the end of the batch. -/
  | logging (toGenerate n : Nat) (rest : List (LogEntry κ α))
  /-- In `log_repro`, with the number that it took. -/
  | writing (toGenerate n reproN : Nat) (entry : LogEntry κ α) (rest : List (LogEntry κ α))
  /-- Less than two clients were left. -/
  | quit (toGenerate : Nat)
  /-- There are too many files. -/
  | exited (toGenerate reproN : Nat)
  /-- An exception that nothing catches. -/
  | raised (toGenerate : Nat)

/-- The shared values and the workers, each with its own list of clients. `claimed` and `completed`
record the batches, `analysed` what the clients answered to them, and `reproducers` the files in the
order in which they are written. -/
structure State (ι κ α : Type) where
  counter : UInt64
  executedCounter : UInt64
  reproducerCounter : UInt64
  clients : ι → List κ
  workers : ι → Worker κ α
  claimed : List Nat
  completed : List Nat
  analysed : List (Nat × List (List (MultiResult κ)))
  reproducers : List (Reproducer κ α)

variable {ι κ α : Type}

/-- The server with its workers before their first step. -/
def init (u : DiffFuzz κ α) : State ι κ α :=
  ⟨u.startAt, u.startAt, 0, fun _ => u.clients, fun _ => .idle, [], [], [], []⟩

/-- The inputs that the results belong to: compressed ones are expanded after the execution. -/
def expand (u : DiffFuzz κ α) (toGenerate : Nat) (inputs : List (FuzzInput α)) :
    List (FuzzInput α) :=
  if u.generator.expandInputsAfterExec then
    ((List.range u.batchSize).flatMap fun i =>
      (u.generator.generate (toGenerate + i) 1).take 1).map fun inp => { inp with fullSeq := true }
  else inputs

/-- `zip(*lists)`. -/
def zipAll {β : Type} : List (List β) → List (List β)
  | [] => []
  | l :: ls => ls.foldl (fun rows l => List.zipWith (fun row x => row ++ [x]) rows l) (l.map ([·]))

/-- The diff tree of one input; `none` is a failed assertion, an `IndexError` or a `KeyError`. -/
def diffTree [DecidableEq κ] (u : DiffFuzz κ α) (multiresults : List (MultiResult κ)) :
    Option (List (Split κ)) :=
  if multiresults.length < 2 then none
  else
    let seqLen := u.generator.seqLen
    (multiresultsToResultsPerSeqLen (multiresults.map MultiResult.results) seqLen)[0]?.bind
      fun first => findMinimalDiffTree u.hash u.config.arch seqLen
        (getResultsForSeqLen multiresults seqLen) (first.map Result.client)

/-- What is logged of a batch: the splits of its first input, of its second one, and so on. -/
def entries [DecidableEq κ] (u : DiffFuzz κ α) (toGenerate : Nat) (inputs : List (FuzzInput α))
    (resultsPerClient : List (List (MultiResult κ))) : Option (List (LogEntry κ α)) := do
  let diffs ← ((inputs.zip (zipAll resultsPerClient)).zipIdx).mapM fun p => do
    let tree ← u.diffTree p.1.2
    pure (tree.map fun split => ⟨toGenerate + p.2, p.1.1, split⟩)
  pure diffs.flatten

/-- A batch is packed, and the assertion of `schedule_packed_inputs` holds: there are not too many
bytes. -/
def accepts (u : DiffFuzz κ α) (inputs : List (FuzzInput α)) : Bool :=
  (packInputs u.pack inputs).any fun packed => decide (packed.length < maxInFlightBytes)

/-- One worker goes on. -/
def State.become [DecidableEq ι] (s : State ι κ α) (i : ι) (w : Worker κ α) : State ι κ α :=
  { s with workers := Function.update s.workers i w }

/-- The next step of a worker; `o` is what the clients do if it has its batch executed. -/
def next [DecidableEq ι] [DecidableEq κ] (u : DiffFuzz κ α) (i : ι) (o : Outcome κ)
    (s : State ι κ α) : Option (State ι κ α) :=
  match s.workers i with
  | .idle =>
    let toGenerate := s.counter.toNat
    let s := { s with
      counter := s.counter + UInt64.ofNat u.batchSize
      claimed := s.claimed ++ [toGenerate] }
    some (s.become i (.executing toGenerate (u.generator.generate toGenerate u.batchSize)))
  | .executing b inputs =>
    if (s.clients i).length < 2 then some (s.become i (.quit b))
    -- nothing catches what packing and scheduling may raise
    else if u.accepts (inputs.map fun inp => { inp with fullSeq := true }) = false then
      some (s.become i (.raised b))
    else
      match o with
      | .lost removeClient =>
        -- the exception leaves `full_seq` set
        let inputs := inputs.map fun inp =>
          { inp with fullSeq := false, seqLen := u.generator.seqLen }
        let clients := removeClient.elim (s.clients i) (s.clients i).erase
        some ({ s with clients := Function.update s.clients i clients }.become i
          (.executing b inputs))
      | .results resultsPerClient =>
        let inputs := u.expand b (inputs.map fun inp => { inp with fullSeq := true })
        match u.entries b inputs resultsPerClient with
        | none => some (s.become i (.raised b))
        | some rest =>
          some ({ s with analysed := s.analysed ++ [(b, resultsPerClient)] }.become i
            (.logging b inputs.length rest))
  | .logging b n (entry :: rest) =>
    let reproN := s.reproducerCounter.toNat + 1
    let s := { s with reproducerCounter := s.reproducerCounter + 1 }
    some (s.become i (.writing b n reproN entry rest))
  | .writing b n reproN entry rest =>
    if allDiffs (reproResultToClients entry.split.resultToClients) = ∅ then
      some (s.become i (.raised b))
    else
      let s := { s with reproducers := s.reproducers ++ [Reproducer.mk reproN entry] }
      if 300000 < reproN then some (s.become i (.exited b reproN))
      else some (s.become i (.logging b n rest))
  | .logging b n [] =>
    let s := { s with
      executedCounter := s.executedCounter + UInt64.ofNat n
      completed := s.completed ++ [b] }
    some (s.become i .idle)
  | .quit _ => none
  | .exited _ _ => none
  | .raised _ => none

/-- The results that a worker asks every client for. -/
def Worker.numResults : Worker κ α → Nat
  | .executing _ inputs => (inputs.map FuzzInput.getNumResults).sum
  | _ => 0

/-- Each client sent `n` results, its own ones. -/
def Answered (u : DiffFuzz κ α) (n : Nat) (clients : List κ)
    (resultsPerClient : List (List (MultiResult κ))) : Prop :=
  List.Forall₂ (fun client multiresults => multiresults.length = n ∧
    ∀ m ∈ multiresults, m.client = client ∧ m.FromRunner u.config u.generator.seqLen)
    clients resultsPerClient

/-- What the clients can do: all answer, or one of them is lost. -/
def Possible (u : DiffFuzz κ α) (clients : List κ) (n : Nat) : Outcome κ → Prop
  | .results resultsPerClient => u.Answered n clients resultsPerClient
  | .lost removeClient => ∀ client ∈ removeClient, client ∈ clients

/-- A step of one of the workers. -/
def Step [DecidableEq ι] [DecidableEq κ] (u : DiffFuzz κ α) (s s' : State ι κ α) : Prop :=
  ∃ i o, u.Possible (s.clients i) (s.workers i).numResults o ∧ u.next i o s = some s'

/-- The workers take steps in any order. -/
def Reaches [DecidableEq ι] [DecidableEq κ] (u : DiffFuzz κ α) :
    State ι κ α → State ι κ α → Prop :=
  ReflTransGen u.Step

end DiffFuzz

end RISCover
