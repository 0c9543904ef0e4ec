import RISCover.Server.Queue
import RISCover.Result.RoundTrip

/-!
# `RealClient` between its workers and its client

Any number of workers schedule packed inputs and fetch results by ticket; the loop of the process
sends and receives; the client answers one message after the other. `condition` and
`result_condition` make the pieces below atomic, so every interleaving is a run of `Step`.

The fields after the network are histories: they record what the workers scheduled, what the client
executed and what was handed out, and no step looks at them.
-/

open Bytes

namespace RISCover

variable {c : Config} {ι κ : Type}

/-! ## Receiving

The results of a message are cut into frames, and dealt to the tickets of the message in order. -/

/-- `for _ in range(n)`: the bodies of the next `n` frames. -/
def recvResults (n : Nat) : Parser Bytes :=
  Cursor.foldN (fun d => do
    let resultBytes ← unpack 2
    let body ← Cursor.take resultBytes
    pure (d ++ body)) n []

/-- `for ticket, n in inputs`: the answers are divided among the tickets by counting frames. -/
def recvTickets : List (Nat × Nat) → Dict Nat Bytes → Parser (Dict Nat Bytes)
  | [], results => pure results
  | (ticket, n) :: inputs, results => do
      let d ← recvResults n
      recvTickets inputs (results.set ticket d)

/-! ## The inputs and the client

What the inputs are and how the client answers them is a parameter (`Device`), with the guarantees
of the packer and the runner. -/

/-- The inputs of a run and the client that executes them. A message is packed without losing its
inputs, and an input is answered with as many results as it announced. -/
structure Device (c : Config) (ι : Type) where
  pack : ι → Bytes
  getNumResults : ι → Nat
  /-- The answers the client may give to an input; the same input may be answered differently. -/
  exec : ι → List (Reply c) → Prop
  pack_inj : ∀ {is js : List ι}, is.flatMap pack = js.flatMap pack → is = js
  exec_length : ∀ {i rs}, exec i rs → rs.length = getNumResults i
  exec_fromRunner : ∀ {i rs}, exec i rs → ∀ r ∈ rs, r.answer.FromRunner

/-- `pack_inputs`. -/
def Device.packInputs (dev : Device c ι) (inputs : List ι) : Bytes := inputs.flatMap dev.pack

/-- `sum(i.get_num_results() for i in inputs)`. -/
def Device.numResults (dev : Device c ι) (inputs : List ι) : Nat :=
  (inputs.map dev.getNumResults).sum

/-- What one call of `schedule_packed_inputs` asks for. -/
structure Job (ι : Type) where
  ticket : Nat
  inputs : List ι

/-- The entry of the queue. -/
def Device.entry (dev : Device c ι) (j : Job ι) : Entry :=
  ⟨j.ticket, dev.numResults j.inputs, dev.packInputs j.inputs⟩

/-! ## The system

Workers, the loop and the client as one system. The two directions of the connection are queues, in
which whole messages arrive. -/

/-- Where the loop stands: in the fill loop, at the `select`, or stopped by an exception. -/
inductive Phase where
  | fill
  | recv
  | dead
  deriving DecidableEq

structure System (c : Config) (ι κ : Type) where
  loop : LoopState
  phase : Phase
  nextTicket : Nat
  results : Dict Nat Bytes
  toClient : List Message
  fromClient : List Bytes
  scheduled : List (Job ι)
  executed : List (ι × List (Reply c))
  handed : List (Nat × Except ParseError (List (Parsed κ)))

namespace System

def init : System c ι κ :=
  { loop := .idle [], phase := .fill, nextTicket := 0, results := Dict.empty
    toClient := [], fromClient := [], scheduled := [], executed := [], handed := [] }

/-- `schedule_packed_inputs` behind its assertion. -/
def schedule (dev : Device c ι) (s : System c ι κ) (inputs : List ι) (priority : Bool) :
    System c ι κ :=
  let job : Job ι := ⟨s.nextTicket, inputs⟩
  { s with
    loop := { s.loop with
      queue := if priority then dev.entry job :: s.loop.queue
        else s.loop.queue ++ [dev.entry job] }
    nextTicket := s.nextTicket + 1
    scheduled := s.scheduled ++ [job] }

/-- The loop takes `data` from the socket; an exception ends it. -/
def recv (s : System c ι κ) (data : Bytes) (rest : List Bytes) : System c ι κ :=
  match s.loop.inFlightInputs with
  -- `self.in_flight_inputs.pop(0)` of an empty list
  | [] => { s with phase := .dead, fromClient := rest }
  | inputs :: _ =>
    -- what `data` has behind the last frame is not looked at
    match recvTickets inputs s.results data 0 with
    | .ok (results, _) =>
        { s with loop := s.loop.pop, results := results, fromClient := rest, phase := .fill }
    | .error _ => { s with phase := .dead, loop := s.loop.pop, fromClient := rest }

/-- `get_results` of a ticket whose results are there. -/
def handOut (client : κ) (s : System c ι κ) (ticket : Nat) (data : Bytes) : System c ι κ :=
  { s with
    results := s.results.erase ticket
    handed := s.handed ++ [(ticket, parseResults c data client)] }

end System

/-- One atomic step of a worker, of the loop or of the client. -/
inductive Step (l : LoopConfig) (dev : Device c ι) (client : κ) :
    System c ι κ → System c ι κ → Prop where
  /-- A worker schedules inputs; only the number of bytes is asserted, the number of results is
  what the callers keep to. -/
  | schedule {s : System c ι κ} (inputs : List ι) (priority : Bool)
      (hbytes : (dev.packInputs inputs).length < maxInFlightBytes)
      (hpos : 1 ≤ dev.numResults inputs) (hle : dev.numResults inputs ≤ l.biggerMaxBatchN) :
      Step l dev client s (s.schedule dev inputs priority)
  /-- A pass of the fill loop sends a message. -/
  | send {s : System c ι κ} {m : Message} {loop : LoopState} (hphase : s.phase = .fill)
      (h : fillPass l s.loop = some (m, loop)) :
      Step l dev client s { s with loop := loop, toClient := s.toClient ++ [m] }
  /-- The fill loop is left. -/
  | filled {s : System c ι κ} (hphase : s.phase = .fill) (h : fillPass l s.loop = none) :
      Step l dev client s { s with phase := .recv }
  /-- The `select` times out. -/
  | timeout {s : System c ι κ} (hphase : s.phase = .recv) :
      Step l dev client s { s with phase := .fill }
  /-- The loop receives the next answer. -/
  | recv {s : System c ι κ} {data : Bytes} {rest : List Bytes} (hphase : s.phase = .recv)
      (h : s.fromClient = data :: rest) : Step l dev client s (s.recv data rest)
  /-- The client executes the inputs of the next message and sends their frames. -/
  | answer {s : System c ι κ} {m : Message} {rest : List Message}
      {runs : List (ι × List (Reply c))} {frames : List Bytes} (h : s.toClient = m :: rest)
      (hpacked : m.packed = dev.packInputs (runs.map Prod.fst))
      (hexec : ∀ run ∈ runs, dev.exec run.1 run.2)
      (hframes : List.Forall₂ (fun r frame => Reply.frame r = some frame)
        (runs.flatMap Prod.snd) frames) :
      Step l dev client s
        { s with
          toClient := rest
          fromClient := s.fromClient ++ [frames.flatten]
          executed := s.executed ++ runs }
  /-- A worker fetches the results of a ticket. -/
  | getResults {s : System c ι κ} {ticket : Nat} {data : Bytes}
      (h : s.results.get? ticket = some data) : Step l dev client s (s.handOut client ticket data)

end RISCover
