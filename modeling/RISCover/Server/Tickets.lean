import Mathlib.Algebra.Order.Group.Multiset
import Mathlib.Tactic.Abel
import RISCover.Server.RealClient

/-!
# Tickets keep their results

`Flow` is the abstract account of a `RealClient`: whole jobs move from the queue into messages, from
messages into answers, from answers into the results and from there to a worker. `Refines` says how
the lists, byte strings and counts of the code represent it; every step of the code keeps that
relation, so what is handed out for a ticket is what its own inputs were answered with.
-/

open Bytes Cursor Relation

namespace RISCover

variable {c : Config} {ι κ : Type} {l : LoopConfig} {dev : Device c ι} {client : κ}

/-! ## The abstract account

A job is in one place at a time, and a move takes it to the next one. -/

/-- A job that was executed: its inputs, each with the answers to it. -/
structure Done (c : Config) (ι : Type) where
  ticket : Nat
  runs : List (ι × List (Reply c))

namespace Done

def job (d : Done c ι) : Job ι := ⟨d.ticket, d.runs.map Prod.fst⟩

def replies (d : Done c ι) : List (Reply c) := d.runs.flatMap Prod.snd

/-- What is stored under the ticket: the bodies of its frames. -/
def item (d : Done c ι) : Nat × Bytes := (d.ticket, d.replies.flatMap Reply.body)

/-- What is handed out. -/
def result (client : κ) (d : Done c ι) : Nat × Except ParseError (List (Parsed κ)) :=
  (d.ticket, .ok (d.replies.map (Reply.decoded client)))

end Done

/-- The frame of a reply, length first. -/
def Reply.frameBytes (r : Reply c) : Bytes := leBytes 2 r.body.length ++ r.body

/-- What the client sends for a job. -/
def Done.frames (d : Done c ι) : Bytes := d.replies.flatMap Reply.frameBytes

/-- The client did answer these inputs, in frames that fit. -/
structure Done.Valid (dev : Device c ι) (d : Done c ι) : Prop where
  exec : ∀ run ∈ d.runs, dev.exec run.1 run.2
  fits : ∀ r ∈ d.replies, r.body.length ≤ 0xffff

/-- Where each job is, and the executed ones in the order of their execution. -/
structure Flow (c : Config) (ι : Type) where
  waiting : List (Job ι)
  sent : List (List (Job ι))
  answered : List (List (Done c ι))
  arrived : List (Done c ι)
  delivered : List (Done c ι)
  log : List (Done c ι)

namespace Flow

/-- The jobs whose inputs have been executed. -/
def done (g : Flow c ι) : List (Done c ι) := g.answered.flatten ++ g.arrived ++ g.delivered

def jobs (g : Flow c ι) : List (Job ι) := g.waiting ++ g.sent.flatten ++ g.done.map Done.job

/-- A job joins the waiting ones, at either end. -/
def schedule (g : Flow c ι) (waiting : List (Job ι)) : Flow c ι := { g with waiting := waiting }

/-- Some of the waiting jobs go into a message. -/
def send (g : Flow c ι) (merged rest : List (Job ι)) : Flow c ι :=
  { g with waiting := rest, sent := g.sent ++ [merged] }

/-- The jobs of the first message are executed, `more` are the other messages. -/
def answer (g : Flow c ι) (ds : List (Done c ι)) (more : List (List (Job ι))) : Flow c ι :=
  { g with sent := more, answered := g.answered ++ [ds], log := g.log ++ ds }

/-- The first answer arrives, `more` are the other answers. -/
def recv (g : Flow c ι) (ds : List (Done c ι)) (more : List (List (Done c ι))) : Flow c ι :=
  { g with answered := more, arrived := g.arrived ++ ds }

/-- A job is handed out from between the others. -/
def handOut (g : Flow c ι) (before : List (Done c ι)) (d : Done c ι) (after : List (Done c ι)) :
    Flow c ι :=
  { g with arrived := before ++ after, delivered := g.delivered ++ [d] }

end Flow

/-- How a job is kept while it is in flight. -/
def Device.tick (dev : Device c ι) (j : Job ι) : Nat × Nat := (j.ticket, dev.numResults j.inputs)

/-- The message that carries some jobs. -/
def Device.message (dev : Device c ι) (jobs : List (Job ι)) : Message :=
  ⟨(jobs.map fun j => dev.numResults j.inputs).sum, dev.packInputs (jobs.flatMap Job.inputs)⟩

/-- The system's state represents the account `g`. -/
structure Refines (dev : Device c ι) (client : κ) (s : System c ι κ) (g : Flow c ι) : Prop where
  queue : s.loop.queue = g.waiting.map dev.entry
  toClient : s.toClient = g.sent.map dev.message
  fromClient : s.fromClient = g.answered.map fun ds => ds.flatMap Done.frames
  inFlight : s.loop.inFlightInputs =
    g.answered.map (fun ds => ds.map fun d => dev.tick d.job) ++ g.sent.map (·.map dev.tick)
  results : s.results.items = g.arrived.map Done.item
  handed : s.handed = g.delivered.map (Done.result client)
  executed : s.executed = g.log.flatMap Done.runs
  phase : s.phase ≠ .dead
  tickets : s.scheduled.map Job.ticket = List.range s.nextTicket
  jobs : g.jobs.Perm s.scheduled
  log : g.log.Perm g.done
  valid : ∀ d ∈ g.log, d.Valid dev
  positive : ∀ j ∈ s.scheduled, 1 ≤ dev.numResults j.inputs

/-! ## Moves lose nothing

Up to order, so the lists are compared as multisets. -/

namespace Flow

variable {g : Flow c ι}

theorem jobs_schedule {waiting : List (Job ι)} {job : Job ι}
    (h : waiting.Perm (g.waiting ++ [job])) :
    (g.schedule waiting).jobs.Perm (g.jobs ++ [job]) := by
  have hw := Multiset.coe_eq_coe.mpr h
  rw [← Multiset.coe_eq_coe]
  simp only [jobs, done, schedule, ← Multiset.coe_add] at hw ⊢
  rw [hw]
  abel

theorem jobs_send {merged rest : List (Job ι)} (h : (merged ++ rest).Perm g.waiting) :
    (g.send merged rest).jobs.Perm g.jobs := by
  have hw := Multiset.coe_eq_coe.mpr h
  rw [← Multiset.coe_eq_coe]
  simp only [jobs, done, send, List.flatten_append, List.flatten_singleton,
    ← Multiset.coe_add] at hw ⊢
  rw [← hw]
  abel

theorem done_answer (ds : List (Done c ι)) (more : List (List (Job ι))) :
    (g.answer ds more).done.Perm (g.done ++ ds) := by
  rw [← Multiset.coe_eq_coe]
  simp only [done, answer, List.flatten_append, List.flatten_singleton, ← Multiset.coe_add]
  abel

theorem jobs_answer {ds : List (Done c ι)} {more : List (List (Job ι))}
    (h : g.sent = ds.map Done.job :: more) : (g.answer ds more).jobs.Perm g.jobs := by
  have hdone := Multiset.coe_eq_coe.mpr ((done_answer (g := g) ds more).map Done.job)
  rw [← Multiset.coe_eq_coe]
  simp only [jobs, h, List.map_append, List.flatten_cons, ← Multiset.coe_add] at hdone ⊢
  rw [hdone, answer]
  abel

theorem done_recv {ds : List (Done c ι)} {more : List (List (Done c ι))}
    (h : g.answered = ds :: more) : (g.recv ds more).done.Perm g.done := by
  rw [← Multiset.coe_eq_coe]
  simp only [done, recv, h, List.flatten_cons, ← Multiset.coe_add]
  abel

theorem done_handOut {before : List (Done c ι)} {d : Done c ι} {after : List (Done c ι)}
    (h : g.arrived = before ++ d :: after) : (g.handOut before d after).done.Perm g.done := by
  rw [← Multiset.coe_eq_coe]
  simp only [done, handOut, h, ← Multiset.coe_add, ← Multiset.cons_coe,
    ← Multiset.singleton_add, Multiset.coe_nil, add_zero]
  abel

end Flow

/-! ## Counting and splitting

Each job has at least one result, so a message has frames for all of its jobs. -/

/-- A job is answered with as many frames as it announced. -/
theorem Done.Valid.length_replies {d : Done c ι} (h : d.Valid dev) :
    d.replies.length = dev.numResults d.job.inputs := by
  simp only [Done.replies, Done.job, Device.numResults, List.length_flatMap, List.map_map]
  congr 1
  apply List.map_congr_left
  intro run hrun
  exact dev.exec_length (h.exec run hrun)

theorem Done.Valid.fromRunner {d : Done c ι} (h : d.Valid dev) :
    ∀ r ∈ d.replies, r.answer.FromRunner := by
  intro r hr
  obtain ⟨run, hrun, hmem⟩ := List.mem_flatMap.mp hr
  exact dev.exec_fromRunner (h.exec run hrun) r hmem

/-- The executed inputs of a message fall apart along its jobs. -/
theorem exists_done (jobs : List (Job ι)) : ∀ runs : List (ι × List (Reply c)),
    runs.map Prod.fst = jobs.flatMap Job.inputs →
      ∃ ds : List (Done c ι), ds.map Done.job = jobs ∧ ds.flatMap Done.runs = runs := by
  induction jobs with
  | nil =>
      intro runs h
      have hnil : runs = [] := by simpa using h
      exact ⟨[], rfl, hnil ▸ rfl⟩
  | cons j jobs ih =>
      intro runs h
      rw [List.flatMap_cons] at h
      obtain ⟨own, rest, rfl, hown, hrest⟩ := List.map_eq_append_iff.mp h
      obtain ⟨ds, hjobs, hruns⟩ := ih rest hrest
      refine ⟨⟨j.ticket, own⟩ :: ds, ?_, ?_⟩
      · rw [List.map_cons, hjobs, Done.job, hown]
      · rw [List.flatMap_cons, hruns]

/-- Where tickets are distinct, one ticket stands for one job. -/
theorem filter_ticket_ne {before : List (Done c ι)} {d : Done c ι} {after : List (Done c ι)}
    (h : ((before ++ d :: after).map Done.ticket).Nodup) :
    (before ++ d :: after).filter (fun x => x.ticket ≠ d.ticket) = before ++ after := by
  rw [List.map_append, List.map_cons, List.nodup_middle, List.nodup_cons, ← List.map_append] at h
  rw [List.filter_append, List.filter_cons_of_neg (by simp), ← List.filter_append,
    List.filter_eq_self]
  intro x hx
  have hne : x.ticket ≠ d.ticket := by
    intro hxd
    apply h.1
    rw [← hxd]
    exact List.mem_map_of_mem hx
  simpa using hne

/-- The merge splits the queue into whole jobs. -/
theorem exists_taken_left (limit : Nat) (waiting : List (Job ι)) : ∀ n,
    ∃ merged rest : List (Job ι), taken limit n (waiting.map dev.entry) = merged.map dev.entry ∧
      left limit n (waiting.map dev.entry) = rest.map dev.entry ∧
      (merged ++ rest).Perm waiting := by
  induction waiting with
  | nil => exact fun n => ⟨[], [], rfl, rfl, List.Perm.refl _⟩
  | cons j waiting ih =>
      intro n
      rw [List.map_cons, taken, left]
      by_cases hfits : n + (dev.entry j).n ≤ limit
      · obtain ⟨merged, rest, htaken, hleft, hperm⟩ := ih (n + (dev.entry j).n)
        rw [if_pos hfits, if_pos hfits, htaken, hleft]
        exact ⟨j :: merged, rest, rfl, rfl, hperm.cons j⟩
      · obtain ⟨merged, rest, htaken, hleft, hperm⟩ := ih n
        rw [if_neg hfits, if_neg hfits, htaken, hleft]
        exact ⟨merged, j :: rest, rfl, rfl, List.perm_middle.trans (hperm.cons j)⟩

/-! ## Receiving an answer

The frames of a job are as many as its inputs ask for, so the deal comes out even. -/

theorem decodes_recvResults (replies : List (Reply c))
    (h : ∀ r ∈ replies, r.body.length ≤ 0xffff) :
    Decodes (recvResults replies.length) (replies.flatMap Reply.frameBytes)
      (replies.flatMap Reply.body) := by
  have hloop := Decodes.foldN (u := fun d r => d ++ Reply.body r)
    (f := fun d => unpack 2 >>= fun n => Cursor.take n >>= fun body => pure (d ++ body))
    (l := replies) (fun d r hr => by
      have hlen : r.body.length < 256 ^ 2 := by
        have := h r hr
        omega
      exact (decodes_field hlen).bind ((Decodes.take rfl).map fun body => d ++ body)) []
  have hfold : ∀ (l : List (Reply c)) (d : Bytes),
      l.foldl (fun d r => d ++ r.body) d = d ++ l.flatMap Reply.body := by
    intro l
    induction l with
    | nil => simp
    | cons r l ih => intro d; simp [ih]
  rw [hfold, List.nil_append] at hloop
  exact hloop

/-- The loop over the tickets finds the frames of each job where it looks for them. -/
theorem decodes_recvTickets {ds : List (Done c ι)} (h : ∀ d ∈ ds, d.Valid dev) :
    ∀ results : Dict Nat Bytes,
      Decodes (recvTickets (ds.map fun d => dev.tick d.job) results) (ds.flatMap Done.frames)
        ((ds.map Done.item).foldl (fun r p => r.set p.1 p.2) results) := by
  induction ds with
  | nil => exact fun results => Decodes.pure results
  | cons d ds ih =>
      intro results
      have hd := h d List.mem_cons_self
      have hown := decodes_recvResults d.replies hd.fits
      rw [hd.length_replies] at hown
      exact hown.bind (ih (fun x hx => h x (List.mem_cons_of_mem d hx)) _)

/-! ## Every step keeps the account

`Refines` is the simulation: the state of the system is that of the account, place by place. -/

namespace Refines

variable {s : System c ι κ} {g : Flow c ι}

/-- No ticket is executed twice. -/
theorem nodup_done (h : Refines dev client s g) : (g.done.map Done.ticket).Nodup := by
  have hall : (g.jobs.map Job.ticket).Nodup := by
    rw [(h.jobs.map Job.ticket).nodup_iff, h.tickets]
    exact List.nodup_range
  rw [Flow.jobs, List.map_append, List.map_map] at hall
  exact hall.of_append_right

theorem valid_done (h : Refines dev client s g) : ∀ d ∈ g.done, d.Valid dev :=
  fun d hd => h.valid d (h.log.mem_iff.mpr hd)

theorem init : Refines dev client (System.init : System c ι κ) ⟨[], [], [], [], [], []⟩ where
  queue := rfl
  toClient := rfl
  fromClient := rfl
  inFlight := rfl
  results := rfl
  handed := rfl
  executed := rfl
  phase := Phase.noConfusion
  tickets := rfl
  jobs := List.Perm.refl _
  log := List.Perm.refl _
  valid := by simp
  positive := by simp [System.init]

theorem schedule (h : Refines dev client s g) (inputs : List ι) (priority : Bool)
    (hpos : 1 ≤ dev.numResults inputs) :
    ∃ g', Refines dev client (s.schedule dev inputs priority) g' := by
  let job : Job ι := ⟨s.nextTicket, inputs⟩
  -- wherever the job is put into the queue, all jobs are those of before and this one
  have hperm : ∀ waiting : List (Job ι), waiting.Perm (g.waiting ++ [job]) →
      (g.schedule waiting).jobs.Perm (s.scheduled ++ [job]) := fun _ hwaiting =>
    (Flow.jobs_schedule hwaiting).trans (h.jobs.append_right [job])
  have htickets : (s.scheduled ++ [job]).map Job.ticket = List.range (s.nextTicket + 1) := by
    rw [List.map_append, h.tickets, List.range_succ]
    rfl
  have hpositive : ∀ j ∈ s.scheduled ++ [job], 1 ≤ dev.numResults j.inputs := by
    intro j hj
    rcases List.mem_append.mp hj with hold | hnew
    · exact h.positive j hold
    · obtain rfl := List.mem_singleton.mp hnew
      exact hpos
  cases priority with
  | true =>
      exact ⟨g.schedule (job :: g.waiting),
        { h with
          queue := by simp [System.schedule, Flow.schedule, h.queue, job]
          tickets := htickets
          jobs := hperm _ (List.perm_append_singleton job g.waiting).symm
          log := h.log
          positive := hpositive }⟩
  | false =>
      exact ⟨g.schedule (g.waiting ++ [job]),
        { h with
          queue := by simp [System.schedule, Flow.schedule, h.queue, job]
          tickets := htickets
          jobs := hperm _ (List.Perm.refl _)
          log := h.log
          positive := hpositive }⟩

theorem send (h : Refines dev client s g) {m : Message} {loop : LoopState}
    (hpass : fillPass l s.loop = some (m, loop)) :
    ∃ g', Refines dev client { s with loop := loop, toClient := s.toClient ++ [m] } g' := by
  obtain ⟨-, -, hn, hpacked, rfl⟩ := fillPass_eq_some.mp hpass
  -- what is merged are whole jobs, and the others keep their order
  obtain ⟨merged, rest, htaken, hleft, hperm⟩ := exists_taken_left l.biggerMaxBatchN g.waiting 0
  rw [h.queue, htaken] at hn hpacked
  have hm : m = dev.message merged := by
    rcases m with ⟨n, packed⟩
    simp only [Device.message, Message.mk.injEq]
    refine ⟨by simpa [Device.entry, Function.comp_def] using hn, ?_⟩
    refine hpacked.trans ?_
    rw [Device.packInputs, List.flatMap_assoc, List.flatMap_map]
    rfl
  refine ⟨g.send merged rest,
    { h with
      queue := ?_
      toClient := ?_
      inFlight := ?_
      jobs := (Flow.jobs_send hperm).trans h.jobs
      log := h.log }⟩
  · show left l.biggerMaxBatchN 0 s.loop.queue = rest.map dev.entry
    rw [h.queue, hleft]
  · show s.toClient ++ [m] = (g.sent ++ [merged]).map dev.message
    rw [h.toClient, hm, List.map_append]
    rfl
  · show s.loop.inFlightInputs ++ [_] = _
    rw [h.inFlight, h.queue, htaken, Flow.send, List.map_append, List.append_assoc]
    simp [Device.entry, Device.tick, Function.comp_def]

theorem setPhase (h : Refines dev client s g) {phase : Phase} (hphase : phase ≠ .dead) :
    Refines dev client { s with phase := phase } g :=
  { h with phase := hphase }

/-- The bytes of an answer are the frames of its replies. -/
theorem frames_eq {replies : List (Reply c)} {frames : List Bytes}
    (h : List.Forall₂ (fun r frame => Reply.frame r = some frame) replies frames) :
    frames.flatten = replies.flatMap Reply.frameBytes ∧
      ∀ r ∈ replies, r.body.length ≤ 0xffff := by
  induction h with
  | nil => exact ⟨rfl, by simp⟩
  | @cons r frame replies frames hframe _ ih =>
      obtain ⟨hlen, rfl⟩ := packAnswer_eq_some hframe
      refine ⟨?_, ?_⟩
      · rw [List.flatten_cons, List.flatMap_cons, ih.1]
        rfl
      · rintro x hx
        rcases List.mem_cons.mp hx with rfl | hmem
        · exact hlen
        · exact ih.2 x hmem

theorem answer (h : Refines dev client s g) {m : Message} {rest : List Message}
    {runs : List (ι × List (Reply c))} {frames : List Bytes} (hmsg : s.toClient = m :: rest)
    (hpacked : m.packed = dev.packInputs (runs.map Prod.fst))
    (hexec : ∀ run ∈ runs, dev.exec run.1 run.2)
    (hframes : List.Forall₂ (fun r frame => Reply.frame r = some frame)
      (runs.flatMap Prod.snd) frames) :
    ∃ g', Refines dev client
      { s with
        toClient := rest
        fromClient := s.fromClient ++ [frames.flatten]
        executed := s.executed ++ runs } g' := by
  rw [h.toClient] at hmsg
  obtain ⟨jobs, more, hsent, rfl, rfl⟩ := List.map_eq_cons_iff.mp hmsg
  -- the message determines its inputs, and these fall apart along the jobs
  have hinputs : runs.map Prod.fst = jobs.flatMap Job.inputs := dev.pack_inj hpacked.symm
  obtain ⟨ds, hjobs, hruns⟩ := exists_done jobs runs hinputs
  obtain ⟨hbytes, hfits⟩ := frames_eq hframes
  have hreplies : runs.flatMap Prod.snd = ds.flatMap Done.replies := by
    rw [← hruns, List.flatMap_assoc]
    rfl
  refine ⟨g.answer ds more,
    { h with
      toClient := rfl
      fromClient := ?_
      inFlight := ?_
      executed := ?_
      jobs := (Flow.jobs_answer (hjobs ▸ hsent)).trans h.jobs
      log := (h.log.append_right ds).trans (Flow.done_answer ds more).symm
      valid := ?_ }⟩
  · show s.fromClient ++ [frames.flatten] = _
    rw [h.fromClient, Flow.answer, List.map_append, hbytes, hreplies, List.flatMap_assoc]
    rfl
  · show s.loop.inFlightInputs = _
    rw [h.inFlight, hsent, Flow.answer, List.map_append, List.append_assoc, ← hjobs]
    simp
  · show s.executed ++ runs = _
    rw [h.executed, Flow.answer, List.flatMap_append, hruns]
  · intro d hd
    rcases List.mem_append.mp hd with hold | hnew
    · exact h.valid d hold
    · exact {
        exec := fun run hrun => hexec run (hruns ▸ List.mem_flatMap.mpr ⟨d, hnew, hrun⟩)
        fits := fun r hr => hfits r (hreplies ▸ List.mem_flatMap.mpr ⟨d, hnew, hr⟩) }

theorem recv (h : Refines dev client s g) {data : Bytes} {rest : List Bytes}
    (hdata : s.fromClient = data :: rest) : ∃ g', Refines dev client (s.recv data rest) g' := by
  rw [h.fromClient] at hdata
  obtain ⟨ds, more, hanswered, rfl, rfl⟩ := List.map_eq_cons_iff.mp hdata
  have hflight : s.loop.inFlightInputs = (ds.map fun d => dev.tick d.job) ::
      (more.map (fun ds => ds.map fun d => dev.tick d.job) ++ g.sent.map (·.map dev.tick)) := by
    rw [h.inFlight, hanswered]
    rfl
  have hds : ∀ d ∈ ds, d.Valid dev := by
    intro d hd
    apply h.valid_done
    simp [Flow.done, hanswered, hd]
  -- the answer consists of nothing but the frames of its jobs
  have hparse := decodes_recvTickets hds s.results [] []
  simp only [List.nil_append, List.append_nil, List.length_nil] at hparse
  have hdone : (g.recv ds more).done.Perm g.done := Flow.done_recv hanswered
  -- no ticket arrives twice, so nothing that is stored is overwritten
  have hitems : ((ds.map Done.item).foldl (fun r p => r.set p.1 p.2) s.results).items =
      (g.arrived ++ ds).map Done.item := by
    rw [Dict.items_foldl_set_append, h.results, List.map_append]
    have hnodup := (hdone.map Done.ticket).nodup_iff.mpr h.nodup_done
    simp only [Flow.done, Flow.recv, List.map_append] at hnodup
    rw [h.results, ← List.map_append, List.map_map, List.map_append]
    exact hnodup.of_append_left.of_append_right
  have hrecv : s.recv (ds.flatMap Done.frames) (more.map fun ds => ds.flatMap Done.frames) =
      { s with
        loop := s.loop.pop
        results := (ds.map Done.item).foldl (fun r p => r.set p.1 p.2) s.results
        fromClient := more.map fun ds => ds.flatMap Done.frames
        phase := .fill } := by
    simp only [System.recv, hflight, hparse]
  rw [hrecv]
  exact ⟨g.recv ds more,
    { h with
      fromClient := rfl
      inFlight := by simp [LoopState.pop, Flow.recv, hflight]
      results := hitems
      phase := by simp
      jobs := ((hdone.map Done.job).append_left _).trans h.jobs
      log := h.log.trans hdone.symm }⟩

theorem handOut (h : Refines dev client s g) {ticket : Nat} {data : Bytes}
    (hget : s.results.get? ticket = some data) :
    ∃ g', Refines dev client (s.handOut client ticket data) g' := by
  have hmem := Dict.mem_items_iff.mpr hget
  rw [h.results] at hmem
  obtain ⟨d, hd, heq⟩ := List.mem_map.mp hmem
  obtain ⟨rfl, rfl⟩ := Prod.mk.inj heq
  obtain ⟨before, after, harrived⟩ := List.append_of_mem hd
  have hvalid : d.Valid dev := h.valid_done d (by simp [Flow.done, hd])
  -- no other arrived job has this ticket
  have hnodup := h.nodup_done
  simp only [Flow.done, harrived, List.map_append] at hnodup
  have hothers :
      (before ++ d :: after).filter (fun x => x.ticket ≠ d.ticket) = before ++ after := by
    apply filter_ticket_ne
    rw [List.map_append]
    exact hnodup.of_append_left.of_append_right
  have hdone : (g.handOut before d after).done.Perm g.done := Flow.done_handOut harrived
  -- `parse_results` refuses to parse nothing, but every job has a result
  have hne : d.replies ≠ [] := by
    have hjob : d.job ∈ s.scheduled :=
      h.jobs.subset (List.mem_append_right _ (List.mem_map_of_mem (by simp [Flow.done, hd])))
    have hpos := h.positive d.job hjob
    rw [← hvalid.length_replies] at hpos
    exact List.length_pos_iff.mp hpos
  refine ⟨g.handOut before d after,
    { h with
      results := ?_
      handed := ?_
      jobs := ((hdone.map Done.job).append_left _).trans h.jobs
      log := h.log.trans hdone.symm }⟩
  · show s.results.items.filter (fun p => p.1 ≠ d.ticket) = _
    rw [h.results, harrived, List.filter_map]
    exact congrArg (List.map Done.item) hothers
  · show s.handed ++ [_] = _
    rw [h.handed, Flow.handOut, List.map_append,
      parseResults_bodies client hne hvalid.fromRunner]
    rfl

end Refines

theorem refines_step {s s' : System c ι κ} {g : Flow c ι} (h : Refines dev client s g)
    (hstep : Step l dev client s s') : ∃ g', Refines dev client s' g' := by
  cases hstep with
  | schedule inputs priority hbytes hpos hle => exact h.schedule inputs priority hpos
  | send _ hpass => exact h.send hpass
  | filled _ _ => exact ⟨g, h.setPhase (by decide)⟩
  | timeout _ => exact ⟨g, h.setPhase (by decide)⟩
  | recv _ hdata => exact h.recv hdata
  | answer hmsg hpacked hexec hframes => exact h.answer hmsg hpacked hexec hframes
  | getResults hget => exact h.handOut hget

theorem refines_run {s : System c ι κ}
    (h : ReflTransGen (Step l dev client) System.init s) : ∃ g, Refines dev client s g := by
  induction h with
  | refl => exact ⟨_, Refines.init⟩
  | tail _ hstep ih =>
      obtain ⟨g, hg⟩ := ih
      exact refines_step hg hstep

/-! ## What the workers can rely on

What the account says of the system, in the terms of the workers. -/

/-- The tickets are intact in a state: `log` are the jobs the client executed, in its order. -/
structure Intact (dev : Device c ι) (client : κ) (s : System c ι κ) (log : List (Done c ι)) :
    Prop where
  /-- The client executed the inputs of the log, each of a job that was scheduled, and no job
  twice. -/
  executed : s.executed = log.flatMap Done.runs
  logged : ∀ d ∈ log, d.job ∈ s.scheduled
  once : (log.map Done.ticket).Nodup
  /-- What was handed out for a ticket is what its own inputs were answered with, in order. -/
  handed : ∀ ticket result, (ticket, result) ∈ s.handed →
    ∃ d ∈ log, d.ticket = ticket ∧ ∃ parsed, result = .ok parsed ∧
      List.Forall₂ (fun a p => AnswerReports a.regsBefore client a.answer p) d.replies parsed
  /-- Every ticket is in the queue, in flight, in the results or handed out: one of these, once. -/
  places : (s.loop.queue.map Entry.ticket ++ s.loop.inFlightInputs.flatten.map Prod.fst ++
    s.results.keys ++ s.handed.map Prod.fst).Perm (s.scheduled.map Job.ticket)
  tickets : (s.scheduled.map Job.ticket).Nodup
  /-- No exception stopped the loop. -/
  alive : s.phase ≠ .dead

theorem Refines.intact {s : System c ι κ} {g : Flow c ι} (h : Refines dev client s g) :
    Intact dev client s g.log where
  executed := h.executed
  logged := fun d hd =>
    h.jobs.subset (List.mem_append_right _ (List.mem_map_of_mem (h.log.mem_iff.mp hd)))
  once := (h.log.map Done.ticket).nodup_iff.mpr h.nodup_done
  handed := by
    intro ticket result hmem
    rw [h.handed] at hmem
    obtain ⟨d, hd, heq⟩ := List.mem_map.mp hmem
    obtain ⟨rfl, rfl⟩ := Prod.mk.inj heq
    have hlog : d ∈ g.log := h.log.mem_iff.mpr (List.mem_append_right _ hd)
    exact ⟨d, hlog, rfl, _, rfl, decoded_forall₂_reports client (h.valid d hlog).fromRunner⟩
  places := by
    refine List.Perm.trans ?_ (h.jobs.map Job.ticket)
    have hkeys : s.results.keys = g.arrived.map Done.ticket := by
      rw [Dict.keys, h.results, List.map_map]
      rfl
    have hqueue : s.loop.queue.map Entry.ticket = g.waiting.map Job.ticket := by
      rw [h.queue, List.map_map]
      rfl
    have hhanded : s.handed.map Prod.fst = g.delivered.map Done.ticket := by
      rw [h.handed, List.map_map]
      rfl
    -- the tickets in flight are those of the answered and of the sent jobs
    have hflight : s.loop.inFlightInputs.flatten.map Prod.fst =
        g.answered.flatten.map Done.ticket ++ g.sent.flatten.map Job.ticket := by
      rw [h.inFlight, List.flatten_append, List.map_append, ← List.map_flatten, ← List.map_flatten,
        List.map_map, List.map_map]
      rfl
    have hjob : Job.ticket ∘ Done.job = (Done.ticket : Done c ι → Nat) := rfl
    rw [hkeys, hqueue, hhanded, hflight, ← Multiset.coe_eq_coe]
    simp only [Flow.jobs, Flow.done, List.map_append, List.map_map, hjob, ← Multiset.coe_add]
    abel
  tickets := by
    rw [h.tickets]
    exact List.nodup_range
  alive := h.phase

/-- In every interleaving of workers, loop and client the tickets stay intact. -/
theorem tickets_intact (l : LoopConfig) (dev : Device c ι) (client : κ) (s : System c ι κ)
    (h : ReflTransGen (Step l dev client) System.init s) :
    ∃ log : List (Done c ι), Intact dev client s log := by
  obtain ⟨g, hg⟩ := refines_run h
  exact ⟨g.log, hg.intact⟩

/-- The fault after some number of cycles. -/
def probeReply (b : UInt8) : Reply riscvBuild :=
  ⟨Regs.fill riscvBuild 0, .single { faultingRun with counters := ⟨b.toUInt64, 0⟩ }⟩

/-- One-byte inputs with one result each. -/
def probe : Device riscvBuild UInt8 where
  pack b := [b]
  getNumResults _ := 1
  exec b rs := rs = [probeReply b]
  pack_inj h := by simpa using h
  exec_length h := by rw [h]; rfl
  exec_fromRunner := by
    rintro b rs rfl r hr
    obtain rfl := List.mem_singleton.mp hr
    exact ⟨faultingRun_fromRunner.signum_nonneg, faultingRun_fromRunner.signum_lt,
      faultingRun_fromRunner.si_zero⟩

/-- Two jobs, the second with priority, were merged into one message and answered. -/
def probeAnswered : System riscvBuild UInt8 String where
  loop := ⟨[], [[(1, 1), (0, 2)]], [3]⟩
  phase := .recv
  nextTicket := 2
  results := Dict.empty
  toClient := []
  fromClient := [([3, 1, 2].map fun b => (probeReply b).frame.getD []).flatten]
  scheduled := [⟨0, [1, 2]⟩, ⟨1, [3]⟩]
  executed := [3, 1, 2].map fun b => (b, [probeReply b])
  handed := []

theorem probeAnswered_run :
    ReflTransGen (Step ⟨2, false, by decide⟩ probe "w") System.init probeAnswered := by
  have hfirst : Step ⟨2, false, by decide⟩ probe "w" System.init
      (System.init.schedule probe [1, 2] false) :=
    .schedule [1, 2] false (by decide) (by decide) (by decide)
  have hscheduled := (ReflTransGen.refl.tail hfirst).tail
    (Step.schedule [3] true (by decide) (by decide) (by decide))
  have hsent := (hscheduled.tail (Step.send rfl rfl)).tail (Step.filled rfl rfl)
  have hexec : ∀ run ∈ [3, 1, 2].map fun b => (b, [probeReply b]), probe.exec run.1 run.2 := by
    intro run hrun
    obtain ⟨b, _, rfl⟩ := List.mem_map.mp hrun
    rfl
  have hframes : List.Forall₂ (fun r frame => Reply.frame r = some frame)
      (([3, 1, 2].map fun b => (b, [probeReply b])).flatMap Prod.snd)
      ([3, 1, 2].map fun b => (probeReply b).frame.getD []) :=
    .cons (by decide +kernel) (.cons (by decide +kernel) (.cons (by decide +kernel) .nil))
  exact hsent.tail (Step.answer rfl rfl hexec hframes)

/-- After the answer is received and ticket 0 fetched, ticket 1 is still there. -/
theorem tickets_intact_probe : ∃ s log,
    s.handed.map Prod.fst = [0] ∧ s.results.keys = [1] ∧ Intact probe "w" s log := by
  let received := probeAnswered.recv
    ([3, 1, 2].map fun b => (probeReply b).frame.getD []).flatten []
  have hget : (received.results.get? 0).isSome = true := by decide +kernel
  have hkeys : (received.results.erase 0).keys = [1] := by decide +kernel
  obtain ⟨data, hdata⟩ := Option.isSome_iff_exists.mp hget
  have hreceived := probeAnswered_run.tail (Step.recv rfl rfl)
  obtain ⟨log, hlog⟩ := tickets_intact ⟨2, false, by decide⟩ probe "w" _
    (hreceived.tail (Step.getResults hdata))
  refine ⟨_, log, ?_, hkeys, hlog⟩
  have hnone : received.handed = [] := by decide +kernel
  show (received.handed ++ [(0, _)]).map Prod.fst = [0]
  rw [hnone]
  rfl

end RISCover
