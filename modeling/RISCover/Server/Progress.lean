import RISCover.Server.Queue

/-!
# Progress of the send loop

The fill loop is left only when its guard fails or the queue is empty, so it relies on every pass
to merge something. The merge skips an entry that does not fit, also at the head of the queue, and
an entry over the limit never fits: `progresses_iff` says that this is the only obstacle.
-/

open Relation

namespace RISCover

variable {l : LoopConfig}

/-! ## Runs of the loop

Workers may put entries into the queue between any two passes. -/

/-- One step of the loop: a pass of the fill loop, or, once that is left, an answer to the oldest
message. -/
inductive LoopStep (l : LoopConfig) : LoopState → LoopState → Prop where
  | fill {s s' : LoopState} {m : Message} (h : fillPass l s = some (m, s')) : LoopStep l s s'
  | recv {s : LoopState} (h : fillPass l s = none) (hflight : s.inFlightInputs ≠ []) :
      LoopStep l s s.pop

/-- The message built next contains the head of the queue, it has inputs, and the queue gets
shorter. -/
def PassTakesHead (l : LoopConfig) (s : LoopState) : Prop :=
  ∀ e queue m s', s.queue = e :: queue → fillPass l s = some (m, s') →
    (∃ inputs, s'.inFlightInputs = s.inFlightInputs ++ [(e.ticket, e.n) :: inputs]) ∧
    (∃ packed, m.packed = e.packed ++ packed) ∧
    0 < m.n ∧ s'.queue.length < s.queue.length

/-- What the loop relies on, in every state it reaches from a queue. -/
structure Progresses (l : LoopConfig) (queue : List Entry) : Prop where
  takesHead : ∀ s, ReflTransGen (LoopStep l) (.idle queue) s → PassTakesHead l s
  fillEnds : ∀ s, ReflTransGen (LoopStep l) (.idle queue) s → ∃ fuel, (fillLoop l fuel s).isSome
  headSent : ∀ s, ReflTransGen (LoopStep l) (.idle queue) s → s.queue ≠ [] →
    ∃ s', ReflTransGen (LoopStep l) s s' ∧ s'.queue = s.queue ∧ (fillPass l s').isSome

/-! ## One pass

A pass merges what fits into the batch, and it takes the first entry exactly if that fits on its
own. -/

/-- With nothing in flight the guard of the fill loop holds. -/
theorem mayFill_of_nil {s : LoopState} (h : s.inFlightInputs = []) : s.mayFill l = true := by
  simp [LoopState.mayFill, h]

theorem fillPass_isSome {s : LoopState} :
    (fillPass l s).isSome = true ↔ s.mayFill l = true ∧ s.queue ≠ [] := by
  unfold fillPass
  split
  next h => simpa [List.isEmpty_iff] using h
  next h => simpa [List.isEmpty_iff] using h

/-- A pass leaves nothing in the queue that was not there before. -/
theorem queue_subset_of_step {s s' : LoopState} (h : LoopStep l s s') : s'.queue ⊆ s.queue := by
  cases h with
  | fill h =>
      obtain ⟨-, -, -, -, rfl⟩ := fillPass_eq_some.mp h
      exact fun e he => mem_of_mem_left he
  | recv _ _ => exact fun e he => he

theorem queue_subset_of_run {s s' : LoopState} (h : ReflTransGen (LoopStep l) s s') :
    s'.queue ⊆ s.queue := by
  induction h with
  | refl => exact fun e he => he
  | tail _ hstep ih => exact fun e he => ih (queue_subset_of_step hstep he)

/-- A head within the limit is merged first, so the pass makes progress. -/
theorem passTakesHead_of_le {s : LoopState}
    (h : ∀ e ∈ s.queue, 0 < e.n ∧ e.n ≤ l.biggerMaxBatchN) : PassTakesHead l s := by
  intro e queue m s' hqueue hpass
  obtain ⟨hpos, hle⟩ := h e (hqueue ▸ List.mem_cons_self)
  -- nothing is merged yet, so the head fits as soon as it fits alone
  have hfits : 0 + e.n ≤ l.biggerMaxBatchN := by omega
  obtain ⟨-, -, hn, hpacked, rfl⟩ := fillPass_eq_some.mp hpass
  have htaken : taken l.biggerMaxBatchN 0 s.queue =
      e :: taken l.biggerMaxBatchN (0 + e.n) queue := by
    rw [hqueue, taken, if_pos hfits]
  have hlen : (taken l.biggerMaxBatchN 0 s.queue).length +
      (left l.biggerMaxBatchN 0 s.queue).length = s.queue.length :=
    length_taken_add_left 0 s.queue
  rw [htaken] at hn hpacked hlen
  refine ⟨⟨_, by rw [htaken, List.map_cons]⟩, ⟨_, by rw [hpacked, List.flatMap_cons]⟩, ?_, ?_⟩
  · rw [hn, List.map_cons, List.sum_cons]
    omega
  · show (left l.biggerMaxBatchN 0 s.queue).length < s.queue.length
    rw [List.length_cons] at hlen
    omega

/-! ## The loop

Every pass of a good queue takes at least one entry, so the loop comes to the end of the queue or to
a full connection. -/

/-- The fill loop ends when every pass takes the head: the queue gets shorter each time. -/
theorem fillLoop_isSome (queue : List Entry)
    (h : ∀ e ∈ queue, 0 < e.n ∧ e.n ≤ l.biggerMaxBatchN) (s : LoopState) (hs : s.queue = queue) :
    ∃ fuel, (fillLoop l fuel s).isSome := by
  induction hlen : queue.length using Nat.strong_induction_on generalizing queue s with
  | _ k ih =>
      subst hs
      cases hpass : fillPass l s with
      | none => exact ⟨1, by simp [fillLoop, hpass]⟩
      | some x =>
          obtain ⟨m, s'⟩ := x
          -- the pass took the head, so the queue behind it is shorter
          have hqueue : s.queue ≠ [] := (fillPass_eq_some.mp hpass).2.1
          obtain ⟨e, queue, hcons⟩ := List.exists_cons_of_ne_nil hqueue
          have hshort := (passTakesHead_of_le h e queue m s' hcons hpass).2.2.2
          have hsub := queue_subset_of_step (LoopStep.fill hpass)
          obtain ⟨fuel, hfuel⟩ := ih s'.queue.length (hlen ▸ hshort) s'.queue
            (fun e he => h e (hsub he)) s' rfl rfl
          exact ⟨fuel + 1, by simpa [fillLoop, hpass] using hfuel⟩

/-- Answers alone re-open the fill loop: each takes one message out of flight. -/
theorem exists_fillPass (s : LoopState) (hqueue : s.queue ≠ []) :
    ∃ s', ReflTransGen (LoopStep l) s s' ∧ s'.queue = s.queue ∧ (fillPass l s').isSome := by
  induction hlen : s.inFlightInputs.length generalizing s with
  | zero =>
      have hnil : s.inFlightInputs = [] := List.length_eq_zero_iff.mp hlen
      exact ⟨s, ReflTransGen.refl, rfl, fillPass_isSome.mpr ⟨mayFill_of_nil hnil, hqueue⟩⟩
  | succ k ih =>
      cases hpass : fillPass l s with
      | some x => exact ⟨s, ReflTransGen.refl, rfl, by simp [hpass]⟩
      | none =>
          -- the guard of the fill loop fails, and there is an answer to wait for
          have hflight : s.inFlightInputs ≠ [] := by
            intro hnil
            simp [hnil] at hlen
          obtain ⟨s', hrun, hs', hsome⟩ := ih s.pop hqueue (by simp [LoopState.pop, hlen])
          exact ⟨s', ReflTransGen.head (LoopStep.recv hpass hflight) hrun, hs', hsome⟩

/-- An entry over the limit stays in the queue for ever, so some pass makes no progress. The
induction is on twice the queue plus the messages in flight, which every step would make smaller. -/
theorem not_takesHead_of_lt {s : LoopState} {e : Entry} (he : e ∈ s.queue)
    (hlimit : l.biggerMaxBatchN < e.n) :
    ¬ ∀ s', ReflTransGen (LoopStep l) s s' → PassTakesHead l s' := by
  intro h
  induction hk : 2 * s.queue.length + s.inFlightInputs.length using Nat.strong_induction_on
    generalizing s with
  | _ k ih =>
      subst hk
      have hqueue : s.queue ≠ [] := List.ne_nil_of_mem he
      cases hpass : fillPass l s with
      | some x =>
          -- the pass makes the queue shorter by at least one and sends one message; `e` stays
          obtain ⟨m, s'⟩ := x
          obtain ⟨x, queue, hcons⟩ := List.exists_cons_of_ne_nil hqueue
          have hshort := (h s ReflTransGen.refl x queue m s' hcons hpass).2.2.2
          obtain ⟨he', hflight⟩ : e ∈ s'.queue ∧
              s'.inFlightInputs.length = s.inFlightInputs.length + 1 := by
            obtain ⟨-, -, -, -, rfl⟩ := fillPass_eq_some.mp hpass
            exact ⟨mem_left_of_lt he hlimit, by simp⟩
          exact ih _ (by omega) he'
            (fun t ht => h t (ReflTransGen.head (LoopStep.fill hpass) ht)) rfl
      | none =>
          -- an answer leaves the queue as it is
          have hflight : s.inFlightInputs ≠ [] := by
            intro hnil
            have hsome := fillPass_isSome.mpr ⟨mayFill_of_nil (l := l) hnil, hqueue⟩
            rw [hpass] at hsome
            cases hsome
          have hshort : s.pop.inFlightInputs.length < s.inFlightInputs.length := by
            have hpos := List.length_pos_iff.mpr hflight
            simp only [LoopState.pop, List.length_tail]
            omega
          have hqueue' : s.pop.queue.length = s.queue.length := rfl
          have hrest : ∀ t, ReflTransGen (LoopStep l) s.pop t → PassTakesHead l t :=
            fun t ht => h t (ReflTransGen.head (LoopStep.recv hpass hflight) ht)
          exact ih _ (by omega) (s := s.pop) he hrest rfl

/-- The loop progresses from exactly those queues in which every entry fits a message. -/
theorem progresses_iff (l : LoopConfig) (queue : List Entry) (hpos : ∀ e ∈ queue, 0 < e.n) :
    Progresses l queue ↔ ∀ e ∈ queue, e.n ≤ 2 * l.maxBatchN - 1 := by
  constructor
  · intro h e he
    by_contra hlt
    exact not_takesHead_of_lt (s := .idle queue) he (Nat.lt_of_not_le hlt) h.takesHead
  · intro h
    have hfits : ∀ s, ReflTransGen (LoopStep l) (.idle queue) s →
        ∀ e ∈ s.queue, 0 < e.n ∧ e.n ≤ l.biggerMaxBatchN := by
      intro s hs e he
      have hmem : e ∈ queue := queue_subset_of_run hs he
      exact ⟨hpos e hmem, h e hmem⟩
    exact {
      takesHead := fun s hs => passTakesHead_of_le (hfits s hs)
      fillEnds := fun s hs => fillLoop_isSome s.queue (hfits s hs) s rfl
      headSent := fun s _ hqueue => exists_fillPass s hqueue }

/-- Three entries of which the second has to wait for the next message. -/
theorem progresses_iff_three :
    Progresses ⟨2, false, by decide⟩ [⟨0, 2, [1]⟩, ⟨1, 3, [2]⟩, ⟨2, 1, [3]⟩] ↔
      ∀ e ∈ [(⟨0, 2, [1]⟩ : Entry), ⟨1, 3, [2]⟩, ⟨2, 1, [3]⟩], e.n ≤ 2 * 2 - 1 :=
  progresses_iff ⟨2, false, by decide⟩ [⟨0, 2, [1]⟩, ⟨1, 3, [2]⟩, ⟨2, 1, [3]⟩] (by decide)

/-- With a batch limit of one, an entry with two results: the loop sends empty messages for ever. -/
theorem fillLoop_oversized :
    ¬ Progresses ⟨1, false, by decide⟩ [⟨0, 2, [1, 2]⟩] ∧
    fillPass ⟨1, false, by decide⟩ (.idle [⟨0, 2, [1, 2]⟩]) =
      some (⟨0, []⟩, ⟨[⟨0, 2, [1, 2]⟩], [[]], [0]⟩) ∧
    ∀ fuel, fillLoop ⟨1, false, by decide⟩ fuel (.idle [⟨0, 2, [1, 2]⟩]) = none := by
  refine ⟨?_, by decide, ?_⟩
  · intro h
    exact not_takesHead_of_lt (s := .idle [⟨0, 2, [1, 2]⟩]) (e := ⟨0, 2, [1, 2]⟩) (by decide)
      (by decide) h.takesHead
  · -- every pass adds an empty message, so the bytes in flight stay zero
    have hstuck : ∀ fuel k, fillLoop ⟨1, false, by decide⟩ fuel
        ⟨[⟨0, 2, [1, 2]⟩], List.replicate k [], List.replicate k 0⟩ = none := by
      intro fuel
      induction fuel with
      | zero => intro k; rfl
      | succ fuel ih =>
          intro k
          -- the entry does not fit, so the message is empty and the queue stays
          have hpass : fillPass ⟨1, false, by decide⟩
              ⟨[⟨0, 2, [1, 2]⟩], List.replicate k [], List.replicate k 0⟩ =
              some (⟨0, []⟩,
                ⟨[⟨0, 2, [1, 2]⟩], List.replicate (k + 1) [], List.replicate (k + 1) 0⟩) := by
            rw [fillPass_eq_some, List.replicate_succ', List.replicate_succ']
            simp [LoopState.mayFill, taken, left, LoopConfig.biggerMaxBatchN, maxInFlightBytes]
          rw [fillLoop, hpass]
          exact ih (k + 1)
    exact fun fuel => hstuck fuel 0

end RISCover
