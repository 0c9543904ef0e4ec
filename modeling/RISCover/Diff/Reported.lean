import RISCover.Diff.Complete
import RISCover.Diff.Reproducers

/-!
# What the fuzzer reports

`DiffFuzz.logsDifferences_of_reaches` says that the reproducers are the differences of the analysed
batches: all of them once a batch is completed, in order, and nothing else.
`DiffFuzz.reports_of_reaches` says it of the clients: two clients whose results part are reported,
unless the filters hide the difference, and two clients that are reported did part.
-/

namespace RISCover

namespace DiffFuzz

variable {ι κ α : Type} {u : DiffFuzz κ α}

/-! ## What is logged

`Logs` says of every worker how much of its batch is in the reproducers already, and of a batch that
is given back that all of it is. -/

/-- What was logged of a batch, in this order. -/
def logged (u : DiffFuzz κ α) (files : List (Reproducer κ α)) (b : Nat) : List (LogEntry κ α) :=
  (files.map Reproducer.entry).filter fun entry =>
    decide (b ≤ entry.counter ∧ entry.counter < b + u.batchSize)

/-- How far a worker is with what it has to log. -/
def Worker.Logs [DecidableEq κ] (u : DiffFuzz κ α)
    (analysed : List (Nat × List (List (MultiResult κ)))) (files : List (Reproducer κ α)) :
    Worker κ α → Prop
  | .idle => True
  | .executing b _ => b ∉ analysed.map Prod.fst
  | .logging b _ rest => ∃ resultsPerClient, (b, resultsPerClient) ∈ analysed ∧
      u.logged files b ++ rest = u.differences b resultsPerClient
  | .writing b _ _ entry rest => ∃ resultsPerClient, (b, resultsPerClient) ∈ analysed ∧
      u.logged files b ++ entry :: rest = u.differences b resultsPerClient
  | .quit b => b ∉ analysed.map Prod.fst
  | .exited b _ => ∃ resultsPerClient, (b, resultsPerClient) ∈ analysed ∧
      u.logged files b <+: u.differences b resultsPerClient
  | .raised b => b ∉ analysed.map Prod.fst

/-- What the files are. -/
structure Logs [DecidableEq κ] (u : DiffFuzz κ α) (s : State ι κ α) : Prop where
  nodup : (s.analysed.map Prod.fst).Nodup
  analysed : ∀ p ∈ s.analysed, p.1 ∈ s.claimed ∧ ∃ clients : List κ,
    clients.Sublist u.clients ∧ 2 ≤ clients.length ∧ u.Answered u.batchSize clients p.2
  files : ∀ entry ∈ s.reproducers.map Reproducer.entry,
    ∃ p ∈ s.analysed, entry ∈ u.differences p.1 p.2
  worker : ∀ i, (s.workers i).Logs u s.analysed s.reproducers
  completed : ∀ b ∈ s.completed, ∃ resultsPerClient, (b, resultsPerClient) ∈ s.analysed ∧
    u.logged s.reproducers b = u.differences b resultsPerClient

section

variable [DecidableEq κ] {s s' : State ι κ α} {i : ι} {d : Draws ι} {w : Worker κ α}

theorem logs_init (u : DiffFuzz κ α) : Logs u (init u : State ι κ α) where
  nodup := List.nodup_nil
  analysed := fun _ hp => absurd hp List.not_mem_nil
  files := fun _ hentry => absurd hentry List.not_mem_nil
  worker := fun _ => trivial
  completed := fun _ hb => absurd hb List.not_mem_nil

theorem mem_differences {b : Nat} {resultsPerClient : List (List (MultiResult κ))}
    {entry : LogEntry κ α} (h : entry ∈ u.differences b resultsPerClient) :
    (b ≤ entry.counter ∧ entry.counter < b + u.batchSize) ∧
      entry.inp = u.inputAt entry.counter := by
  obtain ⟨j, hj, hmem⟩ := List.mem_flatMap.mp h
  obtain ⟨split, -, rfl⟩ := List.mem_map.mp hmem
  rw [List.mem_range] at hj
  exact ⟨⟨Nat.le_add_right b j, Nat.add_lt_add_left hj b⟩, rfl⟩

omit [DecidableEq κ] in
theorem logged_append (files : List (Reproducer κ α)) (r : Reproducer κ α) (b : Nat) :
    u.logged (files ++ [r]) b =
      if b ≤ r.entry.counter ∧ r.entry.counter < b + u.batchSize then
        u.logged files b ++ [r.entry] else u.logged files b := by
  rw [logged, List.map_append, List.filter_append]
  split
  next hin => simp [logged, hin]
  next hout => simp [logged, hout]

variable [DecidableEq ι]

/-- Nothing is analysed and nothing logged. -/
theorem Logs.without (h : Logs u s) (hw : w.Logs u s.analysed s.reproducers)
    (hanalysed : s'.analysed = s.analysed) (hfiles : s'.reproducers = s.reproducers)
    (hcompleted : s'.completed = s.completed) (hclaimed : s.claimed ⊆ s'.claimed)
    (hworkers : s'.workers = Function.update s.workers i w) : Logs u s' where
  nodup := hanalysed ▸ h.nodup
  analysed := by
    rw [hanalysed]
    exact fun p hp => ⟨hclaimed (h.analysed p hp).1, (h.analysed p hp).2⟩
  files := by
    rw [hanalysed, hfiles]
    exact h.files
  worker := by
    rw [hanalysed, hfiles, hworkers]
    exact (Function.forall_update_iff s.workers fun _ w =>
      w.Logs u s.analysed s.reproducers).mpr ⟨hw, fun j _ => h.worker j⟩
  completed := by
    rw [hanalysed, hfiles, hcompleted]
    exact h.completed

theorem Logs.analyse (h : Logs u s) (hd : Shares u s d) (hfits : u.Fits s) {b : Nat}
    {inputs : List (FuzzInput α)} {resultsPerClient : List (List (MultiResult κ))} {n : Nat}
    (hw : s.workers i = .executing b inputs) (hle : 2 ≤ (s.clients i).length)
    (hres : u.Answered u.batchSize (s.clients i) resultsPerClient) :
    Logs u ({ s with analysed := s.analysed ++ [(b, resultsPerClient)] }.become i
      (.logging b n (u.differences b resultsPerClient))) := by
  have hbatch : (s.workers i).batch = some b := by
    rw [hw]
    rfl
  have hb := hd.mem_claimed hbatch
  have hnew : b ∉ s.analysed.map Prod.fst := by
    have hlogs := h.worker i
    rw [hw] at hlogs
    exact hlogs
  have hself : (b, resultsPerClient) ∈ s.analysed ++ [(b, resultsPerClient)] :=
    List.mem_append_right _ List.mem_cons_self
  -- nothing of it was logged
  have hnothing : u.logged s.reproducers b = [] := by
    rw [logged, List.filter_eq_nil_iff]
    intro entry hentry hin
    obtain ⟨p, hp, hmem⟩ := h.files entry hentry
    have hne : p.1 ≠ b := fun heq => hnew (heq ▸ List.mem_map_of_mem hp)
    exact hd.disjoint hfits (h.analysed p hp).1 hb hne.symm (mem_differences hmem).1
      (of_decide_eq_true hin)
  have hmono : ∀ {p}, p ∈ s.analysed → p ∈ s.analysed ++ [(b, resultsPerClient)] :=
    fun hp => List.mem_append_left _ hp
  have hsame : ∀ {b' : Nat}, b' ≠ b → b' ∉ s.analysed.map Prod.fst →
      b' ∉ (s.analysed ++ [(b, resultsPerClient)]).map Prod.fst := by
    intro b' hne hnot hmem
    rw [List.map_append, List.mem_append, List.map_singleton, List.mem_singleton] at hmem
    exact hmem.elim hnot hne
  constructor
  · show ((s.analysed ++ [(b, resultsPerClient)]).map Prod.fst).Nodup
    rw [List.map_append, List.nodup_append]
    refine ⟨h.nodup, List.nodup_singleton _, fun a ha a' ha' heq => hnew ?_⟩
    rw [List.map_singleton, List.mem_singleton] at ha'
    rwa [heq, ha'] at ha
  · intro p hp
    rcases List.mem_append.mp hp with hp | hp
    · exact h.analysed p hp
    · obtain rfl := List.mem_singleton.mp hp
      exact ⟨hb, s.clients i, hd.clients i, hle, hres⟩
  · intro entry hentry
    obtain ⟨p, hp, hmem⟩ := h.files entry hentry
    exact ⟨p, hmono hp, hmem⟩
  · refine (Function.forall_update_iff s.workers fun _ w => w.Logs u
      (s.analysed ++ [(b, resultsPerClient)]) s.reproducers).mpr ⟨?_, fun j hj => ?_⟩
    · refine ⟨resultsPerClient, hself, ?_⟩
      rw [hnothing, List.nil_append]
    · have hlogs := h.worker j
      -- the others have other batches
      have hother : (s.workers j).batch ≠ some b := fun hj' =>
        hj (hd.batch_alone hfits hj' hbatch)
      cases hwj : s.workers j with
      | idle => trivial
      | executing b' inputs' =>
          rw [hwj] at hlogs hother
          exact hsame (fun heq => hother (congrArg some heq)) hlogs
      | logging b' n' rest =>
          rw [hwj] at hlogs
          obtain ⟨res, hmem, heq⟩ := hlogs
          exact ⟨res, hmono hmem, heq⟩
      | writing b' n' reproN entry rest =>
          rw [hwj] at hlogs
          obtain ⟨res, hmem, heq⟩ := hlogs
          exact ⟨res, hmono hmem, heq⟩
      | quit b' =>
          rw [hwj] at hlogs hother
          exact hsame (fun heq => hother (congrArg some heq)) hlogs
      | exited b' reproN =>
          rw [hwj] at hlogs
          obtain ⟨res, hmem, heq⟩ := hlogs
          exact ⟨res, hmono hmem, heq⟩
      | raised b' =>
          rw [hwj] at hlogs hother
          exact hsame (fun heq => hother (congrArg some heq)) hlogs
  · intro b' hb'
    obtain ⟨res, hmem, heq⟩ := h.completed b' hb'
    exact ⟨res, hmono hmem, heq⟩

/-- Another file of the batch, which the worker goes on from. -/
theorem Logs.write (h : Logs u s) (hd : Shares u s d) (hfits : u.Fits s) {b n reproN : Nat}
    {entry : LogEntry κ α} {rest : List (LogEntry κ α)}
    (hw : s.workers i = .writing b n reproN entry rest)
    (hgoesOn : ∀ resultsPerClient, (b, resultsPerClient) ∈ s.analysed →
      u.logged (s.reproducers ++ [.mk reproN entry]) b ++ rest =
        u.differences b resultsPerClient →
      w.Logs u s.analysed (s.reproducers ++ [.mk reproN entry])) :
    Logs u
      ({ s with reproducers := s.reproducers ++ [Reproducer.mk reproN entry] }.become i w) := by
  have hbatch : (s.workers i).batch = some b := by
    rw [hw]
    rfl
  have hb := hd.mem_claimed hbatch
  have hlogs := h.worker i
  rw [hw] at hlogs
  obtain ⟨resultsPerClient, hanalysed, heq⟩ := hlogs
  have hentry : entry ∈ u.differences b resultsPerClient := by
    rw [← heq]
    exact List.mem_append_right _ List.mem_cons_self
  have hin := (mem_differences hentry).1
  -- the file belongs to no other batch
  have hsame : ∀ b' ∈ s.claimed, b' ≠ b →
      u.logged (s.reproducers ++ [.mk reproN entry]) b' = u.logged s.reproducers b' := by
    intro b' hb' hne
    rw [logged_append, if_neg (hd.disjoint hfits hb hb' hne hin)]
  constructor
  · exact h.nodup
  · exact h.analysed
  · intro entry' hentry'
    rw [State.become, List.map_append, List.mem_append, List.map_singleton, List.mem_singleton]
      at hentry'
    rcases hentry' with hentry' | rfl
    · exact h.files entry' hentry'
    · exact ⟨_, hanalysed, hentry⟩
  · refine (Function.forall_update_iff s.workers fun _ w => w.Logs u s.analysed
      (s.reproducers ++ [.mk reproN entry])).mpr ⟨hgoesOn resultsPerClient hanalysed ?_,
        fun j hj => ?_⟩
    · rw [logged_append, if_pos hin, List.append_assoc]
      exact heq
    · have hlogs := h.worker j
      have hlogged : ∀ {b'}, (s.workers j).batch = some b' →
          u.logged (s.reproducers ++ [.mk reproN entry]) b' = u.logged s.reproducers b' := by
        intro b' hj'
        refine hsame b' (hd.mem_claimed hj') ?_
        rintro rfl
        exact hj (hd.batch_alone hfits hj' hbatch)
      cases hwj : s.workers j with
      | idle => trivial
      | executing b' inputs' =>
          rw [hwj] at hlogs
          exact hlogs
      | logging b' n' rest' =>
          rw [hwj] at hlogs hlogged
          rw [Worker.Logs, hlogged rfl]
          exact hlogs
      | writing b' n' reproN' entry' rest' =>
          rw [hwj] at hlogs hlogged
          rw [Worker.Logs, hlogged rfl]
          exact hlogs
      | quit b' =>
          rw [hwj] at hlogs
          exact hlogs
      | exited b' reproN' =>
          rw [hwj] at hlogs hlogged
          rw [Worker.Logs, hlogged rfl]
          exact hlogs
      | raised b' =>
          rw [hwj] at hlogs
          exact hlogs
  · intro b' hb'
    obtain ⟨res, hmem, heq'⟩ := h.completed b' hb'
    refine ⟨res, hmem, ?_⟩
    have hne : b' ≠ b := by
      rintro rfl
      exact hd.not_completed hfits hbatch hb'
    show u.logged (s.reproducers ++ [.mk reproN entry]) b' = _
    rw [hsame b' (h.analysed _ hmem).1 hne]
    exact heq'

theorem Logs.complete (h : Logs u s) {b n : Nat} (hw : s.workers i = .logging b n []) :
    Logs u ({ s with
        executedCounter := s.executedCounter + UInt64.ofNat n
        completed := s.completed ++ [b] }.become i .idle) where
  nodup := h.nodup
  analysed := h.analysed
  files := h.files
  worker := (Function.forall_update_iff s.workers fun _ w =>
    w.Logs u s.analysed s.reproducers).mpr ⟨trivial, fun j _ => h.worker j⟩
  completed := by
    intro b' hb'
    rcases List.mem_append.mp hb' with hb' | hb'
    · exact h.completed b' hb'
    · obtain rfl := List.mem_singleton.mp hb'
      have hlogs := h.worker i
      rw [hw] at hlogs
      obtain ⟨res, hmem, heq⟩ := hlogs
      rw [List.append_nil] at heq
      exact ⟨res, hmem, heq⟩

/-- What a step logs. -/
theorem Logs.step (h : Logs u s) (hd : Shares u s d) {d' : Draws ι} (hd' : Shares u s' d')
    (hsound : ∀ i, (s.workers i).Sound u) (hfits' : u.Fits s') (hfits : u.Fits s)
    (hmoves : Moves u s i s') : Logs u s' := by
  have hi := h.worker i
  cases hmoves with
  | claim hw =>
      refine h.without ?_ rfl rfl rfl (List.subset_append_left _ _) rfl
      -- the batch is a new one
      intro hmem
      obtain ⟨p, hp, heq⟩ := List.mem_map.mp hmem
      have hnodup := hd'.claimed_nodup hfits'
      exact (List.nodup_append.mp hnodup).2.2 _ (h.analysed p hp).1 _ List.mem_cons_self heq
  | quit hw hlt =>
      rw [hw] at hi
      refine h.without ?_ rfl rfl rfl (List.Subset.refl _) rfl
      exact hi
  | reject hw hlt hsend =>
      rw [hw] at hi
      refine h.without ?_ rfl rfl rfl (List.Subset.refl _) rfl
      exact hi
  | retry hw hlt hsend hlost =>
      rw [hw] at hi
      refine h.without ?_ rfl rfl rfl (List.Subset.refl _) rfl
      exact hi
  | analyse hw hlt hsend hres hrest =>
      obtain ⟨hres', hentries⟩ := hd.entries_eq hw hlt hres
      obtain rfl := Option.some.inj (hrest.symm.trans hentries)
      exact h.analyse hd hfits hw (Nat.not_lt.mp hlt) hres'
  | unanalysable hw hlt hsend hres hrest =>
      rw [(hd.entries_eq hw hlt hres).2] at hrest
      cases hrest
  | draw hw =>
      rw [hw] at hi
      refine h.without ?_ rfl rfl rfl (List.Subset.refl _) rfl
      exact hi
  | undiffering hw hdiffs =>
      have hs := hsound i
      rw [hw] at hs
      exact absurd (hs _ List.mem_cons_self) hdiffs
  | exit hw hdiffs hmany =>
      exact h.write hd hfits hw fun res hmem heq => ⟨res, hmem, heq ▸ List.prefix_append _ _⟩
  | write hw hdiffs hmany => exact h.write hd hfits hw fun res hmem heq => ⟨res, hmem, heq⟩
  | complete hw => exact h.complete hw

/-- The counters only grow. -/
theorem fits_of_moves (hmoves : Moves u s i s') (hfits' : u.Fits s') : u.Fits s := by
  have hle : s.claimed.length ≤ s'.claimed.length := by
    cases hmoves with
    | claim hw => exact (List.prefix_append s.claimed _).length_le
    | _ => exact Nat.le_refl _
  exact (Nat.add_le_add_left (Nat.mul_le_mul_right u.batchSize hle) _).trans hfits'

theorem logs_of_reaches (h : u.Reaches (init u) s) :
    (∀ i, (s.workers i).Sound u) ∧ (u.Fits s → Logs u s) := by
  induction h with
  | refl => exact ⟨fun _ => trivial, fun _ => logs_init u⟩
  | tail hreach hstep ih =>
      obtain ⟨hsound, hlogs⟩ := ih
      obtain ⟨d, hd⟩ := shares_of_reaches hreach
      obtain ⟨d', hd'⟩ := shares_of_reaches (hreach.tail hstep)
      obtain ⟨i, hmoves⟩ := step_iff.mp hstep
      refine ⟨sound_step hd hsound hmoves, fun hfits' => ?_⟩
      have hfits := fits_of_moves hmoves hfits'
      exact (hlogs hfits).step hd hd' hsound hfits' hfits hmoves

end

/-- What the reproducers are, and what they leave out. -/
structure LogsDifferences [DecidableEq κ] (u : DiffFuzz κ α) (s : State ι κ α) : Prop where
  /-- A batch is analysed once, with the results of two clients or more. -/
  analysed : (s.analysed.map Prod.fst).Nodup ∧ ∀ p ∈ s.analysed, p.1 ∈ s.claimed ∧
    ∃ clients : List κ, clients.Sublist u.clients ∧ 2 ≤ clients.length ∧
      u.Answered u.batchSize clients p.2
  /-- For every input the search goes through, with the splits that are logged. -/
  searched : ∀ p ∈ s.analysed, ∀ j < u.batchSize,
    u.diffTree (row p.2 j) = some (u.splitsOf (row p.2 j))
  /-- Of a completed batch all differences are logged, in order. -/
  completed : ∀ b ∈ s.completed, ∃ resultsPerClient, (b, resultsPerClient) ∈ s.analysed ∧
    u.logged s.reproducers b = u.differences b resultsPerClient
  /-- Of a batch that is not completed, the first ones. -/
  begun : ∀ p ∈ s.analysed, u.logged s.reproducers p.1 <+: u.differences p.1 p.2
  /-- Of a batch that all attempts failed for, none. -/
  failed : ∀ b ∈ s.claimed, b ∉ s.analysed.map Prod.fst → u.logged s.reproducers b = []
  /-- The counter of a reproducer is enough to generate its input again. -/
  regenerated : ∀ entry ∈ s.reproducers.map Reproducer.entry,
    u.generator.generate entry.counter 1 = [{ entry.inp with fullSeq := false }]

section

variable [DecidableEq κ] {s : State ι κ α} {d : Draws ι}

theorem Logs.logsDifferences (h : Logs u s) (hd : Shares u s d) (hfits : u.Fits s) :
    LogsDifferences u s where
  analysed := ⟨h.nodup, h.analysed⟩
  searched := by
    intro p hp j hj
    obtain ⟨-, clients, hsub, hle, hres⟩ := h.analysed p hp
    refine diffTree_eq (Answered.family hres (u.clients_nodup.sublist hsub) hj) ?_
    rwa [← (Answered.row hres hj).length_eq]
  completed := h.completed
  begun := by
    intro p hp
    -- a batch is analysed once
    have hunique : ∀ res, (p.1, res) ∈ s.analysed → res = p.2 := fun res hres =>
      congrArg Prod.snd (List.inj_on_of_nodup_map h.nodup hres hp rfl)
    -- a batch that is not completed is in the hands of one worker, and the worker says how far it
    -- is
    rcases (hd.sharesBatches.once hfits).2.2 p.1 (h.analysed p hp).1 with
      ⟨hcompleted, -⟩ | ⟨-, i, hi, -⟩
    · obtain ⟨res, hres, heq⟩ := h.completed p.1 hcompleted
      rw [heq, hunique res hres]
    · have hlogs := h.worker i
      have hmem : p.1 ∈ s.analysed.map Prod.fst := List.mem_map_of_mem hp
      cases hw : s.workers i with
      | idle =>
          rw [hw] at hi
          cases hi
      | executing b inputs =>
          rw [hw] at hi hlogs
          obtain rfl := Option.some.inj hi
          exact absurd hmem hlogs
      | logging b n rest =>
          rw [hw] at hi hlogs
          obtain rfl := Option.some.inj hi
          obtain ⟨res, hres, heq⟩ := hlogs
          rw [← hunique res hres, ← heq]
          exact List.prefix_append _ _
      | writing b n reproN entry rest =>
          rw [hw] at hi hlogs
          obtain rfl := Option.some.inj hi
          obtain ⟨res, hres, heq⟩ := hlogs
          rw [← hunique res hres, ← heq]
          exact List.prefix_append _ _
      | quit b =>
          rw [hw] at hi hlogs
          obtain rfl := Option.some.inj hi
          exact absurd hmem hlogs
      | exited b reproN =>
          rw [hw] at hi hlogs
          obtain rfl := Option.some.inj hi
          obtain ⟨res, hres, hprefix⟩ := hlogs
          rwa [← hunique res hres]
      | raised b =>
          rw [hw] at hi hlogs
          obtain rfl := Option.some.inj hi
          exact absurd hmem hlogs
  failed := by
    intro b hb hnot
    rw [logged, List.filter_eq_nil_iff]
    intro entry hentry hin
    obtain ⟨p, hp, hmem⟩ := h.files entry hentry
    have hne : p.1 ≠ b := fun heq => hnot (heq ▸ List.mem_map_of_mem hp)
    exact hd.disjoint hfits (h.analysed p hp).1 hb hne.symm (mem_differences hmem).1
      (of_decide_eq_true hin)
  regenerated := by
    intro entry hentry
    obtain ⟨p, -, hmem⟩ := h.files entry hentry
    rw [(mem_differences hmem).2]
    exact generate_one u entry.counter

end

/-- In whatever order the workers go on, and whatever clients they lose: the reproducers are the
differences that the clients' results show, none left out of a completed batch and none logged
twice. -/
theorem logsDifferences_of_reaches [DecidableEq ι] [DecidableEq κ] (u : DiffFuzz κ α)
    (s : State ι κ α) (h : u.Reaches (init u) s) (hfits : u.Fits s) : LogsDifferences u s := by
  obtain ⟨d, hd⟩ := shares_of_reaches h
  exact ((logs_of_reaches h).2 hfits).logsDifferences hd hfits

theorem logsDifferences_of_reaches_twoClients : ∃ s : State (Fin (numWorkers false)) String Nat,
    s.completed = [10] ∧ s.reproducers.map Reproducer.reproN = [1] ∧
      LogsDifferences twoClients s := by
  obtain ⟨s, hs, hclaimed, hcompleted, hfiles⟩ := exists_reaches_twoClients
  have hfits : twoClients.Fits s := by
    rw [Fits, hclaimed]
    decide
  exact ⟨s, hcompleted, hfiles, logsDifferences_of_reaches twoClients s hs hfits⟩

/-! ## Two clients

The search finds two clients apart where they part (`recordsSplitAt_iff`), and what it finds is in a
file once the batch is completed. -/

/-- Where the results of two clients part, the search records it unless it is filtered. -/
theorem exists_split_iff [DecidableEq κ] {ms : List (MultiResult κ)}
    (h : MultiResult.Family u.config u.generator.seqLen ms) {m m' : MultiResult κ} (hm : m ∈ ms)
    (hm' : m' ∈ ms) {n : Nat} (hn : FirstDifferAt n m m') (hill : (m.resultAt n).signum ≠ SIGILL)
    (hill' : (m'.resultAt n).signum ≠ SIGILL) :
    (∃ split ∈ u.splitsOf ms, split.seqLen = n + 1 ∧ split.Separates m.client m'.client) ↔
      MultiResult.FilterSplits u.config.arch (MultiResult.peerResults ms n m) := by
  have hapart : MultiResult.sameAt u.hash n m m' = false :=
    h.not_sameAt_of_firstDifferAt hm hm' hn
  obtain ⟨hclass, hmB, hmB'⟩ := h.exists_class_of_firstDifferAt u.hash hm hm' hn
  obtain ⟨_, _, hr, -, -⟩ := hn.here
  have hlt := (List.getElem?_eq_some_iff.mp hr).1
  -- the class in which the two part is that of the clients that agree with the first one so far
  have hpeers : ms.filter (MultiResult.agreed u.hash n m) =
      ms.filter (MultiResult.agreeBefore n m) :=
    List.filter_congr fun x hx => h.agreed_eq hm hx hlt
  have hrecords := h.recordsSplitAt_iff (List.filter_subset_self _) hmB hmB' hill hill' hapart
  rw [hpeers] at hrecords
  rw [MultiResult.peerResults, ← hrecords, ← hpeers]
  constructor
  · rintro ⟨split, hsplit, -, hsep⟩
    -- a split that separates them was recorded where they part, as two clients part only once
    obtain ⟨k, hk, B, hB, hrec, rfl⟩ := MultiResult.mem_splitsUntil hsplit
    obtain ⟨hx, hx', hdiff⟩ := (MultiResult.separates_client_iff h hB _ hm hm').mp hsep
    obtain rfl := (h.firstDifferAt hk hB hx hx' hdiff).unique hn
    rw [((h.lawful u.hash).eq_filter_of_mem_blocks hB hx).2] at hrec
    exact hrec
  · intro hrec
    have hsplit := (MultiResult.splitAt_eq_some_iff u.hash u.config.arch).mpr ⟨hrec, rfl⟩
    refine ⟨_, List.mem_flatMap.mpr ⟨n, List.mem_range.mpr
      (hlt.trans_le (h.fromRunner m hm).length_le), List.mem_filterMap.mpr ⟨_, hclass, hsplit⟩⟩,
      rfl, ?_⟩
    exact (MultiResult.separates_client_iff h hclass _ hm hm').mpr ⟨hmB, hmB', hapart⟩

/-- What the files of a completed batch say about two clients' results to its `j`-th input. -/
structure Reports [DecidableEq κ] (u : DiffFuzz κ α) (files : List (Reproducer κ α)) (b j : Nat)
    (ms : List (MultiResult κ)) (m m' : MultiResult κ) : Prop where
  /-- Whoever is reported parted at the prefix that the file names. -/
  sound : ∀ r ∈ files, r.entry.counter = b + j → r.entry.split.Separates m.client m'.client →
    ∃ n, r.entry.split.seqLen = n + 1 ∧ FirstDifferAt n m m'
  /-- Whoever parted, without a `SIGILL`, is reported unless that is filtered. -/
  complete : ∀ n, FirstDifferAt n m m' → (m.resultAt n).signum ≠ SIGILL →
    (m'.resultAt n).signum ≠ SIGILL →
    ((∃ r ∈ files, r.entry.counter = b + j ∧ r.entry.split.seqLen = n + 1 ∧
        r.entry.split.Separates m.client m'.client) ↔
      MultiResult.FilterSplits u.config.arch (MultiResult.peerResults ms n m))

section

variable [DecidableEq κ] {files : List (Reproducer κ α)} {b j : Nat}
  {resultsPerClient : List (List (MultiResult κ))}

/-- The files of one input are those of its splits. -/
theorem exists_file_iff (hj : j < u.batchSize)
    (h : u.logged files b = u.differences b resultsPerClient) (split : Split κ) :
    (∃ r ∈ files, r.entry.counter = b + j ∧ r.entry.split = split) ↔
      split ∈ u.splitsOf (row resultsPerClient j) := by
  constructor
  · rintro ⟨r, hr, hcounter, rfl⟩
    have hmem : r.entry ∈ u.differences b resultsPerClient := by
      rw [← h, logged, List.mem_filter]
      exact ⟨List.mem_map_of_mem hr, decide_eq_true (by omega)⟩
    obtain ⟨k, -, hk⟩ := List.mem_flatMap.mp hmem
    obtain ⟨split, hsplit, heq⟩ := List.mem_map.mp hk
    rw [← heq] at hcounter ⊢
    obtain rfl := Nat.add_left_cancel hcounter
    exact hsplit
  · intro hsplit
    have hmem : ⟨b + j, u.inputAt (b + j), split⟩ ∈ u.logged files b := by
      rw [h]
      exact List.mem_flatMap.mpr ⟨j, List.mem_range.mpr hj, List.mem_map_of_mem hsplit⟩
    obtain ⟨r, hr, heq⟩ := List.mem_map.mp (List.mem_filter.mp hmem).1
    exact ⟨r, hr, congrArg LogEntry.counter heq, congrArg LogEntry.split heq⟩

theorem reports (hj : j < u.batchSize)
    (hlogged : u.logged files b = u.differences b resultsPerClient)
    (h : MultiResult.Family u.config u.generator.seqLen (row resultsPerClient j))
    {m m' : MultiResult κ} (hm : m ∈ row resultsPerClient j) (hm' : m' ∈ row resultsPerClient j) :
    Reports u files b j (row resultsPerClient j) m m' where
  sound := by
    intro r hr hcounter hsep
    have hsplit := (exists_file_iff hj hlogged r.entry.split).mp ⟨r, hr, hcounter, rfl⟩
    obtain ⟨n, hn, B, hB, -, heq⟩ := MultiResult.mem_splitsUntil hsplit
    rw [heq] at hsep ⊢
    obtain ⟨hx, hx', hdiff⟩ := (MultiResult.separates_client_iff h hB _ hm hm').mp hsep
    exact ⟨n, rfl, h.firstDifferAt hn hB hx hx' hdiff⟩
  complete := by
    intro n hn hill hill'
    rw [← exists_split_iff h hm hm' hn hill hill']
    constructor
    · rintro ⟨r, hr, hcounter, hlen, hsep⟩
      exact ⟨_, (exists_file_iff hj hlogged _).mp ⟨r, hr, hcounter, rfl⟩, hlen, hsep⟩
    · rintro ⟨split, hsplit, hlen, hsep⟩
      obtain ⟨r, hr, hcounter, rfl⟩ := (exists_file_iff hj hlogged split).mpr hsplit
      exact ⟨r, hr, hcounter, hlen, hsep⟩

end

/-- After every run, the reproducers of a completed batch report which clients' results part, and
where. -/
theorem reports_of_reaches [DecidableEq ι] [DecidableEq κ] (u : DiffFuzz κ α)
    (s : State ι κ α) (h : u.Reaches (init u) s) (hfits : u.Fits s) (b : Nat)
    (hb : b ∈ s.completed) :
    ∃ resultsPerClient, (b, resultsPerClient) ∈ s.analysed ∧ ∀ j < u.batchSize,
      ∀ m ∈ row resultsPerClient j, ∀ m' ∈ row resultsPerClient j,
        Reports u s.reproducers b j (row resultsPerClient j) m m' := by
  have hlogs := (logs_of_reaches h).2 hfits
  obtain ⟨resultsPerClient, hmem, hlogged⟩ := hlogs.completed b hb
  obtain ⟨-, clients, hsub, -, hres⟩ := hlogs.analysed _ hmem
  refine ⟨resultsPerClient, hmem, fun j hj m hm m' hm' => ?_⟩
  exact reports hj hlogged (Answered.family hres (u.clients_nodup.sublist hsub) hj) hm hm'

theorem reports_of_reaches_twoClients : ∃ s : State (Fin (numWorkers false)) String Nat,
    ∃ resultsPerClient, (10, resultsPerClient) ∈ s.analysed ∧ ∀ j < 1,
      ∀ m ∈ row resultsPerClient j, ∀ m' ∈ row resultsPerClient j,
        Reports twoClients s.reproducers 10 j (row resultsPerClient j) m m' := by
  obtain ⟨s, hs, hclaimed, hcompleted, -⟩ := exists_reaches_twoClients
  have hfits : twoClients.Fits s := by
    rw [Fits, hclaimed]
    decide
  exact ⟨s, reports_of_reaches twoClients s hs hfits 10 (by rw [hcompleted]; decide)⟩

end DiffFuzz

end RISCover
