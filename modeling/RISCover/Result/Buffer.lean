import Mathlib.Order.ConditionallyCompleteLattice.Basic
import Mathlib.Order.Lattice.Nat
import RISCover.Lib.LateCheck
import RISCover.Result.Sizes
import RISCover.Server.Queue

/-!
# The buffer for the results of a batch

The client packs one answer after the other into `out_bigbuffer` and compares the offset with the
size only behind each of them. `buffer_safe_iff` says for which builds and batch sizes no byte is
written behind the buffer: the number of inputs comes from the server, which counts results and not
bytes.
-/

open Bytes

namespace RISCover

def OUT_BIGBUFFER_SIZE : Nat := 10 <<< 20

/-! ## Emission

The writes of one answer, as an offset and a length. The assertion comes behind the write of the
body, and the next answer only behind the assertion. -/

section emission

variable {c : Config}

/-- The stretches of `out_bigbuffer` that are written, as offset and length, with
`bigbuffer_out_i = out`. The length of a body is filled in when the body fits it. -/
def emission : (out : Nat) → List (Reply c) → List (Nat × Nat)
  | _, [] => []
  | out, r :: replies =>
      (out + 2, r.body.length) ::
        match r.frame with
        | some frame =>
            (out, 2) ::
              if out + frame.length < OUT_BIGBUFFER_SIZE then emission (out + frame.length) replies
              else []
        | none => []

/-- All bytes of a stretch are bytes of the buffer. -/
def InBuffer (w : Nat × Nat) : Prop := w.1 + w.2 ≤ OUT_BIGBUFFER_SIZE

/-- Bytes of a frame. -/
def Reply.frameSize (r : Reply c) : Nat := 2 + r.body.length

@[simp] theorem frameSize_single (before : Regs c) (r : CResult c) :
    Reply.frameSize ⟨before, .single r⟩ = 3 + innerBytes before r := by
  show 2 + ((Answer.single r).body before).length = _
  rw [length_single, ← Nat.add_assoc]

@[simp] theorem frameSize_multi (before : Regs c) (results : List (CResult c)) :
    Reply.frameSize ⟨before, .multi results⟩ =
      2 + (2 + (results.map (innerBytes before)).sum) := by
  show 2 + ((Answer.multi results).body before).length = _
  rw [length_multi]

/-- The assertion on the length of a body, for the bytes of a frame. -/
def Fits (n : Nat) : Prop := n ≤ 2 + 0xffff

instance : DecidablePred Fits := fun n => inferInstanceAs (Decidable (n ≤ 2 + 0xffff))

theorem Reply.frame_eq (r : Reply c) :
    r.frame = if Fits r.frameSize then some (leBytes 2 r.body.length ++ r.body) else none := by
  have hframe : r.frame = packFrame r.body := by
    unfold Reply.frame Reply.body
    cases r.answer <;> rfl
  rw [hframe, packFrame]
  exact if_congr (by unfold Fits Reply.frameSize; omega) rfl rfl

/-- The loop is one that checks behind its writes. -/
theorem emission_inBuffer_iff (replies : List (Reply c)) : ∀ out,
    (∀ w ∈ emission out replies, InBuffer w) ↔
      ∀ e ∈ LateCheck.ends Fits OUT_BIGBUFFER_SIZE out (replies.map Reply.frameSize),
        e ≤ OUT_BIGBUFFER_SIZE := by
  induction replies with
  | nil => intro out; simp [emission, LateCheck.ends]
  | cons r replies ih =>
      intro out
      -- the body is the last that is written of a frame, so the length is inside when the body is
      have hbody : InBuffer (out + 2, r.body.length) ↔ out + r.frameSize ≤ OUT_BIGBUFFER_SIZE := by
        unfold InBuffer Reply.frameSize
        omega
      rw [emission, List.map_cons, LateCheck.ends, List.forall_mem_cons, List.forall_mem_cons,
        hbody, Reply.frame_eq]
      apply and_congr_right
      intro hend
      have hlength : InBuffer (out, 2) := by
        unfold InBuffer
        unfold Reply.frameSize at hend
        omega
      by_cases hfits : Fits r.frameSize
      · have hframe : (leBytes 2 r.body.length ++ r.body).length = r.frameSize := by
          rw [List.length_append, length_leBytes, Reply.frameSize]
        rw [if_pos hfits]
        simp only [List.forall_mem_cons, hlength, true_and, hframe, hfits]
        -- the assertion lets the next frame begin, or ends the client
        by_cases hroom : out + r.frameSize < OUT_BIGBUFFER_SIZE
        · rw [if_pos hroom, if_pos hroom]
          exact ih _
        · rw [if_neg hroom, if_neg hroom]
          simp
      · simp [hfits]

end emission

/-! ## Answers and batches

A batch has as many answers as its inputs ask for, each of which the runner can produce. -/

/-- What the client may answer to an input: its sequence length and `full_seq` are a byte each. -/
inductive Build.Produces (b : Build) : Reply b.toConfig → Prop where
  | single {before : Regs b.toRegConfig} (runs : Runs b before) {seqLen : Nat} {r}
      (hbyte : seqLen ≤ 255) (hrun : runs.runWithInstrSeq seqLen = some r) :
      Produces b ⟨before, .single r⟩
  | multi {before : Regs b.toRegConfig} (runs : Runs b before) {seqLen : Nat} {results}
      (hbyte : seqLen ≤ 255) (hrun : runs.runWithInstrSeqFullSeq seqLen = some results) :
      Produces b ⟨before, .multi results⟩

/-- How many answers an input has: with `JUST_SEQ_NUM` the `uint16` `n` of the input. -/
def AnswersOf (justSeqNum : Bool) (n : Nat) : Prop :=
  if justSeqNum then n ≤ 0xffff else n = 1

/-- The most answers to an input. -/
def maxAnswers (justSeqNum : Bool) : Nat := if justSeqNum then 0xffff else 1

/-- A batch that the client accepts, as the answers to each of its inputs. -/
structure Accepts (b : Build) (l : LoopConfig) (justSeqNum : Bool)
    (batch : List (List (Reply b.toConfig))) : Prop where
  length_le : batch.length ≤ l.biggerMaxBatchN
  answers : ∀ answers ∈ batch, AnswersOf justSeqNum answers.length
  produced : ∀ answers ∈ batch, ∀ r ∈ answers, b.Produces r

/-- No batch makes the client write behind its buffer. -/
def Build.BufferSafe (b : Build) (l : LoopConfig) (justSeqNum : Bool) : Prop :=
  ∀ batch, Accepts b l justSeqNum batch → ∀ w ∈ emission 0 batch.flatten, InBuffer w

theorem LoopConfig.biggerMaxBatchN_pos (l : LoopConfig) : 0 < l.biggerMaxBatchN := by
  have hpos := l.maxBatchN_pos
  unfold LoopConfig.biggerMaxBatchN
  omega

theorem maxAnswers_pos (justSeqNum : Bool) : 0 < maxAnswers justSeqNum := by
  cases justSeqNum <;> decide

theorem AnswersOf.le {justSeqNum : Bool} {n : Nat} (h : AnswersOf justSeqNum n) :
    n ≤ maxAnswers justSeqNum := by
  cases justSeqNum with
  | false => exact Nat.le_of_eq h
  | true => exact h

/-- The answers to a batch are not more than the inputs can have. -/
theorem Accepts.length_flatten_le {b : Build} {l : LoopConfig} {justSeqNum : Bool}
    {batch : List (List (Reply b.toConfig))} (h : Accepts b l justSeqNum batch) :
    batch.flatten.length ≤ l.biggerMaxBatchN * maxAnswers justSeqNum := by
  have hsum := List.sum_le_card_nsmul (batch.map List.length) (maxAnswers justSeqNum) (by
    intro n hn
    obtain ⟨answers, hmem, rfl⟩ := List.mem_map.mp hn
    exact (h.answers answers hmem).le)
  rw [List.length_map, nsmul_eq_mul, Nat.cast_id] at hsum
  rw [List.length_flatten]
  exact hsum.trans (Nat.mul_le_mul_right _ h.length_le)

/-- Any answers are the answers to some batch, if there are not too many. -/
theorem exists_batch {α : Type} (justSeqNum : Bool) (n : Nat) : ∀ replies : List α,
    replies.length ≤ n * maxAnswers justSeqNum →
      ∃ batch : List (List α), batch.length ≤ n ∧ batch.flatten = replies ∧
        ∀ answers ∈ batch, AnswersOf justSeqNum answers.length := by
  induction n with
  | zero =>
      intro replies h
      rw [Nat.zero_mul, Nat.le_zero, List.length_eq_zero_iff] at h
      exact ⟨[], by simp, by simp [h], by simp⟩
  | succ n ih =>
      intro replies h
      rw [Nat.succ_mul] at h
      by_cases hnil : replies = []
      · exact ⟨[], by simp, by simp [hnil], by simp⟩
      · obtain ⟨batch, hlength, hflatten, hanswers⟩ :=
          ih (replies.drop (maxAnswers justSeqNum)) (by rw [List.length_drop]; omega)
        -- the first input takes as many answers as it can
        refine ⟨replies.take (maxAnswers justSeqNum) :: batch, by simpa using hlength, ?_, ?_⟩
        · rw [List.flatten_cons, hflatten, List.take_append_drop]
        · refine List.forall_mem_cons.mpr ⟨?_, hanswers⟩
          have hpos := List.length_pos_iff.mpr hnil
          rw [List.length_take]
          cases justSeqNum with
          | false => show min 1 replies.length = 1; omega
          | true => show min 0xffff replies.length ≤ 0xffff; omega

/-! ## The largest frames

The largest frame there is, and the largest that fits its length field, are those of the largest
results. -/

/-- The bytes of the frames that a build can produce. -/
def Build.frames (b : Build) : Set Nat := {n | ∃ r, b.Produces r ∧ r.frameSize = n}

/-- The largest frame: one result with a signal, or the results of a longest sequence. -/
def Build.frameMax (b : Build) : Nat :=
  max (3 + b.signalMax) (2 + b.multiMax (min 255 b.MAX_SEQ_LEN))

/-- The largest frame with a body that fits its length field. -/
noncomputable def Build.acceptedMax (b : Build) : Nat := sSup {n | n ∈ b.frames ∧ Fits n}

section frames

variable {b : Build}

theorem multiMax_mono (b : Build) {m n : Nat} (h : m ≤ n) : b.multiMax m ≤ b.multiMax n := by
  have hmul := Nat.mul_le_mul_right b.quietMax (Nat.sub_le_sub_right h 1)
  unfold Build.multiMax
  split <;> split <;> omega

theorem Build.Produces.frameSize_le {r : Reply b.toConfig} (h : b.Produces r) :
    r.frameSize ≤ b.frameMax := by
  unfold Build.frameMax
  cases h with
  | @single before runs seqLen r hbyte hrun =>
      rw [Runs.runWithInstrSeq] at hrun
      split at hrun
      next => cases hrun
      next =>
        obtain rfl := Option.some.inj hrun
        have hinner := innerBytes_le_signalMax (runs.exec_result seqLen)
        rw [frameSize_single]
        omega
  | @multi before runs seqLen results hbyte hrun =>
      have hsum := runs.sum_fullSeqLoop_le seqLen 0 results hrun
      rw [Nat.sub_zero] at hsum
      have hmono := multiMax_mono b (min_le_min_right b.MAX_SEQ_LEN hbyte)
      rw [frameSize_multi]
      omega

/-- The same result for every prefix. -/
def Runs.const {before : Regs b.toRegConfig} {r : CResult b.toConfig} (h : RunResult b before r) :
    Runs b before where
  exec _ := r
  exec_result _ := h

theorem single_mem_frames {before : Regs b.toRegConfig} {r : CResult b.toConfig}
    (h : RunResult b before r) : 3 + innerBytes before r ∈ b.frames := by
  refine ⟨⟨before, .single r⟩, .single (Runs.const h) (Nat.min_le_left 255 b.MAX_SEQ_LEN) ?_, ?_⟩
  · rw [Runs.runWithInstrSeq, if_neg (Nat.not_lt.mpr (Nat.min_le_right 255 _))]
    rfl
  · rw [frameSize_single]

theorem signalMax_mem_frames (b : Build) : 3 + b.signalMax ∈ b.frames := by
  have hmem := single_mem_frames (runResult_largest (b := b) (Regs.fill _ 0) true)
  rwa [innerBytes_largest, if_pos rfl] at hmem

theorem frameMax_isGreatest (b : Build) : IsGreatest b.frames b.frameMax := by
  constructor
  · unfold Build.frameMax
    rcases Nat.lt_or_ge (3 + b.signalMax) (2 + b.multiMax (min 255 b.MAX_SEQ_LEN)) with hlt | hge
    · have hpos : 0 < min 255 b.MAX_SEQ_LEN := by
        by_contra hzero
        rw [Nat.eq_zero_of_not_pos hzero] at hlt
        have htwo : b.multiMax 0 = 2 := rfl
        have hsignal : 22 ≤ b.signalMax := by unfold Build.signalMax; omega
        omega
      obtain ⟨runs, results, hrun, hlength⟩ := exists_multiMax (Regs.fill b.toRegConfig 0) hpos
      rw [max_eq_right hlt.le]
      exact ⟨⟨_, .multi results⟩, .multi runs (le_refl 255) hrun, congrArg (2 + ·) hlength⟩
    · rw [max_eq_left hge]
      exact signalMax_mem_frames b
  · rintro n ⟨r, hr, rfl⟩
    exact hr.frameSize_le

theorem RegConfig.regsMax_le (c : RegConfig) : c.regsMax ≤ 2000 := by
  rcases c with ⟨_ | _, _ | _, _ | _, h⟩ <;> revert h <;> decide +kernel

/-- A single result always fits its length field. -/
theorem fits_signalMax (b : Build) : Fits (3 + b.signalMax) := by
  have hregs := RegConfig.regsMax_le b.toRegConfig
  have hmeta : metaBytes b.toConfig ≤ 4 := by
    unfold metaBytes
    cases b.META <;> cases b.arch <;> simp
  have hmem : b.memMax ≤ 4000 := by
    unfold Build.memMax Arch.CHECK_MEM_MAX_NUMBER_MEM_CHANGES CHECK_MEM_CUT_AT
    cases b.CHECK_MEM <;> cases b.AUTO_MAP_MEM <;> cases b.arch <;> simp
  unfold Fits Build.signalMax
  omega

theorem acceptedMax_isGreatest (b : Build) :
    IsGreatest {n | n ∈ b.frames ∧ Fits n} b.acceptedMax := by
  have hbdd : BddAbove {n | n ∈ b.frames ∧ Fits n} := ⟨2 + 0xffff, fun n hn => hn.2⟩
  have hne : {n | n ∈ b.frames ∧ Fits n}.Nonempty :=
    ⟨_, signalMax_mem_frames b, fits_signalMax b⟩
  exact ⟨Nat.sSup_mem hne hbdd, fun n hn => le_csSup hbdd hn⟩

/-- Where all bodies fit, there is only one bound. -/
theorem acceptedMax_eq {b : Build} (h : Fits b.frameMax) : b.acceptedMax = b.frameMax :=
  (acceptedMax_isGreatest b).unique
    ⟨⟨(frameMax_isGreatest b).1, h⟩, fun _ hn => (frameMax_isGreatest b).2 hn.1⟩

/-- A result without any change is smaller than the largest ones. -/
theorem exists_small (b : Build) :
    ∃ n, (n ∈ b.frames ∧ Fits n) ∧ 0 < n ∧ n < b.acceptedMax := by
  have hrun : RunResult b (Regs.fill _ 0) (b.changed (Regs.fill _ 0) 0 fun _ => false) :=
    runResult_changed _ (by decide) fun _ => rfl
  have hmem := single_mem_frames hrun
  have hlarge := (acceptedMax_isGreatest b).2 ⟨signalMax_mem_frames b, fits_signalMax b⟩
  have hfits := fits_signalMax b
  rw [innerBytes_changed, List.filter_false, if_neg (by simp)] at hmem
  refine ⟨_, ⟨hmem, ?_⟩, ?_, ?_⟩
  all_goals
    unfold Fits Build.signalMax at *
    simp only [packedBytes, List.map_nil, List.sum_nil]
    omega

end frames

/-! ## No byte behind the buffer

The largest frame must fit behind as many accepted ones as a batch can have in front of it. -/

theorem exists_replies {b : Build} (chunks : List Nat) (h : ∀ n ∈ chunks, n ∈ b.frames) :
    ∃ replies : List (Reply b.toConfig), replies.map Reply.frameSize = chunks ∧
      ∀ r ∈ replies, b.Produces r := by
  induction chunks with
  | nil => exact ⟨[], rfl, by simp⟩
  | cons n chunks ih =>
      obtain ⟨r, hr, rfl⟩ := h n List.mem_cons_self
      obtain ⟨replies, rfl, hall⟩ := ih fun m hm => h m (List.mem_cons_of_mem _ hm)
      exact ⟨r :: replies, rfl, List.forall_mem_cons.mpr ⟨hr, hall⟩⟩

theorem bufferSafe_iff_within (b : Build) (l : LoopConfig) (justSeqNum : Bool) :
    b.BufferSafe l justSeqNum ↔
      ∀ chunks : List Nat, chunks.length ≤ l.biggerMaxBatchN * maxAnswers justSeqNum →
        (∀ n ∈ chunks, n ∈ b.frames) → LateCheck.Within Fits OUT_BIGBUFFER_SIZE chunks := by
  constructor
  · intro h chunks hlength hframes
    obtain ⟨replies, rfl, hproduced⟩ := exists_replies chunks hframes
    rw [List.length_map] at hlength
    obtain ⟨batch, hbatch, rfl, hanswers⟩ := exists_batch justSeqNum _ replies hlength
    apply (emission_inBuffer_iff batch.flatten 0).mp
    exact h batch ⟨hbatch, hanswers, fun answers hmem r hr =>
      hproduced r (List.mem_flatten.mpr ⟨answers, hmem, hr⟩)⟩
  · intro h batch hbatch
    apply (emission_inBuffer_iff batch.flatten 0).mpr
    apply h
    · rw [List.length_map]
      exact hbatch.length_flatten_le
    · intro n hn
      obtain ⟨r, hr, rfl⟩ := List.mem_map.mp hn
      obtain ⟨answers, hmem, hr⟩ := List.mem_flatten.mp hr
      exact ⟨r, hbatch.produced answers hmem r hr, rfl⟩

/-- The buffer is large enough exactly when the largest frame fits behind as many of the largest
accepted ones as there can be. -/
theorem buffer_safe_iff (b : Build) (l : LoopConfig) (justSeqNum : Bool) :
    b.BufferSafe l justSeqNum ↔
      (l.biggerMaxBatchN * maxAnswers justSeqNum - 1) * b.acceptedMax + b.frameMax ≤
        OUT_BIGBUFFER_SIZE := by
  obtain ⟨small, hsmall, hpos, hlt⟩ := exists_small b
  rw [bufferSafe_iff_within]
  exact LateCheck.within_iff (frameMax_isGreatest b) (acceptedMax_isGreatest b) hsmall hpos hlt
    (by decide) (Nat.mul_pos l.biggerMaxBatchN_pos (maxAnswers_pos justSeqNum))

/-- The settings without `--step`. -/
def defaultLoop : LoopConfig := ⟨500, false, by decide⟩

/-- The answer to 96 instructions that write one register after the other. -/
def writingReply : Reply longBuild.toConfig :=
  ⟨Regs.fill _ 0, .multi ((List.range' 1 96).map writingRuns.exec)⟩

theorem produces_writingReply : longBuild.Produces writingReply :=
  .multi writingRuns (by decide : 96 ≤ 255)
    (writingRuns.fullSeqLoop_eq (l := 96) (by decide) (fun _ _ => rfl) 96 0 (by omega) (by omega)
      (.inr rfl))

theorem frameSize_writingReply : writingReply.frameSize = 45712 := by
  have hinner : innerBytes (Regs.fill _ 0) ∘ writingRuns.exec = fun n =>
      2 + packedBytes (longBuild.allRegs.filter fun r =>
        r.abiIndex < n && notScrap longBuild.toRegConfig r) :=
    funext fun n => innerBytes_changed _ 0 _
  have hsum : ((List.range' 1 96).map fun n => 2 + packedBytes (longBuild.allRegs.filter fun r =>
      r.abiIndex < n && notScrap longBuild.toRegConfig r)).sum = 45708 := by decide +kernel
  rw [writingReply, frameSize_multi, List.map_map, hinner, hsum]

/-- With the default settings the client may be sent 230 such inputs at once, and writes the last
answer partly behind its buffer. -/
theorem writingReplies_overflow :
    Accepts longBuild defaultLoop false (List.replicate 230 [writingReply]) ∧
      ∃ w ∈ emission 0 (List.replicate 230 [writingReply]).flatten, ¬InBuffer w := by
  constructor
  · refine ⟨by rw [List.length_replicate]; decide, ?_, ?_⟩
    · intro answers hmem
      rw [(List.mem_replicate.mp hmem).2]
      rfl
    · intro answers hmem r hr
      rw [(List.mem_replicate.mp hmem).2, List.mem_singleton] at hr
      rw [hr]
      exact produces_writingReply
  · by_contra hnone
    have hwithin := (emission_inBuffer_iff _ 0).mp fun w hw =>
      not_not.mp fun hout => hnone ⟨w, hw, hout⟩
    have hchunks : (List.replicate 230 [writingReply]).flatten.map Reply.frameSize =
        List.replicate 229 45712 ++ [45712] := by
      rw [List.flatten_replicate_singleton, List.map_replicate, frameSize_writingReply]
      exact List.replicate_succ'
    -- all but the last answer are accepted, and leave too little room for it
    have hsum : (List.replicate 229 45712).sum = 10468048 := by
      rw [List.sum_replicate, nsmul_eq_mul]
      rfl
    rw [hchunks] at hwithin
    have hle := LateCheck.sum_add_le hwithin
      (fun m hm => by rw [(List.mem_replicate.mp hm).2]; decide) (by rw [hsum]; decide)
    rw [hsum] at hle
    exact absurd hle (by decide)

end RISCover
