import RISCover.Regs
import RISCover.Lib.Dict
import RISCover.Lib.StructPack

/-!
# Inputs with instructions

`FullInput` of the server, and the client's walk over a received batch. In the builds that receive
instructions `struct input` is a header (nothing, selectors, or a whole `struct regs`), the two
bytes `n_instrs` and `full_seq`, and the instruction words behind padding to four bytes; the next
input starts behind the last word.
-/

open Bytes StructPack

namespace RISCover

variable {c : RegConfig}

/-! ## The server's `FullInput`

A sequence can be cut short by `seq_len`, so what is sent is the words up to there. -/

structure FullInput where
  instrSeq : List UInt32
  seqLen : Nat
  fullSeq : Bool
  /-- `seq_len` is the length of the sequence, or shortened later. -/
  seqLen_le : seqLen ≤ instrSeq.length

namespace FullInput

/-- `get_format_string`: `f"BB{self.seq_len}I"`. -/
def getFormatString (inp : FullInput) : Format := [(1, .B), (1, .B), (inp.seqLen, .I)]

/-- `get_instr_seq`. -/
def getInstrSeq (inp : FullInput) : List Nat := (inp.instrSeq.take inp.seqLen).map UInt32.toNat

/-- `get_pack_args`. -/
def getPackArgs (inp : FullInput) : List Arg :=
  ints (inp.seqLen :: inp.fullSeq.toNat :: inp.getInstrSeq)

@[simp] theorem length_getInstrSeq (inp : FullInput) : inp.getInstrSeq.length = inp.seqLen := by
  simpa [getInstrSeq] using inp.seqLen_le

theorem getInstrSeq_lt (inp : FullInput) : ∀ w ∈ inp.getInstrSeq, w < 256 ^ 4 := by
  intro w hw
  obtain ⟨x, _, rfl⟩ := List.mem_map.mp hw
  exact x.toNat_lt

end FullInput

/-! ## The client's `struct input`

The client reads a length and then that many words, so where the next input begins depends on what
it read. -/

/-- `offsetof(struct input, instr_seq)` behind a header of `header` bytes. -/
def offsetofInstrSeq (header : Nat) : Nat := alignUp 4 (header + 2)

/-- `sizeof(struct input)`: with one instruction word. -/
def sizeofInput (header : Nat) : Nat := offsetofInstrSeq header + 4

/-- What the client runs. -/
structure Exec (c : RegConfig) where
  seqLen : Nat
  fullSeq : Bool
  instrSeq : List Nat
  regs : Regs c

/-- Memory of the batch at `p`; a read past the received bytes fails. -/
def readAt (data : Bytes) (p k : Nat) : Option Bytes :=
  if (slice data p k).length = k then some (slice data p k) else none

/-- `n` words from `p` on. -/
def readWords (data : Bytes) : (n p : Nat) → Option (List Nat)
  | 0, _ => some []
  | n + 1, p => do
      let w ← readAt data p 4
      let ws ← readWords data n (p + 4)
      pure (ofLeBytes w :: ws)

/-- One round of the batch loop: `load` makes the registers from the header. -/
def readInput (header : Nat) (load : Bytes → Option (Regs c)) (data : Bytes) (p : Nat) :
    Option (Exec c) := do
  let head ← readAt data p header
  let regs ← load head
  let nInstrs ← readAt data (p + header) 1
  let fullSeq ← readAt data (p + header + 1) 1
  let instrSeq ← readWords data (ofLeBytes nInstrs) (p + offsetofInstrSeq header)
  pure ⟨ofLeBytes nInstrs, ofLeBytes fullSeq != 0, instrSeq, regs⟩

/-- The pointer to the next input. Without an instruction `n_instrs - 1` is negative. -/
def nextInput (header p nInstrs : Nat) : Nat := p + sizeofInput header + nInstrs * 4 - 4

/-- The loop over the `n` inputs of a batch, and the pointer at its end. -/
def walkInputs (header : Nat) (load : Bytes → Option (Regs c)) (data : Bytes) :
    (n p : Nat) → Option (List (Exec c) × Nat)
  | 0, p => some ([], p)
  | n + 1, p => do
      let e ← readInput header load data p
      let (es, q) ← walkInputs header load data n (nextInput header p e.seqLen)
      pure (e :: es, q)

/-! ## Reading what was packed

What stands in front of an input and behind it does not matter, except for the alignment. -/

/-- The bytes of one input. -/
def inputBytes (head : Bytes) (n : Nat) (fullSeq : Bool) (words : List Nat) : Bytes :=
  head ++ [UInt8.ofNat n, UInt8.ofNat fullSeq.toNat] ++
    List.replicate (padding 4 (head.length + 2)) 0 ++ words.flatMap (leBytes 4)

theorem readAt_mid (pre bs post : Bytes) :
    readAt (pre ++ (bs ++ post)) pre.length bs.length = some bs := by
  rw [readAt, ← List.append_assoc, slice_mid, if_pos rfl]

theorem readWords_mid {words : List Nat} (h : ∀ w ∈ words, w < 256 ^ 4) :
    ∀ pre post : Bytes,
      readWords (pre ++ (words.flatMap (leBytes 4) ++ post)) words.length pre.length =
        some words := by
  induction words with
  | nil => intro pre post; rfl
  | cons w words ih =>
      intro pre post
      have hfirst := readAt_mid pre (leBytes 4 w) (words.flatMap (leBytes 4) ++ post)
      have hrest := ih (fun x hx => h x (List.mem_cons_of_mem w hx)) (pre ++ leBytes 4 w) post
      rw [length_leBytes] at hfirst
      rw [List.length_append, length_leBytes, List.append_assoc] at hrest
      rw [List.flatMap_cons, List.append_assoc, List.length_cons, readWords, hfirst]
      show (readWords _ words.length (pre.length + 4)).bind _ = _
      rw [hrest, ofLeBytes_leBytes_of_lt (h w List.mem_cons_self)]
      rfl

section Input

variable {head : Bytes} {fullSeq : Bool} {words : List Nat}

theorem length_inputBytes :
    (inputBytes head words.length fullSeq words).length =
      offsetofInstrSeq head.length + 4 * words.length := by
  have hwords : (words.flatMap (leBytes 4)).length = 4 * words.length := by
    rw [List.length_flatMap]
    simp [Nat.mul_comm]
  rw [inputBytes, List.length_append, hwords, offsetofInstrSeq, alignUp]
  simp only [List.length_append, List.length_cons, List.length_nil, List.length_replicate]

/-- The round reads back what was packed, wherever it stands in the batch. -/
theorem readInput_inputBytes {load : Bytes → Option (Regs c)} {regs : Regs c}
    (hload : load head = some regs) (hlen : words.length ≤ 255)
    (hwords : ∀ w ∈ words, w < 256 ^ 4) (pre post : Bytes) :
    readInput head.length load (pre ++ (inputBytes head words.length fullSeq words ++ post))
        pre.length = some ⟨words.length, fullSeq, words, regs⟩ := by
  have hn : leBytes 1 words.length = [UInt8.ofNat words.length] := rfl
  have hfull : leBytes 1 fullSeq.toNat = [UInt8.ofNat fullSeq.toNat] := rfl
  have hflag : (ofLeBytes (leBytes 1 fullSeq.toNat) != 0) = fullSeq := by
    cases fullSeq <;> decide
  generalize hpad : List.replicate (padding 4 (head.length + 2)) (0 : UInt8) = pad
  have hpadLen : pad.length = padding 4 (head.length + 2) := by rw [← hpad]; simp
  have hdata : pre ++ (inputBytes head words.length fullSeq words ++ post) =
      pre ++ (head ++ (leBytes 1 words.length ++ (leBytes 1 fullSeq.toNat ++
        (pad ++ (words.flatMap (leBytes 4) ++ post))))) := by
    simp [inputBytes, hn, hfull, hpad]
  rw [hdata]
  -- every read stands behind the fields in front of it
  have h₁ := readAt_mid pre head (leBytes 1 words.length ++ (leBytes 1 fullSeq.toNat ++
    (pad ++ (words.flatMap (leBytes 4) ++ post))))
  have h₂ := readAt_mid (pre ++ head) (leBytes 1 words.length) (leBytes 1 fullSeq.toNat ++
    (pad ++ (words.flatMap (leBytes 4) ++ post)))
  have h₃ := readAt_mid (pre ++ head ++ leBytes 1 words.length) (leBytes 1 fullSeq.toNat)
    (pad ++ (words.flatMap (leBytes 4) ++ post))
  have h₄ := readWords_mid hwords
    (pre ++ head ++ leBytes 1 words.length ++ leBytes 1 fullSeq.toNat ++ pad) post
  have hoff : pre.length + offsetofInstrSeq head.length =
      pre.length + head.length + 1 + 1 + pad.length := by
    rw [hpadLen, offsetofInstrSeq, alignUp]
    omega
  simp only [List.append_assoc, List.length_append, length_leBytes] at h₁ h₂ h₃ h₄
  rw [← Nat.add_assoc] at h₃
  rw [show pre.length + (head.length + (1 + (1 + pad.length))) =
    pre.length + offsetofInstrSeq head.length by omega] at h₄
  have hn1 := ofLeBytes_leBytes_of_lt (show words.length < 256 ^ 1 by omega)
  simp only [readInput, h₁, hload, h₂, h₃, hn1, h₄, hflag, Option.bind_eq_bind, Option.bind_some]
  rfl

theorem nextInput_inputBytes (pre : Bytes) :
    nextInput head.length pre.length words.length =
      (pre ++ inputBytes head words.length fullSeq words).length := by
  rw [List.length_append, length_inputBytes, nextInput, sizeofInput]
  omega

end Input

/-- The walk over packed inputs: `enc x` is the head of `x`, `out x` what the client runs for it. -/
theorem walkInputs_flatMap {α : Type} {header : Nat} {load : Bytes → Option (Regs c)}
    (enc : α → Bytes) (out : α → Exec c) (inputs : List α)
    (hlen : ∀ x ∈ inputs, (enc x).length = header)
    (hload : ∀ x ∈ inputs, load (enc x) = some (out x).regs)
    (hseq : ∀ x ∈ inputs, (out x).seqLen = (out x).instrSeq.length ∧ (out x).seqLen ≤ 255 ∧
      ∀ w ∈ (out x).instrSeq, w < 256 ^ 4) :
    ∀ pre : Bytes,
      walkInputs header load
        (pre ++ inputs.flatMap fun x =>
          inputBytes (enc x) (out x).seqLen (out x).fullSeq (out x).instrSeq)
        inputs.length pre.length =
      some (inputs.map out, (pre ++ inputs.flatMap fun x =>
        inputBytes (enc x) (out x).seqLen (out x).fullSeq (out x).instrSeq).length) := by
  induction inputs with
  | nil => intro pre; simp [walkInputs]
  | cons x inputs ih =>
      intro pre
      obtain ⟨hx, h255, hwords⟩ := hseq x List.mem_cons_self
      obtain rfl := hlen x List.mem_cons_self
      -- the first input, with all others behind it
      have hread : ∀ post, readInput (enc x).length load
          (pre ++ (inputBytes (enc x) (out x).instrSeq.length (out x).fullSeq (out x).instrSeq ++
            post)) pre.length = some ⟨(out x).instrSeq.length, (out x).fullSeq, (out x).instrSeq,
              (out x).regs⟩ :=
        readInput_inputBytes (hload x List.mem_cons_self) (hx ▸ h255) hwords pre
      -- the walk goes on where the next input was packed
      have hnext : nextInput (enc x).length pre.length (out x).instrSeq.length =
          (pre ++ inputBytes (enc x) (out x).instrSeq.length (out x).fullSeq
            (out x).instrSeq).length :=
        nextInput_inputBytes pre
      rw [← hx] at hread hnext
      have hrest := ih (fun y hy => hlen y (List.mem_cons_of_mem x hy))
        (fun y hy => hload y (List.mem_cons_of_mem x hy))
        (fun y hy => hseq y (List.mem_cons_of_mem x hy))
        (pre ++ inputBytes (enc x) (out x).seqLen (out x).fullSeq (out x).instrSeq)
      rw [List.append_assoc] at hrest
      rw [List.flatMap_cons, List.length_cons, walkInputs, hread]
      show (walkInputs (enc x).length load _ inputs.length
        (nextInput (enc x).length pre.length (out x).seqLen)).bind _ = _
      rw [hnext, hrest]
      rfl

/-! ## Packing the instructions

The format string of the server aligns as the struct does, so no padding is written between the
fields. -/

/-- What every `pack` ends with: counts and words behind the registers in `out`. -/
theorem packItems_fullInput (inp : FullInput) (out buf : Bytes) :
    packItems inp.getFormatString out inp.getPackArgs = some buf ↔
      inp.seqLen ≤ 255 ∧ buf = inputBytes out inp.seqLen inp.fullSeq inp.getInstrSeq := by
  have hflag : inp.fullSeq.toNat < 256 ^ Code.B.size := by cases inp.fullSeq <;> decide
  have hpad : ∀ n, padding Code.B.size n = 0 := fun n => by simp [padding, Code.size, Nat.mod_one]
  -- the words end the message, each of which fits its four bytes
  have hwords := packItems_cons inp.length_getInstrSeq
    (show ∀ w ∈ inp.getInstrSeq, w < 256 ^ Code.I.size from inp.getInstrSeq_lt) [] (out ++
    leBytes 1 inp.seqLen ++ leBytes 1 inp.fullSeq.toNat) []
  rw [List.append_nil] at hwords
  have hlen : (out ++ leBytes 1 inp.seqLen ++ leBytes 1 inp.fullSeq.toNat).length =
      out.length + 2 := by simp
  rw [FullInput.getFormatString, FullInput.getPackArgs, ints, List.map_cons, List.map_cons,
    packItems_one, packItems_one, if_pos hflag, hpad, hpad, List.replicate_zero, List.append_nil,
    List.append_nil]
  -- only the length of the sequence can be too large for its byte
  by_cases hn : inp.seqLen < 256 ^ Code.B.size
  · have h255 : inp.seqLen ≤ 255 := by simpa [Code.size, Nat.lt_succ_iff] using hn
    rw [if_pos hn]
    show packItems [(inp.seqLen, .I)] _ (ints inp.getInstrSeq) = _ ↔ _
    rw [show Code.B.size = 1 from rfl, hwords, hlen, packItems]
    simp only [List.isEmpty_nil, if_true, Option.some.injEq, h255, true_and, inputBytes]
    rw [eq_comm]
    simp [Code.size, leBytes]
  · have h255 : ¬ inp.seqLen ≤ 255 := by simpa [Code.size, Nat.lt_succ_iff] using hn
    rw [if_neg hn]
    simp [h255]

/-! ## Batches

The inputs are packed one by one, and one that cannot be packed raises for the whole batch. -/

/-- `pack_inputs`: `b"".join([inp.pack() for inp in inputs])`. -/
def packInputs {α : Type} (pack : α → Option Bytes) : List α → Option Bytes
  | [] => some []
  | inp :: inputs => do
      let bs ← pack inp
      let rest ← packInputs pack inputs
      pure (bs ++ rest)

/-- When `pack` succeeds exactly under `P`, so does packing a batch. -/
theorem packInputs_eq_some {α : Type} {pack : α → Option Bytes} {P : α → Prop} {enc : α → Bytes}
    (inputs : List α) (h : ∀ x ∈ inputs, ∀ bs, pack x = some bs ↔ P x ∧ bs = enc x) (buf : Bytes) :
    packInputs pack inputs = some buf ↔ (∀ x ∈ inputs, P x) ∧ buf = inputs.flatMap enc := by
  induction inputs generalizing buf with
  | nil => simp [packInputs, eq_comm]
  | cons x inputs ih =>
      have hx := h x List.mem_cons_self
      have hrest := ih fun y hy => h y (List.mem_cons_of_mem x hy)
      rw [List.forall_mem_cons, List.flatMap_cons, packInputs]
      constructor
      · intro hpack
        obtain ⟨bs, hbs, hpack⟩ := Option.bind_eq_some_iff.mp hpack
        obtain ⟨rest, hpacked, heq⟩ := Option.bind_eq_some_iff.mp hpack
        obtain ⟨hP, rfl⟩ := (hx bs).mp hbs
        obtain ⟨hall, rfl⟩ := (hrest rest).mp hpacked
        exact ⟨⟨hP, hall⟩, (Option.some.inj heq).symm⟩
      · rintro ⟨⟨hP, hall⟩, rfl⟩
        refine Option.bind_eq_some_iff.mpr ⟨enc x, (hx _).mpr ⟨hP, rfl⟩, ?_⟩
        exact Option.bind_eq_some_iff.mpr ⟨_, (hrest _).mpr ⟨hall, rfl⟩, rfl⟩

/-! ## Registers by name

`decode_regs` sets registers by name, in the order of the classes. No name occurs twice, so a lookup
finds the value that was set for it. -/

/-- The assignments `regs[r] = v` of `decode_regs`, when the registers of each class have the
values `f` and `extras` are set last. -/
def assignments (c : RegConfig) (f : RegClass → List Nat) (extras : List (String × Nat)) :
    List (String × Nat) :=
  (c.names .gp).zip (f .gp) ++ (c.names .fp).zip (f .fp) ++ (c.names .vec).zip (f .vec) ++ extras

/-- The names of the control registers that both `decode_regs` may set to zero. -/
def controlNames : Arch → List String
  | .riscv64 => ["fcsr"]
  | .aarch64 => ["pstate", "fpsr"]

theorem names_append_controlNames_nodup (c : RegConfig) :
    (c.names .gp ++ c.names .fp ++ c.names .vec ++ controlNames c.arch).Nodup := by
  rcases c with ⟨_ | _, _ | _, _ | _, h⟩ <;> revert h <;> decide +kernel

/-- Every control register of the configuration has one of these names. -/
theorem names_subset_controlNames (c : RegConfig) :
    c.names .pstate ++ c.names .fcsr ++ c.names .fpsr ⊆ controlNames c.arch := by
  rcases c with ⟨_ | _, _ | _, _ | _, h⟩ <;> revert h <;> decide +kernel

theorem Reg.name_mem_zip (r : Reg c) {vals : List Nat} (hlen : vals.length = c.count r.1) :
    (r.name, vals.getD r.2 0) ∈ (c.names r.1).zip vals := by
  apply List.mem_of_getElem? (i := r.2.1)
  have hlt : r.2.1 < vals.length := by rw [hlen]; exact r.2.2
  rw [List.getElem?_zip_eq_some]
  refine ⟨Reg.names_getElem r, ?_⟩
  rw [List.getD_eq_getElem?_getD, List.getElem?_eq_getElem hlt]
  rfl

/-- `decode_regs` reports the value of every register of the configuration under its name. -/
theorem get?_assignments {f : RegClass → List Nat} (hlen : ∀ k, (f k).length = c.count k)
    (hzero : ∀ k, k ∈ [RegClass.pstate, .fcsr, .fpsr] → ∀ v ∈ f k, v = 0)
    {extras : List (String × Nat)} (hextras : extras.map Prod.fst ⊆ controlNames c.arch)
    (hnodup : (extras.map Prod.fst).Nodup) (hvalues : ∀ p ∈ extras, p.2 = 0)
    (hcovers : c.names .pstate ++ c.names .fcsr ++ c.names .fpsr ⊆ extras.map Prod.fst)
    (r : Reg c) :
    ((assignments c f extras).foldl (fun d p => d.set p.1 p.2) Dict.empty).get? r.name =
      some ((f r.1).getD r.2 0) := by
  have hkeys : ∀ k, ((c.names k).zip (f k)).map Prod.fst = c.names k := by
    intro k
    rw [List.map_fst_zip]
    rw [RegConfig.length_names, hlen]
  have hdistinct : ((assignments c f extras).map Prod.fst).Nodup := by
    have hall := names_append_controlNames_nodup c
    simp only [assignments, List.map_append, hkeys]
    rw [List.nodup_append] at hall ⊢
    exact ⟨hall.1, hnodup, fun a ha b hb => hall.2.2 a ha b (hextras hb)⟩
  rw [← Dict.mem_items_iff, Dict.items_foldl_set _ hdistinct]
  have hzip := Reg.name_mem_zip r (hlen r.1)
  -- a control register is zero and gets its zero from `extras`
  have hcontrol : r.1 ∈ [RegClass.pstate, .fcsr, .fpsr] →
      (r.name, (f r.1).getD r.2 0) ∈ assignments c f extras := by
    intro hk
    have hv : (f r.1).getD r.2 0 = 0 := hzero r.1 hk _ (List.of_mem_zip hzip).2
    have hname : r.name ∈ c.names r.1 := (List.of_mem_zip hzip).1
    have hmem : r.name ∈ extras.map Prod.fst := by
      apply hcovers
      simp only [List.mem_cons, List.not_mem_nil, or_false] at hk
      rcases hk with hk | hk | hk <;> rw [hk] at hname <;> simp [hname]
    obtain ⟨p, hp, hpname⟩ := List.mem_map.mp hmem
    rw [hv, ← hpname, ← hvalues p hp]
    exact List.mem_append_right _ hp
  -- the others are assigned from their lists
  have hzipped : ∀ k ∈ [RegClass.gp, .fp, .vec],
      (c.names k).zip (f k) ⊆ assignments c f extras := by
    intro k hk p hp
    simp only [List.mem_cons, List.not_mem_nil, or_false] at hk
    rcases hk with rfl | rfl | rfl <;> simp [assignments, hp]
  obtain ⟨k, i⟩ := r
  cases k with
  | gp => exact hzipped .gp (by decide) hzip
  | fp => exact hzipped .fp (by decide) hzip
  | vec => exact hzipped .vec (by decide) hzip
  | pstate => exact hcontrol (by simp)
  | fcsr => exact hcontrol (by simp)
  | fpsr => exact hcontrol (by simp)

end RISCover
