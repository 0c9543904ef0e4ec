import RISCover.Input.SparseValues
import RISCover.Lib.Pipe
import RISCover.Lib.Stdio
import RISCover.Repro.Log

/-!
# The archive of a worker

For every result that is not a `SIGILL` the worker has `log_repro` write into a pipe, reads the pipe
empty and puts what it read into its archive. The stream on the pipe is closed without a flush, and
every read starts at the front of the same buffer: `archived_iff` says when the entry of the archive
is the text nevertheless.
-/

open Text Bytes

namespace RISCover

/-- `sizeof(buffer)`. -/
def ARCHIVE_BUFFER_SIZE : Nat := 10 * 4096

/-- What a pipe holds on Linux. -/
def PIPE_CAPACITY : Nat := 65536

/-! ## Reading the pipe

Every `read` begins at the front of the buffer, and only the number of bytes goes on. -/

/-- `read(fd, buffer, …)`, which got `chunk`. -/
def readInto (buffer chunk : Bytes) : Bytes := chunk ++ buffer.drop chunk.length

/-- The `while` around `read`; nobody writes to the pipe any more. The result is the buffer and
`total_bytes`. -/
def readLoop (p : Pieces) (pipe : Bytes) (call : Nat) (buffer : Bytes) (totalBytes : Nat) :
    Bytes × Nat :=
  if hpipe : pipe = [] then (buffer, totalBytes)
  else
    let bytesRead := min (p.count call ARCHIVE_BUFFER_SIZE) pipe.length
    have : 0 < bytesRead := by
      have hcount := p.count_pos call ARCHIVE_BUFFER_SIZE (by decide)
      have hlen := List.length_pos_iff.mpr hpipe
      omega
    readLoop p (pipe.drop bytesRead) (call + 1) (readInto buffer (pipe.take bytesRead))
      (totalBytes + bytesRead)
termination_by pipe.length
decreasing_by
  have hlen := List.length_pos_iff.mpr hpipe
  rw [List.length_drop]
  omega

/-! ## The entry

A worker records a result with the registers that it starts every word with, so the text depends on
the result and the processor. -/

/-- `char buffer[10*4096]`, with whatever was in the memory. -/
abbrev ArchiveBuffer := { buffer : Bytes // buffer.length = ARCHIVE_BUFFER_SIZE }

structure ArchiveEntry where
  pathname : Text
  data : Bytes

/-- The registers a worker starts every word with. -/
def workerRegs (c : RegConfig) : Regs c := fun k =>
  Vector.replicate _ (BitVec.ofNat _ (match k with
    | .gp => filler64
    | .fp => filler64
    | .vec => repeatInt64 filler64 (VEC_REG_SIZE / 8)
    | _ => 0))

/-- A result that a worker records: `log_repro` has a text for it, and there was no `SIGILL`. -/
structure Discovery (b : Build) where
  env : LogEnv b.toConfig
  cpu : LoggedCpu
  i : UInt32
  r : LoggedResult b.toConfig
  text : Text
  logRepro_eq : logRepro b env [⟨r, some cpu⟩] [i] (workerRegs _) [] = some text
  recorded : r.signum ≠ 4

namespace Discovery

variable {b : Build} (d : Discovery b)

/-- The characters of the text are bytes. -/
def bytes : Bytes := d.text.map fun c => UInt8.ofNat c.toNat

/-- `"%08lx.yaml"`. -/
def logpath : Text := hexPad 8 d.i.toNat ++ ".yaml".toList

/-- What the worker does with the result: the entry of the archive, or `none` if it waits for ever
or reads behind its buffer. -/
def archiveEntry (io : Stdio) (p : Pieces) (printed : Printed d.bytes) (buffer : ArchiveBuffer) :
    Option ArchiveEntry :=
  -- `close(pipefd[1])` drops what the stream still holds
  let pipe := (io.print printed.pieces).sent
  if pipe.length > PIPE_CAPACITY then none
  else
    let (buffer, totalBytes) := readLoop p pipe 0 buffer.1 0
    if totalBytes > ARCHIVE_BUFFER_SIZE then none
    else some ⟨d.logpath, buffer.take totalBytes⟩

/-- The entry is the text, whatever was in the buffer. -/
def Archived (io : Stdio) (p : Pieces) (printed : Printed d.bytes) : Prop :=
  ∀ buffer, d.archiveEntry io p printed buffer = some ⟨d.logpath, d.bytes⟩

end Discovery

/-! ## What is left of the text

The buffer has the last chunk in front and older ones behind it. It is the text only when there was
one chunk. -/

section readLoop

variable {p : Pieces}

theorem readLoop_nil (call : Nat) (buffer : Bytes) (totalBytes : Nat) :
    readLoop p [] call buffer totalBytes = (buffer, totalBytes) := by
  rw [readLoop, dif_pos rfl]

theorem readLoop_of_ne_nil {pipe : Bytes} (h : pipe ≠ []) (call : Nat) (buffer : Bytes)
    (totalBytes : Nat) : readLoop p pipe call buffer totalBytes =
      readLoop p (pipe.drop (min (p.count call ARCHIVE_BUFFER_SIZE) pipe.length)) (call + 1)
        (readInto buffer (pipe.take (min (p.count call ARCHIVE_BUFFER_SIZE) pipe.length)))
        (totalBytes + min (p.count call ARCHIVE_BUFFER_SIZE) pipe.length) := by
  rw [readLoop, dif_neg h]

theorem length_readInto {buffer chunk : Bytes} (h : chunk.length ≤ buffer.length) :
    (readInto buffer chunk).length = buffer.length := by
  rw [readInto, List.length_append, List.length_drop]
  omega

/-- What lies behind the chunk stays. -/
theorem getElem?_readInto {buffer chunk : Bytes} {q : Nat} (h : chunk.length ≤ q) :
    (readInto buffer chunk)[q]? = buffer[q]? := by
  rw [readInto, List.getElem?_append_right h, List.getElem?_drop]
  congr 1
  omega

/-- All bytes are counted. -/
theorem readLoop_snd (pipe : Bytes) (call : Nat) (buffer : Bytes) (totalBytes : Nat) :
    (readLoop p pipe call buffer totalBytes).2 = totalBytes + pipe.length := by
  fun_induction readLoop p pipe call buffer totalBytes with
  | case1 => rfl
  | case2 pipe call buffer totalBytes hpipe bytesRead hpos ih =>
      rw [ih, List.length_drop]
      omega

theorem length_readLoop_fst (pipe : Bytes) (call : Nat) (buffer : Bytes) (totalBytes : Nat)
    (h : buffer.length = ARCHIVE_BUFFER_SIZE) :
    (readLoop p pipe call buffer totalBytes).1.length = ARCHIVE_BUFFER_SIZE := by
  fun_induction readLoop p pipe call buffer totalBytes with
  | case1 => exact h
  | case2 pipe call buffer totalBytes hpipe bytesRead hpos ih =>
      apply ih
      rw [length_readInto, h]
      rw [List.length_take, h]
      have hle := p.count_le call ARCHIVE_BUFFER_SIZE
      omega

/-- The loop only writes to as much of the buffer as there is in the pipe. -/
theorem getElem?_readLoop {q : Nat} (pipe : Bytes) (call : Nat) (buffer : Bytes)
    (totalBytes : Nat) (h : pipe.length ≤ q) :
    (readLoop p pipe call buffer totalBytes).1[q]? = buffer[q]? := by
  fun_induction readLoop p pipe call buffer totalBytes with
  | case1 => rfl
  | case2 pipe call buffer totalBytes hpipe bytesRead hpos ih =>
      rw [ih (by rw [List.length_drop]; omega)]
      apply getElem?_readInto
      rw [List.length_take]
      omega

end readLoop

namespace Discovery

variable {b : Build} (d : Discovery b) {io : Stdio} {p : Pieces}

theorem archiveEntry_eq_some {printed : Printed d.bytes} {buffer : ArchiveBuffer} {e : ArchiveEntry}
    (h : d.archiveEntry io p printed buffer = some e) :
    (io.print printed.pieces).sent.length ≤ ARCHIVE_BUFFER_SIZE ∧
      e.data = (readLoop p (io.print printed.pieces).sent 0 buffer.1 0).1.take
        (io.print printed.pieces).sent.length := by
  unfold archiveEntry at h
  simp only at h
  split at h
  next => cases h
  next =>
    have htotal := readLoop_snd (p := p) (io.print printed.pieces).sent 0 buffer.1 0
    rw [Nat.zero_add] at htotal
    rw [htotal] at h
    split at h
    next => cases h
    next hle =>
      cases h
      exact ⟨by omega, rfl⟩

/-- Everything is passed on and read at once. -/
theorem archived_of_read_once {printed : Printed d.bytes}
    (hflushed : (io.print printed.pieces).buffered = [])
    (honce : d.bytes.length ≤ p.count 0 ARCHIVE_BUFFER_SIZE) : d.Archived io p printed := by
  intro buffer
  have hsent : (io.print printed.pieces).sent = d.bytes := by
    have happend := io.sent_append_buffered_print printed.pieces
    rwa [hflushed, List.append_nil, printed.flatten_eq] at happend
  have hle := p.count_le 0 ARCHIVE_BUFFER_SIZE
  have hread : readLoop p d.bytes 0 buffer.1 0 =
      (readInto buffer.1 d.bytes, d.bytes.length) := by
    by_cases hempty : d.bytes = []
    · rw [hempty, readLoop_nil]
      rfl
    · rw [readLoop_of_ne_nil hempty, Nat.min_eq_right honce, List.drop_length, readLoop_nil,
        List.take_length, Nat.zero_add]
  have hcapacity : ¬d.bytes.length > PIPE_CAPACITY := by
    have hsize : ARCHIVE_BUFFER_SIZE ≤ PIPE_CAPACITY := by decide
    omega
  unfold archiveEntry
  simp only [hsent, hread]
  rw [if_neg hcapacity, if_neg (by omega), readInto, List.take_left]

/-- What is read in several pieces leaves a byte of the entry to what was in the buffer. -/
theorem read_once_of_archived {printed : Printed d.bytes} (h : d.Archived io p printed) :
    (io.print printed.pieces).buffered = [] ∧
      d.bytes.length ≤ p.count 0 ARCHIVE_BUFFER_SIZE := by
  have hfill : ∀ x : UInt8, (List.replicate ARCHIVE_BUFFER_SIZE x).length = ARCHIVE_BUFFER_SIZE :=
    fun x => List.length_replicate
  have hdata : ∀ buffer : ArchiveBuffer,
      (io.print printed.pieces).sent.length ≤ ARCHIVE_BUFFER_SIZE ∧
        d.bytes = (readLoop p (io.print printed.pieces).sent 0 buffer.1 0).1.take
          (io.print printed.pieces).sent.length :=
    fun buffer => d.archiveEntry_eq_some (h buffer)
  have hsize := (hdata ⟨_, hfill 0⟩).1
  have hlen : d.bytes.length = (io.print printed.pieces).sent.length := by
    have hbytes := congrArg List.length (hdata ⟨_, hfill 0⟩).2
    rwa [List.length_take, length_readLoop_fst _ _ _ _ (hfill 0), Nat.min_eq_left hsize] at hbytes
  have happend := io.sent_append_buffered_print printed.pieces
  rw [printed.flatten_eq] at happend
  have hflushed : (io.print printed.pieces).buffered = [] := by
    apply List.eq_nil_of_length_eq_zero
    have hsum := congrArg List.length happend
    rw [List.length_append] at hsum
    omega
  rw [hflushed, List.append_nil] at happend
  refine ⟨hflushed, ?_⟩
  by_contra hmore
  have hcount := p.count_pos 0 ARCHIVE_BUFFER_SIZE (by decide)
  -- the last byte of the entry is the one that was in the buffer
  have hlast : ∀ buffer : ArchiveBuffer,
      d.bytes[d.bytes.length - 1]? = buffer.1[d.bytes.length - 1]? := by
    intro buffer
    have hne : d.bytes ≠ [] := by
      rintro hempty
      rw [hempty] at hmore
      exact hmore (Nat.zero_le _)
    have hbytes := (hdata buffer).2
    rw [happend] at hbytes
    have hget := congrArg (fun l : Bytes => l[d.bytes.length - 1]?) hbytes
    rw [List.getElem?_take_of_lt (by omega), readLoop_of_ne_nil hne,
      getElem?_readLoop _ _ _ _ (by rw [List.length_drop]; omega),
      getElem?_readInto (by rw [List.length_take]; omega)] at hget
    exact hget
  have hzero := hlast ⟨_, hfill 0⟩
  have hone := hlast ⟨_, hfill 1⟩
  rw [hzero, List.getElem?_replicate, List.getElem?_replicate, if_pos (by omega),
    if_pos (by omega)] at hone
  exact absurd (Option.some.inj hone) (by decide)

end Discovery

/-- The entry of the archive is the text that `log_repro` wrote if and only if the stream had passed
on all of it before its descriptor was closed, and the first `read` got all of it. -/
theorem archived_iff {b : Build} (d : Discovery b) (io : Stdio) (p : Pieces)
    (printed : Printed d.bytes) : d.Archived io p printed ↔
      (io.print printed.pieces).buffered = [] ∧
        d.bytes.length ≤ p.count 0 ARCHIVE_BUFFER_SIZE :=
  ⟨d.read_once_of_archived, fun h => d.archived_of_read_once h.1 h.2⟩

/-- A client for the scan that knows its commit. -/
def scanBuild : Build :=
  ⟨⟨⟨.riscv64, false, false, buildAdmits_integer⟩, false, false⟩, false, false, 1⟩

def scanEnv : LogEnv scanBuild.toConfig :=
  { LogEnv.unknown _ with gitCommit := ⟨List.replicate 40 '0', by decide⟩ }

/-- An instruction that did nothing. -/
def quietResult : LoggedResult scanBuild.toConfig where
  signum := 0
  siAddrr := 0
  siPc := 0
  siCode := 0
  regsResult := workerRegs _
  counters := ⟨0, 0⟩
  memChanges := []
  memChanges_le := Nat.zero_le _
  instrIdx := 0

theorem quietResult_isSome : (logRepro scanBuild scanEnv [⟨quietResult, some ⟨0, 1, 2, 3, 4, 5⟩⟩]
    [0xb] (workerRegs _) []).isSome = true := rfl

def quietDiscovery : Discovery scanBuild where
  env := scanEnv
  cpu := ⟨0, 1, 2, 3, 4, 5⟩
  i := 0xb
  r := quietResult
  text := (logRepro scanBuild scanEnv [⟨quietResult, some ⟨0, 1, 2, 3, 4, 5⟩⟩] [0xb]
    (workerRegs _) []).get quietResult_isSome
  logRepro_eq := (Option.some_get _).symm
  recorded := by decide

theorem length_bytes_quietDiscovery : quietDiscovery.bytes.length = 1449 := by
  rw [Discovery.bytes, List.length_map]
  decide +kernel

/-- With musl the end of the text is missing, however it is cut into pieces before the line break at
its end and however it is read. -/
theorem quietDiscovery_not_archived :
    ¬∃ (p : Pieces) (printed : Printed quietDiscovery.bytes) (head : List Bytes),
      printed.pieces = head ++ [[10]] ∧ quietDiscovery.Archived Stdio.musl p printed := by
  rintro ⟨p, printed, head, hpieces, harchived⟩
  have hlen := congrArg List.length printed.flatten_eq
  rw [hpieces, List.flatten_append, List.length_append, length_bytes_quietDiscovery] at hlen
  have hhead : head.flatten.length = 1448 := Nat.succ.inj hlen
  have hflushed := (quietDiscovery.read_once_of_archived harchived).1
  rw [hpieces] at hflushed
  exact Stdio.buffered_print_musl_ne_nil (by omega) (by omega) hflushed

end RISCover
