import RISCover.Lib.Pipe

/-!
# Messages between client and server

A message is its length in four bytes and its bytes. Both sides receive in a loop and the server
sends in one (`sendall`), but the client's `send_msg` calls `send` once for the length and once for
the bytes, and of what these return it only looks for the error. `framed_iff` says what follows.
-/

open Bytes Pipe

namespace RISCover

/-- What one call of `send` or `recv` moves at most on Linux, so that `int res` can hold it. -/
def MAX_RW_COUNT : Nat := 0x7ffff000

/-- The calls on one end of the connection. -/
structure Kernel extends Pieces where
  most_eq : most = MAX_RW_COUNT

/-- A message and the limit under which the other side receives it; the sender keeps to it. -/
structure Sent where
  bytes : Bytes
  maxSize : Option Nat
  lt : bytes.length < 2 ^ 32
  le : ∀ m, maxSize = some m → bytes.length ≤ m

/-- A message as it should be on the wire. -/
def frameOf (bytes : Bytes) : Bytes := leBytes 4 bytes.length ++ bytes

/-! ## The server

`sendall` and the loop of `recv_all` hide short calls of the kernel. -/

namespace Server

/-- `send_msg`: the bytes on the wire and the number of the next call. -/
def sendMsg (k : Kernel) (calls : Nat) (buf : Bytes) : Bytes × Nat :=
  let (header, calls) := writeAll k.toPieces calls (leBytes 4 buf.length)
  let (body, calls) := writeAll k.toPieces calls buf
  (header ++ body, calls)

/-- `recv_hdr`. -/
def recvHdr (k : Kernel) (r : Reader) : Option (Nat × Reader) := do
  let (header, r) ← readAll k.toPieces 4 r
  pure (ofLeBytes header, r)

/-- `recv_msg`; `none` is an exception or a call that waits for ever. -/
def recvMsg (k : Kernel) (maxSize : Option Nat) (r : Reader) : Option (Bytes × Reader) := do
  let (n, r) ← recvHdr k r
  -- a limit of 0 is no limit
  if maxSize.any fun m => m != 0 && decide (m < n) then none
  else readAll k.toPieces n r

end Server

/-! ## The client

The client's `recv_all` is a loop as well, but `send_msg` calls `send` only once for each part. -/

namespace Client

/-- `send_msg`. -/
def sendMsg (k : Kernel) (calls : Nat) (buffer : Bytes) : Bytes × Nat :=
  let (header, calls) := writeOnce k.toPieces calls (leBytes 4 buffer.length)
  let (body, calls) := writeOnce k.toPieces calls buffer
  (header ++ body, calls)

/-- `recv_msg`. -/
def recvMsg (k : Kernel) (max : Nat) (r : Reader) : Option (Bytes × Reader) := do
  let (header, r) ← readAll k.toPieces 4 r
  let n := ofLeBytes header
  if max < n then none else readAll k.toPieces n r

end Client

/-! ## A list of messages -/

/-- The messages are sent one after the other. -/
def sendMsgs (sendMsg : Nat → Bytes → Bytes × Nat) : Nat → List Sent → Bytes
  | _, [] => []
  | calls, m :: msgs =>
    let (bytes, calls) := sendMsg calls m.bytes
    bytes ++ sendMsgs sendMsg calls msgs

/-- The messages are received one after the other, each under its limit. -/
def recvMsgs (recvMsg : Option Nat → Reader → Option (Bytes × Reader)) :
    List (Option Nat) → Reader → Option (List Bytes × Reader)
  | [], r => some ([], r)
  | limit :: limits, r => do
    let (m, r) ← recvMsg limit r
    let (ms, r) ← recvMsgs recvMsg limits r
    pure (m :: ms, r)

/-- What the server receives when the client sends these messages. -/
def toServer (client server : Kernel) (msgs : List Sent) : Option (List Bytes) :=
  (recvMsgs (Server.recvMsg server) (msgs.map Sent.maxSize)
    ⟨sendMsgs (Client.sendMsg client) 0 msgs, 0⟩).map Prod.fst

/-- What the client receives when the server sends these messages. -/
def toClient (server client : Kernel) (msgs : List Sent) : Option (List Bytes) :=
  (recvMsgs (fun limit => Client.recvMsg client (limit.getD (2 ^ 32 - 1))) (msgs.map Sent.maxSize)
    ⟨sendMsgs (Server.sendMsg server) 0 msgs, 0⟩).map Prod.fst

/-! ## Receiving

A side that receives in a loop takes a frame as a whole, and takes no more than one
(`ReceivesFrames`). -/

/-- A receiver of frames: it takes a frame that keeps to the limit, and it takes nothing else. -/
structure ReceivesFrames (recvMsg : Option Nat → Reader → Option (Bytes × Reader)) : Prop where
  takes : ∀ (m : Sent) (r : Reader) (rest : Bytes), r.stream = frameOf m.bytes ++ rest →
    ∃ calls, recvMsg m.maxSize r = some (m.bytes, ⟨rest, calls⟩)
  took : ∀ (limit : Option Nat) (r r' : Reader) (m : Bytes), recvMsg limit r = some (m, r') →
    r.stream.length = 4 + m.length + r'.stream.length

/-- The loop finds the length of a frame. -/
theorem readAll_header (k : Kernel) (m : Sent) (r : Reader) (rest : Bytes)
    (h : r.stream = frameOf m.bytes ++ rest) : ∃ calls,
      readAll k.toPieces 4 r = some (leBytes 4 m.bytes.length, ⟨m.bytes ++ rest, calls⟩) := by
  rw [frameOf, List.append_assoc] at h
  have hheader : (leBytes 4 m.bytes.length).length = 4 := length_leBytes 4 _
  obtain ⟨calls, hread⟩ := readAll_eq (p := k.toPieces) 4 r (by rw [h]; simp)
  refine ⟨calls, ?_⟩
  rw [hread, h, List.take_left' hheader, List.drop_left' hheader]

theorem ofLeBytes_header (m : Sent) : ofLeBytes (leBytes 4 m.bytes.length) = m.bytes.length :=
  ofLeBytes_leBytes_of_lt m.lt

/-- The loop finds the bytes of a frame. -/
theorem readAll_body (k : Kernel) (m : Sent) (calls : Nat) (rest : Bytes) : ∃ calls',
    readAll k.toPieces m.bytes.length ⟨m.bytes ++ rest, calls⟩ =
      some (m.bytes, ⟨rest, calls'⟩) := by
  obtain ⟨calls', hread⟩ := readAll_eq (p := k.toPieces) m.bytes.length ⟨m.bytes ++ rest, calls⟩
    (by simp)
  exact ⟨calls', by rw [hread, List.take_left, List.drop_left]⟩

theorem Server.receivesFrames (k : Kernel) : ReceivesFrames (Server.recvMsg k) where
  takes := by
    intro m r rest h
    obtain ⟨calls, hheader⟩ := readAll_header k m r rest h
    obtain ⟨calls', hbody⟩ := readAll_body k m calls rest
    -- the sender kept to the limit, so the length is accepted
    have hlimit : ¬m.maxSize.any (fun l => l != 0 && decide (l < m.bytes.length)) = true := by
      cases hmax : m.maxSize with
      | none => simp
      | some l =>
          have hle := m.le l hmax
          simp only [Option.any_some, Bool.and_eq_true, decide_eq_true_eq, not_and]
          omega
    refine ⟨calls', ?_⟩
    simp only [Server.recvMsg, Server.recvHdr, hheader, Option.bind_eq_bind, Option.bind_some,
      Option.pure_def, ofLeBytes_header]
    rw [if_neg hlimit, hbody]
  took := by
    intro limit r r' m h
    simp only [Server.recvMsg, Server.recvHdr, Option.bind_eq_bind, Option.pure_def] at h
    obtain ⟨⟨n, r₁⟩, hhdr, h⟩ := Option.bind_eq_some_iff.mp h
    obtain ⟨⟨header, r₂⟩, hread, heq⟩ := Option.bind_eq_some_iff.mp hhdr
    cases heq
    split at h
    next => cases h
    next =>
      obtain ⟨hstream, hheader⟩ := readAll_eq_some hread
      obtain ⟨hstream', -⟩ := readAll_eq_some h
      rw [hstream, hstream', List.length_append, List.length_append, hheader, Nat.add_assoc]

theorem Client.receivesFrames (k : Kernel) :
    ReceivesFrames fun limit => Client.recvMsg k (limit.getD (2 ^ 32 - 1)) where
  takes := by
    intro m r rest h
    obtain ⟨calls, hheader⟩ := readAll_header k m r rest h
    obtain ⟨calls', hbody⟩ := readAll_body k m calls rest
    -- the sender kept to the limit, which is never above what four bytes hold
    have hlimit : ¬m.maxSize.getD (2 ^ 32 - 1) < m.bytes.length := by
      have hlt := m.lt
      cases hmax : m.maxSize with
      | none => rw [Option.getD_none]; omega
      | some l =>
          have hle := m.le l hmax
          rw [Option.getD_some]
          omega
    refine ⟨calls', ?_⟩
    simp only [Client.recvMsg, hheader, Option.bind_eq_bind, Option.bind_some, ofLeBytes_header]
    rw [if_neg hlimit, hbody]
  took := by
    intro limit r r' m h
    simp only [Client.recvMsg, Option.bind_eq_bind] at h
    obtain ⟨⟨header, r₁⟩, hread, h⟩ := Option.bind_eq_some_iff.mp h
    split at h
    next => cases h
    next =>
      obtain ⟨hstream, hheader⟩ := readAll_eq_some hread
      obtain ⟨hstream', -⟩ := readAll_eq_some h
      rw [hstream, hstream', List.length_append, List.length_append, hheader, Nat.add_assoc]

section receiving

variable {recvMsg : Option Nat → Reader → Option (Bytes × Reader)}

/-- Frames on the wire are received as the messages they were made of. -/
theorem ReceivesFrames.recvMsgs_eq (h : ReceivesFrames recvMsg) (msgs : List Sent) : ∀ r : Reader,
    r.stream = msgs.flatMap (fun m => frameOf m.bytes) →
      (recvMsgs recvMsg (msgs.map Sent.maxSize) r).map Prod.fst = some (msgs.map Sent.bytes) := by
  induction msgs with
  | nil => intro r _; rfl
  | cons m msgs ih =>
      intro r hr
      rw [List.flatMap_cons] at hr
      obtain ⟨calls, hm⟩ := h.takes m r _ hr
      obtain ⟨⟨ms, r'⟩, hms, heq⟩ := Option.map_eq_some_iff.mp
        (ih ⟨msgs.flatMap fun m => frameOf m.bytes, calls⟩ rfl)
      simp only at heq
      subst heq
      rw [List.map_cons, recvMsgs, hm]
      simp only [Option.bind_eq_bind, Option.bind_some, hms]
      rfl

/-- Receiving messages takes their frames' lengths from the wire. -/
theorem ReceivesFrames.length_le (h : ReceivesFrames recvMsg) (limits : List (Option Nat)) :
    ∀ (r r' : Reader) (ms : List Bytes), recvMsgs recvMsg limits r = some (ms, r') →
      (ms.map fun m => 4 + m.length).sum ≤ r.stream.length := by
  induction limits with
  | nil =>
      intro r r' ms hms
      cases hms
      exact Nat.zero_le _
  | cons limit limits ih =>
      intro r r' ms hms
      rw [recvMsgs] at hms
      simp only [Option.bind_eq_bind] at hms
      obtain ⟨⟨m, r₁⟩, hm, hms⟩ := Option.bind_eq_some_iff.mp hms
      obtain ⟨⟨ms', r₂⟩, hms', heq⟩ := Option.bind_eq_some_iff.mp hms
      cases heq
      have hlen := h.took limit r r₁ m hm
      have hrest : (ms'.map fun m => 4 + m.length).sum ≤ r₁.stream.length := ih r₁ r₂ ms' hms'
      show ((m :: ms').map fun m => 4 + m.length).sum ≤ r.stream.length
      rw [List.map_cons, List.sum_cons]
      omega

end receiving

/-! ## Sending

The bytes that leave the client are the frames exactly if the kernel accepts every part as a whole.
-/

/-- What the client's calls of `send` are asked to send. -/
def requests (msgs : List Sent) : List Nat := msgs.flatMap fun m => [4, m.bytes.length]

/-- No call of `send` accepts less than it is given. -/
def NoShortSend (k : Kernel) (msgs : List Sent) : Prop :=
  ∀ i n, (requests msgs)[i]? = some n → k.count i n = n

theorem Server.sendMsgs_eq (k : Kernel) (msgs : List Sent) : ∀ calls,
    sendMsgs (Server.sendMsg k) calls msgs = msgs.flatMap fun m => frameOf m.bytes := by
  induction msgs with
  | nil => intro calls; rfl
  | cons m msgs ih =>
      intro calls
      show (Server.sendMsg k calls m.bytes).1 ++
        sendMsgs (Server.sendMsg k) (Server.sendMsg k calls m.bytes).2 msgs = _
      rw [ih, List.flatMap_cons]
      simp only [Server.sendMsg, writeAll_eq, frameOf]

/-- From some call on, no call accepts less than it is given. -/
def NoShortFrom (k : Kernel) (calls : Nat) (msgs : List Sent) : Prop :=
  ∀ i n, (requests msgs)[i]? = some n → k.count (calls + i) n = n

theorem noShortFrom_cons (k : Kernel) (calls : Nat) (m : Sent) (msgs : List Sent) :
    NoShortFrom k calls (m :: msgs) ↔
      k.count calls 4 = 4 ∧ k.count (calls + 1) m.bytes.length = m.bytes.length ∧
        NoShortFrom k (calls + 2) msgs := by
  constructor
  · intro h
    refine ⟨h 0 4 rfl, h 1 _ rfl, ?_⟩
    intro i n hi
    rw [Nat.add_assoc, Nat.add_comm 2 i]
    exact h (i + 2) n hi
  · rintro ⟨hheader, hbody, hrest⟩ i n hi
    match i with
    | 0 => cases hi; exact hheader
    | 1 => cases hi; exact hbody
    | i + 2 =>
        rw [Nat.add_comm i 2, ← Nat.add_assoc]
        exact hrest i n hi

theorem Client.sendMsgs_of_noShort {k : Kernel} (msgs : List Sent) : ∀ calls,
    NoShortFrom k calls msgs →
      sendMsgs (Client.sendMsg k) calls msgs = msgs.flatMap fun m => frameOf m.bytes := by
  induction msgs with
  | nil => intro calls _; rfl
  | cons m msgs ih =>
      intro calls h
      obtain ⟨hheader, hbody, hrest⟩ := (noShortFrom_cons k calls m msgs).mp h
      have hfour : k.count calls (leBytes 4 m.bytes.length).length =
          (leBytes 4 m.bytes.length).length := by
        rw [length_leBytes]
        exact hheader
      rw [sendMsgs, Client.sendMsg, writeOnce_eq hfour]
      simp only [writeOnce_eq hbody]
      rw [List.flatMap_cons, frameOf]
      congr 1
      exact ih (calls + 2) hrest

/-- A call that accepts less makes the stream shorter, and no other call makes up for it. -/
theorem Client.noShort_of_length {k : Kernel} (msgs : List Sent) : ∀ calls,
    (sendMsgs (Client.sendMsg k) calls msgs).length ≤ (msgs.map fun m => 4 + m.bytes.length).sum ∧
      ((msgs.map fun m => 4 + m.bytes.length).sum ≤
        (sendMsgs (Client.sendMsg k) calls msgs).length → NoShortFrom k calls msgs) := by
  induction msgs with
  | nil => exact fun calls => ⟨Nat.le_refl _, fun _ i n hi => by cases hi⟩
  | cons m msgs ih =>
      intro calls
      obtain ⟨hle, hnoShort⟩ := ih (calls + 2)
      have hlen : (sendMsgs (Client.sendMsg k) calls (m :: msgs)).length =
          k.count calls 4 + k.count (calls + 1) m.bytes.length +
            (sendMsgs (Client.sendMsg k) (calls + 2) msgs).length := by
        show ((writeOnce k.toPieces calls (leBytes 4 m.bytes.length)).1 ++
          (writeOnce k.toPieces (calls + 1) m.bytes).1 ++ _).length = _
        rw [List.length_append, List.length_append, length_writeOnce, length_writeOnce,
          length_leBytes]
      have hheader := k.count_le calls 4
      have hbody := k.count_le (calls + 1) m.bytes.length
      rw [hlen, List.map_cons, List.sum_cons]
      refine ⟨by omega, fun hsum => ?_⟩
      exact (noShortFrom_cons k calls m msgs).mpr ⟨by omega, by omega, hnoShort (by omega)⟩

theorem noShortSend_iff (k : Kernel) (msgs : List Sent) :
    NoShortSend k msgs ↔ NoShortFrom k 0 msgs := by
  simp only [NoShortSend, NoShortFrom, Nat.zero_add]

/-! ## Both directions

The server's side always works; the client's messages arrive exactly if none of its calls is short.
-/

/-- Each side receives what the other one sent. -/
def Framed (client server client' server' : Kernel) (up down : List Sent) : Prop :=
  toServer client server up = some (up.map Sent.bytes) ∧
    toClient server' client' down = some (down.map Sent.bytes)

theorem toClient_eq (server client : Kernel) (msgs : List Sent) :
    toClient server client msgs = some (msgs.map Sent.bytes) :=
  (Client.receivesFrames client).recvMsgs_eq msgs _ (Server.sendMsgs_eq server msgs 0)

/-- Messages get through in both directions exactly when every `send` of the client accepts all it
is given; how `recv` splits the stream and how often `sendall` has to send does not matter. -/
theorem framed_iff (client server client' server' : Kernel) (up down : List Sent) :
    Framed client server client' server' up down ↔ NoShortSend client up := by
  rw [noShortSend_iff]
  constructor
  · rintro ⟨hup, -⟩
    obtain ⟨⟨ms, r⟩, hrecv, hms⟩ := Option.map_eq_some_iff.mp hup
    have hle := (Server.receivesFrames server).length_le _ _ _ _ hrecv
    obtain rfl : ms = up.map Sent.bytes := hms
    rw [List.map_map] at hle
    exact (Client.noShort_of_length up 0).2 hle
  · intro h
    exact ⟨(Server.receivesFrames server).recvMsgs_eq up _ (Client.sendMsgs_of_noShort up 0 h),
      toClient_eq server' client' down⟩

/-- A kernel that accepts everything, but for one byte less in the second call. -/
def backPressure : Kernel where
  most := MAX_RW_COUNT
  count call n := min (if call = 1 then max 1 (n - 1) else n) (min n MAX_RW_COUNT)
  count_pos call n hn := by
    have hmost : 0 < MAX_RW_COUNT := by decide
    split <;> omega
  count_le call n := by omega
  count_le_most call n := by omega
  most_eq := rfl

/-- Two bytes, of which `send` accepts one: the server waits for the other. -/
theorem backPressure_not_framed :
    ¬Framed backPressure backPressure backPressure backPressure
      [⟨[1, 2], none, by decide, by simp⟩] [] := by
  rintro ⟨hup, -⟩
  obtain ⟨⟨ms, r⟩, hrecv, hms⟩ := Option.map_eq_some_iff.mp hup
  have hle := (Server.receivesFrames backPressure).length_le _ _ _ _ hrecv
  obtain rfl : ms = [[1, 2]] := hms
  revert hle
  decide

end RISCover
