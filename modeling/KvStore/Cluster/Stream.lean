import KvStore.Cluster.Node
import KvStore.Cluster.ReadLoop
import KvStore.Protocol.Frame

/-!
# The switch from requests to the replication stream

Model of `internal/cluster/stream.go` and of the handshake of `replicateOnce`
(replica.go lines 60–96): the reply to SYNC is a frame, read by the client through its own
buffer (client.go lines 141–180); the messages that the primary writes after it
(primary.go lines 58–94) are read through a second buffer, which `replicateOnce` puts on
the same connection.

* `stream_after_switch`: the loop decodes exactly the messages, if and only if some read of the
  connection ends with the reply.
* `stream_loses_messages`: when a message arrives together with the reply it stays in the first
  buffer, and is lost.
-/

namespace KvStore

open KvStore.Common

/-! ## Messages -/

/-- The byte in front of each message (stream.go lines 31–38). -/
def StreamMsg.typeByte : StreamMsg → UInt8
  | .record _ => 1
  | .heartbeat .. => 2
  | .fullBegin _ => 3
  | .fullEnd _ => 4
  | .ack _ => 5
  | .reject _ => 6

/-- What `writeRecord`, `writeHeartbeat`, `writeLSNMsg` and `writeReject` write
    (lines 66–99). -/
def StreamMsg.bytes (m : StreamMsg) : Bytes :=
  m.typeByte :: match m with
    | .record r => appendRecord r
    | .heartbeat lsn epoch => putLE 8 lsn ++ putLE 8 epoch.toNat
    | .fullBegin lsn | .fullEnd lsn | .ack lsn => putLE 8 lsn
    | .reject reason => putLE 2 (reason.take 1024).length ++ reason.take 1024

/-- What `readMsg` can fail with. -/
inductive StreamError
  | io (e : ReadErr)
  | tooLong (length : ℕ)
  | decode (e : DecodeError)
  | unknownType (b : UInt8)
  deriving DecidableEq, Repr

section

variable {σ : Type} (R : Reader σ)

/-- Read `n` bytes and go on with them (`if _, err := io.ReadFull(...); err != nil`). -/
def readThen {α : Type} (src : σ) (n : ℕ) (buf : Bytes)
    (next : Bytes → σ → Except StreamError α × Bytes × σ) : Except StreamError α × Bytes × σ :=
  let (p, err, src) := R.readFull src n
  match err with
  | some e => (.error (.io e), buf, src)
  | none => next p src

/-- The record case of `readMsg` (lines 120–146); `buf` is the buffer that is reused. -/
def readRecordMsg (src : σ) (buf : Bytes) : Except StreamError StreamMsg × Bytes × σ :=
  readThen R src 8 buf fun hdr src =>
    let length := field hdr 4 4
    if length > maxStreamPayload then (.error (.tooLong length), buf, src)
    else
      let total := 8 + length
      let buf := overwrite (if buf.length < total then List.replicate total 0 else buf) hdr
      readThen R src length buf fun p src =>
        let buf := overwrite buf (hdr ++ p)
        match decodeRecord (buf.take total) total with
        | .error e => (.error (.decode e), buf, src)
        | .ok (r, _) => (.ok (.record r), buf, src)

/-- `readMsg` (lines 112–181). -/
def readMsg (src : σ) (buf : Bytes) : Except StreamError StreamMsg × Bytes × σ :=
  readThen R src 1 buf fun t src =>
    match t.headD 0 with
    | 1 => readRecordMsg R src buf
    | 2 =>
      readThen R src 16 buf fun b src =>
        (.ok (.heartbeat (field b 0 8) (UInt64.ofNat (field b 8 8))), buf, src)
    | 3 => readThen R src 8 buf fun b src => (.ok (.fullBegin (leNat b)), buf, src)
    | 4 => readThen R src 8 buf fun b src => (.ok (.fullEnd (leNat b)), buf, src)
    | 5 => readThen R src 8 buf fun b src => (.ok (.ack (leNat b)), buf, src)
    | 6 =>
      readThen R src 2 buf fun b src =>
        readThen R src (leNat b) buf fun reason src => (.ok (.reject reason), buf, src)
    | b => (.error (.unknownType b), buf, src)

/-- The messages that up to `calls` calls of `readMsg` return, and the error that ended them. -/
def readMsgs : ℕ → σ → Bytes → List StreamMsg × Option StreamError
  | 0, _, _ => ([], none)
  | calls + 1, src, buf =>
    match readMsg R src buf with
    | (.error e, _, _) => ([], some e)
    | (.ok m, buf, src) =>
      let (ms, e) := readMsgs calls src buf
      (m :: ms, e)

end

/-! ## The handshake -/

/-- The reply to a SYNC that is accepted: `writeStatus(nc, frame, StatusOK, "")` (primary.go
    lines 70 and 310–323). -/
def syncReply (id : UInt32) : Bytes :=
  frameBytes ({ version := protocolVersion, code := Status.ok.code, requestID := id }, [])

/-- The read of a reply in `do` and `RawCommand` (client.go lines 169–180 and 443–452), through the
    client's reader of 64 KiB with nothing in it; the connection as the client leaves it. -/
def readReply (id : UInt32) (scratch : Bytes) (conn : Chunks) : Option Chunks :=
  let r := readFrame (Chunks.reader.buffered (64 * 2 ^ 10)) ([], conn) [] scratch 0
  if r.err = none ∧ r.frame.header.requestID = id ∧ r.frame.header.code = Status.ok.code then
    some r.src.2
  else none

/-- `replicateOnce` from its SYNC on (replica.go lines 78–96): the reply, then messages through a new
    reader of 256 KiB on the connection. -/
def replicateMsgs (id : UInt32) (scratch : Bytes) (conn : Chunks) (calls : ℕ) :
    Option (List StreamMsg × Option StreamError) :=
  (readReply id scratch conn).map fun conn =>
    readMsgs (Chunks.reader.buffered (256 * 2 ^ 10)) calls ([], conn) []

/-! ## One message -/

/-- The messages whose fields fit. -/
def StreamMsg.Fits : StreamMsg → Prop
  | .record r => r.Fits
  | .heartbeat lsn _ => lsn < 2 ^ 64
  | .fullBegin lsn | .fullEnd lsn | .ack lsn => lsn < 2 ^ 64
  | .reject reason => reason.length ≤ 1024

section

variable {σ : Type} (R : Reader σ) {src : σ}

/-- A read that finds what it asks for. -/
theorem readThen_of_content {α : Type} {p rest : Bytes} (hcont : R.content src = p ++ rest)
    {n : ℕ} (hn : p.length = n) (buf : Bytes)
    (next : Bytes → σ → Except StreamError α × Bytes × σ) :
    ∃ src', R.content src' = rest ∧ readThen R src n buf next = next p src' := by
  obtain ⟨hp, herr, hsrc⟩ := R.readFull_spec src n
  rw [hcont, List.take_left' hn] at hp
  rw [hcont, List.drop_left' hn] at hsrc
  rw [hcont, List.length_append, if_pos (by omega)] at herr
  refine ⟨(R.readFull src n).2.2, hsrc, ?_⟩
  unfold readThen
  dsimp only
  rw [herr]
  dsimp only
  rw [hp]

theorem readThen_of_nil {α : Type} (hcont : R.content src = []) {n : ℕ} (hn : 0 < n) (buf : Bytes)
    (next : Bytes → σ → Except StreamError α × Bytes × σ) :
    (readThen R src n buf next).1 = .error (.io .eof) := by
  obtain ⟨-, herr, -⟩ := R.readFull_spec src n
  rw [hcont, List.length_nil, if_neg (by omega), if_pos rfl] at herr
  unfold readThen
  dsimp only
  rw [herr]

theorem readRecordMsg_bytes {r : Record} (hr : r.Fits) {rest : Bytes}
    (hcont : R.content src = appendRecord r ++ rest) (buf : Bytes) :
    ∃ buf' src', R.content src' = rest ∧ readRecordMsg R src buf = (.ok (.record r), buf', src') := by
  have hle := fits_length_le hr
  -- the checksum and the length, then the payload
  have hsplit : appendRecord r =
      (putLE 4 (checksum r.payload).toNat ++ putLE 4 r.payload.length) ++ r.payload := by
    rw [appendRecord, List.append_assoc]
  have hhdr : (putLE 4 (checksum r.payload).toNat ++ putLE 4 r.payload.length).length = 8 := by simp
  have hfield : field (putLE 4 (checksum r.payload).toNat ++ putLE 4 r.payload.length) 4 4 =
      r.payload.length := by
    have hlt : r.payload.length < 256 ^ 4 := by
      unfold maxRecordLen payloadHeaderLen at hle
      omega
    have hlast := field_zero_putLE [] hlt
    rw [List.append_nil] at hlast
    exact (field_add (o := 0) _ (length_putLE 4 _) 4).trans hlast
  rw [hsplit, List.append_assoc] at hcont
  unfold readRecordMsg
  obtain ⟨src1, hsrc1, heq1⟩ := readThen_of_content R hcont hhdr buf _
  rw [heq1, hfield]
  dsimp only
  rw [if_neg (by unfold maxStreamPayload; omega)]
  obtain ⟨src2, hsrc2, heq2⟩ := readThen_of_content R hsrc1 rfl _ _
  rw [heq2, take_overwrite (by rw [List.length_append, hhdr]), ← hsplit,
    ← List.append_nil (appendRecord r), decodeRecord_appendRecord hr []
      (by rw [← length_appendRecord, hsplit, List.length_append, hhdr])]
  exact ⟨_, _, hsrc2, rfl⟩

/-- The messages that are an LSN. -/
theorem readThen_lsn (f : ℕ → StreamMsg) {lsn : ℕ} (hlsn : lsn < 2 ^ 64) {rest : Bytes}
    (hcont : R.content src = putLE 8 lsn ++ rest) (buf : Bytes) :
    ∃ buf' src', R.content src' = rest ∧
      (readThen R src 8 buf fun b src => (.ok (f (leNat b)), buf, src)) =
        (.ok (f lsn), buf', src') := by
  obtain ⟨src', hsrc', heq⟩ := readThen_of_content R hcont (length_putLE 8 lsn) buf
    fun b src => (Except.ok (f (leNat b)), buf, src)
  rw [leNat_putLE_of_lt hlsn] at heq
  exact ⟨buf, src', hsrc', heq⟩

theorem readThen_heartbeat {lsn : ℕ} {epoch : UInt64} (hlsn : lsn < 2 ^ 64) {rest : Bytes}
    (hcont : R.content src = putLE 8 lsn ++ putLE 8 epoch.toNat ++ rest) (buf : Bytes) :
    ∃ buf' src', R.content src' = rest ∧
      (readThen R src 16 buf fun b src =>
        (.ok (StreamMsg.heartbeat (field b 0 8) (UInt64.ofNat (field b 8 8))), buf, src)) =
        (.ok (.heartbeat lsn epoch), buf', src') := by
  obtain ⟨src', hsrc', heq⟩ := readThen_of_content R hcont (n := 16) (by simp) buf fun b src =>
    (Except.ok (StreamMsg.heartbeat (field b 0 8) (UInt64.ofNat (field b 8 8))), buf, src)
  have hepoch : field (putLE 8 lsn ++ putLE 8 epoch.toNat) 8 8 = epoch.toNat := by
    have hlast := field_zero_putLE [] (show epoch.toNat < 256 ^ 8 from epoch.toNat_lt)
    rw [List.append_nil] at hlast
    exact (field_add (o := 0) _ (length_putLE 8 _) 8).trans hlast
  rw [field_zero_putLE _ hlsn, hepoch, UInt64.ofNat_toNat] at heq
  exact ⟨buf, src', hsrc', heq⟩

theorem readThen_reject {reason : Bytes} (hreason : reason.length ≤ 1024) {rest : Bytes}
    (hcont : R.content src = putLE 2 (reason.take 1024).length ++ reason.take 1024 ++ rest)
    (buf : Bytes) :
    ∃ buf' src', R.content src' = rest ∧
      (readThen R src 2 buf fun b src =>
        readThen R src (leNat b) buf fun reason src =>
          (.ok (StreamMsg.reject reason), buf, src)) = (.ok (.reject reason), buf', src') := by
  rw [List.take_of_length_le hreason, List.append_assoc] at hcont
  obtain ⟨src1, hsrc1, heq1⟩ := readThen_of_content R hcont (length_putLE 2 _) buf fun b src =>
    readThen R src (leNat b) buf fun reason src => (Except.ok (StreamMsg.reject reason), buf, src)
  rw [leNat_putLE_of_lt (by omega)] at heq1
  obtain ⟨src2, hsrc2, heq2⟩ := readThen_of_content R hsrc1 rfl buf
    fun reason src => (Except.ok (StreamMsg.reject reason), buf, src)
  exact ⟨buf, src2, hsrc2, heq1.trans heq2⟩

/-- `readMsg` reads back what was written. -/
theorem readMsg_bytes {m : StreamMsg} (hm : m.Fits) {rest : Bytes}
    (hcont : R.content src = m.bytes ++ rest) (buf : Bytes) :
    ∃ buf' src', R.content src' = rest ∧ readMsg R src buf = (.ok m, buf', src') := by
  unfold StreamMsg.bytes at hcont
  rw [← List.singleton_append, List.append_assoc] at hcont
  unfold readMsg
  obtain ⟨src1, hsrc1, heq1⟩ := readThen_of_content R hcont (n := 1) rfl buf _
  rw [heq1]
  cases m with
  | record r => exact readRecordMsg_bytes R hm hsrc1 buf
  | heartbeat lsn epoch => exact readThen_heartbeat R hm hsrc1 buf
  | fullBegin lsn => exact readThen_lsn R .fullBegin hm hsrc1 buf
  | fullEnd lsn => exact readThen_lsn R .fullEnd hm hsrc1 buf
  | ack lsn => exact readThen_lsn R .ack hm hsrc1 buf
  | reject reason => exact readThen_reject R hm hsrc1 buf

/-- The loop reads back messages written one after another, and then finds the end. -/
theorem readMsgs_bytes {ms : List StreamMsg} (hms : ∀ m ∈ ms, m.Fits) {calls : ℕ}
    (hcalls : calls > ms.length) (buf : Bytes)
    (hcont : R.content src = (ms.map StreamMsg.bytes).flatten) :
    readMsgs R calls src buf = (ms, some (.io .eof)) := by
  induction ms generalizing calls src buf with
  | nil =>
    obtain ⟨c, rfl⟩ : ∃ c, calls = c + 1 := ⟨calls - 1, by omega⟩
    have herr : (readMsg R src buf).1 = .error (.io .eof) :=
      readThen_of_nil R hcont Nat.one_pos buf _
    rw [readMsgs]
    generalize readMsg R src buf = r at herr
    obtain ⟨r, buf', src'⟩ := r
    cases herr
    rfl
  | cons m ms ih =>
    rw [List.forall_mem_cons] at hms
    obtain ⟨c, rfl⟩ : ∃ c, calls = c + 1 := ⟨calls - 1, by omega⟩
    obtain ⟨buf', src', hsrc', hread⟩ := readMsg_bytes R hms.1 hcont buf
    rw [readMsgs, hread]
    dsimp only
    rw [ih hms.2 (by simpa using hcalls) buf' hsrc']

end

/-! ## What is read was written -/

section

variable {σ : Type} {R : Reader σ} {src src' : σ} {buf buf' : Bytes} {m : StreamMsg}

/-- A read that succeeds took as many bytes as it asked for. -/
theorem readThen_ok {α : Type} {a : α} {n : ℕ}
    {next : Bytes → σ → Except StreamError α × Bytes × σ}
    (h : readThen R src n buf next = (.ok a, buf', src')) :
    ∃ p mid, p.length = n ∧ R.content src = p ++ R.content mid ∧
      next p mid = (.ok a, buf', src') := by
  obtain ⟨hp, herr, hsrc⟩ := R.readFull_spec src n
  unfold readThen at h
  dsimp only at h
  by_cases hle : n ≤ (R.content src).length
  · rw [if_pos hle] at herr
    rw [herr] at h
    refine ⟨_, _, ?_, ?_, h⟩
    · rw [hp, List.length_take_of_le hle]
    · rw [hp, hsrc, List.take_append_drop]
  · rw [if_neg hle] at herr
    split_ifs at herr with hnil
    · rw [herr] at h
      cases h
    · rw [herr] at h
      cases h

theorem bytes_of_readRecordMsg (h : readRecordMsg R src buf = (.ok m, buf', src')) :
    ∃ r : Record, m = .record r ∧ r.Fits ∧ R.content src = appendRecord r ++ R.content src' := by
  unfold readRecordMsg at h
  obtain ⟨hdr, mid, hhdr, hcont, h⟩ := readThen_ok h
  dsimp only at h
  by_cases hlong : field hdr 4 4 > maxStreamPayload
  · rw [if_pos hlong] at h
    cases h
  · rw [if_neg hlong] at h
    obtain ⟨p, mid', hp, hcont', h⟩ := readThen_ok h
    have hlen : (hdr ++ p).length = 8 + field hdr 4 4 := by rw [List.length_append, hhdr, hp]
    rw [take_overwrite hlen] at h
    cases hdecode : decodeRecord (hdr ++ p) (8 + field hdr 4 4) with
    | error e =>
      rw [hdecode] at h
      cases h
    | ok q =>
      obtain ⟨r, n⟩ := q
      rw [hdecode] at h
      cases h
      obtain ⟨hr, -, rest, hrest⟩ := appendRecord_of_decodeRecord hdecode
      -- the record is as long as its length field says, so that nothing is left behind it
      have hfield : field hdr 4 4 = r.payload.length := by
        rw [← field_length_appendRecord hr rest, ← hrest, ← field_take (hdr ++ p) (le_refl (4 + 4)),
          List.take_left' hhdr]
      have hnil : rest = [] := by
        have hsize := congrArg List.length hrest
        rw [hlen, hfield, List.length_append, length_appendRecord, length_payload,
          Record.encodedLen, recHeaderLen] at hsize
        exact List.eq_nil_of_length_eq_zero (by omega)
      refine ⟨r, rfl, hr, ?_⟩
      rw [hcont, hcont', ← List.append_assoc, hrest, hnil, List.append_nil]

/-- The messages that are an LSN. -/
theorem bytes_of_readThen_lsn {f : ℕ → StreamMsg}
    (h : (readThen R src 8 buf fun b src => (.ok (f (leNat b)), buf, src)) = (.ok m, buf', src')) :
    ∃ lsn < 2 ^ 64, m = f lsn ∧ R.content src = putLE 8 lsn ++ R.content src' := by
  obtain ⟨b, mid, hb, hcont, h⟩ := readThen_ok h
  cases h
  have hlt := leNat_lt b
  have hput := putLE_leNat b
  rw [hb] at hlt hput
  exact ⟨leNat b, hlt, rfl, by rw [hput, hcont]⟩

theorem bytes_of_readThen_heartbeat
    (h : (readThen R src 16 buf fun b src =>
        (.ok (StreamMsg.heartbeat (field b 0 8) (UInt64.ofNat (field b 8 8))), buf, src)) =
      (.ok m, buf', src')) :
    ∃ lsn epoch, lsn < 2 ^ 64 ∧ m = .heartbeat lsn epoch ∧
      R.content src = putLE 8 lsn ++ putLE 8 epoch.toNat ++ R.content src' := by
  obtain ⟨b, mid, hb, hcont, h⟩ := readThen_ok h
  cases h
  refine ⟨field b 0 8, UInt64.ofNat (field b 8 8), field_lt b 0 8, rfl, ?_⟩
  have hlast := putLE_field_append 8 (show 8 + 8 ≤ b.length by omega)
  rw [List.drop_eq_nil_of_le (by omega), List.append_nil] at hlast
  rw [UInt64.toNat_ofNat_of_lt' (field_lt b 8 8), hlast,
    show b.drop 8 = b.drop (0 + 8) from rfl, putLE_field_append 0 (by omega), List.drop_zero, hcont]

theorem bytes_of_readThen_reject
    (h : (readThen R src 2 buf fun b src =>
        readThen R src (leNat b) buf fun reason src =>
          (.ok (StreamMsg.reject reason), buf, src)) = (.ok m, buf', src')) :
    ∃ reason, m = .reject reason ∧
      R.content src = putLE 2 reason.length ++ reason ++ R.content src' := by
  obtain ⟨b, mid, hb, hcont, h⟩ := readThen_ok h
  obtain ⟨reason, mid', hreason, hcont', h⟩ := readThen_ok h
  cases h
  have hput := putLE_leNat b
  rw [hb, ← hreason] at hput
  exact ⟨reason, rfl, by rw [hput, hcont, hcont', List.append_assoc]⟩

/-- Nothing is read as a message but what is written for it. The reason of a REJECT is cut to 1024
    bytes when it is written, but not when it is read. -/
theorem bytes_of_readMsg (h : readMsg R src buf = (.ok m, buf', src'))
    (hreject : ∀ reason, m = .reject reason → reason.length ≤ 1024) :
    m.Fits ∧ R.content src = m.bytes ++ R.content src' := by
  unfold readMsg at h
  obtain ⟨t, mid, ht, hcont, h⟩ := readThen_ok h
  obtain ⟨b, rfl⟩ := List.length_eq_one_iff.mp ht
  rw [hcont]
  simp only [List.headD_cons] at h
  split at h
  · obtain ⟨r, rfl, hr, hmid⟩ := bytes_of_readRecordMsg h
    exact ⟨hr, by rw [hmid]; rfl⟩
  · obtain ⟨lsn, epoch, hlsn, rfl, hmid⟩ := bytes_of_readThen_heartbeat h
    exact ⟨hlsn, by rw [hmid]; rfl⟩
  · obtain ⟨lsn, hlsn, rfl, hmid⟩ := bytes_of_readThen_lsn h
    exact ⟨hlsn, by rw [hmid]; rfl⟩
  · obtain ⟨lsn, hlsn, rfl, hmid⟩ := bytes_of_readThen_lsn h
    exact ⟨hlsn, by rw [hmid]; rfl⟩
  · obtain ⟨lsn, hlsn, rfl, hmid⟩ := bytes_of_readThen_lsn h
    exact ⟨hlsn, by rw [hmid]; rfl⟩
  · obtain ⟨reason, rfl, hmid⟩ := bytes_of_readThen_reject h
    have hle := hreject reason rfl
    refine ⟨hle, ?_⟩
    rw [hmid, StreamMsg.bytes]
    simp only [List.take_of_length_le hle]
    rfl
  · cases h

/-- So the messages that the loop returns are at the front of what it reads. -/
theorem bytes_of_readMsgs {calls : ℕ} {ms : List StreamMsg} {err : Option StreamError}
    (h : readMsgs R calls src buf = (ms, err)) (hms : ∀ m ∈ ms, m.Fits) :
    ∃ rest, R.content src = (ms.map StreamMsg.bytes).flatten ++ rest := by
  induction calls generalizing src buf ms with
  | zero =>
    cases h
    exact ⟨_, rfl⟩
  | succ calls ih =>
    unfold readMsgs at h
    rcases hread : readMsg R src buf with ⟨e | m, buf', src'⟩ <;> rw [hread] at h
    · cases h
      exact ⟨_, rfl⟩
    · dsimp only at h
      rcases hrest : readMsgs R calls src' buf' with ⟨ms', err'⟩
      rw [hrest] at h
      cases h
      obtain ⟨hm, hms⟩ := List.forall_mem_cons.mp hms
      obtain ⟨rest, hcont⟩ := ih hrest hms
      refine ⟨rest, ?_⟩
      have hreject : ∀ reason, m = .reject reason → reason.length ≤ 1024 := by
        rintro reason rfl
        exact hm
      rw [(bytes_of_readMsg hread hreject).2, hcont, List.map_cons, List.flatten_cons,
        List.append_assoc]

end

/-! ## The client's buffer -/

/-- An empty buffer takes the next piece and hands all of it on. -/
theorem bufferedRead_cons {size n : ℕ} {c : Bytes} {cs : List Bytes} (h : ∀ d ∈ c :: cs, d ≠ [])
    (hn : c.length ≤ n) :
    Chunks.reader.bufferedRead size ([], ⟨c :: cs, h⟩) n =
      (c, [], ⟨cs, fun d hd => h d (List.mem_cons_of_mem c hd)⟩) := by
  have hread : ∀ k, c.length ≤ k → Chunks.reader.read ⟨c :: cs, h⟩ k =
      (c, ⟨cs, fun d hd => h d (List.mem_cons_of_mem c hd)⟩) := by
    intro k hk
    simp only [Chunks.reader, Chunks.read, if_pos hk]
  unfold Reader.bufferedRead
  rw [if_pos rfl]
  split_ifs with hsize
  · rw [hread n hn]
  · rw [hread size (by omega)]
    dsimp only
    rw [List.take_of_length_le hn, List.drop_eq_nil_of_le hn]

/-- Reading up to the end of a piece leaves nothing in the buffer. -/
theorem readLoop_buffered (size : ℕ) {a b : List Bytes} (h : ∀ c ∈ a ++ b, c ≠ []) {fuel : ℕ}
    (hfuel : a.flatten.length ≤ fuel) :
    ((Chunks.reader.buffered size).readLoop fuel ([], ⟨a ++ b, h⟩) a.flatten.length).2 =
      ([], ⟨b, fun c hc => h c (List.mem_append_right a hc)⟩) := by
  induction a generalizing fuel with
  | nil =>
    cases fuel with
    | zero => rfl
    | succ fuel => rfl
  | cons c a ih =>
    have hc : c ≠ [] := h c List.mem_cons_self
    have hpos := List.length_pos_iff.mpr hc
    rw [List.flatten_cons, List.length_append] at hfuel ⊢
    obtain ⟨f, rfl⟩ : ∃ f, fuel = f + 1 := ⟨fuel - 1, by omega⟩
    have hread : (Chunks.reader.buffered size).read ([], ⟨c :: a ++ b, h⟩)
        (c.length + a.flatten.length) =
        (c, [], ⟨a ++ b, fun d hd => h d (List.mem_cons_of_mem c hd)⟩) :=
      bufferedRead_cons h (Nat.le_add_right _ _)
    rw [Reader.readLoop, if_neg (by omega), hread]
    dsimp only
    rw [if_neg hc, Nat.add_sub_cancel_left]
    exact ih _ (by omega)

theorem sendable_syncReply (id : UInt32) :
    Sendable 0 ({ version := protocolVersion, code := Status.ok.code, requestID := id }, []) :=
  ⟨rfl, show (0 : UInt16) &&& ~~~allFlags = 0 by decide, rfl, Nat.zero_le _⟩

/-- A read through a buffer that is larger than what is asked for takes whole pieces from the
    connection, or leaves something in the buffer. -/
theorem bufferedRead_pieces {size n : ℕ} (hn : n < size) (s : Bytes × Chunks) :
    (∃ k, (Chunks.reader.bufferedRead size s n).2.2.1 = s.2.1.drop k) ∨
      ((Chunks.reader.bufferedRead size s n).1.length = n ∧
        (Chunks.reader.bufferedRead size s n).2.1 ≠ []) := by
  obtain ⟨buf, cs, hcs⟩ := s
  unfold Reader.bufferedRead
  split_ifs with hbuf hsize
  · omega
  · cases cs with
    | nil => exact .inl ⟨0, rfl⟩
    | cons c cs =>
      by_cases hc : c.length ≤ size
      · refine .inl ⟨1, ?_⟩
        simp only [Chunks.reader, Chunks.read, if_pos hc]
        rfl
      · right
        simp only [Chunks.reader, Chunks.read, if_neg hc]
        rw [List.length_take, List.length_take, Ne, List.drop_eq_nil_iff, List.length_take]
        omega
  · exact .inl ⟨0, rfl⟩

/-- When nothing is left in the buffer, the pieces that were read are whole ones. -/
theorem readLoop_pieces {size fuel n : ℕ} (hn : n < size) (s : Bytes × Chunks)
    (hempty : ((Chunks.reader.buffered size).readLoop fuel s n).2.1 = []) :
    ∃ k, ((Chunks.reader.buffered size).readLoop fuel s n).2.2.1 = s.2.1.drop k := by
  induction fuel generalizing n s with
  | zero => exact ⟨0, rfl⟩
  | succ fuel ih =>
    unfold Reader.readLoop at hempty ⊢
    split_ifs at hempty ⊢ with hzero
    · exact ⟨0, rfl⟩
    have hread := bufferedRead_pieces hn s
    change (∃ k, ((Chunks.reader.buffered size).read s n).2.2.1 = _) ∨
      (((Chunks.reader.buffered size).read s n).1.length = n ∧
        ((Chunks.reader.buffered size).read s n).2.1 ≠ []) at hread
    generalize (Chunks.reader.buffered size).read s n = r at hread hempty
    obtain ⟨p, s'⟩ := r
    dsimp only at hread hempty ⊢
    rcases hread with ⟨k, hk⟩ | ⟨hlen, hleft⟩
    · split_ifs at hempty ⊢
      · exact ⟨k, hk⟩
      · obtain ⟨k', hk'⟩ := ih (by omega) s' hempty
        exact ⟨k + k', by rw [hk', hk, List.drop_drop]⟩
    · split_ifs at hempty ⊢
      · exact absurd hempty hleft
      · rw [hlen, Nat.sub_self] at hempty
        exact absurd hempty (by cases fuel <;> exact hleft)

/-- The reply is read by the loop for the header: it has no body. -/
theorem readReply_of_content (id : UInt32) (scratch : Bytes) {conn : Chunks} {rest : Bytes}
    (hconn : conn.1.flatten = syncReply id ++ rest) :
    readReply id scratch conn =
      some ((Chunks.reader.buffered (64 * 2 ^ 10)).readLoop headerLen ([], conn) headerLen).2.2 := by
  have hcont : (Chunks.reader.buffered (64 * 2 ^ 10)).content ([], conn) =
      syncReply id ++ rest := hconn
  obtain ⟨herr, hframe, -⟩ :=
    readFrame_whole (Chunks.reader.buffered (64 * 2 ^ 10)) [] scratch (sendable_syncReply id) hcont
  have hsrc : (readFrame (Chunks.reader.buffered (64 * 2 ^ 10)) ([], conn) [] scratch 0).src =
      ((Chunks.reader.buffered (64 * 2 ^ 10)).readLoop headerLen ([], conn) headerLen).2 := by
    rw [(readFrame_header (Chunks.reader.buffered (64 * 2 ^ 10)) 0 [] scratch hcont
      (sendable_syncReply id).decodeHeader).2, readBody_empty _ _ rfl]
    rfl
  unfold readReply
  dsimp only
  rw [herr, hframe, hsrc, if_pos ⟨rfl, rfl, rfl⟩]

theorem length_syncReply (id : UInt32) : (syncReply id).length = headerLen := by
  rw [syncReply, length_frameBytes]
  rfl

/-- When a read ends with the reply, the client leaves the connection right after it. -/
theorem readReply_eq (id : UInt32) (scratch : Bytes) {a b : List Bytes}
    (h : ∀ c ∈ a ++ b, c ≠ []) (ha : a.flatten = syncReply id) :
    readReply id scratch ⟨a ++ b, h⟩ =
      some ⟨b, fun c hc => h c (List.mem_append_right a hc)⟩ := by
  have hlen : a.flatten.length = headerLen := by rw [ha, length_syncReply]
  have hconn : (a ++ b).flatten = syncReply id ++ b.flatten := by rw [List.flatten_append, ha]
  rw [readReply_of_content id scratch hconn, ← hlen, readLoop_buffered (64 * 2 ^ 10) h le_rfl]

/-- What the client leaves on the connection is the rest without what stays in its buffer, and
    nothing stays there only if a read ends with the reply. -/
theorem readReply_left (id : UInt32) (scratch : Bytes) {conn : Chunks} {rest : Bytes}
    (hconn : conn.1.flatten = syncReply id ++ rest) :
    ∃ buf conn', readReply id scratch conn = some conn' ∧ buf ++ conn'.1.flatten = rest ∧
      (buf = [] → ∃ n, (conn.1.take n).flatten = syncReply id) := by
  have hleft := ((Chunks.reader.buffered (64 * 2 ^ 10)).readLoop_spec le_rfl (n := headerLen)
    ([], conn)).2
  refine ⟨_, _, readReply_of_content id scratch hconn, hleft.trans ?_, fun hempty => ?_⟩
  · show conn.1.flatten.drop headerLen = rest
    rw [hconn, List.drop_left' (length_syncReply id)]
  · obtain ⟨n, hn⟩ := readLoop_pieces (by decide) ([], conn) hempty
    refine ⟨n, ?_⟩
    change _ ++ List.flatten _ = conn.1.flatten.drop headerLen at hleft
    rw [hempty, hn, List.nil_append, hconn, List.drop_left' (length_syncReply id)] at hleft
    have hsplit : (conn.1.take n).flatten ++ (conn.1.drop n).flatten = syncReply id ++ rest := by
      rw [← List.flatten_append, List.take_append_drop, hconn]
    change (conn.1.drop n).flatten = rest at hleft
    rw [hleft] at hsplit
    exact List.append_cancel_right hsplit

/-! ## Both readers -/

/-- The messages written after the reply to SYNC are what the loop decodes, if and only if some read
    of the connection ends with the reply. -/
theorem stream_after_switch {id : UInt32} {ms : List StreamMsg} (hms : ∀ m ∈ ms, m.Fits)
    {conn : Chunks} (hconn : conn.1.flatten = syncReply id ++ (ms.map StreamMsg.bytes).flatten)
    (scratch : Bytes) {calls : ℕ} (hcalls : calls > ms.length) :
    replicateMsgs id scratch conn calls = some (ms, some (.io .eof)) ↔
      ∃ n, (conn.1.take n).flatten = syncReply id := by
  constructor
  · intro hmsgs
    obtain ⟨buf, conn', hreply, hrest, hempty⟩ := readReply_left id scratch hconn
    rw [replicateMsgs, hreply, Option.map_some] at hmsgs
    obtain ⟨rest, hcont⟩ := bytes_of_readMsgs (Option.some.inj hmsgs) hms
    -- the messages are as long as what was written, so that nothing of it stayed in the buffer
    replace hcont : conn'.1.flatten = (ms.map StreamMsg.bytes).flatten ++ rest := hcont
    have hlen := congrArg List.length hrest
    rw [hcont, List.length_append, List.length_append] at hlen
    exact hempty (List.eq_nil_of_length_eq_zero (by omega))
  · rintro ⟨n, hn⟩
    obtain ⟨cs, hcs⟩ := conn
    obtain ⟨a, b, rfl, ha⟩ : ∃ a b, cs = a ++ b ∧ a.flatten = syncReply id :=
      ⟨cs.take n, cs.drop n, (List.take_append_drop n cs).symm, hn⟩
    have hb : b.flatten = (ms.map StreamMsg.bytes).flatten := by
      dsimp only at hconn
      rw [List.flatten_append, ha] at hconn
      exact List.append_cancel_left hconn
    unfold replicateMsgs
    rw [readReply_eq id scratch hcs ha, Option.map_some]
    exact congrArg some (readMsgs_bytes (Chunks.reader.buffered (256 * 2 ^ 10)) hms hcalls [] hb)

/-- The reply, then a FULL_BEGIN and a FULL_END in one read. -/
theorem stream_after_switch_full :
    ∃ conn : Chunks,
      conn.1 = [syncReply 1, (StreamMsg.fullBegin 5).bytes ++ (StreamMsg.fullEnd 5).bytes] ∧
      replicateMsgs 1 [] conn 3 = some ([.fullBegin 5, .fullEnd 5], some (.io .eof)) := by
  refine ⟨⟨[syncReply 1, (StreamMsg.fullBegin 5).bytes ++ (StreamMsg.fullEnd 5).bytes], by decide⟩,
    rfl, ?_⟩
  refine (stream_after_switch (fun m hm => ?_) (by decide) [] (by decide)).mpr ⟨1, by decide⟩
  rcases List.mem_pair.mp hm with rfl | rfl
  · exact (by decide : 5 < 2 ^ 64)
  · exact (by decide : 5 < 2 ^ 64)

/-- A FULL_BEGIN that arrives with the reply: the loop finds the end of the stream. -/
theorem stream_loses_messages :
    ∃ conn : Chunks,
      conn.1.flatten = syncReply 1 ++ ([StreamMsg.fullBegin 5].map StreamMsg.bytes).flatten ∧
      replicateMsgs 1 [] conn 2 = some ([], some (.io .eof)) := by
  refine ⟨⟨[syncReply 1 ++ (StreamMsg.fullBegin 5).bytes], by decide⟩, by decide, by decide +kernel⟩

end KvStore
