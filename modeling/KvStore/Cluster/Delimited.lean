import KvStore.Cluster.Stream

/-!
# Records and messages in a row

Neither a record nor a message of the replication stream is framed: what follows one is found by
its own length (record.go lines 94–210, stream.go lines 65–181).

* `codec_bijection`: decoding in a row returns the records that were appended, and the messages
  that were written; and what is decoded is what `AppendRecord` and the functions that write
  messages give for it, byte for byte.
-/

namespace KvStore

open KvStore.Common

/-! ## Records -/

/-- The records from `offset` on with the bytes that each one takes, up to the end of the buffer. A
    record is not empty, so that there are no more of them than bytes. -/
def decodeLoop (buf : Bytes) : ℕ → ℕ → Except DecodeError (List (Record × ℕ))
  | 0, _ => .ok []
  | fuel + 1, offset =>
    if buf.length ≤ offset then .ok []
    else do
      let (r, n) ← decodeRecord (buf.drop offset) (buf.length - offset)
      let rs ← decodeLoop buf fuel (offset + n)
      .ok ((r, n) :: rs)

/-- Decoding record by record from `offset` on. -/
def decodeRecords (buf : Bytes) (offset : ℕ) : Except DecodeError (List (Record × ℕ)) :=
  decodeLoop buf buf.length offset

theorem foldl_appendRecordTo (dst : Bytes) (rs : List Record) :
    rs.foldl appendRecordTo dst = dst ++ encodeRecords rs := by
  induction rs generalizing dst with
  | nil => rw [List.foldl_nil, encodeRecords_nil, List.append_nil]
  | cons r rs ih =>
    rw [List.foldl_cons, ih, appendRecordTo_eq, encodeRecords_cons, List.append_assoc]

theorem decodeLoop_encodeRecords {rs : List Record} (hfits : ∀ r ∈ rs, r.Fits) (dst : Bytes)
    {fuel : ℕ} (hfuel : rs.length ≤ fuel) :
    decodeLoop (dst ++ encodeRecords rs) fuel dst.length =
      .ok (rs.map fun r => (r, r.encodedLen)) := by
  induction rs generalizing dst fuel with
  | nil =>
    cases fuel with
    | zero => rfl
    | succ fuel =>
      rw [decodeLoop, if_pos (by rw [encodeRecords_nil, List.append_nil])]
      rfl
  | cons r rs ih =>
    obtain ⟨hr, hrs⟩ := List.forall_mem_cons.mp hfits
    rw [List.length_cons] at hfuel
    obtain ⟨fuel, rfl⟩ : ∃ m, fuel = m + 1 := ⟨fuel - 1, by omega⟩
    have hpos := encodedLen_pos r
    have hlen : (dst ++ encodeRecords (r :: rs)).length =
        dst.length + (r.encodedLen + (encodeRecords rs).length) := by
      rw [List.length_append, encodeRecords_cons, List.length_append, length_appendRecord]
    -- the loop goes on behind the record, as if the record had been in the buffer before
    have hnext := ih hrs (dst ++ appendRecord r) (Nat.le_of_succ_le_succ hfuel)
    rw [List.length_append, length_appendRecord, List.append_assoc, ← encodeRecords_cons] at hnext
    rw [decodeLoop, if_neg (by omega), hlen, List.drop_left' rfl, encodeRecords_cons,
      decodeRecord_appendRecord hr _ (by omega), ← encodeRecords_cons]
    show (decodeLoop _ fuel (dst.length + r.encodedLen) >>= fun rs => _) = _
    rw [hnext]
    rfl

/-- `AppendRecord` gives back the bytes that were decoded. -/
theorem appendRecordTo_of_decodeRecord {buf : Bytes} {remaining n : ℕ} {r : Record}
    (h : decodeRecord buf remaining = .ok (r, n)) :
    r.Fits ∧ n = r.encodedLen ∧ n ≤ buf.length ∧ appendRecordTo [] r = buf.take n := by
  obtain ⟨hr, rfl, rest, rfl⟩ := appendRecord_of_decodeRecord h
  refine ⟨hr, rfl, ?_, ?_⟩
  · rw [List.length_append, length_appendRecord]
    omega
  · rw [appendRecordTo_eq, List.nil_append, List.take_left' (length_appendRecord r)]

/-! ## Both directions -/

/-- Records appended to a buffer are decoded as they are, each one with its encoded length, and what
    is decoded is what `AppendRecord` writes; the same for messages read through any reader. -/
theorem codec_bijection :
    (∀ (dst : Bytes) (rs : List Record), (∀ r ∈ rs, r.Fits) →
      decodeRecords (rs.foldl appendRecordTo dst) dst.length =
        .ok (rs.map fun r => (r, r.encodedLen))) ∧
    (∀ (buf : Bytes) (remaining : ℕ) (r : Record) (n : ℕ),
      decodeRecord buf remaining = .ok (r, n) →
        r.Fits ∧ n = r.encodedLen ∧ n ≤ buf.length ∧ appendRecordTo [] r = buf.take n) ∧
    (∀ (σ : Type) (R : Reader σ) (src : σ) (buf : Bytes) (ms : List StreamMsg),
      (∀ m ∈ ms, m.Fits) → R.content src = (ms.map StreamMsg.bytes).flatten →
        ∀ calls > ms.length, readMsgs R calls src buf = (ms, some (.io .eof))) ∧
    (∀ (σ : Type) (R : Reader σ) (src src' : σ) (buf buf' : Bytes) (m : StreamMsg),
      readMsg R src buf = (.ok m, buf', src') →
        (∀ reason, m = .reject reason → reason.length ≤ 1024) →
          m.Fits ∧ R.content src = m.bytes ++ R.content src') := by
  refine ⟨?_, ?_, ?_, ?_⟩
  · intro dst rs hrs
    have hlen := length_le_encodeRecords rs
    rw [foldl_appendRecordTo, decodeRecords]
    exact decodeLoop_encodeRecords hrs dst (by rw [List.length_append]; omega)
  · intro buf remaining r n h
    exact appendRecordTo_of_decodeRecord h
  · intro σ R src buf ms hms hcont calls hcalls
    exact readMsgs_bytes R hms hcalls buf hcont
  · intro σ R src src' buf buf' m h hreject
    exact bytes_of_readMsg h hreject

/-- Two records behind a byte that is already there, and a record between two other messages, which
    arrive in one piece. -/
theorem codec_bijection_mixed :
    decodeRecords ([tinySet 1 3 4, tinySet 2 3 4].foldl appendRecordTo [7]) 1 =
        .ok [(tinySet 1 3 4, 42), (tinySet 2 3 4, 42)] ∧
      appendRecordTo [] (tinySet 1 3 4) = (appendRecord (tinySet 1 3 4) ++ [7]).take 42 ∧
      ∃ src : Chunks, readMsgs Chunks.reader 4 src [] =
          ([.fullBegin 5, .record (tinySet 1 3 4), .heartbeat 6 1], some (.io .eof)) ∧
        ∃ buf' src', readMsg Chunks.reader src [] = (.ok (.fullBegin 5), buf', src') ∧
          Chunks.reader.content src = (StreamMsg.fullBegin 5).bytes ++ Chunks.reader.content src' := by
  obtain ⟨hrecords, hrecord, hmsgs, hmsg⟩ := codec_bijection
  have hfits : ∀ lsn < 2 ^ 64, (tinySet lsn 3 4).Fits :=
    fun lsn h => ⟨h, show 1 ≤ maxKeyLen by decide, show 1 ≤ maxValLen by decide⟩
  have h1 := hfits 1 (by decide)
  have h5 : (StreamMsg.fullBegin 5).Fits := show 5 < 2 ^ 64 by decide
  have hall : ∀ m ∈ [StreamMsg.fullBegin 5, .record (tinySet 1 3 4), .heartbeat 6 1], m.Fits :=
    List.forall_mem_cons.mpr ⟨h5, List.forall_mem_cons.mpr ⟨h1,
      List.forall_mem_singleton.mpr (show 6 < 2 ^ 64 by decide)⟩⟩
  obtain ⟨src, hsrc⟩ : ∃ src : Chunks, Chunks.reader.content src =
      ([StreamMsg.fullBegin 5, .record (tinySet 1 3 4), .heartbeat 6 1].map
        StreamMsg.bytes).flatten :=
    ⟨⟨[_], List.forall_mem_singleton.mpr (List.cons_ne_nil _ _)⟩, List.append_nil _⟩
  refine ⟨hrecords [7] [tinySet 1 3 4, tinySet 2 3 4] ?_,
    (hrecord (appendRecord (tinySet 1 3 4) ++ [7]) 43 (tinySet 1 3 4) 42
      (decodeRecord_appendRecord h1 [7] (by decide))).2.2.2, src, ?_, ?_⟩
  · exact List.forall_mem_cons.mpr ⟨h1, List.forall_mem_singleton.mpr (hfits 2 (by decide))⟩
  · exact hmsgs _ _ src [] _ hall hsrc 4 (by decide)
  · obtain ⟨buf', src', -, hread⟩ := readMsg_bytes Chunks.reader h5 hsrc []
    exact ⟨buf', src', hread, (hmsg _ _ _ _ _ _ _ hread (fun _ h => nomatch h)).2⟩

end KvStore
