import KvStore.Common.Crc

/-!
# Log records

Model of `internal/wal/record.go`. A record is a CRC-32C, a length, and a payload of
a fixed 32-byte header followed by key and value. An LSN is a natural number, stored
in eight bytes.

* `decodeRecord_appendRecord`: decoding reads back what was serialised, whatever
  follows it.
* `appendRecord_of_decodeRecord`: nothing else is decoded.
-/

namespace KvStore

open KvStore.Common

/-! ## Records -/

/-- `RecordType` (lines 51–58), the valid ones. -/
inductive RecordType
  | set
  | delete
  | expire
  | segmentHdr
  deriving DecidableEq, Repr

/-- The byte a record type is written as. -/
def RecordType.toByte : RecordType → UInt8
  | .set => 1
  | .delete => 2
  | .expire => 3
  | .segmentHdr => 4

/-- The valid record types (`Valid`, lines 79–81). -/
def RecordType.ofByte? (b : UInt8) : Option RecordType :=
  if b = 1 then some .set
  else if b = 2 then some .delete
  else if b = 3 then some .expire
  else if b = 4 then some .segmentHdr
  else none

@[simp] theorem ofByte?_toByte (t : RecordType) : RecordType.ofByte? t.toByte = some t := by
  cases t <;> rfl

/-- `Record` (lines 84–92). -/
structure Record where
  lsn : ℕ
  createdAtMs : UInt64
  type : RecordType
  flags : UInt8
  key : Bytes
  value : Bytes
  expireAtMs : UInt64
  deriving DecidableEq, Repr

/-- `recHeaderLen`, `payloadHeaderLen`, `MaxRecordLen`, `maxKeyLen` and `maxValLen`
    (lines 31–41). -/
def recHeaderLen : ℕ := 8

def payloadHeaderLen : ℕ := 32

def maxRecordLen : ℕ := payloadHeaderLen + 2 ^ 16 + 16 * 2 ^ 20 + 64

def maxKeyLen : ℕ := 2 ^ 16 - 1

def maxValLen : ℕ := 16 * 2 ^ 20

/-- `EncodedLen` (lines 95–97). -/
def Record.encodedLen (r : Record) : ℕ :=
  recHeaderLen + payloadHeaderLen + r.key.length + r.value.length

/-- The payload `AppendRecord` assembles (lines 111–126). -/
def Record.payload (r : Record) : Bytes :=
  putLE 8 r.lsn ++ (putLE 8 r.createdAtMs.toNat ++ (putLE 1 r.type.toByte.toNat ++
    (putLE 1 r.flags.toNat ++ (putLE 2 r.key.length ++ (putLE 4 r.value.length ++
      (putLE 8 r.expireAtMs.toNat ++ (r.key ++ r.value)))))))

/-- `AppendRecord` (lines 110–134) onto an empty buffer. -/
def appendRecord (r : Record) : Bytes :=
  putLE 4 (checksum r.payload).toNat ++ (putLE 4 r.payload.length ++ r.payload)

/-- `AppendRecord` (lines 110–134) as it goes: room for the two headers, the fields of the payload
    header, key and value, and then the checksum of the payload that is there. -/
def appendRecordTo (dst : Bytes) (r : Record) : Bytes :=
  let payloadLen := payloadHeaderLen + r.key.length + r.value.length
  let start := dst.length
  let dst := dst ++ List.replicate (recHeaderLen + payloadHeaderLen) 0
  let p := start + recHeaderLen
  let dst := putAt dst p (putLE 8 r.lsn)
  let dst := putAt dst (p + 8) (putLE 8 r.createdAtMs.toNat)
  let dst := putAt dst (p + 16) (putLE 1 r.type.toByte.toNat)
  let dst := putAt dst (p + 17) (putLE 1 r.flags.toNat)
  let dst := putAt dst (p + 18) (putLE 2 r.key.length)
  let dst := putAt dst (p + 20) (putLE 4 r.value.length)
  let dst := putAt dst (p + 24) (putLE 8 r.expireAtMs.toNat)
  let dst := dst ++ r.key
  let dst := dst ++ r.value
  let crc := checksum ((dst.drop p).take payloadLen)
  let dst := putAt dst start (putLE 4 crc.toNat)
  putAt dst (start + 4) (putLE 4 payloadLen)

/-- The errors of `DecodeRecord` (lines 100–107). -/
inductive DecodeError
  | shortRecord
  | lengthTooBig
  | tornTail
  | badCRC
  | badPayload
  | badRecordType
  deriving DecidableEq, Repr

/-- The fields of a payload whose checksum is right (lines 178–208). -/
def decodePayload (payload : Bytes) : Except DecodeError Record :=
  if payload.length < payloadHeaderLen then .error .badPayload
  else
    let keyLen := field payload 18 2
    let valLen := field payload 20 4
    if valLen > maxValLen ∨ keyLen > maxKeyLen then .error .badPayload
    else if payloadHeaderLen + keyLen + valLen ≠ payload.length then .error .badPayload
    else
      match RecordType.ofByte? (UInt8.ofNat (field payload 16 1)) with
      | none => .error .badRecordType
      | some type =>
        .ok {
          lsn := field payload 0 8
          createdAtMs := UInt64.ofNat (field payload 8 8)
          type := type
          flags := UInt8.ofNat (field payload 17 1)
          key := (payload.drop payloadHeaderLen).take keyLen
          value := (payload.drop (payloadHeaderLen + keyLen)).take valLen
          expireAtMs := UInt64.ofNat (field payload 24 8) }

/-- `DecodeRecord` (lines 158–210): the record at the front of `buf` and its size. -/
def decodeRecord (buf : Bytes) (fileRemaining : ℕ) : Except DecodeError (Record × ℕ) :=
  if buf.length < recHeaderLen then .error .shortRecord
  else
    let length := field buf 4 4
    if length > maxRecordLen then .error .lengthTooBig
    else if recHeaderLen + length > fileRemaining then .error .tornTail
    else if buf.length < recHeaderLen + length then .error .tornTail
    else
      let payload := (buf.drop recHeaderLen).take length
      if (checksum payload).toNat ≠ field buf 0 4 then .error .badCRC
      else
        match decodePayload payload with
        | .error e => .error e
        | .ok r => .ok (r, recHeaderLen + length)

/-- What `Submit` and the segment header guarantee of a record that is serialised: every
    length fits its field. -/
structure Record.Fits (r : Record) : Prop where
  lsn : r.lsn < 2 ^ 64
  key : r.key.length ≤ maxKeyLen
  value : r.value.length ≤ maxValLen

/-! ## Round trip -/

variable {r : Record}

@[simp] theorem length_payload (r : Record) :
    r.payload.length = payloadHeaderLen + r.key.length + r.value.length := by
  simp [Record.payload, payloadHeaderLen]
  omega

@[simp] theorem length_appendRecord (r : Record) : (appendRecord r).length = r.encodedLen := by
  simp [appendRecord, Record.encodedLen, recHeaderLen]
  omega

/-- Filling in the next field of a header that is still zero behind it. -/
theorem putAt_zeros {x : Bytes} {off : ℕ} (hx : x.length = off) (w n k : ℕ) :
    putAt (x ++ List.replicate (w + k) 0) off (putLE w n) = (x ++ putLE w n) ++ List.replicate k 0 := by
  rw [List.replicate_add, putAt_append hx (by simp), List.append_assoc]

/-- What was in the buffer stays in front of the record. -/
theorem appendRecordTo_eq (dst : Bytes) (r : Record) :
    appendRecordTo dst r = dst ++ appendRecord r := by
  have hzeros : dst ++ List.replicate (recHeaderLen + payloadHeaderLen) (0 : UInt8) =
      (dst ++ List.replicate recHeaderLen 0) ++ List.replicate (8 + (8 + (1 + (1 + (2 + (4 +
        (8 + 0))))))) 0 := by
    rw [List.append_assoc, ← List.replicate_add]
    rfl
  unfold appendRecordTo
  dsimp only
  rw [hzeros, putAt_zeros (by simp), putAt_zeros (by simp [Nat.add_assoc]),
    putAt_zeros (by simp [Nat.add_assoc]), putAt_zeros (by simp [Nat.add_assoc]),
    putAt_zeros (by simp [Nat.add_assoc]), putAt_zeros (by simp [Nat.add_assoc]),
    putAt_zeros (by simp [Nat.add_assoc])]
  have hpayload : (dst ++ List.replicate recHeaderLen 0 ++ putLE 8 r.lsn ++
      putLE 8 r.createdAtMs.toNat ++ putLE 1 r.type.toByte.toNat ++ putLE 1 r.flags.toNat ++
      putLE 2 r.key.length ++ putLE 4 r.value.length ++ putLE 8 r.expireAtMs.toNat ++
      List.replicate 0 0 ++ r.key ++ r.value) =
      dst ++ (List.replicate 4 0 ++ (List.replicate 4 0 ++ r.payload)) := by
    simp [Record.payload, recHeaderLen, List.replicate]
  have hdrop : (dst ++ (List.replicate 4 0 ++ (List.replicate 4 0 ++ r.payload))).drop
      (dst.length + recHeaderLen) = r.payload := by
    rw [← List.drop_drop, List.drop_left' rfl, ← List.append_assoc]
    exact List.drop_left' rfl
  rw [hpayload, hdrop, ← length_payload, List.take_length, putAt_append rfl (by simp),
    ← List.append_assoc dst, putAt_append (by simp) (by simp), List.append_assoc]
  rfl

/-- What follows the two timestamps of a payload. -/
theorem field_payload (r : Record) (off len : ℕ) : field r.payload (8 + (8 + off)) len =
    field (putLE 1 r.type.toByte.toNat ++ (putLE 1 r.flags.toNat ++ (putLE 2 r.key.length ++
      (putLE 4 r.value.length ++ (putLE 8 r.expireAtMs.toNat ++ (r.key ++ r.value)))))) off len :=
  (field_add _ (length_putLE 8 _) len).trans (field_add _ (length_putLE 8 _) len)

theorem field_payload_key (h : r.Fits) : field r.payload 18 2 = r.key.length := by
  have hk : r.key.length < 256 ^ 2 := by
    have := h.key; unfold maxKeyLen at this; omega
  exact (field_payload r 2 2).trans ((field_add (o := 1) _ (length_putLE 1 _) 2).trans
    ((field_add (o := 0) _ (length_putLE 1 _) 2).trans (field_zero_putLE _ hk)))

theorem field_payload_value (h : r.Fits) : field r.payload 20 4 = r.value.length := by
  have hv : r.value.length < 256 ^ 4 := by
    have := h.value; unfold maxValLen at this; omega
  exact (field_payload r 4 4).trans ((field_add (o := 3) _ (length_putLE 1 _) 4).trans
    ((field_add (o := 2) _ (length_putLE 1 _) 4).trans
      ((field_add (o := 0) _ (length_putLE 2 _) 4).trans (field_zero_putLE _ hv))))

theorem decodePayload_payload (h : r.Fits) : decodePayload r.payload = .ok r := by
  have f0 : field r.payload 0 8 = r.lsn := field_zero_putLE _ (by simpa using h.lsn)
  have f8 : field r.payload 8 8 = r.createdAtMs.toNat :=
    (field_add (o := 0) _ (length_putLE 8 _) 8).trans
      (field_zero_putLE _ (by simpa using r.createdAtMs.toNat_lt))
  have f16 : field r.payload 16 1 = r.type.toByte.toNat :=
    (field_payload r 0 1).trans (field_zero_putLE _ (by simpa using r.type.toByte.toNat_lt))
  have f17 : field r.payload 17 1 = r.flags.toNat :=
    (field_payload r 1 1).trans ((field_add (o := 0) _ (length_putLE 1 _) 1).trans
      (field_zero_putLE _ (by simpa using r.flags.toNat_lt)))
  have f18 := field_payload_key h
  have f20 := field_payload_value h
  have f24 : field r.payload 24 8 = r.expireAtMs.toNat :=
    (field_payload r 8 8).trans ((field_add (o := 7) _ (length_putLE 1 _) 8).trans
      ((field_add (o := 6) _ (length_putLE 1 _) 8).trans
        ((field_add (o := 4) _ (length_putLE 2 _) 8).trans
          ((field_add (o := 0) _ (length_putLE 4 _) 8).trans
            (field_zero_putLE _ (by simpa using r.expireAtMs.toNat_lt))))))
  have hbody : r.payload.drop payloadHeaderLen = r.key ++ r.value := by
    rw [Record.payload, ← List.append_assoc, ← List.append_assoc, ← List.append_assoc,
      ← List.append_assoc, ← List.append_assoc, ← List.append_assoc]
    exact List.drop_left' (by simp [payloadHeaderLen])
  unfold decodePayload
  rw [if_neg (by simp [Nat.add_assoc])]
  dsimp only
  rw [f0, f8, f16, f17, f18, f20, f24, if_neg (by have := h.key; have := h.value; omega),
    if_neg (by simp), UInt8.ofNat_toNat, ofByte?_toByte, ← List.drop_drop, hbody,
    List.take_left' rfl, List.drop_left' rfl, List.take_length]
  simp

theorem fits_length_le (h : r.Fits) : r.payload.length ≤ maxRecordLen := by
  have h1 := h.key
  have h2 := h.value
  unfold maxKeyLen at h1
  unfold maxValLen at h2
  rw [length_payload]
  unfold maxRecordLen
  omega

/-- The length field of a serialised record, whatever follows it. -/
theorem field_length_appendRecord (h : r.Fits) (rest : Bytes) :
    field (appendRecord r ++ rest) 4 4 = r.payload.length := by
  have hle := fits_length_le h
  rw [appendRecord, List.append_assoc, List.append_assoc]
  refine (field_add (o := 0) _ (length_putLE 4 _) 4).trans (field_zero_putLE _ ?_)
  unfold maxRecordLen payloadHeaderLen at hle
  omega

theorem field_crc_appendRecord (r : Record) (rest : Bytes) :
    field (appendRecord r ++ rest) 0 4 = (checksum r.payload).toNat := by
  rw [appendRecord, List.append_assoc]
  exact field_zero_putLE _ (by simpa using (checksum r.payload).toNat_lt)

theorem drop_appendRecord (r : Record) (rest : Bytes) :
    (appendRecord r ++ rest).drop recHeaderLen = r.payload ++ rest := by
  rw [appendRecord, ← List.append_assoc, List.append_assoc]
  exact List.drop_left' (by simp [recHeaderLen])

/-- Decoding reads back what was serialised, whatever follows it. -/
theorem decodeRecord_appendRecord (h : r.Fits) (rest : Bytes) {fileRemaining : ℕ}
    (hrem : r.encodedLen ≤ fileRemaining) :
    decodeRecord (appendRecord r ++ rest) fileRemaining = .ok (r, r.encodedLen) := by
  have hle := fits_length_le h
  have hlen : recHeaderLen + r.payload.length = r.encodedLen := by
    rw [length_payload, Record.encodedLen]; omega
  unfold decodeRecord
  dsimp only
  rw [field_length_appendRecord h, field_crc_appendRecord, drop_appendRecord, List.take_left' rfl,
    hlen, decodePayload_payload h,
    if_neg (by rw [List.length_append, length_appendRecord, ← hlen]; omega),
    if_neg (by omega), if_neg (by omega),
    if_neg (by rw [List.length_append, length_appendRecord]; omega), if_neg (by simp)]

/-! ## What is decoded was serialised -/

theorem toByte_of_ofByte? {b : UInt8} {t : RecordType} (h : RecordType.ofByte? b = some t) :
    t.toByte = b := by
  unfold RecordType.ofByte? at h
  split_ifs at h with h1 h2 h3 h4 <;> cases h <;> symm <;> assumption

/-- Only the payload of a record is decoded to it. -/
theorem payload_of_decodePayload {payload : Bytes} (h : decodePayload payload = .ok r) :
    r.payload = payload ∧ r.Fits := by
  unfold decodePayload at h
  split_ifs at h with hshort
  dsimp only at h
  split_ifs at h with hbounds hlens
  rw [not_lt, payloadHeaderLen] at hshort
  rw [not_or, not_lt, not_lt] at hbounds
  rw [not_not, payloadHeaderLen] at hlens
  cases htype : RecordType.ofByte? (UInt8.ofNat (field payload 16 1)) with
  | none => rw [htype] at h; cases h
  | some type =>
    rw [htype] at h
    cases h
    have hkey : ((payload.drop 32).take (field payload 18 2)).length = field payload 18 2 := by
      rw [List.length_take_of_le]
      rw [List.length_drop]
      omega
    have hvalue : (payload.drop (32 + field payload 18 2)).take (field payload 20 4) =
        payload.drop (32 + field payload 18 2) := by
      rw [List.take_of_length_le]
      rw [List.length_drop]
      omega
    have hbyte : ∀ off, (UInt8.ofNat (field payload off 1)).toNat = field payload off 1 :=
      fun off => UInt8.toNat_ofNat_of_lt' (field_lt payload off 1)
    have hword : ∀ off, (UInt64.ofNat (field payload off 8)).toNat = field payload off 8 :=
      fun off => UInt64.toNat_ofNat_of_lt' (field_lt payload off 8)
    refine ⟨?_, field_lt payload 0 8, hkey.trans_le hbounds.2, ?_⟩
    · -- the fields one after another
      unfold Record.payload
      dsimp only
      rw [payloadHeaderLen, toByte_of_ofByte? htype, hbyte, hbyte, hword, hword, hkey, hvalue,
        List.length_drop,
        show payload.length - (32 + field payload 18 2) = field payload 20 4 by omega,
        ← List.drop_drop, List.take_append_drop, putLE_field_append 24 (by omega),
        putLE_field_append 20 (by omega), putLE_field_append 18 (by omega),
        putLE_field_append 17 (by omega), putLE_field_append 16 (by omega),
        putLE_field_append 8 (by omega), putLE_field_append 0 (by omega)]
      rfl
    · show ((payload.drop (32 + _)).take _).length ≤ maxValLen
      rw [hvalue, List.length_drop]
      omega

/-- Only a serialised record is decoded to it. -/
theorem appendRecord_of_decodeRecord {buf : Bytes} {fileRemaining n : ℕ}
    (h : decodeRecord buf fileRemaining = .ok (r, n)) :
    r.Fits ∧ n = r.encodedLen ∧ ∃ rest, buf = appendRecord r ++ rest := by
  unfold decodeRecord at h
  split_ifs at h with hshort
  dsimp only at h
  split_ifs at h with hbig hrem hlen hcrc
  rw [not_lt, recHeaderLen] at hshort
  rw [not_lt, recHeaderLen] at hlen
  rw [not_not] at hcrc
  cases hdecode : decodePayload ((buf.drop recHeaderLen).take (field buf 4 4)) with
  | error err => rw [hdecode] at h; cases h
  | ok r' =>
    rw [hdecode] at h
    cases h
    obtain ⟨hpayload, hfits⟩ := payload_of_decodePayload hdecode
    have hsize : r.payload.length = field buf 4 4 := by
      rw [hpayload, List.length_take_of_le]
      rw [List.length_drop, recHeaderLen]
      omega
    refine ⟨hfits, ?_, buf.drop (8 + field buf 4 4), ?_⟩
    · rw [← hsize, length_payload, Record.encodedLen]
      omega
    · rw [appendRecord, hpayload, hcrc, ← hpayload, hsize, hpayload, List.append_assoc,
        List.append_assoc, ← List.drop_drop, recHeaderLen, List.take_append_drop,
        putLE_field_append 4 (by omega), putLE_field_append 0 (by omega)]
      rfl

end KvStore
