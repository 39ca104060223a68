import KvStore.Wal.Truncate

/-!
# A flipped bit

One bit of one segment file of a healthy log is flipped, and `Replay` is asked to recover
without `--unsafe-truncate`.

* `flip_refused`: it refuses with `ErrCorruptMidLog` if and only if the bit does not make the length
  of a record of the last segment, its header included, reach beyond the end of the file.
* `flip_taken_for_torn_tail`: then the record passes for a torn tail, and is cut off.
* `decodeRecord_flipBit`: `DecodeRecord` itself fails on every record with a flipped bit, whatever
  follows it.

No record decodes where a byte was changed: a change of the checksum or of the payload shows in
the checksum, and a change of the length in the lengths that the payload itself gives for key and
value.
-/

namespace KvStore

open KvStore.Common

/-! ## A changed record -/

section Record

variable {r r' : Record} {rest tail q : Bytes} {i : ℕ}

theorem field_append_payload (r : Record) (rest : Bytes) {off len : ℕ} (h : off + len ≤ 32) :
    field (r.payload ++ rest) off len = field r.payload off len := by
  have hlen : off + len ≤ r.payload.length := by
    rw [length_payload, payloadHeaderLen]
    omega
  rw [← field_take _ hlen, List.take_left' rfl]

/-- Payloads that begin alike have the same length. -/
theorem length_payload_eq (hr : r.Fits) (hr' : r'.Fits)
    (h : r.payload ++ rest = r'.payload ++ tail) :
    r.payload.length = r'.payload.length := by
  have hkey : r.key.length = r'.key.length := by
    rw [← field_payload_key hr, ← field_payload_key hr',
      ← field_append_payload r rest (by decide), h, field_append_payload r' tail (by decide)]
  have hvalue : r.value.length = r'.value.length := by
    rw [← field_payload_value hr, ← field_payload_value hr',
      ← field_append_payload r rest (by decide), h, field_append_payload r' tail (by decide)]
  rw [length_payload, length_payload, hkey, hvalue]

/-- A serialised record with a changed byte does not begin like another one. -/
theorem changed_ne_appendRecord (hr : r.Fits) (hr' : r'.Fits)
    (h : ChangedAt (appendRecord r ++ rest) q i) (hi : i < r.encodedLen) :
    q ≠ appendRecord r' ++ tail := by
  rintro rfl
  -- the two records are not the same
  have hne : r.payload ≠ r'.payload := by
    intro hpayload
    have hsame : appendRecord r' = appendRecord r := by rw [appendRecord, appendRecord, hpayload]
    have hlen : (appendRecord r').length = r.encodedLen := by rw [hsame, length_appendRecord]
    apply (h.take hi).ne
    rw [List.take_left' (length_appendRecord r), List.take_left' hlen, hsame]
  by_cases hhdr : i < recHeaderLen
  · -- the payloads begin alike, so that they have the same length
    have hdrop := h.drop_eq hhdr
    rw [drop_appendRecord, drop_appendRecord] at hdrop
    exact hne (List.append_inj hdrop.symm (length_payload_eq hr hr' hdrop.symm)).1
  · -- checksum and length are as they were
    rw [not_lt] at hhdr
    have hfield : ∀ off len, off + len ≤ recHeaderLen →
        field (appendRecord r' ++ tail) off len = field (appendRecord r ++ rest) off len := by
      intro off len hle
      rw [← field_take _ hle, h.take_eq hhdr, field_take _ hle]
    have hlen := hfield 4 4 le_rfl
    have hcrc := hfield 0 4 (by decide)
    rw [field_length_appendRecord hr, field_length_appendRecord hr'] at hlen
    rw [field_crc_appendRecord, field_crc_appendRecord] at hcrc
    have hchanged := h.drop hhdr
    rw [drop_appendRecord, drop_appendRecord] at hchanged
    have hpos : i - recHeaderLen < r.payload.length := by
      have hsize : r.encodedLen = recHeaderLen + r.payload.length := by
        rw [length_payload, Record.encodedLen]
        omega
      omega
    have hpayload := hchanged.take hpos
    rw [List.take_left' rfl, List.take_left' hlen] at hpayload
    exact checksum_ne hpayload (UInt32.toNat_inj.mp hcrc).symm

/-- The length field of the record at `pos` is not too large, and reaches beyond the end of the
    file. -/
def Overruns (b : Bytes) (pos : ℕ) : Prop :=
  field b (pos + 4) 4 ≤ maxRecordLen ∧ b.length < pos + recHeaderLen + field b (pos + 4) 4

instance (b : Bytes) (pos : ℕ) : Decidable (Overruns b pos) :=
  inferInstanceAs (Decidable (_ ∧ _))

/-- A record that is there as a whole does not decode as a torn one. -/
theorem decodeRecord_ne_tornTail {buf : Bytes} {remaining : ℕ}
    (hrem : recHeaderLen + field buf 4 4 ≤ remaining)
    (hlen : recHeaderLen + field buf 4 4 ≤ buf.length) :
    decodeRecord buf remaining ≠ .error .tornTail := by
  have hpayload : ∀ payload, decodePayload payload ≠ .error .tornTail := by
    intro payload h
    unfold decodePayload at h
    dsimp only at h
    split_ifs at h
    · cases h
    · cases h
    · cases h
    · cases htype : RecordType.ofByte? (UInt8.ofNat (field payload 16 1)) <;>
        rw [htype] at h <;> cases h
  intro h
  unfold decodeRecord at h
  dsimp only at h
  rw [if_neg (not_lt.mpr hrem), if_neg (not_lt.mpr hlen)] at h
  split_ifs at h
  · cases h
  · cases h
  · cases h
  · cases hdecode : decodePayload ((buf.drop recHeaderLen).take (field buf 4 4)) with
    | error e =>
      rw [hdecode] at h
      cases h
      exact hpayload _ hdecode
    | ok r => rw [hdecode] at h; cases h

theorem overruns_of_scanHead {offset : ℕ} {err : FaultErr} (hlen : recHeaderLen ≤ q.length)
    (h : scanHead q offset = .stop .tornTail err) : Overruns q 0 := by
  unfold scanHead at h
  dsimp only at h
  split_ifs at h with hnil hshort hbig hneeds
  · omega
  · cases h
  · refine ⟨?_, ?_⟩
    · rw [Nat.zero_add]
      exact not_lt.mp hbig
    · rw [Nat.zero_add, Nat.zero_add]
      exact hneeds
  · have hle : recHeaderLen + field q 4 4 ≤ q.length := not_lt.mp hneeds
    have htake : (q.take (recHeaderLen + field q 4 4)).length = recHeaderLen + field q 4 4 :=
      List.length_take_of_le hle
    have hfield : field (q.take (recHeaderLen + field q 4 4)) 4 4 = field q 4 4 :=
      field_take q (Nat.le_add_right _ _)
    have hne := decodeRecord_ne_tornTail (hfield ▸ hle) (by rw [hfield, htake])
    cases hdecode : decodeRecord (q.take (recHeaderLen + field q 4 4)) q.length with
    | error e =>
      rw [hdecode] at h hne
      cases e with
      | tornTail => exact absurd rfl hne
      | _ => cases h
    | ok p => rw [hdecode] at h; cases h

theorem scanHead_of_overruns (hlen : recHeaderLen ≤ q.length) (h : Overruns q 0) (offset : ℕ) :
    ∃ err, scanHead q offset = .stop .tornTail err := by
  obtain ⟨hbig, hneeds⟩ := h
  simp only [Nat.zero_add] at hbig hneeds
  have hpos : 0 < recHeaderLen := by decide
  unfold scanHead
  dsimp only
  rw [if_neg (by omega), if_neg (by omega), if_neg (by omega), if_pos (by omega)]
  exact ⟨_, rfl⟩

/-- The loop stops at a changed record, which passes for a torn one iff its length overruns. -/
theorem scanHead_changed (hr : r.Fits) (h : ChangedAt (appendRecord r ++ rest) q i)
    (hi : i < r.encodedLen) (offset : ℕ) :
    ∃ fault err, scanHead q offset = .stop fault err ∧ fault ≠ .none ∧
      (fault = .corrupt ↔ ¬ Overruns q 0) := by
  have hlen : recHeaderLen ≤ q.length := by
    rw [h.length_eq, List.length_append, length_appendRecord, Record.encodedLen]
    omega
  cases hhead : scanHead q offset with
  | eof =>
    rw [scanHead_eq_eof hhead] at hlen
    exact absurd hlen (by decide)
  | record r' n =>
    obtain ⟨hr', -, tail, htail⟩ := appendRecord_of_scanHead hhead
    exact absurd htail (changed_ne_appendRecord hr hr' h hi)
  | stop fault err =>
    refine ⟨fault, err, rfl, fault_of_scanHead hhead, ?_⟩
    cases fault with
    | none => exact absurd rfl (fault_of_scanHead hhead)
    | corrupt =>
      refine iff_of_true rfl fun ho => ?_
      obtain ⟨err', herr⟩ := scanHead_of_overruns hlen ho offset
      rw [hhead] at herr
      cases herr
    | tornTail =>
      exact iff_of_false (by simp) (not_not.mpr (overruns_of_scanHead hlen hhead))

end Record

/-! ## A changed segment -/

section Segment

variable {σ ε : Type} {rs pre : List Record} {b b' : Bytes} {i : ℕ}

/-- The offset of a record of a file. The header is the first one. -/
def recordOffset (b : Bytes) : ℕ → ℕ
  | 0 => 0
  | j + 1 => segmentHdrLen + (encodeRecords ((scannedRecords b).take j)).length

theorem overruns_append (a q : Bytes) : Overruns (a ++ q) a.length ↔ Overruns q 0 := by
  have hfield : field (a ++ q) (a.length + 4) 4 = field q 4 4 := field_add q rfl 4
  rw [Overruns, Overruns, hfield, List.length_append, Nat.zero_add, Nat.zero_add]
  omega

/-- A record that is there as a whole does not overrun. -/
theorem not_overruns_record {r : Record} (hr : r.Fits) (rest : Bytes) :
    ¬ Overruns (appendRecord r ++ rest) 0 := by
  rintro ⟨-, hneeds⟩
  rw [Nat.zero_add, Nat.zero_add, field_length_appendRecord hr, List.length_append,
    length_appendRecord, length_payload, Record.encodedLen] at hneeds
  omega

/-- A change outside of the length field does not show. -/
theorem overruns_of_outside (h : ChangedAt b b' i) {pos : ℕ}
    (hi : i < pos + 4 ∨ pos + recHeaderLen ≤ i) : Overruns b' pos ↔ Overruns b pos := by
  rw [Overruns, Overruns, h.length_eq, h.field_eq hi]

/-! ### Where records start -/

theorem length_encodeRecords_take_succ {j : ℕ} (hj : j < rs.length) :
    (encodeRecords (rs.take (j + 1))).length =
      (encodeRecords (rs.take j)).length + rs[j].encodedLen := by
  rw [← List.take_append_getElem hj, encodeRecords_append, List.length_append, encodeRecords_cons,
    encodeRecords_nil, List.append_nil, length_appendRecord]

theorem length_encodeRecords_take_mono (rs : List Record) {j j' : ℕ} (h : j ≤ j') :
    (encodeRecords (rs.take j)).length ≤ (encodeRecords (rs.take j')).length := by
  obtain ⟨rest, hrest⟩ := List.take_prefix_take_left (l := rs) h
  rw [← hrest, encodeRecords_append, List.length_append]
  exact Nat.le_add_right _ _

/-- A change in the record with number `p` makes no other one overrun. -/
theorem overruns_changed (hfits : ∀ r ∈ rs, r.Fits) (h : ChangedAt (encodeRecords rs) b' i) {p j : ℕ}
    (hlo : (encodeRecords (rs.take p)).length ≤ i)
    (hhi : i < (encodeRecords (rs.take (p + 1))).length) (hj : j < rs.length)
    (ho : Overruns b' (encodeRecords (rs.take j)).length) : j = p := by
  by_contra hne
  have hsucc := length_encodeRecords_take_succ hj
  have hlen : recHeaderLen ≤ rs[j].encodedLen := by
    rw [Record.encodedLen]
    omega
  have houtside : i < (encodeRecords (rs.take j)).length + 4 ∨
      (encodeRecords (rs.take j)).length + recHeaderLen ≤ i := by
    rcases Nat.lt_or_gt_of_ne hne with hlt | hgt
    · have hmono := length_encodeRecords_take_mono rs (show j + 1 ≤ p from hlt)
      omega
    · have hmono := length_encodeRecords_take_mono rs (show p + 1 ≤ j from hgt)
      omega
  have hsplit : encodeRecords rs =
      encodeRecords (rs.take j) ++ (appendRecord rs[j] ++ encodeRecords (rs.drop (j + 1))) := by
    rw [← encodeRecords_cons, ← List.drop_eq_getElem_cons hj, ← encodeRecords_append,
      List.take_append_drop]
  rw [overruns_of_outside h houtside, hsplit, overruns_append] at ho
  exact not_overruns_record (hfits _ (List.getElem_mem hj)) _ ho

/-- The record that a byte belongs to. -/
theorem exists_record_at (h : i < (encodeRecords rs).length) :
    ∃ pre r post, rs = pre ++ r :: post ∧ (encodeRecords pre).length ≤ i ∧
      i - (encodeRecords pre).length < r.encodedLen := by
  induction rs generalizing i with
  | nil => exact absurd h (Nat.not_lt_zero i)
  | cons r rs ih =>
    rw [encodeRecords_cons, List.length_append, length_appendRecord] at h
    by_cases hi : i < r.encodedLen
    · exact ⟨[], r, rs, rfl, Nat.zero_le i, hi⟩
    · obtain ⟨pre, x, post, rfl, hle, hlt⟩ := ih (show i - r.encodedLen < _ by omega)
      have hlen : (encodeRecords (r :: pre)).length = r.encodedLen + (encodeRecords pre).length := by
        rw [encodeRecords_cons, List.length_append, length_appendRecord]
      exact ⟨r :: pre, x, post, rfl, by omega, by omega⟩

/-- The loop goes through records that are there as a whole. -/
theorem scanLoop_append (hfits : ∀ r ∈ pre, r.Fits) (fn : σ → Record → Except ε σ) (fuel : ℕ)
    (rest : Bytes) (res : ScanResult) (st : σ) :
    scanLoop fn (pre.length + fuel) (encodeRecords pre ++ rest) false res st =
      pre.foldlM fn st >>= fun st => scanLoop fn fuel rest false (res.visitAll pre) st := by
  induction pre generalizing res st with
  | nil =>
    rw [List.length_nil, Nat.zero_add]
    rfl
  | cons r pre ih =>
    obtain ⟨hr, hpre⟩ := List.forall_mem_cons.mp hfits
    rw [List.length_cons, Nat.add_right_comm, scanLoop, encodeRecords_cons, List.append_assoc,
      scanHead_record hr, List.foldlM_cons]
    simp only [Bool.false_eq_true, if_false, List.drop_left' (length_appendRecord r)]
    cases fn st r with
    | error e => rfl
    | ok st' => exact ih hpre (res.visit r r.encodedLen) st'

theorem scannedRecords_records {hdr : Record} (h : hdr.Fits) {version : ℕ}
    (hparse : parseSegmentHeader hdr = .ok version) (hfits : ∀ r ∈ rs, r.Fits) :
    scannedRecords (appendRecord hdr ++ encodeRecords rs) = rs := by
  obtain ⟨res, -, -, hscan⟩ := scanSegment_records collect h hparse hfits
  unfold scannedRecords
  rw [hscan, foldlM_collect]
  rfl

/-- A scan of a healthy file of which one byte was changed ends with a fault, after records of the
    file. -/
theorem scanSegment_changed (hb : healthy b = true) (h : ChangedAt b b' i) :
    ∃ (res : ScanResult) (rs : List Record), res.fault ≠ .none ∧
      (res.fault = .corrupt ↔
        ∀ j ≤ (scannedRecords b).length, ¬ Overruns b' (recordOffset b j)) ∧
      rs <+: scannedRecords b ∧
      ∀ {σ ε : Type} (fn : σ → Record → Except ε σ) (st : σ),
        scanSegment fn b' st = rs.foldlM fn st >>= fun st => .ok (res, st) := by
  obtain ⟨hdr, version, rs, hhdr, hparse, hfits, rfl⟩ := (healthy_iff_records b).mp hb
  have hrecords := scannedRecords_records hhdr hparse hfits
  have hhdrlen := encodedLen_of_parseSegmentHeader hparse
  have hall : ∀ r ∈ hdr :: rs, r.Fits := List.forall_mem_cons.mpr ⟨hhdr, hfits⟩
  have hoffset : ∀ j, recordOffset (appendRecord hdr ++ encodeRecords rs) j =
      (encodeRecords ((hdr :: rs).take j)).length := by
    intro j
    cases j with
    | zero => rfl
    | succ j =>
      rw [recordOffset, hrecords, List.take_succ_cons, encodeRecords_cons, List.length_append,
        length_appendRecord, hhdrlen]
  -- only the record that was changed can overrun
  have honly : ∀ {p : ℕ}, p ≤ rs.length → (encodeRecords ((hdr :: rs).take p)).length ≤ i →
      i < (encodeRecords ((hdr :: rs).take (p + 1))).length →
      (¬ Overruns b' (encodeRecords ((hdr :: rs).take p)).length ↔
        ∀ j ≤ (scannedRecords (appendRecord hdr ++ encodeRecords rs)).length,
          ¬ Overruns b' (recordOffset (appendRecord hdr ++ encodeRecords rs) j)) := by
    intro p hp hlo hhi
    rw [hrecords]
    constructor
    · intro hnot j hj ho
      rw [hoffset] at ho
      have hjp := overruns_changed hall h hlo hhi (Nat.lt_succ_of_le hj) ho
      rw [hjp] at ho
      exact hnot ho
    · intro hnone ho
      rw [← hoffset] at ho
      exact hnone p hp ho
  by_cases hi : i < hdr.encodedLen
  · -- in the header
    obtain ⟨fault, err, hhead, hfault, hkind⟩ := scanHead_changed hhdr h hi 0
    refine ⟨ScanResult.stop ⟨0, 0, 0, 0, b'.length, .none, 0, none⟩ fault err, [], hfault,
      hkind.trans (honly (Nat.zero_le _) (Nat.zero_le _) ?_), List.nil_prefix, fun fn st => ?_⟩
    · rw [List.take_succ_cons, List.take_zero, encodeRecords_cons, List.length_append,
        length_appendRecord]
      exact Nat.lt_add_right _ hi
    rw [scanSegment, scanLoop, hhead]
    exact if_neg fun hc => hfault hc.2
  · -- in a record
    rw [not_lt, ← length_appendRecord hdr] at hi
    obtain ⟨q, rfl, hq⟩ := h.split hi
    obtain ⟨pre, r, post, rfl, hle, hlt⟩ := exists_record_at hq.lt_length
    rw [encodeRecords_append, encodeRecords_cons] at hq
    obtain ⟨t, rfl, ht⟩ := hq.split hle
    obtain ⟨hpre, hrest⟩ := List.forall_mem_append.mp hfits
    have hr := hrest r List.mem_cons_self
    obtain ⟨res, hres⟩ : ∃ res, res = ScanResult.visitAll ⟨hdr.lsn, 0, 0, 0 + segmentHdrLen,
      (appendRecord hdr ++ (encodeRecords pre ++ t)).length, .none, 0, none⟩ pre := ⟨_, rfl⟩
    obtain ⟨fault, err, hhead, hfault, hkind⟩ := scanHead_changed hr ht hlt res.lastGoodOffset
    have hpretake : (hdr :: (pre ++ r :: post)).take (pre.length + 1) = hdr :: pre := by
      rw [List.take_succ_cons, List.take_left' rfl]
    have hrtake : (hdr :: (pre ++ r :: post)).take (pre.length + 1 + 1) = hdr :: (pre ++ [r]) := by
      rw [List.take_succ_cons, List.take_append, List.take_of_length_le (Nat.le_succ _),
        Nat.add_sub_cancel_left, List.take_succ_cons, List.take_zero]
    have hexact := honly (p := pre.length + 1) (by rw [List.length_append, List.length_cons]; omega)
      (by rw [hpretake, encodeRecords_cons, List.length_append]; omega)
      (by
        rw [hrtake, encodeRecords_cons, encodeRecords_append, encodeRecords_cons, encodeRecords_nil,
          List.append_nil, List.length_append, List.length_append, length_appendRecord r]
        omega)
    rw [hpretake, encodeRecords_cons, ← List.append_assoc, overruns_append] at hexact
    rw [List.append_assoc] at hexact
    refine ⟨res.stop fault err, pre, hfault, hkind.trans hexact, ?_, fun fn st => ?_⟩
    · rw [hrecords]
      exact List.prefix_append _ _
    · obtain ⟨fuel, hfuel⟩ : ∃ fuel, (appendRecord hdr ++ (encodeRecords pre ++ t)).length =
          pre.length + (fuel + 1) := by
        have hlen := length_le_encodeRecords pre
        have hpos := encodedLen_pos hdr
        refine ⟨(appendRecord hdr ++ (encodeRecords pre ++ t)).length - pre.length - 1, ?_⟩
        rw [List.length_append, List.length_append, length_appendRecord]
        omega
      have hloop : ∀ st', scanLoop fn (fuel + 1) t false res st' =
          .ok (false, res.stop fault err, st') := by
        intro st'
        rw [scanLoop, hhead]
      have hscan := scanLoop_append hpre fn (fuel + 1) t ⟨hdr.lsn, 0, 0, 0 + segmentHdrLen,
        (appendRecord hdr ++ (encodeRecords pre ++ t)).length, .none, 0, none⟩ st
      rw [← hfuel, ← hres] at hscan
      rw [scanSegment, scanLoop_header fn hhdr hparse, hscan]
      cases pre.foldlM fn st with
      | error e => rfl
      | ok st' =>
        simp only [bind, Except.bind, hloop st']
        exact if_neg fun hc => hfault hc.2

end Segment

/-! ## A flipped bit -/

/-- Bit `k` of byte `i` is flipped. -/
def flipBit (b : Bytes) (i k : ℕ) : Bytes := b.modify i (· ^^^ UInt8.ofNat (2 ^ k))

/-- Bit `k` of byte `i` of a file is flipped. -/
def flipFile (d : Disk Bytes) (path : Bytes) (i k : ℕ) : Disk Bytes :=
  Disk.modify d path fun f => { f with bytes := flipBit f.bytes i k }

/-- The directory when `Replay` returns: as it was, if it returns an error. -/
def filesAfter {σ ε : Type} (d : Disk Bytes) :
    Except (ReplayError ε) (ReplayResult × σ × Disk Bytes) → Disk Bytes
  | .error _ => d
  | .ok (_, _, d') => d'

section Flip

variable {b : Bytes} {i k : ℕ}

theorem length_flipBit (b : Bytes) (i k : ℕ) : (flipBit b i k).length = b.length :=
  List.length_modify ..

theorem xor_pow_ne (x : UInt8) (hk : k < 8) : x ≠ x ^^^ UInt8.ofNat (2 ^ k) := by
  intro h
  have hzero : UInt8.ofNat (2 ^ k) = 0 := by
    have hx : x ^^^ x = x ^^^ (x ^^^ UInt8.ofNat (2 ^ k)) := congrArg (x ^^^ ·) h
    rw [← UInt8.xor_assoc, UInt8.xor_self, UInt8.zero_xor] at hx
    exact hx.symm
  revert hzero
  interval_cases k <;> decide

theorem changedAt_flipBit (hi : i < b.length) (hk : k < 8) : ChangedAt b (flipBit b i k) i := by
  refine ⟨b.take i, b[i], b[i] ^^^ UInt8.ofNat (2 ^ k), b.drop (i + 1), xor_pow_ne _ hk,
    List.length_take_of_le hi.le, ?_, ?_⟩
  · rw [← List.drop_eq_getElem_cons hi, List.take_append_drop]
  · rw [flipBit, List.modify_eq_take_cons_drop hi]

/-- `DecodeRecord` fails on a serialised record of which one bit was flipped. -/
theorem decodeRecord_flipBit (r : Record) (hr : r.Fits) (rest : Bytes) (i k : ℕ)
    (hi : i < (appendRecord r).length) (hk : k < 8) :
    ∃ e, decodeRecord (flipBit (appendRecord r ++ rest) i k)
      (flipBit (appendRecord r ++ rest) i k).length = .error e := by
  have hlen : i < (appendRecord r ++ rest).length := by
    rw [List.length_append]
    omega
  rw [length_appendRecord] at hi
  cases h : decodeRecord (flipBit (appendRecord r ++ rest) i k)
      (flipBit (appendRecord r ++ rest) i k).length with
  | error e => exact ⟨e, rfl⟩
  | ok p =>
    obtain ⟨r', n⟩ := p
    obtain ⟨hr', -, tail, htail⟩ := appendRecord_of_decodeRecord h
    exact absurd htail (changed_ne_appendRecord hr hr' (changedAt_flipBit hlen hk) hi)

/-- Bit 6 of the length, with the 64 bytes behind the record that it then takes in. -/
theorem decodeRecord_flipBit_length :
    ∃ e, decodeRecord (flipBit (appendRecord ⟨1, 0, .set, 0, [107], [118], 0⟩ ++
        List.replicate 64 0) 4 6)
      (flipBit (appendRecord ⟨1, 0, .set, 0, [107], [118], 0⟩ ++
        List.replicate 64 0) 4 6).length = .error e :=
  decodeRecord_flipBit ⟨1, 0, .set, 0, [107], [118], 0⟩ ⟨by decide, by decide, by decide⟩
    (List.replicate 64 0) 4 6 (by decide) (by decide)

/-- The listing has names and sizes only. -/
theorem listSegments_flipFile (d : Disk Bytes) (path : Bytes) (i k : ℕ) :
    listSegments (flipFile d path i k) = listSegments d := by
  unfold listSegments flipFile Disk.modify
  rw [List.filterMap_map]
  congr 2
  funext p
  rw [Function.comp_apply]
  split_ifs with h
  · rw [segmentInfo, segmentInfo, length_flipBit]
  · rfl

end Flip

/-! ## Replay -/

section Replay

variable {σ ε : Type} {minLSN : ℕ} {apply : σ → Record → Except ε σ} {d : Disk Bytes}
  {seg : SegmentInfo} {f : File} {path : Bytes} {i k : ℕ}

/-- A callback that takes all records takes the first ones. -/
theorem foldlM_ok_of_prefix {rs rs' : List Record} (h : rs <+: rs') {st st' : σ}
    (hok : rs'.foldlM apply st = .ok st') : ∃ st', rs.foldlM apply st = .ok st' := by
  obtain ⟨t, rfl⟩ := h
  rw [List.foldlM_append] at hok
  cases hrs : rs.foldlM apply st with
  | error e =>
    rw [hrs] at hok
    cases hok
  | ok st' => exact ⟨st', rfl⟩

/-- The segment with the changed byte is refused, unless it is the last one and overruns. -/
theorem replayLoop_changed {b : Bytes} (hread : Disk.read d seg.path = some f)
    (hb : healthy b = true) (h : ChangedAt b f.bytes i) (later : List SegmentInfo)
    (res : ReplayResult) {st st' : σ}
    (hok : ((scannedRecords b).filter fun r => minLSN < r.lsn).foldlM apply st = .ok st') :
    (∃ offset err, replayLoop minLSN false apply (seg :: later) d res st =
      .error (.corruptMidLog seg.path offset err)) ↔
    (later = [] → ∀ j ≤ (scannedRecords b).length, ¬ Overruns f.bytes (recordOffset b j)) := by
  obtain ⟨scan, rs, hfault, hkind, hrs, hscan⟩ := scanSegment_changed hb h
  obtain ⟨st₁, hst₁⟩ := foldlM_ok_of_prefix (hrs.filter _) hok
  have hrun := hscan (visitRecord minLSN apply) (res, st)
  rw [foldlM_visitRecord, hst₁] at hrun
  replace hrun : scanSegment (visitRecord minLSN apply) f.bytes (res, st) =
    .ok (scan, rs.foldl (ReplayResult.visit minLSN) res, st₁) := hrun
  rw [replayLoop, hread, ← hkind]
  simp only [hrun, if_neg hfault]
  by_cases hrefuse : later ≠ [] ∨ scan.fault = .corrupt
  · rw [if_pos ⟨hrefuse, trivial⟩]
    exact iff_of_true ⟨_, _, rfl⟩ fun hnil => hrefuse.resolve_left (not_not.mpr hnil)
  · rw [if_neg fun hc => hrefuse hc.1]
    rw [not_or, not_not] at hrefuse
    refine iff_of_false ?_ fun himp => hrefuse.2 (himp hrefuse.1)
    rintro ⟨_, _, h⟩
    cases h

/-- The loop comes to the segment that was changed. -/
theorem replayLoop_flipFile (hread : Disk.read d seg.path = some f) (hi : i < f.bytes.length)
    (hk : k < 8) {pre post : List SegmentInfo}
    (hhealthy : ∀ s ∈ pre ++ seg :: post, ∃ f, Disk.read d s.path = some f ∧ healthy f.bytes = true)
    (hfirst : ∀ s ∈ pre, s.path ≠ seg.path) (res : ReplayResult) {st : σ}
    {ok : ReplayResult × σ × Disk Bytes}
    (hok : replayLoop minLSN false apply (pre ++ seg :: post) d res st = .ok ok) :
    (∃ offset err, replayLoop minLSN false apply (pre ++ seg :: post) (flipFile d seg.path i k) res
      st = .error (.corruptMidLog seg.path offset err)) ↔
    (post = [] → ∀ j ≤ (scannedRecords f.bytes).length,
      ¬ Overruns (flipBit f.bytes i k) (recordOffset f.bytes j)) := by
  have hread' := fun path =>
    Disk.read_modify d seg.path path fun f => { f with bytes := flipBit f.bytes i k }
  induction pre generalizing res st with
  | nil =>
    obtain ⟨⟨g, hg, hb⟩, -⟩ := List.forall_mem_cons.mp hhealthy
    obtain rfl : f = g := Option.some.inj (hread.symm.trans hg)
    have hflip := hread' seg.path
    rw [hread, Option.map_some, if_pos rfl] at hflip
    rw [List.nil_append, replayLoop_segment hread hb] at hok
    split at hok
    · cases hok
    · rename_i st' hst'
      exact replayLoop_changed hflip hb (changedAt_flipBit hi hk) post res hst'
  | cons s pre ih =>
    obtain ⟨⟨g, hg, hb⟩, hhealthy⟩ := List.forall_mem_cons.mp hhealthy
    obtain ⟨hne, hfirst⟩ := List.forall_mem_cons.mp hfirst
    have hflip := hread' s.path
    rw [hg, Option.map_some, if_neg hne] at hflip
    replace hflip : Disk.read (flipFile d seg.path i k) s.path = some g := hflip
    rw [List.cons_append, replayLoop_segment hg hb] at hok
    rw [List.cons_append, replayLoop_segment hflip hb]
    split at hok
    · cases hok
    · exact ih hhealthy hfirst _ hok

/-- A bit of a segment of a healthy log, of which the callback takes all records, is flipped.
    `Replay` returns `ErrCorruptMidLog` for this segment and leaves the files as they are, if and
    only if the segment is not the last one, or the flipped bit does not make the length of its
    header or of one of its records reach beyond the end of the file. -/
theorem flip_refused (d : Disk Bytes) (hhealthy : HealthySegments d) (pre : List SegmentInfo)
    (seg : SegmentInfo) (post : List SegmentInfo) (hsegs : listSegments d = pre ++ seg :: post)
    (hfirst : ∀ s ∈ pre, s.path ≠ seg.path) (f : File) (hread : Disk.read d seg.path = some f)
    (i k : ℕ) (hi : i < f.bytes.length) (hk : k < 8) (apply : σ → Record → Except ε σ) (st : σ)
    (hok : (replay d 0 false apply st).isOk = true) :
    ((∃ offset err, replay (flipFile d seg.path i k) 0 false apply st =
        .error (.corruptMidLog seg.path offset err)) ∧
      filesAfter (flipFile d seg.path i k) (replay (flipFile d seg.path i k) 0 false apply st) =
        flipFile d seg.path i k) ↔
    (post = [] → ∀ j ≤ (scannedRecords f.bytes).length,
      ¬ Overruns (flipBit f.bytes i k) (recordOffset f.bytes j)) := by
  have hnil : listSegments d ≠ [] := by simp [hsegs]
  rw [HealthySegments, hsegs] at hhealthy
  unfold replay at hok ⊢
  dsimp only at hok ⊢
  rw [listSegments_flipFile]
  rw [if_neg hnil] at hok ⊢
  cases hrun : replayLoop 0 false apply (listSegments d) d
      ⟨(listSegments d).length, 0, 0, 0, 0, 0, none, 0, false, 0, none, none, false⟩ st with
  | error e =>
    rw [hrun] at hok
    cases hok
  | ok p =>
    rw [hsegs] at hrun ⊢
    rw [← replayLoop_flipFile hread hi hk hhealthy hfirst _ hrun]
    constructor
    · rintro ⟨⟨offset, err, h⟩, -⟩
      refine ⟨offset, err, ?_⟩
      split at h
      · rename_i e he
        cases h
        exact he
      · cases h
    · rintro ⟨offset, err, h⟩
      rw [h]
      exact ⟨⟨offset, err, rfl⟩, rfl⟩

/-- A log of one segment with one record. -/
def oneRecordLog : Disk Bytes :=
  [SegmentImage.sealedEntry ⟨1, 0, [⟨1, 0, .set, 0, [107], [118], 0⟩]⟩]

/-- The last bit of the file is a bit of the record's value. -/
theorem flip_refused_value :
    ∃ offset err, replay (flipFile oneRecordLog (segmentName 1) 93 0) 0 false collect [] =
      .error (.corruptMidLog (segmentName 1) offset err) := by
  have hhealthy : HealthySegments oneRecordLog := by
    have hall : ∀ seg ∈ listSegments oneRecordLog,
        (Disk.read oneRecordLog seg.path).map (fun f => healthy f.bytes) = some true := by
      decide +kernel
    exact fun seg hseg => Option.map_eq_some_iff.mp (hall seg hseg)
  exact ((flip_refused oneRecordLog hhealthy [] ⟨segmentName 1, 1, 94⟩ [] (by decide +kernel)
    (fun _ h => by cases h)
    (SegmentImage.sealedEntry ⟨1, 0, [⟨1, 0, .set, 0, [107], [118], 0⟩]⟩).2 (by decide +kernel) 93 0
    (by decide +kernel) (by decide) collect [] (by decide +kernel)).mpr
    (fun _ => by decide +kernel)).1

/-- Bit 6 of the record's length is flipped: the record is taken for a torn tail, `Replay`
    succeeds without it and cuts it off. -/
theorem flip_taken_for_torn_tail :
    ((replay oneRecordLog 0 false collect []).map fun p => p.2.1).toOption =
        some [⟨1, 0, .set, 0, [107], [118], 0⟩] ∧
      ((replay (flipFile oneRecordLog (segmentName 1) 56 6) 0 false collect []).map
        fun p => p.2.1).toOption = some [] ∧
      (Disk.read (filesAfter (flipFile oneRecordLog (segmentName 1) 56 6)
        (replay (flipFile oneRecordLog (segmentName 1) 56 6) 0 false collect []))
          (segmentName 1)).map (fun f => f.bytes.length) = some 52 := by
  refine ⟨?_, ?_, ?_⟩
  · decide +kernel
  · decide +kernel
  · decide +kernel

end Replay

end KvStore
