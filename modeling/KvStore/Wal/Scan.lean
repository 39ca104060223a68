import KvStore.Wal.Segment

/-!
# Scanning a segment

Model of `ScanSegment` in `internal/wal/reader.go`. The loop looks at the front of what
is left of the file (`scanHead`), hands a record to the callback and goes on, or stops
with a fault.

* `scanSegment_image`: scanning the first `n` bytes of a segment file calls back for
  the records that lie wholly in them, ends without a fault exactly when the last of
  these ends there, and never reports corruption.
-/

namespace KvStore

open KvStore.Common

/-- `Fault` (lines 12–26). -/
inductive Fault
  | none
  | tornTail
  | corrupt
  deriving DecidableEq, Repr

/-- The errors a fault is reported with, `FaultErr`. -/
inductive FaultErr
  | trailing (remaining : ℕ)
  | lengthTooBig (length offset : ℕ)
  | needs (needed remaining : ℕ)
  | decode (e : DecodeError)
  | badHeader (e : HeaderError)
  | noHeader
  deriving DecidableEq, Repr

/-- `ScanResult` (lines 43–53). -/
structure ScanResult where
  firstLSN : ℕ
  lastLSN : ℕ
  records : ℕ
  lastGoodOffset : ℕ
  fileSize : ℕ
  fault : Fault
  faultOffset : ℕ
  faultErr : Option FaultErr
  deriving DecidableEq, Repr

/-- A fault at the current offset. -/
def ScanResult.stop (res : ScanResult) (fault : Fault) (err : FaultErr) : ScanResult :=
  { res with fault := fault, faultOffset := res.lastGoodOffset, faultErr := some err }

/-- A record went to the callback (lines 165–171). -/
def ScanResult.visit (res : ScanResult) (r : Record) (n : ℕ) : ScanResult :=
  { res with
    records := res.records + 1
    lastLSN := r.lsn
    lastGoodOffset := res.lastGoodOffset + n }

/-- What stands at the front of the rest of a file. -/
inductive ScanHead
  | eof
  | stop (fault : Fault) (err : FaultErr)
  | record (r : Record) (n : ℕ)

/-- The first half of the loop body (lines 93–151). Reading within the file's size does
    not fail, so the two `io.ReadFull` branches have no counterpart. -/
def scanHead (rest : Bytes) (offset : ℕ) : ScanHead :=
  let remaining := rest.length
  if remaining = 0 then .eof
  else if remaining < recHeaderLen then .stop .tornTail (.trailing remaining)
  else
    let length := field rest 4 4
    if length > maxRecordLen then .stop .corrupt (.lengthTooBig length offset)
    else if recHeaderLen + length > remaining then
      .stop .tornTail (.needs (recHeaderLen + length) remaining)
    else
      match decodeRecord (rest.take (recHeaderLen + length)) remaining with
      | .error .tornTail => .stop .tornTail (.decode .tornTail)
      | .error e => .stop .corrupt (.decode e)
      | .ok (r, n) => .record r n

variable {σ ε : Type}

/-- The loop (lines 93–172) over the `rest` of the file, which starts at
    `res.lastGoodOffset`; `first` until the header has been read. -/
def scanLoop (fn : σ → Record → Except ε σ) :
    ℕ → Bytes → Bool → ScanResult → σ → Except ε (Bool × ScanResult × σ)
  | 0, _, first, res, st => .ok (first, res, st)
  | fuel + 1, rest, first, res, st =>
    match scanHead rest res.lastGoodOffset with
    | .eof => .ok (first, res, st)
    | .stop fault err => .ok (first, res.stop fault err, st)
    | .record r n =>
      if first then
        match parseSegmentHeader r with
        | .error e => .ok (first, res.stop .corrupt (.badHeader e), st)
        | .ok _ =>
          scanLoop fn fuel (rest.drop n) false
            { res with firstLSN := r.lsn, lastGoodOffset := res.lastGoodOffset + n } st
      else
        match fn st r with
        | .error e => .error e
        | .ok st => scanLoop fn fuel (rest.drop n) false (res.visit r n) st

/-- `ScanSegment` (lines 67–182) of a file with contents `data`. A record takes at least
    eight bytes, so the fuel does not run out. -/
def scanSegment (fn : σ → Record → Except ε σ) (data : Bytes) (st : σ) :
    Except ε (ScanResult × σ) :=
  match scanLoop fn (data.length + 1) data true ⟨0, 0, 0, 0, data.length, .none, 0, none⟩ st with
  | .error e => .error e
  | .ok (first, res, st) =>
    -- a zero-length segment: the header write did not land
    if first ∧ res.fault = .none then
      .ok ({ res with fault := .tornTail, faultOffset := 0, faultErr := some .noHeader }, st)
    else .ok (res, st)

/-- A callback that never fails and keeps the records it is given. -/
def collect (rs : List Record) (r : Record) : Except Empty (List Record) := .ok (rs ++ [r])

theorem foldlM_collect (rs st : List Record) : rs.foldlM collect st = .ok (st ++ rs) := by
  induction rs generalizing st with
  | nil => rw [List.append_nil]; rfl
  | cons r rs ih =>
    rw [List.foldlM_cons, List.append_cons]
    exact ih (st ++ [r])

/-! ## The front of the rest -/

section Head

variable {r : Record}

theorem scanHead_record (h : r.Fits) (rest : Bytes) (offset : ℕ) :
    scanHead (appendRecord r ++ rest) offset = .record r r.encodedLen := by
  have hle := fits_length_le h
  have hlen : recHeaderLen + r.payload.length = r.encodedLen := by
    rw [length_payload, Record.encodedLen]; omega
  have htot : (appendRecord r ++ rest).length = r.encodedLen + rest.length := by
    rw [List.length_append, length_appendRecord]
  have hpos : recHeaderLen ≤ r.encodedLen := by omega
  unfold scanHead
  dsimp only
  rw [field_length_appendRecord h, hlen, htot, List.take_left' (length_appendRecord r),
    if_neg (by unfold recHeaderLen at hpos; omega), if_neg (by omega), if_neg (by omega),
    if_neg (by omega)]
  have hdec := decodeRecord_appendRecord h [] (Nat.le_add_right r.encodedLen rest.length)
  rw [List.append_nil] at hdec
  rw [hdec]

/-- A proper part of a record is a torn tail. -/
theorem scanHead_torn (h : r.Fits) {m : ℕ} (h0 : 0 < m) (hm : m < r.encodedLen) (offset : ℕ) :
    ∃ err, scanHead ((appendRecord r).take m) offset = .stop .tornTail err := by
  have hlen : ((appendRecord r).take m).length = m := by
    rw [List.length_take, length_appendRecord, Nat.min_eq_left hm.le]
  have hpay : recHeaderLen + r.payload.length = r.encodedLen := by
    rw [length_payload, Record.encodedLen]; omega
  unfold scanHead
  dsimp only
  rw [hlen, if_neg h0.ne']
  by_cases hshort : m < recHeaderLen
  · exact ⟨_, if_pos hshort⟩
  · -- the length field is there, and it is the record's
    have hfield : field ((appendRecord r).take m) 4 4 = r.payload.length := by
      have hfull := field_length_appendRecord h []
      rw [List.append_nil] at hfull
      rw [← hfull, field, field, List.drop_take, List.take_take, Nat.min_eq_left]
      unfold recHeaderLen at hshort
      omega
    rw [hfield, hpay, if_neg hshort, if_neg (Nat.not_lt.mpr (fits_length_le h)), if_pos hm]
    exact ⟨_, rfl⟩

end Head

/-! ## Whole scans -/

section Loop

variable (fn : σ → Record → Except ε σ) {rs : List Record}

/-- The result after the callback has seen `rs`. -/
def ScanResult.visitAll (res : ScanResult) (rs : List Record) : ScanResult :=
  rs.foldl (fun res r => res.visit r r.encodedLen) res

theorem visitAll_lastGoodOffset (res : ScanResult) (rs : List Record) :
    (res.visitAll rs).lastGoodOffset = res.lastGoodOffset + (encodeRecords rs).length := by
  induction rs generalizing res with
  | nil => rfl
  | cons r rs ih =>
    rw [ScanResult.visitAll, List.foldl_cons, ← ScanResult.visitAll, ih, encodeRecords_cons,
      List.length_append, length_appendRecord]
    exact Nat.add_assoc _ _ _

theorem visitAll_fault (res : ScanResult) (rs : List Record) :
    (res.visitAll rs).fault = res.fault := by
  induction rs generalizing res with
  | nil => rfl
  | cons r rs ih => exact ih (res.visit r r.encodedLen)

/-- How a scan of the first `n` bytes of `encodeRecords rs` ends. -/
def ScanResult.Ends (res : ScanResult) (n : ℕ) (rs : List Record) (res' : ScanResult) : Prop :=
  (n = (encodeRecords (whole n rs)).length ∧ res' = res.visitAll (whole n rs)) ∨
    (n ≠ (encodeRecords (whole n rs)).length ∧
      ∃ err, res' = (res.visitAll (whole n rs)).stop .tornTail err)

/-- The loop after the header, over the first `n` bytes of serialised records. -/
theorem scanLoop_take (hfits : ∀ r ∈ rs, r.Fits) {n fuel : ℕ}
    (hn : n ≤ (encodeRecords rs).length) (hfuel : n < fuel) (res : ScanResult) :
    ∃ res', res.Ends n rs res' ∧
      ∀ st, scanLoop fn fuel ((encodeRecords rs).take n) false res st =
        (whole n rs).foldlM fn st >>= fun st => .ok (false, res', st) := by
  induction rs generalizing n fuel res with
  | nil =>
    obtain rfl : n = 0 := Nat.le_zero.mp hn
    obtain ⟨fuel, rfl⟩ : ∃ m, fuel = m + 1 := ⟨fuel - 1, by omega⟩
    exact ⟨res, .inl ⟨rfl, rfl⟩, fun st => rfl⟩
  | cons r rs ih =>
    obtain ⟨fuel, rfl⟩ : ∃ m, fuel = m + 1 := ⟨fuel - 1, by omega⟩
    have hr := hfits r List.mem_cons_self
    rw [encodeRecords_cons, List.length_append, length_appendRecord] at hn
    by_cases hle : r.encodedLen ≤ n
    · have hpos := encodedLen_pos r
      have htake : (encodeRecords (r :: rs)).take n =
          appendRecord r ++ (encodeRecords rs).take (n - r.encodedLen) := by
        rw [encodeRecords_cons, List.take_append, length_appendRecord,
          List.take_of_length_le (by rwa [length_appendRecord])]
      have hwhole : whole n (r :: rs) = r :: whole (n - r.encodedLen) rs := if_pos hle
      have hlen : (encodeRecords (whole n (r :: rs))).length =
          r.encodedLen + (encodeRecords (whole (n - r.encodedLen) rs)).length := by
        rw [hwhole, encodeRecords_cons, List.length_append, length_appendRecord]
      obtain ⟨res', hends, hloop⟩ := ih (fun x hx => hfits x (List.mem_cons_of_mem r hx))
        (show n - r.encodedLen ≤ _ by omega) (show n - r.encodedLen < fuel by omega)
        (res.visit r r.encodedLen)
      refine ⟨res', ?_, fun st => ?_⟩
      · rcases hends with ⟨hfull, hres'⟩ | ⟨hfull, hres'⟩
        · exact .inl ⟨by omega, by rw [hwhole]; exact hres'⟩
        · exact .inr ⟨by omega, by rw [hwhole]; exact hres'⟩
      · rw [hwhole, List.foldlM_cons, htake, scanLoop, scanHead_record hr]
        simp only [Bool.false_eq_true, if_false, List.drop_left' (length_appendRecord r)]
        cases fn st r with
        | error e => rfl
        | ok st' => exact hloop st'
    · have htake : (encodeRecords (r :: rs)).take n = (appendRecord r).take n := by
        rw [encodeRecords_cons, List.take_append, length_appendRecord,
          Nat.sub_eq_zero_of_le (by omega), List.take_zero, List.append_nil]
      have hwhole : whole n (r :: rs) = [] := if_neg hle
      simp only [htake, scanLoop, hwhole]
      rcases Nat.eq_zero_or_pos n with rfl | h0
      · exact ⟨res, .inl ⟨by rw [hwhole]; rfl, by rw [hwhole]; rfl⟩, fun st => rfl⟩
      · obtain ⟨err, herr⟩ := scanHead_torn hr h0 (by omega) res.lastGoodOffset
        rw [herr]
        exact ⟨res.stop .tornTail err, .inr ⟨by rw [hwhole]; exact h0.ne', err, by rw [hwhole]; rfl⟩,
          fun st => rfl⟩

theorem scanLoop_header {hdr : Record} (h : hdr.Fits) {version : ℕ}
    (hparse : parseSegmentHeader hdr = .ok version) (fuel : ℕ) (rest : Bytes) (res : ScanResult)
    (st : σ) :
    scanLoop fn (fuel + 1) (appendRecord hdr ++ rest) true res st =
      scanLoop fn fuel rest false { res with
        firstLSN := hdr.lsn
        lastGoodOffset := res.lastGoodOffset + segmentHdrLen } st := by
  rw [scanLoop, scanHead_record h]
  simp only [if_true, hparse]
  rw [List.drop_left' (length_appendRecord hdr), encodedLen_of_parseSegmentHeader hparse]

/-- The records that lie wholly in the first `n` bytes of a file, when its header does. -/
def wholeAfterHeader (n : ℕ) (rs : List Record) : List Record :=
  if segmentHdrLen ≤ n then whole (n - segmentHdrLen) rs else []

/-- What a scan says of the first `n` bytes of a header and records. -/
structure ScanResult.ReadsFirst (res : ScanResult) (n : ℕ) (rs : List Record) : Prop where
  offset : res.lastGoodOffset =
    if segmentHdrLen ≤ n then segmentHdrLen + (encodeRecords (wholeAfterHeader n rs)).length else 0
  healthy : res.fault = .none ↔
    segmentHdrLen ≤ n ∧ n = segmentHdrLen + (encodeRecords (wholeAfterHeader n rs)).length
  notCorrupt : res.fault ≠ .corrupt

/-- Scanning the first `n` bytes of a header and records. -/
theorem scanSegment_take {hdr : Record} (h : hdr.Fits) {version : ℕ}
    (hparse : parseSegmentHeader hdr = .ok version) (hfits : ∀ r ∈ rs, r.Fits) {n : ℕ}
    (hn : n ≤ segmentHdrLen + (encodeRecords rs).length) :
    ∃ res : ScanResult, res.ReadsFirst n rs ∧
      ∀ st, scanSegment fn ((appendRecord hdr ++ encodeRecords rs).take n) st =
        (wholeAfterHeader n rs).foldlM fn st >>= fun st => .ok (res, st) := by
  have hdrlen := encodedLen_of_parseSegmentHeader hparse
  have hlen : ((appendRecord hdr ++ encodeRecords rs).take n).length = n := by
    rw [List.length_take_of_le]
    rwa [List.length_append, length_appendRecord, hdrlen]
  by_cases hle : segmentHdrLen ≤ n
  · have htake : (appendRecord hdr ++ encodeRecords rs).take n =
        appendRecord hdr ++ (encodeRecords rs).take (n - segmentHdrLen) := by
      rw [List.take_append, length_appendRecord, hdrlen,
        List.take_of_length_le (by rwa [length_appendRecord, hdrlen])]
    have hwhole : wholeAfterHeader n rs = whole (n - segmentHdrLen) rs := if_pos hle
    obtain ⟨res, hends, hloop⟩ := scanLoop_take fn hfits
      (show n - segmentHdrLen ≤ _ by omega)
      (show n - segmentHdrLen < n by unfold segmentHdrLen at hle ⊢; omega)
      ⟨hdr.lsn, 0, 0, 0 + segmentHdrLen, n, .none, 0, none⟩
    refine ⟨res, ?_, fun st => ?_⟩
    · rcases hends with ⟨hfull, rfl⟩ | ⟨hfull, err, rfl⟩
      · refine ⟨?_, ⟨fun _ => ⟨hle, by rw [hwhole]; omega⟩, fun _ => visitAll_fault _ _⟩, ?_⟩
        · rw [visitAll_lastGoodOffset, if_pos hle, hwhole, Nat.zero_add]
        · rw [visitAll_fault]; exact nofun
      · refine ⟨?_, ⟨nofun, fun hc => absurd hc.2 (by rw [hwhole]; omega)⟩, nofun⟩
        rw [if_pos hle, hwhole]
        exact (visitAll_lastGoodOffset _ _).trans (by rw [Nat.zero_add])
    · rw [scanSegment, hlen, htake, scanLoop_header fn h hparse, hloop, hwhole]
      cases (whole (n - segmentHdrLen) rs).foldlM fn st <;> rfl
  · -- the header itself is cut
    have htake : (appendRecord hdr ++ encodeRecords rs).take n = (appendRecord hdr).take n := by
      rw [List.take_append, length_appendRecord, hdrlen, Nat.sub_eq_zero_of_le (by omega),
        List.take_zero, List.append_nil]
    have hwhole : wholeAfterHeader n rs = [] := if_neg hle
    rw [hwhole]
    rcases Nat.eq_zero_or_pos n with rfl | h0
    · refine ⟨⟨0, 0, 0, 0, 0, .tornTail, 0, some .noHeader⟩, ⟨?_, ?_, nofun⟩, fun st => rfl⟩
      · rw [if_neg hle]
      · exact ⟨nofun, fun hc => absurd hc.1 hle⟩
    · obtain ⟨err, herr⟩ := scanHead_torn h h0 (by omega) 0
      refine ⟨ScanResult.stop ⟨0, 0, 0, 0, n, .none, 0, none⟩ .tornTail err, ⟨?_, ?_, nofun⟩,
        fun st => ?_⟩
      · rw [if_neg hle]; rfl
      · exact ⟨nofun, fun hc => absurd hc.1 hle⟩
      · rw [scanSegment, hlen, htake, scanLoop, herr]
        rfl

/-- What a scan says of the first `n` bytes of a segment. -/
structure ScanResult.Reads (res : ScanResult) (s : SegmentImage) (n : ℕ) : Prop where
  offset : res.lastGoodOffset = if segmentHdrLen ≤ n then (s.cut n).bytes.length else 0
  healthy : res.fault = .none ↔ segmentHdrLen ≤ n ∧ n = (s.cut n).bytes.length
  notCorrupt : res.fault ≠ .corrupt

/-- Scanning the first `n` bytes of a segment file. -/
theorem scanSegment_image {s : SegmentImage} (h : s.Fits) {n : ℕ} (hn : n ≤ s.bytes.length) :
    ∃ res : ScanResult, res.Reads s n ∧
      ∀ st, scanSegment fn (s.bytes.take n) st =
        (s.whole n).foldlM fn st >>= fun st => .ok (res, st) := by
  rw [SegmentImage.length_bytes] at hn
  obtain ⟨res, hreads, hscan⟩ :=
    scanSegment_take fn h.header (parseSegmentHeader_new _ _) h.records hn
  have hcut : (s.cut n).bytes.length =
      segmentHdrLen + (encodeRecords (wholeAfterHeader n s.records)).length :=
    SegmentImage.length_bytes _
  exact ⟨res, ⟨hcut ▸ hreads.offset, hcut ▸ hreads.healthy, hreads.notCorrupt⟩, hscan⟩

/-- Scanning a header and the records after it. -/
theorem scanSegment_records {hdr : Record} (h : hdr.Fits) {version : ℕ}
    (hparse : parseSegmentHeader hdr = .ok version) (hfits : ∀ r ∈ rs, r.Fits) :
    ∃ res : ScanResult, res.fault = .none ∧
      res.lastGoodOffset = segmentHdrLen + (encodeRecords rs).length ∧
      ∀ st, scanSegment fn (appendRecord hdr ++ encodeRecords rs) st =
        rs.foldlM fn st >>= fun st => .ok (res, st) := by
  obtain ⟨res, hreads, hscan⟩ := scanSegment_take fn h hparse hfits le_rfl
  have hle : segmentHdrLen ≤ segmentHdrLen + (encodeRecords rs).length := Nat.le_add_right _ _
  have hwhole : wholeAfterHeader (segmentHdrLen + (encodeRecords rs).length) rs = rs := by
    rw [wholeAfterHeader, if_pos hle, whole_of_length_le (by omega)]
  have htake : (appendRecord hdr ++ encodeRecords rs).length ≤
      segmentHdrLen + (encodeRecords rs).length := by
    rw [List.length_append, length_appendRecord, encodedLen_of_parseSegmentHeader hparse]
  have hoff := hreads.offset
  have hhealthy := hreads.healthy
  rw [hwhole] at hscan hoff hhealthy
  rw [if_pos hle] at hoff
  rw [List.take_of_length_le htake] at hscan
  exact ⟨res, hhealthy.mpr ⟨hle, rfl⟩, hoff, hscan⟩

/-- Scanning a complete segment. -/
theorem scanSegment_full {s : SegmentImage} (h : s.Fits) :
    ∃ res : ScanResult, res.fault = .none ∧
      ∀ st, scanSegment fn s.bytes st = s.records.foldlM fn st >>= fun st => .ok (res, st) := by
  obtain ⟨res, hfault, -, hscan⟩ :=
    scanSegment_records fn h.header (parseSegmentHeader_new _ _) h.records
  exact ⟨res, hfault, hscan⟩

/-- `Healthy` (line 56) after a scan with the callback of `Verify`. -/
def healthy (data : Bytes) : Bool :=
  match scanSegment (fun _ _ => .ok ()) data () with
  | .error (_ : Unit) => false
  | .ok (res, _) => res.fault = .none

theorem foldlM_ok (rs : List Record) :
    rs.foldlM (fun (_ : Unit) _ => (.ok () : Except Unit Unit)) () = .ok () := by
  induction rs with
  | nil => rfl
  | cons r rs ih => exact ih

theorem healthy_image {s : SegmentImage} (h : s.Fits) {n : ℕ} (hn : n ≤ s.bytes.length) :
    healthy (s.bytes.take n) = true ↔ segmentHdrLen ≤ n ∧ n = (s.cut n).bytes.length := by
  obtain ⟨res, hreads, hscan⟩ :=
    scanSegment_image (fun (_ : Unit) _ => (.ok () : Except Unit Unit)) h hn
  rw [healthy, hscan, foldlM_ok]
  exact (decide_eq_true_iff).trans hreads.healthy

end Loop

end KvStore
