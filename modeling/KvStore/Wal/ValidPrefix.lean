import KvStore.Wal.Scan

/-!
# The longest valid prefix of a segment file

Whatever is in a file, `ScanSegment` finds the header and the records it begins with, as
far as they go.

* `scan_longest_valid_prefix`: up to `LastGoodOffset` the file is a header and the records
  that were found, and no record follows; scanning these bytes alone finds the same records and
  no fault; and of a file that was cut off, the records that are still whole are found, and the
  cut is not taken for corruption.
-/

namespace KvStore

open KvStore.Common

/-! ## The front of the rest -/

section Head

variable {rest : Bytes} {offset n : ℕ} {r : Record}

/-- A record at the front is a serialised one. -/
theorem appendRecord_of_scanHead (h : scanHead rest offset = .record r n) :
    r.Fits ∧ n = r.encodedLen ∧ ∃ tail, rest = appendRecord r ++ tail := by
  unfold scanHead at h
  dsimp only at h
  split_ifs at h with _ _ _ hlen
  cases hdecode : decodeRecord (rest.take (recHeaderLen + field rest 4 4)) rest.length with
  | error e => rw [hdecode] at h; cases e <;> cases h
  | ok p =>
    rw [hdecode] at h
    cases h
    obtain ⟨hfits, hn, tail, htail⟩ := appendRecord_of_decodeRecord hdecode
    refine ⟨hfits, hn, tail ++ rest.drop (recHeaderLen + field rest 4 4), ?_⟩
    rw [← List.append_assoc, ← htail, List.take_append_drop]

/-- A record that decodes is found at the front. -/
theorem scanHead_of_decodeRecord {remaining : ℕ} (h : decodeRecord rest remaining = .ok (r, n))
    (offset : ℕ) : scanHead rest offset = .record r n := by
  obtain ⟨hfits, rfl, tail, rfl⟩ := appendRecord_of_decodeRecord h
  exact scanHead_record hfits tail offset

/-- Where no record is found at the front, none decodes. -/
theorem decodeRecord_error_of_scanHead (h : ∀ r n, scanHead rest offset ≠ .record r n)
    (remaining : ℕ) : ∃ e, decodeRecord rest remaining = .error e := by
  cases hdecode : decodeRecord rest remaining with
  | error e => exact ⟨e, rfl⟩
  | ok p => exact absurd (scanHead_of_decodeRecord hdecode offset) (h p.1 p.2)

theorem scanHead_eq_eof (h : scanHead rest offset = .eof) : rest = [] := by
  unfold scanHead at h
  dsimp only at h
  split_ifs at h with hlen
  · exact List.length_eq_zero_iff.mp hlen
  · cases hdecode : decodeRecord (rest.take (recHeaderLen + field rest 4 4)) rest.length with
    | error e => rw [hdecode] at h; cases e <;> cases h
    | ok p => rw [hdecode] at h; cases h

/-- The loop stops with a fault only. -/
theorem fault_of_scanHead {fault : Fault} {err : FaultErr}
    (h : scanHead rest offset = .stop fault err) : fault ≠ .none := by
  unfold scanHead at h
  dsimp only at h
  split_ifs at h
  · cases h; exact nofun
  · cases h; exact nofun
  · cases h; exact nofun
  · cases hdecode : decodeRecord (rest.take (recHeaderLen + field rest 4 4)) rest.length with
    | error e => rw [hdecode] at h; cases e <;> cases h <;> exact nofun
    | ok p => rw [hdecode] at h; cases h

end Head

/-! ## The records found -/

/-- `rest` consists of the records `rs` and a `tail` at the front of which no record is. -/
structure Parses (rest : Bytes) (rs : List Record) (tail : Bytes) : Prop where
  split : rest = encodeRecords rs ++ tail
  fits : ∀ r ∈ rs, r.Fits
  ends : ∃ e, decodeRecord tail tail.length = .error e

theorem Parses.cons {rest tail : Bytes} {rs : List Record} (h : Parses rest rs tail) {r : Record}
    (hr : r.Fits) : Parses (appendRecord r ++ rest) (r :: rs) tail where
  split := by rw [encodeRecords_cons, List.append_assoc, ← h.split]
  fits := List.forall_mem_cons.mpr ⟨hr, h.fits⟩
  ends := h.ends

/-- The loop after the header: what it finds does not depend on the callback, and there is no fault
    if and only if there is no tail. -/
theorem scanLoop_parses {fuel : ℕ} {rest : Bytes} (hfuel : rest.length < fuel) {res : ScanResult}
    (hres : res.fault = .none) :
    ∃ rs tail res', Parses rest rs tail ∧ (res'.fault = .none ↔ tail = []) ∧
      res'.lastGoodOffset = res.lastGoodOffset + (encodeRecords rs).length ∧
      ∀ {σ ε : Type} (fn : σ → Record → Except ε σ) (st : σ),
        scanLoop fn fuel rest false res st =
          rs.foldlM fn st >>= fun st => .ok (false, res', st) := by
  induction fuel generalizing rest res with
  | zero => exact absurd hfuel (Nat.not_lt_zero _)
  | succ fuel ih =>
    cases hhead : scanHead rest res.lastGoodOffset with
    | eof =>
      obtain rfl := scanHead_eq_eof hhead
      refine ⟨[], [], res, ⟨rfl, by simp, _, rfl⟩, ⟨fun _ => rfl, fun _ => hres⟩, rfl, fun fn st => ?_⟩
      rw [scanLoop, hhead]
      rfl
    | stop fault err =>
      have hfault := fault_of_scanHead hhead
      refine ⟨[], rest, res.stop fault err, ⟨rfl, by simp, ?_⟩, ⟨?_, ?_⟩, rfl, fun fn st => ?_⟩
      · exact decodeRecord_error_of_scanHead (by rw [hhead]; exact (by simp)) _
      · exact fun h => absurd h hfault
      · rintro rfl
        cases hhead
      · rw [scanLoop, hhead]
        rfl
    | record r n =>
      obtain ⟨hfits, rfl, rest, rfl⟩ := appendRecord_of_scanHead hhead
      have hpos := encodedLen_pos r
      rw [List.length_append, length_appendRecord] at hfuel
      obtain ⟨rs, tail, res', hparses, hfault, hoff, hloop⟩ :=
        ih (show rest.length < fuel by omega) (show (res.visit r r.encodedLen).fault = .none from hres)
      refine ⟨r :: rs, tail, res', hparses.cons hfits, hfault, ?_, fun fn st => ?_⟩
      · rw [hoff, encodeRecords_cons, List.length_append, length_appendRecord, ← Nat.add_assoc]
        rfl
      · rw [scanLoop, hhead, List.foldlM_cons]
        simp only [Bool.false_eq_true, if_false, List.drop_left' (length_appendRecord r)]
        cases fn st r with
        | error e => rfl
        | ok st' => exact hloop fn st'

/-- What a scan of `b` finds: nothing, or a header, records and a tail. -/
structure Finds (b : Bytes) (res : ScanResult) (hdr : Record) (rs : List Record) (tail : Bytes) :
    Prop where
  hdrFits : hdr.Fits
  parse : ∃ version, parseSegmentHeader hdr = .ok version
  records : ∃ rest, b = appendRecord hdr ++ rest ∧ Parses rest rs tail
  fault : res.fault = .none ↔ tail = []
  offset : res.lastGoodOffset = segmentHdrLen + (encodeRecords rs).length

/-- A scan of any file. -/
theorem scanSegment_finds (b : Bytes) :
    ∃ res rs, ((res.lastGoodOffset = 0 ∧ res.fault ≠ .none ∧ rs = []) ∨
        ∃ hdr tail, Finds b res hdr rs tail) ∧
      ∀ {σ ε : Type} (fn : σ → Record → Except ε σ) (st : σ),
        scanSegment fn b st = rs.foldlM fn st >>= fun st => .ok (res, st) := by
  cases hhead : scanHead b 0 with
  | eof =>
    refine ⟨⟨0, 0, 0, 0, b.length, .tornTail, 0, some .noHeader⟩, [], .inl ⟨rfl, by simp, rfl⟩,
      fun fn st => ?_⟩
    rw [scanSegment, scanLoop, hhead]
    rfl
  | stop fault err =>
    have hfault := fault_of_scanHead hhead
    refine ⟨ScanResult.stop ⟨0, 0, 0, 0, b.length, .none, 0, none⟩ fault err, [],
      .inl ⟨rfl, hfault, rfl⟩, fun fn st => ?_⟩
    rw [scanSegment, scanLoop, hhead]
    exact if_neg fun h => hfault h.2
  | record hdr n =>
    obtain ⟨hfits, rfl, rest, rfl⟩ := appendRecord_of_scanHead hhead
    cases hparse : parseSegmentHeader hdr with
    | error e =>
      refine ⟨ScanResult.stop ⟨0, 0, 0, 0, (appendRecord hdr ++ rest).length, .none, 0, none⟩
        .corrupt (.badHeader e), [], .inl ⟨rfl, (by intro hfault; cases hfault), rfl⟩, fun fn st => ?_⟩
      rw [scanSegment, scanLoop, hhead]
      dsimp only
      rw [if_pos rfl, hparse]
      rfl
    | ok version =>
      have hlen : (appendRecord hdr ++ rest).length = hdr.encodedLen + rest.length := by
        rw [List.length_append, length_appendRecord]
      have hpos := encodedLen_pos hdr
      have hstart : (⟨hdr.lsn, 0, 0, 0 + segmentHdrLen, (appendRecord hdr ++ rest).length, .none, 0,
          none⟩ : ScanResult).fault = .none := rfl
      obtain ⟨rs, tail, res, hparses, hfault, hoff, hloop⟩ := scanLoop_parses
        (show rest.length < (appendRecord hdr ++ rest).length by omega) hstart
      refine ⟨res, rs, .inr ⟨hdr, tail, hfits, ⟨version, hparse⟩, ⟨rest, rfl, hparses⟩, hfault, ?_⟩,
        fun fn st => ?_⟩
      · rw [hoff, Nat.zero_add]
      · rw [scanSegment, scanLoop_header fn hfits hparse, hloop]
        cases rs.foldlM fn st <;> rfl

/-- A file is healthy if and only if it is a header and records. -/
theorem healthy_iff_records (b : Bytes) :
    healthy b = true ↔ ∃ hdr version rs, hdr.Fits ∧ parseSegmentHeader hdr = .ok version ∧
      (∀ r ∈ rs, r.Fits) ∧ b = appendRecord hdr ++ encodeRecords rs := by
  constructor
  · intro h
    obtain ⟨res, rs, hfound, hscan⟩ := scanSegment_finds b
    rw [healthy, hscan, foldlM_ok] at h
    have hfault : res.fault = .none := of_decide_eq_true h
    rcases hfound with ⟨-, hne, -⟩ | ⟨hdr, tail, hfinds⟩
    · exact absurd hfault hne
    · obtain ⟨version, hparse⟩ := hfinds.parse
      obtain ⟨rest, rfl, hparses⟩ := hfinds.records
      refine ⟨hdr, version, rs, hfinds.hdrFits, hparse, hparses.fits, ?_⟩
      rw [hparses.split, hfinds.fault.mp hfault, List.append_nil]
  · rintro ⟨hdr, version, rs, hhdr, hparse, hfits, rfl⟩
    obtain ⟨res, hfault, -, hscan⟩ :=
      scanSegment_records (fun (_ : Unit) _ => (.ok () : Except Unit Unit)) hhdr hparse hfits
    rw [healthy, hscan, foldlM_ok]
    exact decide_eq_true hfault

/-- For every file, the scan finds records such that either nothing of the file is good, or its
    good bytes are a header and these records, and no record decodes behind them; the good bytes
    alone give the same records and no fault. If the file is a part of a header and records of
    legal sizes, exactly the records that are whole are found, and the fault is not corruption. -/
theorem scan_longest_valid_prefix :
    (∀ b : Bytes, ∃ res rs, scanSegment collect b [] = .ok (res, rs) ∧
      ((res.lastGoodOffset = 0 ∧ rs = []) ∨
        ∃ hdr version, parseSegmentHeader hdr = .ok version ∧ hdr.Fits ∧ (∀ r ∈ rs, r.Fits) ∧
          b.take res.lastGoodOffset = appendRecord hdr ++ encodeRecords rs ∧
          ∃ e, decodeRecord (b.drop res.lastGoodOffset) (b.length - res.lastGoodOffset) =
            .error e) ∧
      (0 < res.lastGoodOffset → ∃ res',
        scanSegment collect (b.take res.lastGoodOffset) [] = .ok (res', rs) ∧
        res'.fault = .none)) ∧
    ∀ (hdr : Record) (version : ℕ) (rs : List Record) (n : ℕ), hdr.Fits →
      parseSegmentHeader hdr = .ok version → (∀ r ∈ rs, r.Fits) →
      n ≤ (appendRecord hdr ++ encodeRecords rs).length →
      ∃ res, scanSegment collect ((appendRecord hdr ++ encodeRecords rs).take n) [] =
          .ok (res, wholeAfterHeader n rs) ∧
        res.fault ≠ .corrupt := by
  constructor
  · intro b
    obtain ⟨res, rs, hfound, hscan⟩ := scanSegment_finds b
    refine ⟨res, rs, by rw [hscan, foldlM_collect]; rfl, ?_⟩
    rcases hfound with ⟨hzero, -, rfl⟩ | ⟨hdr, tail, hfinds⟩
    · exact ⟨.inl ⟨hzero, rfl⟩, fun hpos => absurd hzero hpos.ne'⟩
    · obtain ⟨version, hparse⟩ := hfinds.parse
      obtain ⟨rest, rfl, hparses⟩ := hfinds.records
      have hlen : (appendRecord hdr ++ encodeRecords rs).length = res.lastGoodOffset := by
        rw [hfinds.offset, List.length_append, length_appendRecord,
          encodedLen_of_parseSegmentHeader hparse]
      rw [hparses.split, ← List.append_assoc, List.take_left' hlen, List.drop_left' hlen,
        List.length_append, hlen, Nat.add_sub_cancel_left]
      obtain ⟨res', hfault, -, hagain⟩ :=
        scanSegment_records collect hfinds.hdrFits hparse hparses.fits
      refine ⟨.inr ⟨hdr, version, hparse, hfinds.hdrFits, hparses.fits, rfl, hparses.ends⟩,
        fun _ => ⟨res', ?_, hfault⟩⟩
      rw [hagain, foldlM_collect]
      rfl
  · intro hdr version rs n hhdr hparse hfits hn
    rw [List.length_append, length_appendRecord, encodedLen_of_parseSegmentHeader hparse] at hn
    obtain ⟨res, hreads, hscan⟩ := scanSegment_take collect hhdr hparse hfits hn
    refine ⟨res, ?_, hreads.notCorrupt⟩
    rw [hscan, foldlM_collect]
    rfl

/-! ## What the segment files hold -/

/-- The records `ScanSegment` calls back for. -/
def scannedRecords (data : Bytes) : List Record :=
  match scanSegment collect data [] with
  | .ok (_, rs) => rs
  | .error e => nomatch e

/-- The segments `ListSegments` finds, with their first LSNs and the records in their files. -/
def logSegments (d : Disk Bytes) : List (ℕ × List Record) :=
  (listSegments d).map fun seg =>
    (seg.firstLSN, ((Disk.read d seg.path).map fun f => scannedRecords f.bytes).getD [])

/-- The records of a segment lie at or above its name and below the next one. -/
structure Spaced (segs : List (ℕ × List Record)) : Prop where
  above : ∀ x ∈ segs, ∀ r ∈ x.2, x.1 ≤ r.lsn
  below : segs.Pairwise fun a b => a.1 < b.1 ∧ ∀ r ∈ a.2, r.lsn < b.1

/-- Scanning a healthy file. -/
theorem scanSegment_healthy {b : Bytes} (h : healthy b = true) :
    ∃ res : ScanResult, res.fault = .none ∧ res.lastGoodOffset = b.length ∧
      ∀ {σ ε : Type} (fn : σ → Record → Except ε σ) (st : σ),
        scanSegment fn b st = (scannedRecords b).foldlM fn st >>= fun st => .ok (res, st) := by
  obtain ⟨res, rs, hfound, hscan⟩ := scanSegment_finds b
  have hrecords : scannedRecords b = rs := by
    unfold scannedRecords
    rw [hscan, foldlM_collect]
    rfl
  rw [healthy, hscan, foldlM_ok] at h
  have hfault : res.fault = .none := of_decide_eq_true h
  rcases hfound with ⟨-, hne, -⟩ | ⟨hdr, tail, hfinds⟩
  · exact absurd hfault hne
  · obtain ⟨version, hparse⟩ := hfinds.parse
    obtain ⟨rest, rfl, hparses⟩ := hfinds.records
    refine ⟨res, hfault, ?_, fun fn st => by rw [hscan, hrecords]⟩
    rw [hfinds.offset, hparses.split, hfinds.fault.mp hfault, List.append_nil, List.length_append,
      length_appendRecord, encodedLen_of_parseSegmentHeader hparse]

end KvStore
