import KvStore.Common.Disk
import KvStore.Wal.Record

/-!
# Segment files

Model of `internal/wal/segment.go` and of the segment header in `record.go`. A segment
is named by its first LSN in sixteen decimal digits and opens with a SEGMENT_HDR record.

* `parseSegmentName_segmentName`: below `10 ^ 16` a name gives its LSN back.

`SegmentImage` is what a segment file is meant to hold.
-/

namespace KvStore

open KvStore.Common

/-! ## Names -/

/-- The last `w` decimal digits of `n`. -/
def decimal : ℕ → ℕ → Bytes
  | 0, _ => []
  | w + 1, n => decimal w (n / 10) ++ [UInt8.ofNat (48 + n % 10)]

/-- `segmentExt` (line 20), ".log". -/
def segmentExt : Bytes := [46, 108, 111, 103]

/-- `SegmentName` (lines 25–27): "%016d" pads to sixteen digits and cuts none. -/
def segmentName (firstLSN : ℕ) : Bytes :=
  decimal (max 16 (Nat.toDigits 10 firstLSN).length) firstLSN ++ segmentExt

/-- One digit of `strconv.ParseUint(_, 10, 64)`. -/
def parseDigit (n : ℕ) (b : UInt8) : Option ℕ :=
  if 48 ≤ b ∧ b ≤ 57 then some (10 * n + (b.toNat - 48)) else none

/-- `ParseSegmentName` (lines 30–44) of a name without directories. Sixteen digits are
    below `2 ^ 64`. -/
def parseSegmentName (name : Bytes) : Option ℕ :=
  if ¬ segmentExt <:+ name then none
  else
    let numPart := name.take (name.length - segmentExt.length)
    if numPart.length ≠ 16 then none else numPart.foldlM parseDigit 0

@[simp] theorem length_decimal (w n : ℕ) : (decimal w n).length = w := by
  induction w generalizing n with
  | zero => rfl
  | succ w ih => simp [decimal, ih]

theorem parseDigit_digit (n m : ℕ) :
    parseDigit n (UInt8.ofNat (48 + m % 10)) = some (10 * n + m % 10) := by
  have hm : m % 10 < 10 := Nat.mod_lt _ (by decide)
  have hval : (UInt8.ofNat (48 + m % 10)).toNat = 48 + m % 10 := by
    rw [UInt8.toNat_ofNat']; omega
  have hrange : 48 ≤ UInt8.ofNat (48 + m % 10) ∧ UInt8.ofNat (48 + m % 10) ≤ 57 := by
    rw [UInt8.le_iff_toNat_le, UInt8.le_iff_toNat_le, hval]
    exact ⟨Nat.le_add_right 48 _, by show 48 + m % 10 ≤ 57; omega⟩
  rw [parseDigit, if_pos hrange, hval, Nat.add_sub_cancel_left]

theorem foldlM_parseDigit_decimal (w n : ℕ) :
    (decimal w n).foldlM parseDigit 0 = some (n % 10 ^ w) := by
  induction w generalizing n with
  | zero => simp [decimal, Nat.mod_one]
  | succ w ih =>
    rw [decimal, List.foldlM_append, ih]
    simp only [Option.bind_eq_bind, Option.bind_some, List.foldlM_cons, List.foldlM_nil,
      parseDigit_digit, Option.pure_def, Option.some_inj]
    rw [pow_succ', Nat.mod_mul]
    omega

theorem segmentName_eq {n : ℕ} (h : n < 10 ^ 16) : segmentName n = decimal 16 n ++ segmentExt := by
  rw [segmentName, Nat.max_eq_left (Nat.toDigits_length 10 n 16 (by decide) h)]

/-- Below `10 ^ 16` a name gives its LSN back. -/
theorem parseSegmentName_segmentName {n : ℕ} (h : n < 10 ^ 16) :
    parseSegmentName (segmentName n) = some n := by
  have hnum : (segmentName n).take ((segmentName n).length - segmentExt.length) = decimal 16 n := by
    rw [segmentName_eq h, List.length_append, Nat.add_sub_cancel, List.take_left' rfl]
  unfold parseSegmentName
  dsimp only
  rw [if_neg (not_not.mpr (segmentName_eq h ▸ List.suffix_append _ _)), hnum,
    if_neg (by simp), foldlM_parseDigit_decimal, Nat.mod_eq_of_lt h]

theorem segmentName_inj {n m : ℕ} (hn : n < 10 ^ 16) (hm : m < 10 ^ 16)
    (h : segmentName n = segmentName m) : n = m := by
  have hparse := parseSegmentName_segmentName hn
  rw [h, parseSegmentName_segmentName hm] at hparse
  exact (Option.some.inj hparse).symm

/-! ## The header record -/

/-- `segmentMagic` (record.go line 224), "KVWALSEG". -/
def segmentMagic : Bytes := [75, 86, 87, 65, 76, 83, 69, 71]

/-- `segmentFormatVersion` (line 226). -/
def segmentFormatVersion : ℕ := 1

/-- `newSegmentHeader` (lines 229–239). -/
def newSegmentHeader (firstLSN : ℕ) (nowMs : UInt64) : Record where
  lsn := firstLSN
  createdAtMs := nowMs
  type := .segmentHdr
  flags := 0
  key := segmentMagic
  value := putLE 4 segmentFormatVersion
  expireAtMs := 0

/-- The errors of `parseSegmentHeader` (lines 243–258). -/
inductive HeaderError
  | notHeader (type : RecordType)
  | badMagic (key : Bytes)
  | badValueLen (len : ℕ)
  | badVersion (version : ℕ)
  deriving DecidableEq, Repr

/-- `parseSegmentHeader` (lines 243–258). -/
def parseSegmentHeader (r : Record) : Except HeaderError ℕ :=
  if r.type ≠ .segmentHdr then .error (.notHeader r.type)
  else if r.key ≠ segmentMagic then .error (.badMagic r.key)
  else if r.value.length ≠ 4 then .error (.badValueLen r.value.length)
  else if leNat r.value ≠ segmentFormatVersion then .error (.badVersion (leNat r.value))
  else .ok (leNat r.value)

theorem parseSegmentHeader_new (firstLSN : ℕ) (nowMs : UInt64) :
    parseSegmentHeader (newSegmentHeader firstLSN nowMs) = .ok segmentFormatVersion := rfl

/-- The size of a header record. -/
def segmentHdrLen : ℕ := 52

theorem encodedLen_of_parseSegmentHeader {r : Record} {version : ℕ}
    (h : parseSegmentHeader r = .ok version) : r.encodedLen = segmentHdrLen := by
  unfold parseSegmentHeader at h
  split_ifs at h with _ hkey hvalue
  rw [not_not] at hkey hvalue
  rw [Record.encodedLen, hkey, hvalue]
  rfl

theorem newSegmentHeader_fits {firstLSN : ℕ} (h : firstLSN < 2 ^ 64) (nowMs : UInt64) :
    (newSegmentHeader firstLSN nowMs).Fits :=
  ⟨h, by simp [newSegmentHeader, segmentMagic, maxKeyLen], by simp [newSegmentHeader, maxValLen]⟩

theorem encodedLen_newSegmentHeader (firstLSN : ℕ) (nowMs : UInt64) :
    (newSegmentHeader firstLSN nowMs).encodedLen = segmentHdrLen := rfl

/-! ## Listing a directory -/

/-- `SegmentInfo` (lines 47–51). -/
structure SegmentInfo where
  path : Bytes
  firstLSN : ℕ
  size : ℕ
  deriving DecidableEq, Repr

/-- What `ListSegments` makes of one directory entry: nothing of a name that is not a
    segment's. -/
def segmentInfo (entry : Bytes × File) : Option SegmentInfo :=
  (parseSegmentName entry.1).map fun lsn => ⟨entry.1, lsn, entry.2.bytes.length⟩

/-- `ListSegments` (lines 59–88). -/
def listSegments (d : Disk Bytes) : List SegmentInfo :=
  (d.filterMap segmentInfo).insertionSort fun a b => a.firstLSN ≤ b.firstLSN

/-! ## Records in the first bytes of a file -/

/-- The records one after the other, as `flushBatch` serialises a batch. -/
def encodeRecords (rs : List Record) : Bytes := rs.flatMap appendRecord

/-- The records that lie wholly in the first `n` bytes of `encodeRecords rs`. -/
def whole : ℕ → List Record → List Record
  | _, [] => []
  | n, r :: rs => if r.encodedLen ≤ n then r :: whole (n - r.encodedLen) rs else []

section Whole

variable {n k : ℕ} {rs : List Record}

@[simp] theorem encodeRecords_nil : encodeRecords [] = [] := rfl

@[simp] theorem encodeRecords_cons (r : Record) (rs : List Record) :
    encodeRecords (r :: rs) = appendRecord r ++ encodeRecords rs := rfl

@[simp] theorem encodeRecords_append (rs rs' : List Record) :
    encodeRecords (rs ++ rs') = encodeRecords rs ++ encodeRecords rs' := List.flatMap_append

theorem whole_prefix (n : ℕ) (rs : List Record) : whole n rs <+: rs := by
  induction rs generalizing n with
  | nil => exact List.prefix_refl _
  | cons r rs ih =>
    unfold whole
    split_ifs
    · exact (List.cons_prefix_cons).mpr ⟨rfl, ih _⟩
    · exact List.nil_prefix

theorem length_encode_whole_le (n : ℕ) (rs : List Record) :
    (encodeRecords (whole n rs)).length ≤ n := by
  induction rs generalizing n with
  | nil => exact Nat.zero_le n
  | cons r rs ih =>
    unfold whole
    split_ifs with h
    · have := ih (n - r.encodedLen)
      rw [encodeRecords_cons, List.length_append, length_appendRecord]
      omega
    · exact Nat.zero_le n

theorem whole_whole (h : k ≤ n) (rs : List Record) : whole k (whole n rs) = whole k rs := by
  induction rs generalizing n k with
  | nil => rfl
  | cons r rs ih =>
    by_cases hn : r.encodedLen ≤ n
    · rw [whole, if_pos hn, whole, whole]
      split_ifs with hk
      · rw [ih (by omega)]
      · rfl
    · rw [whole, if_neg hn, whole, whole, if_neg (by omega)]

theorem whole_mono (h : k ≤ n) (rs : List Record) : whole k rs <+: whole n rs :=
  whole_whole h rs ▸ whole_prefix k (whole n rs)

/-- Records that lie wholly in the first bytes stay there when more are appended. -/
theorem whole_append (h : (encodeRecords rs).length ≤ n) (rs' : List Record) :
    whole n (rs ++ rs') = rs ++ whole (n - (encodeRecords rs).length) rs' := by
  induction rs generalizing n with
  | nil => rfl
  | cons r rs ih =>
    rw [encodeRecords_cons, List.length_append, length_appendRecord] at h ⊢
    rw [List.cons_append, whole, if_pos (by omega), ih (by omega), ← List.cons_append]
    congr 2
    omega

theorem encodedLen_pos (r : Record) : 0 < r.encodedLen := by
  unfold Record.encodedLen recHeaderLen
  omega

theorem length_le_encodeRecords (rs : List Record) : rs.length ≤ (encodeRecords rs).length := by
  induction rs with
  | nil => exact le_rfl
  | cons r rs ih =>
    have hpos := encodedLen_pos r
    rw [encodeRecords_cons, List.length_append, length_appendRecord, List.length_cons]
    omega

theorem whole_append_of_le (h : n ≤ (encodeRecords rs).length) (rs' : List Record) :
    whole n (rs ++ rs') = whole n rs := by
  induction rs generalizing n with
  | nil =>
    obtain rfl : n = 0 := Nat.le_zero.mp h
    cases rs' with
    | nil => rfl
    | cons r rs' => exact if_neg (Nat.not_le.mpr (encodedLen_pos r))
  | cons r rs ih =>
    rw [encodeRecords_cons, List.length_append, length_appendRecord] at h
    rw [List.cons_append, whole, whole, ih (by omega)]

theorem whole_of_length_le (h : (encodeRecords rs).length ≤ n) : whole n rs = rs := by
  have := whole_append h []
  rwa [List.append_nil, whole, List.append_nil] at this

end Whole

/-! ## What a segment file is meant to hold -/

/-- A header and the records that follow it. -/
structure SegmentImage where
  firstLSN : ℕ
  createdAtMs : UInt64
  records : List Record

namespace SegmentImage

variable {s : SegmentImage} {ss : List SegmentImage}

/-- The file name. -/
def path (s : SegmentImage) : Bytes := segmentName s.firstLSN

/-- The header record. -/
def header (s : SegmentImage) : Record := newSegmentHeader s.firstLSN s.createdAtMs

/-- The whole file. -/
def bytes (s : SegmentImage) : Bytes := appendRecord s.header ++ encodeRecords s.records

/-- The directory entry of a file that holds the first `n` bytes, of which `synced` are durable. -/
def entry (s : SegmentImage) (n synced : ℕ) : Bytes × File := (s.path, ⟨s.bytes.take n, synced⟩)

/-- The directory entry of a complete and durable segment. -/
def sealedEntry (s : SegmentImage) : Bytes × File := s.entry s.bytes.length s.bytes.length

/-- The segment with further records. -/
def extend (s : SegmentImage) (rs : List Record) : SegmentImage :=
  { s with records := s.records ++ rs }

/-- The records that lie wholly in the first `n` bytes, when the header does. -/
def whole (s : SegmentImage) (n : ℕ) : List Record :=
  if segmentHdrLen ≤ n then KvStore.whole (n - segmentHdrLen) s.records else []

/-- The segment that these records and the header make. -/
def cut (s : SegmentImage) (n : ℕ) : SegmentImage := { s with records := s.whole n }

/-- The name can be read back, and every record can be. -/
structure Fits (s : SegmentImage) : Prop where
  name : s.firstLSN < 10 ^ 16
  records : ∀ r ∈ s.records, r.Fits

theorem Fits.header (h : s.Fits) : s.header.Fits :=
  newSegmentHeader_fits (h.name.trans (by norm_num)) _

/-- The listing entry of the file with `size` bytes. -/
def info (s : SegmentImage) (size : ℕ) : SegmentInfo := ⟨s.path, s.firstLSN, size⟩

theorem segmentInfo_entry (h : s.Fits) (n synced : ℕ) :
    segmentInfo (s.entry n synced) = some (s.info (s.bytes.take n).length) := by
  rw [segmentInfo, entry, path, parseSegmentName_segmentName h.name]
  rfl

@[simp] theorem length_bytes (s : SegmentImage) :
    s.bytes.length = segmentHdrLen + (encodeRecords s.records).length := by
  rw [bytes, List.length_append, length_appendRecord]
  rfl

theorem whole_sublist (s : SegmentImage) (n : ℕ) : s.whole n <+: s.records := by
  unfold whole
  split_ifs
  · exact whole_prefix _ _
  · exact List.nil_prefix

theorem whole_mono {k n : ℕ} (h : k ≤ n) (s : SegmentImage) : s.whole k <+: s.whole n := by
  unfold whole
  split_ifs with hk hn
  · exact KvStore.whole_mono (by omega) _
  · omega
  · exact List.nil_prefix
  · exact List.nil_prefix

theorem whole_cut {k n : ℕ} (h : k ≤ n) (s : SegmentImage) : (s.cut n).whole k = s.whole k := by
  unfold cut whole
  split_ifs with hk hn
  · exact whole_whole (by omega) _
  · omega
  · rfl

theorem bytes_extend (s : SegmentImage) (rs : List Record) :
    (s.extend rs).bytes = s.bytes ++ encodeRecords rs := by
  rw [bytes, bytes, extend, encodeRecords_append, List.append_assoc]
  rfl

theorem whole_extend {n : ℕ} (h : n ≤ s.bytes.length) (rs : List Record) :
    (s.extend rs).whole n = s.whole n := by
  rw [length_bytes] at h
  unfold whole extend
  split_ifs
  · exact whole_append_of_le (by omega) rs
  · rfl

theorem whole_length (s : SegmentImage) : s.whole s.bytes.length = s.records := by
  rw [whole, length_bytes, if_pos (by omega), whole_of_length_le (by omega)]

/-- The bytes of the cut segment are the first ones of the file. -/
theorem bytes_cut_prefix (s : SegmentImage) (n : ℕ) : (s.cut n).bytes <+: s.bytes := by
  obtain ⟨rest, hrest⟩ := s.whole_sublist n
  refine ⟨encodeRecords rest, ?_⟩
  rw [bytes, bytes, List.append_assoc, cut, ← encodeRecords_append, hrest]
  rfl

theorem length_bytes_cut_le {n : ℕ} (h : segmentHdrLen ≤ n) (s : SegmentImage) :
    (s.cut n).bytes.length ≤ n := by
  have hlen := length_encode_whole_le (n - segmentHdrLen) s.records
  have hrec : (s.cut n).records = KvStore.whole (n - segmentHdrLen) s.records := if_pos h
  rw [length_bytes, hrec]
  omega

theorem Fits.cut (h : s.Fits) (n : ℕ) : (s.cut n).Fits :=
  ⟨h.name, fun r hr => h.records r ((s.whole_sublist n).subset hr)⟩

end SegmentImage

end KvStore
