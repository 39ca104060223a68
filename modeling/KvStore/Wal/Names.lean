import KvStore.Wal.Retain

/-!
# Names of segments

`SegmentName` pads an LSN to sixteen digits and `ParseSegmentName` accepts sixteen digits and no
other number of them (`internal/wal/segment.go` lines 25–44). The largest LSN has twenty.

* `segmentName_faithful`: below `10 ^ 16`, and only there, a name gives its LSN back; a segment made
  under it is listed, and the order of names is that of LSNs.
* `segmentName_seventeen_digits`: the name for `10 ^ 16` is not read back, the segment made under it
  is not listed, and the name comes before that for `10 ^ 16 - 1`.
-/

namespace KvStore

open KvStore.Common

/-! ## Order -/

/-- Words of one length are compared before what follows them. -/
theorem append_lt_append_iff {u v : Bytes} (h : u.length = v.length) (x y : Bytes) :
    u ++ x < v ++ y ↔ u < v ∨ u = v ∧ x < y := by
  induction u generalizing v with
  | nil =>
    obtain rfl : v = [] := List.length_eq_zero_iff.mp h.symm
    simp
  | cons a u ih =>
    obtain ⟨b, v, rfl⟩ := List.exists_cons_of_length_eq_add_one h.symm
    rw [List.cons_append, List.cons_append, List.cons_lt_cons_iff, List.cons_lt_cons_iff,
      ih (by simpa using h), List.cons.injEq]
    tauto

theorem digit_lt_digit_iff (n m : ℕ) :
    UInt8.ofNat (48 + n % 10) < UInt8.ofNat (48 + m % 10) ↔ n % 10 < m % 10 := by
  have hn : n % 10 < 10 := Nat.mod_lt n (by decide)
  have hm : m % 10 < 10 := Nat.mod_lt m (by decide)
  rw [UInt8.lt_iff_toNat_lt, UInt8.toNat_ofNat', UInt8.toNat_ofNat']
  omega

theorem decimal_inj {w n m : ℕ} (hn : n < 10 ^ w) (hm : m < 10 ^ w) :
    decimal w n = decimal w m ↔ n = m := by
  constructor
  · intro h
    have hparse := foldlM_parseDigit_decimal w n
    rw [h, foldlM_parseDigit_decimal, Nat.mod_eq_of_lt hn, Nat.mod_eq_of_lt hm] at hparse
    simpa using hparse.symm
  · intro h
    rw [h]

/-- Numbers of one width are ordered as their digits are. -/
theorem decimal_lt_decimal_iff {w n m : ℕ} (hn : n < 10 ^ w) (hm : m < 10 ^ w) :
    decimal w n < decimal w m ↔ n < m := by
  induction w generalizing n m with
  | zero =>
    simp only [pow_zero] at hn hm
    simp [decimal]
    omega
  | succ w ih =>
    rw [pow_succ] at hn hm
    have hn' : n / 10 < 10 ^ w := by omega
    have hm' : m / 10 < 10 ^ w := by omega
    have hdigit : [UInt8.ofNat (48 + n % 10)] < [UInt8.ofNat (48 + m % 10)] ↔ n % 10 < m % 10 := by
      rw [List.cons_lt_cons_iff, digit_lt_digit_iff]
      simp
    rw [decimal, decimal, append_lt_append_iff (by simp), ih hn' hm', decimal_inj hn' hm', hdigit]
    omega

/-! ## Listing -/

/-- What `createSegment` leaves in a directory that has no file of that name. -/
theorem createSegment_eq {d : Disk Bytes} {n : ℕ} (nowMs : UInt64)
    (hnew : segmentName n ∉ d.map Prod.fst) :
    Wal.createSegment d n nowMs =
      d ++ [(segmentName n, ⟨appendRecord (newSegmentHeader n nowMs), segmentHdrLen⟩)] := by
  have hlen : (appendRecord (newSegmentHeader n nowMs)).length = segmentHdrLen := by
    rw [length_appendRecord, encodedLen_newSegmentHeader]
  rw [Wal.createSegment, Wal.appendFile, Disk.create, Disk.modify_append_singleton hnew,
    Disk.modify_append_singleton hnew]
  simp [File.writeAt, File.sync, hlen]

theorem mem_listSegments_createSegment {d : Disk Bytes} {n : ℕ} (nowMs : UInt64) (h : n < 10 ^ 16)
    (hnew : segmentName n ∉ d.map Prod.fst) :
    ⟨segmentName n, n, segmentHdrLen⟩ ∈ listSegments (Wal.createSegment d n nowMs) := by
  rw [createSegment_eq nowMs hnew, (listSegments_perm _).mem_iff, List.mem_filterMap]
  refine ⟨_, List.mem_append_right d (List.mem_singleton_self _), ?_⟩
  simp [segmentInfo, parseSegmentName_segmentName h, length_appendRecord,
    encodedLen_newSegmentHeader]

/-! ## More than sixteen digits -/

/-- A name with more than sixteen digits is not taken for a segment's. -/
theorem parseSegmentName_long {n : ℕ} (h : 10 ^ 16 ≤ n) :
    parseSegmentName (segmentName n) = none := by
  have hwidth : 16 < (Nat.toDigits 10 n).length := by
    have hiff := Nat.length_toDigits_le_iff (b := 10) (n := n) (k := 16) (by decide) (by decide)
    omega
  have hnum : ((segmentName n).take ((segmentName n).length - segmentExt.length)).length ≠ 16 := by
    rw [segmentName, List.length_append, Nat.add_sub_cancel, List.take_left' rfl, length_decimal]
    omega
  unfold parseSegmentName
  dsimp only
  rw [if_pos hnum]
  split_ifs
  · rfl
  · rfl

/-- The segment that `createSegment` makes is found. -/
def Listed (n : ℕ) : Prop :=
  ∀ (d : Disk Bytes) (nowMs : UInt64), segmentName n ∉ d.map Prod.fst →
    ⟨segmentName n, n, segmentHdrLen⟩ ∈ listSegments (Wal.createSegment d n nowMs)

/-- For all 64-bit LSNs: names are read back, segments are found and the order of names is that of
    LSNs exactly when both have at most sixteen digits. -/
theorem segmentName_faithful (a b : UInt64) :
    (parseSegmentName (segmentName a.toNat) = some a.toNat ∧
      parseSegmentName (segmentName b.toNat) = some b.toNat ∧
      Listed a.toNat ∧ Listed b.toNat ∧ (a < b ↔ segmentName a.toNat < segmentName b.toNat)) ↔
    a.toNat < 10 ^ 16 ∧ b.toNat < 10 ^ 16 := by
  -- a longer name is not even read back
  have hshort : ∀ {n : ℕ}, parseSegmentName (segmentName n) = some n → n < 10 ^ 16 := by
    intro n hparse
    by_contra hn
    rw [parseSegmentName_long (by omega)] at hparse
    cases hparse
  constructor
  · rintro ⟨ha, hb, -⟩
    exact ⟨hshort ha, hshort hb⟩
  · rintro ⟨ha, hb⟩
    refine ⟨parseSegmentName_segmentName ha, parseSegmentName_segmentName hb,
      fun d nowMs hnew => mem_listSegments_createSegment nowMs ha hnew,
      fun d nowMs hnew => mem_listSegments_createSegment nowMs hb hnew, ?_⟩
    rw [segmentName_eq ha, segmentName_eq hb, append_lt_append_iff (by simp),
      decimal_lt_decimal_iff ha hb, UInt64.lt_iff_toNat_lt]
    simp

/-- The largest LSN of sixteen digits, and one of a single digit. -/
theorem segmentName_faithful_sixteen_digits :
    parseSegmentName (segmentName 9999999999999999) = some 9999999999999999 ∧
      Listed 9999999999999999 ∧ segmentName 9 < segmentName 9999999999999999 := by
  obtain ⟨-, hparse, -, hlisted, horder⟩ :=
    (segmentName_faithful 9 9999999999999999).mpr ⟨by decide, by decide⟩
  exact ⟨hparse, hlisted, horder.mp (by decide)⟩

/-- The smallest LSN of seventeen digits. -/
theorem segmentName_seventeen_digits :
    parseSegmentName (segmentName (10000000000000000 : UInt64).toNat) = none ∧
      listSegments (Wal.createSegment [] (10000000000000000 : UInt64).toNat 0) = [] ∧
      segmentName (10000000000000000 : UInt64).toNat < segmentName (9999999999999999 : UInt64).toNat := by
  have hparse : parseSegmentName (segmentName 10000000000000000) = none :=
    parseSegmentName_long (by decide)
  refine ⟨hparse, ?_, by decide +kernel⟩
  show listSegments (Wal.createSegment [] 10000000000000000 0) = []
  rw [createSegment_eq 0 (by simp), listSegments]
  simp [segmentInfo, hparse]

end KvStore
