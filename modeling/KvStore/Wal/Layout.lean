import KvStore.Wal.Replay

/-!
# Log directories

A `Layout` is a log directory as a writer leaves it behind, possibly cut by a crash:
complete durable segments, and a last one of which the first `size` bytes are there.
What the system calls of the writer do to the files is an operation on layouts, which
therefore keep their segments readable and their records in LSN order.

* `Layout.replay_disk`: on such a directory `Replay` succeeds, applies the records that
  lie wholly in the files, and leaves the directory `Layout.replayed`.
-/

namespace KvStore

open KvStore.Common

/-- A log directory: sealed segments and the first `size` bytes of the last one. -/
structure Layout where
  sealed : List SegmentImage
  last : SegmentImage
  size : ℕ
  synced : ℕ
  size_le : size ≤ last.bytes.length
  synced_le : synced ≤ size
  fits : ∀ s ∈ sealed ++ [last], s.Fits
  names : (sealed ++ [last]).Pairwise fun a b => a.firstLSN < b.firstLSN
  order : (sealed.flatMap SegmentImage.records ++ last.records).Pairwise fun a b => a.lsn < b.lsn
  pos : ∀ r ∈ sealed.flatMap SegmentImage.records ++ last.records, 0 < r.lsn

namespace Layout

variable {L : Layout}

/-- The records of the sealed segments. -/
def sealedRecords (L : Layout) : List Record := L.sealed.flatMap SegmentImage.records

/-- Every record, those not wholly in the last file included. -/
def records (L : Layout) : List Record := L.sealedRecords ++ L.last.records

/-- The records that lie wholly in the files. -/
def present (L : Layout) : List Record := L.sealedRecords ++ L.last.whole L.size

/-- The records that lie wholly in durable bytes. -/
def durable (L : Layout) : List Record := L.sealedRecords ++ L.last.whole L.synced

/-- The files. -/
def disk (L : Layout) : Disk Bytes :=
  L.sealed.map SegmentImage.sealedEntry ++ [L.last.entry L.size L.synced]

/-- The last file ends where its image does. -/
def Full (L : Layout) : Prop := L.size = L.last.bytes.length

theorem present_prefix (L : Layout) : L.present <+: L.records :=
  List.prefix_append_right_inj _ |>.mpr (L.last.whole_sublist L.size)

theorem durable_prefix (L : Layout) : L.durable <+: L.present :=
  List.prefix_append_right_inj _ |>.mpr (SegmentImage.whole_mono L.synced_le L.last)

theorem present_order (L : Layout) : L.present.Pairwise fun a b => a.lsn < b.lsn :=
  L.order.sublist L.present_prefix.sublist

theorem Full.present_eq (h : L.Full) : L.present = L.records := by
  rw [present, records, h, SegmentImage.whole_length]

theorem last_fits (L : Layout) : L.last.Fits := L.fits _ (by simp)

theorem sealed_fits (L : Layout) {s : SegmentImage} (h : s ∈ L.sealed) : s.Fits :=
  L.fits s (List.mem_append_left _ h)

theorem lt_last (L : Layout) {s : SegmentImage} (h : s ∈ L.sealed) :
    s.firstLSN < L.last.firstLSN :=
  (List.pairwise_append.mp L.names).2.2 s h L.last (by simp)

/-! ## Files by name -/

theorem fst_sealed (L : Layout) :
    (L.sealed.map SegmentImage.sealedEntry).map Prod.fst = L.sealed.map SegmentImage.path :=
  List.map_map

theorem path_notMem (L : Layout) :
    L.last.path ∉ (L.sealed.map SegmentImage.sealedEntry).map Prod.fst := by
  rw [fst_sealed]
  intro h
  obtain ⟨s, hs, hpath⟩ := List.mem_map.mp h
  have := segmentName_inj (L.sealed_fits hs).name L.last_fits.name hpath
  exact absurd (L.lt_last hs) (by omega)

theorem read_last (L : Layout) :
    Disk.read L.disk L.last.path = some ⟨L.last.bytes.take L.size, L.synced⟩ :=
  Disk.read_append_singleton L.path_notMem

theorem modify_last (L : Layout) (g : File → File) :
    Disk.modify L.disk L.last.path g = L.sealed.map SegmentImage.sealedEntry ++
      [(L.last.path, g ⟨L.last.bytes.take L.size, L.synced⟩)] :=
  Disk.modify_append_singleton L.path_notMem g

theorem nodup_names (L : Layout) : (L.disk.map Prod.fst).Nodup := by
  have hfst : L.disk.map Prod.fst = (L.sealed ++ [L.last]).map SegmentImage.path := by
    rw [disk, List.map_append, fst_sealed, List.map_append]
    rfl
  rw [hfst, List.nodup_iff_pairwise_ne, List.pairwise_map]
  refine L.names.imp_of_mem fun {a b} ha hb hlt he => ?_
  have := segmentName_inj (L.fits a ha).name (L.fits b hb).name he
  omega

theorem read_sealed (L : Layout) {s : SegmentImage} (h : s ∈ L.sealed) :
    Disk.read L.disk s.path = some ⟨s.bytes, s.bytes.length⟩ := by
  refine Disk.read_of_mem L.nodup_names (List.mem_append_left _ ?_)
  have hentry : s.sealedEntry = (s.path, ⟨s.bytes, s.bytes.length⟩) := by
    rw [SegmentImage.sealedEntry, SegmentImage.entry, List.take_length]
  exact hentry ▸ List.mem_map_of_mem h

/-- No file has the name of a segment that starts above all of them. -/
theorem read_new (L : Layout) {firstLSN : ℕ} (h : firstLSN < 10 ^ 16)
    (hlt : L.last.firstLSN < firstLSN) : Disk.read L.disk (segmentName firstLSN) = none := by
  have hfst : L.disk.map Prod.fst = (L.sealed ++ [L.last]).map SegmentImage.path := by
    rw [disk, List.map_append, fst_sealed, List.map_append]
    rfl
  refine Disk.read_eq_none fun hmem => ?_
  rw [hfst] at hmem
  obtain ⟨s, hs, hpath⟩ := List.mem_map.mp hmem
  have heq := segmentName_inj (L.fits s hs).name h hpath
  rcases List.mem_append.mp hs with hs | hs
  · have := L.lt_last hs
    omega
  · obtain rfl := List.mem_singleton.mp hs
    omega

/-! ## System calls -/

/-- Another image for the last file, under the same name. -/
def setLast (L : Layout) (s : SegmentImage) (size synced : ℕ) (hname : s.firstLSN = L.last.firstLSN)
    (hsize : size ≤ s.bytes.length) (hsynced : synced ≤ size) (hfits : ∀ r ∈ s.records, r.Fits)
    (horder : (L.sealedRecords ++ s.records).Pairwise fun a b => a.lsn < b.lsn)
    (hpos : ∀ r ∈ s.records, 0 < r.lsn) : Layout where
  sealed := L.sealed
  last := s
  size := size
  synced := synced
  size_le := hsize
  synced_le := hsynced
  fits := by
    intro x hx
    rcases List.mem_append.mp hx with hx | hx
    · exact L.sealed_fits hx
    · obtain rfl := List.mem_singleton.mp hx
      exact ⟨hname ▸ L.last_fits.name, hfits⟩
  names := by
    refine List.pairwise_append.mpr ⟨(List.pairwise_append.mp L.names).1, by simp, ?_⟩
    intro x hx y hy
    obtain rfl := List.mem_singleton.mp hy
    exact hname ▸ L.lt_last hx
  order := horder
  pos := by
    intro r hr
    rcases List.mem_append.mp hr with hr | hr
    · exact L.pos r (List.mem_append_left _ hr)
    · exact hpos r hr

/-- The records `rs` can follow those of the log. -/
structure Admits (L : Layout) (rs : List Record) : Prop where
  fits : ∀ r ∈ rs, r.Fits
  order : (L.records ++ rs).Pairwise fun a b => a.lsn < b.lsn
  pos : ∀ r ∈ rs, 0 < r.lsn

theorem Admits.left {rs rs' : List Record} (h : L.Admits (rs ++ rs')) : L.Admits rs where
  fits := fun r hr => h.fits r (List.mem_append_left _ hr)
  order := h.order.sublist ((List.Sublist.refl _).append (List.sublist_append_left _ _))
  pos := fun r hr => h.pos r (List.mem_append_left _ hr)

/-- The image of the last file goes on with `rs`, of which nothing is written yet. -/
def extend (L : Layout) (rs : List Record) (h : L.Admits rs) : Layout :=
  L.setLast (L.last.extend rs) L.size L.synced rfl
    (by rw [SegmentImage.bytes_extend, List.length_append]; exact Nat.le_add_right_of_le L.size_le)
    L.synced_le
    (fun r hr => (List.mem_append.mp hr).elim (L.last_fits.records r) (h.fits r))
    (by rw [SegmentImage.extend, ← List.append_assoc]; exact h.order)
    (fun r hr => (List.mem_append.mp hr).elim
      (fun hr => L.pos r (List.mem_append_right _ hr)) (h.pos r))

/-- More bytes of the image are written. -/
def grow (L : Layout) (n : ℕ) (h : L.size ≤ n) (hn : n ≤ L.last.bytes.length) : Layout :=
  { L with size := n, size_le := hn, synced_le := L.synced_le.trans h }

/-- The last file is fsynced. -/
def fsync (L : Layout) : Layout := { L with synced := L.size, synced_le := le_rfl }

/-- A crash cuts the last file to `n` bytes. -/
def crash (L : Layout) (n : ℕ) (h : L.synced ≤ n) (hn : n ≤ L.size) : Layout :=
  { L with size := n, size_le := hn.trans L.size_le, synced_le := h }

/-- A new segment file, still empty, after a complete and durable one. -/
def rotate (L : Layout) (firstLSN : ℕ) (nowMs : UInt64) (hname : firstLSN < 10 ^ 16)
    (hlt : L.last.firstLSN < firstLSN) : Layout where
  sealed := L.sealed ++ [L.last]
  last := ⟨firstLSN, nowMs, []⟩
  size := 0
  synced := 0
  size_le := Nat.zero_le _
  synced_le := le_rfl
  fits := by
    intro s hs
    rcases List.mem_append.mp hs with hs | hs
    · exact L.fits s hs
    · obtain rfl := List.mem_singleton.mp hs
      exact ⟨hname, nofun⟩
  names := by
    refine List.pairwise_append.mpr ⟨L.names, by simp, ?_⟩
    intro s hs t ht
    obtain rfl := List.mem_singleton.mp ht
    rcases List.mem_append.mp hs with hs | hs
    · exact (L.lt_last hs).trans hlt
    · obtain rfl := List.mem_singleton.mp hs
      exact hlt
  order := by simpa using L.order
  pos := by simpa using L.pos

/-- The first segment file, still empty. -/
def first (firstLSN : ℕ) (nowMs : UInt64) (hname : firstLSN < 10 ^ 16) : Layout where
  sealed := []
  last := ⟨firstLSN, nowMs, []⟩
  size := 0
  synced := 0
  size_le := Nat.zero_le _
  synced_le := le_rfl
  fits := by
    intro s hs
    obtain rfl := List.mem_singleton.mp hs
    exact ⟨hname, nofun⟩
  names := List.pairwise_singleton _ _
  order := List.Pairwise.nil
  pos := nofun

theorem length_take_size (L : Layout) : (L.last.bytes.take L.size).length = L.size := by
  rw [List.length_take, Nat.min_eq_left L.size_le]

theorem extend_disk (L : Layout) {rs : List Record} (h : L.Admits rs) :
    (L.extend rs h).disk = L.disk := by
  show _ ++ [(_, (⟨(L.last.extend rs).bytes.take L.size, _⟩ : File))] = _
  rw [SegmentImage.bytes_extend, List.take_append_of_le_length L.size_le]
  rfl

theorem extend_durable (L : Layout) {rs : List Record} (h : L.Admits rs) :
    (L.extend rs h).durable = L.durable :=
  congrArg (L.sealedRecords ++ ·) (SegmentImage.whole_extend (L.synced_le.trans L.size_le) rs)

theorem grow_disk (L : Layout) (n : ℕ) (h : L.size ≤ n) (hn : n ≤ L.last.bytes.length) :
    (L.grow n h hn).disk = Disk.modify L.disk L.last.path fun f =>
      f.writeAt L.size ((L.last.bytes.drop L.size).take (n - L.size)) := by
  have hwrite := File.writeAt_length ⟨L.last.bytes.take L.size, L.synced⟩
    (by rw [L.length_take_size]; exact L.synced_le) ((L.last.bytes.drop L.size).take (n - L.size))
  rw [L.length_take_size] at hwrite
  rw [modify_last, hwrite, ← List.take_add, Nat.add_sub_cancel' h]
  rfl

/-- A write of `rs` behind a complete image puts the first `k` bytes into the file. -/
def append (L : Layout) (rs : List Record) (h : L.Admits rs) (hfull : L.Full) (k : ℕ) : Layout :=
  (L.extend rs h).grow (L.size + ((encodeRecords rs).take k).length) (Nat.le_add_right _ _) (by
    show _ ≤ (L.last.extend rs).bytes.length
    rw [SegmentImage.bytes_extend, List.length_append, hfull, List.length_take]
    omega)

theorem append_disk (L : Layout) {rs : List Record} (h : L.Admits rs) (hfull : L.Full) (k : ℕ) :
    (L.append rs h hfull k).disk = Disk.modify L.disk L.last.path fun f =>
      f.writeAt L.size ((encodeRecords rs).take k) := by
  have hdrop : (L.extend rs h).last.bytes.drop L.size = encodeRecords rs := by
    show (L.last.extend rs).bytes.drop L.size = _
    rw [SegmentImage.bytes_extend, List.drop_left' hfull.symm]
  have htake : (encodeRecords rs).take ((encodeRecords rs).take k).length =
      (encodeRecords rs).take k := by
    rw [List.length_take, List.take_eq_take_iff]
    omega
  have hgrow := (L.extend rs h).grow_disk (L.size + ((encodeRecords rs).take k).length)
    (Nat.le_add_right _ _) (L.append rs h hfull k).size_le
  rw [extend_disk] at hgrow
  refine hgrow.trans ?_
  show Disk.modify L.disk L.last.path (fun f => f.writeAt L.size
    (((L.extend rs h).last.bytes.drop L.size).take (L.size + _ - L.size))) = _
  rw [hdrop, Nat.add_sub_cancel_left, htake]

theorem append_durable (L : Layout) {rs : List Record} (h : L.Admits rs) (hfull : L.Full) (k : ℕ) :
    (L.append rs h hfull k).durable = L.durable := L.extend_durable h

theorem append_full (L : Layout) {rs : List Record} (h : L.Admits rs) (hfull : L.Full) :
    (L.append rs h hfull (encodeRecords rs).length).Full := by
  show L.size + ((encodeRecords rs).take _).length = (L.last.extend rs).bytes.length
  rw [List.take_length, SegmentImage.bytes_extend, List.length_append, hfull]

theorem append_records (L : Layout) {rs : List Record} (h : L.Admits rs) (hfull : L.Full) (k : ℕ) :
    (L.append rs h hfull k).records = L.records ++ rs :=
  (List.append_assoc _ _ _).symm

theorem fsync_disk (L : Layout) :
    L.fsync.disk = Disk.modify L.disk L.last.path File.sync := by
  rw [modify_last, File.sync, L.length_take_size]
  rfl

theorem crash_disk (L : Layout) (keep : Bytes → ℕ) :
    ∃ n h hn, Disk.crash L.disk keep = (L.crash n h hn).disk := by
  refine ⟨min (max L.synced (keep L.last.path)) L.size, le_min (Nat.le_max_left _ _) L.synced_le,
    Nat.min_le_right _ _, ?_⟩
  have hsealed : ∀ s ∈ L.sealed,
      (s.sealedEntry.1, s.sealedEntry.2.crash (keep s.sealedEntry.1)) = s.sealedEntry := by
    intro s _
    have htake : s.sealedEntry.2.bytes.take (max s.bytes.length (keep s.sealedEntry.1)) =
        s.sealedEntry.2.bytes := by
      refine List.take_of_length_le ?_
      rw [SegmentImage.sealedEntry, SegmentImage.entry, List.take_length]
      exact Nat.le_max_left _ _
    exact congrArg (fun b => (s.path, (⟨b, s.bytes.length⟩ : File))) htake
  rw [disk, Disk.crash, List.map_append, List.map_map]
  congr 1
  · exact List.map_congr_left hsealed
  · rw [List.map_singleton, SegmentImage.entry, File.crash, List.take_take]
    rfl

theorem rotate_sealedRecords (L : Layout) {firstLSN : ℕ} (nowMs : UInt64)
    (hname : firstLSN < 10 ^ 16) (hlt : L.last.firstLSN < firstLSN) :
    (L.rotate firstLSN nowMs hname hlt).sealedRecords = L.records := by
  rw [sealedRecords, rotate, List.flatMap_append, List.flatMap_singleton]
  rfl

theorem Full.rotate_disk (h : L.Full) (hsynced : L.synced = L.size) {firstLSN : ℕ}
    (nowMs : UInt64) (hname : firstLSN < 10 ^ 16) (hlt : L.last.firstLSN < firstLSN) :
    (L.rotate firstLSN nowMs hname hlt).disk = Disk.create L.disk (segmentName firstLSN) := by
  have hlast : L.last.entry L.size L.synced = L.last.sealedEntry := by
    rw [hsynced, h]
    rfl
  rw [disk, disk, hlast, rotate, List.map_append]
  rfl

/-! ## Replay -/

/-- A scan of the last file ends without a fault. -/
def Healthy (L : Layout) : Prop :=
  segmentHdrLen ≤ L.size ∧ L.size = (L.last.cut L.size).bytes.length

instance (L : Layout) : Decidable L.Healthy := inferInstanceAs (Decidable (_ ∧ _))

/-- Where the last whole record ends. -/
def goodSize (L : Layout) : ℕ :=
  if segmentHdrLen ≤ L.size then (L.last.cut L.size).bytes.length else 0

theorem Healthy.goodSize_eq (h : L.Healthy) : L.goodSize = L.size :=
  (if_pos h.1).trans h.2.symm

theorem healthy_iff (L : Layout) : healthy (L.last.bytes.take L.size) = true ↔ L.Healthy :=
  healthy_image L.last_fits L.size_le

theorem goodSize_le (L : Layout) : L.goodSize ≤ L.size := by
  unfold goodSize
  split_ifs with h
  · exact SegmentImage.length_bytes_cut_le h L.last
  · exact Nat.zero_le _

/-- The directory after `Replay`: a torn tail is cut off, durably. -/
def replayed (L : Layout) : Layout :=
  L.setLast (L.last.cut L.size) L.goodSize (if L.Healthy then L.synced else L.goodSize) rfl
    (by unfold goodSize; split_ifs <;> simp)
    (by split_ifs with h
        · exact h.goodSize_eq ▸ L.synced_le
        · exact le_rfl)
    (L.last_fits.cut L.size).records
    L.present_order
    fun r hr => L.pos r (List.mem_append_right _ ((L.last.whole_sublist L.size).subset hr))

theorem whole_cut_goodSize (L : Layout) :
    (L.last.cut L.size).whole L.goodSize = L.last.whole L.size := by
  unfold goodSize
  split_ifs with h
  · exact SegmentImage.whole_length _
  · rw [SegmentImage.whole, SegmentImage.whole, if_neg (by decide), if_neg h]

theorem replayed_present (L : Layout) : L.replayed.present = L.present :=
  congrArg (L.sealedRecords ++ ·) L.whole_cut_goodSize

/-- What is durable stays so. -/
theorem durable_replayed (L : Layout) : L.durable <+: L.replayed.durable := by
  refine List.prefix_append_right_inj _ |>.mpr ?_
  show _ <+: (L.last.cut L.size).whole (if L.Healthy then L.synced else L.goodSize)
  split_ifs with h
  · rw [SegmentImage.whole_cut L.synced_le]
  · rw [whole_cut_goodSize]
    exact SegmentImage.whole_mono L.synced_le L.last

theorem replayed_disk (L : Layout) :
    L.replayed.disk = if L.Healthy then L.disk
      else truncateSegment L.disk L.last.path L.goodSize := by
  have hbytes : (L.last.cut L.size).bytes.take L.goodSize = L.last.bytes.take L.goodSize := by
    unfold goodSize
    split_ifs with hle
    · rw [List.take_length]
      exact List.prefix_iff_eq_take.mp (L.last.bytes_cut_prefix L.size)
    · rfl
  show L.sealed.map SegmentImage.sealedEntry ++ [(L.last.path,
    (⟨(L.last.cut L.size).bytes.take L.goodSize, if L.Healthy then L.synced else L.goodSize⟩ :
      File))] = _
  rw [hbytes]
  split_ifs with h
  · rw [h.goodSize_eq]
    rfl
  · rw [truncateSegment, modify_last, File.truncate, List.take_take, Nat.min_eq_left L.goodSize_le,
      File.sync, List.length_take, Nat.min_eq_left (L.goodSize_le.trans L.size_le)]

theorem listSegments_disk (L : Layout) :
    listSegments L.disk =
      L.sealed.map (fun s => s.info s.bytes.length) ++ [L.last.info L.size] := by
  have hsealed : (L.sealed.map SegmentImage.sealedEntry).filterMap segmentInfo =
      L.sealed.map fun s => s.info s.bytes.length := by
    rw [List.filterMap_map]
    refine List.filterMap_eq_map_iff_forall_eq_some.mpr fun s hs => ?_
    exact (SegmentImage.segmentInfo_entry (L.sealed_fits hs) _ _).trans (by rw [List.take_length])
  have hlast : [L.last.entry L.size L.synced].filterMap segmentInfo = [L.last.info L.size] := by
    rw [List.filterMap_cons_some (SegmentImage.segmentInfo_entry L.last_fits _ _),
      L.length_take_size]
    rfl
  rw [listSegments, disk, List.filterMap_append, hsealed, hlast]
  refine List.Pairwise.insertionSort_eq ?_
  have hnames : (L.sealed ++ [L.last]).Pairwise fun a b => a.firstLSN ≤ b.firstLSN :=
    L.names.imp Nat.le_of_lt
  obtain ⟨hs, -, hl⟩ := List.pairwise_append.mp hnames
  refine List.pairwise_append.mpr ⟨List.pairwise_map.mpr hs, List.pairwise_singleton _ _, ?_⟩
  intro a ha b hb
  obtain ⟨s, hs, rfl⟩ := List.mem_map.mp ha
  obtain rfl := List.mem_singleton.mp hb
  exact hl s hs L.last (List.mem_singleton.mpr rfl)

end Layout

section Loop

variable {d : Disk Bytes} {ss : List SegmentImage}

/-- Complete segments are read one after the other. -/
theorem replayLoop_sealed
    (h : ∀ s ∈ ss, s.Fits ∧ (∀ r ∈ s.records, 0 < r.lsn) ∧
      Disk.read d s.path = some ⟨s.bytes, s.bytes.length⟩)
    (later : List SegmentInfo) (res : ReplayResult) (st : List Record) :
    ∃ res' : ReplayResult,
      res'.lastLSN = max res.lastLSN (topLSN (ss.flatMap SegmentImage.records)) ∧
      replayLoop 0 false collect (ss.map (fun s => s.info s.bytes.length) ++ later) d res st =
        replayLoop 0 false collect later d res' (st ++ ss.flatMap SegmentImage.records) := by
  induction ss generalizing res st with
  | nil =>
    refine ⟨res, (Nat.max_eq_left (Nat.zero_le _)).symm, ?_⟩
    rw [List.flatMap_nil, List.append_nil]
    rfl
  | cons s ss ih =>
    obtain ⟨hfits, hpos, hread⟩ := h s List.mem_cons_self
    obtain ⟨scan, hfault, hscan⟩ := scanSegment_full (visitRecord 0 collect) hfits
    obtain ⟨res', hlast, hloop⟩ := ih (fun x hx => h x (List.mem_cons_of_mem s hx))
      { s.records.foldl (ReplayResult.visit 0) res with
        resumePath := some s.path, resumeOffset := scan.lastGoodOffset } (st ++ s.records)
    refine ⟨res', ?_, ?_⟩
    · rw [hlast, foldl_visit_zero_lastLSN, List.flatMap_cons, topLSN_append, Nat.max_assoc]
    · have hvisit := (hscan (res, st)).trans (by rw [foldlM_visitRecord_collect hpos])
      rw [List.flatMap_cons, ← List.append_assoc]
      exact (replayLoop_healthy (s.info s.bytes.length) hread hvisit hfault _).trans hloop

/-- The last segment is read as far as it goes, and cut there. -/
theorem Layout.replayLoop_last (L : Layout) (res : ReplayResult) (st : List Record) :
    ∃ res' : ReplayResult, res'.resumePath = some L.last.path ∧
      res'.resumeOffset = L.replayed.size ∧
      res'.lastLSN = max res.lastLSN (topLSN (L.last.whole L.size)) ∧
      replayLoop 0 false collect [L.last.info L.size] L.disk res st =
        .ok (res', st ++ L.last.whole L.size, L.replayed.disk) := by
  have hpos : ∀ r ∈ L.last.whole L.size, 0 < r.lsn := fun r hr =>
    L.pos r (List.mem_append_right _ ((L.last.whole_sublist L.size).subset hr))
  obtain ⟨scan, hreads, hscan⟩ :=
    scanSegment_image (visitRecord 0 collect) L.last_fits L.size_le
  have hsize : scan.lastGoodOffset = L.goodSize := hreads.offset
  have hlsn := foldl_visit_zero_lastLSN res (L.last.whole L.size)
  have hvisit := (hscan (res, st)).trans (by rw [foldlM_visitRecord_collect hpos])
  by_cases h : L.Healthy
  · rw [replayed_disk, if_pos h]
    refine ⟨_, ?_, ?_, ?_, replayLoop_healthy (L.last.info L.size) L.read_last hvisit
      (hreads.healthy.mpr h) []⟩
    · rfl
    · exact hsize
    · exact hlsn
  · rw [replayed_disk, if_neg h, ← hsize]
    obtain ⟨res', hpath, hoff, hlsn', hloop⟩ := replayLoop_torn (L.last.info L.size)
      L.read_last hvisit (fun hc => h (hreads.healthy.mp hc)) hreads.notCorrupt
    exact ⟨res', hpath, hoff.trans hsize, hlsn'.trans hlsn, hloop⟩

/-- `Replay` of a log directory succeeds, applies what lies wholly in the files, and says
    where to go on. -/
theorem Layout.replay_disk (L : Layout) :
    ∃ res : ReplayResult, res.resumePath = some L.last.path ∧ res.resumeOffset = L.replayed.size ∧
      res.nextLSN = topLSN L.present + 1 ∧
      replay L.disk 0 false collect [] = .ok (res, L.present, L.replayed.disk) := by
  have hsealed : ∀ s ∈ L.sealed, s.Fits ∧ (∀ r ∈ s.records, 0 < r.lsn) ∧
      Disk.read L.disk s.path = some ⟨s.bytes, s.bytes.length⟩ := fun s hs =>
    ⟨L.sealed_fits hs, fun r hr => L.pos r (List.mem_append_left _ (List.mem_flatMap.mpr ⟨s, hs, hr⟩)),
      L.read_sealed hs⟩
  obtain ⟨res, hlsn, hloop⟩ := replayLoop_sealed hsealed [L.last.info L.size]
    ⟨(listSegments L.disk).length, 0, 0, 0, 0, 0, none, 0, false, 0, none, none, false⟩ []
  obtain ⟨res', hpath, hoff, hlsn', hlast⟩ := L.replayLoop_last res ([] ++ L.sealedRecords)
  refine ⟨{ res' with nextLSN := res'.lastLSN + 1 }, hpath, hoff, ?_, ?_⟩
  · show res'.lastLSN + 1 = _
    rw [hlsn', hlsn, present, topLSN_append, Nat.zero_max]
    rfl
  · have hne : listSegments L.disk ≠ [] := by rw [L.listSegments_disk]; simp
    have hmain := hloop.trans hlast
    rw [← L.listSegments_disk] at hmain
    unfold replay
    dsimp only
    rw [if_neg hne, hmain]
    rfl

end Loop

end KvStore
