import KvStore.Wal.DenseLog
import KvStore.Wal.Truncate

/-!
# What is left of a log

`TruncateBelow` takes segments from the front of a log directory. What it leaves is a log directory
again, and the records that are gone lie at or below the LSN it was given.

* `replay_healthy`: `Replay` of healthy segments hands over the records above `minLSN`.
* `Layout.truncateBelow_disk`: `TruncateBelow` on a log directory.
* `Layout.written_disk`, `Layout.begun_disk`: a log directory goes on with a batch, or with a new
  segment.
-/

namespace KvStore

open KvStore.Common

/-! ## Replay -/

section Replay

variable {σ ε : Type} {minLSN : ℕ} {apply : σ → Record → Except ε σ} {d : Disk Bytes}

/-- The records in the file of a segment. -/
def segmentRecords (d : Disk Bytes) (seg : SegmentInfo) : List Record :=
  ((Disk.read d seg.path).map fun f => scannedRecords f.bytes).getD []

theorem replayLoop_ok {segs : List SegmentInfo}
    (h : ∀ seg ∈ segs, ∃ f, Disk.read d seg.path = some f ∧ healthy f.bytes = true)
    (unsafeTruncate : Bool) (res : ReplayResult) {st st' : σ}
    (hok : ((segs.flatMap (segmentRecords d)).filter fun r => minLSN < r.lsn).foldlM apply st =
      .ok st') :
    ∃ res', replayLoop minLSN unsafeTruncate apply segs d res st = .ok (res', st', d) := by
  induction segs generalizing res st with
  | nil =>
    cases hok
    exact ⟨res, rfl⟩
  | cons seg segs ih =>
    obtain ⟨⟨f, hread, hf⟩, hsegs⟩ := List.forall_mem_cons.mp h
    have hrecords : segmentRecords d seg = scannedRecords f.bytes := by rw [segmentRecords, hread]; rfl
    rw [List.flatMap_cons, List.filter_append, List.foldlM_append, hrecords] at hok
    rw [replayLoop_segment hread hf]
    cases hseg : ((scannedRecords f.bytes).filter fun r => minLSN < r.lsn).foldlM apply st with
    | error e =>
      rw [hseg] at hok
      cases hok
    | ok st₁ =>
      rw [hseg] at hok
      exact ih hsegs _ hok

theorem replayLoop_refused {segs : List SegmentInfo}
    (h : ∀ seg ∈ segs, ∃ f, Disk.read d seg.path = some f ∧ healthy f.bytes = true)
    (unsafeTruncate : Bool) (res : ReplayResult) {st : σ} {e : ε}
    (herr : ((segs.flatMap (segmentRecords d)).filter fun r => minLSN < r.lsn).foldlM apply st =
      .error e) :
    ∃ err, replayLoop minLSN unsafeTruncate apply segs d res st = .error err := by
  induction segs generalizing res st with
  | nil => cases herr
  | cons seg segs ih =>
    obtain ⟨⟨f, hread, hf⟩, hsegs⟩ := List.forall_mem_cons.mp h
    have hrecords : segmentRecords d seg = scannedRecords f.bytes := by rw [segmentRecords, hread]; rfl
    rw [List.flatMap_cons, List.filter_append, List.foldlM_append, hrecords] at herr
    rw [replayLoop_segment hread hf]
    cases hseg : ((scannedRecords f.bytes).filter fun r => minLSN < r.lsn).foldlM apply st with
    | error e' => exact ⟨_, rfl⟩
    | ok st₁ =>
      rw [hseg] at herr
      exact ih hsegs _ herr

/-- `Replay` fails when the callback refuses one of the records. -/
theorem replay_refused (h : HealthySegments d) (unsafeTruncate : Bool) {st : σ} {e : ε}
    (herr : (((logSegments d).flatMap Prod.snd).filter fun r => minLSN < r.lsn).foldlM apply st =
      .error e) :
    ∃ err, replay d minLSN unsafeTruncate apply st = .error err := by
  have hrecords : (logSegments d).flatMap Prod.snd = (listSegments d).flatMap (segmentRecords d) := by
    rw [logSegments, List.flatMap_map]
    rfl
  rw [hrecords] at herr
  obtain ⟨err, hloop⟩ := replayLoop_refused h unsafeTruncate
    ⟨(listSegments d).length, 0, 0, 0, minLSN, 0, none, 0, false, 0, none, none, false⟩ herr
  unfold replay
  dsimp only
  split_ifs with hnil
  · rw [hnil] at herr
    cases herr
  · rw [hloop]
    exact ⟨_, rfl⟩

/-- `Replay` of healthy segments applies the records above `minLSN`. -/
theorem replay_healthy (h : HealthySegments d) (unsafeTruncate : Bool) {st st' : σ}
    (hok : (((logSegments d).flatMap Prod.snd).filter fun r => minLSN < r.lsn).foldlM apply st =
      .ok st') :
    ∃ res, replay d minLSN unsafeTruncate apply st = .ok (res, st', d) := by
  have hrecords : (logSegments d).flatMap Prod.snd = (listSegments d).flatMap (segmentRecords d) := by
    rw [logSegments, List.flatMap_map]
    rfl
  rw [hrecords] at hok
  obtain ⟨res, hloop⟩ := replayLoop_ok h unsafeTruncate
    ⟨(listSegments d).length, 0, 0, 0, minLSN, 0, none, 0, false, 0, none, none, false⟩ hok
  unfold replay
  dsimp only
  split_ifs with hnil
  · rw [hnil] at hok
    cases hok
    exact ⟨_, rfl⟩
  · rw [hloop]
    exact ⟨_, rfl⟩

end Replay

/-! ## Without the first segments -/

namespace Layout

variable {L : Layout}

theorem Full.healthySegments (h : L.Full) : HealthySegments L.disk := by
  intro seg hseg
  rw [L.listSegments_disk] at hseg
  rcases List.mem_append.mp hseg with hseg | hseg
  · obtain ⟨s, hs, rfl⟩ := List.mem_map.mp hseg
    have hwhole := healthy_image (L.sealed_fits hs) le_rfl
    rw [List.take_length, SegmentImage.cut, SegmentImage.whole_length] at hwhole
    exact ⟨_, L.read_sealed hs, hwhole.mpr ⟨by rw [SegmentImage.length_bytes]; omega, rfl⟩⟩
  · obtain rfl := List.mem_singleton.mp hseg
    exact ⟨_, L.read_last, L.healthy_iff.mpr h.healthy⟩

/-- The directory without its first `n` sealed segments. -/
def dropFront (L : Layout) (n : ℕ) : Layout where
  sealed := L.sealed.drop n
  last := L.last
  size := L.size
  synced := L.synced
  size_le := L.size_le
  synced_le := L.synced_le
  fits s hs := L.fits s (((List.drop_sublist n _).append_right _).subset hs)
  names := L.names.sublist ((List.drop_sublist n _).append_right _)
  order := L.order.sublist (((List.drop_sublist n _).flatMap _).append_right _)
  pos r hr := L.pos r ((((List.drop_sublist n _).flatMap _).append_right _).subset hr)

theorem records_dropFront (L : Layout) (n : ℕ) :
    L.records = (L.sealed.take n).flatMap SegmentImage.records ++ (L.dropFront n).records := by
  show L.sealed.flatMap SegmentImage.records ++ _ = _ ++
    ((L.sealed.drop n).flatMap SegmentImage.records ++ _)
  rw [← List.append_assoc, ← List.flatMap_append, List.take_append_drop]
  rfl

theorem spaced_dropFront (h : Spaced L.segments) (n : ℕ) : Spaced (L.dropFront n).segments := by
  have hsub : ((L.dropFront n).segments).Sublist L.segments :=
    ((List.drop_sublist n _).map _).append_right _
  exact ⟨fun x hx => h.above x (hsub.subset hx), h.below.sublist hsub⟩

/-- Deleting the files of the first segments. -/
theorem removeSegments_disk (L : Layout) (n : ℕ) :
    removeSegments ((L.sealed.take n).map fun s => s.info s.bytes.length) L.disk =
      (L.dropFront n).disk := by
  have hpaths : ((L.sealed.take n).map fun s => s.info s.bytes.length).map SegmentInfo.path =
      ((L.sealed.take n).map SegmentImage.sealedEntry).map Prod.fst := by
    rw [List.map_map, List.map_map]
    rfl
  have hsplit : L.disk =
      (L.sealed.take n).map SegmentImage.sealedEntry ++ (L.dropFront n).disk := by
    show _ = _ ++ ((L.sealed.drop n).map SegmentImage.sealedEntry ++ _)
    rw [← List.append_assoc, ← List.map_append, List.take_append_drop]
    rfl
  have hnodup := L.nodup_names
  rw [hsplit, List.map_append] at hnodup
  rw [removeSegments_eq, hpaths, hsplit, List.filter_append, List.filter_eq_nil_iff.mpr,
    List.filter_eq_self.mpr, List.nil_append]
  · intro x hx
    have hne : x.1 ∉ ((L.sealed.take n).map SegmentImage.sealedEntry).map Prod.fst := fun hmem =>
      List.disjoint_of_nodup_append hnodup hmem (List.mem_map_of_mem hx)
    simpa using hne
  · intro x hx
    simpa using List.mem_map_of_mem (f := Prod.fst) hx

/-- `TruncateBelow` leaves a log directory. What it has deleted lies at or below the LSN. -/
theorem truncateBelow_disk (h : Spaced L.segments) (lsn : UInt64) :
    ∃ n, (Wal.truncateBelow L.disk lsn).1 = (L.dropFront n).disk ∧
      ∀ r ∈ (L.sealed.take n).flatMap SegmentImage.records, r.lsn ≤ lsn.toNat := by
  rw [← L.logSegments_disk] at h
  have hbelow : (listSegments L.disk).Pairwise fun a b =>
      ∀ r ∈ segmentRecords L.disk a, r.lsn < b.firstLSN :=
    (List.pairwise_map.mp h.below).imp And.right
  obtain ⟨pre, post, hlist, hpost, hd, hle⟩ := truncateLoop_spec lsn L.disk 0 hbelow
  have hinfos := L.listSegments_disk
  rw [hlist] at hinfos
  -- the last segment is not among those deleted
  have hlen : pre.length ≤ L.sealed.length := by
    have hlens := congrArg List.length hinfos
    have hne := List.length_pos_of_ne_nil (hpost (by rw [hlist, hinfos]; simp))
    simp only [List.length_append, List.length_map, List.length_singleton] at hlens
    omega
  have hpre : pre = (L.sealed.take pre.length).map fun s => s.info s.bytes.length := by
    have htake := congrArg (List.take pre.length) hinfos
    rwa [List.take_left' rfl, List.take_append_of_le_length (by rwa [List.length_map]),
      ← List.map_take] at htake
  refine ⟨pre.length, ?_, fun r hr => ?_⟩
  · rw [← removeSegments_disk, ← hpre]
    exact hd
  · obtain ⟨s, hs, hr⟩ := List.mem_flatMap.mp hr
    have hmem := List.mem_of_mem_take hs
    refine hle (s.info s.bytes.length) (by rw [hpre]; exact List.mem_map_of_mem hs) r ?_
    have hscan := scannedRecords_image (L.sealed_fits hmem) le_rfl
    rw [List.take_length, SegmentImage.whole_length] at hscan
    rw [segmentRecords, SegmentImage.info, L.read_sealed hmem]
    show r ∈ scannedRecords s.bytes
    rwa [hscan]

end Layout

/-! ## Further records and segments -/

namespace Wal

/-- Write at the end of a file, and fsync it. -/
def appendFile (d : Disk Bytes) (path data : Bytes) : Disk Bytes :=
  Disk.modify (Disk.modify d path fun f => f.writeAt f.bytes.length data) path File.sync

/-- `createSegment` (segment.go lines 101–121). -/
def createSegment (d : Disk Bytes) (firstLSN : ℕ) (nowMs : UInt64) : Disk Bytes :=
  appendFile (Disk.create d (segmentName firstLSN)) (segmentName firstLSN)
    (appendRecord (newSegmentHeader firstLSN nowMs))

end Wal

namespace Layout

variable {L : Layout} {rs : List Record}

/-- Every byte that was written is durable, and nothing is missing. -/
structure Durable (L : Layout) : Prop where
  full : L.Full
  synced : L.synced = L.size

theorem Full.segments_eq (h : L.Full) : L.segments =
    L.sealed.map (fun x => (x.firstLSN, x.records)) ++ [(L.last.firstLSN, L.last.records)] := by
  rw [Layout.segments, h, SegmentImage.whole_length]

theorem appendFile_disk (L : Layout) (data : Bytes) :
    Wal.appendFile L.disk L.last.path data =
      Disk.modify (Disk.modify L.disk L.last.path fun f => f.writeAt L.size data) L.last.path
        File.sync := by
  rw [Wal.appendFile, modify_last, modify_last, L.length_take_size]

/-- The log goes on with `rs`. -/
def written (L : Layout) (rs : List Record) (h : L.Admits rs) (hfull : L.Full) : Layout :=
  (L.append rs h hfull (encodeRecords rs).length).fsync

theorem written_disk (h : L.Admits rs) (hfull : L.Full) :
    (L.written rs h hfull).disk = Wal.appendFile L.disk L.last.path (encodeRecords rs) := by
  rw [written, fsync_disk, append_disk, List.take_length, appendFile_disk]
  rfl

theorem written_durable (h : L.Admits rs) (hfull : L.Full) : (L.written rs h hfull).Durable :=
  ⟨L.append_full h hfull, rfl⟩

theorem written_records (h : L.Admits rs) (hfull : L.Full) :
    (L.written rs h hfull).records = L.records ++ rs := L.append_records h hfull (encodeRecords rs).length

theorem written_spaced (h : L.Admits rs) (hfull : L.Full) (hspaced : Spaced L.segments)
    (hrs : ∀ r ∈ rs, L.last.firstLSN ≤ r.lsn) : Spaced (L.written rs h hfull).segments := by
  rw [hfull.segments_eq] at hspaced
  rw [(written_durable h hfull).full.segments_eq]
  exact hspaced.append_records hrs

/-- The header of a new segment is written. -/
def begun (L : Layout) : Layout := (L.grow L.last.bytes.length L.size_le le_rfl).fsync

theorem begun_disk (hsize : L.size = 0) (hrecords : L.last.records = []) :
    L.begun.disk = Wal.appendFile L.disk L.last.path (appendRecord L.last.header) := by
  have hbytes : L.last.bytes = appendRecord L.last.header := by
    rw [SegmentImage.bytes, hrecords, encodeRecords_nil, List.append_nil]
  have hgrow := L.grow_disk L.last.bytes.length L.size_le le_rfl
  rw [hsize, List.drop_zero, Nat.sub_zero, List.take_length] at hgrow
  rw [begun, fsync_disk, appendFile_disk, hsize, ← hbytes]
  exact congrArg (Disk.modify · L.last.path File.sync) hgrow

theorem begun_durable (L : Layout) : L.begun.Durable := ⟨rfl, rfl⟩

/-- The log goes on in a new segment. -/
theorem rotate_begun_disk (h : L.Durable) {firstLSN : ℕ} (nowMs : UInt64)
    (hname : firstLSN < 10 ^ 16) (hlt : L.last.firstLSN < firstLSN) :
    (L.rotate firstLSN nowMs hname hlt).begun.disk = Wal.createSegment L.disk firstLSN nowMs := by
  rw [begun_disk rfl rfl, h.full.rotate_disk h.synced]
  rfl

theorem rotate_begun_records (L : Layout) {firstLSN : ℕ} (nowMs : UInt64)
    (hname : firstLSN < 10 ^ 16) (hlt : L.last.firstLSN < firstLSN) :
    (L.rotate firstLSN nowMs hname hlt).begun.records = L.records := by
  show (L.rotate firstLSN nowMs hname hlt).sealedRecords ++ [] = _
  rw [rotate_sealedRecords, List.append_nil]

theorem rotate_begun_spaced (h : L.Full) (hspaced : Spaced L.segments) {firstLSN : ℕ}
    (nowMs : UInt64) (hname : firstLSN < 10 ^ 16) (hlt : L.last.firstLSN < firstLSN)
    (hrecords : ∀ r ∈ L.records, r.lsn < firstLSN) :
    Spaced (L.rotate firstLSN nowMs hname hlt).begun.segments := by
  rw [(begun_durable _).full.segments_eq]
  show Spaced ((L.sealed ++ [L.last]).map _ ++ [(firstLSN, [])])
  rw [List.map_append]
  rw [h.segments_eq] at hspaced
  refine hspaced.append_segment fun x hx => ?_
  rcases List.mem_append.mp hx with hx | hx
  · obtain ⟨s, hs, rfl⟩ := List.mem_map.mp hx
    exact ⟨(L.lt_last hs).trans hlt, fun r hr =>
      hrecords r (List.mem_append_left _ (List.mem_flatMap.mpr ⟨s, hs, hr⟩))⟩
  · obtain rfl := List.mem_singleton.mp hx
    exact ⟨hlt, fun r hr => hrecords r (List.mem_append_right _ hr)⟩

end Layout

end KvStore
