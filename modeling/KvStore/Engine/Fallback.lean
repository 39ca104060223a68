import KvStore.Engine.DataDir

/-!
# Falling back to an older snapshot

An engine with its data directory. `Snapshot` (`internal/engine/commands.go` lines 324–379) commits
a file at the durable LSN, deletes the segments below it, and keeps two snapshots. When the newer
one does not pass validation, `recover` takes the older one and the segments that are left.

Every snapshot that is kept, with the records of the whole log above its LSN, describes what the
log describes (`SnapImage.Covers`). What `TruncateBelow` deletes lies below the newer snapshot; it
need not lie below the older one.

* `fallback_recovers`: runs in which `TruncateBelow` deletes no segment that the older snapshot
  still needs.
* `fallback_loses_write`: a run in which it does.
-/

namespace KvStore

open KvStore.Common

/-! ## The system -/

/-- The engine, the LSN up to which its log is durable, the first LSN of the segment in hand, and
    the two directories. -/
structure DataDir where
  engine : Engine
  durableLSN : ℕ
  segFirst : ℕ
  wal : Disk Bytes
  snaps : Disk Bytes

/-- A step of the engine, a batch written by the log, a rotation, and a call of `Snapshot`. -/
inductive DirAction
  | engine (a : EngineAction)
  | flush
  | rotate (nowMs : UInt64)
  | snapshot (nowMs nowMs' : UInt64)

namespace DataDir

/-- The records that are submitted and not written yet. -/
def queued (d : DataDir) : List Record :=
  d.engine.log.records.filter fun r => d.durableLSN < r.lsn

/-- What `DurableLSN` returns. -/
def lsn (d : DataDir) : UInt64 := UInt64.ofNat d.durableLSN

/-- One step. A segment is not left before a record was written to it; `Range` waits for the
    mutations in flight. -/
def step (d : DataDir) : DirAction → Option DataDir
  | .engine a => (d.engine.step a).map fun e => { d with engine := e }
  | .flush =>
    some { d with
      wal := Wal.appendFile d.wal (segmentName d.segFirst) (encodeRecords d.queued)
      durableLSN := d.engine.log.nextLSN - 1 }
  | .rotate nowMs =>
    if d.segFirst ≤ d.durableLSN then
      some { d with
        wal := Wal.createSegment d.wal (d.durableLSN + 1) nowMs
        segFirst := d.durableLSN + 1 }
    else none
  | .snapshot nowMs nowMs' =>
    if ∀ i < d.engine.store.shardCount, d.engine.inflight i = none then
      match d.engine.snapshot d.lsn nowMs nowMs' with
      | .error _ => some d
      | .ok (path, bytes) =>
        some { d with
          wal := (Wal.truncateBelow d.wal d.lsn).1
          snaps := (Snapshot.prune (Snapshot.rename d.snaps path bytes) 2).1 }
    else none

end DataDir

/-- An engine that has opened an empty data directory. -/
def newDataDir (o : Options) (newSeed nowMs : UInt64) : DataDir where
  engine := newEngine o newSeed
  durableLSN := 0
  segFirst := 1
  wal := Wal.createSegment [] 1 nowMs
  snaps := []

/-- At the durable LSN, `TruncateBelow` deletes what it would delete at the LSN of the snapshot
    that `Prune` will keep beside the new one. -/
def DataDir.SparesOlder (d : DataDir) : Prop :=
  ∀ x ∈ (Snapshot.list d.snaps).find? fun x => x.lastIncludedLSN ≠ d.durableLSN,
    (Wal.truncateBelow d.wal d.lsn).1 =
      (Wal.truncateBelow d.wal (UInt64.ofNat x.lastIncludedLSN)).1

/-- The condition on a step, for a recovery at `T`: the LSNs have at most sixteen digits, the
    engine's own steps are timely, and a snapshot is taken before `T` and spares the segments of
    the older one. -/
def DirAction.Spares (T : UInt64) (d : DataDir) (a : DirAction) : Prop :=
  d.engine.log.nextLSN < 10 ^ 16 ∧
    match a with
    | .engine a => a.Timely T d.engine
    | .snapshot _ nowMs' => nowMs' ≤ T ∧ d.SparesOlder
    | _ => True

/-! ## Snapshots and the log -/

/-- What a snapshot file is meant to hold. -/
structure SnapImage where
  lsn : UInt64
  createdAtMs : UInt64
  entries : List SnapEntry

namespace SnapImage

variable {x : SnapImage} {T : UInt64} {rs : List Record}

/-- The file, by its LSN. -/
def file (x : SnapImage) : UInt64 × File :=
  (x.lsn, ⟨Snapshot.fileBytes x.lsn x.createdAtMs x.entries,
    (Snapshot.fileBytes x.lsn x.createdAtMs x.entries).length⟩)

/-- The keyspace of the entries. -/
def loaded (x : SnapImage) : Keyspace Bytes Bytes :=
  x.entries.foldl (fun m e => e.apply m) fun _ => none

/-- With the records above its LSN, the snapshot describes what all records describe. -/
def Covers (T : UInt64) (x : SnapImage) (rs : List Record) : Prop :=
  ∀ k, liveAt T ((rs.filter fun r => x.lsn.toNat < r.lsn).foldl
      (applyWith (Record.effectAt T)) x.loaded k) =
    liveAt T (foldWith (Record.effectAt T) rs k)

theorem Covers.append (h : x.Covers T rs) {r : Record} (hr : x.lsn.toNat < r.lsn) :
    x.Covers T (rs ++ [r]) := by
  intro k
  rw [List.filter_append, List.filter_cons_of_pos (by simpa using hr), List.filter_nil,
    List.foldl_append, foldWith, List.foldl_append]
  exact foldl_effectAt_live [r] (h k)

end SnapImage

/-- Records in the order of their LSNs, cut at `n`. -/
theorem filter_le_append_filter_lt {rs : List Record} (h : rs.Pairwise fun a b => a.lsn < b.lsn)
    (n : ℕ) : (rs.filter fun r => r.lsn ≤ n) ++ (rs.filter fun r => n < r.lsn) = rs := by
  induction rs with
  | nil => rfl
  | cons r rs ih =>
    obtain ⟨hr, hrs⟩ := List.pairwise_cons.mp h
    by_cases hn : r.lsn ≤ n
    · rw [List.filter_cons_of_pos (by simpa using hn), List.filter_cons_of_neg (by simpa using hn),
        List.cons_append, ih hrs]
    · have hlater : ∀ x ∈ rs, ¬ x.lsn ≤ n := fun x hx hle => hn (by have := hr x hx; omega)
      rw [List.filter_eq_nil_iff.mpr (by simpa [Nat.not_le.mp hn] using hlater), List.nil_append,
        List.filter_eq_self.mpr]
      simpa [Nat.not_le.mp hn] using hlater

/-! ## The invariant -/

/-- The files of the data directory: the records that were written are those of the deleted
    segments, `gone`, and those of the log directory `L`; the snapshots are `imgs`. -/
structure DataDir.Holds (T : UInt64) (d : DataDir) (gone : List Record) (L : Layout)
    (imgs : List SnapImage) : Prop where
  late : d.engine.Late T
  inRange : ∀ k, d.engine.store.shardFor k < d.engine.store.shardCount
  submittable : ∀ r ∈ d.engine.log.records, r.Submittable
  sorted : d.engine.log.records.Pairwise fun a b => a.lsn < b.lsn
  below : ∀ r ∈ d.engine.log.records, r.lsn < d.engine.log.nextLSN
  durable : d.durableLSN < d.engine.log.nextLSN
  wal : d.wal = L.disk
  files : L.Durable
  spaced : Spaced L.segments
  first : L.last.firstLSN = d.segFirst ∧ d.segFirst ≤ d.durableLSN + 1
  written : (d.engine.log.records.filter fun r => r.lsn ≤ d.durableLSN) = gone ++ L.records
  snaps : d.snaps = Snapshot.shelf (imgs.map SnapImage.file)
  shelved : Snapshot.Shelved (imgs.map SnapImage.file)
  two : imgs.length ≤ 2
  fits : ∀ x ∈ imgs, ∀ e ∈ x.entries, Snapshot.Fits e
  lsn_le : ∀ x ∈ imgs, x.lsn.toNat ≤ d.durableLSN
  covers : ∀ x ∈ imgs, x.Covers T d.engine.log.records
  kept : ∀ x ∈ imgs, ∀ r ∈ gone, r.lsn ≤ x.lsn.toNat

namespace DataDir.Holds

variable {T : UInt64} {d d' : DataDir} {gone : List Record} {L : Layout} {imgs : List SnapImage}

/-- A step of the engine. -/
theorem engineStep (h : d.Holds T gone L imgs) {a : EngineAction} (ha : a.Timely T d.engine)
    {e : Engine} (hstep : d.engine.step a = some e) :
    { d with engine := e }.Holds T gone L imgs := by
  obtain ⟨hcount, hroute⟩ := Engine.step_routes hstep
  have hlate := Engine.step_late h.late ha hstep
  have hrange : ∀ k, e.store.shardFor k < e.store.shardCount := by
    rw [hcount, hroute]
    exact h.inRange
  rcases Engine.step_log hstep with hlog | ⟨r, hsub, hlsn, hlog⟩
  · refine ⟨hlate, hrange, ?_, ?_, ?_, ?_, h.wal, h.files, h.spaced, h.first, ?_, h.snaps,
      h.shelved, h.two, h.fits, h.lsn_le, ?_, h.kept⟩
    all_goals dsimp only; rw [hlog]
    · exact h.submittable
    · exact h.sorted
    · exact h.below
    · exact h.durable
    · exact h.written
    · exact h.covers
  · have hdurable := h.durable
    refine ⟨hlate, hrange, ?_, ?_, ?_, ?_, h.wal, h.files, h.spaced, h.first, ?_, h.snaps,
      h.shelved, h.two, h.fits, h.lsn_le, ?_, h.kept⟩
    all_goals dsimp only; rw [hlog]; dsimp only
    · intro x hx
      rcases List.mem_append.mp hx with hx | hx
      · exact h.submittable x hx
      · exact List.mem_singleton.mp hx ▸ hsub
    · refine List.pairwise_append.mpr ⟨h.sorted, List.pairwise_singleton _ _, fun x hx y hy => ?_⟩
      rw [List.mem_singleton.mp hy, hlsn]
      exact h.below x hx
    · intro x hx
      rcases List.mem_append.mp hx with hx | hx
      · exact Nat.lt_succ_of_lt (h.below x hx)
      · rw [List.mem_singleton.mp hx, hlsn]
        exact Nat.lt_succ_self _
    · omega
    · rw [List.filter_append, h.written, List.filter_cons_of_neg (by simp; omega),
        List.filter_nil, List.append_nil]
    · exact fun x hx => (h.covers x hx).append (by have := h.lsn_le x hx; omega)

theorem records_eq (h : d.Holds T gone L imgs) :
    d.engine.log.records = gone ++ L.records ++ d.queued := by
  rw [← h.written, DataDir.queued, filter_le_append_filter_lt h.sorted]

theorem mem_records (h : d.Holds T gone L imgs) {r : Record} (hr : r ∈ gone ++ L.records) :
    r ∈ d.engine.log.records ∧ r.lsn ≤ d.durableLSN := by
  rw [← h.written] at hr
  simpa using List.mem_filter.mp hr

/-- What is queued can be written behind the last record. -/
theorem admits (h : d.Holds T gone L imgs) (hlsn : d.engine.log.nextLSN < 10 ^ 16) :
    L.Admits d.queued := by
  have hsub : ∀ r ∈ d.queued, r ∈ d.engine.log.records := fun r hr => List.mem_of_mem_filter hr
  refine ⟨fun r hr => ?_, ?_, fun r hr => h.late.lsn.2 r (hsub r hr)⟩
  · obtain ⟨hkey, hvalue, -⟩ := h.submittable r (hsub r hr)
    have hlt := h.below r (hsub r hr)
    exact ⟨by omega, hkey, hvalue⟩
  · have hsorted := h.sorted
    rw [h.records_eq, List.append_assoc] at hsorted
    exact (List.pairwise_append.mp hsorted).2.1

/-- A batch is written. -/
theorem flush (h : d.Holds T gone L imgs) (hlsn : d.engine.log.nextLSN < 10 ^ 16)
    (hstep : d.step .flush = some d') : ∃ L', d'.Holds T gone L' imgs := by
  cases hstep
  have hadmits := h.admits hlsn
  have hdurable := h.durable
  have hpos := h.late.lsn.1
  refine ⟨L.written d.queued hadmits h.files.full, h.late, h.inRange, h.submittable, h.sorted,
    h.below, ?_, ?_, Layout.written_durable hadmits _, ?_, ⟨h.first.1, ?_⟩, ?_, h.snaps, h.shelved,
    h.two, h.fits, fun x hx => ?_, h.covers, h.kept⟩
  · exact Nat.sub_lt hpos Nat.one_pos
  · rw [Layout.written_disk, h.wal, SegmentImage.path, h.first.1]
  · refine Layout.written_spaced hadmits h.files.full h.spaced fun r hr => ?_
    have hr := List.mem_filter.mp hr
    have hfirst := h.first
    have hlt : d.durableLSN < r.lsn := by simpa using hr.2
    omega
  · have hfirst := h.first.2
    dsimp only
    omega
  · have hall : ∀ r ∈ d.engine.log.records, r.lsn ≤ d.engine.log.nextLSN - 1 := by
      intro r hr
      have := h.below r hr
      omega
    rw [List.filter_eq_self.mpr (by simpa using hall), Layout.written_records, ← List.append_assoc]
    exact h.records_eq
  · have hle := h.lsn_le x hx
    dsimp only
    omega

/-- A new segment is begun. -/
theorem rotate (h : d.Holds T gone L imgs) (hlsn : d.engine.log.nextLSN < 10 ^ 16)
    {nowMs : UInt64} (hstep : d.step (.rotate nowMs) = some d') :
    ∃ L', d'.Holds T gone L' imgs := by
  rw [DataDir.step] at hstep
  split_ifs at hstep with hfirst
  cases hstep
  have hdurable := h.durable
  have hname : d.durableLSN + 1 < 10 ^ 16 := by omega
  have hlt : L.last.firstLSN < d.durableLSN + 1 := by
    have := h.first.1
    omega
  refine ⟨(L.rotate (d.durableLSN + 1) nowMs hname hlt).begun, h.late, h.inRange, h.submittable,
    h.sorted, h.below, h.durable, ?_, Layout.begun_durable _, ?_, ⟨rfl, le_rfl⟩, ?_, h.snaps,
    h.shelved, h.two, h.fits, h.lsn_le, h.covers, h.kept⟩
  · rw [Layout.rotate_begun_disk h.files, h.wal]
  · refine Layout.rotate_begun_spaced h.files.full h.spaced nowMs hname hlt fun r hr => ?_
    exact Nat.lt_succ_of_le (h.mem_records (List.mem_append_right _ hr)).2
  · rw [Layout.rotate_begun_records]
    exact h.written

theorem plain (h : d.Holds T gone L imgs) : d.engine.store.Plain where
  index i := (h.late.shard i).toIndexInv
  unlimited := h.late.unlimited
  routed i k hk := (h.late.routed i k hk).1
  inRange := h.inRange

/-- What `Range` hands out while nothing is in flight covers the log, whatever part of it is
    replayed again. -/
theorem covers_range (h : d.Holds T gone L imgs)
    (hidle : ∀ i < d.engine.store.shardCount, d.engine.inflight i = none) {nowMs : UInt64}
    (hnow : nowMs ≤ T) {x : SnapImage} (hx : x.entries = d.engine.store.range nowMs) :
    x.Covers T d.engine.log.records := by
  intro k
  have hloaded : x.loaded k = liveAt nowMs (d.engine.store.contents k) := by
    rw [SnapImage.loaded, hx]
    refine foldl_load (fun e he hk => ?_) (fun hsome => ?_) rfl
    · rw [← hk]
      exact (h.plain.mem_range nowMs e).mp he
    · obtain ⟨d', hd'⟩ := Option.isSome_iff_exists.mp hsome
      exact ⟨⟨k, d'.1, d'.2⟩, (h.plain.mem_range nowMs _).mpr hd', rfl⟩
  have hlogged : liveAt T (foldWith (Record.effectAt T) d.engine.log.records k) =
      liveAt T (d.engine.store.contents k) := by
    have hfollows := (h.late.follows k).2
    rw [Engine.logged, hidle _ (h.inRange k)] at hfollows
    exact hfollows
  have hsplit := filter_le_append_filter_lt h.sorted x.lsn.toNat
  rw [← hsplit, foldWith, List.foldl_append, hsplit]
  refine foldl_effectAt_again ?_
  rw [hloaded, liveAt_liveAt hnow, ← hlogged, foldWith]
  conv_lhs => rw [← hsplit, List.foldl_append]

theorem toNat_lsn (h : d.durableLSN < 10 ^ 16) : d.lsn.toNat = d.durableLSN :=
  UInt64.toNat_ofNat_of_lt' (h.trans (by norm_num))

/-- The images after `Commit` and `Prune`: the new one, and the newest one at another LSN. -/
theorem prune_rename (h : d.Holds T gone L imgs) (hsmall : d.durableLSN < 10 ^ 16) {x : SnapImage}
    (hx : x.lsn = d.lsn) :
    ∃ older : List SnapImage, older.length ≤ 1 ∧
      (∀ y ∈ older, y ∈ imgs ∧ y.lsn ≠ d.lsn ∧
        ((Snapshot.list d.snaps).find? fun i => i.lastIncludedLSN ≠ d.durableLSN) =
          some (Snapshot.fileInfo y.file)) ∧
      (Snapshot.prune (Snapshot.rename d.snaps (Snapshot.name d.lsn) x.file.2.bytes) 2).1 =
        Snapshot.shelf ((older ++ [x]).map SnapImage.file) ∧
      Snapshot.Shelved ((older ++ [x]).map SnapImage.file) := by
  have hlsn := toNat_lsn hsmall
  obtain ⟨kept, hkept⟩ : ∃ kept, (imgs.filter fun y => y.lsn ≠ d.lsn) = kept := ⟨_, rfl⟩
  have hmem : ∀ y ∈ kept, y ∈ imgs ∧ y.lsn ≠ d.lsn := fun y hy => by
    rw [← hkept] at hy
    simpa using List.mem_filter.mp hy
  have hrename : Snapshot.rename d.snaps (Snapshot.name d.lsn) x.file.2.bytes =
      Snapshot.shelf ((kept ++ [x]).map SnapImage.file) := by
    rw [h.snaps, Snapshot.rename_shelf h.shelved (by rwa [hlsn]), List.filter_map, List.map_append,
      ← hkept, ← hx]
    rfl
  have hshelved : Snapshot.Shelved ((kept ++ [x]).map SnapImage.file) := by
    have hold : Snapshot.Shelved (kept.map SnapImage.file) :=
      h.shelved.sublist ((hkept ▸ List.filter_sublist).map _)
    rw [List.map_append]
    refine ⟨List.pairwise_append.mpr ⟨hold.sorted, List.pairwise_singleton _ _, ?_⟩, ?_⟩
    · intro p hp q hq
      obtain ⟨y, hy, rfl⟩ := List.mem_map.mp hp
      rw [List.mem_singleton.mp hq]
      show y.lsn < x.lsn
      have hle := h.lsn_le y (hmem y hy).1
      have hne : y.lsn.toNat ≠ d.lsn.toNat := fun hc => (hmem y hy).2 (UInt64.toNat_inj.mp hc)
      rw [hx, UInt64.lt_iff_toNat_lt]
      omega
    · intro p hp
      rcases List.mem_append.mp hp with hp | hp
      · exact hold.short p hp
      · rw [List.mem_singleton.mp hp]
        show x.lsn.toNat < _
        rwa [hx, hlsn]
  have hfind : ((Snapshot.list d.snaps).find? fun i => i.lastIncludedLSN ≠ d.durableLSN) =
      kept.getLast?.map fun y => Snapshot.fileInfo y.file := by
    have hpred : ∀ y : SnapImage, decide ((Snapshot.fileInfo y.file).lastIncludedLSN ≠ d.durableLSN) =
        decide (y.lsn ≠ d.lsn) := by
      intro y
      show decide (y.lsn.toNat ≠ d.durableLSN) = _
      rw [← hlsn, decide_eq_decide, ne_eq, ne_eq, UInt64.toNat_inj]
    rw [h.snaps, Snapshot.list_shelf h.shelved, ← List.map_reverse, List.map_map, List.find?_map,
      ← List.head?_filter, List.filter_reverse, List.head?_reverse, ← hkept]
    congr 2
    exact List.filter_congr fun y _ => hpred y
  rw [hrename, Snapshot.prune_shelf hshelved (by decide)]
  rcases List.eq_nil_or_concat' kept with rfl | ⟨ys, y, rfl⟩
  · exact ⟨[], by simp, nofun, rfl, hshelved⟩
  · refine ⟨[y], le_rfl, fun z hz => ?_, ?_, ?_⟩
    · obtain rfl := List.mem_singleton.mp hz
      refine ⟨(hmem z (by simp)).1, (hmem z (by simp)).2, ?_⟩
      rw [hfind]
      simp
    · rw [List.append_assoc, List.map_append]
      exact congrArg Snapshot.shelf (List.drop_left' (by simp))
    · rw [List.append_assoc, List.map_append] at hshelved
      exact hshelved.sublist (List.sublist_append_right _ _)

/-- What `TruncateBelow` deletes lies below the snapshots that are kept. -/
theorem truncate (h : d.Holds T gone L imgs) (hspares : d.SparesOlder) {older : List SnapImage}
    (holder : ∀ y ∈ older,
      ((Snapshot.list d.snaps).find? fun i => i.lastIncludedLSN ≠ d.durableLSN) =
        some (Snapshot.fileInfo y.file)) :
    ∃ n, (Wal.truncateBelow d.wal d.lsn).1 = (L.dropFront n).disk ∧
      ∀ r ∈ (L.sealed.take n).flatMap SegmentImage.records, ∀ y ∈ older,
        r.lsn ≤ y.lsn.toNat := by
  rw [h.wal]
  cases older with
  | nil =>
    obtain ⟨n, hdisk, -⟩ := Layout.truncateBelow_disk h.spaced d.lsn
    exact ⟨n, hdisk, fun _ _ => nofun⟩
  | cons y older =>
    obtain ⟨n, hdisk, hle⟩ := Layout.truncateBelow_disk h.spaced y.lsn
    have hsame := hspares _ (holder y List.mem_cons_self)
    rw [h.wal, Snapshot.fileInfo, UInt64.ofNat_toNat] at hsame
    refine ⟨n, hsame.trans hdisk, fun r hr z hz => ?_⟩
    -- all of them are the snapshot that `find?` returns
    have heq : Snapshot.fileInfo z.file = Snapshot.fileInfo y.file :=
      Option.some.inj ((holder z hz).symm.trans (holder y List.mem_cons_self))
    have hlsn : z.lsn.toNat = y.lsn.toNat := congrArg Snapshot.Info.lastIncludedLSN heq
    rw [hlsn]
    exact hle r hr

/-- A snapshot is taken. -/
theorem snapshot (h : d.Holds T gone L imgs) (hlsn : d.engine.log.nextLSN < 10 ^ 16)
    {nowMs nowMs' : UInt64} (hnow : nowMs' ≤ T) (hspares : d.SparesOlder)
    (hstep : d.step (.snapshot nowMs nowMs') = some d') :
    ∃ gone' L' imgs', d'.Holds T gone' L' imgs' := by
  have hsmall : d.durableLSN < 10 ^ 16 := h.durable.trans hlsn
  rw [DataDir.step] at hstep
  split_ifs at hstep with hidle
  cases hsnap : d.engine.snapshot d.lsn nowMs nowMs' with
  | error err =>
    rw [hsnap] at hstep
    cases hstep
    exact ⟨gone, L, imgs, h⟩
  | ok p =>
    have hfits := Snapshot.fits_of_writeSnapshot hsnap
    rw [Engine.snapshot, Snapshot.writeSnapshot_eq hfits] at hsnap
    rw [Engine.snapshot, Snapshot.writeSnapshot_eq hfits] at hstep
    obtain ⟨older, hlen, holder, hprune, hshelved⟩ := h.prune_rename hsmall
      (x := ⟨d.lsn, nowMs, d.engine.store.range nowMs'⟩) rfl
    obtain ⟨n, hwal, hremoved⟩ := h.truncate hspares fun y hy => (holder y hy).2.2
    have hmem : ∀ r ∈ (L.sealed.take n).flatMap SegmentImage.records, r.lsn ≤ d.durableLSN := by
      intro r hr
      refine (h.mem_records (List.mem_append_right gone ?_)).2
      rw [L.records_dropFront n]
      exact List.mem_append_left _ hr
    cases hstep
    refine ⟨gone ++ (L.sealed.take n).flatMap SegmentImage.records, L.dropFront n,
      older ++ [(⟨d.lsn, nowMs, d.engine.store.range nowMs'⟩ : SnapImage)], h.late, h.inRange,
      h.submittable, h.sorted, h.below, h.durable, hwal, ⟨h.files.full, h.files.synced⟩,
      Layout.spaced_dropFront h.spaced n, h.first, ?_, hprune, hshelved, by simpa using hlen,
      ?_, ?_, ?_, ?_⟩
    · rw [List.append_assoc, ← L.records_dropFront]
      exact h.written
    all_goals
      intro x hx
      rcases List.mem_append.mp hx with hx | hx
    · exact h.fits x (holder x hx).1
    · obtain rfl := List.mem_singleton.mp hx
      exact hfits
    · exact h.lsn_le x (holder x hx).1
    · obtain rfl := List.mem_singleton.mp hx
      exact (toNat_lsn hsmall).le
    · exact h.covers x (holder x hx).1
    · obtain rfl := List.mem_singleton.mp hx
      exact h.covers_range hidle hnow rfl
    · intro r hr
      rcases List.mem_append.mp hr with hr | hr
      · exact h.kept x (holder x hx).1 r hr
      · exact hremoved r hr x hx
    · obtain rfl := List.mem_singleton.mp hx
      intro r hr
      dsimp only
      rw [toNat_lsn hsmall]
      rcases List.mem_append.mp hr with hr | hr
      · exact (h.mem_records (List.mem_append_left _ hr)).2
      · exact hmem r hr

/-- One step. -/
theorem step (h : d.Holds T gone L imgs) {a : DirAction} (ha : a.Spares T d)
    (hstep : d.step a = some d') : ∃ gone' L' imgs', d'.Holds T gone' L' imgs' := by
  obtain ⟨hlsn, ha⟩ := ha
  cases a with
  | engine a =>
    obtain ⟨e, he, rfl⟩ := Option.map_eq_some_iff.mp hstep
    exact ⟨gone, L, imgs, h.engineStep ha he⟩
  | flush =>
    obtain ⟨L', h'⟩ := h.flush hlsn hstep
    exact ⟨gone, L', imgs, h'⟩
  | rotate nowMs =>
    obtain ⟨L', h'⟩ := h.rotate hlsn hstep
    exact ⟨gone, L', imgs, h'⟩
  | snapshot nowMs nowMs' => exact h.snapshot hlsn ha.1 ha.2 hstep

end DataDir.Holds

theorem newDataDir_holds (o : Options) (newSeed nowMs T : UInt64) (hmem : o.maxMemory ≤ 0) :
    ∃ L, (newDataDir o newSeed nowMs).Holds T [] L [] := by
  have hname : 1 < 10 ^ 16 := by norm_num
  refine ⟨(Layout.first 1 nowMs hname).begun, newEngine_late o newSeed hmem T,
    newStore_shardFor_lt o newSeed, nofun, .nil, nofun, Nat.zero_lt_one, ?_,
    Layout.begun_durable _, ?_, ⟨rfl, le_rfl⟩, rfl, rfl, ⟨.nil, nofun⟩, Nat.zero_le _, nofun, nofun,
    nofun, nofun⟩
  · rw [Layout.begun_disk rfl rfl]
    rfl
  · rw [(Layout.begun_durable _).full.segments_eq]
    exact ⟨by simp [Layout.begun, Layout.first, Layout.fsync, Layout.grow],
      List.pairwise_singleton _ _⟩

/-! ## Recovery -/

/-- What `Load` reports of the file. -/
def SnapImage.header (x : SnapImage) : Snapshot.Header :=
  ⟨Snapshot.formatVersion, x.createdAtMs, x.lsn, UInt64.ofNat x.entries.length⟩

/-- No SET of a recovery from a snapshot in `snaps` leaves `2^31` entries or more in a shard. -/
def RecoveryFits (T nowMono : UInt64) (wal snaps : Disk Bytes) (s : Store) : Prop :=
  ∀ p ∈ snaps, ∀ hdr es, Snapshot.verify p.2.bytes = .ok hdr →
    Snapshot.Contains p.2.bytes hdr es →
      s.ReplayFits T nowMono (es.map SnapEntry.record ++
        (walRecords wal).filter fun r => hdr.lastIncludedLSN.toNat < r.lsn)

section Recovery

variable {T nowMono : UInt64} {d : DataDir} {gone : List Record} {L : Layout}
  {imgs older : List SnapImage} {s : Store} {y : SnapImage}

/-- `Load` of a snapshot that is as it was written. -/
theorem SnapImage.load (hfits : ∀ e ∈ y.entries, Snapshot.Fits e)
    (haccepts : Snapshot.Accepts (Store.loadCallback nowMono) s y.entries) :
    Snapshot.load (Store.loadCallback nowMono) y.file.2.bytes ⟨s, []⟩ =
      (Snapshot.Delivery.after (Store.loadCallback nowMono) ⟨s, []⟩ y.entries, .ok y.header) :=
  (Snapshot.contains_fileBytes hfits y.lsn y.createdAtMs).load
    (Snapshot.verify_fileBytes _ _ _) haccepts

/-- The newest snapshot, as it was written. -/
theorem DataDir.Holds.loadNewestValid (h : d.Holds T gone L (older ++ [y]))
    (haccepts : Snapshot.Accepts (Store.loadCallback nowMono) s y.entries) :
    Snapshot.loadNewestValid (Store.loadCallback nowMono) d.snaps s =
      (Snapshot.Delivery.after (Store.loadCallback nowMono) ⟨s, []⟩ y.entries,
        .ok (y.header, Snapshot.name y.lsn)) := by
  have hshelved := h.shelved
  rw [List.map_append] at hshelved
  rw [h.snaps, List.map_append]
  exact Snapshot.loadNewestValid_shelf hshelved (y.load (h.fits y (by simp)) haccepts)

/-- The newest snapshot, when it fails the checks. -/
theorem DataDir.Holds.loadNewestValid_skip (h : d.Holds T gone L (older ++ [y]))
    (nowMono : UInt64) {b : Bytes} {err : Snapshot.FileError}
    (hbad : Snapshot.verify b = .error err) (synced : ℕ) (s : Store) :
    ∃ fs, Snapshot.Shelved fs ∧ (∀ z ∈ older, z.file ∈ fs) ∧
      Snapshot.loadNewestValid (Store.loadCallback nowMono)
          (Disk.modify d.snaps (Snapshot.name y.lsn) fun _ => ⟨b, synced⟩) s =
        Snapshot.tryLoad (Store.loadCallback nowMono) (Snapshot.shelf fs)
          ((older.map SnapImage.file).reverse.map Snapshot.fileInfo)
          (.last (Snapshot.name y.lsn) (.file err)) ⟨s, []⟩ := by
  have hshelved := h.shelved
  rw [List.map_append] at hshelved
  obtain ⟨hbadshelf, hmodify⟩ := hshelved.modify ⟨b, synced⟩
  refine ⟨_, hbadshelf, fun z hz => List.mem_append_left _ (List.mem_map_of_mem hz), ?_⟩
  rw [h.snaps, List.map_append]
  exact (congrArg (Snapshot.loadNewestValid _ · s) hmodify).trans
    (Snapshot.loadNewestValid_shelf_skip hbadshelf s hbad)

theorem DataDir.Holds.newest (h : d.Holds T gone L imgs) {newest : Snapshot.Info}
    (hnewest : (Snapshot.list d.snaps).head? = some newest) :
    ∃ older y, imgs = older ++ [y] ∧ newest.path = Snapshot.name y.lsn := by
  rw [h.snaps, Snapshot.list_shelf h.shelved] at hnewest
  rcases List.eq_nil_or_concat' imgs with rfl | ⟨older, y, rfl⟩
  · cases hnewest
  · rw [List.map_append, List.reverse_append] at hnewest
    exact ⟨older, y, rfl, (congrArg Snapshot.Info.path (Option.some.inj hnewest)).symm⟩

/-- Once everything is written, the records above a snapshot are all there. -/
theorem DataDir.Holds.filter_walRecords (h : d.Holds T gone L imgs)
    (hflushed : d.durableLSN + 1 = d.engine.log.nextLSN) (hy : y ∈ imgs) :
    ((walRecords d.wal).filter fun r => y.lsn.toNat < r.lsn) =
      d.engine.log.records.filter fun r => y.lsn.toNat < r.lsn := by
  have hwal : walRecords d.wal = L.records := by
    rw [walRecords, h.wal, L.logSegments_disk, L.flatMap_segments, h.files.full.present_eq]
  have hqueued : d.queued = [] := by
    refine List.filter_eq_nil_iff.mpr fun r hr => ?_
    have := h.below r hr
    simp
    omega
  have hgone : (gone.filter fun r => y.lsn.toNat < r.lsn) = [] := by
    refine List.filter_eq_nil_iff.mpr fun r hr => ?_
    simpa using h.kept y hy r hr
  rw [hwal, h.records_eq, hqueued, List.append_nil, List.filter_append, hgone, List.nil_append]

/-- Recovery from any snapshot of the directory gives what the log describes. -/
theorem DataDir.Holds.recover (h : d.Holds T gone L imgs)
    (hflushed : d.durableLSN + 1 = d.engine.log.nextLSN) (hs : s.Plain)
    (hempty : s.contents = fun _ => none) (hfits : RecoveryFits T nowMono d.wal d.snaps s)
    (hy : y ∈ imgs) {snaps : Disk Bytes} {path : Bytes}
    (hload : Snapshot.Accepts (Store.loadCallback nowMono) s y.entries →
      Snapshot.loadNewestValid (Store.loadCallback nowMono) snaps s =
        (Snapshot.Delivery.after (Store.loadCallback nowMono) ⟨s, []⟩ y.entries,
          .ok (y.header, path))) (unsafeTruncate : Bool) :
    ∃ s', recoverDir T nowMono unsafeTruncate d.wal snaps s = .ok s' ∧
      ∀ k, s'.contents k = liveAt T (foldWith (Record.effectAt T) d.engine.log.records k) := by
  have hmem : (Snapshot.name y.lsn, y.file.2) ∈ d.snaps := by
    rw [h.snaps]
    exact List.mem_map.mpr ⟨y.file, List.mem_map_of_mem hy, rfl⟩
  have hreplay := hfits _ hmem y.header y.entries (Snapshot.verify_fileBytes _ _ _)
    (Snapshot.contains_fileBytes (h.fits y hy) y.lsn y.createdAtMs)
  have hhealthy : HealthySegments d.wal := h.wal ▸ h.files.full.healthySegments
  obtain ⟨s', hok, hcont⟩ := recoverDir_eq hs hhealthy hload hreplay unsafeTruncate
  refine ⟨s', hok, fun k => ?_⟩
  have hrecords := h.filter_walRecords hflushed hy
  rw [hcont, hempty]
  show liveAt T (((walRecords d.wal).filter fun r => y.lsn.toNat < r.lsn).foldl _ y.loaded k) = _
  rw [hrecords]
  exact h.covers y hy k

end Recovery

/-- In every run of an engine without a memory limit that spares the segments of the older
    snapshot, once everything is written: when the newest snapshot file does not pass validation,
    `recover` fails, or it gives the same keyspace as with that file intact. -/
theorem fallback_recovers (o o' : Options) (newSeed newSeed' nowMs T nowMono : UInt64)
    (hmem : o.maxMemory ≤ 0) (hmem' : o'.maxMemory ≤ 0) {d : DataDir}
    (hrun : Run DataDir.step (DirAction.Spares T) (newDataDir o newSeed nowMs) d)
    (hflushed : d.durableLSN + 1 = d.engine.log.nextLSN)
    (hfits : RecoveryFits T nowMono d.wal d.snaps (newStore o' newSeed'))
    {newest : Snapshot.Info} (hnewest : (Snapshot.list d.snaps).head? = some newest)
    {b : Bytes} {err : Snapshot.FileError} (hbad : Snapshot.verify b = .error err) (synced : ℕ)
    (unsafeTruncate : Bool) :
    (∃ err, recoverDir T nowMono unsafeTruncate d.wal
      (Disk.modify d.snaps newest.path fun _ => ⟨b, synced⟩) (newStore o' newSeed') = .error err) ∨
    ∃ s s', recoverDir T nowMono unsafeTruncate d.wal
        (Disk.modify d.snaps newest.path fun _ => ⟨b, synced⟩) (newStore o' newSeed') = .ok s ∧
      recoverDir T nowMono unsafeTruncate d.wal d.snaps (newStore o' newSeed') = .ok s' ∧
      s.contents = s'.contents := by
  obtain ⟨L₀, hnew⟩ := newDataDir_holds o newSeed nowMs T hmem
  obtain ⟨gone, L, imgs, h⟩ : ∃ gone L imgs, d.Holds T gone L imgs := by
    refine hrun.invariant (P := fun d => ∃ gone L imgs, d.Holds T gone L imgs) ?_ ⟨[], L₀, [], hnew⟩
    rintro d a d' ⟨gone, L, imgs, hd⟩ ha hstep
    exact hd.step ha hstep
  have hplain := newStore_plain o' newSeed' hmem'
  have hempty : (newStore o' newSeed').contents = fun _ => none :=
    funext (newStore_contents o' newSeed')
  obtain ⟨older, y, rfl, hpath⟩ := h.newest hnewest
  obtain ⟨fs, hshelved, hfiles, hskip⟩ :=
    h.loadNewestValid_skip nowMono hbad synced (newStore o' newSeed')
  rw [← hpath] at hskip
  rcases List.eq_nil_or_concat' older with rfl | ⟨oldest, z, rfl⟩
  · refine .inl ⟨.snapshot (.last newest.path (.file err)), ?_⟩
    rw [recoverDir, hskip]
    rfl
  · have hz : z ∈ oldest ++ [z] ++ [y] := by simp
    obtain ⟨s, hs, hcont⟩ := h.recover hflushed hplain hempty hfits hz (fun haccepts => by
      rw [hskip, List.map_append, List.map_singleton,
        Snapshot.tryLoad_shelf hshelved (hfiles z (by simp)), z.load (h.fits z hz) haccepts])
      unsafeTruncate
    obtain ⟨s', hs', hcont'⟩ := h.recover hflushed hplain hempty hfits (by simp)
      h.loadNewestValid unsafeTruncate
    exact .inr ⟨s, s', hs, hs', funext fun k => (hcont k).trans (hcont' k).symm⟩

/-! ## Two snapshots and what is written in between -/

theorem DataDir.step_engine {d : DataDir} {a : EngineAction} {e : Engine}
    (h : d.engine.step a = some e) : d.step (.engine a) = some { d with engine := e } := by
  rw [DataDir.step, h]
  rfl

theorem DataDir.step_snapshot {d : DataDir} {nowMs nowMs' : UInt64}
    (hidle : ∀ i < d.engine.store.shardCount, d.engine.inflight i = none) {x : SnapImage}
    (hx : x = ⟨d.lsn, nowMs, d.engine.store.range nowMs'⟩)
    (hfits : ∀ e ∈ x.entries, Snapshot.Fits e) :
    d.step (.snapshot nowMs nowMs') = some { d with
      wal := (Wal.truncateBelow d.wal d.lsn).1
      snaps := (Snapshot.prune
        (Snapshot.rename d.snaps (Snapshot.name x.lsn) x.file.2.bytes) 2).1 } := by
  subst hx
  rw [DataDir.step, if_pos hidle, Engine.snapshot, Snapshot.writeSnapshot_eq hfits]
  rfl

/-- A snapshot of no entries. -/
def emptyImage : SnapImage := ⟨0, 0, []⟩

section
variable {x : SnapImage}

theorem shelved_images (hlsn : 0 < x.lsn ∧ x.lsn.toNat < 10 ^ 16) :
    Snapshot.Shelved ([emptyImage.file] ++ [x.file]) :=
  ⟨by simpa [emptyImage, SnapImage.file] using hlsn.1,
    by simpa [emptyImage, SnapImage.file] using hlsn.2⟩

/-- A new snapshot beside the old one. -/
theorem prune_images (hlsn : 0 < x.lsn ∧ x.lsn.toNat < 10 ^ 16) :
    (Snapshot.prune (Snapshot.rename (Snapshot.shelf [emptyImage.file])
      (Snapshot.name x.lsn) x.file.2.bytes) 2).1 =
        Snapshot.shelf ([emptyImage.file] ++ [x.file]) := by
  have hempty : Snapshot.Shelved [emptyImage.file] := (shelved_images hlsn).sublist (by simp)
  have hkept : [emptyImage.file].filter (fun p => decide (p.1 ≠ x.lsn)) = [emptyImage.file] := by
    refine List.filter_eq_self.mpr fun p hp => decide_eq_true ?_
    rw [List.mem_singleton.mp hp]
    exact UInt64.ne_of_lt hlsn.1
  rw [Snapshot.rename_shelf hempty hlsn.2, hkept]
  exact Snapshot.prune_shelf (shelved_images hlsn) one_le_two

/-- The second snapshot. -/
theorem step_image {d : DataDir} (hlsn : 0 < x.lsn ∧ x.lsn.toNat < 10 ^ 16)
    (hidle : ∀ i < d.engine.store.shardCount, d.engine.inflight i = none)
    (hx : x.lsn = d.lsn ∧ x.createdAtMs = 0 ∧ x.entries = d.engine.store.range 0)
    (hfits : ∀ e ∈ x.entries, Snapshot.Fits e)
    (hsnaps : d.snaps = Snapshot.shelf [emptyImage.file]) :
    d.step (.snapshot 0 0) = some { d with
      wal := (Wal.truncateBelow d.wal d.lsn).1
      snaps := Snapshot.shelf ([emptyImage.file] ++ [x.file]) } := by
  have himage : x = ⟨d.lsn, 0, d.engine.store.range 0⟩ := by
    rw [← hx.2.2, ← hx.1, ← hx.2.1]
  rw [DataDir.step_snapshot hidle himage hfits, hsnaps, prune_images hlsn]

/-- The store that has loaded the snapshot. -/
def loadedStore (x : SnapImage) : Store :=
  (Snapshot.Delivery.after (Store.loadCallback 0) ⟨newStore oneShard 1, []⟩ x.entries).state

/-- Recovery from the newer snapshot. -/
theorem recoverDir_images (hlsn : 0 < x.lsn ∧ x.lsn.toNat < 10 ^ 16)
    (hfits : ∀ e ∈ x.entries, Snapshot.Fits e)
    (haccepts : Snapshot.Accepts (Store.loadCallback 0) (newStore oneShard 1) x.entries)
    (wal : Disk Bytes) :
    recoverDir 10 0 false wal (Snapshot.shelf ([emptyImage.file] ++ [x.file]))
      (newStore oneShard 1) = replayDir 10 0 false wal x.header.lastIncludedLSN.toNat (loadedStore x) :=
  recoverDir_of_load (Snapshot.loadNewestValid_shelf (shelved_images hlsn)
    (x.load hfits haccepts)) false wal

/-- Recovery from the older one, when the newer one is cut to nothing. -/
theorem recoverDir_older (hlsn : 0 < x.lsn ∧ x.lsn.toNat < 10 ^ 16) (wal : Disk Bytes) :
    recoverDir 10 0 false wal
      (Disk.modify (Snapshot.shelf ([emptyImage.file] ++ [x.file]))
        (Snapshot.name x.lsn) fun _ => ⟨[], 0⟩) (newStore oneShard 1) =
        replayDir 10 0 false wal 0 (newStore oneShard 1) := by
  obtain ⟨hshelved, hmodify⟩ := (shelved_images hlsn).modify ⟨[], 0⟩
  have hcut : Snapshot.verify [] = .error (.incomplete 0) := rfl
  have holder : Snapshot.loadNewestValid (Store.loadCallback 0)
      (Snapshot.shelf ([] ++ [emptyImage.file] ++ [(x.lsn, ⟨[], 0⟩)])) (newStore oneShard 1) =
        (⟨newStore oneShard 1, []⟩, .ok (emptyImage.header, Snapshot.name emptyImage.lsn)) :=
    Snapshot.loadNewestValid_shelf_older hshelved hcut (emptyImage.load nofun trivial)
  exact (congrArg (recoverDir 10 0 false wal · (newStore oneShard 1)) hmodify).trans
    (recoverDir_of_load holder false wal)

end

/-- A snapshot of one write. -/
def writeImage : SnapImage := ⟨1, 0, [⟨[1], [2], 0⟩]⟩

theorem writeImage_fits : ∀ e ∈ writeImage.entries, Snapshot.Fits e := by
  unfold Snapshot.Fits
  decide

/-- A snapshot of the empty keyspace was taken first. -/
def emptyDir : DataDir := { newDataDir oneShard 1 0 with snaps := Snapshot.shelf [emptyImage.file] }

/-- Then a key is set. -/
def setEngine : Engine := ((newEngine oneShard 1).step (.set [1] [2] 0 0 0)).get (by decide +kernel)

def writtenEngine : Engine := (setEngine.step (.submit 0 0)).get (by decide +kernel)

/-- And its record is written. -/
def writtenDir : DataDir :=
  { emptyDir with
    engine := writtenEngine
    durableLSN := 1
    wal := Wal.appendFile emptyDir.wal (segmentName 1) (encodeRecords writtenEngine.log.records) }

theorem writtenDir_run :
    Run DataDir.step (DirAction.Spares 10) (newDataDir oneShard 1 0) writtenDir := by
  have hwal : (Wal.truncateBelow (newDataDir oneShard 1 0).wal (newDataDir oneShard 1 0).lsn).1 =
      emptyDir.wal := by decide +kernel
  have hempty : (newDataDir oneShard 1 0).step (.snapshot 0 0) = some emptyDir := by
    rw [DataDir.step_snapshot (by decide) (x := emptyImage) rfl nofun, hwal]
    rfl
  have hset : emptyDir.step (.engine (.set [1] [2] 0 0 0)) =
      some { emptyDir with engine := setEngine } :=
    DataDir.step_engine (Option.some_get _).symm
  have hsubmit : { emptyDir with engine := setEngine }.step (.engine (.submit 0 0)) =
      some { emptyDir with engine := writtenEngine } :=
    DataDir.step_engine (d := { emptyDir with engine := setEngine }) (Option.some_get _).symm
  have hqueued : { emptyDir with engine := writtenEngine }.queued = writtenEngine.log.records := by
    decide +kernel
  have hflush : { emptyDir with engine := writtenEngine }.step .flush = some writtenDir := by
    rw [DataDir.step, hqueued]
    rfl
  have h1 : Run DataDir.step (DirAction.Spares 10) _ _ :=
    Run.refl.tail (.snapshot 0 0) ⟨by decide +kernel, by decide, by rintro x ⟨⟩⟩ hempty
  have h2 := h1.tail (DirAction.engine (.set [1] [2] 0 0 0))
    ⟨by decide +kernel, ⟨by decide, by decide, by decide, by decide⟩, trivial⟩ hset
  have h3 := h2.tail (DirAction.engine (.submit 0 0)) ⟨by decide +kernel, trivial, trivial⟩ hsubmit
  exact h3.tail DirAction.flush ⟨by decide +kernel, trivial⟩ hflush

theorem writtenDir_fits : RecoveryFits 10 0 (Wal.truncateBelow writtenDir.wal 1).1
    (Snapshot.shelf ([emptyImage.file] ++ [writeImage.file])) (newStore oneShard 1) := by
  intro p hp hdr es hverify hes
  rcases List.mem_pair.mp hp with rfl | rfl
  · cases (Snapshot.verify_fileBytes 0 0 []).symm.trans hverify
    rw [hes.unique (Snapshot.contains_fileBytes (List.forall_mem_nil _) 0 0) hverify]
    decide +kernel
  · cases (Snapshot.verify_fileBytes 1 0 writeImage.entries).symm.trans hverify
    rw [hes.unique (Snapshot.contains_fileBytes writeImage_fits 1 0) hverify]
    decide +kernel

/-- A run in which the older snapshot keeps its segment. -/
theorem fallback_recovers_written :
    ∃ d newest s s', Run DataDir.step (DirAction.Spares 10) (newDataDir oneShard 1 0) d ∧
      (Snapshot.list d.snaps).head? = some newest ∧
      recoverDir 10 0 false d.wal (Disk.modify d.snaps newest.path fun _ => ⟨[], 0⟩)
        (newStore oneShard 1) = .ok s ∧
      recoverDir 10 0 false d.wal d.snaps (newStore oneShard 1) = .ok s' ∧
      s.contents = s'.contents := by
  have hspares : writtenDir.SparesOlder := by
    unfold DataDir.SparesOlder
    decide +kernel
  have hstep := step_image (x := writeImage) (d := writtenDir) (by decide) (by decide +kernel)
    (by decide +kernel) writeImage_fits rfl
  have hrun := writtenDir_run.tail (DirAction.snapshot 0 0)
    ⟨by decide +kernel, by decide, hspares⟩ hstep
  have hnewest :=
    congrArg List.head? (Snapshot.list_shelf (shelved_images (x := writeImage) (by decide)))
  have hcut : Snapshot.verify [] = .error (.incomplete 0) := rfl
  have hreplay : (replayDir 10 0 false (Wal.truncateBelow writtenDir.wal writtenDir.lsn).1 0
      (newStore oneShard 1)).isOk = true := by decide +kernel
  rcases fallback_recovers oneShard oneShard 1 1 0 10 0 (by decide) (by decide) hrun
      (by decide +kernel) writtenDir_fits hnewest hcut 0 false with
    ⟨err, herr⟩ | ⟨s, s', hs, hs', heq⟩
  · rw [(recoverDir_older (x := writeImage) (by decide) _).symm.trans herr] at hreplay
    cases hreplay
  · exact ⟨_, _, s, s', hrun, hnewest, hs, hs', heq⟩

/-- A snapshot of both writes. -/
def bothImage : SnapImage := ⟨2, 0, [⟨[1], [2], 0⟩, ⟨[3], [4], 0⟩]⟩

theorem bothImage_fits : ∀ e ∈ bothImage.entries, Snapshot.Fits e := by
  unfold Snapshot.Fits
  decide

/-- Another key is set. -/
def setAgainEngine : Engine :=
  (writtenEngine.step (.set [3] [4] 0 0 0)).get (by decide +kernel)

def bothEngine : Engine := (setAgainEngine.step (.submit 0 0)).get (by decide +kernel)

/-- The segment has reached its size by now: the log rotates before it writes the record
    (`flushBatch`, writer.go line 337). -/
def rotatedDir : DataDir :=
  { writtenDir with
    engine := bothEngine
    durableLSN := 2
    segFirst := 2
    wal := Wal.appendFile (Wal.createSegment writtenDir.wal 2 0) (segmentName 2)
      (encodeRecords (bothEngine.log.records.drop 1)) }

theorem rotatedDir_run : Run DataDir.step Always (newDataDir oneShard 1 0) rotatedDir := by
  have hset : writtenDir.step (.engine (.set [3] [4] 0 0 0)) =
      some { writtenDir with engine := setAgainEngine } :=
    DataDir.step_engine (Option.some_get _).symm
  have hsubmit : { writtenDir with engine := setAgainEngine }.step (.engine (.submit 0 0)) =
      some { writtenDir with engine := bothEngine } :=
    DataDir.step_engine (d := { writtenDir with engine := setAgainEngine }) (Option.some_get _).symm
  have hqueued : { writtenDir with engine := bothEngine }.queued =
      bothEngine.log.records.drop 1 := by decide +kernel
  have hflush : DataDir.step { writtenDir with
      engine := bothEngine
      wal := Wal.createSegment writtenDir.wal 2 0
      segFirst := 2 } .flush = some rotatedDir := by
    rw [DataDir.step]
    exact congrArg (fun rs => some { rotatedDir with
      wal := Wal.appendFile (Wal.createSegment writtenDir.wal 2 0) (segmentName 2)
        (encodeRecords rs) }) hqueued
  have hwritten : Run DataDir.step Always (newDataDir oneShard 1 0) writtenDir :=
    writtenDir_run.mono fun _ _ _ => trivial
  exact (((hwritten.tail _ trivial hset).tail _ trivial hsubmit).tail (.rotate 0) trivial rfl).tail
    .flush trivial hflush

/-- A second write makes the log rotate, and the snapshot after it deletes the first segment: the
    first write is in the newer snapshot only. When that one is cut to nothing, `recover` succeeds
    without it. -/
theorem fallback_loses_write :
    ∃ d newest, Run DataDir.step Always (newDataDir oneShard 1 0) d ∧
      d.durableLSN + 1 = d.engine.log.nextLSN ∧
      (Snapshot.list d.snaps).head? = some newest ∧
      (recoverDir 10 0 false d.wal d.snaps (newStore oneShard 1)).map
        (fun s => (s.contents [1], s.contents [3])) = .ok (some ([2], 0), some ([4], 0)) ∧
      (recoverDir 10 0 false d.wal (Disk.modify d.snaps newest.path fun _ => ⟨[], 0⟩)
        (newStore oneShard 1)).map (fun s => (s.contents [1], s.contents [3])) =
          .ok (none, some ([4], 0)) := by
  have hlsn : 0 < bothImage.lsn ∧ bothImage.lsn.toNat < 10 ^ 16 := by decide
  have hstep := step_image (d := rotatedDir) hlsn (by decide +kernel) (by decide +kernel)
    bothImage_fits rfl
  have hrun := rotatedDir_run.tail (DirAction.snapshot 0 0) trivial hstep
  have hnewest := congrArg List.head? (Snapshot.list_shelf (shelved_images hlsn))
  refine ⟨_, _, hrun, by decide +kernel, hnewest, ?_, ?_⟩
  · refine (congrArg _ (recoverDir_images hlsn bothImage_fits ?_ _)).trans ?_
    · exact ⟨by decide +kernel, by decide +kernel, trivial⟩
    · decide +kernel
  · refine (congrArg _ (recoverDir_older hlsn _)).trans ?_
    decide +kernel

end KvStore
