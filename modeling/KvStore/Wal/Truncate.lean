import KvStore.Wal.Replay
import KvStore.Wal.ValidPrefix

/-!
# Deleting old segments

Model of `TruncateBelow` in `internal/wal/recover.go`. It deletes segments from the front as
long as the next one starts at or below the LSN after the snapshot point.

* `truncation_invisible`: `Replay` from the snapshot point does not notice it.

What `Replay` reports depends on the records above `minLSN` and on the last segment; a healthy
segment without such records leaves no trace (`replayLoop_skip`).
-/

namespace KvStore

open KvStore.Common

namespace Wal

/-! ## The code -/

/-- The loop of `TruncateBelow` (lines 185–195) with the number of files removed. The sum wraps
    around. -/
def truncateLoop (lastIncludedLSN : UInt64) :
    List SegmentInfo → Disk Bytes → ℕ → Disk Bytes × ℕ
  | seg :: next :: later, d, removed =>
    if next.firstLSN > (lastIncludedLSN + 1).toNat then (d, removed)
    else truncateLoop lastIncludedLSN (next :: later) (Disk.remove d seg.path) (removed + 1)
  | _, d, removed => (d, removed)

/-- `TruncateBelow` (lines 179–202). -/
def truncateBelow (d : Disk Bytes) (lastIncludedLSN : UInt64) : Disk Bytes × ℕ :=
  truncateLoop lastIncludedLSN (listSegments d) d 0

end Wal

/-! ## A healthy log -/

/-- `ScanSegment` finds no fault in any segment of the directory. -/
def HealthySegments (d : Disk Bytes) : Prop :=
  ∀ seg ∈ listSegments d, ∃ f, Disk.read d seg.path = some f ∧ healthy f.bytes = true

instance (d : Disk Bytes) : Decidable (HealthySegments d) :=
  decidable_of_iff
    (∀ seg ∈ listSegments d, ((Disk.read d seg.path).any fun f => healthy f.bytes) = true)
    (forall₂_congr fun _ _ => Option.any_eq_true _ _)

/-- Where the log ends: `LastLSN`, `NextLSN`, `ResumePath` and `ResumeOffset`. -/
def ReplayResult.ending (res : ReplayResult) : ℕ × ℕ × Option Bytes × ℕ :=
  (res.lastLSN, res.nextLSN, res.resumePath, res.resumeOffset)

/-- What the callback made of the records, and where the log ends. -/
def replayOutcome {σ ε : Type}
    (r : Except (ReplayError ε) (ReplayResult × σ × Disk Bytes)) :
    Except (ReplayError ε) (σ × ℕ × ℕ × Option Bytes × ℕ) :=
  r.map fun p => (p.2.1, p.1.ending)

/-- Two reports of the loop say the same of where the log ends. -/
structure ReplayResult.SameEnd (res res' : ReplayResult) : Prop where
  lastLSN : res.lastLSN = res'.lastLSN
  resumePath : res.resumePath = res'.resumePath
  resumeOffset : res.resumeOffset = res'.resumeOffset

section Loop

variable {σ ε : Type} {minLSN : ℕ} {unsafeTruncate : Bool} {apply : σ → Record → Except ε σ}
  {d d' : Disk Bytes} {seg : SegmentInfo} {f : File} {res res' : ReplayResult} {st : σ}

theorem visit_lastLSN (minLSN : ℕ) (res : ReplayResult) (r : Record) :
    (res.visit minLSN r).lastLSN = if r.lsn ≤ minLSN then res.lastLSN else max res.lastLSN r.lsn := by
  unfold ReplayResult.visit
  split_ifs with h h'
  · rfl
  · exact (Nat.max_eq_right (Nat.le_of_lt h')).symm
  · exact (Nat.max_eq_left (Nat.not_lt.mp h')).symm

variable (minLSN) in
/-- The last LSN found depends on the one found before and on the records. -/
theorem foldl_visit_lastLSN (h : res.lastLSN = res'.lastLSN) (rs : List Record) :
    (rs.foldl (ReplayResult.visit minLSN) res).lastLSN =
      (rs.foldl (ReplayResult.visit minLSN) res').lastLSN := by
  induction rs generalizing res res' with
  | nil => exact h
  | cons r rs ih => exact ih (by rw [visit_lastLSN, visit_lastLSN, h])

theorem foldl_visit_skipped {rs : List Record} (h : ∀ r ∈ rs, r.lsn ≤ minLSN) (res : ReplayResult) :
    (rs.foldl (ReplayResult.visit minLSN) res).lastLSN = res.lastLSN := by
  induction rs generalizing res with
  | nil => rfl
  | cons r rs ih =>
    obtain ⟨hr, hrs⟩ := List.forall_mem_cons.mp h
    rw [List.foldl_cons, ih hrs, visit_lastLSN, if_pos hr]

/-- A healthy segment. -/
theorem replayLoop_segment (hread : Disk.read d seg.path = some f) (hf : healthy f.bytes = true)
    (later : List SegmentInfo) (res : ReplayResult) (st : σ) :
    replayLoop minLSN unsafeTruncate apply (seg :: later) d res st =
      match ((scannedRecords f.bytes).filter fun r => minLSN < r.lsn).foldlM apply st with
      | .error e => .error (.scan seg.path (some e))
      | .ok st => replayLoop minLSN unsafeTruncate apply later d
          { (scannedRecords f.bytes).foldl (ReplayResult.visit minLSN) res with
            resumePath := some seg.path, resumeOffset := f.bytes.length } st := by
  obtain ⟨scan, hfault, hoff, hscan⟩ := scanSegment_healthy hf
  have hrun := hscan (visitRecord minLSN apply) (res, st)
  rw [foldlM_visitRecord] at hrun
  cases happly : ((scannedRecords f.bytes).filter fun r => minLSN < r.lsn).foldlM apply st with
  | error e =>
    rw [happly] at hrun
    have hrun : scanSegment (visitRecord minLSN apply) f.bytes (res, st) = .error e := hrun
    rw [replayLoop, hread]
    simp only [hrun]
  | ok st' =>
    rw [happly] at hrun
    rw [replayLoop_healthy seg hread hrun hfault, hoff]

/-- Healthy segments without a record above `minLSN`. -/
theorem replayLoop_skip {pre : List SegmentInfo}
    (h : ∀ seg ∈ pre, ∃ f, Disk.read d seg.path = some f ∧ healthy f.bytes = true ∧
      ∀ r ∈ scannedRecords f.bytes, r.lsn ≤ minLSN)
    (post : List SegmentInfo) (res : ReplayResult) (st : σ) :
    ∃ res', res'.lastLSN = res.lastLSN ∧
      replayLoop minLSN unsafeTruncate apply (pre ++ post) d res st =
        replayLoop minLSN unsafeTruncate apply post d res' st := by
  induction pre generalizing res with
  | nil => exact ⟨res, rfl, rfl⟩
  | cons seg pre ih =>
    obtain ⟨⟨f, hread, hf, hskip⟩, hpre⟩ := List.forall_mem_cons.mp h
    have hnone : (scannedRecords f.bytes).filter (fun r => minLSN < r.lsn) = [] :=
      List.filter_eq_nil_iff.mpr (by simpa using hskip)
    obtain ⟨res', hlast, hloop⟩ := ih hpre
      { (scannedRecords f.bytes).foldl (ReplayResult.visit minLSN) res with
        resumePath := some seg.path, resumeOffset := f.bytes.length }
    refine ⟨res', hlast.trans (foldl_visit_skipped hskip res), ?_⟩
    rw [List.cons_append, replayLoop_segment hread hf, hnone]
    exact hloop

/-- The same healthy segments in two directories. -/
theorem replayLoop_same {segs : List SegmentInfo}
    (h : ∀ seg ∈ segs, ∃ f, Disk.read d seg.path = some f ∧ Disk.read d' seg.path = some f ∧
      healthy f.bytes = true)
    (hlast : res.lastLSN = res'.lastLSN) (hend : segs = [] → res.SameEnd res') (st : σ) :
    (∃ e, replayLoop minLSN unsafeTruncate apply segs d res st = .error e ∧
      replayLoop minLSN unsafeTruncate apply segs d' res' st = .error e) ∨
    ∃ r r' st', r.SameEnd r' ∧
      replayLoop minLSN unsafeTruncate apply segs d res st = .ok (r, st', d) ∧
      replayLoop minLSN unsafeTruncate apply segs d' res' st = .ok (r', st', d') := by
  induction segs generalizing res res' st with
  | nil => exact .inr ⟨res, res', st, hend rfl, rfl, rfl⟩
  | cons seg segs ih =>
    obtain ⟨⟨f, hread, hread', hf⟩, hsegs⟩ := List.forall_mem_cons.mp h
    rw [replayLoop_segment hread hf, replayLoop_segment hread' hf]
    have hvisit := foldl_visit_lastLSN minLSN hlast (scannedRecords f.bytes)
    cases ((scannedRecords f.bytes).filter fun r => minLSN < r.lsn).foldlM apply st with
    | error e => exact .inl ⟨_, rfl, rfl⟩
    | ok st' =>
      refine ih hsegs ?_ ?_ st'
      · exact hvisit
      · exact fun _ => ⟨hvisit, rfl, rfl⟩

end Loop

/-! ## The files that are deleted -/

section Files

variable {d : Disk Bytes} {segs pre post : List SegmentInfo}

/-- Delete the files of some segments. -/
def removeSegments (segs : List SegmentInfo) (d : Disk Bytes) : Disk Bytes :=
  segs.foldl (fun d seg => Disk.remove d seg.path) d

theorem removeSegments_eq (segs : List SegmentInfo) (d : Disk Bytes) :
    removeSegments segs d = d.filter fun p => p.1 ∉ segs.map SegmentInfo.path :=
  (Disk.foldl_remove SegmentInfo.path segs d).trans (List.filter_congr fun _ _ => by simp)

theorem read_removeSegments {name : Bytes} (h : name ∉ segs.map SegmentInfo.path) (d : Disk Bytes) :
    Disk.read (removeSegments segs d) name = Disk.read d name := by
  rw [removeSegments_eq, Disk.read, Disk.read, List.find?_filter]
  congr 2
  funext p
  by_cases hp : p.1 = name
  · simp [hp, h]
  · simp [hp]

theorem path_of_segmentInfo {p : Bytes × File} {seg : SegmentInfo} (h : segmentInfo p = some seg) :
    seg.path = p.1 := by
  obtain ⟨lsn, -, rfl⟩ := Option.map_eq_some_iff.mp h
  rfl

theorem listSegments_perm (d : Disk Bytes) : (listSegments d).Perm (d.filterMap segmentInfo) :=
  List.perm_insertionSort _ _

theorem parse_of_mem_listSegments {seg : SegmentInfo} (h : seg ∈ listSegments d) :
    parseSegmentName seg.path = some seg.firstLSN := by
  obtain ⟨p, -, hp⟩ := List.mem_filterMap.mp ((listSegments_perm d).mem_iff.mp h)
  obtain ⟨lsn, hlsn, rfl⟩ := Option.map_eq_some_iff.mp hp
  exact hlsn

/-- Deleting files deletes them from the listing. -/
theorem listSegments_removeSegments_perm (segs : List SegmentInfo) (d : Disk Bytes) :
    (listSegments (removeSegments segs d)).Perm
      ((listSegments d).filter fun seg => seg.path ∉ segs.map SegmentInfo.path) := by
  refine (listSegments_perm _).trans (List.Perm.trans ?_ ((listSegments_perm d).filter _).symm)
  rw [removeSegments_eq, List.filterMap_filter, List.filter_filterMap]
  refine List.Perm.of_eq (List.filterMap_congr fun p _ => ?_)
  cases hp : segmentInfo p with
  | none => split_ifs <;> rfl
  | some seg =>
    rw [Option.filter_some, path_of_segmentInfo hp]

/-- Segments with different names have different files. -/
theorem path_notMem (hlist : listSegments d = pre ++ post)
    (hnames : (pre ++ post).Pairwise fun a b => a.firstLSN < b.firstLSN) :
    ∀ seg ∈ post, seg.path ∉ pre.map SegmentInfo.path := by
  intro seg hseg hmem
  obtain ⟨-, -, hcross⟩ := List.pairwise_append.mp hnames
  obtain ⟨seg', hseg', hpath⟩ := List.mem_map.mp hmem
  have hparse := parse_of_mem_listSegments (hlist ▸ List.mem_append_right pre hseg)
  rw [← hpath, parse_of_mem_listSegments (hlist ▸ List.mem_append_left post hseg')] at hparse
  exact (hcross seg' hseg' seg hseg).ne (Option.some.inj hparse)

/-- Without the files of the first segments, the others are listed. -/
theorem listSegments_removeSegments (hlist : listSegments d = pre ++ post)
    (hnames : (pre ++ post).Pairwise fun a b => a.firstLSN < b.firstLSN) :
    listSegments (removeSegments pre d) = post := by
  obtain ⟨-, hpost, -⟩ := List.pairwise_append.mp hnames
  have hkeep := path_notMem hlist hnames
  have hfilter : (pre ++ post).filter (fun seg => seg.path ∉ pre.map SegmentInfo.path) = post := by
    rw [List.filter_append, List.filter_eq_nil_iff.mpr, List.filter_eq_self.mpr, List.nil_append]
    · exact fun seg hseg => decide_eq_true (hkeep seg hseg)
    · intro seg hseg
      simpa using List.mem_map_of_mem hseg
  have hperm := listSegments_removeSegments_perm pre d
  rw [hlist, hfilter] at hperm
  -- both lists are sorted, and no two segments have the same name
  refine hperm.eq_of_pairwise ?_ (List.pairwise_insertionSort _ _) (hpost.imp Nat.le_of_lt)
  intro a b ha hb hab hba
  have hinj : (post.map SegmentInfo.firstLSN).Nodup :=
    List.pairwise_map.mpr (hpost.imp Nat.ne_of_lt)
  exact List.inj_on_of_nodup_map hinj (hperm.mem_iff.mp ha) hb (Nat.le_antisymm hab hba)

theorem truncateLoop_spec (L : UInt64) (d : Disk Bytes) (removed : ℕ) {segs : List SegmentInfo}
    {records : SegmentInfo → List Record}
    (h : segs.Pairwise fun a b => ∀ r ∈ records a, r.lsn < b.firstLSN) :
    ∃ pre post, segs = pre ++ post ∧ (segs ≠ [] → post ≠ []) ∧
      (Wal.truncateLoop L segs d removed).1 = removeSegments pre d ∧
      ∀ seg ∈ pre, ∀ r ∈ records seg, r.lsn ≤ L.toNat := by
  induction segs generalizing d removed with
  | nil => exact ⟨[], [], rfl, id, rfl, nofun⟩
  | cons seg segs ih =>
    cases segs with
    | nil => exact ⟨[], [seg], rfl, fun _ => nofun, rfl, nofun⟩
    | cons next later =>
      obtain ⟨hseg, hrest⟩ := List.pairwise_cons.mp h
      rw [Wal.truncateLoop]
      split_ifs with hnext
      · exact ⟨[], seg :: next :: later, rfl, fun _ => nofun, rfl, nofun⟩
      · obtain ⟨pre, post, hsplit, hne, hd, hle⟩ :=
          ih (Disk.remove d seg.path) (removed + 1) hrest
        refine ⟨seg :: pre, post, by rw [hsplit]; rfl, fun _ => hne nofun, hd,
          List.forall_mem_cons.mpr ⟨fun r hr => ?_, hle⟩⟩
        have hlt := hseg next List.mem_cons_self r hr
        have hwrap : (L + 1).toNat ≤ L.toNat + 1 := by
          rw [UInt64.toNat_add]
          exact Nat.mod_le _ _
        omega

end Files

/-! ## Replay -/

section Replay

variable {σ ε : Type} {d : Disk Bytes} {pre post : List SegmentInfo}

/-- Deleting segments without a record above `minLSN`, though not the last one, does not change
    what `Replay` applies and where it says that the log ends. -/
theorem replay_removeSegments (hhealthy : HealthySegments d) (hlist : listSegments d = pre ++ post)
    (hnames : (pre ++ post).Pairwise fun a b => a.firstLSN < b.firstLSN)
    (hpost : pre ++ post ≠ [] → post ≠ []) {minLSN : ℕ}
    (hskip : ∀ seg ∈ pre, ∀ f, Disk.read d seg.path = some f →
      ∀ r ∈ scannedRecords f.bytes, r.lsn ≤ minLSN)
    (unsafeTruncate : Bool) (apply : σ → Record → Except ε σ) (st : σ) :
    replayOutcome (replay (removeSegments pre d) minLSN unsafeTruncate apply st) =
      replayOutcome (replay d minLSN unsafeTruncate apply st) := by
  by_cases hnil : pre ++ post = []
  · obtain ⟨rfl, -⟩ := List.append_eq_nil_iff.mp hnil
    rfl
  have hlist' := listSegments_removeSegments hlist hnames
  have hpre : ∀ seg ∈ pre, ∃ f, Disk.read d seg.path = some f ∧ healthy f.bytes = true ∧
      ∀ r ∈ scannedRecords f.bytes, r.lsn ≤ minLSN := by
    intro seg hseg
    obtain ⟨f, hread, hf⟩ := hhealthy seg (hlist ▸ List.mem_append_left post hseg)
    exact ⟨f, hread, hf, hskip seg hseg f hread⟩
  have hsame : ∀ seg ∈ post, ∃ f, Disk.read (removeSegments pre d) seg.path = some f ∧
      Disk.read d seg.path = some f ∧ healthy f.bytes = true := by
    intro seg hseg
    obtain ⟨f, hread, hf⟩ := hhealthy seg (hlist ▸ List.mem_append_right pre hseg)
    refine ⟨f, ?_, hread, hf⟩
    rw [read_removeSegments (path_notMem hlist hnames seg hseg), hread]
  obtain ⟨res, hlast, hloop⟩ := replayLoop_skip hpre post
    ⟨(pre ++ post).length, 0, 0, 0, minLSN, 0, none, 0, false, 0, none, none, false⟩ st
  have hlast' : (⟨post.length, 0, 0, 0, minLSN, 0, none, 0, false, 0, none, none, false⟩ :
      ReplayResult).lastLSN = res.lastLSN := hlast.symm
  unfold replay
  dsimp only
  rw [hlist', hlist, if_neg (hpost hnil), if_neg hnil, hloop]
  rcases replayLoop_same hsame hlast' (fun h => absurd h (hpost hnil)) st with
    ⟨e, h, h'⟩ | ⟨r, r', st', hend, h, h'⟩
  · rw [h, h']
  · rw [h, h']
    show Except.ok (st', r.lastLSN, r.lastLSN + 1, r.resumePath, r.resumeOffset) =
      .ok (st', r'.lastLSN, r'.lastLSN + 1, r'.resumePath, r'.resumeOffset)
    rw [hend.lastLSN, hend.resumePath, hend.resumeOffset]

/-- `TruncateBelow` at `L` and `Replay` from `L`: for every healthy log whose segments hold the
    LSNs from their name to the next one, the records that are applied and where the log ends are
    the same as without `TruncateBelow`, and the last segment stays. -/
theorem truncation_invisible (d : Disk Bytes) (L : UInt64) (hhealthy : HealthySegments d)
    (hspaced : Spaced (logSegments d)) (unsafeTruncate : Bool) (apply : σ → Record → Except ε σ)
    (st : σ) :
    replayOutcome (replay (Wal.truncateBelow d L).1 L.toNat unsafeTruncate apply st) =
        replayOutcome (replay d L.toNat unsafeTruncate apply st) ∧
      ∀ seg, (listSegments d).getLast? = some seg →
        (listSegments (Wal.truncateBelow d L).1).getLast? = some seg ∧
        Disk.read (Wal.truncateBelow d L).1 seg.path = Disk.read d seg.path := by
  have hpairs := List.pairwise_map.mp hspaced.below
  have hnames : (listSegments d).Pairwise fun a b => a.firstLSN < b.firstLSN :=
    hpairs.imp And.left
  have hbelow : (listSegments d).Pairwise fun a b =>
      ∀ r ∈ ((Disk.read d a.path).map fun f => scannedRecords f.bytes).getD [],
        r.lsn < b.firstLSN := hpairs.imp And.right
  obtain ⟨pre, post, hlist, hpost, hd, hle⟩ := truncateLoop_spec L d 0 hbelow
  rw [hlist] at hnames hpost
  have htruncate : (Wal.truncateBelow d L).1 = removeSegments pre d := hd
  rw [htruncate]
  constructor
  · refine replay_removeSegments hhealthy hlist hnames hpost (fun seg hseg f hread r hr => ?_)
      unsafeTruncate apply st
    refine hle seg hseg r ?_
    rw [hread]
    exact hr
  · intro seg hseg
    rw [hlist] at hseg
    have hlast : post.getLast? = some seg := by
      rwa [List.getLast?_append_of_ne_nil _ (hpost fun h => by rw [h] at hseg; cases hseg)] at hseg
    rw [listSegments_removeSegments hlist hnames]
    exact ⟨hlast, read_removeSegments
      (path_notMem hlist hnames seg (List.mem_of_getLast? hlast)) d⟩

/-- Two segments, the second one empty. -/
def rotatedLog : Disk Bytes :=
  [SegmentImage.sealedEntry ⟨1, 0, [⟨1, 0, .set, 0, [107], [], 0⟩, ⟨2, 0, .delete, 0, [107], [], 0⟩]⟩,
    SegmentImage.sealedEntry ⟨3, 0, []⟩]

/-- Of two segments, the first one is deleted. -/
theorem truncation_invisible_two :
    (Wal.truncateBelow rotatedLog 2).2 = 1 ∧
      replayOutcome (replay (Wal.truncateBelow rotatedLog 2).1 2 false collect []) =
        replayOutcome (replay rotatedLog 2 false collect []) := by
  have hlog : logSegments rotatedLog = [(1, [⟨1, 0, .set, 0, [107], [], 0⟩,
      ⟨2, 0, .delete, 0, [107], [], 0⟩]), (3, [])] := by decide +kernel
  have hhealthy : HealthySegments rotatedLog := by
    have hall : ∀ seg ∈ listSegments rotatedLog,
        (Disk.read rotatedLog seg.path).map (fun f => healthy f.bytes) = some true := by
      decide +kernel
    exact fun seg hseg => Option.map_eq_some_iff.mp (hall seg hseg)
  have hspaced : Spaced (logSegments rotatedLog) := by
    rw [hlog]
    constructor
    · decide
    · decide
  exact ⟨by decide +kernel, (truncation_invisible rotatedLog 2 hhealthy hspaced false collect []).1⟩

end Replay

end KvStore
