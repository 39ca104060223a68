import KvStore.Wal.Scan

/-!
# Replaying a log directory

Model of `internal/wal/recover.go`. `Replay` scans the segments in order, refuses a
faulty one that is not a torn last one, and truncates a torn last one.

`replayLoop_healthy` and `replayLoop_torn` say what one segment contributes.
-/

namespace KvStore

open KvStore.Common

/-! ## The code -/

/-- `ReplayResult` (lines 16–30); an empty path is `none`. -/
structure ReplayResult where
  segments : ℕ
  records : ℕ
  applied : ℕ
  skipped : ℕ
  lastLSN : ℕ
  nextLSN : ℕ
  resumePath : Option Bytes
  resumeOffset : ℕ
  truncated : Bool
  truncatedAt : ℕ
  truncatedPath : Option Bytes
  truncateReason : Option (Fault × Option FaultErr)
  unsafeTruncated : Bool
  deriving DecidableEq, Repr

/-- The errors of `Replay`: a segment that cannot be read or whose records are refused,
    and `ErrCorruptMidLog` with the path, the offset and what is wrong there. -/
inductive ReplayError (ε : Type)
  | scan (path : Bytes) (err : Option ε)
  | corruptMidLog (path : Bytes) (offset : ℕ) (err : Option FaultErr)
  deriving DecidableEq, Repr

variable {σ ε : Type}

/-- The counters after a record (lines 71–83). -/
def ReplayResult.visit (minLSN : ℕ) (res : ReplayResult) (r : Record) : ReplayResult :=
  if r.lsn ≤ minLSN then
    { res with records := res.records + 1, skipped := res.skipped + 1 }
  else
    { res with
      records := res.records + 1
      applied := res.applied + 1
      lastLSN := if r.lsn > res.lastLSN then r.lsn else res.lastLSN }

/-- The callback given to the scan (lines 70–84). -/
def visitRecord (minLSN : ℕ) (apply : σ → Record → Except ε σ) (acc : ReplayResult × σ)
    (r : Record) : Except ε (ReplayResult × σ) :=
  if r.lsn ≤ minLSN then .ok (acc.1.visit minLSN r, acc.2)
  else
    match apply acc.2 r with
    | .error e => .error e
    | .ok st => .ok (acc.1.visit minLSN r, st)

/-- `truncateSegment` (lines 140–150). -/
def truncateSegment (d : Disk Bytes) (path : Bytes) (offset : ℕ) : Disk Bytes :=
  Disk.modify d path fun f => (f.truncate offset).sync

/-- The loop over the segments (lines 67–134). -/
def replayLoop (minLSN : ℕ) (unsafeTruncate : Bool) (apply : σ → Record → Except ε σ) :
    List SegmentInfo → Disk Bytes → ReplayResult → σ →
      Except (ReplayError ε) (ReplayResult × σ × Disk Bytes)
  | [], d, res, st => .ok (res, st, d)
  | seg :: later, d, res, st =>
    match Disk.read d seg.path with
    | none => .error (.scan seg.path none)
    | some f =>
      match scanSegment (visitRecord minLSN apply) f.bytes (res, st) with
      | .error e => .error (.scan seg.path (some e))
      | .ok (scan, res, st) =>
        if scan.fault = .none then
          replayLoop minLSN unsafeTruncate apply later d
            { res with resumePath := some seg.path, resumeOffset := scan.lastGoodOffset } st
        else if (later ≠ [] ∨ scan.fault = .corrupt) ∧ unsafeTruncate = false then
          .error (.corruptMidLog seg.path scan.faultOffset scan.faultErr)
        else
          -- cut this segment back, resume there, and drop everything after it
          .ok ({ res with
            unsafeTruncated := res.unsafeTruncated || decide (later ≠ [])
            truncated := true
            truncatedAt := scan.lastGoodOffset
            truncatedPath := some seg.path
            truncateReason := some (scan.fault, scan.faultErr)
            resumePath := some seg.path
            resumeOffset := scan.lastGoodOffset
            segments := res.segments - later.length }, st,
            later.foldl (fun d seg => Disk.remove d seg.path)
              (truncateSegment d seg.path scan.lastGoodOffset))

/-- `Replay` (lines 53–138): the report, what `apply` made of the records, and the
    directory. -/
def replay (d : Disk Bytes) (minLSN : ℕ) (unsafeTruncate : Bool)
    (apply : σ → Record → Except ε σ) (st : σ) :
    Except (ReplayError ε) (ReplayResult × σ × Disk Bytes) :=
  let segs := listSegments d
  let res : ReplayResult :=
    ⟨segs.length, 0, 0, 0, minLSN, 0, none, 0, false, 0, none, none, false⟩
  if segs = [] then .ok ({ res with nextLSN := minLSN + 1 }, st, d)
  else
    match replayLoop minLSN unsafeTruncate apply segs d res st with
    | .error e => .error e
    | .ok (res, st, d) => .ok ({ res with nextLSN := res.lastLSN + 1 }, st, d)

/-! ## One segment -/

section Segment

variable {minLSN : ℕ} {unsafeTruncate : Bool} {apply : σ → Record → Except ε σ} {seg : SegmentInfo}
  {d : Disk Bytes} {f : File} {res res' : ReplayResult} {st st' : σ} {scan : ScanResult}

theorem replayLoop_healthy (seg : SegmentInfo) (hread : Disk.read d seg.path = some f)
    (hscan : scanSegment (visitRecord minLSN apply) f.bytes (res, st) = .ok (scan, res', st'))
    (hfault : scan.fault = .none) (later : List SegmentInfo) :
    replayLoop minLSN unsafeTruncate apply (seg :: later) d res st =
      replayLoop minLSN unsafeTruncate apply later d
        { res' with resumePath := some seg.path, resumeOffset := scan.lastGoodOffset } st' := by
  rw [replayLoop, hread]
  simp only [hscan]
  exact if_pos hfault

theorem replayLoop_torn (seg : SegmentInfo) (hread : Disk.read d seg.path = some f)
    (hscan : scanSegment (visitRecord minLSN apply) f.bytes (res, st) = .ok (scan, res', st'))
    (hfault : scan.fault ≠ .none) (hcorrupt : scan.fault ≠ .corrupt) :
    ∃ res'' : ReplayResult, res''.resumePath = some seg.path ∧
      res''.resumeOffset = scan.lastGoodOffset ∧ res''.lastLSN = res'.lastLSN ∧
      replayLoop minLSN unsafeTruncate apply [seg] d res st =
        .ok (res'', st', truncateSegment d seg.path scan.lastGoodOffset) := by
  have hgo : ¬ ((([] : List SegmentInfo) ≠ [] ∨ scan.fault = .corrupt) ∧ unsafeTruncate = false) :=
    fun hc => hc.1.elim (fun hne => hne rfl) hcorrupt
  rw [replayLoop, hread]
  simp only [hscan, if_neg hfault, if_neg hgo]
  refine ⟨_, ?_, ?_, ?_, rfl⟩ <;> rfl

end Segment

/-! ## Records visited -/

section Visit

variable {rs : List Record}

/-- The highest LSN among `rs`, or 0. -/
def topLSN (rs : List Record) : ℕ := rs.foldl (fun m r => max m r.lsn) 0

theorem foldl_max_eq (m : ℕ) (rs : List Record) :
    rs.foldl (fun m r => max m r.lsn) m = max m (topLSN rs) := by
  induction rs generalizing m with
  | nil => exact (Nat.max_eq_left (Nat.zero_le m)).symm
  | cons r rs ih =>
    rw [topLSN, List.foldl_cons, List.foldl_cons, ih, ih (max 0 r.lsn), Nat.zero_max, Nat.max_assoc]

theorem topLSN_append (rs rs' : List Record) : topLSN (rs ++ rs') = max (topLSN rs) (topLSN rs') := by
  rw [topLSN, List.foldl_append, ← topLSN, foldl_max_eq]

theorem topLSN_cons (r : Record) (rs : List Record) : topLSN (r :: rs) = max r.lsn (topLSN rs) := by
  rw [topLSN, List.foldl_cons, foldl_max_eq, Nat.zero_max]

theorem le_topLSN {r : Record} (h : r ∈ rs) : r.lsn ≤ topLSN rs := by
  induction rs with
  | nil => cases h
  | cons x rs ih =>
    rw [topLSN_cons]
    rcases List.mem_cons.mp h with rfl | h
    · exact Nat.le_max_left _ _
    · exact (ih h).trans (Nat.le_max_right _ _)

theorem visit_zero_lastLSN (res : ReplayResult) (r : Record) :
    (res.visit 0 r).lastLSN = max res.lastLSN r.lsn := by
  unfold ReplayResult.visit
  split_ifs with h h'
  · show res.lastLSN = _
    omega
  · show r.lsn = _
    omega
  · show res.lastLSN = _
    omega

theorem foldl_visit_zero_lastLSN (res : ReplayResult) (rs : List Record) :
    (rs.foldl (ReplayResult.visit 0) res).lastLSN = max res.lastLSN (topLSN rs) := by
  induction rs generalizing res with
  | nil => exact (Nat.max_eq_left (Nat.zero_le _)).symm
  | cons r rs ih => rw [List.foldl_cons, ih, visit_zero_lastLSN, topLSN_cons, Nat.max_assoc]

/-- The callback applies the records above `minLSN`, and counts all of them. -/
theorem foldlM_visitRecord (minLSN : ℕ) (apply : σ → Record → Except ε σ) (rs : List Record)
    (res : ReplayResult) (st : σ) :
    rs.foldlM (visitRecord minLSN apply) (res, st) =
      ((rs.filter fun r => minLSN < r.lsn).foldlM apply st).map fun st =>
        (rs.foldl (ReplayResult.visit minLSN) res, st) := by
  induction rs generalizing res st with
  | nil => rfl
  | cons r rs ih =>
    rw [List.foldlM_cons, List.foldl_cons, visitRecord]
    by_cases hr : r.lsn ≤ minLSN
    · rw [if_pos hr, List.filter_cons_of_neg (by simpa using hr)]
      exact ih (res.visit minLSN r) st
    · rw [if_neg hr, List.filter_cons_of_pos (by simpa using hr), List.foldlM_cons]
      dsimp only
      cases apply st r with
      | error e => rfl
      | ok st' => exact ih (res.visit minLSN r) st'

theorem foldlM_visitRecord_collect (hpos : ∀ r ∈ rs, 0 < r.lsn) (res : ReplayResult)
    (st : List Record) :
    rs.foldlM (visitRecord 0 collect) (res, st) =
      .ok (rs.foldl (ReplayResult.visit 0) res, st ++ rs) := by
  rw [foldlM_visitRecord, List.filter_eq_self.mpr (by simpa using hpos), foldlM_collect]
  rfl

end Visit

end KvStore
