import KvStore.Wal.Truncate

/-!
# The offline inspector

Model of `walReplay` in `cmd/kvctl/main.go`: the records of a log directory are replayed into two
maps in memory, and these are printed. It goes through `Replay`, with `unsafeTruncate` set.

* `walReplay_sameFiles_iff`: the files are as they were if and only if no segment has a fault,
  except that the last one may be an empty file.
* `walReplay_deletes_segment`: a segment that lacks its last byte is cut back to its last whole
  record, and the segment after it is removed.
-/

namespace KvStore

open KvStore.Common

/-! ## The code -/

/-- The `opts` that `walReplay` reads (main.go lines 64–74). -/
structure ReplayOpts where
  fromLSN : ℕ
  toLSN : ℕ
  limit : ℤ

/-- `state`, `expiry` and `applied` (lines 593–595). -/
structure Inspected where
  state : AList (fun _ : Bytes => Bytes)
  expiry : AList (fun _ : Bytes => UInt64)
  applied : ℕ

/-- The callback given to `Replay` (lines 597–625). It has no error to return. -/
def inspectRecord (o : ReplayOpts) (st : Inspected) (r : Record) : Except Empty Inspected :=
  if o.toLSN > 0 ∧ r.lsn > o.toLSN then .ok st
  else
    let st := match r.type with
      | .set =>
        { st with
          state := st.state.insert r.key r.value
          expiry := if r.expireAtMs ≠ 0 then st.expiry.insert r.key r.expireAtMs
            else st.expiry.erase r.key }
      | .delete => { st with state := st.state.erase r.key, expiry := st.expiry.erase r.key }
      | .expire =>
        if (st.state.lookup r.key).isSome then
          { st with
            expiry := if r.expireAtMs = 0 then st.expiry.erase r.key
              else st.expiry.insert r.key r.expireAtMs }
        else st
      | .segmentHdr => st
    .ok { st with applied := st.applied + 1 }

/-- What `walReplay` prints (lines 630–658): the counts, the note about a truncation, and for each
    key the length of its value and its deadline. -/
structure InspectReport where
  applied : ℕ
  segments : ℕ
  skipped : ℕ
  fromLSN : ℕ
  note : Option (Option Bytes × ℕ × Option (Fault × Option FaultErr))
  keys : ℕ
  withTTL : ℕ
  lines : List (Bytes × ℕ × Option UInt64)
  more : ℕ

/-- The report (lines 630–658). The keys are sorted, and `limit` of them shown. -/
def inspectReport (o : ReplayOpts) (res : ReplayResult) (st : Inspected) : InspectReport :=
  let keys := st.state.keys.mergeSort fun a b => decide (a ≤ b)
  let limit := if o.limit ≤ 0 ∨ o.limit > keys.length then keys.length else o.limit.toNat
  { applied := st.applied
    segments := res.segments
    skipped := res.skipped
    fromLSN := o.fromLSN
    note := if res.truncated then some (res.truncatedPath, res.truncatedAt, res.truncateReason)
      else none
    keys := st.state.keys.length
    withTTL := st.expiry.keys.length
    lines := (keys.take limit).map fun k =>
      (k, ((st.state.lookup k).getD []).length, st.expiry.lookup k)
    more := keys.length - limit }

/-- `walReplay` (lines 592–660): the report or the error of `Replay`, and the directory. An error
    comes from the scan of a segment, before any file is changed. -/
def walReplay (d : Disk Bytes) (o : ReplayOpts) :
    Except (ReplayError Empty) InspectReport × Disk Bytes :=
  match replay d o.fromLSN true (inspectRecord o) ⟨∅, ∅, 0⟩ with
  | .error e => (.error e, d)
  | .ok (res, st, d') => (.ok (inspectReport o res st), d')

/-! ## The files -/

/-- The same files with the same bytes. -/
def SameFiles (d d' : Disk Bytes) : Prop :=
  ∀ path, (Disk.read d' path).map File.bytes = (Disk.read d path).map File.bytes

/-- The segment's file is there, and `ScanSegment` finds no fault in it. -/
def HealthyFile (d : Disk Bytes) (seg : SegmentInfo) : Prop :=
  ∃ f, Disk.read d seg.path = some f ∧ healthy f.bytes = true

/-- No segment has a fault, except that the last one may be an empty file. -/
def Intact (d : Disk Bytes) (segs : List SegmentInfo) : Prop :=
  (∀ seg ∈ segs.dropLast, HealthyFile d seg) ∧
    ∀ seg ∈ segs.getLast?, HealthyFile d seg ∨ ∃ f, Disk.read d seg.path = some f ∧ f.bytes = []

section

variable {d : Disk Bytes} {seg : SegmentInfo} {later : List SegmentInfo} {f : File}

theorem intact_cons_of_healthy (h : HealthyFile d seg) :
    Intact d (seg :: later) ↔ Intact d later := by
  cases later with
  | nil => exact ⟨fun _ => ⟨nofun, nofun⟩, fun _ => ⟨nofun, fun x hx => by cases hx; exact .inl h⟩⟩
  | cons next later =>
    unfold Intact
    rw [List.dropLast_cons_cons, List.forall_mem_cons, List.getLast?_cons_cons]
    exact ⟨fun hi => ⟨hi.1.2, hi.2⟩, fun hi => ⟨⟨h, hi.1⟩, hi.2⟩⟩

theorem intact_cons_of_faulty (hread : Disk.read d seg.path = some f)
    (hfault : healthy f.bytes = false) :
    Intact d (seg :: later) ↔ f.bytes = [] ∧ later = [] := by
  have hnot : ¬ HealthyFile d seg := by
    rintro ⟨g, hg, hhealthy⟩
    rw [hread] at hg
    cases hg
    rw [hfault] at hhealthy
    cases hhealthy
  cases later with
  | nil =>
    refine ⟨fun hi => ⟨?_, rfl⟩, fun hi => ⟨nofun, fun x hx => ?_⟩⟩
    · obtain ⟨g, hg, hnil⟩ := (hi.2 seg rfl).resolve_left hnot
      rw [hread] at hg
      cases hg
      exact hnil
    · cases hx
      exact .inr ⟨f, hread, hi.1⟩
  | cons next later =>
    refine ⟨fun hi => absurd (hi.1 seg ?_) hnot, fun hi => nomatch hi.2⟩
    rw [List.dropLast_cons_cons]
    exact List.mem_cons_self

/-- Behind a fault there are bytes, except in an empty file. -/
theorem scanSegment_fault (b : Bytes) :
    ∃ (res : ScanResult) (rs : List Record), (res.fault = .none ↔ healthy b = true) ∧
      (res.fault ≠ .none → b = [] ∨ res.lastGoodOffset < b.length) ∧
      ∀ {σ ε : Type} (fn : σ → Record → Except ε σ) (st : σ),
        scanSegment fn b st = rs.foldlM fn st >>= fun st => .ok (res, st) := by
  obtain ⟨res, rs, hfound, hscan⟩ := scanSegment_finds b
  refine ⟨res, rs, ?_, fun hfault => ?_, hscan⟩
  · rw [healthy, hscan, foldlM_ok]
    exact decide_eq_true_iff.symm
  · rcases hfound with ⟨hzero, -, -⟩ | ⟨hdr, tail, hfinds⟩
    · rw [hzero]
      cases b with
      | nil => exact .inl rfl
      | cons x b => exact .inr (Nat.succ_pos _)
    · obtain ⟨version, hparse⟩ := hfinds.parse
      obtain ⟨rest, rfl, hparses⟩ := hfinds.records
      have htail : 0 < tail.length := List.length_pos_iff.mpr fun h => hfault (hfinds.fault.mpr h)
      right
      rw [hfinds.offset, hparses.split, List.length_append, List.length_append,
        length_appendRecord, encodedLen_of_parseSegmentHeader hparse]
      omega

/-- Cutting a segment back at `offset` and removing the later ones changes nothing if and only if
    there is nothing to cut and no later segment. -/
theorem sameFiles_cut (hread : Disk.read d seg.path = some f)
    (hlater : ∀ s ∈ later, ∃ f, Disk.read d s.path = some f) {offset : ℕ}
    (hoffset : f.bytes = [] ∨ offset < f.bytes.length) :
    SameFiles d (later.foldl (fun d seg => Disk.remove d seg.path)
      (truncateSegment d seg.path offset)) ↔ f.bytes = [] ∧ later = [] := by
  constructor
  · intro h
    have hnil : later = [] := by
      cases later with
      | nil => rfl
      | cons next later =>
        obtain ⟨g, hg⟩ := hlater next List.mem_cons_self
        have hnext := h next.path
        rw [Disk.foldl_remove, hg, Disk.read_eq_none (by simp)] at hnext
        cases hnext
    subst hnil
    refine ⟨?_, rfl⟩
    have hseg := h seg.path
    rw [List.foldl_nil, truncateSegment, Disk.read_modify, hread, Option.map_some, if_pos rfl] at hseg
    have hbytes : f.bytes.take offset = f.bytes := Option.some.inj hseg
    refine hoffset.resolve_right fun hlt => ?_
    have hlen := congrArg List.length hbytes
    rw [List.length_take] at hlen
    omega
  · rintro ⟨hnil, rfl⟩ path
    rw [List.foldl_nil, truncateSegment, Disk.read_modify]
    by_cases hpath : path = seg.path
    · rw [hpath, hread, Option.map_some, if_pos rfl]
      show some (f.bytes.take offset) = some f.bytes
      rw [hnil, List.take_nil]
    · simp only [if_neg hpath, Option.map_id']

end

/-! ## Replay with `unsafeTruncate` -/

section

variable {σ ε : Type} {apply : σ → Record → Except ε σ} {d : Disk Bytes}

/-- A callback without errors. -/
theorem foldlM_visitRecord_ok (minLSN : ℕ) (happly : ∀ st r, ∃ st', apply st r = .ok st') (rs : List Record)
    (res : ReplayResult) (st : σ) :
    ∃ acc, rs.foldlM (visitRecord minLSN apply) (res, st) = .ok acc := by
  induction rs generalizing res st with
  | nil => exact ⟨_, rfl⟩
  | cons r rs ih =>
    obtain ⟨st', hst'⟩ := happly st r
    rw [List.foldlM_cons, visitRecord, hst']
    split_ifs
    · exact ih _ st
    · exact ih _ st'

theorem replayLoop_sameFiles_iff (minLSN : ℕ) (happly : ∀ st r, ∃ st', apply st r = .ok st')
    {segs : List SegmentInfo} (hfiles : ∀ seg ∈ segs, ∃ f, Disk.read d seg.path = some f)
    (res : ReplayResult) (st : σ) :
    ∃ res' st' d', replayLoop minLSN true apply segs d res st = .ok (res', st', d') ∧
      (SameFiles d d' ↔ Intact d segs) := by
  induction segs generalizing res st with
  | nil => exact ⟨res, st, d, rfl, fun _ => ⟨nofun, nofun⟩, fun _ _ => rfl⟩
  | cons seg later ih =>
    obtain ⟨⟨f, hread⟩, hlater⟩ := List.forall_mem_cons.mp hfiles
    obtain ⟨scan, rs, hhealthy, hoffset, hscan⟩ := scanSegment_fault f.bytes
    obtain ⟨⟨res₁, st₁⟩, hfold⟩ := foldlM_visitRecord_ok minLSN happly rs res st
    have hrun := hscan (visitRecord minLSN apply) (res, st)
    rw [hfold] at hrun
    by_cases hfault : scan.fault = .none
    · rw [replayLoop_healthy seg hread hrun hfault, intact_cons_of_healthy ⟨f, hread, hhealthy.mp hfault⟩]
      exact ih hlater _ st₁
    · have hfalse : healthy f.bytes = false := Bool.eq_false_iff.mpr (mt hhealthy.mpr hfault)
      have hrun : scanSegment (visitRecord minLSN apply) f.bytes (res, st) =
          .ok (scan, res₁, st₁) := hrun
      rw [intact_cons_of_faulty hread hfalse, ← sameFiles_cut hread hlater (hoffset hfault), replayLoop,
        hread]
      simp only [hrun, if_neg hfault, Bool.true_eq_false, and_false, if_false]
      exact ⟨_, _, _, rfl, Iff.rfl⟩

theorem exists_read_of_listed {seg : SegmentInfo} (h : seg ∈ listSegments d) :
    ∃ f, Disk.read d seg.path = some f := by
  have hmem : seg ∈ d.filterMap segmentInfo := (List.mem_insertionSort _).mp h
  obtain ⟨p, hp, hinfo⟩ := List.mem_filterMap.mp hmem
  obtain ⟨lsn, -, rfl⟩ := Option.map_eq_some_iff.mp hinfo
  cases hread : Disk.read d p.1 with
  | some f => exact ⟨f, rfl⟩
  | none =>
    rw [Disk.read, Option.map_eq_none_iff, List.find?_eq_none] at hread
    exact absurd (decide_eq_true rfl) (hread p hp)

end

theorem inspectRecord_ok (o : ReplayOpts) (st : Inspected) (r : Record) :
    ∃ st', inspectRecord o st r = .ok st' := by
  cases inspectRecord o st r with
  | error e => nomatch e
  | ok st' => exact ⟨st', rfl⟩

/-- `kvctl wal replay` leaves the files as they were if and only if no segment has a fault, except
    that the last one may be an empty file. -/
theorem walReplay_sameFiles_iff (d : Disk Bytes) (o : ReplayOpts) :
    SameFiles d (walReplay d o).2 ↔ Intact d (listSegments d) := by
  obtain ⟨res, st, d', hloop, hiff⟩ := replayLoop_sameFiles_iff o.fromLSN
    (inspectRecord_ok o) (fun seg hseg => exists_read_of_listed hseg)
    ⟨(listSegments d).length, 0, 0, 0, o.fromLSN, 0, none, 0, false, 0, none, none, false⟩
    ⟨∅, ∅, 0⟩
  rw [← hiff, walReplay, replay]
  dsimp only
  by_cases hnil : listSegments d = []
  · rw [hnil] at hloop
    cases hloop
    rw [if_pos hnil]
  · rw [if_neg hnil, hloop]

/-- A log of one segment with one record. -/
theorem walReplay_sameFiles_healthy :
    SameFiles [SegmentImage.sealedEntry ⟨1, 0, [⟨1, 0, .set, 0, [107], [118], 0⟩]⟩]
      (walReplay [SegmentImage.sealedEntry ⟨1, 0, [⟨1, 0, .set, 0, [107], [118], 0⟩]⟩]
        ⟨0, 0, 100⟩).2 := by
  have hlist : listSegments [SegmentImage.sealedEntry ⟨1, 0, [⟨1, 0, .set, 0, [107], [118], 0⟩]⟩] =
      [⟨segmentName 1, 1, 94⟩] := by decide +kernel
  refine (walReplay_sameFiles_iff _ ⟨0, 0, 100⟩).mpr ?_
  rw [hlist]
  refine ⟨nofun, fun seg hseg => .inl ?_⟩
  cases hseg
  exact ⟨_, rfl, by decide +kernel⟩

/-- Two segments with one record each. The last byte of the first one is missing. -/
def tornFirstLog : Disk Bytes :=
  [(segmentName 1, ⟨(SegmentImage.bytes ⟨1, 0, [⟨1, 0, .set, 0, [107], [118], 0⟩]⟩).dropLast, 93⟩),
    SegmentImage.sealedEntry ⟨2, 0, [⟨2, 0, .set, 0, [107], [119], 0⟩]⟩]

/-- The first segment is cut back to its header, and the second one removed, with its record. -/
theorem walReplay_deletes_segment :
    (tornFirstLog.map fun p => (p.1, p.2.bytes.length)) =
        [(segmentName 1, 93), (segmentName 2, 94)] ∧
      ((walReplay tornFirstLog ⟨0, 0, 100⟩).2.map fun p => (p.1, p.2.bytes.length)) =
        [(segmentName 1, 52)] := by
  constructor
  · decide +kernel
  · decide +kernel

end KvStore
