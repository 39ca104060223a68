import KvStore.Wal.Durability
import KvStore.Wal.ValidPrefix

/-!
# The log is dense and in order

One writer, from `Open` to the end of `run`, without I/O errors and without a crash, under
any fsync policy. What the segment files hold is said in the words of the readers:
`logSegments` lists them as `ListSegments` does, each with the records `ScanSegment` finds.

* `writer_log_dense`: the accepted submissions stand in the files in the order of their
  LSNs, which have no gaps, each segment's between its own name and the next one, and
  every commit is finished with nil by the time `run` returns.
* `start_below_name_disorders`: what happens when `Open` resumes a segment that is named
  above its start LSN, and when a name needs more than sixteen digits.
-/

namespace KvStore

open KvStore.Common

variable {o : WriterOptions} {w w' : Writer} {L L' : Layout} {s s' : WalSys} {a : WalAction}
  {d d' : Disk Bytes}

/-! ## What the segment files hold -/

/-- What the files of the directory `L` hold. -/
def Layout.segments (L : Layout) : List (ℕ × List Record) :=
  L.sealed.map (fun x => (x.firstLSN, x.records)) ++ [(L.last.firstLSN, L.last.whole L.size)]

theorem scannedRecords_image {x : SegmentImage} (h : x.Fits) {n : ℕ} (hn : n ≤ x.bytes.length) :
    scannedRecords (x.bytes.take n) = x.whole n := by
  obtain ⟨res, -, hscan⟩ := scanSegment_image collect h hn
  have hrun := hscan []
  rw [foldlM_collect, List.nil_append] at hrun
  unfold scannedRecords
  rw [hrun]
  rfl

theorem Layout.logSegments_disk (L : Layout) : logSegments L.disk = L.segments := by
  unfold logSegments Layout.segments
  rw [L.listSegments_disk, List.map_append, List.map_map]
  congr 1
  · refine List.map_congr_left fun x hx => ?_
    have hscan := scannedRecords_image (L.sealed_fits hx) le_rfl
    rw [List.take_length, SegmentImage.whole_length] at hscan
    simp only [Function.comp_apply, SegmentImage.info, L.read_sealed hx, Option.map_some,
      Option.getD_some, hscan]
  · simp only [List.map_singleton, SegmentImage.info, L.read_last, Option.map_some,
      Option.getD_some, scannedRecords_image L.last_fits L.size_le]

theorem Layout.flatMap_segments (L : Layout) : L.segments.flatMap Prod.snd = L.present := by
  rw [Layout.segments, List.flatMap_append, List.flatMap_map, List.flatMap_singleton]
  rfl

theorem Spaced.append_records {pre : List (ℕ × List Record)} {n : ℕ} {rs rs' : List Record}
    (h : Spaced (pre ++ [(n, rs)])) (hrs : ∀ r ∈ rs', n ≤ r.lsn) :
    Spaced (pre ++ [(n, rs ++ rs')]) := by
  obtain ⟨hpre, -, hlast⟩ := List.pairwise_append.mp h.below
  refine ⟨?_, List.pairwise_append.mpr ⟨hpre, List.pairwise_singleton _ _, ?_⟩⟩
  · intro x hx r hr
    rcases List.mem_append.mp hx with hx | hx
    · exact h.above x (List.mem_append_left _ hx) r hr
    · obtain rfl := List.mem_singleton.mp hx
      rcases List.mem_append.mp hr with hr | hr
      · exact h.above (n, rs) (by simp) r hr
      · exact hrs r hr
  · intro x hx y hy
    obtain rfl := List.mem_singleton.mp hy
    exact hlast x hx (n, rs) (by simp)

theorem Spaced.append_segment {segs : List (ℕ × List Record)} {n : ℕ} (h : Spaced segs)
    (hn : ∀ x ∈ segs, x.1 < n ∧ ∀ r ∈ x.2, r.lsn < n) : Spaced (segs ++ [(n, [])]) := by
  refine ⟨?_, List.pairwise_append.mpr ⟨h.below, List.pairwise_singleton _ _, ?_⟩⟩
  · intro x hx r hr
    rcases List.mem_append.mp hx with hx | hx
    · exact h.above x hx r hr
    · obtain rfl := List.mem_singleton.mp hx
      cases hr
  · intro x hx y hy
    obtain rfl := List.mem_singleton.mp hy
    exact hn x hx

/-! ## Files that are whole -/

theorem Layout.Full.healthy (h : L.Full) : L.Healthy := by
  have hcut : L.last.cut L.size = L.last := by
    rw [SegmentImage.cut, h, SegmentImage.whole_length]
  refine ⟨?_, by rw [hcut]; exact h⟩
  rw [h, SegmentImage.length_bytes]
  omega

theorem Layout.Full.sound (h : L.Full) (hpath : w.seg.path = L.last.path) : w.Sound L.disk := by
  intro f hf
  rw [hpath, L.read_last] at hf
  cases hf
  exact L.healthy_iff.mpr h.healthy

/-- A directory whose last file, too, ends with a whole record. -/
def HealthyLog (d : Disk Bytes) : Prop := ∃ L : Layout, L.Full ∧ L.disk = d

theorem Layout.Healthy.log (h : L.Healthy) : HealthyLog L.disk :=
  ⟨L.replayed, h.replayed_full, by rw [L.replayed_disk, if_pos h]⟩

/-! ## Writers that have not failed -/

/-- `run` has returned. -/
def Writer.Returned (w : Writer) : Prop := w.stage = .closing ∨ w.stage = .stopped

/-- `rotate` has begun and the new file is not there yet. -/
def Stage.Rotating : Stage → Prop
  | .rotateSync _ => True
  | .rotateClose _ => True
  | .create _ .create => True
  | _ => False

/-- The stages in which the segment in hand is open. -/
def Stage.Open (st : Stage) : Prop := (∀ b c, st ≠ .create b c) ∧ st ≠ .stopped

/-- Nothing has failed: the segment in hand is open and its file is sound unless a new one
    is being made, for which the name is free. -/
structure Writer.Live (w : Writer) (d : Disk Bytes) : Prop where
  fatal : w.fatal = false
  opened : w.stage.Open → w.seg.closed = false
  sound : w.stage.Open → w.Sound d
  free : w.stage.Rotating → Disk.read d (segmentName (firstLSN w.stage.pending)) = none
  returned : w.Returned → w.queue = [] ∧ w.closed = true
  stopped : w.stage = .stopped → HealthyLog d

/-- As long as `run` has not returned, nothing is said of the queue and of the finished log. -/
theorem Writer.Live.of_running (hfatal : w.fatal = false)
    (hopened : w.stage.Open → w.seg.closed = false) (hsound : w.stage.Open → w.Sound d)
    (hfree : w.stage.Rotating → Disk.read d (segmentName (firstLSN w.stage.pending)) = none)
    (hclosing : w.stage ≠ .closing) (hstopped : w.stage ≠ .stopped) : w.Live d where
  fatal := hfatal
  opened := hopened
  sound := hsound
  free := hfree
  returned := fun hret => by
    rcases hret with hret | hret
    · exact absurd hret hclosing
    · exact absurd hret hstopped
  stopped := fun hst => absurd hst hstopped

/-- The stage does not change. -/
theorem Writer.Live.same (h : w.Live d) (hstage : w'.stage = w.stage) (hseg : w'.seg = w.seg)
    (hfatal : w'.fatal = w.fatal)
    (hqueue : w.Returned → w'.queue = w.queue ∧ w'.closed = w.closed) : w'.Live d where
  fatal := hfatal ▸ h.fatal
  opened := fun ho => hseg ▸ h.opened (hstage ▸ ho)
  sound := fun ho => by
    unfold Writer.Sound
    rw [hseg]
    exact h.sound (hstage ▸ ho)
  free := fun hr => by
    rw [hstage] at hr ⊢
    exact h.free hr
  returned := fun hr => by
    have hw : w.Returned := by
      rw [Writer.Returned, hstage] at hr
      exact hr
    obtain ⟨hq, hc⟩ := hqueue hw
    rw [hq, hc]
    exact h.returned hw
  stopped := fun hs => h.stopped (hstage ▸ hs)

/-- From one stage with an open segment to another, the files as they are. -/
theorem Writer.Live.move (h : w.Live d) (ho : w.stage.Open) (hseg : w'.seg = w.seg)
    (hfatal : w'.fatal = w.fatal) (hstop : w'.stage ≠ .stopped)
    (hfree : w'.stage.Rotating → Disk.read d (segmentName (firstLSN w'.stage.pending)) = none)
    (hret : w'.Returned → w'.queue = [] ∧ w'.closed = true) : w'.Live d where
  fatal := hfatal ▸ h.fatal
  opened := fun _ => hseg ▸ h.opened ho
  sound := fun _ => by
    unfold Writer.Sound
    rw [hseg]
    exact h.sound ho
  free := hfree
  returned := hret
  stopped := fun hs => absurd hs hstop

theorem Stage.open_idle : Stage.Open .idle := ⟨nofun, nofun⟩

theorem Stage.open_gather (b : List Record) : Stage.Open (.gather b) := ⟨nofun, nofun⟩

theorem Stage.open_finish (b : List Record) (ok : Bool) : Stage.Open (.finish b ok) := ⟨nofun, nofun⟩

theorem Writer.Live.check (h : w.Live d) {r : Record} (hstep : w.check r = some w') : w'.Live d := by
  unfold Writer.check at hstep
  split_ifs at hstep
  cases hstep
  exact h.same rfl rfl rfl fun _ => ⟨rfl, rfl⟩

theorem Writer.Live.close (h : w.Live d) : Writer.Live { w with closed := true } d where
  fatal := h.fatal
  opened := h.opened
  sound := h.sound
  free := h.free
  returned := fun hr => ⟨(h.returned hr).1, rfl⟩
  stopped := h.stopped

theorem Writer.Live.send (h : w.Live d) {i : ℕ} {nowMs : UInt64} {x : Option Record}
    (hstep : w.send o i nowMs = some (x, w')) : w'.Live d := by
  unfold Writer.send at hstep
  split at hstep
  · cases hstep
  · split_ifs at hstep with hclosed
    · cases hstep
      exact h.same rfl rfl rfl fun _ => ⟨rfl, rfl⟩
    · cases hstep
      exact h.same rfl rfl rfl fun hr => absurd (h.returned hr).2 hclosed

theorem Writer.Live.take (h : w.Live d) (hstep : w.take = some w') : w'.Live d := by
  unfold Writer.take at hstep
  split at hstep
  · next r queue hstage hqueue =>
    cases hstep
    exact h.move (hstage ▸ Stage.open_idle) rfl rfl nofun nofun nofun
  · next hstage hqueue =>
    split_ifs at hstep with hclosed
    cases hstep
    exact h.move (hstage ▸ Stage.open_idle) rfl rfl nofun nofun fun _ => ⟨hqueue, hclosed⟩
  · cases hstep

theorem Writer.Live.gather (h : w.Live d) (hstep : w.gather o = some w') : w'.Live d := by
  unfold Writer.gather at hstep
  split at hstep
  · next batch r queue hstage hqueue =>
    split_ifs at hstep
    cases hstep
    exact h.move (hstage ▸ Stage.open_gather batch) rfl rfl nofun nofun nofun
  · cases hstep

theorem Writer.Live.finish (h : w.Live d) {x : Option (Record × Bool)}
    (hstep : w.finish = some (x, w')) : w'.Live d := by
  unfold Writer.finish at hstep
  split at hstep
  · next r batch ok hstage =>
    cases hstep
    exact h.move (hstage ▸ Stage.open_finish _ ok) rfl rfl nofun nofun nofun
  · next ok hstage =>
    cases hstep
    exact h.move (hstage ▸ Stage.open_finish _ ok) rfl rfl nofun nofun nofun
  · cases hstep

/-- A flush rotates only a file that has records, all of them below the batch. -/
theorem Writer.Live.flush (h : w.Live L.disk) (hinv : w.Inv o L) (hspaced : Spaced L.segments)
    (hsize : segmentHdrLen < o.segmentSize) (hstep : w.flush o = some w') : w'.Live L.disk := by
  unfold Writer.flush at hstep
  split at hstep
  · next b hstage =>
    cases hstep
    have ho : w.stage.Open := hstage ▸ Stage.open_gather b
    have hagrees := hinv.agrees
    rw [hstage] at hagrees
    obtain ⟨hne, hseg⟩ := hagrees
    have htracks := hseg.resolve_left (by simp [h.opened ho])
    refine h.move ho rfl rfl ?_ ?_ ?_
    · split_ifs <;> exact nofun
    · intro hrot
      split_ifs at hrot with hfull
      · rw [if_pos hfull]
        show Disk.read L.disk (segmentName (firstLSN b)) = none
        have hgood := (htracks.healthy (h.sound ho)).2
        have hsame := htracks.size
        rw [SegmentImage.length_bytes] at hgood
        have hrecords : (L.last.cut L.size).records ≠ [] := by
          intro hnil
          rw [hnil] at hgood
          simp only [encodeRecords_nil, List.length_nil] at hgood
          omega
        obtain ⟨r, hr⟩ := List.exists_mem_of_ne_nil _ hrecords
        obtain ⟨r₀, hr₀, hlsn⟩ := exists_firstLSN hne
        have hrest : r₀ ∈ w.rest := by
          rw [Writer.rest, hstage]
          exact List.mem_append_left _ hr₀
        have hlast : L.last.firstLSN ≤ r.lsn :=
          hspaced.above (L.last.firstLSN, L.last.whole L.size) (by simp [Layout.segments]) r hr
        have hlt : r.lsn < r₀.lsn :=
          (List.pairwise_append.mp hinv.follows.admits.order).2.2 r
            (List.mem_append_right _ ((L.last.whole_sublist L.size).subset hr)) r₀ hrest
        exact L.read_new (hlsn ▸ (hinv.follows.named r₀ hrest).2) (by omega)
      · exact absurd hrot (by simp [Stage.Rotating])
    · rintro (hr | hr) <;> split_ifs at hr
  · cases hstep

/-- `File.sync` changes no bytes. -/
theorem Writer.Sound.sync (h : w.Sound d) (path : Bytes) (hseg : w'.seg.path = w.seg.path) :
    w'.Sound (Disk.modify d path File.sync) := by
  intro f hf
  rw [Disk.read_modify, hseg] at hf
  obtain ⟨g, hg, rfl⟩ := Option.map_eq_some_iff.mp hf
  split_ifs
  · exact h g hg
  · exact h g hg

theorem read_modify_none {path name : Bytes} (h : Disk.read d name = none) (g : File → File) :
    Disk.read (Disk.modify d path g) name = none := by
  rw [Disk.read_modify, h]
  rfl

/-- A system call that succeeds. -/
theorem Writer.Live.call (h : w.Live L.disk) (hinv : w.Inv o L) {nowMs : UInt64}
    (hstep : w.call o L.disk .ok nowMs = some (w', d')) : w'.Live d' := by
  have hagrees := hinv.agrees
  unfold Writer.call at hstep
  split at hstep
  · next b hstage =>
    have ho : w.stage.Open := hstage ▸ ⟨by simp, by simp⟩
    have hopen := h.opened ho
    have hsync : w.seg.sync L.disk .ok = some (Disk.modify L.disk w.seg.path File.sync) :=
      if_neg (by simp [hopen])
    simp only [hsync] at hstep
    cases hstep
    have hfree := h.free (hstage ▸ trivial)
    rw [hstage] at hfree
    exact .of_running h.fatal (fun _ => hopen) (fun _ => (h.sound ho).sync _ rfl)
      (fun _ => read_modify_none hfree _) (by simp) (by simp)
  · next b hstage =>
    cases hstep
    have hfree := h.free (hstage ▸ trivial)
    rw [hstage] at hfree
    exact .of_running h.fatal (fun ho => absurd rfl (ho.1 b .create))
      (fun ho => absurd rfl (ho.1 b .create)) (fun _ => hfree) (by simp) (by simp)
  · next b c hstage =>
    rw [hstage] at hagrees
    by_cases hc : c = .create
    · subst hc
      have hfree := h.free (hstage ▸ trivial)
      rw [hstage] at hfree
      have hcreate : createStep L.disk (firstLSN b) nowMs .ok .create =
          (Disk.create L.disk (segmentName (firstLSN b)), .next .writeHeader) :=
        if_neg (by simp [show Disk.read L.disk (segmentName (firstLSN b)) = none from hfree])
      simp only [hcreate] at hstep
      cases hstep
      exact .of_running h.fatal (fun ho => absurd rfl (ho.1 b .writeHeader))
        (fun ho => absurd rfl (ho.1 b .writeHeader)) (fun hrot => hrot.elim) (by simp) (by simp)
    · obtain ⟨hne, hclosed, hfresh⟩ :
          b ≠ [] ∧ w.seg.closed = true ∧ L.Fresh (firstLSN b) c.written := by
        cases c with
        | create => exact absurd rfl hc
        | _ => exact hagrees
      obtain ⟨L', m, out, hcreate, -, hfresh', hout⟩ := hfresh.createStep_eq hc nowMs .ok
      simp only [hcreate] at hstep
      rcases hout with ⟨c', rfl, hc', rfl⟩ | ⟨rfl, rfl⟩ | ⟨-, hres⟩
      · cases hstep
        refine .of_running h.fatal (fun ho => absurd rfl (ho.1 b c'))
          (fun ho => absurd rfl (ho.1 b c')) ?_ (by simp) (by simp)
        intro hrot
        cases c' with
        | create => exact absurd rfl hc'
        | _ => exact hrot.elim
      · cases hstep
        have hpath : segmentName (firstLSN b) = L'.last.path := by
          rw [SegmentImage.path, hfresh'.name]
        exact .of_running h.fatal (fun _ => rfl) (fun _ => hfresh'.full.sound hpath)
          (fun hrot => hrot.elim) (by simp) (by simp)
      · exact absurd rfl hres
  · next b hstage =>
    have ho : w.stage.Open := hstage ▸ ⟨by simp, by simp⟩
    rw [hstage] at hagrees
    obtain ⟨htracks, hfull⟩ := hagrees.resolve_left (by simp [h.opened ho])
    have hrest : w.rest = b ++ w.queue := by rw [Writer.rest, hstage]; rfl
    obtain ⟨k, hwrite, hfull'⟩ := htracks.write_eq hfull (hrest ▸ hinv.follows.admits).left .ok
    simp only [hwrite, decide_true] at hstep
    have hsound : ∀ w₁ : Writer, w₁.seg.path = w.seg.path →
        w₁.Sound (L.append b _ hfull k).disk := fun w₁ hp =>
      (hfull' rfl).sound (hp.trans htracks.path)
    cases hpolicy : o.fsync with
    | always =>
      simp only [hpolicy] at hstep
      cases hstep
      exact .of_running h.fatal (fun _ => htracks.opened) (fun _ => hsound _ rfl)
        (fun hrot => hrot.elim) (by simp) (by simp)
    | everySec =>
      simp only [hpolicy] at hstep
      cases hstep
      exact .of_running h.fatal (fun _ => htracks.opened) (fun _ => hsound _ rfl)
        (fun hrot => hrot.elim) (by simp) (by simp)
    | no =>
      simp only [hpolicy] at hstep
      cases hstep
      exact .of_running h.fatal (fun _ => htracks.opened) (fun _ => hsound _ rfl)
        (fun hrot => hrot.elim) (by simp) (by simp)
  · next b hstage =>
    have ho : w.stage.Open := hstage ▸ ⟨by simp, by simp⟩
    have hopen := h.opened ho
    have hsync : w.seg.sync L.disk .ok = some (Disk.modify L.disk w.seg.path File.sync) :=
      if_neg (by simp [hopen])
    simp only [hsync] at hstep
    cases hstep
    exact .of_running h.fatal (fun _ => hopen) (fun _ => (h.sound ho).sync _ rfl)
      (fun hrot => hrot.elim) (by simp) (by simp)
  · next hstage =>
    have ho : w.stage.Open := hstage ▸ ⟨by simp, by simp⟩
    rw [hstage] at hagrees
    have htracks := hagrees.resolve_left (by simp [h.opened ho])
    have hsync : w.seg.sync L.disk .ok = some L.fsync.disk := by
      rw [OpenSegment.sync, if_neg (by simp [htracks.opened]), L.fsync_disk, htracks.path]
    simp only [hsync] at hstep
    cases hstep
    have hhealthy : L.fsync.Healthy := htracks.healthy (h.sound ho)
    exact ⟨h.fatal, fun ho => absurd rfl ho.2, fun ho => absurd rfl ho.2,
      fun hrot => hrot.elim, fun _ => h.returned (.inl hstage), fun _ => hhealthy.log⟩
  · cases hstep

/-! ## The invariant of a run -/

/-- A step of a run without crashes and I/O errors, with LSNs of at most sixteen digits. -/
def WalAction.Smooth (s : WalSys) : WalAction → Prop
  | .recover => False
  | .crash _ => False
  | .call res _ => res = .ok
  | .send _ _ => ∀ w, s.proc = .running w → w.nextLSN < 10 ^ 16
  | _ => True

instance (s : WalSys) (a : WalAction) : Decidable (a.Smooth s) :=
  match a with
  | .recover | .crash _ => .isFalse id
  | .call res _ => inferInstanceAs (Decidable (res = .ok))
  | .send _ _ => inferInstanceAs (Decidable (∀ w, s.proc = .running w → w.nextLSN < 10 ^ 16))
  | .check _ | .take | .gather | .flush | .finish | .close => .isTrue trivial

/-- The writer, its directory and the histories, in a run that began with the records
    `base` in the files. -/
structure WalSys.Ordered (o : WriterOptions) (start : ℕ) (base : List Record) (s : WalSys)
    (w : Writer) (L : Layout) : Prop where
  proc : s.proc = .running w
  disk : s.disk = L.disk
  inv : w.Inv o L
  dense : w.Dense start base s.accepted L
  live : w.Live L.disk
  spaced : Spaced L.segments
  finished : s.finished ++ (w.stage.inHand ++ w.rest).map (·, true) = s.accepted.map (·, true)

section Ordered

variable {start : ℕ} {base : List Record}

theorem Writer.Effect.spaced (h : w.Effect .ok L w' L') (hfatal : w'.fatal = false)
    (hinv : w.Inv o L) (hspaced : Spaced L.segments) : Spaced L'.segments := by
  cases h with
  | keep hsealed hname hpresent _ _ _ _ =>
    have hwhole : L'.last.whole L'.size = L.last.whole L.size := by
      rw [Layout.present, Layout.present, Layout.sealedRecords, hsealed] at hpresent
      exact List.append_cancel_left hpresent
    rwa [Layout.segments, hsealed, hname, hwhole]
  | rotated _ hfull hne hsealed hname hnil _ _ _ =>
    have hwhole : L'.last.whole L'.size = [] :=
      List.prefix_nil.mp (hnil ▸ L'.last.whole_sublist L'.size)
    have hsegs : L'.segments = L.segments ++ [(firstLSN w.stage.pending, [])] := by
      rw [Layout.segments, Layout.segments, hsealed, hname, hwhole, List.map_append,
        List.map_singleton, hfull, SegmentImage.whole_length]
    rw [hsegs]
    refine hspaced.append_segment fun x hx => ⟨?_, fun r hr => ?_⟩
    · have hnames : ∀ y ∈ L'.sealed, y.firstLSN < firstLSN w.stage.pending :=
        fun y hy => hname ▸ L'.lt_last hy
      rw [hsealed] at hnames
      rcases List.mem_append.mp hx with hx | hx
      · obtain ⟨y, hy, rfl⟩ := List.mem_map.mp hx
        exact hnames y (List.mem_append_left _ hy)
      · obtain rfl := List.mem_singleton.mp hx
        exact hnames L.last (by simp)
    · obtain ⟨r₀, hr₀, hlsn⟩ := exists_firstLSN hne
      have hmem : r ∈ L.present := L.flatMap_segments ▸ List.mem_flatMap.mpr ⟨x, hx, hr⟩
      rw [← hlsn]
      exact (List.pairwise_append.mp hinv.follows.admits.order).2.2 r
        (L.present_prefix.subset hmem) r₀ (List.mem_append_left _ hr₀)
  | wrote _ hfull hfull' hsealed hlast _ _ _ _ =>
    have hsegs : L'.segments = L.sealed.map (fun x => (x.firstLSN, x.records)) ++
        [(L.last.firstLSN, L.last.whole L.size ++ w.stage.pending)] := by
      rw [Layout.segments, hfull', hsealed, SegmentImage.whole_length, hlast, hfull,
        SegmentImage.whole_length]
      rfl
    rw [hsegs]
    exact hspaced.append_records fun r hr =>
      (hinv.follows.named r (List.mem_append_left _ hr)).1
  | failed _ hf _ =>
    rw [hfatal] at hf
    cases hf

theorem WalSys.Moves.spaced (h : s.Moves o .ok w L s' w' L') (hfatal : w'.fatal = false)
    (hinv : w.Inv o L) (hspaced : Spaced L.segments) : Spaced L'.segments := by
  cases h with
  | leads h _ _ => exact h.effect.spaced hfatal hinv hspaced
  | sends _ _ _ hL _ _ => exact hL ▸ hspaced
  | finishes _ _ _ _ hL _ _ _ => exact hL ▸ hspaced

/-- Files only grow: sealed segments stay, and the last one has more records or is sealed. -/
structure Layout.Grows (L L' : Layout) : Prop where
  sealed : L.sealed ⊆ L'.sealed
  last : (L'.last.firstLSN = L.last.firstLSN ∧ L.last.whole L.size ⊆ L'.last.whole L'.size) ∨
    L.last ∈ L'.sealed

theorem Layout.Grows.refl (L : Layout) : L.Grows L := ⟨fun _ => id, .inl ⟨rfl, fun _ => id⟩⟩

theorem Writer.Effect.grows (h : w.Effect .ok L w' L') (hfatal : w'.fatal = false) : L.Grows L' := by
  cases h with
  | keep hsealed hname hpresent _ _ _ _ =>
    rw [Layout.present, Layout.present, Layout.sealedRecords, Layout.sealedRecords,
      hsealed] at hpresent
    have hwhole := List.append_cancel_left hpresent
    exact ⟨hsealed ▸ fun _ => id, .inl ⟨hname, by rw [hwhole]; exact fun _ => id⟩⟩
  | rotated _ _ _ hsealed _ _ _ _ _ =>
    exact ⟨hsealed ▸ List.subset_append_left _ _, .inr (by rw [hsealed]; simp)⟩
  | wrote _ hfull hfull' hsealed hlast _ _ _ _ =>
    refine ⟨hsealed ▸ fun _ => id, .inl ⟨by rw [hlast]; rfl, ?_⟩⟩
    rw [hfull', SegmentImage.whole_length, hlast, hfull, SegmentImage.whole_length]
    exact List.subset_append_left _ _
  | failed _ hf _ =>
    rw [hfatal] at hf
    cases hf

theorem WalSys.Moves.grows (h : s.Moves o .ok w L s' w' L') (hfatal : w'.fatal = false) :
    L.Grows L' := by
  cases h with
  | leads h _ _ => exact h.effect.grows hfatal
  | sends _ _ _ hL _ _ => exact hL ▸ .refl L
  | finishes _ _ _ _ hL _ _ _ => exact hL ▸ .refl L

/-- The commits finished and those to come are the submissions, in order. -/
theorem WalSys.Moves.finished (h : s.Moves o .ok w L s' w' L') (hfatal : w.fatal = false)
    (hfatal' : w'.fatal = false)
    (hfin : s.finished ++ (w.stage.inHand ++ w.rest).map (·, true) = s.accepted.map (·, true)) :
    s'.finished ++ (w'.stage.inHand ++ w'.rest).map (·, true) = s'.accepted.map (·, true) := by
  cases h with
  | leads h hacc hfin' =>
    rw [hacc, hfin', ← hfin]
    cases h.effect with
    | keep _ _ _ hrest hhand _ _ => rw [hrest, hhand]
    | rotated _ _ _ _ _ _ hrest hhand _ => rw [hrest, hhand]
    | wrote _ _ _ _ _ hrest hempty hhand _ =>
      rw [hrest, hhand, hempty, List.nil_append]
      rfl
    | failed _ hf _ =>
      rw [hfatal'] at hf
      cases hf
  | sends r h _ _ hacc hfin' =>
    have hmore := congrArg (· ++ [(r, true)]) hfin
    simpa [hacc, hfin', h.rest, h.hand] using hmore
  | finishes r ok h _ _ _ hacc hfin' =>
    have hok : ok = true := by
      by_contra hn
      have := h.result (by simpa using hn)
      rw [hfatal] at this
      cases this
    rw [hacc, hfin', ← hfin, h.rest, h.hand, hok]
    simp

/-- The writer does not fail where no call does. -/
theorem WalSys.Ordered.step_live (h : s.Ordered o start base w L)
    (hsize : segmentHdrLen < o.segmentSize) (hok : a.Smooth s) (hstep : s.step o a = some s')
    (hproc : s'.proc = .running w') : w'.Live s'.disk := by
  cases a with
  | recover => exact hok.elim
  | crash keep => exact hok.elim
  | check r =>
    obtain ⟨w₁, hw, rfl⟩ := onWriter_eq h.proc hstep
    cases hproc
    exact h.disk ▸ h.live.check hw
  | send i nowMs =>
    rw [WalSys.step, h.proc] at hstep
    obtain ⟨⟨x, w₁⟩, hw, rfl⟩ := Option.map_eq_some_iff.mp hstep
    cases hproc
    exact h.disk ▸ h.live.send hw
  | take =>
    obtain ⟨w₁, hw, rfl⟩ := onWriter_eq h.proc hstep
    cases hproc
    exact h.disk ▸ h.live.take hw
  | gather =>
    obtain ⟨w₁, hw, rfl⟩ := onWriter_eq h.proc hstep
    cases hproc
    exact h.disk ▸ h.live.gather hw
  | flush =>
    obtain ⟨w₁, hw, rfl⟩ := onWriter_eq h.proc hstep
    cases hproc
    exact h.disk ▸ h.live.flush h.inv h.spaced hsize hw
  | call res nowMs =>
    obtain rfl : res = .ok := hok
    rw [WalSys.step, WalSys.call, h.proc] at hstep
    obtain ⟨⟨w₁, d⟩, hw, rfl⟩ := Option.map_eq_some_iff.mp hstep
    cases hproc
    rw [h.disk] at hw
    exact h.live.call h.inv hw
  | finish =>
    rw [WalSys.step, h.proc] at hstep
    obtain ⟨⟨x, w₁⟩, hw, rfl⟩ := Option.map_eq_some_iff.mp hstep
    cases hproc
    exact h.disk ▸ h.live.finish hw
  | close =>
    obtain ⟨w₁, hw, rfl⟩ := onWriter_eq h.proc hstep
    cases hproc
    split_ifs at hw
    cases hw
    exact h.disk ▸ h.live.close

/-- A smooth step is a careful one: the file in hand is sound. -/
theorem WalSys.Ordered.careful (h : s.Ordered o start base w L) (hok : a.Smooth s)
    (hstep : s.step o a = some s') : a.Careful s := by
  cases a with
  | send i nowMs => exact hok
  | flush =>
    intro w₁ hw₁
    obtain rfl : w₁ = w := by
      have := h.proc.symm.trans hw₁
      cases this
      rfl
    obtain ⟨w', hw, -⟩ := onWriter_eq h.proc hstep
    unfold Writer.flush at hw
    split at hw
    · next b hstage => exact h.disk ▸ h.live.sound (hstage ▸ Stage.open_gather b)
    · cases hw
  | _ => trivial

theorem WalSys.Ordered.step (h : s.Ordered o start base w L) (hsize : segmentHdrLen < o.segmentSize)
    (hok : a.Smooth s) (hstep : s.step o a = some s') :
    ∃ w' L', s'.Ordered o start base w' L' ∧ L.Grows L' := by
  have hres : a.result = .ok := by
    cases a with
    | call res nowMs => exact hok
    | _ => rfl
  have hcrash : ∀ keep, a ≠ .crash keep := by
    rintro keep rfl
    exact hok
  obtain ⟨w', L', hproc', hdisk', hmoves⟩ :=
    WalSys.running_step h.disk h.proc h.inv (h.careful hok hstep) hcrash hstep
  rw [hres] at hmoves
  have hlive := h.step_live hsize hok hstep hproc'
  exact ⟨w', L', ⟨hproc', hdisk', hmoves.inv, hmoves.dense h.dense, hdisk' ▸ hlive,
    hmoves.spaced hlive.fatal h.inv h.spaced,
    hmoves.finished h.live.fatal hlive.fatal h.finished⟩, hmoves.grows hlive.fatal⟩

end Ordered

/-! ## Main result -/

/-- `Open` at LSN `start`, in an empty directory or at the end of a log that earlier runs
    left behind, whose segments hold `segs`. -/
inductive WalSys.Opened (start : ℕ) : List (ℕ × List Record) → WalSys → Prop
  | fresh (hpos : 0 < start) (hsmall : start < 10 ^ 16) :
    Opened start [] ⟨[], .opening start .create, [], []⟩
  | resumed {L : Layout} {proc : Proc} {d : Disk Bytes} (hfull : L.Full) (hspaced : Spaced L.segments)
      (hpos : 0 < start) (habove : ∀ r ∈ L.records, r.lsn < start) (hname : L.last.firstLSN ≤ start)
      (hopen : openWriter L.disk start (some (L.last.path, L.size)) = some (proc, d)) :
    Opened start L.segments ⟨d, proc, [], []⟩

/-- Either `Open` is still making the first segment, or the writer is running. -/
def WalSys.OrderedFrom (o : WriterOptions) (start : ℕ) (base : List Record) (s : WalSys) : Prop :=
  (base = [] ∧ s.accepted = [] ∧ s.finished = [] ∧ 0 < start ∧ start < 10 ^ 16 ∧
    (∀ w, s.proc ≠ .running w) ∧
    (s.Empty start ∨ ∃ L m, s.Laid o L ∧ L.sealed = [] ∧ L.Fresh start m)) ∨
  ∃ w L, s.Ordered o start base w L

section Main

variable {start : ℕ} {base : List Record}

theorem Layout.Fresh.segments {f n : ℕ} (h : L.Fresh f n) (hsealed : L.sealed = []) :
    L.segments = [(f, [])] := by
  have hwhole : L.last.whole L.size = [] :=
    List.prefix_nil.mp (h.records ▸ L.last.whole_sublist L.size)
  rw [Layout.segments, hsealed, hwhole, h.name]
  rfl

theorem spaced_singleton (f : ℕ) : Spaced [(f, [])] :=
  ⟨fun x hx r hr => (by rw [List.mem_singleton.mp hx] at hr; cases hr), List.pairwise_singleton _ _⟩

/-- A writer that has just been opened. -/
theorem WalSys.Ordered.of_start {seg : OpenSegment} (hdisk : s.disk = L.disk)
    (hproc : s.proc = .running (.start start seg)) (hacc : s.accepted = []) (hfin : s.finished = [])
    (htracks : seg.Tracks L) (hfull : L.Full) (hspaced : Spaced L.segments) (hpos : 0 < start)
    (habove : ∀ r ∈ L.records, r.lsn < start) (hname : L.last.firstLSN ≤ start) :
    s.Ordered o start L.present (.start start seg) L where
  proc := hproc
  disk := hdisk
  inv := start_inv htracks habove hname hpos
  dense := hacc ▸ start_dense start seg L
  live := ⟨rfl, fun _ => htracks.opened, fun _ => hfull.sound htracks.path, nofun, nofun, nofun⟩
  spaced := hspaced
  finished := by rw [hacc, hfin]; rfl

theorem WalSys.OrderedFrom.step (h : s.OrderedFrom o start base)
    (hsize : segmentHdrLen < o.segmentSize) (hok : a.Smooth s) (hstep : s.step o a = some s') :
    s'.OrderedFrom o start base := by
  rcases h with ⟨rfl, hacc, hfin, hpos, hsmall, hproc, hfiles⟩ | ⟨w, L, h⟩
  · obtain ⟨res, nowMs, rfl, hcall⟩ := step_of_not_running hproc
      (by rintro rfl; exact hok) (by rintro keep rfl; exact hok) hstep
    have hfin' : s'.finished = [] := by
      unfold WalSys.call at hcall
      split at hcall
      · cases hcall
      · split at hcall <;> cases hcall <;> exact hfin
      · next w hw => exact absurd hw (hproc w)
    rcases hfiles with hempty | ⟨L, m, hlaid, hsealed, hfresh⟩
    · rcases hempty.call hpos hsmall hcall with hempty' | ⟨L', hlaid, hsealed, hfresh, hacc', hrun⟩
      · refine .inl ⟨rfl, hempty'.accepted, hfin', hpos, hsmall, fun w hw => ?_, .inl hempty'⟩
        rcases hempty'.proc with hp | hp <;> rw [hp] at hw <;> cases hw
      · exact .inl ⟨rfl, hacc'.trans hacc, hfin', hpos, hsmall, hrun,
          .inr ⟨L', 0, hlaid, hsealed, hfresh⟩⟩
    · cases hp : s.proc with
      | running w => exact absurd hp (hproc w)
      | down =>
        rw [WalSys.call, hp] at hcall
        cases hcall
      | opening f c =>
        have hagrees := hlaid.proc
        rw [hp] at hagrees
        have hf : f = start := hagrees.2.1.name.symm.trans hfresh.name
        subst hf
        obtain ⟨L', m', hlaid', hsealed', hfresh', hacc', hrun⟩ := hlaid.opening_call hp hcall
        by_cases hw : ∃ w, s'.proc = .running w
        · obtain ⟨w, hw⟩ := hw
          obtain rfl := hrun w hw
          have htracks := hlaid'.proc
          rw [hw] at htracks
          have htracks : (createdSegment f).Tracks L' :=
            htracks.agrees.resolve_left (by simp [createdSegment, Writer.start])
          have hrecords : L'.records = [] := by
            rw [hfresh'.records_eq, Layout.sealedRecords, hsealed']
            rfl
          have hfull : L'.Full := by
            have hm : m' = segmentHdrLen := hfresh'.size.symm.trans htracks.size.symm
            subst hm
            exact hfresh'.full
          have hpresent : L'.present = [] := hfull.present_eq.trans hrecords
          have hstart := WalSys.Ordered.of_start (o := o) hlaid'.disk hw (hacc'.trans hacc) hfin'
            htracks hfull (hfresh'.segments hsealed' ▸ spaced_singleton f) hpos
            (by rw [hrecords]; exact (by simp)) hfresh'.name.le
          rw [hpresent] at hstart
          exact .inr ⟨_, L', hstart⟩
        · exact .inl ⟨rfl, hacc'.trans hacc, hfin', hpos, hsmall, fun w hw' => hw ⟨w, hw'⟩,
            .inr ⟨L', m', hlaid', hsealed', hfresh'⟩⟩
  · obtain ⟨w', L', h', -⟩ := h.step hsize hok hstep
    exact .inr ⟨w', L', h'⟩

theorem WalSys.Opened.ordered {segs : List (ℕ × List Record)} (h : WalSys.Opened start segs s) :
    s.OrderedFrom o start (segs.flatMap Prod.snd) := by
  cases h with
  | fresh hpos hsmall =>
    exact .inl ⟨rfl, rfl, rfl, hpos, hsmall, nofun, .inl ⟨rfl, nofun, rfl, .inr rfl⟩⟩
  | @resumed L proc d hfull hspaced hpos habove hname hopen =>
    have hread := L.read_last
    have hlen := L.length_take_size
    rw [openWriter, openSegmentForAppend, hread, Option.map_some, Option.map_some,
      if_neg (by rw [hlen]; omega)] at hopen
    cases hopen
    rw [L.flatMap_segments]
    exact .inr ⟨_, L, .of_start rfl rfl rfl rfl ⟨rfl, rfl, rfl⟩ hfull hspaced hpos habove hname⟩

/-- **The log is dense and in order.** In a run of a writer without I/O errors, under any
    interleaving: the accepted submissions have the LSNs `start`, `start + 1`, and so on;
    what stands in the segment files is what stood there before and then, in order, the
    first of them, each between the name of its segment and the next one; commits are
    finished in order, with nil. When `run` has returned all submissions are in the files
    and all commits finished, and the directory is one that can be resumed. -/
theorem writer_log_dense {segs : List (ℕ × List Record)} {s₀ : WalSys}
    (hsize : 4096 ≤ o.segmentSize) (hopen : WalSys.Opened start segs s₀)
    (hrun : Run (WalSys.step o) WalAction.Smooth s₀ s) :
    s.accepted.map Record.lsn = List.range' start s.accepted.length ∧
    Spaced (logSegments s.disk) ∧ s.finished <+: s.accepted.map (·, true) ∧
    ∃ written rest, s.accepted = written ++ rest ∧
      (logSegments s.disk).flatMap Prod.snd = segs.flatMap Prod.snd ++ written ∧
      ∀ w, s.proc = .running w → w.Returned →
        rest = [] ∧ s.finished = s.accepted.map (·, true) ∧ HealthyLog s.disk := by
  have hlt : segmentHdrLen < o.segmentSize := lt_of_lt_of_le (by decide) hsize
  have hinv := hrun.invariant (fun _ _ _ h hok hstep => WalSys.OrderedFrom.step h hlt hok hstep)
    (hopen.ordered (o := o))
  rcases hinv with ⟨hbase, hacc, hfin, -, -, hproc, hfiles⟩ | ⟨w, L, h⟩
  · -- the first segment is still being made: nothing has been submitted
    have hsegs : Spaced (logSegments s.disk) ∧ (logSegments s.disk).flatMap Prod.snd = [] := by
      rcases hfiles with hempty | ⟨L, m, hlaid, hsealed, hfresh⟩
      · rw [hempty.disk]
        exact ⟨⟨(fun p hp => by cases hp), List.Pairwise.nil⟩, rfl⟩
      · rw [hlaid.disk, L.logSegments_disk, hfresh.segments hsealed]
        exact ⟨spaced_singleton start, rfl⟩
    refine ⟨by rw [hacc]; rfl, hsegs.1, by rw [hfin]; exact List.nil_prefix, [], [], hacc, ?_, ?_⟩
    · rw [hsegs.2, hbase]
      rfl
    · exact fun w hw => absurd hw (hproc w)
  · obtain ⟨written, hpresent, haccepted⟩ := h.dense.written h.live.fatal
    rw [h.disk, L.logSegments_disk, L.flatMap_segments]
    refine ⟨h.dense.lsns, h.spaced, ⟨_, h.finished⟩, written, w.rest, haccepted, hpresent, ?_⟩
    intro w' hw' hret
    obtain rfl : w' = w := by
      have := h.proc.symm.trans hw'
      cases this
      rfl
    have hqueue := (h.live.returned hret).1
    have hrest : w'.rest = [] := by
      rw [Writer.rest, hqueue]
      rcases hret with hs | hs <;> rw [hs] <;> rfl
    have hhand : w'.stage.inHand = [] := by rcases hret with hs | hs <;> rw [hs] <;> rfl
    refine ⟨hrest, ?_, ?_⟩
    · rw [← h.finished, hrest, hhand]
      exact (List.append_nil _).symm
    · rcases hret with hs | hs
      · have ho : w'.stage.Open := hs ▸ ⟨by simp, by simp⟩
        have hagrees := h.inv.agrees
        rw [hs] at hagrees
        have htracks := hagrees.resolve_left (by simp [h.live.opened ho])
        exact (htracks.healthy (h.live.sound ho)).log
      · exact h.live.stopped hs

end Main

instance (w : Writer) : Decidable w.Returned := inferInstanceAs (Decidable (_ ∨ _))

/-- One record a batch and the smallest segments, without fsync. -/
def lazyOptions : WriterOptions := ⟨.no, 4096, 1, 16⟩

/-- A record that fills a segment. -/
def bigRecord : Record := { sampleRecord with value := List.replicate 4096 0 }

/-- `Open` makes its first segment. -/
def openingCalls : List WalAction := [.call .ok 0, .call .ok 0, .call .ok 0, .call .ok 0]

/-- Two submissions, the second into a new segment, and `Close`. -/
def twoSegments : List WalAction :=
  [.check bigRecord, .send 0 7, .check sampleRecord, .send 0 7, .take, .flush, .call .ok 0, .finish,
    .finish, .take, .flush, .call .ok 0, .call .ok 0, .call .ok 0, .call .ok 0, .call .ok 0,
    .call .ok 0, .call .ok 0, .finish, .finish, .close, .take, .call .ok 0]

/-- There is a writer, and its `run` has returned. -/
def WalSys.returned (s : WalSys) : Bool :=
  match s.proc with
  | .running w => decide w.Returned
  | _ => false

/-- A run with a rotation, to its end. -/
theorem writer_log_dense_rotated :
    ∃ s w, Run (WalSys.step lazyOptions) WalAction.Smooth ⟨[], .opening 1 .create, [], []⟩ s ∧
      s.proc = .running w ∧ w.Returned ∧ (logSegments s.disk).map Prod.fst = [1, 2] ∧
      Spaced (logSegments s.disk) ∧ s.finished = s.accepted.map (·, true) := by
  have hexec : (exec (guarded (WalSys.step lazyOptions) WalAction.Smooth)
      ⟨[], .opening 1 .create, [], []⟩ (openingCalls ++ twoSegments)).map (fun s =>
        ((logSegments s.disk).map Prod.fst, s.returned)) = some ([1, 2], true) := by
    decide +kernel
  obtain ⟨s, hs, hfacts⟩ := Option.map_eq_some_iff.mp hexec
  obtain ⟨hnames, hret⟩ := Prod.mk.inj hfacts
  have hrun := Run.of_guarded hs
  obtain ⟨-, hspaced, -, written, rest, -, -, hend⟩ := writer_log_dense (o := lazyOptions) (by decide)
    (.fresh (by decide) (by decide)) hrun
  cases hproc : s.proc with
  | running w =>
    rw [WalSys.returned, hproc] at hret
    have hw : w.Returned := of_decide_eq_true hret
    exact ⟨s, w, hrun, hproc, hw, hnames, hspaced, (hend w hproc hw).2.1⟩
  | down => rw [WalSys.returned, hproc] at hret; cases hret
  | opening f c => rw [WalSys.returned, hproc] at hret; cases hret

/-- A segment without records, named 5, is resumed at LSN 1. The record with LSN 1 fills it, and
    the segment made for the one with LSN 2 comes after it and is named 2. And where the name
    of the second segment has seventeen digits, `ListSegments` does not list it. -/
theorem start_below_name_disorders :
    ((exec (WalSys.step lazyOptions) ⟨[], .opening 5 .create, [], []⟩
      (openingCalls ++ [.close, .take, .call .ok 0])).bind fun s =>
        (openWriter s.disk 1 (some (segmentName 5, segmentHdrLen))).bind fun p =>
          (exec (WalSys.step lazyOptions) ⟨p.2, p.1, [], []⟩ twoSegments).map fun s =>
            (s.accepted.map fun r => (r.lsn, r.encodedLen),
              s.disk.map fun f => (parseSegmentName f.1, f.2.bytes.length - segmentHdrLen))) =
      some ([(1, 4137), (2, 42)], [(some 5, 4137), (some 2, 42)]) ∧
    ((exec (WalSys.step lazyOptions) ⟨[], .opening (10 ^ 16 - 1) .create, [], []⟩
      (openingCalls ++ twoSegments)).map fun s =>
        (s.finished.map fun x => (x.1.lsn, x.2), (listSegments s.disk).map SegmentInfo.firstLSN)) =
      some ([(10 ^ 16 - 1, true), (10 ^ 16, true)], [10 ^ 16 - 1]) := by
  decide +kernel

end KvStore
