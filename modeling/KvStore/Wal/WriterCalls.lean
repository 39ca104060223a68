import KvStore.Wal.WriterInv

/-!
# The writer's system calls

One lemma for each call of `flushBatch`, `rotate`, `createSegment` and `Close`: whatever
it returns, the files are a log directory again that the writer is related to.

* `Writer.Inv.call`: all of them.
-/

namespace KvStore

open KvStore.Common
open scoped List

variable {o : WriterOptions} {res : IoResult} {w w' : Writer} {L L' : Layout}

/-- A call leads to files that the writer is related to again. -/
def Writer.Reaches (o : WriterOptions) (res : IoResult) (w : Writer) (L : Layout) (w' : Writer)
    (d : Disk Bytes) : Prop := ∃ L', d = L'.disk ∧ w.Leads o res L w' L'

/-! ## `flushBatch` and `rotate` -/

/-- The batch in hand fails, after a call that may have left part of it in the file. -/
theorem Writer.Inv.giveUp {w₁ : Writer} (h : w.Inv o L) (b : List Record)
    (hcalls : w₁.calls = w.calls) (hnext : w₁.nextLSN = w.nextLSN) (hqueue : w₁.queue = w.queue)
    (hname : L'.last.firstLSN = L.last.firstLSN) (hrec : L'.records <+ L.records ++ w.stage.pending)
    (hdurable : L.durable ⊆ L'.durable) (hseg : w₁.seg.closed = true ∨ w₁.seg.Tracks L')
    (hok : res = .ok → L' = L ∧ w₁.seg.closed = true) :
    w.Leads o res L (w₁.failBatch b) L' where
  durable := hdurable
  inv := ⟨h.follows.drop hcalls hnext hqueue rfl hname hrec, hseg, fun _ => rfl, nofun⟩
  effect := .failed hqueue rfl fun hr => ⟨(hok hr).1, (hok hr).2, nofun⟩
  next := hnext

theorem OpenSegment.Tracks.not_stuck (h : w.seg.Tracks L) : ¬ w.Stuck := fun hs => by
  have hclosed := hs.1
  rw [h.opened] at hclosed
  cases hclosed

/-- What `segment.sync` does to the last file. -/
theorem OpenSegment.sync_cases (seg : OpenSegment) (res : IoResult)
    (hseg : seg.closed = true ∨ seg.Tracks L) :
    (seg.sync L.disk res = none ∧ (res = .ok → seg.closed = true)) ∨
      (seg.Tracks L ∧ seg.sync L.disk res = some L.fsync.disk) := by
  unfold OpenSegment.sync
  by_cases hc : seg.closed ∨ res ≠ .ok
  · exact .inl ⟨if_pos hc, fun hok => hc.resolve_right fun hn => hn hok⟩
  · have htracks := hseg.resolve_left fun h => hc (.inl h)
    refine .inr ⟨htracks, ?_⟩
    rw [if_neg hc, L.fsync_disk, htracks.path]

theorem OpenSegment.Tracks.fsync {seg : OpenSegment} (h : seg.Tracks L) : seg.Tracks L.fsync :=
  ⟨h.opened, h.path, h.size⟩

theorem Writer.Inv.call_rotateSync (h : w.Inv o L) {b : List Record}
    (hstage : w.stage = .rotateSync b) {nowMs : UInt64} {d : Disk Bytes}
    (hstep : w.call o L.disk res nowMs = some (w', d)) : w.Reaches o res L w' d := by
  have hagrees := h.agrees
  rw [hstage] at hagrees
  obtain ⟨hne, hseg⟩ := hagrees
  have hseg' : w.seg.closed = true ∨ w.seg.Tracks L := hseg.imp_right And.left
  rw [Writer.call, hstage] at hstep
  rcases w.seg.sync_cases res hseg' with ⟨hsync, hclosed⟩ | ⟨htracks, hsync⟩
  · simp only [hsync] at hstep
    cases hstep
    exact ⟨L, rfl, h.giveUp b rfl rfl rfl rfl (List.sublist_append_left _ _) (List.Subset.refl _)
      hseg' fun hok => ⟨rfl, hclosed hok⟩⟩
  · simp only [hsync] at hstep
    cases hstep
    have hfull := (hseg.resolve_left (by simp [htracks.opened])).2
    refine ⟨L.fsync, rfl, h.advance L.refreshes_fsync h.follows.calls rfl ?_ ?_ rfl
      (fun hs => absurd hs htracks.not_stuck) ⟨hne, htracks.fsync, hfull, rfl⟩⟩
    · rw [Writer.rest, Writer.rest, hstage]; rfl
    · rw [hstage]; rfl

theorem Writer.Inv.call_rotateClose (h : w.Inv o L) {b : List Record}
    (hstage : w.stage = .rotateClose b) {nowMs : UInt64} {d : Disk Bytes}
    (hstep : w.call o L.disk res nowMs = some (w', d)) : w.Reaches o res L w' d := by
  have hagrees := h.agrees
  rw [hstage] at hagrees
  obtain ⟨hne, htracks, hfull, hsynced⟩ := hagrees
  rw [Writer.call, hstage] at hstep
  cases res with
  | ok =>
    cases hstep
    refine ⟨L, rfl, h.advance (.refl L) h.follows.calls rfl ?_ ?_ rfl
      (fun hs => absurd hs htracks.not_stuck) ⟨hne, rfl, hfull, hsynced⟩⟩
    · rw [Writer.rest, Writer.rest, hstage]; rfl
    · rw [hstage]; rfl
  | error n =>
    cases hstep
    exact ⟨L, rfl, h.giveUp b rfl rfl rfl rfl (List.sublist_append_left _ _) (List.Subset.refl _)
      (.inl rfl) (by simp)⟩

/-- What `segment.write` of a batch does to the last file. -/
theorem OpenSegment.Tracks.write_eq {seg : OpenSegment} (h : seg.Tracks L) (hfull : L.Full)
    {b : List Record} (hb : L.Admits b) (res : IoResult) :
    ∃ k, seg.write L.disk (encodeRecords b) res =
        ({ seg with size := (L.append b hb hfull k).size }, (L.append b hb hfull k).disk,
          decide (res = .ok)) ∧ (res = .ok → (L.append b hb hfull k).Full) := by
  unfold OpenSegment.write
  rw [if_neg (by simp [h.opened]), h.path, h.size]
  cases res with
  | ok =>
    refine ⟨(encodeRecords b).length, ?_, fun _ => L.append_full hb hfull⟩
    have hsize : (L.append b hb hfull (encodeRecords b).length).size =
        L.size + (encodeRecords b).length :=
      congrArg (fun bs : Bytes => L.size + bs.length) List.take_length
    rw [L.append_disk, hsize, List.take_length]
    rfl
  | error n =>
    refine ⟨n, ?_, nofun⟩
    rw [L.append_disk]
    rfl

theorem Writer.Inv.call_write (h : w.Inv o L) {b : List Record} (hstage : w.stage = .write b)
    {nowMs : UInt64} {d : Disk Bytes} (hstep : w.call o L.disk res nowMs = some (w', d)) :
    w.Reaches o res L w' d := by
  have hagrees := h.agrees
  rw [hstage] at hagrees
  rw [Writer.call, hstage] at hstep
  have hrest : w.rest = b ++ w.queue := by rw [Writer.rest, hstage]; rfl
  rcases hagrees with hclosed | ⟨htracks, hfull⟩
  · have hwrite : w.seg.write L.disk (encodeRecords b) res = (w.seg, L.disk, false) := if_pos hclosed
    simp only [hwrite] at hstep
    cases hstep
    exact ⟨L, rfl, h.giveUp b rfl rfl rfl rfl (List.sublist_append_left _ _) (List.Subset.refl _)
      (.inl hclosed) fun _ => ⟨rfl, hclosed⟩⟩
  · have hb : L.Admits b := (hrest ▸ h.follows.admits).left
    obtain ⟨k, hwrite, hfull'⟩ := htracks.write_eq hfull hb res
    simp only [hwrite] at hstep
    have htracks' : OpenSegment.Tracks { w.seg with size := (L.append b hb hfull k).size }
        (L.append b hb hfull k) := ⟨htracks.opened, htracks.path, rfl⟩
    have hdurable : L.durable ⊆ (L.append b hb hfull k).durable :=
      (L.append_durable hb hfull k).symm ▸ List.Subset.refl _
    have hrec : (L.append b hb hfull k).records <+ L.records ++ w.stage.pending := by
      rw [L.append_records, hstage]
      exact List.Sublist.refl _
    cases res with
    | error n =>
      cases hstep
      exact ⟨_, rfl, h.giveUp b rfl rfl rfl rfl hrec hdurable (.inr htracks') (by simp)⟩
    | ok =>
      have hwrote : ∀ w' : Writer, w'.rest = w.queue → w'.stage.inHand = b →
          w'.fatal = w.fatal → w.Effect .ok L w' (L.append b hb hfull k) :=
        fun w' hrest' hhand hfatal => .wrote htracks.opened hfull (hfull' rfl) rfl
          (by rw [hstage]; rfl) hrest' (by rw [hstage]; rfl) (by rw [hstage]; exact hhand) hfatal
      cases hpolicy : o.fsync with
      | always =>
        simp only [hpolicy, decide_true] at hstep
        cases hstep
        refine ⟨_, rfl, hdurable, ⟨h.follows.drop rfl rfl rfl rfl rfl hrec, htracks', hfull' rfl, ?_⟩,
          hwrote _ rfl rfl rfl, rfl⟩
        intro r hr
        rw [L.append_records]
        exact List.mem_append_right _ hr
      | everySec =>
        simp only [hpolicy, decide_true] at hstep
        cases hstep
        exact ⟨_, rfl, hdurable, ⟨h.follows.drop rfl rfl rfl rfl rfl hrec, .inr htracks', by simp,
          fun _ hc => by rw [hpolicy] at hc; cases hc⟩, hwrote _ rfl rfl rfl, rfl⟩
      | no =>
        simp only [hpolicy, decide_true] at hstep
        cases hstep
        exact ⟨_, rfl, hdurable, ⟨h.follows.drop rfl rfl rfl rfl rfl hrec, .inr htracks', by simp,
          fun _ hc => by rw [hpolicy] at hc; cases hc⟩, hwrote _ rfl rfl rfl, rfl⟩

theorem Writer.Inv.call_sync (h : w.Inv o L) {b : List Record} (hstage : w.stage = .sync b)
    {nowMs : UInt64} {d : Disk Bytes} (hstep : w.call o L.disk res nowMs = some (w', d)) :
    w.Reaches o res L w' d := by
  have hagrees := h.agrees
  rw [hstage] at hagrees
  obtain ⟨htracks, hfull, hmem⟩ := hagrees
  rw [Writer.call, hstage] at hstep
  rcases w.seg.sync_cases res (.inr htracks) with ⟨hsync, hclosed⟩ | ⟨-, hsync⟩
  · simp only [hsync] at hstep
    cases hstep
    exact ⟨L, rfl, h.giveUp b rfl rfl rfl rfl (List.sublist_append_left _ _) (List.Subset.refl _)
      (.inr htracks) fun hok => ⟨rfl, hclosed hok⟩⟩
  · simp only [hsync] at hstep
    cases hstep
    refine ⟨L.fsync, rfl, h.advance L.refreshes_fsync h.follows.calls rfl ?_ ?_ rfl
      (fun hs => absurd hs htracks.not_stuck) ⟨.inr htracks.fsync, nofun, fun _ _ r hr => ?_⟩⟩
    · rw [Writer.rest, Writer.rest, hstage]; rfl
    · rw [hstage]; rfl
    · show r ∈ L.present
      rw [hfull.present_eq]
      exact hmem r hr

/-! ## `createSegment` -/

section Create

variable {f n : ℕ} {nowMs : UInt64}

/-- Creating the file fails when asked to, or when there is one of that name. -/
theorem Layout.Full.createStep_create (h : L.Full) (hsynced : L.synced = L.size)
    (hsmall : f < 10 ^ 16) (hle : L.last.firstLSN ≤ f) (nowMs : UInt64) (res : IoResult) :
    (createStep L.disk f nowMs res .create = (L.disk, .failed) ∧
      (res = .ok → f = L.last.firstLSN)) ∨
    ∃ hlt, createStep L.disk f nowMs res .create =
      ((L.rotate f 0 hsmall hlt).disk, .next .writeHeader) := by
  unfold createStep
  by_cases hc : Disk.read L.disk (segmentName f) ≠ none ∨ res ≠ .ok
  · refine .inl ⟨if_pos hc, fun hok => ?_⟩
    have hexists := hc.resolve_right fun hn => hn hok
    by_contra hne
    exact hexists (L.read_new hsmall (by omega))
  · have hnone : Disk.read L.disk (segmentName f) = none := by
      by_contra hn
      exact hc (.inl hn)
    have hlt : L.last.firstLSN < f := by
      refine lt_of_le_of_ne hle fun heq => ?_
      have hread := L.read_last
      rw [SegmentImage.path, heq, hnone] at hread
      cases hread
    exact .inr ⟨hlt, by rw [if_neg hc, h.rotate_disk hsynced]⟩

theorem Layout.Fresh.durable_eq (h : L.Fresh f n) : L.durable = L.sealedRecords := by
  have hnil : L.last.whole L.synced = [] :=
    List.prefix_nil.mp (h.records ▸ L.last.whole_sublist L.synced)
  rw [durable, hnil, List.append_nil]

theorem Layout.Fresh.present_eq (h : L.Fresh f n) : L.present = L.sealedRecords := by
  have hnil : L.last.whole L.size = [] :=
    List.prefix_nil.mp (h.records ▸ L.last.whole_sublist L.size)
  rw [present, hnil, List.append_nil]

theorem Layout.Fresh.records_eq (h : L.Fresh f n) : L.records = L.sealedRecords := by
  rw [Layout.records, h.records, List.append_nil]

theorem Layout.Fresh.full (h : L.Fresh f segmentHdrLen) : L.Full := by
  rw [Full, h.size, SegmentImage.length_bytes, h.records]
  rfl

/-- A new file whose header is written with the clock at `nowMs`, up to its first `n` bytes. -/
def Layout.Fresh.header (h : L.Fresh f 0) (nowMs : UInt64) (n : ℕ) (hn : n ≤ segmentHdrLen) :
    Layout :=
  L.setLast ⟨L.last.firstLSN, nowMs, []⟩ n 0 rfl
    (by rw [SegmentImage.length_bytes]; exact Nat.le_add_right_of_le hn) (Nat.zero_le _) nofun
    (by rw [List.append_nil, ← h.records_eq]; exact L.order) nofun

theorem Layout.Fresh.header_fresh (h : L.Fresh f 0) (hn : n ≤ segmentHdrLen) :
    (h.header nowMs n hn).Fresh f n := ⟨h.name, rfl, rfl⟩

theorem Layout.Fresh.header_disk (h : L.Fresh f 0) (hn : n ≤ segmentHdrLen) :
    (h.header nowMs n hn).disk = Disk.modify L.disk (segmentName f) fun x =>
      x.writeAt 0 ((appendRecord (newSegmentHeader f nowMs)).take n) := by
  obtain rfl := h.name
  have hsynced : L.synced = 0 := Nat.le_zero.mp (h.size ▸ L.synced_le)
  have hwrite := File.writeAt_length ⟨[], 0⟩ le_rfl
    ((appendRecord (newSegmentHeader L.last.firstLSN nowMs)).take n)
  have hbytes : (SegmentImage.mk L.last.firstLSN nowMs []).bytes =
      appendRecord (newSegmentHeader L.last.firstLSN nowMs) := List.append_nil _
  show _ ++ [(_, (⟨(SegmentImage.mk L.last.firstLSN nowMs []).bytes.take n, 0⟩ : File))] =
    Disk.modify L.disk L.last.path _
  rw [L.modify_last, h.size, hsynced, List.take_zero, hbytes]
  exact congrArg (fun x : File => _ ++ [(L.last.path, x)]) hwrite.symm

/-- What the calls after the first do. -/
theorem Layout.Fresh.createStep_eq {c : CreateCall} (h : L.Fresh f c.written) (hc : c ≠ .create)
    (nowMs : UInt64) (res : IoResult) :
    ∃ (L' : Layout) (m : ℕ) (out : CreateOutcome),
      createStep L.disk f nowMs res c = (L'.disk, out) ∧ L'.sealed = L.sealed ∧ L'.Fresh f m ∧
      ((∃ c', out = .next c' ∧ c' ≠ .create ∧ m = c'.written) ∨
        (out = .done ∧ m = segmentHdrLen) ∨ (out = .failed ∧ res ≠ .ok)) := by
  have hlen : (appendRecord (newSegmentHeader f nowMs)).length = segmentHdrLen :=
    length_appendRecord _
  cases c with
  | create => exact absurd rfl hc
  | writeHeader =>
    cases res with
    | ok =>
      refine ⟨h.header nowMs segmentHdrLen le_rfl, segmentHdrLen, .next .syncHeader, ?_, rfl,
        h.header_fresh le_rfl, .inl ⟨.syncHeader, rfl, nofun, rfl⟩⟩
      rw [h.header_disk, ← hlen, List.take_length]
      rfl
    | error k =>
      refine ⟨h.header nowMs (min k segmentHdrLen) (Nat.min_le_right _ _), _, .failed, ?_, rfl,
        h.header_fresh (Nat.min_le_right _ _), .inr (.inr ⟨rfl, nofun⟩)⟩
      rw [h.header_disk, ← hlen, ← List.take_eq_take_min]
      rfl
  | syncHeader =>
    cases res with
    | ok =>
      refine ⟨L.fsync, segmentHdrLen, .next .syncDir, ?_, rfl, ⟨h.name, h.records, h.size⟩,
        .inl ⟨.syncDir, rfl, nofun, rfl⟩⟩
      rw [L.fsync_disk, SegmentImage.path, h.name]
      rfl
    | error k => exact ⟨L, _, .failed, rfl, rfl, h, .inr (.inr ⟨rfl, nofun⟩)⟩
  | syncDir =>
    cases res with
    | ok => exact ⟨L, _, .done, rfl, rfl, h, .inr (.inl ⟨rfl, rfl⟩)⟩
    | error k => exact ⟨L, _, .failed, rfl, rfl, h, .inr (.inr ⟨rfl, nofun⟩)⟩

theorem exists_firstLSN {b : List Record} (h : b ≠ []) : ∃ r ∈ b, r.lsn = firstLSN b := by
  cases b with
  | nil => exact absurd rfl h
  | cons r b => exact ⟨r, List.mem_cons_self, rfl⟩

theorem firstLSN_le {b q : List Record} (h : b ≠ [])
    (horder : (b ++ q).Pairwise fun a b => a.lsn < b.lsn) : ∀ r ∈ b ++ q, firstLSN b ≤ r.lsn := by
  cases b with
  | nil => exact absurd rfl h
  | cons r b =>
    intro x hx
    rcases List.mem_cons.mp hx with rfl | hx
    · exact le_rfl
    · exact ((List.pairwise_cons.mp horder).1 x hx).le

theorem Writer.Inv.call_create_file (h : w.Inv o L) {b : List Record}
    (hstage : w.stage = .create b .create) {d : Disk Bytes}
    (hstep : w.call o L.disk res nowMs = some (w', d)) : w.Reaches o res L w' d := by
  have hagrees := h.agrees
  rw [hstage] at hagrees
  obtain ⟨hne, hclosed, hfull, hsynced⟩ := hagrees
  have hrest : w.rest = b ++ w.queue := by rw [Writer.rest, hstage]; rfl
  have horder : (b ++ w.queue).Pairwise fun a b => a.lsn < b.lsn :=
    hrest ▸ (List.pairwise_append.mp h.follows.admits.order).2.1
  obtain ⟨r₀, hr₀, hlsn⟩ := exists_firstLSN hne
  have hmem : r₀ ∈ w.rest := hrest ▸ List.mem_append_left _ hr₀
  obtain ⟨hle, hsmall⟩ := h.follows.named r₀ hmem
  rw [hlsn] at hle hsmall
  rw [Writer.call, hstage] at hstep
  rcases hfull.createStep_create hsynced hsmall hle nowMs res with ⟨hcreate, -⟩ | ⟨hlt, hcreate⟩
  · simp only [hcreate] at hstep
    cases hstep
    exact ⟨L, rfl, h.giveUp b rfl rfl rfl rfl (List.sublist_append_left _ _) (List.Subset.refl _)
      (.inl hclosed) fun _ => ⟨rfl, hclosed⟩⟩
  · simp only [hcreate] at hstep
    cases hstep
    set L' := L.rotate (firstLSN b) 0 hsmall hlt with hL'
    have hfresh : L'.Fresh (firstLSN b) 0 := ⟨rfl, rfl, rfl⟩
    have hrec : L'.records = L.records :=
      hfresh.records_eq.trans (L.rotate_sealedRecords 0 hsmall hlt)
    have hrest' : Writer.rest { w with stage := .create b .writeHeader } = w.rest := by
      rw [Writer.rest, Writer.rest, hstage]; rfl
    refine ⟨L', rfl, ?_, ⟨⟨h.follows.calls, ?_, ?_, ?_, ?_⟩, hne, hclosed, hfresh⟩,
      .rotated (by rw [hstage]; rfl) hfull (by rw [hstage]; exact hne) rfl (by rw [hstage]; rfl) rfl
        hrest' (by rw [hstage]; rfl) rfl, rfl⟩
    · rw [hfresh.durable_eq, L.rotate_sealedRecords 0 hsmall hlt]
      exact (L.durable_prefix.trans L.present_prefix).subset
    · rw [hrest']
      exact ⟨h.follows.admits.fits, hrec.symm ▸ h.follows.admits.order, h.follows.admits.pos⟩
    · intro r hr
      rw [hrest'] at hr
      exact ⟨firstLSN_le hne horder r (hrest ▸ hr), (h.follows.named r hr).2⟩
    · rw [hrec, hrest']
      exact h.follows.bound
    · have hbound := h.follows.bound r₀ (List.mem_append_right _ hmem)
      exact ⟨(hlsn ▸ hbound).le, h.follows.next.2⟩

theorem Writer.Inv.call_create (h : w.Inv o L) {b : List Record} {c : CreateCall}
    (hstage : w.stage = .create b c) (hc : c ≠ .create) {d : Disk Bytes}
    (hstep : w.call o L.disk res nowMs = some (w', d)) : w.Reaches o res L w' d := by
  have hagrees := h.agrees
  rw [hstage] at hagrees
  obtain ⟨hne, hclosed, hfresh⟩ : b ≠ [] ∧ w.seg.closed = true ∧ L.Fresh (firstLSN b) c.written := by
    cases c with
    | create => exact absurd rfl hc
    | _ => exact hagrees
  obtain ⟨L', m, out, hcreate, hsealed, hfresh', hout⟩ := hfresh.createStep_eq hc nowMs res
  have hname : L'.last.firstLSN = L.last.firstLSN := hfresh'.name.trans hfresh.name.symm
  have hrecords : L'.sealedRecords = L.sealedRecords := by
    rw [Layout.sealedRecords, Layout.sealedRecords, hsealed]
  have hrec : L'.records = L.records := by rw [hfresh'.records_eq, hfresh.records_eq, hrecords]
  have hpresent : L'.present = L.present := by
    rw [hfresh'.present_eq, hfresh.present_eq, hrecords]
  have hL : L.Refreshes L' := ⟨hsealed, hname, hrec, hpresent, by
    rw [hfresh'.durable_eq, hfresh.durable_eq, hrecords]
    exact List.Subset.refl _⟩
  have hrest : w.rest = b ++ w.queue := by rw [Writer.rest, hstage]; rfl
  have hhand : w.stage.inHand = [] := by rw [hstage]; rfl
  have hstuck : ¬ w.Stuck := fun hs => hs.2 b c hstage
  rw [Writer.call, hstage] at hstep
  simp only [hcreate] at hstep
  rcases hout with ⟨c', rfl, hc', rfl⟩ | ⟨rfl, rfl⟩ | ⟨rfl, hres⟩
  · cases hstep
    refine ⟨L', rfl, h.advance hL h.follows.calls rfl hrest.symm hhand.symm rfl
      (fun hs => absurd hs hstuck) ?_⟩
    cases c' with
    | create => exact absurd rfl hc'
    | _ => exact ⟨hne, hclosed, hfresh'⟩
  · cases hstep
    have hpath : segmentName (firstLSN b) = L'.last.path := by rw [SegmentImage.path, hfresh'.name]
    exact ⟨L', rfl, h.advance hL h.follows.calls rfl hrest.symm hhand.symm rfl
      (fun hs => absurd hs hstuck) (.inr ⟨⟨rfl, hpath, hfresh'.size.symm⟩, hfresh'.full⟩)⟩
  · cases hstep
    exact ⟨L', rfl, h.giveUp b rfl rfl rfl hname (hrec ▸ List.sublist_append_left _ _) hL.durable
      (.inl hclosed) fun hok => absurd hok hres⟩

end Create

/-! ## All calls -/

/-- The sync of `Close`. -/
theorem Writer.Inv.call_closing (h : w.Inv o L) (hstage : w.stage = .closing)
    {nowMs : UInt64} {d : Disk Bytes} (hstep : w.call o L.disk res nowMs = some (w', d)) :
    w.Reaches o res L w' d := by
  have hagrees := h.agrees
  rw [hstage] at hagrees
  rw [Writer.call, hstage] at hstep
  cases hstep
  have hkeep : ∀ {L' : Layout}, L.Refreshes L' → w.Leads o res L { w with
      seg := { w.seg with closed := true }, stage := .stopped } L' := fun hL => by
    refine h.advance hL h.follows.calls rfl ?_ ?_ rfl (fun _ => ⟨rfl, nofun⟩) (.inl rfl)
    · rw [Writer.rest, Writer.rest, hstage]; rfl
    · rw [hstage]; rfl
  rcases w.seg.sync_cases res hagrees with ⟨hsync, -⟩ | ⟨-, hsync⟩
  · rw [hsync]
    exact ⟨L, rfl, hkeep (.refl L)⟩
  · rw [hsync]
    exact ⟨L.fsync, rfl, hkeep L.refreshes_fsync⟩

/-- Every system call, whatever it returns. -/
theorem Writer.Inv.call (h : w.Inv o L) {nowMs : UInt64} {d : Disk Bytes}
    (hstep : w.call o L.disk res nowMs = some (w', d)) : w.Reaches o res L w' d := by
  cases hstage : w.stage with
  | rotateSync b => exact h.call_rotateSync hstage hstep
  | rotateClose b => exact h.call_rotateClose hstage hstep
  | create b c =>
    by_cases hc : c = .create
    · subst hc
      exact h.call_create_file hstage hstep
    · exact h.call_create hstage hc hstep
  | write b => exact h.call_write hstage hstep
  | sync b => exact h.call_sync hstage hstep
  | closing => exact h.call_closing hstage hstep
  | idle => rw [Writer.call, hstage] at hstep; cases hstep
  | gather b => rw [Writer.call, hstage] at hstep; cases hstep
  | finish b ok => rw [Writer.call, hstage] at hstep; cases hstep
  | stopped => rw [Writer.call, hstage] at hstep; cases hstep

end KvStore
