import KvStore.Wal.Layout
import KvStore.Wal.Writer

/-!
# The writer and its files

`Writer.Inv w L` relates a writer to the log directory `L` it works on: in every stage
it says where the segment in hand stands, and that the records still to be written
follow those of the log. Each step of the writer, whatever its system call returns,
leads to a directory that is related again and in which what was durable still is.

The one condition is on `flush`: the file of the segment in hand must scan without a
fault. Without it a batch lands behind a torn record or in a file without a header.
-/

namespace KvStore

open KvStore.Common
open scoped List

/-! ## The relation -/

/-- The records in hand that are not in the file yet. -/
def Stage.pending : Stage → List Record
  | .gather b => b
  | .rotateSync b => b
  | .rotateClose b => b
  | .create b _ => b
  | .write b => b
  | _ => []

/-- The records in hand whose commits are to be finished, all but those of a failed write
    in the file. -/
def Stage.inHand : Stage → List Record
  | .sync b => b
  | .finish b _ => b
  | _ => []

/-- The segment in hand is the last file, open, at its end. -/
structure OpenSegment.Tracks (seg : OpenSegment) (L : Layout) : Prop where
  opened : seg.closed = false
  path : seg.path = L.last.path
  size : seg.size = L.size

/-- The last file is the one `createSegment` is making, with `n` bytes of its header. -/
structure Layout.Fresh (L : Layout) (firstLSN n : ℕ) : Prop where
  name : L.last.firstLSN = firstLSN
  records : L.last.records = []
  size : L.size = n

/-- What has been written by the time of a call of `createSegment`. -/
def CreateCall.written : CreateCall → ℕ
  | .syncHeader => segmentHdrLen
  | .syncDir => segmentHdrLen
  | _ => 0

/-- Where the segment in hand stands in each stage. Under fsync=always the commits of a
    batch are finished with nil only once its records are durable. -/
def Stage.Agrees (o : WriterOptions) (fatal : Bool) (seg : OpenSegment) (L : Layout) :
    Stage → Prop
  | .gather b => b ≠ [] ∧ (seg.closed = true ∨ seg.Tracks L)
  | .rotateSync b => b ≠ [] ∧ (seg.closed = true ∨ seg.Tracks L ∧ L.Full)
  | .rotateClose b => b ≠ [] ∧ seg.Tracks L ∧ L.Full ∧ L.synced = L.size
  | .create b .create => b ≠ [] ∧ seg.closed = true ∧ L.Full ∧ L.synced = L.size
  | .create b c => b ≠ [] ∧ seg.closed = true ∧ L.Fresh (firstLSN b) c.written
  | .write _ => seg.closed = true ∨ seg.Tracks L ∧ L.Full
  | .sync b => seg.Tracks L ∧ L.Full ∧ ∀ r ∈ b, r ∈ L.records
  | .finish b ok => (seg.closed = true ∨ seg.Tracks L) ∧ (ok = false → fatal = true) ∧
    (ok = true → o.fsync = .always → ∀ r ∈ b, r ∈ L.durable)
  | _ => seg.closed = true ∨ seg.Tracks L

/-- The records still to be written, in hand or queued. -/
def Writer.rest (w : Writer) : List Record := w.stage.pending ++ w.queue

/-- They follow those of the log and are named after the last segment. -/
structure Writer.Follows (w : Writer) (L : Layout) : Prop where
  calls : ∀ r ∈ w.calls, r.Submittable
  admits : L.Admits w.rest
  named : ∀ r ∈ w.rest, L.last.firstLSN ≤ r.lsn ∧ r.lsn < 10 ^ 16
  bound : ∀ r ∈ L.records ++ w.rest, r.lsn < w.nextLSN
  next : L.last.firstLSN ≤ w.nextLSN ∧ 0 < w.nextLSN

/-- The relation between a writer and its directory. -/
structure Writer.Inv (o : WriterOptions) (w : Writer) (L : Layout) : Prop where
  follows : w.Follows L
  agrees : w.stage.Agrees o w.fatal w.seg L

variable {o : WriterOptions} {res : IoResult} {w w' : Writer} {L L' : Layout}

/-- Records move from the batch to the log, or are dropped. -/
theorem Writer.Follows.move (h : w.Follows L) (hcalls : w'.calls = w.calls)
    (hnext : w'.nextLSN = w.nextLSN) (hname : L'.last.firstLSN = L.last.firstLSN)
    (hrest : w'.rest <+ w.rest) (hall : L'.records ++ w'.rest <+ L.records ++ w.rest) :
    w'.Follows L' where
  calls := hcalls ▸ h.calls
  admits := ⟨fun r hr => h.admits.fits r (hrest.subset hr), h.admits.order.sublist hall,
    fun r hr => h.admits.pos r (hrest.subset hr)⟩
  named := fun r hr => hname ▸ h.named r (hrest.subset hr)
  bound := fun r hr => hnext ▸ h.bound r (hall.subset hr)
  next := hname ▸ hnext ▸ h.next

/-- The batch in hand is given up or done with. -/
theorem Writer.Follows.drop (h : w.Follows L) (hcalls : w'.calls = w.calls)
    (hnext : w'.nextLSN = w.nextLSN) (hqueue : w'.queue = w.queue)
    (hpending : w'.stage.pending = []) (hname : L'.last.firstLSN = L.last.firstLSN)
    (hrec : L'.records <+ L.records ++ w.stage.pending) : w'.Follows L' := by
  have hrest : w'.rest = w.queue := by rw [rest, hpending, hqueue]; rfl
  refine h.move hcalls hnext hname ?_ ?_
  · rw [hrest]
    exact List.sublist_append_right _ _
  · rw [hrest, rest, ← List.append_assoc]
    exact hrec.append (List.Sublist.refl _)

/-- The directory changes, and its records do not. -/
theorem Writer.Follows.same (h : w.Follows L) (hcalls : w'.calls = w.calls)
    (hnext : w'.nextLSN = w.nextLSN) (hrest : w'.rest = w.rest)
    (hname : L'.last.firstLSN = L.last.firstLSN) (hrec : L'.records = L.records) :
    w'.Follows L' :=
  h.move hcalls hnext hname (hrest ▸ List.Sublist.refl _)
    (hrest ▸ hrec ▸ List.Sublist.refl _)

/-! ## What a step does -/

/-- The segment in hand is closed and no new one is being made: nothing is written any more. -/
def Writer.Stuck (w : Writer) : Prop := w.seg.closed = true ∧ ∀ b c, w.stage ≠ .create b c

/-- How a step changes the log: not at all, by a new segment file, by the batch in hand,
    or it gives the batch up. When the call itself succeeds, only a writer that is stuck
    gives a batch up. -/
inductive Writer.Effect (res : IoResult) (w : Writer) (L : Layout) (w' : Writer) (L' : Layout) :
    Prop
  | keep (hsealed : L'.sealed = L.sealed) (hname : L'.last.firstLSN = L.last.firstLSN)
      (hpresent : L'.present = L.present) (hrest : w'.rest = w.rest)
      (hhand : w'.stage.inHand = w.stage.inHand) (hfatal : w'.fatal = w.fatal)
      (hstuck : w.Stuck → w'.Stuck)
  | rotated (hstage : w.stage = .create w.stage.pending .create) (hfull : L.Full)
      (hne : w.stage.pending ≠ []) (hsealed : L'.sealed = L.sealed ++ [L.last])
      (hname : L'.last.firstLSN = firstLSN w.stage.pending) (hnil : L'.last.records = [])
      (hrest : w'.rest = w.rest) (hhand : w'.stage.inHand = w.stage.inHand)
      (hfatal : w'.fatal = w.fatal)
  | wrote (hopen : w.seg.closed = false) (hfull : L.Full) (hfull' : L'.Full)
      (hsealed : L'.sealed = L.sealed) (hlast : L'.last = L.last.extend w.stage.pending)
      (hrest : w'.rest = w.queue) (hempty : w.stage.inHand = [])
      (hhand : w'.stage.inHand = w.stage.pending) (hfatal : w'.fatal = w.fatal)
  | failed (hrest : w'.rest = w.queue) (hfatal : w'.fatal = true)
      (hok : res = .ok → L' = L ∧ w'.Stuck)

/-- A step leads to a directory that the writer is related to again. -/
structure Writer.Leads (o : WriterOptions) (res : IoResult) (w : Writer) (L : Layout)
    (w' : Writer) (L' : Layout) : Prop where
  durable : L.durable ⊆ L'.durable
  inv : w'.Inv o L'
  effect : w.Effect res L w' L'
  next : w'.nextLSN = w.nextLSN

/-- The file of the segment in hand scans without a fault. -/
def Writer.Sound (w : Writer) (d : Disk Bytes) : Prop :=
  ∀ f, Disk.read d w.seg.path = some f → healthy f.bytes = true

instance (w : Writer) (d : Disk Bytes) : Decidable (w.Sound d) :=
  match h : Disk.read d w.seg.path with
  | none => .isTrue fun f hf => by rw [h] at hf; cases hf
  | some f =>
    if hf : healthy f.bytes = true then .isTrue fun g hg => by rw [h] at hg; cases hg; exact hf
    else .isFalse fun hs => hf (hs f h)

/-! ## Steps that leave the files alone -/

/-- The same log, in files of which more may be durable. -/
structure Layout.Refreshes (L L' : Layout) : Prop where
  sealed : L'.sealed = L.sealed
  name : L'.last.firstLSN = L.last.firstLSN
  records : L'.records = L.records
  present : L'.present = L.present
  durable : L.durable ⊆ L'.durable

theorem Layout.Refreshes.refl (L : Layout) : L.Refreshes L :=
  ⟨rfl, rfl, rfl, rfl, List.Subset.refl _⟩

theorem Layout.refreshes_fsync (L : Layout) : L.Refreshes L.fsync :=
  ⟨rfl, rfl, rfl, rfl, L.durable_prefix.subset⟩

/-- A step that keeps the log and the records in hand. -/
theorem Writer.Inv.advance (h : w.Inv o L) (hL : L.Refreshes L') (hcalls : ∀ r ∈ w'.calls, r.Submittable)
    (hnext : w'.nextLSN = w.nextLSN) (hrest : w'.rest = w.rest)
    (hhand : w'.stage.inHand = w.stage.inHand) (hfatal : w'.fatal = w.fatal)
    (hstuck : w.Stuck → w'.Stuck) (hagrees : w'.stage.Agrees o w'.fatal w'.seg L') :
    w.Leads o res L w' L' where
  durable := hL.durable
  inv := by
    refine ⟨⟨hcalls, ⟨?_, ?_, ?_⟩, ?_, ?_, ?_⟩, hagrees⟩
    · exact hrest ▸ h.follows.admits.fits
    · exact hrest ▸ hL.records.symm ▸ h.follows.admits.order
    · exact hrest ▸ h.follows.admits.pos
    · exact hrest ▸ hL.name ▸ h.follows.named
    · exact hrest ▸ hnext ▸ hL.records.symm ▸ h.follows.bound
    · exact hnext ▸ hL.name ▸ h.follows.next
  effect := .keep hL.sealed hL.name hL.present hrest hhand hfatal hstuck
  next := hnext

theorem Writer.Inv.check (h : w.Inv o L) {r : Record} (hstep : w.check r = some w') :
    w.Leads o res L w' L := by
  unfold Writer.check at hstep
  split_ifs at hstep with hc
  cases hstep
  have hr : r.Submittable := by
    by_contra hn
    exact hc (.inr (.inr hn))
  refine h.advance (.refl L) ?_ rfl rfl rfl rfl id h.agrees
  intro x hx
  rcases List.mem_append.mp hx with hx | hx
  · exact h.follows.calls x hx
  · obtain rfl := List.mem_singleton.mp hx
    exact hr

theorem Writer.Inv.close (h : w.Inv o L) : w.Leads o res L { w with closed := true } L :=
  h.advance (.refl L) h.follows.calls rfl rfl rfl rfl id h.agrees

theorem stamped_fits {r : Record} (hr : r.Submittable) (hlsn : w.nextLSN < 10 ^ 16)
    (nowMs : UInt64) : (w.stamped r nowMs).Fits :=
  ⟨hlsn.trans (by norm_num), hr.1, hr.2.1⟩

/-- A submission goes to the end of what is still to be written. -/
theorem Writer.Follows.push (h : w.Follows L) {r : Record} (hfits : r.Fits)
    (hlsn : r.lsn = w.nextLSN) (hsmall : w.nextLSN < 10 ^ 16) (hcalls : w'.calls ⊆ w.calls)
    (hnext : w'.nextLSN = w.nextLSN + 1) (hrest : w'.rest = w.rest ++ [r]) : w'.Follows L where
  calls := fun x hx => h.calls x (hcalls hx)
  admits := by
    refine ⟨?_, ?_, ?_⟩
    · simp only [hrest, List.forall_mem_append, List.forall_mem_singleton]
      exact ⟨h.admits.fits, hfits⟩
    · rw [hrest, ← List.append_assoc]
      refine List.pairwise_append.mpr ⟨h.admits.order, List.pairwise_singleton _ _, ?_⟩
      simp only [List.forall_mem_singleton, hlsn]
      exact h.bound
    · simp only [hrest, List.forall_mem_append, List.forall_mem_singleton]
      exact ⟨h.admits.pos, hlsn ▸ h.next.2⟩
  named := by
    simp only [hrest, List.forall_mem_append, List.forall_mem_singleton]
    exact ⟨h.named, hlsn ▸ ⟨h.next.1, hsmall⟩⟩
  bound := by
    intro x hx
    rw [hrest, ← List.append_assoc] at hx
    rcases List.mem_append.mp hx with hx | hx
    · have := h.bound x hx
      omega
    · obtain rfl := List.mem_singleton.mp hx
      omega
  next := by
    have := h.next
    omega

/-- A `Submit` comes through: its record gets the next LSN. -/
structure Writer.Sends (w : Writer) (r : Record) (w' : Writer) : Prop where
  lsn : r.lsn = w.nextLSN
  next : w'.nextLSN = w.nextLSN + 1
  rest : w'.rest = w.rest ++ [r]
  hand : w'.stage.inHand = w.stage.inHand
  fatal : w'.fatal = w.fatal
  stuck : w.Stuck → w'.Stuck

theorem Writer.Inv.send (h : w.Inv o L) (hlsn : w.nextLSN < 10 ^ 16) {i : ℕ} {nowMs : UInt64}
    {a : Option Record} (hstep : w.send o i nowMs = some (a, w')) :
    (a = none ∧ w.Leads o res L w' L) ∨ ∃ r, a = some r ∧ w.Sends r w' ∧ w'.Inv o L := by
  unfold Writer.send at hstep
  split at hstep
  · cases hstep
  · next r hr =>
    have hsub := h.follows.calls r (List.mem_of_getElem? hr)
    have hcalls : w.calls.eraseIdx i ⊆ w.calls := (List.eraseIdx_sublist _ i).subset
    split_ifs at hstep
    · cases hstep
      exact .inl ⟨rfl, h.advance (.refl L) (fun x hx => h.follows.calls x (hcalls hx)) rfl rfl
        rfl rfl id h.agrees⟩
    · cases hstep
      have hrest := (List.append_assoc w.stage.pending w.queue [w.stamped r nowMs]).symm
      exact .inr ⟨_, rfl, ⟨rfl, rfl, hrest, rfl, rfl, id⟩,
        h.follows.push (stamped_fits hsub hlsn nowMs) rfl hlsn hcalls rfl hrest, h.agrees⟩

theorem Writer.Inv.take (h : w.Inv o L) (hstep : w.take = some w') : w.Leads o res L w' L := by
  unfold Writer.take at hstep
  have hagrees := h.agrees
  split at hstep
  · next r queue hstage hqueue =>
    cases hstep
    rw [hstage] at hagrees
    refine h.advance (.refl L) h.follows.calls rfl ?_ ?_ rfl (fun hs => ⟨hs.1, nofun⟩)
      ⟨List.cons_ne_nil r [], hagrees⟩
    · rw [Writer.rest, Writer.rest, hstage, hqueue]; rfl
    · rw [hstage]; rfl
  · next hstage hqueue =>
    split_ifs at hstep
    cases hstep
    rw [hstage] at hagrees
    refine h.advance (.refl L) h.follows.calls rfl ?_ ?_ rfl (fun hs => ⟨hs.1, nofun⟩) hagrees
    · rw [Writer.rest, Writer.rest, hstage]; rfl
    · rw [hstage]; rfl
  · cases hstep

theorem Writer.Inv.gather (h : w.Inv o L) (hstep : w.gather o = some w') :
    w.Leads o res L w' L := by
  unfold Writer.gather at hstep
  have hagrees := h.agrees
  split at hstep
  · next batch r queue hstage hqueue =>
    split_ifs at hstep
    cases hstep
    rw [hstage] at hagrees
    refine h.advance (.refl L) h.follows.calls rfl ?_ ?_ rfl (fun hs => ⟨hs.1, nofun⟩)
      ⟨by simp, hagrees.2⟩
    · rw [Writer.rest, Writer.rest, hstage, hqueue]
      exact List.append_assoc batch [r] queue
    · rw [hstage]; rfl
  · cases hstep

/-- A commit is finished: its record leaves the hand. -/
structure Writer.Finishes (w : Writer) (r : Record) (ok : Bool) (w' : Writer) : Prop where
  hand : w.stage.inHand = r :: w'.stage.inHand
  result : ok = false → w.fatal = true
  rest : w'.rest = w.rest
  next : w'.nextLSN = w.nextLSN
  fatal : w'.fatal = w.fatal
  stuck : w.Stuck → w'.Stuck

/-- Under fsync=always the commits finished with nil are those of durable records. -/
theorem Writer.Inv.finish (h : w.Inv o L) {a : Option (Record × Bool)}
    (hstep : w.finish = some (a, w')) :
    (a = none ∧ w.Leads o res L w' L) ∨
      ∃ r ok, a = some (r, ok) ∧ w.Finishes r ok w' ∧ w'.Inv o L ∧
        (ok = true → o.fsync = .always → r ∈ L.durable) := by
  unfold Writer.finish at hstep
  have hagrees := h.agrees
  split at hstep
  · next r batch ok hstage =>
    cases hstep
    rw [hstage] at hagrees
    obtain ⟨hseg, hfatal, hdurable⟩ := hagrees
    have hrest : Writer.rest { w with stage := .finish batch ok } = w.rest := by
      rw [Writer.rest, Writer.rest, hstage]; rfl
    refine .inr ⟨r, ok, rfl, ⟨by rw [hstage]; rfl, hfatal, hrest, rfl, rfl,
      fun hs => ⟨hs.1, nofun⟩⟩,
      ⟨h.follows.same rfl rfl hrest rfl rfl, hseg, hfatal, ?_⟩, ?_⟩
    · exact fun hok halways x hx => hdurable hok halways x (List.mem_cons_of_mem r hx)
    · exact fun hok halways => hdurable hok halways r List.mem_cons_self
  · next ok hstage =>
    cases hstep
    rw [hstage] at hagrees
    refine .inl ⟨rfl, h.advance (.refl L) h.follows.calls rfl ?_ ?_ rfl (fun hs => ⟨hs.1, nofun⟩)
      hagrees.1⟩
    · rw [Writer.rest, Writer.rest, hstage]; rfl
    · rw [hstage]; rfl
  · cases hstep

theorem OpenSegment.Tracks.healthy (h : w.seg.Tracks L) (hsound : w.Sound L.disk) :
    L.Healthy := by
  have hread : Disk.read L.disk w.seg.path = some _ := h.path ▸ L.read_last
  exact L.healthy_iff.mp (hsound _ hread)

theorem Layout.Healthy.replayed_full (h : L.Healthy) : L.replayed.Full :=
  if_pos h.1

theorem Layout.replayed_records (L : Layout) : L.replayed.records = L.present := rfl

/-- Starting to flush where the file is sound; its image is cut to what is there. -/
theorem Writer.Inv.flush (h : w.Inv o L) (hsound : w.Sound L.disk)
    (hstep : w.flush o = some w') : ∃ L', L'.disk = L.disk ∧ w.Leads o res L w' L' := by
  unfold Writer.flush at hstep
  have hagrees := h.agrees
  split at hstep
  · next b hstage =>
    rw [hstage] at hagrees
    obtain ⟨hne, hseg⟩ := hagrees
    obtain ⟨st, hst, rfl⟩ : ∃ st, (st = .rotateSync b ∨ st = .write b) ∧
        w' = { w with stage := st } := by
      cases hstep
      exact ⟨_, (ite_eq_or_eq _ _ _), rfl⟩
    have hrest : Writer.rest { w with stage := st } = w.rest := by
      rw [Writer.rest, Writer.rest, hstage]
      rcases hst with rfl | rfl <;> rfl
    have hhand : st.inHand = w.stage.inHand := by
      rw [hstage]
      rcases hst with rfl | rfl <;> rfl
    have hstuck : w.Stuck → Writer.Stuck { w with stage := st } := by
      rintro ⟨hclosed, -⟩
      rcases hst with rfl | rfl <;> exact ⟨hclosed, nofun⟩
    rcases hseg with hclosed | htracks
    · refine ⟨L, rfl, h.advance (.refl L) h.follows.calls rfl hrest hhand rfl hstuck ?_⟩
      rcases hst with rfl | rfl
      · exact ⟨hne, .inl hclosed⟩
      · exact .inl hclosed
    · have hhealthy := htracks.healthy hsound
      have htracks' : w.seg.Tracks L.replayed :=
        ⟨htracks.opened, htracks.path, htracks.size.trans hhealthy.goodSize_eq.symm⟩
      refine ⟨L.replayed, ?_, L.durable_replayed.subset,
        ⟨h.follows.move rfl rfl rfl (hrest ▸ List.Sublist.refl _) ?_, ?_⟩,
        .keep rfl rfl L.replayed_present hrest hhand rfl hstuck, rfl⟩
      · rw [L.replayed_disk, if_pos hhealthy]
      · rw [hrest, L.replayed_records]
        exact L.present_prefix.sublist.append (List.Sublist.refl _)
      · rcases hst with rfl | rfl
        · exact ⟨hne, .inr ⟨htracks', hhealthy.replayed_full⟩⟩
        · exact .inr ⟨htracks', hhealthy.replayed_full⟩
  · cases hstep

end KvStore
