import KvStore.Engine.Feeds
import KvStore.Wal.DenseLog

/-!
# Catch-up and the live feed

A primary's log writer, its feeds, and one session of `streamTo` with `catchUp`
(`internal/cluster/primary.go` lines 96–239): the session subscribes to a feed, lists the
segment files, ships from them what is above the replica's LSN, and then forwards the feed.
A record passes through the queue of the writer, the feeds and the files at three different
moments, and the session looks at feeds and files at two others.

* `catch_up_complete`: when everything fanned out before the subscription is in the files by
  the time they are listed, nothing is left out.
* `catch_up_misses_unflushed`: a record that was fanned out before, and written after.
-/

namespace KvStore

open KvStore.Common

/-! ## The session -/

/-- How far `streamTo` has come; `id` is its feed, `segs` the segments left to scan. `full` is
    a session that takes the way of `fullResync`. -/
inductive SessionStage
  | idle
  | subscribed (id : ℕ)
  | scanning (id : ℕ) (segs : List SegmentInfo)
  | live (id : ℕ)
  | full (id : ℕ)
  deriving DecidableEq

/-- The feed of the session. -/
def SessionStage.feed : SessionStage → Option ℕ
  | .idle => none
  | .subscribed id => some id
  | .scanning id _ => some id
  | .live id => some id
  | .full id => some id

/-- One replica session, with what was sent to the replica. -/
structure Session where
  stage : SessionStage
  fromLSN : ℕ
  ackedLSN : ℕ
  sent : List Record

/-- The log, the feeds and the session. -/
structure Shipping where
  wal : WalSys
  feeds : Feeds
  session : Session

inductive ShipAction
  | wal (a : WalAction)
  | feed (a : FeedAction)
  | connect (fromLSN : ℕ) (buffer : ℤ)
  | list
  | scan
  | forward
  | ack (lsn : ℕ)

/-- What `Submit` returns to `mutate`, which hands it to `fanOutToReplicas`: the record as it
    was given to `Submit`, with the LSN. -/
def WalSys.handed (o : WriterOptions) (s : WalSys) : WalAction → Option Record
  | .send i nowMs =>
    match s.proc with
    | .running w =>
      match w.calls[i]?, w.send o i nowMs with
      | some r, some (some x, _) => some { r with lsn := x.lsn }
      | _, _ => none
    | _ => none
  | _ => none

/-- The feed an action of the session's own goroutine is about. -/
def FeedAction.owner : FeedAction → Option ℕ
  | .cancel id => some id
  | .recv id => some id
  | _ => none

/-- The callback of `catchUp` (lines 216–227). -/
def shipRecord (fromLSN : ℕ) (sent : List Record) (r : Record) : Except Empty (List Record) :=
  if r.lsn ≤ fromLSN then .ok sent else .ok (sent ++ [r])

/-- `needFull` (lines 199–204). -/
def needFull (fromLSN : ℕ) (segs : List SegmentInfo) : Bool :=
  fromLSN = 0 ∨ segs = [] ∨ (fromLSN + 1) % 2 ^ 64 < (segs.head?.map SegmentInfo.firstLSN).getD 0

/-- One round of the loop over the segments (lines 215–236), or its end. -/
def Session.scan (c : Session) (d : Disk Bytes) : Option Session :=
  match c.stage with
  | .scanning id [] => some { c with stage := .live id }
  | .scanning id (seg :: segs) =>
    (Disk.read d seg.path).bind fun f =>
      match scanSegment (shipRecord c.fromLSN) f.bytes c.sent with
      | .error e => nomatch e
      | .ok (res, sent) =>
        some { c with
          sent := sent
          stage := if res.fault ≠ .none then .live id else .scanning id segs }
  | _ => none

/-- One record from the feed (lines 151–163). -/
def Session.forward (c : Session) (r : Record) : Session :=
  if r.lsn ≤ c.ackedLSN ∧ r.lsn ≤ c.fromLSN then c else { c with sent := c.sent ++ [r] }

def Shipping.step (o : WriterOptions) (s : Shipping) : ShipAction → Option Shipping
  | .wal a =>
    (s.wal.step o a).map fun wal =>
      { s with
        wal := wal
        feeds := (s.wal.handed o a).elim s.feeds fun r => s.feeds.enter r false }
  | .feed a =>
    if a.owner ≠ none ∧ a.owner = s.session.stage.feed then none
    else (s.feeds.step a).map fun feeds => { s with feeds := feeds }
  | .connect fromLSN buffer =>
    match s.session.stage, s.wal.proc with
    | .idle, .running _ =>
      (s.feeds.subscribe buffer).map fun feeds =>
        { s with
          feeds := feeds
          session := ⟨.subscribed feeds.next, fromLSN, 0, []⟩ }
    | _, _ => none
  | .list =>
    match s.session.stage with
    | .subscribed id =>
      let segs := listSegments s.wal.disk
      some { s with session := { s.session with
        stage := if needFull s.session.fromLSN segs then .full id else .scanning id segs } }
    | _ => none
  | .scan => (s.session.scan s.wal.disk).map fun c => { s with session := c }
  | .forward =>
    match s.session.stage with
    | .live id =>
      (s.feeds.recv id).map fun x => { s with feeds := x.2, session := s.session.forward x.1 }
    | _ => none
  | .ack lsn => some { s with session := { s.session with ackedLSN := lsn } }

/-! ## Nothing falls in between -/

/-- `r'` is `r`, up to the time of creation, which `Submit` stamps on its own copy. -/
def Record.Restamps (r' r : Record) : Prop := r' = { r with createdAtMs := r'.createdAtMs }

instance (r' r : Record) : Decidable (r'.Restamps r) := inferInstanceAs (Decidable (_ = _))

instance (p : FanOut) (id : ℕ) : Decidable (p.Due id) :=
  match p with
  | ⟨_, _, .ready⟩ => .isTrue trivial
  | ⟨_, _, .sending todo _⟩ => inferInstanceAs (Decidable (id ∈ todo))
  | ⟨_, _, .dropping _⟩ => .isFalse not_false

/-- `r` is on feed `id`, or on its way there. -/
def Feeds.Reaches (s : Feeds) (id : ℕ) (r : Record) : Prop :=
  (∃ p ∈ s.pending, p.Due id ∧ p.record.Restamps r) ∨
    ∃ f ∈ s.feeds, f.id = id ∧ ∃ r' ∈ f.placed, r'.Restamps r

instance (s : Feeds) (id : ℕ) (r : Record) : Decidable (s.Reaches id r) :=
  inferInstanceAs (Decidable (_ ∨ _))

/-- The records in the file `path`. -/
def fileRecords (d : Disk Bytes) (path : Bytes) : List Record :=
  ((Disk.read d path).map fun f => scannedRecords f.bytes).getD []

/-- A step without I/O errors, crashes and LSNs of more than sixteen digits, and without an
    overflow of the feed of the session. And `catchUp` lists the segments only when all that is
    neither on its feed nor on the way there, that is, all that was fanned out before the
    subscription, is in the files. -/
def ShipAction.Covered (s : Shipping) : ShipAction → Prop
  | .wal a => a.Smooth s.wal
  | .feed (.send _ id) =>
    s.session.stage.feed = some id → ∀ f ∈ s.feeds.feeds, f.id = id → f.chan.length < f.cap
  | .list => ∀ id, s.session.stage.feed = some id → ∀ r ∈ s.wal.accepted,
      s.feeds.Reaches id r ∨ r ∈ (logSegments s.wal.disk).flatMap Prod.snd
  | _ => True

instance (s : Shipping) (a : ShipAction) : Decidable (a.Covered s) :=
  match a with
  | .wal a => inferInstanceAs (Decidable (a.Smooth s.wal))
  | .feed (.send _ id) => inferInstanceAs (Decidable
      (s.session.stage.feed = some id → ∀ f ∈ s.feeds.feeds, f.id = id → f.chan.length < f.cap))
  | .list => inferInstanceAs (Decidable (∀ id, s.session.stage.feed = some id →
      ∀ r ∈ s.wal.accepted,
        s.feeds.Reaches id r ∨ r ∈ (logSegments s.wal.disk).flatMap Prod.snd))
  | .feed (.subscribe _) | .feed (.cancel _) | .feed (.begin _) | .feed (.finish _)
  | .feed (.drop _) | .feed (.recv _) | .connect _ _ | .scan | .forward | .ack _ =>
    .isTrue trivial

/-! ## The feed of the session -/

/-- The feeds this call found full. -/
def FanOut.stalled (p : FanOut) : List ℕ :=
  match p.stage with
  | .ready => []
  | .sending _ stalled => stalled
  | .dropping stalled => stalled

/-- Calls are numbered, and feeds too. -/
structure Feeds.Tidy (N : ℕ) (s : Feeds) : Prop extends Feeds.Numbered N s where
  nodup : (s.feeds.map Feed.id).Nodup
  le : ∀ i ∈ s.feeds.map Feed.id, i ≤ s.next
  stalled : ∀ p ∈ s.pending, ∀ i ∈ p.stalled, i ≤ s.next

/-- Feed `id` is open and will stay so, and of what was placed on it all but the channel has
    been forwarded. -/
structure Feeds.Serves (s : Feeds) (id fromLSN : ℕ) (sent : List Record) : Prop where
  feed : ∃ f ∈ s.feeds, f.id = id ∧ f.isOpen = true ∧ ∃ taken, f.placed = taken ++ f.chan ∧
    ∀ r ∈ taken, fromLSN < r.lsn → r ∈ sent
  unstalled : ∀ p ∈ s.pending, id ∉ p.stalled

section Feeds

variable {s t : Feeds} {N id fromLSN : ℕ} {a : FeedAction} {p : FanOut} {sent : List Record}
  {r : Record}

theorem map_id_onFeed {fn : Feed → Feed} (hfn : ∀ f, (fn f).id = f.id) :
    (s.onFeed id fn).map Feed.id = s.feeds.map Feed.id := by
  rw [Feeds.onFeed, List.map_map]
  refine List.map_congr_left fun f _ => ?_
  show Feed.id (if f.id = id then fn f else f) = f.id
  split_ifs
  · exact hfn f
  · rfl

theorem Feeds.Tidy.retire (h : s.Tidy N) (lsn : ℕ) {feeds : List Feed}
    (hids : feeds.map Feed.id = s.feeds.map Feed.id) :
    Feeds.Tidy N ⟨feeds, s.next, s.retire lsn⟩ where
  toNumbered := h.toNumbered.retire _ _ _
  nodup := hids ▸ h.nodup
  le := hids ▸ h.le
  stalled := fun p hp => h.stalled p (mem_retire hp)

theorem Feeds.Tidy.setStage (h : s.Tidy N) (hp : p ∈ s.pending) {stage : FanStage}
    {feeds : List Feed} (hids : feeds.map Feed.id = s.feeds.map Feed.id)
    (hstalled : ∀ i ∈ FanOut.stalled { p with stage := stage }, i ≤ s.next) :
    Feeds.Tidy N ⟨feeds, s.next, s.setStage p.record.lsn stage⟩ where
  toNumbered := h.toNumbered.setStage _ _ _ _
  nodup := hids ▸ h.nodup
  le := hids ▸ h.le
  stalled := by
    intro q hq
    rcases mem_setStage hq with ⟨hold, -⟩ | ⟨q', hq', hl, rfl⟩
    · exact h.stalled q hold
    · obtain rfl := h.eq_of_lsn hq' hp hl
      exact hstalled

theorem Feeds.Tidy.withFeeds (h : s.Tidy N) {feeds : List Feed}
    (hids : feeds.map Feed.id = s.feeds.map Feed.id) :
    Feeds.Tidy N { s with feeds := feeds } where
  toNumbered := ⟨h.sorted, h.pending⟩
  nodup := hids ▸ h.nodup
  le := hids ▸ h.le
  stalled := h.stalled

theorem Feeds.Tidy.enter (h : s.Tidy N) (hr : r.lsn = N) (drainer : Bool) :
    (s.enter r drainer).Tidy (N + 1) where
  toNumbered := h.toNumbered.enter hr drainer
  nodup := h.nodup
  le := h.le
  stalled := by
    intro p hp
    rcases List.mem_append.mp hp with hp | hp
    · exact h.stalled p hp
    · rw [List.mem_singleton.mp hp]
      exact nofun

theorem Feeds.Tidy.step (h : s.Tidy N) (ht : s.Steps a t) : t.Tidy N := by
  cases ht with
  | subscribe buffer cap hfree =>
    refine ⟨⟨h.sorted, h.pending⟩, ?_, ?_, fun p hp i hi => (h.stalled p hp i hi).trans (Nat.le_succ _)⟩
    · rw [List.map_append, List.nodup_append]
      refine ⟨h.nodup, by simp, fun i hi j hj => ?_⟩
      have hle := h.le i hi
      have hj : j = s.next + 1 := List.mem_singleton.mp hj
      omega
    · intro i hi
      rw [List.map_append, List.mem_append] at hi
      rcases hi with hi | hi
      · exact (h.le i hi).trans (Nat.le_succ _)
      · rw [List.map_singleton, List.mem_singleton] at hi
        exact hi.le
  | cancel id hfree => exact h.withFeeds (map_id_onFeed fun _ => rfl)
  | skip p hp hstage hnone => exact h.retire _ rfl
  | begin p hp hstage => exact h.setStage hp rfl nofun
  | send p hp todo stalled hstage f hf hid hroom =>
    refine h.setStage hp (map_id_onFeed fun _ => rfl) ?_
    have hold := h.stalled p hp
    rw [FanOut.stalled, hstage] at hold
    exact hold
  | stall p hp todo stalled hstage f hf hid hfull =>
    refine h.setStage hp rfl fun i hi => ?_
    have hold := h.stalled p hp
    rw [FanOut.stalled, hstage] at hold
    rcases List.mem_append.mp hi with hi | hi
    · exact hold i hi
    · rw [List.mem_singleton.mp hi]
      exact h.le _ (List.mem_map_of_mem hf)
  | finish p hp hstage => exact h.retire _ rfl
  | toDrop p hp stalled hstage =>
    refine h.setStage hp rfl ?_
    have hold := h.stalled p hp
    rw [FanOut.stalled, hstage] at hold
    exact hold
  | drop p hp stalled hstage hfree =>
    refine h.retire _ ?_
    rw [List.map_map]
    refine List.map_congr_left fun f _ => ?_
    show Feed.id (if f.id ∈ stalled then _ else f) = f.id
    split_ifs <;> rfl
  | recv f hf r chan hchan => exact h.withFeeds (map_id_onFeed fun _ => rfl)

/-- A subscription. -/
theorem Feeds.Tidy.serves_new (h : s.Tidy N) (cap fromLSN : ℕ) (sent : List Record) :
    Feeds.Serves { s with
      feeds := s.feeds ++ [⟨s.next + 1, cap, [], [], true⟩]
      next := s.next + 1 } (s.next + 1) fromLSN sent where
  feed := ⟨_, List.mem_append_right _ List.mem_cons_self, rfl, rfl, [], rfl, nofun⟩
  unstalled := by
    intro p hp hi
    have := h.stalled p hp _ hi
    omega

theorem mem_onFeed_of_mem (fn : Feed → Feed) {f : Feed} (hf : f ∈ s.feeds) (i : ℕ) :
    (if f.id = i then fn f else f) ∈ s.onFeed i fn := List.mem_map.mpr ⟨f, hf, rfl⟩

/-- Feeds other than `i` are not touched. -/
theorem keeps_other (s : Feeds) (fn : Feed → Feed) {i : ℕ} (hne : i ≠ id) :
    ∀ f ∈ s.feeds, f.id = id → f ∈ s.onFeed i fn := by
  intro f hf hid
  have hmem := mem_onFeed_of_mem fn hf i
  rwa [if_neg (fun hi => hne (hi.symm.trans hid))] at hmem

theorem Feeds.Serves.mem_subscribed (h : s.Serves id fromLSN sent) : id ∈ s.subscribed := by
  obtain ⟨f, hf, rfl, hopen, -⟩ := h.feed
  exact List.mem_map_of_mem (List.mem_filter.mpr ⟨hf, hopen⟩)

/-- What a step has to keep when it does not touch the feed itself. -/
theorem Feeds.Serves.keep (h : s.Serves id fromLSN sent) {feeds : List Feed} {next : ℕ}
    {pending : List FanOut} (hkeep : ∀ f ∈ s.feeds, f.id = id → f ∈ feeds)
    (hunstalled : ∀ p ∈ pending, id ∉ p.stalled)
    (hdue : ∀ q ∈ s.pending, q.Due id → ∃ q' ∈ pending, q'.Due id ∧ q'.record = q.record) :
    Feeds.Serves ⟨feeds, next, pending⟩ id fromLSN sent ∧
      ∀ r, s.Reaches id r → Feeds.Reaches ⟨feeds, next, pending⟩ id r := by
  obtain ⟨f, hf, hid, hrest⟩ := h.feed
  refine ⟨⟨⟨f, hkeep f hf hid, hid, hrest⟩, hunstalled⟩, ?_⟩
  rintro r (⟨q, hq, hd, hrs⟩ | ⟨g, hg, hgid, hplaced⟩)
  · obtain ⟨q', hq', hd', hrec⟩ := hdue q hq hd
    exact .inl ⟨q', hq', hd', hrec ▸ hrs⟩
  · exact .inr ⟨g, hkeep g hg hgid, hgid, hplaced⟩

theorem Feeds.Serves.unstalled_setStage (h : s.Serves id fromLSN sent) (htidy : s.Tidy N)
    (hp : p ∈ s.pending) {stage : FanStage} (hstage : id ∉ FanOut.stalled { p with stage := stage }) :
    ∀ q ∈ s.setStage p.record.lsn stage, id ∉ q.stalled := by
  intro q hq
  rcases mem_setStage hq with ⟨hold, -⟩ | ⟨q', hq', hl, rfl⟩
  · exact h.unstalled q hold
  · obtain rfl := htidy.eq_of_lsn hq' hp hl
    exact hstage

/-- A call that goes on is still due where it was. -/
theorem Feeds.Tidy.due_setStage (htidy : s.Tidy N) (hp : p ∈ s.pending) {stage : FanStage}
    (hstage : p.Due id → FanOut.Due { p with stage := stage } id) :
    ∀ q ∈ s.pending, q.Due id →
      ∃ q' ∈ s.setStage p.record.lsn stage, q'.Due id ∧ q'.record = q.record := by
  intro q hq hdue
  by_cases hl : q.record.lsn = p.record.lsn
  · obtain rfl := htidy.eq_of_lsn hq hp hl
    exact ⟨_, mem_setStage_self hp, hstage hdue, rfl⟩
  · exact ⟨q, mem_setStage_of_ne hq hl, hdue, rfl⟩

theorem Feeds.Tidy.due_retire (htidy : s.Tidy N) (hp : p ∈ s.pending) (hnot : ¬ p.Due id) :
    ∀ q ∈ s.pending, q.Due id → ∃ q' ∈ s.retire p.record.lsn, q'.Due id ∧ q'.record = q.record :=
  fun q hq hdue => ⟨q, htidy.mem_retire_of_due hp hq hdue hnot, hdue, rfl⟩

/-- A record is placed on the feed of the session. -/
theorem Feeds.Serves.push (h : s.Serves id fromLSN sent) (htidy : s.Tidy N) (hp : p ∈ s.pending)
    {todo stalled : List ℕ} (hstage : p.stage = .sending todo stalled) (hstalled : id ∉ stalled) :
    Feeds.Serves ⟨s.onFeed id fun f => f.push p.record, s.next,
        s.setStage p.record.lsn (.sending (todo.filter (· ≠ id)) stalled)⟩ id fromLSN sent ∧
      ∀ r, s.Reaches id r → Feeds.Reaches ⟨s.onFeed id fun f => f.push p.record, s.next,
        s.setStage p.record.lsn (.sending (todo.filter (· ≠ id)) stalled)⟩ id r := by
  have hpushed : ∀ f ∈ s.feeds, f.id = id → f.push p.record ∈ s.onFeed id fun f => f.push p.record := by
    intro f hf hid
    have hmem := mem_onFeed_of_mem (fun f => f.push p.record) hf id
    rwa [if_pos hid] at hmem
  obtain ⟨f, hf, hid, hopen, taken, hplaced, htaken⟩ := h.feed
  refine ⟨⟨⟨f.push p.record, hpushed f hf hid, hid, hopen, taken, ?_, htaken⟩,
    h.unstalled_setStage htidy hp hstalled⟩, ?_⟩
  · show f.placed ++ [p.record] = taken ++ (f.chan ++ [p.record])
    rw [hplaced, List.append_assoc]
  · rintro r (⟨q, hq, hdue, hrs⟩ | ⟨g, hg, hgid, r', hr', hrs⟩)
    · by_cases hl : q.record.lsn = p.record.lsn
      · obtain rfl := htidy.eq_of_lsn hq hp hl
        exact .inr ⟨_, hpushed f hf hid, hid, q.record,
          List.mem_append_right _ List.mem_cons_self, hrs⟩
      · exact .inl ⟨q, mem_setStage_of_ne hq hl, hdue, hrs⟩
    · exact .inr ⟨_, hpushed g hg hgid, hgid, r', List.mem_append_left _ hr', hrs⟩

/-- Every step on the feeds that is not of the session itself, as long as its feed has room,
    keeps the feed, what is on it and what is on the way there. -/
theorem Feeds.Serves.step (h : s.Serves id fromLSN sent) (htidy : s.Tidy N)
    (hroom : ∀ lsn, a = .send lsn id → ∀ f ∈ s.feeds, f.id = id → f.chan.length < f.cap)
    (howner : a.owner ≠ some id) (ht : s.Steps a t) :
    t.Serves id fromLSN sent ∧ ∀ r, s.Reaches id r → t.Reaches id r := by
  have hsame : ∀ q ∈ s.pending, q.Due id → ∃ q' ∈ s.pending, q'.Due id ∧ q'.record = q.record :=
    fun q hq hdue => ⟨q, hq, hdue, rfl⟩
  cases ht with
  | subscribe buffer cap hfree =>
    exact h.keep (fun f hf _ => List.mem_append_left _ hf) h.unstalled hsame
  | cancel i hfree =>
    have hne : i ≠ id := by
      rintro rfl
      exact howner rfl
    exact h.keep (keeps_other s _ hne) h.unstalled hsame
  | skip p hp hstage hnone =>
    have hmem := h.mem_subscribed
    rw [hnone] at hmem
    cases hmem
  | begin p hp hstage =>
    exact h.keep (fun f hf _ => hf) (h.unstalled_setStage htidy hp nofun)
      (htidy.due_setStage hp fun _ => h.mem_subscribed)
  | send p hp todo stalled hstage f hf hid hfits =>
    have hstalled := h.unstalled p hp
    rw [FanOut.stalled, hstage] at hstalled
    by_cases hfid : f.id = id
    · subst hfid
      exact h.push htidy hp hstage hstalled
    · refine h.keep (keeps_other s _ hfid) (h.unstalled_setStage htidy hp hstalled)
        (htidy.due_setStage hp fun hdue => ?_)
      rw [FanOut.Due, hstage] at hdue
      exact List.mem_filter.mpr ⟨hdue, decide_eq_true (Ne.symm hfid)⟩
  | stall p hp todo stalled hstage f hf hid hfull =>
    have hfid : f.id ≠ id := by
      rintro rfl
      exact hfull (hroom _ rfl f hf rfl)
    have hstalled := h.unstalled p hp
    rw [FanOut.stalled, hstage] at hstalled
    refine h.keep (fun f hf _ => hf) (h.unstalled_setStage htidy hp ?_)
      (htidy.due_setStage hp fun hdue => ?_)
    · intro hmem
      rcases List.mem_append.mp hmem with hmem | hmem
      · exact hstalled hmem
      · exact hfid (List.mem_singleton.mp hmem).symm
    · rw [FanOut.Due, hstage] at hdue
      exact List.mem_filter.mpr ⟨hdue, decide_eq_true (Ne.symm hfid)⟩
  | finish p hp hstage =>
    refine h.keep (fun f hf _ => hf) (fun q hq => h.unstalled q (mem_retire hq))
      (htidy.due_retire hp ?_)
    rw [FanOut.Due, hstage]
    exact List.not_mem_nil
  | toDrop p hp stalled hstage =>
    have hstalled := h.unstalled p hp
    rw [FanOut.stalled, hstage] at hstalled
    refine h.keep (fun f hf _ => hf) (h.unstalled_setStage htidy hp hstalled)
      (htidy.due_setStage hp fun hdue => ?_)
    rw [FanOut.Due, hstage] at hdue
    cases hdue
  | drop p hp stalled hstage hfree =>
    have hstalled := h.unstalled p hp
    rw [FanOut.stalled, hstage] at hstalled
    refine h.keep (fun f hf hid => ?_) (fun q hq => h.unstalled q (mem_retire hq))
      (htidy.due_retire hp ?_)
    · exact List.mem_map.mpr ⟨f, hf, if_neg (hid ▸ hstalled)⟩
    · rw [FanOut.Due, hstage]
      exact not_false
  | recv f hf r chan hchan =>
    have hne : f.id ≠ id := by
      rintro rfl
      exact howner rfl
    exact h.keep (keeps_other s _ hne) h.unstalled hsame

/-- The session takes a record from its feed. -/
theorem Feeds.Serves.recv (h : s.Serves id fromLSN sent) (htidy : s.Tidy N)
    (ht : s.recv id = some (r, t)) {sent' : List Record} (hsent : sent ⊆ sent')
    (hr : fromLSN < r.lsn → r ∈ sent') :
    t.Serves id fromLSN sent' ∧ ∀ r, s.Reaches id r → t.Reaches id r := by
  obtain ⟨g, hg, hgid, chan, hchan, rfl⟩ := Feeds.recv_eq ht
  obtain ⟨f, hf, hid, hopen, taken, hplaced, htaken⟩ := h.feed
  obtain rfl : g = f := List.inj_on_of_nodup_map htidy.nodup hg hf (hgid.trans hid.symm)
  have hmem : ∀ f ∈ s.feeds, f.id = id →
      { f with chan := chan } ∈ s.onFeed id fun f => { f with chan := chan } := by
    intro f hf hid
    have hmem := mem_onFeed_of_mem (fun f => { f with chan := chan }) hf id
    rwa [if_pos hid] at hmem
  refine ⟨⟨⟨_, hmem g hf hid, hid, hopen, taken ++ [r], ?_, ?_⟩, h.unstalled⟩, ?_⟩
  · show g.placed = taken ++ [r] ++ chan
    rw [hplaced, hchan, List.append_assoc]
    rfl
  · intro x hx hlt
    rcases List.mem_append.mp hx with hx | hx
    · exact hsent (htaken x hx hlt)
    · obtain rfl := List.mem_singleton.mp hx
      exact hr hlt
  · rintro x (hdue | ⟨f', hf', hid', hplaced'⟩)
    · exact .inl hdue
    · exact .inr ⟨_, hmem f' hf' hid', hid', hplaced'⟩

end Feeds

/-! ## The files -/

/-- The segments left to scan: all but the last one are sealed. -/
def Layout.Scannable (L : Layout) : List SegmentInfo → Prop
  | [] => True
  | seg :: segs => ((∃ x ∈ L.sealed, seg.path = x.path) ∧ L.Scannable segs) ∨
      (seg.path = L.last.path ∧ segs = [])

section Files

variable {L L' : Layout} {r : Record} {segs : List SegmentInfo}

theorem fileRecords_sealed {x : SegmentImage} (hx : x ∈ L.sealed) :
    fileRecords L.disk x.path = x.records := by
  have hscan := scannedRecords_image (L.sealed_fits hx) le_rfl
  rw [List.take_length, SegmentImage.whole_length] at hscan
  rw [fileRecords, L.read_sealed hx]
  exact hscan

theorem fileRecords_last (L : Layout) :
    fileRecords L.disk L.last.path = L.last.whole L.size := by
  rw [fileRecords, L.read_last]
  exact scannedRecords_image L.last_fits L.size_le

theorem Layout.Grows.path (h : L.Grows L') :
    L'.last.path = L.last.path ∨ ∃ x ∈ L'.sealed, L.last.path = x.path := by
  rcases h.last with ⟨hname, -⟩ | hsealed
  · exact .inl (by rw [SegmentImage.path, SegmentImage.path, hname])
  · exact .inr ⟨L.last, hsealed, rfl⟩

theorem Layout.Grows.scannable (h : L.Grows L') (hs : L.Scannable segs) : L'.Scannable segs := by
  induction segs with
  | nil => trivial
  | cons seg segs ih =>
    rcases hs with ⟨⟨x, hx, hpath⟩, hrest⟩ | ⟨hpath, rfl⟩
    · exact .inl ⟨⟨x, h.sealed hx, hpath⟩, ih hrest⟩
    · rcases h.path with hlast | ⟨x, hx, hlast⟩
      · exact .inr ⟨hpath.trans hlast.symm, rfl⟩
      · exact .inl ⟨⟨x, hx, hpath.trans hlast⟩, trivial⟩

/-- The files of segments that are left to scan keep their records. -/
theorem Layout.Grows.fileRecords (h : L.Grows L') (hs : L.Scannable segs) {seg : SegmentInfo}
    (hseg : seg ∈ segs) (hr : r ∈ fileRecords L.disk seg.path) :
    r ∈ fileRecords L'.disk seg.path := by
  induction segs with
  | nil => cases hseg
  | cons y segs ih =>
    rcases hs with ⟨⟨x, hx, hpath⟩, hrest⟩ | ⟨hpath, rfl⟩
    · rcases List.mem_cons.mp hseg with rfl | hseg
      · rw [hpath, fileRecords_sealed hx] at hr
        rwa [hpath, fileRecords_sealed (h.sealed hx)]
      · exact ih hrest hseg
    · obtain rfl := List.mem_singleton.mp hseg
      rw [hpath, fileRecords_last] at hr
      rcases h.last with ⟨hname, hsub⟩ | hsealed
      · have hlast : L.last.path = L'.last.path := by
          rw [SegmentImage.path, SegmentImage.path, hname]
        rw [hpath, hlast, fileRecords_last]
        exact hsub hr
      · rw [hpath, fileRecords_sealed hsealed]
        exact (L.last.whole_sublist L.size).subset hr

theorem Layout.scannable_list (L : Layout) : L.Scannable (listSegments L.disk) := by
  rw [L.listSegments_disk]
  have hall : ∀ xs : List SegmentImage, xs ⊆ L.sealed →
      L.Scannable (xs.map (fun x => x.info x.bytes.length) ++ [L.last.info L.size]) := by
    intro xs
    induction xs with
    | nil => exact fun _ => .inr ⟨rfl, rfl⟩
    | cons x xs ih =>
      intro hsub
      exact .inl ⟨⟨x, hsub List.mem_cons_self, rfl⟩,
        ih fun y hy => hsub (List.mem_cons_of_mem _ hy)⟩
  exact hall L.sealed fun _ => id

theorem exists_seg_of_mem {d : Disk Bytes} (h : r ∈ (logSegments d).flatMap Prod.snd) :
    ∃ seg ∈ listSegments d, r ∈ fileRecords d seg.path := by
  obtain ⟨x, hx, hr⟩ := List.mem_flatMap.mp h
  obtain ⟨seg, hseg, rfl⟩ := List.mem_map.mp hx
  exact ⟨seg, hseg, hr⟩

theorem foldlM_shipRecord (fromLSN : ℕ) (rs sent : List Record) :
    rs.foldlM (shipRecord fromLSN) sent = .ok (sent ++ rs.filter fun r => fromLSN < r.lsn) := by
  induction rs generalizing sent with
  | nil => rw [List.filter_nil, List.append_nil]; rfl
  | cons r rs ih =>
    rw [List.foldlM_cons, shipRecord]
    split_ifs with hle
    · rw [List.filter_cons_of_neg (by simpa using hle)]
      exact ih sent
    · rw [List.filter_cons_of_pos (by simpa using hle)]
      exact (ih (sent ++ [r])).trans (by rw [List.append_assoc]; rfl)

/-- Scanning the next segment sends what its file holds above the LSN, and stops the loop
    only at the last one. -/
theorem Layout.Scannable.scan {c c' : Session} {id : ℕ} {seg : SegmentInfo}
    (hstage : c.stage = .scanning id (seg :: segs)) (hs : L.Scannable (seg :: segs))
    (hc : c.scan L.disk = some c') :
    c'.fromLSN = c.fromLSN ∧ (c'.stage = .scanning id segs ∨ (c'.stage = .live id ∧ segs = [])) ∧
      L.Scannable segs ∧
      c'.sent = c.sent ++ (fileRecords L.disk seg.path).filter fun r => c.fromLSN < r.lsn := by
  unfold Session.scan at hc
  rw [hstage] at hc
  obtain ⟨f, hf, hc⟩ := Option.bind_eq_some_iff.mp hc
  rcases hs with ⟨⟨x, hx, hpath⟩, hrest⟩ | ⟨hpath, rfl⟩
  · rw [hpath, L.read_sealed hx] at hf
    obtain rfl := Option.some.inj hf
    obtain ⟨res, hfault, hscan⟩ := scanSegment_full (shipRecord c.fromLSN) (L.sealed_fits hx)
    have hscan' := hscan c.sent
    rw [foldlM_shipRecord] at hscan'
    simp only [hscan'] at hc
    obtain rfl := Option.some.inj hc
    refine ⟨rfl, .inl (if_neg (by simp [hfault])), hrest, ?_⟩
    rw [hpath, fileRecords_sealed hx]
  · rw [hpath, L.read_last] at hf
    obtain rfl := Option.some.inj hf
    obtain ⟨res, -, hscan⟩ := scanSegment_image (shipRecord c.fromLSN) L.last_fits L.size_le
    have hscan' := hscan c.sent
    rw [foldlM_shipRecord] at hscan'
    simp only [hscan'] at hc
    obtain rfl := Option.some.inj hc
    refine ⟨rfl, ?_, trivial, ?_⟩
    · by_cases hfault : res.fault = .none
      · exact .inl (if_neg (not_not.mpr hfault))
      · exact .inr ⟨if_pos hfault, rfl⟩
    · rw [hpath, fileRecords_last]

end Files

/-! ## Whole runs -/

/-- The segments left to scan. -/
def SessionStage.left : SessionStage → List SegmentInfo
  | .scanning _ segs => segs
  | _ => []

/-- The segments have been listed, and the session is on the partial path. -/
def SessionStage.Listed : SessionStage → Prop
  | .scanning _ _ => True
  | .live _ => True
  | _ => False

/-- Every record above the LSN is on the feed or on the way there, has been sent, or is in a
    segment that is left to scan. -/
structure Shipping.Progress (base : List Record) (L : Layout) (id : ℕ) (s : Shipping) : Prop where
  scannable : L.Scannable s.session.stage.left
  found : ∀ r ∈ base ++ s.wal.accepted, s.session.fromLSN < r.lsn → s.feeds.Reaches id r ∨
    (∃ r' ∈ s.session.sent, r'.Restamps r) ∨
    ∃ seg ∈ s.session.stage.left, r ∈ fileRecords L.disk seg.path

/-- The invariant, before and after the session has its feed. -/
inductive Shipping.Inv (o : WriterOptions) (start : ℕ) (base : List Record) (s : Shipping) : Prop
  | idle (hstage : s.session.stage = .idle) (hwal : s.wal.OrderedFrom o start base)
      (htidy : s.feeds.Tidy (start + s.wal.accepted.length))
  | active (id : ℕ) (w : Writer) (L : Layout) (hstage : s.session.stage.feed = some id)
      (hwal : s.wal.Ordered o start base w L)
      (htidy : s.feeds.Tidy (start + s.wal.accepted.length))
      (hserves : s.feeds.Serves id s.session.fromLSN s.session.sent)
      (hprogress : s.session.stage.Listed → s.Progress base L id)

section Runs

variable {o : WriterOptions} {start : ℕ} {base : List Record} {s t : Shipping}

theorem Record.Restamps.refl (r : Record) : r.Restamps r := rfl

theorem WalSys.OrderedFrom.lsns {s : WalSys} (h : s.OrderedFrom o start base) :
    s.accepted.map Record.lsn = List.range' start s.accepted.length := by
  rcases h with ⟨-, hacc, -⟩ | ⟨w, L, h⟩
  · rw [hacc]
    rfl
  · exact h.dense.lsns

theorem onWriter_accepted {s s' : WalSys} {f : Writer → Option Writer}
    (h : s.onWriter f = some s') : s'.accepted = s.accepted := by
  unfold WalSys.onWriter at h
  split at h
  · obtain ⟨w', -, rfl⟩ := Option.map_eq_some_iff.mp h
    rfl
  · cases h

theorem call_accepted {s s' : WalSys} {res : IoResult} {nowMs : UInt64}
    (h : s.call o res nowMs = some s') : s'.accepted = s.accepted := by
  unfold WalSys.call at h
  split at h
  · cases h
  · split at h <;> cases h <;> rfl
  · obtain ⟨p, -, rfl⟩ := Option.map_eq_some_iff.mp h
    rfl

/-- A record is handed to the feeds exactly when it is accepted. -/
theorem WalSys.step_handed {s s' : WalSys} {a : WalAction} (hok : a.Smooth s)
    (h : s.step o a = some s') :
    (s.handed o a = none ∧ s'.accepted = s.accepted) ∨
      ∃ r x, s.handed o a = some r ∧ s'.accepted = s.accepted ++ [x] ∧ r.Restamps x := by
  cases a with
  | recover => exact hok.elim
  | crash keep => exact hok.elim
  | check r => exact .inl ⟨rfl, onWriter_accepted h⟩
  | take => exact .inl ⟨rfl, onWriter_accepted h⟩
  | gather => exact .inl ⟨rfl, onWriter_accepted h⟩
  | flush => exact .inl ⟨rfl, onWriter_accepted h⟩
  | close => exact .inl ⟨rfl, onWriter_accepted h⟩
  | call res nowMs => exact .inl ⟨rfl, call_accepted h⟩
  | finish =>
    refine .inl ⟨rfl, ?_⟩
    rw [WalSys.step] at h
    split at h
    · obtain ⟨p, -, rfl⟩ := Option.map_eq_some_iff.mp h
      rfl
    · cases h
  | send i nowMs =>
    rw [WalSys.step] at h
    split at h
    · rename_i w hproc
      obtain ⟨⟨x, w'⟩, hsend, rfl⟩ := Option.map_eq_some_iff.mp h
      rw [WalSys.handed, hproc]
      dsimp only
      rw [hsend]
      unfold Writer.send at hsend
      split at hsend
      · cases hsend
      rename_i r hcall
      simp only [hcall]
      split_ifs at hsend
      · cases hsend
        exact .inl ⟨rfl, List.append_nil _⟩
      · cases hsend
        exact .inr ⟨_, _, rfl, rfl, rfl⟩
    · cases h

/-- The record handed over has the next LSN. -/
theorem lsn_of_handed {s s' : WalSys} {r x : Record} (h : s'.OrderedFrom o start base)
    (hacc : s'.accepted = s.accepted ++ [x]) (hr : r.Restamps x) :
    r.lsn = start + s.accepted.length := by
  have hlsns := h.lsns
  rw [hacc, List.map_append, List.length_append, List.length_singleton, List.range'_concat,
    Nat.one_mul] at hlsns
  have hx := (List.append_inj' hlsns rfl).2
  rw [hr]
  exact List.head_eq_of_cons_eq hx

/-- The numbering of the feeds goes on with the log. -/
theorem Feeds.Tidy.handed {s s' : WalSys} {a : WalAction} {feeds : Feeds}
    (htidy : feeds.Tidy (start + s.accepted.length)) (hok : a.Smooth s)
    (h : s.step o a = some s') (h' : s'.OrderedFrom o start base) :
    ((s.handed o a).elim feeds fun r => feeds.enter r false).Tidy (start + s'.accepted.length) := by
  rcases WalSys.step_handed hok h with ⟨hnone, hacc⟩ | ⟨r, x, hsome, hacc, hrs⟩
  · rw [hnone, hacc]
    exact htidy
  · rw [hsome, hacc, List.length_append, List.length_singleton, ← Nat.add_assoc]
    exact htidy.enter (lsn_of_handed h' hacc hrs) false

theorem Feeds.Serves.enter {feeds : Feeds} {id fromLSN : ℕ} {sent : List Record}
    (h : feeds.Serves id fromLSN sent) (r : Record) (drainer : Bool) :
    (feeds.enter r drainer).Serves id fromLSN sent ∧
      ∀ x, feeds.Reaches id x → (feeds.enter r drainer).Reaches id x := by
  refine h.keep (fun f hf _ => hf) (fun p hp => ?_)
    fun q hq hdue => ⟨q, List.mem_append_left _ hq, hdue, rfl⟩
  rcases List.mem_append.mp hp with hp | hp
  · exact h.unstalled p hp
  · rw [List.mem_singleton.mp hp]
    exact List.not_mem_nil

/-- A step of the log writer, or a record that `Submit` has just accepted. -/
theorem Shipping.Inv.wal (h : s.Inv o start base) (hsize : segmentHdrLen < o.segmentSize)
    {a : WalAction} (hok : a.Smooth s.wal) (ht : s.step o (.wal a) = some t) :
    t.Inv o start base := by
  obtain ⟨wal, hwal', rfl⟩ := Option.map_eq_some_iff.mp ht
  cases h with
  | idle hstage hwal htidy =>
    have hwal'' := hwal.step hsize hok hwal'
    exact .idle hstage hwal'' (htidy.handed hok hwal' hwal'')
  | active id w L hstage hwal htidy hserves hprogress =>
    obtain ⟨w', L', hord, hgrows⟩ := hwal.step hsize hok hwal'
    have htidy' := htidy.handed hok hwal' (.inr ⟨w', L', hord⟩)
    -- what is in the files stays there
    have hkeep : s.session.stage.Listed → ∀ r ∈ base ++ s.wal.accepted,
        s.session.fromLSN < r.lsn → s.feeds.Reaches id r ∨
          (∃ r' ∈ s.session.sent, r'.Restamps r) ∨
          ∃ seg ∈ s.session.stage.left, r ∈ fileRecords L'.disk seg.path := by
      intro hlisted r hr hlt
      have hp := hprogress hlisted
      rcases hp.found r hr hlt with hreach | hsent | ⟨seg, hseg, hfile⟩
      · exact .inl hreach
      · exact .inr (.inl hsent)
      · exact .inr (.inr ⟨seg, hseg, hgrows.fileRecords hp.scannable hseg hfile⟩)
    rcases WalSys.step_handed hok hwal' with ⟨hnone, hacc⟩ | ⟨r, x, hsome, hacc, hrs⟩
    · rw [hnone] at htidy' ⊢
      refine .active id w' L' hstage hord htidy' hserves fun hlisted => ?_
      refine ⟨hgrows.scannable (hprogress hlisted).scannable, ?_⟩
      show ∀ r ∈ base ++ wal.accepted, _
      rw [hacc]
      exact hkeep hlisted
    · rw [hsome] at htidy' ⊢
      obtain ⟨hserves', hreaches⟩ := hserves.enter r false
      refine .active id w' L' hstage hord htidy' hserves' fun hlisted => ?_
      refine ⟨hgrows.scannable (hprogress hlisted).scannable, ?_⟩
      show ∀ r ∈ base ++ wal.accepted, _
      rw [hacc, ← List.append_assoc]
      intro y hy hlt
      rcases List.mem_append.mp hy with hy | hy
      · rcases hkeep hlisted y hy hlt with hreach | hrest
        · exact .inl (hreaches y hreach)
        · exact .inr hrest
      · -- the new record is on its way to the feed
        obtain rfl := List.mem_singleton.mp hy
        exact .inl (.inl ⟨_, List.mem_append_right _ List.mem_cons_self, trivial, hrs⟩)

theorem Shipping.Inv.feed (h : s.Inv o start base) {a : FeedAction}
    (hok : ShipAction.Covered s (.feed a)) (ht : s.step o (.feed a) = some t) :
    t.Inv o start base := by
  have ht : (if a.owner ≠ none ∧ a.owner = s.session.stage.feed then none
    else (s.feeds.step a).map fun feeds => { s with feeds := feeds }) = some t := ht
  split_ifs at ht with howner
  obtain ⟨feeds, hfeeds, rfl⟩ := Option.map_eq_some_iff.mp ht
  have hsteps := Feeds.steps_of_step hfeeds
  cases h with
  | idle hstage hwal htidy => exact .idle hstage hwal (htidy.step hsteps)
  | active id w L hstage hwal htidy hserves hprogress =>
    have howner' : a.owner ≠ some id := fun ha => howner ⟨by rw [ha]; exact nofun, by rw [ha, hstage]⟩
    have hroom : ∀ lsn, a = .send lsn id → ∀ f ∈ s.feeds.feeds, f.id = id →
        f.chan.length < f.cap := by
      rintro lsn rfl
      exact hok hstage
    obtain ⟨hserves', hreaches⟩ := hserves.step htidy hroom howner' hsteps
    refine .active id w L hstage hwal (htidy.step hsteps) hserves' fun hlisted => ?_
    have hp := hprogress hlisted
    refine ⟨hp.scannable, fun r hr hlt => ?_⟩
    rcases hp.found r hr hlt with hreach | hrest
    · exact .inl (hreaches r hreach)
    · exact .inr hrest

theorem Shipping.Inv.connect (h : s.Inv o start base) {fromLSN : ℕ} {buffer : ℤ}
    (ht : s.step o (.connect fromLSN buffer) = some t) : t.Inv o start base := by
  rw [Shipping.step] at ht
  split at ht
  · rename_i w hidle hproc
    obtain ⟨feeds, hfeeds, rfl⟩ := Option.map_eq_some_iff.mp ht
    have hsteps := Feeds.steps_of_step (a := .subscribe buffer) hfeeds
    cases h with
    | idle hstage hwal htidy =>
      obtain ⟨w', L, hord⟩ : ∃ w L, s.wal.Ordered o start base w L := by
        rcases hwal with ⟨-, -, -, -, -, hdown, -⟩ | hord
        · exact absurd hproc (hdown w)
        · exact hord
      have htidy' := htidy.step hsteps
      cases hsteps with
      | subscribe buffer cap hfree =>
        exact .active _ w' L rfl hord htidy' (htidy.serves_new cap _ _) nofun
    | active id w L hstage hwal htidy hserves hprogress =>
      rw [hidle] at hstage
      cases hstage
  · cases ht

theorem Shipping.Inv.list (h : s.Inv o start base) (hok : ShipAction.Covered s .list)
    (ht : s.step o .list = some t) : t.Inv o start base := by
  rw [Shipping.step] at ht
  split at ht
  · rename_i id' hsub
    obtain rfl := Option.some.inj ht
    cases h with
    | idle hstage hwal htidy =>
      rw [hsub] at hstage
      cases hstage
    | active id w L hstage hwal htidy hserves hprogress =>
      obtain rfl : id' = id := by
        rw [hsub] at hstage
        exact Option.some.inj hstage
      by_cases hfull : needFull s.session.fromLSN (listSegments s.wal.disk)
      · simp only [hfull, if_true]
        exact .active id' w L rfl hwal htidy hserves nofun
      · simp only [hfull]
        refine .active id' w L rfl hwal htidy hserves fun _ => ⟨?_, fun r hr hlt => ?_⟩
        · show L.Scannable (listSegments s.wal.disk)
          rw [hwal.disk]
          exact L.scannable_list
        · -- the files hold all that was there before
          obtain ⟨written, hpresent, -⟩ := hwal.dense.written hwal.live.fatal
          have hfile : s.feeds.Reaches id' r ∨ r ∈ (logSegments s.wal.disk).flatMap Prod.snd := by
            rcases List.mem_append.mp hr with hr | hr
            · right
              rw [hwal.disk, L.logSegments_disk, L.flatMap_segments, hpresent]
              exact List.mem_append_left _ hr
            · exact hok id' (by rw [hsub]; rfl) r hr
          rcases hfile with hreach | hfile
          · exact .inl hreach
          · obtain ⟨seg, hseg, hin⟩ := exists_seg_of_mem hfile
            exact .inr (.inr ⟨seg, hseg, hwal.disk ▸ hin⟩)
  · cases ht

theorem Feeds.Serves.mono {feeds : Feeds} {id fromLSN : ℕ} {sent sent' : List Record}
    (h : feeds.Serves id fromLSN sent) (hsub : sent ⊆ sent') : feeds.Serves id fromLSN sent' := by
  obtain ⟨f, hf, hid, hopen, taken, hplaced, htaken⟩ := h.feed
  exact ⟨⟨f, hf, hid, hopen, taken, hplaced, fun r hr hlt => hsub (htaken r hr hlt)⟩, h.unstalled⟩

theorem Shipping.Inv.scan (h : s.Inv o start base) (ht : s.step o .scan = some t) :
    t.Inv o start base := by
  obtain ⟨c, hc, rfl⟩ := Option.map_eq_some_iff.mp ht
  cases h with
  | idle hstage hwal htidy =>
    rw [Session.scan, hstage] at hc
    cases hc
  | active id w L hstage hwal htidy hserves hprogress =>
    cases hs : s.session.stage with
    | scanning id' segs =>
      obtain rfl : id' = id := by
        rw [hs] at hstage
        exact Option.some.inj hstage
      have hp := hprogress (by rw [hs]; trivial)
      cases segs with
      | nil =>
        rw [Session.scan, hs] at hc
        obtain rfl := Option.some.inj hc
        refine .active id' w L rfl hwal htidy hserves fun _ => ⟨trivial, ?_⟩
        have hfound := hp.found
        rw [hs] at hfound
        exact hfound
      | cons seg segs =>
        have hscannable := hp.scannable
        rw [hs] at hscannable
        rw [hwal.disk] at hc
        obtain ⟨hfrom, hstage', hrest, hsent⟩ := hscannable.scan hs hc
        have hleft : c.stage.left = segs ∧ c.stage.feed = some id' := by
          rcases hstage' with hstage' | ⟨hstage', rfl⟩ <;> rw [hstage'] <;> exact ⟨rfl, rfl⟩
        have hsub : s.session.sent ⊆ c.sent := hsent ▸ List.subset_append_left _ _
        refine .active id' w L hleft.2 hwal htidy ?_ fun _ => ⟨?_, fun r hr hlt => ?_⟩
        · show s.feeds.Serves id' c.fromLSN c.sent
          rw [hfrom]
          exact hserves.mono hsub
        · show L.Scannable c.stage.left
          rw [hleft.1]
          exact hrest
        · have hlt : s.session.fromLSN < r.lsn := hfrom ▸ hlt
          show s.feeds.Reaches id' r ∨ (∃ r' ∈ c.sent, r'.Restamps r) ∨
            ∃ seg ∈ c.stage.left, r ∈ fileRecords L.disk seg.path
          rw [hleft.1]
          rcases hp.found r hr hlt with hreach | ⟨r', hr', hrs⟩ | ⟨y, hy, hfile⟩
          · exact .inl hreach
          · exact .inr (.inl ⟨r', hsub hr', hrs⟩)
          · rw [hs] at hy
            rcases List.mem_cons.mp hy with rfl | hy
            · refine .inr (.inl ⟨r, ?_, .refl r⟩)
              rw [hsent]
              exact List.mem_append_right _ (List.mem_filter.mpr ⟨hfile, decide_eq_true hlt⟩)
            · exact .inr (.inr ⟨y, hy, hfile⟩)
    | _ =>
      rw [Session.scan, hs] at hc
      cases hc

theorem Shipping.Inv.forward (h : s.Inv o start base) (ht : s.step o .forward = some t) :
    t.Inv o start base := by
  rw [Shipping.step] at ht
  split at ht
  · rename_i id' hlive
    obtain ⟨⟨r, feeds⟩, hrecv, rfl⟩ := Option.map_eq_some_iff.mp ht
    cases h with
    | idle hstage hwal htidy =>
      rw [hlive] at hstage
      cases hstage
    | active id w L hstage hwal htidy hserves hprogress =>
      obtain rfl : id' = id := by
        rw [hlive] at hstage
        exact Option.some.inj hstage
      have hp := hprogress (by rw [hlive]; trivial)
      obtain ⟨hstage', hfrom, hsub, hnew⟩ :
          (s.session.forward r).stage = s.session.stage ∧
          (s.session.forward r).fromLSN = s.session.fromLSN ∧
          s.session.sent ⊆ (s.session.forward r).sent ∧
          (s.session.fromLSN < r.lsn → r ∈ (s.session.forward r).sent) := by
        unfold Session.forward
        split_ifs with hskip
        · exact ⟨rfl, rfl, fun _ => id, fun hlt => by omega⟩
        · exact ⟨rfl, rfl, List.subset_append_left _ _,
            fun _ => List.mem_append_right _ List.mem_cons_self⟩
      obtain ⟨hserves', hreaches⟩ := hserves.recv htidy hrecv hsub hnew
      obtain ⟨g, hg, hgid, chan, hchan, hfeeds⟩ := Feeds.recv_eq hrecv
      have htidy' : feeds.Tidy (start + s.wal.accepted.length) := by
        rw [hfeeds]
        exact htidy.withFeeds (map_id_onFeed fun _ => rfl)
      refine .active id' w L (by rw [hstage']; exact hstage) hwal htidy' (hfrom ▸ hserves')
        fun _ => ⟨?_, fun x hx hlt => ?_⟩
      · show L.Scannable (s.session.forward r).stage.left
        rw [hstage']
        exact hp.scannable
      · rw [hstage']
        rcases hp.found x hx (hfrom ▸ hlt) with hreach | ⟨r', hr', hrs⟩ | hfile
        · exact .inl (hreaches x hreach)
        · exact .inr (.inl ⟨r', hsub hr', hrs⟩)
        · exact .inr (.inr hfile)
  · cases ht

theorem Shipping.Inv.step (h : s.Inv o start base) (hsize : segmentHdrLen < o.segmentSize)
    {a : ShipAction} (hok : a.Covered s) (ht : s.step o a = some t) : t.Inv o start base := by
  cases a with
  | wal a => exact h.wal hsize hok ht
  | feed a => exact h.feed hok ht
  | connect fromLSN buffer => exact h.connect ht
  | list => exact h.list hok ht
  | scan => exact h.scan ht
  | forward => exact h.forward ht
  | ack lsn =>
    obtain rfl := Option.some.inj ht
    cases h with
    | idle hstage hwal htidy => exact .idle hstage hwal htidy
    | active id w L hstage hwal htidy hserves hprogress =>
      exact .active id w L hstage hwal htidy hserves fun hlisted =>
        ⟨(hprogress hlisted).scannable, (hprogress hlisted).found⟩

/-- **No record falls between catch-up and the feed.** When the segments are listed with all
    that was fanned out before the subscription in them, and the feed does not overflow, then
    once the session is live, no writer is on its way through the feeds and the feed of the
    session is drained, every record above the replica's LSN, from before this process or
    accepted by it, has been sent. -/
theorem catch_up_complete {segs : List (ℕ × List Record)} {wal₀ : WalSys} {c₀ : Session} {id : ℕ}
    (hsize : 4096 ≤ o.segmentSize) (hopen : WalSys.Opened start segs wal₀)
    (hidle : c₀.stage = .idle)
    (hrun : Run (Shipping.step o) (fun s a => a.Covered s) ⟨wal₀, .init, c₀⟩ s)
    (hlive : s.session.stage = .live id) (hdone : s.feeds.pending = [])
    (hdrained : ∀ f ∈ s.feeds.feeds, f.id = id → f.chan = []) :
    ∀ r ∈ segs.flatMap Prod.snd ++ s.wal.accepted, s.session.fromLSN < r.lsn →
      ∃ r' ∈ s.session.sent, r'.Restamps r := by
  have hlt : segmentHdrLen < o.segmentSize := lt_of_lt_of_le (by decide) hsize
  have hstart : Shipping.Inv o start (segs.flatMap Prod.snd) ⟨wal₀, .init, c₀⟩ :=
    .idle hidle hopen.ordered ⟨⟨.nil, nofun⟩, .nil, nofun, nofun⟩
  have hinv := hrun.invariant (fun _ _ _ h hok ht => Shipping.Inv.step h hlt hok ht) hstart
  intro r hr hfrom
  cases hinv with
  | idle hstage hwal htidy =>
    rw [hlive] at hstage
    cases hstage
  | active id' w L hstage hwal htidy hserves hprogress =>
    obtain rfl : id = id' := by
      rw [hlive] at hstage
      exact Option.some.inj hstage
    have hp := hprogress (by rw [hlive]; trivial)
    rcases hp.found r hr hfrom with (⟨p, hp, -⟩ | ⟨f, hf, hid, r', hr', hrs⟩) | hsent | ⟨seg, hseg, -⟩
    · rw [hdone] at hp
      cases hp
    · -- all that was placed on the drained feed has been forwarded
      obtain ⟨g, hg, hgid, -, taken, hplaced, htaken⟩ := hserves.feed
      obtain rfl : g = f := List.inj_on_of_nodup_map htidy.nodup hg hf (hgid.trans hid.symm)
      rw [hplaced, hdrained g hg hgid, List.append_nil] at hr'
      refine ⟨r', htaken r' hr' ?_, hrs⟩
      rw [hrs]
      exact hfrom
    · exact hsent
    · rw [hlive] at hseg
      cases hseg

end Runs

/-! ## Two records -/

/-- A primary that makes its first segment, and no session. -/
def shippingStart : Shipping :=
  ⟨⟨[], .opening 1 .create, [], []⟩, .init, ⟨.idle, 0, 0, []⟩⟩

/-- A record from `Submit` to the file, then one that is fanned out and not written yet. -/
def oneWritten : List ShipAction :=
  [.wal (.call .ok 0), .wal (.call .ok 0), .wal (.call .ok 0), .wal (.call .ok 0),
    .wal (.check sampleRecord), .wal (.send 0 7), .feed (.begin 1), .wal .take, .wal .flush,
    .wal (.call .ok 0), .wal .finish, .wal .finish, .wal (.check sampleRecord), .wal (.send 0 7),
    .feed (.begin 2)]

/-- The second record is written before the segments are listed, a third one comes over the
    feed. -/
theorem catch_up_complete_two :
    ∃ s, Run (Shipping.step lazyOptions) (fun s a => a.Covered s) shippingStart s ∧
      s.session.fromLSN = 1 ∧ s.wal.accepted.map Record.lsn = [1, 2, 3] ∧
      ∀ r ∈ s.wal.accepted, 1 < r.lsn → ∃ r' ∈ s.session.sent, r'.Restamps r := by
  obtain ⟨s, hrun, hlive, hdone, hdrained, hfrom, hlsns⟩ :=
    Run.exists_of_guarded (Shipping.step lazyOptions) (fun s a => a.Covered s) shippingStart
      (oneWritten ++ [.connect 1 0, .wal .take, .wal .flush, .wal (.call .ok 0), .list, .scan,
        .wal (.check sampleRecord), .wal (.send 0 7), .feed (.begin 3), .feed (.send 3 1), .scan,
        .feed (.finish 3), .forward])
      (fun s => s.session.stage = .live 1 ∧ s.feeds.pending = [] ∧
        (∀ f ∈ s.feeds.feeds, f.id = 1 → f.chan = []) ∧ s.session.fromLSN = 1 ∧
        s.wal.accepted.map Record.lsn = [1, 2, 3])
      (by decide +kernel)
  refine ⟨s, hrun, hfrom, hlsns, ?_⟩
  have hsent := catch_up_complete (o := lazyOptions) (by decide) (.fresh (by decide) (by decide))
    rfl hrun hlive hdone hdrained
  rw [hfrom] at hsent
  exact hsent

/-- The second record was fanned out before the session subscribed and is written after it has
    scanned the files. It is never sent, although it is committed, the session is live and its
    feed is empty. -/
theorem catch_up_misses_unflushed :
    ∃ s, Run (Shipping.step lazyOptions) Always shippingStart s ∧
      s.session.stage = .live 1 ∧ s.session.fromLSN = 1 ∧ s.feeds.pending = [] ∧
      (∀ f ∈ s.feeds.feeds, f.isOpen = true ∧ f.chan = []) ∧
      s.wal.finished.map (fun x => (x.1.lsn, x.2)) = [(1, true), (2, true)] ∧
      s.session.sent = [] :=
  Run.exists_of_exec (Shipping.step lazyOptions) shippingStart
    (oneWritten ++ [.connect 1 0, .list, .scan, .scan, .wal .take, .wal .flush,
      .wal (.call .ok 0), .wal .finish, .wal .finish])
    (fun s => s.session.stage = .live 1 ∧ s.session.fromLSN = 1 ∧ s.feeds.pending = [] ∧
      (∀ f ∈ s.feeds.feeds, f.isOpen = true ∧ f.chan = []) ∧
      s.wal.finished.map (fun x => (x.1.lsn, x.2)) = [(1, true), (2, true)] ∧
      s.session.sent = [])
    (by decide +kernel)

end KvStore
