import KvStore.Common.Run
import KvStore.Wal.Log

/-!
# Feeds of replicas

Model of `Subscribe` and `fanOutToReplicas` (`internal/engine/commands.go` lines 383–434).
A writer whose record has its LSN calls `fanOutToReplicas` outside of every shard lock:
it takes `replMu` for reading, sends the record to the feeds one after another in any
order, without blocking, and drops the feeds that were full afterwards, under the same
lock taken for writing. Any number of writers are between `Submit` and the end of that call.
-/

namespace KvStore

/-- How far a call of `fanOutToReplicas` has come: it waits for `replMu`, it has `todo` left
    to send to and found `stalled` full, or it waits to drop `stalled`. -/
inductive FanStage
  | ready
  | sending (todo stalled : List ℕ)
  | dropping (stalled : List ℕ)
  deriving DecidableEq, Repr

/-- A record between `Submit` and the end of its fan-out; the calls of the goroutine that logs
    removals are marked, because it makes one at a time. -/
structure FanOut where
  record : Record
  drainer : Bool
  stage : FanStage
  deriving DecidableEq, Repr

/-- A feed: its channel, and the history of what was placed on it. -/
structure Feed where
  id : ℕ
  cap : ℕ
  chan : List Record
  placed : List Record
  isOpen : Bool
  deriving DecidableEq, Repr

/-- `replFeeds`, `replNext` and the writers on their way through `fanOutToReplicas`. -/
structure Feeds where
  feeds : List Feed
  next : ℕ
  pending : List FanOut
  deriving DecidableEq, Repr

inductive FeedAction
  | subscribe (buffer : ℤ)
  | cancel (id : ℕ)
  | begin (lsn : ℕ)
  | send (lsn id : ℕ)
  | finish (lsn : ℕ)
  | drop (lsn : ℕ)
  | recv (id : ℕ)
  deriving DecidableEq, Repr

/-- Whether the call reads `replFeeds` just now. -/
def FanOut.reads (p : FanOut) : Bool :=
  match p.stage with
  | .sending _ _ => true
  | _ => false

/-- Put a record on the feed. -/
def Feed.push (f : Feed) (r : Record) : Feed :=
  { f with chan := f.chan ++ [r], placed := f.placed ++ [r] }

namespace Feeds

def init : Feeds := ⟨[], 0, []⟩

/-- Some writer holds `replMu` for reading. -/
def readLocked (s : Feeds) : Bool := s.pending.any FanOut.reads

/-- Change the feed `id`. -/
def onFeed (s : Feeds) (id : ℕ) (fn : Feed → Feed) : List Feed :=
  s.feeds.map fun f => if f.id = id then fn f else f

/-- The call for LSN `lsn` has come to `stage`. -/
def setStage (s : Feeds) (lsn : ℕ) (stage : FanStage) : List FanOut :=
  s.pending.map fun p => if p.record.lsn = lsn then { p with stage := stage } else p

/-- The call for LSN `lsn` has returned. -/
def retire (s : Feeds) (lsn : ℕ) : List FanOut := s.pending.filter fun p => p.record.lsn ≠ lsn

/-- A writer comes from `Submit`. -/
def enter (s : Feeds) (r : Record) (drainer : Bool) : Feeds :=
  { s with pending := s.pending ++ [⟨r, drainer, .ready⟩] }

/-- `Subscribe` (lines 386–394). -/
def subscribe (s : Feeds) (buffer : ℤ) : Option Feeds :=
  if s.readLocked then none
  else
    some { s with
      feeds := s.feeds ++ [⟨s.next + 1, if buffer ≤ 0 then 4096 else buffer.toNat, [], [], true⟩]
      next := s.next + 1 }

/-- The cancel function of a subscription (lines 395–402). -/
def cancel (s : Feeds) (id : ℕ) : Option Feeds :=
  if s.readLocked then none
  else some { s with feeds := s.onFeed id fun f => { f with isOpen := false } }

/-- The feeds in `replFeeds`. -/
def subscribed (s : Feeds) : List ℕ := (s.feeds.filter Feed.isOpen).map Feed.id

/-- `replMu.RLock` and the test for no feeds (lines 406–410). -/
def begin (s : Feeds) (lsn : ℕ) : Option Feeds :=
  match s.pending.find? fun p => p.record.lsn = lsn with
  | some ⟨_, _, .ready⟩ =>
    if s.subscribed = [] then some { s with pending := s.retire lsn }
    else some { s with pending := s.setStage lsn (.sending s.subscribed []) }
  | _ => none

/-- One round of the loop over the feeds (lines 414–420), for feed `id`. -/
def send (s : Feeds) (lsn id : ℕ) : Option Feeds :=
  match s.pending.find? (fun p => p.record.lsn = lsn), s.feeds.find? (fun f => f.id = id) with
  | some ⟨r, _, .sending todo stalled⟩, some f =>
    if id ∉ todo then none
    else if f.chan.length < f.cap then
      some { s with
        feeds := s.onFeed id fun f => f.push r
        pending := s.setStage lsn (.sending (todo.filter (· ≠ id)) stalled) }
    else
      some { s with
        pending := s.setStage lsn (.sending (todo.filter (· ≠ id)) (stalled ++ [id])) }
  | _, _ => none

/-- `replMu.RUnlock` (line 421). -/
def finish (s : Feeds) (lsn : ℕ) : Option Feeds :=
  match s.pending.find? fun p => p.record.lsn = lsn with
  | some ⟨_, _, .sending [] stalled⟩ =>
    if stalled = [] then some { s with pending := s.retire lsn }
    else some { s with pending := s.setStage lsn (.dropping stalled) }
  | _ => none

/-- The stalled feeds are closed (lines 423–433). -/
def drop (s : Feeds) (lsn : ℕ) : Option Feeds :=
  match s.pending.find? fun p => p.record.lsn = lsn with
  | some ⟨_, _, .dropping stalled⟩ =>
    if s.readLocked then none
    else
      some { s with
        feeds := s.feeds.map fun f => if f.id ∈ stalled then { f with isOpen := false } else f
        pending := s.retire lsn }
  | _ => none

/-- The reader of feed `id` takes the next record. -/
def recv (s : Feeds) (id : ℕ) : Option (Record × Feeds) :=
  match s.feeds.find? fun f => f.id = id with
  | some f =>
    match f.chan with
    | [] => none
    | r :: chan => some (r, { s with feeds := s.onFeed id fun f => { f with chan := chan } })
  | none => none

def step (s : Feeds) : FeedAction → Option Feeds
  | .subscribe buffer => s.subscribe buffer
  | .cancel id => s.cancel id
  | .begin lsn => s.begin lsn
  | .send lsn id => s.send lsn id
  | .finish lsn => s.finish lsn
  | .drop lsn => s.drop lsn
  | .recv id => (s.recv id).map Prod.snd

end Feeds

/-- The record may still be placed on feed `id`. -/
def FanOut.Due (p : FanOut) (id : ℕ) : Prop :=
  match p.stage with
  | .ready => True
  | .sending todo _ => id ∈ todo
  | .dropping _ => False

/-! ## Calls in progress -/

variable {s t : Feeds} {N lsn id : ℕ} {p q : FanOut}

theorem mem_setStage {stage : FanStage} (h : p ∈ s.setStage lsn stage) :
    (p ∈ s.pending ∧ p.record.lsn ≠ lsn) ∨
      ∃ q ∈ s.pending, q.record.lsn = lsn ∧ p = { q with stage := stage } := by
  obtain ⟨q, hq, rfl⟩ := List.mem_map.mp h
  split_ifs with hl
  · exact .inr ⟨q, hq, hl, rfl⟩
  · exact .inl ⟨hq, hl⟩

theorem mem_retire (h : p ∈ s.retire lsn) : p ∈ s.pending := List.mem_of_mem_filter h

theorem sorted_setStage (h : s.pending.Pairwise (·.record.lsn < ·.record.lsn)) (lsn : ℕ)
    (stage : FanStage) : (s.setStage lsn stage).Pairwise (·.record.lsn < ·.record.lsn) := by
  refine List.pairwise_map.mpr (h.imp fun {a b} hab => ?_)
  split_ifs <;> exact hab

/-! ## What a step can do -/

/-- Every way the actions on the feeds can go. -/
inductive Feeds.Steps (s : Feeds) : FeedAction → Feeds → Prop
  | subscribe (buffer : ℤ) (cap : ℕ) (hfree : s.readLocked = false) :
    Steps s (.subscribe buffer) { s with
      feeds := s.feeds ++ [⟨s.next + 1, cap, [], [], true⟩]
      next := s.next + 1 }
  | cancel (id : ℕ) (hfree : s.readLocked = false) :
    Steps s (.cancel id) { s with feeds := s.onFeed id fun f => { f with isOpen := false } }
  | skip (p : FanOut) (hp : p ∈ s.pending) (hstage : p.stage = .ready) (hnone : s.subscribed = []) :
    Steps s (.begin p.record.lsn) { s with pending := s.retire p.record.lsn }
  | begin (p : FanOut) (hp : p ∈ s.pending) (hstage : p.stage = .ready) :
    Steps s (.begin p.record.lsn) { s with
      pending := s.setStage p.record.lsn (.sending s.subscribed []) }
  | send (p : FanOut) (hp : p ∈ s.pending) (todo stalled : List ℕ)
      (hstage : p.stage = .sending todo stalled) (f : Feed) (hf : f ∈ s.feeds) (hid : f.id ∈ todo)
      (hroom : f.chan.length < f.cap) :
    Steps s (.send p.record.lsn f.id) { s with
      feeds := s.onFeed f.id fun f => f.push p.record
      pending := s.setStage p.record.lsn (.sending (todo.filter (· ≠ f.id)) stalled) }
  | stall (p : FanOut) (hp : p ∈ s.pending) (todo stalled : List ℕ)
      (hstage : p.stage = .sending todo stalled) (f : Feed) (hf : f ∈ s.feeds) (hid : f.id ∈ todo)
      (hfull : ¬ f.chan.length < f.cap) :
    Steps s (.send p.record.lsn f.id) { s with
      pending := s.setStage p.record.lsn
        (.sending (todo.filter (· ≠ f.id)) (stalled ++ [f.id])) }
  | finish (p : FanOut) (hp : p ∈ s.pending) (hstage : p.stage = .sending [] []) :
    Steps s (.finish p.record.lsn) { s with pending := s.retire p.record.lsn }
  | toDrop (p : FanOut) (hp : p ∈ s.pending) (stalled : List ℕ)
      (hstage : p.stage = .sending [] stalled) :
    Steps s (.finish p.record.lsn) { s with
      pending := s.setStage p.record.lsn (.dropping stalled) }
  | drop (p : FanOut) (hp : p ∈ s.pending) (stalled : List ℕ) (hstage : p.stage = .dropping stalled)
      (hfree : s.readLocked = false) :
    Steps s (.drop p.record.lsn) { s with
      feeds := s.feeds.map fun f => if f.id ∈ stalled then { f with isOpen := false } else f
      pending := s.retire p.record.lsn }
  | recv (f : Feed) (hf : f ∈ s.feeds) (r : Record) (chan : List Record) (hchan : f.chan = r :: chan) :
    Steps s (.recv f.id) { s with feeds := s.onFeed f.id fun f => { f with chan := chan } }

theorem mem_of_find_lsn (h : s.pending.find? (fun p => p.record.lsn = lsn) = some p) :
    p ∈ s.pending ∧ p.record.lsn = lsn :=
  ⟨List.mem_of_find?_eq_some h, by simpa using List.find?_some h⟩

theorem mem_of_find_id {f : Feed} (h : s.feeds.find? (fun f => f.id = id) = some f) :
    f ∈ s.feeds ∧ f.id = id :=
  ⟨List.mem_of_find?_eq_some h, by simpa using List.find?_some h⟩

theorem Feeds.recv_eq {r : Record} (h : s.recv id = some (r, t)) :
    ∃ f ∈ s.feeds, f.id = id ∧ ∃ chan, f.chan = r :: chan ∧
      t = { s with feeds := s.onFeed id fun f => { f with chan := chan } } := by
  unfold Feeds.recv at h
  split at h
  · rename_i f hfind
    obtain ⟨hf, hid⟩ := mem_of_find_id hfind
    split at h
    · cases h
    · rename_i r' chan hchan
      obtain ⟨rfl, rfl⟩ := Prod.mk.inj (Option.some.inj h)
      exact ⟨f, hf, hid, chan, hchan, rfl⟩
  · cases h

theorem Feeds.steps_of_step {a : FeedAction} (h : s.step a = some t) : s.Steps a t := by
  cases a with
  | subscribe buffer =>
    have h : s.subscribe buffer = some t := h
    unfold Feeds.subscribe at h
    split at h
    · cases h
    · rename_i hfree
      obtain rfl := Option.some.inj h
      exact .subscribe buffer _ (by simpa using hfree)
  | cancel id =>
    have h : s.cancel id = some t := h
    unfold Feeds.cancel at h
    split_ifs at h with hfree
    obtain rfl := Option.some.inj h
    exact .cancel id (by simpa using hfree)
  | begin lsn =>
    have h : s.begin lsn = some t := h
    unfold Feeds.begin at h
    split at h
    · rename_i r d hfind
      obtain ⟨hp, rfl⟩ := mem_of_find_lsn hfind
      split_ifs at h with hnone
      · obtain rfl := Option.some.inj h
        exact .skip _ hp rfl hnone
      · obtain rfl := Option.some.inj h
        exact .begin _ hp rfl
    · cases h
  | send lsn id =>
    have h : s.send lsn id = some t := h
    unfold Feeds.send at h
    split at h
    · rename_i r d todo stalled f hfind hfeed
      obtain ⟨hp, rfl⟩ := mem_of_find_lsn hfind
      obtain ⟨hf, rfl⟩ := mem_of_find_id hfeed
      split_ifs at h with hid hroom
      · obtain rfl := Option.some.inj h
        exact .send _ hp todo stalled rfl f hf hid hroom
      · obtain rfl := Option.some.inj h
        exact .stall _ hp todo stalled rfl f hf hid hroom
    · cases h
  | finish lsn =>
    have h : s.finish lsn = some t := h
    unfold Feeds.finish at h
    split at h
    · rename_i r d stalled hfind
      obtain ⟨hp, rfl⟩ := mem_of_find_lsn hfind
      split_ifs at h with hnone
      · obtain rfl := Option.some.inj h
        exact .finish _ hp (by rw [hnone])
      · obtain rfl := Option.some.inj h
        exact .toDrop _ hp stalled rfl
    · cases h
  | drop lsn =>
    have h : s.drop lsn = some t := h
    unfold Feeds.drop at h
    split at h
    · rename_i r d stalled hfind
      obtain ⟨hp, rfl⟩ := mem_of_find_lsn hfind
      split_ifs at h with hfree
      obtain rfl := Option.some.inj h
      exact .drop _ hp stalled rfl (by simpa using hfree)
    · cases h
  | recv id =>
    obtain ⟨⟨r, t'⟩, hrecv, rfl⟩ := Option.map_eq_some_iff.mp h
    obtain ⟨f, hf, rfl, chan, hchan, rfl⟩ := Feeds.recv_eq hrecv
    exact .recv f hf r chan hchan

/-! ## Numbering of the calls in progress -/

/-- The calls in progress have different LSNs, all below `N`. -/
structure Feeds.Numbered (N : ℕ) (s : Feeds) : Prop where
  sorted : s.pending.Pairwise (·.record.lsn < ·.record.lsn)
  pending : ∀ p ∈ s.pending, p.record.lsn < N

/-- Calls in progress with the same LSN are the same. -/
theorem Feeds.Numbered.eq_of_lsn (h : s.Numbered N) (hp : p ∈ s.pending) (hq : q ∈ s.pending)
    (hl : p.record.lsn = q.record.lsn) : p = q := by
  have hnodup : (s.pending.map (·.record.lsn)).Nodup :=
    List.pairwise_map.mpr (h.sorted.imp fun hlt => ne_of_lt hlt)
  exact List.inj_on_of_nodup_map hnodup hp hq hl

theorem Feeds.Numbered.enter (h : s.Numbered N) {r : Record} (hr : r.lsn = N) (drainer : Bool) :
    (s.enter r drainer).Numbered (N + 1) where
  sorted := by
    refine List.pairwise_append.mpr ⟨h.sorted, List.pairwise_singleton _ _, fun p hp q hq => ?_⟩
    rw [List.mem_singleton.mp hq]
    exact (h.pending p hp).trans_eq hr.symm
  pending := by
    intro p hp
    rcases List.mem_append.mp hp with hp | hp
    · exact (h.pending p hp).trans (Nat.lt_succ_self N)
    · rw [List.mem_singleton.mp hp]
      exact Nat.lt_succ_of_le hr.le

/-- A retired call is another one than `p`. -/
theorem Feeds.Numbered.mem_retire_of_due (h : s.Numbered N) (hp : p ∈ s.pending)
    (hq : q ∈ s.pending) (hdue : q.Due id) (hnot : ¬ p.Due id) : q ∈ s.retire p.record.lsn := by
  refine List.mem_filter.mpr ⟨hq, decide_eq_true fun hl => hnot ?_⟩
  rwa [h.eq_of_lsn hp hq hl.symm]

theorem mem_setStage_of_ne {stage : FanStage} (hq : q ∈ s.pending) (hne : q.record.lsn ≠ lsn) :
    q ∈ s.setStage lsn stage :=
  List.mem_map.mpr ⟨q, hq, if_neg hne⟩

theorem mem_setStage_self {stage : FanStage} (hp : p ∈ s.pending) :
    { p with stage := stage } ∈ s.setStage p.record.lsn stage :=
  List.mem_map.mpr ⟨p, hp, if_pos rfl⟩

theorem Feeds.Numbered.retire (h : s.Numbered N) (lsn : ℕ) (feeds : List Feed) (next : ℕ) :
    Feeds.Numbered N ⟨feeds, next, s.retire lsn⟩ :=
  ⟨h.sorted.filter _, fun p hp => h.pending p (mem_retire hp)⟩

theorem Feeds.Numbered.setStage (h : s.Numbered N) (lsn : ℕ) (stage : FanStage)
    (feeds : List Feed) (next : ℕ) : Feeds.Numbered N ⟨feeds, next, s.setStage lsn stage⟩ := by
  refine ⟨sorted_setStage h.sorted _ _, fun p hp => ?_⟩
  rcases mem_setStage hp with ⟨hold, -⟩ | ⟨q, hq, -, rfl⟩
  · exact h.pending p hold
  · exact h.pending q hq

end KvStore
