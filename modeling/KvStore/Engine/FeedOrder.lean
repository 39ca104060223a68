import KvStore.Engine.StoreSteps
import KvStore.Engine.Feeds
import KvStore.Engine.Recovery

/-!
# Feed order and log order

The engine with the feeds of its replicas. An LSN is assigned under the shard lock, the
record is placed on the feeds later, outside of it, so two writers can place their records
in the other order.

* `feeds_in_log_order`: as long as no writer begins its fan-out while one with a smaller
  LSN has not finished, every feed is in log order.
* `feed_swaps_writers`: two writers of one key that swap.
-/

namespace KvStore

open KvStore.Common

/-! ## The engine and its feeds -/

structure FeedSys where
  engine : Engine
  feeds : Feeds

inductive FeedSysAction
  | engine (a : EngineAction)
  | feed (a : FeedAction)

/-- What a step of the engine hands to `fanOutToReplicas`: the record with its LSN (lines 154
    and 242). -/
def Engine.handed (e : Engine) : EngineAction → Option Record
  | .submit i nowMs =>
    (e.inflight i).bind fun rec =>
      (e.log.submit rec nowMs).map fun x => { rec with lsn := x.1 }
  | .logEvict nowMs =>
    e.draining.bind fun ev =>
      (e.log.submit (record .delete ev.1 [] 0) nowMs).map fun x =>
        { Engine.record .delete ev.1 [] 0 with lsn := x.1 }
  | _ => none

/-- Whether the goroutine that logs removals is busy with a fan-out. -/
def Feeds.draining (s : Feeds) : Bool := s.pending.any FanOut.drainer

/-- A step of the engine, with what it means for the feeds. -/
def FeedSys.engineStep (s : FeedSys) (a : EngineAction) (drainer : Bool) : Option FeedSys :=
  (s.engine.step a).map fun e =>
    { engine := e
      feeds := (s.engine.handed a).elim s.feeds fun r => s.feeds.enter r drainer }

def FeedSys.step (s : FeedSys) : FeedSysAction → Option FeedSys
  | .engine .drainTake => if s.feeds.draining then none else s.engineStep .drainTake true
  | .engine (.logEvict nowMs) => s.engineStep (.logEvict nowMs) true
  | .engine a => s.engineStep a false
  | .feed a => (s.feeds.step a).map fun feeds => { s with feeds := feeds }

/-! ## Order -/

/-- Everything has been placed for this record. -/
def FanOut.Done (p : FanOut) : Prop := p.reads = false ∧ p.stage ≠ .ready

instance (p : FanOut) : Decidable p.Done := inferInstanceAs (Decidable (_ ∧ _))

/-- A writer begins its fan-out only when those with smaller LSNs have placed their records. -/
def FeedAction.InTurn (s : Feeds) : FeedAction → Prop
  | .begin lsn => ∀ p ∈ s.pending, p.record.lsn < lsn → p.Done
  | _ => True

def FeedSysAction.InTurn (s : FeedSys) : FeedSysAction → Prop
  | .engine _ => True
  | .feed a => a.InTurn s.feeds

instance (s : Feeds) (a : FeedAction) : Decidable (a.InTurn s) :=
  match a with
  | .begin lsn => inferInstanceAs (Decidable (∀ p ∈ s.pending, p.record.lsn < lsn → p.Done))
  | .subscribe _ | .cancel _ | .send _ _ | .finish _ | .drop _ | .recv _ => .isTrue trivial

instance (s : FeedSys) (a : FeedSysAction) : Decidable (a.InTurn s) :=
  match a with
  | .engine _ => .isTrue trivial
  | .feed a => inferInstanceAs (Decidable (a.InTurn s.feeds))

/-- `N` is the next LSN. What may still be placed on a feed comes after all that is there. -/
structure Feeds.Ordered (N : ℕ) (s : Feeds) : Prop extends Feeds.Numbered N s where
  placed : ∀ f ∈ s.feeds, ∀ r ∈ f.placed, r.lsn < N
  increasing : ∀ f ∈ s.feeds, f.placed.Pairwise (·.lsn < ·.lsn)
  due : ∀ p ∈ s.pending, ∀ f ∈ s.feeds, p.Due f.id → ∀ r ∈ f.placed, r.lsn < p.record.lsn
  turn : ∀ p ∈ s.pending, p.reads = true → ∀ q ∈ s.pending, q.record.lsn < p.record.lsn → q.Done

variable {s t : Feeds} {N lsn id : ℕ} {p q : FanOut}

/-- `p` is the call `q` at a later moment. -/
structure FanOut.After (p q : FanOut) : Prop where
  lsn : p.record.lsn = q.record.lsn
  due : ∀ id, p.Due id → q.Due id
  reads : p.reads = true → q.reads = true
  done : q.Done → p.Done

theorem FanOut.After.refl (p : FanOut) : p.After p := ⟨rfl, fun _ h => h, id, id⟩

/-- Calls go on or return. -/
theorem Feeds.Ordered.advance (h : s.Ordered N) {pending : List FanOut}
    (hsorted : pending.Pairwise (·.record.lsn < ·.record.lsn))
    (hafter : ∀ p ∈ pending, ∃ q ∈ s.pending, p.After q) :
    ({ s with pending := pending } : Feeds).Ordered N where
  sorted := hsorted
  pending := by
    intro p hp
    obtain ⟨q, hq, hpq⟩ := hafter p hp
    rw [hpq.lsn]
    exact h.pending q hq
  placed := h.placed
  increasing := h.increasing
  due := by
    intro p hp f hf hdue
    obtain ⟨q, hq, hpq⟩ := hafter p hp
    rw [hpq.lsn]
    exact h.due q hq f hf (hpq.due _ hdue)
  turn := by
    intro p hp hreads p' hp' hlt
    obtain ⟨q, hq, hpq⟩ := hafter p hp
    obtain ⟨q', hq', hpq'⟩ := hafter p' hp'
    refine hpq'.done (h.turn q hq (hpq.reads hreads) q' hq' ?_)
    rw [← hpq.lsn, ← hpq'.lsn]
    exact hlt

theorem Feeds.Ordered.retire (h : s.Ordered N) (lsn : ℕ) :
    ({ s with pending := s.retire lsn } : Feeds).Ordered N :=
  h.advance (h.sorted.filter _) fun p hp => ⟨p, mem_retire hp, .refl p⟩

theorem Feeds.Ordered.setStage (h : s.Ordered N) {stage : FanStage} (hp : p ∈ s.pending)
    (hafter : FanOut.After { p with stage := stage } p) :
    ({ s with pending := s.setStage p.record.lsn stage } : Feeds).Ordered N := by
  refine h.advance (sorted_setStage h.sorted _ _) fun p' hp' => ?_
  rcases mem_setStage hp' with ⟨hold, -⟩ | ⟨q, hq, hl, rfl⟩
  · exact ⟨p', hold, .refl p'⟩
  · obtain rfl := h.eq_of_lsn hq hp hl
    exact ⟨q, hq, hafter⟩

/-- Feeds come, close and are read. -/
theorem Feeds.Ordered.withFeeds (h : s.Ordered N) {feeds : List Feed} {next : ℕ}
    (hfeeds : ∀ f ∈ feeds, f.placed = [] ∨ ∃ g ∈ s.feeds, g.id = f.id ∧ g.placed = f.placed) :
    ({ s with feeds := feeds, next := next } : Feeds).Ordered N where
  sorted := h.sorted
  pending := h.pending
  placed := by
    intro f hf r hr
    rcases hfeeds f hf with hnil | ⟨g, hg, -, hplaced⟩
    · rw [hnil] at hr
      cases hr
    · exact h.placed g hg r (hplaced ▸ hr)
  increasing := by
    intro f hf
    rcases hfeeds f hf with hnil | ⟨g, hg, -, hplaced⟩
    · rw [hnil]
      exact .nil
    · exact hplaced ▸ h.increasing g hg
  due := by
    intro p hp f hf hdue r hr
    rcases hfeeds f hf with hnil | ⟨g, hg, hid, hplaced⟩
    · rw [hnil] at hr
      cases hr
    · exact h.due p hp g hg (hid ▸ hdue) r (hplaced ▸ hr)
  turn := h.turn

/-- A feed changes in its channel only. -/
theorem mem_onFeed {fn : Feed → Feed} {f : Feed} (hf : f ∈ s.onFeed id fn)
    (hfn : ∀ f, (fn f).id = f.id ∧ (fn f).placed = f.placed) : ∃ g ∈ s.feeds, g.id = f.id ∧ g.placed = f.placed := by
  obtain ⟨g, hg, rfl⟩ := List.mem_map.mp hf
  refine ⟨g, hg, ?_⟩
  split_ifs
  · exact ⟨(hfn g).1.symm, (hfn g).2.symm⟩
  · exact ⟨rfl, rfl⟩

/-! ## The steps -/

theorem FanOut.Due.not_done (h : p.Due id) : ¬ p.Done := by
  rintro ⟨hreads, hready⟩
  unfold FanOut.Due at h
  unfold FanOut.reads at hreads
  cases hstage : p.stage with
  | ready => exact hready hstage
  | sending todo stalled => simp [hstage] at hreads
  | dropping stalled => simp [hstage] at h

theorem Feeds.Ordered.enter (h : s.Ordered N) {r : Record} (hr : r.lsn = N) (drainer : Bool) :
    (s.enter r drainer).Ordered (N + 1) where
  toNumbered := h.toNumbered.enter hr drainer
  placed := fun f hf r hr => (h.placed f hf r hr).trans (Nat.lt_succ_self N)
  increasing := h.increasing
  due := by
    intro p hp f hf hdue r' hr'
    rcases List.mem_append.mp hp with hp | hp
    · exact h.due p hp f hf hdue r' hr'
    · rw [List.mem_singleton.mp hp]
      exact (h.placed f hf r' hr').trans_eq hr.symm
  turn := by
    intro p hp hreads q hq hlt
    rcases List.mem_append.mp hp with hp | hp
    · rcases List.mem_append.mp hq with hq | hq
      · exact h.turn p hp hreads q hq hlt
      · -- the newcomer has the largest LSN
        have hN := h.pending p hp
        rw [List.mem_singleton.mp hq] at hlt
        have hlt : r.lsn < p.record.lsn := hlt
        omega
    · rw [List.mem_singleton.mp hp] at hreads
      cases hreads

theorem Feeds.Ordered.begin (h : s.Ordered N) (hp : p ∈ s.pending) (hstage : p.stage = .ready)
    (hturn : ∀ q ∈ s.pending, q.record.lsn < p.record.lsn → q.Done) (ids : List ℕ) :
    ({ s with pending := s.setStage p.record.lsn (.sending ids []) } : Feeds).Ordered N := by
  refine ⟨h.toNumbered.setStage _ _ _ _, h.placed, h.increasing, ?_, ?_⟩
  · intro p' hp' f hf hdue
    rcases mem_setStage hp' with ⟨hold, -⟩ | ⟨q, hq, hl, rfl⟩
    · exact h.due p' hold f hf hdue
    · obtain rfl := h.eq_of_lsn hq hp hl
      exact h.due q hp f hf (by rw [FanOut.Due, hstage]; trivial)
  · -- a call that reads has a smaller LSN than this one, which was waiting
    intro p' hp' hreads q' hq' hlt
    have hsmall : p'.record.lsn ≤ p.record.lsn := by
      rcases mem_setStage hp' with ⟨hold, hne⟩ | ⟨q, hq, hl, rfl⟩
      · by_contra hgt
        exact (h.turn p' hold hreads p hp (by omega)).2 hstage
      · exact hl.le
    rcases mem_setStage hq' with ⟨hold, hne⟩ | ⟨q, hq, hl, rfl⟩
    · exact hturn q' hold (by omega)
    · have hlt : q.record.lsn < p'.record.lsn := hlt
      omega

/-- A record is placed on feed `id`, after all that is there and before all that may come. -/
theorem Feeds.Ordered.push (h : s.Ordered N) {r : Record} (hN : r.lsn < N)
    (hfeed : ∀ f ∈ s.feeds, f.id = id → ∀ r' ∈ f.placed, r'.lsn < r.lsn)
    (hdue : ∀ p ∈ s.pending, p.Due id → r.lsn < p.record.lsn) :
    ({ s with feeds := s.onFeed id fun f => f.push r } : Feeds).Ordered N := by
  refine ⟨⟨h.sorted, h.pending⟩, ?_, ?_, ?_, h.turn⟩
  · intro f hf r' hr'
    obtain ⟨g, hg, rfl⟩ := List.mem_map.mp hf
    split_ifs at hr' with hid
    · rcases List.mem_append.mp hr' with hr' | hr'
      · exact h.placed g hg r' hr'
      · exact List.mem_singleton.mp hr' ▸ hN
    · exact h.placed g hg r' hr'
  · intro f hf
    obtain ⟨g, hg, rfl⟩ := List.mem_map.mp hf
    split_ifs with hid
    · refine List.pairwise_append.mpr
        ⟨h.increasing g hg, List.pairwise_singleton _ _, fun r' hr' r'' hr'' => ?_⟩
      rw [List.mem_singleton.mp hr'']
      exact hfeed g hg hid r' hr'
    · exact h.increasing g hg
  · intro p hp f hf hd r' hr'
    obtain ⟨g, hg, rfl⟩ := List.mem_map.mp hf
    split_ifs at hd hr' with hid
    · rcases List.mem_append.mp hr' with hr' | hr'
      · exact h.due p hp g hg hd r' hr'
      · rw [List.mem_singleton.mp hr']
        exact hdue p hp (hid ▸ hd)
    · exact h.due p hp g hg hd r' hr'

theorem FanOut.After.sending {todo todo' stalled stalled' : List ℕ}
    (hstage : p.stage = .sending todo stalled) (hsub : todo' ⊆ todo) :
    FanOut.After { p with stage := .sending todo' stalled' } p where
  lsn := rfl
  due := fun id hid => by
    rw [FanOut.Due, hstage]
    exact hsub hid
  reads := fun _ => by rw [FanOut.reads, hstage]
  done := fun hdone => by
    rw [FanOut.Done, FanOut.reads, hstage] at hdone
    cases hdone.1

theorem FanOut.After.dropping {todo stalled stalled' : List ℕ}
    (hstage : p.stage = .sending todo stalled) :
    FanOut.After { p with stage := .dropping stalled' } p where
  lsn := rfl
  due := fun _ hid => hid.elim
  reads := nofun
  done := fun hdone => by
    rw [FanOut.Done, FanOut.reads, hstage] at hdone
    cases hdone.1

theorem Feeds.Ordered.send (h : s.Ordered N) (hp : p ∈ s.pending) {todo stalled : List ℕ}
    (hstage : p.stage = .sending todo stalled) (hid : id ∈ todo) :
    ({ s with
      feeds := s.onFeed id fun f => f.push p.record
      pending := s.setStage p.record.lsn (.sending (todo.filter (· ≠ id)) stalled) } :
      Feeds).Ordered N := by
  refine (h.setStage hp (.sending hstage List.filter_sublist.subset)).push (h.pending p hp) ?_ ?_
  · rintro g hg rfl r' hr'
    exact h.due p hp g hg (by rw [FanOut.Due, hstage]; exact hid) r' hr'
  · intro p' hp' hdue
    rcases mem_setStage hp' with ⟨hold, hne⟩ | ⟨q, hq, hl, rfl⟩
    · have hnot := mt (h.turn p hp (by rw [FanOut.reads, hstage]) p' hold) hdue.not_done
      omega
    · have hid : id ∈ todo.filter (· ≠ id) := hdue
      simp at hid

theorem Feeds.Ordered.step (h : s.Ordered N) {a : FeedAction} (ha : a.InTurn s)
    (ht : s.step a = some t) : t.Ordered N := by
  cases Feeds.steps_of_step ht with
  | subscribe buffer cap hfree =>
    refine h.withFeeds fun f hf => ?_
    rcases List.mem_append.mp hf with hf | hf
    · exact .inr ⟨f, hf, rfl, rfl⟩
    · exact .inl (by rw [List.mem_singleton.mp hf])
  | cancel id hfree => exact h.withFeeds fun f hf => .inr (mem_onFeed hf fun _ => ⟨rfl, rfl⟩)
  | skip p hp hstage hnone => exact h.retire _
  | begin p hp hstage => exact h.begin hp hstage ha _
  | send p hp todo stalled hstage f hf hid hroom => exact h.send hp hstage hid
  | stall p hp todo stalled hstage f hf hid hfull =>
    exact h.setStage hp (.sending hstage List.filter_sublist.subset)
  | finish p hp hstage => exact h.retire _
  | toDrop p hp stalled hstage => exact h.setStage hp (.dropping hstage)
  | drop p hp stalled hstage hfree =>
    refine (h.retire _).withFeeds fun f hf => .inr ?_
    obtain ⟨g, hg, rfl⟩ := List.mem_map.mp hf
    exact ⟨g, hg, by split_ifs <;> rfl, by split_ifs <;> rfl⟩
  | recv f hf r chan hchan =>
    exact h.withFeeds fun f hf => .inr (mem_onFeed hf fun _ => ⟨rfl, rfl⟩)

/-! ## Steps of the engine -/

section EngineLog

variable {e e' : Engine}

theorem onShard_map_log {α : Type} {i : ℕ} {fn : Shard → α × Shard}
    (h : (e.onShard i fn).map Prod.snd = some e') : e'.log = e.log := by
  obtain ⟨q, d, rfl⟩ := onShard_map_eq h
  rfl

theorem mutate_log {r : Record} {apply : Shard → Bool × Shard} (h : e.mutate r apply = some e') :
    e'.log = e.log := by
  obtain ⟨q, d, fl, rfl⟩ := mutate_eq h
  rfl

theorem submit_nextLSN {w w' : Log} {r : Record} {nowMs : UInt64} {lsn : ℕ}
    (h : w.submit r nowMs = some (lsn, w')) : lsn = w.nextLSN ∧ w'.nextLSN = w.nextLSN + 1 := by
  unfold Log.submit at h
  split at h
  · cases h
  split at h
  · cases h
  obtain ⟨rfl, rfl⟩ := Prod.mk.inj (Option.some.inj h)
  exact ⟨rfl, rfl⟩

/-- A step hands a record to the feeds exactly when it takes an LSN, and with that LSN. -/
theorem Engine.step_handed {a : EngineAction} (h : e.step a = some e') :
    (e.handed a = none ∧ e'.log.nextLSN = e.log.nextLSN) ∨
      ∃ r, e.handed a = some r ∧ r.lsn = e.log.nextLSN ∧
        e'.log.nextLSN = e.log.nextLSN + 1 := by
  have hnext : e'.log = e.log → e'.log.nextLSN = e.log.nextLSN := congrArg Log.nextLSN
  cases a with
  | set key value ttl nowMs nowMono => exact .inl ⟨rfl, hnext (mutate_log h)⟩
  | delete key nowMs => exact .inl ⟨rfl, hnext (mutate_log h)⟩
  | expire key ttl nowMs nowMs' => exact .inl ⟨rfl, hnext (mutate_log h)⟩
  | submit i nowMs =>
    obtain ⟨r, hr, rfl⟩ := Option.map_eq_some_iff.mp h
    simp only [Engine.handed, hr, Option.bind_some]
    cases hsub : e.log.submit r nowMs with
    | none => exact .inl ⟨rfl, rfl⟩
    | some x =>
      obtain ⟨hlsn, hnext⟩ := submit_nextLSN hsub
      exact .inr ⟨_, rfl, hlsn, hnext⟩
  | read key nowMs nowMono => exact .inl ⟨rfl, hnext (onShard_map_log h)⟩
  | reap key nowMs => exact .inl ⟨rfl, hnext (onShard_map_log h)⟩
  | sweep i nowMs sample => exact .inl ⟨rfl, hnext (onShard_map_log h)⟩
  | purge i nowMs => exact .inl ⟨rfl, hnext (onShard_map_log h)⟩
  | wheel key timerExpireAt nowMs => exact .inl ⟨rfl, hnext (onShard_map_log h)⟩
  | evictToLimit i => exact .inl ⟨rfl, hnext (onShard_map_log h)⟩
  | drainTake =>
    refine .inl ⟨rfl, hnext ?_⟩
    have h : e.drainTake = some e' := h
    unfold Engine.drainTake at h
    split at h
    · cases h
      rfl
    · cases h
  | logEvict nowMs =>
    obtain ⟨ev, hev, rfl⟩ := Option.map_eq_some_iff.mp h
    simp only [Engine.handed, hev, Option.bind_some]
    cases hsub : e.log.submit (Engine.record .delete ev.1 [] 0) nowMs with
    | none => exact .inl ⟨rfl, rfl⟩
    | some x =>
      obtain ⟨hlsn, hnext⟩ := submit_nextLSN hsub
      exact .inr ⟨_, rfl, hlsn, hnext⟩

end EngineLog

/-! ## Whole runs -/

def FeedSys.Ordered (s : FeedSys) : Prop := s.feeds.Ordered s.engine.log.nextLSN

theorem FeedSys.Ordered.engineStep {s t : FeedSys} (h : s.Ordered) {a : EngineAction}
    {drainer : Bool} (ht : s.engineStep a drainer = some t) : t.Ordered := by
  obtain ⟨e', he, rfl⟩ := Option.map_eq_some_iff.mp ht
  unfold FeedSys.Ordered
  rcases Engine.step_handed he with ⟨hnone, hnext⟩ | ⟨r, hsome, hlsn, hnext⟩
  · rw [hnone]
    exact hnext ▸ h
  · rw [hsome]
    exact hnext ▸ Feeds.Ordered.enter h hlsn drainer

theorem FeedSys.Ordered.step {s t : FeedSys} (h : s.Ordered) {a : FeedSysAction}
    (ha : a.InTurn s) (ht : s.step a = some t) : t.Ordered := by
  cases a with
  | engine a =>
    cases a with
    | drainTake =>
      have ht : (if s.feeds.draining then none else s.engineStep .drainTake true) = some t := ht
      split_ifs at ht
      exact h.engineStep ht
    | _ => exact h.engineStep ht
  | feed a =>
    obtain ⟨feeds, hfeeds, rfl⟩ := Option.map_eq_some_iff.mp ht
    exact Feeds.Ordered.step h ha hfeeds

/-- Before any replica has subscribed. -/
theorem FeedSys.Ordered.init (e : Engine) : FeedSys.Ordered ⟨e, .init⟩ where
  sorted := .nil
  pending := by intro p hp; cases hp
  placed := by intro f hf; cases hf
  increasing := by intro f hf; cases hf
  due := by intro p hp; cases hp
  turn := by intro p hp; cases hp

/-- In a list in LSN order nothing for the key follows its highest LSN. -/
theorem key_ne_of_highest {l₁ l₂ : List (Record × UInt64 × UInt64)}
    {x : Record × UInt64 × UInt64}
    (h : ((l₁ ++ x :: l₂).map Prod.fst).Pairwise fun a b => a.lsn < b.lsn)
    (hx : ∀ y ∈ l₁ ++ x :: l₂, y.1.key = x.1.key → y.1.lsn ≤ x.1.lsn) :
    ∀ y ∈ l₂, y.1.key ≠ x.1.key := by
  intro y hy hkey
  have hle := hx y (List.mem_append_right _ (List.mem_cons_of_mem _ hy)) hkey
  rw [List.map_append, List.map_cons] at h
  have hlt := (List.pairwise_cons.mp (List.pairwise_append.mp h).2.1).1 y.1
    (List.mem_map_of_mem hy)
  omega

/-- As long as no writer begins its fan-out before those with smaller LSNs have placed their
    records, the records on every feed have increasing LSNs. A replica that applies them in
    that order, at whatever times, applies nothing for a key after the record with its highest
    LSN, and so ends (with no memory limit of its own) with the effect of that record. -/
theorem feeds_in_log_order {e₀ : Engine} {s : FeedSys}
    (hrun : Run FeedSys.step (fun s a => a.InTurn s) ⟨e₀, .init⟩ s) :
    ∀ f ∈ s.feeds.feeds, f.placed.Pairwise (fun a b => a.lsn < b.lsn) ∧
      ∀ rs : List (Record × UInt64 × UInt64), rs.map Prod.fst = f.placed →
        ∀ l₁ x l₂, rs = l₁ ++ x :: l₂ →
          (∀ y ∈ rs, y.1.key = x.1.key → y.1.lsn ≤ x.1.lsn) →
          (∀ y ∈ l₂, y.1.key ≠ x.1.key) ∧
          ∀ s₀ : Store, s₀.Keyed → ∃ s₁ s', replayAt s₀ l₁ = some s₁ ∧ replayAt s₀ rs = some s' ∧
            s'.contents x.1.key = Record.effectAt x.2.1 x.1 (s₁.contents x.1.key) := by
  have hord : s.Ordered := hrun.invariant (fun _ _ _ h ha ht => h.step ha ht) (.init e₀)
  intro f hf
  have hinc := Feeds.Ordered.increasing hord f hf
  refine ⟨hinc, ?_⟩
  rintro _ hrs l₁ x l₂ rfl hhigh
  have hnone := key_ne_of_highest (hrs ▸ hinc) hhigh
  refine ⟨hnone, fun s₀ hs₀ => ?_⟩
  obtain ⟨s₁, h₁, -, hc₁⟩ := hs₀.replayAt l₁
  obtain ⟨s', h', -, hc'⟩ := hs₀.replayAt (l₁ ++ x :: l₂)
  refine ⟨s₁, s', h₁, h', ?_⟩
  rw [hc', List.foldl_append, List.foldl_cons, foldl_applyAt_of_ne hnone, ← hc₁]
  exact applyWith_self _ _ _

/-- Two writers of one key; the second one waits for its turn. -/
theorem feeds_in_log_order_two :
    ∃ s, Run FeedSys.step (fun s a => a.InTurn s) ⟨newEngine oneShard 1, .init⟩ s ∧
      ∃ f ∈ s.feeds.feeds, f.placed.map (fun r => (r.lsn, r.value)) = [(1, [2]), (2, [3])] ∧
        f.placed.Pairwise fun a b => a.lsn < b.lsn := by
  obtain ⟨s, hrun, f, hf, hplaced⟩ := Run.exists_of_guarded FeedSys.step (fun s a => a.InTurn s)
    ⟨newEngine oneShard 1, .init⟩
    [.feed (.subscribe 0), .engine (.set [1] [2] 0 0 0), .engine (.submit 0 0),
      .engine (.set [1] [3] 0 0 0), .engine (.submit 0 0), .feed (.begin 1), .feed (.send 1 1),
      .feed (.finish 1), .feed (.begin 2), .feed (.send 2 1), .feed (.finish 2)]
    (fun s => ∃ f ∈ s.feeds.feeds,
      f.placed.map (fun r => (r.lsn, r.value)) = [(1, [2]), (2, [3])])
    (by decide +kernel)
  exact ⟨s, hrun, f, hf, hplaced, (feeds_in_log_order hrun f hf).1⟩

/-- Two writers of one key swap between `Submit` and their fan-outs: memory and log end with
    the second value, the feed ends with the first, and so does a replica that applies it. -/
theorem feed_swaps_writers :
    ∃ s, Run FeedSys.step Always ⟨newEngine oneShard 1, .init⟩ s ∧
      s.feeds.pending = [] ∧ s.engine.store.contents [1] = some ([3], 0) ∧
      foldRecords s.engine.log.records [1] = some ([3], 0) ∧
      ∃ f ∈ s.feeds.feeds, f.isOpen = true ∧ f.placed.map Record.lsn = [2, 1] ∧
        (replayAt (newStore oneShard 2) (f.placed.map fun r => (r, 5, 5))).map
          (fun s => s.contents [1]) = some (some ([2], 0)) := by
  exact Run.exists_of_exec FeedSys.step ⟨newEngine oneShard 1, .init⟩
    [.feed (.subscribe 0), .engine (.set [1] [2] 0 0 0), .engine (.submit 0 0),
      .engine (.set [1] [3] 0 0 0), .engine (.submit 0 0), .feed (.begin 2), .feed (.send 2 1),
      .feed (.finish 2), .feed (.begin 1), .feed (.send 1 1), .feed (.finish 1)] _
    (by decide +kernel)

end KvStore
