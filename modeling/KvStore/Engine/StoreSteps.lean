import KvStore.Engine.Engine

/-!
# What a step of the engine does to its store

Whatever the engine does to a shard goes through `onShard`; `onShard_eq` says what that
leaves of the engine. In an engine without a memory limit a key changes by a mutation of that
key and by removals after its deadline, and by nothing else.

* `Engine.step_changes`: the store stays `Plain`, and what becomes of its contents.
* `EngineAction.Changes.keeps`: an entry that a step neither mutates nor finds expired stays.
-/

namespace KvStore

open KvStore.Common

variable {e e' : Engine} {s : Store} {i : ℕ} {k : Bytes}

/-! ## Under the lock of one shard -/

/-- The report of a shard reaches the queue of evictions and nothing else. -/
theorem foldl_onStoreEvict_eq (evs : List (Bytes × EvictReason)) (e : Engine) :
    ∃ q d, evs.foldl Engine.onStoreEvict e = { e with evictQ := q, evictDrops := d } := by
  induction evs generalizing e with
  | nil => exact ⟨e.evictQ, e.evictDrops, rfl⟩
  | cons ev evs ih =>
    obtain ⟨q, d, hfold⟩ := ih (e.onStoreEvict ev)
    refine ⟨q, d, ?_⟩
    rw [List.foldl_cons, hfold, Engine.onStoreEvict]
    split_ifs <;> rfl

theorem onShard_eq {α : Type} {fn : Shard → α × Shard} {a : α}
    (h : e.onShard i fn = some (a, e')) :
    e.inflight i = none ∧ a = (fn (e.store.shards i)).1 ∧
      ∃ q d, e' = { e with
        store := e.store.put i { (fn (e.store.shards i)).2 with onEvict := [] }
        evictQ := q
        evictDrops := d } := by
  unfold Engine.onShard at h
  split_ifs at h with hfree
  obtain ⟨ha, he⟩ := Prod.mk.inj (Option.some.inj h)
  obtain ⟨q, d, hfold⟩ := foldl_onStoreEvict_eq (fn (e.store.shards i)).2.onEvict
    { e with store := e.store.put i { (fn (e.store.shards i)).2 with onEvict := [] } }
  refine ⟨Option.not_isSome_iff_eq_none.mp hfree, ha.symm, q, d, ?_⟩
  rw [← he]
  exact hfold

theorem onShard_map_eq {α : Type} {fn : Shard → α × Shard}
    (h : (e.onShard i fn).map Prod.snd = some e') :
    ∃ q d, e' = { e with
      store := e.store.put i { (fn (e.store.shards i)).2 with onEvict := [] }
      evictQ := q
      evictDrops := d } := by
  obtain ⟨⟨a, e''⟩, hshard, rfl⟩ := Option.map_eq_some_iff.mp h
  exact (onShard_eq hshard).2.2

/-- A mutation changes the shard of its key and leaves its record to submit. -/
theorem mutate_eq {r : Record} {apply : Shard → Bool × Shard} (h : e.mutate r apply = some e') :
    ∃ q d fl, e' = { e with
      store := e.store.put (e.store.shardFor r.key)
        { (apply (e.store.shards (e.store.shardFor r.key))).2 with onEvict := [] }
      evictQ := q
      evictDrops := d
      inflight := fl } := by
  unfold Engine.mutate at h
  split_ifs at h
  obtain ⟨⟨ok, e''⟩, hshard, rfl⟩ := Option.map_eq_some_iff.mp h
  obtain ⟨-, -, q, d, rfl⟩ := onShard_eq hshard
  dsimp only
  split_ifs
  · exact ⟨q, d, _, rfl⟩
  · exact ⟨q, d, e.inflight, rfl⟩

theorem Engine.step_readOnly {a : EngineAction} (h : e.step a = some e') :
    e'.readOnly = e.readOnly := by
  cases a with
  | set => obtain ⟨q, d, fl, rfl⟩ := mutate_eq h; rfl
  | delete => obtain ⟨q, d, fl, rfl⟩ := mutate_eq h; rfl
  | expire => obtain ⟨q, d, fl, rfl⟩ := mutate_eq h; rfl
  | submit i nowMs =>
    obtain ⟨r, -, rfl⟩ := Option.map_eq_some_iff.mp h
    dsimp only
    split <;> rfl
  | drainTake =>
    replace h : e.drainTake = some e' := h
    unfold Engine.drainTake at h
    split at h <;> cases h
    rfl
  | logEvict nowMs =>
    obtain ⟨ev, -, rfl⟩ := Option.map_eq_some_iff.mp h
    dsimp only
    split <;> rfl
  | _ => obtain ⟨q, d, rfl⟩ := onShard_map_eq h; rfl

/-- A step does not move keys to other shards. -/
theorem Engine.step_routes {a : EngineAction} (h : e.step a = some e') :
    e'.store.shardCount = e.store.shardCount ∧ e'.store.shardFor = e.store.shardFor := by
  cases a with
  | set => obtain ⟨q, d, fl, rfl⟩ := mutate_eq h; exact ⟨rfl, rfl⟩
  | delete => obtain ⟨q, d, fl, rfl⟩ := mutate_eq h; exact ⟨rfl, rfl⟩
  | expire => obtain ⟨q, d, fl, rfl⟩ := mutate_eq h; exact ⟨rfl, rfl⟩
  | submit i nowMs =>
    obtain ⟨r, -, rfl⟩ := Option.map_eq_some_iff.mp h
    dsimp only
    split <;> exact ⟨rfl, rfl⟩
  | drainTake =>
    replace h : e.drainTake = some e' := h
    unfold Engine.drainTake at h
    split at h <;> cases h
    exact ⟨rfl, rfl⟩
  | logEvict nowMs =>
    obtain ⟨ev, -, rfl⟩ := Option.map_eq_some_iff.mp h
    dsimp only
    split <;> exact ⟨rfl, rfl⟩
  | _ => obtain ⟨q, d, rfl⟩ := onShard_map_eq h; exact ⟨rfl, rfl⟩

/-- The log is as it was, or it has one more record. -/
def Log.Grows (w w' : Log) : Prop :=
  w' = w ∨ ∃ r, r.Submittable ∧ r.lsn = w.nextLSN ∧
    w' = { w with nextLSN := w.nextLSN + 1, records := w.records ++ [r] }

theorem submit_grows {w w' : Log} {r : Record} {nowMs : UInt64} {lsn : ℕ}
    (h : w.submit r nowMs = some (lsn, w')) : w.Grows w' := by
  unfold Log.submit at h
  split at h
  · cases h
  split at h
  · cases h
  · rename_i hsub
    obtain ⟨-, rfl⟩ := Prod.mk.inj (Option.some.inj h)
    refine .inr ⟨_, ?_, rfl, rfl⟩
    exact not_not.mp hsub

theorem Engine.step_log {a : EngineAction} (h : e.step a = some e') : e.log.Grows e'.log := by
  cases a with
  | set => obtain ⟨q, d, fl, rfl⟩ := mutate_eq h; exact .inl rfl
  | delete => obtain ⟨q, d, fl, rfl⟩ := mutate_eq h; exact .inl rfl
  | expire => obtain ⟨q, d, fl, rfl⟩ := mutate_eq h; exact .inl rfl
  | submit i nowMs =>
    obtain ⟨r, -, rfl⟩ := Option.map_eq_some_iff.mp h
    dsimp only
    split
    · exact .inl rfl
    · rename_i hsub
      exact submit_grows hsub
  | drainTake =>
    replace h : e.drainTake = some e' := h
    unfold Engine.drainTake at h
    split at h <;> cases h
    exact .inl rfl
  | logEvict nowMs =>
    obtain ⟨ev, -, rfl⟩ := Option.map_eq_some_iff.mp h
    dsimp only
    split
    · exact .inl rfl
    · rename_i hsub
      exact submit_grows hsub
  | _ => obtain ⟨q, d, rfl⟩ := onShard_map_eq h; exact .inl rfl

theorem mutate_frame {r : Record} {apply : Shard → Bool × Shard} (h : e.mutate r apply = some e') :
    e'.log = e.log ∧ e'.store = e.store.put (e.store.shardFor r.key)
      { (apply (e.store.shards (e.store.shardFor r.key))).2 with onEvict := [] } := by
  obtain ⟨q, d, fl, rfl⟩ := mutate_eq h
  exact ⟨rfl, rfl⟩

/-- A mutation that succeeds keeps the lock of its shard for `Submit`. -/
theorem mutate_inflight {r : Record} {apply : Shard → Bool × Shard} (h : e.mutate r apply = some e')
    (hok : (apply (e.store.shards (e.store.shardFor r.key))).1 = true) :
    e'.inflight = Function.update e.inflight (e.store.shardFor r.key) (some r) := by
  unfold Engine.mutate at h
  split_ifs at h
  obtain ⟨⟨ok, e''⟩, hshard, rfl⟩ := Option.map_eq_some_iff.mp h
  obtain ⟨-, rfl, q, d, rfl⟩ := onShard_eq hshard
  dsimp only
  rw [if_pos hok]
  rfl

/-- Handing over the report changes nothing a reader or the index depends on. -/
theorem contents_put_report (s : Store) (i : ℕ) (sh : Shard) (ev : List (Bytes × EvictReason)) :
    (s.put i { sh with onEvict := ev }).contents = (s.put i sh).contents := by
  funext k
  rw [contents_put, contents_put]
  rfl

theorem Store.Plain.put_report {sh : Shard} (h : (s.put i sh).Plain)
    (ev : List (Bytes × EvictReason)) : (s.put i { sh with onEvict := ev }).Plain := by
  refine ⟨fun j => ?_, fun j => ?_, fun j k hk => ?_, h.inRange⟩
  · have hj := h.index j
    rw [shards_put] at hj ⊢
    split_ifs at hj ⊢
    · exact hj.congr rfl rfl rfl rfl rfl
    · exact hj
  · have hj := h.unlimited j
    rw [shards_put] at hj ⊢
    split_ifs at hj ⊢ <;> exact hj
  · refine h.routed j k ?_
    rw [shards_put] at hk ⊢
    split_ifs at hk ⊢ <;> exact hk

/-! ## Clearing a shard -/

theorem Store.Plain.flush (h : s.Plain) (i : ℕ) :
    (s.put i (s.shards i).flushLocked).Plain ∧
      ∀ k, (s.put i (s.shards i).flushLocked).contents k =
        if s.shardFor k = i then none else s.contents k := by
  have hindex : IndexInv (s.shards i).flushLocked := .of_empty rfl rfl rfl
  have hnone : ∀ k, (s.shards i).flushLocked.contents k = none := fun k => rfl
  refine ⟨⟨fun j => ?_, fun j => ?_, fun j k hk => ?_, h.inRange⟩, fun k => ?_⟩
  · rw [shards_put]
    split_ifs
    · exact hindex
    · exact h.index j
  · rw [shards_put]
    split_ifs
    · exact h.unlimited i
    · exact h.unlimited j
  · rw [shards_put] at hk
    split_ifs at hk
    · rw [hnone] at hk
      cases hk
    · exact h.routed j k hk
  · rw [contents_put, hnone]

/-- `Store.Flush` (store.go lines 470–475), with nothing in between. -/
def Store.flush (s : Store) : Store :=
  (List.range s.shardCount).foldl (fun s i => s.put i (s.shards i).flushLocked) s

theorem Store.Plain.foldl_flush (h : s.Plain) (l : List ℕ) :
    (l.foldl (fun s i => s.put i (s.shards i).flushLocked) s).Plain ∧
      ∀ k, (l.foldl (fun s i => s.put i (s.shards i).flushLocked) s).contents k =
        if s.shardFor k ∈ l then none else s.contents k := by
  induction l generalizing s with
  | nil => exact ⟨h, fun k => by simp⟩
  | cons i l ih =>
    obtain ⟨hplain, hc⟩ := h.flush i
    obtain ⟨hplain', hc'⟩ := ih hplain
    refine ⟨hplain', fun k => ?_⟩
    rw [List.foldl_cons, hc', hc, shardFor_put]
    by_cases h1 : s.shardFor k = i
    · simp [h1]
    · simp [h1]

theorem Store.Plain.flushAll (h : s.Plain) :
    s.flush.Plain ∧ s.flush.contents = fun _ => none := by
  obtain ⟨hplain, hc⟩ := h.foldl_flush (List.range s.shardCount)
  refine ⟨hplain, funext fun k => (hc k).trans (if_pos ?_)⟩
  exact List.mem_range.mpr (h.inRange k)

/-! ## Steps without a memory limit -/

/-- The bound on a step: a `Set` leaves fewer than `2^31` entries in its shard. -/
def EngineAction.Fits (e : Engine) : EngineAction → Prop
  | .set key value ttl nowMs nowMono =>
    ((e.store.shards (e.store.shardFor key)).setLocked key value (Engine.deadline ttl nowMs)
      nowMono).2.entries.keys.length < 2 ^ 31
  | _ => True

instance (e : Engine) : (a : EngineAction) → Decidable (a.Fits e)
  | .set .. => inferInstanceAs (Decidable (_ < _))
  | .delete .. | .expire .. | .submit .. | .read .. | .reap .. | .sweep .. | .purge ..
  | .wheel .. | .evictToLimit .. | .drainTake | .logEvict .. => instDecidableTrue

/-- The step is no mutation of `k`, and no removal after the deadline `x`. -/
def EngineAction.Spares (k : Bytes) (x : UInt64) : EngineAction → Prop
  | .set key _ _ _ _ => key ≠ k
  | .delete key _ => key ≠ k
  | .expire key _ _ _ => key ≠ k
  | .reap _ nowMs => expiredAt x nowMs = false
  | .sweep _ nowMs _ => expiredAt x nowMs = false
  | .purge _ nowMs => expiredAt x nowMs = false
  | .wheel _ _ nowMs => expiredAt x nowMs = false
  | _ => True

instance (k : Bytes) (x : UInt64) : (a : EngineAction) → Decidable (a.Spares k x)
  | .set .. | .delete .. | .expire .. => inferInstanceAs (Decidable (¬ _ = _))
  | .reap .. | .sweep .. | .purge .. | .wheel .. => inferInstanceAs (Decidable (_ = _))
  | .submit .. | .read .. | .evictToLimit .. | .drainTake | .logEvict .. => instDecidableTrue

/-- The key a client mutates with the step. -/
def EngineAction.mutated : EngineAction → Option Bytes
  | .set key _ _ _ _ => some key
  | .delete key _ => some key
  | .expire key _ _ _ => some key
  | _ => none

/-- What a step does to the contents of a plain store. -/
inductive EngineAction.Changes (m : Keyspace Bytes Bytes) : EngineAction → Keyspace Bytes Bytes → Prop
  | set (key value : Bytes) (ttl nowMs nowMono : UInt64) :
    Changes m (.set key value ttl nowMs nowMono) (m.set key value (Engine.deadline ttl nowMs))
  | delete (key : Bytes) (nowMs : UInt64) : Changes m (.delete key nowMs) (m.delete key)
  | expire (key : Bytes) (ttl nowMs nowMs' : UInt64) :
    Changes m (.expire key ttl nowMs nowMs')
      (if deadAt nowMs' (m key) = true then m.delete key
        else m.expire key (Engine.deadline ttl nowMs))
  | same (a : EngineAction) (ha : a.mutated = none) : Changes m a m
  | removes (a : EngineAction) (ha : a.mutated = none) (ks : List Bytes)
    (h : ∀ k x, a.Spares k x → ∀ v, m k = some (v, x) → k ∉ ks) : Changes m a (m.deleteAll ks)

theorem Store.Reaps.changes {s' : Store} {nowMs : UInt64} (h : s.Reaps nowMs s') {a : EngineAction}
    (hm : a.mutated = none) (ha : ∀ k x, a.Spares k x → expiredAt x nowMs = false) :
    a.Changes s.contents s'.contents := by
  obtain ⟨ks, hks, hdead⟩ := h.contents
  rw [hks]
  refine .removes a hm ks fun k x hspare v hk hmem => ?_
  have hexp := hdead k hmem
  rw [hk, deadAt_some, ha k x hspare] at hexp
  cases hexp

/-- A pass that removes entries past their deadline, as a step of the engine. -/
theorem onShard_reaps {α : Type} {fn : Shard → α × Shard} {nowMs : UInt64} {a : EngineAction}
    (h : e.store.Plain) (hstep : (e.onShard i fn).map Prod.snd = some e')
    (hr : RemovesExpired nowMs (e.store.shards i) (fn (e.store.shards i)).2)
    (hm : a.mutated = none) (ha : ∀ k x, a.Spares k x → expiredAt x nowMs = false) :
    e'.store.Plain ∧ a.Changes e.store.contents e'.store.contents := by
  obtain ⟨q, d, rfl⟩ := onShard_map_eq hstep
  have hreaps := h.put_reaps hr
  refine ⟨hreaps.plain.put_report [], ?_⟩
  dsimp only
  rw [contents_put_report]
  exact hreaps.changes hm ha

theorem Engine.step_changes {a : EngineAction} (h : e.store.Plain) (ha : a.Fits e)
    (hstep : e.step a = some e') :
    e'.store.Plain ∧ a.Changes e.store.contents e'.store.contents := by
  cases a with
  | set key value ttl nowMs nowMono =>
    obtain ⟨q, d, fl, rfl⟩ := mutate_eq hstep
    have hb := h.unlimited (e.store.shardFor key)
    obtain ⟨-, heff⟩ := setLocked_effect_unlimited (h.keyed.key _) hb key value
      (Engine.deadline ttl nowMs) nowMono
    have hindex := setLocked_index (h.index _) hb key value _ nowMono ha
    refine ⟨(h.put_update hindex heff).put_report [], ?_⟩
    dsimp only
    rw [contents_put_report]
    exact (contents_put_update heff) ▸ .set key value ttl nowMs nowMono
  | delete key nowMs =>
    obtain ⟨q, d, fl, rfl⟩ := mutate_eq hstep
    have heff := (txnDelete_effect (h.keyed.key (e.store.shardFor key)) key nowMs).2
    refine ⟨(h.delete key nowMs).put_report [], ?_⟩
    dsimp only
    rw [contents_put_report]
    exact (contents_put_update heff) ▸ .delete key nowMs
  | expire key ttl nowMs nowMs' =>
    obtain ⟨q, d, fl, rfl⟩ := mutate_eq hstep
    obtain ⟨hplain, hc⟩ := h.txnExpire key (Engine.deadline ttl nowMs) nowMs'
    refine ⟨hplain.put_report [], ?_⟩
    dsimp only
    rw [contents_put_report]
    exact hc ▸ .expire key ttl nowMs nowMs'
  | submit i nowMs =>
    obtain ⟨r, -, rfl⟩ := Option.map_eq_some_iff.mp hstep
    dsimp only
    split
    · exact ⟨h, .same _ rfl⟩
    · exact ⟨h, .same _ rfl⟩
  | read key nowMs nowMono =>
    obtain ⟨q, d, rfl⟩ := onShard_map_eq hstep
    obtain ⟨hplain, hc⟩ := h.read key nowMs nowMono
    refine ⟨hplain.put_report [], ?_⟩
    dsimp only
    rw [contents_put_report, hc]
    exact .same _ rfl
  | reap key nowMs =>
    exact onShard_reaps h hstep (reapLocked_removesExpired _ key nowMs) rfl fun _ _ hx => hx
  | sweep i nowMs sample =>
    exact onShard_reaps h hstep (sweepLocked_removesExpired _ nowMs sample) rfl fun _ _ hx => hx
  | purge i nowMs =>
    exact onShard_reaps h hstep (purgeLoop_removesExpired nowMs 1024 _ _ 0) rfl fun _ _ hx => hx
  | wheel key timerExpireAt nowMs =>
    exact onShard_reaps h hstep (wheelRemove_removesExpired _ key timerExpireAt nowMs) rfl
      fun _ _ hx => hx
  | evictToLimit i =>
    obtain ⟨q, d, rfl⟩ := onShard_map_eq hstep
    have hsame : (e.store.shards i).evictToLimit.2 = e.store.shards i := by
      rw [Shard.evictToLimit, if_pos (.inl (h.unlimited i))]
    obtain ⟨hplain, hc⟩ := h.put_same (h.index i) (.refl (h.keyed.key i))
    dsimp only
    rw [hsame, contents_put_report, hc]
    exact ⟨hplain.put_report [], .same _ rfl⟩
  | drainTake =>
    replace hstep : e.drainTake = some e' := hstep
    unfold Engine.drainTake at hstep
    split at hstep
    · cases hstep
      exact ⟨h, .same _ rfl⟩
    · cases hstep
  | logEvict nowMs =>
    obtain ⟨ev, -, rfl⟩ := Option.map_eq_some_iff.mp hstep
    dsimp only
    split
    · exact ⟨h, .same _ rfl⟩
    · exact ⟨h, .same _ rfl⟩

/-- An entry stays through every step that spares it. -/
theorem EngineAction.Changes.keeps {a : EngineAction} {m m' : Keyspace Bytes Bytes}
    (h : a.Changes m m') {v : Bytes} {x : UInt64} (ha : a.Spares k x) (hk : m k = some (v, x)) :
    m' k = some (v, x) := by
  cases h with
  | set key value ttl nowMs nowMono => rwa [Keyspace.set_of_ne m (Ne.symm ha)]
  | delete key nowMs => rwa [Keyspace.delete_of_ne m (Ne.symm ha)]
  | expire key ttl nowMs nowMs' =>
    split_ifs
    · rwa [Keyspace.delete_of_ne m (Ne.symm ha)]
    · rwa [Keyspace.expire_of_ne m (Ne.symm ha)]
  | same => exact hk
  | removes _ _ ks hspare =>
    rwa [Keyspace.deleteAll_of_not_mem m (hspare k x ha v hk)]

/-- A step that spares every entry changes none. -/
theorem EngineAction.Changes.eq_of_spares {a : EngineAction} {m m' : Keyspace Bytes Bytes}
    (h : a.Changes m m') (hm : a.mutated = none)
    (ha : ∀ k v x, m k = some (v, x) → a.Spares k x) : m' = m := by
  cases h with
  | set => cases hm
  | delete => cases hm
  | expire => cases hm
  | same => rfl
  | removes _ _ ks hspare =>
    funext k
    by_cases hk : k ∈ ks
    · rcases hc : m k with _ | ⟨v, x⟩
      · rw [Keyspace.deleteAll, if_pos hk]
      · exact absurd hk (hspare k x (ha k v x hc) v hc)
    · exact Keyspace.deleteAll_of_not_mem m hk

/-- A read-only engine takes no mutation of a client. -/
theorem Engine.step_mutated_of_readOnly {a : EngineAction} (hro : e.readOnly = true)
    (h : e.step a = some e') : a.mutated = none := by
  have hno : ∀ r apply, e.mutate r apply = none := fun r apply => if_pos (.inr hro)
  cases a with
  | set => cases (hno _ _).symm.trans h
  | delete => cases (hno _ _).symm.trans h
  | expire => cases (hno _ _).symm.trans h
  | _ => rfl

theorem EngineAction.fits_of_mutated {a : EngineAction} (h : a.mutated = none) (e : Engine) :
    a.Fits e := by
  cases a with
  | set => cases h
  | _ => trivial

end KvStore
