import KvStore.Engine.Agreement

/-!
# Log order and memory order

When does folding the log give what is in memory? Client mutations reserve their LSN
under the shard lock, the DELETEs of the drainer do not. So a key may have a removal
event on its way to the log, and until it is logged the log is behind memory for that
key. `plainReading` says exactly that: a key with an event pending is absent from
memory, and every other key is in memory what the log says.

A `Set` of a key whose removal is still pending breaks this: the DELETE of the drainer
then follows the SET in LSN order. In runs without such a `Set`
(`EngineAction.Orderly`) the log and memory agree whenever the drainer has caught up.

* `log_agrees_with_memory`: orderly runs.
* `drained_delete_after_set`: a run that is not.
-/

namespace KvStore

open KvStore.Common

/-- Records act without a clock; keys with an event pending are absent from memory, and the
    others are there what the log says. -/
def plainReading : Reading where
  effect := Record.effect
  Rel p l c := (p → c = none) ∧ (¬ p → l = c)
  absent h := h.1 trivial
  none_none _ := ⟨fun _ => rfl, fun _ => rfl⟩
  effect_delete _ ht := by simp [Record.effect, ht]
  effect_none {r} ht := by
    cases hr : r.type with
    | set => exact absurd hr ht
    | delete => simp [Record.effect, hr]
    | expire => simp [Record.effect, hr]
    | segmentHdr => simp [Record.effect, hr]
  effect_stamp _ _ _ := rfl

/-- The invariant of orderly runs. -/
structure Engine.Inv (e : Engine) : Prop extends Flow e where
  follows : e.evictDrops = 0 → e.Follows plainReading

variable {e e' : Engine} {i : ℕ} {ks : List Bytes} {m : Keyspace Bytes Bytes}

/-! ## The steps keep the invariant -/

/-- A removal by the store. -/
theorem Engine.Inv.remove (h : e.Inv)
    (hs : ShardStep e e' i ks ((e.store.shards i).contents.deleteAll ks))
    (hks : ∀ k ∈ ks, ((e.store.shards i).contents k).isSome) : e'.Inv := by
  have hroute : ∀ k ∈ ks, e.store.shardFor k = i ∧ k.length ≤ maxKeyLen :=
    fun k hk => h.routed i k (hks k hk)
  refine ⟨h.toFlow.shardStep hs hroute, fun hd => ?_⟩
  have hdrop : e'.evictDrops = e.evictDrops := by have := hs.drops; omega
  exact (h.follows (by omega)).remove hs (fun k hk => (hroute k hk).1)
    fun k hk => ⟨fun _ => rfl, fun hc => absurd (hs.pending_all hdrop k hk) hc⟩

/-- A mutation that was applied to memory and now holds the shard lock. -/
theorem Engine.Inv.mutate (h : e.Inv) (hs : ShardStep e e' i ks m) {rec : Record}
    (hroute : e.store.shardFor rec.key = i) (hsub : rec.Submittable)
    (hset : rec.type = .set → rec.key ∉ e'.pendingKeys)
    (hks : ∀ k ∈ ks, ((e.store.shards i).contents k).isSome ∧ m k = none)
    (hother : ∀ k, k ∉ ks → k ≠ rec.key → m k = (e.store.shards i).contents k)
    (hkey : rec.key ∉ ks → m rec.key = rec.effect ((e.store.shards i).contents rec.key)) :
    (e'.fly i rec).Inv := by
  have hroutes : ∀ k ∈ ks, e.store.shardFor k = i ∧ k.length ≤ maxKeyLen :=
    fun k hk => h.routed i k (hks k hk).1
  refine ⟨(h.toFlow.shardStep hs hroutes).fly (by rw [hs.shardFor]; exact hroute) hsub hset,
    fun hd => ?_⟩
  have hd : e'.evictDrops = 0 := hd
  have hdrop : e'.evictDrops = e.evictDrops := by have := hs.drops; omega
  have hfollow := h.follows (by omega)
  have hcont : ∀ k, e.store.shardFor k = i →
      e.store.contents k = (e.store.shards i).contents k := fun k hk => by rw [← hk]; rfl
  refine hfollow.mutate hs hroute (fun k hk => (hroutes k hk).1) (fun k hki hk => ?_) ?_
  · by_cases hmem : k ∈ ks
    · exact ⟨fun _ => (hks k hmem).2, fun hc => absurd (hs.pending_all hdrop k hmem) hc⟩
    · rw [hs.pending_iff hmem, hother k hmem hk, ← hcont k hki]
      exact hfollow k
  · by_cases hmem : rec.key ∈ ks
    · exact ⟨fun _ => (hks _ hmem).2, fun hc => absurd (hs.pending_all hdrop _ hmem) hc⟩
    · obtain ⟨h1, h2⟩ := hfollow rec.key
      rw [hs.pending_iff hmem, hkey hmem, ← hcont _ hroute]
      refine ⟨fun hp => ?_, fun hp => by rw [← h2 hp]; rfl⟩
      rw [h1 hp]
      exact plainReading.effect_none fun ht => hset ht (hs.pending _ hp)

/-! ## Orderly runs -/

/-- The condition on a step: a `Set` comes when no removal of its key is on its way to the
    log, the log takes the record, and the shard stays below `2^31` entries. -/
def EngineAction.Orderly (e : Engine) : EngineAction → Prop
  | .set key value ttl nowMs nowMono =>
    key ∉ e.pendingKeys ∧ key.length ≤ maxKeyLen ∧ value.length ≤ maxValLen ∧
      ((e.store.shards (e.store.shardFor key)).setLocked key value (Engine.deadline ttl nowMs)
        nowMono).2.entries.keys.length < 2 ^ 31
  | .delete key _ => key.length ≤ maxKeyLen
  | .expire key _ _ _ => key.length ≤ maxKeyLen
  | _ => True

theorem Engine.Inv.set (h : e.Inv) {key value : Bytes} {ttl nowMs nowMono : UInt64}
    (hok : (EngineAction.set key value ttl nowMs nowMono).Orderly e)
    (hstep : e.set key value ttl nowMs nowMono = some e') : e'.Inv := by
  obtain ⟨hpend, hkl, hvl, hcount⟩ := hok
  have hshard := h.shard (e.store.shardFor key)
  obtain ⟨ks, hkey, hpres, heff⟩ := setLocked_effect hshard.toKeyInv key value
    (Engine.deadline ttl nowMs) nowMono
  have hinv := ShardInv.maintained.setLocked hshard key value (Engine.deadline ttl nowMs) nowMono
    (entryCost_lt_of_fits hkl hvl) hcount
  obtain ⟨e₁, hs, rfl⟩ := mutate_step h.toBase hstep key rfl rfl hinv heff hkl fun k hne hk => by
    split_ifs at hk
    · rw [Keyspace.set_of_ne _ hne] at hk
      exact isSome_deleteAll hk
    · exact isSome_deleteAll hk
  split_ifs at hs ⊢
  · refine h.mutate hs rfl ⟨hkl, hvl, by simp [Engine.record]⟩
      (fun _ hc => (hs.pending_new _ hc).elim hpend hkey) (fun k hk => ⟨hpres hshard.toLinkedInv k hk, ?_⟩)
      (fun k hk hne => ?_) (fun _ => Keyspace.set_self _ _ _ _)
    · rw [Keyspace.set_of_ne _ (ne_of_mem_of_not_mem hk hkey), Keyspace.deleteAll, if_pos hk]
    · exact (Keyspace.set_of_ne _ hne _ _).trans (Keyspace.deleteAll_of_not_mem _ hk)
  · exact h.remove hs (hpres hshard.toLinkedInv)

theorem Engine.Inv.delete (h : e.Inv) {key : Bytes} {nowMs : UInt64}
    (hok : key.length ≤ maxKeyLen) (hstep : e.delete key nowMs = some e') : e'.Inv := by
  have hshard := h.shard (e.store.shardFor key)
  have heff : Effect _ _ (([] : List Bytes).map fun k => (k, EvictReason.expired)) _ :=
    (txnDelete_effect hshard.toKeyInv key nowMs).2
  obtain ⟨e₁, hs, rfl⟩ := mutate_step h.toBase hstep key rfl rfl
    (ShardInv.maintained.txnDelete hshard key nowMs)
    heff hok fun k hne hk => by rwa [Keyspace.delete_of_ne _ hne] at hk
  exact h.mutate hs rfl ⟨hok, Nat.zero_le _, by simp [Engine.record]⟩ (fun ht => by cases ht) nofun
    (fun k _ hne => Keyspace.delete_of_ne _ hne) (fun _ => Keyspace.delete_self _ _)

/-- `Expire` on a dead entry removes it, and the event makes up for the EXPIRE record. -/
theorem Engine.Inv.expire (h : e.Inv) {key : Bytes} {ttl nowMs nowMs' : UInt64}
    (hok : key.length ≤ maxKeyLen) (hstep : e.expire key ttl nowMs nowMs' = some e') : e'.Inv := by
  have hshard := h.shard (e.store.shardFor key)
  have hsub : (Engine.record .expire key [] (Engine.deadline ttl nowMs)).Submittable :=
    ⟨hok, Nat.zero_le _, by simp [Engine.record]⟩
  rcases expire_step h.toBase hok hstep with ⟨e₁, rfl, ⟨hdead, hs⟩ | ⟨-, hs⟩⟩
  · refine h.mutate hs rfl hsub (fun ht => by cases ht) (fun k hk => ?_)
      (fun k _ hne => Keyspace.delete_of_ne _ hne) fun hk => absurd (List.mem_singleton_self key) hk
    rw [List.mem_singleton.mp hk]
    exact ⟨isSome_of_deadAt hdead, Keyspace.delete_self _ _⟩
  · exact h.mutate hs rfl hsub (fun ht => by cases ht) (by simp)
      (fun k _ hne => Keyspace.expire_of_ne _ hne _) (fun _ => Keyspace.expire_self _ _ _)

theorem Engine.Inv.read (h : e.Inv) {key : Bytes} {nowMs nowMono : UInt64}
    (hstep : e.step (.read key nowMs nowMono) = some e') : e'.Inv := by
  have hs := read_step h.toBase hstep
  exact h.remove hs nofun

theorem Engine.Inv.expired (h : e.Inv) {α : Type} {fn : Shard → α × Shard} {nowMs : UInt64}
    (hstep : (e.onShard i fn).map Prod.snd = some e')
    (hfn : RemovesExpired nowMs (e.store.shards i) (fn (e.store.shards i)).2) : e'.Inv := by
  obtain ⟨ks, hs, hdead⟩ := onShard_expired h.toBase hstep hfn
  exact h.remove hs fun k hk => isSome_of_deadAt (hdead k hk)

theorem Engine.Inv.evictToLimit (h : e.Inv)
    (hstep : e.step (.evictToLimit i) = some e') : e'.Inv := by
  obtain ⟨ks, hks, -, hmem, hinv⟩ := evictToLimit_evicts (e.store.shards i)
  have hshard := hinv ShardInv.maintained (h.shard i)
  exact h.remove (onShard_removed h.toBase hstep hks hshard) fun k hk => by
    rw [contents_isSome]; exact hmem (h.shard i).toLinkedInv k hk

theorem Engine.step_inv (h : e.Inv) {a : EngineAction} (ha : a.Orderly e)
    (hstep : e.step a = some e') : e'.Inv := by
  cases a with
  | set key value ttl nowMs nowMono => exact h.set ha hstep
  | delete key nowMs => exact h.delete ha hstep
  | expire key ttl nowMs nowMs' => exact h.expire ha hstep
  | submit i nowMs =>
    have hsame : e'.evictDrops = e.evictDrops := by
      obtain ⟨r, t, -, -, rfl⟩ := h.submit_eq hstep; rfl
    exact ⟨h.submit hstep, fun hd => (h.follows (hsame ▸ hd)).submit h.toFlow hstep⟩
  | read key nowMs nowMono => exact h.read hstep
  | reap key nowMs => exact h.expired hstep (reapLocked_removesExpired _ key nowMs)
  | sweep i nowMs sample => exact h.expired hstep (sweepLocked_removesExpired _ nowMs sample)
  | purge i nowMs => exact h.expired hstep (purgeLoop_removesExpired nowMs _ _ _ _)
  | wheel key timer nowMs => exact h.expired hstep (wheelRemove_removesExpired _ _ _ _)
  | evictToLimit i => exact h.evictToLimit hstep
  | drainTake =>
    have hsame : e'.evictDrops = e.evictDrops := by
      obtain ⟨q, d, rfl, -⟩ := drainTake_eq hstep; rfl
    exact ⟨h.drainTake hstep, fun hd => (h.follows (hsame ▸ hd)).drainTake hstep⟩
  | logEvict nowMs =>
    have hsame : e'.evictDrops = e.evictDrops := by
      obtain ⟨ev, t, -, rfl⟩ := h.logEvict_eq hstep; rfl
    exact ⟨h.logEvict hstep, fun hd => (h.follows (hsame ▸ hd)).logEvict h.toFlow hstep⟩

theorem newEngine_inv (o : Options) (newSeed : UInt64) : (newEngine o newSeed).Inv :=
  ⟨newEngine_flow o newSeed, fun _ k => ⟨nofun, fun _ => (newStore_contents o newSeed k).symm⟩⟩

theorem engine_run_inv {o : Options} {newSeed : UInt64}
    (h : Run Engine.step (fun e a => a.Orderly e) (newEngine o newSeed) e) : e.Inv :=
  h.invariant (fun _ _ _ hi ha hs => Engine.step_inv hi ha hs) (newEngine_inv o newSeed)

/-- In an orderly run no event was dropped in, the keys with a removal on its way to the
    log are absent from memory, and once the drainer has caught up and no mutation is in
    flight, folding the log gives the contents of memory. -/
theorem log_agrees_with_memory (o : Options) (newSeed : UInt64)
    (h : Run Engine.step (fun e a => a.Orderly e) (newEngine o newSeed) e)
    (hdrops : e.evictDrops = 0) :
    (∀ k ∈ e.pendingKeys, e.store.contents k = none) ∧
      (e.evictQ = [] → e.draining = none → (∀ i, e.inflight i = none) →
        foldRecords e.log.records = e.store.contents) := by
  have hfollow := (engine_run_inv h).follows hdrops
  refine ⟨fun k => (hfollow k).1, fun hq hd hin => ?_⟩
  funext k
  have hk : k ∉ e.pendingKeys := by
    rw [Engine.pendingKeys, hq, hd]
    exact List.not_mem_nil
  rw [← (hfollow k).2 hk, logged_of_idle hin]
  rfl

/-- A key expires and is written again after the drainer has logged its removal. -/
theorem log_agrees_with_memory_rewritten :
    ∃ e, exec Engine.step (newEngine oneShard 1)
        [.set [1] [2] 1 0 0, .submit 0 0, .reap [1] 1, .drainTake, .logEvict 1, .set [1] [3] 0 1 1,
          .submit 0 1] = some e ∧
      e.log.records.length = 3 ∧ foldRecords e.log.records = e.store.contents := by
  refine ⟨_, rfl, by decide, ?_⟩
  refine (log_agrees_with_memory oneShard 1 (((((((Run.refl.tail (.set [1] [2] 1 0 0) ?_ rfl).tail
    (.submit 0 0) trivial rfl).tail (.reap [1] 1) trivial rfl).tail .drainTake trivial rfl).tail
    (.logEvict 1) trivial rfl).tail (.set [1] [3] 0 1 1) ?_ rfl).tail (.submit 0 1) trivial rfl)
    rfl).2 rfl rfl (fun i => by cases i <;> rfl)
  · exact ⟨by decide, by decide, by decide, by decide⟩
  · exact ⟨by decide, by decide, by decide, by decide⟩

/-- A key expires and is written again before the drainer has logged its removal: the
    DELETE gets the higher LSN, and the log no longer has the key that memory holds. -/
theorem drained_delete_after_set :
    ∃ e, exec Engine.step (newEngine oneShard 1)
        [.set [1] [2] 1 0 0, .submit 0 0, .reap [1] 1, .set [1] [3] 0 1 1, .submit 0 1, .drainTake,
          .logEvict 1] = some e ∧
      (e.evictQ = [] ∧ e.evictDrops = 0 ∧ e.draining = none ∧ ∀ i, e.inflight i = none) ∧
      e.log.records.map (fun r => (r.type, r.key)) = [(.set, [1]), (.set, [1]), (.delete, [1])] ∧
      foldRecords e.log.records [1] = none ∧ e.store.contents [1] = some ([3], 0) := by
  refine ⟨_, rfl, ⟨rfl, rfl, rfl, fun i => by cases i <;> rfl⟩, ?_, ?_, ?_⟩
  · decide
  · decide
  · decide

end KvStore
