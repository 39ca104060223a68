import KvStore.Engine.Engine
import KvStore.Store.Upkeep

/-!
# How the log follows memory

What the steps of the engine do to memory, to the log and to the queue of removal
events, said once for all properties of the log. A step under a shard lock changes the
contents of that shard and reports some keys (`ShardStep`); a mutation leaves a record
in flight until it is submitted; the drainer submits a DELETE for an event later.

A `Reading` fixes what a record does to the entry of its key and how the entry the log
describes relates to the one in memory, when a removal of the key is on its way to the
log and when none is. `Engine.Follows` says that they are related for all keys, the
records in flight counted in, and the lemmas about it say what each step has to satisfy.
-/

namespace KvStore

open KvStore.Common

namespace Engine

/-- The keys with a removal event on its way to the log. -/
def pendingKeys (e : Engine) : List Bytes := (e.draining.toList ++ e.evictQ).map Prod.fst

/-- The mutation in flight on shard `i` is `rec`. -/
def fly (e : Engine) (i : ℕ) (rec : Record) : Engine :=
  { e with inflight := Function.update e.inflight i (some rec) }

/-- Nothing is in the way: the log takes records, events are queued, and each shard is
    well formed and holds only keys that are routed to it and fit a record. -/
structure Base (e : Engine) : Prop where
  logOpen : e.log.closed = false ∧ e.log.fatal = false
  primary : e.readOnly = false ∧ e.closed = false
  shard : ∀ i, ShardInv (e.store.shards i)
  reported : ∀ i, (e.store.shards i).onEvict = []
  routed : ∀ i k, ((e.store.shards i).contents k).isSome →
    e.store.shardFor k = i ∧ k.length ≤ maxKeyLen

/-- What is in flight or pending will be accepted by the log, and no SET is in flight for a
    key with a removal pending. -/
structure Flow (e : Engine) : Prop extends Base e where
  inflight : ∀ {i r}, e.inflight i = some r → e.store.shardFor r.key = i ∧ r.Submittable ∧
    (r.type = .set → r.key ∉ e.pendingKeys)
  pendingLen : ∀ k ∈ e.pendingKeys, k.length ≤ maxKeyLen

end Engine

variable {e e' : Engine} {i : ℕ} {ks : List Bytes} {m : Keyspace Bytes Bytes}

/-! ## Reporting removals -/

/-- What `onStoreEvict` does with a list of events: it queues some of them, and drops the
    others. -/
theorem foldl_onStoreEvict (h : e.readOnly = false ∧ e.closed = false) :
    ∀ (ev : List (Bytes × EvictReason)), ∃ q d, ev.foldl Engine.onStoreEvict e =
        { e with evictQ := e.evictQ ++ q, evictDrops := e.evictDrops + d } ∧
      (∀ x ∈ q, x ∈ ev) ∧ (d = 0 → q = ev) := by
  intro ev
  induction ev using List.reverseRecOn with
  | nil => exact ⟨[], 0, by simp, by simp, by simp⟩
  | append_singleton ev x ih =>
    obtain ⟨q, d, heq, hmem, hq⟩ := ih
    rw [List.foldl_append, heq, List.foldl_cons, List.foldl_nil]
    unfold Engine.onStoreEvict
    rw [if_neg (by simp [h.1, h.2])]
    dsimp only
    split_ifs
    · refine ⟨q ++ [x], d, by rw [List.append_assoc], fun y hy => ?_, fun hd => by rw [hq hd]⟩
      rcases List.mem_append.mp hy with hy | hy
      · exact List.mem_append_left _ (hmem y hy)
      · exact List.mem_append_right _ hy
    · exact ⟨q, d + 1, rfl, fun y hy => List.mem_append_left _ (hmem y hy), by omega⟩

/-! ## What a step under a shard lock can do -/

/-- Shard `i` went to the contents `m` and reported the keys `ks`. -/
structure ShardStep (e e' : Engine) (i : ℕ) (ks : List Bytes) (m : Keyspace Bytes Bytes) :
    Prop where
  base : e'.Base
  free : e.inflight i = none
  inflight : e'.inflight = e.inflight
  log : e'.log = e.log
  shardFor : e'.store.shardFor = e.store.shardFor
  budget : ∀ j, (e'.store.shards j).budget = (e.store.shards j).budget
  contents : ∀ k, e'.store.contents k = if e.store.shardFor k = i then m k else e.store.contents k
  pending : ∀ k ∈ e.pendingKeys, k ∈ e'.pendingKeys
  pending_new : ∀ k ∈ e'.pendingKeys, k ∈ e.pendingKeys ∨ k ∈ ks
  drops : e.evictDrops ≤ e'.evictDrops
  pending_all : e'.evictDrops = e.evictDrops → ∀ k ∈ ks, k ∈ e'.pendingKeys

theorem ShardStep.pending_iff (hs : ShardStep e e' i ks m) {k : Bytes} (hk : k ∉ ks) :
    k ∈ e'.pendingKeys ↔ k ∈ e.pendingKeys :=
  ⟨fun h => (hs.pending_new k h).resolve_right hk, hs.pending k⟩

theorem onShard_step {α : Type} {a : α} {fn : Shard → α × Shard} {reason : EvictReason}
    (h : e.Base) (hstep : e.onShard i fn = some (a, e'))
    (hinv : ShardInv (fn (e.store.shards i)).2)
    (heff : Effect (e.store.shards i) (fn (e.store.shards i)).2 (ks.map fun k => (k, reason)) m)
    (hroute : ∀ k, (m k).isSome → e.store.shardFor k = i ∧ k.length ≤ maxKeyLen) :
    a = (fn (e.store.shards i)).1 ∧ ShardStep e e' i ks m := by
  unfold Engine.onShard at hstep
  split_ifs at hstep with hfree
  obtain ⟨sh, hsh⟩ : ∃ sh, sh = (fn (e.store.shards i)).2 := ⟨_, rfl⟩
  have hout : sh.onEvict = ks.map fun k => (k, reason) := by
    rw [hsh, heff.onEvict, h.reported, List.nil_append]
  rw [← hsh] at hinv heff
  simp only [← hsh, Option.some.injEq, Prod.mk.injEq] at hstep
  obtain ⟨ha, hstep⟩ := hstep
  refine ⟨ha.symm, ?_⟩
  obtain ⟨q, d, heq, hmem, hq⟩ := foldl_onStoreEvict
    (e := { e with store := e.store.put i { sh with onEvict := [] } }) h.primary sh.onEvict
  rw [heq] at hstep
  subst hstep
  rw [hout] at hq hmem
  have hcont : ({ sh with onEvict := [] } : Shard).contents = m := heff.contents
  have hkeys : ∀ x ∈ q, x.1 ∈ ks := fun x hx => by
    obtain ⟨k, hk, rfl⟩ := List.mem_map.mp (hmem x hx)
    exact hk
  refine
    { base := ⟨h.logOpen, h.primary, fun j => ?_, fun j => ?_, fun j k hk => ?_⟩
      free := by simpa using hfree
      inflight := rfl
      log := rfl
      shardFor := rfl
      budget := fun j => ?_
      contents := fun k => by rw [← hcont]; exact contents_put _ _ _ _
      pending := fun k hk => ?_
      pending_new := fun k hk => ?_
      drops := Nat.le_add_right _ _
      pending_all := fun hdrop k hk => ?_ }
  · show ShardInv ((e.store.put i { sh with onEvict := [] }).shards j)
    rw [shards_put]
    split_ifs
    · exact hinv.congr rfl rfl rfl rfl rfl rfl rfl rfl
    · exact h.shard j
  · show ((e.store.put i { sh with onEvict := [] }).shards j).onEvict = []
    rw [shards_put]
    split_ifs
    · rfl
    · exact h.reported j
  · change ((((e.store.put i { sh with onEvict := [] }).shards j).contents k)).isSome at hk
    rw [shards_put] at hk
    split_ifs at hk with hj
    · rw [hcont] at hk
      exact hj ▸ hroute k hk
    · exact h.routed j k hk
  · show ((e.store.put i { sh with onEvict := [] }).shards j).budget = _
    rw [shards_put]
    split_ifs with hj
    · rw [hj]; exact heff.budget
    · rfl
  · simp only [Engine.pendingKeys, List.map_append, List.mem_append] at hk ⊢
    tauto
  · simp only [Engine.pendingKeys, List.map_append, List.mem_append] at hk ⊢
    rcases hk with hk | hk | hk
    · exact Or.inl (Or.inl hk)
    · exact Or.inl (Or.inr hk)
    · obtain ⟨x, hx, rfl⟩ := List.mem_map.mp hk
      exact Or.inr (hkeys x hx)
  · have hq := hq (by simpa using hdrop)
    simp only [Engine.pendingKeys, List.map_append, List.mem_append, hq, List.map_map]
    exact Or.inr (Or.inr (List.mem_map.mpr ⟨k, hk, rfl⟩))

theorem isSome_deleteAll {k : Bytes} (h : (m.deleteAll ks k).isSome) : (m k).isSome := by
  unfold Keyspace.deleteAll at h
  split_ifs at h
  · cases h
  · exact h

/-- A removal by the store that reports the keys it removes. -/
theorem onShard_removed {α : Type} {fn : Shard → α × Shard} {reason : EvictReason} (h : e.Base)
    (hstep : (e.onShard i fn).map Prod.snd = some e')
    (hfn : Removed reason (e.store.shards i) (fn (e.store.shards i)).2 ks)
    (hinv : ShardInv (fn (e.store.shards i)).2) :
    ShardStep e e' i ks ((e.store.shards i).contents.deleteAll ks) := by
  obtain ⟨⟨a, _⟩, hres, rfl⟩ := Option.map_eq_some_iff.mp hstep
  exact (onShard_step h hres hinv (hfn.effect (h.shard i).toKeyInv)
    fun k hk => h.routed i k (isSome_deleteAll hk)).2

theorem onShard_expired {α : Type} {fn : Shard → α × Shard} {nowMs : UInt64} (h : e.Base)
    (hstep : (e.onShard i fn).map Prod.snd = some e')
    (hfn : RemovesExpired nowMs (e.store.shards i) (fn (e.store.shards i)).2) :
    ∃ ks, ShardStep e e' i ks ((e.store.shards i).contents.deleteAll ks) ∧
      ∀ k ∈ ks, deadAt nowMs ((e.store.shards i).contents k) = true := by
  obtain ⟨ks, hks, hindex, hinv⟩ := hfn
  refine ⟨ks, onShard_removed h hstep hks (hinv ShardInv.maintained (h.shard i)), fun k hk => ?_⟩
  obtain ⟨p, hp, hexp⟩ := (hindex (h.shard i).toIndexInv).2 k hk
  rw [contents_of_lookup hp, deadAt_some]
  exact hexp

/-- A client's mutation: its record is now in flight, or it was refused. -/
theorem mutate_step {rec : Record} {apply : Shard → Bool × Shard} {reason : EvictReason} (h : e.Base)
    (hstep : e.mutate rec apply = some e') (key : Bytes) (hrec : rec.key = key) {sh : Shard}
    (hsh : e.store.shards (e.store.shardFor key) = sh) (hinv : ShardInv (apply sh).2)
    (heff : Effect sh (apply sh).2 (ks.map fun k => (k, reason)) m) (hlen : key.length ≤ maxKeyLen)
    (hother : ∀ k, k ≠ key → (m k).isSome → (sh.contents k).isSome) :
    ∃ e₁, ShardStep e e₁ (e.store.shardFor key) ks m ∧
      e' = if (apply sh).1 = true then e₁.fly (e.store.shardFor key) rec else e₁ := by
  subst hrec hsh
  have hroute : ∀ k, (m k).isSome →
      e.store.shardFor k = e.store.shardFor rec.key ∧ k.length ≤ maxKeyLen := by
    intro k hk
    by_cases hkr : k = rec.key
    · rw [hkr]; exact ⟨rfl, hlen⟩
    · exact h.routed _ k (hother k hkr hk)
  unfold Engine.mutate at hstep
  rw [if_neg (by simp [h.primary.1, h.primary.2])] at hstep
  obtain ⟨⟨ok, e₁⟩, hres, heq⟩ := Option.map_eq_some_iff.mp hstep
  obtain ⟨rfl, hs⟩ := onShard_step h hres hinv heff hroute
  dsimp only at heq
  rw [hs.shardFor] at heq
  exact ⟨e₁, hs, heq.symm⟩

theorem entryCost_lt_of_fits {key value : Bytes} (hk : key.length ≤ maxKeyLen)
    (hv : value.length ≤ maxValLen) : entryCost key.length value.length < 2 ^ 32 := by
  unfold maxKeyLen at hk
  unfold maxValLen at hv
  unfold entryCost entryStructSize mapOverhead
  omega

theorem evictToLimit_evicts (sh : Shard) : Evicts [] sh sh.evictToLimit.2 := by
  unfold Shard.evictToLimit
  split_ifs
  · exact .refl _ sh
  · exact evictLocked_evicts sh sh.lowWater []

/-- `Expire` removes a dead entry and reports it, or moves the deadline. -/
theorem expire_step (h : e.Base) {key : Bytes} {ttl nowMs nowMs' : UInt64}
    (hlen : key.length ≤ maxKeyLen) (hstep : e.expire key ttl nowMs nowMs' = some e') :
    ∃ e₁, e' = e₁.fly (e.store.shardFor key)
        (Engine.record .expire key [] (Engine.deadline ttl nowMs)) ∧
      ((deadAt nowMs' ((e.store.shards (e.store.shardFor key)).contents key) = true ∧
          ShardStep e e₁ (e.store.shardFor key) [key]
            ((e.store.shards (e.store.shardFor key)).contents.delete key)) ∨
        (¬ deadAt nowMs' ((e.store.shards (e.store.shardFor key)).contents key) = true ∧
          ShardStep e e₁ (e.store.shardFor key) []
            ((e.store.shards (e.store.shardFor key)).contents.expire key
              (Engine.deadline ttl nowMs)))) := by
  have hshard := h.shard (e.store.shardFor key)
  have hinv := ShardInv.maintained.txnExpire hshard key (Engine.deadline ttl nowMs) nowMs'
  have heff := (txnExpire_effect hshard.toKeyInv key (Engine.deadline ttl nowMs) nowMs').2
  by_cases hdead : deadAt nowMs' ((e.store.shards (e.store.shardFor key)).contents key) = true
  · rw [if_pos hdead, if_pos hdead] at heff
    have heff : Effect _ _ ([key].map fun k => (k, EvictReason.expired)) _ := heff
    obtain ⟨e₁, hs, rfl⟩ := mutate_step h hstep key rfl rfl hinv heff hlen
      fun k hne hk => by rwa [Keyspace.delete_of_ne _ hne] at hk
    exact ⟨e₁, rfl, Or.inl ⟨hdead, hs⟩⟩
  · rw [if_neg hdead, if_neg hdead] at heff
    have heff : Effect _ _ (([] : List Bytes).map fun k => (k, EvictReason.expired)) _ := heff
    obtain ⟨e₁, hs, rfl⟩ := mutate_step h hstep key rfl rfl hinv heff hlen
      fun k hne hk => by rwa [Keyspace.expire_of_ne _ hne] at hk
    exact ⟨e₁, rfl, Or.inr ⟨hdead, hs⟩⟩

/-- A read removes nothing. -/
theorem read_step (h : e.Base) {key : Bytes} {nowMs nowMono : UInt64}
    (hstep : e.step (.read key nowMs nowMono) = some e') :
    ShardStep e e' (e.store.shardFor key) []
      ((e.store.shards (e.store.shardFor key)).contents.deleteAll []) := by
  have hshard := h.shard (e.store.shardFor key)
  obtain ⟨⟨a, _⟩, hres, rfl⟩ := Option.map_eq_some_iff.mp hstep
  have heff : Effect _ _ (([] : List Bytes).map fun k => (k, EvictReason.expired)) _ :=
    (getLocked_effect hshard.toKeyInv key nowMs nowMono).1
  rw [Keyspace.deleteAll_nil]
  exact (onShard_step h hres (ShardInv.maintained.getLocked hshard key nowMs nowMono) heff
    fun k hk => h.routed _ k hk).2

/-! ## What is in flight -/

/-- The records in flight stay clear of the reported keys, which are routed elsewhere. -/
theorem Engine.Flow.inflight_clear (h : e.Flow) (hs : ShardStep e e' i ks m)
    (hks : ∀ k ∈ ks, e.store.shardFor k = i) {j : ℕ} {r : Record} (hr : e.inflight j = some r) :
    e'.store.shardFor r.key = j ∧ r.Submittable ∧ (r.type = .set → r.key ∉ e'.pendingKeys) := by
  obtain ⟨h1, h2, h3⟩ := h.inflight hr
  refine ⟨by rw [hs.shardFor]; exact h1, h2, fun ht hc => ?_⟩
  rcases hs.pending_new _ hc with hc | hc
  · exact h3 ht hc
  · have hji : j = i := h1.symm.trans (hks _ hc)
    rw [hji, hs.free] at hr
    cases hr

theorem Engine.Flow.shardStep (h : e.Flow) (hs : ShardStep e e' i ks m)
    (hks : ∀ k ∈ ks, e.store.shardFor k = i ∧ k.length ≤ maxKeyLen) : e'.Flow := by
  refine ⟨hs.base, fun hr => ?_, fun k hk => ?_⟩
  · rw [hs.inflight] at hr
    exact h.inflight_clear hs (fun k hk => (hks k hk).1) hr
  · exact (hs.pending_new k hk).elim (h.pendingLen k) fun hk => (hks k hk).2

theorem Engine.Flow.fly (h : e.Flow) {rec : Record} (hroute : e.store.shardFor rec.key = i)
    (hsub : rec.Submittable) (hset : rec.type = .set → rec.key ∉ e.pendingKeys) :
    (e.fly i rec).Flow := by
  refine ⟨⟨h.logOpen, h.primary, h.shard, h.reported, h.routed⟩, fun {j r} hr => ?_, h.pendingLen⟩
  have hr : Function.update e.inflight i (some rec) j = some r := hr
  by_cases hj : j = i
  · subst hj
    rw [Function.update_self] at hr
    obtain rfl := Option.some.inj hr
    exact ⟨hroute, hsub, hset⟩
  · rw [Function.update_of_ne hj] at hr
    exact h.inflight hr

/-- `Submit` of what is in flight on shard `i`. -/
theorem Engine.Flow.submit_eq (h : e.Flow) {nowMs : UInt64} (hstep : e.submit i nowMs = some e') :
    ∃ r t, e.inflight i = some r ∧ e.store.shardFor r.key = i ∧ e' = { e with
      inflight := Function.update e.inflight i none
      log := { e.log with
        nextLSN := e.log.nextLSN + 1
        records := e.log.records ++ [{ r with lsn := e.log.nextLSN, createdAtMs := t }] } } := by
  unfold Engine.submit at hstep
  obtain ⟨r, hr, rfl⟩ := Option.map_eq_some_iff.mp hstep
  obtain ⟨hroute, hsub, -⟩ := h.inflight hr
  obtain ⟨t, hsubmit⟩ := submit_of_submittable h.logOpen hsub nowMs
  refine ⟨r, t, hr, hroute, ?_⟩
  dsimp only
  rw [hsubmit]

theorem inflight_of_update_none {r : Record} {j : ℕ}
    (h : Function.update e.inflight i none j = some r) : e.inflight j = some r := by
  by_cases hj : j = i
  · subst hj; rw [Function.update_self] at h; cases h
  · rwa [Function.update_of_ne hj] at h

theorem Engine.Flow.submit (h : e.Flow) {nowMs : UInt64} (hstep : e.submit i nowMs = some e') :
    e'.Flow := by
  obtain ⟨r, t, -, -, rfl⟩ := h.submit_eq hstep
  exact ⟨⟨h.logOpen, h.primary, h.shard, h.reported, h.routed⟩,
    fun hx => h.inflight (inflight_of_update_none hx), h.pendingLen⟩

/-- Taking an event does not change what is pending. -/
theorem drainTake_eq (hstep : e.drainTake = some e') :
    ∃ q d, e' = { e with evictQ := q, draining := d } ∧ e'.pendingKeys = e.pendingKeys := by
  unfold Engine.drainTake at hstep
  split at hstep
  · rename_i ev rest hd hq
    cases hstep
    exact ⟨_, _, rfl, by simp [Engine.pendingKeys, hd, hq]⟩
  · cases hstep

theorem Engine.Flow.drainTake (h : e.Flow) (hstep : e.drainTake = some e') : e'.Flow := by
  obtain ⟨q, d, rfl, hpend⟩ := drainTake_eq hstep
  refine ⟨⟨h.logOpen, h.primary, h.shard, h.reported, h.routed⟩, ?_, ?_⟩
  · rw [hpend]; exact h.inflight
  · rw [hpend]; exact h.pendingLen

/-- The DELETE of the drainer. -/
theorem Engine.Flow.logEvict_eq (h : e.Flow) {nowMs : UInt64} (hstep : e.logEvict nowMs = some e') :
    ∃ ev t, (∀ k, k ∈ e.pendingKeys ↔ k = ev ∨ k ∈ e'.pendingKeys) ∧ e' = { e with
      draining := none
      log := { e.log with
        nextLSN := e.log.nextLSN + 1
        records := e.log.records ++
          [{ Engine.record .delete ev [] 0 with lsn := e.log.nextLSN, createdAtMs := t }] } } := by
  unfold Engine.logEvict at hstep
  obtain ⟨ev, hev, rfl⟩ := Option.map_eq_some_iff.mp hstep
  have hpend : ∀ k, k ∈ e.pendingKeys ↔ k = ev.1 ∨ k ∈ e.evictQ.map Prod.fst := by
    intro k
    rw [Engine.pendingKeys, hev]
    simp
  have hsub : (Engine.record .delete ev.1 [] 0).Submittable :=
    ⟨h.pendingLen ev.1 ((hpend ev.1).mpr (Or.inl rfl)), Nat.zero_le _, by simp [Engine.record]⟩
  obtain ⟨t, hsubmit⟩ := submit_of_submittable h.logOpen hsub nowMs
  dsimp only
  rw [hsubmit]
  exact ⟨ev.1, t, hpend, rfl⟩

theorem Engine.Flow.logEvict (h : e.Flow) {nowMs : UInt64} (hstep : e.logEvict nowMs = some e') :
    e'.Flow := by
  obtain ⟨ev, t, hpend, rfl⟩ := h.logEvict_eq hstep
  refine ⟨⟨h.logOpen, h.primary, h.shard, h.reported, h.routed⟩, fun hr => ?_, fun k hk => ?_⟩
  · obtain ⟨h1, h2, h3⟩ := h.inflight hr
    exact ⟨h1, h2, fun ht hc => h3 ht ((hpend _).mpr (Or.inr hc))⟩
  · exact h.pendingLen k ((hpend k).mpr (Or.inr hk))

theorem newEngine_flow (o : Options) (newSeed : UInt64) : (newEngine o newSeed).Flow := by
  have hempty : ∀ i k, ((newStore o newSeed).shards i).contents k = none := by
    intro i k
    rw [Shard.contents, newStore_entries]
    rfl
  refine ⟨⟨⟨rfl, rfl⟩, ⟨rfl, rfl⟩, newStore_inv o newSeed, fun i => ?_, fun i k hk => ?_⟩,
    (fun h => by cases h), fun k hk => by cases hk⟩
  · show ((newStore o newSeed).shards i).onEvict = []
    unfold newStore
    dsimp only
    split_ifs <;> rfl
  · rw [show ((newEngine o newSeed).store.shards i).contents k = none from hempty i k] at hk
    cases hk

/-! ## Readings of the log -/

/-- What a record does to the entry of its key, and how the entry the log gives (first) has
    to relate to the one in memory, with (`True`) and without a removal pending. -/
structure Reading where
  effect : RecordEffect
  Rel : Prop → Option (Bytes × UInt64) → Option (Bytes × UInt64) → Prop
  absent : ∀ {l c}, Rel True l c → c = none
  none_none : ∀ p, Rel p none none
  effect_delete : ∀ {r : Record} (o), r.type = .delete → effect r o = none
  effect_none : ∀ {r : Record}, r.type ≠ .set → effect r none = none
  effect_stamp : ∀ (r : Record) (lsn : ℕ) (t : UInt64),
    effect { r with lsn := lsn, createdAtMs := t } = effect r

/-- What the log describes once the mutations in flight are submitted. -/
def Engine.logged (f : RecordEffect) (e : Engine) : Keyspace Bytes Bytes := fun k =>
  match e.inflight (e.store.shardFor k) with
  | none => foldWith f e.log.records k
  | some r => applyWith f (foldWith f e.log.records) r k

/-- The log describes memory, as far as the reading asks for. -/
def Engine.Follows (R : Reading) (e : Engine) : Prop :=
  ∀ k, R.Rel (k ∈ e.pendingKeys) (e.logged R.effect k) (e.store.contents k)

variable {R : Reading}

theorem Reading.foldWith_submitted (R : Reading) (rs : List Record) (r : Record) (lsn : ℕ)
    (t : UInt64) : foldWith R.effect (rs ++ [{ r with lsn := lsn, createdAtMs := t }]) =
      applyWith R.effect (foldWith R.effect rs) r := by
  rw [foldWith_append, applyWith, R.effect_stamp]
  rfl

theorem ShardStep.logged_eq (hs : ShardStep e e' i ks m) (f : RecordEffect) :
    e'.logged f = e.logged f := by
  funext k
  simp only [Engine.logged, hs.inflight, hs.log, hs.shardFor]

/-- A step under a shard lock, where each key of the shard is fine with its new contents. -/
theorem Engine.Follows.shardStep (h : e.Follows R) (hs : ShardStep e e' i ks m)
    (hks : ∀ k ∈ ks, e.store.shardFor k = i)
    (hm : ∀ k, e.store.shardFor k = i →
      R.Rel (k ∈ e'.pendingKeys) (e.logged R.effect k) (m k)) : e'.Follows R := by
  intro k
  rw [hs.logged_eq, hs.contents]
  split_ifs with hk
  · exact hm k hk
  · rw [hs.pending_iff fun hc => hk (hks k hc)]
    exact h k

/-- A removal by the store. -/
theorem Engine.Follows.remove (h : e.Follows R)
    (hs : ShardStep e e' i ks ((e.store.shards i).contents.deleteAll ks))
    (hks : ∀ k ∈ ks, e.store.shardFor k = i)
    (hrel : ∀ k ∈ ks, R.Rel (k ∈ e'.pendingKeys) (e.logged R.effect k) none) : e'.Follows R := by
  refine h.shardStep hs hks fun k hk => ?_
  by_cases hmem : k ∈ ks
  · rw [Keyspace.deleteAll, if_pos hmem]
    exact hrel k hmem
  · rw [Keyspace.deleteAll_of_not_mem _ hmem, hs.pending_iff hmem, ← hk]
    exact h k

/-- A mutation, of which the record acts on what the log describes. -/
theorem Engine.Follows.mutate (h : e.Follows R) (hs : ShardStep e e' i ks m) {rec : Record}
    (hroute : e.store.shardFor rec.key = i) (hks : ∀ k ∈ ks, e.store.shardFor k = i)
    (hother : ∀ k, e.store.shardFor k = i → k ≠ rec.key →
      R.Rel (k ∈ e'.pendingKeys) (e.logged R.effect k) (m k))
    (hkey : R.Rel (rec.key ∈ e'.pendingKeys) (R.effect rec (e.logged R.effect rec.key))
      (m rec.key)) : (e'.fly i rec).Follows R := by
  intro k
  show R.Rel (k ∈ e'.pendingKeys) ((e'.fly i rec).logged R.effect k) (e'.store.contents k)
  have hlogged : e.store.shardFor k = i → e.logged R.effect k = foldWith R.effect e.log.records k :=
    fun hk => by simp only [Engine.logged, hk, hs.free]
  unfold Engine.logged Engine.fly
  dsimp only
  rw [hs.contents, hs.shardFor, hs.log, hs.inflight]
  split_ifs with hk
  · rw [hk, Function.update_self]
    dsimp only
    by_cases hkr : k = rec.key
    · subst hkr
      rw [applyWith_self, ← hlogged hroute]
      exact hkey
    · rw [applyWith_of_ne _ hkr, ← hlogged hk]
      exact hother k hk hkr
  · rw [Function.update_of_ne hk, hs.pending_iff fun hc => hk (hks k hc)]
    exact h k

theorem Engine.Follows.submit (h : e.Follows R) (hf : e.Flow) {nowMs : UInt64}
    (hstep : e.submit i nowMs = some e') : e'.Follows R := by
  obtain ⟨r, t, hr, hroute, he'⟩ := hf.submit_eq hstep
  intro k
  have hlogged : e'.logged R.effect k = e.logged R.effect k := by
    rw [he']
    unfold Engine.logged
    dsimp only
    rw [R.foldWith_submitted]
    by_cases hki : e.store.shardFor k = i
    · rw [hki, Function.update_self, hr]
    · -- another shard: the record does not touch `k`, nor what is in flight there
      have hne : k ≠ r.key := by rintro rfl; exact hki hroute
      rw [Function.update_of_ne hki]
      have hr_k := applyWith_of_ne (f := R.effect) (foldWith R.effect e.log.records) hne
      cases hx : e.inflight (e.store.shardFor k) with
      | none => exact hr_k
      | some x => exact applyWith_congr x hr_k
  rw [hlogged, he']
  exact h k

theorem Engine.Follows.drainTake (h : e.Follows R) (hstep : e.drainTake = some e') :
    e'.Follows R := by
  obtain ⟨q, d, rfl, hpend⟩ := drainTake_eq hstep
  intro k
  rw [hpend]
  exact h k

/-- The DELETE of the drainer: its key is absent from memory, and a record in flight for
    that key leaves it absent. -/
theorem Engine.Follows.logEvict (h : e.Follows R) (hf : e.Flow) {nowMs : UInt64}
    (hstep : e.logEvict nowMs = some e') : e'.Follows R := by
  obtain ⟨ev, t, hpend, he'⟩ := hf.logEvict_eq hstep
  intro k
  have hlogged : e'.logged R.effect k = match e.inflight (e.store.shardFor k) with
      | none => applyWith R.effect (foldWith R.effect e.log.records)
          (Engine.record .delete ev [] 0) k
      | some r => applyWith R.effect (applyWith R.effect (foldWith R.effect e.log.records)
          (Engine.record .delete ev [] 0)) r k := by
    rw [he', Engine.logged]
    dsimp only
    rw [R.foldWith_submitted]
  have hcont : e'.store.contents k = e.store.contents k := by rw [he']
  rw [hlogged, hcont]
  by_cases hkey : k = ev
  · subst hkey
    have hpk : k ∈ e.pendingKeys := (hpend k).mpr (Or.inl rfl)
    have hdel : applyWith R.effect (foldWith R.effect e.log.records)
        (Engine.record .delete k [] 0) k = none :=
      (applyWith_self R.effect _ (Engine.record .delete k [] 0)).trans (R.effect_delete _ rfl)
    have hk := h k
    rw [eq_true hpk] at hk
    rw [R.absent hk]
    cases hx : e.inflight (e.store.shardFor k) with
    | none =>
      dsimp only
      rw [hdel]
      exact R.none_none _
    | some r =>
      obtain ⟨-, -, hset⟩ := hf.inflight hx
      have hgone : applyWith R.effect (applyWith R.effect (foldWith R.effect e.log.records)
          (Engine.record .delete k [] 0)) r k = none := by
        by_cases hrk : k = r.key
        · subst hrk
          rw [applyWith_self, hdel]
          exact R.effect_none fun ht => hset ht hpk
        · rw [applyWith_of_ne _ hrk, hdel]
      dsimp only
      rw [hgone]
      exact R.none_none _
  · have hsame := applyWith_of_ne (f := R.effect) (r := Engine.record .delete ev [] 0)
      (foldWith R.effect e.log.records) hkey
    have hiff : k ∈ e'.pendingKeys ↔ k ∈ e.pendingKeys :=
      ⟨fun hc => (hpend k).mpr (Or.inr hc), fun hc => ((hpend k).mp hc).resolve_left hkey⟩
    rw [hiff]
    have hk := h k
    unfold Engine.logged at hk
    cases hx : e.inflight (e.store.shardFor k) with
    | none =>
      rw [hx] at hk
      dsimp only
      rw [hsame]
      exact hk
    | some r =>
      rw [hx] at hk
      dsimp only
      rw [applyWith_congr r hsame]
      exact hk

/-- With nothing in flight the log alone is what is described. -/
theorem logged_of_idle (h : ∀ i, e.inflight i = none) (f : RecordEffect) :
    e.logged f = foldWith f e.log.records := by
  funext k
  rw [Engine.logged, h]

end KvStore
