import KvStore.Store.ShardRun
import KvStore.Store.StoreInv

/-!
# What a store operation does to the shards

Every operation of the store changes its shards one at a time, under the lock of the shard: by a
write of `Set`, or by one of the steps of `Shard.Upkeep`. A property of shards that these keep is
kept by the store.

* `Store.act_all`: one operation.
* `Store.Valid.run`: the invariant of the shards in every state that is reached from `New`.
-/

namespace KvStore

open KvStore.Common

/-! ## The operations -/

/-- The operations of a store, and the draws its generators make. The read pass of `Get`, `Exists`
    and `TTL` is `read`. -/
inductive StoreAction
  | read (key : Bytes) (now mono : UInt64)
  | reap (key : Bytes) (now : UInt64)
  | set (key value : Bytes) (expireAt mono : UInt64)
  | delete (key : Bytes) (now : UInt64)
  | expire (key : Bytes) (expireAt now : UInt64)
  | sweep (i : ℕ) (now : UInt64) (sample : ℕ)
  | purge (now : UInt64)
  | runOnce (now : UInt64)
  | evictToLimit (i : ℕ)
  | flush (i : ℕ)
  | draws (i : ℕ) (rng : Draws)

/-- The store after an operation. -/
def Store.act (s : Store) : StoreAction → Store
  | .read key now mono => (s.getRead key now mono).2
  | .reap key now => s.reap key now
  | .set key value expireAt mono => (s.set key value expireAt mono).2
  | .delete key now => (s.delete key now).2
  | .expire key expireAt now => (s.expire key expireAt now).2
  | .sweep i now sample => (s.sweep i now sample).2
  | .purge now => (s.purgeExpired now).2
  | .runOnce now => (s.runOnce now).2
  | .evictToLimit i => (s.evictToLimit i).2
  | .flush i => (s.withShard i fun sh => ((), sh.flushLocked)).2
  | .draws i rng => s.put i { s.shards i with rng := rng }

/-- Every operation is possible at any time. -/
def Store.step (s : Store) (a : StoreAction) : Option Store := some (s.act a)

/-- An entry cost fits `size`. -/
def StoreAction.Small : StoreAction → Prop
  | .set key value _ _ => entryCost key.length value.length < 2 ^ 32
  | _ => True

/-- The number of entries of a shard fits `slot`. -/
def StoreAction.Counted (s : Store) : StoreAction → Prop
  | .set key value expireAt mono =>
    ((s.shards (s.shardFor key)).setLocked key value expireAt mono).2.entries.keys.length < 2 ^ 31
  | _ => True

instance StoreAction.decidableCounted (s : Store) (a : StoreAction) : Decidable (a.Counted s) :=
  match a with
  | .set .. => inferInstanceAs (Decidable (_ < _))
  | .read .. | .reap .. | .delete .. | .expire .. | .sweep .. | .purge .. | .runOnce ..
  | .evictToLimit .. | .flush .. | .draws .. => inferInstanceAs (Decidable True)

/-- An entry cost fits `size`, and the number of entries of a shard fits `slot`. -/
def StoreAction.Fits (s : Store) : StoreAction → Prop
  | .set key value expireAt mono => entryCost key.length value.length < 2 ^ 32 ∧
      ((s.shards (s.shardFor key)).setLocked key value expireAt mono).2.entries.keys.length < 2 ^ 31
  | _ => True

/-! ## One operation -/

/-- What an operation other than `Set` does to a shard. -/
inductive Shard.Upkeep (sh : Shard) : Shard → Prop
  | read (key : Bytes) (now mono : UInt64) : sh.Upkeep (sh.getLocked key now mono).2.2
  | removesExpired {sh' : Shard} (now : UInt64) (h : RemovesExpired now sh sh') : sh.Upkeep sh'
  | delete (key : Bytes) (now : UInt64) : sh.Upkeep (sh.txnDelete key now).2
  | expire (key : Bytes) (expireAt now : UInt64) : sh.Upkeep (sh.txnExpire key expireAt now).2
  | evictToLimit : sh.Upkeep sh.evictToLimit.2
  | flush : sh.Upkeep sh.flushLocked
  | draws (rng : Draws) : sh.Upkeep { sh with rng := rng }

/-- Shard `i` of `s` satisfies `P i`, and the keys are routed as in `r`. -/
structure Store.All (s : Store) (P : ℕ → Shard → Prop) (r : Store) : Prop where
  count : s.shardCount = r.shardCount
  routes : s.shardFor = r.shardFor
  shard : ∀ i, P i (s.shards i)

section

variable {P : ℕ → Shard → Prop} {r s : Store} {sh : Shard}

theorem Store.All.put (h : s.All P r) {i : ℕ} (hsh : P i sh) : (s.put i sh).All P r := by
  refine ⟨h.count, h.routes, fun j => ?_⟩
  rw [shards_put]
  split_ifs with hj
  · rw [hj]
    exact hsh
  · exact h.shard j

theorem Store.All.of_wheel (h : s.All P r) (w : Option Wheel) : Store.All { s with wheel := w } P r :=
  ⟨h.count, h.routes, h.shard⟩

theorem Store.All.fireTTL (h : s.All P r) (key : Bytes) (expireAt : UInt64) :
    (s.fireTTL key expireAt).All P r := by
  obtain ⟨w, hw⟩ := fireTTL_eq s key expireAt
  rw [hw]
  exact h.of_wheel w

variable (hup : ∀ i sh sh', P i sh → Shard.Upkeep sh sh' → P i sh')

include hup

theorem Store.All.purgeShard (nowMs : UInt64) (i fuel : ℕ) (h : s.All P r) :
    (Store.purgeShard nowMs i fuel s).2.All P r := by
  induction fuel generalizing s with
  | zero => exact h
  | succ fuel ih =>
    have hstep : (s.purgeStep i nowMs).2.All P r :=
      h.put (hup _ _ _ (h.shard i) (.removesExpired nowMs (purgeLoop_removesExpired nowMs 1024 _ _ 0)))
    rw [Store.purgeShard]
    dsimp only
    split_ifs
    · exact hstep
    · exact ih hstep

theorem Store.All.purgeLoop (nowMs : UInt64) (l : List ℕ) (h : s.All P r) :
    (Store.purgeLoop nowMs l s).2.All P r := by
  induction l generalizing s with
  | nil => exact h
  | cons i l ih =>
    rw [Store.purgeLoop]
    exact ih (h.purgeShard hup nowMs i ((s.shards i).ttlSlots.items.length + 1))

theorem Store.All.fireTimers (nowMs : UInt64) (due : List WheelTimer) (h : s.All P r) :
    (Store.fireTimers nowMs due s).2.All P r := by
  induction due generalizing s with
  | nil => exact h
  | cons t due ih =>
    exact ih (h.put (hup _ _ _ (h.shard _)
      (.removesExpired nowMs (wheelRemove_removesExpired _ t.key t.expireAt nowMs))))

/-- An operation keeps what the steps of `Shard.Upkeep` keep, and the write of a `Set`. -/
theorem Store.act_all (h : ∀ i, P i (s.shards i)) (a : StoreAction)
    (hset : ∀ key value expireAt mono, a = .set key value expireAt mono →
      P (s.shardFor key) ((s.shards (s.shardFor key)).setLocked key value expireAt mono).2) :
    (s.act a).All P s := by
  have hall : s.All P s := ⟨rfl, rfl, h⟩
  cases a with
  | read key now mono => exact hall.put (hup _ _ _ (h _) (.read key now mono))
  | reap key now =>
    exact hall.put (hup _ _ _ (h _) (.removesExpired now (reapLocked_removesExpired _ key now)))
  | set key value expireAt mono =>
    have hput := hall.put (hset key value expireAt mono rfl)
    show (s.set key value expireAt mono).2.All P s
    rw [set_eq]
    dsimp only
    split_ifs
    · exact hput.fireTTL key expireAt
    · exact hput
  | delete key now => exact hall.put (hup _ _ _ (h _) (.delete key now))
  | expire key expireAt now =>
    have hput := hall.put (hup _ _ _ (h (s.shardFor key)) (.expire key expireAt now))
    show (s.expire key expireAt now).2.All P s
    rw [expire_eq]
    dsimp only
    split_ifs
    · exact hput.fireTTL key expireAt
    · exact hput
  | sweep i now sample =>
    exact hall.put (hup _ _ _ (h i) (.removesExpired now (sweepLocked_removesExpired _ now sample)))
  | purge now => exact hall.purgeLoop hup now _
  | runOnce now =>
    show (s.runOnce now).2.All P s
    unfold Store.runOnce
    split
    · exact hall
    · exact (hall.of_wheel _).fireTimers hup now _
  | evictToLimit i => exact hall.put (hup _ _ _ (h i) .evictToLimit)
  | flush i => exact hall.put (hup _ _ _ (h i) .flush)
  | draws i rng => exact hall.put (hup _ _ _ (h i) (.draws rng))

end

/-! ## The stores that are reached -/

/-- An operation, or a change of the memory limit. -/
inductive StoreCall
  | op (a : StoreAction)
  | setMemoryLimit (maxMemory lowWater : ℤ)

/-- The store after a call. -/
def Store.call (s : Store) : StoreCall → Store
  | .op a => s.act a
  | .setMemoryLimit maxMemory lowWater => s.setMemoryLimit maxMemory lowWater

/-- Every call is possible at any time. -/
def Store.callStep (s : Store) (c : StoreCall) : Option Store := some (s.call c)

/-- The bound of `StoreAction.Counted`. -/
def StoreCall.Counted (s : Store) : StoreCall → Prop
  | .op a => a.Counted s
  | .setMemoryLimit .. => True

instance StoreCall.decidableCounted (s : Store) (c : StoreCall) : Decidable (c.Counted s) :=
  match c with
  | .op a => inferInstanceAs (Decidable (a.Counted s))
  | .setMemoryLimit .. => inferInstanceAs (Decidable True)

/-- The bounds of `StoreAction.Fits`. -/
def StoreCall.Fits (s : Store) : StoreCall → Prop
  | .op a => a.Fits s
  | .setMemoryLimit .. => True

/-- The bound of `StoreAction.Small`. -/
def StoreCall.Small : StoreCall → Prop
  | .op a => a.Small
  | .setMemoryLimit .. => True

/-- The index and the list of every shard are right, and it has only keys that are routed to it. -/
structure Store.Linked (s : Store) : Prop where
  linked : ∀ i, LinkedInv (s.shards i)
  routed : ∀ {i k d}, (s.shards i).contents k = some d → s.shardFor k = i
  inRange : ∀ k, s.shardFor k < s.shardCount

/-- Every shard satisfies the invariant, and has only keys that are routed to it. -/
structure Store.Valid (s : Store) : Prop extends Store.Linked s where
  inv : ∀ i, ShardInv (s.shards i)

section

variable {I : Shard → Prop} {fits : Bytes → Bytes → Prop} {sh sh' : Shard}
  (hI : Maintained I fits)

include hI

theorem Maintained.txnDelete (h : I sh) (key : Bytes) (now : UInt64) :
    I (sh.txnDelete key now).2 := by
  have hdel := hI.delLocked h key
  unfold Shard.txnDelete
  split
  · rename_i e he
    split_ifs
    · exact hI.remove h ((hI.index h).mem_of_lookup he)
    · exact hdel
  · exact hdel

theorem Maintained.txnExpire (h : I sh) (key : Bytes) (expireAt now : UInt64) :
    I (sh.txnExpire key expireAt now).2 := by
  have hexpire := hI.expireLocked h key expireAt
  unfold Shard.txnExpire
  split
  · split_ifs
    · exact hI.removesExpired h (reapLocked_removesExpired sh key now)
    · exact hexpire
  · exact hexpire

theorem Maintained.upkeep (h : I sh) (hup : sh.Upkeep sh') : I sh' := by
  cases hup with
  | read key now mono => exact hI.getLocked h key now mono
  | removesExpired now hr => exact hI.removesExpired h hr
  | delete key now => exact hI.txnDelete h key now
  | expire key expireAt now => exact hI.txnExpire h key expireAt now
  | evictToLimit =>
    unfold Shard.evictToLimit
    split_ifs
    · exact h
    · exact hI.evictLocked h sh.lowWater []
  | flush => exact hI.flushLocked sh
  | draws rng => exact hI.of_rng h rng

end

theorem Removed.contents {reason : EvictReason} {sh sh' : Shard} {ks : List Bytes}
    (h : Removed reason sh sh' ks) (k : Bytes) :
    sh'.contents k = if k ∈ ks then none else sh.contents k := by
  rw [Shard.contents, Shard.contents, h.lookup, h.heap]
  split_ifs <;> rfl

theorem deleteAll_eq_some {m : Keyspace Bytes Bytes} {ks : List Bytes} {k : Bytes}
    {d : Bytes × UInt64} (h : m.deleteAll ks k = some d) : m k = some d := by
  unfold Keyspace.deleteAll at h
  split_ifs at h
  exact h

theorem delete_eq_some {m : Keyspace Bytes Bytes} {key k : Bytes} {d : Bytes × UInt64}
    (h : m.delete key k = some d) : m k = some d := by
  unfold Keyspace.delete at h
  by_cases hk : k = key
  · rw [hk, Function.update_self] at h
    cases h
  · rwa [Function.update_of_ne hk] at h

theorem expire_eq_some {m : Keyspace Bytes Bytes} {key k v : Bytes} {x expireAt : UInt64}
    (h : m.expire key expireAt k = some (v, x)) : ∃ x', m k = some (v, x') := by
  unfold Keyspace.expire at h
  by_cases hk : k = key
  · rw [hk, Function.update_self] at h
    obtain ⟨⟨v', x'⟩, hm, hpair⟩ := Option.map_eq_some_iff.mp h
    cases hpair
    exact ⟨x', hk ▸ hm⟩
  · rw [Function.update_of_ne hk] at h
    exact ⟨x, h⟩

/-- No operation but a `Set` brings in a key. -/
theorem Shard.Upkeep.contents {sh sh' : Shard} (hup : sh.Upkeep sh') (h : KeyInv sh) {k : Bytes}
    {d : Bytes × UInt64} (hk : sh'.contents k = some d) : ∃ d', sh.contents k = some d' := by
  have hremoved : ∀ {reason ks}, Removed reason sh sh' ks → ∃ d', sh.contents k = some d' := by
    intro reason ks hr
    rw [hr.contents] at hk
    split_ifs at hk
    exact ⟨d, hk⟩
  cases hup with
  | read key now mono => exact ⟨d, by rwa [(getLocked_effect h key now mono).1.contents] at hk⟩
  | removesExpired now hr =>
    obtain ⟨ks, hks, -⟩ := hr
    exact hremoved hks
  | delete key now =>
    rw [(txnDelete_effect h key now).2.contents] at hk
    exact ⟨d, delete_eq_some hk⟩
  | expire key expireAt now =>
    rw [(txnExpire_effect h key expireAt now).2.contents] at hk
    split_ifs at hk
    · exact ⟨d, delete_eq_some hk⟩
    · obtain ⟨x, hx⟩ := expire_eq_some hk
      exact ⟨_, hx⟩
  | evictToLimit =>
    unfold Shard.evictToLimit at hk hremoved
    split_ifs at hk hremoved
    · exact ⟨d, hk⟩
    · obtain ⟨ks, hks, -⟩ := evictLocked_evicts sh sh.lowWater []
      exact hremoved hks
  | flush => cases hk
  | draws rng => exact ⟨d, hk⟩

/-- A `Set` brings in its own key only. -/
theorem setLocked_contents {sh : Shard} (h : KeyInv sh) {key value k : Bytes}
    {expireAt mono : UInt64} {d : Bytes × UInt64} (hne : k ≠ key)
    (hk : (sh.setLocked key value expireAt mono).2.contents k = some d) :
    sh.contents k = some d := by
  obtain ⟨ks, -, -, heff⟩ := setLocked_effect h key value expireAt mono
  rw [heff.contents] at hk
  split_ifs at hk
  · rw [Keyspace.set, Function.update_of_ne hne] at hk
    exact deleteAll_eq_some hk
  · exact deleteAll_eq_some hk

theorem setMemoryLimit_shard (s : Store) (maxMemory lowWater : ℤ) (i : ℕ) :
    ∃ budget low, (s.setMemoryLimit maxMemory lowWater).shards i =
      { s.shards i with budget := budget, lowWater := low } := by
  unfold Store.setMemoryLimit
  dsimp only
  split_ifs
  · exact ⟨_, _, rfl⟩
  · exact ⟨_, _, rfl⟩

/-- A call keeps in every shard what the operations of a shard keep. -/
theorem Maintained.call {I : Shard → Prop} {fits : Bytes → Bytes → Prop} (hI : Maintained I fits)
    {s : Store} (h : ∀ i, I (s.shards i)) (c : StoreCall) (hc : c.Counted s)
    (hfits : ∀ key value expireAt mono, c = .op (.set key value expireAt mono) → fits key value)
    (i : ℕ) : I ((s.call c).shards i) := by
  cases c with
  | op a =>
    refine (Store.act_all (P := fun _ => I) (fun _ _ _ hsh hup => hI.upkeep hsh hup) h a ?_).shard i
    rintro key value expireAt mono rfl
    exact hI.setLocked (h _) key value expireAt mono (hfits key value expireAt mono rfl) hc
  | setMemoryLimit maxMemory lowWater =>
    obtain ⟨budget, low, heq⟩ := setMemoryLimit_shard s maxMemory lowWater i
    show I ((s.setMemoryLimit maxMemory lowWater).shards i)
    rw [heq]
    exact hI.of_limits (h i) budget low

theorem Store.Linked.call {s : Store} (h : s.Linked) (c : StoreCall) (hc : c.Counted s) :
    (s.call c).Linked := by
  have hlinked := LinkedInv.maintained.call h.linked c hc fun _ _ _ _ _ => trivial
  cases c with
  | op a =>
    have hall : (s.act a).All (fun i sh => LinkedInv sh ∧ ∀ k d, sh.contents k = some d →
        s.shardFor k = i) s := by
      refine Store.act_all (fun i sh sh' hsh hup => ?_) (fun i => ⟨h.linked i, fun k d => h.routed⟩)
        a ?_
      · refine ⟨LinkedInv.maintained.upkeep hsh.1 hup, fun k d hk => ?_⟩
        obtain ⟨d', hk'⟩ := hup.contents hsh.1.toKeyInv hk
        exact hsh.2 k d' hk'
      · rintro key value expireAt mono rfl
        refine ⟨LinkedInv.maintained.setLocked (h.linked _) key value expireAt mono trivial hc,
          fun k d hk => ?_⟩
        by_cases hne : k = key
        · rw [hne]
        · exact h.routed (setLocked_contents (h.linked _).toKeyInv hne hk)
    refine ⟨hlinked, fun {i k d} hk => ?_, fun k => ?_⟩
    · show (s.act a).shardFor k = i
      rw [hall.routes]
      exact (hall.shard i).2 k d hk
    · show (s.act a).shardFor k < (s.act a).shardCount
      rw [hall.routes, hall.count]
      exact h.inRange k
  | setMemoryLimit maxMemory lowWater =>
    refine ⟨hlinked, fun {i k d} hk => ?_, h.inRange⟩
    obtain ⟨budget, low, heq⟩ := setMemoryLimit_shard s maxMemory lowWater i
    have hk : ((s.setMemoryLimit maxMemory lowWater).shards i).contents k = some d := hk
    rw [heq] at hk
    exact h.routed hk

theorem StoreCall.Fits.counted {s : Store} {c : StoreCall} (h : c.Fits s) : c.Counted s := by
  cases c with
  | op a =>
    cases a with
    | set key value expireAt mono => exact h.2
    | _ => trivial
  | setMemoryLimit => trivial

theorem Store.Valid.call {s : Store} (h : s.Valid) (c : StoreCall) (hc : c.Fits s) :
    (s.call c).Valid := by
  refine ⟨h.toLinked.call c hc.counted, ShardInv.maintained.call h.inv c hc.counted ?_⟩
  rintro key value expireAt mono rfl
  exact hc.1

theorem newStore_linked (opts : Options) (newSeed : UInt64) (wheel : Option Wheel) :
    Store.Linked { newStore opts newSeed with wheel := wheel } := by
  refine ⟨fun i => (newStore_inv opts newSeed i).toLinkedInv, fun {i k d} hk => ?_,
    newStore_shardFor_lt opts newSeed⟩
  have hk : ((newStore opts newSeed).shards i).contents k = some d := hk
  rw [Shard.contents, newStore_entries] at hk
  cases hk

theorem newStore_valid (opts : Options) (newSeed : UInt64) (wheel : Option Wheel) :
    Store.Valid { newStore opts newSeed with wheel := wheel } :=
  ⟨newStore_linked opts newSeed wheel, newStore_inv opts newSeed⟩

/-- The index and the list are right in every state that is reached from `New` with fewer than
    `2^31` entries in each shard, with an expirer of any kind. -/
theorem Store.Linked.run {opts : Options} {newSeed : UInt64} {wheel : Option Wheel} {s : Store}
    (h : Run Store.callStep (fun s c => c.Counted s) { newStore opts newSeed with wheel := wheel } s) :
    s.Linked := by
  refine h.invariant (fun s c t hs hc ht => ?_) (newStore_linked opts newSeed wheel)
  cases ht
  exact hs.call c hc

/-- The invariant holds in every state that is reached from `New`, with an expirer of any kind. -/
theorem Store.Valid.run {opts : Options} {newSeed : UInt64} {wheel : Option Wheel} {s : Store}
    (h : Run Store.callStep (fun s c => c.Fits s) { newStore opts newSeed with wheel := wheel } s) :
    s.Valid := by
  refine h.invariant (fun s c t hs hc ht => ?_) (newStore_valid opts newSeed wheel)
  cases ht
  exact hs.call c hc

end KvStore
