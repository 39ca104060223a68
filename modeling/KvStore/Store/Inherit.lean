import KvStore.Store.Budget

/-!
# Where the value of a key comes from

No operation but a `Set` of the key gives it another value: evictions, expiry, deletions and
flushes remove it, and `Expire` moves its deadline. This needs the key part of the invariant only,
so that it holds with a memory limit, and however many entries there are.

* `Store.Sound.act`: one operation.
* `value_inherited`: a run.
-/

namespace KvStore

open KvStore.Common

/-- The key part of the invariant, in every shard. -/
def Store.Sound (s : Store) : Prop := ∀ i, KeyInv (s.shards i)

/-- `s'` follows from `s`: every key that satisfies `P` has, if any, the value it had. -/
structure Store.Inherits (P : Bytes → Prop) (s s' : Store) : Prop where
  sound : s'.Sound
  routes : ∀ key, s'.shardFor key = s.shardFor key
  values : ∀ i k v x, P k → (s'.shards i).contents k = some (v, x) →
    ∃ x', (s.shards i).contents k = some (v, x')

/-- The key that an operation may give a new value. -/
def StoreAction.sets : StoreAction → Option Bytes
  | .set key _ _ _ => some key
  | _ => none

variable {s s' s'' : Store} {sh : Shard} {P : Bytes → Prop} {i : ℕ} {key value : Bytes}

theorem Store.Sound.inherits_refl (h : s.Sound) (P : Bytes → Prop) : s.Inherits P s :=
  ⟨h, fun _ => rfl, fun _ _ _ x _ hk => ⟨x, hk⟩⟩

theorem Store.Inherits.trans (h : s.Inherits P s') (h' : s'.Inherits P s'') : s.Inherits P s'' := by
  refine ⟨h'.sound, fun k => (h'.routes k).trans (h.routes k), fun i k v x hP hk => ?_⟩
  obtain ⟨x', hx'⟩ := h'.values i k v x hP hk
  exact h.values i k v x' hP hx'

/-- An operation of one shard. -/
theorem Store.Sound.put (h : s.Sound) {ev : List (Bytes × EvictReason)} {m : Keyspace Bytes Bytes}
    (heff : Effect (s.shards i) sh ev m)
    (hm : ∀ k v x, P k → m k = some (v, x) → ∃ x', (s.shards i).contents k = some (v, x')) :
    s.Inherits P (s.put i sh) := by
  refine ⟨fun j => ?_, fun _ => rfl, fun j k v x hP hk => ?_⟩
  · rw [shards_put]
    split_ifs
    · exact heff.keyInv
    · exact h j
  · rw [shards_put] at hk
    split_ifs at hk with hj
    · subst hj
      rw [heff.contents] at hk
      exact hm k v x hP hk
    · exact ⟨x, hk⟩

theorem Store.Inherits.of_wheel (h : s.Inherits P s') (w : Option Wheel) :
    s.Inherits P { s' with wheel := w } := ⟨h.sound, h.routes, h.values⟩

theorem Store.Inherits.fireTTL (h : s.Inherits P s') (key : Bytes) (expireAt : UInt64) :
    s.Inherits P (s'.fireTTL key expireAt) := by
  obtain ⟨w, hw⟩ := fireTTL_eq s' key expireAt
  rw [hw]
  exact h.of_wheel w

namespace Store.Sound

/-- What the store removes by itself. -/
theorem removed (h : s.Sound) {reason : EvictReason} {ks : List Bytes}
    (hr : Removed reason (s.shards i) sh ks) : s.Inherits P (s.put i sh) :=
  h.put (hr.effect (h i)) fun _ _ x _ hk => ⟨x, deleteAll_eq_some hk⟩

theorem removesExpired (h : s.Sound) {nowMs : UInt64}
    (hr : RemovesExpired nowMs (s.shards i) sh) : s.Inherits P (s.put i sh) := by
  obtain ⟨ks, hks, -⟩ := hr
  exact h.removed hks

theorem purgeShard (nowMs : UInt64) (i fuel : ℕ) (h : s.Sound) :
    s.Inherits P (Store.purgeShard nowMs i fuel s).2 := by
  induction fuel generalizing s with
  | zero => exact h.inherits_refl P
  | succ fuel ih =>
    have hstep : s.Inherits P (s.purgeStep i nowMs).2 :=
      h.removesExpired (purgeLoop_removesExpired nowMs 1024 _ _ 0)
    rw [Store.purgeShard]
    dsimp only
    split_ifs
    · exact hstep
    · exact hstep.trans (ih hstep.sound)

theorem purgeLoop (nowMs : UInt64) (l : List ℕ) (h : s.Sound) :
    s.Inherits P (Store.purgeLoop nowMs l s).2 := by
  induction l generalizing s with
  | nil => exact h.inherits_refl P
  | cons i l ih =>
    have hstep : s.Inherits P _ :=
      h.purgeShard nowMs i ((s.shards i).ttlSlots.items.length + 1)
    rw [Store.purgeLoop]
    exact hstep.trans (ih hstep.sound)

theorem fireTimers (nowMs : UInt64) (due : List WheelTimer) (h : s.Sound) :
    s.Inherits P (Store.fireTimers nowMs due s).2 := by
  induction due generalizing s with
  | nil => exact h.inherits_refl P
  | cons t due ih =>
    have hstep : s.Inherits P (s.put (s.shardFor t.key)
        ((s.shards (s.shardFor t.key)).wheelRemove t.key t.expireAt nowMs).2) :=
      h.removesExpired (wheelRemove_removesExpired _ t.key t.expireAt nowMs)
    rw [Store.fireTimers]
    exact hstep.trans (ih hstep.sound)

theorem set (h : s.Sound) (key value : Bytes) (expireAt mono : UInt64) :
    s.Inherits (· ≠ key) (s.set key value expireAt mono).2 := by
  obtain ⟨ks, -, -, heff⟩ := setLocked_effect (h (s.shardFor key)) key value expireAt mono
  have hput : s.Inherits (· ≠ key) (s.put (s.shardFor key)
      ((s.shards (s.shardFor key)).setLocked key value expireAt mono).2) := by
    refine h.put heff fun k v x hk hm => ?_
    split_ifs at hm
    · rw [Keyspace.set, Function.update_of_ne hk] at hm
      exact ⟨x, deleteAll_eq_some hm⟩
    · exact ⟨x, deleteAll_eq_some hm⟩
  rw [set_eq]
  dsimp only
  split_ifs
  · exact hput.fireTTL key expireAt
  · exact hput

/-- After a `Set` that succeeds the key has the value. -/
theorem contents_of_set (h : s.Sound) {expireAt mono : UInt64}
    (hset : s.set key value expireAt mono = (true, s')) :
    (s'.shards (s'.shardFor key)).contents key = some (value, expireAt) := by
  obtain ⟨ks, -, -, heff⟩ := setLocked_effect (h (s.shardFor key)) key value expireAt mono
  rw [set_eq] at hset
  have hok : ((s.shards (s.shardFor key)).setLocked key value expireAt mono).1 = true :=
    congrArg Prod.fst hset
  rw [if_pos hok] at heff hset
  obtain ⟨w, hw⟩ := fireTTL_eq (s.put (s.shardFor key)
    ((s.shards (s.shardFor key)).setLocked key value expireAt mono).2) key expireAt
  have hs' : _ = s' := congrArg Prod.snd hset
  rw [← hs', hw]
  show (((s.put _ _).shards (s.shardFor key)).contents key) = _
  rw [shards_put, if_pos rfl, heff.contents, Keyspace.set, Function.update_self]

/-- What a `Get` finds. -/
theorem getRead (h : s.Sound) (key : Bytes) (nowMs nowMono : UInt64) :
    (s.getRead key nowMs nowMono).1.1 =
      (liveAt nowMs ((s.shards (s.shardFor key)).contents key)).map Prod.fst := by
  obtain ⟨-, hget, -⟩ := getLocked_effect (h (s.shardFor key)) key nowMs nowMono
  rw [← hget, Option.map_map]
  rfl

theorem expire (h : s.Sound) (key : Bytes) (expireAt now : UInt64) :
    s.Inherits P (s.expire key expireAt now).2 := by
  obtain ⟨-, heff⟩ := txnExpire_effect (h (s.shardFor key)) key expireAt now
  have hput : s.Inherits P (s.put (s.shardFor key)
      ((s.shards (s.shardFor key)).txnExpire key expireAt now).2) := by
    refine h.put heff fun k v x _ hm => ?_
    split_ifs at hm
    · exact ⟨x, delete_eq_some hm⟩
    · exact expire_eq_some hm
  rw [expire_eq]
  dsimp only
  split_ifs
  · exact hput.fireTTL key expireAt
  · exact hput

/-- One operation gives no key a new value, except the key that it sets. -/
theorem act (h : s.Sound) (a : StoreAction) : s.Inherits (fun k => a.sets ≠ some k) (s.act a) := by
  cases a with
  | read key now mono =>
    exact h.put (getLocked_effect (h _) key now mono).1 fun _ _ x _ hk => ⟨x, hk⟩
  | reap key now => exact h.removesExpired (reapLocked_removesExpired _ key now)
  | set key value expireAt mono =>
    obtain ⟨hsound, hroutes, hvalues⟩ := h.set key value expireAt mono
    refine ⟨hsound, hroutes, fun i k v x hk => hvalues i k v x ?_⟩
    rintro rfl
    exact hk rfl
  | delete key now =>
    exact h.put (txnDelete_effect (h _) key now).2 fun _ _ x _ hk => ⟨x, delete_eq_some hk⟩
  | expire key expireAt now => exact h.expire key expireAt now
  | sweep i now sample => exact h.removesExpired (sweepLocked_removesExpired _ now sample)
  | purge now => exact h.purgeLoop now _
  | runOnce now =>
    show s.Inherits _ (s.runOnce now).2
    unfold Store.runOnce
    split
    · exact h.inherits_refl _
    · rename_i w _
      have hwheel : ({ s with wheel := some (w.advance now).2 } : Store).Sound := h
      obtain ⟨hsound, hroutes, hvalues⟩ := hwheel.fireTimers now (w.advance now).1
      exact ⟨hsound, hroutes, hvalues⟩
  | evictToLimit i =>
    show s.Inherits _ (s.put i (s.shards i).evictToLimit.2)
    unfold Shard.evictToLimit
    split_ifs
    · exact h.put (.refl (h i)) fun _ _ x _ hk => ⟨x, hk⟩
    · obtain ⟨ks, hks, -⟩ := evictLocked_evicts (s.shards i) (s.shards i).lowWater []
      exact h.removed hks
  | flush i =>
    have hempty : Effect (s.shards i) (s.shards i).flushLocked [] fun _ => none :=
      ⟨⟨nofun, nofun⟩, rfl, (List.append_nil _).symm, rfl⟩
    exact h.put hempty nofun
  | draws i rng => exact h.removed (.of_rng .evicted (s.shards i) rng)

end Store.Sound

theorem newStore_sound (opts : Options) (newSeed : UInt64) (wheel : Option Wheel) :
    Store.Sound { newStore opts newSeed with wheel := wheel } :=
  fun i => (newStore_inv opts newSeed i).toKeyInv

theorem Store.Sound.run (h : s.Sound) {ok : Store → StoreAction → Prop}
    (hrun : Run Store.step ok s s') : s'.Sound :=
  hrun.invariant (fun _ a _ hs _ hstep => by cases hstep; exact (hs.act a).sound) h

/-- In a run without a `Set` of the key, the key has the value it had, if any. -/
theorem value_inherited (h : s.Sound)
    (hrun : Run Store.step (fun _ a => a.sets ≠ some key) s s') : s.Inherits (· = key) s' := by
  refine hrun.invariant (fun t a t' ht ha hstep => ?_) (h.inherits_refl _)
  cases hstep
  obtain ⟨hsound, hroutes, hvalues⟩ := ht.sound.act a
  refine ht.trans ⟨hsound, hroutes, fun i k v x hk => hvalues i k v x ?_⟩
  rwa [hk]

end KvStore
