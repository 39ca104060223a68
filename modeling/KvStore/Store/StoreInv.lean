import KvStore.Store.Store

/-!
# What the operations of an unlimited store do to its contents

`Store.contents` puts the contents of all shards together along `shardFor`. A store
is `Plain` when every shard has a correct index and no memory limit, and no key sits
in a shard it is not routed to. Every operation keeps that, and acts on the contents
as the corresponding change of a keyspace; what the store removes by itself is
invisible at the clock reading it was removed at (`Store.Reaps`).
-/

namespace KvStore

open KvStore.Common

/-- The value and the deadline stored under each key. -/
def Store.contents (s : Store) : Keyspace Bytes Bytes :=
  fun k => (s.shards (s.shardFor k)).contents k

/-- The maps of all shards carry their keys, and there is no memory limit. This is all that
    the contents need; the slot arrays may be out of step. -/
structure Store.Keyed (s : Store) : Prop where
  key : ∀ i, KeyInv (s.shards i)
  unlimited : ∀ i, (s.shards i).budget ≤ 0

/-- Indexed shards without a memory limit, and keys where `shardFor` looks for them. -/
structure Store.Plain (s : Store) : Prop where
  index : ∀ i, IndexInv (s.shards i)
  unlimited : ∀ i, (s.shards i).budget ≤ 0
  routed : ∀ i k, ((s.shards i).contents k).isSome → s.shardFor k = i
  inRange : ∀ k, s.shardFor k < s.shardCount

/-- Replace shard `i`. -/
def Store.put (s : Store) (i : ℕ) (sh : Shard) : Store :=
  { s with shards := Function.update s.shards i sh }

variable {s : Store} {sh sh' : Shard} {i : ℕ} {key : Bytes}

@[simp] theorem withShard_snd {α : Type} (s : Store) (i : ℕ) (fn : Shard → α × Shard) :
    (s.withShard i fn).2 = s.put i (fn (s.shards i)).2 := rfl

@[simp] theorem withShard_fst {α : Type} (s : Store) (i : ℕ) (fn : Shard → α × Shard) :
    (s.withShard i fn).1 = (fn (s.shards i)).1 := rfl

@[simp] theorem shards_put_self (s : Store) (i : ℕ) (sh : Shard) : (s.put i sh).shards i = sh := by
  simp [Store.put]

theorem shards_put_of_ne (s : Store) {i j : ℕ} (h : j ≠ i) (sh : Shard) :
    (s.put i sh).shards j = s.shards j := by
  simp [Store.put, Function.update_of_ne h]

@[simp] theorem shardFor_put (s : Store) (i : ℕ) (sh : Shard) (k : Bytes) :
    (s.put i sh).shardFor k = s.shardFor k := rfl

theorem contents_put (s : Store) (i : ℕ) (sh : Shard) (k : Bytes) :
    (s.put i sh).contents k = if s.shardFor k = i then sh.contents k else s.contents k := by
  unfold Store.contents
  rw [shardFor_put]
  split_ifs with hk
  · rw [hk, shards_put_self]
  · rw [shards_put_of_ne s hk]

theorem shards_put (s : Store) (i j : ℕ) (sh : Shard) :
    (s.put i sh).shards j = if j = i then sh else s.shards j := by
  split_ifs with hj
  · rw [hj, shards_put_self]
  · rw [shards_put_of_ne s hj]

theorem Effect.budget {ev : List (Bytes × EvictReason)} {m : Keyspace Bytes Bytes}
    (h : Effect sh sh' ev m) : sh'.budget = sh.budget := congrArg (fun c => c.2.1) h.config

theorem Store.Plain.keyed (h : s.Plain) : s.Keyed := ⟨fun i => (h.index i).toKeyInv, h.unlimited⟩

theorem Store.Keyed.put (h : s.Keyed) {ev : List (Bytes × EvictReason)} {m : Keyspace Bytes Bytes}
    (heff : Effect (s.shards i) sh' ev m) : (s.put i sh').Keyed := by
  refine ⟨fun j => ?_, fun j => ?_⟩
  · rw [shards_put]; split_ifs
    · exact heff.keyInv
    · exact h.key j
  · rw [shards_put]; split_ifs
    · rw [heff.budget]; exact h.unlimited i
    · exact h.unlimited j

/-- What a shard holds is what the store holds under the keys routed to it. -/
theorem Store.Plain.contents_shard (h : s.Plain) (i : ℕ) (k : Bytes) :
    (s.shards i).contents k = if s.shardFor k = i then s.contents k else none := by
  split_ifs with hk
  · subst hk; rfl
  · rcases hc : (s.shards i).contents k with _ | d
    · rfl
    · exact absurd (h.routed i k (by rw [hc]; rfl)) hk

theorem Store.Plain.put (h : s.Plain) {ev : List (Bytes × EvictReason)} {m : Keyspace Bytes Bytes}
    (hindex : IndexInv sh') (heff : Effect (s.shards i) sh' ev m)
    (hm : ∀ k, (m k).isSome → s.shardFor k = i) : (s.put i sh').Plain := by
  refine ⟨fun j => ?_, (h.keyed.put heff).unlimited, fun j k hk => ?_, h.inRange⟩
  · rw [shards_put]; split_ifs
    · exact hindex
    · exact h.index j
  · rw [shards_put] at hk
    split_ifs at hk with hj
    · subst hj
      rw [heff.contents] at hk
      exact hm k hk
    · exact h.routed j k hk

/-! ## The index of one shard -/

theorem setLocked_index (h : IndexInv sh) (hb : sh.budget ≤ 0) (key value : Bytes)
    (expireAt nowMono : UInt64)
    (hcount : (sh.setLocked key value expireAt nowMono).2.entries.keys.length < 2 ^ 31) :
    IndexInv (sh.setLocked key value expireAt nowMono).2 := by
  obtain ⟨m, -, hunl, hres⟩ := setLocked_cases sh key value expireAt nowMono
  obtain rfl := hunl hb
  rcases hres with ⟨hpos, -⟩ | ⟨old, hold, hres⟩ | ⟨hnew, hres⟩
  · omega
  · rw [hres]
    exact overwrite_index h (h.mem_of_lookup hold) value expireAt nowMono _ _
  · rw [hres] at hcount ⊢
    refine insert_index h hnew value expireAt nowMono _ ?_
    rw [insert_eq] at hcount
    rw [h.length_slots]
    rwa [length_keys_insert (AList.lookup_eq_none.mp hnew)] at hcount

theorem getLocked_index (h : IndexInv sh) (key : Bytes) (nowMs nowMono : UInt64) :
    IndexInv (sh.getLocked key nowMs nowMono).2.2 := by
  unfold Shard.getLocked
  split
  · exact h
  · rename_i e he
    split_ifs
    · exact h
    · exact h.touch (h.mem_of_lookup he) nowMono

theorem txnDelete_index (h : IndexInv sh) (key : Bytes) (nowMs : UInt64) :
    IndexInv (sh.txnDelete key nowMs).2 := by
  unfold Shard.txnDelete Shard.delLocked
  rcases hk : sh.entries.lookup key with _ | e
  · exact h
  · have hrem := removeEntryLocked_index h (h.mem_of_lookup hk)
    dsimp only
    split_ifs
    · exact hrem
    · exact hrem

theorem txnExpire_index (h : IndexInv sh) (key : Bytes) (expireAt nowMs : UInt64) :
    IndexInv (sh.txnExpire key expireAt nowMs).2 := by
  unfold Shard.txnExpire
  rcases hk : sh.entries.lookup key with _ | e
  · simpa [Shard.expireLocked, hk] using h
  · dsimp only
    split_ifs
    · obtain ⟨_, _, hindex, _⟩ := reapLocked_removesExpired sh key nowMs
      exact (hindex h).1
    · simpa [Shard.expireLocked, hk] using h.setDeadline (h.mem_of_lookup hk) expireAt

/-! ## The effect of the transactions -/

theorem txnDelete_effect (h : KeyInv sh) (key : Bytes) (nowMs : UInt64) :
    (sh.txnDelete key nowMs).1 = (liveAt nowMs (sh.contents key)).isSome ∧
      Effect sh (sh.txnDelete key nowMs).2 [] (sh.contents.delete key) := by
  unfold Shard.txnDelete
  obtain ⟨hres, heff⟩ := delLocked_effect h key
  rcases hk : sh.entries.lookup key with _ | e
  · have hnone := contents_of_lookup_none hk
    rw [hnone] at hres ⊢
    exact ⟨hres, heff⟩
  · have hsome := contents_of_lookup hk
    rw [hsome, liveAt_some]
    rw [hsome] at hres
    dsimp only
    cases hexp : (sh.heap e).expired nowMs with
    | true =>
      have hexp' : expiredAt (sh.heap e).expireAt nowMs = true := hexp
      rw [hexp']
      exact ⟨rfl, removeEntryLocked_effect h hk⟩
    | false =>
      have hexp' : expiredAt (sh.heap e).expireAt nowMs = false := hexp
      rw [hexp']
      exact ⟨hres, heff⟩

/-- `Expire` moves the deadline of a live key and reaps a dead one. -/
theorem txnExpire_effect (h : KeyInv sh) (key : Bytes) (expireAt nowMs : UInt64) :
    (sh.txnExpire key expireAt nowMs).1 = (liveAt nowMs (sh.contents key)).isSome ∧
      Effect sh (sh.txnExpire key expireAt nowMs).2
        (if deadAt nowMs (sh.contents key) = true then [(key, .expired)] else [])
        (if deadAt nowMs (sh.contents key) = true then sh.contents.delete key
          else sh.contents.expire key expireAt) := by
  unfold Shard.txnExpire
  obtain ⟨hres, heff⟩ := expireLocked_effect h key expireAt
  have hreap := reapLocked_effect h key nowMs
  rcases hk : sh.entries.lookup key with _ | e
  · have hnone := contents_of_lookup_none hk
    rw [hnone] at hres ⊢
    exact ⟨hres, heff⟩
  · have hsome := contents_of_lookup hk
    rw [hsome, liveAt_some, deadAt_some]
    rw [hsome, deadAt_some] at hreap
    rw [hsome] at hres
    dsimp only
    cases hexp : (sh.heap e).expired nowMs with
    | true =>
      have hexp' : expiredAt (sh.heap e).expireAt nowMs = true := hexp
      rw [hexp'] at hreap ⊢
      exact ⟨rfl, hreap⟩
    | false =>
      have hexp' : expiredAt (sh.heap e).expireAt nowMs = false := hexp
      rw [hexp']
      exact ⟨hres, heff⟩

/-! ## Operations on one key -/

/-- A change of one key in its own shard is that change of the store. -/
theorem contents_put_update {ev : List (Bytes × EvictReason)} {o : Option (Bytes × UInt64)}
    (heff : Effect (s.shards (s.shardFor key)) sh' ev
      (Function.update (s.shards (s.shardFor key)).contents key o)) :
    (s.put (s.shardFor key) sh').contents = Function.update s.contents key o := by
  funext k
  rw [contents_put, heff.contents]
  by_cases hkey : k = key
  · subst hkey
    rw [if_pos rfl, Function.update_self, Function.update_self]
  · rw [Function.update_of_ne hkey, Function.update_of_ne hkey]
    split_ifs with hk
    · rw [← hk]; rfl
    · rfl

theorem Store.Plain.put_update (h : s.Plain) {ev : List (Bytes × EvictReason)}
    {o : Option (Bytes × UInt64)} (hindex : IndexInv sh')
    (heff : Effect (s.shards (s.shardFor key)) sh' ev
      (Function.update (s.shards (s.shardFor key)).contents key o)) :
    (s.put (s.shardFor key) sh').Plain := by
  refine h.put hindex heff fun k hk => ?_
  by_cases hkey : k = key
  · rw [hkey]
  · rw [Function.update_of_ne hkey] at hk
    exact h.routed _ k hk

theorem Store.Plain.put_same (h : s.Plain) {ev : List (Bytes × EvictReason)}
    (hindex : IndexInv sh') (heff : Effect (s.shards i) sh' ev (s.shards i).contents) :
    (s.put i sh').Plain ∧ (s.put i sh').contents = s.contents := by
  refine ⟨h.put hindex heff fun k hk => h.routed i k hk, ?_⟩
  funext k
  rw [contents_put, heff.contents, h.contents_shard]
  split_ifs <;> rfl

/-- The wheel is no part of the contents. -/
theorem fireTTL_eq (s : Store) (key : Bytes) (expireAt : UInt64) :
    ∃ w, s.fireTTL key expireAt = { s with wheel := w } := by
  unfold Store.fireTTL
  split_ifs
  · exact ⟨s.wheel, rfl⟩
  · split
    · exact ⟨s.wheel, rfl⟩
    · exact ⟨_, rfl⟩

theorem Store.Plain.of_wheel (h : s.Plain) (w : Option Wheel) : { s with wheel := w }.Plain :=
  ⟨h.index, h.unlimited, h.routed, h.inRange⟩

theorem contents_fireTTL (s : Store) (key : Bytes) (expireAt : UInt64) :
    (s.fireTTL key expireAt).contents = s.contents := by
  obtain ⟨w, hw⟩ := fireTTL_eq s key expireAt
  rw [hw]
  rfl

theorem Store.Keyed.fireTTL (h : s.Keyed) (key : Bytes) (expireAt : UInt64) :
    (s.fireTTL key expireAt).Keyed := by
  obtain ⟨w, hw⟩ := fireTTL_eq s key expireAt
  rw [hw]
  exact ⟨h.key, h.unlimited⟩

theorem Store.Plain.fireTTL (h : s.Plain) (key : Bytes) (expireAt : UInt64) :
    (s.fireTTL key expireAt).Plain := by
  obtain ⟨w, hw⟩ := fireTTL_eq s key expireAt
  rw [hw]
  exact h.of_wheel w

theorem set_eq (s : Store) (key value : Bytes) (expireAt nowMono : UInt64) :
    s.set key value expireAt nowMono =
      (((s.shards (s.shardFor key)).setLocked key value expireAt nowMono).1,
        if ((s.shards (s.shardFor key)).setLocked key value expireAt nowMono).1 = true then
          (s.put (s.shardFor key)
            ((s.shards (s.shardFor key)).setLocked key value expireAt nowMono).2).fireTTL key expireAt
        else s.put (s.shardFor key)
          ((s.shards (s.shardFor key)).setLocked key value expireAt nowMono).2) := by
  cases h : ((s.shards (s.shardFor key)).setLocked key value expireAt nowMono).1 <;>
    simp [Store.set, h]

theorem expire_eq (s : Store) (key : Bytes) (expireAt nowMs : UInt64) :
    s.expire key expireAt nowMs =
      (((s.shards (s.shardFor key)).txnExpire key expireAt nowMs).1,
        if ((s.shards (s.shardFor key)).txnExpire key expireAt nowMs).1 = true then
          (s.put (s.shardFor key)
            ((s.shards (s.shardFor key)).txnExpire key expireAt nowMs).2).fireTTL key expireAt
        else s.put (s.shardFor key)
          ((s.shards (s.shardFor key)).txnExpire key expireAt nowMs).2) := by
  cases h : ((s.shards (s.shardFor key)).txnExpire key expireAt nowMs).1 <;>
    simp [Store.expire, h]

theorem Store.Keyed.set (h : s.Keyed) (key value : Bytes) (expireAt nowMono : UInt64) :
    (s.set key value expireAt nowMono).1 = true ∧ (s.set key value expireAt nowMono).2.Keyed ∧
      (s.set key value expireAt nowMono).2.contents = s.contents.set key value expireAt := by
  obtain ⟨hok, heff⟩ := setLocked_effect_unlimited (h.key (s.shardFor key))
    (h.unlimited (s.shardFor key)) key value expireAt nowMono
  rw [set_eq, if_pos hok]
  refine ⟨hok, (h.put heff).fireTTL key expireAt, ?_⟩
  rw [contents_fireTTL]
  exact contents_put_update heff

theorem Store.Keyed.delete (h : s.Keyed) (key : Bytes) (nowMs : UInt64) :
    (s.delete key nowMs).1 = (liveAt nowMs (s.contents key)).isSome ∧
      (s.delete key nowMs).2.Keyed ∧
      (s.delete key nowMs).2.contents = s.contents.delete key := by
  obtain ⟨hres, heff⟩ := txnDelete_effect (h.key (s.shardFor key)) key nowMs
  exact ⟨hres, h.put heff, contents_put_update heff⟩

theorem Store.Keyed.expire (h : s.Keyed) (key : Bytes) (expireAt nowMs : UInt64) :
    (s.expire key expireAt nowMs).1 = (liveAt nowMs (s.contents key)).isSome ∧
      (s.expire key expireAt nowMs).2.Keyed ∧
      (s.expire key expireAt nowMs).2.contents =
        if deadAt nowMs (s.contents key) = true then s.contents.delete key
        else s.contents.expire key expireAt := by
  obtain ⟨hres, heff⟩ := txnExpire_effect (h.key (s.shardFor key)) key expireAt nowMs
  have hput : (s.put (s.shardFor key)
        ((s.shards (s.shardFor key)).txnExpire key expireAt nowMs).2).contents =
      if deadAt nowMs (s.contents key) = true then s.contents.delete key
        else s.contents.expire key expireAt := by
    have hc : s.contents key = (s.shards (s.shardFor key)).contents key := rfl
    rw [hc]
    split_ifs at heff ⊢
    · exact contents_put_update heff
    · exact contents_put_update heff
  rw [expire_eq]
  refine ⟨hres, ?_⟩
  dsimp only
  cases ((s.shards (s.shardFor key)).txnExpire key expireAt nowMs).1 with
  | true => exact ⟨(h.put heff).fireTTL key expireAt, (contents_fireTTL _ _ _).trans hput⟩
  | false => exact ⟨h.put heff, hput⟩

theorem Store.Plain.set (h : s.Plain) (key value : Bytes) (expireAt nowMono : UInt64)
    (hcount : ((s.shards (s.shardFor key)).setLocked key value expireAt nowMono).2.entries.keys.length
      < 2 ^ 31) : (s.set key value expireAt nowMono).2.Plain := by
  have hb := h.unlimited (s.shardFor key)
  obtain ⟨hok, heff⟩ := setLocked_effect_unlimited (h.keyed.key _) hb key value expireAt nowMono
  have hindex := setLocked_index (h.index _) hb key value expireAt nowMono hcount
  rw [set_eq, if_pos hok]
  exact (h.put_update hindex heff).fireTTL key expireAt

theorem Store.Plain.delete (h : s.Plain) (key : Bytes) (nowMs : UInt64) :
    (s.delete key nowMs).2.Plain :=
  h.put_update (txnDelete_index (h.index _) key nowMs)
    (txnDelete_effect (h.keyed.key (s.shardFor key)) key nowMs).2

/-- `Expire` under the lock of the shard, before the wheel hears of the deadline. -/
theorem Store.Plain.txnExpire (h : s.Plain) (key : Bytes) (expireAt nowMs : UInt64) :
    (s.put (s.shardFor key)
        ((s.shards (s.shardFor key)).txnExpire key expireAt nowMs).2).Plain ∧
      (s.put (s.shardFor key)
        ((s.shards (s.shardFor key)).txnExpire key expireAt nowMs).2).contents =
        if deadAt nowMs (s.contents key) = true then s.contents.delete key
        else s.contents.expire key expireAt := by
  have hindex := txnExpire_index (h.index (s.shardFor key)) key expireAt nowMs
  have heff := (txnExpire_effect (h.keyed.key (s.shardFor key)) key expireAt nowMs).2
  have hc : s.contents key = (s.shards (s.shardFor key)).contents key := rfl
  rw [hc]
  split_ifs at heff ⊢
  · exact ⟨h.put_update hindex heff, contents_put_update heff⟩
  · exact ⟨h.put_update hindex heff, contents_put_update heff⟩

theorem Store.Plain.expire (h : s.Plain) (key : Bytes) (expireAt nowMs : UInt64) :
    (s.expire key expireAt nowMs).2.Plain := by
  have hput := (h.txnExpire key expireAt nowMs).1
  rw [expire_eq]
  dsimp only
  split_ifs
  · exact hput.fireTTL key expireAt
  · exact hput

/-- What any of the three read passes leaves behind. -/
theorem Store.Plain.read (h : s.Plain) (key : Bytes) (nowMs nowMono : UInt64) :
    (s.put (s.shardFor key)
        ((s.shards (s.shardFor key)).getLocked key nowMs nowMono).2.2).Plain ∧
      (s.put (s.shardFor key)
        ((s.shards (s.shardFor key)).getLocked key nowMs nowMono).2.2).contents = s.contents :=
  h.put_same (getLocked_index (h.index _) key nowMs nowMono)
    (getLocked_effect (h.index _).toKeyInv key nowMs nowMono).1

/-! ## Removals by the store itself -/

/-- `s'` is `s` without some keys that were dead at `nowMs`. -/
structure Store.Reaps (nowMs : UInt64) (s s' : Store) : Prop where
  plain : s'.Plain
  shardFor : s'.shardFor = s.shardFor
  shardCount : s'.shardCount = s.shardCount
  contents : ∃ ks, s'.contents = s.contents.deleteAll ks ∧
    ∀ k ∈ ks, deadAt nowMs (s.contents k) = true

variable {nowMs : UInt64} {s' s'' : Store}

theorem Store.Reaps.refl (h : s.Plain) (nowMs : UInt64) : s.Reaps nowMs s :=
  ⟨h, rfl, rfl, [], by simp, by simp⟩

theorem Store.Reaps.trans (h : s.Reaps nowMs s') (h' : s'.Reaps nowMs s'') : s.Reaps nowMs s'' := by
  obtain ⟨ks, hks, hdead⟩ := h.contents
  obtain ⟨ks', hks', hdead'⟩ := h'.contents
  refine ⟨h'.plain, h'.shardFor.trans h.shardFor, h'.shardCount.trans h.shardCount, ks ++ ks', ?_,
    fun k hk => ?_⟩
  · rw [hks', hks]
    funext k
    by_cases h1 : k ∈ ks <;> by_cases h2 : k ∈ ks' <;> simp [Keyspace.deleteAll, h1, h2]
  · rcases List.mem_append.mp hk with hk | hk
    · exact hdead k hk
    · have := hdead' k hk
      rw [hks] at this
      by_cases hks : k ∈ ks
      · exact hdead k hks
      · rwa [Keyspace.deleteAll_of_not_mem _ hks] at this

/-- Only dead entries go, so a reader at that time or later notices nothing. -/
theorem Store.Reaps.live (h : s.Reaps nowMs s') {now : UInt64} (hnow : nowMs ≤ now) (k : Bytes) :
    liveAt now (s'.contents k) = liveAt now (s.contents k) := by
  obtain ⟨ks, hks, hdead⟩ := h.contents
  rw [hks]
  by_cases hk : k ∈ ks
  · have hnone : liveAt nowMs (s.contents k) = liveAt nowMs none := liveAt_of_dead (hdead k hk)
    rw [Keyspace.deleteAll, if_pos hk]
    exact (liveAt_congr_later hnow hnone).symm
  · rw [Keyspace.deleteAll_of_not_mem _ hk]

theorem Store.Plain.put_reaps (h : s.Plain) (hr : RemovesExpired nowMs (s.shards i) sh') :
    s.Reaps nowMs (s.put i sh') := by
  obtain ⟨ks, heff, hdead⟩ := hr.effect (h.index i).toKeyInv
  have hdead := hdead (h.index i)
  obtain ⟨_, _, hindex, -⟩ := hr
  have hroute : ∀ k ∈ ks, s.shardFor k = i := by
    intro k hk
    refine h.routed i k ?_
    have := hdead k hk
    rcases hc : (s.shards i).contents k with _ | d
    · rw [hc] at this; cases this
    · rfl
  refine ⟨h.put (hindex (h.index i)).1 heff fun k hk => ?_, rfl, rfl, ks, ?_, fun k hk => ?_⟩
  · by_cases hks : k ∈ ks
    · exact hroute k hks
    · rw [Keyspace.deleteAll_of_not_mem _ hks] at hk
      exact h.routed i k hk
  · funext k
    rw [contents_put, heff.contents]
    by_cases hks : k ∈ ks
    · simp [Keyspace.deleteAll, hks, hroute k hks]
    · rw [Keyspace.deleteAll_of_not_mem _ hks, Keyspace.deleteAll_of_not_mem _ hks,
        h.contents_shard]
      split_ifs <;> rfl
  · rw [Store.contents, hroute k hk]
    exact hdead k hk

theorem Store.Plain.reap (h : s.Plain) (key : Bytes) (nowMs : UInt64) :
    s.Reaps nowMs (s.reap key nowMs) :=
  h.put_reaps (reapLocked_removesExpired _ key nowMs)

theorem Store.Plain.sweep (h : s.Plain) (i : ℕ) (nowMs : UInt64) (sample : ℕ) :
    s.Reaps nowMs (s.sweep i nowMs sample).2 :=
  h.put_reaps (sweepLocked_removesExpired _ nowMs sample)

theorem Store.Plain.purgeStep (h : s.Plain) (i : ℕ) (nowMs : UInt64) :
    s.Reaps nowMs (s.purgeStep i nowMs).2 :=
  h.put_reaps (purgeLoop_removesExpired nowMs 1024 _ _ 0)

theorem Store.Plain.purgeShard (nowMs : UInt64) (i : ℕ) :
    ∀ (fuel : ℕ) {s : Store}, s.Plain → s.Reaps nowMs (Store.purgeShard nowMs i fuel s).2 := by
  intro fuel
  induction fuel with
  | zero => intro s h; exact .refl h nowMs
  | succ fuel ih =>
    intro s h
    have hstep := h.purgeStep i nowMs
    rw [Store.purgeShard]
    dsimp only
    split_ifs
    · exact hstep
    · exact hstep.trans (ih hstep.plain)

theorem Store.Plain.purgeLoop (nowMs : UInt64) :
    ∀ (l : List ℕ) {s : Store}, s.Plain → s.Reaps nowMs (Store.purgeLoop nowMs l s).2 := by
  intro l
  induction l with
  | nil => intro s h; exact .refl h nowMs
  | cons i l ih =>
    intro s h
    have hstep := h.purgeShard nowMs i ((s.shards i).ttlSlots.items.length + 1)
    exact hstep.trans (ih hstep.plain)

theorem Store.Plain.purgeExpired (h : s.Plain) (nowMs : UInt64) :
    s.Reaps nowMs (s.purgeExpired nowMs).2 :=
  h.purgeLoop nowMs _

theorem Store.Plain.fireTimers (nowMs : UInt64) :
    ∀ (due : List WheelTimer) {s : Store}, s.Plain →
      s.Reaps nowMs (Store.fireTimers nowMs due s).2 := by
  intro due
  induction due with
  | nil => intro s h; exact .refl h nowMs
  | cons t due ih =>
    intro s h
    have hstep : s.Reaps nowMs (s.put (s.shardFor t.key)
        ((s.shards (s.shardFor t.key)).wheelRemove t.key t.expireAt nowMs).2) :=
      h.put_reaps (wheelRemove_removesExpired _ t.key t.expireAt nowMs)
    exact hstep.trans (ih hstep.plain)

theorem Store.Plain.runOnce (h : s.Plain) (nowMs : UInt64) :
    s.Reaps nowMs (s.runOnce nowMs).2 := by
  unfold Store.runOnce
  split
  · exact .refl h nowMs
  · rename_i w _
    obtain ⟨h1, h2, h3, h4⟩ := Store.Plain.fireTimers nowMs (w.advance nowMs).1
      (h.of_wheel (some (w.advance nowMs).2))
    exact ⟨h1, h2, h3, h4⟩

/-! ## A new store -/

/-- The mask keeps the index in range, also when the count is not a power of two. -/
theorem newStore_shardFor_lt (o : Options) (newSeed : UInt64) (k : Bytes) :
    (newStore o newSeed).shardFor k < (newStore o newSeed).shardCount := by
  have hpos : 0 < (o.withDefaults newSeed).shards := by
    rw [withDefaults_shards]
    split_ifs <;> omega
  show (if (o.withDefaults newSeed).shards = 1 then 0 else _) < (o.withDefaults newSeed).shards
  split_ifs
  · exact hpos
  · rw [UInt64.toNat_and]
    have hand : (hash64 (newStore o newSeed).seed k).toNat &&& (newStore o newSeed).mask.toNat ≤
        (newStore o newSeed).mask.toNat := Nat.and_le_right
    have hmask : (newStore o newSeed).mask.toNat ≤ (o.withDefaults newSeed).shards - 1 := by
      show (UInt64.ofNat ((o.withDefaults newSeed).shards - 1)).toNat ≤ _
      rw [UInt64.toNat_ofNat']
      exact Nat.mod_le _ _
    omega

theorem newStore_shards (o : Options) (newSeed : UInt64) (hmem : o.maxMemory ≤ 0) (i : ℕ) :
    (newStore o newSeed).shards i =
      newShard (o.withDefaults newSeed).evictSampleK (o.withDefaults newSeed).evictBatch
        (splitmix64 (((o.withDefaults newSeed).seed + UInt64.ofNat i * 0x9E3779B97F4A7C15) ||| 1))
        (o.withDefaults newSeed).exactLRU (o.withDefaults newSeed).policy := by
  unfold newStore
  dsimp only
  rw [withDefaults_maxMemory, if_neg (by omega)]

theorem newStore_entries (o : Options) (newSeed : UInt64) (i : ℕ) :
    ((newStore o newSeed).shards i).entries = ∅ := by
  unfold newStore
  dsimp only
  split_ifs <;> rfl

theorem newStore_inv (o : Options) (newSeed : UInt64) (i : ℕ) :
    ShardInv ((newStore o newSeed).shards i) := by
  unfold newStore
  dsimp only
  split_ifs
  · exact ShardInv.maintained.of_limits (ShardInv.maintained.newShard _ _ _ _ _) _ _
  · exact ShardInv.maintained.newShard _ _ _ _ _

theorem newStore_contents (o : Options) (newSeed : UInt64) (k : Bytes) :
    (newStore o newSeed).contents k = none := by
  rw [Store.contents, Shard.contents, newStore_entries]
  rfl

theorem newStore_plain (o : Options) (newSeed : UInt64) (hmem : o.maxMemory ≤ 0) :
    (newStore o newSeed).Plain := by
  have hshard := newStore_shards o newSeed hmem
  refine ⟨fun i => ?_, fun i => ?_, fun i k hk => ?_, newStore_shardFor_lt o newSeed⟩
  · rw [hshard]; exact (ShardInv.maintained.newShard _ _ _ _ _).toIndexInv
  · rw [hshard]; exact le_refl _
  · rw [hshard] at hk
    cases hk

end KvStore
