import KvStore.Store.Removal

/-!
# What the operations of a shard do to its contents

`Shard.contents` forgets how a shard is represented and keeps the value and the
deadline each key leads to. `Effect s s' ev m` says that going from `s` to `s'`
made the contents `m` and reported the keys `ev`; each operation has its effect,
from the key part of the invariant alone. Nothing here depends on the bounds below
which cached positions and sizes are exact.
-/

namespace KvStore

open KvStore.Common

/-- The value and the deadline stored under each key. -/
def Shard.contents (s : Shard) : Keyspace Bytes Bytes :=
  fun k => (s.entries.lookup k).map fun e => ((s.heap e).value, (s.heap e).expireAt)

/-- From `s` to `s'` the contents became `m` and the keys `ev` were reported. -/
structure Effect (s s' : Shard) (ev : List (Bytes × EvictReason)) (m : Keyspace Bytes Bytes) :
    Prop where
  keyInv : KeyInv s'
  contents : s'.contents = m
  onEvict : s'.onEvict = s.onEvict ++ ev
  config : s'.config = s.config

variable {s s' t : Shard} {e : Ptr} {k key value : Bytes}

theorem Effect.refl (h : KeyInv s) : Effect s s [] s.contents :=
  ⟨h, rfl, (List.append_nil _).symm, rfl⟩

theorem contents_of_lookup (h : s.entries.lookup k = some e) :
    s.contents k = some ((s.heap e).value, (s.heap e).expireAt) := by
  rw [Shard.contents, h]; rfl

theorem contents_of_lookup_none (h : s.entries.lookup k = none) : s.contents k = none := by
  rw [Shard.contents, h]; rfl

theorem contents_isSome (s : Shard) (k : Bytes) :
    (s.contents k).isSome = (s.entries.lookup k).isSome := Option.isSome_map

/-- What the store removes by itself. -/
theorem Removed.effect {reason : EvictReason} {ks : List Bytes} (hr : Removed reason s s' ks)
    (h : KeyInv s) :
    Effect s s' (ks.map fun k => (k, reason)) (s.contents.deleteAll ks) := by
  have hsub : ∀ {k e}, s'.entries.lookup k = some e → s.entries.lookup k = some e := by
    intro k e hk
    rw [hr.lookup] at hk
    split_ifs at hk
    exact hk
  refine ⟨⟨fun hk => ?_, fun hk => ?_⟩, ?_, hr.onEvict, hr.config⟩
  · rw [hr.heap]; exact h.key (hsub hk)
  · rw [hr.alloc]; exact h.alloc (hsub hk)
  · funext k
    simp only [Shard.contents, Keyspace.deleteAll, hr.lookup, hr.heap]
    split_ifs <;> rfl

/-- Replacing the entry of a key by one with the same key. -/
theorem contents_replace (h : KeyInv s) (he : s.entries.lookup key = some e) {x : Entry}
    (hx : x.key = key) (hheap : t.heap = Function.update s.heap e x)
    (hentries : t.entries = s.entries) (halloc : t.alloc = s.alloc) :
    KeyInv t ∧ t.contents = s.contents.set key x.value x.expireAt := by
  have hne : ∀ {k b}, s.entries.lookup k = some b → k ≠ key → b ≠ e := by
    rintro k b hk hkey rfl
    exact hkey ((h.key hk).symm.trans (h.key he))
  refine ⟨⟨fun {k b} hk => ?_, fun {k b} hk => ?_⟩, ?_⟩
  · rw [hentries] at hk
    rw [hheap]
    by_cases hkey : k = key
    · subst hkey
      obtain rfl := Option.some.inj (he.symm.trans hk)
      rw [Function.update_self, hx]
    · rw [Function.update_of_ne (hne hk hkey)]
      exact h.key hk
  · rw [hentries] at hk
    rw [halloc]
    exact h.alloc hk
  · funext k
    by_cases hkey : k = key
    · subst hkey
      rw [Keyspace.set_self, contents_of_lookup (by rw [hentries]; exact he), hheap,
        Function.update_self]
    · rw [Keyspace.set_of_ne _ hkey]
      rcases hk : s.entries.lookup k with _ | b
      · rw [contents_of_lookup_none hk, contents_of_lookup_none (by rw [hentries]; exact hk)]
      · rw [contents_of_lookup hk, contents_of_lookup (by rw [hentries]; exact hk), hheap,
          Function.update_of_ne (hne hk hkey)]

/-! ## Frames -/

/-- The TTL index is all `updateTTLSlot` changes. -/
theorem updateTTLSlot_frame (s : Shard) (e : Ptr) (hadTTL : Bool) (expireAt : UInt64) :
    ∃ a, s.updateTTLSlot e hadTTL expireAt = { s with ttlSlots := a } := by
  unfold Shard.updateTTLSlot Shard.addTTLSlotLocked Shard.removeTTLSlotLocked
  split_ifs
  · exact ⟨_, rfl⟩
  · exact ⟨_, rfl⟩
  · exact ⟨_, rfl⟩
  · exact ⟨_, rfl⟩

theorem overwrite_frame (s : Shard) (e : Ptr) (value : Bytes) (expireAt nowMono : UInt64)
    (cost delta : ℤ) :
    ∃ a d, s.overwrite e value expireAt nowMono cost delta =
      { s with
        heap := Function.update s.heap e
          ⟨(s.heap e).key, value, expireAt, nowMono, uint32 cost⟩
        ttlSlots := a
        lru := d
        memBytes := int64 (s.memBytes + delta) } := by
  unfold Shard.overwrite
  dsimp only
  obtain ⟨a, ha⟩ := updateTTLSlot_frame
    (s.modify e fun x =>
      { x with value := value, expireAt := expireAt, size := uint32 cost, lastAccess := nowMono })
    e ((s.heap e).expireAt ≠ 0) expireAt
  rw [ha]
  refine ⟨a, if s.exactLRU then s.lru.moveToFront e else s.lru, ?_⟩
  cases h : s.exactLRU <;> simp [h, Shard.modify, Shard.lruMoveToFrontLocked, Shard.addMem]

/-! ## Effects -/

theorem overwrite_effect (h : KeyInv s) (he : s.entries.lookup key = some e) (value : Bytes)
    (expireAt nowMono : UInt64) (cost delta : ℤ) :
    Effect s (s.overwrite e value expireAt nowMono cost delta) []
      (s.contents.set key value expireAt) := by
  obtain ⟨a, d, heq⟩ := overwrite_frame s e value expireAt nowMono cost delta
  rw [heq]
  obtain ⟨h1, h2⟩ := contents_replace h he
    (x := ⟨(s.heap e).key, value, expireAt, nowMono, uint32 cost⟩) (h.key he)
    (t := { s with
      heap := Function.update s.heap e ⟨(s.heap e).key, value, expireAt, nowMono, uint32 cost⟩
      ttlSlots := a
      lru := d
      memBytes := int64 (s.memBytes + delta) }) rfl rfl rfl
  exact ⟨h1, h2, (List.append_nil _).symm, rfl⟩

theorem insert_effect (h : KeyInv s) (hnew : s.entries.lookup key = none) (value : Bytes)
    (expireAt nowMono : UInt64) (cost : ℤ) :
    Effect s (s.insert key value expireAt nowMono cost) []
      (s.contents.set key value expireAt) := by
  have hne : ∀ {k b}, s.entries.lookup k = some b → b ≠ s.alloc := fun hk =>
    (h.alloc hk).ne
  rw [insert_eq]
  refine ⟨⟨fun {k b} hk => ?_, fun {k b} hk => ?_⟩, ?_, (List.append_nil _).symm, rfl⟩
  · rcases (lookup_insert_iff s key s.alloc).mp hk with ⟨rfl, rfl⟩ | ⟨-, hb⟩
    · simp
    · simpa [Function.update_of_ne (hne hb)] using h.key hb
  · rcases (lookup_insert_iff s key s.alloc).mp hk with ⟨rfl, rfl⟩ | ⟨-, hb⟩
    · exact Nat.lt_succ_self _
    · exact Nat.lt_succ_of_lt (h.alloc hb)
  · funext k
    by_cases hk : k = key
    · subst hk
      simp [Shard.contents]
    · rw [Keyspace.set_of_ne _ hk]
      simp only [Shard.contents, AList.lookup_insert_ne hk]
      rcases hb : s.entries.lookup k with _ | b
      · rfl
      · simp [Function.update_of_ne (hne hb)]

/-- `setLocked` evicts some other keys and, unless it refuses, stores its own. -/
theorem setLocked_effect (h : KeyInv s) (key value : Bytes) (expireAt nowMono : UInt64) :
    ∃ ks, key ∉ ks ∧ (LinkedInv s → ∀ k ∈ ks, (s.contents k).isSome) ∧
      Effect s (s.setLocked key value expireAt nowMono).2 (ks.map fun k => (k, .evicted))
        (if (s.setLocked key value expireAt nowMono).1 = true
          then (s.contents.deleteAll ks).set key value expireAt else s.contents.deleteAll ks) := by
  obtain ⟨m, ⟨ks, hks, hkey, hmem, -⟩, -, hres⟩ := setLocked_cases s key value expireAt nowMono
  have hm := hks.effect h
  have hlook := hks.lookup key
  rw [if_neg hkey] at hlook
  have hset : ∀ t, Effect m t [] (m.contents.set key value expireAt) →
      Effect s t (ks.map fun k => (k, .evicted))
        ((s.contents.deleteAll ks).set key value expireAt) := by
    intro t ht
    refine ⟨ht.keyInv, by rw [ht.contents, hm.contents], ?_, ht.config.trans hm.config⟩
    rw [ht.onEvict, hm.onEvict, List.append_nil]
  refine ⟨ks, hkey, fun hs k hk => ?_, ?_⟩
  · rw [contents_isSome]
    exact hmem hs k hk
  · rcases hres with ⟨-, hres⟩ | ⟨old, hold, hres⟩ | ⟨hnew, hres⟩ <;> rw [hres]
    · exact hm
    · exact hset _ (overwrite_effect hm.keyInv (hlook.trans hold) _ _ _ _ _)
    · exact hset _ (insert_effect hm.keyInv (hlook.trans hnew) _ _ _ _)

/-- Without a memory limit the write is all that happens. -/
theorem setLocked_effect_unlimited (h : KeyInv s) (hb : s.budget ≤ 0) (key value : Bytes)
    (expireAt nowMono : UInt64) :
    (s.setLocked key value expireAt nowMono).1 = true ∧
      Effect s (s.setLocked key value expireAt nowMono).2 [] (s.contents.set key value expireAt) := by
  obtain ⟨m, -, hunl, hres⟩ := setLocked_cases s key value expireAt nowMono
  obtain rfl := hunl hb
  rcases hres with ⟨hpos, -⟩ | ⟨old, hold, hres⟩ | ⟨hnew, hres⟩
  · omega
  · rw [hres]
    exact ⟨rfl, overwrite_effect h hold _ _ _ _ _⟩
  · rw [hres]
    exact ⟨rfl, insert_effect h hnew _ _ _ _⟩

theorem removeEntryLocked_effect (h : KeyInv s) (he : s.entries.lookup key = some e) :
    Effect s (s.removeEntryLocked e) [] (s.contents.delete key) := by
  have hsub : ∀ {k b}, (s.entries.erase key).lookup k = some b → s.entries.lookup k = some b := by
    intro k b hk
    by_cases hkey : k = key
    · subst hkey; rw [AList.lookup_erase] at hk; cases hk
    · rwa [AList.lookup_erase_ne hkey] at hk
  rw [removeEntryLocked_eq, h.key he]
  refine ⟨⟨fun hk => h.key (hsub hk), fun hk => h.alloc (hsub hk)⟩, ?_,
    (List.append_nil _).symm, rfl⟩
  funext k
  by_cases hkey : k = key
  · subst hkey; simp [Shard.contents]
  · rw [Keyspace.delete_of_ne _ hkey]
    simp [Shard.contents, AList.lookup_erase_ne hkey]

theorem delLocked_effect (h : KeyInv s) (key : Bytes) :
    (s.delLocked key).1 = (s.contents key).isSome ∧
      Effect s (s.delLocked key).2 [] (s.contents.delete key) := by
  unfold Shard.delLocked
  split
  · rename_i hk
    rw [contents_of_lookup_none hk]
    refine ⟨rfl, ?_⟩
    have hid : s.contents.delete key = s.contents := by
      rw [Keyspace.delete, ← contents_of_lookup_none hk, Function.update_eq_self]
    rw [hid]
    exact .refl h
  · rename_i e he
    rw [contents_of_lookup he]
    exact ⟨rfl, removeEntryLocked_effect h he⟩

theorem expireLocked_effect (h : KeyInv s) (key : Bytes) (expireAt : UInt64) :
    (s.expireLocked key expireAt).1 = (s.contents key).isSome ∧
      Effect s (s.expireLocked key expireAt).2 [] (s.contents.expire key expireAt) := by
  unfold Shard.expireLocked
  split
  · rename_i hk
    have hnone := contents_of_lookup_none hk
    have hid : s.contents.expire key expireAt = s.contents := by
      rw [Keyspace.expire, hnone, Option.map_none, ← hnone, Function.update_eq_self]
    rw [hnone, hid]
    exact ⟨rfl, .refl h⟩
  · rename_i e he
    have hsome := contents_of_lookup he
    have hset : s.contents.expire key expireAt =
        s.contents.set key (s.heap e).value expireAt := by
      rw [Keyspace.expire, hsome]; rfl
    rw [hsome, hset]
    refine ⟨rfl, ?_⟩
    dsimp only
    obtain ⟨a, ha⟩ := updateTTLSlot_frame (s.modify e fun x => { x with expireAt := expireAt }) e
      ((s.heap e).expireAt ≠ 0) expireAt
    rw [ha]
    obtain ⟨h1, h2⟩ := contents_replace h he (x := { s.heap e with expireAt := expireAt })
      (t := { s with
        heap := Function.update s.heap e { s.heap e with expireAt := expireAt }
        ttlSlots := a }) (h.key he) rfl rfl rfl
    exact ⟨h1, h2, (List.append_nil _).symm, rfl⟩

/-- A read finds the entry that is visible at `nowMs`. -/
theorem getLocked_live (s : Shard) (key : Bytes) (nowMs nowMono : UInt64) :
    ((s.getLocked key nowMs nowMono).1.map fun e => ((s.heap e).value, (s.heap e).expireAt)) =
      liveAt nowMs (s.contents key) := by
  unfold Shard.getLocked
  split
  · rename_i hk
    rw [contents_of_lookup_none hk]
    rfl
  · rename_i e he
    have hexp : expiredAt (s.heap e).expireAt nowMs = (s.heap e).expired nowMs := rfl
    rw [contents_of_lookup he, liveAt_some, hexp]
    split_ifs <;> rfl

/-- It asks for a reap when one is present but dead. -/
theorem getLocked_effect (h : KeyInv s) (key : Bytes) (nowMs nowMono : UInt64) :
    Effect s (s.getLocked key nowMs nowMono).2.2 [] s.contents ∧
      ((s.getLocked key nowMs nowMono).1.map fun e => ((s.heap e).value, (s.heap e).expireAt)) =
        liveAt nowMs (s.contents key) ∧
      (s.getLocked key nowMs nowMono).2.1 = deadAt nowMs (s.contents key) := by
  refine ⟨?_, getLocked_live s key nowMs nowMono, ?_⟩ <;> unfold Shard.getLocked <;> split
  · exact .refl h
  · rename_i e he
    split_ifs
    · exact .refl h
    · obtain ⟨h1, h2⟩ := contents_replace h he (x := { s.heap e with lastAccess := nowMono })
        (t := s.modify e fun x => { x with lastAccess := nowMono }) (h.key he) rfl rfl rfl
      refine ⟨h1, h2.trans ?_, (List.append_nil _).symm, rfl⟩
      rw [Keyspace.set, ← contents_of_lookup he, Function.update_eq_self]
  · rename_i hk
    rw [contents_of_lookup_none hk]
    rfl
  · rename_i e he
    have hexp : expiredAt (s.heap e).expireAt nowMs = (s.heap e).expired nowMs := rfl
    rw [contents_of_lookup he, deadAt_some, hexp]
    split_ifs with hdead
    · exact hdead.symm
    · exact (Bool.eq_false_iff.mpr hdead).symm

theorem reapLocked_effect (h : KeyInv s) (key : Bytes) (nowMs : UInt64) :
    Effect s (s.reapLocked key nowMs).2
      (if deadAt nowMs (s.contents key) = true then [(key, .expired)] else [])
      (if deadAt nowMs (s.contents key) = true then s.contents.delete key else s.contents) := by
  unfold Shard.reapLocked
  split
  · rename_i hk
    rw [contents_of_lookup_none hk]
    exact .refl h
  · rename_i e he
    rw [contents_of_lookup he, deadAt_some]
    cases hexp : (s.heap e).expired nowMs with
    | true =>
      have hexp' : expiredAt (s.heap e).expireAt nowMs = true := hexp
      have heff := (removeAndFire_removed s e .expired).effect h
      rw [h.key he, Keyspace.deleteAll_singleton] at heff
      rw [hexp']
      exact heff
    | false =>
      have hexp' : expiredAt (s.heap e).expireAt nowMs = false := hexp
      rw [hexp']
      exact .refl h

/-- Removing expired entries does not change what is visible. -/
theorem RemovesExpired.effect {nowMs : UInt64} (hr : RemovesExpired nowMs s s') (h : KeyInv s) :
    ∃ ks, Effect s s' (ks.map fun k => (k, .expired)) (s.contents.deleteAll ks) ∧
      (IndexInv s → ∀ k ∈ ks, deadAt nowMs (s.contents k) = true) := by
  obtain ⟨ks, hks, hindex, -⟩ := hr
  refine ⟨ks, hks.effect h, fun hs k hk => ?_⟩
  obtain ⟨e, he, hexp⟩ := (hindex hs).2 k hk
  rw [contents_of_lookup he]
  exact hexp

end KvStore
