import KvStore.Store.Budget
import KvStore.Store.Purge

/-!
# What is reclaimed, and how often it is counted

`Reclaims now s ks s'` says that exactly the entries of the keys `ks`, which had expired, were
removed from a shard, each one once; so `ks.length` is their number.

* `purgeExpired_exact`: `PurgeExpired` ends, removes the dead entries and nothing else, reports
  each one once and returns their number.
* `purgeExpired_counts_again`: with more than `2^31` deadlines in a shard it can return a number
  when there is nothing to remove.
-/

namespace KvStore

open KvStore.Common

/-! ## Entries removed once -/

/-- The expired entries of the keys `ks` were removed, in that order, and no other one. -/
structure Reclaims (now : UInt64) (s : Shard) (ks : List Bytes) (s' : Shard) : Prop where
  removed : Removed .expired s s' ks
  nodup : ks.Nodup
  dead : ∀ k ∈ ks, deadAt now (s.contents k) = true
  index : IndexInv s'

section

variable {now : UInt64} {s s' s'' : Shard} {ks ks' : List Bytes} {e : Ptr}

theorem Reclaims.refl (h : IndexInv s) (now : UInt64) : Reclaims now s [] s :=
  ⟨.refl _ s, .nil, nofun, h⟩

theorem Reclaims.trans (h : Reclaims now s ks s') (h' : Reclaims now s' ks' s'') :
    Reclaims now s (ks ++ ks') s'' := by
  -- a key that is removed later is still there
  have hnew : ∀ k ∈ ks', k ∉ ks ∧ deadAt now (s.contents k) = true := by
    intro k hk
    have hdead := h'.dead k hk
    rw [h.removed.contents] at hdead
    split_ifs at hdead with hmem
    · cases hdead
    · exact ⟨hmem, hdead⟩
  refine ⟨h.removed.trans h'.removed, ?_, fun k hk => ?_, h'.index⟩
  · refine List.nodup_append'.mpr ⟨h.nodup, h'.nodup, fun k hk hk' => (hnew k hk').1 hk⟩
  · rcases List.mem_append.mp hk with hk | hk
    · exact h.dead k hk
    · exact (hnew k hk).2

theorem removeAndFire_reclaims (h : IndexInv s) (he : e ∈ s.slots.items)
    (hexp : (s.heap e).expired now = true) :
    Reclaims now s [(s.heap e).key] (s.removeAndFire e .expired) := by
  refine ⟨removeAndFire_removed s e .expired, List.nodup_singleton _, fun k hk => ?_,
    removeAndFire_index h he⟩
  rw [List.mem_singleton.mp hk, contents_of_lookup (h.lookup_of_mem he)]
  exact hexp

/-- Removing all dead entries leaves the live ones. -/
theorem Reclaims.all_dead (h : Reclaims now s ks s')
    (hlive : ∀ k, deadAt now (s'.contents k) = false) :
    (∀ k, k ∈ ks ↔ deadAt now (s.contents k) = true) ∧
      ∀ k, s'.contents k = liveAt now (s.contents k) := by
  have hiff : ∀ k, k ∈ ks ↔ deadAt now (s.contents k) = true := by
    refine fun k => ⟨h.dead k, fun hdead => ?_⟩
    by_contra hmem
    have hsame := h.removed.contents k
    rw [if_neg hmem] at hsame
    rw [← hsame, hlive k] at hdead
    cases hdead
  refine ⟨hiff, fun k => ?_⟩
  rw [h.removed.contents, liveAt_eq_ite]
  exact if_congr (hiff k) rfl rfl

/-! ## `PurgeExpired` -/

theorem purgeLoop_reclaims (now : UInt64) (batch j : ℕ) (h : IndexInv s) (removed : ℕ) :
    ∃ ks, Reclaims now s ks (Shard.purgeLoop now batch j s removed).2 ∧
      (Shard.purgeLoop now batch j s removed).1 = removed + ks.length := by
  induction j generalizing s removed with
  | zero => exact ⟨[], .refl h now, rfl⟩
  | succ j ih =>
    rw [Shard.purgeLoop]
    by_cases hlimit : removed < batch
    · rw [if_pos hlimit]
      cases hget : s.ttlSlots.items[j]? with
      | none => exact ih h removed
      | some e =>
        dsimp only
        split_ifs with hexp
        · have hone := removeAndFire_reclaims h
            ((h.mem_ttl e).mp (List.mem_of_getElem? hget)).1 hexp
          obtain ⟨ks, hks, hcount⟩ := ih hone.index (removed + 1)
          refine ⟨_, hone.trans hks, ?_⟩
          rw [hcount, List.length_append, List.length_singleton]
          omega
        · exact ih h removed
    · rw [if_neg hlimit]
      exact ⟨[], .refl h now, rfl⟩

end

/-- The loops of `PurgeExpired` (expiry.go lines 176–203) over the shards still to visit, as far as
    they end: a batch that was full is followed by another one on the same shard. -/
inductive Purges (now : UInt64) : List ℕ → Store → ℕ → Store → Prop
  | done (s : Store) : Purges now [] s 0 s
  | next {i : ℕ} {l : List ℕ} {s t : Store} {n : ℕ} (hlast : (s.purgeStep i now).1 < 1024)
      (h : Purges now l (s.purgeStep i now).2 n t) :
      Purges now (i :: l) s ((s.purgeStep i now).1 + n) t
  | again {i : ℕ} {l : List ℕ} {s t : Store} {n : ℕ} (hfull : ¬ (s.purgeStep i now).1 < 1024)
      (h : Purges now (i :: l) (s.purgeStep i now).2 n t) :
      Purges now (i :: l) s ((s.purgeStep i now).1 + n) t

/-- What a purge of shard `i` does. -/
structure PurgesShard (now : UInt64) (i : ℕ) (s : Store) (ks : List Bytes) (t : Store) : Prop where
  reclaims : Reclaims now (s.shards i) ks (t.shards i)
  live : ∀ k, deadAt now ((t.shards i).contents k) = false
  frame : ∀ j, j ≠ i → t.shards j = s.shards j

section

variable {now : UInt64} {s : Store} {i : ℕ}

/-- With more fuel than there are deadlines, the batches on a shard end by themselves. -/
theorem purgeShard_exact (now : UInt64) (i : ℕ) {fuel : ℕ} (h : IndexInv (s.shards i))
    (hfuel : (s.shards i).ttlSlots.items.length < fuel) :
    ∃ ks, (Store.purgeShard now i fuel s).1 = ks.length ∧
      PurgesShard now i s ks (Store.purgeShard now i fuel s).2 ∧
      ∀ l n t, Purges now l (Store.purgeShard now i fuel s).2 n t →
        Purges now (i :: l) s ((Store.purgeShard now i fuel s).1 + n) t := by
  induction fuel generalizing s with
  | zero => exact absurd hfuel (Nat.not_lt_zero _)
  | succ fuel ih =>
    obtain ⟨ks, hks, hcount⟩ := purgeLoop_reclaims now 1024
      (s.shards i).ttlSlots.items.length h 0
    obtain ⟨hdone, hlen⟩ := purgeBatch_complete h now
    have hshard : (s.purgeStep i now).2.shards i = ((s.shards i).purgeBatch now).2 :=
      shards_put_self _ _ _
    have hres : (s.purgeStep i now).1 = ((s.shards i).purgeBatch now).1 := rfl
    have hframe : ∀ j, j ≠ i → (s.purgeStep i now).2.shards j = s.shards j :=
      fun j hj => shards_put_of_ne s hj _
    have hcount : ((s.shards i).purgeBatch now).1 = ks.length := by
      rw [← Nat.zero_add ks.length, ← hcount]
      rfl
    rw [Store.purgeShard]
    dsimp only
    rw [hres]
    by_cases hlast : ((s.shards i).purgeBatch now).1 < 1024
    · rw [if_pos hlast]
      refine ⟨ks, hcount, ⟨by rw [hshard]; exact hks, ?_, hframe⟩, fun l n t ht => .next hlast ht⟩
      rw [hshard]
      exact hks.index.not_dead (hdone hlast)
    · rw [if_neg hlast]
      obtain ⟨ks', hcount', hpurge, hrel⟩ := ih (s := (s.purgeStep i now).2)
        (by rw [hshard]; exact hks.index) (by rw [hshard]; omega)
      refine ⟨ks ++ ks', ?_, ⟨?_, hpurge.live, fun j hj => ?_⟩, fun l n t ht => ?_⟩
      · rw [List.length_append, hcount, hcount']
      · have hfirst : Reclaims now (s.shards i) ks ((s.purgeStep i now).2.shards i) := by
          rw [hshard]
          exact hks
        exact hfirst.trans hpurge.reclaims
      · rw [hpurge.frame j hj, hframe j hj]
      · rw [Nat.add_assoc]
        exact .again hlast (hrel l n t ht)

theorem purgeLoop_exact (now : UInt64) {l : List ℕ} (hl : l.Nodup)
    (h : ∀ i, IndexInv (s.shards i)) :
    ∃ ks : ℕ → List Bytes,
      Purges now l s (Store.purgeLoop now l s).1 (Store.purgeLoop now l s).2 ∧
      (Store.purgeLoop now l s).1 = (l.map fun i => (ks i).length).sum ∧
      (∀ i ∈ l, Reclaims now (s.shards i) (ks i) ((Store.purgeLoop now l s).2.shards i) ∧
        ∀ k, deadAt now (((Store.purgeLoop now l s).2.shards i).contents k) = false) ∧
      ∀ i ∉ l, (Store.purgeLoop now l s).2.shards i = s.shards i := by
  induction l generalizing s with
  | nil => exact ⟨fun _ => [], .done s, rfl, nofun, fun _ _ => rfl⟩
  | cons i l ih =>
    obtain ⟨hi, hl⟩ := List.nodup_cons.mp hl
    obtain ⟨ks, hcount, hpurge, hrel⟩ := purgeShard_exact now i (h i) (Nat.lt_succ_self _)
    have hindex : ∀ j, IndexInv ((Store.purgeShard now i
        ((s.shards i).ttlSlots.items.length + 1) s).2.shards j) := by
      intro j
      by_cases hj : j = i
      · rw [hj]
        exact hpurge.reclaims.index
      · rw [hpurge.frame j hj]
        exact h j
    obtain ⟨rest, hruns, hsum, hshards, hframe⟩ := ih hl hindex
    refine ⟨Function.update rest i ks, hrel _ _ _ hruns, ?_, fun j hj => ?_, fun j hj => ?_⟩
    · rw [Store.purgeLoop]
      dsimp only
      rw [hcount, hsum, List.map_cons, List.sum_cons, Function.update_self]
      congr 2
      refine List.map_congr_left fun j hj => ?_
      rw [Function.update_of_ne (ne_of_mem_of_not_mem hj hi)]
    · rcases List.mem_cons.mp hj with rfl | hj
      · rw [Function.update_self, Store.purgeLoop]
        dsimp only
        rw [hframe j hi]
        exact ⟨hpurge.reclaims, hpurge.live⟩
      · have hne := ne_of_mem_of_not_mem hj hi
        obtain ⟨hrec, hlive⟩ := hshards j hj
        rw [hpurge.frame j hne] at hrec
        rw [Function.update_of_ne hne]
        exact ⟨hrec, hlive⟩
    · obtain ⟨hne, hj⟩ := not_or.mp (mt List.mem_cons.mpr hj)
      exact (hframe j hj).trans (hpurge.frame j hne)

end

/-- In every store that is reached from `New` with fewer than `2^31` entries in each shard,
    `PurgeExpired` ends; what it removes from shard `i` are the keys `ks i`, those of the entries
    whose deadline has passed; the others keep value and deadline; each removal is reported once,
    and the number of them is returned. -/
theorem purgeExpired_exact (opts : Options) (newSeed : UInt64) (wheel : Option Wheel) {s : Store}
    (hrun : Run Store.callStep (fun s c => c.Counted s)
      { newStore opts newSeed with wheel := wheel } s) (now : UInt64) :
    ∃ ks : ℕ → List Bytes,
      Purges now (List.range s.shardCount) s (s.purgeExpired now).1 (s.purgeExpired now).2 ∧
      (s.purgeExpired now).1 = ((List.range s.shardCount).map fun i => (ks i).length).sum ∧
      ∀ i < s.shardCount, (ks i).Nodup ∧
        (∀ k, k ∈ ks i ↔ deadAt now ((s.shards i).contents k) = true) ∧
        (∀ k, ((s.purgeExpired now).2.shards i).contents k =
          liveAt now ((s.shards i).contents k)) ∧
        ((s.purgeExpired now).2.shards i).onEvict =
          (s.shards i).onEvict ++ (ks i).map fun k => (k, .expired) := by
  have hlinked := Store.Linked.run hrun
  obtain ⟨ks, hends, hsum, hshards, -⟩ := purgeLoop_exact now (List.nodup_range (n := s.shardCount))
    fun i => (hlinked.linked i).toIndexInv
  refine ⟨ks, hends, hsum, fun i hi => ?_⟩
  obtain ⟨hrec, hlive⟩ := hshards i (List.mem_range.mpr hi)
  obtain ⟨hiff, hcontents⟩ := hrec.all_dead hlive
  exact ⟨hrec.nodup, hiff, hcontents, hrec.removed.onEvict⟩

/-- A store with one key, the deadline of which passes. -/
theorem purgeExpired_exact_one :
    (((newStore oneShard 1).act (.set [1] [2] 5 0)).purgeExpired 7).1 = 1 ∧
    ∀ k, ((((newStore oneShard 1).act (.set [1] [2] 5 0)).purgeExpired 7).2.shards 0).contents k =
      liveAt 7 ((((newStore oneShard 1).act (.set [1] [2] 5 0)).shards 0).contents k) := by
  obtain ⟨ks, -, -, hshards⟩ := purgeExpired_exact oneShard 1 none
    (Run.refl.tail (StoreCall.op (.set [1] [2] 5 0)) (by decide) rfl) 7
  exact ⟨by decide +kernel, (hshards 0 (by decide)).2.2.1⟩

/-! ## Beyond the bound -/

/-- The entry that stays in `ttlSlots` was removed from the map by the first purge; the second one
    counts and reports it again. -/
theorem purgeExpired_counts_again :
    ∃ s, Run Store.callStep (fun _ c => c.Small) (newStore largeShard 1) s ∧
      (s.purgeExpired 5).1 = 1 ∧
      (∀ k, ((s.purgeExpired 5).2.shards 0).contents k = (s.shards 0).contents k) ∧
      ((s.purgeExpired 5).2.shards 0).onEvict =
        (s.shards 0).onEvict ++ [(nthKey (2 ^ 31), .expired)] := by
  obtain ⟨s, hrun, hcount, -, hkey, hleaky⟩ := exists_leaky_store
  have hcalls : Run Store.callStep (fun _ c => c.Small) (newStore largeShard 1) s :=
    hrun.map StoreCall.op fun s a t ha hs => ⟨ha, hs⟩
  have hfirst := removeAndFire_removed (s.shards 0) (2 ^ 31) .expired
  obtain ⟨-, hagain, -⟩ := hleaky.purgeBatch
  have hshard : (s.call (.op (.purge 5))).shards 0 =
      (s.shards 0).removeAndFire (2 ^ 31) .expired := by
    show ((s.purgeExpired 5).2.shards 0) = _
    rw [hleaky.purgeExpired hcount, shards_put_self]
  have hcount' : (s.call (.op (.purge 5))).shardCount = 1 := by
    show (s.purgeExpired 5).2.shardCount = 1
    rw [hleaky.purgeExpired hcount]
    exact hcount
  have hpurge := Shard.Leaky.purgeExpired (n := 2 ^ 31) hcount' (by rw [hshard]; exact hagain)
  have hsecond := removeAndFire_removed ((s.shards 0).removeAndFire (2 ^ 31) .expired) (2 ^ 31) .expired
  rw [hfirst.heap, hkey] at hsecond
  refine ⟨_, hcalls.tail (.op (.purge 5)) trivial rfl, ?_, fun k => ?_, ?_⟩
  · rw [hpurge]
  · rw [hpurge, hshard]
    show ((Store.put _ 0 _).shards 0).contents k = _
    rw [shards_put_self, hsecond.contents]
    split_ifs with hk
    · rw [hfirst.contents, hkey, if_pos hk]
    · rfl
  · rw [hpurge, hshard]
    show ((Store.put _ 0 _).shards 0).onEvict = _
    rw [shards_put_self, hsecond.onEvict]
    rfl

end KvStore
