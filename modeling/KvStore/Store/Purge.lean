import KvStore.Store.StoreInv

/-!
# `PurgeExpired` leaves no dead entry

The removal loop walks the TTL index backwards. A removal swaps the last element into
the freed index, and everything behind the current index has been examined already, so
nothing is skipped. A batch that stops early is followed by another one, and every
full batch shortens the index.

* `Store.Plain.purgeExpired_contents`: what is left is what was visible.
-/

namespace KvStore

open KvStore.Common

variable {sh : Shard} {s : Store} {nowMs : UInt64}

theorem ttlSlots_removeAndFire (sh : Shard) (e : Ptr) (reason : EvictReason) :
    (sh.removeAndFire e reason).ttlSlots = (sh.ttlSlots.remove e).forget e := by
  rw [Shard.removeAndFire, removeEntryLocked_eq]
  rfl

theorem heap_removeAndFire (sh : Shard) (e : Ptr) (reason : EvictReason) :
    (sh.removeAndFire e reason).heap = sh.heap := by
  rw [Shard.removeAndFire, removeEntryLocked_eq]
  rfl

/-- Every dead entry is in the TTL index. -/
theorem IndexInv.not_dead (h : IndexInv sh)
    (hlive : ∀ e ∈ sh.ttlSlots.items, (sh.heap e).expired nowMs = false) (k : Bytes) :
    deadAt nowMs (sh.contents k) = false := by
  rcases hk : sh.entries.lookup k with _ | e
  · rw [contents_of_lookup_none hk]; rfl
  · rw [contents_of_lookup hk, deadAt_some]
    by_cases hzero : (sh.heap e).expireAt = 0
    · simp [expiredAt, hzero]
    · exact hlive e ((h.mem_ttl e).mpr ⟨h.mem_of_lookup hk, hzero⟩)

/-- One walk: unless it stopped at the batch limit no dead entry is left, and the index is
    shorter by the number of removals. -/
theorem purgeLoop_complete (nowMs : UInt64) (batch : ℕ) :
    ∀ (j : ℕ) (sh : Shard) (removed : ℕ), IndexInv sh → j ≤ sh.ttlSlots.items.length →
      (∀ (i : ℕ) (e : Ptr), j ≤ i → sh.ttlSlots.items[i]? = some e →
        (sh.heap e).expired nowMs = false) →
      ((Shard.purgeLoop nowMs batch j sh removed).1 < batch →
        ∀ e ∈ (Shard.purgeLoop nowMs batch j sh removed).2.ttlSlots.items,
          ((Shard.purgeLoop nowMs batch j sh removed).2.heap e).expired nowMs = false) ∧
      (Shard.purgeLoop nowMs batch j sh removed).1 +
        (Shard.purgeLoop nowMs batch j sh removed).2.ttlSlots.items.length =
          removed + sh.ttlSlots.items.length := by
  intro j
  induction j with
  | zero =>
    intro sh removed _ _ hdone
    refine ⟨fun _ e he => ?_, rfl⟩
    obtain ⟨i, hi⟩ := List.mem_iff_getElem?.mp he
    exact hdone i e (Nat.zero_le i) hi
  | succ j ih =>
    intro sh removed h hj hdone
    rw [Shard.purgeLoop]
    split_ifs with hlimit
    · obtain ⟨e, he⟩ : ∃ e, sh.ttlSlots.items[j]? = some e := ⟨_, List.getElem?_eq_getElem hj⟩
      rw [he]
      dsimp only
      split_ifs with hexp
      · have hmem := List.mem_of_getElem? he
        have hindex : IndexInv (sh.removeAndFire e .expired) :=
          (removeEntryLocked_index h ((h.mem_ttl e).mp hmem).1).congr rfl rfl rfl rfl rfl
        have hlen := h.ttl.length_remove hmem
        obtain ⟨h1, h2⟩ := ih (sh.removeAndFire e .expired) (removed + 1) hindex
          (by rw [ttlSlots_removeAndFire, SlotArray.items_forget]; omega)
          (by
            rw [ttlSlots_removeAndFire, SlotArray.items_forget, heap_removeAndFire]
            exact h.ttl.forall_from_remove he hdone)
        refine ⟨h1, h2.trans ?_⟩
        rw [ttlSlots_removeAndFire, SlotArray.items_forget]
        omega
      · refine ih sh removed h (by omega) fun i b hi hb => ?_
        rcases Nat.eq_or_lt_of_le hi with rfl | hi
        · rw [he] at hb
          obtain rfl := Option.some.inj hb
          simpa using hexp
        · exact hdone i b hi hb
    · exact ⟨fun hc => absurd hc hlimit, rfl⟩

/-- One batch. -/
theorem purgeBatch_complete (h : IndexInv sh) (nowMs : UInt64) :
    ((sh.purgeBatch nowMs).1 < 1024 → ∀ e ∈ (sh.purgeBatch nowMs).2.ttlSlots.items,
        ((sh.purgeBatch nowMs).2.heap e).expired nowMs = false) ∧
      (sh.purgeBatch nowMs).1 + (sh.purgeBatch nowMs).2.ttlSlots.items.length =
        sh.ttlSlots.items.length := by
  obtain ⟨h1, h2⟩ := purgeLoop_complete nowMs 1024 sh.ttlSlots.items.length sh 0 h (le_refl _)
    fun i e hi hget => by
      rw [List.getElem?_eq_none hi] at hget; cases hget
  exact ⟨h1, h2.trans (Nat.zero_add _)⟩

/-! ## All batches, all shards -/

/-- No key of shard `i` is dead. -/
def Store.Purged (s : Store) (nowMs : UInt64) (i : ℕ) : Prop :=
  ∀ k, s.shardFor k = i → deadAt nowMs (s.contents k) = false

/-- Nothing that is gone dies. -/
theorem Store.Reaps.purged {s' : Store} {i : ℕ} (h : s.Reaps nowMs s') (hp : s.Purged nowMs i) :
    s'.Purged nowMs i := by
  intro k hk
  rw [h.shardFor] at hk
  obtain ⟨ks, hks, -⟩ := h.contents
  rw [hks]
  by_cases hmem : k ∈ ks
  · rw [Keyspace.deleteAll, if_pos hmem]; rfl
  · rw [Keyspace.deleteAll_of_not_mem _ hmem]; exact hp k hk

theorem Store.Plain.purged_of_ttl {i : ℕ} (h : s.Plain)
    (hlive : ∀ e ∈ (s.shards i).ttlSlots.items, ((s.shards i).heap e).expired nowMs = false) :
    s.Purged nowMs i := by
  rintro k rfl
  exact (h.index (s.shardFor k)).not_dead hlive k

/-- With more fuel than there are deadlines, the batches on a shard finish. -/
theorem Store.Plain.purgeShard_purged (nowMs : UInt64) (i : ℕ) :
    ∀ (fuel : ℕ) {s : Store}, s.Plain → (s.shards i).ttlSlots.items.length < fuel →
      (Store.purgeShard nowMs i fuel s).2.Purged nowMs i := by
  intro fuel
  induction fuel with
  | zero => intro s _ hlt; exact absurd hlt (Nat.not_lt_zero _)
  | succ fuel ih =>
    intro s h hlt
    have hplain := (h.purgeStep i nowMs).plain
    obtain ⟨hdone, hcount⟩ := purgeBatch_complete (h.index i) nowMs
    have hshard : (s.purgeStep i nowMs).2.shards i = ((s.shards i).purgeBatch nowMs).2 :=
      shards_put_self _ _ _
    have hres : (s.purgeStep i nowMs).1 = ((s.shards i).purgeBatch nowMs).1 := rfl
    rw [Store.purgeShard]
    dsimp only
    rw [hres]
    split_ifs with hlimit
    · refine hplain.purged_of_ttl ?_
      rw [hshard]
      exact hdone hlimit
    · exact ih hplain (by rw [hshard]; omega)

theorem Store.Plain.purgeLoop_purged (nowMs : UInt64) :
    ∀ (l : List ℕ) {s : Store}, s.Plain → ∀ i ∈ l, (Store.purgeLoop nowMs l s).2.Purged nowMs i := by
  intro l
  induction l with
  | nil => intro s _ i hi; cases hi
  | cons j l ih =>
    intro s h i hi
    have hstep := h.purgeShard nowMs j ((s.shards j).ttlSlots.items.length + 1)
    rcases List.mem_cons.mp hi with rfl | hi
    · exact (hstep.plain.purgeLoop nowMs l).purged
        (h.purgeShard_purged nowMs i _ (Nat.lt_succ_self _))
    · exact ih hstep.plain i hi

/-- `PurgeExpired` removes the dead entries and nothing else. -/
theorem Store.Plain.purgeExpired_contents (h : s.Plain) (nowMs : UInt64) (k : Bytes) :
    (s.purgeExpired nowMs).2.contents k = liveAt nowMs (s.contents k) := by
  have hreaps := h.purgeExpired nowMs
  have hpurged : deadAt nowMs ((s.purgeExpired nowMs).2.contents k) = false :=
    h.purgeLoop_purged nowMs _ (s.shardFor k) (List.mem_range.mpr (h.inRange k)) k
      (by rw [show Store.purgeLoop nowMs (List.range s.shardCount) s = s.purgeExpired nowMs from rfl,
        hreaps.shardFor])
  rw [← hreaps.live (UInt64.le_refl nowMs) k, liveAt_of_not_dead (by rw [hpurged]; decide)]

end KvStore
