import KvStore.Store.Eviction

/-!
# Writes that need room

`admitLocked` evicts before it knows whether the write will fit. Whether it does depends on the
entries that may not go (`Shard.kept`), on the number of entries that one call evicts at most, and
on the low-water mark.

* `fitting_write_admitted`: under `allkeys-lru` a write that fits the budget is admitted, unless
  the call has evicted as many entries as it may, or its target leaves no room for the write.
* `fitting_write_refused`: four ways in which such a write can be refused.
-/

namespace KvStore

open KvStore.Common

/-! ## The room a write needs -/

/-- The bytes by which a write changes the accounted size (`cost` and `delta` of `setLocked`). -/
def Shard.growth (s : Shard) (key value : Bytes) : ℤ :=
  entryCost key.length value.length -
    (match s.entries.lookup key with
      | some old => ((s.heap old).size : ℤ)
      | none => 0)

/-- The accounted size of the entries that may not be evicted for `protect`. -/
def Shard.kept (s : Shard) (protect : Bytes) : ℤ :=
  ((s.slots.items.filter fun e => !s.eligible protect e).map s.cost).sum

/-- The accounted size down to which `admitLocked` evicts for `delta` more bytes (lines 265–268). -/
def Shard.evictTarget (s : Shard) (delta : ℤ) : ℤ :=
  if int64 (s.lowWater - delta) < 0 then 0 else int64 (s.lowWater - delta)

variable {s s' : Shard} {key value protect : Bytes} {vs : List Ptr}

theorem sum_cost_nonneg (s : Shard) (l : List Ptr) : 0 ≤ (l.map s.cost).sum := by
  refine List.sum_nonneg fun c hc => ?_
  obtain ⟨e, -, rfl⟩ := List.mem_map.mp hc
  exact (entryCost_pos _ _).le

theorem kept_nonneg (s : Shard) (protect : Bytes) : 0 ≤ s.kept protect := sum_cost_nonneg s _

/-- `setLocked` succeeds if `admitLocked` does; then it adds the growth to what `admitLocked` has
    left, and otherwise it leaves that. -/
theorem setLocked_admitted (s : Shard) (key value : Bytes) (expireAt nowMono : UInt64) :
    (s.setLocked key value expireAt nowMono).1 = (s.admitLocked (s.growth key value) key).1 ∧
      if (s.admitLocked (s.growth key value) key).1 = true then
        (s.setLocked key value expireAt nowMono).2.budget =
            (s.admitLocked (s.growth key value) key).2.budget ∧
          (s.setLocked key value expireAt nowMono).2.memBytes =
            int64 ((s.admitLocked (s.growth key value) key).2.memBytes + s.growth key value)
      else (s.setLocked key value expireAt nowMono).2 =
        (s.admitLocked (s.growth key value) key).2 := by
  unfold Shard.setLocked Shard.growth
  cases s.entries.lookup key with
  | none =>
    dsimp only
    rw [sub_zero]
    rcases s.admitLocked (entryCost key.length value.length) key with ⟨_ | _, m⟩
    · exact ⟨rfl, rfl⟩
    · refine ⟨rfl, ?_⟩
      dsimp only
      rw [if_pos rfl, insert_eq]
      exact ⟨rfl, rfl⟩
  | some old =>
    dsimp only
    rcases s.admitLocked (entryCost key.length value.length - (s.heap old).size) key with ⟨_ | _, m⟩
    · exact ⟨rfl, rfl⟩
    · refine ⟨rfl, ?_⟩
      dsimp only
      obtain ⟨a, d, hframe⟩ := overwrite_frame m old value expireAt nowMono
        (entryCost key.length value.length) (entryCost key.length value.length - (s.heap old).size)
      rw [if_pos rfl, hframe]
      exact ⟨rfl, rfl⟩

/-- What `admitLocked` does when it evicts. -/
theorem admitLocked_evicting (hbudget : 0 < s.budget) {delta : ℤ} (hdelta : 0 < delta)
    (hfull : s.budget < int64 (s.memBytes + delta)) (hpolicy : s.policy ≠ .noEviction)
    (protect : Bytes) :
    s.admitLocked delta protect =
      (decide (int64 ((s.evictLocked (s.evictTarget delta) protect).2.memBytes + delta) ≤
          (s.evictLocked (s.evictTarget delta) protect).2.budget),
        (s.evictLocked (s.evictTarget delta) protect).2) := by
  unfold Shard.admitLocked
  rw [if_neg (by omega), if_neg (by omega), if_neg hpolicy]
  rfl

/-! ## Writes under `allkeys-lru` -/

section AllKeys

/-- When nothing may go any more, what is left may not go. -/
theorem Evicted.memBytes_of_none (h : Evicted protect s s' vs) (hinv : ShardInv s)
    (hnone : ∀ e ∈ s'.slots.items, s.eligible protect e = false) :
    s'.memBytes = s.kept protect := by
  have hperm := h.perm.filter fun e => !s.eligible protect e
  have hvs : vs.filter (fun e => !s.eligible protect e) = [] :=
    List.filter_eq_nil_iff.mpr fun e he => by simp [h.eligible e he]
  have hrest : s'.slots.items.filter (fun e => !s.eligible protect e) = s'.slots.items :=
    List.filter_eq_self.mpr fun e he => by simp [hnone e he]
  rw [List.filter_append, hvs, hrest, List.nil_append] at hperm
  rw [(h.kept ShardInv.maintained hinv).mem, h.cost_eq, Shard.kept, (hperm.map s.cost).sum_eq]

/-- Only the overwritten entry may not go. -/
theorem kept_allKeys (h : ShardInv s) (hpolicy : s.policy = .allKeysLRU) (key value : Bytes) :
    s.kept key + s.growth key value = entryCost key.length value.length := by
  have hmem : ∀ e, e ∈ s.slots.items.filter (fun e => !s.eligible key e) ↔
      s.entries.lookup key = some e := by
    intro e
    rw [List.mem_filter, h.mem_slots_iff]
    constructor
    · rintro ⟨⟨k, hk⟩, hkey⟩
      have hkey : (s.heap e).key = key := by simpa [Shard.eligible, hpolicy] using hkey
      rwa [← hkey, h.key hk]
    · intro hlook
      exact ⟨⟨key, hlook⟩, by simp [Shard.eligible, h.key hlook]⟩
  have hnodup : (s.slots.items.filter fun e => !s.eligible key e).Nodup := h.slots.nodup.filter _
  unfold Shard.kept Shard.growth
  cases hlook : s.entries.lookup key with
  | none =>
    have hnil : s.slots.items.filter (fun e => !s.eligible key e) = [] := by
      refine List.eq_nil_iff_forall_not_mem.mpr fun e he => ?_
      rw [hmem, hlook] at he
      cases he
    rw [hnil]
    simp
  | some old =>
    have hperm : (s.slots.items.filter fun e => !s.eligible key e).Perm [old] := by
      refine (List.perm_ext_iff_of_nodup hnodup (List.nodup_singleton old)).mpr fun e => ?_
      rw [hmem, hlook, List.mem_singleton]
      exact ⟨fun he => (Option.some.inj he).symm, fun he => congrArg some he.symm⟩
    rw [(hperm.map s.cost).sum_eq, List.map_singleton, List.sum_singleton]
    have hsize := h.size old (h.mem_of_lookup hlook)
    dsimp only
    omega

/-- When `admitLocked` refuses bytes that fit next to the entries that may not go, it has used up
    its batch, or its target leaves no room for them. -/
theorem admitLocked_refused (h : ShardInv s) (hpolicy : s.policy ≠ .noEviction) {delta : ℤ}
    (hkept : s.kept protect + delta ≤ s.budget)
    (hrefused : (s.admitLocked delta protect).1 = false) :
    (∃ ks : List Bytes, ks.length = s.batchMax ∧ (s.admitLocked delta protect).2.onEvict =
        s.onEvict ++ ks.map fun k => (k, EvictReason.evicted)) ∨
      s.budget < s.lowWater ∨ s.lowWater - delta < -(2 ^ 63) := by
  have hpos := kept_nonneg s protect
  have hfull : 0 < s.budget ∧ 0 < delta ∧ s.budget < int64 (s.memBytes + delta) := by
    by_contra hnot
    unfold Shard.admitLocked at hrefused
    split_ifs at hrefused with hfree hfits
    omega
  obtain ⟨hbudget, hdelta, hmore⟩ := hfull
  have hmem := h.mem_bounds
  -- the sum has not wrapped around, so that nothing else does
  have hsum : s.memBytes + delta < 2 ^ 63 := by
    by_contra hover
    have hwrap := int64_lt (s.memBytes + delta)
    rw [int64_wrap (not_lt.mp hover) (by omega)] at hmore
    omega
  rw [admitLocked_evicting hbudget hdelta hmore hpolicy] at hrefused ⊢
  obtain ⟨vs, hvs, -, hstop⟩ := evictLocked_evicted h.toLinkedInv (s.evictTarget delta) protect
  have hmem' := (hvs.kept ShardInv.maintained h).mem_bounds
  have hfreed := hvs.memBytes h
  have hcosts := sum_cost_nonneg s vs
  have hbudget' : (s.evictLocked (s.evictTarget delta) protect).2.budget = s.budget :=
    congrArg (fun c => c.2.1) hvs.removed.config
  have hleft := of_decide_eq_false hrefused
  rw [hbudget', int64_eq (by omega) (by omega), not_le] at hleft
  rcases hstop with htarget | hlen | hnone
  · refine .inr ?_
    by_contra hlow
    have hlow : s.lowWater ≤ s.budget ∧ -(2 ^ 63) ≤ s.lowWater - delta := by omega
    have hexact : int64 (s.lowWater - delta) = s.lowWater - delta :=
      int64_eq hlow.2 (by omega)
    unfold Shard.evictTarget at htarget hleft
    rw [hexact] at htarget hleft
    split_ifs at htarget hleft <;> omega
  · refine .inl ⟨vs.map fun e => (s.heap e).key, by rw [List.length_map, hlen], ?_⟩
    exact hvs.removed.onEvict
  · rw [hvs.memBytes_of_none h hnone] at hleft
    omega

/-- Under `allkeys-lru` every write that fits the budget is admitted, from every reachable shard,
    unless the call has evicted `batchMax` entries, or the low-water mark is above the budget or so
    far below zero that the target wraps around. -/
theorem fitting_write_admitted {sampleK batchMax : ℕ} {rng : Draws} {exactLRU : Bool}
    {policy : EvictPolicy}
    (hrun : Run stepShard (fun s a => a.Fits s) (newShard sampleK batchMax rng exactLRU policy) s)
    (hpolicy : s.policy = .allKeysLRU) (key value : Bytes) (expireAt nowMono : UInt64)
    (hcost : entryCost key.length value.length ≤ s.budget) :
    ((s.setLocked key value expireAt nowMono).1 = true ∧
        (s.setLocked key value expireAt nowMono).2.contents key = some (value, expireAt)) ∨
      (∃ ks : List Bytes, ks.length = s.batchMax ∧
        (s.setLocked key value expireAt nowMono).2.onEvict =
          s.onEvict ++ ks.map fun k => (k, EvictReason.evicted)) ∨
      s.budget < s.lowWater ∨ s.lowWater - s.growth key value < -(2 ^ 63) := by
  have hinv := shard_run_inv hrun
  have hkept := kept_allKeys hinv hpolicy key value
  obtain ⟨hres, hsame⟩ := setLocked_admitted s key value expireAt nowMono
  cases hok : (s.admitLocked (s.growth key value) key).1 with
  | true =>
    obtain ⟨ks, -, -, heff⟩ := setLocked_effect hinv.toKeyInv key value expireAt nowMono
    refine .inl ⟨hres.trans hok, ?_⟩
    rw [heff.contents, if_pos (hres.trans hok)]
    exact Function.update_self ..
  | false =>
    rw [hok, if_neg (by decide)] at hsame
    rw [hsame]
    exact .inr (admitLocked_refused hinv (by rw [hpolicy]; decide) (hkept ▸ hcost) hok)

/-- A shard with room for one small entry, which it has. -/
def fullShard (policy : EvictPolicy) : Shard :=
  ((newShard 5 64 (splitmix64 1) false policy).act (.limits 200 150)).act (.set [1] [2] 0 3)

theorem fullShard_reached (policy : EvictPolicy) :
    Run stepShard (fun s a => a.Fits s) (newShard 5 64 (splitmix64 1) false policy)
      (fullShard policy) := by
  refine (Run.refl.tail (.limits 200 150) trivial rfl).tail (.set [1] [2] 0 3) ⟨by decide, ?_⟩ rfl
  cases policy <;> decide

/-- The write evicts the entry, and the batch is not used up. -/
theorem fitting_write_admitted_evicting :
    (((fullShard .allKeysLRU).setLocked [4] [5] 9 6).1 = true ∧
        ((fullShard .allKeysLRU).setLocked [4] [5] 9 6).2.contents [4] = some ([5], 9)) ∧
      ((fullShard .allKeysLRU).setLocked [4] [5] 9 6).2.onEvict = [([1], .evicted)] := by
  have hone : ((fullShard .allKeysLRU).setLocked [4] [5] 9 6).2.onEvict = [([1], .evicted)] := by
    decide
  refine ⟨?_, hone⟩
  rcases fitting_write_admitted (fullShard_reached .allKeysLRU) rfl [4] [5] 9 6 (by decide) with
    hok | ⟨ks, hlen, hfired⟩ | hlow | hlow
  · exact hok
  · have hcount := congrArg List.length (hfired.symm.trans hone)
    rw [List.length_append, List.length_map, hlen] at hcount
    exact absurd hcount (by decide)
  · exact absurd hlow (by decide)
  · exact absurd hlow (by decide)

/-- A shard that accounts for bytes although it has no entries refuses what does not fit next to
    them. -/
theorem setLocked_empty (hitems : s.slots.items = []) (hpolicy : s.policy = .allKeysLRU)
    (hexact : s.exactLRU = false) (hlook : s.entries.lookup key = none) (hbudget : 0 < s.budget)
    (hfull : s.budget < int64 (s.memBytes + entryCost key.length value.length))
    (expireAt nowMono : UInt64) : (s.setLocked key value expireAt nowMono).1 = false := by
  have hgrowth : s.growth key value = entryCost key.length value.length := by
    unfold Shard.growth
    rw [hlook]
    exact sub_zero _
  have hpick : s.pickVictimLocked key = (none, s) := by
    have hpool : s.pool.length = 0 := by
      unfold Shard.pool
      rw [if_neg (by rw [hpolicy]; decide), hitems]
      rfl
    unfold Shard.pickVictimLocked
    rw [if_neg (by rw [hexact]; decide), if_pos hpool]
  have hevict : ∀ target, (s.evictLocked target key).2 = s := by
    intro target
    unfold Shard.evictLocked
    rw [hpolicy, if_neg (by decide)]
    cases s.batchMax with
    | zero => rfl
    | succ n =>
      rw [Shard.evictLoop, hpick]
      split_ifs <;> rfl
  rw [(setLocked_admitted s key value expireAt nowMono).1, hgrowth,
    admitLocked_evicting hbudget (entryCost_pos _ _) hfull (by rw [hpolicy]; decide), hevict]
  exact decide_eq_false (not_le.mpr hfull)

/-- The cost of an entry that does not fit `size` is subtracted modulo `2^32` when the entry goes. -/
theorem large_entry_deleted :
    ∃ s, Run stepShard (fun s a => a.Counted s) (newShard 5 64 (splitmix64 1) false .allKeysLRU) s ∧
      s.policy = .allKeysLRU ∧ s.exactLRU = false ∧ s.memBytes = 2 ^ 32 ∧ s.slots.items = [] ∧
      s.entries.lookup [9] = none := by
  obtain ⟨large, hlarge⟩ : ∃ large : Bytes, large.length = 2 ^ 32 :=
    ⟨List.replicate (2 ^ 32) 0, List.length_replicate⟩
  obtain ⟨new, hnew⟩ : ∃ new, new = newShard 5 64 (splitmix64 1) false .allKeysLRU := ⟨_, rfl⟩
  have hcost : entryCost ([1] : Bytes).length large.length = 2 ^ 32 + 161 := by
    rw [hlarge]; rfl
  have hset : new.act (.set [1] large 0 1) = new.insert [1] large 0 1 (2 ^ 32 + 161) := by
    rw [← hcost, hnew]
    rfl
  have hdel : (new.act (.set [1] large 0 1)).act (.del [1]) =
      (new.insert [1] large 0 1 (2 ^ 32 + 161)).removeEntryLocked 0 := by
    rw [hset, hnew]
    rfl
  have hcount : (new.act (.set [1] large 0 1)).entries.keys.length < 2 ^ 31 := by
    rw [hset, hnew]
    exact Nat.one_lt_two_pow (by decide)
  rw [← hnew]
  refine ⟨_, (Run.refl.tail (.set [1] large 0 1) hcount rfl).tail (.del [1]) trivial rfl, ?_⟩
  rw [hdel, removeEntryLocked_eq, insert_eq, hnew]
  refine ⟨rfl, rfl, ?_, rfl, rfl⟩
  show int64 (int64 (0 + (2 ^ 32 + 161)) - (uint32 (2 ^ 32 + 161) : ℕ)) = 2 ^ 32
  decide +kernel

/-- Four ways to refuse a write that fits the budget. A batch is one entry, and two would have to
    go; the low-water mark is above the budget; the low-water mark is the least `int64`; an entry of
    more than `2^32` bytes was stored and deleted. -/
theorem fitting_write_refused :
    (∃ s, Run stepShard (fun s a => a.Fits s) (newShard 5 1 (splitmix64 1) false .allKeysLRU) s ∧
      s.policy = .allKeysLRU ∧ 0 < s.budget ∧ (0 ≤ s.lowWater ∧ s.lowWater ≤ s.budget) ∧
      entryCost ([9] : Bytes).length (List.replicate 300 (0 : UInt8)).length ≤ s.budget ∧
      (s.setLocked [9] (List.replicate 300 0) 0 9).1 = false) ∧
    (∃ s, Run stepShard (fun s a => a.Fits s) (newShard 5 64 (splitmix64 1) false .allKeysLRU) s ∧
      s.policy = .allKeysLRU ∧ 0 < s.budget ∧ s.budget < s.lowWater ∧
      entryCost ([9] : Bytes).length ([] : Bytes).length ≤ s.budget ∧
      (s.setLocked [9] [] 0 9).1 = false) ∧
    (∃ s, Run stepShard (fun s a => a.Fits s) (newShard 5 64 (splitmix64 1) false .allKeysLRU) s ∧
      s.policy = .allKeysLRU ∧ 0 < s.budget ∧ s.lowWater = -(2 ^ 63) ∧
      entryCost ([9] : Bytes).length ([] : Bytes).length ≤ s.budget ∧
      (s.setLocked [9] [] 0 9).1 = false) ∧
    ∃ s, Run stepShard (fun s a => a.Counted s) (newShard 5 64 (splitmix64 1) false .allKeysLRU) s ∧
      s.policy = .allKeysLRU ∧ 0 < s.budget ∧ (0 ≤ s.lowWater ∧ s.lowWater ≤ s.budget) ∧
      s.slots.items = [] ∧ entryCost ([9] : Bytes).length ([] : Bytes).length ≤ s.budget ∧
      (s.setLocked [9] [] 0 9).1 = false := by
  refine ⟨?_, ?_, ?_, ?_⟩
  · exact Run.exists_of_guarded stepShard (fun s a => a.Fits s)
      (newShard 5 1 (splitmix64 1) false .allKeysLRU)
      [.limits 700 650, .set [1] [] 0 1, .set [2] [] 0 2, .set [3] [] 0 3, .set [4] [] 0 4] _
      (by decide +kernel)
  · exact Run.exists_of_guarded stepShard (fun s a => a.Fits s)
      (newShard 5 64 (splitmix64 1) false .allKeysLRU)
      [.limits 400 500, .set [1] [] 0 1, .set [2] [] 0 2] _ (by decide +kernel)
  · exact Run.exists_of_guarded stepShard (fun s a => a.Fits s)
      (newShard 5 64 (splitmix64 1) false .allKeysLRU)
      [.limits 400 (-(2 ^ 63)), .set [1] [] 0 1, .set [2] [] 0 2] _ (by decide +kernel)
  · obtain ⟨s, hrun, hpolicy, hexact, hmem, hitems, hlook⟩ := large_entry_deleted
    have hfull : (1000 : ℤ) < int64 (s.memBytes +
        entryCost ([9] : Bytes).length ([] : Bytes).length) := by
      rw [hmem]
      decide +kernel
    have hrefused :
        (Shard.setLocked { s with budget := 1000, lowWater := 900 } [9] [] 0 9).1 = false :=
      setLocked_empty (s := { s with budget := 1000, lowWater := 900 }) hitems hpolicy hexact hlook
        (show (0 : ℤ) < 1000 by norm_num) hfull 0 9
    exact ⟨_, hrun.tail (.limits 1000 900) trivial rfl, hpolicy, show (0 : ℤ) < 1000 by norm_num,
      show (0 : ℤ) ≤ 900 ∧ (900 : ℤ) ≤ 1000 by norm_num, hitems, show (161 : ℤ) ≤ 1000 by norm_num,
      hrefused⟩

end AllKeys

end KvStore
