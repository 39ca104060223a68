import KvStore.Store.Admission
import KvStore.Store.Upkeep

/-!
# The memory limit

`New` divides the limit among the shards, and a write is admitted against the budget of its shard.

* `memory_limit_kept`: in every run from `New` in which no shard has `2^31` entries or more, each
  shard stays within its budget, and the whole store within the limit.
* `memory_below_zero`: with more entries the accounted size can become negative.
-/

namespace KvStore

open KvStore.Common

/-! ## One shard -/

/-- The shard has this budget and is within it. -/
structure Shard.Within (budget : ℤ) (sh : Shard) : Prop where
  inv : ShardInv sh
  budget_eq : sh.budget = budget
  le : sh.memBytes ≤ budget

section Shard

variable {s s' : Shard} {budget : ℤ} {reason : EvictReason} {ks : List Bytes} {nowMs : UInt64}

/-- With fewer entries, none of which has another cost, the accounted size is not larger. -/
theorem ShardInv.memBytes_le (h : ShardInv s) (h' : ShardInv s')
    (hsub : ∀ e ∈ s'.slots.items, e ∈ s.slots.items)
    (hcost : ∀ e ∈ s'.slots.items, s'.cost e = s.cost e) : s'.memBytes ≤ s.memBytes := by
  obtain ⟨l, hperm, hl⟩ := h'.slots.nodup.subperm hsub
  rw [h.mem, h'.mem, List.map_congr_left hcost, ← (hperm.map s.cost).sum_eq]
  refine (hl.map s.cost).sum_le_sum fun c hc => ?_
  obtain ⟨e, -, rfl⟩ := List.mem_map.mp hc
  exact (entryCost_pos _ _).le

/-- What the store removes by itself makes room. -/
theorem Shard.Within.removed (h : s.Within budget) (hr : Removed reason s s' ks)
    (hinv : ShardInv s') : s'.Within budget := by
  refine ⟨hinv, (congrArg (fun c => c.2.1) hr.config).trans h.budget_eq, le_trans ?_ h.le⟩
  refine h.inv.memBytes_le hinv (fun e he => ?_) (fun e _ => ?_)
  · have hlook := hinv.lookup_of_mem he
    rw [hr.lookup, hr.heap] at hlook
    split_ifs at hlook
    exact h.inv.mem_of_lookup hlook
  · rw [Shard.cost, Shard.cost, hr.heap]

theorem Shard.Within.removesExpired (h : s.Within budget) (hr : RemovesExpired nowMs s s') :
    s'.Within budget := by
  obtain ⟨ks, hks, -, hinv⟩ := hr
  exact h.removed hks (hinv ShardInv.maintained h.inv)

theorem Shard.Within.evicts (h : s.Within budget) {protect : Bytes} (hr : Evicts protect s s') :
    s'.Within budget := by
  obtain ⟨ks, hks, -, -, hinv⟩ := hr
  exact h.removed hks (hinv ShardInv.maintained h.inv)

theorem Shard.Within.removeEntryLocked (h : s.Within budget) {e : Ptr} (he : e ∈ s.slots.items) :
    (s.removeEntryLocked e).Within budget := by
  have hinv := removeEntryLocked_inv h.inv he
  refine ⟨hinv, ?_, le_trans (h.inv.memBytes_le hinv (fun b hb => ?_) fun b _ => ?_) h.le⟩
  · rw [removeEntryLocked_eq]
    exact h.budget_eq
  · rw [removeEntryLocked_eq] at hb
    exact ((h.inv.slots.mem_remove he).mp hb).1
  · rw [removeEntryLocked_eq]
    rfl

theorem Shard.Within.getLocked (h : s.Within budget) (key : Bytes) (nowMs nowMono : UInt64) :
    (s.getLocked key nowMs nowMono).2.2.Within budget := by
  refine ⟨ShardInv.maintained.getLocked h.inv key nowMs nowMono, ?_, ?_⟩
  · unfold Shard.getLocked
    split
    · exact h.budget_eq
    · split_ifs <;> exact h.budget_eq
  · unfold Shard.getLocked
    split
    · exact h.le
    · split_ifs <;> exact h.le

theorem Shard.Within.txnDelete (h : s.Within budget) (key : Bytes) (nowMs : UInt64) :
    (s.txnDelete key nowMs).2.Within budget := by
  unfold Shard.txnDelete Shard.delLocked
  cases hlook : s.entries.lookup key with
  | none => exact h
  | some e =>
    have hremove := h.removeEntryLocked (h.inv.mem_of_lookup hlook)
    dsimp only
    split_ifs <;> exact hremove

theorem Shard.Within.txnExpire (h : s.Within budget) (key : Bytes) (expireAt nowMs : UInt64) :
    (s.txnExpire key expireAt nowMs).2.Within budget := by
  unfold Shard.txnExpire
  cases hlook : s.entries.lookup key with
  | none =>
    rw [Shard.expireLocked, hlook]
    exact h
  | some e =>
    dsimp only
    split_ifs
    · exact h.removesExpired (reapLocked_removesExpired s key nowMs)
    · have hinv := ShardInv.maintained.expireLocked h.inv key expireAt
      rw [Shard.expireLocked, hlook] at hinv ⊢
      dsimp only at hinv ⊢
      have heq := h.inv.setDeadline_eq (h.inv.mem_of_lookup hlook) expireAt
      rw [heq] at hinv ⊢
      exact ⟨hinv, h.budget_eq, h.le⟩

theorem Shard.Within.flushLocked (h : s.Within budget) : s.flushLocked.Within budget :=
  ⟨ShardInv.maintained.flushLocked s, h.budget_eq, h.inv.mem_bounds.1.trans h.le⟩

theorem Shard.Within.evictToLimit (h : s.Within budget) : s.evictToLimit.2.Within budget := by
  unfold Shard.evictToLimit
  split_ifs
  · exact h
  · exact h.evicts (evictLocked_evicts s s.lowWater [])

/-- An admitted write fits the budget when it is made. -/
theorem admitLocked_room {delta : ℤ} {protect : Bytes} (hpos : 0 < s.budget)
    (hok : (s.admitLocked delta protect).1 = true) :
    delta ≤ 0 ∨ int64 ((s.admitLocked delta protect).2.memBytes + delta) ≤
      (s.admitLocked delta protect).2.budget := by
  unfold Shard.admitLocked at hok ⊢
  split_ifs at hok ⊢ with hfree hfits
  · exact .inl (hfree.resolve_left (not_le.mpr hpos))
  · exact .inr hfits
  · exact .inr (of_decide_eq_true hok)

/-- A write shrinks the shard by less than the size of an entry. -/
theorem neg_le_growth (h : ShardInv s) (key value : Bytes) : -(2 ^ 32) ≤ s.growth key value := by
  have hpos := entryCost_pos key.length value.length
  unfold Shard.growth
  cases hlook : s.entries.lookup key with
  | none => dsimp only; omega
  | some old =>
    have hold := h.mem_of_lookup hlook
    have hsize := h.size old hold
    have hlt := h.cost_lt old hold
    dsimp only
    omega

theorem Shard.Within.setLocked (h : s.Within budget) (hpos : 0 < budget) (key value : Bytes)
    (expireAt nowMono : UInt64) (hcost : entryCost key.length value.length < 2 ^ 32)
    (hcount : (s.setLocked key value expireAt nowMono).2.entries.keys.length < 2 ^ 31) :
    (s.setLocked key value expireAt nowMono).2.Within budget := by
  have hinv := ShardInv.maintained.setLocked h.inv key value expireAt nowMono hcost hcount
  have hm := h.evicts (admitLocked_evicts s (s.growth key value) key)
  obtain ⟨-, hres⟩ := setLocked_admitted s key value expireAt nowMono
  split_ifs at hres with hok
  · obtain ⟨hbudget, hmem⟩ := hres
    refine ⟨hinv, hbudget.trans hm.budget_eq, ?_⟩
    rw [hmem]
    rcases admitLocked_room (h.budget_eq ▸ hpos) hok with hle | hle
    · -- a write that does not grow the shard stays within the budget it was within
      have hbounds := hm.inv.mem_bounds
      have hgrowth := neg_le_growth h.inv key value
      rw [int64_eq (by omega) (by omega)]
      exact (add_le_of_nonpos_right hle).trans hm.le
    · rwa [hm.budget_eq] at hle
  · rw [hres]
    exact hm

end Shard

/-! ## The store -/

/-- `MemoryBytes` (store.go lines 488–494). -/
def Store.memoryBytes (s : Store) : ℤ :=
  (List.range s.shardCount).foldl (fun n i => int64 (n + (s.shards i).memBytes)) 0

/-- Every shard has this budget and is within it. -/
structure Store.Within (n : ℕ) (budget : ℤ) (s : Store) : Prop where
  count : s.shardCount = n
  shard : ∀ i, (s.shards i).Within budget

section Store

variable {s : Store} {n : ℕ} {budget : ℤ}

theorem Shard.Within.upkeep {sh sh' : Shard} (h : sh.Within budget) (hup : sh.Upkeep sh') :
    sh'.Within budget := by
  cases hup with
  | read key now mono => exact h.getLocked key now mono
  | removesExpired now hr => exact h.removesExpired hr
  | delete key now => exact h.txnDelete key now
  | expire key expireAt now => exact h.txnExpire key expireAt now
  | evictToLimit => exact h.evictToLimit
  | flush => exact h.flushLocked
  | draws rng => exact ⟨ShardInv.maintained.of_rng h.inv rng, h.budget_eq, h.le⟩

theorem Store.Within.act (h : s.Within n budget) (hpos : 0 < budget) (a : StoreAction)
    (ha : a.Fits s) : (s.act a).Within n budget := by
  have hall : (s.act a).All (fun _ => Shard.Within budget) s := by
    refine Store.act_all (fun _ _ _ hsh hup => hsh.upkeep hup) h.shard a ?_
    rintro key value expireAt mono rfl
    exact (h.shard _).setLocked hpos key value expireAt mono ha.1 ha.2
  exact ⟨hall.count.trans h.count, hall.shard⟩

theorem newStore_within (opts : Options) (newSeed : UInt64) (wheel : Option Wheel)
    (hlimit : 0 < opts.maxMemory) :
    Store.Within (opts.withDefaults newSeed).shards
      (max 1 (opts.maxMemory.tdiv (opts.withDefaults newSeed).shards))
      { newStore opts newSeed with wheel := wheel } := by
  refine ⟨rfl, fun i => ?_⟩
  unfold newStore
  dsimp only
  rw [withDefaults_maxMemory, if_pos hlimit]
  exact ⟨ShardInv.maintained.of_limits (ShardInv.maintained.newShard _ _ _ _ _) _ _, rfl,
    zero_le_one.trans (le_max_left _ _)⟩

/-! ## The sum over the shards -/

/-- Sizes that do not overflow together. -/
theorem foldl_int64 {f : ℕ → ℤ} {l : List ℕ} {a : ℤ} (hf : ∀ i ∈ l, 0 ≤ f i) (ha : 0 ≤ a)
    (hlt : a + (l.map f).sum < 2 ^ 63) :
    l.foldl (fun n i => int64 (n + f i)) a = a + (l.map f).sum := by
  induction l generalizing a with
  | nil => simp
  | cons i l ih =>
    obtain ⟨hi, hl⟩ := List.forall_mem_cons.mp hf
    have hrest : 0 ≤ (l.map f).sum := List.sum_nonneg fun x hx => by
      obtain ⟨j, hj, rfl⟩ := List.mem_map.mp hx
      exact hl j hj
    rw [List.map_cons, List.sum_cons] at hlt ⊢
    rw [List.foldl_cons, int64_eq (by omega) (by omega), ih hl (by omega) (by omega)]
    ring

/-- An entry costs more than one byte. -/
theorem Shard.Within.empty {sh : Shard} (h : sh.Within 1) : sh.memBytes = 0 := by
  have hle := h.le
  rw [h.inv.mem] at hle ⊢
  cases hitems : sh.slots.items with
  | nil => rfl
  | cons e l =>
    rw [hitems, List.map_cons, List.sum_cons] at hle
    have hrest := sum_cost_nonneg sh l
    have hcost : 160 ≤ sh.cost e := by
      unfold Shard.cost entryCost entryStructSize mapOverhead
      omega
    omega

/-- A store of which every shard is within the budget that `New` gave it is within the limit. -/
theorem Store.Within.memoryBytes_le {maxMemory : ℤ} (hlimit : 0 < maxMemory)
    (h : s.Within n (max 1 (maxMemory.tdiv n))) : s.memoryBytes ≤ maxMemory := by
  have hsum : ((List.range n).map fun i => (s.shards i).memBytes).sum ≤ maxMemory := by
    by_cases hn : (n : ℤ) ≤ maxMemory
    · have hle : ((List.range n).map fun i => (s.shards i).memBytes).sum ≤
          n • (max 1 (maxMemory.tdiv n)) := by
        have hcard := List.sum_le_card_nsmul ((List.range n).map fun i => (s.shards i).memBytes)
          (max 1 (maxMemory.tdiv n)) fun x hx => by
            obtain ⟨i, -, rfl⟩ := List.mem_map.mp hx
            exact (h.shard i).le
        rwa [List.length_map, List.length_range] at hcard
      rcases Nat.eq_zero_or_pos n with rfl | hpos
      · simpa using hlimit.le
      · have hdiv : 1 ≤ maxMemory.tdiv n := by
          rw [Int.tdiv_eq_ediv_of_nonneg hlimit.le]
          exact (Int.le_ediv_iff_mul_le (by exact_mod_cast hpos)).mpr (by omega)
        rw [max_eq_right hdiv, nsmul_eq_mul, Int.tdiv_eq_ediv_of_nonneg hlimit.le] at hle
        exact hle.trans (Int.mul_ediv_self_le (by omega))
    · -- more shards than bytes: no shard has room for an entry
      have hbudget : max 1 (maxMemory.tdiv n) = 1 := by
        rw [Int.tdiv_eq_ediv_of_nonneg hlimit.le, Int.ediv_eq_zero_of_lt hlimit.le (not_le.mp hn)]
        rfl
      rw [hbudget] at h
      have hzero : ∀ x ∈ (List.range n).map fun i => (s.shards i).memBytes, x = 0 := by
        intro x hx
        obtain ⟨i, -, rfl⟩ := List.mem_map.mp hx
        exact (h.shard i).empty
      rw [List.sum_eq_zero hzero]
      exact hlimit.le
  unfold Store.memoryBytes
  rw [h.count]
  by_cases hbig : maxMemory < 2 ^ 63
  · rw [foldl_int64 (fun i _ => (h.shard i).inv.mem_bounds.1) le_rfl (by omega)]
    omega
  · refine le_trans (le_of_lt ?_) (not_lt.mp hbig)
    rcases List.eq_nil_or_concat (List.range n) with hnil | ⟨l, i, hl⟩
    · rw [hnil]
      exact (by norm_num : (0 : ℤ) < 2 ^ 63)
    · rw [hl, List.concat_eq_append, List.foldl_append]
      exact int64_lt _

/-- In every run from `New` with a memory limit, whatever the policy, the low-water mark, the
    number of shards, the batch size and the draws: each shard has the budget that `New` gave it
    and is within it, and `MemoryBytes` is within the limit. -/
theorem memory_limit_kept (opts : Options) (newSeed : UInt64) (wheel : Option Wheel)
    (hlimit : 0 < opts.maxMemory) {s : Store}
    (hrun : Run Store.step (fun s a => a.Fits s) { newStore opts newSeed with wheel := wheel } s) :
    (∀ i, (s.shards i).budget = ((newStore opts newSeed).shards i).budget ∧
      0 ≤ (s.shards i).memBytes ∧ (s.shards i).memBytes ≤ (s.shards i).budget) ∧
      s.memoryBytes ≤ opts.maxMemory := by
  have hnew := newStore_within opts newSeed wheel hlimit
  have hs : s.Within (opts.withDefaults newSeed).shards
      (max 1 (opts.maxMemory.tdiv (opts.withDefaults newSeed).shards)) := by
    refine hrun.invariant (fun s a t hs ha ht => ?_) hnew
    cases ht
    exact hs.act (lt_of_lt_of_le one_pos (le_max_left _ _)) a ha
  refine ⟨fun i => ⟨?_, (hs.shard i).inv.mem_bounds.1, ?_⟩, hs.memoryBytes_le hlimit⟩
  · exact (hs.shard i).budget_eq.trans (hnew.shard i).budget_eq.symm
  · exact (hs.shard i).budget_eq ▸ (hs.shard i).le

/-- Two writes to a store with room for one of them. -/
theorem memory_limit_kept_two :
    (((newStore { oneShard with maxMemory := 200, lowWater := 150 } 1).act
      (.set [1] [2] 0 3)).act (.set [4] [5] 9 6)).memoryBytes ≤ 200 :=
  (memory_limit_kept { oneShard with maxMemory := 200, lowWater := 150 } 1 none (by decide)
    ((Run.refl.tail (.set [1] [2] 0 3) (by exact ⟨by decide, by decide⟩) rfl).tail
      (.set [4] [5] 9 6) (by exact ⟨by decide, by decide⟩) rfl)).2

end Store

/-! ## Beyond the bound

The index of an entry in `ttlSlots` is an `int32`, too. The entry whose indices have wrapped around
stays there when it is purged, and its size is subtracted again by the next purge. -/

section Beyond

variable {sh : Shard} {n : ℕ} {now : UInt64}

/-- One shard, and a limit of `2^62` bytes. -/
def largeShard : Options := { oneShard with maxMemory := 2 ^ 62 }

theorem exists_loaded_store {deadline : ℕ → UInt64} (hd : ∀ j, deadline j ≠ 0) {n : ℕ}
    (hn : n < 2 ^ 40) :
    ∃ s, Run Store.step (fun _ a => a.Small) (newStore largeShard 1) s ∧ s.shardCount = 1 ∧
      (s.shards 0).budget = 2 ^ 62 ∧ (s.shards 0).Loaded deadline n := by
  induction n with
  | zero =>
    exact ⟨_, .refl, rfl, rfl, Shard.Loaded.of_limits (loaded_newShard deadline _ _ _ _ _) _ _⟩
  | succ n ih =>
    obtain ⟨s, hrun, hcount, hbudget, hs⟩ := ih (by omega)
    have hroute : s.shardFor (nthKey n) = 0 := if_pos hcount
    have hset := hs.setLocked_eq (by omega) (.inr (by rw [hbudget]; omega))
    have hact : ∃ w, s.act (.set (nthKey n) [] (deadline n) 0) =
        { s.put 0 ((s.shards 0).insert (nthKey n) [] (deadline n) 0 168) with wheel := w } := by
      show ∃ w, (s.set (nthKey n) [] (deadline n) 0).2 = _
      rw [set_eq, hroute, hset]
      exact fireTTL_eq _ _ _
    obtain ⟨w, hact⟩ := hact
    refine ⟨_, hrun.tail (.set (nthKey n) [] (deadline n) 0) ?_ rfl, ?_⟩
    · show entryCost (nthKey n).length 0 < 2 ^ 32
      rw [nthKey, length_putLE]
      decide
    · rw [hact]
      refine ⟨hcount, ?_, ?_⟩
      · show ((s.put 0 _).shards 0).budget = _
        rw [shards_put_self, insert_eq]
        exact hbudget
      · show Shard.Loaded deadline (n + 1) ((s.put 0 _).shards 0)
        rw [shards_put_self]
        exact hs.insert (by omega) (hd n)

/-- Of the entries in `ttlSlots` only the last one has expired, and its index has wrapped around. -/
structure Shard.Leaky (now : UInt64) (n : ℕ) (sh : Shard) : Prop where
  items : sh.ttlSlots.items = List.range (n + 1)
  pos : sh.ttlSlots.pos n < 0
  expired : (sh.heap n).expired now = true ∧ (sh.heap n).size = 168
  live : ∀ j < n, (sh.heap j).expired now = false

theorem purgeLoop_live (batch removed : ℕ) {j : ℕ} (hitems : sh.ttlSlots.items = List.range (n + 1))
    (hj : j ≤ n) (hlive : ∀ i < n, (sh.heap i).expired now = false) :
    Shard.purgeLoop now batch j sh removed = (removed, sh) := by
  induction j with
  | zero => rfl
  | succ j ih =>
    have hget : sh.ttlSlots.items[j]? = some j := by
      rw [hitems]
      exact List.getElem?_range (by omega)
    rw [Shard.purgeLoop, hget]
    dsimp only
    rw [hlive j (by omega), ih (by omega)]
    split_ifs with hmore hfalse
    · cases hfalse
    · rfl
    · rfl

theorem Shard.Leaky.purgeBatch (h : sh.Leaky now n) :
    sh.purgeBatch now = (1, sh.removeAndFire n .expired) ∧
      (sh.removeAndFire n .expired).Leaky now n ∧
      (sh.removeAndFire n .expired).memBytes = int64 (sh.memBytes - 168) := by
  have hheap : (sh.removeAndFire n .expired).heap = sh.heap :=
    (removeAndFire_removed sh n .expired).heap
  have httl : (sh.removeAndFire n .expired).ttlSlots = sh.ttlSlots.forget n := by
    unfold Shard.removeAndFire
    rw [removeEntryLocked_eq, SlotArray.remove_of_neg h.pos]
    rfl
  have hleaky : (sh.removeAndFire n .expired).Leaky now n := by
    refine ⟨?_, ?_, by rw [hheap]; exact h.expired, by rw [hheap]; exact h.live⟩
    · rw [httl]
      exact h.items
    · rw [httl, SlotArray.pos_forget_self]
      decide
  refine ⟨?_, hleaky, ?_⟩
  · have hget : sh.ttlSlots.items[n]? = some n := by
      rw [h.items]
      exact List.getElem?_range (Nat.lt_succ_self n)
    unfold Shard.purgeBatch
    rw [h.items, List.length_range, Shard.purgeLoop, if_pos (by decide), hget]
    dsimp only
    rw [if_pos h.expired.1]
    exact purgeLoop_live 1024 1 hleaky.items le_rfl hleaky.live
  · unfold Shard.removeAndFire
    rw [removeEntryLocked_eq]
    show int64 (sh.memBytes - (sh.heap n).size) = _
    rw [h.expired.2]
    rfl

/-- A purge removes the entry, whether or not it is in the map. -/
theorem Shard.Leaky.purgeExpired {s : Store} (hcount : s.shardCount = 1)
    (h : (s.shards 0).Leaky now n) :
    s.purgeExpired now = (1, s.put 0 ((s.shards 0).removeAndFire n .expired)) := by
  unfold Store.purgeExpired
  rw [hcount]
  show Store.purgeLoop now [0] s = _
  rw [Store.purgeLoop, Store.purgeShard, Store.purgeStep]
  simp only [withShard_fst, withShard_snd, h.purgeBatch.1]
  rfl

/-- Every purge subtracts the size of the entry. -/
theorem exists_purged {s : Store} (hcount : s.shardCount = 1) (h : (s.shards 0).Leaky now n)
    (hmem : 0 ≤ (s.shards 0).memBytes ∧ (s.shards 0).memBytes < 2 ^ 62) {m : ℕ} (hm : m < 2 ^ 40) :
    ∃ t, Run Store.step (fun _ a => a.Small) s t ∧ t.shardCount = 1 ∧ (t.shards 0).Leaky now n ∧
      (t.shards 0).memBytes = (s.shards 0).memBytes - 168 * m := by
  induction m with
  | zero => exact ⟨s, .refl, hcount, h, by simp⟩
  | succ m ih =>
    obtain ⟨t, hrun, htcount, ht, htmem⟩ := ih (by omega)
    obtain ⟨-, hleaky, hless⟩ := ht.purgeBatch
    have hact : t.act (.purge now) = t.put 0 ((t.shards 0).removeAndFire n .expired) := by
      show (t.purgeExpired now).2 = _
      rw [ht.purgeExpired htcount]
    refine ⟨_, hrun.tail (.purge now) trivial rfl, ?_⟩
    rw [hact]
    refine ⟨htcount, ?_, ?_⟩
    · rw [shards_put_self]
      exact hleaky
    · rw [shards_put_self, hless, htmem, int64_eq (by omega) (by omega)]
      push_cast
      ring

/-- `2^31 + 1` keys were written to one shard, the last with a deadline that has passed. -/
theorem exists_leaky_store :
    ∃ s, Run Store.step (fun _ a => a.Small) (newStore largeShard 1) s ∧ s.shardCount = 1 ∧
      (s.shards 0).memBytes = 168 * (2 ^ 31 + 1) ∧
      ((s.shards 0).heap (2 ^ 31)).key = nthKey (2 ^ 31) ∧ (s.shards 0).Leaky 5 (2 ^ 31) := by
  have hd : ∀ j : ℕ, (if j = 2 ^ 31 then (1 : UInt64) else 9) ≠ 0 := by
    intro j
    split_ifs <;> decide
  obtain ⟨s, hrun, hcount, -, hs⟩ := exists_loaded_store hd (show 2 ^ 31 + 1 < 2 ^ 40 by norm_num)
  obtain ⟨hkey, hexp, hsize⟩ := hs.heap (2 ^ 31) (by norm_num)
  refine ⟨s, hrun, hcount, hs.memBytes.trans (by norm_num), hkey, hs.ttlItems, ?_, ⟨?_, hsize⟩,
    fun j hj => ?_⟩
  · rw [hs.ttlPos _ (by norm_num)]
    decide
  · rw [Entry.expired, hexp, if_pos rfl]
    decide
  · obtain ⟨-, hexp, -⟩ := hs.heap j (by omega)
    rw [Entry.expired, hexp, if_neg (by omega)]
    decide

/-- Purging the entry often enough makes the accounted size negative. -/
theorem memory_below_zero :
    ∃ s, Run Store.step (fun _ a => a.Small) (newStore largeShard 1) s ∧
      (s.shards 0).memBytes < 0 := by
  obtain ⟨s, hrun, hcount, hmem, -, hleaky⟩ := exists_leaky_store
  obtain ⟨t, hpurged, -, -, htmem⟩ := exists_purged hcount hleaky
    (by rw [hmem]; norm_num) (show 2 ^ 31 + 2 < 2 ^ 40 by norm_num)
  refine ⟨t, hrun.trans hpurged, ?_⟩
  rw [htmem, hmem]
  norm_num

end Beyond

end KvStore
