import KvStore.Common.Run
import KvStore.Store.Removal

/-!
# The representation invariant of a shard along every run

`ShardAction` lists the operations that run under a shard's lock and `stepShard`
executes one. An invariant that is `Maintained` is kept by each of them, so it holds in
every state reached from `newShard`; `ShardRep` spells out what that of
`KvStore.Store.ShardInv` means for the five redundant structures of the shard.

* `Maintained.setLocked`, `Maintained.act`: the operations.
* `ShardInv.keys_perm`: the slots enumerate the keys of the map.
* `shard_reachable_rep`: every reachable shard satisfies `ShardRep`.
-/

namespace KvStore

open KvStore.Common

variable {s t : Shard} {e : Ptr}

/-! ## The remaining operations -/

section

variable {I : Shard → Prop} {fits : Bytes → Bytes → Prop} (hI : Maintained I fits)

include hI

/-- `setLocked` keeps what a write of this key and value keeps, when it leaves fewer than `2^31`
    entries. -/
theorem Maintained.setLocked (h : I s) (key value : Bytes) (expireAt nowMono : UInt64)
    (hfits : fits key value)
    (hcount : (s.setLocked key value expireAt nowMono).2.entries.keys.length < 2 ^ 31) :
    I (s.setLocked key value expireAt nowMono).2 := by
  obtain ⟨m, ⟨ks, hks, hkey, -, hinv⟩, -, hres⟩ := setLocked_cases s key value expireAt nowMono
  have hm := hinv hI h
  have hindex := hI.index hm
  have hlook := hks.lookup key
  rw [if_neg hkey] at hlook
  rcases hres with ⟨-, hres⟩ | ⟨old, hold, hres⟩ | ⟨hnew, hres⟩ <;> rw [hres] at hcount ⊢
  · exact hm
  · have hmem := hindex.mem_of_lookup (hlook.trans hold)
    obtain rfl := hindex.key (hlook.trans hold)
    rw [← hks.heap]
    exact hI.overwrite hm hmem value expireAt nowMono hfits
  · have hfree : m.entries.lookup key = none := hlook.trans hnew
    refine hI.insert hm hfree expireAt nowMono hfits ?_
    rw [insert_eq] at hcount
    rw [hindex.length_slots]
    rwa [length_keys_insert (AList.lookup_eq_none.mp hfree)] at hcount

theorem Maintained.evictLocked (h : I s) (target : ℤ) (protect : Bytes) :
    I (s.evictLocked target protect).2 := by
  obtain ⟨_, _, _, _, hinv⟩ := evictLocked_evicts s target protect
  exact hinv hI h

theorem Maintained.removesExpired {nowMs : UInt64} (h : I s) (hr : RemovesExpired nowMs s t) :
    I t := by
  obtain ⟨_, _, _, hinv⟩ := hr
  exact hinv hI h

end

/-! ## Runs -/

/-- What can happen under the lock of one shard. -/
inductive ShardAction
  | get (key : Bytes) (nowMs nowMono : UInt64)
  | set (key value : Bytes) (expireAt nowMono : UInt64)
  | del (key : Bytes)
  | expire (key : Bytes) (expireAt : UInt64)
  | reap (key : Bytes) (nowMs : UInt64)
  | sweep (nowMs : UInt64) (sample : ℕ)
  | purge (nowMs : UInt64)
  | evict (target : ℤ) (protect : Bytes)
  | wheel (key : Bytes) (timerExpireAt nowMs : UInt64)
  | flush
  | limits (budget lowWater : ℤ)

/-- The shard after an action. -/
def Shard.act (s : Shard) : ShardAction → Shard
  | .get key nowMs nowMono => (s.getLocked key nowMs nowMono).2.2
  | .set key value expireAt nowMono => (s.setLocked key value expireAt nowMono).2
  | .del key => (s.delLocked key).2
  | .expire key expireAt => (s.expireLocked key expireAt).2
  | .reap key nowMs => (s.reapLocked key nowMs).2
  | .sweep nowMs sample => (s.sweepLocked nowMs sample).2
  | .purge nowMs => (s.purgeBatch nowMs).2
  | .evict target protect => (s.evictLocked target protect).2
  | .wheel key timerExpireAt nowMs => (s.wheelRemove key timerExpireAt nowMs).2
  | .flush => s.flushLocked
  | .limits budget lowWater => { s with budget := budget, lowWater := lowWater }

/-- Every operation is enabled in every state. -/
def stepShard (s : Shard) (a : ShardAction) : Option Shard := some (s.act a)

/-- A write leaves a number of entries that fits `slot`. -/
def ShardAction.Counted (s : Shard) : ShardAction → Prop
  | .set key value expireAt nowMono =>
    (s.act (.set key value expireAt nowMono)).entries.keys.length < 2 ^ 31
  | _ => True

/-- The bounds under which the machine integers of the shard are exact: an entry
    cost fits `size`, and the number of entries fits `slot`. -/
def ShardAction.Fits (s : Shard) : ShardAction → Prop
  | .set key value expireAt nowMono =>
    entryCost key.length value.length < 2 ^ 32 ∧
      (s.act (.set key value expireAt nowMono)).entries.keys.length < 2 ^ 31
  | _ => True

instance ShardAction.decidableCounted (s : Shard) (a : ShardAction) : Decidable (a.Counted s) :=
  match a with
  | .set .. => inferInstanceAs (Decidable (_ < _))
  | .get .. | .del .. | .expire .. | .reap .. | .sweep .. | .purge .. | .evict .. | .wheel ..
  | .flush | .limits .. => inferInstanceAs (Decidable True)

instance ShardAction.decidableFits (s : Shard) (a : ShardAction) : Decidable (a.Fits s) :=
  match a with
  | .set .. => inferInstanceAs (Decidable (_ ∧ _))
  | .get .. | .del .. | .expire .. | .reap .. | .sweep .. | .purge .. | .evict .. | .wheel ..
  | .flush | .limits .. => inferInstanceAs (Decidable True)

theorem Maintained.act {I : Shard → Prop} {fits : Bytes → Bytes → Prop} (hI : Maintained I fits)
    (h : I s) (a : ShardAction) (ha : a.Counted s)
    (hfits : ∀ key value expireAt nowMono, a = .set key value expireAt nowMono → fits key value) :
    I (s.act a) := by
  cases a with
  | get key nowMs nowMono => exact hI.getLocked h key nowMs nowMono
  | set key value expireAt nowMono =>
    exact hI.setLocked h key value expireAt nowMono (hfits key value expireAt nowMono rfl) ha
  | del key => exact hI.delLocked h key
  | expire key expireAt => exact hI.expireLocked h key expireAt
  | reap key nowMs => exact hI.removesExpired h (reapLocked_removesExpired s key nowMs)
  | sweep nowMs sample => exact hI.removesExpired h (sweepLocked_removesExpired s nowMs sample)
  | purge nowMs => exact hI.removesExpired h (purgeLoop_removesExpired nowMs 1024 _ s 0)
  | evict target protect => exact hI.evictLocked h target protect
  | wheel key timerExpireAt nowMs =>
    exact hI.removesExpired h (wheelRemove_removesExpired s key timerExpireAt nowMs)
  | flush => exact hI.flushLocked s
  | limits budget lowWater => exact hI.of_limits h budget lowWater

/-- The index and the list are right in every state reached from `newShard` with fewer than `2^31`
    entries. -/
theorem shard_run_linked {sampleK batchMax : ℕ} {rng : Draws} {exactLRU : Bool}
    {policy : EvictPolicy}
    (h : Run stepShard (fun s a => a.Counted s) (newShard sampleK batchMax rng exactLRU policy) s) :
    LinkedInv s := by
  refine h.invariant (fun s a t hs ha ht => ?_) (LinkedInv.maintained.newShard ..)
  cases ht
  exact LinkedInv.maintained.act hs a ha fun _ _ _ _ _ => trivial

/-- The invariant holds in every state reached from `newShard`. -/
theorem shard_run_inv {sampleK batchMax : ℕ} {rng : Draws} {exactLRU : Bool}
    {policy : EvictPolicy}
    (h : Run stepShard (fun s a => a.Fits s) (newShard sampleK batchMax rng exactLRU policy) s) :
    ShardInv s := by
  refine h.invariant (fun s a t hs ha ht => ?_) (ShardInv.maintained.newShard ..)
  cases ht
  refine ShardInv.maintained.act hs a ?_ ?_
  · cases a with
    | set key value expireAt nowMono => exact ha.2
    | _ => trivial
  · rintro key value expireAt nowMono rfl
    exact ha.1

/-! ## What the invariant says -/

/-- The entry `e` is in the map. -/
def Shard.Stored (s : Shard) (e : Ptr) : Prop := ∃ k, s.entries.lookup k = some e

/-- The five structures of a shard describe one set of entries. -/
structure ShardRep (s : Shard) : Prop where
  key : ∀ {k e}, s.entries.lookup k = some e → (s.heap e).key = k
  key_unique : ∀ {e e'}, s.Stored e → s.Stored e' → (s.heap e).key = (s.heap e').key → e = e'
  slots_nodup : s.slots.items.Nodup
  mem_slots : ∀ e, e ∈ s.slots.items ↔ s.Stored e
  slot : ∀ e, s.Stored e → ∃ i : ℕ, s.slots.pos e = i ∧ s.slots.items[i]? = some e
  ttl_nodup : s.ttlSlots.items.Nodup
  mem_ttl : ∀ e, e ∈ s.ttlSlots.items ↔ s.Stored e ∧ (s.heap e).expireAt ≠ 0
  ttlSlot : ∀ e, s.Stored e → (s.heap e).expireAt ≠ 0 →
    ∃ i : ℕ, s.ttlSlots.pos e = i ∧ s.ttlSlots.items[i]? = some e
  ttlSlot_none : ∀ e, s.Stored e → (s.heap e).expireAt = 0 → s.ttlSlots.pos e = -1
  memBytes : s.memBytes = (s.entries.entries.map fun p =>
    entryCost p.1.length (s.heap p.2).value.length).sum
  lru : s.exactLRU = true → ∃ l : List Ptr, l.Nodup ∧ (∀ e, e ∈ l ↔ s.Stored e) ∧
    Path s.lru.next s.lru.head l ∧ Path s.lru.prev s.lru.tail l.reverse

theorem ShardInv.mem_slots_iff (h : ShardInv s) (e : Ptr) : e ∈ s.slots.items ↔ s.Stored e := by
  constructor
  · intro he
    exact ⟨_, h.lookup_of_mem he⟩
  · rintro ⟨k, hk⟩
    exact h.mem_of_lookup hk

theorem ShardInv.memBytes_eq (h : ShardInv s) :
    s.memBytes = (s.entries.entries.map fun p =>
      entryCost p.1.length (s.heap p.2).value.length).sum := by
  have hcost : ∀ p ∈ s.entries.entries,
      s.cost p.2 = entryCost p.1.length (s.heap p.2).value.length := by
    intro p hp
    rw [Shard.cost, h.key (AList.mem_lookup_iff.mpr hp)]
  rw [h.mem, (h.slots_perm.map s.cost).sum_eq, List.map_map]
  exact congrArg List.sum (List.map_congr_left hcost)

theorem ShardInv.rep (h : ShardInv s) : ShardRep s where
  key := h.key
  key_unique := by
    rintro e e' ⟨k, hk⟩ ⟨k', hk'⟩ hkey
    rw [h.key hk, h.key hk'] at hkey
    subst hkey
    exact Option.some.inj (hk.symm.trans hk')
  slots_nodup := h.slots.nodup
  mem_slots := h.mem_slots_iff
  slot e he := by
    obtain ⟨i, -, h1, h2⟩ := h.slots.exists_pos ((h.mem_slots_iff e).mpr he)
    exact ⟨i, h1, h2⟩
  ttl_nodup := h.ttl.nodup
  mem_ttl e := by rw [h.mem_ttl, h.mem_slots_iff]
  ttlSlot e he hne := by
    obtain ⟨i, -, h1, h2⟩ := h.ttl.exists_pos ((h.mem_ttl e).mpr ⟨(h.mem_slots_iff e).mpr he, hne⟩)
    exact ⟨i, h1, h2⟩
  ttlSlot_none e he h0 := h.ttl_none e ((h.mem_slots_iff e).mpr he) h0
  memBytes := h.memBytes_eq
  lru hx := by
    obtain ⟨l, hl, hmem⟩ := h.lru hx
    exact ⟨l, hl.nodup, fun e => (hmem e).trans (h.mem_slots_iff e), hl.path_next, hl.path_prev⟩

/-- Every shard reached from `newShard`, whatever the policy, the draws and the order
    of operations, is represented consistently. -/
theorem shard_reachable_rep {sampleK batchMax : ℕ} {rng : Draws} {exactLRU : Bool}
    {policy : EvictPolicy}
    (h : Run stepShard (fun s a => a.Fits s) (newShard sampleK batchMax rng exactLRU policy) s) :
    ShardRep s :=
  (shard_run_inv h).rep

/-- Two writes to a shard with room for one entry: the second evicts the first. -/
theorem shard_evicting_rep :
    ShardRep ((((newShard 5 64 (splitmix64 1) true .allKeysLRU).act (.limits 200 150)).act
      (.set [1] [2] 0 3)).act (.set [4] [5] 9 6)) := by
  refine shard_reachable_rep ((((Run.refl.tail (.limits 200 150) trivial rfl).tail
    (.set [1] [2] 0 3) ⟨by decide, ?_⟩ rfl)).tail (.set [4] [5] 9 6) ⟨by decide, ?_⟩ rfl)
  · decide
  · decide

end KvStore
