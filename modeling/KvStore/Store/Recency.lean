import KvStore.Store.Eviction

/-!
# Exact LRU

With `exactLRU` the entries are in an intrusive list, which writes keep up to date. Reads stamp the
access time of an entry and leave it where it is.

* `exact_lru_victim`: as long as a read finds its key at the front of the list, the list is in the
  order of the last accesses, and the victim is the entry that was not accessed for the longest
  time.
* `read_entry_is_victim`: otherwise the entry read last can be the victim.
-/

namespace KvStore

open KvStore.Common

/-! ## Operations at increasing times -/

/-- A shard, and a bound on the monotonic readings so far. -/
structure Timed where
  shard : Shard
  clock : ℕ

/-- The operations on the keys of a shard, and what puts it under pressure. The read pass of `Get`,
    `Exists` and `TTL` is `read`, and `reap` the write pass that may follow. -/
inductive TimedAction
  | read (key : Bytes) (nowMs nowMono : UInt64)
  | reap (key : Bytes) (nowMs : UInt64)
  | set (key value : Bytes) (expireAt nowMono : UInt64)
  | delete (key : Bytes) (nowMs : UInt64)
  | limits (budget lowWater : ℤ)
  | evict (target : ℤ) (protect : Bytes)

/-- A step; the monotonic readings increase. -/
def Timed.step (t : Timed) : TimedAction → Option Timed
  | .read key nowMs nowMono =>
    if t.clock ≤ nowMono.toNat then
      some ⟨(t.shard.getLocked key nowMs nowMono).2.2, nowMono.toNat + 1⟩
    else none
  | .reap key nowMs => some { t with shard := (t.shard.reapLocked key nowMs).2 }
  | .set key value expireAt nowMono =>
    if t.clock ≤ nowMono.toNat then
      some ⟨(t.shard.setLocked key value expireAt nowMono).2, nowMono.toNat + 1⟩
    else none
  | .delete key nowMs => some { t with shard := (t.shard.txnDelete key nowMs).2 }
  | .limits budget lowWater =>
    some { t with shard := { t.shard with budget := budget, lowWater := lowWater } }
  | .evict target protect => some { t with shard := (t.shard.evictLocked target protect).2 }

/-- A read finds its key at the front of the list, if it finds it, and writes keep the bounds of the
    machine integers. -/
def TimedAction.AtFront (t : Timed) : TimedAction → Prop
  | .read key nowMs _ => ∀ e ∈ t.shard.entries.lookup key,
      (t.shard.heap e).expired nowMs = false → t.shard.lru.head = some e
  | .set key value expireAt nowMono =>
    entryCost key.length value.length < 2 ^ 32 ∧
      (t.shard.setLocked key value expireAt nowMono).2.entries.keys.length < 2 ^ 31
  | _ => True

/-! ## The order of the list -/

/-- The access times decrease along the list, and lie below `clock`. -/
structure Decreasing (heap : Ptr → Entry) (clock : ℕ) (l : List Ptr) : Prop where
  pairwise : l.Pairwise fun a b => (heap b).lastAccess.toNat < (heap a).lastAccess.toNat
  below : ∀ e ∈ l, (heap e).lastAccess.toNat < clock

section Order

variable {heap heap' : Ptr → Entry} {clock : ℕ} {l l' : List Ptr} {e : Ptr}

theorem Decreasing.sublist (h : Decreasing heap clock l) (hsub : l'.Sublist l) :
    Decreasing heap clock l' :=
  ⟨h.pairwise.sublist hsub, fun e he => h.below e (hsub.mem he)⟩

/-- An entry that was accessed at `now` comes to the front. -/
theorem Decreasing.cons (h : Decreasing heap clock l) {now : UInt64} (hnow : clock ≤ now.toNat)
    (he : (heap' e).lastAccess = now) (hsame : ∀ b ∈ l, heap' b = heap b) :
    Decreasing heap' (now.toNat + 1) (e :: l) := by
  have hbelow : ∀ b ∈ l, (heap' b).lastAccess.toNat < now.toNat := fun b hb => by
    rw [hsame b hb]
    exact lt_of_lt_of_le (h.below b hb) hnow
  refine ⟨List.pairwise_cons.mpr ⟨fun b hb => ?_, ?_⟩, ?_⟩
  · rw [he]
    exact hbelow b hb
  · refine h.pairwise.imp_of_mem fun {a b} ha hb hab => ?_
    rwa [hsame a ha, hsame b hb]
  · refine List.forall_mem_cons.mpr ⟨?_, fun b hb => (hbelow b hb).trans (Nat.lt_succ_self _)⟩
    rw [he]
    exact Nat.lt_succ_self _

theorem Decreasing.mono (h : Decreasing heap clock l) {clock' : ℕ} (hle : clock ≤ clock') :
    Decreasing heap clock' l :=
  ⟨h.pairwise, fun e he => lt_of_lt_of_le (h.below e he) hle⟩

end Order

/-- The list of a shard is in the order of the last accesses. -/
structure Shard.Ordered (clock : ℕ) (s : Shard) : Prop where
  inv : ShardInv s
  exact_ : s.exactLRU = true
  list : ∃ l, s.lru.Holds l ∧ (∀ e, e ∈ l ↔ e ∈ s.slots.items) ∧ Decreasing s.heap clock l

section Shard

variable {s : Shard} {clock : ℕ} {e : Ptr}

theorem Shard.Ordered.congr (h : s.Ordered clock) {t : Shard} (hinv : ShardInv t)
    (hexact : t.exactLRU = s.exactLRU) (hlru : t.lru = s.lru) (hslots : t.slots = s.slots)
    (hheap : t.heap = s.heap) : t.Ordered clock :=
  ⟨hinv, hexact.trans h.exact_, by rw [hlru, hslots, hheap]; exact h.list⟩

theorem Shard.Ordered.removeEntryLocked (h : s.Ordered clock) (he : e ∈ s.slots.items) :
    (s.removeEntryLocked e).Ordered clock := by
  obtain ⟨l, hl, hmem, hdec⟩ := h.list
  have hinv := removeEntryLocked_inv h.inv he
  rw [removeEntryLocked_eq, if_pos h.exact_] at hinv ⊢
  refine ⟨hinv, h.exact_, l.erase e, hl.remove ((hmem e).mpr he), fun b => ?_,
    hdec.sublist List.erase_sublist⟩
  rw [h.inv.slots.mem_remove he, hl.nodup.mem_erase_iff, hmem, and_comm]

theorem Shard.Ordered.removeAndFire (h : s.Ordered clock) (he : e ∈ s.slots.items)
    (reason : EvictReason) : (s.removeAndFire e reason).Ordered clock :=
  (h.removeEntryLocked he).congr (ShardInv.maintained.removeAndFire h.inv he _) rfl rfl rfl rfl

theorem Shard.Ordered.evictLoop (h : s.Ordered clock) (hp : s.policy ≠ .noEviction) (target : ℤ)
    (protect : Bytes) (n : ℕ) : (Shard.evictLoop target protect n s).2.Ordered clock := by
  induction n generalizing s with
  | zero => exact h
  | succ n ih =>
    rw [Shard.evictLoop]
    split_ifs
    · obtain ⟨rng, ⟨hpick, -⟩ | ⟨v, hv, -, hpick⟩⟩ := pickVictimLocked_cases h.inv.toLinkedInv hp protect
      · rw [hpick]
        exact h.congr (ShardInv.maintained.of_rng h.inv rng) rfl rfl rfl rfl
      · rw [hpick]
        have hdraw : Shard.Ordered clock { s with rng := rng } :=
          h.congr (ShardInv.maintained.of_rng h.inv rng) rfl rfl rfl rfl
        have hremoved := removeAndFire_removed { s with rng := rng } v .evicted
        have hpolicy : (Shard.removeAndFire { s with rng := rng } v .evicted).policy = s.policy :=
          congrArg (fun c => c.2.2.2.1) hremoved.config
        exact ih (hdraw.removeAndFire hv .evicted) (by rw [hpolicy]; exact hp)
    · exact h

theorem Shard.Ordered.evictLocked (h : s.Ordered clock) (target : ℤ) (protect : Bytes) :
    (s.evictLocked target protect).2.Ordered clock := by
  unfold Shard.evictLocked
  split_ifs with hp
  · exact h
  · exact h.evictLoop hp target protect s.batchMax

theorem Shard.Ordered.admitLocked (h : s.Ordered clock) (delta : ℤ) (protect : Bytes) :
    (s.admitLocked delta protect).2.Ordered clock := by
  unfold Shard.admitLocked
  split_ifs
  · exact h
  · exact h
  · exact h
  · exact h.evictLocked _ protect

theorem Shard.Ordered.later (h : s.Ordered clock) {clock' : ℕ} (hle : clock ≤ clock') :
    s.Ordered clock' := by
  obtain ⟨l, hl, hmem, hdec⟩ := h.list
  exact ⟨h.inv, h.exact_, l, hl, hmem, hdec.mono hle⟩

theorem Shard.Ordered.overwrite (h : s.Ordered clock) (he : e ∈ s.slots.items) (value : Bytes)
    (expireAt : UInt64) {nowMono : UInt64} (hnow : clock ≤ nowMono.toNat) {cost delta : ℤ}
    (hinv : ShardInv (s.overwrite e value expireAt nowMono cost delta)) :
    (s.overwrite e value expireAt nowMono cost delta).Ordered (nowMono.toNat + 1) := by
  obtain ⟨l, hl, hmem, hdec⟩ := h.list
  have hel := (hmem e).mpr he
  rw [h.inv.overwrite_eq he, if_pos h.exact_] at hinv ⊢
  refine ⟨hinv, h.exact_, e :: l.erase e, hl.moveToFront hel, fun b => ?_, ?_⟩
  · rw [List.mem_cons, hl.nodup.mem_erase_iff, ← hmem]
    by_cases hb : b = e
    · simp [hb, hel]
    · simp [hb]
  · refine (hdec.sublist List.erase_sublist).cons hnow ?_ fun b hb => ?_
    · show (Function.update s.heap e _ e).lastAccess = nowMono
      rw [Function.update_self]
    · exact Function.update_of_ne (hl.nodup.mem_erase_iff.mp hb).1 _ _

theorem Shard.Ordered.insert (h : s.Ordered clock) (key value : Bytes)
    (expireAt : UInt64) {nowMono : UInt64} (hnow : clock ≤ nowMono.toNat) {cost : ℤ}
    (hinv : ShardInv (s.insert key value expireAt nowMono cost)) :
    (s.insert key value expireAt nowMono cost).Ordered (nowMono.toNat + 1) := by
  obtain ⟨l, hl, hmem, hdec⟩ := h.list
  have hfresh : s.alloc ∉ l := fun hc => h.inv.alloc_not_mem ((hmem _).mp hc)
  rw [insert_eq, if_pos h.exact_] at hinv ⊢
  refine ⟨hinv, h.exact_, s.alloc :: l, hl.pushFront hfresh, fun b => ?_, ?_⟩
  · rw [List.mem_cons, SlotArray.items_push, SlotArray.items_forget, List.mem_append,
      List.mem_singleton, hmem, or_comm]
  · refine hdec.cons hnow ?_ fun b hb => ?_
    · show (Function.update s.heap s.alloc _ s.alloc).lastAccess = nowMono
      rw [Function.update_self]
    · exact Function.update_of_ne (ne_of_mem_of_not_mem hb hfresh) _ _

/-- A write brings its entry to the front. -/
theorem Shard.Ordered.setLocked (h : s.Ordered clock) (key value : Bytes) (expireAt : UInt64)
    {nowMono : UInt64} (hnow : clock ≤ nowMono.toNat)
    (hcost : entryCost key.length value.length < 2 ^ 32)
    (hcount : (s.setLocked key value expireAt nowMono).2.entries.keys.length < 2 ^ 31) :
    (s.setLocked key value expireAt nowMono).2.Ordered (nowMono.toNat + 1) := by
  have hinv := ShardInv.maintained.setLocked h.inv key value expireAt nowMono hcost hcount
  unfold Shard.setLocked at hinv ⊢
  cases hlook : s.entries.lookup key with
  | none =>
    rw [hlook] at hinv
    dsimp only at hinv ⊢
    have hm := h.admitLocked (entryCost key.length value.length) key
    revert hinv hm
    rcases s.admitLocked (entryCost key.length value.length) key with ⟨_ | _, m⟩
    · intro _ hm
      exact hm.later (by omega)
    · intro hinv hm
      exact hm.insert key value expireAt hnow hinv
  | some old =>
    rw [hlook] at hinv
    dsimp only at hinv ⊢
    have hm := h.admitLocked (entryCost key.length value.length - (s.heap old).size) key
    obtain ⟨ks, hks, hkey, -⟩ :=
      admitLocked_evicts s (entryCost key.length value.length - (s.heap old).size) key
    have hstill := hks.lookup key
    rw [if_neg hkey, hlook] at hstill
    revert hinv hm hstill
    rcases s.admitLocked (entryCost key.length value.length - (s.heap old).size) key with ⟨_ | _, m⟩
    · intro _ hm _
      exact hm.later (by omega)
    · intro hinv hm hstill
      exact hm.overwrite (hm.inv.mem_of_lookup hstill) value expireAt hnow hinv

/-- A read of the entry at the front of the list. -/
theorem Shard.Ordered.getLocked (h : s.Ordered clock) (key : Bytes) (nowMs : UInt64)
    {nowMono : UInt64} (hnow : clock ≤ nowMono.toNat)
    (hfront : ∀ e ∈ s.entries.lookup key, (s.heap e).expired nowMs = false →
      s.lru.head = some e) :
    (s.getLocked key nowMs nowMono).2.2.Ordered (nowMono.toNat + 1) := by
  have hinv := ShardInv.maintained.getLocked h.inv key nowMs nowMono
  obtain ⟨l, hl, hmem, hdec⟩ := h.list
  have hsame : s.Ordered (nowMono.toNat + 1) := h.later (by omega)
  unfold Shard.getLocked at hinv ⊢
  cases hlook : s.entries.lookup key with
  | none => exact hsame
  | some e =>
    rw [hlook] at hinv
    dsimp only at hinv ⊢
    split_ifs at hinv ⊢ with hexp
    · exact hsame
    · have hhead := hfront e hlook (by simpa using hexp)
      rw [hl.head] at hhead
      obtain ⟨l', rfl⟩ : ∃ l', l = e :: l' := by
        cases l with
        | nil => cases hhead
        | cons b l' =>
          cases hhead
          exact ⟨l', rfl⟩
      refine ⟨hinv, h.exact_, e :: l', hl, hmem, ?_⟩
      refine (hdec.sublist (List.sublist_cons_self e l')).cons hnow ?_ fun b hb => ?_
      · show (Function.update s.heap e _ e).lastAccess = nowMono
        rw [Function.update_self]
      · exact Function.update_of_ne
          (ne_of_mem_of_not_mem hb (List.nodup_cons.mp hl.nodup).1) _ _

theorem Shard.Ordered.txnDelete (h : s.Ordered clock) (key : Bytes) (nowMs : UInt64) :
    (s.txnDelete key nowMs).2.Ordered clock := by
  unfold Shard.txnDelete Shard.delLocked
  cases hlook : s.entries.lookup key with
  | none => exact h
  | some e =>
    have hremove := h.removeEntryLocked (h.inv.mem_of_lookup hlook)
    dsimp only
    split_ifs <;> exact hremove

theorem Shard.Ordered.reapLocked (h : s.Ordered clock) (key : Bytes) (nowMs : UInt64) :
    (s.reapLocked key nowMs).2.Ordered clock := by
  unfold Shard.reapLocked
  split
  · exact h
  · rename_i e hlook
    split_ifs
    · exact h.removeAndFire (h.inv.mem_of_lookup hlook) .expired
    · exact h

end Shard

/-! ## The victim -/

section Run

variable {t : Timed} {a : TimedAction}

theorem Timed.step_ordered {t' : Timed} (h : t.shard.Ordered t.clock) (ha : a.AtFront t)
    (hstep : t.step a = some t') : t'.shard.Ordered t'.clock := by
  cases a with
  | read key nowMs nowMono =>
    rw [Timed.step] at hstep
    split_ifs at hstep with hnow
    cases hstep
    exact h.getLocked key nowMs hnow ha
  | reap key nowMs =>
    cases hstep
    exact h.reapLocked key nowMs
  | set key value expireAt nowMono =>
    rw [Timed.step] at hstep
    split_ifs at hstep with hnow
    cases hstep
    exact h.setLocked key value expireAt hnow ha.1 ha.2
  | delete key nowMs =>
    cases hstep
    exact h.txnDelete key nowMs
  | limits budget lowWater =>
    cases hstep
    exact h.congr (ShardInv.maintained.of_limits h.inv budget lowWater) rfl rfl rfl rfl
  | evict target protect =>
    cases hstep
    exact h.evictLocked target protect

theorem ordered_newShard (sampleK batchMax : ℕ) (rng : Draws) (policy : EvictPolicy) :
    (newShard sampleK batchMax rng true policy).Ordered 0 :=
  ⟨ShardInv.maintained.newShard _ _ _ _ _, rfl, [], .nil rfl rfl, fun _ => Iff.rfl, .nil, nofun⟩

/-- The first entry from the tail that satisfies `p` was accessed before all others that do. -/
theorem Decreasing.find_reverse {heap : Ptr → Entry} {clock : ℕ} {l : List Ptr} {p : Ptr → Bool}
    (h : Decreasing heap clock l) {v : Ptr} (hv : l.reverse.find? p = some v) {e : Ptr}
    (he : e ∈ l) (hpe : p e = true) (hne : e ≠ v) :
    (heap v).lastAccess < (heap e).lastAccess := by
  obtain ⟨-, older, newer, hsplit, hnone⟩ := List.find?_eq_some_iff_append.mp hv
  have hl : l = newer.reverse ++ v :: older.reverse := by
    rw [← List.reverse_reverse l, hsplit]
    simp
  rw [hl] at he
  have hpair := h.pairwise
  rw [hl] at hpair
  rcases List.mem_append.mp he with he | he
  · exact (List.pairwise_append.mp hpair).2.2 e he v List.mem_cons_self
  · rcases List.mem_cons.mp he with he | he
    · exact absurd he hne
    · have hno := hnone e (List.mem_reverse.mp he)
      rw [hpe] at hno
      cases hno

/-- In every run at increasing times in which each read finds its key at the front of the list: the
    list from `lruHead` holds the stored entries in the order of their last accesses, the latest
    first, and the victim is the eligible entry with the oldest access; there is none only if no
    entry is eligible. -/
theorem exact_lru_victim {sampleK batchMax : ℕ} {rng : Draws} {policy : EvictPolicy}
    (hrun : Run Timed.step (fun t a => a.AtFront t)
      ⟨newShard sampleK batchMax rng true policy, 0⟩ t) :
    (∃ l, Path t.shard.lru.next t.shard.lru.head l ∧ (∀ e, e ∈ l ↔ t.shard.Stored e) ∧
      l.Pairwise fun a b => (t.shard.heap b).lastAccess < (t.shard.heap a).lastAccess) ∧
    (t.shard.policy ≠ .noEviction → ∀ protect,
      match (t.shard.pickVictimLocked protect).1 with
      | none => ∀ e, t.shard.Stored e → t.shard.eligible protect e = false
      | some v => t.shard.Stored v ∧ t.shard.eligible protect v = true ∧
        ∀ e, t.shard.Stored e → t.shard.eligible protect e = true → e ≠ v →
          (t.shard.heap v).lastAccess < (t.shard.heap e).lastAccess) := by
  have h : t.shard.Ordered t.clock :=
    hrun.invariant (P := fun t => t.shard.Ordered t.clock)
      (fun _ _ _ ht ha hstep => Timed.step_ordered ht ha hstep)
      (ordered_newShard sampleK batchMax rng policy)
  obtain ⟨l, hl, hmem, hdec⟩ := h.list
  have hstored : ∀ e, e ∈ l ↔ t.shard.Stored e := fun e => (hmem e).trans (h.inv.mem_slots_iff e)
  refine ⟨⟨l, hl.path_next, hstored, hdec.pairwise⟩, fun hp protect => ?_⟩
  rw [pickVictimLocked_exact h.inv.toLinkedInv hp h.exact_ hl hmem]
  dsimp only
  split
  · rename_i hnone
    intro e he
    have hno := List.find?_eq_none.mp hnone e (List.mem_reverse.mpr ((hstored e).mpr he))
    simpa using hno
  · rename_i v hv
    refine ⟨(hstored v).mp (List.mem_reverse.mp (List.mem_of_find?_eq_some hv)),
      List.find?_some hv, fun e he helig hne => ?_⟩
    exact hdec.find_reverse hv ((hstored e).mpr he) helig hne

/-- Of two keys, the one written first is the victim, also after the other was read. -/
theorem exact_lru_victim_two :
    ∃ t, Run Timed.step (fun t a => a.AtFront t)
        ⟨newShard 5 64 (splitmix64 1) true .allKeysLRU, 0⟩ t ∧
      ∃ v, (t.shard.pickVictimLocked []).1 = some v ∧ (t.shard.heap v).key = [1] ∧
        ∀ e, t.shard.Stored e → t.shard.eligible [] e = true → e ≠ v →
          (t.shard.heap v).lastAccess < (t.shard.heap e).lastAccess := by
  have hrun : Run Timed.step (fun t a => a.AtFront t)
      ⟨newShard 5 64 (splitmix64 1) true .allKeysLRU, 0⟩ _ :=
    ((Run.refl.tail (.set [1] [] 0 1) (by exact ⟨by decide, by decide⟩) rfl).tail
      (.set [2] [] 0 2) (by exact ⟨by decide, by decide⟩) rfl).tail (.read [2] 0 3) (by
        intro e he _
        cases he
        rfl) rfl
  have hvictim := (exact_lru_victim hrun).2 (by decide) []
  exact ⟨_, hrun, _, rfl, rfl, hvictim.2.2⟩

/-- The first of two keys is read, and is then the victim, though the other one was not accessed
    for longer. -/
theorem read_entry_is_victim :
    ∃ t, Run Timed.step Always ⟨newShard 5 64 (splitmix64 1) true .allKeysLRU, 0⟩ t ∧
      (t.shard.pickVictimLocked []).1.map (fun v =>
        ((t.shard.heap v).key, (t.shard.heap v).lastAccess)) = some ([1], 3) ∧
      (t.shard.entries.lookup [2]).map (fun e =>
        (t.shard.eligible [] e, (t.shard.heap e).lastAccess)) = some (true, 2) :=
  Run.exists_of_exec Timed.step ⟨newShard 5 64 (splitmix64 1) true .allKeysLRU, 0⟩
    [.set [1] [] 0 1, .set [2] [] 0 2, .read [1] 0 3] _ (by decide +kernel)

end Run

end KvStore
