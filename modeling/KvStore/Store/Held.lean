import KvStore.Common.Assoc
import KvStore.Store.Admission

/-!
# Stores without deadlines and without evictions

Under the policy `noeviction`, and as long as no key has a deadline, a store holds what was written
to it, and each shard counts the bytes of the keys that are routed to it. Whether a shard admits a
write is a matter of those keys only.

* `Store.Holds.set`, `Store.Holds.delete`: what is held after a write.
* `Store.Holds.admits_iff`: a write is admitted iff the shard of its key has room for it.
* `Store.Holds.purgeExpired`: there is nothing to purge.
-/

namespace KvStore

open KvStore.Common

/-- The bytes that keys and values count for. -/
def heldBytes (l : List (Σ _ : Bytes, Bytes)) : ℤ :=
  (l.map fun x => entryCost x.1.length x.2.length).sum

/-! ## One shard -/

/-- The shard holds the pairs `l`, without deadlines, and accounts for them. -/
structure Shard.Accounts (sh : Shard) (l : List (Σ _ : Bytes, Bytes)) : Prop extends KeyInv sh where
  nodup : l.NodupKeys
  policy : sh.policy = .noEviction
  ttl : sh.ttlSlots.items = []
  contents : ∀ k, sh.contents k = (l.dlookup k).map fun v => (v, 0)
  size : ∀ {k : Bytes} {e : Ptr}, sh.entries.lookup k = some e →
    ((sh.heap e).size : ℤ) = sh.cost e
  mem : sh.memBytes = int64 (heldBytes l)

section Shard

variable {sh : Shard} {l : List (Σ _ : Bytes, Bytes)} {key value : Bytes} {e : Ptr}

theorem int64_int64_add (x y : ℤ) : int64 (int64 x + y) = int64 (x + y) := Int.bmod_add_bmod ..

theorem admitLocked_noEviction (h : sh.policy = .noEviction) (delta : ℤ) (protect : Bytes) :
    sh.admitLocked delta protect =
      (decide (sh.budget ≤ 0 ∨ delta ≤ 0 ∨ int64 (sh.memBytes + delta) ≤ sh.budget), sh) := by
  unfold Shard.admitLocked
  split_ifs with hfree hfits
  · simp [hfree, ← or_assoc]
  · simp [hfits]
  · simp only [Prod.mk.injEq, and_true]
    rw [eq_comm, decide_eq_false_iff_not]
    tauto

/-- An admitted write is all that happens. -/
theorem setLocked_noEviction (h : sh.policy = .noEviction) {expireAt nowMono : UInt64}
    (hok : (sh.setLocked key value expireAt nowMono).1 = true) :
    (sh.entries.lookup key = none ∧ sh.setLocked key value expireAt nowMono =
        (true, sh.insert key value expireAt nowMono (entryCost key.length value.length))) ∨
      ∃ old, sh.entries.lookup key = some old ∧ sh.setLocked key value expireAt nowMono =
        (true, sh.overwrite old value expireAt nowMono (entryCost key.length value.length)
          (entryCost key.length value.length - (sh.heap old).size)) := by
  unfold Shard.setLocked at hok ⊢
  cases he : sh.entries.lookup key with
  | none =>
    simp only [he, admitLocked_noEviction h] at hok ⊢
    split at hok <;> simp_all
  | some old =>
    simp only [he, admitLocked_noEviction h] at hok ⊢
    split at hok <;> simp_all

theorem overwrite_ttlSlots {old : Ptr} (h : (sh.heap old).expireAt = 0) (value : Bytes)
    (nowMono : UInt64) (cost delta : ℤ) :
    (sh.overwrite old value 0 nowMono cost delta).ttlSlots = sh.ttlSlots := by
  unfold Shard.overwrite Shard.updateTTLSlot
  simp only [h]
  split_ifs <;> simp_all [Shard.modify, Shard.lruMoveToFrontLocked, Shard.addMem]

namespace Shard.Accounts

theorem lookup_isSome (h : sh.Accounts l) (he : sh.entries.lookup key = some e) :
    l.dlookup key = some (sh.heap e).value ∧ (sh.heap e).expireAt = 0 ∧
      ((sh.heap e).size : ℤ) = entryCost key.length (sh.heap e).value.length := by
  have hcont := h.contents key
  rw [contents_of_lookup he] at hcont
  obtain ⟨v, hv, hpair⟩ := Option.map_eq_some_iff.mp hcont.symm
  obtain ⟨hvalue, hexpire⟩ := Prod.mk.inj hpair
  refine ⟨hvalue ▸ hv, hexpire.symm, ?_⟩
  rw [h.size he, Shard.cost, h.key he]

theorem lookup_none (h : sh.Accounts l) (he : sh.entries.lookup key = none) : l.dlookup key = none := by
  have hcont := h.contents key
  rw [contents_of_lookup_none he] at hcont
  exact Option.map_eq_none_iff.mp hcont.symm

/-- A write changes the accounted size by its growth. -/
theorem growth (h : sh.Accounts l) (key value : Bytes) :
    heldBytes l + sh.growth key value = heldBytes (⟨key, value⟩ :: l.kerase key) := by
  have hsum := sum_kerase (fun x : (Σ _ : Bytes, Bytes) => entryCost x.1.length x.2.length) key l
  unfold heldBytes Shard.growth
  rw [hsum, List.map_cons, List.sum_cons]
  cases he : sh.entries.lookup key with
  | none =>
    rw [h.lookup_none he]
    dsimp only [Option.elim]
    omega
  | some e =>
    obtain ⟨hv, -, hsize⟩ := h.lookup_isSome he
    rw [hv]
    dsimp only [Option.elim]
    omega

/-- A write is admitted iff it does not grow the shard, or there is room for it. -/
theorem admits_iff (h : sh.Accounts l) (key value : Bytes) (expireAt nowMono : UInt64) :
    (sh.setLocked key value expireAt nowMono).1 = true ↔
      sh.budget ≤ 0 ∨ heldBytes (⟨key, value⟩ :: l.kerase key) ≤ heldBytes l ∨
        int64 (heldBytes (⟨key, value⟩ :: l.kerase key)) ≤ sh.budget := by
  have hgrowth := h.growth key value
  have hshrinks : sh.growth key value ≤ 0 ↔
      heldBytes (⟨key, value⟩ :: l.kerase key) ≤ heldBytes l := by omega
  rw [(setLocked_admitted sh key value expireAt nowMono).1, admitLocked_noEviction h.policy,
    decide_eq_true_eq, h.mem, int64_int64_add, hgrowth, hshrinks]

/-- The entries after an admitted write. -/
theorem setLocked_sizes (h : sh.Accounts l) {nowMono : UInt64}
    (hok : (sh.setLocked key value 0 nowMono).1 = true) {k : Bytes} {e : Ptr}
    (hk : (sh.setLocked key value 0 nowMono).2.entries.lookup k = some e) :
    (k = key ∧ ((sh.setLocked key value 0 nowMono).2.heap e).size =
        uint32 (entryCost key.length value.length)) ∨
      k ≠ key ∧ sh.entries.lookup k = some e ∧
        ((sh.setLocked key value 0 nowMono).2.heap e).size = (sh.heap e).size := by
  rcases setLocked_noEviction h.policy hok with ⟨he, hres⟩ | ⟨old, he, hres⟩
  · rw [hres, insert_eq] at hk ⊢
    dsimp only at hk ⊢
    rcases (lookup_insert_iff sh key sh.alloc).mp hk with ⟨rfl, rfl⟩ | ⟨hne, hb⟩
    · rw [Function.update_self]
      exact .inl ⟨rfl, rfl⟩
    · rw [Function.update_of_ne (h.alloc hb).ne]
      exact .inr ⟨hne, hb, rfl⟩
  · obtain ⟨a, d, hframe⟩ := overwrite_frame sh old value 0 nowMono
      (entryCost key.length value.length) (entryCost key.length value.length - (sh.heap old).size)
    rw [hres, hframe] at hk ⊢
    dsimp only at hk ⊢
    by_cases hkey : k = key
    · subst hkey
      cases he.symm.trans hk
      rw [Function.update_self]
      exact .inl ⟨rfl, rfl⟩
    · have hne : e ≠ old := by
        rintro rfl
        exact hkey ((h.key hk).symm.trans (h.key he))
      rw [Function.update_of_ne hne]
      exact .inr ⟨hkey, hk, rfl⟩

/-- An admitted write. -/
theorem setLocked (h : sh.Accounts l) {nowMono : UInt64}
    (hcost : entryCost key.length value.length < 2 ^ 32)
    (hok : (sh.setLocked key value 0 nowMono).1 = true) :
    (sh.setLocked key value 0 nowMono).2.Accounts (⟨key, value⟩ :: l.kerase key) := by
  have heff : Effect sh (sh.setLocked key value 0 nowMono).2 [] (sh.contents.set key value 0) := by
    rcases setLocked_noEviction h.policy hok with ⟨he, hres⟩ | ⟨old, he, hres⟩ <;> rw [hres]
    · exact insert_effect h.toKeyInv he _ _ _ _
    · exact overwrite_effect h.toKeyInv he _ _ _ _ _
  have hcont : ∀ k, (sh.contents.set key value 0) k =
      ((⟨key, value⟩ :: l.kerase key).dlookup k).map fun v => (v, 0) := by
    intro k
    by_cases hk : k = key
    · subst hk
      rw [Keyspace.set_self, List.dlookup_cons_eq]
      rfl
    · rw [Keyspace.set_of_ne _ hk, List.dlookup_cons_ne _ _ hk, List.dlookup_kerase_ne hk,
        h.contents]
  refine ⟨heff.keyInv, ?_, ?_, ?_, ?_, ?_, ?_⟩
  · exact List.nodupKeys_cons.mpr ⟨List.notMem_keys_kerase key h.nodup, h.nodup.kerase key⟩
  · exact (congrArg (fun c => c.2.2.2.1) heff.config).trans h.policy
  · rcases setLocked_noEviction h.policy hok with ⟨-, hres⟩ | ⟨old, he, hres⟩ <;> rw [hres]
    · rw [insert_eq]
      exact h.ttl
    · rw [overwrite_ttlSlots (h.lookup_isSome he).2.1]
      exact h.ttl
  · rw [heff.contents]
    exact hcont
  · intro k e hk
    have hvalue := contents_of_lookup hk
    rw [heff.contents] at hvalue
    rw [Shard.cost, heff.keyInv.key hk]
    rcases h.setLocked_sizes hok hk with ⟨rfl, hsize⟩ | ⟨hne, hold, hsize⟩
    · rw [Keyspace.set_self] at hvalue
      rw [hsize, uint32_eq (entryCost_pos _ _).le hcost]
      exact congrArg (fun v : Bytes => entryCost k.length v.length)
        (Prod.mk.inj (Option.some.inj hvalue)).1
    · rw [Keyspace.set_of_ne _ hne, contents_of_lookup hold] at hvalue
      rw [hsize, (h.lookup_isSome hold).2.2]
      exact congrArg (fun v : Bytes => entryCost k.length v.length)
        (Prod.mk.inj (Option.some.inj hvalue)).1
  · have hmem := (setLocked_admitted sh key value 0 nowMono).2
    rw [← (setLocked_admitted sh key value 0 nowMono).1, if_pos hok,
      admitLocked_noEviction h.policy] at hmem
    rw [hmem.2, h.mem, int64_int64_add, h.growth]

theorem removeEntryLocked (h : sh.Accounts l) (he : sh.entries.lookup key = some e) :
    (sh.removeEntryLocked e).Accounts (l.kerase key) := by
  have heff := removeEntryLocked_effect h.toKeyInv he
  obtain ⟨hv, -, hsize⟩ := h.lookup_isSome he
  refine ⟨heff.keyInv, h.nodup.kerase key, ?_, ?_, fun k => ?_, fun {k a} hk => ?_, ?_⟩
  · exact (congrArg (fun c => c.2.2.2.1) heff.config).trans h.policy
  · rw [removeEntryLocked_eq]
    show (sh.ttlSlots.remove e).items = []
    rw [SlotArray.remove, h.ttl]
    split_ifs
    · exact h.ttl
    · exact h.ttl
  · rw [heff.contents]
    by_cases hk : k = key
    · subst hk
      rw [Keyspace.delete_self, List.dlookup_kerase _ h.nodup]
      rfl
    · rw [Keyspace.delete_of_ne _ hk, List.dlookup_kerase_ne hk, h.contents]
  · rw [removeEntryLocked_eq] at hk ⊢
    dsimp only at hk ⊢
    rw [h.key he] at hk
    by_cases hkey : k = key
    · subst hkey
      rw [AList.lookup_erase] at hk
      cases hk
    · rw [AList.lookup_erase_ne hkey] at hk
      exact h.size hk
  · rw [removeEntryLocked_eq]
    dsimp only
    have hsum := sum_kerase (fun x : (Σ _ : Bytes, Bytes) => entryCost x.1.length x.2.length) key l
    rw [hv] at hsum
    rw [h.mem, hsize, sub_eq_add_neg, int64_int64_add, heldBytes, hsum]
    dsimp only [Option.elim]
    rw [add_comm (entryCost _ _), add_neg_cancel_right]
    rfl

theorem txnDelete (h : sh.Accounts l) (key : Bytes) (nowMs : UInt64) :
    (sh.txnDelete key nowMs).2.Accounts (l.kerase key) := by
  unfold Shard.txnDelete Shard.delLocked
  cases he : sh.entries.lookup key with
  | none =>
    dsimp only
    rw [List.kerase_of_notMem_keys (List.dlookup_eq_none.mp (h.lookup_none he))]
    exact h
  | some e =>
    dsimp only
    split_ifs <;> exact h.removeEntryLocked he

theorem of_onEvict (h : sh.Accounts l) (evs : List (Bytes × EvictReason)) :
    { sh with onEvict := evs }.Accounts l :=
  ⟨⟨h.key, h.alloc⟩, h.nodup, h.policy, h.ttl, h.contents, h.size, h.mem⟩

end Shard.Accounts

end Shard

/-! ## The store -/

section Routed

variable {m : AList fun _ : Bytes => Bytes} {key value : Bytes} {route : Bytes → ℕ} {i : ℕ}

/-- What `route` leads to shard `i`. -/
def routed (route : Bytes → ℕ) (m : AList fun _ : Bytes => Bytes) (i : ℕ) :
    List (Σ _ : Bytes, Bytes) :=
  m.entries.filter fun x => route x.1 = i

theorem dlookup_routed (m : AList fun _ : Bytes => Bytes) (hkey : route key = i) :
    (routed route m i).dlookup key = m.lookup key :=
  dlookup_filter (p := fun k => decide (route k = i)) (decide_eq_true hkey) m.entries

theorem routed_erase : routed route (m.erase key) i = (routed route m i).kerase key :=
  filter_kerase (fun k => decide (route k = i)) key m.entries

theorem kerase_routed (hkey : route key ≠ i) : (routed route m i).kerase key = routed route m i :=
  List.kerase_of_notMem_keys
    (notMem_keys_filter (p := fun k => decide (route k = i)) (decide_eq_false hkey) m.entries)

theorem routed_insert (hkey : route key = i) :
    routed route (m.insert key value) i = ⟨key, value⟩ :: (routed route m i).kerase key := by
  show List.filter _ (⟨key, value⟩ :: m.entries.kerase key) = _
  rw [List.filter_cons_of_pos (by simpa using hkey)]
  exact congrArg _ routed_erase

theorem routed_insert_of_ne (hkey : route key ≠ i) :
    routed route (m.insert key value) i = routed route m i := by
  show List.filter _ (⟨key, value⟩ :: m.entries.kerase key) = _
  rw [List.filter_cons_of_neg (by simpa using hkey)]
  exact routed_erase.trans (kerase_routed hkey)

/-- A shard with this budget has room for a pair, beside what `route` leads to it: the limit is off,
    or the pair takes the place of one that counts for as much, or all of it is within the budget,
    as the code's `int64` counts. -/
def Admissible (route : Bytes → ℕ) (budget : ℤ) (m : AList fun _ : Bytes => Bytes)
    (key value : Bytes) : Prop :=
  budget ≤ 0 ∨
    heldBytes (routed route (m.insert key value) (route key)) ≤
      heldBytes (routed route m (route key)) ∨
    int64 (heldBytes (routed route (m.insert key value) (route key))) ≤ budget

instance (budget : ℤ) (key value : Bytes) : Decidable (Admissible route budget m key value) :=
  inferInstanceAs (Decidable (_ ∨ _ ∨ _))

end Routed

/-- The store holds `m`: every shard holds what is routed to it. -/
def Store.Holds (s : Store) (m : AList fun _ : Bytes => Bytes) : Prop :=
  ∀ i, (s.shards i).Accounts (routed s.shardFor m i)

namespace Store.Holds

variable {s : Store} {m : AList fun _ : Bytes => Bytes} {key value : Bytes} {sh : Shard}

theorem contents (h : s.Holds m) (k : Bytes) :
    s.contents k = (m.lookup k).map fun v => (v, 0) :=
  ((h _).contents k).trans (congrArg _ (dlookup_routed m rfl))

theorem insert (h : s.Holds m)
    (hsh : sh.Accounts (⟨key, value⟩ :: (routed s.shardFor m (s.shardFor key)).kerase key)) :
    (s.put (s.shardFor key) sh).Holds (m.insert key value) := by
  intro i
  rw [shards_put]
  show Shard.Accounts _ (routed s.shardFor (m.insert key value) i)
  split_ifs with hi
  · subst hi
    rw [routed_insert rfl]
    exact hsh
  · rw [routed_insert_of_ne (Ne.symm hi)]
    exact h i

theorem erase (h : s.Holds m)
    (hsh : sh.Accounts ((routed s.shardFor m (s.shardFor key)).kerase key)) :
    (s.put (s.shardFor key) sh).Holds (m.erase key) := by
  intro i
  rw [shards_put]
  show Shard.Accounts _ (routed s.shardFor (m.erase key) i)
  rw [routed_erase]
  split_ifs with hi
  · subst hi
    exact hsh
  · rw [kerase_routed (Ne.symm hi)]
    exact h i

theorem admits_iff (h : s.Holds m) (key value : Bytes) (expireAt nowMono : UInt64) :
    ((s.shards (s.shardFor key)).setLocked key value expireAt nowMono).1 = true ↔
      Admissible s.shardFor (s.shards (s.shardFor key)).budget m key value := by
  rw [(h _).admits_iff key value expireAt nowMono, Admissible, routed_insert rfl]

theorem set (h : s.Holds m) {nowMono : UInt64}
    (hcost : entryCost key.length value.length < 2 ^ 32)
    (hok : ((s.shards (s.shardFor key)).setLocked key value 0 nowMono).1 = true) :
    s.set key value 0 nowMono = (true, s.put (s.shardFor key)
        ((s.shards (s.shardFor key)).setLocked key value 0 nowMono).2) ∧
      (s.put (s.shardFor key)
        ((s.shards (s.shardFor key)).setLocked key value 0 nowMono).2).Holds (m.insert key value) := by
  refine ⟨?_, h.insert ((h _).setLocked hcost hok)⟩
  rw [set_eq, hok, if_pos rfl]
  rfl

theorem delete (h : s.Holds m) (key : Bytes) (nowMs : UInt64) :
    (s.delete key nowMs).2.Holds (m.erase key) :=
  h.erase ((h _).txnDelete key nowMs)

/-- There is nothing to purge. -/
theorem purgeExpired (h : s.Holds m) (nowMs : UInt64) : (s.purgeExpired nowMs).2 = s := by
  have hloop : ∀ l, Store.purgeLoop nowMs l s = (0, s) := by
    intro l
    induction l with
    | nil => rfl
    | cons i l ih =>
      have hbatch : (s.shards i).purgeBatch nowMs = (0, s.shards i) := by
        rw [Shard.purgeBatch, (h i).ttl]
        rfl
      have hstep : Store.purgeShard nowMs i ((s.shards i).ttlSlots.items.length + 1) s = (0, s) := by
        have hput : s.purgeStep i nowMs = (0, s) := by
          rw [Store.purgeStep, Store.withShard, hbatch, Function.update_eq_self]
        rw [Store.purgeShard, hput]
        rfl
      rw [Store.purgeLoop, hstep]
      dsimp only
      rw [ih]
      rfl
  rw [Store.purgeExpired, hloop]

end Store.Holds

theorem newStore_holds (o : Options) (newSeed : UInt64) (hpolicy : o.policy = .noEviction) :
    (newStore o newSeed).Holds ∅ := by
  have hdefault : (o.withDefaults newSeed).policy = .noEviction :=
    (withDefaults_policy o newSeed).trans hpolicy
  intro i
  have hsh : ((newStore o newSeed).shards i).Accounts [] := by
    unfold newStore
    dsimp only
    split_ifs <;> exact ⟨⟨nofun, nofun⟩, List.nodupKeys_nil, hdefault, rfl, fun _ => rfl, nofun, rfl⟩
  exact hsh

end KvStore
