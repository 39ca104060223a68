import KvStore.Store.StoreInv

/-!
# A shard filled in order

The shard after `n` distinct keys were written one after another: entry `j` carries
the `j`-th key and sits in slot `j`. Runs that need many keys are exhibited with it.
-/

namespace KvStore

open KvStore.Common

/-- A family of distinct keys. -/
def nthKey (n : ℕ) : Bytes := putLE 8 n

theorem nthKey_inj {m n : ℕ} (hm : m < 2 ^ 64) (hn : n < 2 ^ 64) (h : nthKey m = nthKey n) :
    m = n := by
  have := congrArg leNat h
  rwa [nthKey, nthKey, leNat_putLE_of_lt (by simpa using hm), leNat_putLE_of_lt (by simpa using hn)]
    at this

/-- `n` keys without deadline were written, one after another. -/
structure Shard.Filled (n : ℕ) (sh : Shard) : Prop where
  budget : sh.budget = 0
  alloc : sh.alloc = n
  present : ∀ j < n, sh.entries.lookup (nthKey j) = some j
  absent : ∀ j, n ≤ j → j < 2 ^ 64 → sh.entries.lookup (nthKey j) = none
  heap : ∀ j < n, (sh.heap j).key = nthKey j ∧ (sh.heap j).expireAt = 0
  items : sh.slots.items = List.range n
  pos : ∀ j < n, sh.slots.pos j = int32 j

theorem filled_newShard (sampleK batchMax : ℕ) (rng : Draws) (exactLRU : Bool)
    (policy : EvictPolicy) : (newShard sampleK batchMax rng exactLRU policy).Filled 0 where
  budget := rfl
  alloc := rfl
  present j hj := absurd hj (Nat.not_lt_zero j)
  absent _ _ _ := rfl
  heap j hj := absurd hj (Nat.not_lt_zero j)
  items := rfl
  pos j hj := absurd hj (Nat.not_lt_zero j)

variable {n : ℕ} {sh : Shard}

/-- Writing the next key inserts it. -/
theorem Shard.Filled.setLocked_eq (h : sh.Filled n) (hn : n < 2 ^ 64) :
    sh.setLocked (nthKey n) [] 0 0 =
      (true, sh.insert (nthKey n) [] 0 0 (entryCost (nthKey n).length 0)) := by
  obtain ⟨m, -, hunl, hres⟩ := setLocked_cases sh (nthKey n) [] 0 0
  obtain rfl := hunl (le_of_eq h.budget)
  rcases hres with ⟨hpos, -⟩ | ⟨old, hold, -⟩ | ⟨-, hres⟩
  · exact absurd h.budget hpos.ne'
  · rw [h.absent n (le_refl n) hn] at hold; cases hold
  · exact hres

theorem Shard.Filled.insert (h : sh.Filled n) (hn : n < 2 ^ 64) (cost : ℤ) :
    (sh.insert (nthKey n) [] 0 0 cost).Filled (n + 1) := by
  obtain ⟨q, hq⟩ : ∃ q, q = sh.insert (nthKey n) [] 0 0 cost := ⟨_, rfl⟩
  rw [← hq]
  rw [insert_eq, h.alloc] at hq
  refine ⟨by rw [hq]; exact h.budget, by rw [hq], fun j hj => ?_, fun j hj hlt => ?_,
    fun j hj => ?_, ?_, fun j hj => ?_⟩
  · rw [hq]
    by_cases hjn : j = n
    · subst hjn; exact AList.lookup_insert _
    · have hne : nthKey j ≠ nthKey n := fun hc => hjn (nthKey_inj (by omega) hn hc)
      exact (AList.lookup_insert_ne hne).trans (h.present j (by omega))
  · rw [hq]
    have hne : nthKey j ≠ nthKey n := fun hc => by
      have := nthKey_inj hlt hn hc
      omega
    exact (AList.lookup_insert_ne hne).trans (h.absent j (by omega) hlt)
  · rw [hq]
    by_cases hjn : j = n
    · subst hjn; simp
    · simpa [Function.update_of_ne hjn] using h.heap j (by omega)
  · rw [hq]
    show sh.slots.items ++ [n] = _
    rw [h.items, List.range_succ]
  · rw [hq]
    show Function.update (sh.slots.forget n).pos n (int32 (sh.slots.forget n).items.length) j = _
    by_cases hjn : j = n
    · subst hjn
      rw [Function.update_self, SlotArray.items_forget, h.items, List.length_range]
    · rw [Function.update_of_ne hjn, SlotArray.pos_forget_of_ne hjn]
      exact h.pos j (by omega)

/-- Deleting one of the keys removes its entry. -/
theorem Shard.Filled.txnDelete_eq (h : sh.Filled n) {j : ℕ} (hj : j < n) (nowMs : UInt64) :
    sh.txnDelete (nthKey j) nowMs = (true, sh.removeEntryLocked j) := by
  have hexp := (h.heap j hj).2
  simp [Shard.txnDelete, Shard.delLocked, h.present j hj, Entry.expired, expiredAt, hexp]

/-! ## Entries with a deadline -/

/-- `n` keys were written one after another, the `j`-th with the deadline `deadline j`. -/
structure Shard.Loaded (deadline : ℕ → UInt64) (n : ℕ) (sh : Shard) : Prop where
  alloc : sh.alloc = n
  absent : ∀ j, n ≤ j → j < 2 ^ 64 → sh.entries.lookup (nthKey j) = none
  heap : ∀ j < n, (sh.heap j).key = nthKey j ∧ (sh.heap j).expireAt = deadline j ∧
    (sh.heap j).size = 168
  items : sh.slots.items = List.range n
  pos : ∀ j < n, sh.slots.pos j = int32 j
  ttlItems : sh.ttlSlots.items = List.range n
  ttlPos : ∀ j < n, sh.ttlSlots.pos j = int32 j
  memBytes : sh.memBytes = 168 * n

theorem loaded_newShard (deadline : ℕ → UInt64) (sampleK batchMax : ℕ) (rng : Draws)
    (exactLRU : Bool) (policy : EvictPolicy) :
    (newShard sampleK batchMax rng exactLRU policy).Loaded deadline 0 where
  alloc := rfl
  absent _ _ _ := rfl
  heap j hj := absurd hj (Nat.not_lt_zero j)
  items := rfl
  pos j hj := absurd hj (Nat.not_lt_zero j)
  ttlItems := rfl
  ttlPos j hj := absurd hj (Nat.not_lt_zero j)
  memBytes := rfl

variable {deadline : ℕ → UInt64}

/-- Limits do not matter. -/
theorem Shard.Loaded.of_limits (h : sh.Loaded deadline n) (budget lowWater : ℤ) :
    Shard.Loaded deadline n { sh with budget := budget, lowWater := lowWater } :=
  ⟨h.alloc, h.absent, h.heap, h.items, h.pos, h.ttlItems, h.ttlPos, h.memBytes⟩

/-- Writing the next key inserts it, if there is room for it. -/
theorem Shard.Loaded.setLocked_eq (h : sh.Loaded deadline n) (hn : n < 2 ^ 40)
    (hroom : sh.budget ≤ 0 ∨ 168 * (n + 1) ≤ sh.budget) :
    sh.setLocked (nthKey n) [] (deadline n) 0 =
      (true, sh.insert (nthKey n) [] (deadline n) 0 168) := by
  have hcost : entryCost (nthKey n).length ([] : Bytes).length = 168 := by
    rw [nthKey, length_putLE]
    rfl
  have hadmitted : sh.admitLocked 168 (nthKey n) = (true, sh) := by
    unfold Shard.admitLocked
    rcases hroom with hunlimited | hfits
    · exact if_pos (.inl hunlimited)
    · rw [h.memBytes, int64_eq (by omega) (by omega)]
      split_ifs <;> first | rfl | omega
  unfold Shard.setLocked
  dsimp only
  rw [h.absent n (le_refl n) (by omega), hcost]
  dsimp only
  rw [hadmitted]

theorem Shard.Loaded.insert (h : sh.Loaded deadline n) (hn : n < 2 ^ 40) (hd : deadline n ≠ 0) :
    (sh.insert (nthKey n) [] (deadline n) 0 168).Loaded deadline (n + 1) := by
  obtain ⟨q, hq⟩ : ∃ q, q = sh.insert (nthKey n) [] (deadline n) 0 168 := ⟨_, rfl⟩
  rw [← hq]
  rw [insert_eq, h.alloc, if_pos hd] at hq
  have hpush : ∀ (a : SlotArray Ptr), a.items = List.range n → (∀ j < n, a.pos j = int32 j) →
      ((a.forget n).push n).items = List.range (n + 1) ∧
        ∀ j < n + 1, ((a.forget n).push n).pos j = int32 j := by
    intro a hitems hpos
    refine ⟨?_, fun j hj => ?_⟩
    · rw [SlotArray.items_push, SlotArray.items_forget, hitems, List.range_succ]
    · by_cases hjn : j = n
      · subst hjn
        show Function.update _ _ _ _ = _
        rw [Function.update_self, SlotArray.items_forget, hitems, List.length_range]
      · rw [SlotArray.pos_push_of_ne hjn, SlotArray.pos_forget_of_ne hjn]
        exact hpos j (by omega)
  obtain ⟨hitems, hpos⟩ := hpush sh.slots h.items h.pos
  obtain ⟨httl, httlPos⟩ := hpush sh.ttlSlots h.ttlItems h.ttlPos
  refine ⟨by rw [hq], fun j hj hlt => ?_, fun j hj => ?_, ?_, ?_, ?_, ?_, ?_⟩
  · rw [hq]
    have hne : nthKey j ≠ nthKey n := fun hc => by
      have := nthKey_inj hlt (by omega) hc
      omega
    exact (AList.lookup_insert_ne hne).trans (h.absent j (by omega) hlt)
  · rw [hq]
    by_cases hjn : j = n
    · subst hjn
      simp [uint32]
    · simpa [Function.update_of_ne hjn] using h.heap j (by omega)
  · rw [hq]; exact hitems
  · rw [hq]; exact hpos
  · rw [hq]; exact httl
  · rw [hq]; exact httlPos
  · rw [hq]
    show int64 (sh.memBytes + 168) = _
    rw [h.memBytes, int64_eq (by omega) (by omega)]
    push_cast
    ring

end KvStore
