import KvStore.Store.LinkedInv

/-!
# The representation invariant of a shard

`ShardInv` adds to the index and the LRU list of a shard its accounting: every entry
caches its cost, and `memBytes` is their sum. The cached sizes are `uint32`, so the
invariant includes the bound below which they are exact.

* `removeEntryLocked_inv`, `overwrite_inv`, `insert_inv`: the three ways in which
  the operations change a shard.
* `ShardInv.maintained`: so every operation keeps it.
-/

namespace KvStore

open KvStore.Common

/-- The accounted cost of an entry. -/
def Shard.cost (s : Shard) (e : Ptr) : ℤ :=
  entryCost (s.heap e).key.length (s.heap e).value.length

/-- The representation invariant. -/
structure ShardInv (s : Shard) : Prop extends LinkedInv s where
  size : ∀ e ∈ s.slots.items, ((s.heap e).size : ℤ) = s.cost e
  cost_lt : ∀ e ∈ s.slots.items, s.cost e < 2 ^ 32
  mem : s.memBytes = (s.slots.items.map s.cost).sum

/-- A shard without entries, whatever is left on the heap. -/
theorem ShardInv.of_empty {s : Shard} (he : s.entries = ∅) (hs : s.slots.items = [])
    (ht : s.ttlSlots.items = []) (hh : s.lru.head = none) (hl : s.lru.tail = none)
    (hm : s.memBytes = 0) : ShardInv s where
  toLinkedInv := .of_empty he hs ht hh hl
  size e h := by simp [hs] at h
  cost_lt e h := by simp [hs] at h
  mem := by simp [hs, hm]

variable {s t : Shard} {e : Ptr}

/-- The limits, the policy, the draws and the reported keys do not matter. -/
theorem ShardInv.congr (h : ShardInv s) (hheap : t.heap = s.heap) (halloc : t.alloc = s.alloc)
    (hentries : t.entries = s.entries) (hslots : t.slots = s.slots)
    (httl : t.ttlSlots = s.ttlSlots) (hlru : t.lru = s.lru) (hexact : t.exactLRU = s.exactLRU)
    (hmem : t.memBytes = s.memBytes) : ShardInv t := by
  have hcost : t.cost = s.cost := by funext b; simp only [Shard.cost, hheap]
  refine
    { toLinkedInv := h.toLinkedInv.congr hheap halloc hentries hslots httl hlru hexact
      size := ?_
      cost_lt := ?_
      mem := ?_ }
  · rw [hheap, hslots, hcost]; exact h.size
  · rw [hslots, hcost]; exact h.cost_lt
  · rw [hslots, hcost, hmem]; exact h.mem

/-! ## Bounds on the accounted size -/

theorem entryCost_pos (k v : ℕ) : 0 < entryCost k v := by
  unfold entryCost entryStructSize mapOverhead; omega

/-- Fewer than `2^31` costs below `2^32` do not overflow an `int64`. -/
theorem sum_cost_bounds {l : List ℤ} (h : ∀ c ∈ l, 0 < c ∧ c < 2 ^ 32) (hlen : l.length < 2 ^ 31) :
    0 ≤ l.sum ∧ l.sum < 2 ^ 63 := by
  have h1 : ∀ m : List ℤ, (∀ c ∈ m, 0 < c ∧ c < 2 ^ 32) → 0 ≤ m.sum ∧ m.sum ≤ m.length * 2 ^ 32 := by
    intro m
    induction m with
    | nil => simp
    | cons c m ih =>
      intro hm
      obtain ⟨i1, i2⟩ := ih fun x hx => hm x (by simp [hx])
      have := hm c (by simp)
      rw [List.sum_cons, List.length_cons]
      push_cast
      omega
  have := h1 l h
  omega

theorem ShardInv.mem_bounds (h : ShardInv s) : 0 ≤ s.memBytes ∧ s.memBytes < 2 ^ 63 := by
  rw [h.mem]
  refine sum_cost_bounds (fun c hc => ?_) (by simpa using h.count)
  obtain ⟨e, he, rfl⟩ := List.mem_map.mp hc
  exact ⟨entryCost_pos _ _, h.cost_lt e he⟩

/-! ## Removal -/

theorem removeEntryLocked_inv (h : ShardInv s) (he : e ∈ s.slots.items) :
    ShardInv (s.removeEntryLocked e) := by
  have hmem : ∀ b, b ∈ (s.slots.remove e).items ↔ b ∈ s.slots.items ∧ b ≠ e :=
    fun b => h.slots.mem_remove he
  have hsub : ∀ b ∈ (s.slots.remove e).items, b ∈ s.slots.items := fun b hb => ((hmem b).mp hb).1
  have hlen := h.slots.length_remove he
  have hlinked := removeEntryLocked_linked h.toLinkedInv he
  rw [removeEntryLocked_eq] at hlinked ⊢
  refine
    { toLinkedInv := hlinked
      size := fun b hb => h.size b (hsub b hb)
      cost_lt := fun b hb => h.cost_lt b (hsub b hb)
      mem := ?_ }
  · have hsum := ((h.slots.perm_remove he).map s.cost).sum_eq
    rw [List.map_cons, List.sum_cons, ← h.mem] at hsum
    have hb := h.mem_bounds
    have hb' := sum_cost_bounds (l := (s.slots.remove e).items.map s.cost)
      (fun c hc => by
        obtain ⟨b, hb, rfl⟩ := List.mem_map.mp hc
        exact ⟨entryCost_pos _ _, h.cost_lt b (hsub b hb)⟩)
      (by have := h.count; rw [List.length_map]; omega)
    show int64 (s.memBytes - (s.heap e).size) = ((s.slots.remove e).items.map s.cost).sum
    rw [h.size e he, int64_eq] <;> omega

/-! ## Changing an entry in place -/

/-- A sum over distinct members changes by the change at one member. -/
theorem sum_map_of_agree {l : List Ptr} (hnd : l.Nodup) (he : e ∈ l) {f g : Ptr → ℤ}
    (hfg : ∀ b ∈ l, b ≠ e → g b = f b) : (l.map g).sum = (l.map f).sum + (g e - f e) := by
  have hperm := List.perm_cons_erase he
  have hrest : (l.erase e).map g = (l.erase e).map f := by
    refine List.map_congr_left fun b hb => ?_
    obtain ⟨hbe, hbl⟩ := hnd.mem_erase_iff.mp hb
    exact hfg b hbl hbe
  rw [(hperm.map g).sum_eq, (hperm.map f).sum_eq, List.map_cons, List.map_cons, List.sum_cons,
    List.sum_cons, hrest]
  ring

/-- Replacing the entry at a member by one with the same key. -/
theorem ShardInv.replace (h : ShardInv s) (he : e ∈ s.slots.items) {x : Entry}
    (hkey : x.key = (s.heap e).key) (hsize : (x.size : ℤ) = entryCost x.key.length x.value.length)
    (hcost : entryCost x.key.length x.value.length < 2 ^ 32) {d : Links Ptr}
    (hlru : s.exactLRU = true → Links.Lists d s.slots.items) :
    ShardInv
      { s with
        heap := Function.update s.heap e x
        ttlSlots := retime s.ttlSlots e (s.heap e).expireAt x.expireAt
        lru := d
        memBytes := int64 (s.memBytes + ((x.size : ℤ) - (s.heap e).size)) } := by
  have hcosts : ∀ b ∈ s.slots.items, 0 < entryCost (Function.update s.heap e x b).key.length
      (Function.update s.heap e x b).value.length ∧
      entryCost (Function.update s.heap e x b).key.length
        (Function.update s.heap e x b).value.length < 2 ^ 32 := by
    intro b hb
    refine ⟨entryCost_pos _ _, ?_⟩
    by_cases hbe : b = e
    · subst hbe; rw [Function.update_self]; exact hcost
    · rw [Function.update_of_ne hbe]; exact h.cost_lt b hb
  refine
    { toLinkedInv := h.toLinkedInv.replace he hkey hlru _
      size := fun b hb => ?_
      cost_lt := fun b hb => (hcosts b hb).2
      mem := ?_ }
  · by_cases hbe : b = e
    · subst hbe; simpa [Shard.cost] using hsize
    · simpa [Shard.cost, Function.update_of_ne hbe] using h.size b hb
  · have hbound := sum_cost_bounds (l := s.slots.items.map fun b => entryCost
        (Function.update s.heap e x b).key.length (Function.update s.heap e x b).value.length)
      (fun c hc => by obtain ⟨b, hb, rfl⟩ := List.mem_map.mp hc; exact hcosts b hb)
      (by rw [List.length_map]; exact h.count)
    have hsum := sum_map_of_agree h.slots.nodup he (f := s.cost) (g := fun b => entryCost
        (Function.update s.heap e x b).key.length (Function.update s.heap e x b).value.length)
      (fun b _ hb => by simp only [Function.update_of_ne hb]; rfl)
    simp only [Function.update_self, ← h.mem, ← hsize, ← h.size e he] at hsum
    show int64 (s.memBytes + ((x.size : ℤ) - (s.heap e).size)) = _
    rw [int64_eq (by omega) (by omega)]
    exact hsum.symm

/-- The overwrite branch of `setLocked` keeps the invariant. -/
theorem overwrite_inv (h : ShardInv s) (he : e ∈ s.slots.items) (value : Bytes)
    (expireAt nowMono : UInt64) (hcost : entryCost (s.heap e).key.length value.length < 2 ^ 32) :
    ShardInv (s.overwrite e value expireAt nowMono (entryCost (s.heap e).key.length value.length)
      (entryCost (s.heap e).key.length value.length - (s.heap e).size)) := by
  have hpos := entryCost_pos (s.heap e).key.length value.length
  have hsize := uint32_eq hpos.le hcost
  rw [h.overwrite_eq he]
  have hinv := h.replace he (x := ⟨(s.heap e).key, value, expireAt, nowMono,
      uint32 (entryCost (s.heap e).key.length value.length)⟩) rfl hsize hcost
    (h.lists_moveToFront he)
  simp only [hsize] at hinv
  exact hinv

/-- A change of the deadline keeps the invariant. -/
theorem ShardInv.setDeadline (h : ShardInv s) (he : e ∈ s.slots.items) (expireAt : UInt64) :
    ShardInv ((s.modify e fun x => { x with expireAt := expireAt }).updateTTLSlot e
      ((s.heap e).expireAt ≠ 0) expireAt) := by
  have hmem := h.mem_bounds
  have hinv := h.replace he (x := { s.heap e with expireAt := expireAt }) rfl (h.size e he)
    (h.cost_lt e he) h.lru
  simp only [sub_self, add_zero, int64_eq (show -(2 ^ 63) ≤ s.memBytes by omega) hmem.2] at hinv
  rw [h.setDeadline_eq he]
  exact hinv

/-- A read keeps the invariant. -/
theorem ShardInv.touch (h : ShardInv s) (he : e ∈ s.slots.items) (nowMono : UInt64) :
    ShardInv (s.modify e fun x => { x with lastAccess := nowMono }) := by
  have hmem := h.mem_bounds
  have hinv := h.replace he (x := { s.heap e with lastAccess := nowMono }) rfl (h.size e he)
    (h.cost_lt e he) h.lru
  simp only [sub_self, add_zero, int64_eq (show -(2 ^ 63) ≤ s.memBytes by omega) hmem.2,
    retime_self] at hinv
  exact hinv

/-! ## Inserting an entry -/

/-- The costs after an insertion. -/
theorem insert_cost (s : Shard) (key value : Bytes) (expireAt nowMono : UInt64) (cost : ℤ)
    (b : Ptr) :
    (s.insert key value expireAt nowMono cost).cost b =
      if b = s.alloc then entryCost key.length value.length else s.cost b := by
  rw [insert_eq]
  by_cases hb : b = s.alloc
  · simp [Shard.cost, hb]
  · simp [Shard.cost, hb]

/-- The insert branch of `setLocked` keeps the invariant. -/
theorem insert_inv (h : ShardInv s) {key value : Bytes} (hnew : s.entries.lookup key = none)
    (expireAt nowMono : UInt64) (hcost : entryCost key.length value.length < 2 ^ 32)
    (hcount : s.slots.items.length + 1 < 2 ^ 31) :
    ShardInv (s.insert key value expireAt nowMono (entryCost key.length value.length)) := by
  have hpos := entryCost_pos key.length value.length
  have hfresh := h.alloc_not_mem
  have hcosts := insert_cost s key value expireAt nowMono (entryCost key.length value.length)
  have hlinked := insert_linked h.toLinkedInv hnew value expireAt nowMono
    (entryCost key.length value.length) hcount
  obtain ⟨t, ht⟩ : ∃ t, t = s.insert key value expireAt nowMono
      (entryCost key.length value.length) := ⟨_, rfl⟩
  rw [← ht] at hcosts hlinked ⊢
  rw [insert_eq] at ht
  have hitems : t.slots.items = s.slots.items ++ [s.alloc] := by rw [ht]; rfl
  have hmem : ∀ b, b ∈ t.slots.items ↔ b ∈ s.slots.items ∨ b = s.alloc := by
    intro b; simp [hitems]
  have hcostlt : ∀ b ∈ t.slots.items, t.cost b < 2 ^ 32 := by
    intro b hb
    rw [hcosts]
    split_ifs with hbe
    · exact hcost
    · exact h.cost_lt b (((hmem b).mp hb).resolve_right hbe)
  refine
    { toLinkedInv := hlinked
      size := fun b hb => ?_
      cost_lt := hcostlt
      mem := ?_ }
  · rw [hcosts]
    split_ifs with hbe
    · subst hbe
      rw [ht]
      simpa using uint32_eq hpos.le hcost
    · have hheap : t.heap b = s.heap b := by rw [ht]; exact Function.update_of_ne hbe _ _
      rw [hheap]
      exact h.size b (((hmem b).mp hb).resolve_right hbe)
  · have hbound := sum_cost_bounds (l := t.slots.items.map t.cost)
      (fun c hc => by
        obtain ⟨b, hb, rfl⟩ := List.mem_map.mp hc
        exact ⟨entryCost_pos _ _, hcostlt b hb⟩)
      (by rw [List.length_map]; exact hlinked.count)
    have hold : s.slots.items.map t.cost = s.slots.items.map s.cost :=
      List.map_congr_left fun b hb => by
        rw [hcosts, if_neg (ne_of_mem_of_not_mem hb hfresh)]
    have hsum : (t.slots.items.map t.cost).sum =
        s.memBytes + entryCost key.length value.length := by
      rw [hitems, List.map_append, List.sum_append, hold, ← h.mem, List.map_singleton,
        List.sum_singleton, hcosts, if_pos rfl]
    have hmemb : t.memBytes = int64 (s.memBytes + entryCost key.length value.length) := by rw [ht]
    rw [hmemb, hsum, int64_eq] <;> omega

/-! ## Every operation -/

theorem ShardInv.maintained :
    Maintained ShardInv fun key value => entryCost key.length value.length < 2 ^ 32 where
  linked := ShardInv.toLinkedInv
  of_empty := ShardInv.of_empty
  congr := ShardInv.congr
  remove := removeEntryLocked_inv
  touch := ShardInv.touch
  setDeadline := ShardInv.setDeadline
  overwrite := overwrite_inv
  insert h := insert_inv h

end KvStore
