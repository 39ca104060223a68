import KvStore.Store.IndexInv

/-!
# The index and the LRU list of a shard

`LinkedInv` adds to the index of a shard its LRU list: with `exactLRU` the intrusive list
holds exactly the entries. Like the index it does not speak of accounting, so it holds
whatever the entries cost.

* `removeEntryLocked_linked`, `LinkedInv.replace`, `overwrite_linked`, `insert_linked`: the
  ways in which the operations change the index and the list.
* `Maintained`: what an invariant has to be kept by, to be kept by every operation of a shard.
-/

namespace KvStore

open KvStore.Common

/-- The list `d` holds the members of `slots`. -/
def Links.Lists (d : Links Ptr) (slots : List Ptr) : Prop :=
  ∃ l, d.Holds l ∧ ∀ e, e ∈ l ↔ e ∈ slots

/-- The map, the two arrays and, with `exactLRU`, the list describe one set of entries. -/
structure LinkedInv (s : Shard) : Prop extends IndexInv s where
  lru : s.exactLRU = true → Links.Lists s.lru s.slots.items

/-- A shard without entries, whatever is left on the heap. -/
theorem LinkedInv.of_empty {s : Shard} (he : s.entries = ∅) (hs : s.slots.items = [])
    (ht : s.ttlSlots.items = []) (hh : s.lru.head = none) (hl : s.lru.tail = none) :
    LinkedInv s where
  toIndexInv := .of_empty he hs ht
  lru _ := ⟨[], .nil hh hl, fun e => by simp [hs]⟩

variable {s t : Shard} {e : Ptr}

/-- The limits, the policy, the draws, the accounting and the reported keys do not matter. -/
theorem LinkedInv.congr (h : LinkedInv s) (hheap : t.heap = s.heap) (halloc : t.alloc = s.alloc)
    (hentries : t.entries = s.entries) (hslots : t.slots = s.slots)
    (httl : t.ttlSlots = s.ttlSlots) (hlru : t.lru = s.lru) (hexact : t.exactLRU = s.exactLRU) :
    LinkedInv t where
  toIndexInv := h.toIndexInv.congr hheap halloc hentries hslots httl
  lru := by rw [hslots, hlru, hexact]; exact h.lru

theorem removeEntryLocked_linked (h : LinkedInv s) (he : e ∈ s.slots.items) :
    LinkedInv (s.removeEntryLocked e) := by
  have hindex := removeEntryLocked_index h.toIndexInv he
  rw [removeEntryLocked_eq] at hindex ⊢
  refine { toIndexInv := hindex, lru := fun hl => ?_ }
  obtain ⟨l, hl1, hl2⟩ := h.lru hl
  have hel : e ∈ l := (hl2 e).mpr he
  refine ⟨l.erase e, ?_, fun b => ?_⟩
  · rw [if_pos hl]; exact hl1.remove hel
  · show b ∈ l.erase e ↔ b ∈ (s.slots.remove e).items
    rw [h.slots.mem_remove he, hl1.nodup.mem_erase_iff, hl2, and_comm]

/-- Replacing the entry at a member by one with the same key. -/
theorem LinkedInv.replace (h : LinkedInv s) (he : e ∈ s.slots.items) {x : Entry}
    (hkey : x.key = (s.heap e).key) {d : Links Ptr}
    (hlru : s.exactLRU = true → Links.Lists d s.slots.items) (m : ℤ) :
    LinkedInv
      { s with
        heap := Function.update s.heap e x
        ttlSlots := retime s.ttlSlots e (s.heap e).expireAt x.expireAt
        lru := d
        memBytes := m } :=
  { toIndexInv := h.toIndexInv.replace he hkey d m, lru := hlru }

/-- The list after the entry at a member went to its front. -/
theorem LinkedInv.lists_moveToFront (h : LinkedInv s) (he : e ∈ s.slots.items)
    (hl : s.exactLRU = true) :
    Links.Lists (if s.exactLRU = true then s.lru.moveToFront e else s.lru) s.slots.items := by
  obtain ⟨l, hl1, hl2⟩ := h.lru hl
  have hel : e ∈ l := (hl2 e).mpr he
  refine ⟨e :: l.erase e, by rw [if_pos hl]; exact hl1.moveToFront hel, fun b => ?_⟩
  rw [List.mem_cons, hl1.nodup.mem_erase_iff, ← hl2 b]
  by_cases hb : b = e <;> simp [hb, hel]

/-- The overwrite branch of `setLocked` keeps the invariant. -/
theorem overwrite_linked (h : LinkedInv s) (he : e ∈ s.slots.items) (value : Bytes)
    (expireAt nowMono : UInt64) (cost delta : ℤ) :
    LinkedInv (s.overwrite e value expireAt nowMono cost delta) := by
  rw [h.overwrite_eq he]
  exact h.replace (x := ⟨(s.heap e).key, value, expireAt, nowMono, uint32 cost⟩) he rfl
    (h.lists_moveToFront he) _

/-- A change of the deadline keeps the invariant. -/
theorem LinkedInv.setDeadline (h : LinkedInv s) (he : e ∈ s.slots.items) (expireAt : UInt64) :
    LinkedInv ((s.modify e fun x => { x with expireAt := expireAt }).updateTTLSlot e
      ((s.heap e).expireAt ≠ 0) expireAt) := by
  rw [h.setDeadline_eq he]
  exact h.replace (x := { s.heap e with expireAt := expireAt }) he rfl h.lru s.memBytes

/-- A read keeps the invariant. -/
theorem LinkedInv.touch (h : LinkedInv s) (he : e ∈ s.slots.items) (nowMono : UInt64) :
    LinkedInv (s.modify e fun x => { x with lastAccess := nowMono }) :=
  { toIndexInv := h.toIndexInv.touch he nowMono, lru := h.lru }

/-- The insert branch of `setLocked` keeps the invariant. -/
theorem insert_linked (h : LinkedInv s) {key : Bytes} (hnew : s.entries.lookup key = none)
    (value : Bytes) (expireAt nowMono : UInt64) (cost : ℤ)
    (hlen : s.slots.items.length + 1 < 2 ^ 31) :
    LinkedInv (s.insert key value expireAt nowMono cost) := by
  have hindex := insert_index h.toIndexInv hnew value expireAt nowMono cost hlen
  rw [insert_eq] at hindex ⊢
  refine { toIndexInv := hindex, lru := fun hl => ?_ }
  obtain ⟨l, hl1, hl2⟩ := h.lru hl
  have hfresh : s.alloc ∉ l := fun hc => h.alloc_not_mem ((hl2 _).mp hc)
  refine ⟨s.alloc :: l, by rw [if_pos hl]; exact hl1.pushFront hfresh, fun b => ?_⟩
  simp [hl2, or_comm]

/-! ## What the operations are made of -/

/-- An invariant that every step from which the operations are built keeps. A write keeps it when
    its key and value satisfy `fits` and it leaves fewer than `2^31` entries. -/
structure Maintained (I : Shard → Prop) (fits : Bytes → Bytes → Prop) : Prop where
  linked : ∀ {s}, I s → LinkedInv s
  of_empty : ∀ {s : Shard}, s.entries = ∅ → s.slots.items = [] → s.ttlSlots.items = [] →
    s.lru.head = none → s.lru.tail = none → s.memBytes = 0 → I s
  congr : ∀ {s t : Shard}, I s → t.heap = s.heap → t.alloc = s.alloc → t.entries = s.entries →
    t.slots = s.slots → t.ttlSlots = s.ttlSlots → t.lru = s.lru → t.exactLRU = s.exactLRU →
    t.memBytes = s.memBytes → I t
  remove : ∀ {s e}, I s → e ∈ s.slots.items → I (s.removeEntryLocked e)
  touch : ∀ {s e}, I s → e ∈ s.slots.items → ∀ nowMono,
    I (s.modify e fun x => { x with lastAccess := nowMono })
  setDeadline : ∀ {s e}, I s → e ∈ s.slots.items → ∀ expireAt,
    I ((s.modify e fun x => { x with expireAt := expireAt }).updateTTLSlot e
      ((s.heap e).expireAt ≠ 0) expireAt)
  overwrite : ∀ {s e}, I s → e ∈ s.slots.items → ∀ value expireAt nowMono,
    fits (s.heap e).key value →
    I (s.overwrite e value expireAt nowMono (entryCost (s.heap e).key.length value.length)
      (entryCost (s.heap e).key.length value.length - (s.heap e).size))
  insert : ∀ {s key value}, I s → s.entries.lookup key = none → ∀ expireAt nowMono,
    fits key value → s.slots.items.length + 1 < 2 ^ 31 →
    I (s.insert key value expireAt nowMono (entryCost key.length value.length))

/-- The index and the list are kept whatever an entry costs. -/
theorem LinkedInv.maintained : Maintained LinkedInv fun _ _ => True where
  linked h := h
  of_empty he hs ht hh hl _ := .of_empty he hs ht hh hl
  congr h h1 h2 h3 h4 h5 h6 h7 _ := h.congr h1 h2 h3 h4 h5 h6 h7
  remove := removeEntryLocked_linked
  touch := LinkedInv.touch
  setDeadline := LinkedInv.setDeadline
  overwrite h he value expireAt nowMono _ := overwrite_linked h he value expireAt nowMono _ _
  insert h hnew expireAt nowMono _ hlen := insert_linked h hnew _ expireAt nowMono _ hlen

section

variable {I : Shard → Prop} {fits : Bytes → Bytes → Prop} (hI : Maintained I fits)

include hI

theorem Maintained.index (h : I s) : IndexInv s := (hI.linked h).toIndexInv

/-- The generator is no part of an invariant. -/
theorem Maintained.of_rng (h : I s) (rng : Draws) : I { s with rng := rng } :=
  hI.congr h rfl rfl rfl rfl rfl rfl rfl rfl

/-- `SetMemoryLimit` on one shard (memory.go lines 96–106) changes its limits only. -/
theorem Maintained.of_limits (h : I s) (budget lowWater : ℤ) :
    I { s with budget := budget, lowWater := lowWater } :=
  hI.congr h rfl rfl rfl rfl rfl rfl rfl rfl

theorem Maintained.removeAndFire (h : I s) (he : e ∈ s.slots.items) (reason : EvictReason) :
    I (s.removeAndFire e reason) :=
  hI.congr (hI.remove h he) rfl rfl rfl rfl rfl rfl rfl rfl

/-- `newShard` starts without entries. -/
theorem Maintained.newShard (sampleK batchMax : ℕ) (rng : Draws) (exactLRU : Bool)
    (policy : EvictPolicy) : I (newShard sampleK batchMax rng exactLRU policy) :=
  hI.of_empty rfl rfl rfl rfl rfl rfl

/-- `flushLocked` leaves the cached positions and links of the dropped entries behind; none of
    them is a member any more. -/
theorem Maintained.flushLocked (s : Shard) : I s.flushLocked :=
  hI.of_empty rfl rfl rfl rfl rfl rfl

theorem Maintained.delLocked (h : I s) (key : Bytes) : I (s.delLocked key).2 := by
  unfold Shard.delLocked
  split
  · exact h
  · rename_i e he
    exact hI.remove h ((hI.index h).mem_of_lookup he)

theorem Maintained.expireLocked (h : I s) (key : Bytes) (expireAt : UInt64) :
    I (s.expireLocked key expireAt).2 := by
  unfold Shard.expireLocked
  split
  · exact h
  · rename_i e he
    exact hI.setDeadline h ((hI.index h).mem_of_lookup he) expireAt

theorem Maintained.getLocked (h : I s) (key : Bytes) (nowMs nowMono : UInt64) :
    I (s.getLocked key nowMs nowMono).2.2 := by
  unfold Shard.getLocked
  split
  · exact h
  · rename_i e he
    split_ifs
    · exact h
    · exact hI.touch h ((hI.index h).mem_of_lookup he) nowMono

end

end KvStore
