import KvStore.Store.Shard

/-!
# The index of a shard

The map `entries`, the array `slots` of all entries and the array `ttlSlots` of the
entries with a deadline describe one set of entries. `IndexInv` says that they
agree, with the bound below which the cached `int32` positions are exact. It does
not speak of accounting or of the LRU list, so it holds whatever the entries cost.

* `removeEntryLocked_index`, `IndexInv.replace`, `insert_index`: the three ways in
  which the operations change the index.
* `IndexInv.slots_perm`, `IndexInv.keys_perm`: the slots enumerate the map.
-/

namespace KvStore

open KvStore.Common

/-- The map leads each key to an allocated entry carrying that key. -/
structure KeyInv (s : Shard) : Prop where
  key : ∀ {k : Bytes} {e : Ptr}, s.entries.lookup k = some e → (s.heap e).key = k
  alloc : ∀ {k : Bytes} {e : Ptr}, s.entries.lookup k = some e → e < s.alloc

/-- The two arrays enumerate the entries of the map, and those with a deadline. -/
structure IndexInv (s : Shard) : Prop extends KeyInv s where
  slots : s.slots.Holds
  mem_slots : ∀ e, e ∈ s.slots.items ↔ s.entries.lookup (s.heap e).key = some e
  ttl : s.ttlSlots.Holds
  mem_ttl : ∀ e, e ∈ s.ttlSlots.items ↔ e ∈ s.slots.items ∧ (s.heap e).expireAt ≠ 0
  ttl_none : ∀ e ∈ s.slots.items, (s.heap e).expireAt = 0 → s.ttlSlots.pos e = -1
  count : s.slots.items.length < 2 ^ 31

/-- A shard without entries, whatever is left on the heap. -/
theorem IndexInv.of_empty {s : Shard} (he : s.entries = ∅) (hs : s.slots.items = [])
    (ht : s.ttlSlots.items = []) : IndexInv s where
  key h := by simp [he] at h
  alloc h := by simp [he] at h
  slots := by rw [SlotArray.Holds, hs]; exact Indexed.nil _
  mem_slots e := by simp [he, hs]
  ttl := by rw [SlotArray.Holds, ht]; exact Indexed.nil _
  mem_ttl e := by simp [hs, ht]
  ttl_none e h := by simp [hs] at h
  count := by simp [hs]

variable {s t : Shard} {e : Ptr}

/-- Only the heap, the map and the two arrays matter. -/
theorem IndexInv.congr (h : IndexInv s) (hheap : t.heap = s.heap) (halloc : t.alloc = s.alloc)
    (hentries : t.entries = s.entries) (hslots : t.slots = s.slots)
    (httl : t.ttlSlots = s.ttlSlots) : IndexInv t where
  key := by rw [hheap, hentries]; exact h.key
  alloc := by rw [halloc, hentries]; exact h.alloc
  slots := by rw [hslots]; exact h.slots
  mem_slots := by rw [hheap, hentries, hslots]; exact h.mem_slots
  ttl := by rw [httl]; exact h.ttl
  mem_ttl := by rw [hheap, hslots, httl]; exact h.mem_ttl
  ttl_none := by rw [hheap, hslots, httl]; exact h.ttl_none
  count := by rw [hslots]; exact h.count

theorem IndexInv.lookup_of_mem (h : IndexInv s) (he : e ∈ s.slots.items) :
    s.entries.lookup (s.heap e).key = some e := (h.mem_slots e).mp he

theorem IndexInv.mem_of_lookup (h : IndexInv s) {k : Bytes} (hk : s.entries.lookup k = some e) :
    e ∈ s.slots.items := by
  rw [h.mem_slots, h.key hk, hk]

/-- Entries that are not allocated yet are in neither array. -/
theorem IndexInv.alloc_not_mem (h : IndexInv s) : s.alloc ∉ s.slots.items := fun hc =>
  lt_irrefl _ (h.alloc (h.lookup_of_mem hc))

theorem IndexInv.length_ttl_le (h : IndexInv s) :
    s.ttlSlots.items.length ≤ s.slots.items.length :=
  (h.ttl.nodup.subperm fun b hb => ((h.mem_ttl b).mp hb).1).length_le

/-! ## The slots enumerate the map -/

/-- The slots enumerate the entries of the map. -/
theorem IndexInv.slots_perm (h : IndexInv s) :
    s.slots.items.Perm (s.entries.entries.map Sigma.snd) := by
  have hkey : ∀ p ∈ s.entries.entries, (s.heap p.2).key = p.1 := fun p hp =>
    h.key (AList.mem_lookup_iff.mpr hp)
  refine (List.perm_ext_iff_of_nodup h.slots.nodup ?_).mpr fun e => ?_
  · refine List.Nodup.map_on (fun p hp q hq hpq => ?_) s.entries.nodupKeys.nodup
    have hfst : p.1 = q.1 := by rw [← hkey p hp, ← hkey q hq, hpq]
    exact Sigma.ext hfst (heq_of_eq hpq)
  · rw [List.mem_map]
    constructor
    · intro he
      exact ⟨⟨(s.heap e).key, e⟩, AList.mem_lookup_iff.mp (h.lookup_of_mem he), rfl⟩
    · rintro ⟨p, hp, rfl⟩
      exact h.mem_of_lookup (AList.mem_lookup_iff.mpr hp)

/-- Hence they enumerate its keys. -/
theorem IndexInv.keys_perm (h : IndexInv s) :
    (s.slots.items.map fun e => (s.heap e).key).Perm s.entries.keys := by
  have hmap := h.slots_perm.map fun e => (s.heap e).key
  have hkeys : ((s.entries.entries.map Sigma.snd).map fun e => (s.heap e).key) = s.entries.keys := by
    rw [List.map_map]
    exact List.map_congr_left fun p hp => h.key (AList.mem_lookup_iff.mpr hp)
  rwa [hkeys] at hmap

theorem IndexInv.length_slots (h : IndexInv s) :
    s.slots.items.length = s.entries.keys.length := by
  rw [← h.keys_perm.length_eq, List.length_map]

theorem length_keys_insert {α : Type} {β : α → Type} [DecidableEq α] {a : α}
    {b : β a} {m : AList β} (h : a ∉ m) : (m.insert a b).keys.length = m.keys.length + 1 := by
  rw [AList.keys_insert, List.length_cons, List.erase_of_not_mem]
  exact h

/-! ## Removal -/

/-- Everything `removeEntryLocked` changes. -/
theorem removeEntryLocked_eq (s : Shard) (e : Ptr) :
    s.removeEntryLocked e =
      { s with
        entries := s.entries.erase (s.heap e).key
        slots := s.slots.remove e
        ttlSlots := (s.ttlSlots.remove e).forget e
        lru := if s.exactLRU = true then s.lru.remove e else s.lru
        memBytes := int64 (s.memBytes - (s.heap e).size) } := by
  cases h : s.exactLRU <;>
    simp [Shard.removeEntryLocked, Shard.removeSlotLocked, Shard.removeTTLSlotLocked,
      Shard.lruRemoveLocked, Shard.addMem, h, sub_eq_add_neg]

/-- Taking a member out of the TTL index, whether it is in it or not. -/
theorem IndexInv.ttl_removed (h : IndexInv s) (he : e ∈ s.slots.items) :
    ((s.ttlSlots.remove e).forget e).Holds ∧
      (∀ b, b ∈ (s.ttlSlots.remove e).items ↔ b ∈ s.ttlSlots.items ∧ b ≠ e) ∧
      ∀ b, b ∉ s.ttlSlots.items → b ≠ e →
        ((s.ttlSlots.remove e).forget e).pos b = s.ttlSlots.pos b := by
  by_cases ht : e ∈ s.ttlSlots.items
  · have hmem : ∀ b, b ∈ (s.ttlSlots.remove e).items ↔ b ∈ s.ttlSlots.items ∧ b ≠ e :=
      fun b => h.ttl.mem_remove ht
    refine ⟨(h.ttl.remove ht).forget (fun hc => ((hmem e).mp hc).2 rfl), hmem, fun b hb hbe => ?_⟩
    rw [SlotArray.pos_forget_of_ne hbe, h.ttl.pos_remove_of_not_mem ht hb]
  · have h0 : (s.heap e).expireAt = 0 := by
      by_contra hne
      exact ht ((h.mem_ttl e).mpr ⟨he, hne⟩)
    rw [SlotArray.remove_of_neg (by rw [h.ttl_none e he h0]; decide)]
    refine ⟨h.ttl.forget ht, fun b => ⟨fun hb => ⟨hb, ne_of_mem_of_not_mem hb ht⟩, And.left⟩, ?_⟩
    exact fun b _ hbe => SlotArray.pos_forget_of_ne hbe

/-- What the map holds after the removal of a member. -/
theorem IndexInv.lookup_erase (h : IndexInv s) (he : e ∈ s.slots.items) {k : Bytes} {b : Ptr} :
    (s.entries.erase (s.heap e).key).lookup k = some b ↔ s.entries.lookup k = some b ∧ b ≠ e := by
  by_cases hk : k = (s.heap e).key
  · subst hk
    rw [AList.lookup_erase, h.lookup_of_mem he]
    constructor
    · rintro ⟨⟩
    · rintro ⟨hb, hne⟩
      exact absurd (Option.some.inj hb).symm hne
  · rw [AList.lookup_erase_ne hk]
    refine ⟨fun hb => ⟨hb, ?_⟩, And.left⟩
    rintro rfl
    exact hk (h.key hb).symm

theorem removeEntryLocked_index (h : IndexInv s) (he : e ∈ s.slots.items) :
    IndexInv (s.removeEntryLocked e) := by
  have hmem : ∀ b, b ∈ (s.slots.remove e).items ↔ b ∈ s.slots.items ∧ b ≠ e :=
    fun b => h.slots.mem_remove he
  have hlen := h.slots.length_remove he
  obtain ⟨httl, hmemttl, hpos⟩ := h.ttl_removed he
  rw [removeEntryLocked_eq]
  refine
    { key := fun hk => h.key ((h.lookup_erase he).mp hk).1
      alloc := fun hk => h.alloc ((h.lookup_erase he).mp hk).1
      slots := h.slots.remove he
      mem_slots := fun b => ?_
      ttl := httl
      mem_ttl := fun b => ?_
      ttl_none := fun b hb h0 => ?_
      count := ?_ }
  · rw [hmem, h.mem_slots]
    exact (h.lookup_erase he).symm
  · show b ∈ (s.ttlSlots.remove e).items ↔ _
    rw [hmemttl, hmem, h.mem_ttl]
    tauto
  · obtain ⟨hb1, hb2⟩ := (hmem b).mp hb
    exact (hpos b (fun hc => ((h.mem_ttl b).mp hc).2 h0) hb2).trans (h.ttl_none b hb1 h0)
  · have := h.count
    show (s.slots.remove e).items.length < _
    omega

/-! ## Changing an entry in place -/

/-- The TTL index after the deadline of `e` went from `old` to `new`. -/
def retime (a : SlotArray Ptr) (e : Ptr) (old new : UInt64) : SlotArray Ptr :=
  if new ≠ 0 ∧ old = 0 then a.push e else if new = 0 ∧ old ≠ 0 then (a.remove e).forget e else a

theorem IndexInv.updateTTLSlot_eq (h : IndexInv s) (he : e ∈ s.slots.items) (x : Entry) :
    (s.modify e fun _ => x).updateTTLSlot e ((s.heap e).expireAt ≠ 0) x.expireAt =
      { s with
        heap := Function.update s.heap e x
        ttlSlots := retime s.ttlSlots e (s.heap e).expireAt x.expireAt } := by
  by_cases hold : (s.heap e).expireAt = 0
  · have hpos : ¬ (0 ≤ s.ttlSlots.pos e) := by rw [h.ttl_none e he hold]; decide
    by_cases hnew : x.expireAt = 0 <;>
      simp [Shard.updateTTLSlot, retime, Shard.modify, Shard.addTTLSlotLocked, hold, hnew, hpos]
  · by_cases hnew : x.expireAt = 0 <;>
      simp [Shard.updateTTLSlot, retime, Shard.modify, Shard.removeTTLSlotLocked, hold, hnew]

/-- The TTL index stays right when one entry is replaced. -/
theorem IndexInv.retime_spec (h : IndexInv s) (he : e ∈ s.slots.items) (new : UInt64) :
    (retime s.ttlSlots e (s.heap e).expireAt new).Holds ∧
      (∀ b, b ∈ (retime s.ttlSlots e (s.heap e).expireAt new).items ↔
        if b = e then new ≠ 0 else b ∈ s.ttlSlots.items) ∧
      (new = 0 → (retime s.ttlSlots e (s.heap e).expireAt new).pos e = -1) ∧
      ∀ b, b ∉ s.ttlSlots.items → b ≠ e →
        (retime s.ttlSlots e (s.heap e).expireAt new).pos b = s.ttlSlots.pos b := by
  have hsub := h.length_ttl_le
  have hcount := h.count
  have hmem := h.mem_ttl e
  unfold retime
  by_cases hold : (s.heap e).expireAt = 0
  · have hne : e ∉ s.ttlSlots.items := fun hc => (hmem.mp hc).2 hold
    by_cases hnew : new = 0
    · rw [if_neg (by tauto), if_neg (by tauto)]
      refine ⟨h.ttl, fun b => ?_, fun _ => h.ttl_none e he hold, fun _ _ _ => rfl⟩
      by_cases hb : b = e
      · simp [hb, hne, hnew]
      · simp [hb]
    · rw [if_pos ⟨hnew, hold⟩]
      refine ⟨h.ttl.push hne (by omega), fun b => ?_, fun hc => absurd hc hnew, fun b _ hb => ?_⟩
      · by_cases hb : b = e
        · simp [hb, hnew]
        · simp [hb]
      · exact SlotArray.pos_push_of_ne hb
  · have hin : e ∈ s.ttlSlots.items := hmem.mpr ⟨he, hold⟩
    by_cases hnew : new = 0
    · obtain ⟨h1, h2, h3⟩ := h.ttl_removed he
      rw [if_neg (by tauto), if_pos ⟨hnew, hold⟩]
      refine ⟨h1, fun b => ?_, fun _ => SlotArray.pos_forget_self _ e, h3⟩
      rw [SlotArray.items_forget, h2]
      by_cases hb : b = e
      · simp [hb, hnew]
      · simp [hb]
    · rw [if_neg (by tauto), if_neg (by tauto)]
      refine ⟨h.ttl, fun b => ?_, fun hc => absurd hc hnew, fun _ _ _ => rfl⟩
      by_cases hb : b = e
      · simp [hb, hin, hnew]
      · simp [hb]

theorem retime_self (a : SlotArray Ptr) (e : Ptr) (x : UInt64) : retime a e x x = a := by
  unfold retime
  rw [if_neg (by tauto), if_neg (by tauto)]

/-- Replacing the entry at a member by one with the same key. -/
theorem IndexInv.replace (h : IndexInv s) (he : e ∈ s.slots.items) {x : Entry}
    (hkey : x.key = (s.heap e).key) (d : Links Ptr) (m : ℤ) :
    IndexInv
      { s with
        heap := Function.update s.heap e x
        ttlSlots := retime s.ttlSlots e (s.heap e).expireAt x.expireAt
        lru := d
        memBytes := m } := by
  obtain ⟨hr1, hr2, hr3, hr4⟩ := h.retime_spec he x.expireAt
  have hkeys : ∀ b, (Function.update s.heap e x b).key = (s.heap b).key := by
    intro b
    by_cases hb : b = e
    · subst hb; rw [Function.update_self, hkey]
    · rw [Function.update_of_ne hb]
  refine
    { key := fun {k b} hk => (hkeys b).trans (h.key hk)
      alloc := h.alloc
      slots := h.slots
      mem_slots := fun b => by rw [hkeys]; exact h.mem_slots b
      ttl := hr1
      mem_ttl := fun b => ?_
      ttl_none := fun b hb h0 => ?_
      count := h.count }
  · rw [hr2]
    by_cases hb : b = e
    · subst hb; simp [he]
    · simp only [hb, ite_false, Function.update_of_ne hb]
      exact h.mem_ttl b
  · by_cases hbe : b = e
    · subst hbe
      exact hr3 (by simpa using h0)
    · simp only [Function.update_of_ne hbe] at h0
      exact (hr4 b (fun hc => ((h.mem_ttl b).mp hc).2 h0) hbe).trans (h.ttl_none b hb h0)

theorem IndexInv.overwrite_eq (h : IndexInv s) (he : e ∈ s.slots.items) (value : Bytes)
    (expireAt nowMono : UInt64) (cost delta : ℤ) :
    s.overwrite e value expireAt nowMono cost delta =
      { s with
        heap := Function.update s.heap e
          { key := (s.heap e).key, value := value, expireAt := expireAt, lastAccess := nowMono,
            size := uint32 cost }
        ttlSlots := retime s.ttlSlots e (s.heap e).expireAt expireAt
        lru := if s.exactLRU = true then s.lru.moveToFront e else s.lru
        memBytes := int64 (s.memBytes + delta) } := by
  have htt := h.updateTTLSlot_eq he
    { key := (s.heap e).key, value := value, expireAt := expireAt, lastAccess := nowMono,
      size := uint32 cost }
  unfold Shard.overwrite
  dsimp only at htt ⊢
  erw [htt]
  cases s.exactLRU <;> simp [Shard.lruMoveToFrontLocked, Shard.addMem]

/-- The overwrite branch of `setLocked` keeps the index. -/
theorem overwrite_index (h : IndexInv s) (he : e ∈ s.slots.items) (value : Bytes)
    (expireAt nowMono : UInt64) (cost delta : ℤ) :
    IndexInv (s.overwrite e value expireAt nowMono cost delta) := by
  rw [h.overwrite_eq he]
  exact h.replace (x := ⟨(s.heap e).key, value, expireAt, nowMono, uint32 cost⟩) he rfl _ _

/-- What `expireLocked` does to a member. -/
theorem IndexInv.setDeadline_eq (h : IndexInv s) (he : e ∈ s.slots.items) (expireAt : UInt64) :
    (s.modify e fun x => { x with expireAt := expireAt }).updateTTLSlot e
        ((s.heap e).expireAt ≠ 0) expireAt =
      { s with
        heap := Function.update s.heap e { s.heap e with expireAt := expireAt }
        ttlSlots := retime s.ttlSlots e (s.heap e).expireAt expireAt } :=
  h.updateTTLSlot_eq he { s.heap e with expireAt := expireAt }

theorem IndexInv.setDeadline (h : IndexInv s) (he : e ∈ s.slots.items) (expireAt : UInt64) :
    IndexInv ((s.modify e fun x => { x with expireAt := expireAt }).updateTTLSlot e
      ((s.heap e).expireAt ≠ 0) expireAt) := by
  rw [h.setDeadline_eq he]
  exact h.replace (x := { s.heap e with expireAt := expireAt }) he rfl s.lru s.memBytes

/-- A read only changes the access time. -/
theorem IndexInv.touch (h : IndexInv s) (he : e ∈ s.slots.items) (nowMono : UInt64) :
    IndexInv (s.modify e fun x => { x with lastAccess := nowMono }) := by
  have hinv := h.replace (x := { s.heap e with lastAccess := nowMono }) he rfl s.lru s.memBytes
  rwa [retime_self] at hinv

/-! ## Inserting an entry -/

theorem insert_eq (s : Shard) (key value : Bytes) (expireAt nowMono : UInt64) (cost : ℤ) :
    s.insert key value expireAt nowMono cost =
      { s with
        heap := Function.update s.heap s.alloc ⟨key, value, expireAt, nowMono, uint32 cost⟩
        alloc := s.alloc + 1
        entries := s.entries.insert key s.alloc
        slots := (s.slots.forget s.alloc).push s.alloc
        ttlSlots :=
          if expireAt ≠ 0 then (s.ttlSlots.forget s.alloc).push s.alloc
          else (s.ttlSlots.forget s.alloc).forget s.alloc
        lru := if s.exactLRU = true then s.lru.pushFront s.alloc else s.lru
        memBytes := int64 (s.memBytes + cost) } := by
  cases hl : s.exactLRU <;>
    simp [Shard.insert, Shard.addSlotLocked, Shard.lruPushFrontLocked, Shard.addMem, hl]

/-- The map after an insertion. -/
theorem lookup_insert_iff (s : Shard) (key : Bytes) (a : Ptr) {k : Bytes} {b : Ptr} :
    (s.entries.insert key a).lookup k = some b ↔
      k = key ∧ b = a ∨ k ≠ key ∧ s.entries.lookup k = some b := by
  by_cases hk : k = key
  · subst hk
    rw [AList.lookup_insert]
    simp [eq_comm]
  · rw [AList.lookup_insert_ne hk]
    simp [hk]

/-- The TTL index after the insertion of a fresh entry. -/
theorem IndexInv.ttl_inserted (h : IndexInv s) (hlen : s.slots.items.length + 1 < 2 ^ 31)
    (expireAt : UInt64) {a : SlotArray Ptr}
    (ha : a = if expireAt ≠ 0 then (s.ttlSlots.forget s.alloc).push s.alloc
      else (s.ttlSlots.forget s.alloc).forget s.alloc) :
    a.Holds ∧ (∀ b, b ∈ a.items ↔ b ∈ s.ttlSlots.items ∨ b = s.alloc ∧ expireAt ≠ 0) ∧
      (expireAt = 0 → a.pos s.alloc = -1) ∧ ∀ b, b ≠ s.alloc → a.pos b = s.ttlSlots.pos b := by
  have hfresh : s.alloc ∉ s.ttlSlots.items := fun hc => h.alloc_not_mem ((h.mem_ttl _).mp hc).1
  have hle := h.length_ttl_le
  subst ha
  by_cases hx : expireAt = 0
  · rw [if_neg (by tauto)]
    refine ⟨(h.ttl.forget hfresh).forget hfresh, fun b => by simp [hx],
      fun _ => SlotArray.pos_forget_self _ _, fun b hb => ?_⟩
    rw [SlotArray.pos_forget_of_ne hb, SlotArray.pos_forget_of_ne hb]
  · rw [if_pos hx]
    refine ⟨(h.ttl.forget hfresh).push hfresh (by rw [SlotArray.items_forget]; omega),
      fun b => by simp [hx], fun hc => absurd hc hx, fun b hb => ?_⟩
    rw [SlotArray.pos_push_of_ne hb, SlotArray.pos_forget_of_ne hb]

/-- The insert branch of `setLocked` keeps the index. -/
theorem insert_index (h : IndexInv s) {key : Bytes} (hnew : s.entries.lookup key = none)
    (value : Bytes) (expireAt nowMono : UInt64) (cost : ℤ)
    (hlen : s.slots.items.length + 1 < 2 ^ 31) :
    IndexInv (s.insert key value expireAt nowMono cost) := by
  have hfresh := h.alloc_not_mem
  have hne : ∀ {b}, b ∈ s.slots.items → b ≠ s.alloc := fun hb => ne_of_mem_of_not_mem hb hfresh
  rw [insert_eq]
  obtain ⟨ht1, ht2, ht3, ht4⟩ := h.ttl_inserted hlen expireAt rfl
  have hmem : ∀ b, b ∈ ((s.slots.forget s.alloc).push s.alloc).items ↔
      b ∈ s.slots.items ∨ b = s.alloc := fun b => by simp
  refine
    { key := fun {k b} hk => ?_
      alloc := fun {k b} hk => ?_
      slots := (h.slots.forget hfresh).push hfresh (by rw [SlotArray.items_forget]; omega)
      mem_slots := fun b => ?_
      ttl := ht1
      mem_ttl := fun b => ?_
      ttl_none := fun b hb h0 => ?_
      count := by simpa using hlen }
  · rcases (lookup_insert_iff s key s.alloc).mp hk with ⟨rfl, rfl⟩ | ⟨-, hb⟩
    · simp
    · have hb' := hne (h.mem_of_lookup hb)
      simpa [Function.update_of_ne hb'] using h.key hb
  · rcases (lookup_insert_iff s key s.alloc).mp hk with ⟨rfl, rfl⟩ | ⟨-, hb⟩
    · exact Nat.lt_succ_self _
    · exact Nat.lt_succ_of_lt (h.alloc hb)
  · rw [hmem, lookup_insert_iff]
    by_cases hb : b = s.alloc
    · subst hb
      simp
    · dsimp only
      rw [Function.update_of_ne hb, h.mem_slots]
      simp only [hb, or_false, and_false, false_or]
      refine ⟨fun hl => ⟨fun hc => ?_, hl⟩, And.right⟩
      rw [hc, hnew] at hl
      cases hl
  · rw [ht2, hmem, h.mem_ttl]
    by_cases hb : b = s.alloc
    · subst hb
      simp [hfresh]
    · simp [hb]
  · by_cases hb' : b = s.alloc
    · subst hb'
      exact ht3 (by simpa using h0)
    · have hbs := ((hmem b).mp hb).resolve_right hb'
      simp only [Function.update_of_ne hb'] at h0
      exact (ht4 b hb').trans (h.ttl_none b hbs h0)

end KvStore
