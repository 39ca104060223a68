import KvStore.Store.StoreInv

/-!
# `Keys` enumerates what is visible

`Store.keys` walks the slots of every shard. With a limit that is not reached it
lists each visible key with the given prefix exactly once.
-/

namespace KvStore

open KvStore.Common

variable {s : Store} {sh : Shard}

/-- `Keys` lists the entry `e`. -/
def Shard.listed (sh : Shard) (pre : Bytes) (nowMs : UInt64) (e : Ptr) : Bool :=
  !(sh.heap e).expired nowMs && pre.isPrefixOf (sh.heap e).key

/-- The keys of a shard that `Keys` lists. -/
def Shard.visibleKeys (sh : Shard) (pre : Bytes) (nowMs : UInt64) : List Bytes :=
  (sh.slots.items.filter (sh.listed pre nowMs)).map fun e => (sh.heap e).key

/-- The inner loop appends the listed keys until the limit is reached. -/
theorem keysLoop_eq (sh : Shard) (pre : Bytes) (limit : ℕ) (nowMs : UInt64) :
    ∀ (l : List Ptr) (out : List Bytes), out.length ≤ limit →
      Store.keysLoop sh pre limit nowMs l out =
        (out ++ (l.filter (sh.listed pre nowMs)).map fun e => (sh.heap e).key).take limit := by
  intro l
  induction l with
  | nil => intro out hout; simp [Store.keysLoop, List.take_of_length_le hout]
  | cons e l ih =>
    intro out hout
    -- the empty prefix is a prefix of everything, so the length test adds nothing
    have hempty : (pre.length > 0 ∧ ¬ pre.isPrefixOf (sh.heap e).key = true) ↔
        ¬ pre.isPrefixOf (sh.heap e).key = true := by
      cases pre <;> simp
    rw [Store.keysLoop]
    by_cases hfull : out.length ≥ limit
    · rw [if_pos hfull, List.take_append_of_le_length (by omega), List.take_of_length_le hout]
    · rw [if_neg hfull]
      by_cases hexp : (sh.heap e).expired nowMs = true
      · rw [if_pos hexp, ih out hout, List.filter_cons_of_neg (by simp [Shard.listed, hexp])]
      · rw [if_neg hexp, if_congr hempty rfl rfl]
        by_cases hpre : pre.isPrefixOf (sh.heap e).key = true
        · rw [if_neg (not_not.mpr hpre), ih _ (by simp; omega),
            List.filter_cons_of_pos (by simp [Shard.listed, hexp, hpre]), List.map_cons,
            List.append_assoc, List.singleton_append]
        · rw [if_pos hpre, ih out hout,
            List.filter_cons_of_neg (by simp [Shard.listed, hpre])]

/-- Cutting a first part at the limit does not show in the whole cut at the limit. -/
theorem take_take_append {α : Type} (n : ℕ) (l l' : List α) :
    (l.take n ++ l').take n = (l ++ l').take n := by
  rw [List.take_append, List.take_append, List.take_take, min_self, List.length_take]
  congr 2
  omega

theorem keysShards_eq (s : Store) (pre : Bytes) (limit : ℕ) (nowMs : UInt64) :
    ∀ (l : List ℕ) (out : List Bytes), out.length ≤ limit →
      Store.keysShards s pre limit nowMs l out =
        (out ++ l.flatMap fun i => (s.shards i).visibleKeys pre nowMs).take limit := by
  intro l
  induction l with
  | nil => intro out hout; simp [Store.keysShards, List.take_of_length_le hout]
  | cons i l ih =>
    intro out hout
    rw [Store.keysShards, List.flatMap_cons]
    by_cases hfull : out.length ≥ limit
    · rw [if_pos hfull, List.take_append_of_le_length (by omega), List.take_of_length_le hout]
    · rw [if_neg hfull, keysLoop_eq _ _ _ _ _ _ hout, ih _ (List.length_take_le _ _),
        take_take_append, List.append_assoc]
      rfl

/-! ## Members -/

theorem mem_visibleKeys (h : IndexInv sh) (pre : Bytes) (nowMs : UInt64) (k : Bytes) :
    k ∈ sh.visibleKeys pre nowMs ↔ (liveAt nowMs (sh.contents k)).isSome ∧ pre <+: k := by
  unfold Shard.visibleKeys
  rw [List.mem_map]
  constructor
  · rintro ⟨e, he, rfl⟩
    obtain ⟨hmem, hlist⟩ := List.mem_filter.mp he
    rw [Shard.listed, Bool.and_eq_true, Bool.not_eq_true', List.isPrefixOf_iff_prefix] at hlist
    refine ⟨?_, hlist.2⟩
    have hexp : expiredAt (sh.heap e).expireAt nowMs = false := hlist.1
    rw [contents_of_lookup (h.lookup_of_mem hmem), liveAt_some, if_neg (by simp [hexp])]
    rfl
  · rintro ⟨hlive, hpre⟩
    obtain ⟨d, hd⟩ := Option.isSome_iff_exists.mp hlive
    obtain ⟨hsome, hexp⟩ := liveAt_eq_some.mp hd
    rcases hk : sh.entries.lookup k with _ | e
    · rw [contents_of_lookup_none hk] at hsome; cases hsome
    · rw [contents_of_lookup hk] at hsome
      obtain rfl := Option.some.inj hsome
      have hkey := h.key hk
      refine ⟨e, List.mem_filter.mpr ⟨h.mem_of_lookup hk, ?_⟩, hkey⟩
      have hexp' : (sh.heap e).expired nowMs = false := hexp
      rw [Shard.listed, hexp', hkey, List.isPrefixOf_iff_prefix.mpr hpre]
      rfl

theorem nodup_visibleKeys (h : IndexInv sh) (pre : Bytes) (nowMs : UInt64) :
    (sh.visibleKeys pre nowMs).Nodup :=
  (h.keys_perm.nodup_iff.mpr sh.entries.nodupKeys).sublist
    (List.filter_sublist.map _)

/-- All keys that `Keys` lists without a limit. -/
def Store.visibleKeys (s : Store) (pre : Bytes) (nowMs : UInt64) : List Bytes :=
  (List.range s.shardCount).flatMap fun i => (s.shards i).visibleKeys pre nowMs

theorem Store.Plain.mem_visibleKeys (h : s.Plain) (pre : Bytes) (nowMs : UInt64) (k : Bytes) :
    k ∈ s.visibleKeys pre nowMs ↔ (liveAt nowMs (s.contents k)).isSome ∧ pre <+: k := by
  unfold Store.visibleKeys
  rw [List.mem_flatMap]
  constructor
  · rintro ⟨i, -, hk⟩
    obtain ⟨hlive, hpre⟩ := (KvStore.mem_visibleKeys (h.index i) pre nowMs k).mp hk
    rw [h.contents_shard] at hlive
    split_ifs at hlive
    · exact ⟨hlive, hpre⟩
    · cases hlive
  · rintro ⟨hlive, hpre⟩
    exact ⟨s.shardFor k, List.mem_range.mpr (h.inRange k),
      (KvStore.mem_visibleKeys (h.index _) pre nowMs k).mpr ⟨hlive, hpre⟩⟩

theorem Store.Plain.nodup_visibleKeys (h : s.Plain) (pre : Bytes) (nowMs : UInt64) :
    (s.visibleKeys pre nowMs).Nodup := by
  refine List.nodup_flatMap.mpr ⟨fun i _ => KvStore.nodup_visibleKeys (h.index i) pre nowMs, ?_⟩
  -- a key listed by two shards would be routed to both
  refine List.nodup_range.pairwise_of_forall_ne fun i _ j _ hij => ?_
  intro k hi hj
  have hroute : ∀ {i}, k ∈ (s.shards i).visibleKeys pre nowMs → s.shardFor k = i := by
    intro i hk
    have hlive := ((KvStore.mem_visibleKeys (h.index i) pre nowMs k).mp hk).1
    rw [h.contents_shard] at hlive
    split_ifs at hlive with hr
    · exact hr
    · cases hlive
  exact hij ((hroute hi).symm.trans (hroute hj))

/-- `Keys` lists the first ones, up to the limit. -/
theorem keys_take (s : Store) (pre : Bytes) {limit : ℕ} (hlimit : 0 < limit) (nowMs : UInt64) :
    s.keys pre limit nowMs = (s.visibleKeys pre nowMs).take limit := by
  unfold Store.keys
  dsimp only
  rw [if_neg (by omega), keysShards_eq _ _ _ _ _ _ (Nat.zero_le _), List.nil_append]
  rfl

/-- With a limit that is not reached `Keys` lists all of them. -/
theorem keys_eq (s : Store) (pre : Bytes) (limit : ℤ) (nowMs : UInt64)
    (h : ((s.visibleKeys pre nowMs).length : ℤ) < limit) :
    s.keys pre limit nowMs = s.visibleKeys pre nowMs := by
  unfold Store.keys
  dsimp only
  rw [if_neg (by omega), keysShards_eq _ _ _ _ _ _ (Nat.zero_le _), List.nil_append]
  exact List.take_of_length_le (by unfold Store.visibleKeys at h; omega)

end KvStore
