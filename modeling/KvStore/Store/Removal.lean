import KvStore.Store.ShardInv

/-!
# What a shard removes by itself

Eviction, the sweeper, the purge, the lazy reap and the wheel all remove entries
through the same block and report each key to `onEvict`. `Removed reason s s' ks`
says what any of them can do to a shard: the keys `ks` have left the map, each was
reported once in that order, and nothing else about the stored data changed. Every
removal operation is shown to be of this form, and to keep the representation
invariant.
-/

namespace KvStore

open KvStore.Common

/-- The parameters of a shard, which no operation changes. -/
def Shard.config (s : Shard) : Bool × ℤ × ℤ × EvictPolicy × ℕ × ℕ :=
  (s.exactLRU, s.budget, s.lowWater, s.policy, s.sampleK, s.batchMax)

/-- `s'` is `s` after the keys `ks` were removed and reported, in that order. -/
structure Removed (reason : EvictReason) (s s' : Shard) (ks : List Bytes) : Prop where
  heap : s'.heap = s.heap
  alloc : s'.alloc = s.alloc
  lookup : ∀ k, s'.entries.lookup k = if k ∈ ks then none else s.entries.lookup k
  onEvict : s'.onEvict = s.onEvict ++ ks.map fun k => (k, reason)
  config : s'.config = s.config

variable {s s' s'' : Shard} {e : Ptr} {reason : EvictReason} {ks ks' : List Bytes}

theorem Removed.refl (reason : EvictReason) (s : Shard) : Removed reason s s [] :=
  ⟨rfl, rfl, fun k => by simp, by simp, rfl⟩

theorem Removed.of_rng (reason : EvictReason) (s : Shard) (rng : Draws) :
    Removed reason s { s with rng := rng } [] :=
  ⟨rfl, rfl, fun k => by simp, by simp, rfl⟩

theorem Removed.trans (h : Removed reason s s' ks) (h' : Removed reason s' s'' ks') :
    Removed reason s s'' (ks ++ ks') where
  heap := h'.heap.trans h.heap
  alloc := h'.alloc.trans h.alloc
  lookup k := by
    rw [h'.lookup, h.lookup]
    by_cases h1 : k ∈ ks <;> by_cases h2 : k ∈ ks' <;> simp [h1, h2]
  onEvict := by rw [h'.onEvict, h.onEvict, List.map_append, List.append_assoc]
  config := h'.config.trans h.config

theorem removeAndFire_removed (s : Shard) (e : Ptr) (reason : EvictReason) :
    Removed reason s (s.removeAndFire e reason) [(s.heap e).key] := by
  unfold Shard.removeAndFire
  rw [removeEntryLocked_eq]
  refine ⟨rfl, rfl, fun k => ?_, rfl, rfl⟩
  show (s.entries.erase (s.heap e).key).lookup k = _
  by_cases hk : k = (s.heap e).key
  · subst hk; simp
  · rw [AList.lookup_erase_ne hk]; simp [hk]

/-! ## The invariant -/

theorem removeAndFire_index (h : IndexInv s) (he : e ∈ s.slots.items) :
    IndexInv (s.removeAndFire e reason) :=
  (removeEntryLocked_index h he).congr rfl rfl rfl rfl rfl

theorem removeAndFire_slots (s : Shard) (e : Ptr) (reason : EvictReason) :
    (s.removeAndFire e reason).slots = s.slots.remove e := by
  unfold Shard.removeAndFire
  rw [removeEntryLocked_eq]; rfl

/-! ## Choosing a victim -/

theorem lruScan_spec (s : Shard) (protect : Bytes) :
    ∀ (fuel : ℕ) (p : Option Ptr) {v : Ptr}, s.lruScan protect fuel p = some v →
      (s.heap v).key ≠ protect ∧ ∀ l, Path s.lru.prev p l → v ∈ l := by
  intro fuel
  induction fuel with
  | zero => intro p v h; cases p <;> cases h
  | succ fuel ih =>
    intro p v h
    cases p with
    | none => cases h
    | some e =>
      rw [Shard.lruScan] at h
      -- Both skipped cases go on from `prev`, one step down the path.
      have hskip : s.lruScan protect fuel (s.lru.prev e) = some v →
          (s.heap v).key ≠ protect ∧ ∀ l, Path s.lru.prev (some e) l → v ∈ l := by
        intro h'
        obtain ⟨h1, h2⟩ := ih _ h'
        refine ⟨h1, fun l hl => ?_⟩
        cases l with
        | nil => cases hl
        | cons b l =>
          obtain ⟨rfl, hl⟩ := hl
          exact List.mem_cons_of_mem _ (h2 l hl)
      split_ifs at h with h1 h2
      · exact hskip h
      · exact hskip h
      · cases h
        refine ⟨h1, fun l hl => ?_⟩
        cases l with
        | nil => cases hl
        | cons b l => exact hl.1 ▸ List.mem_cons_self

theorem sampleLoop_spec (s : Shard) (pool : List Ptr) (protect : Bytes) {v : Ptr} :
    ∀ (n : ℕ) (rng : Draws) (best : Option (Ptr × UInt64)),
      (∀ b ∈ best, b.1 ∈ pool ∧ (s.heap b.1).key ≠ protect) →
      (s.sampleLoop pool protect n rng best).1 = some v →
      v ∈ pool ∧ (s.heap v).key ≠ protect := by
  intro n
  induction n with
  | zero =>
    intro rng best hbest h
    obtain ⟨b, hb, rfl⟩ := Option.map_eq_some_iff.mp h
    exact hbest b hb
  | succ n ih =>
    intro rng best hbest h
    rw [Shard.sampleLoop] at h
    dsimp only at h
    cases hc : pool[(intn rng pool.length).1]? with
    | none => rw [hc] at h; exact ih _ _ hbest h
    | some cand =>
      rw [hc] at h
      dsimp only at h
      have hmem : cand ∈ pool := List.mem_of_getElem? hc
      split_ifs at h with hk
      · exact ih _ _ hbest h
      · cases best with
        | none =>
          refine ih _ _ ?_ h
          intro b hb; cases hb; exact ⟨hmem, hk⟩
        | some b =>
          dsimp only at h
          split_ifs at h
          · refine ih _ _ ?_ h
            intro b hb; cases hb; exact ⟨hmem, hk⟩
          · exact ih _ _ hbest h

theorem pickVictimLocked_shard (s : Shard) (protect : Bytes) :
    ∃ rng, (s.pickVictimLocked protect).2 = { s with rng := rng } := by
  unfold Shard.pickVictimLocked
  dsimp only
  split_ifs
  · exact ⟨s.rng, rfl⟩
  · exact ⟨s.rng, rfl⟩
  · refine ⟨(s.sampleLoop s.pool protect s.sampleK s.rng none).2, ?_⟩
    split <;> rfl

/-- The victim is never the protected key, and is an entry of the shard. -/
theorem pickVictimLocked_spec (s : Shard) (protect : Bytes) {v : Ptr}
    (h : (s.pickVictimLocked protect).1 = some v) :
    (s.heap v).key ≠ protect ∧ (LinkedInv s → v ∈ s.slots.items) := by
  unfold Shard.pickVictimLocked at h
  dsimp only at h
  split_ifs at h with hl hp
  · obtain ⟨h1, h2⟩ := lruScan_spec s protect _ _ h
    refine ⟨h1, fun hinv => ?_⟩
    obtain ⟨l, hl1, hl2⟩ := hinv.lru hl
    exact (hl2 v).mp (List.mem_reverse.mp (h2 _ hl1.path_prev))
  · have hpool : ∀ b ∈ s.pool, LinkedInv s → b ∈ s.slots.items := by
      intro b hb hinv
      unfold Shard.pool at hb
      split_ifs at hb
      · exact ((hinv.mem_ttl b).mp hb).1
      · exact hb
    split at h
    · rename_i b hb
      cases h
      obtain ⟨h1, h2⟩ := sampleLoop_spec s _ protect _ _ none (by simp) hb
      exact ⟨h2, hpool _ h1⟩
    · refine ⟨?_, hpool _ (List.mem_of_find?_eq_some h)⟩
      simpa using List.find?_some h

/-! ## Eviction -/

/-- `s'` is `s` after some entries other than that of `protect` were evicted and
    reported. -/
def Evicts (protect : Bytes) (s s' : Shard) : Prop :=
  ∃ ks, Removed .evicted s s' ks ∧ protect ∉ ks ∧
    (LinkedInv s → ∀ k ∈ ks, (s.entries.lookup k).isSome) ∧
    ∀ {I : Shard → Prop} {fits : Bytes → Bytes → Prop}, Maintained I fits → I s → I s'

theorem Evicts.refl (protect : Bytes) (s : Shard) : Evicts protect s s :=
  ⟨[], .refl _ s, by simp, fun _ => by simp, fun _ h => h⟩

theorem Evicts.of_rng (protect : Bytes) (s : Shard) (rng : Draws) :
    Evicts protect s { s with rng := rng } :=
  ⟨[], .of_rng _ s rng, by simp, fun _ => by simp, fun hI h => hI.of_rng h rng⟩

theorem Evicts.trans {protect : Bytes} (h : Evicts protect s s') (h' : Evicts protect s' s'') :
    Evicts protect s s'' := by
  obtain ⟨ks, hks, hprot, hmem, hinv⟩ := h
  obtain ⟨ks', hks', hprot', hmem', hinv'⟩ := h'
  refine ⟨ks ++ ks', hks.trans hks', by simp [hprot, hprot'], fun hs k hk => ?_,
    fun hI hs => hinv' hI (hinv hI hs)⟩
  rcases List.mem_append.mp hk with hk | hk
  · exact hmem hs k hk
  · have hsome := hmem' (hinv LinkedInv.maintained hs) k hk
    rw [hks.lookup] at hsome
    split_ifs at hsome
    · cases hsome
    · exact hsome

/-- Evicting the victim that was picked. -/
theorem removeAndFire_evicts {protect : Bytes} (hne : (s.heap e).key ≠ protect)
    (he : LinkedInv s → e ∈ s.slots.items) : Evicts protect s (s.removeAndFire e .evicted) := by
  refine ⟨_, removeAndFire_removed s e .evicted, by simpa using hne.symm, fun h k hk => ?_,
    fun hI h => hI.removeAndFire h (he (hI.linked h)) _⟩
  rw [List.mem_singleton] at hk
  rw [hk, h.lookup_of_mem (he h)]
  rfl

theorem evictLoop_evicts (target : ℤ) (protect : Bytes) :
    ∀ (n : ℕ) (s : Shard), Evicts protect s (Shard.evictLoop target protect n s).2 := by
  intro n
  induction n with
  | zero => intro s; exact .refl _ s
  | succ n ih =>
    intro s
    rw [Shard.evictLoop]
    split_ifs with hmem
    · obtain ⟨rng, hrng⟩ := pickVictimLocked_shard s protect
      have hspec := @pickVictimLocked_spec s protect
      revert hrng hspec
      rcases s.pickVictimLocked protect with ⟨_ | v, t⟩
      · rintro rfl -
        exact .of_rng _ s rng
      · rintro rfl hspec
        obtain ⟨hne, hv⟩ := hspec rfl
        have hstep : Evicts protect { s with rng := rng }
            (Shard.removeAndFire { s with rng := rng } v .evicted) :=
          removeAndFire_evicts hne fun h => hv (LinkedInv.maintained.of_rng h s.rng)
        exact ((Evicts.of_rng protect s rng).trans hstep).trans (ih _)
    · exact .refl _ s

theorem evictLocked_evicts (s : Shard) (target : ℤ) (protect : Bytes) :
    Evicts protect s (s.evictLocked target protect).2 := by
  unfold Shard.evictLocked
  split_ifs
  · exact .refl _ s
  · exact evictLoop_evicts target protect _ s

theorem admitLocked_evicts (s : Shard) (delta : ℤ) (protect : Bytes) :
    Evicts protect s (s.admitLocked delta protect).2 := by
  unfold Shard.admitLocked
  split_ifs
  · exact .refl _ s
  · exact .refl _ s
  · exact .refl _ s
  · exact evictLocked_evicts s _ protect

/-- Without a memory limit every write is admitted and nothing is evicted. -/
theorem admitLocked_unlimited (h : s.budget ≤ 0) (delta : ℤ) (protect : Bytes) :
    s.admitLocked delta protect = (true, s) := by
  unfold Shard.admitLocked
  rw [if_pos (Or.inl h)]

/-! ## Expiry -/

/-- `s'` is `s` after some entries that had expired at `nowMs` were removed and
    reported. -/
def RemovesExpired (nowMs : UInt64) (s s' : Shard) : Prop :=
  ∃ ks, Removed .expired s s' ks ∧
    (IndexInv s → IndexInv s' ∧
      ∀ k ∈ ks, ∃ e, s.entries.lookup k = some e ∧ (s.heap e).expired nowMs = true) ∧
    ∀ {I : Shard → Prop} {fits : Bytes → Bytes → Prop}, Maintained I fits → I s → I s'

theorem RemovesExpired.refl (nowMs : UInt64) (s : Shard) : RemovesExpired nowMs s s :=
  ⟨[], .refl _ s, fun h => ⟨h, by simp⟩, fun _ h => h⟩

theorem RemovesExpired.trans {nowMs : UInt64} (h : RemovesExpired nowMs s s')
    (h' : RemovesExpired nowMs s' s'') : RemovesExpired nowMs s s'' := by
  obtain ⟨ks, hks, hindex, hinv⟩ := h
  obtain ⟨ks', hks', hindex', hinv'⟩ := h'
  refine ⟨ks ++ ks', hks.trans hks', fun hs => ?_,
    fun hI hs => hinv' hI (hinv hI hs)⟩
  obtain ⟨h1, h2⟩ := hindex hs
  obtain ⟨h3, h4⟩ := hindex' h1
  refine ⟨h3, fun k hk => ?_⟩
  rcases List.mem_append.mp hk with hk | hk
  · exact h2 k hk
  · obtain ⟨e, he, hexp⟩ := h4 k hk
    rw [hks.lookup] at he
    split_ifs at he
    rw [hks.heap] at hexp
    exact ⟨e, he, hexp⟩

/-- Removing an expired member. -/
theorem removeAndFire_removesExpired {nowMs : UInt64}
    (he : IndexInv s → e ∈ s.slots.items) (hexp : (s.heap e).expired nowMs = true) :
    RemovesExpired nowMs s (s.removeAndFire e .expired) := by
  refine ⟨_, removeAndFire_removed s e .expired, fun h => ⟨removeAndFire_index h (he h), ?_⟩,
    fun hI h => hI.removeAndFire h (he (hI.index h)) _⟩
  intro k hk
  rw [List.mem_singleton] at hk
  subst hk
  exact ⟨e, h.lookup_of_mem (he h), hexp⟩

theorem reapLocked_removesExpired (s : Shard) (key : Bytes) (nowMs : UInt64) :
    RemovesExpired nowMs s (s.reapLocked key nowMs).2 := by
  unfold Shard.reapLocked
  split
  · exact .refl _ s
  · rename_i e he
    split_ifs with hexp
    · exact removeAndFire_removesExpired (fun h => h.mem_of_lookup he) hexp
    · exact .refl _ s

theorem wheelRemove_removesExpired (s : Shard) (key : Bytes) (timerExpireAt nowMs : UInt64) :
    RemovesExpired nowMs s (s.wheelRemove key timerExpireAt nowMs).2 := by
  unfold Shard.wheelRemove
  split
  · exact .refl _ s
  · rename_i e he
    split_ifs with hne hexp
    · exact .refl _ s
    · exact removeAndFire_removesExpired (fun h => h.mem_of_lookup he) hexp
    · exact .refl _ s

theorem purgeLoop_removesExpired (nowMs : UInt64) (batch : ℕ) :
    ∀ (j : ℕ) (s : Shard) (removed : ℕ),
      RemovesExpired nowMs s (Shard.purgeLoop nowMs batch j s removed).2 := by
  intro j
  induction j with
  | zero => intro s removed; exact .refl _ s
  | succ j ih =>
    intro s removed
    rw [Shard.purgeLoop]
    split_ifs
    · split
      · exact ih s removed
      · rename_i e he
        split_ifs with hexp
        · have hmem : IndexInv s → e ∈ s.slots.items := fun h =>
            ((h.mem_ttl e).mp (List.mem_of_getElem? he)).1
          exact (removeAndFire_removesExpired hmem hexp).trans (ih _ _)
        · exact ih s removed
    · exact .refl _ s

theorem sweepSample_spec (s : Shard) (nowMs : UInt64) :
    ∀ (n : ℕ) (rng : Draws), ∀ e ∈ (s.sweepSample nowMs n rng).1,
      e ∈ s.ttlSlots.items ∧ (s.heap e).expired nowMs = true := by
  intro n
  induction n with
  | zero => intro rng e he; cases he
  | succ n ih =>
    intro rng e he
    rw [Shard.sweepSample] at he
    dsimp only at he
    split at he
    · exact ih _ e he
    · rename_i b hb
      split_ifs at he with hexp
      · rcases List.mem_cons.mp he with rfl | he
        · exact ⟨List.mem_of_getElem? hb, hexp⟩
        · exact ih _ e he
      · exact ih _ e he

/-- The entries that stay keep a slot, and the one that is removed loses its own. -/
theorem removeAndFire_there (h : IndexInv s) (he : e ∈ s.slots.items) {b : Ptr}
    (hb : b ∈ s.slots.items ∨ s.slots.pos b < 0) :
    b ∈ (s.removeAndFire e reason).slots.items ∨ (s.removeAndFire e reason).slots.pos b < 0 := by
  rw [removeAndFire_slots]
  by_cases hbe : b = e
  · subst hbe
    exact Or.inr (by rw [h.slots.pos_remove_self he]; decide)
  · by_cases hbm : b ∈ s.slots.items
    · exact Or.inl ((h.slots.mem_remove he).mpr ⟨hbm, hbe⟩)
    · exact Or.inr (by rw [h.slots.pos_remove_of_not_mem he hbm]; exact hb.resolve_left hbm)

/-- The removal loop of the sweeper: a victim that was sampled twice caches a
    negative slot by the time it comes up again. -/
theorem sweepRemove_spec :
    ∀ (victims : List Ptr) (s : Shard), ∃ ks, Removed .expired s (s.sweepRemove victims) ks ∧
      (IndexInv s → (∀ e ∈ victims, e ∈ s.slots.items ∨ s.slots.pos e < 0) →
        IndexInv (s.sweepRemove victims) ∧
          (∀ k ∈ ks, ∃ e ∈ victims, s.entries.lookup k = some e) ∧
          ∀ {I : Shard → Prop} {fits : Bytes → Bytes → Prop}, Maintained I fits → I s →
            I (s.sweepRemove victims)) := by
  intro victims
  induction victims with
  | nil => intro s; exact ⟨[], .refl _ s, fun h _ => ⟨h, by simp, fun _ h => h⟩⟩
  | cons e victims ih =>
    intro s
    rw [Shard.sweepRemove]
    split_ifs with hpos
    · obtain ⟨ks, hks, hinv⟩ := ih s
      refine ⟨ks, hks, fun h hmem => ?_⟩
      obtain ⟨h1, h2, h3⟩ := hinv h fun b hb => hmem b (List.mem_cons_of_mem _ hb)
      refine ⟨h1, fun k hk => ?_, h3⟩
      obtain ⟨b, hb, hlook⟩ := h2 k hk
      exact ⟨b, List.mem_cons_of_mem _ hb, hlook⟩
    · obtain ⟨ks, hks, hinv⟩ := ih (s.removeAndFire e .expired)
      have hstep := removeAndFire_removed s e .expired
      refine ⟨_, hstep.trans hks, fun h hmem => ?_⟩
      have he : e ∈ s.slots.items := (hmem e List.mem_cons_self).resolve_right hpos
      have hrest : ∀ b ∈ victims, b ∈ (s.removeAndFire e .expired).slots.items ∨
          (s.removeAndFire e .expired).slots.pos b < 0 := fun b hb =>
        removeAndFire_there h he (hmem b (List.mem_cons_of_mem _ hb))
      obtain ⟨h1, h2, h3⟩ := hinv (removeAndFire_index h he) hrest
      refine ⟨h1, fun k hk => ?_, fun hI hs => h3 hI (hI.removeAndFire hs he _)⟩
      rcases List.mem_append.mp hk with hk | hk
      · rw [List.mem_singleton] at hk
        exact ⟨e, List.mem_cons_self, hk ▸ h.lookup_of_mem he⟩
      · obtain ⟨b, hb, hlook⟩ := h2 k hk
        rw [hstep.lookup] at hlook
        split_ifs at hlook
        exact ⟨b, List.mem_cons_of_mem _ hb, hlook⟩

theorem sweepLocked_removesExpired (s : Shard) (nowMs : UInt64) (n : ℕ) :
    RemovesExpired nowMs s (s.sweepLocked nowMs n).2 := by
  have hround : ∀ m, RemovesExpired nowMs s
      ({ s with rng := (s.sweepSample nowMs m s.rng).2 }.sweepRemove
        (s.sweepSample nowMs m s.rng).1) := by
    intro m
    have hsample := sweepSample_spec s nowMs m s.rng
    obtain ⟨ks, hks, hinv⟩ := sweepRemove_spec (s.sweepSample nowMs m s.rng).1
      { s with rng := (s.sweepSample nowMs m s.rng).2 }
    have hround : IndexInv s → _ := fun h =>
      hinv (h.congr rfl rfl rfl rfl rfl)
        fun e he => Or.inl ((h.mem_ttl e).mp (hsample e he).1).1
    refine ⟨ks, (Removed.of_rng _ s _).trans hks, fun h => ⟨(hround h).1, fun k hk => ?_⟩,
      fun hI h => (hround (hI.index h)).2.2 hI (hI.of_rng h _)⟩
    obtain ⟨e, he, hlook⟩ := (hround h).2.1 k hk
    exact ⟨e, hlook, (hsample e he).2⟩
  unfold Shard.sweepLocked
  by_cases h0 : s.ttlSlots.items.length = 0
  · rw [if_pos h0]; exact .refl _ s
  · rw [if_neg h0]; exact hround _

/-! ## Writes -/

/-- `setLocked` first evicts other keys, then refuses, overwrites in place or inserts.
    Without a memory limit it neither evicts nor refuses. -/
theorem setLocked_cases (s : Shard) (key value : Bytes) (expireAt nowMono : UInt64) :
    ∃ m, Evicts key s m ∧ (s.budget ≤ 0 → m = s) ∧
      ((0 < s.budget ∧ s.setLocked key value expireAt nowMono = (false, m)) ∨
        (∃ old, s.entries.lookup key = some old ∧
          s.setLocked key value expireAt nowMono =
            (true, m.overwrite old value expireAt nowMono (entryCost key.length value.length)
              (entryCost key.length value.length - (s.heap old).size))) ∨
        (s.entries.lookup key = none ∧
          s.setLocked key value expireAt nowMono =
            (true, m.insert key value expireAt nowMono (entryCost key.length value.length)))) := by
  have hfit : ∀ delta, ∃ ok m, s.admitLocked delta key = (ok, m) ∧ Evicts key s m ∧
      (s.budget ≤ 0 → m = s) ∧ (ok = false → 0 < s.budget) := by
    intro delta
    by_cases hb : s.budget ≤ 0
    · exact ⟨true, s, admitLocked_unlimited hb delta key, .refl _ s, fun _ => rfl, by simp⟩
    · exact ⟨_, _, rfl, admitLocked_evicts s delta key, fun hc => absurd hc hb,
        fun _ => not_le.mp hb⟩
  unfold Shard.setLocked
  rcases hlook : s.entries.lookup key with _ | old <;> dsimp only
  · obtain ⟨ok, m, hres, h1, h2, h3⟩ := hfit (entryCost key.length value.length)
    refine ⟨m, h1, h2, ?_⟩
    rw [hres]
    cases ok with
    | false => exact Or.inl ⟨h3 rfl, rfl⟩
    | true => exact Or.inr (Or.inr ⟨rfl, rfl⟩)
  · obtain ⟨ok, m, hres, h1, h2, h3⟩ :=
      hfit (entryCost key.length value.length - (s.heap old).size)
    refine ⟨m, h1, h2, ?_⟩
    rw [hres]
    cases ok with
    | false => exact Or.inl ⟨h3 rfl, rfl⟩
    | true => exact Or.inr (Or.inl ⟨old, rfl, rfl⟩)

end KvStore
