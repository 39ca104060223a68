import KvStore.Store.Filled
import KvStore.Store.ShardRun

/-!
# Eviction

What `evictLocked` removes and when it stops, for every policy and sequence of draws.
`Evicted` lists the victims: they were eligible, each was reported once, and the rest of the
shard is as it was.

* `pickVictimLocked_cases`: an eligible victim is found, if there is one.
* `eviction_exact`: `evictLocked` from every shard reached with fewer than `2^31` entries.
* `eviction_reports_twice`: with more entries it can evict one of them twice.
-/

namespace KvStore

open KvStore.Common

/-- The policy may evict the entry for the sake of `protect` (lines 308–313, 318–321 and 328). -/
def Shard.eligible (s : Shard) (protect : Bytes) (e : Ptr) : Bool :=
  (s.heap e).key ≠ protect ∧ s.policy ≠ .noEviction ∧
    (s.policy = .volatileLRU → (s.heap e).expireAt ≠ 0)

variable {s s' s'' : Shard} {e : Ptr} {protect : Bytes} {vs vs' : List Ptr}

/-! ## The victim -/

section Victim

theorem eligible_congr (hheap : s'.heap = s.heap) (hpolicy : s'.policy = s.policy) :
    s'.eligible protect = s.eligible protect := by
  funext e
  unfold Shard.eligible
  rw [hheap, hpolicy]

/-- The walk from the tail finds the first entry that may go. -/
theorem lruScan_eq_find (hp : s.policy ≠ .noEviction) (protect : Bytes) {fuel : ℕ}
    {p : Option Ptr} {l : List Ptr} (h : Path s.lru.prev p l) (hfuel : l.length ≤ fuel) :
    s.lruScan protect fuel p = l.find? (s.eligible protect) := by
  induction fuel generalizing p l with
  | zero =>
    obtain rfl := List.length_eq_zero_iff.mp (Nat.le_zero.mp hfuel)
    cases p <;> rfl
  | succ fuel ih =>
    cases l with
    | nil => cases p with
      | none => rfl
      | some e => cases h
    | cons b l =>
      cases p with
      | none => cases h
      | some e =>
        obtain ⟨rfl, hl⟩ := h
        have hrest := ih hl (Nat.le_of_succ_le_succ hfuel)
        rw [Shard.lruScan, List.find?_cons, hrest]
        by_cases hkey : (s.heap e).key = protect
        · have hnot : s.eligible protect e = false := by simp [Shard.eligible, hkey]
          rw [if_pos hkey, hnot]
        · by_cases httl : s.policy = .volatileLRU ∧ (s.heap e).expireAt = 0
          · have hnot : s.eligible protect e = false := by
              simp [Shard.eligible, httl.1, httl.2]
            rw [if_neg hkey, if_pos httl, hnot]
          · have hyes : s.eligible protect e = true := by
              refine decide_eq_true ⟨hkey, hp, fun hvolatile hzero => httl ⟨hvolatile, hzero⟩⟩
            rw [if_neg hkey, if_neg httl, hyes]

/-- Under exact LRU, the victim is the last entry of the list that may go. -/
theorem pickVictimLocked_exact (h : LinkedInv s) (hp : s.policy ≠ .noEviction)
    (hexact : s.exactLRU = true) {l : List Ptr} (hl : s.lru.Holds l)
    (hmem : ∀ e, e ∈ l ↔ e ∈ s.slots.items) (protect : Bytes) :
    s.pickVictimLocked protect = (l.reverse.find? (s.eligible protect), s) := by
  have hlen : l.reverse.length ≤ s.alloc := by
    rw [List.length_reverse, ← List.length_range (n := s.alloc)]
    refine (hl.nodup.subperm fun e he => ?_).length_le
    exact List.mem_range.mpr (h.alloc (h.lookup_of_mem ((hmem e).mp he)))
  unfold Shard.pickVictimLocked
  rw [if_pos hexact, lruScan_eq_find hp protect hl.path_prev hlen]

/-- The entries that may go are in the pool. -/
theorem mem_pool (h : LinkedInv s) (he : e ∈ s.slots.items) (helig : s.eligible protect e = true) :
    e ∈ s.pool := by
  obtain ⟨-, -, httl⟩ := of_decide_eq_true helig
  unfold Shard.pool
  split_ifs with hvolatile
  · exact (h.mem_ttl e).mpr ⟨he, httl hvolatile⟩
  · exact he

/-- An entry of the pool may go, unless it is the protected one. -/
theorem eligible_of_mem_pool (h : LinkedInv s) (hp : s.policy ≠ .noEviction) (he : e ∈ s.pool)
    (hkey : (s.heap e).key ≠ protect) : s.eligible protect e = true := by
  refine decide_eq_true ⟨hkey, hp, fun hvolatile => ?_⟩
  rw [Shard.pool, if_pos hvolatile] at he
  exact ((h.mem_ttl e).mp he).2

theorem pickVictimLocked_eligible (h : LinkedInv s) (hp : s.policy ≠ .noEviction)
    (hv : (s.pickVictimLocked protect).1 = some e) :
    e ∈ s.slots.items ∧ s.eligible protect e = true := by
  obtain ⟨hkey, hmem⟩ := pickVictimLocked_spec s protect hv
  refine ⟨hmem h, ?_⟩
  by_cases hexact : s.exactLRU = true
  · obtain ⟨l, hl, hlmem⟩ := h.lru hexact
    rw [pickVictimLocked_exact h hp hexact hl hlmem] at hv
    exact List.find?_some hv
  · refine eligible_of_mem_pool h hp ?_ hkey
    unfold Shard.pickVictimLocked at hv
    rw [if_neg hexact] at hv
    dsimp only at hv
    split_ifs at hv with hnil
    split at hv
    · rename_i b hb
      cases hv
      exact (sampleLoop_spec s _ protect _ _ none (by simp) hb).1
    · exact List.mem_of_find?_eq_some hv

/-- No victim is found only if no entry may go: the linear probe sees the whole pool. -/
theorem pickVictimLocked_none (h : LinkedInv s) (hp : s.policy ≠ .noEviction)
    (hv : (s.pickVictimLocked protect).1 = none) :
    ∀ e ∈ s.slots.items, s.eligible protect e = false := by
  intro e he
  by_contra hne
  have helig : s.eligible protect e = true := by simpa using hne
  by_cases hexact : s.exactLRU = true
  · obtain ⟨l, hl, hlmem⟩ := h.lru hexact
    rw [pickVictimLocked_exact h hp hexact hl hlmem] at hv
    exact List.find?_eq_none.mp hv e (List.mem_reverse.mpr ((hlmem e).mpr he)) helig
  · have hpool := mem_pool h he helig
    unfold Shard.pickVictimLocked at hv
    rw [if_neg hexact] at hv
    dsimp only at hv
    split_ifs at hv with hnil
    · rw [List.length_eq_zero_iff.mp hnil] at hpool
      cases hpool
    · split at hv
      · cases hv
      · have hkey := List.find?_eq_none.mp hv e hpool
        obtain ⟨hkey', -, -⟩ := of_decide_eq_true helig
        exact hkey (decide_eq_true hkey')

/-- `pickVictimLocked` finds an entry that may go, if there is one, and uses up some draws. -/
theorem pickVictimLocked_cases (h : LinkedInv s) (hp : s.policy ≠ .noEviction) (protect : Bytes) :
    ∃ rng, (s.pickVictimLocked protect = (none, { s with rng := rng }) ∧
        ∀ e ∈ s.slots.items, s.eligible protect e = false) ∨
      ∃ v ∈ s.slots.items, s.eligible protect v = true ∧
        s.pickVictimLocked protect = (some v, { s with rng := rng }) := by
  obtain ⟨rng, hrng⟩ := pickVictimLocked_shard s protect
  refine ⟨rng, ?_⟩
  cases hv : (s.pickVictimLocked protect).1 with
  | none => exact .inl ⟨Prod.ext hv hrng, pickVictimLocked_none h hp hv⟩
  | some v =>
    obtain ⟨hmem, helig⟩ := pickVictimLocked_eligible h hp hv
    exact .inr ⟨v, hmem, helig, Prod.ext hv hrng⟩

end Victim

/-! ## The loop -/

/-- `s'` is `s` after the entries `vs` were evicted in this order. -/
structure Evicted (protect : Bytes) (s s' : Shard) (vs : List Ptr) : Prop where
  removed : Removed .evicted s s' (vs.map fun e => (s.heap e).key)
  kept : ∀ {I : Shard → Prop} {fits : Bytes → Bytes → Prop}, Maintained I fits → I s → I s'
  perm : s.slots.items.Perm (vs ++ s'.slots.items)
  eligible : ∀ e ∈ vs, s.eligible protect e = true

section Loop

theorem Evicted.policy (h : Evicted protect s s' vs) : s'.policy = s.policy :=
  congrArg (fun c => c.2.2.2.1) h.removed.config

theorem Evicted.eligible_eq (h : Evicted protect s s' vs) :
    s'.eligible protect = s.eligible protect :=
  eligible_congr h.removed.heap h.policy

theorem Evicted.cost_eq (h : Evicted protect s s' vs) : s'.cost = s.cost := by
  funext e
  rw [Shard.cost, Shard.cost, h.removed.heap]

theorem Evicted.refl (protect : Bytes) (s : Shard) : Evicted protect s s [] :=
  ⟨.refl _ s, fun _ h => h, List.Perm.refl _, nofun⟩

theorem Evicted.of_rng (protect : Bytes) (s : Shard) (rng : Draws) :
    Evicted protect s { s with rng := rng } [] :=
  ⟨.of_rng _ s rng, fun hI h => hI.of_rng h rng, List.Perm.refl _, nofun⟩

theorem Evicted.trans (h : Evicted protect s s' vs) (h' : Evicted protect s' s'' vs') :
    Evicted protect s s'' (vs ++ vs') := by
  refine ⟨?_, fun hI hs => h'.kept hI (h.kept hI hs), ?_, ?_⟩
  · have hremoved := h.removed.trans h'.removed
    rw [h.removed.heap, ← List.map_append] at hremoved
    exact hremoved
  · rw [List.append_assoc]
    exact h.perm.trans (h'.perm.append_left vs)
  · refine List.forall_mem_append.mpr ⟨h.eligible, ?_⟩
    rw [← h.eligible_eq]
    exact h'.eligible

theorem Evicted.victim (h : LinkedInv s) (he : e ∈ s.slots.items)
    (helig : s.eligible protect e = true) :
    Evicted protect s (s.removeAndFire e .evicted) [e] := by
  refine ⟨removeAndFire_removed s e .evicted, fun hI hs => hI.removeAndFire hs he _, ?_, ?_⟩
  · rw [removeAndFire_slots]
    exact h.slots.perm_remove he
  · exact fun b hb => List.mem_singleton.mp hb ▸ helig

/-- The victims leave their cost. -/
theorem Evicted.memBytes (h : Evicted protect s s' vs) (hinv : ShardInv s) :
    s.memBytes = (vs.map s.cost).sum + s'.memBytes := by
  rw [hinv.mem, (h.kept ShardInv.maintained hinv).mem, (h.perm.map s.cost).sum_eq, List.map_append, List.sum_append, h.cost_eq]

theorem evictLoop_evicted (target : ℤ) (protect : Bytes) (n : ℕ) (h : LinkedInv s)
    (hp : s.policy ≠ .noEviction) :
    ∃ vs, Evicted protect s (Shard.evictLoop target protect n s).2 vs ∧
      (Shard.evictLoop target protect n s).1 = vs.length ∧
      ((Shard.evictLoop target protect n s).2.memBytes ≤ target ∨ vs.length = n ∨
        ∀ e ∈ (Shard.evictLoop target protect n s).2.slots.items, s.eligible protect e = false) := by
  induction n generalizing s with
  | zero => exact ⟨[], .refl protect s, rfl, .inr (.inl rfl)⟩
  | succ n ih =>
    rw [Shard.evictLoop]
    split_ifs with hmem
    · obtain ⟨rng, ⟨hpick, hnone⟩ | ⟨v, hv, helig, hpick⟩⟩ := pickVictimLocked_cases h hp protect
      · rw [hpick]
        exact ⟨[], .of_rng protect s rng, rfl, .inr (.inr hnone)⟩
      · rw [hpick]
        have hstep : Evicted protect s (Shard.removeAndFire { s with rng := rng } v .evicted) [v] :=
          (Evicted.of_rng protect s rng).trans
            (.victim (LinkedInv.maintained.of_rng h rng) hv helig)
        obtain ⟨vs, hvs, hlen, hstop⟩ := ih (hstep.kept LinkedInv.maintained h) (by rw [hstep.policy]; exact hp)
        refine ⟨v :: vs, hstep.trans hvs, congrArg Nat.succ hlen, ?_⟩
        rw [hstep.eligible_eq] at hstop
        exact hstop.imp_right (Or.imp_left (congrArg Nat.succ))
    · exact ⟨[], .refl protect s, rfl, .inl (not_lt.mp hmem)⟩

theorem evictLocked_evicted (h : LinkedInv s) (target : ℤ) (protect : Bytes) :
    ∃ vs, Evicted protect s (s.evictLocked target protect).2 vs ∧
      (s.evictLocked target protect).1 = vs.length ∧
      ((s.evictLocked target protect).2.memBytes ≤ target ∨ vs.length = s.batchMax ∨
        ∀ e ∈ (s.evictLocked target protect).2.slots.items, s.eligible protect e = false) := by
  unfold Shard.evictLocked
  split_ifs with hp
  · refine ⟨[], .refl protect s, rfl, .inr (.inr fun e _ => ?_)⟩
    simp [Shard.eligible, hp]
  · exact evictLoop_evicted target protect s.batchMax h hp

/-- No two entries of the shard have the same key. -/
theorem IndexInv.nodup_keys (h : IndexInv s) (hnodup : vs.Nodup)
    (hsub : ∀ e ∈ vs, e ∈ s.slots.items) :
    (vs.map fun e => (s.heap e).key).Nodup := by
  refine List.Nodup.map_on (fun a ha b hb hkey => ?_) hnodup
  have hlook := h.lookup_of_mem (hsub a ha)
  rw [hkey, h.lookup_of_mem (hsub b hb)] at hlook
  exact (Option.some.inj hlook).symm

/-- `evictLocked` from every shard reached with fewer than `2^31` entries, for every target,
    protected key, sample size, batch limit and sequence of draws. The keys it removed were stored
    and eligible, and it reported each of them once as evicted; all other keys have their value and
    deadline. When it returns, the target is met, the batch is used up, or no stored entry is
    eligible. -/
theorem eviction_exact {sampleK batchMax : ℕ} {rng : Draws} {exactLRU : Bool}
    {policy : EvictPolicy}
    (hrun : Run stepShard (fun s a => a.Counted s) (newShard sampleK batchMax rng exactLRU policy) s)
    (target : ℤ) (protect : Bytes) :
    ∃ ks : List Bytes, ks.Nodup ∧ (s.evictLocked target protect).1 = ks.length ∧
      (s.evictLocked target protect).2.onEvict =
        s.onEvict ++ ks.map (fun k => (k, EvictReason.evicted)) ∧
      (∀ k, k ∈ ks ↔ (s.entries.lookup k).isSome = true ∧
        (s.evictLocked target protect).2.entries.lookup k = none) ∧
      (∀ k ∈ ks, ∃ e, s.entries.lookup k = some e ∧ (s.heap e).key = k ∧
        s.eligible protect e = true) ∧
      (∀ k ∉ ks, (s.evictLocked target protect).2.contents k = s.contents k) ∧
      ((s.evictLocked target protect).2.memBytes ≤ target ∨ ks.length = s.batchMax ∨
        ∀ k e, (s.evictLocked target protect).2.entries.lookup k = some e →
          (s.evictLocked target protect).2.eligible protect e = false) := by
  have hinv := shard_run_linked hrun
  have hinv' := LinkedInv.maintained.evictLocked hinv target protect
  obtain ⟨vs, hvs, hlen, hstop⟩ := evictLocked_evicted hinv target protect
  have hsub : ∀ e ∈ vs, e ∈ s.slots.items := fun e he =>
    hvs.perm.mem_iff.mpr (List.mem_append_left _ he)
  have hnodup : vs.Nodup := (List.nodup_append.mp (hvs.perm.nodup_iff.mp hinv.slots.nodup)).1
  have hlook := hvs.removed.lookup
  have hstored : ∀ k ∈ vs.map fun e => (s.heap e).key, ∃ e, s.entries.lookup k = some e ∧
      (s.heap e).key = k ∧ s.eligible protect e = true := by
    intro k hk
    obtain ⟨e, he, rfl⟩ := List.mem_map.mp hk
    exact ⟨e, hinv.lookup_of_mem (hsub e he), rfl, hvs.eligible e he⟩
  refine ⟨vs.map fun e => (s.heap e).key, hinv.nodup_keys hnodup hsub, ?_, hvs.removed.onEvict, ?_,
    hstored, ?_, ?_⟩
  · rw [hlen, List.length_map]
  · intro k
    rw [hlook]
    constructor
    · intro hk
      obtain ⟨e, he, -⟩ := hstored k hk
      exact ⟨by rw [he]; rfl, if_pos hk⟩
    · rintro ⟨hsome, hnone⟩
      by_contra hk
      rw [if_neg hk] at hnone
      rw [hnone] at hsome
      cases hsome
  · intro k hk
    unfold Shard.contents
    rw [hlook, if_neg hk, hvs.removed.heap]
  · rw [List.length_map, hvs.eligible_eq]
    exact hstop.imp_right (Or.imp_right fun h k e he => h e (hinv'.mem_of_lookup he))

/-- A shard with two entries. -/
def twoEntries : Shard :=
  ((newShard 5 1 (splitmix64 1) false .allKeysLRU).act (.set [1] [2] 0 3)).act (.set [4] [5] 9 6)

/-- The entry that is not protected is evicted, and nothing else changes. -/
theorem eviction_exact_one :
    (twoEntries.evictLocked 0 [4]).2.onEvict = [([1], .evicted)] ∧
      ∀ k, k ≠ [1] → (twoEntries.evictLocked 0 [4]).2.contents k = twoEntries.contents k := by
  have hrun : Run stepShard (fun s a => a.Counted s) (newShard 5 1 (splitmix64 1) false .allKeysLRU)
      twoEntries :=
    (Run.refl.tail (.set [1] [2] 0 3) (by decide) rfl).tail (.set [4] [5] 9 6) (by decide) rfl
  obtain ⟨ks, -, -, hfired, -, -, hrest, -⟩ := eviction_exact hrun 0 [4]
  have hone : (twoEntries.evictLocked 0 [4]).2.onEvict = [([1], .evicted)] := by decide
  refine ⟨hone, fun k hk => hrest k fun hmem => hk ?_⟩
  have hreported : (k, EvictReason.evicted) ∈ (twoEntries.evictLocked 0 [4]).2.onEvict := by
    rw [hfired]
    exact List.mem_append_right _ (List.mem_map_of_mem hmem)
  rw [hone] at hreported
  simpa using hreported

end Loop

/-! ## Beyond the bound

A slot index is an `int32`. The entry whose index has wrapped around stays in `slots` when it is
removed, and can be sampled again. -/

section Beyond

variable {deadline : ℕ → UInt64} {n : ℕ}

theorem exists_loaded (hd : ∀ j, deadline j ≠ 0) (sampleK batchMax : ℕ) (rng : Draws)
    (policy : EvictPolicy) {n : ℕ} (hn : n < 2 ^ 40) :
    ∃ s, Run stepShard Always (newShard sampleK batchMax rng false policy) s ∧
      s.Loaded deadline n ∧ s.rng = rng ∧
      s.config = (newShard sampleK batchMax rng false policy).config := by
  induction n with
  | zero => exact ⟨_, .refl, loaded_newShard _ _ _ _ _ _, rfl, rfl⟩
  | succ n ih =>
    obtain ⟨s, hrun, hs, hrng, hconfig⟩ := ih (by omega)
    have hbudget : s.budget = 0 := congrArg (fun c => c.2.1) hconfig
    have hset := hs.setLocked_eq (by omega) (.inl hbudget.le)
    refine ⟨_, hrun.tail (.set (nthKey n) [] (deadline n) 0) trivial rfl, ?_⟩
    have hact : s.act (.set (nthKey n) [] (deadline n) 0) =
        s.insert (nthKey n) [] (deadline n) 0 168 := congrArg Prod.snd hset
    rw [hact]
    refine ⟨hs.insert (by omega) (hd n), ?_, ?_⟩
    · rw [insert_eq]; exact hrng
    · rw [insert_eq]; exact hconfig

/-- The last slot is held by an entry whose index has wrapped around, and every draw hits it. -/
structure Shard.Stuck (n : ℕ) (s : Shard) : Prop where
  config : s.exactLRU = false ∧ s.policy = .allKeysLRU ∧ s.sampleK = 1
  items : s.slots.items = List.range (n + 1)
  pos : s.slots.pos n < 0
  draw : ∀ i, (s.rng i).toNat % (n + 1) = n
  entry : (s.heap n).key ≠ [] ∧ (s.heap n).size = 168

theorem Shard.Stuck.pickVictimLocked (h : s.Stuck n) :
    ∃ rng, s.pickVictimLocked [] = (some n, { s with rng := rng }) ∧
      (Shard.removeAndFire { s with rng := rng } n .evicted).Stuck n := by
  obtain ⟨hexact, hpolicy, hsample⟩ := h.config
  have hdraw : (intn s.rng (n + 1)).1 = n := by
    unfold intn
    split_ifs with hone
    · omega
    · exact h.draw 0
  have hrng : ∀ i, ((intn s.rng (n + 1)).2 i).toNat % (n + 1) = n := by
    intro i
    unfold intn
    split_ifs
    · exact h.draw i
    · exact h.draw (i + 1)
  have hpool : s.pool = List.range (n + 1) := by
    rw [Shard.pool, hpolicy, if_neg (by decide), h.items]
  have hget : (List.range (n + 1))[n]? = some n := List.getElem?_range (Nat.lt_succ_self n)
  have hloop : s.sampleLoop (List.range (n + 1)) [] 1 s.rng none =
      (some n, (intn s.rng (n + 1)).2) := by
    rw [Shard.sampleLoop, List.length_range]
    simp only [hdraw, hget, if_neg h.entry.1]
    rfl
  refine ⟨(intn s.rng (n + 1)).2, ?_, ?_⟩
  · unfold Shard.pickVictimLocked
    rw [hexact, hpool, hsample, List.length_range, hloop]
    rfl
  · have hslots := removeAndFire_slots { s with rng := (intn s.rng (n + 1)).2 } n .evicted
    rw [SlotArray.remove_of_neg h.pos] at hslots
    have hremoved := removeAndFire_removed { s with rng := (intn s.rng (n + 1)).2 } n .evicted
    refine ⟨?_, by rw [hslots]; exact h.items, by rw [hslots]; exact h.pos, ?_,
      by rw [hremoved.heap]; exact h.entry⟩
    · have hconfig := hremoved.config
      exact ⟨(congrArg Prod.fst hconfig).trans hexact,
        (congrArg (fun c => c.2.2.2.1) hconfig).trans hpolicy,
        (congrArg (fun c => c.2.2.2.2.1) hconfig).trans hsample⟩
    · unfold Shard.removeAndFire
      rw [removeEntryLocked_eq]
      exact hrng

/-- It is evicted again and again. -/
theorem Shard.Stuck.evictLoop (h : s.Stuck n) {target : ℤ} {m : ℕ}
    (hmem : target + 168 * m ≤ s.memBytes) (htarget : 0 ≤ target) (hlt : s.memBytes < 2 ^ 63) :
    (Shard.evictLoop target [] m s).2.onEvict =
      s.onEvict ++ List.replicate m ((s.heap n).key, EvictReason.evicted) := by
  induction m generalizing s with
  | zero => rw [List.replicate_zero, List.append_nil]; rfl
  | succ m ih =>
    obtain ⟨rng, hpick, hstuck⟩ := h.pickVictimLocked
    have hremoved := removeAndFire_removed { s with rng := rng } n .evicted
    have hmem' : (Shard.removeAndFire { s with rng := rng } n .evicted).memBytes =
        s.memBytes - 168 := by
      unfold Shard.removeAndFire
      rw [removeEntryLocked_eq]
      show int64 (s.memBytes - (s.heap n).size) = _
      rw [h.entry.2, int64_eq (by push_cast; omega) (by push_cast; omega)]
      rfl
    have hrest := ih hstuck (by rw [hmem']; push_cast at hmem; omega) (by rw [hmem']; omega)
    rw [Shard.evictLoop, if_pos (by push_cast at hmem; omega), hpick]
    dsimp only
    rw [hrest, hremoved.onEvict, hremoved.heap, List.append_assoc, List.replicate_succ]
    rfl

/-- After `2^31 + 1` keys were written to one shard, two evictions report the last of them
    twice. -/
theorem eviction_reports_twice :
    ∃ s k, Run stepShard Always (newShard 1 2 (fun _ => 2 ^ 31) false .allKeysLRU) s ∧
      (s.evictLocked 0 []).2.onEvict = s.onEvict ++ [(k, .evicted), (k, .evicted)] := by
  have hone : (1 : UInt64) ≠ 0 := by decide
  have hn : 2 ^ 31 + 1 < 2 ^ 40 := by norm_num
  obtain ⟨s, hrun, hs, hrng, hconfig⟩ :=
    exists_loaded (fun _ => hone) 1 2 (fun _ => 2 ^ 31) .allKeysLRU hn
  obtain ⟨hkey, -, hsize⟩ := hs.heap (2 ^ 31) (by norm_num)
  have hpolicy : s.policy = .allKeysLRU := congrArg (fun c => c.2.2.2.1) hconfig
  have hdraw : (2 ^ 31 : UInt64).toNat % (2 ^ 31 + 1) = 2 ^ 31 := by decide
  have hstuck : s.Stuck (2 ^ 31) := by
    refine ⟨⟨congrArg Prod.fst hconfig, hpolicy, congrArg (fun c => c.2.2.2.2.1) hconfig⟩, hs.items,
      ?_, fun i => hrng ▸ hdraw, ?_, hsize⟩
    · rw [hs.pos (2 ^ 31) (by norm_num)]
      decide
    · intro hnil
      have hlen := congrArg List.length (hkey.symm.trans hnil)
      rw [nthKey, length_putLE] at hlen
      cases hlen
  have hbatch : s.batchMax = 2 := congrArg (fun c => c.2.2.2.2.2) hconfig
  refine ⟨s, (s.heap (2 ^ 31)).key, hrun, ?_⟩
  rw [Shard.evictLocked, hpolicy, if_neg (by decide), hbatch]
  refine hstuck.evictLoop ?_ le_rfl ?_
  · rw [hs.memBytes]; norm_num
  · rw [hs.memBytes]; norm_num

end Beyond

end KvStore
