import KvStore.Store.Admission

/-!
# Refused writes

A write that needs room evicts first and is refused afterwards if that was not enough. Which entries
it takes depends on the draws of the generator, unless the LRU list gives their order.
`Shard.InTurn` says in which orders entries may be taken, and `Shard.StopsAfter` when eviction ends;
both speak of the shard before the write.

* `evictLoop_inTurn`, `exists_draws`: what the loop can take is exactly that.
* `refused_write_harmless`: a refused write leaves every live entry as it was, whatever is drawn,
  if and only if each of these orders makes room for it or takes expired entries only.
* `refused_write_evicts`: a write that removes a live entry and is refused.
-/

namespace KvStore

open KvStore.Common

/-! ## What eviction may take -/

/-- Entries that eviction may take in this order: with the LRU list from its tail on, otherwise as
    the draws have it. -/
structure Shard.InTurn (s : Shard) (protect : Bytes) (vs : List Ptr) : Prop where
  nodup : vs.Nodup
  mem : ∀ e ∈ vs, e ∈ s.slots.items
  eligible : ∀ e ∈ vs, s.eligible protect e = true
  lru : s.exactLRU = true →
    ∃ l, Path s.lru.prev s.lru.tail l ∧ vs <+: l.filter (s.eligible protect)

/-- Eviction down to `target`, of at most `n` entries, ends when the entries `vs` are gone. -/
structure Shard.StopsAfter (s : Shard) (target : ℤ) (protect : Bytes) (n : ℕ) (vs : List Ptr) :
    Prop where
  batch : vs.length ≤ n
  before : ∀ j < vs.length, target < s.memBytes - ((vs.take j).map s.cost).sum
  done : s.memBytes - (vs.map s.cost).sum ≤ target ∨ vs.length = n ∨
    ∀ e ∈ s.slots.items, s.eligible protect e = true → e ∈ vs

/-- No live entry goes for a write that is refused: there is room for it as it is, or each way of
    making room takes expired entries only, or enough of them. -/
def Shard.Spares (s : Shard) (key value : Bytes) (nowMs : UInt64) : Prop :=
  s.budget ≤ 0 ∨ s.growth key value ≤ 0 ∨ int64 (s.memBytes + s.growth key value) ≤ s.budget ∨
    ∀ vs, s.InTurn key vs → s.StopsAfter (s.evictTarget (s.growth key value)) key s.batchMax vs →
      int64 (s.memBytes - (vs.map s.cost).sum + s.growth key value) ≤ s.budget ∨
        ∀ e ∈ vs, (s.heap e).expired nowMs = true

variable {s t : Shard} {key value protect : Bytes} {vs : List Ptr} {v : Ptr} {target : ℤ} {n : ℕ}

/-- `t` is `s` without the entry `v`, whatever is left to be drawn. -/
structure Shard.Without (s : Shard) (v : Ptr) (t : Shard) : Prop where
  mem : ∀ e, e ∈ t.slots.items ↔ e ∈ s.slots.items ∧ e ≠ v
  eligible : ∀ protect, t.eligible protect = s.eligible protect
  cost : t.cost = s.cost
  memBytes : t.memBytes = s.memBytes - s.cost v
  exact_ : t.exactLRU = s.exactLRU
  lru : s.exactLRU = true → ∀ l, Path s.lru.prev s.lru.tail l →
    Path t.lru.prev t.lru.tail (l.filter (· != v))
  policy : t.policy = s.policy
  sampleK : t.sampleK = s.sampleK

theorem Shard.Without.of_removed (h : ShardInv s) (hv : v ∈ s.slots.items) (rng : Draws) :
    s.Without v { s.removeAndFire v .evicted with rng := rng } := by
  have hremoved := removeAndFire_removed s v .evicted
  have hinv := ShardInv.maintained.removeAndFire h hv .evicted
  have hslots := removeAndFire_slots s v .evicted
  have hpolicy : (s.removeAndFire v .evicted).policy = s.policy :=
    congrArg (fun c => c.2.2.2.1) hremoved.config
  have hcost : (s.removeAndFire v .evicted).cost = s.cost := by
    funext e
    rw [Shard.cost, Shard.cost, hremoved.heap]
  refine
    { mem := fun e => by rw [← h.slots.mem_remove hv, ← hslots]
      eligible := fun protect => eligible_congr hremoved.heap hpolicy
      cost := hcost
      memBytes := ?_
      exact_ := congrArg Prod.fst hremoved.config
      lru := fun hl l hpath => ?_
      policy := hpolicy
      sampleK := congrArg (fun c => c.2.2.2.2.1) hremoved.config }
  · have hsum := ((h.slots.perm_remove hv).map s.cost).sum_eq
    rw [List.map_cons, List.sum_cons, ← h.mem, ← hslots, ← hcost, ← hinv.mem, hcost] at hsum
    show (s.removeAndFire v .evicted).memBytes = _
    omega
  · obtain ⟨l₀, hl₀, hmem⟩ := h.lru hl
    obtain rfl := hpath.unique hl₀.path_prev
    have hheld := (hl₀.remove ((hmem v).mpr hv)).path_prev
    rw [hl₀.nodup.erase_eq_filter, ← List.filter_reverse] at hheld
    have hlru : (s.removeAndFire v .evicted).lru = s.lru.remove v := by
      unfold Shard.removeAndFire
      rw [removeEntryLocked_eq]
      exact if_pos hl
    show Path (s.removeAndFire v .evicted).lru.prev (s.removeAndFire v .evicted).lru.tail _
    rw [hlru]
    exact hheld

theorem removeAndFire_rng (s : Shard) (v : Ptr) (rng : Draws) :
    Shard.removeAndFire { s with rng := rng } v .evicted =
      { s.removeAndFire v .evicted with rng := rng } := by
  unfold Shard.removeAndFire
  rw [removeEntryLocked_eq, removeEntryLocked_eq]
  rfl

/-! ## One entry at a time -/

/-- The entry that eviction takes next. -/
structure Shard.Next (s : Shard) (protect : Bytes) (v : Ptr) : Prop where
  mem : v ∈ s.slots.items
  eligible : s.eligible protect v = true
  lru : s.exactLRU = true → ∀ l, Path s.lru.prev s.lru.tail l → l.find? (s.eligible protect) = some v

theorem Shard.InTurn.next (h : s.InTurn protect (v :: vs)) : s.Next protect v := by
  refine ⟨h.mem v List.mem_cons_self, h.eligible v List.mem_cons_self, fun hl l hpath => ?_⟩
  obtain ⟨l', hpath', rest, hrest⟩ := h.lru hl
  rw [hpath.unique hpath', ← List.head?_filter, ← hrest]
  rfl

theorem inTurn_nil (h : LinkedInv s) : s.InTurn protect [] := by
  refine ⟨.nil, nofun, nofun, fun hl => ?_⟩
  obtain ⟨l, hl₀, -⟩ := h.lru hl
  exact ⟨_, hl₀.path_prev, List.nil_prefix⟩

/-- What can go after the first entry can go when it is gone. -/
theorem Shard.Next.inTurn_cons (h : s.Next protect v) (hs : LinkedInv s) (ht : s.Without v t) :
    s.InTurn protect (v :: vs) ↔ t.InTurn protect vs := by
  -- the rest of the list that is walked
  have hwalk : s.exactLRU = true → ∃ l rest, Path s.lru.prev s.lru.tail l ∧
      l.filter (s.eligible protect) = v :: rest ∧
      (l.filter (· != v)).filter (s.eligible protect) = rest := by
    intro hl
    obtain ⟨l, hl₀, -⟩ := hs.lru hl
    have hfind := h.lru hl _ hl₀.path_prev
    rw [← List.head?_filter] at hfind
    obtain ⟨rest, hrest⟩ := List.head?_eq_some_iff.mp hfind
    refine ⟨_, rest, hl₀.path_prev, hrest, ?_⟩
    have hnodup := (List.nodup_reverse.mpr hl₀.nodup).filter (s.eligible protect)
    rw [hrest, List.nodup_cons] at hnodup
    rw [List.filter_comm, hrest, List.filter_cons_of_neg (by simp), List.filter_eq_self]
    exact fun e he => bne_iff_ne.mpr (ne_of_mem_of_not_mem he hnodup.1)
  constructor
  · intro hturn
    have hfresh := List.nodup_cons.mp hturn.nodup
    refine ⟨hfresh.2, fun e he => ?_, ?_, fun hl => ?_⟩
    · exact (ht.mem e).mpr ⟨hturn.mem e (List.mem_cons_of_mem _ he), ne_of_mem_of_not_mem he hfresh.1⟩
    · rw [ht.eligible]
      exact fun e he => hturn.eligible e (List.mem_cons_of_mem _ he)
    · rw [ht.exact_] at hl
      obtain ⟨l, rest, hpath, hfirst, hrest⟩ := hwalk hl
      obtain ⟨l', hpath', hprefix⟩ := hturn.lru hl
      rw [hpath'.unique hpath, hfirst] at hprefix
      refine ⟨_, ht.lru hl l hpath, ?_⟩
      rw [ht.eligible, hrest]
      exact (List.cons_prefix_cons.mp hprefix).2
  · intro hturn
    have hfresh : v ∉ vs := fun hv => ((ht.mem v).mp (hturn.mem v hv)).2 rfl
    have helig := hturn.eligible
    rw [ht.eligible] at helig
    refine ⟨List.nodup_cons.mpr ⟨hfresh, hturn.nodup⟩, ?_, ?_, fun hl => ?_⟩
    · exact List.forall_mem_cons.mpr ⟨h.mem, fun e he => ((ht.mem e).mp (hturn.mem e he)).1⟩
    · exact List.forall_mem_cons.mpr ⟨h.eligible, helig⟩
    · obtain ⟨l, rest, hpath, hfirst, hrest⟩ := hwalk hl
      obtain ⟨l', hpath', hprefix⟩ := hturn.lru (ht.exact_.trans hl)
      rw [hpath'.unique (ht.lru hl l hpath), ht.eligible, hrest] at hprefix
      refine ⟨l, hpath, ?_⟩
      rw [hfirst]
      exact List.cons_prefix_cons.mpr ⟨rfl, hprefix⟩

/-- Eviction goes on after the first entry as it does when that entry is gone. -/
theorem Shard.Without.stopsAfter_cons (ht : s.Without v t) :
    s.StopsAfter target protect (n + 1) (v :: vs) ↔
      target < s.memBytes ∧ t.StopsAfter target protect n vs := by
  have hleft : ∀ us : List Ptr, s.memBytes - ((v :: us).map s.cost).sum =
      t.memBytes - (us.map t.cost).sum := by
    intro us
    rw [List.map_cons, List.sum_cons, ht.memBytes, ht.cost]
    ring
  constructor
  · intro h
    refine ⟨by simpa using h.before 0 (by simp), Nat.le_of_succ_le_succ h.batch, fun j hj => ?_, ?_⟩
    · have hbefore := h.before (j + 1) (Nat.succ_lt_succ hj)
      rwa [List.take_succ_cons, hleft] at hbefore
    · rcases h.done with hdone | hdone | hdone
      · exact .inl (hleft vs ▸ hdone)
      · exact .inr (.inl (Nat.succ.inj hdone))
      · refine .inr (.inr fun e he helig => ?_)
        obtain ⟨hmem, hne⟩ := (ht.mem e).mp he
        rw [ht.eligible] at helig
        exact (List.mem_cons.mp (hdone e hmem helig)).resolve_left hne
  · rintro ⟨hmem, h⟩
    refine ⟨Nat.succ_le_succ h.batch, fun j hj => ?_, ?_⟩
    · cases j with
      | zero => simpa using hmem
      | succ j =>
        rw [List.take_succ_cons, hleft]
        exact h.before j (Nat.lt_of_succ_lt_succ hj)
    · rcases h.done with hdone | hdone | hdone
      · exact .inl ((hleft vs).symm ▸ hdone)
      · exact .inr (.inl (congrArg Nat.succ hdone))
      · refine .inr (.inr fun e he helig => ?_)
        by_cases hev : e = v
        · exact hev ▸ List.mem_cons_self
        · rw [← ht.eligible] at helig
          exact List.mem_cons_of_mem _ (hdone e ((ht.mem e).mpr ⟨he, hev⟩) helig)

/-! ## The loop -/

section Loop

variable (hp : s.policy ≠ .noEviction)

include hp

/-- The loop takes entries that are in turn, until it has to stop. -/
theorem evictLoop_inTurn (h : ShardInv s) (target : ℤ) (protect : Bytes) (n : ℕ) :
    ∃ vs, Evicted protect s (Shard.evictLoop target protect n s).2 vs ∧ s.InTurn protect vs ∧
      s.StopsAfter target protect n vs := by
  induction n generalizing s with
  | zero => exact ⟨[], .refl protect s, inTurn_nil h.toLinkedInv, by simp, by simp, by simp⟩
  | succ n ih =>
    rw [Shard.evictLoop]
    split_ifs with hmem
    · obtain ⟨rng, ⟨hpick, hnone⟩ | ⟨v, hv, helig, hpick⟩⟩ :=
        pickVictimLocked_cases h.toLinkedInv hp protect
      · rw [hpick]
        exact ⟨[], .of_rng protect s rng, inTurn_nil h.toLinkedInv, by simp, by simp,
          .inr (.inr fun e he helig => by rw [hnone e he] at helig; cases helig)⟩
      · rw [hpick]
        have hnext : s.Next protect v := by
          refine ⟨hv, helig, fun hl l hpath => ?_⟩
          obtain ⟨l₀, hl₀, hmem⟩ := h.lru hl
          rw [pickVictimLocked_exact h.toLinkedInv hp hl hl₀ hmem] at hpick
          rw [hpath.unique hl₀.path_prev]
          exact congrArg Prod.fst hpick
        have hstep : Evicted protect s (Shard.removeAndFire { s with rng := rng } v .evicted) [v] :=
          (Evicted.of_rng protect s rng).trans
            (.victim (LinkedInv.maintained.of_rng h.toLinkedInv rng) hv helig)
        have ht := Shard.Without.of_removed h hv rng
        rw [← removeAndFire_rng] at ht
        obtain ⟨vs, hvs, hturn, hstop⟩ := ih (by rw [hstep.policy]; exact hp)
          (hstep.kept ShardInv.maintained h)
        exact ⟨v :: vs, hstep.trans hvs, (hnext.inTurn_cons h.toLinkedInv ht).mpr hturn,
          ht.stopsAfter_cons.mpr ⟨hmem, hstop⟩⟩
    · exact ⟨[], .refl protect s, inTurn_nil h.toLinkedInv, by simp, by simp,
        .inl (by simpa using hmem)⟩

end Loop

/-! ## The draws -/

section Draws

/-- Any slot can be drawn, before any other draws. -/
theorem exists_intn {i len : ℕ} (hi : i < len) (hlen : len < 2 ^ 64) (rest : Draws) :
    ∃ rng, intn rng len = (i, rest) := by
  by_cases hone : len ≤ 1
  · refine ⟨rest, ?_⟩
    rw [intn, if_pos hone, show i = 0 by omega]
  · refine ⟨fun j => if j = 0 then UInt64.ofNat i else rest (j - 1), ?_⟩
    rw [intn, if_neg hone]
    refine Prod.ext ?_ (funext fun j => ?_)
    · show (UInt64.ofNat i).toNat % len = i
      rw [UInt64.toNat_ofNat_of_lt' (hi.trans hlen), Nat.mod_eq_of_lt hi]
    · show (if j + 1 = 0 then UInt64.ofNat i else rest (j + 1 - 1)) = rest j
      rw [if_neg (Nat.succ_ne_zero j), Nat.add_sub_cancel]

/-- Any entry of the pool but the protected one can be the one that is sampled. -/
theorem exists_sampleLoop {pool : List Ptr} {i : ℕ} (hi : pool[i]? = some v)
    (hlen : pool.length < 2 ^ 64) (hkey : (s.heap v).key ≠ protect) (rest : Draws) (m : ℕ) :
    ∃ rng, ∀ t : Shard, t.heap = s.heap →
      ∀ best, best = none ∨ best = some (v, (s.heap v).lastAccess) →
        t.sampleLoop pool protect m rng best =
          (if m = 0 then best.map Prod.fst else some v, rest) := by
  induction m with
  | zero => exact ⟨rest, fun t _ best _ => rfl⟩
  | succ m ih =>
    obtain ⟨rng', hrest⟩ := ih
    obtain ⟨rng, hdraw⟩ := exists_intn (List.getElem?_eq_some_iff.mp hi).1 hlen rng'
    refine ⟨rng, fun t ht best hbest => ?_⟩
    have hgoes := hrest t ht (some (v, (s.heap v).lastAccess)) (.inr rfl)
    rw [Option.map_some, ite_self] at hgoes
    rw [Shard.sampleLoop, hdraw]
    dsimp only
    rw [hi]
    dsimp only
    rw [ht, if_neg hkey, if_neg (Nat.succ_ne_zero m)]
    rcases hbest with rfl | rfl
    · exact hgoes
    · dsimp only
      rw [ite_self]
      exact hgoes

/-- Any entry that is in turn can be the victim. -/
theorem Shard.Next.exists_draws (h : s.Next protect v) (hs : LinkedInv s)
    (hp : s.policy ≠ .noEviction) (hsample : 0 < s.sampleK) (rest : Draws) :
    ∃ rng, Shard.pickVictimLocked { s with rng := rng } protect = (some v, { s with rng := rest }) := by
  by_cases hexact : s.exactLRU = true
  · obtain ⟨l, hl, hmem⟩ := hs.lru hexact
    refine ⟨rest, ?_⟩
    rw [pickVictimLocked_exact (LinkedInv.maintained.of_rng hs rest) hp hexact hl hmem]
    exact congrArg (·, _) (h.lru hexact _ hl.path_prev)
  · obtain ⟨hkey, -, -⟩ := of_decide_eq_true h.eligible
    have hpool := mem_pool hs h.mem h.eligible
    obtain ⟨i, hi⟩ := List.getElem?_of_mem hpool
    have hlen : s.pool.length < 2 ^ 64 := by
      have hcount := hs.count
      have hle := hs.length_ttl_le
      unfold Shard.pool
      split_ifs <;> omega
    obtain ⟨rng, hloop⟩ := exists_sampleLoop hi hlen hkey rest s.sampleK
    have hsampled := hloop { s with rng := rng } rfl none (.inl rfl)
    rw [if_neg hsample.ne'] at hsampled
    have hne : Shard.pool { s with rng := rng } ≠ [] := List.ne_nil_of_mem hpool
    refine ⟨rng, ?_⟩
    unfold Shard.pickVictimLocked
    rw [if_neg hexact, if_neg (mt List.length_eq_zero_iff.mp hne)]
    erw [hsampled]

/-- Whatever is in turn and leads to a stop can be what the loop takes. -/
theorem exists_draws (h : ShardInv s) (hp : s.policy ≠ .noEviction) (hsample : 0 < s.sampleK)
    (hturn : s.InTurn protect vs) (hstop : s.StopsAfter target protect n vs) :
    ∃ rng, Evicted protect s (Shard.evictLoop target protect n { s with rng := rng }).2 vs := by
  induction vs generalizing s n with
  | nil =>
    refine ⟨s.rng, ?_⟩
    cases n with
    | zero => exact .refl protect s
    | succ n =>
      rw [Shard.evictLoop]
      split_ifs with hmem
      · have hnone : ∀ e ∈ s.slots.items, s.eligible protect e = false := by
          intro e he
          rcases hstop.done with hdone | hdone | hdone
          · exact absurd hmem (not_lt.mpr (by simpa using hdone))
          · cases hdone
          · by_contra helig
            exact List.not_mem_nil (hdone e he (by simpa using helig))
        obtain ⟨rng, ⟨hpick, -⟩ | ⟨v, hv, helig, -⟩⟩ :=
          pickVictimLocked_cases h.toLinkedInv hp protect
        · rw [hpick]
          exact .of_rng protect s rng
        · rw [hnone v hv] at helig
          cases helig
      · exact .refl protect s
  | cons v vs ih =>
    cases n with
    | zero => exact absurd hstop.batch (Nat.not_succ_le_zero _)
    | succ n =>
      have hnext := hturn.next
      have ht : s.Without v (s.removeAndFire v .evicted) :=
        .of_removed h hnext.mem (s.removeAndFire v .evicted).rng
      obtain ⟨hmem, hstop'⟩ := ht.stopsAfter_cons.mp hstop
      have hstep : Evicted protect s (s.removeAndFire v .evicted) [v] :=
        .victim h.toLinkedInv hnext.mem hnext.eligible
      obtain ⟨rest, hrest⟩ := ih (s := s.removeAndFire v .evicted) (hstep.kept ShardInv.maintained h)
        (by rw [hstep.policy]; exact hp) (ht.sampleK.symm ▸ hsample)
        ((hnext.inTurn_cons h.toLinkedInv ht).mp hturn) hstop'
      obtain ⟨rng, hpick⟩ := hnext.exists_draws h.toLinkedInv hp hsample rest
      refine ⟨rng, ?_⟩
      rw [Shard.evictLoop, if_pos hmem, hpick]
      dsimp only
      rw [removeAndFire_rng]
      exact hstep.trans hrest

end Draws

/-! ## Refused writes -/

section Refused

/-- A refused write leaves what `admitLocked` leaves. -/
theorem setLocked_refused {expireAt nowMono : UInt64}
    (hoom : (s.setLocked key value expireAt nowMono).1 = false) :
    (s.setLocked key value expireAt nowMono).2 = (s.admitLocked (s.growth key value) key).2 := by
  obtain ⟨hok, hsame⟩ := setLocked_admitted s key value expireAt nowMono
  rwa [← hok, hoom, if_neg (by decide)] at hsame

/-- The entries that are not among the victims are as they were. -/
theorem Evicted.contents (h : Evicted protect s t vs) {k : Bytes}
    (hk : k ∉ vs.map fun e => (s.heap e).key) : t.contents k = s.contents k := by
  unfold Shard.contents
  rw [h.removed.lookup, if_neg hk, h.removed.heap]

/-- What is live at `nowMs` stays when the victims have expired. -/
theorem Evicted.live (h : Evicted protect s t vs) (hs : IndexInv s) {nowMs : UInt64}
    (hdead : ∀ e ∈ vs, (s.heap e).expired nowMs = true) {k : Bytes} {d : Bytes × UInt64}
    (hlive : liveAt nowMs (s.contents k) = some d) : liveAt nowMs (t.contents k) = some d := by
  have hk : k ∉ vs.map fun e => (s.heap e).key := by
    intro hk
    obtain ⟨e, he, rfl⟩ := List.mem_map.mp hk
    have hmem := h.perm.mem_iff.mpr (List.mem_append_left _ he)
    have hexp : deadAt nowMs (some ((s.heap e).value, (s.heap e).expireAt)) = true := hdead e he
    rw [contents_of_lookup (hs.lookup_of_mem hmem), liveAt_of_dead hexp] at hlive
    cases hlive
  rw [h.contents hk, hlive]

/-- What is drawn next plays no part. -/
theorem Shard.Spares.of_rng {nowMs : UInt64} (h : s.Spares key value nowMs) (draws : Draws) :
    Shard.Spares { s with rng := draws } key value nowMs := by
  refine h.imp_right (Or.imp_right (Or.imp_right fun hevery vs hturn hstop => ?_))
  exact hevery vs ⟨hturn.nodup, hturn.mem, hturn.eligible, hturn.lru⟩
    ⟨hstop.batch, hstop.before, hstop.done⟩

/-- A shard that spares its live entries loses none for a write that is refused. -/
theorem Shard.Spares.live (h : ShardInv s) {nowMs : UInt64} (hspares : s.Spares key value nowMs)
    {expireAt nowMono : UInt64} (hoom : (s.setLocked key value expireAt nowMono).1 = false)
    {k : Bytes} {d : Bytes × UInt64} (hlive : liveAt nowMs (s.contents k) = some d) :
    liveAt nowMs ((s.setLocked key value expireAt nowMono).2.contents k) = some d := by
  rw [setLocked_refused hoom]
  rw [(setLocked_admitted s key value expireAt nowMono).1] at hoom
  by_cases hpolicy : s.policy = .noEviction
  · have hsame : (s.admitLocked (s.growth key value) key).2 = s := by
      unfold Shard.admitLocked
      split_ifs <;> rfl
    rw [hsame, hlive]
  have hfull : 0 < s.budget ∧ 0 < s.growth key value ∧
      s.budget < int64 (s.memBytes + s.growth key value) := by
    by_contra hnot
    unfold Shard.admitLocked at hoom
    split_ifs at hoom
    omega
  obtain ⟨hbudget, hgrowth, hmore⟩ := hfull
  rw [admitLocked_evicting hbudget hgrowth hmore hpolicy] at hoom ⊢
  have hloop : ∀ target, s.evictLocked target key = Shard.evictLoop target key s.batchMax s :=
    fun target => if_neg hpolicy
  rw [hloop] at hoom ⊢
  obtain ⟨vs, hvs, hturn, hstop⟩ := evictLoop_inTurn hpolicy h
    (s.evictTarget (s.growth key value)) key s.batchMax
  have hleft := of_decide_eq_false hoom
  have hsame : (Shard.evictLoop (s.evictTarget (s.growth key value)) key s.batchMax s).2.budget =
      s.budget := congrArg (fun c => c.2.1) hvs.removed.config
  rw [hsame, show (Shard.evictLoop (s.evictTarget (s.growth key value)) key s.batchMax s).2.memBytes =
    s.memBytes - (vs.map s.cost).sum by have := hvs.memBytes h; omega] at hleft
  rcases hspares with hc | hc | hc | hevery
  · omega
  · omega
  · omega
  · rcases hevery vs hturn hstop with hroom | hdead
    · exact absurd hroom hleft
    · exact hvs.live h.toIndexInv hdead hlive

/-- A live entry that is in turn, for a write that is refused then, can be lost. -/
theorem exists_lost (h : ShardInv s) (hsample : 0 < s.sampleK) {nowMs : UInt64}
    (hbudget : 0 < s.budget) (hgrowth : 0 < s.growth key value)
    (hmore : s.budget < int64 (s.memBytes + s.growth key value)) (hturn : s.InTurn key vs)
    (hstop : s.StopsAfter (s.evictTarget (s.growth key value)) key s.batchMax vs)
    (hleft : s.budget < int64 (s.memBytes - (vs.map s.cost).sum + s.growth key value)) (hv : v ∈ vs)
    (hlive : (s.heap v).expired nowMs = false) (expireAt nowMono : UInt64) :
    ∃ draws, (Shard.setLocked { s with rng := draws } key value expireAt nowMono).1 = false ∧
      (liveAt nowMs (s.contents (s.heap v).key)).isSome ∧
      (Shard.setLocked { s with rng := draws } key value expireAt nowMono).2.contents
        (s.heap v).key = none := by
  have hpolicy : s.policy ≠ .noEviction := (of_decide_eq_true (hturn.eligible v hv)).2.1
  obtain ⟨draws, hvs⟩ := exists_draws h hpolicy hsample hturn hstop
  obtain ⟨t, ht⟩ : ∃ t, t = Shard.evictLocked { s with rng := draws }
      (s.evictTarget (s.growth key value)) key := ⟨_, rfl⟩
  have hloop : t = Shard.evictLoop (s.evictTarget (s.growth key value)) key s.batchMax
      { s with rng := draws } := ht.trans (if_neg hpolicy)
  rw [← hloop] at hvs
  have hfit : Shard.admitLocked { s with rng := draws } (s.growth key value) key =
      (decide (int64 (t.2.memBytes + s.growth key value) ≤ t.2.budget), t.2) := by
    rw [ht]
    exact admitLocked_evicting (s := { s with rng := draws }) hbudget hgrowth hmore hpolicy key
  have hmem := hvs.memBytes h
  have hsame : t.2.budget = s.budget := congrArg (fun c => c.2.1) hvs.removed.config
  have hoom : (Shard.setLocked { s with rng := draws } key value expireAt nowMono).1 = false := by
    rw [(setLocked_admitted { s with rng := draws } key value expireAt nowMono).1]
    show (Shard.admitLocked { s with rng := draws } (s.growth key value) key).1 = false
    rw [hfit, hsame, show t.2.memBytes = s.memBytes - (vs.map s.cost).sum by omega]
    exact decide_eq_false (not_le.mpr hleft)
  refine ⟨draws, hoom, ?_, ?_⟩
  · have hlook := h.lookup_of_mem (hturn.mem v hv)
    exact Option.isSome_iff_exists.mpr ⟨_, liveAt_eq_some.mpr ⟨contents_of_lookup hlook, hlive⟩⟩
  · rw [setLocked_refused hoom]
    show (Shard.admitLocked { s with rng := draws } (s.growth key value) key).2.contents _ = none
    rw [hfit]
    unfold Shard.contents
    rw [hvs.removed.lookup, if_pos (List.mem_map_of_mem hv)]
    rfl

/-- From every reachable shard, whatever the generator draws next: a write that is refused leaves
    each entry that was live as it was, if and only if the shard spares its live entries. -/
theorem refused_write_harmless {sampleK batchMax : ℕ} {rng : Draws} {exactLRU : Bool}
    {policy : EvictPolicy}
    (hrun : Run stepShard (fun s a => a.Fits s) (newShard sampleK batchMax rng exactLRU policy) s)
    (hsample : 0 < s.sampleK) (key value : Bytes) (expireAt nowMono nowMs : UInt64) :
    (∀ draws : Draws,
        (Shard.setLocked { s with rng := draws } key value expireAt nowMono).1 = false →
        ∀ k d, liveAt nowMs (s.contents k) = some d → liveAt nowMs
          ((Shard.setLocked { s with rng := draws } key value expireAt nowMono).2.contents k) =
            some d) ↔
      s.Spares key value nowMs := by
  have hinv := shard_run_inv hrun
  constructor
  · intro hharmless
    by_contra hspares
    unfold Shard.Spares at hspares
    push Not at hspares
    obtain ⟨hbudget, hgrowth, hmore, vs, hturn, hstop, hleft, v, hv, hlive⟩ := hspares
    obtain ⟨draws, hoom, hbefore, hafter⟩ := exists_lost hinv hsample hbudget hgrowth hmore hturn
      hstop hleft hv (Bool.eq_false_iff.mpr hlive) expireAt nowMono
    obtain ⟨d, hd⟩ := Option.isSome_iff_exists.mp hbefore
    have hkept := hharmless draws hoom _ d hd
    rw [hafter] at hkept
    cases hkept
  · intro hspares draws hoom k d hlive
    exact Shard.Spares.live (ShardInv.maintained.of_rng hinv draws) (hspares.of_rng draws) hoom hlive

/-- Under `noeviction` nothing may go. -/
theorem refused_write_harmless_full :
    ((fullShard .noEviction).setLocked [4] [5] 9 6).1 = false ∧
      liveAt 0 (((fullShard .noEviction).setLocked [4] [5] 9 6).2.contents [1]) = some ([2], 0) := by
  have hspares : (fullShard .noEviction).Spares [4] [5] 0 := by
    refine .inr (.inr (.inr fun vs hturn _ => .inr fun e he => ?_))
    exact absurd rfl (of_decide_eq_true (hturn.eligible e he)).2.1
  exact ⟨by decide, (refused_write_harmless (fullShard_reached .noEviction) (by decide) [4] [5] 9 6
    0).mpr hspares (fullShard .noEviction).rng (by decide) [1] ([2], 0) (by decide)⟩

/-- A write that is larger than the budget evicts what there is, and is then refused. -/
theorem refused_write_evicts :
    ∃ s, Run stepShard (fun s a => a.Fits s) (newShard 5 64 (splitmix64 1) false .allKeysLRU) s ∧
      liveAt 0 (s.contents [1]) = some ([2], 0) ∧
      (s.setLocked [3] (List.replicate 100 0) 0 9).1 = false ∧
      (s.setLocked [3] (List.replicate 100 0) 0 9).2.contents [1] = none :=
  Run.exists_of_guarded stepShard (fun s a => a.Fits s)
    (newShard 5 64 (splitmix64 1) false .allKeysLRU) [.limits 200 150, .set [1] [2] 0 1] _
    (by decide +kernel)

end Refused

end KvStore
