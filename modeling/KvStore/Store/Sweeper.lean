import KvStore.Store.Reclaim

/-!
# The sweeper

Model of `Sweeper` in `internal/store/expiry.go`. A cycle goes through the shards; on each one it
makes rounds of `sweepLocked` until a round finds few enough expired entries, or until the cycle
has taken too long. Other clients may come in between any two rounds.

`sweepLocked` samples with replacement, removes an entry that it drew twice once, and counts it
twice.

* `sweepLocked_count_iff`: the number it returns is that of the entries removed if and only if no
  expired entry was drawn twice.
* `sweeper_counts_reclaimed`: in runs without such a round, `TotalExpired` is the number of entries
  that the sweeper has removed.
* `sweeper_counts_twice`: two keys, of which the first round removes one and counts two.
-/

namespace KvStore

open KvStore.Common

/-! ## One round -/

/-- The expired entries that a round draws (shard.go lines 392–401). -/
def Shard.victims (s : Shard) (nowMs : UInt64) (sample : ℕ) : List Ptr :=
  (s.sweepSample nowMs
    (if sample > s.ttlSlots.items.length then s.ttlSlots.items.length else sample) s.rng).1

section

variable {now : UInt64} {s : Shard}

/-- Of the victims those are removed that are there, and each one once. -/
theorem sweepRemove_reclaims {victims : List Ptr} (h : IndexInv s)
    (hmem : ∀ e ∈ victims, e ∈ s.slots.items ∨ s.slots.pos e < 0)
    (hexp : ∀ e ∈ victims, (s.heap e).expired now = true) :
    ∃ ks, Reclaims now s ks (s.sweepRemove victims) ∧
      ks.length = (victims.toFinset.filter (· ∈ s.slots.items)).card := by
  induction victims generalizing s with
  | nil => exact ⟨[], .refl h now, rfl⟩
  | cons e victims ih =>
    obtain ⟨he, hmem⟩ := List.forall_mem_cons.mp hmem
    obtain ⟨hexp_e, hexp⟩ := List.forall_mem_cons.mp hexp
    rw [Shard.sweepRemove]
    by_cases hpos : s.slots.pos e < 0
    · -- removed before in this round
      have hout : e ∉ s.slots.items := by
        intro hin
        obtain ⟨i, -, hi, -⟩ := h.slots.exists_pos hin
        omega
      obtain ⟨ks, hks, hcount⟩ := ih h hmem hexp
      rw [if_pos hpos, List.toFinset_cons, Finset.filter_insert, if_neg hout]
      exact ⟨ks, hks, hcount⟩
    · have hin : e ∈ s.slots.items := he.resolve_right hpos
      have hone := removeAndFire_reclaims h hin hexp_e
      have hitems : ∀ b, b ∈ (s.removeAndFire e .expired).slots.items ↔ b ∈ s.slots.items ∧ b ≠ e := by
        intro b
        rw [removeAndFire_slots]
        exact h.slots.mem_remove hin
      have hrest : ∀ b ∈ victims, b ∈ (s.removeAndFire e .expired).slots.items ∨
          (s.removeAndFire e .expired).slots.pos b < 0 := fun b hb =>
        removeAndFire_there h hin (hmem b hb)
      obtain ⟨ks, hks, hcount⟩ := ih hone.index hrest (by rw [heap_removeAndFire]; exact hexp)
      rw [if_neg hpos]
      refine ⟨_, hone.trans hks, ?_⟩
      have hset : (e :: victims).toFinset.filter (· ∈ s.slots.items) = insert e
          (victims.toFinset.filter (· ∈ (s.removeAndFire e .expired).slots.items)) := by
        ext b
        simp only [List.toFinset_cons, Finset.mem_filter, Finset.mem_insert, hitems]
        by_cases hb : b = e
        · simp [hb, hin]
        · simp [hb]
      rw [hset, Finset.card_insert_of_notMem, ← hcount, List.length_append, List.length_singleton,
        Nat.add_comm]
      intro hmem
      exact ((hitems e).mp (Finset.mem_filter.mp hmem).2).2 rfl

/-- A round removes the distinct ones among the entries it draws, and counts all of them. -/
theorem sweepLocked_reclaims (h : IndexInv s) (now : UInt64) (sample : ℕ) :
    ∃ ks, Reclaims now s ks (s.sweepLocked now sample).2 ∧
      ks.length = (s.victims now sample).toFinset.card ∧
      (s.sweepLocked now sample).1.2 = (s.victims now sample).length := by
  obtain ⟨n, hn⟩ : ∃ n, n = if sample > s.ttlSlots.items.length then s.ttlSlots.items.length
    else sample := ⟨_, rfl⟩
  have hvictims : s.victims now sample = (s.sweepSample now n s.rng).1 := by rw [hn, Shard.victims]
  rw [hvictims, Shard.sweepLocked]
  by_cases hnone : s.ttlSlots.items.length = 0
  · obtain rfl : n = 0 := by
      rw [hn]
      split_ifs <;> omega
    rw [if_pos hnone]
    exact ⟨[], .refl h now, rfl, rfl⟩
  · rw [if_neg hnone, ← hn]
    have hsample := sweepSample_spec s now n s.rng
    have hthere : ∀ e ∈ (s.sweepSample now n s.rng).1, e ∈ s.slots.items :=
      fun e he => ((h.mem_ttl e).mp (hsample e he).1).1
    have hindex : IndexInv { s with rng := (s.sweepSample now n s.rng).2 } :=
      h.congr rfl rfl rfl rfl rfl
    obtain ⟨ks, hks, hcount⟩ := sweepRemove_reclaims hindex (fun e he => .inl (hthere e he))
      fun e he => (hsample e he).2
    refine ⟨ks, ⟨(Removed.of_rng _ s _).trans hks.removed, hks.nodup, hks.dead, hks.index⟩, ?_, rfl⟩
    rw [hcount, Finset.filter_true_of_mem]
    intro e he
    exact hthere e (List.mem_toFinset.mp he)

/-- The number that a round returns is that of the entries it removed if and only if it drew no
    expired entry twice. -/
theorem sweepLocked_count_iff (h : IndexInv s) (now : UInt64) (sample : ℕ) :
    ∃ ks, Reclaims now s ks (s.sweepLocked now sample).2 ∧
      ((s.sweepLocked now sample).1.2 = ks.length ↔ (s.victims now sample).Nodup) := by
  obtain ⟨ks, hks, hcount, hreturned⟩ := sweepLocked_reclaims h now sample
  refine ⟨ks, hks, ?_⟩
  rw [hcount, hreturned, eq_comm]
  exact Multiset.toFinset_card_eq_card_iff_nodup

/-- As many keys are gone as were removed. -/
theorem Reclaims.length_keys {s' : Shard} {ks : List Bytes} (h : Reclaims now s ks s') :
    s'.entries.keys.length + ks.length = s.entries.keys.length := by
  have hperm : s.entries.keys.Perm (s'.entries.keys ++ ks) := by
    refine (List.perm_ext_iff_of_nodup s.entries.nodupKeys ?_).mpr fun k => ?_
    · refine List.nodup_append'.mpr ⟨s'.entries.nodupKeys, h.nodup, fun k hk hk' => ?_⟩
      have hlook := AList.lookup_isSome.mpr hk
      rw [h.removed.lookup, if_pos hk'] at hlook
      cases hlook
    · show k ∈ s.entries ↔ k ∈ s'.entries.keys ++ ks
      rw [List.mem_append]
      show k ∈ s.entries ↔ k ∈ s'.entries ∨ k ∈ ks
      rw [← AList.lookup_isSome, ← AList.lookup_isSome, h.removed.lookup]
      by_cases hk : k ∈ ks
      · have hsome := isSome_of_deadAt (h.dead k hk)
        rw [contents_isSome] at hsome
        simp [hk, hsome]
      · simp [hk]
  rw [hperm.length_eq, List.length_append]

end

/-! ## Cycles -/

/-- The parameters of a `Sweeper` (expiry.go lines 51–63). `below expired sampled` is the comparison
    `float64(expired)/float64(sampled) <= w.threshold` of line 137. -/
structure Sweeper where
  sample : ℕ
  below : ℕ → ℕ → Bool

/-- `SweepStats`, without the duration. -/
structure SweepStats where
  rounds : ℕ
  sampled : ℕ
  expired : ℕ
  budgeted : Bool
  deriving DecidableEq, Repr

/-- A store with a sweeper. `cycle` is where a cycle stands, the shard and the counts so far.
    `reclaimed` is not part of the code: it is how many entries all rounds have removed. -/
structure SweepSystem where
  store : Store
  cycle : Option (ℕ × SweepStats)
  cycles : UInt64
  totalSwept : UInt64
  lastStats : Option SweepStats
  reclaimed : ℕ

/-- The steps of a cycle (lines 116–150), and the calls of other clients. -/
inductive SweepAction
  | call (c : StoreCall)
  | start
  | round (now : UInt64)
  | finish

namespace SweepSystem

/-- The system before anything happens. -/
def init (store : Store) : SweepSystem := ⟨store, none, 0, 0, none, 0⟩

/-- One round on shard `i` (lines 126–139). -/
def round (s : SweepSystem) (w : Sweeper) (i : ℕ) (st : SweepStats) (now : UInt64) : SweepSystem :=
  let r := s.store.sweep i now w.sample
  let sampled := r.1.1
  let expired := r.1.2
  let st := { st with
    rounds := st.rounds + 1
    sampled := st.sampled + sampled
    expired := st.expired + expired }
  let gone := (s.store.shards i).entries.keys.length - (r.2.shards i).entries.keys.length
  { s with
    store := r.2
    cycle := some (if sampled = 0 ∨ w.below expired sampled then i + 1 else i, st)
    reclaimed := s.reclaimed + gone }

/-- The step function. A cycle may be over its time budget before any round, and is finished then
    (lines 122–125 and 143–149). -/
def step (w : Sweeper) (s : SweepSystem) : SweepAction → Option SweepSystem
  | .call c => some { s with store := s.store.call c }
  | .start =>
    match s.cycle with
    | some _ => none
    | none => some { s with cycle := some (0, ⟨0, 0, 0, false⟩) }
  | .round now =>
    match s.cycle with
    | none => none
    | some (i, st) => if i < s.store.shardCount then some (s.round w i st now) else none
  | .finish =>
    match s.cycle with
    | none => none
    | some (i, st) =>
      some { s with
        cycle := none
        cycles := s.cycles + 1
        totalSwept := s.totalSwept + UInt64.ofNat st.expired
        lastStats := some { st with budgeted := i < s.store.shardCount } }

end SweepSystem

/-- A round draws no expired entry twice; writes are within the bounds of a shard. -/
def SweepAction.Distinct (w : Sweeper) (s : SweepSystem) : SweepAction → Prop
  | .call c => c.Fits s.store
  | .round now => ∀ p ∈ s.cycle, ((s.store.shards p.1).victims now w.sample).Nodup
  | _ => True

/-- What the current cycle has counted. -/
def SweepSystem.counted (s : SweepSystem) : ℕ := (s.cycle.map fun p => p.2.expired).getD 0

/-- The invariant: what was counted is what was removed. -/
structure SweepSystem.Exact (s : SweepSystem) : Prop where
  valid : s.store.Valid
  total : s.totalSwept + UInt64.ofNat s.counted = UInt64.ofNat s.reclaimed

section

variable {w : Sweeper} {s t : SweepSystem}

theorem SweepSystem.Exact.round (h : s.Exact) {i : ℕ} {st : SweepStats} {now : UInt64}
    (hcycle : s.cycle = some (i, st)) (hdistinct : ((s.store.shards i).victims now w.sample).Nodup) :
    (s.round w i st now).Exact := by
  obtain ⟨ks, hks, hcount⟩ := sweepLocked_count_iff (h.valid.inv i).toIndexInv now w.sample
  have hreturned := hcount.mpr hdistinct
  have hlen := hks.length_keys
  have hshard : (s.store.sweep i now w.sample).2.shards i =
      ((s.store.shards i).sweepLocked now w.sample).2 := shards_put_self _ _ _
  have hgone : (s.round w i st now).reclaimed = s.reclaimed + ks.length := by
    show s.reclaimed + ((s.store.shards i).entries.keys.length -
      ((s.store.sweep i now w.sample).2.shards i).entries.keys.length) = _
    rw [hshard]
    omega
  have hcounted : (s.round w i st now).counted = s.counted + ks.length := by
    have hold : s.counted = st.expired := by rw [SweepSystem.counted, hcycle]; rfl
    rw [hold, ← hreturned]
    rfl
  refine ⟨h.valid.call (.op (.sweep i now w.sample)) trivial, ?_⟩
  rw [hgone, hcounted, UInt64.ofNat_add, UInt64.ofNat_add, ← h.total, UInt64.add_assoc]
  rfl

theorem SweepSystem.Exact.step (h : s.Exact) {a : SweepAction} (ha : a.Distinct w s)
    (hstep : s.step w a = some t) : t.Exact := by
  cases a with
  | call c =>
    cases hstep
    exact ⟨h.valid.call c ha, h.total⟩
  | start =>
    cases hcycle : s.cycle with
    | some p =>
      rw [SweepSystem.step, hcycle] at hstep
      cases hstep
    | none =>
      rw [SweepSystem.step, hcycle] at hstep
      cases hstep
      refine ⟨h.valid, ?_⟩
      have htotal := h.total
      rw [SweepSystem.counted, hcycle] at htotal
      exact htotal
  | round now =>
    cases hcycle : s.cycle with
    | none =>
      rw [SweepSystem.step, hcycle] at hstep
      cases hstep
    | some p =>
      obtain ⟨i, st⟩ := p
      rw [SweepSystem.step, hcycle] at hstep
      dsimp only at hstep
      split_ifs at hstep
      cases hstep
      exact h.round hcycle (ha (i, st) hcycle)
  | finish =>
    cases hcycle : s.cycle with
    | none =>
      rw [SweepSystem.step, hcycle] at hstep
      cases hstep
    | some p =>
      obtain ⟨i, st⟩ := p
      rw [SweepSystem.step, hcycle] at hstep
      cases hstep
      refine ⟨h.valid, ?_⟩
      have htotal := h.total
      rw [SweepSystem.counted, hcycle] at htotal
      exact (UInt64.add_zero _).trans htotal

/-- In every run in which no round draws an expired entry twice, `TotalExpired` together with what
    the current cycle has counted is the number of entries that the sweeper has removed. In every
    state reached a further round, on any shard and with any sample size, removes expired entries
    only, and returns their number if and only if it draws none of them twice. -/
theorem sweeper_counts_reclaimed (w : Sweeper) (opts : Options) (newSeed : UInt64)
    (wheel : Option Wheel) {s : SweepSystem}
    (hrun : Run (SweepSystem.step w) (fun s a => a.Distinct w s)
      (.init { newStore opts newSeed with wheel := wheel }) s) :
    (s.cycle = none → s.totalSwept = UInt64.ofNat s.reclaimed) ∧
      (∀ i st, s.cycle = some (i, st) →
        s.totalSwept + UInt64.ofNat st.expired = UInt64.ofNat s.reclaimed) ∧
      ∀ i now sample, ∃ ks,
        Reclaims now (s.store.shards i) ks ((s.store.shards i).sweepLocked now sample).2 ∧
        (((s.store.shards i).sweepLocked now sample).1.2 = ks.length ↔
          ((s.store.shards i).victims now sample).Nodup) := by
  have hexact : s.Exact := by
    refine hrun.invariant (fun s a t hs ha ht => hs.step ha ht) ?_
    exact ⟨newStore_valid opts newSeed wheel, rfl⟩
  have htotal := hexact.total
  refine ⟨fun hcycle => ?_, fun i st hcycle => ?_, fun i now sample => ?_⟩
  · rw [SweepSystem.counted, hcycle] at htotal
    exact (UInt64.add_zero _).symm.trans htotal
  · rw [SweepSystem.counted, hcycle] at htotal
    exact htotal
  · exact sweepLocked_count_iff (hexact.valid.inv i).toIndexInv now sample

/-- The defaults of `NewSweeper` (lines 67–74): 20 samples and a quarter of them. -/
def defaultSweeper : Sweeper := ⟨20, fun expired sampled => 4 * expired ≤ sampled⟩

/-- A cycle over one key, which has expired. -/
theorem sweeper_counts_reclaimed_one :
    ∃ s : SweepSystem,
      Run (SweepSystem.step defaultSweeper) (fun s a => a.Distinct defaultSweeper s)
        (.init (newStore oneShard 1)) s ∧
      s.cycle = none ∧ s.reclaimed = 1 ∧ s.totalSwept = 1 := by
  have hset : (StoreAction.set [1] [2] 5 0).Fits (newStore oneShard 1) := ⟨by decide, by decide⟩
  have hrun : Run (SweepSystem.step defaultSweeper) (fun s a => a.Distinct defaultSweeper s)
      (.init (newStore oneShard 1)) _ :=
    (((Run.refl.tail (.call (.op (.set [1] [2] 5 0))) hset rfl).tail .start trivial rfl).tail
      (.round 7) (fun p hp => by cases hp; decide) rfl).tail .finish trivial rfl
  exact ⟨_, hrun, rfl, by decide,
    (sweeper_counts_reclaimed defaultSweeper oneShard 1 none hrun).1 rfl⟩

/-- A cycle over two keys, which have expired. The first round draws the second of them twice. -/
theorem sweeper_counts_twice :
    ∃ s, Run (SweepSystem.step defaultSweeper) Always (.init (newStore oneShard 1)) s ∧
      s.cycle.isNone ∧ s.totalSwept = 2 ∧ s.reclaimed = 1 := by
  exact Run.exists_of_exec (SweepSystem.step defaultSweeper) (.init (newStore oneShard 1))
    [.call (.op (.set [1] [2] 5 0)), .call (.op (.set [3] [4] 5 0)), .start, .round 7, .finish]
    (fun s => s.cycle.isNone ∧ s.totalSwept = 2 ∧ s.reclaimed = 1) (by decide +kernel)

end

end KvStore
