import KvStore.Engine.LogOrder
import KvStore.Engine.Recovery
import KvStore.Store.Purge

/-!
# Recovery at a later time

A restart at time `T` replays the log through the store, whose `Expire` consults the
clock: an EXPIRE record finds the entry dead that was alive when the record was
written, if its deadline at that point lies before `T`.

The reading of the log at `T` (`lateReading`) asks that the log and memory show the same
to a reader at `T`. An `Expire` keeps that unless it takes a deadline from before `T` to
after it. In runs without such an `Expire` (`EngineAction.Timely`) recovery at `T` gives
exactly what the store would serve at `T`, whatever else happened before.

* `late_recovery_exact`: timely runs.
* `late_recovery_drops_extended_key`: a run that is not.
-/

namespace KvStore

open KvStore.Common

variable {e e' : Engine} {i : ℕ} {ks : List Bytes} {T : UInt64}

theorem effectAt_expire_of_dead {r : Record} {o : Option (Bytes × UInt64)} (hr : r.type = .expire)
    (ho : liveAt T o = none) : Record.effectAt T r o = none := by
  simp only [Record.effectAt, hr]
  split_ifs with hdead
  · rfl
  · rw [liveAt_of_not_dead hdead] at ho
    rw [ho]
    rfl

/-- The replay of an EXPIRE that does not take a deadline from before `T` to after it. -/
theorem liveAt_effectAt_expire {r : Record} {l c : Option (Bytes × UInt64)} (hr : r.type = .expire)
    (h : liveAt T l = liveAt T c)
    (hext : ∀ d, c = some d → expiredAt d.2 T = true → expiredAt r.expireAtMs T = true) :
    liveAt T (Record.effectAt T r l) = liveAt T (c.map fun d => (d.1, r.expireAtMs)) := by
  rcases c with _ | d
  · rw [effectAt_expire_of_dead hr h]
    rfl
  · by_cases hd : expiredAt d.2 T = true
    · rw [liveAt_some, if_pos hd] at h
      rw [effectAt_expire_of_dead hr h, Option.map_some, liveAt_some, if_pos (hext d rfl hd)]
      rfl
    · rw [liveAt_some, if_neg hd] at h
      obtain ⟨rfl, hl⟩ := liveAt_eq_some.mp h
      simp only [Record.effectAt, hr, deadAt_some, hl]
      rfl

/-- Records are replayed at `T`, and a reader at `T` sees the same in both; keys with an
    event pending are absent from memory. -/
def lateReading (T : UInt64) : Reading where
  effect := Record.effectAt T
  Rel p l c := (p → c = none) ∧ liveAt T l = liveAt T c
  absent h := h.1 trivial
  none_none _ := ⟨fun _ => rfl, rfl⟩
  effect_delete _ ht := by simp [Record.effectAt, ht]
  effect_none {r} ht := by
    cases hr : r.type with
    | set => exact absurd hr ht
    | delete => simp [Record.effectAt, hr]
    | expire => exact effectAt_expire_of_dead hr rfl
    | segmentHdr => simp [Record.effectAt, hr]
  effect_stamp _ _ _ := rfl

/-- The condition on a step, for a restart at `T`: it is orderly, it happens before `T`, and
    an `Expire` of a visible entry that will be dead at `T` gives it a deadline that will
    have passed at `T`, too. -/
def EngineAction.Timely (T : UInt64) (e : Engine) (a : EngineAction) : Prop :=
  a.Orderly e ∧ match a with
    | .expire key ttl nowMs nowMs' => nowMs' ≤ T ∧
      ∀ d, liveAt nowMs' (e.store.contents key) = some d → expiredAt d.2 T = true →
        expiredAt (Engine.deadline ttl nowMs) T = true
    | .reap _ nowMs => nowMs ≤ T
    | .sweep _ nowMs _ => nowMs ≤ T
    | .purge _ nowMs => nowMs ≤ T
    | .wheel _ _ nowMs => nowMs ≤ T
    | _ => True

/-- The invariant of timely runs without a memory limit. -/
structure Engine.Late (T : UInt64) (e : Engine) : Prop extends Flow e where
  unlimited : ∀ i, (e.store.shards i).budget ≤ 0
  lsn : 0 < e.log.nextLSN ∧ ∀ r ∈ e.log.records, 0 < r.lsn
  follows : e.Follows (lateReading T)

/-! ## The steps keep the invariant -/

/-- Removing what is dead at `T`. -/
theorem Engine.Late.remove (h : e.Late T)
    (hs : ShardStep e e' i ks ((e.store.shards i).contents.deleteAll ks))
    (hks : ∀ k ∈ ks, deadAt T ((e.store.shards i).contents k) = true) : e'.Late T := by
  have hroute : ∀ k ∈ ks, e.store.shardFor k = i ∧ k.length ≤ maxKeyLen :=
    fun k hk => h.routed i k (isSome_of_deadAt (hks k hk))
  refine ⟨h.toFlow.shardStep hs hroute, fun j => by rw [hs.budget]; exact h.unlimited j,
    by rw [hs.log]; exact h.lsn, ?_⟩
  refine h.follows.remove hs (fun k hk => (hroute k hk).1) fun k hk => ⟨fun _ => rfl, ?_⟩
  rw [(h.follows k).2, Store.contents, (hroute k hk).1]
  exact liveAt_of_dead (hks k hk)

/-- A mutation that changes nothing but its own key. -/
theorem Engine.Late.mutate (h : e.Late T) {rec : Record} {m : Keyspace Bytes Bytes}
    (hs : ShardStep e e' i ks m) (hsub : rec.Submittable) (key : Bytes) (hrec : rec.key = key)
    (hroute : e.store.shardFor key = i) (hset : rec.type = .set → key ∉ e'.pendingKeys)
    (hks : ∀ k ∈ ks, k = key) (hother : ∀ k, k ≠ key → m k = (e.store.shards i).contents k)
    (habsent : key ∈ e'.pendingKeys → m key = none)
    (hkey : ∀ l, liveAt T l = liveAt T (e.store.contents key) →
      liveAt T (Record.effectAt T rec l) = liveAt T (m key)) : (e'.fly i rec).Late T := by
  subst hrec
  have hroutes : ∀ k ∈ ks, e.store.shardFor k = i ∧ k.length ≤ maxKeyLen :=
    fun k hk => by rw [hks k hk]; exact ⟨hroute, hsub.1⟩
  refine ⟨(h.toFlow.shardStep hs hroutes).fly (by rw [hs.shardFor]; exact hroute) hsub hset,
    fun j => (hs.budget j).trans_le (h.unlimited j), ?_, ?_⟩
  · show 0 < e'.log.nextLSN ∧ ∀ r ∈ e'.log.records, 0 < r.lsn
    rw [hs.log]
    exact h.lsn
  · refine h.follows.mutate hs hroute (fun k hk => (hroutes k hk).1) (fun k hki hk => ?_)
      ⟨habsent, hkey _ (h.follows rec.key).2⟩
    rw [hs.pending_iff fun hc => hk (hks k hc), hother k hk, ← hki]
    exact h.follows k

theorem Engine.Late.set (h : e.Late T) {key value : Bytes} {ttl nowMs nowMono : UInt64}
    (hok : (EngineAction.set key value ttl nowMs nowMono).Orderly e)
    (hstep : e.set key value ttl nowMs nowMono = some e') : e'.Late T := by
  obtain ⟨hpend, hkl, hvl, hcount⟩ := hok
  have hshard := h.shard (e.store.shardFor key)
  obtain ⟨hres, heff⟩ := setLocked_effect_unlimited hshard.toKeyInv
    (h.unlimited (e.store.shardFor key)) key value (Engine.deadline ttl nowMs) nowMono
  have heff : Effect _ _ (([] : List Bytes).map fun k => (k, EvictReason.evicted)) _ := heff
  have hinv := ShardInv.maintained.setLocked hshard key value (Engine.deadline ttl nowMs) nowMono
    (entryCost_lt_of_fits hkl hvl) hcount
  obtain ⟨e₁, hs, rfl⟩ := mutate_step h.toBase hstep key rfl rfl hinv heff hkl
    fun k hne hk => by rwa [Keyspace.set_of_ne _ hne] at hk
  have hpend₁ : key ∉ e₁.pendingKeys := fun hc => hpend ((hs.pending_iff List.not_mem_nil).mp hc)
  rw [if_pos hres]
  refine h.mutate hs ⟨hkl, hvl, by simp [Engine.record]⟩ key rfl rfl (fun _ => hpend₁) nofun
    (fun k hne => Keyspace.set_of_ne _ hne _ _) (fun hc => absurd hc hpend₁) fun l _ => ?_
  rw [Keyspace.set_self]
  rfl

theorem Engine.Late.delete (h : e.Late T) {key : Bytes} {nowMs : UInt64}
    (hok : key.length ≤ maxKeyLen) (hstep : e.delete key nowMs = some e') : e'.Late T := by
  have hshard := h.shard (e.store.shardFor key)
  have heff : Effect _ _ (([] : List Bytes).map fun k => (k, EvictReason.expired)) _ :=
    (txnDelete_effect hshard.toKeyInv key nowMs).2
  obtain ⟨e₁, hs, rfl⟩ := mutate_step h.toBase hstep key rfl rfl
    (ShardInv.maintained.txnDelete hshard key nowMs)
    heff hok fun k hne hk => by rwa [Keyspace.delete_of_ne _ hne] at hk
  refine h.mutate hs ⟨hok, Nat.zero_le _, by simp [Engine.record]⟩ key rfl rfl
    (fun ht => by cases ht) nofun (fun k hne => Keyspace.delete_of_ne _ hne)
    (fun _ => Keyspace.delete_self _ _) fun l _ => ?_
  rw [Keyspace.delete_self]
  rfl

/-- An entry that is dead at the time of the step is dropped by the replay as well. -/
theorem Engine.Late.expire (h : e.Late T) {key : Bytes} {ttl nowMs nowMs' : UInt64}
    (hok : (EngineAction.expire key ttl nowMs nowMs').Timely T e)
    (hstep : e.expire key ttl nowMs nowMs' = some e') : e'.Late T := by
  obtain ⟨hlen, hnow, hext⟩ := hok
  have hsub : (Engine.record .expire key [] (Engine.deadline ttl nowMs)).Submittable :=
    ⟨hlen, Nat.zero_le _, by simp [Engine.record]⟩
  have hcont : (e.store.shards (e.store.shardFor key)).contents key = e.store.contents key := rfl
  rcases expire_step h.toBase hlen hstep with ⟨e₁, rfl, ⟨hdead, hs⟩ | ⟨hdead, hs⟩⟩
  · refine h.mutate hs hsub key rfl rfl (fun ht => by cases ht)
      (fun k hk => List.mem_singleton.mp hk) (fun k hne => Keyspace.delete_of_ne _ hne)
      (fun _ => Keyspace.delete_self _ _) fun l hl => ?_
    rw [← hcont, liveAt_of_dead (deadAt_mono hnow hdead)] at hl
    rw [Keyspace.delete_self, effectAt_expire_of_dead rfl hl]
  · refine h.mutate hs hsub key rfl rfl (fun ht => by cases ht) (by simp)
      (fun k hne => Keyspace.expire_of_ne _ hne _) (fun hp => ?_) fun l hl => ?_
    · rw [Keyspace.expire_self, hcont, (h.follows key).1 ((hs.pending_iff List.not_mem_nil).mp hp)]
      rfl
    · rw [Keyspace.expire_self, hcont]
      refine liveAt_effectAt_expire rfl hl fun d hd hdT => hext d ?_ hdT
      rw [hcont] at hdead
      rw [liveAt_of_not_dead hdead, hd]

theorem Engine.Late.expired (h : e.Late T) {α : Type} {fn : Shard → α × Shard} {nowMs : UInt64}
    (hnow : nowMs ≤ T) (hstep : (e.onShard i fn).map Prod.snd = some e')
    (hfn : RemovesExpired nowMs (e.store.shards i) (fn (e.store.shards i)).2) : e'.Late T := by
  obtain ⟨ks, hs, hdead⟩ := onShard_expired h.toBase hstep hfn
  exact h.remove hs fun k hk => deadAt_mono hnow (hdead k hk)

theorem Engine.Late.evictToLimit (h : e.Late T)
    (hstep : e.step (.evictToLimit i) = some e') : e'.Late T := by
  have hnone : (e.store.shards i).evictToLimit = (0, e.store.shards i) :=
    if_pos (Or.inl (h.unlimited i))
  have hrefl : Removed .evicted (e.store.shards i) (e.store.shards i).evictToLimit.2 [] := by
    rw [hnone]; exact .refl _ _
  exact h.remove (onShard_removed h.toBase hstep hrefl (by rw [hnone]; exact h.shard i)) nofun

theorem Engine.step_late (h : e.Late T) {a : EngineAction} (ha : a.Timely T e)
    (hstep : e.step a = some e') : e'.Late T := by
  cases a with
  | set key value ttl nowMs nowMono => exact h.set ha.1 hstep
  | delete key nowMs => exact h.delete ha.1 hstep
  | expire key ttl nowMs nowMs' => exact h.expire ha hstep
  | submit i nowMs =>
    refine ⟨h.submit hstep, ?_, ?_, h.follows.submit h.toFlow hstep⟩
    all_goals obtain ⟨r, t, -, -, rfl⟩ := h.submit_eq hstep
    · exact h.unlimited
    · refine ⟨Nat.succ_pos _, fun x hx => ?_⟩
      rcases List.mem_append.mp hx with hx | hx
      · exact h.lsn.2 x hx
      · rw [List.mem_singleton.mp hx]; exact h.lsn.1
  | read key nowMs nowMono => exact h.remove (read_step h.toBase hstep) nofun
  | reap key nowMs => exact h.expired ha.2 hstep (reapLocked_removesExpired _ key nowMs)
  | sweep i nowMs sample => exact h.expired ha.2 hstep (sweepLocked_removesExpired _ nowMs sample)
  | purge i nowMs => exact h.expired ha.2 hstep (purgeLoop_removesExpired nowMs _ _ _ _)
  | wheel key timer nowMs => exact h.expired ha.2 hstep (wheelRemove_removesExpired _ _ _ _)
  | evictToLimit i => exact h.evictToLimit hstep
  | drainTake =>
    refine ⟨h.drainTake hstep, ?_, ?_, h.follows.drainTake hstep⟩
    all_goals obtain ⟨q, d, rfl, -⟩ := drainTake_eq hstep
    · exact h.unlimited
    · exact h.lsn
  | logEvict nowMs =>
    refine ⟨h.logEvict hstep, ?_, ?_, h.follows.logEvict h.toFlow hstep⟩
    all_goals obtain ⟨ev, t, -, rfl⟩ := h.logEvict_eq hstep
    · exact h.unlimited
    · refine ⟨Nat.succ_pos _, fun x hx => ?_⟩
      rcases List.mem_append.mp hx with hx | hx
      · exact h.lsn.2 x hx
      · rw [List.mem_singleton.mp hx]; exact h.lsn.1

theorem newEngine_late (o : Options) (newSeed : UInt64) (hmem : o.maxMemory ≤ 0) (T : UInt64) :
    (newEngine o newSeed).Late T where
  toFlow := newEngine_flow o newSeed
  unlimited := (newStore_plain o newSeed hmem).unlimited
  lsn := ⟨Nat.zero_lt_one, nofun⟩
  follows k := ⟨nofun, congrArg (liveAt T) (newStore_contents o newSeed k).symm⟩

/-! ## Replay and purge -/

/-- No SET of the replay leaves `2^31` entries or more in a shard. -/
def Store.ReplayFits (nowMs nowMono : UInt64) : Store → List Record → Prop
  | _, [] => True
  | s, r :: rs =>
    (r.type = .set → ((s.shards (s.shardFor r.key)).setLocked r.key r.value r.expireAtMs
      nowMono).2.entries.keys.length < 2 ^ 31) ∧
    ∀ s' ∈ s.applyRecord nowMs nowMono r, Store.ReplayFits nowMs nowMono s' rs

instance Store.decidableReplayFits (nowMs nowMono : UInt64) :
    ∀ (s : Store) (rs : List Record), Decidable (s.ReplayFits nowMs nowMono rs)
  | _, [] => isTrue trivial
  | _, _ :: rs =>
    have : ∀ s' : Store, Decidable (s'.ReplayFits nowMs nowMono rs) := fun s' =>
      decidableReplayFits nowMs nowMono s' rs
    inferInstanceAs (Decidable (_ ∧ _))

theorem Store.Plain.applyRecord {s s' : Store} (h : s.Plain) {nowMs nowMono : UInt64} {r : Record}
    (hfits : r.type = .set → ((s.shards (s.shardFor r.key)).setLocked r.key r.value r.expireAtMs
      nowMono).2.entries.keys.length < 2 ^ 31)
    (hs : s.applyRecord nowMs nowMono r = some s') : s'.Plain := by
  unfold Store.applyRecord at hs
  cases hr : r.type with
  | set =>
    simp only [hr] at hs
    split_ifs at hs
    cases hs
    exact h.set r.key r.value r.expireAtMs nowMono (hfits hr)
  | delete =>
    simp only [hr] at hs
    cases hs
    exact h.delete r.key nowMs
  | expire =>
    simp only [hr] at hs
    cases hs
    exact h.expire r.key r.expireAtMs nowMs
  | segmentHdr =>
    simp only [hr] at hs
    cases hs
    exact h

theorem Store.Plain.replay {nowMs nowMono : UInt64} :
    ∀ {rs : List Record} {s s' : Store}, s.Plain → s.ReplayFits nowMs nowMono rs →
      rs.foldlM (Store.applyRecord nowMs nowMono) s = some s' → s'.Plain := by
  intro rs
  induction rs with
  | nil => intro s s' h _ hs; cases hs; exact h
  | cons r rs ih =>
    intro s s' h hfits hs
    rw [List.foldlM_cons] at hs
    obtain ⟨s₁, h₁, hs⟩ := Option.bind_eq_some_iff.mp hs
    exact ih (h.applyRecord hfits.1 h₁) (hfits.2 s₁ h₁) hs

/-- In a timely run, a restart at `T` has what the store would serve at `T`: the same keys,
    values and deadlines. -/
theorem late_recovery_exact (o o' : Options) (newSeed newSeed' T nowMono : UInt64)
    (hmem : o.maxMemory ≤ 0) (hmem' : o'.maxMemory ≤ 0)
    (h : Run Engine.step (EngineAction.Timely T) (newEngine o newSeed) e)
    (hidle : ∀ i, e.inflight i = none)
    (hfits : (newStore o' newSeed').ReplayFits T nowMono e.log.records) :
    ∃ s, (newStore o' newSeed').recover T nowMono [] 0 e.log.records = some s ∧
      ∀ k, (s.purgeExpired T).2.contents k = liveAt T (e.store.contents k) := by
  have hlate : e.Late T :=
    h.invariant (fun _ _ _ hi ha hs => Engine.step_late hi ha hs) (newEngine_late o newSeed hmem T)
  have hplain := newStore_plain o' newSeed' hmem'
  have hall : (e.log.records.filter fun r => 0 < r.lsn) = e.log.records :=
    List.filter_eq_self.mpr fun r hr => decide_eq_true (hlate.lsn.2 r hr)
  obtain ⟨s, hrec, -, hcont⟩ := hplain.keyed.recover T nowMono [] 0 e.log.records
  rw [hall] at hcont
  refine ⟨s, hrec, fun k => ?_⟩
  have hs : s.Plain := by
    rw [Store.recover, hall] at hrec
    exact hplain.replay hfits hrec
  rw [hs.purgeExpired_contents, hcont, ← (hlate.follows k).2, logged_of_idle hidle]
  congr 1
  exact foldl_applyWith_congr (newStore_contents o' newSeed' k)

/-- A deadline is moved within the time before the restart, and another one after it. -/
theorem late_recovery_exact_moved :
    ∃ e s, exec Engine.step (newEngine oneShard 1)
        [.set [1] [2] 5 0 0, .submit 0 0, .expire [1] 8 1 1, .submit 0 1, .set [3] [4] 50 2 2,
          .submit 0 2, .expire [3] 0 3 3, .submit 0 3] = some e ∧
      (newStore oneShard 1).recover 20 0 [] 0 e.log.records = some s ∧
      ∀ k, (s.purgeExpired 20).2.contents k = liveAt 20 (e.store.contents k) := by
  have hlen : ∀ b : UInt8, [b].length ≤ maxKeyLen := fun _ => by simp [maxKeyLen]
  obtain ⟨s, h1, h2⟩ := late_recovery_exact oneShard oneShard 1 1 20 0 (by decide) (by decide)
    ((((((((Run.refl.tail (.set [1] [2] 5 0 0) ⟨⟨by decide, by decide, by decide, by decide⟩, trivial⟩
      rfl).tail (.submit 0 0) ⟨trivial, trivial⟩ rfl).tail (.expire [1] 8 1 1)
      ⟨hlen 1, by decide, fun d hd _ => by decide⟩ rfl).tail (.submit 0 1) ⟨trivial, trivial⟩
      rfl).tail (.set [3] [4] 50 2 2) ⟨⟨by decide, by decide, by decide, by decide⟩, trivial⟩ rfl).tail
      (.submit 0 2) ⟨trivial, trivial⟩ rfl).tail (.expire [3] 0 3 3)
      ⟨hlen 3, by decide, fun d hd hx => by cases hd; exact absurd hx (by decide)⟩ rfl).tail
      (.submit 0 3) ⟨trivial, trivial⟩ rfl)
    (fun i => by cases i <;> rfl) (by decide)
  exact ⟨_, s, rfl, h1, h2⟩

/-- A lifetime of 5 ms is extended to 101 ms after 1 ms. A restart at 10 ms drops the key. -/
theorem late_recovery_drops_extended_key :
    ∃ e s, exec Engine.step (newEngine oneShard 1)
        [.set [1] [2] 5 0 0, .submit 0 0, .expire [1] 100 1 1, .submit 0 1] = some e ∧
      (∀ i, e.inflight i = none) ∧ e.pendingKeys = [] ∧
      liveAt 10 (e.store.contents [1]) = some ([2], 101) ∧
      (newStore oneShard 1).recover 10 10 [] 0 e.log.records = some s ∧
      (s.purgeExpired 10).2.contents [1] = none := by
  refine ⟨_, _, rfl, fun i => by cases i <;> rfl, rfl, by decide, rfl, by decide⟩

end KvStore
