import KvStore.Engine.DataDir
import KvStore.Engine.FailedWrite
import KvStore.Store.Held

/-!
# Recovery under another hash seed

A memory limit is divided among the shards, and the seed decides which keys share a shard. An
engine that starts with another seed replays the log of the first one into shards with the same
budgets and other keys in them.

* `recovery_other_seed`: the replay succeeds, if and only if at each `Set` the shard to which the
  other seed leads the key has room for it beside the other keys that it is led.
* `recovery_other_seed_fails`: two keys that are in two shards under one seed and in one shard under
  the other.
-/

namespace KvStore

open KvStore.Common

/-! ## Calls without deadlines -/

/-- A call of `Set` without a lifetime or of `Delete`, with the clock readings it makes. -/
inductive Write
  | set (key value : Bytes) (nowMs nowMono nowMs' : UInt64)
  | delete (key : Bytes) (nowMs nowMs' : UInt64)

namespace Engine

/-- `Delete` (lines 71–84 and 122–163), as `setCall`. -/
def deleteCall (e : Engine) (key : Bytes) (nowMs nowMs' : UInt64) (committed : Bool) :
    Option (Option SetError × Engine) :=
  if e.closed then some (some .closed, e)
  else if e.readOnly then some (some .readOnly, e)
  else
    (e.delete key nowMs).bind fun e₁ =>
      (e₁.submit (e.store.shardFor key) nowMs').map fun e₂ =>
        (match e₁.log.submitError (record .delete key [] 0) with
          | some err => some (.submit err)
          | none => if committed then none else some .commit, e₂)

/-- The engine after a call that is acknowledged. -/
def acknowledge (e : Engine) (w : Write) : Option Engine :=
  (match w with
    | .set key value nowMs nowMono nowMs' => e.setCall key value 0 nowMs nowMono nowMs' true
    | .delete key nowMs nowMs' => e.deleteCall key nowMs nowMs' true).bind fun r =>
      if r.1 = none then some r.2 else none

end Engine

/-- The record of a call. -/
def Write.record : Write → Record
  | .set key value _ _ _ => Engine.record .set key value 0
  | .delete key _ _ => Engine.record .delete key [] 0

/-- The record as `Submit` queues it. -/
def Write.logged (w : Write) (lsn : ℕ) : Record :=
  { w.record with
    lsn := lsn
    createdAtMs := match w with
      | .set _ _ _ _ nowMs' => nowMs'
      | .delete _ _ nowMs' => nowMs' }

/-- What a call does under the lock of its shard. -/
def Write.apply : Write → Shard → Bool × Shard
  | .set key value _ nowMono _, sh => sh.setLocked key value 0 nowMono
  | .delete key nowMs _, sh => (true, (sh.txnDelete key nowMs).2)

/-- What is held after a record. -/
def Record.hold (m : AList fun _ : Bytes => Bytes) (r : Record) : AList fun _ : Bytes => Bytes :=
  match r.type with
  | .set => m.insert r.key r.value
  | .delete => m.erase r.key
  | _ => m

/-- The keys and values that records without deadlines describe. -/
def heldBy (rs : List Record) : AList fun _ : Bytes => Bytes := rs.foldl Record.hold ∅

/-- There is room for each SET of the records, from `m` on, in the shard that `route` leads its key
    to. -/
def Roomy (route : Bytes → ℕ) (budget : ℤ) : (AList fun _ : Bytes => Bytes) → List Record → Prop
  | _, [] => True
  | m, r :: rs => (r.type = .set → Admissible route budget m r.key r.value) ∧
      Roomy route budget (r.hold m) rs

/-- The budget that `New` gives to each shard (store.go lines 171–177); the seed has no part in
    it. -/
def Options.budget (o : Options) : ℤ :=
  if o.maxMemory > 0 then max 1 (o.maxMemory.tdiv (o.withDefaults 0).shards) else 0

theorem newStore_budget (o : Options) (seed newSeed : UInt64) (i : ℕ) :
    ((newStore { o with seed := seed } newSeed).shards i).budget = o.budget := by
  unfold newStore Options.budget
  dsimp only
  rw [withDefaults_maxMemory, withDefaults_shards, withDefaults_shards]
  split_ifs <;> rfl

/-! ## An acknowledged call -/

variable {e e' : Engine} {i : ℕ}

/-- The engine between two calls: no record is on its way, and the store holds what the log
    describes. -/
structure Engine.Resting (e : Engine) : Prop where
  idle : ∀ i, e.inflight i = none
  lsn : 0 < e.log.nextLSN ∧ ∀ r ∈ e.log.records, 0 < r.lsn
  writes : ∀ r ∈ e.log.records, ∃ (w : Write) (lsn : ℕ), r = w.logged lsn ∧ w.record.Submittable
  holds : e.store.Holds (heldBy e.log.records)

theorem submitError_eq_none {w : Log} {r : Record} (h : w.submitError r = none) :
    w.closed = false ∧ w.fatal = false ∧ r.Submittable := by
  unfold Log.submitError at h
  split_ifs at h with h1 h2 h3 h4 h5
  exact ⟨by simpa using h1, by simpa using h2, by omega, by omega, h5⟩

/-- A mutation that leaves a record to submit. -/
theorem mutate_flying {r rec : Record} {apply : Shard → Bool × Shard}
    (hidle : e.inflight (e.store.shardFor r.key) = none) (h : e.mutate r apply = some e')
    (hfly : e'.inflight (e.store.shardFor r.key) = some rec) :
    rec = r ∧ (apply (e.store.shards (e.store.shardFor r.key))).1 = true ∧ ∃ q d, e' = { e with
      store := e.store.put (e.store.shardFor r.key)
        { (apply (e.store.shards (e.store.shardFor r.key))).2 with onEvict := [] }
      evictQ := q
      evictDrops := d
      inflight := Function.update e.inflight (e.store.shardFor r.key) (some r) } := by
  unfold Engine.mutate at h
  split_ifs at h
  obtain ⟨⟨ok, e''⟩, hshard, rfl⟩ := Option.map_eq_some_iff.mp h
  obtain ⟨-, rfl, q, d, rfl⟩ := onShard_eq hshard
  dsimp only at hfly ⊢
  split_ifs at hfly ⊢ with hok
  · have hrec : Function.update e.inflight (e.store.shardFor r.key) (some r)
        (e.store.shardFor r.key) = some rec := hfly
    rw [Function.update_self] at hrec
    exact ⟨(Option.some.inj hrec).symm, hok, q, d, rfl⟩
  · rw [hidle] at hfly
    cases hfly

/-- The log takes the record of a call. -/
theorem submit_logged {w : Write} {log : Log} (hopen : log.closed = false ∧ log.fatal = false)
    (hsub : w.record.Submittable) :
    log.submit w.record (w.logged 0).createdAtMs = some (log.nextLSN, { log with
      nextLSN := log.nextLSN + 1
      records := log.records ++ [w.logged log.nextLSN] }) := by
  unfold Log.submit
  rw [if_neg (by simp [hopen.1, hopen.2]), if_neg (not_not.mpr hsub)]
  cases w <;> rfl

/-- The two halves of a call that is acknowledged. -/
theorem acknowledge_steps {w : Write} (h : e.acknowledge w = some e') :
    ∃ e₁ rec, e.mutate w.record w.apply = some e₁ ∧
      e₁.inflight (e.store.shardFor w.record.key) = some rec ∧
      e₁.log.submitError rec = none ∧
      e₁.submit (e.store.shardFor w.record.key) (w.logged 0).createdAtMs = some e' := by
  obtain ⟨⟨res, e₂⟩, hcall, hres⟩ := Option.bind_eq_some_iff.mp h
  split_ifs at hres with hnone
  cases hres
  dsimp only at hnone
  subst hnone
  cases w with
  | set key value nowMs nowMono nowMs' =>
    dsimp only at hcall
    rw [Engine.setCall] at hcall
    by_cases hclosed : e.closed = true
    · rw [if_pos hclosed] at hcall
      cases hcall
    by_cases hro : e.readOnly = true
    · rw [if_neg hclosed, if_pos hro] at hcall
      cases hcall
    rw [if_neg hclosed, if_neg hro] at hcall
    obtain ⟨e₁, hset, hrest⟩ := Option.bind_eq_some_iff.mp hcall
    split at hrest
    · cases hrest
    · rename_i rec hfly
      obtain ⟨e₂, hsubmit, hpair⟩ := Option.map_eq_some_iff.mp hrest
      obtain ⟨herr, rfl⟩ := Prod.mk.inj hpair
      refine ⟨e₁, rec, ?_, hfly, ?_, hsubmit⟩
      · have hzero : Engine.deadline 0 nowMs = 0 := if_pos rfl
        rw [Engine.set, hzero] at hset
        exact hset
      · split at herr
        · cases herr
        · assumption
  | delete key nowMs nowMs' =>
    dsimp only at hcall
    rw [Engine.deleteCall] at hcall
    by_cases hclosed : e.closed = true
    · rw [if_pos hclosed] at hcall
      cases hcall
    by_cases hro : e.readOnly = true
    · rw [if_neg hclosed, if_pos hro] at hcall
      cases hcall
    rw [if_neg hclosed, if_neg hro] at hcall
    obtain ⟨e₁, hdelete, hrest⟩ := Option.bind_eq_some_iff.mp hcall
    obtain ⟨e₂, hsubmit, hpair⟩ := Option.map_eq_some_iff.mp hrest
    obtain ⟨herr, rfl⟩ := Prod.mk.inj hpair
    refine ⟨e₁, Engine.record .delete key [] 0, hdelete, ?_, ?_, hsubmit⟩
    · rw [mutate_inflight hdelete rfl]
      exact Function.update_self ..
    · split at herr
      · cases herr
      · assumption

/-- A call that is acknowledged was applied to the shard of its key, and its record is in the
    log. -/
theorem acknowledge_eq (hidle : ∀ i, e.inflight i = none) {w : Write}
    (h : e.acknowledge w = some e') :
    w.record.Submittable ∧
      (w.apply (e.store.shards (e.store.shardFor w.record.key))).1 = true ∧ ∃ q d, e' = { e with
        store := e.store.put (e.store.shardFor w.record.key)
          { (w.apply (e.store.shards (e.store.shardFor w.record.key))).2 with onEvict := [] }
        evictQ := q
        evictDrops := d
        log := { e.log with
          nextLSN := e.log.nextLSN + 1
          records := e.log.records ++ [w.logged e.log.nextLSN] } } := by
  obtain ⟨e₁, rec, hmutate, hfly, herr, hsubmit⟩ := acknowledge_steps h
  obtain ⟨rfl, hok, q, d, rfl⟩ := mutate_flying (hidle _) hmutate hfly
  obtain ⟨hclosed, hfatal, hsub⟩ := submitError_eq_none herr
  refine ⟨hsub, hok, q, d, ?_⟩
  have hfree : Function.update (Function.update e.inflight (e.store.shardFor w.record.key)
      (some w.record)) (e.store.shardFor w.record.key) none = e.inflight := by
    rw [Function.update_idem, Function.update_eq_self_iff]
    exact (hidle _).symm
  rw [Engine.submit, hfly, Option.map_some] at hsubmit
  dsimp only at hsubmit
  rw [submit_logged ⟨hclosed, hfatal⟩ hsub, hfree] at hsubmit
  exact (Option.some.inj hsubmit).symm

/-- A mutation of an engine that takes writes. -/
theorem mutate_of_idle {r : Record} {apply : Shard → Bool × Shard}
    (hopen : e.closed = false ∧ e.readOnly = false)
    (hidle : e.inflight (e.store.shardFor r.key) = none)
    (hok : (apply (e.store.shards (e.store.shardFor r.key))).1 = true) :
    ∃ e₁, e.mutate r apply = some e₁ ∧ e₁.log = e.log ∧
      e₁.inflight (e.store.shardFor r.key) = some r := by
  obtain ⟨e₁, hmutate⟩ : ∃ e₁, e.mutate r apply = some e₁ := by
    unfold Engine.mutate Engine.onShard
    rw [if_neg (by simp [hopen]), hidle]
    exact ⟨_, rfl⟩
  refine ⟨e₁, hmutate, (mutate_frame hmutate).1, ?_⟩
  rw [mutate_inflight hmutate hok]
  exact Function.update_self ..

/-- An engine that takes writes acknowledges what its shard admits and its log takes. -/
theorem acknowledge_of_admitted (hopen : e.closed = false ∧ e.readOnly = false)
    (hlog : e.log.closed = false ∧ e.log.fatal = false) (hidle : ∀ i, e.inflight i = none)
    {w : Write} (hsub : w.record.Submittable)
    (hok : (w.apply (e.store.shards (e.store.shardFor w.record.key))).1 = true) :
    ∃ e', e.acknowledge w = some e' := by
  obtain ⟨e₁, hmutate, hlog₁, hfly⟩ := mutate_of_idle hopen (hidle _) hok
  have herr : e₁.log.submitError w.record = none := by
    rw [hlog₁, Log.submitError, if_neg (by simp [hlog]), if_neg (by simp [hlog]),
      if_neg (by have := hsub.1; omega), if_neg (by have := hsub.2.1; omega), if_neg hsub.2.2]
  have hsubmit : ∀ nowMs', ∃ e₂, e₁.submit (e.store.shardFor w.record.key) nowMs' = some e₂ := by
    intro nowMs'
    rw [Engine.submit, hfly]
    exact ⟨_, rfl⟩
  cases w with
  | set key value nowMs nowMono nowMs' =>
    obtain ⟨e₂, hsubmit⟩ := hsubmit nowMs'
    have hset : e.set key value 0 nowMs nowMono = some e₁ := by
      have hzero : Engine.deadline 0 nowMs = 0 := if_pos rfl
      rw [Engine.set, hzero]
      exact hmutate
    have hcall : e.setCall key value 0 nowMs nowMono nowMs' true = some (none, e₂) := by
      rw [Engine.setCall, if_neg (by simp [hopen]), if_neg (by simp [hopen]), hset,
        Option.bind_some]
      replace hfly : e₁.inflight (e.store.shardFor key) = _ := hfly
      replace hsubmit : e₁.submit (e.store.shardFor key) nowMs' = _ := hsubmit
      rw [hfly]
      dsimp only
      rw [herr, hsubmit]
      rfl
    exact ⟨e₂, by rw [Engine.acknowledge, hcall]; rfl⟩
  | delete key nowMs nowMs' =>
    obtain ⟨e₂, hsubmit⟩ := hsubmit nowMs'
    have hdelete : e.delete key nowMs = some e₁ := hmutate
    have hcall : e.deleteCall key nowMs nowMs' true = some (none, e₂) := by
      rw [Engine.deleteCall, if_neg (by simp [hopen]), if_neg (by simp [hopen]), hdelete,
        Option.bind_some]
      replace herr : e₁.log.submitError (Engine.record .delete key [] 0) = none := herr
      replace hsubmit : e₁.submit (e.store.shardFor key) nowMs' = _ := hsubmit
      rw [herr, hsubmit]
      rfl
    exact ⟨e₂, by rw [Engine.acknowledge, hcall]; rfl⟩

theorem heldBy_append (rs : List Record) (r : Record) :
    heldBy (rs ++ [r]) = r.hold (heldBy rs) := by
  rw [heldBy, List.foldl_append]
  rfl

/-- The store holds what the call leaves. -/
theorem Store.Holds.apply {s : Store} {m : AList fun _ : Bytes => Bytes} (h : s.Holds m) {w : Write}
    (hsub : w.record.Submittable)
    (hok : (w.apply (s.shards (s.shardFor w.record.key))).1 = true) :
    (s.put (s.shardFor w.record.key)
      { (w.apply (s.shards (s.shardFor w.record.key))).2 with onEvict := [] }).Holds
        (w.record.hold m) := by
  cases w with
  | set key value nowMs nowMono nowMs' =>
    exact h.insert (((h _).setLocked (entryCost_lt_of_fits hsub.1 hsub.2.1) hok).of_onEvict [])
  | delete key nowMs nowMs' => exact h.erase (((h _).txnDelete key nowMs).of_onEvict [])

theorem Engine.Resting.acknowledge (h : e.Resting) {w : Write} (hack : e.acknowledge w = some e') :
    e'.Resting := by
  obtain ⟨hsub, hok, q, d, rfl⟩ := acknowledge_eq h.idle hack
  refine ⟨h.idle, ⟨Nat.succ_pos _, fun r hr => ?_⟩, fun r hr => ?_, ?_⟩
  · rcases List.mem_append.mp hr with hr | hr
    · exact h.lsn.2 r hr
    · rw [List.mem_singleton.mp hr]
      exact h.lsn.1
  · rcases List.mem_append.mp hr with hr | hr
    · exact h.writes r hr
    · exact ⟨w, e.log.nextLSN, List.mem_singleton.mp hr, hsub⟩
  · dsimp only
    rw [heldBy_append]
    exact h.holds.apply hsub hok

theorem newEngine_resting {o : Options} (hpolicy : o.policy = .noEviction) (newSeed : UInt64) :
    (newEngine o newSeed).Resting :=
  ⟨fun _ => rfl, ⟨Nat.zero_lt_one, nofun⟩, nofun, newStore_holds o newSeed hpolicy⟩

/-! ## Replaying a call -/

/-- Every shard has this budget. -/
def Store.Budgeted (budget : ℤ) (s : Store) : Prop := ∀ i, (s.shards i).budget = budget

section Replay

variable {s : Store} {m : AList fun _ : Bytes => Bytes} {budget : ℤ} {nowMs nowMono : UInt64}

theorem Store.Budgeted.put (h : s.Budgeted budget) {i : ℕ} {sh : Shard}
    {ev : List (Bytes × EvictReason)} {c : Keyspace Bytes Bytes}
    (heff : Effect (s.shards i) sh ev c) : (s.put i sh).Budgeted budget := by
  intro j
  rw [shards_put]
  split_ifs
  · exact heff.budget.trans (h i)
  · exact h j

/-- The record of a call is replayed, if there is room for it. -/
theorem Store.Holds.replay (h : s.Holds m) (hbudget : s.Budgeted budget) {w : Write}
    (hsub : w.record.Submittable)
    (hroom : w.record.type = .set →
      Admissible s.shardFor budget m w.record.key w.record.value) (lsn : ℕ) :
    ∃ s', s.applyRecord nowMs nowMono (w.logged lsn) = some s' ∧
      s'.Holds (w.record.hold m) ∧ s'.Budgeted budget ∧ s'.shardFor = s.shardFor := by
  cases w with
  | set key value _ _ _ =>
    have hcost : entryCost key.length value.length < 2 ^ 32 :=
      entryCost_lt_of_fits hsub.1 hsub.2.1
    have hfit : ((s.shards (s.shardFor key)).setLocked key value 0 nowMono).1 = true :=
      (h.admits_iff key value 0 nowMono).mpr (by rw [hbudget]; exact hroom rfl)
    obtain ⟨hset, hholds⟩ := h.set hcost hfit
    obtain ⟨ks, -, -, heff⟩ := setLocked_effect (h (s.shardFor key)).toKeyInv key value 0 nowMono
    refine ⟨_, ?_, hholds, hbudget.put heff, rfl⟩
    rw [applyRecord_set rfl]
    show (if (s.set key value 0 nowMono).1 then some (s.set key value 0 nowMono).2 else none) = _
    rw [hset]
    rfl
  | delete key _ _ =>
    exact ⟨_, rfl, h.delete key nowMs,
      hbudget.put (txnDelete_effect (h (s.shardFor key)).toKeyInv key nowMs).2, rfl⟩

/-- The record of a `Set` without room is refused. -/
theorem Store.Holds.replay_refused (h : s.Holds m) (hbudget : s.Budgeted budget) {r : Record}
    (hset : r.type = .set) (hroom : ¬ Admissible s.shardFor budget m r.key r.value) :
    s.applyRecord nowMs nowMono r = none := by
  have hrefused : ((s.shards (s.shardFor r.key)).setLocked r.key r.value r.expireAtMs nowMono).1 =
      false := by
    rw [← Bool.not_eq_true, h.admits_iff, hbudget]
    exact hroom
  rw [applyRecord_set hset]
  show (if (s.set r.key r.value r.expireAtMs nowMono).1 then
    some (s.set r.key r.value r.expireAtMs nowMono).2 else none) = none
  rw [set_eq, hrefused]
  rfl

/-- A log of such calls is replayed iff there is room for each SET. -/
theorem Store.Holds.replay_log (h : s.Holds m) (hbudget : s.Budgeted budget) (nowMs nowMono : UInt64)
    {rs : List Record}
    (hrs : ∀ r ∈ rs, ∃ (w : Write) (lsn : ℕ), r = w.logged lsn ∧ w.record.Submittable) :
    (Roomy s.shardFor budget m rs → ∃ s', rs.foldlM (Store.applyRecord nowMs nowMono) s = some s' ∧
      s'.Holds (rs.foldl Record.hold m)) ∧
    (¬ Roomy s.shardFor budget m rs → rs.foldlM (Store.applyRecord nowMs nowMono) s = none) := by
  induction rs generalizing s m with
  | nil => exact ⟨fun _ => ⟨s, rfl, h⟩, fun hnot => absurd trivial hnot⟩
  | cons r rs ih =>
    obtain ⟨⟨w, lsn, rfl, hsub⟩, hrest⟩ := List.forall_mem_cons.mp hrs
    rw [List.foldlM_cons, List.foldl_cons]
    by_cases hroom : (w.logged lsn).type = .set →
        Admissible s.shardFor budget m (w.logged lsn).key (w.logged lsn).value
    · obtain ⟨s', happly, hholds, hbudget', hroute⟩ := h.replay hbudget hsub hroom lsn
      obtain ⟨hok, hnone⟩ := ih hholds hbudget' hrest
      rw [hroute] at hok hnone
      rw [happly]
      exact ⟨fun hr => hok hr.2, fun hnot => hnone fun hr => hnot ⟨hroom, hr⟩⟩
    · refine ⟨fun hr => absurd hr.1 hroom, fun _ => ?_⟩
      obtain ⟨hset, hfull⟩ := Classical.not_imp.mp hroom
      rw [h.replay_refused hbudget hset hfull]
      rfl

end Replay

/-! ## Main results -/

/-- When every call of a sequence without deadlines was acknowledged, an engine with another seed
    recovers the same keyspace, if and only if for each `Set` the shard to which that seed leads its
    key has room beside the other keys that it is led. -/
theorem recovery_other_seed (o : Options) (hpolicy : o.policy = .noEviction)
    (seed seed' newSeed newSeed' nowMs nowMono : UInt64)
    (hrun : Run Engine.acknowledge Always (newEngine { o with seed := seed } newSeed) e)
    {wal : Disk Bytes} (hwal : HealthySegments wal) (hrecords : walRecords wal = e.log.records)
    (unsafeTruncate : Bool) :
    (∃ s, recoverDir nowMs nowMono unsafeTruncate wal []
        (newStore { o with seed := seed' } newSeed') = .ok s ∧
      s.contents = e.store.contents) ↔
    Roomy (newStore { o with seed := seed' } newSeed').shardFor o.budget ∅ e.log.records := by
  have hrest : e.Resting :=
    hrun.invariant (P := Engine.Resting) (fun _ _ _ h _ hack => h.acknowledge hack)
      (newEngine_resting (by exact hpolicy) newSeed)
  have hall : (walRecords wal).filter (fun r => 0 < r.lsn) = e.log.records := by
    rw [hrecords]
    exact List.filter_eq_self.mpr fun r hr => decide_eq_true (hrest.lsn.2 r hr)
  obtain ⟨hok, hnone⟩ := (newStore_holds { o with seed := seed' } newSeed' hpolicy).replay_log
    (newStore_budget o seed' newSeed') nowMs nowMono hrest.writes
  constructor
  · rintro ⟨s, hs, -⟩
    by_contra hnot
    have hcallback : ((walRecords wal).filter fun r => 0 < r.lsn).foldlM
        (Store.applyCallback nowMs nowMono) (newStore { o with seed := seed' } newSeed') =
        .error () := by
      rw [hall]
      exact foldlM_applyCallback_none (hnone hnot)
    obtain ⟨err, herr⟩ := replay_refused hwal unsafeTruncate hcallback
    replace hs : replayDir nowMs nowMono unsafeTruncate wal 0 _ = .ok s := hs
    rw [replayDir, herr] at hs
    cases hs
  · intro hroom
    obtain ⟨s, hreplay, hholds⟩ := hok hroom
    have hcallback : ((walRecords wal).filter fun r => 0 < r.lsn).foldlM
        (Store.applyCallback nowMs nowMono) (newStore { o with seed := seed' } newSeed') = .ok s := by
      rw [hall]
      exact foldlM_applyCallback hreplay
    obtain ⟨res, hres⟩ := replay_healthy hwal unsafeTruncate hcallback
    refine ⟨(s.purgeExpired nowMs).2, ?_, ?_⟩
    · show replayDir nowMs nowMono unsafeTruncate wal 0 _ = _
      rw [replayDir, hres]
    · rw [hholds.purgeExpired]
      funext k
      rw [hholds.contents, hrest.holds.contents]
      rfl

/-- A directory with one segment. -/
def segmentDir (rs : List Record) : Disk Bytes :=
  Wal.appendFile (Wal.createSegment [] 1 0) (segmentName 1) (encodeRecords rs)

/-- Two shards with 200 bytes each; a key and a value of one byte count for 162. -/
def limitedShards : Options :=
  { oneShard with shards := 2, maxMemory := 400, policy := .noEviction }

instance decidableRoomy (route : Bytes → ℕ) (budget : ℤ) :
    ∀ m rs, Decidable (Roomy route budget m rs)
  | _, [] => isTrue trivial
  | m, r :: rs =>
    haveI := decidableRoomy route budget (r.hold m) rs
    inferInstanceAs (Decidable (_ ∧ _))

/-- Two keys that share a shard under the second seed, the first of which is deleted before the
    other one is set. -/
theorem recovery_other_seed_in_turn :
    ∃ e s, Run Engine.acknowledge Always (newEngine { limitedShards with seed := 1 } 0) e ∧
      recoverDir 0 0 false (segmentDir e.log.records) []
        (newStore { limitedShards with seed := 5 } 0) = .ok s ∧
      s.contents = e.store.contents ∧ e.store.contents [2] = some ([4], 0) := by
  obtain ⟨e, hrun, hwal, hrecords, hroom, htwo⟩ := Run.exists_of_exec Engine.acknowledge
    (newEngine { limitedShards with seed := 1 } 0)
    [.set [1] [3] 0 0 0, .delete [1] 0 0, .set [2] [4] 0 0 0]
    (fun e => HealthySegments (segmentDir e.log.records) ∧
      walRecords (segmentDir e.log.records) = e.log.records ∧
      Roomy (newStore { limitedShards with seed := 5 } 0).shardFor limitedShards.budget ∅
        e.log.records ∧
      e.store.contents [2] = some ([4], 0)) (by decide +kernel)
  obtain ⟨s, hs, hsame⟩ :=
    (recovery_other_seed limitedShards rfl 1 5 0 0 0 0 hrun hwal hrecords false).mpr hroom
  exact ⟨e, s, hrun, hs, hsame, htwo⟩

/-- Two calls that need different shards. -/
theorem acknowledge_two (hopen : e.closed = false ∧ e.readOnly = false)
    (hlog : e.log.closed = false ∧ e.log.fatal = false) (hidle : ∀ i, e.inflight i = none)
    {v w : Write} (hv : v.record.Submittable) (hw : w.record.Submittable)
    (hne : e.store.shardFor w.record.key ≠ e.store.shardFor v.record.key)
    (hvok : (v.apply (e.store.shards (e.store.shardFor v.record.key))).1 = true)
    (hwok : (w.apply (e.store.shards (e.store.shardFor w.record.key))).1 = true) :
    ∃ e', Run Engine.acknowledge Always e e' ∧ e'.log.records =
      e.log.records ++ [v.logged e.log.nextLSN, w.logged (e.log.nextLSN + 1)] := by
  obtain ⟨e₁, h₁⟩ := acknowledge_of_admitted hopen hlog hidle hv hvok
  obtain ⟨-, -, q, d, he₁⟩ := acknowledge_eq hidle h₁
  have hidle₁ : ∀ i, e₁.inflight i = none := by rw [he₁]; exact hidle
  have hwok₁ : (w.apply (e₁.store.shards (e₁.store.shardFor w.record.key))).1 = true := by
    rw [he₁]
    show (w.apply ((e.store.put _ _).shards (e.store.shardFor w.record.key))).1 = true
    rwa [shards_put_of_ne _ hne]
  obtain ⟨e₂, h₂⟩ := acknowledge_of_admitted (by rw [he₁]; exact hopen) (by rw [he₁]; exact hlog)
    hidle₁ hw hwok₁
  obtain ⟨-, -, q', d', he₂⟩ := acknowledge_eq hidle₁ h₂
  refine ⟨e₂, (Run.refl.tail v trivial h₁).tail w trivial h₂, ?_⟩
  rw [he₂, he₁]
  dsimp only
  rw [List.append_assoc]
  rfl

/-- Both keys are set. Under the second seed they share a shard, which has room for one. -/
theorem recovery_other_seed_fails :
    ∃ e, Run Engine.acknowledge Always (newEngine { limitedShards with seed := 1 } 0) e ∧
      HealthySegments (segmentDir e.log.records) ∧
      walRecords (segmentDir e.log.records) = e.log.records ∧
      (recoverDir 0 0 false (segmentDir e.log.records) []
        (newStore { limitedShards with seed := 5 } 0)).isOk = false := by
  obtain ⟨e, hrun, hrecords⟩ := acknowledge_two
    (e := newEngine { limitedShards with seed := 1 } 0) (v := .set [1] [3] 0 0 0)
    (w := .set [2] [4] 0 0 0) ⟨rfl, rfl⟩ ⟨rfl, rfl⟩ (fun _ => rfl) (by decide) (by decide)
    (by decide +kernel) (by decide +kernel) (by decide +kernel)
  refine ⟨e, hrun, ?_⟩
  rw [hrecords]
  decide +kernel

end KvStore
