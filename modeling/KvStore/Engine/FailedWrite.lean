import KvStore.Engine.StoreSteps
import KvStore.Snapshot.File

/-!
# Writes that fail

A whole call of `Set` (`internal/engine/commands.go` lines 47–68 and 122–163) in an engine that
does nothing else at the time: the entry is in memory before `Submit` looks at the record. When
`Submit` refuses it, the call returns an error, and memory stays as it is by then.

Two stores are `Alike` when no reader can tell them apart: they have the same entries in the same
slots, up to when they were last used and what they count for.

* `failed_set_unseen`: a failed `Set` changes no answer and no snapshot, if and only if it is one of
  what the key already holds, or in an engine that takes no writes.
* `failed_set_seen`: a value that is too long for the log is there after its `Set` has failed, and
  makes the next snapshot fail.
-/

namespace KvStore

open KvStore.Common

/-! ## `Set` from start to end -/

/-- The errors of `Submit` (writer.go lines 236–250). -/
inductive SubmitError
  | closed
  | fatal
  | keyTooLong (len : ℕ)
  | valueTooLong (len : ℕ)
  | recordType
  deriving DecidableEq, Repr

/-- Why `Submit` refuses a record. -/
def Log.submitError (w : Log) (r : Record) : Option SubmitError :=
  if w.closed then some .closed
  else if w.fatal then some .fatal
  else if r.key.length > maxKeyLen then some (.keyTooLong r.key.length)
  else if r.value.length > maxValLen then some (.valueTooLong r.value.length)
  else if r.type = .segmentHdr then some .recordType
  else none

/-- The errors of `Set`; `commit` is that of `Wait`. -/
inductive SetError
  | closed
  | readOnly
  | oom
  | submit (err : SubmitError)
  | commit
  deriving DecidableEq, Repr

namespace Engine

/-- `Set` with the clock readings of `deadline`, `WithKey` and `Submit`, and whether the commit
    succeeds; `none` while another mutation holds the lock of the shard. -/
def setCall (e : Engine) (key value : Bytes) (ttlMillis nowMs nowMono nowMs' : UInt64)
    (committed : Bool) : Option (Option SetError × Engine) :=
  if e.closed then some (some .closed, e)
  else if e.readOnly then some (some .readOnly, e)
  else
    (e.set key value ttlMillis nowMs nowMono).bind fun e₁ =>
      match e₁.inflight (e.store.shardFor key) with
      | none => some (some .oom, e₁)
      | some rec =>
        (e₁.submit (e.store.shardFor key) nowMs').map fun e₂ =>
          (match e₁.log.submitError rec with
            | some err => some (.submit err)
            | none => if committed then none else some .commit, e₂)

/-- `Snapshot` (lines 328–354) at the durable LSN `lsn`: the name of the file and what is in it. -/
def snapshot (e : Engine) (lsn nowMs nowMs' : UInt64) :
    Except Snapshot.WriteError (Bytes × Bytes) :=
  Snapshot.writeSnapshot lsn nowMs (e.store.range nowMs')

end Engine

/-! ## Stores that no reader can tell apart -/

/-- What readers see of an entry. -/
def Entry.Alike (x y : Entry) : Prop :=
  x.key = y.key ∧ x.value = y.value ∧ x.expireAt = y.expireAt

structure Shard.Alike (sh sh' : Shard) : Prop where
  entries : sh'.entries = sh.entries
  slots : sh'.slots = sh.slots
  heap : ∀ p, (sh.heap p).Alike (sh'.heap p)

structure Store.Alike (s s' : Store) : Prop where
  routes : ∀ key, s'.shardFor key = s.shardFor key
  count : s'.shardCount = s.shardCount
  shards : ∀ i, (s.shards i).Alike (s'.shards i)

theorem Shard.Alike.refl (sh : Shard) : sh.Alike sh := ⟨rfl, rfl, fun _ => ⟨rfl, rfl, rfl⟩⟩

variable {s s' : Store} {sh sh' : Shard} {e e' : Engine} {key value : Bytes} {i : ℕ}

theorem Store.Alike.put (h : (s.shards i).Alike sh) : s.Alike (s.put i sh) := by
  refine ⟨fun _ => rfl, rfl, fun j => ?_⟩
  rw [shards_put]
  split_ifs with hj
  · subst hj
    exact h
  · exact .refl _

theorem Entry.Alike.expired {x y : Entry} (h : x.Alike y) (nowMs : UInt64) :
    y.expired nowMs = x.expired nowMs := by
  rw [Entry.expired, Entry.expired, h.2.2]

theorem Shard.Alike.getLocked (h : sh.Alike sh') (key : Bytes) (nowMs nowMono : UInt64) :
    (sh'.getLocked key nowMs nowMono).1 = (sh.getLocked key nowMs nowMono).1 := by
  unfold Shard.getLocked
  rw [h.entries]
  split
  · rfl
  · rename_i p _
    rw [(h.heap p).expired nowMs]
    split_ifs <;> rfl

theorem Shard.Alike.rangeLoop (h : sh.Alike sh') (nowMs : UInt64) :
    ∀ room ps, sh'.rangeLoop nowMs room ps = sh.rangeLoop nowMs room ps := by
  intro room ps
  induction ps generalizing room with
  | nil => cases room <;> rfl
  | cons p ps ih =>
    cases room with
    | zero => rfl
    | succ room =>
      obtain ⟨hkey, hvalue, hexpire⟩ := h.heap p
      rw [Shard.rangeLoop, Shard.rangeLoop, (h.heap p).expired nowMs, ih, ih, Shard.clone,
        Shard.clone, hkey, hvalue, hexpire]

namespace Store.Alike

variable (h : s.Alike s')

include h

/-- The answers of `Get`, `Exists` and `TTL`. -/
theorem answers (key : Bytes) (nowMs nowMono : UInt64) :
    (s'.getRead key nowMs nowMono).1.1 = (s.getRead key nowMs nowMono).1.1 ∧
      (s'.existsRead key nowMs nowMono).1.1 = (s.existsRead key nowMs nowMono).1.1 ∧
      (s'.ttlRead key nowMs nowMono).1.1 = (s.ttlRead key nowMs nowMono).1.1 := by
  have hroute := h.routes key
  obtain ⟨i, hi⟩ : ∃ i, i = s.shardFor key := ⟨_, rfl⟩
  have hget := (h.shards i).getLocked key nowMs nowMono
  unfold Store.getRead Store.existsRead Store.ttlRead Store.withShard
  rw [hroute, ← hi]
  dsimp only
  refine ⟨?_, ?_, ?_⟩
  · rw [hget]
    exact Option.map_congr fun p _ => ((h.shards i).heap p).2.1.symm
  · rw [hget]
  · rw [hget]
    exact Option.map_congr fun p _ => by rw [((h.shards i).heap p).2.2]

theorem rangeStep (c : RangeCursor) : s'.rangeStep c = s.rangeStep c := by
  unfold Store.rangeStep
  simp only [h.count, (h.shards c.shard).slots, (h.shards c.shard).rangeLoop]

theorem range (nowMs : UInt64) : s'.range nowMs = s.range nowMs := by
  have hfrom : ∀ fuel c, s'.rangeFrom fuel c = s.rangeFrom fuel c := by
    intro fuel
    induction fuel with
    | zero => exact fun _ => rfl
    | succ fuel ih =>
      intro c
      rw [Store.rangeFrom, Store.rangeFrom, h.rangeStep]
      cases s.rangeStep c with
      | none => rfl
      | some c' => exact ih c'
  have hslots : s'.slotsFrom 0 = s.slotsFrom 0 := by
    simp only [Store.slotsFrom, h.count, (h.shards _).slots]
  rw [Store.range, Store.range, hslots, hfrom]

end Store.Alike

/-- Without a memory limit, writing what is already there changes nothing a reader can see. -/
theorem setLocked_alike {expireAt : UInt64} (hb : sh.budget ≤ 0)
    (hsame : sh.contents key = some (value, expireAt)) (nowMono : UInt64) :
    (sh.setLocked key value expireAt nowMono).1 = true ∧
      sh.Alike (sh.setLocked key value expireAt nowMono).2 := by
  obtain ⟨p, hp, hpair⟩ := Option.map_eq_some_iff.mp hsame
  obtain ⟨hvalue, hexpire⟩ := Prod.mk.inj hpair
  obtain ⟨a, d, hover⟩ := overwrite_frame sh p value expireAt nowMono
    (entryCost key.length value.length) (entryCost key.length value.length - (sh.heap p).size)
  rw [Shard.setLocked, hp]
  dsimp only
  rw [admitLocked_unlimited hb]
  dsimp only
  rw [hover]
  refine ⟨rfl, rfl, rfl, fun q => ?_⟩
  by_cases hq : q = p
  · subst hq
    dsimp only
    rw [Function.update_self]
    exact ⟨rfl, hvalue, hexpire⟩
  · dsimp only
    rw [Function.update_of_ne hq]
    exact ⟨rfl, rfl, rfl⟩

theorem submit_store {nowMs : UInt64} (h : e.submit i nowMs = some e') : e'.store = e.store := by
  obtain ⟨r, -, rfl⟩ := Option.map_eq_some_iff.mp h
  dsimp only
  split <;> rfl

/-- A call of `Set` in an engine that takes writes leaves the store as the locked part does. -/
theorem setCall_store {ttlMillis nowMs nowMono nowMs' : UInt64} {committed : Bool}
    {res : Option SetError} (hclosed : ¬ e.closed = true) (hro : ¬ e.readOnly = true)
    (h : e.setCall key value ttlMillis nowMs nowMono nowMs' committed = some (res, e')) :
    e'.store = e.store.put (e.store.shardFor key)
      { ((e.store.shards (e.store.shardFor key)).setLocked key value
        (Engine.deadline ttlMillis nowMs) nowMono).2 with onEvict := [] } := by
  rw [Engine.setCall, if_neg hclosed, if_neg hro] at h
  obtain ⟨e₁, he₁, hrest⟩ := Option.bind_eq_some_iff.mp h
  have hstore := (mutate_frame he₁).2
  split at hrest
  · cases hrest
    exact hstore
  · obtain ⟨e₂, he₂, hpair⟩ := Option.map_eq_some_iff.mp hrest
    rw [← (Prod.mk.inj hpair).2, submit_store he₂]
    exact hstore

/-! ## Main results -/

/-- `Get` answers with what the store holds at the time. -/
theorem getRead_eq_liveAt (s : Store) (key : Bytes) (nowMs nowMono : UInt64) :
    (s.getRead key nowMs nowMono).1.1 = (liveAt nowMs (s.contents key)).map Prod.fst := by
  rw [Store.contents, ← getLocked_live _ key nowMs nowMono, Option.map_map]
  rfl

/-- Without a memory limit the value is there after the locked part of a write. -/
theorem setLocked_written (hb : sh.budget ≤ 0) (key value : Bytes) (expireAt nowMono : UInt64) :
    (sh.setLocked key value expireAt nowMono).2.contents key = some (value, expireAt) := by
  unfold Shard.setLocked
  cases hlook : sh.entries.lookup key with
  | none =>
    dsimp only
    rw [admitLocked_unlimited hb]
    dsimp only
    rw [insert_eq]
    simp [Shard.contents]
  | some old =>
    dsimp only
    rw [admitLocked_unlimited hb]
    dsimp only
    obtain ⟨a, d, hframe⟩ := overwrite_frame sh old value expireAt nowMono
      (entryCost key.length value.length) (entryCost key.length value.length - (sh.heap old).size)
    rw [hframe]
    simp [Shard.contents, hlook]

/-- In an engine without a memory limit, a `Set` that fails leaves all answers and the snapshot as
    they were, if and only if the engine takes no writes or the key already holds this value until
    this deadline. -/
theorem failed_set_unseen {ttlMillis nowMs nowMono nowMs' : UInt64} {committed : Bool}
    {err : SetError} (hmem : ∀ i, (e.store.shards i).budget ≤ 0)
    (hset : e.setCall key value ttlMillis nowMs nowMono nowMs' committed = some (some err, e')) :
    ((∀ k now mono, (e'.store.getRead k now mono).1.1 = (e.store.getRead k now mono).1.1 ∧
        (e'.store.existsRead k now mono).1.1 = (e.store.existsRead k now mono).1.1 ∧
        (e'.store.ttlRead k now mono).1.1 = (e.store.ttlRead k now mono).1.1) ∧
      ∀ lsn now now', e'.snapshot lsn now now' = e.snapshot lsn now now') ↔
    (e.closed = true ∨ e.readOnly = true ∨
      e.store.contents key = some (value, Engine.deadline ttlMillis nowMs)) := by
  by_cases hclosed : e.closed = true
  · rw [Engine.setCall, if_pos hclosed] at hset
    cases hset
    exact iff_of_true ⟨fun _ _ _ => ⟨rfl, rfl, rfl⟩, fun _ _ _ => rfl⟩ (.inl hclosed)
  by_cases hro : e.readOnly = true
  · rw [Engine.setCall, if_neg hclosed, if_pos hro] at hset
    cases hset
    exact iff_of_true ⟨fun _ _ _ => ⟨rfl, rfl, rfl⟩, fun _ _ _ => rfl⟩ (.inr (.inl hro))
  have hstore := setCall_store hclosed hro hset
  constructor
  · rintro ⟨hanswers, -⟩
    refine .inr (.inr (eq_of_liveAt fun now => ?_))
    have hwritten : e'.store.contents key = some (value, Engine.deadline ttlMillis nowMs) := by
      rw [hstore, contents_put_report, contents_put, if_pos rfl]
      exact setLocked_written (hmem _) key value _ nowMono
    have hget := (hanswers key now nowMono).1
    rw [getRead_eq_liveAt, getRead_eq_liveAt, hwritten] at hget
    exact hget.symm
  · intro hsame
    have halike : e.store.Alike e'.store := by
      rw [hstore]
      obtain ⟨-, hshard⟩ :=
        setLocked_alike (hmem _) ((hsame.resolve_left hclosed).resolve_left hro) nowMono
      exact .put ⟨hshard.entries, hshard.slots, hshard.heap⟩
    refine ⟨halike.answers, fun lsn now now' => ?_⟩
    rw [Engine.snapshot, Engine.snapshot, halike.range]

/-- An engine with one entry whose log has failed. -/
def failedLog : Engine :=
  { newEngine oneShard 1 with
    store := ((newStore oneShard 1).set [107] [118] 0 0).2
    log := ⟨2, [], false, true⟩ }

/-- The entry is set again to what it is. -/
theorem failed_set_unseen_again :
    ∃ e', failedLog.setCall [107] [118] 0 5 5 5 true = some (some (.submit .fatal), e') ∧
      (e'.store.getRead [107] 9 9).1.1 = some [118] := by
  have herr : ((failedLog.setCall [107] [118] 0 5 5 5 true).any fun p =>
      p.1 = some (.submit .fatal)) = true := by decide +kernel
  obtain ⟨⟨res, e'⟩, hset, hres⟩ := (Option.any_eq_true _ _).mp herr
  obtain rfl : res = some (.submit .fatal) := of_decide_eq_true hres
  have hmem : ∀ i, (failedLog.store.shards i).budget ≤ 0 :=
    ((newStore_plain oneShard 1 le_rfl).keyed.set [107] [118] 0 0).2.1.unlimited
  refine ⟨e', hset, ?_⟩
  rw [(((failed_set_unseen hmem hset).mpr (.inr (.inr (by decide +kernel)))).1 [107] 9 9).1]
  decide +kernel

/-- A value of any length beyond the limit of the log. -/
theorem setCall_long {v : Bytes} (hv : maxValLen < v.length) :
    ∃ e', (newEngine oneShard 1).setCall [107] v 0 0 0 0 true =
        some (some (.submit (.valueTooLong v.length)), e') ∧
      (e'.store.getRead [107] 0 0).1.1 = some v ∧
      e'.snapshot 0 0 0 = .error (.valueTooLong v.length) := by
  obtain ⟨e₁, hset, hlog, hinfl, hget, hrange⟩ :
      ∃ e₁, (newEngine oneShard 1).set [107] v 0 0 0 = some e₁ ∧
        e₁.log = (newEngine oneShard 1).log ∧
        e₁.inflight ((newEngine oneShard 1).store.shardFor [107]) =
          some (Engine.record .set [107] v 0) ∧
        (e₁.store.getRead [107] 0 0).1.1 = some v ∧
        e₁.store.range 0 = [⟨[107], v, 0⟩] := ⟨_, rfl, rfl, rfl, rfl, rfl⟩
  have herr : e₁.log.submitError (Engine.record .set [107] v 0) =
      some (.valueTooLong v.length) := by
    have hkey : ¬ (Engine.record .set [107] v 0).key.length > maxKeyLen :=
      show ¬ ([107] : Bytes).length > maxKeyLen by decide
    have hvalue : (Engine.record .set [107] v 0).value.length > maxValLen := hv
    rw [hlog, Log.submitError, if_neg (by decide), if_neg (by decide), if_neg hkey, if_pos hvalue]
    rfl
  obtain ⟨e₂, hsubmit⟩ :
      ∃ e₂, e₁.submit ((newEngine oneShard 1).store.shardFor [107]) 0 = some e₂ := by
    rw [Engine.submit, hinfl]
    exact ⟨_, rfl⟩
  refine ⟨e₂, ?_, by rw [submit_store hsubmit, hget], ?_⟩
  · rw [Engine.setCall, if_neg (by decide), if_neg (by decide), hset]
    dsimp only [Option.bind_some]
    rw [hinfl, hsubmit]
    dsimp only [Option.map_some]
    rw [herr]
  · rw [Engine.snapshot, submit_store hsubmit, hrange, Snapshot.writeSnapshot]
    have hadd : (Snapshot.create 0 0).add ⟨[107], v, 0⟩ = .error (.valueTooLong v.length) := by
      have hkey : ¬ ([107] : Bytes).length > Snapshot.maxKeyLen := by decide
      exact (if_neg hkey).trans (if_pos hv)
    rw [List.foldlM_cons, hadd]
    rfl

/-- A value that is one byte too long for the log. The `Set` fails, `Get` answers with the value,
    and no snapshot can be taken. -/
theorem failed_set_seen :
    ∃ v e', (newEngine oneShard 1).setCall [107] v 0 0 0 0 true =
        some (some (.submit (.valueTooLong (maxValLen + 1))), e') ∧
      ((newEngine oneShard 1).store.getRead [107] 0 0).1.1 = none ∧
      (e'.store.getRead [107] 0 0).1.1 = some v ∧
      ((newEngine oneShard 1).snapshot 0 0 0).isOk = true ∧
      e'.snapshot 0 0 0 = .error (.valueTooLong (maxValLen + 1)) := by
  have hlen : (List.replicate (maxValLen + 1) (0 : UInt8)).length = maxValLen + 1 :=
    List.length_replicate
  obtain ⟨e', hset, hget, hsnap⟩ :=
    setCall_long ((Nat.lt_succ_self maxValLen).trans_eq hlen.symm)
  rw [hlen] at hset hsnap
  exact ⟨_, e', hset, rfl, hget, rfl, hsnap⟩

end KvStore
