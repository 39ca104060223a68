import KvStore.Engine.StoreSteps
import KvStore.Engine.Recovery

/-!
# A node that replicates

Model of the replica side of `internal/cluster`: `runReplica` and `replicateOnce`
(replica.go lines 28–211), `Promote` (node.go lines 160–171), and what they call in the
engine, `ApplyReplicated` and `ResetForFullResync` (commands.go lines 436–459).

The replication goroutine is one process, the engine with its clients and background tasks
the other. Applying a record takes the lock of one shard, and the record is submitted to the
log of the replica afterwards, without it; a reset clears the shards one after another and
then takes a snapshot. `ReplStage` says between which of these steps the goroutine is.
-/

namespace KvStore

open KvStore.Common

/-- `streamMsg` (stream.go lines 102–109), by type. -/
inductive StreamMsg
  | record (r : Record)
  | heartbeat (lsn : ℕ) (epoch : UInt64)
  | fullBegin (lsn : ℕ)
  | fullEnd (lsn : ℕ)
  | ack (lsn : ℕ)
  | reject (reason : Bytes)
  deriving DecidableEq

/-- Where the replication goroutine is: without a connection, in `readMsg`, between
    `applyRecord` and `Submit` of a record, in `Store.Flush` before shard `i`, or in the
    snapshot after it. -/
inductive ReplStage
  | down
  | waiting
  | submitting (r : Record)
  | flushing (i : ℕ)
  | snapshotting
  deriving DecidableEq

/-- `Node` (node.go lines 66–85) and `replicaState`, as far as replication depends on them. -/
structure Node where
  engine : Engine
  epoch : UInt64
  appliedLSN : ℕ
  primaryLSN : ℕ
  inFullSync : Bool
  stage : ReplStage

/-- `applyRecord` (engine.go lines 298–313) on a running engine: whether it succeeded. -/
def Engine.applyRecord (e : Engine) (r : Record) (nowMs nowMono : UInt64) :
    Option (Bool × Engine) :=
  match r.type with
  | .set =>
    e.onShard (e.store.shardFor r.key) fun sh => sh.setLocked r.key r.value r.expireAtMs nowMono
  | .delete =>
    e.onShard (e.store.shardFor r.key) fun sh => (true, (sh.txnDelete r.key nowMs).2)
  | .expire =>
    e.onShard (e.store.shardFor r.key) fun sh => (true, (sh.txnExpire r.key r.expireAtMs nowMs).2)
  | .segmentHdr => some (true, e)

/-- Applying the record leaves fewer than `2^31` entries in its shard. -/
def Record.FitsIn (e : Engine) (nowMono : UInt64) (r : Record) : Prop :=
  r.type = .set →
    ((e.store.shards (e.store.shardFor r.key)).setLocked r.key r.value r.expireAtMs
      nowMono).2.entries.keys.length < 2 ^ 31

instance (e : Engine) (nowMono : UInt64) (r : Record) : Decidable (r.FitsIn e nowMono) :=
  inferInstanceAs (Decidable (_ → _ < _))

/-- Applying a record touches the store and the queue of evictions only. -/
theorem Engine.applyRecord_frame {e e' : Engine} {r : Record} {nowMs nowMono : UInt64} {ok : Bool}
    (h : e.applyRecord r nowMs nowMono = some (ok, e')) :
    ∃ st q d, e' = { e with store := st, evictQ := q, evictDrops := d } := by
  unfold Engine.applyRecord at h
  split at h
  · obtain ⟨-, -, q, d, rfl⟩ := onShard_eq h
    exact ⟨_, q, d, rfl⟩
  · obtain ⟨-, -, q, d, rfl⟩ := onShard_eq h
    exact ⟨_, q, d, rfl⟩
  · obtain ⟨-, -, q, d, rfl⟩ := onShard_eq h
    exact ⟨_, q, d, rfl⟩
  · cases h
    exact ⟨_, _, _, rfl⟩

/-- Without a memory limit a record of the primary does to the contents what it does when it
    is replayed. -/
theorem Engine.applyRecord_effect {e e' : Engine} {r : Record} {nowMs nowMono : UInt64} {ok : Bool}
    (h : e.store.Plain) (hfit : r.FitsIn e nowMono)
    (hstep : e.applyRecord r nowMs nowMono = some (ok, e')) :
    ok = true ∧ e'.store.Plain ∧
      e'.store.contents = applyWith (Record.effectAt nowMs) e.store.contents r := by
  unfold Engine.applyRecord at hstep
  unfold applyWith Record.effectAt
  rcases ht : r.type with _ | _ | _ | _ <;> rw [ht] at hstep
  · obtain ⟨-, hok, q, d, rfl⟩ := onShard_eq hstep
    have hb := h.unlimited (e.store.shardFor r.key)
    obtain ⟨hset, heff⟩ := setLocked_effect_unlimited (h.keyed.key _) hb r.key r.value
      r.expireAtMs nowMono
    have hindex := setLocked_index (h.index _) hb r.key r.value _ nowMono (hfit ht)
    refine ⟨hok.trans hset, (h.put_update hindex heff).put_report [], ?_⟩
    dsimp only
    rw [contents_put_report]
    exact contents_put_update heff
  · obtain ⟨-, hok, q, d, rfl⟩ := onShard_eq hstep
    refine ⟨hok, (h.delete r.key nowMs).put_report [], ?_⟩
    dsimp only
    rw [contents_put_report]
    exact contents_put_update (txnDelete_effect (h.keyed.key (e.store.shardFor r.key)) r.key nowMs).2
  · obtain ⟨-, hok, q, d, rfl⟩ := onShard_eq hstep
    obtain ⟨hplain, hc⟩ := h.txnExpire r.key r.expireAtMs nowMs
    refine ⟨hok, hplain.put_report [], ?_⟩
    dsimp only
    rw [contents_put_report, hc]
    split_ifs <;> rfl
  · cases hstep
    exact ⟨rfl, h, (Function.update_eq_self _ _).symm⟩

/-- `ApplyReplicated` (commands.go lines 436–449). -/
def Engine.applyReplicated (e : Engine) (r : Record) (nowMs nowMono : UInt64) :
    Option (Bool × Engine) :=
  (e.applyRecord r nowMs nowMono).map fun (ok, e) =>
    if ok then
      match e.log.submit r nowMs with
      | none => (false, e)
      | some (_, log) => (true, { e with log := log })
    else (false, e)

theorem Engine.applyReplicated_eq {e e' : Engine} {r : Record} {nowMs nowMono : UInt64} {ok : Bool}
    (h : e.applyReplicated r nowMs nowMono = some (ok, e')) :
    ∃ ok₁ e₁, e.applyRecord r nowMs nowMono = some (ok₁, e₁) ∧
      ((ok = false ∧ e' = e₁ ∧ (ok₁ = true → e.log.submit r nowMs = none)) ∨
        ∃ lsn log, ok = true ∧ ok₁ = true ∧ e.log.submit r nowMs = some (lsn, log) ∧
          e' = { e₁ with log := log }) := by
  obtain ⟨⟨ok₁, e₁⟩, happly, heq⟩ := Option.map_eq_some_iff.mp h
  obtain ⟨st, q, d, rfl⟩ := Engine.applyRecord_frame happly
  refine ⟨ok₁, _, happly, ?_⟩
  dsimp only at heq
  split_ifs at heq with hok
  · split at heq
    · cases heq
      exact .inl ⟨rfl, rfl, fun _ => by assumption⟩
    · rename_i lsn log hsub
      cases heq
      exact .inr ⟨lsn, log, rfl, hok, hsub, rfl⟩
  · cases heq
    exact .inl ⟨rfl, rfl, fun h => absurd h hok⟩

/-- `LastLSN` (writer.go lines 225–226). -/
def Engine.lastLSN (e : Engine) : ℕ := e.log.nextLSN - 1

inductive NodeAction
  | engine (a : EngineAction)
  | promote
  | connect
  | recv (m : StreamMsg) (nowMs nowMono : UInt64)
  | submit (nowMs : UInt64)
  | flushShard
  | snapshot (ok : Bool)
  | disconnect

namespace Node

/-- `replicateOnce` returns. -/
def hangUp (n : Node) : Node := { n with stage := .down }

/-- `Promote` (lines 160–171); refused on a primary. -/
def promote (n : Node) : Option Node :=
  if ¬ n.engine.readOnly then none
  else some { n with epoch := n.epoch + 1, engine := { n.engine with readOnly := false } }

/-- `replicateOnce` up to the loop (lines 60–131). -/
def connect (n : Node) : Option Node :=
  match n.stage with
  | .down => some { n with stage := .waiting, appliedLSN := n.engine.lastLSN, inFullSync := false }
  | _ => none

/-- The message switch (lines 154–209). -/
def receive (n : Node) (m : StreamMsg) (nowMs nowMono : UInt64) : Option Node :=
  match m with
  | .fullBegin _ => some { n with stage := .flushing 0 }
  | .fullEnd lsn => some { n with inFullSync := false, appliedLSN := lsn, primaryLSN := lsn }
  | .record r =>
    (n.engine.applyRecord r nowMs nowMono).map fun p =>
      { n with engine := p.2, stage := if p.1 then .submitting r else .down }
  | .heartbeat lsn epoch =>
    let n := { n with primaryLSN := lsn }
    if epoch < n.epoch then some n.hangUp
    else if epoch > n.epoch then some { n with epoch := epoch }
    else some n
  | .reject _ => some n.hangUp
  | .ack _ => some n.hangUp

/-- `Submit` of the record that was applied, and the bookkeeping after it (lines 183–189). -/
def submit (n : Node) (nowMs : UInt64) : Option Node :=
  match n.stage with
  | .submitting r =>
    match n.engine.log.submit r nowMs with
    | none => some n.hangUp
    | some (_, log) =>
      some { n with
        engine := { n.engine with log := log }
        appliedLSN := if ¬ n.inFullSync ∧ r.lsn > n.appliedLSN then r.lsn else n.appliedLSN
        stage := .waiting }
  | _ => none

/-- One round of `Store.Flush` (store.go lines 470–475), or its end. -/
def flushShard (n : Node) : Option Node :=
  match n.stage with
  | .flushing i =>
    if i < n.engine.store.shardCount then
      (n.engine.onShard i fun sh => ((), sh.flushLocked)).map fun p =>
        { n with engine := p.2, stage := .flushing (i + 1) }
    else some { n with stage := .snapshotting }
  | _ => none

/-- The snapshot of `resetKeyspace` has been written, or has failed. It changes neither the
    keyspace nor the records above it. -/
def snapshot (n : Node) (ok : Bool) : Option Node :=
  match n.stage with
  | .snapshotting => some (if ok then { n with stage := .waiting, inFullSync := true } else n.hangUp)
  | _ => none

def step (n : Node) : NodeAction → Option Node
  | .engine a => (n.engine.step a).map fun e => { n with engine := e }
  | .promote => n.promote
  | .connect => n.connect
  | .recv m nowMs nowMono => if n.stage = .waiting then n.receive m nowMs nowMono else none
  | .submit nowMs => n.submit nowMs
  | .flushShard => n.flushShard
  | .snapshot ok => n.snapshot ok
  | .disconnect => if n.stage = .waiting then some n.hangUp else none

end Node

/-- A replica that has opened an empty data directory and has not connected yet (`New`,
    node.go lines 88–113). -/
def newReplica (o : Options) (newSeed : UInt64) : Node where
  engine := { newEngine o newSeed with readOnly := true }
  epoch := 1
  appliedLSN := 0
  primaryLSN := 0
  inFullSync := false
  stage := .down

end KvStore
