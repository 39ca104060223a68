import KvStore.Common.Run
import KvStore.Store.StoreInv
import KvStore.Wal.Log

/-!
# The write path of the engine

Model of `internal/engine/commands.go` lines 47–243: client mutations, the removals
the store makes by itself, and the goroutine that logs those removals.

A mutation applies to memory and then submits its record while it holds the lock of
the shard that owns the key. It is two steps here, `Engine.inflight i` holding the
record in between, so that everything that does not need that lock can run between
them; whatever takes the lock has to wait. A removal by the store pushes an event on
`evictQ` under the shard lock; `drainEvictQueue` takes an event (`draining`) and
submits a DELETE for it later, without any shard lock.
-/

namespace KvStore

open KvStore.Common

/-- The fields of `Engine` (engine.go lines 39–88) the write path uses. -/
structure Engine where
  store : Store
  log : Log
  readOnly : Bool
  closed : Bool
  evictQ : List (Bytes × EvictReason)
  evictDrops : ℕ
  draining : Option (Bytes × EvictReason)
  inflight : ℕ → Option Record

/-- An engine that has opened an empty data directory as a primary. -/
def newEngine (o : Options) (newSeed : UInt64) : Engine where
  store := newStore o newSeed
  log := { nextLSN := 1, records := [], closed := false, fatal := false }
  readOnly := false
  closed := false
  evictQ := []
  evictDrops := 0
  draining := none
  inflight := fun _ => none

/-- The capacity of `evictQ` (engine.go line 183). -/
def evictQueueCap : ℕ := 8192

namespace Engine

/-- `deadline` (lines 109–118) at the clock reading `nowMs`. -/
def deadline (ttlMillis nowMs : UInt64) : UInt64 :=
  if ttlMillis = 0 then 0
  else
    let maxTTL := (1 : UInt64) <<< (50 : UInt64)
    nowMs + if ttlMillis > maxTTL then maxTTL else ttlMillis

/-- `onStoreEvict` (lines 191–213). -/
def onStoreEvict (e : Engine) (ev : Bytes × EvictReason) : Engine :=
  if e.readOnly ∨ e.closed then e
  else if e.evictQ.length < evictQueueCap then { e with evictQ := e.evictQ ++ [ev] }
  else { e with evictDrops := e.evictDrops + 1 }

/-- Run `fn` under the lock of shard `i`, handing what it reports to `onStoreEvict`; not
    possible while a mutation holds the lock. -/
def onShard {α : Type} (e : Engine) (i : ℕ) (fn : Shard → α × Shard) : Option (α × Engine) :=
  if (e.inflight i).isSome then none
  else
    let (a, sh) := fn (e.store.shards i)
    let e := { e with store := e.store.put i { sh with onEvict := [] } }
    some (a, sh.onEvict.foldl onStoreEvict e)

/-- The locked part of `mutate` up to `Submit` (lines 136–139): apply to memory, and
    unless that fails keep the lock and the record to submit. -/
def mutate (e : Engine) (rec : Record) (apply : Shard → Bool × Shard) : Option Engine :=
  if e.closed ∨ e.readOnly then none
  else
    (e.onShard (e.store.shardFor rec.key) apply).map fun (ok, e) =>
      if ok then { e with inflight := Function.update e.inflight (e.store.shardFor rec.key) (some rec) }
      else e

/-- A record as the engine hands it to `Submit`. -/
def record (type : RecordType) (key value : Bytes) (expireAtMs : UInt64) : Record :=
  { lsn := 0, createdAtMs := 0, type := type, flags := 0, key := key, value := value,
    expireAtMs := expireAtMs }

/-- `Set` (lines 47–68) with the two clock readings of `deadline` and `WithKey`. -/
def set (e : Engine) (key value : Bytes) (ttlMillis nowMs nowMono : UInt64) : Option Engine :=
  let expireAt := deadline ttlMillis nowMs
  e.mutate (record .set key value expireAt) fun sh => sh.setLocked key value expireAt nowMono

/-- `Delete` (lines 71–84). -/
def delete (e : Engine) (key : Bytes) (nowMs : UInt64) : Option Engine :=
  e.mutate (record .delete key [] 0) fun sh => (true, (sh.txnDelete key nowMs).2)

/-- `Expire` (lines 87–101). The record is submitted also when the key was not there. -/
def expire (e : Engine) (key : Bytes) (ttlMillis nowMs nowMs' : UInt64) : Option Engine :=
  let expireAt := deadline ttlMillis nowMs
  e.mutate (record .expire key [] expireAt) fun sh => (true, (sh.txnExpire key expireAt nowMs').2)

/-- `Submit` under the lock of shard `i`, and the release of the lock (line 143). When
    the record is refused, memory stays ahead of the log. -/
def submit (e : Engine) (i : ℕ) (nowMs : UInt64) : Option Engine :=
  (e.inflight i).map fun rec =>
    let e := { e with inflight := Function.update e.inflight i none }
    match e.log.submit rec nowMs with
    | none => e
    | some (_, log) => { e with log := log }

/-- `drainEvictQueue` takes the next event (lines 215–234). -/
def drainTake (e : Engine) : Option Engine :=
  match e.draining, e.evictQ with
  | none, ev :: rest => some { e with evictQ := rest, draining := some ev }
  | _, _ => none

/-- `logEvict` (lines 236–243) for the event that was taken. -/
def logEvict (e : Engine) (nowMs : UInt64) : Option Engine :=
  e.draining.map fun ev =>
    let e := { e with draining := none }
    match e.log.submit (record .delete ev.1 [] 0) nowMs with
    | none => e
    | some (_, log) => { e with log := log }

end Engine

/-- The steps of clients, of the store's own removals and of the drainer. -/
inductive EngineAction
  | set (key value : Bytes) (ttlMillis nowMs nowMono : UInt64)
  | delete (key : Bytes) (nowMs : UInt64)
  | expire (key : Bytes) (ttlMillis nowMs nowMs' : UInt64)
  | submit (i : ℕ) (nowMs : UInt64)
  | read (key : Bytes) (nowMs nowMono : UInt64)
  | reap (key : Bytes) (nowMs : UInt64)
  | sweep (i : ℕ) (nowMs : UInt64) (sample : ℕ)
  | purge (i : ℕ) (nowMs : UInt64)
  | wheel (key : Bytes) (timerExpireAt nowMs : UInt64)
  | evictToLimit (i : ℕ)
  | drainTake
  | logEvict (nowMs : UInt64)

/-- One step of the engine. -/
def Engine.step (e : Engine) : EngineAction → Option Engine
  | .set key value ttl nowMs nowMono => e.set key value ttl nowMs nowMono
  | .delete key nowMs => e.delete key nowMs
  | .expire key ttl nowMs nowMs' => e.expire key ttl nowMs nowMs'
  | .submit i nowMs => e.submit i nowMs
  | .read key nowMs nowMono =>
    (e.onShard (e.store.shardFor key) fun sh =>
      ((), (sh.getLocked key nowMs nowMono).2.2)).map Prod.snd
  | .reap key nowMs =>
    (e.onShard (e.store.shardFor key) fun sh => sh.reapLocked key nowMs).map Prod.snd
  | .sweep i nowMs sample => (e.onShard i fun sh => sh.sweepLocked nowMs sample).map Prod.snd
  | .purge i nowMs => (e.onShard i fun sh => sh.purgeBatch nowMs).map Prod.snd
  | .wheel key timerExpireAt nowMs =>
    (e.onShard (e.store.shardFor key) fun sh =>
      sh.wheelRemove key timerExpireAt nowMs).map Prod.snd
  | .evictToLimit i =>
    (e.onShard i fun sh => sh.evictToLimit).map Prod.snd
  | .drainTake => e.drainTake
  | .logEvict nowMs => e.logEvict nowMs

end KvStore
