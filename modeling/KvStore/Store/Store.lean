import KvStore.Common.Float64
import KvStore.Store.Contents
import KvStore.Store.Wheel

/-!
# The store

Model of `internal/store/store.go` with the parts of `expiry.go`, `wheel.go` and
`memory.go` that drive it. The shards are a function of their index; the three
engines (`sharded`, `global`, `actor`) run the same closures and differ only in how
they exclude each other, so a closure under a shard's lock is one step here. Clock
readings are arguments: `nowMs` for `NowMillis`, `nowMono` for `MonoMillis`.

`Get`, `Exists` and `TTL` take the lock twice, first shared and then, when the read
saw a dead entry, exclusively to reap it. The two passes are separate definitions, so
that other clients can run in between.
-/

namespace KvStore

open KvStore.Common

/-- `config.StoreEngine`. -/
inductive StoreEngine
  | sharded
  | global
  | actor
  deriving DecidableEq, Repr

/-- `Options` (lines 36–48). -/
structure Options where
  engine : StoreEngine
  shards : ℕ
  seed : UInt64
  maxMemory : ℤ
  lowWater : ℤ
  policy : EvictPolicy
  exactLRU : Bool
  evictSampleK : ℕ
  evictBatch : ℕ

/-- The smallest configuration: one shard, no memory limit. -/
def oneShard : Options where
  engine := .sharded
  shards := 1
  seed := 1
  maxMemory := 0
  lowWater := 0
  policy := .allKeysLRU
  exactLRU := false
  evictSampleK := 5
  evictBatch := 200

/-- `int64(float64(o.MaxMemory) * 0.95)` (line 80). The significand of the constant `0.95` is
    `0x1E666666666666`, its exponent `-53`. -/
def defaultLowWater (maxMemory : ℤ) : ℤ :=
  (float64 (float64 maxMemory.toNat * 0x1E666666666666) / 2 ^ 53 : ℕ)

/-- `withDefaults` (lines 50–82); `newSeed` is what `NewSeed` draws. The engine and the policy have
    no empty name here, and the queue of the actors and the clock are not part of the options. -/
def Options.withDefaults (o : Options) (newSeed : UInt64) : Options :=
  let o := if o.engine = .global then { o with shards := 1 } else o
  let o := if o.shards = 0 then { o with shards := 16 } else o
  let o := if o.seed = 0 then { o with seed := newSeed } else o
  let o := if o.evictSampleK = 0 then { o with evictSampleK := 5 } else o
  let o := if o.evictBatch = 0 then { o with evictBatch := 200 } else o
  if o.maxMemory > 0 ∧ o.lowWater ≤ 0 then { o with lowWater := defaultLowWater o.maxMemory } else o

section

variable (o : Options) (newSeed : UInt64)

@[simp]
theorem withDefaults_shards : (o.withDefaults newSeed).shards =
    if o.engine = .global then 1 else if o.shards = 0 then 16 else o.shards := by
  simp only [Options.withDefaults, apply_ite Options.shards, ite_self]
  by_cases hglobal : o.engine = .global
  · simp only [if_pos hglobal, one_ne_zero, if_false]
  · simp only [if_neg hglobal]

@[simp]
theorem withDefaults_maxMemory : (o.withDefaults newSeed).maxMemory = o.maxMemory := by
  simp only [Options.withDefaults, apply_ite Options.maxMemory, ite_self]

@[simp]
theorem withDefaults_policy : (o.withDefaults newSeed).policy = o.policy := by
  simp only [Options.withDefaults, apply_ite Options.policy, ite_self]

@[simp]
theorem withDefaults_lowWater : (o.withDefaults newSeed).lowWater =
    if o.maxMemory > 0 ∧ o.lowWater ≤ 0 then defaultLowWater o.maxMemory else o.lowWater := by
  simp only [Options.withDefaults, apply_ite Options.lowWater, apply_ite Options.maxMemory,
    ite_self]

end

/-- The default low-water mark is not above the limit. -/
theorem defaultLowWater_le {maxMemory : ℤ} (h : 0 < maxMemory) :
    0 ≤ defaultLowWater maxMemory ∧ defaultLowWater maxMemory ≤ maxMemory := by
  obtain ⟨n, rfl⟩ := Int.eq_ofNat_of_zero_le h.le
  have hmemory := float64_le n
  have hproduct := float64_le (float64 n * 0x1E666666666666)
  have hdiv := Nat.div_mul_le_self (float64 (float64 n * 0x1E666666666666)) (2 ^ 53)
  unfold defaultLowWater
  rw [Int.toNat_natCast]
  refine ⟨Int.natCast_nonneg _, Int.ofNat_le.mpr ?_⟩
  omega

/-- `Store` (lines 99–111). `wheel` is the timing wheel whose `Add` is registered with
    `SetOnTTL`. -/
structure Store where
  shards : ℕ → Shard
  shardCount : ℕ
  mask : UInt64
  seed : UInt64
  wheel : Option Wheel

/-- `New` (lines 143–190). -/
def newStore (opts : Options) (newSeed : UInt64) : Store :=
  let opts := opts.withDefaults newSeed
  { shards := fun i =>
      let sh := newShard opts.evictSampleK opts.evictBatch
        (splitmix64 ((opts.seed + UInt64.ofNat i * 0x9E3779B97F4A7C15) ||| 1)) opts.exactLRU
        opts.policy
      if opts.maxMemory > 0 then
        { sh with
          budget := max 1 (opts.maxMemory.tdiv opts.shards)
          lowWater := opts.lowWater.tdiv opts.shards }
      else sh
    shardCount := opts.shards
    mask := UInt64.ofNat (opts.shards - 1)
    seed := opts.seed
    wheel := none }

namespace Store

/-- `NewWheelExpirer` (wheel.go lines 177–199) on a store without keys. -/
def attachWheel (s : Store) (tick nowMs : UInt64) : Store :=
  { s with wheel := some (newWheel (if tick = 0 then 10 else tick) nowMs) }

/-- `shardFor` (lines 244–250). -/
def shardFor (s : Store) (key : Bytes) : ℕ :=
  if s.shardCount = 1 then 0 else (hash64 s.seed key &&& s.mask).toNat

/-- `withWrite` and `withRead` (lines 259–293): run `fn` on shard `i`. A reader, too, may
    leave an access time behind. -/
def withShard {α : Type} (s : Store) (i : ℕ) (fn : Shard → α × Shard) : α × Store :=
  let r := fn (s.shards i)
  (r.1, { s with shards := Function.update s.shards i r.2 })

/-- `fireTTL` (lines 223–230). -/
def fireTTL (s : Store) (key : Bytes) (expireAt : UInt64) : Store :=
  if expireAt = 0 then s
  else
    match s.wheel with
    | none => s
    | some w => { s with wheel := some (w.add key expireAt) }

/-! ## Operations on one key -/

/-- The read pass of `Get` (lines 304–316): the value, and whether to reap. -/
def getRead (s : Store) (key : Bytes) (nowMs nowMono : UInt64) : (Option Bytes × Bool) × Store :=
  s.withShard (s.shardFor key) fun sh =>
    let (e, reap, sh') := sh.getLocked key nowMs nowMono
    ((e.map fun e => (sh.heap e).value, reap), sh')

/-- The read pass of `Exists` (lines 365–372). -/
def existsRead (s : Store) (key : Bytes) (nowMs nowMono : UInt64) : (Bool × Bool) × Store :=
  s.withShard (s.shardFor key) fun sh =>
    let (e, reap, sh') := sh.getLocked key nowMs nowMono
    ((e.isSome, reap), sh')

end Store

/-- The remaining lifetime `TTL` reports for a deadline: `-1` without one, and `int64`
    subtraction clamped at zero with one (lines 411–419, reference.go lines 110–117). -/
def ttlMillis (expireAt nowMs : UInt64) : ℤ :=
  if expireAt = 0 then -1
  else
    let ms := int64 (int64 expireAt.toNat - int64 nowMs.toNat)
    if ms < 0 then 0 else ms

/-- The body of `Delete` under the lock (lines 350–359; `Txn.Delete`, lines 582–589). -/
def Shard.txnDelete (sh : Shard) (key : Bytes) (nowMs : UInt64) : Bool × Shard :=
  match sh.entries.lookup key with
  | some e => if (sh.heap e).expired nowMs then (false, sh.removeEntryLocked e) else sh.delLocked key
  | none => sh.delLocked key

/-- The body of `Expire` under the lock (lines 386–393; `Txn.Expire`, lines 592–599). -/
def Shard.txnExpire (sh : Shard) (key : Bytes) (expireAt nowMs : UInt64) : Bool × Shard :=
  match sh.entries.lookup key with
  | some e =>
    if (sh.heap e).expired nowMs then (false, (sh.reapLocked key nowMs).2)
    else sh.expireLocked key expireAt
  | none => sh.expireLocked key expireAt

/-- The body of `EvictToLimit` under the lock (memory.go lines 117–122). -/
def Shard.evictToLimit (sh : Shard) : ℕ × Shard :=
  if sh.budget ≤ 0 ∨ sh.memBytes ≤ sh.budget then (0, sh) else sh.evictLocked sh.lowWater []

namespace Store

/-- The read pass of `TTL` (lines 403–421). -/
def ttlRead (s : Store) (key : Bytes) (nowMs nowMono : UInt64) :
    (Option ℤ × Bool) × Store :=
  s.withShard (s.shardFor key) fun sh =>
    let (e, reap, sh') := sh.getLocked key nowMs nowMono
    ((e.map fun e => ttlMillis (sh.heap e).expireAt nowMs, reap), sh')

/-- The reap pass of `Get`, `Exists` and `TTL` (lines 317–321, 373–375, 422–424). -/
def reap (s : Store) (key : Bytes) (nowMs : UInt64) : Store :=
  (s.withShard (s.shardFor key) fun sh => sh.reapLocked key nowMs).2

/-- `Set` (lines 327–342); `false` is `ErrOOM`. -/
def set (s : Store) (key value : Bytes) (expireAt nowMono : UInt64) : Bool × Store :=
  let (ok, s) := s.withShard (s.shardFor key) fun sh => sh.setLocked key value expireAt nowMono
  if ok then (true, s.fireTTL key expireAt) else (false, s)

/-- `Delete` (lines 345–361). -/
def delete (s : Store) (key : Bytes) (nowMs : UInt64) : Bool × Store :=
  s.withShard (s.shardFor key) fun sh => sh.txnDelete key nowMs

/-- `Expire` (lines 381–398). -/
def expire (s : Store) (key : Bytes) (expireAt nowMs : UInt64) : Bool × Store :=
  let (ok, s) := s.withShard (s.shardFor key) fun sh => sh.txnExpire key expireAt nowMs
  if ok then (true, s.fireTTL key expireAt) else (false, s)

/-- `SetMemoryLimit` (memory.go lines 90–109), with the low-water mark it computes. -/
def setMemoryLimit (s : Store) (maxMemory lowWater : ℤ) : Store :=
  { s with shards := fun i =>
      if maxMemory ≤ 0 then { s.shards i with budget := 0, lowWater := 0 }
      else
        { s.shards i with
          budget := max 1 (maxMemory.tdiv s.shardCount)
          lowWater := lowWater.tdiv s.shardCount } }

/-! ## Operations on a whole shard -/

/-- One round of the sweeper on shard `i` (expiry.go lines 128–132). -/
def sweep (s : Store) (i : ℕ) (nowMs : UInt64) (sample : ℕ) : (ℕ × ℕ) × Store :=
  s.withShard i fun sh => sh.sweepLocked nowMs sample

/-- `EvictToLimit` on shard `i`. -/
def evictToLimit (s : Store) (i : ℕ) : ℕ × Store := s.withShard i fun sh => sh.evictToLimit

/-- One locked batch of `PurgeExpired` on shard `i` (expiry.go lines 179–197). -/
def purgeStep (s : Store) (i : ℕ) (nowMs : UInt64) : ℕ × Store :=
  s.withShard i fun sh => sh.purgeBatch nowMs

/-- The batches of `PurgeExpired` on shard `i` (expiry.go lines 177–202); a full batch
    is followed by another one. -/
def purgeShard (nowMs : UInt64) (i : ℕ) : ℕ → Store → ℕ × Store
  | 0, s => (0, s)
  | fuel + 1, s =>
    let (removed, s) := s.purgeStep i nowMs
    if removed < 1024 then (removed, s)
    else
      let (more, s) := purgeShard nowMs i fuel s
      (removed + more, s)

/-- The loop of `PurgeExpired` over the shards still to visit. Every full batch leaves
    at least 1024 keys fewer, so one batch more than there are keys is enough. -/
def purgeLoop (nowMs : UInt64) : List ℕ → Store → ℕ × Store
  | [], s => (0, s)
  | i :: rest, s =>
    let (n, s) := purgeShard nowMs i ((s.shards i).ttlSlots.items.length + 1) s
    let (m, s) := purgeLoop nowMs rest s
    (n + m, s)

/-- `PurgeExpired` (expiry.go lines 172–205). -/
def purgeExpired (s : Store) (nowMs : UInt64) : ℕ × Store :=
  purgeLoop nowMs (List.range s.shardCount) s

/-- The removals of `RunOnce` for the timers that came due (wheel.go lines 244–275). -/
def fireTimers (nowMs : UInt64) : List WheelTimer → Store → ℕ × Store
  | [], s => (0, s)
  | t :: rest, s =>
    let (removed, s) := s.withShard (s.shardFor t.key) fun sh =>
      sh.wheelRemove t.key t.expireAt nowMs
    let (n, s) := fireTimers nowMs rest s
    (if removed then n + 1 else n, s)

/-- `RunOnce` (wheel.go lines 236–277). -/
def runOnce (s : Store) (nowMs : UInt64) : ℕ × Store :=
  match s.wheel with
  | none => (0, s)
  | some w =>
    let (due, w) := w.advance nowMs
    fireTimers nowMs due { s with wheel := some w }

/-! ## Scans -/

/-- The inner loop of `Keys` (lines 441–452) over the slots still to visit. -/
def keysLoop (sh : Shard) (pre : Bytes) (limit : ℕ) (nowMs : UInt64) :
    List Ptr → List Bytes → List Bytes
  | [], out => out
  | e :: rest, out =>
    if out.length ≥ limit then out
    else if (sh.heap e).expired nowMs then keysLoop sh pre limit nowMs rest out
    else if pre.length > 0 ∧ ¬ pre.isPrefixOf (sh.heap e).key then
      keysLoop sh pre limit nowMs rest out
    else keysLoop sh pre limit nowMs rest (out ++ [(sh.heap e).key])

/-- The outer loop of `Keys` over the shards still to visit. -/
def keysShards (s : Store) (pre : Bytes) (limit : ℕ) (nowMs : UInt64) :
    List ℕ → List Bytes → List Bytes
  | [], out => out
  | i :: rest, out =>
    if out.length ≥ limit then out
    else
      keysShards s pre limit nowMs rest
        (keysLoop (s.shards i) pre limit nowMs (s.shards i).slots.items out)

/-- `Keys` (lines 430–456). -/
def keys (s : Store) (pre : Bytes) (limit : ℤ) (nowMs : UInt64) : List Bytes :=
  let limit : ℕ := if limit ≤ 0 then 100 else limit.toNat
  keysShards s pre limit nowMs (List.range s.shardCount) []

end Store

end KvStore
