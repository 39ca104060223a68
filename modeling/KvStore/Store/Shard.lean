import KvStore.Common.SlotArray
import KvStore.Common.Links
import KvStore.Common.Keyspace
import KvStore.Store.Hash

/-!
# The shard

Model of `internal/store/entry.go` and `internal/store/shard.go`. An `*Entry` is a
`Ptr`. The memory the pointers refer to is kept field by field: `heap` holds the
record fields of every entry, `slots.pos` and `ttlSlots.pos` the cached indices
`slot` and `ttlSlot`, and `lru.next`, `lru.prev` the intrusive list pointers.
`alloc` is the next pointer that has not been handed out, so every `&Entry{…}` is
fresh; entries that have left the shard stay in memory, as they do in Go while
somebody still points at them.

The calls a shard makes to its `onEvict` callback are recorded, oldest first, in
the field of that name. All methods run with the shard lock held and are modelled
as functions from the shard before to the shard after.
-/

namespace KvStore

open KvStore.Common

/-- `*Entry`. -/
abbrev Ptr := ℕ

/-- `Entry` (entry.go lines 29–53), without the bookkeeping fields `slot`, `ttlSlot`,
    `prev` and `next`. -/
structure Entry where
  key : Bytes
  value : Bytes
  /-- Absolute wall-clock milliseconds, `0` meaning never. -/
  expireAt : UInt64
  /-- Monotonic milliseconds of the last access. -/
  lastAccess : UInt64
  /-- `uint32`. -/
  size : ℕ
  deriving Inhabited, DecidableEq

/-- `unsafe.Sizeof(Entry{})` on a 64-bit platform. -/
def entryStructSize : ℤ := 96

def mapOverhead : ℤ := 64

/-- `EntryCost` (entry.go lines 71–73). -/
def entryCost (keyLen valueLen : ℕ) : ℤ := keyLen + valueLen + entryStructSize + mapOverhead

/-- `Entry.Expired` (entry.go lines 79–81). -/
def Entry.expired (e : Entry) (nowMs : UInt64) : Bool := expiredAt e.expireAt nowMs

/-- Why the store itself removed a key. -/
inductive EvictReason
  | expired
  | evicted
  deriving DecidableEq, Repr

inductive EvictPolicy
  | allKeysLRU
  | volatileLRU
  | noEviction
  deriving DecidableEq, Repr

/-- `shard` (shard.go lines 15–63), without the lock and the hit and miss counters
    that only `STATS` reads. -/
structure Shard where
  heap : Ptr → Entry
  alloc : Ptr
  entries : AList (fun _ : Bytes => Ptr)
  /-- Every entry of the shard, and the field `slot` of all entries. -/
  slots : SlotArray Ptr
  /-- The entries with a deadline, and the field `ttlSlot` of all entries. -/
  ttlSlots : SlotArray Ptr
  /-- `lruHead`, `lruTail`, and the fields `next` and `prev` of all entries. -/
  lru : Links Ptr
  exactLRU : Bool
  memBytes : ℤ
  /-- `0` means unlimited. -/
  budget : ℤ
  lowWater : ℤ
  rng : Draws
  policy : EvictPolicy
  sampleK : ℕ
  batchMax : ℕ
  onEvict : List (Bytes × EvictReason)

/-- `newShard` (lines 81–90), with the draws of its generator. -/
def newShard (sampleK batchMax : ℕ) (rng : Draws) (exactLRU : Bool) (policy : EvictPolicy) :
    Shard where
  heap := fun _ => default
  alloc := 0
  entries := ∅
  slots := ⟨[], fun _ => 0⟩
  ttlSlots := ⟨[], fun _ => 0⟩
  lru := ⟨fun _ => none, fun _ => none, none, none⟩
  exactLRU := exactLRU
  memBytes := 0
  budget := 0
  lowWater := 0
  rng := rng
  policy := policy
  sampleK := sampleK
  batchMax := batchMax
  onEvict := []

namespace Shard

/-- An assignment to fields of the entry `p` points at. -/
def modify (s : Shard) (p : Ptr) (f : Entry → Entry) : Shard :=
  { s with heap := Function.update s.heap p (f (s.heap p)) }

/-- `memBytes.Add(d)`. -/
def addMem (s : Shard) (d : ℤ) : Shard := { s with memBytes := int64 (s.memBytes + d) }

/-- A call of the `onEvict` callback. -/
def fireEvict (s : Shard) (key : Bytes) (reason : EvictReason) : Shard :=
  { s with onEvict := s.onEvict ++ [(key, reason)] }

/-! ## Slot bookkeeping -/

/-- `addSlotLocked` (lines 94–103). -/
def addSlotLocked (s : Shard) (e : Ptr) : Shard :=
  { s with
    slots := s.slots.push e
    ttlSlots := if (s.heap e).expireAt ≠ 0 then s.ttlSlots.push e else s.ttlSlots.forget e }

/-- `removeTTLSlotLocked` (lines 117–126): `e.ttlSlot = -1` also when the index is out
    of range. -/
def removeTTLSlotLocked (s : Shard) (e : Ptr) : Shard :=
  { s with ttlSlots := (s.ttlSlots.remove e).forget e }

/-- `removeSlotLocked` (lines 105–115). -/
def removeSlotLocked (s : Shard) (e : Ptr) : Shard :=
  { s with slots := s.slots.remove e }.removeTTLSlotLocked e

/-- `addTTLSlotLocked` (lines 128–134). -/
def addTTLSlotLocked (s : Shard) (e : Ptr) : Shard :=
  if s.ttlSlots.pos e ≥ 0 then s else { s with ttlSlots := s.ttlSlots.push e }

/-! ## Exact LRU list -/

/-- `lruPushFrontLocked` (lines 138–148). -/
def lruPushFrontLocked (s : Shard) (e : Ptr) : Shard := { s with lru := s.lru.pushFront e }

/-- `lruRemoveLocked` (lines 150–162). -/
def lruRemoveLocked (s : Shard) (e : Ptr) : Shard := { s with lru := s.lru.remove e }

/-- `lruMoveToFrontLocked` (lines 164–170). -/
def lruMoveToFrontLocked (s : Shard) (e : Ptr) : Shard := { s with lru := s.lru.moveToFront e }

/-! ## Removal and eviction -/

/-- `removeEntryLocked` (lines 350–357). -/
def removeEntryLocked (s : Shard) (e : Ptr) : Shard :=
  let s := { s with entries := s.entries.erase (s.heap e).key }
  let s := s.removeSlotLocked e
  let s := if s.exactLRU then s.lruRemoveLocked e else s
  s.addMem (-(s.heap e).size)

/-- The removal block shared by the sweeper, the purge, the lazy reap, the wheel and
    eviction: remove the entry and report its key. -/
def removeAndFire (s : Shard) (e : Ptr) (reason : EvictReason) : Shard :=
  (s.removeEntryLocked e).fireEvict (s.heap e).key reason

/-- The walk over the intrusive list in `pickVictimLocked` (lines 306–317), from the
    tail by `prev`; the list has at most `alloc` members. -/
def lruScan (s : Shard) (protect : Bytes) : ℕ → Option Ptr → Option Ptr
  | 0, _ => none
  | _ + 1, none => none
  | fuel + 1, some e =>
    if (s.heap e).key = protect then s.lruScan protect fuel (s.lru.prev e)
    else if s.policy = .volatileLRU ∧ (s.heap e).expireAt = 0 then
      s.lruScan protect fuel (s.lru.prev e)
    else some e

/-- The sampling loop of `pickVictimLocked` (lines 326–336) with `n` samples to go;
    `best` carries the candidate and its access stamp. -/
def sampleLoop (s : Shard) (pool : List Ptr) (protect : Bytes) :
    ℕ → Draws → Option (Ptr × UInt64) → Option Ptr × Draws
  | 0, rng, best => (best.map Prod.fst, rng)
  | n + 1, rng, best =>
    let (i, rng) := intn rng pool.length
    match pool[i]? with
    | none => s.sampleLoop pool protect n rng best
    | some cand =>
      if (s.heap cand).key = protect then s.sampleLoop pool protect n rng best
      else
        let a := (s.heap cand).lastAccess
        match best with
        | none => s.sampleLoop pool protect n rng (some (cand, a))
        | some (b, bestAccess) =>
          if a < bestAccess then s.sampleLoop pool protect n rng (some (cand, a))
          else s.sampleLoop pool protect n rng (some (b, bestAccess))

/-- `pool` of `pickVictimLocked` (lines 318–321). -/
def pool (s : Shard) : List Ptr :=
  if s.policy = .volatileLRU then s.ttlSlots.items else s.slots.items

/-- `pickVictimLocked` (lines 305–347). -/
def pickVictimLocked (s : Shard) (protect : Bytes) : Option Ptr × Shard :=
  if s.exactLRU then (s.lruScan protect s.alloc s.lru.tail, s)
  else if s.pool.length = 0 then (none, s)
  else
    let (best, rng) := s.sampleLoop s.pool protect s.sampleK s.rng none
    match best with
    | some b => (some b, { s with rng := rng })
    -- Every sample was the protected key: linear probe.
    | none => (s.pool.find? fun cand => (s.heap cand).key ≠ protect, { s with rng := rng })

/-- The loop of `evictLocked` (lines 285–299) with `n` evictions left in the batch. -/
def evictLoop (target : ℤ) (protect : Bytes) : ℕ → Shard → ℕ × Shard
  | 0, s => (0, s)
  | n + 1, s =>
    if s.memBytes > target then
      match s.pickVictimLocked protect with
      | (none, s) => (0, s)
      | (some victim, s) =>
        let (m, s) := evictLoop target protect n (s.removeAndFire victim .evicted)
        (m + 1, s)
    else (0, s)

/-- `evictLocked` (lines 281–300). -/
def evictLocked (s : Shard) (target : ℤ) (protect : Bytes) : ℕ × Shard :=
  if s.policy = .noEviction then (0, s) else evictLoop target protect s.batchMax s

/-- `admitLocked` (lines 252–271). -/
def admitLocked (s : Shard) (delta : ℤ) (protect : Bytes) : Bool × Shard :=
  if s.budget ≤ 0 ∨ delta ≤ 0 then (true, s)
  else if int64 (s.memBytes + delta) ≤ s.budget then (true, s)
  else if s.policy = .noEviction then (false, s)
  else
    let target := int64 (s.lowWater - delta)
    let target := if target < 0 then 0 else target
    let (_, s) := s.evictLocked target protect
    (int64 (s.memBytes + delta) ≤ s.budget, s)

/-! ## Core operations -/

/-- `getLocked` (lines 181–194): the entry when a live one is present, and whether the
    caller has to reap. -/
def getLocked (s : Shard) (key : Bytes) (nowMs nowMono : UInt64) : Option Ptr × Bool × Shard :=
  match s.entries.lookup key with
  | none => (none, false, s)
  | some e =>
    if (s.heap e).expired nowMs then (none, true, s)
    else (some e, false, s.modify e fun x => { x with lastAccess := nowMono })

/-- The TTL index update shared by the overwrite branch of `setLocked` (lines 216–221)
    and by `expireLocked` (lines 376–381). -/
def updateTTLSlot (s : Shard) (e : Ptr) (hadTTL : Bool) (expireAt : UInt64) : Shard :=
  if expireAt ≠ 0 ∧ ¬ hadTTL then s.addTTLSlotLocked e
  else if expireAt = 0 ∧ hadTTL then s.removeTTLSlotLocked e
  else s

/-- The overwrite branch of `setLocked` after admission (lines 211–226). -/
def overwrite (s : Shard) (old : Ptr) (value : Bytes) (expireAt nowMono : UInt64) (cost delta : ℤ) :
    Shard :=
  let hadTTL : Bool := (s.heap old).expireAt ≠ 0
  let s := s.modify old fun x =>
    { x with value := value, expireAt := expireAt, size := uint32 cost, lastAccess := nowMono }
  let s := s.updateTTLSlot old hadTTL expireAt
  let s := if s.exactLRU then s.lruMoveToFrontLocked old else s
  s.addMem delta

/-- The insert branch of `setLocked` after admission (lines 232–247). -/
def insert (s : Shard) (key value : Bytes) (expireAt nowMono : UInt64) (cost : ℤ) : Shard :=
  let e := s.alloc
  let s := { s with
    heap := Function.update s.heap e
      { key := key, value := value, expireAt := expireAt, lastAccess := nowMono,
        size := uint32 cost }
    alloc := s.alloc + 1
    slots := s.slots.forget e
    ttlSlots := s.ttlSlots.forget e
    entries := s.entries.insert key e }
  let s := s.addSlotLocked e
  let s := if s.exactLRU then s.lruPushFrontLocked e else s
  s.addMem cost

/-- `setLocked` (lines 200–248). -/
def setLocked (s : Shard) (key value : Bytes) (expireAt nowMono : UInt64) : Bool × Shard :=
  let cost := entryCost key.length value.length
  match s.entries.lookup key with
  | some old =>
    let delta := cost - (s.heap old).size
    match s.admitLocked delta key with
    | (false, s) => (false, s)
    | (true, s) => (true, s.overwrite old value expireAt nowMono cost delta)
  | none =>
    match s.admitLocked cost key with
    | (false, s) => (false, s)
    | (true, s) => (true, s.insert key value expireAt nowMono cost)

/-- `delLocked` (lines 359–366). -/
def delLocked (s : Shard) (key : Bytes) : Bool × Shard :=
  match s.entries.lookup key with
  | none => (false, s)
  | some e => (true, s.removeEntryLocked e)

/-- `expireLocked` (lines 369–383). -/
def expireLocked (s : Shard) (key : Bytes) (expireAt : UInt64) : Bool × Shard :=
  match s.entries.lookup key with
  | none => (false, s)
  | some e =>
    let hadTTL : Bool := (s.heap e).expireAt ≠ 0
    (true, (s.modify e fun x => { x with expireAt := expireAt }).updateTTLSlot e hadTTL expireAt)

/-- The sampling loop of `sweepLocked` (lines 396–401) with `n` samples to go. -/
def sweepSample (s : Shard) (nowMs : UInt64) : ℕ → Draws → List Ptr × Draws
  | 0, rng => ([], rng)
  | n + 1, rng =>
    let (i, rng) := intn rng s.ttlSlots.items.length
    let (rest, rng) := s.sweepSample nowMs n rng
    match s.ttlSlots.items[i]? with
    | none => (rest, rng)
    | some e => if (s.heap e).expired nowMs then (e :: rest, rng) else (rest, rng)

/-- The removal loop of `sweepLocked` (lines 402–414). -/
def sweepRemove (s : Shard) : List Ptr → Shard
  | [] => s
  | e :: victims =>
    if s.slots.pos e < 0 then s.sweepRemove victims
    else (s.removeAndFire e .expired).sweepRemove victims

/-- `sweepLocked` (lines 388–416): the numbers sampled and expired. -/
def sweepLocked (s : Shard) (nowMs : UInt64) (sample : ℕ) : (ℕ × ℕ) × Shard :=
  if s.ttlSlots.items.length = 0 then ((0, 0), s)
  else
    let sample := if sample > s.ttlSlots.items.length then s.ttlSlots.items.length else sample
    let (victims, rng) := s.sweepSample nowMs sample s.rng
    ((sample, victims.length), { s with rng := rng }.sweepRemove victims)

/-- `reapLocked` (lines 420–432). -/
def reapLocked (s : Shard) (key : Bytes) (nowMs : UInt64) : Bool × Shard :=
  match s.entries.lookup key with
  | none => (false, s)
  | some e =>
    if (s.heap e).expired nowMs then (true, s.removeAndFire e .expired) else (false, s)

/-- `flushLocked` (lines 434–440). -/
def flushLocked (s : Shard) : Shard :=
  { s with
    entries := ∅
    slots := { s.slots with items := [] }
    ttlSlots := { s.ttlSlots with items := [] }
    lru := { s.lru with head := none, tail := none }
    memBytes := 0 }

/-- The removal loop of `PurgeExpired` (expiry.go lines 184–196) from index `j - 1`
    down, stopping after `batch` removals: the number removed. -/
def purgeLoop (nowMs : UInt64) (batch : ℕ) : ℕ → Shard → ℕ → ℕ × Shard
  | 0, s, removed => (removed, s)
  | j + 1, s, removed =>
    if removed < batch then
      match s.ttlSlots.items[j]? with
      | none => purgeLoop nowMs batch j s removed
      | some e =>
        if (s.heap e).expired nowMs then
          purgeLoop nowMs batch j (s.removeAndFire e .expired) (removed + 1)
        else purgeLoop nowMs batch j s removed
    else (removed, s)

/-- One batch of `PurgeExpired` under the shard lock. -/
def purgeBatch (s : Shard) (nowMs : UInt64) : ℕ × Shard :=
  purgeLoop nowMs 1024 s.ttlSlots.items.length s 0

/-- The removal `WheelExpirer.RunOnce` attempts for a due timer (wheel.go
    lines 248–268). -/
def wheelRemove (s : Shard) (key : Bytes) (timerExpireAt nowMs : UInt64) : Bool × Shard :=
  match s.entries.lookup key with
  | none => (false, s)
  | some e =>
    if (s.heap e).expireAt ≠ timerExpireAt then (false, s)
    else if (s.heap e).expired nowMs then (true, s.removeAndFire e .expired)
    else (false, s)

end Shard

end KvStore
