import KvStore.Common.Run
import KvStore.Store.Filled
import KvStore.Store.Reference
import KvStore.Store.Scan

/-!
# The store refines the reference

A `Pair` drives a store without a memory limit and the reference with the same
operations and records what each of them returned. The read pass of `Get`, `Exists`
and `TTL` and the reap it may ask for are separate actions, sweeps, purges and wheel
runs happen at any moment, and the wall clock never goes back.

The simulation relation is `Pair.Sim`: at the current clock the two show the same
keyspace. Entries that are dead but not yet reaped are hidden by it on both sides.

* `store_refines_reference`: the recorded replies agree, and `Keys` lists exactly the
  reference's keys with the prefix, without duplicates.
-/

namespace KvStore

open KvStore.Common

/-- What an operation returned. A missing key has no value and no lifetime. -/
inductive Reply
  | value (v : Option Bytes)
  | flag (b : Bool)
  | lifetime (ms : Option ℤ)
  deriving DecidableEq, Repr

/-- Both stores, the last clock reading, the reaps still to come with the readings they
    were decided at, and the replies of the store and of the reference so far. -/
structure Pair where
  store : Store
  ref : Reference
  clock : UInt64
  pending : List (Bytes × UInt64)
  replies : List (Reply × Reply)

/-- The operations, and what can happen between them. -/
inductive PairAction
  | get (key : Bytes) (now mono : UInt64)
  | set (key value : Bytes) (expireAt mono : UInt64)
  | delete (key : Bytes) (now : UInt64)
  | exists_ (key : Bytes) (now mono : UInt64)
  | expire (key : Bytes) (expireAt now : UInt64)
  | ttl (key : Bytes) (now mono : UInt64)
  | reap (i : ℕ)
  | sweep (i : ℕ) (now : UInt64) (sample : ℕ) (rng : Draws)
  | purge (now : UInt64)
  | runOnce (now : UInt64)

/-- The clock reading an action takes. -/
def PairAction.now (clock : UInt64) : PairAction → UInt64
  | .get _ now _ => now
  | .delete _ now => now
  | .exists_ _ now _ => now
  | .expire _ _ now => now
  | .ttl _ now _ => now
  | .sweep _ now _ _ => now
  | .purge now => now
  | .runOnce now => now
  | _ => clock

namespace Pair

/-- Record a read pass and the reap it may ask for. -/
def read (p : Pair) (key : Bytes) (now : UInt64) (reap : Bool) (store : Store) (ref : Reference)
    (reply : Reply × Reply) : Pair :=
  { store := store, ref := ref, clock := now
    pending := if reap then p.pending ++ [(key, now)] else p.pending
    replies := p.replies ++ [reply] }

/-- The effect of an action. -/
def act (p : Pair) : PairAction → Pair
  | .get key now mono =>
    let ((v, reap), store) := p.store.getRead key now mono
    let (v', ref) := p.ref.get key now
    p.read key now reap store ref (.value v, .value v')
  | .exists_ key now mono =>
    let ((b, reap), store) := p.store.existsRead key now mono
    let (b', ref) := p.ref.exists_ key now
    p.read key now reap store ref (.flag b, .flag b')
  | .ttl key now mono =>
    let ((ms, reap), store) := p.store.ttlRead key now mono
    let (ms', ref) := p.ref.ttl key now
    p.read key now reap store ref (.lifetime ms, .lifetime ms')
  | .set key value expireAt mono =>
    let (ok, store) := p.store.set key value expireAt mono
    { p with
      store := store
      ref := p.ref.set key value expireAt
      replies := p.replies ++ [(.flag ok, .flag true)] }
  | .delete key now =>
    let (b, store) := p.store.delete key now
    let (b', ref) := p.ref.delete key now
    { p with store := store, ref := ref, clock := now, replies := p.replies ++ [(.flag b, .flag b')] }
  | .expire key expireAt now =>
    let (b, store) := p.store.expire key expireAt now
    let (b', ref) := p.ref.expire key expireAt now
    { p with store := store, ref := ref, clock := now, replies := p.replies ++ [(.flag b, .flag b')] }
  | .reap i =>
    match p.pending[i]? with
    | none => p
    | some (key, now) =>
      { p with store := p.store.reap key now, pending := p.pending.eraseIdx i }
  | .sweep i now sample rng =>
    let store := p.store.put i { p.store.shards i with rng := rng }
    { p with store := (store.sweep i now sample).2, clock := now }
  | .purge now => { p with store := (p.store.purgeExpired now).2, clock := now }
  | .runOnce now => { p with store := (p.store.runOnce now).2, clock := now }

/-- The clock does not go back. -/
def step (p : Pair) (a : PairAction) : Option Pair :=
  if p.clock ≤ a.now p.clock then some (p.act a) else none

/-- A new store, with any wheel registered, next to a new reference. -/
def init (o : Options) (newSeed : UInt64) (wheel : Option Wheel) : Pair :=
  { store := { newStore o newSeed with wheel := wheel }
    ref := newReference
    clock := 0
    pending := []
    replies := [] }

end Pair

/-- The bound below which slot indices are exact: no `Set` leaves `2^31` entries or more
    in a shard. -/
def PairAction.Fits (p : Pair) : PairAction → Prop
  | .set key value expireAt mono =>
    ((p.store.shards (p.store.shardFor key)).setLocked key value expireAt
      mono).2.entries.keys.length < 2 ^ 31
  | _ => True

/-! ## The simulation -/

/-- Both sides show the same keyspace, and have always replied the same. -/
structure Pair.Sim (p : Pair) : Prop where
  plain : p.store.Plain
  agree : Keyspace.Agree p.clock p.store.contents p.ref.contents
  pending : ∀ r ∈ p.pending, r.2 ≤ p.clock
  replies : ∀ r ∈ p.replies, r.1 = r.2

variable {p q : Pair}

theorem Pair.Sim.init (o : Options) (newSeed : UInt64) (wheel : Option Wheel)
    (hmem : o.maxMemory ≤ 0) : (Pair.init o newSeed wheel).Sim where
  plain := (newStore_plain o newSeed hmem).of_wheel wheel
  agree k := by
    have hs : (newStore o newSeed).contents k = none := newStore_contents o newSeed k
    show liveAt 0 ((newStore o newSeed).contents k) = liveAt 0 none
    rw [hs]
  pending := by simp [Pair.init]
  replies := by simp [Pair.init]

/-- A read pass: the same visible entry on both sides. -/
theorem Pair.Sim.read (h : p.Sim) (key : Bytes) {now : UInt64} (mono : UInt64)
    (hnow : p.clock ≤ now) {f g : Reply} (hfg : f = g) :
    (p.read key now
      ((p.store.shards (p.store.shardFor key)).getLocked key now mono).2.1
      (p.store.put (p.store.shardFor key)
        ((p.store.shards (p.store.shardFor key)).getLocked key now mono).2.2)
      (p.ref.live key now).2 (f, g)).Sim := by
  obtain ⟨hplain, hcont⟩ := h.plain.read key now mono
  refine ⟨hplain, fun k => ?_, fun r hr => ?_, fun r hr => ?_⟩
  · show liveAt now ((p.store.put _ _).contents k) = liveAt now ((p.ref.live key now).2.contents k)
    rw [hcont, live_visible p.ref key (UInt64.le_refl now)]
    exact h.agree.later hnow k
  · have hr' : r ∈ p.pending ∨ r = (key, now) := by
      simp only [Pair.read] at hr
      split_ifs at hr
      · simpa using hr
      · exact Or.inl hr
    rcases hr' with hr | rfl
    · exact UInt64.le_trans (h.pending r hr) hnow
    · exact UInt64.le_refl now
  · rcases List.mem_append.mp hr with hr | hr
    · exact h.replies r hr
    · rw [List.mem_singleton] at hr
      rw [hr]; exact hfg

/-- What the two read passes see is the same entry. -/
theorem Pair.Sim.read_eq (h : p.Sim) (key : Bytes) {now : UInt64} (mono : UInt64)
    (hnow : p.clock ≤ now) :
    ((p.store.shards (p.store.shardFor key)).getLocked key now mono).1.map (fun e =>
        (((p.store.shards (p.store.shardFor key)).heap e).value,
          ((p.store.shards (p.store.shardFor key)).heap e).expireAt)) =
      (p.ref.live key now).1.map fun e => (e.value, e.expireAt) := by
  rw [(getLocked_effect (h.plain.index _).toKeyInv key now mono).2.1, (live_spec p.ref key now).1]
  exact h.agree.later hnow key

/-- Reaping leaves the simulation alone. -/
theorem Pair.Sim.reaps (h : p.Sim) {now : UInt64} {store : Store} {pending : List (Bytes × UInt64)}
    {clock : UInt64} (hr : p.store.Reaps now store) (hnow : now ≤ clock) (hclock : p.clock ≤ clock)
    (hpending : ∀ r ∈ pending, r ∈ p.pending) :
    ({ p with store := store, clock := clock, pending := pending } : Pair).Sim :=
  ⟨hr.plain, fun k => (hr.live hnow k).trans (h.agree.later hclock k),
    fun r hr => UInt64.le_trans (h.pending r (hpending r hr)) hclock, h.replies⟩

theorem Pair.Sim.reply (h : p.Sim) {now : UInt64} (hnow : p.clock ≤ now) {store : Store}
    {ref : Reference} {r : Reply × Reply} (hplain : store.Plain)
    (hagree : Keyspace.Agree now store.contents ref.contents) (hreply : r.1 = r.2) :
    ({ p with store := store, ref := ref, clock := now, replies := p.replies ++ [r] } : Pair).Sim := by
  refine ⟨hplain, hagree, fun x hx => UInt64.le_trans (h.pending x hx) hnow, fun x hx => ?_⟩
  rcases List.mem_append.mp hx with hx | hx
  · exact h.replies x hx
  · rw [List.mem_singleton] at hx
    rw [hx]; exact hreply

theorem Pair.Sim.act (h : p.Sim) (a : PairAction) (ha : a.Fits p) (hnow : p.clock ≤ a.now p.clock) :
    (p.act a).Sim := by
  cases a with
  | get key now mono =>
    have hv := congrArg (Option.map Prod.fst) (h.read_eq key mono hnow)
    rw [Option.map_map, Option.map_map] at hv
    exact h.read key mono hnow (congrArg Reply.value hv)
  | exists_ key now mono =>
    have hb := congrArg Option.isSome (h.read_eq key mono hnow)
    rw [Option.isSome_map, Option.isSome_map] at hb
    exact h.read key mono hnow (congrArg Reply.flag hb)
  | ttl key now mono =>
    have hms := congrArg (Option.map fun d => ttlMillis d.2 now) (h.read_eq key mono hnow)
    rw [Option.map_map, Option.map_map] at hms
    exact h.read key mono hnow (congrArg Reply.lifetime hms)
  | set key value expireAt mono =>
    obtain ⟨hok, -, hcont⟩ := h.plain.keyed.set key value expireAt mono
    have hplain := h.plain.set key value expireAt mono ha
    have hagree : Keyspace.Agree p.clock (p.store.set key value expireAt mono).2.contents
        (p.ref.set key value expireAt).contents := by
      rw [hcont, Reference.set, contents_insert]
      exact h.agree.update key rfl
    exact h.reply (UInt64.le_refl _) hplain hagree (congrArg Reply.flag hok)
  | delete key now =>
    have hagree : Keyspace.Agree now p.store.contents p.ref.contents := h.agree.later hnow
    obtain ⟨hres, -, hcont⟩ := h.plain.keyed.delete key now
    have hplain := h.plain.delete key now
    obtain ⟨hres', hcont'⟩ := reference_delete p.ref key now
    have hflag : (p.store.delete key now).1 = (p.ref.delete key now).1 := by
      rw [hres, hres', hagree key]
    have hagree' : Keyspace.Agree now (p.store.delete key now).2.contents
        (p.ref.delete key now).2.contents := by
      rw [hcont, hcont']
      exact hagree.update key rfl
    exact h.reply hnow hplain hagree' (congrArg Reply.flag hflag)
  | expire key expireAt now =>
    have hagree : Keyspace.Agree now p.store.contents p.ref.contents := h.agree.later hnow
    obtain ⟨hres, -, hcont⟩ := h.plain.keyed.expire key expireAt now
    have hplain := h.plain.expire key expireAt now
    obtain ⟨hres', hcont'⟩ := reference_expire p.ref key expireAt now
    have hflag : (p.store.expire key expireAt now).1 = (p.ref.expire key expireAt now).1 := by
      rw [hres, hres', hagree key]
    have hagree' : Keyspace.Agree now (p.store.expire key expireAt now).2.contents
        (p.ref.expire key expireAt now).2.contents := by
      rw [hcont, hcont']
      exact hagree.expire key expireAt
    exact h.reply hnow hplain hagree' (congrArg Reply.flag hflag)
  | reap i =>
    show Pair.Sim (match p.pending[i]? with
      | none => p
      | some (key, now) =>
        { p with store := p.store.reap key now, pending := p.pending.eraseIdx i })
    split
    · exact h
    · rename_i key now hi
      exact h.reaps (h.plain.reap key now) (h.pending _ (List.mem_of_getElem? hi))
        (UInt64.le_refl _) fun r hr => List.mem_of_mem_eraseIdx hr
  | sweep i now sample rng =>
    -- the draws are no part of the index or of the contents
    obtain ⟨hplain, hcont⟩ := h.plain.put_same (i := i)
      ((h.plain.index i).congr (t := { p.store.shards i with rng := rng }) rfl rfl rfl rfl rfl)
      ((Removed.of_rng .expired (p.store.shards i) rng).effect (h.plain.index i).toKeyInv)
    have hsim : ({ p with store := p.store.put i { p.store.shards i with rng := rng } } : Pair).Sim :=
      ⟨hplain, by rw [hcont]; exact h.agree, h.pending, h.replies⟩
    exact hsim.reaps (hsim.plain.sweep i now sample) (UInt64.le_refl _) hnow fun _ hr => hr
  | purge now =>
    exact h.reaps (h.plain.purgeExpired now) (UInt64.le_refl _) hnow fun _ hr => hr
  | runOnce now =>
    exact h.reaps (h.plain.runOnce now) (UInt64.le_refl _) hnow fun _ hr => hr

theorem Pair.Sim.run {p q : Pair} (h : Run Pair.step (fun p a => a.Fits p) p q) (hp : p.Sim) : q.Sim := by
  refine h.invariant (fun p a q hp ha hq => ?_) hp
  unfold Pair.step at hq
  split_ifs at hq with hnow
  cases hq
  exact hp.act a ha hnow

/-- `Keys` on both sides. -/
theorem Pair.Sim.keys (h : p.Sim) (pre : Bytes) {limit : ℤ} {now : UInt64} (hnow : p.clock ≤ now)
    (hlimit : ((p.ref.keys now).1.length : ℤ) < limit) :
    (p.store.keys pre limit now).Nodup ∧
      ∀ k, k ∈ p.store.keys pre limit now ↔ k ∈ (p.ref.keys now).1 ∧ pre <+: k := by
  obtain ⟨hnodup, hmem⟩ := reference_keys p.ref now
  have hvis : ∀ k, k ∈ p.store.visibleKeys pre now ↔ k ∈ (p.ref.keys now).1 ∧ pre <+: k := by
    intro k
    rw [h.plain.mem_visibleKeys, hmem, h.agree.later hnow k]
  have hnd := h.plain.nodup_visibleKeys pre now
  -- the listed keys are among the reference's, so there are no more of them
  have hlen : (p.store.visibleKeys pre now).length ≤ (p.ref.keys now).1.length :=
    (hnd.subperm fun k hk => ((hvis k).mp hk).1).length_le
  rw [keys_eq _ _ _ _ (by omega)]
  exact ⟨hnd, hvis⟩

/-- Whatever happens in between, the store replies as the reference does, and its `Keys`
    lists the reference's keys. -/
theorem store_refines_reference (o : Options) (newSeed : UInt64) (wheel : Option Wheel)
    (hmem : o.maxMemory ≤ 0) {p : Pair}
    (h : Run Pair.step (fun p a => a.Fits p) (Pair.init o newSeed wheel) p) :
    (∀ r ∈ p.replies, r.1 = r.2) ∧
      ∀ (pre : Bytes) (limit : ℤ) (now : UInt64), p.clock ≤ now →
        ((p.ref.keys now).1.length : ℤ) < limit →
        (p.store.keys pre limit now).Nodup ∧
          ∀ k, k ∈ p.store.keys pre limit now ↔ k ∈ (p.ref.keys now).1 ∧ pre <+: k := by
  have hsim := Pair.Sim.run h (Pair.Sim.init o newSeed wheel hmem)
  exact ⟨hsim.replies, fun pre limit now hnow hlimit => hsim.keys pre hnow hlimit⟩

/-- A key is written with a deadline, read, read again after the deadline, and reaped. -/
theorem store_refines_reference_reaped :
    let p := ((((Pair.init oneShard 1 none).act (.set [1] [2] 5 0)).act (.get [1] 3 0)).act
      (.get [1] 7 0)).act (.reap 0)
    p.replies.length = 3 ∧ (∀ r ∈ p.replies, r.1 = r.2) ∧ [1] ∉ p.store.keys [] 9 8 := by
  intro p
  have hrun : Run Pair.step (fun p a => a.Fits p) (Pair.init oneShard 1 none) p :=
    (((Run.refl.tail (.set [1] [2] 5 0) (by show _ < _; decide) rfl).tail (.get [1] 3 0) trivial
      rfl).tail (.get [1] 7 0) trivial rfl).tail (.reap 0) trivial rfl
  obtain ⟨h1, h2⟩ := store_refines_reference oneShard 1 none (by decide) hrun
  have hkeys : (p.ref.keys 8).1 = [] := by decide
  refine ⟨by decide, h1, fun hk => ?_⟩
  have hmem := (((h2 [] 9 8 (by decide) (by rw [hkeys]; decide)).2 [1]).mp hk).1
  rw [hkeys] at hmem
  cases hmem

/-! ## Beyond the bound

A slot index is an `int32`. From the `2^31`-th entry of a shard on it is negative, a
removed entry is then left in `slots`, and `Keys` still lists it. -/

/-- `n` keys without deadline were written, one after another. -/
structure Filled (n : ℕ) (p : Pair) : Prop where
  count : p.store.shardCount = 1
  clock : p.clock = 0
  shard : (p.store.shards 0).Filled n
  ref : p.ref.data.keys.length ≤ n

theorem filled_zero : Filled 0 (Pair.init oneShard 1 none) :=
  ⟨rfl, rfl, filled_newShard _ _ _ _ _, Nat.le_refl 0⟩

theorem length_keys_insert_le {α : Type} {β : α → Type} [DecidableEq α] (a : α) (b : β a)
    (m : AList β) : (m.insert a b).keys.length ≤ m.keys.length + 1 := by
  rw [AList.keys_insert, List.length_cons]
  exact Nat.succ_le_succ List.length_erase_le

theorem length_keys_erase_le {α : Type} {β : α → Type} [DecidableEq α] (a : α) (m : AList β) :
    (m.erase a).keys.length ≤ m.keys.length := by
  rw [AList.keys_erase]
  exact List.length_erase_le

theorem Filled.succ {n : ℕ} {p : Pair} (h : Filled n p) (hn : n < 2 ^ 64) :
    Filled (n + 1) (p.act (.set (nthKey n) [] 0 0)) := by
  have hroute : p.store.shardFor (nthKey n) = 0 := if_pos h.count
  have hstore : (p.act (.set (nthKey n) [] 0 0)).store =
      p.store.put 0 ((p.store.shards 0).insert (nthKey n) [] 0 0
        (entryCost (nthKey n).length 0)) := by
    show (p.store.set (nthKey n) [] 0 0).2 = _
    rw [set_eq, hroute, h.shard.setLocked_eq hn]
    rfl
  refine ⟨by rw [hstore]; exact h.count, h.clock, ?_,
    (length_keys_insert_le _ _ _).trans (Nat.succ_le_succ h.ref)⟩
  rw [hstore, shards_put_self]
  exact h.shard.insert hn _

theorem exists_filled :
    ∀ n < 2 ^ 64, ∃ p, Run Pair.step Always (Pair.init oneShard 1 none) p ∧ Filled n p := by
  intro n
  induction n with
  | zero => intro _; exact ⟨_, .refl, filled_zero⟩
  | succ n ih =>
    intro hn
    obtain ⟨p, hrun, hp⟩ := ih (by omega)
    refine ⟨_, hrun.tail (.set (nthKey n) [] 0 0) trivial ?_, hp.succ (by omega)⟩
    exact if_pos (UInt64.le_refl _)

/-- Deleting the key whose slot index has wrapped around leaves it in `slots`. -/
theorem Filled.deleted_listed {n : ℕ} {p : Pair} (h : Filled (n + 1) p) (hn : int32 n < 0)
    (hlt : n < 2 ^ 40) :
    let q := p.act (.delete (nthKey n) 0)
    ((q.ref.keys 0).1.length : ℤ) < 2 ^ 41 ∧ nthKey n ∈ q.store.keys [] (2 ^ 41) 0 ∧
      nthKey n ∉ (q.ref.keys 0).1 := by
  intro q
  have hroute : p.store.shardFor (nthKey n) = 0 := if_pos h.count
  obtain ⟨hkey, hexp⟩ := h.shard.heap n (Nat.lt_succ_self n)
  have hpos := h.shard.pos n (Nat.lt_succ_self n)
  have hstore : q.store = p.store.put 0 ((p.store.shards 0).removeEntryLocked n) := by
    show (p.store.delete (nthKey n) 0).2 = _
    rw [Store.delete, withShard_snd, hroute, h.shard.txnDelete_eq (Nat.lt_succ_self n)]
  have hshard : q.store.shards 0 = (p.store.shards 0).removeEntryLocked n := by
    rw [hstore, shards_put_self]
  have hcount : q.store.shardCount = 1 := by rw [hstore]; exact h.count
  have hitems : (q.store.shards 0).slots.items = List.range (n + 1) := by
    rw [hshard, removeEntryLocked_eq]
    show ((p.store.shards 0).slots.remove n).items = _
    rw [SlotArray.remove_of_neg (by rw [hpos]; exact hn), h.shard.items]
  have hheap : (q.store.shards 0).heap = (p.store.shards 0).heap := by
    rw [hshard, removeEntryLocked_eq]
  have hvis : q.store.visibleKeys [] 0 = (q.store.shards 0).visibleKeys [] 0 := by
    rw [Store.visibleKeys, hcount]
    simp
  have hvislen : (q.store.visibleKeys [] 0).length ≤ n + 1 := by
    rw [hvis, Shard.visibleKeys, List.length_map]
    exact (List.length_filter_le _ _).trans (by rw [hitems, List.length_range])
  refine ⟨?_, ?_, ?_⟩
  · have hlen : (q.ref.keys 0).1.length ≤ q.ref.data.keys.length := by
      rw [Reference.keys, reference_keysLoop]
      exact List.length_filter_le _ _
    have hdata : q.ref.data.keys.length ≤ p.ref.data.keys.length := by
      show ((p.ref.live (nthKey n) 0).2.data.erase (nthKey n)).keys.length ≤ _
      refine (length_keys_erase_le _ _).trans ?_
      unfold Reference.live
      split
      · exact le_refl _
      · split_ifs
        · exact length_keys_erase_le _ _
        · exact le_refl _
    have := h.ref
    omega
  · rw [keys_eq _ _ _ _ (by omega), hvis, Shard.visibleKeys, hheap]
    refine List.mem_map.mpr ⟨n, List.mem_filter.mpr ⟨?_, ?_⟩, hkey⟩
    · rw [hitems]; exact List.mem_range.mpr (Nat.lt_succ_self n)
    · simp [Shard.listed, hheap, Entry.expired, hexp]
  · rw [(reference_keys q.ref 0).2]
    have hgone : q.ref.contents (nthKey n) = none := by
      show (p.ref.delete (nthKey n) 0).2.contents (nthKey n) = none
      rw [(reference_delete p.ref (nthKey n) 0).2, Keyspace.delete_self]
    rw [hgone]
    simp

/-- After `2^31 + 1` keys were written to one shard, the last of them stays listed when it
    is deleted. -/
theorem keys_lists_deleted_key :
    ∃ p k limit, Run Pair.step Always (Pair.init oneShard 1 none) p ∧ p.clock = 0 ∧
      ((p.ref.keys 0).1.length : ℤ) < limit ∧ k ∈ p.store.keys [] limit 0 ∧
      k ∉ (p.ref.keys 0).1 := by
  obtain ⟨p, hrun, hp⟩ := exists_filled (2 ^ 31 + 1) (by norm_num)
  obtain ⟨h1, h2, h3⟩ := hp.deleted_listed (by decide) (by norm_num)
  refine ⟨_, _, _, hrun.tail (.delete (nthKey (2 ^ 31)) 0) trivial ?_, rfl, h1, h2, h3⟩
  exact if_pos (by rw [hp.clock]; exact UInt64.le_refl 0)

end KvStore
