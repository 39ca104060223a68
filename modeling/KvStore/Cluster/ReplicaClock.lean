import KvStore.Cluster.Node
import KvStore.Store.Refinement

/-!
# A replica and its clock

A replica applies the records of its primary, answers reads, and runs the same background
expiry as a primary does (`startBackground`, commands.go lines 247–258). Reads, EXPIRE records
and the background passes consult the replica's own clock, so once it has passed a deadline,
the answers depend on it.

`clockless` is a replica without a clock. As long as no step finds an entry whose deadline
has passed at the reading of that step, a replica answers as `clockless` does, whatever its
clock, its seed and its background passes.

* `replica_answers_clockless`: two replicas with the same records and reads.
* `replica_expires_by_itself`: a clock that has passed the deadline of an entry.
-/

namespace KvStore

open KvStore.Common

/-! ## A replica that serves reads -/

/-- What happens to a replica from outside. -/
inductive ReplicaOp
  | apply (r : Record)
  | get (key : Bytes)
  | exists_ (key : Bytes)
  deriving DecidableEq

/-- The engine of a replica, and the operations so far with their replies. -/
structure Serving where
  engine : Engine
  history : List (ReplicaOp × Option Reply)

/-- The operations with their clock readings, and the steps of the engine's own. The reap
    pass of a read is among the latter. -/
inductive ServingAction
  | apply (r : Record) (nowMs nowMono : UInt64)
  | get (key : Bytes) (nowMs nowMono : UInt64)
  | exists_ (key : Bytes) (nowMs nowMono : UInt64)
  | background (a : EngineAction)

/-- The read pass of `Get` on a running engine. -/
def Engine.getRead (e : Engine) (key : Bytes) (nowMs nowMono : UInt64) :
    Option (Option Bytes × Engine) :=
  e.onShard (e.store.shardFor key) fun sh =>
    let (p, _, sh') := sh.getLocked key nowMs nowMono
    (p.map fun p => (sh.heap p).value, sh')

/-- The read pass of `Exists`. -/
def Engine.existsRead (e : Engine) (key : Bytes) (nowMs nowMono : UInt64) :
    Option (Bool × Engine) :=
  e.onShard (e.store.shardFor key) fun sh =>
    let (p, _, sh') := sh.getLocked key nowMs nowMono
    (p.isSome, sh')

namespace Serving

/-- The operation `op` has been answered. -/
def answered (s : Serving) (op : ReplicaOp) (reply : Option Reply) (e : Engine) : Serving :=
  { engine := e, history := s.history ++ [(op, reply)] }

def step (s : Serving) : ServingAction → Option Serving
  | .apply r nowMs nowMono =>
    (s.engine.applyReplicated r nowMs nowMono).map fun p => s.answered (.apply r) none p.2
  | .get key nowMs nowMono =>
    (s.engine.getRead key nowMs nowMono).map fun p =>
      s.answered (.get key) (some (.value p.1)) p.2
  | .exists_ key nowMs nowMono =>
    (s.engine.existsRead key nowMs nowMono).map fun p =>
      s.answered (.exists_ key) (some (.flag p.1)) p.2
  | .background a => (s.engine.step a).map fun e => { s with engine := e }

/-- A replica that has opened an empty data directory. -/
def init (o : Options) (newSeed : UInt64) : Serving :=
  { engine := { newEngine o newSeed with readOnly := true }, history := [] }

/-- The operations so far. -/
def ops (s : Serving) : List ReplicaOp := s.history.map Prod.fst

end Serving

/-- The condition on a step: no entry it consults the clock for has passed its deadline, and
    no shard reaches `2^31` entries. -/
def ServingAction.Timely (s : Serving) : ServingAction → Prop
  | .apply r nowMs nowMono =>
    r.FitsIn s.engine nowMono ∧
      (r.type = .expire → deadAt nowMs (s.engine.store.contents r.key) = false)
  | .get key nowMs _ => deadAt nowMs (s.engine.store.contents key) = false
  | .exists_ key nowMs _ => deadAt nowMs (s.engine.store.contents key) = false
  | .background a => ∀ k v x, s.engine.store.contents k = some (v, x) → a.Spares k x

/-! ## A replica without a clock -/

/-- What an operation does to the keyspace. -/
def ReplicaOp.next (m : Keyspace Bytes Bytes) : ReplicaOp → Keyspace Bytes Bytes
  | .apply r => applyWith Record.effect m r
  | _ => m

/-- What an operation returns. -/
def ReplicaOp.reply (m : Keyspace Bytes Bytes) : ReplicaOp → Option Reply
  | .apply _ => none
  | .get key => some (.value ((m key).map Prod.fst))
  | .exists_ key => some (.flag (m key).isSome)

/-- The keyspace and the history after `ops`. -/
def clockless (ops : List ReplicaOp) : Keyspace Bytes Bytes × List (ReplicaOp × Option Reply) :=
  ops.foldl (fun p op => (op.next p.1, p.2 ++ [(op, op.reply p.1)])) (fun _ => none, [])

theorem clockless_concat (ops : List ReplicaOp) (op : ReplicaOp) :
    clockless (ops ++ [op]) =
      (op.next (clockless ops).1, (clockless ops).2 ++ [(op, op.reply (clockless ops).1)]) := by
  rw [clockless, List.foldl_concat]
  rfl

/-! ## Timely steps -/

variable {s s' : Serving}

/-- The replica has answered as one without a clock. -/
structure Serving.Clockless (s : Serving) : Prop where
  plain : s.engine.store.Plain
  readOnly : s.engine.readOnly = true
  agrees : (s.engine.store.contents, s.history) = clockless s.ops

theorem Serving.Clockless.answered (h : s.Clockless) {e : Engine} {op : ReplicaOp}
    (hplain : e.store.Plain) (hro : e.readOnly = true)
    (hc : e.store.contents = op.next s.engine.store.contents) {reply : Option Reply}
    (hreply : reply = op.reply s.engine.store.contents) : (s.answered op reply e).Clockless := by
  refine ⟨hplain, hro, ?_⟩
  have hops : (s.answered op reply e).ops = s.ops ++ [op] := by
    simp [Serving.ops, Serving.answered]
  rw [hops, clockless_concat, ← h.agrees, ← hc, ← hreply]
  rfl

/-- A read changes no contents, and finds what is stored when that is alive. -/
theorem onShard_getLocked {α : Type} {e e' : Engine} (h : e.store.Plain) {key : Bytes}
    {nowMs nowMono : UInt64} {f : Shard → Option Ptr → α} {a : α}
    (hread : e.onShard (e.store.shardFor key) (fun sh =>
      (f sh (sh.getLocked key nowMs nowMono).1, (sh.getLocked key nowMs nowMono).2.2)) =
        some (a, e'))
    (halive : deadAt nowMs (e.store.contents key) = false) :
    e'.store.Plain ∧ e'.readOnly = e.readOnly ∧ e'.store.contents = e.store.contents ∧
      ∃ p, a = f (e.store.shards (e.store.shardFor key)) p ∧
        p.map (fun p => (((e.store.shards (e.store.shardFor key)).heap p).value,
          ((e.store.shards (e.store.shardFor key)).heap p).expireAt)) = e.store.contents key := by
  obtain ⟨-, ha, q, d, rfl⟩ := onShard_eq hread
  obtain ⟨hplain, hc⟩ := h.read key nowMs nowMono
  obtain ⟨-, hval, -⟩ :=
    getLocked_effect (h.index (e.store.shardFor key)).toKeyInv key nowMs nowMono
  refine ⟨hplain.put_report [], rfl, ?_, _, ha, ?_⟩
  · dsimp only
    rw [contents_put_report, hc]
  · rw [hval]
    exact liveAt_of_not_dead (by rw [← Bool.not_eq_true] at halive; exact halive)

/-- An applied record whose entry is alive acts as it does without a clock. -/
theorem effectAt_of_alive {r : Record} {nowMs : UInt64} {m : Keyspace Bytes Bytes}
    (h : r.type = .expire → deadAt nowMs (m r.key) = false) :
    applyWith (Record.effectAt nowMs) m r = applyWith Record.effect m r := by
  unfold applyWith
  congr 1
  rcases ht : r.type with _ | _ | _ | _
  · simp [Record.effectAt, Record.effect, ht]
  · simp [Record.effectAt, Record.effect, ht]
  · simp [Record.effectAt, Record.effect, ht, h ht]
  · simp [Record.effectAt, Record.effect, ht]

theorem Serving.Clockless.step (h : s.Clockless) {a : ServingAction} (ha : a.Timely s)
    (hstep : s.step a = some s') : s'.Clockless := by
  cases a with
  | apply r nowMs nowMono =>
    obtain ⟨⟨ok, e⟩, he, rfl⟩ := Option.map_eq_some_iff.mp hstep
    obtain ⟨ok₁, e₁, happly, hres⟩ := Engine.applyReplicated_eq he
    obtain ⟨-, hplain, hc⟩ := Engine.applyRecord_effect h.plain ha.1 happly
    have hframe : e.store = e₁.store ∧ e.readOnly = e₁.readOnly := by
      rcases hres with ⟨-, rfl, -⟩ | ⟨lsn, log, -, -, -, rfl⟩
      · exact ⟨rfl, rfl⟩
      · exact ⟨rfl, rfl⟩
    obtain ⟨hstore, hro⟩ := hframe
    refine h.answered (hstore ▸ hplain) ?_ ?_ rfl
    · obtain ⟨st, q, d, rfl⟩ := Engine.applyRecord_frame happly
      exact hro.trans h.readOnly
    · rw [hstore, hc]
      exact effectAt_of_alive ha.2
  | get key nowMs nowMono =>
    obtain ⟨⟨v, e⟩, he, rfl⟩ := Option.map_eq_some_iff.mp hstep
    obtain ⟨hplain, hro, hc, p, hv, hp⟩ := onShard_getLocked
      (f := fun sh p => p.map fun p => (sh.heap p).value) h.plain he ha
    refine h.answered hplain (hro.trans h.readOnly) ?_ ?_
    · exact hc
    show some (Reply.value v) = some (Reply.value _)
    rw [hv, ← hp, Option.map_map]
    rfl
  | exists_ key nowMs nowMono =>
    obtain ⟨⟨b, e⟩, he, rfl⟩ := Option.map_eq_some_iff.mp hstep
    obtain ⟨hplain, hro, hc, p, hb, hp⟩ :=
      onShard_getLocked (f := fun _ p => p.isSome) h.plain he ha
    refine h.answered hplain (hro.trans h.readOnly) ?_ ?_
    · exact hc
    show some (Reply.flag b) = some (Reply.flag _)
    rw [hb, ← hp, Option.isSome_map]
  | background a =>
    obtain ⟨e, he, rfl⟩ := Option.map_eq_some_iff.mp hstep
    have hm := Engine.step_mutated_of_readOnly h.readOnly he
    obtain ⟨hplain, hchange⟩ := Engine.step_changes h.plain (EngineAction.fits_of_mutated hm _) he
    refine ⟨hplain, (Engine.step_readOnly he).trans h.readOnly, ?_⟩
    show (e.store.contents, s.history) = clockless s.ops
    rw [hchange.eq_of_spares hm ha]
    exact h.agrees

theorem Serving.Clockless.init (o : Options) (newSeed : UInt64) (hmem : o.maxMemory ≤ 0) :
    (Serving.init o newSeed).Clockless := by
  refine ⟨newStore_plain o newSeed hmem, rfl, ?_⟩
  have hempty : (newStore o newSeed).contents = fun _ => none :=
    funext (newStore_contents o newSeed)
  show ((newStore o newSeed).contents, []) = _
  rw [hempty]
  rfl

/-- Two replicas without a memory limit that apply the same records and serve the same reads,
    each with its own seed, clock readings and background passes, answer the same as long as
    no step finds an entry past its deadline; and what they hold is what the records say. -/
theorem replica_answers_clockless {o o' : Options} {seed seed' : UInt64} {s t : Serving}
    (hmem : o.maxMemory ≤ 0) (hmem' : o'.maxMemory ≤ 0)
    (hs : Run Serving.step (fun s a => a.Timely s) (.init o seed) s)
    (ht : Run Serving.step (fun s a => a.Timely s) (.init o' seed') t) (hops : s.ops = t.ops) :
    s.history = t.history ∧ s.engine.store.contents = t.engine.store.contents ∧
      s.engine.store.contents = (clockless s.ops).1 := by
  have hs' : s.Clockless := hs.invariant (fun _ _ _ h ha hs => h.step ha hs) (.init o seed hmem)
  have ht' : t.Clockless := ht.invariant (fun _ _ _ h ha hs => h.step ha hs) (.init o' seed' hmem')
  have hboth : (s.engine.store.contents, s.history) = (t.engine.store.contents, t.history) := by
    rw [hs'.agrees, ht'.agrees, hops]
  obtain ⟨hc, hh⟩ := Prod.mk.inj hboth
  exact ⟨hh, hc, congrArg Prod.fst hs'.agrees⟩

/-- SET with a deadline, as a primary sends it. -/
def sentWithDeadline (key value : Bytes) (expireAtMs : UInt64) : Record :=
  { Engine.record .set key value expireAtMs with lsn := 1 }

/-- Timely by evaluation, a sweep only at the start of the epoch. -/
def ServingAction.Early (s : Serving) : ServingAction → Prop
  | .background (.sweep _ nowMs _) => nowMs = 0
  | .background _ => False
  | a => a.Timely s

instance (s : Serving) : (a : ServingAction) → Decidable (a.Early s)
  | .background (.sweep _ nowMs _) => inferInstanceAs (Decidable (nowMs = 0))
  | .apply .. => inferInstanceAs (Decidable (_ ∧ (_ → _)))
  | .get .. | .exists_ .. => inferInstanceAs (Decidable (_ = _))
  | .background (.set ..) | .background (.delete ..) | .background (.expire ..)
  | .background (.submit ..) | .background (.read ..) | .background (.reap ..)
  | .background (.purge ..) | .background (.wheel ..) | .background (.evictToLimit ..)
  | .background .drainTake | .background (.logEvict ..) => instDecidableFalse

theorem ServingAction.Early.timely {s : Serving} {a : ServingAction} (h : a.Early s) :
    a.Timely s := by
  cases a with
  | apply => exact h
  | get => exact h
  | exists_ => exact h
  | background a =>
    cases a with
    | sweep i nowMs sample =>
      have hzero : nowMs = 0 := h
      intro k v x _
      show expiredAt x nowMs = false
      simp only [hzero, expiredAt, decide_eq_false_iff_not]
      rintro ⟨hx, hle⟩
      exact hx (UInt64.le_antisymm hle UInt64.zero_le)
    | _ => exact absurd h id

/-- An entry with the deadline 10, read at 5 by a replica that has swept, and at 9 by
    another one with another seed. -/
theorem replica_answers_clockless_two :
    ∃ s t : Serving, Run Serving.step (fun s a => a.Timely s) (.init oneShard 1) s ∧
      Run Serving.step (fun s a => a.Timely s) (.init oneShard 7) t ∧ s.ops = t.ops ∧
      s.history = [(.apply (sentWithDeadline [1] [2] 10), none), (.get [1], some (.value (some [2])))] ∧
      t.history = s.history ∧ t.engine.store.contents = s.engine.store.contents := by
  obtain ⟨s, hs, hsops, hhist⟩ := Run.exists_of_guarded Serving.step (fun s a => a.Early s)
    (.init oneShard 1)
    [.apply (sentWithDeadline [1] [2] 10) 0 0, .background (.sweep 0 0 5), .get [1] 5 5]
    (fun s => s.ops = [.apply (sentWithDeadline [1] [2] 10), .get [1]] ∧ s.history =
      [(.apply (sentWithDeadline [1] [2] 10), none), (.get [1], some (.value (some [2])))])
    (by decide +kernel)
  obtain ⟨t, ht, htops⟩ := Run.exists_of_guarded Serving.step (fun s a => a.Early s)
    (.init oneShard 7) [.apply (sentWithDeadline [1] [2] 10) 8 0, .get [1] 9 5]
    (fun s => s.ops = [.apply (sentWithDeadline [1] [2] 10), .get [1]]) (by decide +kernel)
  have hs := hs.mono fun _ _ h => ServingAction.Early.timely h
  have ht := ht.mono fun _ _ h => ServingAction.Early.timely h
  have hops : s.ops = t.ops := hsops.trans htops.symm
  obtain ⟨hboth, hcont, -⟩ := replica_answers_clockless (by decide) (by decide) hs ht hops
  exact ⟨s, t, hs, ht, hops, hhist, hboth.symm, hcont.symm⟩

/-- The same entry, read at 5 by one replica and at 20 by another one: the second answers that
    there is none, though no DELETE was applied. -/
theorem replica_expires_by_itself :
    ∃ s t : Serving, Run Serving.step Always (.init oneShard 1) s ∧
      Run Serving.step Always (.init oneShard 1) t ∧ s.ops = t.ops ∧
      s.history = [(.apply (sentWithDeadline [1] [2] 10), none), (.get [1], some (.value (some [2])))] ∧
      t.history = [(.apply (sentWithDeadline [1] [2] 10), none), (.get [1], some (.value none))] := by
  obtain ⟨s, hs, hsh⟩ := Run.exists_of_exec Serving.step (.init oneShard 1)
    [.apply (sentWithDeadline [1] [2] 10) 0 0, .get [1] 5 5]
    (fun s => s.history =
      [(.apply (sentWithDeadline [1] [2] 10), none), (.get [1], some (.value (some [2])))])
    (by decide +kernel)
  obtain ⟨t, ht, hth⟩ := Run.exists_of_exec Serving.step (.init oneShard 1)
    [.apply (sentWithDeadline [1] [2] 10) 0 0, .get [1] 20 20]
    (fun s => s.history =
      [(.apply (sentWithDeadline [1] [2] 10), none), (.get [1], some (.value none))])
    (by decide +kernel)
  refine ⟨s, t, hs, ht, ?_, hsh, hth⟩
  rw [Serving.ops, Serving.ops, hsh, hth]
  rfl

end KvStore
