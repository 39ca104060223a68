import KvStore.Engine.StoreSteps
import KvStore.Store.Expirer
import KvStore.Store.Inherit
import KvStore.Store.Range

/-!
# Deadlines that the engine gives

With `expiry = wheel`, `startBackground` (`internal/engine/commands.go` lines 253–255) builds the
expirer over the recovered store: the keys that have a deadline by then get a timer, and `SetOnTTL`
registers the hook for the later ones. The hook is fired by `Store.Set` and `Store.Expire`. The
engine writes through `WithKey` and `Txn.Set`, `Txn.Expire` (`internal/store/store.go` lines
576–614), which do not fire it.

* `call_leaves_wheel`: no `Set` and no `Expire` of the engine puts down a timer.
* `engine_write_scheduled`: so a key with a deadline has its timer after a call if and only if the
  wheel held one for that key and deadline before it.
* `engine_write_unscheduled`: a key that is set with a lifetime has none.
-/

namespace KvStore

open KvStore.Common

/-! ## Model -/

/-- `NewWheelExpirer` (wheel.go lines 177–199): the wheel starts at `nowMs`, and `Range`, at
    `rangeMs`, puts down a timer for each deadline. -/
def Store.newWheelExpirer (s : Store) (tick nowMs rangeMs : UInt64) : Store :=
  { s with wheel := some ((s.range rangeMs).foldl (fun w x =>
      if x.expireAtMs ≠ 0 then w.add x.key x.expireAtMs else w)
      (newWheel (if tick = 0 then 10 else tick) nowMs)) }

namespace Engine

/-- The engine that `Open` returns over the store that was recovered, with `expiry = wheel`. -/
def opened (s : Store) (log : Log) (tick nowMs rangeMs : UInt64) : Engine where
  store := s.newWheelExpirer tick nowMs rangeMs
  log := log
  readOnly := false
  closed := false
  evictQ := []
  evictDrops := 0
  draining := none
  inflight := fun _ => none

/-- `Submit` takes the record of shard `i`, and the lock is released. -/
def acknowledged (e : Engine) (i : ℕ) (nowMs : UInt64) : Option Engine :=
  (e.inflight i).bind fun rec => (e.log.submit rec nowMs).map fun r =>
    { e with inflight := Function.update e.inflight i none, log := r.2 }

/-- `RunOnce` of the expirer (wheel.go lines 236–277), with the reports to `onStoreEvict`. -/
def runOnce (e : Engine) (nowMs : UInt64) : Option Engine :=
  match e.store.wheel with
  | none => some e
  | some w =>
    (w.advance nowMs).1.foldlM (fun e t => e.step (.wheel t.key t.expireAt nowMs))
      { e with store := { e.store with wheel := some (w.advance nowMs).2 } }

end Engine

/-- The calls that succeed, with the clock readings of `deadline`, `WithKey` and `Submit`, and the
    expirer in the background. -/
inductive TTLCall
  | set (key value : Bytes) (ttlMillis nowMs nowMono submitMs : UInt64)
  | expire (key : Bytes) (ttlMillis nowMs nowMs' submitMs : UInt64)
  | runOnce (nowMs : UInt64)

/-- The key that a call writes, and the deadline it computes. -/
def TTLCall.given : TTLCall → Option (Bytes × UInt64)
  | .set key _ ttlMillis nowMs _ _ => some (key, Engine.deadline ttlMillis nowMs)
  | .expire key ttlMillis nowMs _ _ => some (key, Engine.deadline ttlMillis nowMs)
  | .runOnce _ => none

/-- A whole call, from the backpressure gate to the acknowledgement. -/
def Engine.ttlStep (e : Engine) : TTLCall → Option Engine
  | .set key value ttlMillis nowMs nowMono submitMs =>
    (e.set key value ttlMillis nowMs nowMono).bind fun e' =>
      e'.acknowledged (e.store.shardFor key) submitMs
  | .expire key ttlMillis nowMs nowMs' submitMs =>
    (e.expire key ttlMillis nowMs nowMs').bind fun e' =>
      e'.acknowledged (e.store.shardFor key) submitMs
  | .runOnce nowMs => e.runOnce nowMs

/-- The call has something to give its deadline to: `Set` always, `Expire` if the key is live. -/
def TTLCall.Finds (e : Engine) : TTLCall → Prop
  | .set _ _ _ _ _ _ => True
  | .expire key _ _ nowMs' _ => (liveAt nowMs' (e.store.contents key)).isSome = true
  | .runOnce _ => False

/-- The wheel holds a timer of the key for this deadline. -/
def Engine.Timed (e : Engine) (key : Bytes) (x : UInt64) : Prop :=
  ∃ w, e.store.wheel = some w ∧ ⟨key, x⟩ ∈ w.held

/-! ## What a call does -/

section

variable {e e' : Engine} {i : ℕ} {nowMs : UInt64}

theorem acknowledged_eq (h : e.acknowledged i nowMs = some e') :
    (e.inflight i).isSome ∧ e'.store = e.store := by
  obtain ⟨rec, hrec, h⟩ := Option.bind_eq_some_iff.mp h
  obtain ⟨r, -, rfl⟩ := Option.map_eq_some_iff.mp h
  exact ⟨by rw [hrec]; rfl, rfl⟩

/-- A mutation that is acknowledged was applied, and left the wheel alone. -/
theorem mutate_acknowledged {r : Record} {apply : Shard → Bool × Shard}
    (h : ((e.mutate r apply).bind fun e' =>
      e'.acknowledged (e.store.shardFor r.key) nowMs) = some e') :
    (apply (e.store.shards (e.store.shardFor r.key))).1 = true ∧
      e'.store = e.store.put (e.store.shardFor r.key)
        { (apply (e.store.shards (e.store.shardFor r.key))).2 with onEvict := [] } ∧
      e'.store.contents r.key =
        (apply (e.store.shards (e.store.shardFor r.key))).2.contents r.key := by
  obtain ⟨m, hm, hack⟩ := Option.bind_eq_some_iff.mp h
  obtain ⟨hinflight, hstore⟩ := acknowledged_eq hack
  unfold Engine.mutate at hm
  split_ifs at hm
  obtain ⟨⟨ok, e''⟩, hshard, rfl⟩ := Option.map_eq_some_iff.mp hm
  obtain ⟨hfree, rfl, q, d, rfl⟩ := onShard_eq hshard
  dsimp only at hinflight hstore
  split_ifs at hinflight hstore with hok
  · refine ⟨hok, hstore, ?_⟩
    rw [hstore, contents_put, if_pos rfl]
    rfl
  · rw [hfree] at hinflight
    cases hinflight

/-- A call of a client leaves the wheel as it was. -/
theorem call_leaves_wheel {c : TTLCall} {key : Bytes} {x : UInt64} (hgiven : c.given = some (key, x))
    (h : e.ttlStep c = some e') : e'.store.wheel = e.store.wheel := by
  cases c with
  | set => rw [(mutate_acknowledged h).2.1]; rfl
  | expire => rw [(mutate_acknowledged h).2.1]; rfl
  | runOnce => cases hgiven

/-! ## Keys of the shards -/

theorem Store.Sound.put_quiet {s : Store} {sh : Shard} (h : s.Sound) (hsh : KeyInv sh) (i : ℕ) :
    (s.put i { sh with onEvict := [] }).Sound := by
  intro j
  rw [shards_put]
  split_ifs
  · exact ⟨hsh.key, hsh.alloc⟩
  · exact h j

theorem foldlM_wheel_sound (due : List WheelTimer) (h : e.store.Sound)
    (hfold : due.foldlM (fun e t => e.step (.wheel t.key t.expireAt nowMs)) e = some e') :
    e'.store.Sound := by
  induction due generalizing e with
  | nil =>
    cases hfold
    exact h
  | cons t due ih =>
    rw [List.foldlM_cons] at hfold
    obtain ⟨m, hm, hrest⟩ := Option.bind_eq_some_iff.mp hfold
    obtain ⟨q, d, rfl⟩ := onShard_map_eq hm
    exact ih (h.put_quiet (wheelRemove_contents (h _) t.key t.expireAt nowMs).1 _) hrest

theorem Engine.runOnce_sound (h : e.store.Sound) (hstep : e.runOnce nowMs = some e') :
    e'.store.Sound := by
  unfold Engine.runOnce at hstep
  cases hw : e.store.wheel with
  | none =>
    rw [hw] at hstep
    cases hstep
    exact h
  | some w =>
    rw [hw] at hstep
    refine foldlM_wheel_sound (w.advance nowMs).1 ?_ hstep
    exact h

/-- The keys stay where they are, and after a call its key has the deadline it computed, or there was
    nothing to give it to. -/
theorem Engine.ttlStep_spec (h : e.store.Sound) {c : TTLCall} (hstep : e.ttlStep c = some e') :
    e'.store.Sound ∧ ∀ key x, c.given = some (key, x) →
      (c.Finds e ∧ ∃ v, e'.store.contents key = some (v, x)) ∨
        (¬ c.Finds e ∧ e'.store.contents key = none) := by
  cases c with
  | set key value ttlMillis nowMs nowMono submitMs =>
    obtain ⟨hok, hstore, hcontents⟩ := mutate_acknowledged hstep
    obtain ⟨ks, -, -, heff⟩ := setLocked_effect (h (e.store.shardFor key)) key value
      (Engine.deadline ttlMillis nowMs) nowMono
    replace hok : ((e.store.shards (e.store.shardFor key)).setLocked key value
      (Engine.deadline ttlMillis nowMs) nowMono).1 = true := hok
    refine ⟨by rw [hstore]; exact h.put_quiet heff.keyInv _, fun k x hgiven => ?_⟩
    cases hgiven
    have hset := congrFun heff.contents key
    rw [if_pos hok, Keyspace.set_self] at hset
    exact .inl ⟨trivial, value, hcontents.trans hset⟩
  | expire key ttlMillis nowMs nowMs' submitMs =>
    obtain ⟨-, hstore, hcontents⟩ := mutate_acknowledged hstep
    obtain ⟨-, heff⟩ := txnExpire_effect (h (e.store.shardFor key)) key
      (Engine.deadline ttlMillis nowMs) nowMs'
    refine ⟨by rw [hstore]; exact h.put_quiet heff.keyInv _, fun k x hgiven => ?_⟩
    cases hgiven
    replace hcontents := hcontents.trans (congrFun heff.contents key)
    rw [TTLCall.Finds, Store.contents, liveAt_eq_ite]
    split_ifs at hcontents ⊢ with hdead
    · rw [Keyspace.delete, Function.update_self] at hcontents
      exact .inr ⟨by simp, hcontents⟩
    · rw [Keyspace.expire, Function.update_self] at hcontents
      cases hkey : (e.store.shards (e.store.shardFor key)).contents key with
      | none => exact .inr ⟨by simp, by rw [hkey] at hcontents; exact hcontents⟩
      | some d => exact .inl ⟨rfl, d.1, by rw [hkey] at hcontents; exact hcontents⟩
  | runOnce nowMs =>
    refine ⟨Engine.runOnce_sound h hstep, fun key x hgiven => ?_⟩
    cases hgiven

end

/-! ## Main results -/

/-- After the start of an engine over any store that calls of the store lead to, and any run of
    calls: a key that has a deadline right after a call for it has its timer, if and only if the call
    gives no deadline, or finds nothing to give it to, or the wheel held the timer before. -/
theorem engine_write_scheduled (opts : Options) (newSeed : UInt64) {s : Store}
    (hs : Run Store.step Always (newStore opts newSeed) s) (log : Log) (tick nowMs rangeMs : UInt64)
    {e e' : Engine} (hrun : Run Engine.ttlStep Always (Engine.opened s log tick nowMs rangeMs) e)
    {c : TTLCall} (hstep : e.ttlStep c = some e') {key : Bytes} {x : UInt64}
    (hgiven : c.given = some (key, x)) :
    (∀ v y, e'.store.contents key = some (v, y) → y ≠ 0 → e'.Timed key y) ↔
      (x = 0 ∨ ¬ c.Finds e ∨ e.Timed key x) := by
  have hsound : e.store.Sound := by
    refine hrun.invariant (P := fun e => e.store.Sound) ?_ ((newStore_sound opts newSeed none).run hs)
    intro e c t h _ hstep
    exact (Engine.ttlStep_spec h hstep).1
  have htimed : ∀ y, e'.Timed key y ↔ e.Timed key y := fun y => by
    rw [Engine.Timed, Engine.Timed, call_leaves_wheel hgiven hstep]
  simp only [htimed]
  rcases (Engine.ttlStep_spec hsound hstep).2 key x hgiven with ⟨hfinds, v, hv⟩ | ⟨hfinds, hnone⟩
  · rw [hv]
    constructor
    · intro h
      by_cases hx : x = 0
      · exact .inl hx
      · exact .inr (.inr (h v x rfl hx))
    · rintro h v' y hy hne
      cases hy
      exact (h.resolve_left hne).resolve_left (not_not.mpr hfinds)
  · refine iff_of_true (fun v y hy => ?_) (.inr (.inl hfinds))
    rw [hnone] at hy
    cases hy

/-- A key was recovered with the deadline 105; an `Expire` at 5 with a lifetime of 100 ms gives it
    the same one. -/
theorem engine_write_scheduled_again :
    ∃ e w, (Engine.opened ((newStore oneShard 1).act (.set [1] [2] 105 0))
          (newEngine oneShard 1).log 10 0 0).ttlStep (.expire [1] 100 5 5 5) = some e ∧
      e.store.contents [1] = some ([2], 105) ∧ e.store.wheel = some w ∧ ⟨[1], 105⟩ ∈ w.held := by
  obtain ⟨s, hs⟩ : ∃ s, s = (newStore oneShard 1).act (.set [1] [2] 105 0) := ⟨_, rfl⟩
  rw [← hs]
  have hrun : Run Store.step Always (newStore oneShard 1) s := by
    rw [hs]
    exact Run.refl.tail (.set [1] [2] 105 0) trivial rfl
  have hcall : ((Engine.opened s (newEngine oneShard 1).log 10 0 0).ttlStep
      (.expire [1] 100 5 5 5)).any (fun e => e.store.contents [1] = some ([2], 105)) := by
    rw [hs]
    decide +kernel
  have hwheel : (Engine.opened s (newEngine oneShard 1).log 10 0 0).store.wheel.any
      (fun w => w.held = {⟨[1], 105⟩}) := by
    rw [hs]
    decide +kernel
  obtain ⟨e, he, hcontents⟩ := (Option.any_eq_true _ _).mp hcall
  obtain ⟨w₀, hw₀, hheld⟩ := (Option.any_eq_true _ _).mp hwheel
  have htimed : (Engine.opened s (newEngine oneShard 1).log 10 0 0).Timed [1] 105 := by
    refine ⟨w₀, hw₀, ?_⟩
    rw [of_decide_eq_true hheld, Multiset.mem_singleton]
  obtain ⟨w, hw, hmem⟩ := (engine_write_scheduled oneShard 1 hrun (newEngine oneShard 1).log 10 0 0
    .refl he rfl).mpr (.inr (.inr htimed)) [2] 105 (of_decide_eq_true hcontents) (by decide)
  exact ⟨e, w, he, of_decide_eq_true hcontents, hw, hmem⟩

/-- A new key with a lifetime of 100 ms: it has a deadline, and the wheel is empty. -/
theorem engine_write_unscheduled :
    ∃ e, Run Engine.ttlStep Always
        (Engine.opened (newStore oneShard 1) (newEngine oneShard 1).log 10 0 0) e ∧
      e.store.contents [1] = some ([2], 105) ∧ e.store.wheel.map Wheel.held = some 0 :=
  Run.exists_of_exec _ _ [.set [1] [2] 100 5 0 5] _ (by decide +kernel)

end KvStore
