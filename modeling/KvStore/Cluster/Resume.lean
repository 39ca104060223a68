import KvStore.Cluster.Fencing
import KvStore.Cluster.Reflects
import KvStore.Cluster.ReplicaClock

/-!
# The resume point of a replica

A replica that connects sends SYNC with the last LSN of its own log (`replicateOnce`, replica.go
lines 60–211), and the primary takes the number as one of its own log. It does not come from there:
`ApplyReplicated` submits whatever it has applied, so an entry of a full resync and a record that
arrives twice count in the log of the replica as well.

`Sends log p msgs` says what a primary with this log sends to a reader at the position `p`. The
replica is a `Node`, and its engine goes on by itself in between. The invariant of aligned runs is
that the log of the replica never gets ahead of the position in the primary's log up to which the
replica has everything.

* `resume_point_sound`: aligned runs.
* `resume_point_ahead`: a record that arrives twice, and then one that never does.
-/

namespace KvStore

open KvStore.Common

/-! ## What a primary sends -/

/-- The position of a reader: it has read the log up to `j`, or it is inside a full resync that
    takes it to `b`, and holds `m`. -/
inductive Position
  | upTo (j : ℕ)
  | resync (b : ℕ) (m : Keyspace Bytes Bytes)

def Position.lsn : Position → ℕ
  | .upTo j => j
  | .resync b _ => b

def Position.inFullSync : Position → Bool
  | .upTo _ => false
  | .resync .. => true

/-- A record of the log, whose first record has the LSN 1, as a file or the feed has it. -/
def Logged (log : List Record) (r : Record) : Prop :=
  ∃ i r', log[i]? = some r' ∧ r.lsn = i + 1 ∧ r.Carries r'

/-- One call of `streamTo` (primary.go lines 96–283), cut off anywhere: records that follow the
    order of the log without a gap or go back in it, where the feed overlaps with what was read from
    the files; heartbeats; and a full resync, which ends with what reflects the log up to `b`. -/
def Sends (log : List Record) : Position → List StreamMsg → Prop
  | _, [] => True
  | .upTo j, .record r :: rest => Logged log r ∧ r.lsn ≤ j + 1 ∧ Sends log (.upTo r.lsn) rest
  | .upTo j, .heartbeat _ _ :: rest => Sends log (.upTo j) rest
  | .upTo j, .fullBegin _ :: rest => ∃ b, j ≤ b ∧ Sends log (.resync b fun _ => none) rest
  | .resync b m, .record r :: rest =>
    (r.Submittable ∧ r.type = .set ∧ r.lsn ≤ b) ∧
      Sends log (.resync b (applyWith Record.effect m r)) rest
  | .resync b m, .fullEnd _ :: rest => Shows log b m ∧ Sends log (.upTo b) rest
  | _, _ :: _ => False

/-! ## The replica -/

/-- A connection is made, on which this is going to arrive, or the node makes a step. -/
inductive SyncAction
  | connect (msgs : List StreamMsg)
  | node (a : NodeAction)

def Delivery.sync (d : Delivery) : SyncAction → Option Delivery
  | .connect msgs => d.node.connect.map fun n => ⟨n, msgs⟩
  | .node a => d.step a

def Delivery.lastLSN (d : Delivery) : ℕ := d.node.engine.lastLSN

def Delivery.held (d : Delivery) : Keyspace Bytes Bytes := d.node.engine.store.contents

/-- What arrives is what a primary with this log sends in reply to SYNC. -/
def SyncAction.Sent (log : List Record) (d : Delivery) : SyncAction → Prop
  | .connect msgs => Sends log (.upTo d.lastLSN) msgs
  | .node _ => True

/-- A record is new by the count of the replica's own log, and finds no entry past its deadline. -/
def StreamMsg.Timely (n : Node) (nowMs nowMono : UInt64) : StreamMsg → Prop
  | .record r => n.engine.lastLSN < r.lsn ∧ r.FitsIn n.engine nowMono ∧
      (r.type = .expire → deadAt nowMs (n.engine.store.contents r.key) = false)
  | _ => True

instance (n : Node) (nowMs nowMono : UInt64) :
    (m : StreamMsg) → Decidable (m.Timely n nowMs nowMono)
  | .record _ => inferInstanceAs (Decidable (_ ∧ _ ∧ (_ → _)))
  | .heartbeat .. | .fullBegin _ | .fullEnd _ | .ack _ | .reject _ => instDecidableTrue

/-- The condition on a step: a record is read only if its LSN is at least the one the replica's own
    log gives to it, the connection is not lost inside a full resync unless that log is empty, and
    no entry of the replica passes its deadline. -/
def SyncAction.Aligned (d : Delivery) : SyncAction → Prop
  | .node (.recv m nowMs nowMono) => m.Timely d.node nowMs nowMono
  | .node (.engine a) => ∀ i < d.node.engine.store.shardCount,
      ∀ k ∈ (d.node.engine.store.shards i).entries.keys, ∀ y ∈ d.held k, a.Spares k y.2
  | .node (.snapshot ok) => ok = true ∨ d.lastLSN = 0
  | .node .disconnect => d.node.inFullSync = true → d.lastLSN = 0
  | _ => True

instance (d : Delivery) : (a : SyncAction) → Decidable (a.Aligned d)
  | .node (.recv m nowMs nowMono) => inferInstanceAs (Decidable (m.Timely d.node nowMs nowMono))
  | .node (.engine a) =>
    inferInstanceAs (Decidable (∀ i < _, ∀ k ∈ _, ∀ y ∈ d.held k, a.Spares k y.2))
  | .node (.snapshot _) => inferInstanceAs (Decidable (_ ∨ _))
  | .node .disconnect => inferInstanceAs (Decidable (_ → _))
  | .connect _ | .node .promote | .node .connect | .node (.submit _) | .node .flushShard =>
    instDecidableTrue

/-! ## The engine of a replica -/

/-- Nothing is in flight or on its way to the log, which takes records. -/
structure Engine.Passive (e : Engine) : Prop where
  plain : e.store.Plain
  readOnly : e.readOnly = true
  free : ∀ i, e.inflight i = none
  quiet : e.evictQ = [] ∧ e.draining = none
  log : e.log.closed = false ∧ e.log.fatal = false
  next : 0 < e.log.nextLSN

section Passive

variable {e e' : Engine}

/-- A replica does not report what its shards remove. -/
theorem onShard_readOnly {α : Type} {i : ℕ} {fn : Shard → α × Shard} {x : α}
    (h : e.readOnly = true) (hstep : e.onShard i fn = some (x, e')) :
    e' = { e with store := e.store.put i { (fn (e.store.shards i)).2 with onEvict := [] } } := by
  have hsilent : ∀ {e : Engine}, e.readOnly = true → ∀ evs : List (Bytes × EvictReason),
      evs.foldl Engine.onStoreEvict e = e := by
    intro e h evs
    induction evs with
    | nil => rfl
    | cons ev evs ih =>
      have hev : e.onStoreEvict ev = e := if_pos (.inl h)
      rw [List.foldl_cons, hev, ih]
  unfold Engine.onShard at hstep
  split_ifs at hstep
  obtain ⟨-, he⟩ := Prod.mk.inj (Option.some.inj hstep)
  refine he.symm.trans (hsilent ?_ _)
  exact h

namespace Engine.Passive

theorem withStore (h : e.Passive) {st : Store} (hst : st.Plain) : Passive { e with store := st } :=
  ⟨hst, h.readOnly, h.free, h.quiet, h.log, h.next⟩

/-- A step of the replica's own engine touches the store only. -/
theorem step_eq (h : e.Passive) {b : EngineAction} (hstep : e.step b = some e') :
    ∃ st, e' = { e with store := st } := by
  have hm := Engine.step_mutated_of_readOnly h.readOnly hstep
  have hshard : ∀ {α : Type} {i : ℕ} {fn : Shard → α × Shard},
      (e.onShard i fn).map Prod.snd = some e' → ∃ st, e' = { e with store := st } := by
    intro α i fn hmap
    obtain ⟨⟨x, _⟩, hres, rfl⟩ := Option.map_eq_some_iff.mp hmap
    exact ⟨_, onShard_readOnly h.readOnly hres⟩
  cases b with
  | set => cases hm
  | delete => cases hm
  | expire => cases hm
  | submit i nowMs =>
    obtain ⟨r, hr, -⟩ := Option.map_eq_some_iff.mp hstep
    rw [h.free] at hr
    cases hr
  | drainTake =>
    replace hstep : e.drainTake = some e' := hstep
    rw [Engine.drainTake, h.quiet.1] at hstep
    split at hstep
    · rename_i hq
      cases hq
    · cases hstep
  | logEvict nowMs =>
    obtain ⟨ev, hev, -⟩ := Option.map_eq_some_iff.mp hstep
    rw [h.quiet.2] at hev
    cases hev
  | _ => exact hshard hstep

/-- Steps of the replica's own engine that find no entry past its deadline. -/
theorem step (h : e.Passive) {b : EngineAction}
    (hspare : ∀ k v x, e.store.contents k = some (v, x) → b.Spares k x)
    (hstep : e.step b = some e') :
    e'.Passive ∧ e'.log = e.log ∧ e'.store.contents = e.store.contents ∧
      e'.store.shardFor = e.store.shardFor := by
  have hm := Engine.step_mutated_of_readOnly h.readOnly hstep
  obtain ⟨hplain, hchange⟩ := Engine.step_changes h.plain (EngineAction.fits_of_mutated hm _) hstep
  have hroute := (Engine.step_routes hstep).2
  have hsame := hchange.eq_of_spares hm hspare
  obtain ⟨st, rfl⟩ := h.step_eq hstep
  exact ⟨h.withStore hplain, rfl, hsame, hroute⟩

/-- A record that finds no entry past its deadline acts as it does in the log. -/
theorem applyRecord (h : e.Passive) {r : Record} {nowMs nowMono : UInt64} {ok : Bool}
    (hfit : r.FitsIn e nowMono)
    (hlive : r.type = .expire → deadAt nowMs (e.store.contents r.key) = false)
    (hstep : e.applyRecord r nowMs nowMono = some (ok, e')) :
    ok = true ∧ e'.Passive ∧ e'.lastLSN = e.lastLSN ∧
      e'.store.contents = applyWith Record.effect e.store.contents r := by
  obtain ⟨hok, hplain, hcont⟩ := Engine.applyRecord_effect h.plain hfit hstep
  rw [effectAt_of_alive hlive] at hcont
  have heq : ∃ st, e' = { e with store := st } := by
    unfold Engine.applyRecord at hstep
    split at hstep
    · exact ⟨_, onShard_readOnly h.readOnly hstep⟩
    · exact ⟨_, onShard_readOnly h.readOnly hstep⟩
    · exact ⟨_, onShard_readOnly h.readOnly hstep⟩
    · cases hstep
      exact ⟨_, rfl⟩
  obtain ⟨st, rfl⟩ := heq
  exact ⟨hok, h.withStore hplain, rfl, hcont⟩

/-- What was applied is logged under the next number. -/
theorem submit (h : e.Passive) {r : Record} (hsub : r.Submittable) (nowMs : UInt64) :
    ∃ lsn log, e.log.submit r nowMs = some (lsn, log) ∧ Passive { e with log := log } ∧
      Engine.lastLSN { e with log := log } = e.lastLSN + 1 := by
  obtain ⟨t, ht⟩ := submit_of_submittable h.log hsub nowMs
  have hnext := h.next
  refine ⟨_, _, ht, ⟨h.plain, h.readOnly, h.free, h.quiet, h.log, Nat.succ_pos _⟩, ?_⟩
  show e.log.nextLSN + 1 - 1 = e.log.nextLSN - 1 + 1
  omega

end Engine.Passive

end Passive

/-! ## The invariant -/

/-- A reader at the position holds `m`. -/
def Position.Holds (log : List Record) (m : Keyspace Bytes Bytes) : Position → Prop
  | .upTo j => Shows log j m
  | .resync _ m' => m = m'

/-- The replica, by the stage of the replication goroutine and whether it is inside a full resync:
    what it holds, how far its log is, and that the rest of the stream is right for it. -/
inductive Phase (log : List Record) (e : Engine) (stream : List StreamMsg) : ReplStage → Bool → Prop
  | down {full : Bool} {j : ℕ} (hc : e.lastLSN ≤ j) (hm : Shows log j e.store.contents) :
    Phase log e stream .down full
  | waiting (p : Position) (hc : e.lastLSN ≤ p.lsn) (hm : p.Holds log e.store.contents)
    (hread : Sends log p stream) : Phase log e stream .waiting p.inFullSync
  | submitting (p : Position) {r : Record} (hsub : r.Submittable) (hc : e.lastLSN + 1 ≤ p.lsn)
    (hm : p.Holds log e.store.contents) (hread : Sends log p stream) :
    Phase log e stream (.submitting r) p.inFullSync
  | flushing {full : Bool} {i b : ℕ} (hc : e.lastLSN ≤ b)
    (hgone : ∀ k, e.store.shardFor k < i → e.store.contents k = none)
    (hread : Sends log (.resync b fun _ => none) stream) : Phase log e stream (.flushing i) full
  | snapshotting {full : Bool} {b : ℕ} (hc : e.lastLSN ≤ b)
    (hgone : e.store.contents = fun _ => none)
    (hread : Sends log (.resync b fun _ => none) stream) : Phase log e stream .snapshotting full

theorem Phase.congr {log : List Record} {e e' : Engine} {stream : List StreamMsg}
    {stage : ReplStage} {full : Bool} (h : Phase log e stream stage full)
    (hlast : e'.lastLSN = e.lastLSN) (hcont : e'.store.contents = e.store.contents)
    (hroute : e'.store.shardFor = e.store.shardFor) : Phase log e' stream stage full := by
  cases h with
  | down hc hm => exact .down (hlast ▸ hc) (hcont ▸ hm)
  | waiting p hc hm hread => exact .waiting p (hlast ▸ hc) (hcont ▸ hm) hread
  | submitting p hsub hc hm hread => exact .submitting p hsub (hlast ▸ hc) (hcont ▸ hm) hread
  | flushing hc hgone hread => exact .flushing (hlast ▸ hc) (hcont ▸ hroute ▸ hgone) hread
  | snapshotting hc hgone hread => exact .snapshotting (hlast ▸ hc) (hcont ▸ hgone) hread

/-- The invariant of aligned runs. -/
structure Synced (log : List Record) (d : Delivery) : Prop where
  passive : d.node.engine.Passive
  blank : (∀ r, d.node.stage ≠ .submitting r) → d.lastLSN = 0 → d.held = fun _ => none
  phase : Phase log d.node.engine d.stream d.node.stage d.node.inFullSync

namespace Synced

variable {log : List Record} {d d' : Delivery} {n : Node} {nowMs nowMono : UInt64}
  {m : StreamMsg} {rest : List StreamMsg} {j b : ℕ}

/-- A replica that waits for a message is at a position of the stream. -/
theorem of_waiting (h : Synced log d) (hstage : d.node.stage = .waiting) :
    ∃ p : Position, d.node.inFullSync = p.inFullSync ∧ d.lastLSN ≤ p.lsn ∧ p.Holds log d.held ∧
      Sends log p d.stream := by
  have hphase := h.phase
  obtain ⟨full, hfull⟩ : ∃ full, d.node.inFullSync = full := ⟨_, rfl⟩
  rw [hstage, hfull] at hphase
  cases hphase with
  | waiting p hc hm hread => exact ⟨p, hfull, hc, hm, hread⟩

/-! ### Messages -/

/-- A message for a replica that is not inside a full resync. -/
theorem receive_upTo (hlog : ∀ r ∈ log, r.Submittable) (h : Synced log d)
    (hstage : d.node.stage = .waiting) (hfull : d.node.inFullSync = false) (hc : d.lastLSN ≤ j)
    (hm : Shows log j d.held) (hread : Sends log (.upTo j) (m :: rest))
    (ha : m.Timely d.node nowMs nowMono) (hn : d.node.receive m nowMs nowMono = some n) :
    Synced log ⟨n, rest⟩ := by
  have hblank := h.blank (by simp [hstage])
  cases m with
  | record r =>
    obtain ⟨⟨i, r', hr', hlsn, hcarry⟩, hle, hrest⟩ := hread
    obtain ⟨hnew, hfit, hlive⟩ := ha
    obtain ⟨⟨ok, e⟩, happly, rfl⟩ := Option.map_eq_some_iff.mp hn
    obtain ⟨rfl, hpassive, hlast, hcont⟩ := h.passive.applyRecord hfit hlive happly
    have hsub : r.Submittable := by
      rw [hcarry]
      exact hlog r' (List.mem_of_getElem? hr')
    refine ⟨hpassive, fun hno => absurd rfl (hno r), ?_⟩
    show Phase log e rest (.submitting r) d.node.inFullSync
    rw [hfull]
    refine .submitting (.upTo r.lsn) hsub ?_ ?_ hrest
    · show e.lastLSN + 1 ≤ r.lsn
      omega
    · show Shows log r.lsn e.store.contents
      rw [hcont, hlsn]
      exact hm.record hr' (by omega) hcarry
  | fullBegin lsn =>
    obtain ⟨b, hjb, hrest⟩ := hread
    cases hn
    exact ⟨h.passive, fun _ => hblank,
      .flushing (hc.trans hjb) (fun k hk => absurd hk (Nat.not_lt_zero _)) hrest⟩
  | heartbeat lsn epoch =>
    have hwaits : Phase log d.node.engine rest d.node.stage d.node.inFullSync := by
      rw [hstage, hfull]
      exact .waiting (.upTo j) hc hm hread
    simp only [Node.receive] at hn
    split_ifs at hn <;> cases hn
    · exact ⟨h.passive, fun _ => hblank, .down hc hm⟩
    · exact ⟨h.passive, fun _ => hblank, hwaits⟩
    · exact ⟨h.passive, fun _ => hblank, hwaits⟩
  | _ => exact absurd hread id

/-- A message for a replica inside a full resync. -/
theorem receive_resync (h : Synced log d) (hstage : d.node.stage = .waiting)
    (hfull : d.node.inFullSync = true) (hc : d.lastLSN ≤ b)
    (hread : Sends log (.resync b d.held) (m :: rest)) (ha : m.Timely d.node nowMs nowMono)
    (hn : d.node.receive m nowMs nowMono = some n) : Synced log ⟨n, rest⟩ := by
  cases m with
  | record r =>
    obtain ⟨⟨hsub, -, hle⟩, hrest⟩ := hread
    obtain ⟨hnew, hfit, hlive⟩ := ha
    obtain ⟨⟨ok, e⟩, happly, rfl⟩ := Option.map_eq_some_iff.mp hn
    obtain ⟨rfl, hpassive, hlast, hcont⟩ := h.passive.applyRecord hfit hlive happly
    refine ⟨hpassive, fun hno => absurd rfl (hno r), ?_⟩
    show Phase log e rest (.submitting r) d.node.inFullSync
    rw [hfull]
    refine .submitting (.resync b e.store.contents) hsub ?_ rfl ?_
    · show e.lastLSN + 1 ≤ b
      omega
    · rw [hcont]
      exact hrest
  | fullEnd lsn =>
    obtain ⟨hshows, hrest⟩ := hread
    cases hn
    refine ⟨h.passive, fun _ => h.blank (by simp [hstage]), ?_⟩
    show Phase log d.node.engine rest d.node.stage false
    rw [hstage]
    exact .waiting (.upTo b) hc hshows hrest
  | _ => exact absurd hread id

theorem recv (hlog : ∀ r ∈ log, r.Submittable) (h : Synced log d) (hstream : d.stream = m :: rest)
    (ha : m.Timely d.node nowMs nowMono) (hn : d.node.step (.recv m nowMs nowMono) = some n) :
    Synced log ⟨n, rest⟩ := by
  have hstage := recv_waiting hn
  have hreceive : d.node.receive m nowMs nowMono = some n := (if_pos hstage).symm.trans hn
  obtain ⟨p, hfull, hc, hm, hread⟩ := h.of_waiting hstage
  rw [hstream] at hread
  cases p with
  | upTo j => exact h.receive_upTo hlog hstage hfull hc hm hread ha hreceive
  | resync b held =>
    have hm : d.held = held := hm
    exact h.receive_resync hstage hfull hc (hm ▸ hread) ha hreceive

/-! ### The other steps -/

theorem engine (h : Synced log d) {a : EngineAction} (ha : (SyncAction.node (.engine a)).Aligned d)
    (hn : d.node.step (.engine a) = some n) : Synced log ⟨n, d.stream⟩ := by
  obtain ⟨e, he, rfl⟩ := Option.map_eq_some_iff.mp hn
  have hspare : ∀ k v x, d.node.engine.store.contents k = some (v, x) → a.Spares k x := by
    intro k v x hk
    refine ha _ (h.passive.plain.inRange k) k ?_ _ hk
    refine AList.mem_keys.mp (AList.lookup_isSome.mp ?_)
    rw [← contents_isSome]
    exact Option.isSome_of_eq_some hk
  obtain ⟨hpassive, hlog, hcont, hroute⟩ := h.passive.step hspare he
  have hlast : e.lastLSN = d.node.engine.lastLSN := by rw [Engine.lastLSN, hlog]; rfl
  refine ⟨hpassive, fun hno hzero => ?_, h.phase.congr hlast hcont hroute⟩
  exact hcont.trans (h.blank hno (hlast.symm.trans hzero))

theorem submit (h : Synced log d) (hn : d.node.step (.submit nowMs) = some n) :
    Synced log ⟨n, d.stream⟩ := by
  replace hn : d.node.submit nowMs = some n := hn
  unfold Node.submit at hn
  split at hn
  · rename_i r hstage
    have hphase := h.phase
    obtain ⟨full, hfull⟩ : ∃ full, d.node.inFullSync = full := ⟨_, rfl⟩
    rw [hstage, hfull] at hphase
    cases hphase with
    | submitting p hsub hc hm hread =>
      obtain ⟨lsn, w, hsubmit, hpassive, hlast⟩ := h.passive.submit hsub nowMs
      rw [hsubmit] at hn
      cases hn
      refine ⟨hpassive, fun _ hzero => ?_, ?_⟩
      · exact absurd (hlast.symm.trans hzero) (Nat.succ_ne_zero _)
      · show Phase log { d.node.engine with log := w } d.stream .waiting d.node.inFullSync
        rw [hfull]
        exact .waiting p (hlast.trans_le hc) hm hread
  · cases hn

theorem flushShard (h : Synced log d) (hn : d.node.step .flushShard = some n) :
    Synced log ⟨n, d.stream⟩ := by
  replace hn : d.node.flushShard = some n := hn
  unfold Node.flushShard at hn
  split at hn
  · rename_i i hstage
    have hphase := h.phase
    have hblank := h.blank (by simp [hstage])
    rw [hstage] at hphase
    cases hphase with
    | flushing hc hgone hread =>
      split_ifs at hn with hi
      · obtain ⟨⟨x, e⟩, he, rfl⟩ := Option.map_eq_some_iff.mp hn
        obtain ⟨hplain, hcont⟩ := h.passive.plain.flush i
        cases onShard_readOnly h.passive.readOnly he
        have hflushed : ∀ k, ((d.node.engine.store.put i { (d.node.engine.store.shards i).flushLocked
            with onEvict := [] }).contents k) =
              if d.node.engine.store.shardFor k = i then none else d.held k := by
          intro k
          rw [contents_put_report, hcont]
          rfl
        refine ⟨h.passive.withStore (hplain.put_report []), fun _ hzero => ?_,
          .flushing hc (fun k hk => (hflushed k).trans ?_) hread⟩
        · funext k
          refine (hflushed k).trans ?_
          rw [hblank hzero, ite_self]
        · have hk : d.node.engine.store.shardFor k < i + 1 := hk
          split_ifs with hki
          · rfl
          · exact hgone k (by omega)
      · cases hn
        refine ⟨h.passive, fun _ => hblank, .snapshotting hc (funext fun k => hgone k ?_) hread⟩
        exact (h.passive.plain.inRange k).trans_le (not_lt.mp hi)
  · cases hn

/-- The replica hangs up before anything of a full resync has arrived. -/
theorem hangUp_blank (h : Synced log d) (hno : ∀ r, d.node.stage ≠ .submitting r)
    (hzero : d.lastLSN = 0) : Synced log ⟨d.node.hangUp, d.stream⟩ := by
  have hheld := h.blank hno hzero
  refine ⟨h.passive, fun _ _ => hheld, .down (j := 0) hzero.le ?_⟩
  show Shows log 0 d.held
  rw [hheld]
  exact .blank log

theorem snapshot (h : Synced log d) {ok : Bool} (ha : (SyncAction.node (.snapshot ok)).Aligned d)
    (hn : d.node.step (.snapshot ok) = some n) : Synced log ⟨n, d.stream⟩ := by
  replace hn : d.node.snapshot ok = some n := hn
  unfold Node.snapshot at hn
  split at hn
  · rename_i hstage
    have hno : ∀ r, d.node.stage ≠ .submitting r := by simp [hstage]
    have hphase := h.phase
    rw [hstage] at hphase
    cases hphase with
    | snapshotting hc hgone hread =>
      split_ifs at hn with hok
      · cases hn
        refine ⟨h.passive, fun _ => h.blank hno, ?_⟩
        exact .waiting (.resync _ fun _ => none) hc hgone hread
      · cases hn
        exact h.hangUp_blank hno (ha.resolve_left hok)
  · cases hn

theorem disconnect (h : Synced log d) (ha : (SyncAction.node .disconnect).Aligned d)
    (hn : d.node.step .disconnect = some n) : Synced log ⟨n, d.stream⟩ := by
  replace hn : (if d.node.stage = .waiting then some d.node.hangUp else none) = some n := hn
  split_ifs at hn with hstage
  cases hn
  have hno : ∀ r, d.node.stage ≠ .submitting r := by simp [hstage]
  obtain ⟨p, hfull, hc, hm, -⟩ := h.of_waiting hstage
  cases p with
  | upTo j => exact ⟨h.passive, fun _ => h.blank hno, .down hc hm⟩
  | resync b held => exact h.hangUp_blank hno (ha hfull)

theorem connect (h : Synced log d) {msgs : List StreamMsg}
    (hsent : (SyncAction.connect msgs).Sent log d)
    (hstep : d.sync (.connect msgs) = some d') : Synced log d' := by
  obtain ⟨n, hn, rfl⟩ := Option.map_eq_some_iff.mp hstep
  unfold Node.connect at hn
  split at hn
  · rename_i hstage
    cases hn
    have hphase := h.phase
    rw [hstage] at hphase
    cases hphase with
    | down hc hm =>
      exact ⟨h.passive, fun _ => h.blank (by simp [hstage]),
        .waiting (.upTo d.lastLSN) le_rfl (hm.back hc) hsent⟩
  · cases hn

theorem step (hlog : ∀ r ∈ log, r.Submittable) (h : Synced log d) {a : SyncAction}
    (hsent : a.Sent log d) (ha : a.Aligned d) (hstep : d.sync a = some d') : Synced log d' := by
  cases a with
  | connect msgs => exact h.connect hsent hstep
  | node a =>
    obtain ⟨n', stream'⟩ := d'
    obtain ⟨hn, hp, hc, hread⟩ := Delivery.step_cases (show d.step a = some ⟨n', stream'⟩ from hstep)
    cases a with
    | promote => exact absurd rfl hp
    | connect => exact absurd rfl hc
    | recv m nowMs nowMono =>
      rcases hread with ⟨m', t, t', heq, hstream⟩ | ⟨hno, -⟩
      · cases heq
        exact h.recv hlog hstream ha hn
      · exact absurd rfl (hno m nowMs nowMono)
    | _ =>
      obtain ⟨m', t, t', hbad, -⟩ | ⟨-, hstream⟩ := hread
      · cases hbad
      · cases hstream
        first
          | exact h.engine ha hn
          | exact h.submit hn
          | exact h.flushShard hn
          | exact h.snapshot ha hn
          | exact h.disconnect ha hn

theorem init {o : Options} (newSeed : UInt64) (hmem : o.maxMemory ≤ 0) :
    Synced log ⟨newReplica o newSeed, []⟩ := by
  have hheld : (newStore o newSeed).contents = fun _ => none := funext (newStore_contents o newSeed)
  refine ⟨⟨newStore_plain o newSeed hmem, rfl, fun _ => rfl, ⟨rfl, rfl⟩, ⟨rfl, rfl⟩, Nat.one_pos⟩,
    fun _ _ => hheld, .down (j := 0) le_rfl ?_⟩
  show Shows log 0 (newStore o newSeed).contents
  rw [hheld]
  exact .blank log

end Synced

/-! ## Runs -/

/-- The connections of a run, each with the LSN of its SYNC and what arrives on it. -/
def SyncAction.Among (sessions : List (ℕ × List StreamMsg)) (d : Delivery) : SyncAction → Prop
  | .connect msgs => (d.lastLSN, msgs) ∈ sessions
  | .node _ => True

instance (sessions : List (ℕ × List StreamMsg)) (d : Delivery) :
    (a : SyncAction) → Decidable (a.Among sessions d)
  | .connect _ => inferInstanceAs (Decidable (_ ∈ _))
  | .node _ => instDecidableTrue

theorem SyncAction.Among.sent {log : List Record} {sessions : List (ℕ × List StreamMsg)}
    {d : Delivery} {a : SyncAction} (ha : a.Among sessions d)
    (h : ∀ s ∈ sessions, Sends log (.upTo s.1) s.2) : a.Sent log d := by
  cases a with
  | connect msgs => exact h _ ha
  | node a => trivial

end KvStore
