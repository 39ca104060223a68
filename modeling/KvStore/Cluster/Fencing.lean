import KvStore.Cluster.Node
import KvStore.Engine.StoreSteps

/-!
# Epoch fencing and promotion

The epoch of a primary travels in heartbeats only, and `replicateOnce` acts on every RECORD
and FULL_BEGIN it reads before one arrives. So a stale primary is kept out when a heartbeat
is the first thing it sends, and not otherwise; and `Promote` raises the epoch without
stopping the replication goroutine, so the same holds of the node's own old primary.

* `Node.quiet_of_step`: what a node can do while it reads no RECORD and no FULL_BEGIN.
* `stale_stream_refused`, `stale_resync_replaces`: a stream of `streamTo` from below the
  epoch of the node.
* `promotion_cuts_upstream`, `promoted_node_overwritten`: a node after `Promote`.
-/

namespace KvStore

open KvStore.Common

variable {n n' : Node} {a : NodeAction}

/-! ## A node that refuses -/

/-- The message makes a node at `epoch` hang up: a heartbeat from below it, or REJECT. -/
def StreamMsg.Refused (epoch : UInt64) : StreamMsg → Prop
  | .heartbeat _ ep => ep < epoch
  | .reject _ => True
  | _ => False

instance (epoch : UInt64) : (m : StreamMsg) → Decidable (m.Refused epoch)
  | .heartbeat _ ep => inferInstanceAs (Decidable (ep < epoch))
  | .reject _ => instDecidableTrue
  | .record _ | .fullBegin _ | .fullEnd _ | .ack _ => instDecidableFalse

/-- The messages on which `replicateOnce` changes the keyspace. -/
def StreamMsg.Writes : StreamMsg → Prop
  | .record _ => True
  | .fullBegin _ => True
  | _ => False

instance : (m : StreamMsg) → Decidable m.Writes
  | .record _ | .fullBegin _ => instDecidableTrue
  | .heartbeat .. | .reject _ | .fullEnd _ | .ack _ => instDecidableFalse

theorem StreamMsg.Refused.not_writes {m : StreamMsg} {epoch : UInt64} (h : m.Refused epoch) :
    ¬ m.Writes := by
  cases m with
  | record r => exact absurd h id
  | fullBegin lsn => exact absurd h id
  | _ => exact id

/-- What the step reads from the stream, if it reads, is no RECORD and no FULL_BEGIN. -/
def NodeAction.Cut : NodeAction → Prop
  | .recv m _ _ => ¬ m.Writes
  | _ => True

instance : (a : NodeAction) → Decidable a.Cut
  | .recv m _ _ => inferInstanceAs (Decidable (¬ m.Writes))
  | .engine _ | .promote | .connect | .submit _ | .flushShard | .snapshot _ | .disconnect =>
    instDecidableTrue

/-- The replication goroutine is between two messages or between two connections. -/
def Node.Idle (n : Node) : Prop := n.stage = .waiting ∨ n.stage = .down

instance (n : Node) : Decidable n.Idle := inferInstanceAs (Decidable (_ ∨ _))

theorem Node.receive_idle {m : StreamMsg} {nowMs nowMono : UInt64} (hs : n.stage = .waiting)
    (hm : ¬ m.Writes) (h : n.receive m nowMs nowMono = some n') :
    n'.engine = n.engine ∧ n'.Idle := by
  cases m with
  | record r => exact absurd trivial hm
  | fullBegin lsn => exact absurd trivial hm
  | fullEnd lsn =>
    cases h
    exact ⟨rfl, .inl hs⟩
  | heartbeat lsn epoch =>
    simp only [Node.receive] at h
    split_ifs at h <;> cases h
    · exact ⟨rfl, .inr rfl⟩
    · exact ⟨rfl, .inl hs⟩
    · exact ⟨rfl, .inl hs⟩
  | reject reason =>
    cases h
    exact ⟨rfl, .inr rfl⟩
  | ack lsn =>
    cases h
    exact ⟨rfl, .inr rfl⟩

theorem Node.receive_refused {m : StreamMsg} {nowMs nowMono : UInt64} (hm : m.Refused n.epoch)
    (h : n.receive m nowMs nowMono = some n') : n'.epoch = n.epoch ∧ n'.stage = .down := by
  cases m with
  | heartbeat lsn epoch =>
    have hlt : epoch < n.epoch := hm
    simp only [Node.receive, Node.hangUp, hlt, if_true] at h
    cases h
    exact ⟨rfl, rfl⟩
  | reject reason =>
    cases h
    exact ⟨rfl, rfl⟩
  | _ => exact absurd hm id

/-- The steps of an idle node that stays idle. -/
inductive Node.Quiet (n : Node) : NodeAction → Node → Prop
  | engine (a : EngineAction) (e : Engine) (h : n.engine.step a = some e) :
    Quiet n (.engine a) { n with engine := e }
  | connect (h : n.stage = .down) :
    Quiet n .connect
      { n with stage := .waiting, appliedLSN := n.engine.lastLSN, inFullSync := false }
  | read (m : StreamMsg) (nowMs nowMono : UInt64) (n' : Node)
    (h : n.receive m nowMs nowMono = some n') (hengine : n'.engine = n.engine) (hidle : n'.Idle) :
    Quiet n (.recv m nowMs nowMono) n'
  | disconnect (h : n.stage = .waiting) : Quiet n .disconnect { n with stage := .down }

theorem Node.quiet_of_step (hidle : n.Idle) (ha : a.Cut) (hp : a ≠ .promote)
    (h : n.step a = some n') : n.Quiet a n' := by
  cases a with
  | engine a =>
    obtain ⟨e, he, rfl⟩ := Option.map_eq_some_iff.mp h
    exact .engine a e he
  | promote => exact absurd rfl hp
  | connect =>
    replace h : n.connect = some n' := h
    rcases hidle with hs | hs
    · simp only [Node.connect, hs] at h
      cases h
    · simp only [Node.connect, hs] at h
      cases h
      exact .connect hs
  | recv m nowMs nowMono =>
    replace h : (if n.stage = .waiting then n.receive m nowMs nowMono else none) = some n' := h
    split_ifs at h with hs
    obtain ⟨hengine, hidle'⟩ := Node.receive_idle hs ha h
    exact .read m nowMs nowMono n' h hengine hidle'
  | submit nowMs =>
    replace h : n.submit nowMs = some n' := h
    rcases hidle with hs | hs <;> simp only [Node.submit, hs] at h <;> cases h
  | flushShard =>
    replace h : n.flushShard = some n' := h
    rcases hidle with hs | hs <;> simp only [Node.flushShard, hs] at h <;> cases h
  | snapshot ok =>
    replace h : n.snapshot ok = some n' := h
    rcases hidle with hs | hs <;> simp only [Node.snapshot, hs] at h <;> cases h
  | disconnect =>
    replace h : (if n.stage = .waiting then some n.hangUp else none) = some n' := h
    split_ifs at h with hs
    cases h
    exact .disconnect hs

theorem Node.Quiet.idle (h : n.Quiet a n') (hidle : n.Idle) : n'.Idle := by
  cases h with
  | engine => exact hidle
  | connect => exact .inl rfl
  | read m t t' n' h he hi => exact hi
  | disconnect => exact .inr rfl

/-- Only the engine's own steps reach the engine. -/
theorem Node.Quiet.engine_eq (h : n.Quiet a n') (ha : ∀ b, a ≠ .engine b) :
    n'.engine = n.engine := by
  cases h with
  | engine b => exact absurd rfl (ha b)
  | connect => rfl
  | read m t t' n' h he hi => exact he
  | disconnect => rfl

theorem Node.Quiet.local_steps (h : n.Quiet a n') {ok : Engine → EngineAction → Prop}
    (hok : ∀ b, a = .engine b → ok n.engine b) {e : Engine}
    (hrun : Run Engine.step ok e n.engine) : Run Engine.step ok e n'.engine := by
  cases h with
  | engine b e' hstep => exact hrun.tail b (hok b rfl) hstep
  | connect => exact hrun
  | read m t t' n' h he hi =>
    rw [he]
    exact hrun
  | disconnect => exact hrun

/-! ## One stream of a stale primary -/

/-- What `catchUp` writes (primary.go lines 194–283): records of the log, or a full resync. -/
inductive CatchUpMsgs : List StreamMsg → Prop
  | backlog (rs : List Record) : CatchUpMsgs (rs.map .record)
  | full (lsn : ℕ) (rs : List Record) :
    CatchUpMsgs (.fullBegin lsn :: rs.map .record ++ [.fullEnd lsn])

/-- What the live tail of `streamTo` writes (lines 143–183), at an epoch below `epoch`. -/
def StreamMsg.Tail (epoch : UInt64) : StreamMsg → Prop
  | .record _ => True
  | .heartbeat _ ep => ep < epoch
  | _ => False

/-- The messages one call of `streamTo` on a primary below `epoch` has written, cut off
    anywhere. -/
def StreamBelow (epoch : UInt64) (msgs : List StreamMsg) : Prop :=
  ∃ backlog tail, CatchUpMsgs backlog ∧ (∀ m ∈ tail, m.Tail epoch) ∧ msgs <+: backlog ++ tail

/-- A node and what is left to read of one connection. -/
structure Delivery where
  node : Node
  stream : List StreamMsg

/-- The node runs on, reading the stream in order; `replicateOnce` has not returned or has
    returned for good. -/
def Delivery.step (d : Delivery) : NodeAction → Option Delivery
  | .promote => none
  | .connect => none
  | .recv m nowMs nowMono =>
    match d.stream with
    | [] => none
    | m' :: rest =>
      if m = m' then (d.node.step (.recv m nowMs nowMono)).map fun n => ⟨n, rest⟩ else none
  | a => (d.node.step a).map fun n => ⟨n, d.stream⟩

theorem Delivery.step_cases {d d' : Delivery} (h : d.step a = some d') :
    d.node.step a = some d'.node ∧ a ≠ .promote ∧ a ≠ .connect ∧
      ((∃ m t t', a = .recv m t t' ∧ d.stream = m :: d'.stream) ∨
        (∀ m t t', a ≠ .recv m t t') ∧ d'.stream = d.stream) := by
  have hother : ∀ b, (d.node.step b).map (fun n => (⟨n, d.stream⟩ : Delivery)) = some d' →
      d.node.step b = some d'.node ∧ d'.stream = d.stream := by
    intro b hb
    obtain ⟨nd, hnd, rfl⟩ := Option.map_eq_some_iff.mp hb
    exact ⟨hnd, rfl⟩
  cases a with
  | promote => cases h
  | connect => cases h
  | recv m nowMs nowMono =>
    rcases hstream : d.stream with _ | ⟨m', rest⟩
    · simp only [Delivery.step, hstream] at h
      cases h
    simp only [Delivery.step, hstream] at h
    split_ifs at h with hm
    subst hm
    obtain ⟨nd, hnd, rfl⟩ := Option.map_eq_some_iff.mp h
    exact ⟨hnd, by simp, by simp, .inl ⟨m, nowMs, nowMono, rfl, rfl⟩⟩
  | engine b =>
    obtain ⟨hnd, hstream⟩ := hother _ h
    exact ⟨hnd, by simp, by simp, .inr ⟨by simp, hstream⟩⟩
  | submit nowMs =>
    obtain ⟨hnd, hstream⟩ := hother _ h
    exact ⟨hnd, by simp, by simp, .inr ⟨by simp, hstream⟩⟩
  | flushShard =>
    obtain ⟨hnd, hstream⟩ := hother _ h
    exact ⟨hnd, by simp, by simp, .inr ⟨by simp, hstream⟩⟩
  | snapshot ok =>
    obtain ⟨hnd, hstream⟩ := hother _ h
    exact ⟨hnd, by simp, by simp, .inr ⟨by simp, hstream⟩⟩
  | disconnect =>
    obtain ⟨hnd, hstream⟩ := hother _ h
    exact ⟨hnd, by simp, by simp, .inr ⟨by simp, hstream⟩⟩

/-- What holds while a stream that begins with a stale heartbeat is delivered to `n`. -/
structure Delivery.Refusing (n : Node) (msgs : List StreamMsg) (d : Delivery) : Prop where
  stage : d.node.stage = .waiting ∧ d.stream = msgs ∨ d.node.stage = .down
  epoch : d.node.epoch = n.epoch
  engine : Run Engine.step Always n.engine d.node.engine

theorem recv_waiting {m : StreamMsg} {nowMs nowMono : UInt64}
    (h : n.step (.recv m nowMs nowMono) = some n') : n.stage = .waiting := by
  by_contra hs
  have hnone : n.step (.recv m nowMs nowMono) = none := if_neg hs
  rw [hnone] at h
  cases h

section
variable {d d' : Delivery} {m : StreamMsg} {rest : List StreamMsg}

/-- What is read is the head of the whole stream, since nothing is read after a refusal. -/
theorem Delivery.Refusing.refused (hm : m.Refused n.epoch) (h : d.Refusing n (m :: rest))
    (hstep : d.step a = some d') {m' : StreamMsg} {t t' : UInt64} (ha : a = .recv m' t t') :
    m'.Refused d.node.epoch := by
  subst ha
  obtain ⟨hnode, -, -, hread⟩ := Delivery.step_cases hstep
  rcases h.stage with ⟨-, hall⟩ | hdown
  · obtain ⟨m'', t, t', heq, hstream⟩ | ⟨hno, -⟩ := hread
    · cases heq
      obtain ⟨rfl, -⟩ := List.cons.inj (hstream.symm.trans hall)
      rwa [h.epoch]
    · exact absurd rfl (hno m' t t')
  · rw [recv_waiting hnode] at hdown
    cases hdown

theorem Delivery.Refusing.quiet (hm : m.Refused n.epoch) (h : d.Refusing n (m :: rest))
    (hstep : d.step a = some d') : d.node.Quiet a d'.node := by
  obtain ⟨hnode, hp, -, -⟩ := Delivery.step_cases hstep
  refine Node.quiet_of_step (h.stage.imp And.left id) ?_ hp hnode
  cases a with
  | recv m' t t' => exact (h.refused hm hstep rfl).not_writes
  | _ => trivial

theorem Delivery.Refusing.step (hm : m.Refused n.epoch) (h : d.Refusing n (m :: rest))
    (hstep : d.step a = some d') : d'.Refusing n (m :: rest) := by
  obtain ⟨-, -, hc, hread⟩ := Delivery.step_cases hstep
  have hquiet := h.quiet hm hstep
  have hengine := hquiet.local_steps (fun _ _ => trivial) h.engine
  have hrefused : ∀ m' t t', a = .recv m' t t' → m'.Refused d.node.epoch :=
    fun m' t t' => h.refused hm hstep
  obtain ⟨nd, stream⟩ := d'
  dsimp only at hquiet hengine hread
  cases hquiet with
  | engine b e hb =>
    obtain ⟨m', t, t', hbad, -⟩ | ⟨-, hstream⟩ := hread
    · cases hbad
    · refine ⟨?_, h.epoch, hengine⟩
      rw [hstream]
      exact h.stage
  | connect => exact absurd rfl hc
  | read m' t t' nd hnd =>
    obtain ⟨hepoch, hdown⟩ := Node.receive_refused (hrefused m' t t' rfl) hnd
    exact ⟨.inr hdown, hepoch.trans h.epoch, hengine⟩
  | disconnect => exact ⟨.inr rfl, h.epoch, hengine⟩

end

/-- A stale primary whose first message is a heartbeat changes nothing: while its stream is
    delivered, the engine of the node is what its own steps make of it, reading from the stream
    leaves it as it was, and once anything has been read the node has hung up. -/
theorem stale_stream_refused {msgs : List StreamMsg} {d : Delivery} (hstage : n.stage = .waiting)
    (hstream : StreamBelow n.epoch msgs) (hfirst : ∃ lsn ep, msgs.head? = some (.heartbeat lsn ep))
    (hrun : Run Delivery.step Always ⟨n, msgs⟩ d) :
    Run Engine.step Always n.engine d.node.engine ∧ d.node.epoch = n.epoch ∧
      (d.stream = msgs ∨ d.node.stage = .down) ∧
      ∀ m nowMs nowMono d', d.step (.recv m nowMs nowMono) = some d' →
        d'.node.engine = d.node.engine := by
  obtain ⟨lsn, ep, hhead⟩ := hfirst
  obtain ⟨rest, rfl⟩ := List.head?_eq_some_iff.mp hhead
  obtain ⟨backlog, tail, hback, htail, hpre⟩ := hstream
  -- the catch-up writes no heartbeat, so it was empty and this one is of the tail
  have hmem : StreamMsg.heartbeat lsn ep ∈ tail := by
    have hin : StreamMsg.heartbeat lsn ep ∈ backlog ++ tail := hpre.subset (List.mem_cons_self ..)
    rcases List.mem_append.mp hin with hin | hin
    · cases hback with
      | backlog rs => simp at hin
      | full lsn rs => simp at hin
    · exact hin
  have hlow : (StreamMsg.heartbeat lsn ep).Refused n.epoch := htail _ hmem
  have hinv : d.Refusing n (.heartbeat lsn ep :: rest) :=
    hrun.invariant (P := Delivery.Refusing n (.heartbeat lsn ep :: rest))
      (fun _ _ _ h _ hs => h.step hlow hs) ⟨.inl ⟨hstage, rfl⟩, rfl, .refl⟩
  refine ⟨hinv.engine, hinv.epoch, hinv.stage.imp And.right id, ?_⟩
  intro m nowMs nowMono d' hstep
  exact (hinv.quiet hlow hstep).engine_eq (by simp)

/-- The steps of the replication goroutine. -/
def NodeAction.Remote : NodeAction → Prop
  | .engine _ => False
  | .promote => False
  | _ => True

instance : (a : NodeAction) → Decidable a.Remote
  | .engine _ | .promote => instDecidableFalse
  | .connect | .recv .. | .submit _ | .flushShard | .snapshot _ | .disconnect => instDecidableTrue

/-- A node that has seen epoch 2. -/
def fencedNode : Node := { newReplica oneShard 1 with epoch := 2, stage := .waiting }

/-- SET as it arrives from a primary. -/
def sentSet (lsn : ℕ) (key value : Bytes) : StreamMsg :=
  .record { Engine.record .set key value 0 with lsn := lsn }

/-- Such a node, and a primary at epoch 1 whose replica was up to date: the heartbeat comes
    first and the record behind it is not read. -/
theorem stale_stream_refused_once :
    ∃ d, Delivery.step ⟨fencedNode, [.heartbeat 5 1, sentSet 6 [1] [2]]⟩
        (.recv (.heartbeat 5 1) 0 0) = some d ∧
      d.node.stage = .down ∧ d.stream = [sentSet 6 [1] [2]] ∧ d.node.engine = fencedNode.engine := by
  have hread : ((Delivery.step ⟨fencedNode, [.heartbeat 5 1, sentSet 6 [1] [2]]⟩
      (.recv (.heartbeat 5 1) 0 0)).any fun d =>
        decide (d.node.stage = .down ∧ d.stream = [sentSet 6 [1] [2]])) = true := by decide +kernel
  obtain ⟨d, hstep, h⟩ := (Option.any_eq_true _ _).mp hread
  obtain ⟨hdown, hleft⟩ := of_decide_eq_true h
  have hbelow : StreamBelow fencedNode.epoch [.heartbeat 5 1, sentSet 6 [1] [2]] := by
    refine ⟨[], _, .backlog [], ?_, List.prefix_rfl⟩
    intro m hm
    fin_cases hm
    · show (1 : UInt64) < 2
      decide
    · trivial
  exact ⟨d, hstep, hdown, hleft,
    (stale_stream_refused rfl hbelow ⟨5, 1, rfl⟩ .refl).2.2.2 _ 0 0 d hstep⟩

/-- What a primary at epoch 1 with the one key `[3]` sends a replica that has to be resynced. -/
def staleResync : List StreamMsg :=
  [.fullBegin 0, sentSet 0 [3] [4], .fullEnd 0, .heartbeat 1 1]

theorem staleResync_below : StreamBelow 2 staleResync := by
  refine ⟨_, [.heartbeat 1 1], .full 0 [{ Engine.record .set [3] [4] 0 with lsn := 0 }], ?_,
    List.prefix_rfl⟩
  intro m hm
  fin_cases hm
  show (1 : UInt64) < 2
  decide

/-- A node with the key `[1]` and epoch 2 connects to that primary. When it refuses the
    stream, its keyspace is the other's. -/
theorem stale_resync_replaces :
    ∃ n d, Run Node.step Always (newReplica oneShard 1) n ∧ n.stage = .waiting ∧
      StreamBelow n.epoch staleResync ∧
      Run Delivery.step (fun _ a => a.Remote) ⟨n, staleResync⟩ d ∧
      d.node.stage = .down ∧ d.node.epoch = n.epoch ∧
      n.engine.store.contents [1] = some ([2], 0) ∧ n.engine.store.contents [3] = none ∧
      d.node.engine.store.contents [1] = none ∧
      d.node.engine.store.contents [3] = some ([4], 0) := by
  let refusal : List NodeAction :=
    [.recv (.fullBegin 0) 0 0, .flushShard, .flushShard, .snapshot true,
      .recv (sentSet 0 [3] [4]) 0 0, .submit 0, .recv (.fullEnd 0) 0 0, .recv (.heartbeat 1 1) 0 0]
  obtain ⟨n, hn, hstage, hepoch, h1, h3, hd⟩ := Run.exists_of_exec Node.step (newReplica oneShard 1)
    [.connect, .recv (.heartbeat 0 2) 0 0, .recv (sentSet 1 [1] [2]) 0 0, .submit 0, .disconnect,
      .connect]
    (fun n => n.stage = .waiting ∧ n.epoch = 2 ∧ n.engine.store.contents [1] = some ([2], 0) ∧
      n.engine.store.contents [3] = none ∧
      ((exec (guarded Delivery.step fun _ a => a.Remote) ⟨n, staleResync⟩ refusal).any fun d =>
        decide (d.node.stage = .down ∧ d.node.epoch = 2 ∧ d.node.engine.store.contents [1] = none ∧
          d.node.engine.store.contents [3] = some ([4], 0))) = true)
    (by decide +kernel)
  obtain ⟨d, hrun, hdown, hep, h1', h3'⟩ := Run.exists_of_guarded Delivery.step
    (fun _ a => a.Remote) ⟨n, staleResync⟩ refusal
    (fun d => d.node.stage = .down ∧ d.node.epoch = 2 ∧ d.node.engine.store.contents [1] = none ∧
      d.node.engine.store.contents [3] = some ([4], 0)) hd
  refine ⟨n, d, hn, hstage, ?_, hrun, hdown, ?_, h1, h3, h1', h3'⟩
  · rw [hepoch]
    exact staleResync_below
  · rw [hep, hepoch]

/-! ## After `Promote` -/

/-- A promoted node whose replication goroutine is between messages. -/
structure Node.Promoted (n : Node) : Prop where
  idle : n.Idle
  primary : n.engine.readOnly = false

/-- The bound on a step: no shard reaches `2^31` entries. -/
def NodeAction.Fits (n : Node) : NodeAction → Prop
  | .engine a => a.Fits n.engine
  | .recv (.record r) _ nowMono => r.FitsIn n.engine nowMono
  | _ => True

instance (n : Node) : (a : NodeAction) → Decidable (a.Fits n)
  | .engine a => inferInstanceAs (Decidable (a.Fits n.engine))
  | .recv (.record r) _ nowMono => inferInstanceAs (Decidable (r.FitsIn n.engine nowMono))
  | .recv (.heartbeat ..) _ _ | .recv (.fullBegin _) _ _ | .recv (.fullEnd _) _ _
  | .recv (.ack _) _ _ | .recv (.reject _) _ _ | .promote | .connect | .submit _ | .flushShard
  | .snapshot _ | .disconnect => instDecidableTrue

/-- The step is no mutation of `k` by a client, and no removal after the deadline `x`. -/
def NodeAction.Spares (k : Bytes) (x : UInt64) : NodeAction → Prop
  | .engine a => a.Spares k x
  | _ => True

instance (k : Bytes) (x : UInt64) : (a : NodeAction) → Decidable (a.Spares k x)
  | .engine a => inferInstanceAs (Decidable (a.Spares k x))
  | .recv .. | .promote | .connect | .submit _ | .flushShard | .snapshot _ | .disconnect =>
    instDecidableTrue

theorem Node.Promoted.step (h : n.Promoted) (ha : a.Cut) (hstep : n.step a = some n') :
    n.Quiet a n' ∧ n'.Promoted := by
  have hp : a ≠ .promote := by
    rintro rfl
    have hnone : n.step .promote = none := by simp [Node.step, Node.promote, h.primary]
    rw [hnone] at hstep
    cases hstep
  have hquiet := Node.quiet_of_step h.idle ha hp hstep
  refine ⟨hquiet, hquiet.idle h.idle, ?_⟩
  cases hquiet with
  | engine b e hb => exact (Engine.step_readOnly hb).trans h.primary
  | connect => exact h.primary
  | read m t t' n' h' he hi =>
    rw [he]
    exact h.primary
  | disconnect => exact h.primary

/-- Whatever the stream brings, the store of a node without a memory limit stays plain. -/
theorem Node.step_plain (h : n.engine.store.Plain) (ha : a.Fits n) (hstep : n.step a = some n') :
    n'.engine.store.Plain := by
  cases a with
  | engine a =>
    obtain ⟨e, he, rfl⟩ := Option.map_eq_some_iff.mp hstep
    exact (Engine.step_changes h ha he).1
  | promote =>
    replace hstep : n.promote = some n' := hstep
    unfold Node.promote at hstep
    split_ifs at hstep
    cases hstep
    exact h
  | connect =>
    replace hstep : n.connect = some n' := hstep
    unfold Node.connect at hstep
    split at hstep <;> cases hstep
    exact h
  | recv m nowMs nowMono =>
    replace hstep : (if n.stage = .waiting then n.receive m nowMs nowMono else none) = some n' :=
      hstep
    split_ifs at hstep
    cases m with
    | record r =>
      obtain ⟨⟨ok, e⟩, he, rfl⟩ := Option.map_eq_some_iff.mp hstep
      exact (Engine.applyRecord_effect h ha he).2.1
    | heartbeat lsn epoch =>
      simp only [Node.receive] at hstep
      split_ifs at hstep <;> cases hstep <;> exact h
    | fullBegin lsn => cases hstep; exact h
    | fullEnd lsn => cases hstep; exact h
    | ack lsn => cases hstep; exact h
    | reject reason => cases hstep; exact h
  | submit nowMs =>
    replace hstep : n.submit nowMs = some n' := hstep
    unfold Node.submit at hstep
    split at hstep
    · split at hstep <;> cases hstep <;> exact h
    · cases hstep
  | flushShard =>
    replace hstep : n.flushShard = some n' := hstep
    unfold Node.flushShard at hstep
    split at hstep
    · split_ifs at hstep
      · obtain ⟨⟨u, e⟩, he, rfl⟩ := Option.map_eq_some_iff.mp hstep
        obtain ⟨-, -, q, d, rfl⟩ := onShard_eq he
        exact (h.flush _).1.put_report []
      · cases hstep
        exact h
    · cases hstep
  | snapshot ok =>
    replace hstep : n.snapshot ok = some n' := hstep
    unfold Node.snapshot at hstep
    split at hstep
    · cases hstep
      split_ifs <;> exact h
    · cases hstep
  | disconnect =>
    replace hstep : (if n.stage = .waiting then some n.hangUp else none) = some n' := hstep
    split_ifs at hstep
    cases hstep
    exact h

/-- An entry stays through the quiet steps that spare it. -/
theorem Node.Quiet.keeps (hq : n.Quiet a n') (h : n.engine.store.Plain) (ha : a.Fits n) {k v : Bytes}
    {x : UInt64} (hspare : a.Spares k x) (hk : n.engine.store.contents k = some (v, x)) :
    n'.engine.store.contents k = some (v, x) := by
  cases hq with
  | engine b e hb => exact (Engine.step_changes h ha hb).2.keeps hspare hk
  | connect => exact hk
  | read m t t' n' h' he hi =>
    rw [he]
    exact hk
  | disconnect => exact hk

theorem getRead_of_contents {s : Store} (h : s.Plain) {k v : Bytes} {x nowMs : UInt64}
    (hk : s.contents k = some (v, x)) (hx : expiredAt x nowMs = false) (nowMono : UInt64) :
    (s.getRead k nowMs nowMono).1 = (some v, false) := by
  obtain ⟨-, hread, hreap⟩ := getLocked_effect (h.index (s.shardFor k)).toKeyInv k nowMs nowMono
  have hc : (s.shards (s.shardFor k)).contents k = some (v, x) := hk
  rw [hc, liveAt_some, hx, if_neg Bool.false_ne_true] at hread
  rw [hc, deadAt_some, hx] at hreap
  obtain ⟨e, he, hval⟩ := Option.map_eq_some_iff.mp hread
  show (_, _) = _
  rw [hreap, he]
  exact congrArg (fun d => (some d.1, false)) hval

theorem Node.promote_primary {n₀ : Node} (h : n.promote = some n₀) :
    n₀.engine.readOnly = false := by
  unfold Node.promote at h
  split_ifs at h
  cases h
  rfl

/-- `Promote` returns while the replication goroutine is between messages, and the goroutine
    reads no RECORD and no FULL_BEGIN from then on. Then no step but those of the engine itself
    changes keyspace or log, and a value a client writes without a memory limit stays readable
    until a client changes it or its deadline passes. -/
theorem promotion_cuts_upstream {n₀ : Node} (hpromote : n.promote = some n₀) (hidle : n₀.Idle) :
    (∀ t, Run Node.step (fun _ a => a.Cut) n₀ t → ∀ a t', a.Cut → t.step a = some t' →
      (∀ b, a ≠ .engine b) → t'.engine = t.engine) ∧
    ∀ o seed, o.maxMemory ≤ 0 → Run Node.step (fun n a => a.Fits n) (newReplica o seed) n →
      ∀ t, Run Node.step (fun n a => a.Cut ∧ a.Fits n) n₀ t →
      ∀ k v ttl nowMs nowMono u w,
        (NodeAction.engine (.set k v ttl nowMs nowMono)).Fits t →
        t.step (.engine (.set k v ttl nowMs nowMono)) = some u →
        Run Node.step (fun n a => (a.Cut ∧ a.Fits n) ∧ a.Spares k (Engine.deadline ttl nowMs)) u w →
        ∀ now mono, expiredAt (Engine.deadline ttl nowMs) now = false →
          (w.engine.store.getRead k now mono).1 = (some v, false) := by
  have hprom₀ : n₀.Promoted := ⟨hidle, Node.promote_primary hpromote⟩
  have hprom : ∀ t, Run Node.step (fun _ a => a.Cut) n₀ t → t.Promoted := fun t hrun =>
    hrun.invariant (P := Node.Promoted) (fun _ _ _ h ha hs => (h.step ha hs).2) hprom₀
  refine ⟨fun t hrun a t' ha hstep hremote => ((hprom t hrun).step ha hstep).1.engine_eq hremote, ?_⟩
  intro o seed hmem hrun t hafter k v ttl nowMs nowMono u w hfit hset hrest now mono halive
  have hplain₀ : n.engine.store.Plain :=
    hrun.invariant (P := fun n => n.engine.store.Plain) (fun _ _ _ h ha hs => Node.step_plain h ha hs)
      (newStore_plain o seed hmem)
  have hplain : t.engine.store.Plain :=
    hafter.invariant (P := fun n => n.engine.store.Plain)
      (fun _ _ _ h ha hs => Node.step_plain h ha.2 hs)
      (Node.step_plain (a := .promote) hplain₀ trivial hpromote)
  obtain ⟨e, he, rfl⟩ := Option.map_eq_some_iff.mp hset
  obtain ⟨hplain', hchange⟩ := Engine.step_changes
    (a := .set k v ttl nowMs nowMono) hplain hfit he
  have hwritten : e.store.contents k = some (v, Engine.deadline ttl nowMs) := by
    generalize e.store.contents = m at hchange
    cases hchange with
    | set => exact Keyspace.set_self _ _ _ _
    | same _ hm => cases hm
    | removes _ hm => cases hm
  have hpromu : Node.Promoted { t with engine := e } :=
    ((hprom t (hafter.mono fun _ _ h => h.1)).step
      (a := .engine (.set k v ttl nowMs nowMono)) trivial hset).2
  obtain ⟨hplainw, -, hkept⟩ := hrest.invariant
    (P := fun w => w.engine.store.Plain ∧ w.Promoted ∧
      w.engine.store.contents k = some (v, Engine.deadline ttl nowMs))
    (fun s a s' h ha hs => by
      obtain ⟨hquiet, hprom⟩ := h.2.1.step ha.1.1 hs
      exact ⟨Node.step_plain h.1 ha.1.2 hs, hprom, hquiet.keeps h.1 ha.1.2 ha.2 h.2.2⟩)
    ⟨hplain', hpromu, hwritten⟩
  exact getRead_of_contents hplainw hkept halive mono

/-- A replica is promoted; a client writes `[1]`, a heartbeat of the old primary is read and
    ends the connection, and the reconnecting goroutine is refused once more. -/
theorem promotion_cuts_upstream_once :
    ∃ n n₀ t t' u w : Node, n.promote = some n₀ ∧
      t.step (.recv (.heartbeat 1 1) 0 0) = some t' ∧ t'.stage = .down ∧ t'.engine = t.engine ∧
      t.step (.engine (.set [1] [9] 0 0 0)) = some u ∧
      Run Node.step (fun n a => (a.Cut ∧ a.Fits n) ∧ a.Spares [1] 0) u w ∧ w.stage = .down ∧
      (w.engine.store.getRead [1] 0 0).1 = (some [9], false) := by
  let later : List NodeAction :=
    [.engine (.submit 0 0), .recv (.heartbeat 1 1) 0 0, .connect, .recv (.heartbeat 1 1) 0 0]
  obtain ⟨n, hn, h⟩ := Run.exists_of_guarded Node.step (fun n a => a.Fits n)
    (newReplica oneShard 1) [.connect, .recv (sentSet 1 [1] [2]) 0 0, .submit 0]
    (fun n => (n.promote.any fun n₀ => decide n₀.Idle &&
      (exec (guarded Node.step fun n a => a.Cut ∧ a.Fits n) n₀ [.recv (.fullEnd 1) 0 0]).any
        fun t => decide ((NodeAction.engine (.set [1] [9] 0 0 0)).Fits t) &&
          (t.step (.recv (.heartbeat 1 1) 0 0)).any (fun t' => decide (t'.stage = .down)) &&
          (t.step (.engine (.set [1] [9] 0 0 0))).any fun u =>
            (exec (guarded Node.step fun n a => (a.Cut ∧ a.Fits n) ∧ a.Spares [1] 0) u
              later).any fun w => decide (w.stage = .down)) = true)
    (by decide +kernel)
  obtain ⟨n₀, hpromote, h⟩ := (Option.any_eq_true _ _).mp h
  obtain ⟨hidle, h⟩ := (Bool.and_eq_true _ _).mp h
  obtain ⟨t, ht, h⟩ := (Option.any_eq_true _ _).mp h
  obtain ⟨h, hu⟩ := (Bool.and_eq_true _ _).mp h
  obtain ⟨hfit, hread⟩ := (Bool.and_eq_true _ _).mp h
  obtain ⟨t', ht', hdown⟩ := (Option.any_eq_true _ _).mp hread
  obtain ⟨u, hu, h⟩ := (Option.any_eq_true _ _).mp hu
  obtain ⟨w, hw, hend⟩ := (Option.any_eq_true _ _).mp h
  obtain ⟨hremote, hreads⟩ := promotion_cuts_upstream hpromote (of_decide_eq_true hidle)
  have hrun := Run.of_guarded ht
  exact ⟨n, n₀, t, t', u, w, hpromote, ht', of_decide_eq_true hdown,
    hremote t (hrun.mono fun _ _ h => h.1) _ t' id ht' (by simp), hu, .of_guarded hw,
    of_decide_eq_true hend,
    hreads oneShard 1 (by decide) hn t hrun [1] [9] 0 0 0 u w (of_decide_eq_true hfit) hu
      (.of_guarded hw) 0 0 rfl⟩

/-- The steps of clients. -/
def NodeAction.Local (a : NodeAction) : Prop := ¬ a.Remote

instance (a : NodeAction) : Decidable a.Local := inferInstanceAs (Decidable (¬ _))

/-- The same replica is promoted and a client writes `[1]`; a record of the old primary that
    comes before its next heartbeat overwrites the value, and enters the log. -/
theorem promoted_node_overwritten :
    ∃ n n₀ t u, Run Node.step Always (newReplica oneShard 1) n ∧ n.promote = some n₀ ∧ n₀.Idle ∧
      Run Node.step (fun _ a => a.Local) n₀ t ∧ t.engine.store.contents [1] = some ([9], 0) ∧
      t.engine.inflight 0 = none ∧ t.engine.lastLSN = 2 ∧
      Run Node.step (fun _ a => a.Remote) t u ∧ u.engine.store.contents [1] = some ([7], 0) ∧
      u.engine.lastLSN = 3 := by
  obtain ⟨n, hn, h⟩ := Run.exists_of_exec Node.step (newReplica oneShard 1)
    [.connect, .recv (sentSet 1 [1] [2]) 0 0, .submit 0]
    (fun n => (n.promote.any fun n₀ => decide n₀.Idle &&
      (exec (guarded Node.step fun _ a => a.Local) n₀
        [.engine (.set [1] [9] 0 0 0), .engine (.submit 0 0)]).any fun t =>
        decide (t.engine.store.contents [1] = some ([9], 0) ∧ t.engine.inflight 0 = none ∧
          t.engine.lastLSN = 2) &&
          (exec (guarded Node.step fun _ a => a.Remote) t
            [.recv (sentSet 2 [1] [7]) 0 0, .submit 0]).any fun u =>
            decide (u.engine.store.contents [1] = some ([7], 0) ∧ u.engine.lastLSN = 3)) = true)
    (by decide +kernel)
  obtain ⟨n₀, hpromote, h⟩ := (Option.any_eq_true _ _).mp h
  obtain ⟨hidle, h⟩ := (Bool.and_eq_true _ _).mp h
  obtain ⟨t, ht, h⟩ := (Option.any_eq_true _ _).mp h
  obtain ⟨hwritten, h⟩ := (Bool.and_eq_true _ _).mp h
  obtain ⟨u, hu, h⟩ := (Option.any_eq_true _ _).mp h
  obtain ⟨hset, hfree, hlsn⟩ := of_decide_eq_true hwritten
  obtain ⟨hover, hlsn'⟩ := of_decide_eq_true h
  exact ⟨n, n₀, t, u, hn, hpromote, of_decide_eq_true hidle, .of_guarded ht, hset, hfree, hlsn,
    .of_guarded hu, hover, hlsn'⟩

end KvStore
