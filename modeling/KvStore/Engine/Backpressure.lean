import KvStore.Config.Config
import KvStore.Engine.Engine

/-!
# Backpressure

`mutate` (`internal/engine/commands.go` lines 122–163) takes a slot of `gate` before it takes the
lock of a shard, and calls `Submit` under that lock. `Submit` blocks while the queue of the log is
full. A mutation keeps its slot until its commit is finished, so that the mutations have at most as
many records in the queue as there are slots. `logEvict` (lines 236–243) calls `Submit` without a
slot and does not wait for the commit.

The state is the writer of `Wal/Writer.lean` with the calls of `mutate` and the goroutine that
drains `evictQ`. `callers` says whose the calls of `Submit` are that wait in the writer, and `owner`
who submitted the record with an LSN.

* `submit_finds_room`: when there are not more slots than the queue takes, and the drainer sends
  only while the slots and its own records leave room in the queue, a mutation that is in `Submit`
  finds room.
* `submit_blocks_under_lock`: the drainer fills the queue of the default size, and with a small
  queue the mutations alone do.
-/

namespace KvStore

open KvStore.Common

/-- The number of slots of `gate` (engine.go line 176). -/
def gateSize (walQueueDepth : ℤ) : ℕ := (max (walQueueDepth.tdiv 2) 64).toNat

/-- The capacity of the queue of the log: `QueueDepth` after `withDefaults` (writer.go
    lines 53–55). -/
def queueCap (walQueueDepth : ℤ) : ℕ := if walQueueDepth ≤ 0 then 8192 else walQueueDepth.toNat

/-- Who calls `Submit`. -/
inductive Caller
  | mutation (p : ℕ)
  | drainer
  deriving DecidableEq

/-- Where a call of `mutate` is: not running, waiting for the lock of its shard, before `Submit`
    with the lock held, in `Submit` after its checks, in `Wait`, or about to give its slot back. -/
inductive MutationStage
  | idle
  | gated (rec : Record) (shard : ℕ)
  | locked (rec : Record) (shard : ℕ)
  | sending (shard : ℕ)
  | waiting (lsn : ℕ)
  | returning
  deriving DecidableEq

/-- Where the goroutine that drains `evictQ` is. -/
inductive DrainStage
  | idle
  | holding (key : Bytes)
  | sending
  deriving DecidableEq

/-- The writer and its files, the slots that are taken, the calls of `mutate` and the locks of the
    shards, and the drainer with its queue. -/
structure Traffic where
  writer : Writer
  disk : Disk Bytes
  gate : List ℕ
  stage : ℕ → MutationStage
  lockedBy : ℕ → Option ℕ
  evictQ : List Bytes
  drain : DrainStage
  callers : List Caller
  owner : ℕ → Caller

inductive TrafficAction
  | begin (p : ℕ) (rec : Record) (shard : ℕ)
  | apply (p : ℕ) (ok : Bool)
  | submit (p : ℕ)
  | send (i : ℕ) (nowMs : UInt64)
  | release (p : ℕ)
  | evict (key : Bytes)
  | drainTake
  | drainSubmit
  | take
  | gather
  | flush
  | call (res : IoResult) (nowMs : UInt64)
  | finish

namespace Traffic

/-- A log that was just opened, and no call yet. -/
def start (startLSN : ℕ) (seg : OpenSegment) (d : Disk Bytes) : Traffic where
  writer := .start startLSN seg
  disk := d
  gate := []
  stage := fun _ => .idle
  lockedBy := fun _ => none
  evictQ := []
  drain := .idle
  callers := []
  owner := fun _ => .drainer

/-- The call `p` of `mutate` goes on to `stage`. -/
def goto (s : Traffic) (p : ℕ) (stage : MutationStage) : Traffic :=
  { s with stage := Function.update s.stage p stage }

/-- The lock of the shard is released. -/
def unlock (s : Traffic) (shard : ℕ) : Traffic :=
  { s with lockedBy := Function.update s.lockedBy shard none }

/-- A step of the writer that no caller takes part in. -/
def onWriter (s : Traffic) (f : Writer → Option Writer) : Option Traffic :=
  (f s.writer).map fun w => { s with writer := w }

/-- `Submit` returns to its caller, with the LSN or refused. -/
def sent (s : Traffic) (caller : Caller) (lsn : Option ℕ) : Traffic :=
  match caller with
  | .drainer => { s with drain := .idle }
  | .mutation p =>
    match s.stage p with
    | .sending shard => (s.unlock shard).goto p ((lsn.map MutationStage.waiting).getD .returning)
    | _ => s

/-- `commit.finish` wakes who waits for the record. -/
def finished (s : Traffic) (r : Record) : Traffic :=
  match s.owner r.lsn with
  | .drainer => s
  | .mutation p => if s.stage p = .waiting r.lsn then s.goto p .returning else s

/-- One step; `slots` is the size of the gate. -/
def step (o : WriterOptions) (slots : ℕ) (s : Traffic) : TrafficAction → Option Traffic
  | .begin p rec shard =>
    if s.stage p = .idle ∧ s.gate.length < slots then
      some ({ s with gate := p :: s.gate }.goto p (.gated rec shard))
    else none
  | .apply p ok =>
    match s.stage p with
    | .gated rec shard =>
      if s.lockedBy shard ≠ none then none
      else if ok then
        some ({ s with lockedBy := Function.update s.lockedBy shard (some p) }.goto p
          (.locked rec shard))
      else some (s.goto p .returning)
    | _ => none
  | .submit p =>
    match s.stage p with
    | .locked rec shard =>
      match s.writer.check rec with
      | none => some ((s.unlock shard).goto p .returning)
      | some w =>
        some ({ s with writer := w, callers := s.callers ++ [Caller.mutation p] }.goto p
          (.sending shard))
    | _ => none
  | .send i nowMs =>
    match s.callers[i]?, s.writer.send o i nowMs with
    | some caller, some (r, w) =>
      some ({ s with
        writer := w
        callers := s.callers.eraseIdx i
        owner := match r with
          | some r => Function.update s.owner r.lsn caller
          | none => s.owner }.sent caller (r.map Record.lsn))
    | _, _ => none
  | .release p =>
    if s.stage p = .returning then some ({ s with gate := s.gate.erase p }.goto p .idle) else none
  | .evict key =>
    some (if s.evictQ.length < evictQueueCap then { s with evictQ := s.evictQ ++ [key] } else s)
  | .drainTake =>
    match s.drain, s.evictQ with
    | .idle, key :: rest => some { s with evictQ := rest, drain := .holding key }
    | _, _ => none
  | .drainSubmit =>
    match s.drain with
    | .holding key =>
      match s.writer.check (Engine.record .delete key [] 0) with
      | none => some { s with drain := .idle }
      | some w => some { s with writer := w, callers := s.callers ++ [.drainer], drain := .sending }
    | _ => none
  | .take => s.onWriter Writer.take
  | .gather => s.onWriter (Writer.gather o)
  | .flush => s.onWriter (Writer.flush o)
  | .call res nowMs =>
    (s.writer.call o s.disk res nowMs).map fun p => { s with writer := p.1, disk := p.2 }
  | .finish =>
    s.writer.finish.map fun p =>
      match p.1 with
      | none => { s with writer := p.2 }
      | some (r, _) => { s with writer := p.2 }.finished r

/-- The records of the drainer in the queue. -/
def drained (s : Traffic) : List Record := s.writer.queue.filter fun r => s.owner r.lsn = .drainer

end Traffic

/-- The drainer sends only while the slots and the records it has in the queue leave room. -/
def TrafficAction.Spare (o : WriterOptions) (slots : ℕ) (s : Traffic) : TrafficAction → Prop
  | .send i _ => s.callers[i]? = some .drainer → s.drained.length + slots < o.queueDepth
  | _ => True

instance TrafficAction.decidableSpare (o : WriterOptions) (slots : ℕ) (s : Traffic) :
    (a : TrafficAction) → Decidable (a.Spare o slots s)
  | .send _ _ => inferInstanceAs (Decidable (_ → _))
  | .begin .. | .apply .. | .submit _ | .release _ | .evict _ | .drainTake | .drainSubmit | .take
  | .gather | .flush | .call .. | .finish => instDecidableTrue

/-! ## The records the log has taken -/

/-- The records in hand of the WAL goroutine. -/
def Stage.batch : Stage → List Record
  | .gather b => b
  | .rotateSync b => b
  | .rotateClose b => b
  | .create b _ => b
  | .write b => b
  | .sync b => b
  | .finish b _ => b
  | .idle | .closing | .stopped => []

/-- The records that have been taken from their callers and are not finished. -/
def Writer.taken (w : Writer) : List Record := w.stage.batch ++ w.queue

/-- The records taken have increasing LSNs below the next one. -/
structure Writer.Sorted (w : Writer) : Prop where
  lsns : w.taken.Pairwise fun a b => a.lsn < b.lsn
  below : ∀ r ∈ w.taken, r.lsn < w.nextLSN

/-- A step of the goroutine that finishes no record: it only moves records from the queue into its
    hand. -/
structure Writer.Moves (w w' : Writer) : Prop where
  calls : w'.calls = w.calls
  nextLSN : w'.nextLSN = w.nextLSN
  closed : w'.closed = w.closed
  taken : w'.taken = w.taken
  queue : w'.queue.Sublist w.queue

variable {o : WriterOptions} {w w' : Writer} {slots : ℕ} {s s' : Traffic} {d d' : Disk Bytes}

theorem take_moves (h : w.take = some w') : w.Moves w' := by
  unfold Writer.take at h
  split at h
  · rename_i r queue hstage hqueue
    cases h
    exact ⟨rfl, rfl, rfl, by simp only [Writer.taken, hstage, hqueue]; rfl,
      hqueue ▸ List.sublist_cons_self r queue⟩
  · rename_i hstage hqueue
    split_ifs at h
    cases h
    exact ⟨rfl, rfl, rfl, by simp only [Writer.taken, hstage]; rfl, .refl _⟩
  · cases h

theorem gather_moves (h : w.gather o = some w') : w.Moves w' := by
  unfold Writer.gather at h
  split at h
  · rename_i batch r queue hstage hqueue
    split_ifs at h
    cases h
    exact ⟨rfl, rfl, rfl, by simp [Writer.taken, hstage, hqueue, Stage.batch],
      hqueue ▸ List.sublist_cons_self r queue⟩
  · cases h

theorem flush_moves (h : w.flush o = some w') : w.Moves w' := by
  unfold Writer.flush at h
  split at h
  · rename_i batch hstage
    cases h
    refine ⟨rfl, rfl, rfl, ?_, .refl _⟩
    simp only [Writer.taken, hstage]
    split_ifs <;> rfl
  · cases h

theorem call_moves {res : IoResult} {nowMs : UInt64} (h : w.call o d res nowMs = some (w', d')) :
    w.Moves w' := by
  -- every stage goes on with the batch it has
  have hkeep : ∀ {w'' : Writer}, w''.calls = w.calls → w''.nextLSN = w.nextLSN →
      w''.closed = w.closed → w''.stage.batch = w.stage.batch → w''.queue = w.queue →
      w.Moves w'' := fun hcalls hlsn hclosed hbatch hqueue =>
    ⟨hcalls, hlsn, hclosed, by rw [Writer.taken, hbatch, hqueue]; rfl, hqueue ▸ .refl _⟩
  unfold Writer.call at h
  split at h
  case h_7 => cases h
  case h_6 hstage =>
    cases h
    exact hkeep rfl rfl rfl (by rw [hstage]; rfl) rfl
  case h_1 batch hstage =>
    split at h <;> cases h <;> exact hkeep rfl rfl rfl (by rw [hstage]; rfl) rfl
  case h_2 batch hstage =>
    dsimp only at h
    split at h <;> cases h <;> exact hkeep rfl rfl rfl (by rw [hstage]; rfl) rfl
  case h_3 batch c hstage =>
    split at h <;> cases h <;> exact hkeep rfl rfl rfl (by rw [hstage]; rfl) rfl
  case h_4 batch hstage =>
    split at h
    · cases h
      exact hkeep rfl rfl rfl (by rw [hstage]; rfl) rfl
    · dsimp only at h
      split at h <;> cases h <;> exact hkeep rfl rfl rfl (by rw [hstage]; rfl) rfl
  case h_5 batch hstage =>
    split at h <;> cases h <;> exact hkeep rfl rfl rfl (by rw [hstage]; rfl) rfl

/-- What `send` does for the call it is made for. -/
theorem send_cases {i : ℕ} {nowMs : UInt64} {a : Option Record}
    (h : w.send o i nowMs = some (a, w')) :
    (a = none ∧ w' = { w with calls := w.calls.eraseIdx i }) ∨
      ∃ r, a = some r ∧ r.lsn = w.nextLSN ∧
        w' = { w with
          calls := w.calls.eraseIdx i
          queue := w.queue ++ [r]
          nextLSN := w.nextLSN + 1 } := by
  unfold Writer.send at h
  split at h
  · cases h
  · split_ifs at h
    · cases h
      exact .inl ⟨rfl, rfl⟩
    · cases h
      exact .inr ⟨_, rfl, rfl, rfl⟩

theorem finish_cases {a : Option (Record × Bool)} (h : w.finish = some (a, w')) :
    w'.calls = w.calls ∧ w'.nextLSN = w.nextLSN ∧ w'.queue = w.queue ∧
      w.taken = (a.map Prod.fst).toList ++ w'.taken := by
  unfold Writer.finish at h
  split at h
  · rename_i r batch ok hstage
    cases h
    exact ⟨rfl, rfl, rfl, by simp only [Writer.taken, hstage]; rfl⟩
  · rename_i ok hstage
    cases h
    exact ⟨rfl, rfl, rfl, by simp only [Writer.taken, hstage]; rfl⟩
  · cases h

theorem Writer.Sorted.moves (h : w.Sorted) (hm : w.Moves w') : w'.Sorted :=
  ⟨hm.taken ▸ h.lsns, fun r hr => hm.nextLSN ▸ h.below r (hm.taken ▸ hr)⟩

/-- The record that is sent comes after all that were taken. -/
theorem Writer.Sorted.push (h : w.Sorted) {r : Record} (hr : r.lsn = w.nextLSN)
    (calls : List Record) :
    Writer.Sorted { w with
      calls := calls
      queue := w.queue ++ [r]
      nextLSN := w.nextLSN + 1 } := by
  have htaken : Writer.taken { w with
      calls := calls
      queue := w.queue ++ [r]
      nextLSN := w.nextLSN + 1 } = w.taken ++ [r] := (List.append_assoc _ _ _).symm
  refine ⟨?_, fun x hx => ?_⟩
  · rw [htaken, List.pairwise_append]
    refine ⟨h.lsns, List.pairwise_singleton _ _, fun x hx y hy => ?_⟩
    rw [List.mem_singleton.mp hy, hr]
    exact h.below x hx
  · rw [htaken] at hx
    rcases List.mem_append.mp hx with hx | hx
    · exact Nat.lt_succ_of_lt (h.below x hx)
    · rw [List.mem_singleton.mp hx, hr]
      exact Nat.lt_succ_self _

theorem Writer.Sorted.finish (h : w.Sorted) {a : Option (Record × Bool)}
    (hf : w.finish = some (a, w')) : w'.Sorted := by
  obtain ⟨-, hlsn, -, htaken⟩ := finish_cases hf
  have hsub : w'.taken.Sublist w.taken := htaken ▸ List.sublist_append_right _ _
  exact ⟨h.lsns.sublist hsub, fun r hr => hlsn ▸ h.below r (hsub.subset hr)⟩

/-! ## The invariant -/

/-- A mutation that is running has a slot; the calls that wait in the writer are those of the
    mutations and of the drainer that are sending; whoever has a record in the queue waits for it;
    and the drainer's records leave room for the slots. -/
structure Traffic.Inv (o : WriterOptions) (slots : ℕ) (s : Traffic) : Prop where
  sorted : s.writer.Sorted
  gateNodup : s.gate.Nodup
  gateLen : s.gate.length ≤ slots
  gate : ∀ p, p ∈ s.gate ↔ s.stage p ≠ .idle
  aligned : s.callers.length = s.writer.calls.length
  callersNodup : s.callers.Nodup
  sending : ∀ p, .mutation p ∈ s.callers ↔ ∃ shard, s.stage p = .sending shard
  draining : .drainer ∈ s.callers ↔ s.drain = .sending
  waiting : ∀ r ∈ s.writer.queue, ∀ p, s.owner r.lsn = .mutation p → s.stage p = .waiting r.lsn
  room : s.drained.length + slots ≤ o.queueDepth

/-- Where the elements of a list differ, `eraseIdx` removes one of them. -/
theorem mem_eraseIdx_iff_of_nodup {α : Type} [DecidableEq α] {l : List α} {i : ℕ} {a b : α}
    (h : l.Nodup) (hi : l[i]? = some a) : b ∈ l.eraseIdx i ↔ b ∈ l ∧ b ≠ a := by
  obtain ⟨hlt, rfl⟩ := List.getElem?_eq_some_iff.mp hi
  rw [← h.erase_getElem i hlt, h.mem_erase_iff, and_comm]

/-- The call has no part in the log: it is neither sending a record nor waiting for one. -/
def MutationStage.outside : MutationStage → Bool
  | .sending _ => false
  | .waiting _ => false
  | _ => true

namespace Traffic

@[simp] theorem goto_self (s : Traffic) (p : ℕ) (st : MutationStage) : (s.goto p st).stage p = st :=
  Function.update_self _ _ _

theorem goto_of_ne (s : Traffic) {p q : ℕ} (h : q ≠ p) (st : MutationStage) :
    (s.goto p st).stage q = s.stage q := Function.update_of_ne h _ _

namespace Inv

/-- A call of `mutate` that is neither sending nor waiting goes on, with or without its slot. -/
theorem goto (h : s.Inv o slots) {p : ℕ} (st : MutationStage)
    (hfrom : (s.stage p).outside = true) (hto : st.outside = true) {gate : List ℕ}
    (hnodup : gate.Nodup) (hlen : gate.length ≤ slots)
    (hgate : ∀ q, q ∈ gate ↔ (s.goto p st).stage q ≠ .idle) (locks : ℕ → Option ℕ) :
    ({ s with gate := gate, lockedBy := locks }.goto p st).Inv o slots where
  sorted := h.sorted
  gateNodup := hnodup
  gateLen := hlen
  gate := hgate
  aligned := h.aligned
  callersNodup := h.callersNodup
  sending := fun q => by
    refine (h.sending q).trans ?_
    by_cases hq : q = p
    · subst hq
      rw [goto_self]
      refine iff_of_false (fun ⟨i, hi⟩ => ?_) fun ⟨i, hi⟩ => ?_
      · rw [hi] at hfrom
        cases hfrom
      · rw [hi] at hto
        cases hto
    · rw [goto_of_ne _ hq]
  draining := h.draining
  waiting := fun r hr q hq => by
    have hstage := h.waiting r hr q hq
    have hqp : q ≠ p := by
      rintro rfl
      rw [hstage] at hfrom
      cases hfrom
    rw [goto_of_ne _ hqp]
    exact hstage
  room := h.room

/-- The same, with the slot it has. -/
theorem advance (h : s.Inv o slots) {p : ℕ} {st₀ : MutationStage} (st : MutationStage)
    (hp : s.stage p = st₀) (hfrom : st₀.outside = true ∧ st₀ ≠ .idle)
    (hto : st.outside = true ∧ st ≠ .idle) (locks : ℕ → Option ℕ) :
    ({ s with lockedBy := locks }.goto p st).Inv o slots := by
  subst hp
  refine h.goto st hfrom.1 hto.1 h.gateNodup h.gateLen (fun q => (h.gate q).trans ?_) locks
  by_cases hq : q = p
  · subst hq
    rw [goto_self]
    exact iff_of_true hfrom.2 hto.2
  · rw [goto_of_ne _ hq]

/-- A step of the goroutine. -/
theorem moves (h : s.Inv o slots) (hm : s.writer.Moves w') (d' : Disk Bytes) :
    ({ s with writer := w', disk := d' } : Traffic).Inv o slots where
  sorted := h.sorted.moves hm
  gateNodup := h.gateNodup
  gateLen := h.gateLen
  gate := h.gate
  aligned := h.aligned.trans (by rw [hm.calls])
  callersNodup := h.callersNodup
  sending := h.sending
  draining := h.draining
  waiting := fun r hr => h.waiting r (hm.queue.subset hr)
  room := (Nat.add_le_add_right (hm.queue.filter _).length_le slots).trans h.room

/-- `Submit` passes its checks for a mutation. -/
theorem submit (h : s.Inv o slots) {p shard : ℕ} {rec : Record}
    (hp : s.stage p = .locked rec shard) (hw : s.writer.check rec = some w') :
    ({ s with writer := w', callers := s.callers ++ [Caller.mutation p] }.goto p
      (.sending shard)).Inv o slots := by
  unfold Writer.check at hw
  split_ifs at hw
  cases hw
  have hnot : Caller.mutation p ∉ s.callers := fun hmem => by
    obtain ⟨i, hi⟩ := (h.sending p).mp hmem
    rw [hp] at hi
    cases hi
  refine ⟨⟨h.sorted.lsns, h.sorted.below⟩, h.gateNodup, h.gateLen, fun q => (h.gate q).trans ?_, ?_,
    ?_, fun q => ?_, ?_, fun r hr q hq => ?_, h.room⟩
  · by_cases hq : q = p
    · subst hq
      rw [goto_self, hp]
      exact iff_of_true nofun nofun
    · rw [goto_of_ne _ hq]
  · show (s.callers ++ [_]).length = (s.writer.calls ++ [_]).length
    rw [List.length_append, List.length_append, h.aligned]
    rfl
  · exact h.callersNodup.append (List.nodup_singleton _)
      (List.disjoint_singleton.mpr hnot)
  · show Caller.mutation q ∈ s.callers ++ [.mutation p] ↔ _
    rw [List.mem_append, List.mem_singleton, h.sending q]
    by_cases hq : q = p
    · subst hq
      rw [goto_self]
      exact iff_of_true (.inr rfl) ⟨shard, rfl⟩
    · rw [goto_of_ne _ hq]
      exact or_iff_left fun heq => hq (Caller.mutation.inj heq)
  · show Caller.drainer ∈ s.callers ++ [.mutation p] ↔ _
    rw [List.mem_append, List.mem_singleton, h.draining]
    exact or_iff_left nofun
  · have hstage := h.waiting r hr q hq
    have hqp : q ≠ p := by
      rintro rfl
      rw [hp] at hstage
      cases hstage
    rw [goto_of_ne _ hqp]
    exact hstage

/-- `Submit` passes its checks for the drainer. -/
theorem drainSubmit (h : s.Inv o slots) {key : Bytes} {rec : Record}
    (hdrain : s.drain = .holding key) (hw : s.writer.check rec = some w') :
    ({ s with writer := w', callers := s.callers ++ [.drainer], drain := .sending } :
      Traffic).Inv o slots := by
  unfold Writer.check at hw
  split_ifs at hw
  cases hw
  have hnot : Caller.drainer ∉ s.callers := fun hmem => by
    have hsending := h.draining.mp hmem
    rw [hdrain] at hsending
    cases hsending
  refine ⟨⟨h.sorted.lsns, h.sorted.below⟩, h.gateNodup, h.gateLen, h.gate, ?_, ?_, fun q => ?_, ?_,
    h.waiting, h.room⟩
  · show (s.callers ++ [_]).length = (s.writer.calls ++ [_]).length
    rw [List.length_append, List.length_append, h.aligned]
    rfl
  · exact h.callersNodup.append (List.nodup_singleton _) (List.disjoint_singleton.mpr hnot)
  · show Caller.mutation q ∈ s.callers ++ [.drainer] ↔ _
    rw [List.mem_append, List.mem_singleton, h.sending q]
    exact or_iff_left nofun
  · exact iff_of_true (List.mem_append_right _ (List.mem_singleton_self _)) rfl

/-- `Submit` returns to a mutation. -/
theorem sent_mutation (h : s.Inv o slots) {i p : ℕ} (hi : s.callers[i]? = some (.mutation p))
    (owner : ℕ → Caller) (st : MutationStage) (locks : ℕ → Option ℕ) (hsorted : w'.Sorted)
    (hcalls : w'.calls = s.writer.calls.eraseIdx i) (hidle : st ≠ .idle)
    (hsend : ∀ shard, st ≠ .sending shard)
    (hqueue : ∀ r ∈ w'.queue, ∀ q, owner r.lsn = .mutation q →
      (s.goto p st).stage q = .waiting r.lsn)
    (hroom : (w'.queue.filter fun r => owner r.lsn = .drainer).length + slots ≤ o.queueDepth) :
    ({ s with
      writer := w'
      callers := s.callers.eraseIdx i
      owner := owner
      lockedBy := locks }.goto p st).Inv o slots := by
  have hmem : ∀ c, c ∈ s.callers.eraseIdx i ↔ c ∈ s.callers ∧ c ≠ .mutation p :=
    fun c => mem_eraseIdx_iff_of_nodup h.callersNodup hi
  obtain ⟨shard, hp⟩ := (h.sending p).mp (List.mem_of_getElem? hi)
  refine ⟨hsorted, h.gateNodup, h.gateLen, fun q => (h.gate q).trans ?_, ?_,
    h.callersNodup.sublist (List.eraseIdx_sublist _ i), fun q => (hmem _).trans ?_,
    (hmem _).trans ?_, hqueue, hroom⟩
  · by_cases hq : q = p
    · subst hq
      rw [goto_self, hp]
      exact iff_of_true nofun hidle
    · rw [goto_of_ne _ hq]
  · show (s.callers.eraseIdx i).length = w'.calls.length
    rw [hcalls, List.length_eraseIdx, List.length_eraseIdx, h.aligned]
  · by_cases hq : q = p
    · subst hq
      rw [goto_self]
      exact iff_of_false (fun hc => hc.2 rfl) fun ⟨j, hj⟩ => hsend j hj
    · rw [goto_of_ne _ hq, h.sending q]
      exact and_iff_left fun heq => hq (Caller.mutation.inj heq)
  · rw [h.draining]
    exact and_iff_left nofun

/-- `Submit` returns to the drainer. -/
theorem sent_drainer (h : s.Inv o slots) {i : ℕ} (hi : s.callers[i]? = some .drainer)
    (owner : ℕ → Caller) (hsorted : w'.Sorted) (hcalls : w'.calls = s.writer.calls.eraseIdx i)
    (hqueue : ∀ r ∈ w'.queue, ∀ q, owner r.lsn = .mutation q → s.stage q = .waiting r.lsn)
    (hroom : (w'.queue.filter fun r => owner r.lsn = .drainer).length + slots ≤ o.queueDepth) :
    ({ s with
      writer := w'
      callers := s.callers.eraseIdx i
      owner := owner
      drain := .idle } : Traffic).Inv o slots := by
  have hmem : ∀ c, c ∈ s.callers.eraseIdx i ↔ c ∈ s.callers ∧ c ≠ .drainer :=
    fun c => mem_eraseIdx_iff_of_nodup h.callersNodup hi
  refine ⟨hsorted, h.gateNodup, h.gateLen, h.gate, ?_,
    h.callersNodup.sublist (List.eraseIdx_sublist _ i), fun q => (hmem _).trans ?_,
    (hmem _).trans ?_, hqueue, hroom⟩
  · show (s.callers.eraseIdx i).length = w'.calls.length
    rw [hcalls, List.length_eraseIdx, List.length_eraseIdx, h.aligned]
  · rw [h.sending q]
    exact and_iff_left nofun
  · exact iff_of_false (fun hc => hc.2 rfl) nofun

/-- The queue after a record was sent: who has a record in it, and how many are the drainer's. -/
theorem owner_push (h : s.Inv o slots) {r : Record} (hr : r.lsn = s.writer.nextLSN)
    (caller : Caller) :
    (∀ x ∈ s.writer.queue, Function.update s.owner r.lsn caller x.lsn = s.owner x.lsn) ∧
      ((s.writer.queue ++ [r]).filter fun x =>
        Function.update s.owner r.lsn caller x.lsn = .drainer).length =
        s.drained.length + if caller = .drainer then 1 else 0 := by
  have hold : ∀ x ∈ s.writer.queue,
      Function.update s.owner r.lsn caller x.lsn = s.owner x.lsn := fun x hx => by
    have hlt := h.sorted.below x (List.mem_append_right _ hx)
    exact Function.update_of_ne (by omega) _ _
  refine ⟨hold, ?_⟩
  have hfilter : (s.writer.queue.filter fun x =>
      Function.update s.owner r.lsn caller x.lsn = .drainer) = s.drained :=
    List.filter_congr fun x hx => by rw [hold x hx]
  rw [List.filter_append, hfilter, List.length_append, List.filter_singleton,
    Function.update_self]
  split_ifs with hc <;> simp [hc]

theorem send (h : s.Inv o slots) {i : ℕ} {nowMs : UInt64}
    (hspare : s.callers[i]? = some .drainer → s.drained.length + slots < o.queueDepth)
    (hstep : s.step o slots (.send i nowMs) = some s') : s'.Inv o slots := by
  rw [Traffic.step] at hstep
  split at hstep
  · rename_i caller a w' hi hsend
    cases hstep
    cases caller with
    | mutation p =>
      obtain ⟨shard, hp⟩ := (h.sending p).mp (List.mem_of_getElem? hi)
      -- none of its records are in the queue
      have hnot : ∀ {st : MutationStage}, ∀ r ∈ s.writer.queue, ∀ q,
          s.owner r.lsn = .mutation q → (s.goto p st).stage q = .waiting r.lsn := by
        intro st r hr q hq
        have hstage := h.waiting r hr q hq
        have hqp : q ≠ p := by
          rintro rfl
          rw [hp] at hstage
          cases hstage
        rw [goto_of_ne _ hqp]
        exact hstage
      simp only [Traffic.sent, hp]
      rcases send_cases hsend with ⟨rfl, rfl⟩ | ⟨r, rfl, hr, rfl⟩
      · exact h.sent_mutation hi s.owner .returning _ ⟨h.sorted.lsns, h.sorted.below⟩ rfl nofun
          nofun hnot h.room
      · obtain ⟨hold, hcount⟩ := h.owner_push hr (.mutation p)
        refine h.sent_mutation hi (Function.update s.owner r.lsn (.mutation p)) (.waiting r.lsn) _
          (h.sorted.push hr _) rfl nofun nofun (fun x hx q hq => ?_) ?_
        · rcases List.mem_append.mp hx with hx | hx
          · rw [hold x hx] at hq
            exact hnot x hx q hq
          · rw [List.mem_singleton.mp hx, Function.update_self] at hq
            cases hq
            rw [goto_self, List.mem_singleton.mp hx]
        · rw [hcount]
          exact h.room
    | drainer =>
      rcases send_cases hsend with ⟨rfl, rfl⟩ | ⟨r, rfl, hr, rfl⟩
      · exact h.sent_drainer hi s.owner ⟨h.sorted.lsns, h.sorted.below⟩ rfl h.waiting h.room
      · obtain ⟨hold, hcount⟩ := h.owner_push hr .drainer
        refine h.sent_drainer hi (Function.update s.owner r.lsn .drainer) (h.sorted.push hr _) rfl
          (fun x hx q hq => ?_) ?_
        · rcases List.mem_append.mp hx with hx | hx
          · rw [hold x hx] at hq
            exact h.waiting x hx q hq
          · rw [List.mem_singleton.mp hx, Function.update_self] at hq
            cases hq
        · rw [hcount, if_pos rfl]
          have := hspare hi
          omega
  · cases hstep

/-- `commit.finish` wakes a mutation that has no record in the queue. -/
theorem finish (h : s.Inv o slots) (hstep : s.step o slots .finish = some s') :
    s'.Inv o slots := by
  rw [Traffic.step] at hstep
  obtain ⟨⟨a, w'⟩, hfin, rfl⟩ := Option.map_eq_some_iff.mp hstep
  obtain ⟨hcalls, -, hqueue, htaken⟩ := finish_cases hfin
  have hwriter : ({ s with writer := w' } : Traffic).Inv o slots :=
    ⟨h.sorted.finish hfin, h.gateNodup, h.gateLen, h.gate, h.aligned.trans (by rw [hcalls]),
      h.callersNodup, h.sending, h.draining, fun r hr => h.waiting r (hqueue ▸ hr),
      by rw [drained, hqueue]; exact h.room⟩
  rcases a with _ | ⟨r, ok⟩
  · exact hwriter
  · have hlt : ∀ x ∈ s.writer.queue, r.lsn < x.lsn := fun x hx => by
      have hpair := h.sorted.lsns
      rw [htaken] at hpair
      rw [← hqueue] at hx
      exact (List.pairwise_cons.mp hpair).1 x
        (List.mem_append_right [] (List.mem_append_right _ hx))
    dsimp only
    unfold Traffic.finished
    split
    · exact hwriter
    · rename_i p howner
      split_ifs with hp
      · refine ⟨hwriter.sorted, h.gateNodup, h.gateLen, fun q => (h.gate q).trans ?_,
          hwriter.aligned, h.callersNodup, fun q => (h.sending q).trans ?_, h.draining,
          fun x hx q hq => ?_, hwriter.room⟩
        · by_cases hq : q = p
          · subst hq
            rw [goto_self, show s.stage q = _ from hp]
            exact iff_of_true nofun nofun
          · rw [goto_of_ne _ hq]
        · by_cases hq : q = p
          · subst hq
            rw [goto_self, show s.stage q = _ from hp]
            exact iff_of_false nofun nofun
          · rw [goto_of_ne _ hq]
        · have hstage := hwriter.waiting x hx q hq
          have hqp : q ≠ p := by
            rintro rfl
            have hsame := (show s.stage q = _ from hstage).symm.trans hp
            have := hlt x (hqueue ▸ hx)
            have := MutationStage.waiting.inj hsame
            omega
          rw [goto_of_ne _ hqp]
          exact hstage
      · exact hwriter

theorem start {startLSN : ℕ} {seg : OpenSegment} (hslots : slots ≤ o.queueDepth) :
    (Traffic.start startLSN seg d).Inv o slots where
  sorted := ⟨List.Pairwise.nil, nofun⟩
  gateNodup := List.nodup_nil
  gateLen := Nat.zero_le slots
  gate := fun _ => iff_of_false List.not_mem_nil fun h => h rfl
  aligned := rfl
  callersNodup := List.nodup_nil
  sending := fun _ => iff_of_false List.not_mem_nil nofun
  draining := iff_of_false List.not_mem_nil nofun
  waiting := nofun
  room := by simpa [drained, Traffic.start, Writer.start] using hslots

theorem step (h : s.Inv o slots) {a : TrafficAction} (hspare : a.Spare o slots s)
    (hstep : s.step o slots a = some s') : s'.Inv o slots := by
  cases a with
  | begin p rec shard =>
    rw [Traffic.step] at hstep
    split_ifs at hstep with hp
    cases hstep
    have hnot : p ∉ s.gate := fun hmem => (h.gate p).mp hmem hp.1
    refine h.goto (.gated rec shard) (by rw [hp.1]; rfl) rfl
      (List.nodup_cons.mpr ⟨hnot, h.gateNodup⟩) hp.2 (fun q => ?_) s.lockedBy
    by_cases hq : q = p
    · subst hq
      rw [goto_self]
      exact iff_of_true List.mem_cons_self nofun
    · rw [goto_of_ne _ hq, List.mem_cons, h.gate q]
      exact or_iff_right hq
  | apply p ok =>
    rw [Traffic.step] at hstep
    split at hstep
    · rename_i rec shard hp
      split_ifs at hstep with hfree hok
      · cases hstep
        exact h.advance (.locked rec shard) hp ⟨rfl, nofun⟩ ⟨rfl, nofun⟩ _
      · cases hstep
        exact h.advance .returning hp ⟨rfl, nofun⟩ ⟨rfl, nofun⟩ s.lockedBy
    · cases hstep
  | submit p =>
    rw [Traffic.step] at hstep
    split at hstep
    · rename_i rec shard hp
      split at hstep
      · cases hstep
        exact h.advance .returning hp ⟨rfl, nofun⟩ ⟨rfl, nofun⟩ _
      · rename_i w' hw
        cases hstep
        exact h.submit hp hw
    · cases hstep
  | send i nowMs => exact h.send hspare hstep
  | release p =>
    rw [Traffic.step] at hstep
    split_ifs at hstep with hp
    cases hstep
    refine h.goto .idle (by rw [hp]; rfl) rfl (h.gateNodup.erase p)
      (List.length_erase_le.trans h.gateLen) (fun q => ?_) s.lockedBy
    rw [h.gateNodup.mem_erase_iff]
    by_cases hq : q = p
    · subst hq
      rw [goto_self]
      exact iff_of_false (fun hc => hc.1 rfl) fun hc => hc rfl
    · rw [goto_of_ne _ hq, h.gate q]
      exact and_iff_right hq
  | evict key =>
    rw [Traffic.step] at hstep
    cases hstep
    split_ifs
    · exact { h with }
    · exact h
  | drainTake =>
    rw [Traffic.step] at hstep
    split at hstep
    · rename_i key rest hidle hqueue
      cases hstep
      exact { h with draining := h.draining.trans (by simp [hidle]) }
    · cases hstep
  | drainSubmit =>
    rw [Traffic.step] at hstep
    split at hstep
    · rename_i key hholding
      split at hstep
      · cases hstep
        exact { h with draining := h.draining.trans (by simp [hholding]) }
      · rename_i w' hw
        cases hstep
        exact h.drainSubmit hholding hw
    · cases hstep
  | take =>
    obtain ⟨w', hw, rfl⟩ := Option.map_eq_some_iff.mp hstep
    exact h.moves (take_moves hw) s.disk
  | gather =>
    obtain ⟨w', hw, rfl⟩ := Option.map_eq_some_iff.mp hstep
    exact h.moves (gather_moves hw) s.disk
  | flush =>
    obtain ⟨w', hw, rfl⟩ := Option.map_eq_some_iff.mp hstep
    exact h.moves (flush_moves hw) s.disk
  | call res nowMs =>
    obtain ⟨⟨w', d'⟩, hw, rfl⟩ := Option.map_eq_some_iff.mp hstep
    exact h.moves (call_moves hw) d'
  | finish => exact h.finish hstep

/-- The records in the queue that are not the drainer's belong to mutations that wait, so that a
    mutation that does not wait has a slot more than there are such records. -/
theorem queue_lt (h : s.Inv o slots) {p : ℕ} (hidle : s.stage p ≠ .idle)
    (hwait : ∀ lsn, s.stage p ≠ .waiting lsn) : s.writer.queue.length < o.queueDepth := by
  obtain ⟨clients, hclients⟩ : ∃ l, l = s.writer.queue.filter fun r => !decide
    (s.owner r.lsn = .drainer) := ⟨_, rfl⟩
  have howner : ∀ r ∈ clients, ∃ q, s.owner r.lsn = .mutation q ∧ s.stage q = .waiting r.lsn := by
    intro r hr
    rw [hclients, List.mem_filter] at hr
    cases hc : s.owner r.lsn with
    | mutation q => exact ⟨q, rfl, h.waiting r hr.1 q hc⟩
    | drainer => simp [hc] at hr
  -- the owners of different records wait for different LSNs
  have hnodup : (clients.map fun r => s.owner r.lsn).Nodup := by
    have hpair : clients.Pairwise fun a b => a.lsn < b.lsn := by
      rw [hclients]
      exact (h.sorted.lsns.sublist (List.sublist_append_right _ _)).filter _
    refine List.pairwise_map.mpr (hpair.imp_of_mem fun {a b} ha hb hlt heq => ?_)
    obtain ⟨q, hq, hqa⟩ := howner a ha
    obtain ⟨q', hq', hqb⟩ := howner b hb
    rw [hq, hq'] at heq
    cases heq
    have := MutationStage.waiting.inj (hqa.symm.trans hqb)
    omega
  have hsub : Caller.mutation p :: clients.map (fun r => s.owner r.lsn) ⊆
      s.gate.map Caller.mutation := by
    intro c hc
    rcases List.mem_cons.mp hc with rfl | hc
    · exact List.mem_map_of_mem ((h.gate p).mpr hidle)
    · obtain ⟨r, hr, rfl⟩ := List.mem_map.mp hc
      obtain ⟨q, hq, hqr⟩ := howner r hr
      rw [hq]
      exact List.mem_map_of_mem ((h.gate q).mpr (by simp [hqr]))
  have hp : Caller.mutation p ∉ clients.map fun r => s.owner r.lsn := fun hmem => by
    obtain ⟨r, hr, heq⟩ := List.mem_map.mp hmem
    obtain ⟨q, hq, hqr⟩ := howner r hr
    rw [hq] at heq
    cases heq
    exact hwait r.lsn hqr
  have hle := (List.subperm_of_subset (List.nodup_cons.mpr ⟨hp, hnodup⟩) hsub).length_le
  rw [List.length_cons, List.length_map, List.length_map] at hle
  have hsplit : s.writer.queue.length = s.drained.length + clients.length := by
    rw [hclients]
    exact List.length_eq_length_filter_add _
  have := h.room
  have := h.gateLen
  omega

end Inv

end Traffic

/-! ## Main results -/

/-- The call `p` of `mutate` holds the lock of a shard and is at `Submit`. -/
def MutationStage.Submits : MutationStage → Prop
  | .locked _ _ => True
  | .sending _ => True
  | _ => False

/-- In every run in which the drainer leaves room, with a gate that is not larger than the queue, a
    mutation that is at `Submit` under the lock of a shard finds room in the queue, and its send can
    be made at once. -/
theorem submit_finds_room {walQueueDepth : ℤ} (hdepth : o.queueDepth = queueCap walQueueDepth)
    (hgate : gateSize walQueueDepth ≤ queueCap walQueueDepth) {startLSN : ℕ} {seg : OpenSegment}
    (hrun : Run (Traffic.step o (gateSize walQueueDepth))
      (fun s a => a.Spare o (gateSize walQueueDepth) s) (.start startLSN seg d) s) {p : ℕ}
    (hp : (s.stage p).Submits) :
    s.writer.queue.length < o.queueDepth ∧
      ∀ shard, s.stage p = .sending shard → ∃ i, s.callers[i]? = some (.mutation p) ∧
        ∀ nowMs, (s.step o (gateSize walQueueDepth) (.send i nowMs)).isSome := by
  have hinv : s.Inv o (gateSize walQueueDepth) :=
    hrun.invariant (P := fun s => s.Inv o (gateSize walQueueDepth))
      (fun _ _ _ hs ha hstep => hs.step ha hstep) (.start (hdepth ▸ hgate))
  have hlt : s.writer.queue.length < o.queueDepth :=
    hinv.queue_lt (p := p) (fun h => by rw [h] at hp; exact hp)
      (fun lsn h => by rw [h] at hp; exact hp)
  refine ⟨hlt, fun shard hshard => ?_⟩
  obtain ⟨i, hi⟩ := List.getElem?_of_mem ((hinv.sending p).mpr ⟨shard, hshard⟩)
  refine ⟨i, hi, fun nowMs => ?_⟩
  have hbound : i < s.writer.calls.length :=
    hinv.aligned ▸ (List.getElem?_eq_some_iff.mp hi).1
  have hsend : (s.writer.send o i nowMs).isSome := by
    unfold Writer.send
    rw [List.getElem?_eq_getElem hbound]
    dsimp only
    rw [if_neg (not_le.mpr hlt)]
    split_ifs <;> rfl
  obtain ⟨⟨a, w'⟩, hw⟩ := Option.isSome_iff_exists.mp hsend
  rw [Traffic.step, hi, hw]
  rfl

/-- The settings of the log that `Open` passes on (engine.go lines 195–206). -/
def logOptions (c : Config) : WriterOptions :=
  ⟨.everySec, c.segmentSize.toNat, 1024, queueCap c.walQueueDepth⟩

/-- The defaults with a queue of depth 1. -/
def shallowQueue : Config := { Config.default 1 with walQueueDepth := 1 }

/-- A log that was just created. -/
def newTraffic : Traffic :=
  .start 1 (createdSegment 1)
    [(segmentName 1, ⟨appendRecord (newSegmentHeader 1 0), segmentHdrLen⟩)]

/-- With the default settings, behind a record of the drainer. -/
theorem submit_finds_room_default :
    ∃ s, Run (Traffic.step (logOptions (Config.default 1)) (gateSize 8192))
        (fun s a => a.Spare (logOptions (Config.default 1)) (gateSize 8192) s) newTraffic s ∧
      s.stage 0 = .sending 3 ∧ s.writer.queue.length = 1 ∧
      ∃ i, s.callers[i]? = some (.mutation 0) ∧ ∀ nowMs,
        (s.step (logOptions (Config.default 1)) (gateSize 8192) (.send i nowMs)).isSome := by
  obtain ⟨s, hrun, hstage, hlen⟩ := Run.exists_of_guarded
    (Traffic.step (logOptions (Config.default 1)) (gateSize 8192))
    (fun s a => a.Spare (logOptions (Config.default 1)) (gateSize 8192) s) newTraffic
    [.evict [107], .drainTake, .drainSubmit, .send 0 7,
      .begin 0 (Engine.record .set [97] [98] 0) 3, .apply 0 true, .submit 0]
    (fun s => s.stage 0 = .sending 3 ∧ s.writer.queue.length = 1) (by decide +kernel)
  refine ⟨s, hrun, hstage, hlen, ?_⟩
  exact (submit_finds_room rfl (by decide) hrun (p := 0) (by rw [hstage]; trivial)).2 3 hstage

/-- The call `p` of `mutate` holds the lock of a shard, the queue is full, and nobody can send. -/
def Traffic.Blocked (o : WriterOptions) (slots : ℕ) (s : Traffic) (p : ℕ) : Prop :=
  ∃ shard, s.stage p = .sending shard ∧ s.lockedBy shard = some p ∧
    s.writer.queue.length = o.queueDepth ∧ ∀ i nowMs, s.step o slots (.send i nowMs) = none

theorem Traffic.blocked_of_full {p shard : ℕ} (hstage : s.stage p = .sending shard)
    (hlock : s.lockedBy shard = some p) (hclosed : s.writer.closed = false)
    (hfull : s.writer.queue.length = o.queueDepth) : s.Blocked o slots p := by
  refine ⟨shard, hstage, hlock, hfull, fun i nowMs => ?_⟩
  have hsend : s.writer.send o i nowMs = none := by
    unfold Writer.send
    split
    · rfl
    · rw [if_neg (by simp [hclosed]), if_pos hfull.ge]
  rw [Traffic.step, hsend]
  split
  · rename_i h
    cases h
  · rfl

/-- The drainer's `i`-th record for the key `k`. -/
def drainedRecord (i : ℕ) : Record :=
  { Engine.record .delete [107] [] 0 with lsn := i + 1, createdAtMs := 7 }

/-- `n` removals were logged, and the WAL goroutine has not taken any record yet. -/
def evicted (n : ℕ) : Traffic :=
  { newTraffic with
    writer := { newTraffic.writer with
      queue := (List.range n).map drainedRecord
      nextLSN := n + 1 } }

theorem length_evicted (n : ℕ) : (evicted n).writer.queue.length = n := by
  rw [evicted, List.length_map, List.length_range]

theorem run_evicted (o : WriterOptions) (slots : ℕ) :
    ∀ n, n ≤ o.queueDepth → Run (Traffic.step o slots) Always newTraffic (evicted n)
  | 0, _ => .refl
  | n + 1, hn => by
    have hsend : (evicted n).writer.queue.length < o.queueDepth := by
      rw [length_evicted]
      exact hn
    have hrun := (((run_evicted o slots n (Nat.le_of_succ_le hn)).tail (.evict [107]) trivial
      rfl).tail .drainTake trivial rfl).tail .drainSubmit trivial rfl
    refine hrun.tail (.send 0 7) trivial ?_
    have hw : ({ (evicted n).writer with calls := [Engine.record .delete [107] [] 0] } :
        Writer).send o 0 7 = some (some (drainedRecord n), (evicted (n + 1)).writer) := by
      unfold Writer.send
      dsimp only [List.getElem?_cons_zero]
      rw [if_neg (show ¬ (evicted n).writer.closed = true from Bool.false_ne_true),
        if_neg (not_le.mpr hsend), evicted, evicted, List.range_succ, List.map_append]
      rfl
    have howner : Function.update (evicted n).owner (drainedRecord n).lsn .drainer =
        (evicted n).owner := Function.update_eq_self _ _
    show Traffic.step o slots { evicted n with
      writer := { (evicted n).writer with calls := [Engine.record .delete [107] [] 0] }
      callers := [.drainer]
      drain := .sending } (.send 0 7) = _
    rw [Traffic.step, List.getElem?_cons_zero, hw]
    dsimp only [Traffic.sent]
    rw [howner]
    rfl

/-- As many removals as the queue takes leave no room for a mutation. -/
theorem exists_blocked_evicted (hslots : 0 < slots) :
    ∃ s, Run (Traffic.step o slots) Always newTraffic s ∧ s.Blocked o slots 0 := by
  have hbegin : (evicted o.queueDepth).step o slots
      (.begin 0 (Engine.record .set [97] [98] 0) 3) =
      some ({ evicted o.queueDepth with gate := [0] }.goto 0
        (.gated (Engine.record .set [97] [98] 0) 3)) := by
    rw [Traffic.step]
    exact if_pos ⟨rfl, hslots⟩
  have hrun := (((run_evicted o slots o.queueDepth le_rfl).tail _ trivial hbegin).tail
    (.apply 0 true) trivial rfl).tail (.submit 0) trivial rfl
  exact ⟨_, hrun, Traffic.blocked_of_full rfl rfl rfl (length_evicted o.queueDepth)⟩

/-- With the default settings, 8192 removals fill the queue while the WAL goroutine is busy with a
    sync. With a queue of depth 1 the gate has 64 slots, and the second mutation finds the queue
    full. -/
theorem submit_blocks_under_lock :
    ((Config.default 1).validate = none ∧
      ∃ s, Run (Traffic.step (logOptions (Config.default 1)) (gateSize 8192)) Always newTraffic s ∧
        s.Blocked (logOptions (Config.default 1)) (gateSize 8192) 0) ∧
    (shallowQueue.validate = none ∧
      ∃ s, Run (Traffic.step (logOptions shallowQueue) (gateSize 1)) Always newTraffic s ∧
        s.Blocked (logOptions shallowQueue) (gateSize 1) 1) := by
  have hvalid : (Config.default 1).validate = none := validate_default one_pos
  refine ⟨⟨hvalid, exists_blocked_evicted (by decide)⟩, hvalid, ?_⟩
  obtain ⟨s, hrun, hstage, hlock, hclosed, hfull⟩ := Run.exists_of_exec
    (Traffic.step (logOptions shallowQueue) (gateSize 1)) newTraffic
    [.begin 0 (Engine.record .set [97] [98] 0) 3, .apply 0 true, .submit 0, .send 0 7,
      .begin 1 (Engine.record .set [97] [98] 0) 3, .apply 1 true, .submit 1]
    (fun s => s.stage 1 = .sending 3 ∧ s.lockedBy 3 = some 1 ∧ s.writer.closed = false ∧
      s.writer.queue.length = 1) (by decide +kernel)
  exact ⟨s, hrun, Traffic.blocked_of_full hstage hlock hclosed hfull⟩

end KvStore
