import KvStore.Server.Pool

/-!
# Where the tasks of the worker pool are

Tasks are recycled, so that the heart of the matter is that no task is in two places: `Placed p
place` says of every task where it is, and that the free list, the queue, the workers, the channels
and the connections agree with it. There is one lemma for every way a task can go.
-/

namespace KvStore

open KvStore.Common

/-! ## Where the tasks are -/

/-- Where a task is that a connection has filled. -/
inductive Spot
  | offered
  | queued
  | running (w : ℕ)
  | signalling (w : ℕ)
  | signalled
  deriving DecidableEq

/-- Where a task is: not allocated yet, in the `sync.Pool`, dropped from it, or with a request of a
    connection. -/
inductive Place
  | unmade
  | free
  | lost
  | held (c : ℕ) (x : Spot)
  deriving DecidableEq

/-- The connection whose request the task has. -/
@[simp, grind] def Place.owner : Place → Option ℕ
  | .held c _ => some c
  | _ => none

@[simp, grind] def Place.spot : Place → Option Spot
  | .held _ x => some x
  | _ => none

/-- The request of the task has been executed. -/
@[simp, grind] def Place.ran : Place → Bool
  | .held _ (.signalling _) => true
  | .held _ .signalled => true
  | _ => false

theorem Place.exists_of_spot {y : Place} {x : Spot} (h : y.spot = some x) :
    ∃ c, y = .held c x := by
  cases y <;> simp_all

theorem Place.eq_held {y : Place} {c : ℕ} {x : Spot} (hc : y.owner = some c)
    (hx : y.spot = some x) : y = .held c x := by
  cases y <;> simp_all

variable {ε σ : Type}

/-- Everything agrees on where the tasks are. -/
structure Pool.Placed (p : Pool ε σ) (place : ℕ → Place) : Prop where
  made : ∀ i, place i = .unmade ↔ p.made ≤ i
  free : ∀ i, i ∈ p.free ↔ place i = .free
  queue : ∀ i, i ∈ p.queue ↔ (place i).spot = some .queued
  nodup : p.free.Nodup ∧ p.queue.Nodup
  running : ∀ w i, p.workers w = .running i ↔ (place i).spot = some (.running w)
  signalling : ∀ w i, p.workers w = .signalling i ↔ (place i).spot = some (.signalling w)
  done : ∀ i, (p.tasks i).done = true ↔ (place i).spot = some .signalled
  holds : ∀ c i, (p.conns c).stage.task = some i ↔ (place i).owner = some c
  offering : ∀ c i, (p.conns c).stage = .offering i ↔ place i = .held c .offered
  conn : ∀ i c, (place i).owner = some c → (p.tasks i).conn = c

variable {p p' q : Pool ε σ} {place : ℕ → Place} {S : Server ε σ} {c i w : ℕ} {reuse : Option ℕ}

/-! ## What a step does -/

/-- A task from the `sync.Pool`, or a new one. -/
theorem Pool.getTask_eq (h : p.getTask reuse = some (i, q)) :
    (i = p.made ∧ q = { p with made := p.made + 1 }) ∨
      ∃ j, p.free[j]? = some i ∧ q = { p with free := p.free.eraseIdx j } := by
  cases reuse with
  | none =>
    cases h
    exact .inl ⟨rfl, rfl⟩
  | some j =>
    obtain ⟨i', hi', hq⟩ := Option.map_eq_some_iff.mp h
    obtain ⟨rfl, rfl⟩ := Prod.mk.inj hq
    exact .inr ⟨j, hi', rfl⟩

theorem Pool.getTask_frame (h : p.getTask reuse = some (i, q)) :
    q.conns = p.conns ∧ q.tasks = p.tasks := by
  rcases Pool.getTask_eq h with ⟨-, rfl⟩ | ⟨j, -, rfl⟩ <;> exact ⟨rfl, rfl⟩

/-- A round fails, goes to the hook, or fills a task. -/
theorem Pool.read_eq (h : p.read S c reuse = some p') :
    (p.conns c).stage = .reading ∧
      ((∃ err, ((p.conns c).conn.readNext S).err = some err ∧ p' = p.readFails S c err) ∨
        ((p.conns c).conn.readNext S).err = none ∧
          ((isReplOpcode (p.next S c).header.code ∧ S.replHandler) ∧ p' = p.hook S c ∨
            ¬ (isReplOpcode (p.next S c).header.code ∧ S.replHandler) ∧
              ∃ i q, p.getTask reuse = some (i, q) ∧ p' = q.ask S c i)) := by
  unfold Pool.read at h
  split at h
  · rename_i hstage
    refine ⟨hstage, ?_⟩
    split at h
    · rename_i err herr
      cases h
      exact .inl ⟨err, herr, rfl⟩
    · rename_i herr
      refine .inr ⟨herr, ?_⟩
      split_ifs at h with hrepl
      · cases h
        exact .inl ⟨hrepl, rfl⟩
      · obtain ⟨⟨i, q⟩, hq, rfl⟩ := Option.map_eq_some_iff.mp h
        exact .inr ⟨hrepl, i, q, hq, rfl⟩
  · cases h

theorem Pool.offer_eq {depth : ℕ} (h : p.offer depth c = some p') :
    ∃ i, (p.conns c).stage = .offering i ∧ p' = p.send c i := by
  unfold Pool.offer at h
  split at h
  · rename_i i hstage
    split_ifs at h
    cases h
    exact ⟨i, hstage, rfl⟩
  · cases h

theorem Pool.collect_eq {room : Bool} (h : p.collect c room = some p') :
    ∃ i, (p.conns c).stage = .waiting i ∧ (p.tasks i).done = true ∧ p' = p.answer c i room := by
  unfold Pool.collect at h
  split at h
  · rename_i i hstage
    split_ifs at h with hdone
    cases h
    exact ⟨i, hstage, hdone, rfl⟩
  · cases h

theorem Pool.leave_eq (h : p.leave c = some p') :
    ((p.conns c).stage = .reading ∧ p' = p.close c none) ∨
      (∃ i, (p.conns c).stage = .offering i ∧
        p' = { p.close c none with free := p.free ++ [i] }) ∨
      ∃ i, (p.conns c).stage = .waiting i ∧ p' = p.close c (some i) := by
  unfold Pool.leave at h
  split at h
  · rename_i hstage
    split_ifs at h
    cases h
    exact .inl ⟨hstage, rfl⟩
  · rename_i i hstage
    split_ifs at h
    cases h
    exact .inr (.inl ⟨i, hstage, rfl⟩)
  · rename_i i hstage
    split_ifs at h
    cases h
    exact .inr (.inr ⟨i, hstage, rfl⟩)
  · cases h

theorem Pool.take_eq (h : p.take w = some p') :
    ∃ i rest, p.workers w = .idle ∧ p.queue = i :: rest ∧
      p' = { p.setWorker w (.running i) with queue := rest } := by
  unfold Pool.take at h
  split at h
  · rename_i i rest hw hq
    cases h
    exact ⟨i, rest, hw, hq, rfl⟩
  · cases h

theorem Pool.execute_eq (h : p.execute S w = some p') :
    ∃ i, p.workers w = .running i ∧ p' = p.ran S w i := by
  unfold Pool.execute at h
  split at h
  · rename_i i hw
    cases h
    exact ⟨i, hw, rfl⟩
  · cases h

theorem Pool.signal_eq (h : p.signal w = some p') :
    ∃ i, p.workers w = .signalling i ∧
      p' = (p.setTask i { p.tasks i with done := true }).setWorker w .idle := by
  unfold Pool.signal at h
  split at h
  · rename_i i hw
    split_ifs at h
    cases h
    exact ⟨i, hw, rfl⟩
  · cases h

/-! ## No task is in two places -/

/-- One task goes somewhere else, and nothing changes for the others. -/
theorem Pool.Placed.move (h : p.Placed place) (i : ℕ) (y : Place)
    (made : (∀ j ≠ i, (p'.made ≤ j ↔ p.made ≤ j)) ∧ (y = .unmade ↔ p'.made ≤ i))
    (free : (∀ j ≠ i, (j ∈ p'.free ↔ j ∈ p.free)) ∧ (i ∈ p'.free ↔ y = .free))
    (queue : (∀ j ≠ i, (j ∈ p'.queue ↔ j ∈ p.queue)) ∧ (i ∈ p'.queue ↔ y.spot = some .queued))
    (nodup : p'.free.Nodup ∧ p'.queue.Nodup)
    (running : ∀ w, (∀ j ≠ i, (p'.workers w = .running j ↔ p.workers w = .running j)) ∧
      (p'.workers w = .running i ↔ y.spot = some (.running w)))
    (signalling : ∀ w, (∀ j ≠ i, (p'.workers w = .signalling j ↔ p.workers w = .signalling j)) ∧
      (p'.workers w = .signalling i ↔ y.spot = some (.signalling w)))
    (done : (∀ j ≠ i, (p'.tasks j).done = (p.tasks j).done) ∧
      ((p'.tasks i).done = true ↔ y.spot = some .signalled))
    (holds : ∀ c, (∀ j ≠ i, ((p'.conns c).stage.task = some j ↔ (p.conns c).stage.task = some j)) ∧
      ((p'.conns c).stage.task = some i ↔ y.owner = some c))
    (offering : ∀ c, (∀ j ≠ i, ((p'.conns c).stage = .offering j ↔
        (p.conns c).stage = .offering j)) ∧
      ((p'.conns c).stage = .offering i ↔ y = .held c .offered))
    (conn : (∀ j ≠ i, (p'.tasks j).conn = (p.tasks j).conn) ∧
      ∀ c, y.owner = some c → (p'.tasks i).conn = c) : p'.Placed (Function.update place i y) := by
  refine ⟨fun j => ?_, fun j => ?_, fun j => ?_, nodup, fun w j => ?_, fun w j => ?_, fun j => ?_,
    fun c j => ?_, fun c j => ?_, fun j c => ?_⟩ <;> by_cases hj : j = i
  all_goals first | subst hj; rw [Function.update_self] | rw [Function.update_of_ne hj]
  · exact made.2
  · exact (h.made j).trans (made.1 j hj).symm
  · exact free.2
  · exact (free.1 j hj).trans (h.free j)
  · exact queue.2
  · exact (queue.1 j hj).trans (h.queue j)
  · exact (running w).2
  · exact ((running w).1 j hj).trans (h.running w j)
  · exact (signalling w).2
  · exact ((signalling w).1 j hj).trans (h.signalling w j)
  · exact done.2
  · rw [done.1 j hj]
    exact h.done j
  · exact (holds c).2
  · exact ((holds c).1 j hj).trans (h.holds c j)
  · exact (offering c).2
  · exact ((offering c).1 j hj).trans (h.offering c j)
  · exact conn.2 c
  · rw [conn.1 j hj]
    exact h.conn j c

theorem PoolStage.task_of_offering {x : PoolStage} {j : ℕ} (h : x = .offering j) :
    x.task = some j := by rw [h]; rfl

namespace Pool.Placed

/-- Nobody else holds a task that a connection holds, and nobody one that is not held. -/
theorem holds_setConn (h : p.Placed place) {pc : PoolConn ε σ} {y : Place}
    (hother : ∀ c' ≠ c, (place i).owner ≠ some c')
    (hold : ∀ j, (p.conns c).stage.task = some j → j = i)
    (hnew : ∀ j, pc.stage.task = some j → j = i)
    (hy : ∀ c', y.owner = some c' ↔ c' = c ∧ pc.stage.task = some i) (c' : ℕ) :
    (∀ j ≠ i, (((p.setConn c pc).conns c').stage.task = some j ↔
        (p.conns c').stage.task = some j)) ∧
      (((p.setConn c pc).conns c').stage.task = some i ↔ y.owner = some c') := by
  show (∀ j ≠ i, ((Function.update p.conns c pc c').stage.task = some j ↔ _)) ∧
    ((Function.update p.conns c pc c').stage.task = some i ↔ _)
  by_cases hc : c' = c
  · subst hc
    rw [Function.update_self]
    refine ⟨fun j hj => ⟨fun ht => absurd (hnew j ht) hj, fun ht => absurd (hold j ht) hj⟩, ?_⟩
    rw [hy]
    exact ⟨fun ht => ⟨rfl, ht⟩, fun ht => ht.2⟩
  · rw [Function.update_of_ne hc]
    refine ⟨fun _ _ => Iff.rfl, ?_⟩
    rw [hy, h.holds]
    exact ⟨fun hx => absurd hx (hother c' hc), fun ht => absurd ht.1 hc⟩

theorem offering_setConn (h : p.Placed place) {pc : PoolConn ε σ} {y : Place}
    (hother : ∀ c' ≠ c, (place i).owner ≠ some c')
    (hold : ∀ j, (p.conns c).stage.task = some j → j = i)
    (hnew : ∀ j, pc.stage.task = some j → j = i)
    (hy : ∀ c', y = .held c' .offered ↔ c' = c ∧ pc.stage = .offering i) (c' : ℕ) :
    (∀ j ≠ i, (((p.setConn c pc).conns c').stage = .offering j ↔
        (p.conns c').stage = .offering j)) ∧
      (((p.setConn c pc).conns c').stage = .offering i ↔ y = .held c' .offered) := by
  show (∀ j ≠ i, ((Function.update p.conns c pc c').stage = .offering j ↔ _)) ∧
    ((Function.update p.conns c pc c').stage = .offering i ↔ _)
  by_cases hc : c' = c
  · subst hc
    rw [Function.update_self]
    refine ⟨fun j hj => ⟨fun ht => absurd (hnew j (PoolStage.task_of_offering ht)) hj,
      fun ht => absurd (hold j (PoolStage.task_of_offering ht)) hj⟩, ?_⟩
    rw [hy]
    exact ⟨fun ht => ⟨rfl, ht⟩, fun ht => ht.2⟩
  · rw [Function.update_of_ne hc]
    refine ⟨fun _ _ => Iff.rfl, ?_⟩
    rw [hy, h.offering]
    exact ⟨fun hx => absurd (congrArg Place.owner hx) (hother c' hc), fun ht => absurd ht.1 hc⟩

/-- What is left when one element of a list without repetitions is taken out. -/
theorem mem_eraseIdx_iff {l : List ℕ} (h : l.Nodup) {j : ℕ} (hj : l[j]? = some i) (x : ℕ) :
    x ∈ l.eraseIdx j ↔ x ∈ l ∧ x ≠ i := by
  obtain ⟨hlt, rfl⟩ := List.getElem?_eq_some_iff.mp hj
  rw [← h.erase_getElem j hlt]
  exact (h.mem_erase_iff).trans and_comm

/-! ### The connections -/

theorem send (h : p.Placed place) (hstage : (p.conns c).stage = .offering i) :
    (p.send c i).Placed (Function.update place i (.held c .queued)) := by
  have hi : place i = .held c .offered := (h.offering c i).mp hstage
  have htask : (p.conns c).stage.task = some i := PoolStage.task_of_offering hstage
  have hfresh : i ∉ p.queue := by simp [h.queue, hi]
  obtain ⟨hmade, hfree, hqueue, hnodup, hrun, hsig, hdone, -, -, hconn⟩ := id h
  refine h.move i _ ?_ ?_ ?_ ⟨hnodup.1, ?_⟩ ?_ ?_ ?_
    (h.holds_setConn (by grind) (by grind) (by grind [PoolStage.task]) (by grind [PoolStage.task]))
    (h.offering_setConn (by grind) (by grind) (by grind [PoolStage.task]) (by grind)) ?_
  case refine_4 => exact List.nodup_append.mpr ⟨hnodup.2, by simp, by grind⟩
  all_goals simp only [Pool.send, Pool.setConn]; grind

/-- The read loop goes on without a task, which goes back to the `sync.Pool`. -/
theorem putBack (h : p.Placed place) {x : Spot} (hi : place i = .held c x)
    (hx : x = .offered ∨ x = .signalled) {t : Task} (ht : t.done = false) {pc : PoolConn ε σ}
    (hpc : pc.stage.task = none) :
    Pool.Placed { (p.setTask i t).setConn c pc with free := p.free ++ [i] }
      (Function.update place i .free) := by
  have htask : (p.conns c).stage.task = some i := (h.holds c i).mpr (by rw [hi]; rfl)
  have hoff : ∀ j, pc.stage ≠ .offering j := fun j hj => by
    rw [hj] at hpc
    cases hpc
  have hfresh : i ∉ p.free := by simp [h.free, hi]
  obtain ⟨hmade, hfree, hqueue, hnodup, hrun, hsig, hdone, -, -, hconn⟩ := id h
  refine h.move i _ ?_ ?_ ?_ ⟨?_, hnodup.2⟩ ?_ ?_ ?_
    (h.holds_setConn (by grind) (by grind) (by grind) (by grind))
    (h.offering_setConn (by grind) (by grind) (by grind) (by grind)) ?_
  case refine_4 => exact List.nodup_append.mpr ⟨hnodup.1, by simp, by grind⟩
  all_goals simp only [Pool.setConn, Pool.setTask]; grind

theorem of_getTask (h : p.Placed place) (hq : p.getTask reuse = some (i, q)) :
    place i = .unmade ∨ place i = .free := by
  rcases Pool.getTask_eq hq with ⟨rfl, -⟩ | ⟨j, hj, -⟩
  · exact .inl ((h.made _).mpr le_rfl)
  · exact .inr ((h.free i).mp (List.mem_of_getElem? hj))

/-- A task is filled that nobody has. -/
theorem fill (h : p.Placed place) (hq : p.getTask reuse = some (i, q))
    (hstage : (p.conns c).stage = .reading) :
    (q.ask S c i).Placed (Function.update place i (.held c .offered)) := by
  have htask : (p.conns c).stage.task = none := by rw [hstage]; rfl
  obtain ⟨hmade, hfree, hqueue, hnodup, hrun, hsig, hdone, -, -, hconn⟩ := id h
  have hwas := h.of_getTask hq
  have hother : ∀ c' ≠ c, (place i).owner ≠ some c' := by grind
  let pc : PoolConn ε σ := { p.conns c with conn := q.advanced S c, stage := .offering i }
  have hholds := h.holds_setConn (y := .held c .offered) hother (by grind)
    (show ∀ j, pc.stage.task = some j → j = i by grind [PoolStage.task])
    (by simp [pc, PoolStage.task, eq_comm])
  have hoffers := h.offering_setConn (y := .held c .offered) hother (by grind)
    (show ∀ j, pc.stage.task = some j → j = i by grind [PoolStage.task]) (by grind)
  rcases Pool.getTask_eq hq with ⟨rfl, rfl⟩ | ⟨j, hj, rfl⟩
  · refine h.move p.made _ ?_ ?_ ?_ hnodup ?_ ?_ ?_ hholds hoffers ?_
    all_goals simp only [Pool.ask, Pool.setConn, Pool.setTask]; grind
  · have herase := mem_eraseIdx_iff hnodup.1 hj
    refine h.move i _ ?_ ?_ ?_ ⟨hnodup.1.eraseIdx j, hnodup.2⟩ ?_ ?_ ?_ hholds hoffers ?_
    all_goals simp only [Pool.ask, Pool.setConn, Pool.setTask]; grind

/-- A connection goes on with the task it has. -/
theorem keep (h : p.Placed place) {pc : PoolConn ε σ}
    (htask : pc.stage.task = (p.conns c).stage.task)
    (hoffer : ∀ j, pc.stage = .offering j ↔ (p.conns c).stage = .offering j) :
    (p.setConn c pc).Placed place := by
  have hc : ∀ c', ((p.setConn c pc).conns c').stage.task = (p.conns c').stage.task ∧
      ∀ j, ((p.setConn c pc).conns c').stage = .offering j ↔ (p.conns c').stage = .offering j := by
    intro c'
    show (Function.update p.conns c pc c').stage.task = _ ∧
      ∀ j, (Function.update p.conns c pc c').stage = .offering j ↔ _
    by_cases hc : c' = c
    · subst hc
      rw [Function.update_self]
      exact ⟨htask, hoffer⟩
    · rw [Function.update_of_ne hc]
      exact ⟨rfl, fun _ => Iff.rfl⟩
  exact ⟨h.made, h.free, h.queue, h.nodup, h.running, h.signalling, h.done,
    fun c' i => (hc c').1 ▸ h.holds c' i, fun c' i => ((hc c').2 i).trans (h.offering c' i), h.conn⟩

/-! ### The workers -/

theorem take (h : p.Placed place) {rest : List ℕ} (hw : p.workers w = .idle)
    (hq : p.queue = i :: rest) : ∃ c, place i = .held c .queued ∧
      Pool.Placed { p.setWorker w (.running i) with queue := rest }
        (Function.update place i (.held c (.running w))) := by
  obtain ⟨hmade, hfree, hqueue, hnodup, hrun, hsig, hdone, hholds, hoffer, hconn⟩ := id h
  obtain ⟨c, hi⟩ := Place.exists_of_spot ((hqueue i).mp (by rw [hq]; exact List.mem_cons_self))
  have hrest := hnodup.2
  rw [hq, List.nodup_cons] at hrest
  refine ⟨c, hi, h.move i _ ?_ ?_ ?_ ⟨hnodup.1, hrest.2⟩ ?_ ?_ ?_ ?_ ?_ ?_⟩
  all_goals simp only [Pool.setWorker]; grind [Function.update_apply]

theorem ran (h : p.Placed place) (hw : p.workers w = .running i) (S : Server ε σ) :
    ∃ c, place i = .held c (.running w) ∧
      (p.ran S w i).Placed (Function.update place i (.held c (.signalling w))) := by
  obtain ⟨hmade, hfree, hqueue, hnodup, hrun, hsig, hdone, hholds, hoffer, hconn⟩ := id h
  obtain ⟨c, hi⟩ := Place.exists_of_spot ((hrun w i).mp hw)
  refine ⟨c, hi, h.move i _ ?_ ?_ ?_ hnodup ?_ ?_ ?_ ?_ ?_ ?_⟩
  all_goals simp only [Pool.ran, Pool.setWorker, Pool.setTask]; grind [Function.update_apply]

theorem signal (h : p.Placed place) (hw : p.workers w = .signalling i) :
    ∃ c, place i = .held c (.signalling w) ∧
      Pool.Placed ((p.setTask i { p.tasks i with done := true }).setWorker w .idle)
        (Function.update place i (.held c .signalled)) := by
  obtain ⟨hmade, hfree, hqueue, hnodup, hrun, hsig, hdone, hholds, hoffer, hconn⟩ := id h
  obtain ⟨c, hi⟩ := Place.exists_of_spot ((hsig w i).mp hw)
  refine ⟨c, hi, h.move i _ ?_ ?_ ?_ hnodup ?_ ?_ ?_ ?_ ?_ ?_⟩
  all_goals simp only [Pool.setWorker, Pool.setTask]; grind [Function.update_apply]

theorem quit (h : p.Placed place) (hw : p.workers w = .idle) :
    (p.setWorker w .stopped).Placed place := by
  obtain ⟨hmade, hfree, hqueue, hnodup, hrun, hsig, hdone, hholds, hoffer, hconn⟩ := h
  refine ⟨hmade, hfree, hqueue, hnodup, fun w' i => ?_, fun w' i => ?_, hdone, hholds, hoffer,
    hconn⟩
  all_goals simp only [Pool.setWorker]; grind [Function.update_apply]

/-- The `sync.Pool` drops a task. -/
theorem collectGarbage (h : p.Placed place) (j : ℕ) :
    ∃ place', Pool.Placed { p with free := p.free.eraseIdx j } place' ∧
      ∀ i, (place' i).ran = true → (place i).ran = true := by
  obtain ⟨hmade, hfree, hqueue, hnodup, hrun, hsig, hdone, hholds, hoffer, hconn⟩ := id h
  rcases hj : p.free[j]? with _ | i
  · rw [List.eraseIdx_of_length_le (List.getElem?_eq_none_iff.mp hj)]
    exact ⟨place, h, fun _ => id⟩
  · have hi : place i = .free := (hfree i).mp (List.mem_of_getElem? hj)
    have herase := mem_eraseIdx_iff hnodup.1 hj
    refine ⟨_, h.move i .lost ?_ ?_ ?_ ⟨hnodup.1.eraseIdx j, hnodup.2⟩ ?_ ?_ ?_ ?_ ?_ ?_,
      fun i' hi' => by grind [Function.update_apply]⟩
    all_goals grind

end Pool.Placed

end KvStore
