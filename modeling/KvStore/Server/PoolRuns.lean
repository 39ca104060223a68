import KvStore.Server.PoolPlaces

/-!
# What the connections of the worker pool see

* `pool_conn_trace`: the trace of every connection is one of goroutine mode.
* `pool_answers`: a worker never blocks on the channel of a task, and as long as the pool is not
  stopped the workers can get the task of any waiting connection done.
-/

namespace KvStore

open KvStore.Common

variable {ε σ : Type} {p p' q : Pool ε σ} {place : ℕ → Place} {S : Server ε σ} {c i w : ℕ}
  {reuse : Option ℕ}

/-! ## Responses -/

@[simp] theorem Conn.stage_ne_offering (k : Conn ε σ) (j : ℕ) : k.stage ≠ .offering j := by
  unfold Conn.stage
  split <;> simp

@[simp] theorem Conn.stage_task (k : Conn ε σ) : k.stage.task = none := by
  unfold Conn.stage
  split <;> rfl

/-- A task that was executed has a response to the request that it still has. -/
def Pool.Resulted (S : Server ε σ) (p : Pool ε σ) (place : ℕ → Place) : Prop :=
  ∀ i, (place i).ran = true → ∃ e, (Pool.run S (p.tasks i).frame e).1 = (p.tasks i).respBuf

theorem Pool.Resulted.update (h : p.Resulted S place) {y : Place}
    (htasks : ∀ j ≠ i, (p'.tasks j).frame = (p.tasks j).frame ∧
      (p'.tasks j).respBuf = (p.tasks j).respBuf)
    (hi : y.ran = true → ∃ e, (Pool.run S (p'.tasks i).frame e).1 = (p'.tasks i).respBuf) :
    p'.Resulted S (Function.update place i y) := by
  intro j hj
  by_cases hne : j = i
  · subst hne
    rw [Function.update_self] at hj
    exact hi hj
  · rw [Function.update_of_ne hne] at hj
    rw [(htasks j hne).1, (htasks j hne).2]
    exact h j hj

/-! ## Every connection is served as in goroutine mode -/

section trail

variable {k₀ k : Conn ε σ} {f : Frame}

/-- Goroutine mode gets from `k₀` to here. -/
def Conn.Reached (k : Conn ε σ) (S : Server ε σ) (k₀ : Conn ε σ) : Prop :=
  Run (Conn.step S) Always k₀ k

/-- A request was read that goroutine mode would execute now. -/
def Conn.Fetched (k : Conn ε σ) (S : Server ε σ) (k₀ : Conn ε σ) (f : Frame) : Prop :=
  ∃ k₁ : Conn ε σ, k₁.Reached S k₀ ∧ k₁.status = .serving ∧ (k₁.readNext S).err = none ∧
    (k₁.readNext S).frame = f ∧ ¬ (isReplOpcode f.header.code ∧ S.replHandler) ∧
    k = k₁.advance (k₁.readNext S)

namespace Conn.Reached

theorem next (h : k.Reached S k₀) (hstatus : k.status = .serving) (room : Bool) :
    (k.next S room).Reached S k₀ :=
  h.tail (.next room) trivial (if_pos hstatus)

theorem others (h : k.Reached S k₀) (e : ε) : { k with engine := e }.Reached S k₀ :=
  h.tail (.others e) trivial rfl

theorem shutdown (h : k.Reached S k₀) (hstatus : k.status = .serving) : k.close.Reached S k₀ :=
  h.tail .shutdown trivial (if_pos hstatus)

theorem handleReadError (h : k.Reached S k₀) (hstatus : k.status = .serving) {err : FrameError}
    (herr : (k.readNext S).err = some err) :
    ((k.advance (k.readNext S)).handleReadError err (k.readNext S).frame).Reached S k₀ := by
  have hnext := h.next hstatus true
  rwa [Conn.next_of_error herr] at hnext

/-- A round with the engine as others have made it. -/
theorem serveFrame (h : k.Reached S k₀) (hstatus : k.status = .serving)
    (herr : (k.readNext S).err = none) (e : ε) (room : Bool) :
    ({ k.advance (k.readNext S) with engine := e }.serveFrame S (k.readNext S).frame room).Reached
      S k₀ := by
  have hnext := (h.others e).next hstatus room
  rwa [Conn.next_of_frame (show ({ k with engine := e }.readNext S).err = none from herr)] at hnext

end Conn.Reached

/-- The response of a worker is what goroutine mode queues, when the engine is the same. -/
theorem Conn.Fetched.reply (h : k.Fetched S k₀ f) (e : ε) (room : Bool) :
    (k.reply f (Pool.run S f e).1 room).Reached S k₀ := by
  obtain ⟨k₁, hreach, hstatus, herr, rfl, hrepl, rfl⟩ := h
  have hnext := (hreach.serveFrame hstatus herr e room).others k₁.engine
  unfold Conn.serveFrame at hnext
  rw [if_neg hrepl] at hnext
  convert hnext using 1
  unfold Conn.reply Conn.serveExecute Pool.run
  dsimp only
  split_ifs <;> simp [Conn.log, Conn.advance, Conn.close]

/-- A request that is given up leaves no trace. -/
theorem Conn.Fetched.close (h : k.Fetched S k₀ f) :
    ∃ k' : Conn ε σ, k'.Reached S k₀ ∧ k'.trace = k.close.trace := by
  obtain ⟨k₁, hreach, hstatus, -, -, -, rfl⟩ := h
  exact ⟨k₁.close, hreach.shutdown hstatus, rfl⟩

/-- What a connection has done so far, by the stage of its read loop; `tasks` are the requests of
    the tasks. -/
def PoolConn.Trail (S : Server ε σ) (k₀ : Conn ε σ) (frames : ℕ → Frame) (pc : PoolConn ε σ) :
    Prop :=
  match pc.stage with
  | .reading => pc.conn.status = .serving ∧ pc.conn.Reached S k₀
  | .offering i => pc.conn.Fetched S k₀ (frames i)
  | .waiting i => pc.conn.Fetched S k₀ (frames i)
  | .ended _ => ∃ k, Conn.Reached k S k₀ ∧ k.trace = pc.conn.trace

namespace PoolConn.Trail

variable {pc : PoolConn ε σ} {frames frames' : ℕ → Frame}

theorem of_reading (h : pc.Trail S k₀ frames) (hstage : pc.stage = .reading) :
    pc.conn.status = .serving ∧ pc.conn.Reached S k₀ := by
  unfold PoolConn.Trail at h
  rwa [hstage] at h

theorem of_offering (h : pc.Trail S k₀ frames) (hstage : pc.stage = .offering i) :
    pc.conn.Fetched S k₀ (frames i) := by
  unfold PoolConn.Trail at h
  rwa [hstage] at h

theorem of_waiting (h : pc.Trail S k₀ frames) (hstage : pc.stage = .waiting i) :
    pc.conn.Fetched S k₀ (frames i) := by
  unfold PoolConn.Trail at h
  rwa [hstage] at h

/-- In goroutine mode there is a connection with this trace. -/
theorem exists_reached (h : pc.Trail S k₀ frames) :
    ∃ k, Conn.Reached k S k₀ ∧ k.trace = pc.conn.trace := by
  unfold PoolConn.Trail at h
  split at h
  · exact ⟨pc.conn, h.2, rfl⟩
  · obtain ⟨k₁, hreach, -, -, -, -, hk⟩ := h
    exact ⟨k₁, hreach, by rw [hk]; rfl⟩
  · obtain ⟨k₁, hreach, -, -, -, -, hk⟩ := h
    exact ⟨k₁, hreach, by rw [hk]; rfl⟩
  · exact h

/-- Only the request of the task that the connection holds matters. -/
theorem congr (h : pc.Trail S k₀ frames)
    (hframe : ∀ i, pc.stage.task = some i → frames' i = frames i) : pc.Trail S k₀ frames' := by
  unfold PoolConn.Trail at h ⊢
  split at h
  · exact h
  · rename_i i hstage
    rw [hstage] at hframe
    exact hframe i rfl ▸ h
  · rename_i i hstage
    rw [hstage] at hframe
    exact hframe i rfl ▸ h
  · exact h

theorem of_reached (h : k.Reached S k₀) (hconn : pc.conn = k) (hstage : pc.stage = k.stage) :
    pc.Trail S k₀ frames := by
  unfold PoolConn.Trail
  rw [hstage, hconn]
  unfold Conn.stage
  by_cases hstatus : k.status = .serving
  · rw [if_pos hstatus]
    exact ⟨hstatus, h⟩
  · rw [if_neg hstatus]
    exact ⟨k, h, rfl⟩

/-- A read loop that returns early. -/
theorem close (h : pc.Trail S k₀ frames) (hlive : ∀ left, pc.stage ≠ .ended left)
    (left : Option ℕ) :
    PoolConn.Trail S k₀ frames' { pc with conn := pc.conn.close, stage := .ended left } := by
  show ∃ k, Conn.Reached k S k₀ ∧ k.trace = pc.conn.close.trace
  unfold PoolConn.Trail at h
  split at h
  · exact ⟨pc.conn.close, h.2.shutdown h.1, rfl⟩
  · exact h.close
  · exact h.close
  · rename_i left' hstage
    exact absurd hstage (hlive left')

end PoolConn.Trail

end trail

/-! ## All steps -/

/-- What holds in every state of a pool. -/
structure Pool.Inv (S : Server ε σ) (src : ℕ → σ) (e₀ : ε) (p : Pool ε σ) (place : ℕ → Place) :
    Prop where
  placed : p.Placed place
  resulted : p.Resulted S place
  trail : ∀ c, (p.conns c).Trail S (.init (src c) e₀) fun i => (p.tasks i).frame

namespace Pool.Inv

variable {src : ℕ → σ} {e₀ : ε}

theorem trails (h : p.Inv S src e₀ place) (hconns : ∀ c' ≠ c, p'.conns c' = p.conns c')
    (hframes : ∀ j c', c' ≠ c → (place j).owner = some c' → (p'.tasks j).frame = (p.tasks j).frame)
    (hc : (p'.conns c).Trail S (.init (src c) e₀) fun i => (p'.tasks i).frame) (c' : ℕ) :
    (p'.conns c').Trail S (.init (src c') e₀) fun i => (p'.tasks i).frame := by
  by_cases hne : c' = c
  · exact hne ▸ hc
  · rw [hconns c' hne]
    exact (h.trail c').congr fun j hj => hframes j c' hne ((h.placed.holds c' j).mp hj)

/-- A worker does something. -/
theorem of_worker (h : p.Inv S src e₀ place) {place' : ℕ → Place} (hplaced : p'.Placed place')
    (hresulted : p'.Resulted S place') (hconns : p'.conns = p.conns)
    (hframes : ∀ j, (p'.tasks j).frame = (p.tasks j).frame) : p'.Inv S src e₀ place' := by
  refine ⟨hplaced, hresulted, fun c => ?_⟩
  rw [hconns]
  exact (h.trail c).congr fun j _ => hframes j

theorem init (S : Server ε σ) (workers : ℤ) (src : ℕ → σ) (e₀ : ε) :
    (Pool.init workers src e₀).Inv S src e₀ fun _ => .unmade := by
  refine ⟨?_, fun i hi => absurd hi (by simp), fun c => ⟨rfl, .refl⟩⟩
  have hworkers : ∀ w, (Pool.init workers src e₀).workers w = .idle ∨
      (Pool.init workers src e₀).workers w = .stopped := by
    intro w
    show (if _ then _ else _) = _ ∨ (if _ then _ else _) = _
    split
    · exact .inl rfl
    · exact .inr rfl
  refine ⟨fun i => ?_, fun i => ?_, fun i => ?_, ?_, fun w i => ?_, fun w i => ?_, fun i => ?_,
    fun c i => ?_, fun c i => ?_, fun i c => ?_⟩
  all_goals grind [Pool.init, PoolStage.task]

/-! ### The connections -/

/-- A connection goes on with the task it has. -/
theorem setConn (h : p.Inv S src e₀ place) {pc : PoolConn ε σ}
    (htask : pc.stage.task = (p.conns c).stage.task)
    (hoffer : ∀ j, pc.stage = .offering j ↔ (p.conns c).stage = .offering j)
    (hc : pc.Trail S (.init (src c) e₀) fun i => (p.tasks i).frame) :
    (p.setConn c pc).Inv S src e₀ place := by
  refine ⟨h.placed.keep htask hoffer, h.resulted,
    h.trails (c := c) (fun c' hc' => ?_) (fun _ _ _ _ => rfl) ?_⟩
  · simp [hc']
  · simpa using hc

/-- Others change the engine. -/
theorem others (h : p.Inv S src e₀ place) (e : ε) :
    Pool.Inv S src e₀ { p with engine := e } place := by
  obtain ⟨hmade, hfree, hqueue, hnodup, hrun, hsig, hdone, hholds, hoffer, hconn⟩ := h.placed
  exact ⟨⟨hmade, hfree, hqueue, hnodup, hrun, hsig, hdone, hholds, hoffer, hconn⟩,
    h.resulted, h.trail⟩

/-- The pool is stopped, or the context of the server is cancelled. -/
theorem setFlags (h : p.Inv S src e₀ place) (stop cancelled : Bool) :
    Pool.Inv S src e₀ { p with stop, cancelled } place := by
  obtain ⟨hmade, hfree, hqueue, hnodup, hrun, hsig, hdone, hholds, hoffer, hconn⟩ := h.placed
  exact ⟨⟨hmade, hfree, hqueue, hnodup, hrun, hsig, hdone, hholds, hoffer, hconn⟩, h.resulted,
    h.trail⟩

theorem readFails (h : p.Inv S src e₀ place) (hstage : (p.conns c).stage = .reading)
    {err : FrameError} (herr : ((p.conns c).conn.readNext S).err = some err) :
    (p.readFails S c err).Inv S src e₀ place := by
  obtain ⟨hstatus, hreach⟩ := (h.trail c).of_reading hstage
  refine h.setConn (by rw [hstage]; rfl) (by simp [hstage]) ?_
  exact ⟨_, hreach.handleReadError hstatus herr, rfl⟩

theorem hook (h : p.Inv S src e₀ place) (hstage : (p.conns c).stage = .reading)
    (herr : ((p.conns c).conn.readNext S).err = none)
    (hrepl : isReplOpcode (p.next S c).header.code ∧ S.replHandler) :
    (p.hook S c).Inv S src e₀ place := by
  obtain ⟨hstatus, hreach⟩ := (h.trail c).of_reading hstage
  have hround : (p.hooked S c).Reached S (.init (src c) e₀) := by
    have hframe := hreach.serveFrame hstatus herr p.engine true
    unfold Conn.serveFrame at hframe
    rwa [if_pos (show isReplOpcode ((p.conns c).conn.readNext S).frame.header.code ∧ _ from hrepl)]
      at hframe
  have hset : (p.setConn c { p.conns c with
      conn := p.hooked S c, stage := (p.hooked S c).stage }).Inv S src e₀ place :=
    h.setConn (by rw [hstage]; exact Conn.stage_task _) (by simp [hstage])
      (.of_reached hround rfl rfl)
  exact hset.others _

theorem ask (h : p.Inv S src e₀ place) (hstage : (p.conns c).stage = .reading)
    (herr : ((p.conns c).conn.readNext S).err = none)
    (hrepl : ¬ (isReplOpcode (p.next S c).header.code ∧ S.replHandler))
    (hq : p.getTask reuse = some (i, q)) : ∃ place', (q.ask S c i).Inv S src e₀ place' := by
  obtain ⟨hstatus, hreach⟩ := (h.trail c).of_reading hstage
  have hi := h.placed.of_getTask hq
  obtain ⟨hconns, htasks⟩ := Pool.getTask_frame hq
  refine ⟨_, h.placed.fill hq hstage,
    h.resulted.update (fun j hj => by simp [Pool.ask, htasks, hj]) (by simp),
    h.trails (c := c) (fun c' hc' => ?_) (fun j c' _ hj => ?_) ?_⟩
  · simp [Pool.ask, hconns, hc']
  · have hne : j ≠ i := by grind
    simp [Pool.ask, htasks, hne]
  · have hfetched : (p.advanced S c).Fetched S (.init (src c) e₀) (p.next S c) :=
      ⟨_, hreach, hstatus, herr, rfl, hrepl, rfl⟩
    simpa [Pool.ask, PoolConn.Trail, Task.frame, Pool.advanced, Pool.next, hconns] using hfetched

theorem read (h : p.Inv S src e₀ place) (hstep : p.read S c reuse = some p') :
    ∃ place', p'.Inv S src e₀ place' := by
  obtain ⟨hstage, hread⟩ := Pool.read_eq hstep
  rcases hread with ⟨err, herr, rfl⟩ | ⟨herr, ⟨hrepl, rfl⟩ | ⟨hrepl, i, q, hq, rfl⟩⟩
  · exact ⟨place, h.readFails hstage herr⟩
  · exact ⟨place, h.hook hstage herr hrepl⟩
  · exact h.ask hstage herr hrepl hq

theorem offer {depth : ℕ} (h : p.Inv S src e₀ place) (hstep : p.offer depth c = some p') :
    ∃ place', p'.Inv S src e₀ place' := by
  obtain ⟨i, hstage, rfl⟩ := Pool.offer_eq hstep
  have htrail := (h.trail c).of_offering hstage
  refine ⟨_, h.placed.send hstage, h.resulted.update (fun _ _ => ⟨rfl, rfl⟩) (by simp),
    h.trails (c := c) (fun c' hc' => ?_) (fun _ _ _ _ => rfl) ?_⟩
  · simp [Pool.send, hc']
  · simpa [Pool.send, PoolConn.Trail] using htrail

theorem collect {room : Bool} (h : p.Inv S src e₀ place) (hstep : p.collect c room = some p') :
    ∃ place', p'.Inv S src e₀ place' := by
  obtain ⟨i, hstage, hdone, rfl⟩ := Pool.collect_eq hstep
  have hfetched := (h.trail c).of_waiting hstage
  have hi : place i = .held c .signalled := Place.eq_held
    ((h.placed.holds c i).mp (by rw [hstage]; rfl)) ((h.placed.done i).mp hdone)
  obtain ⟨e, he⟩ := h.resulted i (by rw [hi]; rfl)
  have hreach := hfetched.reply e room
  rw [he] at hreach
  refine ⟨_, h.placed.putBack hi (.inr rfl) rfl (Conn.stage_task _),
    h.resulted.update (fun j hj => by simp [Pool.answer, hj]) (by simp),
    h.trails (c := c) (fun c' hc' => ?_) (fun j c' hc' hj => ?_) ?_⟩
  · simp [Pool.answer, hc']
  · have hne : j ≠ i := by grind
    simp [Pool.answer, hne]
  · exact .of_reached hreach (by simp [Pool.answer]; rfl) (by simp [Pool.answer]; rfl)

theorem leave (h : p.Inv S src e₀ place) (hstep : p.leave c = some p') :
    ∃ place', p'.Inv S src e₀ place' := by
  rcases Pool.leave_eq hstep with ⟨hstage, rfl⟩ | ⟨i, hstage, rfl⟩ | ⟨i, hstage, rfl⟩
  · exact ⟨place, h.setConn (by rw [hstage]; rfl) (by simp [hstage])
      ((h.trail c).close (by simp [hstage]) none)⟩
  · have hi : place i = .held c .offered := (h.placed.offering c i).mp hstage
    have hdone : (p.tasks i).done = false := by
      rw [← Bool.not_eq_true, h.placed.done, hi]
      simp
    have hput : Pool.Placed { p.close c none with free := p.free ++ [i] }
        (Function.update place i .free) := by
      have h' := h.placed.putBack hi (.inl rfl) hdone
        (show PoolStage.task (PoolConn.stage { p.conns c with
          conn := (p.conns c).conn.close, stage := .ended none }) = none from rfl)
      rwa [Pool.setTask, Function.update_eq_self] at h'
    refine ⟨_, hput, h.resulted.update (fun _ _ => ⟨rfl, rfl⟩) (by simp),
      h.trails (c := c) (fun c' hc' => ?_) (fun _ _ _ _ => rfl) ?_⟩
    · simp [Pool.close, hc']
    · simpa [Pool.close] using (h.trail c).close (by simp [hstage]) none
  · exact ⟨place, h.setConn (by rw [hstage]; rfl) (by simp [hstage])
      ((h.trail c).close (by simp [hstage]) (some i))⟩

/-! ### The workers -/

theorem take (h : p.Inv S src e₀ place) (hstep : p.take w = some p') :
    ∃ place', p'.Inv S src e₀ place' := by
  obtain ⟨i, rest, hw, hq, rfl⟩ := Pool.take_eq hstep
  obtain ⟨c, hi, hplaced⟩ := h.placed.take hw hq
  exact ⟨_, h.of_worker hplaced (h.resulted.update (fun _ _ => ⟨rfl, rfl⟩) (by simp)) rfl
    fun _ => rfl⟩

theorem execute (h : p.Inv S src e₀ place) (hstep : p.execute S w = some p') :
    ∃ place', p'.Inv S src e₀ place' := by
  obtain ⟨i, hw, rfl⟩ := Pool.execute_eq hstep
  obtain ⟨c, hi, hplaced⟩ := h.placed.ran hw S
  refine ⟨_, h.of_worker hplaced (h.resulted.update (fun j hj => by simp [Pool.ran, hj])
    fun _ => ⟨p.engine, by simp [Pool.ran, Task.frame]⟩) rfl fun j => ?_⟩
  by_cases hj : j = i
  · subst hj
    simp [Pool.ran, Task.frame]
  · simp [Pool.ran, hj]

theorem signal (h : p.Inv S src e₀ place) (hstep : p.signal w = some p') :
    ∃ place', p'.Inv S src e₀ place' := by
  obtain ⟨i, hw, rfl⟩ := Pool.signal_eq hstep
  obtain ⟨c, hi, hplaced⟩ := h.placed.signal hw
  have htask : ∀ j, (Function.update p.tasks i { p.tasks i with done := true } j).frame =
      (p.tasks j).frame ∧ (Function.update p.tasks i { p.tasks i with done := true } j).respBuf =
      (p.tasks j).respBuf := by
    intro j
    by_cases hj : j = i
    · subst hj
      simp [Task.frame]
    · simp [hj]
  refine ⟨_, h.of_worker hplaced (h.resulted.update (fun j _ => htask j) fun _ => ?_) rfl
    fun j => (htask j).1⟩
  obtain ⟨e, he⟩ := h.resulted i (by rw [hi]; rfl)
  exact ⟨e, (htask i).1.symm ▸ (htask i).2.symm ▸ he⟩

theorem step {depth : ℕ} {a : PoolAction ε} (h : p.Inv S src e₀ place)
    (hstep : p.step S depth a = some p') : ∃ place', p'.Inv S src e₀ place' := by
  cases a with
  | read c reuse => exact h.read hstep
  | offer c => exact h.offer hstep
  | collect c room => exact h.collect hstep
  | leave c => exact h.leave hstep
  | close c =>
    cases hstep
    exact ⟨place, h.setConn rfl (fun _ => Iff.rfl) (h.trail c)⟩
  | take w => exact h.take hstep
  | execute w => exact h.execute hstep
  | signal w => exact h.signal hstep
  | quit w =>
    simp only [Pool.step, Option.ite_none_right_eq_some] at hstep
    obtain ⟨⟨hw, -⟩, heq⟩ := hstep
    cases heq
    exact ⟨place, h.of_worker (h.placed.quit hw) h.resulted rfl fun _ => rfl⟩
  | collectGarbage j =>
    cases hstep
    obtain ⟨place', hplaced, hran⟩ := h.placed.collectGarbage j
    exact ⟨place', h.of_worker hplaced (fun i hi => h.resulted i (hran i hi)) rfl fun _ => rfl⟩
  | cancel =>
    cases hstep
    exact ⟨place, h.setFlags p.stop true⟩
  | stop =>
    cases hstep
    exact ⟨place, h.setFlags true p.cancelled⟩
  | others e =>
    cases hstep
    exact ⟨place, h.others e⟩

theorem of_run {depth : ℕ} {workers : ℤ}
    (hrun : Run (Pool.step S depth) Always (Pool.init workers src e₀) p) :
    ∃ place, p.Inv S src e₀ place := by
  refine hrun.invariant (P := fun p => ∃ place, Pool.Inv S src e₀ p place) ?_
    ⟨_, .init S workers src e₀⟩
  rintro p a p' ⟨place, h⟩ - hstep
  exact h.step hstep

end Pool.Inv

/-! ## Waiting connections -/

/-- The steps of the workers. -/
def PoolAction.OfWorker : PoolAction ε → Prop
  | .take _ => True
  | .execute _ => True
  | .signal _ => True
  | _ => False

section waiting

/-- The workers can get from `p` to `p'`. -/
def Pool.Works (S : Server ε σ) (depth : ℕ) (p p' : Pool ε σ) : Prop :=
  Run (Pool.step S depth) (fun _ a => a.OfWorker) p p'

theorem Pool.Works.conns {depth : ℕ} (h : Pool.Works S depth p p') : p'.conns = p.conns := by
  refine Run.invariant (P := fun q => q.conns = p.conns) ?_ h rfl
  intro q a q' hq ha hstep
  cases a with
  | take w =>
    obtain ⟨i, rest, -, -, rfl⟩ := Pool.take_eq hstep
    exact hq
  | execute w =>
    obtain ⟨i, -, rfl⟩ := Pool.execute_eq hstep
    exact hq
  | signal w =>
    obtain ⟨i, -, rfl⟩ := Pool.signal_eq hstep
    exact hq
  | _ => exact absurd ha id

namespace Pool.Placed

/-- The channel of a task that was executed is empty. -/
theorem signal_enabled (h : p.Placed place) (hw : p.workers w = .signalling i) :
    p.signal w = some ((p.setTask i { p.tasks i with done := true }).setWorker w .idle) := by
  have hdone : (p.tasks i).done ≠ true := by
    rw [ne_eq, h.done, (h.signalling w i).mp hw]
    simp
  unfold Pool.signal
  rw [hw]
  exact if_neg hdone

variable (S) (depth : ℕ)

theorem works_signal (h : p.Placed place) (hw : p.workers w = .signalling i) :
    ∃ p' place', Pool.Works S depth p p' ∧ p'.Placed place' ∧ p'.queue = p.queue ∧
      p'.workers w = .idle ∧ (p'.tasks i).done = true := by
  obtain ⟨c, -, hplaced⟩ := h.signal hw
  exact ⟨_, _, Run.refl.tail (.signal w) trivial (h.signal_enabled hw), hplaced, rfl, by simp,
    by simp⟩

theorem works_execute (h : p.Placed place) (hw : p.workers w = .running i) :
    ∃ p' place', Pool.Works S depth p p' ∧ p'.Placed place' ∧ p'.queue = p.queue ∧
      p'.workers w = .idle ∧ (p'.tasks i).done = true := by
  obtain ⟨c, -, hplaced⟩ := h.ran hw S
  have hstep : p.step S depth (.execute w) = some (p.ran S w i) := by
    show p.execute S w = _
    unfold Pool.execute
    rw [hw]
  obtain ⟨p', place', hworks, h'⟩ := hplaced.works_signal S depth (w := w) (i := i)
    (by simp [Pool.ran])
  exact ⟨p', place', (Run.refl.tail (.execute w) trivial hstep).trans hworks, h'⟩

theorem works_take (h : p.Placed place) {rest : List ℕ} (hw : p.workers w = .idle)
    (hq : p.queue = i :: rest) :
    ∃ p' place', Pool.Works S depth p p' ∧ p'.Placed place' ∧ p'.queue = rest ∧
      p'.workers w = .idle ∧ (p'.tasks i).done = true := by
  obtain ⟨c, -, hplaced⟩ := h.take hw hq
  have hstep : p.step S depth (.take w) =
      some { p.setWorker w (.running i) with queue := rest } := by
    show p.take w = _
    unfold Pool.take
    rw [hw, hq]
  obtain ⟨p', place', hworks, h'⟩ := hplaced.works_execute S depth (w := w) (i := i)
    (by simp)
  exact ⟨p', place', (Run.refl.tail (.take w) trivial hstep).trans hworks, h'⟩

/-- An idle worker gets through the queue. -/
theorem works_queue {before rest : List ℕ} (h : p.Placed place) (hw : p.workers w = .idle)
    (hq : p.queue = before ++ i :: rest) :
    ∃ p', Pool.Works S depth p p' ∧ (p'.tasks i).done = true := by
  induction before generalizing p place with
  | nil =>
    obtain ⟨p', -, hworks, -, -, -, hdone⟩ := h.works_take S depth hw hq
    exact ⟨p', hworks, hdone⟩
  | cons j before ih =>
    obtain ⟨p', place', hworks, h', hq', hw', -⟩ := h.works_take S depth hw hq
    obtain ⟨p'', hworks', hdone⟩ := ih h' hw' hq'
    exact ⟨p'', hworks.trans hworks', hdone⟩

/-- So does one that is busy. -/
theorem works_busy (h : p.Placed place) (hw : p.workers w ≠ .stopped) :
    ∃ p' place', Pool.Works S depth p p' ∧ p'.Placed place' ∧ p'.queue = p.queue ∧
      p'.workers w = .idle := by
  rcases hx : p.workers w with _ | j | j | _
  · exact ⟨p, place, .refl, h, rfl, hx⟩
  · obtain ⟨p', place', hworks, h', hq, hw', -⟩ := h.works_execute S depth hx
    exact ⟨p', place', hworks, h', hq, hw'⟩
  · obtain ⟨p', place', hworks, h', hq, hw', -⟩ := h.works_signal S depth hx
    exact ⟨p', place', hworks, h', hq, hw'⟩
  · exact absurd hx hw

/-- The workers can get any task done. -/
theorem works_sent (h : p.Placed place) (hw : p.workers w ≠ .stopped)
    (hstage : (p.conns c).stage = .waiting i) :
    ∃ p', Pool.Works S depth p p' ∧ (p'.tasks i).done = true := by
  have howner : (place i).owner = some c := (h.holds c i).mp (by rw [hstage]; rfl)
  rcases hi : place i with _ | _ | _ | ⟨c', x⟩
  all_goals rw [hi] at howner; cases howner
  cases x with
  | offered =>
    rw [(h.offering c i).mpr hi] at hstage
    cases hstage
  | queued =>
    obtain ⟨p', place', hworks, h', hq, hw'⟩ := h.works_busy S depth hw
    have hmem : i ∈ p'.queue := hq ▸ (h.queue i).mpr (by rw [hi]; rfl)
    obtain ⟨before, rest, hsplit⟩ := List.append_of_mem hmem
    obtain ⟨p'', hworks', hdone⟩ := h'.works_queue S depth hw' hsplit
    exact ⟨p'', hworks.trans hworks', hdone⟩
  | running w' =>
    obtain ⟨p', -, hworks, -, -, -, hdone⟩ := h.works_execute S depth
      ((h.running w' i).mpr (by rw [hi]; rfl))
    exact ⟨p', hworks, hdone⟩
  | signalling w' =>
    obtain ⟨p', -, hworks, -, -, -, hdone⟩ := h.works_signal S depth
      ((h.signalling w' i).mpr (by rw [hi]; rfl))
    exact ⟨p', hworks, hdone⟩
  | signalled => exact ⟨p, .refl, (h.done i).mpr (by rw [hi]; rfl)⟩

end Pool.Placed

end waiting

/-! ## Runs -/

section runs

variable {depth : ℕ} {workers : ℤ} {src : ℕ → σ} {e₀ : ε}

theorem Pool.update_ne_stopped {workers : ℕ → Worker} {x : Worker} (hx : x ≠ .stopped) (w w' : ℕ)
    (h : workers w' ≠ .stopped) : Function.update workers w x w' ≠ .stopped := by
  by_cases hw : w' = w
  · subst hw
    rwa [Function.update_self]
  · rwa [Function.update_of_ne hw]

/-- No worker stops unless the pool does. -/
theorem Pool.step_stop {a : PoolAction ε} (h : p.step S depth a = some p') (hs : p'.stop = false) :
    p.stop = false ∧ ∀ w, p.workers w ≠ .stopped → p'.workers w ≠ .stopped := by
  cases a with
  | read c reuse =>
    obtain ⟨-, ⟨err, -, rfl⟩ | ⟨-, ⟨-, rfl⟩ | ⟨-, i, q, hq, rfl⟩⟩⟩ := Pool.read_eq h
    · exact ⟨hs, fun _ => id⟩
    · exact ⟨hs, fun _ => id⟩
    · rcases Pool.getTask_eq hq with ⟨-, rfl⟩ | ⟨j, -, rfl⟩ <;>
        exact ⟨hs, fun _ => id⟩
  | offer c =>
    obtain ⟨i, -, rfl⟩ := Pool.offer_eq h
    exact ⟨hs, fun _ => id⟩
  | collect c room =>
    obtain ⟨i, -, -, rfl⟩ := Pool.collect_eq h
    exact ⟨hs, fun _ => id⟩
  | leave c =>
    rcases Pool.leave_eq h with ⟨-, rfl⟩ | ⟨i, -, rfl⟩ | ⟨i, -, rfl⟩ <;>
      exact ⟨hs, fun _ => id⟩
  | take w =>
    obtain ⟨i, rest, -, -, rfl⟩ := Pool.take_eq h
    exact ⟨hs, Pool.update_ne_stopped (by simp) w⟩
  | execute w =>
    obtain ⟨i, -, rfl⟩ := Pool.execute_eq h
    exact ⟨hs, Pool.update_ne_stopped (by simp) w⟩
  | signal w =>
    obtain ⟨i, -, rfl⟩ := Pool.signal_eq h
    exact ⟨hs, Pool.update_ne_stopped (by simp) w⟩
  | quit w =>
    simp only [Pool.step, Option.ite_none_right_eq_some] at h
    obtain ⟨⟨-, hstop⟩, heq⟩ := h
    cases heq
    exact absurd (hstop.symm.trans hs) (by decide)
  | stop =>
    cases h
    exact absurd hs (by simp)
  | others e =>
    cases h
    exact ⟨hs, fun _ => id⟩
  | _ =>
    cases h
    exact ⟨hs, fun _ => id⟩

/-- As long as the pool is not stopped, its first worker is there. -/
theorem Pool.worker_of_run (hrun : Run (Pool.step S depth) Always (Pool.init workers src e₀) p) :
    p.stop = false → p.workers 0 ≠ .stopped := by
  refine hrun.invariant (P := fun p => p.stop = false → p.workers 0 ≠ .stopped) ?_ fun _ => ?_
  · intro p a p' h _ hstep hnot
    obtain ⟨hstop, hworkers⟩ := Pool.step_stop hstep hnot
    exact hworkers 0 (h hstop)
  · show (if ((0 : ℕ) : ℤ) < max workers 1 then Worker.idle else .stopped) ≠ _
    rw [if_pos (by omega)]
    simp

/-- The trace of a connection of the worker pool, which has the requests it answered with their
    responses, and its end, is the trace of some run of goroutine mode on the same input, with
    others changing the engine between the requests. -/
theorem pool_conn_trace (hrun : Run (Pool.step S depth) Always (Pool.init workers src e₀) p)
    (c : ℕ) : ∃ k, Run (Conn.step S) Always (Conn.init (src c) e₀) k ∧
      k.trace = (p.conns c).conn.trace := by
  obtain ⟨place, h⟩ := Pool.Inv.of_run hrun
  exact (h.trail c).exists_reached

/-- A worker never blocks on the channel of a task, not even of one whose connection has gone; and
    as long as the pool is not stopped, the workers alone can get every waiting connection its
    response. -/
theorem pool_answers (hrun : Run (Pool.step S depth) Always (Pool.init workers src e₀) p) :
    (∀ w i, p.workers w = .signalling i → (p.step S depth (.signal w)).isSome) ∧
      (p.stop = false → ∀ c i, (p.conns c).stage = .waiting i →
        ∃ p', Run (Pool.step S depth) (fun _ a => a.OfWorker) p p' ∧
          ∀ room, (p'.step S depth (.collect c room)).isSome) := by
  obtain ⟨place, h⟩ := Pool.Inv.of_run hrun
  refine ⟨fun w i hw => ?_, fun hstop c i hstage => ?_⟩
  · show (p.signal w).isSome
    rw [h.placed.signal_enabled hw]
    rfl
  · obtain ⟨p', hworks, hdone⟩ :=
      h.placed.works_sent S depth (Pool.worker_of_run hrun hstop) hstage
    refine ⟨p', hworks, fun room => ?_⟩
    show (p'.collect c room).isSome
    unfold Pool.collect
    rw [hworks.conns, hstage]
    simp [hdone]

end runs

/-- Connections that all send the same request. -/
def poolOfSets (workers : ℤ) : Pool LocalEngine (Bytes × Chunks) :=
  Pool.init workers (fun _ => sends (stream [plainSet]) (by decide))
    { store := newStore oneShard 1 }

/-- One worker, three connections: the second one is served first, the first one has gone before its
    task is executed, and the third one is waiting with the task of the second. -/
def poolSchedule : List (PoolAction LocalEngine) :=
  [.read 0 none, .read 1 none, .offer 1, .offer 0, .take 0, .close 0, .leave 0, .execute 0,
    .signal 0, .collect 1 true, .take 0, .execute 0, .read 2 (some 0), .offer 2]

/-- The request of the first connection is executed and has no place in its trace. -/
theorem pool_conn_trace_two : ∃ p : Pool LocalEngine (Bytes × Chunks),
    Run (Pool.step storeServer 8) Always (poolOfSets 1) p ∧ (p.conns 0).conn.trace = [.closed] ∧
      (p.conns 1).conn.trace = [.request (sentFrame plainSet), .executed (sentFrame plainSet),
        .response (p.tasks 1).respBuf true] ∧
      (∃ k, Run (Conn.step storeServer) Always ((poolOfSets 1).conns 0).conn k ∧
        k.trace = (p.conns 0).conn.trace) ∧
      ∃ k, Run (Conn.step storeServer) Always ((poolOfSets 1).conns 1).conn k ∧
        k.trace = (p.conns 1).conn.trace := by
  obtain ⟨p, hrun, h0, h1⟩ := Run.exists_of_exec (Pool.step storeServer 8) (poolOfSets 1)
    poolSchedule (fun p => (p.conns 0).conn.trace = [.closed] ∧ (p.conns 1).conn.trace =
      [.request (sentFrame plainSet), .executed (sentFrame plainSet),
        .response (p.tasks 1).respBuf true]) (by decide +kernel)
  exact ⟨p, hrun, h0, h1, pool_conn_trace hrun 0, pool_conn_trace hrun 1⟩

/-- The task of the connection that has gone is executed, its channel takes the token, and the
    connection that is waiting can get its response. -/
theorem pool_answers_left : ∃ p : Pool LocalEngine (Bytes × Chunks),
    Run (Pool.step storeServer 8) Always (poolOfSets 1) p ∧
      (p.conns 0).stage = .ended (some 0) ∧ p.workers 0 = .signalling 0 ∧
      (p.step storeServer 8 (.signal 0)).isSome ∧
      p.stop = false ∧ (p.conns 2).stage = .waiting 1 ∧
      ∃ p', Run (Pool.step storeServer 8) (fun _ a => a.OfWorker) p p' ∧
        ∀ room, (p'.step storeServer 8 (.collect 2 room)).isSome := by
  obtain ⟨p, hrun, hstage, hw, hstop, hwaits⟩ := Run.exists_of_exec (Pool.step storeServer 8)
    (poolOfSets 1) poolSchedule (fun p => (p.conns 0).stage = .ended (some 0) ∧
      p.workers 0 = .signalling 0 ∧ p.stop = false ∧ (p.conns 2).stage = .waiting 1)
    (by decide +kernel)
  obtain ⟨hsignal, hanswer⟩ := pool_answers hrun
  exact ⟨p, hrun, hstage, hw, hsignal 0 0 hw, hstop, hwaits, hanswer hstop 2 1 hwaits⟩

end KvStore
