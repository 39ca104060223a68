import KvStore.Server.Conn

/-!
# The worker pool

Model of the second connection architecture, `internal/server/pool.go`. The read loop of a
connection (`serve`, lines 101–187) does not execute a request itself: it fills a task, puts it on
the queue that all connections share, and waits on the channel of the task until one of the workers
(`run`, lines 77–92) has executed it. Tasks come from a `sync.Pool` and go back to it, so that one
task works for many requests, of many connections, one after another.

A connection can be closed from outside at any time, by its own writer or by a shutdown. A read
loop that is waiting then returns and leaves its task behind, which the worker that has it or will
take it still executes.

The engine is a `Backend`, and may be changed by others at any time. The connection itself is the
`Conn` of goroutine mode. Its trace gets a request, with its execution and its response, at the end
of the round that answers it; a request that the read loop gives up has no place in it, whether or
not a worker still executes it. As in goroutine mode a call of the engine is one step, also for KEYS
and FLUSH, which lock one shard after another.
-/

namespace KvStore

open KvStore.Common

/-! ## Tasks, connections and workers -/

/-- `task` (lines 45–52): `header` is that of its frame, whose body is the copy; `done` says
    whether the channel, which has room for one token, has it. -/
structure Task where
  conn : ℕ
  header : Header
  body : Bytes
  respBuf : Response
  done : Bool

/-- The frame that is executed (line 88). -/
def Task.frame (t : Task) : Frame := ⟨t.header, t.body⟩

/-- Where the read loop of a connection is: before `ReadFrame`, at the send to the queue, at the
    receive from the channel of its task, or it has returned, perhaps without its task. -/
inductive PoolStage
  | reading
  | offering (task : ℕ)
  | waiting (task : ℕ)
  | ended (left : Option ℕ)
  deriving DecidableEq

/-- The task a connection has filled and not given back. -/
def PoolStage.task : PoolStage → Option ℕ
  | .reading => none
  | .offering i => some i
  | .waiting i => some i
  | .ended left => left

/-- A connection of the pool. `closing` says whether `c.closed` has been closed from outside. -/
structure PoolConn (ε σ : Type) where
  conn : Conn ε σ
  stage : PoolStage
  closing : Bool

/-- A worker: at its select, with a task, at the send to the channel of a task, or gone. -/
inductive Worker
  | idle
  | running (task : ℕ)
  | signalling (task : ℕ)
  | stopped
  deriving DecidableEq

/-- The server with its pool: `free` are the tasks in the `sync.Pool`, and `made` counts those that
    were allocated. `cancelled` is the context of the server. -/
structure Pool (ε σ : Type) where
  engine : ε
  conns : ℕ → PoolConn ε σ
  tasks : ℕ → Task
  free : List ℕ
  made : ℕ
  queue : List ℕ
  workers : ℕ → Worker
  stop : Bool
  cancelled : Bool

/-- The steps. `reuse` says which task `taskPool.Get` returns, if not a new one, and `room` whether
    the response fits the output queue. -/
inductive PoolAction (ε : Type)
  | read (c : ℕ) (reuse : Option ℕ)
  | offer (c : ℕ)
  | collect (c : ℕ) (room : Bool)
  | leave (c : ℕ)
  | close (c : ℕ)
  | take (w : ℕ)
  | execute (w : ℕ)
  | signal (w : ℕ)
  | quit (w : ℕ)
  | collectGarbage (j : ℕ)
  | cancel
  | stop
  | others (e : ε)

/-- The end of a round with the response to a request (lines 178–185). -/
def Conn.reply {ε σ : Type} (c : Conn ε σ) (f : Frame) (r : Response) (room : Bool) : Conn ε σ :=
  let c := c.log [.request f, .executed f]
  if f.noReply then c.log [.response r false]
  else if room then c.log [.response r true]
  else (c.log [.response r false]).close

/-- The stage after a round. -/
def Conn.stage {ε σ : Type} (c : Conn ε σ) : PoolStage :=
  if c.status = .serving then .reading else .ended none

namespace Pool

variable {ε σ : Type}

@[simp] def setConn (p : Pool ε σ) (c : ℕ) (pc : PoolConn ε σ) : Pool ε σ :=
  { p with conns := Function.update p.conns c pc }

@[simp] def setTask (p : Pool ε σ) (i : ℕ) (t : Task) : Pool ε σ :=
  { p with tasks := Function.update p.tasks i t }

@[simp] def setWorker (p : Pool ε σ) (w : ℕ) (x : Worker) : Pool ε σ :=
  { p with workers := Function.update p.workers w x }

/-- `taskPool.Get` (line 54 and 145). -/
def getTask (p : Pool ε σ) : Option ℕ → Option (ℕ × Pool ε σ)
  | none => some (p.made, { p with made := p.made + 1 })
  | some j => (p.free[j]?).map fun i => (i, { p with free := p.free.eraseIdx j })

/-- The frame that a connection reads next (line 126). -/
def next (S : Server ε σ) (p : Pool ε σ) (c : ℕ) : Frame := ((p.conns c).conn.readNext S).frame

/-- The connection after that. -/
def advanced (S : Server ε σ) (p : Pool ε σ) (c : ℕ) : Conn ε σ :=
  (p.conns c).conn.advance ((p.conns c).conn.readNext S)

/-- A round that fails to read a frame (lines 128–131). -/
def readFails (S : Server ε σ) (p : Pool ε σ) (c : ℕ) (err : FrameError) : Pool ε σ :=
  p.setConn c { p.conns c with
    conn := (p.advanced S c).handleReadError err (p.next S c)
    stage := .ended none }

/-- What the hook of the cluster layer makes of a connection (lines 135–143). -/
def hooked (S : Server ε σ) (p : Pool ε σ) (c : ℕ) : Conn ε σ :=
  ({ p.advanced S c with engine := p.engine }.log [.request (p.next S c)]).serveRepl S (p.next S c)

/-- A round that goes to the hook. -/
def hook (S : Server ε σ) (p : Pool ε σ) (c : ℕ) : Pool ε σ :=
  { p.setConn c { p.conns c with conn := p.hooked S c, stage := (p.hooked S c).stage } with
    engine := (p.hooked S c).engine }

/-- A task is filled (lines 145–151). -/
def ask (S : Server ε σ) (p : Pool ε σ) (c i : ℕ) : Pool ε σ :=
  (p.setTask i { p.tasks i with
      conn := c
      header := (p.next S c).header
      body := (p.next S c).body }).setConn c
    { p.conns c with
      conn := p.advanced S c
      stage := .offering i }

/-- The round of a read loop up to the send (lines 126–152). -/
def read (S : Server ε σ) (p : Pool ε σ) (c : ℕ) (reuse : Option ℕ) : Option (Pool ε σ) :=
  match (p.conns c).stage with
  | .reading =>
    match ((p.conns c).conn.readNext S).err with
    | some err => some (p.readFails S c err)
    | none =>
      if isReplOpcode (p.next S c).header.code ∧ S.replHandler then some (p.hook S c)
      else (p.getTask reuse).map fun (i, p) => p.ask S c i
  | _ => none

/-- A task goes on the queue. -/
def send (p : Pool ε σ) (c i : ℕ) : Pool ε σ :=
  { p.setConn c { p.conns c with stage := .waiting i } with queue := p.queue ++ [i] }

/-- The send to the queue (lines 154–156). -/
def offer (depth : ℕ) (p : Pool ε σ) (c : ℕ) : Option (Pool ε σ) :=
  match (p.conns c).stage with
  | .offering i =>
    if p.queue.length < depth then some (p.send c i) else none
  | _ => none

/-- The connection with the response of its task queued, or not (lines 178–185). -/
def replied (p : Pool ε σ) (c i : ℕ) (room : Bool) : Conn ε σ :=
  (p.conns c).conn.reply (p.tasks i).frame (p.tasks i).respBuf room

/-- The end of a round (lines 170–186). -/
def answer (p : Pool ε σ) (c i : ℕ) (room : Bool) : Pool ε σ :=
  { (p.setTask i { p.tasks i with done := false }).setConn c { p.conns c with
      conn := p.replied c i room
      stage := (p.replied c i room).stage } with
    free := p.free ++ [i] }

/-- The receive from the channel of the task (line 171). -/
def collect (p : Pool ε σ) (c : ℕ) (room : Bool) : Option (Pool ε σ) :=
  match (p.conns c).stage with
  | .waiting i => if (p.tasks i).done then some (p.answer c i room) else none
  | _ => none

/-- The read loop returns, without this task. -/
def close (p : Pool ε σ) (c : ℕ) (left : Option ℕ) : Pool ε σ :=
  p.setConn c { p.conns c with conn := (p.conns c).conn.close, stage := .ended left }

/-- A read loop returns because the connection or the server is closing (lines 112–118, 157–163 and
    172–173); while it waits for its task, only the former ends it. The request of that task, which
    a worker may have executed already, is not in the trace of the connection. -/
def leave (p : Pool ε σ) (c : ℕ) : Option (Pool ε σ) :=
  match (p.conns c).stage with
  | .reading => if (p.conns c).closing ∨ p.cancelled then some (p.close c none) else none
  | .offering i =>
    if (p.conns c).closing ∨ p.cancelled then some { p.close c none with free := p.free ++ [i] }
    else none
  | .waiting i => if (p.conns c).closing then some (p.close c (some i)) else none
  | .ended _ => none

/-- A worker takes a task (line 83). -/
def take (p : Pool ε σ) (w : ℕ) : Option (Pool ε σ) :=
  match p.workers w, p.queue with
  | .idle, i :: rest => some { p.setWorker w (.running i) with queue := rest }
  | _, _ => none

/-- What a worker computes. -/
def run (S : Server ε σ) (f : Frame) (e : ε) : Response × ε :=
  KvStore.execute S.backend S.maxValueLen S.replHandler f e

/-- The task has its response, and the engine is as the request left it. The request is one step,
    as in `Conn.serveExecute`. -/
def ran (S : Server ε σ) (p : Pool ε σ) (w i : ℕ) : Pool ε σ :=
  let r := run S (p.tasks i).frame p.engine
  { (p.setTask i { p.tasks i with respBuf := r.1 }).setWorker w (.signalling i) with
    engine := r.2 }

/-- It executes the request (lines 88–89). -/
def execute (S : Server ε σ) (p : Pool ε σ) (w : ℕ) : Option (Pool ε σ) :=
  match p.workers w with
  | .running i => some (p.ran S w i)
  | _ => none

/-- It sends to the channel of the task (line 90), which blocks while a token is in it. -/
def signal (p : Pool ε σ) (w : ℕ) : Option (Pool ε σ) :=
  match p.workers w with
  | .signalling i =>
    if (p.tasks i).done then none
    else some ((p.setTask i { p.tasks i with done := true }).setWorker w .idle)
  | _ => none

def step (S : Server ε σ) (depth : ℕ) (p : Pool ε σ) : PoolAction ε → Option (Pool ε σ)
  | .read c reuse => p.read S c reuse
  | .offer c => p.offer depth c
  | .collect c room => p.collect c room
  | .leave c => p.leave c
  | .close c => some (p.setConn c { p.conns c with closing := true })
  | .take w => p.take w
  | .execute w => p.execute S w
  | .signal w => p.signal w
  | .quit w => if p.workers w = .idle ∧ p.stop then some (p.setWorker w .stopped) else none
  | .collectGarbage j => some { p with free := p.free.eraseIdx j }
  | .cancel => some { p with cancelled := true }
  | .stop => some { p with stop := true }
  | .others e => some { p with engine := e }

/-- `newWorkerPool` and `start` (lines 56–75) with connections that have just been accepted. -/
def init (workers : ℤ) (src : ℕ → σ) (e : ε) : Pool ε σ where
  engine := e
  conns c := ⟨.init (src c) e, .reading, false⟩
  tasks _ := ⟨0, {}, [], ⟨.ok, 0, []⟩, false⟩
  free := []
  made := 0
  queue := []
  workers w := if (w : ℤ) < max workers 1 then .idle else .stopped
  stop := false
  cancelled := false

/-- The capacity of the queue (lines 60–62). -/
def depth (n : ℤ) : ℕ := if n < 1 then 1024 else n.toNat

end Pool

end KvStore
