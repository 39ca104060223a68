import KvStore.Common.BufWriter
import KvStore.Common.Bytes
import KvStore.Common.Run

/-!
# The output of a connection

Model of `enqueue`, `writeLoop` and `close` of `internal/server/conn.go` (lines 173–272). The read
loop puts encoded responses on the channel `out`, and the writer goroutine takes them off it and
writes them to the socket through a buffer. The two share the channel, the counter `outSize`, which
each of them updates after the operation on the channel, and the flags of `close`.

The read loop also writes to the socket itself: the frame of a protocol error (line 154) and what
the hook of the cluster layer answers; after a hijack the cluster layer does. A call of `Write` of
the socket is one step, and the socket keeps what each of them wrote, in `wire`.
-/

namespace KvStore

open KvStore.Common

/-- What one `Write` put on the socket, and whether it came past the writer goroutine. -/
structure Chunk where
  direct : Bool
  bytes : Bytes
  deriving DecidableEq

/-- Where the read loop is: about to answer, with a response that passed the check of its size, with
    one on the channel that is not counted, with an error to close for, or gone. -/
inductive OutReader
  | serving
  | offering (resp : Bytes)
  | counting (n : ℕ)
  | closing
  | gone
  deriving DecidableEq

/-- Where the writer is: at its select, with a response that is still counted, in `bw.Write`, at the
    inner select, in `flush`, with a write error to close for, or gone. -/
inductive OutWriter
  | select
  | received (b : Bytes)
  | writing (p : Bytes)
  | draining
  | flushing (last : Bool)
  | failing
  | gone
  deriving DecidableEq

/-- A connection as its two goroutines see it. `accepted` are the responses that `enqueue` put on
    the channel; `once` says whether `closeOnce` has run, `closed` whether the channel `closed` is
    closed, and `panicked` whether it was closed twice. -/
structure Output where
  reader : OutReader
  writer : OutWriter
  out : List Bytes
  outSize : ℤ
  buf : Bytes
  wire : List Chunk
  socketOpen : Bool
  once : Bool
  closed : Bool
  hijacked : Bool
  panicked : Bool
  accepted : List Bytes
  deriving DecidableEq

/-- The steps. `write none` is a round of the writer whose `Write` succeeds, and `write (some k)`
    one that fails after `k` bytes. -/
inductive OutputAction
  | respond (resp : Bytes)
  | send
  | refuse
  | count
  | direct (frame : Bytes) (n : ℕ)
  | leave
  | readerCloses
  | hijack
  | wake
  | receive
  | subtract
  | write (fails : Option ℕ)
  | drained
  | writerCloses
  | closeSocket
  | shutdown
  deriving DecidableEq

/-- The steps of a writer whose `Write`s succeed. -/
def OutputAction.Delivers : OutputAction → Prop
  | .receive => True
  | .subtract => True
  | .write none => True
  | .drained => True
  | _ => False

/-- `output_buffer_limit`, the capacity of the channel, and the size of the buffer. -/
structure OutputConfig where
  limit : ℤ
  cap : ℕ := 64
  size : ℕ := 64 * 2 ^ 10

namespace Output

/-- `newConn` (lines 49–59). -/
def init : Output where
  reader := .serving
  writer := .select
  out := []
  outSize := 0
  buf := []
  wire := []
  socketOpen := true
  once := false
  closed := false
  hijacked := false
  panicked := false
  accepted := []

/-- `close(c.closed)`. -/
def closeChannel (s : Output) : Output :=
  if s.closed then { s with panicked := true } else { s with closed := true }

/-- `close` (lines 264–272), but for the socket itself. -/
def close (s : Output) : Output :=
  if s.once then s else { s.closeChannel with once := true }

/-- The check of `enqueue` (lines 181–186). -/
def respond (C : OutputConfig) (s : Output) (resp : Bytes) : Output :=
  if C.limit < s.outSize + resp.length then { s with reader := .closing }
  else { s with reader := .offering resp }

/-- A `Write` of the socket by the writer: it succeeds, or fails after `k` bytes. -/
def put (s : Output) (out : Bytes) (fails : Option ℕ) (rest : OutWriter) : Option Output :=
  match fails with
  | none =>
    if s.socketOpen then
      some { s with wire := s.wire ++ [⟨false, out⟩], buf := [], writer := rest }
    else none
  | some k =>
    if k < out.length ∧ (s.socketOpen ∨ k = 0) then
      some { s with
        wire := s.wire ++ [⟨false, out.take k⟩]
        buf := if s.buf.isEmpty then [] else out.drop k
        writer := .failing }
    else none

/-- Where the writer goes after `flush` (lines 227–228 and 257). -/
def flushed (last : Bool) : OutWriter := if last then .gone else .select

/-- A round of `bw.Write` or `flush`. -/
def write (C : OutputConfig) (s : Output) (fails : Option ℕ) : Option Output :=
  match s.writer with
  | .writing p =>
    match bufRound C.size s.buf p with
    | some (out, rest) => s.put out fails (.writing rest)
    | none => some { s with buf := s.buf ++ p, writer := .draining }
  | .flushing last =>
    if s.buf.isEmpty then some { s with writer := flushed last }
    else s.put s.buf fails (flushed last)
  | _ => none

/-- A receive from the channel, at either select (lines 229 and 243). -/
def receive (s : Output) : Option Output :=
  match s.writer, s.out with
  | .select, b :: rest => some { s with writer := .received b, out := rest }
  | .draining, b :: rest => some { s with writer := .received b, out := rest }
  | _, _ => none

/-- One step of the read loop, the writer, the cluster layer or the server. -/
def act (C : OutputConfig) (s : Output) : OutputAction → Option Output
  | .respond resp => if s.reader = .serving then some (s.respond C resp) else none
  | .send =>
    match s.reader with
    | .offering resp =>
      if s.out.length < C.cap then
        some { s with
          out := s.out ++ [resp]
          accepted := s.accepted ++ [resp]
          reader := .counting resp.length }
      else none
    | _ => none
  | .refuse =>
    match s.reader with
    | .offering _ =>
      if s.closed ∨ C.cap ≤ s.out.length then some { s with reader := .closing } else none
    | _ => none
  | .count =>
    match s.reader with
    | .counting n => some { s with outSize := s.outSize + n, reader := .serving }
    | _ => none
  | .direct frame n =>
    if (s.reader = .serving ∨ s.hijacked) ∧ (s.socketOpen ∨ n = 0) then
      some { s with wire := s.wire ++ [⟨true, frame.take n⟩] }
    else none
  | .leave => if s.reader = .serving then some { s with reader := .closing } else none
  | .readerCloses => if s.reader = .closing then some { s.close with reader := .gone } else none
  | .hijack =>
    if s.reader = .serving then some { s.closeChannel with hijacked := true, reader := .gone }
    else none
  | .wake =>
    if s.writer = .select ∧ s.closed then some { s with writer := .flushing true } else none
  | .receive => s.receive
  | .subtract =>
    match s.writer with
    | .received b => some { s with outSize := s.outSize - b.length, writer := .writing b }
    | _ => none
  | .write fails => s.write C fails
  | .drained =>
    if s.writer = .draining ∧ s.out = [] then some { s with writer := .flushing false } else none
  | .writerCloses => if s.writer = .failing then some { s.close with writer := .gone } else none
  | .closeSocket => if s.once then some { s with socketOpen := false } else none
  | .shutdown => some s.close

/-- A panic ends the process. -/
def step (C : OutputConfig) (s : Output) (a : OutputAction) : Option Output :=
  if s.panicked then none else s.act C a

end Output

end KvStore
