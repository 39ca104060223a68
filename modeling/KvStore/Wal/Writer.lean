import KvStore.Common.Run
import KvStore.Wal.Log
import KvStore.Wal.Replay

/-!
# The log writer

Model of `internal/wal/writer.go` and of the open segments of `segment.go`, one system
call at a time. The WAL goroutine takes batches from the queue and goes through the
stages of `flushBatch` and `rotate`; what each system call returns is an input. The
process can crash between any two of them, and then be restarted by `Replay` and `Open`.

Two histories go with the state: the submissions accepted since the writer was opened,
and the commits finished so far, with their results.
-/

namespace KvStore

open KvStore.Common

/-- `config.FsyncPolicy`. -/
inductive FsyncPolicy
  | always
  | everySec
  | no
  deriving DecidableEq, Repr

/-- `Options` (lines 19–37) after `withDefaults`; the directory, the clock and where to
    start are given elsewhere. -/
structure WriterOptions where
  fsync : FsyncPolicy
  segmentSize : ℕ
  groupCommitMax : ℕ
  queueDepth : ℕ

/-- What a system call returns; a failed write may have written some bytes. -/
inductive IoResult
  | ok
  | error (written : ℕ)
  deriving DecidableEq

/-! ## Open segments -/

/-- `segment` (segment.go lines 91–96); `closed` once its file is. -/
structure OpenSegment where
  path : Bytes
  firstLSN : ℕ
  size : ℕ
  closed : Bool
  deriving DecidableEq

/-- `segment.write` (lines 155–165): the segment, the files, and whether it succeeded. -/
def OpenSegment.write (s : OpenSegment) (d : Disk Bytes) (data : Bytes) (res : IoResult) :
    OpenSegment × Disk Bytes × Bool :=
  if s.closed then (s, d, false)
  else
    match res with
    | .ok =>
      ({ s with size := s.size + data.length },
        Disk.modify d s.path fun f => f.writeAt s.size data, true)
    | .error n =>
      ({ s with size := s.size + (data.take n).length },
        Disk.modify d s.path fun f => f.writeAt s.size (data.take n), false)

/-- `segment.sync` (line 167): the files, or nothing when it fails. -/
def OpenSegment.sync (s : OpenSegment) (d : Disk Bytes) (res : IoResult) : Option (Disk Bytes) :=
  if s.closed ∨ res ≠ .ok then none else some (Disk.modify d s.path File.sync)

/-- The system calls of `createSegment` (lines 101–121). -/
inductive CreateCall
  | create
  | writeHeader
  | syncHeader
  | syncDir
  deriving DecidableEq

/-- How far `createSegment` gets with one call. -/
inductive CreateOutcome
  | next (call : CreateCall)
  | done
  | failed
  deriving DecidableEq

/-- One system call of `createSegment`. The file is created with `O_EXCL`. -/
def createStep (d : Disk Bytes) (firstLSN : ℕ) (nowMs : UInt64) (res : IoResult) :
    CreateCall → Disk Bytes × CreateOutcome
  | .create =>
    if Disk.read d (segmentName firstLSN) ≠ none ∨ res ≠ .ok then (d, .failed)
    else (Disk.create d (segmentName firstLSN), .next .writeHeader)
  | .writeHeader =>
    let hdr := appendRecord (newSegmentHeader firstLSN nowMs)
    match res with
    | .ok => (Disk.modify d (segmentName firstLSN) fun f => f.writeAt 0 hdr, .next .syncHeader)
    | .error n =>
      (Disk.modify d (segmentName firstLSN) fun f => f.writeAt 0 (hdr.take n), .failed)
  | .syncHeader =>
    match res with
    | .ok => (Disk.modify d (segmentName firstLSN) File.sync, .next .syncDir)
    | .error _ => (d, .failed)
  | .syncDir =>
    match res with
    | .ok => (d, .done)
    | .error _ => (d, .failed)

/-- The segment `createSegment` returns. -/
def createdSegment (firstLSN : ℕ) : OpenSegment :=
  ⟨segmentName firstLSN, firstLSN, segmentHdrLen, false⟩

/-- `openSegmentForAppend` (lines 126–153). -/
def openSegmentForAppend (d : Disk Bytes) (path : Bytes) (offset : ℕ) :
    Option (OpenSegment × Disk Bytes) :=
  (Disk.read d path).map fun f =>
    (⟨path, (parseSegmentName path).getD 0, offset, false⟩,
      if f.bytes.length > offset then truncateSegment d path offset else d)

/-! ## The writer -/

/-- Where the WAL goroutine is: between which system calls of `run`, `flushBatch` and
    `rotate`, with the batch in hand. `stopped` is after `run` has returned and `Close`
    has synced and closed the segment. -/
inductive Stage
  | idle
  | gather (batch : List Record)
  | rotateSync (batch : List Record)
  | rotateClose (batch : List Record)
  | create (batch : List Record) (call : CreateCall)
  | write (batch : List Record)
  | sync (batch : List Record)
  | finish (batch : List Record) (ok : Bool)
  | closing
  | stopped
  deriving DecidableEq

/-- `Writer` (lines 134–173). `calls` are the `Submit`s that have passed its checks and
    wait for `lsnMu`; a record stands for its submission, its LSN for the commit. -/
structure Writer where
  calls : List Record
  queue : List Record
  seg : OpenSegment
  closed : Bool
  fatal : Bool
  nextLSN : ℕ
  durableLSN : ℕ
  writtenLSN : ℕ
  pendingSync : Bool
  stage : Stage

/-- The LSN of `batch[0]`. -/
def firstLSN (batch : List Record) : ℕ := (batch.head?.map Record.lsn).getD 0

/-- The LSN of the last record of the batch. -/
def lastLSN (batch : List Record) : ℕ := (batch.getLast?.map Record.lsn).getD 0

namespace Writer

/-- The writer `Open` (lines 180–216) starts. -/
def start (startLSN : ℕ) (seg : OpenSegment) : Writer where
  calls := []
  queue := []
  seg := seg
  closed := false
  fatal := false
  nextLSN := startLSN
  durableLSN := startLSN - 1
  writtenLSN := startLSN - 1
  pendingSync := false
  stage := .idle

/-- The checks of `Submit` (lines 236–250). -/
def check (w : Writer) (r : Record) : Option Writer :=
  if w.closed ∨ w.fatal ∨ ¬ r.Submittable then none else some { w with calls := w.calls ++ [r] }

/-- What `Submit` queues for `r` (lines 257–261). -/
def stamped (w : Writer) (r : Record) (nowMs : UInt64) : Record :=
  { r with
    lsn := w.nextLSN
    createdAtMs := if r.createdAtMs = 0 then nowMs else r.createdAtMs }

/-- The rest of `Submit` (lines 252–271) for the `i`-th waiting call: refused when the
    writer was closed meanwhile, blocked while the queue is full. -/
def send (o : WriterOptions) (w : Writer) (i : ℕ) (nowMs : UInt64) :
    Option (Option Record × Writer) :=
  match w.calls[i]? with
  | none => none
  | some r =>
    if w.closed then some (none, { w with calls := w.calls.eraseIdx i })
    else if o.queueDepth ≤ w.queue.length then none
    else
      some (some (w.stamped r nowMs), { w with
        calls := w.calls.eraseIdx i
        queue := w.queue ++ [w.stamped r nowMs]
        nextLSN := w.nextLSN + 1 })

/-- The receive at the top of the loop in `run` (lines 289–293). -/
def take (w : Writer) : Option Writer :=
  match w.stage, w.queue with
  | .idle, r :: queue => some { w with queue := queue, stage := .gather [r] }
  | .idle, [] => if w.closed then some { w with stage := .closing } else none
  | _, _ => none

/-- One more record for the batch (lines 309–322). -/
def gather (o : WriterOptions) (w : Writer) : Option Writer :=
  match w.stage, w.queue with
  | .gather batch, r :: queue =>
    if batch.length < o.groupCommitMax then
      some { w with queue := queue, stage := .gather (batch ++ [r]) }
    else none
  | _, _ => none

/-- The batch is complete or the timer fires, and `flushBatch` begins (lines 330–343). -/
def flush (o : WriterOptions) (w : Writer) : Option Writer :=
  match w.stage with
  | .gather batch =>
    some { w with
      stage := if w.seg.size ≥ o.segmentSize then .rotateSync batch else .write batch }
  | _ => none

/-- `failBatch` (lines 382–388) begins. -/
def failBatch (w : Writer) (batch : List Record) : Writer :=
  { w with fatal := true, stage := .finish batch false }

/-- The next system call of the goroutine, or of `Close` after `run` has returned. -/
def call (o : WriterOptions) (w : Writer) (d : Disk Bytes) (res : IoResult) (nowMs : UInt64) :
    Option (Writer × Disk Bytes) :=
  match w.stage with
  | .rotateSync batch =>
    match w.seg.sync d res with
    | none => some (w.failBatch batch, d)
    | some d => some ({ w with stage := .rotateClose batch }, d)
  | .rotateClose batch =>
    let w := { w with seg := { w.seg with closed := true } }
    match res with
    | .ok => some ({ w with stage := .create batch .create }, d)
    | .error _ => some (w.failBatch batch, d)
  | .create batch c =>
    match createStep d (firstLSN batch) nowMs res c with
    | (d, .next c) => some ({ w with stage := .create batch c }, d)
    | (d, .done) =>
      some ({ w with
        seg := createdSegment (firstLSN batch)
        pendingSync := false
        stage := .write batch }, d)
    | (d, .failed) => some (w.failBatch batch, d)
  | .write batch =>
    match w.seg.write d (encodeRecords batch) res with
    | (seg, d, false) => some (({ w with seg := seg }).failBatch batch, d)
    | (seg, d, true) =>
      let w := { w with seg := seg, writtenLSN := lastLSN batch }
      match o.fsync with
      | .always => some ({ w with stage := .sync batch }, d)
      | _ => some ({ w with
          pendingSync := true, durableLSN := lastLSN batch, stage := .finish batch true }, d)
  | .sync batch =>
    match w.seg.sync d res with
    | none => some (w.failBatch batch, d)
    | some d => some ({ w with durableLSN := lastLSN batch, stage := .finish batch true }, d)
  | .closing =>
    some ({ w with seg := { w.seg with closed := true }, stage := .stopped },
      (w.seg.sync d res).getD d)
  | _ => none

/-- One `commit.finish` (lines 376–379 and 384–387). -/
def finish (w : Writer) : Option (Option (Record × Bool) × Writer) :=
  match w.stage with
  | .finish (r :: batch) ok => some (some (r, ok), { w with stage := .finish batch ok })
  | .finish [] _ => some (none, { w with stage := .idle })
  | _ => none

end Writer

/-! ## The process and its files -/

/-- The process: not there, inside the `createSegment` of `Open`, or with a writer. -/
inductive Proc
  | down
  | opening (startLSN : ℕ) (call : CreateCall)
  | running (w : Writer)

/-- The process, the files, and the two histories. -/
structure WalSys where
  disk : Disk Bytes
  proc : Proc
  accepted : List Record
  finished : List (Record × Bool)

/-- An empty directory and no process. -/
def WalSys.init : WalSys := ⟨[], .down, [], []⟩

/-- `Open` (lines 180–216) with a start LSN and where to resume. -/
def openWriter (d : Disk Bytes) (startLSN : ℕ) (resume : Option (Bytes × ℕ)) :
    Option (Proc × Disk Bytes) :=
  match resume with
  | none => some (.opening startLSN .create, d)
  | some (path, offset) =>
    (openSegmentForAppend d path offset).map fun p => (.running (.start startLSN p.1), p.2)

inductive WalAction
  | recover
  | check (r : Record)
  | send (i : ℕ) (nowMs : UInt64)
  | take
  | gather
  | flush
  | call (res : IoResult) (nowMs : UInt64)
  | finish
  | close
  | crash (keep : Bytes → ℕ)

/-- `Replay` with minLSN 0, then `Open` with what it returned. -/
def WalSys.recover (s : WalSys) : Option WalSys :=
  match s.proc, replay s.disk 0 false collect [] with
  | .down, .ok (res, _, d) =>
    (openWriter d res.nextLSN (res.resumePath.map fun p => (p, res.resumeOffset))).map fun p =>
      { s with disk := p.2, proc := p.1, accepted := [] }
  | _, _ => none

/-- The next system call of the process. -/
def WalSys.call (o : WriterOptions) (s : WalSys) (res : IoResult) (nowMs : UInt64) :
    Option WalSys :=
  match s.proc with
  | .down => none
  | .opening startLSN c =>
    match createStep s.disk startLSN nowMs res c with
    | (d, .next c) => some { s with disk := d, proc := .opening startLSN c }
    | (d, .done) =>
      some { s with disk := d, proc := .running (.start startLSN (createdSegment startLSN)) }
    | (d, .failed) => some { s with disk := d, proc := .down }
  | .running w => (w.call o s.disk res nowMs).map fun p =>
      { s with disk := p.2, proc := .running p.1 }

/-- A step of the writer that leaves the files alone. -/
def WalSys.onWriter (s : WalSys) (f : Writer → Option Writer) : Option WalSys :=
  match s.proc with
  | .running w => (f w).map fun w => { s with proc := .running w }
  | _ => none

def WalSys.step (o : WriterOptions) (s : WalSys) : WalAction → Option WalSys
  | .recover => s.recover
  | .check r => s.onWriter fun w => w.check r
  | .send i nowMs =>
    match s.proc with
    | .running w => (w.send o i nowMs).map fun p =>
        { s with proc := .running p.2, accepted := s.accepted ++ p.1.toList }
    | _ => none
  | .take => s.onWriter Writer.take
  | .gather => s.onWriter (Writer.gather o)
  | .flush => s.onWriter (Writer.flush o)
  | .call res nowMs => s.call o res nowMs
  | .finish =>
    match s.proc with
    | .running w => w.finish.map fun p =>
        { s with proc := .running p.2, finished := s.finished ++ p.1.toList }
    | _ => none
  | .close => s.onWriter fun w => if w.closed then none else some { w with closed := true }
  | .crash keep => some { s with disk := Disk.crash s.disk keep, proc := .down }

end KvStore
