import KvStore.Engine.StoreSteps
import KvStore.Protocol.Command
import KvStore.Protocol.Frame

/-!
# Dispatch of a request

Model of `execute` in `internal/server/dispatch.go`: the body of a frame is decoded, and the
command is run against the engine. What `execute` needs of the engine is a `Backend`; it says
nothing about what the operations do, so that what is proved over it holds for every engine
and every state of one. `LocalEngine.backend` is the store with the checks of
`internal/engine/commands.go`, one command at a time.

Response bodies are those of `internal/protocol/command.go` (lines 224–311).
-/

namespace KvStore

open KvStore.Common

/-! ## The engine as the server sees it -/

/-- The errors of the engine's commands that `execute` distinguishes. -/
inductive EngineError
  | oom
  | readOnly
  | closed
  | other (text : String)
  deriving DecidableEq, Repr

/-- `Error()` of these (engine.go lines 22–24, store.go line 14). -/
def EngineError.text : EngineError → String
  | .oom => "out of memory: write would exceed max-memory under the current policy"
  | .readOnly => "engine: instance is a read-only replica"
  | .closed => "engine: closed"
  | .other text => text

/-- The operations of `engine.Engine` and `cluster.Node` that a connection uses. -/
structure Backend (ε : Type) where
  get : ε → Bytes → Option Bytes × ε
  set : ε → Bytes → Bytes → UInt64 → Option EngineError × ε
  delete : ε → Bytes → Except EngineError Bool × ε
  exists_ : ε → Bytes → Bool × ε
  expire : ε → Bytes → UInt64 → Except EngineError Bool × ε
  ttl : ε → Bytes → Option ℤ × ε
  keys : ε → Bytes → ℕ → List Bytes × ε
  statsJSON : ε → Except String Bytes
  flush : ε → Option EngineError × ε
  snapshot : ε → Except String Bytes × ε
  readOnly : ε → Bool
  promote : ε → Except String UInt64 × ε

/-! ## Responses -/

/-- A response before it is framed. -/
structure Response where
  status : Status
  requestID : UInt32
  body : Bytes := []
  deriving DecidableEq

/-- The frame of a response (`respond`, lines 172–178). -/
def Response.bytes (r : Response) : Bytes :=
  writeFrame [] { version := protocolVersion, code := r.status.code, requestID := r.requestID }
    r.body

/-- `EncodeErrorBody` (command.go lines 306–311). -/
def encodeErrorBody (msg : String) : Bytes := msg.toUTF8.toList.take 1024

/-- `EncodeValueBody` (lines 225–228). -/
def encodeValueBody (v : Bytes) : Bytes := appendU32 [] v.length ++ v

/-- `EncodeBoolBody` (lines 241–246). -/
def encodeBoolBody (b : Bool) : Bytes := if b then [1] else [0]

/-- `EncodeTTLBody` (lines 260–262). -/
def encodeTTLBody (ms : ℤ) : Bytes := appendU64 [] (ms % 2 ^ 64).toNat

/-- `EncodeKeysBody` (lines 275–282). -/
def encodeKeysBody (keys : List Bytes) : Bytes :=
  keys.foldl (fun dst k => appendU16 dst k.length ++ k) (appendU32 [] keys.length)

/-- `respond` (lines 172–178). -/
def respond (f : Frame) (status : Status) (body : Bytes) : Response :=
  { status, requestID := f.header.requestID, body }

/-- `respondErr` (lines 180–182). -/
def respondErr (f : Frame) (status : Status) (msg : String) : Response :=
  respond f status (encodeErrorBody msg)

/-! ## `execute` -/

section

variable {ε : Type} (B : Backend ε)

/-- `mutationError` (lines 158–170). -/
def mutationError (f : Frame) : EngineError → Response
  | .readOnly => respondErr f .readOnly "this node is a read-only replica"
  | .oom => respondErr f .oom "memory limit reached"
  | .closed => respondErr f .internal "server is shutting down"
  | e => respondErr f .internal e.text

/-- The answer to a mutation that reports whether the key existed (lines 69–77 and 88–96). -/
def mutationReply (f : Frame) : Except EngineError Bool → Response
  | .error e => mutationError f e
  | .ok false => respond f .notFound []
  | .ok true => respond f .ok []

/-- The commands that need a key (`if len(cmd.Key) == 0`). -/
def withKey (f : Frame) (key : Bytes) (e : ε) (run : Response × ε) : Response × ε :=
  if key.length = 0 then (respondErr f .badRequest "empty key", e) else run

/-- The answer to a SET (lines 54–67). -/
def setReply (f : Frame) : Option EngineError → Response
  | none => respond f .ok []
  | some .oom => respondErr f .oom "memory limit reached under the current policy"
  | some .readOnly => respondErr f .readOnly "this node is a read-only replica"
  | some e => respondErr f .internal e.text

/-- The switch of `execute` over a decoded command (lines 36–155). -/
def runCommand (maxValueLen : ℕ) (replHandler : Bool) (f : Frame) (cmd : Command) (e : ε) :
    Response × ε :=
  match cmd.op with
  | .ping => (respond f .ok [], e)
  | .get =>
    withKey f cmd.key e <|
      match B.get e cmd.key with
      | (none, e) => (respond f .notFound [], e)
      | (some v, e) => (respond f .ok (encodeValueBody v), e)
  | .set =>
    withKey f cmd.key e <|
      if cmd.value.length > maxValueLen then
        (respondErr f .tooLarge "value exceeds max-value-len", e)
      else
        let (err, e) := B.set e cmd.key cmd.value cmd.ttlMillis
        (setReply f err, e)
  | .delete =>
    withKey f cmd.key e <|
      let (r, e) := B.delete e cmd.key
      (mutationReply f r, e)
  | .exists_ =>
    withKey f cmd.key e <|
      let (b, e) := B.exists_ e cmd.key
      (respond f .ok (encodeBoolBody b), e)
  | .expire =>
    withKey f cmd.key e <|
      let (r, e) := B.expire e cmd.key cmd.ttlMillis
      (mutationReply f r, e)
  | .ttl =>
    withKey f cmd.key e <|
      match B.ttl e cmd.key with
      | (none, e) => (respond f .notFound [], e)
      | (some ms, e) => (respond f .ok (encodeTTLBody ms), e)
  | .keys =>
    let limit := if cmd.limit.toNat = 0 ∨ cmd.limit.toNat > 10000 then 10000 else cmd.limit.toNat
    let (ks, e) := B.keys e cmd.key limit
    (respond f .ok (encodeKeysBody ks), e)
  | .stats =>
    match B.statsJSON e with
    | .error msg => (respondErr f .internal msg, e)
    | .ok doc => (respond f .ok (encodeValueBody doc), e)
  | .flush =>
    match B.flush e with
    | (some err, e) => (mutationError f err, e)
    | (none, e) => (respond f .ok [], e)
  | .snapshot =>
    if B.readOnly e then (respondErr f .readOnly "this node is a read-only replica", e)
    else
      match B.snapshot e with
      | (.error msg, e) => (respondErr f .internal msg, e)
      | (.ok path, e) => (respond f .ok (encodeValueBody path), e)
  | .replConf | .sync | .replAck | .promote =>
    if replHandler then
      (respondErr f .internal "replication frame reached the normal dispatcher", e)
    else (respondErr f .badRequest "replication is not enabled on this node", e)

/-- The answer to a body that does not decode (lines 21–34). -/
def decodeErrorReply (f : Frame) : CodecError → Response
  | .unknownOpcode => respondErr f .badRequest "unknown opcode"
  | .valueTooLong => respondErr f .tooLarge CodecError.valueTooLong.text
  | .keyTooLong => respondErr f .tooLarge CodecError.keyTooLong.text
  | err => respondErr f .protocolError err.text

/-- `execute` (lines 18–156). -/
def execute (maxValueLen : ℕ) (replHandler : Bool) (f : Frame) (e : ε) : Response × ε :=
  match decodeCommand f.header.code f.body with
  | .error err => (decodeErrorReply f err, e)
  | .ok cmd => runCommand B maxValueLen replHandler f cmd e

end

/-! ## What a response carries -/

/-- The errors of the body decoder that `execute` takes for a framing failure. -/
def CodecError.isFraming : CodecError → Bool
  | .unknownOpcode | .valueTooLong | .keyTooLong => false
  | _ => true

/-- The answer to `f` with a status that leaves the connection open. -/
structure Response.Answers (r : Response) (f : Frame) : Prop where
  requestID : r.requestID = f.header.requestID
  notFatal : r.status ≠ .protocolError

section

variable {ε : Type} {f : Frame}

theorem answers_respond {status : Status} (h : status ≠ .protocolError) (body : Bytes) :
    (respond f status body).Answers f := ⟨rfl, h⟩

theorem answers_withKey {key : Bytes} {e : ε} {run : Response × ε} (h : run.1.Answers f) :
    (withKey f key e run).1.Answers f := by
  unfold withKey
  split_ifs
  · exact answers_respond (by decide) _
  · exact h

theorem answers_mutationError (err : EngineError) : (mutationError f err).Answers f := by
  cases err <;> exact answers_respond (by decide) _

theorem answers_mutationReply (r : Except EngineError Bool) : (mutationReply f r).Answers f := by
  rcases r with e | _ | _
  · exact answers_mutationError e
  · exact answers_respond (by decide) _
  · exact answers_respond (by decide) _

theorem answers_setReply (err : Option EngineError) : (setReply f err).Answers f := by
  rcases err with _ | _ | _ | _ | _ <;> exact answers_respond (by decide) _

theorem answers_runCommand (B : Backend ε) (maxValueLen : ℕ) (replHandler : Bool) (cmd : Command)
    (e : ε) : (runCommand B maxValueLen replHandler f cmd e).1.Answers f := by
  unfold runCommand
  cases cmd.op with
  | ping => exact answers_respond (by decide) _
  | get =>
    refine answers_withKey ?_
    rcases B.get e cmd.key with ⟨_ | v, e'⟩ <;> exact answers_respond (by decide) _
  | set =>
    refine answers_withKey ?_
    dsimp only
    split_ifs
    · exact answers_respond (by decide) _
    · exact answers_setReply _
  | delete => exact answers_withKey (answers_mutationReply _)
  | exists_ => exact answers_withKey (answers_respond (by decide) _)
  | expire => exact answers_withKey (answers_mutationReply _)
  | ttl =>
    refine answers_withKey ?_
    rcases B.ttl e cmd.key with ⟨_ | ms, e'⟩ <;> exact answers_respond (by decide) _
  | keys => exact answers_respond (by decide) _
  | stats =>
    dsimp only
    cases B.statsJSON e <;> exact answers_respond (by decide) _
  | flush =>
    dsimp only
    rcases B.flush e with ⟨_ | err, e'⟩
    · exact answers_respond (by decide) _
    · exact answers_mutationError err
  | snapshot =>
    dsimp only
    split_ifs
    · exact answers_respond (by decide) _
    · rcases B.snapshot e with ⟨_ | path, e'⟩ <;> exact answers_respond (by decide) _
  | replConf | sync | replAck | promote =>
    dsimp only
    split_ifs <;> exact answers_respond (by decide) _

/-- Every response of `execute` carries the id of its request. -/
theorem execute_requestID (B : Backend ε) (maxValueLen : ℕ) (replHandler : Bool) (e : ε) :
    (execute B maxValueLen replHandler f e).1.requestID = f.header.requestID := by
  unfold execute
  cases decodeCommand f.header.code f.body with
  | error err => cases err <;> rfl
  | ok cmd => exact (answers_runCommand B maxValueLen replHandler cmd e).requestID

/-- The fatal status comes from the body decoder only. -/
theorem execute_protocolError {B : Backend ε} {maxValueLen : ℕ} {replHandler : Bool} {e : ε}
    (h : (execute B maxValueLen replHandler f e).1.status = .protocolError) :
    ∃ err, decodeCommand f.header.code f.body = .error err ∧ err.isFraming = true := by
  unfold execute at h
  cases hdecode : decodeCommand f.header.code f.body with
  | error err =>
    rw [hdecode] at h
    refine ⟨err, rfl, ?_⟩
    cases err <;> first | rfl | cases h
  | ok cmd =>
    rw [hdecode] at h
    exact absurd h (answers_runCommand B maxValueLen replHandler cmd e).notFatal

end

/-! ## The store as a backend -/

/-- An engine that runs one command at a time, with the epoch of its node. -/
structure LocalEngine where
  store : Store
  readOnly : Bool := false
  closed : Bool := false
  epoch : UInt64 := 1

/-- What a command meets outside the store: the document of STATS or why there is none, the path of a
    snapshot or why it failed, and the error with which `Submit` or `Wait` ends, if they fail. -/
structure Surroundings where
  stats : Except String Bytes := .ok []
  snapshot : Except String Bytes := .ok []
  log : Option String := none

namespace LocalEngine

/-- The checks before a mutation (commands.go lines 48–53 and the like). -/
def writable (e : LocalEngine) : Option EngineError :=
  if e.closed then some .closed else if e.readOnly then some .readOnly else none

/-- What `mutate` returns for a change that was applied (lines 142–162). The store keeps the change
    when the log fails. -/
def logged (env : Surroundings) (ok : Bool) : Except EngineError Bool :=
  match env.log with
  | none => .ok ok
  | some text => .error (.other text)

/-- The commands of the engine at fixed clock readings. -/
def backend (nowMs nowMono : UInt64) (env : Surroundings) : Backend LocalEngine where
  get e key :=
    let ((v, reap), s) := e.store.getRead key nowMs nowMono
    (v, { e with store := if reap then s.reap key nowMs else s })
  set e key value ttlMillis :=
    match e.writable with
    | some err => (some err, e)
    | none =>
      let (ok, s) := e.store.set key value (Engine.deadline ttlMillis nowMs) nowMono
      (if ok then env.log.map .other else some .oom, { e with store := s })
  delete e key :=
    match e.writable with
    | some err => (.error err, e)
    | none =>
      let (ok, s) := e.store.delete key nowMs
      (logged env ok, { e with store := s })
  exists_ e key :=
    let ((b, reap), s) := e.store.existsRead key nowMs nowMono
    (b, { e with store := if reap then s.reap key nowMs else s })
  expire e key ttlMillis :=
    match e.writable with
    | some err => (.error err, e)
    | none =>
      let (ok, s) := e.store.expire key (Engine.deadline ttlMillis nowMs) nowMs
      (logged env ok, { e with store := s })
  ttl e key :=
    let ((ms, reap), s) := e.store.ttlRead key nowMs nowMono
    (ms, { e with store := if reap then s.reap key nowMs else s })
  keys e pre limit := (e.store.keys pre limit nowMs, e)
  statsJSON _ := env.stats
  flush e :=
    if e.readOnly then (some .readOnly, e)
    else
      (match env.snapshot with
        | .ok _ => none
        | .error text => some (.other text), { e with store := e.store.flush })
  snapshot e := (env.snapshot, e)
  readOnly e := e.readOnly
  promote e :=
    if e.readOnly then (.ok (e.epoch + 1), { e with readOnly := false, epoch := e.epoch + 1 })
    else (.error "cluster: node is already a primary", e)

end LocalEngine

end KvStore
