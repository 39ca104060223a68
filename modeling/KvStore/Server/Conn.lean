import KvStore.Common.Run
import KvStore.Server.Dispatch

/-!
# A connection

Model of the read loop of a connection in goroutine mode (`internal/server/conn.go` lines 61–171)
with the replication hook of the cluster layer (`internal/cluster/primary.go` lines 30–94): a
frame is read, handed to the hook or executed, and its response is written by the hook or queued.
One step of `Conn.step` is one round of the loop; between rounds other connections may change the
engine, and the connection may be shut down. The trace says what happened in which order.

* `fatal_status_closes`: as long as no body fails to decode in a way that `execute` takes for a
  framing failure, a response with the fatal status is sent, and is the last thing that happens
  before the connection is closed.
* `fatal_status_ignored`: otherwise the loop goes on after it, and does not even send it when
  the request asked for no reply.
* `one_response_each`: without REPLACK, the responses answer the requests one by one.
* `replAck_unanswered`: a REPLACK gets no response.
-/

namespace KvStore

open KvStore.Common

/-! ## The replication hook -/

/-- `writeStatus` (primary.go lines 310–323), unless the text is empty. -/
def writeStatus (f : Frame) (status : Status) (msg : String) : Response := respondErr f status msg

/-- `isReplOpcode` (conn.go lines 276–283). -/
def isReplOpcode (code : UInt8) : Bool :=
  match Opcode.ofCode code with
  | some .replConf | some .sync | some .replAck | some .promote => true
  | _ => false

/-- `HandleConn` and the handlers it calls (primary.go lines 32–94 and 325–332): the responses that
    are written, and whether the connection is taken over. -/
def handleConn {ε : Type} (B : Backend ε) (f : Frame) (e : ε) : List Response × Bool × ε :=
  match Opcode.ofCode f.header.code with
  | some .replConf =>
    match decodeCommand f.header.code f.body with
    | .error err => ([writeStatus f .badRequest err.text], false, e)
    | .ok _ => ([respond f .ok []], false, e)
  | some .sync =>
    match decodeCommand f.header.code f.body with
    | .error err => ([writeStatus f .badRequest err.text], false, e)
    | .ok _ =>
      if B.readOnly e then
        ([writeStatus f .notLeader "this node is a replica, not a primary"], false, e)
      else ([respond f .ok []], true, e)
  | some .promote =>
    match B.promote e with
    | (.error msg, e) => ([writeStatus f .badRequest msg], false, e)
    | (.ok epoch, e) =>
      ([writeStatus f .ok ("promoted to primary at epoch " ++ toString epoch.toNat)], false, e)
  | _ => ([], false, e)

/-! ## The read loop -/

/-- What happens on a connection; `response r sent` is a response that was produced, and whether
    it went to the client. -/
inductive ConnEvent
  | request (f : Frame)
  | executed (f : Frame)
  | response (r : Response) (sent : Bool)
  | hijacked
  | closed
  deriving DecidableEq

/-- Whether the read loop is still running. -/
inductive ConnStatus
  | serving
  | hijacked
  | closed
  deriving DecidableEq

/-- What a connection reads of its server: the source of its bytes, and the settings. -/
structure Server (ε σ : Type) where
  backend : Backend ε
  reader : Reader σ
  maxFrame : ℕ
  maxValueLen : ℕ
  replHandler : Bool

/-- `conn` and the local variables of `serve`, with the engine and the trace. -/
structure Conn (ε σ : Type) where
  src : σ
  scratch : Bytes
  engine : ε
  status : ConnStatus
  trace : List ConnEvent

/-- One round of the loop, whose response finds room in the output queue or not; what others do to
    the engine; or the end of the connection by a shutdown, a timeout or an I/O error. -/
inductive ConnAction (ε : Type)
  | next (room : Bool)
  | others (e : ε)
  | shutdown

namespace Conn

variable {ε σ : Type}

/-- A connection that has just been accepted. -/
def init (src : σ) (e : ε) : Conn ε σ :=
  { src, scratch := [], engine := e, status := .serving, trace := [] }

/-- Add to the trace. -/
def log (c : Conn ε σ) (evs : List ConnEvent) : Conn ε σ := { c with trace := c.trace ++ evs }

/-- `close` (lines 259–267). -/
def close (c : Conn ε σ) : Conn ε σ :=
  { c with status := .closed, trace := c.trace ++ [.closed] }

/-- `handleReadError` (lines 133–171). -/
def handleReadError (c : Conn ε σ) (err : FrameError) (f : Frame) : Conn ε σ :=
  match err with
  | .codec err =>
    if err.isProtocol then
      (c.log [.response (respondErr f .protocolError err.text) true]).close
    else c.close
  | .io _ => c.close

/-- The round of the loop after a frame that the hook takes (lines 107–116). -/
def serveRepl (S : Server ε σ) (c : Conn ε σ) (f : Frame) : Conn ε σ :=
  let (rs, hijacked, e) := handleConn S.backend f c.engine
  let c := { c with engine := e }.log (rs.map fun r => .response r true)
  if hijacked then { c with status := .hijacked }.log [.hijacked] else c

/-- The round of the loop after any other frame (lines 118–128). -/
def serveExecute (S : Server ε σ) (c : Conn ε σ) (f : Frame) (room : Bool) : Conn ε σ :=
  let (r, e) := execute S.backend S.maxValueLen S.replHandler f c.engine
  let c := { c with engine := e }.log [.executed f]
  if f.noReply then c.log [.response r false]
  else if room then c.log [.response r true]
  else (c.log [.response r false]).close

/-- The call of `ReadFrame` of a round (line 93). -/
def readNext (S : Server ε σ) (c : Conn ε σ) : FrameRead σ :=
  readFrame S.reader c.src [] c.scratch S.maxFrame

/-- The round after a frame that was read (lines 99–128). -/
def serveFrame (S : Server ε σ) (c : Conn ε σ) (f : Frame) (room : Bool) : Conn ε σ :=
  let c := c.log [.request f]
  if isReplOpcode f.header.code ∧ S.replHandler then c.serveRepl S f
  else c.serveExecute S f room

/-- The connection after a read. -/
def advance (c : Conn ε σ) (r : FrameRead σ) : Conn ε σ :=
  { c with src := r.src, scratch := r.buf }

/-- One round of the loop (lines 84–129). -/
def next (S : Server ε σ) (c : Conn ε σ) (room : Bool) : Conn ε σ :=
  let r := c.readNext S
  match r.err with
  | some err => (c.advance r).handleReadError err r.frame
  | none => (c.advance r).serveFrame S r.frame room

/-- One action, while the loop is running. -/
def step (S : Server ε σ) (c : Conn ε σ) : ConnAction ε → Option (Conn ε σ)
  | .next room => if c.status = .serving then some (c.next S room) else none
  | .others e => some { c with engine := e }
  | .shutdown => if c.status = .serving then some c.close else none

end Conn

/-! ## What a round adds to the trace -/

section

variable {ε : Type} {B : Backend ε} {f : Frame} {e : ε}

/-- The hook's responses carry the id of the request, and never the fatal status. -/
theorem handleConn_answers : ∀ r ∈ (handleConn B f e).1, r.Answers f := by
  unfold handleConn
  split
  · split <;> exact List.forall_mem_singleton.mpr (answers_respond (by decide) _)
  · split
    · exact List.forall_mem_singleton.mpr (answers_respond (by decide) _)
    · split_ifs <;> exact List.forall_mem_singleton.mpr (answers_respond (by decide) _)
  · split <;> exact List.forall_mem_singleton.mpr (answers_respond (by decide) _)
  · exact fun r hr => absurd hr List.not_mem_nil

/-- Except for REPLACK, the hook answers what it is given. -/
theorem handleConn_length (hrepl : isReplOpcode f.header.code = true)
    (hack : f.header.code ≠ Opcode.replAck.code) : (handleConn B f e).1.length = 1 := by
  unfold handleConn
  split
  · split <;> rfl
  · split
    · rfl
    · split_ifs <;> rfl
  · split <;> rfl
  · rename_i h1 h2 h3
    unfold isReplOpcode at hrepl
    split at hrepl
    · exact absurd ‹_› h1
    · exact absurd ‹_› h2
    · rename_i hop
      exact absurd (Opcode.code_of_ofCode hop).symm hack
    · exact absurd ‹_› h3
    · cases hrepl

end

/-- A response with the fatal status. -/
def ConnEvent.Fatal : ConnEvent → Prop
  | .response r _ => r.status = .protocolError
  | _ => False

namespace Conn

variable {ε σ : Type} {S : Server ε σ} {c : Conn ε σ} {f : Frame} {room : Bool}

theorem next_of_error {err : FrameError} (h : (c.readNext S).err = some err) :
    c.next S room = (c.advance (c.readNext S)).handleReadError err (c.readNext S).frame := by
  unfold next
  dsimp only
  rw [h]

theorem next_of_frame (h : (c.readNext S).err = none) :
    c.next S room = (c.advance (c.readNext S)).serveFrame S (c.readNext S).frame room := by
  unfold next
  dsimp only
  rw [h]

/-- What a frame that the hook takes adds to the trace. -/
theorem serveRepl_trace : ∃ last, (last = [] ∨ last = [.hijacked]) ∧
    (c.serveRepl S f).trace = c.trace ++
      ((handleConn S.backend f c.engine).1.map fun r => .response r true) ++ last := by
  unfold serveRepl
  dsimp only
  split_ifs
  · exact ⟨[.hijacked], .inr rfl, rfl⟩
  · exact ⟨[], .inl rfl, (List.append_nil _).symm⟩

variable (S c f room) in
/-- What a frame that is executed adds to the trace. -/
theorem serveExecute_trace : ∃ sent last, (last = [] ∨ last = [.closed]) ∧
    (c.serveExecute S f room).trace = c.trace ++ [.executed f, .response
      (execute S.backend S.maxValueLen S.replHandler f c.engine).1 sent] ++ last := by
  unfold serveExecute
  dsimp only
  split_ifs
  · exact ⟨false, [], .inl rfl, by simp [log]⟩
  · exact ⟨true, [], .inl rfl, by simp [log]⟩
  · exact ⟨false, [.closed], .inr rfl, by simp [log, close]⟩

/-! ## The fatal status -/

/-- The body of the next frame, if it goes to `execute`, does not fail to decode in a way that
    `execute` takes for a framing failure. -/
def NextDecodes (S : Server ε σ) (c : Conn ε σ) : Prop :=
  (c.readNext S).err = none →
    ¬ (isReplOpcode (c.readNext S).frame.header.code ∧ S.replHandler) →
      ∀ err, decodeCommand (c.readNext S).frame.header.code (c.readNext S).frame.body = .error err →
        err.isFraming = false

/-- The condition of a step: a round only begins when the body of the next frame decodes. -/
def Framed (S : Server ε σ) (c : Conn ε σ) : ConnAction ε → Prop
  | .next _ => c.NextDecodes S
  | _ => True

/-- No response had the fatal status. -/
def Sound (c : Conn ε σ) : Prop := ∀ ev ∈ c.trace, ¬ ev.Fatal

/-- One response had it, was sent, and the connection was closed at once. -/
def Ended (c : Conn ε σ) : Prop :=
  c.status = .closed ∧ ∃ before r, (∀ ev ∈ before, ¬ ConnEvent.Fatal ev) ∧
    c.trace = before ++ [.response r true, .closed]

/-- One of the two. -/
def Settled (c : Conn ε σ) : Prop := c.Sound ∨ c.Ended

theorem Sound.of_append (h : c.Sound) {c' : Conn ε σ} {evs : List ConnEvent}
    (htrace : c'.trace = c.trace ++ evs) (hevs : ∀ ev ∈ evs, ¬ ev.Fatal) : c'.Sound := by
  intro ev hev
  rw [htrace] at hev
  exact (List.mem_append.mp hev).elim (h ev) (hevs ev)

theorem Sound.handleReadError (h : c.Sound) (err : FrameError) (f : Frame) :
    (c.handleReadError err f).Settled := by
  have hclose : c.close.Sound := h.of_append rfl (by simp [ConnEvent.Fatal])
  cases err with
  | io e => exact .inl hclose
  | codec err =>
    unfold Conn.handleReadError
    dsimp only
    split_ifs
    · exact .inr ⟨rfl, c.trace, respondErr f .protocolError err.text, h, by simp [close, log]⟩
    · exact .inl hclose

theorem Sound.serveRepl (h : c.Sound) : (c.serveRepl S f).Sound := by
  obtain ⟨last, hlast, htrace⟩ := serveRepl_trace (S := S) (c := c) (f := f)
  rw [List.append_assoc] at htrace
  refine h.of_append htrace fun ev hev => ?_
  rcases List.mem_append.mp hev with hev | hev
  · obtain ⟨r, hr, rfl⟩ := List.mem_map.mp hev
    exact (handleConn_answers r hr).notFatal
  · rcases hlast with rfl | rfl
    · cases hev
    · cases List.mem_singleton.mp hev
      exact id

theorem Sound.serveExecute (h : c.Sound)
    (hdecode : ∀ err, decodeCommand f.header.code f.body = .error err → err.isFraming = false) :
    (c.serveExecute S f room).Sound := by
  obtain ⟨sent, last, hlast, htrace⟩ := serveExecute_trace S c f room
  rw [List.append_assoc] at htrace
  refine h.of_append htrace fun ev hev => ?_
  rcases List.mem_append.mp hev with hev | hev
  · rcases List.mem_pair.mp hev with rfl | rfl
    · exact id
    · intro hfatal
      obtain ⟨err, herr, hframing⟩ := execute_protocolError hfatal
      rw [hdecode err herr] at hframing
      cases hframing
  · rcases hlast with rfl | rfl
    · cases hev
    · cases List.mem_singleton.mp hev
      exact id

theorem Sound.next (h : c.Sound) (hdecode : c.NextDecodes S) : (c.next S room).Settled := by
  cases herr : (c.readNext S).err with
  | some err =>
    rw [next_of_error herr]
    have hadvance : (c.advance (c.readNext S)).Sound := h
    exact hadvance.handleReadError err _
  | none =>
    rw [next_of_frame herr]
    have hlog : ((c.advance (c.readNext S)).log [.request (c.readNext S).frame]).Sound :=
      h.of_append rfl (by simp [ConnEvent.Fatal])
    left
    unfold serveFrame
    dsimp only
    split_ifs with hrepl
    · exact Sound.serveRepl hlog
    · exact Sound.serveExecute hlog (hdecode herr hrepl)

theorem Settled.step {c' : Conn ε σ} {a : ConnAction ε} (h : c.Settled) (ha : c.Framed S a)
    (hstep : c.step S a = some c') : c'.Settled := by
  cases a with
  | next room =>
    obtain ⟨hserving, hnext⟩ := Option.ite_none_right_eq_some.mp hstep
    cases hnext
    rcases h with h | h
    · exact Sound.next h ha
    · rw [h.1] at hserving
      cases hserving
  | others e =>
    cases hstep
    exact h
  | shutdown =>
    obtain ⟨hserving, hnext⟩ := Option.ite_none_right_eq_some.mp hstep
    cases hnext
    rcases h with h | h
    · exact .inl (h.of_append rfl (by simp [ConnEvent.Fatal]))
    · rw [h.1] at hserving
      cases hserving

end Conn

/-- As long as no body that goes to `execute` fails to decode in a way it takes for a framing
    failure, a response with the fatal status has been sent, whatever the flags of the request;
    nothing was executed after it, and the connection is closed. -/
theorem fatal_status_closes {ε σ : Type} {S : Server ε σ} {src : σ} {e : ε} {c : Conn ε σ}
    (h : Run (Conn.step S) (fun c a => c.Framed S a) (Conn.init src e) c) {r : Response}
    {sent : Bool} (hr : .response r sent ∈ c.trace) (hfatal : r.status.fatal = true) :
    sent = true ∧ c.status = .closed ∧ ∃ before, c.trace = before ++ [.response r true, .closed] := by
  have hfatal : r.status = .protocolError := of_decide_eq_true hfatal
  have hinit : (Conn.init src e : Conn ε σ).Settled := .inl fun ev hev => by cases hev
  have hinv : c.Settled := h.invariant (fun _ _ _ hc ha hs => Conn.Settled.step hc ha hs) hinit
  rcases hinv with hsound | ⟨hclosed, before, r', hbefore, htrace⟩
  · exact absurd hfatal (hsound _ hr)
  · rw [htrace] at hr
    rcases List.mem_append.mp hr with hr | hr
    · exact absurd hfatal (hbefore _ hr)
    · obtain ⟨rfl, rfl⟩ : r = r' ∧ sent = true := by simpa using hr
      exact ⟨rfl, hclosed, before, htrace⟩

/-- A server on the store, with the cluster handler installed. -/
def storeServer : Server LocalEngine (Bytes × Chunks) where
  backend := LocalEngine.backend 1000 1000 {}
  reader := Chunks.reader.buffered (64 * 2 ^ 10)
  maxFrame := maxFrameLen
  maxValueLen := maxValueLen
  replHandler := true

/-- What a client sends in one piece. -/
def sends (b : Bytes) (hb : b ≠ []) : Bytes × Chunks :=
  ([], ⟨[b], fun _ hc => List.mem_singleton.mp hc ▸ hb⟩)

/-- Garbage where a header should be: the fatal status is sent and the connection closed. -/
theorem fatal_status_closes_garbage :
    ∃ c : Conn LocalEngine (Bytes × Chunks),
      Run (Conn.step storeServer) (fun c a => c.Framed storeServer a)
        (Conn.init (sends (List.replicate 16 0) (by decide)) { store := newStore oneShard 1 }) c ∧
      c.status = .closed ∧ ∃ before r, r.status = .protocolError ∧
        c.trace = before ++ [.response r true, .closed] := by
  let init : Conn LocalEngine (Bytes × Chunks) :=
    Conn.init (sends (List.replicate 16 0) (by decide)) { store := newStore oneShard 1 }
  have hframed : init.Framed storeServer (.next true) := by
    intro hnone
    exact absurd hnone (by decide +kernel)
  have hrun : Run (Conn.step storeServer) (fun c a => c.Framed storeServer a) init
      (init.next storeServer true) := Run.refl.tail _ hframed rfl
  have hlast : ∃ r sent, .response r sent ∈ (init.next storeServer true).trace ∧
      r.status.fatal = true := by
    refine ⟨_, _, List.mem_of_getElem? (i := 0) rfl, ?_⟩
    decide +kernel
  obtain ⟨r, sent, hr, hfatal⟩ := hlast
  obtain ⟨-, hclosed, before, htrace⟩ := fatal_status_closes hrun hr hfatal
  exact ⟨_, hrun, hclosed, before, r, of_decide_eq_true hfatal, htrace⟩

/-- A GET whose body is missing, and which asks for no reply. -/
def brokenGet : Header × Bytes :=
  ({ version := 1, code := Opcode.get.code, flags := flagNoReply, requestID := 1 }, [])

/-- A SET of the key 1 to the value 2. -/
def plainSet : Header × Bytes :=
  ({ version := 1, code := Opcode.set.code, requestID := 2 },
    encodeCommand [] { op := .set, key := [1], value := [2] })

/-- A response with the fatal status that was not sent. -/
def ConnEvent.isUnsentFatal : ConnEvent → Bool
  | .response r false => r.status.fatal
  | _ => false

theorem ConnEvent.eq_of_isUnsentFatal {ev : ConnEvent} (h : ev.isUnsentFatal = true) :
    ∃ r, ev = .response r false ∧ r.status.fatal = true := by
  unfold isUnsentFatal at h
  split at h
  · exact ⟨_, rfl, h⟩
  · cases h

/-- The GET gets the fatal status, which is not sent; the SET behind it is executed, and the
    connection stays open. -/
theorem fatal_status_ignored :
    ∃ c : Conn LocalEngine (Bytes × Chunks),
      Run (Conn.step storeServer) Always
        (Conn.init (sends (stream [brokenGet, plainSet]) (by decide))
          { store := newStore oneShard 1 }) c ∧
      c.status = .serving ∧ c.engine.store.contents [1] = some ([2], 0) ∧
      ∃ before r after, c.trace = before ++ .response r false :: after ∧
        r.status.fatal = true ∧ .executed (sentFrame plainSet) ∈ after := by
  obtain ⟨c, hrun, hstatus, hstore, hfatal, hafter⟩ := Run.exists_of_exec (Conn.step storeServer)
    (Conn.init (sends (stream [brokenGet, plainSet]) (by decide)) { store := newStore oneShard 1 })
    [.next true, .next true]
    (fun c => c.status = .serving ∧ c.engine.store.contents [1] = some ([2], 0) ∧
      (c.trace[2]?.any ConnEvent.isUnsentFatal) = true ∧
      .executed (sentFrame plainSet) ∈ c.trace.drop 3)
    (by decide +kernel)
  obtain ⟨ev, hev, hun⟩ := (Option.any_eq_true _ _).mp hfatal
  obtain ⟨r, rfl, hr⟩ := ConnEvent.eq_of_isUnsentFatal hun
  refine ⟨c, hrun, hstatus, hstore, c.trace.take 2, r, c.trace.drop 3, ?_, hr, hafter⟩
  obtain ⟨hlt, heq⟩ := List.getElem?_eq_some_iff.mp hev
  rw [← heq, ← List.drop_eq_getElem_cons hlt, List.take_append_drop]

/-! ## One response for each request -/

/-- The requests that were read, in order. -/
def requests (trace : List ConnEvent) : List Frame :=
  trace.filterMap fun
    | .request f => some f
    | _ => none

/-- The responses that went to the client, in order. -/
def responses (trace : List ConnEvent) : List Response :=
  trace.filterMap fun
    | .response r true => some r
    | _ => none

theorem requests_append (t t' : List ConnEvent) : requests (t ++ t') = requests t ++ requests t' :=
  List.filterMap_append

theorem responses_append (t t' : List ConnEvent) :
    responses (t ++ t') = responses t ++ responses t' := List.filterMap_append

namespace Conn

variable {ε σ : Type} {S : Server ε σ} {c : Conn ε σ} {f : Frame} {room : Bool}

/-- While the connection is served, the first `k` frames of `fs` have been read and answered, in
    order, and the others are still to come. -/
def Answered (S : Server ε σ) (fs : List (Header × Bytes)) (c : Conn ε σ) : Prop :=
  c.status = .serving → ∃ k,
    requests c.trace = (fs.take k).map sentFrame ∧
    (responses c.trace).map Response.requestID =
      (requests c.trace).map (fun f => f.header.requestID) ∧
    S.reader.content c.src = stream (fs.drop k)

/-- Serving a frame leaves the source alone. -/
theorem serveFrame_src : (c.serveFrame S f room).src = c.src := by
  unfold serveFrame serveRepl serveExecute
  dsimp only
  split_ifs <;> rfl

theorem serveRepl_answers (hrepl : isReplOpcode f.header.code = true)
    (hack : f.header.code ≠ Opcode.replAck.code) (hserving : (c.serveRepl S f).status = .serving) :
    ∃ r : Response, r.requestID = f.header.requestID ∧
      (c.serveRepl S f).trace = c.trace ++ [.response r true] := by
  obtain ⟨r, hr⟩ :=
    List.length_eq_one_iff.mp (handleConn_length (B := S.backend) (e := c.engine) hrepl hack)
  have hanswers := handleConn_answers (B := S.backend) (f := f) (e := c.engine) r (by rw [hr]; simp)
  refine ⟨r, hanswers.requestID, ?_⟩
  unfold serveRepl at hserving ⊢
  dsimp only at hserving ⊢
  split_ifs at hserving ⊢
  · cases hserving
  · rw [hr]
    rfl

theorem serveExecute_answers (hreply : f.noReply = false)
    (hserving : (c.serveExecute S f room).status = .serving) :
    ∃ r : Response, r.requestID = f.header.requestID ∧
      (c.serveExecute S f room).trace = c.trace ++ [.executed f, .response r true] := by
  refine ⟨_, execute_requestID S.backend S.maxValueLen S.replHandler c.engine, ?_⟩
  have hreply : ¬ f.noReply = true := by rw [hreply]; decide
  unfold serveExecute at hserving ⊢
  dsimp only at hserving ⊢
  rw [if_neg hreply] at hserving ⊢
  cases room with
  | true => simp [log]
  | false => cases hserving

/-- A frame that leaves the connection open is answered once, by the hook or by `execute`. -/
theorem serveFrame_answers (hreply : f.noReply = false)
    (hack : f.header.code ≠ Opcode.replAck.code)
    (hserving : (c.serveFrame S f room).status = .serving) :
    ∃ r : Response, r.requestID = f.header.requestID ∧
      requests (c.serveFrame S f room).trace = requests c.trace ++ [f] ∧
      responses (c.serveFrame S f room).trace = responses c.trace ++ [r] := by
  unfold serveFrame at hserving ⊢
  dsimp only at hserving ⊢
  split_ifs at hserving ⊢ with hrepl
  · obtain ⟨r, hid, htrace⟩ := serveRepl_answers hrepl.1 hack hserving
    refine ⟨r, hid, ?_, ?_⟩
    · rw [htrace, log, requests_append, requests_append]
      exact List.append_nil _
    · rw [htrace, log, responses_append, responses_append]
      exact congrArg (· ++ [r]) (List.append_nil _)
  · obtain ⟨r, hid, htrace⟩ := serveExecute_answers hreply hserving
    refine ⟨r, hid, ?_, ?_⟩
    · rw [htrace, log, requests_append, requests_append]
      exact List.append_nil _
    · rw [htrace, log, responses_append, responses_append]
      exact congrArg (· ++ [r]) (List.append_nil _)

/-- The requests a client may send here: complete, with a reply asked for, and not REPLACK. -/
structure Asks (S : Server ε σ) (x : Header × Bytes) : Prop where
  sendable : Sendable S.maxFrame x
  reply : (sentFrame x).noReply = false
  notAck : x.1.code ≠ Opcode.replAck.code

theorem handleReadError_status (err : FrameError) :
    (c.handleReadError err f).status = .closed := by
  cases err with
  | io e => rfl
  | codec e =>
    unfold handleReadError
    dsimp only
    split_ifs <;> rfl

theorem Answered.next {fs : List (Header × Bytes)} (hfs : ∀ x ∈ fs, Asks S x)
    (h : c.Answered S fs) (hserving : c.status = .serving) :
    (c.next S room).Answered S fs := by
  intro hstill
  obtain ⟨k, hreq, hresp, hcont⟩ := h hserving
  cases herr : (c.readNext S).err with
  | some err =>
    rw [next_of_error herr, handleReadError_status] at hstill
    cases hstill
  | none =>
    rw [next_of_frame herr] at hstill ⊢
    cases hdrop : fs.drop k with
    | nil =>
      -- nothing is left to read
      rw [hdrop] at hcont
      have hshort := readFrame_short S.reader S.maxFrame c.src [] c.scratch
        (by rw [hcont]; decide)
      rw [readNext] at herr
      rw [herr] at hshort
      cases hshort
    | cons x rest =>
      have hx : Asks S x := hfs x (List.mem_of_mem_drop (hdrop ▸ List.mem_cons_self))
      rw [hdrop, stream_cons] at hcont
      obtain ⟨-, hframe, hrest⟩ := readFrame_whole S.reader [] c.scratch hx.sendable hcont
      have hframe : (c.readNext S).frame = sentFrame x := hframe
      rw [hframe] at hstill ⊢
      obtain ⟨r, hid, hreq', hresp'⟩ := serveFrame_answers hx.reply hx.notAck hstill
      have hlt : k < fs.length := by
        by_contra hge
        rw [List.drop_eq_nil_of_le (by omega)] at hdrop
        cases hdrop
      obtain ⟨hget, hdrop'⟩ : fs[k] = x ∧ fs.drop (k + 1) = rest := by
        rw [List.drop_eq_getElem_cons hlt] at hdrop
        exact List.cons.inj hdrop
      refine ⟨k + 1, ?_, ?_, ?_⟩
      · rw [hreq', List.take_succ_eq_append_getElem hlt, List.map_append, hget]
        exact congrArg (· ++ [sentFrame x]) hreq
      · rw [hreq', hresp', List.map_append, List.map_append]
        exact congrArg₂ (· ++ ·) hresp (congrArg (fun n => [n]) hid)
      · rw [serveFrame_src, hdrop']
        exact hrest

theorem Answered.step {fs : List (Header × Bytes)} (hfs : ∀ x ∈ fs, Asks S x) {c' : Conn ε σ}
    {a : ConnAction ε} (h : c.Answered S fs) (hstep : c.step S a = some c') :
    c'.Answered S fs := by
  cases a with
  | next room =>
    obtain ⟨hserving, hnext⟩ := Option.ite_none_right_eq_some.mp hstep
    cases hnext
    exact h.next hfs hserving
  | others e =>
    cases hstep
    exact h
  | shutdown =>
    obtain ⟨-, hnext⟩ := Option.ite_none_right_eq_some.mp hstep
    cases hnext
    exact fun hserving => by cases hserving

end Conn

/-- On a connection that is still served, with the cluster handler installed or not, every request
    that was read has been answered once, in order, as long as none of them is a REPLACK. -/
theorem one_response_each {ε σ : Type} {S : Server ε σ} {fs : List (Header × Bytes)}
    (hfs : ∀ x ∈ fs, Sendable S.maxFrame x) (hreply : ∀ x ∈ fs, (sentFrame x).noReply = false)
    (hack : ∀ x ∈ fs, x.1.code ≠ Opcode.replAck.code) {src : σ}
    (hsrc : S.reader.content src = stream fs) {e : ε} {c : Conn ε σ}
    (h : Run (Conn.step S) Always (Conn.init src e) c) (hserving : c.status = .serving) :
    (∃ k, requests c.trace = (fs.take k).map sentFrame) ∧
      (responses c.trace).map Response.requestID =
        (requests c.trace).map fun f => f.header.requestID := by
  have hasks : ∀ x ∈ fs, Conn.Asks S x := fun x hx => ⟨hfs x hx, hreply x hx, hack x hx⟩
  have hinit : (Conn.init src e : Conn ε σ).Answered S fs := fun _ => ⟨0, rfl, rfl, hsrc⟩
  obtain ⟨k, hreq, hresp, -⟩ :=
    h.invariant (fun _ _ _ hc _ hs => hc.step hasks hs) hinit hserving
  exact ⟨⟨k, hreq⟩, hresp⟩

/-- A PING and a REPLCONF. -/
def pingAndReplConf : List (Header × Bytes) :=
  [({ version := 1, code := Opcode.ping.code, requestID := 7 }, []),
   ({ version := 1, code := Opcode.replConf.code, requestID := 8 },
    encodeCommand [] { op := .replConf, nodeID := [5] })]

/-- The first one is answered by `execute`, the second one by the hook. -/
theorem one_response_each_two :
    ∃ c : Conn LocalEngine (Bytes × Chunks),
      Run (Conn.step storeServer) Always
        (Conn.init (sends (stream pingAndReplConf) (by decide)) { store := newStore oneShard 1 }) c ∧
      c.status = .serving ∧ (requests c.trace).map (fun f => f.header.requestID) = [7, 8] ∧
        (responses c.trace).map Response.requestID = [7, 8] := by
  obtain ⟨c, hrun, hserving, hreq⟩ := Run.exists_of_exec (Conn.step storeServer)
    (Conn.init (sends (stream pingAndReplConf) (by decide)) { store := newStore oneShard 1 })
    [.next true, .next true]
    (fun c => c.status = .serving ∧
      (requests c.trace).map (fun f => f.header.requestID) = [7, 8]) (by decide +kernel)
  have hfs : ∀ x ∈ pingAndReplConf, Sendable storeServer.maxFrame x := by
    intro x hx
    rcases List.mem_pair.mp hx with rfl | rfl
    · exact ⟨rfl, by decide, rfl, by decide⟩
    · exact ⟨rfl, by decide, rfl, by decide⟩
  have hboth := one_response_each (S := storeServer) hfs (by decide) (by decide) (by decide)
    hrun hserving
  exact ⟨c, hrun, hserving, hreq, hboth.2.trans hreq⟩

/-- A REPLACK is neither answered by the hook nor handed to `execute`. -/
theorem replAck_unanswered :
    ∃ c : Conn LocalEngine (Bytes × Chunks),
      Run (Conn.step storeServer) Always
        (Conn.init (sends (stream [({ version := 1, code := Opcode.replAck.code, requestID := 7 },
            encodeCommand [] { op := .replAck, fromLSN := 3 })]) (by decide))
          { store := newStore oneShard 1 }) c ∧
      c.status = .serving ∧ (requests c.trace).map (fun f => f.header.requestID) = [7] ∧
      responses c.trace = [] := by
  exact Run.exists_of_exec (Conn.step storeServer) _ [.next true]
    (fun c => c.status = .serving ∧ (requests c.trace).map (fun f => f.header.requestID) = [7] ∧
      responses c.trace = []) (by decide +kernel)

end KvStore
