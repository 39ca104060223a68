import KvStore.Config.Config
import KvStore.Server.Conn
import KvStore.Store.Inherit

/-!
# Reading back what was written

`execute` takes a SET of a value up to `MaxValueLen`. The response to a GET goes through `enqueue`
(`internal/server/conn.go` lines 181–202), which refuses it when the output queue would hold more
than `OutputBufferLimit` bytes; the connection is then closed. `Validate` does not compare the two
limits.

* `accepted_value_sent`: a value that is still there is sent to whoever asks for it, if and only if
  it leaves room for the header of its response, whatever happened to the store in between.
* `accepted_value_closes`: with the default configuration, a GET of a value of 1 MiB closes the
  connection.
-/

namespace KvStore

open KvStore.Common

/-! ## The output queue -/

/-- `out` and `outSize` of a connection, and what the writer goroutine has written. -/
structure Outbox where
  out : List Bytes
  outSize : ℤ
  sent : List Bytes

/-- The capacity of `out` (line 55). -/
def outCap : ℕ := 64

namespace Outbox

/-- `enqueue` (lines 181–202) while the connection is open; `none` is `errOutputBufferFull`. -/
def enqueue (limit : ℤ) (q : Outbox) (resp : Bytes) : Option Outbox :=
  if q.outSize + resp.length > limit then none
  else if q.out.length < outCap then
    some { q with out := q.out ++ [resp], outSize := q.outSize + resp.length }
  else none

/-- `writeLoop` (lines 204–257) takes the next response and writes it. -/
def writeNext (q : Outbox) : Outbox :=
  match q.out with
  | [] => q
  | b :: rest => { out := rest, outSize := q.outSize - b.length, sent := q.sent ++ [b] }

end Outbox

/-- A round of `serve` for a frame that is executed (lines 118–128), with its output queue. -/
def Conn.serveQueued {ε σ : Type} (S : Server ε σ) (limit : ℤ) (c : Conn ε σ) (q : Outbox)
    (f : Frame) : Conn ε σ × Outbox :=
  if f.noReply then (c.serveExecute S f true, q)
  else
    match q.enqueue limit (execute S.backend S.maxValueLen S.replHandler f c.engine).1.bytes with
    | some q => (c.serveExecute S f true, q)
    | none => (c.serveExecute S f false, q)

/-- The server of a configuration (server.go lines 69–96), at given clock readings. -/
def localServer {σ : Type} (cfg : Config) (reader : Reader σ) (replHandler : Bool)
    (nowMs nowMono : UInt64) (env : Surroundings) : Server LocalEngine σ where
  backend := LocalEngine.backend nowMs nowMono env
  reader := reader
  maxFrame := min (cfg.maxValueLen.toNat + Protocol.maxKeyLen + 64) maxFrameLen
  maxValueLen := cfg.maxValueLen.toNat
  replHandler := replHandler

/-! ## What SET and GET do -/

/-- The bytes of a response beside the value: the frame header, and the length of the value. -/
def valueOverhead : ℕ := headerLen + 4

theorem length_bytes (r : Response) : r.bytes.length = headerLen + r.body.length := by
  rw [Response.bytes, writeFrame, List.nil_append, List.length_append, length_encodeHeader]

theorem length_encodeValueBody (v : Bytes) : (encodeValueBody v).length = 4 + v.length := by
  rw [encodeValueBody, List.length_append]
  rfl

section

variable {e e' : LocalEngine} {f : Frame} {cmd : Command} {nowMs nowMono : UInt64}
  {env : Surroundings} {maxValueLen : ℕ} {replHandler : Bool}

theorem execute_of_decode {B : Backend LocalEngine}
    (hcmd : decodeCommand f.header.code f.body = .ok cmd) :
    execute B maxValueLen replHandler f e = runCommand B maxValueLen replHandler f cmd e := by
  rw [execute, hcmd]

/-- A SET that is answered with OK has put the value into the store. -/
theorem execute_set_ok {r : Response} (hcmd : decodeCommand f.header.code f.body = .ok cmd)
    (hop : cmd.op = .set)
    (hexec : execute (LocalEngine.backend nowMs nowMono env) maxValueLen replHandler f e =
      (r, e')) (hok : r.status = .ok) :
    cmd.key.length ≠ 0 ∧ ∃ x, (e.store.set cmd.key cmd.value x nowMono) = (true, e'.store) := by
  rw [execute_of_decode hcmd, runCommand, hop] at hexec
  dsimp only at hexec
  unfold withKey at hexec
  split_ifs at hexec with hkey hlen
  · cases hexec
    cases hok
  · cases hexec
    cases hok
  · refine ⟨hkey, Engine.deadline cmd.ttlMillis nowMs, ?_⟩
    dsimp only [LocalEngine.backend] at hexec
    split at hexec
    · rename_i err _
      cases hexec
      cases err <;> cases hok
    · cases hset : e.store.set cmd.key cmd.value (Engine.deadline cmd.ttlMillis nowMs) nowMono with
      | mk ok s =>
        rw [hset] at hexec
        cases ok with
        | true =>
          cases hlog : env.log with
          | none =>
            rw [hlog] at hexec
            cases hexec
            rfl
          | some text =>
            rw [hlog] at hexec
            cases hexec
            cases hok
        | false =>
          cases hexec
          cases hok

/-- A SET of a value that is not too long, on an engine that takes writes, has room and can log. -/
theorem execute_set {s : Store} (hcmd : decodeCommand f.header.code f.body = .ok cmd)
    (hop : cmd.op = .set) (hkey : cmd.key.length ≠ 0) (hvalue : cmd.value.length ≤ maxValueLen)
    (hwritable : e.writable = none)
    (hlog : env.log = none)
    (hset : e.store.set cmd.key cmd.value (Engine.deadline cmd.ttlMillis nowMs) nowMono =
      (true, s)) :
    execute (LocalEngine.backend nowMs nowMono env) maxValueLen replHandler f e =
      (respond f .ok [], { e with store := s }) := by
  rw [execute_of_decode hcmd, runCommand, hop]
  dsimp only
  rw [withKey, if_neg hkey, if_neg (Nat.not_lt.mpr hvalue)]
  dsimp only [LocalEngine.backend]
  rw [hwritable]
  dsimp only
  rw [hset, hlog]
  rfl

/-- The answer to a GET. -/
theorem execute_get (hsound : e.store.Sound) (hcmd : decodeCommand f.header.code f.body = .ok cmd)
    (hop : cmd.op = .get) (hkey : cmd.key.length ≠ 0) :
    (execute (LocalEngine.backend nowMs nowMono env) maxValueLen replHandler f e).1 =
      match liveAt nowMs ((e.store.shards (e.store.shardFor cmd.key)).contents cmd.key) with
      | none => respond f .notFound []
      | some d => respond f .ok (encodeValueBody d.1) := by
  have hread : ((LocalEngine.backend nowMs nowMono env).get e cmd.key).1 = _ :=
    hsound.getRead cmd.key nowMs nowMono
  rw [execute_of_decode hcmd, runCommand, hop]
  dsimp only
  rw [withKey, if_neg hkey]
  generalize (LocalEngine.backend nowMs nowMono env).get e cmd.key = got at hread
  obtain ⟨w, e'⟩ := got
  cases hlive : liveAt nowMs ((e.store.shards (e.store.shardFor cmd.key)).contents cmd.key) with
  | none =>
    rw [hlive] at hread
    cases hread
    rfl
  | some d =>
    rw [hlive] at hread
    cases hread
    rfl

end

/-! ## The connection -/

/-- A response that fits the limit goes to the client, and the connection stays open. -/
theorem serveQueued_of_room {ε σ : Type} {S : Server ε σ} {limit : ℤ} {c : Conn ε σ} {f : Frame}
    {sent : List Bytes} (hserving : c.status = .serving) (hreply : f.noReply = false)
    (hroom : ((execute S.backend S.maxValueLen S.replHandler f c.engine).1.bytes.length : ℤ) ≤
      limit) :
    (c.serveQueued S limit ⟨[], 0, sent⟩ f).1.status = .serving ∧
      (c.serveQueued S limit ⟨[], 0, sent⟩ f).2.writeNext.sent =
        sent ++ [(execute S.backend S.maxValueLen S.replHandler f c.engine).1.bytes] := by
  have hnoReply : ¬ f.noReply = true := by simp [hreply]
  have hlimit : ¬ (0 + ((execute S.backend S.maxValueLen S.replHandler f
      c.engine).1.bytes.length : ℤ) > limit) := by omega
  have hcap : ([] : List Bytes).length < outCap := by decide
  rw [Conn.serveQueued, if_neg hnoReply, Outbox.enqueue, if_neg hlimit, if_pos hcap]
  refine ⟨?_, rfl⟩
  simp only [Conn.serveExecute, hreply]
  exact hserving

/-- A response beyond the limit closes the connection. -/
theorem serveQueued_of_full {ε σ : Type} {S : Server ε σ} {limit : ℤ} {c : Conn ε σ} {f : Frame}
    {q : Outbox} (hreply : f.noReply = false)
    (hfull : limit < q.outSize +
      (execute S.backend S.maxValueLen S.replHandler f c.engine).1.bytes.length) :
    (c.serveQueued S limit q f).1.status = .closed ∧ (c.serveQueued S limit q f).2 = q := by
  have hnoReply : ¬ f.noReply = true := by simp [hreply]
  rw [Conn.serveQueued, if_neg hnoReply, Outbox.enqueue, if_pos hfull]
  refine ⟨?_, rfl⟩
  simp only [Conn.serveExecute, hreply]
  rfl

/-- With nothing to send before it, a response goes out iff it fits the limit. -/
theorem serveQueued_sent_iff {ε σ : Type} {S : Server ε σ} {limit : ℤ} {c : Conn ε σ} {f : Frame}
    {sent : List Bytes} (hserving : c.status = .serving) (hreply : f.noReply = false) :
    ((c.serveQueued S limit ⟨[], 0, sent⟩ f).1.status = .serving ∧
      (c.serveQueued S limit ⟨[], 0, sent⟩ f).2.writeNext.sent =
        sent ++ [(execute S.backend S.maxValueLen S.replHandler f c.engine).1.bytes]) ↔
      ((execute S.backend S.maxValueLen S.replHandler f c.engine).1.bytes.length : ℤ) ≤ limit := by
  refine ⟨fun ⟨hopen, _⟩ => ?_, serveQueued_of_room hserving hreply⟩
  by_contra hfull
  have hclosed := (serveQueued_of_full (q := ⟨[], 0, sent⟩) hreply
    ((not_le.mp hfull).trans_eq (zero_add _).symm)).1
  rw [hopen] at hclosed
  cases hclosed

/-! ## Main results -/

/-- For every configuration and every store that was reached from `New`: a SET was answered with
    OK, and whatever was done to the store then, except for other SETs of the key, a GET of the key
    on a connection with nothing to send is answered with the value or, when it is gone, with not
    found. The answer is sent and the connection stays open, if and only if the value leaves room
    for the rest of the response in the output buffer, or it is gone and the bare response fits. -/
theorem accepted_value_sent {σ : Type} {cfg : Config} {opts : Options} {newSeed : UInt64}
    {wheel : Option Wheel} {reader : Reader σ} {replHandler : Bool} {env env' : Surroundings}
    {nowMs nowMono nowMs' nowMono' : UInt64} {f g : Frame} {cmd cmd' : Command} {r : Response}
    {e e' : LocalEngine} {c : Conn LocalEngine σ} {sent : List Bytes}
    (hreached : Run Store.step Always { newStore opts newSeed with wheel := wheel } e.store)
    (hf : decodeCommand f.header.code f.body = .ok cmd) (hset : cmd.op = .set)
    (hexec : execute (LocalEngine.backend nowMs nowMono env) cfg.maxValueLen.toNat
      replHandler f e = (r, e')) (hok : r.status = .ok)
    (hbetween : Run Store.step (fun _ a => a.sets ≠ some cmd.key) e'.store c.engine.store)
    (hg : decodeCommand g.header.code g.body = .ok cmd') (hget : cmd'.op = .get)
    (hkey : cmd'.key = cmd.key) (hreply : g.noReply = false) (hserving : c.status = .serving) :
    let S := localServer cfg reader replHandler nowMs' nowMono' env'
    let resp := (execute S.backend S.maxValueLen S.replHandler g c.engine).1
    (resp = respond g .notFound [] ∨ resp = respond g .ok (encodeValueBody cmd.value)) ∧
      (((c.serveQueued S cfg.outputBufferLimit ⟨[], 0, sent⟩ g).1.status = .serving ∧
        (c.serveQueued S cfg.outputBufferLimit ⟨[], 0, sent⟩ g).2.writeNext.sent =
          sent ++ [resp.bytes]) ↔
      (((valueOverhead + cmd.value.length : ℕ) : ℤ) ≤ cfg.outputBufferLimit ∨
        liveAt nowMs' (c.engine.store.contents cmd.key) = none ∧
          (headerLen : ℤ) ≤ cfg.outputBufferLimit)) := by
  intro S resp
  obtain ⟨hnonempty, x, hstore⟩ := execute_set_ok hf hset hexec hok
  have hsound : e.store.Sound := (newStore_sound opts newSeed wheel).run hreached
  -- the key has the value that was set, or none
  have hset' := (hsound.set cmd.key cmd.value x nowMono).sound
  rw [hstore] at hset'
  have hinherits := value_inherited hset' hbetween
  have hanswer : resp = _ := execute_get hinherits.sound hg hget (hkey ▸ hnonempty)
  rw [serveQueued_sent_iff hserving hreply]
  show _ ∧ ((resp.bytes.length : ℤ) ≤ _ ↔ _)
  rw [length_bytes, valueOverhead, Store.contents]
  rw [hkey] at hanswer
  cases hlive : liveAt nowMs' ((c.engine.store.shards (c.engine.store.shardFor cmd.key)).contents
      cmd.key) with
  | none =>
    rw [hlive] at hanswer
    rw [hanswer]
    refine ⟨.inl rfl, ?_⟩
    show ((headerLen + 0 : ℕ) : ℤ) ≤ _ ↔ _
    constructor
    · exact fun hle => .inr ⟨rfl, hle⟩
    · rintro (hle | ⟨-, hle⟩) <;> omega
  | some d =>
    obtain ⟨hcontents, -⟩ := liveAt_eq_some.mp hlive
    rw [hinherits.routes] at hcontents
    obtain ⟨x', hx'⟩ := hinherits.values _ _ _ _ rfl hcontents
    rw [hsound.contents_of_set hstore] at hx'
    have hvalue : cmd.value = d.1 := congrArg Prod.fst (Option.some.inj hx')
    rw [hlive] at hanswer
    rw [hanswer, hvalue]
    refine ⟨.inr rfl, ?_⟩
    show ((headerLen + (encodeValueBody d.1).length : ℕ) : ℤ) ≤ _ ↔ _
    rw [length_encodeValueBody, ← Nat.add_assoc]
    constructor
    · exact .inl
    · rintro (hle | ⟨hnone, -⟩)
      · exact hle
      · cases hnone

/-- A command as a client sends it. -/
def commandFrame (cmd : Command) : Frame :=
  sentFrame ({ version := 1, code := cmd.op.code, requestID := 7 }, encodeCommand [] cmd)

/-- SET of one key. -/
def setCommand (v : Bytes) : Command := { op := .set, key := [107], value := v }

/-- GET of the same key. -/
def getCommand : Command := { op := .get, key := [107] }

/-- A new engine, with the number of shards of the default configuration on one CPU. -/
def defaultEngine : LocalEngine := { store := newStore { oneShard with shards := 2 } 1 }

/-- The server with the default configuration. -/
def defaultServer : Server LocalEngine (Bytes × Chunks) :=
  localServer (Config.default 1) storeServer.reader false 0 0 {}

theorem decode_setCommand {v : Bytes} (hv : v.length ≤ maxValueLen) :
    decodeCommand (commandFrame (setCommand v)).header.code (commandFrame (setCommand v)).body =
      .ok (setCommand v) := by
  have hkey : (setCommand v).key.length ≤ Protocol.maxKeyLen :=
    show ([107] : Bytes).length ≤ Protocol.maxKeyLen by decide
  have hfits : (setCommand v).Fits := ⟨hkey, Nat.zero_le _, hv⟩
  exact decodeCommand_encodeCommand hfits

theorem decode_getCommand :
    decodeCommand (commandFrame getCommand).header.code (commandFrame getCommand).body =
      .ok getCommand := by decide

/-- Every value up to 16 MiB is accepted. -/
theorem execute_setCommand {v : Bytes} (hv : v.length ≤ maxValueLen) :
    ∃ e', execute defaultServer.backend defaultServer.maxValueLen false
        (commandFrame (setCommand v)) defaultEngine =
        (respond (commandFrame (setCommand v)) .ok [], e') ∧
      defaultEngine.store.set [107] v 0 0 = (true, e'.store) := by
  have hkey : (setCommand v).key.length ≠ 0 := show ([107] : Bytes).length ≠ 0 by decide
  obtain ⟨s, hset⟩ : ∃ s, defaultEngine.store.set [107] v 0 0 = (true, s) := ⟨_, rfl⟩
  exact ⟨_, execute_set (decode_setCommand hv) rfl hkey hv rfl rfl hset, hset⟩

/-- A SET on one connection, and a GET on another one. -/
theorem accepted_value_sent_default :
    ∃ e', execute defaultServer.backend defaultServer.maxValueLen false
        (commandFrame (setCommand [118])) defaultEngine =
        (respond (commandFrame (setCommand [118])) .ok [], e') ∧
      ((Conn.init ([], ⟨[], nofun⟩) e').serveQueued defaultServer
          (Config.default 1).outputBufferLimit ⟨[], 0, []⟩
          (commandFrame getCommand)).1.status = .serving := by
  obtain ⟨e', hexec, -⟩ := execute_setCommand (v := [118]) (by decide)
  have hok : execute (LocalEngine.backend 0 0 {}) (Config.default 1).maxValueLen.toNat false
      (commandFrame (setCommand [118])) defaultEngine =
      (respond (commandFrame (setCommand [118])) .ok [], e') := hexec
  have hnew : Run Store.step Always
      { newStore { oneShard with shards := 2 } 1 with wheel := none } defaultEngine.store := .refl
  have hroom : ((valueOverhead + (setCommand [118]).value.length : ℕ) : ℤ) ≤
      (Config.default 1).outputBufferLimit := by decide
  exact ⟨e', hexec, ((accepted_value_sent hnew (decode_setCommand (by decide)) rfl hok rfl .refl
    decode_getCommand rfl rfl rfl rfl).2.mpr (.inl hroom)).1⟩

/-- The default configuration is valid, and a value of 1 MiB is accepted by SET. The response to
    a GET is 20 bytes longer than the output buffer limit, and the connection is closed. -/
theorem accepted_value_closes :
    (Config.default 1).validate = none ∧ ∃ v e',
      execute defaultServer.backend defaultServer.maxValueLen false
        (commandFrame (setCommand v)) defaultEngine =
        (respond (commandFrame (setCommand v)) .ok [], e') ∧ v.length = 1 <<< 20 ∧
      ∀ c : Conn LocalEngine (Bytes × Chunks), c.engine = e' →
        (c.serveQueued defaultServer (Config.default 1).outputBufferLimit ⟨[], 0, []⟩
          (commandFrame getCommand)).1.status = .closed := by
  obtain ⟨v, hv⟩ : ∃ v : Bytes, v.length = 1 <<< 20 := ⟨_, List.length_replicate (a := 0)⟩
  have hfits : v.length ≤ maxValueLen := by rw [hv]; decide
  obtain ⟨e', hexec, hset⟩ := execute_setCommand hfits
  refine ⟨validate_default one_pos, v, e', hexec, hv, fun c hc => ?_⟩
  have hsound : defaultEngine.store.Sound := newStore_sound { oneShard with shards := 2 } 1 none
  have hsound' := (hsound.set [107] v 0 0).sound
  rw [hset] at hsound'
  have hresp : (execute defaultServer.backend defaultServer.maxValueLen defaultServer.replHandler
      (commandFrame getCommand) e').1 = _ :=
    execute_get hsound' decode_getCommand rfl (by decide)
  rw [show getCommand.key = [107] from rfl, hsound.contents_of_set hset] at hresp
  refine (serveQueued_of_full rfl ?_).1
  rw [hc, hresp, length_bytes]
  show (1 <<< 20 : ℤ) < 0 + ((headerLen + (encodeValueBody v).length : ℕ) : ℤ)
  rw [length_encodeValueBody, hv]
  decide

end KvStore
