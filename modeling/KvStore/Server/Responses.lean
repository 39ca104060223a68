import KvStore.Server.ReadBack
import KvStore.Store.Filled
import KvStore.Store.Scan

/-!
# Responses that a client can read

The decoders of response bodies (`internal/protocol/command.go` lines 222–303), and what `execute`
answers in an engine that was filled through the protocol. A client reads responses with
`ReadFrame` and the limit of the protocol. The answers to GET and TTL are within it, since what SET
accepts is; the answer to KEYS has up to 10000 keys of up to 65535 bytes, and nothing looks at its
length.

* `response_decodable`: a response is read and its body decodes to the answer of the engine, if and
  only if what KEYS, STATS or SNAPSHOT answer is not longer than `MaxFrameLen`.
* `keys_response_too_large`: after 257 SETs a KEYS is answered by a frame that is refused.
-/

namespace KvStore

open KvStore.Common

/-! ## Decoders -/

/-- `u8` (lines 46–54). -/
def Cursor.u8 (c : Cursor) : UInt8 × Cursor := (c.uint 1).map UInt8.ofNat id

/-- What was read, if `done` (lines 102–110) has no objection. -/
def finishBody {α : Type} (r : α × Cursor) : Except CodecError α :=
  match r.2.done with
  | some e => .error e
  | none => .ok r.1

/-- `DecodeValueBody` (lines 231–238). -/
def decodeValueBody (body : Bytes) : Except CodecError Bytes :=
  let (n, c) := Cursor.u32 { b := body }
  finishBody (c.bytes n.toNat)

/-- `DecodeBoolBody` (lines 249–256). -/
def decodeBoolBody (body : Bytes) : Except CodecError Bool :=
  (finishBody (Cursor.u8 { b := body })).map (· ≠ 0)

/-- `DecodeTTLBody` (lines 265–272). -/
def decodeTTLBody (body : Bytes) : Except CodecError ℤ :=
  (finishBody (Cursor.u64 { b := body })).map fun v => int64 v.toNat

/-- The loop of `DecodeKeysBody` (lines 297–299) with `n` keys to go. -/
def readKeys : ℕ → Cursor → List Bytes × Cursor
  | 0, c => ([], c)
  | n + 1, c =>
    let (k, c) := c.bytes16
    let (ks, c) := readKeys n c
    (k :: ks, c)

/-- `DecodeKeysBody` (lines 285–304). -/
def decodeKeysBody (body : Bytes) : Except CodecError (List Bytes) :=
  let (n, c) := Cursor.u32 { b := body }
  if c.err = true ∨ n.toNat > c.remaining / 2 then .error .truncated
  else finishBody (readKeys n.toNat c)

/-! ## Bodies are decoded -/

section

variable {α : Type} {body rest : Bytes}

/-- A read that follows a codec, off the front of an encoding. -/
theorem Cursor.Follows.read {p : α × Cursor} {c : Cursor} {k : Codec α} {a : α} {r : Bytes}
    (h : Cursor.Follows p c k) (ha : k.Valid a) (hleft : c.left = some (k.encode a ++ r)) :
    p.1 = a ∧ p.2.left = some r := by
  unfold Cursor.Follows at h
  rw [hleft, Option.bind_some, k.read_encode r ha] at h
  obtain ⟨rest', hrest, hpair⟩ := Option.map_eq_some_iff.mp h
  cases hpair
  exact ⟨rfl, hrest⟩

theorem finishBody_of_left {r : α × Cursor} (h : r.2.left = some []) : finishBody r = .ok r.1 := by
  rw [finishBody, Cursor.done_eq_none.mpr h]

theorem left_start (body : Bytes) : Cursor.left { b := body } = some body := rfl

theorem decodeValueBody_encode {v : Bytes} (h : v.length < 2 ^ 32) :
    decodeValueBody (encodeValueBody v) = .ok v := by
  have hfollows := (Cursor.follows_uint 4 { b := encodeValueBody v }).counted
  rw [← Cursor.u32_toNat] at hfollows
  obtain ⟨hvalue, hleft⟩ := hfollows.read (r := []) (a := v)
    ((Codec.counted_valid _ v).mpr (by show v.length < 256 ^ 4; omega))
    (by rw [List.append_nil]; rfl)
  exact (finishBody_of_left hleft).trans (congrArg Except.ok hvalue)

theorem decodeBoolBody_encode (b : Bool) : decodeBoolBody (encodeBoolBody b) = .ok b := by
  cases b <;> rfl

/-- `DecodeTTLBody` undoes `EncodeTTLBody` on what an `int64` holds. -/
theorem decodeTTLBody_encode {ms : ℤ} (hlo : -(2 ^ 63) ≤ ms) (hhi : ms < 2 ^ 63) :
    decodeTTLBody (encodeTTLBody ms) = .ok ms := by
  have hword : (ms % 2 ^ 64).toNat < 256 ^ 8 := by omega
  obtain ⟨hvalue, hleft⟩ := (Cursor.follows_uint 8 { b := encodeTTLBody ms }).read (r := [])
    hword (by rw [List.append_nil]; rfl)
  have hu64 : (Cursor.u64 { b := encodeTTLBody ms }).1 = UInt64.ofNat (ms % 2 ^ 64).toNat :=
    congrArg UInt64.ofNat hvalue
  have hint : int64 ((UInt64.ofNat (ms % 2 ^ 64).toNat).toNat : ℤ) = ms := by
    rw [UInt64.toNat_ofNat_of_lt' hword, Int.toNat_of_nonneg (Int.emod_nonneg _ (by norm_num))]
    exact (Int.emod_bmod ms (2 ^ 64)).trans (int64_eq hlo hhi)
  unfold decodeTTLBody
  rw [finishBody_of_left (r := Cursor.u64 { b := encodeTTLBody ms }) hleft, hu64]
  exact congrArg Except.ok hint

/-- The keys of a KEYS response one after another. -/
def keysBytes (ks : List Bytes) : Bytes := ks.flatMap bytes16Codec.encode

theorem encodeKeysBody_eq (ks : List Bytes) :
    encodeKeysBody ks = (Codec.word 4).encode ks.length ++ keysBytes ks := by
  have hfold : ∀ (ks : List Bytes) (dst : Bytes),
      ks.foldl (fun dst k => appendU16 dst k.length ++ k) dst = dst ++ keysBytes ks := by
    intro ks
    induction ks with
    | nil => exact fun dst => (List.append_nil dst).symm
    | cons k ks ih =>
      intro dst
      have hcons : keysBytes (k :: ks) = (putLE 2 k.length ++ k) ++ keysBytes ks := List.flatMap_cons
      rw [List.foldl_cons, ih, hcons, appendU16, appendUint, List.append_assoc, List.append_assoc,
        List.append_assoc]
  rw [encodeKeysBody, hfold]
  rfl

theorem length_keysBytes (ks : List Bytes) :
    (keysBytes ks).length = (ks.map fun k => 2 + k.length).sum := by
  rw [keysBytes, List.length_flatMap]
  refine congrArg List.sum (List.map_congr_left fun k _ => ?_)
  show (putLE 2 k.length ++ k).length = _
  rw [List.length_append, length_putLE]

theorem length_encodeKeysBody (ks : List Bytes) :
    (encodeKeysBody ks).length = 4 + (ks.map fun k => 2 + k.length).sum := by
  rw [encodeKeysBody_eq, List.length_append, length_keysBytes]
  rfl

theorem length_encodeKeysBody_of_length {ks : List Bytes} {n : ℕ} (h : ∀ k ∈ ks, k.length = n) :
    (encodeKeysBody ks).length = 4 + ks.length * (2 + n) := by
  rw [length_encodeKeysBody, List.map_congr_left fun k hk => by rw [h k hk], List.map_const',
    List.sum_replicate, smul_eq_mul]

theorem readKeys_keysBytes {ks : List Bytes} (hks : ∀ k ∈ ks, k.length ≤ Protocol.maxKeyLen)
    {c : Cursor} (hleft : c.left = some (keysBytes ks)) :
    (readKeys ks.length c).1 = ks ∧ (readKeys ks.length c).2.left = some [] := by
  induction ks generalizing c with
  | nil => exact ⟨rfl, hleft⟩
  | cons k ks ih =>
    obtain ⟨hk, hks⟩ := List.forall_mem_cons.mp hks
    obtain ⟨hread, hrest⟩ := (Cursor.follows_bytes16 c).read (bytes16Codec_valid.mpr hk) hleft
    obtain ⟨hreads, hend⟩ := ih hks hrest
    refine ⟨?_, hend⟩
    show (c.bytes16).1 :: (readKeys ks.length c.bytes16.2).1 = _
    rw [hread, hreads]

theorem two_mul_length_le (ks : List Bytes) : 2 * ks.length ≤ (keysBytes ks).length := by
  rw [length_keysBytes]
  induction ks with
  | nil => exact le_rfl
  | cons k ks ih =>
    rw [List.map_cons, List.sum_cons, List.length_cons]
    omega

theorem decodeKeysBody_encode {ks : List Bytes} (hks : ∀ k ∈ ks, k.length ≤ Protocol.maxKeyLen)
    (hlen : (encodeKeysBody ks).length < 2 ^ 32) :
    decodeKeysBody (encodeKeysBody ks) = .ok ks := by
  have htwo := two_mul_length_le ks
  rw [encodeKeysBody_eq, List.length_append] at hlen
  obtain ⟨hcount, hleft⟩ := (Cursor.follows_uint 4 { b := encodeKeysBody ks }).read
    (r := keysBytes ks) (a := ks.length) (by show ks.length < 256 ^ 4; omega)
    (by rw [left_start, encodeKeysBody_eq])
  have hn : (Cursor.u32 { b := encodeKeysBody ks }).1.toNat = ks.length := by
    rw [Cursor.u32_toNat, hcount]
  replace hleft : (Cursor.u32 { b := encodeKeysBody ks }).2.left = some (keysBytes ks) := hleft
  have herr : ¬ (Cursor.u32 { b := encodeKeysBody ks }).2.err = true := by
    intro herr
    rw [Cursor.left, if_pos herr] at hleft
    cases hleft
  obtain ⟨hkeys, hend⟩ := readKeys_keysBytes hks hleft
  unfold decodeKeysBody
  dsimp only
  rw [hn, ← Cursor.length_left hleft, if_neg (not_or.mpr ⟨herr, by omega⟩), finishBody_of_left hend,
    hkeys]

end

/-! ## Sizes of what is stored -/

/-- No entry of the heap is larger than what a SET carries. -/
def Shard.WireSized (sh : Shard) : Prop :=
  ∀ p, (sh.heap p).key.length ≤ Protocol.maxKeyLen ∧ (sh.heap p).value.length ≤ maxValueLen

section

variable {sh sh' : Shard}

theorem Shard.WireSized.of_heap (h : sh.WireSized) (hheap : sh'.heap = sh.heap) :
    sh'.WireSized := by
  intro p
  rw [hheap]
  exact h p

theorem Shard.WireSized.update (h : sh.WireSized) {q : Ptr} {x : Entry}
    (hheap : sh'.heap = Function.update sh.heap q x)
    (hx : x.key.length ≤ Protocol.maxKeyLen ∧ x.value.length ≤ maxValueLen) : sh'.WireSized := by
  intro p
  rw [hheap]
  by_cases hp : p = q
  · rw [hp, Function.update_self]
    exact hx
  · rw [Function.update_of_ne hp]
    exact h p

theorem Shard.WireSized.removesExpired (h : sh.WireSized) {now : UInt64}
    (hr : RemovesExpired now sh sh') : sh'.WireSized := by
  obtain ⟨ks, hks, -⟩ := hr
  exact h.of_heap hks.heap

theorem Shard.WireSized.removeEntryLocked (h : sh.WireSized) (e : Ptr) :
    (sh.removeEntryLocked e).WireSized := h.of_heap (by rw [removeEntryLocked_eq])

theorem Shard.WireSized.delLocked (h : sh.WireSized) (key : Bytes) :
    (sh.delLocked key).2.WireSized := by
  unfold Shard.delLocked
  split
  · exact h
  · exact h.removeEntryLocked _

theorem Shard.WireSized.txnDelete (h : sh.WireSized) (key : Bytes) (now : UInt64) :
    (sh.txnDelete key now).2.WireSized := by
  unfold Shard.txnDelete
  split
  · split_ifs
    · exact h.removeEntryLocked _
    · exact h.delLocked key
  · exact h.delLocked key

theorem Shard.WireSized.expireLocked (h : sh.WireSized) (key : Bytes) (x : UInt64) :
    (sh.expireLocked key x).2.WireSized := by
  unfold Shard.expireLocked
  split
  · exact h
  · rename_i e _
    dsimp only
    obtain ⟨a, ha⟩ := updateTTLSlot_frame (sh.modify e fun y => { y with expireAt := x }) e
      ((sh.heap e).expireAt ≠ 0) x
    rw [ha]
    exact h.update rfl (h e)

theorem Shard.WireSized.txnExpire (h : sh.WireSized) (key : Bytes) (x now : UInt64) :
    (sh.txnExpire key x now).2.WireSized := by
  unfold Shard.txnExpire
  split
  · split_ifs
    · exact h.removesExpired (reapLocked_removesExpired sh key now)
    · exact h.expireLocked key x
  · exact h.expireLocked key x

theorem Shard.WireSized.upkeep (h : sh.WireSized) (hup : sh.Upkeep sh') : sh'.WireSized := by
  cases hup with
  | read key now mono =>
    unfold Shard.getLocked
    split
    · exact h
    · rename_i e _
      split_ifs
      · exact h
      · exact h.update rfl (h e)
  | removesExpired now hr => exact h.removesExpired hr
  | delete key now => exact h.txnDelete key now
  | expire key x now => exact h.txnExpire key x now
  | evictToLimit =>
    unfold Shard.evictToLimit
    split_ifs
    · exact h
    · obtain ⟨ks, hks, -⟩ := evictLocked_evicts sh sh.lowWater []
      exact h.of_heap hks.heap
  | flush => exact h.of_heap rfl
  | draws rng => exact h.of_heap rfl

theorem Shard.WireSized.setLocked (h : sh.WireSized) {key value : Bytes}
    (hkey : key.length ≤ Protocol.maxKeyLen) (hvalue : value.length ≤ maxValueLen)
    (x mono : UInt64) : (sh.setLocked key value x mono).2.WireSized := by
  obtain ⟨m, ⟨ks, hks, -⟩, -, hres⟩ := setLocked_cases sh key value x mono
  have hm : m.WireSized := h.of_heap hks.heap
  rcases hres with ⟨-, hres⟩ | ⟨old, -, hres⟩ | ⟨-, hres⟩ <;> rw [hres]
  · exact hm
  · obtain ⟨a, d, hframe⟩ := overwrite_frame m old value x mono (entryCost key.length value.length)
      (entryCost key.length value.length - (sh.heap old).size)
    exact hm.update (q := old)
      (x := ⟨(m.heap old).key, value, x, mono, uint32 (entryCost key.length value.length)⟩)
      (by rw [hframe]) ⟨(hm old).1, hvalue⟩
  · exact hm.update (by rw [insert_eq]) ⟨hkey, hvalue⟩

end

/-- The same of all shards. -/
def Store.WireSized (s : Store) : Prop := ∀ i, (s.shards i).WireSized

theorem Store.WireSized.act {s : Store} (h : s.WireSized) (a : StoreAction)
    (hset : ∀ key value x mono, a = .set key value x mono →
      key.length ≤ Protocol.maxKeyLen ∧ value.length ≤ maxValueLen) : (s.act a).WireSized := by
  refine (Store.act_all (P := fun _ => Shard.WireSized) (fun i sh sh' hsh hup => hsh.upkeep hup) h a
    ?_).shard
  intro key value x mono ha
  obtain ⟨hkey, hvalue⟩ := hset key value x mono ha
  exact (h _).setLocked hkey hvalue x mono

theorem Store.WireSized.flush {s : Store} (h : s.WireSized) : s.flush.WireSized := by
  unfold Store.flush
  generalize List.range s.shardCount = l
  induction l generalizing s with
  | nil => exact h
  | cons i l ih =>
    refine ih fun j => ?_
    rw [shards_put]
    split_ifs
    · exact (h i).of_heap rfl
    · exact h j

theorem newStore_wireSized (opts : Options) (newSeed : UInt64) :
    (newStore opts newSeed).WireSized := by
  intro i p
  have hheap : ((newStore opts newSeed).shards i).heap p = default := by
    unfold newStore
    dsimp only
    split_ifs <;> rfl
  rw [hheap]
  exact ⟨Nat.zero_le _, Nat.zero_le _⟩

/-! ## The engine behind the server -/

/-- What happens to an engine: a request with its readings of the clocks and what STATS and SNAPSHOT
    report at that time, or something that the store does by itself. -/
inductive Served
  | request (f : Frame) (nowMs nowMono : UInt64) (env : Surroundings)
  | background (a : StoreAction)

/-- The engine after it; the only writes are those of requests. -/
def LocalEngine.serve (maxValueLen : ℕ) (replHandler : Bool) (e : LocalEngine) :
    Served → Option LocalEngine
  | .request f nowMs nowMono env =>
    some (execute (LocalEngine.backend nowMs nowMono env) maxValueLen replHandler f e).2
  | .background a => if a.sets = none then some { e with store := e.store.act a } else none

section

variable {e e' : LocalEngine} {f : Frame} {cmd : Command} {nowMs nowMono : UInt64}
  {env : Surroundings} {limit : ℕ} {replHandler : Bool}

theorem sizes_of_decodeCommand (h : decodeCommand f.header.code f.body = .ok cmd) :
    cmd.key.length ≤ Protocol.maxKeyLen ∧ cmd.value.length ≤ maxValueLen := by
  obtain ⟨op, -, hread⟩ := decodeCommand_eq_ok.mp h
  obtain ⟨hvalid, -⟩ := (commandCodec op).of_read hread
  refine ⟨key_of_commandCodec_valid hvalid, ?_⟩
  cases op with
  | set =>
    have hvalue : valueCodec.Valid cmd.value := hvalid.1.2.1
    exact of_decide_eq_true ((Codec.counted_valid _ _).mp hvalue).2
  | _ =>
    rw [← hvalid.2]
    exact Nat.zero_le _

/-- A read pass and the reap it may ask for. -/
theorem Store.WireSized.read {s : Store} (h : s.WireSized) (key : Bytes) (nowMs nowMono : UInt64)
    (reap : Bool) : (if reap then (s.act (.read key nowMs nowMono)).reap key nowMs
      else s.act (.read key nowMs nowMono)).WireSized := by
  have hread := h.act (.read key nowMs nowMono) (by simp)
  split_ifs
  · exact hread.act (.reap key nowMs) (by simp)
  · exact hread

end

/-- The operations keep `P`, as long as what is written has the size of a command. -/
structure Backend.Keeps {ε : Type} (B : Backend ε) (P : ε → Prop) : Prop where
  get : ∀ {e} key, P e → P (B.get e key).2
  set : ∀ {e} {key value : Bytes} ttl, key.length ≤ Protocol.maxKeyLen →
    value.length ≤ maxValueLen → P e → P (B.set e key value ttl).2
  delete : ∀ {e} key, P e → P (B.delete e key).2
  exists_ : ∀ {e} key, P e → P (B.exists_ e key).2
  expire : ∀ {e} key ttl, P e → P (B.expire e key ttl).2
  ttl : ∀ {e} key, P e → P (B.ttl e key).2
  keys : ∀ {e} pre limit, P e → P (B.keys e pre limit).2
  flush : ∀ {e}, P e → P (B.flush e).2
  snapshot : ∀ {e}, P e → P (B.snapshot e).2

theorem Backend.Keeps.execute {ε : Type} {B : Backend ε} {P : ε → Prop} (hB : B.Keeps P) {e : ε}
    (he : P e) (limit : ℕ) (replHandler : Bool) (f : Frame) :
    P (execute B limit replHandler f e).2 := by
  unfold KvStore.execute
  cases hcmd : decodeCommand f.header.code f.body with
  | error err => exact he
  | ok cmd =>
    obtain ⟨hkey, hvalue⟩ := sizes_of_decodeCommand hcmd
    have hwith : ∀ run : Response × ε, P run.2 → P (withKey f cmd.key e run).2 := by
      intro run hrun
      unfold withKey
      split_ifs
      · exact he
      · exact hrun
    show P (runCommand B limit replHandler f cmd e).2
    unfold runCommand
    cases cmd.op with
    | ping => exact he
    | get =>
      have hget := hB.get cmd.key he
      rcases hres : B.get e cmd.key with ⟨_ | v, e'⟩ <;> rw [hres] at hget <;> exact hwith _ hget
    | set =>
      refine hwith _ ?_
      split_ifs
      · exact he
      · exact hB.set cmd.ttlMillis hkey hvalue he
    | delete => exact hwith _ (hB.delete cmd.key he)
    | exists_ => exact hwith _ (hB.exists_ cmd.key he)
    | expire => exact hwith _ (hB.expire cmd.key cmd.ttlMillis he)
    | ttl =>
      have httl := hB.ttl cmd.key he
      rcases hres : B.ttl e cmd.key with ⟨_ | ms, e'⟩ <;> rw [hres] at httl <;> exact hwith _ httl
    | keys => exact hB.keys cmd.key _ he
    | stats =>
      dsimp only
      cases B.statsJSON e <;> exact he
    | flush =>
      have hflush := hB.flush he
      dsimp only
      rcases hres : B.flush e with ⟨_ | err, e'⟩ <;> rw [hres] at hflush <;> exact hflush
    | snapshot =>
      have hsnap := hB.snapshot he
      dsimp only
      split_ifs
      · exact he
      · rcases hres : B.snapshot e with ⟨_ | path, e'⟩ <;> rw [hres] at hsnap <;> exact hsnap
    | replConf | sync | replAck | promote =>
      dsimp only
      split_ifs <;> exact he

theorem backend_keeps_wireSized (nowMs nowMono : UInt64) (env : Surroundings) :
    (LocalEngine.backend nowMs nowMono env).Keeps fun e => e.store.WireSized := by
  refine ⟨fun key he => he.read key nowMs nowMono _, fun ttl hkey hvalue he => ?_, fun key he => ?_,
    fun key he => he.read key nowMs nowMono _, fun key ttl he => ?_,
    fun key he => he.read key nowMs nowMono _, fun pre limit he => he, fun he => ?_, fun he => he⟩ <;>
    dsimp only [LocalEngine.backend]
  · split
    · exact he
    · refine he.act (.set _ _ _ nowMono) fun key value x mono h => ?_
      cases h
      exact ⟨hkey, hvalue⟩
  · split
    · exact he
    · exact he.act (.delete key nowMs) (by simp)
  · split
    · exact he
    · exact he.act (.expire key _ nowMs) (by simp)
  · split_ifs
    · exact he
    · exact he.flush

/-! ## What the engine answers -/

/-- The number of keys `execute` asks for (dispatch.go lines 109–112). -/
def Command.keysLimit (cmd : Command) : ℕ :=
  if cmd.limit.toNat = 0 ∨ cmd.limit.toNat > 10000 then 10000 else cmd.limit.toNat

/-- The body of a response with the status OK decodes to the answer of the engine. -/
def Command.Decodes {ε : Type} (B : Backend ε) (e : ε) (cmd : Command) (body : Bytes) : Prop :=
  match cmd.op with
  | .get => ∃ v, (B.get e cmd.key).1 = some v ∧ decodeValueBody body = .ok v
  | .exists_ => decodeBoolBody body = .ok (B.exists_ e cmd.key).1
  | .ttl => ∃ ms, (B.ttl e cmd.key).1 = some ms ∧ decodeTTLBody body = .ok ms
  | .keys => decodeKeysBody body = .ok (B.keys e cmd.key cmd.keysLimit).1
  | .stats => ∃ doc, B.statsJSON e = .ok doc ∧ decodeValueBody body = .ok doc
  | .snapshot => ∃ path, (B.snapshot e).1 = .ok path ∧ decodeValueBody body = .ok path
  | _ => body = []

/-- What a request does not bound the size of leaves room in a frame: the keys that KEYS lists, the
    document of STATS, and the path of a SNAPSHOT that is taken. -/
def Command.LeavesRoom (cmd : Command) (keys : List Bytes) (stats snapshot : Except String Bytes)
    (readOnly : Bool) : Prop :=
  match cmd.op with
  | .keys => 4 + (keys.map fun k => 2 + k.length).sum ≤ maxFrameLen
  | .stats => ∀ doc, stats = .ok doc → 4 + doc.length ≤ maxFrameLen
  | .snapshot => readOnly = false → ∀ path, snapshot = .ok path → 4 + path.length ≤ maxFrameLen
  | _ => True

/-- What is known of the answers of an engine that was filled through the protocol. -/
structure Backend.WireSized {ε : Type} (B : Backend ε) (e : ε) : Prop where
  get : ∀ key v, (B.get e key).1 = some v → v.length ≤ maxValueLen
  ttl : ∀ key ms, (B.ttl e key).1 = some ms → -(2 ^ 63) ≤ ms ∧ ms < 2 ^ 63
  keys : ∀ pre limit, ∀ k ∈ (B.keys e pre limit).1, k.length ≤ Protocol.maxKeyLen

/-- A response that fits a frame iff `room` holds, and whose body decodes if it does and the status
    is OK. -/
structure Response.Good {ε : Type} (B : Backend ε) (e : ε) (cmd : Command) (room : Prop)
    (r : Response) : Prop where
  fits : r.body.length ≤ maxFrameLen ↔ room
  decodes : room → r.status = .ok → cmd.Decodes B e r.body

theorem encodeErrorBody_room (msg : String) : (encodeErrorBody msg).length ≤ maxFrameLen :=
  (List.length_take_le _ _).trans (by decide)

section

variable {ε : Type} {B : Backend ε} {e : ε} {cmd : Command} {f : Frame}

/-- A response that fits anyway. -/
theorem good_of_le {room : Prop} {r : Response} (hroom : room) (hlen : r.body.length ≤ maxFrameLen)
    (hdecodes : r.status = .ok → cmd.Decodes B e r.body) : r.Good B e cmd room :=
  ⟨iff_of_true hlen hroom, fun _ => hdecodes⟩

/-- A response with another status has to be short only. -/
theorem good_of_error {room : Prop} (hroom : room) {status : Status} (h : status ≠ .ok)
    (msg : String) : (respondErr f status msg).Good B e cmd room :=
  good_of_le hroom (encodeErrorBody_room msg) fun hok => absurd hok h

theorem good_of_notFound {room : Prop} (hroom : room) :
    (respond f .notFound []).Good B e cmd room :=
  good_of_le hroom (Nat.zero_le _) fun hok => by cases hok

theorem good_mutationError {room : Prop} (hroom : room) (err : EngineError) :
    (mutationError f err).Good B e cmd room := by
  cases err <;> exact good_of_error hroom (by decide) _

theorem good_withKey {room : Prop} {run : Response × ε} (hroom : room)
    (h : run.1.Good B e cmd room) : (withKey f cmd.key e run).1.Good B e cmd room := by
  unfold withKey
  split_ifs
  · exact good_of_error hroom (by decide) _
  · exact h

/-- A value as the body. -/
theorem good_of_value {room : Prop} {v : Bytes} (hfits : 4 + v.length ≤ maxFrameLen ↔ room)
    (hdecodes : ∀ body, decodeValueBody body = .ok v → cmd.Decodes B e body) :
    (respond f .ok (encodeValueBody v)).Good B e cmd room := by
  have hframe : maxFrameLen < 2 ^ 32 := by decide
  constructor
  · show (encodeValueBody v).length ≤ _ ↔ _
    rw [length_encodeValueBody, hfits]
  · intro hroom _
    have hlen := hfits.mpr hroom
    exact hdecodes _ (decodeValueBody_encode (by omega))

theorem runCommand_good (hB : B.WireSized e) (limit : ℕ) (replHandler : Bool) :
    (runCommand B limit replHandler f cmd e).1.Good B e cmd
      (cmd.LeavesRoom (B.keys e cmd.key cmd.keysLimit).1 (B.statsJSON e) (B.snapshot e).1
        (B.readOnly e)) := by
  have hempty : ∀ {room : Prop}, room → cmd.Decodes B e [] → (respond f .ok []).Good B e cmd room :=
    fun hroom h => good_of_le hroom (Nat.zero_le _) fun _ => h
  have hreply : ∀ {room : Prop} r, room → cmd.Decodes B e [] →
      (mutationReply f r).Good B e cmd room := by
    rintro room (err | _ | _) hroom h
    · exact good_mutationError hroom err
    · exact good_of_notFound hroom
    · exact hempty hroom h
  unfold runCommand Command.LeavesRoom
  cases hop : cmd.op with
  | ping => exact hempty trivial (by rw [Command.Decodes, hop])
  | get =>
    refine good_withKey trivial ?_
    rcases hget : B.get e cmd.key with ⟨_ | v, e'⟩
    · exact good_of_notFound trivial
    · have hv : (B.get e cmd.key).1 = some v := by rw [hget]
      have hlen := hB.get cmd.key v hv
      refine good_of_value (iff_of_true (by unfold maxFrameLen; omega) trivial) fun body hbody => ?_
      rw [Command.Decodes, hop]
      exact ⟨v, hv, hbody⟩
  | set =>
    refine good_withKey trivial ?_
    dsimp only
    split_ifs
    · exact good_of_error trivial (by decide) _
    · unfold setReply
      split
      · exact hempty trivial (by rw [Command.Decodes, hop])
      all_goals exact good_of_error trivial (by decide) _
  | delete => exact good_withKey trivial (hreply _ trivial (by rw [Command.Decodes, hop]))
  | exists_ =>
    refine good_withKey trivial (good_of_le trivial ?_ fun _ => ?_)
    · show (encodeBoolBody (B.exists_ e cmd.key).1).length ≤ _
      cases (B.exists_ e cmd.key).1 <;> decide
    · rw [Command.Decodes, hop]
      exact decodeBoolBody_encode _
  | expire => exact good_withKey trivial (hreply _ trivial (by rw [Command.Decodes, hop]))
  | ttl =>
    refine good_withKey trivial ?_
    rcases httl : B.ttl e cmd.key with ⟨_ | ms, e'⟩
    · exact good_of_notFound trivial
    · have hms : (B.ttl e cmd.key).1 = some ms := by rw [httl]
      obtain ⟨hlo, hhi⟩ := hB.ttl cmd.key ms hms
      refine good_of_le trivial (by show 8 ≤ maxFrameLen; decide) fun _ => ?_
      rw [Command.Decodes, hop]
      exact ⟨ms, hms, decodeTTLBody_encode hlo hhi⟩
  | keys =>
    have hframe : maxFrameLen < 2 ^ 32 := by decide
    have hlen := length_encodeKeysBody (B.keys e cmd.key cmd.keysLimit).1
    refine ⟨?_, fun hroom _ => ?_⟩
    · show (encodeKeysBody (B.keys e cmd.key cmd.keysLimit).1).length ≤ _ ↔ _
      rw [hlen]
    · rw [Command.Decodes, hop]
      exact decodeKeysBody_encode (hB.keys cmd.key cmd.keysLimit)
        ((hlen.trans_le hroom).trans_lt hframe)
  | stats =>
    dsimp only
    cases hdoc : B.statsJSON e with
    | error msg => exact good_of_error (fun doc h => by cases h) (by decide) _
    | ok doc =>
      refine good_of_value ⟨fun hlen _ h => by cases h; exact hlen, fun h => h doc rfl⟩
        fun body hbody => ?_
      rw [Command.Decodes, hop]
      exact ⟨doc, hdoc, hbody⟩
  | flush =>
    dsimp only
    rcases B.flush e with ⟨_ | err, e'⟩
    · exact hempty trivial (by rw [Command.Decodes, hop])
    · exact good_mutationError trivial err
  | snapshot =>
    dsimp only
    split_ifs with hro
    · exact good_of_error (fun h => absurd hro (by simp [h])) (by decide) _
    · rcases hsnap : B.snapshot e with ⟨msg | path, e'⟩
      · exact good_of_error (fun _ path h => by cases h) (by decide) _
      · refine good_of_value ⟨fun hlen _ _ h => by cases h; exact hlen, fun h => h (by simpa using hro)
          path rfl⟩ fun body hbody => ?_
        rw [Command.Decodes, hop]
        exact ⟨path, by rw [hsnap], hbody⟩
  | replConf | sync | replAck | promote =>
    dsimp only
    split_ifs <;> exact good_of_error trivial (by decide) _

end

/-! ## What the store answers -/

theorem int64_range (x : ℤ) : -(2 ^ 63) ≤ int64 x ∧ int64 x < 2 ^ 63 := by
  unfold int64
  have hlo := Int.le_bmod (x := x) (m := 2 ^ 64) (by decide)
  have hhi := Int.bmod_lt (x := x) (m := 2 ^ 64) (by decide)
  omega

theorem ttlMillis_range (expireAt nowMs : UInt64) :
    -(2 ^ 63) ≤ ttlMillis expireAt nowMs ∧ ttlMillis expireAt nowMs < 2 ^ 63 := by
  have hrange := int64_range (int64 expireAt.toNat - int64 nowMs.toNat)
  unfold ttlMillis
  dsimp only
  split_ifs <;> omega

theorem backend_wireSized {e : LocalEngine} (h : e.store.WireSized) (nowMs nowMono : UInt64)
    (env : Surroundings) : (LocalEngine.backend nowMs nowMono env).WireSized e := by
  refine ⟨fun key v hv => ?_, fun key ms hms => ?_, fun pre limit k hk => ?_⟩
  · obtain ⟨p, -, rfl⟩ := Option.map_eq_some_iff.mp (show Option.map _ _ = some v from hv)
    exact (h _ p).2
  · obtain ⟨p, -, rfl⟩ := Option.map_eq_some_iff.mp (show Option.map _ _ = some ms from hms)
    exact ttlMillis_range _ nowMs
  · replace hk : k ∈ e.store.keys pre limit nowMs := hk
    unfold Store.keys at hk
    rw [keysShards_eq _ _ _ _ _ _ (Nat.zero_le _), List.nil_append] at hk
    obtain ⟨i, -, hk⟩ := List.mem_flatMap.mp (List.mem_of_mem_take hk)
    obtain ⟨p, -, rfl⟩ := List.mem_map.mp hk
    exact (h i p).1

/-! ## Main results -/

/-- The body of a response that is not longer than `MaxFrameLen` comes through. -/
theorem response_read (r : Response) (h : r.body.length ≤ maxFrameLen) {σ : Type} (R : Reader σ)
    {src : σ} {rest : Bytes} (hsrc : R.content src = r.bytes ++ rest) (hdrBuf buf : Bytes) :
    (readFrame R src hdrBuf buf 0).err = none ∧
      (readFrame R src hdrBuf buf 0).frame.header.code = r.status.code ∧
      (readFrame R src hdrBuf buf 0).frame.header.requestID = r.requestID ∧
      (readFrame R src hdrBuf buf 0).frame.body = r.body ∧
      R.content (readFrame R src hdrBuf buf 0).src = rest := by
  have hsendable : Sendable 0 (⟨protocolVersion, r.status.code, 0, 0, r.requestID, 0⟩, r.body) :=
    ⟨rfl, show (0 : UInt16) &&& ~~~allFlags = 0 by decide, rfl, h⟩
  obtain ⟨herr, hframe, hrest⟩ := readFrame_whole R hdrBuf buf hsendable hsrc
  rw [hframe]
  exact ⟨herr, rfl, rfl, rfl, hrest⟩

/-- `ReadFrame` returns no body beyond the limit of the protocol. -/
theorem readFrame_body_le {σ : Type} (R : Reader σ) (src : σ) (hdrBuf buf : Bytes) (maxBody : ℕ) :
    (readFrame R src hdrBuf buf maxBody).frame.body.length ≤ maxFrameLen := by
  unfold readFrame
  dsimp only
  split
  · exact Nat.zero_le _
  · split
    · exact Nat.zero_le _
    · unfold readBody
      split
      · exact Nat.zero_le _
      · rename_i hlen
        split
        · exact Nat.zero_le _
        · dsimp only
          split
          · exact Nat.zero_le _
          · exact ((List.length_take_le _ _).trans (not_lt.mp hlen)).trans (bodyLimit_le maxBody)

/-- What requests and the work of the store in the background lead to was filled through the
    protocol. -/
theorem serve_wireSized {opts : Options} {newSeed : UInt64} {limit : ℕ} {replHandler : Bool}
    {e₀ e : LocalEngine} (hnew : e₀.store = newStore opts newSeed)
    (hrun : Run (LocalEngine.serve limit replHandler) Always e₀ e) : e.store.WireSized := by
  refine hrun.invariant (P := fun e => e.store.WireSized) ?_
    (by rw [hnew]; exact newStore_wireSized opts newSeed)
  intro e t e' he _ hstep
  cases t with
  | request f nowMs nowMono env =>
    cases hstep
    exact (backend_keeps_wireSized nowMs nowMono env).execute he limit replHandler f
  | background a =>
    replace hstep : (if a.sets = none then some { e with store := e.store.act a } else none) =
      some e' := hstep
    split_ifs at hstep with hsets
    cases hstep
    refine he.act a ?_
    rintro key value x mono rfl
    cases hsets

/-- Whatever frame is executed: the response fits a frame iff the answer to a KEYS, STATS or SNAPSHOT
    does, and then a body with the status OK decodes. -/
theorem execute_good {e : LocalEngine} (h : e.store.WireSized) (limit : ℕ) (replHandler : Bool)
    (f : Frame) (nowMs nowMono : UInt64) (env : Surroundings) :
    let B := LocalEngine.backend nowMs nowMono env
    let r := (execute B limit replHandler f e).1
    let room := ∀ cmd, decodeCommand f.header.code f.body = .ok cmd →
      cmd.LeavesRoom ((e.store.visibleKeys cmd.key nowMs).take cmd.keysLimit) env.stats env.snapshot
        e.readOnly
    (r.body.length ≤ maxFrameLen ↔ room) ∧ (room → r.status = .ok →
      ∃ cmd, decodeCommand f.header.code f.body = .ok cmd ∧ cmd.Decodes B e r.body) := by
  intro B r room
  cases hcmd : decodeCommand f.header.code f.body with
  | error err =>
    have hr : r = decodeErrorReply f err := by
      show (execute B limit replHandler f e).1 = _
      rw [execute, hcmd]
    have hroom : room := fun cmd hcmd' => by rw [hcmd] at hcmd'; cases hcmd'
    rw [hr]
    cases err <;> exact ⟨iff_of_true (encodeErrorBody_room _) hroom, fun _ hok => by cases hok⟩
  | ok cmd =>
    have hr : r = (runCommand B limit replHandler f cmd e).1 := by
      show (execute B limit replHandler f e).1 = _
      rw [execute_of_decode hcmd]
    have hgood : (runCommand B limit replHandler f cmd e).1.Good B e cmd _ :=
      runCommand_good (backend_wireSized h nowMs nowMono env) limit replHandler
    have hkeys : (B.keys e cmd.key cmd.keysLimit).1 =
        (e.store.visibleKeys cmd.key nowMs).take cmd.keysLimit := by
      refine keys_take e.store cmd.key ?_ nowMs
      unfold Command.keysLimit
      split_ifs <;> omega
    rw [← hr, hkeys] at hgood
    have hroom : room ↔ cmd.LeavesRoom ((e.store.visibleKeys cmd.key nowMs).take cmd.keysLimit)
        env.stats env.snapshot e.readOnly := by
      constructor
      · exact fun hroom => hroom cmd hcmd
      · intro hroom cmd' hcmd'
        rw [hcmd] at hcmd'
        cases hcmd'
        exact hroom
    rw [hroom]
    exact ⟨hgood.fits, fun hroom hok => ⟨cmd, rfl, hgood.decodes hroom hok⟩⟩

/-- In every engine that requests and the work of the store in the background lead to, whatever frame
    is executed: the client reads the response, with the id of its request, and if the status is OK,
    its body decodes to the answer of the engine; this is so if and only if what a KEYS lists, or
    what a STATS or SNAPSHOT reports, is not longer than a frame may be. -/
theorem response_decodable (opts : Options) (newSeed : UInt64) (limit : ℕ) (replHandler : Bool)
    {e₀ e : LocalEngine} (hnew : e₀.store = newStore opts newSeed)
    (hrun : Run (LocalEngine.serve limit replHandler) Always e₀ e) (f : Frame)
    (nowMs nowMono : UInt64) (env : Surroundings) :
    let B := LocalEngine.backend nowMs nowMono env
    let r := (execute B limit replHandler f e).1
    ((∀ {σ : Type} (R : Reader σ) (src : σ) (rest : Bytes), R.content src = r.bytes ++ rest →
      ∀ hdrBuf buf, (readFrame R src hdrBuf buf 0).err = none ∧
        (readFrame R src hdrBuf buf 0).frame.header.code = r.status.code ∧
        (readFrame R src hdrBuf buf 0).frame.header.requestID = f.header.requestID ∧
        (readFrame R src hdrBuf buf 0).frame.body = r.body ∧
        R.content (readFrame R src hdrBuf buf 0).src = rest) ∧
      (r.status = .ok → ∃ cmd, decodeCommand f.header.code f.body = .ok cmd ∧
        cmd.Decodes B e r.body)) ↔
    ∀ cmd, decodeCommand f.header.code f.body = .ok cmd →
      cmd.LeavesRoom ((e.store.visibleKeys cmd.key nowMs).take cmd.keysLimit) env.stats env.snapshot
        e.readOnly := by
  intro B r
  obtain ⟨hfits, hdecodes⟩ := execute_good (serve_wireSized hnew hrun) limit replHandler f nowMs
    nowMono env
  have hid : r.requestID = f.header.requestID := execute_requestID B limit replHandler e
  constructor
  · rintro ⟨hread, -⟩
    have hne : ∀ b ∈ [r.bytes], b ≠ [] := by
      intro b hb hnil
      rw [List.mem_singleton.mp hb] at hnil
      have hlen := length_bytes r
      rw [hnil, List.length_nil, headerLen] at hlen
      omega
    obtain ⟨-, -, -, hbody, -⟩ := hread Chunks.reader ⟨[r.bytes], hne⟩ []
      (by rw [List.append_nil]; exact List.append_nil _) [] []
    have hle := readFrame_body_le Chunks.reader ⟨[r.bytes], hne⟩ [] [] 0
    rw [hbody] at hle
    exact hfits.mp hle
  · intro hroom
    refine ⟨fun R src rest hsrc hdrBuf buf => ?_, hdecodes hroom⟩
    have hread := response_read r (hfits.mpr hroom) R hsrc hdrBuf buf
    rw [hid] at hread
    exact hread

/-- KEYS without a prefix and without a limit. -/
def allKeys : Command := { op := .keys }

theorem decode_allKeys :
    decodeCommand (commandFrame allKeys).header.code (commandFrame allKeys).body = .ok allKeys := by
  decide

/-- A SET, and a KEYS that lists the key. -/
theorem response_decodable_one_key :
    ∃ e, Run (LocalEngine.serve maxValueLen false) Always { store := newStore oneShard 1 } e ∧
      decodeKeysBody (execute (LocalEngine.backend 0 0 {}) maxValueLen false (commandFrame allKeys)
        e).1.body = .ok [[107]] := by
  obtain ⟨e, he⟩ : ∃ e, e = (execute (LocalEngine.backend 0 0 {}) maxValueLen false
    (commandFrame (setCommand [118])) { store := newStore oneShard 1 }).2 := ⟨_, rfl⟩
  have hrun : Run (LocalEngine.serve maxValueLen false) Always { store := newStore oneShard 1 } e :=
    Run.refl.tail (.request (commandFrame (setCommand [118])) 0 0 {}) trivial (by rw [he]; rfl)
  have hkeys : ((LocalEngine.backend 0 0 {}).keys e [] 10000).1 = [[107]] := by
    rw [he]
    decide +kernel
  have hvisible : (e.store.visibleKeys [] 0).take allKeys.keysLimit = [[107]] :=
    (keys_take e.store [] (by decide) 0).symm.trans hkeys
  have hroom : ∀ cmd, decodeCommand (commandFrame allKeys).header.code (commandFrame allKeys).body =
      .ok cmd → cmd.LeavesRoom ((e.store.visibleKeys cmd.key 0).take cmd.keysLimit) (.ok []) (.ok [])
        e.readOnly := by
    intro cmd hcmd
    rw [decode_allKeys] at hcmd
    cases hcmd
    show 4 + (((e.store.visibleKeys [] 0).take allKeys.keysLimit).map fun k => 2 + k.length).sum ≤ _
    rw [hvisible]
    decide
  obtain ⟨-, hok⟩ := (response_decodable oneShard 1 maxValueLen false rfl hrun
    (commandFrame allKeys) 0 0 {}).mpr hroom
  obtain ⟨cmd, hcmd, hdecodes⟩ := hok (by rw [execute_of_decode decode_allKeys]; rfl)
  rw [decode_allKeys] at hcmd
  cases hcmd
  rw [← hkeys]
  exact ⟨e, hrun, hdecodes⟩

/-! ## A KEYS that cannot be answered -/

/-- Distinct keys of the greatest length. -/
def longKey (i : ℕ) : Bytes := nthKey i ++ List.replicate 65527 0

theorem length_longKey (i : ℕ) : (longKey i).length = Protocol.maxKeyLen := by
  rw [longKey, List.length_append, nthKey, length_putLE, List.length_replicate]
  rfl

theorem longKey_inj {i j : ℕ} (hi : i < 2 ^ 64) (hj : j < 2 ^ 64) (h : longKey i = longKey j) :
    i = j :=
  nthKey_inj hi hj (List.append_inj_left' h rfl)

/-- The first `n` long keys were written, one after another. -/
structure Shard.Long (n : ℕ) (sh : Shard) : Prop where
  budget : sh.budget = 0
  alloc : sh.alloc = n
  absent : ∀ j, n ≤ j → j < 2 ^ 64 → sh.entries.lookup (longKey j) = none
  heap : ∀ j < n, (sh.heap j).key = longKey j ∧ (sh.heap j).expireAt = 0
  items : sh.slots.items = List.range n

theorem Shard.Long.setLocked {n : ℕ} {sh : Shard} (h : sh.Long n) (hn : n < 2 ^ 64) :
    (sh.setLocked (longKey n) [] 0 0).1 = true ∧
      (sh.setLocked (longKey n) [] 0 0).2.Long (n + 1) := by
  obtain ⟨m, -, hunlimited, hres⟩ := setLocked_cases sh (longKey n) [] 0 0
  obtain rfl := hunlimited (le_of_eq h.budget)
  rcases hres with ⟨hpos, -⟩ | ⟨old, hold, -⟩ | ⟨-, hres⟩
  · exact absurd h.budget hpos.ne'
  · rw [h.absent n le_rfl hn] at hold
    cases hold
  · rw [hres, insert_eq, h.alloc]
    refine ⟨rfl, h.budget, rfl, fun j hj hlt => ?_, fun j hj => ?_, ?_⟩
    · have hne : longKey j ≠ longKey n := fun hc => by
        have := longKey_inj hlt hn hc
        omega
      exact (AList.lookup_insert_ne hne).trans (h.absent j (by omega) hlt)
    · by_cases hjn : j = n
      · subst hjn
        simp
      · simpa [Function.update_of_ne hjn] using h.heap j (by omega)
    · show m.slots.items ++ [n] = _
      rw [h.items, List.range_succ]

theorem Shard.Long.visibleKeys {n : ℕ} {sh : Shard} (h : sh.Long n) :
    sh.visibleKeys [] 0 = (List.range n).map longKey := by
  have hlisted : ∀ j ∈ List.range n, sh.listed [] 0 j = true := by
    intro j hj
    have hexp := (h.heap j (List.mem_range.mp hj)).2
    simp [Shard.listed, Entry.expired, hexp]
  rw [Shard.visibleKeys, h.items, List.filter_eq_self.mpr hlisted]
  exact List.map_congr_left fun j hj => (h.heap j (List.mem_range.mp hj)).1

/-- An engine with one shard that holds the first `n` long keys. -/
structure LocalEngine.Long (n : ℕ) (e : LocalEngine) : Prop where
  writable : e.writable = none
  count : e.store.shardCount = 1
  wheel : e.store.wheel = none
  shard : (e.store.shards 0).Long n

/-- SET of a long key. -/
def longSet (n : ℕ) : Command := { op := .set, key := longKey n }

theorem decode_longSet (n : ℕ) :
    decodeCommand (commandFrame (longSet n)).header.code (commandFrame (longSet n)).body =
      .ok (longSet n) := by
  have hfits : (longSet n).Fits := ⟨(length_longKey n).le, Nat.zero_le _, Nat.zero_le _⟩
  exact decodeCommand_encodeCommand hfits

theorem LocalEngine.Long.set {n : ℕ} {e : LocalEngine} (h : e.Long n) (hn : n < 2 ^ 64) :
    ∃ e', e.serve maxValueLen false (.request (commandFrame (longSet n)) 0 0 {}) = some e' ∧
      e'.Long (n + 1) := by
  have hroute : e.store.shardFor (longKey n) = 0 := if_pos h.count
  obtain ⟨hok, hlong⟩ := h.shard.setLocked hn
  have hset : e.store.set (longKey n) [] 0 0 =
      (true, e.store.put 0 ((e.store.shards 0).setLocked (longKey n) [] 0 0).2) := by
    rw [set_eq, hroute, if_pos hok, hok]
    rfl
  have hkey : (longSet n).key.length ≠ 0 := by
    rw [show (longSet n).key.length = Protocol.maxKeyLen from length_longKey n]
    decide
  refine ⟨{ e with store := e.store.put 0 ((e.store.shards 0).setLocked (longKey n) [] 0 0).2 }, ?_,
    h.writable, h.count, h.wheel, ?_⟩
  · have hexec : execute (LocalEngine.backend 0 0 {}) maxValueLen false
        (commandFrame (longSet n)) e = (respond _ .ok [], _) :=
      execute_set (decode_longSet n) rfl hkey (Nat.zero_le _) h.writable rfl hset
    show some (execute _ _ _ _ e).2 = _
    rw [hexec]
  · show ((e.store.put 0 _).shards 0).Long (n + 1)
    rw [shards_put_self]
    exact hlong

theorem exists_longEngine (n : ℕ) (hn : n < 2 ^ 64) :
    ∃ e, Run (LocalEngine.serve maxValueLen false) Always { store := newStore oneShard 1 } e ∧
      e.Long n := by
  induction n with
  | zero =>
    refine ⟨_, .refl, rfl, rfl, rfl, rfl, rfl, fun j _ _ => rfl, fun j hj => ?_, rfl⟩
    exact absurd hj (Nat.not_lt_zero j)
  | succ n ih =>
    obtain ⟨e, hrun, hlong⟩ := ih (by omega)
    obtain ⟨e', hstep, hlong'⟩ := hlong.set (by omega)
    exact ⟨e', hrun.tail _ trivial hstep, hlong'⟩

theorem execute_allKeys {n : ℕ} {e : LocalEngine} (h : e.Long n) (hn : n < 10000) :
    (execute (LocalEngine.backend 0 0 {}) maxValueLen false (commandFrame allKeys) e).1.body =
      encodeKeysBody ((List.range n).map longKey) := by
  have hvisible : e.store.visibleKeys [] 0 = (List.range n).map longKey := by
    rw [Store.visibleKeys, h.count]
    show [0].flatMap _ = _
    rw [List.flatMap_singleton, h.shard.visibleKeys]
  have hkeys : e.store.keys [] 10000 0 = (List.range n).map longKey := by
    rw [keys_eq, hvisible]
    rw [hvisible, List.length_map, List.length_range]
    omega
  rw [execute_of_decode decode_allKeys]
  show encodeKeysBody (e.store.keys [] 10000 0) = _
  rw [hkeys]

/-- 257 keys of 65535 bytes, each SET accepted: the answer to a KEYS is 198 bytes longer than
    `MaxFrameLen`, and the client refuses its header. -/
theorem keys_response_too_large :
    ∃ e, Run (LocalEngine.serve maxValueLen false) Always { store := newStore oneShard 1 } e ∧
      ∀ {σ : Type} (R : Reader σ) (src : σ) (hdrBuf buf : Bytes), R.content src =
          (execute (LocalEngine.backend 0 0 {}) maxValueLen false (commandFrame allKeys)
            e).1.bytes →
        (readFrame R src hdrBuf buf 0).err = some (.codec .frameTooLarge) := by
  obtain ⟨e, hrun, hlong⟩ := exists_longEngine 257 (by decide)
  have hlen : (encodeKeysBody ((List.range 257).map longKey)).length = maxFrameLen + 198 := by
    have hlong : ∀ k ∈ (List.range 257).map longKey, k.length = Protocol.maxKeyLen := by
      intro k hk
      obtain ⟨i, -, rfl⟩ := List.mem_map.mp hk
      exact length_longKey i
    rw [length_encodeKeysBody_of_length hlong, List.length_map, List.length_range]
    decide
  rw [← execute_allKeys hlong (by decide)] at hlen
  refine ⟨e, hrun, ?_⟩
  generalize (execute (LocalEngine.backend 0 0 {}) maxValueLen false (commandFrame allKeys) e).1 =
    r at hlen
  intro σ R src hdrBuf buf hsrc
  refine readFrame_refused R 0 hdrBuf buf
    (h := ⟨protocolVersion, r.status.code, 0, 0, r.requestID, UInt32.ofNat r.body.length⟩) hsrc ?_
  have hbody : (UInt32.ofNat r.body.length).toNat = maxFrameLen + 198 := by
    rw [hlen]
    exact UInt32.toNat_ofNat_of_lt' (by decide)
  have hflags : (0 : UInt16) &&& ~~~allFlags = 0 := by decide
  rw [decodeHeader_eq, if_neg (not_not.mpr rfl), if_neg (not_not.mpr hflags),
    if_neg (not_not.mpr rfl), if_pos (by rw [hbody]; omega)]

end KvStore
