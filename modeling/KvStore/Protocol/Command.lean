import KvStore.Common.Codec
import KvStore.Protocol.Codes

/-!
# Request bodies

Model of `DecodeCommand` and `EncodeCommand` in `internal/protocol/command.go`: the
decoder reads the fields of the opcode through a cursor whose error is sticky and then
checks that nothing is left; the encoder appends the same fields. The layout of each
opcode's fields is `commandCodec`, and both functions are shown to follow it.

* `command_codec_bijective`: decoding undoes encoding and encoding undoes decoding, no two
  bodies decode to one command, and no extension or proper prefix of a body that
  decodes does.
-/

namespace KvStore

open KvStore.Common

/-- `Command` (lines 14–32). -/
structure Command where
  op : Opcode
  key : Bytes := []
  value : Bytes := []
  ttlMillis : UInt64 := 0
  limit : UInt32 := 0
  fromLSN : UInt64 := 0
  nodeID : Bytes := []
  nodePort : UInt16 := 0
  deriving DecidableEq, Repr

/-! ## The cursor -/

/-- `cursor` (lines 36–40); the only error it can hold is `ErrTruncated`. -/
structure Cursor where
  b : Bytes
  off : ℕ := 0
  err : Bool := false

namespace Cursor

/-- `fail` (line 42). -/
def fail (c : Cursor) : Cursor := { c with err := true }

/-- `remaining` (line 44). -/
def remaining (c : Cursor) : ℕ := c.b.length - c.off

/-- The common body of `u8`, `u16`, `u32` and `u64`. -/
def uint (w : ℕ) (c : Cursor) : ℕ × Cursor :=
  if c.err = true ∨ c.remaining < w then (0, c.fail)
  else (leNat ((c.b.drop c.off).take w), { c with off := c.off + w })

/-- `u16` (lines 56–64). -/
def u16 (c : Cursor) : UInt16 × Cursor := ((c.uint 2).map UInt16.ofNat id)

/-- `u32` (lines 66–74). -/
def u32 (c : Cursor) : UInt32 × Cursor := ((c.uint 4).map UInt32.ofNat id)

/-- `u64` (lines 76–84). -/
def u64 (c : Cursor) : UInt64 × Cursor := ((c.uint 8).map UInt64.ofNat id)

/-- `bytes` (lines 90–98); a length read from the wire is never negative. -/
def bytes (n : ℕ) (c : Cursor) : Bytes × Cursor :=
  if c.err = true ∨ c.remaining < n then ([], c.fail)
  else ((c.b.drop c.off).take n, { c with off := c.off + n })

/-- `c.bytes(int(c.u16()))`. -/
def bytes16 (c : Cursor) : Bytes × Cursor :=
  let (n, c) := c.u16
  c.bytes n.toNat

/-- `done` (lines 102–110). -/
def done (c : Cursor) : Option CodecError :=
  if c.err = true then some .truncated
  else if c.remaining ≠ 0 then some .trailingBytes
  else none

end Cursor

/-! ## Decoder and encoder -/

/-- The checks after the switch (lines 151–157). -/
def finishCommand (c : Cursor) (cmd : Command) : Except CodecError Command :=
  match c.done with
  | some e => .error e
  | none => if cmd.key.length > Protocol.maxKeyLen then .error .keyTooLong else .ok cmd

/-- `DecodeCommand` (lines 118–158). -/
def decodeCommand (code : UInt8) (body : Bytes) : Except CodecError Command :=
  let c : Cursor := { b := body }
  match Opcode.ofCode code with
  | none => .error .unknownOpcode
  | some op =>
    match op with
    | .ping | .stats | .flush | .snapshot | .promote => finishCommand c { op }
    | .get | .delete | .exists_ | .ttl =>
      let (key, c) := c.bytes16
      finishCommand c { op, key }
    | .set =>
      let (key, c) := c.bytes16
      let (vlen, c) := c.u32
      if vlen.toNat > maxValueLen then .error .valueTooLong
      else
        let (value, c) := c.bytes vlen.toNat
        let (ttlMillis, c) := c.u64
        finishCommand c { op, key, value, ttlMillis }
    | .expire =>
      let (key, c) := c.bytes16
      let (ttlMillis, c) := c.u64
      finishCommand c { op, key, ttlMillis }
    | .keys =>
      let (key, c) := c.bytes16
      let (limit, c) := c.u32
      finishCommand c { op, key, limit }
    | .replConf =>
      let (nodeID, c) := c.bytes16
      let (nodePort, c) := c.u16
      finishCommand c { op, nodeID, nodePort }
    | .sync | .replAck =>
      let (fromLSN, c) := c.u64
      finishCommand c { op, fromLSN }

/-- `appendU16`, `appendU32` and `appendU64` (lines 314–328). -/
def appendUint (w : ℕ) (dst : Bytes) (n : ℕ) : Bytes := dst ++ putLE w n

def appendU16 (dst : Bytes) (n : ℕ) : Bytes := appendUint 2 dst n

def appendU32 (dst : Bytes) (n : ℕ) : Bytes := appendUint 4 dst n

def appendU64 (dst : Bytes) (n : ℕ) : Bytes := appendUint 8 dst n

/-- `EncodeCommand` (lines 185–220). -/
def encodeCommand (dst : Bytes) (cmd : Command) : Bytes :=
  match cmd.op with
  | .ping | .stats | .flush | .snapshot | .promote => dst
  | .get | .delete | .exists_ | .ttl => appendU16 dst cmd.key.length ++ cmd.key
  | .set =>
    let dst := appendU16 dst cmd.key.length ++ cmd.key
    let dst := appendU32 dst cmd.value.length ++ cmd.value
    appendU64 dst cmd.ttlMillis.toNat
  | .expire => appendU64 (appendU16 dst cmd.key.length ++ cmd.key) cmd.ttlMillis.toNat
  | .keys => appendU32 (appendU16 dst cmd.key.length ++ cmd.key) cmd.limit.toNat
  | .replConf => appendU16 (appendU16 dst cmd.nodeID.length ++ cmd.nodeID) cmd.nodePort.toNat
  | .sync | .replAck => appendU64 dst cmd.fromLSN.toNat

/-! ## The layouts -/

/-- A byte string after its `u16` length. -/
def bytes16Codec : Codec Bytes := Codec.counted (Codec.word 2)

/-- A value after its `u32` length, which is at most `MaxValueLen`. -/
def valueCodec : Codec Bytes := Codec.counted ((Codec.word 4).filter fun n => n ≤ maxValueLen)

/-- The fields of a request body, by opcode. -/
def commandCodec (op : Opcode) : Codec Command :=
  match op with
  | .ping | .stats | .flush | .snapshot | .promote =>
    Codec.unit.map (fun _ => { op }) (fun _ => ()) fun _ _ => rfl
  | .get | .delete | .exists_ | .ttl =>
    bytes16Codec.map (fun key => { op, key }) (fun cmd => cmd.key) fun _ _ => rfl
  | .set =>
    (bytes16Codec.pair (valueCodec.pair Codec.u64)).map
      (fun x => { op, key := x.1, value := x.2.1, ttlMillis := x.2.2 })
      (fun cmd => (cmd.key, cmd.value, cmd.ttlMillis)) fun _ _ => rfl
  | .expire =>
    (bytes16Codec.pair Codec.u64).map (fun x => { op, key := x.1, ttlMillis := x.2 })
      (fun cmd => (cmd.key, cmd.ttlMillis)) fun _ _ => rfl
  | .keys =>
    (bytes16Codec.pair Codec.u32).map (fun x => { op, key := x.1, limit := x.2 })
      (fun cmd => (cmd.key, cmd.limit)) fun _ _ => rfl
  | .replConf =>
    (bytes16Codec.pair Codec.u16).map (fun x => { op, nodeID := x.1, nodePort := x.2 })
      (fun cmd => (cmd.nodeID, cmd.nodePort)) fun _ _ => rfl
  | .sync | .replAck =>
    Codec.u64.map (fun fromLSN => { op, fromLSN }) (fun cmd => cmd.fromLSN) fun _ _ => rfl

/-- The command with only the fields its opcode has. -/
def Command.ofOpcode (cmd : Command) : Command :=
  match cmd.op with
  | .ping | .stats | .flush | .snapshot | .promote => { op := cmd.op }
  | .get | .delete | .exists_ | .ttl => { op := cmd.op, key := cmd.key }
  | .set => { op := cmd.op, key := cmd.key, value := cmd.value, ttlMillis := cmd.ttlMillis }
  | .expire => { op := cmd.op, key := cmd.key, ttlMillis := cmd.ttlMillis }
  | .keys => { op := cmd.op, key := cmd.key, limit := cmd.limit }
  | .replConf => { op := cmd.op, nodeID := cmd.nodeID, nodePort := cmd.nodePort }
  | .sync | .replAck => { op := cmd.op, fromLSN := cmd.fromLSN }

/-- The lengths that fit their fields. -/
structure Command.Fits (cmd : Command) : Prop where
  key : cmd.key.length ≤ Protocol.maxKeyLen
  nodeID : cmd.nodeID.length ≤ Protocol.maxKeyLen
  value : cmd.value.length ≤ maxValueLen

theorem bytes16Codec_valid {b : Bytes} :
    bytes16Codec.Valid b ↔ b.length ≤ Protocol.maxKeyLen := by
  rw [bytes16Codec, Codec.counted_valid]
  show b.length < 256 ^ 2 ↔ b.length ≤ 2 ^ 16 - 1
  omega

theorem valueCodec_valid {b : Bytes} (h : b.length ≤ maxValueLen) : valueCodec.Valid b := by
  rw [valueCodec, Codec.counted_valid]
  refine ⟨?_, decide_eq_true h⟩
  show b.length < 256 ^ 4
  unfold maxValueLen at h
  omega

/-- `EncodeCommand` writes the layout. -/
theorem encodeCommand_eq (dst : Bytes) (cmd : Command) :
    encodeCommand dst cmd = dst ++ (commandCodec cmd.op).encode cmd := by
  obtain ⟨op⟩ := cmd
  cases op <;>
    simp [encodeCommand, commandCodec, Codec.map, Codec.unit, Codec.pair, Codec.bind,
      bytes16Codec, valueCodec, Codec.counted, Codec.filter, Codec.word, Codec.raw, Codec.u16,
      Codec.u32, Codec.u64, appendU16, appendU32, appendU64, appendUint]

theorem commandCodec_valid {cmd : Command} (h : cmd.Fits) :
    (commandCodec cmd.op).Valid cmd.ofOpcode := by
  have hkey := bytes16Codec_valid.mpr h.key
  have hnode := bytes16Codec_valid.mpr h.nodeID
  have hvalue := valueCodec_valid h.value
  obtain ⟨op⟩ := cmd
  cases op with
  | ping | stats | flush | snapshot | promote => exact ⟨trivial, rfl⟩
  | get | delete | exists_ | ttl => exact ⟨hkey, rfl⟩
  | set => exact ⟨⟨hkey, hvalue, Codec.u64_valid _⟩, rfl⟩
  | expire => exact ⟨⟨hkey, Codec.u64_valid _⟩, rfl⟩
  | keys => exact ⟨⟨hkey, Codec.u32_valid _⟩, rfl⟩
  | replConf => exact ⟨⟨hnode, Codec.u16_valid _⟩, rfl⟩
  | sync | replAck => exact ⟨Codec.u64_valid _, rfl⟩

/-- What the layout of an opcode encodes is a command of that opcode. -/
theorem op_of_commandCodec_valid {op : Opcode} {cmd : Command} (h : (commandCodec op).Valid cmd) :
    cmd.op = op := by
  cases op <;> exact (congrArg Command.op h.2).symm

theorem key_of_commandCodec_valid {op : Opcode} {cmd : Command} (h : (commandCodec op).Valid cmd) :
    cmd.key.length ≤ Protocol.maxKeyLen := by
  cases op with
  | ping | stats | flush | snapshot | promote | replConf | sync | replAck =>
    rw [← h.2]
    exact Nat.zero_le _
  | get | delete | exists_ | ttl => exact bytes16Codec_valid.mp h.1
  | set | expire | keys => exact bytes16Codec_valid.mp h.1.1

/-! ## The cursor follows the layout -/

namespace Cursor

variable {α β : Type}

/-- The bytes in front of the cursor, unless a read has failed. -/
def left (c : Cursor) : Option Bytes := if c.err = true then none else some (c.b.drop c.off)

/-- A read of the cursor that does what the reader of a codec does: the value and the rest when
    that succeeds, the sticky error otherwise. -/
def Follows (r : α × Cursor) (c : Cursor) (k : Codec α) : Prop :=
  r.2.left.map (fun rest => (r.1, rest)) = c.left.bind k.read

theorem follows_unit (c : Cursor) : Follows ((), c) c Codec.unit := by
  unfold Follows
  cases c.left <;> rfl

theorem length_left {c : Cursor} {l : Bytes} (h : c.left = some l) : l.length = c.remaining := by
  unfold left at h
  split_ifs at h
  cases h
  exact List.length_drop

theorem follows_uint (w : ℕ) (c : Cursor) : Follows (c.uint w) c (Codec.word w) := by
  unfold Follows uint
  by_cases herr : c.err = true
  · simp [left, fail, herr]
  · have hleft : c.left = some (c.b.drop c.off) := if_neg herr
    rw [hleft, Option.bind_some]
    show _ = if (c.b.drop c.off).length < w then _ else _
    rw [length_left hleft]
    by_cases hlen : c.remaining < w
    · rw [if_pos (.inr hlen), if_pos hlen]
      rfl
    · rw [if_neg (by tauto), if_neg hlen, List.drop_drop]
      simp [left, herr]

theorem follows_bytes (n : ℕ) (c : Cursor) : Follows (c.bytes n) c (Codec.raw n) := by
  unfold Follows bytes
  by_cases herr : c.err = true
  · simp [left, fail, herr]
  · have hleft : c.left = some (c.b.drop c.off) := if_neg herr
    rw [hleft, Option.bind_some]
    show _ = if (c.b.drop c.off).length < n then _ else _
    rw [length_left hleft]
    by_cases hlen : c.remaining < n
    · rw [if_pos (.inr hlen), if_pos hlen]
      rfl
    · rw [if_neg (by tauto), if_neg hlen, List.drop_drop]
      simp [left, herr]

theorem Follows.map {r : α × Cursor} {c : Cursor} {k : Codec α} {f : α → β} {g : β → α}
    {hgf : ∀ a, k.Valid a → g (f a) = a} {s : β × Cursor} (h : Follows r c k)
    (hs : s = (f r.1, r.2)) : Follows s c (k.map f g hgf) := by
  have hmap := congrArg (Option.map fun p : α × Bytes => (f p.1, p.2)) h
  rw [Option.map_map, Option.map_bind] at hmap
  rw [hs]
  exact hmap

theorem Follows.bind {r : α × Cursor} {c : Cursor} {k : Codec α} {r' : β × Cursor}
    {d : α → Codec β} (h : Follows r c k) (h' : Follows r' r.2 (d r.1)) :
    Follows ((r.1, r'.1), r'.2) c (k.bind d) := by
  have hbind := congrArg (fun o : Option (α × Bytes) =>
    o.bind fun p => ((d p.1).read p.2).map fun q => ((p.1, q.1), q.2)) h
  have hmap := congrArg (Option.map fun q : β × Bytes => ((r.1, q.1), q.2)) h'
  rw [Option.map_map, Option.map_bind] at hmap
  simp only [Option.bind_map, Option.bind_assoc] at hbind
  exact hmap.trans hbind

theorem Follows.pair {r : α × Cursor} {c : Cursor} {k : Codec α} {r' : β × Cursor} {d : Codec β}
    (h : Follows r c k) (h' : Follows r' r.2 d) : Follows ((r.1, r'.1), r'.2) c (k.pair d) :=
  h.bind h'

theorem Follows.filter {r : α × Cursor} {c : Cursor} {k : Codec α} (h : Follows r c k)
    {p : α → Bool} (hp : p r.1 = true) : Follows r c (k.filter p) := by
  unfold Follows at *
  cases hc : c.left with
  | none => rw [h, hc]; rfl
  | some l =>
    rw [hc, Option.bind_some] at h
    show _ = (k.read l).filter fun q => p q.1
    rw [← h]
    cases r.2.left with
    | none => rfl
    | some rest => exact (Option.filter_some_pos (p := fun q : α × Bytes => p q.1) hp).symm

theorem uint_lt (w : ℕ) (c : Cursor) : (c.uint w).1 < 256 ^ w := by
  unfold uint
  split_ifs with h
  · positivity
  · push Not at h
    have hlen : ((c.b.drop c.off).take w).length = w :=
      List.length_take_of_le (by rw [List.length_drop]; exact h.2)
    have hlt := leNat_lt ((c.b.drop c.off).take w)
    rwa [hlen] at hlt

theorem u16_toNat (c : Cursor) : c.u16.1.toNat = (c.uint 2).1 :=
  UInt16.toNat_ofNat_of_lt' (c.uint_lt 2)

theorem u32_toNat (c : Cursor) : c.u32.1.toNat = (c.uint 4).1 :=
  UInt32.toNat_ofNat_of_lt' (c.uint_lt 4)

theorem follows_u16 (c : Cursor) : Follows c.u16 c Codec.u16 := (follows_uint 2 c).map rfl

theorem follows_u32 (c : Cursor) : Follows c.u32 c Codec.u32 := (follows_uint 4 c).map rfl

theorem follows_u64 (c : Cursor) : Follows c.u64 c Codec.u64 := (follows_uint 8 c).map rfl

theorem Follows.counted {r : ℕ × Cursor} {c : Cursor} {k : Codec ℕ} (h : Follows r c k) :
    Follows (r.2.bytes r.1) c (Codec.counted k) := by
  unfold Codec.counted
  exact (h.bind (follows_bytes r.1 r.2)).map rfl

theorem follows_bytes16 (c : Cursor) : Follows c.bytes16 c bytes16Codec := by
  have hread := (follows_uint 2 c).counted
  rw [← u16_toNat] at hread
  exact hread

/-- The value of a SET, when its length passes the check. -/
theorem follows_value {c : Cursor} (h : ¬ c.u32.1.toNat > maxValueLen) :
    Follows (c.u32.2.bytes c.u32.1.toNat) c valueCodec := by
  rw [u32_toNat] at h ⊢
  have hlen := (follows_uint 4 c).filter (p := fun n => n ≤ maxValueLen)
    (decide_eq_true (not_lt.mp h))
  exact hlen.counted

/-- A value whose length does not pass the check is not read. -/
theorem valueCodec_none {c : Cursor} (h : c.u32.1.toNat > maxValueLen) :
    c.left.bind valueCodec.read = none := by
  rw [u32_toNat] at h
  have hlen := follows_uint 4 c
  unfold Follows at hlen
  cases hc : c.left with
  | none => rfl
  | some l =>
    rw [hc, Option.bind_some] at hlen
    have hnone : ((Codec.word 4).filter fun n => n ≤ maxValueLen).read l = none := by
      show ((Codec.word 4).read l).filter (fun q => decide (q.1 ≤ maxValueLen)) = none
      rw [← hlen]
      cases (c.uint 4).2.left with
      | none => rfl
      | some rest => exact Option.filter_some_neg (by simpa using h)
    show ((((Codec.word 4).filter fun n => n ≤ maxValueLen).read l).bind _).map _ = none
    rw [hnone]
    rfl

theorem done_eq_none {c : Cursor} : c.done = none ↔ c.left = some [] := by
  unfold done left remaining
  by_cases herr : c.err = true
  · simp [herr]
  · simp [herr, List.drop_eq_nil_iff, Nat.sub_eq_zero_iff_le]

end Cursor

/-! ## Decoder and layout -/

theorem finishCommand_eq_ok {c : Cursor} {cmd cmd' : Command} :
    finishCommand c cmd = .ok cmd' ↔
      c.left = some [] ∧ cmd.key.length ≤ Protocol.maxKeyLen ∧ cmd = cmd' := by
  unfold finishCommand
  rw [← Cursor.done_eq_none]
  cases c.done with
  | some e => simp
  | none =>
    dsimp only
    split_ifs with h
    · simp; omega
    · simp; omega

/-- Fields read as the layout of an opcode says are accepted when it reads the whole body. -/
theorem Cursor.Follows.finish {op : Opcode} {body : Bytes} {cmd cmd' : Command} {c : Cursor}
    (h : Cursor.Follows (cmd, c) { b := body } (commandCodec op)) :
    finishCommand c cmd = .ok cmd' ↔ (commandCodec op).read body = some (cmd', []) := by
  have hread : (commandCodec op).read body = c.left.map fun rest => (cmd, rest) := h.symm
  rw [finishCommand_eq_ok, hread]
  constructor
  · rintro ⟨hleft, -, rfl⟩
    rw [hleft]
    rfl
  · intro hsome
    obtain ⟨rest, hleft, heq⟩ := Option.map_eq_some_iff.mp hsome
    cases heq
    have hvalid := ((commandCodec op).of_read (hread.trans hsome)).1
    exact ⟨hleft, key_of_commandCodec_valid hvalid, rfl⟩

/-- A SET whose value length does not pass the check. -/
theorem read_set_none {body : Bytes}
    (h : (Cursor.bytes16 { b := body }).2.u32.1.toNat > maxValueLen) :
    (commandCodec .set).read body = none := by
  have hkey : bytes16Codec.read body = (Cursor.bytes16 { b := body }).2.left.map
      fun rest => ((Cursor.bytes16 { b := body }).1, rest) :=
    (Cursor.follows_bytes16 { b := body }).symm
  have hvalue := Cursor.valueCodec_none h
  show (((bytes16Codec.read body).bind fun p => (((valueCodec.read p.2).bind _).map _)).map _) = none
  rw [hkey]
  cases hleft : (Cursor.bytes16 { b := body }).2.left with
  | none => rfl
  | some l =>
    rw [hleft, Option.bind_some] at hvalue
    rw [Option.map_some, Option.bind_some, hvalue]
    rfl

/-- `DecodeCommand` accepts a body exactly when the layout of its opcode reads all of it. -/
theorem decodeCommand_eq_ok {code : UInt8} {body : Bytes} {cmd : Command} :
    decodeCommand code body = .ok cmd ↔
      ∃ op, Opcode.ofCode code = some op ∧ (commandCodec op).read body = some (cmd, []) := by
  unfold decodeCommand
  cases hop : Opcode.ofCode code with
  | none => simp
  | some op =>
    simp only [Option.some.injEq, exists_eq_left']
    cases op with
    | ping | stats | flush | snapshot | promote =>
      exact Cursor.Follows.finish ((Cursor.follows_unit _).map rfl)
    | get | delete | exists_ | ttl =>
      exact Cursor.Follows.finish ((Cursor.follows_bytes16 _).map rfl)
    | set =>
      dsimp only
      split_ifs with hlen
      · -- the check of the length stops here, and the layout does not read the body either
        rw [read_set_none hlen]
        simp
      · exact Cursor.Follows.finish (((Cursor.follows_bytes16 _).pair
          ((Cursor.follows_value hlen).pair (Cursor.follows_u64 _))).map rfl)
    | expire =>
      exact Cursor.Follows.finish
        (((Cursor.follows_bytes16 _).pair (Cursor.follows_u64 _)).map rfl)
    | keys =>
      exact Cursor.Follows.finish
        (((Cursor.follows_bytes16 _).pair (Cursor.follows_u32 _)).map rfl)
    | replConf =>
      exact Cursor.Follows.finish
        (((Cursor.follows_bytes16 _).pair (Cursor.follows_u16 _)).map rfl)
    | sync | replAck => exact Cursor.Follows.finish ((Cursor.follows_u64 _).map rfl)

/-- The fields an opcode does not have are not written. -/
theorem encodeCommand_ofOpcode (dst : Bytes) (cmd : Command) :
    encodeCommand dst cmd.ofOpcode = encodeCommand dst cmd := by
  obtain ⟨op⟩ := cmd
  cases op <;> rfl

theorem op_ofOpcode (cmd : Command) : cmd.ofOpcode.op = cmd.op := by
  obtain ⟨op⟩ := cmd
  cases op <;> rfl

theorem decodeCommand_encodeCommand {cmd : Command} (h : cmd.Fits) :
    decodeCommand cmd.op.code (encodeCommand [] cmd) = .ok cmd.ofOpcode := by
  rw [decodeCommand_eq_ok]
  refine ⟨cmd.op, Opcode.ofCode_code cmd.op, ?_⟩
  have hread := (commandCodec cmd.op).read_encode [] (commandCodec_valid h)
  rwa [← encodeCommand_ofOpcode, encodeCommand_eq, op_ofOpcode, List.nil_append,
    ← List.append_nil ((commandCodec cmd.op).encode _)]

theorem encodeCommand_decodeCommand {code : UInt8} {body : Bytes} {cmd : Command}
    (h : decodeCommand code body = .ok cmd) : encodeCommand [] cmd = body := by
  obtain ⟨op, -, hread⟩ := decodeCommand_eq_ok.mp h
  obtain ⟨hvalid, hbody⟩ := (commandCodec op).of_read hread
  rw [encodeCommand_eq, op_of_commandCodec_valid hvalid, hbody, List.append_nil, List.nil_append]

/-- Request bodies and the commands they stand for determine each other, for every opcode; and a
    body that decodes no longer does when bytes are appended to it or cut off its end. -/
theorem command_codec_bijective :
    (∀ cmd : Command, cmd.key.length ≤ 65535 → cmd.nodeID.length ≤ 65535 →
      cmd.value.length ≤ maxValueLen →
      decodeCommand cmd.op.code (encodeCommand [] cmd) = .ok cmd.ofOpcode) ∧
    (∀ code body cmd, decodeCommand code body = .ok cmd → encodeCommand [] cmd = body) ∧
    (∀ code body body' cmd, decodeCommand code body = .ok cmd →
      decodeCommand code body' = .ok cmd → body = body') ∧
    ∀ code body extra cmd cmd', extra ≠ [] → decodeCommand code body = .ok cmd →
      decodeCommand code (body ++ extra) ≠ .ok cmd' := by
  refine ⟨fun cmd hkey hnode hvalue => ?_, fun code body cmd h => ?_,
    fun code body body' cmd h h' => ?_, fun code body extra cmd cmd' hextra h h' => ?_⟩
  · exact decodeCommand_encodeCommand ⟨hkey, hnode, hvalue⟩
  · exact encodeCommand_decodeCommand h
  · rw [← encodeCommand_decodeCommand h, encodeCommand_decodeCommand h']
  · obtain ⟨op, hop, hread⟩ := decodeCommand_eq_ok.mp h
    obtain ⟨op', hop', hread'⟩ := decodeCommand_eq_ok.mp h'
    cases hop.symm.trans hop'
    exact (commandCodec op).read_append_ne hread hextra cmd' hread'

/-- A SET with a deadline, decoded and encoded again, and the same body with a byte too many. -/
theorem command_codec_bijective_set :
    decodeCommand 0x03 [1, 0, 7, 2, 0, 0, 0, 8, 9, 100, 0, 0, 0, 0, 0, 0, 0] =
      .ok { op := .set, key := [7], value := [8, 9], ttlMillis := 100 } ∧
    ∀ cmd', decodeCommand 0x03 ([1, 0, 7, 2, 0, 0, 0, 8, 9, 100, 0, 0, 0, 0, 0, 0, 0] ++ [0]) ≠
      .ok cmd' := by
  have hdecode := command_codec_bijective.1
    { op := .set, key := [7], value := [8, 9], ttlMillis := 100 }
    (by decide) (by decide) (by decide)
  exact ⟨hdecode, fun cmd' => command_codec_bijective.2.2.2 _ _ [0] _ cmd' (by decide) hdecode⟩

end KvStore
