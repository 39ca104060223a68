import KvStore.Common.Bytes

/-!
# Opcodes, statuses, limits and errors of the wire protocol

Model of `internal/protocol/opcode.go`, `status.go`, `limits.go` and the errors of
`frame.go` (lines 10–29) and `command.go` (lines 175–182). The one byte of a header
that carries an opcode on a request and a status on a response is kept as a byte there;
`Opcode` and `Status` are the values this build knows.
-/

namespace KvStore

open KvStore.Common

/-! ## Opcodes -/

/-- `Opcode` (lines 7–27 of `opcode.go`), the valid ones. -/
inductive Opcode
  | ping
  | get
  | set
  | delete
  | exists_
  | expire
  | stats
  | ttl
  | flush
  | snapshot
  | keys
  | replConf
  | sync
  | replAck
  | promote
  deriving DecidableEq, Repr

/-- The byte an opcode is written as. -/
def Opcode.code : Opcode → UInt8
  | .ping => 0x01
  | .get => 0x02
  | .set => 0x03
  | .delete => 0x04
  | .exists_ => 0x05
  | .expire => 0x06
  | .stats => 0x07
  | .ttl => 0x08
  | .flush => 0x09
  | .snapshot => 0x0A
  | .keys => 0x0B
  | .replConf => 0x10
  | .sync => 0x11
  | .replAck => 0x12
  | .promote => 0x13

/-- Every opcode, in the order of the source. -/
def Opcode.all : List Opcode :=
  [.ping, .get, .set, .delete, .exists_, .expire, .stats, .ttl, .flush, .snapshot, .keys,
    .replConf, .sync, .replAck, .promote]

/-- The opcode of a header byte; `none` where `Valid` (lines 60–64) is false. -/
def Opcode.ofCode (b : UInt8) : Option Opcode := Opcode.all.find? fun op => op.code = b

@[simp] theorem Opcode.ofCode_code (op : Opcode) : Opcode.ofCode op.code = some op := by
  cases op <;> decide

theorem Opcode.code_of_ofCode {b : UInt8} {op : Opcode} (h : Opcode.ofCode b = some op) :
    op.code = b := by
  simpa using List.find?_some h

/-! ## Statuses -/

/-- `Status` (lines 7–22 of `status.go`). -/
inductive Status
  | ok
  | notFound
  | badRequest
  | tooLarge
  | oom
  | internal
  | readOnly
  | notLeader
  | protocolError
  deriving DecidableEq, Repr

/-- The byte a status is written as. -/
def Status.code : Status → UInt8
  | .ok => 0x00
  | .notFound => 0x01
  | .badRequest => 0x02
  | .tooLarge => 0x03
  | .oom => 0x04
  | .internal => 0x05
  | .readOnly => 0x06
  | .notLeader => 0x07
  | .protocolError => 0x80

/-- `Fatal` (line 50). -/
def Status.fatal (s : Status) : Bool := s = .protocolError

/-! ## Limits -/

/-- `MaxKeyLen`, `MaxValueLen` and `MaxFrameLen` (lines 18–29 of `limits.go`). -/
def Protocol.maxKeyLen : ℕ := 2 ^ 16 - 1

def maxValueLen : ℕ := 16 * 2 ^ 20

def maxFrameLen : ℕ := maxValueLen + Protocol.maxKeyLen + 64

/-- `HeaderLen`, `Magic` and `Version` (lines 32–39). -/
def headerLen : ℕ := 16

def magic : UInt16 := 0x564B

def protocolVersion : UInt8 := 0x01

/-- `FlagNoReply` and `AllFlags` (lines 43–53). -/
def flagNoReply : UInt16 := 1

def allFlags : UInt16 := flagNoReply

/-! ## Errors -/

/-- The errors of the codec (`frame.go`, lines 16–29; `command.go`, line 178). -/
inductive CodecError
  | badMagic
  | badVersion
  | reservedSet
  | unknownFlags
  | frameTooLarge
  | trailingBytes
  | truncated
  | keyTooLong
  | valueTooLong
  | unknownOpcode
  deriving DecidableEq, Repr

/-- Whether the error wraps `ErrProtocol`. -/
def CodecError.isProtocol (e : CodecError) : Bool := e ≠ .unknownOpcode

/-- `Error()`. -/
def CodecError.text : CodecError → String
  | .badMagic => "protocol error: bad magic"
  | .badVersion => "protocol error: unsupported version"
  | .reservedSet => "protocol error: reserved field is non-zero"
  | .unknownFlags => "protocol error: unknown flag bits set"
  | .frameTooLarge => "protocol error: body_len exceeds MaxFrameLen"
  | .trailingBytes => "protocol error: trailing bytes after body"
  | .truncated => "protocol error: truncated field"
  | .keyTooLong => "protocol error: key exceeds MaxKeyLen"
  | .valueTooLong => "protocol error: value exceeds MaxValueLen"
  | .unknownOpcode => "unknown opcode"

end KvStore
