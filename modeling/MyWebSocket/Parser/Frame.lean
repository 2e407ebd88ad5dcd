import Mathlib.Algebra.GroupWithZero.Nat
import Mathlib.Data.List.Basic
import Mathlib.Data.Fintype.Basic
import Mathlib.Tactic.Common

namespace MyWebSocket

/-!
# WebSocket parser: the data model

The types of `websocket_parser.h` and the byte macros of `websocket_parser.cpp`.

* `WsCode`, `WsParseErr` are the enumerations of the header;
* `WsFrame` is the frame record the caller passes to `parse`;
* `Parser` is the state of a `websocket_parser` between two calls;
* `ParseState` pairs the two, because every branch of `parse` writes both.

`size_t` counters are `Nat`; the one expression that could leave 64 bits, the shift that
assembles an extended length, wraps explicitly (`pushLenByte`).
-/

/-- `LIMIT_PAYLOAD_LEN`. -/
def limitPayloadLen : Nat := 1024 * 1024

/-- `WsCode`: the opcodes the repository names. -/
inductive WsCode
  | continuation
  | text
  | binary
  | close
  | ping
  | pong
deriving DecidableEq, Repr

/-- The value of a `WsCode` enumerator. -/
def WsCode.code : WsCode → UInt8
  | .continuation => 0x0
  | .text => 0x1
  | .binary => 0x2
  | .close => 0x8
  | .ping => 0x9
  | .pong => 0xA

/-- `WsParseErr`. -/
inductive WsParseErr
  | success
  | notCompleted
  | invalidFrame
  | invalidOpcode
  | invalidPayloadLen
  | invalidMask
deriving DecidableEq, Repr

/-- `WsFrame`. -/
structure WsFrame where
  fin : Bool
  rsv : UInt8
  opcode : UInt8
  mask : Bool
  payloadLen : Nat
  maskKey : List UInt8
  payload : List UInt8
deriving DecidableEq, Repr

/-- A `WsFrame` as its member initialisers leave it. -/
def WsFrame.init : WsFrame :=
  { fin := false, rsv := 0, opcode := 0, mask := false, payloadLen := 0, maskKey := [],
    payload := [] }

/-- `websocket_parser::Status`. -/
inductive Status
  | finAndOpcode
  | payloadLenAndMask
  | payloadLen
  | maskKey
  | payload
  | complete
deriving DecidableEq, Repr

/-- The fields of a `websocket_parser` that live from one call of `parse` to the next.
    The completion callback is not one of them: it is set once, before any byte arrives. -/
structure Parser where
  status : Status
  byteNeed : Nat
  isContinuation : Bool
  maskIndex : Nat
deriving DecidableEq, Repr

/-- `websocket_parser::websocket_parser`. -/
def Parser.init : Parser :=
  { status := .finAndOpcode, isContinuation := false, byteNeed := 1, maskIndex := 0 }

/-- A parser together with the frame it fills in. -/
structure ParseState where
  parser : Parser
  frame : WsFrame
deriving DecidableEq, Repr

/-- A fresh parser about to fill in `frame`. -/
def ParseState.init (frame : WsFrame) : ParseState := ⟨Parser.init, frame⟩

/-! ### The byte macros -/

/-- `GET_FIN`. -/
def getFin (ch : UInt8) : Bool := ch &&& 0x80 != 0

/-- `GET_RSV`. -/
def getRsv (ch : UInt8) : UInt8 := (ch &&& 0x70) >>> 4

/-- `GET_OPCODE`. -/
def getOpcode (ch : UInt8) : UInt8 := ch &&& 0x0F

/-- `GET_MASK`. -/
def getMask (ch : UInt8) : Bool := ch &&& 0x80 != 0

/-- `GET_PAYLOAD_LEN`. -/
def getPayloadLen (ch : UInt8) : Nat := (ch &&& 0x7F).toNat

/-- `(payload_len << 8) | byte` on a 64-bit `size_t`. -/
def pushLenByte (n : Nat) (ch : UInt8) : Nat := (n <<< 8) % 2 ^ 64 ||| ch.toNat

/-- As long as the shift stays within 64 bits, a length byte is one more base-256 digit. -/
theorem pushLenByte_eq {n : Nat} (h : n < 2 ^ 56) (ch : UInt8) :
    pushLenByte n ch = n * 256 + ch.toNat := by
  have hch : ch.toNat < 2 ^ 8 := ch.toNat_lt
  have hmul : n <<< 8 = 2 ^ 8 * n := by rw [Nat.shiftLeft_eq, Nat.mul_comm]
  rw [pushLenByte, hmul, Nat.mod_eq_of_lt (by omega), ← Nat.two_pow_add_eq_or_of_lt hch]
  omega

end MyWebSocket
