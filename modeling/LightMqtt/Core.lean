import Mathlib.Data.Int.DivMod
import Mathlib.Data.List.Nodup
import Mathlib.Data.List.TakeDrop
import Mathlib.Data.Nat.Notation
import Mathlib.Logic.Function.Basic
import Mathlib.Logic.Relation
import Mathlib.Algebra.Order.Ring.Int
import Mathlib.Tactic.Common

/-!
# Basic types (`core.h`, `types.h`, `time.c`)

Results, error numbers, packet kinds and packet types of the client library,
and the clock arithmetic of `lmqtt_time_t`. `long` and `size_t` are the 64-bit
types of the LP64 platforms the library is built for.
-/

namespace LightMqtt

abbrev Byte := UInt8

/- `lmqtt_packet_id_t`, an unsigned short that wraps. -/
abbrev PacketId := UInt16

/- A pointer to an object of the application; 0 is NULL. Connect, subscribe
   and publish objects live in separate address spaces (`Heap`). -/
abbrev Ptr := ℕ

inductive IoResult
  | success | wouldBlock | error
  deriving DecidableEq, Repr

inductive IoStatus
  | ready | blockConn | blockData | error
  deriving DecidableEq, Repr

inductive EncodeResult
  | finished | continue | wouldBlock | error
  deriving DecidableEq, Repr

inductive DecodeResult
  | finished | continue | wouldBlock | error
  deriving DecidableEq, Repr

inductive AllocateResult
  | success | ignore | error
  deriving DecidableEq, Repr

inductive StringResult
  | success | wouldBlock | osError | invalidObject
  deriving DecidableEq, Repr

/-- `lmqtt_error_t`, in the order of the C enumeration (which starts at 1). -/
inductive Error
  | encodeString
  | decodeFixedHeaderInvalidType
  | decodeFixedHeaderInvalidFlags
  | decodeFixedHeaderInvalidRemainingLength
  | decodeFixedHeaderServerSpecific
  | decodeNonzeroRemainingLength
  | decodeNoCorrespondingRequest
  | decodeResponseTooShort
  | decodeConnackInvalidAcknowledgeFlags
  | decodeConnackInvalidReturnCode
  | decodeConnackInvalidLength
  | decodeSubackCountMismatch
  | decodeSubackInvalidReturnCode
  | decodePublishInvalidLength
  | decodePublishIdSetFull
  | decodePublishTopicAllocateFailed
  | decodePublishTopicWriteFailed
  | decodePublishPayloadAllocateFailed
  | decodePublishPayloadWriteFailed
  | decodePublishMessageCallbackFailed
  | decodePubrelIdSetFull
  | connectionRead
  | connectionWrite
  | timeout
  | closed
  | connackUnacceptableProtocolVersion
  | connackIdentifierRejected
  | connackServerUnavailable
  | connackBadUserNameOrPassword
  | connackNotAuthorized
  | callbackConnack
  | callbackSuback
  | callbackUnsuback
  | callbackPublish
  deriving DecidableEq, Repr

/- The number `lmqtt_client_run_once` reports for an error. -/
def Error.code (e : Error) : ℕ := e.ctorIdx + 1

/- `LMQTT_ERROR_CALLBACK_*`: a callback of the application returned 0. -/
def Error.ofCallback : Error → Bool
  | .callbackConnack | .callbackSuback | .callbackUnsuback | .callbackPublish => true
  | _ => false

/- `LMQTT_ERROR_CONNACK_BASE + b` for the return codes 1 to 5. -/
def connackError : ℕ → Error
  | 1 => .connackUnacceptableProtocolVersion
  | 2 => .connackIdentifierRejected
  | 3 => .connackServerUnavailable
  | 4 => .connackBadUserNameOrPassword
  | _ => .connackNotAuthorized

/-- `lmqtt_kind_t`, the kind of a stored packet. -/
inductive Kind
  | connect | publish0 | publish1 | publish2 | puback | pubrec | pubrel | pubcomp
  | subscribe | unsubscribe | pingreq | disconnect
  deriving DecidableEq, Repr

/- `kind_expects_response` -/
def Kind.expectsResponse : Kind → Bool
  | .publish0 | .puback | .pubrec | .pubcomp | .disconnect => false
  | _ => true

/- Kinds whose packet id names a request of this client that is in flight. -/
def Kind.inFlight : Kind → Bool
  | .subscribe | .unsubscribe | .publish1 | .publish2 | .pubrel => true
  | _ => false

/- Packet types of the fixed header (`LMQTT_TYPE_*`). -/
def typeConnect : ℕ := 1
def typePublish : ℕ := 3
def typePuback : ℕ := 4
def typePubrec : ℕ := 5
def typePubrel : ℕ := 6
def typePubcomp : ℕ := 7
def typeSubscribe : ℕ := 8
def typeSuback : ℕ := 9
def typeUnsubscribe : ℕ := 10
def typeUnsuback : ℕ := 11
def typePingreq : ℕ := 12
def typeDisconnect : ℕ := 14

/-! ### Machine integers -/

/-- The value a sum has once it is stored in a `long`. -/
def toLong (x : ℤ) : ℤ := Int.bmod x (2^64)

/-- The value a `long` has once it is converted to `size_t`. -/
def toSize (x : ℤ) : ℕ := (x % 2^64).toNat

theorem toLong_of_bounds (x : ℤ) (hl : -(2^63) ≤ x) (hu : x < 2^63) : toLong x = x := by
  unfold toLong
  rw [Int.bmod_eq_of_le] <;> omega

theorem toSize_of_bounds (x : ℤ) (hl : 0 ≤ x) (hu : x < 2^64) : toSize x = x.toNat := by
  unfold toSize
  rw [Int.emod_eq_of_lt hl hu]

theorem toSize_natCast (n : ℕ) (hn : n < 2^64) : toSize n = n := by
  rw [toSize_of_bounds n (by omega) (by omega)]
  rfl

/-- `STRING_LEN_BYTE`: byte `num` of a value, counted from the lowest. -/
def stringLenByte (val : ℤ) (num : ℕ) : Byte := UInt8.ofNat ((val / 256^num) % 256).toNat

/-! ### Clock readings (`time.c`) -/

/-- `lmqtt_time_t` -/
structure Time where
  secs : ℤ := 0
  nsecs : ℤ := 0
  deriving DecidableEq, Repr

/-- `lmqtt_time_get_timeout_to` at the clock reading `cur`, each sum stored in a
`long`: whether there is a timeout, and the seconds and nanoseconds left of it. -/
def timeGetTimeoutTo (tm cur : Time) (after : UInt16) : Bool × ℤ × ℤ :=
  if after = 0 then (false, 0, 0)
  else
    let borrow := tm.nsecs < cur.nsecs
    let nsecs := if borrow then toLong (tm.nsecs + 10^9) else tm.nsecs
    let secs := if borrow then toLong (toLong (tm.secs + after.toNat) - 1) else toLong (tm.secs + after.toNat)
    if cur.secs ≤ secs then (true, toLong (secs - cur.secs), toLong (nsecs - cur.nsecs)) else (true, 0, 0)

end LightMqtt
