import LightMqtt.Store

/-!
# Objects of the application (`packet.h`) and their validation

Strings, and the connect, subscribe and publish objects the application hands
to the client by pointer. The client writes to them while it encodes and
decodes, so they live in a heap.
-/

namespace LightMqtt

/-- `lmqtt_string_t`. `read` and `write` say whether the callback is set; which
one it is and what it works on is the number `data`. `pos` is `internal.pos`. -/
structure LString where
  len : ℤ := 0
  buf : Option (List Byte) := none
  data : ℕ := 0
  read : Bool := false
  write : Bool := false
  pos : ℕ := 0
  deriving DecidableEq, Repr

/-- `lmqtt_connect_t` -/
structure Connect where
  keepAlive : UInt16 := 0
  cleanSession : Bool := false
  willQos : ℕ := 0
  willRetain : Bool := false
  clientId : LString := {}
  willTopic : LString := {}
  willMessage : LString := {}
  userName : LString := {}
  password : LString := {}
  sessionPresent : Byte := 0
  deriving DecidableEq, Repr

/-- `lmqtt_subscription_t` -/
structure Subscription where
  requestedQos : ℕ := 0
  topic : LString := {}
  returnCode : Byte := 0
  deriving DecidableEq, Repr

/-- `lmqtt_subscribe_t`. The array is NULL when the list is empty; `current` is
the index `internal.current` points to. -/
structure Subscribe where
  count : ℤ := 0
  subscriptions : List Subscription := []
  current : Option ℕ := none
  deriving DecidableEq, Repr

/-- `lmqtt_publish_t` -/
structure Publish where
  qos : ℕ := 0
  retain : Bool := false
  topic : LString := {}
  payload : LString := {}
  encodeCount : ℕ := 0
  deriving DecidableEq, Repr

structure Heap where
  connects : Ptr → Connect := fun _ => {}
  subscribes : Ptr → Subscribe := fun _ => {}
  publishes : Ptr → Publish := fun _ => {}

/- A pointer to a string of an object, or of the message being received. -/
inductive StrRef
  | connectClientId (p : Ptr) | connectWillTopic (p : Ptr) | connectWillMessage (p : Ptr)
  | connectUserName (p : Ptr) | connectPassword (p : Ptr)
  | subscriptionTopic (p : Ptr) (i : ℕ)
  | publishTopic (p : Ptr) | publishPayload (p : Ptr)
  | rxTopic | rxPayload
  deriving DecidableEq, Repr

namespace Heap

def setConnect (h : Heap) (p : Ptr) (c : Connect) : Heap :=
  { h with connects := Function.update h.connects p c }
def setSubscribe (h : Heap) (p : Ptr) (s : Subscribe) : Heap :=
  { h with subscribes := Function.update h.subscribes p s }
def setPublish (h : Heap) (p : Ptr) (b : Publish) : Heap :=
  { h with publishes := Function.update h.publishes p b }

def subscription (h : Heap) (p : Ptr) (i : ℕ) : Subscription := (h.subscribes p).subscriptions.getD i {}
def modifySubscription (h : Heap) (p : Ptr) (i : ℕ) (f : Subscription → Subscription) : Heap :=
  h.setSubscribe p { h.subscribes p with subscriptions := (h.subscribes p).subscriptions.modify i f }

end Heap

/-! ### Lengths and validation -/

/- `string_calc_field_length` -/
def stringCalcFieldLength (s : LString) : ℤ := if 0 < s.len then 2 + s.len else 0

/- `string_validate_field_length` -/
def stringValidateFieldLength (s : LString) : Bool := 0 ≤ s.len && s.len ≤ 0xffff

/- `IS_VALID_LMQTT_QOS` -/
def isValidQos (q : ℕ) : Bool := q ≤ 2

/- `connect_calc_remaining_length` -/
def connectCalcRemainingLength (c : Connect) : ℤ :=
  toLong (10 + 2 + c.clientId.len + stringCalcFieldLength c.willTopic +
    stringCalcFieldLength c.willMessage + stringCalcFieldLength c.userName +
    stringCalcFieldLength c.password)

/- `lmqtt_connect_validate` -/
def connectValidate (c : Connect) : Bool :=
  if !stringValidateFieldLength c.clientId || !stringValidateFieldLength c.willTopic ||
      !stringValidateFieldLength c.willMessage || !stringValidateFieldLength c.userName ||
      !stringValidateFieldLength c.password then false
  else if xor (c.willTopic.len = 0) (c.willMessage.len = 0) then false
  else if c.willTopic.len = 0 && c.willRetain then false
  else if c.clientId.len = 0 && !c.cleanSession then false
  else if c.userName.len = 0 && c.password.len ≠ 0 then false
  else isValidQos c.willQos

/- `subscribe_calc_remaining_length` -/
def subscribeCalcRemainingLength (s : Subscribe) (includeQos : Bool) : ℤ :=
  toLong (2 + ((List.range s.count.toNat).map fun i =>
    (s.subscriptions.getD i {}).topic.len + 2 + if includeQos then 1 else 0).sum)

/- `lmqtt_subscribe_validate` -/
def subscribeValidate (s : Subscribe) : Bool :=
  if s.count = 0 || s.subscriptions.isEmpty then false
  else (List.range s.count.toNat).all fun i =>
    let sub := s.subscriptions.getD i {}
    stringValidateFieldLength sub.topic && sub.topic.len ≠ 0 && isValidQos sub.requestedQos

/- `publish_calc_remaining_length` -/
def publishCalcRemainingLength (b : Publish) : ℤ :=
  toLong (2 + b.topic.len + (if b.qos = 0 then 0 else 2) + b.payload.len)

/- `lmqtt_publish_validate` -/
def publishValidate (b : Publish) : Bool :=
  stringValidateFieldLength b.topic && 0 < b.topic.len && isValidQos b.qos &&
    publishCalcRemainingLength b ≤ 0xfffffff

end LightMqtt
