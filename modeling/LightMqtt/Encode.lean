import LightMqtt.Session

/-!
# Encoding (`packet.c`, `lmqtt_tx_buffer_t`)

The builders of the headers, the string encoder, the finders that walk the
fields of a packet, and the loop that fills an output buffer from the store.
An output buffer is its free space `bufLen`; what is written to it is returned.
-/

namespace LightMqtt

variable {σ ρ : Type} [Reentrant ρ] (env : EnvOf σ ρ)

/-! ### Headers -/

/- The loop of `encode_remaining_length`. A `long` has at most 10 digits. -/
def remainingLengthDigits : ℕ → ℕ → List Byte
  | 0, _ => []
  | fuel+1, len =>
    if 0 < len / 128 then UInt8.ofNat (len % 128 + 128) :: remainingLengthDigits fuel (len / 128)
    else [UInt8.ofNat (len % 128)]

/- `encode_remaining_length` -/
def encodeRemainingLength (len : ℤ) : Prog σ (List Byte) := do
  assert env (0 ≤ len && len ≤ 0x0fffffff)
  pure (remainingLengthDigits 10 len.toNat)

/- The two bytes of a packet id. -/
def packetIdBytes (id : PacketId) : List Byte := [stringLenByte id.toNat 1, stringLenByte id.toNat 0]

/- `encode_buffer_encode_packet_id` -/
def encodeBufferEncodePacketId (type : ℕ) (remainingLength : ℤ) (id : PacketId) :
    Prog σ (List Byte) := do
  let v ← encodeRemainingLength env remainingLength
  pure (UInt8.ofNat type :: v ++ packetIdBytes id)

/- `connect_build_fixed_header` -/
def connectBuildFixedHeader (v : Value) : Prog σ (List Byte) := do
  let digits ← encodeRemainingLength env (connectCalcRemainingLength ((← get).heap.connects v.value))
  pure (UInt8.ofNat (typeConnect * 16) :: digits)

/- The flags of `connect_build_variable_header`. -/
def connectFlags (c : Connect) : ℕ :=
  (c.willQos <<< 3) % 256 ||| (if c.cleanSession then 0x02 else 0) |||
    (if c.willRetain then 0x20 else 0) ||| (if 0 < c.willTopic.len then 0x04 else 0) |||
    (if 0 < c.userName.len then 0x80 else 0) ||| (if 0 < c.password.len then 0x40 else 0)

/- `connect_build_variable_header` -/
def connectBuildVariableHeader (v : Value) : Prog σ (List Byte) := do
  let c := (← get).heap.connects v.value
  pure [0, 4, 0x4d, 0x51, 0x54, 0x54, 4, UInt8.ofNat (connectFlags c),
    stringLenByte c.keepAlive.toNat 1, stringLenByte c.keepAlive.toNat 0]

/- `subscribe_build_header_subscribe`, `subscribe_build_header_unsubscribe` -/
def subscribeBuildHeader (type : ℕ) (includeQos : Bool) (v : Value) : Prog σ (List Byte) := do
  let s := (← get).heap.subscribes v.value
  encodeBufferEncodePacketId env (type * 16 ||| 2) (subscribeCalcRemainingLength s includeQos) v.packetId

/- `subscribe_build_qos` -/
def subscribeBuildQos (v : Value) : Prog σ (List Byte) := do
  let w ← get
  let i := (w.heap.subscribes v.value).current.getD 0
  pure [UInt8.ofNat (w.heap.subscription v.value i).requestedQos]

/- The first byte of `publish_build_fixed_header`. -/
def publishFirstByte (b : Publish) : Byte :=
  UInt8.ofNat (typePublish * 16 ||| (if b.retain then 1 else 0) ||| b.qos <<< 1 |||
    (if 0 < b.encodeCount then 8 else 0))

/- `publish_build_fixed_header` -/
def publishBuildFixedHeader (v : Value) : Prog σ (List Byte) := do
  let b := (← get).heap.publishes v.value
  -- lmqtt_client_t is supposed to validate packet length
  assert env (publishValidate b)
  let digits ← encodeRemainingLength env (publishCalcRemainingLength b)
  pure (publishFirstByte b :: digits)

/- `publish_build_packet_id` -/
def publishBuildPacketId (v : Value) : Prog σ (List Byte) := pure (packetIdBytes v.packetId)

/- `puback_build`, `pubrec_build`, `pubrel_build`, `pubcomp_build` -/
def pubackBuild (v : Value) : Prog σ (List Byte) :=
  encodeBufferEncodePacketId env (typePuback * 16) 2 v.packetId
def pubrecBuild (v : Value) : Prog σ (List Byte) :=
  encodeBufferEncodePacketId env (typePubrec * 16) 2 v.packetId
def pubrelBuild (v : Value) : Prog σ (List Byte) :=
  encodeBufferEncodePacketId env (typePubrel * 16 ||| 2) 2 v.packetId
def pubcompBuild (v : Value) : Prog σ (List Byte) :=
  encodeBufferEncodePacketId env (typePubcomp * 16) 2 v.packetId

/- `pingreq_build`, `disconnect_build` -/
def pingreqBuild (_ : Value) : Prog σ (List Byte) := pure [UInt8.ofNat (typePingreq * 16), 0]
def disconnectBuild (_ : Value) : Prog σ (List Byte) := pure [UInt8.ofNat (typeDisconnect * 16), 0]

def setEncodeBuffer (b : EncodeBuffer) : Prog σ Unit :=
  modify fun w => w.setTx { w.tx.internal with buffer := b }

/- `encode_buffer_encode` -/
def encodeBufferEncode (builder : Value → Prog σ (List Byte)) (v : Value) (offset bufLen : ℕ) :
    Prog σ (EncodeResult × List Byte) := do
  let eb := (← get).tx.internal.buffer
  if !eb.encoded then
    let built ← builder v
    setEncodeBuffer { eb with encoded := true, buf := built }
  let eb := (← get).tx.internal.buffer
  assert env (0 < eb.buf.length && offset < eb.buf.length)
  if bufLen < eb.buf.length - offset then pure (.continue, (eb.buf.drop offset).take bufLen)
  else
    setEncodeBuffer {}
    pure (.finished, eb.buf.drop offset)

/-! ### Strings -/

/- `string_read` by way of `string_move`: the result, the bytes it moved and
   the error of the operating system. -/
def stringRead (r : StrRef) (len : ℕ) : Prog σ (StringResult × List Byte × ℤ) := do
  let w ← get
  let s := w.str r
  if s.read && s.buf.isSome then pure (.invalidObject, [], 0)
  else if len = 0 then pure (.success, [], 0)
  else if s.read then
    let reply := env.strRead w.app s.data len
    set { w with app := reply.app }
    match reply.result with
    | .success => pure (.success, reply.bytes, reply.osError)
    | .wouldBlock => pure (.wouldBlock, reply.bytes, reply.osError)
    | .error => pure (.osError, reply.bytes, reply.osError)
  else match s.buf with
    | some mem => do
      assert env (toSize (s.pos + len) ≤ toSize s.len)
      set (w.setStr r { s with pos := s.pos + len })
      pure (.success, (mem.drop s.pos).take len, 0)
    | none => pure (.invalidObject, [], 0)

/- The bytes of the length prefix that `string_encode` places: from `offset`
   on, no more than fit. -/
def stringLenPrefix (len : ℤ) (offset bufLen : ℕ) : List Byte :=
  ([stringLenByte len 1, stringLenByte len 0].drop offset).take bufLen

/- The end of `string_encode`: what it makes of the answer of `string_read`,
   with `remaining` bytes of the string left before. -/
def stringEncodeResult (r : StrRef) (lenBytes : List Byte) (remaining : ℤ) (res : StringResult)
    (bytes : List Byte) (osError : ℤ) : Prog σ (EncodeResult × List Byte) := do
  modify fun w => w.setTx { w.tx.internal with
    buffer := { w.tx.internal.buffer with osError := osError } }
  assert env ((bytes.length : ℤ) ≤ remaining)
  if res = .wouldBlock then
    modify fun w => w.setTx { w.tx.internal with
      buffer := { w.tx.internal.buffer with blockingStr := some r } }
    pure (.wouldBlock, lenBytes ++ bytes)
  else if res = .success && remaining ≤ bytes.length then pure (.finished, lenBytes ++ bytes)
  else if res = .success && 0 < bytes.length then pure (.continue, lenBytes ++ bytes)
  else
    modify fun w => w.setTx { w.tx.internal with
      buffer := { w.tx.internal.buffer with error := some .encodeString } }
    pure (.error, lenBytes ++ bytes)

/- `memset(&str->internal, 0, ..)` -/
def stringRewind (r : StrRef) : Prog σ Unit := modify fun w => w.setStr r { w.str r with pos := 0 }

/- The part of `string_encode` behind the length prefix: at the byte `offsetStr`
   of the string, with `room` bytes left in the buffer. -/
def stringEncodeData (r : StrRef) (lenBytes : List Byte) (offsetStr room : ℕ) :
    Prog σ (EncodeResult × List Byte) := do
  let remaining := ((← get).str r).len - offsetStr
  let len := if (room : ℤ) < remaining then (room : ℤ) else remaining
  if offsetStr = 0 then stringRewind r
  let (res, bytes, osError) ← stringRead env r (toSize len)
  stringEncodeResult env r lenBytes remaining res bytes osError

/- `string_encode` -/
def stringEncode (r : StrRef) (encodeLen encodeIfEmpty : Bool) (offset bufLen : ℕ) :
    Prog σ (EncodeResult × List Byte) := do
  let s := (← get).str r
  modify fun w => w.setTx { w.tx.internal with
    buffer := { w.tx.internal.buffer with blockingStr := none } }
  if s.len = 0 && !encodeIfEmpty then pure (.finished, [])
  else if bufLen = 0 then pure (.continue, [])
  else
    assert env (offset < toSize (s.len + if encodeLen then 2 else 0))
    let lenBytes := if encodeLen then stringLenPrefix s.len offset bufLen else []
    if encodeLen && !lenBytes.isEmpty && bufLen ≤ lenBytes.length then
      -- the buffer is full within or right after the length prefix
      pure (if 2 ≤ lenBytes.length && s.len = 0 then .finished else .continue, lenBytes)
    else
      stringEncodeData env r lenBytes (if encodeLen then offset - 2 else offset)
        (bufLen - lenBytes.length)

/-! ### Fields of a packet -/

/- The functions an `lmqtt_encoder_t` points to. -/
inductive Encoder
  | connectFixedHeader | connectVariableHeader | connectPayloadClientId
  | connectPayloadWillTopic | connectPayloadWillMessage | connectPayloadUserName
  | connectPayloadPassword
  | subscribeHeaderSubscribe | subscribeHeaderUnsubscribe | subscribeTopic | subscribeQos
  | publishFixedHeader | publishTopic | publishPacketId | publishPayload
  | pubackFixedHeader | pubrecFixedHeader | pubrelFixedHeader | pubcompFixedHeader
  | pingreqFixedHeader | disconnectFixedHeader
  deriving DecidableEq, Repr

def runEncoder (v : Value) (offset bufLen : ℕ) : Encoder → Prog σ (EncodeResult × List Byte)
  | .connectFixedHeader => encodeBufferEncode env (connectBuildFixedHeader env) v offset bufLen
  | .connectVariableHeader => encodeBufferEncode env connectBuildVariableHeader v offset bufLen
  | .connectPayloadClientId => stringEncode env (.connectClientId v.value) true true offset bufLen
  | .connectPayloadWillTopic => stringEncode env (.connectWillTopic v.value) true false offset bufLen
  | .connectPayloadWillMessage => stringEncode env (.connectWillMessage v.value) true false offset bufLen
  | .connectPayloadUserName => stringEncode env (.connectUserName v.value) true false offset bufLen
  | .connectPayloadPassword => stringEncode env (.connectPassword v.value) true false offset bufLen
  | .subscribeHeaderSubscribe => encodeBufferEncode env (subscribeBuildHeader env typeSubscribe true) v offset bufLen
  | .subscribeHeaderUnsubscribe => encodeBufferEncode env (subscribeBuildHeader env typeUnsubscribe false) v offset bufLen
  | .subscribeTopic => do
    let i := ((← get).heap.subscribes v.value).current.getD 0
    stringEncode env (.subscriptionTopic v.value i) true true offset bufLen
  | .subscribeQos => encodeBufferEncode env subscribeBuildQos v offset bufLen
  | .publishFixedHeader => encodeBufferEncode env (publishBuildFixedHeader env) v offset bufLen
  | .publishTopic => stringEncode env (.publishTopic v.value) true true offset bufLen
  | .publishPacketId => encodeBufferEncode env publishBuildPacketId v offset bufLen
  | .publishPayload => stringEncode env (.publishPayload v.value) false false offset bufLen
  | .pubackFixedHeader => encodeBufferEncode env (pubackBuild env) v offset bufLen
  | .pubrecFixedHeader => encodeBufferEncode env (pubrecBuild env) v offset bufLen
  | .pubrelFixedHeader => encodeBufferEncode env (pubrelBuild env) v offset bufLen
  | .pubcompFixedHeader => encodeBufferEncode env (pubcompBuild env) v offset bufLen
  | .pingreqFixedHeader => encodeBufferEncode env pingreqBuild v offset bufLen
  | .disconnectFixedHeader => encodeBufferEncode env disconnectBuild v offset bufLen

/- `tx_buffer_finder_connect` -/
def txBufferFinderConnect (pos : ℕ) : Option Encoder :=
  match pos with
  | 0 => some .connectFixedHeader
  | 1 => some .connectVariableHeader
  | 2 => some .connectPayloadClientId
  | 3 => some .connectPayloadWillTopic
  | 4 => some .connectPayloadWillMessage
  | 5 => some .connectPayloadUserName
  | 6 => some .connectPayloadPassword
  | _ => none

def setCurrentSubscription (p : Ptr) (i : Option ℕ) : Prog σ Unit :=
  modify fun w => { w with heap := w.heap.setSubscribe p { w.heap.subscribes p with current := i } }

/- `tx_buffer_finder_subscribe` -/
def txBufferFinderSubscribe (pos : ℕ) (v : Value) : Prog σ (Option Encoder) := do
  if pos = 0 then
    setCurrentSubscription v.value none
    pure (some .subscribeHeaderSubscribe)
  else if ((pos - 1 : ℕ) : ℤ) < ((← get).heap.subscribes v.value).count * 2 then
    setCurrentSubscription v.value (some ((pos - 1) / 2))
    pure (some (if (pos - 1) % 2 = 0 then .subscribeTopic else .subscribeQos))
  else pure none

/- `tx_buffer_finder_unsubscribe` -/
def txBufferFinderUnsubscribe (pos : ℕ) (v : Value) : Prog σ (Option Encoder) := do
  if pos = 0 then
    setCurrentSubscription v.value none
    pure (some .subscribeHeaderUnsubscribe)
  else if ((pos - 1 : ℕ) : ℤ) < ((← get).heap.subscribes v.value).count then
    setCurrentSubscription v.value (some (pos - 1))
    pure (some .subscribeTopic)
  else pure none

/- The fields of a PUBLISH by QoS, as `tx_buffer_finder_publish` walks them. -/
def publishEncoderAt (qos pos : ℕ) : Option Encoder :=
  if qos = 0 then
    match pos with
    | 0 => some .publishFixedHeader
    | 1 => some .publishTopic
    | 2 => some .publishPayload
    | _ => none
  else
    match pos with
    | 0 => some .publishFixedHeader
    | 1 => some .publishTopic
    | 2 => some .publishPacketId
    | 3 => some .publishPayload
    | _ => none

/- `tx_buffer_finder_publish` -/
def txBufferFinderPublish (pos : ℕ) (v : Value) : Prog σ (Option Encoder) := do
  let w ← get
  let b := w.heap.publishes v.value
  match publishEncoderAt b.qos pos with
  | some e => pure (some e)
  | none =>
    set { w with heap := w.heap.setPublish v.value { b with encodeCount := b.encodeCount + 1 } }
    pure none

/- `tx_buffer_finder_by_kind` and the finder it returns. The packets of one
   field are those of `tx_buffer_finder_puback` and its like. -/
def txBufferFinder (e : Entry) : Prog σ (Option Encoder) := do
  let pos := (← get).tx.internal.pos
  match e.kind with
  | .connect => pure (txBufferFinderConnect pos)
  | .subscribe => txBufferFinderSubscribe pos e.value
  | .unsubscribe => txBufferFinderUnsubscribe pos e.value
  | .publish0 | .publish1 | .publish2 => txBufferFinderPublish pos e.value
  | .puback => pure (if pos = 0 then some .pubackFixedHeader else none)
  | .pubrec => pure (if pos = 0 then some .pubrecFixedHeader else none)
  | .pubrel => pure (if pos = 0 then some .pubrelFixedHeader else none)
  | .pubcomp => pure (if pos = 0 then some .pubcompFixedHeader else none)
  | .pingreq => pure (if pos = 0 then some .pingreqFixedHeader else none)
  | .disconnect => pure (if pos = 0 then some .disconnectFixedHeader else none)

/-! ### The encoder loop -/

/- `tx_buffer_fail` -/
def txBufferFail (e : Option Error) (osError : ℤ) : Prog σ Unit :=
  modify fun w => w.setTx { w.tx.internal with error := e, osError := osError }

/- What the loop does when the finder has no more fields for the entry: it
   leaves the pending part of the store. `false` where the loop returns an
   error. -/
def txBufferFinishEntry (e : Entry) : Prog σ Bool := do
  emit (.encoded e.kind e.value.packetId e.value.req)
  let w ← get
  if !e.kind.expectsResponse then
    set (w.setStore w.tx.store w.txStore.dropCurrent)
    if e.kind = .disconnect then
      lmqttTxBufferFinish
      pure true
    else
      let ok ← if e.value.callback.isSome then callValue env e.value else pure true
      if !ok then
        assert env (e.kind = .publish0)
        txBufferFail (some .callbackPublish) 0
        pure false
      else
        lmqttTxBufferReset
        pure true
  else
    set (w.setStore w.tx.store w.txStore.markCurrent)
    lmqttTxBufferReset
    pure true

/- How the call ends when the store has nothing (more) to send. -/
def txBufferExit (out : List Byte) : Prog σ (IoResult × List Byte) := do
  let w ← get
  pure (if 0 < out.length || w.tx.closed then .success else .wouldBlock, out)

/- The two nested loops of `lmqtt_tx_buffer_encode`. `none`: the outer loop
   looks for an entry to send; `some e`: the inner loop is at entry `e`. -/
def txBufferEncodeLoop : ℕ → Option Entry → ℕ → List Byte → Prog σ (IoResult × List Byte)
  | 0, _, _, _ => throw .outOfFuel
  | fuel+1, none, bufLen, out => do
    let w ← get
    if w.tx.closed then txBufferExit out
    else match w.txStore.peek with
      | none => txBufferExit out
      | some e => txBufferEncodeLoop fuel (some e) bufLen out
  | fuel+1, some e, bufLen, out => do
    match ← txBufferFinder e with
    | none =>
      if ← txBufferFinishEntry env e then txBufferEncodeLoop fuel none bufLen out
      else pure (.error, out)
    | some encoder =>
      let i := (← get).tx.internal
      emit (.encode e.kind e.value.packetId e.value.req i.pos)
      let (res, bytes) ← runEncoder env e.value i.offset bufLen encoder
      match res with
      | .wouldBlock => pure (.wouldBlock, out)
      | .continue =>
        modify fun w => w.setTx { w.tx.internal with offset := w.tx.internal.offset + bytes.length }
        pure (.success, out ++ bytes)
      | .error =>
        let b := (← get).tx.internal.buffer
        txBufferFail b.error b.osError
        pure (.error, out)
      | .finished =>
        modify fun w => w.setTx { w.tx.internal with pos := w.tx.internal.pos + 1, offset := 0 }
        txBufferEncodeLoop fuel (some e) (bufLen - bytes.length) (out ++ bytes)

/- `lmqtt_tx_buffer_encode`: the result, and the bytes it counts as written. -/
def lmqttTxBufferEncode (bufLen : ℕ) : Prog σ (IoResult × List Byte) := do
  if (← get).tx.internal.error.isSome then pure (.error, [])
  else txBufferEncodeLoop env env.fuel none bufLen []

end LightMqtt
