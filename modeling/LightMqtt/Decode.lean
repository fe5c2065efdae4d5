import LightMqtt.Session

/-!
# Decoding (`packet.c`, `lmqtt_rx_buffer_t`)

The fixed header, the nine packet decoders and the loop that feeds them. The
bytes a decoder is offered are the list of all unread bytes of the read buffer.
-/

namespace LightMqtt

variable {σ ρ : Type} [Reentrant ρ] (env : EnvOf σ ρ)

/-! ### Fixed header -/

/- The flag bits of the first byte that are wrong for a packet type. -/
def badFlags (type flags : ℕ) : Bool :=
  if type = typePubrel ∨ type = typeSubscribe ∨ type = typeUnsubscribe then flags ≠ 2
  else if type = typePublish then flags &&& 6 = 6 || flags &&& 14 = 8
  else flags ≠ 0

/- `fixed_header_decode` -/
def fixedHeaderDecode (h : FixedHeader) (b : Byte) : FixedHeader × DecodeResult × Option Error :=
  match h.error with
  | some e => (h, .error, some e)
  | none =>
    if h.bytesRead = 0 then
      let type := b.toNat >>> 4
      let flags := b.toNat &&& 15
      if type < 1 ∨ 14 < type then
        ({ h with error := some .decodeFixedHeaderInvalidType }, .error,
          some .decodeFixedHeaderInvalidType)
      else if badFlags type flags then
        ({ h with error := some .decodeFixedHeaderInvalidFlags }, .error,
          some .decodeFixedHeaderInvalidFlags)
      else
        ({ h with
            type := type
            remainLenMultiplier := 1
            remainLenAccumulator := 0
            remainLenFinished := false
            dup := if type = typePublish then (flags &&& 8) >>> 3 else 0
            qos := if type = typePublish then (flags &&& 6) >>> 1 else 0
            retain := if type = typePublish then flags &&& 1 else 0
            bytesRead := h.bytesRead + 1 }, .continue, none)
    else if 128 * 128 < h.remainLenMultiplier ∧ b.toNat &&& 128 ≠ 0 ∨
        1 < h.remainLenMultiplier ∧ b = 0 ∨ h.remainLenFinished then
      ({ h with error := some .decodeFixedHeaderInvalidRemainingLength }, .error,
        some .decodeFixedHeaderInvalidRemainingLength)
    else
      let acc := h.remainLenAccumulator + (b.toNat &&& 127) * h.remainLenMultiplier
      let h := { h with
        remainLenAccumulator := acc
        remainLenMultiplier := h.remainLenMultiplier * 128
        bytesRead := h.bytesRead + 1 }
      if b.toNat &&& 128 ≠ 0 then (h, .continue, none)
      else ({ h with remainingLength := acc, remainLenFinished := true }, .finished, none)

/-! ### Packets -/

/- `rx_buffer_fail` -/
def World.failRx (w : World σ) (e : Error) (osError : ℤ) : World σ :=
  w.setRx { w.rx.internal with error := some e, osError := osError }
def rxBufferFail (e : Error) (osError : ℤ) : Prog σ Unit := modify fun w => w.failRx e osError

/- The cells from `pos` on overwritten by `bs`. -/
def overwrite (mem : List Byte) (pos : ℕ) (bs : List Byte) : List Byte :=
  mem.take pos ++ bs ++ mem.drop (pos + bs.length)

/- `string_write` by way of `string_move`: the result, the count of bytes it
   moved and the error of the operating system. -/
def stringWrite (r : StrRef) (bs : List Byte) : Prog σ (StringResult × ℕ × ℤ) := do
  let w ← get
  let s := w.str r
  if s.write && s.buf.isSome then pure (.invalidObject, 0, 0)
  else if bs.length = 0 then pure (.success, 0, 0)
  else if s.write then
    let reply := env.strWrite w.app s.data bs
    set { w with app := reply.app }
    match reply.result with
    | .success => pure (.success, reply.count, reply.osError)
    | .wouldBlock => pure (.wouldBlock, reply.count, reply.osError)
    | .error => pure (.osError, reply.count, reply.osError)
  else match s.buf with
    | some mem => do
      assert env (toSize (s.pos + bs.length) ≤ toSize s.len)
      set (w.setStr r { s with buf := some (overwrite mem s.pos bs), pos := s.pos + bs.length })
      pure (.success, bs.length, 0)
    | none => pure (.invalidObject, 0, 0)

/- `rx_buffer_publish_part_topic`, `rx_buffer_publish_part_payload` -/
def PublishPart.str : PublishPart → StrRef
  | .topic => .rxTopic
  | .payload => .rxPayload
def PublishPart.allocate : PublishPart → Option (σ → Publish → ℕ → Allocation σ)
  | .topic => env.message.onPublishAllocateTopic
  | .payload => env.message.onPublishAllocatePayload
def PublishPart.allocateError : PublishPart → Error
  | .topic => .decodePublishTopicAllocateFailed
  | .payload => .decodePublishPayloadAllocateFailed
def PublishPart.stringError : PublishPart → Error
  | .topic => .decodePublishTopicWriteFailed
  | .payload => .decodePublishPayloadWriteFailed

/- The allocation at the first byte of a part; `false` if it failed. -/
def rxBufferAllocate (part : PublishPart) (f : σ → Publish → ℕ → Allocation σ) (len : ℕ) :
    Prog σ Bool := do
  emit (.allocate part len)
  let w ← get
  let a := f w.app w.rx.internal.publish len
  set { w.setStr part.str a.str with app := a.app }
  match a.result with
  | .success =>
    modify fun w => w.setRx { w.rx.internal with ignorePublish := false }
    pure true
  | .ignore =>
    modify fun w => w.setRx { w.rx.internal with ignorePublish := true }
    pure true
  | .error =>
    rxBufferFail part.allocateError 0
    pure false

/- The two halves of `rx_buffer_allocate_write`: the allocation, unless the
   packet is ignored or the decoder is behind the first byte of the part, whose
   position is `start` (the parameter `when`), and the move of the bytes. -/
def rxBufferAllocateFirst (start : ℕ) (part : PublishPart) (len : ℕ) : Prog σ Bool := do
  let i := (← get).rx.internal
  match part.allocate env with
  | some f =>
    if !i.ignorePublish && i.remainBufPos + 1 = start then rxBufferAllocate part f len else pure true
  | none => pure true

def rxBufferWritePart (part : PublishPart) (bs : List Byte) : Prog σ (Option ℕ) := do
  if (← get).rx.internal.ignorePublish then pure (some bs.length)
  else
    modify fun w => w.setRx { w.rx.internal with blockingStr := none }
    let (res, count, osError) ← stringWrite env part.str bs
    match res with
    | .success => pure (some count)
    | .wouldBlock =>
      modify fun w => w.setRx { w.rx.internal with blockingStr := some part.str }
      pure (some count)
    | _ =>
      rxBufferFail part.stringError osError
      pure none

/- `rx_buffer_allocate_write`: `none` if it failed, else the count of bytes
   taken. -/
def rxBufferAllocateWrite (start : ℕ) (part : PublishPart) (len : ℕ) (bs : List Byte) :
    Prog σ (Option ℕ) := do
  let pos := (← get).rx.internal.remainBufPos
  if ← rxBufferAllocateFirst env start part len then
    rxBufferWritePart env part (bs.take (len - (pos + 1 - start)))
  else pure none

/- `rx_buffer_deallocate_publish` -/
def rxBufferDeallocatePublish : Prog σ Unit := do
  let w ← get
  match env.message.onPublishDeallocate with
  | some f =>
    if !w.rx.internal.ignorePublish then
      set { w with app := f w.app w.rx.internal.publish, log := .deallocate :: w.log }
  | none => pure ()

/- `rx_buffer_decode_connack` -/
def rxBufferDecodeConnack (bs : List Byte) : Prog σ (DecodeResult × ℕ) := do
  assert env (1 ≤ bs.length)
  let b := bs.headD 0
  let w ← get
  match w.rx.internal.remainBufPos with
  | 0 =>
    if 1 < b then
      rxBufferFail .decodeConnackInvalidAcknowledgeFlags 0
      pure (.error, 0)
    else
      let p := w.rx.internal.value.value
      set { w with heap := w.heap.setConnect p { w.heap.connects p with sessionPresent := b } }
      pure (.continue, 1)
  | 1 =>
    if 5 < b then
      rxBufferFail .decodeConnackInvalidReturnCode 0
      pure (.error, 0)
    else if b ≠ 0 then
      rxBufferFail (connackError b.toNat) 0
      pure (.error, 1)
    else pure (.finished, 1)
  | _ =>
    rxBufferFail .decodeConnackInvalidLength 0
    pure (.error, 0)

/- The count of bytes of a packet id in a PUBLISH (`p_len`). -/
def FixedHeader.idLen (h : FixedHeader) : ℕ := if h.qos = 0 then 0 else 2

/- The parts of `rx_buffer_decode_publish`: the length of the topic, the topic,
   the packet id and the payload. Each reads from `bs`: `none` if it failed,
   else the count of bytes taken. -/
def rxBufferDecodeTopicLen (b : Byte) : Prog σ (Option ℕ) := do
  let w ← get
  let i := w.rx.internal
  let remPos := i.remainBufPos + 1
  let topicLen := i.topicLen ||| b.toNat <<< ((2 - remPos) * 8)
  set (w.setRx { i with topicLen := topicLen })
  if remPos = 2 ∧ (topicLen = 0 ∨ i.header.remainingLength < topicLen + 2 + i.header.idLen) then
    rxBufferFail .decodePublishInvalidLength 0
    pure none
  else pure (some 1)

/- A message is ignored where a callback for it is missing. -/
def World.ignoreUnwanted (w : World σ) : World σ :=
  if w.rx.internal.remainBufPos + 1 = 3 ∧ (env.message.onPublish.isNone ∨
      env.message.onPublishAllocateTopic.isNone ∨ env.message.onPublishAllocatePayload.isNone) then
    w.setRx { w.rx.internal with ignorePublish := true }
  else w

def rxBufferDecodeString (start : ℕ) (part : PublishPart) (len : ℕ) (bs : List Byte) :
    Prog σ (Option ℕ) := do
  let r ← rxBufferAllocateWrite env start part len bs
  if r.isNone then rxBufferDeallocatePublish env
  pure r

def rxBufferDecodePublishId (b : Byte) : Prog σ (Option ℕ) := do
  let i := (← get).rx.internal
  modify fun w => w.setRx { w.rx.internal with
    packetId := w.rx.internal.packetId |||
      b.toUInt16 <<< UInt16.ofNat ((i.header.idLen + (2 + i.topicLen) - (i.remainBufPos + 1)) * 8) }
  pure (some 1)

def rxBufferDecodePublishPart (bs : List Byte) : Prog σ (Option ℕ) := do
  let i := (← get).rx.internal
  let remPos := i.remainBufPos + 1
  let pLen := i.header.idLen
  let pStart := 2 + i.topicLen
  if remPos ≤ 2 then rxBufferDecodeTopicLen (bs.headD 0)
  else
    modify fun w => w.ignoreUnwanted env
    if remPos ≤ pStart then rxBufferDecodeString env 3 .topic i.topicLen bs
    else if remPos ≤ pStart + pLen then rxBufferDecodePublishId (bs.headD 0)
    else
      rxBufferDecodeString env (pStart + pLen + 1) .payload
        (i.header.remainingLength - pLen - pStart) bs

/- The answer to a PUBLISH with QoS 1 or 2. -/
def publishAck (qos : ℕ) (id : PacketId) : Entry :=
  ⟨if qos = 2 then .pubrec else .puback, { packetId := id }⟩

/- The end of `rx_buffer_decode_publish`, after the last byte was taken. First
   the acknowledgement; that the store is full goes unnoticed. -/
def World.acknowledge (w : World σ) : World σ :=
  let i := w.rx.internal
  if i.header.qos = 0 then w
  else w.setStore w.rx.store ((w.rxStore.append (publishAck i.header.qos i.packetId)).getD w.rxStore)

/- The id of a QoS 2 message is put into the set; `false` if that fails. -/
def rxBufferRemember : Prog σ Bool := do
  let w ← get
  if w.rx.internal.header.qos ≠ 2 then pure true
  else match w.rx.idSet.put w.rx.internal.packetId with
    | none => pure false
    | some s =>
      set { w with rx := { w.rx with idSet := s } }
      pure true

/- The message callback; `false` if it returned 0. -/
def rxBufferCallMessage : Prog σ Bool := do
  let w ← get
  match env.message.onPublish with
  | some f =>
    if w.rx.internal.ignorePublish then pure true
    else
      let r := f w.app w.rx.internal.publish
      set { w with app := r.app, log := .message w.rx.internal.packetId w.rx.internal.publish :: w.log }
      callbackCalls env (some (callValue env)) r.requests
      pure r.ok
  | none => pure true

def rxBufferTakeMessage : Prog σ DecodeResult := do
  modify fun w => w.setRx { w.rx.internal with publish := { w.rx.internal.publish with
    qos := w.rx.internal.header.qos, retain := w.rx.internal.header.retain ≠ 0 } }
  let ok ← rxBufferCallMessage env
  rxBufferDeallocatePublish env
  if ok then pure .finished
  else
    rxBufferFail .decodePublishMessageCallbackFailed 0
    pure .error

def rxBufferFinishPublish : Prog σ DecodeResult := do
  modify World.acknowledge
  let w ← get
  if w.rx.internal.header.qos = 2 && w.rx.idSet.contains w.rx.internal.packetId then
    rxBufferDeallocatePublish env
    pure .finished
  else if ← rxBufferRemember then rxBufferTakeMessage env
  else
    rxBufferDeallocatePublish env
    rxBufferFail .decodePublishIdSetFull 0
    pure .error

/- `rx_buffer_decode_publish` -/
def rxBufferDecodePublish (bs : List Byte) : Prog σ (DecodeResult × ℕ) := do
  assert env (1 ≤ bs.length)
  let i := (← get).rx.internal
  match ← rxBufferDecodePublishPart env bs with
  | none => pure (.error, 0)
  | some count =>
    if (← get).rx.internal.blockingStr.isSome then pure (.wouldBlock, count)
    else if i.remainBufPos + 1 + count ≤ i.header.remainingLength then pure (.continue, count)
    else
      let res ← rxBufferFinishPublish env
      pure (res, count)

/- `rx_buffer_decode_suback` -/
def rxBufferDecodeSuback (bs : List Byte) : Prog σ (DecodeResult × ℕ) := do
  assert env (1 ≤ bs.length)
  let b := bs.headD 0
  let w ← get
  let i := w.rx.internal
  let p := i.value.value
  let count := (w.heap.subscribes p).count
  let pos := i.remainBufPos - 2
  if pos = 0 ∧ (i.header.remainingLength : ℤ) - 2 ≠ count then
    rxBufferFail .decodeSubackCountMismatch 0
    pure (.error, 0)
  else if 2 < b ∧ b ≠ 0x80 then
    rxBufferFail .decodeSubackInvalidReturnCode 0
    pure (.error, 0)
  else
    set { w with heap := w.heap.modifySubscription p pos fun x => { x with returnCode := b } }
    pure (if count ≤ pos + 1 then .finished else .continue, 1)

/- `rx_buffer_decode_type` -/
def rxBufferDecodeType (d : Decoder) (bs : List Byte) : Prog σ (DecodeResult × ℕ) :=
  match d.decodeBytes with
  | none => do
    rxBufferFail .decodeNonzeroRemainingLength 0
    pure (.error, 0)
  | some .connack => rxBufferDecodeConnack env bs
  | some .publish => rxBufferDecodePublish env bs
  | some .suback => rxBufferDecodeSuback env bs

/- `rx_buffer_pop_packet` -/
def rxBufferPopPacket (d : Decoder) (id : PacketId) : Prog σ Bool := do
  let w ← get
  match d.kind.bind fun k => w.rxStore.popMarkedBy k id with
  | some (e, s) =>
    set ((w.setStore w.rx.store s).setRx { w.rx.internal with value := e.value })
    emit (.popped e.kind id e.value.req)
    pure true
  | none =>
    set (w.setRx { w.rx.internal with value := {} })
    rxBufferFail .decodeNoCorrespondingRequest 0
    pure false

/- `rx_buffer_pubrel` -/
def rxBufferPubrel : Prog σ Bool := do
  let w ← get
  let id := w.rx.internal.packetId
  set { w with rx := { w.rx with idSet := w.rx.idSet.remove id } }
  let w ← get
  match w.rxStore.append ⟨.pubcomp, { packetId := id }⟩ with
  | some s =>
    set (w.setStore w.rx.store s)
    pure true
  | none =>
    rxBufferFail .decodePubrelIdSetFull 0
    pure false

def popPacket (d : Decoder) : PopPacket → Prog σ Bool
  | .withoutId => rxBufferPopPacket d 0
  | .withId => do rxBufferPopPacket d (← get).rx.internal.packetId
  | .ignore => pure true
  | .pubrel => rxBufferPubrel

/- `rx_buffer_decode_remaining_without_id` -/
def rxBufferDecodeRemainingWithoutId (d : Decoder) (bs : List Byte) : Prog σ (DecodeResult × ℕ) := do
  let (res, count) ← rxBufferDecodeType env d bs
  let i := (← get).rx.internal
  if res = .error then pure (.error, count)
  else
    assert env ((res ≠ .finished && i.remainBufPos + count < i.header.remainingLength) ||
      (res = .finished && i.remainBufPos + count = i.header.remainingLength))
    pure (res, count)

/- The byte of a packet id at `remain_buf_pos`. -/
def World.readId (w : World σ) (b : Byte) : World σ :=
  w.setRx { w.rx.internal with
    packetId := w.rx.internal.packetId |||
      b.toUInt16 <<< UInt16.ofNat ((2 - (w.rx.internal.remainBufPos + 1)) * 8) }

/- `rx_buffer_decode_remaining_with_id` -/
def rxBufferDecodeRemainingWithId (d : Decoder) (bs : List Byte) : Prog σ (DecodeResult × ℕ) := do
  let remPos := (← get).rx.internal.remainBufPos + 1
  if 2 < remPos then rxBufferDecodeRemainingWithoutId env d bs
  else
    assert env (1 ≤ bs.length)
    modify fun w => w.readId (bs.headD 0)
    if remPos = 2 then
      let w ← get
      emit (.packetId w.rx.internal.header.type w.rx.internal.packetId)
      if ← popPacket d d.popPacketWithId then pure (.continue, 1) else pure (.error, 1)
    else pure (.continue, 1)

def decodeRemaining (d : Decoder) (bs : List Byte) : Prog σ (DecodeResult × ℕ) :=
  match d.decodeRemaining with
  | .withoutId => rxBufferDecodeRemainingWithoutId env d bs
  | .withId => rxBufferDecodeRemainingWithId env d bs

/-! ### The decoder table -/

def rxBufferDecoderConnack : Decoder :=
  ⟨2, some .connect, .withoutId, .ignore, .withoutId, some .connack, some .callbackConnack⟩
def rxBufferDecoderPublish : Decoder := ⟨3, none, .ignore, .ignore, .withoutId, some .publish, none⟩
def rxBufferDecoderPuback : Decoder :=
  ⟨2, some .publish1, .ignore, .withId, .withId, none, some .callbackPublish⟩
def rxBufferDecoderPubrec : Decoder := ⟨2, some .publish2, .ignore, .withId, .withId, none, none⟩
def rxBufferDecoderPubrel : Decoder := ⟨2, none, .ignore, .pubrel, .withId, none, none⟩
def rxBufferDecoderPubcomp : Decoder :=
  ⟨2, some .pubrel, .ignore, .withId, .withId, none, some .callbackPublish⟩
def rxBufferDecoderSuback : Decoder :=
  ⟨3, some .subscribe, .ignore, .withId, .withId, some .suback, some .callbackSuback⟩
def rxBufferDecoderUnsuback : Decoder :=
  ⟨2, some .unsubscribe, .ignore, .withId, .withId, none, some .callbackUnsuback⟩
def rxBufferDecoderPingresp : Decoder := ⟨0, some .pingreq, .withoutId, .ignore, .withoutId, none, none⟩

/- `rx_buffer_decoders`, indexed by the packet type. -/
def rxBufferDecoders (type : ℕ) : Option Decoder :=
  match type with
  | 2 => some rxBufferDecoderConnack
  | 3 => some rxBufferDecoderPublish
  | 4 => some rxBufferDecoderPuback
  | 5 => some rxBufferDecoderPubrec
  | 6 => some rxBufferDecoderPubrel
  | 7 => some rxBufferDecoderPubcomp
  | 9 => some rxBufferDecoderSuback
  | 11 => some rxBufferDecoderUnsuback
  | 13 => some rxBufferDecoderPingresp
  | _ => none

/-! ### The decoder loop -/

/- `rx_buffer_is_packet_finished` -/
def rxBufferIsPacketFinished (i : RxInternal) : Bool :=
  i.headerFinished && i.header.remainingLength ≤ i.remainBufPos

def emitFinished : Prog σ Unit :=
  modify fun w => w.emit (.finished w.rx.internal.header.type w.rx.internal.packetId)

/- The ghosts of a call of the callback of the decoder's request. -/
def World.decoded (w : World σ) : World σ :=
  w.calling.emit (.decoded w.rx.internal.header.type w.rx.internal.packetId)

/- `rx_buffer_finish_packet` -/
def rxBufferFinishPacket (d : Decoder) : Prog σ Bool := do
  let w ← get
  if d.kind = some .publish2 then
    -- the append is the argument of an assert()
    if !env.ndebug then
      match w.rxStore.append ⟨.pubrel, w.rx.internal.value⟩ with
      | some s => set (w.setStore w.rx.store s)
      | none => throw .assertFailed
    emitFinished
    lmqttRxBufferReset
    pure true
  else
    modify World.decoded
    if ← callValue env w.rx.internal.value then
      emitFinished
      lmqttRxBufferReset
      pure true
    else
      -- `decoder` is as it was: to change it, the callback has to connect again
      assert env d.callbackError.isSome
      modify fun w => w.setRx { w.rx.internal with error := d.callbackError, osError := 0 }
      pure false

/- What one turn of the loop of `lmqtt_rx_buffer_decode` does: it reads some
   bytes, it is blocked, or it returns an error with `count` bytes read. -/
inductive Turn
  | read (count : ℕ) | blocked | failed (count : ℕ)
  deriving DecidableEq, Repr

/- The check at the end of a turn that read `count` bytes. -/
def rxBufferEndTurn (count : ℕ) : Prog σ Turn := do
  let i := (← get).rx.internal
  match i.decoder with
  | some d =>
    if rxBufferIsPacketFinished i then
      if ← rxBufferFinishPacket env d then pure (.read count) else pure (.failed count)
    else pure (.read count)
  | none => pure (.read count)

/- A turn before the end of the fixed header. -/
def rxBufferDecodeHeaderTurn (b : Byte) : Prog σ Turn := do
  let w ← get
  let (h, res, error) := fixedHeaderDecode w.rx.internal.header b
  set (w.setRx { w.rx.internal with header := h })
  match res with
  | .finished =>
    let decoder := rxBufferDecoders h.type
    modify fun w => w.setRx { w.rx.internal with headerFinished := true, decoder := decoder }
    match decoder with
    | none =>
      rxBufferFail .decodeFixedHeaderServerSpecific 0
      pure (.failed 1)
    | some d =>
      if h.remainingLength < d.minLength then
        rxBufferFail .decodeResponseTooShort 0
        pure (.failed 1)
      else if ← popPacket d d.popPacketWithoutId then rxBufferEndTurn env 1
      else
        assert env (← get).rx.internal.error.isSome
        pure (.failed 1)
  | .continue => pure (.read 1)
  | _ =>
    modify fun w => w.setRx { w.rx.internal with error := error, osError := 0 }
    pure (.failed 0)

def World.advance (w : World σ) (count : ℕ) : World σ :=
  w.setRx { w.rx.internal with remainBufPos := w.rx.internal.remainBufPos + count }

/- What the loop makes of the answer of a packet decoder. -/
def rxBufferDecodedBytes (res : DecodeResult) (count : ℕ) : Prog σ Turn :=
  match res with
  | .error => do
    assert env (← get).rx.internal.error.isSome
    pure (.failed 0)
  | .wouldBlock => do
    assert env (count = 0)
    pure .blocked
  | _ => do
    modify fun w => w.advance count
    rxBufferEndTurn env count

/- A turn behind the fixed header. -/
def rxBufferDecodeBodyTurn (d : Decoder) (bs : List Byte) : Prog σ Turn := do
  let (res, count) ← decodeRemaining env d bs
  rxBufferDecodedBytes env res count

def rxBufferDecodeTurn (bs : List Byte) : Prog σ Turn := do
  let i := (← get).rx.internal
  match i.headerFinished, i.decoder with
  | true, some d => rxBufferDecodeBodyTurn env d bs
  | _, _ => rxBufferDecodeHeaderTurn env (bs.headD 0)

/- How the call ends when it does not fail, with `bufLen` bytes offered. -/
def rxBufferExit (bufLen bytesRead : ℕ) : Prog σ (IoResult × ℕ) := do
  if 0 < bytesRead then
    -- a string that blocks after other bytes were decoded is not signalled yet
    modify fun w => w.setRx { w.rx.internal with blockingStr := none }
    pure (.success, bytesRead)
  else pure (if bufLen = 0 then .success else .wouldBlock, bytesRead)

/- The loop of `lmqtt_rx_buffer_decode` at the unread bytes `bs`. -/
def rxBufferDecodeLoop (bufLen : ℕ) : ℕ → List Byte → ℕ → Prog σ (IoResult × ℕ)
  | _, [], bytesRead => rxBufferExit bufLen bytesRead
  | 0, _, _ => throw .outOfFuel
  | fuel+1, bs, bytesRead => do
    match ← rxBufferDecodeTurn env bs with
    | .read count => rxBufferDecodeLoop bufLen fuel (bs.drop count) (bytesRead + count)
    | .blocked => rxBufferExit bufLen bytesRead
    | .failed count => pure (.error, bytesRead + count)

/- `lmqtt_rx_buffer_decode`: the result, and how many bytes were read. -/
def lmqttRxBufferDecode (bs : List Byte) : Prog σ (IoResult × ℕ) := do
  if (← get).rx.internal.error.isSome then pure (.error, 0)
  else rxBufferDecodeLoop env bs.length env.fuel bs 0

/- `lmqtt_rx_buffer_finish` -/
def lmqttRxBufferFinish : Prog σ Unit := rxBufferFinishWith (callValue env)

end LightMqtt
