import LightMqtt.Encode
import LightMqtt.Decode

/-!
# The event loop (`client.c`)

The transfers between the connection, the two client buffers and the encoder
and decoder, and the functions of the API. A client buffer is the list of its
first `buf_pos` bytes.
-/

namespace LightMqtt

variable {σ ρ : Type} [Reentrant ρ] (env : EnvOf σ ρ)

/-! ### Transfers -/

/-- `lmqtt_transfer_t` without its function pointer; `count` starts at
`(size_t) -1`. -/
structure Transfer where
  available : Bool := true
  stale : Bool := true
  result : IoResult := .success
  count : ℕ := 2^64 - 1
  deriving DecidableEq, Repr

def Transfer.isEof (t : Transfer) : Bool := t.result = .success && t.count = 0

/-- What a wrapper returns by its result and through its pointers. -/
structure Moved where
  result : IoResult
  bytes : List Byte := []
  count : ℕ
  error : Option Error
  osError : ℤ

/- The client buffer a pair of transfers works on. -/
inductive Direction
  | input | output
  deriving DecidableEq, Repr

def World.buf (w : World σ) : Direction → List Byte
  | .input => w.readBuf
  | .output => w.writeBuf

def World.bufCapacity (w : World σ) : Direction → ℕ
  | .input => w.readBufCapacity
  | .output => w.writeBufCapacity

def World.setBuf (w : World σ) (d : Direction) (bs : List Byte) : World σ :=
  match d with
  | .input => { w with readBuf := bs }
  | .output => { w with writeBuf := bs }

/- `client_wrapper_read` -/
def clientWrapperRead (len : ℕ) : Prog σ Moved := do
  let w ← get
  let r := env.read w.app len
  set { w with app := r.app }
  pure ⟨r.result, r.bytes, r.bytes.length, some .connectionRead, r.osError⟩

/- `client_wrapper_decode` -/
def clientWrapperDecode (bs : List Byte) : Prog σ Moved := do
  let (result, count) ← lmqttRxBufferDecode env bs
  let i := (← get).rx.internal
  pure ⟨result, [], count, i.error, i.osError⟩

/- `client_wrapper_encode` -/
def clientWrapperEncode (len : ℕ) : Prog σ Moved := do
  let (result, bytes) ← lmqttTxBufferEncode env len
  let i := (← get).tx.internal
  pure ⟨result, bytes, bytes.length, i.error, i.osError⟩

/- `client_wrapper_write` -/
def clientWrapperWrite (bs : List Byte) : Prog σ Moved := do
  let w ← get
  let r := env.write w.app bs
  set { w with app := r.app }
  pure ⟨r.result, [], r.count, some .connectionWrite, r.osError⟩

/- The wrapper that fills a buffer with at most `len` bytes, and the one that
   takes bytes from its front. -/
def fillWrapper (d : Direction) (len : ℕ) : Prog σ Moved :=
  match d with
  | .input => clientWrapperRead env len
  | .output => clientWrapperEncode env len

def drainWrapper (d : Direction) (bs : List Byte) : Prog σ Moved :=
  match d with
  | .input => clientWrapperDecode env bs
  | .output => clientWrapperWrite env bs

/- `transfer_exec`; `room` is `left < right`. -/
def transferExec (t : Transfer) (room : Bool) (wrapper : Prog σ Moved)
    (afterExec : Moved → World σ → World σ) : Prog σ (Transfer × Bool) := do
  if t.available && room then
    let m ← wrapper
    modify (afterExec m)
    let available := m.result = .success && 0 < m.count
    let t : Transfer := ⟨available, t.stale && !available, m.result, m.count⟩
    if m.result = .error then
      modify fun w => { w with error := m.error, osError := m.osError }
      pure (t, false)
    else pure (t, true)
  else
    let t := { t with available := false }
    if t.result = .error then
      modify fun w => { w with error := none, osError := 0 }
      pure (t, false)
    else pure (t, true)

/- `TRANSFER_EXEC(input, &transfer_append, *buf_pos, buf_len)` -/
def transferFill (d : Direction) (t : Transfer) : Prog σ (Transfer × Bool) := do
  let w ← get
  let pos := (w.buf d).length
  transferExec t (pos < w.bufCapacity d) (fillWrapper env d (w.bufCapacity d - pos))
    fun m w => w.setBuf d (w.buf d ++ m.bytes)

/- `TRANSFER_EXEC(output, &transfer_shift, 0, *buf_pos)` -/
def transferDrain (d : Direction) (t : Transfer) : Prog σ (Transfer × Bool) := do
  let w ← get
  transferExec t (0 < (w.buf d).length) (drainWrapper env d (w.buf d))
    fun m w => w.setBuf d ((w.buf d).drop m.count)

/- The loop of `client_buffer_transfer`; `none` where it fails. -/
def bufferTransferLoop (d : Direction) : ℕ → Transfer → Transfer → Prog σ (Option (Transfer × Transfer))
  | 0, input, output => if input.available || output.available then throw .outOfFuel else pure (some (input, output))
  | fuel+1, input, output => do
    if input.available || output.available then
      let (input, ok) ← transferFill env d input
      if !ok then pure none
      else
        let (output, ok) ← transferDrain env d output
        if !ok then pure none else bufferTransferLoop d fuel input output
    else pure (some (input, output))

/- `block_status` of the transfer that fills the buffer and of the one that
   drains it. -/
def Direction.fillStatus : Direction → IoStatus
  | .input => .blockConn
  | .output => .blockData

def Direction.drainStatus : Direction → IoStatus
  | .input => .blockData
  | .output => .blockConn

/- `client_buffer_transfer` -/
def clientBufferTransfer (d : Direction) : Prog σ IoStatus := do
  if (← get).error.isSome then pure .error
  else match ← bufferTransferLoop env d env.fuel {} {} with
    | none =>
      clientSetStateFailed env
      pure .error
    | some (input, output) =>
      -- a CONNACK has changed the current store by now
      if !input.stale || !output.stale then storeTouch env (← get).currentStore
      if input.isEof || output.isEof then
        clientSetStateInitial env
        pure .ready
      else if input.result = .wouldBlock && ((← get).buf d).length = 0 then pure d.fillStatus
      else pure d.drainStatus

/- `client_process_input`, `client_process_output` -/
def clientProcessInput : Prog σ IoStatus := clientBufferTransfer env .input
def clientProcessOutput : Prog σ IoStatus := clientBufferTransfer env .output

/-! ### Keep alive -/

/- `lmqtt_store_get_timeout(client->current_store, ..)` -/
def currentTimeout : Prog σ (Bool × ℕ × ℤ × ℤ) := do
  let w ← get
  let (a, now) := env.getTime w.app
  let r := (w.store w.currentStore).getTimeout now
  -- the clock is read only where there is a timeout
  if r.1 then set { w with app := a }
  pure r

/- `client->internal.pingreq(client)` -/
def lmqttClientPingreq : Prog σ Bool := do
  if (← get).ops.pingreq then clientDoPingreq else pure false

/- `client_keep_alive` -/
def clientKeepAlive : Prog σ IoStatus := do
  if (← get).error.isSome then pure .error
  else
    let (has, count, secs, nsecs) ← currentTimeout env
    if !has || secs ≠ 0 || nsecs ≠ 0 then pure .ready
    else if 0 < count then
      modify fun w => { w with error := some .timeout, osError := 0 }
      clientSetStateFailed env
      pure .error
    else
      let _ ← lmqttClientPingreq
      pure .ready

/-! ### `lmqtt_client_run_once` -/

def resError : ℕ := 0x00ff
def resWouldBlockConnRd : ℕ := 0x0100
def resWouldBlockConnWr : ℕ := 0x0200
def resWouldBlockDataRd : ℕ := 0x0400
def resWouldBlockDataWr : ℕ := 0x0800
def resEof : ℕ := 0x1000
def resQueueable : ℕ := 0x2000

/- `client->error & LMQTT_RES_ERROR` -/
def errorResult (w : World σ) : ℕ := (w.error.elim 0 Error.code) &&& resError

/- `client_process_buffer`: whether to go on, the return value so far, and the
   string that blocks. -/
def clientProcessBuffer (process : Prog σ IoStatus) (connVal dataVal : ℕ)
    (blkStr : World σ → Option StrRef) (returnVal : ℕ) : Prog σ (Bool × ℕ × Option StrRef) := do
  match ← process with
  | .ready => pure (false, resEof ||| connVal, none)
  | .error =>
    assert env (← get).error.isSome
    pure (false, errorResult (← get), none)
  | .blockConn => pure (true, returnVal ||| connVal, none)
  | .blockData =>
    let s := blkStr (← get)
    pure (true, if s.isSome then returnVal ||| dataVal else returnVal, s)

/- `LMQTT_WOULD_BLOCK_CONN_WR` -/
def wouldBlockConnWr (res : ℕ) : Bool := res &&& (resEof ||| resWouldBlockConnWr) = resWouldBlockConnWr

/- `lmqtt_store_has_current(client->current_store)` -/
def currentHasCurrent (w : World σ) : Bool := (w.store w.currentStore).hasCurrent

/- The do loop of `lmqtt_client_run_once`: the result and the two strings. -/
def runOnceLoop : ℕ → Prog σ (ℕ × Option StrRef × Option StrRef)
  | 0 => throw .outOfFuel
  | fuel+1 => do
    let (go, result, strRd) ← clientProcessBuffer env (clientProcessOutput env)
      resWouldBlockConnWr resWouldBlockDataRd (·.tx.internal.buffer.blockingStr) 0
    if !go then pure (result, strRd, none)
    else
      let before := currentHasCurrent (← get)
      let (go, result, strWr) ← clientProcessBuffer env (clientProcessInput env)
        resWouldBlockConnRd resWouldBlockDataWr (·.rx.internal.blockingStr) result
      if !go then pure (result, strRd, strWr)
      else
        let w ← get
        -- once more if the input put something into an empty queue
        if !wouldBlockConnWr result && !before && currentHasCurrent w then runOnceLoop fuel
        else pure (if w.mainStore.isQueueable then result ||| resQueueable else result, strRd, strWr)

/- `lmqtt_client_run_once` -/
def lmqttClientRunOnce : Prog σ (ℕ × Option StrRef × Option StrRef) := do
  match ← clientKeepAlive env with
  | .error =>
    assert env (← get).error.isSome
    pure (errorResult (← get), none, none)
  | _ => runOnceLoop env env.fuel

/-! ### The life of a client -/

/- The sizes in `lmqtt_client_buffers_t`; `store` counts entries. -/
structure ClientBuffers where
  store : ℕ
  rx : ℕ
  tx : ℕ
  idSet : ℕ

/- The client after the `memset` and the assignments of
   `lmqtt_client_initialize`. -/
def clientCleared (buffers : ClientBuffers) (heap : Heap) (app : σ) : World σ where
  rx := { store := .connect, idSet := .empty buffers.idSet }
  tx := { store := .connect }
  readBufCapacity := buffers.rx
  writeBufCapacity := buffers.tx
  mainStore := .empty buffers.store
  connectStore := .empty 1
  currentStore := .connect
  heap := heap
  app := app

/- `lmqtt_client_reset` -/
def lmqttClientReset : Prog σ Unit := resetWith (clientSetStateInitial env)

/- `lmqtt_client_finalize` -/
def lmqttClientFinalize : Prog σ Unit := finalizeWith env (callValue env)

/- `lmqtt_client_set_default_timeout` -/
def lmqttClientSetDefaultTimeout (secs : UInt16) : Prog σ Unit :=
  modify fun w => { w with
    mainStore := { w.mainStore with timeout := secs }
    connectStore := { w.connectStore with timeout := secs } }

/- `lmqtt_client_get_timeout` -/
def lmqttClientGetTimeout : Prog σ (Bool × ℤ × ℤ) := do
  let (has, _, secs, nsecs) ← currentTimeout env
  pure (has, secs, nsecs)

end LightMqtt
