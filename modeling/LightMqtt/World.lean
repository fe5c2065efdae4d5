import LightMqtt.IdSet
import LightMqtt.Base.Wp
import LightMqtt.Objects

/-!
# The state of a client and of its application

`World` is the `lmqtt_client_t` together with what its pointers reach: the heap
of objects, the state of the application behind the callbacks, and a log of the
calls and packets that claims about runs speak of. `Env` holds the callbacks.

Programs run in the monad of states that may be halted: `assertFailed` is the
abort of an `assert()`, `outOfFuel` cuts a loop off after `fuel` turns. A halted
run keeps the state it was halted in.
-/

namespace LightMqtt

inductive Halt
  | assertFailed | outOfFuel
  deriving DecidableEq, Repr

/- Which store `rx_state.store`, `tx_state.store` and `current_store` point to. -/
inductive StoreRef
  | main | connect
  deriving DecidableEq, Repr

inductive PublishPart
  | topic | payload
  deriving DecidableEq, Repr

/-- What happened, newest first in `World.log`. Only claims read it. -/
inductive Event
  /- `lmqtt_client_connect` accepted the connect object `p` -/
  | connecting (req : ℕ) (p : Ptr)
  /- a CONNACK with return code 0 was decoded, in reply to a CONNECT with this
     `clean_session` -/
  | connected (cleanSession : Bool)
  /- the client went back to its initial state -/
  | closed
  /- the API accepted a request; `inUse` if an entry in flight has its id -/
  | accepted (req : ℕ) (kind : Kind) (id : PacketId) (p : Ptr) (inUse : Bool)
  /- the callback of a request is called -/
  | answered (cb : Callback) (req : Option ℕ) (p : Ptr) (succeeded : Bool)
  /- a field encoder of an entry is called; an entry was encoded to its end -/
  | encode (kind : Kind) (id : PacketId) (req : Option ℕ) (field : ℕ)
  | encoded (kind : Kind) (id : PacketId) (req : Option ℕ)
  /- the packet id of an incoming packet was read; its request was found -/
  | packetId (type : ℕ) (id : PacketId)
  | popped (kind : Kind) (id : PacketId) (req : Option ℕ)
  /- the last byte of an incoming packet was taken, and its request is answered
     next; a packet was processed to its end without an error -/
  | decoded (type : ℕ) (id : PacketId)
  | finished (type : ℕ) (id : PacketId)
  /- calls of the message callbacks -/
  | allocate (part : PublishPart) (len : ℕ)
  | message (id : PacketId) (publish : Publish)
  | deallocate
  deriving DecidableEq, Repr

/-! ### Callbacks -/

inductive Request
  | subscribe (p : Ptr) | unsubscribe (p : Ptr) | publish (p : Ptr) | disconnect
  deriving DecidableEq, Repr

/-- What a callback may call before it returns. A request is refused unless the client
is connected; `lmqtt_client_connect`, `lmqtt_client_reset` and `lmqtt_client_finalize`
change the state of the client under the function that called the callback. -/
inductive Reentry
  | request (q : Request) | connect (p : Ptr) | reset | finalize
  deriving DecidableEq, Repr

/- The calls `ρ` that the callbacks of an application make: `Reentry` if they may make all
   of them, `Request` if they only issue requests. -/
class Reentrant (ρ : Type) where
  call : ρ → Reentry

instance : Reentrant Reentry := ⟨id⟩
instance : Reentrant Request := ⟨.request⟩

/- The answer of a callback that returns an int: `ok` if it is not 0. -/
structure ReplyOf (σ ρ : Type) where
  app : σ
  ok : Bool
  requests : List ρ := []

structure Allocation (σ : Type) where
  app : σ
  result : AllocateResult
  str : LString

/- The answer of a `read` callback: what it moved, and its `os_error`. -/
structure ReadReply (σ : Type) where
  app : σ
  result : IoResult
  bytes : List Byte
  osError : ℤ := 0

structure WriteReply (σ : Type) where
  app : σ
  result : IoResult
  count : ℕ
  osError : ℤ := 0

/-- `lmqtt_message_callbacks_t`; `none` is a NULL pointer. -/
structure MessageCallbacksOf (σ ρ : Type) where
  onPublish : Option (σ → Publish → ReplyOf σ ρ) := none
  onPublishAllocateTopic : Option (σ → Publish → ℕ → Allocation σ) := none
  onPublishAllocatePayload : Option (σ → Publish → ℕ → Allocation σ) := none
  onPublishDeallocate : Option (σ → Publish → σ) := none

/-- The application, as functions of its own state `σ`, and how the client was
built (`ndebug`). `strRead` and `strWrite` are the string callbacks; their first
number is the `data` of the string. -/
structure EnvOf (σ ρ : Type) where
  onConnect : Option (σ → Ptr → Bool → ReplyOf σ ρ) := none
  onSubscribe : Option (σ → Ptr → Bool → ReplyOf σ ρ) := none
  onUnsubscribe : Option (σ → Ptr → Bool → ReplyOf σ ρ) := none
  onPublish : Option (σ → Ptr → Bool → ReplyOf σ ρ) := none
  message : MessageCallbacksOf σ ρ := {}
  read : σ → ℕ → ReadReply σ
  write : σ → List Byte → WriteReply σ
  getTime : σ → σ × Time
  strRead : σ → ℕ → ℕ → ReadReply σ
  strWrite : σ → ℕ → List Byte → WriteReply σ
  ndebug : Bool := false
  fuel : ℕ

/-- An application whose callbacks only issue requests. -/
abbrev Env (σ : Type) := EnvOf σ Request
abbrev Reply (σ : Type) := ReplyOf σ Request

/-! ### Buffers -/

/-- `lmqtt_encode_buffer_t`; `buf` is the array up to `buf_len`. -/
structure EncodeBuffer where
  encoded : Bool := false
  buf : List Byte := []
  blockingStr : Option StrRef := none
  error : Option Error := none
  osError : ℤ := 0
  deriving DecidableEq, Repr

structure TxInternal where
  pos : ℕ := 0
  offset : ℕ := 0
  buffer : EncodeBuffer := {}
  error : Option Error := none
  osError : ℤ := 0
  deriving DecidableEq, Repr

/-- `lmqtt_tx_buffer_t` -/
structure TxBuffer where
  store : StoreRef
  closed : Bool := false
  internal : TxInternal := {}
  deriving DecidableEq, Repr

/-- `lmqtt_fixed_header_t` -/
structure FixedHeader where
  type : ℕ := 0
  dup : ℕ := 0
  qos : ℕ := 0
  retain : ℕ := 0
  remainingLength : ℕ := 0
  bytesRead : ℕ := 0
  error : Option Error := none
  remainLenMultiplier : ℕ := 0
  remainLenAccumulator : ℕ := 0
  remainLenFinished : Bool := false
  deriving DecidableEq, Repr

/- The functions a decoder table entry points to. -/
inductive PopPacket
  | withoutId | withId | ignore | pubrel
  deriving DecidableEq, Repr

inductive DecodeRemaining
  | withoutId | withId
  deriving DecidableEq, Repr

inductive DecodeBytes
  | connack | publish | suback
  deriving DecidableEq, Repr

/-- `struct _lmqtt_rx_buffer_decoder_t` -/
structure Decoder where
  minLength : ℕ
  kind : Option Kind
  popPacketWithoutId : PopPacket
  popPacketWithId : PopPacket
  decodeRemaining : DecodeRemaining
  decodeBytes : Option DecodeBytes
  callbackError : Option Error
  deriving DecidableEq, Repr

/- `calls` is a ghost: how often the callback of `value` was called. -/
structure RxInternal where
  header : FixedHeader := {}
  headerFinished : Bool := false
  decoder : Option Decoder := none
  remainBufPos : ℕ := 0
  topicLen : ℕ := 0
  packetId : PacketId := 0
  value : Value := {}
  calls : ℕ := 0
  publish : Publish := {}
  ignorePublish : Bool := false
  blockingStr : Option StrRef := none
  error : Option Error := none
  osError : ℤ := 0
  deriving DecidableEq, Repr

/-- `lmqtt_rx_buffer_t` -/
structure RxBuffer where
  store : StoreRef
  idSet : IdSet
  internal : RxInternal := {}
  deriving DecidableEq, Repr

/- The function pointers `client->internal`: whether each points to the
   function that works (`client_do_*`) or to the one that fails. -/
structure Ops where
  connect : Bool := false
  subscribe : Bool := false
  unsubscribe : Bool := false
  publish : Bool := false
  pingreq : Bool := false
  disconnect : Bool := false
  deriving DecidableEq, Repr

/-- What became of the packet ids: how many were taken, whether the last of them
has not been given to a request, and which one each request was given, counted from
1 on. -/
structure DrawnIds where
  taken : ℕ := 0
  fresh : Bool := false
  number : ℕ → ℕ := fun _ => 0

def DrawnIds.draw (d : DrawnIds) : DrawnIds := { d with taken := d.taken + 1, fresh := true }

def DrawnIds.give (d : DrawnIds) (req : ℕ) : DrawnIds :=
  { d with fresh := false, number := Function.update d.number req d.taken }

/- `nextReq`, `ids`, `log` and `leftover` are ghosts: `leftover` says that a CONNACK
   for a clean session found requests in the main store. -/
structure World (σ : Type) where
  closed : Bool := false
  cleanSession : Bool := false
  rx : RxBuffer
  tx : TxBuffer
  readBuf : List Byte := []
  readBufCapacity : ℕ
  writeBuf : List Byte := []
  writeBufCapacity : ℕ
  mainStore : Store
  connectStore : Store
  currentStore : StoreRef
  error : Option Error := none
  osError : ℤ := 0
  ops : Ops := {}
  heap : Heap
  app : σ
  nextReq : ℕ := 0
  ids : DrawnIds := {}
  log : List Event := []
  leftover : Bool := false

abbrev Prog (σ : Type) := EStateM Halt (World σ)

namespace World
variable {σ : Type}

def store (w : World σ) : StoreRef → Store
  | .main => w.mainStore
  | .connect => w.connectStore

def setStore (w : World σ) (r : StoreRef) (s : Store) : World σ :=
  match r with
  | .main => { w with mainStore := s }
  | .connect => { w with connectStore := s }

def setRx (w : World σ) (i : RxInternal) : World σ := { w with rx := { w.rx with internal := i } }
def setTx (w : World σ) (i : TxInternal) : World σ := { w with tx := { w.tx with internal := i } }
def emit (w : World σ) (e : Event) : World σ := { w with log := e :: w.log }

/- An entry in flight already has the packet id. -/
def idInUse (w : World σ) (id : PacketId) : Bool :=
  w.mainStore.entries.any fun e => e.kind.inFlight && e.value.packetId = id

/- The store of the decoder and of the encoder. -/
def rxStore (w : World σ) : Store := w.store w.rx.store
def txStore (w : World σ) : Store := w.store w.tx.store

def str (w : World σ) : StrRef → LString
  | .connectClientId p => (w.heap.connects p).clientId
  | .connectWillTopic p => (w.heap.connects p).willTopic
  | .connectWillMessage p => (w.heap.connects p).willMessage
  | .connectUserName p => (w.heap.connects p).userName
  | .connectPassword p => (w.heap.connects p).password
  | .subscriptionTopic p i => (w.heap.subscription p i).topic
  | .publishTopic p => (w.heap.publishes p).topic
  | .publishPayload p => (w.heap.publishes p).payload
  | .rxTopic => w.rx.internal.publish.topic
  | .rxPayload => w.rx.internal.publish.payload

def setStr (w : World σ) (r : StrRef) (s : LString) : World σ :=
  match r with
  | .connectClientId p => { w with heap := w.heap.setConnect p { w.heap.connects p with clientId := s } }
  | .connectWillTopic p => { w with heap := w.heap.setConnect p { w.heap.connects p with willTopic := s } }
  | .connectWillMessage p => { w with heap := w.heap.setConnect p { w.heap.connects p with willMessage := s } }
  | .connectUserName p => { w with heap := w.heap.setConnect p { w.heap.connects p with userName := s } }
  | .connectPassword p => { w with heap := w.heap.setConnect p { w.heap.connects p with password := s } }
  | .subscriptionTopic p i => { w with heap := w.heap.modifySubscription p i fun x => { x with topic := s } }
  | .publishTopic p => { w with heap := w.heap.setPublish p { w.heap.publishes p with topic := s } }
  | .publishPayload p => { w with heap := w.heap.setPublish p { w.heap.publishes p with payload := s } }
  | .rxTopic => w.setRx { w.rx.internal with publish := { w.rx.internal.publish with topic := s } }
  | .rxPayload => w.setRx { w.rx.internal with publish := { w.rx.internal.publish with payload := s } }

/-! ### What an update leaves alone -/

section Updates
variable (w : World σ) (r r' : StoreRef) (s s' : Store)

theorem store_setStore : (w.setStore r s).store r' = if r' = r then s else w.store r' := by
  cases r <;> cases r' <;> rfl

@[simp] theorem store_setStore_self : (w.setStore r s).store r = s := by cases r <;> rfl
@[simp] theorem setStore_setStore : (w.setStore r s).setStore r s' = w.setStore r s' := by
  cases r <;> rfl
@[simp] theorem setStore_store : w.setStore r (w.store r) = w := by cases r <;> rfl
@[simp] theorem setStore_rx : (w.setStore r s).rx = w.rx := by cases r <;> rfl
@[simp] theorem setStore_tx : (w.setStore r s).tx = w.tx := by cases r <;> rfl
@[simp] theorem setStore_closed : (w.setStore r s).closed = w.closed := by cases r <;> rfl
@[simp] theorem setStore_cleanSession : (w.setStore r s).cleanSession = w.cleanSession := by
  cases r <;> rfl
@[simp] theorem setStore_currentStore : (w.setStore r s).currentStore = w.currentStore := by
  cases r <;> rfl
@[simp] theorem setStore_error : (w.setStore r s).error = w.error := by cases r <;> rfl
@[simp] theorem setStore_ops : (w.setStore r s).ops = w.ops := by cases r <;> rfl
@[simp] theorem setStore_heap : (w.setStore r s).heap = w.heap := by cases r <;> rfl
@[simp] theorem setStore_app : (w.setStore r s).app = w.app := by cases r <;> rfl
@[simp] theorem setStore_nextReq : (w.setStore r s).nextReq = w.nextReq := by cases r <;> rfl
@[simp] theorem setStore_ids : (w.setStore r s).ids = w.ids := by cases r <;> rfl
@[simp] theorem setStore_leftover : (w.setStore r s).leftover = w.leftover := by cases r <;> rfl
@[simp] theorem setStore_log : (w.setStore r s).log = w.log := by cases r <;> rfl
@[simp] theorem setStore_readBuf : (w.setStore r s).readBuf = w.readBuf := by cases r <;> rfl
@[simp] theorem setStore_writeBuf : (w.setStore r s).writeBuf = w.writeBuf := by cases r <;> rfl

@[simp] theorem store_emit (e : Event) : (w.emit e).store r = w.store r := by cases r <;> rfl
@[simp] theorem store_setRx (i : RxInternal) : (w.setRx i).store r = w.store r := by cases r <;> rfl
@[simp] theorem store_setTx (i : TxInternal) : (w.setTx i).store r = w.store r := by cases r <;> rfl
theorem setStore_emit (e : Event) : (w.emit e).setStore r s = (w.setStore r s).emit e := by
  cases r <;> rfl
end Updates

end World

/- `assert(c)`; the build with NDEBUG does not evaluate it. -/
def assert {σ ρ : Type} (env : EnvOf σ ρ) (c : Bool) : Prog σ Unit :=
  if env.ndebug || c then pure () else throw .assertFailed

def emit {σ : Type} (e : Event) : Prog σ Unit := modify fun w => w.emit e

@[simp] theorem wp_assert {σ ρ : Type} (env : EnvOf σ ρ) (c : Bool) (w : World σ) (Q : Unit → World σ → Prop)
    (E : Halt → World σ → Prop) : Exec.Wp (assert env c) w Q E ↔
      if (env.ndebug || c) = true then Q () w else E .assertFailed w := by
  unfold assert
  split <;> rfl

theorem wp_assert_bind {σ ρ α : Type} {env : EnvOf σ ρ} {c : Bool} {p : Unit → Prog σ α} {w : World σ}
    {Q : α → World σ → Prop} {E : Halt → World σ → Prop}
    (hp : (env.ndebug || c) = true → Exec.Wp (p ()) w Q E)
    (he : (env.ndebug || c) = false → E .assertFailed w) : Exec.Wp (assert env c >>= p) w Q E := by
  rw [Exec.wp_bind, wp_assert]
  split
  · rename_i h
    exact hp h
  · rename_i h
    exact he (by simpa using h)

@[simp] theorem wp_emit {σ : Type} (e : Event) (w : World σ) (Q : Unit → World σ → Prop)
    (E : Halt → World σ → Prop) : Exec.Wp (emit e) w Q E ↔ Q () (w.emit e) := Iff.rfl

end LightMqtt
