import LightMqtt.World

/-!
# Requests, callbacks and the states of a client (`client.c`)

What can happen inside a callback: the requests of the API, the callbacks the
client registers with its stored packets, and the changes of state, which flush
the stores and so call callbacks again.
-/

namespace LightMqtt

variable {σ ρ : Type} [Reentrant ρ] (env : EnvOf σ ρ)

/-! ### Requests -/

/- `lmqtt_store_append` to the main store for a request of the API. The serial
   number, what is noted of its id and the log entry are ghosts. -/
def clientAppendRequest (kind : Kind) (cb : Callback) (id : PacketId) (p : Ptr) : Prog σ Bool := do
  let w ← get
  let value : Value := { packetId := id, value := p, callback := some cb, req := some w.nextReq }
  match w.mainStore.append ⟨kind, value⟩ with
  | none => pure false
  | some s =>
    set { w with
      mainStore := s
      nextReq := w.nextReq + 1
      ids := w.ids.give w.nextReq
      log := .accepted w.nextReq kind id p (w.idInUse id) :: w.log }
    pure true

/- `lmqtt_store_get_id(&client->main_store)` -/
def clientGetId : Prog σ PacketId := do
  let w ← get
  let (id, s) := w.mainStore.getId
  set { w with mainStore := s, ids := w.ids.draw }
  pure id

/- `client_subscribe_with_kind` -/
def clientSubscribeWithKind (p : Ptr) (kind : Kind) (cb : Callback) : Prog σ Bool := do
  let w ← get
  if !subscribeValidate (w.heap.subscribes p) then pure false
  else
    let id ← clientGetId
    clientAppendRequest kind cb id p

/- `client_do_publish` -/
def clientDoPublish (p : Ptr) : Prog σ Bool := do
  let w ← get
  let b := w.heap.publishes p
  if !publishValidate b then pure false
  else if b.qos = 0 then clientAppendRequest .publish0 .onPublish 0 p
  else
    let id ← clientGetId
    clientAppendRequest (if b.qos = 1 then .publish1 else .publish2) .onPublish id p

/- `client_do_pingreq` -/
def clientDoPingreq : Prog σ Bool := do
  let w ← get
  match w.mainStore.append ⟨.pingreq, { callback := some .onPingresp }⟩ with
  | none => pure false
  | some s => set { w with mainStore := s }; pure true

/- `client_do_disconnect` -/
def clientDoDisconnect : Prog σ Bool := do
  let w ← get
  match w.mainStore.append ⟨.disconnect, {}⟩ with
  | none => pure false
  | some s => set { w with mainStore := s }; pure true

def lmqttClientSubscribe (p : Ptr) : Prog σ Bool := do
  if (← get).ops.subscribe then clientSubscribeWithKind p .subscribe .onSuback else pure false

def lmqttClientUnsubscribe (p : Ptr) : Prog σ Bool := do
  if (← get).ops.unsubscribe then clientSubscribeWithKind p .unsubscribe .onUnsuback else pure false

def lmqttClientPublish (p : Ptr) : Prog σ Bool := do
  if (← get).ops.publish then clientDoPublish p else pure false

def lmqttClientDisconnect : Prog σ Bool := do
  if (← get).ops.disconnect then clientDoDisconnect else pure false

def doRequest : Request → Prog σ Bool
  | .subscribe p => lmqttClientSubscribe p
  | .unsubscribe p => lmqttClientUnsubscribe p
  | .publish p => lmqttClientPublish p
  | .disconnect => lmqttClientDisconnect

def doRequests : List Request → Prog σ Unit
  | [] => pure ()
  | q :: qs => do
    let _ ← doRequest q
    doRequests qs

/-! ### State changes -/

/- `client_flush_store`; `call` calls the callback of a value. -/
def clientFlushStore (call : Value → Prog σ Bool) (r : StoreRef) : ℕ → Prog σ Unit
  | 0 => do
    if ((← get).store r).shift.isSome then throw .outOfFuel
  | fuel+1 => do
    let w ← get
    match (w.store r).shift with
    | none => pure ()
    | some (e, s) =>
      set (w.setStore r s)
      if e.value.callback.isSome then
        let _ ← call e.value
      clientFlushStore call r fuel

/- The loop of `client_cleanup_stores` that keeps the session, from index `i`
   on; `fuel` counts the entries that are still to be looked at. -/
def deleteSessionless : ℕ → ℕ → Store → Store
  | 0, _, s => s
  | fuel+1, i, s =>
    match s.getAt i with
    | none => s
    | some e =>
      if e.kind = .pingreq ∨ e.kind = .disconnect then deleteSessionless fuel i (s.deleteAt i)
      else deleteSessionless fuel (i+1) s

/- The loop only deletes, and only pings and disconnects. -/
theorem deleteSessionless_spec (fuel i : ℕ) (s : Store) (x : Entry) :
    (x ∈ (deleteSessionless fuel i s).entries → x ∈ s.entries) ∧
      (x ∈ (deleteSessionless fuel i s).sent → x ∈ s.sent) ∧
      (x ∈ s.entries → x.kind ≠ .pingreq → x.kind ≠ .disconnect →
        x ∈ (deleteSessionless fuel i s).entries) := by
  induction fuel generalizing i s with
  | zero => exact ⟨id, id, fun hx _ _ => hx⟩
  | succ fuel ih =>
    unfold deleteSessionless
    cases hg : s.getAt i with
    | none => exact ⟨id, id, fun hx _ _ => hx⟩
    | some e =>
      simp only
      split
      · rename_i hk
        obtain ⟨pre, post, hr⟩ := Store.deleteAt_spec s i e hg
        obtain ⟨h1, h2, h3⟩ := ih i (s.deleteAt i)
        refine ⟨fun hx => hr.subset (h1 hx), fun hx => hr.sent_subset (h2 hx), ?_⟩
        intro hx hp hd
        rcases hr.mem_or hx with rfl | hx
        · tauto
        · exact h3 hx hp hd
      · exact ih (i+1) s

theorem deleteSessionless_sublist (fuel i : ℕ) (s : Store) :
    (deleteSessionless fuel i s).entries.Sublist s.entries := by
  induction fuel generalizing i s with
  | zero => exact List.Sublist.refl _
  | succ fuel ih =>
    unfold deleteSessionless
    cases hg : s.getAt i with
    | none => exact List.Sublist.refl _
    | some e =>
      simp only
      split
      · obtain ⟨pre, post, hr⟩ := Store.deleteAt_spec s i e hg
        refine (ih i (s.deleteAt i)).trans ?_
        rw [hr.before, hr.after]
        exact List.Sublist.append_left (List.sublist_cons_self e post) pre
      · exact ih (i+1) s

/- `client_cleanup_stores` -/
def clientCleanupStores (call : Value → Prog σ Bool) (keepSession : Bool) : Prog σ Unit := do
  if keepSession then
    modify fun w => { w with mainStore := deleteSessionless w.mainStore.count 0 w.mainStore }
  else
    clientFlushStore call .main env.fuel
    modify fun w => { w with rx := { w.rx with idSet := w.rx.idSet.clear } }
  clientFlushStore call .connect env.fuel

/- `client_set_current_store` -/
def clientSetCurrentStore (r : StoreRef) : Prog σ Unit :=
  modify fun w => { w with
    currentStore := r
    rx := { w.rx with store := r }
    tx := { w.tx with store := r } }

/- `lmqtt_store_touch` -/
def storeTouch (r : StoreRef) : Prog σ Unit :=
  modify fun w =>
    let (a, now) := env.getTime w.app
    { w.setStore r ((w.store r).touch now) with app := a }

/- A store holds an entry of a request of the API. -/
def Store.hasRequest (s : Store) : Bool := s.entries.any fun e => e.value.req.isSome

/- `client_set_state_connected` -/
def clientSetStateConnected (call : Value → Prog σ Bool) : Prog σ Unit := do
  modify fun w => { w with
    error := none
    osError := 0
    closed := false
    log := .connected w.cleanSession :: w.log
    leftover := w.leftover || w.cleanSession && w.mainStore.hasRequest }
  clientSetCurrentStore .main
  clientCleanupStores env call (!(← get).cleanSession)
  modify fun w => { w with
    mainStore := w.mainStore.unmarkAll
    ops := { w.ops with
      subscribe := true, unsubscribe := true, publish := true, pingreq := true, disconnect := true } }

/- `lmqtt_tx_buffer_reset`, `lmqtt_tx_buffer_finish`, `lmqtt_rx_buffer_reset` -/
def World.resetTx (w : World σ) : World σ := { w with tx := { w.tx with closed := false, internal := {} } }
def World.finishTx (w : World σ) : World σ := { w with tx := { w.tx with closed := true } }
def lmqttTxBufferReset : Prog σ Unit := modify World.resetTx
def lmqttTxBufferFinish : Prog σ Unit := modify World.finishTx
def lmqttRxBufferReset : Prog σ Unit := modify fun w => w.setRx {}

/- `client_set_state_connecting` -/
def clientSetStateConnecting : Prog σ Unit := do
  modify fun w => { w with error := none, osError := 0, closed := false }
  lmqttRxBufferReset
  lmqttTxBufferReset
  modify fun w => { w with readBuf := [], writeBuf := [], ops := { w.ops with connect := false } }

/- `client_set_state_failed` -/
def clientSetStateFailed : Prog σ Unit := do
  assert env (← get).error.isSome
  modify fun w => { w with closed := true, ops := {} }

/- `client_do_connect` -/
def clientDoConnect (p : Ptr) : Prog σ Bool := do
  let w ← get
  if !connectValidate (w.heap.connects p) then pure false
  else
    let value : Value := { value := p, callback := some .onConnack, req := some w.nextReq }
    match w.connectStore.append ⟨.connect, value⟩ with
    | none => pure false
    | some s =>
      set { w with
        connectStore := s
        nextReq := w.nextReq + 1
        log := .connecting w.nextReq p :: w.log }
      clientSetStateConnecting
      pure true

/- `lmqtt_client_connect` -/
def lmqttClientConnect (p : Ptr) : Prog σ Bool := do
  if (← get).ops.connect then clientDoConnect p else pure false

/- `client_set_state_initial`; `call` calls the callback of a flushed value. -/
def setStateInitialWith (call : Value → Prog σ Bool) : Prog σ Unit := do
  modify fun w => { w with error := none, osError := 0, closed := true, log := .closed :: w.log }
  storeTouch env .connect
  clientSetCurrentStore .connect
  clientCleanupStores env call (!(← get).cleanSession)
  lmqttTxBufferFinish
  modify fun w => { w with ops := { connect := true } }

/- `lmqtt_client_reset` -/
def resetWith (setStateInitial : Prog σ Unit) : Prog σ Unit := do
  let w ← get
  if w.closed && w.error ≠ some .closed then setStateInitial

/- The ghost of a call of the callback of the decoder's request. -/
def World.calling (w : World σ) : World σ :=
  w.setRx { w.rx.internal with calls := w.rx.internal.calls + 1 }

/- `lmqtt_rx_buffer_finish` -/
def rxBufferFinishWith (call : Value → Prog σ Bool) : Prog σ Unit := do
  let w ← get
  modify World.calling
  let _ ← call w.rx.internal.value

/- `lmqtt_client_finalize` -/
def finalizeWith (call : Value → Prog σ Bool) : Prog σ Unit := do
  modify fun w => { w with error := some .closed, osError := 0 }
  clientSetStateFailed env
  rxBufferFinishWith call
  clientCleanupStores env call false

/-! ### Callbacks -/

/- What a callback calls before it returns. `inner` calls the callbacks that are called
   inside it; there is none where the calls nest too deep. -/
def callbackCall (inner : Option (Value → Prog σ Bool)) : Reentry → Prog σ Unit
  | .request q => do let _ ← doRequest q
  | .connect p => do let _ ← lmqttClientConnect p
  | .reset =>
    match inner with
    | none => throw .outOfFuel
    | some call => resetWith (setStateInitialWith env call)
  | .finalize =>
    match inner with
    | none => throw .outOfFuel
    | some call => finalizeWith env call

def callbackCalls (inner : Option (Value → Prog σ Bool)) : List ρ → Prog σ Unit
  | [] => pure ()
  | q :: qs => do
    callbackCall env inner (Reentrant.call q)
    callbackCalls inner qs

/- Calls a callback the application may have registered for a request; `reenter` makes
   the calls it makes before it returns. -/
def callUser (reenter : List ρ → Prog σ Unit) (f : Option (σ → Ptr → Bool → ReplyOf σ ρ)) (cb : Callback)
    (v : Value) (succeeded : Bool) : Prog σ Bool := do
  emit (.answered cb v.req v.value succeeded)
  match f with
  | none => pure true
  | some f =>
    let w ← get
    let r := f w.app v.value succeeded
    set { w with app := r.app }
    reenter r.requests
    pure r.ok

/- `client_on_connack`, `client_on_suback`, `client_on_unsuback`, `client_on_publish` and
   `client_on_pingresp`. -/
def clientCallback (inner : Option (Value → Prog σ Bool)) (v : Value) : Prog σ Bool := do
  let w ← get
  match v.callback with
  | none => pure true
  | some .onConnack =>
    if w.closed then callUser (callbackCalls env inner) env.onConnect .onConnack v false
    else match inner with
      | none => throw .outOfFuel
      | some call => do
        let connect := w.heap.connects v.value
        set { w with
          cleanSession := connect.cleanSession
          mainStore := { w.mainStore with keepAlive := connect.keepAlive } }
        clientSetStateConnected env call
        callUser (callbackCalls env inner) env.onConnect .onConnack v true
  | some .onSuback => callUser (callbackCalls env inner) env.onSubscribe .onSuback v (!w.closed)
  | some .onUnsuback => callUser (callbackCalls env inner) env.onUnsubscribe .onUnsuback v (!w.closed)
  | some .onPublish => callUser (callbackCalls env inner) env.onPublish .onPublish v (!w.closed)
  | some .onPingresp => pure true

/- `value->callback(value->callback_data, value->value)`. A CONNACK flushes stores, and so
   do some calls of a callback: the calls nest, and `depth` bounds how deep. -/
def callCallback : ℕ → Value → Prog σ Bool
  | 0 => clientCallback env none
  | depth+1 => clientCallback env (some (callCallback depth))

/- The calls inside a call at `depth`. -/
def callInside : ℕ → Option (Value → Prog σ Bool)
  | 0 => none
  | depth+1 => some (callCallback env depth)

theorem callCallback_eq (depth : ℕ) : callCallback env depth = clientCallback env (callInside env depth) := by
  cases depth <;> rfl

/- The call of a callback at the outermost level. -/
def callValue (v : Value) : Prog σ Bool := callCallback env env.fuel v

/- `client_set_state_initial` -/
def clientSetStateInitial : Prog σ Unit := setStateInitialWith env (callValue env)

section Requests
variable (env : Env σ)

/- A callback that only issues requests does not call callbacks. -/
@[simp] theorem callbackCalls_requests (inner : Option (Value → Prog σ Bool)) :
    callbackCalls env inner = doRequests := by
  funext qs
  induction qs with
  | nil => rfl
  | cons q qs ih =>
    rw [callbackCalls, ih, doRequests]
    exact bind_assoc (doRequest q) (fun _ => pure ()) fun _ => doRequests qs

/- The callbacks of the client, where those of the application only issue requests. -/
theorem callCallback_requests (depth : ℕ) (v : Value) :
    callCallback env depth v = (do
      let w ← get
      match v.callback with
      | none => pure true
      | some .onConnack =>
        if w.closed then callUser doRequests env.onConnect .onConnack v false
        else match depth with
          | 0 => throw .outOfFuel
          | depth+1 => do
            let connect := w.heap.connects v.value
            set { w with
              cleanSession := connect.cleanSession
              mainStore := { w.mainStore with keepAlive := connect.keepAlive } }
            clientSetStateConnected env (callCallback env depth)
            callUser doRequests env.onConnect .onConnack v true
      | some .onSuback => callUser doRequests env.onSubscribe .onSuback v (!w.closed)
      | some .onUnsuback => callUser doRequests env.onUnsubscribe .onUnsuback v (!w.closed)
      | some .onPublish => callUser doRequests env.onPublish .onPublish v (!w.closed)
      | some .onPingresp => pure true) := by
  cases depth <;> simp only [callCallback, clientCallback, callbackCalls_requests]

end Requests

end LightMqtt
