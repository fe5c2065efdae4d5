import LightMqtt.Turns

/-!
# Callbacks that only issue requests

A callback may connect, reset or finalize the client that calls it. Where the
callbacks of an application do none of this, the client runs as it does for the
application `EnvOf.requests`, whose callbacks have nothing but requests to issue.
-/

namespace LightMqtt

open Exec

variable {σ ρ : Type} [Reentrant ρ]

/-! ### The application without the other calls -/

def Reentry.request? : Reentry → Option Request
  | request q => some q
  | _ => none

def ReplyOf.issued (r : ReplyOf σ ρ) : Reply σ :=
  ⟨r.app, r.ok, r.requests.filterMap fun q => (Reentrant.call q).request?⟩

def EnvOf.requests (env : EnvOf σ ρ) : Env σ where
  onConnect := env.onConnect.map fun f a p ok => (f a p ok).issued
  onSubscribe := env.onSubscribe.map fun f a p ok => (f a p ok).issued
  onUnsubscribe := env.onUnsubscribe.map fun f a p ok => (f a p ok).issued
  onPublish := env.onPublish.map fun f a p ok => (f a p ok).issued
  message := {
    onPublish := env.message.onPublish.map fun f a m => (f a m).issued
    onPublishAllocateTopic := env.message.onPublishAllocateTopic
    onPublishAllocatePayload := env.message.onPublishAllocatePayload
    onPublishDeallocate := env.message.onPublishDeallocate }
  read := env.read
  write := env.write
  getTime := env.getTime
  strRead := env.strRead
  strWrite := env.strWrite
  ndebug := env.ndebug
  fuel := env.fuel

/- The callback calls nothing but requests. -/
def ReplyOf.OnlyRequests (r : ReplyOf σ ρ) : Prop := ∀ q ∈ r.requests, ∃ q', Reentrant.call q = .request q'

/-- No callback calls `lmqtt_client_connect`, `lmqtt_client_reset` or
`lmqtt_client_finalize`. -/
structure EnvOf.OnlyRequests (env : EnvOf σ ρ) : Prop where
  connect : ∀ f, env.onConnect = some f → ∀ a p ok, (f a p ok).OnlyRequests
  subscribe : ∀ f, env.onSubscribe = some f → ∀ a p ok, (f a p ok).OnlyRequests
  unsubscribe : ∀ f, env.onUnsubscribe = some f → ∀ a p ok, (f a p ok).OnlyRequests
  publish : ∀ f, env.onPublish = some f → ∀ a p ok, (f a p ok).OnlyRequests
  message : ∀ f, env.message.onPublish = some f → ∀ a m, (f a m).OnlyRequests

theorem Env.onlyRequests (env : Env σ) : env.OnlyRequests := by
  have hr : ∀ r : Reply σ, r.OnlyRequests := fun r q _ => ⟨q, rfl⟩
  exact ⟨fun _ _ _ _ _ => hr _, fun _ _ _ _ _ => hr _, fun _ _ _ _ _ => hr _, fun _ _ _ _ _ => hr _, fun _ _ _ _ => hr _⟩

/-! ### The two run alike -/

section Alike
variable {env : EnvOf σ ρ} {inner : Option (Value → Prog σ Bool)}

theorem callbackCalls_issued (r : ReplyOf σ ρ) (h : r.OnlyRequests) :
    callbackCalls env inner r.requests = doRequests r.issued.requests := by
  unfold ReplyOf.OnlyRequests ReplyOf.issued at *
  dsimp only
  generalize r.requests = qs at h
  induction qs with
  | nil => rfl
  | cons q qs ih =>
    obtain ⟨q', hq⟩ := h q List.mem_cons_self
    rw [callbackCalls, hq, ih fun x hx => h x (List.mem_cons_of_mem q hx),
      List.filterMap_cons_some (by rw [hq]; rfl), doRequests]
    exact bind_assoc (doRequest q') (fun _ => pure ()) fun _ => doRequests _

theorem callUser_issued (f : Option (σ → Ptr → Bool → ReplyOf σ ρ)) (hf : ∀ g, f = some g → ∀ a p ok, (g a p ok).OnlyRequests)
    (cb : Callback) (v : Value) (b : Bool) :
    callUser (callbackCalls env inner) f cb v b =
      callUser doRequests (f.map fun g a p ok => (g a p ok).issued) cb v b := by
  cases f with
  | none => rfl
  | some g =>
    simp only [callUser, Option.map_some, callbackCalls_issued _ (hf g rfl _ _ _)]
    rfl

variable (h : env.OnlyRequests)
include h

theorem clientCallback_requests (v : Value) : clientCallback env inner v = clientCallback env.requests inner v := by
  simp only [clientCallback, callbackCalls_requests, callUser_issued _ h.connect, callUser_issued _ h.subscribe,
    callUser_issued _ h.unsubscribe, callUser_issued _ h.publish]
  rfl

theorem callCallback_alike (depth : ℕ) : callCallback env depth = callCallback env.requests depth := by
  induction depth with
  | zero => exact funext fun v => clientCallback_requests h v
  | succ depth ih =>
    funext v
    rw [callCallback, callCallback, ih]
    exact clientCallback_requests h v

theorem callValue_requests : callValue env = callValue env.requests := callCallback_alike h env.fuel

theorem clientSetStateInitial_requests : clientSetStateInitial env = clientSetStateInitial env.requests := by
  rw [clientSetStateInitial, clientSetStateInitial, callValue_requests h]
  rfl

theorem lmqttClientReset_requests : lmqttClientReset env = lmqttClientReset env.requests := by
  rw [lmqttClientReset, lmqttClientReset, clientSetStateInitial_requests h]

theorem lmqttClientFinalize_requests : lmqttClientFinalize env = lmqttClientFinalize env.requests := by
  rw [lmqttClientFinalize, lmqttClientFinalize, callValue_requests h]
  rfl

/-! ### The decoder -/

omit h in
theorem ignoreUnwanted_requests (w : World σ) : w.ignoreUnwanted env = w.ignoreUnwanted env.requests := by
  simp only [World.ignoreUnwanted, EnvOf.requests, Option.isNone_map]

omit h in
theorem rxBufferDecodePublishPart_requests (bs : List Byte) :
    rxBufferDecodePublishPart env bs = rxBufferDecodePublishPart env.requests bs := by
  unfold rxBufferDecodePublishPart
  simp only [← ignoreUnwanted_requests]
  rfl

theorem rxBufferCallMessage_requests : rxBufferCallMessage env = rxBufferCallMessage env.requests := by
  unfold rxBufferCallMessage
  cases hf : env.message.onPublish with
  | none => simp only [EnvOf.requests, hf, Option.map_none]
  | some f =>
    simp only [callbackCalls_issued _ (h.message f hf _ _), callbackCalls_requests, EnvOf.requests, hf, Option.map_some]
    rfl

theorem rxBufferTakeMessage_requests : rxBufferTakeMessage env = rxBufferTakeMessage env.requests := by
  rw [rxBufferTakeMessage, rxBufferTakeMessage, rxBufferCallMessage_requests h]
  rfl

theorem rxBufferFinishPublish_requests : rxBufferFinishPublish env = rxBufferFinishPublish env.requests := by
  rw [rxBufferFinishPublish, rxBufferFinishPublish, rxBufferTakeMessage_requests h]
  rfl

theorem rxBufferDecodePublish_requests (bs : List Byte) :
    rxBufferDecodePublish env bs = rxBufferDecodePublish env.requests bs := by
  rw [rxBufferDecodePublish, rxBufferDecodePublish, rxBufferFinishPublish_requests h, rxBufferDecodePublishPart_requests]
  rfl

theorem rxBufferDecodeType_requests (d : Decoder) (bs : List Byte) :
    rxBufferDecodeType env d bs = rxBufferDecodeType env.requests d bs := by
  rw [rxBufferDecodeType, rxBufferDecodeType, rxBufferDecodePublish_requests h]
  rfl

theorem decodeRemaining_requests (d : Decoder) (bs : List Byte) :
    decodeRemaining env d bs = decodeRemaining env.requests d bs := by
  simp only [decodeRemaining, rxBufferDecodeRemainingWithId, rxBufferDecodeRemainingWithoutId, rxBufferDecodeType_requests h]
  rfl

theorem rxBufferFinishPacket_requests (d : Decoder) : rxBufferFinishPacket env d = rxBufferFinishPacket env.requests d := by
  rw [rxBufferFinishPacket, rxBufferFinishPacket, callValue_requests h]
  rfl

theorem rxBufferEndTurn_requests (count : ℕ) : rxBufferEndTurn env count = rxBufferEndTurn env.requests count := by
  simp only [rxBufferEndTurn, rxBufferFinishPacket_requests h]

theorem rxBufferDecodeTurn_requests (bs : List Byte) : rxBufferDecodeTurn env bs = rxBufferDecodeTurn env.requests bs := by
  simp only [rxBufferDecodeTurn, rxBufferDecodeBodyTurn, rxBufferDecodeHeaderTurn, rxBufferDecodedBytes,
    decodeRemaining_requests h, rxBufferEndTurn_requests h]
  rfl

theorem rxBufferDecodeLoop_requests (bufLen fuel : ℕ) (bs : List Byte) (bytesRead : ℕ) :
    rxBufferDecodeLoop env bufLen fuel bs bytesRead = rxBufferDecodeLoop env.requests bufLen fuel bs bytesRead := by
  induction fuel generalizing bs bytesRead with
  | zero => cases bs <;> rfl
  | succ fuel ih =>
    cases bs with
    | nil => rfl
    | cons b bs => simp only [rxBufferDecodeLoop, rxBufferDecodeTurn_requests h, ih]

theorem lmqttRxBufferDecode_requests (bs : List Byte) : lmqttRxBufferDecode env bs = lmqttRxBufferDecode env.requests bs := by
  simp only [lmqttRxBufferDecode, rxBufferDecodeLoop_requests h]
  rfl

/-! ### The encoder -/

theorem txBufferFinishEntry_requests (e : Entry) : txBufferFinishEntry env e = txBufferFinishEntry env.requests e := by
  rw [txBufferFinishEntry, txBufferFinishEntry, callValue_requests h]
  rfl

theorem txBufferEncodeLoop_requests (fuel : ℕ) (e : Option Entry) (bufLen : ℕ) (out : List Byte) :
    txBufferEncodeLoop env fuel e bufLen out = txBufferEncodeLoop env.requests fuel e bufLen out := by
  induction fuel generalizing e bufLen out with
  | zero => rfl
  | succ fuel ih =>
    cases e with
    | none => simp only [txBufferEncodeLoop, ih]
    | some e =>
      simp only [txBufferEncodeLoop, txBufferFinishEntry_requests h, ih]
      rfl

theorem lmqttTxBufferEncode_requests (bufLen : ℕ) :
    lmqttTxBufferEncode env bufLen = lmqttTxBufferEncode env.requests bufLen := by
  simp only [lmqttTxBufferEncode, txBufferEncodeLoop_requests h]
  rfl

/-! ### Acts and steps -/

theorem actRun_requests (a : Act σ) : a.run env = a.run env.requests := by
  cases a with
  | reset => exact lmqttClientReset_requests h
  | finalize => exact lmqttClientFinalize_requests h
  | decode bs => simp only [Act.run, lmqttRxBufferDecode_requests h]
  | encode bufLen => simp only [Act.run, lmqttTxBufferEncode_requests h]
  | eof => exact clientSetStateInitial_requests h
  | _ => rfl

theorem stepRun_requests (s : Step σ) : s.run env = s.run env.requests := by
  cases s with
  | call a => exact actRun_requests h a
  | send bufLen =>
    simp only [Step.run, txBufferTurn, txBufferFinishEntry_requests h]
    rfl
  | read bs => simp only [Step.run, rxBufferDecodeTurn_requests h]
  | exit => rfl

theorem lmqttClientInitialize_requests : lmqttClientInitialize env = lmqttClientInitialize env.requests :=
  clientSetStateInitial_requests h

end Alike

/-! ### Runs -/

section Runs
variable {env : EnvOf σ ρ} (h : env.OnlyRequests)
include h

theorem Reached.requests {P : World σ → Prop} {w : World σ} (hw : Reached env P w) : Reached env.requests P w := by
  induction hw with
  | start buffers heap app w hw =>
    rw [lmqttClientInitialize_requests h] at hw
    exact .start buffers heap app w hw
  | act w w' a _ ha hrun ih =>
    rw [actRun_requests h] at hrun
    exact .act w w' a ih ha hrun

theorem ReachedBy.requests {C : World σ → Act σ → Prop} {w : World σ} (hw : ReachedBy env C w) :
    ReachedBy env.requests C w := by
  induction hw with
  | start buffers heap app w hw =>
    rw [lmqttClientInitialize_requests h] at hw
    exact .start buffers heap app w hw
  | act w w' a _ hc ha hrun ih =>
    rw [actRun_requests h] at hrun
    exact .act w w' a ih hc ha hrun

theorem Stepped.requests {C : World σ → Step σ → Prop} {w : World σ} (hw : Stepped env C w) : Stepped env.requests C w := by
  induction hw with
  | start buffers heap app w hw =>
    rw [lmqttClientInitialize_requests h] at hw
    exact .start buffers heap app w hw
  | step w w' s _ hc hs hrun ih =>
    rw [stepRun_requests h] at hrun
    exact .step w w' s ih hc hs hrun

theorem Steps.requests {C : World σ → Step σ → Prop} {w w' : World σ} (hw : Steps env C w w') : Steps env.requests C w w' := by
  induction hw with
  | refl => exact .refl
  | step v v' s _ hc hs hrun ih =>
    rw [stepRun_requests h] at hrun
    exact .step v v' s ih hc hs hrun

end Runs

end LightMqtt
