import LightMqtt.Base.Simulation
import LightMqtt.Turns

/-!
# The build without assertions

A run that no `assert()` halts is a run of the build with NDEBUG too, as long as
no argument of an `assert()` does any work. What an observer sees of a run is
carried along: the application, whether the encoder is closed, and the log.
-/

namespace LightMqtt

open Exec

variable {σ : Type}

/- The client built with or without NDEBUG. -/
def Env.build (env : Env σ) (n : Bool) : Env σ := { env with ndebug := n }

/-- A callback of the application answers, other than those of the connection. -/
inductive Env.CallsBack (env : Env σ) (a : σ) : σ → Prop
  | connect (f p ok) (h : env.onConnect = some f) : CallsBack env a (f a p ok).app
  | subscribe (f p ok) (h : env.onSubscribe = some f) : CallsBack env a (f a p ok).app
  | unsubscribe (f p ok) (h : env.onUnsubscribe = some f) : CallsBack env a (f a p ok).app
  | publish (f p ok) (h : env.onPublish = some f) : CallsBack env a (f a p ok).app
  | message (f b) (h : env.message.onPublish = some f) : CallsBack env a (f a b).app
  | allocate (part : PublishPart) (f b n) (h : part.allocate env = some f) : CallsBack env a (f a b n).app
  | deallocate (f b) (h : env.message.onPublishDeallocate = some f) : CallsBack env a (f a b)
  | read (d n) : CallsBack env a (env.strRead a d n).app
  | write (d bs) : CallsBack env a (env.strWrite a d bs).app
  | time : CallsBack env a (env.getTime a).1

/-- What an observer of a run may rely on: nothing but callbacks and the encoder
changes what is seen. -/
structure Env.Observes (env : Env σ) (I : World σ → Prop) : Prop where
  same : ∀ w w', I w → w'.app = w.app → w'.tx.closed = w.tx.closed → (∃ evs, w'.log = evs ++ w.log) → I w'
  calls : ∀ w a, I w → env.CallsBack w.app a → I { w with app := a }
  opens : ∀ w, I w → I w.resetTx
  ends : ∀ w id r, I w → I (w.emit (.encoded .disconnect id r)).finishTx

theorem observes_true (env : Env σ) : env.Observes fun _ => True :=
  ⟨fun _ _ _ _ _ _ => trivial, fun _ _ _ _ => trivial, fun _ _ => trivial, fun _ _ _ _ => trivial⟩

/- The two builds side by side: an assertion that does not fail here is not
   there, and the observer `I` is kept. -/
variable {env : Env σ} {n : Bool} {I : World σ → Prop}

namespace Env.Observes

theorem quiet (hI : env.Observes I) {w w' : World σ} (hw : I w) (ha : w'.app = w.app) (hc : w'.tx.closed = w.tx.closed)
    (hl : w'.log = w.log) : I w' := hI.same w w' hw ha hc ⟨[], hl⟩

theorem emit (hI : env.Observes I) {w : World σ} (hw : I w) (e : Event) : I (w.emit e) :=
  hI.same w _ hw rfl rfl ⟨[e], rfl⟩

theorem setStore (hI : env.Observes I) {w : World σ} (hw : I w) (r : StoreRef) (s : Store) : I (w.setStore r s) := by
  apply hI.quiet hw
  · rw [World.setStore_app]
  · rw [World.setStore_tx]
  · rw [World.setStore_log]

theorem setRx (hI : env.Observes I) {w : World σ} (hw : I w) (i : RxInternal) : I (w.setRx i) := hI.quiet hw rfl rfl rfl

theorem setTx (hI : env.Observes I) {w : World σ} (hw : I w) (i : TxInternal) : I (w.setTx i) := hI.quiet hw rfl rfl rfl

theorem setStr (hI : env.Observes I) {w : World σ} (hw : I w) (r : StrRef) (s : LString) : I (w.setStr r s) := by
  cases r <;> exact hI.quiet hw rfl rfl rfl

end Env.Observes

theorem assert_simulates (hn : env.ndebug = true → n = true) {w : World σ} (hw : I w) (c : Bool) :
    Simulates I (assert env c) (assert (env.build n) c) w := by
  intro a t h
  rcases ok_ite h with ⟨hc, h⟩ | ⟨-, h⟩
  · obtain ⟨-, rfl⟩ := ok_pure h
    have hc' : ((env.build n).ndebug || c) = true := by
      simp only [Bool.or_eq_true] at hc ⊢
      rcases hc with hc | hc
      · exact .inl (hn hc)
      · exact .inr hc
    rw [assert, if_pos hc']
    exact ⟨rfl, hw⟩
  · contradiction

/-! ### Requests and callbacks -/

section Session
variable (hI : env.Observes I)
include hI

theorem clientGetId_simulates {w : World σ} (hw : I w) : Simulates I clientGetId clientGetId w := by
  apply simulates_get_bind
  apply simulates_set_bind
  apply simulates_pure
  exact hI.quiet hw rfl rfl rfl

theorem clientAppendRequest_simulates {w : World σ} (hw : I w) (kind : Kind) (cb : Callback) (id : PacketId) (p : Ptr) :
    Simulates I (clientAppendRequest kind cb id p) (clientAppendRequest kind cb id p) w := by
  apply simulates_get_bind
  dsimp only
  split
  · exact simulates_pure hw _
  · apply simulates_set_bind
    apply simulates_pure
    exact hI.same w _ hw rfl rfl ⟨[_], rfl⟩

theorem clientSubscribeWithKind_simulates {w : World σ} (hw : I w) (p : Ptr) (kind : Kind) (cb : Callback) :
    Simulates I (clientSubscribeWithKind p kind cb) (clientSubscribeWithKind p kind cb) w := by
  apply simulates_get_bind
  apply simulates_ite
  · intro _
    exact simulates_pure hw _
  · intro _
    apply simulates_bind (clientGetId_simulates hI hw)
    intro id v _ hv
    exact clientAppendRequest_simulates hI hv kind cb id p

theorem clientDoPublish_simulates {w : World σ} (hw : I w) (p : Ptr) :
    Simulates I (clientDoPublish p) (clientDoPublish p) w := by
  apply simulates_get_bind
  apply simulates_ite
  · intro _
    exact simulates_pure hw _
  · intro _
    apply simulates_ite
    · intro _
      exact clientAppendRequest_simulates hI hw _ _ _ _
    · intro _
      apply simulates_bind (clientGetId_simulates hI hw)
      intro id v _ hv
      exact clientAppendRequest_simulates hI hv _ _ _ _

theorem clientDoDisconnect_simulates {w : World σ} (hw : I w) :
    Simulates I clientDoDisconnect clientDoDisconnect w := by
  apply simulates_get_bind
  split
  · exact simulates_pure hw _
  · apply simulates_set_bind
    apply simulates_pure
    exact hI.quiet hw rfl rfl rfl

theorem doRequest_simulates {w : World σ} (hw : I w) (q : Request) : Simulates I (doRequest q) (doRequest q) w := by
  cases q with
  | subscribe p =>
    apply simulates_get_bind
    apply simulates_ite
    · intro _
      exact clientSubscribeWithKind_simulates hI hw p .subscribe .onSuback
    · intro _
      exact simulates_pure hw _
  | unsubscribe p =>
    apply simulates_get_bind
    apply simulates_ite
    · intro _
      exact clientSubscribeWithKind_simulates hI hw p .unsubscribe .onUnsuback
    · intro _
      exact simulates_pure hw _
  | publish p =>
    apply simulates_get_bind
    apply simulates_ite
    · intro _
      exact clientDoPublish_simulates hI hw p
    · intro _
      exact simulates_pure hw _
  | disconnect =>
    apply simulates_get_bind
    apply simulates_ite
    · intro _
      exact clientDoDisconnect_simulates hI hw
    · intro _
      exact simulates_pure hw _

theorem doRequests_simulates {w : World σ} (hw : I w) (qs : List Request) :
    Simulates I (doRequests qs) (doRequests qs) w := by
  induction qs generalizing w with
  | nil => exact simulates_pure hw _
  | cons q qs ih =>
    apply simulates_bind (doRequest_simulates hI hw q)
    intro _ v _ hv
    exact ih hv

theorem callUser_simulates {w : World σ} (hw : I w) (f : Option (σ → Ptr → Bool → Reply σ)) (cb : Callback) (v : Value)
    (ok : Bool) (hf : ∀ g, f = some g → ∀ a p ok, env.CallsBack a (g a p ok).app) :
    Simulates I (callUser doRequests f cb v ok) (callUser doRequests f cb v ok) w := by
  apply simulates_modify_bind
  have hw := hI.emit hw (.answered cb v.req v.value ok)
  cases f with
  | none => exact simulates_pure hw _
  | some g =>
    apply simulates_get_bind
    apply simulates_set_bind
    apply simulates_bind (doRequests_simulates hI (hI.calls _ _ hw (hf g rfl _ _ _)) _)
    intro _ u _ hu
    exact simulates_pure hu _

/- The calls of the callbacks of the values in a store. -/
theorem clientFlushStore_simulates {call call' : Value → Prog σ Bool} (hc : ∀ w v, I w → Simulates I (call v) (call' v) w)
    {w : World σ} (hw : I w) (r : StoreRef) (fuel : ℕ) :
    Simulates I (clientFlushStore call r fuel) (clientFlushStore call' r fuel) w := by
  induction fuel generalizing w with
  | zero =>
    apply simulates_get_bind
    apply simulates_ite
    · intro _
      exact simulates_throw _ _
    · intro _
      exact simulates_pure hw _
  | succ fuel ih =>
    apply simulates_get_bind
    dsimp only
    split
    · exact simulates_pure hw _
    · rename_i e s _
      apply simulates_set_bind
      have hs := hI.setStore hw r s
      apply simulates_ite
      · intro _
        apply simulates_bind (hc _ e.value hs)
        intro _ u _ hu
        exact ih hu
      · intro _
        exact ih hs

theorem clientCleanupStores_simulates {call call' : Value → Prog σ Bool}
    (hc : ∀ w v, I w → Simulates I (call v) (call' v) w) {w : World σ} (hw : I w) (keepSession : Bool) :
    Simulates I (clientCleanupStores env call keepSession) (clientCleanupStores (env.build n) call' keepSession) w := by
  apply simulates_ite
  · intro _
    apply simulates_modify_bind
    apply clientFlushStore_simulates hI hc
    exact hI.quiet hw rfl rfl rfl
  · intro _
    apply simulates_bind (clientFlushStore_simulates hI hc hw .main env.fuel)
    intro _ v _ hv
    apply simulates_modify_bind
    apply clientFlushStore_simulates hI hc
    exact hI.quiet hv rfl rfl rfl

theorem clientSetStateConnected_simulates {call call' : Value → Prog σ Bool}
    (hc : ∀ w v, I w → Simulates I (call v) (call' v) w) {w : World σ} (hw : I w) :
    Simulates I (clientSetStateConnected env call) (clientSetStateConnected (env.build n) call') w := by
  apply simulates_modify_bind
  apply simulates_modify_bind
  apply simulates_get_bind
  apply simulates_bind
  · apply clientCleanupStores_simulates hI hc
    exact hI.same w _ hw rfl rfl ⟨[_], rfl⟩
  intro _ v _ hv
  apply simulates_modify
  exact hI.quiet hv rfl rfl rfl

theorem callCallback_simulates {w : World σ} (hw : I w) (depth : ℕ) (v : Value) :
    Simulates I (callCallback env depth v) (callCallback (env.build n) depth v) w := by
  induction depth generalizing w v with
  | zero =>
    rw [callCallback_requests, callCallback_requests]
    apply simulates_get_bind
    split
    · exact simulates_pure hw _
    · apply simulates_ite
      · intro _
        exact callUser_simulates hI hw _ _ _ _ fun g hg a p ok => .connect g p ok hg
      · intro _
        exact simulates_throw _ _
    · exact callUser_simulates hI hw _ _ _ _ fun g hg a p ok => .subscribe g p ok hg
    · exact callUser_simulates hI hw _ _ _ _ fun g hg a p ok => .unsubscribe g p ok hg
    · exact callUser_simulates hI hw _ _ _ _ fun g hg a p ok => .publish g p ok hg
    · exact simulates_pure hw _
  | succ depth ih =>
    rw [callCallback_requests, callCallback_requests]
    apply simulates_get_bind
    split
    · exact simulates_pure hw _
    · apply simulates_ite
      · intro _
        exact callUser_simulates hI hw _ _ _ _ fun g hg a p ok => .connect g p ok hg
      · intro _
        apply simulates_set_bind
        apply simulates_bind
        · apply clientSetStateConnected_simulates hI fun w v hw => ih hw v
          exact hI.quiet hw rfl rfl rfl
        · intro _ u _ hu
          exact callUser_simulates hI hu _ _ _ _ fun g hg a p ok => .connect g p ok hg
    · exact callUser_simulates hI hw _ _ _ _ fun g hg a p ok => .subscribe g p ok hg
    · exact callUser_simulates hI hw _ _ _ _ fun g hg a p ok => .unsubscribe g p ok hg
    · exact callUser_simulates hI hw _ _ _ _ fun g hg a p ok => .publish g p ok hg
    · exact simulates_pure hw _

theorem callValue_simulates {w : World σ} (hw : I w) (v : Value) :
    Simulates I (callValue env v) (callValue (env.build n) v) w := callCallback_simulates hI hw env.fuel v

end Session

/-! ### States -/

section States
variable (hI : env.Observes I)
include hI

theorem storeTouch_simulates {w : World σ} (hw : I w) (r : StoreRef) :
    Simulates I (storeTouch env r) (storeTouch (env.build n) r) w := by
  apply simulates_modify
  have hcall := hI.calls w _ hw .time
  cases r <;> exact hI.quiet hcall rfl rfl rfl

/- An observer that does not mind that the encoder is closed. -/
theorem clientSetStateInitial_simulates {w : World σ} (hf : ∀ w, I w → I w.finishTx) (hw : I w) :
    Simulates I (clientSetStateInitial env) (clientSetStateInitial (env.build n)) w := by
  apply simulates_modify_bind
  apply simulates_bind
  · apply storeTouch_simulates hI
    exact hI.same w _ hw rfl rfl ⟨[_], rfl⟩
  intro _ u _ hu
  apply simulates_modify_bind
  apply simulates_get_bind
  apply simulates_bind
  · apply clientCleanupStores_simulates hI fun w v hw => callValue_simulates hI hw v
    exact hI.quiet hu rfl rfl rfl
  intro _ x _ hx
  apply simulates_modify_bind
  apply simulates_modify
  exact hI.quiet (hf x hx) rfl rfl rfl

end States

/-! ### The encoder -/

section Encode
variable (hn : env.ndebug = true → n = true) (hI : env.Observes I)
include hn hI

/- The builders of headers change nothing. -/
def Builds (builder builder' : Value → Prog σ (List Byte)) : Prop :=
  ∀ v w, I w → Simulates I (builder v) (builder' v) w

omit hI in
theorem encodeRemainingLength_simulates {w : World σ} (hw : I w) (len : ℤ) :
    Simulates I (encodeRemainingLength env len) (encodeRemainingLength (env.build n) len) w := by
  apply simulates_bind (assert_simulates hn hw _)
  intro _ v _ hv
  exact simulates_pure hv _

omit hI in
theorem encodeBufferEncodePacketId_simulates {w : World σ} (hw : I w) (type : ℕ) (len : ℤ) (id : PacketId) :
    Simulates I (encodeBufferEncodePacketId env type len id) (encodeBufferEncodePacketId (env.build n) type len id) w := by
  apply simulates_bind (encodeRemainingLength_simulates hn hw len)
  intro _ v _ hv
  exact simulates_pure hv _

omit hI in
theorem connectBuildFixedHeader_simulates {w : World σ} (hw : I w) (v : Value) :
    Simulates I (connectBuildFixedHeader env v) (connectBuildFixedHeader (env.build n) v) w := by
  apply simulates_get_bind
  apply simulates_bind (encodeRemainingLength_simulates hn hw _)
  intro _ u _ hu
  exact simulates_pure hu _

omit hI in
theorem publishBuildFixedHeader_simulates {w : World σ} (hw : I w) (v : Value) :
    Simulates I (publishBuildFixedHeader env v) (publishBuildFixedHeader (env.build n) v) w := by
  apply simulates_get_bind
  apply simulates_bind (assert_simulates hn hw _)
  intro _ u _ hu
  apply simulates_bind (encodeRemainingLength_simulates hn hu _)
  intro _ x _ hx
  exact simulates_pure hx _

theorem encodeBufferEncode_simulates {builder builder' : Value → Prog σ (List Byte)}
    (hb : ∀ v w, I w → Simulates I (builder v) (builder' v) w) {w : World σ} (hw : I w) (v : Value) (offset bufLen : ℕ) :
    Simulates I (encodeBufferEncode env builder v offset bufLen)
      (encodeBufferEncode (env.build n) builder' v offset bufLen) w := by
  apply simulates_get_bind
  extract_lets eb rest rest'
  have hrest : ∀ u, I u → Simulates I (rest ⟨⟩) (rest' ⟨⟩) u := by
    intro u hu
    apply simulates_get_bind
    apply simulates_bind (assert_simulates hn hu _)
    intro _ x _ hx
    apply simulates_ite
    · intro _
      exact simulates_pure hx _
    · intro _
      apply simulates_modify_bind
      apply simulates_pure
      exact hI.setTx hx _
  apply simulates_ite
  · intro _
    apply simulates_bind (hb v w hw)
    intro built u _ hu
    apply simulates_modify_bind
    exact hrest _ (hI.setTx hu _)
  · intro _
    exact hrest w hw

theorem stringRead_simulates {w : World σ} (hw : I w) (r : StrRef) (len : ℕ) :
    Simulates I (stringRead env r len) (stringRead (env.build n) r len) w := by
  apply simulates_get_bind
  apply simulates_ite
  · intro _
    exact simulates_pure hw _
  intro _
  apply simulates_ite
  · intro _
    exact simulates_pure hw _
  intro _
  apply simulates_ite
  · intro _
    apply simulates_set_bind
    have ha := hI.calls _ _ hw (.read (w.str r).data len)
    dsimp only [Env.build]
    split <;> exact simulates_pure ha _
  · intro _
    split
    · apply simulates_bind (assert_simulates hn hw _)
      intro _ u _ _
      apply simulates_set_bind
      apply simulates_pure
      exact hI.setStr hw r _
    · exact simulates_pure hw _

theorem stringEncodeResult_simulates {w : World σ} (hw : I w) (r : StrRef) (lenBytes : List Byte) (remaining : ℤ)
    (res : StringResult) (bytes : List Byte) (osError : ℤ) :
    Simulates I (stringEncodeResult env r lenBytes remaining res bytes osError)
      (stringEncodeResult (env.build n) r lenBytes remaining res bytes osError) w := by
  apply simulates_modify_bind
  apply simulates_bind (assert_simulates hn (hI.setTx hw _) _)
  intro _ u _ hu
  apply simulates_ite
  · intro _
    apply simulates_modify_bind
    apply simulates_pure
    exact hI.setTx hu _
  intro _
  apply simulates_ite
  · intro _
    exact simulates_pure hu _
  intro _
  apply simulates_ite
  · intro _
    exact simulates_pure hu _
  · intro _
    apply simulates_modify_bind
    apply simulates_pure
    exact hI.setTx hu _

theorem stringEncodeData_simulates {w : World σ} (hw : I w) (r : StrRef) (lenBytes : List Byte) (offsetStr room : ℕ) :
    Simulates I (stringEncodeData env r lenBytes offsetStr room)
      (stringEncodeData (env.build n) r lenBytes offsetStr room) w := by
  apply simulates_get_bind
  extract_lets remaining len rest rest'
  have hrest : ∀ u, I u → Simulates I (rest ⟨⟩) (rest' ⟨⟩) u := by
    intro u hu
    apply simulates_bind (stringRead_simulates hn hI hu r _)
    rintro ⟨res, bytes, osError⟩ x _ hx
    exact stringEncodeResult_simulates hn hI hx r lenBytes remaining res bytes osError
  apply simulates_ite
  · intro _
    apply simulates_modify_bind
    exact hrest _ (hI.setStr hw r _)
  · intro _
    exact hrest w hw

theorem stringEncode_simulates {w : World σ} (hw : I w) (r : StrRef) (encodeLen encodeIfEmpty : Bool) (offset bufLen : ℕ) :
    Simulates I (stringEncode env r encodeLen encodeIfEmpty offset bufLen)
      (stringEncode (env.build n) r encodeLen encodeIfEmpty offset bufLen) w := by
  apply simulates_get_bind
  apply simulates_modify_bind
  have hw := hI.setTx hw { w.tx.internal with buffer := { w.tx.internal.buffer with blockingStr := none } }
  apply simulates_ite
  · intro _
    exact simulates_pure hw _
  intro _
  apply simulates_ite
  · intro _
    exact simulates_pure hw _
  intro _
  apply simulates_bind (assert_simulates hn hw _)
  intro _ u _ hu
  apply simulates_ite
  · intro _
    exact simulates_pure hu _
  · intro _
    exact stringEncodeData_simulates hn hI hu r _ _ _

theorem runEncoder_simulates {w : World σ} (hw : I w) (v : Value) (offset bufLen : ℕ) (encoder : Encoder) :
    Simulates I (runEncoder env v offset bufLen encoder) (runEncoder (env.build n) v offset bufLen encoder) w := by
  have hfields : ∀ {builder builder' : Value → Prog σ (List Byte)}, (∀ v w, I w → Simulates I (builder v) (builder' v) w) →
      Simulates I (encodeBufferEncode env builder v offset bufLen)
        (encodeBufferEncode (env.build n) builder' v offset bufLen) w :=
    fun hb => encodeBufferEncode_simulates hn hI hb hw v offset bufLen
  have hstrings := fun r a b => stringEncode_simulates hn hI hw r a b offset bufLen
  cases encoder with
  | connectFixedHeader => exact hfields fun v w hw => connectBuildFixedHeader_simulates hn hw v
  | connectVariableHeader => exact hfields fun v w hw => simulates_get_bind (simulates_pure hw _)
  | connectPayloadClientId | connectPayloadWillTopic | connectPayloadWillMessage | connectPayloadUserName
  | connectPayloadPassword | publishTopic | publishPayload => exact hstrings _ _ _
  | subscribeHeaderSubscribe | subscribeHeaderUnsubscribe =>
    apply hfields
    intro v w hw
    apply simulates_get_bind
    exact encodeBufferEncodePacketId_simulates hn hw _ _ _
  | subscribeTopic => exact simulates_get_bind (hstrings _ _ _)
  | subscribeQos => exact hfields fun v w hw => simulates_get_bind (simulates_get_bind (simulates_pure hw _))
  | publishFixedHeader => exact hfields fun v w hw => publishBuildFixedHeader_simulates hn hw v
  | publishPacketId | pingreqFixedHeader | disconnectFixedHeader => exact hfields fun v w hw => simulates_pure hw _
  | pubackFixedHeader | pubrecFixedHeader | pubrelFixedHeader | pubcompFixedHeader =>
    exact hfields fun v w hw => encodeBufferEncodePacketId_simulates hn hw _ _ _

omit hn in
theorem setCurrentSubscription_simulates {w : World σ} (hw : I w) (p : Ptr) (i : Option ℕ) (found : Option Encoder) :
    Simulates I (do setCurrentSubscription p i; pure found) (do setCurrentSubscription p i; pure found) w := by
  apply simulates_modify_bind
  apply simulates_pure
  exact hI.quiet hw rfl rfl rfl

omit hn in
theorem txBufferFinderSubscribe_simulates {w : World σ} (hw : I w) (pos : ℕ) (v : Value) :
    Simulates I (txBufferFinderSubscribe pos v) (txBufferFinderSubscribe pos v) w := by
  apply simulates_ite
  · intro _
    exact setCurrentSubscription_simulates hI hw _ _ _
  · intro _
    apply simulates_get_bind
    apply simulates_ite
    · intro _
      exact setCurrentSubscription_simulates hI hw _ _ _
    · intro _
      exact simulates_pure hw _

omit hn in
theorem txBufferFinderUnsubscribe_simulates {w : World σ} (hw : I w) (pos : ℕ) (v : Value) :
    Simulates I (txBufferFinderUnsubscribe pos v) (txBufferFinderUnsubscribe pos v) w := by
  apply simulates_ite
  · intro _
    exact setCurrentSubscription_simulates hI hw _ _ _
  · intro _
    apply simulates_get_bind
    apply simulates_ite
    · intro _
      exact setCurrentSubscription_simulates hI hw _ _ _
    · intro _
      exact simulates_pure hw _

omit hn in
theorem txBufferFinderPublish_simulates {w : World σ} (hw : I w) (pos : ℕ) (v : Value) :
    Simulates I (txBufferFinderPublish pos v) (txBufferFinderPublish pos v) w := by
  apply simulates_get_bind
  dsimp only
  split
  · exact simulates_pure hw _
  · apply simulates_set_bind
    apply simulates_pure
    exact hI.quiet hw rfl rfl rfl

omit hn in
theorem txBufferFinder_simulates {w : World σ} (hw : I w) (e : Entry) :
    Simulates I (txBufferFinder e) (txBufferFinder e) w := by
  obtain ⟨kind, v⟩ := e
  apply simulates_get_bind
  cases kind with
  | subscribe => exact txBufferFinderSubscribe_simulates hI hw _ v
  | unsubscribe => exact txBufferFinderUnsubscribe_simulates hI hw _ v
  | publish0 | publish1 | publish2 => exact txBufferFinderPublish_simulates hI hw _ v
  | connect | puback | pubrec | pubrel | pubcomp | pingreq | disconnect => exact simulates_pure hw _

/- A DISCONNECT closes the encoder; behind another entry it starts afresh. -/
theorem txBufferFinishEntry_simulates {w : World σ} (hw : I w) (e : Entry) :
    Simulates I (txBufferFinishEntry env e) (txBufferFinishEntry (env.build n) e) w := by
  apply simulates_modify_bind
  apply simulates_get_bind
  have hemit := hI.emit hw (.encoded e.kind e.value.packetId e.value.req)
  apply simulates_ite
  · intro _
    apply simulates_set_bind
    apply simulates_ite
    · intro hk
      apply simulates_modify_bind
      apply simulates_pure
      have hends := hI.ends _ e.value.packetId e.value.req (hI.setStore hw w.tx.store
        (w.emit (.encoded .disconnect e.value.packetId e.value.req)).txStore.dropCurrent)
      rw [hk, World.setStore_emit]
      exact hends
    · intro _
      have hs := hI.setStore hemit (w.emit (.encoded e.kind e.value.packetId e.value.req)).tx.store
        (w.emit (.encoded e.kind e.value.packetId e.value.req)).txStore.dropCurrent
      extract_lets rest rest'
      have hrest : ∀ u ok, I u → Simulates I (rest ok) (rest' ok) u := by
        intro u ok hu
        apply simulates_ite
        · intro _
          apply simulates_bind (assert_simulates hn hu _)
          intro _ x _ hx
          apply simulates_modify_bind
          apply simulates_pure
          exact hI.setTx hx _
        · intro _
          apply simulates_modify_bind
          apply simulates_pure
          exact hI.opens u hu
      apply simulates_ite
      · intro _
        apply simulates_bind (callValue_simulates hI hs e.value)
        intro ok u _ hu
        exact hrest u ok hu
      · intro _
        exact hrest _ true hs
  · intro _
    apply simulates_set_bind
    apply simulates_modify_bind
    apply simulates_pure
    exact hI.opens _ (hI.setStore hemit _ _)

omit hn hI in
theorem txBufferExit_simulates {w : World σ} (hw : I w) (out : List Byte) :
    Simulates I (txBufferExit out) (txBufferExit out) w := simulates_get_bind (simulates_pure hw _)

theorem txBufferEncodeLoop_simulates {w : World σ} (hw : I w) (fuel : ℕ) (cur : Option Entry) (bufLen : ℕ)
    (out : List Byte) : Simulates I (txBufferEncodeLoop env fuel cur bufLen out)
      (txBufferEncodeLoop (env.build n) fuel cur bufLen out) w := by
  induction fuel generalizing w cur bufLen out with
  | zero => exact simulates_throw _ _
  | succ fuel ih =>
    cases cur with
    | none =>
      unfold txBufferEncodeLoop
      apply simulates_get_bind
      apply simulates_ite
      · intro _
        exact txBufferExit_simulates hw out
      · intro _
        split
        · exact txBufferExit_simulates hw out
        · exact ih hw _ _ _
    | some e =>
      unfold txBufferEncodeLoop
      apply simulates_bind (txBufferFinder_simulates hI hw e)
      intro found u _ hu
      cases found with
      | none =>
        apply simulates_bind (txBufferFinishEntry_simulates hn hI hu e)
        intro ok x _ hx
        apply simulates_ite
        · intro _
          exact ih hx _ _ _
        · intro _
          exact simulates_pure hx _
      | some encoder =>
        apply simulates_get_bind
        apply simulates_modify_bind
        apply simulates_bind (runEncoder_simulates hn hI (hI.emit hu _) e.value _ bufLen encoder)
        rintro ⟨res, bytes⟩ x _ hx
        cases res with
        | wouldBlock => exact simulates_pure hx _
        | «continue» =>
          apply simulates_modify_bind
          apply simulates_pure
          exact hI.setTx hx _
        | error =>
          apply simulates_get_bind
          apply simulates_modify_bind
          apply simulates_pure
          exact hI.setTx hx _
        | finished =>
          apply simulates_modify_bind
          exact ih (hI.setTx hx _) _ _ _

theorem lmqttTxBufferEncode_simulates {w : World σ} (hw : I w) (bufLen : ℕ) :
    Simulates I (lmqttTxBufferEncode env bufLen) (lmqttTxBufferEncode (env.build n) bufLen) w := by
  apply simulates_get_bind
  apply simulates_ite
  · intro _
    exact simulates_pure hw _
  · intro _
    exact txBufferEncodeLoop_simulates hn hI hw env.fuel none bufLen []

end Encode

/-! ### The decoder -/

section Decode
variable (hn : env.ndebug = true → n = true) (hI : env.Observes I)
include hn hI

omit hn in
theorem rxBufferFail_simulates {w : World σ} (hw : I w) (e : Error) (osError : ℤ) {α : Type} (a : α) :
    Simulates I (do rxBufferFail e osError; pure a) (do rxBufferFail e osError; pure a) w := by
  apply simulates_modify_bind
  apply simulates_pure
  exact hI.setRx hw _

theorem stringWrite_simulates {w : World σ} (hw : I w) (r : StrRef) (bs : List Byte) :
    Simulates I (stringWrite env r bs) (stringWrite (env.build n) r bs) w := by
  apply simulates_get_bind
  apply simulates_ite
  · intro _
    exact simulates_pure hw _
  intro _
  apply simulates_ite
  · intro _
    exact simulates_pure hw _
  intro _
  apply simulates_ite
  · intro _
    apply simulates_set_bind
    have ha := hI.calls _ _ hw (.write (w.str r).data bs)
    dsimp only [Env.build]
    split <;> exact simulates_pure ha _
  · intro _
    split
    · apply simulates_bind (assert_simulates hn hw _)
      intro _ u _ _
      apply simulates_set_bind
      apply simulates_pure
      exact hI.setStr hw r _
    · exact simulates_pure hw _

omit hn in
theorem rxBufferAllocate_simulates {w : World σ} (hw : I w) (part : PublishPart)
    (f : σ → Publish → ℕ → Allocation σ) (hf : part.allocate env = some f) (len : ℕ) :
    Simulates I (rxBufferAllocate part f len) (rxBufferAllocate part f len) w := by
  apply simulates_modify_bind
  apply simulates_get_bind
  apply simulates_set_bind
  have hcall := hI.calls _ _ (hI.emit hw (.allocate part len)) (.allocate part f w.rx.internal.publish len hf)
  have ha : I { (w.emit (.allocate part len)).setStr part.str (f w.app w.rx.internal.publish len).str with
      app := (f w.app w.rx.internal.publish len).app } := by
    cases part <;> exact hI.quiet hcall rfl rfl rfl
  split
  · apply simulates_modify_bind
    apply simulates_pure
    exact hI.setRx ha _
  · apply simulates_modify_bind
    apply simulates_pure
    exact hI.setRx ha _
  · exact rxBufferFail_simulates hI ha _ _ _

omit hn in
theorem rxBufferAllocateFirst_simulates {w : World σ} (hw : I w) (start : ℕ) (part : PublishPart) (len : ℕ) :
    Simulates I (rxBufferAllocateFirst env start part len) (rxBufferAllocateFirst (env.build n) start part len) w := by
  apply simulates_get_bind
  have hp : part.allocate (env.build n) = part.allocate env := by cases part <;> rfl
  rw [hp]
  dsimp only
  split
  · rename_i f hf
    apply simulates_ite
    · intro _
      exact rxBufferAllocate_simulates hI hw part f hf len
    · intro _
      exact simulates_pure hw _
  · exact simulates_pure hw _

theorem rxBufferWritePart_simulates {w : World σ} (hw : I w) (part : PublishPart) (bs : List Byte) :
    Simulates I (rxBufferWritePart env part bs) (rxBufferWritePart (env.build n) part bs) w := by
  apply simulates_get_bind
  apply simulates_ite
  · intro _
    exact simulates_pure hw _
  · intro _
    apply simulates_modify_bind
    apply simulates_bind (stringWrite_simulates hn hI (hI.setRx hw _) part.str bs)
    rintro ⟨res, count, osError⟩ u _ hu
    cases res with
    | success => exact simulates_pure hu _
    | wouldBlock =>
      apply simulates_modify_bind
      apply simulates_pure
      exact hI.setRx hu _
    | osError | invalidObject => exact rxBufferFail_simulates hI hu _ _ _

theorem rxBufferAllocateWrite_simulates {w : World σ} (hw : I w) (start : ℕ) (part : PublishPart) (len : ℕ)
    (bs : List Byte) : Simulates I (rxBufferAllocateWrite env start part len bs)
      (rxBufferAllocateWrite (env.build n) start part len bs) w := by
  apply simulates_get_bind
  apply simulates_bind (rxBufferAllocateFirst_simulates hI hw start part len)
  intro ok u _ hu
  apply simulates_ite
  · intro _
    exact rxBufferWritePart_simulates hn hI hu part _
  · intro _
    exact simulates_pure hu _

omit hn in
theorem rxBufferDeallocatePublish_simulates {w : World σ} (hw : I w) :
    Simulates I (rxBufferDeallocatePublish env) (rxBufferDeallocatePublish (env.build n)) w := by
  apply simulates_get_bind
  dsimp only [Env.build]
  split
  · rename_i f hf
    apply simulates_ite
    · intro _
      apply simulates_set
      have ha := hI.calls w _ hw (.deallocate f w.rx.internal.publish hf)
      exact hI.same _ _ ha rfl rfl ⟨[_], rfl⟩
    · intro _
      exact simulates_pure hw _
  · exact simulates_pure hw _

theorem rxBufferDecodeConnack_simulates {w : World σ} (hw : I w) (bs : List Byte) :
    Simulates I (rxBufferDecodeConnack env bs) (rxBufferDecodeConnack (env.build n) bs) w := by
  apply simulates_bind (assert_simulates hn hw _)
  intro _ u _ hu
  apply simulates_get_bind
  split
  · apply simulates_ite
    · intro _
      exact rxBufferFail_simulates hI hu _ _ _
    · intro _
      apply simulates_set_bind
      apply simulates_pure
      exact hI.quiet hu rfl rfl rfl
  · apply simulates_ite
    · intro _
      exact rxBufferFail_simulates hI hu _ _ _
    · intro _
      apply simulates_ite
      · intro _
        exact rxBufferFail_simulates hI hu _ _ _
      · intro _
        exact simulates_pure hu _
  · exact rxBufferFail_simulates hI hu _ _ _

omit hn in
theorem rxBufferDecodeTopicLen_simulates {w : World σ} (hw : I w) (b : Byte) :
    Simulates I (rxBufferDecodeTopicLen b) (rxBufferDecodeTopicLen b) w := by
  apply simulates_get_bind
  apply simulates_set_bind
  apply simulates_ite
  · intro _
    exact rxBufferFail_simulates hI (hI.setRx hw _) _ _ _
  · intro _
    exact simulates_pure (hI.setRx hw _) _

theorem rxBufferDecodeString_simulates {w : World σ} (hw : I w) (start : ℕ) (part : PublishPart) (len : ℕ)
    (bs : List Byte) : Simulates I (rxBufferDecodeString env start part len bs)
      (rxBufferDecodeString (env.build n) start part len bs) w := by
  apply simulates_bind (rxBufferAllocateWrite_simulates hn hI hw start part len bs)
  intro r u _ hu
  apply simulates_ite
  · intro _
    apply simulates_bind (rxBufferDeallocatePublish_simulates hI hu)
    intro _ x _ hx
    exact simulates_pure hx _
  · intro _
    exact simulates_pure hu _

theorem rxBufferDecodePublishPart_simulates {w : World σ} (hw : I w) (bs : List Byte) :
    Simulates I (rxBufferDecodePublishPart env bs) (rxBufferDecodePublishPart (env.build n) bs) w := by
  apply simulates_get_bind
  apply simulates_ite
  · intro _
    exact rxBufferDecodeTopicLen_simulates hI hw _
  intro _
  apply simulates_modify_bind
  have hw : I (w.ignoreUnwanted env) := by
    unfold World.ignoreUnwanted
    split
    · exact hI.setRx hw _
    · exact hw
  apply simulates_ite
  · intro _
    exact rxBufferDecodeString_simulates hn hI hw _ _ _ _
  intro _
  apply simulates_ite
  · intro _
    apply simulates_get_bind
    apply simulates_modify_bind
    apply simulates_pure
    exact hI.setRx hw _
  · intro _
    exact rxBufferDecodeString_simulates hn hI hw _ _ _ _

/- The end of a PUBLISH. -/
omit hn in
theorem rxBufferCallMessage_simulates {w : World σ} (hw : I w) :
    Simulates I (rxBufferCallMessage env) (rxBufferCallMessage (env.build n)) w := by
  apply simulates_get_bind
  dsimp only [Env.build]
  split
  · rename_i f hf
    apply simulates_ite
    · intro _
      exact simulates_pure hw _
    · intro _
      apply simulates_set_bind
      apply simulates_bind
      · rw [callbackCalls_requests, callbackCalls_requests]
        apply doRequests_simulates hI
        have ha := hI.calls w _ hw (.message f w.rx.internal.publish hf)
        exact hI.same _ _ ha rfl rfl ⟨[_], rfl⟩
      · intro _ u _ hu
        exact simulates_pure hu _
  · exact simulates_pure hw _

omit hn in
theorem rxBufferTakeMessage_simulates {w : World σ} (hw : I w) :
    Simulates I (rxBufferTakeMessage env) (rxBufferTakeMessage (env.build n)) w := by
  apply simulates_modify_bind
  apply simulates_bind (rxBufferCallMessage_simulates hI (hI.setRx hw _))
  intro ok u _ hu
  apply simulates_bind (rxBufferDeallocatePublish_simulates hI hu)
  intro _ x _ hx
  apply simulates_ite
  · intro _
    exact simulates_pure hx _
  · intro _
    exact rxBufferFail_simulates hI hx _ _ _

omit hn in
theorem rxBufferFinishPublish_simulates {w : World σ} (hw : I w) :
    Simulates I (rxBufferFinishPublish env) (rxBufferFinishPublish (env.build n)) w := by
  apply simulates_modify_bind
  have hw : I w.acknowledge := by
    unfold World.acknowledge
    dsimp only
    split
    · exact hw
    · exact hI.setStore hw _ _
  apply simulates_get_bind
  apply simulates_ite
  · intro _
    apply simulates_bind (rxBufferDeallocatePublish_simulates hI hw)
    intro _ x _ hx
    exact simulates_pure hx _
  · intro _
    apply simulates_bind
    · apply simulates_get_bind
      apply simulates_ite
      · intro _
        exact simulates_pure hw _
      · intro _
        split
        · exact simulates_pure hw _
        · apply simulates_set_bind
          apply simulates_pure
          exact hI.quiet hw rfl rfl rfl
    · intro ok u _ hu
      apply simulates_ite
      · intro _
        exact rxBufferTakeMessage_simulates hI hu
      · intro _
        apply simulates_bind (rxBufferDeallocatePublish_simulates hI hu)
        intro _ x _ hx
        exact rxBufferFail_simulates hI hx _ _ _

theorem rxBufferDecodePublish_simulates {w : World σ} (hw : I w) (bs : List Byte) :
    Simulates I (rxBufferDecodePublish env bs) (rxBufferDecodePublish (env.build n) bs) w := by
  apply simulates_bind (assert_simulates hn hw _)
  intro _ u _ hu
  apply simulates_get_bind
  apply simulates_bind (rxBufferDecodePublishPart_simulates hn hI hu bs)
  intro r x _ hx
  cases r with
  | none => exact simulates_pure hx _
  | some count =>
    apply simulates_get_bind
    apply simulates_ite
    · intro _
      exact simulates_pure hx _
    intro _
    apply simulates_ite
    · intro _
      exact simulates_pure hx _
    · intro _
      apply simulates_bind (rxBufferFinishPublish_simulates hI hx)
      intro res y _ hy
      exact simulates_pure hy _

theorem rxBufferDecodeSuback_simulates {w : World σ} (hw : I w) (bs : List Byte) :
    Simulates I (rxBufferDecodeSuback env bs) (rxBufferDecodeSuback (env.build n) bs) w := by
  apply simulates_bind (assert_simulates hn hw _)
  intro _ u _ hu
  apply simulates_get_bind
  apply simulates_ite
  · intro _
    exact rxBufferFail_simulates hI hu _ _ _
  intro _
  apply simulates_ite
  · intro _
    exact rxBufferFail_simulates hI hu _ _ _
  · intro _
    apply simulates_set_bind
    apply simulates_pure
    exact hI.quiet hu rfl rfl rfl

theorem rxBufferDecodeType_simulates {w : World σ} (hw : I w) (d : Decoder) (bs : List Byte) :
    Simulates I (rxBufferDecodeType env d bs) (rxBufferDecodeType (env.build n) d bs) w := by
  unfold rxBufferDecodeType
  split
  · exact rxBufferFail_simulates hI hw _ _ _
  · exact rxBufferDecodeConnack_simulates hn hI hw bs
  · exact rxBufferDecodePublish_simulates hn hI hw bs
  · exact rxBufferDecodeSuback_simulates hn hI hw bs

omit hn in
theorem popPacket_simulates {w : World σ} (hw : I w) (d : Decoder) (p : PopPacket) :
    Simulates I (popPacket d p) (popPacket d p) w := by
  have hpop : ∀ id, Simulates I (rxBufferPopPacket d id) (rxBufferPopPacket d id) w := by
    intro id
    apply simulates_get_bind
    split
    · apply simulates_set_bind
      apply simulates_modify_bind
      apply simulates_pure
      exact hI.emit (hI.setRx (hI.setStore hw _ _) _) _
    · apply simulates_set_bind
      exact rxBufferFail_simulates hI (hI.setRx hw _) _ _ _
  cases p with
  | withoutId => exact hpop 0
  | withId =>
    apply simulates_get_bind
    exact hpop _
  | ignore => exact simulates_pure hw _
  | pubrel =>
    apply simulates_get_bind
    apply simulates_set_bind
    apply simulates_get_bind
    have hw : I { w with rx := { w.rx with idSet := w.rx.idSet.remove w.rx.internal.packetId } } := hI.quiet hw rfl rfl rfl
    split
    · apply simulates_set_bind
      apply simulates_pure
      exact hI.setStore hw _ _
    · exact rxBufferFail_simulates hI hw _ _ _

theorem rxBufferDecodeRemainingWithoutId_simulates {w : World σ} (hw : I w) (d : Decoder) (bs : List Byte) :
    Simulates I (rxBufferDecodeRemainingWithoutId env d bs) (rxBufferDecodeRemainingWithoutId (env.build n) d bs) w := by
  apply simulates_bind (rxBufferDecodeType_simulates hn hI hw d bs)
  rintro ⟨res, count⟩ u _ hu
  apply simulates_get_bind
  apply simulates_ite
  · intro _
    exact simulates_pure hu _
  · intro _
    apply simulates_bind (assert_simulates hn hu _)
    intro _ x _ hx
    exact simulates_pure hx _

theorem decodeRemaining_simulates {w : World σ} (hw : I w) (d : Decoder) (bs : List Byte) :
    Simulates I (decodeRemaining env d bs) (decodeRemaining (env.build n) d bs) w := by
  unfold decodeRemaining
  split
  · exact rxBufferDecodeRemainingWithoutId_simulates hn hI hw d bs
  · apply simulates_get_bind
    apply simulates_ite
    · intro _
      exact rxBufferDecodeRemainingWithoutId_simulates hn hI hw d bs
    · intro _
      apply simulates_bind (assert_simulates hn hw _)
      intro _ u _ hu
      apply simulates_modify_bind
      have hu := hI.setRx hu (u.readId (bs.headD 0)).rx.internal
      apply simulates_ite
      · intro _
        apply simulates_get_bind
        apply simulates_modify_bind
        apply simulates_bind (popPacket_simulates hI (hI.emit hu _) d d.popPacketWithId)
        intro ok x _ hx
        apply simulates_ite
        · intro _
          exact simulates_pure hx _
        · intro _
          exact simulates_pure hx _
      · intro _
        exact simulates_pure hu _

omit hn in
theorem finished_simulates {w : World σ} (hw : I w) :
    Simulates I (do emitFinished; lmqttRxBufferReset; pure true) (do emitFinished; lmqttRxBufferReset; pure true) w := by
  apply simulates_modify_bind
  apply simulates_modify_bind
  apply simulates_pure
  exact hI.setRx (hI.emit hw _) _

/- The append of the PUBREL is the argument of an `assert()`. -/
theorem rxBufferFinishPacket_simulates {w : World σ} (hw : I w) (d : Decoder)
    (hd : env.ndebug = n ∨ d.kind ≠ some .publish2) :
    Simulates I (rxBufferFinishPacket env d) (rxBufferFinishPacket (env.build n) d) w := by
  apply simulates_get_bind
  apply simulates_ite
  · intro hk
    obtain rfl : env.ndebug = n := hd.resolve_right fun hne => hne hk
    apply simulates_ite
    · intro _
      split
      · apply simulates_set_bind
        exact finished_simulates hI (hI.setStore hw _ _)
      · exact simulates_bind (simulates_throw _ _) fun _ u _ hu => finished_simulates hI hu
    · intro _
      exact finished_simulates hI hw
  · intro _
    apply simulates_modify_bind
    apply simulates_bind (callValue_simulates hI (hI.emit (hI.setRx hw _) _) _)
    intro ok u _ hu
    apply simulates_ite
    · intro _
      exact finished_simulates hI hu
    · intro _
      apply simulates_bind (assert_simulates hn hu _)
      intro _ x _ hx
      apply simulates_modify_bind
      apply simulates_pure
      exact hI.setRx hx _

/- The decoder has read a PUBREC to its end. -/
def RxInternal.EndsPubrec (i : RxInternal) : Prop :=
  i.kind = some .publish2 ∧ rxBufferIsPacketFinished i = true

theorem rxBufferEndTurn_simulates {w : World σ} (hw : I w) (count : ℕ)
    (hd : env.ndebug = n ∨ ¬ w.rx.internal.EndsPubrec) :
    Simulates I (rxBufferEndTurn env count) (rxBufferEndTurn (env.build n) count) w := by
  apply simulates_get_bind
  dsimp only
  split
  · rename_i d hdec
    apply simulates_ite
    · intro hf
      have hk : env.ndebug = n ∨ d.kind ≠ some .publish2 := hd.imp_right fun hne hk => hne ⟨by
        rw [RxInternal.kind, hdec]
        exact hk, hf⟩
      apply simulates_bind (rxBufferFinishPacket_simulates hn hI hw d hk)
      intro ok u _ hu
      apply simulates_ite
      · intro _
        exact simulates_pure hu _
      · intro _
        exact simulates_pure hu _
    · intro _
      exact simulates_pure hw _
  · exact simulates_pure hw _

theorem rxBufferDecodedBytes_simulates {w : World σ} (hw : I w) (res : DecodeResult) (count : ℕ)
    (hd : env.ndebug = n ∨ (res ≠ .error → ¬ (w.advance count).rx.internal.EndsPubrec)) :
    Simulates I (rxBufferDecodedBytes env res count) (rxBufferDecodedBytes (env.build n) res count) w := by
  cases res with
  | error =>
    apply simulates_get_bind
    apply simulates_bind (assert_simulates hn hw _)
    intro _ u _ hu
    exact simulates_pure hu _
  | wouldBlock =>
    apply simulates_bind (assert_simulates hn hw _)
    intro _ u _ hu
    exact simulates_pure hu _
  | finished | «continue» =>
    apply simulates_modify_bind
    exact rxBufferEndTurn_simulates hn hI (hI.setRx hw _) count (hd.imp_right fun hne => hne (by decide))

/- A turn does not end a PUBREC, wherever in it the packet would be finished. -/
def SparesPubrec (env : Env σ) (d : Decoder) (bs : List Byte) (w : World σ) : Prop :=
  ∀ res count v, decodeRemaining env d bs w = .ok (res, count) v → res ≠ .error →
    ¬ (v.advance count).rx.internal.EndsPubrec

theorem rxBufferDecodeBodyTurn_simulates {w : World σ} (hw : I w) (d : Decoder) (bs : List Byte)
    (hd : env.ndebug = n ∨ SparesPubrec env d bs w) :
    Simulates I (rxBufferDecodeBodyTurn env d bs) (rxBufferDecodeBodyTurn (env.build n) d bs) w := by
  apply simulates_bind (decodeRemaining_simulates hn hI hw d bs)
  rintro ⟨res, count⟩ u hr hu
  exact rxBufferDecodedBytes_simulates hn hI hu res count (hd.imp_right fun hne => hne res count u hr)

/-- The decoder stands at the same place of the same packet. -/
structure SamePlace (w u : World σ) : Prop where
  decoder : u.rx.internal.decoder = w.rx.internal.decoder
  header : u.rx.internal.header = w.rx.internal.header
  headerFinished : u.rx.internal.headerFinished = w.rx.internal.headerFinished
  pos : u.rx.internal.remainBufPos = w.rx.internal.remainBufPos

omit hn hI in
theorem SamePlace.ends {w u : World σ} (h : SamePlace w u) (he : u.rx.internal.EndsPubrec) :
    w.rx.internal.EndsPubrec := by
  unfold RxInternal.EndsPubrec RxInternal.kind rxBufferIsPacketFinished at *
  rw [h.decoder, h.header, h.headerFinished, h.pos] at he
  exact he

omit hn hI in
theorem popPacket_place (w : World σ) (d : Decoder) (p : PopPacket) :
    Wp (popPacket d p) w (fun _ u => SamePlace w u) fun _ _ => True := by
  cases p with
  | ignore => exact ⟨rfl, rfl, rfl, rfl⟩
  | pubrel =>
    simp only [popPacket, rxBufferPubrel, rxBufferFail, wp_bind, wp_get, wp_set]
    split
    · simp only [wp_bind, wp_set, wp_pure]
      constructor <;> rw [World.setStore_rx]
    · exact ⟨rfl, rfl, rfl, rfl⟩
  | withoutId | withId =>
    simp only [popPacket, rxBufferPopPacket, rxBufferFail, wp_bind, wp_get]
    split
    · simp only [wp_bind, wp_set, wp_emit, wp_pure]
      exact ⟨rfl, rfl, rfl, rfl⟩
    · exact ⟨rfl, rfl, rfl, rfl⟩

omit hn hI in
theorem rxBufferDecoders_pubrec (type : ℕ) (d : Decoder) (h : rxBufferDecoders type = some d)
    (hk : d.kind = some .publish2) : d = rxBufferDecoderPubrec := by
  unfold rxBufferDecoders at h
  split at h <;> cases h <;> first | rfl | contradiction

/- A PUBREC is longer than its header. -/
theorem rxBufferDecodeHeaderTurn_simulates {w : World σ} (hw : I w) (b : Byte)
    (hp : env.ndebug = n ∨ w.rx.internal.remainBufPos = 0) :
    Simulates I (rxBufferDecodeHeaderTurn env b) (rxBufferDecodeHeaderTurn (env.build n) b) w := by
  apply simulates_get_bind
  generalize fixedHeaderDecode w.rx.internal.header b = header
  obtain ⟨h, res, err⟩ := header
  apply simulates_set_bind
  cases res with
  | «continue» => exact simulates_pure (hI.setRx hw _) _
  | error | wouldBlock =>
    apply simulates_modify_bind
    apply simulates_pure
    exact hI.setRx (hI.setRx hw _) _
  | finished =>
    apply simulates_modify_bind
    dsimp only
    cases hdec : rxBufferDecoders h.type with
    | none => exact rxBufferFail_simulates hI (hI.setRx (hI.setRx hw _) _) _ _ _
    | some d =>
      apply simulates_ite
      · intro _
        exact rxBufferFail_simulates hI (hI.setRx (hI.setRx hw _) _) _ _ _
      · intro hlen
        have hnot : env.ndebug = n ∨ ¬ RxInternal.EndsPubrec { w.rx.internal with
            header := h, headerFinished := true, decoder := some d } := by
          apply hp.imp_right
          intro hpos hends
          have hd := rxBufferDecoders_pubrec h.type d hdec hends.1
          have hend := hends.2
          simp only [rxBufferIsPacketFinished, hpos, Bool.true_and, decide_eq_true_eq] at hend
          rw [hd] at hlen
          change ¬ h.remainingLength < 2 at hlen
          omega
        apply simulates_bind (popPacket_simulates hI (hI.setRx (hI.setRx hw _) _) d d.popPacketWithoutId)
        intro ok u hu hIu
        have hplace := wp_ok (popPacket_place _ d d.popPacketWithoutId) hu
        apply simulates_ite
        · intro _
          exact rxBufferEndTurn_simulates hn hI hIu 1 (hnot.imp_right fun hne he => hne (hplace.ends he))
        · intro _
          apply simulates_get_bind
          apply simulates_bind (assert_simulates hn hIu _)
          intro _ x _ hx
          exact simulates_pure hx _

/-- A turn of the decoder. -/
theorem rxBufferDecodeTurn_simulates {w : World σ} (hw : I w) (bs : List Byte)
    (hp : env.ndebug = n ∨ (w.rx.internal.headerFinished = false ∧ w.rx.internal.remainBufPos = 0) ∨
      ∃ d, w.rx.internal.headerFinished = true ∧ w.rx.internal.decoder = some d ∧ SparesPubrec env d bs w) :
    Simulates I (rxBufferDecodeTurn env bs) (rxBufferDecodeTurn (env.build n) bs) w := by
  apply simulates_get_bind
  dsimp only
  split
  · rename_i d hf hd
    apply rxBufferDecodeBodyTurn_simulates hn hI hw d bs
    apply hp.imp_right
    rintro (⟨hf', -⟩ | ⟨d', -, hd', hno⟩)
    · rw [hf] at hf'
      contradiction
    · rw [hd] at hd'
      cases hd'
      exact hno
  · rename_i hno
    apply rxBufferDecodeHeaderTurn_simulates hn hI hw (bs.headD 0)
    apply hp.imp_right
    rintro (⟨-, hpos⟩ | ⟨d, hf, hd, -⟩)
    · exact hpos
    · exact absurd hd (hno d hf)

omit hn in
theorem rxBufferExit_simulates {w : World σ} (hw : I w) (bufLen bytesRead : ℕ) :
    Simulates I (rxBufferExit bufLen bytesRead) (rxBufferExit bufLen bytesRead) w := by
  apply simulates_ite
  · intro _
    apply simulates_modify_bind
    apply simulates_pure
    exact hI.setRx hw _
  · intro _
    exact simulates_pure hw _

theorem rxBufferDecodeLoop_simulates (hs : env.ndebug = n) {w : World σ} (hw : I w) (bufLen fuel : ℕ) (bs : List Byte)
    (bytesRead : ℕ) : Simulates I (rxBufferDecodeLoop env bufLen fuel bs bytesRead)
      (rxBufferDecodeLoop (env.build n) bufLen fuel bs bytesRead) w := by
  induction fuel generalizing w bs bytesRead with
  | zero =>
    cases bs with
    | nil => exact rxBufferExit_simulates hI hw bufLen bytesRead
    | cons b bs => exact simulates_throw _ _
  | succ fuel ih =>
    cases bs with
    | nil => exact rxBufferExit_simulates hI hw bufLen bytesRead
    | cons b bs =>
      rw [rxBufferDecodeLoop, rxBufferDecodeLoop]
      · apply simulates_bind (rxBufferDecodeTurn_simulates hn hI hw _ (.inl hs))
        intro turn u _ hu
        cases turn with
        | read count => exact ih hu _ _
        | blocked => exact rxBufferExit_simulates hI hu bufLen bytesRead
        | failed count => exact simulates_pure hu _
      · simp
      · simp

theorem lmqttRxBufferDecode_simulates (hs : env.ndebug = n) {w : World σ} (hw : I w) (bs : List Byte) :
    Simulates I (lmqttRxBufferDecode env bs) (lmqttRxBufferDecode (env.build n) bs) w := by
  apply simulates_get_bind
  apply simulates_ite
  · intro _
    exact simulates_pure hw _
  · intro _
    exact rxBufferDecodeLoop_simulates hn hI hs hw _ _ bs 0

end Decode

end LightMqtt
