import LightMqtt.SessionEffects

/-!
# The effects of the encoder

An encoder writes to the tx buffer and to the objects of the entry it encodes;
the entry leaves the pending part of its store when its last field is done.
-/

namespace LightMqtt

open Exec

variable {σ : Type} (env : Env σ) (P : World σ → Prop)

/-- What the encoder of a field changes. -/
structure TxScratch (w w' : World σ) : Prop where
  same : w' = { w with
    heap := w'.heap, app := w'.app, tx := { w.tx with internal := w'.tx.internal } }
  counts : ∀ p, (w'.heap.subscribes p).count = (w.heap.subscribes p).count
  suits : ∀ (k : Kind) p, k.Suits (w.heap.publishes p) → k.Suits (w'.heap.publishes p)
  qos : ∀ p, (w'.heap.publishes p).qos = (w.heap.publishes p).qos

instance : IsTrans (World σ) TxScratch where
  trans w w' w'' h h' := by
    refine ⟨?_, fun p => (h'.counts p).trans (h.counts p), fun k p hk => h'.suits k p (h.suits k p hk),
      fun p => (h'.qos p).trans (h.qos p)⟩
    rw [h'.same, h.same]

theorem TxScratch.refl (w : World σ) : TxScratch w w := ⟨rfl, fun _ => rfl, fun _ _ hk => hk, fun _ => rfl⟩
theorem TxScratch.tx (w : World σ) (i : TxInternal) : TxScratch w (w.setTx i) :=
  ⟨rfl, fun _ => rfl, fun _ _ hk => hk, fun _ => rfl⟩
theorem TxScratch.app (w : World σ) (a : σ) : TxScratch w { w with app := a } :=
  ⟨rfl, fun _ => rfl, fun _ _ hk => hk, fun _ => rfl⟩

theorem TxScratch.effects {w w' : World σ} (h : TxScratch w w') : Effects env P w w' := by
  have h₁ : Effects env P w { w with heap := w'.heap } := .of (.heap w _ h.counts (fun e _ => h.suits e.kind _) h.qos)
  have h₂ := (h₁.then (.app _ w'.app)).then (.tx _ w'.tx.internal)
  rw [h.same]
  exact h₂

/- The strings of stored objects. -/
def StrRef.isStored : StrRef → Bool
  | .rxTopic | .rxPayload => false
  | _ => true

/- A PUBLISH is written over by one of the same lengths and QoS. -/
theorem Heap.suits_setPublish {h : Heap} {p : Ptr} {b : Publish} (ht : b.topic.len = (h.publishes p).topic.len)
    (hp : b.payload.len = (h.publishes p).payload.len) (hq : b.qos = (h.publishes p).qos) (k : Kind) (q : Ptr)
    (hk : k.Suits (h.publishes q)) : k.Suits ((h.setPublish p b).publishes q) := by
  simp only [setPublish, Function.update_apply]
  by_cases heq : q = p
  · have hv : publishValidate b = publishValidate (h.publishes p) := by
      unfold publishValidate publishCalcRemainingLength stringValidateFieldLength
      rw [ht, hp, hq]
    rw [heq] at hk
    rw [if_pos heq]
    unfold Kind.Suits at *
    rw [hv, hq]
    exact hk
  · rw [if_neg heq]
    exact hk

theorem Heap.qos_setPublish {h : Heap} {p : Ptr} {b : Publish} (hq : b.qos = (h.publishes p).qos) (q : Ptr) :
    ((h.setPublish p b).publishes q).qos = (h.publishes q).qos := by
  simp only [setPublish, Function.update_apply]
  by_cases heq : q = p
  · rw [if_pos heq, heq, hq]
  · rw [if_neg heq]

theorem TxScratch.setStr (w : World σ) (r : StrRef) (pos : ℕ) (hr : r.isStored = true) :
    TxScratch w (w.setStr r { w.str r with pos := pos }) := by
  cases r with
  | publishTopic q => exact ⟨rfl, fun _ => rfl, Heap.suits_setPublish rfl rfl rfl, Heap.qos_setPublish rfl⟩
  | publishPayload q => exact ⟨rfl, fun _ => rfl, Heap.suits_setPublish rfl rfl rfl, Heap.qos_setPublish rfl⟩
  | subscriptionTopic q i =>
    refine ⟨rfl, fun p => ?_, fun _ _ hk => hk, fun _ => rfl⟩
    simp only [World.setStr, Heap.modifySubscription, Heap.setSubscribe, Function.update_apply]
    split <;> simp_all
  | rxTopic | rxPayload => contradiction
  | _ => exact ⟨rfl, fun _ => rfl, fun _ _ hk => hk, fun _ => rfl⟩

/-! ### Encoders -/

/-- A relation that the scratch work of an encoder keeps: it writes to the encode
buffer and to the application, and moves the strings of stored objects. -/
structure EncoderFrame (R : World σ → World σ → Prop) : Prop where
  refl : ∀ w, R w w
  tx : ∀ (w : World σ) b, R w (w.setTx { w.tx.internal with buffer := b })
  app : ∀ (w : World σ) a, R w { w with app := a }
  move : ∀ w r pos, r.isStored = true → R w (w.setStr r { w.str r with pos := pos })

theorem encoderFrame_scratch : EncoderFrame (TxScratch (σ := σ)) :=
  ⟨.refl, fun w _ => .tx w _, .app, fun w r pos hr => .setStr w r pos hr⟩

section Encoders
variable {R : World σ → World σ → Prop} [IsTrans (World σ) R] (hR : EncoderFrame R)
include hR

omit [IsTrans (World σ) R] in
/- An assertion does not change the state. -/
theorem within_assert_bind {α : Type} (w : World σ) (c : Bool) (p : Unit → Prog σ α)
    (h : Within R (p ()) w) : Within R (assert env c >>= p) w := by
  unfold Within at *
  rw [wp_bind, wp_assert]
  split
  · exact h
  · exact hR.refl w

omit [IsTrans (World σ) R] in
theorem encodeRemainingLength_keeps (w : World σ) (len : ℤ) :
    Within R (encodeRemainingLength env len) w :=
  within_assert_bind env hR w _ _ (within_pure w (hR.refl w) _)

theorem encodeBufferEncodePacketId_keeps (w : World σ) (type : ℕ) (len : ℤ) (id : PacketId) :
    Within R (encodeBufferEncodePacketId env type len id) w :=
  within_bind w _ _ (encodeRemainingLength_keeps env hR w len) fun _ t _ => within_pure t (hR.refl t) _

theorem encodeBufferEncode_keeps (w : World σ) (builder : Value → Prog σ (List Byte)) (v : Value)
    (offset bufLen : ℕ) (hb : ∀ t, Within R (builder v) t) :
    Within R (encodeBufferEncode env builder v offset bufLen) w := by
  have hrest : ∀ t, Within R (do
      let eb := (← get).tx.internal.buffer
      assert env (0 < eb.buf.length && offset < eb.buf.length)
      if bufLen < eb.buf.length - offset then pure (.continue, (eb.buf.drop offset).take bufLen)
      else
        setEncodeBuffer {}
        pure (.finished, eb.buf.drop offset) : Prog σ (EncodeResult × List Byte)) t := by
    intro t
    refine within_get_bind t _ (within_assert_bind env hR t _ _ ?_)
    refine within_ite t _ _ _ (fun _ => within_pure t (hR.refl t) _) fun _ => ?_
    exact within_bind t _ _ (hR.tx t _) fun _ u _ => within_pure u (hR.refl u) _
  refine within_get_bind w _ (within_ite w _ _ _ (fun _ => ?_) fun _ => hrest w)
  refine within_bind w _ _ (hb w) fun built t _ => ?_
  exact within_bind t _ _ (hR.tx t _) fun _ u _ => hrest u

theorem stringRead_keeps (w : World σ) (r : StrRef) (len : ℕ) (hr : r.isStored = true) :
    Within R (stringRead env r len) w := by
  refine within_get_bind w _ ?_
  refine within_ite w _ _ _ (fun _ => within_pure w (hR.refl w) _) fun _ => ?_
  refine within_ite w _ _ _ (fun _ => within_pure w (hR.refl w) _) fun _ => ?_
  refine within_ite w _ _ _ (fun _ => ?_) fun _ => ?_
  · refine within_bind w _ _ (hR.app w _) fun _ t _ => ?_
    split <;> exact within_pure t (hR.refl t) _
  · split
    · refine within_assert_bind env hR w _ _ ?_
      exact within_bind w _ _ (hR.move w r _ hr) fun _ t _ => within_pure t (hR.refl t) _
    · exact within_pure w (hR.refl w) _

theorem stringEncodeResult_keeps (w : World σ) (r : StrRef) (lenBytes : List Byte) (remaining : ℤ)
    (res : StringResult) (bytes : List Byte) (osError : ℤ) :
    Within R (stringEncodeResult env r lenBytes remaining res bytes osError) w := by
  refine within_bind w _ _ (hR.tx w _) fun _ t _ => ?_
  refine within_assert_bind env hR t _ _ ?_
  refine within_ite t _ _ _ (fun _ => ?_) fun _ => ?_
  · exact within_bind t _ _ (hR.tx t _) fun _ u _ => within_pure u (hR.refl u) _
  refine within_ite t _ _ _ (fun _ => within_pure t (hR.refl t) _) fun _ => ?_
  refine within_ite t _ _ _ (fun _ => within_pure t (hR.refl t) _) fun _ => ?_
  exact within_bind t _ _ (hR.tx t _) fun _ u _ => within_pure u (hR.refl u) _

theorem stringEncodeData_keeps (w : World σ) (r : StrRef) (lenBytes : List Byte) (offsetStr room : ℕ)
    (hr : r.isStored = true) :
    Within R (stringEncodeData env r lenBytes offsetStr room) w := by
  refine within_get_bind w _ ?_
  refine within_ite w _ _ _ (fun _ => within_bind w _ _ (hR.move w r _ hr) fun _ t _ => ?_) fun _ => ?_
  · exact within_bind t _ _ (stringRead_keeps env hR t r _ hr) fun _ u _ =>
      stringEncodeResult_keeps env hR u ..
  · exact within_bind w _ _ (stringRead_keeps env hR w r _ hr) fun _ u _ =>
      stringEncodeResult_keeps env hR u ..

theorem stringEncode_keeps (w : World σ) (r : StrRef) (encodeLen encodeIfEmpty : Bool)
    (offset bufLen : ℕ) (hr : r.isStored = true) :
    Within R (stringEncode env r encodeLen encodeIfEmpty offset bufLen) w := by
  refine within_get_bind w _ (within_bind w _ _ (hR.tx w _) fun _ t _ => ?_)
  refine within_ite t _ _ _ (fun _ => within_pure t (hR.refl t) _) fun _ => ?_
  refine within_ite t _ _ _ (fun _ => within_pure t (hR.refl t) _) fun _ => ?_
  refine within_assert_bind env hR t _ _ ?_
  refine within_ite t _ _ _ (fun _ => within_pure t (hR.refl t) _) fun _ => ?_
  exact stringEncodeData_keeps env hR t r _ _ _ hr

theorem runEncoder_keeps (w : World σ) (v : Value) (offset bufLen : ℕ) (encoder : Encoder) :
    Within R (runEncoder env v offset bufLen encoder) w := by
  have hpure : ∀ (f : World σ → List Byte) t,
      Within R (do pure (f (← get)) : Prog σ (List Byte)) t := fun f t => hR.refl t
  have hlen : ∀ (f : World σ → ℤ) (g : List Byte → List Byte) t,
      Within R (do
        let digits ← encodeRemainingLength env (f (← get))
        pure (g digits) : Prog σ (List Byte)) t := fun f g t =>
    within_get_bind t _ (within_bind t _ _ (encodeRemainingLength_keeps env hR t _) fun _ u _ =>
      within_pure u (hR.refl u) _)
  cases encoder with
  | connectFixedHeader => exact encodeBufferEncode_keeps env hR w _ v offset bufLen fun t => hlen _ _ t
  | connectVariableHeader => exact encodeBufferEncode_keeps env hR w _ v offset bufLen fun t => hpure _ t
  | connectPayloadClientId | connectPayloadWillTopic | connectPayloadWillMessage
  | connectPayloadUserName | connectPayloadPassword | publishTopic | publishPayload =>
    exact stringEncode_keeps env hR w _ _ _ offset bufLen rfl
  | subscribeHeaderSubscribe | subscribeHeaderUnsubscribe =>
    refine encodeBufferEncode_keeps env hR w _ v offset bufLen fun t => ?_
    exact within_get_bind t _ (encodeBufferEncodePacketId_keeps env hR t _ _ _)
  | subscribeTopic => exact within_get_bind w _ (stringEncode_keeps env hR w _ _ _ offset bufLen rfl)
  | subscribeQos => exact encodeBufferEncode_keeps env hR w _ v offset bufLen fun t => hpure _ t
  | publishFixedHeader =>
    refine encodeBufferEncode_keeps env hR w _ v offset bufLen fun t => ?_
    refine within_get_bind t _ (within_assert_bind env hR t _ _ ?_)
    exact within_bind t _ _ (encodeRemainingLength_keeps env hR t _) fun _ u _ => within_pure u (hR.refl u) _
  | publishPacketId | pingreqFixedHeader | disconnectFixedHeader =>
    exact encodeBufferEncode_keeps env hR w _ v offset bufLen fun t => within_pure t (hR.refl t) _
  | pubackFixedHeader | pubrecFixedHeader | pubrelFixedHeader | pubcompFixedHeader =>
    exact encodeBufferEncode_keeps env hR w _ v offset bufLen fun t =>
      encodeBufferEncodePacketId_keeps env hR t _ _ _

end Encoders

theorem runEncoder_within (w : World σ) (v : Value) (offset bufLen : ℕ) (encoder : Encoder) :
    Within TxScratch (runEncoder env v offset bufLen encoder) w :=
  runEncoder_keeps env encoderFrame_scratch w v offset bufLen encoder

/-! ### Finders -/

theorem setCurrentSubscription_within (w : World σ) (p : Ptr) (i : Option ℕ) :
    Within TxScratch (setCurrentSubscription p i) w := by
  refine ⟨rfl, fun q => ?_, fun _ _ hk => hk, fun _ => rfl⟩
  simp only [Heap.setSubscribe, Function.update_apply]
  split <;> simp_all

theorem txBufferFinder_within (w : World σ) (e : Entry) : Within TxScratch (txBufferFinder e) w := by
  have hsub : ∀ (p : Ptr) (i : Option ℕ) (x : Option Encoder) t,
      Within TxScratch (do setCurrentSubscription p i; pure x : Prog σ (Option Encoder)) t :=
    fun p i x t => within_bind t _ _ (setCurrentSubscription_within t p i) fun _ u _ =>
      within_pure u (.refl u) _
  refine within_get_bind w _ ?_
  cases e.kind with
  | connect | puback | pubrec | pubrel | pubcomp | pingreq | disconnect => exact within_pure w (.refl w) _
  | subscribe =>
    refine within_ite w _ _ _ (fun _ => hsub _ _ _ w) fun _ => ?_
    refine within_get_bind w _ (within_ite w _ _ _ (fun _ => hsub _ _ _ w) fun _ => within_pure w (.refl w) _)
  | unsubscribe =>
    refine within_ite w _ _ _ (fun _ => hsub _ _ _ w) fun _ => ?_
    refine within_get_bind w _ (within_ite w _ _ _ (fun _ => hsub _ _ _ w) fun _ => within_pure w (.refl w) _)
  | publish0 | publish1 | publish2 =>
    refine within_get_bind w _ ?_
    dsimp only
    split
    · exact within_pure w (.refl w) _
    · exact within_bind w _ _ ⟨rfl, fun _ => rfl, Heap.suits_setPublish rfl rfl rfl, Heap.qos_setPublish rfl⟩ fun _ t _ =>
        within_pure t (.refl t) _

/-! ### The encoder loop -/

theorem TxScratch.kept {w w' : World σ} (h : TxScratch w w') : Kept w w' := by
  rw [h.same]
  exact ⟨⟨rfl, rfl, ⟨[], rfl⟩, id, .inl rfl⟩, rfl⟩

theorem TxScratch.peek {w w' : World σ} (h : TxScratch w w') : w'.txStore.peek = w.txStore.peek := by
  rw [h.same]
  rfl

theorem TxScratch.txStore {w w' : World σ} (h : TxScratch w w') : w'.tx.store = w.tx.store := by
  rw [h.same]

theorem Kept.tx (w : World σ) (t : TxBuffer) : Kept w { w with tx := t } :=
  ⟨⟨rfl, rfl, ⟨[], rfl⟩, id, .inl rfl⟩, rfl⟩

theorem resetTx_effects (w : World σ) : Effects env P w w.resetTx :=
  (Effects.of (.txClosed w false)).then (.tx _ {})

/- Where the entry to send is done: it leaves the pending part of its store. -/
theorem txBufferFinishEntry_spec (w : World σ) (e : Entry) (hw : Sound w) (hp : w.txStore.peek = some e) :
    Wp (txBufferFinishEntry env e) w
      (fun ok w' => Effects env P w w' ∧ Kept w w' ∧ (ok = false → w'.tx.internal.error.isSome = true))
      fun _ w' => Effects env P w w' := by
  obtain ⟨rest, hpend⟩ := Store.pending_of_peek hp
  have hkept : ∀ s, Kept w ((w.emit (.encoded e.kind e.value.packetId e.value.req)).setStore w.tx.store s) :=
    fun s => (Framed.emit w _).toKept.trans (Framed.setStore _ _ _).toKept
  have hfit := hw.entries w.tx.store e (Store.dropCurrent_spec _ _ _ hpend).mem
  have htyped : e.WellTyped := by
    cases hs : w.tx.store <;> rw [hs] at hfit <;> exact hfit.1
  have hstore : (w.emit (.encoded e.kind e.value.packetId e.value.req)).txStore = w.txStore :=
    World.store_emit w w.tx.store _
  have htx : (w.emit (.encoded e.kind e.value.packetId e.value.req)).tx = w.tx := rfl
  simp only [txBufferFinishEntry, lmqttTxBufferReset, lmqttTxBufferFinish, wp_bind, wp_emit, wp_get, wp_ite,
    wp_set, wp_modify, wp_pure, hstore, htx]
  split
  · rename_i hr
    have hr : e.kind.expectsResponse = false := by simpa using hr
    -- the state in which the callback is called
    generalize hv : (w.emit (.encoded e.kind e.value.packetId e.value.req)).setStore w.tx.store
      w.txStore.dropCurrent = v
    have hvk : Kept w v := hv ▸ hkept _
    have hdrop : Effects env P w (v.answered e.value) := by
      have h : Effect env P _ _ := .drop w e hp hr
      have ha : v.answered e.value = { w.setStore w.tx.store w.txStore.dropCurrent with
          log := w.answers e.value ++ .encoded e.kind e.value.packetId e.value.req :: w.log } := by
        rw [← hv, World.setStore_emit]
        simp only [World.answered, World.answers, World.emit, World.setStore_closed, World.setStore_log]
      rw [ha]
      exact .of h
    -- a CONNECT stays in the store until it is answered
    have hopens : e.value.callback = some .onConnack → v.closed = false → Opens v e.value := by
      intro hcb
      have hk : e.kind = .connect := Kind.eq_connect (htyped.callback.symm.trans hcb)
      rw [hk] at hr
      contradiction
    have hnone : e.value.callback = none → v.answered e.value = v := answered_none v e.value
    split
    · rename_i hk
      rw [hnone (by rw [htyped.callback, hk]; rfl)] at hdrop
      exact ⟨hdrop.then (.txClosed v true), hvk.trans (.tx v _), by simp⟩
    · split
      · refine (callValue_spec env P e.value v hopens).mono (fun ok u hu => ?_) fun _ u hu =>
          hdrop.trans hu.2
        have huk := hvk.trans hu.framed.toKept
        have hue := hdrop.trans hu.effects
        split
        · simp only [wp_assert, txBufferFail, wp_modify]
          split
          · exact ⟨hue.then (.tx u _), huk.trans (.tx u _), fun _ => rfl⟩
          · exact hue
        · exact ⟨hue.trans (resetTx_effects env P u), huk.trans (.tx u _), by simp⟩
      · rename_i hn
        rw [hnone (by simpa using hn)] at hdrop
        exact ⟨hdrop.trans (resetTx_effects env P v), hvk.trans (.tx v _), by simp⟩
  · rename_i hr
    have hmark : Effect env P _ _ := .mark w e hp (by simpa using hr)
    rw [← World.setStore_emit] at hmark
    exact ⟨(Effects.of hmark).trans (resetTx_effects env P _), (hkept _).trans (.tx _ _), by simp⟩

theorem encodeBufferEncode_error (w : World σ) (builder : Value → Prog σ (List Byte)) (v : Value)
    (offset bufLen : ℕ) :
    Wp (encodeBufferEncode env builder v offset bufLen) w (fun r _ => r.1 ≠ .error) fun _ _ => True := by
  simp only [encodeBufferEncode, setEncodeBuffer, wp_bind, wp_get, wp_ite, wp_modify, wp_assert, wp_pure]
  split
  · refine (wp_true _ _).mono (fun _ t _ => ?_) fun _ _ _ => trivial
    split
    · split <;> simp
    · trivial
  · split
    · split <;> simp
    · trivial

theorem stringEncode_error (w : World σ) (r : StrRef) (encodeLen encodeIfEmpty : Bool)
    (offset bufLen : ℕ) :
    Wp (stringEncode env r encodeLen encodeIfEmpty offset bufLen) w
      (fun x w' => x.1 = .error → w'.tx.internal.buffer.error.isSome = true) fun _ _ => True := by
  have hres : ∀ lenBytes remaining res bytes osError t,
      Wp (stringEncodeResult env r lenBytes remaining res bytes osError) t
        (fun x w' => x.1 = .error → w'.tx.internal.buffer.error.isSome = true) fun _ _ => True := by
    intro lenBytes remaining res bytes osError t
    simp only [stringEncodeResult, wp_bind, wp_modify, wp_assert, wp_ite, wp_pure]
    split
    · split
      · simp
      · split
        · simp
        · split <;> simp [World.setTx]
    · trivial
  have hdata : ∀ lenBytes offsetStr room t, Wp (stringEncodeData env r lenBytes offsetStr room) t
      (fun x w' => x.1 = .error → w'.tx.internal.buffer.error.isSome = true) fun _ _ => True := by
    intro lenBytes offsetStr room t
    simp only [stringEncodeData, wp_bind, wp_get]
    refine wp_if (fun _ => ?_) fun _ => ?_
    · refine (wp_bind ..).mpr ((wp_true _ _).mono (fun _ u _ => ?_) fun _ _ _ => trivial)
      exact (wp_bind ..).mpr ((wp_true _ _).mono (fun x v _ => hres _ _ _ _ _ v) fun _ _ _ => trivial)
    · exact (wp_bind ..).mpr ((wp_true _ _).mono (fun x v _ => hres _ _ _ _ _ v) fun _ _ _ => trivial)
  simp only [stringEncode, wp_bind, wp_get, wp_modify]
  refine wp_if (fun _ => by simp) fun _ => wp_if (fun _ => by simp) fun _ => ?_
  refine wp_assert_bind (fun _ => wp_if (fun _ => ?_) fun _ => hdata _ _ _ _) fun _ => trivial
  have hne : ∀ c : Bool, (if c = true then EncodeResult.finished else .continue) ≠ .error := by decide
  exact fun hn => absurd hn (hne _)

/- An encoder that fails says why. -/
theorem runEncoder_error (w : World σ) (v : Value) (offset bufLen : ℕ) (encoder : Encoder) :
    Wp (runEncoder env v offset bufLen encoder) w
      (fun r w' => r.1 = .error → w'.tx.internal.buffer.error.isSome = true) fun _ _ => True := by
  have hbuf : ∀ builder t, Wp (encodeBufferEncode env builder v offset bufLen) t
      (fun r w' => r.1 = .error → w'.tx.internal.buffer.error.isSome = true) fun _ _ => True :=
    fun builder t => (encodeBufferEncode_error env t builder v offset bufLen).mono
      (fun _ _ h hn => absurd hn h) fun _ _ h => h
  cases encoder
  case subscribeTopic =>
    simp only [runEncoder, wp_bind, wp_get]
    exact stringEncode_error env w _ _ _ offset bufLen
  all_goals first | exact hbuf _ w | exact stringEncode_error env w _ _ _ offset bufLen

/- What a call of the encoder does, and how it ends. -/
structure Encoded (w : World σ) (res : IoResult) (w' : World σ) : Prop where
  effects : Effects env P w w'
  kept : Kept w w'
  failed : res = .error → w'.tx.internal.error.isSome = true

theorem txBufferEncodeLoop_spec (fuel : ℕ) (cur : Option Entry) (bufLen : ℕ) (out : List Byte) (w : World σ)
    (hw : Sound w) (hp : ∀ e, cur = some e → w.txStore.peek = some e) :
    Wp (txBufferEncodeLoop env fuel cur bufLen out) w (fun r w' => Encoded env P w r.1 w')
      fun _ w' => Effects env P w w' := by
  induction fuel generalizing cur bufLen out w with
  | zero => exact Effects.refl
  | succ fuel ih =>
    have hexit : Wp (txBufferExit out) w (fun r w' => Encoded env P w r.1 w') fun _ w' => Effects env P w w' := by
      simp only [txBufferExit, wp_bind, wp_get, wp_pure]
      refine ⟨.refl, .refl w, fun h => ?_⟩
      split at h <;> simp at h
    cases cur with
    | none =>
      simp only [txBufferEncodeLoop, wp_bind, wp_get, wp_ite]
      split
      · exact hexit
      · split
        · exact hexit
        · rename_i e he
          exact ih _ _ _ w hw fun e' he' => by rw [← he', ← he]
    | some e =>
      have hpe := hp e rfl
      simp only [txBufferEncodeLoop, wp_bind]
      refine (txBufferFinder_within w e).mono (fun found t ht => ?_) fun _ t ht => ht.effects env P
      have hts := (ht.effects env P).sound hw
      have htp : t.txStore.peek = some e := ht.peek.trans hpe
      cases found with
      | none =>
        simp only [wp_bind]
        refine (txBufferFinishEntry_spec env P t e hts htp).mono (fun ok u hu => ?_) fun _ u hu =>
          (ht.effects env P).trans hu
        obtain ⟨hue, huk, huf⟩ := hu
        have hwu := (ht.effects env P).trans hue
        simp only [wp_ite]
        split
        · refine (ih none _ _ u (hue.sound hts) (by simp)).mono (fun r v hv => ?_) fun _ v hv =>
            hwu.trans hv
          exact ⟨hwu.trans hv.effects, ht.kept.trans (huk.trans hv.kept), hv.failed⟩
        · rename_i hok
          exact ⟨hwu, ht.kept.trans huk, fun _ => huf (by simpa using hok)⟩
      | some encoder =>
        simp only [wp_bind, wp_get, wp_emit]
        generalize hv : t.emit (.encode e.kind e.value.packetId e.value.req t.tx.internal.pos) = v
        have htv : Effects env P w v :=
          hv ▸ (ht.effects env P).then (.encode t e _ htp)
        have hkv : Kept w v := hv ▸ ht.kept.trans (Framed.emit t _).toKept
        have hpv : v.txStore.peek = some e := by
          rw [← hv]
          exact (congrArg Store.peek (World.store_emit t t.tx.store _)).trans htp
        refine ((runEncoder_within env v e.value _ bufLen encoder).and
          (runEncoder_error env v e.value _ bufLen encoder)).mono (fun r u hu => ?_) fun _ u hu =>
          htv.trans (hu.1.effects env P)
        obtain ⟨hu, herr⟩ := hu
        have hwu := htv.trans (hu.effects env P)
        have hku := hkv.trans hu.kept
        obtain ⟨res, bytes⟩ := r
        cases res with
        | wouldBlock => exact ⟨hwu, hku, by simp⟩
        | «continue» => exact ⟨hwu.then (.tx u _), hku.trans (.tx u _), by simp⟩
        | error =>
          simp only [txBufferFail, wp_bind, wp_get, wp_modify, wp_pure]
          exact ⟨hwu.then (.tx u _), hku.trans (.tx u _), fun _ => herr rfl⟩
        | finished =>
          simp only [wp_bind, wp_modify]
          have hnext := hwu.then (.tx u { u.tx.internal with pos := u.tx.internal.pos + 1, offset := 0 })
          refine (ih (some e) _ _ _ (hnext.sound hw) ?_).mono (fun r v hv => ?_) fun _ v hv =>
            hnext.trans hv
          · rintro e' ⟨⟩
            exact (congrArg Store.peek (World.store_setTx u u.tx.store _)).trans (hu.peek.trans hpv)
          · exact ⟨hnext.trans hv.effects, (hku.trans (.tx u _)).trans hv.kept, hv.failed⟩

theorem lmqttTxBufferEncode_spec (w : World σ) (bufLen : ℕ) (hw : Sound w) :
    Wp (lmqttTxBufferEncode env bufLen) w (fun r w' => Encoded env P w r.1 w')
      fun _ w' => Effects env P w w' := by
  simp only [lmqttTxBufferEncode, wp_bind, wp_get, wp_ite, wp_pure]
  split
  · rename_i h
    exact ⟨.refl, .refl w, fun _ => h⟩
  · exact txBufferEncodeLoop_spec env P _ none bufLen [] w hw (by simp)

end LightMqtt
