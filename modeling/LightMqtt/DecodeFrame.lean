import LightMqtt.DecodeKeeps

/-!
# What a turn of the decoder leaves alone

Most turns are quiet work. The others complete a PUBLISH, read the packet id of
a PUBREL, take the CONNECT for its CONNACK, or open the client.
-/

namespace LightMqtt

open Exec

variable {σ : Type} (env : Env σ)

/-! ### Objects of the application -/

/- The objects of the application are as they were, at rest. -/
def SameObjects (w w' : World σ) : Prop := w'.heap.still = w.heap.still

theorem SameObjects.refl (w : World σ) : SameObjects w w := rfl

instance : IsTrans (World σ) SameObjects := ⟨fun _ _ _ h h' => h'.trans h⟩

theorem packetFrame_objects : PacketFrame (SameObjects (σ := σ)) :=
  ⟨fun _ _ _ _ _ => rfl, fun _ _ _ => setConnect_still rfl, fun _ _ _ _ => modifySubscription_still fun _ _ => rfl⟩

/-! ### Scratch work -/

theorem RxScratch.still {w w' : World σ} (h : RxScratch w w') (hp : SameObjects w w') : Still w w' := by
  have hs := h.same
  obtain ⟨evs, hl, he⟩ := h.log
  refine ⟨?_, hp, ⟨evs, hl, fun ev hev => Event.isInner_of_note (he ev hev)⟩, fun _ => ?_⟩
  · rw [hs]
  · rw [hs]
    exact .refl _

theorem rxBufferDeallocatePublish_still (w : World σ) :
    Wp (rxBufferDeallocatePublish env) w (fun _ w' => Still w w' ∧ w'.rx = w.rx) fun _ _ => False :=
  ((rxBufferDeallocatePublish_scratch env w).and (rxBufferDeallocatePublish_keeps packetFrame_objects w)).mono
    (fun _ _ h => ⟨h.1.1.still h.2, h.1.2⟩) fun _ _ h => h.1

/-! ### The end of a packet -/

/- A callback that does not open the client. -/
theorem callValue_still (w : World σ) (v : Value) (h : v.callback = some .onConnack → w.closed = true) :
    Wp (callValue env v) w (fun _ w' => Still w w') fun _ _ => False :=
  (callCallback_other env (fun _ => True) env.fuel v w h).mono
    (fun _ _ hu => (Still.answered w v).trans (hu.called h).still) fun _ _ hu => hu

/- The packet is done. -/
theorem Still.finished (w : World σ) :
    Still w ((w.emit (.finished w.rx.internal.header.type w.rx.internal.packetId)).setRx {}) :=
  (Still.emit w _ rfl).trans (.setRx _ {})

/- From `w` to `w'` the client was opened by a CONNACK. -/
def OpenedIn (w w' : World σ) : Prop := ∃ t u, Still w t ∧ Opened t u ∧ Still u w'

variable {env} in
theorem OpenedIn.after {w t w' : World σ} (h : Still w t) (h' : OpenedIn t w') : OpenedIn w w' := by
  obtain ⟨u, v, hu, hv, hw⟩ := h'
  exact ⟨u, v, h.trans hu, hv, hw⟩

/-- The decoder holds the CONNECT of a connection that is alive. -/
def World.HoldsConnect (w : World σ) : Prop := w.rx.internal.value.callback = some .onConnack ∧ w.closed = false

/- The decoder holds a CONNECT only in a CONNACK. -/
theorem HoldsConnect.kind {w : World σ} (h : w.HoldsConnect) (hw : Sound w) : w.rx.internal.kind = some .connect := by
  obtain ⟨hv, -⟩ := h
  rcases hw.held with h | ⟨k, hk, ht⟩
  · rw [h] at hv
    contradiction
  · have hkc : k = .connect := Kind.eq_connect (ht.callback ▸ hv)
    rw [hk, hkc]

theorem rxBufferFinishPacket_frame (w : World σ) (d : Decoder) (hw : Sound w) (hc : w.rx.internal.calls = 0) :
    Wp (rxBufferFinishPacket env d) w
      (fun _ w' => Still w w' ∧ (w.HoldsConnect → d.kind = some .publish2) ∨
        w.rx.internal.value.callback = some .onConnack ∧ OpenedIn w w') fun _ _ => True := by
  simp only [rxBufferFinishPacket, emitFinished, lmqttRxBufferReset, wp_bind, wp_get]
  refine wp_if (fun hpub => wp_if (fun _ => ?_) fun _ => ?_) fun _ => ?_
  · split
    · rename_i s hs
      exact .inl ⟨(Still.append hs).trans (.finished _), fun _ => hpub⟩
    · trivial
  · exact .inl ⟨.finished w, fun _ => hpub⟩
  simp only [wp_bind, wp_modify]
  -- what the callback does, then the end of the packet
  have hstill : Still w w.decoded := (Still.setRx w _).trans (.emit w.calling _ rfl)
  have hend : ∀ (ok : Bool) (t : World σ) (Q : World σ → Prop), (∀ w', Still t w' → Q w') →
      Wp (if ok then do emitFinished; lmqttRxBufferReset; pure true
        else do
          assert env d.callbackError.isSome
          modify fun w => w.setRx { w.rx.internal with error := d.callbackError, osError := 0 }
          pure false : Prog σ Bool) t (fun _ w' => Q w') fun _ _ => True := by
    intro ok t Q hQ
    refine wp_if (fun _ => hQ _ (.finished t)) fun _ => ?_
    exact wp_assert_bind (fun _ => hQ _ (.setRx t _)) fun _ => trivial
  by_cases hv : w.rx.internal.value.callback = some .onConnack → w.closed = true
  · refine (callValue_still env w.decoded w.rx.internal.value hv).mono (fun ok t ht => ?_) fun _ _ h => h.elim
    refine hend ok t _ fun w' h' => .inl ⟨(hstill.trans ht).trans h', fun hh => ?_⟩
    have hcl := hv hh.1
    rw [hh.2] at hcl
    contradiction
  · obtain ⟨hv, hcl⟩ : w.rx.internal.value.callback = some .onConnack ∧ ¬ w.closed = true := by tauto
    have hcl : w.closed = false := by simpa using hcl
    refine (callCallback_opened env.fuel w.rx.internal.value w.decoded (hw.opens hc hcl hv) hv hcl).mono
      (fun ok t ht => ?_) fun _ _ h => h
    obtain ⟨u, hu, ht⟩ := ht
    exact hend ok t _ fun w' h' => .inr ⟨hv, w.decoded, u, hstill, hu, ht.trans h'⟩

theorem rxBufferEndTurn_frame (w : World σ) (count : ℕ) (hw : Sound w) (hc : w.rx.internal.calls = 0) :
    Wp (rxBufferEndTurn env count) w
      (fun _ w' => Still w w' ∧ (w.HoldsConnect → w' = w) ∨ rxBufferIsPacketFinished w.rx.internal = true ∧
        w.rx.internal.value.callback = some .onConnack ∧ OpenedIn w w') fun _ _ => True := by
  simp only [rxBufferEndTurn, wp_bind, wp_get]
  split
  · rename_i d hd
    refine wp_if (fun hfin => ?_) fun _ => .inl ⟨.refl w, fun _ => rfl⟩
    refine (wp_bind ..).mpr ((rxBufferFinishPacket_frame env w d hw hc).mono (fun ok t ht => ?_) fun _ _ h => h)
    have ht : (Still w t ∧ (w.HoldsConnect → t = w)) ∨ rxBufferIsPacketFinished w.rx.internal = true ∧
        w.rx.internal.value.callback = some .onConnack ∧ OpenedIn w t := by
      rcases ht with ⟨ht, hno⟩ | ht
      · refine .inl ⟨ht, fun hh => ?_⟩
        have hk := HoldsConnect.kind hh hw
        rw [RxInternal.kind, hd, Option.bind_some, hno hh] at hk
        contradiction
      · exact .inr ⟨hfin, ht⟩
    exact wp_if (fun _ => ht) fun _ => ht
  · exact .inl ⟨.refl w, fun _ => rfl⟩

/- The end of a turn that cannot open the client. -/
theorem rxBufferEndTurn_still (w : World σ) (count : ℕ) (hw : Sound w) (hc : w.rx.internal.calls = 0)
    (hv : rxBufferIsPacketFinished w.rx.internal = true → w.rx.internal.value.callback ≠ some .onConnack) :
    Wp (rxBufferEndTurn env count) w (fun _ w' => Still w w') fun _ _ => True := by
  refine (rxBufferEndTurn_frame env w count hw hc).mono (fun _ w' h => ?_) fun _ _ h => h
  rcases h with h | ⟨hfin, hcb, -⟩
  · exact h.1
  · exact absurd hcb (hv hfin)

theorem rxBufferDecodedBytes_still (w : World σ) (res : DecodeResult) (count : ℕ) (hw : Sound w)
    (hc : w.rx.internal.calls = 0)
    (hv : rxBufferIsPacketFinished (w.advance count).rx.internal = true →
      w.rx.internal.value.callback ≠ some .onConnack) :
    Wp (rxBufferDecodedBytes env res count) w (fun _ w' => (res ≠ .error → Still w w') ∧ (res = .error → w' = w))
      fun _ _ => True := by
  have hadv : Effects env (fun _ => True) w (w.advance count) := (advance_effects env _ w count).1
  have hend : res ≠ .error → Wp (rxBufferEndTurn env count) (w.advance count)
      (fun _ w' => (res ≠ .error → Still w w') ∧ (res = .error → w' = w)) fun _ _ => True := fun hr =>
    (rxBufferEndTurn_still env (w.advance count) count (hadv.sound hw) hc hv).mono
      (fun _ _ h => ⟨fun _ => (Still.setRx w _).trans h, fun h => absurd h hr⟩) fun _ _ h => h
  cases res with
  | error => exact wp_assert_bind (fun _ => ⟨fun h => absurd rfl h, fun _ => rfl⟩) fun _ => trivial
  | wouldBlock => exact wp_assert_bind (fun _ => ⟨fun _ => .refl w, by simp⟩) fun _ => trivial
  | finished => exact hend (by simp)
  | «continue» => exact hend (by simp)

/-! ### The end of a PUBLISH -/

def World.setIds (w : World σ) (s : IdSet) : World σ := { w with rx := { w.rx with idSet := s } }

/-- What becomes of the PUBLISH that is complete in `t`: its id is known, there is
no room for its id, or the message is delivered, to a callback if there is one. -/
inductive Received (t : World σ) (res : DecodeResult) (w' : World σ) : Prop
  | known (hq : t.rx.internal.header.qos = 2) (hc : t.rx.idSet.contains t.rx.internal.packetId = true)
    (h : Still t w')
  | full (hq : t.rx.internal.header.qos = 2) (hc : t.rx.idSet.contains t.rx.internal.packetId = false)
    (hp : t.rx.idSet.put t.rx.internal.packetId = none) (hr : res = .error)
    (he : w'.rx.internal.error = some .decodePublishIdSetFull) (h : Still t w')
  | taken (s : IdSet) (u v x : World σ)
    (hs : t.rx.internal.header.qos = 2 ∧ t.rx.idSet.put t.rx.internal.packetId = some s ∨
      t.rx.internal.header.qos ≠ 2 ∧ s = t.rx.idSet)
    (hu : Still t u) (hv : Still (u.setIds s) v)
    (hx : x = v ∨ ∃ b, x = v.emit (.message t.rx.internal.packetId b)) (h : Still x w')

theorem Received.after {t u w' : World σ} {res : DecodeResult} (h : Received t res u)
    (hs : res ≠ .error → Still u w') (he : res = .error → w' = u) : Received t res w' := by
  have hstill : Still u w' := by
    by_cases hr : res = .error
    · rw [he hr]
      exact .refl u
    · exact hs hr
  cases h with
  | known hq hc h => exact .known hq hc (h.trans hstill)
  | full hq hc hp hr hee h =>
    rw [he hr]
    exact .full hq hc hp hr hee h
  | taken s u v x hs hu hv hx h => exact .taken s u v x hs hu hv hx (h.trans hstill)

theorem acknowledge_still (w : World σ) : Still w w.acknowledge := by
  unfold World.acknowledge
  dsimp only
  split
  · exact .refl w
  · cases hs : w.rxStore.append (publishAck w.rx.internal.header.qos w.rx.internal.packetId) with
    | none =>
      rw [Option.getD_none, World.rxStore, World.setStore_store]
      exact .refl w
    | some s => exact .append hs

theorem rxBufferCallMessage_frame (w : World σ) :
    Wp (rxBufferCallMessage env) w
      (fun _ w' => ∃ x, (x = w ∨ ∃ b, x = w.emit (.message w.rx.internal.packetId b)) ∧ Still x w') fun _ _ => False := by
  simp only [rxBufferCallMessage, callbackCalls_requests, wp_bind, wp_get]
  split
  · refine wp_if (fun _ => ⟨w, .inl rfl, .refl w⟩) fun _ => ?_
    simp only [wp_bind, wp_set, wp_pure]
    refine (doRequests_called env (fun _ => True) _ _).mono (fun _ t ht => ?_) fun _ _ h => h
    exact ⟨_, .inr ⟨_, rfl⟩, (Still.app _ _).trans ht.1.still⟩
  · exact ⟨w, .inl rfl, .refl w⟩

/- The message is taken in the state `w`, in which its id is in the set. -/
theorem rxBufferTakeMessage_frame (t u w : World σ) (s : IdSet)
    (hs : t.rx.internal.header.qos = 2 ∧ t.rx.idSet.put t.rx.internal.packetId = some s ∨
      t.rx.internal.header.qos ≠ 2 ∧ s = t.rx.idSet) (hu : Still t u) (hw : w = u.setIds s)
    (hi : u.rx.internal.packetId = t.rx.internal.packetId) :
    Wp (rxBufferTakeMessage env) w (fun res w' => Received t res w') fun _ _ => False := by
  simp only [rxBufferTakeMessage, wp_bind, wp_modify]
  obtain ⟨v, hv⟩ : ∃ v, v = w.setRx { w.rx.internal with publish := { w.rx.internal.publish with
    qos := w.rx.internal.header.qos, retain := w.rx.internal.header.retain ≠ 0 } } := ⟨_, rfl⟩
  rw [← hv]
  have hset : Still (u.setIds s) v := by
    rw [hv, hw]
    exact .setRx _ _
  have hid : v.rx.internal.packetId = t.rx.internal.packetId := by
    rw [hv, hw]
    exact hi
  refine (rxBufferCallMessage_frame env v).mono (fun ok x hx => ?_) fun _ _ h => h
  obtain ⟨y, hy, hx⟩ := hx
  rw [hid] at hy
  refine (rxBufferDeallocatePublish_still env x).mono (fun _ z hz => ?_) fun _ _ h => h
  have hz := hx.trans hz.1
  exact wp_if (fun _ => .taken s u v y hs hu hset hy hz) fun _ => .taken s u v y hs hu hset hy (hz.trans (.setRx z _))

theorem rxBufferFinishPublish_frame (t : World σ) :
    Wp (rxBufferFinishPublish env) t (fun res w' => Received t res w') fun _ _ => False := by
  simp only [rxBufferFinishPublish, wp_bind, wp_modify, wp_get]
  have hu := acknowledge_still t
  have hrx := acknowledge_rx t
  generalize t.acknowledge = u at hu hrx
  refine wp_if (fun hknown => ?_) fun hnew => ?_
  · have hknown : u.rx.internal.header.qos = 2 ∧ u.rx.idSet.contains u.rx.internal.packetId = true := by
      simpa using hknown
    rw [hrx] at hknown
    exact (wp_bind ..).mpr ((rxBufferDeallocatePublish_still env u).mono
      (fun _ _ h => .known hknown.1 hknown.2 (hu.trans h.1)) fun _ _ h => h)
  have hid : u.rx.internal.packetId = t.rx.internal.packetId := by rw [hrx]
  simp only [rxBufferRemember, wp_bind, wp_get]
  refine wp_if (fun hq => wp_if (fun _ => ?_) (by simp)) fun hq => ?_
  · rw [hrx] at hq
    refine rxBufferTakeMessage_frame env t u u t.rx.idSet (.inr ⟨hq, rfl⟩) hu ?_ hid
    rw [← hrx]
    rfl
  · have hq : u.rx.internal.header.qos = 2 := by omega
    have hc : u.rx.idSet.contains u.rx.internal.packetId = false := by
      simpa [hq] using hnew
    rw [hrx] at hq hc
    split
    · rename_i hput
      rw [hrx] at hput
      refine wp_if (by simp) fun _ => ?_
      refine (wp_bind ..).mpr ((rxBufferDeallocatePublish_still env u).mono (fun _ v hv => ?_) fun _ _ h => h)
      exact .full hq hc hput rfl rfl (hu.trans (hv.1.trans (.setRx v _)))
    · rename_i s hput
      rw [hrx] at hput
      simp only [wp_bind, wp_set, wp_pure]
      exact wp_if (fun _ => rxBufferTakeMessage_frame env t u _ s (.inl ⟨hq, hput⟩) hu rfl hid) (by simp)

/-! ### Turns -/

/- A turn that takes the last byte of a PUBLISH; `t` is the state behind its last part. -/
def World.Completed {ρ : Type} [Reentrant ρ] (env : EnvOf σ ρ) (w : World σ) (bs : List Byte) (t : World σ) : Prop :=
  ∃ count, rxBufferDecodePublishPart env bs w = .ok (some count) t ∧ t.rx.internal.blockingStr = none ∧
    w.rx.internal.header.remainingLength < w.rx.internal.remainBufPos + 1 + count

/-- The PUBLISH in `t` is complete after the bytes `bs`. -/
structure World.Receives {ρ : Type} [Reentrant ρ] (env : EnvOf σ ρ) (w : World σ) (bs : List Byte) (t : World σ) : Prop where
  headerFinished : w.rx.internal.headerFinished = true
  decoder : w.rx.internal.decoder = some rxBufferDecoderPublish
  completed : w.Completed env bs t

/- The next byte is the second one of the packet id of a PUBREL. -/
structure World.AtPubrel (w : World σ) : Prop where
  headerFinished : w.rx.internal.headerFinished = true
  decoder : w.rx.internal.decoder = some rxBufferDecoderPubrel
  pos : w.rx.internal.remainBufPos = 1

/-- A PUBLISH or a PUBREL is taken at the bytes `bs`. -/
def World.Takes {ρ : Type} [Reentrant ρ] (env : EnvOf σ ρ) (w : World σ) (bs : List Byte) : Prop :=
  (∃ t, w.Receives env bs t) ∨ w.AtPubrel

/-- What a turn of the decoder at the bytes `bs` does. -/
inductive Deed (env : Env σ) (bs : List Byte) (w w' : World σ) : Prop
  | still (hn : ¬ w.Takes env bs)
    (hk : w.HoldsConnect → w'.HoldsConnect ∧ w.connectStore.SameQueue w'.connectStore) (h : Still w w')
  /- the last byte of a PUBLISH is taken -/
  | publish (t : World σ) (res : DecodeResult) (hc : w.Receives env bs t) (ht : Still w t) (h : Received t res w')
  /- the second byte of the packet id of a PUBREL -/
  | pubrel (t : World σ) (hp : w.AtPubrel)
    (hi : t.rx.internal = (w.readId (bs.headD 0)).rx.internal) (ht : Still w t)
    (h : Still (t.setIds (t.rx.idSet.remove t.rx.internal.packetId)) w')
    (he : t.rxStore.append ⟨.pubcomp, { packetId := t.rx.internal.packetId }⟩ = none →
      w'.rx.internal.error = some .decodePubrelIdSetFull)
  /- the fixed header of the CONNACK for a CONNECT that was sent -/
  | connack (t : World σ) (e : Entry) (s : Store) (hf : w.rx.internal.headerFinished = false) (ht : Still w t)
    (hw : Sound t) (hs : t.rxStore.popMarkedBy .connect 0 = some (e, s)) (h : w' = t.popped 0 e s)
  /- the return code 0 of a CONNACK -/
  | opened (hf : w.rx.internal.headerFinished = true) (hd : w.rx.internal.decoder = some rxBufferDecoderConnack)
    (hp : w.rx.internal.remainBufPos = 1) (hb : bs.headD 0 = 0)
    (hv : w.rx.internal.value.callback = some .onConnack) (h : OpenedIn w w')

theorem not_takes {w : World σ} {d : Decoder} {bs : List Byte} (hd : w.rx.internal.decoder = some d)
    (hn : d ≠ rxBufferDecoderPublish) (hr : d = rxBufferDecoderPubrel → w.rx.internal.remainBufPos ≠ 1) :
    ¬ w.Takes env bs := by
  rintro (⟨t, ht⟩ | ht)
  · have h := hd.symm.trans ht.decoder
    exact hn (Option.some.inj h)
  · have h := hd.symm.trans ht.decoder
    exact hr (Option.some.inj h) ht.pos

/- Quiet work of a decoder that holds no CONNECT. -/
theorem Deed.quiet {w w' : World σ} {bs : List Byte} (hn : ¬ w.Takes env bs) (hk : ¬ w.HoldsConnect)
    (h : Still w w') : Deed env bs w w' :=
  .still hn (fun hh => absurd hh hk) h

theorem not_holdsConnect {w : World σ} {d : Decoder} (hw : Sound w) (hd : w.rx.internal.decoder = some d)
    (hk : d.kind ≠ some .connect) : ¬ w.HoldsConnect := by
  intro hh
  have h := HoldsConnect.kind hh hw
  rw [RxInternal.kind, hd, Option.bind_some] at h
  exact hk h

/- Which bytes of a CONNACK there are. -/
theorem rxBufferDecodeConnack_bytes (w : World σ) (bs : List Byte) :
    Wp (rxBufferDecodeConnack env bs) w
      (fun r _ => r.1 = .error ∨ r.2 = 1 ∧ (w.rx.internal.remainBufPos = 0 ∨
        w.rx.internal.remainBufPos = 1 ∧ bs.headD 0 = 0)) fun _ _ => True := by
  simp only [rxBufferDecodeConnack]
  refine wp_assert_bind (fun _ => ?_) fun _ => trivial
  simp only [wp_bind, wp_get]
  split
  · rename_i hp
    exact wp_if (fun _ => .inl rfl) fun _ => .inr ⟨rfl, .inl hp⟩
  · rename_i hp
    refine wp_if (fun _ => .inl rfl) fun _ => wp_if (fun _ => .inl rfl) fun hb => ?_
    exact .inr ⟨rfl, .inr ⟨hp, by simpa using hb⟩⟩
  · exact .inl rfl

/- The decoder whose request is the CONNECT, and those that decode bytes. -/
theorem rxBufferDecoders_connack (type : ℕ) (d : Decoder) (h : rxBufferDecoders type = some d) :
    (d.kind = some .connect ∨ d.decodeBytes = some .connack ↔ d = rxBufferDecoderConnack) ∧
      (d.decodeBytes = some .publish ↔ d = rxBufferDecoderPublish) ∧
      (d.popPacketWithId = .pubrel → d = rxBufferDecoderPubrel) := by
  unfold rxBufferDecoders at h
  split at h <;> cases h <;> decide

/- The decoder holds a CONNECT only in a CONNACK. -/
theorem Sound.connackDecoder {w : World σ} (hw : Sound w) (hs : RxShape w.rx.internal)
    (hf : w.rx.internal.headerFinished = true) (hv : w.rx.internal.value.callback = some .onConnack) :
    w.rx.internal.decoder = some rxBufferDecoderConnack := by
  rcases hw.held with h | ⟨k, hk, ht⟩
  · rw [h] at hv
    contradiction
  · have hkc : k = .connect := Kind.eq_connect (ht.callback ▸ hv)
    obtain ⟨d, hd, hdk⟩ := Option.bind_eq_some_iff.mp hk
    have htable := (hs.table hf).symm.trans hd
    rw [hd, (rxBufferDecoders_connack _ _ htable).1.mp (.inl (by rw [hdk, hkc]))]

/- The bytes of a packet that is not a PUBLISH. -/
theorem rxBufferDecodeType_still (w : World σ) (d : Decoder) (bs : List Byte) (hd : d.decodeBytes ≠ some .publish) :
    Wp (rxBufferDecodeType env d bs) w (fun _ w' => Still w w') fun _ _ => True := by
  unfold rxBufferDecodeType
  split
  · exact Still.setRx w _
  · exact ((rxBufferDecodeConnack_scratch env w bs).and (rxBufferDecodeConnack_keeps packetFrame_objects w bs)).mono
      (fun _ _ h => h.1.still h.2) fun _ _ _ => trivial
  · rename_i h
    exact absurd h hd
  · exact ((rxBufferDecodeSuback_scratch env w bs).and (rxBufferDecodeSuback_keeps packetFrame_objects w bs)).mono
      (fun _ _ h => h.1.still h.2) fun _ _ _ => trivial

theorem rxBufferDecodeRemainingWithoutId_still (w : World σ) (d : Decoder) (bs : List Byte)
    (hd : d.decodeBytes ≠ some .publish) :
    Wp (rxBufferDecodeRemainingWithoutId env d bs) w (fun _ w' => Still w w') fun _ _ => True := by
  simp only [rxBufferDecodeRemainingWithoutId, wp_bind, wp_get]
  refine (rxBufferDecodeType_still env w d bs hd).mono (fun r t ht => ?_) fun _ _ h => h
  exact wp_if (fun _ => ht) fun _ => wp_assert_bind (fun _ => ht) fun _ => trivial

theorem rxBufferDecodeConnack_quiet (w : World σ) (bs : List Byte) :
    Wp (rxBufferDecodeRemainingWithoutId env rxBufferDecoderConnack bs) w
      (fun _ w' => Still w w' ∧ w.connectStore.SameQueue w'.connectStore) fun _ _ => True := by
  simp only [rxBufferDecodeRemainingWithoutId, wp_bind, wp_get]
  refine ((rxBufferDecodeConnack_scratch env w bs).and (rxBufferDecodeConnack_keeps packetFrame_objects w bs)).mono
    (fun r t ht => ?_) fun _ _ _ => trivial
  obtain ⟨hs, ho⟩ := ht
  have hq : w.connectStore.SameQueue t.connectStore := by
    rw [hs.same]
    exact .refl _
  exact wp_if (fun _ => ⟨hs.still ho, hq⟩) fun _ => wp_assert_bind (fun _ => ⟨hs.still ho, hq⟩) fun _ => trivial

/- The bytes of a CONNACK: the one that opens the client is its return code. -/
theorem rxBufferDecodeConnack_turn (w : World σ) (bs : List Byte) (hw : Sound w) (hs : RxShape w.rx.internal)
    (hf : w.rx.internal.headerFinished = true) (hd : w.rx.internal.decoder = some rxBufferDecoderConnack)
    (he : w.rx.internal.error = none) (hwe : w.error = none) :
    Wp (rxBufferDecodeRemainingWithoutId env rxBufferDecoderConnack bs) w
      (fun r t => Wp (rxBufferDecodedBytes env r.1 r.2) t (fun _ w' => Deed env bs w w') fun _ _ => True)
      fun _ _ => True := by
  have hn : ¬ w.Takes env bs := not_takes env hd (by decide) fun h => absurd h (by decide)
  have hbytes : Wp (rxBufferDecodeRemainingWithoutId env rxBufferDecoderConnack bs) w
      (fun r _ => r.1 = .error ∨ r.2 = 1 ∧ (w.rx.internal.remainBufPos = 0 ∨
        w.rx.internal.remainBufPos = 1 ∧ bs.headD 0 = 0)) fun _ _ => True := by
    simp only [rxBufferDecodeRemainingWithoutId, wp_bind, wp_get]
    refine (rxBufferDecodeConnack_bytes env w bs).mono (fun r t ht => ?_) fun _ _ h => h
    exact wp_if (fun _ => .inl rfl) fun _ => wp_assert_bind (fun _ => ht) fun _ => trivial
  have hspec := rxBufferDecodeRemainingWithoutId_spec env (fun _ => True) w rxBufferDecoderConnack bs hwe
  refine ((hspec.and (rxBufferDecodeConnack_quiet env w bs)).and hbytes).mono
    (fun r t ht => ?_) fun _ _ _ => trivial
  obtain ⟨⟨hdec, ht, hq⟩, hb⟩ := ht
  obtain ⟨res, count⟩ := r
  have hheld : t.HoldsConnect ↔ w.HoldsConnect := by
    unfold World.HoldsConnect
    rw [hdec.kept.value, hdec.kept.closed]
  have hkeep : w.HoldsConnect → t.HoldsConnect ∧ w.connectStore.SameQueue t.connectStore := fun hh => ⟨hheld.mpr hh, hq⟩
  have hend : res ≠ .error →
      Wp (rxBufferEndTurn env count) (t.advance count) (fun _ w' => Deed env bs w w') fun _ _ => True := by
    intro hr
    have hadv := hdec.effects.trans (advance_effects env (fun _ => True) t count).1
    have hcalls : (t.advance count).rx.internal.calls = 0 := hdec.kept.calls.trans (hs.calls he)
    refine (rxBufferEndTurn_frame env _ count (hadv.sound hw) hcalls).mono (fun _ w' h => ?_) fun _ _ h => h
    have hta : Still w (t.advance count) := ht.trans (.setRx t _)
    rcases h with ⟨h, hno⟩ | ⟨hfin, hcb, h⟩
    · refine .still hn (fun hh => ?_) (hta.trans h)
      rw [hno (hheld.mpr hh)]
      exact hkeep hh
    · obtain ⟨d, hd', hlen⟩ := hs.long hf he
      rw [hd] at hd'
      cases hd'
      change 2 ≤ _ at hlen
      have hpos : (t.advance count).rx.internal.remainBufPos = w.rx.internal.remainBufPos + count := by
        rw [← hdec.kept.pos]
        rfl
      have hhead : (t.advance count).rx.internal.header = w.rx.internal.header := hdec.kept.header
      simp only [rxBufferIsPacketFinished, Bool.and_eq_true, decide_eq_true_eq, hpos, hhead] at hfin
      rcases hb with hb | ⟨hc, hp | ⟨hp, hb⟩⟩
      · exact absurd hb hr
      · simp only at hc
        omega
      · exact .opened hf hd hp hb (hdec.kept.value.symm ▸ hcb) (h.after hta)
  cases res with
  | error => exact wp_assert_bind (fun _ => .still hn hkeep ht) fun _ => trivial
  | wouldBlock => exact wp_assert_bind (fun _ => .still hn hkeep ht) fun _ => trivial
  | finished => exact hend (by simp)
  | «continue» => exact hend (by simp)

/- The bytes of a packet other than a CONNACK or a PUBLISH. -/
theorem rxBufferDecodeBytes_turn (w : World σ) (d : Decoder) (bs : List Byte) (hw : Sound w) (hs : RxShape w.rx.internal)
    (hf : w.rx.internal.headerFinished = true) (hd : w.rx.internal.decoder = some d)
    (he : w.rx.internal.error = none) (hwe : w.error = none) (hn : d ≠ rxBufferDecoderConnack)
    (hp : d.decodeBytes ≠ some .publish) (hr : d = rxBufferDecoderPubrel → w.rx.internal.remainBufPos ≠ 1) :
    Wp (rxBufferDecodeRemainingWithoutId env d bs) w
      (fun r t => Wp (rxBufferDecodedBytes env r.1 r.2) t (fun _ w' => Deed env bs w w') fun _ _ => True)
      fun _ _ => True := by
  have hno : ¬ w.Takes env bs := not_takes env hd (by rintro rfl; exact hp rfl) hr
  have hspec := rxBufferDecodeRemainingWithoutId_spec env (fun _ => True) w d bs hwe
  refine (hspec.and (rxBufferDecodeRemainingWithoutId_still env w _ bs hp)).mono (fun r t ht => ?_) fun _ _ _ => trivial
  obtain ⟨hdec, ht⟩ := ht
  have hcb : t.rx.internal.value.callback ≠ some .onConnack := by
    intro hv
    rw [hdec.kept.value] at hv
    have := hw.connackDecoder hs hf hv
    rw [hd] at this
    exact hn (Option.some.inj this)
  refine (rxBufferDecodedBytes_still env t r.1 r.2 (hdec.effects.sound hw) (hdec.kept.calls.trans (hs.calls he))
    fun _ => hcb).mono (fun _ w' h => ?_) fun _ _ h => h
  have hnc : ¬ w.HoldsConnect := fun hh => hn (Option.some.inj (hd.symm.trans (hw.connackDecoder hs hf hh.1)))
  by_cases hr : r.1 = .error
  · rw [h.2 hr]
    exact .quiet env hno hnc ht
  · exact .quiet env hno hnc (ht.trans (h.1 hr))

theorem rxBufferDecodePublish_frame (w : World σ) (bs : List Byte) :
    Wp (rxBufferDecodePublish env bs) w
      (fun r w' => (∀ t, ¬ w.Completed env bs t) ∧ Still w w' ∨
        ∃ t, w.Completed env bs t ∧ Still w t ∧ Received t r.1 w') fun _ _ => True := by
  have hpart := (rxBufferDecodePublishPart_scratch env w bs).and (rxBufferDecodePublishPart_keeps packetFrame_objects w bs)
  simp only [rxBufferDecodePublish]
  refine wp_assert_bind (fun _ => wp_of_ok fun res w' h => ?_) fun _ => trivial
  obtain ⟨r, t, hrun, h⟩ := ok_bind (ok_get_bind h)
  have hscr := wp_ok hpart hrun
  have ht : Still w t := hscr.1.still hscr.2
  cases r with
  | none =>
    rw [← (ok_pure h).2]
    refine .inl ⟨fun t' hc => ?_, ht⟩
    obtain ⟨count, hc, -⟩ := hc
    rw [hrun] at hc
    cases hc
  | some count =>
    have h := ok_get_bind h
    -- the turn completes the packet or not
    have hno : (t.rx.internal.blockingStr = none → ¬ w.rx.internal.header.remainingLength <
        w.rx.internal.remainBufPos + 1 + count) → ∀ t', ¬ w.Completed env bs t' := by
      rintro hn t' ⟨count', hc, hb, hl⟩
      rw [hrun] at hc
      cases hc
      exact hn hb hl
    rcases ok_ite h with ⟨hblk, h⟩ | ⟨hblk, h⟩
    · rw [← (ok_pure h).2]
      refine .inl ⟨hno fun hb => ?_, ht⟩
      rw [hb] at hblk
      contradiction
    rcases ok_ite h with ⟨hlen, h⟩ | ⟨hlen, h⟩
    · rw [← (ok_pure h).2]
      exact .inl ⟨hno fun _ => by omega, ht⟩
    obtain ⟨res, u, hu, h⟩ := ok_bind h
    obtain ⟨rfl, rfl⟩ := ok_pure h
    exact .inr ⟨t, ⟨count, hrun, by simpa using hblk, by omega⟩, ht, wp_ok (rxBufferFinishPublish_frame env t) hu⟩

/- The bytes of a PUBLISH. -/
theorem rxBufferDecodePublish_turn (w : World σ) (bs : List Byte) (hw : Sound w) (hs : RxShape w.rx.internal)
    (hf : w.rx.internal.headerFinished = true) (hd : w.rx.internal.decoder = some rxBufferDecoderPublish)
    (he : w.rx.internal.error = none) (hwe : w.error = none) :
    Wp (rxBufferDecodeRemainingWithoutId env rxBufferDecoderPublish bs) w
      (fun r t => Wp (rxBufferDecodedBytes env r.1 r.2) t (fun _ w' => Deed env bs w w') fun _ _ => True)
      fun _ _ => True := by
  have hframe : Wp (rxBufferDecodeRemainingWithoutId env rxBufferDecoderPublish bs) w
      (fun r w' => (∀ t, ¬ w.Completed env bs t) ∧ Still w w' ∨
        ∃ t, w.Completed env bs t ∧ Still w t ∧ Received t r.1 w') fun _ _ => True := by
    simp only [rxBufferDecodeRemainingWithoutId, wp_bind, wp_get]
    refine (rxBufferDecodePublish_frame env w bs).mono (fun r t ht => ?_) fun _ _ h => h
    refine wp_if (fun hr => ?_) fun _ => wp_assert_bind (fun _ => ht) fun _ => trivial
    rwa [hr] at ht
  have hspec := rxBufferDecodeRemainingWithoutId_spec env (fun _ => True) w rxBufferDecoderPublish bs hwe
  refine (hspec.and hframe).mono (fun r u hu => ?_) fun _ _ _ => trivial
  obtain ⟨hdec, hu⟩ := hu
  have hcb : u.rx.internal.value.callback ≠ some .onConnack := by
    rw [hdec.kept.value, hs.idle (by rw [RxInternal.kind, hd]; rfl)]
    simp
  refine (rxBufferDecodedBytes_still env u r.1 r.2 (hdec.effects.sound hw) (hdec.kept.calls.trans (hs.calls he))
    fun _ => hcb).mono (fun _ w' h => ?_) fun _ _ h => h
  have hnc : ¬ w.HoldsConnect := not_holdsConnect hw hd (by decide)
  rcases hu with ⟨hn, hu⟩ | ⟨t, hc, ht, hr⟩
  · have hn : ¬ w.Takes env bs := by
      rintro (⟨t, ht⟩ | ht)
      · exact hn t ht.completed
      · have h := hd.symm.trans ht.decoder
        contradiction
    by_cases hr : r.1 = .error
    · rw [h.2 hr]
      exact .quiet env hn hnc hu
    · exact .quiet env hn hnc (hu.trans (h.1 hr))
  · exact .publish t r.1 ⟨hf, hd, hc⟩ ht (hr.after h.1 h.2)

/- The turn in which the second byte of a packet id is read. -/
theorem rxBufferDecodeId_frame (w u : World σ) (d : Decoder) (bs : List Byte) (hu : Sound u) (hwu : Still w u)
    (hs : RxShape u.rx.internal) (hf : w.rx.internal.headerFinished = true) (hd : w.rx.internal.decoder = some d)
    (hi : u.rx.internal = (w.readId (bs.headD 0)).rx.internal) (hr : d.decodeRemaining = .withId)
    (hp : w.rx.internal.remainBufPos = 1) (he : w.rx.internal.error = none)
    (hl : ∃ l, u.log = .packetId u.rx.internal.header.type u.rx.internal.packetId :: l)
    (hc : u.rx.store = .main → u.ops.publish = true) (hnc : ¬ w.HoldsConnect) :
    Wp (popPacket d d.popPacketWithId >>= fun ok =>
        rxBufferDecodedBytes env (if ok then .continue else .error) 1) u
      (fun _ w' => Deed env bs w w') fun _ _ => True := by
  have huf : u.rx.internal.headerFinished = true := by rw [hi]; exact hf
  have hud : u.rx.internal.decoder = some d := by rw [hi]; exact hd
  have hue : u.rx.internal.error = none := by rw [hi]; exact he
  have hup : u.rx.internal.remainBufPos = 1 := by rw [hi]; exact hp
  have hv : u.rx.internal.value = {} := hs.unread d hud hr (by omega)
  have htable := (hs.table huf).symm.trans hud
  obtain ⟨hconn, -, hrel⟩ := rxBufferDecoders_connack _ _ htable
  have hne : d ≠ rxBufferDecoderConnack := by
    rintro rfl
    contradiction
  -- the request is found or not, then the packet goes on
  have hend : ∀ (v : World σ) (ok : Bool), Effects env (fun _ => True) u v → v.rx.internal.calls = 0 →
      v.rx.internal.value.callback ≠ some .onConnack →
      ∀ Q : World σ → Prop, (∀ w', Still v w' → (ok = false → w' = v) → Q w') →
      Wp (rxBufferDecodedBytes env (if ok then .continue else .error) 1) v (fun _ w' => Q w') fun _ _ => True := by
    intro v ok hv hcalls hcb Q hQ
    refine (rxBufferDecodedBytes_still env v _ 1 (hv.sound hu) hcalls fun _ => hcb).mono (fun _ w' h => hQ w' ?_ ?_)
      fun _ _ h => h
    · cases ok
      · rw [h.2 rfl]
        exact .refl v
      · exact h.1 (by simp)
    · rintro rfl
      exact h.2 rfl
  rw [wp_bind]
  rcases (rxBufferDecoders_withId _ _ htable hr).2 with hpop | ⟨hpop, hy, -⟩
  · have hno : ¬ w.Takes env bs := by
      refine not_takes env hd ?_ ?_
      · rintro rfl
        contradiction
      · rintro rfl
        contradiction
    rw [hpop]
    simp only [popPacket, wp_bind, wp_get]
    refine (rxBufferPopPacket_spec env (fun _ => True) u d _ hud hv (fun _ _ _ => hl) hc).mono (fun ok t ht => ?_)
      fun _ _ h => h.elim
    obtain ⟨hte, htok, htno⟩ := ht
    cases ok with
    | false =>
      have ht := htno rfl
      refine hend t false hte (by rw [ht]; exact hs.calls hue)
        (by rw [ht]; change u.rx.internal.value.callback ≠ _; rw [hv]; simp) _
        fun w' h _ => .quiet env hno hnc (hwu.trans (Still.trans ?_ h))
      rw [ht]
      exact .setRx u _
    | true =>
      obtain ⟨k, e, s, hk, hs', ht⟩ := htok rfl
      have hkc : k ≠ .connect := by
        rintro rfl
        exact hne (hconn.mp (.inl hk))
      have htyped := hu.popped hs'
      refine hend t true hte (by rw [ht]; exact hs.calls hue) ?_ _
        fun w' h _ => .quiet env hno hnc (hwu.trans (Still.trans ?_ h))
      · rw [ht]
        change e.value.callback ≠ _
        intro hcb
        exact hkc (htyped.1 ▸ Kind.eq_connect (htyped.2.1.callback ▸ hcb))
      · rw [ht]
        exact (Still.pop hkc hs').trans ((Still.setRx _ _).trans (.emit _ _ rfl))
  · rw [hpop]
    have hdr := hrel hpop
    simp only [popPacket, rxBufferPubrel, wp_bind, wp_get, wp_set]
    obtain ⟨l, hl⟩ := hl
    have hrelease : Effects env (fun _ => True) u _ := .of (.release u u.rx.internal.packetId ⟨l, by rw [hl, hy]⟩)
    generalize hv' : ({ u with rx := { u.rx with idSet := u.rx.idSet.remove u.rx.internal.packetId } } : World σ) = v
      at hrelease ⊢
    have hvr : v.rx.internal = u.rx.internal := by rw [← hv']
    have hvs : v.rx.store = u.rx.store := by rw [← hv']
    have hdeed : ∀ w', Still v w' → (u.rxStore.append ⟨.pubcomp, { packetId := u.rx.internal.packetId }⟩ = none →
        w'.rx.internal.error = some .decodePubrelIdSetFull) → Deed env bs w w' := fun w' h he => by
      refine .pubrel u ⟨hf, hd.trans (by rw [hdr]), hp⟩ hi hwu ?_ he
      rw [← hv'] at h
      exact h
    have hvstore : v.rxStore = u.rxStore := by
      rw [← hv']
      cases hr' : u.rx.store <;> simp [World.rxStore, World.store, hr']
    split
    · rename_i s hs'
      simp only [wp_bind, wp_set, wp_pure]
      have hack : Effect env (fun _ => True) v _ := .ack v ⟨.pubcomp, { packetId := u.rx.internal.packetId }⟩ s
        ⟨.inr (.inr rfl), rfl⟩ hs'
      rw [← hvs]
      refine hend _ true (hrelease.then hack) ?_ ?_ _ fun w' h _ => hdeed w' ((Still.append hs').trans h) ?_
      · rw [World.setStore_rx, hvr]
        exact hs.calls hue
      · rw [World.setStore_rx, hvr, hv]
        simp
      · rw [← hvstore, hs']
        simp
    · simp only [wp_bind, wp_rxBufferFail, wp_pure]
      have hfail := (Scratched.fail v .decodePubrelIdSetFull 0 trivial).effects env fun _ => True
      refine hend _ false (hrelease.trans hfail) ?_ ?_ _ fun w' h he => hdeed w' ((Still.setRx v _).trans h) ?_
      · change v.rx.internal.calls = 0
        rw [hvr]
        exact hs.calls hue
      · change v.rx.internal.value.callback ≠ _
        rw [hvr, hv]
        simp
      · intro _
        rw [he rfl]
        rfl

theorem rxBufferDecodeBodyTurn_frame (w : World σ) (d : Decoder) (bs : List Byte) (hw : Sound w)
    (hs : RxShape w.rx.internal) (hf : w.rx.internal.headerFinished = true)
    (hd : w.rx.internal.decoder = some d) (he : w.rx.internal.error = none) (hwe : w.error = none)
    (hc : w.rx.store = .main → w.ops.publish = true) :
    Wp (rxBufferDecodeBodyTurn env d bs) w (fun _ w' => Deed env bs w w') fun _ _ => True := by
  simp only [rxBufferDecodeBodyTurn, decodeRemaining, wp_bind]
  obtain ⟨hconn, hpub, -⟩ := rxBufferDecoders_connack _ _ ((hs.table hf).symm.trans hd)
  have hbytes : (d = rxBufferDecoderPubrel → w.rx.internal.remainBufPos ≠ 1) →
      Wp (rxBufferDecodeRemainingWithoutId env d bs) w
        (fun r t => Wp (rxBufferDecodedBytes env r.1 r.2) t (fun _ w' => Deed env bs w w') fun _ _ => True)
        fun _ _ => True := by
    intro hnr
    by_cases hdc : d = rxBufferDecoderConnack
    · rw [hdc] at hd ⊢
      exact rxBufferDecodeConnack_turn env w bs hw hs hf hd he hwe
    · by_cases hdp : d = rxBufferDecoderPublish
      · rw [hdp] at hd ⊢
        exact rxBufferDecodePublish_turn env w bs hw hs hf hd he hwe
      · exact rxBufferDecodeBytes_turn env w d bs hw hs hf hd he hwe hdc (fun h => hdp (hpub.mp h)) hnr
  cases hr : d.decodeRemaining with
  | withoutId =>
    refine hbytes ?_
    rintro rfl
    contradiction
  | withId =>
    simp only [rxBufferDecodeRemainingWithId, wp_bind, wp_get]
    have hnc : ¬ w.HoldsConnect := by
      refine not_holdsConnect hw hd fun hk => ?_
      rw [hconn.mp (.inl hk)] at hr
      contradiction
    refine wp_if (fun hpos => hbytes fun _ => by omega) fun hpos => ?_
    refine wp_assert_bind (fun _ => ?_) fun _ => trivial
    simp only [wp_bind, wp_modify]
    have hread := readId_scratch w (bs.headD 0)
    have hstill : Still w (w.readId (bs.headD 0)) := .setRx w _
    have hshape := hs.of_kept hf (.inl he) (.inl (hs.calls he)) hread.rxKept
    refine wp_if (fun hpos2 => ?_) fun hpos1 => ?_
    · simp only [wp_bind, wp_get, wp_emit]
      -- the packet id is complete
      have hnote : Effects env (fun _ => True) w ((w.readId (bs.headD 0)).emit (.packetId
          (w.readId (bs.headD 0)).rx.internal.header.type (w.readId (bs.headD 0)).rx.internal.packetId)) :=
        (hread.effects env _).then (.note _ _ rfl)
      have hid := rxBufferDecodeId_frame env w _ d bs (hnote.sound hw) (hstill.trans (.emit _ _ rfl)) hshape hf hd rfl
        hr (by omega) he ⟨_, rfl⟩ hc hnc
      rw [wp_bind] at hid
      refine hid.mono (fun ok t ht => ?_) fun _ _ h => h
      cases ok
      · exact ht
      · exact ht
    · -- the packet goes on
      have hunread : (w.readId (bs.headD 0)).rx.internal.value.callback ≠ some .onConnack := by
        change w.rx.internal.value.callback ≠ _
        rw [hs.unread d hd hr (by omega)]
        simp
      refine (rxBufferDecodedBytes_still env _ _ 1 ((hread.effects env fun _ => True).sound hw) (hs.calls he)
        fun _ => hunread).mono (fun _ _ h => ?_) fun _ _ h => h
      exact .quiet env (not_takes env hd (by rintro rfl; contradiction) fun _ => by omega) hnc (hstill.trans (h.1 (by simp)))

theorem rxBufferDecodeHeaderTurn_frame (w : World σ) (bs : List Byte) (hw : Sound w) (hs : RxShape w.rx.internal)
    (hn : w.rx.internal.headerFinished = false) (hwe : w.rx.internal.error = none)
    (hc : w.rx.store = .main → w.ops.publish = true) :
    Wp (rxBufferDecodeHeaderTurn env (bs.headD 0)) w (fun _ w' => Deed env bs w w') fun _ _ => True := by
  have hno : ¬ w.Takes env bs := by
    rintro (⟨t, ht⟩ | ht)
    · rw [ht.headerFinished] at hn
      contradiction
    · rw [ht.headerFinished] at hn
      contradiction
  have hi := hs.fresh hn
  have hv : w.rx.internal.value = {} := by rw [hi]
  have hnc : ¬ w.HoldsConnect := fun hh => by
    have h := hh.1
    rw [hv] at h
    contradiction
  have hcalls := hs.calls hwe
  simp only [rxBufferDecodeHeaderTurn, wp_bind, wp_get, wp_set]
  rcases hdec : fixedHeaderDecode w.rx.internal.header (bs.headD 0) with ⟨h, res, error⟩
  have hset : ∀ i, Still w (w.setRx i) := fun i => .setRx w i
  cases res with
  | «continue» => exact .quiet env hno hnc (hset _)
  | wouldBlock => exact .quiet env hno hnc ((hset _).trans (.setRx _ _))
  | error => exact .quiet env hno hnc ((hset _).trans (.setRx _ _))
  | finished =>
    simp only [wp_bind, wp_modify]
    obtain ⟨u, hu⟩ : ∃ u, u = w.setRx { w.rx.internal with
      header := h, headerFinished := true, decoder := rxBufferDecoders h.type } := ⟨_, rfl⟩
    have hwu : (w.setRx { w.rx.internal with header := h }).setRx
        { (w.setRx { w.rx.internal with header := h }).rx.internal with
          headerFinished := true, decoder := rxBufferDecoders h.type } = u := by rw [hu]; rfl
    have hur : u.rx.internal = { w.rx.internal with
        header := h, headerFinished := true, decoder := rxBufferDecoders h.type } := by rw [hu]; rfl
    have hstill : Still w u := by
      rw [hu]
      exact hset _
    have hsound : Sound u := by
      have heff : Effect env (fun _ => True) w _ := .rx w { w.rx.internal with
        header := h, headerFinished := true, decoder := rxBufferDecoders h.type } ⟨rfl, .inl hv, rfl⟩
      rw [hu]
      exact sound_effect heff hw
    have huv : u.rx.internal.value = {} := by rw [hur]; exact hv
    have huc : u.rx.internal.calls = 0 := by rw [hur]; exact hcalls
    have hucs : u.rx.store = .main → u.ops.publish = true := by
      rw [hu]
      exact hc
    have hfail : ∀ e, Still w (u.failRx e 0) := fun e => hstill.trans (.setRx u _)
    rw [hwu]
    cases hd : rxBufferDecoders h.type with
    | none => exact .quiet env hno hnc (hfail _)
    | some d =>
      dsimp only
      refine wp_if (fun _ => .quiet env hno hnc (hfail _)) fun hlong => ?_
      have hud : u.rx.internal.decoder = some d := by rw [hur]; exact hd
      obtain ⟨hconn, -⟩ := rxBufferDecoders_connack _ _ hd
      rcases rxBufferDecoders_withoutId _ _ hd with ⟨hpop, hrem, hkind⟩ | ⟨hpop, -⟩
      · rw [hpop]
        simp only [popPacket]
        refine (wp_bind ..).mpr ((rxBufferPopPacket_spec env (fun _ => True) u d 0 hud huv ?_ hucs).mono
          (fun ok t ht => ?_) fun _ _ h => h.elim)
        · intro k hk hf
          rcases hkind with h | h <;> rw [h] at hk <;> cases hk <;> contradiction
        obtain ⟨hte, htok, htno⟩ := ht
        refine wp_if (fun hok => ?_) fun hok => ?_
        · obtain ⟨k, e, s, hk, hs', ht⟩ := htok hok
          have htc : t.rx.internal.calls = 0 := by rw [ht]; exact huc
          by_cases hkc : k = .connect
          · -- the CONNECT is taken; a CONNACK has more bytes
            have hdc := hconn.mp (.inl (hk.trans (congrArg some hkc)))
            have hlen : ¬ rxBufferIsPacketFinished t.rx.internal = true := by
              have hpos : t.rx.internal.remainBufPos = 0 := by rw [ht]; change u.rx.internal.remainBufPos = 0; rw [hur, hi]
              have hhead : t.rx.internal.header = h := by rw [ht]; change u.rx.internal.header = h; rw [hur]
              have hmin : d.minLength = 2 := by rw [hdc]; rfl
              simp only [rxBufferIsPacketFinished, hpos, hhead, Bool.and_eq_true, decide_eq_true_eq]
              omega
            have htd : t.rx.internal.decoder = some d := by rw [ht]; exact hud
            simp only [rxBufferEndTurn, wp_bind, wp_get, htd]
            refine wp_if (fun hfin => absurd hfin hlen) fun _ => ?_
            rw [hkc] at hs'
            exact .connack u e s hn hstill hsound hs' ht
          · have htyped := hsound.popped hs'
            refine (rxBufferEndTurn_still env t 1 (hte.sound hsound) htc fun _ => ?_).mono
              (fun _ w' h' => .quiet env hno hnc (hstill.trans (Still.trans ?_ h'))) fun _ _ h => h
            · rw [ht]
              change e.value.callback ≠ _
              intro hcb
              exact hkc (htyped.1 ▸ Kind.eq_connect (htyped.2.1.callback ▸ hcb))
            · rw [ht]
              exact (Still.pop hkc hs').trans ((Still.setRx _ _).trans (.emit _ _ rfl))
        · rw [htno (by simpa using hok)]
          simp only [wp_bind, wp_get]
          refine (wp_assert ..).mpr ?_
          split
          · exact .quiet env hno hnc (hfail _)
          · trivial
      · rw [hpop]
        simp only [popPacket, wp_bind, wp_pure, if_true]
        refine (rxBufferEndTurn_still env u 1 hsound huc fun _ => ?_).mono (fun _ w' h' => .quiet env hno hnc (hstill.trans h'))
          fun _ _ h => h
        rw [huv]
        simp

/-- Every turn of the decoder is one of the deeds. -/
theorem rxBufferDecodeTurn_frame (w : World σ) (bs : List Byte) (hw : Sound w) (hs : RxShape w.rx.internal)
    (he : w.rx.internal.error = none) (hwe : w.error = none) (hc : w.rx.store = .main → w.ops.publish = true) :
    Wp (rxBufferDecodeTurn env bs) w (fun _ w' => Deed env bs w w') fun _ _ => True := by
  simp only [rxBufferDecodeTurn, wp_bind, wp_get]
  split
  · rename_i hf hd
    exact rxBufferDecodeBodyTurn_frame env w _ bs hw hs hf hd he hwe hc
  · rename_i hn
    refine rxBufferDecodeHeaderTurn_frame env w bs hw hs ?_ he hc
    by_contra hf
    have hf : w.rx.internal.headerFinished = true := by simpa using hf
    obtain ⟨d, hd, -⟩ := hs.long hf he
    exact hn d hf hd

end LightMqtt
