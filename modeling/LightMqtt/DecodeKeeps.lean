import LightMqtt.Frame

/-!
# What a turn of the decoder keeps

A turn of the decoder is made of a few kinds of changes. A relation that each of
them keeps relates the states before and after the turn.
-/

namespace LightMqtt

open Exec

variable {σ : Type} (env : Env σ)

/-- A relation that the work on a packet keeps: the decoder writes to its own packet
and answers in the objects of the application. -/
structure PacketFrame (R : World σ → World σ → Prop) : Prop where
  packet : ∀ (w : World σ) i s a evs, R w { w with
    rx := { w.rx with internal := i, idSet := s }, app := a, log := evs ++ w.log }
  connack : ∀ (w : World σ) p b, R w { w with
    heap := w.heap.setConnect p { w.heap.connects p with sessionPresent := b } }
  suback : ∀ (w : World σ) p i b, R w { w with
    heap := w.heap.modifySubscription p i fun x => { x with returnCode := b } }

/-- A relation that the decoder keeps: it takes entries out of its store, too, appends
to it, and calls the application. -/
structure DecoderFrame (R : World σ → World σ → Prop) : Prop extends PacketFrame R where
  append : ∀ (w : World σ) e s, w.rxStore.append e = some s → R w (w.setStore w.rx.store s)
  pop : ∀ (w : World σ) k id e s, w.rxStore.popMarkedBy k id = some (e, s) → R w (w.setStore w.rx.store s)
  requests : ∀ w qs, Within R (doRequests qs) w
  call : ∀ w v, Within R (callValue env v) w

section Packet
variable {env} {R : World σ → World σ → Prop} (hR : PacketFrame R) (w : World σ)
include hR

theorem PacketFrame.refl : R w w := hR.packet w w.rx.internal w.rx.idSet w.app []

theorem PacketFrame.setRx (i : RxInternal) : R w (w.setRx i) := hR.packet w i w.rx.idSet w.app []

theorem PacketFrame.emit (ev : Event) : R w (w.emit ev) := hR.packet w w.rx.internal w.rx.idSet w.app [ev]

theorem PacketFrame.app (a : σ) : R w { w with app := a } := hR.packet w w.rx.internal w.rx.idSet a []

theorem PacketFrame.setStr (part : PublishPart) (s : LString) : R w (w.setStr part.str s) := by
  cases part <;> exact hR.setRx w _

theorem PacketFrame.pure {α : Type} (a : α) : Within R (Pure.pure a : Prog σ α) w := within_pure w (hR.refl w) a

theorem PacketFrame.fail (e : Error) (os : ℤ) : Within R (rxBufferFail e os) w := within_modify w _ (hR.setRx w _)

/- An assertion does not change the state. -/
theorem PacketFrame.assert_bind {α : Type} (c : Bool) (p : Unit → Prog σ α) (h : Within R (p ()) w) :
    Within R (assert env c >>= p) w := by
  unfold Within at *
  rw [wp_bind, wp_assert]
  split
  · exact h
  · exact hR.refl w

variable [IsTrans (World σ) R]

/- A part of a program before its result. -/
theorem PacketFrame.before {α β : Type} {q : Prog σ β} (a : α) (hq : Within R q w) :
    Within R (do let _ ← q; Pure.pure a : Prog σ α) w :=
  within_bind w _ _ hq fun _ t _ => hR.pure t a

/-! ### Strings of a message -/

theorem stringWrite_keeps (part : PublishPart) (bs : List Byte) : Within R (stringWrite env part.str bs) w := by
  refine within_get_bind w _ (within_ite w _ _ _ (fun _ => hR.pure w _) fun _ => ?_)
  refine within_ite w _ _ _ (fun _ => hR.pure w _) fun _ => within_ite w _ _ _ (fun _ => ?_) fun _ => ?_
  · refine within_bind w _ _ (within_set w _ (hR.app w _)) fun _ t _ => ?_
    split <;> exact hR.pure t _
  · split
    · exact hR.assert_bind w _ _ (hR.before w _ (within_set w _ (hR.setStr w part _)))
    · exact hR.pure w _

theorem rxBufferAllocate_keeps (part : PublishPart) (f : σ → Publish → ℕ → Allocation σ) (len : ℕ) :
    Within R (rxBufferAllocate part f len) w := by
  refine within_bind w _ _ (within_modify w _ (hR.emit w _)) fun _ t _ => within_get_bind t _ ?_
  refine within_bind t _ _ (within_set t _ (IsTrans.trans _ _ _ (hR.setStr t part _) (hR.app _ _))) fun _ u _ => ?_
  split
  · exact hR.before u _ (within_modify u _ (hR.setRx u _))
  · exact hR.before u _ (within_modify u _ (hR.setRx u _))
  · exact hR.before u _ (hR.fail u _ _)

theorem rxBufferAllocateWrite_keeps (start : ℕ) (part : PublishPart) (len : ℕ) (bs : List Byte) :
    Within R (rxBufferAllocateWrite env start part len bs) w := by
  refine within_get_bind w _ (within_bind w _ _ ?_ fun ok t _ => ?_)
  · refine within_get_bind w _ ?_
    split
    · exact within_ite w _ _ _ (fun _ => rxBufferAllocate_keeps hR w part _ len) fun _ => hR.pure w _
    · exact hR.pure w _
  · refine within_ite t _ _ _ (fun _ => ?_) fun _ => hR.pure t _
    refine within_get_bind t _ (within_ite t _ _ _ (fun _ => hR.pure t _) fun _ => ?_)
    refine within_bind t _ _ (within_modify t _ (hR.setRx t _)) fun _ u _ => ?_
    refine within_bind u _ _ (stringWrite_keeps hR u part _) fun r v _ => ?_
    obtain ⟨res, count, osError⟩ := r
    cases res with
    | success => exact hR.pure v _
    | wouldBlock => exact hR.before v _ (within_modify v _ (hR.setRx v _))
    | osError => exact hR.before v _ (hR.fail v _ _)
    | invalidObject => exact hR.before v _ (hR.fail v _ _)

omit [IsTrans (World σ) R] in
theorem rxBufferDeallocatePublish_keeps : Within R (rxBufferDeallocatePublish env) w := by
  unfold rxBufferDeallocatePublish
  refine within_get_bind w _ ?_
  split
  · refine within_ite w _ _ _ (fun _ => ?_) fun _ => hR.pure w _
    exact within_set w _ (hR.packet w w.rx.internal w.rx.idSet _ [.deallocate])
  · exact hR.pure w _

theorem rxBufferDecodeString_keeps (start : ℕ) (part : PublishPart) (len : ℕ) (bs : List Byte) :
    Within R (rxBufferDecodeString env start part len bs) w := by
  refine within_bind w _ _ (rxBufferAllocateWrite_keeps hR w start part len bs) fun r t _ => ?_
  exact within_ite t _ _ _ (fun _ => hR.before t _ (rxBufferDeallocatePublish_keeps hR t)) fun _ => hR.pure t _

theorem rxBufferDecodePublishPart_keeps (bs : List Byte) : Within R (rxBufferDecodePublishPart env bs) w := by
  refine within_get_bind w _ (within_ite w _ _ _ (fun _ => ?_) fun _ => ?_)
  · refine within_get_bind w _ (within_bind w _ _ (within_set w _ (hR.setRx w _)) fun _ t _ => ?_)
    exact within_ite t _ _ _ (fun _ => hR.before t _ (hR.fail t _ _)) fun _ => hR.pure t _
  · refine within_bind w _ _ (within_modify w _ ?_) fun _ t _ => ?_
    · unfold World.ignoreUnwanted
      split
      · exact hR.setRx w _
      · exact hR.refl w
    refine within_ite t _ _ _ (fun _ => rxBufferDecodeString_keeps hR t ..) fun _ => ?_
    refine within_ite t _ _ _ (fun _ => ?_) fun _ => rxBufferDecodeString_keeps hR t ..
    exact within_get_bind t _ (hR.before t _ (within_modify t _ (hR.setRx t _)))

/-! ### Answers in objects -/

theorem rxBufferDecodeConnack_keeps (bs : List Byte) : Within R (rxBufferDecodeConnack env bs) w := by
  refine hR.assert_bind w _ _ (within_get_bind w _ ?_)
  split
  · refine within_ite w _ _ _ (fun _ => hR.before w _ (hR.fail w _ _)) fun _ => ?_
    exact hR.before w _ (within_set w _ (hR.connack w _ _))
  · refine within_ite w _ _ _ (fun _ => hR.before w _ (hR.fail w _ _)) fun _ => ?_
    exact within_ite w _ _ _ (fun _ => hR.before w _ (hR.fail w _ _)) fun _ => hR.pure w _
  · exact hR.before w _ (hR.fail w _ _)

theorem rxBufferDecodeSuback_keeps (bs : List Byte) : Within R (rxBufferDecodeSuback env bs) w := by
  refine hR.assert_bind w _ _ (within_get_bind w _ ?_)
  refine within_ite w _ _ _ (fun _ => hR.before w _ (hR.fail w _ _)) fun _ => ?_
  refine within_ite w _ _ _ (fun _ => hR.before w _ (hR.fail w _ _)) fun _ => ?_
  exact hR.before w _ (within_set w _ (hR.suback w _ _ _))

end Packet

section Keeps
variable {env} {R : World σ → World σ → Prop} [IsTrans (World σ) R] (hR : DecoderFrame env R) (w : World σ)
include hR

/-! ### The end of a message -/

omit [IsTrans (World σ) R] in
theorem acknowledge_keeps : R w w.acknowledge := by
  unfold World.acknowledge
  dsimp only
  split
  · exact hR.refl w
  · cases hs : w.rxStore.append (publishAck w.rx.internal.header.qos w.rx.internal.packetId) with
    | none =>
      rw [Option.getD_none, World.rxStore, World.setStore_store]
      exact hR.refl w
    | some s => exact hR.append w _ s hs

theorem rxBufferTakeMessage_keeps : Within R (rxBufferTakeMessage env) w := by
  refine within_bind w _ _ (within_modify w _ (hR.setRx w _)) fun _ t _ => ?_
  refine within_bind t _ _ (within_get_bind t _ ?_) fun ok u _ => ?_
  · split
    · refine within_ite t _ _ _ (fun _ => hR.pure t _) fun _ => ?_
      refine within_bind t _ _ (within_set t _ (hR.packet t t.rx.internal t.rx.idSet _ [_])) fun _ v _ => ?_
      refine within_bind v _ _ ?_ fun _ x _ => hR.pure x _
      rw [callbackCalls_requests]
      exact hR.requests v _
    · exact hR.pure t _
  · refine within_bind u _ _ (rxBufferDeallocatePublish_keeps hR.toPacketFrame u) fun _ v _ => ?_
    exact within_ite v _ _ _ (fun _ => hR.pure v _) fun _ => hR.before v _ (hR.fail v _ _)

theorem rxBufferFinishPublish_keeps : Within R (rxBufferFinishPublish env) w := by
  refine within_bind w _ _ (within_modify w _ (acknowledge_keeps hR w)) fun _ t _ => within_get_bind t _ ?_
  refine within_ite t _ _ _ (fun _ => hR.before t _ (rxBufferDeallocatePublish_keeps hR.toPacketFrame t)) fun _ => ?_
  refine within_bind t _ _ (within_get_bind t _ ?_) fun ok u _ => within_ite u _ _ _
    (fun _ => rxBufferTakeMessage_keeps hR u) fun _ => ?_
  · refine within_ite t _ _ _ (fun _ => hR.pure t _) fun _ => ?_
    split
    · exact hR.pure t _
    · exact hR.before t _ (within_set t _ (hR.packet t t.rx.internal _ t.app []))
  · refine within_bind u _ _ (rxBufferDeallocatePublish_keeps hR.toPacketFrame u) fun _ v _ => ?_
    exact hR.before v _ (hR.fail v _ _)

/-! ### Bytes of a packet -/

theorem rxBufferDecodePublish_keeps (bs : List Byte) : Within R (rxBufferDecodePublish env bs) w := by
  refine hR.assert_bind w _ _ (within_get_bind w _ (within_bind w _ _ (rxBufferDecodePublishPart_keeps hR.toPacketFrame w bs)
    fun r t _ => ?_))
  cases r with
  | none => exact hR.pure t _
  | some count =>
    refine within_get_bind t _ (within_ite t _ _ _ (fun _ => hR.pure t _) fun _ => ?_)
    refine within_ite t _ _ _ (fun _ => hR.pure t _) fun _ => ?_
    exact within_bind t _ _ (rxBufferFinishPublish_keeps hR t) fun _ u _ => hR.pure u _

theorem rxBufferDecodeRemainingWithoutId_keeps (d : Decoder) (bs : List Byte) :
    Within R (rxBufferDecodeRemainingWithoutId env d bs) w := by
  refine within_bind w _ _ ?_ fun r t _ => within_get_bind t _ ?_
  · unfold rxBufferDecodeType
    split
    · exact hR.before w _ (hR.fail w _ _)
    · exact rxBufferDecodeConnack_keeps hR.toPacketFrame w bs
    · exact rxBufferDecodePublish_keeps hR w bs
    · exact rxBufferDecodeSuback_keeps hR.toPacketFrame w bs
  · exact within_ite t _ _ _ (fun _ => hR.pure t _) fun _ => hR.assert_bind t _ _ (hR.pure t _)

/-! ### Requests of packets -/

theorem rxBufferPopPacket_keeps (d : Decoder) (id : PacketId) : Within R (rxBufferPopPacket d id) w := by
  refine within_get_bind w _ ?_
  cases hk : d.kind with
  | none => exact within_bind w _ _ (within_set w _ (hR.setRx w _)) fun _ t _ => hR.before t _ (hR.fail t _ _)
  | some k =>
    simp only [Option.bind_some]
    split
    · rename_i e s hs
      refine within_bind w _ _ (within_set w _ ?_) fun _ t _ => hR.before t _ (within_modify t _ (hR.emit t _))
      exact IsTrans.trans _ _ _ (hR.pop w k id e s hs) (hR.setRx _ _)
    · exact within_bind w _ _ (within_set w _ (hR.setRx w _)) fun _ t _ => hR.before t _ (hR.fail t _ _)

theorem popPacket_keeps (d : Decoder) (p : PopPacket) : Within R (popPacket d p) w := by
  cases p with
  | withoutId => exact rxBufferPopPacket_keeps hR w d 0
  | withId => exact within_get_bind w _ (rxBufferPopPacket_keeps hR w d _)
  | ignore => exact hR.pure w _
  | pubrel =>
    refine within_get_bind w _ ?_
    refine within_bind w _ _ (within_set w _ (hR.packet w w.rx.internal _ w.app [])) fun _ t _ => within_get_bind t _ ?_
    split
    · rename_i s hs
      exact hR.before t _ (within_set t _ (hR.append t _ s hs))
    · exact hR.before t _ (hR.fail t _ _)

theorem decodeRemaining_keeps (d : Decoder) (bs : List Byte) : Within R (decodeRemaining env d bs) w := by
  unfold decodeRemaining
  split
  · exact rxBufferDecodeRemainingWithoutId_keeps hR w d bs
  · refine within_get_bind w _ (within_ite w _ _ _ (fun _ => rxBufferDecodeRemainingWithoutId_keeps hR w d bs) fun _ => ?_)
    refine hR.assert_bind w _ _ (within_bind w _ _ (within_modify w _ (hR.setRx w _)) fun _ t _ => ?_)
    refine within_ite t _ _ _ (fun _ => within_get_bind t _ ?_) fun _ => hR.pure t _
    refine within_bind t _ _ (within_modify t _ (hR.emit t _)) fun _ u _ => ?_
    refine within_bind u _ _ (popPacket_keeps hR u d _) fun ok v _ => ?_
    exact within_ite v _ _ _ (fun _ => hR.pure v _) fun _ => hR.pure v _

theorem rxBufferFinishPacket_keeps (d : Decoder) : Within R (rxBufferFinishPacket env d) w := by
  have hend : ∀ v : World σ, Within R (do emitFinished; lmqttRxBufferReset; pure true : Prog σ Bool) v := by
    intro v
    refine within_bind v _ _ (within_modify v _ (hR.emit v _)) fun _ x _ => ?_
    exact hR.before x _ (within_modify x _ (hR.setRx x _))
  refine within_get_bind w _ (within_ite w _ _ _ (fun _ => within_ite w _ _ _ (fun _ => ?_) fun _ => hend w) fun _ => ?_)
  · split
    · rename_i s hs
      exact within_bind w _ _ (within_set w _ (hR.append w _ s hs)) fun _ t _ => hend t
    · exact within_bind w _ _ (within_throw w (hR.refl w) _) fun _ t _ => hend t
  · refine within_bind w _ _ (within_modify w _ (hR.packet w _ w.rx.idSet w.app [_])) fun _ t _ => ?_
    refine within_bind t _ _ (hR.call t _) fun ok u _ => within_ite u _ _ _ (fun _ => hend u) fun _ => ?_
    exact hR.assert_bind u _ _ (hR.before u _ (within_modify u _ (hR.setRx u _)))

theorem rxBufferEndTurn_keeps (count : ℕ) : Within R (rxBufferEndTurn env count) w := by
  refine within_get_bind w _ ?_
  dsimp only
  split
  · refine within_ite w _ _ _ (fun _ => ?_) fun _ => hR.pure w _
    refine within_bind w _ _ (rxBufferFinishPacket_keeps hR w _) fun ok t _ => ?_
    exact within_ite t _ _ _ (fun _ => hR.pure t _) fun _ => hR.pure t _
  · exact hR.pure w _

theorem rxBufferDecodeHeaderTurn_keeps (b : Byte) : Within R (rxBufferDecodeHeaderTurn env b) w := by
  refine within_get_bind w _ (within_bind w _ _ (within_set w _ (hR.setRx w _)) fun _ t _ => ?_)
  split
  · refine within_bind t _ _ (within_modify t _ (hR.setRx t _)) fun _ u _ => ?_
    split
    · exact hR.before u _ (hR.fail u _ _)
    · refine within_ite u _ _ _ (fun _ => hR.before u _ (hR.fail u _ _)) fun _ => ?_
      refine within_bind u _ _ (popPacket_keeps hR u _ _) fun ok v _ => within_ite v _ _ _
        (fun _ => rxBufferEndTurn_keeps hR v 1) fun _ => ?_
      exact within_get_bind v _ (hR.assert_bind v _ _ (hR.pure v _))
  · exact hR.pure t _
  · exact hR.before t _ (within_modify t _ (hR.setRx t _))

/-- A turn of the decoder keeps the relation. -/
theorem rxBufferDecodeTurn_keeps (bs : List Byte) : Within R (rxBufferDecodeTurn env bs) w := by
  refine within_get_bind w _ ?_
  dsimp only
  split
  · refine within_bind w _ _ (decodeRemaining_keeps hR w _ bs) fun r t _ => ?_
    obtain ⟨res, count⟩ := r
    have hread : Within R (do modify fun w => w.advance count; rxBufferEndTurn env count : Prog σ Turn) t :=
      within_bind t _ _ (within_modify t _ (hR.setRx t _)) fun _ u _ => rxBufferEndTurn_keeps hR u count
    cases res with
    | error => exact within_get_bind t _ (hR.assert_bind t _ _ (hR.pure t _))
    | wouldBlock => exact hR.assert_bind t _ _ (hR.pure t _)
    | «continue» => exact hread
    | finished => exact hread
  · exact rxBufferDecodeHeaderTurn_keeps hR w _

end Keeps

end LightMqtt
