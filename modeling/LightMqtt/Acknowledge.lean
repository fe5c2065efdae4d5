import LightMqtt.Delivery

/-!
# Acknowledgements of the receiver

When the last byte of a PUBLISH is taken, its PUBACK or PUBREC is appended to
the store before anything else is done with the message.
-/

namespace LightMqtt

open Exec

variable {σ : Type} {env : Env σ}

/-! ### What happens to the store -/

/-- The store of the decoder grows at its end, if it has room, and the packet is
the same. -/
structure Grown (w w' : World σ) : Prop where
  store : w'.rx.store = w.rx.store
  entries : ∃ new, w'.rxStore.entries = w.rxStore.entries ++ new
  capacity : w'.rxStore.capacity = w.rxStore.capacity
  packetId : w'.rx.internal.packetId = w.rx.internal.packetId

theorem Grown.refl (w : World σ) : Grown w w := ⟨rfl, ⟨[], by simp⟩, rfl, rfl⟩

theorem Grown.trans {w w' w'' : World σ} (h : Grown w w') (h' : Grown w' w'') : Grown w w'' := by
  obtain ⟨new, hn⟩ := h.entries
  obtain ⟨new', hn'⟩ := h'.entries
  exact ⟨h'.store.trans h.store, ⟨new ++ new', by rw [hn', hn, List.append_assoc]⟩,
    h'.capacity.trans h.capacity, h'.packetId.trans h.packetId⟩

/- A full store cannot grow. -/
theorem Grown.full {w w' : World σ} (h : Grown w w') (hf : w.rxStore.capacity ≤ w.rxStore.count) :
    w'.rxStore.entries = w.rxStore.entries := by
  obtain ⟨new, hn⟩ := h.entries
  have hc := w'.rxStore.count_le
  rw [hn, h.capacity, List.length_append] at hc
  simp only [Store.count] at hf
  have hnil : new = [] := List.eq_nil_of_length_eq_zero (by omega)
  rw [hn, hnil, List.append_nil]

theorem Grown.of_same {w w' : World σ} (hs : w'.mainStore = w.mainStore) (hc : w'.connectStore = w.connectStore)
    (hr : w'.rx.store = w.rx.store) (hi : w'.rx.internal.packetId = w.rx.internal.packetId) : Grown w w' := by
  have h : w'.rxStore = w.rxStore := by
    unfold World.rxStore
    rw [hr]
    cases w.rx.store
    · exact hs
    · exact hc
  exact ⟨hr, ⟨[], by rw [h, List.append_nil]⟩, by rw [h], hi⟩

theorem Called.grown {w w' : World σ} (h : Called w w') : Grown w w' := by
  have hs := h.same
  have hrx : w'.rx = w.rx := by rw [hs]
  refine ⟨by rw [hrx], ?_, ?_, by rw [hrx]⟩
  · unfold World.rxStore
    rw [hrx]
    cases w.rx.store with
    | main => exact h.entries
    | connect => exact ⟨[], by rw [hs]; simp [World.store]⟩
  · unfold World.rxStore
    rw [hrx]
    cases w.rx.store with
    | main => exact h.capacity
    | connect => rw [hs]; rfl

/-- The acknowledgement is appended if there is room; more may follow it. -/
structure Acked (s : Store) (ack : Entry) (s' : Store) : Prop where
  room : s.count < s.capacity → ∃ new, s'.entries = s.entries ++ ack :: new
  full : s.capacity ≤ s.count → s'.entries = s.entries

theorem acknowledge_rx (w : World σ) : w.acknowledge.rx = w.rx := by
  unfold World.acknowledge
  dsimp only
  split <;> simp

theorem acknowledge_rxStore (w : World σ) (hq : w.rx.internal.header.qos ≠ 0) : w.acknowledge.rxStore =
    (w.rxStore.append (publishAck w.rx.internal.header.qos w.rx.internal.packetId)).getD w.rxStore := by
  unfold World.rxStore
  rw [acknowledge_rx, World.acknowledge, if_neg hq, World.store_setStore_self]
  rfl

/- What comes after the acknowledgement. -/
theorem acknowledge_grown (w t : World σ) (hq : w.rx.internal.header.qos ≠ 0) (hg : Grown w.acknowledge t) :
    Acked w.rxStore (publishAck w.rx.internal.header.qos w.rx.internal.packetId) t.rxStore := by
  have hst := acknowledge_rxStore w hq
  constructor
  · intro hroom
    obtain ⟨s, hs⟩ := Store.append_isSome w.rxStore
      (publishAck w.rx.internal.header.qos w.rx.internal.packetId) hroom
    obtain ⟨new, hn⟩ := hg.entries
    rw [hst, hs, Option.getD_some, (Store.append_spec _ _ _ hs).entries, List.append_assoc] at hn
    exact ⟨new, hn⟩
  · intro hfull
    rw [(Store.append_eq_none _ _).mpr hfull, Option.getD_none] at hst
    rw [hg.full (by rw [hst]; exact hfull), hst]

theorem rxBufferDeallocatePublish_grown (w : World σ) :
    Wp (rxBufferDeallocatePublish env) w (fun _ t => Grown w t) fun _ _ => False :=
  (rxBufferDeallocatePublish_scratch env w).mono (fun _ t ht => .of_same (by rw [ht.1.same]) (by rw [ht.1.same])
    (by rw [ht.2]) (by rw [ht.2])) fun _ _ h => h

theorem rxBufferCallMessage_grown (w : World σ) :
    Wp (rxBufferCallMessage env) w (fun _ t => Grown w t) fun _ _ => False := by
  simp only [rxBufferCallMessage, callbackCalls_requests, wp_bind, wp_get]
  split
  · refine wp_if (fun _ => .refl w) fun _ => ?_
    simp only [wp_bind, wp_set, wp_pure]
    refine (doRequests_called env (fun _ => True) _ _).mono (fun _ t ht => Grown.trans ?_ ht.1.grown)
      fun _ _ h => h
    exact .of_same rfl rfl rfl rfl
  · exact .refl w

/- Behind the acknowledgement the store only grows, whether the message is taken
   or not. -/
theorem rxBufferFinishPublish_grown (env : Env σ) (w : World σ) :
    Wp (rxBufferFinishPublish env) w
      (fun res t => Grown w.acknowledge t ∧ (res = .finished ∨ res = .error)) fun _ _ => False := by
  simp only [rxBufferFinishPublish, wp_bind, wp_modify, wp_get]
  generalize w.acknowledge = u
  refine wp_if (fun _ => ?_) fun _ => ?_
  · exact (wp_bind ..).mpr ((rxBufferDeallocatePublish_grown u).mono (fun _ _ h => ⟨h, .inl rfl⟩) fun _ _ h => h)
  have htake : ∀ v, Grown u v → Wp (rxBufferTakeMessage env) v
      (fun res t => Grown u t ∧ (res = .finished ∨ res = .error)) fun _ _ => False := by
    intro v hv
    simp only [rxBufferTakeMessage, wp_bind, wp_modify]
    refine (rxBufferCallMessage_grown _).mono (fun ok t ht => ?_) fun _ _ h => h
    refine (rxBufferDeallocatePublish_grown t).mono (fun _ t' ht' => ?_) fun _ _ h => h
    have h : Grown v t' := by
      refine Grown.trans ?_ (ht.trans ht')
      exact .of_same rfl rfl rfl rfl
    have h := hv.trans h
    exact wp_if (fun _ => ⟨h, .inl rfl⟩) fun _ => ⟨h.trans (.of_same rfl rfl rfl rfl), .inr rfl⟩
  simp only [rxBufferRemember, wp_bind, wp_get]
  refine wp_if (fun _ => wp_if (fun _ => htake u (.refl u)) (by simp)) fun _ => ?_
  split
  · refine wp_if (by simp) fun _ => ?_
    refine (wp_bind ..).mpr ((rxBufferDeallocatePublish_grown u).mono (fun _ t ht => ?_) fun _ _ h => h)
    exact ⟨ht.trans (.of_same rfl rfl rfl rfl), .inr rfl⟩
  · simp only [wp_bind, wp_set, wp_pure]
    exact wp_if (fun _ => htake _ (.of_same rfl rfl rfl rfl)) (by simp)

/-! ### The turns of a PUBLISH -/

/- The decoder is behind the fixed header of a PUBLISH. -/
structure AtPublish (w : World σ) : Prop where
  headerFinished : w.rx.internal.headerFinished = true
  decoder : w.rx.internal.decoder = some rxBufferDecoderPublish
  type : w.rx.internal.header.type = typePublish
  value : w.rx.internal.value = {}
  alive : w.error = none

/- In a reached state the decoder is at a PUBLISH if it has chosen its decoder. -/
theorem Live.atPublish {w : World σ} (h : Live w) (he : w.error = none)
    (hf : w.rx.internal.headerFinished = true) (hd : w.rx.internal.decoder = some rxBufferDecoderPublish) :
    AtPublish w := by
  have hs := h.shape (by rw [he]; simp)
  refine ⟨hf, hd, ?_, hs.idle (by rw [RxInternal.kind, hd]; rfl), he⟩
  have ht := (hs.table hf).symm.trans hd
  unfold rxBufferDecoders at ht
  split at ht <;> first | assumption | (simp only [Option.some.injEq] at ht; exact absurd ht (by decide)) | contradiction

/- A turn takes the last byte of a PUBLISH: its part of the packet is stored
   without an error, without blocking, and nothing of the packet is left. -/
def Completes (env : Env σ) (w : World σ) (bs : List Byte) : Prop :=
  1 ≤ bs.length ∧ ∃ count t, rxBufferDecodePublishPart env bs w = .ok (some count) t ∧
    t.rx.internal.blockingStr = none ∧
    w.rx.internal.header.remainingLength < w.rx.internal.remainBufPos + 1 + count

/- What `rx_buffer_decode_publish` does to the store of the decoder. -/
structure PublishStep (env : Env σ) (w : World σ) (bs : List Byte) (res : DecodeResult) (count : ℕ)
    (t : World σ) : Prop where
  store : t.rx.store = w.rx.store
  rest : res = .continue → w.rx.internal.remainBufPos + count < w.rx.internal.header.remainingLength
  taken : res = .finished → w.rx.internal.header.remainingLength ≤ w.rx.internal.remainBufPos + count
  last : Completes env w bs → (res = .finished ∨ res = .error) ∧
    Acked w.rxStore (publishAck w.rx.internal.header.qos t.rx.internal.packetId) t.rxStore
  early : ¬ Completes env w bs → res ≠ .finished ∧ t.rxStore.entries = w.rxStore.entries

theorem rxBufferDecodePublish_step (w : World σ) (bs : List Byte) (hb : 1 ≤ bs.length)
    (hq : w.rx.internal.header.qos ≠ 0) :
    Wp (rxBufferDecodePublish env bs) w (fun r t => PublishStep env w bs r.1 r.2 t) fun _ _ => True := by
  simp only [rxBufferDecodePublish]
  refine wp_assert_bind (fun _ => ?_) fun _ => trivial
  simp only [wp_bind, wp_get]
  have hpart := rxBufferDecodePublishPart_scratch env w bs
  unfold Wp at hpart ⊢
  cases hrun : rxBufferDecodePublishPart env bs w with
  | error e t => trivial
  | ok r t =>
    simp only [hrun] at hpart ⊢
    have hst : t.rx.store = w.rx.store := by rw [hpart.same]
    have hsame : t.rxStore = w.rxStore := by
      unfold World.rxStore
      rw [hst, hpart.same]
      cases w.rx.store <;> rfl
    have hearly : ¬ Completes env w bs → ∀ (res : DecodeResult) (count : ℕ), res ≠ .finished →
        (res = .continue → w.rx.internal.remainBufPos + count < w.rx.internal.header.remainingLength) →
        PublishStep env w bs res count t :=
      fun hn res count hr hl => ⟨hst, hl, fun h => absurd h hr, fun h => absurd h hn, fun _ => ⟨hr, by rw [hsame]⟩⟩
    have hcompletes : Completes env w bs ↔ ∃ count, r = some count ∧ t.rx.internal.blockingStr = none ∧
        w.rx.internal.header.remainingLength < w.rx.internal.remainBufPos + 1 + count := by
      constructor
      · rintro ⟨-, count, t', heq, hblk, hlen⟩
        rw [hrun] at heq
        cases heq
        exact ⟨count, rfl, hblk, hlen⟩
      · rintro ⟨count, rfl, hblk, hlen⟩
        exact ⟨hb, count, t, hrun, hblk, hlen⟩
    cases r with
    | none => exact hearly (by rw [hcompletes]; simp) _ _ (by simp) (by simp)
    | some count =>
      change Wp (do
          if (← get).rx.internal.blockingStr.isSome then pure (.wouldBlock, count)
          else if w.rx.internal.remainBufPos + 1 + count ≤ w.rx.internal.header.remainingLength then
            pure (.continue, count)
          else
            let res ← rxBufferFinishPublish env
            pure (res, count) : Prog σ (DecodeResult × ℕ)) t
        (fun r t' => PublishStep env w bs r.1 r.2 t') fun _ _ => True
      simp only [wp_bind, wp_get]
      refine wp_if (fun hblk => hearly ?_ _ _ (by simp) (by simp)) fun hblk =>
        wp_if (fun hlen => hearly ?_ _ _ (by simp) fun _ => by omega) fun hlen => ?_
      · rw [hcompletes]
        rintro ⟨-, -, hb, -⟩
        rw [hb] at hblk
        contradiction
      · rw [hcompletes]
        rintro ⟨count', heq, -, hl⟩
        cases heq
        omega
      · have hc : Completes env w bs := by
          rw [hcompletes]
          exact ⟨count, rfl, by simpa using hblk, by omega⟩
        refine (wp_bind ..).mpr ((rxBufferFinishPublish_grown env t).mono (fun res u hu => ?_)
          fun _ _ h => h.elim)
        obtain ⟨hg, hres⟩ := hu
        have hack := acknowledge_grown t u (by rw [hpart.header]; exact hq) hg
        have hid : u.rx.internal.packetId = t.rx.internal.packetId := by
          rw [hg.packetId, acknowledge_rx]
        rw [hsame, hpart.header, ← hid] at hack
        refine ⟨hg.store.trans ((congrArg RxBuffer.store (acknowledge_rx t)).trans hst), fun h => ?_,
          fun _ => by omega, fun _ => ⟨hres, hack⟩, fun hn => absurd hc hn⟩
        rcases hres with hres | hres <;> rw [hres] at h <;> contradiction

/-- A turn of the decoder loop at a PUBLISH with QoS 1 or 2. -/
structure PublishTurn (env : Env σ) (w : World σ) (bs : List Byte) (turn : Turn) (t : World σ) : Prop where
  last : Completes env w bs → turn ≠ .blocked ∧ ∃ id,
    Acked w.rxStore (publishAck w.rx.internal.header.qos id) t.rxStore ∧
    (∀ n, turn = .read n → t.rx.internal.headerFinished = false ∧
      ∃ l, t.log = .finished typePublish id :: l)
  early : ¬ Completes env w bs → t.rxStore.entries = w.rxStore.entries ∧
    (∀ n, turn = .read n → t.rx.internal.headerFinished = true)

/- The end of a packet that has no request. -/
theorem rxBufferFinishPacket_idle (env : Env σ) (w : World σ) (d : Decoder) (hd : d.kind = none)
    (hv : w.rx.internal.value = {}) :
    rxBufferFinishPacket env d w = .ok true
      ((w.decoded.emit (.finished w.rx.internal.header.type w.rx.internal.packetId)).setRx {}) := by
  have hcall : callValue env w.rx.internal.value w.decoded = .ok true w.decoded := by
    rw [hv]
    exact callValue_idle env w.decoded {} (.inl rfl)
  rw [rxBufferFinishPacket, run_get_bind, if_neg (by rw [hd]; simp), run_modify_bind, run_bind_ok hcall]
  rfl

theorem rxBufferDecodeTurn_publish (env : Env σ) (w : World σ) (bs : List Byte) (hw : AtPublish w) (hb : 1 ≤ bs.length)
    (hq : w.rx.internal.header.qos ≠ 0) :
    Wp (rxBufferDecodeTurn env bs) w (fun turn t => PublishTurn env w bs turn t) fun _ _ => True := by
  have hbody : rxBufferDecodeTurn env bs w = rxBufferDecodeBodyTurn env rxBufferDecoderPublish bs w := by
    rw [rxBufferDecodeTurn, run_get_bind, hw.headerFinished, hw.decoder]
  unfold Wp
  rw [hbody]
  change Wp (rxBufferDecodeBodyTurn env rxBufferDecoderPublish bs) w _ _
  simp only [rxBufferDecodeBodyTurn, decodeRemaining, rxBufferDecoderPublish,
    rxBufferDecodeRemainingWithoutId, rxBufferDecodeType, wp_bind]
  refine ((rxBufferDecodePublish_step w bs hb hq).and
    (rxBufferDecodePublish_spec env (fun _ => True) w bs hw.alive)).mono (fun r t ht => ?_) fun _ _ _ => trivial
  obtain ⟨hstep, hdec⟩ := ht
  obtain ⟨res, count⟩ := r
  have hfailed : res = .error → ∀ n, PublishTurn env w bs (.failed n) t := fun hr n =>
    ⟨fun hc => ⟨by simp, t.rx.internal.packetId, (hstep.last hc).2, by simp⟩,
      fun hc => ⟨(hstep.early hc).2, by simp⟩⟩
  simp only [wp_get]
  refine wp_if (fun hr => ?_) fun hr => wp_assert_bind (fun _ => ?_) fun _ => trivial
  · exact wp_assert_bind (fun _ => hfailed hr 0) fun _ => trivial
  change Wp (rxBufferDecodedBytes env res count) t _ _
  have hpos : (t.advance count).rx.internal.remainBufPos = w.rx.internal.remainBufPos + count := by
    rw [← hdec.kept.pos]
    rfl
  have hlen : (t.advance count).rx.internal.header = w.rx.internal.header := hdec.kept.header
  have hfin : (t.advance count).rx.internal.headerFinished = true :=
    hdec.kept.headerFinished.trans hw.headerFinished
  have htd : (t.advance count).rx.internal.decoder = some rxBufferDecoderPublish :=
    hdec.kept.decoder.trans hw.decoder
  have hst : (t.advance count).rxStore = t.rxStore := World.store_setRx t t.rx.store _
  cases res with
  | error => exact absurd rfl hr
  | wouldBlock =>
    have hc : ¬ Completes env w bs := fun hc => by simpa using (hstep.last hc).1
    exact wp_assert_bind (fun _ => ⟨fun h => absurd h hc, fun _ => ⟨(hstep.early hc).2, by simp⟩⟩)
      fun _ => trivial
  | «continue» =>
    have hc : ¬ Completes env w bs := fun hc => by simpa using (hstep.last hc).1
    have hrest := hstep.rest rfl
    simp only [rxBufferDecodedBytes, rxBufferEndTurn, wp_bind, wp_modify, wp_get]
    rw [htd]
    refine wp_if (fun h => ?_) fun _ => ?_
    · simp only [rxBufferIsPacketFinished, hfin, Bool.true_and, decide_eq_true_eq, hlen, hpos] at h
      omega
    · exact ⟨fun h => absurd h hc, fun _ => ⟨by rw [hst]; exact (hstep.early hc).2, fun _ _ => hfin⟩⟩
  | finished =>
    have hc : Completes env w bs := by
      by_contra hn
      exact (hstep.early hn).1 rfl
    have htaken := hstep.taken rfl
    simp only [rxBufferDecodedBytes, rxBufferEndTurn, wp_bind, wp_modify, wp_get]
    rw [htd]
    refine wp_if (fun _ => ?_) fun h => ?_
    · have hidle := rxBufferFinishPacket_idle env (t.advance count) rxBufferDecoderPublish rfl
        (hdec.kept.value.trans hw.value)
      unfold Wp
      rw [run_bind_ok hidle]
      refine ⟨fun _ => ⟨by simp, t.rx.internal.packetId, ?_, fun _ _ => ⟨rfl, t.decoded.log, ?_⟩⟩, fun h => absurd hc h⟩
      · exact (congrArg (Acked _ _) hst).mpr (hstep.last hc).2
      · rw [← hw.type, ← hlen]
        rfl
    · simp only [rxBufferIsPacketFinished, hfin, Bool.true_and, decide_eq_true_eq, hlen, hpos] at h
      omega

/-! ### Every accepted PUBLISH is acknowledged, if there is room -/

/- From `w` to `t` the acknowledgement of the PUBLISH that is read in `w` was
   appended. -/
def World.Acknowledged (w t : World σ) (id : PacketId) : Prop :=
  ∃ new, t.rxStore.entries = w.rxStore.entries ++ publishAck w.rx.internal.header.qos id :: new

theorem Acked.acknowledged_iff {w t : World σ} {id : PacketId}
    (h : Acked w.rxStore (publishAck w.rx.internal.header.qos id) t.rxStore) :
    w.Acknowledged t id ↔ w.rxStore.count < w.rxStore.capacity := by
  refine ⟨fun ⟨new, hn⟩ => ?_, h.room⟩
  by_contra hfull
  rw [h.full (by omega)] at hn
  simpa using congrArg List.length hn

/- A client with a store of `size` entries that did `more` behind its CONNACK,
   at the payload of a PUBLISH with this first byte. -/
def atPayload (size : ℕ) (more : List (Act Unit)) (first : Byte) : Option (World Unit) :=
  runClient memoryEnv anyConnect ⟨size, 64, 64, 1⟩ smallHeap ()
    (connectKept ++ more ++ [.decode [first, 6, 0, 1, 97, 0, 7]])

theorem atPayload_qos1 : (atPayload 4 [] 0x32).isSome = true := by decide +kernel

theorem atPayload_reached {size : ℕ} {more : List (Act Unit)} {first : Byte}
    (h : (atPayload size more first).isSome = true) :
    Reached memoryEnv (fun _ => True) ((atPayload size more first).get h) :=
  reached_get anyConnect_true _ _ _ _ h

/- One request fills the store; then a PUBLISH comes. -/
def fullStore : Option (World Unit) :=
  runClient memoryEnv anyConnect ⟨1, 64, 64, 1⟩ smallHeap () (connectKept ++ [.request (.subscribe 0)])

theorem fullStore_isSome : fullStore.isSome = true := by decide +kernel

/- The id set has one place; the message with the id 1 has it. -/
def fullIdSet : Option (World Unit) :=
  runClient memoryEnv anyConnect ⟨4, 64, 64, 1⟩ smallHeap () (connectKept ++ [.decode [0x34, 6, 0, 1, 97, 0, 1, 1]])

theorem fullIdSet_isSome : fullIdSet.isSome = true := by decide +kernel

/- A QoS 2 message at its payload, in a client whose id set and store are full. -/
def atPayloadFull : Option (World Unit) :=
  atPayload 2 [.decode [0x34, 6, 0, 1, 97, 0, 1, 1], .request (.subscribe 0)] 0x34

theorem atPayloadFull_isSome : atPayloadFull.isSome = true := by decide +kernel

end LightMqtt
