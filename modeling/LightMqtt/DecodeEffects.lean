import LightMqtt.SessionEffects

/-!
# The effects of the decoder

Most of what a turn of the decoder loop does is scratch work on the packet that
is being read. It touches requests, acknowledgements and the id set where the
packet id was read and where the packet is complete.
-/

namespace LightMqtt

open Exec

variable {σ : Type} (env : Env σ) (P : World σ → Prop)

/-! ### Scratch work -/

/-- Scratch work on a packet: strings are written, an error may be noted. -/
structure RxScratch (w w' : World σ) : Prop where
  same : w' = { w with
    heap := w'.heap, app := w'.app, log := w'.log, rx := { w.rx with internal := w'.rx.internal } }
  value : w'.rx.internal.value = w.rx.internal.value
  decoder : w'.rx.internal.decoder = w.rx.internal.decoder
  header : w'.rx.internal.header = w.rx.internal.header
  headerFinished : w'.rx.internal.headerFinished = w.rx.internal.headerFinished
  pos : w'.rx.internal.remainBufPos = w.rx.internal.remainBufPos
  calls : w'.rx.internal.calls = w.rx.internal.calls
  counts : ∀ p, (w'.heap.subscribes p).count = (w.heap.subscribes p).count
  publishes : w'.heap.publishes = w.heap.publishes
  log : ∃ evs, w'.log = evs ++ w.log ∧ ∀ ev ∈ evs, ev.isNote = true

theorem RxScratch.refl (w : World σ) : RxScratch w w :=
  ⟨rfl, rfl, rfl, rfl, rfl, rfl, rfl, fun _ => rfl, rfl, [], by simp⟩

theorem RxScratch.trans {w w' w'' : World σ} (h : RxScratch w w') (h' : RxScratch w' w'') :
    RxScratch w w'' := by
  obtain ⟨evs, hl, hn⟩ := h.log
  obtain ⟨evs', hl', hn'⟩ := h'.log
  refine ⟨?_, h'.value.trans h.value, h'.decoder.trans h.decoder, h'.header.trans h.header,
    h'.headerFinished.trans h.headerFinished, h'.pos.trans h.pos, h'.calls.trans h.calls,
    fun p => (h'.counts p).trans (h.counts p), h'.publishes.trans h.publishes, evs' ++ evs,
      by rw [hl', hl, List.append_assoc], ?_⟩
  · rw [h'.same, h.same]
  · intro ev hev
    rcases List.mem_append.mp hev with hev | hev
    · exact hn' ev hev
    · exact hn ev hev

instance : IsTrans (World σ) RxScratch := ⟨fun _ _ _ => RxScratch.trans⟩

theorem RxScratch.rx (w : World σ) (i : RxInternal) (hv : i.value = w.rx.internal.value)
    (hd : i.decoder = w.rx.internal.decoder) (hh : i.header = w.rx.internal.header)
    (hf : i.headerFinished = w.rx.internal.headerFinished)
    (hp : i.remainBufPos = w.rx.internal.remainBufPos) (hc : i.calls = w.rx.internal.calls) :
    RxScratch w (w.setRx i) :=
  ⟨rfl, hv, hd, hh, hf, hp, hc, fun _ => rfl, rfl, [], by simp [World.setRx]⟩

theorem RxScratch.app (w : World σ) (a : σ) : RxScratch w { w with app := a } :=
  ⟨rfl, rfl, rfl, rfl, rfl, rfl, rfl, fun _ => rfl, rfl, [], by simp⟩

theorem RxScratch.note (w : World σ) (e : Event) (he : e.isNote = true) : RxScratch w (w.emit e) :=
  ⟨rfl, rfl, rfl, rfl, rfl, rfl, rfl, fun _ => rfl, rfl, [e], rfl, by simpa using he⟩

theorem notes_effects (w : World σ) (evs : List Event) (h : ∀ ev ∈ evs, ev.isNote = true) :
    Effects env P w { w with log := evs ++ w.log } := by
  induction evs with
  | nil => exact .refl
  | cons ev evs ih =>
    exact (ih fun e he => h e (List.mem_cons_of_mem _ he)).then
      (.note _ ev (h ev (List.mem_cons_self ..)))

theorem RxScratch.effects {w w' : World σ} (h : RxScratch w w') : Effects env P w w' := by
  obtain ⟨evs, hl, hn⟩ := h.log
  have h₁ : Effects env P w { w with heap := w'.heap } := .of (.heap w _ h.counts (fun e _ he => by
    rw [h.publishes]
    exact he) fun p => by rw [h.publishes])
  have h₂ := (h₁.then (.app _ w'.app)).trans (notes_effects env P _ evs hn)
  have h₃ := h₂.then (.rx _ w'.rx.internal ⟨h.value, .inr h.decoder, h.calls⟩)
  rw [h.same, hl]
  exact h₃

theorem RxScratch.steady {w w' : World σ} (h : RxScratch w w') : Steady w w' := by
  obtain ⟨evs, hl, -⟩ := h.log
  refine ⟨?_, ?_, ⟨evs, hl⟩, ?_, .inl ?_⟩ <;> rw [h.same]
  exact id

/-! ### The parts of a PUBLISH, CONNACK and SUBACK -/

/- Scratch work; where it `failed`, it says why. -/
structure Scratched (w : World σ) (failed : Prop) (w' : World σ) : Prop extends RxScratch w w' where
  why : failed → w'.rx.internal.error.isSome = true
  calm : ¬ failed → w'.rx.internal.error = w.rx.internal.error

theorem Scratched.after {w w' w'' : World σ} {failed : Prop} (h : RxScratch w w')
    (he : w'.rx.internal.error = w.rx.internal.error) (h' : Scratched w' failed w'') :
    Scratched w failed w'' := ⟨h.trans h'.toRxScratch, h'.why, fun hn => (h'.calm hn).trans he⟩

theorem Scratched.fine {w w' : World σ} {failed : Prop} (h : RxScratch w w')
    (he : w'.rx.internal.error = w.rx.internal.error) (hn : ¬ failed) :
    Scratched w failed w' := ⟨h, fun hf => absurd hf hn, fun _ => he⟩

theorem Scratched.fail (w : World σ) (e : Error) (os : ℤ) {failed : Prop} (hf : failed) :
    Scratched w failed (w.failRx e os) := ⟨.rx w _ rfl rfl rfl rfl rfl rfl, fun _ => rfl, fun hn => absurd hf hn⟩

@[simp] theorem wp_rxBufferFail (e : Error) (os : ℤ) (w : World σ) (Q : Unit → World σ → Prop)
    (E : Halt → World σ → Prop) : Wp (rxBufferFail e os) w Q E ↔ Q () (w.failRx e os) := Iff.rfl

theorem RxScratch.setStr (w : World σ) (part : PublishPart) (s : LString) :
    RxScratch w (w.setStr part.str s) := by
  cases part <;> exact .rx w _ rfl rfl rfl rfl rfl rfl

theorem setStr_error (w : World σ) (part : PublishPart) (s : LString) :
    (w.setStr part.str s).rx.internal.error = w.rx.internal.error := by
  cases part <;> rfl

theorem stringWrite_scratch (w : World σ) (part : PublishPart) (bs : List Byte) :
    Wp (stringWrite env part.str bs) w
      (fun _ w' => RxScratch w w' ∧ w'.rx.internal.error = w.rx.internal.error)
      fun _ w' => RxScratch w w' := by
  simp only [stringWrite, wp_bind, wp_get]
  refine wp_if (fun _ => ⟨.refl w, rfl⟩) fun _ => wp_if (fun _ => ⟨.refl w, rfl⟩) fun _ =>
    wp_if (fun _ => ?_) fun _ => ?_
  · simp only [wp_bind, wp_set]
    split <;> exact ⟨.app w _, rfl⟩
  · split
    · exact wp_assert_bind (fun _ => ⟨.setStr w part _, setStr_error w part _⟩) fun _ => .refl w
    · exact ⟨.refl w, rfl⟩

theorem rxBufferAllocate_scratch (w : World σ) (part : PublishPart)
    (f : σ → Publish → ℕ → Allocation σ) (len : ℕ) :
    Wp (rxBufferAllocate part f len) w (fun ok w' => Scratched w (ok = false) w')
      fun _ w' => RxScratch w w' := by
  simp only [rxBufferAllocate, wp_bind, wp_emit, wp_get, wp_set]
  have h := (RxScratch.note w (.allocate part len) rfl).trans ((RxScratch.setStr _ part
    (f w.app w.rx.internal.publish len).str).trans (.app _ (f w.app w.rx.internal.publish len).app))
  have he := setStr_error (w.emit (.allocate part len)) part (f w.app w.rx.internal.publish len).str
  split
  · exact .fine (h.trans (.rx _ _ rfl rfl rfl rfl rfl rfl)) he (by simp)
  · exact .fine (h.trans (.rx _ _ rfl rfl rfl rfl rfl rfl)) he (by simp)
  · exact .after h he (.fail _ _ _ rfl)

theorem rxBufferAllocateFirst_scratch (w : World σ) (start : ℕ) (part : PublishPart) (len : ℕ) :
    Wp (rxBufferAllocateFirst env start part len) w (fun ok w' => Scratched w (ok = false) w')
      fun _ w' => RxScratch w w' := by
  simp only [rxBufferAllocateFirst, wp_bind, wp_get]
  split
  · exact wp_if (fun _ => rxBufferAllocate_scratch w part _ len) fun _ => .fine (.refl w) rfl (by simp)
  · exact .fine (.refl w) rfl (by simp)

theorem rxBufferWritePart_scratch (w : World σ) (part : PublishPart) (bs : List Byte) :
    Wp (rxBufferWritePart env part bs) w (fun r w' => Scratched w (r = none) w')
      fun _ w' => RxScratch w w' := by
  simp only [rxBufferWritePart, wp_bind, wp_get]
  refine wp_if (fun _ => .fine (.refl w) rfl (by simp)) fun _ => ?_
  simp only [wp_bind, wp_modify]
  have hu := RxScratch.rx w { w.rx.internal with blockingStr := none } rfl rfl rfl rfl rfl rfl
  refine (stringWrite_scratch env _ part _).mono (fun r v hv => ?_) fun _ v hv => hu.trans hv
  have hwv := hu.trans hv.1
  obtain ⟨res, count, osError⟩ := r
  cases res with
  | success => exact .fine hwv hv.2 (by simp)
  | wouldBlock => exact .fine (hwv.trans (.rx v _ rfl rfl rfl rfl rfl rfl)) hv.2 (by simp)
  | osError | invalidObject => exact .after hwv hv.2 (.fail v _ _ rfl)

theorem rxBufferAllocateWrite_scratch (w : World σ) (start : ℕ) (part : PublishPart) (len : ℕ)
    (bs : List Byte) :
    Wp (rxBufferAllocateWrite env start part len bs) w (fun r w' => Scratched w (r = none) w')
      fun _ w' => RxScratch w w' := by
  simp only [rxBufferAllocateWrite, wp_bind, wp_get]
  refine (rxBufferAllocateFirst_scratch env w start part len).mono (fun ok t ht => ?_) fun _ _ h => h
  refine wp_if (fun hok => ?_) fun hok =>
    ⟨ht.toRxScratch, fun _ => ht.why (by simpa using hok), fun hn => absurd rfl hn⟩
  exact (rxBufferWritePart_scratch env t part _).mono
    (fun _ _ h => .after ht.toRxScratch (ht.calm (by simp [hok])) h) fun _ _ h => ht.toRxScratch.trans h

theorem rxBufferDeallocatePublish_scratch (w : World σ) :
    Wp (rxBufferDeallocatePublish env) w (fun _ w' => RxScratch w w' ∧ w'.rx = w.rx)
      fun _ _ => False := by
  simp only [rxBufferDeallocatePublish, wp_bind, wp_get]
  split
  · refine wp_if (fun _ => ?_) fun _ => ⟨.refl w, rfl⟩
    exact ⟨(RxScratch.note w .deallocate rfl).trans (.app _ _), rfl⟩
  · exact ⟨.refl w, rfl⟩

theorem rxBufferDecodeConnack_scratch (w : World σ) (bs : List Byte) :
    Wp (rxBufferDecodeConnack env bs) w (fun r w' => Scratched w (r.1 = .error) w')
      fun _ w' => RxScratch w w' := by
  simp only [rxBufferDecodeConnack]
  refine wp_assert_bind (fun _ => ?_) fun _ => .refl w
  simp only [wp_bind, wp_get]
  split
  · refine wp_if (fun _ => .fail w _ _ rfl) fun _ => .fine ?_ rfl (by simp)
    exact ⟨rfl, rfl, rfl, rfl, rfl, rfl, rfl, fun _ => rfl, rfl, [], by simp⟩
  · refine wp_if (fun _ => .fail w _ _ rfl) fun _ => wp_if (fun _ => .fail w _ _ rfl) fun _ => ?_
    exact .fine (.refl w) rfl (by simp)
  · exact .fail w _ _ rfl

theorem rxBufferDecodeSuback_scratch (w : World σ) (bs : List Byte) :
    Wp (rxBufferDecodeSuback env bs) w (fun r w' => Scratched w (r.1 = .error) w')
      fun _ w' => RxScratch w w' := by
  simp only [rxBufferDecodeSuback]
  refine wp_assert_bind (fun _ => ?_) fun _ => .refl w
  simp only [wp_bind, wp_get]
  refine wp_if (fun _ => .fail w _ _ rfl) fun _ => wp_if (fun _ => .fail w _ _ rfl) fun _ => ?_
  simp only [wp_bind, wp_set, wp_pure]
  refine .fine ⟨rfl, rfl, rfl, rfl, rfl, rfl, rfl, fun p => ?_, rfl, [], by simp⟩ rfl (by split <;> simp)
  simp only [Heap.modifySubscription, Heap.setSubscribe, Function.update_apply]
  split <;> simp_all

theorem rxBufferDecodeTopicLen_scratch (w : World σ) (b : Byte) :
    Wp (rxBufferDecodeTopicLen b) w (fun r w' => Scratched w (r = none) w')
      fun _ w' => RxScratch w w' := by
  simp only [rxBufferDecodeTopicLen, wp_bind, wp_get, wp_set]
  have h := RxScratch.rx w { w.rx.internal with
    topicLen := w.rx.internal.topicLen ||| b.toNat <<< ((2 - (w.rx.internal.remainBufPos + 1)) * 8) }
    rfl rfl rfl rfl rfl rfl
  exact wp_if (fun _ => .after h rfl (.fail _ _ _ rfl)) fun _ => .fine h rfl (by simp)

theorem rxBufferDecodeString_scratch (w : World σ) (start : ℕ) (part : PublishPart) (len : ℕ)
    (bs : List Byte) :
    Wp (rxBufferDecodeString env start part len bs) w (fun r w' => Scratched w (r = none) w')
      fun _ w' => RxScratch w w' := by
  simp only [rxBufferDecodeString, wp_bind]
  refine (rxBufferAllocateWrite_scratch env w start part len bs).mono (fun r t ht => ?_) fun _ _ h => h
  refine wp_if (fun _ => ?_) fun _ => ht
  refine (wp_bind ..).mpr ((rxBufferDeallocatePublish_scratch env t).mono (fun _ u hu => ?_) fun _ _ h => h.elim)
  exact ⟨ht.toRxScratch.trans hu.1, fun hr => by rw [hu.2]; exact ht.why hr,
    fun hr => by rw [hu.2]; exact ht.calm hr⟩

theorem ignoreUnwanted_scratch (w : World σ) : RxScratch w (w.ignoreUnwanted env) ∧
    (w.ignoreUnwanted env).rx.internal.error = w.rx.internal.error := by
  unfold World.ignoreUnwanted
  split
  · exact ⟨.rx w _ rfl rfl rfl rfl rfl rfl, rfl⟩
  · exact ⟨.refl w, rfl⟩

theorem rxBufferDecodePublishPart_scratch (w : World σ) (bs : List Byte) :
    Wp (rxBufferDecodePublishPart env bs) w (fun r w' => Scratched w (r = none) w')
      fun _ w' => RxScratch w w' := by
  simp only [rxBufferDecodePublishPart, wp_bind, wp_get]
  refine wp_if (fun _ => rxBufferDecodeTopicLen_scratch w _) fun _ => ?_
  simp only [wp_bind, wp_modify]
  obtain ⟨h, he⟩ := ignoreUnwanted_scratch env w
  have hstr : ∀ start part len, Wp (rxBufferDecodeString env start part len bs) (w.ignoreUnwanted env)
      (fun r w' => Scratched w (r = none) w') fun _ w' => RxScratch w w' := fun start part len =>
    (rxBufferDecodeString_scratch env _ start part len bs).mono (fun _ _ h' => .after h he h')
      fun _ _ h' => h.trans h'
  refine wp_if (fun _ => hstr _ _ _) fun _ => wp_if (fun _ => ?_) fun _ => hstr _ _ _
  exact .fine (h.trans (.rx _ _ rfl rfl rfl rfl rfl rfl)) he (by simp)

/-! ### The end of a PUBLISH -/

/-- What the decoder of a packet leaves alone. -/
structure RxKept (w w' : World σ) : Prop extends Steady w w' where
  value : w'.rx.internal.value = w.rx.internal.value
  decoder : w'.rx.internal.decoder = w.rx.internal.decoder
  header : w'.rx.internal.header = w.rx.internal.header
  headerFinished : w'.rx.internal.headerFinished = w.rx.internal.headerFinished
  pos : w'.rx.internal.remainBufPos = w.rx.internal.remainBufPos
  calls : w'.rx.internal.calls = w.rx.internal.calls

theorem RxKept.trans {w w' w'' : World σ} (h : RxKept w w') (h' : RxKept w' w'') : RxKept w w'' :=
  ⟨h.toSteady.trans h'.toSteady, h'.value.trans h.value, h'.decoder.trans h.decoder,
    h'.header.trans h.header, h'.headerFinished.trans h.headerFinished, h'.pos.trans h.pos,
    h'.calls.trans h.calls⟩

theorem RxScratch.rxKept {w w' : World σ} (h : RxScratch w w') : RxKept w w' :=
  ⟨h.steady, h.value, h.decoder, h.header, h.headerFinished, h.pos, h.calls⟩

theorem Kept.rxKept {w w' : World σ} (h : Kept w w') : RxKept w w' := by
  refine ⟨h.toSteady, ?_, ?_, ?_, ?_, ?_, ?_⟩ <;> rw [h.rx]

/- What the decoder of a packet does; where it `failed`, it says why. -/
structure Decoded (w : World σ) (failed : Prop) (w' : World σ) : Prop where
  effects : Effects env P w w'
  kept : RxKept w w'
  why : failed → w'.rx.internal.error.isSome = true
  calm : ¬ failed → w'.rx.internal.error = w.rx.internal.error

variable {env P} in
theorem Decoded.after {w w' w'' : World σ} {failed : Prop} (he : Effects env P w w') (hk : RxKept w w')
    (hc : w'.rx.internal.error = w.rx.internal.error) (h : Decoded env P w' failed w'') :
    Decoded env P w failed w'' :=
  ⟨he.trans h.effects, hk.trans h.kept, h.why, fun hn => (h.calm hn).trans hc⟩

variable {env P} in
theorem Scratched.decoded {w w' : World σ} {failed : Prop} (h : Scratched w failed w') :
    Decoded env P w failed w' := ⟨h.effects env P, h.toRxScratch.rxKept, h.why, h.calm⟩

theorem acknowledge_effects (w : World σ) :
    Effects env P w w.acknowledge ∧ Kept w w.acknowledge ∧ w.acknowledge.rx.idSet = w.rx.idSet := by
  unfold World.acknowledge
  dsimp only
  split
  · exact ⟨.refl, .refl w, rfl⟩
  · refine ⟨?_, (Framed.setStore w _ _).toKept, by simp⟩
    cases hs : w.rxStore.append (publishAck w.rx.internal.header.qos w.rx.internal.packetId) with
    | none =>
      rw [Option.getD_none, World.rxStore, World.setStore_store]
      exact .refl
    | some s =>
      refine .of (.ack w _ s ⟨?_, rfl⟩ hs)
      unfold publishAck
      split
      · exact .inr (.inl rfl)
      · exact .inl rfl

/- The message is handed over in a state `w` reached from `v`, in one effect
   with what came before it: `hm`. -/
theorem rxBufferCallMessage_spec (v w : World σ) (hv : Effects env P v w)
    (hm : Effects env P v (w.emit (.message w.rx.internal.packetId w.rx.internal.publish))) :
    Wp (rxBufferCallMessage env) w (fun _ w' => Effects env P v w' ∧ Kept w w') fun _ _ => False := by
  simp only [rxBufferCallMessage, callbackCalls_requests, wp_bind, wp_get]
  split
  · rename_i f _
    refine wp_if (fun _ => ⟨hv, .refl w⟩) fun _ => ?_
    simp only [wp_bind, wp_set, wp_pure]
    have hmsg := hm.then (.app _ (f w.app w.rx.internal.publish).app)
    have hkept : Kept w { w with
        app := (f w.app w.rx.internal.publish).app
        log := .message w.rx.internal.packetId w.rx.internal.publish :: w.log } :=
      ⟨⟨rfl, rfl, ⟨[_], rfl⟩, id, .inl rfl⟩, rfl⟩
    exact (doRequests_called env P _ _).mono (fun _ t ht => ⟨hmsg.trans ht.2, hkept.trans ht.1.framed.toKept⟩)
      fun _ _ h => h
  · exact ⟨hv, .refl w⟩

theorem rxBufferTakeMessage_spec (v w : World σ) (hv : Effects env P v w)
    (hm : ∀ b : Publish, b.qos = w.rx.internal.header.qos →
      Effects env P v (w.emit (.message w.rx.internal.packetId b))) :
    Wp (rxBufferTakeMessage env) w
      (fun res w' => Effects env P v w' ∧ RxKept w w' ∧
        (res = .error → w'.rx.internal.error.isSome = true) ∧
        (res ≠ .error → w'.rx.internal.error = w.rx.internal.error))
      fun _ _ => False := by
  simp only [rxBufferTakeMessage, wp_bind, wp_modify]
  generalize hi : ({ w.rx.internal with publish := { w.rx.internal.publish with
    qos := w.rx.internal.header.qos, retain := w.rx.internal.header.retain ≠ 0 } } : RxInternal) = i
  have hrx : Effect env P w (w.setRx i) := .rx w i (by rw [← hi]; exact ⟨rfl, .inr rfl, rfl⟩)
  have hs : RxScratch w (w.setRx i) := by
    rw [← hi]
    exact .rx w _ rfl rfl rfl rfl rfl rfl
  have hk := hs.rxKept
  have hie : i.error = w.rx.internal.error := by rw [← hi]
  have hmsg : Effects env P v ((w.setRx i).emit (.message i.packetId i.publish)) := by
    have h := hm i.publish (by rw [← hi])
    rw [← hi] at h ⊢
    exact h.then (.rx _ _ ⟨rfl, .inr rfl, rfl⟩)
  refine (rxBufferCallMessage_spec env P v _ (hv.then hrx) hmsg).mono (fun ok t ht => ?_) fun _ _ h => h
  refine (rxBufferDeallocatePublish_scratch env t).mono (fun _ t' ht' => ?_) fun _ _ h => h
  have heff := ht.1.trans (ht'.1.effects env P)
  have hkept := hk.trans (ht.2.rxKept.trans ht'.1.rxKept)
  refine wp_if (fun _ => ⟨heff, hkept, by simp, fun _ => ?_⟩) fun _ => ?_
  · rw [ht'.2, ht.2.rx]
    exact hie
  · have hf := Scratched.fail t' .decodePublishMessageCallbackFailed 0 trivial
    exact ⟨heff.trans (hf.effects env P), hkept.trans hf.rxKept, fun _ => hf.why trivial, by simp⟩

theorem rxBufferFinishPublish_spec (w : World σ) (he : w.error = none) :
    Wp (rxBufferFinishPublish env) w (fun res w' => Decoded env P w (res = .error) w')
      fun _ _ => False := by
  simp only [rxBufferFinishPublish, wp_bind, wp_modify, wp_get]
  obtain ⟨ha, hk, hs⟩ := acknowledge_effects env P w
  generalize w.acknowledge = u at ha hk hs
  have herr : u.error = none := hk.error.trans he
  have hue : u.rx.internal.error = w.rx.internal.error := by rw [hk.rx]
  have hdealloc : Wp (rxBufferDeallocatePublish env) u
      (fun _ t' => Effects env P w t' ∧ RxKept w t' ∧ t'.rx.internal.error = w.rx.internal.error)
      fun _ _ => False :=
    (rxBufferDeallocatePublish_scratch env u).mono (fun _ _ h => ⟨ha.trans (h.1.effects env P),
      hk.rxKept.trans h.1.rxKept, by rw [h.2]; exact hue⟩) fun _ _ h => h
  have htake : ∀ t, Effects env P w t → RxKept w t → t.rx.internal.error = w.rx.internal.error →
      (∀ b : Publish, b.qos = t.rx.internal.header.qos →
        Effects env P w (t.emit (.message t.rx.internal.packetId b))) →
      Wp (rxBufferTakeMessage env) t (fun res w' => Decoded env P w (res = .error) w') fun _ _ => False :=
    fun t ht hkt hte hm => (rxBufferTakeMessage_spec env P w t ht hm).mono
      (fun _ _ h => ⟨h.1, hkt.trans h.2.1, h.2.2.1, fun hn => (h.2.2.2 hn).trans hte⟩) fun _ _ h => h
  refine wp_if (fun _ => ?_) fun hknown => ?_
  · exact (wp_bind ..).mpr (hdealloc.mono (fun _ _ h => ⟨h.1, h.2.1, by simp, fun _ => h.2.2⟩) fun _ _ h => h)
  · simp only [rxBufferRemember, wp_bind, wp_get]
    refine wp_if (fun hq => ?_) fun hq => ?_
    · refine wp_if (fun _ => htake u ha hk.rxKept hue fun b hb => ?_) (by simp)
      exact ha.then (.deliver u _ b (by rw [hb]; exact hq))
    · split
      · refine wp_if (by simp) fun _ => ?_
        refine (wp_bind ..).mpr (hdealloc.mono (fun _ t ht => ?_) fun _ _ h => h)
        have hf := Scratched.fail t .decodePublishIdSetFull 0 trivial
        exact ⟨ht.1.trans (hf.effects env P), ht.2.1.trans hf.rxKept, fun _ => hf.why trivial, by simp⟩
      · rename_i s hput
        simp only [wp_bind, wp_set, wp_pure]
        refine wp_if (fun _ => htake _ (ha.then (.remember u _ s hput)) ?_ hue fun b hb => ?_) (by simp)
        · exact hk.rxKept.trans ⟨⟨rfl, rfl, ⟨[], rfl⟩, id, .inl rfl⟩, rfl, rfl, rfl, rfl, rfl, rfl⟩
        · exact ha.then (.deliverOnce u _ b s herr hput)

/-! ### The bytes of a packet -/

theorem rxBufferDecodePublish_spec (w : World σ) (bs : List Byte) (he : w.error = none) :
    Wp (rxBufferDecodePublish env bs) w (fun r w' => Decoded env P w (r.1 = .error) w')
      fun _ w' => Effects env P w w' := by
  simp only [rxBufferDecodePublish]
  refine wp_assert_bind (fun _ => ?_) fun _ => .refl
  simp only [wp_bind, wp_get]
  refine (rxBufferDecodePublishPart_scratch env w bs).mono (fun r t ht => ?_) fun _ t ht => ht.effects env P
  cases r with
  | none => exact ⟨ht.effects env P, ht.rxKept, fun _ => ht.why rfl, by simp⟩
  | some count =>
    have hte := ht.calm (by simp)
    have hd : ∀ failed, ¬ failed → Decoded env P w failed t := fun failed hn =>
      ⟨ht.effects env P, ht.rxKept, fun hf => absurd hf hn, fun _ => hte⟩
    simp only [wp_bind, wp_get]
    refine wp_if (fun _ => hd _ (by simp)) fun _ => wp_if (fun _ => hd _ (by simp)) fun _ => ?_
    have het : t.error = none := ht.steady.error.trans he
    exact (wp_bind ..).mpr ((rxBufferFinishPublish_spec env P t het).mono
      (fun _ u hu => .after (ht.effects env P) ht.rxKept hte hu) fun _ _ h => h.elim)

theorem rxBufferDecodeType_spec (w : World σ) (d : Decoder) (bs : List Byte) (he : w.error = none) :
    Wp (rxBufferDecodeType env d bs) w (fun r w' => Decoded env P w (r.1 = .error) w')
      fun _ w' => Effects env P w w' := by
  unfold rxBufferDecodeType
  split
  · exact (Scratched.fail w _ _ rfl).decoded
  · exact (rxBufferDecodeConnack_scratch env w bs).mono (fun _ _ h => h.decoded) fun _ _ h => h.effects env P
  · exact rxBufferDecodePublish_spec env P w bs he
  · exact (rxBufferDecodeSuback_scratch env w bs).mono (fun _ _ h => h.decoded) fun _ _ h => h.effects env P

theorem rxBufferDecodeRemainingWithoutId_spec (w : World σ) (d : Decoder) (bs : List Byte)
    (he : w.error = none) :
    Wp (rxBufferDecodeRemainingWithoutId env d bs) w (fun r w' => Decoded env P w (r.1 = .error) w')
      fun _ w' => Effects env P w w' := by
  simp only [rxBufferDecodeRemainingWithoutId, wp_bind, wp_get]
  refine (rxBufferDecodeType_spec env P w d bs he).mono (fun r t ht => ?_) fun _ _ h => h
  refine wp_if (fun hr => ⟨ht.effects, ht.kept, fun _ => ht.why hr, by simp⟩) fun hr => ?_
  refine wp_assert_bind (fun _ => ?_) fun _ => ht.effects
  exact ⟨ht.effects, ht.kept, fun h => absurd h hr, fun _ => ht.calm hr⟩

/-! ### The shape of the decoder's state -/

/-- What the state of the decoder looks like between two turns of its loop. -/
structure RxShape (i : RxInternal) : Prop where
  fresh : i.headerFinished = false → i = { header := i.header, error := i.error, osError := i.osError }
  table : i.headerFinished = true → i.decoder = rxBufferDecoders i.header.type
  long : i.headerFinished = true → i.error = none → ∃ d, i.decoder = some d ∧
    d.minLength ≤ i.header.remainingLength
  idle : i.kind = none → i.value = {}
  unread : ∀ d, i.decoder = some d → d.decodeRemaining = .withId → i.remainBufPos < 2 → i.value = {}
  uncalled : i.calls = 0 ∨ ∃ e, i.error = some e ∧ e.ofCallback = true

theorem RxShape.empty : RxShape {} := ⟨fun _ => rfl, by simp, by simp, fun _ => rfl, by simp, .inl rfl⟩

/- Before the end of the fixed header. -/
theorem RxShape.of_header {i : RxInternal}
    (h : i = { header := i.header, error := i.error, osError := i.osError }) : RxShape i := by
  have hf : i.headerFinished = false := by rw [h]
  have hv : i.value = {} := by rw [h]
  have hc : i.calls = 0 := by rw [h]
  exact ⟨fun _ => h, by simp [hf], by simp [hf], fun _ => hv, fun _ _ _ _ => hv, .inl hc⟩

/- The callback of the packet was not called yet, unless it failed. -/
theorem RxShape.calls {i : RxInternal} (h : RxShape i) (he : i.error = none) : i.calls = 0 := by
  rcases h.uncalled with hc | ⟨e, hc, -⟩
  · exact hc
  · rw [he] at hc
    contradiction

theorem RxShape.of_kept {w w' : World σ} (hs : RxShape w.rx.internal) (hf : w.rx.internal.headerFinished = true)
    (he : w.rx.internal.error = none ∨ w'.rx.internal.error.isSome = true)
    (hc : w.rx.internal.calls = 0 ∨ ∃ e, w'.rx.internal.error = some e ∧ e.ofCallback = true)
    (h : RxKept w w') : RxShape w'.rx.internal := by
  refine ⟨fun hn => ?_, fun _ => ?_, fun _ hn => ?_, fun hk => ?_, fun d hd => ?_, by rwa [h.calls]⟩
  · rw [h.headerFinished, hf] at hn
    contradiction
  · rw [h.decoder, h.header]
    exact hs.table hf
  · rcases he with he | he
    · rw [h.header, h.decoder]
      exact hs.long hf he
    · rw [hn] at he
      contradiction
  · rw [RxInternal.kind, h.decoder] at hk
    rw [h.value]
    exact hs.idle hk
  · rw [h.decoder] at hd
    rw [h.pos, h.value]
    exact hs.unread d hd

/- What the decoder table says about its entries. -/
theorem rxBufferDecoders_kind (type : ℕ) (d : Decoder) (h : rxBufferDecoders type = some d) :
    (d.kind = some .publish2 ↔ type = typePubrec) ∧ (d.kind = some .pubrel → type = typePubcomp) ∧
      (d.callbackError = none → d.kind = none ∨ d.kind = some .pingreq ∨ d.kind = some .publish2) ∧
      ∀ e, d.callbackError = some e → e.ofCallback = true := by
  unfold rxBufferDecoders at h
  split at h <;> cases h <;> refine ⟨by decide, by decide, by decide, fun e he => ?_⟩ <;> cases he <;> rfl

/-! ### Turns of the loop -/

/-- What a turn of the decoder loop does. -/
structure Turned (w : World σ) (failed : Prop) (w' : World σ) : Prop where
  effects : Effects env P w w'
  steady : Steady w w'
  shape : RxShape w'.rx.internal
  why : failed → w'.rx.internal.error.isSome = true
  calm : ¬ failed → w'.rx.internal.error = none

variable {env P} in
theorem Turned.after {w w' w'' : World σ} {failed : Prop} (he : Effects env P w w') (hk : Steady w w')
    (h : Turned env P w' failed w'') : Turned env P w failed w'' :=
  ⟨he.trans h.effects, hk.trans h.steady, h.shape, h.why, h.calm⟩

/- The end of a packet other than a PUBREC. The packet id of a PUBCOMP was read
   in the same turn: `hrel`. -/
theorem rxBufferFinishPacket_spec (w : World σ) (d : Decoder) (hw : Sound w) (hs : RxShape w.rx.internal)
    (hf : w.rx.internal.headerFinished = true) (hd : w.rx.internal.decoder = some d)
    (he : w.rx.internal.error = none) (hwe : w.error = none) (hk : d.kind ≠ some .publish2)
    (hrel : d.kind = some .pubrel → ∃ l, w.log =
      .popped .pubrel w.rx.internal.packetId w.rx.internal.value.req ::
        .packetId w.rx.internal.header.type w.rx.internal.packetId :: l) :
    Wp (rxBufferFinishPacket env d) w (fun ok w' => Turned env P w (ok = false) w')
      fun _ w' => Effects env P w w' := by
  have hkind : w.rx.internal.kind = d.kind := by rw [RxInternal.kind, hd]; rfl
  obtain ⟨htype, hcomp, hcb, hof⟩ := rxBufferDecoders_kind _ _ ((hs.table hf).symm.trans hd)
  have hcalls := hs.calls he
  have hpubrec : w.rx.internal.header.type ≠ typePubrec := fun h => hk (htype.mpr h)
  generalize hv : w.rx.internal.value = v at hrel
  have htyped : v = {} ∨ ∃ k, d.kind = some k ∧ (⟨k, v⟩ : Entry).WellTyped := by
    rw [← hkind, ← hv]
    exact hw.held
  simp only [rxBufferFinishPacket, emitFinished, lmqttRxBufferReset, wp_bind, wp_get, hv]
  refine wp_if (fun h => absurd h hk) fun _ => ?_
  have hans : Effects env P w (w.decoded.answered v) := by
    rw [← hv] at hrel ⊢
    refine .of (.answer w hcalls (by rwa [hkind]) (hs.table hf).symm fun h => ?_)
    rw [hkind] at h
    rw [← hcomp h]
    exact ⟨rfl, hrel h⟩
  -- a callback that fails has an error to report
  have hidle : d.callbackError = none → callValue env v w.decoded = .ok true w.decoded := by
    intro hn
    apply callValue_idle
    rcases htyped with rfl | ⟨k, hkd, ht⟩
    · exact .inl rfl
    · rcases hcb hn with h | h | h
      · rw [h] at hkd
        cases hkd
      · rw [h] at hkd
        cases hkd
        exact .inr ht.callback
      · exact absurd h hk
  have hfails : Wp (callValue env v) w.decoded (fun ok _ => ok = false → d.callbackError.isSome = true)
      fun _ _ => True := by
    cases hn : d.callbackError with
    | none =>
      unfold Wp
      rw [hidle hn]
      simp
    | some e => exact (wp_true _ _).mono (fun _ _ _ _ => rfl) fun _ _ h => h
  have hcall := (callValue_spec env P v w.decoded fun hcb hcl => hv ▸ hw.opens hcalls hcl (hv ▸ hcb)).and hfails
  simp only [wp_bind, wp_modify]
  refine (hcall.mono (fun ok t ht => ?_) fun _ t ht => hans.trans ht.1.2)
  obtain ⟨ht, hfail⟩ := ht
  have hwt := hans.trans ht.effects
  have hrx : t.rx.internal = { w.rx.internal with calls := w.rx.internal.calls + 1 } := ht.framed.rx
  have hdec : Steady w w.decoded := ⟨rfl, rfl, ⟨[_], rfl⟩, id, .inl rfl⟩
  refine wp_if (fun _ => ?_) fun hok => ?_
  · refine ⟨hwt.then (.finish t ?_ ?_ ?_), ?_, .empty, by simp, fun _ => rfl⟩
    · rw [hrx]
      exact hpubrec
    · rw [ht.framed.error]
      intro h
      rw [show w.decoded.error = w.error from rfl, hwe] at h
      contradiction
    · rw [hrx, hv]
      intro r hr
      rcases htyped with rfl | ⟨k, -, hty⟩
      · cases hr
      · have hreq := hty.req
        simp only [hr, Option.isSome_some] at hreq
        have hcbk := hty.callback
        obtain ⟨cb, hcb', hne⟩ : ∃ cb, k.callback = some cb ∧ cb ≠ .onPingresp := by
          cases k <;> first | exact ⟨_, rfl, by decide⟩ | exact absurd hreq (by decide)
        obtain ⟨b, hb⟩ := ht.answered cb (hcbk.trans hcb') hne
        rw [hr] at hb
        exact ⟨cb, _, b, hb⟩
    · refine hdec.trans (ht.framed.toSteady.trans ?_)
      exact ⟨rfl, rfl, ⟨[_], rfl⟩, id, .inl rfl⟩
  · have hfail := hfail (by simpa using hok)
    refine wp_assert_bind (fun _ => ?_) fun _ => hwt
    have hscr : RxScratch t (t.setRx { t.rx.internal with error := d.callbackError, osError := 0 }) :=
      .rx t _ rfl rfl rfl rfl rfl rfl
    refine ⟨hwt.trans (hscr.effects env P), hdec.trans (ht.framed.toSteady.trans hscr.steady), ?_,
      fun _ => hfail, by simp⟩
    -- the decoder holds the request that was answered
    obtain ⟨e, hce⟩ := Option.isSome_iff_exists.mp hfail
    refine ⟨fun hn => ?_, fun _ => ?_, fun _ hn => ?_, fun hn => ?_, fun d' hd' hw' hp => ?_,
      .inr ⟨e, hce, hof e hce⟩⟩
    all_goals simp only [World.setRx, hrx] at *
    · rw [hf] at hn
      contradiction
    · exact hs.table hf
    · rw [hn] at hfail
      contradiction
    · exact hs.idle hn
    · exact hs.unread d' hd' hw' hp

theorem rxBufferEndTurn_spec (w : World σ) (d : Decoder) (count : ℕ) (hw : Sound w) (hs : RxShape w.rx.internal)
    (hf : w.rx.internal.headerFinished = true) (hd : w.rx.internal.decoder = some d)
    (he : w.rx.internal.error = none) (hwe : w.error = none)
    (hk : rxBufferIsPacketFinished w.rx.internal = true → d.kind ≠ some .publish2)
    (hrel : rxBufferIsPacketFinished w.rx.internal = true → d.kind = some .pubrel → ∃ l, w.log =
      .popped .pubrel w.rx.internal.packetId w.rx.internal.value.req ::
        .packetId w.rx.internal.header.type w.rx.internal.packetId :: l) :
    Wp (rxBufferEndTurn env count) w (fun r w' => Turned env P w (∃ n, r = .failed n) w')
      fun _ w' => Effects env P w w' := by
  simp only [rxBufferEndTurn, wp_bind, wp_get, hd]
  refine wp_if (fun h => ?_) fun _ => ⟨.refl, .refl w, hs, by simp, fun _ => he⟩
  refine (wp_bind ..).mpr ((rxBufferFinishPacket_spec env P w d hw hs hf hd he hwe (hk h) (hrel h)).mono
    (fun ok t ht => ?_) fun _ _ h => h)
  refine wp_if (fun _ => ?_) fun hok => ?_
  · exact ⟨ht.effects, ht.steady, ht.shape, by simp, fun _ => ht.calm (by simp_all)⟩
  · exact ⟨ht.effects, ht.steady, ht.shape, fun _ => ht.why (by simpa using hok), by simp⟩

/- What taking a request from the store does. -/
theorem rxBufferPopPacket_spec (w : World σ) (d : Decoder) (id : PacketId)
    (hd : w.rx.internal.decoder = some d) (hv : w.rx.internal.value = {})
    (hi : ∀ k, d.kind = some k → k.inFlight = true → ∃ l, w.log = .packetId w.rx.internal.header.type id :: l)
    (hc : w.rx.store = .main → w.ops.publish = true) :
    Wp (rxBufferPopPacket d id) w
      (fun ok w' => Effects env P w w' ∧
        (ok = true → ∃ k e s, d.kind = some k ∧ w.rxStore.popMarkedBy k id = some (e, s) ∧
          w' = ((w.setStore w.rx.store s).setRx { w.rx.internal with value := e.value }).emit
            (.popped e.kind id e.value.req)) ∧
        (ok = false → w' = w.failRx .decodeNoCorrespondingRequest 0))
      fun _ _ => False := by
  simp only [rxBufferPopPacket, wp_bind, wp_get]
  have hkind : w.rx.internal.kind = d.kind := by rw [RxInternal.kind, hd]; rfl
  split
  · rename_i e s hs
    obtain ⟨k, hk, hs⟩ := Option.bind_eq_some_iff.mp hs
    simp only [wp_bind, wp_set, wp_emit, wp_pure]
    have hpop : Effect env P _ _ := .pop w k id e s (hkind.trans hk) hv (hi k hk) hc hs
    exact ⟨.of hpop, fun _ => ⟨k, e, s, hk, hs, rfl⟩, by simp⟩
  · simp only [wp_bind, wp_set, wp_rxBufferFail, wp_pure]
    have hself : ({ w.rx.internal with value := {} } : RxInternal) = w.rx.internal := by rw [← hv]
    rw [hself]
    exact ⟨(Scratched.fail w _ _ trivial).effects env P, by simp, fun _ => rfl⟩

theorem fixedHeaderDecode_error (h : FixedHeader) (b : Byte) :
    (fixedHeaderDecode h b).2.1 = .error ∧ (fixedHeaderDecode h b).2.2.isSome = true ∨
      (fixedHeaderDecode h b).2.1 = .finished ∨ (fixedHeaderDecode h b).2.1 = .continue := by
  unfold fixedHeaderDecode
  split
  · simp
  · split
    · dsimp only
      split
      · simp
      · split <;> simp
    · split
      · simp
      · dsimp only
        split <;> simp

/- A decoder takes its request behind the fixed header, or else it is for a
   packet with more bytes. -/
theorem rxBufferDecoders_withoutId (type : ℕ) (d : Decoder) (h : rxBufferDecoders type = some d) :
    d.popPacketWithoutId = .withoutId ∧ d.decodeRemaining = .withoutId ∧
        (d.kind = some .connect ∨ d.kind = some .pingreq) ∨
      d.popPacketWithoutId = .ignore ∧ 0 < d.minLength := by
  unfold rxBufferDecoders at h
  split at h <;> cases h <;> decide

theorem rxBufferDecodeHeaderTurn_spec (w : World σ) (b : Byte) (hw : Sound w) (hs : RxShape w.rx.internal)
    (hn : w.rx.internal.headerFinished = false) (hwe : w.rx.internal.error = none) (herr : w.error = none)
    (hc : w.rx.store = .main → w.ops.publish = true) :
    Wp (rxBufferDecodeHeaderTurn env b) w (fun r w' => Turned env P w (∃ n, r = .failed n) w')
      fun _ w' => Effects env P w w' := by
  have hi := hs.fresh hn
  have hv : w.rx.internal.value = {} := by rw [hi]
  have hcalls := hs.calls hwe
  have hd : w.rx.internal.decoder = none := by rw [hi]
  simp only [rxBufferDecodeHeaderTurn, wp_bind, wp_get, wp_set]
  rcases hdec : fixedHeaderDecode w.rx.internal.header b with ⟨h, res, error⟩
  have hres := fixedHeaderDecode_error w.rx.internal.header b
  rw [hdec] at hres
  have hscr : ∀ i : RxInternal, i.value = {} → i.calls = w.rx.internal.calls →
      Effects env P w (w.setRx i) ∧ Steady w (w.setRx i) := fun i hiv hic =>
    ⟨.of (.rx w i ⟨hiv.trans hv.symm, .inl hiv, hic⟩), ⟨rfl, rfl, ⟨[], rfl⟩, id, .inl rfl⟩⟩
  rcases hres with ⟨rfl, hfail⟩ | rfl | rfl
  · -- the fixed header is malformed
    simp only [wp_bind, wp_modify, wp_pure]
    obtain ⟨he, hk⟩ := hscr { w.rx.internal with header := h, error := error, osError := 0 } hv rfl
    refine ⟨he, hk, .of_header ?_, fun _ => hfail, by simp⟩
    simp only [World.setRx]
    rw [hi]
  · -- the decoder is chosen, and takes the request of a packet without an id
    simp only [wp_bind, wp_modify]
    generalize hu : (w.setRx { w.rx.internal with header := h }).setRx
      { (w.setRx { w.rx.internal with header := h }).rx.internal with
        headerFinished := true, decoder := rxBufferDecoders h.type } = u
    have hur : u.rx.internal = { w.rx.internal with
        header := h, headerFinished := true, decoder := rxBufferDecoders h.type } := by rw [← hu]; rfl
    have huv : u.rx.internal.value = {} := by rw [hur]; exact hv
    obtain ⟨he, hst⟩ := hscr { w.rx.internal with
      header := h, headerFinished := true, decoder := rxBufferDecoders h.type } hv rfl
    have huc : u.rx.internal.calls = 0 := by rw [hur]; exact hcalls
    have hue' : u.error = none := by rw [← hu]; exact herr
    have hwu : w.setRx { w.rx.internal with
        header := h, headerFinished := true, decoder := rxBufferDecoders h.type } = u := by rw [← hu]; rfl
    rw [hwu] at he hst
    have hfail : ∀ e, Turned env P w True (u.failRx e 0) := by
      intro e
      have hf := Scratched.fail u e 0 trivial
      refine ⟨he.trans (hf.effects env P), hst.trans hf.steady, ⟨?_, ?_, ?_, ?_, ?_, .inl huc⟩,
        fun _ => hf.why trivial, by simp⟩
      · simp [World.failRx, World.setRx, hur]
      · simp [World.failRx, World.setRx, hur]
      · simp [World.failRx, World.setRx]
      · exact fun _ => huv
      · exact fun _ _ _ _ => huv
    cases hd' : rxBufferDecoders h.type with
    | none => exact ⟨(hfail _).effects, (hfail _).steady, (hfail _).shape, fun _ => (hfail _).why trivial, by simp⟩
    | some d =>
      dsimp only
      refine wp_if (fun _ => ?_) fun hlong => ?_
      · exact ⟨(hfail _).effects, (hfail _).steady, (hfail _).shape, fun _ => (hfail _).why trivial, by simp⟩
      · have hud : u.rx.internal.decoder = some d := by rw [hur]; exact hd'
        have huf : u.rx.internal.headerFinished = true := by rw [hur]
        have hue : u.rx.internal.error = none := by rw [hur]; exact hwe
        have hupos : u.rx.internal.remainBufPos = 0 := by rw [hur]; simp only; rw [hi]
        have hus : RxShape u.rx.internal := by
          refine ⟨by simp [huf], fun _ => ?_, fun _ _ => ⟨d, hud, ?_⟩, fun _ => huv,
            fun _ _ _ _ => huv, .inl huc⟩
          · rw [hur]
          · rw [hur]
            exact Nat.le_of_not_lt hlong
        have hucs : u.rx.store = .main → u.ops.publish = true := by
          rw [← hu]
          exact hc
        rcases rxBufferDecoders_withoutId _ _ hd' with ⟨hpop, hrem, hkind⟩ | ⟨hpop, hmin⟩
        · rw [hpop]
          simp only [popPacket]
          refine (wp_bind ..).mpr ((rxBufferPopPacket_spec env P u d 0 hud huv ?_ hucs).mono
            (fun ok t ht => ?_) fun _ _ h => h.elim)
          · intro k hk hf
            rcases hkind with h | h <;> rw [h] at hk <;> cases hk <;> contradiction
          obtain ⟨hte, htok, htno⟩ := ht
          refine wp_if (fun hok => ?_) fun hok => ?_
          · obtain ⟨k, e, s, hk, -, rfl⟩ := htok hok
            have hts : RxShape { u.rx.internal with value := e.value } := by
              refine ⟨by simp [huf], hus.table, hus.long, fun hn => ?_, fun d' hd'' hw' => ?_, .inl huc⟩
              · rw [RxInternal.kind, hud] at hn
                simp only [Option.bind_some] at hn
                rw [hn] at hk
                contradiction
              · rw [hud] at hd''
                cases hd''
                rw [hrem] at hw'
                contradiction
            refine (rxBufferEndTurn_spec env P _ d 1 ((he.trans hte).sound hw) hts huf hud hue
              ((World.setStore_error ..).trans hue') ?_ ?_).mono
              (fun _ v hv => ?_) fun _ v hv => (he.trans hte).trans hv
            · intro _ hn
              rcases hkind with h | h <;> rw [h] at hn <;> cases hn
            · intro _ hn
              rcases hkind with h | h <;> rw [h] at hn <;> cases hn
            · refine .after (he.trans hte) (hst.trans ?_) hv
              exact (Framed.setStore u _ _).toSteady.trans ⟨rfl, rfl, ⟨[_], rfl⟩, id, .inl rfl⟩
          · rw [htno (by simpa using hok)]
            simp only [wp_bind, wp_get]
            refine (wp_assert ..).mpr ?_
            split
            · exact ⟨(hfail _).effects, (hfail _).steady, (hfail _).shape, fun _ => (hfail _).why trivial, by simp⟩
            · exact (hfail _).effects
        · have hnfin : ¬ rxBufferIsPacketFinished u.rx.internal = true := by
            have hlen : d.minLength ≤ u.rx.internal.header.remainingLength := by
              rw [hur]
              exact Nat.le_of_not_lt hlong
            simp only [rxBufferIsPacketFinished, huf, Bool.true_and, decide_eq_true_eq, hupos]
            omega
          rw [hpop]
          simp only [popPacket, wp_bind, wp_pure, if_true]
          refine (rxBufferEndTurn_spec env P u d 1 (he.sound hw) hus huf hud hue hue' ?_ ?_).mono
            (fun _ v hv => .after he hst hv) fun _ v hv => he.trans hv
          · exact fun hfin => absurd hfin hnfin
          · exact fun hfin => absurd hfin hnfin
  · -- more bytes of it are to come
    obtain ⟨he, hk⟩ := hscr { w.rx.internal with header := h } hv rfl
    refine ⟨he, hk, .of_header ?_, by simp, fun _ => hwe⟩
    simp only [World.setRx]
    rw [hi]

/- The decoders that read a packet id. -/
theorem rxBufferDecoders_withId (type : ℕ) (d : Decoder) (h : rxBufferDecoders type = some d)
    (hr : d.decodeRemaining = .withId) : 2 ≤ d.minLength ∧
      (d.popPacketWithId = .withId ∨ d.popPacketWithId = .pubrel ∧ type = typePubrel ∧ d.kind = none) := by
  unfold rxBufferDecoders at h
  split at h <;> cases h <;> first | decide | (exact absurd hr (by decide))

/- The decoders that read more than that. -/
theorem rxBufferDecoders_bytes (type : ℕ) (d : Decoder) (h : rxBufferDecoders type = some d)
    (hr : d.decodeRemaining = .withoutId ∨ d.decodeBytes.isSome = true) :
    d.kind ≠ some .publish2 ∧ d.kind ≠ some .pubrel := by
  unfold rxBufferDecoders at h
  split at h <;> cases h <;> first | decide | (exact absurd hr (by decide))

theorem RxShape.advance {i : RxInternal} (h : RxShape i) (hf : i.headerFinished = true) (count : ℕ) :
    RxShape { i with remainBufPos := i.remainBufPos + count } := by
  refine ⟨by simp [hf], h.table, h.long, h.idle, fun d hd hr hp => ?_, h.uncalled⟩
  simp only at hp
  exact h.unread d hd hr (by omega)

theorem advance_effects (w : World σ) (count : ℕ) :
    Effects env P w (w.advance count) ∧ Steady w (w.advance count) :=
  ⟨.of (.rx w _ ⟨rfl, .inr rfl, rfl⟩), rfl, rfl, ⟨[], rfl⟩, id, .inl rfl⟩

/- Behind the bytes of a packet that is not a PUBREC or PUBCOMP. -/
theorem rxBufferDecodedBytes_spec (w : World σ) (d : Decoder) (res : DecodeResult) (count : ℕ) (hw : Sound w)
    (hs : RxShape w.rx.internal) (hf : w.rx.internal.headerFinished = true)
    (hd : w.rx.internal.decoder = some d) (he : res = .error → w.rx.internal.error.isSome = true)
    (hn : res ≠ .error → w.rx.internal.error = none) (hwe : w.error = none)
    (hk : res ≠ .error → d.kind ≠ some .publish2 ∧ d.kind ≠ some .pubrel) :
    Wp (rxBufferDecodedBytes env res count) w (fun r w' => Turned env P w (∃ n, r = .failed n) w')
      fun _ w' => Effects env P w w' := by
  obtain ⟨ha, hst⟩ := advance_effects env P w count
  have hend : res ≠ .error →
      Wp (rxBufferEndTurn env count) (w.advance count)
        (fun r w' => Turned env P w (∃ n, r = .failed n) w') fun _ w' => Effects env P w w' := fun hr =>
    have hk := hk hr
    (rxBufferEndTurn_spec env P _ d count (ha.sound hw) (hs.advance hf count) hf hd (hn hr) hwe
      (fun _ => hk.1) (fun _ h => absurd h hk.2)).mono (fun _ _ h => .after ha hst h) fun _ _ h => ha.trans h
  cases res with
  | error => exact wp_assert_bind (fun _ => ⟨.refl, .refl w, hs, fun _ => he rfl, by simp⟩) fun _ => .refl
  | wouldBlock =>
    exact wp_assert_bind (fun _ => ⟨.refl, .refl w, hs, by simp, fun _ => hn (by simp)⟩) fun _ => .refl
  | finished => exact hend (by simp)
  | «continue» => exact hend (by simp)

theorem rxBufferDecodeRemainingWithoutId_none (w : World σ) (d : Decoder) (bs : List Byte)
    (hn : d.decodeBytes = none) :
    Wp (rxBufferDecodeRemainingWithoutId env d bs) w (fun r _ => r.1 = .error) fun _ _ => False := by
  simp only [rxBufferDecodeRemainingWithoutId, rxBufferDecodeType, hn]
  trivial

/- The bytes of a packet behind its packet id, or of a packet without one. -/
theorem rxBufferDecodeRemainingWithoutId_turn (w : World σ) (d : Decoder) (bs : List Byte) (hw : Sound w)
    (hs : RxShape w.rx.internal) (hf : w.rx.internal.headerFinished = true)
    (hd : w.rx.internal.decoder = some d) (he : w.rx.internal.error = none) (hwe : w.error = none) :
    Wp (rxBufferDecodeRemainingWithoutId env d bs) w
      (fun r w' => Wp (rxBufferDecodedBytes env r.1 r.2) w'
        (fun r w' => Turned env P w (∃ n, r = .failed n) w') fun _ w' => Effects env P w w')
      fun _ w' => Effects env P w w' := by
  have hnone : Wp (rxBufferDecodeRemainingWithoutId env d bs) w
      (fun r _ => r.1 ≠ .error → d.decodeBytes.isSome = true) fun _ _ => True := by
    cases hb : d.decodeBytes with
    | none =>
      exact (rxBufferDecodeRemainingWithoutId_none env w d bs hb).mono (fun _ _ h hn => absurd h hn)
        fun _ _ h => h.elim
    | some x => exact (wp_true _ _).mono (fun _ _ _ _ => rfl) fun _ _ h => h
  refine ((rxBufferDecodeRemainingWithoutId_spec env P w d bs hwe).and hnone).mono (fun r t ht => ?_)
    fun _ _ h => h.1
  obtain ⟨ht, hbytes⟩ := ht
  have htf := ht.kept.headerFinished.trans hf
  have htd := ht.kept.decoder.trans hd
  have hts := hs.of_kept hf (.inl he) (.inl (hs.calls he)) ht.kept
  refine (rxBufferDecodedBytes_spec env P t d r.1 r.2 (ht.effects.sound hw) hts htf htd ht.why
    (fun hr => (ht.calm hr).trans he) (ht.kept.error.trans hwe) fun hr =>
      rxBufferDecoders_bytes _ _ ((hts.table htf).symm.trans htd) (.inr (hbytes hr))).mono
    (fun _ _ h => .after ht.effects ht.kept.toSteady h) fun _ _ h => ht.effects.trans h

theorem readId_scratch (w : World σ) (b : Byte) : RxScratch w (w.readId b) := .rx w _ rfl rfl rfl rfl rfl rfl

/- The state in which the request `e` of the packet is held. -/
def World.popped (w : World σ) (id : PacketId) (e : Entry) (s : Store) : World σ :=
  ((w.setStore w.rx.store s).setRx { w.rx.internal with value := e.value }).emit
    (.popped e.kind id e.value.req)

theorem popped_steady (w : World σ) (id : PacketId) (e : Entry) (s : Store) : Steady w (w.popped id e s) :=
  (Framed.setStore w _ _).toSteady.trans ⟨rfl, rfl, ⟨[_], rfl⟩, fun h => h, .inl rfl⟩

/- A PUBREC that is complete with its packet id: the request goes back to the
   store as a PUBREL. -/
theorem rxBufferFinishPacket_pubrec (w : World σ) (d : Decoder) (e : Entry) (s : Store)
    (hd : w.rx.internal.decoder = some d) (hk : d.kind = some .publish2)
    (hv : w.rx.internal.value = {}) (hy : w.rx.internal.header.type = typePubrec) (hwe : w.error = none)
    (hpop : Effects env P w (w.popped w.rx.internal.packetId e s))
    (hs : w.rxStore.popMarkedBy .publish2 w.rx.internal.packetId = some (e, s)) (n : ℕ) :
    Wp (rxBufferFinishPacket env d) ((w.popped w.rx.internal.packetId e s).advance n)
      (fun ok w' => Turned env P w (ok = false) w') fun _ w' => Effects env P w w' := by
  have hkind : w.rx.internal.kind = some .publish2 := by rw [RxInternal.kind, hd]; exact hk
  obtain ⟨pre, post, hrem, -, hek, -⟩ := Store.popMarkedBy_spec _ _ _ _ _ hs
  generalize hadv : (w.popped w.rx.internal.packetId e s).advance n = v
  have hvr : v.rx.internal = { w.rx.internal with
      value := e.value, remainBufPos := w.rx.internal.remainBufPos + n } := by
    rw [← hadv]
    rfl
  have hsteady : Steady w v := by
    rw [← hadv]
    exact (popped_steady w _ e s).trans (advance_effects env P _ n).2
  simp only [rxBufferFinishPacket, emitFinished, lmqttRxBufferReset, wp_bind, wp_get]
  refine wp_if (fun _ => ?_) fun h => absurd hk h
  refine wp_if (fun hdebug => ?_) fun hdebug => ?_
  · -- the request goes back to the store
    obtain ⟨t, ht⟩ := Store.append_isSome s ⟨.pubrel, e.value⟩ hrem.room
    have hvs : v.rxStore = s := by
      rw [← hadv]
      cases hrs : w.rx.store <;> simp [World.rxStore, World.popped, World.advance, World.setStore,
        World.setRx, World.emit, World.store, hrs]
    rw [hvr, hvs, ht]
    have hfin : Effect env P _ _ := .pubrec w e s t hkind hv hy hs ht
    have heq : ((v.setStore v.rx.store t).emit (.finished (v.setStore v.rx.store t).rx.internal.header.type
        (v.setStore v.rx.store t).rx.internal.packetId)).setRx {} =
        { (w.setStore w.rx.store t).setRx {} with
          log := .finished w.rx.internal.header.type w.rx.internal.packetId ::
            .popped .publish2 w.rx.internal.packetId e.value.req :: w.log } := by
      rw [← hadv, ← hek]
      simp only [World.popped, World.advance, World.setRx, World.emit]
      cases hrs : w.rx.store <;> simp [World.setStore, hrs]
    simp only [wp_set, wp_bind, wp_modify, wp_pure, heq]
    refine ⟨.of hfin, ?_, .empty, by simp, fun _ => rfl⟩
    refine (Framed.setStore w _ t).toSteady.trans ⟨rfl, rfl, ⟨[.finished w.rx.internal.header.type
      w.rx.internal.packetId, .popped .publish2 w.rx.internal.packetId e.value.req], ?_⟩, fun h => h, .inl rfl⟩
    rw [World.setStore_log]
    rfl
  · have hn : env.ndebug = true := by simpa using hdebug
    simp only [wp_bind, wp_modify, wp_pure]
    have hve : Effects env P w v := by
      rw [← hadv]
      exact hpop.trans (advance_effects env P _ n).1
    refine ⟨hve.then (.pubrecLost v hn ?_ ?_ ?_), ?_, .empty, by simp, fun _ => rfl⟩
    · rw [hsteady.error, hwe]
      intro h
      contradiction
    · rw [hvr]
      exact hkind
    · rw [hvr]
      exact hy
    · exact hsteady.trans ⟨rfl, rfl, ⟨[_], rfl⟩, fun h => h, .inl rfl⟩

/- The turn in which the second byte of a packet id is read. -/
theorem rxBufferDecodeId_turn (w : World σ) (d : Decoder) (hw : Sound w) (hs : RxShape w.rx.internal)
    (hf : w.rx.internal.headerFinished = true) (hd : w.rx.internal.decoder = some d)
    (hr : d.decodeRemaining = .withId) (hp : w.rx.internal.remainBufPos = 1)
    (he : w.rx.internal.error = none) (hwe : w.error = none)
    (hl : ∃ l, w.log = .packetId w.rx.internal.header.type w.rx.internal.packetId :: l)
    (hc : w.rx.store = .main → w.ops.publish = true) :
    Wp (popPacket d d.popPacketWithId >>= fun ok =>
        rxBufferDecodedBytes env (if ok then .continue else .error) 1) w
      (fun r w' => Turned env P w (∃ n, r = .failed n) w') fun _ w' => Effects env P w w' := by
  have hv : w.rx.internal.value = {} := hs.unread d hd hr (by omega)
  have htable := (hs.table hf).symm.trans hd
  obtain ⟨hmin, hpop⟩ := rxBufferDecoders_withId _ _ htable hr
  have hfail : ∀ e, Wp (rxBufferDecodedBytes env .error 1) (w.failRx e 0)
      (fun r w' => Turned env P w (∃ n, r = .failed n) w') fun _ w' => Effects env P w w' := by
    intro e
    have hx := Scratched.fail w e 0 trivial
    refine (rxBufferDecodedBytes_spec env P _ d .error 1 ((hx.effects env P).sound hw) ?_ hf hd
      (fun _ => hx.why trivial) (by simp) hwe (by simp)).mono (fun _ _ h => .after (hx.effects env P) hx.steady h)
      fun _ _ h => (hx.effects env P).trans h
    exact hs.of_kept hf (.inr (hx.why trivial)) (.inl (hs.calls he)) hx.rxKept
  rw [wp_bind]
  rcases hpop with hpop | ⟨hpop, hy, hkn⟩
  · rw [hpop]
    simp only [popPacket, wp_bind, wp_get]
    refine (rxBufferPopPacket_spec env P w d _ hd hv (fun _ _ _ => hl) hc).mono (fun ok t ht => ?_)
      fun _ _ h => h.elim
    obtain ⟨hte, htok, htno⟩ := ht
    cases ok with
    | false =>
      rw [htno rfl]
      exact hfail _
    | true =>
      obtain ⟨k, e, s, hk, hs', rfl⟩ := htok rfl
      have hke : e.kind = k := (hw.popped hs').1
      have hhk : w.rx.internal.kind = d.kind := by rw [RxInternal.kind, hd]; rfl
      simp only [if_true, rxBufferDecodedBytes, wp_bind, wp_modify]
      rw [← World.popped] at hte ⊢
      obtain ⟨hae, hast⟩ := advance_effects env P (w.popped w.rx.internal.packetId e s) 1
      have hsteady := (popped_steady w w.rx.internal.packetId e s).trans hast
      have hshape : RxShape { w.rx.internal with
          value := e.value, remainBufPos := w.rx.internal.remainBufPos + 1 } := by
        refine ⟨by simp [hf], hs.table, hs.long, fun hn => ?_, fun _ _ _ hlt => ?_, .inl (hs.calls he)⟩
        · have : w.rx.internal.kind = none := hn
          rw [hhk, hk] at this
          contradiction
        · simp only at hlt
          omega
      by_cases hk2 : d.kind = some .publish2
      · have hk2' : k = .publish2 := by
          rw [hk] at hk2
          exact Option.some.inj hk2
        rw [hk2'] at hs'
        have hy := (rxBufferDecoders_kind _ _ htable).1.mp hk2
        simp only [rxBufferEndTurn, wp_bind, wp_get]
        rw [show ((w.popped w.rx.internal.packetId e s).advance 1).rx.internal.decoder = some d from hd]
        refine wp_if (fun _ => ?_) fun _ => ⟨hte.trans hae, hsteady, hshape, by simp, fun _ => he⟩
        refine (wp_bind ..).mpr ((rxBufferFinishPacket_pubrec env P w d e s hd hk2 hv hy hwe hte hs' 1).mono
          (fun ok t ht => ?_) fun _ _ h => h)
        refine wp_if (fun hok => ?_) fun hok => ?_
        · exact ⟨ht.effects, ht.steady, ht.shape, by simp, fun _ => ht.calm (by simp [hok])⟩
        · exact ⟨ht.effects, ht.steady, ht.shape, fun _ => ht.why (by simpa using hok), by simp⟩
      · refine (rxBufferEndTurn_spec env P _ d 1 ((hte.trans hae).sound hw) hshape hf hd he
          (hsteady.error.trans hwe) (fun _ => hk2)
          fun _ hkr => ?_).mono (fun _ _ h => .after (hte.trans hae) hsteady h) fun _ _ h =>
          (hte.trans hae).trans h
        obtain ⟨l, hl⟩ := hl
        have hkr' : e.kind = .pubrel := by
          rw [hk] at hkr
          exact hke.trans (Option.some.inj hkr)
        refine ⟨l, ?_⟩
        change Event.popped e.kind w.rx.internal.packetId e.value.req :: (w.setStore w.rx.store s).log = _
        rw [World.setStore_log, hl, hkr']
        rfl
  · rw [hpop]
    simp only [popPacket, rxBufferPubrel, wp_bind, wp_get, wp_set]
    obtain ⟨l, hl⟩ := hl
    have hrel : Effect env P _ _ := .release w w.rx.internal.packetId ⟨l, by rw [hl, hy]⟩
    generalize hu : ({ w with rx := { w.rx with idSet := w.rx.idSet.remove w.rx.internal.packetId } } :
      World σ) = u at hrel ⊢
    have hur : u.rx.internal = w.rx.internal := by rw [← hu]
    have hus : u.rx.store = w.rx.store := by rw [← hu]
    have hust : Steady w u := by
      rw [← hu]
      exact ⟨rfl, rfl, ⟨[], rfl⟩, fun h => h, .inl rfl⟩
    have hend : ∀ v res, Effects env P w v → Steady w v → RxShape v.rx.internal →
        v.rx.internal.headerFinished = true → v.rx.internal.decoder = some d →
        (res = .error → v.rx.internal.error.isSome = true) →
        (res ≠ .error → v.rx.internal.error = none) →
        Wp (rxBufferDecodedBytes env res 1) v
          (fun r w' => Turned env P w (∃ n, r = .failed n) w') fun _ w' => Effects env P w w' := by
      intro v res hve hvst hvs hvf hvd hve' hvn
      exact (rxBufferDecodedBytes_spec env P v d res 1 (hve.sound hw) hvs hvf hvd hve' hvn
        (hvst.error.trans hwe) (fun _ => by rw [hkn]; simp)).mono (fun _ _ h => .after hve hvst h) fun _ _ h => hve.trans h
    split
    · rename_i t ht
      simp only [wp_bind, wp_set, wp_pure, if_true]
      have hack : Effect env P _ _ := .ack u ⟨.pubcomp, { packetId := w.rx.internal.packetId }⟩ t
        ⟨.inr (.inr rfl), rfl⟩ ht
      rw [hus] at hack
      have hrx : (u.setStore w.rx.store t).rx.internal = w.rx.internal := by
        rw [World.setStore_rx, hur]
      refine hend _ .continue ((Effects.of hrel).then hack)
        (hust.trans (Framed.setStore u _ t).toSteady) ?_ ?_ ?_ (by simp) fun _ => ?_
      · rw [hrx]
        exact hs
      · rw [hrx]
        exact hf
      · rw [hrx]
        exact hd
      · rw [hrx]
        exact he
    · simp only [wp_bind, wp_rxBufferFail, wp_pure]
      have hx := Scratched.fail u .decodePubrelIdSetFull 0 trivial
      rw [← hur] at hs hf hd
      refine hend _ .error ((Effects.of hrel).trans (hx.effects env P)) (hust.trans hx.steady) ?_ hf hd
        (fun _ => hx.why trivial) (by simp)
      exact hs.of_kept hf (.inr (hx.why trivial)) (.inl (hs.calls (hur ▸ he))) hx.rxKept

theorem rxBufferDecodeBodyTurn_spec (w : World σ) (d : Decoder) (bs : List Byte) (hw : Sound w)
    (hs : RxShape w.rx.internal) (hf : w.rx.internal.headerFinished = true)
    (hd : w.rx.internal.decoder = some d) (he : w.rx.internal.error = none) (hwe : w.error = none)
    (hc : w.rx.store = .main → w.ops.publish = true) :
    Wp (rxBufferDecodeBodyTurn env d bs) w (fun r w' => Turned env P w (∃ n, r = .failed n) w')
      fun _ w' => Effects env P w w' := by
  simp only [rxBufferDecodeBodyTurn, decodeRemaining, wp_bind]
  have hbytes := rxBufferDecodeRemainingWithoutId_turn env P w d bs hw hs hf hd he hwe
  cases hr : d.decodeRemaining with
  | withoutId => exact hbytes
  | withId =>
    simp only [rxBufferDecodeRemainingWithId, wp_bind, wp_get]
    refine wp_if (fun _ => hbytes) fun hpos => ?_
    refine wp_assert_bind (fun _ => ?_) fun _ => .refl
    simp only [wp_bind, wp_modify]
    have hread := readId_scratch w (bs.headD 0)
    have hue := hread.effects env P
    have hus := hs.of_kept hf (.inl he) (.inl (hs.calls he)) hread.rxKept
    have huerr : (w.readId (bs.headD 0)).rx.internal.error = none := he
    generalize w.readId (bs.headD 0) = u at hread hue hus huerr
    have huf := hread.headerFinished.trans hf
    have hud := hread.decoder.trans hd
    refine wp_if (fun hpos2 => ?_) fun hpos1 => ?_
    · simp only [wp_bind, wp_get, wp_emit]
      -- the packet id is complete
      have hnote : Effects env P w (u.emit (.packetId u.rx.internal.header.type u.rx.internal.packetId)) :=
        hue.then (.note u _ rfl)
      have hsteady : Steady w (u.emit (.packetId u.rx.internal.header.type u.rx.internal.packetId)) :=
        hread.steady.trans ⟨rfl, rfl, ⟨[_], rfl⟩, fun h => h, .inl rfl⟩
      have hturn := rxBufferDecodeId_turn env P _ d (hnote.sound hw) hus huf hud hr
        (hread.pos.trans (by omega)) huerr (hread.steady.error.trans hwe) ⟨u.log, rfl⟩ (by
          intro hm
          rw [hread.same] at hm ⊢
          exact hc hm)
      rw [wp_bind] at hturn
      refine hturn.mono (fun ok t ht => ?_) fun _ _ h => hnote.trans h
      cases ok
      · exact ht.mono (fun _ _ h => .after hnote hsteady h) fun _ _ h => hnote.trans h
      · exact ht.mono (fun _ _ h => .after hnote hsteady h) fun _ _ h => hnote.trans h
    · -- the first byte of the packet id: the packet goes on
      have hmin := (rxBufferDecoders_withId _ _ ((hus.table huf).symm.trans hud) hr).1
      obtain ⟨d', hd', hlen⟩ := hs.long hf he
      cases hd.symm.trans hd'
      have hnfin : ¬ rxBufferIsPacketFinished (u.advance 1).rx.internal = true := by
        simp only [rxBufferIsPacketFinished, World.advance, World.setRx, huf, hread.header, hread.pos,
          Bool.true_and, decide_eq_true_eq]
        omega
      simp only [rxBufferDecodedBytes, wp_bind, wp_modify, wp_pure]
      obtain ⟨hae, hast⟩ := advance_effects env P u 1
      exact (rxBufferEndTurn_spec env P _ d 1 ((hue.trans hae).sound hw) (hus.advance huf 1) huf hud huerr
        (hread.steady.error.trans hwe) (fun h => absurd h hnfin) fun h => absurd h hnfin).mono
        (fun _ _ h => .after (hue.trans hae) (hread.steady.trans hast) h) fun _ _ h => (hue.trans hae).trans h

/-- A turn of the loop. -/
theorem rxBufferDecodeTurn_spec (w : World σ) (bs : List Byte) (hw : Sound w)
    (hs : RxShape w.rx.internal) (he : w.rx.internal.error = none) (hwe : w.error = none)
    (hc : w.rx.store = .main → w.ops.publish = true) :
    Wp (rxBufferDecodeTurn env bs) w (fun r w' => Turned env P w (∃ n, r = .failed n) w')
      fun _ w' => Effects env P w w' := by
  simp only [rxBufferDecodeTurn, wp_bind, wp_get]
  split
  · rename_i hf hd
    exact rxBufferDecodeBodyTurn_spec env P w _ bs hw hs hf hd he hwe hc
  · rename_i hn
    refine rxBufferDecodeHeaderTurn_spec env P w _ hw hs ?_ he hwe hc
    by_contra hf
    have hf : w.rx.internal.headerFinished = true := by simpa using hf
    obtain ⟨d, hd, -⟩ := hs.long hf he
    exact hn d hf hd

/-! ### Calls of the decoder -/

/-- A state in which the client calls the decoder. -/
structure Decoding (w : World σ) : Prop where
  sound : Sound w
  shape : RxShape w.rx.internal
  alive : w.error = none
  requests : w.rx.store = .main → w.ops.publish = true

theorem Decoding.steady {w w' : World σ} (h : Decoding w) (hw : Sound w') (hs : RxShape w'.rx.internal)
    (hk : Steady w w') : Decoding w' := by
  refine ⟨hw, hs, hk.error.trans h.alive, fun hm => ?_⟩
  rcases hk.store with hr | ⟨-, -, ho⟩
  · exact hk.ops (h.requests (hr.symm.trans hm))
  · exact ho

/- What a call of the decoder does, and how it ends. -/
structure DecodedAll (w : World σ) (res : IoResult) (w' : World σ) : Prop where
  effects : Effects env P w w'
  steady : Steady w w'
  shape : RxShape w'.rx.internal
  failed : res = .error → w'.rx.internal.error.isSome = true

/- The end of a call, in a state `u` reached from `w`. -/
theorem rxBufferExit_spec (w u : World σ) (bufLen bytesRead : ℕ) (hu : Effects env P w u) (hk : Steady w u)
    (hs : RxShape u.rx.internal) :
    Wp (rxBufferExit bufLen bytesRead) u (fun r w' => DecodedAll env P w r.1 w')
      fun _ w' => Effects env P w w' := by
  simp only [rxBufferExit]
  refine wp_if (fun _ => ?_) fun _ => ⟨hu, hk, hs, fun h => ?_⟩
  · simp only [wp_bind, wp_modify, wp_pure]
    refine ⟨hu.then (.rx u _ ⟨rfl, .inr rfl, rfl⟩), hk.trans ⟨rfl, rfl, ⟨[], rfl⟩, fun h => h, .inl rfl⟩,
      ⟨fun hf => ?_, hs.table, hs.long, hs.idle, hs.unread, hs.uncalled⟩, by simp⟩
    have hi := hs.fresh hf
    simp only [World.setRx]
    rw [hi]
  · split at h <;> contradiction

theorem rxBufferDecodeLoop_spec (bufLen fuel : ℕ) (bs : List Byte) (bytesRead : ℕ) (w : World σ)
    (hw : Decoding w) (he : w.rx.internal.error = none) :
    Wp (rxBufferDecodeLoop env bufLen fuel bs bytesRead) w (fun r w' => DecodedAll env P w r.1 w')
      fun _ w' => Effects env P w w' := by
  induction fuel generalizing bs bytesRead w with
  | zero =>
    unfold rxBufferDecodeLoop
    split
    · exact rxBufferExit_spec env P w w _ _ .refl (.refl w) hw.shape
    · exact Effects.refl
    · contradiction
  | succ fuel ih =>
    unfold rxBufferDecodeLoop
    split
    · exact rxBufferExit_spec env P w w _ _ .refl (.refl w) hw.shape
    · contradiction
    · rename_i hfuel _
      cases hfuel
      rw [wp_bind]
      refine (rxBufferDecodeTurn_spec env P w _ hw.sound hw.shape he hw.alive hw.requests).mono
        (fun r t ht => ?_) fun _ _ h => h
      cases r with
      | read count =>
        have hdec := hw.steady (ht.effects.sound hw.sound) ht.shape ht.steady
        refine (ih _ _ t hdec (ht.calm (by simp))).mono (fun _ _ h => ?_) fun _ _ h => ht.effects.trans h
        exact ⟨ht.effects.trans h.effects, ht.steady.trans h.steady, h.shape, h.failed⟩
      | blocked => exact rxBufferExit_spec env P w t _ _ ht.effects ht.steady ht.shape
      | failed count => exact ⟨ht.effects, ht.steady, ht.shape, fun _ => ht.why ⟨count, rfl⟩⟩

theorem lmqttRxBufferDecode_spec (w : World σ) (bs : List Byte) (hw : Decoding w) :
    Wp (lmqttRxBufferDecode env bs) w (fun r w' => DecodedAll env P w r.1 w')
      fun _ w' => Effects env P w w' := by
  simp only [lmqttRxBufferDecode, wp_bind, wp_get]
  refine wp_if (fun h => ⟨.refl, .refl w, hw.shape, fun _ => h⟩) fun h => ?_
  exact rxBufferDecodeLoop_spec env P _ _ bs 0 w hw (by simpa using h)

end LightMqtt
