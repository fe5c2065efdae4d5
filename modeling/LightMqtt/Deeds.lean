import LightMqtt.Turns
import LightMqtt.Sources
import LightMqtt.DecodeFrame

/-!
# What a step does

Every step of a run is quiet work, or one of a few deeds: a part of a packet is
sent or received, or the client changes its state. Laws about runs are proved
deed by deed.
-/

namespace LightMqtt

open Exec

variable {σ : Type} {env : Env σ}

/-! ### Sending -/

/- The store behind the entry `e` that was sent: it waits for its response, or is gone. -/
def Store.depart (s : Store) (e : Entry) : Store := if e.kind.expectsResponse then s.markCurrent else s.dropCurrent

/- The state in which the last field of the entry `e` is behind the encoder. -/
def World.departed (w : World σ) (e : Entry) : World σ :=
  { (w.emit (.encoded e.kind e.value.packetId e.value.req)).setStore w.tx.store (w.txStore.depart e) with
    heap := w.heap.counted e }

/-- A field of the entry `e` is encoded. -/
structure FieldSent (w : World σ) (e : Entry) (w' : World σ) : Prop where
  same : w' = { w with
    heap := w'.heap, app := w'.app, tx := { w.tx with internal := w'.tx.internal }
    log := .encode e.kind e.value.packetId e.value.req w.tx.internal.pos :: w.log }
  heap : w'.heap.still = w.heap.still

/-- Quiet work beside the connection: the connect store, and the request that the
decoder holds, are as they were. -/
structure Aside (w w' : World σ) : Prop extends Still w w' where
  connects : w.connectStore.SameQueue w'.connectStore
  value : w'.rx.internal.value = w.rx.internal.value

theorem Aside.refl (w : World σ) : Aside w w := ⟨.refl w, .refl _, rfl⟩

theorem Aside.trans {w w' w'' : World σ} (h : Aside w w') (h' : Aside w' w'') : Aside w w'' :=
  ⟨h.toStill.trans h'.toStill, h.connects.trans h'.connects, h'.value.trans h.value⟩

theorem Called.aside {w w' : World σ} (h : Called w w') : Aside w w' := by
  have hs := h.same
  refine ⟨h.still, ?_, ?_⟩
  · rw [hs]
    exact .refl _
  · rw [hs]

/-- The entry `e` is sent; its callback may have been called. -/
def EntrySent (w : World σ) (e : Entry) (w' : World σ) : Prop :=
  ∃ u, Aside (w.departed e) u ∧
    w' = { u with tx := { u.tx with closed := e.kind = .disconnect, internal := w'.tx.internal } }

/- A callback that does not open the client. -/
theorem callValue_aside (w : World σ) (v : Value) (h : v.callback = some .onConnack → w.closed = true) :
    Wp (callValue env v) w (fun _ w' => Aside w w') fun _ _ => False :=
  (callCallback_other env (fun _ => True) env.fuel v w h).mono
    (fun _ _ hu => Aside.trans ⟨.answered w v, .refl _, rfl⟩ (hu.called h).aside) fun _ _ hu => hu

theorem encoderFrame_objects : EncoderFrame (SameObjects (σ := σ)) :=
  ⟨.refl, fun _ _ => rfl, fun _ _ => rfl, fun w r pos hr => setStr_still w r pos hr⟩

/- The encoder of a field, and what the loop notes of it. -/
theorem txBufferField_sent (w t : World σ) (e : Entry) (x : Encoder) (bufLen : ℕ) (hf : Found w e x t) :
    Wp (txBufferField env e x bufLen) t (fun _ w' => FieldSent w e w') fun _ _ => True := by
  simp only [txBufferField, wp_bind, wp_get, wp_emit]
  have hpos : t.tx.internal.pos = w.tx.internal.pos := by rw [hf.tx]
  have hscr := hf.scratch.same
  refine ((runEncoder_within env _ e.value _ bufLen x).and
    (runEncoder_keeps env encoderFrame_objects _ e.value _ bufLen x)).mono (fun r u hu => ?_) fun _ _ _ => trivial
  obtain ⟨hu, ho⟩ := hu
  have hsame := hu.same
  have hsent : ∀ i : TxInternal, FieldSent w e (u.setTx i) := by
    intro i
    refine ⟨?_, ho.trans hf.heap⟩
    rw [hsame, hscr, ← hpos]
    rfl
  obtain ⟨res, bytes⟩ := r
  cases res with
  | wouldBlock => exact hsent u.tx.internal
  | _ => exact hsent _

/- The end of an entry. -/
theorem txBufferFinishEntry_sent (w : World σ) (e : Entry) (hw : Sound w) (hp : w.txStore.peek = some e)
    (hc : w.tx.closed = false) :
    Wp (txBufferFinishEntry env e) { w with heap := w.heap.counted e } (fun _ w' => EntrySent w e w') fun _ _ => True := by
  obtain ⟨rest, hpend⟩ := Store.pending_of_peek hp
  have hfit := hw.entries w.tx.store e (Store.dropCurrent_spec _ _ _ hpend).mem
  have htyped : e.WellTyped := by
    cases hs : w.tx.store <;> rw [hs] at hfit <;> exact hfit.1
  obtain ⟨v, hv⟩ : ∃ v, v = ({ w with heap := w.heap.counted e } : World σ).emit
    (.encoded e.kind e.value.packetId e.value.req) := ⟨_, rfl⟩
  have hvt : v.tx = w.tx := by rw [hv]; rfl
  have hvs : v.txStore = w.txStore := by
    rw [hv]
    exact World.store_emit ({ w with heap := w.heap.counted e } : World σ) w.tx.store _
  -- the entry leaves the pending part of its store
  have hdep : v.setStore w.tx.store (w.txStore.depart e) = w.departed e := by
    rw [hv]
    unfold World.departed
    cases w.tx.store <;> rfl
  have hdc : (w.departed e).tx = w.tx := by rw [← hdep, World.setStore_tx, hvt]
  simp only [txBufferFinishEntry, lmqttTxBufferReset, lmqttTxBufferFinish, wp_bind, wp_emit, wp_get]
  rw [← hv, hvt, hvs]
  refine wp_if (fun hr => ?_) fun hr => ?_
  · have hd : w.txStore.dropCurrent = w.txStore.depart e := by
      rw [Store.depart, if_neg (by simpa using hr)]
    rw [hd]
    simp only [wp_bind, wp_set]
    rw [hdep]
    refine wp_if (fun hk => ?_) fun hk => ?_
    · simp only [wp_bind, wp_modify, wp_pure]
      refine ⟨w.departed e, .refl _, ?_⟩
      simp only [World.finishTx, hk, decide_true]
    · have hcb : e.value.callback = some .onConnack → (w.departed e).closed = true := by
        intro hcb
        have hkc : e.kind = .connect := Kind.eq_connect (htyped.callback.symm.trans hcb)
        rw [hkc] at hr
        contradiction
      -- what is left to do when the callback has returned
      have hend : ∀ ok u, Aside (w.departed e) u → Wp (if (!ok) = true then do
            assert env (e.kind = .publish0)
            txBufferFail (some .callbackPublish) 0
            pure false
          else do
            modify World.resetTx
            pure true : Prog σ Bool) u (fun _ w' => EntrySent w e w') fun _ _ => True := by
        intro ok u hu
        have huc : u.tx.closed = false := by
          rw [hu.same]
          exact (congrArg TxBuffer.closed hdc).trans hc
        refine wp_if (fun _ => wp_assert_bind (fun _ => ⟨u, hu, ?_⟩) fun _ => trivial) fun _ => ⟨u, hu, ?_⟩
        · simp only [World.setTx, hk, decide_false, ← huc]
        · simp only [World.resetTx, hk, decide_false]
      split
      · exact (wp_bind ..).mpr ((callValue_aside (w.departed e) e.value hcb).mono (fun ok u hu => hend ok u hu)
          fun _ _ h => h.elim)
      · exact hend true _ (.refl _)
  · have hd : w.txStore.markCurrent = w.txStore.depart e := by
      rw [Store.depart, if_pos (by simpa using hr)]
    have hk : e.kind ≠ .disconnect := by
      intro hk
      rw [hk] at hr
      contradiction
    rw [hd]
    simp only [wp_bind, wp_set, wp_modify, wp_pure]
    rw [hdep]
    refine ⟨w.departed e, .refl _, ?_⟩
    simp only [World.resetTx, hk, decide_false]

/-! ### Steps -/

/- Steps that are never quiet: a turn of the decoder, a failure, the end of the stream,
   a reset that has an effect, and the end of the client. -/
def Step.Loud (w : World σ) : Step σ → Prop
  | read _ => True
  | call .eof | call (.fail ..) | call .finalize => True
  | call .reset => w.closed = true ∧ w.error ≠ some .closed
  | _ => False

/-- What a step does. -/
inductive Does (env : Env σ) (w : World σ) : Step σ → World σ → Prop
  | still {s w'} (h : Aside w w') (hs : ¬ s.Loud w := by simp [Step.Loud]) : Does env w s w'
  | deed {bs w'} (h : Deed env bs w w') : Does env w (.read bs) w'
  | field {bufLen w'} (e : Entry) (hc : w.tx.closed = false) (hp : w.txStore.peek = some e) (h : FieldSent w e w') :
    Does env w (.send bufLen) w'
  | entry {bufLen w'} (e : Entry) (hc : w.tx.closed = false) (hp : w.txStore.peek = some e) (h : EntrySent w e w') :
    Does env w (.send bufLen) w'
  /- `lmqtt_client_connect` accepts a connect -/
  | connecting (p : Ptr) (s : Store) (ho : w.ops.connect = true)
    (hs : w.connectStore.append
      ⟨.connect, { value := p, callback := some .onConnack, req := some w.nextReq }⟩ = some s) :
    Does env w (.call (.connect p)) { w with
      connectStore := s
      nextReq := w.nextReq + 1
      log := .connecting w.nextReq p :: w.log
      error := none
      osError := 0
      closed := false
      rx := { w.rx with internal := {} }
      tx := { w.tx with closed := false, internal := {} }
      readBuf := []
      writeBuf := []
      ops := { w.ops with connect := false } }
  /- the end of the stream, or a reset -/
  | reverted {a w'} (ha : a = .eof ∨ a = .reset ∧ w.closed = true ∧ w.error ≠ some .closed) (h : Reverted w w') :
    Does env w (.call a) w'
  | failed (e : Error) (osError : ℤ) :
    Does env w (.call (.fail e osError)) { w with error := some e, osError := osError, closed := true, ops := {} }
  | finalized {w'} (h : Finalized w w') : Does env w (.call .finalize) w'

theorem txBufferTurn_does (w : World σ) (bufLen : ℕ) (hw : Sound w) :
    Wp (txBufferTurn env bufLen) w (fun _ w' => Does env w (.send bufLen) w') fun _ _ => True := by
  cases hc : w.tx.closed with
  | true =>
    simp only [txBufferTurn, wp_bind, wp_get, hc, if_true]
    exact .still (.refl w)
  | false =>
    cases hp : w.txStore.peek with
    | none =>
      simp only [txBufferTurn, wp_bind, wp_get, hc, hp]
      exact .still (.refl w)
    | some e =>
      refine wp_of_ok fun _ w' h => ?_
      rw [txBufferTurn_entry bufLen hc hp] at h
      obtain ⟨found, t, hfind, h⟩ := ok_bind h
      rcases txBufferFinder_ok hfind with ⟨x, rfl, hx⟩ | ⟨rfl, -, rfl⟩
      · have hsent := wp_ok (txBufferField_sent w t e x bufLen hx) h
        exact .field e hc hp hsent
      · obtain ⟨ok, u, hfin, h⟩ := ok_bind h
        have hsent := wp_ok (txBufferFinishEntry_sent w e hw hp hc) hfin
        rw [← (ok_pure h).2]
        exact .entry e hc hp hsent

theorem Aside.app (w : World σ) (a : σ) : Aside w { w with app := a } := ⟨.app w a, .refl _, rfl⟩

theorem currentTimeout_aside (w : World σ) :
    Wp (currentTimeout env) w (fun _ w' => Aside w w') fun _ _ => False := by
  refine (currentTimeout_spec w).mono (fun _ w' h => ?_) fun _ _ h => h
  obtain ⟨a, rfl⟩ := h
  exact .app w a

/- A store is replaced by one with the same queue. -/
theorem Aside.requeue (w : World σ) (r : StoreRef) (s : Store) (hs : (w.store r).SameQueue s) :
    Aside w (w.setStore r s) := by
  cases r with
  | main => exact ⟨⟨rfl, rfl, .of_log rfl, fun _ => .refl _⟩, .refl _, rfl⟩
  | connect => exact ⟨⟨rfl, rfl, .of_log rfl, fun _ => hs⟩, hs, rfl⟩

theorem rxBufferExit_aside (w : World σ) (bufLen bytesRead : ℕ) :
    Wp (rxBufferExit bufLen bytesRead) w (fun _ w' => Aside w w') fun _ _ => True := by
  simp only [rxBufferExit]
  exact wp_if (fun _ => ⟨.setRx w _, .refl _, rfl⟩) fun _ => .refl w

/-- Every step does one of the deeds. -/
theorem step_does (w : World σ) (s : Step σ) (hw : Live w) (hs : s.Enabled (fun _ => True) w) :
    Wp (s.run env) w (fun _ w' => Does env w s w') fun _ _ => True := by
  cases s with
  | send bufLen => exact txBufferTurn_does w bufLen hw.sound
  | exit bufLen bytesRead =>
    exact (wp_bind ..).mpr ((rxBufferExit_aside w bufLen bytesRead).mono (fun _ _ h => .still h) fun _ _ h => h)
  | read bs =>
    obtain ⟨hwe, he, -⟩ := hs
    have hdec := hw.decoding hwe
    exact (wp_bind ..).mpr ((rxBufferDecodeTurn_frame env w bs hw.sound hdec.shape he hwe hdec.requests).mono
      (fun _ _ h => .deed h) fun _ _ h => h)
  | call a =>
    obtain ⟨hcall, ha⟩ := hs
    cases a with
    | request q =>
      exact (wp_bind ..).mpr ((doRequest_called env (fun _ => True) w q).mono (fun _ _ h => .still h.1.aside)
        fun _ _ h => h.elim)
    | pingreq =>
      simp only [Step.run, Act.run, lmqttClientPingreq, wp_bind, wp_get]
      refine wp_if (fun _ => ?_) fun _ => .still (.refl w)
      exact (clientDoPingreq_called env (fun _ => True) w).mono (fun _ _ h => .still h.1.aside) fun _ _ h => h.elim
    | connect p =>
      simp only [Step.run, Act.run, lmqttClientConnect, clientDoConnect, clientSetStateConnecting, lmqttRxBufferReset,
        lmqttTxBufferReset, wp_bind, wp_get]
      refine wp_if (fun ho => ?_) fun _ => .still (.refl w)
      refine wp_if (fun _ => .still (.refl w)) fun _ => ?_
      split
      · exact .still (.refl w)
      · rename_i s hs
        exact .connecting p s ho hs
    | reset =>
      simp only [Step.run, Act.run, lmqttClientReset, resetWith, wp_bind, wp_get]
      refine wp_if (fun h => ?_) fun h => .still (.refl w) (by simpa [Step.Loud] using h)
      have h : w.closed = true ∧ w.error ≠ some .closed := by simpa using h
      exact (clientSetStateInitial_reverted w hw.sound h.2).mono (fun _ _ hr => .reverted (.inr ⟨rfl, h⟩) hr) fun _ _ h => h
    | eof =>
      have hn : w.error ≠ some .closed := by rw [show w.error = none from ha]; simp
      exact (clientSetStateInitial_reverted w hw.sound hn).mono (fun _ _ hr => .reverted (.inl rfl) hr) fun _ _ h => h
    | finalize => exact (lmqttClientFinalize_finalized w hw.sound).mono (fun _ _ h => .finalized h) fun _ _ h => h
    | setDefaultTimeout secs =>
      exact .still ((Aside.requeue w .main { w.mainStore with timeout := secs } ⟨rfl, rfl, rfl⟩).trans
        (.requeue _ .connect { w.connectStore with timeout := secs } ⟨rfl, rfl, rfl⟩))
    | getTimeout =>
      simp only [Step.run, Act.run, lmqttClientGetTimeout, wp_bind]
      exact (currentTimeout_aside w).mono (fun _ _ h => .still h) fun _ _ h => h.elim
    | currentTimeout =>
      exact (wp_bind ..).mpr ((currentTimeout_aside w).mono (fun _ _ h => .still h) fun _ _ h => h.elim)
    | touch r =>
      refine (storeTouch_effects env (fun _ => True) w r).mono (fun _ w' h => ?_) fun _ _ h => h.elim
      rw [h.2]
      exact .still ((Aside.requeue w r ((w.store r).touch (env.getTime w.app).2) ⟨rfl, rfl, rfl⟩).trans (.app _ _))
    | transfer app readBuf writeBuf => exact .still ⟨⟨rfl, rfl, .of_log rfl, fun _ => .refl _⟩, .refl _, rfl⟩
    | fail e osError =>
      refine (clientSetStateFailed_spec env w e osError).mono (fun _ w' h => ?_) fun _ _ h => h.elim
      subst h
      exact .failed e osError
    | decode bs => contradiction
    | encode bufLen => contradiction

/-! ### The client between two deeds -/

/- Events of the client's state, and of the encoder. -/
def Event.isWire : Event → Bool
  | .connecting .. | .connected _ | .closed | .encode .. | .encoded .. => true
  | _ => false

theorem Event.not_isWire_of_inner {ev : Event} (h : ev.isInner = true) : ev.isWire = false := by
  cases ev <;> first | rfl | contradiction

/-- The client is in the same state, and nothing is sent; messages may have been
delivered and released. -/
structure Unmoved (w w' : World σ) : Prop where
  same : w' = { w with
    heap := w'.heap, app := w'.app, log := w'.log, nextReq := w'.nextReq, ids := w'.ids, mainStore := w'.mainStore
    connectStore := w'.connectStore, readBuf := w'.readBuf, writeBuf := w'.writeBuf
    rx := { w.rx with internal := w'.rx.internal, idSet := w'.rx.idSet } }
  log : Logged (fun ev => ev.isWire = false) w w'
  reserved : w.Reserved → w.connectStore.SameQueue w'.connectStore

section Unmoved
variable {w w' w'' : World σ}

theorem Unmoved.trans (h : Unmoved w w') (h' : Unmoved w' w'') : Unmoved w w'' := by
  refine ⟨?_, h.log.trans h'.log, fun hr => ?_⟩
  · rw [h'.same, h.same]
  · have hq := h.reserved hr
    exact hq.trans (h'.reserved (hr.same hq))

theorem Still.unmoved (h : Still w w') : Unmoved w w' := by
  have hs := h.same
  refine ⟨?_, h.log.mono fun ev he => Event.not_isWire_of_inner he, h.reserved⟩
  rw [hs]

theorem Unmoved.setIds (w : World σ) (s : IdSet) : Unmoved w (w.setIds s) := ⟨rfl, .of_log rfl, fun _ => .refl _⟩

theorem Received.unmoved {res : DecodeResult} (h : Received w res w') : Unmoved w w' := by
  cases h with
  | known hq hc h => exact h.unmoved
  | full hq hc hp hr he h => exact h.unmoved
  | taken s u v x hs hu hv hx h =>
    have hvx : Unmoved v x := by
      rcases hx with rfl | ⟨b, rfl⟩
      · exact (Still.refl x).unmoved
      · exact ⟨rfl, .one rfl rfl, fun _ => .refl _⟩
    exact ((hu.unmoved.trans (.setIds u s)).trans hv.unmoved).trans (hvx.trans h.unmoved)

end Unmoved

/- The start of a run. -/
theorem start_reverted {buffers : ClientBuffers} {heap : Heap} {app : σ} {w : World σ}
    (h : lmqttClientInitialize env (clientCleared buffers heap app) = .ok () w) :
    Reverted (clientCleared buffers heap app) w := by
  have hne : (clientCleared buffers heap app).error ≠ some .closed := by simp [clientCleared]
  have hspec : Exec.Wp (clientSetStateInitial env) _ _ _ :=
    clientSetStateInitial_reverted _ (clientCleared_sound buffers heap app) hne
  have hr := wp_ok hspec h
  exact hr

end LightMqtt
