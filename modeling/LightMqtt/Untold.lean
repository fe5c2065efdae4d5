import LightMqtt.Deeds

/-!
# Who calls the message callbacks

Nothing but the decoder of a PUBLISH calls the callbacks that allocate, take and
release a message. The rest of the client does not touch the packet that is
being read either.
-/

namespace LightMqtt

open Exec

variable {σ : Type} (env : Env σ)

/-! ### Calls of the message callbacks -/

def Event.ofMessage : Event → Bool
  | .allocate .. | .message .. | .deallocate => true
  | _ => false

/- The calls so far, newest first. -/
def World.told (w : World σ) : List Event := w.log.filter Event.ofMessage

theorem told_quiet {w w' : World σ} (h : Logged (fun ev => ev.ofMessage = false) w w') : w'.told = w.told := by
  obtain ⟨evs, hl, he⟩ := h
  have hnone : evs.filter Event.ofMessage = [] := by
    rw [List.filter_eq_nil_iff]
    intro ev hev
    simp [he ev hev]
  unfold World.told
  rw [hl, List.filter_append, hnone, List.nil_append]

@[simp] theorem told_emit (w : World σ) (ev : Event) :
    (w.emit ev).told = if ev.ofMessage then ev :: w.told else w.told := by
  unfold World.told World.emit
  exact List.filter_cons

@[simp] theorem told_setRx (w : World σ) (i : RxInternal) : (w.setRx i).told = w.told := rfl

@[simp] theorem told_setStore (w : World σ) (r : StoreRef) (s : Store) : (w.setStore r s).told = w.told := by
  cases r <;> rfl

/-- No message callback was called, and the packet that is being read is as it was. -/
structure Outside (w w' : World σ) : Prop where
  told : w'.told = w.told
  rx : w'.rx.internal = w.rx.internal

section Outside
variable {w w' w'' : World σ}

theorem Outside.refl (w : World σ) : Outside w w := ⟨rfl, rfl⟩

theorem Outside.trans (h : Outside w w') (h' : Outside w' w'') : Outside w w'' :=
  ⟨h'.told.trans h.told, h'.rx.trans h.rx⟩

instance : IsTrans (World σ) Outside := ⟨fun _ _ _ => Outside.trans⟩

theorem Outside.emit (w : World σ) (ev : Event) (h : ev.ofMessage = false) : Outside w (w.emit ev) := by
  refine ⟨?_, rfl⟩
  rw [told_emit, h]
  rfl

theorem Outside.setStore (w : World σ) (r : StoreRef) (s : Store) : Outside w (w.setStore r s) :=
  ⟨told_setStore w r s, by cases r <;> rfl⟩

theorem TxScratch.outside (h : TxScratch w w') : Outside w w' := by
  rw [h.same]
  exact ⟨rfl, rfl⟩

end Outside

/-! ### Requests and callbacks -/

/-- The log grew by no call of a message callback, and the packet that is being read is
as it was. -/
structure Untouched (w w' : World σ) : Prop where
  log : Logged (fun ev => ev.ofMessage = false) w w'
  rx : w'.rx.internal = w.rx.internal

section Untouched
variable {w w' w'' : World σ}

theorem Untouched.refl (w : World σ) : Untouched w w := ⟨.refl, rfl⟩

theorem Untouched.trans (h : Untouched w w') (h' : Untouched w' w'') : Untouched w w'' :=
  ⟨h.log.trans h'.log, h'.rx.trans h.rx⟩

instance : IsTrans (World σ) Untouched := ⟨fun _ _ _ => Untouched.trans⟩

theorem Untouched.emit (w : World σ) (ev : Event) (h : ev.ofMessage = false) : Untouched w (w.emit ev) :=
  ⟨.one rfl h, rfl⟩

theorem Untouched.setStore (w : World σ) (r : StoreRef) (s : Store) : Untouched w (w.setStore r s) := by
  cases r <;> exact ⟨.of_log rfl, rfl⟩

theorem Called.untouched (h : Called w w') : Untouched w w' := by
  obtain ⟨evs, hl, he⟩ := h.log
  refine ⟨⟨evs, hl, fun ev hev => ?_⟩, ?_⟩
  · obtain ⟨r, k, id, p, u, -, rfl⟩ := he ev hev
    rfl
  · rw [h.same]

theorem Untouched.outside (h : Untouched w w') : Outside w w' := ⟨told_quiet h.log, h.rx⟩

end Untouched

include env in
theorem doRequests_untouched (w : World σ) (qs : List Request) : Within Untouched (doRequests qs) w :=
  (doRequests_called env (fun _ => True) w qs).mono (fun _ _ h => h.1.untouched) fun _ _ h => h.elim

include env in
theorem callUser_untouched (w : World σ) (f : Option (σ → Ptr → Bool → Reply σ)) (cb : Callback) (v : Value) (b : Bool) :
    Within Untouched (callUser doRequests f cb v b) w :=
  (callUser_called env (fun _ => True) w f cb v b).mono
    (fun _ _ h => (Untouched.emit w _ rfl).trans h.1.untouched) fun _ _ h => h.elim

section Flush
variable {call : Value → Prog σ Bool} (hcall : ∀ v w, Within Untouched (call v) w)
include hcall

theorem clientFlushStore_untouched (r : StoreRef) (fuel : ℕ) (w : World σ) :
    Within Untouched (clientFlushStore call r fuel) w := by
  induction fuel generalizing w with
  | zero =>
    refine within_get_bind w _ (within_ite w _ _ _ (fun _ => ?_) fun _ => within_pure w (.refl w) _)
    exact within_throw w (.refl w) _
  | succ fuel ih =>
    refine within_get_bind w _ ?_
    split
    · exact within_pure w (.refl w) _
    · refine within_bind w _ _ (within_set w _ (.setStore w r _)) fun _ t _ => ?_
      refine within_ite t _ _ _ (fun _ => ?_) fun _ => ih t
      exact within_bind t _ _ (hcall _ t) fun _ u _ => ih u

theorem clientCleanupStores_untouched (keep : Bool) (w : World σ) :
    Within Untouched (clientCleanupStores env call keep) w := by
  have hlast := clientFlushStore_untouched hcall .connect env.fuel
  refine within_ite w _ _ _ (fun _ => ?_) fun _ => ?_
  · exact within_bind w _ _ (within_modify w _ ⟨.of_log rfl, rfl⟩) fun _ t _ => hlast t
  · refine within_bind w _ _ (clientFlushStore_untouched hcall .main env.fuel w) fun _ t _ => ?_
    exact within_bind t _ _ (within_modify t _ ⟨.of_log rfl, rfl⟩) fun _ u _ => hlast u

theorem clientSetStateConnected_untouched (w : World σ) : Within Untouched (clientSetStateConnected env call) w := by
  refine within_bind w _ _ (within_modify w _ ⟨.one rfl rfl, rfl⟩) fun _ t _ => ?_
  refine within_bind t _ _ (within_modify t _ ⟨.of_log rfl, rfl⟩) fun _ u _ => within_get_bind u _ ?_
  refine within_bind u _ _ (clientCleanupStores_untouched env hcall _ u) fun _ v _ => ?_
  exact within_modify v _ ⟨.of_log rfl, rfl⟩

end Flush

theorem callCallback_untouched (depth : ℕ) (v : Value) (w : World σ) : Within Untouched (callCallback env depth v) w := by
  induction depth generalizing v w with
  | zero =>
    rw [callCallback_requests]
    refine within_get_bind w _ ?_
    split <;> try exact within_pure w (.refl w) _
    · refine within_ite w _ _ _ (fun _ => callUser_untouched env w _ _ v _) fun _ => within_throw w (.refl w) _
    all_goals exact callUser_untouched env w _ _ v _
  | succ depth ih =>
    rw [callCallback_requests]
    refine within_get_bind w _ ?_
    split <;> try exact within_pure w (.refl w) _
    · refine within_ite w _ _ _ (fun _ => callUser_untouched env w _ _ v _) fun _ => ?_
      refine within_bind w _ _ (within_set w _ ⟨.of_log rfl, rfl⟩) fun _ t _ => ?_
      refine within_bind t _ _ (clientSetStateConnected_untouched env ih t) fun _ u _ => ?_
      exact callUser_untouched env u _ _ v _
    all_goals exact callUser_untouched env w _ _ v _

theorem callValue_untouched (v : Value) (w : World σ) : Within Untouched (callValue env v) w :=
  callCallback_untouched env env.fuel v w

include env in
theorem doRequests_outside (w : World σ) (qs : List Request) : Within Outside (doRequests qs) w :=
  (doRequests_untouched env w qs).mono (fun _ _ h => h.outside) fun _ _ h => h.outside

include env in
theorem doRequest_outside (w : World σ) (q : Request) : Within Outside (doRequest q) w :=
  (doRequest_called env (fun _ => True) w q).mono (fun _ _ h => h.1.untouched.outside) fun _ _ h => h.elim

theorem callValue_outside (v : Value) (w : World σ) : Within Outside (callValue env v) w :=
  (callValue_untouched env v w).mono (fun _ _ h => h.outside) fun _ _ h => h.outside

theorem clientCleanupStores_outside (keep : Bool) (w : World σ) :
    Within Outside (clientCleanupStores env (callValue env) keep) w :=
  (clientCleanupStores_untouched env (callValue_untouched env) keep w).mono (fun _ _ h => h.outside) fun _ _ h => h.outside

/-! ### Steps other than a turn of the decoder -/

/-- The message that is being read is as it was, and no message callback was called. -/
structure Beside (w w' : World σ) : Prop where
  told : w'.told = w.told
  rx : w'.rx.internal = { w.rx.internal with blockingStr := w'.rx.internal.blockingStr, calls := w'.rx.internal.calls }

section Beside
variable {w w' w'' : World σ}

theorem Outside.beside (h : Outside w w') : Beside w w' := by
  refine ⟨h.told, ?_⟩
  rw [h.rx]

theorem Beside.trans (h : Beside w w') (h' : Beside w' w'') : Beside w w'' := by
  refine ⟨h'.told.trans h.told, ?_⟩
  rw [h'.rx, h.rx]

instance : IsTrans (World σ) Beside := ⟨fun _ _ _ => Beside.trans⟩

end Beside

theorem storeTouch_outside (r : StoreRef) (w : World σ) : Within Outside (storeTouch env r) w :=
  within_modify w _ ⟨told_setStore w r _, (Outside.setStore w r _).rx⟩

theorem clientSetStateInitial_outside (w : World σ) : Within Outside (clientSetStateInitial env) w := by
  refine within_bind w _ _ (within_modify w _ ⟨rfl, rfl⟩) fun _ t _ => ?_
  refine within_bind t _ _ (storeTouch_outside env .connect t) fun _ u _ => ?_
  refine within_bind u _ _ (within_modify u _ ⟨rfl, rfl⟩) fun _ v _ => within_get_bind v _ ?_
  refine within_bind v _ _ (clientCleanupStores_outside env _ v) fun _ x _ => ?_
  exact within_bind x _ _ (within_modify x _ ⟨rfl, rfl⟩) fun _ y _ => within_modify y _ ⟨rfl, rfl⟩

theorem clientSetStateFailed_outside (w : World σ) : Within Outside (clientSetStateFailed env) w := by
  refine within_get_bind w _ (within_bind w _ _ ?_ fun _ t _ => within_modify t _ ⟨rfl, rfl⟩)
  exact within_ite w _ _ _ (fun _ => within_pure w (.refl w) _) fun _ => within_throw w (.refl w) _

theorem txBufferNote_outside (count : ℕ) (res : EncodeResult) (w : World σ) :
    Within Outside (txBufferNote count res) w := by
  cases res with
  | wouldBlock => exact within_pure w (.refl w) _
  | error => exact within_get_bind w _ (within_modify w _ ⟨rfl, rfl⟩)
  | _ => exact within_modify w _ ⟨rfl, rfl⟩

theorem txBufferFinishEntry_outside (e : Entry) (w : World σ) : Within Outside (txBufferFinishEntry env e) w := by
  -- what is left to do when the callback has returned
  have hend : ∀ (ok : Bool) v, Within Outside (if (!ok) = true then do
        assert env (e.kind = .publish0)
        txBufferFail (some .callbackPublish) 0
        pure false
      else do
        lmqttTxBufferReset
        pure true : Prog σ Bool) v := by
    intro ok v
    refine within_ite v _ _ _ (fun _ => within_bind v _ _ ?_ fun _ x _ => ?_) fun _ => ?_
    · exact within_ite v _ _ _ (fun _ => within_pure v (.refl v) _) fun _ => within_throw v (.refl v) _
    · exact within_bind x _ _ (within_modify x _ ⟨rfl, rfl⟩) fun _ y _ => within_pure y (.refl y) _
    · exact within_bind v _ _ (within_modify v _ ⟨rfl, rfl⟩) fun _ x _ => within_pure x (.refl x) _
  refine within_bind w _ _ (within_modify w _ (.emit w _ rfl)) fun _ t _ => within_get_bind t _ ?_
  refine within_ite t _ _ _ (fun _ => ?_) fun _ => ?_
  · refine within_bind t _ _ (within_set t _ (.setStore t _ _)) fun _ u _ => ?_
    refine within_ite u _ _ _ (fun _ => ?_) fun _ => within_ite u _ _ _ (fun _ => ?_) fun _ => hend true u
    · exact within_bind u _ _ (within_modify u _ ⟨rfl, rfl⟩) fun _ v _ => within_pure v (.refl v) _
    · exact within_bind u _ _ (callValue_outside env _ u) fun ok v _ => hend ok v
  · refine within_bind t _ _ (within_set t _ (.setStore t _ _)) fun _ u _ => ?_
    exact within_bind u _ _ (within_modify u _ ⟨rfl, rfl⟩) fun _ v _ => within_pure v (.refl v) _

theorem txBufferTurn_outside (bufLen : ℕ) (w : World σ) : Within Outside (txBufferTurn env bufLen) w := by
  refine within_get_bind w _ (within_ite w _ _ _ (fun _ => within_pure w (.refl w) _) fun _ => ?_)
  split
  · exact within_pure w (.refl w) _
  · rename_i e _
    refine within_bind w _ _ ((txBufferFinder_within w e).mono (fun _ _ h => h.outside) fun _ _ h => h.outside)
      fun found t _ => ?_
    cases found with
    | none => exact within_bind t _ _ (txBufferFinishEntry_outside env e t) fun _ u _ => within_pure u (.refl u) _
    | some encoder =>
      refine within_get_bind t _ (within_bind t _ _ (within_modify t _ (.emit t _ rfl)) fun _ u _ => ?_)
      refine within_bind u _ _ ((runEncoder_within env u e.value _ bufLen encoder).mono (fun _ _ h => h.outside)
        fun _ _ h => h.outside) fun _ v _ => txBufferNote_outside _ _ v

theorem lmqttClientFinalize_beside (w : World σ) : Within Beside (lmqttClientFinalize env) w := by
  have hout : ∀ {α : Type} {p : Prog σ α} {w : World σ}, Within Outside p w → Within Beside p w := fun h =>
    h.mono (fun _ _ h => h.beside) fun _ _ h => h.beside
  refine within_bind w _ _ (within_modify w _ ⟨rfl, rfl⟩) fun _ t _ => ?_
  refine within_bind t _ _ (hout (clientSetStateFailed_outside env t)) fun _ u _ => ?_
  refine within_bind u _ _ (within_get_bind u _ ?_) fun _ v _ =>
    hout (clientCleanupStores_outside env false v)
  refine within_bind u _ _ (within_modify u _ ⟨rfl, rfl⟩) fun _ v _ => ?_
  exact within_bind v _ _ (hout (callValue_outside env _ v)) fun _ x _ => within_pure x (Outside.refl x).beside _

theorem currentTimeout_outside (w : World σ) : Within Outside (currentTimeout env) w := by
  refine (currentTimeout_spec w).mono (fun _ w' h => ?_) fun _ _ h => h.elim
  obtain ⟨a, rfl⟩ := h
  exact ⟨rfl, rfl⟩

/- `lmqtt_client_connect` may reset the decoder. -/
def Step.Connects (w : World σ) : Step σ → Prop
  | call (.connect p) => w.ops.connect = true ∧ connectValidate (w.heap.connects p) = true ∧
    (w.connectStore.append ⟨.connect, { value := p, callback := some .onConnack, req := some w.nextReq }⟩).isSome = true
  | _ => False

theorem lmqttClientConnect_told (p : Ptr) (w : World σ) :
    Wp (lmqttClientConnect p) w (fun _ w' => w'.told = w.told ∧
      ((Step.call (.connect p)).Connects w ∧ w'.rx.internal = {} ∨ ¬ (Step.call (.connect p)).Connects w ∧ w' = w))
      fun _ _ => False := by
  simp only [lmqttClientConnect, clientDoConnect, clientSetStateConnecting, lmqttRxBufferReset, lmqttTxBufferReset,
    wp_bind, wp_get]
  refine wp_if (fun ho => wp_if (fun hv => ?_) fun hv => ?_) fun ho => ⟨rfl, .inr ⟨fun h => ho h.1, rfl⟩⟩
  · refine ⟨rfl, .inr ⟨fun h => ?_, rfl⟩⟩
    rw [h.2.1] at hv
    contradiction
  · have hv : connectValidate (w.heap.connects p) = true := by simpa using hv
    split
    · rename_i hs
      refine ⟨rfl, .inr ⟨fun h => ?_, rfl⟩⟩
      have h := h.2.2
      rw [hs] at h
      contradiction
    · rename_i s hs
      exact ⟨rfl, .inl ⟨⟨ho, hv, by rw [hs]; rfl⟩, rfl⟩⟩

/-- A step other than a turn of the decoder leaves the message alone, unless a connect
is accepted. -/
theorem step_beside (w : World σ) (s : Step σ) (hs : s.Enabled (fun _ => True) w) (hr : ∀ bs, s ≠ .read bs) :
    Wp (s.run env) w (fun _ w' => w'.told = w.told ∧ (s.Connects w ∧ w'.rx.internal = {} ∨ ¬ s.Connects w ∧ Beside w w'))
      fun _ _ => True := by
  have hout : ∀ {α : Type} {p : Prog σ α} {s : Step σ}, Within Outside p w → ¬ s.Connects w →
      Wp p w (fun _ w' => w'.told = w.told ∧ (s.Connects w ∧ w'.rx.internal = {} ∨ ¬ s.Connects w ∧ Beside w w'))
        fun _ _ => True := fun h hn => h.mono (fun _ _ h => ⟨h.told, .inr ⟨hn, h.beside⟩⟩) fun _ _ _ => trivial
  cases s with
  | read bs => exact absurd rfl (hr bs)
  | send bufLen => exact hout (txBufferTurn_outside env bufLen w) id
  | exit bufLen bytesRead =>
    simp only [Step.run, rxBufferExit, wp_bind]
    refine wp_if (fun _ => ?_) fun _ => ⟨rfl, .inr ⟨id, (Outside.refl w).beside⟩⟩
    exact ⟨rfl, .inr ⟨id, rfl, rfl⟩⟩
  | call a =>
    obtain ⟨hcall, ha⟩ := hs
    cases a with
    | request q => exact (wp_bind ..).mpr (hout (doRequest_outside env w q) id)
    | pingreq =>
      refine hout (within_bind w _ _ (within_get_bind w _ ?_) fun _ t _ => within_pure t (.refl t) _) id
      refine within_ite w _ _ _ (fun _ => ?_) fun _ => within_pure w (.refl w) _
      exact (clientDoPingreq_called env (fun _ => True) w).mono (fun _ _ h => h.1.untouched.outside) fun _ _ h => h.elim
    | connect p =>
      refine (wp_bind ..).mpr ((lmqttClientConnect_told p w).mono (fun _ w' h => ?_) fun _ _ h => h.elim)
      obtain ⟨ht, hc | ⟨hn, rfl⟩⟩ := h
      · exact ⟨ht, .inl hc⟩
      · exact ⟨ht, .inr ⟨hn, (Outside.refl w').beside⟩⟩
    | reset =>
      refine hout (within_get_bind w _ (within_ite w _ _ _ (fun _ => ?_) fun _ => within_pure w (.refl w) _)) id
      exact clientSetStateInitial_outside env w
    | eof => exact hout (clientSetStateInitial_outside env w) id
    | finalize =>
      exact (lmqttClientFinalize_beside env w).mono (fun _ _ h => ⟨h.told, .inr ⟨id, h⟩⟩) fun _ _ _ => trivial
    | setDefaultTimeout secs => exact hout (within_modify w _ ⟨rfl, rfl⟩) id
    | getTimeout =>
      refine hout (within_bind w _ _ ?_ fun _ t _ => within_pure t (.refl t) _) id
      exact within_bind w _ _ (currentTimeout_outside env w) fun _ t _ => within_pure t (.refl t) _
    | currentTimeout => exact (wp_bind ..).mpr (hout (currentTimeout_outside env w) id)
    | touch r => exact hout (storeTouch_outside env r w) id
    | transfer app readBuf writeBuf => exact hout (within_modify w _ ⟨rfl, rfl⟩) id
    | fail e osError =>
      refine hout (within_bind w _ _ (within_modify w _ ⟨rfl, rfl⟩) fun _ t _ => ?_) id
      exact clientSetStateFailed_outside env t
    | decode bs => contradiction
    | encode bufLen => contradiction

/-! ### Turns of the decoder in other packets -/

/-- No message callback was called, and the decoder is where it was in its packet. -/
structure Along (w w' : World σ) : Prop where
  told : w'.told = w.told
  header : w'.rx.internal.header = w.rx.internal.header
  headerFinished : w'.rx.internal.headerFinished = w.rx.internal.headerFinished
  decoder : w'.rx.internal.decoder = w.rx.internal.decoder
  pos : w'.rx.internal.remainBufPos = w.rx.internal.remainBufPos

/-- No message callback was called, and the decoder is where it was, or was reset. -/
structure Apart (w w' : World σ) : Prop where
  told : w'.told = w.told
  pos : w'.rx.internal.remainBufPos = w.rx.internal.remainBufPos ∨ w'.rx.internal.remainBufPos = 0
  decoder : w'.rx.internal.decoder = w.rx.internal.decoder ∨ w'.rx.internal.decoder = none

section Apart
variable {w w' w'' : World σ}

theorem Along.refl (w : World σ) : Along w w := ⟨rfl, rfl, rfl, rfl, rfl⟩

theorem Along.trans (h : Along w w') (h' : Along w' w'') : Along w w'' :=
  ⟨h'.told.trans h.told, h'.header.trans h.header, h'.headerFinished.trans h.headerFinished, h'.decoder.trans h.decoder,
    h'.pos.trans h.pos⟩

instance : IsTrans (World σ) Along := ⟨fun _ _ _ => Along.trans⟩

theorem Outside.along (h : Outside w w') : Along w w' := by
  refine ⟨h.told, ?_, ?_, ?_, ?_⟩ <;> rw [h.rx]

theorem Along.setRx (w : World σ) (i : RxInternal) (hh : i.header = w.rx.internal.header)
    (hf : i.headerFinished = w.rx.internal.headerFinished) (hd : i.decoder = w.rx.internal.decoder)
    (hp : i.remainBufPos = w.rx.internal.remainBufPos) : Along w (w.setRx i) := ⟨rfl, hh, hf, hd, hp⟩

theorem Along.apart (h : Along w w') : Apart w w' := ⟨h.told, .inl h.pos, .inl h.decoder⟩

theorem Apart.trans (h : Apart w w') (h' : Apart w' w'') : Apart w w'' := by
  refine ⟨h'.told.trans h.told, ?_, ?_⟩
  · rcases h'.pos with hp | hp
    · rw [hp]
      exact h.pos
    · exact .inr hp
  · rcases h'.decoder with hd | hd
    · rw [hd]
      exact h.decoder
    · exact .inr hd

instance : IsTrans (World σ) Apart := ⟨fun _ _ _ => Apart.trans⟩

end Apart

theorem assert_along (c : Bool) (w : World σ) : Within Along (assert env c) w :=
  within_ite w _ _ _ (fun _ => within_pure w (.refl w) _) fun _ => within_throw w (.refl w) _

/- A failure with what is returned for it. -/
theorem failed_along {α : Type} (e : Error) (os : ℤ) (a : α) (w : World σ) :
    Within Along (do rxBufferFail e os; pure a : Prog σ α) w :=
  within_bind w _ _ (within_modify w _ (.setRx w _ rfl rfl rfl rfl)) fun _ t _ => within_pure t (.refl t) _

theorem rxBufferPopPacket_along (d : Decoder) (id : PacketId) (w : World σ) :
    Within Along (rxBufferPopPacket d id) w := by
  refine within_get_bind w _ ?_
  split
  · refine within_bind w _ _ (within_set w _ ?_) fun _ t _ => ?_
    · refine (Outside.setStore w _ _).along.trans (.setRx _ _ ?_ ?_ ?_ ?_) <;> simp
    · exact within_bind t _ _ (within_modify t _ (Outside.emit t _ rfl).along) fun _ u _ => within_pure u (.refl u) _
  · exact within_bind w _ _ (within_set w _ (.setRx w _ rfl rfl rfl rfl)) fun _ t _ => failed_along _ _ _ t

theorem popPacket_along (d : Decoder) (p : PopPacket) (w : World σ) : Within Along (popPacket d p) w := by
  cases p with
  | withoutId => exact rxBufferPopPacket_along d 0 w
  | withId => exact within_get_bind w _ (rxBufferPopPacket_along d _ w)
  | ignore => exact within_pure w (.refl w) _
  | pubrel =>
    refine within_get_bind w _ (within_bind w _ _ (within_set w _ ⟨rfl, rfl, rfl, rfl, rfl⟩) fun _ t _ => ?_)
    refine within_get_bind t _ ?_
    split
    · exact within_bind t _ _ (within_set t _ (Outside.setStore t _ _).along) fun _ u _ => within_pure u (.refl u) _
    · exact failed_along _ _ _ t

theorem rxBufferFinishPacket_apart (d : Decoder) (w : World σ) : Within Apart (rxBufferFinishPacket env d) w := by
  have hend : ∀ v : World σ, Within Apart (do emitFinished; lmqttRxBufferReset; pure true : Prog σ Bool) v := by
    intro v
    refine within_bind v _ _ (within_modify v _ (Outside.emit v _ rfl).along.apart) fun _ x _ => ?_
    exact within_bind x _ _ (within_modify x _ ⟨rfl, .inr rfl, .inr rfl⟩) fun _ y _ => within_pure y (Along.refl y).apart _
  refine within_get_bind w _ (within_ite w _ _ _ (fun _ => within_ite w _ _ _ (fun _ => ?_) fun _ => hend w) fun _ => ?_)
  · split
    · exact within_bind w _ _ (within_set w _ (Outside.setStore w _ _).along.apart) fun _ t _ => hend t
    · exact within_bind w _ _ (within_throw w (Along.refl w).apart _) fun _ t _ => hend t
  · refine within_bind w _ _ (within_modify w _ ⟨told_emit w.calling _, .inl rfl, .inl rfl⟩) fun _ t _ => ?_
    refine within_bind t _ _ ((callValue_outside env _ t).mono (fun _ _ h => h.along.apart) fun _ _ h => h.along.apart)
      fun ok u _ => within_ite u _ _ _ (fun _ => hend u) fun _ => ?_
    refine within_bind u _ _ ((assert_along env _ u).mono (fun _ _ h => h.apart) fun _ _ h => h.apart) fun _ v _ => ?_
    exact within_bind v _ _ (within_modify v _ ⟨rfl, .inl rfl, .inl rfl⟩) fun _ x _ => within_pure x (Along.refl x).apart _

theorem rxBufferEndTurn_apart (count : ℕ) (w : World σ) : Within Apart (rxBufferEndTurn env count) w := by
  have hrefl := (Along.refl w).apart
  refine within_get_bind w _ ?_
  dsimp only
  split
  · refine within_ite w _ _ _ (fun _ => ?_) fun _ => within_pure w hrefl _
    refine within_bind w _ _ (rxBufferFinishPacket_apart env _ w) fun ok t _ => ?_
    exact within_ite t _ _ _ (fun _ => within_pure t (Along.refl t).apart _) fun _ => within_pure t (Along.refl t).apart _
  · exact within_pure w hrefl _

theorem rxBufferDecodeConnack_along (bs : List Byte) (w : World σ) :
    Within Along (rxBufferDecodeConnack env bs) w := by
  refine within_bind w _ _ (assert_along env _ w) fun _ t _ => within_get_bind t _ ?_
  split
  · refine within_ite t _ _ _ (fun _ => failed_along _ _ _ t) fun _ => ?_
    exact within_bind t _ _ (within_set t _ ⟨rfl, rfl, rfl, rfl, rfl⟩) fun _ u _ => within_pure u (.refl u) _
  · refine within_ite t _ _ _ (fun _ => failed_along _ _ _ t) fun _ => ?_
    exact within_ite t _ _ _ (fun _ => failed_along _ _ _ t) fun _ => within_pure t (.refl t) _
  · exact failed_along _ _ _ t

theorem rxBufferDecodeSuback_along (bs : List Byte) (w : World σ) :
    Within Along (rxBufferDecodeSuback env bs) w := by
  refine within_bind w _ _ (assert_along env _ w) fun _ t _ => within_get_bind t _ ?_
  refine within_ite t _ _ _ (fun _ => failed_along _ _ _ t) fun _ => ?_
  refine within_ite t _ _ _ (fun _ => failed_along _ _ _ t) fun _ => ?_
  exact within_bind t _ _ (within_set t _ ⟨rfl, rfl, rfl, rfl, rfl⟩) fun _ u _ => within_pure u (.refl u) _

/- Bytes were taken, unless the decoder failed or waits. -/
def Advances (r : DecodeResult × ℕ) : Prop := r.1 = .continue ∨ r.1 = .finished → 0 < r.2

section Other
variable {d : Decoder} (hd : d.decodeBytes ≠ some .publish) (bs : List Byte) (w : World σ)
include hd

theorem rxBufferDecodeRemainingWithoutId_along : Within Along (rxBufferDecodeRemainingWithoutId env d bs) w := by
  refine within_bind w _ _ ?_ fun r t _ => within_get_bind t _ ?_
  · unfold rxBufferDecodeType
    split
    · exact failed_along _ _ _ w
    · exact rxBufferDecodeConnack_along env bs w
    · rename_i hp
      exact absurd hp hd
    · exact rxBufferDecodeSuback_along env bs w
  · refine within_ite t _ _ _ (fun _ => within_pure t (.refl t) _) fun _ => ?_
    exact within_bind t _ _ (assert_along env _ t) fun _ u _ => within_pure u (.refl u) _

theorem decodeRemaining_along : Within Along (decodeRemaining env d bs) w := by
  have hbytes := rxBufferDecodeRemainingWithoutId_along env hd bs w
  unfold decodeRemaining
  split
  · exact hbytes
  · refine within_get_bind w _ (within_ite w _ _ _ (fun _ => hbytes) fun _ => ?_)
    refine within_bind w _ _ (assert_along env _ w) fun _ t _ => ?_
    refine within_bind t _ _ (within_modify t _ (.setRx t _ rfl rfl rfl rfl)) fun _ u _ => ?_
    refine within_ite u _ _ _ (fun _ => within_get_bind u _ ?_) fun _ => within_pure u (.refl u) _
    refine within_bind u _ _ (within_modify u _ (Outside.emit u _ rfl).along) fun _ v _ => ?_
    refine within_bind v _ _ (popPacket_along d _ v) fun ok x _ => ?_
    exact within_ite x _ _ _ (fun _ => within_pure x (.refl x) _) fun _ => within_pure x (.refl x) _

theorem rxBufferDecodeType_took : Wp (rxBufferDecodeType env d bs) w (fun r _ => Advances r) fun _ _ => True := by
  have hfail : ∀ (e : Error) (n : ℕ) (t : World σ), Wp (do rxBufferFail e 0; pure (.error, n) : Prog σ (DecodeResult × ℕ)) t
      (fun r _ => Advances r) fun _ _ => True := by
    intro e n t h
    rcases h with h | h <;> contradiction
  unfold rxBufferDecodeType
  split
  · exact hfail _ _ w
  · simp only [rxBufferDecodeConnack]
    refine wp_assert_bind (fun _ => ?_) fun _ => trivial
    simp only [wp_bind, wp_get]
    split
    · exact wp_if (fun _ => hfail _ _ w) fun _ _ => Nat.one_pos
    · exact wp_if (fun _ => hfail _ _ w) fun _ => wp_if (fun _ => hfail _ _ w) fun _ _ => Nat.one_pos
    · exact hfail _ _ w
  · rename_i hp
    exact absurd hp hd
  · simp only [rxBufferDecodeSuback]
    refine wp_assert_bind (fun _ => ?_) fun _ => trivial
    simp only [wp_bind, wp_get]
    exact wp_if (fun _ => hfail _ _ w) fun _ => wp_if (fun _ => hfail _ _ w) fun _ _ => Nat.one_pos

theorem decodeRemaining_took : Wp (decodeRemaining env d bs) w (fun r _ => Advances r) fun _ _ => True := by
  have hbytes : Wp (rxBufferDecodeRemainingWithoutId env d bs) w (fun r _ => Advances r) fun _ _ => True := by
    simp only [rxBufferDecodeRemainingWithoutId, wp_bind, wp_get]
    refine (rxBufferDecodeType_took env hd bs w).mono (fun r t hr => ?_) fun _ _ _ => trivial
    refine wp_if (fun _ h => ?_) fun _ => wp_assert_bind (fun _ => hr) fun _ => trivial
    rcases h with h | h <;> contradiction
  unfold decodeRemaining
  split
  · exact hbytes
  · simp only [rxBufferDecodeRemainingWithId, wp_bind, wp_get]
    refine wp_if (fun _ => hbytes) fun _ => wp_assert_bind (fun _ => ?_) fun _ => trivial
    simp only [wp_bind, wp_modify]
    refine wp_if (fun _ => ?_) fun _ _ => Nat.one_pos
    simp only [wp_bind, wp_get, wp_emit]
    refine (wp_true _ _).mono (fun ok t _ => ?_) fun _ _ _ => trivial
    exact wp_if (fun _ _ => Nat.one_pos) fun _ _ => Nat.one_pos

end Other

/- The decoder reads the body of a PUBLISH. -/
def RxInternal.inPublish (i : RxInternal) : Bool := i.headerFinished && i.decoder = some rxBufferDecoderPublish

theorem RxInternal.inPublish_iff (i : RxInternal) :
    i.inPublish = true ↔ i.headerFinished = true ∧ i.decoder = some rxBufferDecoderPublish := by
  simp [RxInternal.inPublish]

/- Only the decoder of a PUBLISH takes the bytes of a PUBLISH. -/
theorem rxBufferDecoders_publish (type : ℕ) (d : Decoder) (h : rxBufferDecoders type = some d)
    (hb : d.decodeBytes = some .publish) : d = rxBufferDecoderPublish := by
  unfold rxBufferDecoders at h
  split at h <;> cases h <;> first | rfl | (exact absurd hb (by decide))

/- The decoder stands before the end of its packet. -/
def RxInternal.Short (i : RxInternal) : Prop := i.headerFinished = true → i.remainBufPos < i.header.remainingLength

/-- A turn that is not in the body of a PUBLISH: it calls no message callback, it takes a byte unless it fails or
waits, and it may come to the first byte of such a body. -/
structure OtherTurn (w : World σ) (t : Turn) (w' : World σ) : Prop where
  told : w'.told = w.told
  start : w'.rx.internal.inPublish = true → w'.rx.internal.remainBufPos = 0
  short : (∃ n, t = .failed n) ∨ w'.rx.internal.Short
  count : t ≠ .read 0

/- A packet that is finished leaves a fresh decoder. -/
theorem rxBufferFinishPacket_fresh (d : Decoder) (u : World σ) :
    Wp (rxBufferFinishPacket env d) u (fun ok w' => ok = true → w'.rx.internal = {}) fun _ _ => True := by
  have hend : ∀ v : World σ, Wp (do emitFinished; lmqttRxBufferReset; pure true : Prog σ Bool) v
      (fun ok w' => ok = true → w'.rx.internal = {}) fun _ _ => True := fun v _ => rfl
  simp only [rxBufferFinishPacket, wp_bind, wp_get]
  refine wp_if (fun _ => wp_if (fun _ => ?_) fun _ => hend u) fun _ => ?_
  · split
    · exact (wp_bind ..).mpr (hend _)
    · trivial
  · simp only [wp_bind, wp_modify]
    refine (wp_true _ _).mono (fun ok v _ => wp_if (fun _ => hend v) fun _ => ?_) fun _ _ _ => trivial
    exact wp_assert_bind (fun _ h => absurd h (by decide)) fun _ => trivial

/- The end of a turn. -/
theorem rxBufferEndTurn_short (count : ℕ) (u : World σ) {d : Decoder} (hd : u.rx.internal.decoder = some d) :
    Wp (rxBufferEndTurn env count) u (fun t w' => (t = .failed count ∨ t = .read count) ∧
      ((∃ n, t = .failed n) ∨ w'.rx.internal.Short)) fun _ _ => True := by
  simp only [rxBufferEndTurn, wp_bind, wp_get, hd]
  refine wp_if (fun _ => (wp_bind ..).mpr ?_) fun hn => ⟨.inr rfl, .inr fun hf => ?_⟩
  · refine (rxBufferFinishPacket_fresh env d u).mono (fun ok v hv => ?_) fun _ _ _ => trivial
    refine wp_if (fun hok => ⟨.inr rfl, .inr fun hf => ?_⟩) fun _ => ⟨.inl rfl, .inl ⟨count, rfl⟩⟩
    rw [hv hok] at hf
    contradiction
  · simpa [rxBufferIsPacketFinished, hf] using hn

theorem rxBufferDecodeTurn_other (bs : List Byte) (w : World σ) (hs : RxShape w.rx.internal)
    (he : w.rx.internal.error = none) (hshort : w.rx.internal.Short) (hn : w.rx.internal.inPublish = false) :
    Wp (rxBufferDecodeTurn env bs) w (fun t w' => OtherTurn w t w') fun _ _ => True := by
  simp only [rxBufferDecodeTurn, wp_bind, wp_get]
  split
  · rename_i d hf hd
    have hne : d ≠ rxBufferDecoderPublish := by
      rintro rfl
      rw [(RxInternal.inPublish_iff _).mpr ⟨hf, hd⟩] at hn
      contradiction
    have hdb : d.decodeBytes ≠ some .publish := fun hb =>
      hne (rxBufferDecoders_publish _ d ((hs.table hf).symm.trans hd) hb)
    have hout : ∀ {u : World σ}, u.rx.internal.decoder = some d ∨ u.rx.internal.decoder = none →
        u.rx.internal.inPublish = true → u.rx.internal.remainBufPos = 0 := by
      intro u hu hp
      have hpd := ((RxInternal.inPublish_iff _).mp hp).2
      rw [hpd] at hu
      rcases hu with hu | hu
      · exact absurd (Option.some.inj hu).symm hne
      · contradiction
    simp only [rxBufferDecodeBodyTurn, wp_bind]
    refine ((decodeRemaining_along env hdb bs w).and (decodeRemaining_took env hdb bs w)).mono (fun r t ht => ?_)
      fun _ _ _ => trivial
    obtain ⟨ht, hcount⟩ := ht
    have htd := ht.decoder.trans hd
    -- the bytes that were read are behind the decoder
    have hend : 0 < r.2 → Wp (do modify fun w => w.advance r.2; rxBufferEndTurn env r.2 : Prog σ Turn) t
        (fun t w' => OtherTurn w t w') fun _ _ => True := by
      intro hr
      simp only [wp_bind, wp_modify]
      have hboth := (rxBufferEndTurn_apart env r.2 (t.advance r.2)).and
        (rxBufferEndTurn_short env r.2 (t.advance r.2) htd)
      refine hboth.mono (fun x u hu => ?_) fun _ _ _ => trivial
      obtain ⟨hu, hx, hshort⟩ := hu
      refine ⟨hu.told.trans ht.told, hout ?_, hshort, ?_⟩
      · rcases hu.decoder with h | h
        · exact .inl (h.trans htd)
        · exact .inr h
      · rcases hx with rfl | rfl
        · intro h
          contradiction
        · intro h
          have hcount := Turn.read.inj h
          omega
    unfold rxBufferDecodedBytes
    split
    · exact wp_assert_bind (fun _ => ⟨ht.told, hout (.inl htd), .inl ⟨0, rfl⟩, by simp⟩) fun _ => trivial
    · refine wp_assert_bind (fun _ => ⟨ht.told, hout (.inl htd), .inr fun _ => ?_, by simp⟩) fun _ => trivial
      rw [ht.pos, ht.header]
      exact hshort hf
    · rename_i hne hnb
      apply hend
      apply hcount
      cases hres : r.1 with
      | «continue» => exact .inl rfl
      | finished => exact .inr rfl
      | error => exact absurd hres hne
      | wouldBlock => exact absurd hres hnb
  · rename_i hno
    have hf : w.rx.internal.headerFinished = false := by
      by_contra hf
      have hf : w.rx.internal.headerFinished = true := by simpa using hf
      obtain ⟨d, hd, -⟩ := hs.long hf he
      exact hno d hf hd
    have hpos : w.rx.internal.remainBufPos = 0 := by rw [hs.fresh hf]
    simp only [rxBufferDecodeHeaderTurn, wp_bind, wp_get, wp_set]
    rcases hdec : fixedHeaderDecode w.rx.internal.header (bs.headD 0) with ⟨h, res, error⟩
    dsimp only
    split
    · simp only [wp_bind, wp_modify]
      -- a failure behind the fixed header
      have hfail : ∀ {v : World σ} {p : Prog σ Turn}, v.told = w.told → v.rx.internal.remainBufPos = 0 →
          Within Along p v → Wp p v (fun t _ => t = .failed 1) (fun _ _ => True) →
          Wp p v (fun t w' => OtherTurn w t w') fun _ _ => True := by
        intro v p ht hp h hx
        refine (h.and hx).mono (fun t u hu => ?_) fun _ _ _ => trivial
        obtain ⟨hu, rfl⟩ := hu
        exact ⟨hu.told.trans ht, fun _ => hu.pos.trans hp, .inl ⟨1, rfl⟩, by simp⟩
      split
      · exact hfail (by rfl) hpos (failed_along _ _ _ _) rfl
      · rename_i d hd
        refine wp_if (fun _ => hfail (by rfl) hpos (failed_along _ _ _ _) rfl) fun _ => ?_
        refine (wp_bind ..).mpr ((popPacket_along d _ _).mono (fun ok t ht => ?_) fun _ _ _ => trivial)
        have htd : t.rx.internal.decoder = some d := ht.decoder.trans hd
        have htt : t.told = w.told := ht.told
        have htp : t.rx.internal.remainBufPos = 0 := ht.pos.trans hpos
        refine wp_if (fun _ => ?_) fun _ => ?_
        · have hboth := (rxBufferEndTurn_apart env 1 t).and (rxBufferEndTurn_short env 1 t htd)
          refine hboth.mono (fun x u hu => ?_) fun _ _ _ => trivial
          obtain ⟨hu, hx, hshort⟩ := hu
          refine ⟨hu.told.trans htt, fun _ => ?_, hshort, ?_⟩
          · rcases hu.pos with h | h
            · exact h.trans htp
            · exact h
          · rcases hx with rfl | rfl
            · simp
            · simp
        · simp only [wp_bind, wp_get]
          exact (wp_assert ..).mpr (by split <;> first | trivial | exact ⟨htt, fun _ => htp, .inl ⟨1, rfl⟩, by simp⟩)
    · refine ⟨rfl, fun _ => hpos, .inr fun h => ?_, by simp⟩
      exact absurd (h.symm.trans hf) (by decide)
    · exact ⟨rfl, fun _ => hpos, .inl ⟨0, rfl⟩, by simp⟩

end LightMqtt
