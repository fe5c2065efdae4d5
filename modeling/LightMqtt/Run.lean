import LightMqtt.EncodeEffects
import LightMqtt.DecodeEffects

/-!
# Runs of a client

A run is made of calls of the API and of the steps `lmqtt_client_run_once` is
made of. `Reached` are the states between two of them, for any server, any
connection and any application.
-/

namespace LightMqtt

open Exec

section Runs
variable {σ ρ : Type} [Reentrant ρ] (env : EnvOf σ ρ) (P : World σ → Prop)

/-- What the application calls, and what `lmqtt_client_run_once` does. -/
inductive Act (σ : Type)
  | request (q : Request)
  | connect (p : Ptr)
  | reset
  | finalize
  | setDefaultTimeout (secs : UInt16)
  | getTimeout
  /- the clock is read, a store touched, and a ping sent -/
  | currentTimeout
  | touch (r : StoreRef)
  | pingreq
  /- the connection is read or written -/
  | transfer (app : σ) (readBuf writeBuf : List Byte)
  /- the decoder takes bytes, the encoder fills a buffer -/
  | decode (bs : List Byte)
  | encode (bufLen : ℕ)
  /- a transfer meets an error or the end of the stream -/
  | fail (e : Error) (osError : ℤ)
  | eof

def Act.run : Act σ → Prog σ Unit
  | request q => do let _ ← doRequest q
  | connect p => do let _ ← lmqttClientConnect p
  | reset => lmqttClientReset env
  | finalize => lmqttClientFinalize env
  | setDefaultTimeout secs => lmqttClientSetDefaultTimeout secs
  | getTimeout => do let _ ← lmqttClientGetTimeout env
  | currentTimeout => do let _ ← LightMqtt.currentTimeout env
  | touch r => storeTouch env r
  | pingreq => do let _ ← lmqttClientPingreq
  | transfer app readBuf writeBuf =>
    modify fun w => { w with app := app, readBuf := readBuf, writeBuf := writeBuf }
  | decode bs => do let _ ← lmqttRxBufferDecode env bs
  | encode bufLen => do let _ ← lmqttTxBufferEncode env bufLen
  | fail e osError => do
    modify fun w => { w with error := some e, osError := osError }
    clientSetStateFailed env
  | eof => clientSetStateInitial env

/- When an act is possible: a client with an error does not transfer. `P`
   restricts the states in which a connect is accepted. -/
def Act.Enabled (w : World σ) : Act σ → Prop
  | connect _ => w.ops.connect = true → P w
  | decode _ | encode _ | fail .. | eof => w.error = none
  | _ => True

/- `lmqtt_client_initialize` -/
def lmqttClientInitialize : Prog σ Unit := clientSetStateInitial env

/-- The states of a client between two acts. -/
inductive Reached : World σ → Prop
  | start (buffers : ClientBuffers) (heap : Heap) (app : σ) (w : World σ)
    (h : lmqttClientInitialize env (clientCleared buffers heap app) = .ok () w) : Reached w
  | act (w w' : World σ) (a : Act σ) (hw : Reached w) (ha : a.Enabled P w) (h : a.run env w = .ok () w') :
    Reached w'

end Runs

variable {σ : Type} (env : Env σ) (P : World σ → Prop)

/-! ### Acts are made of effects -/

/-- The steps of a run: the effects of the client, and the bytes that move between
the connection and the client buffers. -/
inductive Change : World σ → World σ → Prop
  | effect {w w' : World σ} (h : Effect env P w w') : Change w w'
  | buffers (w : World σ) (readBuf writeBuf : List Byte) :
    Change w { w with readBuf := readBuf, writeBuf := writeBuf }

def Changes : World σ → World σ → Prop := Relation.ReflTransGen (Change env P)

theorem Effects.changes {env : Env σ} {P : World σ → Prop} {w w' : World σ} (h : Effects env P w w') :
    Changes env P w w' := by
  induction h with
  | refl => exact .refl
  | tail _ h ih => exact ih.tail (.effect h)

/-- What holds between two acts. Only the last callback is called behind
`lmqtt_client_finalize`. -/
structure Live (w : World σ) : Prop where
  sound : Sound w
  shape : w.error ≠ some .closed → RxShape w.rx.internal
  requests : w.error = none → w.rx.store = .main → w.ops.publish = true

variable {env P}

theorem Live.decoding {w : World σ} (h : Live w) (he : w.error = none) : Decoding w :=
  ⟨h.sound, h.shape (by rw [he]; simp), he, h.requests he⟩

theorem Live.steady {w w' : World σ} (h : Live w) (hw : Sound w')
    (hs : w'.error ≠ some .closed → RxShape w'.rx.internal) (hk : Steady w w') : Live w' := by
  refine ⟨hw, hs, fun he hm => ?_⟩
  rcases hk.store with hr | ⟨-, -, ho⟩
  · exact hk.ops (h.requests (hk.error.symm.trans he) (hr.symm.trans hm))
  · exact ho

theorem Sound.buffers {w : World σ} (hw : Sound w) (readBuf writeBuf : List Byte) :
    Sound { w with readBuf := readBuf, writeBuf := writeBuf } :=
  ⟨⟨hw.entries, hw.held, hw.rxStore, hw.txStore, hw.connectable, hw.alive⟩,
    hw.phase.keep rfl rfl rfl rfl id le_rfl, fun r => (hw.owed r).quiet le_rfl rfl rfl (fun h => ⟨h, le_rfl⟩) fun h => .inl h,
    hw.calledOnce⟩

theorem Live.buffers {w : World σ} (h : Live w) (readBuf writeBuf : List Byte) :
    Live { w with readBuf := readBuf, writeBuf := writeBuf } :=
  ⟨h.sound.buffers readBuf writeBuf, h.shape, h.requests⟩

theorem Live.kept {w w' : World σ} (h : Live w) (he : Effects env P w w') (hk : Kept w w') : Live w' :=
  h.steady (he.sound h.sound) (by rw [hk.rx, hk.error]; exact h.shape) hk.toSteady

theorem Live.disconnected {w w' : World σ} (h : Live w) (he : Effects env P w w') (hn : w.error ≠ some .closed)
    (hd : Disconnected w w') : Live w' := by
  refine ⟨he.sound h.sound, fun _ => by rw [hd.rx]; exact h.shape hn, fun _ hm => ?_⟩
  rw [hd.rxStore] at hm
  contradiction

/- What an act does to a client: changes, and it stays live. -/
def Acted (env : Env σ) (P : World σ → Prop) (w w' : World σ) : Prop := Changes env P w w' ∧ Live w'

theorem currentTimeout_spec (w : World σ) :
    Wp (currentTimeout env) w (fun _ w' => ∃ a, w' = { w with app := a }) fun _ _ => False := by
  simp only [currentTimeout, wp_bind, wp_get]
  exact wp_if (fun _ => ⟨_, rfl⟩) fun _ => ⟨w.app, rfl⟩

theorem app_acted (w : World σ) (hw : Live w) (a : σ) : Acted env P w { w with app := a } := by
  have h : Effects env P w { w with app := a } := .of (.app w a)
  exact ⟨h.changes, hw.kept h ⟨⟨rfl, rfl, ⟨[], rfl⟩, id, .inl rfl⟩, rfl⟩⟩

theorem called_acted {w w' : World σ} (hw : Live w) (h : CalledBy env P w w') : Acted env P w w' :=
  ⟨h.2.changes, hw.kept h.2 h.1.framed.toKept⟩

/-- Every act is a sequence of changes and keeps the client live. -/
theorem act_spec (w : World σ) (a : Act σ) (hw : Live w) (ha : a.Enabled P w) :
    Wp (a.run env) w (fun _ w' => Acted env P w w') fun _ w' => Changes env P w w' := by
  cases a with
  | request q =>
    exact (wp_bind ..).mpr ((doRequest_called env P w q).mono (fun _ _ h => called_acted hw h) fun _ _ h => h.elim)
  | pingreq =>
    simp only [Act.run, lmqttClientPingreq, wp_bind, wp_get]
    refine wp_if (fun _ => ?_) fun _ => ⟨.refl, hw⟩
    exact (clientDoPingreq_called env P w).mono (fun _ _ h => called_acted hw h) fun _ _ h => h.elim
  | connect p =>
    refine (wp_bind ..).mpr ((lmqttClientConnect_spec env P w p ha).mono (fun _ w' h => ?_) fun _ _ h => h.elim)
    obtain ⟨he, rfl | ⟨hc, -, hi, hs, ho⟩⟩ := h
    · exact ⟨he.changes, hw⟩
    · refine ⟨he.changes, he.sound hw.sound, fun _ => by rw [hi]; exact .empty, fun _ hm => ?_⟩
      rw [ho]
      exact hw.requests (hw.sound.connectable hc).1 (hs.symm.trans hm)
  | reset =>
    refine (lmqttClientReset_spec env P w hw.sound).mono (fun _ w' h => ?_) fun _ _ h => h.2.changes
    obtain ⟨he, rfl | ⟨hn, hd⟩⟩ := h
    · exact ⟨he.changes, hw⟩
    · exact ⟨he.changes, hw.disconnected he hn hd⟩
  | finalize =>
    refine (lmqttClientFinalize_spec env P w hw.sound).mono (fun _ w' h => ?_) fun _ _ h => h.2.changes
    obtain ⟨he, hc, herr, hi⟩ := h
    exact ⟨he.changes, he.sound hw.sound, fun hn => absurd herr hn, fun hn => by rw [herr] at hn; cases hn⟩
  | setDefaultTimeout secs =>
    have h : Effects env P w _ := .of (.timeout w secs)
    exact ⟨h.changes, hw.kept h ⟨⟨rfl, rfl, ⟨[], rfl⟩, id, .inl rfl⟩, rfl⟩⟩
  | getTimeout =>
    simp only [Act.run, lmqttClientGetTimeout, wp_bind]
    refine (currentTimeout_spec w).mono (fun _ w' h => ?_) fun _ _ h => h.elim
    obtain ⟨a, rfl⟩ := h
    exact app_acted w hw a
  | currentTimeout =>
    refine (wp_bind ..).mpr ((currentTimeout_spec w).mono (fun _ w' h => ?_) fun _ _ h => h.elim)
    obtain ⟨a, rfl⟩ := h
    exact app_acted w hw a
  | touch r =>
    refine (storeTouch_effects env P w r).mono (fun _ w' h => ?_) fun _ _ h => h.elim
    obtain ⟨he, rfl⟩ := h
    refine ⟨he.changes,
      hw.kept he ((Framed.setStore w r ((w.store r).touch (env.getTime w.app).2)).toKept.trans ?_)⟩
    exact ⟨⟨rfl, rfl, ⟨[], rfl⟩, id, .inl rfl⟩, rfl⟩
  | transfer app readBuf writeBuf =>
    have h : Acted env P w { w with app := app } := app_acted w hw app
    exact ⟨h.1.tail (.buffers _ readBuf writeBuf), h.2.buffers readBuf writeBuf⟩
  | decode bs =>
    refine (wp_bind ..).mpr ((lmqttRxBufferDecode_spec env P w bs (hw.decoding ha)).mono (fun _ w' h => ?_)
      fun _ _ h => h.changes)
    exact ⟨h.effects.changes, hw.steady (h.effects.sound hw.sound) (fun _ => h.shape) h.steady⟩
  | encode bufLen =>
    refine (wp_bind ..).mpr ((lmqttTxBufferEncode_spec env P w bufLen hw.sound).mono (fun _ w' h => ?_)
      fun _ _ h => h.changes)
    exact ⟨h.effects.changes, hw.kept h.effects h.kept⟩
  | fail e osError =>
    refine (clientSetStateFailed_spec env w e osError).mono (fun _ w' h => ?_) fun _ _ h => h.elim
    subst h
    have hn : w.error = none := ha
    have h : Effects env P w _ := .of (.failed w e osError fun hc => by simp [hn] at hc)
    exact ⟨h.changes, h.sound hw.sound, fun _ => hw.shape (by simp [hn]), fun hn => by simp at hn⟩
  | eof =>
    have hn : w.error ≠ some .closed := by rw [show w.error = none from ha]; simp
    refine (clientSetStateInitial_spec env P w hw.sound hn).mono (fun _ w' h => ?_) fun _ _ h => h.2.changes
    exact ⟨h.1.changes, hw.disconnected h.1 hn h.2⟩

theorem clientCleared_sound (buffers : ClientBuffers) (heap : Heap) (app : σ) :
    Sound (clientCleared buffers heap app) := by
  refine ⟨⟨fun r => ?_, .inl rfl, rfl, rfl, fun h => by simp [clientCleared] at h, fun _ => rfl⟩,
    ⟨⟨rfl, rfl, rfl⟩, by simp [clientCleared], fun _ _ => rfl, fun _ _ _ => rfl, Nat.zero_le 1⟩,
    fun r => ⟨Nat.zero_le 1, fun _ => rfl, .inr rfl, fun _ => le_rfl, .inl (Nat.zero_le 1)⟩, .inl (Nat.zero_le 1)⟩
  cases r <;> simp [World.store, clientCleared]

/- The first state of a client. -/
theorem start_spec {buffers : ClientBuffers} {heap : Heap} {app : σ} {w : World σ}
    (h : lmqttClientInitialize env (clientCleared buffers heap app) = .ok () w) :
    Acted env P (clientCleared buffers heap app) w := by
  have hs := clientCleared_sound buffers heap app
  obtain ⟨he, hd⟩ := wp_ok (clientSetStateInitial_spec env P _ hs (by simp [clientCleared])) h
  refine ⟨he.changes, he.sound hs, fun _ => ?_, fun _ hm => ?_⟩
  · rw [hd.rx]
    exact .empty
  · rw [hd.rxStore] at hm
    contradiction

/-- A reached state is live, and reached by changes from the cleared client. -/
theorem reached_effects (w : World σ) (h : Reached env P w) : Live w ∧
    ∃ buffers heap app, Changes env P (clientCleared buffers heap app) w := by
  induction h with
  | start buffers heap app w h =>
    obtain ⟨hc, hl⟩ := start_spec (P := P) h
    exact ⟨hl, buffers, heap, app, hc⟩
  | act w w' a hw ha h ih =>
    obtain ⟨hl, buffers, heap, app, he⟩ := ih
    obtain ⟨he', hl'⟩ := wp_ok (act_spec w a hl ha) h
    exact ⟨hl', buffers, heap, app, he.trans he'⟩

/- An invariant of sound states, which the client buffers do not matter for. -/
theorem Changes.invariant {I : World σ → Prop} (hi : ∀ v v', Sound v → Effect env P v v' → I v → I v')
    (hb : ∀ v readBuf writeBuf, I v → I { v with readBuf := readBuf, writeBuf := writeBuf }) {w w' : World σ}
    (h : Changes env P w w') (hs : Sound w) (hw : I w) : I w' := by
  have hboth : Sound w' ∧ I w' := by
    induction h with
    | refl => exact ⟨hs, hw⟩
    | tail _ hv ih =>
      obtain ⟨hs, hw⟩ := ih
      cases hv with
      | effect h => exact ⟨sound_effect h hs, hi _ _ hs h hw⟩
      | buffers readBuf writeBuf => exact ⟨hs.buffers readBuf writeBuf, hb _ readBuf writeBuf hw⟩
  exact hboth.2

/-- What effects preserve holds in every reached state. -/
theorem reached_invariant {I : World σ → Prop} (hi : ∀ v v', Sound v → Effect env P v v' → I v → I v')
    (hb : ∀ v readBuf writeBuf, I v → I { v with readBuf := readBuf, writeBuf := writeBuf })
    (hinit : ∀ buffers heap app, I (clientCleared buffers heap app)) (w : World σ) (h : Reached env P w) :
    I w := by
  obtain ⟨-, buffers, heap, app, he⟩ := reached_effects w h
  exact he.invariant hi hb (clientCleared_sound buffers heap app) (hinit buffers heap app)

/-! ### Runs under a condition -/

/-- The states of a run in which every act meets the condition `C`. -/
inductive ReachedBy {ρ : Type} [Reentrant ρ] (env : EnvOf σ ρ) (C : World σ → Act σ → Prop) : World σ → Prop
  | start (buffers : ClientBuffers) (heap : Heap) (app : σ) (w : World σ)
    (h : lmqttClientInitialize env (clientCleared buffers heap app) = .ok () w) : ReachedBy env C w
  | act (w w' : World σ) (a : Act σ) (hw : ReachedBy env C w) (hc : C w a)
    (ha : a.Enabled (fun _ => True) w) (h : a.run env w = .ok () w') : ReachedBy env C w'

theorem ReachedBy.reached {ρ : Type} [Reentrant ρ] {env : EnvOf σ ρ} {C : World σ → Act σ → Prop} {w : World σ}
    (h : ReachedBy env C w) : Reached env (fun _ => True) w := by
  induction h with
  | start buffers heap app w h => exact .start buffers heap app w h
  | act w w' a _ _ ha h ih => exact .act w w' a ih ha h

/-! ### `lmqtt_client_run_once` is made of acts -/

theorem reached_act {w : World σ} (a : Act σ) (hw : Reached env P w) (ha : a.Enabled P w) :
    Wp (a.run env) w (fun _ w' => Reached env P w') fun _ _ => True := by
  unfold Wp
  split
  · rename_i h
    exact .act w _ a hw ha h
  · trivial

/- A program that is run by an act leads to a reached state. -/
theorem reached_run {α : Type} {w : World σ} (a : Act σ) (p : Prog σ α) (hp : a.run env = (do let _ ← p))
    (hw : Reached env P w) (ha : a.Enabled P w) :
    Wp p w (fun _ w' => Reached env P w') fun _ _ => True := by
  have h := reached_act a hw ha
  rw [hp, wp_bind] at h
  exact h

theorem reached_transfer {w : World σ} (hw : Reached env P w) (app : σ) (readBuf writeBuf : List Byte) :
    Reached env P { w with app := app, readBuf := readBuf, writeBuf := writeBuf } :=
  .act w _ (.transfer app readBuf writeBuf) hw trivial rfl

theorem reached_setBuf {w : World σ} (hw : Reached env P w) (d : Direction) (bs : List Byte) :
    Reached env P (w.setBuf d bs) := by
  cases d with
  | input => exact reached_transfer hw w.app bs w.writeBuf
  | output => exact reached_transfer hw w.app w.readBuf bs

/- A reached state of a client without an error. -/
def Fine (env : Env σ) (P : World σ → Prop) (w : World σ) : Prop := Reached env P w ∧ w.error = none

/- A state in which an error was noted, and the client is about to fail. -/
def Broken (env : Env σ) (P : World σ → Prop) (w : World σ) : Prop :=
  ∃ v e osError, Fine env P v ∧ w = { v with error := some e, osError := osError }

/- What a wrapper may do. -/
def Wrapped (env : Env σ) (P : World σ → Prop) (m : Moved) (w : World σ) : Prop :=
  Fine env P w ∧ (m.result = .error → m.error.isSome = true)

theorem clientWrapperDecode_reached (w : World σ) (hw : Fine env P w) (bs : List Byte) :
    Wp (clientWrapperDecode env bs) w (Wrapped env P) fun _ _ => True := by
  have hdec := (reached_effects w hw.1).1.decoding hw.2
  refine (wp_bind ..).mpr (((reached_run (.decode bs) _ rfl hw.1 hw.2).and
    (lmqttRxBufferDecode_spec env P w bs hdec)).mono (fun r v hv => ?_) fun _ _ _ => trivial)
  exact ⟨⟨hv.1, hv.2.steady.error.trans hw.2⟩, hv.2.failed⟩

theorem clientWrapperEncode_reached (w : World σ) (hw : Fine env P w) (len : ℕ) :
    Wp (clientWrapperEncode env len) w (Wrapped env P) fun _ _ => True := by
  have hsound := (reached_effects w hw.1).1.sound
  refine (wp_bind ..).mpr (((reached_run (.encode len) _ rfl hw.1 hw.2).and
    (lmqttTxBufferEncode_spec env P w len hsound)).mono (fun r v hv => ?_) fun _ _ _ => trivial)
  exact ⟨⟨hv.1, hv.2.kept.error.trans hw.2⟩, hv.2.failed⟩

theorem fillWrapper_reached (w : World σ) (hw : Fine env P w) (d : Direction) (len : ℕ) :
    Wp (fillWrapper env d len) w (Wrapped env P) fun _ _ => True := by
  cases d with
  | input => exact ⟨⟨reached_transfer hw.1 _ w.readBuf w.writeBuf, hw.2⟩, fun _ => rfl⟩
  | output => exact clientWrapperEncode_reached w hw len

theorem drainWrapper_reached (w : World σ) (hw : Fine env P w) (d : Direction) (bs : List Byte) :
    Wp (drainWrapper env d bs) w (Wrapped env P) fun _ _ => True := by
  cases d with
  | input => exact clientWrapperDecode_reached w hw bs
  | output => exact ⟨⟨reached_transfer hw.1 _ w.readBuf w.writeBuf, hw.2⟩, fun _ => rfl⟩

/- How a transfer ends. -/
def Transferred (env : Env σ) (P : World σ → Prop) (r : Transfer × Bool) (w : World σ) : Prop :=
  if r.2 then Fine env P w ∧ r.1.result ≠ .error else Broken env P w

theorem transferExec_reached (w : World σ) (hw : Fine env P w) (t : Transfer) (ht : t.result ≠ .error)
    (room : Bool) (wrapper : Prog σ Moved) (after : Moved → World σ → World σ)
    (hwrap : Wp wrapper w (Wrapped env P) fun _ _ => True)
    (hafter : ∀ m v, Fine env P v → Fine env P (after m v)) :
    Wp (transferExec t room wrapper after) w (Transferred env P) fun _ _ => True := by
  simp only [transferExec]
  refine wp_if (fun _ => ?_) fun _ => wp_if (fun h => absurd h ht) fun _ => ⟨hw, ht⟩
  refine (wp_bind ..).mpr (hwrap.mono (fun m v hv => ?_) fun _ _ h => h)
  simp only [wp_bind, wp_modify]
  have hf := hafter m v hv.1
  refine wp_if (fun hr => ?_) fun hr => ⟨hf, hr⟩
  obtain ⟨e, he⟩ := Option.isSome_iff_exists.mp (hv.2 hr)
  simp only [wp_bind, wp_modify, wp_pure]
  exact ⟨after m v, e, m.osError, hf, by rw [he]⟩

theorem setBuf_fine {w : World σ} (hw : Fine env P w) (d : Direction) (bs : List Byte) :
    Fine env P (w.setBuf d bs) := by
  refine ⟨reached_setBuf hw.1 d bs, ?_⟩
  cases d <;> exact hw.2

theorem transferFill_reached (w : World σ) (hw : Fine env P w) (d : Direction) (t : Transfer)
    (ht : t.result ≠ .error) : Wp (transferFill env d t) w (Transferred env P) fun _ _ => True := by
  simp only [transferFill, wp_bind, wp_get]
  exact transferExec_reached w hw t ht _ _ _ (fillWrapper_reached w hw d _) fun _ _ hv => setBuf_fine hv d _

theorem transferDrain_reached (w : World σ) (hw : Fine env P w) (d : Direction) (t : Transfer)
    (ht : t.result ≠ .error) : Wp (transferDrain env d t) w (Transferred env P) fun _ _ => True := by
  simp only [transferDrain, wp_bind, wp_get]
  exact transferExec_reached w hw t ht _ _ _ (drainWrapper_reached w hw d _) fun _ _ hv => setBuf_fine hv d _

theorem bufferTransferLoop_reached (fuel : ℕ) (w : World σ) (hw : Fine env P w) (d : Direction)
    (input output : Transfer) (hi : input.result ≠ .error) (ho : output.result ≠ .error) :
    Wp (bufferTransferLoop env d fuel input output) w
      (fun r w' => if r.isSome then Fine env P w' else Broken env P w') fun _ _ => True := by
  induction fuel generalizing w input output with
  | zero =>
    simp only [bufferTransferLoop]
    exact wp_if (fun _ => trivial) fun _ => hw
  | succ fuel ih =>
    simp only [bufferTransferLoop]
    refine wp_if (fun _ => ?_) fun _ => hw
    refine (wp_bind ..).mpr ((transferFill_reached w hw d input hi).mono (fun r v hv => ?_) fun _ _ h => h)
    obtain ⟨input', ok⟩ := r
    cases ok with
    | false => exact hv
    | true =>
      refine (wp_bind ..).mpr ((transferDrain_reached v hv.1 d output ho).mono (fun r u hu => ?_) fun _ _ h => h)
      obtain ⟨output', ok⟩ := r
      cases ok with
      | false => exact hu
      | true => exact ih u hu.1 input' output' hv.2 hu.2

theorem clientBufferTransfer_reached (w : World σ) (hw : Reached env P w) (d : Direction) :
    Wp (clientBufferTransfer env d) w (fun _ w' => Reached env P w') fun _ _ => True := by
  simp only [clientBufferTransfer, wp_bind, wp_get]
  refine wp_if (fun _ => hw) fun hn => ?_
  have hw : Fine env P w := ⟨hw, by simpa using hn⟩
  refine (wp_bind ..).mpr ((bufferTransferLoop_reached _ w hw d {} {} (by simp) (by simp)).mono
    (fun r v hv => ?_) fun _ _ h => h)
  cases r with
  | none =>
    obtain ⟨u, e, osError, hu, rfl⟩ := hv
    have hrun := reached_act (.fail e osError) hu.1 hu.2
    simp only [Act.run, wp_bind, wp_modify] at hrun
    exact (wp_bind ..).mpr (hrun.mono (fun _ _ h => h) fun _ _ h => h)
  | some r =>
    obtain ⟨input, output⟩ := r
    have hend : ∀ u, Fine env P u → Wp (do
        if input.isEof || output.isEof then
          clientSetStateInitial env
          pure .ready
        else if input.result = .wouldBlock && ((← get).buf d).length = 0 then pure d.fillStatus
        else pure d.drainStatus : Prog σ IoStatus) u (fun _ w' => Reached env P w') fun _ _ => True := by
      intro u hu
      refine wp_if (fun _ => ?_) fun _ => ?_
      · exact (wp_bind ..).mpr ((reached_act .eof hu.1 hu.2).mono (fun _ _ h => h) fun _ _ h => h)
      · simp only [wp_bind, wp_get]
        exact wp_if (fun _ => hu.1) fun _ => hu.1
    refine wp_if (fun _ => ?_) fun _ => hend v hv
    simp only [wp_bind, wp_get]
    refine ((reached_act (.touch v.currentStore) hv.1 trivial).and
      (storeTouch_effects env P v v.currentStore)).mono (fun _ u hu => hend u ⟨hu.1, ?_⟩) fun _ _ h => h.1
    obtain ⟨-, -, rfl⟩ := hu
    exact (World.setStore_error ..).trans hv.2

theorem clientProcessBuffer_reached (w : World σ) (process : Prog σ IoStatus)
    (connVal dataVal : ℕ) (blkStr : World σ → Option StrRef) (returnVal : ℕ)
    (hp : Wp process w (fun _ w' => Reached env P w') fun _ _ => True) :
    Wp (clientProcessBuffer env process connVal dataVal blkStr returnVal) w
      (fun _ w' => Reached env P w') fun _ _ => True := by
  refine (wp_bind ..).mpr (hp.mono (fun status v hv => ?_) fun _ _ h => h)
  cases status with
  | ready | blockConn | blockData => exact hv
  | error =>
    simp only [wp_bind, wp_get]
    refine (wp_assert ..).mpr ?_
    split
    · exact hv
    · trivial

theorem runOnceLoop_reached (fuel : ℕ) (w : World σ) (hw : Reached env P w) :
    Wp (runOnceLoop env fuel) w (fun _ w' => Reached env P w') fun _ _ => True := by
  induction fuel generalizing w with
  | zero => trivial
  | succ fuel ih =>
    refine (wp_bind ..).mpr ((clientProcessBuffer_reached w _ _ _ _ _
      (clientBufferTransfer_reached w hw .output)).mono (fun r v hv => ?_) fun _ _ h => h)
    obtain ⟨go, result, strRd⟩ := r
    refine wp_if (fun _ => hv) fun _ => ?_
    simp only [wp_bind, wp_get]
    refine (clientProcessBuffer_reached v _ _ _ _ _
      (clientBufferTransfer_reached v hv .input)).mono (fun r u hu => ?_) fun _ _ h => h
    obtain ⟨go, result, strWr⟩ := r
    refine wp_if (fun _ => hu) fun _ => ?_
    simp only [wp_bind, wp_get]
    exact wp_if (fun _ => ih u hu) fun _ => hu

theorem clientKeepAlive_reached (w : World σ) (hw : Reached env P w) :
    Wp (clientKeepAlive env) w (fun _ w' => Reached env P w') fun _ _ => True := by
  simp only [clientKeepAlive, wp_bind, wp_get]
  refine wp_if (fun _ => hw) fun hn => ?_
  refine (wp_bind ..).mpr (((reached_run .currentTimeout _ rfl hw trivial).and (currentTimeout_spec w)).mono
    (fun r v hv => ?_) fun _ _ h => h.1)
  obtain ⟨hv, a, rfl⟩ := hv
  obtain ⟨has, count, secs, nsecs⟩ := r
  refine wp_if (fun _ => hv) fun _ => wp_if (fun _ => ?_) fun _ => ?_
  · have h := reached_act (.fail .timeout 0) hv (show w.error = none by simpa using hn)
    simp only [Act.run, wp_bind, wp_modify] at h ⊢
    exact h
  · exact (wp_bind ..).mpr (reached_run .pingreq _ rfl hv trivial)

/-- `lmqtt_client_run_once` leads from reached states to reached states. -/
theorem lmqttClientRunOnce_reached (w : World σ) (hw : Reached env P w) :
    Wp (lmqttClientRunOnce env) w (fun _ w' => Reached env P w') fun _ _ => True := by
  refine (wp_bind ..).mpr ((clientKeepAlive_reached w hw).mono (fun status v hv => ?_) fun _ _ h => h)
  split
  · simp only [wp_bind, wp_get]
    refine (wp_assert ..).mpr ?_
    split
    · exact hv
    · trivial
  · exact runOnceLoop_reached _ v hv

/-! ### Runs that can be evaluated -/

section Evaluated
variable {ρ : Type} [Reentrant ρ] {env : EnvOf σ ρ}

/- Whether an act is possible, where `p` allows a connect. -/
def Act.ready (p : World σ → Bool) (w : World σ) : Act σ → Bool
  | connect _ => p w
  | decode _ | encode _ | fail .. | eof => w.error.isNone
  | _ => true

/- The state behind some acts, if each of them is possible and returns. -/
def runActs (env : EnvOf σ ρ) (p : World σ → Bool) : List (Act σ) → World σ → Option (World σ)
  | [], w => some w
  | a :: as, w =>
    if a.ready p w then
      match a.run env w with
      | .ok _ w' => runActs env p as w'
      | .error _ _ => none
    else none

theorem run_of_runActs {p : World σ → Bool} {a : Act σ} {w w' : World σ} (h : runActs env p [a] w = some w') :
    a.run env w = .ok () w' := by
  simp only [runActs] at h
  split at h
  · split at h
    · rename_i v hv
      cases h
      exact hv
    · contradiction
  · contradiction

/- The same from the start of a client. -/
def runClient (env : EnvOf σ ρ) (p : World σ → Bool) (buffers : ClientBuffers) (heap : Heap) (app : σ)
    (as : List (Act σ)) : Option (World σ) :=
  match lmqttClientInitialize env (clientCleared buffers heap app) with
  | .ok _ w => runActs env p as w
  | .error _ _ => none

/- The same for runs under a condition. -/
def runBy (env : EnvOf σ ρ) (c : World σ → Act σ → Bool) : List (Act σ) → World σ → Option (World σ)
  | [], w => some w
  | a :: as, w =>
    if a.ready (fun _ => true) w && c w a then
      match a.run env w with
      | .ok _ w' => runBy env c as w'
      | .error _ _ => none
    else none

def runClientBy (env : EnvOf σ ρ) (c : World σ → Act σ → Bool) (buffers : ClientBuffers) (heap : Heap) (app : σ)
    (as : List (Act σ)) : Option (World σ) :=
  match lmqttClientInitialize env (clientCleared buffers heap app) with
  | .ok _ w => runBy env c as w
  | .error _ _ => none

section Acts
variable {p : World σ → Bool} (hp : ∀ v, p v = true → P v)
include hp

theorem ready_enabled (w : World σ) (a : Act σ) (h : a.ready p w = true) : a.Enabled P w := by
  cases a <;> simp_all [Act.ready, Act.Enabled]

theorem reached_runActs (as : List (Act σ)) (w w' : World σ) (hw : Reached env P w)
    (h : runActs env p as w = some w') : Reached env P w' := by
  induction as generalizing w with
  | nil =>
    cases h
    exact hw
  | cons a as ih =>
    simp only [runActs] at h
    split at h
    · rename_i hr
      split at h
      · rename_i v hv
        exact ih v (.act w v a hw (ready_enabled hp w a hr) hv) h
      · contradiction
    · contradiction

theorem reached_runClient (buffers : ClientBuffers) (heap : Heap) (app : σ) (as : List (Act σ)) (w : World σ)
    (h : runClient env p buffers heap app as = some w) : Reached env P w := by
  simp only [runClient] at h
  split at h
  · rename_i v hv
    exact reached_runActs hp as v w (.start buffers heap app v hv) h
  · contradiction

/- The state of a run that goes through. -/
theorem reached_get (buffers : ClientBuffers) (heap : Heap) (app : σ) (as : List (Act σ))
    (h : (runClient env p buffers heap app as).isSome = true) :
    Reached env P ((runClient env p buffers heap app as).get h) :=
  reached_runClient hp buffers heap app as _ (Option.some_get h).symm

end Acts

section RunsBy
variable {C : World σ → Act σ → Prop} {c : World σ → Act σ → Bool} (hc : ∀ v a, c v a = true → C v a)
include hc

theorem reachedBy_runBy (as : List (Act σ)) (w w' : World σ) (hw : ReachedBy env C w)
    (h : runBy env c as w = some w') : ReachedBy env C w' := by
  induction as generalizing w with
  | nil =>
    cases h
    exact hw
  | cons a as ih =>
    simp only [runBy] at h
    split at h
    · rename_i hr
      obtain ⟨hr, hca⟩ := Bool.and_eq_true_iff.mp hr
      split at h
      · rename_i v hv
        have ha := ready_enabled (P := fun _ => True) (fun _ _ => trivial) w a hr
        exact ih v (.act w v a hw (hc w a hca) ha hv) h
      · contradiction
    · contradiction

theorem reachedBy_get (buffers : ClientBuffers) (heap : Heap) (app : σ) (as : List (Act σ))
    (h : (runClientBy env c buffers heap app as).isSome = true) :
    ReachedBy env C ((runClientBy env c buffers heap app as).get h) := by
  have hrun := (Option.some_get h).symm
  generalize (runClientBy env c buffers heap app as).get h = w at hrun ⊢
  simp only [runClientBy] at hrun
  split at hrun
  · rename_i v hv
    exact reachedBy_runBy hc as v w (.start buffers heap app v hv) hrun
  · contradiction

end RunsBy

end Evaluated

/- Every connect is allowed. -/
def anyConnect (_ : World σ) : Bool := true

theorem anyConnect_true (v : World σ) (_ : anyConnect v = true) : True := trivial

/- An application that takes every message into its memory and wants to know
   nothing else. -/
def memoryEnvOf (ρ : Type) : EnvOf Unit ρ where
  message := {
    onPublish := some fun a _ => ⟨a, true, []⟩
    onPublishAllocateTopic := some fun a _ n =>
      ⟨a, .success, { len := n, buf := some (List.replicate n 0) }⟩
    onPublishAllocatePayload := some fun a _ n =>
      ⟨a, .success, { len := n, buf := some (List.replicate n 0) }⟩ }
  read := fun a _ => ⟨a, .wouldBlock, [], 0⟩
  write := fun a bs => ⟨a, .success, bs.length, 0⟩
  getTime := fun a => (a, { secs := 1 })
  strRead := fun a _ _ => ⟨a, .wouldBlock, [], 0⟩
  strWrite := fun a _ _ => ⟨a, .wouldBlock, 0, 0⟩
  fuel := 64

def memoryEnv : Env Unit := memoryEnvOf Request

/- A connection that keeps the session: CONNECT, and the CONNACK for it. -/
def connectKept : List (Act Unit) := [.connect 0, .encode 64, .decode [0x20, 2, 0, 0]]

/- Objects of one byte each; connects keep the session. -/
def smallHeap : Heap where
  connects := fun _ => { clientId := { len := 1, buf := some [97] } }
  subscribes := fun _ => { count := 1, subscriptions := [{ topic := { len := 1, buf := some [97] } }] }
  publishes := fun _ =>
    { qos := 2, topic := { len := 1, buf := some [97] }, payload := { len := 1, buf := some [98] } }

end LightMqtt
