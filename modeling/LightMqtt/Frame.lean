import LightMqtt.Acknowledge
import LightMqtt.Packets

/-!
# What the client leaves alone

Effects say what a function of the client may do. Frames say what it does not
do: which fields of the client are as they were, and which events were not
logged. First the functions that change the state of the client, then the parts
of the decoder.
-/

namespace LightMqtt

open Exec

variable {σ : Type} (env : Env σ)

/-! ### Quiet work -/

/- Events of the application and of the decoder's packets: no message, nothing
   that is sent, and no change of the client's state. -/
def Event.isInner : Event → Bool
  | .accepted .. | .answered .. | .packetId .. | .popped .. | .decoded .. | .finished .. | .allocate ..
    | .deallocate => true
  | _ => false

theorem Event.isInner_of_note {ev : Event} (h : ev.isNote = true) : ev.isInner = true := by
  cases ev <;> first | rfl | contradiction

/- The log grew by events with the property `E`. -/
def Logged (E : Event → Prop) (w w' : World σ) : Prop := ∃ evs, w'.log = evs ++ w.log ∧ ∀ ev ∈ evs, E ev

section Logged
variable {E F : Event → Prop} {w w' w'' : World σ}

theorem Logged.refl : Logged E w w := ⟨[], rfl, by simp⟩

theorem Logged.trans (h : Logged E w w') (h' : Logged E w' w'') : Logged E w w'' := by
  obtain ⟨evs, hl, he⟩ := h
  obtain ⟨evs', hl', he'⟩ := h'
  refine ⟨evs' ++ evs, by rw [hl', hl, List.append_assoc], fun ev hev => ?_⟩
  rcases List.mem_append.mp hev with hev | hev
  · exact he' ev hev
  · exact he ev hev

theorem Logged.mono (h : Logged E w w') (hf : ∀ ev, E ev → F ev) : Logged F w w' := by
  obtain ⟨evs, hl, he⟩ := h
  exact ⟨evs, hl, fun ev hev => hf ev (he ev hev)⟩

theorem Logged.of_log (h : w'.log = w.log) : Logged E w w' := ⟨[], h, by simp⟩

theorem Logged.one {ev : Event} (h : w'.log = ev :: w.log) (he : E ev) : Logged E w w' :=
  ⟨[ev], h, by simpa using he⟩

end Logged

/- The entries of a store and its mark are as they were. -/
structure Store.SameQueue (s t : Store) : Prop where
  entries : t.entries = s.entries
  pos : t.pos = s.pos
  capacity : t.capacity = s.capacity

theorem Store.SameQueue.refl (s : Store) : s.SameQueue s := ⟨rfl, rfl, rfl⟩

theorem Store.SameQueue.trans {s t u : Store} (h : s.SameQueue t) (h' : t.SameQueue u) : s.SameQueue u :=
  ⟨h'.entries.trans h.entries, h'.pos.trans h.pos, h'.capacity.trans h.capacity⟩

/-- The one place of the connect store is taken by a CONNECT. -/
def World.Reserved (w : World σ) : Prop :=
  ∃ e, w.connectStore.entries = [e] ∧ e.kind = .connect ∧ w.connectStore.capacity ≤ 1

theorem World.Reserved.same {w w' : World σ} (h : w.Reserved) (hs : w.connectStore.SameQueue w'.connectStore) :
    w'.Reserved := by
  obtain ⟨e, he, hk, hc⟩ := h
  exact ⟨e, hs.entries.trans he, hk, hs.capacity.trans_le hc⟩

/-- Quiet work: the client is in the same state, nothing is sent, and no message
is delivered. -/
structure Still (w w' : World σ) : Prop where
  same : w' = { w with
    heap := w'.heap, app := w'.app, log := w'.log, nextReq := w'.nextReq, ids := w'.ids, mainStore := w'.mainStore
    connectStore := w'.connectStore, readBuf := w'.readBuf, writeBuf := w'.writeBuf
    rx := { w.rx with internal := w'.rx.internal } }
  heap : w'.heap.still = w.heap.still
  log : Logged (fun ev => ev.isInner = true) w w'
  reserved : w.Reserved → w.connectStore.SameQueue w'.connectStore

section Still
variable {w w' w'' : World σ}

theorem Still.refl (w : World σ) : Still w w := ⟨rfl, rfl, .refl, fun _ => .refl _⟩

theorem Still.trans (h : Still w w') (h' : Still w' w'') : Still w w'' := by
  refine ⟨?_, h'.heap.trans h.heap, h.log.trans h'.log, fun hr => ?_⟩
  · rw [h'.same, h.same]
  · have hq := h.reserved hr
    exact hq.trans (h'.reserved (hr.same hq))

theorem Still.setRx (w : World σ) (i : RxInternal) : Still w (w.setRx i) :=
  ⟨rfl, rfl, .of_log rfl, fun _ => .refl _⟩

theorem Still.app (w : World σ) (a : σ) : Still w { w with app := a } :=
  ⟨rfl, rfl, .of_log rfl, fun _ => .refl _⟩

theorem Still.emit (w : World σ) (ev : Event) (he : ev.isInner = true) : Still w (w.emit ev) :=
  ⟨rfl, rfl, .one rfl he, fun _ => .refl _⟩

theorem Called.still (h : Called w w') : Still w w' := by
  have hs := h.same
  obtain ⟨evs, hl, he⟩ := h.log
  refine ⟨?_, ?_, ⟨evs, hl, fun ev hev => ?_⟩, fun _ => ?_⟩
  · rw [hs]
  · rw [hs]
  · obtain ⟨r, k, id, p, u, -, rfl⟩ := he ev hev
    rfl
  · rw [hs]
    exact .refl _

/- A store of the decoder is replaced. -/
theorem Still.setStore {s : Store} (hc : w.rx.store = .connect → w.Reserved → w.connectStore.SameQueue s) :
    Still w (w.setStore w.rx.store s) := by
  cases hr : w.rx.store with
  | main => exact ⟨rfl, rfl, .of_log rfl, fun _ => .refl _⟩
  | connect => exact ⟨rfl, rfl, .of_log rfl, fun h => hc hr h⟩

/- A taken connect store has no room for anything else. -/
theorem Still.append {e : Entry} {s : Store} (hs : w.rxStore.append e = some s) :
    Still w (w.setStore w.rx.store s) := by
  refine .setStore fun hr hres => ?_
  obtain ⟨x, hx, -, hcap⟩ := hres
  have hroom := (Store.append_spec _ _ _ hs).room
  rw [World.rxStore, hr] at hroom
  change w.connectStore.entries.length < w.connectStore.capacity at hroom
  rw [hx] at hroom
  simp only [List.length_singleton] at hroom
  omega

theorem Still.pop {k : Kind} {id : PacketId} {e : Entry} {s : Store} (hk : k ≠ .connect)
    (hs : w.rxStore.popMarkedBy k id = some (e, s)) : Still w (w.setStore w.rx.store s) := by
  refine .setStore fun hr hres => ?_
  obtain ⟨x, hx, hkx, -⟩ := hres
  obtain ⟨pre, post, hrem, -, hke, -⟩ := Store.popMarkedBy_spec _ _ _ _ _ hs
  have hmem := hrem.mem
  rw [World.rxStore, hr] at hmem
  change e ∈ w.connectStore.entries at hmem
  rw [hx, List.mem_singleton] at hmem
  rw [← hmem, hke] at hkx
  exact absurd hkx hk

theorem answers_isInner (w : World σ) (v : Value) : ∀ ev ∈ w.answers v, ev.isInner = true := by
  intro ev hev
  unfold World.answers at hev
  split at hev
  · simp at hev
  · simp at hev
  · split at hev
    · rw [List.mem_singleton] at hev
      rw [hev]
      rfl
    · simp at hev
  · rw [List.mem_singleton] at hev
    rw [hev]
    rfl

theorem Still.answered (w : World σ) (v : Value) : Still w (w.answered v) :=
  ⟨rfl, rfl, ⟨_, rfl, answers_isInner w v⟩, fun _ => .refl _⟩

end Still

/-! ### Flushing the stores -/

/-- What flushing the stores leaves alone. -/
structure Cleaned (w w' : World σ) : Prop where
  same : w' = { w with
    app := w'.app, log := w'.log, nextReq := w'.nextReq, ids := w'.ids, mainStore := w'.mainStore
    connectStore := w'.connectStore, rx := { w.rx with idSet := w'.rx.idSet } }
  ids : w'.rx.idSet = w.rx.idSet ∨ w'.rx.idSet = w.rx.idSet.clear
  log : Logged (fun ev => ev.isInner = true) w w'

section Cleaned
variable {w w' w'' : World σ}

theorem Cleaned.refl (w : World σ) : Cleaned w w := ⟨rfl, .inl rfl, .refl⟩

theorem Cleaned.trans (h : Cleaned w w') (h' : Cleaned w' w'') : Cleaned w w'' := by
  refine ⟨?_, ?_, h.log.trans h'.log⟩
  · rw [h'.same, h.same]
  · rcases h'.ids with h' | h' <;> rcases h.ids with h | h <;> rw [h', h]
    · exact .inl rfl
    · exact .inr rfl
    · exact .inr rfl
    · exact .inr rfl

theorem Cleaned.setStore (w : World σ) (r : StoreRef) (s : Store) : Cleaned w (w.setStore r s) := by
  cases r <;> exact ⟨rfl, .inl rfl, .of_log rfl⟩

/- A callback that does not open the client. -/
theorem Called.cleaned {v : Value} (h : Called (w.answered v) w') : Cleaned w w' := by
  have hs := h.same
  refine ⟨?_, ?_, (Still.answered w v).log.trans h.still.log⟩
  · rw [hs]
    rfl
  · rw [hs]
    exact .inl rfl

end Cleaned

section Flush
variable {env} {P : World σ → Prop} {call : Value → Prog σ Bool}

theorem clientFlushStore_cleaned (hcall : CallSpec env P call) (r : StoreRef) (fuel : ℕ) (w : World σ) (hw : Sound w)
    (hf : w.Flushing) (hr : r = .main → w.GivesUp) :
    Wp (clientFlushStore call r fuel) w (fun _ w' => Cleaned w w') fun _ _ => True := by
  induction fuel generalizing w with
  | zero =>
    simp only [clientFlushStore, wp_bind, wp_get, wp_ite, wp_throw, wp_pure]
    split
    · trivial
    · exact .refl w
  | succ fuel ih =>
    simp only [clientFlushStore, wp_bind, wp_get]
    split
    · exact .refl w
    · rename_i e s hs
      obtain ⟨post, hrem⟩ := Store.shift_spec _ _ _ hs
      have hshift : Effect env P _ _ := .shift w r e s hr (fun _ => hf.imp id And.left) hs
      rw [← answered_setStore] at hshift
      have hclosed : e.value.callback = some .onConnack → (w.setStore r s).closed = true := fun hv => by
        simpa using hf.callback hw hrem.mem hv
      -- the entry is answered, then the rest of the store is flushed
      have hrest : ∀ w₁, CallOk env P (w.setStore r s) e.value w₁ →
          Wp (clientFlushStore call r fuel) w₁ (fun _ w' => Cleaned w w') fun _ _ => True := by
        intro w₁ h₁
        have hcalled := h₁.called hclosed
        have h₁ := h₁.flushed hrem (.of hshift) hw hf
        have hgive : r = .main → w₁.GivesUp := by
          intro hm
          have hg := hr hm
          rwa [World.GivesUp, h₁.cleanSession hf, h₁.framed.error]
        refine (ih w₁ (h₁.effects.sound hw) (h₁.flushing hf) hgive).mono (fun _ w₂ h₂ => ?_) fun _ _ h => h
        exact (Cleaned.setStore w r s).trans (hcalled.cleaned.trans h₂)
      simp only [wp_bind, wp_set, wp_ite]
      split
      · refine (hcall e.value _ fun hv hc => ?_).mono (fun _ w₁ h₁ => hrest w₁ h₁) fun _ _ _ => trivial
        rw [hclosed hv] at hc
        contradiction
      · rename_i hn
        have hnone : e.value.callback = none := by simpa using hn
        apply hrest
        have ha := answered_none (w.setStore r s) e.value hnone
        refine ⟨?_, .refl _, fun _ => ?_, by simp [hnone], fun q hq _ => ?_⟩
        · rw [ha]
          exact .refl
        · rw [ha]
          exact .refl _
        · rwa [ha] at hq

theorem clientCleanupStores_cleaned (hcall : CallSpec env P call) (keep : Bool) (w : World σ) (hw : Sound w)
    (hf : w.Flushing) (hk : keep = true → w.cleanSession = false) (hg : keep = false → w.GivesUp) :
    Wp (clientCleanupStores env call keep) w (fun _ w' => Cleaned w w') fun _ _ => True := by
  have hlast : ∀ w₁, Flushed env P w w₁ → Cleaned w w₁ →
      Wp (clientFlushStore call .connect env.fuel) w₁ (fun _ w' => Cleaned w w') fun _ _ => True := by
    intro w₁ h₁ he₁
    refine (clientFlushStore_cleaned hcall .connect env.fuel w₁ (h₁.effects.sound hw) (h₁.flushing hf)
      (by simp)).mono (fun _ w₂ h₂ => he₁.trans h₂) fun _ _ h => h
  simp only [clientCleanupStores, wp_bind, wp_ite, wp_modify]
  split
  · rename_i hkeep
    exact hlast _ (.sessionless w (hk hkeep)) (.setStore w .main _)
  · rename_i hkeep
    have hgive := hg (by simpa using hkeep)
    refine ((clientFlushStore_spec env P call hcall .main env.fuel w hw hf fun _ => hgive).and
      (clientFlushStore_cleaned hcall .main env.fuel w hw hf fun _ => hgive)).mono (fun _ w₁ h₁ => ?_) fun _ _ _ => trivial
    obtain ⟨⟨h₁, -⟩, he₁⟩ := h₁
    have hgive' : w₁.GivesUp := by
      rwa [World.GivesUp, h₁.cleanSession hf, h₁.framed.error]
    exact hlast _ (h₁.trans (.clearIds w₁ hgive')) (he₁.trans ⟨rfl, .inr rfl, .of_log rfl⟩)

end Flush

/-! ### Changes of the client's state -/

/-- What a CONNACK with return code 0 does: the client is open, and works on the
main store. -/
structure Opened (w w' : World σ) : Prop where
  same : w' = { w with
    app := w'.app, log := w'.log, nextReq := w'.nextReq, ids := w'.ids, mainStore := w'.mainStore
    connectStore := w'.connectStore, cleanSession := w'.cleanSession, leftover := w'.leftover
    error := none, osError := 0, closed := false, currentStore := .main
    rx := { w.rx with store := .main, idSet := w'.rx.idSet }
    tx := { w.tx with store := .main }
    ops := { w.ops with
      subscribe := true, unsubscribe := true, publish := true, pingreq := true, disconnect := true } }
  alive : w.closed = false
  ids : w'.rx.idSet = w.rx.idSet ∨ w'.rx.idSet = w.rx.idSet.clear
  log : ∃ b evs, w'.log = evs ++ .connected b :: w.log ∧ ∀ ev ∈ evs, ev.isInner = true

/-- What `client_set_state_initial` does. -/
structure Reverted (w w' : World σ) : Prop where
  same : w' = { w with
    app := w'.app, log := w'.log, nextReq := w'.nextReq, ids := w'.ids, mainStore := w'.mainStore
    connectStore := w'.connectStore, error := none, osError := 0, closed := true, currentStore := .connect
    rx := { w.rx with store := .connect, idSet := w'.rx.idSet }
    tx := { w.tx with store := .connect, closed := true }
    ops := { connect := true } }
  ids : w'.rx.idSet = w.rx.idSet ∨ w'.rx.idSet = w.rx.idSet.clear
  empty : w'.connectStore.entries = []
  log : ∃ evs, w'.log = evs ++ .closed :: w.log ∧ ∀ ev ∈ evs, ev.isInner = true

/-- What `lmqtt_client_finalize` does. -/
structure Finalized (w w' : World σ) : Prop where
  same : w' = { w with
    app := w'.app, log := w'.log, nextReq := w'.nextReq, ids := w'.ids, mainStore := w'.mainStore
    connectStore := w'.connectStore, error := some .closed, osError := 0, closed := true
    rx := { w.rx with internal := w'.rx.internal, idSet := w'.rx.idSet }
    ops := {} }
  ids : w'.rx.idSet = w.rx.idSet ∨ w'.rx.idSet = w.rx.idSet.clear
  log : Logged (fun ev => ev.isInner = true) w w'

section Session
variable {env} {P : World σ → Prop}

theorem clientConnected_opened (call : Value → Prog σ Bool) (hcall : CallSpec env P call) (v : Value)
    (w : World σ) (hw : Opens w v) (hv : v.callback = some .onConnack) (hc : w.closed = false) :
    Wp (do
        set { w with
          cleanSession := (w.heap.connects v.value).cleanSession
          mainStore := { w.mainStore with keepAlive := (w.heap.connects v.value).keepAlive } }
        clientSetStateConnected env call : Prog σ Unit) w
      (fun _ w' => Opened w w') fun _ _ => True := by
  have he := hw.sound.alive hc
  have hconn : Effect env P _ _ := .connected w v.value hc he hw.offline hw.calls
  simp only [clientSetStateConnected, clientSetCurrentStore, wp_bind, wp_set, wp_modify, wp_get]
  have hsound := sound_effect hconn hw.sound
  refine (clientCleanupStores_cleaned hcall _ _ hsound (.inr ⟨⟨hw.offline, rfl⟩, ?_⟩) ?_ ?_).mono
    (fun _ w₁ h₁ => ?_) fun _ _ h => h
  · change w.rx.internal.value.callback = _
    rw [hw.held]
    exact hv
  · intro hk
    simpa using hk
  · intro hk
    exact .inl (by simpa using hk)
  · obtain ⟨evs, hl, hin⟩ := h₁.log
    refine ⟨?_, hc, h₁.ids, _, evs, hl, hin⟩
    rw [h₁.same]

/- The callback of a CONNACK that opens the client, and the requests it makes. -/
theorem callCallback_opened (depth : ℕ) (v : Value) (w : World σ) (hw : Opens w v)
    (hv : v.callback = some .onConnack) (hc : w.closed = false) :
    Wp (callCallback env depth v) w (fun _ w' => ∃ u, Opened w u ∧ Still u w') fun _ _ => True := by
  cases depth with
  | zero =>
    rw [callCallback_requests]
    simp only [wp_bind, wp_get, hv, hc, Bool.false_eq_true, if_false, wp_throw]
  | succ depth =>
    have hconn := clientConnected_opened _ (callCallback_spec env (fun _ => True) depth) v w hw hv hc
    rw [callCallback_requests]
    simp only [wp_bind, wp_get, wp_set, hv, hc, Bool.false_eq_true, if_false] at hconn ⊢
    refine hconn.mono (fun _ w₁ h₁ => ?_) fun _ _ h => h
    refine (callUser_called env (fun _ => True) w₁ env.onConnect .onConnack v true).mono
      (fun _ w₂ h₂ => ?_) fun _ _ _ => trivial
    exact ⟨w₁, h₁, (Still.emit w₁ _ rfl).trans h₂.1.still⟩

theorem clientSetStateInitial_reverted (w : World σ) (hw : Sound w) (he : w.error ≠ some .closed) :
    Wp (clientSetStateInitial env) w (fun _ w' => Reverted w w') fun _ _ => True := by
  simp only [clientSetStateInitial, setStateInitialWith, storeTouch, clientSetCurrentStore, lmqttTxBufferFinish,
    wp_bind, wp_modify, wp_get]
  have h₁ : Effect env (fun _ => True) _ _ := .initial w he
  have h₂ := ((Effects.of h₁).then (.clock _ .connect)).then (.app _ (env.getTime w.app).1)
  have h₃ := h₂.then (.detached _ rfl)
  have hcall := callValue_spec env fun _ => True
  refine ((clientCleanupStores_spec env _ _ hcall (!w.cleanSession) _ (h₃.sound hw) (.inl rfl) ?_ ?_).and
    (clientCleanupStores_cleaned hcall (!w.cleanSession) _ (h₃.sound hw) (.inl rfl) ?_ ?_)).mono
    (fun _ w₄ h₄ => ?_) fun _ _ _ => trivial
  · intro hk
    simpa [World.setStore] using hk
  · intro hk
    exact .inl (by simpa [World.setStore] using hk)
  · intro hk
    simpa [World.setStore] using hk
  · intro hk
    exact .inl (by simpa [World.setStore] using hk)
  · obtain ⟨⟨-, hempty⟩, h₄⟩ := h₄
    obtain ⟨evs, hl, hin⟩ := h₄.log
    refine ⟨?_, h₄.ids, hempty, evs, hl, hin⟩
    rw [h₄.same]
    rfl

theorem lmqttClientFinalize_finalized (w : World σ) (hw : Sound w) :
    Wp (lmqttClientFinalize env) w (fun _ w' => Finalized w w') fun _ _ => True := by
  simp only [lmqttClientFinalize, finalizeWith, wp_bind, wp_modify]
  refine (clientSetStateFailed_spec env w .closed 0).mono (fun _ w₁ h₁ => ?_) fun _ _ h => h.elim
  generalize hw₁ : { w with error := some .closed, osError := 0, closed := true, ops := {} } = w₂ at h₁
  subst h₁
  have hfail : Effect env (fun _ => True) w w₁ := hw₁ ▸ .failed w .closed 0 fun _ => rfl
  have hcl : w₁.closed = true := by rw [← hw₁]
  have he₁ : w₁.error = some .closed := by rw [← hw₁]
  simp only [rxBufferFinishWith, wp_bind, wp_get, wp_modify, wp_pure]
  -- the callback of the request the decoder holds
  have hheld : Effects env (fun _ => True) w (w₁.calling.answered w₁.rx.internal.value) :=
    (Effects.of hfail).then (.finalAnswer w₁ hcl he₁)
  refine (callValue_spec env (fun _ => True) w₁.rx.internal.value w₁.calling fun _ hc => ?_).mono
    (fun _ w₂ h₂ => ?_) fun _ _ _ => trivial
  · rw [show w₁.calling.closed = w₁.closed from rfl, hcl] at hc
    contradiction
  · have heff := hheld.trans h₂.effects
    have herr : w₂.error = some .closed := h₂.framed.error.trans he₁
    have hcl₂ : w₂.closed = true := h₂.framed.closed.trans hcl
    have hcalled := (h₂.called fun _ => hcl).cleaned
    refine (clientCleanupStores_cleaned (callValue_spec env fun _ => True) false w₂ (heff.sound hw) (.inl hcl₂) (by simp)
      fun _ => .inr herr).mono (fun _ w₃ h₃ => ?_) fun _ _ h => h
    have h₃ := hcalled.trans h₃
    refine ⟨?_, ?_, ?_⟩
    · rw [h₃.same, ← hw₁]
      rfl
    · rw [← hw₁] at h₃
      exact h₃.ids
    · rw [← hw₁] at h₃
      exact h₃.log

end Session

end LightMqtt
