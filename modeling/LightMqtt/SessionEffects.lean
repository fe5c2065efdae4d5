import LightMqtt.Sound

/-!
# The effects of callbacks and of state changes

Requests, callbacks, and the functions that move the client between its states,
as sequences of effects, with what they leave alone.
-/

namespace LightMqtt

open Exec

variable {σ : Type} (env : Env σ) (P : World σ → Prop)

/-! ### Requests -/

/-- What the requests of a callback do: the main store grows at its end, and the
log says which requests were accepted. -/
structure Called (w w' : World σ) : Prop where
  same : w' = { w with
    app := w'.app, mainStore := w'.mainStore, nextReq := w'.nextReq, ids := w'.ids, log := w'.log }
  entries : ∃ new, w'.mainStore.entries = w.mainStore.entries ++ new
  pos : w'.mainStore.pos = w.mainStore.pos
  capacity : w'.mainStore.capacity = w.mainStore.capacity
  log : ∃ evs, w'.log = evs ++ w.log ∧
    ∀ ev ∈ evs, ∃ r k id p u, k.isApi = true ∧ ev = Event.accepted r k id p u
  nextReq : w.nextReq ≤ w'.nextReq
  times : ∀ r, r < w.nextReq → w'.mainStore.times r = w.mainStore.times r

theorem Called.refl (w : World σ) : Called w w :=
  ⟨rfl, ⟨[], by simp⟩, rfl, rfl, ⟨[], by simp⟩, le_rfl, fun _ _ => rfl⟩

theorem Called.app (w : World σ) (a : σ) : Called w { w with app := a } :=
  ⟨rfl, ⟨[], by simp⟩, rfl, rfl, ⟨[], by simp⟩, le_rfl, fun _ _ => rfl⟩

theorem Called.trans {w w' w'' : World σ} (h : Called w w') (h' : Called w' w'') : Called w w'' := by
  obtain ⟨hs, ⟨new, hn⟩, hp, hc, ⟨evs, hl, he⟩, hr, ht⟩ := h
  obtain ⟨hs', ⟨new', hn'⟩, hp', hc', ⟨evs', hl', he'⟩, hr', ht'⟩ := h'
  refine ⟨?_, ⟨new ++ new', by rw [hn', hn, List.append_assoc]⟩, hp'.trans hp, hc'.trans hc,
    ⟨evs' ++ evs, by rw [hl', hl, List.append_assoc], ?_⟩, hr.trans hr',
    fun r hlt => (ht' r (by omega)).trans (ht r hlt)⟩
  · rw [hs', hs]
  · intro ev hev
    rcases List.mem_append.mp hev with hev | hev
    · exact he' ev hev
    · exact he ev hev

/- The application is not told of anything by its own requests. -/
theorem Called.answered {w w' : World σ} (h : Called w w') (r : ℕ) :
    timesAnswered w'.log r = timesAnswered w.log r := by
  obtain ⟨evs, hl, he⟩ := h.log
  rw [hl]
  refine timesAnswered_quiet (fun ev hev r => ?_) r
  obtain ⟨r', k, id, p, u, -, rfl⟩ := he ev hev
  rfl

theorem Called.spared {w w' : World σ} (h : Called w w') {r : ℕ} (hr : w.Spared r) : w'.Spared r := by
  obtain ⟨h1, h2, h3⟩ := hr
  have ht := h.times r h1
  have hn := h.nextReq
  refine ⟨by omega, ?_, by rw [h.answered r, h3]⟩
  have hc : w'.connectStore = w.connectStore := by rw [h.same]
  simp only [World.stored, hc] at *
  omega

/- A full store stays as it is. -/
theorem Called.full {w w' : World σ} (h : Called w w') (hf : w.mainStore.capacity ≤ w.mainStore.count) :
    w'.mainStore.entries = w.mainStore.entries := by
  obtain ⟨new, hn⟩ := h.entries
  have hc := w'.mainStore.count_le
  rw [hn, h.capacity, List.length_append] at hc
  simp only [Store.count] at hf
  have hnil : new = [] := List.eq_nil_of_length_eq_zero (by omega)
  rw [hn, hnil, List.append_nil]

/- A call that does what requests do, by effects. -/
def CalledBy (w w' : World σ) : Prop :=
  Called w w' ∧ Effects env P w w'

variable {env P} in
theorem CalledBy.trans {w w' w'' : World σ} (h : CalledBy env P w w') (h' : CalledBy env P w' w'') :
    CalledBy env P w w'' := ⟨h.1.trans h'.1, h.2.trans h'.2⟩

theorem clientGetId_called (w : World σ) :
    Wp clientGetId w (fun id w' => CalledBy env P w w' ∧ w'.ids.fresh = true ∧ w'.mainStore.nextPacketId = id + 1)
      fun _ _ => False := by
  simp only [clientGetId, wp_bind, wp_get, wp_set, wp_pure]
  refine ⟨?_, rfl, rfl⟩
  exact ⟨⟨rfl, ⟨[], by simp [Store.getId]⟩, rfl, rfl, ⟨[], by simp⟩, le_rfl, fun _ _ => rfl⟩, .of (.nextId w)⟩

theorem clientAppendRequest_called (w : World σ) (kind : Kind) (cb : Callback) (id : PacketId) (p : Ptr)
    (hk : kind.isApi = true) (hcb : kind.callback = some cb) (ho : w.ops.requests = true)
    (hp : kind.Suits (w.heap.publishes p))
    (hi : kind.inFlight = true → w.ids.fresh = true ∧ w.mainStore.nextPacketId = id + 1) :
    Wp (clientAppendRequest kind cb id p) w (fun _ w' => CalledBy env P w w') fun _ _ => False := by
  simp only [clientAppendRequest, wp_bind, wp_get]
  split
  · exact ⟨.refl w, .refl⟩
  · rename_i s hs
    simp only [wp_bind, wp_set, wp_pure]
    have ha := Store.append_spec _ _ _ hs
    rw [← hcb] at hs
    refine ⟨⟨rfl, ⟨_, ha.entries⟩, ha.pos, ha.capacity, ⟨[_], rfl, ?_⟩, Nat.le_succ _, fun r hr => ?_⟩,
      .of (.accept w kind id p s hk ho hs hp hi)⟩
    · intro ev hev
      rw [List.mem_singleton] at hev
      exact ⟨_, kind, id, p, _, hk, hev⟩
    · rw [Store.times_append ha, if_neg (by simp only [Option.some.injEq]; omega)]
      rfl

theorem clientSubscribeWithKind_called (w : World σ) (p : Ptr) (kind : Kind) (cb : Callback)
    (hk : kind.isApi = true) (hcb : kind.callback = some cb) (ho : w.ops.requests = true)
    (hp : ∀ b, kind.Suits b) :
    Wp (clientSubscribeWithKind p kind cb) w (fun _ w' => CalledBy env P w w') fun _ _ => False := by
  simp only [clientSubscribeWithKind, wp_bind, wp_get, wp_ite, wp_pure]
  split
  · exact ⟨.refl w, .refl⟩
  · refine (clientGetId_called env P w).mono (fun id w₁ h => ?_) fun _ _ h => h
    obtain ⟨h₁, hi⟩ := h
    have ho₁ : w₁.ops.requests = true := by
      rw [h₁.1.same]
      exact ho
    exact (clientAppendRequest_called env P w₁ kind cb id p hk hcb ho₁ (hp _) fun _ => hi).mono (fun _ _ h₂ => h₁.trans h₂)
      fun _ _ h => h

/- The kind `client_do_publish` chooses for a message of QoS 1 or 2. -/
theorem publishKind_suits {b : Publish} (hv : publishValidate b = true) (h0 : b.qos ≠ 0) :
    (if b.qos = 1 then Kind.publish1 else .publish2).Suits b := by
  split
  · rename_i h1
    exact ⟨hv, h1⟩
  · rename_i h1
    simp only [publishValidate, isValidQos, Bool.and_eq_true, decide_eq_true_eq] at hv
    exact ⟨by simpa [publishValidate, isValidQos] using hv, by omega⟩

theorem clientDoPublish_called (w : World σ) (p : Ptr) (ho : w.ops.requests = true) :
    Wp (clientDoPublish p) w (fun _ w' => CalledBy env P w w') fun _ _ => False := by
  simp only [clientDoPublish, wp_bind, wp_get, wp_ite, wp_pure]
  split
  · exact ⟨.refl w, .refl⟩
  · rename_i hv
    have hv : publishValidate (w.heap.publishes p) = true := by simpa using hv
    split
    · rename_i h0
      exact clientAppendRequest_called env P w _ _ _ p rfl rfl ho ⟨hv, h0⟩ fun h => by contradiction
    · rename_i h0
      refine (clientGetId_called env P w).mono (fun id w₁ h => ?_) fun _ _ h => h
      obtain ⟨h₁, hi⟩ := h
      have hsame := h₁.1.same
      refine (clientAppendRequest_called env P w₁ _ _ id p ?_ ?_ ?_ ?_ fun _ => hi).mono (fun _ _ h₂ => h₁.trans h₂)
        fun _ _ h => h
      · split <;> rfl
      · split <;> rfl
      · rw [hsame]
        exact ho
      · rw [hsame]
        exact publishKind_suits hv h0

theorem enqueue_called (w : World σ) (kind : Kind) (s : Store) (hk : kind = .pingreq ∨ kind = .disconnect)
    (hs : w.mainStore.append ⟨kind, { callback := kind.callback }⟩ = some s) :
    CalledBy env P w { w with mainStore := s } := by
  have ha := Store.append_spec _ _ _ hs
  refine ⟨⟨rfl, ⟨_, ha.entries⟩, ha.pos, ha.capacity, ⟨[], by simp⟩, le_rfl, fun r _ => ?_⟩,
    .of (.enqueue w kind s hk hs)⟩
  rw [Store.times_append ha, if_neg (by simp)]
  rfl

theorem clientDoDisconnect_called (w : World σ) :
    Wp clientDoDisconnect w (fun _ w' => CalledBy env P w w') fun _ _ => False := by
  simp only [clientDoDisconnect, wp_bind, wp_get]
  split
  · exact ⟨.refl w, .refl⟩
  · rename_i s hs
    exact enqueue_called env P w .disconnect s (.inr rfl) hs

theorem clientDoPingreq_called (w : World σ) :
    Wp clientDoPingreq w (fun _ w' => CalledBy env P w w') fun _ _ => False := by
  simp only [clientDoPingreq, wp_bind, wp_get]
  split
  · exact ⟨.refl w, .refl⟩
  · rename_i s hs
    exact enqueue_called env P w .pingreq s (.inl rfl) hs

theorem doRequest_called (w : World σ) (q : Request) :
    Wp (doRequest q) w (fun _ w' => CalledBy env P w w') fun _ _ => False := by
  cases q <;> simp only [doRequest, lmqttClientSubscribe, lmqttClientUnsubscribe, lmqttClientPublish,
    lmqttClientDisconnect, wp_bind, wp_get, wp_ite, wp_pure] <;> split
  · rename_i h
    exact clientSubscribeWithKind_called env P w _ _ _ rfl rfl (by simp [Ops.requests, h]) fun _ => trivial
  · exact ⟨.refl w, .refl⟩
  · rename_i h
    exact clientSubscribeWithKind_called env P w _ _ _ rfl rfl (by simp [Ops.requests, h]) fun _ => trivial
  · exact ⟨.refl w, .refl⟩
  · rename_i h
    exact clientDoPublish_called env P w _ (by simp [Ops.requests, h])
  · exact ⟨.refl w, .refl⟩
  · exact clientDoDisconnect_called env P w
  · exact ⟨.refl w, .refl⟩

theorem doRequests_called (w : World σ) (qs : List Request) :
    Wp (doRequests qs) w (fun _ w' => CalledBy env P w w') fun _ _ => False := by
  induction qs generalizing w with
  | nil => exact ⟨.refl w, .refl⟩
  | cons q qs ih =>
    simp only [doRequests, wp_bind]
    refine (doRequest_called env P w q).mono (fun _ w₁ h₁ => ?_) fun _ _ h => h
    exact (ih w₁).mono (fun _ _ h₂ => h₁.trans h₂) fun _ _ h => h

/- A callback of the application, behind its entry in the log. -/
theorem callUser_called (w : World σ) (f : Option (σ → Ptr → Bool → Reply σ)) (cb : Callback) (v : Value)
    (b : Bool) :
    Wp (callUser doRequests f cb v b) w (fun _ w' => CalledBy env P (w.emit (.answered cb v.req v.value b)) w')
      fun _ _ => False := by
  simp only [callUser, wp_bind, wp_emit]
  split
  · exact ⟨.refl _, .refl⟩
  · rename_i f
    simp only [wp_bind, wp_get, wp_set, wp_pure]
    exact (doRequests_called env P _ _).mono
      (fun _ _ h => CalledBy.trans ⟨.app _ _, .of (.app _ _)⟩ h) fun _ _ h => h

/-! ### Callbacks and the states of the client -/

/-- What nothing but the API and a failure changes. A CONNACK may change the
current store, and then opens the client for requests. -/
structure Steady (w w' : World σ) : Prop where
  closed : w'.closed = w.closed
  error : w'.error = w.error
  log : ∃ evs, w'.log = evs ++ w.log
  ops : w.ops.publish = true → w'.ops.publish = true
  store : w'.rx.store = w.rx.store ∨ w.closed = false ∧ w'.rx.store = .main ∧ w'.ops.publish = true

/-- What the encoder leaves alone. -/
structure Kept (w w' : World σ) : Prop extends Steady w w' where
  rx : w'.rx.internal = w.rx.internal

/-- What a callback leaves alone. -/
structure Framed (w w' : World σ) : Prop extends Kept w w' where
  tx : w'.tx.internal = w.tx.internal
  txClosed : w'.tx.closed = w.tx.closed
  heap : w'.heap = w.heap
  readBuf : w'.readBuf = w.readBuf
  writeBuf : w'.writeBuf = w.writeBuf

theorem Steady.refl (w : World σ) : Steady w w := ⟨rfl, rfl, ⟨[], rfl⟩, id, .inl rfl⟩

theorem Steady.trans {w w' w'' : World σ} (h : Steady w w') (h' : Steady w' w'') : Steady w w'' := by
  obtain ⟨evs, hl⟩ := h.log
  obtain ⟨evs', hl'⟩ := h'.log
  refine ⟨h'.closed.trans h.closed, h'.error.trans h.error,
    ⟨evs' ++ evs, by rw [hl', hl, List.append_assoc]⟩, fun ho => h'.ops (h.ops ho), ?_⟩
  rcases h'.store with hs' | hs'
  · rcases h.store with hs | ⟨hc, hs, ho⟩
    · exact .inl (hs'.trans hs)
    · exact .inr ⟨hc, hs'.trans hs, h'.ops ho⟩
  · exact .inr ⟨h.closed ▸ hs'.1, hs'.2⟩

theorem Kept.refl (w : World σ) : Kept w w := ⟨.refl w, rfl⟩

theorem Kept.trans {w w' w'' : World σ} (h : Kept w w') (h' : Kept w' w'') : Kept w w'' :=
  ⟨h.toSteady.trans h'.toSteady, h'.rx.trans h.rx⟩

theorem Framed.refl (w : World σ) : Framed w w := ⟨.refl w, rfl, rfl, rfl, rfl, rfl⟩

theorem Framed.trans {w w' w'' : World σ} (h : Framed w w') (h' : Framed w' w'') : Framed w w'' :=
  ⟨h.toKept.trans h'.toKept, h'.tx.trans h.tx, h'.txClosed.trans h.txClosed, h'.heap.trans h.heap,
    h'.readBuf.trans h.readBuf, h'.writeBuf.trans h.writeBuf⟩

theorem Called.framed {w w' : World σ} (h : Called w w') : Framed w w' := by
  obtain ⟨evs, hl, -⟩ := h.log
  have hs := h.same
  refine ⟨⟨⟨?_, ?_, ⟨evs, hl⟩, ?_, .inl ?_⟩, ?_⟩, ?_, ?_, ?_, ?_, ?_⟩ <;> rw [hs]
  exact id

theorem Framed.answered (w : World σ) (v : Value) : Framed w (w.answered v) :=
  ⟨⟨⟨rfl, rfl, ⟨_, rfl⟩, id, .inl rfl⟩, rfl⟩, rfl, rfl, rfl, rfl, rfl⟩

theorem Framed.emit (w : World σ) (e : Event) : Framed w (w.emit e) :=
  ⟨⟨⟨rfl, rfl, ⟨[_], rfl⟩, id, .inl rfl⟩, rfl⟩, rfl, rfl, rfl, rfl, rfl⟩

theorem Framed.setStore (w : World σ) (r : StoreRef) (s : Store) : Framed w (w.setStore r s) := by
  refine ⟨⟨⟨?_, ?_, ⟨[], ?_⟩, ?_, .inl ?_⟩, ?_⟩, ?_, ?_, ?_, ?_, ?_⟩ <;> simp

/-- What the call of the callback of `v` does. -/
structure CallOk (w : World σ) (v : Value) (w' : World σ) : Prop where
  effects : Effects env P (w.answered v) w'
  framed : Framed w w'
  called : (v.callback = some .onConnack → w.closed = true) → Called (w.answered v) w'
  answered : ∀ cb, v.callback = some cb → cb ≠ .onPingresp → ∃ b, .answered cb v.req v.value b ∈ w'.log
  spared : ∀ r, (w.answered v).Spared r → v.req ≠ some r → w'.Spared r

/- A CONNACK opens the client: its request is the one the decoder holds, which
   is being answered. -/
structure Opens (w : World σ) (v : Value) : Prop where
  sound : Sound w
  held : w.rx.internal.value = v
  calls : 0 < w.rx.internal.calls
  offline : w.ops.publish = false
  spared : ∀ r, v.req = some r → w.Spared r

/- The request of a packet that was decoded. -/
theorem Sound.opens {w : World σ} (hw : Sound w) (hc : w.rx.internal.calls = 0) (hcl : w.closed = false)
    (hv : w.rx.internal.value.callback = some .onConnack) : Opens w.decoded w.rx.internal.value := by
  have hsound : Sound w.decoded := by
    refine ⟨⟨hw.entries, hw.held, hw.rxStore, hw.txStore, hw.connectable, hw.alive⟩,
      hw.phase.keep rfl rfl rfl rfl (fun h => absurd h (Nat.succ_ne_zero _)) le_rfl, fun r => ?_, .inl ?_⟩
    · exact (hw.owed r).quiet le_rfl (timesAnswered_cons _ w.log r) rfl (fun h => ⟨h, Nat.le_succ _⟩)
        fun h => .inl h
    · change w.rx.internal.calls + 1 ≤ 1
      omega
  have hone : w.rx.internal.connects = 1 := by rw [RxInternal.connects, if_pos hv]
  refine ⟨hsound, rfl, Nat.succ_pos _, hw.phase.offline hcl (hw.phase.awaited hone hc hcl), fun r hr => ?_⟩
  obtain ⟨h1, h2, h3⟩ := hw.heldSpared r hr hc
  exact ⟨h1, h2, (timesAnswered_cons _ _ r).trans h3⟩

/- A way to call callbacks that does what it should. -/
def CallSpec (call : Value → Prog σ Bool) : Prop :=
  ∀ v w, (v.callback = some .onConnack → w.closed = false → Opens w v) →
    Wp (call v) w (fun _ w' => CallOk env P w v w') fun e w' => e = .outOfFuel ∧ Effects env P (w.answered v) w'

variable {env P} in
theorem Effects.sound {w w' : World σ} (h : Effects env P w w') (hw : Sound w) : Sound w' :=
  h.invariant (fun _ _ h => sound_effect h) hw

/- What an entry of a store has for a callback. -/
theorem Sound.callback {w : World σ} (hw : Sound w) {e : Entry} (he : e ∈ w.mainStore.entries) :
    e.value.callback ≠ some .onConnack := by
  obtain ⟨ht, hk⟩ := hw.entries .main e he
  rw [ht.callback]
  cases hk' : e.kind <;> simp_all [Kind.callback]

theorem answered_none (w : World σ) (v : Value) (h : v.callback = none) : w.answered v = w := by
  simp only [World.answered, World.answers, h, List.nil_append]

theorem answered_setStore (w : World σ) (r : StoreRef) (s : Store) (v : Value) :
    (w.setStore r s).answered v = { w.setStore r s with log := w.answers v ++ w.log } := by
  simp only [World.answered, World.answers, World.setStore_closed, World.setStore_log]

/- What flushing does to requests that are not in the stores. -/
theorem spared_answered {w : World σ} {r : StoreRef} {s : Store} {e : Entry} {post : List Entry}
    (hrem : Store.Removed (w.store r) [] e post s) {q : ℕ} (hq : w.Spared q) :
    ((w.setStore r s).answered e.value).Spared q ∧ e.value.req ≠ some q := by
  obtain ⟨h1, h2, h3⟩ := hq
  have ht := Store.times_removed (r := q) hrem
  have hst := stored_setStore w q r s
  have hle : (w.store r).times q ≤ w.stored q := by
    cases r <;> simp only [World.stored, World.store] <;> omega
  have hne : e.value.req ≠ some q := by
    intro heq
    rw [if_pos heq] at ht
    omega
  rw [if_neg hne] at ht
  have ha := answers_times (w.setStore r s) q e.value
  rw [if_neg hne] at ha
  refine ⟨⟨by simpa [World.answered] using h1, ?_, ?_⟩, hne⟩
  · change (w.setStore r s).stored q = 0
    omega
  · change timesAnswered ((w.setStore r s).answers e.value ++ (w.setStore r s).log) q = 0
    rw [timesAnswered_append, World.setStore_log]
    omega

/- A state in which a store is flushed: the connection is closed, or its CONNACK
   is being answered. -/
def World.Flushing (w : World σ) : Prop :=
  w.closed = true ∨ w.Opening ∧ w.rx.internal.value.callback = some .onConnack

/- What the functions that flush stores do. -/
structure Flushed (w w' : World σ) : Prop where
  effects : Effects env P w w'
  framed : Framed w w'
  spared : ∀ q, w.Spared q → w'.Spared q
  flushing : w.Flushing → w'.Flushing
  cleanSession : w.Flushing → w'.cleanSession = w.cleanSession

variable {env P} in
theorem Flushed.trans {w w' w'' : World σ} (h : Flushed env P w w') (h' : Flushed env P w' w'') :
    Flushed env P w w'' :=
  ⟨h.effects.trans h'.effects, h.framed.trans h'.framed, fun q hq => h'.spared q (h.spared q hq),
    fun hf => h'.flushing (h.flushing hf), fun hf => (h'.cleanSession (h.flushing hf)).trans (h.cleanSession hf)⟩

theorem Flushed.refl (w : World σ) : Flushed env P w w := ⟨.refl, .refl w, fun _ hq => hq, id, fun _ => rfl⟩

/- The callback of an entry that is flushed is not the one of an open client. -/
theorem World.Flushing.callback {w : World σ} (hf : w.Flushing) (hw : Sound w) {r : StoreRef} {e : Entry}
    (he : e ∈ (w.store r).entries) (hv : e.value.callback = some .onConnack) : w.closed = true := by
  rcases hf with hc | ⟨-, hheld⟩
  · exact hc
  · exact absurd hv (hw.noConnect hheld he)

variable {env P} in
/- The call of the callback of an entry `e` that was shifted out of a store. -/
theorem CallOk.flushed {w w' : World σ} {r : StoreRef} {e : Entry} {s : Store} {post : List Entry}
    (h : CallOk env P (w.setStore r s) e.value w') (hrem : Store.Removed (w.store r) [] e post s)
    (hshift : Effects env P w ((w.setStore r s).answered e.value)) (hw : Sound w) (hf : w.Flushing) :
    Flushed env P w w' := by
  have hs := (h.called fun hv => by simpa using hf.callback hw hrem.mem hv).same
  refine ⟨hshift.trans h.effects, (Framed.setStore w r s).trans h.framed, fun q hq => ?_, fun _ => ?_,
    fun _ => by rw [hs]; simp [World.answered]⟩
  · exact h.spared q (spared_answered hrem hq).1 (spared_answered hrem hq).2
  · rcases hf with hc | ⟨ho, hv⟩
    · exact .inl (by rw [h.framed.closed]; simpa using hc)
    · refine .inr ⟨?_, by rw [h.framed.rx]; simpa using hv⟩
      rw [hs]
      simpa [World.Opening, World.answered] using ho

theorem clientFlushStore_spec (call : Value → Prog σ Bool) (hcall : CallSpec env P call) (r : StoreRef)
    (fuel : ℕ) (w : World σ) (hw : Sound w) (hf : w.Flushing) (hr : r = .main → w.GivesUp) :
    Wp (clientFlushStore call r fuel) w
      (fun _ w' => Flushed env P w w' ∧ (w'.store r).entries = [])
      fun e w' => e = .outOfFuel ∧ Effects env P w w' := by
  induction fuel generalizing w with
  | zero =>
    simp only [clientFlushStore, wp_bind, wp_get, wp_ite, wp_throw, wp_pure]
    split
    · exact ⟨trivial, .refl⟩
    · rename_i h
      exact ⟨.refl env P w, (Store.shift_eq_none _).mp (by simpa using h)⟩
  | succ fuel ih =>
    simp only [clientFlushStore, wp_bind, wp_get]
    split
    · rename_i h
      exact ⟨.refl env P w, (Store.shift_eq_none _).mp h⟩
    · rename_i e s hs
      obtain ⟨post, hrem⟩ := Store.shift_spec _ _ _ hs
      have hshift : Effect env P _ _ := .shift w r e s hr (fun _ => hf.imp id And.left) hs
      rw [← answered_setStore] at hshift
      -- the entry is answered, then the rest of the store is flushed
      have hrest : ∀ w₁, CallOk env P (w.setStore r s) e.value w₁ →
          Wp (clientFlushStore call r fuel) w₁
            (fun _ w' => Flushed env P w w' ∧ (w'.store r).entries = [])
            fun e w' => e = .outOfFuel ∧ Effects env P w w' := by
        intro w₁ h₁
        have h₁ := h₁.flushed hrem (.of hshift) hw hf
        have hgive : r = .main → w₁.GivesUp := by
          intro hm
          have hg := hr hm
          rwa [World.GivesUp, h₁.cleanSession hf, h₁.framed.error]
        refine (ih w₁ (h₁.effects.sound hw) (h₁.flushing hf) hgive).mono (fun _ w₂ h₂ => ?_) fun _ w₂ h₂ => ?_
        · exact ⟨h₁.trans h₂.1, h₂.2⟩
        · exact ⟨h₂.1, h₁.effects.trans h₂.2⟩
      simp only [wp_bind, wp_set, wp_ite]
      split
      · refine (hcall e.value _ fun hv hc => ?_).mono (fun _ w₁ h₁ => hrest w₁ h₁) fun _ _ h₁ => ?_
        · have := hf.callback hw hrem.mem hv
          simp [this] at hc
        · exact ⟨h₁.1, (Effects.of hshift).trans h₁.2⟩
      · rename_i hn
        have hnone : e.value.callback = none := by simpa using hn
        apply hrest
        have ha := answered_none (w.setStore r s) e.value hnone
        refine ⟨?_, .refl _, fun _ => ?_, by simp [hnone], fun q hq _ => ?_⟩
        · rw [ha]
          exact .refl
        · rw [ha]
          exact .refl _
        · rwa [ha] at hq

variable {env P} in
theorem Flushed.sessionless (w : World σ) (hc : w.cleanSession = false) :
    Flushed env P w { w with mainStore := deleteSessionless w.mainStore.count 0 w.mainStore } := by
  refine ⟨.of (.sessionless w hc), Framed.setStore w .main _, fun q hq => ⟨hq.fresh, ?_, hq.unanswered⟩, id, fun _ => rfl⟩
  have hsub := (deleteSessionless_sublist w.mainStore.count 0 w.mainStore).countP_le
    (p := fun e => e.value.req = some q)
  have hgone := hq.gone
  simp only [World.stored, Store.times] at *
  omega

variable {env P} in
theorem Flushed.clearIds (w : World σ) (hg : w.GivesUp) :
    Flushed env P w { w with rx := { w.rx with idSet := w.rx.idSet.clear } } := by
  refine ⟨.of (.clearIds w hg), ?_, fun _ hq => ⟨hq.1, hq.2, hq.3⟩, id, fun _ => rfl⟩
  exact ⟨⟨⟨rfl, rfl, ⟨[], rfl⟩, id, .inl rfl⟩, rfl⟩, rfl, rfl, rfl, rfl, rfl⟩

theorem clientCleanupStores_spec (call : Value → Prog σ Bool) (hcall : CallSpec env P call) (keep : Bool)
    (w : World σ) (hw : Sound w) (hf : w.Flushing) (hk : keep = true → w.cleanSession = false)
    (hg : keep = false → w.GivesUp) :
    Wp (clientCleanupStores env call keep) w (fun _ w' => Flushed env P w w' ∧ w'.connectStore.entries = [])
      fun e w' => e = .outOfFuel ∧ Effects env P w w' := by
  have hlast : ∀ w₁, Flushed env P w w₁ →
      Wp (clientFlushStore call .connect env.fuel) w₁
        (fun _ w' => Flushed env P w w' ∧ w'.connectStore.entries = [])
        fun e w' => e = .outOfFuel ∧ Effects env P w w' := by
    intro w₁ h₁
    refine (clientFlushStore_spec env P call hcall .connect env.fuel w₁ (h₁.effects.sound hw) (h₁.flushing hf)
      (by simp)).mono (fun _ w₂ h₂ => ⟨h₁.trans h₂.1, h₂.2⟩) fun _ w₂ h₂ => ?_
    exact ⟨h₂.1, h₁.effects.trans h₂.2⟩
  simp only [clientCleanupStores, wp_bind, wp_ite, wp_modify]
  split
  · rename_i hkeep
    exact hlast _ (.sessionless w (hk hkeep))
  · rename_i hkeep
    have hgive := hg (by simpa using hkeep)
    refine (clientFlushStore_spec env P call hcall .main env.fuel w hw hf fun _ => hgive).mono
      (fun _ w₁ h₁ => ?_) fun _ _ h => h
    obtain ⟨h₁, -⟩ := h₁
    have hgive' : w₁.GivesUp := by
      rwa [World.GivesUp, h₁.cleanSession hf, h₁.framed.error]
    exact hlast _ (h₁.trans (.clearIds w₁ hgive'))

/- The CONNACK of the request `v`: from the state of the CONNECT to the one in
   which its callback is called. -/
theorem clientConnected_spec (call : Value → Prog σ Bool) (hcall : CallSpec env P call) (v : Value)
    (w : World σ) (hw : Opens w v) (hv : v.callback = some .onConnack) (hc : w.closed = false) :
    Wp (do
        set { w with
          cleanSession := (w.heap.connects v.value).cleanSession
          mainStore := { w.mainStore with keepAlive := (w.heap.connects v.value).keepAlive } }
        clientSetStateConnected env call : Prog σ Unit) w
      (fun _ w' => Effects env P w w' ∧ Framed w w' ∧ ∀ q, w.Spared q → w'.Spared q)
      fun e w' => e = .outOfFuel ∧ Effects env P w w' := by
  have he := hw.sound.alive hc
  have hconn : Effect env P _ _ := .connected w v.value hc he hw.offline hw.calls
  simp only [clientSetStateConnected, clientSetCurrentStore, wp_bind, wp_set, wp_modify, wp_get]
  have hsound := sound_effect hconn hw.sound
  refine (clientCleanupStores_spec env P call hcall _ _ hsound (.inr ⟨⟨hw.offline, rfl⟩, ?_⟩) ?_ ?_).mono
    (fun _ w₁ h₁ => ?_) fun _ w₁ h₁ => ?_
  · change w.rx.internal.value.callback = _
    rw [hw.held]
    exact hv
  · intro hk
    simpa using hk
  · intro hk
    exact .inl (by simpa using hk)
  · obtain ⟨⟨h₁, hf, hsp, -, -⟩, -⟩ := h₁
    have hopen : w₁.closed = false := hf.closed
    have hmain : w₁.rx.store = .main := by
      rcases hf.store with h | h
      · exact h
      · exact h.2.1
    have hcur := (h₁.sound hsound).rxStore.symm.trans hmain
    refine ⟨((Effects.of hconn).trans h₁).then (.opened w₁ hopen hcur), ?_, fun q hq => ?_⟩
    · obtain ⟨evs, hl⟩ := hf.log
      refine ⟨⟨⟨?_, ?_, ⟨evs ++ [_], by rw [List.append_assoc]; exact hl⟩, fun _ => rfl,
        .inr ⟨hc, hmain, rfl⟩⟩, hf.rx⟩, hf.tx, hf.txClosed, hf.heap, hf.readBuf, hf.writeBuf⟩
      · exact hopen.trans hc.symm
      · exact hf.error.trans he.symm
    · obtain ⟨g1, g2, g3⟩ := hsp q ⟨hq.1, hq.2, by rw [timesAnswered_cons, hq.3]; rfl⟩
      exact ⟨g1, g2, g3⟩
  · exact ⟨h₁.1, (Effects.of hconn).trans h₁.2⟩

/- The callback of a request that is answered by `cb`. -/
theorem callUser_spec (w : World σ) (f : Option (σ → Ptr → Bool → Reply σ)) (cb : Callback) (v : Value)
    (hcb : v.callback = some cb) (ha : w.answers v = [.answered cb v.req v.value (!w.closed)]) :
    Wp (callUser doRequests f cb v (!w.closed)) w (fun _ w' => CallOk env P w v w') fun _ _ => False := by
  refine (callUser_called env P w f cb v _).mono (fun _ w' h => ?_) fun _ _ h => h
  have he : w.emit (.answered cb v.req v.value (!w.closed)) = w.answered v := by
    rw [World.answered, ha]
    rfl
  obtain ⟨evs, hl, -⟩ := h.1.log
  rw [he] at h
  refine ⟨h.2, (Framed.answered w v).trans h.1.framed, fun _ => h.1, fun cb' hcb' _ => ⟨!w.closed, ?_⟩,
    fun _ hq _ => h.1.spared hq⟩
  rw [hcb] at hcb'
  cases hcb'
  rw [hl]
  exact List.mem_append_right _ (List.mem_cons_self ..)

/- Every callback but that of a CONNACK that opens the client. -/
theorem callCallback_other (depth : ℕ) (v : Value) (w : World σ)
    (h : v.callback = some .onConnack → w.closed = true) :
    Wp (callCallback env depth v) w (fun _ w' => CallOk env P w v w') fun _ _ => False := by
  rw [callCallback_requests]
  simp only [wp_bind, wp_get]
  split
  · rename_i hv
    have ha := answered_none w v hv
    exact ⟨by rw [ha]; exact .refl, .refl w, fun _ => by rw [ha]; exact .refl w, by simp [hv],
      fun _ hq _ => by rwa [ha] at hq⟩
  · rename_i hv
    have hc := h hv
    rw [if_pos hc, show false = !w.closed by rw [hc]; rfl]
    exact callUser_spec env P w _ _ v hv (by simp only [World.answers, hv, hc, if_true, Bool.not_true])
  · rename_i hv
    exact callUser_spec env P w _ _ v hv (by simp only [World.answers, hv])
  · rename_i hv
    exact callUser_spec env P w _ _ v hv (by simp only [World.answers, hv])
  · rename_i hv
    exact callUser_spec env P w _ _ v hv (by simp only [World.answers, hv])
  · rename_i hv
    have ha : w.answered v = w := by simp only [World.answered, World.answers, hv, List.nil_append]
    refine ⟨by rw [ha]; exact .refl, .refl w, fun _ => by rw [ha]; exact .refl w, fun cb hcb hn => ?_,
      fun _ hq _ => by rwa [ha] at hq⟩
    rw [hv] at hcb
    cases hcb
    contradiction

/- Nothing is logged of a CONNACK before the client is open. -/
theorem answered_connack (w : World σ) (v : Value) (hv : v.callback = some .onConnack) (hc : w.closed = false) :
    w.answered v = w := by
  have ha : w.answers v = [] := by simp only [World.answers, hv, hc, Bool.false_eq_true, if_false]
  rw [World.answered, ha]
  rfl

theorem callCallback_spec (depth : ℕ) : CallSpec env P (callCallback env depth) := by
  induction depth with
  | zero =>
    intro v w hopen
    by_cases h : v.callback = some .onConnack → w.closed = true
    · exact (callCallback_other env P 0 v w h).mono (fun _ _ h => h) fun _ _ h => h.elim
    · obtain ⟨hv, hc⟩ : v.callback = some .onConnack ∧ ¬ w.closed = true := by tauto
      rw [callCallback_requests]
      simp only [wp_bind, wp_get, hv, if_neg hc, wp_throw, true_and]
      rw [answered_connack w v hv (by simpa using hc)]
      exact .refl
  | succ depth ih =>
    intro v w hopen
    by_cases h : v.callback = some .onConnack → w.closed = true
    · exact (callCallback_other env P _ v w h).mono (fun _ _ h => h) fun _ _ h => h.elim
    · obtain ⟨hv, hc⟩ : v.callback = some .onConnack ∧ ¬ w.closed = true := by tauto
      have hcl : w.closed = false := by simpa using hc
      have ha := answered_connack w v hv hcl
      have hopens := hopen hv hcl
      have hconn := clientConnected_spec env P _ ih v w hopens hv hcl
      rw [callCallback_requests]
      simp only [wp_bind, wp_get, wp_set, hv, if_neg hc] at hconn ⊢
      refine hconn.mono (fun _ w₁ h₁ => ?_) fun _ _ h₁ => by rwa [ha]
      refine (callUser_called env P w₁ env.onConnect .onConnack v true).mono (fun _ w₂ h₂ => ?_)
        fun _ _ h₂ => h₂.elim
      obtain ⟨evs, hl, -⟩ := h₂.1.log
      have hack : Effect env P w₁ _ := .connack w₁ v hv (fun r hr => h₁.2.2 r (hopens.spared r hr)) (by
        rw [h₁.2.1.rx]
        exact fun _ => hopens.calls)
      refine ⟨?_, ?_, fun hn => absurd (hn hv) hc, fun cb hcb _ => ⟨true, ?_⟩, fun q hq hne => ?_⟩
      · rw [ha]
        exact (h₁.1.then hack).trans h₂.2
      · refine h₁.2.1.trans (Framed.trans ?_ h₂.1.framed)
        exact .emit w₁ _
      · rw [hv] at hcb
        cases hcb
        rw [hl]
        exact List.mem_append_right _ (List.mem_cons_self ..)
      · rw [ha] at hq
        obtain ⟨g1, g2, g3⟩ := h₁.2.2 q hq
        refine h₂.1.spared ⟨g1, g2, ?_⟩
        change timesAnswered (_ :: w₁.log) q = 0
        rw [timesAnswered_cons, g3]
        simp [Event.answeredAs, hne]

theorem callValue_spec : CallSpec env P (callValue env) := callCallback_spec env P env.fuel

/- Where there is nothing to call, the call succeeds. -/
theorem callValue_idle (w : World σ) (v : Value) (hv : v.callback = none ∨ v.callback = some .onPingresp) :
    callValue env v w = .ok true w := by
  rw [callValue, callCallback_requests]
  rcases hv with hv | hv <;> simp only [hv] <;> rfl

/-! ### Functions of the API -/

theorem storeTouch_effects (w : World σ) (r : StoreRef) :
    Wp (storeTouch env r) w (fun _ w' => Effects env P w w' ∧
      w' = { w.setStore r ((w.store r).touch (env.getTime w.app).2) with app := (env.getTime w.app).1 })
      fun _ _ => False := by
  simp only [storeTouch, wp_modify, and_true]
  exact (Effects.of (.clock w r)).then (.app _ _)

/- What `client_set_state_initial` leads to: a client without a connection that
   can be connected. -/
structure Disconnected (w w' : World σ) : Prop where
  error : w'.error = none
  closed : w'.closed = true
  txClosed : w'.tx.closed = true
  rx : w'.rx.internal = w.rx.internal
  rxStore : w'.rx.store = .connect

theorem clientSetStateInitial_spec (w : World σ) (hw : Sound w) (he : w.error ≠ some .closed) :
    Wp (clientSetStateInitial env) w (fun _ w' => Effects env P w w' ∧ Disconnected w w')
      fun e w' => e = .outOfFuel ∧ Effects env P w w' := by
  simp only [clientSetStateInitial, setStateInitialWith, wp_bind, wp_modify, wp_get]
  have h₁ : Effect env P _ _ := .initial w he
  refine (storeTouch_effects env P _ .connect).mono (fun _ w₂ h₂ => ?_) fun _ _ h => h.elim
  obtain ⟨h₂, hw₂⟩ := h₂
  simp only [clientSetCurrentStore, wp_modify]
  have hce : w₂.closed = true ∧ w₂.error = none ∧ w₂.rx.internal = w.rx.internal := by rw [hw₂]; simp
  have h₃ := ((Effects.of h₁).trans h₂).then (.detached w₂ hce.1)
  refine (clientCleanupStores_spec env P _ (callValue_spec env P) _ _ (h₃.sound hw) (.inl hce.1) ?_ ?_).mono
    (fun _ w₄ h₄ => ?_) fun _ w₄ h₄ => ?_
  · intro hk
    simpa using hk
  · intro hk
    exact .inl (by simpa using hk)
  · obtain ⟨⟨h₄, hf, -, -, -⟩, hempty⟩ := h₄
    simp only [lmqttTxBufferFinish, wp_modify]
    have hrx : w₄.rx.store = .connect := by
      rcases hf.store with hs | hs
      · exact hs
      · simp [hce.1] at hs
    have hcur := (h₄.sound (h₃.sound hw)).rxStore.symm.trans hrx
    refine ⟨((h₃.trans h₄).then (.txClosed w₄ true)).then (.ready _ ?_ ?_ hcur hempty), ?_, ?_, rfl, ?_, hrx⟩
    · exact hf.error.trans hce.2.1
    · exact hf.closed.trans hce.1
    · exact hf.error.trans hce.2.1
    · exact hf.closed.trans hce.1
    · exact hf.rx.trans hce.2.2
  · exact ⟨h₄.1, h₃.trans h₄.2⟩

/- `client_set_state_failed` behind the assignment of an error. -/
theorem clientSetStateFailed_spec (w : World σ) (e : Error) (os : ℤ) :
    Wp (clientSetStateFailed env) { w with error := some e, osError := os }
      (fun _ w' => w' = { w with error := some e, osError := os, closed := true, ops := {} })
      fun _ _ => False := by
  simp [clientSetStateFailed, assert]

theorem lmqttClientReset_spec (w : World σ) (hw : Sound w) :
    Wp (lmqttClientReset env) w
      (fun _ w' => Effects env P w w' ∧ (w' = w ∨ w.error ≠ some .closed ∧ Disconnected w w'))
      fun e w' => e = .outOfFuel ∧ Effects env P w w' := by
  simp only [lmqttClientReset, resetWith, wp_bind, wp_get, wp_ite, wp_pure]
  split
  · rename_i h
    have he : w.error ≠ some .closed := by simp_all
    exact (clientSetStateInitial_spec env P w hw he).mono (fun _ _ h => ⟨h.1, .inr ⟨he, h.2⟩⟩) fun _ _ h => h
  · exact ⟨.refl, .inl trivial⟩

theorem lmqttClientFinalize_spec (w : World σ) (hw : Sound w) :
    Wp (lmqttClientFinalize env) w
      (fun _ w' => Effects env P w w' ∧ w'.closed = true ∧ w'.error = some .closed ∧
        w'.rx.internal = { w.rx.internal with calls := w.rx.internal.calls + 1 })
      fun e w' => e = .outOfFuel ∧ Effects env P w w' := by
  simp only [lmqttClientFinalize, finalizeWith, wp_bind, wp_modify]
  refine (clientSetStateFailed_spec env w .closed 0).mono (fun _ w₁ h₁ => ?_) fun _ _ h => h.elim
  subst h₁
  generalize hw₁ : { w with error := some .closed, osError := 0, closed := true, ops := {} } = w₁
  have hfail : Effect env P w w₁ := hw₁ ▸ .failed w .closed 0 fun _ => rfl
  have hcl : w₁.closed = true := by rw [← hw₁]
  have he₁ : w₁.error = some .closed := by rw [← hw₁]
  have hrx : w₁.rx.internal = w.rx.internal := by rw [← hw₁]
  simp only [rxBufferFinishWith, wp_bind, wp_get, wp_modify, wp_pure]
  -- the callback of the request the decoder holds
  have hheld : Effects env P w (w₁.calling.answered w₁.rx.internal.value) :=
    (Effects.of hfail).then (.finalAnswer w₁ hcl he₁)
  refine (callValue_spec env P w₁.rx.internal.value w₁.calling fun _ hc => ?_).mono
    (fun _ w₂ h₂ => ?_) fun _ _ h₂ => ?_
  · rw [show w₁.calling.closed = w₁.closed from rfl, hcl] at hc
    contradiction
  · have heff := hheld.trans h₂.effects
    have herr : w₂.error = some .closed := h₂.framed.error.trans he₁
    have hcl₂ : w₂.closed = true := h₂.framed.closed.trans hcl
    refine (clientCleanupStores_spec env P _ (callValue_spec env P) false w₂ (heff.sound hw) (.inl hcl₂) (by simp)
      fun _ => .inr herr).mono (fun _ w₃ h₃ => ?_) fun _ _ h₃ => ⟨h₃.1, heff.trans h₃.2⟩
    obtain ⟨⟨h₃, hf, -, -, -⟩, -⟩ := h₃
    refine ⟨heff.trans h₃, hf.closed.trans hcl₂, hf.error.trans herr, ?_⟩
    rw [hf.rx, h₂.framed.rx, ← hrx]
    rfl
  · exact ⟨h₂.1, hheld.trans h₂.2⟩

theorem lmqttClientConnect_spec (w : World σ) (p : Ptr) (hp : w.ops.connect = true → P w) :
    Wp (lmqttClientConnect p) w
      (fun _ w' => Effects env P w w' ∧ (w' = w ∨ w.ops.connect = true ∧ w'.error = none ∧ w'.rx.internal = {} ∧
        w'.rx.store = w.rx.store ∧ w'.ops.publish = w.ops.publish))
      fun _ _ => False := by
  simp only [lmqttClientConnect, clientDoConnect, clientSetStateConnecting, lmqttRxBufferReset,
    lmqttTxBufferReset, wp_bind, wp_get, wp_ite, wp_pure]
  split
  · rename_i ho
    split
    · exact ⟨.refl, .inl trivial⟩
    · split
      · exact ⟨.refl, .inl rfl⟩
      · rename_i s hs
        exact ⟨.of (.connecting w p s ho (hp ho) hs), .inr ⟨ho, rfl, rfl, rfl, rfl⟩⟩
  · exact ⟨.refl, .inl trivial⟩

end LightMqtt
