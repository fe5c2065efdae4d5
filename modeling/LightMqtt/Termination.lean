import LightMqtt.Redelivery
import LightMqtt.Standing

/-!
# The encoder returns

A packet has two bytes at least, and of its fields only the last may have none. So a
call of the encoder ends even where callbacks put new requests into the queue while it
sends them.
-/

namespace LightMqtt

open Exec

variable {σ : Type} {env : Env σ}

/- A packet was sent to its end. -/
def Event.isEncoded : Event → Bool
  | .encoded .. => true
  | _ => false

/- The number of the packets that were sent. -/
def packetsSent (log : List Event) : ℕ := log.countP Event.isEncoded

/-- An entry for a packet other than a CONNECT, of an object that passes its validation. -/
structure Entry.Ordinary (h : Heap) (e : Entry) : Prop where
  kind : e.kind ≠ .connect
  typed : e.WellTyped
  valid : e.Validated h

/-! ### Requests in a callback -/

/-- The entries that came to those that are to be sent are ordinary. -/
structure Lengthened (w w' : World σ) : Prop where
  heap : w'.heap = w.heap
  pending : ∀ r, ∀ e ∈ (w'.store r).pending, e ∈ (w.store r).pending ∨ e.Ordinary w.heap

section Lengthened
variable {w w' w'' : World σ}

theorem Lengthened.refl (w : World σ) : Lengthened w w := ⟨rfl, fun _ _ he => .inl he⟩

theorem Lengthened.trans (h : Lengthened w w') (h' : Lengthened w' w'') : Lengthened w w'' := by
  refine ⟨h'.heap.trans h.heap, fun r e he => ?_⟩
  rcases h'.pending r e he with he | he
  · exact h.pending r e he
  · rw [h.heap] at he
    exact .inr he

/- The stores are as they were. -/
theorem Lengthened.of_same (hh : w'.heap = w.heap) (hs : ∀ r, (w'.store r).pending = (w.store r).pending) :
    Lengthened w w' := by
  refine ⟨hh, fun r e he => ?_⟩
  rw [hs] at he
  exact .inl he

/- An ordinary entry is appended. -/
theorem Lengthened.append {e : Entry} {s : Store} (hs : w.mainStore.append e = some s) (he : e.Ordinary w.heap)
    (hh : w'.heap = w.heap) (hw : w'.mainStore = s) (hc : w'.connectStore = w.connectStore) : Lengthened w w' := by
  refine ⟨hh, fun r x hx => ?_⟩
  cases r with
  | main =>
    change x ∈ w'.mainStore.pending at hx
    rw [hw, (Store.append_spec _ _ _ hs).pending_eq, List.mem_append, List.mem_singleton] at hx
    rcases hx with hx | rfl
    · exact .inl hx
    · exact .inr he
  | connect =>
    change x ∈ w'.connectStore.pending at hx
    rw [hc] at hx
    exact .inl hx

theorem clientAppendRequest_lengthened (w : World σ) (kind : Kind) (cb : Callback) (id : PacketId) (p : Ptr)
    (hcb : kind.callback = some cb) (hreq : kind.isRequest = true) (hk : kind ≠ .connect)
    (hv : (⟨kind, ⟨id, p, some cb, some w.nextReq⟩⟩ : Entry).Validated w.heap) :
    Wp (clientAppendRequest kind cb id p) w (fun _ w' => Lengthened w w') fun _ _ => False := by
  simp only [clientAppendRequest, wp_bind, wp_get]
  split
  · exact .refl w
  · rename_i s hs
    exact .append hs ⟨hk, ⟨hcb.symm, hreq.symm⟩, hv⟩ rfl rfl rfl

theorem clientSubscribeWithKind_lengthened (w : World σ) (p : Ptr) (kind : Kind) (cb : Callback)
    (hk : kind = .subscribe ∨ kind = .unsubscribe) (hcb : kind.callback = some cb) :
    Wp (clientSubscribeWithKind p kind cb) w (fun _ w' => Lengthened w w') fun _ _ => False := by
  simp only [clientSubscribeWithKind, clientGetId, wp_bind, wp_get]
  refine wp_if (fun _ => .refl w) fun hv => ?_
  have hv : subscribeValidate (w.heap.subscribes p) = true := by simpa using hv
  -- the packet id is taken first
  have hid : Lengthened w { w with mainStore := w.mainStore.getId.2, ids := w.ids.draw } :=
      .of_same rfl fun r => by cases r <;> rfl
  have hend := clientAppendRequest_lengthened
    { w with mainStore := w.mainStore.getId.2, ids := w.ids.draw } kind cb w.mainStore.getId.1 p hcb
    (by rcases hk with rfl | rfl <;> rfl) (by rcases hk with rfl | rfl <;> simp)
    (by rcases hk with rfl | rfl <;> exact hv)
  exact hend.mono (fun _ _ h => hid.trans h) fun _ _ h => h

theorem clientDoPublish_lengthened (w : World σ) (p : Ptr) :
    Wp (clientDoPublish p) w (fun _ w' => Lengthened w w') fun _ _ => False := by
  simp only [clientDoPublish, clientGetId, wp_bind, wp_get]
  refine wp_if (fun _ => .refl w) fun hv => ?_
  have hv : publishValidate (w.heap.publishes p) = true := by simpa using hv
  refine wp_if (fun _ => clientAppendRequest_lengthened w .publish0 .onPublish 0 p rfl rfl (by simp) hv) fun _ => ?_
  have hid : Lengthened w { w with mainStore := w.mainStore.getId.2, ids := w.ids.draw } :=
      .of_same rfl fun r => by cases r <;> rfl
  have hend := fun kind (hk : kind = Kind.publish1 ∨ kind = .publish2) =>
    clientAppendRequest_lengthened
      { w with mainStore := w.mainStore.getId.2, ids := w.ids.draw } kind .onPublish w.mainStore.getId.1 p
      (by rcases hk with rfl | rfl <;> rfl) (by rcases hk with rfl | rfl <;> rfl)
      (by rcases hk with rfl | rfl <;> simp) (by rcases hk with rfl | rfl <;> exact hv)
  refine (hend _ ?_).mono (fun _ _ h => hid.trans h) fun _ _ h => h
  split
  · exact .inl rfl
  · exact .inr rfl

theorem doRequest_lengthened (w : World σ) (q : Request) :
    Wp (doRequest q) w (fun _ w' => Lengthened w w') fun _ _ => False := by
  cases q with
  | subscribe p =>
    simp only [doRequest, lmqttClientSubscribe, wp_bind, wp_get]
    exact wp_if (fun _ => clientSubscribeWithKind_lengthened w p _ _ (.inl rfl) rfl) fun _ => .refl w
  | unsubscribe p =>
    simp only [doRequest, lmqttClientUnsubscribe, wp_bind, wp_get]
    exact wp_if (fun _ => clientSubscribeWithKind_lengthened w p _ _ (.inr rfl) rfl) fun _ => .refl w
  | publish p =>
    simp only [doRequest, lmqttClientPublish, wp_bind, wp_get]
    exact wp_if (fun _ => clientDoPublish_lengthened w p) fun _ => .refl w
  | disconnect =>
    simp only [doRequest, lmqttClientDisconnect, wp_bind, wp_get]
    refine wp_if (fun _ => ?_) fun _ => .refl w
    simp only [clientDoDisconnect, wp_bind, wp_get]
    split
    · exact .refl w
    · rename_i s hs
      exact .append hs ⟨by simp, ⟨rfl, rfl⟩, trivial⟩ rfl rfl rfl

theorem doRequests_lengthened (w : World σ) (qs : List Request) :
    Wp (doRequests qs) w (fun _ w' => Lengthened w w') fun _ _ => False := by
  induction qs generalizing w with
  | nil => exact .refl w
  | cons q qs ih =>
    simp only [doRequests, wp_bind]
    refine (doRequest_lengthened w q).mono (fun _ v hv => ?_) fun _ _ h => h
    exact (ih v).mono (fun _ _ h => hv.trans h) fun _ _ h => h

theorem Called.packetsSent (h : Called w w') : packetsSent w'.log = LightMqtt.packetsSent w.log := by
  obtain ⟨evs, hl, he⟩ := h.log
  have hnone : evs.countP Event.isEncoded = 0 := by
    rw [List.countP_eq_zero]
    intro ev hev
    obtain ⟨r, k, id, p, u, -, rfl⟩ := he ev hev
    simp [Event.isEncoded]
  rw [LightMqtt.packetsSent, LightMqtt.packetsSent, hl, List.countP_append, hnone, Nat.zero_add]

/- The callback of a message. -/
theorem callValue_lengthened (w : World σ) (v : Value) (hv : v.callback = some .onPublish) :
    Wp (callValue env v) w (fun _ w' => Lengthened w w' ∧ w'.tx = w.tx ∧ packetsSent w'.log = packetsSent w.log)
      fun _ _ => False := by
  have huser : Wp (callUser doRequests env.onPublish .onPublish v (!w.closed)) w
      (fun _ w' => Lengthened w w' ∧ w'.tx = w.tx ∧ packetsSent w'.log = packetsSent w.log) fun _ _ => False := by
    have hlength : Wp (callUser doRequests env.onPublish .onPublish v (!w.closed)) w (fun _ w' => Lengthened w w') fun _ _ =>
        False := by
      simp only [callUser, wp_bind, wp_emit]
      split
      · exact .of_same rfl fun r => by cases r <;> rfl
      · simp only [wp_bind, wp_get, wp_set]
        have hstart : ∀ a evs, Lengthened w { w with app := a, log := evs } := fun a evs =>
          .of_same rfl fun r => by cases r <;> rfl
        exact (doRequests_lengthened _ _).mono (fun _ _ h => (hstart _ _).trans h) fun _ _ h => h
    refine ((callUser_called env (fun _ => True) w env.onPublish .onPublish v (!w.closed)).and hlength).mono
      (fun _ w' h => ⟨h.2, ?_, ?_⟩) fun _ _ h => h.1
    · rw [h.1.1.same]
      rfl
    · rw [h.1.1.packetsSent]
      exact List.countP_cons_of_neg (by simp [Event.isEncoded])
  rw [callValue, callCallback_requests]
  cases env.fuel <;> (simp only [wp_bind, wp_get, hv]; exact huser)

end Lengthened

/-! ### Going on -/

/-- What a call of the encoder goes on with. -/
structure World.Going (w : World σ) : Prop where
  readable : w.Readable
  fits : w.heap.Fits
  queue : ∀ e ∈ w.txStore.pending, e.Ordinary w.heap
  standing : w.Standing

/-- What the encoder has before it: the turns that no byte pays for, and the packets that
may be sent with fewer than two bytes. -/
inductive Stage (w : World σ) : Option Entry → ℕ → ℕ → Prop
  | closed (h : w.tx.closed = true) : Stage w none 1 0
  | fresh (hw : w.Going) (h : w.tx.internal.Fresh) : Stage w none 2 0
  | begun (hw : w.Going) : Stage w none 5 1
  | head (e es) (hw : w.Going) (hp : w.txStore.pending = e :: es) (h : w.tx.internal.Fresh) : Stage w (some e) 1 0
  | field (e es) (hw : w.Going) (hp : w.txStore.pending = e :: es) : Stage w (some e) 4 1
  | last (e es) (hw : w.Going) (hp : w.txStore.pending = e :: es) (h : w.tx.internal.pos = (entryFields w.heap e).length) :
    Stage w (some e) 3 1

section Going
variable {w : World σ} {e : Entry} {es : List Entry}

/- Another world with the objects, the entries and the fresh encoder. -/
theorem going_of_fresh (hw : w.Readable) (hf : w.heap.Fits) (hq : ∀ e ∈ w.txStore.pending, e.Ordinary w.heap)
    (h : w.tx.internal = {}) : w.Going := by
  have hfresh : w.tx.internal.Fresh := by
    rw [h]
    exact ⟨rfl, rfl, rfl⟩
  exact ⟨hw, hf, hq, hfresh.standing hw⟩

/-- The end of an entry: the encoder is closed, starts afresh or fails. -/
theorem txBufferFinishEntry_going (w : World σ) (e : Entry) (es : List Entry) (hp : w.txStore.pending = e :: es)
    (hw : w.Readable) (hf : w.heap.Fits) (hq : ∀ x ∈ w.txStore.pending, x.Ordinary w.heap) :
    Wp (txBufferFinishEntry env e) w (fun ok v => packetsSent v.log = packetsSent w.log + 1 ∧
      (ok = true → v.tx.closed = true ∨ v.Going ∧ v.tx.internal.Fresh)) fun _ _ => False := by
  have he := hq e (by rw [hp]; exact List.mem_cons_self ..)
  have hrest : ∀ x ∈ es, x.Ordinary w.heap := fun x hx => hq x (by rw [hp]; exact List.mem_cons_of_mem _ hx)
  have hstore : (w.emit (.encoded e.kind e.value.packetId e.value.req)).txStore = w.txStore :=
    World.store_emit w w.tx.store _
  have hemit : (w.emit (.encoded e.kind e.value.packetId e.value.req)).tx = w.tx := rfl
  have hsent : packetsSent (w.emit (.encoded e.kind e.value.packetId e.value.req)).log = packetsSent w.log + 1 :=
    List.countP_cons_of_pos rfl
  -- the entry is done with, and the encoder is reset
  have hreset : ∀ u : World σ, u.heap = w.heap → (∀ x ∈ u.txStore.pending, x.Ordinary w.heap) →
      u.resetTx.Going ∧ u.resetTx.tx.internal.Fresh := by
    intro u hh hpend
    refine ⟨going_of_fresh (readable_congr (by rw [World.resetTx, hh]) hw) ?_ ?_ rfl, rfl, rfl, rfl⟩
    · change u.heap.Fits
      rwa [hh]
    · change ∀ x ∈ u.txStore.pending, x.Ordinary u.heap
      rwa [hh]
  have hleft : ∀ s : Store, s.pending = es →
      ∀ u, u = (w.emit (.encoded e.kind e.value.packetId e.value.req)).setStore w.tx.store s →
      u.tx = w.tx ∧ u.heap = w.heap ∧ packetsSent u.log = packetsSent w.log + 1 ∧
          ∀ x ∈ u.txStore.pending, x.Ordinary w.heap := by
    intro s hs u hu
    have htx : u.tx = w.tx := by rw [hu, World.setStore_tx]; rfl
    refine ⟨htx, by rw [hu, World.setStore_heap]; rfl, by rw [hu, World.setStore_log]; exact hsent, fun x hx => ?_⟩
    rw [World.txStore, htx, hu, World.store_setStore_self, hs] at hx
    exact hrest x hx
  simp only [txBufferFinishEntry, lmqttTxBufferReset, lmqttTxBufferFinish, wp_bind, wp_emit, wp_get, hstore, hemit]
  refine wp_if (fun hr => ?_) fun _ => ?_
  · have hr : e.kind.expectsResponse = false := by simpa using hr
    obtain ⟨-, -, -, hpend⟩ := (Store.dropCurrent_spec _ _ _ hp).current w.txStore.sent_length
    obtain ⟨htx, hh, hlog, hq'⟩ := hleft _ hpend _ rfl
    simp only [wp_bind, wp_set]
    refine wp_if (fun _ => ⟨hlog, fun _ => .inl rfl⟩) fun _ => ?_
    split
    · -- a message of QoS 0: its callback may make requests
      rename_i hcb
      have hcall : e.value.callback = some .onPublish := by
        rw [he.typed.callback] at hcb ⊢
        cases hkind : e.kind <;> rw [hkind] at hr hcb <;> first | rfl | contradiction
      refine (wp_bind ..).mpr ((callValue_lengthened _ e.value hcall).mono (fun ok u hu => ?_) fun _ _ h => h)
      obtain ⟨hmore, hutx, husent⟩ := hu
      have hk : e.kind = .publish0 := by
        rw [he.typed.callback] at hcall
        cases hkind : e.kind <;> rw [hkind] at hr hcall <;> first | rfl | contradiction
      refine wp_if (fun hok => ?_) fun _ => ?_
      · refine wp_assert_bind (fun _ => ⟨husent.trans hlog, ?_⟩) fun hfail => ?_
        · intro h
          contradiction
        · simp [hk] at hfail
      · refine ⟨husent.trans hlog, fun _ => .inr (hreset u (hmore.heap.trans hh) fun x hx => ?_)⟩
        rw [World.txStore, hutx] at hx
        rcases hmore.pending _ x hx with hx | hx
        · exact hq' x hx
        · rwa [hh] at hx
    · exact ⟨hlog, fun _ => .inr (hreset _ hh hq')⟩
  · obtain ⟨-, -, -, -, hpend⟩ := Store.markCurrent_spec _ _ _ hp
    obtain ⟨-, hh, hlog, hq'⟩ := hleft _ hpend _ rfl
    exact ⟨hlog, fun _ => .inr (hreset _ hh hq')⟩

/- A field of the entry. -/
theorem runEncoder_going (hb : env.Bounded) (w : World σ) (e : Entry) (es : List Entry) (hw : w.Going)
    (hp : w.txStore.pending = e :: es) {x : Encoder} {u : World σ} (hx : Found w e x u) (field bufLen : ℕ) :
    Wp (runEncoder env e.value w.tx.internal.offset bufLen x)
      (u.emit (.encode e.kind e.value.packetId e.value.req field))
      (fun r v => packetsSent v.log = packetsSent w.log ∧ (r.1 = .finished →
        r.2.length ≤ bufLen ∧ (w.tx.internal.Fresh → 2 ≤ r.2.length) ∧
        ((v.setTx { v.tx.internal with pos := v.tx.internal.pos + 1, offset := 0 }).Going) ∧
        ((v.setTx { v.tx.internal with pos := v.tx.internal.pos + 1, offset := 0 }).txStore.pending = e :: es) ∧
        (0 < r.2.length ∨ v.tx.internal.pos + 1 =
          (entryFields (v.setTx { v.tx.internal with pos := v.tx.internal.pos + 1, offset := 0 }).heap e).length)))
      fun _ _ => False := by
  have he := hw.queue e (by rw [hp]; exact List.mem_cons_self ..)
  have hat := hw.standing.place e es hp he.kind he.valid
  obtain ⟨f, hget, hplain, hwalk⟩ := runEncoder_at hb hw.fits he.kind he.valid hat hx
    (.encode e.kind e.value.packetId e.value.req field) bufLen
  have halike := hx.alike (.encode e.kind e.value.packetId e.value.req field)
  refine hwalk.mono (fun r v hv => ?_) fun _ _ h => h
  have hsends := hv.sends
  have hlog : packetsSent v.log = packetsSent w.log := by
    rw [hsends.scratch.same, hx.scratch.same]
    exact List.countP_cons_of_neg (by simp [Event.isEncoded])
  refine ⟨hlog, fun hr => ?_⟩
  cases hv with
  | finished bytes v hs hl hc hwidth =>
    generalize hi : { v.tx.internal with pos := v.tx.internal.pos + 1, offset := 0 } = i
    have hstill : (v.setTx i).heap.still = w.heap.still := hs.heap.trans halike.heap
    have hpos : v.tx.internal.pos = w.tx.internal.pos := by rw [hs.pos, halike.tx]
    have hpend : (v.setTx i).txStore.pending = e :: es := by
      have hv : (v.setTx i).txStore = (u.emit (.encode e.kind e.value.packetId e.value.req field)).txStore := by
        rw [hs.scratch.same]
        rfl
      rw [hv, halike.txStore, hp]
    have hwide : ∀ g, (u.emit (.encode e.kind e.value.packetId e.value.req field)).width g = w.width g := by
      intro g
      cases g with
      | header bytes => rfl
      | str r el ie => rw [width_str, width_str, halike.str]
    rw [hwide] at hwidth
    have hread : (v.setTx i).Readable := readable_congr hstill hw.readable
    have hord : ∀ x : Entry, x.Ordinary w.heap → x.Ordinary (v.setTx i).heap := fun x hx =>
      ⟨hx.kind, hx.typed, (validated_congr hstill x).mpr hx.valid⟩
    refine ⟨hl, fun hfresh => ?_, ⟨hread, fits_congr hstill hw.fits, fun x hx => ?_, ?_⟩, hpend, ?_⟩
    · -- the header
      obtain ⟨head, fs, hfields, hlen⟩ := entryFields_head w.heap e
      rw [hfresh.1, hfields] at hget
      cases hget
      rw [hfresh.2.1] at hwidth
      change head.length ≤ 0 + bytes.length at hwidth
      change 2 ≤ bytes.length
      omega
    · rw [hpend, ← hp] at hx
      exact hord x (hw.queue x hx)
    · refine ⟨fun hn => ?_, fun y ys hy _ _ => ?_⟩
      · rw [hpend] at hn
        contradiction
      · rw [hpend] at hy
        obtain ⟨rfl, -⟩ := List.cons.inj hy
        rw [← halike.entryFields, ← halike.tx] at hget
        subst hi
        exact hs.next hget (readable_congr halike.heap hw.readable) he.kind ((validated_congr halike.heap e).mpr he.valid)
          _ (congrArg (· + 1) hs.pos) rfl hc
    · rcases hplain.width_pos with hwpos | ⟨r, rfl⟩
      · left
        have hlt := (hat.field f hget).1.lt_width hwpos
        change 0 < bytes.length
        omega
      · right
        rw [entryFields_congr hstill, hpos]
        exact payload_last he.kind hget
  | «continue» bytes v hs ho hc => contradiction
  | wouldBlock bytes v hs ho hc => contradiction
  | error bytes v hs hg => contradiction

/-- The loop ends. Bytes pay for its turns, and for the packets it sends. -/
theorem txBufferEncodeLoop_ends (hb : env.Bounded) (fuel : ℕ) (cur : Option Entry) (bufLen : ℕ) (out : List Byte) (w : World σ)
    {turns begun : ℕ} (hs : Stage w cur turns begun) (hfuel : 3 * bufLen + turns ≤ fuel) :
    Wp (txBufferEncodeLoop env fuel cur bufLen out) w
      (fun _ v => packetsSent v.log ≤ packetsSent w.log + (begun + bufLen / 2)) fun _ _ => False := by
  induction fuel generalizing cur bufLen out w turns begun with
  | zero =>
    have hpos : 0 < turns := by cases hs <;> omega
    omega
  | succ fuel ih =>
    have hexit : ∀ k, Wp (txBufferExit out) w (fun _ v => packetsSent v.log ≤ packetsSent w.log + k) fun _ _ => False :=
      fun _ => Nat.le_add_right ..
    cases cur with
    | none =>
      simp only [txBufferEncodeLoop, wp_bind, wp_get]
      refine wp_if (fun _ => hexit _) fun hopen => ?_
      cases hp : w.txStore.peek with
      | none => exact hexit _
      | some e =>
        obtain ⟨es, hpend⟩ := Store.pending_of_peek hp
        cases hs with
        | closed h => exact absurd h hopen
        | fresh hw h => exact ih (some e) bufLen out w (.head e es hw hpend h) (by omega)
        | begun hw => exact ih (some e) bufLen out w (.field e es hw hpend) (by omega)
    | some e =>
      obtain ⟨hw, es, hpend⟩ : w.Going ∧ ∃ es, w.txStore.pending = e :: es := by
        cases hs with
        | head _ es hw hp h => exact ⟨hw, es, hp⟩
        | field _ es hw hp => exact ⟨hw, es, hp⟩
        | last _ es hw hp h => exact ⟨hw, es, hp⟩
      simp only [txBufferEncodeLoop, wp_bind]
      obtain ⟨found, u, hu⟩ := txBufferFinder_runs w e
      unfold Wp
      rw [hu]
      rcases txBufferFinder_ok hu with ⟨x, rfl, hx⟩ | ⟨rfl, hend, rfl⟩
      · -- a field of the entry
        have hrun := runEncoder_going hb w e es hw hpend hx u.tx.internal.pos bufLen
        rw [← hx.tx] at hrun
        change Wp (do
          let i := (← get).tx.internal
          emit (.encode e.kind e.value.packetId e.value.req i.pos)
          _) u _ _
        simp only [wp_bind, wp_get, wp_emit]
        refine hrun.mono (fun r v hv => ?_) fun _ _ h => h
        obtain ⟨hlog, hgo⟩ := hv
        obtain ⟨res, bytes⟩ := r
        cases res with
        | wouldBlock => exact hlog.trans_le (Nat.le_add_right ..)
        | «continue» => exact hlog.trans_le (Nat.le_add_right ..)
        | error => exact hlog.trans_le (Nat.le_add_right ..)
        | finished =>
          obtain ⟨hle, htwo, hgoing, hpend', hmore⟩ := hgo rfl
          dsimp only at hle htwo hmore
          simp only [wp_bind, wp_modify]
          generalize hn : v.setTx { v.tx.internal with pos := v.tx.internal.pos + 1, offset := 0 } = n at hgoing hpend' hmore ⊢
          have hlog' : packetsSent n.log = packetsSent w.log := by
            rw [← hn]
            exact hlog
          rw [← hlog']
          -- the bytes of the field pay for the turn, or it was the last one
          cases hs with
          | head _ es hw hp h =>
            rw [hx.tx] at htwo
            have hlen := htwo h
            refine (ih (some e) (bufLen - bytes.length) _ n (.field e _ hgoing hpend') (by omega)).mono (fun _ t ht => ?_)
              fun _ _ h => h
            omega
          | field _ es hw hp =>
            rcases hmore with hlen | hlast
            · refine (ih (some e) (bufLen - bytes.length) _ n (.field e _ hgoing hpend') (by omega)).mono (fun _ t ht => ?_)
                fun _ _ h => h
              omega
            · have hpos : n.tx.internal.pos = (entryFields n.heap e).length := by
                rw [← hlast, ← hn]
                rfl
              refine (ih (some e) (bufLen - bytes.length) _ n (.last e _ hgoing hpend' hpos) (by omega)).mono (fun _ t ht => ?_)
                fun _ _ h => h
              omega
          | last _ es hw hp h =>
            have hlt := (List.getElem?_eq_some_iff.mp hx.field).1
            omega
      · -- its end
        change Wp (do if ← txBufferFinishEntry env e then _ else _) _ _ _
        rw [wp_bind]
        have hcounted : ∀ x ∈ w.txStore.pending, x.Ordinary (w.heap.counted e) := fun x hx =>
          ⟨(hw.queue x hx).kind, (hw.queue x hx).typed, (validated_counted w.heap e x).mpr (hw.queue x hx).valid⟩
        refine (txBufferFinishEntry_going { w with heap := w.heap.counted e } e es hpend (readable_counted e hw.readable)
          (fits_counted e hw.fits) hcounted).mono (fun ok v hv => ?_) fun _ _ h => h
        · obtain ⟨hlog, hgo⟩ := hv
          have hlog : packetsSent v.log = packetsSent w.log + 1 := hlog
          have hcost : 3 ≤ turns ∧ begun = 1 := by
            cases hs with
            | head _ es hw hp h =>
              obtain ⟨head, fs, hfields, -⟩ := entryFields_head w.heap e
              rw [hfields, h.1] at hend
              contradiction
            | field _ es hw hp => exact ⟨by omega, rfl⟩
            | last _ es hw hp h => exact ⟨le_rfl, rfl⟩
          obtain ⟨hturns, rfl⟩ := hcost
          refine wp_if (fun hok => ?_) fun _ => ?_
          · rcases hgo hok with hclosed | ⟨hgoing, hfresh⟩
            · refine (ih none bufLen out v (.closed hclosed) (by omega)).mono (fun _ t ht => ?_) fun _ _ h => h
              omega
            · refine (ih none bufLen out v (.fresh hgoing hfresh) (by omega)).mono (fun _ t ht => ?_) fun _ _ h => h
              omega
          · change packetsSent v.log ≤ _
            omega

end Going

/-- No step changes what the encoder needs of the objects. -/
theorem Does.objects {w w' : World σ} {s : Step σ} (h : Does env w s w') (hw : w.Readable) (hf : w.heap.Fits) :
    w'.Readable ∧ w'.heap.Fits := by
  rcases h.idle with hi | ⟨e, -, u, hu, hw'⟩
  · exact ⟨readable_congr hi.heap hw, fits_congr hi.heap hf⟩
  · have hheap : w'.heap.still = (w.heap.counted e).still := by
      rw [hw']
      exact hu.heap
    have hread : World.Readable { w with heap := w.heap.counted e } := readable_counted e hw
    exact ⟨readable_congr hheap hread, fits_congr hheap (fits_counted e hf)⟩

theorem steps_objects {C : World σ → Step σ → Prop} {v w : World σ} (h : Steps env C v w) (hv : Stepped env (fun _ _ => True) v)
    (hr : v.Readable) (hf : v.heap.Fits) : w.Readable ∧ w.heap.Fits := by
  induction h with
  | refl => exact ⟨hr, hf⟩
  | step u u' s hu hc hs h ih =>
    have hdoes := wp_ok (step_does u s (hu.stepped hv).live hs) h
    exact hdoes.objects ih.1 ih.2

/- The objects behind given steps. -/
theorem runClientSteps_objects {c : World σ → Step σ → Bool} {buffers : ClientBuffers} {heap : Heap} {app : σ}
    {ss : List (Step σ)} {w : World σ} (h : runClientSteps env c buffers heap app ss = some w)
    (hr : (clientCleared buffers heap app).Readable) (hf : heap.Fits) : w.Readable ∧ w.heap.Fits := by
  unfold runClientSteps at h
  split at h
  · rename_i v hv
    have hheap : v.heap.still = (clientCleared buffers heap app).heap.still := by rw [(start_reverted hv).same]
    have hsteps := steps_runSteps (C := fun _ _ => True) (fun _ _ _ => trivial) ss v v w .refl h
    exact steps_objects hsteps (.start buffers heap app v hv) (readable_congr hheap hr) (fits_congr hheap hf)
  · contradiction

theorem quietHeap_readable (buffers : ClientBuffers) : (clientCleared buffers quietHeap ()).Readable := by
  have hone : (0 : ℤ) ≤ 1 ∧ (1 : ℤ) < 2^63 := by decide
  have hsmall : ∀ b : Byte, LString.Ready { len := 1, buf := some [b] } 0 := fun b =>
    ⟨hone, Nat.zero_le _, .inr (.inr ⟨rfl, .inl rfl, [b], rfl, le_rfl⟩)⟩
  have hempty : LString.Ready {} 0 := ⟨by decide, Nat.zero_le _, .inl ⟨rfl, .inl rfl⟩⟩
  intro r hr
  cases r with
  | rxTopic | rxPayload => contradiction
  | connectClientId p | publishTopic p | publishPayload p => exact hsmall _
  | subscriptionTopic p i =>
    cases i with
    | zero => exact hsmall _
    | succ i => exact hempty
  | _ => exact hempty

theorem quietHeap_fits : quietHeap.Fits := by
  have hconnect : Encodable (connectCalcRemainingLength (quietHeap.connects 0)) := ⟨by decide, by decide⟩
  have hsubscribe : ∀ b, Encodable (subscribeCalcRemainingLength (quietHeap.subscribes 0) b) := by
    intro b
    cases b <;> exact ⟨by decide, by decide⟩
  have hpublish : publishValidate (quietHeap.publishes 0) = true ∧
      Encodable (publishCalcRemainingLength (quietHeap.publishes 0)) :=
    ⟨by decide, by decide, by decide⟩
  intro e _ x _
  cases x.1 with
  | connectFixedHeader => exact hconnect
  | subscribeHeaderSubscribe | subscribeHeaderUnsubscribe => exact hsubscribe _
  | publishFixedHeader => exact hpublish
  | _ => trivial

/- A callback that publishes its message again each time it is called. -/
def refillingEnv : Env Unit := { memoryEnv with onPublish := some fun a p _ => ⟨a, true, [.publish p]⟩ }

def refillingSteps : List (Step Unit) := connectSteps ++ [.call (.request (.publish 0))]

theorem refillingRun_isSome :
    (runClientSteps refillingEnv everyStep ⟨8, 64, 64, 4⟩ quietHeap () refillingSteps).isSome = true := by
  decide +kernel

end LightMqtt
