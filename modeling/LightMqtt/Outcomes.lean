import LightMqtt.Sender
import LightMqtt.Requests

/-!
# What callbacks are told

A callback is called with `succeeded = 1` where the packet that answers its
request was decoded, or its QoS 0 publish was encoded. It is called with
`succeeded = 0` where the request is discarded.
-/

namespace LightMqtt

open Exec

variable {σ : Type} {env : Env σ} {P : World σ → Prop}

/-! ### The packet that answers a request -/

/- The callback and the packet type that complete a request. -/
def Kind.response : Kind → Option (Callback × ℕ)
  | .subscribe => some (.onSuback, typeSuback)
  | .unsubscribe => some (.onUnsuback, typeUnsuback)
  | .publish1 => some (.onPublish, typePuback)
  | .pubrel => some (.onPublish, typePubcomp)
  | _ => none

/- The decoder is done with a packet. -/
def Event.EndsPacket (ev : Event) : Prop := (∃ type id, ev = .finished type id) ∨ ∃ r p, ev = .connecting r p

/-- The request was found by the packet that is being read. -/
def Reading (r : ℕ) (k : Kind) (id : PacketId) (log : List Event) : Prop :=
  History.IsOpen (fun ev => ev = .popped k id (some r)) Event.EndsPacket log

/- The request was accepted as one of this kind with this id. The PUBREL of a
   QoS 2 message stands for its publish. -/
def AcceptedAs (r : ℕ) (k : Kind) (id : PacketId) (log : List Event) : Prop :=
  ∃ k' p u, .accepted r k' id p u ∈ log ∧ (k = k' ∨ k = .pubrel ∧ k' = .publish2)

/-- The request `r` was completed: the packet that answers it was decoded to its
end, or its QoS 0 publish was encoded to its end. -/
def Completed (cb : Callback) (r : ℕ) (older : List Event) : Prop :=
  (∃ k id type id' l, k.response = some (cb, type) ∧ older = .decoded type id' :: l ∧ Reading r k id l ∧
    AcceptedAs r k id l) ∨
  ∃ id l, cb = .onPublish ∧ older = .encoded .publish0 id (some r) :: l

def SuccessLaw (ev : Event) (older : List Event) : Prop :=
  match ev with
  | .answered cb (some r) _ true => cb ≠ .onConnack → Completed cb r older
  | _ => True

/- Events that report no success. -/
def Event.reportsNone : Event → Bool
  | .answered _ _ _ true => false
  | _ => true

theorem successLaw_of_none {ev : Event} (h : ev.reportsNone = true) (older : List Event) : SuccessLaw ev older := by
  unfold SuccessLaw
  split
  · simp [Event.reportsNone] at h
  · trivial

/- The call of a callback. -/
theorem answers_success {older : List Event} (w : World σ) (v : Value) (h : History.Always SuccessLaw older)
    (hv : w.closed = false → ∀ cb r, v.callback = some cb → cb ≠ .onConnack → v.req = some r → Completed cb r older) :
    History.Always SuccessLaw (w.answers v ++ older) := by
  unfold World.answers
  split
  · exact h
  · exact h
  · split
    · exact (History.always_cons _ _).mpr ⟨successLaw_of_none rfl older, h⟩
    · exact h
  · rename_i cb hn _ hcb
    refine (History.always_cons _ _).mpr ⟨?_, h⟩
    cases hc : w.closed with
    | true => exact successLaw_of_none rfl older
    | false =>
      cases hr : v.req with
      | none => exact trivial
      | some r => exact fun hne => hv hc cb r hcb hne hr

/- What the decoder table says about requests. -/
theorem rxBufferDecoders_response (type : ℕ) (d : Decoder) (k : Kind) (h : rxBufferDecoders type = some d)
    (hk : d.kind = some k) (hn : k ≠ .publish2) (cb : Callback) (hcb : k.callback = some cb) (hc : cb ≠ .onConnack)
    (hr : k.isRequest = true) : k.response = some (cb, type) := by
  unfold rxBufferDecoders at h
  split at h <;> cases h <;> cases hk <;> cases hcb <;> first | rfl | contradiction

/-! ### Invariants -/

/- What the decoder holds was found by the packet that is being read. -/
def Finds (w : World σ) : Prop :=
  ∀ r, w.rx.internal.value.req = some r →
    ∃ k, w.rx.internal.kind = some k ∧ Reading r k w.rx.internal.value.packetId w.log

/- The client that gives up its session for a new one has no requests. -/
def Emptied (w : World σ) : Prop :=
  w.closed = false → w.Opening → w.cleanSession = true → ∀ e ∈ w.mainStore.entries, e.value.req = none

theorem isNote_endsPacket {e : Event} (he : e.isNote = true) : ¬ e.EndsPacket := by
  rintro (⟨type, id, rfl⟩ | ⟨r, p, rfl⟩) <;> contradiction

theorem answers_endsPacket (w : World σ) (v : Value) : ∀ ev ∈ w.answers v, ¬ ev.EndsPacket := by
  intro ev hev
  unfold World.answers at hev
  split at hev <;> simp_all [Event.EndsPacket]

theorem finds_effect {w w' : World σ} (h : Effect env P w w') (hi : Finds w) : Finds w' := by
  -- the packet goes on
  have hkeep : ∀ {w' : World σ} (evs : List Event), w'.log = evs ++ w.log → (∀ ev ∈ evs, ¬ ev.EndsPacket) →
      w'.rx.internal.value = w.rx.internal.value → w'.rx.internal.decoder = w.rx.internal.decoder → Finds w' := by
    intro w' evs hl hn hv hd r hr
    rw [hv] at hr ⊢
    obtain ⟨k, hk, ho⟩ := hi r hr
    refine ⟨k, by rw [RxInternal.kind, hd]; exact hk, ?_⟩
    rw [hl]
    exact History.isOpen_keep hn ho
  have hdrop : ∀ {w' : World σ}, w'.rx.internal.value = {} → Finds w' := by
    intro w' hv r hr
    rw [hv] at hr
    contradiction
  cases h with
  | app | heap | timeout | tx | txClosed | nextId | enqueue | remember | release | sessionless | clearIds | opened
  | detached | ready | failed => exact hkeep [] rfl (by simp) rfl rfl
  | clock | ack => exact hkeep [] (by simp) (by simp) (by simp) (by simp)
  | rx i hv =>
    obtain ⟨hv, he | hd, -⟩ := hv
    · exact hdrop he
    · exact hkeep [] rfl (by simp) hv hd
  | note e he =>
    refine hkeep [e] rfl (fun ev hev => ?_) rfl rfl
    rw [List.mem_singleton.mp hev]
    exact isNote_endsPacket he
  | accept | encode | connack | deliver | deliverOnce | connected | initial =>
    exact hkeep [_] rfl (by simp [Event.EndsPacket]) rfl rfl
  | mark e hp hr =>
    exact hkeep [.encoded e.kind e.value.packetId e.value.req] (by simp [World.emit])
      (by simp [Event.EndsPacket]) (by simp [World.emit]) (by simp [World.emit])
  | drop e hp hr =>
    refine hkeep (w.answers e.value ++ [.encoded e.kind e.value.packetId e.value.req]) (by simp)
      (fun ev hev => ?_) (by simp) (by simp)
    rcases List.mem_append.mp hev with hev | hev
    · exact answers_endsPacket w _ ev hev
    · rw [List.mem_singleton.mp hev]
      simp [Event.EndsPacket]
  | shift r e s => exact hkeep _ rfl (answers_endsPacket w _) (by simp) (by simp)
  | answer =>
    refine hkeep _ (decoded_answered_log w _) (fun ev hev => ?_) rfl rfl
    rcases List.mem_append.mp hev with hev | hev
    · exact answers_endsPacket w _ ev hev
    · rw [List.mem_singleton.mp hev]
      simp [Event.EndsPacket]
  | finalAnswer => exact hkeep _ rfl (answers_endsPacket w.calling _) rfl rfl
  | pubrec | pubrecLost | finish | connecting => exact hdrop rfl
  | pop k id e s hk hv hid hc hs =>
    obtain ⟨pre, post, hrem, -, hke, hpid, -⟩ := Store.popMarkedBy_spec _ _ _ _ _ hs
    intro r hr
    change e.value.req = some r at hr
    refine ⟨k, hk, ?_⟩
    change Reading r k e.value.packetId (.popped e.kind id e.value.req :: (w.setStore w.rx.store s).log)
    rw [Reading, History.isOpen_cons, hke, hpid, hr]
    exact .inl rfl

theorem leftover_effect {w w' : World σ} (h : Effect env P w w') (hl : w'.leftover = false) :
    w.leftover = false := by
  cases h with
  | connected p => exact (Bool.or_eq_false_iff.mp hl).1
  | clock | mark | drop | pop | pubrec | ack | shift => simpa [World.emit, World.setRx] using hl
  | _ => exact hl

theorem emptied_effect {w w' : World σ} (h : Effect env P w w') (hw : Sound w) (hl : w'.leftover = false)
    (hi : Emptied w) : Emptied w' := by
  -- the main store gets no new requests
  have hkeep : ∀ {w' : World σ}, w'.closed = w.closed → w'.ops.publish = w.ops.publish →
      w'.currentStore = w.currentStore → w'.cleanSession = w.cleanSession →
      (∀ e ∈ w'.mainStore.entries, e.value.req ≠ none → ∃ x ∈ w.mainStore.entries, x.value = e.value) →
      Emptied w' := by
    intro w' hc ho hm hs he hc' ho' hs' e hmem
    by_contra hn
    obtain ⟨x, hx, hv⟩ := he e hmem hn
    rw [World.Opening, ho, hm] at ho'
    exact hn (hv ▸ hi (hc ▸ hc') ho' (hs ▸ hs') x hx)
  have hsame : ∀ e ∈ w.mainStore.entries, e.value.req ≠ none → ∃ x ∈ w.mainStore.entries, x.value = e.value :=
    fun e he _ => ⟨e, he, rfl⟩
  -- a store is replaced by one with no new requests
  have hstore : ∀ {r : StoreRef} {s : Store},
      (∀ e ∈ s.entries, e.value.req ≠ none → ∃ x ∈ (w.store r).entries, x.value = e.value) →
      ∀ e ∈ (w.setStore r s).mainStore.entries, e.value.req ≠ none →
        ∃ x ∈ w.mainStore.entries, x.value = e.value := by
    intro r s hs
    cases r with
    | main => exact hs
    | connect => exact hsame
  cases h with
  | app | heap | timeout | tx | txClosed | rx | note | nextId | encode | answer | finalAnswer | connack
  | pubrecLost | finish | remember | deliver | deliverOnce | release | clearIds => exact hkeep rfl rfl rfl rfl hsame
  | clock r => exact hkeep (by simp) (by simp) (by simp) (by simp) (hstore fun e he _ => ⟨e, he, rfl⟩)
  | accept kind id p s hk ho =>
    -- requests are not accepted yet
    intro _ hop
    obtain ⟨h1, h2, -⟩ := hw.phase.ops
    rw [Ops.requests, h1, h2, hop.1] at ho
    contradiction
  | enqueue kind s hk hs =>
    refine hkeep rfl rfl rfl rfl fun e he hn => ?_
    rw [(Store.append_spec _ _ _ hs).entries, List.mem_append, List.mem_singleton] at he
    rcases he with he | rfl
    · exact ⟨e, he, rfl⟩
    · contradiction
  | mark e hp hr =>
    obtain ⟨rest, hpend⟩ := Store.pending_of_peek hp
    refine hkeep ?_ ?_ ?_ ?_ (hstore (r := w.tx.store) (s := w.txStore.markCurrent) fun x hx _ => ?_) <;>
      try simp [World.emit]
    rw [(Store.markCurrent_spec _ _ _ hpend).1] at hx
    exact ⟨x, hx, rfl⟩
  | drop e hp hr =>
    obtain ⟨rest, hpend⟩ := Store.pending_of_peek hp
    refine hkeep ?_ ?_ ?_ ?_ (hstore (r := w.tx.store) (s := w.txStore.dropCurrent) fun x hx _ => ?_) <;> try simp
    exact ⟨x, (Store.dropCurrent_spec _ _ _ hpend).subset hx, rfl⟩
  | pop k id e s hk hv hid hc hs =>
    obtain ⟨pre, post, hrem, -⟩ := Store.popMarkedBy_spec _ _ _ _ _ hs
    refine hkeep ?_ ?_ ?_ ?_ (hstore (r := w.rx.store) (s := s) fun x hx _ => ⟨x, hrem.subset hx, rfl⟩) <;>
      simp [World.emit, World.setRx]
  | pubrec e s t hk hv hy hs ht =>
    obtain ⟨pre, post, hrem, -⟩ := Store.popMarkedBy_spec _ _ _ _ _ hs
    refine hkeep ?_ ?_ ?_ ?_ (hstore (r := w.rx.store) (s := t) fun x hx _ => ?_) <;> try simp [World.setRx]
    rw [(Store.append_spec _ _ _ ht).entries, List.mem_append, List.mem_singleton] at hx
    rcases hx with hx | rfl
    · exact ⟨x, hrem.subset hx, rfl⟩
    · exact ⟨e, hrem.mem, rfl⟩
  | ack e s he hs =>
    refine hkeep ?_ ?_ ?_ ?_ (hstore fun x hx hn => ?_) <;> try simp
    rw [(Store.append_spec _ _ _ hs).entries, List.mem_append, List.mem_singleton] at hx
    rcases hx with hx | rfl
    · exact ⟨x, hx, rfl⟩
    · exact absurd he.req hn
  | shift r e s hr hf hs =>
    obtain ⟨post, hrem⟩ := Store.shift_spec _ _ _ hs
    refine hkeep ?_ ?_ ?_ ?_ (hstore (r := r) (s := s) fun x hx _ => ⟨x, hrem.subset hx, rfl⟩) <;> simp
  | sessionless hc =>
    exact hkeep rfl rfl rfl rfl fun e he _ => ⟨e, (deleteSessionless_spec _ _ _ e).1 he, rfl⟩
  | connected p hc he ho hn =>
    -- the ghost says that there is none
    intro _ _ hclean e hmem
    have hz := (Bool.or_eq_false_iff.mp hl).2
    change (w.heap.connects p).cleanSession = true at hclean
    rw [hclean, Bool.true_and, Store.hasRequest, List.any_eq_false] at hz
    simpa using hz e hmem
  | connecting p s ho =>
    intro _ hop
    rw [World.Opening, (hw.phase.idle ho).1] at hop
    simp at hop
  | opened => exact fun _ hop => by simp [World.Opening] at hop
  | initial | failed => exact fun h => by simp at h
  | detached hc => exact fun h => by simp [hc] at h
  | ready he hc => exact fun h => by simp [hc] at h

/-! ### The law -/

/- The kind the request of the decoder is typed as. -/
theorem Sound.heldKind {w : World σ} (hw : Sound w) {r : ℕ} (hr : w.rx.internal.value.req = some r) :
    ∃ k, w.rx.internal.kind = some k ∧ (⟨k, w.rx.internal.value⟩ : Entry).WellTyped := by
  rcases hw.held with hv | hv
  · rw [hv] at hr
    contradiction
  · exact hv

theorem success_effect {w w' : World σ} (h : Effect env P w w') (hw : Sound w) (hr : Registered w) (hf : Finds w)
    (he : Emptied w) (hi : History.Always SuccessLaw w.log) : History.Always SuccessLaw w'.log := by
  have hquiet : ∀ ev : Event, ev.reportsNone = true → History.Always SuccessLaw (ev :: w.log) := fun ev h =>
    (History.always_cons _ _).mpr ⟨successLaw_of_none h _, hi⟩
  cases h with
  | app | heap | timeout | tx | txClosed | rx | nextId | enqueue | remember | release | sessionless | clearIds
  | opened | detached | ready | failed => exact hi
  | clock | ack =>
    rw [World.setStore_log]
    exact hi
  | note e he => exact hquiet e (by cases e <;> first | rfl | contradiction)
  | accept | encode | pubrecLost | finish | deliver | deliverOnce | connecting | connected | initial =>
    exact hquiet _ rfl
  | connack v hv => exact (History.always_cons _ _).mpr ⟨by cases v.req <;> simp [SuccessLaw], hi⟩
  | mark | pop =>
    simp only [World.emit, World.setRx, World.setStore_log]
    exact hquiet _ rfl
  | pubrec => exact (History.always_cons _ _).mpr ⟨successLaw_of_none rfl _, hquiet _ rfl⟩
  | finalAnswer hcl =>
    refine answers_success w.calling _ hi fun hc => ?_
    rw [show w.calling.closed = w.closed from rfl, hcl] at hc
    contradiction
  | drop e hp hk =>
    refine answers_success w e.value (hquiet _ rfl) fun _ cb r hcb hne hreq => ?_
    -- only a QoS 0 publish is a request that expects no response
    have hmem : e ∈ w.txStore.entries := List.mem_of_getElem? hp
    have ht : e.WellTyped := by
      have hfit := hw.entries _ e hmem
      cases hs : w.tx.store <;> rw [hs] at hfit <;> exact hfit.1
    have hke : e.kind = .publish0 := by
      have h1 := ht.req
      rw [hreq, Option.isSome_some] at h1
      generalize e.kind = k at hk h1
      cases k <;> first | rfl | contradiction
    have hcb' := ht.callback
    rw [hke, hcb] at hcb'
    cases hcb'
    exact .inr ⟨e.value.packetId, w.log, rfl, by rw [hke, hreq]⟩
  | answer hcs hk htab hpop =>
    refine answers_success w.decoded _ (hquiet _ rfl) fun _ cb r hcb hne hreq => .inl ?_
    obtain ⟨k, hkind, ht⟩ := hw.heldKind hreq
    obtain ⟨k', hkind', hread⟩ := hf r hreq
    cases hkind.symm.trans hkind'
    obtain ⟨d, hd, hdk⟩ := Option.bind_eq_some_iff.mp hkind
    have hkr : k.isRequest = true := by
      have h1 := ht.req
      rw [← h1]
      simp [hreq]
    have hresp := rxBufferDecoders_response _ d k (htab.trans hd) hdk (by rintro rfl; exact hk hkind) cb
      (ht.callback ▸ hcb) hne hkr
    refine ⟨k, w.rx.internal.value.packetId, _, w.rx.internal.packetId, w.log, hresp, rfl, hread, ?_⟩
    rcases hr.held k hkind r hreq with ⟨rfl, -⟩ | ⟨k', p, u, hm, hkk⟩
    · contradiction
    · exact ⟨k', p, u, hm, hkk⟩
  | shift s e t hg hfl hs =>
    refine answers_success w e.value hi fun hc cb r hcb hne hreq => ?_
    obtain ⟨post, hrem⟩ := Store.shift_spec _ _ _ hs
    have hfit := hw.entries s e hrem.mem
    cases s with
    | main =>
      -- the session is clean, and there are no requests
      have hop := (hfl rfl).resolve_left (by rw [hc]; simp)
      have hclean := (hg rfl).resolve_right (by rw [hw.alive hc]; simp)
      have := he hc hop hclean e hrem.mem
      rw [hreq] at this
      contradiction
    | connect =>
      rcases hfit.2 with hk | hk
      · have h1 := hfit.1.callback
        rw [hk, hcb] at h1
        cases h1
        contradiction
      · rw [hk.req] at hreq
        contradiction

/-! ### Requests that leave the store -/

/- What is logged of a request `r` that leaves the main store: the decoder took
   it, it was sent with QoS 0, or it is answered. -/
def LeavesAs (r : ℕ) (evs : List Event) : Prop :=
  (∃ k id, .popped k id (some r) ∈ evs) ∨ (∃ id, .encoded .publish0 id (some r) ∈ evs) ∨
    ∃ cb p, .answered cb (some r) p false ∈ evs

theorem LeavesAs.append_right {r : ℕ} {evs : List Event} (h : LeavesAs r evs) (evs' : List Event) :
    LeavesAs r (evs ++ evs') := by
  rcases h with ⟨k, id, h⟩ | ⟨id, h⟩ | ⟨cb, p, h⟩
  · exact .inl ⟨k, id, List.mem_append_left _ h⟩
  · exact .inr (.inl ⟨id, List.mem_append_left _ h⟩)
  · exact .inr (.inr ⟨cb, p, List.mem_append_left _ h⟩)

theorem LeavesAs.append_left {r : ℕ} {evs : List Event} (h : LeavesAs r evs) (evs' : List Event) :
    LeavesAs r (evs' ++ evs) := by
  rcases h with ⟨k, id, h⟩ | ⟨id, h⟩ | ⟨cb, p, h⟩
  · exact .inl ⟨k, id, List.mem_append_right _ h⟩
  · exact .inr (.inl ⟨id, List.mem_append_right _ h⟩)
  · exact .inr (.inr ⟨cb, p, List.mem_append_right _ h⟩)

theorem queued_effect {w w' : World σ} (h : Effect env P w w') (hw : Sound w) (he : Emptied w) (r : ℕ)
    (hq : w.Queued r) : w'.Queued r ∨ ∃ evs, w'.log = evs ++ w.log ∧ LeavesAs r evs := by
  obtain ⟨e, hmem, hreq⟩ := hq
  have hkeep : ∀ {w' : World σ}, e ∈ w'.mainStore.entries → w'.Queued r := fun h => ⟨e, h, hreq⟩
  cases h with
  | app | heap | timeout | tx | txClosed | rx | note | nextId | encode | answer | finalAnswer | connack
  | pubrecLost | finish | remember | deliver | deliverOnce | release | clearIds | connecting | connected | opened
  | initial | detached | ready | failed => exact .inl (hkeep hmem)
  | clock s => exact .inl (hkeep (by cases s <;> exact hmem))
  | accept kind id p s hk ho hs =>
    refine .inl (hkeep ?_)
    change e ∈ s.entries
    rw [(Store.append_spec _ _ _ hs).entries]
    exact List.mem_append_left _ hmem
  | enqueue kind s hk hs =>
    refine .inl (hkeep ?_)
    change e ∈ s.entries
    rw [(Store.append_spec _ _ _ hs).entries]
    exact List.mem_append_left _ hmem
  | ack x s hx hs =>
    refine .inl (hkeep ?_)
    unfold World.rxStore at hs
    cases hrs : w.rx.store with
    | main =>
      rw [hrs] at hs
      change e ∈ s.entries
      rw [(Store.append_spec _ _ _ hs).entries]
      exact List.mem_append_left _ hmem
    | connect => exact hmem
  | mark x hp hr =>
    refine .inl (hkeep ?_)
    unfold World.txStore at *
    cases hts : w.tx.store with
    | main =>
      rw [hts] at hp
      obtain ⟨rest, hpend⟩ := Store.pending_of_peek hp
      change e ∈ (w.store .main).markCurrent.entries
      rw [(Store.markCurrent_spec _ _ _ hpend).1]
      exact hmem
    | connect => exact hmem
  | sessionless hc =>
    have ht := (hw.entries .main e hmem).1.req
    rw [hreq, Option.isSome_some] at ht
    refine .inl (hkeep ((deleteSessionless_spec _ _ _ e).2.2 hmem ?_ ?_)) <;>
      · intro hk
        rw [hk] at ht
        contradiction
  | drop x hp hk =>
    obtain ⟨rest, hpend⟩ := Store.pending_of_peek hp
    have hrem := Store.dropCurrent_spec _ _ _ hpend
    unfold World.txStore at *
    cases hts : w.tx.store with
    | main =>
      rw [hts] at hrem
      rcases hrem.mem_or hmem with rfl | hin
      · refine .inr ⟨w.answers e.value ++ [.encoded e.kind e.value.packetId e.value.req], by simp, .inr (.inl ?_)⟩
        have ht := (hw.entries .main e hmem).1.req
        rw [hreq, Option.isSome_some] at ht
        have hke : e.kind = .publish0 := by
          generalize e.kind = k at hk ht
          cases k <;> first | rfl | contradiction
        exact ⟨e.value.packetId, by rw [hke, hreq]; simp⟩
      · exact .inl (hkeep hin)
    | connect => exact .inl (hkeep hmem)
  | pop k id x s hk hv hid hc hs =>
    obtain ⟨pre, post, hrem, -⟩ := Store.popMarkedBy_spec _ _ _ _ _ hs
    unfold World.rxStore at hrem
    cases hrs : w.rx.store with
    | main =>
      rw [hrs] at hrem
      rcases hrem.mem_or hmem with rfl | hin
      · exact .inr ⟨[.popped e.kind id e.value.req], rfl, .inl ⟨e.kind, id, by rw [hreq]; simp⟩⟩
      · exact .inl (hkeep hin)
    | connect => exact .inl (hkeep hmem)
  | pubrec x s t hk hv hy hs ht =>
    obtain ⟨pre, post, hrem, -⟩ := Store.popMarkedBy_spec _ _ _ _ _ hs
    unfold World.rxStore at hrem
    cases hrs : w.rx.store with
    | main =>
      rw [hrs] at hrem
      left
      rcases hrem.mem_or hmem with rfl | hin
      · refine ⟨⟨.pubrel, e.value⟩, ?_, hreq⟩
        change _ ∈ t.entries
        rw [(Store.append_spec _ _ _ ht).entries]
        exact List.mem_append_right _ (List.mem_singleton.mpr rfl)
      · refine hkeep ?_
        change e ∈ t.entries
        rw [(Store.append_spec _ _ _ ht).entries]
        exact List.mem_append_left _ hin
    | connect => exact .inl (hkeep hmem)
  | shift s x t hg hfl hs =>
    obtain ⟨post, hrem⟩ := Store.shift_spec _ _ _ hs
    cases s with
    | connect => exact .inl (hkeep hmem)
    | main =>
      rcases hrem.mem_or hmem with rfl | hin
      · -- the client is closed, or it has no requests
        refine .inr ⟨_, rfl, .inr (.inr ?_)⟩
        obtain ⟨cb, ha⟩ := answers_request hw hmem hreq
        cases hc : w.closed with
        | true =>
          refine ⟨cb, e.value.value, ?_⟩
          rw [ha, hc]
          simp
        | false =>
          have hop := (hfl rfl).resolve_left (by rw [hc]; simp)
          have hclean := (hg rfl).resolve_right (by rw [hw.alive hc]; simp)
          have := he hc hop hclean e hmem
          rw [hreq] at this
          contradiction
      · exact .inl (hkeep hin)

/-! ### Runs -/

/-- No CONNACK for a clean session has found a request in the main store. -/
def World.CleanStarts (w : World σ) : Prop := w.leftover = false

instance (w : World σ) : Decidable w.CleanStarts := inferInstanceAs (Decidable (_ = _))

/-- What is true of reports in a run that starts clean sessions without requests. -/
structure Reporting (w : World σ) : Prop where
  registered : Registered w
  finds : Finds w
  rest : w.CleanStarts → Emptied w ∧ History.Always SuccessLaw w.log

theorem reporting_effect {w w' : World σ} (h : Effect env P w w') (hw : Sound w) (hi : Reporting w) :
    Reporting w' := by
  refine ⟨registered_effect h hi.registered, finds_effect h hi.finds, fun hl => ?_⟩
  obtain ⟨he, hlaw⟩ := hi.rest (leftover_effect h hl)
  exact ⟨emptied_effect h hw hl he, success_effect h hw hi.registered hi.finds he hlaw⟩

theorem Reporting.buffers {w : World σ} (h : Reporting w) (readBuf writeBuf : List Byte) :
    Reporting { w with readBuf := readBuf, writeBuf := writeBuf } :=
  ⟨h.registered.buffers readBuf writeBuf, h.finds, h.rest⟩

theorem reached_reporting (w : World σ) (h : Reached env P w) : Reporting w := by
  refine reached_invariant (fun v v' hs he hv => reporting_effect he hs hv) (fun v b b' hv => hv.buffers b b')
    (fun buffers heap app => ⟨clientCleared_registered buffers heap app, fun r hr => by contradiction, fun _ => ?_⟩) w h
  exact ⟨fun _ _ _ e he => by contradiction, History.always_nil⟩

/- The requests that leave the main store by some changes. -/
theorem changes_queued {w w' : World σ} (h : Changes env P w w') (hw : Sound w) (hi : Reporting w) (r : ℕ)
    (hl : w'.CleanStarts) (hq : w.Queued r) : w'.Queued r ∨ ∃ evs, w'.log = evs ++ w.log ∧ LeavesAs r evs := by
  have hinv : Reporting w' ∧ (w'.CleanStarts → (∃ evs, w'.log = evs ++ w.log) ∧
      (w'.Queued r ∨ ∃ evs, w'.log = evs ++ w.log ∧ LeavesAs r evs)) := by
    refine h.invariant (I := fun v => Reporting v ∧ (v.CleanStarts → (∃ evs, v.log = evs ++ w.log) ∧
      (v.Queued r ∨ ∃ evs, v.log = evs ++ w.log ∧ LeavesAs r evs))) (fun v v' hs he hv => ?_)
      (fun v b b' hv => ⟨hv.1.buffers b b', hv.2⟩) hw ⟨hi, fun _ => ⟨⟨[], rfl⟩, .inl hq⟩⟩
    refine ⟨reporting_effect he hs hv.1, fun hl => ?_⟩
    have hlv : v.CleanStarts := leftover_effect he hl
    obtain ⟨⟨evs, hevs⟩, hvq⟩ := hv.2 hlv
    obtain ⟨evs', hevs'⟩ := effect_log he
    have hlog : v'.log = (evs' ++ evs) ++ w.log := by rw [hevs', hevs, List.append_assoc]
    refine ⟨⟨_, hlog⟩, ?_⟩
    rcases hvq with hvq | ⟨evs₁, h₁, hleave⟩
    · rcases queued_effect he hs (hv.1.rest hlv).1 r hvq with hq' | ⟨evs₂, h₂, hleave⟩
      · exact .inl hq'
      · exact .inr ⟨evs₂ ++ evs, by rw [h₂, hevs, List.append_assoc], hleave.append_right evs⟩
    · exact .inr ⟨evs' ++ evs₁, by rw [hevs', h₁, List.append_assoc], hleave.append_left evs'⟩
  exact (hinv.2 hl).2

/- A subscribe waits for its SUBACK when the connection is lost; the next connect
   has a clean session. -/
def discardHeap : Heap := { smallHeap with
  connects := fun p => { cleanSession := p = 1, clientId := { len := 1, buf := some [97] } } }

def discardActs : List (Act Unit) :=
  connectKept ++ [.request (.subscribe 0), .encode 64, .eof, .connect 1, .encode 64, .decode [0x20, 2, 0, 0]]

theorem discardRun_isSome : (runClient memoryEnv anyConnect ⟨8, 64, 64, 4⟩ discardHeap () discardActs).isSome =
    true := by decide +kernel

/- A subscribe that is answered, and one that is discarded when the client ends. -/
def reportActs : List (Act Unit) :=
  connectKept ++ [.request (.subscribe 0), .encode 64, .decode [0x90, 3, 0, 0, 0], .request (.subscribe 0)]

theorem reportRun_isSome : (runClient memoryEnv anyConnect ⟨8, 64, 64, 4⟩ smallHeap () reportActs).isSome =
    true := by decide +kernel

end LightMqtt
