import LightMqtt.Base.Wp
import LightMqtt.Client

/-!
# What a run can do to a client

The functions of the client change its state by a small number of effects. An
effect is as large as the smallest change after which requests and messages are
accounted for again: a request that leaves a store is answered, or held by the
decoder, by the same effect. Laws about whole runs are proved effect by effect.
-/

namespace LightMqtt

variable {σ : Type}

/- Events that say nothing about stored requests and delivered messages. -/
def Event.isNote : Event → Bool
  | .packetId .. | .allocate .. | .deallocate => true
  | _ => false

/- Kinds of the requests of `lmqtt_client_subscribe`, `_unsubscribe` and
   `_publish`. -/
def Kind.isApi : Kind → Bool
  | .subscribe | .unsubscribe | .publish0 | .publish1 | .publish2 => true
  | _ => false

/- Entries that answer an incoming packet. -/
def Entry.IsAck (e : Entry) : Prop :=
  (e.kind = .puback ∨ e.kind = .pubrec ∨ e.kind = .pubcomp) ∧ e.value = { packetId := e.value.packetId }

/- `client_do_publish` makes a request of kind `k` of the object `b`. -/
def Kind.Suits (k : Kind) (b : Publish) : Prop :=
  match k with
  | .publish0 => publishValidate b = true ∧ b.qos = 0
  | .publish1 => publishValidate b = true ∧ b.qos = 1
  | .publish2 => publishValidate b = true ∧ b.qos = 2
  | _ => True

/- The kind of the request the decoder waits for or holds. -/
def RxInternal.kind (i : RxInternal) : Option Kind := i.decoder.bind (·.kind)

/- The call of the callback of an entry, as it is logged. The application is not
   told of a PINGRESP; a CONNACK opens the client before it is told. -/
def World.answers (w : World σ) (v : Value) : List Event :=
  match v.callback with
  | none | some .onPingresp => []
  | some .onConnack => if w.closed then [.answered .onConnack v.req v.value false] else []
  | some cb => [.answered cb v.req v.value (!w.closed)]

def World.answered (w : World σ) (v : Value) : World σ := { w with log := w.answers v ++ w.log }

theorem decoded_answered_log (w : World σ) (v : Value) : (w.decoded.answered v).log =
    (w.answers v ++ [.decoded w.rx.internal.header.type w.rx.internal.packetId]) ++ w.log := by
  rw [List.append_assoc]
  rfl

/-! ### Requests in the stores and in the log -/

/- The callback of the request `r` is called. -/
def Event.answeredAs (r : ℕ) : Event → Bool
  | .answered _ req _ _ => req = some r
  | _ => false

/- How often the request was answered, is stored, and is held by the decoder. -/
def timesAnswered (log : List Event) (r : ℕ) : ℕ := log.countP (Event.answeredAs r)
def Store.times (s : Store) (r : ℕ) : ℕ := s.entries.countP fun e => e.value.req = some r
def World.stored (w : World σ) (r : ℕ) : ℕ := w.mainStore.times r + w.connectStore.times r
def World.held (w : World σ) (r : ℕ) : ℕ := if w.rx.internal.value.req = some r then 1 else 0

/- The request was taken out of the stores and is not answered yet. -/
structure World.Spared (w : World σ) (r : ℕ) : Prop where
  fresh : r < w.nextReq
  gone : w.stored r = 0
  unanswered : timesAnswered w.log r = 0

/-! ### Effects -/

/- A function of the API for requests is the one that works. -/
def Ops.requests (o : Ops) : Bool := o.subscribe || o.unsubscribe || o.publish

/- The client is connected, and not open for requests yet. -/
def World.Opening (w : World σ) : Prop := w.ops.publish = false ∧ w.currentStore = .main

/- The session is given up: by a clean session, or by the end of the client. -/
def World.GivesUp (w : World σ) : Prop := w.cleanSession = true ∨ w.error = some .closed

/-- The effects of a client in the environment `env`. `P` restricts the states
in which a connect is accepted. -/
inductive Effect (env : Env σ) (P : World σ → Prop) : World σ → World σ → Prop
  /- the application, the clock and scratch data -/
  | app (w a) : Effect env P w { w with app := a }
  | heap (w h) (hc : ∀ p, (h.subscribes p).count = (w.heap.subscribes p).count)
      (hp : ∀ e ∈ w.mainStore.entries, e.kind.Suits (w.heap.publishes e.value.value) →
        e.kind.Suits (h.publishes e.value.value))
      (hq : ∀ p, (h.publishes p).qos = (w.heap.publishes p).qos) : Effect env P w { w with heap := h }
  | clock (w r) : Effect env P w (w.setStore r ((w.store r).touch (env.getTime w.app).2))
  | timeout (w n) : Effect env P w { w with
      mainStore := { w.mainStore with timeout := n }
      connectStore := { w.connectStore with timeout := n } }
  | tx (w i) : Effect env P w (w.setTx i)
  | txClosed (w b) : Effect env P w { w with tx := { w.tx with closed := b } }
  | rx (w i) (hv : i.value = w.rx.internal.value ∧ (i.value = {} ∨ i.decoder = w.rx.internal.decoder) ∧
      i.calls = w.rx.internal.calls) : Effect env P w (w.setRx i)
  | note (w e) (he : e.isNote = true) : Effect env P w (w.emit e)
  /- requests -/
  | nextId (w) : Effect env P w { w with mainStore := w.mainStore.getId.2, ids := w.ids.draw }
  | accept (w kind id p s) (hk : kind.isApi = true) (ho : w.ops.requests = true)
      (hs : w.mainStore.append ⟨kind, ⟨id, p, kind.callback, some w.nextReq⟩⟩ = some s)
      (hp : kind.Suits (w.heap.publishes p))
      (hi : kind.inFlight = true → w.ids.fresh = true ∧ w.mainStore.nextPacketId = id + 1) :
    Effect env P w { w with
      mainStore := s
      nextReq := w.nextReq + 1
      ids := w.ids.give w.nextReq
      log := .accepted w.nextReq kind id p (w.idInUse id) :: w.log }
  | enqueue (w kind s) (hk : kind = .pingreq ∨ kind = .disconnect)
      (hs : w.mainStore.append ⟨kind, { callback := kind.callback }⟩ = some s) :
    Effect env P w { w with mainStore := s }
  /- the encoder at the entry it sends -/
  | encode (w e field) (hp : w.txStore.peek = some e) :
    Effect env P w (w.emit (.encode e.kind e.value.packetId e.value.req field))
  | mark (w e) (hp : w.txStore.peek = some e) (hr : e.kind.expectsResponse = true) :
    Effect env P w ((w.setStore w.tx.store w.txStore.markCurrent).emit
      (.encoded e.kind e.value.packetId e.value.req))
  | drop (w e) (hp : w.txStore.peek = some e) (hr : e.kind.expectsResponse = false) :
    Effect env P w { w.setStore w.tx.store w.txStore.dropCurrent with
      log := w.answers e.value ++ .encoded e.kind e.value.packetId e.value.req :: w.log }
  /- the decoder and the request of the packet it reads -/
  | pop (w k id e s) (hk : w.rx.internal.kind = some k) (hv : w.rx.internal.value = {})
      (hi : k.inFlight = true → ∃ l, w.log = .packetId w.rx.internal.header.type id :: l)
      (hc : w.rx.store = .main → w.ops.publish = true)
      (hs : w.rxStore.popMarkedBy k id = some (e, s)) :
    Effect env P w (((w.setStore w.rx.store s).setRx { w.rx.internal with value := e.value }).emit
      (.popped e.kind id e.value.req))
  | pubrec (w e s t) (hk : w.rx.internal.kind = some .publish2) (hv : w.rx.internal.value = {})
      (hy : w.rx.internal.header.type = typePubrec)
      (hs : w.rxStore.popMarkedBy .publish2 w.rx.internal.packetId = some (e, s))
      (ht : s.append ⟨.pubrel, e.value⟩ = some t) :
    Effect env P w { (w.setStore w.rx.store t).setRx {} with
      log := .finished w.rx.internal.header.type w.rx.internal.packetId ::
        .popped .publish2 w.rx.internal.packetId e.value.req :: w.log }
  | pubrecLost (w) (hn : env.ndebug = true) (he : w.error ≠ some .closed)
      (hk : w.rx.internal.kind = some .publish2)
      (hy : w.rx.internal.header.type = typePubrec) :
    Effect env P w ((w.emit (.finished w.rx.internal.header.type w.rx.internal.packetId)).setRx {})
  | answer (w) (hc : w.rx.internal.calls = 0) (hk : w.rx.internal.kind ≠ some .publish2)
      (ht : rxBufferDecoders w.rx.internal.header.type = w.rx.internal.decoder)
      (hp : w.rx.internal.kind = some .pubrel →
        w.rx.internal.header.type = typePubcomp ∧ ∃ l, w.log =
          .popped .pubrel w.rx.internal.packetId w.rx.internal.value.req ::
            .packetId typePubcomp w.rx.internal.packetId :: l) :
    Effect env P w (w.decoded.answered w.rx.internal.value)
  | finalAnswer (w) (hc : w.closed = true) (he : w.error = some .closed) :
    Effect env P w (w.calling.answered w.rx.internal.value)
  | connack (w) (v : Value) (hv : v.callback = some .onConnack) (hu : ∀ r, v.req = some r → w.Spared r)
      (hc : v.req = w.rx.internal.value.req → 0 < w.rx.internal.calls) :
    Effect env P w (w.emit (.answered .onConnack v.req v.value true))
  | finish (w) (hy : w.rx.internal.header.type ≠ typePubrec) (he : w.error ≠ some .closed)
      (ha : ∀ r, w.rx.internal.value.req = some r → ∃ cb p b, Event.answered cb (some r) p b ∈ w.log) :
    Effect env P w ((w.emit (.finished w.rx.internal.header.type w.rx.internal.packetId)).setRx {})
  /- acknowledgements, messages and the id set -/
  | ack (w e s) (he : e.IsAck) (hs : w.rxStore.append e = some s) :
    Effect env P w (w.setStore w.rx.store s)
  | remember (w id t) (ht : w.rx.idSet.put id = some t) :
    Effect env P w { w with rx := { w.rx with idSet := t } }
  | deliver (w id b) (hb : b.qos ≠ 2) : Effect env P w (w.emit (.message id b))
  | deliverOnce (w id b t) (he : w.error = none) (ht : w.rx.idSet.put id = some t) :
    Effect env P w { w with
      rx := { w.rx with idSet := t }
      log := .message id b :: w.log }
  | release (w id) (hi : ∃ l, w.log = .packetId typePubrel id :: l) :
    Effect env P w { w with rx := { w.rx with idSet := w.rx.idSet.remove id } }
  /- the states of the client -/
  | connecting (w p s) (ho : w.ops.connect = true) (hp : P w)
      (hs : w.connectStore.append
        ⟨.connect, { value := p, callback := some .onConnack, req := some w.nextReq }⟩ = some s) :
    Effect env P w { w with
      connectStore := s
      nextReq := w.nextReq + 1
      log := .connecting w.nextReq p :: w.log
      error := none
      osError := 0
      closed := false
      rx := { w.rx with internal := {} }
      tx := { w.tx with closed := false, internal := {} }
      readBuf := []
      writeBuf := []
      ops := { w.ops with connect := false } }
  | connected (w p) (hc : w.closed = false) (he : w.error = none) (ho : w.ops.publish = false)
      (hn : 0 < w.rx.internal.calls) :
    Effect env P w { w with
      cleanSession := (w.heap.connects p).cleanSession
      mainStore := { w.mainStore with keepAlive := (w.heap.connects p).keepAlive }
      error := none
      osError := 0
      closed := false
      log := .connected (w.heap.connects p).cleanSession :: w.log
      leftover := w.leftover || (w.heap.connects p).cleanSession && w.mainStore.hasRequest
      currentStore := .main
      rx := { w.rx with store := .main }
      tx := { w.tx with store := .main } }
  | sessionless (w) (hc : w.cleanSession = false) :
    Effect env P w { w with mainStore := deleteSessionless w.mainStore.count 0 w.mainStore }
  | shift (w r e s) (hr : r = .main → w.GivesUp) (hf : r = .main → w.closed = true ∨ w.Opening)
    (hs : (w.store r).shift = some (e, s)) :
    Effect env P w { w.setStore r s with log := w.answers e.value ++ w.log }
  | clearIds (w) (hc : w.GivesUp) :
    Effect env P w { w with rx := { w.rx with idSet := w.rx.idSet.clear } }
  | opened (w) (hc : w.closed = false) (hm : w.currentStore = .main) : Effect env P w { w with
      mainStore := w.mainStore.unmarkAll
      ops := { w.ops with
        subscribe := true, unsubscribe := true, publish := true, pingreq := true, disconnect := true } }
  | initial (w) (he : w.error ≠ some .closed) : Effect env P w { w with
      error := none
      osError := 0
      closed := true
      log := .closed :: w.log }
  | detached (w) (hc : w.closed = true) : Effect env P w { w with
      currentStore := .connect
      rx := { w.rx with store := .connect }
      tx := { w.tx with store := .connect } }
  | ready (w) (he : w.error = none) (hc : w.closed = true) (hm : w.currentStore = .connect)
      (hs : w.connectStore.entries = []) :
    Effect env P w { w with ops := { connect := true } }
  | failed (w e os) (he : w.error = some .closed → e = .closed) :
    Effect env P w { w with error := some e, osError := os, closed := true, ops := {} }

/-- Any number of effects. -/
def Effects (env : Env σ) (P : World σ → Prop) : World σ → World σ → Prop :=
  Relation.ReflTransGen (Effect env P)

section Effects
variable {env : Env σ} {P : World σ → Prop} {w w' : World σ}

theorem Effects.refl : Effects env P w w := Relation.ReflTransGen.refl

theorem Effects.of (h : Effect env P w w') : Effects env P w w' := Relation.ReflTransGen.single h

theorem Effects.trans {w'' : World σ} (h : Effects env P w w') (h' : Effects env P w' w'') :
    Effects env P w w'' := Relation.ReflTransGen.trans h h'

theorem Effects.then {w'' : World σ} (h : Effects env P w w') (h' : Effect env P w' w'') :
    Effects env P w w'' := h.tail h'

/- What every effect preserves is preserved by any number of them. -/
theorem Effects.invariant {I : World σ → Prop} (hi : ∀ v v', Effect env P v v' → I v → I v')
    (h : Effects env P w w') (hw : I w) : I w' := by
  induction h with
  | refl => exact hw
  | tail _ hv ih => exact hi _ _ hv ih

end Effects

/- The log only grows. -/
theorem effect_log {env : Env σ} {P : World σ → Prop} {w w' : World σ} (h : Effect env P w w') :
    ∃ evs, w'.log = evs ++ w.log := by
  cases h
  case drop e hp hr => exact ⟨w.answers e.value ++ [_], by simp; rfl⟩
  case pubrec => exact ⟨[_, _], rfl⟩
  case answer => exact ⟨w.decoded.answers _ ++ [_], by rw [List.append_assoc]; rfl⟩
  case finalAnswer => exact ⟨w.calling.answers _, rfl⟩
  case shift => exact ⟨w.answers _, rfl⟩
  case clock | ack => exact ⟨[], by simp⟩
  case mark | pop => exact ⟨[_], by simp [World.emit, World.setRx]; rfl⟩
  case note | accept | encode | pubrecLost | connack | finish | deliver | deliverOnce | connecting | connected
    | initial => exact ⟨[_], rfl⟩
  all_goals exact ⟨[], rfl⟩

/- Events of the encoder. -/
def Event.isEncoder : Event → Bool
  | .encode .. | .encoded .. => true
  | _ => false

theorem answers_isEncoder (w : World σ) (v : Value) : ∀ ev ∈ w.answers v, ev.isEncoder = false := by
  intro ev hev
  unfold World.answers at hev
  split at hev <;> simp_all [Event.isEncoder]

/- Events of the encoder are about the entry it sends. An entry that waits for no
   response is answered at once. -/
theorem effect_encoder {env : Env σ} {P : World σ → Prop} {w w' : World σ} (h : Effect env P w w') {ev : Event}
    (he : ev.isEncoder = true) (hm : ev ∈ w'.log) : ev ∈ w.log ∨ ∃ e, w.txStore.peek = some e ∧
      ((∃ field, ev = .encode e.kind e.value.packetId e.value.req field) ∨
        ev = .encoded e.kind e.value.packetId e.value.req ∧
          (e.kind.expectsResponse = false → w'.log = w.answers e.value ++ ev :: w.log)) := by
  have hanswers : ∀ {u : World σ} {v : Value} {l : List Event}, ev ∈ u.answers v ++ l → ev ∈ l := by
    intro u v l hm
    rcases List.mem_append.mp hm with hm | hm
    · rw [answers_isEncoder u v ev hm] at he
      contradiction
    · exact hm
  have hcons : ∀ {x : Event} {l : List Event}, x.isEncoder = false → ev ∈ x :: l → ev ∈ l := by
    intro x l hx hm
    rcases List.mem_cons.mp hm with rfl | hm
    · rw [hx] at he
      contradiction
    · exact hm
  cases h with
  | note x hx => exact .inl (hcons (by cases x <;> first | rfl | contradiction) hm)
  | clock r => cases r <;> exact .inl hm
  | ack e s hk hs =>
    rw [World.setStore_log] at hm
    exact .inl hm
  | encode e field hp =>
    rcases List.mem_cons.mp hm with rfl | hm
    · exact .inr ⟨e, hp, .inl ⟨field, rfl⟩⟩
    · exact .inl hm
  | mark e hp hr =>
    have hm : ev ∈ .encoded e.kind e.value.packetId e.value.req :: w.log := by simpa [World.emit] using hm
    rcases List.mem_cons.mp hm with rfl | hm
    · refine .inr ⟨e, hp, .inr ⟨rfl, fun hn => ?_⟩⟩
      rw [hr] at hn
      contradiction
    · exact .inl hm
  | drop e hp hr =>
    rcases List.mem_cons.mp (hanswers hm) with rfl | hm
    · exact .inr ⟨e, hp, .inr ⟨rfl, fun _ => rfl⟩⟩
    · exact .inl hm
  | pop k id e s => exact .inl (hcons rfl (by simpa [World.emit, World.setRx] using hm))
  | pubrec e s t => exact .inl (hcons rfl (hcons rfl hm))
  | answer =>
    rw [decoded_answered_log, List.append_assoc] at hm
    exact .inl (hcons rfl (hanswers hm))
  | finalAnswer | shift => exact .inl (hanswers hm)
  | accept | pubrecLost | connack | finish | deliver | deliverOnce | connecting | connected | initial =>
    exact .inl (hcons rfl hm)
  | _ => exact .inl hm

theorem Effects.log {env : Env σ} {P : World σ → Prop} {w w' : World σ} (h : Effects env P w w') :
    ∃ evs, w'.log = evs ++ w.log := by
  induction h with
  | refl => exact ⟨[], rfl⟩
  | tail _ hv ih =>
    obtain ⟨evs, he⟩ := ih
    obtain ⟨evs', he'⟩ := effect_log hv
    exact ⟨evs' ++ evs, by rw [he', he, List.append_assoc]⟩

end LightMqtt
