import LightMqtt.IdRoom
import LightMqtt.Reentry

/-!
# The order of the packets of a connection

What a connection sends: one CONNECT, then, behind the CONNACK, packets of the
main store, and nothing after a DISCONNECT.
-/

namespace LightMqtt

open Exec History

variable {σ : Type} {env : Env σ}

/-! ### The order -/

/-- How far the output of a connection has come: there is no connection, the
CONNECT is sent, it was sent, the connection was accepted, a DISCONNECT was sent. -/
inductive Output
  | idle | opening | awaiting | accepted | done
  deriving DecidableEq, Repr

/-- What may come next. Other events may come at any time. -/
def Output.next : Output → Event → Option Output
  | _, .closed => some .idle
  | .idle, .connecting .. => some .opening
  | .opening, .encode kind .. => if kind = .connect then some .opening else none
  | .opening, .encoded kind .. => if kind = .connect then some .awaiting else none
  | .awaiting, .connected _ => some .accepted
  | .accepted, .encode kind .. => if kind = .connect then none else some .accepted
  | .accepted, .encoded kind .. =>
    if kind = .connect then none else some (if kind = .disconnect then .done else .accepted)
  | o, ev => if ev.isWire then none else some o

theorem Output.next_other (o : Output) {ev : Event} (h : ev.isWire = false) : o.next ev = some o := by
  cases ev <;> first | contradiction | (cases o <;> rfl)

/- The output behind the log, if it keeps the order. -/
def World.output (w : World σ) : Option Output := After Output.next .idle w.log

/-! ### The client and its output -/

/-- The state of the client that belongs to the output. -/
def Output.Agrees (w : World σ) : Output → Prop
  | .idle => w.closed = true ∧ w.tx.closed = true
  | .opening => w.closed = false ∧ w.ops.connect = false ∧ w.tx.store = .connect ∧ w.Reserved ∧ w.connectStore.pos = 0
  | .awaiting => w.closed = false ∧ w.ops.connect = false ∧ w.tx.store = .connect ∧
    (w.Reserved ∧ w.connectStore.pos = 1 ∨ w.connectStore.entries = [] ∧ w.HoldsConnect)
  | .accepted => w.ops.connect = false ∧ w.tx.store = .main
  | .done => w.ops.connect = false ∧ w.tx.store = .main ∧ w.tx.closed = true

/-- The output keeps the order, and agrees with the client. -/
def World.Ordered (w : World σ) : Prop := ∃ o, w.output = some o ∧ (w.error = none → o.Agrees w)

section Steps
variable {w w' : World σ} {o : Output}

theorem Unmoved.output (h : Unmoved w w') (ho : w.output = some o) : w'.output = some o := by
  obtain ⟨evs, hl, he⟩ := h.log
  unfold World.output
  rw [hl]
  exact after_append (fun ev hev => o.next_other (he ev hev)) ho

theorem Unmoved.agrees (h : Unmoved w w')
    (hk : w.HoldsConnect → w'.HoldsConnect ∧ w.connectStore.SameQueue w'.connectStore) (ho : o.Agrees w) : o.Agrees w' := by
  have hs := h.same
  have hclosed : w'.closed = w.closed := by rw [hs]
  have hops : w'.ops = w.ops := by rw [hs]
  have htx : w'.tx = w.tx := by rw [hs]
  cases o with
  | idle => exact ⟨hclosed.trans ho.1, (congrArg _ htx).trans ho.2⟩
  | opening =>
    obtain ⟨hc, hp, ht, hr, hz⟩ := ho
    have hq := h.reserved hr
    exact ⟨hclosed.trans hc, (congrArg _ hops).trans hp, (congrArg _ htx).trans ht, hr.same hq, hq.pos.trans hz⟩
  | awaiting =>
    obtain ⟨hc, hp, ht, hr⟩ := ho
    refine ⟨hclosed.trans hc, (congrArg _ hops).trans hp, (congrArg _ htx).trans ht, ?_⟩
    rcases hr with ⟨hr, hz⟩ | ⟨hz, hr⟩
    · have hq := h.reserved hr
      exact .inl ⟨hr.same hq, hq.pos.trans hz⟩
    · obtain ⟨hr', hq⟩ := hk hr
      exact .inr ⟨hq.entries.trans hz, hr'⟩
  | accepted => exact ⟨(congrArg _ hops).trans ho.1, (congrArg _ htx).trans ho.2⟩
  | done => exact ⟨(congrArg _ hops).trans ho.1, (congrArg _ htx).trans ho.2.1, (congrArg _ htx).trans ho.2.2⟩

theorem Unmoved.error (h : Unmoved w w') : w'.error = w.error := by
  rw [h.same]

theorem Unmoved.ordered (h : Unmoved w w')
    (hk : w.HoldsConnect → w'.HoldsConnect ∧ w.connectStore.SameQueue w'.connectStore) (hw : w.Ordered) : w'.Ordered := by
  obtain ⟨o, ho, ha⟩ := hw
  refine ⟨o, h.output ho, fun he => ?_⟩
  rw [h.error] at he
  exact h.agrees hk (ha he)

/- Where the connect store holds a CONNECT, the decoder holds none. -/
theorem Reserved.not_holds (hw : Sound w) (hr : w.Reserved) : w.rx.internal.value.callback ≠ some .onConnack := by
  intro hv
  obtain ⟨e, he, hk, -⟩ := hr
  have hsingle := hw.phase.single
  rw [Store.connects, he, RxInternal.connects, if_pos hv] at hsingle
  simp [hk] at hsingle

/- The CONNECT is taken out of the connect store. -/
theorem connack_ordered {t : World σ} {e : Entry} {s : Store} (hu : Unmoved w t)
    (hh : ¬ w.HoldsConnect) (hs : t.rxStore.popMarkedBy .connect 0 = some (e, s)) (ho : w.Ordered)
    (ht : Typed t) : (t.popped 0 e s).Ordered := by
  obtain ⟨o, hout, ha⟩ := ho
  have hout' := hu.output hout
  refine ⟨o, after_cons ((congrArg (After Output.next .idle) (World.setStore_log _ _ _)).trans hout')
    (o.next_other rfl), fun he => ?_⟩
  have hwe : w.error = none := by
    rw [← hu.error]
    simpa [World.popped, World.emit, World.setRx] using he
  have ha := hu.agrees (fun h => absurd h hh) (ha hwe)
  obtain ⟨hke, hwt, -⟩ := ht.popped hs
  obtain ⟨pre, post, hrem, hpos, -⟩ := Store.popMarkedBy_spec _ _ _ _ _ hs
  have hstore : t.tx.store = .connect → t.rxStore = t.connectStore := by
    intro hc
    rw [World.rxStore, ht.rxStore, ← ht.txStore, hc]
    rfl
  cases o with
  | idle => simpa [Output.Agrees, World.popped, World.emit, World.setRx] using ha
  | opening =>
    obtain ⟨-, -, hc, -, hz⟩ := ha
    rw [hstore hc, hz] at hpos
    contradiction
  | awaiting =>
    obtain ⟨hcl, hop, hc, hr⟩ := ha
    have hrs : t.rx.store = .connect := by rw [ht.rxStore, ← ht.txStore, hc]
    refine ⟨?_, ?_, ?_, .inr ⟨?_, ?_, ?_⟩⟩
    · simpa [World.popped, World.emit, World.setRx] using hcl
    · simpa [World.popped, World.emit, World.setRx] using hop
    · simpa [World.popped, World.emit, World.setRx] using hc
    · -- nothing is left behind the CONNECT
      have hlen : t.rxStore.entries.length ≤ 1 := by
        rw [hstore hc]
        rcases hr with ⟨⟨x, hx, -⟩, -⟩ | ⟨hz, -⟩
        · rw [hx]
          exact le_rfl
        · rw [hz]
          exact Nat.zero_le _
      have hnil : s.entries.length = 0 := by
        rw [hrem.before] at hlen
        rw [hrem.after]
        simp only [List.length_append, List.length_cons] at hlen ⊢
        omega
      simpa [World.popped, World.emit, World.setRx, World.setStore, hrs] using List.length_eq_zero_iff.mp hnil
    · change e.value.callback = _
      rw [hwt.callback, hke]
      rfl
    · simpa [World.popped, World.emit, World.setRx] using hcl
  | accepted => simpa [Output.Agrees, World.popped, World.emit, World.setRx] using ha
  | done => simpa [Output.Agrees, World.popped, World.emit, World.setRx] using ha

/- The connection is accepted. -/
theorem opened_accepts (hw : Sound w) (hcalls : w.rx.internal.calls = 0) (hwe : w.error = none)
    (hv : w.rx.internal.value.callback = some .onConnack) (h : OpenedIn w w') (ho : w.Ordered) :
    w'.output = some .accepted ∧ Output.accepted.Agrees w' := by
  obtain ⟨o, hout, ha⟩ := ho
  have ha := ha hwe
  obtain ⟨t, u, ht, hu, hend⟩ := h
  have hs := ht.same
  have hclosed : w.closed = false := by
    have hcl := hu.alive
    rw [hs] at hcl
    exact hcl
  have hcs : w.tx.store = .connect := by
    rw [hw.txStore]
    exact hw.phase.awaited (by rw [RxInternal.connects, if_pos hv]) hcalls hclosed
  cases o with
  | idle =>
    rw [ha.1] at hclosed
    contradiction
  | opening => exact absurd hv (Reserved.not_holds hw ha.2.2.2.1)
  | awaiting =>
    have hus := hu.same
    obtain ⟨b, evs, hl, he⟩ := hu.log
    have hto : t.output = some .awaiting := ht.unmoved.output hout
    have huo : u.output = some .accepted := by
      unfold World.output
      rw [hl]
      exact after_append (fun ev hev => Output.next_other _ (Event.not_isWire_of_inner (he ev hev))) (after_cons hto rfl)
    refine ⟨hend.unmoved.output huo, ?_, ?_⟩
    · rw [hend.same, hus, hs]
      exact ha.2.1
    · rw [hend.same, hus]
  | accepted =>
    rw [ha.2] at hcs
    contradiction
  | done =>
    rw [ha.2.1] at hcs
    contradiction

/- What the encoder may stand at. -/
theorem peek_allowed {e : Entry} (hw : Sound w) (hc : w.tx.closed = false) (hp : w.txStore.peek = some e)
    (ha : o.Agrees w) : o = .opening ∧ e.kind = .connect ∨ o = .accepted ∧ e.kind ≠ .connect := by
  have hmem := List.mem_of_getElem? hp
  cases o with
  | idle =>
    rw [ha.2] at hc
    contradiction
  | opening =>
    obtain ⟨-, -, ht, ⟨x, hx, hk, -⟩, -⟩ := ha
    rw [World.txStore, ht] at hmem
    change e ∈ w.connectStore.entries at hmem
    rw [hx, List.mem_singleton] at hmem
    rw [hmem]
    exact .inl ⟨rfl, hk⟩
  | awaiting =>
    exfalso
    obtain ⟨-, -, ht, hr⟩ := ha
    rw [World.txStore, ht] at hp
    change w.connectStore.entries[w.connectStore.pos]? = some e at hp
    rcases hr with ⟨⟨x, hx, -⟩, hz⟩ | ⟨hz, -⟩
    · rw [hx, hz] at hp
      contradiction
    · rw [hz] at hp
      contradiction
  | accepted =>
    rw [World.txStore, ha.2] at hmem
    exact .inr ⟨rfl, (hw.entries .main e hmem).2⟩
  | done =>
    rw [ha.2.2] at hc
    contradiction

theorem fieldSent_ordered {e : Entry} (hw : Sound w) (hwe : w.error = none) (hc : w.tx.closed = false)
    (hp : w.txStore.peek = some e) (h : FieldSent w e w') (ho : w.Ordered) : w'.Ordered := by
  obtain ⟨o, hout, ha⟩ := ho
  have ha := ha hwe
  have hs := h.same
  refine ⟨o, ?_, fun _ => ?_⟩
  · unfold World.output
    rw [hs]
    refine after_cons hout ?_
    rcases peek_allowed hw hc hp ha with ⟨rfl, hk⟩ | ⟨rfl, hk⟩
    · exact if_pos hk
    · exact if_neg hk
  · cases o <;> rw [hs] <;> exact ha

theorem entrySent_ordered {e : Entry} (hw : Sound w) (hwe : w.error = none) (hc : w.tx.closed = false)
    (hp : w.txStore.peek = some e) (h : EntrySent w e w') (ho : w.Ordered) : w'.Ordered := by
  obtain ⟨o, hout, ha⟩ := ho
  have ha := ha hwe
  obtain ⟨u, hu, hw'⟩ := h
  have hlog : (w.departed e).output = o.next (.encoded e.kind e.value.packetId e.value.req) := by
    unfold World.output
    rw [show (w.departed e).log = _ from World.setStore_log _ _ _, show (w.emit _).log = _ :: w.log from rfl, After]
    change Option.bind w.output _ = _
    rw [hout, Option.bind_some]
  have hout' : w'.output = u.output := by
    rw [hw']
    rfl
  obtain ⟨rest, hpend⟩ := Store.pending_of_peek hp
  have hdt : (w.departed e).tx = w.tx := World.setStore_tx _ _ _
  have hdo : (w.departed e).ops = w.ops := World.setStore_ops _ _ _
  have hkeep : (w.departed e).HoldsConnect → u.HoldsConnect ∧ (w.departed e).connectStore.SameQueue u.connectStore := by
    rintro ⟨hv, hcl⟩
    refine ⟨⟨?_, ?_⟩, hu.connects⟩
    · rw [hu.value, hv]
    · rw [hu.same]
      exact hcl
  have hmoved := hu.toStill.unmoved
  rcases peek_allowed hw hc hp ha with ⟨rfl, hk⟩ | ⟨rfl, hk⟩
  · -- the CONNECT waits for its CONNACK
    obtain ⟨hcl, hop, ht, ⟨x, hx, hkx, hcap⟩, hz⟩ := ha
    have hstore : w.txStore = w.connectStore := by
      rw [World.txStore, ht]
      rfl
    rw [hstore] at hpend
    obtain ⟨hme, hmc, -, hms, -⟩ := Store.markCurrent_spec _ _ _ hpend
    have hdc : (w.departed e).connectStore = w.connectStore.markCurrent := by
      rw [World.departed, Store.depart, if_pos (by rw [hk]; rfl), ht, hstore]
      rfl
    have hpos : w.connectStore.markCurrent.pos = 1 := by
      have hlen := congrArg List.length hms
      rwa [List.length_append, Store.sent_length, Store.sent_length, hz] at hlen
    have hd : Output.awaiting.Agrees (w.departed e) := by
      refine ⟨?_, (congrArg _ hdo).trans hop, (congrArg _ hdt).trans ht, .inl ⟨⟨x, ?_, hkx, ?_⟩, ?_⟩⟩
      · exact (World.setStore_closed _ _ _).trans hcl
      · rw [hdc, hme, hx]
      · rw [hdc, hmc]
        exact hcap
      · rw [hdc, hpos]
    rw [hk] at hlog
    refine ⟨.awaiting, hout'.trans (hmoved.output hlog), fun _ => ?_⟩
    rw [hw']
    exact hmoved.agrees hkeep hd
  · have hop : w'.ops.connect = false := by
      rw [hw']
      change u.ops.connect = false
      rw [hu.same, hdo]
      exact ha.1
    have hts : w'.tx.store = .main := by
      rw [hw']
      change u.tx.store = .main
      rw [hu.same, hdt]
      exact ha.2
    by_cases hd : e.kind = .disconnect
    · rw [hd] at hlog
      refine ⟨.done, hout'.trans (hmoved.output hlog), fun _ => ⟨hop, hts, ?_⟩⟩
      rw [hw', hd]
      rfl
    · have hnext : Output.next .accepted (.encoded e.kind e.value.packetId e.value.req) = some .accepted := by
        rw [Output.next, if_neg hk, if_neg hd]
      rw [hnext] at hlog
      exact ⟨.accepted, hout'.trans (hmoved.output hlog), fun _ => ⟨hop, hts⟩⟩

theorem connecting_ordered {p : Ptr} {s : Store} (hw : Sound w) (hcap : w.connectStore.capacity = 1)
    (hc : w.ops.connect = true) (hs : w.connectStore.append
      ⟨.connect, { value := p, callback := some .onConnack, req := some w.nextReq }⟩ = some s) (ho : w.Ordered) :
    World.Ordered { w with
      connectStore := s
      nextReq := w.nextReq + 1
      log := .connecting w.nextReq p :: w.log
      error := none
      osError := 0
      closed := false
      rx := { w.rx with internal := {} }
      tx := { w.tx with closed := false, internal := {} }
      readBuf := []
      writeBuf := []
      ops := { w.ops with connect := false } } := by
  obtain ⟨o, hout, ha⟩ := ho
  have ha := ha (hw.connectable hc).1
  have happ := Store.append_spec _ _ _ hs
  have hroom := happ.room
  have hnil : w.connectStore.entries = [] := by
    apply List.length_eq_zero_iff.mp
    rw [Store.count, hcap] at hroom
    omega
  have hnone : ∀ {q : Prop}, w.ops.connect = false → q := fun h => by
    rw [hc] at h
    contradiction
  cases o with
  | idle =>
    have htaken : ∃ e, s.entries = [e] ∧ e.kind = .connect ∧ s.capacity ≤ 1 := by
      refine ⟨_, happ.entries.trans (by rw [hnil, List.nil_append]), rfl, ?_⟩
      exact (happ.capacity.trans hcap).le
    have hpos : s.pos = 0 := by
      have hle := w.connectStore.pos_le
      rw [hnil] at hle
      exact happ.pos.trans (Nat.le_zero.mp hle)
    have hstore : w.tx.store = .connect := hw.txStore.trans (hw.phase.idle hc).1
    exact ⟨.opening, after_cons hout rfl, fun _ => ⟨rfl, rfl, hstore, htaken, hpos⟩⟩
  | opening => exact hnone ha.2.1
  | awaiting => exact hnone ha.2.1
  | accepted => exact hnone ha.1
  | done => exact hnone ha.1

theorem reverted_ordered (h : Reverted w w') (hout : w.output = some o) : w'.Ordered := by
  obtain ⟨evs, hl, he⟩ := h.log
  refine ⟨.idle, ?_, fun _ => ?_⟩
  · unfold World.output
    rw [hl]
    refine after_append (fun ev hev => Output.next_other _ (Event.not_isWire_of_inner (he ev hev))) (after_cons hout ?_)
    cases o <;> rfl
  · rw [h.same]
    exact ⟨rfl, rfl⟩

/- A client that failed sends nothing. -/
theorem failed_ordered (he : w'.error ≠ none) (hl : Logged (fun ev => ev.isWire = false) w w') (ho : w.Ordered) :
    w'.Ordered := by
  obtain ⟨o, hout, -⟩ := ho
  obtain ⟨evs, hl, hn⟩ := hl
  refine ⟨o, ?_, fun h => absurd h he⟩
  unfold World.output
  rw [hl]
  exact after_append (fun ev hev => o.next_other (hn ev hev)) hout

end Steps

/-! ### Runs -/

theorem setStore_connectCapacity (w : World σ) (r : StoreRef) (s : Store) (hs : s.capacity = (w.store r).capacity) :
    (w.setStore r s).connectStore.capacity = w.connectStore.capacity := by
  cases r with
  | main => rfl
  | connect => exact hs

/- The connect store keeps its one place. -/
theorem effect_connectCapacity {P : World σ → Prop} {w w' : World σ} (h : Effect env P w w') :
    w'.connectStore.capacity = w.connectStore.capacity := by
  have hpop : ∀ {k id e s}, w.rxStore.popMarkedBy k id = some (e, s) → s.capacity = w.rxStore.capacity := by
    intro k id e s hs
    obtain ⟨pre, post, hrem, -⟩ := Store.popMarkedBy_spec _ _ _ _ _ hs
    exact hrem.capacity
  cases h with
  | clock r => exact setStore_connectCapacity w r _ rfl
  | mark e hp hr =>
    obtain ⟨rest, hpend⟩ := Store.pending_of_peek hp
    exact setStore_connectCapacity w _ _ (Store.markCurrent_spec _ _ _ hpend).2.1
  | drop e hp hr =>
    obtain ⟨rest, hpend⟩ := Store.pending_of_peek hp
    exact setStore_connectCapacity w _ _ (Store.dropCurrent_spec _ _ _ hpend).capacity
  | pop k id e s hk hv hi hc hs => exact setStore_connectCapacity w _ _ (hpop hs)
  | pubrec e s t hk hv hy hs ht =>
    exact setStore_connectCapacity w _ _ ((Store.append_spec _ _ _ ht).capacity.trans (hpop hs))
  | ack e s he hs => exact setStore_connectCapacity w _ _ (Store.append_spec _ _ _ hs).capacity
  | connecting p s ho hp hs => exact (Store.append_spec _ _ _ hs).capacity
  | shift r e s hr hf hs =>
    obtain ⟨post, hrem⟩ := Store.shift_spec _ _ _ hs
    exact setStore_connectCapacity w _ _ hrem.capacity
  | _ => rfl

theorem stepped_connectCapacity {C : World σ → Step σ → Prop} {w : World σ} (h : Stepped env C w) :
    w.connectStore.capacity = 1 := by
  obtain ⟨-, buffers, heap, app, he⟩ := stepped_effects w h
  refine he.invariant (I := fun v => v.connectStore.capacity = 1) (fun v v' _ hv hc => ?_) (fun _ _ _ hc => hc)
    (clientCleared_sound buffers heap app) rfl
  exact (effect_connectCapacity hv).trans hc

theorem Does.ordered {w w' : World σ} {s : Step σ} (hw : Live w) (hcap : w.connectStore.capacity = 1)
    (hs : s.Enabled (fun _ => True) w) (h : Does env w s w') (ho : w.Ordered) : w'.Ordered := by
  have hsound := hw.sound
  cases h with
  | still h hr =>
    refine h.toStill.unmoved.ordered (fun hh => ⟨⟨?_, ?_⟩, h.connects⟩) ho
    · rw [h.value]
      exact hh.1
    · rw [h.same]
      exact hh.2
  | deed h =>
    obtain ⟨hwe, he, -⟩ := hs
    have hdec := hw.decoding hwe
    have hnone : ∀ {d}, w.rx.internal.decoder = some d → d.kind ≠ some .connect → ∀ {q : Prop}, w.HoldsConnect → q :=
      fun hd hk _ hh => absurd hh (not_holdsConnect hsound hd hk)
    cases h with
    | still hn hk h => exact h.unmoved.ordered hk ho
    | publish t res hc ht h => exact (ht.unmoved.trans h.unmoved).ordered (hnone hc.decoder (by decide)) ho
    | pubrel t hp hi ht h he =>
      exact ((ht.unmoved.trans (.setIds t _)).trans h.unmoved).ordered (hnone hp.decoder (by decide)) ho
    | connack t e s hf ht hsound' hs h =>
      rw [h]
      refine connack_ordered ht.unmoved (fun hh => ?_) hs ho hsound'.toTyped
      have hv := hh.1
      rw [hdec.shape.fresh hf] at hv
      contradiction
    | opened hf hd hp hb hv h =>
      obtain ⟨hacc, ha⟩ := opened_accepts hsound (hdec.shape.calls he) hwe hv h ho
      exact ⟨.accepted, hacc, fun _ => ha⟩
  | field e hc hp h => exact fieldSent_ordered hsound hs hc hp h ho
  | entry e hc hp h => exact entrySent_ordered hsound hs hc hp h ho
  | connecting p s hc happ => exact connecting_ordered hsound hcap hc happ ho
  | reverted ha h =>
    obtain ⟨o, hout, -⟩ := ho
    exact reverted_ordered h hout
  | failed e os => exact failed_ordered (w := w) (by simp) (.of_log rfl) ho
  | finalized h =>
    refine failed_ordered ?_ (h.log.mono fun ev he => Event.not_isWire_of_inner he) ho
    rw [h.same]
    simp

theorem stepped_ordered {C : World σ → Step σ → Prop} {w : World σ} (h : Stepped env C w) : w.Ordered := by
  induction h with
  | start buffers heap app w h =>
    exact reverted_ordered (start_reverted h) rfl
  | step w w' s hw hc hs h ih =>
    exact (wp_ok (step_does w s hw.live hs) h).ordered hw.live (stepped_connectCapacity hw) hs ih

/-! ### What is sent, and from where -/

/- The event is about the entry `e`, which is encoded. -/
def Event.isOf (e : Entry) : Event → Prop
  | .encode kind id req _ | .encoded kind id req => kind = e.kind ∧ id = e.value.packetId ∧ req = e.value.req
  | _ => False

/- The first byte that is not read yet is the return code 0 of a CONNACK. -/
structure World.Accepts (w : World σ) (bs : List Byte) : Prop where
  headerFinished : w.rx.internal.headerFinished = true
  decoder : w.rx.internal.decoder = some rxBufferDecoderConnack
  pos : w.rx.internal.remainBufPos = 1
  code : bs.headD 0 = 0

/-- Where the events of the connection and of the encoder come from. -/
inductive Cause (w : World σ) : Step σ → Event → Prop
  | other (s ev) (h : ev.isWire = false) : Cause w s ev
  | connecting (s r p) : Cause w s (.connecting r p)
  | closed (s) : Cause w s .closed
  | connected (bs b) (h : w.Accepts bs) : Cause w (.read bs) (.connected b)
  | sent (bufLen ev e) (hc : w.tx.closed = false) (hp : w.txStore.peek = some e) (he : ev.isOf e) :
    Cause w (.send bufLen) ev

theorem Does.causes {w w' : World σ} {s : Step σ} (h : Does env w s w') : Logged (Cause w s) w w' := by
  have hinner : ∀ ev : Event, ev.isInner = true → Cause w s ev := fun ev he => .other s ev (Event.not_isWire_of_inner he)
  cases h with
  | still h hr => exact h.log.mono hinner
  | deed h =>
    cases h with
    | still hn hk h => exact h.log.mono hinner
    | publish t res hc ht h => exact (ht.unmoved.trans h.unmoved).log.mono fun ev he => .other _ ev he
    | pubrel t hp hi ht h he =>
      exact ((ht.unmoved.trans (.setIds t _)).trans h.unmoved).log.mono fun ev he => .other _ ev he
    | connack t e s hf ht hw hs h =>
      have hlog : w'.log = .popped e.kind 0 e.value.req :: t.log := by
        rw [h]
        exact congrArg (_ :: ·) (World.setStore_log _ _ _)
      exact (ht.log.mono hinner).trans (.one hlog (.other _ _ rfl))
    | opened hf hd hp hb hv h =>
      obtain ⟨t, u, ht, hu, hend⟩ := h
      obtain ⟨b, evs, hl, he⟩ := hu.log
      refine (ht.log.mono hinner).trans (.trans ?_ (hend.log.mono hinner))
      refine ⟨evs ++ [.connected b], by rw [hl, List.append_assoc]; rfl, fun ev hev => ?_⟩
      rcases List.mem_append.mp hev with hev | hev
      · exact hinner ev (he ev hev)
      · rw [List.mem_singleton] at hev
        rw [hev]
        exact .connected _ b ⟨hf, hd, hp, hb⟩
  | field e hc hp h => exact .one (by rw [h.same]) (.sent _ (.encode _ _ _ _) e hc hp ⟨rfl, rfl, rfl⟩)
  | @entry bufLen w' e hc hp h =>
    obtain ⟨u, hu, hw'⟩ := h
    have hsent : Logged (Cause w (.send bufLen)) w (w.departed e) := .one (World.setStore_log _ _ _)
      (.sent _ (.encoded _ _ _) e hc hp ⟨rfl, rfl, rfl⟩)
    refine (hsent.trans (hu.log.mono hinner)).trans (.of_log ?_)
    rw [hw']
  | connecting p s ho hs => exact .one rfl (.connecting _ _ _)
  | reverted ha h =>
    obtain ⟨evs, hl, he⟩ := h.log
    refine ⟨evs ++ [.closed], by rw [hl, List.append_assoc]; rfl, fun ev hev => ?_⟩
    rcases List.mem_append.mp hev with hev | hev
    · exact hinner ev (he ev hev)
    · rw [List.mem_singleton] at hev
      rw [hev]
      exact .closed _
  | failed e os => exact .of_log rfl
  | finalized h => exact h.log.mono hinner

/-- The event is of the CONNECT, before the connection waits for its CONNACK, or of
the first pending packet of the main store of an accepted connection. -/
def World.Sends (w : World σ) (ev : Event) : Prop :=
  ∃ e, ev.isOf e ∧ (w.output = some .opening ∧ w.connectStore.peek = some e ∧ e.kind = .connect ∨
    w.output = some .accepted ∧ w.mainStore.peek = some e ∧ e.kind ≠ .connect)

/-- Every run in which no callback connects, resets or finalizes the client keeps the
order: the log is that of one CONNECT, then of packets of the main store, up to a
DISCONNECT; a connection counts as accepted only behind the return code 0 of a CONNACK. -/
theorem packets_in_order {ρ : Type} [Reentrant ρ] {env : EnvOf σ ρ} (henv : env.OnlyRequests) (w : World σ)
    (h : Stepped env (fun _ _ => True) w) : (∃ o, w.output = some o) ∧
    ∀ (s : Step σ) (w' : World σ), s.Enabled (fun _ => True) w → s.run env w = .ok () w' → ∃ evs, w'.log = evs ++ w.log ∧
      (∀ b, .connected b ∈ evs → ∃ bs, s = .read bs ∧ w.Accepts bs) ∧
      ∀ ev ∈ evs, (∃ e, ev.isOf e) → w.Sends ev := by
  have h := h.requests henv
  obtain ⟨o, ho, ha⟩ := stepped_ordered h
  refine ⟨⟨o, ho⟩, fun s w' hs hrun => ?_⟩
  rw [stepRun_requests henv] at hrun
  obtain ⟨evs, hl, hc⟩ := (wp_ok (step_does w s h.live hs) hrun).causes
  refine ⟨evs, hl, fun b hb => ?_, fun ev hev hsent => ?_⟩
  · cases hc _ hb with
    | other _ _ hn => contradiction
    | connected bs _ hacc => exact ⟨bs, rfl, hacc⟩
    | sent _ _ e _ _ he => exact he.elim
  · obtain ⟨x, hx⟩ := hsent
    cases hc ev hev with
    | other _ _ hn => cases ev <;> contradiction
    | connecting | closed | connected => exact hx.elim
    | sent bufLen _ e htx hp he =>
      refine ⟨e, he, ?_⟩
      have hagree := ha hs
      rcases peek_allowed h.live.sound htx hp hagree with ⟨rfl, hk⟩ | ⟨rfl, hk⟩
      · obtain ⟨-, -, ht, -⟩ := hagree
        rw [World.txStore, ht] at hp
        exact .inl ⟨ho, hp, hk⟩
      · rw [World.txStore, hagree.2] at hp
        exact .inr ⟨ho, hp, hk⟩

theorem connectRun_isSome : (runClient memoryEnv anyConnect ⟨8, 64, 64, 4⟩ smallHeap () [.connect 0]).isSome = true := by
  decide +kernel

theorem packets_in_order_connect : ∃ w : World Unit, w.output = some .opening ∧
    w.Sends (.encode .connect 0 (some 0) 0) := by
  obtain ⟨w, hw, ho, hs, hturn⟩ : ∃ w : World Unit, Reached memoryEnv (fun _ => True) w ∧
      w.output = some .opening ∧ (Step.send 64).ready w = true ∧
      Wp ((Step.send 64).run memoryEnv) w (fun _ w' => w'.log = [.encode .connect 0 (some 0) 0] ++ w.log)
        fun _ _ => False :=
    ⟨_, reached_get anyConnect_true _ _ _ _ connectRun_isSome, by decide +kernel⟩
  obtain ⟨_, w', hrun, hlog⟩ := wp_exists hturn
  obtain ⟨evs, hl, -, hsent⟩ :=
      (packets_in_order memoryEnv.onlyRequests w (reached_stepped w hw)).2 _ w' (Step.ready_enabled w _ hs) hrun
  rw [List.append_cancel_right (hl.symm.trans hlog)] at hsent
  refine ⟨w, ho, hsent _ (List.mem_singleton_self _) ⟨⟨.connect, { req := some 0 }⟩, rfl, rfl, rfl⟩⟩

/-! ### A callback that connects again -/

def reconnectEnv : EnvOf Unit Reentry := { memoryEnvOf Reentry with
  onConnect := some fun a p ok => ⟨a, true, if ok then [] else [.reset, .connect p]⟩ }

/- A message waits in the main store; the next connection ends before its CONNACK, and its callback connects again.
   So does the application. -/
def reconnectActs : List (Act Unit) :=
  connectKept ++ [.request (.publish 0), .eof, .connect 0, .eof, .connect 0, .encode 64]

theorem reconnectRun_isSome : (runClient reconnectEnv anyConnect ⟨8, 64, 64, 4⟩ smallHeap () reconnectActs).isSome = true := by
  decide +kernel

/-- The message is sent on a connection without a CONNECT. -/
theorem publish_without_connect : ∃ w : World Unit, Reached reconnectEnv (fun _ => True) w ∧ w.output = none ∧
    w.log.take 6 = [.encoded .publish2 0 (some 1), .encode .publish2 0 (some 1) 3, .encode .publish2 0 (some 1) 2,
      .encode .publish2 0 (some 1) 1, .encode .publish2 0 (some 1) 0, .connecting 4 0] :=
  ⟨_, reached_get anyConnect_true _ _ _ _ reconnectRun_isSome, by decide +kernel⟩

end LightMqtt
