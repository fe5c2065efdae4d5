import LightMqtt.Owed

/-!
# What holds of a client at all times

Entries and the request of the decoder are typed, the pointers to the current
store agree, and requests are accounted for: every effect keeps that.
-/

namespace LightMqtt

variable {σ : Type}

/-! ### Entries -/

/- The entries a store may hold: requests and acknowledgements go to the main
   store; an acknowledgement made before the CONNACK goes to the other one. -/
def StoreRef.Fits : StoreRef → Entry → Prop
  | .main, e => e.WellTyped ∧ e.kind ≠ .connect
  | .connect, e => e.WellTyped ∧ (e.kind = .connect ∨ e.IsAck)

/-! ### Sound states -/

/-- Entries are well typed, the three pointers to the current store agree, and a
client that is not closed has no error. -/
structure Typed (w : World σ) : Prop where
  entries : ∀ r, ∀ e ∈ (w.store r).entries, r.Fits e
  held : w.rx.internal.value = {} ∨
    ∃ k, w.rx.internal.kind = some k ∧ (⟨k, w.rx.internal.value⟩ : Entry).WellTyped
  rxStore : w.rx.store = w.currentStore
  txStore : w.tx.store = w.currentStore
  connectable : w.ops.connect = true → w.error = none ∧ w.closed = true ∧ w.ops.publish = false
  alive : w.closed = false → w.error = none

/- How many CONNECTs a store holds, and the decoder. -/
def Store.connects (s : Store) : ℕ := s.entries.countP fun e => e.kind = .connect
def RxInternal.connects (i : RxInternal) : ℕ := if i.value.callback = some .onConnack then 1 else 0

/-- What the states of the client are like: requests are possible in all kinds or
in none, and not before the CONNACK; there is at most one CONNECT, which is
answered before the client is open. -/
structure Phase (w : World σ) : Prop where
  ops : w.ops.subscribe = w.ops.publish ∧ w.ops.unsubscribe = w.ops.publish ∧ w.ops.pingreq = w.ops.publish
  idle : w.ops.connect = true → w.currentStore = .connect ∧ w.connectStore.connects = 0
  offline : w.closed = false → w.currentStore = .connect → w.ops.publish = false
  awaited : w.rx.internal.connects = 1 → w.rx.internal.calls = 0 → w.closed = false → w.currentStore = .connect
  single : w.connectStore.connects + w.rx.internal.connects ≤ 1

/-- Besides, every request is in one place, and answered when it leaves it. -/
structure Sound (w : World σ) : Prop extends Typed w where
  phase : Phase w
  owed : ∀ r, Owed w r
  calledOnce : w.CalledOnce

theorem Entry.IsAck.wellTyped {e : Entry} (h : e.IsAck) : e.WellTyped := by
  obtain ⟨hk, hv⟩ := h
  constructor
  · rw [hv]
    rcases hk with hk | hk | hk <;> rw [hk] <;> rfl
  · rw [hv]
    rcases hk with hk | hk | hk <;> rw [hk] <;> rfl

theorem Entry.IsAck.fits {e : Entry} (h : e.IsAck) (r : StoreRef) : r.Fits e := by
  cases r with
  | main =>
    refine ⟨h.wellTyped, ?_⟩
    rcases h.1 with hk | hk | hk <;> rw [hk] <;> simp
  | connect => exact ⟨h.wellTyped, .inr h⟩

section Typed
variable {w : World σ} {r : StoreRef} {s t : Store} {e : Entry} {pre post : List Entry}

/- A store is replaced by one with fitting entries. -/
theorem Typed.setStore (hw : Typed w) (hs : ∀ x ∈ s.entries, r.Fits x) : Typed (w.setStore r s) := by
  obtain ⟨he, hh, hr, ht, ho, ha⟩ := hw
  refine ⟨?_, by simpa using hh, by simpa using hr, by simpa using ht, by simpa using ho,
    by simpa using ha⟩
  intro r'
  rw [World.store_setStore]
  split
  · rename_i heq
    rw [heq]
    exact hs
  · exact he r'

theorem Typed.append (hw : Typed w) (hs : (w.store r).append e = some s) (he : r.Fits e) :
    ∀ x ∈ s.entries, r.Fits x := by
  intro x hx
  rw [(Store.append_spec _ _ _ hs).entries, List.mem_append, List.mem_singleton] at hx
  rcases hx with hx | rfl
  · exact hw.entries r x hx
  · exact he

theorem Typed.removed (hw : Typed w) (hs : Store.Removed (w.store r) pre e post s) :
    ∀ x ∈ s.entries, r.Fits x :=
  fun x hx => hw.entries r x (hs.subset hx)

end Typed

/- What the decoder pops is typed as the kind it was popped for. -/
theorem Typed.popped {w : World σ} {k : Kind} {id : PacketId} {e : Entry} {s : Store} (hw : Typed w)
    (hs : w.rxStore.popMarkedBy k id = some (e, s)) :
    e.kind = k ∧ e.WellTyped ∧ w.rx.store.Fits e ∧ ∀ x ∈ s.entries, w.rx.store.Fits x := by
  obtain ⟨pre, post, hr, -, hk, -⟩ := Store.popMarkedBy_spec _ _ _ _ _ hs
  have hf := hw.entries w.rx.store e hr.mem
  refine ⟨hk, ?_, hf, hw.removed hr⟩
  cases hw' : w.rx.store <;> rw [hw'] at hf <;> exact hf.1

theorem typed_effect {env : Env σ} {P : World σ → Prop} {w w' : World σ} (h : Effect env P w w')
    (hw : Typed w) : Typed w' := by
  cases h with
  | app | heap | tx | txClosed | note | encode | finalAnswer | connack | remember | deliver
  | deliverOnce | release | clearIds => exact ⟨hw.entries, hw.held, hw.rxStore, hw.txStore, hw.connectable, hw.alive⟩
  | nextId =>
    have h := hw.setStore (r := .main) (s := w.mainStore.getId.2) (hw.entries .main)
    exact ⟨h.entries, h.held, h.rxStore, h.txStore, h.connectable, h.alive⟩
  | timeout n =>
    exact (hw.setStore (r := .main) (s := { w.mainStore with timeout := n }) (hw.entries .main)).setStore
      (r := .connect) (s := { w.connectStore with timeout := n }) (hw.entries .connect)
  | clock r => exact hw.setStore (hw.entries r)
  | answer => exact ⟨hw.entries, hw.held, hw.rxStore, hw.txStore, hw.connectable, hw.alive⟩
  | rx i hv =>
    refine ⟨hw.entries, ?_, hw.rxStore, hw.txStore, hw.connectable, hw.alive⟩
    obtain ⟨hv, he | hd, -⟩ := hv
    · exact .inl he
    · change i.value = {} ∨ ∃ k, i.kind = some k ∧ (⟨k, i.value⟩ : Entry).WellTyped
      rw [hv, RxInternal.kind, hd]
      exact hw.held
  | accept kind id p s hk ho hs =>
    have ht : StoreRef.main.Fits ⟨kind, ⟨id, p, kind.callback, some w.nextReq⟩⟩ := by
      refine ⟨⟨rfl, ?_⟩, ?_⟩ <;> cases kind <;> simp_all [Kind.isApi, Kind.isRequest]
    have h := hw.setStore (r := .main) (hw.append (r := .main) hs ht)
    exact ⟨h.entries, h.held, h.rxStore, h.txStore, h.connectable, h.alive⟩
  | enqueue kind s hk hs =>
    have ht : StoreRef.main.Fits ⟨kind, { callback := kind.callback }⟩ := by
      refine ⟨⟨rfl, ?_⟩, ?_⟩ <;> rcases hk with rfl | rfl <;> simp [Kind.isRequest]
    exact hw.setStore (r := .main) (hw.append (r := .main) hs ht)
  | mark e hp hr =>
    obtain ⟨rest, hpend⟩ := Store.pending_of_peek hp
    have hm := Store.markCurrent_spec _ _ _ hpend
    have h := hw.setStore (r := w.tx.store) (s := w.txStore.markCurrent) (by
      rw [hm.1]
      exact hw.entries w.tx.store)
    exact ⟨h.entries, h.held, h.rxStore, h.txStore, h.connectable, h.alive⟩
  | drop e hp hr =>
    obtain ⟨rest, hpend⟩ := Store.pending_of_peek hp
    have h := hw.setStore (hw.removed (Store.dropCurrent_spec _ _ _ hpend))
    exact ⟨h.entries, h.held, h.rxStore, h.txStore, h.connectable, h.alive⟩
  | pop k id e s hk hv hi hc hs =>
    obtain ⟨rfl, ht, -, hfits⟩ := hw.popped hs
    have h := hw.setStore hfits
    exact ⟨h.entries, .inr ⟨e.kind, hk, ht⟩, h.rxStore, h.txStore, h.connectable, h.alive⟩
  | pubrec e s t hk hv hy hs ht =>
    obtain ⟨hke, hte, hfe, hfits⟩ := hw.popped hs
    have hfit : w.rx.store.Fits ⟨.pubrel, e.value⟩ := by
      have hty : (⟨.pubrel, e.value⟩ : Entry).WellTyped := by
        obtain ⟨h1, h2⟩ := hte
        rw [hke] at h1 h2
        exact ⟨h1, h2⟩
      cases hr : w.rx.store with
      | main => exact ⟨hty, by simp⟩
      | connect =>
        rw [hr] at hfe
        obtain ⟨-, hc | ⟨ha, -⟩⟩ := hfe <;> simp_all
    have h := hw.setStore (r := w.rx.store) (s := t) (by
      intro x hx
      rw [(Store.append_spec _ _ _ ht).entries, List.mem_append, List.mem_singleton] at hx
      rcases hx with hx | rfl
      · exact hfits x hx
      · exact hfit)
    exact ⟨h.entries, .inl rfl, h.rxStore, h.txStore, h.connectable, h.alive⟩
  | pubrecLost | finish => exact ⟨hw.entries, .inl rfl, hw.rxStore, hw.txStore, hw.connectable, hw.alive⟩
  | ack e s he hs => exact hw.setStore (hw.append hs (he.fits _))
  | connecting p s ho hp hs =>
    have h := hw.setStore (r := .connect) (hw.append (r := .connect) hs ⟨⟨rfl, rfl⟩, .inl rfl⟩)
    exact ⟨h.entries, .inl rfl, h.rxStore, h.txStore, fun hf => by simp at hf, fun _ => rfl⟩
  | connected p hc he ho hn =>
    have h := hw.setStore (r := .main)
      (s := { w.mainStore with keepAlive := (w.heap.connects p).keepAlive }) (hw.entries .main)
    refine ⟨h.entries, h.held, rfl, rfl, fun ho => ?_, fun _ => rfl⟩
    have := (hw.connectable ho).2.1
    simp [hc] at this
  | sessionless hc =>
    exact hw.setStore (r := .main) fun x hx =>
      hw.entries .main x ((deleteSessionless_spec _ _ _ x).1 hx)
  | shift r e s hr hf hs =>
    obtain ⟨post, hrem⟩ := Store.shift_spec _ _ _ hs
    have h := hw.setStore (hw.removed hrem)
    exact ⟨h.entries, h.held, h.rxStore, h.txStore, h.connectable, h.alive⟩
  | opened hc hm =>
    have h := hw.setStore (r := .main) (s := w.mainStore.unmarkAll) (hw.entries .main)
    refine ⟨h.entries, h.held, h.rxStore, h.txStore, fun ho => ?_, hw.alive⟩
    have := (hw.connectable ho).2.1
    simp [hc] at this
  | initial he =>
    exact ⟨hw.entries, hw.held, hw.rxStore, hw.txStore,
      fun ho => ⟨rfl, rfl, (hw.connectable ho).2.2⟩, fun _ => rfl⟩
  | detached => exact ⟨hw.entries, hw.held, rfl, rfl, hw.connectable, hw.alive⟩
  | ready he hc hm hs => exact ⟨hw.entries, hw.held, hw.rxStore, hw.txStore, fun _ => ⟨he, hc, rfl⟩, fun _ => he⟩
  | failed e os he =>
    exact ⟨hw.entries, hw.held, hw.rxStore, hw.txStore, fun hf => by simp at hf,
      fun hf => by simp at hf⟩

/-! ### The states of the client -/

section Connects
variable {s t : Store} {e : Entry} {pre post : List Entry}

theorem Store.connects_append (h : Store.Appended s e t) :
    t.connects = s.connects + if e.kind = .connect then 1 else 0 := by
  rw [connects, connects, h.entries, List.countP_append, List.countP_singleton]
  simp only [decide_eq_true_eq]

theorem Store.connects_removed (h : Store.Removed s pre e post t) :
    s.connects = t.connects + if e.kind = .connect then 1 else 0 := by
  rw [connects, connects, h.before, h.after, List.countP_append, List.countP_append, List.countP_cons]
  simp only [decide_eq_true_eq]
  omega

theorem Store.connects_of_entries (h : t.entries = s.entries) : t.connects = s.connects := by
  rw [connects, connects, h]

theorem Store.connects_nil (h : s.entries = []) : s.connects = 0 := by
  rw [connects, h]
  rfl

end Connects

theorem Kind.eq_connect {k : Kind} (h : k.callback = some .onConnack) : k = .connect := by
  cases k <;> simp only [Kind.callback, reduceCtorEq, Option.some.injEq] at h
  rfl

theorem RxInternal.connects_of_empty {i : RxInternal} (h : i.value = {}) : i.connects = 0 := by
  simp [connects, h]

/- A step that leaves the state of the client and the decoder's request alone. -/
theorem Phase.keep {w w' : World σ} (hw : Phase w) (ho : w'.ops = w.ops) (hc : w'.closed = w.closed)
    (hm : w'.currentStore = w.currentStore) (hv : w'.rx.internal.value = w.rx.internal.value)
    (hn : w'.rx.internal.calls = 0 → w.rx.internal.calls = 0)
    (hs : w'.connectStore.connects ≤ w.connectStore.connects) : Phase w' := by
  have hi : w'.rx.internal.connects = w.rx.internal.connects := by
    rw [RxInternal.connects, RxInternal.connects, hv]
  obtain ⟨h1, h2, h3, h4, h5⟩ := hw
  refine ⟨?_, fun h => ?_, fun h h' => ?_, fun h h' h'' => ?_, by omega⟩
  · rwa [ho]
  · rw [ho] at h
    obtain ⟨hm', hz⟩ := h2 h
    exact ⟨hm.trans hm', by omega⟩
  · rw [ho]
    exact h3 (hc ▸ h) (hm ▸ h')
  · rw [hm]
    exact h4 (hi ▸ h) (hn h') (hc ▸ h'')

/- The same, where the decoder gives up its request. -/
theorem Phase.forget {w w' : World σ} (hw : Phase w) (ho : w'.ops = w.ops) (hc : w'.closed = w.closed)
    (hm : w'.currentStore = w.currentStore) (hv : w'.rx.internal.value = {})
    (hs : w'.connectStore.connects ≤ w.connectStore.connects) : Phase w' := by
  have hi := RxInternal.connects_of_empty hv
  obtain ⟨h1, h2, h3, h4, h5⟩ := hw
  refine ⟨?_, fun h => ?_, fun h h' => ?_, fun h => by omega, by omega⟩
  · rwa [ho]
  · rw [ho] at h
    obtain ⟨hm', hz⟩ := h2 h
    exact ⟨hm.trans hm', by omega⟩
  · rw [ho]
    exact h3 (hc ▸ h) (hm ▸ h')

theorem phase_effect {env : Env σ} {P : World σ → Prop} {w w' : World σ} (h : Effect env P w w')
    (ht : Typed w) (hw : Phase w) : Phase w' := by
  -- a store is replaced by one with no more CONNECTs
  have hstore : ∀ {r : StoreRef} {s : Store}, s.connects ≤ (w.store r).connects →
      (w.setStore r s).connectStore.connects ≤ w.connectStore.connects := by
    intro r s hs
    cases r with
    | main => exact le_rfl
    | connect => exact hs
  cases h with
  | app | heap | timeout | tx | txClosed | note | nextId | accept | enqueue | encode | connack | remember
  | deliver | deliverOnce | release | sessionless | clearIds =>
    exact hw.keep rfl rfl rfl rfl id le_rfl
  | clock r => exact hw.keep (by simp) (by simp) (by simp) (by simp) (by simp) (hstore le_rfl)
  | rx i hv => exact hw.keep rfl rfl rfl hv.1 (fun h => hv.2.2 ▸ h) le_rfl
  | answer | finalAnswer => exact hw.keep rfl rfl rfl rfl (fun h => absurd h (Nat.succ_ne_zero _)) le_rfl
  | mark e hp hr =>
    obtain ⟨rest, hpend⟩ := Store.pending_of_peek hp
    have he := (Store.connects_of_entries (Store.markCurrent_spec _ _ _ hpend).1).le
    refine hw.keep ?_ ?_ ?_ ?_ ?_ (hstore he) <;> simp [World.emit]
  | drop e hp hr =>
    obtain ⟨rest, hpend⟩ := Store.pending_of_peek hp
    have he := Store.connects_removed (Store.dropCurrent_spec _ _ _ hpend)
    refine hw.keep ?_ ?_ ?_ ?_ ?_ (hstore (r := w.tx.store) (s := w.txStore.dropCurrent) ?_) <;> try simp
    unfold World.txStore at *
    omega
  | ack e s he hs =>
    have hc := Store.connects_append (Store.append_spec _ _ _ hs)
    rw [if_neg (by rcases he.1 with h | h | h <;> rw [h] <;> simp)] at hc
    refine hw.keep ?_ ?_ ?_ ?_ ?_ (hstore hc.le) <;> simp
  | shift r e s hr hf hs =>
    obtain ⟨post, hrem⟩ := Store.shift_spec _ _ _ hs
    have hc := Store.connects_removed hrem
    refine hw.keep ?_ ?_ ?_ ?_ ?_ (hstore (r := r) (s := s) (by omega)) <;> simp
  | pubrec e s t hk hv hy hs hta =>
    obtain ⟨pre, post, hrem, -⟩ := Store.popMarkedBy_spec _ _ _ _ _ hs
    have h1 := Store.connects_removed hrem
    have h2 := Store.connects_append (Store.append_spec _ _ _ hta)
    rw [if_neg (by simp)] at h2
    unfold World.rxStore at h1
    refine hw.forget ?_ ?_ ?_ rfl (hstore (r := w.rx.store) (s := t) (by omega)) <;> simp [World.setRx]
  | pubrecLost | finish => exact hw.forget rfl rfl rfl rfl le_rfl
  | pop k id e s hk hv hi hc hs =>
    obtain ⟨pre, post, hrem, -⟩ := Store.popMarkedBy_spec _ _ _ _ _ hs
    obtain ⟨-, htyped, hfits, -⟩ := ht.popped hs
    have h0 := RxInternal.connects_of_empty hv
    have hle := Store.connects_removed hrem
    obtain ⟨h1, h2, h3, h4, h5⟩ := hw
    have hheld : ∀ i : RxInternal, i.value = e.value → i.connects = if e.kind = .connect then 1 else 0 := by
      intro i hi
      have hiff : e.value.callback = some .onConnack ↔ e.kind = .connect :=
        ⟨fun h => Kind.eq_connect (htyped.callback ▸ h), fun h => by rw [htyped.callback, h]; rfl⟩
      rw [RxInternal.connects, hi]
      simp only [hiff]
    -- a CONNECT is in the connect store
    have hplace : e.kind = .connect → w.rx.store = .connect := by
      intro hke
      cases hr : w.rx.store with
      | main =>
        rw [hr] at hfits
        exact absurd hke hfits.2
      | connect => rfl
    generalize hw' : ((w.setStore w.rx.store s).setRx { w.rx.internal with value := e.value }).emit
      (.popped e.kind id e.value.req) = w'
    have hh : w'.rx.internal.connects = if e.kind = .connect then 1 else 0 := hheld _ (by rw [← hw']; rfl)
    have hs' : w'.connectStore = (w.setStore w.rx.store s).connectStore := by rw [← hw']; rfl
    have ho : w'.ops = w.ops := by rw [← hw']; simp [World.emit, World.setRx]
    have hcl : w'.closed = w.closed := by rw [← hw']; simp [World.emit, World.setRx]
    have hcs : w'.currentStore = w.currentStore := by rw [← hw']; simp [World.emit, World.setRx]
    have hlt : w'.connectStore.connects ≤ w.connectStore.connects := by
      rw [hs']
      apply hstore
      unfold World.rxStore at hle
      omega
    refine ⟨by rwa [ho], fun h => ?_, fun h h' => ?_, fun h _ _ => ?_, ?_⟩
    · rw [ho] at h
      exact ⟨hcs.trans (h2 h).1, by have := (h2 h).2; omega⟩
    · rw [ho]
      exact h3 (hcl ▸ h) (hcs ▸ h')
    · have hke : e.kind = .connect := by
        by_contra hn
        rw [hh, if_neg hn] at h
        contradiction
      rw [hcs, ← ht.rxStore]
      exact hplace hke
    · rw [hh]
      by_cases hke : e.kind = .connect
      · rw [World.rxStore, hplace hke, if_pos hke] at hle
        rw [hs', hplace hke, if_pos hke]
        change s.connects + 1 ≤ 1
        change w.connectStore.connects = _ at hle
        omega
      · rw [if_neg hke]
        omega
  | connecting p s ho hp hs =>
    have hc := Store.connects_append (Store.append_spec _ _ _ hs)
    rw [if_pos rfl] at hc
    have hz := (hw.idle ho).2
    refine ⟨hw.ops, by simp, fun _ _ => (ht.connectable ho).2.2, fun h => by simp [RxInternal.connects] at h, ?_⟩
    change s.connects + 0 ≤ 1
    omega
  | connected p hc he ho hn =>
    refine ⟨hw.ops, fun h => ?_, fun _ h => by simp at h, fun _ h => ?_, hw.single⟩
    · have := (ht.connectable h).2.1
      simp [hc] at this
    · change w.rx.internal.calls = 0 at h
      omega
  | opened hc hm =>
    exact ⟨⟨rfl, rfl, rfl⟩, hw.idle, fun _ h => by simp [hm] at h, hw.awaited, hw.single⟩
  | initial he => exact ⟨hw.ops, hw.idle, fun h => by simp at h, fun _ _ h => by simp at h, hw.single⟩
  | detached hc =>
    exact ⟨hw.ops, fun h => ⟨rfl, (hw.idle h).2⟩, fun h => by simp [hc] at h, fun _ _ _ => rfl, hw.single⟩
  | ready he hc hm hs =>
    exact ⟨⟨rfl, rfl, rfl⟩, fun _ => ⟨hm, Store.connects_nil hs⟩, fun _ _ => rfl, hw.awaited, hw.single⟩
  | failed e os he =>
    exact ⟨⟨rfl, rfl, rfl⟩, by simp, fun h => by simp at h, fun _ _ h => by simp at h, hw.single⟩

theorem sound_effect {env : Env σ} {P : World σ → Prop} {w w' : World σ} (h : Effect env P w w')
    (hw : Sound w) : Sound w' :=
  ⟨typed_effect h hw.toTyped, phase_effect h hw.toTyped hw.phase,
    fun r => owed_effect h (fun ho => (hw.connectable ho).1) hw.calledOnce r (hw.owed r),
    calledOnce_effect h hw.calledOnce⟩

/- What the decoder holds is in no store. -/
theorem Sound.heldSpared {w : World σ} (hw : Sound w) (q : ℕ) (hq : w.rx.internal.value.req = some q)
    (hc : w.rx.internal.calls = 0) : w.Spared q := by
  obtain ⟨h1, h2, h3, h4, -⟩ := hw.owed q
  have hh : w.held q = 1 := by rw [World.held, if_pos hq]
  have := h4 hh
  refine ⟨?_, by omega, by omega⟩
  by_contra hn
  have := h2 (by omega)
  omega

/- While the decoder holds a CONNECT, there is none in a store. -/
theorem Sound.noConnect {w : World σ} (hw : Sound w) (hv : w.rx.internal.value.callback = some .onConnack)
    {r : StoreRef} {e : Entry} (he : e ∈ (w.store r).entries) : e.value.callback ≠ some .onConnack := by
  intro hcb
  have hf := hw.entries r e he
  cases r with
  | main =>
    obtain ⟨ht, hk⟩ := hf
    exact hk (Kind.eq_connect (ht.callback ▸ hcb))
  | connect =>
    have hk := Kind.eq_connect (hf.1.callback ▸ hcb)
    have hpos : 0 < w.connectStore.connects := List.countP_pos_iff.mpr ⟨e, he, by simpa using hk⟩
    have hs := hw.phase.single
    rw [RxInternal.connects, if_pos hv] at hs
    omega

end LightMqtt
