import LightMqtt.Base.History
import LightMqtt.PacketIds

/-!
# The sender of QoS 2 messages

An accepted QoS 2 publish waits in the store as a PUBLISH and, once its PUBREC
was processed, as a PUBREL; a reconnect replays it in the form it has then.
-/

namespace LightMqtt

open Exec

variable {σ : Type} {env : Env σ} {P : World σ → Prop}

/-! ### Serial numbers -/

/- The serial number an event hands out. -/
def Event.serial : Event → Option ℕ
  | .accepted r .. => some r
  | .connecting r _ => some r
  | _ => none

/- An entry of this kind stands for the call its serial number names; the
   PUBREL of a QoS 2 message stands for its publish. -/
def Stands (log : List Event) (k : Kind) (v : Value) : Prop :=
  ∀ r, v.req = some r → (k = .connect ∧ ∃ p, .connecting r p ∈ log) ∨
    ∃ k' p u, .accepted r k' v.packetId p u ∈ log ∧ (k = k' ∨ k = .pubrel ∧ k' = .publish2)

theorem stands_of_none {log : List Event} {k : Kind} {v : Value} (h : v.req = none) : Stands log k v := by
  intro r hr
  rw [h] at hr
  contradiction

theorem Stands.mono {log : List Event} {k : Kind} {v : Value} (evs : List Event) (h : Stands log k v) :
    Stands (evs ++ log) k v := by
  intro r hr
  rcases h r hr with ⟨hk, p, hm⟩ | ⟨k', p, u, hm, hk⟩
  · exact .inl ⟨hk, p, List.mem_append_right _ hm⟩
  · exact .inr ⟨k', p, u, List.mem_append_right _ hm, hk⟩

/-- A serial number names one call, and entries stand for the calls they were
created for. -/
structure Registered (w : World σ) : Prop where
  numbered : ∀ ev ∈ w.log, ∀ r, ev.serial = some r → r < w.nextReq
  unique : ∀ ev ∈ w.log, ∀ ev' ∈ w.log, ev.serial.isSome = true → ev.serial = ev'.serial → ev = ev'
  stands : ∀ s, ∀ e ∈ (w.store s).entries, Stands w.log e.kind e.value
  held : ∀ k, w.rx.internal.kind = some k → Stands w.log k w.rx.internal.value

/- A step that hands out no serial number. -/
theorem Registered.frame {w w' : World σ} (h : Registered w) (evs : List Event) (hl : w'.log = evs ++ w.log)
    (he : ∀ ev ∈ evs, ev.serial = none) (hn : w'.nextReq = w.nextReq)
    (hs : ∀ s, ∀ e ∈ (w'.store s).entries, e ∈ (w.store s).entries ∨ Stands w'.log e.kind e.value)
    (hh : ∀ k, w'.rx.internal.kind = some k → w'.rx.internal.value = {} ∨
      w.rx.internal.kind = some k ∧ w'.rx.internal.value = w.rx.internal.value ∨
      Stands w'.log k w'.rx.internal.value) : Registered w' := by
  have hold : ∀ ev ∈ w'.log, ∀ r, ev.serial = some r → ev ∈ w.log := by
    intro ev hev r hr
    rw [hl] at hev
    rcases List.mem_append.mp hev with hev | hev
    · rw [he ev hev] at hr
      contradiction
    · exact hev
  refine ⟨fun ev hev r hr => ?_, fun ev hev ev' hev' hsome heq => ?_, fun s e hm => ?_, fun k hk => ?_⟩
  · rw [hn]
    exact h.numbered ev (hold ev hev r hr) r hr
  · obtain ⟨r, hr⟩ := Option.isSome_iff_exists.mp hsome
    exact h.unique ev (hold ev hev r hr) ev' (hold ev' hev' r (heq ▸ hr)) hsome heq
  · rcases hs s e hm with hm | hm
    · rw [hl]
      exact (h.stands s e hm).mono evs
    · exact hm
  · rcases hh k hk with hv | ⟨hk, hv⟩ | hv
    · exact stands_of_none (by rw [hv])
    · rw [hl, hv]
      exact (h.held k hk).mono evs
    · exact hv

/- A step that hands out the next serial number to a new entry of the store `s`. -/
theorem Registered.enter {w w' : World σ} {s : StoreRef} {t : Store} {e : Entry} (h : Registered w) (ev : Event)
    (hl : w'.log = ev :: w.log) (he : ev.serial = some w.nextReq) (hn : w'.nextReq = w.nextReq + 1)
    (hs : (w.store s).append e = some t) (hst : ∀ s', w'.store s' = if s' = s then t else w.store s')
    (hstands : Stands w'.log e.kind e.value)
    (hh : ∀ k, w'.rx.internal.kind = some k → w'.rx.internal.value = {} ∨
      w.rx.internal.kind = some k ∧ w'.rx.internal.value = w.rx.internal.value) : Registered w' := by
  have hfresh : ∀ ev' ∈ w.log, ev'.serial ≠ some w.nextReq := by
    intro ev' hev' heq
    have := h.numbered ev' hev' _ heq
    omega
  have hgrow : ∀ k v, Stands w.log k v → Stands w'.log k v := by
    intro k v hv
    rw [hl]
    exact hv.mono [ev]
  refine ⟨fun ev' hev' r hr => ?_, fun x hx y hy hsome heq => ?_, fun s' x hx => ?_, fun k hk => ?_⟩
  · rw [hn]
    rw [hl, List.mem_cons] at hev'
    rcases hev' with rfl | hev'
    · rw [he, Option.some.injEq] at hr
      omega
    · have := h.numbered ev' hev' r hr
      omega
  · rw [hl, List.mem_cons] at hx hy
    rcases hx with rfl | hx
    · rcases hy with rfl | hy
      · rfl
      · exact absurd (heq.symm.trans he) (hfresh y hy)
    · rcases hy with rfl | hy
      · exact absurd (heq.trans he) (hfresh x hx)
      · exact h.unique x hx y hy hsome heq
  · rw [hst] at hx
    split at hx
    · rename_i heq
      rw [(Store.append_spec _ _ _ hs).entries, List.mem_append, List.mem_singleton] at hx
      rcases hx with hx | rfl
      · exact hgrow _ _ (h.stands s x hx)
      · exact hstands
    · exact hgrow _ _ (h.stands s' x hx)
  · rcases hh k hk with hv | ⟨hk, hv⟩
    · exact stands_of_none (by rw [hv])
    · rw [hv]
      exact hgrow _ _ (h.held k hk)

theorem isNote_serial {e : Event} (he : e.isNote = true) : e.serial = none := by
  cases e <;> simp_all [Event.isNote, Event.serial]

theorem answers_serial (w : World σ) (v : Value) : ∀ ev ∈ w.answers v, ev.serial = none := by
  intro ev hev
  unfold World.answers at hev
  split at hev <;> simp_all [Event.serial]

theorem Entry.IsAck.req {e : Entry} (h : e.IsAck) : e.value.req = none := by
  rw [h.2]

/- A store is replaced by one with some of its entries, and others that stand
   for calls. -/
theorem stands_setStore {w : World σ} {r : StoreRef} {t : Store} {log : List Event}
    (h : ∀ e ∈ t.entries, e ∈ (w.store r).entries ∨ Stands log e.kind e.value) :
    ∀ s, ∀ e ∈ ((w.setStore r t).store s).entries, e ∈ (w.store s).entries ∨ Stands log e.kind e.value := by
  intro s e he
  rw [World.store_setStore] at he
  split at he
  · rename_i heq
    rw [heq]
    exact h e he
  · exact .inl he

theorem registered_effect {w w' : World σ} (h : Effect env P w w') (hr : Registered w) :
    Registered w' := by
  -- nothing is logged, and stores and request are as they were
  have hsame : ∀ {w' : World σ}, w'.log = w.log → w'.nextReq = w.nextReq →
      (∀ s, ∀ e ∈ (w'.store s).entries, e ∈ (w.store s).entries) → w'.rx.internal = w.rx.internal →
      Registered w' := fun hl hn hs hi =>
    hr.frame [] hl (by simp) hn (fun s e he => .inl (hs s e he)) fun k hk => .inr (.inl (by rw [← hi]; exact ⟨hk, rfl⟩))
  -- something is logged
  have hlogs : ∀ {w' : World σ} (evs : List Event), (∀ ev ∈ evs, ev.serial = none) → w'.log = evs ++ w.log →
      w'.nextReq = w.nextReq → (∀ s, ∀ e ∈ (w'.store s).entries, e ∈ (w.store s).entries) →
      w'.rx.internal.value = {} ∨ w'.rx.internal = w.rx.internal → Registered w' := fun evs he hl hn hs hi =>
    hr.frame evs hl he hn (fun s e hm => .inl (hs s e hm)) fun k hk => by
      rcases hi with hi | hi
      · exact .inl hi
      · exact .inr (.inl (by rw [← hi]; exact ⟨hk, rfl⟩))
  cases h with
  | app | heap | txClosed | tx | remember | release | clearIds | detached | ready | failed =>
    exact hsame rfl rfl (fun s e he => by cases s <;> exact he) rfl
  | timeout | nextId | opened => exact hsame rfl rfl (fun s e he => by cases s <;> exact he) rfl
  | clock r =>
    refine hsame (by simp) (by simp) (fun s e he => ?_) (by simp)
    rw [World.store_setStore] at he
    split at he
    · rename_i heq
      rw [heq]
      exact he
    · exact he
  | rx i hv =>
    refine hr.frame [] rfl (by simp) rfl (fun s e he => .inl (by cases s <;> exact he)) fun k hk => ?_
    obtain ⟨hv, he | hd, -⟩ := hv
    · exact .inl he
    · refine .inr (.inl ⟨?_, hv⟩)
      rw [RxInternal.kind, ← hd]
      exact hk
  | note e he =>
    refine hlogs [e] ?_ rfl rfl (fun s x hx => by cases s <;> exact hx) (.inr rfl)
    intro ev hev
    rw [List.mem_singleton.mp hev]
    exact isNote_serial he
  | encode | deliver | connack =>
    exact hlogs [_] (by simp [Event.serial]) rfl rfl (fun s x hx => by cases s <;> exact hx) (.inr rfl)
  | deliverOnce | initial | connected =>
    exact hlogs [_] (by simp [Event.serial]) rfl rfl (fun s x hx => by cases s <;> exact hx) (.inr rfl)
  | pubrecLost | finish =>
    exact hlogs [_] (by simp [Event.serial]) rfl rfl (fun s x hx => by cases s <;> exact hx) (.inl rfl)
  | answer =>
    refine hr.frame _ (decoded_answered_log w _) (fun ev hev => ?_) rfl (fun s x hx => .inl (by cases s <;> exact hx))
      fun k hk => .inr (.inl ⟨hk, rfl⟩)
    rcases List.mem_append.mp hev with hev | hev
    · exact answers_serial w _ ev hev
    · rw [List.mem_singleton.mp hev]
      rfl
  | finalAnswer =>
    exact hr.frame _ rfl (answers_serial w.calling _) rfl (fun s x hx => .inl (by cases s <;> exact hx))
      fun k hk => .inr (.inl ⟨hk, rfl⟩)
  | accept kind id p s hk ho hs =>
    refine hr.enter (s := .main) _ rfl rfl rfl hs (fun s' => by cases s' <;> rfl) ?_ fun k hk => .inr ⟨hk, rfl⟩
    intro r hreq
    cases hreq
    exact .inr ⟨kind, p, _, List.mem_cons_self .., .inl rfl⟩
  | enqueue kind s hk hs =>
    refine hr.frame [] rfl (by simp) rfl (stands_setStore (r := .main) fun e he => ?_) fun k hk => .inr (.inl ⟨hk, rfl⟩)
    rw [(Store.append_spec _ _ _ hs).entries, List.mem_append, List.mem_singleton] at he
    rcases he with he | rfl
    · exact .inl he
    · exact .inr (stands_of_none rfl)
  | ack e s he hs =>
    refine hr.frame [] (by simp) (by simp) (by simp) (stands_setStore fun x hx => ?_) fun k hk =>
      .inr (.inl (by simpa using hk))
    rw [(Store.append_spec _ _ _ hs).entries, List.mem_append, List.mem_singleton] at hx
    rcases hx with hx | rfl
    · exact .inl hx
    · exact .inr (stands_of_none he.req)
  | mark e hp hr' =>
    obtain ⟨rest, hpend⟩ := Store.pending_of_peek hp
    refine hr.frame [.encoded e.kind e.value.packetId e.value.req] (by simp [World.emit])
      (by simp [Event.serial]) (by simp [World.emit]) (fun s x hx => ?_) fun k hk =>
        .inr (.inl (by simpa [World.emit] using hk))
    rw [World.store_emit] at hx
    refine stands_setStore (fun y hy => .inl ?_) s x hx
    rw [(Store.markCurrent_spec _ _ _ hpend).1] at hy
    exact hy
  | drop e hp hr' =>
    obtain ⟨rest, hpend⟩ := Store.pending_of_peek hp
    have hrem := Store.dropCurrent_spec _ _ _ hpend
    refine hr.frame (w.answers e.value ++ [.encoded e.kind e.value.packetId e.value.req]) (by simp) ?_
      (by simp) (fun s x hx => ?_) fun k hk => .inr (.inl (by simpa using hk))
    · intro ev hev
      rcases List.mem_append.mp hev with hev | hev
      · exact answers_serial w _ ev hev
      · rw [List.mem_singleton.mp hev]
        rfl
    · refine stands_setStore (r := w.tx.store) (t := w.txStore.dropCurrent) (fun y hy => .inl (hrem.subset hy)) s x ?_
      cases s <;> exact hx
  | pop k id e s hk hv hi hc hs =>
    obtain ⟨pre, post, hrem, -, hke, -⟩ := Store.popMarkedBy_spec _ _ _ _ _ hs
    refine hr.frame [.popped e.kind id e.value.req] (by simp [World.emit, World.setRx]) (by simp [Event.serial])
      (by simp [World.emit, World.setRx]) (fun s' x hx => ?_) fun k' hk' => .inr (.inr ?_)
    · rw [World.store_emit, World.store_setRx] at hx
      exact stands_setStore (fun y hy => .inl (hrem.subset hy)) s' x hx
    · have hkk : some k = some k' := hk.symm.trans hk'
      cases hkk
      have hst := hr.stands _ e hrem.mem
      rw [hke] at hst
      have hlog : (((w.setStore w.rx.store s).setRx { w.rx.internal with value := e.value }).emit
          (.popped e.kind id e.value.req)).log = [.popped e.kind id e.value.req] ++ w.log := by
        simp [World.emit, World.setRx]
      rw [hlog]
      exact hst.mono _
  | pubrec e s t hk hv hy hs ht =>
    obtain ⟨pre, post, hrem, -, hke, -⟩ := Store.popMarkedBy_spec _ _ _ _ _ hs
    refine hr.frame [_, _] rfl (by simp [Event.serial]) (by simp [World.setRx]) (fun s' x hx => ?_) fun k hk => .inl rfl
    have hx' : x ∈ ((w.setStore w.rx.store t).store s').entries := by cases s' <;> exact hx
    refine stands_setStore (fun y hy => ?_) s' x hx'
    rw [(Store.append_spec _ _ _ ht).entries, List.mem_append, List.mem_singleton] at hy
    rcases hy with hy | rfl
    · exact .inl (hrem.subset hy)
    · -- the PUBREL takes over the publish
      refine .inr fun r hreq => .inr ?_
      rcases hr.stands _ e hrem.mem r hreq with ⟨hc, -⟩ | ⟨k', p, u, hm, hk' | ⟨hk', -⟩⟩
      · rw [hke] at hc
        contradiction
      · exact ⟨k', p, u, List.mem_append_right [_, _] hm, .inr ⟨rfl, hk' ▸ hke⟩⟩
      · rw [hke] at hk'
        contradiction
  | connecting p s ho hp hs =>
    refine hr.enter (s := .connect) _ rfl rfl rfl hs (fun s' => by cases s' <;> rfl) ?_ fun k hk => .inl rfl
    intro r hreq
    cases hreq
    exact .inl ⟨rfl, p, List.mem_cons_self ..⟩
  | sessionless hc =>
    refine hsame rfl rfl (fun s e he => ?_) rfl
    cases s with
    | main => exact (deleteSessionless_spec _ _ _ e).1 he
    | connect => exact he
  | shift r e s hr' hf hs =>
    obtain ⟨post, hrem⟩ := Store.shift_spec _ _ _ hs
    refine hlogs _ (answers_serial w _) rfl (by simp) (fun s' x hx => ?_) (.inr (by simp))
    have hx' : x ∈ ((w.setStore r s).store s').entries := by cases s' <;> exact hx
    rw [World.store_setStore] at hx'
    split at hx'
    · rename_i heq
      rw [heq]
      exact hrem.subset hx'
    · exact hx'

/-! ### The handshake -/

/-- The request was accepted with this id, and later a PUBREC with the id was
processed. -/
def Handshaken (r : ℕ) (id : PacketId) (log : List Event) : Prop :=
  History.Follows (fun ev => ∃ p u, ev = .accepted r .publish2 id p u)
    (fun ev => ev = .finished typePubrec id) log

/-- The PUBREL of the request was encoded since the last connect. -/
def PubrelEncoded (r : ℕ) (id : PacketId) (log : List Event) : Prop :=
  History.IsOpen (fun ev => ev = .encoded .pubrel id (some r)) (fun ev => ∃ r' p, ev = .connecting r' p) log

theorem handshaken_append {r : ℕ} {id : PacketId} {evs log : List Event} (hn : NoPubrec evs)
    (h : Handshaken r id (evs ++ log)) : Handshaken r id log :=
  History.follows_append (fun ev hev => hn ev hev id) h

/- An entry that stands for an accepted QoS 2 publish. -/
theorem Registered.publish2 {w : World σ} (h : Registered w) {r : ℕ} {id : PacketId} {p : Ptr} {u : Bool}
    {k : Kind} {v : Value} (ha : .accepted r .publish2 id p u ∈ w.log) (hs : Stands w.log k v)
    (hr : v.req = some r) : (k = .publish2 ∨ k = .pubrel) ∧ v.packetId = id := by
  rcases hs r hr with ⟨-, p', hm⟩ | ⟨k', p', u', hm, hk⟩
  · have := h.unique _ ha _ hm rfl rfl
    contradiction
  · have heq := h.unique _ ha _ hm rfl rfl
    cases heq
    refine ⟨?_, rfl⟩
    rcases hk with hk | ⟨hk, -⟩
    · exact .inl hk
    · exact .inr hk

/- No PUBLISH is in the store whose PUBREC was processed. -/
def Passed (w : World σ) : Prop :=
  ∀ e ∈ w.mainStore.entries, e.kind = .publish2 → ∀ r id, e.value.req = some r → ¬ Handshaken r id w.log

theorem passed_step {w w' : World σ} (h : MainStep env w w') (hn : env.ndebug = false) (hr : Registered w) (hd : Distinct w)
    (hp : Passed w) : Passed w' := by
  intro e he hk r id hreq hh
  cases h with
  | kept evs hl hnp hes hs =>
    rw [hl] at hh
    exact hp e (hes.subset he) hk r id hreq (handshaken_append (hnp hn) hh)
  | added x hl hxk hes hs =>
    rw [hes, List.mem_append, List.mem_singleton] at he
    rw [hl] at hh
    rcases he with he | rfl
    · exact hp e he hk r id hreq hh
    · rw [hk] at hxk
      contradiction
  | accepted x hxr p hl hes hs =>
    rw [hes, List.mem_append, List.mem_singleton] at he
    rw [hl] at hh
    have hold : Handshaken r id w.log :=
      handshaken_append (by simp [NoPubrec]) (show Handshaken r id ([_] ++ w.log) from hh)
    rcases he with he | rfl
    · exact hp e he hk r id hreq hold
    · -- a serial number that is handed out now
      obtain ⟨ev, hev, p', u, rfl⟩ := hold.exists_earlier
      have := hr.numbered _ hev r rfl
      rw [hxr, Option.some.injEq] at hreq
      omega
  | pubrec pre post x hxk hl hb hes hs =>
    rw [hes, List.mem_append, List.mem_singleton] at he
    rw [hl] at hh
    rcases he with he | rfl
    · have hmem : e ∈ w.mainStore.entries := by
        rw [hb]
        rcases List.mem_append.mp he with he | he
        · exact List.mem_append_left _ he
        · exact List.mem_append_right _ (List.mem_cons_of_mem _ he)
      rcases (History.follows_cons _ _).mp hh with ⟨heq, ev, hev, p, u, rfl⟩ | hh
      · -- this PUBREC would belong to another entry with the same id
        have hid := (Event.finished.inj heq).2
        have hacc : .accepted r .publish2 id p u ∈ w.log := by simpa using hev
        obtain ⟨-, hei⟩ := hr.publish2 hacc (hr.stands .main e hmem) hreq
        unfold Distinct at hd
        rw [hb] at hd
        refine (inFlightIds_middle (by rw [hxk]; rfl) hd).1 (mem_inFlightIds.mpr ⟨e, he, by rw [hk]; rfl, ?_⟩)
        rw [hei, hid]
      · exact hp e hmem hk r id hreq (handshaken_append (by simp [NoPubrec]) (show Handshaken r id ([_] ++ w.log) from hh))
    · contradiction

/- No connect was accepted. -/
def NoConnecting (evs : List Event) : Prop := ∀ ev ∈ evs, ¬ ∃ r p, ev = .connecting r p

/- While requests are accepted, a marked PUBREL was encoded on this connection. -/
def MarksEncoded (w : World σ) : Prop :=
  w.ops.publish = true → ∀ e ∈ w.mainStore.sent, e.kind = .pubrel → ∀ r, e.value.req = some r →
    PubrelEncoded r e.value.packetId w.log

theorem MainStep.sent {w w' : World σ} (h : MainStep env w w') : ∀ e ∈ w'.mainStore.sent, e ∈ w.mainStore.sent ∨
    w'.log = .encoded e.kind e.value.packetId e.value.req :: w.log := by
  intro e he
  cases h with
  | kept evs hl hn hes hs => exact hs e he
  | added x hl hk hes hs => exact .inl (hs ▸ he)
  | accepted x hr p hl hes hs => exact .inl (hs ▸ he)
  | pubrec pre post x hk hl hb hes hs => exact .inl (hs e he)

theorem answers_noConnecting (w : World σ) (v : Value) : NoConnecting (w.answers v) := by
  intro ev hev
  unfold World.answers at hev
  split at hev <;> simp_all

/- Marks are taken away when requests are accepted again, and a connect is only
   accepted while they are not. -/
theorem effect_online {w w' : World σ} (h : Effect env P w w') (hw : Sound w) (ho : w'.ops.publish = true) :
    w'.mainStore.sent = [] ∨ w.ops.publish = true ∧ ∃ evs, w'.log = evs ++ w.log ∧ NoConnecting evs := by
  cases h with
  | app | heap | txClosed | tx | rx | remember | release | clearIds | detached
  | timeout | nextId | enqueue | sessionless => exact .inr ⟨ho, [], rfl, by simp [NoConnecting]⟩
  | clock | ack => exact .inr ⟨by simpa using ho, [], by simp, by simp [NoConnecting]⟩
  | note e he =>
    refine .inr ⟨ho, [e], rfl, fun ev hev => ?_⟩
    rw [List.mem_singleton.mp hev]
    rintro ⟨r, p, rfl⟩
    contradiction
  | encode | deliver | deliverOnce | initial | connected | finish | pubrecLost | accept | connack =>
    exact .inr ⟨ho, [_], rfl, by simp [NoConnecting]⟩
  | pubrec => exact .inr ⟨by simpa [World.setRx] using ho, [_, _], rfl, by simp [NoConnecting]⟩
  | mark e hp hr =>
    exact .inr ⟨by simpa [World.emit] using ho, [.encoded e.kind e.value.packetId e.value.req],
      by simp [World.emit], by simp [NoConnecting]⟩
  | pop k id e s hk hv hi hc hs =>
    exact .inr ⟨by simpa [World.emit, World.setRx] using ho, [.popped e.kind id e.value.req],
      by simp [World.emit, World.setRx], by simp [NoConnecting]⟩
  | drop e hp hr =>
    refine .inr ⟨by simpa using ho, w.answers e.value ++ [.encoded e.kind e.value.packetId e.value.req],
      by simp, fun ev hev => ?_⟩
    rcases List.mem_append.mp hev with hev | hev
    · exact answers_noConnecting w _ ev hev
    · rw [List.mem_singleton.mp hev]
      simp
  | finalAnswer => exact .inr ⟨ho, _, rfl, answers_noConnecting w.calling _⟩
  | answer =>
    refine .inr ⟨ho, _, decoded_answered_log w _, fun ev hev => ?_⟩
    rcases List.mem_append.mp hev with hev | hev
    · exact answers_noConnecting w _ ev hev
    · rw [List.mem_singleton.mp hev]
      simp
  | shift r e s hr hf hs => exact .inr ⟨by simpa using ho, _, rfl, answers_noConnecting w _⟩
  | connecting p s hoc =>
    have := (hw.connectable hoc).2.2
    change w.ops.publish = true at ho
    rw [this] at ho
    contradiction
  | opened => exact .inl (by simp [Store.sent, Store.unmarkAll])
  | ready | failed => contradiction

theorem marksEncoded_effect {w w' : World σ} (h : Effect env P w w') (hw : Sound w) (hm : MainStep env w w')
    (hi : MarksEncoded w) : MarksEncoded w' := by
  intro ho e he hk r hr
  rcases effect_online h hw ho with hnil | ⟨hold, evs, hl, hn⟩
  · rw [hnil] at he
    contradiction
  · rcases hm.sent e he with he | hlog
    · have := hi hold e he hk r hr
      unfold PubrelEncoded at *
      rw [hl]
      exact History.isOpen_keep hn this
    · unfold PubrelEncoded
      rw [hlog, History.isOpen_cons, hk, hr]
      exact .inl rfl

/-! ### The law -/

/-- What the events of a history say about the requests of the client, with the
events before them. -/
def SenderLaw (ev : Event) (older : List Event) : Prop :=
  match ev with
  /- behind the PUBREC only the PUBREL is encoded -/
  | .encode k id req _ | .encoded k id req =>
    ∀ r id', req = some r → Handshaken r id' older → k = .pubrel ∧ id = id'
  /- a PUBREL that is answered was encoded on this connection -/
  | .popped k id req => k = .pubrel → ∀ r, req = some r → PubrelEncoded r id older ∧
    ∀ id' p u, .accepted r .publish2 id' p u ∈ older → id = id'
  /- the publish succeeds when its PUBCOMP was decoded -/
  | .answered .onPublish req _ true => ∀ r id p u, req = some r → .accepted r .publish2 id p u ∈ older →
    ∃ l, older = .decoded typePubcomp id :: .popped .pubrel id (some r) :: .packetId typePubcomp id :: l ∧
      PubrelEncoded r id l
  | _ => True

/- Events the law says nothing about. -/
def Event.isLawful : Event → Bool
  | .encode .. | .encoded .. | .popped .. | .answered .onPublish _ _ true => false
  | _ => true

theorem senderLaw_of_isLawful {ev : Event} (h : ev.isLawful = true) (older : List Event) : SenderLaw ev older := by
  unfold SenderLaw
  split <;> trivial

theorem isNote_isLawful {e : Event} (he : e.isNote = true) : e.isLawful = true := by
  cases e <;> simp_all [Event.isNote, Event.isLawful]

/- The call of a callback behind a lawful history. -/
theorem answers_law {older : List Event} (w : World σ) (v : Value) (h : History.Always SenderLaw older)
    (hv : w.closed = false → ∀ r id p u, v.req = some r → .accepted r .publish2 id p u ∈ older →
      ∃ l, older = .decoded typePubcomp id :: .popped .pubrel id (some r) :: .packetId typePubcomp id :: l ∧
        PubrelEncoded r id l) :
    History.Always SenderLaw (w.answers v ++ older) := by
  unfold World.answers
  split
  · exact h
  · exact h
  · split
    · exact (History.always_cons _ _).mpr ⟨senderLaw_of_isLawful rfl older, h⟩
    · exact h
  · rename_i cb _ _ _
    refine (History.always_cons _ _).mpr ⟨?_, h⟩
    cases hc : w.closed with
    | true => exact senderLaw_of_isLawful (by cases cb <;> rfl) older
    | false =>
      cases cb with
      | onPublish => exact hv hc
      | onConnack | onSuback | onUnsuback | onPingresp => exact senderLaw_of_isLawful rfl older

/-- The sender of QoS 2 messages in a state of a run that keeps its sessions. -/
structure Sending (w : World σ) : Prop where
  session : w.cleanSession = false
  distinct : Distinct w
  passed : Passed w
  marks : MarksEncoded w
  law : History.Always SenderLaw w.log

/- The entry that is encoded. -/
theorem Sending.peek {w : World σ} (h : Sending w) (hw : Sound w) (hr : Registered w) {e : Entry}
    (hp : w.txStore.peek = some e) (r : ℕ) (id : PacketId) (hreq : e.value.req = some r)
    (hh : Handshaken r id w.log) : e.kind = .pubrel ∧ e.value.packetId = id := by
  have hmem : e ∈ w.txStore.entries := List.mem_of_getElem? hp
  obtain ⟨ev, hev, p, u, rfl⟩ := hh.exists_earlier
  obtain ⟨hk | hk, hid⟩ := hr.publish2 hev (hr.stands _ e hmem) hreq
  · unfold World.txStore at hmem
    cases ht : w.tx.store with
    | main =>
      rw [ht] at hmem
      exact absurd hh (h.passed e hmem hk r id hreq)
    | connect =>
      rw [ht] at hmem
      rcases hw.connect_kind hmem with hc | ⟨hc, -⟩
      · rw [hk] at hc
        contradiction
      · rw [hk] at hc
        simp at hc
  · exact ⟨hk, hid⟩

theorem law_effect {w w' : World σ} (h : Effect env P w w') (hw : Sound w) (hr : Registered w)
    (hi : Sending w) : History.Always SenderLaw w'.log := by
  have hquiet : ∀ ev : Event, ev.isLawful = true → History.Always SenderLaw (ev :: w.log) := fun ev he =>
    (History.always_cons _ _).mpr ⟨senderLaw_of_isLawful he _, hi.law⟩
  cases h with
  | app | heap | txClosed | tx | rx | remember | release | clearIds | detached
  | timeout | nextId | enqueue | sessionless | opened | ready | failed => exact hi.law
  | clock | ack =>
    rw [World.setStore_log]
    exact hi.law
  | note e he =>
    exact hquiet e (isNote_isLawful he)
  | deliver | deliverOnce | initial | connected | connecting | finish | pubrecLost | accept | connack =>
    exact hquiet _ rfl
  | encode e field hp => exact (History.always_cons _ _).mpr ⟨hi.peek hw hr hp, hi.law⟩
  | mark e hp hk =>
    change History.Always SenderLaw (_ :: (w.setStore w.tx.store w.txStore.markCurrent).log)
    rw [World.setStore_log]
    exact (History.always_cons _ _).mpr ⟨hi.peek hw hr hp, hi.law⟩
  | drop e hp hk =>
    refine answers_law w e.value ((History.always_cons _ _).mpr ⟨hi.peek hw hr hp, hi.law⟩) ?_
    intro _ r id p u hreq hm
    have hacc : .accepted r .publish2 id p u ∈ w.log := by simpa using hm
    obtain ⟨he | he, -⟩ := hr.publish2 hacc (hr.stands _ e (List.mem_of_getElem? hp)) hreq
    · rw [he] at hk
      contradiction
    · rw [he] at hk
      contradiction
  | pop k id e s hk hv hid hc hs =>
    change History.Always SenderLaw (_ :: (w.setStore w.rx.store s).log)
    rw [World.setStore_log]
    refine (History.always_cons _ _).mpr ⟨fun hke r hreq => ?_, hi.law⟩
    obtain ⟨pre, post, hrem, hmark, -, hpid, -⟩ := Store.popMarkedBy_spec _ _ _ _ _ hs
    constructor
    · unfold World.rxStore at hrem hmark
      cases hst : w.rx.store with
      | main =>
        rw [hst] at hrem hmark
        have hsent : e ∈ w.mainStore.sent := by
          obtain ⟨mid, hsent, -⟩ := hrem.marked hmark
          change e ∈ (w.store .main).sent
          rw [hsent]
          exact List.mem_append_right _ (List.mem_cons_self ..)
        rw [← hpid]
        exact hi.marks (hc hst) e hsent hke r hreq
      | connect =>
        rw [hst] at hrem
        rcases hw.connect_kind hrem.mem with h | ⟨h, -⟩
        · rw [hke] at h
          contradiction
        · rw [hke] at h
          simp at h
    · intro id' p u hm
      rw [← hpid]
      exact (hr.publish2 hm (hr.stands _ e hrem.mem) hreq).2
  | pubrec e s t hk hv hy hs ht =>
    refine (History.always_cons _ _).mpr ⟨senderLaw_of_isLawful rfl _, ?_⟩
    exact (History.always_cons _ _).mpr ⟨fun h => by contradiction, hi.law⟩
  | answer hcs hk htab hpop =>
    refine answers_law w.decoded _ (hquiet _ rfl) fun hc r id p u hreq hm => ?_
    have hm : .accepted r .publish2 id p u ∈ w.log := by
      rcases List.mem_cons.mp hm with h | h
      · contradiction
      · exact h
    obtain ⟨k, hkind, -⟩ : ∃ k, w.rx.internal.kind = some k ∧ _ := by
      rcases hw.held with hv' | hv'
      · rw [hv'] at hreq
        contradiction
      · exact hv'
    obtain ⟨he | he, -⟩ := hr.publish2 hm (hr.held k hkind) hreq
    · rw [hkind, he] at hk
      contradiction
    · obtain ⟨hty, l, hlog⟩ := hpop (by rw [hkind, he])
      rw [hreq] at hlog
      -- what was popped in this turn was encoded on this connection
      have hlaw := hi.law
      rw [hlog, History.always_cons] at hlaw
      obtain ⟨henc, hids⟩ := hlaw.1 rfl r rfl
      have hid : w.rx.internal.packetId = id := hids id p u (by
        rw [hlog] at hm
        simpa using hm)
      rw [hid] at hlog henc
      refine ⟨l, ?_, ?_⟩
      · change .decoded w.rx.internal.header.type w.rx.internal.packetId :: w.log = _
        rw [hty, hid, hlog]
      · unfold PubrelEncoded at *
        rw [← List.singleton_append] at henc
        exact History.isOpen_append (by simp) henc
  | finalAnswer hcl he =>
    refine answers_law w.calling _ hi.law fun hc r id p u hreq hm => ?_
    rw [show w.calling.closed = w.closed from rfl, hcl] at hc
    contradiction
  | shift s e t hg hf hs =>
    refine answers_law w e.value hi.law fun hc r id p u hreq hm => ?_
    obtain ⟨post, hrem⟩ := Store.shift_spec _ _ _ hs
    cases s with
    | main =>
      rcases hg rfl with hg | hg
      · rw [hi.session] at hg
        contradiction
      · rw [hw.alive hc] at hg
        contradiction
    | connect =>
      obtain ⟨he | he, -⟩ := hr.publish2 hm (hr.stands _ e hrem.mem) hreq
      all_goals
        rcases hw.connect_kind hrem.mem with h | ⟨h, -⟩
        · rw [he] at h
          contradiction
        · rw [he] at h
          simp at h

/- Only a CONNACK changes the kind of the session. -/
theorem session_effect {w w' : World σ} (h : Effect env P w w') (hs : w.cleanSession = false)
    (hc : .connected true ∉ w'.log) : w'.cleanSession = false := by
  cases h with
  | clock | mark | drop | pop | pubrec | ack | shift => simpa [World.emit, World.setRx] using hs
  | connected p =>
    by_contra hn
    exact hc (by simp [show (w.heap.connects p).cleanSession = true by simpa using hn])
  | _ => exact hs

theorem sending_effect {w w' : World σ} (h : Effect env P w w') (hw : Sound w) (hn : env.ndebug = false)
    (hc : .connected true ∉ w'.log) (hd : w'.DistinctIds) (hr : Registered w) (hi : Sending w) : Sending w' := by
  have hm := effect_mainStep h hw
  exact ⟨session_effect h hi.session hc, distinct_step hm hd hi.distinct, passed_step hm hn hr hi.distinct hi.passed,
    marksEncoded_effect h hw hm hi.marks, law_effect h hw hr hi⟩

theorem clientCleared_registered (buffers : ClientBuffers) (heap : Heap) (app : σ) :
    Registered (clientCleared buffers heap app) := by
  refine ⟨fun _ h => by contradiction, fun _ h => by contradiction, fun s e he => ?_, fun k hk => by contradiction⟩
  cases s <;> contradiction

/- The client buffers do not matter. -/
theorem Registered.buffers {w : World σ} (h : Registered w) (readBuf writeBuf : List Byte) :
    Registered { w with readBuf := readBuf, writeBuf := writeBuf } :=
  ⟨h.numbered, h.unique, fun s e he => h.stands s e (by cases s <;> exact he), h.held⟩

/-- Assertions are evaluated, sessions are kept, and ids in flight are distinct. -/
theorem reached_sending (w : World σ) (h : Reached env P w) (hn : env.ndebug = false)
    (hc : .connected true ∉ w.log) (hd : w.DistinctIds) : Sending w := by
  have hinv : Registered w ∧ (.connected true ∉ w.log → w.DistinctIds → Sending w) := by
    refine reached_invariant (I := fun v => Registered v ∧ (.connected true ∉ v.log → v.DistinctIds → Sending v))
      (fun v v' hs he hv => ⟨registered_effect he hv.1, fun hc hd => ?_⟩)
      (fun v b b' hv => ⟨hv.1.buffers b b', fun hc hd => ?_⟩)
      (fun buffers heap app => ⟨clientCleared_registered buffers heap app, fun _ _ => ?_⟩) w h
    · obtain ⟨evs, hl⟩ := effect_log he
      have hsub : ∀ ev ∈ v.log, ev ∈ v'.log := by
        intro ev hev
        rw [hl]
        exact List.mem_append_right _ hev
      exact sending_effect he hs hn hc hd hv.1
        (hv.2 (fun hm => hc (hsub _ hm)) fun r k id p u hm hk => hd r k id p u (hsub _ hm) hk)
    · have hi := hv.2 hc hd
      exact ⟨hi.session, hi.distinct, hi.passed, hi.marks, hi.law⟩
    · refine ⟨rfl, List.nodup_nil, fun e he => by contradiction, fun ho => by contradiction, History.always_nil⟩
  exact hinv.2 hc hd

/- The event encodes a packet for the request. -/
def Event.Encodes (r : ℕ) (kind : Kind) (id : PacketId) (ev : Event) : Prop :=
  ev = .encoded kind id (some r) ∨ ∃ field, ev = .encode kind id (some r) field

/-- Behind the PUBREC of a QoS 2 publish only its PUBREL is encoded, and its
callback succeeds only where a PUBCOMP is decoded whose PUBREL was encoded on
that connection. -/
theorem qos2_sender (w : World σ) (h : Reached env P w) (hn : env.ndebug = false)
    (hc : .connected true ∉ w.log) (hd : w.DistinctIds) (r : ℕ) (id : PacketId) :
    (∀ newer ev older kind id', w.log = newer ++ ev :: older → Handshaken r id older →
      ev.Encodes r kind id' → kind = .pubrel ∧ id' = id) ∧
    ∀ newer older p, w.log = newer ++ .answered .onPublish (some r) p true :: older →
      (∃ q u, .accepted r .publish2 id q u ∈ older) →
      ∃ l, older = .decoded typePubcomp id :: .popped .pubrel id (some r) :: .packetId typePubcomp id :: l ∧
        PubrelEncoded r id l := by
  have hlaw := (reached_sending w h hn hc hd).law
  constructor
  · intro newer ev older kind id' hl hh he
    have hev := hlaw newer ev older hl
    rcases he with rfl | ⟨field, rfl⟩
    · exact hev r id rfl hh
    · exact hev r id rfl hh
  · rintro newer older p hl ⟨q, u, ha⟩
    exact hlaw newer _ older hl r id q u rfl ha

/- A publish: its PUBREC, the loss of the connection, and the rest of the
   exchange on the next one. -/
def senderActs : List (Act Unit) :=
  connectKept ++ [.request (.publish 0), .encode 64, .decode [0x50, 2, 0, 0], .encode 64, .eof] ++
    connectKept ++ [.encode 64, .decode [0x70, 2, 0, 0]]

theorem senderRun_isSome : (runClient memoryEnv anyConnect ⟨8, 64, 64, 4⟩ smallHeap ()
    senderActs).isSome = true := by decide +kernel

theorem qos2_sender_run : ∃ (w : World Unit) (l : List Event), PubrelEncoded 1 0 l ∧
    w.log.drop 2 = .decoded typePubcomp 0 :: .popped .pubrel 0 (some 1) :: .packetId typePubcomp 0 :: l := by
  obtain ⟨w, hw, hc, hd, hans, hacc⟩ : ∃ w : World Unit, Reached memoryEnv (fun _ => True) w ∧
      .connected true ∉ w.log ∧ w.DistinctIds ∧
      w.log = w.log.take 1 ++ .answered .onPublish (some 1) 0 true :: w.log.drop 2 ∧
      .accepted 1 .publish2 0 0 false ∈ w.log.drop 2 :=
    ⟨_, reached_get anyConnect_true _ _ _ _ senderRun_isSome, by decide +kernel⟩
  obtain ⟨l, hl, henc⟩ := (qos2_sender w hw rfl hc hd 1 0).2 _ _ 0 hans ⟨0, false, hacc⟩
  exact ⟨w, l, henc, hl⟩

end LightMqtt
