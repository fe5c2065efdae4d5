import LightMqtt.Sender
import LightMqtt.Turns

/-!
# Exchanges

An accepted QoS 2 publish is in the main store as a PUBREL when its PUBREC was
received, and as a PUBLISH before.
-/

namespace LightMqtt

variable {σ : Type} {env : Env σ} {P : World σ → Prop}

/-- The entries of accepted requests, and the PUBRECs that were received for them. -/
structure Exchanged (w : World σ) : Prop where
  numbered : ∀ k id r, .popped k id (some r) ∈ w.log → r < w.nextReq
  received : ∀ e ∈ w.mainStore.entries, e.kind = .pubrel → ∀ r, e.value.req = some r →
    .popped .publish2 e.value.packetId (some r) ∈ w.log
  waiting : ∀ e ∈ w.mainStore.entries, e.kind ≠ .pubrel → ∀ r id, e.value.req = some r →
    .popped .publish2 id (some r) ∉ w.log

section Exchanged
variable {w w' : World σ} {s : StoreRef} {t : Store} {e : Entry} {pre post : List Entry} {r : ℕ}

/- A request is in one entry. -/
theorem Sound.alone (hw : Sound w) (hrem : Store.Removed (w.store s) pre e post t) (hr : e.value.req = some r) :
    ∀ s', ∀ x ∈ ((w.setStore s t).store s').entries, x.value.req ≠ some r := by
  have htimes : (w.store s).times r = t.times r + if e.value.req = some r then 1 else 0 := Store.times_removed hrem
  have hstored := stored_setStore w r s t
  have hplace := (hw.owed r).place
  rw [if_pos hr] at htimes
  have hnone : (w.setStore s t).stored r = 0 := by omega
  intro s' x hx hxr
  have hpos : 0 < ((w.setStore s t).store s').times r := List.countP_pos_iff.mpr ⟨x, hx, decide_eq_true hxr⟩
  unfold World.stored at hnone
  cases s' with
  | main =>
    change 0 < (w.setStore s t).mainStore.times r at hpos
    omega
  | connect =>
    change 0 < (w.setStore s t).connectStore.times r at hpos
    omega

/- It was made by a call of the API. -/
theorem Sound.numbered (hw : Sound w) (he : e ∈ (w.store s).entries) (hr : e.value.req = some r) : r < w.nextReq := by
  by_contra hn
  have hzero := (hw.owed r).fresh (by omega)
  have hpos : 0 < (w.store s).times r := List.countP_pos_iff.mpr ⟨e, he, decide_eq_true hr⟩
  have hle : (w.store s).times r ≤ w.stored r := by
    unfold World.stored
    cases s with
    | main => exact Nat.le_add_right ..
    | connect => exact Nat.le_add_left ..
  omega

/- A step that takes no request out of a store. -/
theorem Exchanged.frame (h : Exchanged w) (evs : List Event) (hl : w'.log = evs ++ w.log)
    (he : ∀ ev ∈ evs, ∀ k id r, ev ≠ .popped k id (some r)) (hn : w.nextReq ≤ w'.nextReq)
    (hs : ∀ x ∈ w'.mainStore.entries, x ∈ w.mainStore.entries ∨ x.value.req = none ∨
      x.value.req = some w.nextReq ∧ x.kind ≠ .pubrel) : Exchanged w' := by
  have hold : ∀ k id r, .popped k id (some r) ∈ w'.log → .popped k id (some r) ∈ w.log := by
    intro k id r hm
    rw [hl] at hm
    rcases List.mem_append.mp hm with hm | hm
    · exact absurd rfl (he _ hm k id r)
    · exact hm
  refine ⟨fun k id r hm => (h.numbered k id r (hold k id r hm)).trans_le hn, fun x hx hk r hr => ?_,
    fun x hx hk r id hr hm => ?_⟩
  · rcases hs x hx with hx | hx | ⟨-, hx⟩
    · rw [hl]
      exact List.mem_append_right _ (h.received x hx hk r hr)
    · rw [hx] at hr
      contradiction
    · contradiction
  · have hm := hold _ _ _ hm
    rcases hs x hx with hx | hx | ⟨hx, -⟩
    · exact h.waiting x hx hk r id hr hm
    · rw [hx] at hr
      contradiction
    · obtain rfl := Option.some.inj (hx.symm.trans hr)
      exact absurd (h.numbered _ _ _ hm) (lt_irrefl _)

theorem answers_not_popped (w : World σ) (v : Value) : ∀ ev ∈ w.answers v, ∀ k id r, ev ≠ .popped k id (some r) := by
  intro ev hev k id r
  unfold World.answers at hev
  split at hev <;> simp_all

theorem isNote_not_popped {ev : Event} (h : ev.isNote = true) (k : Kind) (id : PacketId) (r : ℕ) :
    ev ≠ .popped k id (some r) := by
  rintro rfl
  contradiction

/- The event of a request that leaves its store. -/
theorem Exchanged.pop (h : Exchanged w) (hw : Sound w) {k : Kind} {id : PacketId} (evs : List Event)
    (hrem : Store.Removed (w.store s) pre e post t) (hl : w'.log = evs ++ .popped k id e.value.req :: w.log)
    (he : ∀ ev ∈ evs, ∀ k id r, ev ≠ .popped k id (some r)) (hn : w'.nextReq = w.nextReq)
    (hs : ∀ x ∈ w'.mainStore.entries, x ∈ ((w.setStore s t).store .main).entries ∨
      x = ⟨.pubrel, e.value⟩ ∧ k = .publish2 ∧ e.value.packetId = id) : Exchanged w' := by
  have hmem : e ∈ (w.store s).entries := by
    rw [hrem.before]
    exact List.mem_append_right _ (List.mem_cons_self ..)
  have hlog : ∀ k' id' r, .popped k' id' (some r) ∈ w'.log →
      e.value.req = some r ∨ .popped k' id' (some r) ∈ w.log := by
    intro k' id' r hm
    rw [hl] at hm
    rcases List.mem_append.mp hm with hm | hm
    · exact absurd rfl (he _ hm k' id' r)
    · rcases List.mem_cons.mp hm with hm | hm
      · exact .inl (Event.popped.inj hm).2.2.symm
      · exact .inr hm
  have hkept : ∀ x ∈ ((w.setStore s t).store .main).entries, x ∈ w.mainStore.entries := by
    intro x hx
    cases s with
    | main => exact hrem.subset hx
    | connect => exact hx
  constructor
  · intro k' id' r hm
    rw [hn]
    rcases hlog k' id' r hm with hr | hm
    · exact hw.numbered hmem hr
    · exact h.numbered k' id' r hm
  · intro x hx hk r hr
    rw [hl]
    refine List.mem_append_right _ ?_
    rcases hs x hx with hx | ⟨rfl, rfl, hid⟩
    · exact List.mem_cons_of_mem _ (h.received x (hkept x hx) hk r hr)
    · have hreq : e.value.req = some r := hr
      rw [hid, hreq]
      exact List.mem_cons_self ..
  · intro x hx hk r id' hr hm
    rcases hs x hx with hx | ⟨rfl, -⟩
    · rcases hlog _ _ r hm with hreq | hm
      · exact hw.alone hrem hreq .main x hx hr
      · exact h.waiting x (hkept x hx) hk r id' hr hm
    · exact hk rfl

theorem exchanged_effect (h : Effect env P w w') (hw : Sound w) (hi : Exchanged w) : Exchanged w' := by
  have hsame : ∀ {w' : World σ}, w'.log = w.log → w'.nextReq = w.nextReq →
      (∀ x ∈ w'.mainStore.entries, x ∈ w.mainStore.entries) → Exchanged w' := fun hl hn hs =>
    hi.frame [] hl (by simp) hn.ge fun x hx => .inl (hs x hx)
  have hlogs : ∀ {w' : World σ} (ev : Event), (∀ k id r, ev ≠ .popped k id (some r)) → w'.log = ev :: w.log →
      w.nextReq ≤ w'.nextReq → (∀ x ∈ w'.mainStore.entries, x ∈ w.mainStore.entries) → Exchanged w' := by
    intro w' ev he hl hn hs
    refine hi.frame [ev] hl (fun ev' hev => ?_) hn fun x hx => .inl (hs x hx)
    rw [List.mem_singleton.mp hev]
    exact he
  have hset : ∀ (r : StoreRef) (s : Store), (∀ x ∈ s.entries, x ∈ (w.store r).entries) →
      ∀ x ∈ (w.setStore r s).mainStore.entries, x ∈ w.mainStore.entries := by
    intro r s hs x hx
    cases r with
    | main => exact hs x hx
    | connect => exact hx
  cases h with
  | app | heap | txClosed | tx | rx | remember | release | clearIds | detached | ready | failed =>
    exact hsame rfl rfl fun x hx => hx
  | timeout | nextId | opened => exact hsame rfl rfl fun x hx => hx
  | clock r => exact hsame (World.setStore_log ..) (World.setStore_nextReq ..) (hset r _ fun x hx => hx)
  | note e he => exact hlogs e (isNote_not_popped he) rfl le_rfl fun x hx => hx
  | encode | deliver | deliverOnce | initial | connected | finish | pubrecLost | connack =>
    exact hlogs _ (by simp) rfl le_rfl fun x hx => hx
  | connecting => exact hlogs _ (by simp) rfl (Nat.le_succ _) fun x hx => hx
  | answer =>
    refine hi.frame _ (decoded_answered_log w _) (fun ev hev => ?_) le_rfl fun x hx => .inl hx
    rcases List.mem_append.mp hev with hev | hev
    · exact answers_not_popped w _ ev hev
    · rw [List.mem_singleton.mp hev]
      simp
  | finalAnswer => exact hi.frame _ rfl (answers_not_popped w.calling _) le_rfl fun x hx => .inl hx
  | accept kind id p s hk ho hs =>
    refine hi.frame [_] rfl (by simp) (Nat.le_succ _) fun x hx => ?_
    change x ∈ s.entries at hx
    rw [(Store.append_spec _ _ _ hs).entries, List.mem_append, List.mem_singleton] at hx
    rcases hx with hx | rfl
    · exact .inl hx
    · refine .inr (.inr ⟨rfl, ?_⟩)
      rintro rfl
      contradiction
  | enqueue kind s hk hs =>
    refine hi.frame [] rfl (by simp) le_rfl fun x hx => ?_
    change x ∈ s.entries at hx
    rw [(Store.append_spec _ _ _ hs).entries, List.mem_append, List.mem_singleton] at hx
    rcases hx with hx | rfl
    · exact .inl hx
    · exact .inr (.inl rfl)
  | ack e s he hs =>
    refine hi.frame [] (World.setStore_log ..) (by simp) (World.setStore_nextReq ..).ge fun x hx => ?_
    cases hr : w.rx.store with
    | connect =>
      rw [hr] at hx
      exact .inl hx
    | main =>
      rw [hr] at hx
      change x ∈ s.entries at hx
      rw [(Store.append_spec _ _ _ hs).entries, List.mem_append, List.mem_singleton] at hx
      rcases hx with hx | rfl
      · rw [World.rxStore, hr] at hx
        exact .inl hx
      · exact .inr (.inl he.req)
  | mark e hp hr =>
    obtain ⟨tl, hpend⟩ := Store.pending_of_peek hp
    refine hlogs _ (by simp) (congrArg (_ :: ·) (World.setStore_log ..)) (World.setStore_nextReq ..).ge ?_
    refine hset _ _ fun x hx => ?_
    rwa [(Store.markCurrent_spec _ _ _ hpend).1] at hx
  | drop e hp hr =>
    obtain ⟨tl, hpend⟩ := Store.pending_of_peek hp
    have hrem := Store.dropCurrent_spec _ _ _ hpend
    refine hi.frame (w.answers e.value ++ [.encoded e.kind e.value.packetId e.value.req]) (by simp) (fun ev hev => ?_)
      (World.setStore_nextReq ..).ge fun x hx => .inl ?_
    · rcases List.mem_append.mp hev with hev | hev
      · exact answers_not_popped w _ ev hev
      · rw [List.mem_singleton.mp hev]
        simp
    · exact hset _ _ (fun y hy => hrem.subset hy) x hx
  | shift r e s hr hf hs =>
    obtain ⟨post, hrem⟩ := Store.shift_spec _ _ _ hs
    exact hi.frame _ rfl (answers_not_popped w _) (World.setStore_nextReq ..).ge fun x hx =>
      .inl (hset _ _ (fun y hy => hrem.subset hy) x hx)
  | sessionless hc => exact hsame rfl rfl fun x hx => (deleteSessionless_spec _ _ _ x).1 hx
  | pop k id e s hk hv hii hc hs =>
    obtain ⟨pre, post, hrem, -⟩ := Store.popMarkedBy_spec _ _ _ _ _ hs
    refine hi.pop hw [] hrem (congrArg (_ :: ·) (World.setStore_log ..)) (by simp) (World.setStore_nextReq ..)
      fun x hx => .inl ?_
    exact hx
  | pubrec e s t hk hv hy hs ht =>
    obtain ⟨pre, post, hrem, -, -, hid, -⟩ := Store.popMarkedBy_spec _ _ _ _ _ hs
    refine hi.pop hw [_] hrem rfl (by simp) (World.setStore_nextReq ..) fun x hx => ?_
    have happ := (Store.append_spec _ _ _ ht).entries
    cases hr : w.rx.store with
    | connect =>
      left
      change x ∈ (w.setStore w.rx.store t).mainStore.entries at hx
      rw [hr] at hx
      exact hx
    | main =>
      change x ∈ (w.setStore w.rx.store t).mainStore.entries at hx
      rw [hr] at hx
      change x ∈ t.entries at hx
      rw [happ, List.mem_append, List.mem_singleton] at hx
      rcases hx with hx | rfl
      · exact .inl hx
      · exact .inr ⟨rfl, rfl, hid⟩

end Exchanged

/-- In every state of a run. -/
theorem stepped_exchanged {C : World σ → Step σ → Prop} (w : World σ) (h : Stepped env C w) : Exchanged w := by
  obtain ⟨-, buffers, heap, app, hc⟩ := stepped_effects w h
  refine hc.invariant (fun v v' hv he hi => exchanged_effect he hv hi) (fun v readBuf writeBuf hi => ?_)
    (clientCleared_sound buffers heap app) ?_
  · exact ⟨hi.numbered, hi.received, hi.waiting⟩
  · exact ⟨fun _ _ _ hm => by contradiction, fun _ hx => by contradiction, fun _ hx => by contradiction⟩

end LightMqtt
