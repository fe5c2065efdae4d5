import LightMqtt.PacketOrder
import LightMqtt.Sender

/-!
# The DUP flag

`publish_build_fixed_header` takes the DUP flag from `encode_count`. The counter is
part of the object of the application, and every PUBLISH of the object counts.
-/

namespace LightMqtt

open Exec

variable {σ : Type} {env : Env σ} {P : World σ → Prop}

/-! ### The first byte of a PUBLISH -/

section FirstByte
variable {b : Publish}

theorem publishFirstByte_eq (hq : b.qos ≤ 2) : ∃ r c : Bool, ∃ q : Fin 3, q.val = b.qos ∧ (c = true ↔ 0 < b.encodeCount) ∧
    publishFirstByte b = UInt8.ofNat (typePublish * 16 ||| (if r then 1 else 0) ||| q.val <<< 1 ||| if c then 8 else 0) := by
  refine ⟨b.retain, decide (0 < b.encodeCount), ⟨b.qos, by omega⟩, rfl, by simp, ?_⟩
  simp only [publishFirstByte, decide_eq_true_eq]

/- The flags, and what `fixed_header_decode` makes of them. -/
theorem publishFirstByte_flags (hq : b.qos ≤ 2) : ((publishFirstByte b).toNat &&& 8 = 0 ↔ b.encodeCount = 0) ∧
    ((publishFirstByte b).toNat &&& 6 = 0 ↔ b.qos = 0) ∧
    ((fixedHeaderDecode {} (publishFirstByte b)).2.1 = .continue ↔ b.qos ≠ 0 ∨ b.encodeCount = 0) := by
  obtain ⟨r, c, q, hval, hcount, hb⟩ := publishFirstByte_eq hq
  have hzero : b.encodeCount = 0 ↔ c = false := by
    rw [← Bool.not_eq_true, hcount]
    omega
  rw [hb, ← hval, hzero]
  clear hb hval hcount hzero
  revert r c q
  decide

end FirstByte

/-! ### Stored and encoded messages -/

/- An accepted PUBLISH of the object `p` was encoded to its end behind the events `older`. -/
def World.PublishEncoded (w : World σ) (p : Ptr) (older : List Event) : Prop :=
  ∃ newer, w.log = newer ++ older ∧
    ∃ r kind id u, kind.isPublish = true ∧ .accepted r kind id p u ∈ w.log ∧ .encoded kind id (some r) ∈ newer

/- The entry was encoded to its end before. -/
def World.Resends (w : World σ) (e : Entry) : Prop := .encoded e.kind e.value.packetId e.value.req ∈ w.log

/-- What the application wrote last to the `encode_count` of an object, and what had
happened by then. -/
structure Written where
  count : ℕ
  log : List Event := []

/-- The states of a run in which the application writes to its objects as it likes,
also to the `encode_count` of one, and while PUBLISHes with it are in the store. `last`
is its last write to each object. -/
inductive Rewritten (env : Env σ) : (Ptr → Written) → World σ → Prop
  | start (buffers : ClientBuffers) (heap : Heap) (app : σ) (w : World σ)
    (h : lmqttClientInitialize env (clientCleared buffers heap app) = .ok () w) :
    Rewritten env (fun p => { count := (heap.publishes p).encodeCount }) w
  | step (last : Ptr → Written) (w w' : World σ) (s : Step σ) (hw : Rewritten env last w)
    (hs : s.Enabled (fun _ => True) w) (h : s.run env w = .ok () w') : Rewritten env last w'
  | write (last : Ptr → Written) (w : World σ) (p : Ptr) (b : Publish) (hw : Rewritten env last w) (hb : b.qos ≤ 2) :
    Rewritten env (Function.update last p ⟨b.encodeCount, w.log⟩) { w with heap := w.heap.setPublish p b }

/-- The first byte of the PUBLISH `e`: DUP marks redelivery, and not of a QoS 0
message, so that the byte is accepted. -/
structure DupSound (w : World σ) (e : Entry) (b : Byte) : Prop where
  redelivery : b.toNat &&& 8 ≠ 0 → w.Resends e
  once : b.toNat &&& 6 = 0 → b.toNat &&& 8 = 0
  accepted : (fixedHeaderDecode {} b).2.1 = .continue

/-! ### Effects -/

theorem Kind.Suits.qos {k : Kind} {b : Publish} (h : k.Suits b) (hk : k.isPublish = true) : b.qos ≤ 2 := by
  cases k with
  | publish0 | publish1 | publish2 =>
    obtain ⟨-, hq⟩ := h
    exact hq.trans_le (by decide)
  | _ => contradiction

/-- What is known of the PUBLISHes in the store: the QoS of their objects is one, and
they were accepted. -/
structure Sourced (w : World σ) : Prop where
  qos : ∀ e ∈ w.mainStore.entries, e.kind.isPublish = true → (w.heap.publishes e.value.value).qos ≤ 2
  accepted : ∀ e ∈ w.mainStore.entries, e.kind.isPublish = true →
    ∃ r u, e.value.req = some r ∧ .accepted r e.kind e.value.packetId e.value.value u ∈ w.log

/- A store is replaced by one with none but some of its entries. -/
theorem mainStore_of_setStore {w : World σ} {r : StoreRef} {s : Store} {e : Entry}
    (hs : e ∈ s.entries → e ∈ (w.store r).entries) (he : e ∈ (w.setStore r s).mainStore.entries) :
    e ∈ w.mainStore.entries := by
  cases r with
  | main => exact hs he
  | connect => exact he

theorem sourced_effect {w w' : World σ} (h : Effect env P w w') (hs : Sourced w) : Sourced w' := by
  obtain ⟨evs, hlog⟩ := effect_log h
  -- no PUBLISH is new in the store
  have hkeep : (∀ e ∈ w'.mainStore.entries, e.kind.isPublish = true → e ∈ w.mainStore.entries) → w'.heap = w.heap →
      Sourced w' := by
    intro hmem hheap
    refine ⟨fun e he hk => ?_, fun e he hk => ?_⟩
    · rw [hheap]
      exact hs.qos e (hmem e he hk) hk
    · obtain ⟨r, u, hr, ha⟩ := hs.accepted e (hmem e he hk) hk
      refine ⟨r, u, hr, ?_⟩
      rw [hlog]
      exact List.mem_append_right _ ha
  have hset : ∀ {r : StoreRef} {s : Store}, (∀ e ∈ s.entries, e.kind.isPublish = true → e ∈ (w.store r).entries) →
      ∀ e ∈ (w.setStore r s).mainStore.entries, e.kind.isPublish = true → e ∈ w.mainStore.entries :=
    fun hsub e he hk => mainStore_of_setStore (fun hx => hsub e hx hk) he
  cases h with
  | heap h hc hp hq => exact ⟨fun e he hk => (hq _).trans_le (hs.qos e he hk), hs.accepted⟩
  | clock r => exact hkeep (hset fun e he _ => he) (by simp)
  | accept kind id p s hk ho happ hp =>
    have hentries := (Store.append_spec _ _ _ happ).entries
    refine ⟨fun e he hke => ?_, fun e he hke => ?_⟩
    · change e ∈ s.entries at he
      rw [hentries, List.mem_append, List.mem_singleton] at he
      rcases he with he | rfl
      · exact hs.qos e he hke
      · exact hp.qos hke
    · change e ∈ s.entries at he
      rw [hentries, List.mem_append, List.mem_singleton] at he
      rcases he with he | rfl
      · obtain ⟨r, u, hr, ha⟩ := hs.accepted e he hke
        exact ⟨r, u, hr, List.mem_cons_of_mem _ ha⟩
      · exact ⟨w.nextReq, _, rfl, List.mem_cons_self ..⟩
  | enqueue kind s hk happ =>
    refine hkeep (fun e he hke => ?_) rfl
    change e ∈ s.entries at he
    rw [(Store.append_spec _ _ _ happ).entries, List.mem_append, List.mem_singleton] at he
    rcases he with he | rfl
    · exact he
    · rcases hk with rfl | rfl <;> contradiction
  | ack x s hx happ =>
    refine hkeep (hset fun e he hke => ?_) (by simp)
    rw [(Store.append_spec _ _ _ happ).entries, List.mem_append, List.mem_singleton] at he
    rcases he with he | rfl
    · exact he
    · rcases hx.1 with hk | hk | hk <;> rw [hk] at hke <;> contradiction
  | mark e hp hr =>
    obtain ⟨rest, hpend⟩ := Store.pending_of_peek hp
    refine hkeep (hset fun x hx _ => ?_) (by simp [World.emit])
    rwa [(Store.markCurrent_spec _ _ _ hpend).1] at hx
  | drop e hp hr =>
    obtain ⟨rest, hpend⟩ := Store.pending_of_peek hp
    exact hkeep (hset fun x hx _ => (Store.dropCurrent_spec _ _ _ hpend).subset hx) (by simp)
  | pop k id e s hk hv hi hc hpop =>
    obtain ⟨pre, post, hrem, -⟩ := Store.popMarkedBy_spec _ _ _ _ _ hpop
    exact hkeep (hset fun x hx _ => hrem.subset hx) (by simp [World.emit, World.setRx])
  | pubrec e s t hk hv hy hpop happ =>
    obtain ⟨pre, post, hrem, -⟩ := Store.popMarkedBy_spec _ _ _ _ _ hpop
    refine hkeep (hset fun x hx hkx => ?_) (by simp [World.setRx])
    rw [(Store.append_spec _ _ _ happ).entries, List.mem_append, List.mem_singleton] at hx
    rcases hx with hx | rfl
    · exact hrem.subset hx
    · contradiction
  | sessionless hc => exact hkeep (fun e he _ => (deleteSessionless_spec _ _ _ e).1 he) rfl
  | shift r e s hr hf hsh =>
    obtain ⟨post, hrem⟩ := Store.shift_spec _ _ _ hsh
    exact hkeep (hset fun x hx _ => hrem.subset hx) (by simp)
  | _ => exact hkeep (fun e he _ => he) rfl

/-! ### Runs -/

/- A write of the application to one of its objects. -/
theorem Live.write {w : World σ} (hw : Live w) (h : Heap) : Live { w with heap := h } := by
  have hs := hw.sound
  refine ⟨⟨⟨hs.entries, hs.held, hs.rxStore, hs.txStore, hs.connectable, hs.alive⟩, ?_, fun r => ?_, hs.calledOnce⟩,
    hw.shape, hw.requests⟩
  · exact hs.phase.keep rfl rfl rfl rfl id le_rfl
  · exact (hs.owed r).quiet le_rfl rfl rfl (fun h => ⟨h, le_rfl⟩) fun h => .inl h

variable {last : Ptr → Written}

theorem rewritten_live {w : World σ} (h : Rewritten env last w) : Live w := by
  induction h with
  | start buffers heap app w h => exact (start_spec (P := fun _ => True) h).2
  | step last w w' s hw hs h ih => exact (wp_ok (step_spec w s ih hs) h).2
  | write last w p b hw hb ih => exact ih.write _

theorem changes_sourced {w w' : World σ} (h : Changes env P w w') (hs : Sound w) (hw : Sourced w ∧ Registered w) :
    Sourced w' ∧ Registered w' :=
  h.invariant (I := fun v => Sourced v ∧ Registered v)
    (fun _ _ _ hv hi => ⟨sourced_effect hv hi.1, registered_effect hv hi.2⟩)
    (fun _ b b' hi => ⟨⟨hi.1.qos, hi.1.accepted⟩, hi.2.buffers b b'⟩) hs hw

theorem rewritten_sourced {w : World σ} (h : Rewritten env last w) : Sourced w ∧ Registered w := by
  induction h with
  | start buffers heap app w h =>
    refine changes_sourced (start_spec (P := fun _ => True) h).1 (clientCleared_sound buffers heap app)
      ⟨⟨?_, ?_⟩, clientCleared_registered buffers heap app⟩
    · intro e he
      contradiction
    · intro e he
      contradiction
  | step last w w' s hw hs h ih =>
    have hlive := rewritten_live hw
    exact changes_sourced (wp_ok (step_spec w s hlive hs) h).1 hlive.sound ih
  | write last w p b hw hb ih =>
    obtain ⟨hs, hr⟩ := ih
    refine ⟨⟨fun e he hk => ?_, hs.accepted⟩,
      ⟨hr.numbered, hr.unique, fun r e he => hr.stands r e (by cases r <;> exact he), hr.held⟩⟩
    simp only [Heap.setPublish, Function.update_apply]
    split
    · exact hb
    · exact hs.qos e he hk

/-! ### What the counter counts -/

/-- Who was encoded: every PUBLISH that was encoded had been accepted, and the counter
of an object stands for what the application wrote to it last, and for the PUBLISHes
with the object since then. -/
structure Counted (last : Ptr → Written) (w : World σ) : Prop where
  source : ∀ kind id req, kind.isPublish = true → .encoded kind id req ∈ w.log →
    ∃ r p u, req = some r ∧ .accepted r kind id p u ∈ w.log
  since : ∀ p, (last p).log <:+ w.log
  count : ∀ p, 0 < (w.heap.publishes p).encodeCount ↔ 0 < (last p).count ∨ w.PublishEncoded p (last p).log

theorem encodeCount_still {h h' : Heap} (hs : h'.still = h.still) (p : Ptr) :
    (h'.publishes p).encodeCount = (h.publishes p).encodeCount := by
  have hp : (h'.publishes p).still = (h.publishes p).still := congrFun (congrArg Heap.publishes hs) p
  have hc := congrArg Publish.encodeCount hp
  exact hc

/- No PUBLISH is encoded to its end. -/
theorem Counted.quiet {w w' : World σ} (h : Counted last w) (hr : Registered w') (evs : List Event)
    (hl : w'.log = evs ++ w.log) (he : ∀ kind id req, kind.isPublish = true → .encoded kind id req ∉ evs)
    (hc : ∀ p, (w'.heap.publishes p).encodeCount = (w.heap.publishes p).encodeCount) : Counted last w' := by
  have hold : ∀ kind id req, kind.isPublish = true → .encoded kind id req ∈ w'.log → .encoded kind id req ∈ w.log := by
    intro kind id req hk hm
    rw [hl] at hm
    exact (List.mem_append.mp hm).resolve_left (he kind id req hk)
  have hgrow : ∀ ev ∈ w.log, ev ∈ w'.log := by
    intro ev hm
    rw [hl]
    exact List.mem_append_right _ hm
  refine ⟨fun kind id req hk hm => ?_, fun p => ?_, fun p => ?_⟩
  · obtain ⟨r, p, u, hreq, ha⟩ := h.source kind id req hk (hold kind id req hk hm)
    exact ⟨r, p, u, hreq, hgrow _ ha⟩
  · exact (h.since p).trans ⟨evs, hl.symm⟩
  obtain ⟨newer, hnewer⟩ := h.since p
  have hlog : w'.log = (evs ++ newer) ++ (last p).log := by
    rw [hl, ← hnewer, List.append_assoc]
  rw [hc p, h.count p]
  apply or_congr_right
  constructor
  · rintro ⟨newer', hn, r, kind, id, u, hk, ha, hm⟩
    have hsame : newer' = newer := List.append_cancel_right (hn.symm.trans hnewer.symm)
    rw [hsame] at hm
    exact ⟨_, hlog, r, kind, id, u, hk, hgrow _ ha, List.mem_append_right _ hm⟩
  · -- the request was accepted before it was encoded
    rintro ⟨newer', hn, r, kind, id, u, hk, ha, hm⟩
    have hsame : newer' = evs ++ newer := List.append_cancel_right (hn.symm.trans hlog)
    rw [hsame] at hm
    have hm := (List.mem_append.mp hm).resolve_left (he kind id _ hk)
    have hmem : .encoded kind id (some r) ∈ w.log := by
      rw [← hnewer]
      exact List.mem_append_left _ hm
    obtain ⟨r', p', u', hreq, ha'⟩ := h.source kind id _ hk hmem
    cases hreq
    cases hr.unique _ ha _ (hgrow _ ha') rfl rfl
    exact ⟨newer, hnewer.symm, r, kind, id, u, hk, ha', hm⟩

/- The PUBLISH that is encoded to its end counts for its object. -/
theorem encodeCount_counted (h : Heap) (e : Entry) (p : Ptr) : ((h.counted e).publishes p).encodeCount =
    (h.publishes p).encodeCount + if e.kind.isPublish = true ∧ e.value.value = p then 1 else 0 := by
  by_cases hp : e.kind.isPublish = true ∧ e.value.value = p
  · obtain ⟨hk, rfl⟩ := hp
    rw [if_pos ⟨hk, rfl⟩]
    unfold Heap.counted
    cases hkind : e.kind <;> rw [hkind] at hk <;> first
      | contradiction
      | simp only [Heap.setPublish, Function.update_self]
  · rw [if_neg hp, counted_publishes h e p (fun hk heq => hp ⟨hk, heq⟩)]
    rfl

/- A PUBLISH is sent from the main store. -/
theorem publish_mem {w : World σ} {e : Entry} (hw : Sound w) (hp : w.txStore.peek = some e)
    (hk : e.kind.isPublish = true) : e ∈ w.mainStore.entries := by
  have hmem := List.mem_of_getElem? hp
  cases hts : w.tx.store with
  | main =>
    rw [World.txStore, hts] at hmem
    exact hmem
  | connect =>
    rw [World.txStore, hts] at hmem
    rcases (hw.entries .connect e hmem).2 with hc | ⟨hc | hc | hc, -⟩ <;> rw [hc] at hk <;> contradiction

theorem departed_counted {w : World σ} {e : Entry} (hw : Sound w) (hs : Sourced w) (hr : Registered w)
    (hp : w.txStore.peek = some e) (h : Counted last w) : Counted last (w.departed e) := by
  have hlog : (w.departed e).log = .encoded e.kind e.value.packetId e.value.req :: w.log := World.setStore_log _ _ _
  have hcount : ∀ p, ((w.departed e).heap.publishes p).encodeCount =
      (w.heap.publishes p).encodeCount + if e.kind.isPublish = true ∧ e.value.value = p then 1 else 0 :=
    encodeCount_counted w.heap e
  have hacc : e.kind.isPublish = true →
      ∃ r u, e.value.req = some r ∧ .accepted r e.kind e.value.packetId e.value.value u ∈ w.log :=
    fun hk => hs.accepted e (publish_mem hw hp hk) hk
  refine ⟨fun kind id req hk hm => ?_, fun p => ?_, fun p => ?_⟩
  · rw [hlog, List.mem_cons] at hm
    rw [hlog]
    rcases hm with heq | hm
    · obtain ⟨rfl, rfl, rfl⟩ := Event.encoded.inj heq
      obtain ⟨r, u, hreq, ha⟩ := hacc hk
      exact ⟨r, _, u, hreq, List.mem_cons_of_mem _ ha⟩
    · obtain ⟨r, p, u, hreq, ha⟩ := h.source kind id req hk hm
      exact ⟨r, p, u, hreq, List.mem_cons_of_mem _ ha⟩
  · rw [hlog]
    exact (h.since p).trans (List.suffix_cons _ _)
  rw [hcount p]
  obtain ⟨newer, hnewer⟩ := h.since p
  have hlater : (w.departed e).log = (.encoded e.kind e.value.packetId e.value.req :: newer) ++ (last p).log := by
    rw [hlog, ← hnewer]
    rfl
  have hgrow : w.PublishEncoded p (last p).log → (w.departed e).PublishEncoded p (last p).log := by
    rintro ⟨newer', hn, r, kind, id, u, hk, ha, hm⟩
    have hsame : newer' = newer := List.append_cancel_right (hn.symm.trans hnewer.symm)
    rw [hsame] at hm
    refine ⟨_, hlater, r, kind, id, u, hk, ?_, List.mem_cons_of_mem _ hm⟩
    rw [hlog]
    exact List.mem_cons_of_mem _ ha
  by_cases hpe : e.kind.isPublish = true ∧ e.value.value = p
  · obtain ⟨hk, rfl⟩ := hpe
    obtain ⟨r, u, hreq, ha⟩ := hacc hk
    have hsent : (w.departed e).PublishEncoded e.value.value (last e.value.value).log := by
      refine ⟨_, hlater, r, e.kind, e.value.packetId, u, hk, ?_, ?_⟩
      · rw [hlog]
        exact List.mem_cons_of_mem _ ha
      · rw [hreq]
        exact List.mem_cons_self ..
    rw [if_pos ⟨hk, rfl⟩]
    exact ⟨fun _ => .inr hsent, fun _ => Nat.succ_pos _⟩
  · rw [if_neg hpe, Nat.add_zero, h.count p]
    refine or_congr_right ⟨hgrow, ?_⟩
    rintro ⟨newer', hn, r, kind, id, u, hk, ha, hm⟩
    have hsame : newer' = .encoded e.kind e.value.packetId e.value.req :: newer :=
      List.append_cancel_right (hn.symm.trans hlater)
    rw [hsame, List.mem_cons] at hm
    rw [hlog, List.mem_cons] at ha
    have ha := ha.resolve_left (by simp)
    rcases hm with heq | hm
    · -- the request that is sent now has another object
      obtain ⟨rfl, rfl, hreq⟩ := Event.encoded.inj heq
      obtain ⟨r', u', hreq', ha'⟩ := hacc hk
      cases hreq.trans hreq'
      cases hr.unique _ ha _ ha' rfl rfl
      exact absurd ⟨hk, rfl⟩ hpe
    · exact ⟨newer, hnewer.symm, r, kind, id, u, hk, ha, hm⟩

/- A step that encodes no entry to its end. -/
structure Idle (w w' : World σ) : Prop where
  heap : w'.heap.still = w.heap.still
  log : Logged (fun ev => ∀ kind id req, ev ≠ .encoded kind id req) w w'

theorem Event.not_encoded_of_inner {ev : Event} (h : ev.isInner = true) (kind : Kind) (id : PacketId) (req : Option ℕ) :
    ev ≠ .encoded kind id req := by
  rintro rfl
  contradiction

theorem Still.idle {w w' : World σ} (h : Still w w') : Idle w w' :=
  ⟨h.heap, h.log.mono fun _ => Event.not_encoded_of_inner⟩

/- Where the objects were not touched, the encoder says what was encoded. -/
theorem Logged.idle {w w' : World σ} {s : Step σ} (h : Logged (Cause w s) w w') (hs : ∀ bufLen, s ≠ .send bufLen)
    (hh : w'.heap.still = w.heap.still) : Idle w w' := by
  refine ⟨hh, h.mono ?_⟩
  rintro ev hev kind id req rfl
  cases hev with
  | other _ _ hn => contradiction
  | sent bufLen => exact hs bufLen rfl

theorem Deed.objects {w w' : World σ} {bs : List Byte} (h : Deed env bs w w') : w'.heap.still = w.heap.still := by
  cases h with
  | still _ _ h => exact h.heap
  | publish t res _ ht h =>
    refine Eq.trans ?_ ht.heap
    cases h with
    | known _ _ h | full _ _ _ _ _ h => exact h.heap
    | taken s u v x _ hu hv hx h =>
      have hxv : x.heap = v.heap := by
        rcases hx with rfl | ⟨b, rfl⟩
        · rfl
        · rfl
      rw [h.heap, hxv, hv.heap]
      exact hu.heap
  | pubrel t _ _ ht h _ => exact h.heap.trans ht.heap
  | connack t e s _ ht _ _ h =>
    have htw : w'.heap = t.heap := by
      rw [h]
      exact World.setStore_heap _ _ _
    rw [htw]
    exact ht.heap
  | opened _ _ _ _ _ h =>
    obtain ⟨t, u, ht, hu, h⟩ := h
    have hut : u.heap = t.heap := by rw [hu.same]
    rw [h.heap, hut]
    exact ht.heap

theorem Does.idle {w w' : World σ} {s : Step σ} (h : Does env w s w') : Idle w w' ∨
    ∃ e, w.txStore.peek = some e ∧ EntrySent w e w' := by
  have hcauses := h.causes
  cases h with
  | still h _ => exact .inl h.toStill.idle
  | deed h => exact .inl (hcauses.idle (by simp) h.objects)
  | field e _ _ h => exact .inl ⟨h.heap, .one (by rw [h.same]) (by simp)⟩
  | entry e _ hp h => exact .inr ⟨e, hp, h⟩
  | connecting | failed => exact .inl (hcauses.idle (by simp) rfl)
  | reverted _ h => exact .inl (hcauses.idle (by simp) (by rw [h.same]))
  | finalized h => exact .inl (hcauses.idle (by simp) (by rw [h.same]))

theorem Does.counted {w w' : World σ} {s : Step σ} (hw : Sound w) (hs : Sourced w) (hr : Registered w)
    (hr' : Registered w') (h : Does env w s w') (hc : Counted last w) : Counted last w' := by
  rcases h.idle with hi | ⟨e, hp, u, hu, hw'⟩
  · obtain ⟨evs, hl, hne⟩ := hi.log
    exact hc.quiet hr' evs hl (fun kind id req _ hm => hne _ hm kind id req rfl) (encodeCount_still hi.heap)
  · have hd := departed_counted hw hs hr hp hc
    have hi := hu.toStill.idle
    obtain ⟨evs, hl, hne⟩ := hi.log
    have hlog : w'.log = u.log := by rw [hw']
    have hheap : w'.heap = u.heap := by rw [hw']
    refine hd.quiet hr' evs (hlog.trans hl) (fun kind id req _ hm => hne _ hm kind id req rfl) fun p => ?_
    rw [hheap]
    exact encodeCount_still hi.heap p

theorem rewritten_counted {w : World σ} (h : Rewritten env last w) : Counted last w := by
  induction h with
  | start buffers heap app w h =>
    have hr := start_reverted h
    have hzero : Counted (fun p => { count := (heap.publishes p).encodeCount }) (clientCleared buffers heap app) := by
      refine ⟨fun kind id req _ hm => by contradiction, fun p => List.nil_suffix, fun p => ?_⟩
      constructor
      · exact .inl
      · rintro (hp | ⟨newer, hn, r, kind, id, u, -, hm, -⟩)
        · exact hp
        · contradiction
    obtain ⟨evs, hl, hin⟩ := hr.log
    have hreg := (rewritten_sourced (.start buffers heap app w h)).2
    refine hzero.quiet hreg (evs ++ [.closed]) (by rw [hl, List.append_assoc]; rfl) (fun kind id req _ hm => ?_)
      fun p => by rw [hr.same]
    rcases List.mem_append.mp hm with hm | hm
    · exact Event.not_encoded_of_inner (hin _ hm) kind id req rfl
    · simp at hm
  | step last w w' s hw hs h ih =>
    have hlive := rewritten_live hw
    obtain ⟨hsrc, hreg⟩ := rewritten_sourced hw
    have hreg' := (rewritten_sourced (.step last w w' s hw hs h)).2
    exact (wp_ok (step_does w s hlive hs) h).counted hlive.sound hsrc hreg hreg' ih
  | write last w p b hw hb ih =>
    refine ⟨ih.source, fun q => ?_, fun q => ?_⟩
    · rw [Function.update_apply]
      split
      · exact List.suffix_rfl
      · exact ih.since q
    · simp only [Heap.setPublish, Function.update_apply]
      by_cases heq : q = p
      · rw [if_pos heq, if_pos heq]
        refine ⟨.inl, ?_⟩
        rintro (hc | ⟨newer, hn, r, kind, id, u, -, -, hm⟩)
        · exact hc
        · have hnil : newer = [] := List.append_left_eq_self.mp hn.symm
          rw [hnil] at hm
          contradiction
      · rw [if_neg heq, if_neg heq]
        exact ih.count q

/-! ### Redelivery -/

theorem publishBuildFixedHeader_first {w t : World σ} {v : Value} {bytes : List Byte}
    (h : publishBuildFixedHeader env v w = .ok bytes t) : bytes.headD 0 = publishFirstByte (w.heap.publishes v.value) := by
  have h := ok_get_bind h
  obtain ⟨⟨⟩, u, -, h⟩ := ok_bind h
  obtain ⟨digits, x, -, h⟩ := ok_bind h
  rw [← (ok_pure h).1]
  rfl

/-- The DUP flag of the PUBLISH the encoder stands at is right if and only if it is a
redelivery with QoS 1 or 2, or `encode_count` was 0 when the application wrote to it last
and no PUBLISH of the object was encoded since then. -/
theorem dup_marks_redelivery {w t : World σ} (h : Rewritten env last w) {e : Entry} (hp : w.txStore.peek = some e)
    (hk : e.kind.isPublish = true) {bytes : List Byte} (hb : publishBuildFixedHeader env e.value w = .ok bytes t) :
    DupSound w e (bytes.headD 0) ↔ w.Resends e ∧ (w.heap.publishes e.value.value).qos ≠ 0 ∨
      (last e.value.value).count = 0 ∧ ¬ w.PublishEncoded e.value.value (last e.value.value).log := by
  have hmem := publish_mem (rewritten_live h).sound hp hk
  rw [publishBuildFixedHeader_first hb]
  have hcount := (rewritten_counted h).count e.value.value
  obtain ⟨hdup, hqos, hacc⟩ := publishFirstByte_flags ((rewritten_sourced h).1.qos e hmem hk)
  have hfirst : (last e.value.value).count = 0 ∧ ¬ w.PublishEncoded e.value.value (last e.value.value).log ↔
      (w.heap.publishes e.value.value).encodeCount = 0 := by
    rw [Nat.pos_iff_ne_zero, Nat.pos_iff_ne_zero] at hcount
    tauto
  rw [hfirst]
  constructor
  · intro hd
    by_cases hz : (w.heap.publishes e.value.value).encodeCount = 0
    · exact .inr hz
    · exact .inl ⟨hd.redelivery fun h0 => hz (hdup.mp h0), fun h0 => hz (hdup.mp (hd.once (hqos.mpr h0)))⟩
  · rintro (⟨hres, hne⟩ | hz)
    · exact ⟨fun _ => hres, fun h0 => absurd (hqos.mp h0) hne, hacc.mpr (.inl hne)⟩
    · exact ⟨fun hn => absurd (hdup.mpr hz) hn, fun _ => hdup.mpr hz, hacc.mpr (.inr hz)⟩

/-! ### An object that is used again -/

section Runs
variable {c : World σ → Step σ → Bool}

theorem rewritten_get (buffers : ClientBuffers) (heap : Heap) (app : σ) (ss : List (Step σ))
    (h : (runClientSteps env c buffers heap app ss).isSome = true) :
    Rewritten env (fun p => { count := (heap.publishes p).encodeCount })
        ((runClientSteps env c buffers heap app ss).get h) := by
  obtain ⟨w, hw⟩ := Option.isSome_iff_exists.mp h
  simp only [hw, Option.get_some]
  unfold runClientSteps at hw
  split at hw
  · rename_i v hv
    have hsteps := steps_runSteps (C := fun _ _ => True) (fun _ _ _ => trivial) ss v v w .refl hw
    clear hw
    induction hsteps with
    | refl => exact .start buffers heap app v hv
    | step u u' s _ _ hs h ih => exact .step _ u u' s ih hs h
  · contradiction

end Runs

/- A connect, and a QoS 0 message that is encoded to its end. -/
def connectSteps : List (Step Unit) :=
  .call (.connect 0) :: List.replicate 8 (.send 64) ++ [[0x20], [2], [0], [0]].map .read

def publishTwice : List (Step Unit) :=
  connectSteps ++ .call (.request (.publish 0)) :: List.replicate 4 (.send 64) ++ [.call (.request (.publish 0))]

def everyStep (_ : World Unit) (_ : Step Unit) : Bool := true

theorem publishTwice_isSome : (runClientSteps memoryEnv everyStep ⟨8, 64, 64, 4⟩ quietHeap () publishTwice).isSome = true := by
  decide +kernel

instance (w : World σ) (e : Entry) : Decidable (w.Resends e) := by
  unfold World.Resends
  infer_instance

/-- A QoS 0 message is published again with the same object: its first PUBLISH has the
DUP flag, and `fixed_header_decode` refuses it. -/
theorem dup_on_first_publish : ∃ (last : Ptr → Written) (w t : World Unit) (e : Entry) (bytes : List Byte),
    Rewritten memoryEnv last w ∧ w.txStore.peek = some e ∧ e.kind = .publish0 ∧
      publishBuildFixedHeader memoryEnv e.value w = .ok bytes t ∧
    ¬ w.Resends e ∧ bytes = [0x38, 4] ∧ ¬ DupSound w e (bytes.headD 0) := by
  obtain ⟨w, hw, e, hp, hk, hn, hb⟩ : ∃ w : World Unit,
      Rewritten memoryEnv (fun p => { count := (quietHeap.publishes p).encodeCount }) w ∧ ∃ e, w.txStore.peek = some e ∧
      e.kind = .publish0 ∧ ¬ w.Resends e ∧
      Wp (publishBuildFixedHeader memoryEnv e.value) w (fun bytes _ => bytes = [0x38, 4]) fun _ _ => False :=
    ⟨_, rewritten_get _ _ _ _ publishTwice_isSome, ⟨.publish0, ⟨0, 0, some .onPublish, some 2⟩⟩, by decide +kernel⟩
  obtain ⟨bytes, t, hrun, rfl⟩ := wp_exists hb
  exact ⟨_, w, t, e, _, hw, hp, hk, hrun, hn, rfl, fun hd => hn (hd.redelivery (by decide))⟩

/- A QoS 2 message is encoded to its end, and again on the next connection. -/
def publishResent : List (Step Unit) :=
  connectSteps ++ .call (.request (.publish 0)) :: List.replicate 5 (.send 64) ++ .call .eof :: connectSteps

theorem publishResent_isSome :
    (runClientSteps memoryEnv everyStep ⟨8, 64, 64, 4⟩ smallHeap () publishResent).isSome = true := by
  decide +kernel

theorem dup_marks_redelivery_resent : ∃ (last : Ptr → Written) (w t : World Unit) (e : Entry) (bytes : List Byte),
    Rewritten memoryEnv last w ∧ w.txStore.peek = some e ∧ publishBuildFixedHeader memoryEnv e.value w = .ok bytes t ∧
    bytes = [0x3c, 6] ∧ DupSound w e (bytes.headD 0) := by
  obtain ⟨w, hw, e, hp, hk, hres, hne, hb⟩ : ∃ w : World Unit,
      Rewritten memoryEnv (fun p => { count := (smallHeap.publishes p).encodeCount }) w ∧ ∃ e, w.txStore.peek = some e ∧
      e.kind.isPublish = true ∧ w.Resends e ∧ (w.heap.publishes e.value.value).qos ≠ 0 ∧
      Wp (publishBuildFixedHeader memoryEnv e.value) w (fun bytes _ => bytes = [0x3c, 6]) fun _ _ => False :=
    ⟨_, rewritten_get _ _ _ _ publishResent_isSome, ⟨.publish2, ⟨0, 0, some .onPublish, some 1⟩⟩, by decide +kernel⟩
  obtain ⟨bytes, t, hrun, rfl⟩ := wp_exists hb
  exact ⟨_, w, t, e, _, hw, hp, hrun, rfl, (dup_marks_redelivery hw hp hk hrun).mpr (.inl ⟨hres, hne⟩)⟩

end LightMqtt
