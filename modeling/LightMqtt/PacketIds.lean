import LightMqtt.Run

/-!
# Packet ids in flight

A request keeps its id as long as it is in the main store. The counter the ids
come from wraps, so an id may be handed out while an entry still has it.
-/

namespace LightMqtt

open Exec

variable {σ : Type} {env : Env σ} {P : World σ → Prop}

/-! ### The main store -/

/- The ids of the entries in flight. -/
def inFlightIds (es : List Entry) : List PacketId :=
  es.filterMap fun e => if e.kind.inFlight then some e.value.packetId else none

/- No PUBREC was processed. -/
def NoPubrec (evs : List Event) : Prop := ∀ ev ∈ evs, ∀ id, ev ≠ .finished typePubrec id

/-- The counter of the ids goes on by those that were taken, and the numbers of the
requests stay. -/
structure World.Draws (w w' : World σ) : Prop where
  number : w'.ids.number = w.ids.number
  nextReq : w.nextReq ≤ w'.nextReq
  counter : w'.ids = w.ids ∧ w'.mainStore.nextPacketId = w.mainStore.nextPacketId ∨
    w'.ids = w.ids.draw ∧ w'.mainStore.nextPacketId = w.mainStore.nextPacketId + 1

/-- A request is given the id that was taken last. -/
structure World.Gives (w w' : World σ) (e : Entry) : Prop where
  ids : w'.ids = w.ids.give w.nextReq
  nextReq : w'.nextReq = w.nextReq + 1
  counter : w'.mainStore.nextPacketId = w.mainStore.nextPacketId
  last : e.kind.inFlight = true → w.ids.fresh = true ∧ w.mainStore.nextPacketId = e.value.packetId + 1

/-- How an effect changes the main store. -/
inductive MainStep (env : Env σ) (w w' : World σ) : Prop
  /- entries may leave it, and one may be marked -/
  | kept (evs : List Event) (hl : w'.log = evs ++ w.log) (hn : env.ndebug = false → NoPubrec evs)
    (he : w'.mainStore.entries.Sublist w.mainStore.entries)
    (hs : ∀ e ∈ w'.mainStore.sent, e ∈ w.mainStore.sent ∨
      w'.log = .encoded e.kind e.value.packetId e.value.req :: w.log)
    (hd : w.Draws w')
  /- an acknowledgement or a packet without an id -/
  | added (e : Entry) (hl : w'.log = w.log) (hk : e.kind.inFlight = false)
    (he : w'.mainStore.entries = w.mainStore.entries ++ [e]) (hs : w'.mainStore.sent = w.mainStore.sent)
    (hd : w.Draws w')
  | accepted (e : Entry) (hr : e.value.req = some w.nextReq) (p : Ptr)
    (hl : w'.log = .accepted w.nextReq e.kind e.value.packetId p (w.idInUse e.value.packetId) :: w.log)
    (he : w'.mainStore.entries = w.mainStore.entries ++ [e]) (hs : w'.mainStore.sent = w.mainStore.sent)
    (hd : w.Gives w' e)
  /- a PUBREC: the PUBLISH makes room for the PUBREL -/
  | pubrec (pre post : List Entry) (e : Entry) (hk : e.kind = .publish2)
    (hl : w'.log = .finished typePubrec e.value.packetId ::
      .popped .publish2 e.value.packetId e.value.req :: w.log)
    (hb : w.mainStore.entries = pre ++ e :: post)
    (he : w'.mainStore.entries = pre ++ post ++ [⟨.pubrel, e.value⟩])
    (hs : ∀ e ∈ w'.mainStore.sent, e ∈ w.mainStore.sent)
    (hd : w.Draws w')

section MainStep
variable {w w' : World σ}

/- No id is taken. -/
theorem World.Draws.same (hi : w'.ids = w.ids) (hr : w.nextReq ≤ w'.nextReq)
    (hc : w'.mainStore.nextPacketId = w.mainStore.nextPacketId) : w.Draws w' :=
  ⟨by rw [hi], hr, .inl ⟨hi, hc⟩⟩

/- The main store is as it was. -/
theorem MainStep.same (evs : List Event) (hl : w'.log = evs ++ w.log) (hn : env.ndebug = false → NoPubrec evs)
    (hm : w'.mainStore.entries = w.mainStore.entries) (hp : w'.mainStore.pos = w.mainStore.pos) (hd : w.Draws w') :
    MainStep env w w' := by
  refine .kept evs hl hn (by rw [hm]) (fun e he => .inl ?_) hd
  rw [Store.sent, hm, hp] at he
  exact he

/- An entry leaves the main store. -/
theorem MainStep.removed {pre post : List Entry} {e : Entry} {s : Store} (evs : List Event)
    (hl : w'.log = evs ++ w.log) (hn : env.ndebug = false → NoPubrec evs) (hr : Store.Removed w.mainStore pre e post s)
    (hm : w'.mainStore = s) (hi : w'.ids = w.ids) (hq : w'.nextReq = w.nextReq) : MainStep env w w' := by
  refine .kept evs hl hn ?_ (fun x hx => .inl ?_) (.same hi hq.ge ?_)
  · rw [hm, hr.before, hr.after]
    exact List.Sublist.append_left (List.sublist_cons_self e post) pre
  · rw [hm] at hx
    exact hr.sent_subset hx
  · rw [hm, hr.nextPacketId]

theorem noPubrec_of_isNote {e : Event} (h : e.isNote = true) : NoPubrec [e] := by
  intro ev hev id heq
  rw [List.mem_singleton.mp hev] at heq
  rw [heq] at h
  contradiction

theorem answers_noPubrec (w : World σ) (v : Value) : NoPubrec (w.answers v) := by
  intro ev hev id heq
  unfold World.answers at hev
  split at hev <;> simp_all

/- The connect store holds no request whose response has an id. -/
theorem Sound.connect_kind {e : Entry} (hw : Sound w) (he : e ∈ w.connectStore.entries) :
    e.kind = .connect ∨ e.IsAck := (hw.entries .connect e he).2

theorem deleteSessionless_nextPacketId (fuel i : ℕ) (s : Store) :
    (deleteSessionless fuel i s).nextPacketId = s.nextPacketId := by
  induction fuel generalizing i s with
  | zero => rfl
  | succ fuel ih =>
    unfold deleteSessionless
    cases s.getAt i with
    | none => rfl
    | some e =>
      simp only
      split
      · rw [ih]
        unfold Store.deleteAt
        cases hp : s.popAt i with
        | none => rfl
        | some r =>
          obtain ⟨e, t⟩ := r
          obtain ⟨pre, post, -, hr⟩ := Store.popAt_spec _ _ _ _ hp
          exact hr.nextPacketId
      · exact ih (i+1) s

theorem effect_mainStep (h : Effect env P w w') (hw : Sound w) : MainStep env w w' := by
  have hkeep : ∀ {w' : World σ}, w'.log = w.log → w'.mainStore.entries = w.mainStore.entries →
      w'.mainStore.pos = w.mainStore.pos → w.Draws w' → MainStep env w w' := fun hl he hp hd =>
    .same [] hl (fun _ => by simp [NoPubrec]) he hp hd
  have hstill : ∀ {w' : World σ}, w'.ids = w.ids → w'.nextReq = w.nextReq →
      w'.mainStore.nextPacketId = w.mainStore.nextPacketId → w.Draws w' := fun hi hr hc => .same hi hr.ge hc
  cases h with
  | app | heap | txClosed | tx | rx | remember | release | clearIds | detached | ready | failed
  | timeout => exact hkeep rfl rfl rfl (hstill rfl rfl rfl)
  | nextId => exact hkeep rfl rfl rfl ⟨rfl, Nat.le_refl _, .inr ⟨rfl, rfl⟩⟩
  | clock r => cases r <;> exact hkeep rfl rfl rfl (hstill rfl rfl rfl)
  | note e he => exact .same [e] rfl (fun _ => noPubrec_of_isNote he) rfl rfl (hstill rfl rfl rfl)
  | encode | deliver | deliverOnce | initial | connected | connack =>
    exact .same [_] rfl (fun _ => by simp [NoPubrec]) rfl rfl (hstill rfl rfl rfl)
  | connecting => exact .same [_] rfl (fun _ => by simp [NoPubrec]) rfl rfl (.same rfl (Nat.le_succ _) rfl)
  | pubrecLost hd =>
    refine .same [_] rfl (fun hn => ?_) rfl rfl (hstill rfl rfl rfl)
    rw [hn] at hd
    contradiction
  | finish hy =>
    refine .same [_] rfl (fun hn ev hev id heq => hy ?_) rfl rfl (hstill rfl rfl rfl)
    rw [List.mem_singleton.mp hev] at heq
    exact (Event.finished.inj heq).1
  | finalAnswer => exact .same _ rfl (fun _ => answers_noPubrec w.calling _) rfl rfl (hstill rfl rfl rfl)
  | answer =>
    refine .same _ (decoded_answered_log w _) (fun _ ev hev => ?_) rfl rfl (hstill rfl rfl rfl)
    rcases List.mem_append.mp hev with hev | hev
    · exact answers_noPubrec w _ ev hev
    · rw [List.mem_singleton.mp hev]
      simp
  | accept kind id p s hk ho hs hp hi =>
    have ha := Store.append_spec _ _ _ hs
    exact .accepted ⟨kind, ⟨id, p, kind.callback, some w.nextReq⟩⟩ rfl p rfl ha.entries ha.sent_eq
      ⟨rfl, rfl, ha.nextPacketId, hi⟩
  | enqueue kind s hk hs =>
    have ha := Store.append_spec _ _ _ hs
    refine .added _ rfl ?_ ha.entries ha.sent_eq (hstill rfl rfl ha.nextPacketId)
    rcases hk with rfl | rfl <;> rfl
  | ack e s he hs =>
    unfold World.rxStore at hs
    cases hr : w.rx.store with
    | main =>
      rw [hr] at hs
      have ha := Store.append_spec _ _ _ hs
      refine .added e rfl ?_ ha.entries ha.sent_eq (hstill rfl rfl ha.nextPacketId)
      rcases he.1 with hk | hk | hk <;> rw [hk] <;> rfl
    | connect => exact hkeep rfl rfl rfl (hstill rfl rfl rfl)
  | mark e hp hr' =>
    obtain ⟨rest, hpend⟩ := Store.pending_of_peek hp
    unfold World.txStore at *
    cases hr : w.tx.store with
    | main =>
      rw [hr] at hpend
      obtain ⟨hes, -, hcounter, hsent, -⟩ := Store.markCurrent_spec _ _ _ hpend
      refine .kept [_] rfl (fun _ => by simp [NoPubrec]) ?_ (fun x hx => ?_) (hstill rfl rfl hcounter)
      · change (w.store .main).markCurrent.entries.Sublist _
        rw [hes]
        exact List.Sublist.refl _
      · change x ∈ (w.store .main).markCurrent.sent at hx
        rw [hsent, List.mem_append, List.mem_singleton] at hx
        rcases hx with hx | rfl
        · exact .inl hx
        · exact .inr rfl
    | connect => exact .same [_] rfl (fun _ => by simp [NoPubrec]) rfl rfl (hstill rfl rfl rfl)
  | drop e hp hr' =>
    obtain ⟨rest, hpend⟩ := Store.pending_of_peek hp
    have hrem := Store.dropCurrent_spec _ _ _ hpend
    have hnp : NoPubrec (w.answers e.value ++ [.encoded e.kind e.value.packetId e.value.req]) := by
      intro ev hev
      rcases List.mem_append.mp hev with hev | hev
      · exact answers_noPubrec w _ ev hev
      · rw [List.mem_singleton.mp hev]
        simp
    unfold World.txStore at *
    cases hr : w.tx.store with
    | main =>
      rw [hr] at hrem
      exact .removed _ (by simp) (fun _ => hnp) hrem rfl rfl rfl
    | connect => exact .same _ (by simp) (fun _ => hnp) rfl rfl (hstill rfl rfl rfl)
  | pop k id e s hk hv hi hc hs =>
    obtain ⟨pre, post, hrem, -⟩ := Store.popMarkedBy_spec _ _ _ _ _ hs
    unfold World.rxStore at hrem
    cases hr : w.rx.store with
    | main =>
      rw [hr] at hrem
      exact .removed [_] rfl (fun _ => by simp [NoPubrec]) hrem rfl rfl rfl
    | connect => exact .same [_] rfl (fun _ => by simp [NoPubrec]) rfl rfl (hstill rfl rfl rfl)
  | pubrec e s t hk hv hy hs ht =>
    obtain ⟨pre, post, hrem, -, hke, hid, -⟩ := Store.popMarkedBy_spec _ _ _ _ _ hs
    have ha := Store.append_spec _ _ _ ht
    unfold World.rxStore at hrem
    cases hr : w.rx.store with
    | main =>
      rw [hr] at hrem
      refine .pubrec pre post e hke ?_ hrem.before ?_ (fun x hx => ?_)
        (hstill rfl rfl (ha.nextPacketId.trans hrem.nextPacketId))
      · rw [hid, ← hy]
      · change t.entries = _
        rw [ha.entries, hrem.after]
      · change x ∈ t.sent at hx
        rw [ha.sent_eq] at hx
        exact hrem.sent_subset hx
    | connect =>
      rw [hr] at hrem
      rcases hw.connect_kind hrem.mem with h | ⟨h, -⟩
      · rw [hke] at h
        contradiction
      · rw [hke] at h
        simp at h
  | sessionless hc =>
    exact .kept [] rfl (fun _ => by simp [NoPubrec]) (deleteSessionless_sublist ..) (fun x hx =>
      .inl ((deleteSessionless_spec _ _ _ x).2.1 hx)) (hstill rfl rfl (deleteSessionless_nextPacketId ..))
  | shift r e s hr' hf hs =>
    obtain ⟨post, hrem⟩ := Store.shift_spec _ _ _ hs
    cases r with
    | main => exact .removed _ rfl (fun _ => answers_noPubrec w _) hrem rfl rfl rfl
    | connect => exact .same _ rfl (fun _ => answers_noPubrec w _) rfl rfl (hstill rfl rfl rfl)
  | opened hc hm =>
    refine .kept [] rfl (fun _ => by simp [NoPubrec]) (List.Sublist.refl _) (fun x hx => ?_) (hstill rfl rfl rfl)
    change x ∈ w.mainStore.unmarkAll.sent at hx
    simp [Store.sent, Store.unmarkAll] at hx

end MainStep

/-! ### Packet ids in flight -/

/- No request was accepted with the id of an entry in flight. -/
def World.DistinctIds (w : World σ) : Prop :=
  ∀ r kind id p u, .accepted r kind id p u ∈ w.log → kind.inFlight = true → u = false

def Event.isFresh : Event → Bool
  | .accepted _ kind _ _ u => !(kind.inFlight && u)
  | _ => true

instance (w : World σ) : Decidable w.DistinctIds :=
  decidable_of_iff (∀ ev ∈ w.log, ev.isFresh = true) (by
    constructor
    · intro h r kind id p u hm hk
      have := h _ hm
      simpa [Event.isFresh, hk] using this
    · intro h ev hm
      cases ev with
      | accepted r kind id p u =>
        cases hk : kind.inFlight with
        | false => simp [Event.isFresh, hk]
        | true => simp [Event.isFresh, h r kind id p u hm hk]
      | _ => rfl)

/- The ids of the entries in flight of the main store differ. -/
def Distinct (w : World σ) : Prop := (inFlightIds w.mainStore.entries).Nodup

instance (w : World σ) : Decidable (Distinct w) := inferInstanceAs (Decidable (List.Nodup _))

theorem mem_inFlightIds {es : List Entry} {id : PacketId} :
    id ∈ inFlightIds es ↔ ∃ e ∈ es, e.kind.inFlight = true ∧ e.value.packetId = id := by
  simp only [inFlightIds, List.mem_filterMap]
  constructor
  · rintro ⟨e, he, h⟩
    split at h
    · rename_i hk
      exact ⟨e, he, hk, by simpa using h⟩
    · contradiction
  · rintro ⟨e, he, hk, rfl⟩
    exact ⟨e, he, by rw [if_pos hk]⟩

theorem inFlightIds_append (es es' : List Entry) :
    inFlightIds (es ++ es') = inFlightIds es ++ inFlightIds es' := List.filterMap_append

theorem inFlightIds_singleton {e : Entry} (h : e.kind.inFlight = true) :
    inFlightIds [e] = [e.value.packetId] := by
  simp [inFlightIds, h]

theorem idInUse_iff (w : World σ) (id : PacketId) :
    w.idInUse id = true ↔ id ∈ inFlightIds w.mainStore.entries := by
  rw [mem_inFlightIds, World.idInUse, List.any_eq_true]
  simp only [Bool.and_eq_true, decide_eq_true_eq]

/- The entry in flight between two others has an id of its own. -/
theorem inFlightIds_middle {pre post : List Entry} {e : Entry} (hk : e.kind.inFlight = true)
    (h : (inFlightIds (pre ++ e :: post)).Nodup) :
    e.value.packetId ∉ inFlightIds (pre ++ post) ∧ (inFlightIds (pre ++ post)).Nodup := by
  have hsplit : inFlightIds (pre ++ e :: post) = inFlightIds pre ++ e.value.packetId :: inFlightIds post := by
    rw [inFlightIds_append, ← List.singleton_append, inFlightIds_append, inFlightIds_singleton hk]
    rfl
  rw [hsplit, List.nodup_middle, List.nodup_cons] at h
  rw [inFlightIds_append]
  exact h

theorem nodup_snoc {α : Type} {l : List α} {x : α} (h : l.Nodup) (hx : x ∉ l) : (l ++ [x]).Nodup :=
  List.nodup_append.mpr ⟨h, List.nodup_singleton x, fun y hy z hz heq => hx (by
    rw [← List.mem_singleton.mp hz, ← heq]
    exact hy)⟩

theorem distinct_step {w w' : World σ} (h : MainStep env w w') (hd : w'.DistinctIds) (hw : Distinct w) :
    Distinct w' := by
  unfold Distinct at *
  cases h with
  | kept evs hl hn he hs => exact hw.sublist (he.filterMap _)
  | added e hl hk he hs =>
    rw [he, inFlightIds_append]
    have : inFlightIds [e] = [] := by simp [inFlightIds, hk]
    rw [this, List.append_nil]
    exact hw
  | accepted e hr p hl he hs =>
    rw [he, inFlightIds_append]
    cases hk : e.kind.inFlight with
    | false =>
      have : inFlightIds [e] = [] := by simp [inFlightIds, hk]
      rw [this, List.append_nil]
      exact hw
    | true =>
      have hfree := hd _ _ _ _ _ (by rw [hl]; exact List.mem_cons_self ..) hk
      rw [inFlightIds_singleton hk]
      refine nodup_snoc hw fun hm => ?_
      rw [(idInUse_iff w _).mpr hm] at hfree
      contradiction
  | pubrec pre post e hk hl hb he hs =>
    rw [hb] at hw
    obtain ⟨hfree, hnodup⟩ := inFlightIds_middle (by rw [hk]; rfl) hw
    rw [he, inFlightIds_append, inFlightIds_singleton rfl]
    exact nodup_snoc hnodup hfree

/-! ### The counter of the ids -/

/- The number of the id of an entry, counted from the first id that was taken. -/
def World.idNumber (w : World σ) (e : Entry) : ℕ := (e.value.req.map w.ids.number).getD 0

/- The entry has the id that was taken with its number. -/
structure World.Given (w : World σ) (e : Entry) (r : ℕ) : Prop where
  req : e.value.req = some r
  before : r < w.nextReq
  id : e.value.packetId + 1 = UInt16.ofNat (w.ids.number r)
  taken : w.ids.number r ≤ w.ids.taken
  fresh : w.ids.fresh = true → w.ids.number r < w.ids.taken

/- They are in flight, and have ids of different numbers. -/
def World.ApartIn (w : World σ) (e e' : Entry) : Prop :=
  e.kind.inFlight = true → e'.kind.inFlight = true → w.idNumber e ≠ w.idNumber e'

/-- The ids come from a counter of 16 bits. An entry in flight has the one that was
taken with its number, and no two have the same number. -/
structure Numbered (w : World σ) : Prop where
  counter : w.mainStore.nextPacketId = UInt16.ofNat w.ids.taken
  given : ∀ e ∈ w.mainStore.entries, e.kind.inFlight = true → ∃ r, w.Given e r
  apart : w.mainStore.entries.Pairwise w.ApartIn

theorem World.Given.number {w : World σ} {e : Entry} {r : ℕ} (h : w.Given e r) : w.idNumber e = w.ids.number r := by
  rw [idNumber, h.req]
  rfl

section Numbered
variable {w w' : World σ}

theorem World.Given.draws {e : Entry} {r : ℕ} (h : w.Given e r) (hd : w.Draws w') : w'.Given e r := by
  have hn := hd.number
  have hb := h.before
  have ht := h.taken
  refine ⟨h.req, hb.trans_le hd.nextReq, by rw [hn]; exact h.id, ?_, ?_⟩
  · rw [hn]
    rcases hd.counter with ⟨hi, -⟩ | ⟨hi, -⟩
    · rw [hi]
      exact ht
    · rw [hi]
      exact ht.trans (Nat.le_succ _)
  · intro hf
    rw [hn]
    rcases hd.counter with ⟨hi, -⟩ | ⟨hi, -⟩
    · rw [hi] at hf ⊢
      exact h.fresh hf
    · rw [hi]
      exact Nat.lt_succ_of_le ht

theorem World.Draws.idNumber (hd : w.Draws w') (e : Entry) : w'.idNumber e = w.idNumber e := by
  rw [World.idNumber, World.idNumber, hd.number]

theorem World.Draws.counted (hd : w.Draws w') (hc : w.mainStore.nextPacketId = UInt16.ofNat w.ids.taken) :
    w'.mainStore.nextPacketId = UInt16.ofNat w'.ids.taken := by
  rcases hd.counter with ⟨hi, hn⟩ | ⟨hi, hn⟩
  · rw [hi, hn, hc]
  · rw [hi, hn, hc]
    exact (UInt16.ofNat_add ..).symm

/- A request that comes into the store leaves the numbers of the others alone. -/
theorem World.Given.gives {e x : Entry} {r : ℕ} (h : w.Given e r) (hd : w.Gives w' x) : w'.Given e r := by
  have hn : w'.ids.number r = w.ids.number r := by
    rw [hd.ids]
    exact Function.update_of_ne h.before.ne _ _
  have ht : w'.ids.taken = w.ids.taken := by
    rw [hd.ids]
    rfl
  refine ⟨h.req, h.before.trans_le (by rw [hd.nextReq]; exact Nat.le_succ _), by rw [hn]; exact h.id, ?_, fun hf => ?_⟩
  · rw [hn, ht]
    exact h.taken
  · rw [hd.ids] at hf
    contradiction

theorem numbered_step (h : MainStep env w w') (hw : Numbered w) : Numbered w' := by
  have hapart : ∀ {es : List Entry}, w.Draws w' → es.Pairwise w.ApartIn → es.Pairwise w'.ApartIn := by
    intro es hd hp
    refine hp.imp fun {e e'} ha hk hk' => ?_
    rw [hd.idNumber, hd.idNumber]
    exact ha hk hk'
  cases h with
  | kept evs hl hn he hs hd =>
    refine ⟨hd.counted hw.counter, fun e hm hk => ?_, hapart hd (hw.apart.sublist he)⟩
    obtain ⟨r, hr⟩ := hw.given e (he.subset hm) hk
    exact ⟨r, hr.draws hd⟩
  | added e hl hk he hs hd =>
    refine ⟨hd.counted hw.counter, fun x hm hx => ?_, ?_⟩
    · rw [he, List.mem_append, List.mem_singleton] at hm
      rcases hm with hm | rfl
      · obtain ⟨r, hr⟩ := hw.given x hm hx
        exact ⟨r, hr.draws hd⟩
      · rw [hk] at hx
        contradiction
    · rw [he, List.pairwise_append]
      refine ⟨hapart hd hw.apart, List.pairwise_singleton .., fun x _ y hy _ hy' => ?_⟩
      rw [List.mem_singleton.mp hy, hk] at hy'
      contradiction
  | accepted e hr p hl he hs hd =>
    have ht : w'.ids.taken = w.ids.taken := by
      rw [hd.ids]
      rfl
    have hnumber : w'.ids.number w.nextReq = w.ids.taken := by
      rw [hd.ids]
      exact Function.update_self ..
    refine ⟨by rw [hd.counter, ht, hw.counter], fun x hm hx => ?_, ?_⟩
    · rw [he, List.mem_append, List.mem_singleton] at hm
      rcases hm with hm | rfl
      · obtain ⟨r, hr⟩ := hw.given x hm hx
        exact ⟨r, hr.gives hd⟩
      · refine ⟨w.nextReq, hr, by rw [hd.nextReq]; exact Nat.lt_succ_self _, ?_, ?_, fun hf => ?_⟩
        · rw [hnumber, ← hw.counter, (hd.last hx).2]
        · rw [hnumber, ht]
        · rw [hd.ids] at hf
          contradiction
    · rw [he, List.pairwise_append]
      have hold : ∀ x ∈ w.mainStore.entries, x.kind.inFlight = true → w'.idNumber x = w.idNumber x := by
        intro x hm hx
        obtain ⟨r, hr⟩ := hw.given x hm hx
        rw [(hr.gives hd).number, hr.number, hd.ids]
        exact Function.update_of_ne hr.before.ne _ _
      refine ⟨?_, List.pairwise_singleton .., fun x hm y hy hx hk => ?_⟩
      · refine hw.apart.imp_of_mem fun {x y} hx hy ha hkx hky => ?_
        rw [hold x hx hkx, hold y hy hky]
        exact ha hkx hky
      · rw [List.mem_singleton] at hy
        subst hy
        obtain ⟨r, hgiven⟩ := hw.given x hm hx
        have hlt := hgiven.fresh (hd.last hk).1
        have hnew : w'.idNumber y = w.ids.taken := by
          rw [World.idNumber, hr]
          exact hnumber
        rw [hold x hm hx, hgiven.number, hnew]
        exact hlt.ne
  | pubrec pre post e hk hl hb he hs hd =>
    have hgiven := hw.given
    have hold := hw.apart
    rw [hb] at hgiven hold
    have hflight : e.kind.inFlight = true := by
      rw [hk]
      rfl
    have hmiddle : ((pre ++ post) ++ [(⟨.pubrel, e.value⟩ : Entry)]).Pairwise w.ApartIn := by
      have hperm := (List.pairwise_middle (fun {x y} hxy hy hx => (hxy hx hy).symm)).mp hold
      obtain ⟨hfirst, hrest⟩ := List.pairwise_cons.mp hperm
      rw [List.pairwise_append]
      refine ⟨hrest, List.pairwise_singleton .., fun x hx y hy hkx _ => ?_⟩
      rw [List.mem_singleton.mp hy]
      exact (hfirst x hx hflight hkx).symm
    refine ⟨hd.counted hw.counter, fun x hm hx => ?_, by rw [he]; exact hapart hd hmiddle⟩
    rw [he, List.mem_append, List.mem_singleton] at hm
    rcases hm with hm | rfl
    · obtain ⟨r, hr⟩ := hgiven x (by
        rcases List.mem_append.mp hm with hm | hm
        · exact List.mem_append_left _ hm
        · exact List.mem_append_right _ (List.mem_cons_of_mem _ hm)) hx
      exact ⟨r, hr.draws hd⟩
    · obtain ⟨r, hr⟩ := hgiven e (List.mem_append_right _ (List.mem_cons_self ..)) hflight
      have hrel : w.Given ⟨.pubrel, e.value⟩ r := ⟨hr.req, hr.before, hr.id, hr.taken, hr.fresh⟩
      exact ⟨r, hrel.draws hd⟩

end Numbered

theorem reached_numbered (w : World σ) (h : Reached env P w) : Numbered w := by
  apply reached_invariant (I := Numbered) ?_ ?_ ?_ w h
  · exact fun _ _ hs he hv => numbered_step (effect_mainStep he hs) hv
  · intro v readBuf writeBuf hv
    refine ⟨hv.counter, fun e hm hk => ?_, hv.apart⟩
    obtain ⟨r, hr⟩ := hv.given e hm hk
    exact ⟨r, hr.req, hr.before, hr.id, hr.taken, hr.fresh⟩
  · exact fun _ _ _ => ⟨rfl, fun _ hm => absurd hm List.not_mem_nil, List.Pairwise.nil⟩

/-- Fewer than 65536 ids were taken since any entry in flight was given its own. -/
def World.FewTaken (w : World σ) : Prop :=
  ∀ e ∈ w.mainStore.entries, e.kind.inFlight = true → w.ids.taken < w.idNumber e + 2^16

/- No two entries in flight were given ids a multiple of 65536 apart. -/
def World.NoWrap (w : World σ) : Prop :=
  w.mainStore.entries.Pairwise fun e e' => e.kind.inFlight = true → e'.kind.inFlight = true →
    w.idNumber e % 2^16 ≠ w.idNumber e' % 2^16

instance (w : World σ) : Decidable w.FewTaken := by unfold World.FewTaken; infer_instance

theorem distinct_iff_pairwise (w : World σ) : Distinct w ↔
    w.mainStore.entries.Pairwise fun e e' => e.kind.inFlight = true → e'.kind.inFlight = true →
      e.value.packetId ≠ e'.value.packetId := by
  unfold Distinct inFlightIds List.Nodup
  rw [List.pairwise_filterMap]
  constructor
  · intro h
    refine h.imp fun {e e'} hp hk hk' => hp _ ?_ _ ?_
    · rw [if_pos hk]
    · rw [if_pos hk']
  · intro h
    refine h.imp fun {e e'} hp id hid id' hid' => ?_
    split at hid
    · split at hid'
      · rename_i hk hk'
        rw [← Option.some.inj hid, ← Option.some.inj hid']
        exact hp hk hk'
      · contradiction
    · contradiction

/- Ids are equal where their numbers are 65536 apart, or a multiple of it. -/
theorem Numbered.ids_eq {w : World σ} (hw : Numbered w) {e e' : Entry} (hm : e ∈ w.mainStore.entries)
    (hm' : e' ∈ w.mainStore.entries) (hk : e.kind.inFlight = true) (hk' : e'.kind.inFlight = true) :
    e.value.packetId = e'.value.packetId ↔ w.idNumber e % 2^16 = w.idNumber e' % 2^16 := by
  obtain ⟨r, hr⟩ := hw.given e hm hk
  obtain ⟨r', hr'⟩ := hw.given e' hm' hk'
  rw [hr.number, hr'.number, ← UInt16.toNat_ofNat', ← UInt16.toNat_ofNat', UInt16.toNat_inj, ← hr.id, ← hr'.id]
  exact (UInt16.add_left_inj 1).symm

/-- Two entries in flight have the same id exactly if theirs were taken a multiple of
65536 ids apart. So they have different ids as long as fewer than 65536 ids are taken,
those of refused requests included, while a request is in flight. -/
theorem ids_distinct (w : World σ) (h : Reached env P w) : (Distinct w ↔ w.NoWrap) ∧ (w.FewTaken → Distinct w) := by
  have hw := reached_numbered w h
  have hiff : Distinct w ↔ w.NoWrap := by
    rw [distinct_iff_pairwise]
    constructor
    · intro hp
      refine hp.imp_of_mem fun {e e'} hm hm' hne hk hk' heq => hne hk hk' ?_
      exact (hw.ids_eq hm hm' hk hk').mpr heq
    · intro hp
      refine hp.imp_of_mem fun {e e'} hm hm' hne hk hk' heq => hne hk hk' ?_
      exact (hw.ids_eq hm hm' hk hk').mp heq
  refine ⟨hiff, fun hf => hiff.mpr ?_⟩
  refine hw.apart.imp_of_mem fun {e e'} hm hm' hne hk hk' heq => hne hk hk' ?_
  -- both numbers are among the last 65536 that were taken
  have hlt := hf e hm hk
  have hlt' := hf e' hm' hk'
  obtain ⟨r, hr⟩ := hw.given e hm hk
  obtain ⟨r', hr'⟩ := hw.given e' hm' hk'
  have hle := hr.taken
  have hle' := hr'.taken
  rw [hr.number] at hlt heq ⊢
  rw [hr'.number] at hlt' heq ⊢
  omega

theorem distinctRun_isSome : (runClient memoryEnv anyConnect ⟨8, 64, 64, 4⟩ smallHeap ()
    (connectKept ++ [.request (.subscribe 0), .request (.publish 0)])).isSome = true := by decide +kernel

theorem ids_distinct_run : ∃ w : World Unit, inFlightIds w.mainStore.entries = [0, 1] ∧ Distinct w := by
  obtain ⟨w, hw, hf, hids⟩ : ∃ w : World Unit, Reached memoryEnv (fun _ => True) w ∧ w.FewTaken ∧
      inFlightIds w.mainStore.entries = [0, 1] :=
    ⟨_, reached_get anyConnect_true _ _ _ _ distinctRun_isSome, by decide +kernel⟩
  exact ⟨w, hids, (ids_distinct w hw).2 hf⟩

/-! ### Refused requests -/

/- The counter behind `n` refused requests. -/
def World.skipIds (w : World σ) (n : ℕ) : World σ :=
  { w with
    mainStore := { w.mainStore with nextPacketId := w.mainStore.nextPacketId + UInt16.ofNat n }
    ids := { w.ids with taken := w.ids.taken + n, fresh := w.ids.fresh || decide (0 < n) } }

/- A request that is refused because the store is full takes an id. -/
theorem subscribe_refused (w : World σ) (p : Ptr) (ho : w.ops.subscribe = true)
    (hv : subscribeValidate (w.heap.subscribes p) = true) (hf : w.mainStore.count = w.mainStore.capacity) :
    (Act.request (.subscribe p) : Act σ).run env w = .ok () (w.skipIds 1) := by
  have hnone : ∀ e, (w.skipIds 1).mainStore.append e = none := by
    intro e
    rw [Store.append_eq_none]
    exact hf.ge
  have hrun : clientSubscribeWithKind p .subscribe .onSuback w = .ok false (w.skipIds 1) := by
    rw [clientSubscribeWithKind, Exec.run_get_bind, if_neg (by rw [hv]; simp)]
    have hget : clientGetId w = .ok w.mainStore.nextPacketId (w.skipIds 1) := by
      simp only [World.skipIds, Nat.lt_one_iff, decide_true, Bool.or_true]
      rfl
    rw [Exec.run_bind_ok hget]
    rw [clientAppendRequest, Exec.run_get_bind]
    simp only [hnone]
    rfl
  have hreq : doRequest (.subscribe p) w = .ok false (w.skipIds 1) := by
    rw [doRequest, lmqttClientSubscribe, Exec.run_get_bind, if_pos ho]
    exact hrun
  rw [Act.run, Exec.run_bind_ok hreq]
  rfl

theorem reached_skipIds (w : World σ) (p : Ptr) (h : Reached env P w) (ho : w.ops.subscribe = true)
    (hv : subscribeValidate (w.heap.subscribes p) = true) (hf : w.mainStore.count = w.mainStore.capacity)
    (n : ℕ) : Reached env P (w.skipIds n) := by
  induction n with
  | zero =>
    have : w.skipIds 0 = w := by simp [World.skipIds]
    rwa [this]
  | succ n ih =>
    refine .act (w.skipIds n) _ (.request (.subscribe p)) ih trivial ?_
    rw [subscribe_refused (w.skipIds n) p ho hv hf]
    simp only [World.skipIds, UInt16.ofNat_add, UInt16.add_assoc, Nat.add_assoc, Nat.succ_pos, decide_true,
      Bool.or_true]

/- A subscribe is in flight, and the store of two entries is full. -/
def fullActs : List (Act Unit) := connectKept ++ [.request (.subscribe 0), .request (.publish 0)]

/- The publishes have QoS 0. -/
def quietHeap : Heap := { smallHeap with
  publishes := fun _ => { topic := { len := 1, buf := some [97] }, payload := { len := 1, buf := some [98] } } }

theorem fullRun_isSome : (runClient memoryEnv anyConnect ⟨2, 64, 64, 4⟩ quietHeap () fullActs).isSome = true := by
  decide +kernel

/-- Behind 65535 refused requests, the id of a subscribe in flight is handed out
again. -/
theorem ids_repeated : ∃ w : World Unit, Reached memoryEnv (fun _ => True) w ∧ ¬ Distinct w := by
  obtain ⟨w, hw, ho, hv, hf, hrun⟩ : ∃ w : World Unit, Reached memoryEnv (fun _ => True) w ∧
      w.ops.subscribe = true ∧ subscribeValidate (w.heap.subscribes 0) = true ∧
      w.mainStore.count = w.mainStore.capacity ∧
      ((runActs memoryEnv anyConnect [.encode 64, .request (.subscribe 0)] (w.skipIds 65535)).any
        fun v => !decide (Distinct v)) = true :=
    ⟨_, reached_get anyConnect_true _ _ _ _ fullRun_isSome, by decide +kernel⟩
  obtain ⟨v, hv', hdup⟩ := (Option.any_eq_true ..).mp hrun
  exact ⟨v, reached_runActs anyConnect_true _ _ _ (reached_skipIds w 0 hw ho hv hf 65535) hv', by simpa using hdup⟩

end LightMqtt
