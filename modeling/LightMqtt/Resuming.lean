import LightMqtt.ApiStates
import LightMqtt.Outgoing
import LightMqtt.Redelivery

/-!
# Sessions that are resumed

A session is what the main store keeps between two connections. It is left alone
from the end of one connection until the next one is accepted, and then sent from
its start.
-/

namespace LightMqtt

open Exec History

variable {σ : Type} {env : Env σ} {P : World σ → Prop}

/-! ### What is kept of a store -/

/- An entry that belongs to the session, and not to one connection. -/
def Entry.isKept (e : Entry) : Bool := e.kind ≠ .pingreq && e.kind ≠ .disconnect

def World.session (w : World σ) : List Entry := w.mainStore.entries.filter Entry.isKept

section Delete
variable {s t : Store} {pre post : List Entry} {e : Entry}

/- Deleting an entry that is not kept. -/
theorem Store.Removed.filter (h : Store.Removed s pre e post t) (he : e.isKept = false) :
    t.sent.filter Entry.isKept = s.sent.filter Entry.isKept ∧
        t.pending.filter Entry.isKept = s.pending.filter Entry.isKept := by
  have hnone : [e].filter Entry.isKept = [] := by simp [he]
  have hskip : ∀ l l' : List Entry, (l ++ e :: l').filter Entry.isKept = (l ++ l').filter Entry.isKept := by
    intro l l'
    rw [← List.singleton_append, List.filter_append, List.filter_append, hnone, List.nil_append, List.filter_append]
  by_cases hm : pre.length < s.pos
  · obtain ⟨mid, hs, ht, hp⟩ := h.marked hm
    rw [hs, ht, hp, hskip]
    exact ⟨rfl, rfl⟩
  · have hpos : t.pos = s.pos := by rw [h.pos, if_neg hm]
    have hlen : s.pos ≤ pre.length := by omega
    unfold Store.sent Store.pending
    rw [h.before, h.after, hpos, List.take_append_of_le_length hlen, List.take_append_of_le_length hlen,
      List.drop_append_of_le_length hlen, List.drop_append_of_le_length hlen, hskip]
    exact ⟨rfl, rfl⟩

/- A scan that has seen all entries has kept them. -/
theorem kept_parts {i : ℕ} (hle : s.count ≤ i) (hk : ∀ x ∈ s.entries.take i, x.isKept = true) :
    s.sent = s.sent.filter Entry.isKept ∧ s.pending = s.pending.filter Entry.isKept := by
  rw [List.take_of_length_le hle] at hk
  exact ⟨(List.filter_eq_self.mpr fun x hx => hk x (List.mem_of_mem_take hx)).symm,
    (List.filter_eq_self.mpr fun x hx => hk x (List.mem_of_mem_drop hx)).symm⟩

/-- The scan deletes in place, and the mark follows: it keeps the two parts apart. -/
theorem deleteSessionless_parts (fuel i : ℕ) (s : Store) (hf : s.count ≤ i + fuel)
    (hk : ∀ x ∈ s.entries.take i, x.isKept = true) :
    (deleteSessionless fuel i s).sent = s.sent.filter Entry.isKept ∧
      (deleteSessionless fuel i s).pending = s.pending.filter Entry.isKept := by
  induction fuel generalizing i s with
  | zero => exact kept_parts hf hk
  | succ fuel ih =>
    unfold deleteSessionless
    cases hg : s.getAt i with
    | none => exact kept_parts (List.getElem?_eq_none_iff.mp hg) hk
    | some e =>
      obtain ⟨hi, he⟩ := List.getElem?_eq_some_iff.mp hg
      obtain ⟨t, ht⟩ := Store.popAt_of_lt s i hi
      obtain ⟨pre, post, hpre, hr⟩ := Store.popAt_spec s t i _ ht
      rw [he] at hr
      simp only
      split
      · rename_i hkind
        have hdelete : s.deleteAt i = t := by
          unfold Store.deleteAt
          rw [ht]
          rfl
        have hgone : e.isKept = false := by
          unfold Entry.isKept
          rcases hkind with hkind | hkind <;> rw [hkind] <;> rfl
        obtain ⟨hsent, hpending⟩ := hr.filter hgone
        have hfirst : t.entries.take i = s.entries.take i := by
          rw [hr.before, hr.after, List.take_left' hpre, List.take_left' hpre]
        have hcount : t.count ≤ i + fuel := by
          have hlen : s.count = t.count + 1 := by
            unfold Store.count
            rw [hr.before, hr.after, List.length_append, List.length_append, List.length_cons, Nat.add_assoc]
          omega
        have hrest := ih i t hcount (by rwa [hfirst])
        rwa [hdelete, ← hsent, ← hpending]
      · rename_i hkind
        refine ih (i + 1) s (by omega) fun x hx => ?_
        rw [List.take_succ_eq_append_getElem hi, List.mem_append, List.mem_singleton] at hx
        rcases hx with hx | rfl
        · exact hk x hx
        · rw [he]
          unfold Entry.isKept
          simpa using hkind

/-- What is left is what is kept, in its order. -/
theorem deleteSessionless_entries (s : Store) : (deleteSessionless s.count 0 s).entries = s.entries.filter Entry.isKept := by
  obtain ⟨hsent, hpending⟩ := deleteSessionless_parts s.count 0 s (Nat.zero_add _).ge (by simp)
  rw [← Store.sent_append_pending, hsent, hpending, ← List.filter_append, Store.sent_append_pending]

end Delete

/-! ### Changes of state that keep the session -/

section States
variable {call : Value → Prog σ Bool} {w : World σ}

/- Entries that answer packets have no callback. -/
theorem clientFlushStore_silent (fuel : ℕ) (w : World σ) (h : ∀ e ∈ w.connectStore.entries, e.value.callback = none) :
    Wp (clientFlushStore call .connect fuel) w (fun _ w' => ∃ s : Store, s.entries = [] ∧ w' = { w with connectStore := s })
      fun _ _ => True := by
  induction fuel generalizing w with
  | zero =>
    simp only [clientFlushStore, wp_bind, wp_get]
    refine wp_if (fun _ => trivial) fun hs => ⟨w.connectStore, ?_, rfl⟩
    rw [← Store.shift_eq_none]
    exact Option.not_isSome_iff_eq_none.mp hs
  | succ fuel ih =>
    simp only [clientFlushStore, wp_bind, wp_get]
    split
    · rename_i hs
      exact ⟨w.connectStore, (Store.shift_eq_none _).mp hs, rfl⟩
    · rename_i e s hs
      obtain ⟨post, hr⟩ := Store.shift_spec _ _ _ hs
      have hcb := h e hr.mem
      simp only [wp_bind, wp_set, hcb, Option.isSome_none, Bool.false_eq_true, if_false]
      exact ih (w.setStore .connect s) fun x hx => h x (hr.subset hx)

theorem clientCleanupStores_keeps (w : World σ) (h : ∀ e ∈ w.connectStore.entries, e.value.callback = none) :
    Wp (clientCleanupStores env call true) w (fun _ w' => ∃ s : Store, s.entries = [] ∧
      w' = { w with mainStore := deleteSessionless w.mainStore.count 0 w.mainStore, connectStore := s }) fun _ _ => True := by
  simp only [clientCleanupStores, wp_bind, wp_modify, if_true]
  exact clientFlushStore_silent env.fuel _ h

/-- `client_set_state_connected` for a session that is kept. -/
theorem clientSetStateConnected_keeps (w : World σ) (hk : w.cleanSession = false)
    (h : ∀ e ∈ w.connectStore.entries, e.value.callback = none) :
    Wp (clientSetStateConnected env call) w (fun _ w' => w'.connectStore.entries = [] ∧
      w'.mainStore = (deleteSessionless w.mainStore.count 0 w.mainStore).unmarkAll ∧
      w'.tx = { w.tx with store := .main } ∧ w'.heap = w.heap ∧ w'.app = w.app ∧ w'.nextReq = w.nextReq ∧
      w'.currentStore = .main ∧ w'.ops.publish = true) fun _ _ => True := by
  simp only [clientSetStateConnected, clientSetCurrentStore, wp_bind, wp_modify, wp_get, hk, Bool.not_false]
  refine (clientCleanupStores_keeps _ ?_).mono (fun _ v hv => ?_) fun _ _ h => h
  · exact h
  · obtain ⟨s, hs, rfl⟩ := hv
    exact ⟨hs, rfl, rfl, rfl, rfl, rfl, rfl, trivial⟩

/-- `client_set_state_initial` for a session that is kept. -/
theorem clientSetStateInitial_keeps (w : World σ) (hk : w.cleanSession = false)
    (h : ∀ e ∈ w.connectStore.entries, e.value.callback = none) :
    Wp (clientSetStateInitial env) w (fun _ w' => w'.mainStore = deleteSessionless w.mainStore.count 0 w.mainStore ∧
      w'.cleanSession = false ∧ w'.heap = w.heap) fun _ _ => True := by
  simp only [clientSetStateInitial, setStateInitialWith, storeTouch, clientSetCurrentStore, lmqttTxBufferFinish,
    wp_bind, wp_modify, wp_get]
  simp only [World.setStore, hk, Bool.not_false]
  refine (clientCleanupStores_keeps _ ?_).mono (fun _ v hv => ?_) fun _ _ h => h
  · exact h
  · obtain ⟨s, hs, rfl⟩ := hv
    exact ⟨rfl, rfl, rfl⟩

end States

/-! ### Between two connections -/

/-- No connection is accepted, and the session is kept. -/
structure World.Resting (w : World σ) : Prop where
  current : w.currentStore = .connect
  rx : w.rx.store = .connect
  tx : w.tx.store = .connect
  requests : w.ops.requests = false
  keeps : w.cleanSession = false
  error : w.error ≠ some .closed

/-- The client was finalized. -/
structure World.Dead (w : World σ) : Prop where
  error : w.error = some .closed
  closed : w.closed = true
  ops : w.ops = {}

section Effects
variable {w w' : World σ}

theorem effect_dead (h : Effect env P w w') (hw : w.Dead) : w'.Dead := by
  obtain ⟨he, hc, ho⟩ := hw
  have hset : ∀ r s, (w.setStore r s).Dead := fun r s => by cases r <;> exact ⟨he, hc, ho⟩
  cases h with
  | clock r => exact hset _ _
  | ack e s _ _ => exact hset _ _
  | mark e _ _ => exact ⟨(hset _ _).error, (hset _ _).closed, (hset _ _).ops⟩
  | drop e _ _ => exact ⟨(hset _ _).error, (hset _ _).closed, (hset _ _).ops⟩
  | pop k id e s => exact ⟨(hset _ _).error, (hset _ _).closed, (hset _ _).ops⟩
  | pubrec e s t => exact ⟨(hset _ _).error, (hset _ _).closed, (hset _ _).ops⟩
  | shift r e s _ _ _ => exact ⟨(hset _ _).error, (hset _ _).closed, (hset _ _).ops⟩
  | accept kind id p s _ hreq =>
    rw [ho] at hreq
    contradiction
  | connecting p s hconn =>
    rw [ho] at hconn
    contradiction
  | connected p hcl =>
    rw [hc] at hcl
    contradiction
  | opened hcl =>
    rw [hc] at hcl
    contradiction
  | initial hne => exact absurd he hne
  | ready hnone =>
    rw [he] at hnone
    contradiction
  | failed e os hclosed => exact ⟨congrArg some (hclosed he), rfl, rfl⟩
  | _ => exact ⟨he, hc, ho⟩

/- The main store may change only in what is not kept. -/
theorem World.Resting.same (hw : w.Resting) (hc : w'.currentStore = w.currentStore) (hr : w'.rx.store = w.rx.store)
    (ht : w'.tx.store = w.tx.store) (ho : w'.ops.requests = false) (hk : w'.cleanSession = w.cleanSession)
    (he : w'.error ≠ some .closed) (hs : w'.mainStore.entries.filter Entry.isKept = w.mainStore.entries.filter Entry.isKept) :
    w'.Resting ∧ w'.session = w.session := by
  refine ⟨⟨?_, ?_, ?_, ho, ?_, he⟩, hs⟩
  · rw [hc, hw.current]
  · rw [hr, hw.rx]
  · rw [ht, hw.tx]
  · rw [hk, hw.keeps]

/-- Between two connections nothing changes what is kept of the main store. -/
theorem effect_resting (h : Effect env P w w') (hw : w.Resting) :
    w'.Resting ∧ w'.session = w.session ∨ (∃ b, w'.log = .connected b :: w.log) ∨ w'.Dead := by
  have hkept : ∀ {s : Store}, (w.setStore .connect s).Resting ∧ (w.setStore .connect s).session = w.session :=
    hw.same rfl rfl rfl hw.requests rfl hw.error rfl
  cases h with
  | clock r =>
    refine .inl ?_
    cases r <;> exact hw.same rfl rfl rfl hw.requests rfl hw.error rfl
  | ack e s _ _ =>
    rw [hw.rx]
    exact .inl hkept
  | mark e _ _ =>
    rw [hw.tx]
    exact .inl (hw.same rfl rfl rfl hw.requests rfl hw.error rfl)
  | drop e _ _ =>
    rw [hw.tx]
    exact .inl (hw.same rfl rfl rfl hw.requests rfl hw.error rfl)
  | pop k id e s =>
    rw [hw.rx]
    exact .inl (hw.same rfl rfl rfl hw.requests rfl hw.error rfl)
  | pubrec e s t =>
    rw [hw.rx]
    exact .inl (hw.same rfl rfl rfl hw.requests rfl hw.error rfl)
  | shift r e s hg _ _ =>
    cases r with
    | main =>
      rcases hg rfl with h | h
      · rw [hw.keeps] at h
        contradiction
      · exact absurd h hw.error
    | connect => exact .inl (hw.same rfl rfl rfl hw.requests rfl hw.error rfl)
  | accept kind id p s _ hreq =>
    rw [hw.requests] at hreq
    contradiction
  | enqueue kind s hk hs =>
    refine .inl (hw.same rfl rfl rfl hw.requests rfl hw.error ?_)
    change s.entries.filter _ = _
    rw [(Store.append_spec _ _ _ hs).entries, List.filter_append]
    rcases hk with rfl | rfl <;> exact List.append_nil _
  | sessionless _ =>
    refine .inl (hw.same rfl rfl rfl hw.requests rfl hw.error ?_)
    change (deleteSessionless _ _ _).entries.filter _ = _
    rw [deleteSessionless_entries, List.filter_filter]
    simp only [Bool.and_self]
  | connecting p s _ => exact .inl (hw.same rfl rfl rfl hw.requests rfl (by simp) rfl)
  | connected p => exact .inr (.inl ⟨_, rfl⟩)
  | opened _ hm =>
    rw [hw.current] at hm
    contradiction
  | initial _ => exact .inl (hw.same rfl rfl rfl hw.requests rfl (by simp) rfl)
  | detached _ => exact .inl ⟨⟨rfl, rfl, rfl, hw.requests, hw.keeps, hw.error⟩, rfl⟩
  | ready _ => exact .inl (hw.same rfl rfl rfl rfl rfl hw.error rfl)
  | failed e os _ =>
    by_cases he : e = .closed
    · exact .inr (.inr ⟨congrArg some he, rfl, rfl⟩)
    · exact .inl (hw.same rfl rfl rfl rfl rfl (by simpa using he) rfl)
  | _ => exact .inl (hw.same rfl rfl rfl hw.requests rfl hw.error rfl)

/- How many connections were accepted. -/
def Event.isConnected : Event → Bool
  | .connected _ => true
  | _ => false

def World.connections (w : World σ) : ℕ := w.log.countP Event.isConnected

theorem connections_le (h : ∃ evs, w'.log = evs ++ w.log) : w.connections ≤ w'.connections := by
  obtain ⟨evs, hl⟩ := h
  unfold World.connections
  rw [hl, List.countP_append]
  omega

theorem change_log (h : Change env P w w') : ∃ evs, w'.log = evs ++ w.log := by
  cases h with
  | effect h => exact effect_log h
  | buffers readBuf writeBuf => exact ⟨[], rfl⟩

theorem changes_log (h : Changes env P w w') : ∃ evs, w'.log = evs ++ w.log := by
  induction h with
  | refl => exact ⟨[], rfl⟩
  | tail _ h ih =>
    obtain ⟨evs, hl⟩ := ih
    obtain ⟨evs', hl'⟩ := change_log h
    exact ⟨evs' ++ evs, by rw [hl', hl, List.append_assoc]⟩

theorem change_resting (h : Change env P w w') (hw : w.Resting) (hn : w'.connections = w.connections) :
    w'.Resting ∧ w'.session = w.session ∨ w'.Dead := by
  cases h with
  | effect h =>
    rcases effect_resting h hw with hr | ⟨b, hl⟩ | hd
    · exact .inl hr
    · unfold World.connections at hn
      rw [hl, List.countP_cons_of_pos rfl] at hn
      omega
    · exact .inr hd
  | buffers readBuf writeBuf => exact .inl (hw.same rfl rfl rfl hw.requests rfl hw.error rfl)

theorem change_dead (h : Change env P w w') (hw : w.Dead) : w'.Dead := by
  cases h with
  | effect h => exact effect_dead h hw
  | buffers readBuf writeBuf => exact ⟨hw.error, hw.closed, hw.ops⟩

theorem changes_dead (h : Changes env P w w') (hw : w.Dead) : w'.Dead := by
  induction h with
  | refl => exact hw
  | tail _ h ih => exact change_dead h ih

theorem changes_resting (h : Changes env P w w') (hw : w.Resting) (hn : w'.connections = w.connections) :
    w'.Resting ∧ w'.session = w.session ∨ w'.Dead := by
  induction h with
  | refl => exact .inl ⟨hw, rfl⟩
  | tail hu h ih =>
    have hle := connections_le (changes_log hu)
    have hle' := connections_le (change_log h)
    rcases ih (by omega) with ⟨hr, hs⟩ | hd
    · rcases change_resting h hr (by omega) with ⟨hr', hs'⟩ | hd'
      · exact .inl ⟨hr', hs'.trans hs⟩
      · exact .inr hd'
    · exact .inr (change_dead h hd)

theorem steps_changes {C : World σ → Step σ → Prop} (hw : Live w) (h : Steps env C w w') :
    Changes env (fun _ => True) w w' ∧ Live w' := by
  induction h with
  | refl => exact ⟨.refl, hw⟩
  | step v v' s hv hc hs h ih =>
    obtain ⟨hch, hl⟩ := ih
    obtain ⟨hch', hl'⟩ := wp_ok (step_spec v s hl hs) h
    exact ⟨hch.trans hch', hl'⟩

/-- The session is kept until the next connection is accepted. -/
theorem steps_resting {C : World σ → Step σ → Prop} (hl : Live w) (h : Steps env C w w') (hw : w.Resting)
    (hn : w'.connections = w.connections) : w'.Resting ∧ w'.session = w.session ∨ w'.Dead :=
  changes_resting (steps_changes hl h).1 hw hn

end Effects

/-! ### The connection is accepted -/

/- The requests that are made as the application is told of the connection of the CONNECT `p`. -/
def Env.welcomes (env : Env σ) (a : σ) (p : Ptr) : List Request :=
  match env.onConnect with
  | some f => (f a p true).requests
  | none => []

/- The entry of a request. -/
def Entry.Asks (e : Entry) : Request → Prop
  | .subscribe p => e.kind = .subscribe ∧ e.value.value = p
  | .unsubscribe p => e.kind = .unsubscribe ∧ e.value.value = p
  | .publish p => e.kind.isPublish = true ∧ e.value.value = p
  | .disconnect => e.kind = .disconnect

/-- The entries are those of some of the requests, in their order. -/
def Requested (qs : List Request) (es : List Entry) : Prop := ∃ qs', qs'.Sublist qs ∧ List.Forall₂ Entry.Asks es qs'

/-- What a CONNACK for the CONNECT `p` leaves behind that resumes a session: the entries that
were kept, unmarked, and those of requests that were made as the application was told. -/
structure Resumed (env : Env σ) (p : Ptr) (w w' : World σ) : Prop where
  entries : ∃ added, w'.mainStore.entries = w.session ++ added ∧ Requested (env.welcomes w.app p) added
  unmarked : w'.mainStore.pos = 0
  tx : w'.tx = { w.tx with store := .main }
  heap : w'.heap = w.heap
  current : w'.currentStore = .main
  connects : w'.connectStore.entries = []

section Accept
variable {w w' : World σ} {bs : List Byte}

/- The store behind a request: as before, or with its entry at the end. -/
def Appends (w : World σ) (q : Request) (w' : World σ) : Prop :=
  w'.mainStore.entries = w.mainStore.entries ∨ ∃ e : Entry, e.Asks q ∧ w'.mainStore.entries = w.mainStore.entries ++ [e]

theorem clientAppendRequest_appends {q : Request} (kind : Kind) (cb : Callback) (id : PacketId) (p : Ptr) (w : World σ)
    (hq : ∀ e : Entry, e.kind = kind → e.value.value = p → e.Asks q) :
    Wp (clientAppendRequest kind cb id p) w (fun _ w' => Appends w q w') fun _ _ => False := by
  simp only [clientAppendRequest, wp_bind, wp_get]
  split
  · exact .inl rfl
  · rename_i s hs
    exact .inr ⟨_, hq _ rfl rfl, (Store.append_spec _ _ _ hs).entries⟩

theorem doRequest_appends (q : Request) (w : World σ) : Wp (doRequest q) w (fun _ w' => Appends w q w') fun _ _ => False := by
  have hsubscribe : ∀ (p : Ptr) (kind : Kind) (cb : Callback), (∀ e : Entry, e.kind = kind → e.value.value = p → e.Asks q) →
      Wp (clientSubscribeWithKind p kind cb) w (fun _ w' => Appends w q w') fun _ _ => False := by
    intro p kind cb hq
    simp only [clientSubscribeWithKind, clientGetId, wp_bind, wp_get]
    refine wp_if (fun _ => .inl rfl) fun _ => ?_
    exact clientAppendRequest_appends kind cb _ p _ hq
  cases q with
  | subscribe p =>
    simp only [doRequest, lmqttClientSubscribe, wp_bind, wp_get]
    exact wp_if (fun _ => hsubscribe p _ _ fun e hk hp => ⟨hk, hp⟩) fun _ => .inl rfl
  | unsubscribe p =>
    simp only [doRequest, lmqttClientUnsubscribe, wp_bind, wp_get]
    exact wp_if (fun _ => hsubscribe p _ _ fun e hk hp => ⟨hk, hp⟩) fun _ => .inl rfl
  | publish p =>
    simp only [doRequest, lmqttClientPublish, clientDoPublish, clientGetId, wp_bind, wp_get]
    refine wp_if (fun _ => ?_) fun _ => .inl rfl
    simp only [wp_bind, wp_get]
    refine wp_if (fun _ => .inl rfl) fun _ => wp_if (fun _ => ?_) fun _ => ?_
    · exact clientAppendRequest_appends _ _ _ p _ fun e hk hp => ⟨by rw [hk]; rfl, hp⟩
    · refine clientAppendRequest_appends _ _ _ p _ fun e hk hp => ⟨?_, hp⟩
      rw [hk]
      split <;> rfl
  | disconnect =>
    simp only [doRequest, lmqttClientDisconnect, clientDoDisconnect, wp_bind, wp_get]
    refine wp_if (fun _ => ?_) fun _ => .inl rfl
    simp only [wp_bind, wp_get]
    split
    · exact .inl rfl
    · rename_i s hs
      exact .inr ⟨⟨.disconnect, {}⟩, rfl, (Store.append_spec _ _ _ hs).entries⟩

theorem doRequests_requested (qs : List Request) (w : World σ) :
    Wp (doRequests qs) w (fun _ w' => ∃ added, w'.mainStore.entries = w.mainStore.entries ++ added ∧ Requested qs added)
      fun _ _ => False := by
  induction qs generalizing w with
  | nil => exact ⟨[], (List.append_nil _).symm, [], List.Sublist.refl _, .nil⟩
  | cons q qs ih =>
    simp only [doRequests, wp_bind]
    refine (doRequest_appends q w).mono (fun _ v hv => ?_) fun _ _ h => h
    refine (ih v).mono (fun _ u hu => ?_) fun _ _ h => h
    obtain ⟨added, hadded, qs', hsub, hall⟩ := hu
    rcases hv with hv | ⟨e, he, hv⟩
    · exact ⟨added, by rw [hadded, hv], qs', hsub.cons q, hall⟩
    · exact ⟨e :: added, by rw [hadded, hv, List.append_assoc]; rfl, q :: qs', hsub.cons_cons q, .cons he hall⟩

/- What the application asks for when it is told of the connection. -/
theorem callUser_requested (v : Value) (w : World σ) :
    Wp (callUser doRequests env.onConnect .onConnack v true) w (fun _ w' => ∃ added,
      w'.mainStore.entries = w.mainStore.entries ++ added ∧ Requested (env.welcomes w.app v.value) added) fun _ _ => False := by
  simp only [callUser, Env.welcomes, wp_bind, wp_emit]
  cases env.onConnect with
  | none => exact ⟨[], (List.append_nil _).symm, [], List.Sublist.refl _, .nil⟩
  | some f =>
    simp only [wp_bind, wp_get, wp_set, wp_pure]
    exact doRequests_requested _ _

theorem Called.resumed {u : World σ} {p : Ptr} (h : Called u w') (hu : Resumed env p w u) (hm : u.mainStore.entries = w.session)
    (hadded : ∃ added, w'.mainStore.entries = u.mainStore.entries ++ added ∧ Requested (env.welcomes w.app p) added) :
    Resumed env p w w' := by
  have hs := h.same
  rw [hm] at hadded
  refine ⟨hadded, h.pos.trans hu.unmarked, ?_, ?_, ?_, ?_⟩
  · rw [hs]
    exact hu.tx
  · rw [hs]
    exact hu.heap
  · rw [hs]
    exact hu.current
  · rw [hs]
    exact hu.connects

/-- The callback of a CONNACK for a CONNECT that asks for the session. -/
theorem callCallback_resumed (depth : ℕ) (v : Value) (w : World σ) (hv : v.callback = some .onConnack) (hc : w.closed = false)
    (hk : (w.heap.connects v.value).cleanSession = false) (he : w.connectStore.entries = []) :
    Wp (callCallback env depth v) w (fun _ w' => Resumed env v.value w w') fun _ _ => True := by
  cases depth with
  | zero =>
    rw [callCallback_requests]
    simp only [wp_bind, wp_get, hv, hc, Bool.false_eq_true, if_false, wp_throw]
  | succ depth =>
    rw [callCallback_requests]
    simp only [wp_bind, wp_get, wp_set, hv, hc, Bool.false_eq_true, if_false]
    refine (clientSetStateConnected_keeps _ ?_ ?_).mono (fun _ u hu => ?_) fun _ _ h => h
    · exact hk
    · intro e hmem
      change e ∈ w.connectStore.entries at hmem
      rw [he] at hmem
      contradiction
    · obtain ⟨hconnects, hmain, htx, hheap, happ, -, hcurrent, -⟩ := hu
      have hkept : u.mainStore.entries = w.session := by
        rw [hmain]
        exact deleteSessionless_entries { w.mainStore with keepAlive := _ }
      have hresumed : Resumed env v.value w (u.emit (.answered .onConnack v.req v.value true)) :=
        ⟨⟨[], hkept.trans (List.append_nil _).symm, [], List.nil_sublist _, .nil⟩, by rw [World.emit, hmain]; rfl, htx, hheap,
          hcurrent, hconnects⟩
      refine wp_of_ok fun _ t hrun => ?_
      have ht := wp_ok (callUser_called env (fun _ => True) u env.onConnect .onConnack v true) hrun
      have hadded := wp_ok (callUser_requested v u) hrun
      rw [happ] at hadded
      exact ht.1.resumed hresumed hkept hadded

/- Neither the place in the packet nor the log matters. -/
theorem Resumed.of_same {t u : World σ} {p : Ptr} (h : Resumed env p t u) (hm : t.mainStore = w.mainStore) (htx : t.tx = w.tx)
    (hh : t.heap = w.heap) (ha : t.app = w.app) (hm' : w'.mainStore = u.mainStore) (htx' : w'.tx = u.tx)
      (hh' : w'.heap = u.heap) (hc : w'.currentStore = u.currentStore)
    (hs : w'.connectStore = u.connectStore) : Resumed env p w w' := by
  obtain ⟨hentries, hpos, hutx, hheap, hcurrent, hconnects⟩ := h
  refine ⟨?_, ?_, ?_, ?_, ?_, ?_⟩
  · rw [hm']
    unfold World.session at hentries ⊢
    rwa [hm, ha] at hentries
  · rw [hm', hpos]
  · rw [htx', hutx, htx]
  · rw [hh', hheap, hh]
  · rw [hc, hcurrent]
  · rw [hs, hconnects]

theorem rxBufferFinishPacket_resumed (w : World σ) (hv : w.rx.internal.value.callback = some .onConnack) (hc : w.closed = false)
    (hk : (w.heap.connects w.rx.internal.value.value).cleanSession = false) (he : w.connectStore.entries = []) :
    Wp (rxBufferFinishPacket env rxBufferDecoderConnack) w (fun _ w' => Resumed env w.rx.internal.value.value w w') fun _ _ =>
        True := by
  simp only [rxBufferFinishPacket, wp_bind, wp_get]
  refine wp_if (fun h => by contradiction) fun _ => ?_
  simp only [wp_bind, wp_modify]
  refine (callCallback_resumed env.fuel w.rx.internal.value w.decoded hv hc hk he).mono (fun ok u hu => ?_) fun _ _ h => h
  refine wp_if (fun _ => ?_) fun _ => ?_
  · simp only [emitFinished, lmqttRxBufferReset, wp_bind, wp_modify, wp_pure]
    exact hu.of_same rfl rfl rfl rfl rfl rfl rfl rfl rfl
  · refine wp_assert_bind (fun _ => ?_) fun _ => trivial
    exact hu.of_same rfl rfl rfl rfl rfl rfl rfl rfl rfl

/-- The turn at the return code 0 of a CONNACK. -/
theorem rxBufferDecodeTurn_resumed (w : World σ) (hacc : w.Accepts bs) (hv : w.rx.internal.value.callback = some .onConnack)
    (hc : w.closed = false) (hk : (w.heap.connects w.rx.internal.value.value).cleanSession = false)
    (he : w.connectStore.entries = []) :
    Wp (rxBufferDecodeTurn env bs) w (fun _ w' => Resumed env w.rx.internal.value.value w w' ∨
        w'.connections = w.connections) fun _ _ => True := by
  obtain ⟨hfin, hdec, hpos, hcode⟩ := hacc
  have hconnack : Wp (rxBufferDecodeConnack env bs) w (fun r u => r = (.finished, 1) ∧ u = w) fun _ _ => True := by
    refine wp_assert_bind (fun _ => ?_) fun _ => trivial
    simp only [wp_bind, wp_get, hpos, hcode]
    exact ⟨rfl, rfl⟩
  simp only [rxBufferDecodeTurn, wp_bind, wp_get, hfin, hdec]
  simp only [rxBufferDecodeBodyTurn, wp_bind]
  change Wp (rxBufferDecodeRemainingWithoutId env rxBufferDecoderConnack bs) w _ _
  simp only [rxBufferDecodeRemainingWithoutId, wp_bind]
  refine hconnack.mono (fun r u hu => ?_) fun _ _ h => h
  obtain ⟨rfl, rfl⟩ := hu
  simp only [wp_get]
  refine wp_if (fun h => by contradiction) fun _ => ?_
  refine wp_assert_bind (fun _ => ?_) fun _ => trivial
  have hd : (u.advance 1).rx.internal.decoder = some rxBufferDecoderConnack := hdec
  simp only [wp_pure, rxBufferDecodedBytes, wp_bind, wp_modify, rxBufferEndTurn, wp_get, hd]
  refine wp_if (fun _ => ?_) fun _ => .inr rfl
  refine (wp_bind ..).mpr ((rxBufferFinishPacket_resumed (u.advance 1) hv hc hk he).mono (fun ok t ht => ?_) fun _ _ h => h)
  have hres : Resumed env u.rx.internal.value.value u t := ht.of_same rfl rfl rfl rfl rfl rfl rfl rfl rfl
  exact wp_if (fun _ => .inl hres) fun _ => .inl hres

end Accept

/-! ### The connect store of an open client -/

/- No CONNECT waits behind an accepted connection. -/
def World.Served (w : World σ) : Prop := w.currentStore = .main → w.connectStore.connects = 0

section Served
variable {w w' : World σ} {s : Step σ}

/- Only `lmqtt_client_connect` stores a CONNECT. -/
theorem effect_connects (h : Effect env P w w') (hw : w.connectStore.connects = 0) :
    w'.connectStore.connects = 0 ∨ ∃ r p, w'.log = .connecting r p :: w.log := by
  have hzero : ∀ {t : Store}, (∀ x ∈ t.entries, x ∈ w.connectStore.entries ∨ x.kind ≠ .connect) → t.connects = 0 := by
    intro t ht
    unfold Store.connects at hw ⊢
    rw [List.countP_eq_zero] at hw ⊢
    intro x hx
    rcases ht x hx with hx | hx
    · exact hw x hx
    · simpa using hx
  have hset : ∀ {r : StoreRef} {t : Store}, (∀ x ∈ t.entries, x ∈ (w.store r).entries ∨ x.kind ≠ .connect) →
      (w.setStore r t).connectStore.connects = 0 := by
    intro r t ht
    cases r with
    | main => exact hw
    | connect => exact hzero ht
  cases h with
  | clock r => exact .inl (hset fun x hx => .inl hx)
  | ack e s he hs =>
    refine .inl (hset fun x hx => ?_)
    rw [(Store.append_spec _ _ _ hs).entries, List.mem_append, List.mem_singleton] at hx
    rcases hx with hx | rfl
    · exact .inl hx
    · right
      rcases he.1 with hk | hk | hk <;> rw [hk] <;> decide
  | mark e hp _ =>
    obtain ⟨tl, hpend⟩ := Store.pending_of_peek hp
    refine .inl (hset fun x hx => .inl ?_)
    rwa [(Store.markCurrent_spec _ _ _ hpend).1] at hx
  | drop e hp _ =>
    obtain ⟨tl, hpend⟩ := Store.pending_of_peek hp
    exact .inl (hset fun x hx => .inl ((Store.dropCurrent_spec _ _ _ hpend).subset hx))
  | pop k id e s _ _ _ _ hs =>
    obtain ⟨pre, post, hrem, -⟩ := Store.popMarkedBy_spec _ _ _ _ _ hs
    exact .inl (hset fun x hx => .inl (hrem.subset hx))
  | pubrec e s t _ _ _ hs ht =>
    obtain ⟨pre, post, hrem, -⟩ := Store.popMarkedBy_spec _ _ _ _ _ hs
    refine .inl (hset fun x hx => ?_)
    rw [(Store.append_spec _ _ _ ht).entries, List.mem_append, List.mem_singleton] at hx
    rcases hx with hx | rfl
    · exact .inl (hrem.subset hx)
    · exact .inr (by simp)
  | shift r e s _ _ hs =>
    obtain ⟨post, hrem⟩ := Store.shift_spec _ _ _ hs
    exact .inl (hset fun x hx => .inl (hrem.subset hx))
  | connecting p s => exact .inr ⟨_, _, rfl⟩
  | _ => exact .inl hw

theorem changes_connects (h : Changes env P w w') (hw : w.connectStore.connects = 0)
    (hl : Logged (fun ev => ∀ r p, ev ≠ .connecting r p) w w') : w'.connectStore.connects = 0 := by
  obtain ⟨evs, hlog, hev⟩ := hl
  induction h generalizing evs with
  | refl => exact hw
  | @tail u v hu h ih =>
    obtain ⟨old, hold⟩ := changes_log hu
    obtain ⟨new, hnew⟩ := change_log h
    have heq : evs = new ++ old := by
      rw [hnew, hold, ← List.append_assoc] at hlog
      exact (List.append_cancel_right hlog).symm
    have hzero := ih old hold fun ev hmem => hev ev (by rw [heq]; exact List.mem_append_right _ hmem)
    cases h with
    | effect h =>
      rcases effect_connects h hzero with hz | ⟨r, p, hl⟩
      · exact hz
      · have hone : new = [.connecting r p] := List.append_cancel_right (hnew.symm.trans hl)
        have hmem : .connecting r p ∈ evs := by
          rw [heq, hone]
          exact List.mem_append_left _ (List.mem_singleton_self _)
        exact absurd rfl (hev _ hmem r p)
    | buffers readBuf writeBuf => exact hzero

/- Events that are not of the state of the client are no connects. -/
theorem Logged.no_connecting (h : Logged (fun ev => ev.isWire = false) w w') :
    Logged (fun ev => ∀ r p, ev ≠ .connecting r p) w w' := by
  refine h.mono fun ev he r p hev => ?_
  rw [hev] at he
  contradiction

theorem Does.served (hw : Live w) (hc : Changes env P w w') (h : Does env w s w') (ha : w.Served) : w'.Served := by
  intro hm
  -- without a connect none is stored
  have hquiet : w'.currentStore = w.currentStore → Logged (fun ev => ∀ r p, ev ≠ .connecting r p) w w' →
      w'.connectStore.connects = 0 := by
    intro hcurrent hlog
    exact changes_connects hc (ha (hcurrent.symm.trans hm)) hlog
  have hunmoved : Unmoved w w' → w'.connectStore.connects = 0 := by
    intro h
    refine hquiet ?_ h.log.no_connecting
    rw [h.same]
  cases h with
  | still h hr => exact hunmoved h.toStill.unmoved
  | deed h =>
    cases h with
    | still hn hk h => exact hunmoved h.unmoved
    | publish t res hr ht h => exact hunmoved (ht.unmoved.trans h.unmoved)
    | pubrel t hp hi ht h he => exact hunmoved ((ht.unmoved.trans (.setIds t _)).trans h.unmoved)
    | connack t e s hf ht hsound hpop h =>
      have hlog : Logged (fun ev => ev.isWire = false) t w' :=
        .one (by rw [h]; exact congrArg (_ :: ·) (World.setStore_log ..)) rfl
      refine hquiet ?_ (ht.unmoved.log.trans hlog).no_connecting
      rw [h]
      simp only [World.popped, World.emit, World.setRx, World.setStore_currentStore]
      rw [ht.same]
    | opened hf hd hp hb hv h =>
      obtain ⟨t, u, ht, hu, hend⟩ := h
      have hzero : w.connectStore.connects = 0 := by
        have hsingle := hw.sound.phase.single
        rw [RxInternal.connects, if_pos hv] at hsingle
        omega
      obtain ⟨b, evs, hl, he⟩ := hu.log
      have hlog : Logged (fun ev => ∀ r p, ev ≠ .connecting r p) t u := by
        refine ⟨evs ++ [.connected b], by rw [hl, List.append_assoc]; rfl, fun ev hev r p heq => ?_⟩
        rw [heq, List.mem_append, List.mem_singleton] at hev
        rcases hev with hev | hev
        · have hinner := he _ hev
          contradiction
        · contradiction
      exact changes_connects hc hzero ((ht.unmoved.log.no_connecting.trans hlog).trans hend.unmoved.log.no_connecting)
  | field e htx hp h =>
    have hs := h.same
    have hlog : w'.log = .encode e.kind e.value.packetId e.value.req w.tx.internal.pos :: w.log := by rw [hs]
    refine hquiet (by rw [hs]) (.one hlog ?_)
    intro r p hev
    contradiction
  | entry e htx hp h =>
    obtain ⟨u, hu, hw'⟩ := h
    have hdeparted : Logged (fun ev => ∀ r p, ev ≠ .connecting r p) w (w.departed e) := by
      have hlog : (w.departed e).log = .encoded e.kind e.value.packetId e.value.req :: w.log := World.setStore_log ..
      refine .one hlog ?_
      intro r p hev
      contradiction
    refine hquiet ?_ ((hdeparted.trans hu.toStill.unmoved.log.no_connecting).trans (.of_log ?_))
    · rw [hw']
      change u.currentStore = _
      rw [hu.same]
      exact World.setStore_currentStore ..
    · rw [hw']
  | connecting p s ho hs =>
    have hcurrent : w.currentStore = .main := hm
    rw [(hw.sound.phase.idle ho).1] at hcurrent
    contradiction
  | reverted ha h =>
    rw [h.same] at hm
    contradiction
  | failed e osError => exact ha hm
  | finalized h =>
    refine hquiet ?_ ?_
    · rw [h.same]
    · refine h.log.mono fun ev he r p hev => ?_
      rw [hev] at he
      contradiction

theorem stepped_served {C : World σ → Step σ → Prop} (w : World σ) (h : Stepped env C w) : w.Served := by
  induction h with
  | start buffers heap app w h =>
    intro hm
    rw [(start_reverted h).same] at hm
    contradiction
  | step w w' s hw hc hs h ih =>
    have hdoes := wp_ok (step_does w s hw.live hs) h
    exact hdoes.served hw.live (wp_ok (step_spec w s hw.live hs) h).1 ih

/- So nothing in it has a callback. -/
theorem stepped_silent {C : World σ → Step σ → Prop} (h : Stepped env C w) (hm : w.currentStore = .main) :
    ∀ e ∈ w.connectStore.entries, e.value.callback = none := by
  intro e he
  have hzero := stepped_served w h hm
  obtain ⟨-, hk | hack⟩ := h.live.sound.entries .connect e he
  · rw [Store.connects, List.countP_eq_zero] at hzero
    exact absurd (decide_eq_true hk) (hzero e he)
  · rw [hack.2]

end Served

/-! ### The encoder behind a CONNECT -/

/- While the CONNACK is awaited the encoder is as it was reset. -/
def World.Rested (w : World σ) : Prop :=
  w.error = none → w.output = some .awaiting → w.tx.internal = {} ∧ w.tx.closed = false

section Rested
variable {w w' : World σ} {s : Step σ}

theorem txBufferFinishEntry_rested (env : Env σ) (e : Entry) (w : World σ) (hr : e.kind.expectsResponse = true) :
    Wp (txBufferFinishEntry env e) w (fun _ w' => w'.tx.internal = {}) fun _ _ => True := by
  simp only [txBufferFinishEntry, lmqttTxBufferReset, wp_bind, wp_emit, wp_get]
  refine wp_if (fun hn => ?_) fun _ => rfl
  rw [hr] at hn
  contradiction

theorem Unmoved.rested (h : Unmoved w w') (htx : w'.tx = w.tx) (ho : w.Ordered) (hr : w.Rested) : w'.Rested := by
  intro he hout
  obtain ⟨o, ho, -⟩ := ho
  have hsame := (h.output ho).symm.trans hout
  rw [hsame] at ho
  rw [h.error] at he
  rw [htx]
  exact hr he ho

theorem fieldSent_rested {e : Entry} (hw : Sound w) (hc : w.tx.closed = false) (hp : w.txStore.peek = some e)
    (h : FieldSent w e w') (ho : w.Ordered) : w'.Rested := by
  intro he hout
  obtain ⟨o, ho, ha⟩ := ho
  have hs := h.same
  rw [hs] at he
  have hnext : w'.output = some o := by
    unfold World.output
    rw [hs]
    refine after_cons ho ?_
    rcases peek_allowed hw hc hp (ha he) with ⟨rfl, hk⟩ | ⟨rfl, hk⟩
    · exact if_pos hk
    · exact if_neg hk
  have heq := Option.some.inj (hnext.symm.trans hout)
  rcases peek_allowed hw hc hp (ha he) with ⟨rfl, -⟩ | ⟨rfl, -⟩ <;> contradiction

/- Behind the last field of the CONNECT the encoder is reset. -/
theorem entrySent_rested {e : Entry} (hw : Sound w) (hc : w.tx.closed = false) (hp : w.txStore.peek = some e)
    (h : EntrySent w e w') (ho : w.Ordered) (hr : e.kind.expectsResponse = true → w'.tx.internal = {}) : w'.Rested := by
  intro he hout
  obtain ⟨u, hu, hw'⟩ := h
  obtain ⟨o, ho, ha⟩ := ho
  have hwe : w.error = none := by
    have hue : u.error = (w.departed e).error := by rw [hu.same]
    have hde : (w.departed e).error = w.error := World.setStore_error ..
    rw [hw'] at he
    exact (hue.trans hde).symm.trans he
  have hsame : w'.output = u.output := by
    rw [hw']
    rfl
  have hlog : (w.departed e).output = o.next (.encoded e.kind e.value.packetId e.value.req) := by
    unfold World.output
    rw [show (w.departed e).log = _ from World.setStore_log _ _ _, show (w.emit _).log = _ :: w.log from rfl, After]
    change Option.bind w.output _ = _
    rw [ho, Option.bind_some]
  rcases peek_allowed hw hc hp (ha hwe) with ⟨rfl, hk⟩ | ⟨rfl, hk⟩
  · refine ⟨hr (by rw [hk]; rfl), ?_⟩
    rw [hw', hk]
    rfl
  · rw [Output.next, if_neg hk] at hlog
    have heq := Option.some.inj ((hu.toStill.unmoved.output hlog).symm.trans (hsame.symm.trans hout))
    split at heq <;> contradiction

theorem txBufferTurn_rested (w : World σ) (bufLen : ℕ) (hw : Sound w) (ho : w.Ordered) (hs : w.Rested) :
    Wp (txBufferTurn env bufLen) w (fun _ w' => w'.Rested) fun _ _ => True := by
  cases hc : w.tx.closed with
  | true =>
    simp only [txBufferTurn, wp_bind, wp_get, hc, if_true]
    exact hs
  | false =>
    cases hp : w.txStore.peek with
    | none =>
      simp only [txBufferTurn, wp_bind, wp_get, hc, hp]
      exact hs
    | some e =>
      refine wp_of_ok fun _ w' h => ?_
      rw [txBufferTurn_entry bufLen hc hp] at h
      obtain ⟨found, t, hfind, h⟩ := ok_bind h
      rcases txBufferFinder_ok hfind with ⟨x, rfl, hx⟩ | ⟨rfl, -, rfl⟩
      · have hsent := wp_ok (txBufferField_sent w t e x bufLen hx) h
        exact fieldSent_rested hw hc hp hsent ho
      · obtain ⟨ok, u, hfin, h⟩ := ok_bind h
        have hsent := wp_ok (txBufferFinishEntry_sent w e hw hp hc) hfin
        rw [← (ok_pure h).2]
        have hreset := fun hr => wp_ok (txBufferFinishEntry_rested env e { w with heap := w.heap.counted e } hr) hfin
        exact entrySent_rested hw hc hp hsent ho hreset

theorem opened_rested (hw : Sound w) (hcalls : w.rx.internal.calls = 0) (hwe : w.error = none)
    (hv : w.rx.internal.value.callback = some .onConnack) (h : OpenedIn w w') (ho : w.Ordered) : w'.Rested := by
  intro _ hout
  have hacc := (opened_accepts hw hcalls hwe hv h ho).1
  rw [hacc] at hout
  contradiction

theorem reverted_rested {o : Output} (h : Reverted w w') (ho : w.output = some o) : w'.Rested := by
  intro _ hout
  obtain ⟨evs, hl, he⟩ := h.log
  have hidle : w'.output = some .idle := by
    unfold World.output
    rw [hl]
    refine after_append (fun ev hev => Output.next_other _ (Event.not_isWire_of_inner (he ev hev))) (after_cons ho ?_)
    cases o <;> rfl
  rw [hidle] at hout
  contradiction

theorem Does.rested (hw : Live w) (hs : s.Enabled (fun _ => True) w) (h : Does env w s w') (ho : w.Ordered) (hr : w.Rested)
    (hsend : ∀ bufLen, s = .send bufLen → w'.Rested) : w'.Rested := by
  have hsound := hw.sound
  cases h with
  | still h hl =>
    refine h.toStill.unmoved.rested ?_ ho hr
    rw [h.same]
  | deed h =>
    obtain ⟨hwe, he, -⟩ := hs
    cases h with
    | still hn hk h =>
      refine h.unmoved.rested ?_ ho hr
      rw [h.same]
    | publish t res hc ht h =>
      have hu := ht.unmoved.trans h.unmoved
      refine hu.rested ?_ ho hr
      rw [hu.same]
    | pubrel t hp hi ht h herr =>
      have hu := (ht.unmoved.trans (.setIds t _)).trans h.unmoved
      refine hu.rested ?_ ho hr
      rw [hu.same]
    | connack t e s hf ht hst hpop h =>
      intro hwe' hout
      obtain ⟨o, ho, -⟩ := ho
      have hlog : w'.log = .popped e.kind 0 e.value.req :: t.log := by
        rw [h]
        exact congrArg (_ :: ·) (World.setStore_log _ _ _)
      have hsame : w'.output = some o := by
        unfold World.output
        rw [hlog]
        exact after_cons (ht.unmoved.output ho) (o.next_other rfl)
      rw [Option.some.inj (hsame.symm.trans hout)] at ho
      have htx : w'.tx = w.tx := by
        rw [h]
        simp only [World.popped, World.emit, World.setRx, World.setStore_tx]
        rw [ht.same]
      rw [htx]
      exact hr hwe ho
    | opened hf hd hp hb hv h => exact opened_rested hsound ((hw.decoding hwe).shape.calls he) hwe hv h ho
  | field e htx hp h => exact hsend _ rfl
  | entry e htx hp h => exact hsend _ rfl
  | connecting p s hc happ =>
    intro _ _
    exact ⟨rfl, rfl⟩
  | reverted ha h =>
    obtain ⟨o, hout, -⟩ := ho
    exact reverted_rested h hout
  | failed e osError =>
    intro he
    contradiction
  | finalized h =>
    intro he
    rw [h.same] at he
    contradiction

theorem stepped_rested {C : World σ → Step σ → Prop} (w : World σ) (h : Stepped env C w) : w.Rested := by
  induction h with
  | start buffers heap app w h =>
    exact reverted_rested (o := .idle) (start_reverted h) rfl
  | step w w' s hw hc hs h ih =>
    have hdoes := wp_ok (step_does w s hw.live hs) h
    refine hdoes.rested hw.live hs (stepped_ordered hw) ih ?_
    rintro bufLen rfl
    exact wp_ok (txBufferTurn_rested w bufLen hw.live.sound (stepped_ordered hw) ih) h

end Rested

/-! ### Sessions -/

/-- The connection of `u`, which kept the session, has ended in `w`: by the end of the stream, or by a
reset after a failure. -/
structure Lost {ρ : Type} [Reentrant ρ] (env : EnvOf σ ρ) (u w : World σ) : Prop where
  current : u.currentStore = .main
  keeps : u.cleanSession = false
  ends : ∃ a : Act σ, (a = .eof ∨ a = .reset ∧ u.closed = true ∧ u.error ≠ some .closed) ∧
    (Step.call a).Enabled (fun _ => True) u ∧ (Step.call a).run env u = .ok () w

/-- The step from `v` to `v'` accepts a connection that asked for the session. -/
structure Accepted {ρ : Type} [Reentrant ρ] (env : EnvOf σ ρ) (v v' : World σ) : Prop where
  reads : ∃ bs, (Step.read bs).Enabled (fun _ => True) v ∧ (Step.read bs).run env v = .ok () v'
  connected : v.connections < v'.connections
  keeps : (v.heap.connects v.rx.internal.value.value).cleanSession = false

section Session
variable {C : World σ → Step σ → Prop} {u v v' w w' : World σ}

theorem Logged.connections (h : Logged (fun ev => ev.isWire = false) w w') : w'.connections = w.connections := by
  obtain ⟨evs, hl, he⟩ := h
  have hnone : evs.countP Event.isConnected = 0 := by
    rw [List.countP_eq_zero]
    intro ev hev hconn
    have hwire := he ev hev
    cases ev <;> contradiction
  unfold World.connections
  rw [hl, List.countP_append, hnone, Nat.zero_add]

/- Only the return code of a CONNACK accepts a connection. -/
theorem Deed.accepts {bs : List Byte} (h : Deed env bs w w') (hc : w.connections < w'.connections) :
    w.Accepts bs ∧ w.rx.internal.value.callback = some .onConnack ∧ OpenedIn w w' := by
  have hquiet : Logged (fun ev => ev.isWire = false) w w' → w'.connections = w.connections := Logged.connections
  cases h with
  | opened hf hd hp hb hv h => exact ⟨⟨hf, hd, hp, hb⟩, hv, h⟩
  | still hn hk h =>
    have hsame := hquiet h.unmoved.log
    omega
  | publish t res hr ht h =>
    have hsame := hquiet (ht.unmoved.trans h.unmoved).log
    omega
  | pubrel t hp hi ht h he =>
    have hsame := hquiet ((ht.unmoved.trans (.setIds t _)).trans h.unmoved).log
    omega
  | connack t e s hf ht hsound hpop h =>
    have hlog : Logged (fun ev => ev.isWire = false) t w' :=
      .one (by rw [h]; exact congrArg (_ :: ·) (World.setStore_log ..)) rfl
    have hsame := hquiet (ht.unmoved.log.trans hlog)
    omega

/- Then nothing is left of the connect. -/
theorem opened_awaits (hw : Sound w) (hcalls : w.rx.internal.calls = 0) (hwe : w.error = none)
    (hv : w.rx.internal.value.callback = some .onConnack) (h : OpenedIn w w') (ho : w.Ordered) :
    w.output = some .awaiting ∧ w.closed = false ∧ w.connectStore.entries = [] := by
  obtain ⟨o, hout, ha⟩ := ho
  have ha := ha hwe
  obtain ⟨t, u, ht, hu, -⟩ := h
  have hclosed : w.closed = false := by
    have hcl := hu.alive
    rw [ht.same] at hcl
    exact hcl
  have hcs : w.tx.store = .connect := by
    rw [hw.txStore]
    exact hw.phase.awaited (by rw [RxInternal.connects, if_pos hv]) hcalls hclosed
  cases o with
  | idle =>
    rw [ha.1] at hclosed
    contradiction
  | opening => exact absurd hv (Reserved.not_holds hw ha.2.2.2.1)
  | awaiting =>
    refine ⟨hout, hclosed, ?_⟩
    rcases ha.2.2.2 with ⟨hr, -⟩ | ⟨he, -⟩
    · exact absurd hv (Reserved.not_holds hw hr)
    · exact he
  | accepted =>
    rw [ha.2] at hcs
    contradiction
  | done =>
    rw [ha.2.1] at hcs
    contradiction

theorem Accepted.resumed (hv : Stepped env C v) (h : Accepted env v v') :
    Resumed env v.rx.internal.value.value v v' ∧ v.tx.internal = {} ∧ v.tx.closed = false := by
  obtain ⟨bs, ⟨hwe, he, hne⟩, hrun⟩ := h.reads
  have hlive := hv.live
  have hordered := stepped_ordered hv
  have hcalls := (hlive.decoding hwe).shape.calls he
  have hdeed : Deed env bs v v' := by
    cases wp_ok (step_does v (.read bs) hlive ⟨hwe, he, hne⟩) hrun with
    | still hs hl => exact absurd trivial hl
    | deed hd => exact hd
  obtain ⟨hacc, hcb, hopened⟩ := hdeed.accepts h.connected
  obtain ⟨hout, hclosed, hempty⟩ := opened_awaits hlive.sound hcalls hwe hcb hopened hordered
  obtain ⟨turn, t, hturn, hrest⟩ := ok_bind hrun
  have ht : t = v' := (ok_pure hrest).2
  refine ⟨?_, stepped_rested v hv hwe hout⟩
  have hspec := wp_ok (rxBufferDecodeTurn_resumed v hacc hcb hclosed h.keeps hempty) hturn
  rw [ht] at hspec
  rcases hspec with hres | hsame
  · exact hres
  · have hlt := h.connected
    omega

theorem Accepted.not_dead (h : Accepted env v v') : ¬ v.Dead := by
  intro hd
  obtain ⟨bs, ⟨hwe, -⟩, -⟩ := h.reads
  rw [hd.error] at hwe
  contradiction

theorem Lost.stepped (hu : Stepped env C u) (h : Lost env u w) : Stepped env (fun _ _ => True) w := by
  obtain ⟨a, -, hen, hrun⟩ := h.ends
  exact .step u w _ (hu.mono fun _ _ _ => trivial) trivial hen hrun

/- The end of the connection keeps the session. -/
theorem Lost.rests (hu : Stepped env C u) (h : Lost env u w) : w.Resting ∧ w.session = u.session ∧ w.heap = u.heap := by
  obtain ⟨hcurrent, hkeeps, a, ha, hen, hrun⟩ := h
  have hlive := hu.live
  have hnone := stepped_silent hu hcurrent
  have hstart : u.error ≠ some .closed ∧ clientSetStateInitial env u = .ok () w := by
    rcases ha with rfl | ⟨rfl, hclosed, hne⟩
    · have hwe : u.error = none := hen.2
      exact ⟨by rw [hwe]; simp, hrun⟩
    · have hrun : lmqttClientReset env u = .ok () w := hrun
      rw [lmqttClientReset, resetWith, run_get_bind, if_pos (by simp [hclosed, hne])] at hrun
      exact ⟨hne, hrun⟩
  obtain ⟨hne, hinit⟩ := hstart
  have hrev := wp_ok (clientSetStateInitial_reverted u hlive.sound hne) hinit
  obtain ⟨hmain, hclean, hheap⟩ := wp_ok (clientSetStateInitial_keeps u hkeeps hnone) hinit
  have hsame := hrev.same
  refine ⟨⟨?_, ?_, ?_, ?_, hclean, ?_⟩, ?_, hheap⟩
  · rw [hsame]
  · rw [hsame]
  · rw [hsame]
  · rw [hsame]
    rfl
  · rw [hsame]
    simp
  · unfold World.session
    rw [hmain, deleteSessionless_entries, List.filter_filter]
    simp only [Bool.and_self]

/-- The session of `u` is the one that is resumed. -/
theorem Accepted.session (hu : Stepped env C u) (hlost : Lost env u w) (hsteps : Steps env C w v)
    (hnone : v.connections = w.connections) (hacc : Accepted env v v') :
    Resumed env v.rx.internal.value.value v v' ∧ v.session = u.session ∧ v'.tx = { store := .main } := by
  have hw := hlost.stepped hu
  obtain ⟨hres, hfresh, hopen⟩ := hacc.resumed (hsteps.stepped hw)
  obtain ⟨hrests, hsession, -⟩ := hlost.rests hu
  refine ⟨hres, ?_, ?_⟩
  · rcases steps_resting hw.live hsteps hrests hnone with ⟨-, hs⟩ | hd
    · exact hs.trans hsession
    · exact absurd hd hacc.not_dead
  · rw [hres.tx]
    change TxBuffer.mk .main v.tx.closed v.tx.internal = _
    rw [hfresh, hopen]

/- One step that can be run. -/
theorem runSteps_one {c : World σ → Step σ → Bool} {s : Step σ} (h : runSteps env c [s] w = some w') :
    s.Enabled (fun _ => True) w ∧ s.run env w = .ok () w' := by
  simp only [runSteps] at h
  split at h
  · rename_i hr
    rw [Bool.and_eq_true] at hr
    split at h
    · rename_i u hu
      cases h
      exact ⟨s.ready_enabled w hr.1, hu⟩
    · contradiction
  · contradiction

/- The end of a connection, and the next one that is accepted, in steps that can be run. -/
theorem lost_runs {c : World σ → Step σ → Bool} {ss : List (Step σ)} {bs : List Byte}
    (hw : runSteps env c [.call .eof] u = some w) (hv : runSteps env c ss w = some v)
    (hv' : runSteps env c [.read bs] v = some v') (hu : u.currentStore = .main ∧ u.cleanSession = false)
    (hn : v.connections = w.connections ∧ v.connections < v'.connections)
    (hk : (v.heap.connects v.rx.internal.value.value).cleanSession = false) :
    Lost env u w ∧ Steps env (fun _ _ => True) w v ∧ v.connections = w.connections ∧ Accepted env v v' := by
  obtain ⟨hen, hrun⟩ := runSteps_one hw
  obtain ⟨hen', hrun'⟩ := runSteps_one hv'
  have hall : ∀ (x : World σ) (s : Step σ), c x s = true → True := fun _ _ _ => trivial
  refine ⟨⟨hu.1, hu.2, .eof, .inl rfl, hen, hrun⟩, ?_, hn.1, ⟨⟨bs, hen', hrun'⟩, hn.2, hk⟩⟩
  exact steps_runSteps hall ss w w v .refl hv

end Session

/-! ### Runs that are interrupted -/

/-- A message is accepted in `start`, the connection ends in `cut`, and the next one is accepted behind `awaiting`. -/
structure Interrupted (σ : Type) where
  start : World σ
  cut : World σ
  lost : World σ
  awaiting : World σ
  again : World σ

def anyStep (_ : World σ) (_ : Step σ) : Bool := true

/- A connect, up to the return code of its CONNACK. -/
def connackSteps : List (Step σ) :=
  .call (.connect 0) :: List.replicate 8 (.send 64) ++ [[0x20], [2], [0]].map .read

/- The steps `ss` send the message in part. -/
def interruptedRun (env : Env σ) (heap : Heap) (app : σ) (ss : List (Step σ)) : Option (Interrupted σ) :=
  (runClientSteps env anyStep ⟨8, 64, 64, 4⟩ heap app
    (connackSteps ++ [.read [0], .call (.request (.publish 0))])).bind fun start =>
  (runSteps env anyStep ss start).bind fun cut =>
  (runSteps env anyStep [.call .eof] cut).bind fun lost =>
  (runSteps env anyStep connackSteps lost).bind fun awaiting =>
  (runSteps env anyStep [.read [0]] awaiting).map fun again => ⟨start, cut, lost, awaiting, again⟩

/- The session is kept, and no other connection is accepted. -/
def Interrupted.Keeps (r : Interrupted σ) : Prop :=
  (r.cut.currentStore = .main ∧ r.cut.cleanSession = false) ∧
    (r.awaiting.connections = r.lost.connections ∧ r.awaiting.connections < r.again.connections) ∧
    (r.awaiting.heap.connects r.awaiting.rx.internal.value.value).cleanSession = false

instance (r : Interrupted σ) : Decidable r.Keeps := inferInstanceAs (Decidable ((_ ∧ _) ∧ (_ ∧ _) ∧ _))

theorem interrupted_run {heap : Heap} {app : σ} {ss : List (Step σ)} {r : Interrupted σ}
    (h : interruptedRun env heap app ss = some r) (hk : r.Keeps) : Stepped env (fun _ _ => True) r.start ∧
      Steps env (fun _ _ => True) r.start r.cut ∧ Lost env r.cut r.lost ∧ Steps env (fun _ _ => True) r.lost r.awaiting ∧
      r.awaiting.connections = r.lost.connections ∧ Accepted env r.awaiting r.again := by
  obtain ⟨start, hstart, h⟩ := Option.bind_eq_some_iff.mp h
  obtain ⟨cut, hcut, h⟩ := Option.bind_eq_some_iff.mp h
  obtain ⟨lost, hlost, h⟩ := Option.bind_eq_some_iff.mp h
  obtain ⟨awaiting, hawaiting, h⟩ := Option.bind_eq_some_iff.mp h
  obtain ⟨again, hagain, rfl⟩ := Option.map_eq_some_iff.mp h
  obtain ⟨hsession, hconnections, hclean⟩ := hk
  have hall : ∀ (x : World σ) (s : Step σ), anyStep x s = true → True := fun _ _ _ => trivial
  have hsome := Option.isSome_iff_exists.mpr ⟨start, hstart⟩
  have hstepped : Stepped env (fun _ _ => True) (Option.get _ hsome) := stepped_get hall _ _ _ _ hsome
  rw [Option.get_of_eq_some hsome hstart] at hstepped
  exact ⟨hstepped, steps_runSteps hall _ start start cut .refl hcut,
    lost_runs hlost hawaiting hagain hsession hconnections hclean⟩

/- Calls of the encoder for what is pending. -/
def sendAll (env : Env σ) (sizes : List ℕ) (w : World σ) : Option (FlowState σ) :=
  runFlow env (sizes.map .encode) ⟨w.txStore.pending, [], [], w⟩

theorem sendAll_flow {w : World σ} {sizes : List ℕ} {s : FlowState σ} (h : sendAll env sizes w = some s) :
    Flow env w s.accepted s.answered s.bytes s.world := flow_run _ .start h

/- The message of `smallHeap`, at rest. -/
def SmallMessage (h : Heap) : Prop :=
  (publishValidate (h.publishes 0) = true ∧ publishLength (h.publishes 0) ≤ 268435455) ∧
    (h.publishes 0).topic.still = { len := 1, buf := some [97] } ∧
    (h.publishes 0).payload.still = { len := 1, buf := some [98] }

instance (h : Heap) : Decidable (SmallMessage h) := inferInstanceAs (Decidable ((_ ∧ _) ∧ _ ∧ _))

theorem inMemory_of_still {s : LString} {b : Byte} (h : s.still = { len := 1, buf := some [b] }) : s.InMemory := by
  have hread : s.read = false := congrArg LString.read h
  have hlen : s.len = 1 := congrArg LString.len h
  have hbuf : s.buf = some [b] := congrArg LString.buf h
  refine ⟨hread, by omega, .inr ⟨[b], hbuf, ?_⟩⟩
  rw [hlen]
  rfl

theorem SmallMessage.canSend {w : World σ} (h : SmallMessage w.heap) : w.CanSend (publishEntry 2 0 0 1) := by
  obtain ⟨⟨hvalid, hlen⟩, htopic, hpayload⟩ := h
  exact FitsPacket.canSend (publishEntry_wellTyped 2 0 0 1) ⟨hvalid, inMemory_of_still htopic, inMemory_of_still hpayload, hlen⟩

/-- A QoS 2 message that is cut inside its topic, and the next connection. -/
def cutRun : Option (Interrupted Unit) := interruptedRun memoryEnv smallHeap () (List.replicate 3 (.send 1))

/- Behind its CONNACK the message is sent in two calls. -/
theorem cutRun_facts : ∃ r ∈ cutRun, r.Keeps ∧ r.cut.mainStore.entries = [publishEntry 2 0 0 1] ∧
    (SmallMessage r.start.heap ∧ SmallMessage r.cut.heap ∧ SmallMessage r.again.heap) ∧
    ∃ s ∈ sendAll memoryEnv [3, 64] r.again, s.accepted = [publishEntry 2 0 0 1] ∧
      s.bytes = [0x34, 6, 0, 1, 97, 0, 0, 98] := by decide +kernel

theorem cut_run : ∃ r ∈ cutRun, (Stepped memoryEnv (fun _ _ => True) r.start ∧
      Steps memoryEnv (fun _ _ => True) r.start r.cut ∧ Lost memoryEnv r.cut r.lost ∧
      Steps memoryEnv (fun _ _ => True) r.lost r.awaiting ∧ r.awaiting.connections = r.lost.connections ∧
      Accepted memoryEnv r.awaiting r.again) ∧ r.cut.mainStore.entries = [publishEntry 2 0 0 1] ∧
    (SmallMessage r.start.heap ∧ SmallMessage r.cut.heap ∧ SmallMessage r.again.heap) ∧
    ∃ answered w, Flow memoryEnv r.again [publishEntry 2 0 0 1] answered [0x34, 6, 0, 1, 97, 0, 0, 98] w := by
  obtain ⟨r, hr, hkeeps, hentries, hsmall, s, hs, haccepted, hbytes⟩ := cutRun_facts
  have hflow := sendAll_flow hs
  rw [haccepted, hbytes] at hflow
  exact ⟨r, hr, interrupted_run hr hkeeps, hentries, hsmall, s.answered, s.world, hflow⟩

section Session
variable {C : World σ → Step σ → Prop} {u v v' w : World σ}

/-- A session that is kept is resumed: when a connection ends, and another one that asks for the session is
accepted, the main store holds the entries of the session again, in their order and all of them to be sent
anew, behind which only requests come that `on_connect` made as it was told; and the encoder is at the start of
the first of them. (The callbacks of the application only issue requests.) -/
theorem session_resumed (hu : Stepped env C u) (hlost : Lost env u w) (hsteps : Steps env C w v)
    (hnone : v.connections = w.connections) (hacc : Accepted env v v') :
    ∃ added, v'.mainStore.entries = u.mainStore.entries.filter Entry.isKept ++ added ∧
      Requested (env.welcomes v.app v.rx.internal.value.value) added ∧
      v'.mainStore.pos = 0 ∧ v'.tx.store = .main ∧ v'.tx.internal = {} ∧ v'.tx.closed = false := by
  obtain ⟨hres, hkept, htx⟩ := hacc.session hu hlost hsteps hnone
  obtain ⟨added, hadded, hasked⟩ := hres.entries
  refine ⟨added, by rw [hadded, hkept]; rfl, hasked, hres.unmarked, ?_, ?_, ?_⟩ <;> rw [htx]

theorem session_resumed_run : ∃ (v' : World Unit) (added : List Entry),
    (∃ r ∈ cutRun, r.cut.mainStore.entries = [publishEntry 2 0 0 1] ∧ r.again = v') ∧
    v'.mainStore.entries = publishEntry 2 0 0 1 :: added ∧ Requested [] added ∧ v'.mainStore.pos = 0 ∧
    v'.tx.store = .main ∧ v'.tx.internal = {} ∧ v'.tx.closed = false := by
  obtain ⟨r, hr, ⟨hstart, hcut, hlost, hsteps, hnone, hacc⟩, hentries, -⟩ := cut_run
  obtain ⟨added, hadded, hrest⟩ := session_resumed (hcut.stepped hstart) hlost hsteps hnone hacc
  rw [hentries] at hadded
  exact ⟨r.again, added, ⟨r, hr, hentries, rfl⟩, hadded, hrest⟩

end Session

/-! ### What is sent again -/

section Resent
variable {C : World σ → Step σ → Prop} {u v v' w w' : World σ} {e : Entry} {es answered : List Entry} {bs : List Byte}
  {rest : σ → ℕ → List Byte}

/- Only a message is counted. -/
theorem counted_of_not_publish (h : Heap) (hk : e.kind.isPublish = false) : h.counted e = h := by
  unfold Heap.counted
  cases he : e.kind <;> first | rfl | (rw [he] at hk; contradiction)

/-- Between two connections the objects of the requests stay as they are. -/
theorem step_resting_objects (hw : Live w) (ht : w.tx.store = .connect) {s : Step σ} (hs : s.Enabled (fun _ => True) w)
    (h : s.run env w = .ok () w') : w'.heap.still = w.heap.still := by
  have hdoes := wp_ok (step_does w s hw hs) h
  cases hdoes with
  | still h hl => exact h.heap
  | deed h => exact h.objects
  | field e hc hp h => exact h.heap
  | entry e hc hp h =>
    obtain ⟨x, hx, hw'⟩ := h
    obtain ⟨tl, hpend⟩ := Store.pending_of_peek hp
    have hmem := (Store.dropCurrent_spec _ _ _ hpend).mem
    rw [World.txStore, ht] at hmem
    have hk : e.kind.isPublish = false := by
      obtain ⟨-, hk | hk⟩ := hw.sound.entries .connect e hmem
      · rw [hk]
        rfl
      · rcases hk.1 with hk | hk | hk <;> rw [hk] <;> rfl
    have hheap : w'.heap = x.heap := by rw [hw']
    have hdeparted : (w.departed e).heap = w.heap := counted_of_not_publish w.heap hk
    rw [hheap, hx.heap, hdeparted]
  | connecting p s hc happ => rfl
  | reverted ha h => rw [h.same]
  | failed e osError => rfl
  | finalized h => rw [h.same]

theorem resting_objects (hl : Live w) (h : Steps env C w v) (hw : w.Resting)
    (hn : v.connections = w.connections) (hd : ¬ v.Dead) :
    v.heap.still = w.heap.still := by
  induction h with
  | refl => rfl
  | step x y s hx hc hs h ih =>
    have hlx := (steps_changes hl hx).2
    obtain ⟨hch, -⟩ := wp_ok (step_spec (P := fun _ => True) x s hlx hs) h
    have hle := connections_le (changes_log (steps_changes hl hx).1)
    have hle' := connections_le (changes_log hch)
    have hnx : x.connections = w.connections := by omega
    have hdx : ¬ x.Dead := fun hdx => hd (changes_dead hch hdx)
    rcases steps_resting hl hx hw hnx with ⟨hr, -⟩ | hdead
    · exact (step_resting_objects hlx hr.tx hs h).trans (ih hnx hdx)
    · exact absurd hdead hdx

theorem Accepted.objects (hu : Stepped env C u) (hlost : Lost env u w) (hsteps : Steps env C w v)
    (hnone : v.connections = w.connections) (hacc : Accepted env v v') : v'.heap.still = u.heap.still := by
  have hw := hlost.stepped hu
  obtain ⟨hres, -⟩ := hacc.resumed (hsteps.stepped hw)
  obtain ⟨hrests, -, hheap⟩ := hlost.rests hu
  rw [hres.heap, resting_objects hw.live hsteps hrests hnone hacc.not_dead, hheap]

theorem canSend_congr (hs : v.heap.still = w.heap.still) (h : w.CanSend e) : v.CanSend e := by
  obtain ⟨ht, hv, hstrings⟩ := h
  refine ⟨ht, (valid_congr hs e).mpr hv, fun r el ie hf => ?_⟩
  rw [entryFields_congr hs] at hf
  obtain ⟨x, i, -, hx⟩ := entryFields_mem hf
  obtain ⟨hl, hread, hb, -⟩ := string_still (field_str hx).1 hs
  obtain ⟨hmem, hlen⟩ := hstrings r el ie hf
  refine ⟨⟨hread.trans hmem.read, ?_, ?_⟩, ?_⟩
  · rw [hl]
    exact hmem.nonneg
  · rw [hl, hb]
    exact hmem.buffer
  · rw [hl]
    exact hlen

/- The packets of what is in memory depend on the objects only. -/
theorem packets_congr (hs : v.heap.still = w.heap.still) (h : ∀ e ∈ es, w.CanSend e) :
    v.packets rest es = w.packets rest es := by
  obtain ⟨hprovides, hmem⟩ := provides_of_canSend h
  unfold World.packets
  rw [lineFields_congr hs]
  refine List.flatMap_congr fun f hf => ?_
  cases f with
  | header bytes => rfl
  | str r el ie =>
    have hready := hprovides.ready _ hf
    have hread : (w.str r).read = false := hmem _ hf r el ie rfl
    refine (ready_of_still (str_still hready.1 hs) (fun ht => ?_) hready).2
    rw [hread] at ht
    contradiction

theorem Flow.accepted (h : Flow env w es answered bs v) : ∃ added, es = w.txStore.pending ++ added := by
  induction h with
  | start => exact ⟨[], (List.append_nil _).symm⟩
  | encode es answered bs v v' r n hv h ih => exact ih
  | append es answered bs v s e hv h ih =>
    obtain ⟨added, rfl⟩ := ih
    exact ⟨added ++ [e], List.append_assoc ..⟩
  | pop es answered bs v s e k id hv h ih => exact ih

/-- The encoder of a session that is resumed is in front of the first entry. -/
theorem Resumed.fresh (h : Resumed env v.rx.internal.value.value v v') (htx : v'.tx = { store := .main }) :
    v'.tx.internal = {} ∧ v'.tx.closed = false ∧ v'.txStore.sent = [] ∧ v'.txStore.pending = v'.mainStore.entries := by
  have hstore : v'.txStore = v'.mainStore := by
    unfold World.txStore
    rw [htx]
    rfl
  rw [hstore, Store.sent, Store.pending, h.unmarked]
  exact ⟨by rw [htx], by rw [htx], List.take_zero, List.drop_zero⟩

/-- What the encoder sends of a session that is resumed are the packets of its entries, in their order, made of
the objects as they were when the old connection ended, and then those of the requests of `on_connect` and of what
is stored later. The strings are in memory, and the callbacks of QoS 0 messages succeed, issue no requests and leave
the sources of strings alone. -/
theorem session_resent (hu : Stepped env C u) (hlost : Lost env u w) (hsteps : Steps env C w v)
    (hnone : v.connections = w.connections) (hacc : Accepted env v v') (h : Flow env v' es answered bs w')
    (hsend : ∀ e ∈ es, u.CanSend e) (hq : (∀ e ∈ es, e.kind ≠ .publish0) ∨ env.Silent rest) :
    (∃ added later, v'.mainStore.entries = u.mainStore.entries.filter Entry.isKept ++ added ∧
      Requested (env.welcomes v.app v.rx.internal.value.value) added ∧ es = v'.mainStore.entries ++ later) ∧
      bs ++ w'.owed rest = u.packets rest (untilDisconnect es) := by
  have hstill := hacc.objects hu hlost hsteps hnone
  obtain ⟨hres, hkept, htx⟩ := hacc.session hu hlost hsteps hnone
  obtain ⟨hfresh, hopen, hsent, hpending⟩ := hres.fresh htx
  obtain ⟨added, hentries, hasked⟩ := hres.entries
  obtain ⟨hprovides, hmem⟩ := provides_of_canSend fun e he => canSend_congr hstill (hsend e he)
  obtain ⟨later, hlater⟩ := h.accepted
  refine ⟨⟨added, later, by rw [hentries, hkept]; rfl, hasked, ?_⟩, ?_⟩
  · rw [hlater, hpending]
  · rw [(h.flowing hfresh hopen hsent hprovides (.inl hmem) hq).bytes]
    exact packets_congr hstill fun e he => hsend e ((untilDisconnect_starts es).mem he)

theorem session_resent_run : ∃ (u w : World Unit), (∃ r ∈ cutRun, r.cut = u) ∧
    u.mainStore.entries.filter Entry.isKept <+: [publishEntry 2 0 0 1] ∧
    [0x34, 6, 0, 1, 97, 0, 0, 98] ++ w.owed (fun _ _ => []) =
      u.packets (fun _ _ => []) (untilDisconnect [publishEntry 2 0 0 1]) := by
  obtain ⟨r, hr, ⟨hstart, hcut, hlost, hsteps, hnone, hacc⟩, hentries, ⟨-, hsmall, -⟩, answered, w, hflow⟩ := cut_run
  have hsend : ∀ e ∈ [publishEntry 2 0 0 1], r.cut.CanSend e := by
    intro e he
    rw [List.mem_singleton.mp he]
    exact hsmall.canSend
  obtain ⟨⟨added, later, hadded, -, hall⟩, hsent⟩ := session_resent (hcut.stepped hstart) hlost hsteps hnone hacc hflow hsend
    (.inl (by decide))
  rw [hadded, List.append_assoc] at hall
  exact ⟨r.cut, w, ⟨r, hr, rfl⟩, ⟨_, hall.symm⟩, hsent⟩

end Resent

end LightMqtt
