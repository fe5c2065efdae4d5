import LightMqtt.Run

/-!
# Accepted requests

Where the request of an accepted call of the API is: in the main store, with
the decoder that reads its response, or answered.
-/

namespace LightMqtt

open Exec

variable {σ : Type} {env : Env σ} {P : World σ → Prop}

/- The API returned 1 for the request `r`. -/
def World.Accepted (w : World σ) (r : ℕ) : Prop := ∃ kind id p u, Event.accepted r kind id p u ∈ w.log

/- The callback of the request was called. -/
def World.Answered (w : World σ) (r : ℕ) : Prop := ∃ cb p b, Event.answered cb (some r) p b ∈ w.log

/- The request is in the main store; it is the one whose response is read. -/
def World.Queued (w : World σ) (r : ℕ) : Prop := ∃ e ∈ w.mainStore.entries, e.value.req = some r
def World.Holds (w : World σ) (r : ℕ) : Prop := w.rx.internal.value.req = some r

/-- The request is somewhere. -/
def World.Accounted (w : World σ) (r : ℕ) : Prop := w.Queued r ∨ w.Holds r ∨ w.Answered r

def Event.acceptedAs (r : ℕ) : Event → Bool
  | .accepted r' .. => r' = r
  | _ => false

instance (w : World σ) (r : ℕ) : Decidable (w.Accepted r) :=
  decidable_of_iff (∃ e ∈ w.log, e.acceptedAs r = true) (by
    constructor
    · rintro ⟨e, he, h⟩
      cases e <;> simp only [Event.acceptedAs, decide_eq_true_eq, Bool.false_eq_true] at h
      subst h
      exact ⟨_, _, _, _, he⟩
    · rintro ⟨k, id, p, u, h⟩
      exact ⟨_, h, by simp [Event.acceptedAs]⟩)

instance (w : World σ) (r : ℕ) : Decidable (w.Answered r) :=
  decidable_of_iff (∃ e ∈ w.log, e.answeredAs r = true) (by
    constructor
    · rintro ⟨e, he, h⟩
      cases e <;> simp only [Event.answeredAs, decide_eq_true_eq, Bool.false_eq_true] at h
      subst h
      exact ⟨_, _, _, he⟩
    · rintro ⟨cb, p, b, h⟩
      exact ⟨_, h, by simp [Event.answeredAs]⟩)

instance (w : World σ) (r : ℕ) : Decidable (w.Queued r) := by
  unfold World.Queued
  infer_instance

instance (w : World σ) (r : ℕ) : Decidable (w.Accounted r) := by
  unfold World.Accounted World.Holds
  infer_instance

/- The decoder holds no request that is still to be answered. -/
def World.HandedOn (w : World σ) : Prop := ∀ r, w.Accepted r → w.Holds r → w.Answered r

/- No PUBREC of a request was processed by a build without assertions. -/
def World.Asserted (env : Env σ) (w : World σ) : Prop :=
  env.ndebug = false ∨ ∀ id, Event.finished typePubrec id ∉ w.log

section Accounted
variable {w w' : World σ} {r : ℕ}

/- A step that keeps what it does not answer. -/
theorem accounted_step (h : w.Accounted r) (hl : ∀ e ∈ w.log, e ∈ w'.log)
    (hq : ∀ e ∈ w.mainStore.entries, e.value.req = some r → w'.Accounted r)
    (hh : w.Holds r → w'.Accounted r) : w'.Accounted r := by
  rcases h with ⟨e, he, hr⟩ | hr | ⟨cb, p, b, ha⟩
  · exact hq e he hr
  · exact hh hr
  · exact .inr (.inr ⟨cb, p, b, hl _ ha⟩)

/- A step that keeps the entries of the main store and the decoder's request. -/
theorem accounted_keep (h : w.Accounted r) (hl : ∃ evs, w'.log = evs ++ w.log)
    (hq : ∀ e ∈ w.mainStore.entries, e.value.req.isSome = true → e ∈ w'.mainStore.entries)
    (hv : w'.rx.internal.value = w.rx.internal.value) : w'.Accounted r := by
  obtain ⟨evs, hl⟩ := hl
  apply accounted_step h
  · intro e he
    rw [hl]
    exact List.mem_append_right _ he
  · intro e he hr
    exact .inl ⟨e, hq e he (by rw [hr]; rfl), hr⟩
  · intro hr
    refine .inr (.inl ?_)
    unfold World.Holds at *
    rw [hv]
    exact hr

/- The callback of a request that leaves the main store is called. -/
theorem answers_request {e : Entry} (hw : Sound w) (he : e ∈ w.mainStore.entries)
    (hr : e.value.req = some r) :
    ∃ cb, w.answers e.value = [.answered cb (some r) e.value.value (!w.closed)] := by
  obtain ⟨⟨hcb, hreq⟩, hc⟩ := hw.entries .main e he
  rw [hr, Option.isSome_some] at hreq
  unfold World.answers
  rw [hr, hcb]
  generalize e.kind = k at hreq hc
  cases k <;> first
    | exact ⟨_, rfl⟩
    | exact absurd rfl hc
    | exact absurd hreq (by decide)

/- An entry leaves the main store: it is answered in the same step. -/
theorem accounted_remove {pre post : List Entry} {e : Entry} {s : Store} (hw : Sound w)
    (h : w.Accounted r) (hs : Store.Removed w.mainStore pre e post s) (hm : w'.mainStore = s)
    (hv : w'.rx.internal.value = w.rx.internal.value)
    (hl : ∃ evs, w'.log = w.answers e.value ++ (evs ++ w.log)) : w'.Accounted r := by
  obtain ⟨evs, hl⟩ := hl
  apply accounted_step h
  · intro x hx
    rw [hl]
    exact List.mem_append_right _ (List.mem_append_right _ hx)
  · intro x hx hr
    rcases hs.mem_or hx with rfl | hx
    · obtain ⟨cb, ha⟩ := answers_request hw hs.mem hr
      refine .inr (.inr ⟨cb, x.value.value, !w.closed, ?_⟩)
      rw [hl, ha]
      exact List.mem_append_left _ (List.mem_singleton.mpr rfl)
    · exact .inl ⟨x, by rw [hm]; exact hx, hr⟩
  · intro hr
    refine .inr (.inl ?_)
    unfold World.Holds at *
    rw [hv]
    exact hr

end Accounted

/-! ### Effects -/

def Event.isAccepted : Event → Bool
  | .accepted .. => true
  | _ => false

theorem answers_accepted (w : World σ) (v : Value) : ∀ ev ∈ w.answers v, ev.isAccepted = false := by
  intro ev hev
  unfold World.answers at hev
  split at hev <;> simp_all [Event.isAccepted]

theorem accepted_of_log {w w' : World σ} {r : ℕ} (evs : List Event) (hl : w'.log = evs ++ w.log)
    (hn : ∀ ev ∈ evs, ev.isAccepted = false) (h : w'.Accepted r) : w.Accepted r := by
  obtain ⟨k, id, p, u, hm⟩ := h
  rw [hl, List.mem_append] at hm
  rcases hm with hm | hm
  · have := hn _ hm
    contradiction
  · exact ⟨k, id, p, u, hm⟩

/- What is accepted is put into the main store. -/
theorem effect_accepted {w w' : World σ} (h : Effect env P w w') (r : ℕ) (hr : w'.Accepted r) :
    w.Accepted r ∨ w'.Queued r := by
  cases h with
  | accept kind id p s hk ho hs =>
    obtain ⟨k, id', p', u, hm⟩ := hr
    rcases List.mem_cons.mp hm with heq | hm
    · cases heq
      refine .inr ⟨⟨kind, ⟨id, p, kind.callback, some w.nextReq⟩⟩, ?_, rfl⟩
      rw [(Store.append_spec _ _ _ hs).entries]
      exact List.mem_append_right _ (List.mem_singleton.mpr rfl)
    · exact .inl ⟨k, id', p', u, hm⟩
  | note e he =>
    refine .inl (accepted_of_log [e] rfl ?_ hr)
    intro ev hev
    rw [List.mem_singleton.mp hev]
    cases e <;> simp_all [Event.isNote, Event.isAccepted]
  | clock | ack => exact .inl (accepted_of_log [] (by simp) (by simp) hr)
  | mark | pop =>
    exact .inl (accepted_of_log [_] (by simp [World.emit, World.setRx]; rfl) (by simp [Event.isAccepted]) hr)
  | encode | pubrecLost | connack | finish | deliver | deliverOnce | connecting | connected | initial =>
    exact .inl (accepted_of_log [_] rfl (by simp [Event.isAccepted]) hr)
  | pubrec => exact .inl (accepted_of_log [_, _] rfl (by simp [Event.isAccepted]) hr)
  | shift => exact .inl (accepted_of_log _ rfl (answers_accepted w _) hr)
  | finalAnswer => exact .inl (accepted_of_log _ rfl (answers_accepted w.calling _) hr)
  | answer =>
    refine .inl (accepted_of_log _ (decoded_answered_log w _) (fun ev hev => ?_) hr)
    rcases List.mem_append.mp hev with hev | hev
    · exact answers_accepted w _ ev hev
    · rw [List.mem_singleton.mp hev]
      rfl
  | drop e hp hr' =>
    refine .inl (accepted_of_log (w.answers e.value ++ [.encoded e.kind e.value.packetId e.value.req])
      (by simp) ?_ hr)
    intro ev hev
    rcases List.mem_append.mp hev with hev | hev
    · exact answers_accepted w _ ev hev
    · rw [List.mem_singleton.mp hev]
      rfl
  | _ => exact .inl hr

/-- Every effect keeps all accepted requests accounted for. -/
theorem accounted_effect {w w' : World σ} (h : Effect env P w w') (hw : Sound w)
    (hp : ∀ v, P v → v.HandedOn) (ha : w'.Asserted env) (r : ℕ) (hi : w.Accepted r → w.Accounted r)
    (hr : w'.Accepted r) : w'.Accounted r := by
  rcases effect_accepted h r hr with hacc | hq
  · have hlog := effect_log h
    have hold := hi hacc
    have hkeep := fun hq hv => accounted_keep hold hlog hq hv
    cases h with
    | app | heap | timeout | tx | txClosed | note | nextId | encode | answer | finalAnswer | connack | remember | deliver
    | deliverOnce | release | connected | clearIds | opened | initial | detached | ready | failed =>
      exact hkeep (fun _ he _ => he) rfl
    | clock r' =>
      refine hkeep (fun e he _ => ?_) (by simp)
      cases r' <;> exact he
    | rx i hv => exact hkeep (fun _ he _ => he) hv.1
    | accept kind id p s hk ho hs =>
      refine hkeep (fun e he _ => ?_) rfl
      rw [(Store.append_spec _ _ _ hs).entries]
      exact List.mem_append_left _ he
    | enqueue kind s hk hs =>
      refine hkeep (fun e he _ => ?_) rfl
      rw [(Store.append_spec _ _ _ hs).entries]
      exact List.mem_append_left _ he
    | ack e s he hs =>
      refine hkeep (fun x hx _ => ?_) (by simp)
      unfold World.rxStore at hs
      cases hrs : w.rx.store with
      | main =>
        rw [hrs] at hs
        change x ∈ s.entries
        rw [(Store.append_spec _ _ _ hs).entries]
        exact List.mem_append_left _ hx
      | connect => exact hx
    | mark e hpk hr' =>
      refine hkeep (fun x hx _ => ?_) (by simp [World.emit])
      unfold World.txStore at *
      cases hts : w.tx.store with
      | main =>
        rw [hts] at hpk
        obtain ⟨rest, hpend⟩ := Store.pending_of_peek hpk
        change x ∈ (w.store .main).markCurrent.entries
        rw [(Store.markCurrent_spec _ _ _ hpend).1]
        exact hx
      | connect => exact hx
    | drop e hpk hr' =>
      obtain ⟨rest, hpend⟩ := Store.pending_of_peek hpk
      have hrem := Store.dropCurrent_spec _ _ _ hpend
      unfold World.txStore at *
      cases hts : w.tx.store with
      | main =>
        rw [hts] at hrem
        exact accounted_remove hw hold hrem rfl rfl ⟨[_], rfl⟩
      | connect => exact accounted_keep hold (by rw [hts] at hlog; exact hlog) (fun _ he _ => he) rfl
    | pop k id e s hk hv hi hc hs =>
      obtain ⟨pre, post, hrem, -⟩ := Store.popMarkedBy_spec _ _ _ _ _ hs
      obtain ⟨evs, hl⟩ := hlog
      apply accounted_step hold
      · intro x hx
        rw [hl]
        exact List.mem_append_right _ hx
      · intro x hx hxr
        unfold World.rxStore at hrem
        cases hrs : w.rx.store with
        | main =>
          rw [hrs] at hrem
          rcases hrem.mem_or hx with rfl | hx
          · exact .inr (.inl hxr)
          · exact .inl ⟨x, hx, hxr⟩
        | connect => exact .inl ⟨x, hx, hxr⟩
      · intro hh
        unfold World.Holds at hh
        rw [hv] at hh
        contradiction
    | pubrec e s t hk hv hy hs ht =>
      obtain ⟨pre, post, hrem, -⟩ := Store.popMarkedBy_spec _ _ _ _ _ hs
      obtain ⟨evs, hl⟩ := hlog
      apply accounted_step hold
      · intro x hx
        rw [hl]
        exact List.mem_append_right _ hx
      · intro x hx hxr
        unfold World.rxStore at hrem
        cases hrs : w.rx.store with
        | main =>
          -- the request goes back to the store under another kind
          rw [hrs] at hrem
          rcases hrem.mem_or hx with rfl | hx
          · refine .inl ⟨⟨.pubrel, x.value⟩, ?_, hxr⟩
            change _ ∈ t.entries
            rw [(Store.append_spec _ _ _ ht).entries]
            exact List.mem_append_right _ (List.mem_singleton.mpr rfl)
          · refine .inl ⟨x, ?_, hxr⟩
            change _ ∈ t.entries
            rw [(Store.append_spec _ _ _ ht).entries]
            exact List.mem_append_left _ hx
        | connect => exact .inl ⟨x, hx, hxr⟩
      · intro hh
        unfold World.Holds at hh
        rw [hv] at hh
        contradiction
    | pubrecLost hn he hk hy =>
      rcases ha with ha | ha
      · rw [hn] at ha
        contradiction
      · refine absurd ?_ (ha w.rx.internal.packetId)
        rw [← hy]
        exact List.mem_cons_self ..
    | finish hy he hans =>
      apply accounted_step hold
      · exact fun x hx => List.mem_cons_of_mem _ hx
      · exact fun x hx hxr => .inl ⟨x, hx, hxr⟩
      · intro hh
        obtain ⟨cb, p, b, hm⟩ := hans r hh
        exact .inr (.inr ⟨cb, p, b, List.mem_cons_of_mem _ hm⟩)
    | connecting p s ho hpw hs =>
      apply accounted_step hold
      · exact fun x hx => List.mem_cons_of_mem _ hx
      · exact fun x hx hxr => .inl ⟨x, hx, hxr⟩
      · intro hh
        obtain ⟨cb, p, b, hm⟩ := hp w hpw r hacc hh
        exact .inr (.inr ⟨cb, p, b, List.mem_cons_of_mem _ hm⟩)
    | sessionless hc =>
      refine hkeep (fun e he hreq => ?_) rfl
      have ht := (hw.entries .main e he).1.req
      rw [hreq] at ht
      refine (deleteSessionless_spec _ _ _ e).2.2 he ?_ ?_
      · intro hk
        rw [hk] at ht
        contradiction
      · intro hk
        rw [hk] at ht
        contradiction
    | shift r' e s hr' hf hs =>
      obtain ⟨post, hrem⟩ := Store.shift_spec _ _ _ hs
      cases r' with
      | main => exact accounted_remove hw hold hrem rfl rfl ⟨[], rfl⟩
      | connect => exact hkeep (fun _ he _ => he) rfl
  · exact .inl hq

/-- No accepted request is lost in a run in which assertions are evaluated, or
no PUBREC is processed, and every connect finds the decoder without a request
that is still to be answered. -/
theorem requests_accounted (w : World σ) (h : Reached env World.HandedOn w) (ha : w.Asserted env) (r : ℕ)
    (hr : w.Accepted r) : w.Accounted r := by
  have hinv : w.Asserted env → ∀ r, w.Accepted r → w.Accounted r := by
    refine reached_invariant (I := fun v => v.Asserted env → ∀ r, v.Accepted r → v.Accounted r)
      (fun v v' hs he hv ha r hr => ?_) (fun _ _ _ hv => hv) (fun buffers heap app _ r hr => ?_) w h
    · obtain ⟨evs, hl⟩ := effect_log he
      have hva : v.Asserted env := by
        rcases ha with ha | ha
        · exact .inl ha
        · refine .inr fun id hm => ha id ?_
          rw [hl]
          exact List.mem_append_right _ hm
      exact accounted_effect he hs (fun _ h => h) ha r (hv hva r) hr
    · obtain ⟨k, id, p, u, hm⟩ := hr
      contradiction
  exact hinv ha r hr

/- A connection ends behind the packet id of a SUBACK. -/
def heldActs : List (Act Unit) :=
  connectKept ++ [.request (.subscribe 0), .encode 64, .decode [0x90, 3, 0, 0], .eof]

theorem lostRun_isSome : (runClient memoryEnv anyConnect ⟨8, 64, 64, 4⟩ smallHeap ()
    (heldActs ++ [.connect 0])).isSome = true := by decide +kernel

/-- The next connect loses the request. -/
theorem request_lost : ∃ (w : World Unit) (r : ℕ), Reached memoryEnv (fun _ => True) w ∧
    w.Accepted r ∧ ¬ w.Accounted r :=
  ⟨_, 1, reached_get anyConnect_true _ _ _ _ lostRun_isSome, by decide +kernel⟩

/- A connect where the decoder holds no request at all. -/
def idleConnect (w : World σ) : Bool := w.rx.internal.value.req.isNone

theorem idleConnect_handedOn (v : World σ) (h : idleConnect v = true) : v.HandedOn := by
  intro r _ hr
  unfold World.Holds at hr
  unfold idleConnect at h
  rw [hr] at h
  contradiction

theorem heldRun_isSome : (runClient memoryEnv idleConnect ⟨8, 64, 64, 4⟩ smallHeap ()
    heldActs).isSome = true := by decide +kernel

theorem requests_accounted_run : ∃ w : World Unit, w.Accepted 1 ∧ w.Accounted 1 := by
  obtain ⟨w, hw, hacc⟩ : ∃ w : World Unit, Reached memoryEnv World.HandedOn w ∧ w.Accepted 1 :=
    ⟨_, reached_get idleConnect_handedOn _ _ _ _ heldRun_isSome, by decide +kernel⟩
  exact ⟨w, hacc, requests_accounted w hw (.inl rfl) 1 hacc⟩

end LightMqtt
