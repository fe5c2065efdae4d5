import LightMqtt.Redelivery
import LightMqtt.Reentry

/-!
# Flushing a session

At the end of a connection with a clean session `client_set_state_initial` calls
back every request that is left, while the functions of the API still work.
-/

namespace LightMqtt

open Exec

variable {σ ρ : Type} [Reentrant ρ] {env : EnvOf σ ρ}

/-! ### Requests and their checks -/

/- The checks of a request: its function works, and its object is valid. -/
def World.grants (w : World σ) : Request → Bool
  | .subscribe p => w.ops.subscribe && subscribeValidate (w.heap.subscribes p)
  | .unsubscribe p => w.ops.unsubscribe && subscribeValidate (w.heap.subscribes p)
  | .publish p => w.ops.publish && publishValidate (w.heap.publishes p)
  | .disconnect => w.ops.disconnect

/- The calls of a callback that change more: requests that pass their checks and find room, a connect where
   the client can be connected, and every reset or finalize. -/
def World.allows (w : World σ) : Reentry → Bool
  | .request q => w.grants q && w.mainStore.isQueueable
  | .connect _ => w.ops.connect
  | .reset | .finalize => true

/-- A request was refused: at most a packet id was spent. -/
structure Refused (w w' : World σ) : Prop where
  same : w' = { w with mainStore := w'.mainStore, ids := w'.ids }
  entries : w'.mainStore.entries = w.mainStore.entries
  capacity : w'.mainStore.capacity = w.mainStore.capacity

section Requests
variable {w w' w'' : World σ}

theorem Refused.refl (w : World σ) : Refused w w := ⟨rfl, rfl, rfl⟩

theorem Refused.trans (h : Refused w w') (h' : Refused w' w'') : Refused w w'' := by
  refine ⟨?_, h'.entries.trans h.entries, h'.capacity.trans h.capacity⟩
  rw [h'.same, h.same]

theorem Refused.grants (h : Refused w w') (q : Request) : w'.grants q = w.grants q := by
  rw [h.same]
  cases q <;> rfl

theorem Refused.room (h : Refused w w') : w'.mainStore.isQueueable = w.mainStore.isQueueable := by
  rw [Store.isQueueable, Store.isQueueable, Store.count, Store.count, h.entries, h.capacity]

/- There is room where an entry can be appended. -/
theorem isQueueable_append (s : Store) (e : Entry) : s.isQueueable = (s.append e).isSome := by
  unfold Store.isQueueable Store.append
  split
  · rename_i h
    exact decide_eq_true h
  · rename_i h
    exact decide_eq_false h

/- `lmqtt_store_append` for a request. -/
theorem clientAppendRequest_answer (kind : Kind) (cb : Callback) (id : PacketId) (p : Ptr) (w : World σ) :
    Wp (clientAppendRequest kind cb id p) w (fun ok w' => ok = w.mainStore.isQueueable ∧ (ok = false → w' = w))
      fun _ _ => False := by
  simp only [clientAppendRequest, wp_bind, wp_get]
  split
  · rename_i hs
    exact ⟨by rw [isQueueable_append, hs]; rfl, fun _ => rfl⟩
  · rename_i s hs
    exact ⟨by rw [isQueueable_append, hs]; rfl, fun h => by contradiction⟩

/- The same with a packet id. -/
theorem clientAppendRequest_id (kind : Kind) (cb : Callback) (p : Ptr) (w : World σ) :
    Wp (do let id ← clientGetId; clientAppendRequest kind cb id p : Prog σ Bool) w
      (fun ok w' => ok = w.mainStore.isQueueable ∧ (ok = false → Refused w w')) fun _ _ => False := by
  simp only [clientGetId, wp_bind, wp_get, wp_set, wp_pure]
  refine (clientAppendRequest_answer kind cb _ p _).mono (fun ok w' h => ⟨h.1, fun hok => ?_⟩) fun _ _ h => h
  rw [h.2 hok]
  exact ⟨rfl, rfl, rfl⟩

/-- A request is accepted where it passes its checks and the store has room. -/
theorem doRequest_answer (q : Request) (w : World σ) :
    Wp (doRequest q) w (fun ok w' => ok = (w.grants q && w.mainStore.isQueueable) ∧ (ok = false → Refused w w'))
      fun _ _ => False := by
  have hsubscribe : ∀ (p : Ptr) (kind : Kind) (cb : Callback), Wp (clientSubscribeWithKind p kind cb) w
      (fun ok w' => ok = (subscribeValidate (w.heap.subscribes p) && w.mainStore.isQueueable) ∧
        (ok = false → Refused w w')) fun _ _ => False := by
    intro p kind cb
    simp only [clientSubscribeWithKind]
    refine wp_if (fun hv => ?_) fun hv => ?_
    · have hv : subscribeValidate (w.heap.subscribes p) = false := by simpa using hv
      exact ⟨by rw [hv]; rfl, fun _ => .refl w⟩
    · have hv : subscribeValidate (w.heap.subscribes p) = true := by simpa using hv
      rw [hv, Bool.true_and]
      exact clientAppendRequest_id kind cb p w
  have hoff : ∀ (b c : Bool), ¬ b = true → false = (b && c) := by
    intro b c hb
    rw [Bool.eq_false_iff.mpr hb, Bool.false_and]
  cases q with
  | subscribe p =>
    simp only [doRequest, lmqttClientSubscribe, World.grants, wp_bind, wp_get, Bool.and_assoc]
    refine wp_if (fun ho => ?_) fun ho => ⟨hoff _ _ ho, fun _ => .refl w⟩
    rw [ho, Bool.true_and]
    exact hsubscribe p _ _
  | unsubscribe p =>
    simp only [doRequest, lmqttClientUnsubscribe, World.grants, wp_bind, wp_get, Bool.and_assoc]
    refine wp_if (fun ho => ?_) fun ho => ⟨hoff _ _ ho, fun _ => .refl w⟩
    rw [ho, Bool.true_and]
    exact hsubscribe p _ _
  | publish p =>
    simp only [doRequest, lmqttClientPublish, World.grants, wp_bind, wp_get, Bool.and_assoc]
    refine wp_if (fun ho => ?_) fun ho => ⟨hoff _ _ ho, fun _ => .refl w⟩
    rw [ho, Bool.true_and]
    simp only [clientDoPublish, wp_bind, wp_get]
    refine wp_if (fun hv => ?_) fun hv => ?_
    · have hv : publishValidate (w.heap.publishes p) = false := by simpa using hv
      exact ⟨by rw [hv]; rfl, fun _ => .refl w⟩
    · have hv : publishValidate (w.heap.publishes p) = true := by simpa using hv
      rw [hv, Bool.true_and]
      refine wp_if (fun _ => ?_) fun _ => clientAppendRequest_id _ _ p w
      refine (clientAppendRequest_answer _ _ _ p w).mono (fun ok w' h => ⟨h.1, fun hok => ?_⟩) fun _ _ h => h
      rw [h.2 hok]
      exact .refl w
  | disconnect =>
    simp only [doRequest, lmqttClientDisconnect, World.grants, wp_bind, wp_get]
    refine wp_if (fun ho => ?_) fun ho => ⟨hoff _ _ ho, fun _ => .refl w⟩
    rw [ho, Bool.true_and]
    simp only [clientDoDisconnect, wp_bind, wp_get]
    split
    · rename_i hs
      exact ⟨by rw [isQueueable_append, hs]; rfl, fun _ => .refl w⟩
    · rename_i s hs
      exact ⟨by rw [isQueueable_append, hs]; rfl, fun h => by contradiction⟩

theorem Refused.allows (h : Refused w w') (q : Reentry) : w'.allows q = w.allows q := by
  cases q with
  | request q => exact congrArg₂ and (h.grants q) h.room
  | connect p =>
    rw [h.same]
    rfl
  | reset => rfl
  | finalize => rfl

/-- A call of a callback is answered with 0. A reset and a finalize are no requests. -/
def Reentry.Refuses (v : World σ) : Reentry → Prop
  | request q => ∃ v', doRequest q v = .ok false v'
  | connect p => ∃ v', lmqttClientConnect p v = .ok false v'
  | reset | finalize => True

/- A connect where the function is switched off. -/
theorem lmqttClientConnect_off (p : Ptr) (w : World σ) (h : w.ops.connect = false) :
    lmqttClientConnect p w = .ok false w := by
  rw [lmqttClientConnect, run_get_bind, if_neg (by simp [h])]
  rfl

omit [Reentrant ρ] in
/- A call that the client does not allow. -/
theorem callbackCall_refused (env : EnvOf σ ρ) (inner : Option (Value → Prog σ Bool)) (q : Reentry) (w : World σ)
    (hq : w.allows q = false) :
    q.Refuses w ∧ ∃ w', callbackCall env inner q w = .ok () w' ∧ Refused w w' := by
  cases q with
  | request q =>
    obtain ⟨ok, v, hrun, hok, href⟩ := wp_exists (doRequest_answer q w)
    rw [hok.trans hq] at hrun
    exact ⟨⟨v, hrun⟩, v, run_bind_ok hrun, href (hok.trans hq)⟩
  | connect p =>
    have hrun := lmqttClientConnect_off p w hq
    exact ⟨⟨w, hrun⟩, w, run_bind_ok hrun, .refl w⟩
  | reset => contradiction
  | finalize => contradiction

/- Calls that are all refused. -/
theorem callbackCalls_refused (env : EnvOf σ ρ) (inner : Option (Value → Prog σ Bool)) (qs : List ρ) (w : World σ)
    (hq : ∀ q ∈ qs, w.allows (Reentrant.call q) = false) :
    ∃ w', callbackCalls env inner qs w = .ok () w' ∧ Refused w w' := by
  induction qs generalizing w with
  | nil => exact ⟨w, rfl, .refl w⟩
  | cons q qs ih =>
    obtain ⟨-, v, hrun, hv⟩ := callbackCall_refused env inner (Reentrant.call q) w (hq q List.mem_cons_self)
    obtain ⟨w', hrest, hw'⟩ := ih v fun q' hq' => by
      rw [hv.allows]
      exact hq q' (List.mem_cons_of_mem q hq')
    refine ⟨w', ?_, hv.trans hw'⟩
    rw [callbackCalls, run_bind_ok hrun]
    exact hrest

end Requests

/-! ### The callback of an entry -/

/- The callback of the application behind a callback of the client. -/
def EnvOf.user (env : EnvOf σ ρ) : Callback → Option (σ → Ptr → Bool → ReplyOf σ ρ)
  | .onConnack => env.onConnect
  | .onSuback => env.onSubscribe
  | .onUnsuback => env.onUnsubscribe
  | .onPublish => env.onPublish
  | .onPingresp => none

/- What the application answers to the failure of a request. -/
def EnvOf.reply (env : EnvOf σ ρ) (v : Value) (a : σ) : Option (ReplyOf σ ρ) :=
  (v.callback.bind env.user).map fun f => f a v.value false

theorem EnvOf.OnlyRequests.reply (h : env.OnlyRequests) {v : Value} {a : σ} {r : ReplyOf σ ρ} (hr : env.reply v a = some r) :
    r.OnlyRequests := by
  unfold EnvOf.reply at hr
  cases hcb : v.callback with
  | none => simp [hcb] at hr
  | some cb =>
    cases cb with
    | onPingresp => simp [hcb, EnvOf.user] at hr
    | onConnack =>
      rw [hcb, Option.bind_some, Option.map_eq_some_iff] at hr
      obtain ⟨f, hf, rfl⟩ := hr
      exact h.connect f hf _ _ _
    | onSuback =>
      rw [hcb, Option.bind_some, Option.map_eq_some_iff] at hr
      obtain ⟨f, hf, rfl⟩ := hr
      exact h.subscribe f hf _ _ _
    | onUnsuback =>
      rw [hcb, Option.bind_some, Option.map_eq_some_iff] at hr
      obtain ⟨f, hf, rfl⟩ := hr
      exact h.unsubscribe f hf _ _ _
    | onPublish =>
      rw [hcb, Option.bind_some, Option.map_eq_some_iff] at hr
      obtain ⟨f, hf, rfl⟩ := hr
      exact h.publish f hf _ _ _

/-- On a closed connection the callback of a value tells the application of the failure. -/
theorem callCallback_closed (env : EnvOf σ ρ) (depth : ℕ) (v : Value) (w : World σ) (hc : w.closed = true) :
    callCallback env depth v w = match env.reply v w.app with
      | some r => (do callbackCalls env (callInside env depth) r.requests; pure r.ok : Prog σ Bool)
        { w.answered v with app := r.app }
      | none => .ok true (w.answered v) := by
  have huser : ∀ (f : Option (σ → Ptr → Bool → ReplyOf σ ρ)) (cb : Callback), v.callback = some cb →
      w.answers v = [.answered cb v.req v.value false] → env.user cb = f →
      callUser (callbackCalls env (callInside env depth)) f cb v false w = match env.reply v w.app with
        | some r => (do callbackCalls env (callInside env depth) r.requests; pure r.ok : Prog σ Bool)
          { w.answered v with app := r.app }
        | none => .ok true (w.answered v) := by
    intro f cb hcb ha hf
    have hw : w.emit (.answered cb v.req v.value false) = w.answered v := by
      rw [World.answered, ha]
      rfl
    unfold callUser EnvOf.reply
    rw [hcb, Option.bind_some, hf]
    cases f with
    | none =>
      rw [← hw]
      rfl
    | some f =>
      rw [← hw]
      rfl
  rw [callCallback_eq, clientCallback, run_get_bind]
  cases hcb : v.callback with
  | none => simp only [World.answered, World.answers, EnvOf.reply, hcb]; rfl
  | some cb =>
    cases cb with
    | onConnack =>
      simp only [hc, if_true]
      exact huser _ _ hcb (by simp [World.answers, hcb, hc]) rfl
    | onPingresp => simp only [World.answered, World.answers, EnvOf.reply, hcb]; rfl
    | onSuback => simp only [hc]; exact huser _ _ hcb (by simp [World.answers, hcb, hc]) rfl
    | onUnsuback => simp only [hc]; exact huser _ _ hcb (by simp [World.answers, hcb, hc]) rfl
    | onPublish => simp only [hc]; exact huser _ _ hcb (by simp [World.answers, hcb, hc]) rfl

/-! ### The flush -/

/- `client_set_state_initial` up to its call of `client_cleanup_stores`. -/
def World.closing (env : EnvOf σ ρ) (w : World σ) : World σ :=
  let u : World σ := { w with error := none, osError := 0, closed := true, log := .closed :: w.log }
  let (a, now) := env.getTime u.app
  { u with
    connectStore := u.connectStore.touch now
    app := a
    currentStore := .connect
    rx := { u.rx with store := .connect }
    tx := { u.tx with store := .connect } }

theorem clientSetStateInitial_closing (w : World σ) : clientSetStateInitial env w = (do
    clientCleanupStores env (callValue env) (!w.cleanSession)
    lmqttTxBufferFinish
    modify fun w => { w with ops := { connect := true } } : Prog σ Unit) (w.closing env) := rfl

/- The ids of received messages are forgotten between the two stores. -/
def World.forgotten (w : World σ) : World σ := { w with rx := { w.rx with idSet := w.rx.idSet.clear } }

/- The callback of an entry that was taken out of a store. -/
def flushCall (env : EnvOf σ ρ) (e : Entry) : Prog σ Unit := do
  if e.value.callback.isSome then
    let _ ← callValue env e.value

/-- The states at the head of the two loops of a flush that begins in `w`. -/
inductive FlushHead (env : EnvOf σ ρ) (w : World σ) : StoreRef → World σ → Prop
  | main : FlushHead env w .main (w.closing env)
  | connect (u : World σ) (hu : FlushHead env w .main u) (hs : u.mainStore.shift = none) :
    FlushHead env w .connect u.forgotten
  | next (r : StoreRef) (u u' : World σ) (e : Entry) (s : Store) (hu : FlushHead env w r u)
    (hs : (u.store r).shift = some (e, s)) (h : flushCall env e (u.setStore r s) = .ok () u') : FlushHead env w r u'

/- The state in which the requests of a callback begin. -/
def World.replied (w : World σ) (v : Value) (r : ReplyOf σ ρ) : World σ := { w.answered v with app := r.app }

/-- A callback of the flush makes the call `q` in the state `v`. -/
def Issued (env : EnvOf σ ρ) (w : World σ) (q : ρ) (v : World σ) : Prop :=
  ∃ r u e s reply before after, FlushHead env w r u ∧ (u.store r).shift = some (e, s) ∧
    env.reply e.value u.app = some reply ∧ reply.requests = before ++ q :: after ∧
    callbackCalls env (callInside env env.fuel) before ((u.setStore r s).replied e.value reply) = .ok () v

/- The entries that a flush takes out of the stores. -/
def World.flushed (w : World σ) : List Entry := w.mainStore.entries ++ w.connectStore.entries

/-- A session is flushed: with enough turns of its loops `client_set_state_initial` returns, every entry was called
back once, the main store is empty, and no request from inside was accepted. -/
structure FlushesOnce (env : EnvOf σ ρ) (w : World σ) : Prop where
  returns : ∃ n, ∀ fuel, n ≤ fuel → ∃ w', clientSetStateInitial { env with fuel := fuel } w = .ok () w' ∧
    w'.mainStore.entries = [] ∧
    w'.log = w.flushed.reverse.flatMap (fun e => (w.closing env).answers e.value) ++ .closed :: w.log
  refuses : ∀ q v, Issued env w q v → (Reentrant.call q).Refuses v

/- The calls that a flush of `w` allows: requests that pass their checks, unless there never is room in the
   store. -/
def World.admits (w : World σ) : Reentry → Bool
  | .request q => w.grants q && 0 < w.mainStore.capacity
  | .connect _ => w.ops.connect
  | .reset | .finalize => true

/- No callback that is called for the entries makes a call that is allowed. `a` is the state of the application. -/
def World.quiet (env : EnvOf σ ρ) (w : World σ) : List Entry → σ → Bool
  | [], _ => true
  | e :: es, a =>
    match env.reply e.value a with
    | some r => r.requests.all (fun q => !w.admits (Reentrant.call q)) && quiet env w es r.app
    | none => quiet env w es a

/- The application behind the callbacks. -/
def EnvOf.replies (env : EnvOf σ ρ) : List Entry → σ → σ
  | [], a => a
  | e :: es, a =>
    match env.reply e.value a with
    | some r => replies env es r.app
    | none => replies env es a

theorem quiet_append (w : World σ) (es es' : List Entry) (a : σ) :
    w.quiet env (es ++ es') a = (w.quiet env es a && w.quiet env es' (env.replies es a)) := by
  induction es generalizing a with
  | nil => rfl
  | cons e es ih =>
    simp only [List.cons_append, World.quiet, EnvOf.replies]
    cases env.reply e.value a with
    | some r =>
      dsimp only
      rw [ih, Bool.and_assoc]
    | none => exact ih a

omit [Reentrant ρ] in
/- The callbacks do not depend on how many turns a loop may take. -/
theorem reply_fuel (fuel : ℕ) (v : Value) (a : σ) : EnvOf.reply { env with fuel := fuel } v a = env.reply v a := rfl

theorem quiet_fuel (fuel : ℕ) (w : World σ) (es : List Entry) (a : σ) :
    w.quiet { env with fuel := fuel } es a = w.quiet env es a := by
  induction es generalizing a with
  | nil => rfl
  | cons e es ih => simp only [World.quiet, reply_fuel, ih]

omit [Reentrant ρ] in
theorem replies_fuel (fuel : ℕ) (es : List Entry) (a : σ) :
    EnvOf.replies { env with fuel := fuel } es a = env.replies es a := by
  induction es generalizing a with
  | nil => rfl
  | cons e es ih => simp only [EnvOf.replies, reply_fuel, ih]

/-- A state inside a flush that begins in `w`. -/
structure Flushing (w : World σ) (r : StoreRef) (u : World σ) : Prop where
  closed : u.closed = true
  ops : u.ops = w.ops
  heap : u.heap = w.heap
  capacity : u.mainStore.capacity = w.mainStore.capacity
  emptied : r = .connect → u.mainStore.entries = []
  other : r = .main → u.connectStore.entries = w.connectStore.entries

section Flush
variable {w u : World σ} {r : StoreRef}

theorem Flushing.grants (h : Flushing w r u) (q : Request) : u.grants q = w.grants q := by
  cases q <;> simp only [World.grants, h.ops, h.heap]

theorem shift_entries {s t : Store} {e : Entry} (h : s.shift = some (e, t)) : s.entries = e :: t.entries := by
  obtain ⟨post, hr⟩ := Store.shift_spec _ _ _ h
  rw [hr.before, hr.after]
  rfl

theorem shift_capacity {s t : Store} {e : Entry} (h : s.shift = some (e, t)) : t.capacity = s.capacity := by
  obtain ⟨post, hr⟩ := Store.shift_spec _ _ _ h
  exact hr.capacity

/- Behind the shift there is room, unless there never was. -/
theorem Flushing.room {e : Entry} {s : Store} (h : Flushing w r u) (hs : (u.store r).shift = some (e, s)) :
    (u.setStore r s).mainStore.isQueueable = decide (0 < w.mainStore.capacity) := by
  rw [← h.capacity]
  unfold Store.isQueueable Store.count
  cases r with
  | main =>
    have hentries := shift_entries hs
    have hcap := shift_capacity hs
    have hle := u.mainStore.count_le
    change u.mainStore.entries = _ at hentries
    change _ = u.mainStore.capacity at hcap
    rw [hentries, List.length_cons] at hle
    change decide (s.entries.length < s.capacity) = _
    rw [hcap, decide_eq_true (by omega), decide_eq_true (by omega)]
  | connect =>
    change decide (u.mainStore.entries.length < u.mainStore.capacity) = _
    rw [h.emptied rfl]
    rfl

omit [Reentrant ρ] in
/- What the calls of a callback find. -/
theorem Flushing.replied_allows {e : Entry} {s : Store} {reply : ReplyOf σ ρ} (h : Flushing w r u)
    (hs : (u.store r).shift = some (e, s)) (q : Reentry) :
    ((u.setStore r s).replied e.value reply).allows q = w.admits q := by
  cases q with
  | request q =>
    have hg : ((u.setStore r s).replied e.value reply).grants q = w.grants q := by
      rw [← h.grants q]
      cases q <;> simp [World.grants, World.replied, World.answered]
    have hr : ((u.setStore r s).replied e.value reply).mainStore.isQueueable = decide (0 < w.mainStore.capacity) := h.room hs
    rw [World.allows, hg, hr]
    rfl
  | connect p =>
    have hops : ((u.setStore r s).replied e.value reply).ops = w.ops := (World.setStore_ops ..).trans h.ops
    rw [World.allows, hops]
    rfl
  | reset => rfl
  | finalize => rfl

/- The state behind a callback whose requests were all refused. -/
theorem Flushing.after {e : Entry} {s : Store} (h : Flushing w r u) (hs : (u.store r).shift = some (e, s))
    (a : σ) (u' : World σ) (hr : Refused { (u.setStore r s).answered e.value with app := a } u') : Flushing w r u' ∧
      (u'.store r).entries = s.entries ∧ u'.app = a ∧ u'.log = u.answers e.value ++ u.log := by
  have hsame := hr.same
  have hentries := hr.entries
  have hcap := hr.capacity
  have hshift := shift_capacity hs
  cases r with
  | main =>
    refine ⟨⟨?_, ?_, ?_, ?_, by simp, fun _ => ?_⟩, hentries, ?_, ?_⟩
    · rw [hsame]; exact h.closed
    · rw [hsame]; exact h.ops
    · rw [hsame]; exact h.heap
    · exact hcap.trans (hshift.trans h.capacity)
    · rw [hsame]; exact h.other rfl
    · rw [hsame]
    · rw [hsame]; rfl
  | connect =>
    refine ⟨⟨?_, ?_, ?_, ?_, fun _ => ?_, by simp⟩, ?_, ?_, ?_⟩
    · rw [hsame]; exact h.closed
    · rw [hsame]; exact h.ops
    · rw [hsame]; exact h.heap
    · exact hcap.trans h.capacity
    · exact hentries.trans (h.emptied rfl)
    · rw [hsame]; rfl
    · rw [hsame]
    · rw [hsame]; rfl

/-- One entry of a flush whose callback issues no request that is accepted. -/
theorem Flushing.step {e : Entry} {s : Store} (h : Flushing w r u) (hs : (u.store r).shift = some (e, s))
    (hq : ∀ reply, env.reply e.value u.app = some reply → ∀ q ∈ reply.requests, w.admits (Reentrant.call q) = false) :
    ∃ u', flushCall env e (u.setStore r s) = .ok () u' ∧ Flushing w r u' ∧ (u'.store r).entries = s.entries ∧
      u'.app = env.replies [e] u.app ∧ u'.log = u.answers e.value ++ u.log := by
  have hroom := h.room hs
  have happ : (u.setStore r s).app = u.app := by simp
  unfold flushCall
  cases hcb : e.value.callback with
  | none =>
    have hnone : env.reply e.value u.app = none := by simp [EnvOf.reply, hcb]
    have hans : (u.setStore r s).answers e.value = [] := by simp [World.answers, hcb]
    refine ⟨u.setStore r s, rfl, ?_⟩
    have hafter := h.after hs u.app (u.setStore r s) ?_
    · simpa [EnvOf.replies, hnone] using hafter
    · have heq : { (u.setStore r s).answered e.value with app := u.app } = u.setStore r s := by
        rw [World.answered, hans, ← happ]
        rfl
      rw [heq]
      exact .refl _
  | some cb =>
    have hclosed : (u.setStore r s).closed = true := by
      rw [World.setStore_closed]
      exact h.closed
    have hcall := callCallback_closed env env.fuel e.value (u.setStore r s) hclosed
    rw [happ] at hcall
    cases hreply : env.reply e.value u.app with
    | none =>
      rw [hreply] at hcall
      refine ⟨(u.setStore r s).answered e.value, ?_, ?_⟩
      · simp only [Option.isSome_some, if_true, callValue, run_bind_ok hcall]
        rfl
      · have hafter := h.after hs u.app ((u.setStore r s).answered e.value) ?_
        · simpa [EnvOf.replies, hreply] using hafter
        · have heq : { (u.setStore r s).answered e.value with app := u.app } = (u.setStore r s).answered e.value := by
            rw [← happ]
            rfl
          rw [heq]
          exact .refl _
    | some reply =>
      rw [hreply] at hcall
      obtain ⟨u', hrun, href⟩ := callbackCalls_refused env (callInside env env.fuel) reply.requests
        ((u.setStore r s).replied e.value reply) fun q hqm => (h.replied_allows hs _).trans (hq reply hreply q hqm)
      refine ⟨u', ?_, ?_⟩
      · have hboth : callCallback env env.fuel e.value (u.setStore r s) = .ok reply.ok u' := by
          rw [hcall]
          exact run_bind_ok hrun
        simp only [Option.isSome_some, if_true, callValue, run_bind_ok hboth]
        rfl
      · have hafter := h.after hs reply.app u' href
        simpa [EnvOf.replies, hreply] using hafter

/- What is asked of the entries of a store, entry by entry. -/
theorem quiet_cons {e : Entry} {es : List Entry} {a : σ} (h : w.quiet env (e :: es) a = true) :
    (∀ reply, env.reply e.value a = some reply → ∀ q ∈ reply.requests, w.admits (Reentrant.call q) = false) ∧
      w.quiet env es (env.replies [e] a) = true := by
  simp only [World.quiet, EnvOf.replies] at h ⊢
  cases hr : env.reply e.value a with
  | none =>
    rw [hr] at h
    exact ⟨by simp, h⟩
  | some r =>
    rw [hr, Bool.and_eq_true, List.all_eq_true] at h
    refine ⟨fun reply heq q hq => ?_, h.2⟩
    cases heq
    simpa using h.1 q hq

omit [Reentrant ρ] in
theorem replies_cons (e : Entry) (es : List Entry) (a : σ) :
    env.replies (e :: es) a = env.replies es (env.replies [e] a) := by
  simp only [EnvOf.replies]
  cases env.reply e.value a <;> rfl

/- The events of a flush depend on the closed connection only. -/
theorem answers_closed {u u' : World σ} (h : u.closed = true) (h' : u'.closed = true) (v : Value) :
    u.answers v = u'.answers v := by
  unfold World.answers
  rw [h, h']

/-- The loop of a flush ends when every entry was called back. -/
theorem Flushing.returns (fuel : ℕ) (h : Flushing w r u) (hq : w.quiet env (u.store r).entries u.app = true)
    (hf : (u.store r).entries.length ≤ fuel) :
    ∃ u', clientFlushStore (callValue env) r fuel u = .ok () u' ∧ Flushing w r u' ∧ (u'.store r).entries = [] ∧
      u'.app = env.replies (u.store r).entries u.app ∧
      u'.log = (u.store r).entries.reverse.flatMap (fun e => u.answers e.value) ++ u.log := by
  induction fuel generalizing u with
  | zero =>
    have hnil : (u.store r).entries = [] := List.length_eq_zero_iff.mp (by omega)
    have hs : (u.store r).shift = none := (Store.shift_eq_none _).mpr hnil
    refine ⟨u, ?_, h, hnil, by rw [hnil]; rfl, by rw [hnil]; rfl⟩
    rw [clientFlushStore, run_get_bind, hs]
    rfl
  | succ fuel ih =>
    rw [clientFlushStore, run_get_bind]
    cases hs : (u.store r).shift with
    | none =>
      have hnil := (Store.shift_eq_none _).mp hs
      exact ⟨u, rfl, h, hnil, by rw [hnil]; rfl, by rw [hnil]; rfl⟩
    | some x =>
      obtain ⟨e, s⟩ := x
      have hentries := shift_entries hs
      rw [hentries] at hq hf ⊢
      obtain ⟨hno, hrest⟩ := quiet_cons hq
      obtain ⟨u', hcall, hflush, hstore, happ, hlog⟩ := h.step hs hno
      rw [← hstore, ← happ] at hrest
      rw [List.length_cons] at hf
      obtain ⟨v, hrun, hv, hnil, hva, hvl⟩ := ih hflush hrest (by rw [hstore]; omega)
      refine ⟨v, ?_, hv, hnil, ?_, ?_⟩
      · dsimp only
        rw [run_set_bind]
        unfold flushCall at hcall
        by_cases hcb : e.value.callback.isSome
        · rw [if_pos hcb] at hcall ⊢
          obtain ⟨b, t, hb, ht⟩ := ok_bind hcall
          rw [run_bind_ok hb]
          cases ht
          exact hrun
        · rw [if_neg hcb] at hcall ⊢
          cases hcall
          exact hrun
      · rw [hva, hstore, happ]
        exact (replies_cons _ _ _).symm
      · rw [hvl, hlog, hstore, List.reverse_cons, List.flatMap_append, List.append_assoc]
        congr 1
        · apply List.flatMap_congr
          intro x _
          exact answers_closed hflush.closed h.closed _
        · simp

omit [Reentrant ρ] in
theorem closing_flushing (w : World σ) : Flushing w .main (w.closing env) :=
  ⟨rfl, rfl, rfl, rfl, by simp, fun _ => rfl⟩

/- The main store is empty. -/
theorem Flushing.forgotten (h : Flushing w .main u) (hs : u.mainStore.entries = []) : Flushing w .connect u.forgotten :=
  ⟨h.closed, h.ops, h.heap, h.capacity, fun _ => hs, by simp⟩

/- The entries that are left, from the store `r` on. -/
def World.unflushed (u : World σ) : StoreRef → List Entry
  | .main => u.mainStore.entries ++ u.connectStore.entries
  | .connect => u.connectStore.entries

/- The heads of the loops, where no request is accepted. -/
theorem FlushHead.quiet (h : FlushHead env w r u) (hq : w.quiet env w.flushed (w.closing env).app = true) :
    Flushing w r u ∧ w.quiet env (u.unflushed r) u.app = true := by
  induction h with
  | main => exact ⟨closing_flushing w, hq⟩
  | connect u hu hs ih =>
    obtain ⟨hf, hquiet⟩ := ih
    have hnil := (Store.shift_eq_none _).mp hs
    rw [World.unflushed, hnil, List.nil_append] at hquiet
    exact ⟨hf.forgotten hnil, hquiet⟩
  | next r u u' e s hu hs hrun ih =>
    obtain ⟨hf, hquiet⟩ := ih
    have hentries := shift_entries hs
    have hentry : u.unflushed r = e :: (s.entries ++ if r = .main then u.connectStore.entries else []) := by
      cases r with
      | main =>
        change u.mainStore.entries ++ _ = _
        change u.mainStore.entries = _ at hentries
        rw [hentries]
        rfl
      | connect =>
        change u.connectStore.entries = _
        change u.connectStore.entries = _ at hentries
        rw [hentries]
        simp
    rw [hentry] at hquiet
    obtain ⟨hno, hrest⟩ := quiet_cons hquiet
    obtain ⟨v, hcall, hflush, hstore, happ, -⟩ := hf.step hs hno
    rw [hrun] at hcall
    cases hcall
    refine ⟨hflush, ?_⟩
    rw [happ]
    cases r with
    | main =>
      change u'.mainStore.entries = _ at hstore
      rw [World.unflushed, hstore, hflush.other rfl, ← hf.other rfl]
      exact hrest
    | connect =>
      change u'.connectStore.entries = _ at hstore
      rw [World.unflushed, hstore]
      simpa using hrest

/- A quiet flush refuses every request. -/
theorem quiet_refuses (hq : w.quiet env w.flushed (w.closing env).app = true) (q : ρ) (v : World σ)
    (h : Issued env w q v) : (Reentrant.call q).Refuses v := by
  obtain ⟨r, u, e, s, reply, before, after, hu, hs, hreply, hreq, hrun⟩ := h
  obtain ⟨hf, hquiet⟩ := hu.quiet hq
  have hentries := shift_entries hs
  have hno : ∀ q ∈ reply.requests, w.admits (Reentrant.call q) = false := by
    cases r with
    | main =>
      change u.mainStore.entries = _ at hentries
      rw [World.unflushed, hentries] at hquiet
      exact (quiet_cons hquiet).1 reply hreply
    | connect =>
      change u.connectStore.entries = _ at hentries
      rw [World.unflushed, hentries] at hquiet
      exact (quiet_cons hquiet).1 reply hreply
  rw [hreq] at hno
  obtain ⟨v', hbefore, href⟩ := callbackCalls_refused env (callInside env env.fuel) before
    ((u.setStore r s).replied e.value reply)
    fun q' hq' => (hf.replied_allows hs _).trans (hno q' (List.mem_append_left _ hq'))
  rw [hrun] at hbefore
  cases hbefore
  refine (callbackCall_refused env (callInside env env.fuel) _ v ?_).1
  rw [href.allows, hf.replied_allows hs]
  exact hno q (by simp)

/- A quiet flush returns. -/
theorem quiet_returns (hc : w.cleanSession = true) (hq : w.quiet env w.flushed (w.closing env).app = true) (fuel : ℕ)
    (hfuel : w.flushed.length ≤ fuel) : ∃ w', clientSetStateInitial { env with fuel := fuel } w = .ok () w' ∧
    w'.mainStore.entries = [] ∧
    w'.log = w.flushed.reverse.flatMap (fun e => (w.closing env).answers e.value) ++ .closed :: w.log := by
  rw [World.flushed, List.length_append] at hfuel
  rw [World.flushed, quiet_append, Bool.and_eq_true] at hq
  obtain ⟨env', henv⟩ : ∃ env' : EnvOf σ ρ, env' = { env with fuel := fuel } := ⟨_, rfl⟩
  have hquiet : ∀ es a, w.quiet env' es a = w.quiet env es a := by
    rw [henv]
    exact quiet_fuel fuel w
  have hreplies : ∀ es a, env'.replies es a = env.replies es a := by
    rw [henv]
    exact replies_fuel fuel
  have hclosing : w.closing env' = w.closing env := by rw [henv]; rfl
  have hfuel' : env'.fuel = fuel := by rw [henv]
  rw [← henv]
  have hstart : Flushing w .main (w.closing env') := closing_flushing w
  obtain ⟨u, hmain, hu, hnil, happ, hlog⟩ := hstart.returns fuel (by
    rw [hquiet, hclosing]
    exact hq.1) (by change w.mainStore.entries.length ≤ _; omega)
  have hforgot := hu.forgotten hnil
  have hconn : u.forgotten.connectStore.entries = w.connectStore.entries := hu.other rfl
  obtain ⟨v, hconnect, hv, hvnil, hvapp, hvlog⟩ := hforgot.returns fuel (by
    change w.quiet env' u.forgotten.connectStore.entries u.app = true
    rw [hconn, happ, hquiet, hreplies, hclosing]
    exact hq.2) (by change u.forgotten.connectStore.entries.length ≤ _; rw [hconn]; omega)
  refine ⟨{ v.finishTx with ops := { connect := true } }, ?_, hv.emptied rfl, ?_⟩
  · rw [clientSetStateInitial_closing, hc]
    have hcleanup : clientCleanupStores env' (callValue env') (!true) (w.closing env') = .ok () v := by
      simp only [clientCleanupStores, hfuel', Bool.not_true, Bool.false_eq_true, if_false]
      rw [run_bind_ok hmain, run_modify_bind]
      exact hconnect
    rw [run_bind_ok hcleanup]
    rfl
  · have hanswers : ∀ es : List Entry, es.flatMap (fun e => u.forgotten.answers e.value) =
        es.flatMap fun e => (w.closing env).answers e.value := fun es =>
      List.flatMap_congr fun e _ => answers_closed hu.closed rfl _
    change v.log = _
    change v.log = u.forgotten.connectStore.entries.reverse.flatMap _ ++ u.log at hvlog
    change u.log = w.mainStore.entries.reverse.flatMap _ ++ (w.closing env').log at hlog
    rw [hvlog, hlog, hconn, hanswers, hclosing, World.flushed, List.reverse_append, List.flatMap_append, List.append_assoc]
    rfl

/- The requests of a callback that are all refused are requests that are not admitted. -/
theorem Flushing.refused (env : EnvOf σ ρ) {e : Entry} {s : Store} {reply : ReplyOf σ ρ} (h : Flushing w r u)
    (hs : (u.store r).shift = some (e, s)) (before after : List ρ) (hreq : ∀ q ∈ after, ∃ q', Reentrant.call q = .request q')
    (hno : ∀ bs q cs v, before ++ after = bs ++ q :: cs →
      callbackCalls env (callInside env env.fuel) bs ((u.setStore r s).replied e.value reply) = .ok () v →
      (Reentrant.call q).Refuses v)
    (hb : ∀ q ∈ before, w.admits (Reentrant.call q) = false) : ∀ q ∈ after, w.admits (Reentrant.call q) = false := by
  induction after generalizing before with
  | nil => simp
  | cons q after ih =>
    obtain ⟨v, hrun, href⟩ := callbackCalls_refused env (callInside env env.fuel) before
      ((u.setStore r s).replied e.value reply) fun q' hq' => (h.replied_allows hs _).trans (hb q' hq')
    have hfalse := hno before q after v rfl hrun
    have hq : w.admits (Reentrant.call q) = false := by
      obtain ⟨q', hq'⟩ := hreq q List.mem_cons_self
      rw [hq'] at hfalse ⊢
      obtain ⟨v', hfalse⟩ := hfalse
      have hok := (wp_ok (doRequest_answer q' v) hfalse).1
      rw [← h.replied_allows hs, ← href.allows]
      exact hok.symm
    have hrest := ih (before ++ [q]) (fun x hx => hreq x (List.mem_cons_of_mem q hx)) (by simpa using hno) (by
      intro q' hq'
      rcases List.mem_append.mp hq' with hq' | hq'
      · exact hb q' hq'
      · rw [List.mem_singleton.mp hq']
        exact hq)
    intro q' hq'
    rcases List.mem_cons.mp hq' with rfl | hq'
    · exact hq
    · exact hrest q' hq'

/- Where every request of a flush is refused, the callbacks of a store are quiet, and its loop comes to its end. -/
theorem FlushHead.quiet_of (henv : env.OnlyRequests) (hno : ∀ (q : ρ) v, Issued env w q v → (Reentrant.call q).Refuses v)
    (es : List Entry) (hu : FlushHead env w r u) (hf : Flushing w r u) (hes : (u.store r).entries = es) :
    w.quiet env es u.app = true ∧ ∃ u', FlushHead env w r u' ∧ Flushing w r u' ∧ (u'.store r).entries = [] ∧
      u'.app = env.replies es u.app := by
  induction es generalizing u with
  | nil => exact ⟨rfl, u, hu, hf, hes, rfl⟩
  | cons e es ih =>
    obtain ⟨s, hs⟩ : ∃ s, (u.store r).shift = some (e, s) := by
      cases hs : (u.store r).shift with
      | none =>
        rw [(Store.shift_eq_none _).mp hs] at hes
        contradiction
      | some x =>
        have hentries := shift_entries hs
        rw [hes] at hentries
        rw [(List.cons.inj hentries).1]
        exact ⟨x.2, rfl⟩
    have hentries := shift_entries hs
    rw [hes] at hentries
    have hadm : ∀ reply, env.reply e.value u.app = some reply → ∀ q ∈ reply.requests, w.admits (Reentrant.call q) = false := by
      intro reply hreply
      exact hf.refused env hs [] reply.requests (henv.reply hreply) (fun bs q cs v heq hrun =>
        hno q v ⟨r, u, e, s, reply, bs, cs, hu, hs, hreply, heq, hrun⟩) (by simp)
    obtain ⟨v, hcall, hv, hstore, happ, -⟩ := hf.step hs hadm
    obtain ⟨hquiet, u', hu', hf', hnil, happ'⟩ :=
        ih (.next r u v e s hu hs hcall) hv (hstore.trans (List.cons.inj hentries).2.symm)
    rw [happ] at hquiet happ'
    refine ⟨?_, u', hu', hf', hnil, ?_⟩
    · simp only [World.quiet]
      simp only [EnvOf.replies] at hquiet
      cases hreply : env.reply e.value u.app with
      | none =>
        rw [hreply] at hquiet
        exact hquiet
      | some reply =>
        rw [hreply] at hquiet
        rw [Bool.and_eq_true, List.all_eq_true]
        exact ⟨fun q hq => by rw [hadm reply hreply q hq]; rfl, hquiet⟩
    · rw [happ', replies_cons e es]

end Flush

/- The application publishes a message again when it failed. -/
def retryEnv (fuel : ℕ) : Env Unit := { memoryEnv with
  onPublish := some fun a p ok => ⟨a, true, if ok then [] else [.publish p]⟩
  fuel := fuel }

def retryHeap : Heap := { smallHeap with
  connects := fun _ => { clientId := { len := 1, buf := some [97] }, cleanSession := true } }

/- The message is the only entry of a store whose connection is closed. -/
structure Retrying (u : World Unit) : Prop where
  closed : u.closed = true
  publish : u.ops.publish = true
  valid : publishValidate (u.heap.publishes 0) = true ∧ (u.heap.publishes 0).qos ≠ 0
  entry : ∃ e, u.mainStore.entries = [e] ∧ e.value.callback = some .onPublish ∧ e.value.value = 0

/- The callback puts the message into the store again. -/
theorem Retrying.step {u : World Unit} (fuel : ℕ) (h : Retrying u) : ∃ e s, u.mainStore.shift = some (e, s) ∧
    e.value.callback.isSome = true ∧ ∃ u', callValue (retryEnv fuel) e.value (u.setStore .main s) = .ok true u' ∧
        Retrying u' := by
  obtain ⟨e, hentries, hcb, hp⟩ := h.entry
  obtain ⟨s, hs⟩ : ∃ s, u.mainStore.shift = some (e, s) := by
    cases hs : u.mainStore.shift with
    | none =>
      rw [(Store.shift_eq_none _).mp hs] at hentries
      contradiction
    | some x =>
      have hx := shift_entries hs
      rw [hentries] at hx
      rw [(List.cons.inj hx).1]
      exact ⟨x.2, rfl⟩
  refine ⟨e, s, hs, by rw [hcb]; rfl, ?_⟩
  have hnil : s.entries = [] := by
    have hx := shift_entries hs
    rw [hentries] at hx
    exact (List.cons.inj hx).2.symm
  have hcap := shift_capacity hs
  have hle := u.mainStore.count_le
  rw [hentries, List.length_singleton] at hle
  have hreply : (retryEnv fuel).reply e.value (u.setStore .main s).app = some ⟨(), true, [.publish 0]⟩ := by
    unfold EnvOf.reply
    rw [hcb, hp]
    rfl
  have hcall := callCallback_closed (retryEnv fuel) fuel e.value (u.setStore .main s) h.closed
  rw [hreply] at hcall
  simp only [callbackCalls_requests] at hcall
  obtain ⟨x, hx⟩ : ∃ x : World Unit, x = { (u.setStore .main s).answered e.value with app := () } := ⟨_, rfl⟩
  have hpublish : Wp (doRequests [.publish 0]) x (fun _ u' => Retrying u') fun _ _ => False := by
    have hstore : x.mainStore = s := by rw [hx]; rfl
    have hvalid : publishValidate (x.heap.publishes 0) = true ∧ (x.heap.publishes 0).qos ≠ 0 := by rw [hx]; exact h.valid
    have hclosed : x.closed = true := by rw [hx]; exact h.closed
    have hop : x.ops.publish = true := by rw [hx]; exact h.publish
    simp only [doRequests, doRequest, lmqttClientPublish, clientDoPublish, clientGetId, clientAppendRequest, wp_bind, wp_get]
    refine wp_if (fun _ => ?_) fun hn => absurd hop hn
    simp only [wp_bind, wp_get]
    refine wp_if (fun hn => absurd hvalid.1 (by simpa using hn)) fun _ => ?_
    refine wp_if (fun hn => absurd hn hvalid.2) fun _ => ?_
    simp only [wp_bind, wp_get, wp_set, wp_pure]
    split
    · rename_i hnone
      have hfull := (Store.append_eq_none _ _).mp hnone
      rw [hstore] at hfull
      change s.capacity ≤ s.entries.length at hfull
      rw [hnil, hcap, List.length_nil] at hfull
      omega
    · rename_i t ht
      have happ := (Store.append_spec _ _ _ ht).entries
      rw [hstore] at happ
      change t.entries = s.entries ++ [_] at happ
      rw [hnil] at happ
      exact ⟨hclosed, hop, hvalid, _, happ, rfl, rfl⟩
  obtain ⟨⟨⟩, u', hrun, hu'⟩ := wp_exists hpublish
  refine ⟨u', ?_, hu'⟩
  rw [hx] at hrun
  exact hcall.trans (run_bind_ok hrun)

/-- The flush of its session never ends. -/
theorem Retrying.spins {u : World Unit} (env' : ℕ) (fuel : ℕ) (h : Retrying u) :
    ∃ u', clientFlushStore (callValue (retryEnv env')) .main fuel u = .error .outOfFuel u' := by
  induction fuel generalizing u with
  | zero =>
    obtain ⟨e, s, hs, -⟩ := h.step 0
    refine ⟨u, ?_⟩
    have hshift : (u.store .main).shift = some (e, s) := hs
    rw [clientFlushStore, run_get_bind, hshift]
    rfl
  | succ fuel ih =>
    obtain ⟨e, s, hs, hcb, u', hcall, hu'⟩ := h.step env'
    obtain ⟨v, hv⟩ := ih hu'
    refine ⟨v, ?_⟩
    have hshift : (u.store .main).shift = some (e, s) := hs
    rw [clientFlushStore, run_get_bind, hshift]
    dsimp only
    rw [run_set_bind, if_pos hcb, run_bind_ok hcall]
    exact hv

/- A connect with a clean session, and a message. -/
def retrySteps : List (Step Unit) := connectSteps ++ [.call (.request (.publish 0))]

theorem retryRun_isSome : (runClientSteps (retryEnv 64) everyStep ⟨8, 64, 64, 4⟩ retryHeap () retrySteps).isSome = true := by
  decide +kernel

theorem quietFlush_isSome : (runClientSteps memoryEnv everyStep ⟨8, 64, 64, 4⟩ retryHeap () retrySteps).isSome = true := by
  decide +kernel

end LightMqtt
