import LightMqtt.PacketOrder

/-!
# When the API is open

The functions of the API are pointers, set by each change of the client's state. A
run with its steps shows which changes came before.
-/

namespace LightMqtt

open Exec History

variable {σ : Type} {env : Env σ}

/-! ### Runs with their steps -/

/-- A step of a run, between two states. -/
structure Moment (σ : Type) where
  before : World σ
  step : Step σ
  after : World σ

/-- A run with its steps, the newest first. -/
inductive Traced (env : Env σ) : List (Moment σ) → World σ → Prop
  | start (buffers : ClientBuffers) (heap : Heap) (app : σ) (w : World σ)
    (h : lmqttClientInitialize env (clientCleared buffers heap app) = .ok () w) : Traced env [] w
  | step (l : List (Moment σ)) (w w' : World σ) (s : Step σ) (hl : Traced env l w)
    (hs : s.Enabled (fun _ => True) w) (h : s.run env w = .ok () w') : Traced env (⟨w, s, w'⟩ :: l) w'

theorem Traced.stepped {l : List (Moment σ)} {w : World σ} (h : Traced env l w) : Stepped env (fun _ _ => True) w := by
  induction h with
  | start buffers heap app w h => exact .start buffers heap app w h
  | step l w w' s hl hs h ih => exact .step w w' s ih trivial hs h

/- Every state of a run has its steps. -/
theorem stepped_traced {C : World σ → Step σ → Prop} {w : World σ} (h : Stepped env C w) : ∃ l, Traced env l w := by
  induction h with
  | start buffers heap app w h => exact ⟨[], .start buffers heap app w h⟩
  | step w w' s hw hc hs h ih =>
    obtain ⟨l, hl⟩ := ih
    exact ⟨_, .step l w w' s hl hs h⟩

namespace Moment
variable (m : Moment σ)

/- An event is logged. -/
def Logs (ev : Event) : Prop := ∃ evs, m.after.log = evs ++ m.before.log ∧ ev ∈ evs

/-- `lmqtt_client_connect` accepts a connect. -/
def Connects : Prop := ∃ r p, m.Logs (.connecting r p)

/-- The return code 0 of a CONNACK is decoded, and the connection accepted. -/
def Accepts : Prop := (∃ bs, m.step = .read bs ∧ m.before.Accepts bs) ∧ ∃ b, m.Logs (.connected b)

/-- The client goes back to its initial state: at the end of the stream, or by a reset
that has an effect. -/
def Returns : Prop :=
  m.step = .call .eof ∨ m.step = .call .reset ∧ m.before.closed = true ∧ m.before.error ≠ some .closed

def Fails : Prop := ∃ e osError, m.step = .call (.fail e osError)
def Finalizes : Prop := m.step = .call .finalize

/-- The client leaves its initial state. -/
def Leaves : Prop := m.Connects ∨ m.Fails ∨ m.Finalizes

/-- The connection ends, or another one begins. -/
def Ends : Prop := m.Leaves ∨ m.Returns

end Moment

/-! ### What the pointers say -/

/- A request of the API works. -/
def Ops.anyRequest (o : Ops) : Bool := o.subscribe || o.unsubscribe || o.publish || o.disconnect

/-- The functions of the API, the current store and the steps of the run agree. -/
structure Agreed (l : List (Moment σ)) (w : World σ) : Prop where
  requests : w.ops.anyRequest = true → IsOpen Moment.Accepts Moment.Ends l
  connect : w.ops.connect = true → ¬ IsOpen Moment.Leaves Moment.Returns l
  apart : w.ops.connect = true → w.ops.anyRequest = false
  store : w.currentStore = .main ↔ IsOpen Moment.Accepts Moment.Returns l
  final : (∃ m ∈ l, m.Finalizes) → w.error = some .closed ∧ w.ops = {}

section Steps
variable {l : List (Moment σ)} {w w' : World σ} {s : Step σ}

/- A moment at which nothing happens to the client. -/
structure Moment.Quiet (m : Moment σ) : Prop where
  connects : ¬ m.Connects
  accepts : ¬ m.Accepts
  returns : ¬ m.Returns
  fails : ¬ m.Fails
  finalizes : ¬ m.Finalizes

theorem Moment.Quiet.leaves {m : Moment σ} (h : m.Quiet) : ¬ m.Leaves := by
  rintro (hc | hf | hf)
  · exact h.connects hc
  · exact h.fails hf
  · exact h.finalizes hf

theorem Moment.Quiet.ends {m : Moment σ} (h : m.Quiet) : ¬ m.Ends := by
  rintro (hl | hr)
  · exact h.leaves hl
  · exact h.returns hr

theorem Agreed.quiet {m : Moment σ} (ha : Agreed l w) (hm : m.Quiet) (hops : w'.ops = w.ops)
    (hstore : w'.currentStore = w.currentStore) (herr : w'.error = w.error) : Agreed (m :: l) w' := by
  refine ⟨fun h => ?_, fun h => ?_, fun h => ?_, ?_, ?_⟩
  · rw [isOpen_cons]
    exact .inr ⟨hm.ends, ha.requests (by rwa [← hops])⟩
  · rw [isOpen_cons]
    rintro (hl | ⟨-, hl⟩)
    · exact hm.leaves hl
    · exact ha.connect (by rwa [← hops]) hl
  · rw [hops] at h ⊢
    exact ha.apart h
  · rw [hstore, ha.store, isOpen_cons]
    constructor
    · exact fun h => .inr ⟨hm.returns, h⟩
    · rintro (h | h)
      · exact absurd h hm.accepts
      · exact h.2
  · rintro ⟨x, hx, hf⟩
    rw [herr, hops]
    rcases List.mem_cons.mp hx with rfl | hx
    · exact absurd hf hm.finalizes
    · exact ha.final ⟨x, hx, hf⟩

/- What is logged once is known. -/
theorem Logged.moment {E : Event → Prop} {ev : Event} (h : Logged E w w') (hn : ¬ E ev) :
    ¬ Moment.Logs ⟨w, s, w'⟩ ev := by
  rintro ⟨evs, hl, hm⟩
  obtain ⟨evs', hl', he⟩ := h
  have heq : evs = evs' := List.append_cancel_right (hl.symm.trans hl')
  rw [heq] at hm
  exact hn (he ev hm)

/- A step that neither connects nor accepts, and is not loud otherwise. -/
theorem Moment.quiet_of (h : Logged (fun ev => (∀ r p, ev ≠ .connecting r p) ∧ ∀ b, ev ≠ .connected b) w w')
    (hs : ¬ s.Loud w ∨ ∃ bs, s = .read bs) : Moment.Quiet ⟨w, s, w'⟩ := by
  refine ⟨?_, ?_, ?_, ?_, ?_⟩
  · rintro ⟨r, p, hl⟩
    exact h.moment (fun hn => hn.1 r p rfl) hl
  · rintro ⟨-, b, hl⟩
    exact h.moment (fun hn => hn.2 b rfl) hl
  · rintro (hr | ⟨hr, hc⟩)
    · rcases hs with hs | ⟨bs, hs⟩ <;> simp_all [Step.Loud]
    · rcases hs with hs | ⟨bs, hs⟩ <;> simp_all [Step.Loud]
  · rintro ⟨e, os, hf⟩
    rcases hs with hs | ⟨bs, hs⟩ <;> simp_all [Step.Loud]
  · intro hf
    unfold Moment.Finalizes at hf
    rcases hs with hs | ⟨bs, hs⟩ <;> simp_all [Step.Loud]

theorem Unmoved.log_plain (h : Unmoved w w') :
    Logged (fun ev => (∀ r p, ev ≠ .connecting r p) ∧ ∀ b, ev ≠ .connected b) w w' := by
  refine h.log.mono fun ev he => ⟨?_, ?_⟩
  · rintro r p rfl
    contradiction
  · rintro b rfl
    contradiction

theorem Unmoved.agreed (h : Unmoved w w') (hs : ¬ s.Loud w ∨ ∃ bs, s = .read bs) (ha : Agreed l w) :
    Agreed (⟨w, s, w'⟩ :: l) w' := by
  refine ha.quiet (Moment.quiet_of h.log_plain hs) ?_ ?_ h.error
  · rw [h.same]
  · rw [h.same]

/- A change after which no request works. -/
theorem Agreed.shut {m : Moment σ} (ha : Agreed l w) (hops : w'.ops.anyRequest = false)
    (hc : w'.ops.connect = true → m.Returns ∧ ¬ m.Leaves) (hacc : ¬ m.Accepts)
    (hstore : w'.currentStore = .main ↔ ¬ m.Returns ∧ w.currentStore = .main)
    (hf : (∃ x ∈ m :: l, x.Finalizes) → w'.error = some .closed ∧ w'.ops = {}) : Agreed (m :: l) w' := by
  refine ⟨fun h => ?_, fun h => ?_, fun _ => hops, ?_, hf⟩
  · rw [hops] at h
    contradiction
  · obtain ⟨hr, hl⟩ := hc h
    rw [isOpen_cons]
    rintro (h | ⟨h, -⟩)
    · exact hl h
    · exact h hr
  · rw [hstore, ha.store, isOpen_cons]
    exact ⟨.inr, fun h => h.resolve_left hacc⟩

theorem not_returns {m : Moment σ} {a : Act σ} (hm : m.step = .call a) (he : a ≠ .eof) (hr : a ≠ .reset) :
    ¬ m.Returns := by
  rintro (h | ⟨h, -⟩)
  · exact he (Step.call.inj (hm.symm.trans h))
  · exact hr (Step.call.inj (hm.symm.trans h))

/- The connection is accepted. -/
theorem opened_agreed {bs : List Byte} (hw : Sound w) (hwe : w.error = none) (hacc : w.Accepts bs) (h : OpenedIn w w')
    (ha : Agreed l w) : Agreed (⟨w, .read bs, w'⟩ :: l) w' := by
  obtain ⟨t, u, ht, hu, hend⟩ := h
  have hm : Moment.Accepts ⟨w, .read bs, w'⟩ := by
    refine ⟨⟨bs, rfl, hacc⟩, ?_⟩
    obtain ⟨b, evs, hl, -⟩ := hu.log
    obtain ⟨evs₁, hl₁, -⟩ := ht.log
    obtain ⟨evs₂, hl₂, -⟩ := hend.log
    refine ⟨b, evs₂ ++ (evs ++ .connected b :: evs₁), ?_, by simp⟩
    change w'.log = _ ++ w.log
    rw [hl₂, hl, hl₁]
    simp
  have hstore : w'.currentStore = .main := by
    rw [hend.same, hu.same]
  have hclosed : w.closed = false := by
    have hcl := hu.alive
    rw [ht.same] at hcl
    exact hcl
  have hconn : ¬ w'.ops.connect = true := by
    rw [hend.same, hu.same, ht.same]
    intro hc
    rw [(hw.connectable hc).2.1] at hclosed
    contradiction
  refine ⟨fun _ => (isOpen_cons _ _).mpr (.inl hm), fun h => absurd h hconn, fun h => absurd h hconn, ?_, ?_⟩
  · rw [hstore, isOpen_cons]
    exact ⟨fun _ => .inl hm, fun _ => rfl⟩
  · rintro ⟨x, hx, hf⟩
    rcases List.mem_cons.mp hx with rfl | hx
    · cases hf
    · rw [(ha.final ⟨x, hx, hf⟩).1] at hwe
      contradiction

theorem Does.agreed (hw : Live w) (hs : s.Enabled (fun _ => True) w) (h : Does env w s w') (ha : Agreed l w) :
    Agreed (⟨w, s, w'⟩ :: l) w' := by
  have hsound := hw.sound
  have hcall : ∀ {a}, s = .call a → ¬ Moment.Accepts ⟨w, s, w'⟩ := by
    rintro a rfl ⟨⟨bs, hbs, -⟩, -⟩
    contradiction
  -- what was finalized stays so
  have hfinal : ∀ {m : Moment σ}, ¬ m.Finalizes → (∃ x ∈ m :: l, x.Finalizes) → w.error = some .closed ∧ w.ops = {} := by
    rintro m hm ⟨x, hx, hf⟩
    rcases List.mem_cons.mp hx with rfl | hx
    · exact absurd hf hm
    · exact ha.final ⟨x, hx, hf⟩
  cases h with
  | still h hq => exact h.toStill.unmoved.agreed (.inl hq) ha
  | deed h =>
    obtain ⟨hwe, he, -⟩ := hs
    cases h with
    | still hn hk h => exact h.unmoved.agreed (.inr ⟨_, rfl⟩) ha
    | publish t res hc ht h => exact (ht.unmoved.trans h.unmoved).agreed (.inr ⟨_, rfl⟩) ha
    | pubrel t hp hi ht h herr => exact ((ht.unmoved.trans (.setIds t _)).trans h.unmoved).agreed (.inr ⟨_, rfl⟩) ha
    | connack t e s hf ht hst hpop h =>
      have hlog : w'.log = .popped e.kind 0 e.value.req :: t.log := by
        rw [h]
        exact congrArg (_ :: ·) (World.setStore_log _ _ _)
      refine ha.quiet (Moment.quiet_of (ht.unmoved.log_plain.trans (.one hlog (by simp))) (.inr ⟨_, rfl⟩)) ?_ ?_ ?_
      all_goals
        rw [h]
        simp only [World.popped, World.emit, World.setRx, World.setStore_ops, World.setStore_currentStore,
          World.setStore_error]
        rw [ht.same]
    | opened hf hd hp hb hv h => exact opened_agreed hsound hwe ⟨hf, hd, hp, hb⟩ h ha
  | field e htx hp h =>
    refine ha.quiet (Moment.quiet_of (.one (by rw [h.same]) (by simp)) (.inl (by simp [Step.Loud]))) ?_ ?_ ?_
    all_goals rw [h.same]
  | @entry bufLen w' e htx hp h =>
    obtain ⟨u, hu, hw'⟩ := h
    have hdep : (w.departed e).ops = w.ops ∧ (w.departed e).currentStore = w.currentStore ∧
        (w.departed e).error = w.error := by simp [World.departed, World.emit]
    have hlog : (w.departed e).log = .encoded e.kind e.value.packetId e.value.req :: w.log := World.setStore_log _ _ _
    have hplain : Logged (fun ev => (∀ r p, ev ≠ .connecting r p) ∧ ∀ b, ev ≠ .connected b) w u :=
      (Logged.one hlog (by simp)).trans hu.toStill.unmoved.log_plain
    have hq : Moment.Quiet ⟨w, .send bufLen, w'⟩ := Moment.quiet_of (by rw [hw']; exact hplain) (.inl (by simp [Step.Loud]))
    refine ha.quiet hq ?_ ?_ ?_
    · rw [hw', hu.same]
      exact hdep.1
    · rw [hw', hu.same]
      exact hdep.2.1
    · rw [hw', hu.same]
      exact hdep.2.2
  | connecting p s hc happ =>
    refine ha.shut (ha.apart hc) (by simp) (hcall rfl)
      ⟨fun h => ⟨not_returns rfl (by simp) (by simp), h⟩, fun h => h.2⟩ fun h => ?_
    have hops := (hfinal (by intro h; cases h) h).2
    rw [hops] at hc
    contradiction
  | @reverted a w' hr h =>
    have hm : Moment.Returns ⟨w, .call a, w'⟩ := by
      rcases hr with rfl | ⟨rfl, hr⟩
      · exact .inl rfl
      · exact .inr ⟨rfl, hr⟩
    have hne : w.error ≠ some .closed := by
      rcases hr with rfl | ⟨rfl, hr⟩
      · rw [show w.error = none from hs.2]
        simp
      · exact hr.2
    refine ha.shut ?_ (fun _ => ⟨hm, ?_⟩) (hcall rfl) ⟨fun hc => ?_, fun hc => absurd hm hc.1⟩ fun hf => ?_
    · rw [h.same]
      rfl
    · rintro (hc | ⟨e, os, hf⟩ | hf)
      · obtain ⟨r, p, hl⟩ := hc
        obtain ⟨evs, hlog, he⟩ := h.log
        have hplain : Logged (fun ev => ∀ r p, ev ≠ .connecting r p) w w' := by
          refine ⟨evs ++ [.closed], by rw [hlog, List.append_assoc]; rfl, fun ev hev => ?_⟩
          rcases List.mem_append.mp hev with hev | hev
          · rintro r p rfl
            have := he _ hev
            contradiction
          · rw [List.mem_singleton] at hev
            rw [hev]
            simp
        exact hplain.moment (fun hn => hn r p rfl) hl
      · rcases hr with rfl | ⟨rfl, -⟩ <;> cases hf
      · rcases hr with rfl | ⟨rfl, -⟩ <;> cases hf
    · rw [h.same] at hc
      contradiction
    · refine absurd (hfinal ?_ hf).1 hne
      rcases hr with rfl | ⟨rfl, -⟩ <;> (intro hf; cases hf)
  | failed e os =>
    refine ha.shut rfl (by simp) (hcall rfl) ⟨fun h => ⟨not_returns rfl (by simp) (by simp), h⟩, fun h => h.2⟩ fun h => ?_
    have herr := (hfinal (by intro h; cases h) h).1
    rw [show w.error = none from hs.2] at herr
    contradiction
  | finalized h =>
    have hops : w'.ops = {} := by rw [h.same]
    refine ha.shut (by rw [hops]; rfl) (by rw [hops]; simp) (hcall rfl) ?_ fun _ => ⟨by rw [h.same], hops⟩
    rw [h.same]
    exact ⟨fun hc => ⟨not_returns rfl (by simp) (by simp), hc⟩, fun hc => hc.2⟩

end Steps

theorem traced_agreed {l : List (Moment σ)} {w : World σ} (h : Traced env l w) : Agreed l w := by
  induction h with
  | start buffers heap app w h =>
    have hr := start_reverted h
    have hops : w.ops = { connect := true } := by rw [hr.same]
    refine ⟨fun h => ?_, fun _ => not_isOpen_nil, fun _ => by rw [hops]; rfl, ?_, by simp⟩
    · rw [hops] at h
      contradiction
    · rw [hr.same]
      exact ⟨fun h => by contradiction, fun h => absurd h not_isOpen_nil⟩
  | step l w w' s hl hs h ih =>
    have hlive := hl.stepped.live
    exact (wp_ok (step_does w s hlive hs) h).agreed hlive hs ih

/-! ### The API -/

/- A request is accepted only where its function works. -/
theorem doRequest_works {q : Request} {w w' : World σ} (h : doRequest q w = .ok true w') : w.ops.anyRequest = true := by
  have hf : ∀ (b : Bool) (p : Prog σ Bool), (if b = true then p else pure false) w = .ok true w' → b = true := by
    intro b p h
    rcases ok_ite h with ⟨hb, -⟩ | ⟨-, h⟩
    · exact hb
    · have := (ok_pure h).1
      contradiction
  unfold Ops.anyRequest
  cases q with
  | subscribe p => simp [hf _ _ (ok_get_bind h)]
  | unsubscribe p => simp [hf _ _ (ok_get_bind h)]
  | publish p => simp [hf _ _ (ok_get_bind h)]
  | disconnect => simp [hf _ _ (ok_get_bind h)]

theorem lmqttClientConnect_works {p : Ptr} {w w' : World σ} (h : lmqttClientConnect p w = .ok true w') :
    w.ops.connect = true := by
  have h := ok_get_bind h
  rcases ok_ite h with ⟨hb, -⟩ | ⟨-, h⟩
  · exact hb
  · have := (ok_pure h).1
    contradiction

/-- In every run, a request is accepted only on an accepted connection that did not end,
a connect only in the initial state, neither of them after the end of the client; and
the three stores are one, the main store from the CONNACK on until the client goes back to
its initial state. -/
theorem api_states (l : List (Moment σ)) (w : World σ) (h : Traced env l w) :
    (∀ q w', doRequest q w = .ok true w' → IsOpen Moment.Accepts Moment.Ends l) ∧
      (∀ p w', lmqttClientConnect p w = .ok true w' → ¬ IsOpen Moment.Leaves Moment.Returns l) ∧
      ((∃ m ∈ l, m.Finalizes) → (∀ q w', doRequest q w ≠ .ok true w') ∧ ∀ p w', lmqttClientConnect p w ≠ .ok true w') ∧
      w.rx.store = w.currentStore ∧ w.tx.store = w.currentStore ∧
      (w.currentStore = .main ↔ IsOpen Moment.Accepts Moment.Returns l) := by
  have ha := traced_agreed h
  have hsound := h.stepped.live.sound
  refine ⟨fun q w' hq => ha.requests (doRequest_works hq), fun p w' hp => ha.connect (lmqttClientConnect_works hp),
    fun hf => ⟨fun q w' hq => ?_, fun p w' hp => ?_⟩, hsound.rxStore, hsound.txStore, ha.store⟩
  · have hops := doRequest_works hq
    rw [(ha.final hf).2] at hops
    contradiction
  · have hops := lmqttClientConnect_works hp
    rw [(ha.final hf).2] at hops
    contradiction

theorem openRun_isSome : (runClient memoryEnv anyConnect ⟨8, 64, 64, 4⟩ smallHeap () connectKept).isSome = true := by
  decide +kernel

theorem api_states_open : ∃ (l : List (Moment Unit)) (w : World Unit), Traced memoryEnv l w ∧
    w.currentStore = .main ∧ IsOpen Moment.Accepts Moment.Ends l := by
  obtain ⟨w, hw, hm, hreq⟩ : ∃ w : World Unit, Reached memoryEnv (fun _ => True) w ∧ w.currentStore = .main ∧
      Wp (doRequest (.publish 0)) w (fun ok _ => ok = true) fun _ _ => False :=
    ⟨_, reached_get anyConnect_true _ _ _ _ openRun_isSome, by decide +kernel⟩
  obtain ⟨_, w', hrun, rfl⟩ := wp_exists hreq
  obtain ⟨l, hl⟩ := stepped_traced (reached_stepped w hw)
  exact ⟨l, w, hl, hm, (api_states l w hl).1 _ w' hrun⟩

end LightMqtt
