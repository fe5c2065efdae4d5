import Mathlib
import LightMqtt.RunOnce
import LightMqtt.Base.History

/-!
# The clock of a client (`client_keep_alive`)

One touch of the current store times both the requests that wait in it and the
silence that a PINGREQ ends. Clock readings are compared in nanoseconds.
-/

namespace LightMqtt

open Exec

variable {σ : Type} {env : Env σ} {P : World σ → Prop}

/-! ### Clock readings -/

def Time.nanos (t : Time) : ℤ := t.secs * 10^9 + t.nsecs

/- A reading as clocks give it, in two `long`s. -/
structure Time.Normal (t : Time) : Prop where
  nsecs : 0 ≤ t.nsecs ∧ t.nsecs < 10^9
  secs : -(2^63) ≤ t.secs ∧ t.secs < 2^63

/- The end of a timeout, and what is left to it at a reading, are in the `long`s. -/
structure Time.Reaches (tm cur : Time) (after : UInt16) : Prop where
  deadline : tm.secs + after.toNat < 2^63
  left : tm.secs + after.toNat - cur.secs < 2^63

/- A reading counted from zero on that has every timeout before the end of the
   `long`s. -/
structure Time.Ordinary (t : Time) : Prop where
  normal : t.Normal
  secs : 0 ≤ t.secs ∧ t.secs + 2^16 ≤ 2^63

theorem Time.Ordinary.reaches {tm cur : Time} (htm : tm.Ordinary) (hcur : 0 ≤ cur.secs) (after : UInt16) :
    tm.Reaches cur after := by
  have ha := after.toNat_lt
  have hs := htm.secs
  constructor <;> omega

def Env.ClockNormal (env : Env σ) : Prop := ∀ a, (env.getTime a).2.Ordinary

/- What the clock shows. -/
def now (env : Env σ) (w : World σ) : Time := (env.getTime w.app).2

/- Nothing leaves the `long`s, and what is left of the timeout is exact. -/
theorem timeGetTimeoutTo_left (tm cur : Time) (after : UInt16) (htm : tm.Normal) (hcur : cur.Normal)
    (hr : tm.Reaches cur after) (ha : after ≠ 0) :
    ∃ secs nsecs, timeGetTimeoutTo tm cur after = (true, secs, nsecs) ∧ 0 ≤ nsecs ∧ nsecs < 10^9 ∧
      secs * 10^9 + nsecs = max 0 (tm.nanos + after.toNat * 10^9 - cur.nanos) := by
  obtain ⟨⟨hn, hn'⟩, hs, hs'⟩ := htm
  obtain ⟨⟨hm, hm'⟩, hc, hc'⟩ := hcur
  obtain ⟨hd, hl⟩ := hr
  have hpos : 0 < after.toNat := Nat.pos_of_ne_zero fun h => ha (UInt16.toNat_inj.mp h)
  have hdeadline : toLong (tm.secs + after.toNat) = tm.secs + after.toNat := toLong_of_bounds _ (by omega) hd
  have hborrow : toLong (tm.secs + after.toNat - 1) = tm.secs + after.toNat - 1 :=
    toLong_of_bounds _ (by omega) (by omega)
  have hcarry : toLong (tm.nsecs + 10^9) = tm.nsecs + 10^9 := toLong_of_bounds _ (by omega) (by omega)
  unfold timeGetTimeoutTo Time.nanos
  rw [if_neg ha]
  by_cases hb : tm.nsecs < cur.nsecs
  · simp only [hb, if_true, hdeadline, hborrow, hcarry]
    by_cases hle : cur.secs ≤ tm.secs + after.toNat - 1
    · rw [if_pos hle, toLong_of_bounds _ (by omega) (by omega), toLong_of_bounds _ (by omega) (by omega)]
      exact ⟨_, _, rfl, by omega, by omega, by omega⟩
    · rw [if_neg hle]
      exact ⟨_, _, rfl, by omega, by omega, by omega⟩
  · simp only [hb, if_false, hdeadline]
    by_cases hle : cur.secs ≤ tm.secs + after.toNat
    · rw [if_pos hle, toLong_of_bounds _ (by omega) (by omega), toLong_of_bounds _ (by omega) (by omega)]
      exact ⟨_, _, rfl, by omega, by omega, by omega⟩
    · rw [if_neg hle]
      exact ⟨_, _, rfl, by omega, by omega, by omega⟩

/- Nothing is left of the timeout when its seconds have gone by. -/
theorem timeGetTimeoutTo_elapsed (tm cur : Time) (after : UInt16) (htm : tm.Normal) (hcur : cur.Normal)
    (hr : tm.Reaches cur after) (ha : after ≠ 0) : (timeGetTimeoutTo tm cur after).1 = true ∧
      ((timeGetTimeoutTo tm cur after).2.1 = 0 ∧ (timeGetTimeoutTo tm cur after).2.2 = 0 ↔
        tm.nanos + after.toNat * 10^9 ≤ cur.nanos) := by
  obtain ⟨secs, nsecs, hto, hn, hn', hleft⟩ := timeGetTimeoutTo_left tm cur after htm hcur hr ha
  rw [hto]
  refine ⟨rfl, ?_⟩
  simp only
  omega

namespace Store

/- The seconds `lmqtt_store_get_timeout` counts from the last touch. -/
def limit (s : Store) : UInt16 := if 0 < s.count then s.timeout else s.keepAlive

/-- The time of the store has run out. -/
def Due (s : Store) (t : Time) : Prop :=
  s.limit ≠ 0 ∧ s.lastTouch ≠ {} ∧ s.lastTouch.nanos + s.limit.toNat * 10^9 ≤ t.nanos

theorem getTimeout_due (s : Store) (t : Time) (hn : s.lastTouch.Normal) (ht : t.Normal) (hr : s.lastTouch.Reaches t s.limit) :
    ((s.getTimeout t).1 = true ∧ (s.getTimeout t).2.2.1 = 0 ∧ (s.getTimeout t).2.2.2 = 0 ↔ s.Due t) ∧
      ((s.getTimeout t).1 = true → (s.getTimeout t).2.1 = s.count) := by
  have hzero : s.lastTouch = {} ↔ s.lastTouch.secs = 0 ∧ s.lastTouch.nsecs = 0 := by
    constructor
    · intro h
      rw [h]
      exact ⟨rfl, rfl⟩
    · rintro ⟨h, h'⟩
      rw [Time.mk.injEq]
      exact ⟨h, h'⟩
  unfold getTimeout Due
  by_cases hoff : s.limit = 0 ∨ s.lastTouch.secs = 0 ∧ s.lastTouch.nsecs = 0
  · rw [show (if 0 < s.count then s.timeout else s.keepAlive) = s.limit from rfl]
    rw [if_pos hoff]
    rw [← hzero] at hoff
    constructor
    · constructor
      · intro h
        cases h.1
      · rintro ⟨hl, hz, -⟩
        tauto
    · intro h
      cases h
  · rw [show (if 0 < s.count then s.timeout else s.keepAlive) = s.limit from rfl]
    rw [if_neg hoff]
    rw [← hzero] at hoff
    obtain ⟨hl, hz⟩ := not_or.mp hoff
    obtain ⟨hone, helapsed⟩ := timeGetTimeoutTo_elapsed s.lastTouch t s.limit hn ht hr hl
    simp only [hone, true_and, helapsed, forall_const, and_true]
    tauto

/-! ### The time of the last touch -/

theorem append_lastTouch {s t : Store} {e : Entry} (h : s.append e = some t) : t.lastTouch = s.lastTouch := by
  unfold append at h
  split at h
  · cases h
    rfl
  · contradiction

theorem popAt_lastTouch {s t : Store} {i : ℕ} {e : Entry} (h : s.popAt i = some (e, t)) :
    t.lastTouch = s.lastTouch := by
  unfold popAt at h
  split at h
  · cases h
    rfl
  · contradiction

theorem popMarkedBy_lastTouch {s t : Store} {k : Kind} {id : PacketId} {e : Entry}
    (h : s.popMarkedBy k id = some (e, t)) : t.lastTouch = s.lastTouch := by
  obtain ⟨i, -, hp⟩ := Option.bind_eq_some_iff.mp h
  exact popAt_lastTouch hp

theorem deleteAt_lastTouch (s : Store) (i : ℕ) : (s.deleteAt i).lastTouch = s.lastTouch := by
  unfold deleteAt
  cases hp : s.popAt i with
  | none => rfl
  | some r =>
    obtain ⟨e, t⟩ := r
    exact popAt_lastTouch hp

theorem markCurrent_lastTouch (s : Store) : s.markCurrent.lastTouch = s.lastTouch := by
  unfold markCurrent
  split <;> rfl

end Store

theorem deleteSessionless_lastTouch (fuel i : ℕ) (s : Store) :
    (deleteSessionless fuel i s).lastTouch = s.lastTouch := by
  induction fuel generalizing i s with
  | zero => rfl
  | succ fuel ih =>
    unfold deleteSessionless
    cases s.getAt i with
    | none => rfl
    | some e =>
      simp only
      split
      · rw [ih, Store.deleteAt_lastTouch]
      · exact ih (i+1) s

/- The stores were touched at readings of the clock. -/
def World.Touched (w : World σ) : Prop := ∀ r, (w.store r).lastTouch.Ordinary

theorem touched_setStore {w : World σ} (hw : w.Touched) {r : StoreRef} {s : Store} (hs : s.lastTouch.Ordinary) :
    (w.setStore r s).Touched := by
  intro r'
  rw [World.store_setStore]
  split
  · exact hs
  · exact hw r'

theorem touched_effect (hc : env.ClockNormal) {w w' : World σ} (h : Effect env P w w') (hw : w.Touched) :
    w'.Touched := by
  have hmain : ∀ s : Store, s.lastTouch = w.mainStore.lastTouch → { w with mainStore := s }.Touched := by
    intro s hs r
    cases r with
    | main => exact (congrArg Time.Ordinary hs).mpr (hw .main)
    | connect => exact hw .connect
  have hset : ∀ r (s : Store), s.lastTouch = (w.store r).lastTouch → (w.setStore r s).Touched := fun r s hs =>
    touched_setStore hw ((congrArg Time.Ordinary hs).mpr (hw r))
  cases h with
  | clock r => exact touched_setStore hw (hc w.app)
  | nextId => exact hmain _ rfl
  | accept kind id p s hk ho hs => exact hmain s (Store.append_lastTouch hs)
  | enqueue kind s hk hs => exact hmain s (Store.append_lastTouch hs)
  | mark e hp hr => exact hset _ _ (Store.markCurrent_lastTouch _)
  | drop e hp hr => exact hset _ _ (Store.deleteAt_lastTouch _ _)
  | pop k id e s hk hv hi hc hs => exact hset _ _ (Store.popMarkedBy_lastTouch hs)
  | pubrec e s t hk hv hy hs ht =>
    exact hset _ _ ((Store.append_lastTouch ht).trans (Store.popMarkedBy_lastTouch hs))
  | ack e s he hs => exact hset _ _ (Store.append_lastTouch hs)
  | shift r e s hr hf hs => exact hset _ _ (Store.popAt_lastTouch hs)
  | sessionless hcl => exact hmain _ (deleteSessionless_lastTouch _ _ _)
  | connecting p s ho hp hs =>
    intro r
    cases r with
    | main => exact hw .main
    | connect => exact (congrArg Time.Ordinary (Store.append_lastTouch hs)).mpr (hw .connect)
  | _ =>
    intro r
    cases r
    · exact hw .main
    · exact hw .connect

theorem reached_touched (hc : env.ClockNormal) (w : World σ) (h : Reached env P w) : w.Touched := by
  apply reached_invariant (I := World.Touched) ?_ ?_ ?_ w h
  · exact fun v v' _ he hv => touched_effect hc he hv
  · intro v readBuf writeBuf hv r
    cases r
    · exact hv .main
    · exact hv .connect
  · intro buffers heap app r
    have hzero : ({} : Time).Ordinary := ⟨⟨by decide, by decide⟩, by decide⟩
    cases r <;> exact hzero

/-! ### `client_keep_alive` -/

/- The entry of a PINGREQ. -/
def pingEntry : Entry := ⟨.pingreq, { callback := some .onPingresp }⟩

/-- What `client_keep_alive` does to a client without an error. -/
inductive KeptAlive (env : Env σ) (w : World σ) : IoStatus → World σ → Prop
  | idle (a) (hd : ¬ (w.store w.currentStore).Due (now env w)) : KeptAlive env w .ready { w with app := a }
  | timeout (v) (hd : (w.store w.currentStore).Due (now env w)) (hs : 0 < (w.store w.currentStore).count)
    (hv : v.error = some .timeout) : KeptAlive env w .error v
  | ping (a s) (hd : (w.store w.currentStore).Due (now env w)) (hs : (w.store w.currentStore).count = 0)
    (ho : w.ops.pingreq = true) (ha : w.mainStore.append pingEntry = some s) :
    KeptAlive env w .ready { w with app := a, mainStore := s }
  | noPing (a) (hd : (w.store w.currentStore).Due (now env w)) (hs : (w.store w.currentStore).count = 0)
    (ho : w.ops.pingreq = true → w.mainStore.append pingEntry = none) : KeptAlive env w .ready { w with app := a }

theorem currentTimeout_ok {w v : World σ} {r : Bool × ℕ × ℤ × ℤ} (h : currentTimeout env w = .ok r v) :
    r = (w.store w.currentStore).getTimeout (now env w) ∧ ∃ a, v = { w with app := a } := by
  have h := ok_get_bind h
  rcases hg : env.getTime w.app with ⟨a, t⟩
  rw [hg] at h
  rcases ok_ite h with ⟨-, h⟩ | ⟨-, h⟩
  · have h := ok_set_bind h
    obtain ⟨rfl, rfl⟩ := ok_pure h
    exact ⟨by rw [now, hg], a, rfl⟩
  · obtain ⟨rfl, rfl⟩ := ok_pure h
    exact ⟨by rw [now, hg], w.app, rfl⟩

theorem clientDoPingreq_spec (w : World σ) :
    Wp clientDoPingreq w (fun _ v => (∃ s, w.mainStore.append pingEntry = some s ∧ v = { w with mainStore := s }) ∨
      w.mainStore.append pingEntry = none ∧ v = w) fun _ _ => False := by
  simp only [clientDoPingreq, wp_bind, wp_get]
  split
  · rename_i hn
    exact .inr ⟨hn, rfl⟩
  · rename_i s hs
    exact .inl ⟨s, hs, rfl⟩

theorem clientKeepAlive_ok {w v : World σ} {status : IoStatus} (hc : (now env w).Normal) (hz : 0 ≤ (now env w).secs)
    (ht : w.Touched) (he : w.error = none) (h : clientKeepAlive env w = .ok status v) : KeptAlive env w status v := by
  have h := ok_get_bind h
  rw [he] at h
  obtain ⟨⟨has, count, secs, nsecs⟩, u, hread, h⟩ := ok_bind h
  obtain ⟨hr, a, hu⟩ := currentTimeout_ok hread
  subst hu
  obtain ⟨hdue, hcount⟩ := Store.getTimeout_due (w.store w.currentStore) (now env w) (ht _).normal hc
    ((ht _).reaches hz _)
  rw [← hr] at hdue hcount
  simp only at hdue hcount
  rcases ok_ite h with ⟨hn, h⟩ | ⟨hn, h⟩
  · obtain ⟨rfl, rfl⟩ := ok_pure h
    apply KeptAlive.idle
    rw [← hdue]
    rintro ⟨rfl, rfl, rfl⟩
    simp at hn
  · simp only [Bool.or_eq_true, Bool.not_eq_true', decide_eq_true_eq, not_or, Bool.not_eq_false, not_not] at hn
    have hd := hdue.mp ⟨hn.1.1, hn.1.2, hn.2⟩
    have hcount := hcount hn.1.1
    rcases ok_ite h with ⟨hpos, h⟩ | ⟨hpos, h⟩
    · have h := ok_modify_bind h
      obtain ⟨_, x, hx, h⟩ := ok_bind h
      obtain ⟨rfl, rfl⟩ := ok_pure h
      rw [wp_ok (clientSetStateFailed_spec env { w with app := a } .timeout 0) hx]
      exact .timeout _ hd (by omega) rfl
    · obtain ⟨b, x, hx, h⟩ := ok_bind h
      obtain ⟨rfl, rfl⟩ := ok_pure h
      have hx := ok_get_bind hx
      have hempty : (w.store w.currentStore).count = 0 := by omega
      rcases ok_ite hx with ⟨ho, hx⟩ | ⟨ho, hx⟩
      · rcases wp_ok (clientDoPingreq_spec { w with app := a }) hx with ⟨s, hs, rfl⟩ | ⟨hn, rfl⟩
        · exact .ping a s hd hempty ho hs
        · exact .noPing a hd hempty fun _ => hn
      · obtain ⟨-, rfl⟩ := ok_pure hx
        exact .noPing a hd hempty fun hp => absurd hp ho

theorem clientKeepAlive_returns (w : World σ) :
    ∃ status v, clientKeepAlive env w = .ok status v := by
  have h : Wp (clientKeepAlive env) w (fun _ _ => True) fun _ _ => False := by
    simp only [clientKeepAlive, wp_bind, wp_get]
    refine wp_if (fun _ => trivial) fun _ => ?_
    refine (wp_bind ..).mpr ((currentTimeout_spec w).mono (fun r u _ => ?_) fun _ _ h => h)
    obtain ⟨has, count, secs, nsecs⟩ := r
    refine wp_if (fun _ => trivial) fun _ => wp_if (fun _ => ?_) fun _ => ?_
    · simp only [wp_bind, wp_modify]
      exact (clientSetStateFailed_spec env u .timeout 0).mono (fun _ _ _ => trivial) fun _ _ h => h
    · simp only [lmqttClientPingreq, wp_bind, wp_get]
      exact wp_if (fun _ => (clientDoPingreq_spec u).mono (fun _ _ _ => trivial) fun _ _ h => h) fun _ => trivial
  obtain ⟨status, v, h, -⟩ := wp_exists h
  exact ⟨status, v, h⟩

/-! ### Timeouts of requests -/

/- The environment with its clock at `t`. -/
def Env.at (env : Env σ) (t : Time) : Env σ := { env with getTime := fun a => (a, t) }

/- `client_keep_alive` at the time `t` fails the client with a timeout. -/
def TimesOutAt (env : Env σ) (w : World σ) (t : Time) : Prop :=
  ∃ v, clientKeepAlive (env.at t) w = .ok .error v ∧ v.error = some .timeout

theorem timesOutAt_iff (w : World σ) (t : Time) (ht : w.Touched) (he : w.error = none) (hn : t.Normal)
    (hz : 0 ≤ t.secs) :
    TimesOutAt env w t ↔ (w.store w.currentStore).Due t ∧ 0 < (w.store w.currentStore).count := by
  have hnow : (now (env.at t) w).Normal := hn
  have hzero : 0 ≤ (now (env.at t) w).secs := hz
  constructor
  · rintro ⟨v, hv, -⟩
    cases clientKeepAlive_ok hnow hzero ht he hv with
    | timeout v hd hs => exact ⟨hd, hs⟩
  · rintro ⟨hd, hs⟩
    obtain ⟨status, v, hv⟩ := clientKeepAlive_returns w
    cases clientKeepAlive_ok hnow hzero ht he hv with
    | idle a hn => exact absurd hd hn
    | timeout v hd hs hv' => exact ⟨v, hv, hv'⟩
    | ping a s hd h0 => omega
    | noPing a hd h0 => omega

/-- The states of a run whose clock does not go back, newest first. -/
inductive Timeline (env : Env σ) : List (World σ) → Prop
  | start (buffers : ClientBuffers) (heap : Heap) (app : σ) (w : World σ)
    (h : lmqttClientInitialize env (clientCleared buffers heap app) = .ok () w) : Timeline env [w]
  | act (w w' : World σ) (ws : List (World σ)) (a : Act σ) (hw : Timeline env (w :: ws))
    (ha : a.Enabled (fun _ => True) w) (h : a.run env w = .ok () w')
    (hc : (now env w).nanos ≤ (now env w').nanos) : Timeline env (w' :: w :: ws)

theorem Timeline.reached_head {ws : List (World σ)} (h : Timeline env ws) :
    ∀ w ∈ ws.head?, Reached env (fun _ => True) w := by
  induction h with
  | start buffers heap app v hv =>
    intro w hw
    obtain rfl := Option.some.inj hw
    exact .start buffers heap app v hv
  | act v v' vs a hv ha hrun hc ih =>
    intro w hw
    obtain rfl := Option.some.inj hw
    exact .act v v' a (ih v rfl) ha hrun

theorem Timeline.reached {w : World σ} {ws : List (World σ)} (h : Timeline env (w :: ws)) :
    Reached env (fun _ => True) w := h.reached_head w rfl

/- The states of some acts, if each of them is possible and returns, and the clock
   does not go back. -/
def runTimed (env : Env σ) : List (Act σ) → World σ → List (World σ) → Option (List (World σ))
  | [], w, ws => some (w :: ws)
  | a :: as, w, ws =>
    if a.ready (fun _ => true) w then
      match a.run env w with
      | .ok _ v => if (now env w).nanos ≤ (now env v).nanos then runTimed env as v (w :: ws) else none
      | .error _ _ => none
    else none

theorem timeline_runTimed (as : List (Act σ)) (w : World σ) (ws l : List (World σ)) (hw : Timeline env (w :: ws))
    (h : runTimed env as w ws = some l) : Timeline env l := by
  induction as generalizing w ws with
  | nil =>
    cases h
    exact hw
  | cons a as ih =>
    simp only [runTimed] at h
    split at h
    · rename_i hr
      split at h
      · rename_i v hv
        split at h
        · rename_i hc
          exact ih v (w :: ws) (.act w v ws a hw (ready_enabled (fun _ _ => trivial) w a hr) hv hc) h
        · contradiction
      · contradiction
    · contradiction

/- The same from the start of a client. -/
def runClientTimed (env : Env σ) (buffers : ClientBuffers) (heap : Heap) (app : σ) (as : List (Act σ)) :
    Option (List (World σ)) :=
  match lmqttClientInitialize env (clientCleared buffers heap app) with
  | .ok _ w => runTimed env as w []
  | .error _ _ => none

theorem timeline_get (buffers : ClientBuffers) (heap : Heap) (app : σ) (as : List (Act σ))
    (h : (runClientTimed env buffers heap app as).isSome = true) :
    Timeline env ((runClientTimed env buffers heap app as).get h) := by
  have hrun := (Option.some_get h).symm
  generalize (runClientTimed env buffers heap app as).get h = l at hrun ⊢
  simp only [runClientTimed] at hrun
  split at hrun
  · rename_i v hv
    exact timeline_runTimed as v [] l (.start buffers heap app v hv) hrun
  · contradiction

/- Some entry of the main store has been there since the time `n`. -/
def StoredSince (env : Env σ) (ws : List (World σ)) (n : ℤ) : Prop :=
  ∃ e, History.HeldSince (fun v => (now env v).nanos) (fun v => e ∈ v.mainStore.entries) ws n

theorem StoredSince.mono {ws : List (World σ)} {n m : ℤ} (h : StoredSince env ws n) (hm : n ≤ m) :
    StoredSince env ws m := by
  obtain ⟨e, he⟩ := h
  exact ⟨e, he.mono hm⟩

/-- From a state of a run on, a connected client fails with a timeout only if some
entry has waited for the timeout, exactly where no entry waits, or the main store
was never touched, or some entry has been there since the last touch or has waited
already. -/
theorem timeout_waited_iff (hc : env.ClockNormal) (w : World σ) (ws : List (World σ))
    (h : Timeline env (w :: ws)) (he : w.error = none) (hm : w.currentStore = .main)
    (hT : w.mainStore.timeout ≠ 0) :
    (∀ t : Time, t.Normal → (now env w).nanos ≤ t.nanos → TimesOutAt env w t →
        StoredSince env (w :: ws) (t.nanos - w.mainStore.timeout.toNat * 10^9)) ↔
      w.mainStore.entries = [] ∨ w.mainStore.lastTouch = {} ∨
        StoredSince env (w :: ws) w.mainStore.lastTouch.nanos ∨
        StoredSince env (w :: ws) ((now env w).nanos - w.mainStore.timeout.toNat * 10^9) := by
  have htouched := reached_touched hc w h.reached
  have hstore : w.store w.currentStore = w.mainStore := by
    rw [hm]
    rfl
  have hnow := hc w.app
  have hT : w.mainStore.timeout ≠ 0 := hT
  have hout : ∀ t : Time, t.Normal → (now env w).nanos ≤ t.nanos → (TimesOutAt env w t ↔
      w.mainStore.entries ≠ [] ∧ w.mainStore.lastTouch ≠ {} ∧
        w.mainStore.lastTouch.nanos + w.mainStore.timeout.toNat * 10^9 ≤ t.nanos) := by
    intro t ht hle
    have hz : 0 ≤ t.secs := by
      have hn := hnow.normal.nsecs
      have hs := hnow.secs
      have hn' := ht.nsecs
      unfold now Time.nanos at hle
      omega
    have hcount : 0 < w.mainStore.count ↔ w.mainStore.entries ≠ [] := List.length_pos_iff
    rw [timesOutAt_iff w t htouched he ht hz, hstore, hcount]
    unfold Store.Due Store.limit
    constructor
    · rintro ⟨⟨-, hz, hd⟩, hne⟩
      rw [if_pos (hcount.mpr hne)] at hd
      exact ⟨hne, hz, hd⟩
    · rintro ⟨hne, hz, hd⟩
      rw [if_pos (hcount.mpr hne)]
      exact ⟨⟨hT, hz, hd⟩, hne⟩
  constructor
  · intro hall
    by_cases hne : w.mainStore.entries = []
    · exact .inl hne
    by_cases hz : w.mainStore.lastTouch = {}
    · exact .inr (.inl hz)
    right
    right
    -- the first moment at which the call can fail
    by_cases hfirst : w.mainStore.lastTouch.nanos + w.mainStore.timeout.toNat * 10^9 ≤ (now env w).nanos
    · right
      exact hall (now env w) hnow.normal le_rfl ((hout _ hnow.normal le_rfl).mpr ⟨hne, hz, hfirst⟩)
    · left
      have htouch : w.mainStore.lastTouch.Ordinary := htouched .main
      have hlt := w.mainStore.timeout.toNat_lt
      have hs := htouch.secs
      have hn : (⟨w.mainStore.lastTouch.secs + w.mainStore.timeout.toNat, w.mainStore.lastTouch.nsecs⟩ : Time).Normal :=
        ⟨htouch.normal.nsecs, by constructor <;> simp only <;> omega⟩
      have ht : (⟨w.mainStore.lastTouch.secs + w.mainStore.timeout.toNat, w.mainStore.lastTouch.nsecs⟩ : Time).nanos =
          w.mainStore.lastTouch.nanos + w.mainStore.timeout.toNat * 10^9 := by
        unfold Time.nanos
        simp only
        omega
      have hs := hall _ hn (by omega) ((hout _ hn (by omega)).mpr ⟨hne, hz, by omega⟩)
      exact hs.mono (by omega)
  · intro hor t ht hle hfail
    obtain ⟨hne, hz, hd⟩ := (hout t ht hle).mp hfail
    rcases hor with hnil | h0 | hs | hs
    · exact absurd hnil hne
    · exact absurd h0 hz
    · exact hs.mono (by omega)
    · exact hs.mono (by omega)

/- A clock that shows the seconds the application keeps. -/
def secondsEnv : Env UInt32 where
  read := fun a _ => ⟨a, .wouldBlock, [], 0⟩
  write := fun a bs => ⟨a, .success, bs.length, 0⟩
  getTime := fun a => (a, { secs := a.toNat })
  strRead := fun a _ _ => ⟨a, .wouldBlock, [], 0⟩
  strWrite := fun a _ _ => ⟨a, .wouldBlock, 0, 0⟩
  fuel := 64

theorem secondsEnv_normal : secondsEnv.ClockNormal := by
  intro a
  have ha := a.toNat_lt
  refine ⟨⟨?_, ?_⟩, ?_⟩ <;> simp only [secondsEnv] <;> omega

/- A client with a timeout of five seconds is connected in the first second. -/
def connectTimed : List (Act UInt32) :=
  [.setDefaultTimeout 5, .connect 0, .encode 64, .decode [0x20, 2, 0, 0], .touch .main]

def promptActs : List (Act UInt32) := connectTimed ++ [.request (.publish 0)]

/- It publishes after ninety-nine quiet seconds. -/
def quietActs : List (Act UInt32) := connectTimed ++ [.transfer 100 [] [], .request (.publish 0)]

theorem promptRun_isSome : (runClientTimed secondsEnv ⟨8, 64, 64, 4⟩ smallHeap 1 promptActs).isSome = true := by
  decide +kernel

theorem quietRun_isSome : (runClientTimed secondsEnv ⟨8, 64, 64, 4⟩ smallHeap 1 quietActs).isSome = true := by
  decide +kernel

/- The last state of a timed run, and the one before it. -/
def lastTwo (l : List (World UInt32)) (q : World UInt32 → World UInt32 → Bool) : Bool :=
  match l with
  | w :: v :: _ => q w v
  | _ => false

theorem lastTwo_iff (l : List (World UInt32)) (q : World UInt32 → World UInt32 → Bool) (h : lastTwo l q = true) :
    ∃ w v ws, l = w :: v :: ws ∧ q w v = true := by
  match l, h with
  | w :: v :: ws, h => exact ⟨w, v, ws, rfl, h⟩

/-- The publish is failed in the moment in which it is issued. -/
theorem timeout_unwaited : ∃ (w : World UInt32) (ws : List (World UInt32)) (t : Time), secondsEnv.ClockNormal ∧
    Timeline secondsEnv (w :: ws) ∧ w.error = none ∧ w.currentStore = .main ∧ w.mainStore.timeout = 5 ∧ t.Normal ∧
    (now secondsEnv w).nanos ≤ t.nanos ∧ TimesOutAt secondsEnv w t ∧
    ¬ StoredSince secondsEnv (w :: ws) (t.nanos - 5 * 10^9) := by
  have hrun := timeline_get ⟨8, 64, 64, 4⟩ smallHeap 1 quietActs quietRun_isSome
  obtain ⟨w, v, ws, hl, hq⟩ := lastTwo_iff ((runClientTimed secondsEnv ⟨8, 64, 64, 4⟩ smallHeap 1 quietActs).get
    quietRun_isSome) (fun w v => w.error = none ∧ w.currentStore = .main ∧ w.mainStore.timeout = 5 ∧ w.app = 100 ∧
      w.mainStore.entries ≠ [] ∧ w.mainStore.lastTouch = ⟨1, 0⟩ ∧ v.mainStore.entries = []) (by decide +kernel)
  rw [hl] at hrun
  obtain ⟨he, hm, hT, happ, hne, hlast, hv⟩ := of_decide_eq_true hq
  have hnow : now secondsEnv w = ⟨100, 0⟩ := by
    rw [now, happ]
    rfl
  have htouched := reached_touched secondsEnv_normal w hrun.reached
  have hstore : w.store w.currentStore = w.mainStore := by
    rw [hm]
    rfl
  have hcount : 0 < w.mainStore.count := List.length_pos_iff.mpr hne
  refine ⟨w, v :: ws, ⟨100, 0⟩, secondsEnv_normal, hrun, he, hm, hT, ⟨by decide, by decide⟩, ?_, ?_, ?_⟩
  · rw [hnow]
  · rw [timesOutAt_iff w _ htouched he ⟨by decide, by decide⟩ (by decide), hstore]
    unfold Store.Due Store.limit
    rw [if_pos hcount, hT, hlast]
    exact ⟨⟨by decide, by decide, by decide⟩, hcount⟩
  · rintro ⟨e, hs⟩
    rw [History.heldSince_cons, hnow] at hs
    obtain ⟨-, ht | hs⟩ := hs
    · exact absurd ht (by decide)
    · have hin := hs.now
      rw [hv] at hin
      exact List.not_mem_nil hin

/-- A publish issued in the second of the last touch has its five seconds. -/
theorem timeout_waited_prompt : ∃ (w : World UInt32) (ws : List (World UInt32)), Timeline secondsEnv (w :: ws) ∧
    TimesOutAt secondsEnv w ⟨6, 0⟩ ∧ StoredSince secondsEnv (w :: ws) (10^9) := by
  have hrun := timeline_get ⟨8, 64, 64, 4⟩ smallHeap 1 promptActs promptRun_isSome
  obtain ⟨w, v, ws, hl, hq⟩ := lastTwo_iff ((runClientTimed secondsEnv ⟨8, 64, 64, 4⟩ smallHeap 1 promptActs).get
    promptRun_isSome) (fun w _ => w.error = none ∧ w.currentStore = .main ∧ w.mainStore.timeout = 5 ∧ w.app = 1 ∧
      w.mainStore.entries ≠ [] ∧ w.mainStore.lastTouch = ⟨1, 0⟩) (by decide +kernel)
  rw [hl] at hrun
  obtain ⟨he, hm, hT, happ, hne, hlast⟩ := of_decide_eq_true hq
  have hnow : now secondsEnv w = ⟨1, 0⟩ := by
    rw [now, happ]
    rfl
  have hstore : w.store w.currentStore = w.mainStore := by
    rw [hm]
    rfl
  have hcount : 0 < w.mainStore.count := List.length_pos_iff.mpr hne
  have hfails : TimesOutAt secondsEnv w ⟨6, 0⟩ := by
    rw [timesOutAt_iff w ⟨6, 0⟩ (reached_touched secondsEnv_normal w hrun.reached) he ⟨by decide, by decide⟩ (by decide),
      hstore]
    unfold Store.Due Store.limit
    rw [if_pos hcount, hT, hlast]
    exact ⟨⟨by decide, by decide, by decide⟩, hcount⟩
  obtain ⟨e, es, hes⟩ := List.exists_cons_of_ne_nil hne
  have hwaits : StoredSince secondsEnv (w :: v :: ws) w.mainStore.lastTouch.nanos := by
    refine ⟨e, (History.heldSince_cons ..).mpr ⟨?_, .inl ?_⟩⟩
    · rw [hes]
      exact List.mem_cons_self ..
    · rw [hnow, hlast]
  have hall := (timeout_waited_iff secondsEnv_normal w (v :: ws) hrun he hm (by rw [hT]; decide)).mpr
    (.inr (.inr (.inl hwaits)))
  have hsix := hall ⟨6, 0⟩ ⟨by decide, by decide⟩ (by rw [hnow]; decide) hfails
  have hsince : (⟨6, 0⟩ : Time).nanos - (5 : UInt16).toNat * 10^9 = 10^9 := by decide
  rw [hT, hsince] at hsix
  exact ⟨w, v :: ws, hrun, hfails, hsix⟩

end LightMqtt
