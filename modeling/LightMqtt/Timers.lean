import LightMqtt.KeepAlive

/-!
# Timers (`lmqtt_store_get_timeout`)

What is left of a timer, to the nanosecond: the seconds the store was given,
counted from its last touch, less the time of the clock, and nothing once they
have gone by. `client_keep_alive` acts from that moment on.
-/

namespace LightMqtt

open Exec

variable {σ : Type} {env : Env σ}

/-! ### What is left of a timer -/

theorem Time.ne_zero_iff (t : Time) : t ≠ {} ↔ ¬ (t.secs = 0 ∧ t.nsecs = 0) := by
  rw [ne_eq, Time.mk.injEq]

namespace Store

theorem getTimeout_off (s : Store) (t : Time) (h : s.limit = 0) : s.getTimeout t = (false, 0, 0, 0) := by
  rw [limit] at h
  simp only [getTimeout, h, true_or, if_true]

theorem getTimeout_left (s : Store) (t : Time) (hn : s.lastTouch.Normal) (ht : t.Normal)
    (hr : s.lastTouch.Reaches t s.limit) (hz : s.lastTouch ≠ {}) (hl : s.limit ≠ 0) :
    ∃ secs nsecs, s.getTimeout t = (true, s.count, secs, nsecs) ∧ 0 ≤ nsecs ∧ nsecs < 10^9 ∧
      secs * 10^9 + nsecs = max 0 (s.lastTouch.nanos + s.limit.toNat * 10^9 - t.nanos) := by
  obtain ⟨secs, nsecs, hto, hleft⟩ := timeGetTimeoutTo_left s.lastTouch t s.limit hn ht hr hl
  have hon : ¬ (s.limit = 0 ∨ s.lastTouch.secs = 0 ∧ s.lastTouch.nsecs = 0) := by
    rw [Time.ne_zero_iff] at hz
    tauto
  refine ⟨secs, nsecs, ?_, hleft⟩
  rw [limit] at hto hon
  simp only [getTimeout]
  rw [if_neg hon, hto]

end Store

/-! ### `client_keep_alive` at its deadline -/

/-- A client that is connected and has no error. -/
structure Online (w : World σ) : Prop where
  error : w.error = none
  store : w.currentStore = .main
  ping : w.ops.pingreq = true

/- Clients are online from the CONNACK on. -/
theorem online_of_reached {P : World σ → Prop} {w : World σ} (h : Reached env P w) (he : w.error = none)
    (hm : w.currentStore = .main) : Online w := by
  have hlive := (reached_effects w h).1
  refine ⟨he, hm, ?_⟩
  rw [hlive.sound.phase.ops.2.2]
  exact hlive.requests he (hlive.sound.rxStore.trans hm)

/-- What `client_keep_alive` does when the timer has run out. -/
def keepAliveAct (env : Env σ) (s : Store) : Prog σ IoStatus :=
  if 0 < s.count then do
    modify fun w => { w with error := some .timeout, osError := 0 }
    clientSetStateFailed env
    pure .error
  else do
    let _ ← clientDoPingreq
    pure .ready

theorem clientKeepAlive_acts (w : World σ) (hw : Online w) (hc : (now env w).Normal) (ht : w.mainStore.lastTouch.Normal)
    (hreach : w.mainStore.lastTouch.Reaches (now env w) w.mainStore.limit) :
    ∃ a, (w.mainStore.Due (now env w) → clientKeepAlive env w = keepAliveAct env w.mainStore { w with app := a }) ∧
      (¬ w.mainStore.Due (now env w) → clientKeepAlive env w = .ok .ready { w with app := a }) := by
  obtain ⟨r, u, hread, -⟩ := (wp_exists (currentTimeout_spec w) : ∃ r u, currentTimeout env w = .ok r u ∧ _)
  obtain ⟨hr, a, hu⟩ := currentTimeout_ok hread
  subst hu
  have hstore : w.store w.currentStore = w.mainStore := by
    rw [hw.store]
    rfl
  rw [hstore] at hr
  obtain ⟨hdue, hcount⟩ := Store.getTimeout_due w.mainStore (now env w) ht hc hreach
  rw [← hr] at hdue hcount
  obtain ⟨has, count, secs, nsecs⟩ := r
  simp only at hdue hcount
  have hrun : clientKeepAlive env w = (if !has || secs ≠ 0 || nsecs ≠ 0 then pure .ready
      else if 0 < count then do
        modify fun w => { w with error := some .timeout, osError := 0 }
        clientSetStateFailed env
        pure .error
      else do
        let _ ← lmqttClientPingreq
        pure .ready : Prog σ IoStatus) { w with app := a } := by
    have hnone : ¬ w.error.isSome = true := by
      rw [hw.error]
      exact Bool.false_ne_true
    unfold clientKeepAlive
    rw [run_get_bind, if_neg hnone, run_bind_ok hread]
  refine ⟨a, fun hd => ?_, fun hn => ?_⟩
  · obtain ⟨rfl, rfl, rfl⟩ := hdue.mpr hd
    rw [hrun, hcount rfl, keepAliveAct, if_neg (by decide)]
    by_cases hpos : 0 < w.mainStore.count
    · rw [if_pos hpos, if_pos hpos]
    · have hping : lmqttClientPingreq { w with app := a } = clientDoPingreq { w with app := a } := by
        unfold lmqttClientPingreq
        rw [run_get_bind]
        simp only [hw.ping, if_true]
      rw [if_neg hpos, if_neg hpos]
      obtain ⟨b, v, hv, -⟩ := wp_exists (clientDoPingreq_spec { w with app := a })
      rw [run_bind_ok hv, run_bind_ok (hping.trans hv)]
  · rw [hrun, if_pos]
    · rfl
    · by_contra hcon
      simp only [Bool.or_eq_true, Bool.not_eq_true', decide_eq_true_eq, not_or, Bool.not_eq_false, not_not] at hcon
      exact hn (hdue.mp ⟨hcon.1.1, hcon.1.2, hcon.2⟩)

/- The client fails, and its requests are refused from then on. -/
def World.timedOut (w : World σ) : World σ :=
  { w with error := some .timeout, osError := 0, closed := true, ops := {} }

theorem keepAliveAct_fails (s : Store) (w : World σ) (hs : 0 < s.count) :
    keepAliveAct env s w = .ok .error w.timedOut := by
  obtain ⟨r, v, hv, rfl⟩ := wp_exists (clientSetStateFailed_spec env w .timeout 0)
  rw [keepAliveAct, if_pos hs, run_modify_bind, run_bind_ok hv]
  rfl

variable (env) in
/- The only entry of a store that had none. -/
theorem keepAliveAct_pings (w : World σ) (hs : w.mainStore.count = 0) :
    ∃ v, keepAliveAct env w.mainStore w = .ok .ready v ∧
      (v.mainStore.entries = [pingEntry] ↔ 0 < w.mainStore.capacity) := by
  have hempty : w.mainStore.entries = [] := List.length_eq_zero_iff.mp hs
  obtain ⟨hentries, hroom⟩ := append_empty w.mainStore pingEntry hempty
  obtain ⟨b, v, hv, hcases⟩ := wp_exists (clientDoPingreq_spec w)
  refine ⟨v, ?_, ?_⟩
  · rw [keepAliveAct, if_neg (by omega), run_bind_ok hv]
    rfl
  · rcases hcases with ⟨s, hs', rfl⟩ | ⟨hnone, rfl⟩
    · rw [hs'] at hroom
      exact ⟨fun _ => hroom.mp rfl, fun _ => hentries s hs'⟩
    · rw [hnone] at hroom
      rw [hempty, ← hroom]
      simp

/-- As long as its deadline is in the `long`s, a timer has its seconds from the
last touch on, to the nanosecond, and a client that is online acts from its
deadline on and at no other time: with nothing in its store it tries to queue a
PINGREQ, and otherwise it fails. -/
theorem timers_fire_at_deadline (s : Store) (t : Time) (hn : s.lastTouch.Normal) (ht : t.Normal) (hz : s.lastTouch ≠ {})
    (hr : s.lastTouch.Reaches t (if 0 < s.count then s.timeout else s.keepAlive)) :
    let limit := if 0 < s.count then s.timeout else s.keepAlive
    let due := limit ≠ 0 ∧ s.lastTouch.nanos + limit.toNat * 10^9 ≤ t.nanos
    (limit = 0 → s.getTimeout t = (false, 0, 0, 0)) ∧
      (limit ≠ 0 → ∃ secs nsecs, s.getTimeout t = (true, s.count, secs, nsecs) ∧ 0 ≤ nsecs ∧ nsecs < 10^9 ∧
        secs * 10^9 + nsecs = max 0 (s.lastTouch.nanos + limit.toNat * 10^9 - t.nanos)) ∧
      ∀ (env : Env σ) (w : World σ), Online w → w.mainStore = s → now env w = t → ∃ a,
        (¬ due → clientKeepAlive env w = .ok .ready { w with app := a }) ∧
        (due → 0 < s.count → clientKeepAlive env w = .ok .error { w with app := a }.timedOut) ∧
        (due → s.count = 0 →
          clientKeepAlive env w = (do let _ ← clientDoPingreq; pure .ready : Prog σ IoStatus) { w with app := a }) ∧
        ((∃ v, clientKeepAlive env w = .ok .error v ∧ v.error = some .timeout) ↔ 0 < s.count ∧ due) ∧
        (s.count = 0 → 0 < s.capacity →
          ((∃ v, clientKeepAlive env w = .ok .ready v ∧ v.mainStore.entries = [pingEntry]) ↔ due)) := by
  intro limit due
  refine ⟨s.getTimeout_off t, s.getTimeout_left t hn ht hr hz, ?_⟩
  rintro env w hw rfl rfl
  obtain ⟨a, hacts, hidle⟩ := clientKeepAlive_acts w hw ht hn hr
  have hdue : w.mainStore.Due (now env w) ↔ due := by
    unfold Store.Due
    exact ⟨fun h => ⟨h.1, h.2.2⟩, fun h => ⟨h.1, hz, h.2⟩⟩
  rw [hdue] at hacts hidle
  have hfails : due → 0 < w.mainStore.count → clientKeepAlive env w = .ok .error { w with app := a }.timedOut := by
    intro hd hs
    rw [hacts hd, keepAliveAct_fails _ _ hs]
  refine ⟨a, hidle, hfails, ?_, ?_, ?_⟩
  · intro hd hs
    rw [hacts hd, keepAliveAct, if_neg (by omega)]
  · constructor
    · rintro ⟨v, hv, hverr⟩
      by_cases hd : due
      · refine ⟨?_, hd⟩
        by_contra hs
        obtain ⟨u, hu, -⟩ := keepAliveAct_pings env { w with app := a } (by simp only; omega)
        rw [hacts hd, hu] at hv
        cases hv
      · rw [hidle hd] at hv
        cases hv
    · rintro ⟨hs, hd⟩
      exact ⟨_, hfails hd hs, rfl⟩
  · intro hs hcap
    constructor
    · rintro ⟨v, hv, hping⟩
      by_contra hd
      rw [hidle hd] at hv
      cases hv
      rw [Store.count, hping] at hs
      contradiction
    · intro hd
      obtain ⟨u, hu, hroom⟩ := keepAliveAct_pings env { w with app := a } hs
      rw [hacts hd]
      exact ⟨u, hu, hroom.mpr hcap⟩

/- The keep alive of ten seconds, eleven seconds after the last touch. -/
theorem timers_fire_silent : ∃ w : World ((UInt32 × List Byte) × Option Time), Online w ∧
    w.mainStore.lastTouch = ⟨1, 0⟩ ∧ now feedEnv.recording w = ⟨12, 0⟩ ∧
    ∃ v, clientKeepAlive feedEnv.recording w = .ok .ready v ∧ v.mainStore.entries = [pingEntry] := by
  obtain ⟨w, hw, hs, hcap, hlast⟩ : ∃ w : World ((UInt32 × List Byte) × Option Time), BetweenCalls feedEnv w ∧
      SilentClient w ∧ 0 < w.mainStore.capacity ∧ w.mainStore.lastTouch = ⟨1, 0⟩ :=
    ⟨_, betweenCalls_get _ _ _ _ silentCalls_isSome, by decide +kernel⟩
  have honline := online_of_reached hw.reached hs.connected.1 hs.connected.2
  have hcount : w.mainStore.count = 0 := List.length_eq_zero_iff.mpr hs.empty.1
  obtain ⟨-, -, hclient⟩ :=
      timers_fire_at_deadline (σ := (UInt32 × List Byte) × Option Time) w.mainStore (now feedEnv.recording w)
    (by rw [hlast]; exact ⟨by decide, by decide⟩) (by rw [hs.now]; exact ⟨by decide, by decide⟩) (by rw [hlast]; decide)
    (by rw [hcount, hlast, hs.now, hs.declared, if_neg (lt_irrefl 0)]; exact ⟨by decide, by decide⟩)
  obtain ⟨a, -, -, -, -, hping⟩ := hclient feedEnv.recording w honline rfl rfl
  refine ⟨w, honline, hlast, hs.now, (hping hcount hcap).mpr ?_⟩
  rw [hcount, hlast, hs.now, hs.declared, if_neg (by decide)]
  decide

/-- A store that was touched in the last second a `long` can hold has no time left
of its second. -/
theorem timer_overflows : ∃ (s : Store) (t : Time), s.lastTouch.Normal ∧ t.Normal ∧ s.lastTouch ≠ {} ∧ s.count = 0 ∧
    s.keepAlive = 1 ∧ ¬ ∃ secs nsecs, s.getTimeout t = (true, s.count, secs, nsecs) ∧
      secs * 10^9 + nsecs = max 0 (s.lastTouch.nanos + s.keepAlive.toNat * 10^9 - t.nanos) := by
  refine ⟨{ Store.empty 1 with keepAlive := 1, lastTouch := ⟨2^63 - 1, 0⟩ }, ⟨2^63 - 1, 0⟩, ⟨by decide, by decide⟩,
    ⟨by decide, by decide⟩, by decide, rfl, rfl, ?_⟩
  rintro ⟨secs, nsecs, hread, hleft⟩
  have hnone : ({ Store.empty 1 with keepAlive := 1, lastTouch := ⟨2^63 - 1, 0⟩ } : Store).getTimeout ⟨2^63 - 1, 0⟩ =
      (true, 0, 0, 0) := by decide
  rw [hnone, Prod.mk.injEq, Prod.mk.injEq, Prod.mk.injEq] at hread
  obtain ⟨-, -, rfl, rfl⟩ := hread
  revert hleft
  decide

end LightMqtt
