import LightMqtt.Effect

/-!
# Requests that are still to be answered

A request is in at most one place, a store or the decoder, and it is answered
when it leaves its place for good. What the decoder holds may have been answered
already: a callback that fails leaves it where it is.
-/

namespace LightMqtt

variable {σ : Type} {env : Env σ} {P : World σ → Prop}

/-! ### Counting -/

section Times
variable {s t : Store} {e : Entry} {pre post : List Entry} {r : ℕ}

theorem Store.times_append (h : Store.Appended s e t) :
    t.times r = s.times r + if e.value.req = some r then 1 else 0 := by
  rw [times, times, h.entries, List.countP_append, List.countP_singleton]
  simp only [decide_eq_true_eq]

theorem Store.times_removed (h : Store.Removed s pre e post t) :
    s.times r = t.times r + if e.value.req = some r then 1 else 0 := by
  rw [times, times, h.before, h.after, List.countP_append, List.countP_append, List.countP_cons]
  simp only [decide_eq_true_eq]
  omega

theorem Store.times_of_entries (h : t.entries = s.entries) : t.times r = s.times r := by
  rw [times, times, h]

end Times

theorem timesAnswered_cons (ev : Event) (log : List Event) (r : ℕ) :
    timesAnswered (ev :: log) r = timesAnswered log r + if ev.answeredAs r then 1 else 0 := by
  rw [timesAnswered, timesAnswered, List.countP_cons]

theorem timesAnswered_append (evs log : List Event) (r : ℕ) :
    timesAnswered (evs ++ log) r = timesAnswered evs r + timesAnswered log r := by
  rw [timesAnswered, timesAnswered, timesAnswered, List.countP_append]

section World
variable (w : World σ) (r : ℕ)

theorem stored_setStore (ref : StoreRef) (s : Store) :
    (w.setStore ref s).stored r + (w.store ref).times r = w.stored r + s.times r := by
  cases ref <;> simp only [World.stored, World.setStore, World.store] <;> omega

/- A callback is called at most once, for its own request. -/
theorem answers_times (v : Value) :
    timesAnswered (w.answers v) r ≤ if v.req = some r then 1 else 0 := by
  unfold World.answers
  split
  · simp [timesAnswered]
  · simp [timesAnswered]
  · split
    · simp [timesAnswered, Event.answeredAs, List.countP_cons]
    · simp [timesAnswered]
  · simp [timesAnswered, Event.answeredAs, List.countP_cons]

end World

/-- Where the request `r` is, and how often it was answered. -/
structure Owed (w : World σ) (r : ℕ) : Prop where
  place : w.stored r + w.held r ≤ 1
  fresh : w.nextReq ≤ r → w.stored r + w.held r + timesAnswered w.log r = 0
  stored : w.stored r + timesAnswered w.log r ≤ 1 ∨ w.stored r = 0
  held : w.held r = 1 → timesAnswered w.log r ≤ w.rx.internal.calls
  answered : timesAnswered w.log r ≤ 1 ∨ w.held r = 1

/- The decoder calls a callback once, except at the end of the client. -/
def World.CalledOnce (w : World σ) : Prop := w.rx.internal.calls ≤ 1 ∨ w.error = some .closed

section Owed
variable {w w' : World σ} {r : ℕ}

theorem held_le (w : World σ) (r : ℕ) : w.held r ≤ 1 := by
  unfold World.held
  split <;> omega

theorem held_of_value (h : w'.rx.internal.value = w.rx.internal.value) : w'.held r = w.held r := by
  rw [World.held, World.held, h]

theorem held_of_empty (h : w.rx.internal.value = {}) : w.held r = 0 := by
  simp [World.held, h]

/- Nothing is answered, and no request gets a new place. -/
theorem Owed.quiet (h : Owed w r) (hs : w'.stored r ≤ w.stored r) (hl : timesAnswered w'.log r = timesAnswered w.log r)
    (hn : w'.nextReq = w.nextReq)
    (hh : w'.held r = 1 → w.held r = 1 ∧ w.rx.internal.calls ≤ w'.rx.internal.calls)
    (hd : w.held r = 1 → w'.held r = 1 ∨ w.rx.internal.calls ≤ 1) : Owed w' r := by
  obtain ⟨h1, h2, h3, h4, h5⟩ := h
  have hle := held_le w r
  have hle' := held_le w' r
  constructor
  · omega
  · intro hr
    have := h2 (by omega)
    omega
  · omega
  · intro h1'
    have := h4 (hh h1').1
    have := (hh h1').2
    omega
  · by_cases hw : w.held r = 1
    · have := h4 hw
      have := hd hw
      omega
    · omega

/- An entry leaves a store, and its callback is called. -/
theorem Owed.leave (h : Owed w r) (req : Option ℕ)
    (hs : w.stored r = w'.stored r + if req = some r then 1 else 0)
    (hl : timesAnswered w'.log r ≤ timesAnswered w.log r + if req = some r then 1 else 0)
    (hn : w'.nextReq = w.nextReq) (hh : w'.held r = w.held r)
    (hc : w'.rx.internal.calls = w.rx.internal.calls) : Owed w' r := by
  obtain ⟨h1, h2, h3, h4, h5⟩ := h
  split at hs <;> split at hl <;> try contradiction
  all_goals
    refine ⟨by omega, fun hr => ?_, by omega, fun h1' => ?_, by omega⟩
    · have := h2 (by omega)
      omega
    · have := h4 (by omega)
      omega

/- A request that is made gets the next serial number. -/
theorem Owed.enter (h : Owed w r) (hn : w'.nextReq = w.nextReq + 1)
    (hs : w'.stored r = w.stored r + if w.nextReq = r then 1 else 0)
    (hl : timesAnswered w'.log r = timesAnswered w.log r)
    (hh : w'.held r = 1 → w.held r = 1 ∧ w.rx.internal.calls ≤ w'.rx.internal.calls)
    (hd : w.held r = 1 → w'.held r = 1 ∨ w.rx.internal.calls ≤ 1) : Owed w' r := by
  obtain ⟨h1, h2, h3, h4, h5⟩ := h
  have hle := held_le w r
  have hle' := held_le w' r
  by_cases hr : w.nextReq ≤ r
  · have h0 := h2 hr
    split at hs <;> exact ⟨by omega, fun _ => by omega, by omega, by omega, by omega⟩
  · rw [if_neg (by omega)] at hs
    refine ⟨by omega, fun _ => by omega, by omega, fun h1' => ?_, ?_⟩
    · have := h4 (hh h1').1
      have := (hh h1').2
      omega
    · by_cases hw : w.held r = 1
      · have := h4 hw
        have := hd hw
        omega
      · omega

/- The callback of the request the decoder holds is called. -/
theorem Owed.call (h : Owed w r) (hs : w'.stored r = w.stored r)
    (hl : timesAnswered w'.log r ≤ timesAnswered w.log r + w.held r) (hn : w'.nextReq = w.nextReq)
    (hh : w'.held r = w.held r) (hc : w'.rx.internal.calls = w.rx.internal.calls + 1) : Owed w' r := by
  obtain ⟨h1, h2, h3, h4, h5⟩ := h
  have hle := held_le w r
  refine ⟨by omega, fun hr => ?_, by omega, fun h1' => ?_, by omega⟩
  · have := h2 (by omega)
    omega
  · have := h4 (by omega)
    omega

end Owed

/-! ### Effects -/

theorem isNote_answeredAs {e : Event} (he : e.isNote = true) (r : ℕ) : e.answeredAs r = false := by
  cases e <;> simp_all [Event.isNote, Event.answeredAs]

/- Events that answer nothing. -/
theorem timesAnswered_quiet {evs log : List Event} (h : ∀ ev ∈ evs, ∀ r, ev.answeredAs r = false) (r : ℕ) :
    timesAnswered (evs ++ log) r = timesAnswered log r := by
  rw [timesAnswered_append]
  have : timesAnswered evs r = 0 := by
    rw [timesAnswered, List.countP_eq_zero]
    intro ev hev
    rw [h ev hev r]
    simp
  omega

theorem owed_effect {w w' : World σ} (h : Effect env P w w') (ho : w.ops.connect = true → w.error = none)
    (hc : w.CalledOnce) (r : ℕ) (hw : Owed w r) : Owed w' r := by
  have hle := held_le w r
  -- the decoder keeps its request
  have hkeep : ∀ {w' : World σ}, w'.stored r ≤ w.stored r → timesAnswered w'.log r = timesAnswered w.log r →
      w'.nextReq = w.nextReq → w'.rx.internal.value = w.rx.internal.value →
      w'.rx.internal.calls = w.rx.internal.calls → Owed w' r := by
    intro w' hs hl hn hv hcs
    have hh := held_of_value (r := r) hv
    exact hw.quiet hs hl hn (fun h1 => by omega) fun h1 => by omega
  -- the decoder gives up its request
  have hdrop : ∀ {w' : World σ}, w'.stored r ≤ w.stored r → timesAnswered w'.log r = timesAnswered w.log r →
      w'.nextReq = w.nextReq → w'.rx.internal.value = {} → (w.held r = 1 → w.rx.internal.calls ≤ 1) →
      Owed w' r := by
    intro w' hs hl hn hv hcs
    have hh := held_of_empty (r := r) hv
    exact hw.quiet hs hl hn (fun h1 => by omega) fun h1 => .inr (hcs h1)
  have hcalls : w.error ≠ some .closed → w.rx.internal.calls ≤ 1 := fun he => by
    rcases hc with hc | hc
    · exact hc
    · exact absurd hc he
  cases h with
  | app | heap | timeout | tx | txClosed | nextId | remember | release | clearIds | detached | ready | failed
  | opened => exact hkeep le_rfl rfl rfl rfl rfl
  | clock s =>
    refine hkeep ?_ (by simp) (by simp) (by simp) (by simp)
    cases s <;> exact le_rfl
  | rx i hv => exact hkeep le_rfl rfl rfl hv.1 hv.2.2
  | note e he =>
    refine hkeep le_rfl ?_ rfl rfl rfl
    have hq : ∀ ev ∈ [e], ∀ r, ev.answeredAs r = false := by simpa using isNote_answeredAs he
    exact timesAnswered_quiet hq r
  | encode | deliver | deliverOnce | initial | connected =>
    exact hkeep le_rfl (timesAnswered_cons _ _ r) rfl rfl rfl
  | accept kind id p s hk ho hs =>
    have ht := Store.times_append (r := r) (Store.append_spec _ _ _ hs)
    simp only [Option.some.injEq] at ht
    have hst : World.stored { w with
        mainStore := s, nextReq := w.nextReq + 1, ids := w.ids.give w.nextReq,
        log := .accepted w.nextReq kind id p (w.idInUse id) :: w.log } r =
        w.stored r + if w.nextReq = r then 1 else 0 := by
      simp only [World.stored]
      omega
    exact hw.enter rfl hst (timesAnswered_cons _ _ r) (fun h1 => ⟨h1, le_rfl⟩) fun h1 => .inl h1
  | connecting p s hop hp hs =>
    have ht := Store.times_append (r := r) (Store.append_spec _ _ _ hs)
    simp only [Option.some.injEq] at ht
    refine hw.enter rfl (by simp only [World.stored]; omega) (timesAnswered_cons _ _ r) (fun h1 => ?_)
      fun _ => .inr (hcalls (by rw [ho hop]; simp))
    simp [World.held] at h1
  | enqueue kind s hk hs =>
    have ht := Store.times_append (r := r) (Store.append_spec _ _ _ hs)
    rw [if_neg (by simp)] at ht
    exact hkeep (by simp only [World.stored]; omega) rfl rfl rfl rfl
  | ack e s he hs =>
    have ht := Store.times_append (r := r) (Store.append_spec _ _ _ hs)
    rw [he.2, if_neg (by simp)] at ht
    have hst := stored_setStore w r w.rx.store s
    unfold World.rxStore at ht
    exact hkeep (by omega) (by simp) (by simp) (by simp) (by simp)
  | mark e hp hr =>
    obtain ⟨rest, hpend⟩ := Store.pending_of_peek hp
    have ht := Store.times_of_entries (r := r) (Store.markCurrent_spec _ _ _ hpend).1
    have hst := stored_setStore w r w.tx.store w.txStore.markCurrent
    unfold World.txStore at ht hst
    refine hkeep ?_ ?_ (by simp [World.emit]) (by simp [World.emit]) (by simp [World.emit])
    · change (w.setStore w.tx.store _).stored r ≤ _
      unfold World.txStore
      omega
    · change timesAnswered (_ :: (w.setStore w.tx.store _).log) r = _
      rw [World.setStore_log]
      exact timesAnswered_cons _ _ r
  | drop e hp hr =>
    obtain ⟨rest, hpend⟩ := Store.pending_of_peek hp
    have ht := Store.times_removed (r := r) (Store.dropCurrent_spec _ _ _ hpend)
    have hst := stored_setStore w r w.tx.store w.txStore.dropCurrent
    have ha := answers_times w r e.value
    unfold World.txStore at ht hst
    refine hw.leave e.value.req ?_ ?_ (by simp) (held_of_value (by simp)) (by simp)
    · change _ = (w.setStore w.tx.store _).stored r + _
      unfold World.txStore
      omega
    · rw [timesAnswered_append, timesAnswered_cons]
      simp only [Event.answeredAs, Bool.false_eq_true, if_false]
      omega
  | shift s e t hr hf hs =>
    obtain ⟨post, hrem⟩ := Store.shift_spec _ _ _ hs
    have ht := Store.times_removed (r := r) hrem
    have hst := stored_setStore w r s t
    have ha := answers_times w r e.value
    refine hw.leave e.value.req ?_ ?_ (by simp) (held_of_value (by simp)) (by simp)
    · change _ = (w.setStore s t).stored r + _
      omega
    · rw [timesAnswered_append]
      omega
  | pop k id e s hk hv hi hc' hs =>
    obtain ⟨pre, post, hrem, -⟩ := Store.popMarkedBy_spec _ _ _ _ _ hs
    have ht := Store.times_removed (r := r) hrem
    have hst := stored_setStore w r w.rx.store s
    have h0 := held_of_empty (r := r) hv
    unfold World.rxStore at ht
    obtain ⟨h1, h2, h3, h4, h5⟩ := hw
    -- the request moves from the store to the decoder
    generalize hw' : ((w.setStore w.rx.store s).setRx { w.rx.internal with value := e.value }).emit
      (.popped e.kind id e.value.req) = w'
    have hs' : w'.stored r = (w.setStore w.rx.store s).stored r := by rw [← hw']; rfl
    have hh' : w'.held r = if e.value.req = some r then 1 else 0 := by rw [← hw']; rfl
    have hl' : timesAnswered w'.log r = timesAnswered w.log r := by
      rw [← hw']
      change timesAnswered (_ :: (w.setStore w.rx.store s).log) r = _
      rw [World.setStore_log]
      exact timesAnswered_cons _ _ r
    have hn' : w'.nextReq = w.nextReq := by rw [← hw']; simp [World.emit, World.setRx]
    refine ⟨by omega, fun hr => ?_, by omega, fun h1' => by omega, by omega⟩
    have := h2 (by omega)
    omega
  | pubrec e s t hk hv hy hs ht =>
    obtain ⟨pre, post, hrem, -⟩ := Store.popMarkedBy_spec _ _ _ _ _ hs
    have h1 := Store.times_removed (r := r) hrem
    have h2 := Store.times_append (r := r) (Store.append_spec _ _ _ ht)
    have hst := stored_setStore w r w.rx.store t
    unfold World.rxStore at h1
    refine hdrop ?_ ?_ (by simp [World.setRx]) rfl fun h => ?_
    · change (w.setStore w.rx.store t).stored r ≤ _
      simp only at h2
      omega
    · have hq : ∀ ev ∈ [Event.finished w.rx.internal.header.type w.rx.internal.packetId,
          .popped .publish2 w.rx.internal.packetId e.value.req], ∀ r, ev.answeredAs r = false := by
        simp [Event.answeredAs]
      exact timesAnswered_quiet hq r
    · rw [held_of_empty hv] at h
      contradiction
  | pubrecLost hn he hk hy =>
    exact hdrop le_rfl (timesAnswered_cons _ _ r) rfl rfl fun _ => hcalls he
  | finish hy he ha => exact hdrop le_rfl (timesAnswered_cons _ _ r) rfl rfl fun _ => hcalls he
  | answer hcs hk ht hp =>
    have ha := answers_times w.decoded r w.rx.internal.value
    refine hw.call rfl ?_ rfl rfl rfl
    change timesAnswered (w.decoded.answers _ ++ (_ :: w.log)) r ≤ _
    rw [timesAnswered_append, timesAnswered_cons]
    simp only [Event.answeredAs, Bool.false_eq_true, if_false]
    unfold World.held
    omega
  | finalAnswer hcl he =>
    have ha := answers_times w.calling r w.rx.internal.value
    refine hw.call rfl ?_ rfl rfl rfl
    change timesAnswered (w.calling.answers _ ++ w.log) r ≤ _
    rw [timesAnswered_append]
    unfold World.held
    omega
  | connack v hv hu hcs =>
    have hl := timesAnswered_cons (.answered .onConnack v.req v.value true) w.log r
    change Owed (w.emit _) r
    simp only [Event.answeredAs, decide_eq_true_eq] at hl
    by_cases hvr : v.req = some r
    · -- the request is in no store
      rw [if_pos hvr] at hl
      obtain ⟨h1, h2, h3, h4, h5⟩ := hw
      obtain ⟨g1, g2, g3⟩ := hu r hvr
      refine ⟨h1, fun hr => ?_, .inr g2, fun hh => ?_, .inl ?_⟩
      · change w.nextReq ≤ r at hr
        omega
      · change timesAnswered (_ :: w.log) r ≤ w.rx.internal.calls
        have hheld : w.rx.internal.value.req = some r := by
          by_contra hn
          simp [World.held, World.emit, hn] at hh
        have := hcs (hvr.trans hheld.symm)
        omega
      · change timesAnswered (_ :: w.log) r ≤ 1
        omega
    · rw [if_neg hvr] at hl
      exact hw.quiet le_rfl hl rfl (fun h => ⟨h, le_rfl⟩) fun h => .inl h
  | sessionless hcs =>
    refine hkeep ?_ rfl rfl rfl rfl
    simp only [World.stored]
    have := (deleteSessionless_sublist w.mainStore.count 0 w.mainStore).countP_le (p := fun e => e.value.req = some r)
    simp only [Store.times]
    omega

theorem calledOnce_effect {w w' : World σ} (h : Effect env P w w') (hw : w.CalledOnce) : w'.CalledOnce := by
  unfold World.CalledOnce at *
  cases h with
  | clock | mark | drop | shift | ack => simpa [World.emit] using hw
  | pop => simpa [World.emit, World.setRx] using hw
  | rx i hv =>
    change i.calls ≤ 1 ∨ _
    rw [hv.2.2]
    exact hw
  | pubrec | pubrecLost | finish | connecting => exact .inl (Nat.zero_le 1)
  | answer hc =>
    refine .inl ?_
    change w.rx.internal.calls + 1 ≤ 1
    omega
  | finalAnswer hc he => exact .inr he
  | connected p hc he ho hn =>
    rcases hw with hw | hw
    · exact .inl hw
    · rw [he] at hw
      contradiction
  | initial he => exact .inl (hw.resolve_right he)
  | failed e os he =>
    rcases hw with hw | hw
    · exact .inl hw
    · exact .inr (by rw [he hw])
  | _ => exact hw

end LightMqtt
