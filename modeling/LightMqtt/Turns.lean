import LightMqtt.Run

/-!
# Runs of a client, turn by turn

A call of the encoder or of the decoder runs through a loop. Here each turn of
the two loops is a step of its own, so that a run shows the state before every
field that is encoded and before every part of a packet that is decoded.
-/

namespace LightMqtt

open Exec

/-! ### Turns of the encoder -/

section Turns
variable {σ ρ : Type} [Reentrant ρ] {env : EnvOf σ ρ}

/- What the loop notes about an encoder that wrote `count` bytes. -/
def txBufferNote (count : ℕ) : EncodeResult → Prog σ Unit
  | .wouldBlock => pure ()
  | .continue => modify fun w => w.setTx { w.tx.internal with offset := w.tx.internal.offset + count }
  | .error => do
    let b := (← get).tx.internal.buffer
    txBufferFail b.error b.osError
  | .finished => modify fun w => w.setTx { w.tx.internal with pos := w.tx.internal.pos + 1, offset := 0 }

/- A field of the entry `e` is encoded. -/
def txBufferField (env : EnvOf σ ρ) (e : Entry) (encoder : Encoder) (bufLen : ℕ) : Prog σ Unit := do
  let i := (← get).tx.internal
  emit (.encode e.kind e.value.packetId e.value.req i.pos)
  let (res, bytes) ← runEncoder env e.value i.offset bufLen encoder
  txBufferNote bytes.length res

/- A turn of the loop of `lmqtt_tx_buffer_encode` with `bufLen` bytes of room. -/
def txBufferTurn (env : EnvOf σ ρ) (bufLen : ℕ) : Prog σ Unit := do
  let w ← get
  if w.tx.closed then pure ()
  else match w.txStore.peek with
    | none => pure ()
    | some e =>
      match ← txBufferFinder e with
      | none => do let _ ← txBufferFinishEntry env e
      | some encoder => txBufferField env e encoder bufLen

/-! ### Steps -/

/-- A step: a call of the application or of the client, a turn of the encoder, a
turn of the decoder at the unread bytes `bs`, and the end of a call of the decoder. -/
inductive Step (σ : Type)
  | call (a : Act σ)
  | send (bufLen : ℕ)
  | read (bs : List Byte)
  | exit (bufLen bytesRead : ℕ)

def Step.run (env : EnvOf σ ρ) : Step σ → Prog σ Unit
  | call a => a.run env
  | send bufLen => txBufferTurn env bufLen
  | read bs => do let _ ← rxBufferDecodeTurn env bs
  | exit bufLen bytesRead => do let _ ← rxBufferExit bufLen bytesRead

/- The calls of the encoder and the decoder are taken apart. -/
def Act.isCall : Act σ → Bool
  | encode _ | decode _ => false
  | _ => true

def Step.Enabled (P : World σ → Prop) (w : World σ) : Step σ → Prop
  | call a => a.isCall = true ∧ a.Enabled P w
  | send _ => w.error = none
  | read bs => w.error = none ∧ w.rx.internal.error = none ∧ bs ≠ []
  | exit .. => w.error = none

/-- The states of a run of which every step meets the condition `C`. -/
inductive Stepped (env : EnvOf σ ρ) (C : World σ → Step σ → Prop) : World σ → Prop
  | start (buffers : ClientBuffers) (heap : Heap) (app : σ) (w : World σ)
    (h : lmqttClientInitialize env (clientCleared buffers heap app) = .ok () w) : Stepped env C w
  | step (w w' : World σ) (s : Step σ) (hw : Stepped env C w) (hc : C w s) (hs : s.Enabled (fun _ => True) w)
    (h : s.run env w = .ok () w') : Stepped env C w'

theorem Stepped.mono {C C' : World σ → Step σ → Prop} (hC : ∀ w s, C w s → C' w s) {w : World σ}
    (h : Stepped env C w) : Stepped env C' w := by
  induction h with
  | start buffers heap app w h => exact .start buffers heap app w h
  | step w w' s hw hc hs h ih => exact .step w w' s ih (hC w s hc) hs h

/-- `w'` is reached from `w` by steps that meet the condition `C`. -/
inductive Steps (env : EnvOf σ ρ) (C : World σ → Step σ → Prop) (w : World σ) : World σ → Prop
  | refl : Steps env C w w
  | step (v v' : World σ) (s : Step σ) (hv : Steps env C w v) (hc : C v s) (hs : s.Enabled (fun _ => True) v)
    (h : s.run env v = .ok () v') : Steps env C w v'

theorem Steps.mono {C C' : World σ → Step σ → Prop} (hC : ∀ w s, C w s → C' w s) {w w' : World σ} (h : Steps env C w w') :
    Steps env C' w w' := by
  induction h with
  | refl => exact .refl
  | step v v' s hv hc hs h ih => exact .step v v' s ih (hC v s hc) hs h

theorem Steps.stepped {C : World σ → Step σ → Prop} {w w' : World σ} (h : Steps env C w w')
    (hw : Stepped env (fun _ _ => True) w) : Stepped env (fun _ _ => True) w' := by
  induction h with
  | refl => exact hw
  | step v v' s hv hc hs h ih => exact .step v v' s ih trivial hs h

end Turns

variable {σ : Type} {env : Env σ} {P : World σ → Prop}

/-! ### Every run is a run of steps -/

section Loops
variable {w w' : World σ}

/- A turn of the encoder at an entry. -/
theorem txBufferTurn_entry {e : Entry} (bufLen : ℕ) (hc : w.tx.closed = false) (hp : w.txStore.peek = some e) :
    txBufferTurn env bufLen w = (do
      match ← txBufferFinder e with
      | none => do let _ ← txBufferFinishEntry env e
      | some encoder => txBufferField env e encoder bufLen) w := by
  rw [txBufferTurn, run_get_bind, if_neg (by simp [hc])]
  simp only [hp]

theorem stepped_send (hw : Stepped env (fun _ _ => True) w) (he : w.error = none) (bufLen : ℕ)
    (h : txBufferTurn env bufLen w = .ok () w') : Stepped env (fun _ _ => True) w' :=
  .step w w' (.send bufLen) hw trivial he h

theorem stepped_read (hw : Stepped env (fun _ _ => True) w) (he : w.error = none) (hr : w.rx.internal.error = none)
    {bs : List Byte} (hb : bs ≠ []) {turn : Turn} (h : rxBufferDecodeTurn env bs w = .ok turn w') :
    Stepped env (fun _ _ => True) w' := by
  refine .step w w' (.read bs) hw trivial ⟨he, hr, hb⟩ ?_
  rw [Step.run, run_bind_ok h]
  rfl

theorem stepped_exit (hw : Stepped env (fun _ _ => True) w) (he : w.error = none) {bufLen bytesRead : ℕ}
    {r : IoResult × ℕ} (h : rxBufferExit bufLen bytesRead w = .ok r w') : Stepped env (fun _ _ => True) w' := by
  refine .step w w' (.exit bufLen bytesRead) hw trivial he ?_
  rw [Step.run, run_bind_ok h]
  rfl

end Loops

/-! ### What a step does -/

/- A turn of the encoder, as a part of its loop. -/
theorem txBufferTurn_spec (w : World σ) (bufLen : ℕ) (hw : Sound w) :
    Wp (txBufferTurn env bufLen) w (fun _ w' => Effects env P w w' ∧ Kept w w') fun _ w' => Effects env P w w' := by
  simp only [txBufferTurn, wp_bind, wp_get]
  refine wp_if (fun _ => ⟨.refl, .refl w⟩) fun _ => ?_
  cases hp : w.txStore.peek with
  | none => exact ⟨.refl, .refl w⟩
  | some e =>
    refine (wp_bind ..).mpr ((txBufferFinder_within w e).mono (fun found t ht => ?_) fun _ t ht => ht.effects env P)
    have hte := ht.effects env P
    have htp : t.txStore.peek = some e := ht.peek.trans hp
    cases found with
    | none =>
      refine (wp_bind ..).mpr ((txBufferFinishEntry_spec env P t e (hte.sound hw) htp).mono (fun ok u hu => ?_)
        fun _ u hu => hte.trans hu)
      exact ⟨hte.trans hu.1, ht.kept.trans hu.2.1⟩
    | some encoder =>
      simp only [txBufferField, wp_bind, wp_get, wp_emit]
      have htv := hte.then (.encode t e t.tx.internal.pos htp)
      have hkv := ht.kept.trans (Framed.emit t (.encode e.kind e.value.packetId e.value.req t.tx.internal.pos)).toKept
      refine (runEncoder_within env _ e.value _ bufLen encoder).mono (fun r u hu => ?_) fun _ u hu =>
        htv.trans (hu.effects env P)
      have hwu := htv.trans (hu.effects env P)
      have hku := hkv.trans hu.kept
      obtain ⟨res, bytes⟩ := r
      cases res with
      | wouldBlock => exact ⟨hwu, hku⟩
      | _ => exact ⟨hwu.then (.tx u _), hku.trans (.tx u _)⟩

/-- Every step is a sequence of changes and keeps the client live. -/
theorem step_spec (w : World σ) (s : Step σ) (hw : Live w) (hs : s.Enabled P w) :
    Wp (s.run env) w (fun _ w' => Acted env P w w') fun _ w' => Changes env P w w' := by
  cases s with
  | call a => exact act_spec w a hw hs.2
  | send bufLen =>
    refine (txBufferTurn_spec w bufLen hw.sound).mono (fun _ w' h => ?_) fun _ _ h => h.changes
    exact ⟨h.1.changes, hw.kept h.1 h.2⟩
  | read bs =>
    obtain ⟨hwe, he, -⟩ := hs
    have hdec := hw.decoding hwe
    refine (wp_bind ..).mpr ((rxBufferDecodeTurn_spec env P w bs hw.sound hdec.shape he hwe hdec.requests).mono
      (fun _ w' h => ?_) fun _ _ h => h.changes)
    exact ⟨h.effects.changes, hw.steady (h.effects.sound hw.sound) (fun _ => h.shape) h.steady⟩
  | exit bufLen bytesRead =>
    have hn : w.error ≠ some .closed := by
      rw [show w.error = none from hs]
      intro h
      contradiction
    refine (wp_bind ..).mpr ((rxBufferExit_spec env P w w bufLen bytesRead .refl (.refl w) (hw.shape hn)).mono
      (fun _ w' h => ?_) fun _ _ h => h.changes)
    exact ⟨h.effects.changes, hw.steady (h.effects.sound hw.sound) (fun _ => h.shape) h.steady⟩

theorem stepped_effects {C : World σ → Step σ → Prop} (w : World σ) (h : Stepped env C w) : Live w ∧
    ∃ buffers heap app, Changes env (fun _ => True) (clientCleared buffers heap app) w := by
  induction h with
  | start buffers heap app w h =>
    obtain ⟨hc, hl⟩ := start_spec (P := fun _ => True) h
    exact ⟨hl, buffers, heap, app, hc⟩
  | step w w' s hw hc hs h ih =>
    obtain ⟨hl, buffers, heap, app, he⟩ := ih
    obtain ⟨he', hl'⟩ := wp_ok (step_spec w s hl hs) h
    exact ⟨hl', buffers, heap, app, he.trans he'⟩

theorem Stepped.live {C : World σ → Step σ → Prop} {w : World σ} (h : Stepped env C w) : Live w :=
  (stepped_effects w h).1

/-! ### Calls are made of steps -/

section Calls
variable {w w' : World σ}

/- The entry that the encoder stands at is still the first that is pending. -/
theorem TxScratch.standing {e : Entry} (h : TxScratch w w') (hc : w.tx.closed = false) (hp : w.txStore.peek = some e)
    (he : w.error = none) : w'.tx.closed = false ∧ w'.txStore.peek = some e ∧ w'.error = none := by
  refine ⟨?_, h.peek.trans hp, ?_⟩
  · rw [h.same]
    exact hc
  · rw [h.same]
    exact he

theorem txBufferEncodeLoop_stepped (fuel : ℕ) (cur : Option Entry) (bufLen : ℕ) (out : List Byte) (r : IoResult × List Byte)
    (w : World σ) (hw : Stepped env (fun _ _ => True) w) (he : w.error = none)
    (hcur : ∀ e, cur = some e → w.tx.closed = false ∧ w.txStore.peek = some e)
    (h : txBufferEncodeLoop env fuel cur bufLen out w = .ok r w') : Stepped env (fun _ _ => True) w' := by
  induction fuel generalizing cur bufLen out w with
  | zero => contradiction
  | succ fuel ih =>
    cases cur with
    | none =>
      rw [txBufferEncodeLoop, run_get_bind] at h
      have hexit : ∀ {v}, txBufferExit out w = .ok r v → v = w := by
        intro v hv
        rw [txBufferExit, run_get_bind] at hv
        exact (ok_pure hv).2.symm
      rcases ok_ite h with ⟨-, h⟩ | ⟨hc, h⟩
      · rw [hexit h]
        exact hw
      · cases hp : w.txStore.peek with
        | none =>
          simp only [hp] at h
          rw [hexit h]
          exact hw
        | some e =>
          simp only [hp] at h
          refine ih (some e) bufLen out w hw he (fun e' he' => ?_) h
          cases he'
          exact ⟨by simpa using hc, hp⟩
    | some e =>
      obtain ⟨hc, hp⟩ := hcur e rfl
      rw [txBufferEncodeLoop] at h
      obtain ⟨found, t, hfind, h⟩ := ok_bind h
      have hturn : txBufferTurn env bufLen w = _ := txBufferTurn_entry bufLen hc hp
      rw [run_bind_ok hfind] at hturn
      have hts := wp_ok (txBufferFinder_within w e) hfind
      obtain ⟨htc, htp, hte⟩ := hts.standing hc hp he
      cases found with
      | none =>
        obtain ⟨ok, u, hfin, h⟩ := ok_bind h
        have hu : Stepped env (fun _ _ => True) u := by
          apply stepped_send hw he bufLen
          rw [hturn]
          simp only [run_bind_ok hfin]
          rfl
        have hsound := (hts.effects env (fun _ => True)).sound hw.live.sound
        have hk := (wp_ok (txBufferFinishEntry_spec env (fun _ => True) t e hsound htp) hfin).2.1
        rcases ok_ite h with ⟨-, h⟩ | ⟨-, h⟩
        · exact ih none bufLen out u hu (hk.error.trans hte) (by simp) h
        · rw [← (ok_pure h).2]
          exact hu
      | some encoder =>
        have h := ok_get_bind h
        obtain ⟨⟨⟩, u, hu, h⟩ := ok_bind h
        cases hu
        obtain ⟨⟨res, bytes⟩, v, hrun, h⟩ := ok_bind h
        have hv := wp_ok (runEncoder_within env _ e.value _ bufLen encoder) hrun
        obtain ⟨hvc, hvp, hve⟩ := hv.standing htc ((congrArg Store.peek (World.store_emit t t.tx.store _)).trans htp) hte
        -- the rest of the turn
        have hfield : ∀ {x : World σ}, txBufferNote bytes.length res v = .ok () x → Stepped env (fun _ _ => True) x := by
          intro x hx
          apply stepped_send hw he bufLen
          rw [hturn]
          simp only [txBufferField, run_get_bind]
          rw [run_bind_ok (show emit _ t = .ok () _ from rfl), run_bind_ok hrun]
          exact hx
        cases res with
        | wouldBlock =>
          rw [← (ok_pure h).2]
          exact hfield rfl
        | «continue» =>
          have h := ok_modify_bind h
          rw [← (ok_pure h).2]
          exact hfield rfl
        | error =>
          have h := ok_get_bind h
          have h := ok_modify_bind h
          rw [← (ok_pure h).2]
          exact hfield rfl
        | finished =>
          have h := ok_modify_bind h
          refine ih (some e) _ _ _ (hfield rfl) hve (fun e' he' => ?_) h
          cases he'
          exact ⟨hvc, (congrArg Store.peek (World.store_setTx v v.tx.store _)).trans hvp⟩

theorem rxBufferDecodeLoop_stepped (bufLen fuel : ℕ) (bs : List Byte) (bytesRead : ℕ) (r : IoResult × ℕ) (w : World σ)
    (hw : Stepped env (fun _ _ => True) w) (he : w.error = none) (hr : w.rx.internal.error = none)
    (h : rxBufferDecodeLoop env bufLen fuel bs bytesRead w = .ok r w') : Stepped env (fun _ _ => True) w' := by
  induction fuel generalizing bs bytesRead w with
  | zero =>
    cases bs with
    | nil => exact stepped_exit hw he h
    | cons b bs => contradiction
  | succ fuel ih =>
    cases bs with
    | nil => exact stepped_exit hw he h
    | cons b bs =>
      rw [rxBufferDecodeLoop] at h
      · obtain ⟨turn, t, hturn, h⟩ := ok_bind h
        have ht := stepped_read hw he hr (List.cons_ne_nil b bs) hturn
        have hdec := hw.live.decoding he
        have hspec := wp_ok (rxBufferDecodeTurn_spec env (fun _ => True) w _ hdec.sound hdec.shape hr he hdec.requests) hturn
        have hte := hspec.steady.error.trans he
        cases turn with
        | read count => exact ih _ _ t ht hte (hspec.calm (by simp)) h
        | blocked => exact stepped_exit ht hte h
        | failed count =>
          rw [← (ok_pure h).2]
          exact ht
      · simp

/-- Every state of a run is a state of a run of steps. -/
theorem reached_stepped (w : World σ) (h : Reached env (fun _ => True) w) : Stepped env (fun _ _ => True) w := by
  induction h with
  | start buffers heap app w h => exact .start buffers heap app w h
  | act w w' a hw ha h ih =>
    cases a with
    | decode bs =>
      have he : w.error = none := ha
      obtain ⟨r, u, hr, hu⟩ := ok_bind h
      rw [← (ok_pure hu).2]
      rw [lmqttRxBufferDecode, run_get_bind] at hr
      rcases ok_ite hr with ⟨-, hr⟩ | ⟨hn, hr⟩
      · rw [← (ok_pure hr).2]
        exact ih
      · exact rxBufferDecodeLoop_stepped _ _ bs 0 r w ih he (by simpa using hn) hr
    | encode bufLen =>
      have he : w.error = none := ha
      obtain ⟨r, u, hr, hu⟩ := ok_bind h
      rw [← (ok_pure hu).2]
      rw [lmqttTxBufferEncode, run_get_bind] at hr
      rcases ok_ite hr with ⟨-, hr⟩ | ⟨-, hr⟩
      · rw [← (ok_pure hr).2]
        exact ih
      · exact txBufferEncodeLoop_stepped _ none bufLen [] r w ih he (by simp) hr
    | _ => exact .step w w' (.call _) ih trivial ⟨rfl, ha⟩ h

end Calls

/-! ### Runs on given steps -/

def Step.ready (w : World σ) : Step σ → Bool
  | call a => a.isCall && a.ready (fun _ => true) w
  | send _ => w.error = none
  | read bs => w.error = none && w.rx.internal.error = none && bs ≠ []
  | exit .. => w.error = none

theorem Step.ready_enabled (w : World σ) (s : Step σ) (h : s.ready w = true) : s.Enabled (fun _ => True) w := by
  cases s with
  | call a =>
    simp only [Step.ready, Bool.and_eq_true] at h
    exact ⟨h.1, LightMqtt.ready_enabled (fun _ _ => trivial) w a h.2⟩
  | send bufLen => simpa [Step.ready, Step.Enabled] using h
  | read bs => simpa [Step.ready, Step.Enabled, and_assoc] using h
  | exit bufLen bytesRead => simpa [Step.ready, Step.Enabled] using h

/- The state behind some steps, if each of them is possible, meets the condition
   `c` and returns. -/
def runSteps {ρ : Type} [Reentrant ρ] (env : EnvOf σ ρ) (c : World σ → Step σ → Bool) :
    List (Step σ) → World σ → Option (World σ)
  | [], w => some w
  | s :: ss, w =>
    if s.ready w && c w s then
      match s.run env w with
      | .ok _ w' => runSteps env c ss w'
      | .error _ _ => none
    else none

/- The same from the start of a client. -/
def runClientSteps {ρ : Type} [Reentrant ρ] (env : EnvOf σ ρ) (c : World σ → Step σ →
    Bool) (buffers : ClientBuffers) (heap : Heap) (app : σ)
    (ss : List (Step σ)) : Option (World σ) :=
  match lmqttClientInitialize env (clientCleared buffers heap app) with
  | .ok _ w => runSteps env c ss w
  | .error _ _ => none

section Steps
variable {ρ : Type} [Reentrant ρ] {env : EnvOf σ ρ} {C : World σ → Step σ → Prop} {c : World σ → Step σ →
  Bool} (hc : ∀ w s, c w s = true → C w s)
include hc

theorem steps_runSteps (ss : List (Step σ)) (w v w' : World σ) (hv : Steps env C w v)
    (h : runSteps env c ss v = some w') : Steps env C w w' := by
  induction ss generalizing v with
  | nil =>
    cases h
    exact hv
  | cons s ss ih =>
    simp only [runSteps] at h
    split at h
    · rename_i hr
      rw [Bool.and_eq_true] at hr
      split at h
      · rename_i u hu
        exact ih u (.step v u s hv (hc v s hr.2) (s.ready_enabled v hr.1) hu) h
      · contradiction
    · contradiction

theorem stepped_get (buffers : ClientBuffers) (heap : Heap) (app : σ) (ss : List (Step σ))
    (h : (runClientSteps env c buffers heap app ss).isSome = true) :
    Stepped env C ((runClientSteps env c buffers heap app ss).get h) := by
  obtain ⟨w, hw⟩ := Option.isSome_iff_exists.mp h
  simp only [hw, Option.get_some]
  unfold runClientSteps at hw
  split at hw
  · rename_i v hv
    have hsteps := steps_runSteps hc ss v v w .refl hw
    clear hw
    induction hsteps with
    | refl => exact .start buffers heap app v hv
    | step u u' s _ hcu hs h ih => exact .step u u' s ih hcu hs h
  · contradiction

end Steps

end LightMqtt
