import LightMqtt.Requests
import LightMqtt.Reentry

/-!
# A request is answered once

The decoder calls a callback once for each packet, but a callback that fails
leaves its request with the decoder, and `lmqtt_client_finalize` calls the
callback of what the decoder holds.
-/

namespace LightMqtt

open Exec

variable {σ : Type} {env : Env σ}

/-! ### The end of a client -/

/- Where a client is finalized, only `lmqtt_client_finalize` changes the decoder. -/
theorem act_final (w : World σ) (a : Act σ) (hw : Live w) (ha : a.Enabled (fun _ => True) w) (hn : a ≠ .finalize) :
    Wp (a.run env) w (fun _ w' => w'.error = some .closed → w'.rx.internal = w.rx.internal)
      fun _ _ => True := by
  have hcalled : ∀ {α : Type} (p : Prog σ α),
      Wp p w (fun _ w' => CalledBy env (fun _ => True) w w') (fun _ _ => False) →
      Wp p w (fun _ w' => w'.error = some .closed → w'.rx.internal = w.rx.internal) fun _ _ => True :=
    fun p h => h.mono (fun _ _ h _ => h.1.framed.rx) fun _ _ _ => trivial
  have happ : ∀ {α : Type} (p : Prog σ α),
      Wp p w (fun _ w' => ∃ a, w' = { w with app := a }) (fun _ _ => False) →
      Wp p w (fun _ w' => w'.error = some .closed → w'.rx.internal = w.rx.internal) fun _ _ => True :=
    fun p h => h.mono (fun _ _ ⟨_, h⟩ _ => by rw [h]) fun _ _ _ => trivial
  have hidle : ∀ {w' : World σ}, w'.error = none → w'.error = some .closed →
      w'.rx.internal = w.rx.internal := by
    intro w' h h'
    rw [h] at h'
    contradiction
  cases a with
  | request q => exact (wp_bind ..).mpr (hcalled _ (doRequest_called env _ w q))
  | pingreq =>
    simp only [Act.run, lmqttClientPingreq, wp_bind, wp_get]
    exact wp_if (fun _ => hcalled _ (clientDoPingreq_called env _ w)) fun _ _ => rfl
  | connect p =>
    refine (wp_bind ..).mpr ((lmqttClientConnect_spec env (fun _ => True) w p fun _ => trivial).mono
      (fun _ w' h => ?_) fun _ _ h => h.elim)
    rcases h.2 with rfl | ⟨-, he, -⟩
    · exact fun _ => rfl
    · exact hidle he
  | reset =>
    refine (lmqttClientReset_spec env (fun _ => True) w hw.sound).mono (fun _ w' h => ?_) fun _ _ _ => trivial
    rcases h.2 with rfl | ⟨-, hd⟩
    · exact fun _ => rfl
    · exact hidle hd.error
  | finalize => exact absurd rfl hn
  | setDefaultTimeout secs => exact fun _ => rfl
  | getTimeout =>
    simp only [Act.run, lmqttClientGetTimeout, wp_bind]
    exact happ _ (currentTimeout_spec w)
  | currentTimeout => exact (wp_bind ..).mpr (happ _ (currentTimeout_spec w))
  | touch r =>
    refine (storeTouch_effects env (fun _ => True) w r).mono (fun _ w' h _ => ?_) fun _ _ _ => trivial
    rw [h.2]
    simp
  | transfer app readBuf writeBuf => exact fun _ => rfl
  | decode bs =>
    refine (wp_bind ..).mpr ((lmqttRxBufferDecode_spec env (fun _ => True) w bs (hw.decoding ha)).mono
      (fun _ w' h => ?_) fun _ _ _ => trivial)
    exact hidle (h.steady.error.trans ha)
  | encode bufLen =>
    refine (wp_bind ..).mpr ((lmqttTxBufferEncode_spec env (fun _ => True) w bufLen hw.sound).mono
      (fun _ w' h => ?_) fun _ _ _ => trivial)
    exact hidle (h.kept.error.trans ha)
  | fail e osError =>
    refine (clientSetStateFailed_spec env w e osError).mono (fun _ w' h => ?_) fun _ _ h => h.elim
    rw [h]
    exact fun _ => rfl
  | eof =>
    have he : w.error ≠ some .closed := by rw [show w.error = none from ha]; simp
    exact (clientSetStateInitial_spec env (fun _ => True) w hw.sound he).mono (fun _ w' h => hidle h.2.error)
      fun _ _ _ => trivial

/-! ### The law -/

/-- `lmqtt_client_finalize` finds no request with the decoder, or the client was
not finalized before and no callback of the decoder has failed. -/
def Act.AnswersOnce (w : World σ) : Act σ → Prop
  | .finalize => w.rx.internal.value.req = none ∨
      w.error ≠ some .closed ∧ ∀ e, w.rx.internal.error = some e → e.ofCallback = false
  | _ => True

/- The decoder has called the callback of its request at most once. -/
def Uncalled (w : World σ) : Prop := w.rx.internal.calls ≤ 1 ∨ w.rx.internal.value.req = none

theorem act_uncalled (w w' : World σ) (a : Act σ) (hw : Live w) (hc : a.AnswersOnce w)
    (ha : a.Enabled (fun _ => True) w) (h : a.run env w = .ok () w') (hu : Uncalled w) : Uncalled w' := by
  by_cases hfin : a = .finalize
  · subst hfin
    obtain ⟨-, -, -, hrx⟩ := wp_ok (lmqttClientFinalize_spec env (fun _ => True) w hw.sound) h
    unfold Uncalled
    rw [hrx]
    rcases hc with hc | ⟨he, hcb⟩
    · exact .inr hc
    · -- no callback has failed, so none was called
      have hz : w.rx.internal.calls = 0 := by
        rcases (hw.shape he).uncalled with hz | ⟨e, hr, ho⟩
        · exact hz
        · rw [hcb e hr] at ho
          contradiction
      exact .inl (by simp only [hz]; omega)
  · rcases (wp_ok (act_spec w a hw ha) h).2.sound.calledOnce with hle | he
    · exact .inl hle
    · unfold Uncalled
      rwa [wp_ok (act_final w a hw ha hfin) h he]

theorem reached_answered {w : World σ} (h : ReachedBy env Act.AnswersOnce w) (r : ℕ) : timesAnswered w.log r ≤ 1 := by
  have hinv : Uncalled w := by
    induction h with
    | start buffers heap app w h =>
      have hs := clientCleared_sound buffers heap app
      have hd := (wp_ok (clientSetStateInitial_spec env (fun _ => True) _ hs (by simp [clientCleared])) h).2
      refine .inl ?_
      rw [hd.rx]
      exact Nat.zero_le 1
    | act w w' a hw hc ha h ih => exact act_uncalled w w' a (reached_effects w hw.reached).1 hc ha h ih
  obtain ⟨-, -, -, hheld, hans⟩ := (reached_effects w h.reached).1.sound.owed r
  rcases hans with hans | hh
  · exact hans
  · have hle := hheld hh
    rcases hinv with hc | hc
    · omega
    · simp [World.held, hc] at hh

/-- The callback of a request is called at most once in every run in which the
last call of the decoder's callback is the first one, and no callback connects, resets or
finalizes the client. -/
theorem answered_once {ρ : Type} [Reentrant ρ] {env : EnvOf σ ρ} (henv : env.OnlyRequests) (w : World σ)
    (h : ReachedBy env Act.AnswersOnce w) (r : ℕ) : timesAnswered w.log r ≤ 1 :=
  reached_answered (h.requests henv) r

/-! ### Runs -/

/- A subscribe whose callback returns 0: the client fails, and is finalized. -/
def refusingEnv : Env Unit := { memoryEnv with onSubscribe := some fun a _ _ => ⟨a, false, []⟩ }

def refusedActs : List (Act Unit) :=
  connectKept ++ [.request (.subscribe 0), .encode 64, .decode [0x90, 3, 0, 0, 0], .fail .callbackSuback 0,
    .finalize]

theorem refusedRun_isSome : (runClient refusingEnv anyConnect ⟨8, 64, 64, 4⟩ smallHeap () refusedActs).isSome =
    true := by decide +kernel

/- A subscribe whose callback finalizes the client. -/
def quittingEnv : EnvOf Unit Reentry := { memoryEnvOf Reentry with
  onSubscribe := some fun a _ ok => ⟨a, true, if ok then [.finalize] else []⟩ }

def quittingActs : List (Act Unit) :=
  connectKept ++ [.request (.subscribe 0), .encode 64, .decode [0x90, 3, 0, 0, 0]]

theorem quittingRun_isSome : (runClient quittingEnv anyConnect ⟨8, 64, 64, 4⟩ smallHeap () quittingActs).isSome = true := by
  decide +kernel

/-- The callback is called by the decoder, and once more at the end, which may come
inside the first call. -/
theorem answered_twice :
    (∃ (w : World Unit) (r : ℕ), Reached refusingEnv (fun _ => True) w ∧ w.Accepted r ∧ timesAnswered w.log r = 2) ∧
      ∃ (w : World Unit) (r : ℕ), Reached quittingEnv (fun _ => True) w ∧ w.Accepted r ∧ timesAnswered w.log r = 2 :=
  ⟨⟨_, 1, reached_get anyConnect_true _ _ _ _ refusedRun_isSome, by decide +kernel⟩,
    _, 1, reached_get anyConnect_true _ _ _ _ quittingRun_isSome, by decide +kernel⟩

/- The same with a condition that can be evaluated. -/
def Act.answersOnce (w : World σ) : Act σ → Bool
  | .finalize => w.rx.internal.value.req.isNone ||
      (w.error ≠ some .closed && w.rx.internal.error.all fun e => !e.ofCallback)
  | _ => true

theorem answersOnce_iff (w : World σ) (a : Act σ) (h : a.answersOnce w = true) : a.AnswersOnce w := by
  cases a with
  | finalize =>
    simp only [Act.answersOnce, Bool.or_eq_true, Option.isNone_iff_eq_none, Bool.and_eq_true, decide_eq_true_eq] at h
    rcases h with h | ⟨h, h'⟩
    · exact .inl h
    · refine .inr ⟨h, fun e he => ?_⟩
      simpa [he] using h'
  | _ => trivial

theorem answeredRun_isSome : (runClientBy memoryEnv Act.answersOnce ⟨8, 64, 64, 4⟩ smallHeap ()
    (heldActs ++ [.finalize])).isSome = true := by decide +kernel

/- The decoder holds the request when the client is finalized. -/
theorem answered_once_run : ∃ w : World Unit, w.rx.internal.value.req = some 1 ∧ w.Answered 1 ∧
    timesAnswered w.log 1 ≤ 1 := by
  obtain ⟨w, hw, hr, ha⟩ : ∃ w : World Unit, ReachedBy memoryEnv Act.AnswersOnce w ∧
      w.rx.internal.value.req = some 1 ∧ w.Answered 1 :=
    ⟨_, reachedBy_get answersOnce_iff _ _ _ _ answeredRun_isSome, by decide +kernel⟩
  exact ⟨w, hr, ha, answered_once memoryEnv.onlyRequests w hw 1⟩

end LightMqtt
