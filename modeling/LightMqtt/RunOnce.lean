import LightMqtt.Transfer

/-!
# What `lmqtt_client_run_once` tells its caller

The flags of the result say what the caller has to wait for. They come from the
last pass of the loop: one transfer of the output and one of the input.
-/

namespace LightMqtt

open Exec

variable {σ : Type} {env : Env σ} {P : World σ → Prop}

/-! ### The result (`client.h`) -/

/- `LMQTT_IS_ERROR`, `LMQTT_IS_EOF` and the like -/
def isError (res : ℕ) : Bool := res &&& resError ≠ 0
def isEof (res : ℕ) : Bool := res &&& resEof ≠ 0
def wouldBlockConnRd (res : ℕ) : Bool := res &&& (resEof ||| resWouldBlockConnRd) = resWouldBlockConnRd
def wouldBlockDataRd (res : ℕ) : Bool := res &&& resWouldBlockDataRd ≠ 0
def wouldBlockDataWr (res : ℕ) : Bool := res &&& resWouldBlockDataWr ≠ 0

theorem errorResult_isError {w : World σ} (h : w.error.isSome = true) : isError (errorResult w) = true := by
  obtain ⟨e, he⟩ := Option.isSome_iff_exists.mp h
  unfold errorResult
  rw [he]
  cases e <;> decide

/- The flags a pass may have set: those of the output, those of the input, and
   that the store takes more requests. -/
def passResult (output input : ℕ) (queueable : Bool) : ℕ :=
  if queueable then (output ||| input) ||| resQueueable else output ||| input

/-! ### One pass -/

/-- A transfer that neither ends the stream nor fails, by what it is blocked by. -/
inductive PassStep (env : Env σ) (d : Direction) (connVal dataVal : ℕ) (blkStr : World σ → Option StrRef)
    (w : World σ) : ℕ → Option StrRef → World σ → Prop
  | conn (v) (h : TransferEnd env d w .blockConn v) : PassStep env d connVal dataVal blkStr w connVal none v
  | data (v s) (h : TransferEnd env d w .blockData v) (hs : blkStr v = some s) :
    PassStep env d connVal dataVal blkStr w dataVal (some s) v
  | silent (v) (h : TransferEnd env d w .blockData v) (hs : blkStr v = none) :
    PassStep env d connVal dataVal blkStr w 0 none v

theorem transferEnd_fine {w v : World σ} {d : Direction} {status : IoStatus} (hw : Reached env P w)
    (h : clientBufferTransfer env d w = .ok status v) :
    (status = .error ∧ v.error.isSome = true) ∨ Fine env P w ∧ TransferEnd env d w status v := by
  cases he : w.error with
  | none => exact .inr ⟨⟨hw, he⟩, clientBufferTransfer_ok ⟨hw, he⟩ h⟩
  | some e =>
    left
    unfold clientBufferTransfer at h
    rw [run_get_bind, he] at h
    obtain ⟨rfl, rfl⟩ := ok_pure h
    exact ⟨rfl, by rw [he]; rfl⟩

theorem clientProcessBuffer_ok {w v : World σ} {d : Direction} {connVal dataVal rv res : ℕ} {go : Bool}
    {blkStr : World σ → Option StrRef} {str : Option StrRef} (hw : Reached env P w)
    (h : clientProcessBuffer env (clientBufferTransfer env d) connVal dataVal blkStr rv w =
      .ok (go, res, str) v) :
    (go = false ∧ (res = resEof ||| connVal ∨ isError res = true)) ∨
      go = true ∧ Fine env P w ∧ ∃ flags, res = rv ||| flags ∧
        PassStep env d connVal dataVal blkStr w flags str v := by
  obtain ⟨status, u, hs, h⟩ := ok_bind h
  have hend := transferEnd_fine hw hs
  cases status with
  | ready =>
    obtain ⟨he, -⟩ := ok_pure h
    cases he
    exact .inl ⟨rfl, .inl rfl⟩
  | error =>
    have h : (assert env u.error.isSome >>= fun _ => do
      pure (false, errorResult (← get), none) : Prog σ (Bool × ℕ × Option StrRef)) u = .ok (go, res, str) v := h
    obtain ⟨_, t, ht, hp⟩ := ok_bind h
    have hsame : t = u := by
      rw [assert] at ht
      rcases ok_ite ht with ⟨-, ht⟩ | ⟨-, ht⟩
      · exact (ok_pure ht).2.symm
      · cases ht
    subst hsame
    have hp := ok_get_bind hp
    obtain ⟨he, -⟩ := ok_pure hp
    cases he
    have hsome : t.error.isSome = true := by
      rcases hend with ⟨-, he⟩ | ⟨-, he⟩
      · exact he
      · cases he with
        | failed _ _ _ he => exact he
        | blocked _ _ _ _ _ _ hstatus => exact absurd hstatus.symm (d.status_blocks _).1
    exact .inl ⟨rfl, .inr (errorResult_isError hsome)⟩
  | blockConn =>
    obtain ⟨he, rfl⟩ := ok_pure h
    cases he
    obtain ⟨hf, hend⟩ := hend.resolve_left (by simp)
    exact .inr ⟨rfl, hf, connVal, rfl, .conn u hend⟩
  | blockData =>
    have h := ok_get_bind h
    obtain ⟨he, rfl⟩ := ok_pure h
    obtain ⟨hf, hend⟩ := hend.resolve_left (by simp)
    cases he
    cases hb : blkStr u with
    | none => exact .inr ⟨rfl, hf, 0, by simp, .silent u hend hb⟩
    | some s => exact .inr ⟨rfl, hf, dataVal, by simp, .data u s hend hb⟩

/-! ### What a pass leaves alone -/

theorem setBuf_other (w : World σ) {d e : Direction} (hn : e ≠ d) (bs : List Byte) :
    (w.setBuf d bs).buf e = w.buf e := by
  cases d <;> cases e <;> first | rfl | exact absurd rfl hn

/- The sizes of the buffers, and the bytes of those that are not `d`. -/
structure OtherBuffers (d : Direction) (w w' : World σ) : Prop where
  buf : ∀ e, e ≠ d → w'.buf e = w.buf e
  capacity : ∀ e, w'.bufCapacity e = w.bufCapacity e

theorem OtherBuffers.set {d : Direction} {w u x : World σ} (h : OtherBuffers d w u) (hs : SameBuffers u x)
    (bs : List Byte) : OtherBuffers d w (x.setBuf d bs) :=
  ⟨fun e he => by rw [setBuf_other x he, hs.buf, h.buf e he], fun e => by
    rw [setBuf_capacity, hs.capacity, h.capacity]⟩

/- A transfer touches only its own buffer. -/
theorem bufferTransferLoop_other {d : Direction} (fuel : ℕ) {input output input' output' : Transfer}
    {w v : World σ} (hw : Fine env P w)
    (h : bufferTransferLoop env d fuel input output w = .ok (some (input', output')) v) : OtherBuffers d w v := by
  have hrun := bufferTransferLoop_run (H := fun _ _ u => OtherBuffers d w u)
    (M := fun _ _ u => OtherBuffers d w u) ?_ ?_ fuel hw ⟨fun _ _ => rfl, fun _ => rfl⟩ h
  · exact hrun.2.1
  · intro input output input' x y hx hb hf
    rcases transferFill_ok hf with ⟨-, -, m, u, hm, -, rfl, -⟩ | ⟨-, rfl, -⟩
    · exact hb.set (fillWrapper_ok hx hm).2.1 _
    · exact hb
  · intro input output output' x y hx hb hd
    rcases transferDrain_ok hd with ⟨-, -, m, u, hm, -, rfl, -⟩ | ⟨-, rfl, -⟩
    · exact hb.set (drainWrapper_ok hx hm).2 _
    · exact hb

theorem passStep_other {d : Direction} {connVal dataVal flags : ℕ} {blkStr : World σ → Option StrRef}
    {w v : World σ} {str : Option StrRef} (hw : Fine env P w)
    (h : PassStep env d connVal dataVal blkStr w flags str v) : OtherBuffers d w v := by
  have hend : ∀ status, TransferEnd env d w status v → status = .blockConn ∨ status = .blockData →
      OtherBuffers d w v := by
    intro status h hs
    cases h with
    | failed | eof => simp at hs
    | blocked input output u _ hl _ _ =>
      have hl := bufferTransferLoop_other env.fuel hw hl
      have ht : SameBuffers u (u.transferred env input output) := transferred_sameBuffers u input output
      exact ⟨fun e he => by rw [ht.buf, hl.buf e he], fun e => by rw [ht.capacity, hl.capacity]⟩
  cases h with
  | conn v h => exact hend _ h (.inl rfl)
  | data v s h _ => exact hend _ h (.inr rfl)
  | silent v h _ => exact hend _ h (.inr rfl)

/-! ### The last pass -/

/- The state in which the last `client_process_input` of `lmqtt_client_run_once`
   starts, from the head of its loop on. -/
def lastInput (env : Env σ) : ℕ → World σ → Option (World σ)
  | 0, _ => none
  | fuel+1, w =>
    match clientProcessBuffer env (clientProcessOutput env) resWouldBlockConnWr resWouldBlockDataRd
        (·.tx.internal.buffer.blockingStr) 0 w with
    | .ok (true, result, _) v =>
      match clientProcessBuffer env (clientProcessInput env) resWouldBlockConnRd resWouldBlockDataWr
          (·.rx.internal.blockingStr) result v with
      | .ok (true, result, _) u =>
        if !wouldBlockConnWr result && !currentHasCurrent v && currentHasCurrent u then lastInput env fuel u
        else some v
      | _ => none
    | _ => none

/-- The last pass of `lmqtt_client_run_once`: the output from `u` to `v`, the
input from `v` to `z`. -/
structure LastPass (env : Env σ) (P : World σ → Prop) (u v z : World σ) (res : ℕ) (strRd strWr : Option StrRef) :
    Prop where
  before : Fine env P u
  middle : Fine env P v
  flags : ∃ output input, res = passResult output input z.mainStore.isQueueable ∧
    PassStep env .output resWouldBlockConnWr resWouldBlockDataRd (·.tx.internal.buffer.blockingStr) u output strRd v ∧
    PassStep env .input resWouldBlockConnRd resWouldBlockDataWr (·.rx.internal.blockingStr) v input strWr z ∧
    (wouldBlockConnWr (output ||| input) = true ∨ currentHasCurrent v = true ∨ currentHasCurrent z = false)

theorem runOnceLoop_ok (fuel : ℕ) {w z : World σ} {res : ℕ} {strRd strWr : Option StrRef} (hw : Reached env P w)
    (h : runOnceLoop env fuel w = .ok (res, strRd, strWr) z) (he : isError res = false) (hf : isEof res = false) :
    ∃ u v, LastPass env P u v z res strRd strWr ∧ lastInput env fuel w = some v ∧
      v.readBufCapacity = w.readBufCapacity := by
  induction fuel generalizing w with
  | zero => cases h
  | succ fuel ih =>
    have hstop : ∀ connVal, connVal = resWouldBlockConnWr ∨ connVal = resWouldBlockConnRd →
        (res = resEof ||| connVal ∨ isError res = true) → False := by
      rintro connVal (rfl | rfl) (rfl | h)
      · revert hf
        decide
      · rw [he] at h
        contradiction
      · revert hf
        decide
      · rw [he] at h
        contradiction
    obtain ⟨⟨go, output, strRd'⟩, v, hout, h⟩ := ok_bind h
    rcases clientProcessBuffer_ok hw hout with ⟨rfl, hr⟩ | ⟨rfl, hfw, flags, hflags, hstep⟩
    · cases h
      exact (hstop _ (.inl rfl) hr).elim
    have hv := wp_ok (clientProcessBuffer_reached w _ _ _ _ _ (clientBufferTransfer_reached w hw .output)) hout
    have h := ok_get_bind h
    obtain ⟨⟨go, input, strWr'⟩, x, hin, h⟩ := ok_bind h
    rcases clientProcessBuffer_ok hv hin with ⟨rfl, hr⟩ | ⟨rfl, hfv, flags', hflags', hstep'⟩
    · cases h
      exact (hstop _ (.inr rfl) hr).elim
    have hx := wp_ok (clientProcessBuffer_reached v _ _ _ _ _ (clientBufferTransfer_reached v hv .input)) hin
    have hlast : lastInput env (fuel+1) w =
        if !wouldBlockConnWr input && !currentHasCurrent v && currentHasCurrent x then lastInput env fuel x
        else some v := by
      simp only [lastInput]
      rw [show clientProcessBuffer env (clientProcessOutput env) _ _ _ 0 w = _ from hout]
      simp only
      rw [show clientProcessBuffer env (clientProcessInput env) _ _ _ output v = _ from hin]
    have hcapv := (passStep_other hfw hstep).capacity .input
    have h := ok_get_bind h
    rw [hlast]
    rcases ok_ite h with ⟨hc, h⟩ | ⟨hc, h⟩
    · rw [if_pos hc]
      obtain ⟨u', v', hlast, hin, hcap⟩ := ih hx h
      exact ⟨u', v', hlast, hin, hcap.trans (((passStep_other hfv hstep').capacity .input).trans hcapv)⟩
    · obtain ⟨hr, rfl⟩ := ok_pure h
      cases hr
      rw [if_neg hc]
      rw [Nat.zero_or] at hflags
      subst hflags hflags'
      refine ⟨w, v, ⟨hfw, hfv, output, flags', rfl, hstep, hstep', ?_⟩, rfl, hcapv⟩
      simp only [Bool.and_eq_true, Bool.not_eq_true', not_and, Bool.not_eq_true] at hc
      by_cases hcur : currentHasCurrent v = true
      · exact .inr (.inl hcur)
      · by_cases hconn : wouldBlockConnWr (output ||| flags') = true
        · exact .inl hconn
        · exact .inr (.inr (hc ⟨by simpa using hconn, by simpa using hcur⟩))

theorem clientKeepAlive_error (w : World σ) :
    Wp (clientKeepAlive env) w (fun status v => status = .error → v.error.isSome = true) fun _ _ => True := by
  simp only [clientKeepAlive, wp_bind, wp_get]
  apply wp_if
  · exact fun he _ => he
  · intro _
    refine (wp_bind ..).mpr ((wp_true _ _).mono (fun r u _ => ?_) fun _ _ h => h)
    obtain ⟨has, count, secs, nsecs⟩ := r
    refine wp_if (fun _ => by simp) fun _ => wp_if (fun _ => ?_) fun _ => ?_
    · simp only [wp_bind, wp_modify]
      refine (clientSetStateFailed_spec env u .timeout 0).mono (fun _ t ht => ?_) fun _ _ h => h.elim
      rw [ht]
      simp
    · refine (wp_bind ..).mpr ((wp_true _ _).mono (fun _ _ _ => ?_) fun _ _ h => h)
      simp

theorem clientKeepAlive_sameBuffers (w : World σ) :
    Wp (clientKeepAlive env) w (fun _ v => SameBuffers w v) fun _ _ => True := by
  have happ : ∀ a, SameBuffers w { w with app := a } := fun a =>
    ⟨fun d => by cases d <;> rfl, fun d => by cases d <;> rfl⟩
  simp only [clientKeepAlive, wp_bind, wp_get]
  apply wp_if
  · exact fun _ => .refl w
  · intro _
    refine (wp_bind ..).mpr ((currentTimeout_spec w).mono (fun r u hu => ?_) fun _ _ h => h.elim)
    obtain ⟨a, rfl⟩ := hu
    obtain ⟨has, count, secs, nsecs⟩ := r
    refine wp_if (fun _ => happ a) fun _ => wp_if (fun _ => ?_) fun _ => ?_
    · simp only [wp_bind, wp_modify]
      refine (clientSetStateFailed_spec env { w with app := a } .timeout 0).mono (fun _ t ht => ?_)
        fun _ _ h => h.elim
      rw [ht]
      exact ⟨fun d => by cases d <;> rfl, fun d => by cases d <;> rfl⟩
    · simp only [lmqttClientPingreq, wp_bind, wp_get]
      refine wp_if (fun _ => ?_) fun _ => happ a
      refine (clientDoPingreq_called env (fun _ => False) { w with app := a }).mono (fun _ t ht => ?_)
        fun _ _ h => h.elim
      exact (happ a).trans ht.2.sameBuffers

/-- A call that returns no error and no end of stream comes to a last pass. -/
theorem lmqttClientRunOnce_ok {w z : World σ} {res : ℕ} {strRd strWr : Option StrRef} (hw : Reached env P w)
    (h : lmqttClientRunOnce env w = .ok (res, strRd, strWr) z) (he : isError res = false) (hf : isEof res = false) :
    ∃ status x u v, clientKeepAlive env w = .ok status x ∧ status ≠ .error ∧ LastPass env P u v z res strRd strWr ∧
      lastInput env env.fuel x = some v ∧ v.readBufCapacity = w.readBufCapacity := by
  obtain ⟨status, x, hk, h⟩ := ok_bind h
  have hx := wp_ok (clientKeepAlive_reached w hw) hk
  have hloop : ∀ hs : runOnceLoop env env.fuel x = .ok (res, strRd, strWr) z,
      ∃ u v, LastPass env P u v z res strRd strWr ∧ lastInput env env.fuel x = some v ∧
        v.readBufCapacity = x.readBufCapacity :=
    fun hs => runOnceLoop_ok env.fuel hx hs he hf
  have hcap := (wp_ok (clientKeepAlive_sameBuffers w) hk).capacity .input
  cases status with
  | error =>
    have hsome := wp_ok (clientKeepAlive_error w) hk rfl
    have h : (assert env x.error.isSome >>= fun _ => do
      pure (errorResult (← get), none, none) : Prog σ (ℕ × Option StrRef × Option StrRef)) x =
        .ok (res, strRd, strWr) z := h
    obtain ⟨_, t, ht, hp⟩ := ok_bind h
    rw [hsome] at ht
    obtain ⟨-, rfl⟩ := ok_pure (show (pure () : Prog σ Unit) x = .ok _ t by simpa [assert] using ht)
    have hp := ok_get_bind hp
    obtain ⟨hr, -⟩ := ok_pure hp
    cases hr
    rw [errorResult_isError hsome] at he
    contradiction
  | ready | blockConn | blockData =>
    obtain ⟨u, v, hlast, hin, hcapv⟩ := hloop h
    exact ⟨_, x, u, v, hk, by simp, hlast, hin, hcapv.trans hcap⟩

/-! ### The output side -/

/- Why the encoder has nothing for the buffer. -/
def EncodeBlocked (w : World σ) : Prop :=
  w.txStore.peek = none ∨ w.tx.internal.buffer.blockingStr.isSome = true

theorem encodeBufferEncode_answer (w : World σ) (builder : Value → Prog σ (List Byte)) (v : Value)
    (offset bufLen : ℕ) :
    Wp (encodeBufferEncode env builder v offset bufLen) w (fun r _ => r.1 ≠ .wouldBlock) fun _ _ => True := by
  simp only [encodeBufferEncode, setEncodeBuffer, wp_bind, wp_get, wp_ite, wp_modify, wp_assert, wp_pure]
  split
  · refine (wp_true _ _).mono (fun _ t _ => ?_) fun _ _ _ => trivial
    split
    · split <;> simp
    · trivial
  · split
    · split <;> simp
    · trivial

/- A string encoder that is blocked says by which string. -/
theorem stringEncode_answer (w : World σ) (r : StrRef) (encodeLen encodeIfEmpty : Bool) (offset bufLen : ℕ) :
    Wp (stringEncode env r encodeLen encodeIfEmpty offset bufLen) w
      (fun x v => x.1 = .wouldBlock → v.tx.internal.buffer.blockingStr.isSome = true) fun _ _ => True := by
  have hres : ∀ lenBytes remaining res bytes osError t,
      Wp (stringEncodeResult env r lenBytes remaining res bytes osError) t
        (fun x v => x.1 = .wouldBlock → v.tx.internal.buffer.blockingStr.isSome = true) fun _ _ => True := by
    intro lenBytes remaining res bytes osError t
    simp only [stringEncodeResult, wp_bind, wp_modify, wp_assert, wp_ite, wp_pure]
    split
    · split
      · exact fun _ => rfl
      · split
        · simp
        · split <;> simp
    · trivial
  have hdata : ∀ lenBytes offsetStr room t, Wp (stringEncodeData env r lenBytes offsetStr room) t
      (fun x v => x.1 = .wouldBlock → v.tx.internal.buffer.blockingStr.isSome = true) fun _ _ => True := by
    intro lenBytes offsetStr room t
    simp only [stringEncodeData, wp_bind, wp_get]
    apply wp_if
    · intro _
      refine (wp_bind ..).mpr ((wp_true _ _).mono (fun _ u _ => ?_) fun _ _ _ => trivial)
      exact (wp_bind ..).mpr ((wp_true _ _).mono (fun x v _ => hres _ _ _ _ _ v) fun _ _ _ => trivial)
    · intro _
      exact (wp_bind ..).mpr ((wp_true _ _).mono (fun x v _ => hres _ _ _ _ _ v) fun _ _ _ => trivial)
  simp only [stringEncode, wp_bind, wp_get, wp_modify]
  refine wp_if (fun _ => by simp) fun _ => wp_if (fun _ => by simp) fun _ => ?_
  refine wp_assert_bind (fun _ => wp_if (fun _ => ?_) fun _ => hdata _ _ _ _) fun _ => trivial
  have hne : ∀ c : Bool, (if c = true then EncodeResult.finished else .continue) ≠ .wouldBlock := by decide
  exact fun hn => absurd hn (hne _)

theorem runEncoder_answer (w : World σ) (v : Value) (offset bufLen : ℕ) (encoder : Encoder) :
    Wp (runEncoder env v offset bufLen encoder) w
      (fun r u => r.1 = .wouldBlock → u.tx.internal.buffer.blockingStr.isSome = true) fun _ _ => True := by
  have hbuf : ∀ builder t, Wp (encodeBufferEncode env builder v offset bufLen) t
      (fun r u => r.1 = .wouldBlock → u.tx.internal.buffer.blockingStr.isSome = true) fun _ _ => True :=
    fun builder t => (encodeBufferEncode_answer t builder v offset bufLen).mono
      (fun _ _ h hn => absurd hn h) fun _ _ h => h
  cases encoder
  case subscribeTopic =>
    simp only [runEncoder, wp_bind, wp_get]
    exact stringEncode_answer w _ _ _ offset bufLen
  all_goals first | exact hbuf _ w | exact stringEncode_answer w _ _ _ offset bufLen

theorem txBufferEncodeLoop_answer (fuel : ℕ) (cur : Option Entry) (bufLen : ℕ) (out : List Byte) (w : World σ) :
    Wp (txBufferEncodeLoop env fuel cur bufLen out) w (fun r v => r.1 = .wouldBlock → EncodeBlocked v)
      fun _ _ => True := by
  induction fuel generalizing cur bufLen out w with
  | zero => trivial
  | succ fuel ih =>
    cases cur with
    | none =>
      simp only [txBufferEncodeLoop, txBufferExit, wp_bind, wp_get, wp_ite]
      split
      · rename_i hc
        simp [hc]
      · split
        · rename_i hp
          exact fun _ => .inl hp
        · exact ih _ _ _ w
    | some e =>
      simp only [txBufferEncodeLoop, wp_bind]
      refine (wp_true _ _).mono (fun found t _ => ?_) fun _ _ h => h
      cases found with
      | none =>
        simp only [wp_bind]
        refine (wp_true _ _).mono (fun ok u _ => ?_) fun _ _ h => h
        cases ok with
        | true => exact ih none bufLen out u
        | false => simp
      | some encoder =>
        simp only [wp_bind, wp_get, wp_emit]
        refine (runEncoder_answer _ e.value _ bufLen encoder).mono (fun r u hu => ?_) fun _ _ h => h
        obtain ⟨res, bytes⟩ := r
        cases res with
        | wouldBlock => exact fun _ => .inr (hu rfl)
        | «continue» => simp
        | error => simp [txBufferFail]
        | finished => exact ih (some e) _ _ _

theorem lmqttTxBufferEncode_answer (w : World σ) (bufLen : ℕ) :
    Wp (lmqttTxBufferEncode env bufLen) w (fun r v => r.1 = .wouldBlock → EncodeBlocked v) fun _ _ => True := by
  simp only [lmqttTxBufferEncode, wp_bind, wp_get]
  apply wp_if
  · simp
  · exact fun _ => txBufferEncodeLoop_answer env.fuel none bufLen [] w

theorem encodeBlocked_setBuf {w : World σ} {d : Direction} {bs : List Byte} (h : EncodeBlocked w) :
    EncodeBlocked (w.setBuf d bs) := by
  cases d <;> exact h

theorem sides_output (hb : env.WriteBlocks) : Sides env P .output True EncodeBlocked fun _ => True := by
  constructor
  · intro w len m v _ h
    obtain ⟨r, u, hr, h⟩ := ok_bind h
    have ha := wp_ok (lmqttTxBufferEncode_answer w len) hr
    cases h
    exact ⟨.inl trivial, ha, id⟩
  · intro w bs m v _ hn h
    refine ⟨fun hm => ⟨drainWrapper_blocks hb hn h hm, trivial⟩, ?_⟩
    cases h
    exact id
  · exact fun w bs => ⟨encodeBlocked_setBuf, id⟩

theorem transferred_stores (w : World σ) (input output : Transfer) :
    (w.transferred env input output).currentStore = w.currentStore ∧
      (w.transferred env input output).tx = w.tx ∧ (w.transferred env input output).rx = w.rx ∧
      ∀ r, ((w.transferred env input output).store r).entries = (w.store r).entries ∧
        ((w.transferred env input output).store r).pos = (w.store r).pos := by
  unfold World.transferred
  split
  · have hs : ∀ r, (w.touched env).store r =
        if r = w.currentStore then (w.store r).touch (env.getTime w.app).2 else w.store r := by
      intro r
      have h := World.store_setStore w w.currentStore r ((w.store w.currentStore).touch (env.getTime w.app).2)
      rw [show (w.touched env).store r = _ from h]
      split
      · rename_i hr
        rw [hr]
      · rfl
    refine ⟨World.setStore_currentStore .., World.setStore_tx .., World.setStore_rx .., fun r => ?_⟩
    rw [hs r]
    split <;> exact ⟨rfl, rfl⟩
  · exact ⟨rfl, rfl, rfl, fun r => ⟨rfl, rfl⟩⟩

theorem Store.peek_congr {s t : Store} (he : t.entries = s.entries) (hp : t.pos = s.pos) : t.peek = s.peek := by
  unfold Store.peek Store.getAt
  rw [he, hp]

theorem encodeBlocked_transferred {w : World σ} {input output : Transfer} (h : EncodeBlocked w) :
    EncodeBlocked (w.transferred env input output) := by
  obtain ⟨-, htx, -, hs⟩ : _ ∧ (w.transferred env input output).tx = w.tx ∧ _ := transferred_stores w input output
  unfold EncodeBlocked World.txStore at *
  rw [htx, Store.peek_congr (hs _).1 (hs _).2]
  exact h

/- An output that is blocked by data has handed over all that was encoded. -/
theorem output_blockData (hb : env.WriteBlocks) {w v : World σ} (hw : Fine env P w)
    (h : TransferEnd env .output w .blockData v) : v.writeBuf = [] ∧ EncodeBlocked v := by
  cases h with
  | blocked input output u _ hl he hs =>
    obtain ⟨-, hend⟩ := bufferTransferLoop_ended (sides_output hb) env.fuel hw (head_start (.inl trivial)) hl
    have hc : input.result = .wouldBlock ∧ u.buf .output = [] := by
      by_contra hn
      rw [if_neg hn] at hs
      cases hs
    obtain ⟨hblock, hnil⟩ := hc
    refine ⟨((transferred_sameBuffers u input output).buf .output).trans hnil, encodeBlocked_transferred ?_⟩
    rcases hend.fill with ⟨-, hf⟩ | heof | ⟨hf, -⟩
    · exact hf
    · simp [Transfer.isEof, hblock] at heof
    · exact absurd hblock hf.not_blocked.1

/-! ### Work that is left behind -/

theorem passStep_flags {d : Direction} {connVal dataVal flags : ℕ} {blkStr : World σ → Option StrRef}
    {w v : World σ} {str : Option StrRef} (h : PassStep env d connVal dataVal blkStr w flags str v) :
    flags = connVal ∨ flags = dataVal ∨ flags = 0 := by
  cases h
  · exact .inl rfl
  · exact .inr (.inl rfl)
  · exact .inr (.inr rfl)

/- A pass that announces nothing of the output has none of its flags. -/
theorem passResult_silent {output input : ℕ} {q : Bool}
    (ho : output = resWouldBlockConnWr ∨ output = resWouldBlockDataRd ∨ output = 0)
    (hi : input = resWouldBlockConnRd ∨ input = resWouldBlockDataWr ∨ input = 0)
    (hc : wouldBlockConnWr (passResult output input q) = false)
    (hd : wouldBlockDataRd (passResult output input q) = false) :
    output = 0 ∧ wouldBlockConnWr (output ||| input) = false := by
  rcases ho with rfl | rfl | rfl <;> rcases hi with rfl | rfl | rfl <;> cases q <;> revert hc hd <;> decide

theorem passStep_silent {d : Direction} {connVal dataVal : ℕ} {blkStr : World σ → Option StrRef}
    {w v : World σ} {str : Option StrRef} (hc : connVal ≠ 0) (hd : dataVal ≠ 0)
    (h : PassStep env d connVal dataVal blkStr w 0 str v) :
    TransferEnd env d w .blockData v ∧ blkStr v = none := by
  generalize hz : 0 = flags at h
  cases h with
  | conn => exact absurd hz.symm hc
  | data => exact absurd hz.symm hd
  | silent v h hs => exact ⟨h, hs⟩

theorem currentHasCurrent_eq {w : World σ} (hw : Fine env P w) :
    currentHasCurrent w = w.txStore.peek.isSome := by
  have hs := (reached_effects w hw.1).1.sound.txStore
  unfold currentHasCurrent World.txStore Store.hasCurrent
  rw [hs]

/-- When `lmqtt_client_run_once` neither fails nor meets the end of a stream, and
announces nothing of the output, nothing is left to be sent. -/
theorem nothing_left (hb : env.WriteBlocks) (w v : World σ) (res : ℕ) (strRd strWr : Option StrRef)
    (hw : Reached env P w) (h : lmqttClientRunOnce env w = .ok (res, strRd, strWr) v)
    (he : isError res = false) (hf : isEof res = false) (hc : wouldBlockConnWr res = false)
    (hd : wouldBlockDataRd res = false) : currentHasCurrent v = false ∧ v.writeBuf = [] := by
  obtain ⟨_, x, u, m, -, -, hlast, -, -⟩ := lmqttClientRunOnce_ok hw h he hf
  obtain ⟨output, input, hres, hout, hin, hmore⟩ := hlast.flags
  rw [hres] at hc hd
  obtain ⟨rfl, hconn⟩ := passResult_silent (passStep_flags hout) (passStep_flags hin) hc hd
  obtain ⟨hend, hstr⟩ := passStep_silent (by decide) (by decide) hout
  obtain ⟨hnil, hblocked⟩ := output_blockData hb hlast.before hend
  -- no string blocks the encoder: the queue is empty before the input is processed
  have hcur : currentHasCurrent m = false := by
    rw [currentHasCurrent_eq hlast.middle]
    rcases hblocked with hp | hs
    · rw [hp]
      rfl
    · rw [hstr] at hs
      contradiction
  constructor
  · rcases hmore with hw | hm | hz
    · rw [hconn] at hw
      contradiction
    · rw [hcur] at hm
      contradiction
    · exact hz
  · exact ((passStep_other hlast.middle hin).buf .output (by decide)).trans hnil

/-! ### The input side -/

/- The decoder takes every byte of the read buffer, in the calls of a
   `client_process_input` that does not read. -/
def takesAll (env : Env σ) : ℕ → World σ → Bool
  | 0, w => w.readBuf.isEmpty
  | fuel+1, w =>
    w.readBuf.isEmpty ||
      match lmqttRxBufferDecode env w.readBuf w with
      | .ok (result, count) v =>
        decide (result = .success) && takesAll env fuel (v.setBuf .input (v.readBuf.drop count))
      | .error _ _ => false

theorem takesAll_nil (fuel : ℕ) {w : World σ} (h : w.readBuf = []) : takesAll env fuel w = true := by
  cases fuel <;> simp [takesAll, h]

theorem takesAll_succ (fuel : ℕ) {w v : World σ} {result : IoResult} {count : ℕ} (hn : w.readBuf ≠ [])
    (h : lmqttRxBufferDecode env w.readBuf w = .ok (result, count) v) : takesAll env (fuel+1) w =
      (decide (result = .success) && takesAll env fuel (v.setBuf .input (v.readBuf.drop count))) := by
  simp [takesAll, h, hn]

/-- The read buffer is full, and the decoder empties it. -/
def World.Swallows (env : Env σ) (w : World σ) : Prop :=
  w.readBufCapacity ≤ w.readBuf.length ∧ takesAll env env.fuel w = true

/- A read stays within the room it is given. -/
def Env.ReadsWithin (env : Env σ) : Prop := ∀ a len, (env.read a len).bytes.length ≤ len

theorem sides_input (hr : env.ReadsWithin) (full : Prop) :
    Sides env P .input full (fun _ => True) fun w => w.rx.internal.blockingStr.isSome = true := by
  constructor
  · intro w len m v _ h
    cases h
    exact ⟨.inr (hr w.app len), fun _ => trivial, id⟩
  · intro w bs m v _ hn h
    obtain ⟨r, u, hr, h⟩ := ok_bind h
    have ha := wp_ok (lmqttRxBufferDecode_answer w bs hn) hr
    cases h
    exact ⟨ha.2, id⟩
  · exact fun w bs => ⟨id, id⟩

/- The loop is left when neither side is available. -/
theorem bufferTransferLoop_done {d : Direction} (fuel : ℕ) {input output : Transfer} {w v : World σ}
    {r : Option (Transfer × Transfer)} (hi : input.available = false) (ho : output.available = false)
    (h : bufferTransferLoop env d fuel input output w = .ok r v) : r = some (input, output) ∧ v = w := by
  have hc : ¬ (input.available || output.available) = true := by simp [hi, ho]
  cases fuel with
  | zero =>
    rcases ok_ite h with ⟨hn, -⟩ | ⟨-, h⟩
    · exact absurd hn hc
    · cases h
      exact ⟨rfl, rfl⟩
  | succ fuel =>
    rcases ok_ite h with ⟨hn, -⟩ | ⟨-, h⟩
    · exact absurd hn hc
    · cases h
      exact ⟨rfl, rfl⟩

/- Once nothing is read any more the decoder is called until it is blocked or the
   buffer is empty. -/
theorem takesAll_iff (fuel : ℕ) {input output input' output' : Transfer} {w v : World σ} (hw : Fine env P w)
    (hi : input.available = false) (ho : output.available = true)
    (h : bufferTransferLoop env .input fuel input output w = .ok (some (input', output')) v) :
    input'.result = input.result ∧ (v.readBuf = [] ↔ takesAll env fuel w = true) ∧
      ((w.readBuf = [] → w.rx.internal.blockingStr = none) → v.readBuf = [] → v.rx.internal.blockingStr = none) := by
  induction fuel generalizing w input output with
  | zero =>
    rcases ok_ite h with ⟨-, h⟩ | ⟨hn, -⟩
    · cases h
    · rw [ho, Bool.or_true] at hn
      contradiction
  | succ fuel ih =>
    rcases ok_ite h with ⟨-, h⟩ | ⟨hn, -⟩
    · obtain ⟨⟨i, ok⟩, u, hf, h⟩ := ok_bind h
      cases ok with
      | false => cases h
      | true =>
        obtain ⟨⟨o, ok⟩, t, hd, h⟩ := ok_bind h
        cases ok with
        | false => cases h
        | true =>
          rcases transferFill_ok hf with ⟨ha, -⟩ | ⟨-, rfl, rfl⟩
          · rw [hi] at ha
            contradiction
          rcases transferDrain_ok hd with ⟨-, hne, m, x, hm, hr, rfl, rfl⟩ | ⟨hn, rfl, rfl⟩
          · have hbuf := (drainWrapper_ok hw hm).2.buf .input
            obtain ⟨⟨res, count⟩, y, hdec, hm⟩ := ok_bind hm
            obtain ⟨hsome, hnone⟩ := wp_ok (lmqttRxBufferDecode_answer u u.readBuf hne) hdec
            cases hm
            have hne : u.readBuf ≠ [] := hne
            rw [takesAll_succ fuel hne hdec]
            cases res with
            | success =>
              obtain ⟨hpos, hstr⟩ := hsome rfl
              have hav : (output.moved ⟨.success, [], count, x.rx.internal.error, x.rx.internal.osError⟩).available =
                  true := by simp [Transfer.moved, hpos]
              obtain ⟨hres, htakes, hclear⟩ := ih (transferDrain_fine hw hd) rfl hav h
              refine ⟨hres, ?_, fun _ hnil => hclear (fun _ => hstr) hnil⟩
              rw [htakes, decide_eq_true rfl, Bool.true_and]
              rfl
            | wouldBlock =>
              obtain ⟨rfl, -⟩ := hnone rfl
              obtain ⟨he, rfl⟩ := bufferTransferLoop_done fuel rfl rfl h
              cases he
              have hkeep : (x.setBuf .input ((x.buf .input).drop 0)).readBuf ≠ [] := by
                change (x.buf .input).drop 0 ≠ []
                rw [List.drop_zero, hbuf]
                exact hne
              exact ⟨rfl, iff_of_false hkeep (by simp), fun _ hnil => absurd hnil hkeep⟩
            | error => exact absurd rfl hr
          · obtain ⟨he, rfl⟩ := bufferTransferLoop_done fuel rfl rfl h
            cases he
            have hnil : v.readBuf = [] := by
              by_contra hne
              exact hn ⟨ho, hne⟩
            exact ⟨rfl, by simp [hnil, takesAll_nil], fun hb _ => hb hnil⟩
    · rw [ho, Bool.or_true] at hn
      contradiction

/- A full buffer: nothing is read in the whole transfer. -/
theorem bufferTransferLoop_full {d : Direction} (fuel : ℕ) {w : World σ} (hf : w.bufCapacity d ≤ (w.buf d).length) :
    bufferTransferLoop env d fuel {} {} w = bufferTransferLoop env d fuel { available := false } {} w := by
  cases fuel with
  | zero => rfl
  | succ fuel =>
    have hroom : decide ((w.buf d).length < w.bufCapacity d) = false := by simpa using hf
    have hfill : ∀ t : Transfer, t.result ≠ .error → (t.available && false) = false →
        transferFill env d t w = .ok ({ t with available := false }, true) w := by
      intro t ht _
      unfold transferFill
      rw [run_get_bind]
      simp only [hroom, transferExec, Bool.and_false, Bool.false_eq_true, if_false, if_neg ht]
      rfl
    simp only [bufferTransferLoop]
    rw [if_pos (by rfl), if_pos (by rfl), run_bind_ok (hfill {} (by decide) rfl),
      run_bind_ok (hfill { available := false } (by decide) rfl)]

/-- An input that neither ends nor fails says what it waits for, unless it started
with a full buffer that the decoder emptied. -/
theorem input_blocks_iff (hr : env.ReadsWithin) {w v : World σ} {status : IoStatus} (hw : Fine env P w)
    (hcap : 0 < w.readBufCapacity) (h : TransferEnd env .input w status v) (he : status ≠ .ready)
    (hf : status ≠ .error) :
    (status = .blockConn ∨ status = .blockData ∧ v.rx.internal.blockingStr.isSome = true) ↔ ¬ w.Swallows env := by
  cases h with
  | failed => exact absurd rfl hf
  | eof => exact absurd rfl he
  | blocked input output u status hl heof hs =>
    have hrx : (u.transferred env input output).rx = u.rx := (transferred_stores u input output).2.2.1
    rw [hrx]
    have hstart := Nat.lt_or_ge w.readBuf.length w.readBufCapacity
    obtain ⟨-, hend⟩ := bufferTransferLoop_ended (sides_input hr (w.readBufCapacity ≤ w.readBuf.length)) env.fuel
      hw (head_start hstart.symm) hl
    obtain ⟨hei, heo⟩ := Bool.or_eq_false_iff.mp heof
    by_cases hfull : w.readBufCapacity ≤ w.readBuf.length
    · have hbuf : w.bufCapacity .input ≤ (w.buf .input).length := hfull
      rw [bufferTransferLoop_full env.fuel hbuf] at hl
      obtain ⟨hres, htakes, hclear⟩ := takesAll_iff env.fuel hw rfl rfl hl
      have hstatus : status = .blockData := by
        rw [hs, if_neg (by simp [hres])]
        rfl
      have hswallow : w.Swallows env ↔ u.readBuf = [] := by
        rw [htakes]
        exact and_iff_right hfull
      rw [hswallow, hstatus]
      rcases hend.drain with ⟨-, hne, hb⟩ | he | ⟨-, hnil, -⟩
      · have hne : u.readBuf ≠ [] := hne
        exact iff_of_true (.inr ⟨rfl, hb⟩) hne
      · rw [heo] at he
        contradiction
      · have hnil : u.readBuf = [] := hnil
        have hstr : u.rx.internal.blockingStr = none := by
          apply hclear _ hnil
          intro hw
          rw [hw, List.length_nil] at hfull
          omega
        simp [hstr, hnil]
    · refine iff_of_true ?_ fun hsw => hfull hsw.1
      rcases hend.drain with ⟨-, hne, hb⟩ | he | ⟨hf, hnil, -⟩
      · right
        rw [hs, if_neg fun hc => hne hc.2]
        exact ⟨rfl, hb⟩
      · rw [heo] at he
        contradiction
      · left
        rcases hend.fill with ⟨hblock, -⟩ | he | ⟨-, hstop⟩
        · rw [hs, if_pos ⟨hblock, hnil⟩]
          rfl
        · rw [hei] at he
          contradiction
        · have hnot := hf.not_blocked
          tauto

/- The flags of the input in the result. -/
theorem passResult_input {output : ℕ} {q : Bool}
    (ho : output = resWouldBlockConnWr ∨ output = resWouldBlockDataRd ∨ output = 0) :
    wouldBlockConnRd (passResult output resWouldBlockConnRd q) = true ∧
      wouldBlockDataWr (passResult output resWouldBlockDataWr q) = true ∧
      wouldBlockConnRd (passResult output 0 q) = false ∧ wouldBlockDataWr (passResult output 0 q) = false := by
  rcases ho with rfl | rfl | rfl <;> cases q <;> decide

/- The same for a whole call. -/
def lastInputOf (env : Env σ) (w : World σ) : Option (World σ) :=
  match clientKeepAlive env w with
  | .ok _ x => lastInput env env.fuel x
  | .error _ _ => none

/-- When `lmqtt_client_run_once` neither fails nor meets the end of a stream, it
says what the input waits for, exactly where its last `client_process_input` does
not start with a full read buffer that the decoder empties. -/
theorem input_announced_iff (hr : env.ReadsWithin) (w z : World σ) (res : ℕ) (strRd strWr : Option StrRef)
    (hw : Reached env P w) (hcap : 0 < w.readBufCapacity)
    (h : lmqttClientRunOnce env w = .ok (res, strRd, strWr) z) (he : isError res = false) (hf : isEof res = false) :
    (wouldBlockConnRd res = true ∨ wouldBlockDataWr res = true ∧ strWr.isSome = true) ↔
      ∀ v, lastInputOf env w = some v → ¬ v.Swallows env := by
  obtain ⟨status, x, u, m, hk, -, hlast, hin, hcapm⟩ := lmqttClientRunOnce_ok hw h he hf
  have hof : lastInputOf env w = some m := by
    unfold lastInputOf
    rw [hk]
    exact hin
  obtain ⟨output, input, rfl, hout, hstep, -⟩ := hlast.flags
  obtain ⟨hconn, hdata, hnconn, hndata⟩ := passResult_input (q := z.mainStore.isQueueable) (passStep_flags hout)
  have hiff : ∀ status, TransferEnd env .input m status z → status ≠ .ready → status ≠ .error →
      ((status = .blockConn ∨ status = .blockData ∧ z.rx.internal.blockingStr.isSome = true) ↔
        ∀ v, lastInputOf env w = some v → ¬ v.Swallows env) := by
    intro status hend hn hn'
    rw [input_blocks_iff hr hlast.middle (by omega) hend hn hn', hof]
    constructor
    · rintro hs v ⟨⟩
      exact hs
    · exact fun hs => hs m rfl
  cases hstep with
  | conn z hend => exact iff_of_true (.inl hconn) ((hiff _ hend (by simp) (by simp)).mp (.inl rfl))
  | data z s hend hs =>
    refine iff_of_true (.inr ⟨hdata, rfl⟩) ((hiff _ hend (by simp) (by simp)).mp (.inr ⟨rfl, ?_⟩))
    rw [hs]
    rfl
  | silent z hend hs =>
    rw [hnconn, hndata, ← hiff _ hend (by simp) (by simp), hs]
    simp

/-! ### Runs -/

/-- What the library documents of the callbacks of the connection and of strings:
they stay within the room they are given, move something unless the socket is at
its end, and move nothing where they block. -/
structure Env.WellBehaved (env : Env σ) : Prop where
  read : env.ReadsWithin
  readBlocks : ∀ a len, (env.read a len).result = .wouldBlock → (env.read a len).bytes = []
  write : ∀ a bs, (env.write a bs).count ≤ bs.length
  writeBlocks : env.WriteBlocks
  strRead : ∀ a d len, (env.strRead a d len).bytes.length ≤ len ∧
    ((env.strRead a d len).result = .success → 0 < len → (env.strRead a d len).bytes ≠ []) ∧
    ((env.strRead a d len).result = .wouldBlock → (env.strRead a d len).bytes = [])
  strWrite : ∀ a d bs, (env.strWrite a d bs).count ≤ bs.length ∧
    ((env.strWrite a d bs).result = .success → bs ≠ [] → 0 < (env.strWrite a d bs).count) ∧
    ((env.strWrite a d bs).result = .wouldBlock → (env.strWrite a d bs).count = 0)

/- The bytes that wait on the connection, and whether the sink of the payloads is
   blocked. -/
abbrev Sink := List Byte × Bool

/- An application that gives the payload of every message to its sink. -/
def sinkEnv : Env Sink where
  message := {
    onPublish := some fun a _ => ⟨a, true, []⟩
    onPublishAllocateTopic := some fun a _ n =>
      ⟨a, .success, { len := n, buf := some (List.replicate n 0) }⟩
    onPublishAllocatePayload := some fun a _ n => ⟨a, .success, { len := n, write := true }⟩ }
  read := fun a n => if a.1 = [] then ⟨a, .wouldBlock, [], 0⟩ else ⟨(a.1.drop n, a.2), .success, a.1.take n, 0⟩
  write := fun a bs => ⟨a, .success, bs.length, 0⟩
  getTime := fun a => (a, { secs := 1 })
  strRead := fun a _ _ => ⟨a, .wouldBlock, [], 0⟩
  strWrite := fun a _ bs => if a.2 then ⟨a, .wouldBlock, 0, 0⟩ else ⟨a, .success, bs.length, 0⟩
  fuel := 64

theorem sinkEnv_wellBehaved : sinkEnv.WellBehaved := by
  constructor
  · intro a n
    change (if a.1 = [] then (⟨a, .wouldBlock, [], 0⟩ : ReadReply Sink)
      else ⟨(a.1.drop n, a.2), .success, a.1.take n, 0⟩).bytes.length ≤ n
    split
    · exact Nat.zero_le n
    · exact List.length_take_le ..
  · intro a n
    change (if a.1 = [] then (⟨a, .wouldBlock, [], 0⟩ : ReadReply Sink)
      else ⟨(a.1.drop n, a.2), .success, a.1.take n, 0⟩).result = .wouldBlock → _
    intro h
    by_cases ha : a.1 = []
    · simp [sinkEnv, ha]
    · simp [ha] at h
  · exact fun a bs => le_rfl
  · intro a bs h
    cases h
  · intro a d len
    exact ⟨Nat.zero_le len, ⟨fun h => (by cases h), fun _ => rfl⟩⟩
  · intro a d bs
    obtain ⟨bytes, blocked⟩ := a
    cases blocked with
    | true => exact ⟨Nat.zero_le _, ⟨fun h => (by cases h), fun _ => rfl⟩⟩
    | false => exact ⟨le_rfl, ⟨fun _ hn => List.length_pos_iff.mpr hn, fun h => (by cases h)⟩⟩

/- A client that is connected, with a message of eleven bytes on the way. -/
def sinkActs : List (Act Sink) :=
  [.connect 0, .encode 64, .decode [0x20, 2, 0, 0],
    .transfer ([0x30, 9, 0, 1, 97, 1, 2, 3, 4, 5, 6], true) [] []]

theorem sinkRun_isSome : (runClient sinkEnv anyConnect ⟨8, 4, 64, 4⟩ smallHeap ([], true) sinkActs).isSome =
    true := by decide +kernel

/- A call that empties the buffer, announces nothing and leaves bytes on the
   connection. -/
def Unannounced (w : World Sink) : Prop :=
  Wp (lmqttClientRunOnce sinkEnv) w (fun r z => r = (resQueueable, none, none) ∧ z.readBuf = [] ∧
    (sinkEnv.read z.app 4).bytes = [5, 6]) fun _ _ => False

instance (w : World Sink) : Decidable (Unannounced w) := inferInstanceAs (Decidable (Wp ..))

/-- The sink blocks the decoder until the read buffer is full. When it takes bytes
again, the buffer is emptied and nothing is announced, though bytes wait on the
connection. -/
theorem input_unannounced : ∃ w z : World Sink, Reached sinkEnv (fun _ => True) w ∧ sinkEnv.WellBehaved ∧
    w.readBuf.length = w.readBufCapacity ∧ 0 < w.readBufCapacity ∧
    lmqttClientRunOnce sinkEnv w = .ok (resQueueable, none, none) z ∧ z.readBuf = [] ∧
    (sinkEnv.read z.app 4).bytes = [5, 6] := by
  obtain ⟨v, hv, hrun⟩ : ∃ v : World Sink, Reached sinkEnv (fun _ => True) v ∧
      Wp (lmqttClientRunOnce sinkEnv) v (fun r u => r = (resWouldBlockDataWr ||| resQueueable, none, some .rxPayload) ∧
        u.readBuf.length = u.readBufCapacity ∧ 0 < u.readBufCapacity ∧
        Unannounced { u with app := (u.app.1, false) }) fun _ _ => False :=
    ⟨_, reached_get anyConnect_true _ _ _ _ sinkRun_isSome, by decide +kernel⟩
  obtain ⟨r, u, hr, -, hlen, hcap, hrun⟩ := wp_exists hrun
  have hu := wp_ok (lmqttClientRunOnce_reached v hv) hr
  obtain ⟨_, z, hz, rfl, hnil, hmore⟩ := wp_exists hrun
  exact ⟨_, z, reached_transfer hu (u.app.1, false) u.readBuf u.writeBuf, sinkEnv_wellBehaved, hlen, hcap, hz, hnil, hmore⟩

/- The first of the two calls announces the sink. -/
theorem input_announced_sink : ∃ w z : World Sink, Reached sinkEnv (fun _ => True) w ∧
    lmqttClientRunOnce sinkEnv w = .ok (resWouldBlockDataWr ||| resQueueable, none, some .rxPayload) z ∧
    ∀ v, lastInputOf sinkEnv w = some v → ¬ v.Swallows sinkEnv := by
  obtain ⟨w, hw, hcap, hrun⟩ : ∃ w : World Sink, Reached sinkEnv (fun _ => True) w ∧ 0 < w.readBufCapacity ∧
      Wp (lmqttClientRunOnce sinkEnv) w (fun r _ => r = (resWouldBlockDataWr ||| resQueueable, none, some .rxPayload))
        fun _ _ => False :=
    ⟨_, reached_get anyConnect_true _ _ _ _ sinkRun_isSome, by decide +kernel⟩
  obtain ⟨_, z, hz, rfl⟩ := wp_exists hrun
  exact ⟨w, z, hw, hz, (input_announced_iff sinkEnv_wellBehaved.read w z _ _ _ hw hcap hz (by decide) (by decide)).mp
    (.inr ⟨by decide, rfl⟩)⟩

/- A publish waits for its session: the connection was lost, and the CONNACK of the
   next one arrives in the call that sends the CONNECT. -/
def resumeActs : List (Act Sink) :=
  [.connect 0, .encode 64, .decode [0x20, 2, 0, 0], .request (.publish 0), .eof, .connect 0,
    .transfer ([0x20, 2, 0, 0], false) [] []]

theorem resumeRun_isSome : (runClient sinkEnv anyConnect ⟨8, 4, 64, 4⟩ smallHeap ([], false) resumeActs).isSome =
    true := by decide +kernel

/- It is sent in that call. -/
theorem nothing_left_resumed : ∃ w v : World Sink, Reached sinkEnv (fun _ => True) w ∧
    w.mainStore.hasCurrent = true ∧ v.mainStore.sent = w.mainStore.entries ∧
    lmqttClientRunOnce sinkEnv w = .ok (resWouldBlockConnRd ||| resQueueable, none, none) v ∧
    currentHasCurrent v = false ∧ v.writeBuf = [] := by
  obtain ⟨w, hw, hcur, hrun⟩ : ∃ w : World Sink, Reached sinkEnv (fun _ => True) w ∧
      w.mainStore.hasCurrent = true ∧ Wp (lmqttClientRunOnce sinkEnv) w
        (fun r v => r = (resWouldBlockConnRd ||| resQueueable, none, none) ∧ v.mainStore.sent = w.mainStore.entries)
        fun _ _ => False :=
    ⟨_, reached_get anyConnect_true _ _ _ _ resumeRun_isSome, by decide +kernel⟩
  obtain ⟨_, v, hv, rfl, hsent⟩ := wp_exists hrun
  exact ⟨w, v, hw, hcur, hsent, hv, nothing_left sinkEnv_wellBehaved.writeBlocks w v _ _ _ hw hv (by decide) (by decide)
    (by decide) (by decide)⟩

end LightMqtt
