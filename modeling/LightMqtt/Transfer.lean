import LightMqtt.Run

/-!
# The transfers of a client (`client_buffer_transfer`)

The loop of a transfer runs until neither side is available any more. How it
ends is read off an invariant of its head: why each side has stopped, and what
that says about the buffer between them.
-/

namespace LightMqtt

open Exec

variable {σ : Type} {env : Env σ} {P : World σ → Prop}

/-! ### The client buffers -/

/- The client buffers are what they were. -/
structure SameBuffers (w w' : World σ) : Prop where
  buf : ∀ d, w'.buf d = w.buf d
  capacity : ∀ d, w'.bufCapacity d = w.bufCapacity d

theorem SameBuffers.refl (w : World σ) : SameBuffers w w := ⟨fun _ => rfl, fun _ => rfl⟩

theorem SameBuffers.trans {w w' w'' : World σ} (h : SameBuffers w w') (h' : SameBuffers w' w'') :
    SameBuffers w w'' :=
  ⟨fun d => (h'.buf d).trans (h.buf d), fun d => (h'.capacity d).trans (h.capacity d)⟩

theorem setStore_sameBuffers (w : World σ) (r : StoreRef) (s : Store) : SameBuffers w (w.setStore r s) := by
  constructor <;> intro d <;> cases d <;> cases r <;> rfl

/- Only a connect touches the client buffers. -/
theorem effect_sameBuffers {w w' : World σ} (h : Effect env (fun _ => False) w w') : SameBuffers w w' := by
  have hset := fun r s => setStore_sameBuffers w r s
  cases h
  case connecting hp hs => exact hp.elim
  all_goals constructor <;> intro d <;> cases d
  all_goals first | rfl | exact (hset _ _).buf .input | exact (hset _ _).buf .output | exact (hset _ _).capacity .input |
    exact (hset _ _).capacity .output

theorem Effects.sameBuffers {w w' : World σ} (h : Effects env (fun _ => False) w w') : SameBuffers w w' := by
  induction h with
  | refl => exact .refl w
  | tail _ h ih => exact ih.trans (effect_sameBuffers h)

theorem setBuf_buf (w : World σ) (d : Direction) (bs : List Byte) : (w.setBuf d bs).buf d = bs := by
  cases d <;> rfl

theorem setBuf_capacity (w : World σ) (d e : Direction) (bs : List Byte) :
    (w.setBuf d bs).bufCapacity e = w.bufCapacity e := by
  cases d <;> cases e <;> rfl

theorem clientWrapperDecode_sameBuffers {w v : World σ} {bs : List Byte} {m : Moved} (hw : Fine env P w)
    (h : clientWrapperDecode env bs w = .ok m v) : SameBuffers w v := by
  have hdec := (reached_effects w hw.1).1.decoding hw.2
  obtain ⟨r, u, hr, h⟩ := ok_bind h
  have hu := wp_ok (lmqttRxBufferDecode_spec env (fun _ => False) w bs hdec) hr
  cases h
  exact hu.effects.sameBuffers

theorem clientWrapperEncode_sameBuffers {w v : World σ} {len : ℕ} {m : Moved} (hw : Fine env P w)
    (h : clientWrapperEncode env len w = .ok m v) : SameBuffers w v ∧ m.count = m.bytes.length := by
  have hsound := (reached_effects w hw.1).1.sound
  obtain ⟨r, u, hr, h⟩ := ok_bind h
  have hu := wp_ok (lmqttTxBufferEncode_spec env (fun _ => False) w len hsound) hr
  cases h
  exact ⟨hu.effects.sameBuffers, rfl⟩

/- The wrappers leave the buffer alone; `client_buffer_transfer` moves its
   bytes. -/
theorem fillWrapper_ok {w v : World σ} {d : Direction} {len : ℕ} {m : Moved} (hw : Fine env P w)
    (h : fillWrapper env d len w = .ok m v) :
    Fine env P v ∧ SameBuffers w v ∧ m.count = m.bytes.length := by
  refine ⟨(wp_ok (fillWrapper_reached w hw d len) h).1, ?_⟩
  cases d with
  | input =>
    cases h
    exact ⟨⟨fun d => by cases d <;> rfl, fun d => by cases d <;> rfl⟩, rfl⟩
  | output => exact clientWrapperEncode_sameBuffers hw h

theorem drainWrapper_ok {w v : World σ} {d : Direction} {bs : List Byte} {m : Moved} (hw : Fine env P w)
    (h : drainWrapper env d bs w = .ok m v) : Fine env P v ∧ SameBuffers w v := by
  refine ⟨(wp_ok (drainWrapper_reached w hw d bs) h).1, ?_⟩
  cases d with
  | input => exact clientWrapperDecode_sameBuffers hw h
  | output =>
    cases h
    exact ⟨fun d => by cases d <;> rfl, fun d => by cases d <;> rfl⟩

/-! ### One step of a side -/

/- What a transfer is after its wrapper answered. -/
def Transfer.moved (t : Transfer) (m : Moved) : Transfer :=
  let available := m.result = .success && 0 < m.count
  ⟨available, t.stale && !available, m.result, m.count⟩

theorem transferExec_ok {t t' : Transfer} {room : Bool} {wrapper : Prog σ Moved}
    {after : Moved → World σ → World σ} {w v : World σ}
    (h : transferExec t room wrapper after w = .ok (t', true) v) :
    (t.available = true ∧ room = true ∧ ∃ m u, wrapper w = .ok m u ∧ m.result ≠ .error ∧
      v = after m u ∧ t' = t.moved m) ∨
    (¬ (t.available = true ∧ room = true) ∧ v = w ∧ t' = { t with available := false }) := by
  unfold transferExec at h
  rcases ok_ite h with ⟨hc, h⟩ | ⟨hc, h⟩
  · left
    obtain ⟨m, u, hm, h⟩ := ok_bind h
    rw [run_modify_bind] at h
    rcases ok_ite h with ⟨-, h⟩ | ⟨hr, h⟩
    · cases h
    · obtain ⟨he, rfl⟩ := ok_pure h
      cases he
      rw [Bool.and_eq_true] at hc
      exact ⟨hc.1, hc.2, m, u, hm, hr, rfl, rfl⟩
  · right
    rcases ok_ite h with ⟨-, h⟩ | ⟨-, h⟩
    · cases h
    · obtain ⟨he, rfl⟩ := ok_pure h
      cases he
      rw [Bool.and_eq_true] at hc
      exact ⟨hc, rfl, rfl⟩

theorem transferFill_ok {d : Direction} {t t' : Transfer} {w v : World σ}
    (h : transferFill env d t w = .ok (t', true) v) :
    (t.available = true ∧ (w.buf d).length < w.bufCapacity d ∧ ∃ m u,
      fillWrapper env d (w.bufCapacity d - (w.buf d).length) w = .ok m u ∧ m.result ≠ .error ∧
      v = u.setBuf d (u.buf d ++ m.bytes) ∧ t' = t.moved m) ∨
    (¬ (t.available = true ∧ (w.buf d).length < w.bufCapacity d) ∧ v = w ∧
      t' = { t with available := false }) := by
  have h := transferExec_ok (show transferExec _ _ _ _ w = _ from h)
  simpa only [decide_eq_true_eq] using h

theorem transferDrain_ok {d : Direction} {t t' : Transfer} {w v : World σ}
    (h : transferDrain env d t w = .ok (t', true) v) :
    (t.available = true ∧ w.buf d ≠ [] ∧ ∃ m u, drainWrapper env d (w.buf d) w = .ok m u ∧
      m.result ≠ .error ∧ v = u.setBuf d ((u.buf d).drop m.count) ∧ t' = t.moved m) ∨
    (¬ (t.available = true ∧ w.buf d ≠ []) ∧ v = w ∧ t' = { t with available := false }) := by
  have h := transferExec_ok (show transferExec _ _ _ _ w = _ from h)
  simpa only [decide_eq_true_eq, List.length_pos_iff] using h

theorem transferFill_fine {d : Direction} {t t' : Transfer} {w v : World σ} (hw : Fine env P w)
    (h : transferFill env d t w = .ok (t', true) v) : Fine env P v := by
  rcases transferFill_ok h with ⟨-, -, m, u, hm, -, rfl, -⟩ | ⟨-, rfl, -⟩
  · exact setBuf_fine (fillWrapper_ok hw hm).1 d _
  · exact hw

theorem transferDrain_fine {d : Direction} {t t' : Transfer} {w v : World σ} (hw : Fine env P w)
    (h : transferDrain env d t w = .ok (t', true) v) : Fine env P v := by
  rcases transferDrain_ok h with ⟨-, -, m, u, hm, -, rfl, -⟩ | ⟨-, rfl, -⟩
  · exact setBuf_fine (drainWrapper_ok hw hm).1 d _
  · exact hw

/-- The rule of the loop of `client_buffer_transfer`, for an invariant of its head
and one of its middle. -/
theorem bufferTransferLoop_run {d : Direction} {H M : Transfer → Transfer → World σ → Prop}
    (hfill : ∀ {input output input' : Transfer} {w v : World σ}, Fine env P w → H input output w →
      transferFill env d input w = .ok (input', true) v → M input' output v)
    (hdrain : ∀ {input output output' : Transfer} {w v : World σ}, Fine env P w → M input output w →
      transferDrain env d output w = .ok (output', true) v → H input output' v)
    (fuel : ℕ) {input output input' output' : Transfer} {w v : World σ} (hw : Fine env P w)
    (hh : H input output w)
    (h : bufferTransferLoop env d fuel input output w = .ok (some (input', output')) v) :
    Fine env P v ∧ H input' output' v ∧ input'.available = false ∧ output'.available = false := by
  induction fuel generalizing w input output with
  | zero =>
    rcases ok_ite h with ⟨-, h⟩ | ⟨hn, h⟩
    · cases h
    · cases h
      simp only [Bool.or_eq_true, not_or, Bool.not_eq_true] at hn
      exact ⟨hw, hh, hn.1, hn.2⟩
  | succ fuel ih =>
    rcases ok_ite h with ⟨-, h⟩ | ⟨hn, h⟩
    · obtain ⟨⟨i, ok⟩, u, hf, h⟩ := ok_bind h
      cases ok with
      | false => cases h
      | true =>
        obtain ⟨⟨o, ok⟩, t, hd, h⟩ := ok_bind h
        cases ok with
        | false => cases h
        | true =>
          have hu := transferFill_fine hw hf
          exact ih (transferDrain_fine hu hd) (hdrain hu (hfill hw hh hf) hd) h
    · cases h
      simp only [Bool.or_eq_true, not_or, Bool.not_eq_true] at hn
      exact ⟨hw, hh, hn.1, hn.2⟩

/-! ### The head of the loop -/

section Loop
variable (env P) (d : Direction) (full : Prop) (filled blocked : World σ → Prop)

/-- What a use of the invariant knows about the two sides: `filled` holds behind a
wrapper that cannot fill the buffer, `blocked` behind one that cannot drain it.
Where the buffer is not `full`, the side that fills it stays within its room. -/
structure Sides : Prop where
  fill : ∀ w len m v, Fine env P w → fillWrapper env d len w = .ok m v →
    (full ∨ m.bytes.length ≤ len) ∧ (m.result = .wouldBlock → filled v) ∧ (blocked w → blocked v)
  drain : ∀ w bs m v, Fine env P w → bs ≠ [] → drainWrapper env d bs w = .ok m v →
    (m.result = .wouldBlock → m.count = 0 ∧ blocked v) ∧ (filled w → filled v)
  buf : ∀ w bs, (filled w → filled (w.setBuf d bs)) ∧ (blocked w → blocked (w.setBuf d bs))

/- A transfer that is available moved something, or was not tried. -/
def Transfer.Fresh (t : Transfer) : Prop := t.result = .success ∧ t.count ≠ 0

/- Why the side that fills the buffer has stopped. -/
def FillStopped (input output : Transfer) (w : World σ) : Prop :=
  input.result = .wouldBlock ∧ filled w ∨ input.isEof = true ∨
    input.Fresh ∧ (full ∨ output.result = .wouldBlock ∨ output.isEof = true)

/- Why the side that drains the buffer has stopped. -/
def DrainStopped (input output : Transfer) (w : World σ) : Prop :=
  output.result = .wouldBlock ∧ w.buf d ≠ [] ∧ blocked w ∨ output.isEof = true ∨
    output.Fresh ∧ w.buf d = [] ∧ input.available = false

/-- The invariant at the head of the loop of `client_buffer_transfer`. -/
structure Head (input output : Transfer) (w : World σ) : Prop where
  fill : input.available = true → input.Fresh
  drain : output.available = true → output.Fresh
  fillStopped : input.available = false → FillStopped full filled input output w
  drainStopped : output.available = false → DrainStopped d blocked input output w
  room : full ∨ (output.available = true → (w.buf d).length < w.bufCapacity d)

/- The invariant between the two sides. -/
structure Middle (input output : Transfer) (w : World σ) : Prop where
  fill : input.available = true → input.Fresh ∧ w.buf d ≠ []
  drain : output.available = true → output.Fresh
  fillStopped : input.available = false → FillStopped full filled input output w
  drainStopped : output.available = false → DrainStopped d blocked input output w
  room : full ∨ (output.available = true → (w.buf d).length ≤ w.bufCapacity d)

end Loop

section Steps
variable {d : Direction} {full : Prop} {filled blocked : World σ → Prop} {w v : World σ}

theorem Transfer.moved_available (t : Transfer) (m : Moved) (h : (t.moved m).available = true) :
    (t.moved m).Fresh ∧ 0 < m.count := by
  simp only [Transfer.moved, Bool.and_eq_true, decide_eq_true_eq] at h
  exact ⟨⟨h.1, by change m.count ≠ 0; omega⟩, h.2⟩

theorem Transfer.moved_stopped (t : Transfer) (m : Moved) (hr : m.result ≠ .error)
    (h : (t.moved m).available = false) :
    (t.moved m).result = .wouldBlock ∨ (t.moved m).isEof = true := by
  cases hm : m.result with
  | wouldBlock => exact .inl hm
  | error => exact absurd hm hr
  | success =>
    right
    simp [Transfer.moved, hm] at h
    simp [Transfer.moved, Transfer.isEof, hm, h]

theorem Transfer.Fresh.not_blocked {t : Transfer} (h : t.Fresh) :
    ¬ (t.result = .wouldBlock) ∧ ¬ (t.isEof = true) := by
  obtain ⟨hr, hc⟩ := h
  exact ⟨by simp [hr], by simp [Transfer.isEof, hc]⟩

theorem FillStopped.mono {input output output' : Transfer} (h : FillStopped full filled input output w)
    (hw : filled w → filled v) (ho : ¬ full → output.result = .wouldBlock ∨ output.isEof = true →
      output'.result = .wouldBlock ∨ output'.isEof = true) :
    FillStopped full filled input output' v := by
  rcases h with ⟨hr, hq⟩ | he | ⟨hf, ho'⟩
  · exact .inl ⟨hr, hw hq⟩
  · exact .inr (.inl he)
  · by_cases hfull : full
    · exact .inr (.inr ⟨hf, .inl hfull⟩)
    · exact .inr (.inr ⟨hf, .inr (ho hfull (ho'.resolve_left hfull))⟩)

/- The first half of a turn. -/
theorem Head.fills (hs : Sides env P d full filled blocked) {input input' output : Transfer}
    (hw : Fine env P w) (hh : Head d full filled blocked input output w)
    (h : transferFill env d input w = .ok (input', true) v) :
    Middle d full filled blocked input' output v := by
  rcases transferFill_ok h with ⟨ha, hroom, m, u, hm, hr, rfl, rfl⟩ | ⟨hn, rfl, rfl⟩
  · obtain ⟨-, hb, hc⟩ := fillWrapper_ok hw hm
    obtain ⟨hlen, hq, hbl⟩ := hs.fill w _ m u hw hm
    have hset := hs.buf u (u.buf d ++ m.bytes)
    refine ⟨?_, hh.drain, ?_, ?_, ?_⟩
    · intro hav
      obtain ⟨hf, hpos⟩ := Transfer.moved_available input m hav
      have hne : u.buf d ++ m.bytes ≠ [] := by
        rw [← List.length_pos_iff, List.length_append]
        omega
      exact ⟨hf, by rwa [setBuf_buf]⟩
    · intro hav
      rcases Transfer.moved_stopped input m hr hav with hblock | he
      · exact .inl ⟨hblock, hset.1 (hq hblock)⟩
      · exact .inr (.inl he)
    · intro hav
      rcases hh.drainStopped hav with ⟨hblock, hne, hbw⟩ | he | ⟨-, -, hi⟩
      · refine .inl ⟨hblock, ?_, hset.2 (hbl hbw)⟩
        rw [setBuf_buf, hb.buf]
        simp [hne]
      · exact .inr (.inl he)
      · rw [ha] at hi
        contradiction
    · rcases hlen with hfull | hlen
      · exact .inl hfull
      · right
        intro _
        rw [setBuf_buf, setBuf_capacity, hb.capacity, hb.buf, List.length_append]
        omega
  · refine ⟨fun hav => by contradiction, hh.drain, fun _ => ?_, fun hav => ?_, ?_⟩
    · by_cases ha : input.available = true
      · refine .inr (.inr ⟨hh.fill ha, ?_⟩)
        rcases hh.room with hfull | hroom
        · exact .inl hfull
        · by_cases ho : output.available = true
          · exact absurd ⟨ha, hroom ho⟩ hn
          · rcases hh.drainStopped (by simpa using ho) with ⟨hblock, -⟩ | he | ⟨-, -, hi⟩
            · exact .inr (.inl hblock)
            · exact .inr (.inr he)
            · rw [ha] at hi
              contradiction
      · exact hh.fillStopped (by simpa using ha)
    · rcases hh.drainStopped hav with hblock | he | ⟨hf, hb, -⟩
      · exact .inl hblock
      · exact .inr (.inl he)
      · exact .inr (.inr ⟨hf, hb, rfl⟩)
    · exact hh.room.imp id fun hroom ho => Nat.le_of_lt (hroom ho)

/- The second half of a turn. -/
theorem Middle.drains (hs : Sides env P d full filled blocked) {input output output' : Transfer}
    (hw : Fine env P w) (hh : Middle d full filled blocked input output w)
    (h : transferDrain env d output w = .ok (output', true) v) :
    Head d full filled blocked input output' v := by
  rcases transferDrain_ok h with ⟨ha, hne, m, u, hm, hr, rfl, rfl⟩ | ⟨hn, rfl, rfl⟩
  · obtain ⟨-, hb⟩ := drainWrapper_ok hw hm
    obtain ⟨hbl, hq⟩ := hs.drain w _ m u hw hne hm
    have hset := hs.buf u ((u.buf d).drop m.count)
    refine ⟨fun hav => (hh.fill hav).1, fun hav => ?_, fun hav => ?_, fun hav => ?_, ?_⟩
    · exact (Transfer.moved_available output m hav).1
    · have hfresh := (hh.drain ha).not_blocked
      exact (hh.fillStopped hav).mono (fun hf => hset.1 (hq hf)) fun _ hor => by tauto
    · rcases Transfer.moved_stopped output m hr hav with hblock | he
      · obtain ⟨hc, hbu⟩ := hbl hblock
        refine .inl ⟨hblock, ?_, hset.2 hbu⟩
        rw [setBuf_buf, hc, hb.buf]
        exact hne
      · exact .inr (.inl he)
    · rcases hh.room with hfull | hroom
      · exact .inl hfull
      · right
        intro hav
        obtain ⟨-, hpos⟩ := Transfer.moved_available output m hav
        have hle := hroom ha
        have hlen := List.length_pos_iff.mpr hne
        rw [setBuf_buf, setBuf_capacity, hb.capacity, hb.buf, List.length_drop]
        omega
  · refine ⟨fun hav => (hh.fill hav).1, fun hav => by contradiction, hh.fillStopped, fun _ => ?_, ?_⟩
    · by_cases ha : output.available = true
      · have hb : v.buf d = [] := by
          by_contra hne
          exact hn ⟨ha, hne⟩
        refine .inr (.inr ⟨hh.drain ha, hb, ?_⟩)
        cases hi : input.available with
        | false => rfl
        | true => exact absurd hb (hh.fill hi).2
      · exact hh.drainStopped (by simpa using ha)
    · exact .inr fun hav => by contradiction

/-- How the loop of `client_buffer_transfer` ends. -/
structure Ended (d : Direction) (full : Prop) (filled blocked : World σ → Prop) (input output : Transfer)
    (w : World σ) : Prop where
  fill : FillStopped full filled input output w
  drain : DrainStopped d blocked input output w

theorem bufferTransferLoop_ended (hs : Sides env P d full filled blocked) (fuel : ℕ)
    {input output input' output' : Transfer} (hw : Fine env P w)
    (hh : Head d full filled blocked input output w)
    (h : bufferTransferLoop env d fuel input output w = .ok (some (input', output')) v) :
    Fine env P v ∧ Ended d full filled blocked input' output' v := by
  obtain ⟨hv, hhead, hi, ho⟩ := bufferTransferLoop_run (fun hw hh h => hh.fills hs hw h)
    (fun hw hm h => hm.drains hs hw h) fuel hw hh h
  exact ⟨hv, hhead.fillStopped hi, hhead.drainStopped ho⟩

/- The loop starts with two transfers that were not tried yet. -/
theorem head_start (hr : full ∨ (w.buf d).length < w.bufCapacity d) :
    Head d full filled blocked {} {} w := by
  have hf : ({} : Transfer).Fresh := ⟨rfl, by decide⟩
  exact ⟨fun _ => hf, fun _ => hf, fun h => by contradiction, fun h => by contradiction, hr.imp id fun h _ => h⟩

end Steps

/-! ### The answer of the decoder -/

theorem rxBufferEndTurn_answer (w : World σ) (count : ℕ) :
    Wp (rxBufferEndTurn env count) w (fun t _ => t ≠ .blocked) fun _ _ => True := by
  simp only [rxBufferEndTurn, wp_bind, wp_get]
  split
  · apply wp_if
    · intro _
      refine (wp_bind ..).mpr ((wp_true _ _).mono (fun ok u _ => ?_) fun _ _ h => h)
      cases ok <;> simp
    · simp
  · simp

theorem rxBufferDecodeHeaderTurn_answer (w : World σ) (b : Byte) :
    Wp (rxBufferDecodeHeaderTurn env b) w (fun t _ => t ≠ .blocked) fun _ _ => True := by
  simp only [rxBufferDecodeHeaderTurn, wp_bind, wp_get, wp_set]
  split
  · simp only [wp_bind, wp_modify]
    split
    · simp
    · apply wp_if
      · simp
      · intro _
        refine (wp_bind ..).mpr ((wp_true _ _).mono (fun ok u _ => ?_) fun _ _ h => h)
        apply wp_if
        · exact fun _ => rxBufferEndTurn_answer u 1
        · intro _
          simp only [wp_bind, wp_get, wp_assert]
          split <;> simp
  · simp
  · simp

theorem rxBufferFinishPublish_answer (w : World σ) :
    Wp (rxBufferFinishPublish env) w (fun res _ => res ≠ .wouldBlock) fun _ _ => True := by
  simp only [rxBufferFinishPublish, wp_bind, wp_modify, wp_get]
  apply wp_if
  · intro _
    exact (wp_bind ..).mpr ((wp_true _ _).mono (fun _ _ _ => by simp) fun _ _ h => h)
  · intro _
    refine (wp_bind ..).mpr ((wp_true _ _).mono (fun ok u _ => ?_) fun _ _ h => h)
    apply wp_if
    · intro _
      simp only [rxBufferTakeMessage, wp_bind, wp_modify]
      refine (wp_true _ _).mono (fun ok t _ => ?_) fun _ _ h => h
      refine (wp_true _ _).mono (fun _ s _ => ?_) fun _ _ h => h
      cases ok <;> simp
    · intro _
      exact (wp_bind ..).mpr ((wp_true _ _).mono (fun _ _ _ => by simp) fun _ _ h => h)

/- Only the string of a message blocks the decoder. -/
theorem rxBufferDecodeType_answer (w : World σ) (d : Decoder) (bs : List Byte) :
    Wp (rxBufferDecodeType env d bs) w
      (fun r v => r.1 = .wouldBlock → v.rx.internal.blockingStr.isSome = true) fun _ _ => True := by
  unfold rxBufferDecodeType
  split
  · simp
  · simp only [rxBufferDecodeConnack, wp_bind, wp_get, wp_assert]
    split
    · split
      · simp only [wp_ite]
        split <;> simp
      · simp only [wp_ite]
        split
        · simp
        · split <;> simp
      · simp
    · trivial
  · simp only [rxBufferDecodePublish, wp_bind, wp_get, wp_assert]
    split
    · refine (wp_true _ _).mono (fun r u _ => ?_) fun _ _ h => h
      cases r with
      | none => simp
      | some count =>
        simp only [wp_bind, wp_get]
        refine wp_if (fun hb _ => hb) fun _ => wp_if (fun _ => by simp) fun _ => ?_
        refine (wp_bind ..).mpr ((rxBufferFinishPublish_answer u).mono (fun res t hr => ?_) fun _ _ h => h)
        exact fun hw => absurd hw hr
    · trivial
  · simp only [rxBufferDecodeSuback, wp_bind, wp_get, wp_assert]
    split
    · simp only [wp_ite]
      split
      · simp
      · split
        · simp
        · simp only [wp_bind, wp_set, wp_pure]
          split <;> simp
    · trivial

theorem rxBufferDecodeTurn_answer (w : World σ) (bs : List Byte) :
    Wp (rxBufferDecodeTurn env bs) w (fun t v => t = .blocked → v.rx.internal.blockingStr.isSome = true)
      fun _ _ => True := by
  have hwithout : ∀ d u, Wp (rxBufferDecodeRemainingWithoutId env d bs) u
      (fun r v => r.1 = .wouldBlock → v.rx.internal.blockingStr.isSome = true) fun _ _ => True := by
    intro d u
    refine (wp_bind ..).mpr ((rxBufferDecodeType_answer u d bs).mono (fun r v hv => ?_) fun _ _ h => h)
    obtain ⟨res, count⟩ := r
    simp only [wp_bind, wp_get]
    refine wp_if (fun _ => by simp) fun _ => ?_
    simp only [wp_bind, wp_assert]
    split
    · exact hv
    · trivial
  have hremaining : ∀ d, Wp (decodeRemaining env d bs) w
      (fun r v => r.1 = .wouldBlock → v.rx.internal.blockingStr.isSome = true) fun _ _ => True := by
    intro d
    unfold decodeRemaining
    split
    · exact hwithout d w
    · simp only [rxBufferDecodeRemainingWithId, wp_bind, wp_get]
      refine wp_if (fun _ => hwithout d w) fun _ => ?_
      simp only [wp_bind, wp_assert, wp_modify]
      split
      · refine wp_if (fun _ => ?_) fun _ => by simp
        simp only [wp_bind, wp_get, wp_emit]
        refine (wp_true _ _).mono (fun ok u _ => ?_) fun _ _ h => h
        cases ok <;> simp
      · trivial
  simp only [rxBufferDecodeTurn, wp_bind, wp_get]
  split
  · rename_i d _ _
    refine (wp_bind ..).mpr ((hremaining d).mono (fun r v hv => ?_) fun _ _ h => h)
    obtain ⟨res, count⟩ := r
    cases res with
    | error =>
      simp only [rxBufferDecodedBytes, wp_bind, wp_get, wp_assert]
      split <;> simp
    | wouldBlock =>
      simp only [rxBufferDecodedBytes, wp_bind, wp_assert]
      split
      · exact fun _ => hv rfl
      · trivial
    | «continue» | finished =>
      simp only [rxBufferDecodedBytes, wp_bind, wp_modify]
      exact (rxBufferEndTurn_answer _ count).mono (fun _ _ hn h => absurd h hn) fun _ _ h => h
  · exact (rxBufferDecodeHeaderTurn_answer w _).mono (fun _ _ hn h => absurd h hn) fun _ _ h => h

/-- What the answer of the decoder to some bytes says: it took some of them and
no string blocks, or it took none and one does. -/
def DecodeAnswer (r : IoResult × ℕ) (v : World σ) : Prop :=
  (r.1 = .success → 0 < r.2 ∧ v.rx.internal.blockingStr = none) ∧
    (r.1 = .wouldBlock → r.2 = 0 ∧ v.rx.internal.blockingStr.isSome = true)

theorem rxBufferExit_answer (w : World σ) (bufLen bytesRead : ℕ) (hl : 0 < bufLen)
    (hb : bytesRead = 0 → w.rx.internal.blockingStr.isSome = true) :
    Wp (rxBufferExit bufLen bytesRead) w DecodeAnswer fun _ _ => True := by
  simp only [rxBufferExit, wp_ite, wp_bind, wp_modify, wp_pure]
  split
  · rename_i hpos
    exact ⟨fun _ => ⟨hpos, rfl⟩, fun h => by contradiction⟩
  · rename_i hpos
    rw [if_neg (by omega)]
    exact ⟨fun h => by contradiction, fun _ => ⟨by omega, hb (by omega)⟩⟩

theorem rxBufferDecodeLoop_answer (bufLen fuel : ℕ) (bs : List Byte) (bytesRead : ℕ) (w : World σ)
    (hl : 0 < bufLen) (hn : bs = [] → 0 < bytesRead) :
    Wp (rxBufferDecodeLoop env bufLen fuel bs bytesRead) w DecodeAnswer fun _ _ => True := by
  induction fuel generalizing bs bytesRead w with
  | zero =>
    cases bs with
    | nil => exact rxBufferExit_answer w bufLen bytesRead hl fun h => by have := hn rfl; omega
    | cons b bs => trivial
  | succ fuel ih =>
    cases bs with
    | nil => exact rxBufferExit_answer w bufLen bytesRead hl fun h => by have := hn rfl; omega
    | cons b bs =>
      refine (wp_bind ..).mpr ((rxBufferDecodeTurn_answer w (b :: bs)).mono (fun t u hu => ?_) fun _ _ h => h)
      cases t with
      | read count =>
        apply ih
        intro hnil
        have hlen := congrArg List.length hnil
        simp only [List.length_drop, List.length_cons, List.length_nil] at hlen
        omega
      | blocked => exact rxBufferExit_answer u bufLen bytesRead hl fun _ => hu rfl
      | failed count => exact ⟨fun h => by contradiction, fun h => by contradiction⟩

theorem lmqttRxBufferDecode_answer (w : World σ) (bs : List Byte) (hn : bs ≠ []) :
    Wp (lmqttRxBufferDecode env bs) w DecodeAnswer fun _ _ => True := by
  simp only [lmqttRxBufferDecode, wp_bind, wp_get]
  apply wp_if
  · exact fun _ => ⟨fun h => by contradiction, fun h => by contradiction⟩
  · exact fun _ => rxBufferDecodeLoop_answer _ _ bs 0 w (List.length_pos_iff.mpr hn) fun h => absurd h hn

/-! ### A whole transfer -/

/- `lmqtt_store_touch(client->current_store)` -/
def World.touched (env : Env σ) (w : World σ) : World σ :=
  { w.setStore w.currentStore ((w.store w.currentStore).touch (env.getTime w.app).2) with
    app := (env.getTime w.app).1 }

/- The touch of a transfer that moved some bytes. -/
def World.transferred (env : Env σ) (w : World σ) (input output : Transfer) : World σ :=
  if !input.stale || !output.stale then w.touched env else w

theorem touched_fine {w : World σ} (hw : Fine env P w) : Fine env P (w.touched env) :=
  ⟨.act w _ (.touch w.currentStore) hw.1 trivial rfl, (World.setStore_error ..).trans hw.2⟩

theorem transferred_fine {w : World σ} (hw : Fine env P w) (input output : Transfer) :
    Fine env P (w.transferred env input output) := by
  unfold World.transferred
  split
  · exact touched_fine hw
  · exact hw

theorem touched_sameBuffers (w : World σ) : SameBuffers w (w.touched env) := by
  have h := setStore_sameBuffers w w.currentStore ((w.store w.currentStore).touch (env.getTime w.app).2)
  exact ⟨fun d => by rw [← h.buf d]; cases d <;> rfl, fun d => by rw [← h.capacity d]; cases d <;> rfl⟩

theorem transferred_sameBuffers (w : World σ) (input output : Transfer) :
    SameBuffers w (w.transferred env input output) := by
  unfold World.transferred
  split
  · exact touched_sameBuffers w
  · exact .refl w

theorem clientSetStateInitial_sameBuffers {w v : World σ} (hw : Fine env P w)
    (h : clientSetStateInitial env w = .ok () v) : SameBuffers w v := by
  have hs := (reached_effects w hw.1).1.sound
  have hn : w.error ≠ some .closed := by simp [hw.2]
  exact (wp_ok (clientSetStateInitial_spec env (fun _ => False) w hs hn) h).1.sameBuffers

/-- What a transfer of a client without an error does, by the end of its loop. -/
inductive TransferEnd (env : Env σ) (d : Direction) (w : World σ) : IoStatus → World σ → Prop
  | failed (u v) (hl : bufferTransferLoop env d env.fuel {} {} w = .ok none u) (he : v.error.isSome = true) :
    TransferEnd env d w .error v
  | eof (input output u v)
    (hl : bufferTransferLoop env d env.fuel {} {} w = .ok (some (input, output)) u)
    (he : (input.isEof || output.isEof) = true)
    (h : clientSetStateInitial env (u.transferred env input output) = .ok () v) :
    TransferEnd env d w .ready v
  | blocked (input output u status)
    (hl : bufferTransferLoop env d env.fuel {} {} w = .ok (some (input, output)) u)
    (he : (input.isEof || output.isEof) = false)
    (hs : status = if input.result = .wouldBlock ∧ u.buf d = [] then d.fillStatus else d.drainStatus) :
    TransferEnd env d w status (u.transferred env input output)

/- A status that is not an end of stream or an error. -/
theorem Direction.status_blocks (d : Direction) (c : Prop) [Decidable c] :
    (if c then d.fillStatus else d.drainStatus) ≠ .error ∧ (if c then d.fillStatus else d.drainStatus) ≠ .ready := by
  cases d <;> split <;> decide

theorem clientBufferTransfer_ok {w v : World σ} {d : Direction} {status : IoStatus} (hw : Fine env P w)
    (h : clientBufferTransfer env d w = .ok status v) : TransferEnd env d w status v := by
  unfold clientBufferTransfer at h
  rw [run_get_bind, hw.2] at h
  obtain ⟨r, u, hl, h⟩ := ok_bind h
  cases r with
  | none =>
    obtain ⟨_, t, ht, h⟩ := ok_bind h
    obtain ⟨rfl, rfl⟩ := ok_pure h
    obtain ⟨x, e, osError, -, rfl⟩ :=
      wp_ok (bufferTransferLoop_reached env.fuel w hw d {} {} (by simp) (by simp)) hl
    rw [wp_ok (clientSetStateFailed_spec env x e osError) ht]
    exact .failed _ _ hl rfl
  | some r =>
    obtain ⟨input, output⟩ := r
    have hend : ∀ t, t = u.transferred env input output → (do
        if input.isEof || output.isEof then
          clientSetStateInitial env
          pure .ready
        else if input.result = .wouldBlock && ((← get).buf d).length = 0 then pure d.fillStatus
        else pure d.drainStatus : Prog σ IoStatus) t = .ok status v → TransferEnd env d w status v := by
      intro t ht h
      have hb : t.buf d = u.buf d := by rw [ht, (transferred_sameBuffers u input output).buf]
      rcases ok_ite h with ⟨he, h⟩ | ⟨he, h⟩
      · obtain ⟨_, s, hs, h⟩ := ok_bind h
        obtain ⟨rfl, rfl⟩ := ok_pure h
        rw [ht] at hs
        exact .eof input output u s hl he hs
      · have he : (input.isEof || output.isEof) = false := by simpa using he
        rw [run_get_bind, hb] at h
        rcases ok_ite h with ⟨hc, h⟩ | ⟨hc, h⟩
        · obtain ⟨rfl, rfl⟩ := ok_pure h
          rw [ht]
          exact .blocked input output u _ hl he (if_pos (by simpa using hc)).symm
        · obtain ⟨rfl, rfl⟩ := ok_pure h
          rw [ht]
          exact .blocked input output u _ hl he (if_neg (by simpa using hc)).symm
    rcases ok_ite h with ⟨hs, h⟩ | ⟨hs, h⟩
    · rw [run_get_bind] at h
      apply hend (u.touched env)
      · rw [World.transferred, if_pos hs]
      · exact h
    · apply hend u
      · rw [World.transferred, if_neg hs]
      · exact h

/-! ### End of stream -/

/- The answers of the side that drains the buffer, in the loop of
   `client_buffer_transfer`. -/
def drainAnswers (env : Env σ) (d : Direction) : ℕ → Transfer → Transfer → World σ → List IoResult
  | 0, _, _, _ => []
  | fuel+1, input, output, w =>
    if input.available || output.available then
      match transferFill env d input w with
      | .ok (input, true) v =>
        match transferDrain env d output v with
        | .ok (output', true) u =>
          -- where the buffer is empty the wrapper is not called
          if output.available = true ∧ v.buf d ≠ [] then
            output'.result :: drainAnswers env d fuel input output' u
          else drainAnswers env d fuel input output' u
        | _ => []
      | _ => []
    else []

/- A side that was blocked is not tried again. -/
theorem drainAnswers_blocked {d : Direction} (fuel : ℕ) {input output input' output' : Transfer} {w v : World σ}
    (ho : output.available = true → output.result ≠ .wouldBlock)
    (h : bufferTransferLoop env d fuel input output w = .ok (some (input', output')) v) :
    output'.result = .wouldBlock ↔
      output.result = .wouldBlock ∨ .wouldBlock ∈ drainAnswers env d fuel input output w := by
  induction fuel generalizing w input output with
  | zero =>
    rcases ok_ite h with ⟨-, h⟩ | ⟨-, h⟩
    · cases h
    · cases h
      simp [drainAnswers]
  | succ fuel ih =>
    rcases ok_ite h with ⟨hc, h⟩ | ⟨hc, h⟩
    · obtain ⟨⟨i, ok⟩, u, hfill, h⟩ := ok_bind h
      cases ok with
      | false => cases h
      | true =>
        obtain ⟨⟨o, ok⟩, t, hdrain, h⟩ := ok_bind h
        cases ok with
        | false => cases h
        | true =>
          simp only [drainAnswers, if_pos hc, hfill, hdrain]
          rcases transferDrain_ok hdrain with ⟨ha, hne, m, x, -, hr, -, rfl⟩ | ⟨hn, -, rfl⟩
          · have hmoved : (output.moved m).available = true → (output.moved m).result ≠ .wouldBlock :=
              fun hav => (Transfer.moved_available output m hav).1.not_blocked.1
            have hout := ho ha
            rw [ih hmoved h, if_pos ⟨ha, hne⟩, List.mem_cons]
            tauto
          · rw [if_neg hn]
            exact ih (fun hav => by contradiction) h
    · cases h
      simp [drainAnswers, hc]

/- A consumer that is blocked takes nothing, as the decoder does. -/
def Env.WriteBlocks (env : Env σ) : Prop :=
  ∀ a bs, (env.write a bs).result = .wouldBlock → (env.write a bs).count = 0

theorem drainWrapper_blocks (hb : env.WriteBlocks) {w v : World σ} {d : Direction} {bs : List Byte} {m : Moved}
    (hn : bs ≠ []) (h : drainWrapper env d bs w = .ok m v) (hm : m.result = .wouldBlock) : m.count = 0 := by
  cases d with
  | input =>
    obtain ⟨r, u, hr, h⟩ := ok_bind h
    have ha := wp_ok (lmqttRxBufferDecode_answer w bs hn) hr
    cases h
    exact (ha.2 hm).1
  | output =>
    cases h
    exact hb w.app bs hm

theorem sides_blocks (hb : env.WriteBlocks) (d : Direction) :
    Sides env P d True (fun _ => True) fun _ => True :=
  ⟨fun _ _ _ _ _ _ => ⟨.inl trivial, fun _ => trivial, id⟩,
    fun _ _ _ _ _ hn h => ⟨fun hm => ⟨drainWrapper_blocks hb hn h hm, trivial⟩, id⟩, fun _ _ => ⟨id, id⟩⟩

/-- A transfer that ends because the side that fills the buffer is at the end of
its stream leaves an empty buffer behind exactly where the side that drains it
was not blocked. -/
theorem eof_drains_iff (hb : env.WriteBlocks) (w u v : World σ) (d : Direction) (input output : Transfer)
    (status : IoStatus) (hw : Reached env P w) (he : w.error = none)
    (hl : bufferTransferLoop env d env.fuel {} {} w = .ok (some (input, output)) u)
    (hi : input.isEof = true) (ho : output.isEof = false)
    (h : clientBufferTransfer env d w = .ok status v) :
    status = .ready ∧ (v.buf d = [] ↔ .wouldBlock ∉ drainAnswers env d env.fuel {} {} w) := by
  have hfine : Fine env P w := ⟨hw, he⟩
  obtain ⟨hu, hend⟩ := bufferTransferLoop_ended (sides_blocks hb d) env.fuel hfine (head_start (.inl trivial)) hl
  have hans := drainAnswers_blocked env.fuel (by simp) hl
  have hbuf : u.buf d = [] ↔ .wouldBlock ∉ drainAnswers env d env.fuel {} {} w := by
    rcases hend.drain with ⟨hblock, hne, -⟩ | heof | ⟨hf, hnil, -⟩
    · rw [hblock] at hans
      simp only [true_iff] at hans
      tauto
    · rw [ho] at heof
      contradiction
    · have hnot := hf.not_blocked.1
      tauto
  cases clientBufferTransfer_ok hfine h with
  | failed u' v hl' _ =>
    rw [hl] at hl'
    cases hl'
  | eof input' output' u' v hl' _ hinit =>
    rw [hl] at hl'
    cases hl'
    have hsame := (transferred_sameBuffers u input output).trans
      (clientSetStateInitial_sameBuffers (transferred_fine hu input output) hinit)
    exact ⟨rfl, by rwa [hsame.buf d]⟩
  | blocked input' output' u' _ hl' he' _ =>
    rw [hl] at hl'
    cases hl'
    rw [hi] at he'
    contradiction

/- The connection takes nothing any more. -/
def stuckEnv : Env Unit := { memoryEnv with write := fun a _ => ⟨a, .wouldBlock, 0, 0⟩ }

def disconnectActs : List (Act Unit) := connectKept ++ [.request .disconnect]

theorem disconnectRun_isSome : (runClient memoryEnv anyConnect ⟨8, 64, 64, 4⟩ smallHeap () disconnectActs).isSome =
    true := by decide +kernel

theorem stuckRun_isSome : (runClient stuckEnv anyConnect ⟨8, 64, 64, 4⟩ smallHeap () disconnectActs).isSome =
    true := by decide +kernel

/- A transfer in which only the encoder reaches the end of its stream. -/
def EncoderEnds (env : Env Unit) (w : World Unit) (out : List Byte) : Prop :=
  ∃ input output u v, bufferTransferLoop env .output env.fuel {} {} w = .ok (some (input, output)) u ∧
    input.isEof = true ∧ output.isEof = false ∧ clientBufferTransfer env .output w = .ok .ready v ∧
    v.buf .output = out

theorem encoderEnds_of_wp {env : Env Unit} {w : World Unit} {out : List Byte}
    (hl : Wp (bufferTransferLoop env .output env.fuel {} {}) w
      (fun r _ => r.any fun t => t.1.isEof && !t.2.isEof) fun _ _ => False)
    (h : Wp (clientBufferTransfer env .output) w (fun r v => r = .ready ∧ v.buf .output = out) fun _ _ => False) :
    EncoderEnds env w out := by
  obtain ⟨r, u, hr, hany⟩ := wp_exists hl
  obtain ⟨status, v, hv, rfl, hout⟩ := wp_exists h
  obtain ⟨⟨input, output⟩, rfl, he⟩ := (Option.any_eq_true ..).mp hany
  simp only [Bool.and_eq_true, Bool.not_eq_true'] at he
  exact ⟨input, output, u, v, hr, he.1, he.2, hv, hout⟩

/-- The DISCONNECT stays in the buffer, and the client is back in its initial
state. -/
theorem eof_discards : ∃ w : World Unit, Reached stuckEnv (fun _ => True) w ∧ w.error = none ∧
    stuckEnv.WriteBlocks ∧ EncoderEnds stuckEnv w [0xe0, 0] := by
  obtain ⟨w, hw, he, hl, h⟩ : ∃ w : World Unit, Reached stuckEnv (fun _ => True) w ∧ w.error = none ∧
      (Wp (bufferTransferLoop stuckEnv .output stuckEnv.fuel {} {}) w
        (fun r _ => r.any fun t => t.1.isEof && !t.2.isEof) fun _ _ => False) ∧
      Wp (clientBufferTransfer stuckEnv .output) w (fun r v => r = .ready ∧ v.buf .output = [0xe0, 0])
        fun _ _ => False :=
    ⟨_, reached_get anyConnect_true _ _ _ _ stuckRun_isSome, by decide +kernel⟩
  exact ⟨w, hw, he, fun _ _ _ => rfl, encoderEnds_of_wp hl h⟩

/- The DISCONNECT is written. -/
theorem eof_drains_memory : ∃ w : World Unit, Reached memoryEnv (fun _ => True) w ∧ EncoderEnds memoryEnv w [] ∧
    .wouldBlock ∉ drainAnswers memoryEnv .output memoryEnv.fuel {} {} w := by
  obtain ⟨w, hw, he, hl, h⟩ : ∃ w : World Unit, Reached memoryEnv (fun _ => True) w ∧ w.error = none ∧
      (Wp (bufferTransferLoop memoryEnv .output memoryEnv.fuel {} {}) w
        (fun r _ => r.any fun t => t.1.isEof && !t.2.isEof) fun _ _ => False) ∧
      Wp (clientBufferTransfer memoryEnv .output) w (fun r v => r = .ready ∧ v.buf .output = [])
        fun _ _ => False :=
    ⟨_, reached_get anyConnect_true _ _ _ _ disconnectRun_isSome, by decide +kernel⟩
  have hends := encoderEnds_of_wp hl h
  obtain ⟨input, output, u, v, hloop, hi, ho, hv, hout⟩ := hends
  have hb : memoryEnv.WriteBlocks := fun _ _ h => by cases h
  exact ⟨w, hw, ⟨input, output, u, v, hloop, hi, ho, hv, hout⟩,
    (eof_drains_iff hb w u v .output input output .ready hw he hloop hi ho hv).2.mp hout⟩

end LightMqtt
