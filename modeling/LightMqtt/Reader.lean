import LightMqtt.HeaderCodec
import LightMqtt.Receive

/-!
# Reading a packet

The rule for what is left of a packet: if each turn of the decoder takes some of
it or fails, then so do calls of the decoder, in whatever pieces the packet
arrives, and none of them goes behind its last byte.
-/

namespace LightMqtt

open Exec

variable {σ : Type} {env : Env σ}

/- A turn behind the fixed header. -/
theorem rxBufferDecodeTurn_body {v : World σ} {d : Decoder} (hf : v.rx.internal.headerFinished = true)
    (hd : v.rx.internal.decoder = some d) (bs : List Byte) :
    rxBufferDecodeTurn env bs v = rxBufferDecodeBodyTurn env d bs v := by
  rw [rxBufferDecodeTurn, run_get_bind]
  simp only [hf, hd]

theorem decodedBytes_error {u : World σ} (he : u.rx.internal.error.isSome = true) (n : ℕ) :
    rxBufferDecodedBytes env .error n u = .ok (.failed 0) u := by
  have hwp : Wp (rxBufferDecodedBytes env .error n) u (fun t v => t = .failed 0 ∧ v = u) fun _ _ => False := by
    simp only [rxBufferDecodedBytes, wp_bind, wp_get, wp_assert, he]
    rw [if_pos (Bool.or_true _)]
    exact ⟨rfl, rfl⟩
  obtain ⟨t, v, hrun, rfl, rfl⟩ := wp_exists hwp
  exact hrun

/- In the middle of a packet. -/
theorem decodedBytes_continue {u : World σ} {k : ℕ}
    (hmore : u.rx.internal.remainBufPos + k < u.rx.internal.header.remainingLength) :
    rxBufferDecodedBytes env .continue k u = .ok (.read k) (u.advance k) := by
  have hopen : rxBufferIsPacketFinished (u.advance k).rx.internal = false := by
    unfold rxBufferIsPacketFinished
    rw [Bool.and_eq_false_iff]
    exact .inr (decide_eq_false (Nat.not_le.mpr hmore))
  have hwp : Wp (rxBufferDecodedBytes env .continue k) u (fun t v => t = .read k ∧ v = u.advance k) fun _ _ => False := by
    simp only [rxBufferDecodedBytes, wp_bind, wp_modify, rxBufferEndTurn, wp_get, hopen]
    cases (u.advance k).rx.internal.decoder <;> exact ⟨rfl, rfl⟩
  obtain ⟨t, v, hrun, rfl, rfl⟩ := wp_exists hwp
  exact hrun

/-- `I rest v` says that `rest` is left of a packet in the state `v`, and `E` what an error
leaves. A turn that is offered the last byte does not look behind it. -/
structure Reader (env : Env σ) (I : List Byte → World σ → Prop) (E : World σ → Prop) : Prop where
  idle : ∀ {rest v}, I rest v → v.rx.internal.error = none ∧ v.rx.internal.blockingStr = none
  failed : ∀ {v}, E v → v.rx.internal.error.isSome = true
  turn : ∀ {bs more v}, bs ≠ [] → I (bs ++ more) v → Wp (rxBufferDecodeTurn env bs) v
    (fun t u => (∃ k, t = .read k ∧ 0 < k ∧ k ≤ bs.length ∧ I ((bs ++ more).drop k) u) ∨
      ∃ k, t = .failed k ∧ k ≤ bs.length ∧ E u) fun _ _ => False
  past : ∀ {bs v} more, bs ≠ [] → I bs v → rxBufferDecodeTurn env (bs ++ more) v = rxBufferDecodeTurn env bs v

namespace Reader
variable {I : List Byte → World σ → Prop} {E : World σ → Prop} {bs more : List Byte} {v : World σ}

theorem exit (h : Reader env I E) (fuel count : ℕ) (hv : I more v) :
    rxBufferDecodeLoop env count fuel [] count v = .ok (.success, count) v := by
  have hsame : v.setRx { v.rx.internal with blockingStr := none } = v := by
    rw [← (h.idle hv).2]
    rfl
  unfold rxBufferDecodeLoop rxBufferExit
  by_cases h0 : 0 < count
  · rw [if_pos h0]
    exact congrArg (EStateM.Result.ok (IoResult.success, count)) hsame
  · rw [if_neg h0, if_pos (by omega)]
    rfl

/-- The loop takes all bytes it is offered, or fails. -/
theorem loop (h : Reader env I E) (fuel count : ℕ) (bs : List Byte) (v : World σ) (hv : I (bs ++ more) v)
    (hf : bs.length ≤ fuel) :
    Wp (rxBufferDecodeLoop env (count + bs.length) fuel bs count) v
      (fun r u => r = (.success, count + bs.length) ∧ I more u ∨ r.1 = .error ∧ r.2 ≤ count + bs.length ∧ E u)
      fun _ _ => False := by
  induction fuel generalizing bs count v with
  | zero =>
    have hnil : bs = [] := List.eq_nil_of_length_eq_zero (by omega)
    subst hnil
    unfold Wp
    rw [List.length_nil, Nat.add_zero, h.exit 0 count hv]
    exact .inl ⟨rfl, hv⟩
  | succ fuel ih =>
    cases bs with
    | nil =>
      unfold Wp
      rw [List.length_nil, Nat.add_zero, h.exit (fuel + 1) count hv]
      exact .inl ⟨rfl, hv⟩
    | cons c bs =>
      simp only [rxBufferDecodeLoop, wp_bind]
      refine (h.turn (List.cons_ne_nil c bs) hv).mono (fun t u hu => ?_) fun _ _ h => h
      rcases hu with ⟨k, rfl, hk, hle, hu⟩ | ⟨k, rfl, hle, hu⟩
      · rw [List.drop_append_of_le_length hle] at hu
        have hdrop : ((c :: bs).drop k).length = (c :: bs).length - k := List.length_drop
        have hcount : count + (c :: bs).length = count + k + ((c :: bs).drop k).length := by omega
        rw [hcount]
        exact ih (count + k) ((c :: bs).drop k) u hu (by omega)
      · exact .inr ⟨rfl, by dsimp only; omega, hu⟩

theorem call_loop (h : Reader env I E) {rest : List Byte} (hv : I rest v) (bs : List Byte) :
    lmqttRxBufferDecode env bs v = rxBufferDecodeLoop env bs.length env.fuel bs 0 v := by
  change (if v.rx.internal.error.isSome = true then _ else _ : Prog σ (IoResult × ℕ)) v = _
  rw [(h.idle hv).1]
  rfl

/-- A call takes all bytes it is offered, or fails. -/
theorem call (h : Reader env I E) (bs : List Byte) (v : World σ) (hv : I (bs ++ more) v) (hf : bs.length ≤ env.fuel) :
    Wp (lmqttRxBufferDecode env bs) v (fun r u => r = (.success, bs.length) ∧ I more u ∨ r.1 = .error ∧ E u)
      fun _ _ => False := by
  have hloop := h.loop env.fuel 0 bs v hv hf
  rw [Nat.zero_add] at hloop
  unfold Wp
  rw [h.call_loop hv bs]
  exact hloop.mono (fun r u hu => hu.imp_right fun hu => ⟨hu.1, hu.2.2⟩) fun _ _ h => h

/- What failed stays so. -/
theorem failed_calls (h : Reader env I E) (pieces : List (List Byte)) (v : World σ) (hv : E v) :
    Wp (pieces.mapM (lmqttRxBufferDecode env)) v (fun _ u => u = v) fun _ _ => False := by
  induction pieces with
  | nil => rfl
  | cons p pieces ih =>
    rw [List.mapM_cons]
    simp only [wp_bind, lmqttRxBufferDecode, wp_get, h.failed hv, if_true, wp_pure]
    exact ih.mono (fun _ _ h => h) fun _ _ h => h

/-- Calls take the packet in whatever pieces it arrives, or one of them fails. -/
theorem calls (h : Reader env I E) (pieces : List (List Byte)) (v : World σ) (hv : I (pieces.flatten ++ more) v)
    (hf : pieces.flatten.length ≤ env.fuel) :
    Wp (pieces.mapM (lmqttRxBufferDecode env)) v
      (fun rs u => rs = pieces.map (fun p => (.success, p.length)) ∧ I more u ∨ (∃ r ∈ rs, r.1 = .error) ∧ E u)
      fun _ _ => False := by
  induction pieces generalizing v with
  | nil => exact .inl ⟨rfl, hv⟩
  | cons p pieces ih =>
    rw [List.mapM_cons]
    rw [List.flatten_cons, List.append_assoc] at hv
    rw [List.flatten_cons, List.length_append] at hf
    simp only [wp_bind]
    refine (h.call p v hv (by omega)).mono (fun r u hu => ?_) fun _ _ h => h
    rcases hu with ⟨rfl, hu⟩ | ⟨hr, hu⟩
    · refine (ih u hu (by omega)).mono (fun rs x hx => ?_) fun _ _ h => h
      rcases hx with ⟨rfl, hx⟩ | ⟨⟨r, hin, hr⟩, hx⟩
      · exact .inl ⟨rfl, hx⟩
      · exact .inr ⟨⟨r, List.mem_cons_of_mem _ hin, hr⟩, hx⟩
    · refine (h.failed_calls pieces u hu).mono (fun rs x hx => ?_) fun _ _ h => h
      subst hx
      exact .inr ⟨⟨r, List.mem_cons_self .., hr⟩, hu⟩

/-- Behind the last byte the loop goes on with what is not part of the packet. -/
theorem loop_past (h : Reader env I E) (bufLen fuel count : ℕ) (bs more : List Byte) (v : World σ) (hv : I bs v)
    (hf : bs.length ≤ fuel) :
    (∃ fuel' u, fuel ≤ fuel' + bs.length ∧ I [] u ∧ rxBufferDecodeLoop env bufLen fuel (bs ++ more) count v =
      rxBufferDecodeLoop env bufLen fuel' more (count + bs.length) u) ∨
    ∃ n u, n ≤ count + bs.length ∧ E u ∧ rxBufferDecodeLoop env bufLen fuel (bs ++ more) count v = .ok (.error, n) u := by
  induction fuel generalizing bs count v with
  | zero =>
    have hnil : bs = [] := List.eq_nil_of_length_eq_zero (by omega)
    subst hnil
    exact .inl ⟨0, v, le_rfl, hv, rfl⟩
  | succ fuel ih =>
    cases bs with
    | nil => exact .inl ⟨fuel + 1, v, le_rfl, hv, rfl⟩
    | cons c bs =>
      have hoffered : I (c :: bs ++ []) v := by rwa [List.append_nil]
      have hturn := h.turn (List.cons_ne_nil c bs) hoffered
      obtain ⟨t, u, hrun, hu⟩ := wp_exists hturn
      rw [← h.past more (List.cons_ne_nil c bs) hv] at hrun
      rw [List.append_nil] at hu
      rcases hu with ⟨k, rfl, hk, hle, hu⟩ | ⟨k, rfl, hle, hu⟩
      · have hdrop : ((c :: bs).drop k).length = (c :: bs).length - k := List.length_drop
        have hstep : rxBufferDecodeLoop env bufLen (fuel + 1) (c :: bs ++ more) count v =
            rxBufferDecodeLoop env bufLen fuel ((c :: bs).drop k ++ more) (count + k) u := by
          rw [← List.drop_append_of_le_length hle]
          change EStateM.bind (rxBufferDecodeTurn env (c :: bs ++ more)) _ v = _
          unfold EStateM.bind
          rw [hrun]
        have hcount : count + k + ((c :: bs).drop k).length = count + (c :: bs).length := by omega
        rw [hstep, ← hcount]
        rcases ih (count + k) ((c :: bs).drop k) u hu (by omega) with ⟨fuel', x, hfuel, hx, hgo⟩ | hbad
        · exact .inl ⟨fuel', x, by omega, hx, hgo⟩
        · exact .inr hbad
      · refine .inr ⟨count + k, u, by omega, hu, ?_⟩
        change EStateM.bind (rxBufferDecodeTurn env (c :: bs ++ more)) _ v = _
        unfold EStateM.bind
        rw [hrun]
        rfl

/- Which of some readers goes on is open until then. -/
theorem some {α : Type} {P : α → Prop} {J : α → List Byte → World σ → Prop} (h : ∀ a, P a → Reader env (J a) E)
    (he : ∀ {v}, E v → v.rx.internal.error.isSome = true) : Reader env (fun rest v => ∃ a, P a ∧ J a rest v) E := by
  refine ⟨fun {rest v} hv => ?_, he, fun {bs more v} hb hv => ?_, fun {bs v} more hb hv => ?_⟩
  · obtain ⟨a, ha, hv⟩ := hv
    exact (h a ha).idle hv
  · obtain ⟨a, ha, hv⟩ := hv
    refine ((h a ha).turn hb hv).mono (fun t u hu => ?_) fun _ _ h => h
    refine hu.imp_left fun hu => ?_
    obtain ⟨k, rfl, hk, hle, hu⟩ := hu
    exact ⟨k, rfl, hk, hle, a, ha, hu⟩
  · obtain ⟨a, ha, hv⟩ := hv
    exact (h a ha).past more hb hv

end Reader

/-! ### The fixed header -/

/-- The fixed header of a packet with the first byte `first` and `n` bytes behind it. -/
structure FixedHeader.Announces (h : FixedHeader) (first : Byte) (n : ℕ) : Prop where
  type : h.type = firstType first
  dup : h.dup = firstDup first
  qos : h.qos = firstQos first
  retain : h.retain = firstRetain first
  length : h.remainingLength = n
  error : h.error = none

section Header
variable {pre post : List Byte} {b first : Byte} {n : ℕ}

theorem fixedHeaderFeed_snoc (h : FixedHeader) (bs : List Byte) (b : Byte) :
    fixedHeaderFeed h (bs ++ [b]) = (fixedHeaderDecode (fixedHeaderFeed h bs) b).1 := by
  induction bs generalizing h with
  | nil => rfl
  | cons c bs ih => exact ih _

theorem fixedHeaderDecode_silent {h : FixedHeader} (hne : (fixedHeaderDecode h b).2.1 ≠ .error) :
    (fixedHeaderDecode h b).2.2 = none := by
  revert hne
  unfold fixedHeaderDecode
  dsimp only
  repeat' split
  all_goals
    intro hne
    first | rfl | exact absurd rfl hne

/- In the middle of a fixed header. -/
theorem fixedHeaderDecode_inside (hh : IsFixedHeader (pre ++ b :: post) first n) (hp : post ≠ []) :
    fixedHeaderDecode (fixedHeaderFeed {} pre) b = (fixedHeaderFeed {} (pre ++ [b]), .continue, none) := by
  have hsplit : pre ++ b :: post = pre ++ [b] ++ post := by simp
  rw [hsplit] at hh
  have hr := headerRead_feed pre b
  rw [← fixedHeaderFeed_snoc] at hr
  have hres : (fixedHeaderDecode (fixedHeaderFeed {} pre) b).2.1 = .continue := by
    generalize (fixedHeaderDecode (fixedHeaderFeed {} pre) b).2.1 = res at hr ⊢
    generalize fixedHeaderFeed {} (pre ++ [b]) = h at hr
    generalize pre ++ [b] = bytes at hr hh
    cases hr with
    | nothing => rfl
    | length x ds hfirst ho hlen => rfl
    | finished x ds d hfirst hd hlen =>
      obtain ⟨c, post, rfl⟩ := List.exists_cons_of_ne_nil hp
      exact absurd hh (not_isFixedHeader_of_ended hd.last c post first n)
    | failed bs h e he hno => exact absurd hh (hno post first n)
  have hsilent := fixedHeaderDecode_silent (h := fixedHeaderFeed {} pre) (b := b) (by rw [hres]; decide)
  rw [fixedHeaderFeed_snoc]
  exact Prod.ext rfl (Prod.ext hres hsilent)

/- At its last byte. -/
theorem fixedHeaderDecode_end (hh : IsFixedHeader (pre ++ [b]) first n) :
    ∃ h, fixedHeaderDecode (fixedHeaderFeed {} pre) b = (h, .finished, none) ∧ h.Announces first n := by
  have hr := headerRead_feed pre b
  have hres : (fixedHeaderDecode (fixedHeaderFeed {} pre) b).2.1 = .finished ∧
      (fixedHeaderDecode (fixedHeaderFeed {} pre) b).1.Announces first n := by
    generalize (fixedHeaderDecode (fixedHeaderFeed {} pre) b).2.1 = res at hr ⊢
    generalize (fixedHeaderDecode (fixedHeaderFeed {} pre) b).1 = h at hr ⊢
    generalize hbytes : pre ++ [b] = bytes at hr hh
    cases hr with
    | nothing => simp at hbytes
    | length x ds hfirst ho hlen => exact absurd hh (not_isFixedHeader_of_open ho first n)
    | finished x ds d hfirst hd hlen =>
      have hx : x = first := (List.cons.inj hh.bytes).1
      subst hx
      exact ⟨rfl, rfl, rfl, rfl, rfl, hh.value_eq, rfl⟩
    | failed bs h e he hno =>
      have hnil := hno [] first n
      rw [List.append_nil] at hnil
      exact absurd hh hnil
  have hsilent := fixedHeaderDecode_silent (h := fixedHeaderFeed {} pre) (b := b) (by rw [hres.1]; decide)
  exact ⟨_, Prod.ext rfl (Prod.ext hres.1 hsilent), hres.2⟩

/-- The decoder before the end of a fixed header, of which it has read `pre`. -/
def World.inHeader (w : World σ) (pre : List Byte) : World σ := w.setRx { header := fixedHeaderFeed {} pre }

/-- The decoder behind a fixed header, before the body of its packet. -/
def World.atBody (w : World σ) (h : FixedHeader) (d : Decoder) : World σ :=
  w.setRx { header := h, headerFinished := true, decoder := some d }

/- What follows the last byte of a fixed header. -/
theorem headerTurn_end {w : World σ} {g h : FixedHeader} {d : Decoder} {Q : Turn → World σ → Prop} {E : Halt → World σ → Prop}
    (hdec : fixedHeaderDecode g b = (h, .finished, none)) (hd : rxBufferDecoders h.type = some d) :
    Wp (rxBufferDecodeHeaderTurn env b) (w.setRx { header := g }) Q E ↔
      Wp (if h.remainingLength < d.minLength then do
          rxBufferFail .decodeResponseTooShort 0
          pure (.failed 1)
        else do
          if ← popPacket d d.popPacketWithoutId then rxBufferEndTurn env 1
          else
            assert env (← get).rx.internal.error.isSome
            pure (.failed 1)) (w.atBody h d) Q E := by
  generalize hv : w.setRx { header := g } = v
  have hi : v.rx.internal = { header := g } := by
    rw [← hv]
    rfl
  have hbody : v.setRx { header := h, headerFinished := true, decoder := some d } = w.atBody h d := by
    rw [← hv]
    rfl
  rw [← hbody]
  simp only [rxBufferDecodeHeaderTurn, wp_bind, wp_get, hi, hdec, wp_set, wp_modify, hd]
  rfl

/-- What is left of a packet: some of its fixed header `head` and all of its body, or what `J`
says of the body. -/
inductive Whole (w : World σ) (head body : List Byte) (J : List Byte → World σ → Prop) : List Byte → World σ → Prop
  | header (pre post : List Byte) (hh : pre ++ post = head) (hp : post ≠ []) :
    Whole w head body J (post ++ body) (w.inHeader pre)
  | body (rest : List Byte) (v : World σ) (hv : J rest v) : Whole w head body J rest v

theorem Whole.start {w : World σ} {head body : List Byte} {J : List Byte → World σ → Prop} (hw : w.rx.internal = {})
    (hh : head ≠ []) : Whole w head body J (head ++ body) w := by
  have hsame : w.inHeader [] = w := by
    unfold World.inHeader fixedHeaderFeed
    rw [← hw]
    rfl
  have h : Whole w head body J (head ++ body) (w.inHeader []) := .header [] head rfl hh
  rwa [hsame] at h

theorem Whole.ended {w v : World σ} {head body : List Byte} {J : List Byte → World σ → Prop} (h : Whole w head body J [] v) :
    J [] v := by
  generalize hrest : ([] : List Byte) = rest at h
  cases h with
  | header pre post hh hp => exact absurd (List.append_eq_nil_iff.mp hrest.symm).1 hp
  | body rest v hv => exact hv

/-- A packet is read if its body is, and the last byte of its fixed header leads to it. -/
theorem Reader.packet {head : List Byte} {J : List Byte → World σ → Prop} {E : World σ → Prop}
    (hj : Reader env J E) (w : World σ) (body : List Byte) (hh : IsFixedHeader head first n)
    (hend : ∀ g b h, fixedHeaderDecode g b = (h, .finished, none) → h.Announces first n →
      Wp (rxBufferDecodeHeaderTurn env b) (w.setRx { header := g })
        (fun t u => t = .read 1 ∧ J body u ∨ t = .failed 1 ∧ E u) fun _ _ => False) :
    Reader env (Whole w head body J) E := by
  refine ⟨fun {rest v} hv => ?_, hj.failed, fun {bs more v} hb hv => ?_, fun {bs v} more hb hv => ?_⟩
  · cases hv with
    | header pre post _ hp => exact ⟨rfl, rfl⟩
    | body rest v hv => exact hj.idle hv
  · have hlen := List.length_pos_iff.mpr hb
    generalize hrest : bs ++ more = rest at hv
    cases hv with
    | header pre post hsplit hp =>
      obtain ⟨c, post, rfl⟩ := List.exists_cons_of_ne_nil hp
      have hbyte : bs.headD 0 = c := by
        rw [headD_append hb more, hrest]
        rfl
      rw [← hsplit] at hh
      change Wp (rxBufferDecodeHeaderTurn env (bs.headD 0)) (w.inHeader pre) _ _
      rw [hbyte]
      by_cases hpost : post = []
      · subst hpost
        obtain ⟨h, hdec, hann⟩ := fixedHeaderDecode_end hh
        refine (hend _ c h hdec hann).mono (fun t u hu => ?_) fun _ _ h => h
        rcases hu with ⟨rfl, hu⟩ | ⟨rfl, hu⟩
        · exact .inl ⟨1, rfl, Nat.one_pos, hlen, .body body u hu⟩
        · exact .inr ⟨1, rfl, hlen, hu⟩
      · have hdec := fixedHeaderDecode_inside hh hpost
        refine (headerTurn_continues (w.inHeader pre) c _ _ rfl hdec).mono (fun t u hu => ?_) fun _ _ h => h
        obtain ⟨rfl, rfl⟩ := hu
        exact .inl ⟨1, rfl, Nat.one_pos, hlen, .header (pre ++ [c]) post (by rw [← hsplit]; simp) hpost⟩
    | body rest v hv =>
      subst hrest
      refine (hj.turn hb hv).mono (fun t u hu => ?_) fun _ _ h => h
      refine hu.imp_left fun hu => ?_
      obtain ⟨k, rfl, hk, hle, hu⟩ := hu
      exact ⟨k, rfl, hk, hle, .body _ u hu⟩
  · cases hv with
    | header pre post hsplit hp =>
      change rxBufferDecodeHeaderTurn env ((post ++ body ++ more).headD 0) _ =
        rxBufferDecodeHeaderTurn env ((post ++ body).headD 0) _
      rw [headD_append hb more]
    | body rest v hv => exact hj.past more hb hv

end Header

/-! ### Packets that are taken or refused -/

/-- The decoder takes a packet in whatever pieces it arrives and comes to a state `D`, and goes on
with what is behind the packet. -/
structure World.TakesPacket (env : Env σ) (w : World σ) (packet : List Byte) (D : World σ → Prop) : Prop where
  calls : ∀ pieces : List (List Byte), pieces.flatten = packet → ∃ v,
    pieces.mapM (lmqttRxBufferDecode env) w = .ok (pieces.map fun p => (.success, p.length)) v ∧ D v
  past : ∀ (pieces : List (List Byte)) (last more : List Byte), last ≠ [] → pieces.flatten ++ last = packet →
    ∃ rs v fuel u, pieces.mapM (lmqttRxBufferDecode env) w = .ok rs v ∧ D u ∧
      lmqttRxBufferDecode env (last ++ more) v = rxBufferDecodeLoop env (last ++ more).length fuel more last.length u

/-- The decoder refuses a packet before it has read all of it, in whatever pieces it arrives, and is left in
a state `E`. -/
structure World.RefusesPacket (env : Env σ) (w : World σ) (packet : List Byte) (E : World σ → Prop) : Prop where
  calls : ∀ pieces : List (List Byte), pieces.flatten = packet → ∃ rs v,
    pieces.mapM (lmqttRxBufferDecode env) w = .ok rs v ∧ (∃ r ∈ rs, r.1 = .error) ∧ E v
  past : ∀ (pieces : List (List Byte)) (last more : List Byte), last ≠ [] → pieces.flatten ++ last = packet →
    ∃ rs v, pieces.mapM (lmqttRxBufferDecode env) w = .ok rs v ∧ ((∃ r ∈ rs, r.1 = .error) ∧ E v ∨
      ∃ n u, n ≤ last.length ∧ lmqttRxBufferDecode env (last ++ more) v = .ok (.error, n) u ∧ E u)

section Calls
variable {I : List Byte → World σ → Prop} {E : World σ → Prop} {w : World σ} {packet : List Byte}

theorem Reader.takes (h : Reader env I fun _ => False) (hw : I packet w) (hf : packet.length ≤ env.fuel) :
    w.TakesPacket env packet (I []) := by
  refine ⟨fun pieces hp => ?_, fun pieces last more hl hp => ?_⟩
  · subst hp
    have hall : I (pieces.flatten ++ []) w := by rwa [List.append_nil]
    have hcalls := h.calls pieces w hall hf
    obtain ⟨rs, v, hrun, ⟨rfl, hv⟩ | ⟨-, hno⟩⟩ := wp_exists hcalls
    · exact ⟨v, hrun, hv⟩
    · exact hno.elim
  · subst hp
    rw [List.length_append] at hf
    obtain ⟨rs, v, hrun, ⟨-, hv⟩ | ⟨-, hno⟩⟩ := wp_exists (h.calls pieces w hw (by omega))
    · have hcall := h.call_loop hv (last ++ more)
      rcases h.loop_past (last ++ more).length env.fuel 0 last more v hv (by omega) with
        ⟨fuel, u, -, hu, hgo⟩ | ⟨_, _, _, hno, _⟩
      · rw [Nat.zero_add] at hgo
        exact ⟨rs, v, fuel, u, hrun, hu, hcall.trans hgo⟩
      · exact hno.elim
    · exact hno.elim

theorem Reader.refuses (h : Reader env I E) (hno : ∀ v, ¬ I [] v) (hw : I packet w) (hf : packet.length ≤ env.fuel) :
    w.RefusesPacket env packet E := by
  refine ⟨fun pieces hp => ?_, fun pieces last more hl hp => ?_⟩
  · subst hp
    have hall : I (pieces.flatten ++ []) w := by rwa [List.append_nil]
    have hcalls := h.calls pieces w hall hf
    obtain ⟨rs, v, hrun, ⟨-, hv⟩ | hv⟩ := wp_exists hcalls
    · exact absurd hv (hno v)
    · exact ⟨rs, v, hrun, hv⟩
  · subst hp
    rw [List.length_append] at hf
    obtain ⟨rs, v, hrun, ⟨-, hv⟩ | hv⟩ := wp_exists (h.calls pieces w hw (by omega))
    · have hcall := h.call_loop hv (last ++ more)
      rcases h.loop_past (last ++ more).length env.fuel 0 last more v hv (by omega) with ⟨_, u, _, hu, _⟩ | ⟨n, u, hn, hu, hgo⟩
      · exact absurd hu (hno u)
      · exact ⟨rs, v, hrun, .inr ⟨n, u, by omega, hcall.trans hgo, hu⟩⟩
    · exact ⟨rs, v, hrun, .inl hv⟩

end Calls

end LightMqtt
