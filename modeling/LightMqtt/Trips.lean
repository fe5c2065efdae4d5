import LightMqtt.Asserts
import LightMqtt.Termination

/-!
# What trips an assertion

The other decoders, turn by turn; the two failures are failures indeed; and,
over every run of a client, a call of `lmqtt_rx_buffer_decode` fails an
assertion if and only if one of its turns meets the one or the other.
-/

namespace LightMqtt

open Exec

variable {σ : Type} {env : Env σ}

/- A turn that leaves the decoder poised unless it fails, and trips no assertion
   unless `T` says so. -/
abbrev TurnPoised (env : Env σ) (w : World σ) (T : Prop) (p : Prog σ Turn) : Prop :=
  Wp p w (fun _ u => u.rx.internal.error = none → u.Poised env) fun x _ => x = .outOfFuel ∨ T

section Turn
variable {w : World σ} {bs : List Byte} {T : Prop}

/-! ### Requests of a packet -/

/-- What taking a request from the store leaves. -/
structure RequestTaken (d : Decoder) (w : World σ) (v : World σ) : Prop where
  rx : v.rx.internal = { w.rx.internal with value := v.rx.internal.value }
  heap : v.heap = w.heap
  kind : ∃ k, d.kind = some k ∧ v.rx.internal.value.callback = k.callback
  room : v.rxStore.count < v.rxStore.capacity

theorem rxBufferPopPacket_taken (hw : Typed w) (d : Decoder) (id : PacketId) :
    Wp (rxBufferPopPacket d id) w (fun ok v => if ok then RequestTaken d w v else v.rx.internal.error.isSome = true) fun _ _ =>
        False := by
  simp only [rxBufferPopPacket, wp_bind, wp_get]
  split
  · rename_i e s h
    simp only [wp_bind, wp_set, wp_emit, wp_pure]
    obtain ⟨k, hk, hpop⟩ := Option.bind_eq_some_iff.mp h
    obtain ⟨hkind, htyped, -⟩ := hw.popped hpop
    obtain ⟨pre, post, hrem, -⟩ := Store.popMarkedBy_spec _ _ _ _ _ hpop
    refine ⟨?_, ?_, ⟨k, hk, ?_⟩, ?_⟩
    · cases hr : w.rx.store <;> rfl
    · cases hr : w.rx.store <;> rfl
    · rw [← hkind]
      exact htyped.callback
    · have hself : (((w.setStore w.rx.store s).setRx { w.rx.internal with value := e.value }).emit
          (.popped e.kind id e.value.req)).rxStore = s := by
        cases hr : w.rx.store <;> simp [World.rxStore, World.setStore, World.setRx, World.emit, World.store, hr]
      rw [hself]
      exact hrem.room
  · rfl

/- Behind a failure there is nothing to keep. -/
theorem turnPoised_failed (h : w.rx.internal.error.isSome = true) (n : ℕ) :
    TurnPoised env w T (rxBufferDecodedBytes env .error n) := by
  unfold TurnPoised Wp
  rw [decodedBytes_error h]
  intro hn
  rw [hn] at h
  contradiction

/- The header of a packet is read, and no byte behind the packet id of a SUBACK. -/
theorem World.Poised.other (hf : ∃ bs res, HeaderRead bs w.rx.internal.header res ∧ res ≠ .error)
    (hn : w.rx.internal.inPublish = false ∨ w.rx.internal.remainBufPos = 0) (hb : w.rx.internal.blockingStr = none)
    (hs : w.rx.internal.decoder = some rxBufferDecoderSuback → 2 < w.rx.internal.remainBufPos →
      (w.heap.subscribes w.rx.internal.value.value).count + 2 = w.rx.internal.header.remainingLength) : w.Poised env := by
  constructor
  · exact hf
  · intro hp h2
    rcases hn with hn | hn
    · rw [hn] at hp
      contradiction
    · omega
  · intro hp _ p hplace hlt
    rcases hn with hn | hn
    · rw [hn] at hp
      contradiction
    · omega
  · intro hsome
    rw [hb] at hsome
    contradiction
  · exact hs

/-! ### Turns outside of a message -/

/- The table: a packet that is complete with its header is a PINGRESP. -/
theorem rxBufferDecoders_empty (type : ℕ) (d : Decoder) (h : rxBufferDecoders type = some d) (hd : d.minLength = 0) :
    d = rxBufferDecoderPingresp := by
  unfold rxBufferDecoders at h
  split at h <;> cases h <;> first | rfl | exact absurd hd (by decide)

/- Behind the fixed header a request was taken, for a PINGRESP that of its PINGREQ. -/
theorem popPacket_withoutId (hw : Typed w) (d : Decoder) {type : ℕ} (hd : rxBufferDecoders type = some d) :
    Wp (popPacket d d.popPacketWithoutId) w (fun ok v => if ok then
      v.rx.internal = { w.rx.internal with value := v.rx.internal.value } ∧
        (d.minLength = 0 → v.rx.internal.value.callback = some .onPingresp)
      else v.rx.internal.error.isSome = true) fun _ _ => False := by
  rcases rxBufferDecoders_withoutId _ _ hd with ⟨hpop, -, -⟩ | ⟨hpop, hmin⟩
  · rw [hpop]
    refine (rxBufferPopPacket_taken hw d 0).mono (fun ok v hv => ?_) fun _ _ h => h
    cases ok with
    | false => exact hv
    | true =>
      obtain ⟨hrx, -, ⟨k, hk, hc⟩, -⟩ := hv
      refine ⟨hrx, fun hmin => ?_⟩
      rw [rxBufferDecoders_empty _ _ hd hmin] at hk
      cases hk
      exact hc
  · rw [hpop]
    exact ⟨rfl, fun h => by omega⟩

theorem headerTurn_poised (hw : Typed w) (hs : RxShape w.rx.internal) (hf : w.rx.internal.headerFinished = false)
    (he : w.rx.internal.error = none) (h : w.Poised env) (b : Byte) : TurnPoised env w T (rxBufferDecodeHeaderTurn env b) := by
  obtain ⟨read, res, hread, hres⟩ := h.fed
  have hfresh := hs.fresh hf
  have hnext := hread.next b
  have herr := fixedHeaderDecode_error w.rx.internal.header b
  obtain ⟨g, r, e, hdec⟩ : ∃ g r e, fixedHeaderDecode w.rx.internal.header b = (g, r, e) := ⟨_, _, _, rfl⟩
  rw [hdec] at hnext herr
  dsimp only at hnext herr
  rcases herr with ⟨rfl, hsome⟩ | rfl | rfl
  · simp only [TurnPoised, rxBufferDecodeHeaderTurn, wp_bind, wp_get, wp_set, hdec]
    intro hn
    change e = none at hn
    rw [hn] at hsome
    contradiction
  · have hbody : ∀ d, (w.setRx { w.rx.internal with header := g, headerFinished := true, decoder := d }).rx.internal =
        { header := g, headerFinished := true, decoder := d, error := none, osError := w.rx.internal.osError } := by
      intro d
      change ({ w.rx.internal with header := g, headerFinished := true, decoder := d } : RxInternal) = _
      rw [hfresh, he]
    simp only [TurnPoised, rxBufferDecodeHeaderTurn, wp_bind, wp_get, wp_set, hdec, wp_modify]
    cases hd : rxBufferDecoders g.type with
    | none =>
      intro hn
      contradiction
    | some d =>
      dsimp only
      change Wp _ (w.setRx { w.rx.internal with header := g, headerFinished := true, decoder := some d }) _ _
      have htyped : Typed (w.setRx { w.rx.internal with header := g, headerFinished := true, decoder := some d }) := by
        refine ⟨hw.entries, .inl ?_, hw.rxStore, hw.txStore, hw.connectable, hw.alive⟩
        rw [hbody]
      have hvi := hbody (some d)
      generalize w.setRx { w.rx.internal with header := g, headerFinished := true, decoder := some d } = v at htyped hvi ⊢
      refine wp_if (fun _ => fun hn => by contradiction) fun hlong => ?_
      refine (wp_bind ..).mpr ((popPacket_withoutId htyped d hd).mono (fun ok t ht => ?_) fun _ _ h => h.elim)
      cases ok with
      | false =>
        have hsome : t.rx.internal.error.isSome = true := ht
        rw [if_neg (by decide)]
        change Wp (assert env t.rx.internal.error.isSome >>= fun _ => pure (Turn.failed 1)) t _ _
        refine wp_assert_bind (fun _ hn => ?_) fun hn => by simp [hsome] at hn
        rw [hn] at hsome
        contradiction
      | true =>
        obtain ⟨hrx, hping⟩ := ht
        rw [hvi] at hrx
        have hdec : t.rx.internal.decoder = some d := by rw [hrx]
        refine (rxBufferEndTurn_calm env d 1 hdec (fun hdone => ?_) fun _ => ?_).mono (fun _ _ h => h) fun _ _ h => .inl h
        · -- a packet without a body
          have hmin : d.minLength = 0 := by
            rw [rxBufferIsPacketFinished, hrx, Bool.true_and, decide_eq_true_eq] at hdone
            change g.remainingLength ≤ 0 at hdone
            omega
          refine ⟨fun hk => ?_, fun _ _ => .inr (hping hmin)⟩
          rw [rxBufferDecoders_empty _ _ hd hmin] at hk
          contradiction
        · refine .other ⟨read ++ [b], .finished, ?_, by decide⟩ (.inr ?_) ?_ fun _ hpos => ?_
          · rw [hrx]
            exact hnext
          · rw [hrx]
          · rw [hrx]
          · rw [hrx] at hpos
            contradiction
  · simp only [TurnPoised, rxBufferDecodeHeaderTurn, wp_bind, wp_get, wp_set, hdec]
    refine fun _ => .other ⟨_, _, hnext, by decide⟩ (.inl ?_) ?_ fun hd => ?_
    · change (w.rx.internal.headerFinished && _) = false
      rw [hf]
      rfl
    · change w.rx.internal.blockingStr = none
      rw [hfresh]
    · change w.rx.internal.decoder = _ at hd
      rw [hfresh] at hd
      contradiction

/- The next byte of a packet that goes on, in a decoder that read its header. -/
theorem World.Poised.onward (h : w.Poised env) (d : Decoder) (hd : w.rx.internal.decoder = some d)
    (hn : d ≠ rxBufferDecoderPublish)
    {v : World σ} (hrx : v.rx.internal = { w.rx.internal with
      packetId := v.rx.internal.packetId, value := v.rx.internal.value, remainBufPos := v.rx.internal.remainBufPos })
    (hs : d = rxBufferDecoderSuback → 2 < v.rx.internal.remainBufPos →
      (v.heap.subscribes v.rx.internal.value.value).count + 2 = v.rx.internal.header.remainingLength) : v.Poised env := by
  have hvd : v.rx.internal.decoder = some d := by rw [hrx, hd]
  have hout : ∀ i : RxInternal, i.decoder = some d → i.inPublish = false := by
    intro i hi
    by_contra hp
    have hp := ((RxInternal.inPublish_iff i).mp (by simpa using hp)).2
    exact hn (Option.some.inj (hi.symm.trans hp))
  refine .other ?_ (.inl (hout _ hvd)) ?_ fun hd' => hs (Option.some.inj (hvd.symm.trans hd'))
  · rw [hrx]
    exact h.fed
  · rw [hrx]
    change w.rx.internal.blockingStr = none
    by_contra hb
    have hp := (h.blocked (Option.isSome_iff_ne_none.mpr hb)).1
    rw [hout _ hd] at hp
    contradiction

/- The rest of a packet whose decoder takes no bytes behind the packet id. -/
theorem bareTurn_poised (d : Decoder) (hd : d.decodeBytes = none) :
    Wp (rxBufferDecodeRemainingWithoutId env d bs) w (fun r v => TurnPoised env v T (rxBufferDecodedBytes env r.1 r.2))
      fun _ _ => False := by
  simp only [rxBufferDecodeRemainingWithoutId, rxBufferDecodeType, hd, wp_bind, wp_rxBufferFail, wp_get, wp_pure]
  refine wp_if (fun _ => ?_) fun hn => absurd trivial hn
  exact turnPoised_failed rfl 0

/-- What a decoder of bytes answers: it fails, it goes on before the end of the packet, or it is done; not at
the end of the packet only if `T`. -/
inductive Answered (env : Env σ) (T : Prop) (v : World σ) : DecodeResult × ℕ → Prop
  | failed {n : ℕ} (h : v.rx.internal.error.isSome = true) : Answered env T v (.error, n)
  | onward {n : ℕ} (h : v.rx.internal.remainBufPos + n < v.rx.internal.header.remainingLength)
    (hp : (v.advance n).Poised env) : Answered env T v (.continue, n)
  | ended {n : ℕ} {d : Decoder} (h : T ∨ v.rx.internal.remainBufPos + n = v.rx.internal.header.remainingLength)
    (hf : v.rx.internal.headerFinished = true) (hd : v.rx.internal.decoder = some d) (hk : d.kind ≠ some .publish2)
    (he : d.callbackError ≠ none) : Answered env T v (.finished, n)

theorem answeredTurn_poised (hnd : env.ndebug = false) (d : Decoder)
    (h : Wp (rxBufferDecodeType env d bs) w (fun r v => Answered env T v r) fun _ _ => False) :
    Wp (rxBufferDecodeRemainingWithoutId env d bs) w (fun r v => TurnPoised env v T (rxBufferDecodedBytes env r.1 r.2))
      fun x _ => x = .outOfFuel ∨ T := by
  simp only [rxBufferDecodeRemainingWithoutId, wp_bind, wp_get]
  refine h.mono (fun r v hr => ?_) fun _ _ h => h.elim
  cases hr with
  | failed hsome =>
    refine wp_if (fun _ => ?_) fun hn => absurd rfl hn
    exact turnPoised_failed hsome _
  | onward hmore hp =>
    refine wp_if (fun hn => by contradiction) fun _ => wp_assert_bind (fun _ => ?_) fun hn => by simp [hmore] at hn
    unfold TurnPoised Wp
    dsimp only [pure, EStateM.pure]
    rw [decodedBytes_continue hmore]
    exact fun _ => hp
  | @ended n d' hall hf hd hk he =>
    refine wp_if (fun hn => by contradiction) fun _ => wp_assert_bind (fun hok => ?_) fun hno => ?_
    · have hend : v.rx.internal.remainBufPos + n = v.rx.internal.header.remainingLength := by simpa [hnd] using hok
      have hdone : rxBufferIsPacketFinished (v.advance n).rx.internal = true := by
        simp [rxBufferIsPacketFinished, World.advance, World.setRx, hf, hend]
      simp only [TurnPoised, wp_pure, rxBufferDecodedBytes, wp_bind, wp_modify]
      have hturn := rxBufferEndTurn_calm env (w := v.advance n) d' n hd
      refine (hturn (fun _ => ⟨fun h => absurd h hk, fun _ h => absurd h he⟩) fun h => ?_).mono (fun _ _ h => h)
        fun _ _ h => .inl h
      rw [hdone] at h
      contradiction
    · rcases hall with hT | hend
      · exact .inr hT
      · simp [hend] at hno

theorem connackTurn_poised (hnd : env.ndebug = false) (hd : w.rx.internal.decoder = some rxBufferDecoderConnack)
    (hf : w.rx.internal.headerFinished = true) (hlong : 2 ≤ w.rx.internal.header.remainingLength) (hb : bs ≠ [])
    (h : w.Poised env) : TurnPoised env w (w.LongConnack bs) (rxBufferDecodeBodyTurn env rxBufferDecoderConnack bs) := by
  simp only [TurnPoised, rxBufferDecodeBodyTurn, wp_bind]
  refine answeredTurn_poised hnd rxBufferDecoderConnack ?_
  change Wp (rxBufferDecodeConnack env bs) w _ _
  simp only [rxBufferDecodeConnack]
  refine wp_assert_bind (fun _ => ?_) fun hn => absurd hn (by simp [hb])
  simp only [wp_bind, wp_get]
  split
  · rename_i hpos
    refine wp_if (fun _ => .failed rfl) fun _ => .onward ?_ ?_
    · change w.rx.internal.remainBufPos + 1 < w.rx.internal.header.remainingLength
      omega
    · exact h.onward _ hd (by decide) rfl fun h => absurd h (by decide)
  · rename_i hpos
    refine wp_if (fun _ => .failed rfl) fun _ => wp_if (fun _ => .failed rfl) fun hcode => ?_
    refine .ended ?_ hf hd (by decide) (by decide)
    rcases Nat.lt_or_ge 2 w.rx.internal.header.remainingLength with hlt | hge
    · exact .inl ⟨hf, hd, hpos, by simpa using hcode, hlt⟩
    · exact .inr (by omega)
  · exact .failed rfl

theorem Heap.modifySubscription_count (h : Heap) (p q : Ptr) (i : ℕ) (f : Subscription → Subscription) :
    ((h.modifySubscription p i f).subscribes q).count = (h.subscribes q).count := by
  unfold Heap.modifySubscription Heap.setSubscribe
  simp only [Function.update_apply]
  split
  · rename_i hq
    rw [hq]
  · rfl

theorem subackTurn_poised (hnd : env.ndebug = false) (hd : w.rx.internal.decoder = some rxBufferDecoderSuback)
    (hf : w.rx.internal.headerFinished = true) (hlong : w.rx.internal.Short)
      (h2 : 2 ≤ w.rx.internal.remainBufPos) (hb : bs ≠ [])
    (h : w.Poised env) : Wp (rxBufferDecodeRemainingWithoutId env rxBufferDecoderSuback bs) w
      (fun r v => TurnPoised env v T (rxBufferDecodedBytes env r.1 r.2)) fun x _ => x = .outOfFuel ∨ T := by
  refine answeredTurn_poised hnd rxBufferDecoderSuback ?_
  change Wp (rxBufferDecodeSuback env bs) w _ _
  simp only [rxBufferDecodeSuback]
  refine wp_assert_bind (fun _ => ?_) fun hn => absurd hn (by simp [hb])
  simp only [wp_bind, wp_get]
  refine wp_if (fun _ => .failed rfl) fun hcount => wp_if (fun _ => .failed rfl) fun _ => ?_
  simp only [wp_set, wp_bind, wp_pure]
  have hshort := hlong hf
  -- the count was compared at the first return code
  have hsame : (w.heap.subscribes w.rx.internal.value.value).count + 2 = w.rx.internal.header.remainingLength := by
    rcases Nat.lt_or_ge 2 w.rx.internal.remainBufPos with h3 | h3
    · exact h.suback hd h3
    · by_contra hne
      exact hcount ⟨by omega, by omega⟩
  split
  · refine .ended (.inr ?_) hf hd (by decide) (by decide)
    change w.rx.internal.remainBufPos + 1 = w.rx.internal.header.remainingLength
    omega
  · refine .onward ?_ ?_
    · change w.rx.internal.remainBufPos + 1 < w.rx.internal.header.remainingLength
      omega
    · refine h.onward _ hd (by decide) rfl fun _ _ => ?_
      change ((w.heap.modifySubscription _ _ _).subscribes w.rx.internal.value.value).count + 2 = _
      rw [Heap.modifySubscription_count]
      exact hsame

/- The decoders behind a packet id: some take no bytes, that of a SUBACK its codes. -/
theorem rxBufferDecoders_behindId (type : ℕ) (d : Decoder) (h : rxBufferDecoders type = some d)
    (hr : d.decodeRemaining = .withId) : d ≠ rxBufferDecoderPublish ∧ (d.decodeBytes = none ∨ d = rxBufferDecoderSuback) ∧
      (d.popPacketWithId = .withId ∧ (d.kind = some .publish2 ∨ d.callbackError ≠ none) ∨
        d.popPacketWithId = .pubrel ∧ d.kind = none) := by
  unfold rxBufferDecoders at h
  split at h <;> cases h <;> first | decide | exact absurd hr (by decide)

/- What taking the request of a packet id leaves, or remembering that of a PUBREL. -/
theorem popPacket_withId (hw : Typed w) (d : Decoder) {type : ℕ} (hd : rxBufferDecoders type = some d)
    (hr : d.decodeRemaining = .withId) : Wp (popPacket d d.popPacketWithId) w (fun ok v => if ok then
      v.rx.internal = { w.rx.internal with value := v.rx.internal.value } ∧
        (d.kind = some .publish2 → v.rxStore.count < v.rxStore.capacity) ∧
        (d.callbackError = none → d.kind ≠ some .publish2 → v.rx.internal.value = w.rx.internal.value)
      else v.rx.internal.error.isSome = true) fun _ _ => False := by
  obtain ⟨-, -, ⟨hpop, hkind⟩ | ⟨hpop, hkind⟩⟩ := rxBufferDecoders_behindId _ _ hd hr
  · rw [hpop]
    simp only [popPacket, wp_bind, wp_get]
    refine (rxBufferPopPacket_taken hw d _).mono (fun ok v hv => ?_) fun _ _ h => h
    cases ok with
    | false => exact hv
    | true =>
      obtain ⟨hrx, -, -, hroom⟩ := hv
      refine ⟨hrx, fun _ => hroom, fun he hk => ?_⟩
      rcases hkind with h | h
      · exact absurd h hk
      · exact absurd he h
  · rw [hpop]
    simp only [popPacket, rxBufferPubrel, wp_bind, wp_get, wp_set]
    split
    · simp only [wp_bind, wp_set, wp_pure, if_true]
      refine ⟨?_, fun h => ?_, fun _ _ => ?_⟩
      · cases w.rx.store <;> simp [World.setStore]
      · rw [hkind] at h
        contradiction
      · cases w.rx.store <;> simp [World.setStore]
    · rfl

theorem idTurn_poised (hnd : env.ndebug = false) (hw : Typed w) (hs : RxShape w.rx.internal) (d : Decoder)
    (hf : w.rx.internal.headerFinished = true) (hd : w.rx.internal.decoder = some d) (hr : d.decodeRemaining = .withId)
    (he : w.rx.internal.error = none) (hlong : w.rx.internal.Short) (hb : bs ≠ []) (h : w.Poised env) :
    TurnPoised env w T (rxBufferDecodeBodyTurn env d bs) := by
  have htable := (hs.table hf).symm.trans hd
  obtain ⟨hne, hbytes, -⟩ := rxBufferDecoders_behindId _ _ htable hr
  obtain ⟨d', hd', hmin⟩ := hs.long hf he
  cases hd.symm.trans hd'
  have hmin := (rxBufferDecoders_withId _ _ htable hr).1.trans hmin
  simp only [TurnPoised, rxBufferDecodeBodyTurn, decodeRemaining, hr, rxBufferDecodeRemainingWithId, wp_bind, wp_get]
  refine wp_if (fun h2 => ?_) fun h2 => ?_
  · rcases hbytes with hbytes | rfl
    · exact (bareTurn_poised d hbytes).mono (fun _ _ h => h) fun _ _ h => h.elim
    · exact subackTurn_poised hnd hd hf hlong (by omega) hb h
  · refine wp_assert_bind (fun _ => ?_) fun hn => absurd hn (by simp [hb])
    simp only [wp_bind, wp_modify]
    have hread := readId_scratch w (bs.headD 0)
    have hpoised : (w.readId (bs.headD 0)).Poised env := h.onward d hd hne rfl fun hd' h3 => h.suback (hd'.symm ▸ hd) h3
    have hidle : d.callbackError = none → d.kind ≠ some .publish2 → (w.readId (bs.headD 0)).rx.internal.value = {} :=
      fun _ _ => hread.rxKept.value.trans (hs.unread d hd hr (by omega))
    have htyped : Typed (w.readId (bs.headD 0)) :=
      ⟨hw.entries, hw.held, hw.rxStore, hw.txStore, hw.connectable, hw.alive⟩
    have hvd := hread.rxKept.decoder.trans hd
    have hvp := hread.rxKept.pos
    have hvh := hread.rxKept.header
    have hvf := hread.rxKept.headerFinished.trans hf
    generalize w.readId (bs.headD 0) = v at hpoised hidle htyped hvd hvp hvh hvf
    refine wp_if (fun hpos => ?_) fun hpos => ?_
    · simp only [wp_bind, wp_get, wp_emit]
      generalize hu : v.emit (.packetId v.rx.internal.header.type v.rx.internal.packetId) = u
      have hurx : u.rx.internal = v.rx.internal := by rw [← hu]; rfl
      have hut : Typed u := by
        rw [← hu]
        exact ⟨htyped.entries, htyped.held, htyped.rxStore, htyped.txStore, htyped.connectable, htyped.alive⟩
      refine (popPacket_withId hut d htable hr).mono (fun ok t ht => ?_) fun _ _ h => h.elim
      cases ok with
      | false => exact turnPoised_failed ht 1
      | true =>
        obtain ⟨hrx, hroom, hsame⟩ := ht
        rw [hurx] at hrx hsame
        simp only [if_true, wp_pure, rxBufferDecodedBytes, wp_bind, wp_modify]
        have htd : (t.advance 1).rx.internal.decoder = some d := by
          change t.rx.internal.decoder = some d
          rw [hrx, hvd]
        have htp : (t.advance 1).rx.internal.remainBufPos = 2 := by
          change t.rx.internal.remainBufPos + 1 = 2
          rw [hrx, hvp]
          exact hpos
        refine (rxBufferEndTurn_calm env d 1 htd (fun _ => ⟨hroom, fun hk hnone => ?_⟩) fun _ => ?_).mono (fun _ _ h => h)
          fun _ _ h => .inl h
        · left
          change t.rx.internal.value.callback = none
          rw [hsame hnone hk, hidle hnone hk]
        · refine hpoised.onward d hvd hne ?_ fun _ h3 => by omega
          have hadv : (t.advance 1).rx.internal = { t.rx.internal with remainBufPos := t.rx.internal.remainBufPos + 1 } := rfl
          rw [hadv, hrx]
    · have hmore : v.rx.internal.remainBufPos + 1 < v.rx.internal.header.remainingLength := by
        rw [hvp, hvh]
        omega
      simp only [wp_pure]
      unfold Wp
      rw [decodedBytes_continue hmore]
      refine fun _ => hpoised.onward d hvd hne rfl fun _ h3 => ?_
      change 2 < v.rx.internal.remainBufPos + 1 at h3
      omega

/-! ### Assertions that fail -/

/- The bytes of a part that blocked are skipped: more than none are taken. -/
theorem publishTurn_late (hm : env.Stores) (hnd : env.ndebug = false) (hb : bs ≠ []) (hi : w.rx.internal.Inside)
    (h : w.Poised env) (hlate : w.IgnoredLate env) :
    Wp (rxBufferDecodeBodyTurn env rxBufferDecoderPublish bs) w (fun _ _ => False) fun x _ => x = .assertFailed := by
  have hw := hlate.inPublish
  obtain ⟨p, hp⟩ := Option.isSome_iff_exists.mp (h.blocked hlate.blocked).2.2.1
  obtain ⟨-, hur⟩ := ignoreUnwanted_rx env w
  rw [publishTurn_wp]
  simp only [rxBufferDecodePublish]
  refine wp_assert_bind (fun _ => ?_) fun hn => absurd hn (by simp [hb])
  simp only [wp_bind, wp_get]
  refine ((rxBufferDecodePublishPart_left hm hw hi h).and (rxBufferDecodePublishPart_spec bs hw)).mono
    (fun r v hv => ?_) fun _ _ h => h.1.elim
  obtain ⟨hleft, hspec⟩ := hv
  cases r with
  | none =>
    -- a message that is ignored does not fail
    have hspec : PartFailed env w bs v := hspec
    rcases hspec.ends with ⟨hlow, -⟩ | ⟨hskip, -⟩
    · rw [RxInternal.place_low hlow] at hp
      contradiction
    · rw [hlate.ignored] at hskip
      contradiction
  | some c =>
    have hread : PartRead env w bs c v := hspec
    have hvi : v.rx.internal.ignorePublish = true := by
      rw [hread.rx]
      exact hlate.ignored
    have hboth : v.rx.internal.blockingStr.isSome = true ∧ 0 < c := by
      cases hleft c rfl with
      | number hq _ _ _ =>
        rw [hp] at hq
        contradiction
      | string q hq _ hpart =>
        obtain ⟨hsame, hcount⟩ := hpart.kept hvi
        rw [hur] at hsame
        refine ⟨?_, ?_⟩
        · rw [hsame]
          exact hlate.blocked
        · have hpos := share_pos hi hw hb
          simp only [World.share, hq] at hpos
          have hchunk : (w.ignoreUnwanted env).chunk q bs = w.chunk q bs := by
            unfold World.chunk
            rw [hur]
          rw [hcount, hchunk]
          exact hpos
    obtain ⟨hblock, hc⟩ := hboth
    simp only [wp_bind, wp_get]
    refine wp_if (fun _ => ?_) fun hn => absurd hblock hn
    refine wp_if (fun hn => by contradiction) fun _ => wp_assert_bind (fun _ => ?_) fun _ => rfl
    simp only [wp_pure, rxBufferDecodedBytes, wp_bind, wp_assert]
    rw [if_neg (by simp [hnd]; omega)]
    trivial

theorem connackTurn_long (hnd : env.ndebug = false) (hb : bs ≠ []) (hlong : w.LongConnack bs) :
    Wp (rxBufferDecodeBodyTurn env rxBufferDecoderConnack bs) w (fun _ _ => False) fun x _ => x = .assertFailed := by
  simp only [rxBufferDecodeBodyTurn, wp_bind]
  change Wp (rxBufferDecodeRemainingWithoutId env rxBufferDecoderConnack bs) w _ _
  simp only [rxBufferDecodeRemainingWithoutId, wp_bind]
  change Wp (rxBufferDecodeConnack env bs) w _ _
  simp only [rxBufferDecodeConnack]
  refine wp_assert_bind (fun _ => ?_) fun hn => absurd hn (by simp [hb])
  simp only [wp_bind, wp_get, hlong.pos, hlong.code]
  have hmore := hlong.long
  rw [if_neg (by decide), if_neg (by decide)]
  refine wp_if (fun hn => by contradiction) fun _ => wp_assert_bind (fun hok => ?_) fun _ => rfl
  simp [hnd, hlong.pos] at hok
  omega

end Turn

/-! ### Every turn of a run -/

/- The decoders by what they read. -/
theorem rxBufferDecoders_split (type : ℕ) (d : Decoder) (h : rxBufferDecoders type = some d) :
    d = rxBufferDecoderConnack ∨ d = rxBufferDecoderPublish ∨ d.decodeRemaining = .withId ∨
      d.decodeRemaining = .withoutId ∧ d.decodeBytes = none := by
  unfold rxBufferDecoders at h
  split at h <;> cases h <;> decide

section Turns
variable {w : World σ} {bs : List Byte}

/-- A turn of the decoder. -/
theorem turn_poised (hm : env.Stores) (hnd : env.ndebug = false) (hl : Live w) (hs : (Step.read bs).Enabled (fun _ => True) w)
    (hi : w.rx.internal.Inside) (h : w.Poised env) : TurnPoised env w (w.Trips env bs) (rxBufferDecodeTurn env bs) := by
  obtain ⟨hwe, he, hb⟩ := hs
  have hdec := hl.decoding hwe
  have hshape := hdec.shape
  simp only [TurnPoised, rxBufferDecodeTurn, wp_bind, wp_get]
  split
  · rename_i d hf hd
    rcases rxBufferDecoders_split _ _ ((hshape.table hf).symm.trans hd) with rfl | rfl | hr | ⟨hr, hbytes⟩
    · have hlong := hshape.long hf he
      obtain ⟨d', hd', hmin⟩ := hlong
      cases hd.symm.trans hd'
      exact (connackTurn_poised hnd hd hf hmin hb h).mono (fun _ _ h => h) fun _ _ h => h.imp_right .inl
    · have hv : w.rx.internal.value = {} := hshape.idle (by rw [RxInternal.kind, hd]; rfl)
      have hp := (RxInternal.inPublish_iff _).mpr ⟨hf, hd⟩
      exact (publishTurn_poised hm hnd hb hp hi h hwe hv).mono (fun _ _ h => h) fun _ _ h => h.imp_right .inr
    · exact idTurn_poised hnd hl.sound.toTyped hshape d hf hd hr he hi.short hb h
    · simp only [rxBufferDecodeBodyTurn, decodeRemaining, hr, wp_bind]
      exact (bareTurn_poised d hbytes).mono (fun _ _ h => h) fun _ _ h => h.elim
  · rename_i hn
    refine headerTurn_poised hl.sound.toTyped hshape ?_ he h _
    by_contra hf
    have hf : w.rx.internal.headerFinished = true := by simpa using hf
    obtain ⟨d, hd, -⟩ := hshape.long hf he
    exact hn d hf hd

/- An assertion that is tripped fails. -/
theorem turn_trips (hm : env.Stores) (hnd : env.ndebug = false) (hs : (Step.read bs).Enabled (fun _ => True) w)
    (hi : w.rx.internal.Inside) (h : w.Poised env) (ht : w.Trips env bs) :
    Wp (rxBufferDecodeTurn env bs) w (fun _ _ => False) fun x _ => x = .assertFailed := by
  obtain ⟨-, -, hb⟩ := hs
  rcases ht with ht | ht
  · unfold Wp
    rw [rxBufferDecodeTurn_body ht.finished ht.decoder]
    exact connackTurn_long hnd hb ht
  · obtain ⟨hf, hd⟩ := (RxInternal.inPublish_iff _).mp ht.inPublish
    unfold Wp
    rw [rxBufferDecodeTurn_body hf hd]
    exact publishTurn_late hm hnd hb hi h ht

/-! ### Every state of a run -/

/- The mark of a string that blocks is left alone, or taken away. -/
def Unblocks (w w' : World σ) : Prop :=
  w'.rx.internal.blockingStr = w.rx.internal.blockingStr ∨ w'.rx.internal.blockingStr = none

theorem Outside.unblocks {w w' : World σ} (h : Outside w w') : Unblocks w w' := .inl (by rw [h.rx])

theorem Unblocks.trans {w w' w'' : World σ} (h : Unblocks w w') (h' : Unblocks w' w'') : Unblocks w w'' := by
  rcases h' with h' | h'
  · rcases h with h | h
    · exact .inl (h'.trans h)
    · exact .inr (h'.trans h)
  · exact .inr h'

instance : IsTrans (World σ) Unblocks := ⟨fun _ _ _ => Unblocks.trans⟩

variable (env) in
theorem step_unblocks (w : World σ) (s : Step σ) (hs : s.Enabled (fun _ => True) w) (hr : ∀ bs, s ≠ .read bs) :
    Wp (s.run env) w (fun _ w' => Unblocks w w') fun _ _ => True := by
  have hout : ∀ {α : Type} {p : Prog σ α} {w : World σ}, Within Outside p w → Within Unblocks p w :=
    fun h => h.mono (fun _ _ h => h.unblocks) fun _ _ h => h.unblocks
  suffices h : Within Unblocks (s.run env) w from h.mono (fun _ _ h => h) fun _ _ _ => trivial
  cases s with
  | read bs => exact absurd rfl (hr bs)
  | send bufLen => exact hout (txBufferTurn_outside env bufLen w)
  | exit bufLen bytesRead =>
    refine within_bind w _ _ (within_ite w _ _ _ (fun _ => ?_) fun _ => within_pure w (.inl rfl) _) fun _ t _ =>
      within_pure t (.inl rfl) _
    exact within_bind w _ _ (within_modify w _ (.inr rfl)) fun _ t _ => within_pure t (.inl rfl) _
  | call a =>
    cases a with
    | request q => exact within_bind w _ _ (hout (doRequest_outside env w q)) fun _ t _ => within_pure t (.inl rfl) _
    | pingreq =>
      refine within_bind w _ _ (within_get_bind w _ ?_) fun _ t _ => within_pure t (.inl rfl) _
      refine within_ite w _ _ _ (fun _ => ?_) fun _ => within_pure w (.inl rfl) _
      exact (clientDoPingreq_called env (fun _ => True) w).mono
        (fun _ _ h => h.1.untouched.outside.unblocks) fun _ _ h => h.elim
    | connect p =>
      refine (wp_bind ..).mpr ((lmqttClientConnect_told p w).mono (fun _ t h => ?_) fun _ _ h => h.elim)
      obtain ⟨-, ⟨-, hfresh⟩ | ⟨-, rfl⟩⟩ := h
      · exact .inr (by rw [hfresh])
      · exact .inl rfl
    | reset =>
      refine within_get_bind w _ (within_ite w _ _ _ (fun _ => ?_) fun _ => within_pure w (.inl rfl) _)
      exact hout (clientSetStateInitial_outside env w)
    | eof => exact hout (clientSetStateInitial_outside env w)
    | finalize =>
      refine within_bind w _ _ (within_modify w _ (.inl rfl)) fun _ t _ => ?_
      refine within_bind t _ _ (hout (clientSetStateFailed_outside env t)) fun _ u _ => ?_
      refine within_bind u _ _ (within_get_bind u _ ?_) fun _ v _ => hout (clientCleanupStores_outside env false v)
      refine within_bind u _ _ (within_modify u _ (.inl rfl)) fun _ v _ => ?_
      exact within_bind v _ _ (hout (callValue_outside env _ v)) fun _ x _ => within_pure x (.inl rfl) _
    | setDefaultTimeout secs => exact within_modify w _ (.inl rfl)
    | getTimeout =>
      refine within_bind w _ _ ?_ fun _ t _ => within_pure t (.inl rfl) _
      exact within_bind w _ _ (hout (currentTimeout_outside env w)) fun _ t _ => within_pure t (.inl rfl) _
    | currentTimeout => exact within_bind w _ _ (hout (currentTimeout_outside env w)) fun _ t _ => within_pure t (.inl rfl) _
    | touch r => exact hout (storeTouch_outside env r w)
    | transfer app readBuf writeBuf => exact within_modify w _ (.inl rfl)
    | fail e osError =>
      exact within_bind w _ _ (within_modify w _ (.inl rfl)) fun _ t _ => hout (clientSetStateFailed_outside env t)
    | decode bs | encode bufLen =>
      have hcall := hs.1
      contradiction

/-- The other steps leave the decoder poised. -/
theorem World.Poised.beside {w' : World σ} (h : w.Poised env) (hb : Beside w w') (hu : Unblocks w w')
    (hs : ∀ p, (w'.heap.subscribes p).count = (w.heap.subscribes p).count) : w'.Poised env := by
  have hrx := hb.rx
  have hstr : ∀ part : PublishPart, w'.str part.str = w.str part.str := by
    intro part
    cases part <;> simp only [World.str, PublishPart.str] <;> rw [hrx]
  constructor
  · rw [hrx]
    exact h.fed
  · rw [hrx]
    exact h.wanted
  · intro hp hi p hplace hlt
    rw [hstr]
    rw [hrx] at hp hi hplace hlt ⊢
    exact h.room hp hi p hplace hlt
  · intro hsome
    rcases hu with hu | hu
    · rw [hu] at hsome
      rw [hrx]
      exact h.blocked hsome
    · rw [hu] at hsome
      contradiction
  · intro hd h2
    rw [hrx] at hd h2 ⊢
    rw [hs]
    exact h.suback hd h2

/- No step changes how many topics a SUBSCRIBE has. -/
theorem Does.subscribes {w w' : World σ} {s : Step σ} (h : Does env w s w') (p : Ptr) :
    (w'.heap.subscribes p).count = (w.heap.subscribes p).count := by
  have hstill : ∀ {g g' : Heap}, g'.still = g.still → (g'.subscribes p).count = (g.subscribes p).count := by
    intro g g' hg
    have hp : (g'.subscribes p).still = (g.subscribes p).still := congrFun (congrArg Heap.subscribes hg) p
    change (g'.subscribes p).still.count = (g.subscribes p).still.count
    rw [hp]
  rcases h.idle with hi | ⟨e, -, u, hu, hw'⟩
  · exact hstill hi.heap
  · rw [hw']
    refine (hstill hu.heap).trans ?_
    change ((w.heap.counted e).subscribes p).count = _
    unfold Heap.counted
    split <;> rfl

/-- Between two turns the decoder is poised. -/
theorem stepped_poised (hm : env.Stores) (hnd : env.ndebug = false) (h : Stepped env (fun _ _ => True) w) :
    w.rx.internal.error = none → w.Poised env := by
  induction h with
  | start buffers heap app w h =>
    intro _
    apply World.Poised.fresh
    have hr := start_reverted h
    rw [hr.same]
    rfl
  | step w w' s hw hc hs h ih =>
    intro he'
    by_cases hread : ∃ bs, s = .read bs
    · obtain ⟨bs, rfl⟩ := hread
      obtain ⟨t, u, ht, hu⟩ := ok_bind h
      obtain ⟨-, rfl⟩ := ok_pure hu
      have hi := stepped_inside w hw hs.2.1
      exact wp_ok (turn_poised hm hnd hw.live hs hi (ih hs.2.1)) ht he'
    · have hno : ∀ bs, s ≠ .read bs := fun bs hbs => hread ⟨bs, hbs⟩
      obtain ⟨-, ⟨-, hfresh⟩ | ⟨-, hsame⟩⟩ := wp_ok (step_beside env w s hs hno) h
      · exact .fresh hfresh
      · have hdoes := wp_ok (step_does w s hw.live hs) h
        have he : w.rx.internal.error = none := by
          rw [hsame.rx] at he'
          exact he'
        have hblock := wp_ok (step_unblocks env w s hs hno) h
        exact (ih he).beside hsame hblock hdoes.subscribes

end Turns

/-! ### Calls of the decoder -/

section Calls
variable {w : World σ} {bs : List Byte}

theorem rxBufferExit_returns (bufLen bytesRead : ℕ) (w : World σ) :
    Wp (rxBufferExit bufLen bytesRead) w (fun _ _ => True) fun _ _ => False := by
  simp only [rxBufferExit]
  exact wp_if (fun _ => trivial) fun _ => trivial

/- The loop asserts nothing besides its turns. -/
theorem loop_trips (hm : env.Stores) (hnd : env.ndebug = false) (hw : Stepped env (fun _ _ => True) w) (he : w.error = none)
    (bufLen fuel count n : ℕ) (rest : List Byte) (v : World σ) (hv : Iterated env w bs v rest n) :
    Wp (rxBufferDecodeLoop env bufLen fuel rest count) v (fun _ _ => True) fun x _ => x = .outOfFuel ∨
      ∃ v' rest' k, k < n + fuel ∧ Iterated env w bs v' rest' k ∧ rest' ≠ [] ∧ v'.Trips env rest' := by
  induction fuel generalizing v rest n count with
  | zero =>
    cases rest with
    | nil => exact (rxBufferExit_returns bufLen count v).mono (fun _ _ h => h) fun _ _ h => h.elim
    | cons b more => exact .inl rfl
  | succ fuel ih =>
    cases rest with
    | nil => exact (rxBufferExit_returns bufLen count v).mono (fun _ _ h => h) fun _ _ h => h.elim
    | cons b more =>
      have hb : b :: more ≠ [] := List.cons_ne_nil b more
      obtain ⟨hs, hve, hvr⟩ := hv.ready hw he
      have hturn := turn_poised hm hnd hs.live ⟨hve, hvr, hb⟩ (stepped_inside v hs hvr) (stepped_poised hm hnd hs hvr)
      rw [rxBufferDecodeLoop]
      · unfold Wp
        cases hrun : rxBufferDecodeTurn env (b :: more) v with
        | error x u =>
          rw [run_bind_error hrun]
          exact (wp_error hturn hrun).imp_right fun ht => ⟨v, b :: more, n, by omega, hv, hb, ht⟩
        | ok t u =>
          rw [run_bind_ok hrun]
          cases t with
          | read c =>
            refine (ih (count + c) (n + 1) _ u (.turn v u _ c n hv hb hrun)).mono (fun _ _ h => h) fun x _ h => ?_
            refine h.imp_right fun h => ?_
            obtain ⟨v', rest', k, hk, hreach⟩ := h
            exact ⟨v', rest', k, by omega, hreach⟩
          | blocked => exact (rxBufferExit_returns bufLen count u).mono (fun _ _ h => h) fun _ _ h => h.elim
          | failed c => trivial
      · simp

theorem Iterated.entered {v : World σ} {rest : List Byte} {n : ℕ} (hv : Iterated env w bs v rest n) :
    w.rx.internal.error = none := by
  induction hv with
  | enter he => exact he
  | turn v v' rest c n hv hb h ih => exact ih

/- The loop comes to each of its heads. -/
theorem Iterated.reached {v : World σ} {rest : List Byte} {n : ℕ} (hv : Iterated env w bs v rest n) (bufLen fuel : ℕ) :
    ∃ count, rxBufferDecodeLoop env bufLen (n + fuel) bs 0 w = rxBufferDecodeLoop env bufLen fuel rest count v := by
  induction hv generalizing fuel with
  | enter he => exact ⟨0, by rw [Nat.zero_add]⟩
  | turn v v' rest c n hv hb h ih =>
    obtain ⟨count, hcount⟩ := ih (fuel + 1)
    refine ⟨count + c, ?_⟩
    rw [show n + 1 + fuel = n + (fuel + 1) by omega, hcount]
    obtain ⟨b, more, rfl⟩ := List.exists_cons_of_ne_nil hb
    rw [rxBufferDecodeLoop]
    · rw [run_bind_ok h]
    · simp

theorem call_loop (bs : List Byte) : lmqttRxBufferDecode env bs w = if w.rx.internal.error.isSome then .ok (.error, 0) w
    else rxBufferDecodeLoop env bs.length env.fuel bs 0 w := by
  unfold lmqttRxBufferDecode
  rw [run_get_bind]
  split <;> rfl

/- The assertion of a call is that of a turn. -/
theorem call_trips (hm : env.Stores) (hnd : env.ndebug = false) (h : Stepped env (fun _ _ => True) w) (he : w.error = none)
    {u : World σ} (hu : lmqttRxBufferDecode env bs w = .error .assertFailed u) :
    ∃ v rest n, n < env.fuel ∧ Iterated env w bs v rest n ∧ rest ≠ [] ∧ v.Trips env rest := by
  rw [call_loop] at hu
  split at hu
  · contradiction
  · rename_i hr
    have hr : w.rx.internal.error = none := by simpa using hr
    rcases wp_error (loop_trips hm hnd h he bs.length env.fuel 0 0 bs w (.enter hr)) hu with hx | hx
    · contradiction
    · rwa [Nat.zero_add] at hx

/- The assertion of a turn is that of the call. -/
theorem Iterated.asserts (hm : env.Stores) (hnd : env.ndebug = false) (h : Stepped env (fun _ _ => True) w)
    (he : w.error = none) {v : World σ} {rest : List Byte} {n : ℕ} (hv : Iterated env w bs v rest n) (hn : n < env.fuel)
    (hb : rest ≠ []) (ht : v.Trips env rest) : ∃ u, lmqttRxBufferDecode env bs w = .error .assertFailed u := by
  obtain ⟨hs, hve, hvr⟩ := hv.ready h he
  have hr := hv.entered
  have hfail := turn_trips hm hnd ⟨hve, hvr, hb⟩ (stepped_inside v hs hvr) (stepped_poised hm hnd hs hvr) ht
  obtain ⟨count, hreach⟩ := hv.reached bs.length (env.fuel - n)
  rw [call_loop, hr, if_neg (by decide), ← Nat.add_sub_cancel' hn.le, hreach]
  obtain ⟨fuel, hfuel⟩ : ∃ fuel, env.fuel - n = fuel + 1 := ⟨env.fuel - n - 1, by omega⟩
  obtain ⟨b, more, rfl⟩ := List.exists_cons_of_ne_nil hb
  rw [hfuel, rxBufferDecodeLoop]
  · unfold Wp at hfail
    cases hrun : rxBufferDecodeTurn env (b :: more) v with
    | ok t u =>
      rw [hrun] at hfail
      exact hfail.elim
    | error x u =>
      rw [hrun] at hfail
      exact ⟨u, by rw [run_bind_error hrun, hfail]⟩
  · simp

/- Calls of the decoder, one after another. -/
def decodeCalls (env : Env σ) : List (List Byte) → Prog σ Unit
  | [] => pure ()
  | bs :: more => do
    let _ ← lmqttRxBufferDecode env bs
    decodeCalls env more

/- A call leaves a state of the run. -/
theorem call_stepped (hw : Stepped env (fun _ _ => True) w) (he : w.error = none) {u : World σ} {r : IoResult × ℕ}
    (h : lmqttRxBufferDecode env bs w = .ok r u) : Stepped env (fun _ _ => True) u ∧ u.error = none := by
  have hspec := wp_ok (lmqttRxBufferDecode_spec env (fun _ => True) w bs (hw.live.decoding he)) h
  refine ⟨?_, hspec.steady.error.trans he⟩
  unfold lmqttRxBufferDecode at h
  rw [run_get_bind] at h
  split at h
  · rw [← (ok_pure h).2]
    exact hw
  · rename_i hr
    exact rxBufferDecodeLoop_stepped _ _ _ _ _ w hw he (by simpa using hr) h

/- One of the calls comes to a turn that fails an assertion. -/
def World.TripsIn (env : Env σ) (w : World σ) (cs : List (List Byte)) : Prop :=
  ∃ before bs after u, cs = before ++ bs :: after ∧ decodeCalls env before w = .ok () u ∧
    ∃ v rest n, n < env.fuel ∧ Iterated env u bs v rest n ∧ rest ≠ [] ∧ v.Trips env rest

theorem tripsIn_cons {c : List Byte} {cs : List (List Byte)} : w.TripsIn env (c :: cs) ↔
    (∃ v rest n, n < env.fuel ∧ Iterated env w c v rest n ∧ rest ≠ [] ∧ v.Trips env rest) ∨
      ∃ r u, lmqttRxBufferDecode env c w = .ok r u ∧ u.TripsIn env cs := by
  constructor
  · rintro ⟨before, bs, after, u, hcs, hcalls, htrips⟩
    cases before with
    | nil =>
      obtain ⟨rfl, -⟩ := List.cons.inj hcs
      cases hcalls
      exact .inl htrips
    | cons b before =>
      obtain ⟨rfl, rfl⟩ := List.cons.inj hcs
      rw [decodeCalls] at hcalls
      obtain ⟨r, t, hcall, hrest⟩ := ok_bind hcalls
      exact .inr ⟨r, t, hcall, before, bs, after, u, rfl, hrest, htrips⟩
  · rintro (htrips | ⟨r, t, hcall, before, bs, after, u, rfl, hcalls, htrips⟩)
    · exact ⟨[], c, cs, w, rfl, rfl, htrips⟩
    · refine ⟨c :: before, bs, after, u, rfl, ?_, htrips⟩
      rw [decodeCalls, run_bind_ok hcall]
      exact hcalls

end Calls

theorem memoryEnv_stores : memoryEnv.Stores := by
  refine ⟨fun part f hf a b n hn _ => ?_, fun _ _ _ _ h => by contradiction, fun _ _ _ _ _ => rfl⟩
  have hroom : (f a b n).str = { len := n, buf := some (List.replicate n 0) } := by
    cases part <;> cases hf <;> rfl
  rw [hroom]
  intro _ _
  change ((0 : ℕ) : ℤ) + n ≤ n ∧ (n : ℤ) < 2^64
  omega

theorem asserts_of_wp {α : Type} {p : Prog σ α} {w : World σ} (h : Wp p w (fun _ _ => False) fun x _ => x = .assertFailed) :
    ∃ u, p w = .error .assertFailed u := by
  unfold Wp at h
  cases hrun : p w with
  | ok a u =>
    rw [hrun] at h
    exact h.elim
  | error x u =>
    rw [hrun] at h
    exact ⟨u, by rw [h]⟩

/- A connect that was sent. -/
def connectSent : List (Step Unit) := .call (.connect 0) :: List.replicate 8 (.send 64)

theorem connectSent_isSome : (runClientSteps memoryEnv everyStep ⟨8, 64, 64, 4⟩ smallHeap () connectSent).isSome = true := by
  decide +kernel

/- The application wants to write the topic away, and when it is asked again it does not want the message. -/
def fickleEnv : Env Unit := { memoryEnv with
  message := { memoryEnv.message with
    onPublishAllocateTopic := some fun a b n =>
      if b.topic.write then ⟨a, .ignore, {}⟩ else ⟨a, .success, { len := n, write := true }⟩ } }

theorem connectRun_fickle : (runClientSteps fickleEnv everyStep ⟨8, 64, 64, 4⟩ smallHeap () connectSteps).isSome = true := by
  decide +kernel

end LightMqtt
