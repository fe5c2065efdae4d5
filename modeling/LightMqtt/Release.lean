import LightMqtt.Builds

/-!
# What the build without assertions leaves out

One `assert()` of the decoder does work: the PUBREL that answers a PUBREC is put
into the store by its argument. In every other step the two builds do the same.
-/

namespace LightMqtt

open Exec

variable {σ : Type} {env : Env σ} {n : Bool}

/-! ### Calls -/

theorem simulates_same {α : Type} {p q : Prog σ α} (h : p = q) (w : World σ) : Simulates (fun _ => True) p q w := by
  rw [h]
  exact simulates_of_wp (wp_true q w)

section Calls
variable (hn : env.ndebug = true → n = true)
include hn

theorem clientSetStateFailed_simulates (w : World σ) :
    Simulates (fun _ => True) (clientSetStateFailed env) (clientSetStateFailed (env.build n)) w := by
  apply simulates_get_bind
  apply simulates_bind (assert_simulates hn trivial _)
  intro _ u _ _
  exact simulates_modify trivial

omit hn in
theorem setStateInitial_simulates (w : World σ) :
    Simulates (fun _ => True) (clientSetStateInitial env) (clientSetStateInitial (env.build n)) w :=
  clientSetStateInitial_simulates (observes_true env) (fun _ _ => trivial) trivial

theorem lmqttClientFinalize_simulates (w : World σ) :
    Simulates (fun _ => True) (lmqttClientFinalize env) (lmqttClientFinalize (env.build n)) w := by
  apply simulates_modify_bind
  apply simulates_bind (clientSetStateFailed_simulates hn _)
  intro _ u _ _
  apply simulates_bind
  · apply simulates_get_bind
    apply simulates_modify_bind
    apply simulates_bind (callValue_simulates (observes_true env) trivial _)
    intro _ x _ _
    exact simulates_pure trivial _
  · intro _ x _ _
    exact clientCleanupStores_simulates (observes_true env)
      (fun w v _ => callValue_simulates (observes_true env) trivial v) trivial false

theorem act_simulates (w : World σ) (a : Act σ) (ha : a.isCall = true) :
    Simulates (fun _ => True) (a.run env) (a.run (env.build n)) w := by
  cases a with
  | request q | connect p | setDefaultTimeout secs | getTimeout | currentTimeout | touch r | pingreq
  | transfer app readBuf writeBuf => exact simulates_same rfl w
  | reset =>
    apply simulates_get_bind
    apply simulates_ite
    · intro _
      exact setStateInitial_simulates w
    · intro _
      exact simulates_pure trivial _
  | finalize => exact lmqttClientFinalize_simulates hn w
  | fail e osError =>
    apply simulates_modify_bind
    exact clientSetStateFailed_simulates hn _
  | eof => exact setStateInitial_simulates w
  | decode bs | encode bufLen => contradiction

/- A turn of the encoder. -/
theorem txBufferTurn_simulates (w : World σ) (bufLen : ℕ) :
    Simulates (fun _ => True) (txBufferTurn env bufLen) (txBufferTurn (env.build n) bufLen) w := by
  have ho := observes_true env
  apply simulates_get_bind
  apply simulates_ite
  · intro _
    exact simulates_pure trivial _
  intro _
  split
  · exact simulates_pure trivial _
  · rename_i e _
    apply simulates_bind (txBufferFinder_simulates ho trivial e)
    intro found u _ _
    cases found with
    | none =>
      apply simulates_bind (txBufferFinishEntry_simulates hn ho trivial e)
      intro _ x _ _
      exact simulates_pure trivial _
    | some encoder =>
      apply simulates_get_bind
      apply simulates_modify_bind
      apply simulates_bind (runEncoder_simulates hn ho trivial e.value _ bufLen encoder)
      rintro ⟨res, bytes⟩ x _ _
      exact simulates_same rfl x

end Calls

/-! ### The last byte of a PUBREC -/

/-- The next byte ends a PUBREC, and the PUBLISH it answers waits in the store. -/
structure World.EndsPubrec (w : World σ) (b : Byte) : Prop where
  header : w.rx.internal.headerFinished = true ∧ w.rx.internal.header.remainingLength = 2
  decoder : w.rx.internal.decoder = some rxBufferDecoderPubrec
  last : w.rx.internal.remainBufPos = 1
  awaited : (w.rxStore.popMarkedBy .publish2 (w.readId b).rx.internal.packetId).isSome = true

def Step.EndsPubrec (w : World σ) : Step σ → Prop
  | read bs => w.EndsPubrec (bs.headD 0)
  | _ => False

/- The bytes of a packet are taken before the decoder moves on. -/
theorem decodeRemaining_place (w : World σ) (d : Decoder) (bs : List Byte) (he : w.error = none) :
    Wp (decodeRemaining env d bs) w (fun _ v => SamePlace w v) fun _ _ => True := by
  have hrest : Wp (rxBufferDecodeRemainingWithoutId env d bs) w (fun _ v => SamePlace w v) fun _ _ => True :=
    (rxBufferDecodeRemainingWithoutId_spec env (fun _ => True) w d bs he).mono
      (fun _ v hv => ⟨hv.kept.decoder, hv.kept.header, hv.kept.headerFinished, hv.kept.pos⟩) fun _ _ _ => trivial
  unfold decodeRemaining
  split
  · exact hrest
  · simp only [rxBufferDecodeRemainingWithId, wp_bind, wp_get]
    apply wp_if
    · exact fun _ => hrest
    intro _
    apply wp_assert_bind
    · intro _
      simp only [wp_bind, wp_modify]
      apply wp_if
      · intro _
        simp only [wp_bind, wp_get, wp_emit]
        refine (popPacket_place _ d d.popPacketWithId).mono (fun ok v hv => ?_) fun _ _ h => h
        have hwv : SamePlace w v := ⟨hv.decoder, hv.header, hv.headerFinished, hv.pos⟩
        exact wp_if (fun _ => hwv) fun _ => hwv
      · exact fun _ => ⟨rfl, rfl, rfl, rfl⟩
    · intro _
      trivial

/- The bytes a PUBREC is made of. -/
theorem decodeRemaining_pubrec (w : World σ) (bs : List Byte) :
    Wp (decodeRemaining env rxBufferDecoderPubrec bs) w (fun r _ => r.1 ≠ .error → w.rx.internal.remainBufPos < 2 ∧
      r.2 = 1 ∧ (w.rx.internal.remainBufPos = 1 →
        (w.rxStore.popMarkedBy .publish2 (w.readId (bs.headD 0)).rx.internal.packetId).isSome = true))
      fun _ _ => True := by
  simp only [decodeRemaining, rxBufferDecoderPubrec, rxBufferDecodeRemainingWithId, wp_bind, wp_get]
  apply wp_if
  · intro _
    simp only [rxBufferDecodeRemainingWithoutId, rxBufferDecodeType, rxBufferFail, wp_bind, wp_modify, wp_pure, wp_get]
    exact fun h => absurd rfl h
  intro hpos
  apply wp_assert_bind
  · intro _
    simp only [wp_bind, wp_modify]
    apply wp_if
    · intro hlast
      simp only [popPacket, rxBufferPopPacket, rxBufferFail, Option.bind_some, wp_bind, wp_get, wp_emit]
      split
      · rename_i e s hs
        simp only [wp_bind, wp_set, wp_pure, if_true, wp_emit]
        refine fun _ => ⟨by omega, trivial, fun _ => ?_⟩
        change (w.rxStore.popMarkedBy .publish2 (w.readId (bs.headD 0)).rx.internal.packetId) = some (e, s) at hs
        rw [hs]
        rfl
      · simp only [wp_bind, wp_set, wp_modify, wp_pure]
        exact fun h => absurd rfl h
    · intro hfirst
      exact fun _ => ⟨by omega, rfl, fun h => by omega⟩
  · intro _
    trivial

theorem rxBufferDecodeTurn_builds (hn : env.ndebug = true → n = true) (w : World σ) (bs : List Byte)
    (hs : RxShape w.rx.internal) (he : w.error = none) (hr : w.rx.internal.error = none)
    (hp : ¬ w.EndsPubrec (bs.headD 0)) :
    Simulates (fun _ => True) (rxBufferDecodeTurn env bs) (rxBufferDecodeTurn (env.build n) bs) w := by
  apply rxBufferDecodeTurn_simulates hn (observes_true env) trivial bs
  right
  cases hf : w.rx.internal.headerFinished with
  | false =>
    left
    refine ⟨rfl, ?_⟩
    rw [hs.fresh hf]
  | true =>
    right
    obtain ⟨d, hd, hlen⟩ := hs.long hf hr
    refine ⟨d, rfl, hd, ?_⟩
    intro res count v hv hres hends
    have hplace := wp_ok (decodeRemaining_place w d bs he) hv
    have hdec : d = rxBufferDecoderPubrec := by
      apply rxBufferDecoders_pubrec w.rx.internal.header.type d ((hs.table hf).symm.trans hd)
      have hk := hends.1
      rw [RxInternal.kind, show (v.advance count).rx.internal.decoder = _ from hplace.decoder.trans hd] at hk
      exact hk
    subst hdec
    obtain ⟨hpos, hcount, hawaited⟩ := wp_ok (decodeRemaining_pubrec w bs) hv hres
    have hend := hends.2
    simp only [rxBufferIsPacketFinished, Bool.and_eq_true, decide_eq_true_eq] at hend
    have hfin : w.rx.internal.header.remainingLength ≤ w.rx.internal.remainBufPos + 1 := by
      have hend := hend.2
      change v.rx.internal.header.remainingLength ≤ v.rx.internal.remainBufPos + count at hend
      rw [hplace.header, hplace.pos, show count = 1 from hcount] at hend
      exact hend
    change 2 ≤ w.rx.internal.header.remainingLength at hlen
    exact hp ⟨⟨hf, by omega⟩, hd, by omega, hawaited (by omega)⟩

/-- A step that does not end a PUBREC is the same in both builds. -/
theorem step_builds (hn : env.ndebug = true → n = true) (w w' : World σ) (s : Step σ) (hw : Live w)
    (hs : s.Enabled (fun _ => True) w) (hp : ¬ s.EndsPubrec w) (h : s.run env w = .ok () w') :
    s.run (env.build n) w = .ok () w' := by
  cases s with
  | call a => exact (act_simulates hn w a hs.1 () w' h).1
  | send bufLen => exact (txBufferTurn_simulates hn w bufLen () w' h).1
  | read bs =>
    obtain ⟨he, hr, -⟩ := hs
    have hshape := hw.shape (by rw [he]; intro h; contradiction)
    have hturn := simulates_map (rxBufferDecodeTurn_builds hn w bs hshape he hr hp) fun _ => ()
    exact (hturn () w' h).1
  | exit bufLen bytesRead => exact h

/-! ### Where the builds differ -/

section Differ
variable {w : World σ} {b : Byte} {e : Entry} {s : Store}

/- The state in which `rx_buffer_finish_packet` is called for a PUBREC. -/
def World.pubrecRead (w : World σ) (b : Byte) (e : Entry) (s : Store) : World σ :=
  (((w.readId b).emit (.packetId w.rx.internal.header.type (w.readId b).rx.internal.packetId)).popped
    (w.readId b).rx.internal.packetId e s).advance 1

theorem pubrec_turn (h : w.EndsPubrec b) (bs : List Byte)
    (hs : w.rxStore.popMarkedBy .publish2 (w.readId b).rx.internal.packetId = some (e, s)) :
    rxBufferDecodeTurn env (b :: bs) w = (do
      if ← rxBufferFinishPacket env rxBufferDecoderPubrec then pure (.read 1) else pure (.failed 1) : Prog σ Turn)
        (w.pubrecRead b e s) := by
  have hpop : popPacket rxBufferDecoderPubrec .withId
      ((w.readId b).emit (.packetId w.rx.internal.header.type (w.readId b).rx.internal.packetId)) = .ok true
        (((w.readId b).emit (.packetId w.rx.internal.header.type (w.readId b).rx.internal.packetId)).popped
          (w.readId b).rx.internal.packetId e s) := by
    change rxBufferPopPacket rxBufferDecoderPubrec _ _ = _
    have hfound : (rxBufferDecoderPubrec.kind.bind fun k =>
        ((w.readId b).emit (.packetId w.rx.internal.header.type (w.readId b).rx.internal.packetId)).rxStore.popMarkedBy k
          ((w.readId b).emit (.packetId w.rx.internal.header.type (w.readId b).rx.internal.packetId)).rx.internal.packetId) =
        some (e, s) := hs
    rw [rxBufferPopPacket, run_get_bind, hfound]
    rfl
  have hremaining : decodeRemaining env rxBufferDecoderPubrec (b :: bs) w = .ok (.continue, 1)
      (((w.readId b).emit (.packetId w.rx.internal.header.type (w.readId b).rx.internal.packetId)).popped
        (w.readId b).rx.internal.packetId e s) := by
    have hassert : assert env (1 ≤ (b :: bs).length) w = .ok () w := by
      rw [assert, if_pos (by simp)]
      rfl
    change rxBufferDecodeRemainingWithId env rxBufferDecoderPubrec (b :: bs) w = _
    rw [rxBufferDecodeRemainingWithId, run_get_bind, h.last, if_neg (by decide), run_bind_ok hassert, run_modify_bind,
      if_pos rfl, run_get_bind, emit, run_modify_bind]
    exact run_bind_ok hpop
  rw [rxBufferDecodeTurn, run_get_bind]
  simp only [h.header.1, h.decoder]
  rw [rxBufferDecodeBodyTurn, run_bind_ok hremaining]
  have hfin : rxBufferIsPacketFinished (w.pubrecRead b e s).rx.internal = true := by
    simp only [rxBufferIsPacketFinished, Bool.and_eq_true, decide_eq_true_eq]
    refine ⟨h.header.1, ?_⟩
    change w.rx.internal.header.remainingLength ≤ w.rx.internal.remainBufPos + 1
    rw [h.header.2, h.last]
  have hdec : (w.pubrecRead b e s).rx.internal.decoder = some rxBufferDecoderPubrec := h.decoder
  change rxBufferEndTurn env 1 (w.pubrecRead b e s) = _
  rw [rxBufferEndTurn, run_get_bind]
  simp only [hdec, hfin, if_true]

/- With NDEBUG the request leaves the store for good; otherwise it goes back as a
   PUBREL. -/
theorem pubrec_release (hn : env.ndebug = true) (v : World σ) :
    rxBufferFinishPacket env rxBufferDecoderPubrec v =
      .ok true ((v.emit (.finished v.rx.internal.header.type v.rx.internal.packetId)).setRx {}) := by
  have hk : rxBufferDecoderPubrec.kind = some .publish2 := rfl
  rw [rxBufferFinishPacket, run_get_bind, if_pos hk, if_neg (by simp [hn])]
  rfl

theorem pubrec_debug (hd : env.ndebug = false) {v v' : World σ} {ok : Bool}
    (h : rxBufferFinishPacket env rxBufferDecoderPubrec v = .ok ok v') :
    ok = true ∧ ∃ t, v.rxStore.append ⟨.pubrel, v.rx.internal.value⟩ = some t ∧ v'.store v.rx.store = t := by
  have hk : rxBufferDecoderPubrec.kind = some .publish2 := rfl
  rw [rxBufferFinishPacket, run_get_bind, if_pos hk, if_pos (by simp [hd])] at h
  cases ht : v.rxStore.append ⟨.pubrel, v.rx.internal.value⟩ with
  | none =>
    simp only [ht] at h
    contradiction
  | some t =>
    simp only [ht] at h
    have h := ok_set_bind h
    have h := ok_modify_bind h
    have h := ok_modify_bind h
    obtain ⟨rfl, rfl⟩ := ok_pure h
    refine ⟨rfl, t, rfl, ?_⟩
    rw [World.store_setRx, World.store_emit, World.store_setStore_self]

theorem pubrec_differs (hd : env.ndebug = false) (h : w.EndsPubrec b) (bs : List Byte) {w' : World σ}
    (hrun : (Step.read (b :: bs)).run env w = .ok () w') : (Step.read (b :: bs)).run (env.build true) w ≠ .ok () w' := by
  obtain ⟨⟨e, s⟩, hs⟩ := Option.isSome_iff_exists.mp h.awaited
  obtain ⟨turn, v, hturn, hrun⟩ := ok_bind hrun
  obtain ⟨-, rfl⟩ := ok_pure hrun
  rw [pubrec_turn h bs hs] at hturn
  obtain ⟨ok, u, hfin, hturn⟩ := ok_bind hturn
  obtain ⟨rfl, t, ht, hu⟩ := pubrec_debug hd hfin
  obtain ⟨-, rfl⟩ := ok_pure hturn
  intro hrel
  obtain ⟨turn', v', hturn', hrel⟩ := ok_bind hrel
  obtain ⟨-, rfl⟩ := ok_pure hrel
  rw [pubrec_turn h bs hs, run_bind_ok (pubrec_release rfl _)] at hturn'
  obtain ⟨-, hsame⟩ := ok_pure hturn'
  -- the entry is in one of the two stores only
  rw [← hsame, World.store_setRx, World.store_emit] at hu
  have happ := (Store.append_spec _ _ _ ht).entries
  have hcount : t.entries.length = (w.pubrecRead b e s).rxStore.entries.length + 1 := by
    rw [happ, List.length_append]
    rfl
  rw [← hu] at hcount
  unfold World.rxStore at hcount
  omega

end Differ

/-- What the build without assertions does differently: it loses the PUBREL for a
PUBREC. A step that ends no PUBREC is the same in both builds, and so is a run of
such steps. -/
theorem builds_agree (hd : env.ndebug = false) :
    (∀ (w : World σ) (s : Step σ) (w' : World σ), Stepped env (fun _ _ => True) w → s.Enabled (fun _ => True) w →
      s.run env w = .ok () w' → (s.run (env.build true) w = .ok () w' ↔ ¬ s.EndsPubrec w)) ∧
    ∀ w, Stepped env (fun w s => ¬ s.EndsPubrec w) w → Stepped (env.build true) (fun w s => ¬ s.EndsPubrec w) w := by
  have hn : env.ndebug = true → true = true := fun _ => rfl
  constructor
  · intro w s w' hw hs h
    constructor
    · intro hrel hends
      cases s with
      | read bs =>
        obtain ⟨-, -, hne⟩ := hs
        cases bs with
        | nil => exact hne rfl
        | cons b bs => exact pubrec_differs hd hends bs h hrel
      | call a => exact hends
      | send bufLen => exact hends
      | exit bufLen bytesRead => exact hends
    · intro hends
      exact step_builds hn w w' s hw.live hs hends h
  · intro w hw
    induction hw with
    | start buffers heap app w h => exact .start buffers heap app w (setStateInitial_simulates _ () w h).1
    | step w w' s hw hc hs h ih => exact .step w w' s ih hc hs (step_builds hn w w' s hw.live hs hc h)

/- A QoS 2 message is sent, and all but the last byte of its PUBREC has come. -/
def pubrecActs : List (Act Unit) := connectKept ++ [.request (.publish 0), .encode 64, .decode [0x50, 2, 0]]

theorem pubrecRun_isSome : (runClient memoryEnv anyConnect ⟨8, 64, 64, 4⟩ smallHeap () pubrecActs).isSome = true := by
  decide +kernel

instance (w : World σ) (b : Byte) : Decidable (w.EndsPubrec b) :=
  decidable_of_iff ((w.rx.internal.headerFinished = true ∧ w.rx.internal.header.remainingLength = 2) ∧
    w.rx.internal.decoder = some rxBufferDecoderPubrec ∧ w.rx.internal.remainBufPos = 1 ∧
    (w.rxStore.popMarkedBy .publish2 (w.readId b).rx.internal.packetId).isSome = true)
    ⟨fun h => ⟨h.1, h.2.1, h.2.2.1, h.2.2.2⟩, fun h => ⟨h.header, h.decoder, h.last, h.awaited⟩⟩

/-- The two builds go separate ways at the last byte of the PUBREC. -/
theorem builds_part : ∃ (w : World Unit) (s : Step Unit) (w' : World Unit), memoryEnv.ndebug = false ∧
    Stepped memoryEnv (fun _ _ => True) w ∧ s.Enabled (fun _ => True) w ∧ s.run memoryEnv w = .ok () w' ∧
    s.run (memoryEnv.build true) w ≠ .ok () w' := by
  obtain ⟨w, hw, hends, he, hr, hrun⟩ : ∃ w : World Unit, Reached memoryEnv (fun _ => True) w ∧ w.EndsPubrec 0 ∧
      w.error = none ∧ w.rx.internal.error = none ∧
      Wp ((Step.read [0]).run memoryEnv) w (fun _ _ => True) fun _ _ => False :=
    ⟨_, reached_get anyConnect_true _ _ _ _ pubrecRun_isSome, by decide +kernel⟩
  obtain ⟨⟨⟩, w', hrun, -⟩ := wp_exists hrun
  exact ⟨w, .read [0], w', rfl, reached_stepped w hw, ⟨he, hr, by simp⟩, hrun, pubrec_differs rfl hends [] hrun⟩

/-- They agree on a PUBREC that no request waits for. -/
theorem builds_agree_unknown : ∃ w w' : World Unit, Stepped memoryEnv (fun _ _ => True) w ∧
    (Step.read [7]).run memoryEnv w = .ok () w' ∧ (Step.read [7]).run (memoryEnv.build true) w = .ok () w' := by
  obtain ⟨w, hw, hends, he, hr, hrun⟩ : ∃ w : World Unit, Reached memoryEnv (fun _ => True) w ∧ ¬ w.EndsPubrec 7 ∧
      w.error = none ∧ w.rx.internal.error = none ∧
      Wp ((Step.read [7]).run memoryEnv) w (fun _ _ => True) fun _ _ => False :=
    ⟨_, reached_get anyConnect_true _ _ _ _ pubrecRun_isSome, by decide +kernel⟩
  obtain ⟨⟨⟩, w', hrun, -⟩ := wp_exists hrun
  have hw := reached_stepped w hw
  exact ⟨w, w', hw, hrun, ((builds_agree rfl).1 w (.read [7]) w' hw ⟨he, hr, by simp⟩ hrun).mpr hends⟩

end LightMqtt
