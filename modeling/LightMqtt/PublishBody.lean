import LightMqtt.Bodies
import LightMqtt.Reader

/-!
# The bodies of a PUBLISH

Which bodies the decoder accepts as those of a PUBLISH, and the message it reads
from them.
-/

namespace LightMqtt

open Exec

variable {σ : Type} {env : Env σ} {taken : σ → ℕ → List Byte}

/- The length of the topic, as the first two bytes of a body declare it. -/
def bodyTopicLen (body : List Byte) : ℕ := (body.getD 0 0).toNat * 256 + (body.getD 1 0).toNat

/- The bytes of a packet id in a PUBLISH. -/
def idLength (qos : ℕ) : ℕ := if qos = 0 then 0 else 2

/-- A well-formed body of a PUBLISH: it has a topic, and room for it and for the packet id. -/
structure IsPublishBody (qos : ℕ) (body : List Byte) : Prop where
  long : 3 ≤ body.length
  topic : 1 ≤ bodyTopicLen body
  fits : bodyTopicLen body + 2 + idLength qos ≤ body.length

/- The packet id behind the topic. -/
def bodyId (body : List Byte) : PacketId :=
  (body.getD (2 + bodyTopicLen body) 0).toUInt16 <<< 8 ||| (body.getD (3 + bodyTopicLen body) 0).toUInt16

/-- The message in the body of a packet with the first byte `first`. -/
def bodyMessage (first : Byte) (body : List Byte) : Message where
  qos := firstQos first
  retain := firstRetain first = 1
  id := if firstQos first = 0 then 0 else bodyId body
  topic := (body.drop 2).take (bodyTopicLen body)
  payload := body.drop (2 + bodyTopicLen body + idLength (firstQos first))

section Body
variable {first : Byte} {body : List Byte}

/- Two bytes are those of the number they stand for. -/
theorem stringLenByte_join (hi lo : Byte) :
    stringLenByte ((hi.toNat * 256 + lo.toNat : ℕ) : ℤ) 1 = hi ∧
        stringLenByte ((hi.toNat * 256 + lo.toNat : ℕ) : ℤ) 0 = lo := by
  have hhi := hi.toNat_lt
  have hlo := lo.toNat_lt
  constructor
  · rw [← UInt8.toNat_inj, stringLenByte_toNat]
    omega
  · rw [← UInt8.toNat_inj, stringLenByte_toNat]
    omega

theorem packetId_toNat (hi lo : Byte) : (hi.toUInt16 <<< 8 ||| lo.toUInt16).toNat = hi.toNat * 256 + lo.toNat := by
  have hhi := hi.toNat_lt
  have hlo : lo.toNat < 2^8 := lo.toNat_lt
  have hshift : (hi.toUInt16 <<< 8).toNat = hi.toNat <<< 8 := by
    rw [UInt16.toNat_shiftLeft, UInt8.toNat_toUInt16]
    apply Nat.mod_eq_of_lt
    change hi.toNat <<< 8 < 2^16
    rw [Nat.shiftLeft_eq]
    omega
  rw [UInt16.toNat_or, hshift, UInt8.toNat_toUInt16, ← Nat.shiftLeft_add_eq_or_of_lt hlo, Nat.shiftLeft_eq]

theorem bodyMessage_topic (h : IsPublishBody (firstQos first) body) :
    (bodyMessage first body).topic.length = bodyTopicLen body := by
  have hfits := h.fits
  change ((body.drop 2).take (bodyTopicLen body)).length = _
  rw [List.length_take, List.length_drop]
  omega

/- The two bytes at a place of a body. -/
theorem two_bytes {n : ℕ} (h : n + 2 ≤ body.length) :
    body.drop n = body.getD n 0 :: body.getD (n + 1) 0 :: body.drop (n + 2) := by
  have h0 : n < body.length := by omega
  have h1 : n + 1 < body.length := by omega
  have hget : ∀ i (hi : i < body.length), body.getD i 0 = body[i] := fun i hi => by simp [List.getD, hi]
  rw [List.drop_eq_getElem_cons h0, List.drop_eq_getElem_cons h1, hget n h0, hget (n + 1) h1]

/-- The body is that of its message. -/
theorem bodyMessage_body (h : IsPublishBody (firstQos first) body) : (bodyMessage first body).body = body := by
  have hlong := h.long
  have hfits := h.fits
  have hlen : stringLenBytes ((bodyMessage first body).topic.length : ℕ) = [body.getD 0 0, body.getD 1 0] := by
    rw [bodyMessage_topic h]
    obtain ⟨hhi, hlo⟩ := stringLenByte_join (body.getD 0 0) (body.getD 1 0)
    unfold stringLenBytes bodyTopicLen
    rw [hhi, hlo]
  have hrest : (bodyMessage first body).idBytes ++ (bodyMessage first body).payload = body.drop (2 + bodyTopicLen body) := by
    unfold Message.idBytes bodyMessage idLength
    dsimp only
    by_cases hq : firstQos first = 0
    · rw [if_pos hq, if_pos hq]
      rfl
    · have hroom : 2 + bodyTopicLen body + 2 ≤ body.length := by
        unfold idLength at hfits
        rw [if_neg hq] at hfits
        omega
      obtain ⟨hhi, hlo⟩ := stringLenByte_join (body.getD (2 + bodyTopicLen body) 0) (body.getD (3 + bodyTopicLen body) 0)
      rw [if_neg hq, if_neg hq, if_neg hq, two_bytes hroom]
      unfold packetIdBytes bodyId
      rw [packetId_toNat, hhi, hlo, show 2 + bodyTopicLen body + 1 = 3 + bodyTopicLen body by omega]
      rfl
  unfold Message.body
  rw [hlen, List.append_assoc, hrest]
  have hsplit : body = body.getD 0 0 :: body.getD 1 0 :: body.drop 2 := two_bytes (n := 0) (by omega)
  have htopic : (bodyMessage first body).topic ++ body.drop (2 + bodyTopicLen body) = body.drop 2 := by
    rw [← List.drop_drop]
    exact List.take_append_drop _ _
  conv_rhs => rw [hsplit]
  rw [List.append_assoc, htopic]
  rfl

theorem bodyMessage_valid (h : IsPublishBody (firstQos first) body) (hq : firstQos first ≤ 2) (hl : body.length ≤ 268435455) :
    (bodyMessage first body).Valid := by
  have hlt0 := (body.getD 0 0).toNat_lt
  have hlt1 := (body.getD 1 0).toNat_lt
  have htopic := h.topic
  have hlen := bodyMessage_topic h
  refine ⟨hq, fun h0 => if_pos h0, by omega, ?_, ?_⟩
  · rw [hlen]
    unfold bodyTopicLen
    omega
  · rw [bodyMessage_body h]
    exact hl

theorem bodyMessage_heads (h : IsPublishBody (firstQos first) body) {g : FixedHeader} (hg : g.Announces first body.length)
    (ht : firstType first = typePublish) : (bodyMessage first body).Heads g := by
  refine ⟨hg.type.trans ht, hg.qos, ?_, ?_⟩
  · rw [hg.retain]
    change firstRetain first = if decide (firstRetain first = 1) = true then 1 else 0
    have hbit : firstRetain first = 0 ∨ firstRetain first = 1 := by
      unfold firstRetain
      split <;> omega
    rcases hbit with h0 | h1
    · rw [h0]
      rfl
    · rw [h1]
      rfl
  · rw [hg.length, bodyMessage_body h]

end Body

/-! ### Behind the last byte -/

section Past
variable {v : World σ} {bs : List Byte} (more : List Byte)

theorem rxBufferAllocateWrite_past {start len : ℕ} {part : PublishPart}
    (h : len - (v.rx.internal.remainBufPos + 1 - start) ≤ bs.length) :
    rxBufferAllocateWrite env start part len (bs ++ more) v = rxBufferAllocateWrite env start part len bs v := by
  have hstep : ∀ l, rxBufferAllocateWrite env start part len l v = (do
      if ← rxBufferAllocateFirst env start part len then
        rxBufferWritePart env part (l.take (len - (v.rx.internal.remainBufPos + 1 - start)))
      else pure none : Prog σ (Option ℕ)) v := fun _ => rfl
  rw [hstep, hstep, List.take_append_of_le_length h]

/-- What is left of the body is all that is looked at. -/
theorem rxBufferDecodePublishPart_past (hb : bs ≠ [])
    (hlen : v.rx.internal.header.remainingLength ≤ v.rx.internal.remainBufPos + bs.length)
    (hfit : 2 ≤ v.rx.internal.remainBufPos →
      v.rx.internal.topicLen + 2 + v.rx.internal.header.idLen ≤ v.rx.internal.header.remainingLength) :
    rxBufferDecodePublishPart env (bs ++ more) v = rxBufferDecodePublishPart env bs v := by
  have hstep : ∀ l, rxBufferDecodePublishPart env l v =
      (if v.rx.internal.remainBufPos + 1 ≤ 2 then rxBufferDecodeTopicLen (l.headD 0) v
      else if v.rx.internal.remainBufPos + 1 ≤ 2 + v.rx.internal.topicLen then
        rxBufferDecodeString env 3 .topic v.rx.internal.topicLen l (v.ignoreUnwanted env)
      else if v.rx.internal.remainBufPos + 1 ≤ 2 + v.rx.internal.topicLen + v.rx.internal.header.idLen then
        rxBufferDecodePublishId (l.headD 0) (v.ignoreUnwanted env)
      else rxBufferDecodeString env (2 + v.rx.internal.topicLen + v.rx.internal.header.idLen + 1) .payload
        (v.rx.internal.header.remainingLength - v.rx.internal.header.idLen - (2 + v.rx.internal.topicLen)) l
        (v.ignoreUnwanted env)) := by
    intro l
    change (if v.rx.internal.remainBufPos + 1 ≤ 2 then _ else _ : Prog σ (Option ℕ)) v = _
    by_cases h2 : v.rx.internal.remainBufPos + 1 ≤ 2
    · simp only [h2, if_true]
    · by_cases ht : v.rx.internal.remainBufPos + 1 ≤ 2 + v.rx.internal.topicLen
      · simp only [h2, ht, if_true, if_false]
        rfl
      · by_cases hi : v.rx.internal.remainBufPos + 1 ≤ 2 + v.rx.internal.topicLen + v.rx.internal.header.idLen
        · simp only [h2, ht, hi, if_true, if_false]
          rfl
        · simp only [h2, ht, hi, if_false]
          rfl
  have hpos : (v.ignoreUnwanted env).rx.internal.remainBufPos = v.rx.internal.remainBufPos := by
    unfold World.ignoreUnwanted
    split <;> rfl
  have hstring : ∀ start part len, len - (v.rx.internal.remainBufPos + 1 - start) ≤ bs.length →
      rxBufferDecodeString env start part len (bs ++ more) (v.ignoreUnwanted env) =
        rxBufferDecodeString env start part len bs (v.ignoreUnwanted env) := by
    intro start part len h
    rw [← hpos] at h
    change EStateM.bind _ _ _ = EStateM.bind _ _ _
    unfold EStateM.bind
    rw [rxBufferAllocateWrite_past more h]
  rw [hstep, hstep, headD_append hb more]
  by_cases h2 : v.rx.internal.remainBufPos + 1 ≤ 2
  · rw [if_pos h2, if_pos h2]
  · have hfit := hfit (by omega)
    rw [if_neg h2, if_neg h2, hstring 3 .topic _ (by omega), hstring _ .payload _ (by omega)]

theorem publishTurn_past (hb : bs ≠ [])
    (hlen : v.rx.internal.header.remainingLength ≤ v.rx.internal.remainBufPos + bs.length)
    (hfit : 2 ≤ v.rx.internal.remainBufPos →
      v.rx.internal.topicLen + 2 + v.rx.internal.header.idLen ≤ v.rx.internal.header.remainingLength) :
    rxBufferDecodeBodyTurn env rxBufferDecoderPublish (bs ++ more) v =
        rxBufferDecodeBodyTurn env rxBufferDecoderPublish bs v := by
  have hpart : rxBufferDecodePublishPart env (bs ++ more) v = rxBufferDecodePublishPart env bs v :=
    rxBufferDecodePublishPart_past more hb hlen hfit
  have hbytes : rxBufferDecodePublish env (bs ++ more) v = rxBufferDecodePublish env bs v := by
    have hone : ∀ l : List Byte, l ≠ [] → assert env (1 ≤ l.length) v = .ok () v := by
      intro l hl
      have hpos : 1 ≤ l.length := List.length_pos_iff.mpr hl
      rw [assert, if_pos (by simp [hpos])]
      rfl
    rw [rxBufferDecodePublish, run_bind_ok (hone _ (List.append_ne_nil_of_left_ne_nil hb more)), rxBufferDecodePublish,
      run_bind_ok (hone _ hb), run_get_bind, run_get_bind]
    change EStateM.bind _ _ _ = EStateM.bind _ _ _
    unfold EStateM.bind
    rw [hpart]
  change EStateM.bind (EStateM.bind (rxBufferDecodePublish env (bs ++ more)) _) _ v =
    EStateM.bind (EStateM.bind (rxBufferDecodePublish env bs) _) _ v
  unfold EStateM.bind
  rw [hbytes]

end Past

/-! ### Well-formed bodies -/

section Good
variable {m : Message} {w : World σ} {D : World σ → Prop}

/-- What is left of the body of a message that ends with `D`. -/
inductive Message.Left (env : Env σ) (taken : σ → ℕ → List Byte) (m : Message) (w : World σ) (D : World σ → Prop) :
    List Byte → World σ → Prop
  | body (v : World σ) (h : FixedHeader) (n : ℕ) (b : Publish) (hr : Reads w v) (hh : m.Heads h)
    (hv : v.rx.internal = m.reading h n b) (hp : m.Parts env taken v.app n b) (hn : n < m.body.length) :
    m.Left env taken w D (m.body.drop n) v
  | done (v : World σ) (hd : D v) (hv : v.rx.internal = {}) : m.Left env taken w D [] v

theorem Message.Left.ended {v : World σ} (h : m.Left env taken w D [] v) : D v ∧ v.rx.internal = {} := by
  generalize hrest : ([] : List Byte) = rest at h
  cases h with
  | body v h n b hr hh hv hp hn =>
    have hlen := congrArg List.length hrest
    rw [List.length_drop, List.length_nil] at hlen
    omega
  | done v hd hv => exact ⟨hd, hv⟩

theorem Message.Ends.reader (he : m.Ends env taken w D) (ha : env.Accepts taken) (hm : m.Valid) :
    Reader env (m.Left env taken w D) fun _ => False := by
  refine ⟨fun {rest v} hv => ?_, fun hf => hf.elim, fun {bs more v} hb hv => ?_, fun {bs v} more hb hv => ?_⟩
  · cases hv with
    | body v h n b hr hh hv hp hn =>
      rw [hv]
      exact ⟨rfl, rfl⟩
    | done v hd hv =>
      rw [hv]
      exact ⟨rfl, rfl⟩
  · generalize hrest : bs ++ more = rest at hv
    cases hv with
    | body v h n b hr hh hv hp hn =>
      unfold Wp
      rw [rxBufferDecodeTurn_body (by rw [hv]; rfl) (by rw [hv]; rfl)]
      refine Wp.mono (bodyTurn_reads ha hm he hr hh hv hp hn hb hrest) (fun t u hu => ?_) fun _ _ h => h
      obtain ⟨k, rfl, hk, hle, hu⟩ := hu
      refine .inl ⟨k, rfl, hk, hle, ?_⟩
      rw [List.drop_drop]
      rcases hu with ⟨b', hreads, hu, hparts, hlt⟩ | ⟨hlast, hd, hfresh⟩
      · exact .body u h (n + k) b' hreads hh hu hparts hlt
      · rw [hlast, List.drop_length]
        exact .done u hd hfresh
    | done v hd hv =>
      rw [List.append_eq_nil_iff] at hrest
      exact absurd hrest.1 hb
  · generalize hrest : bs = rest at hv
    cases hv with
    | body v h n b hr hh hv hp hn =>
      subst hrest
      have hbody := Message.body_length_start (m := m)
      have hstart : m.start = 2 + m.topic.length + m.idBytes.length := rfl
      rw [rxBufferDecodeTurn_body (by rw [hv]; rfl) (by rw [hv]; rfl),
        rxBufferDecodeTurn_body (by rw [hv]; rfl) (by rw [hv]; rfl)]
      apply publishTurn_past more hb
      · rw [hv]
        change h.remainingLength ≤ n + (m.body.drop n).length
        rw [hh.length, List.length_drop]
        omega
      · rw [hv]
        intro h2
        change m.topicLenAt n + 2 + h.idLen ≤ h.remainingLength
        change 2 ≤ n at h2
        have htopic : m.topicLenAt n = m.topic.length := by
          unfold Message.topicLenAt
          rw [if_neg (by omega), if_neg (by omega)]
        rw [htopic, hh.length, hh.idLen]
        omega
    | done v hd hv => exact absurd hrest hb

/-- A message whose id is already in the set is answered, and not handed over again. -/
structure MessageSkipped (m : Message) (w v : World σ) : Prop where
  messages : v.messages = w.messages
  store : v.rxStore.entries = w.rxStore.entries ++ m.answers
  ids : v.rx.idSet = w.rx.idSet

theorem Reads.rxStore {v : World σ} (hr : Reads w v) : v.rxStore = w.rxStore := by
  rw [hr.same]
  unfold World.rxStore World.store
  cases w.rx.store <;> rfl

theorem rxBufferDeallocatePublish_reads (u : World σ) : Wp (rxBufferDeallocatePublish env) u
    (fun _ v => Reads u v ∧ v.rx.internal = u.rx.internal) fun _ _ => False := by
  simp only [rxBufferDeallocatePublish, wp_bind, wp_get]
  cases hg : env.message.onPublishDeallocate with
  | none => exact ⟨.refl u, rfl⟩
  | some f =>
    refine wp_if (fun _ => ?_) fun _ => ⟨.refl u, rfl⟩
    exact ⟨⟨rfl, rfl⟩, rfl⟩

theorem Message.Valid.skipped (hm : m.Valid) (hq : m.qos = 2) (hid : m.id ∈ w.rx.idSet.items)
    (hs : w.rxStore.count < w.rxStore.capacity) : m.Ends env taken w (MessageSkipped m w) := by
  refine ⟨fun {u h b n} hr hh hu hp => ?_, fun {v u} hv hr happ => ?_⟩
  · have hids : u.rx.idSet = w.rx.idSet := by rw [hr.same]
    have hpacket : u.rx.internal.packetId = m.id := by
      rw [hu]
      exact hm.idAt_length
    have hqos : u.rx.internal.header.qos = m.qos := by
      rw [hu]
      exact hh.qos
    obtain ⟨s, hack, hentries⟩ := acknowledge_store (w := u) hm (fun _ => by rwa [hr.rxStore]) hqos hpacket
    simp only [rxBufferFinishPublish, wp_bind, wp_modify, wp_get, hack]
    have hknown : ((u.setStore u.rx.store s).rx.internal.header.qos = 2 &&
        (u.setStore u.rx.store s).rx.idSet.contains (u.setStore u.rx.store s).rx.internal.packetId) = true := by
      rw [World.setStore_rx, hqos, hq, hpacket, hids, Bool.and_eq_true]
      exact ⟨rfl, (IdSet.contains_iff ..).mpr hid⟩
    rw [if_pos hknown, wp_bind]
    refine (@rxBufferDeallocatePublish_reads σ env (u.setStore u.rx.store s)).mono (fun _ v hv => ?_) fun _ _ h => h
    obtain ⟨hreads, hinternal⟩ := hv
    refine ⟨rfl, ⟨?_, ?_, ?_⟩, b, ?_⟩
    · rw [hreads.messages, ← hr.messages]
      unfold World.messages
      rw [World.setStore_log]
    · rw [hreads.rxStore, ← hr.rxStore, ← hentries]
      unfold World.rxStore
      rw [World.setStore_rx, World.store_setStore_self]
    · rw [hreads.same, ← hids]
      change (u.setStore u.rx.store s).rx.idSet = _
      rw [World.setStore_rx]
    · rw [hinternal, World.setStore_rx, hu]
  · refine ⟨hr.messages.trans hv.messages, ?_, ?_⟩
    · rw [hr.rxStore, hv.store]
    · rw [← hv.ids, hr.same]

end Good

/-! ### Other bodies -/

section Bad
variable {w : World σ} {first : Byte} {body : List Byte} {h : FixedHeader}

/- The decoder behind the first `n` bytes of a body. -/
def World.inTopicLen (w : World σ) (h : FixedHeader) (n topicLen : ℕ) : World σ := w.setRx {
  header := h
  headerFinished := true
  decoder := some rxBufferDecoderPublish
  remainBufPos := n
  topicLen }

/-- What is left of a body before the end of the length of its topic. -/
inductive TopicLenLeft (w : World σ) (h : FixedHeader) (body : List Byte) : List Byte → World σ → Prop
  | first : TopicLenLeft w h body body (w.inTopicLen h 0 0)
  | second : TopicLenLeft w h body (body.drop 1) (w.inTopicLen h 1 ((body.getD 0 0).toNat <<< 8))

theorem bodyTopicLen_eq (body : List Byte) :
    (body.getD 0 0).toNat <<< 8 ||| (body.getD 1 0).toNat = bodyTopicLen body := by
  have hlo : (body.getD 1 0).toNat < 2^8 := (body.getD 1 0).toNat_lt
  rw [← Nat.shiftLeft_add_eq_or_of_lt hlo, Nat.shiftLeft_eq]
  rfl

/- The first byte of the length. -/
theorem topicLen_first (b : Byte) (bs : List Byte) (hlong : 3 ≤ h.remainingLength) :
    rxBufferDecodeBodyTurn env rxBufferDecoderPublish (b :: bs) (w.inTopicLen h 0 0) =
      .ok (.read 1) (w.inTopicLen h 1 (b.toNat <<< 8)) := by
  have hpart : rxBufferDecodePublishPart env (b :: bs) (w.inTopicLen h 0 0) =
      .ok (some 1) (w.inTopicLen h 0 (0 ||| b.toNat <<< 8)) := rfl
  rw [Nat.zero_or] at hpart
  have hbytes : Wp (rxBufferDecodePublish env (b :: bs)) (w.inTopicLen h 0 0)
      (fun r u => r = (.continue, 1) ∧ u = w.inTopicLen h 0 (b.toNat <<< 8)) fun _ _ => False := by
    simp only [rxBufferDecodePublish, wp_bind, wp_assert, wp_get]
    rw [if_pos (by simp)]
    unfold Wp
    rw [hpart]
    change Wp (if 0 + 1 + 1 ≤ h.remainingLength then pure (DecodeResult.continue, 1) else _) _ _ _
    rw [if_pos (by omega)]
    exact ⟨rfl, rfl⟩
  have hturn : Wp (rxBufferDecodeBodyTurn env rxBufferDecoderPublish (b :: bs)) (w.inTopicLen h 0 0)
      (fun t u => t = .read 1 ∧ u = w.inTopicLen h 1 (b.toNat <<< 8)) fun _ _ => False := by
    rw [publishTurn_wp]
    refine hbytes.mono (fun r u hu => ?_) fun _ _ h => h
    obtain ⟨rfl, rfl⟩ := hu
    have hmore : 0 + 1 < h.remainingLength := by omega
    rw [if_neg (by decide), wp_bind, wp_assert, if_pos (by simp [World.inTopicLen, World.setRx, hmore]), wp_pure]
    change Wp (if (true && decide (h.remainingLength ≤ 1)) = true then _ else _) _ _ _
    rw [if_neg (by simp; omega)]
    exact ⟨rfl, rfl⟩
  obtain ⟨t, u, hrun, rfl, rfl⟩ := wp_exists hturn
  exact hrun

/- The second byte, of a length that does not fit. -/
theorem topicLen_second (b : Byte) (bs : List Byte) {hi : ℕ} (hbad : hi ||| b.toNat = 0 ∨
    h.remainingLength < (hi ||| b.toNat) + 2 + h.idLen) :
    ∃ u, rxBufferDecodeBodyTurn env rxBufferDecoderPublish (b :: bs) (w.inTopicLen h 1 hi) = .ok (.failed 0) u ∧
      u.rx.internal.error = some .decodePublishInvalidLength := by
  have hpart : Wp (rxBufferDecodePublishPart env (b :: bs)) (w.inTopicLen h 1 hi)
      (fun r u => r = none ∧ u.rx.internal.error = some .decodePublishInvalidLength) fun _ _ => False := by
    change Wp (if 1 + 1 = 2 ∧ (hi ||| b.toNat <<< 0 = 0 ∨ h.remainingLength < (hi ||| b.toNat <<< 0) + 2 + h.idLen) then _
      else _) _ _ _
    exact wp_if (fun _ => ⟨rfl, rfl⟩) fun hgood => absurd ⟨rfl, hbad⟩ hgood
  have hturn : Wp (rxBufferDecodeBodyTurn env rxBufferDecoderPublish (b :: bs)) (w.inTopicLen h 1 hi)
      (fun t u => t = .failed 0 ∧ u.rx.internal.error = some .decodePublishInvalidLength) fun _ _ => False := by
    rw [publishTurn_wp]
    simp only [rxBufferDecodePublish, wp_bind, wp_assert, wp_get]
    rw [if_pos (by simp)]
    refine hpart.mono (fun r u hu => ?_) fun _ _ h => h
    obtain ⟨rfl, he⟩ := hu
    simp only [wp_pure, if_true, rxBufferDecodedBytes, wp_bind, wp_get, wp_assert, he]
    rw [if_pos (by simp)]
    exact ⟨trivial, trivial⟩
  obtain ⟨t, u, hrun, rfl, he⟩ := wp_exists hturn
  exact ⟨u, hrun, he⟩

theorem topicLen_reader (hlong : 3 ≤ h.remainingLength) (hlen : body.length = h.remainingLength)
    (hbad : bodyTopicLen body = 0 ∨ h.remainingLength < bodyTopicLen body + 2 + h.idLen) :
    Reader env (TopicLenLeft w h body) fun u => u.rx.internal.error.isSome = true := by
  refine ⟨fun {rest v} hv => ?_, fun he => he, fun {bs more v} hb hv => ?_, fun {bs v} more hb hv => ?_⟩
  · cases hv <;> exact ⟨rfl, rfl⟩
  · have hpos := List.length_pos_iff.mpr hb
    generalize hrest : bs ++ more = rest at hv
    obtain ⟨b, bs, rfl⟩ := List.exists_cons_of_ne_nil hb
    cases hv with
    | first =>
      have hbyte : b = body.getD 0 0 := by
        rw [← hrest]
        rfl
      unfold Wp
      rw [rxBufferDecodeTurn_body rfl rfl, topicLen_first b bs hlong, hbyte]
      exact .inl ⟨1, rfl, Nat.one_pos, hpos, .second⟩
    | second =>
      have hbyte : b = body.getD 1 0 := by
        have htail := congrArg (·.getD 0 0) hrest
        simpa [List.getD] using htail
      obtain ⟨u, hrun, he⟩ : ∃ u, rxBufferDecodeBodyTurn env rxBufferDecoderPublish (b :: bs)
          (w.inTopicLen h 1 ((body.getD 0 0).toNat <<< 8)) = .ok (.failed 0) u ∧
            u.rx.internal.error = some .decodePublishInvalidLength := topicLen_second b bs (by
        rw [hbyte, bodyTopicLen_eq]
        exact hbad)
      unfold Wp
      rw [rxBufferDecodeTurn_body rfl rfl, hrun]
      exact .inr ⟨0, rfl, Nat.zero_le _, by rw [he]; rfl⟩
  · generalize hrest : bs = rest at hv
    have hlength := congrArg List.length hrest
    cases hv with
    | first =>
      subst hrest
      rw [rxBufferDecodeTurn_body rfl rfl, rxBufferDecodeTurn_body rfl rfl]
      exact publishTurn_past more hb (by change h.remainingLength ≤ 0 + bs.length; omega) fun h2 => by
        change 2 ≤ 0 at h2
        omega
    | second =>
      subst hrest
      rw [rxBufferDecodeTurn_body rfl rfl, rxBufferDecodeTurn_body rfl rfl]
      refine publishTurn_past more hb ?_ fun h2 => ?_
      · change h.remainingLength ≤ 1 + (body.drop 1).length
        rw [List.length_drop]
        omega
      · change 2 ≤ 1 at h2
        omega

/- The end of a fixed header that announces too little. -/
theorem header_short {g : FixedHeader} {b : Byte} (hdec : fixedHeaderDecode g b = (h, .finished, none))
    (ht : h.type = typePublish) (hshort : h.remainingLength < 3) :
    Wp (rxBufferDecodeHeaderTurn env b) (w.setRx { header := g }) (fun t u => t = .failed 1 ∧ u.rx.internal.error.isSome = true)
      fun _ _ => False := by
  rw [headerTurn_end hdec (d := rxBufferDecoderPublish) (by rw [ht]; rfl)]
  exact wp_if (fun _ => ⟨rfl, rfl⟩) fun h => absurd hshort h

/- The end of the fixed header of a PUBLISH. -/
theorem header_publish {g : FixedHeader} {b : Byte} (hdec : fixedHeaderDecode g b = (h, .finished, none))
    (ht : h.type = typePublish) (hlong : 3 ≤ h.remainingLength) :
    Wp (rxBufferDecodeHeaderTurn env b) (w.setRx { header := g }) (fun t u => t = .read 1 ∧ u = w.inTopicLen h 0 0)
      fun _ _ => False := by
  rw [headerTurn_end hdec (d := rxBufferDecoderPublish) (by rw [ht]; rfl), if_neg (by change ¬ h.remainingLength < 3; omega)]
  change Wp (if (true && decide (h.remainingLength ≤ 0)) = true then _ else _) _ _ _
  rw [if_neg (by simp; omega)]
  exact ⟨rfl, rfl⟩

end Bad

/-! ### All bodies -/

section All
variable {w : World σ} {first : Byte} {body : List Byte}

theorem framed_header (hl : LegalFirst first) (hlen : body.length ≤ 268435455) :
    IsFixedHeader (first :: lengthBytes body.length) first body.length := ⟨hl, hlen, rfl⟩

/-- A body that is not well-formed is refused. -/
theorem publish_refused (hw : w.rx.internal = {}) (hl : LegalFirst first) (ht : firstType first = typePublish)
    (hlen : body.length ≤ 268435455) (hf : (framed first body).length ≤ env.fuel)
    (hbad : ¬ IsPublishBody (firstQos first) body) :
    w.RefusesPacket env (framed first body) fun u => u.rx.internal.error.isSome = true := by
  have hhead := framed_header hl hlen
  have hstart : ∀ J, Whole w (first :: lengthBytes body.length) body J (framed first body) w := fun J =>
    Whole.start hw (by simp)
  by_cases hlong : 3 ≤ body.length
  · -- the topic does not fit
    have htopic : ∀ h : FixedHeader, h.Announces first body.length → Reader env (TopicLenLeft w h body)
        fun u => u.rx.internal.error.isSome = true := by
      intro h hann
      refine topicLen_reader (by rw [hann.length]; exact hlong) hann.length.symm ?_
      have hid : h.idLen = idLength (firstQos first) := by
        unfold FixedHeader.idLen idLength
        rw [hann.qos]
      rw [hann.length, hid]
      by_contra hgood
      push Not at hgood
      exact hbad ⟨hlong, Nat.one_le_iff_ne_zero.mpr hgood.1, hgood.2⟩
    have hreader := (Reader.some htopic fun he => he).packet w body hhead fun g b h hdec hann =>
      (header_publish hdec (hann.type.trans ht) (by rw [hann.length]; exact hlong)).mono (fun t u hu => by
        obtain ⟨rfl, rfl⟩ := hu
        exact .inl ⟨rfl, h, hann, .first⟩) fun _ _ h => h
    refine hreader.refuses (fun v hv => ?_) (hstart _) hf
    obtain ⟨h, -, hv⟩ := hv.ended
    generalize hrest : ([] : List Byte) = rest at hv
    have hlength := congrArg List.length hrest
    cases hv with
    | first =>
      rw [List.length_nil] at hlength
      omega
    | second =>
      rw [List.length_drop, List.length_nil] at hlength
      omega
  · have hnone : Reader env (fun _ (_ : World σ) => False) fun u => u.rx.internal.error.isSome = true :=
      ⟨fun h => h.elim, fun he => he, fun _ h => h.elim, fun _ _ h => h.elim⟩
    have hreader := hnone.packet w body hhead fun g b h hdec hann =>
      (header_short hdec (hann.type.trans ht) (by rw [hann.length]; omega)).mono (fun t u hu => .inr hu) fun _ _ h => h
    exact hreader.refuses (fun v hv => hv.ended) (hstart _) hf

/-- A well-formed body is taken, and its message ends with `D`. -/
theorem publish_taken {D : World σ → Prop} (ha : env.Accepts taken) (hw : w.rx.internal = {}) (hl : LegalFirst first)
    (ht : firstType first = typePublish) (hlen : body.length ≤ 268435455) (hf : (framed first body).length ≤ env.fuel)
    (hgood : IsPublishBody (firstQos first) body) (he : (bodyMessage first body).Ends env taken w D) :
    w.TakesPacket env (framed first body) fun v => D v ∧ v.rx.internal = {} := by
  have hhead := framed_header hl hlen
  have hqos : firstQos first ≤ 2 := by
    unfold firstQos
    rw [if_pos ht]
    have hflags := hl.2.2
    rw [if_pos ht] at hflags
    exact hflags.1
  have hm := bodyMessage_valid hgood hqos hlen
  have hbody := bodyMessage_body hgood
  have hlong := hgood.long
  have hreader := (he.reader ha hm).packet w body hhead fun g b h hdec hann =>
    (header_publish hdec (hann.type.trans ht) (by rw [hann.length]; exact hlong)).mono (fun t u hu => by
      obtain ⟨rfl, rfl⟩ := hu
      refine .inl ⟨rfl, ?_⟩
      have hleft : (bodyMessage first body).Left env taken w D ((bodyMessage first body).body.drop 0)
          (w.inTopicLen h 0 0) :=
            .body _ h 0 {} (.setRx w _) (bodyMessage_heads hgood hann ht) rfl ⟨fun h => by omega, fun h => by omega,
              fun _ => rfl⟩ (by rw [hbody]; omega)
      rwa [hbody] at hleft) fun _ _ h => h
  have htakes := hreader.takes (Whole.start hw (by simp)) hf
  refine ⟨fun pieces hp => ?_, fun pieces last more hne hp => ?_⟩
  · obtain ⟨v, hrun, hv⟩ := htakes.calls pieces hp
    exact ⟨v, hrun, hv.ended.ended⟩
  · obtain ⟨rs, v, fuel, u, hrun, hu, hgo⟩ := htakes.past pieces last more hne hp
    exact ⟨rs, v, fuel, u, hrun, hu.ended.ended, hgo⟩

end All

end LightMqtt
