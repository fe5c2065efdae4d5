import LightMqtt.Limits
import LightMqtt.Stream

/-!
# The message of a PUBLISH

What a PUBLISH carries from one application to the other, and the bytes it is
sent as. The encoder sends the bytes of the message of its object, in whatever
pieces its buffers have room for.
-/

namespace LightMqtt

open Exec

variable {σ : Type} {env : Env σ}

/-- A message as the applications at both ends see it, with the id of its packet. -/
structure Message where
  qos : ℕ
  retain : Bool
  id : PacketId
  topic : List Byte
  payload : List Byte
  deriving DecidableEq, Repr

namespace Message

def idBytes (m : Message) : List Byte := if m.qos = 0 then [] else packetIdBytes m.id

/- The bytes behind the fixed header. -/
def body (m : Message) : List Byte :=
  stringLenBytes m.topic.length ++ m.topic ++ m.idBytes ++ m.payload

/- The first byte of a packet that is sent for the first time. -/
def firstByte (m : Message) : Byte :=
  UInt8.ofNat (typePublish * 16 ||| (if m.retain then 1 else 0) ||| m.qos <<< 1)

def bytes (m : Message) : List Byte := m.firstByte :: lengthBytes m.body.length ++ m.body

/-- A message that fits into a packet. -/
structure Valid (m : Message) : Prop where
  qos : m.qos ≤ 2
  id : m.qos = 0 → m.id = 0
  topic : 0 < m.topic.length
  topicFits : m.topic.length ≤ 65535
  bodyFits : m.body.length ≤ 0xfffffff

theorem idBytes_length (m : Message) : m.idBytes.length = if m.qos = 0 then 0 else 2 := by
  unfold idBytes
  split <;> rfl

theorem body_length (m : Message) :
    m.body.length = 2 + m.topic.length + (if m.qos = 0 then 0 else 2) + m.payload.length := by
  unfold body
  rw [List.length_append, List.length_append, List.length_append, idBytes_length]
  rfl

end Message

/-! ### The message of an object -/

/- The bytes of a string in memory. -/
def LString.content (s : LString) : List Byte := (s.buf.getD []).take s.len.toNat

/-- A string that is in memory, of which there need be nothing if it is empty. -/
structure LString.InMemory (s : LString) : Prop where
  read : s.read = false
  nonneg : 0 ≤ s.len
  buffer : s.len = 0 ∨ ∃ mem, s.buf = some mem ∧ s.len.toNat ≤ mem.length

/-- An object whose strings are in memory, in one address space. -/
structure Publish.InMemory (b : Publish) : Prop where
  topic : b.topic.InMemory
  payload : b.payload.InMemory
  fits : b.topic.len + b.payload.len + 4 < 2^63

/- The packet of QoS 0 has no id. -/
def Publish.message (b : Publish) (id : PacketId) : Message where
  qos := b.qos
  retain := b.retain
  id := if b.qos = 0 then 0 else id
  topic := b.topic.content
  payload := b.payload.content

theorem LString.InMemory.content_length {s : LString} (h : s.InMemory) : s.content.length = s.len.toNat := by
  unfold LString.content
  rcases h.buffer with h0 | ⟨mem, hm, hl⟩
  · rw [h0]
    rfl
  · rw [hm, Option.getD_some, List.length_take]
    omega

theorem LString.InMemory.ready {s : LString} (h : s.InMemory) (hl : s.len < 2^63) : s.Ready 0 := by
  refine ⟨⟨h.nonneg, hl⟩, Nat.zero_le _, ?_⟩
  rcases h.buffer with h0 | hm
  · exact .inl ⟨h0, .inl h.read⟩
  · exact .inr (.inr ⟨h.read, .inl rfl, hm⟩)

theorem LString.InMemory.from_zero {s : LString} (h : s.InMemory) (r : ℕ → List Byte) : s.from r 0 = s.content := by
  unfold LString.from
  rw [if_neg (by simp [h.read]), List.drop_zero]
  rfl

section Object
variable {b : Publish} {id : PacketId}

theorem publishValidate_topic (h : publishValidate b = true) : 0 < b.topic.len ∧ b.topic.len ≤ 65535 ∧ b.qos ≤ 2 := by
  unfold publishValidate at h
  simp only [Bool.and_eq_true, decide_eq_true_eq] at h
  obtain ⟨⟨⟨hlen, hpos⟩, hqos⟩, -⟩ := h
  exact ⟨hpos, (field_bounds hlen).2, of_decide_eq_true hqos⟩

/- No sum of lengths overflows. -/
theorem Publish.InMemory.length (hm : b.InMemory) (id : PacketId) :
    publishCalcRemainingLength b = (b.message id).body.length := by
  have ht := hm.topic.nonneg
  have hp := hm.payload.nonneg
  have hf := hm.fits
  have hsum : publishCalcRemainingLength b = publishLength b := by
    change toLong (publishLength b) = _
    unfold publishLength publishHeadLength
    apply toLong_of_bounds <;> split <;> omega
  rw [hsum, Message.body_length]
  unfold publishLength publishHeadLength
  change _ = ((2 + b.topic.content.length + (if b.qos = 0 then 0 else 2) + b.payload.content.length : ℕ) : ℤ)
  rw [hm.topic.content_length, hm.payload.content_length]
  split <;> omega

theorem Publish.InMemory.encodable (hm : b.InMemory) (hv : publishValidate b = true) :
    Encodable (publishCalcRemainingLength b) := by
  obtain ⟨-, -, hmax⟩ := publishValidate_bounds hv
  refine ⟨?_, hmax⟩
  rw [hm.length 0]
  exact Int.natCast_nonneg _

theorem Publish.InMemory.valid (hm : b.InMemory) (hv : publishValidate b = true) : (b.message id).Valid := by
  obtain ⟨hpos, hlen, hqos⟩ := publishValidate_topic hv
  have hcount : (b.message id).topic.length = b.topic.len.toNat := hm.topic.content_length
  refine ⟨hqos, fun h0 => if_pos h0, ?_, ?_, ?_⟩
  · omega
  · omega
  · have hmax := (hm.encodable hv).2
    rw [hm.length id] at hmax
    omega

theorem publishFirstByte_message (hc : b.encodeCount = 0) (id : PacketId) : publishFirstByte b = (b.message id).firstByte := by
  unfold publishFirstByte Message.firstByte
  rw [hc, if_neg (lt_irrefl 0), Nat.or_zero]
  rfl

end Object

/-! ### The bytes the encoder owes -/

/-- The encoder needs no read callback for what it owes, and is not halted. -/
structure World.Unhindered (env : Env σ) (w : World σ) : Prop where
  encoding : w.Encoding
  inMemory : ∀ f ∈ w.fields, w.InMemory f
  nonempty : ∀ r, .str r true true ∈ w.fields → (w.str r).len ≠ 0
  silent : (∀ e ∈ w.line, e.kind ≠ .publish0) ∨ env.Silent fun _ _ => []
  within : ¬ w.AtEnd
  fuel : w.turns + 1 ≤ env.fuel

/- The kind and the value of an accepted request to publish. -/
def publishKind (qos : ℕ) : Kind := if qos = 0 then .publish0 else if qos = 1 then .publish1 else .publish2

def publishEntry (qos : ℕ) (p : Ptr) (id : PacketId) (req : ℕ) : Entry :=
  ⟨publishKind qos, { packetId := id, value := p, callback := some .onPublish, req := some req }⟩

/-- A fresh encoder whose store has nothing but the request to send the object `p`. -/
structure World.Publishes (w : World σ) (p : Ptr) (id : PacketId) (req : ℕ) : Prop where
  fresh : w.tx.internal = {}
  opened : w.tx.closed = false
  pending : w.txStore.pending = [publishEntry (w.heap.publishes p).qos p id req]

section Owed
variable {w : World σ} {p : Ptr} {id : PacketId} {req : ℕ}

theorem publishKind_isPublish (qos : ℕ) :
    publishKind qos = .publish0 ∨ publishKind qos = .publish1 ∨ publishKind qos = .publish2 := by
  unfold publishKind
  split
  · exact .inl rfl
  · split
    · exact .inr (.inl rfl)
    · exact .inr (.inr rfl)

theorem publishEntry_wellTyped (qos : ℕ) (p : Ptr) (id : PacketId) (req : ℕ) : (publishEntry qos p id req).WellTyped := by
  unfold publishEntry
  rcases publishKind_isPublish qos with hk | hk | hk <;> rw [hk] <;> exact ⟨rfl, rfl⟩

theorem publishEntry_encoders {h : Heap} {qos : ℕ} {x : Encoder × Option ℕ}
    (hx : x ∈ entryEncoders h (publishEntry qos p id req)) :
    x.1 = .publishFixedHeader ∨ x.1 = .publishTopic ∨ x.1 = .publishPacketId ∨ x.1 = .publishPayload := by
  unfold entryEncoders publishEntry at hx
  rcases publishKind_isPublish qos with hk | hk | hk <;> rw [hk] at hx <;> obtain ⟨y, hy, rfl⟩ := List.mem_map.mp hx <;>
    split at hy <;> simp only [List.mem_cons, List.not_mem_nil, or_false] at hy <;> tauto

theorem World.Publishes.line (h : w.Publishes p id req) : w.line = [publishEntry (w.heap.publishes p).qos p id req] := by
  unfold World.line
  rw [h.opened, h.pending]
  change untilDisconnect [_] = _
  rw [untilDisconnect, if_neg]
  · rfl
  · change publishKind _ ≠ _
    rcases publishKind_isPublish (w.heap.publishes p).qos with hk | hk | hk <;> rw [hk] <;> decide

/- The fields of the packet. -/
theorem World.Publishes.fields (h : w.Publishes p id req) :
    w.fields =
      .header (publishFirstByte (w.heap.publishes p) :: lengthBytes (publishCalcRemainingLength (w.heap.publishes p))) ::
      .str (.publishTopic p) true true ::
        ((if (w.heap.publishes p).qos = 0 then [] else [.header (packetIdBytes id)]) ++
          [.str (.publishPayload p) false false]) := by
  have hpos : w.tx.internal.pos = 0 := by rw [h.fresh]
  rw [fields_cons h.line, hpos, List.drop_zero]
  unfold entryFields entryEncoders publishEntry
  rcases publishKind_isPublish (w.heap.publishes p).qos with hk | hk | hk <;> rw [hk] <;>
    simp only [lineFields, List.append_nil, List.map_map] <;> split <;> rfl

theorem World.Publishes.field_cases (h : w.Publishes p id req) {f : Field} (hf : f ∈ w.fields) :
    (∃ b bs, f = .header (b :: bs)) ∨ f = .str (.publishTopic p) true true ∨ f = .str (.publishPayload p) false false := by
  rw [h.fields] at hf
  simp only [List.mem_cons, List.mem_append, List.not_mem_nil, or_false] at hf
  rcases hf with rfl | rfl | hf | rfl
  · exact .inl ⟨_, _, rfl⟩
  · exact .inr (.inl rfl)
  · split at hf
    · contradiction
    · rw [List.mem_singleton] at hf
      rw [hf]
      exact .inl ⟨_, _, rfl⟩
  · exact .inr (.inr rfl)

variable (h : w.Publishes p id req) (hm : (w.heap.publishes p).InMemory)
include h hm

theorem World.Publishes.inMemory {f : Field} (hf : f ∈ w.fields) : w.InMemory f := by
  intro r el ie he
  rcases h.field_cases hf with ⟨b, bs, rfl⟩ | rfl | rfl
  · contradiction
  · cases he
    exact hm.topic.read
  · cases he
    exact hm.payload.read

theorem World.Publishes.ready {f : Field} (hf : f ∈ w.fields) : w.Ready 0 f := by
  have ht := hm.topic.nonneg
  have hp := hm.payload.nonneg
  have hfits := hm.fits
  rcases h.field_cases hf with ⟨b, bs, rfl⟩ | rfl | rfl
  · exact Nat.succ_pos _
  · exact ⟨rfl, .inl rfl, hm.topic.ready (by omega)⟩
  · exact ⟨rfl, .inr rfl, hm.payload.ready (by omega)⟩

/-- The encoder is ready to send the packet. -/
theorem World.Publishes.encoding (hv : publishValidate (w.heap.publishes p) = true) : w.Encoding := by
  refine encoding_fresh h.fresh (fun f => h.ready hm) (apart_inMemory fun f => h.inMemory hm) fun e he => ?_
  rw [h.line, List.mem_singleton] at he
  subst he
  refine ⟨publishEntry_wellTyped .., fun x hx => ?_⟩
  have hfirst : Encoder.publishFixedHeader.Valid w.heap (publishEntry (w.heap.publishes p).qos p id req).value :=
    ⟨hv, hm.encodable hv⟩
  rcases publishEntry_encoders hx with hx | hx | hx | hx <;> rw [hx]
  · exact hfirst
  all_goals trivial

theorem World.Publishes.unhindered (hv : publishValidate (w.heap.publishes p) = true)
    (hq : (w.heap.publishes p).qos = 0 → env.Silent fun _ _ => []) (hf : 7 ≤ env.fuel) : w.Unhindered env := by
  have henc := h.encoding hm hv
  refine ⟨henc, fun f => h.inMemory hm, fun r hr => ?_, ?_, (henc.not_atEnd (by rw [h.fresh])).1, ?_⟩
  · rcases h.field_cases hr with ⟨b, bs, he⟩ | he | he
    · contradiction
    · cases he
      exact (publishValidate_topic hv).1.ne'
    · cases he
  · by_cases h0 : (w.heap.publishes p).qos = 0
    · exact .inr (hq h0)
    · left
      intro e he
      rw [h.line, List.mem_singleton] at he
      rw [he]
      change publishKind _ ≠ _
      unfold publishKind
      rw [if_neg h0]
      split <;> decide
  · unfold World.turns
    rw [h.line, h.fields]
    split <;> simp only [List.length_cons, List.length_append, List.length_nil] <;> omega

/-- It owes the bytes of the message. -/
theorem World.Publishes.owed (hc : (w.heap.publishes p).encodeCount = 0) (rest : σ → ℕ → List Byte) :
    w.owed rest = ((w.heap.publishes p).message id).bytes := by
  have htopic : w.left rest 0 (.str (.publishTopic p) true true) =
      stringLenBytes ((w.heap.publishes p).message id).topic.length ++ ((w.heap.publishes p).message id).topic := by
    have hlen : ((((w.heap.publishes p).message id).topic.length : ℕ) : ℤ) = (w.heap.publishes p).topic.len := by
      have hcount : ((w.heap.publishes p).message id).topic.length = _ := hm.topic.content_length
      rw [hcount]
      exact Int.toNat_of_nonneg hm.topic.nonneg
    rw [hlen, left_str w _ _ _ _ (by simp)]
    exact congrArg (stringLenBytes _ ++ ·) (hm.topic.from_zero (rest w.app))
  have hpayload : w.left rest 0 (.str (.publishPayload p) false false) =
      ((w.heap.publishes p).message id).payload := by
    by_cases h0 : (w.str (.publishPayload p)).len = 0
    · have hnil : ((w.heap.publishes p).message id).payload = [] := by
        apply List.eq_nil_of_length_eq_zero
        change (w.heap.publishes p).payload.content.length = 0
        rw [hm.payload.content_length]
        change (w.str (.publishPayload p)).len.toNat = 0
        rw [h0]
        rfl
      rw [hnil]
      exact if_pos ⟨h0, rfl⟩
    · rw [left_str w _ _ _ _ (fun h => h0 h.1)]
      exact hm.payload.from_zero (rest w.app)
  have hid : (if (w.heap.publishes p).qos = 0 then [] else [.header (packetIdBytes id)]).flatMap (w.left rest 0) =
      ((w.heap.publishes p).message id).idBytes := by
    by_cases hq : (w.heap.publishes p).qos = 0
    · rw [if_pos hq]
      exact (if_pos hq).symm
    · have hsame : ((w.heap.publishes p).message id).id = id := if_neg hq
      rw [if_neg hq, Message.idBytes, hsame]
      exact (if_neg hq).symm
  have hhead : ∀ bs, w.left rest 0 (.header bs) = bs := fun _ => rfl
  unfold World.owed
  rw [h.fields, h.fresh]
  simp only [World.bytes, List.flatMap_cons, List.flatMap_append, List.flatMap_nil, List.append_nil, htopic, hpayload,
    hid, hhead]
  rw [publishFirstByte_message hc id, hm.length id]
  unfold Message.bytes Message.body
  simp only [List.append_assoc]

end Owed

/-! ### Calls of the encoder -/

theorem World.Unhindered.next {w v : World σ} {bufLen : ℕ} {bs : List Byte} (h : w.Unhindered env)
    (he : Emitted env (fun _ _ => []) w bufLen bs v) : v.Unhindered env := by
  obtain ⟨done, hline, -⟩ := he.done
  obtain ⟨fs, hfields, -⟩ := he.sent
  have hsub : ∀ f ∈ v.fields, f ∈ w.fields := by
    intro f hf
    rw [hfields]
    exact List.mem_append_right _ hf
  have hstill : ∀ f ∈ v.fields, ∀ r el ie, f = .str r el ie → (v.str r).still = (w.str r).still := by
    intro f hf r el ie hfe
    apply he.strings
    obtain ⟨off, hready⟩ := h.encoding.fields.ready (hsub f hf)
    rw [hfe] at hready
    exact hready.1
  refine ⟨he.encoding, fun f hf r el ie hfe => ?_, fun r hr => ?_, ?_, fun hend => ?_, ?_⟩
  · have hread := congrArg LString.read (hstill f hf r el ie hfe)
    exact hread.trans (h.inMemory f (hsub f hf) r el ie hfe)
  · have hlen := congrArg LString.len (hstill _ hr r true true rfl)
    change (v.str r).len = (w.str r).len at hlen
    rw [hlen]
    exact h.nonempty r (hsub _ hr)
  · refine h.silent.imp_left fun hs e he' => hs e ?_
    rw [hline]
    exact List.mem_append_right _ he'
  · rcases he.atEnd hend with hend | ⟨f, l, hf, r, rfl, hempty, -⟩
    · exact h.within hend
    · exact h.nonempty r (by rw [hf]; exact List.mem_cons_self ..) hempty
  · have hfuel := h.fuel
    unfold World.turns at hfuel ⊢
    rw [hfields, hline, List.length_append, List.length_append] at hfuel
    omega

/- A call takes as much as its buffer has room for. -/
theorem Emitted.take {w v : World σ} {rest : σ → ℕ → List Byte} {bufLen : ℕ} {bs : List Byte}
    (h : Emitted env rest w bufLen bs v) (hm : ∀ f ∈ w.fields, w.InMemory f) :
    bs = (w.owed rest).take bufLen ∧ v.owed rest = (w.owed rest).drop bufLen := by
  have hroom := h.room
  rw [h.owed]
  rcases h.filled hm with hfull | hdone
  · rw [← hfull, List.take_left, List.drop_left]
    exact ⟨rfl, rfl⟩
  · have hnil : v.owed rest = [] := by
      unfold World.owed
      rw [fields_nil hdone]
      rfl
    rw [hnil, List.append_nil, List.take_of_length_le hroom, List.drop_of_length_le hroom]
    exact ⟨rfl, rfl⟩

/-- Calls of the encoder, one for each buffer, fill them with what it owes. -/
theorem encode_calls (sizes : List ℕ) (w : World σ) (h : w.Unhindered env) :
    Wp (sizes.mapM (lmqttTxBufferEncode env)) w
      (fun rs _ => (∀ r ∈ rs, r.1 ≠ .error) ∧ rs.flatMap (·.2) = (w.owed fun _ _ => []).take sizes.sum)
      fun _ _ => False := by
  induction sizes generalizing w with
  | nil => exact ⟨by simp, by simp⟩
  | cons n sizes ih =>
    rw [List.mapM_cons]
    simp only [wp_bind]
    refine (lmqttTxBufferEncode_emitted n w (.inl h.inMemory) h.silent h.encoding).mono (fun r v hv => ?_)
      fun _ _ hh => ?_
    · obtain ⟨hok, he⟩ := hv
      obtain ⟨htake, hdrop⟩ := he.take h.inMemory
      refine (ih v (h.next he)).mono (fun rs _ hrs => ?_) fun _ _ h => h
      obtain ⟨hall, hbytes⟩ := hrs
      refine ⟨?_, ?_⟩
      · intro x hx
        rcases List.mem_cons.mp hx with rfl | hx
        · exact hok
        · exact hall x hx
      · rw [List.flatMap_cons, hbytes, htake, hdrop, List.sum_cons, List.take_add]
    · rcases hh with ⟨-, hlt⟩ | ⟨-, hend⟩
      · have hfuel := h.fuel
        omega
      · exact h.within hend

end LightMqtt
