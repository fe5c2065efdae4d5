import LightMqtt.RoundTrip
import LightMqtt.Wire

/-!
# The bodies of requests

The bytes behind the fixed header of a CONNECT, a SUBSCRIBE, an UNSUBSCRIBE and a
PUBLISH, as the fields of their objects. The fixed header declares their number.
-/

namespace LightMqtt

open Exec

variable {σ : Type} {env : Env σ}

/-! ### Objects -/

structure Connect.InMemory (c : Connect) : Prop where
  clientId : c.clientId.InMemory
  willTopic : c.willTopic.InMemory
  willMessage : c.willMessage.InMemory
  userName : c.userName.InMemory
  password : c.password.InMemory

/- The fields of the payload of a CONNECT that are left out where they are empty. -/
def Connect.optional (c : Connect) : List LString := [c.willTopic, c.willMessage, c.userName, c.password]

/- The strings in the payload of a CONNECT. -/
def Connect.strings (c : Connect) : List (List Byte) :=
  c.clientId.content :: (c.optional.map LString.content).filter (· ≠ [])

def Connect.variableHeader (c : Connect) : List Byte :=
  [0, 4, 0x4d, 0x51, 0x54, 0x54, 4, UInt8.ofNat (connectFlags c), stringLenByte c.keepAlive.toNat 1,
    stringLenByte c.keepAlive.toNat 0]

def Connect.body (c : Connect) : List Byte := c.variableHeader ++ c.strings.flatMap Prefixed.encode

/- The topics of a subscribe object with the requested QoS. -/
def Subscribe.requests (s : Subscribe) : List (List Byte × ℕ) :=
  (List.range s.count.toNat).map fun i =>
    ((s.subscriptions.getD i {}).topic.content, (s.subscriptions.getD i {}).requestedQos)

def subscribeItem (includeQos : Bool) (x : List Byte × ℕ) : List Byte :=
  Prefixed.encode x.1 ++ if includeQos then [UInt8.ofNat x.2] else []

def Subscribe.body (s : Subscribe) (includeQos : Bool) (id : PacketId) : List Byte :=
  packetIdBytes id ++ s.requests.flatMap (subscribeItem includeQos)

/-! ### Strings behind their length -/

theorem stringLenBytes_eq (n : ℕ) : stringLenBytes n = Prefixed.lengthBytes n := by
  unfold stringLenBytes Prefixed.lengthBytes
  have hhi : stringLenByte n 1 = UInt8.ofNat (n / 256) := by
    rw [← UInt8.toNat_inj, stringLenByte_toNat, UInt8.toNat_ofNat']
    omega
  have hlo : stringLenByte n 0 = UInt8.ofNat (n % 256) := by
    rw [← UInt8.toNat_inj, stringLenByte_toNat, UInt8.toNat_ofNat']
    omega
  rw [hhi, hlo]

theorem LString.InMemory.natCast {s : LString} (h : s.InMemory) : s.len = s.content.length := by
  rw [h.content_length]
  exact (Int.toNat_of_nonneg h.nonneg).symm

/- A string that is sent in any case. -/
theorem LString.InMemory.encoded {s : LString} (h : s.InMemory) :
    stringLenBytes s.len ++ s.content = Prefixed.encode s.content := by
  rw [h.natCast, stringLenBytes_eq]
  rfl

theorem LString.InMemory.len_zero {s : LString} (h : s.InMemory) : s.len = 0 ↔ s.content = [] := by
  rw [h.natCast, Int.natCast_eq_zero, List.length_eq_zero_iff]

/-- The bytes of a field that begins with its length. -/
theorem field_str_bytes {str : StrRef → LString} {r : StrRef} (ie : Bool) (h : (str r).InMemory) :
    (Field.str r true ie).bytes str =
      if (str r).content = [] ∧ ie = false then [] else Prefixed.encode (str r).content := by
  unfold Field.bytes
  simp only [if_true, h.encoded, h.len_zero]

/- Those of the optional fields are the fields that are not empty. -/
theorem optional_bytes (l : List (List Byte)) :
    (l.flatMap fun s => if s = [] then [] else Prefixed.encode s) = (l.filter (· ≠ [])).flatMap Prefixed.encode := by
  induction l with
  | nil => rfl
  | cons s l ih =>
    rw [List.flatMap_cons, ih]
    by_cases hs : s = []
    · rw [if_pos hs, List.filter_cons_of_neg (by simp [hs]), List.nil_append]
    · rw [if_neg hs, List.filter_cons_of_pos (by simpa using hs), List.flatMap_cons]

/-! ### CONNECT -/

section Connect
variable {w : World σ} {e : Entry}

theorem connect_packet (hk : e.kind = .connect) (hm : (w.heap.connects e.value.value).InMemory) :
    w.packet e = 16 :: lengthBytes (connectCalcRemainingLength (w.heap.connects e.value.value)) ++
      (w.heap.connects e.value.value).body := by
  have hfields : entryFields w.heap e = [
      .header (16 :: lengthBytes (connectCalcRemainingLength (w.heap.connects e.value.value))),
      .header (w.heap.connects e.value.value).variableHeader, .str (.connectClientId e.value.value) true true,
      .str (.connectWillTopic e.value.value) true false, .str (.connectWillMessage e.value.value) true false,
      .str (.connectUserName e.value.value) true false, .str (.connectPassword e.value.value) true false] := by
    unfold entryFields entryEncoders
    rw [hk]
    rfl
  have hopt := optional_bytes ((w.heap.connects e.value.value).optional.map LString.content)
  unfold World.packet Connect.body Connect.strings
  rw [hfields, List.flatMap_cons (f := Prefixed.encode), ← hopt]
  simp only [List.flatMap_cons, List.flatMap_nil, List.append_nil]
  rw [field_str_bytes true hm.clientId, field_str_bytes false hm.willTopic, field_str_bytes false hm.willMessage,
    field_str_bytes false hm.userName, field_str_bytes false hm.password]
  simp [Field.bytes, Connect.optional, World.str]

/- What an optional field adds to the length. -/
theorem optional_length (l : List LString) (h : ∀ s ∈ l, s.InMemory) :
    (((((l.map LString.content).filter (· ≠ [])).flatMap Prefixed.encode).length : ℕ) : ℤ) =
      (l.map stringCalcFieldLength).sum := by
  induction l with
  | nil => rfl
  | cons s l ih =>
    have hs := h s (List.mem_cons_self ..)
    have hrest := ih fun x hx => h x (List.mem_cons_of_mem _ hx)
    have hlen := hs.natCast
    rw [List.map_cons, List.map_cons, List.sum_cons, ← hrest]
    unfold stringCalcFieldLength
    by_cases hnil : s.content = []
    · rw [List.filter_cons_of_neg (by simp [hnil]), if_neg (by rw [hs.len_zero.mpr hnil]; decide), Int.zero_add]
    · have hpos := List.length_pos_iff.mpr hnil
      rw [List.filter_cons_of_pos (by simpa using hnil), List.flatMap_cons, List.length_append, Prefixed.encode_length,
        if_pos (by omega)]
      push_cast
      omega

theorem connect_length (hv : connectValidate (w.heap.connects e.value.value) = true)
    (hm : (w.heap.connects e.value.value).InMemory) :
    connectCalcRemainingLength (w.heap.connects e.value.value) = (w.heap.connects e.value.value).body.length := by
  have hopt := optional_length (w.heap.connects e.value.value).optional fun s hs => by
    simp only [Connect.optional, List.mem_cons, List.not_mem_nil, or_false] at hs
    rcases hs with rfl | rfl | rfl | rfl
    · exact hm.willTopic
    · exact hm.willMessage
    · exact hm.userName
    · exact hm.password
  have hid := hm.clientId.natCast
  have hsum : (w.heap.connects e.value.value).body.length = 10 + (2 + (w.heap.connects e.value.value).clientId.content.length) +
      ((((w.heap.connects e.value.value).optional.map LString.content).filter (· ≠ [])).flatMap Prefixed.encode).length := by
    unfold Connect.body Connect.strings
    rw [List.length_append, List.flatMap_cons, List.length_append, Prefixed.encode_length, ← Nat.add_assoc]
    rfl
  rw [(connectLength_exact hv).exact, hsum]
  push_cast
  rw [hopt]
  unfold connectLength Connect.optional
  simp only [List.map_cons, List.map_nil, List.sum_cons, List.sum_nil]
  omega

/-- The payload of a CONNECT is the client id and the fields that are not empty. -/
theorem connect_strings (hv : connectValidate (w.heap.connects e.value.value) = true)
    (hm : (w.heap.connects e.value.value).InMemory) :
    Prefixed.takeAll Prefixed.take ((w.heap.connects e.value.value).body.drop 10) =
      some (w.heap.connects e.value.value).strings := by
  obtain ⟨hid, htopic, hmessage, huser, hpassword⟩ := connectValidate_fields hv
  have hle : ∀ {s : LString}, s.InMemory → stringValidateFieldLength s = true → s.content.length ≤ 65535 := by
    intro s hs hlen
    have hcast := hs.natCast
    have hbound := (field_bounds hlen).2
    omega
  have hall : ∀ s ∈ (w.heap.connects e.value.value).strings, s.length ≤ 65535 := by
    intro s hs
    rcases List.mem_cons.mp hs with rfl | hs
    · exact hle hm.clientId hid
    · obtain ⟨x, hx, rfl⟩ := List.mem_map.mp (List.mem_of_mem_filter hs)
      simp only [Connect.optional, List.mem_cons, List.not_mem_nil, or_false] at hx
      rcases hx with rfl | rfl | rfl | rfl
      · exact hle hm.willTopic htopic
      · exact hle hm.willMessage hmessage
      · exact hle hm.userName huser
      · exact hle hm.password hpassword
  have hdrop : (w.heap.connects e.value.value).body.drop 10 =
      (w.heap.connects e.value.value).strings.flatMap Prefixed.encode := rfl
  rw [hdrop]
  exact Prefixed.takeAll_flatMap _ (fun s hs more => Prefixed.take_encode (hall s hs) more) fun s _ => by
    simp [Prefixed.encode, Prefixed.lengthBytes]

end Connect

/-! ### SUBSCRIBE and UNSUBSCRIBE -/

/- The kind of a request for topics, and the first byte of its packet. -/
def Kind.forTopics (k : Kind) (includeQos : Bool) : Prop := k = if includeQos then .subscribe else .unsubscribe

def topicsFirst (includeQos : Bool) : ℕ := (if includeQos then typeSubscribe else typeUnsubscribe) * 16 ||| 2

def Subscribe.InMemory (s : Subscribe) : Prop := ∀ t ∈ s.topics, t.InMemory

section Topics
variable {w : World σ} {e : Entry} {includeQos : Bool}

theorem topics_fields (hk : e.kind.forTopics includeQos) : entryFields w.heap e =
    .header (idPacket (topicsFirst includeQos)
      (subscribeCalcRemainingLength (w.heap.subscribes e.value.value) includeQos) e.value.packetId) ::
    (List.range (w.heap.subscribes e.value.value).count.toNat).flatMap fun i =>
      .str (.subscriptionTopic e.value.value i) true true ::
        if includeQos then [.header [UInt8.ofNat (w.heap.subscription e.value.value i).requestedQos]] else [] := by
  unfold entryFields entryEncoders
  cases includeQos with
  | true =>
    change e.kind = .subscribe at hk
    rw [hk]
    simp only [List.map_cons, List.map_flatMap, if_true]
    rfl
  | false =>
    change e.kind = .unsubscribe at hk
    rw [hk]
    simp only [List.map_cons, List.map_map, Bool.false_eq_true, if_false]
    rw [← List.map_eq_flatMap]
    rfl

theorem topic_inMemory (hm : (w.heap.subscribes e.value.value).InMemory) {i : ℕ}
    (hi : i < (w.heap.subscribes e.value.value).count.toNat) : (w.str (.subscriptionTopic e.value.value i)).InMemory :=
  hm _ (List.mem_map.mpr ⟨i, List.mem_range.mpr hi, rfl⟩)

theorem topics_packet (hk : e.kind.forTopics includeQos) (hm : (w.heap.subscribes e.value.value).InMemory) :
    w.packet e = UInt8.ofNat (topicsFirst includeQos) ::
      lengthBytes (subscribeCalcRemainingLength (w.heap.subscribes e.value.value) includeQos) ++
        (w.heap.subscribes e.value.value).body includeQos e.value.packetId := by
  unfold World.packet Subscribe.body Subscribe.requests
  rw [topics_fields hk, List.flatMap_cons, List.flatMap_assoc, List.flatMap_map]
  have heach : ∀ i ∈ List.range (w.heap.subscribes e.value.value).count.toNat,
      (Field.str (.subscriptionTopic e.value.value i) true true ::
        if includeQos then [.header [UInt8.ofNat (w.heap.subscription e.value.value i).requestedQos]] else []).flatMap
          (Field.bytes w.str) =
      subscribeItem includeQos (((w.heap.subscribes e.value.value).subscriptions.getD i {}).topic.content,
        ((w.heap.subscribes e.value.value).subscriptions.getD i {}).requestedQos) := by
    intro i hi
    rw [List.flatMap_cons, field_str_bytes true (topic_inMemory hm (List.mem_range.mp hi)), if_neg (by simp)]
    cases includeQos <;> rfl
  rw [List.flatMap_congr heach]
  unfold Field.bytes idPacket
  simp only [List.cons_append, List.append_assoc]

theorem subscribeItem_length (includeQos : Bool) (x : List Byte × ℕ) :
    (subscribeItem includeQos x).length = x.1.length + 2 + if includeQos then 1 else 0 := by
  unfold subscribeItem
  rw [List.length_append, Prefixed.encode_length]
  cases includeQos <;> simp only [if_true, Bool.false_eq_true, if_false, List.length_nil, List.length_singleton] <;> omega

theorem topics_length (hs : IsInt (w.heap.subscribes e.value.value).count)
    (hv : subscribeValidate (w.heap.subscribes e.value.value) = true) (hm : (w.heap.subscribes e.value.value).InMemory) :
    subscribeCalcRemainingLength (w.heap.subscribes e.value.value) includeQos =
      ((w.heap.subscribes e.value.value).body includeQos e.value.packetId).length := by
  have hitems : ∀ l : List ℕ, (∀ i ∈ l, i < (w.heap.subscribes e.value.value).count.toNat) →
      topicsLength (l.map fun i => ((w.heap.subscribes e.value.value).subscriptions.getD i {}).topic) includeQos =
        ((l.map fun i => (((w.heap.subscribes e.value.value).subscriptions.getD i {}).topic.content,
          ((w.heap.subscribes e.value.value).subscriptions.getD i {}).requestedQos)).flatMap
              (subscribeItem includeQos)).length := by
    intro l hl
    induction l with
    | nil => rfl
    | cons i l ih =>
      have hrest := ih fun j hj => hl j (List.mem_cons_of_mem _ hj)
      have hcast : ((w.heap.subscribes e.value.value).subscriptions.getD i {}).topic.len =
          ((w.heap.subscribes e.value.value).subscriptions.getD i {}).topic.content.length :=
        (topic_inMemory hm (hl i (List.mem_cons_self ..))).natCast
      unfold topicsLength at hrest ⊢
      rw [List.map_cons, List.map_cons, List.sum_cons, hrest, List.map_cons, List.flatMap_cons, List.length_append,
        subscribeItem_length, hcast]
      push_cast
      split <;> omega
  rw [(subscribeLength_exact hs hv includeQos).1]
  unfold subscribeLength Subscribe.topics Subscribe.body Subscribe.requests
  rw [hitems _ fun i hi => List.mem_range.mp hi, List.length_append]
  push_cast
  rfl

/- A packet id, and the items behind it. -/
def takeId : List Byte → Option (PacketId × List Byte)
  | hi :: lo :: bs => some (hi.toUInt16 <<< 8 ||| lo.toUInt16, bs)
  | _ => none

/- A topic, and the QoS behind it in a SUBSCRIBE. -/
def takeTopicQos (bs : List Byte) : Option ((List Byte × ℕ) × List Byte) :=
  match Prefixed.take bs with
  | some (topic, qos :: bs) => some ((topic, qos.toNat), bs)
  | _ => none

/-- The packet id and the topics of a body, each with its QoS. -/
def readSubscribe (body : List Byte) : Option (PacketId × List (List Byte × ℕ)) := do
  let (id, bs) ← takeId body
  let items ← Prefixed.takeAll takeTopicQos bs
  pure (id, items)

/-- The packet id and the topics of a body. -/
def readUnsubscribe (body : List Byte) : Option (PacketId × List (List Byte)) := do
  let (id, bs) ← takeId body
  let topics ← Prefixed.takeAll Prefixed.take bs
  pure (id, topics)

theorem takeId_packetIdBytes (id : PacketId) (bs : List Byte) : takeId (packetIdBytes id ++ bs) = some (id, bs) := by
  change some (_, bs) = _
  rw [packetId_join]

theorem requests_bounds {s : Subscribe} (hv : subscribeValidate s = true) (hm : s.InMemory) {x : List Byte × ℕ}
    (hx : x ∈ s.requests) : x.1.length ≤ 65535 ∧ x.2 ≤ 2 := by
  obtain ⟨i, hi, rfl⟩ := List.mem_map.mp hx
  have hcast := (hm _ (List.mem_map.mpr ⟨i, hi, rfl⟩)).natCast
  obtain ⟨-, htopics⟩ := subscribeValidate_topics hv
  have hlen := (htopics _ (List.mem_map.mpr ⟨i, hi, rfl⟩)).2
  constructor
  · change (s.subscriptions.getD i {}).topic.content.length ≤ 65535
    omega
  unfold subscribeValidate at hv
  split at hv
  · contradiction
  · have hall := List.all_eq_true.mp hv i hi
    simp only [Bool.and_eq_true] at hall
    exact of_decide_eq_true hall.2

/-- What was requested is read back. -/
theorem subscribe_read {s : Subscribe} (hv : subscribeValidate s = true) (hm : s.InMemory) (id : PacketId) :
    readSubscribe (s.body true id) = some (id, s.requests) := by
  have hitems : Prefixed.takeAll takeTopicQos (s.requests.flatMap (subscribeItem true)) = some s.requests := by
    apply Prefixed.takeAll_flatMap
    · intro x hx more
      obtain ⟨hlen, hqos⟩ := requests_bounds hv hm hx
      have hbytes : subscribeItem true x ++ more = Prefixed.encode x.1 ++ (UInt8.ofNat x.2 :: more) := by
        unfold subscribeItem
        simp
      rw [hbytes, takeTopicQos, Prefixed.take_encode hlen]
      have hq : (UInt8.ofNat x.2).toNat = x.2 := Varint.toNat_ofNat (by omega)
      simp only [hq]
    · intro x _
      simp [subscribeItem, Prefixed.encode, Prefixed.lengthBytes]
  unfold readSubscribe Subscribe.body
  rw [takeId_packetIdBytes]
  change (do let items ← Prefixed.takeAll takeTopicQos (s.requests.flatMap (subscribeItem true)); pure (id, items)) = _
  rw [hitems]
  rfl

theorem unsubscribe_read {s : Subscribe} (hv : subscribeValidate s = true) (hm : s.InMemory) (id : PacketId) :
    readUnsubscribe (s.body false id) = some (id, s.requests.map Prod.fst) := by
  have hflat : s.requests.flatMap (subscribeItem false) = (s.requests.map Prod.fst).flatMap Prefixed.encode := by
    rw [List.flatMap_map]
    apply List.flatMap_congr
    intro x _
    unfold subscribeItem
    simp
  have hitems : Prefixed.takeAll Prefixed.take (s.requests.flatMap (subscribeItem false)) = some (s.requests.map Prod.fst) := by
    rw [hflat]
    apply Prefixed.takeAll_flatMap
    · intro t ht more
      obtain ⟨x, hx, rfl⟩ := List.mem_map.mp ht
      exact Prefixed.take_encode (requests_bounds hv hm hx).1 more
    · intro t _
      simp [Prefixed.encode, Prefixed.lengthBytes]
  unfold readUnsubscribe Subscribe.body
  rw [takeId_packetIdBytes]
  change (do let topics ← Prefixed.takeAll Prefixed.take (s.requests.flatMap (subscribeItem false)); pure (id, topics)) = _
  rw [hitems]
  rfl

end Topics

/-! ### PUBLISH -/

section Publish
variable {w : World σ} {e : Entry}

theorem publish_fields (hk : e.kind.isPublish = true) : entryFields w.heap e =
    .header (publishFirstByte (w.heap.publishes e.value.value) ::
      lengthBytes (publishCalcRemainingLength (w.heap.publishes e.value.value))) ::
    .str (.publishTopic e.value.value) true true ::
      ((if (w.heap.publishes e.value.value).qos = 0 then [] else [.header (packetIdBytes e.value.packetId)]) ++
        [.str (.publishPayload e.value.value) false false]) := by
  unfold entryFields entryEncoders
  cases hkind : e.kind <;> rw [hkind] at hk <;> first
    | contradiction
    | (simp only [List.map_map]
       split <;> rfl)

theorem publish_packet (hk : e.kind.isPublish = true) (hm : (w.heap.publishes e.value.value).InMemory) :
    w.packet e = publishFirstByte (w.heap.publishes e.value.value) ::
      lengthBytes (publishCalcRemainingLength (w.heap.publishes e.value.value)) ++
        ((w.heap.publishes e.value.value).message e.value.packetId).body := by
  have htopic : (Field.str (.publishTopic e.value.value) true true).bytes w.str =
      Prefixed.encode (w.heap.publishes e.value.value).topic.content := (field_str_bytes true hm.topic).trans (if_neg (by simp))
  have hpayload : (Field.str (.publishPayload e.value.value) false false).bytes w.str =
      (w.heap.publishes e.value.value).payload.content := by
    by_cases hz : (w.str (.publishPayload e.value.value)).len = 0
    · have hnil := hm.payload.len_zero.mp hz
      rw [hnil]
      exact if_pos ⟨hz, rfl⟩
    · exact if_neg fun h => hz h.1
  have hid : (if (w.heap.publishes e.value.value).qos = 0 then [] else [.header (packetIdBytes e.value.packetId)]).flatMap
      (Field.bytes w.str) = ((w.heap.publishes e.value.value).message e.value.packetId).idBytes := by
    unfold Message.idBytes Publish.message
    by_cases hq : (w.heap.publishes e.value.value).qos = 0
    · simp only [hq, if_true, List.flatMap_nil]
    · simp only [hq, if_false, List.flatMap_cons, List.flatMap_nil, List.append_nil]
      rfl
  have hencoded : Prefixed.encode (w.heap.publishes e.value.value).topic.content =
      stringLenBytes (((w.heap.publishes e.value.value).message e.value.packetId).topic.length : ℕ) ++
        ((w.heap.publishes e.value.value).message e.value.packetId).topic := by
    rw [stringLenBytes_eq]
    rfl
  unfold World.packet Message.body
  rw [publish_fields hk, List.flatMap_cons, List.flatMap_cons, List.flatMap_append, hid, htopic]
  simp only [List.flatMap_cons, List.flatMap_nil, List.append_nil, hpayload]
  change _ ++ (Prefixed.encode (w.heap.publishes e.value.value).topic.content ++ _) = _
  rw [hencoded]
  simp only [Field.bytes, List.append_assoc, List.cons_append]
  rfl

end Publish

/-! ### The declared length -/

/- The first byte of the packet of a request. -/
def World.firstByte (w : World σ) (e : Entry) : Byte :=
  match e.kind with
  | .connect => UInt8.ofNat (typeConnect * 16)
  | .subscribe => UInt8.ofNat (topicsFirst true)
  | .unsubscribe => UInt8.ofNat (topicsFirst false)
  | _ => publishFirstByte (w.heap.publishes e.value.value)

/-- A valid request whose strings are in memory, of no more bytes than a packet has room for. -/
def World.FitsPacket (w : World σ) (e : Entry) : Prop :=
  match e.kind with
  | .connect => connectValidate (w.heap.connects e.value.value) = true ∧ (w.heap.connects e.value.value).InMemory
  | .subscribe | .unsubscribe => subscribeValidate (w.heap.subscribes e.value.value) = true ∧
      IsInt (w.heap.subscribes e.value.value).count ∧ (w.heap.subscribes e.value.value).InMemory ∧
      subscribeLength (w.heap.subscribes e.value.value) (e.kind = .subscribe) ≤ 268435455
  | .publish0 | .publish1 | .publish2 => publishValidate (w.heap.publishes e.value.value) = true ∧
      (w.heap.publishes e.value.value).topic.InMemory ∧ (w.heap.publishes e.value.value).payload.InMemory ∧
      publishLength (w.heap.publishes e.value.value) ≤ 268435455
  | _ => False

/-- What a body says is what was requested. -/
def World.Says (w : World σ) (e : Entry) (body : List Byte) : Prop :=
  match e.kind with
  | .connect => Prefixed.takeAll Prefixed.take (body.drop 10) = some (w.heap.connects e.value.value).strings
  | .subscribe => readSubscribe body = some (e.value.packetId, (w.heap.subscribes e.value.value).requests)
  | .unsubscribe => readUnsubscribe body = some (e.value.packetId, (w.heap.subscribes e.value.value).requests.map Prod.fst)
  | _ => body = ((w.heap.publishes e.value.value).message e.value.packetId).body

/- A packet that declares the number of the bytes behind its fixed header. -/
def framed (first : Byte) (body : List Byte) : List Byte := first :: lengthBytes body.length ++ body

/- The kinds of requests. -/
theorem FitsPacket.cases {w : World σ} {e : Entry} (h : w.FitsPacket e) :
    e.kind = .connect ∨ (∃ q, e.kind.forTopics q) ∨ e.kind.isPublish = true := by
  unfold World.FitsPacket at h
  cases hk : e.kind <;> rw [hk] at h <;> first
    | contradiction
    | exact .inl rfl
    | exact .inr (.inl ⟨true, rfl⟩)
    | exact .inr (.inl ⟨false, rfl⟩)
    | exact .inr (.inr rfl)

section Declared
variable {w : World σ} {e : Entry}

theorem FitsPacket.connect (hk : e.kind = .connect) (h : w.FitsPacket e) :
    connectValidate (w.heap.connects e.value.value) = true ∧ (w.heap.connects e.value.value).InMemory := by
  unfold World.FitsPacket at h
  rwa [hk] at h

theorem FitsPacket.topics {q : Bool} (hk : e.kind.forTopics q) (h : w.FitsPacket e) :
    subscribeValidate (w.heap.subscribes e.value.value) = true ∧ IsInt (w.heap.subscribes e.value.value).count ∧
      (w.heap.subscribes e.value.value).InMemory ∧ subscribeLength (w.heap.subscribes e.value.value) q ≤ 268435455 := by
  unfold World.FitsPacket at h
  cases q with
  | true =>
    change e.kind = .subscribe at hk
    rw [hk] at h
    exact h
  | false =>
    change e.kind = .unsubscribe at hk
    rw [hk] at h
    exact h

theorem FitsPacket.publish (hk : e.kind.isPublish = true) (h : w.FitsPacket e) :
    publishValidate (w.heap.publishes e.value.value) = true ∧ (w.heap.publishes e.value.value).InMemory := by
  unfold World.FitsPacket at h
  have hall : publishValidate (w.heap.publishes e.value.value) = true ∧ (w.heap.publishes e.value.value).topic.InMemory ∧
      (w.heap.publishes e.value.value).payload.InMemory ∧ publishLength (w.heap.publishes e.value.value) ≤ 268435455 := by
    cases hkind : e.kind <;> rw [hkind] at h hk <;> first | contradiction | exact h
  obtain ⟨hv, htopic, hpayload, hlen⟩ := hall
  refine ⟨hv, htopic, hpayload, ?_⟩
  unfold publishLength publishHeadLength at hlen
  split at hlen <;> omega

/-- The encoder can send such a request. -/
theorem FitsPacket.canSend (ht : e.WellTyped) (h : w.FitsPacket e) : w.CanSend e := by
  rcases FitsPacket.cases h with hk | ⟨q, hk⟩ | hk
  · obtain ⟨hv, hm⟩ := FitsPacket.connect hk h
    obtain ⟨hid, htopic, hmessage, huser, hpassword⟩ := connectValidate_fields hv
    have hlen := fun {s : LString} h => (field_bounds (s := s) h).2
    refine ⟨ht, fun x hx => ?_, fun r el ie hr => ?_⟩
    · unfold entryEncoders at hx
      rw [hk] at hx
      simp only [List.map_cons, List.map_nil, List.mem_cons, List.not_mem_nil, or_false] at hx
      rcases hx with rfl | rfl | rfl | rfl | rfl | rfl | rfl
      · exact (connectLength_exact hv).encodable
      all_goals trivial
    · unfold entryFields entryEncoders at hr
      rw [hk] at hr
      simp only [List.map_cons, List.map_nil, List.mem_cons, List.not_mem_nil, or_false] at hr
      rcases hr with hr | hr | hr | hr | hr | hr | hr <;> cases hr
      · exact ⟨hm.clientId, lt_of_le_of_lt (hlen hid) (by decide)⟩
      · exact ⟨hm.willTopic, lt_of_le_of_lt (hlen htopic) (by decide)⟩
      · exact ⟨hm.willMessage, lt_of_le_of_lt (hlen hmessage) (by decide)⟩
      · exact ⟨hm.userName, lt_of_le_of_lt (hlen huser) (by decide)⟩
      · exact ⟨hm.password, lt_of_le_of_lt (hlen hpassword) (by decide)⟩
  · obtain ⟨hv, hs, hm, hlen⟩ := FitsPacket.topics hk h
    obtain ⟨hexact, hlo⟩ := subscribeLength_exact hs hv q
    have hencodable : Encodable (subscribeCalcRemainingLength (w.heap.subscribes e.value.value) q) := by
      rw [hexact]
      exact ⟨hlo, hlen⟩
    refine ⟨ht, fun x hx => ?_, fun r el ie hr => ?_⟩
    · unfold entryEncoders at hx
      cases q with
      | true =>
        rw [show e.kind = .subscribe from hk] at hx
        rcases List.mem_cons.mp hx with rfl | hx
        · exact hencodable
        · obtain ⟨i, -, hx⟩ := List.mem_flatMap.mp hx
          simp only [List.mem_cons, List.not_mem_nil, or_false] at hx
          rcases hx with rfl | rfl <;> trivial
      | false =>
        rw [show e.kind = .unsubscribe from hk] at hx
        rcases List.mem_cons.mp hx with rfl | hx
        · exact hencodable
        · obtain ⟨i, -, rfl⟩ := List.mem_map.mp hx
          trivial
    · rw [topics_fields hk] at hr
      rcases List.mem_cons.mp hr with hr | hr
      · contradiction
      · obtain ⟨i, hi, hr⟩ := List.mem_flatMap.mp hr
        have htopic : r = .subscriptionTopic e.value.value i := by
          cases q <;> simp at hr <;> exact hr.1
        have hbound := (subscribeValidate_topics hv).2 _ (List.mem_map.mpr ⟨i, hi, rfl⟩)
        rw [htopic]
        exact ⟨topic_inMemory hm (List.mem_range.mp hi), lt_of_le_of_lt hbound.2 (by decide)⟩
  · obtain ⟨hv, hm⟩ := FitsPacket.publish hk h
    have htopic := hm.topic.nonneg
    have hpayload := hm.payload.nonneg
    have hfits := hm.fits
    refine ⟨ht, fun x hx => ?_, fun r el ie hr => ?_⟩
    · have hfirst : Encoder.publishFixedHeader.Valid w.heap e.value := ⟨hv, hm.encodable hv⟩
      have hx : x.1 = .publishFixedHeader ∨ x.1 = .publishTopic ∨ x.1 = .publishPacketId ∨ x.1 = .publishPayload := by
        unfold entryEncoders at hx
        cases hkind : e.kind <;> rw [hkind] at hk hx <;> first
          | contradiction
          | (obtain ⟨y, hy, rfl⟩ := List.mem_map.mp hx
             split at hy <;> simp only [List.mem_cons, List.not_mem_nil, or_false] at hy <;> tauto)
      rcases hx with hx | hx | hx | hx <;> rw [hx]
      · exact hfirst
      all_goals trivial
    · rw [publish_fields hk] at hr
      simp only [List.mem_cons, List.mem_append, List.not_mem_nil, or_false] at hr
      rcases hr with hr | hr | hr | hr
      · contradiction
      · cases hr
        exact ⟨hm.topic, by change (w.heap.publishes e.value.value).topic.len < _; omega⟩
      · split at hr <;> simp at hr
      · cases hr
        exact ⟨hm.payload, by change (w.heap.publishes e.value.value).payload.len < _; omega⟩

/-- The packet of a request is framed, and says what was requested. -/
theorem FitsPacket.framed (h : w.FitsPacket e) :
    ∃ body, w.packet e = LightMqtt.framed (w.firstByte e) body ∧ body.length ≤ 268435455 ∧ w.Says e body := by
  rcases FitsPacket.cases h with hk | ⟨q, hk⟩ | hk
  · obtain ⟨hv, hm⟩ := FitsPacket.connect hk h
    have hlen := connect_length hv hm
    refine ⟨(w.heap.connects e.value.value).body, ?_, ?_, ?_⟩
    · rw [connect_packet hk hm, hlen]
      unfold World.firstByte
      rw [hk]
      rfl
    · have hmax := (connectLength_exact hv).encodable.2
      omega
    · unfold World.Says
      rw [hk]
      exact connect_strings hv hm
  · obtain ⟨hv, hs, hm, hmax⟩ := FitsPacket.topics hk h
    have hlen : subscribeCalcRemainingLength (w.heap.subscribes e.value.value) q =
        ((w.heap.subscribes e.value.value).body q e.value.packetId).length := topics_length hs hv hm
    have hexact := (subscribeLength_exact hs hv q).1
    refine ⟨(w.heap.subscribes e.value.value).body q e.value.packetId, ?_, ?_, ?_⟩
    · rw [topics_packet hk hm, hlen]
      cases q <;>
      · unfold World.firstByte
        rw [show e.kind = _ from hk]
        rfl
    · omega
    · cases q with
      | true =>
        unfold World.Says
        rw [show e.kind = .subscribe from hk]
        exact subscribe_read hv hm _
      | false =>
        unfold World.Says
        rw [show e.kind = .unsubscribe from hk]
        exact unsubscribe_read hv hm _
  · obtain ⟨hv, hm⟩ := FitsPacket.publish hk h
    have hlen := hm.length e.value.packetId
    have hmax := (hm.encodable hv).2
    have hfirst : w.firstByte e = publishFirstByte (w.heap.publishes e.value.value) := by
      unfold World.firstByte
      cases hkind : e.kind <;> rw [hkind] at hk <;> contradiction
    refine ⟨((w.heap.publishes e.value.value).message e.value.packetId).body, ?_, ?_, ?_⟩
    · rw [publish_packet hk hm, hlen, hfirst]
      rfl
    · omega
    · unfold World.Says
      cases hkind : e.kind <;> rw [hkind] at hk <;> contradiction

/-- The declared length is the length that is emitted. A call of the encoder with room for
the packet of a valid request begins with a fixed header that declares the number of the
bytes behind it, and these say what was requested. It emits nothing else, unless a callback
of QoS 0 issues requests. -/
theorem declared_length (w : World σ) (e : Entry) (hw : w.Alone e) (ht : e.WellTyped) (hv : w.FitsPacket e) :
    ∃ body, w.Says e body ∧ body.length ≤ 268435455 ∧ ∀ bufLen, (framed (w.firstByte e) body).length ≤ bufLen →
      (∀ r w', lmqttTxBufferEncode env bufLen w = .ok r w' → framed (w.firstByte e) body <+: r.2) ∧
      ((e.kind ≠ .publish0 ∨ env.Silent fun _ _ => []) → (entryFields w.heap e).length + 3 ≤ env.fuel →
        ∃ r w', lmqttTxBufferEncode env bufLen w = .ok (r, framed (w.firstByte e) body) w' ∧ r ≠ .error) := by
  have hs := FitsPacket.canSend ht hv
  obtain ⟨body, hpacket, hmax, hsays⟩ := FitsPacket.framed hv
  refine ⟨body, hsays, hmax, fun bufLen hb => ?_⟩
  rw [← hpacket] at hb ⊢
  exact ⟨fun r w' hrun => hw.encode_first hs hb hrun, fun hq hf => hw.encode hs bufLen hq hf hb⟩

end Declared

/-- A client with a SUBSCRIBE to the topic `a` to send. -/
def subscribingWorld : World Unit := { publishingWorld with
  mainStore := { entries :=
    [⟨.subscribe, { packetId := 7, value := 0, callback := some .onSuback, req := some 0 }⟩], capacity := 1 } }

theorem declared_length_subscribe : ∃ body bufLen r w',
    lmqttTxBufferEncode memoryEnv bufLen subscribingWorld = .ok (r, framed 0x82 body) w' ∧ r ≠ .error ∧
      readSubscribe body = some (7, [([97], 0)]) := by
  obtain ⟨body, hsays, -, hcalls⟩ := @declared_length Unit memoryEnv subscribingWorld _ ⟨rfl, rfl, rfl⟩ ⟨rfl, rfl⟩
    ⟨by decide +kernel, ⟨by decide, by decide⟩, fun t ht => by
      rw [List.mem_singleton.mp ht]
      exact ⟨rfl, by decide, .inr ⟨[97], rfl, by decide⟩⟩, by decide +kernel⟩
  obtain ⟨-, hsend⟩ := hcalls _ le_rfl
  obtain ⟨r, w', hrun, hr⟩ := hsend (.inl (by decide)) (by decide +kernel)
  exact ⟨body, _, r, w', hrun, hr, hsays⟩

end LightMqtt
