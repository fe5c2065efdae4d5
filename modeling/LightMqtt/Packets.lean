import LightMqtt.EncodeEffects

/-!
# Packets as lists of fields

What the encoder of an entry has to send: the fields of its packet in their
order. The finders walk this list, and each encoder sends the field it stands
for.
-/

namespace LightMqtt

open Exec

variable {σ : Type} {env : Env σ}

/-- A field of a packet: bytes that are built at once, or a string. -/
inductive Field
  | header (bytes : List Byte)
  | str (r : StrRef) (encodeLen encodeIfEmpty : Bool)
  deriving DecidableEq

/- The bytes of a remaining length. -/
def lengthBytes (len : ℤ) : List Byte := remainingLengthDigits 10 len.toNat

/- The packets of one field that have a packet id. -/
def idPacket (first : ℕ) (len : ℤ) (id : PacketId) : List Byte :=
  UInt8.ofNat first :: lengthBytes len ++ packetIdBytes id

section Fields
variable (h : Heap) (v : Value)

/-- The field an encoder sends; `i` is the subscription it stands at. -/
def Encoder.field (i : Option ℕ) : Encoder → Field
  | .connectFixedHeader =>
    .header (UInt8.ofNat (typeConnect * 16) :: lengthBytes (connectCalcRemainingLength (h.connects v.value)))
  | .connectVariableHeader =>
    .header [0, 4, 0x4d, 0x51, 0x54, 0x54, 4, UInt8.ofNat (connectFlags (h.connects v.value)),
      stringLenByte (h.connects v.value).keepAlive.toNat 1, stringLenByte (h.connects v.value).keepAlive.toNat 0]
  | .connectPayloadClientId => .str (.connectClientId v.value) true true
  | .connectPayloadWillTopic => .str (.connectWillTopic v.value) true false
  | .connectPayloadWillMessage => .str (.connectWillMessage v.value) true false
  | .connectPayloadUserName => .str (.connectUserName v.value) true false
  | .connectPayloadPassword => .str (.connectPassword v.value) true false
  | .subscribeHeaderSubscribe => .header (idPacket (typeSubscribe * 16 ||| 2)
      (subscribeCalcRemainingLength (h.subscribes v.value) true) v.packetId)
  | .subscribeHeaderUnsubscribe => .header (idPacket (typeUnsubscribe * 16 ||| 2)
      (subscribeCalcRemainingLength (h.subscribes v.value) false) v.packetId)
  | .subscribeTopic => .str (.subscriptionTopic v.value (i.getD 0)) true true
  | .subscribeQos => .header [UInt8.ofNat (h.subscription v.value (i.getD 0)).requestedQos]
  | .publishFixedHeader => .header (publishFirstByte (h.publishes v.value) ::
      lengthBytes (publishCalcRemainingLength (h.publishes v.value)))
  | .publishTopic => .str (.publishTopic v.value) true true
  | .publishPacketId => .header (packetIdBytes v.packetId)
  | .publishPayload => .str (.publishPayload v.value) false false
  | .pubackFixedHeader => .header (idPacket (typePuback * 16) 2 v.packetId)
  | .pubrecFixedHeader => .header (idPacket (typePubrec * 16) 2 v.packetId)
  | .pubrelFixedHeader => .header (idPacket (typePubrel * 16 ||| 2) 2 v.packetId)
  | .pubcompFixedHeader => .header (idPacket (typePubcomp * 16) 2 v.packetId)
  | .pingreqFixedHeader => .header [UInt8.ofNat (typePingreq * 16), 0]
  | .disconnectFixedHeader => .header [UInt8.ofNat (typeDisconnect * 16), 0]

/-- The encoders of the packet of an entry, in their order, each with the
subscription it stands at. -/
def entryEncoders (e : Entry) : List (Encoder × Option ℕ) :=
  match e.kind with
  | .connect => [.connectFixedHeader, .connectVariableHeader, .connectPayloadClientId, .connectPayloadWillTopic,
      .connectPayloadWillMessage, .connectPayloadUserName, .connectPayloadPassword].map (·, none)
  | .subscribe => (.subscribeHeaderSubscribe, none) ::
      (List.range (h.subscribes e.value.value).count.toNat).flatMap fun i =>
        [(.subscribeTopic, some i), (.subscribeQos, some i)]
  | .unsubscribe => (.subscribeHeaderUnsubscribe, none) ::
      (List.range (h.subscribes e.value.value).count.toNat).map fun i => (.subscribeTopic, some i)
  | .publish0 | .publish1 | .publish2 =>
    (if (h.publishes e.value.value).qos = 0 then [.publishFixedHeader, .publishTopic, .publishPayload]
      else [.publishFixedHeader, .publishTopic, .publishPacketId, .publishPayload]).map (·, none)
  | .puback => [(.pubackFixedHeader, none)]
  | .pubrec => [(.pubrecFixedHeader, none)]
  | .pubrel => [(.pubrelFixedHeader, none)]
  | .pubcomp => [(.pubcompFixedHeader, none)]
  | .pingreq => [(.pingreqFixedHeader, none)]
  | .disconnect => [(.disconnectFixedHeader, none)]

/-- The fields of the packet of an entry. -/
def entryFields (e : Entry) : List Field :=
  (entryEncoders h e).map fun x => x.1.field h e.value x.2

end Fields

/-! ### Objects at rest -/

/- A string without its position, and the objects without what the encoder and the
   decoder write to them. -/
def LString.still (s : LString) : LString := { s with pos := 0 }
def Connect.still (c : Connect) : Connect := { c with
  clientId := c.clientId.still
  willTopic := c.willTopic.still
  willMessage := c.willMessage.still
  userName := c.userName.still
  password := c.password.still
  sessionPresent := 0 }
def Subscription.still (s : Subscription) : Subscription := { s with topic := s.topic.still, returnCode := 0 }
def Subscribe.still (s : Subscribe) : Subscribe := { s with
  subscriptions := s.subscriptions.map Subscription.still
  current := none }
def Publish.still (b : Publish) : Publish := { b with topic := b.topic.still, payload := b.payload.still }

def Heap.still (h : Heap) : Heap where
  connects := fun p => (h.connects p).still
  subscribes := fun p => (h.subscribes p).still
  publishes := fun p => (h.publishes p).still

/- An object is replaced by one that is the same at rest. -/
theorem setConnect_still {h : Heap} {p : Ptr} {c : Connect} (hc : c.still = (h.connects p).still) :
    (h.setConnect p c).still = h.still := by
  unfold Heap.still Heap.setConnect
  simp only [Heap.mk.injEq, and_true]
  funext q
  by_cases hq : q = p
  · rw [hq, Function.update_self, hc]
  · rw [Function.update_of_ne hq]

theorem setSubscribe_still {h : Heap} {p : Ptr} {s : Subscribe} (hs : s.still = (h.subscribes p).still) :
    (h.setSubscribe p s).still = h.still := by
  unfold Heap.still Heap.setSubscribe
  simp only [Heap.mk.injEq, true_and, and_true]
  funext q
  by_cases hq : q = p
  · rw [hq, Function.update_self, hs]
  · rw [Function.update_of_ne hq]

theorem setPublish_still {h : Heap} {p : Ptr} {b : Publish} (hb : b.still = (h.publishes p).still) :
    (h.setPublish p b).still = h.still := by
  unfold Heap.still Heap.setPublish
  simp only [Heap.mk.injEq, true_and]
  funext q
  by_cases hq : q = p
  · rw [hq, Function.update_self, hb]
  · rw [Function.update_of_ne hq]

theorem modifySubscription_still {h : Heap} {p : Ptr} {i : ℕ} {f : Subscription → Subscription}
    (hf : ∀ x, (h.subscribes p).subscriptions[i]? = some x → (f x).still = x.still) :
    (h.modifySubscription p i f).still = h.still := by
  apply setSubscribe_still
  unfold Subscribe.still
  simp only [Subscribe.mk.injEq, true_and, and_true]
  apply List.ext_getElem?
  intro j
  rw [List.getElem?_map, List.getElem?_map, List.getElem?_modify]
  cases hj : (h.subscribes p).subscriptions[j]? with
  | none => rfl
  | some x =>
    by_cases hij : i = j
    · have hx := hf x (by rw [hij, hj])
      simp only [hij, Option.map_eq_map, Option.map_some, if_true, hx]
    · simp only [hij, Option.map_eq_map, Option.map_some, if_false]

theorem subscriptions_still (l : List Subscription) (i : ℕ) :
    (l.map Subscription.still).getD i {} = (l.getD i {}).still := by
  rw [List.getD_eq_getElem?_getD, List.getD_eq_getElem?_getD, List.getElem?_map]
  cases l[i]? <;> rfl

theorem subscribeCalcRemainingLength_still (s : Subscribe) (q : Bool) :
    subscribeCalcRemainingLength s.still q = subscribeCalcRemainingLength s q := by
  unfold subscribeCalcRemainingLength
  have hlen : ∀ i, (s.still.subscriptions.getD i {}).topic.len = (s.subscriptions.getD i {}).topic.len := by
    intro i
    change ((s.subscriptions.map Subscription.still).getD i {}).topic.len = _
    rw [subscriptions_still]
    rfl
  simp only [hlen]
  rfl

theorem subscription_still (h : Heap) (p : Ptr) (i : ℕ) :
    h.still.subscription p i = (h.subscription p i).still := subscriptions_still _ _

/- A field reads no more of the objects than what stays. -/
theorem field_still (h : Heap) (v : Value) (i : Option ℕ) (x : Encoder) : x.field h.still v i = x.field h v i := by
  cases x with
  | subscribeHeaderSubscribe =>
    change Field.header (idPacket _ (subscribeCalcRemainingLength (h.subscribes v.value).still true) _) = _
    rw [subscribeCalcRemainingLength_still]
    rfl
  | subscribeHeaderUnsubscribe =>
    change Field.header (idPacket _ (subscribeCalcRemainingLength (h.subscribes v.value).still false) _) = _
    rw [subscribeCalcRemainingLength_still]
    rfl
  | subscribeQos =>
    simp only [Encoder.field, subscription_still]
    rfl
  | _ => rfl

theorem entryEncoders_still (h : Heap) (e : Entry) : entryEncoders h.still e = entryEncoders h e := by
  unfold entryEncoders
  cases e.kind <;> rfl

theorem entryFields_still (h : Heap) (e : Entry) : entryFields h.still e = entryFields h e := by
  unfold entryFields
  rw [entryEncoders_still]
  exact List.map_congr_left fun x _ => field_still h e.value x.2 x.1

theorem entryFields_congr {h h' : Heap} (hs : h'.still = h.still) (e : Entry) : entryFields h' e = entryFields h e := by
  rw [← entryFields_still h', hs, entryFields_still]

/-! ### Counted messages -/

def Kind.isPublish : Kind → Bool
  | .publish0 | .publish1 | .publish2 => true
  | _ => false

/- Behind the last field of a PUBLISH its object counts a transmission. -/
def Heap.counted (h : Heap) (e : Entry) : Heap :=
  match e.kind with
  | .publish0 | .publish1 | .publish2 => h.setPublish e.value.value
      { h.publishes e.value.value with encodeCount := (h.publishes e.value.value).encodeCount + 1 }
  | _ => h

/-- The fields of entries that are sent one behind the other. -/
def lineFields (h : Heap) : List Entry → List Field
  | [] => []
  | e :: es => entryFields h e ++ lineFields (h.counted e) es

theorem counted_still (h : Heap) (e : Entry) : (h.counted e).still = h.still.counted e := by
  have hset : (h.setPublish e.value.value { h.publishes e.value.value with
        encodeCount := (h.publishes e.value.value).encodeCount + 1 }).still =
      h.still.setPublish e.value.value { h.still.publishes e.value.value with
        encodeCount := (h.still.publishes e.value.value).encodeCount + 1 } := by
    unfold Heap.still Heap.setPublish
    simp only [Heap.mk.injEq, true_and]
    funext q
    by_cases hq : q = e.value.value
    · rw [hq, Function.update_self, Function.update_self]
      rfl
    · rw [Function.update_of_ne hq, Function.update_of_ne hq]
  unfold Heap.counted
  cases e.kind with
  | publish0 | publish1 | publish2 => exact hset
  | _ => rfl

theorem counted_congr {h h' : Heap} (hs : h'.still = h.still) (e : Entry) :
    (h'.counted e).still = (h.counted e).still := by
  rw [counted_still, hs, counted_still]

theorem lineFields_congr {h h' : Heap} (hs : h'.still = h.still) (es : List Entry) :
    lineFields h' es = lineFields h es := by
  induction es generalizing h h' with
  | nil => rfl
  | cons e es ih =>
    rw [lineFields, lineFields, entryFields_congr hs, ih (counted_congr hs e)]

theorem counted_publishes (h : Heap) (e : Entry) (p : Ptr) (hp : e.kind.isPublish = true → e.value.value ≠ p) :
    (h.counted e).publishes p = h.publishes p := by
  unfold Heap.counted
  split
  · rename_i hk
    exact Function.update_of_ne (hp (by rw [hk]; rfl)).symm ..
  · rename_i hk
    exact Function.update_of_ne (hp (by rw [hk]; rfl)).symm ..
  · rename_i hk
    exact Function.update_of_ne (hp (by rw [hk]; rfl)).symm ..
  · rfl

theorem counted_connects (h : Heap) (e : Entry) :
    (h.counted e).connects = h.connects ∧ (h.counted e).subscribes = h.subscribes := by
  unfold Heap.counted
  split <;> exact ⟨rfl, rfl⟩

/- Nothing else of a message changes that is counted. -/
theorem counted_strings (h : Heap) (e : Entry) (p : Ptr) :
    ((h.counted e).publishes p).topic = (h.publishes p).topic ∧
      ((h.counted e).publishes p).payload = (h.publishes p).payload ∧
      ((h.counted e).publishes p).qos = (h.publishes p).qos := by
  by_cases hp : e.kind.isPublish = true → e.value.value ≠ p
  · rw [counted_publishes h e p hp]
    exact ⟨rfl, rfl, rfl⟩
  · rw [Classical.not_imp, not_not] at hp
    obtain ⟨hk, rfl⟩ := hp
    cases hkind : e.kind <;> rw [hkind] at hk <;> first
      | exact absurd hk (by decide)
      | (unfold Heap.counted
         simp only [hkind, Heap.setPublish, Function.update_self, and_self])

theorem str_counted (w : World σ) (e : Entry) (r : StrRef) :
    ({ w with heap := w.heap.counted e } : World σ).str r = w.str r := by
  cases r with
  | publishTopic p => exact (counted_strings w.heap e p).1
  | publishPayload p => exact (counted_strings w.heap e p).2.1
  | rxTopic | rxPayload => rfl
  | connectClientId p | connectWillTopic p | connectWillMessage p | connectUserName p | connectPassword p =>
    simp only [World.str, (counted_connects w.heap e).1]
  | subscriptionTopic p i => simp only [World.str, Heap.subscription, (counted_connects w.heap e).2]

/-! ### Finders -/

/- The finder stands at the field of the encoder it returns. -/
structure Found (w : World σ) (e : Entry) (x : Encoder) (u : World σ) : Prop where
  scratch : TxScratch w u
  tx : u.tx = w.tx
  app : u.app = w.app
  heap : u.heap.still = w.heap.still
  str : ∀ r, u.str r = w.str r
  encoder : ∃ i, (x, i) ∈ entryEncoders w.heap e
  field : (entryFields w.heap e)[w.tx.internal.pos]? = some (x.field u.heap e.value (u.heap.subscribes e.value.value).current)

theorem setCurrent_found (w : World σ) (e : Entry) (x : Encoder) (i : Option ℕ)
    (hx : (entryEncoders w.heap e)[w.tx.internal.pos]? = some (x, i)) :
    Found w e x { w with heap := w.heap.setSubscribe e.value.value { w.heap.subscribes e.value.value with current := i } } := by
  have hstill : (w.heap.setSubscribe e.value.value { w.heap.subscribes e.value.value with current := i }).still =
      w.heap.still := setSubscribe_still rfl
  refine ⟨⟨rfl, fun q => ?_, fun _ _ hk => hk, fun _ => rfl⟩, rfl, rfl, hstill, fun r => ?_, ⟨i, List.mem_of_getElem? hx⟩, ?_⟩
  · simp only [Heap.setSubscribe, Function.update_apply]
    split <;> simp_all
  · cases r with
    | subscriptionTopic p j =>
      simp only [World.str, Heap.subscription, Heap.setSubscribe, Function.update_apply]
      split <;> simp_all
    | _ => rfl
  · rw [← field_still (w.heap.setSubscribe _ _), hstill, field_still]
    unfold entryFields
    rw [List.getElem?_map, hx]
    simp only [Option.map_some, Heap.setSubscribe, Function.update_self]

/- Where the finder changes nothing but the cursor. -/
theorem same_found (w : World σ) (e : Entry) (x : Encoder)
    (hx : (entryEncoders w.heap e)[w.tx.internal.pos]? = some (x, none))
    (hf : x.field w.heap e.value none = x.field w.heap e.value (w.heap.subscribes e.value.value).current) :
    Found w e x w := by
  refine ⟨.refl w, rfl, rfl, rfl, fun _ => rfl, ⟨none, List.mem_of_getElem? hx⟩, ?_⟩
  unfold entryFields
  rw [List.getElem?_map, hx, Option.map_some, hf]

theorem getElem?_pairs {α : Type} (f g : ℕ → α) (n m : ℕ) :
    ((List.range n).flatMap fun i => [f i, g i])[m]? =
      if m < 2 * n then some (if m % 2 = 0 then f (m / 2) else g (m / 2)) else none := by
  induction n with
  | zero => rfl
  | succ n ih =>
    have hlen : ((List.range n).flatMap fun i => [f i, g i]).length = 2 * n := by
      rw [List.length_flatMap]
      simp [Nat.mul_comm]
    rw [List.range_succ, List.flatMap_append, List.getElem?_append, hlen, ih]
    by_cases hm : m < 2 * n
    · rw [if_pos hm, if_pos hm, if_pos (show m < 2 * (n + 1) by omega)]
    · rw [if_neg hm]
      by_cases h0 : m = 2 * n
      · subst h0
        rw [Nat.sub_self, if_pos (show 2 * n < 2 * (n + 1) by omega), if_pos (Nat.mul_mod_right 2 n),
          Nat.mul_div_cancel_left n (by omega)]
        rfl
      · by_cases h1 : m = 2 * n + 1
        · subst h1
          rw [if_pos (show 2 * n + 1 < 2 * (n + 1) by omega), if_neg (show (2 * n + 1) % 2 ≠ 0 by omega),
            show 2 * n + 1 - 2 * n = 1 by omega, show (2 * n + 1) / 2 = n by omega]
          rfl
        · rw [if_neg (show ¬ m < 2 * (n + 1) by omega), List.getElem?_eq_none]
          change 2 ≤ m - 2 * n
          omega

theorem txBufferFinderSubscribe_ok {w u : World σ} {e : Entry} {found : Option Encoder} (hk : e.kind = .subscribe)
    (h : txBufferFinderSubscribe w.tx.internal.pos e.value w = .ok found u) :
    (∃ x, found = some x ∧ Found w e x u) ∨
      found = none ∧ (entryFields w.heap e).length ≤ w.tx.internal.pos ∧ u = w := by
  have hfields : entryEncoders w.heap e = (.subscribeHeaderSubscribe, none) ::
      (List.range (w.heap.subscribes e.value.value).count.toNat).flatMap fun i =>
        [(Encoder.subscribeTopic, some i), (Encoder.subscribeQos, some i)] := by
    simp only [entryEncoders, hk]
  rcases ok_ite h with ⟨hp, h⟩ | ⟨hp, h⟩
  · obtain ⟨_, v, hv, h⟩ := ok_bind h
    cases hv
    obtain ⟨rfl, rfl⟩ := ok_pure h
    left
    refine ⟨_, rfl, setCurrent_found w e _ none ?_⟩
    rw [hfields, hp]
    rfl
  · have h := ok_get_bind h
    obtain ⟨n, hn⟩ : ∃ n, w.tx.internal.pos = n + 1 := ⟨w.tx.internal.pos - 1, by omega⟩
    rw [hn, Nat.add_sub_cancel] at h
    rcases ok_ite h with ⟨hlt, h⟩ | ⟨hlt, h⟩
    · obtain ⟨_, v, hv, h⟩ := ok_bind h
      cases hv
      obtain ⟨rfl, rfl⟩ := ok_pure h
      left
      refine ⟨_, rfl, setCurrent_found w e _ (some (n / 2)) ?_⟩
      rw [hfields, hn, List.getElem?_cons_succ, getElem?_pairs, if_pos (by omega)]
      split <;> rfl
    · obtain ⟨rfl, rfl⟩ := ok_pure h
      right
      refine ⟨rfl, ?_, rfl⟩
      rw [entryFields, List.length_map, hfields, List.length_cons, List.length_flatMap, hn]
      simp
      omega

theorem txBufferFinderUnsubscribe_ok {w u : World σ} {e : Entry} {found : Option Encoder} (hk : e.kind = .unsubscribe)
    (h : txBufferFinderUnsubscribe w.tx.internal.pos e.value w = .ok found u) :
    (∃ x, found = some x ∧ Found w e x u) ∨
      found = none ∧ (entryFields w.heap e).length ≤ w.tx.internal.pos ∧ u = w := by
  have hfields : entryEncoders w.heap e = (.subscribeHeaderUnsubscribe, none) ::
      (List.range (w.heap.subscribes e.value.value).count.toNat).map fun i => (Encoder.subscribeTopic, some i) := by
    simp only [entryEncoders, hk]
  rcases ok_ite h with ⟨hp, h⟩ | ⟨hp, h⟩
  · obtain ⟨_, v, hv, h⟩ := ok_bind h
    cases hv
    obtain ⟨rfl, rfl⟩ := ok_pure h
    left
    refine ⟨_, rfl, setCurrent_found w e _ none ?_⟩
    rw [hfields, hp]
    rfl
  · have h := ok_get_bind h
    obtain ⟨n, hn⟩ : ∃ n, w.tx.internal.pos = n + 1 := ⟨w.tx.internal.pos - 1, by omega⟩
    rw [hn, Nat.add_sub_cancel] at h
    rcases ok_ite h with ⟨hlt, h⟩ | ⟨hlt, h⟩
    · obtain ⟨_, v, hv, h⟩ := ok_bind h
      cases hv
      obtain ⟨rfl, rfl⟩ := ok_pure h
      left
      refine ⟨_, rfl, setCurrent_found w e _ (some n) ?_⟩
      rw [hfields, hn, List.getElem?_cons_succ, List.getElem?_map, List.getElem?_range (by omega)]
      rfl
    · obtain ⟨rfl, rfl⟩ := ok_pure h
      right
      refine ⟨rfl, ?_, rfl⟩
      rw [entryFields, List.length_map, hfields, List.length_cons, List.length_map, List.length_range, hn]
      omega

/- The encoders of a PUBLISH in their order. -/
def publishEncoders (qos : ℕ) : List Encoder :=
  if qos = 0 then [.publishFixedHeader, .publishTopic, .publishPayload]
  else [.publishFixedHeader, .publishTopic, .publishPacketId, .publishPayload]

theorem publishEncoderAt_eq (qos pos : ℕ) : publishEncoderAt qos pos = (publishEncoders qos)[pos]? := by
  unfold publishEncoderAt publishEncoders
  by_cases hq : qos = 0
  · rw [if_pos hq, if_pos hq]
    match pos with
    | 0 | 1 | 2 => rfl
    | n + 3 => rfl
  · rw [if_neg hq, if_neg hq]
    match pos with
    | 0 | 1 | 2 | 3 => rfl
    | n + 4 => rfl

theorem txBufferFinderPublish_ok {w u : World σ} {e : Entry} {found : Option Encoder}
    (hk : e.kind = .publish0 ∨ e.kind = .publish1 ∨ e.kind = .publish2)
    (h : txBufferFinderPublish w.tx.internal.pos e.value w = .ok found u) :
    (∃ x, found = some x ∧ Found w e x u) ∨
      found = none ∧ (entryFields w.heap e).length ≤ w.tx.internal.pos ∧ u = { w with heap := w.heap.counted e } := by
  have hencoders : entryEncoders w.heap e = (publishEncoders (w.heap.publishes e.value.value).qos).map (·, none) := by
    unfold entryEncoders
    rcases hk with hk | hk | hk <;> simp only [hk, publishEncoders]
  have h := ok_get_bind h
  rw [publishEncoderAt_eq] at h
  cases hx : (publishEncoders (w.heap.publishes e.value.value).qos)[w.tx.internal.pos]? with
  | some x =>
    rw [hx] at h
    obtain ⟨rfl, rfl⟩ := ok_pure h
    left
    have hmem := List.mem_of_getElem? hx
    refine ⟨x, rfl, same_found w e x ?_ ?_⟩
    · rw [hencoders, List.getElem?_map, hx, Option.map_some]
    unfold publishEncoders at hmem
    split at hmem <;> simp only [List.mem_cons, List.not_mem_nil, or_false] at hmem
    · rcases hmem with rfl | rfl | rfl <;> rfl
    · rcases hmem with rfl | rfl | rfl | rfl <;> rfl
  | none =>
    rw [hx] at h
    have h := ok_set_bind h
    obtain ⟨rfl, rfl⟩ := ok_pure h
    right
    refine ⟨rfl, ?_, ?_⟩
    · rw [entryFields, List.length_map, hencoders, List.length_map]
      exact List.getElem?_eq_none_iff.mp hx
    · rcases hk with hk | hk | hk <;> simp only [Heap.counted, hk]

/- A packet of one field. -/
theorem single_ok {w u : World σ} {e : Entry} {x : Encoder} {found : Option Encoder}
    (hencoders : entryEncoders w.heap e = [(x, none)])
    (hf : x.field w.heap e.value none = x.field w.heap e.value (w.heap.subscribes e.value.value).current)
    (hc : w.heap.counted e = w.heap)
    (h : (pure (if w.tx.internal.pos = 0 then some x else none) : Prog σ (Option Encoder)) w = .ok found u) :
    (∃ x, found = some x ∧ Found w e x u) ∨
      found = none ∧ (entryFields w.heap e).length ≤ w.tx.internal.pos ∧ u = { w with heap := w.heap.counted e } := by
  obtain ⟨rfl, rfl⟩ := ok_pure h
  by_cases hp : w.tx.internal.pos = 0
  · rw [if_pos hp]
    left
    refine ⟨x, rfl, same_found w e x ?_ hf⟩
    rw [hencoders, hp]
    rfl
  · rw [if_neg hp]
    right
    refine ⟨rfl, ?_, by rw [hc]⟩
    rw [entryFields, List.length_map, hencoders]
    exact Nat.one_le_iff_ne_zero.mpr hp

theorem txBufferFinderConnect_ok {w u : World σ} {e : Entry} {found : Option Encoder} (hk : e.kind = .connect)
    (h : (pure (txBufferFinderConnect w.tx.internal.pos) : Prog σ (Option Encoder)) w = .ok found u) :
    (∃ x, found = some x ∧ Found w e x u) ∨
      found = none ∧ (entryFields w.heap e).length ≤ w.tx.internal.pos ∧ u = w := by
  obtain ⟨rfl, rfl⟩ := ok_pure h
  have hfound : ∀ x, txBufferFinderConnect w.tx.internal.pos = some x → (entryEncoders w.heap e)[w.tx.internal.pos]? =
      some (x, none) ∧ x.field w.heap e.value none = x.field w.heap e.value (w.heap.subscribes e.value.value).current := by
    intro x hx
    unfold entryEncoders
    simp only [hk]
    generalize w.tx.internal.pos = pos at hx
    match pos, hx with
    | 0, hx | 1, hx | 2, hx | 3, hx | 4, hx | 5, hx | 6, hx =>
      cases hx
      exact ⟨rfl, rfl⟩
  cases hx : txBufferFinderConnect w.tx.internal.pos with
  | some x => exact .inl ⟨x, rfl, same_found w e x (hfound x hx).1 (hfound x hx).2⟩
  | none =>
    right
    refine ⟨rfl, ?_, rfl⟩
    unfold entryFields entryEncoders
    simp only [hk]
    generalize w.tx.internal.pos = pos at hx
    match pos, hx with
    | n + 7, _ => exact Nat.le_add_left 7 n

/-- The finder walks the fields of the entry. -/
theorem txBufferFinder_ok {w u : World σ} {e : Entry} {found : Option Encoder}
    (h : txBufferFinder e w = .ok found u) :
    (∃ x, found = some x ∧ Found w e x u) ∨
      found = none ∧ (entryFields w.heap e).length ≤ w.tx.internal.pos ∧ u = { w with heap := w.heap.counted e } := by
  have h := ok_get_bind h
  cases hk : e.kind with
  | connect =>
    rw [hk] at h
    simpa only [Heap.counted, hk] using txBufferFinderConnect_ok hk h
  | subscribe =>
    rw [hk] at h
    simpa only [Heap.counted, hk] using txBufferFinderSubscribe_ok hk h
  | unsubscribe =>
    rw [hk] at h
    simpa only [Heap.counted, hk] using txBufferFinderUnsubscribe_ok hk h
  | publish0 =>
    rw [hk] at h
    exact txBufferFinderPublish_ok (.inl hk) h
  | publish1 =>
    rw [hk] at h
    exact txBufferFinderPublish_ok (.inr (.inl hk)) h
  | publish2 =>
    rw [hk] at h
    exact txBufferFinderPublish_ok (.inr (.inr hk)) h
  | puback | pubrec | pubrel | pubcomp | pingreq | disconnect =>
    rw [hk] at h
    exact single_ok (by simp only [entryEncoders, hk]) rfl (by simp only [Heap.counted, hk]) h

end LightMqtt
