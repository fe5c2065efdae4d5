import LightMqtt.Bodies

/-!
# The grammar of a CONNECT

MQTT 3.1.1 says which sequences of bytes are a CONNECT. `lmqtt_connect_validate`
lets through objects whose packets are not: those with a Will QoS and no will.
-/

namespace LightMqtt

open Exec

variable {σ : Type} {env : Env σ}

/-- The fields of a CONNECT. -/
structure ConnectPacket where
  cleanSession : Bool
  willQos : ℕ
  willRetain : Bool
  keepAlive : ℕ
  clientId : List Byte
  willTopic : Option (List Byte)
  willMessage : Option (List Byte)
  userName : Option (List Byte)
  password : Option (List Byte)
  deriving DecidableEq, Repr

/- A field of the payload that is there if its flag is set. -/
def takeIf (present : Bool) (bs : List Byte) : Option (Option (List Byte) × List Byte) :=
  if present then (Prefixed.take bs).map fun x => (some x.1, x.2) else some (none, bs)

/-- The flags that may be set together: the reserved flag is not, there is no Will QoS of
3, no Will QoS or Will Retain without a will, and no password without a user name. -/
def legalFlags (f : ℕ) : Bool :=
  f % 2 = 0 && f / 8 % 4 ≤ 2 && (f / 4 % 2 = 1 || f / 8 % 4 = 0 && f / 32 % 2 = 0) && (f / 64 % 2 = 0 || f / 128 % 2 = 1)

/- The payload, as the flags announce it; nothing is left behind it. -/
def parsePayload (f keepAlive : ℕ) (bs : List Byte) : Option ConnectPacket := do
  let (clientId, bs) ← Prefixed.take bs
  let (willTopic, bs) ← takeIf (f / 4 % 2 = 1) bs
  let (willMessage, bs) ← takeIf (f / 4 % 2 = 1) bs
  let (userName, bs) ← takeIf (f / 128 % 2 = 1) bs
  let (password, bs) ← takeIf (f / 64 % 2 = 1) bs
  if bs = [] then some {
    cleanSession := f / 2 % 2 = 1
    willQos := f / 8 % 4
    willRetain := f / 32 % 2 = 1
    keepAlive, clientId, willTopic, willMessage, userName, password }
  else none

/- The variable header: the protocol name and level, the flags and the keep alive. -/
def parseVariableHeader (body : List Byte) : Option ConnectPacket := do
  let (name, bs) ← Prefixed.take body
  if name = [0x4d, 0x51, 0x54, 0x54] then
    match bs with
    | level :: flags :: k1 :: k0 :: bs =>
      if level = 4 ∧ legalFlags flags.toNat then parsePayload flags.toNat (k1.toNat * 256 + k0.toNat) bs else none
    | _ => none
  else none

/-- The CONNECT that a sequence of bytes is. -/
def parseConnect : List Byte → Option ConnectPacket
  | 0x10 :: bs => do
    let (n, body) ← Varint.decode bs
    if n = body.length ∧ n ≤ 268435455 then parseVariableHeader body else none
  | _ => none

/- An optional field of an object. -/
def LString.field (s : LString) : Option (List Byte) := if s.content = [] then none else some s.content

/-- The fields of a connect object. -/
def Connect.packet (c : Connect) : ConnectPacket where
  cleanSession := c.cleanSession
  willQos := c.willQos
  willRetain := c.willRetain
  keepAlive := c.keepAlive.toNat
  clientId := c.clientId.content
  willTopic := c.willTopic.field
  willMessage := c.willMessage.field
  userName := c.userName.field
  password := c.password.field

/-! ### Flags -/

/- The flags as bits. -/
def flagBits (qos : ℕ) (clean retain will user password : Bool) : ℕ :=
  (qos <<< 3) % 256 ||| (if clean then 0x02 else 0) ||| (if retain then 0x20 else 0) ||| (if will then 0x04 else 0) |||
    (if user then 0x80 else 0) ||| (if password then 0x40 else 0)

theorem connectFlags_eq (c : Connect) : connectFlags c = flagBits c.willQos c.cleanSession c.willRetain
    (decide (0 < c.willTopic.len)) (decide (0 < c.userName.len)) (decide (0 < c.password.len)) := by
  unfold connectFlags flagBits
  simp only [decide_eq_true_eq]

/- What each of the bits says. -/
theorem flagBits_read {qos : ℕ} (h : qos ≤ 2) (clean retain will user password : Bool) :
    let f := flagBits qos clean retain will user password
    f < 256 ∧ f % 2 = 0 ∧ decide (f / 2 % 2 = 1) = clean ∧ decide (f / 4 % 2 = 1) = will ∧ f / 8 % 4 = qos ∧
      decide (f / 32 % 2 = 1) = retain ∧ decide (f / 64 % 2 = 1) = password ∧ decide (f / 128 % 2 = 1) = user := by
  obtain rfl | rfl | rfl : qos = 0 ∨ qos = 1 ∨ qos = 2 := by omega
  all_goals
    revert clean retain will user password
    decide +kernel

theorem flagBits_legal {qos : ℕ} (h : qos ≤ 2) (clean retain will user password : Bool) :
    legalFlags (flagBits qos clean retain will user password) =
      ((will || qos = 0 && !retain) && (!password || user)) := by
  obtain rfl | rfl | rfl : qos = 0 ∨ qos = 1 ∨ qos = 2 := by omega
  all_goals
    revert clean retain will user password
    decide +kernel

/-! ### The packet of an object -/

/-- What the check of a connect object says of its fields. -/
theorem connectValidate_legal {c : Connect} (hv : connectValidate c = true) : c.willQos ≤ 2 ∧
    (c.willTopic.len = 0 ↔ c.willMessage.len = 0) ∧ (c.willTopic.len = 0 → c.willRetain = false) ∧
      (c.password.len ≠ 0 → c.userName.len ≠ 0) := by
  unfold connectValidate at hv
  split at hv
  · contradiction
  · rename_i hlen
    split at hv
    · contradiction
    · rename_i hwill
      split at hv
      · contradiction
      · rename_i hretain
        split at hv
        · contradiction
        · split at hv
          · contradiction
          · rename_i hpassword
            refine ⟨of_decide_eq_true hv, ?_, ?_, ?_⟩
            · by_cases h1 : c.willTopic.len = 0 <;> by_cases h2 : c.willMessage.len = 0 <;> simp [h1, h2] at hwill ⊢
            · intro h0
              simpa [h0] using hretain
            · intro hp h0
              simp [h0, hp] at hpassword

theorem LString.InMemory.pos_iff {s : LString} (h : s.InMemory) : 0 < s.len ↔ s.content ≠ [] := by
  have hnonneg := h.nonneg
  have hzero := h.len_zero
  rw [ne_eq, ← hzero]
  omega

/- A field that is announced where it is not empty. -/
theorem takeIf_encode {s : LString} (hs : s.content.length ≤ 65535) (present : Bool) (hp : present = true ↔ s.content ≠ [])
    (more : List Byte) :
    takeIf present ((if s.content = [] then [] else Prefixed.encode s.content) ++ more) = some (s.field, more) := by
  unfold takeIf LString.field
  by_cases h : s.content = []
  · have hpresent : present = false := by
      rw [← Bool.not_eq_true, hp]
      simpa using h
    rw [if_pos h, if_pos h, hpresent]
    rfl
  · rw [if_neg h, if_neg h, if_pos (hp.mpr h), Prefixed.take_encode hs]
    rfl

section Parse
variable {c : Connect}

/- The strings of a payload are short enough for their lengths. -/
theorem connect_content (hv : connectValidate c = true) (hm : c.InMemory) :
    c.clientId.content.length ≤ 65535 ∧ c.willTopic.content.length ≤ 65535 ∧ c.willMessage.content.length ≤ 65535 ∧
      c.userName.content.length ≤ 65535 ∧ c.password.content.length ≤ 65535 := by
  obtain ⟨hid, htopic, hmessage, huser, hpassword⟩ := connectValidate_fields hv
  have hle : ∀ {s : LString}, s.InMemory → stringValidateFieldLength s = true → s.content.length ≤ 65535 := by
    intro s hs hlen
    have hcast := hs.natCast
    have hbound := (field_bounds hlen).2
    omega
  exact ⟨hle hm.clientId hid, hle hm.willTopic htopic, hle hm.willMessage hmessage, hle hm.userName huser,
    hle hm.password hpassword⟩

/-- The payload is what the flags announce. -/
theorem parsePayload_strings (hv : connectValidate c = true) (hm : c.InMemory) :
    parsePayload (connectFlags c) c.keepAlive.toNat (c.strings.flatMap Prefixed.encode) = some c.packet := by
  obtain ⟨hqos, hwill, -, -⟩ := connectValidate_legal hv
  obtain ⟨hid, htopic, hmessage, huser, hpassword⟩ := connect_content hv hm
  obtain ⟨-, -, hclean, hf4, hf8, hf32, hf64, hf128⟩ := flagBits_read hqos c.cleanSession c.willRetain
    (decide (0 < c.willTopic.len)) (decide (0 < c.userName.len)) (decide (0 < c.password.len))
  rw [← connectFlags_eq] at hclean hf4 hf8 hf32 hf64 hf128
  have hbytes : c.strings.flatMap Prefixed.encode = Prefixed.encode c.clientId.content ++
      ((if c.willTopic.content = [] then [] else Prefixed.encode c.willTopic.content) ++
        ((if c.willMessage.content = [] then [] else Prefixed.encode c.willMessage.content) ++
          ((if c.userName.content = [] then [] else Prefixed.encode c.userName.content) ++
            ((if c.password.content = [] then [] else Prefixed.encode c.password.content) ++ [])))) := by
    unfold Connect.strings
    rw [List.flatMap_cons, ← optional_bytes]
    rfl
  have hmessage' : decide (0 < c.willTopic.len) = true ↔ c.willMessage.content ≠ [] := by
    rw [decide_eq_true_eq, hm.willTopic.pos_iff, ne_eq, ne_eq, ← hm.willTopic.len_zero, ← hm.willMessage.len_zero, hwill]
  unfold parsePayload
  rw [hbytes, Prefixed.take_encode hid, hf4, hf128, hf64, hclean, hf8, hf32]
  have h1 := takeIf_encode htopic (decide (0 < c.willTopic.len)) (by rw [decide_eq_true_eq, hm.willTopic.pos_iff])
  have h2 := takeIf_encode hmessage _ hmessage'
  have h3 := takeIf_encode huser (decide (0 < c.userName.len)) (by rw [decide_eq_true_eq, hm.userName.pos_iff])
  have h4 := takeIf_encode hpassword (decide (0 < c.password.len)) (by rw [decide_eq_true_eq, hm.password.pos_iff])
  simp only [Option.bind_eq_bind, Option.bind_some, h1, h2, h3, h4]
  rfl

/-- The variable header announces the payload, unless its flags must not be set together. -/
theorem parseVariableHeader_body (hv : connectValidate c = true) (hm : c.InMemory) :
    parseVariableHeader c.body = if legalFlags (connectFlags c) then some c.packet else none := by
  have hflags : (UInt8.ofNat (connectFlags c)).toNat = connectFlags c := by
    apply Varint.toNat_ofNat
    rw [connectFlags_eq]
    exact (flagBits_read (connectValidate_legal hv).1 ..).1
  have hbody : c.body = Prefixed.encode [0x4d, 0x51, 0x54, 0x54] ++ (4 :: UInt8.ofNat (connectFlags c) ::
      stringLenByte c.keepAlive.toNat 1 :: stringLenByte c.keepAlive.toNat 0 :: c.strings.flatMap Prefixed.encode) := rfl
  have hkeep : (stringLenByte c.keepAlive.toNat 1).toNat * 256 + (stringLenByte c.keepAlive.toNat 0).toNat =
      c.keepAlive.toNat := by
    have hlt := c.keepAlive.toNat_lt
    rw [stringLenByte_toNat, stringLenByte_toNat]
    omega
  unfold parseVariableHeader
  rw [hbody, Prefixed.take_encode (by decide)]
  simp only [Option.bind_eq_bind, Option.bind_some, if_true, hflags, hkeep, true_and, parsePayload_strings hv hm]

/-- The flags of an accepted object are legal if there is a will or no Will QoS. -/
theorem connectFlags_legal (hv : connectValidate c = true) :
    legalFlags (connectFlags c) = true ↔ 0 < c.willTopic.len ∨ c.willQos = 0 := by
  obtain ⟨hqos, -, hretain, hpassword⟩ := connectValidate_legal hv
  obtain ⟨hid, htopic, hmessage, huser, hpass⟩ := connectValidate_fields hv
  have htopic0 := (field_bounds htopic).1
  have huser0 := (field_bounds huser).1
  rw [connectFlags_eq, flagBits_legal hqos]
  simp only [Bool.and_eq_true, Bool.or_eq_true, decide_eq_true_eq, Bool.not_eq_true', decide_eq_false_iff_not]
  constructor
  · intro h
    rcases h.1 with h | h
    · exact .inl h
    · exact .inr h.1
  · intro h
    constructor
    · by_cases ht : 0 < c.willTopic.len
      · exact .inl ht
      · exact .inr ⟨h.resolve_left ht, hretain (by omega)⟩
    · by_cases hp : c.password.len = 0
      · left
        omega
      · right
        have hne := hpassword hp
        omega

/-- The packet of an accepted object is a CONNECT with its fields if and only if its flags are legal. -/
theorem parseConnect_framed (hv : connectValidate c = true) (hm : c.InMemory) (hlen : c.body.length ≤ 268435455) :
    parseConnect (framed 16 c.body) = if legalFlags (connectFlags c) then some c.packet else none := by
  have hframed : framed 16 c.body = 0x10 :: (Varint.encode c.body.length ++ c.body) := by
    unfold framed
    rw [lengthBytes_eq hlen]
    rfl
  rw [hframed, parseConnect, Varint.decode_encode]
  simp only [Option.bind_eq_bind, Option.bind_some, hlen, true_and, if_true]
  exact parseVariableHeader_body hv hm

end Parse

/-- A CONNECT that passed the check is legal, and says what the object says, if and only if
it has a will or no Will QoS. Its bytes are those of a call with room for all of them, and
those of any calls that return. -/
theorem connect_legal_iff (w : World σ) (e : Entry) (hw : w.Alone e) (ht : e.WellTyped) (hk : e.kind = .connect)
    (hv : connectValidate (w.heap.connects e.value.value) = true) (hm : (w.heap.connects e.value.value).InMemory) :
    ∃ packet,
      (∀ bufLen, packet.length ≤ bufLen → 10 ≤ env.fuel →
        ∃ r w', lmqttTxBufferEncode env bufLen w = .ok (r, packet) w' ∧ r ≠ .error) ∧
      (∀ (sizes : List ℕ) rs w', sizes.mapM (lmqttTxBufferEncode env) w = .ok rs w' →
        (∀ r ∈ rs, r.1 ≠ .error) ∧ rs.flatMap (·.2) = packet.take sizes.sum) ∧
      (parseConnect packet = some (w.heap.connects e.value.value).packet ↔
        0 < (w.heap.connects e.value.value).willTopic.len ∨ (w.heap.connects e.value.value).willQos = 0) := by
  have hfits : w.FitsPacket e := by
    unfold World.FitsPacket
    rw [hk]
    exact ⟨hv, hm⟩
  have hs := FitsPacket.canSend ht hfits
  have hlen := connect_length hv hm
  have hmax := (connectLength_exact hv).encodable.2
  have hpacket : w.packet e = framed 16 (w.heap.connects e.value.value).body := by
    rw [connect_packet hk hm, hlen]
    rfl
  have hfields : (entryFields w.heap e).length = 7 := by
    unfold entryFields entryEncoders
    rw [hk]
    rfl
  refine ⟨w.packet e, fun bufLen hb hf => ?_, fun sizes rs w' hrun => ?_, ?_⟩
  · exact hw.encode hs bufLen (.inl (by rw [hk]; decide)) (by omega) hb
  · exact hw.encode_pieces hs (by rw [hk]; decide) hrun
  · rw [hpacket, parseConnect_framed hv hm (by omega), ← connectFlags_legal hv]
    split
    · rename_i hlegal
      exact iff_of_true rfl hlegal
    · rename_i hlegal
      exact iff_of_false (by simp) hlegal

/- A client that is to send a CONNECT without a will, with the Will QoS `qos`. -/
def connectingWorld (qos : ℕ) : World Unit := { publishingWorld with
  tx := { store := .connect }
  mainStore := .empty 1
  connectStore := { entries := [⟨.connect, { value := 0, callback := some .onConnack, req := some 0 }⟩], capacity := 1 }
  currentStore := .connect
  heap := { smallHeap with connects := fun _ => { willQos := qos, clientId := { len := 1, buf := some [97] } } } }

theorem connectingWorld_inMemory (qos : ℕ) : ((connectingWorld qos).heap.connects 0).InMemory :=
  have hempty : LString.InMemory {} := ⟨rfl, by decide, .inl rfl⟩
  ⟨⟨rfl, Int.one_nonneg, .inr ⟨[97], rfl, le_rfl⟩⟩, hempty, hempty, hempty, hempty⟩

theorem connect_will_qos : connectValidate ((connectingWorld 1).heap.connects 0) = true ∧
    ((connectingWorld 1).heap.connects 0).InMemory ∧
    Wp (lmqttTxBufferEncode memoryEnv 15) (connectingWorld 1)
      (fun r _ => r.2 = [0x10, 13, 0, 4, 0x4d, 0x51, 0x54, 0x54, 4, 8, 0, 0, 0, 1, 97] ∧ parseConnect r.2 = none)
      fun _ _ => False :=
  ⟨by decide +kernel, connectingWorld_inMemory 1, by decide +kernel⟩

theorem connect_legal_small : ∃ bufLen packet r w',
    lmqttTxBufferEncode memoryEnv bufLen (connectingWorld 0) = .ok (r, packet) w' ∧ r ≠ .error ∧
      parseConnect packet = some ((connectingWorld 0).heap.connects 0).packet := by
  obtain ⟨packet, hone, -, hiff⟩ := @connect_legal_iff Unit memoryEnv (connectingWorld 0) _ ⟨rfl, rfl, rfl⟩ ⟨rfl, rfl⟩ rfl
    (by decide +kernel) (connectingWorld_inMemory 0)
  obtain ⟨r, w', hrun, hr⟩ := hone packet.length le_rfl (by decide)
  exact ⟨packet.length, packet, r, w', hrun, hr, hiff.mpr (.inr rfl)⟩

end LightMqtt
