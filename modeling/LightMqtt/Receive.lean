import LightMqtt.Message
import LightMqtt.Decode

/-!
# Receiving a message

The decoder reads the bytes of a message in whatever pieces they arrive, hands
the message to an application that takes it, and answers it by its QoS. What it
has read so far is a position in the body of the packet.
-/

namespace LightMqtt

open Exec

variable {σ : Type} {env : Env σ} {taken : σ → ℕ → List Byte}

/-! ### Applications that take a message -/

/-- The write callback of the strings with the number `d` takes the bytes in order, some
at a time. `taken` is what it was given. -/
def Env.Takes (env : Env σ) (taken : σ → ℕ → List Byte) (d : ℕ) : Prop :=
  ∀ a bs, bs ≠ [] → (env.strWrite a d bs).result = .success ∧ 0 < (env.strWrite a d bs).count ∧
    (env.strWrite a d bs).count ≤ bs.length ∧
    taken (env.strWrite a d bs).app d = taken a d ++ bs.take (env.strWrite a d bs).count ∧
    ∀ d', d' ≠ d → taken (env.strWrite a d bs).app d' = taken a d'

/-- The bytes `bs` are in a string of `n` bytes: in its memory, or its write callback
was given them. -/
structure LString.Holds (env : Env σ) (taken : σ → ℕ → List Byte) (a : σ) (s : LString) (n : ℕ) (bs : List Byte) :
    Prop where
  len : s.len = n
  place : s.write = true ∧ s.buf = none ∧ env.Takes taken s.data ∧ taken a s.data = bs ∨
    s.write = false ∧ s.pos = bs.length ∧ ∃ mem, s.buf = some mem ∧ n ≤ mem.length ∧ mem.take bs.length = bs

/-- The callbacks accept every message: each part of it gets a string of its length, in
memory or behind a write callback that takes it, and the message is not refused. -/
structure Env.Accepts (env : Env σ) (taken : σ → ℕ → List Byte) : Prop where
  topic : ∃ f, env.message.onPublishAllocateTopic = some f ∧ ∀ a b n,
    (f a b n).result = .success ∧ (f a b n).str.Holds env taken (f a b n).app n []
  payload : ∃ f, env.message.onPublishAllocatePayload = some f ∧ ∀ a b n,
    (f a b n).result = .success ∧ (f a b n).str.Holds env taken (f a b n).app n [] ∧
      -- and leaves the topic alone
      (b.topic.write = true → taken (f a b n).app b.topic.data = taken a b.topic.data ∧
        ((f a b n).str.write = true → (f a b n).str.data ≠ b.topic.data))
  message : ∃ f, env.message.onPublish = some f ∧ ∀ a b, (f a b).ok = true ∧ (f a b).requests = []

/- What a string holds that was filled. -/
def LString.held (taken : ℕ → List Byte) (s : LString) : List Byte := if s.write then taken s.data else s.content

/-- The message an application is handed. -/
def Publish.received (taken : ℕ → List Byte) (b : Publish) (id : PacketId) : Message where
  qos := b.qos
  retain := b.retain
  id := id
  topic := b.topic.held taken
  payload := b.payload.held taken

theorem LString.Holds.held {a : σ} {s : LString} {n : ℕ} {bs : List Byte} (h : s.Holds env taken a n bs)
    (hl : bs.length = n) : s.held (taken a) = bs := by
  unfold LString.held
  rcases h.place with ⟨hw, -, -, ht⟩ | ⟨hw, -, mem, hm, -, ht⟩
  · rw [if_pos hw, ht]
  · rw [if_neg (by simp [hw]), LString.content, h.len, hm, Option.getD_some, Int.toNat_natCast, ← hl, ht]

/- Calls of write callbacks for other strings change nothing. -/
theorem LString.Holds.congr {a a' : σ} {s : LString} {n : ℕ} {bs : List Byte} (h : s.Holds env taken a n bs)
    (he : s.write = true → taken a' s.data = taken a s.data) : s.Holds env taken a' n bs := by
  refine ⟨h.len, ?_⟩
  rcases h.place with ⟨hw, hb, hd, ht⟩ | hm
  · exact .inl ⟨hw, hb, hd, (he hw).trans ht⟩
  · exact .inr hm

/-! ### Writing a part -/

def PublishPart.get (b : Publish) : PublishPart → LString
  | .topic => b.topic
  | .payload => b.payload

def PublishPart.put (b : Publish) (s : LString) : PublishPart → Publish
  | .topic => { b with topic := s }
  | .payload => { b with payload := s }

/- The messages that were handed over. -/
def World.messages (w : World σ) : List (PacketId × Publish) :=
  w.log.filterMap fun
    | .message id b => some (id, b)
    | _ => none

/-- Nothing but the decoder and the application changed, and no message was handed over. -/
structure Reads (w v : World σ) : Prop where
  same : v = { w with app := v.app, log := v.log, rx := { w.rx with internal := v.rx.internal } }
  messages : v.messages = w.messages

theorem Reads.refl (w : World σ) : Reads w w := ⟨rfl, rfl⟩

theorem Reads.trans {w v u : World σ} (h : Reads w v) (h' : Reads v u) : Reads w u := by
  refine ⟨?_, h'.messages.trans h.messages⟩
  rw [h'.same, h.same]

theorem Reads.setRx (w : World σ) (i : RxInternal) : Reads w (w.setRx i) := ⟨rfl, rfl⟩

theorem Reads.app (w : World σ) (a : σ) : Reads w { w with app := a } := ⟨rfl, rfl⟩

theorem overwrite_take (mem bs : List Byte) (pos : ℕ) (h : pos + bs.length ≤ mem.length) :
    (overwrite mem pos bs).take (pos + bs.length) = mem.take pos ++ bs ∧ (overwrite mem pos bs).length = mem.length := by
  have hhead : (mem.take pos ++ bs).length = pos + bs.length := by
    rw [List.length_append, List.length_take]
    omega
  unfold overwrite
  constructor
  · rw [← hhead, List.take_left]
  · rw [List.length_append, hhead, List.length_drop]
    omega

/- `string_write` takes some of the next bytes of a part. -/
theorem stringWrite_holds (w : World σ) (part : PublishPart) (n : ℕ) (got bs : List Byte)
    (h : (part.get w.rx.internal.publish).Holds env taken w.app n got) (hb : bs ≠ []) (hn : got.length + bs.length ≤ n)
    (hlt : n < 2^63) :
    Wp (stringWrite env part.str bs) w (fun x v => ∃ s, x.1 = .success ∧ 0 < x.2.1 ∧ x.2.1 ≤ bs.length ∧ Reads w v ∧
      v.rx.internal = { w.rx.internal with publish := part.put w.rx.internal.publish s } ∧
      s.Holds env taken v.app n (got ++ bs.take x.2.1) ∧ s.write = (part.get w.rx.internal.publish).write ∧
      s.data = (part.get w.rx.internal.publish).data ∧
      ∀ d, ((part.get w.rx.internal.publish).write = true → d ≠ (part.get w.rx.internal.publish).data) →
        taken v.app d = taken w.app d) fun _ _ => False := by
  have hstr : w.str part.str = part.get w.rx.internal.publish := by cases part <;> rfl
  have hput : part.put w.rx.internal.publish (part.get w.rx.internal.publish) = w.rx.internal.publish := by
    cases part <;> rfl
  have hlen : 0 < bs.length := List.length_pos_iff.mpr hb
  simp only [stringWrite, wp_bind, wp_get, hstr]
  rcases h.place with ⟨hw, hbuf, htakes, ht⟩ | ⟨hw, hpos, mem, hm, hfit, htake⟩
  · obtain ⟨hres, hpos, hle, hget, hothers⟩ := htakes w.app bs hb
    simp only [hw, hbuf, Option.isSome_none, Bool.and_false, Bool.false_eq_true, if_false, hlen.ne', if_true, wp_bind,
      wp_set, hres]
    refine ⟨part.get w.rx.internal.publish, rfl, hpos, hle, .app w _, ?_, ⟨h.len, ?_⟩, hw, rfl, ?_⟩
    · rw [hput]
    · exact .inl ⟨hw, hbuf, htakes, by rw [hget, ht]⟩
    · intro d hd
      exact hothers d (hd trivial)
  · have hfits : toSize ((part.get w.rx.internal.publish).pos + bs.length) ≤ toSize (part.get w.rx.internal.publish).len := by
      rw [hpos, h.len, toSize_of_bounds _ (by omega) (by omega), toSize_natCast n (by omega)]
      omega
    obtain ⟨htake', hlen'⟩ := overwrite_take mem bs got.length (by omega)
    simp only [hw, hm, Bool.false_and, Bool.false_eq_true, if_false, hlen.ne']
    refine wp_assert_bind (fun _ => ?_) fun hf => ?_
    · simp only [wp_bind, wp_set]
      refine ⟨{ part.get w.rx.internal.publish with
          buf := some (overwrite mem (part.get w.rx.internal.publish).pos bs)
          write := false
          pos := (part.get w.rx.internal.publish).pos + bs.length }, rfl, hlen, le_rfl, ?_, ?_, ⟨h.len, ?_⟩, rfl, rfl, ?_⟩
      · cases part <;> exact ⟨rfl, rfl⟩
      · cases part <;> rfl
      · refine .inr ⟨rfl, ?_, _, rfl, ?_, ?_⟩
        · rw [List.take_of_length_le le_rfl, List.length_append, hpos]
        · rw [hpos, hlen']
          exact hfit
        · rw [List.take_of_length_le le_rfl, List.length_append, hpos, htake', htake]
      · intro d _
        cases part <;> rfl
    · rw [Bool.or_eq_false_iff, decide_eq_false_iff_not] at hf
      exact hf.2 hfits

/- The string that is provided for a part keeps clear of the numbers `D`. -/
def Env.Provides (env : Env σ) (taken : σ → ℕ → List Byte) (part : PublishPart) (b : Publish) (D : ℕ → Prop) : Prop :=
  ∃ f, part.allocate env = some f ∧ ∀ a n, (f a b n).result = .success ∧
    (f a b n).str.Holds env taken (f a b n).app n [] ∧ ((f a b n).str.write = true → ¬ D (f a b n).str.data) ∧
    ∀ d, D d → taken (f a b n).app d = taken a d

/-- At the first byte of a part the application provides its string. -/
theorem rxBufferAllocateFirst_holds (w : World σ) (part : PublishPart) (D : ℕ → Prop) (start n : ℕ) (got : List Byte)
    (hp : env.Provides taken part w.rx.internal.publish D) (hi : w.rx.internal.ignorePublish = false)
    (h0 : w.rx.internal.remainBufPos + 1 = start → got = [])
    (hold : w.rx.internal.remainBufPos + 1 ≠ start → (part.get w.rx.internal.publish).Holds env taken w.app n got ∧
      ((part.get w.rx.internal.publish).write = true → ¬ D (part.get w.rx.internal.publish).data)) :
    Wp (rxBufferAllocateFirst env start part n) w (fun ok v => ok = true ∧ ∃ s, Reads w v ∧
      v.rx.internal = { w.rx.internal with publish := part.put w.rx.internal.publish s } ∧
      s.Holds env taken v.app n got ∧ (s.write = true → ¬ D s.data) ∧ ∀ d, D d → taken v.app d = taken w.app d)
      fun _ _ => False := by
  obtain ⟨f, hf, hall⟩ := hp
  simp only [rxBufferAllocateFirst, wp_bind, wp_get, hf, hi, Bool.not_false, Bool.true_and, decide_eq_true_eq]
  refine wp_if (fun hfirst => ?_) fun hlater => ?_
  · obtain ⟨hres, hholds, happart, hkeep⟩ := hall w.app n
    simp only [rxBufferAllocate, wp_bind, wp_emit, wp_get, wp_set]
    split
    case h_2 _ h => cases h.symm.trans hres
    case h_3 _ h => cases h.symm.trans hres
    refine ⟨rfl, (f w.app w.rx.internal.publish n).str, ?_, ?_, ?_, happart, hkeep⟩
    · cases part <;> exact ⟨rfl, rfl⟩
    · cases part <;> simp only [← hi] <;> rfl
    · rw [h0 hfirst]
      exact hholds
  · obtain ⟨hholds, happart⟩ := hold hlater
    refine ⟨rfl, part.get w.rx.internal.publish, .refl w, ?_, hholds, happart, fun _ _ => rfl⟩
    cases part <;> simp only [← hi] <;> rfl

/-- `rx_buffer_allocate_write`, of a part of `n` bytes of which `got` were read: some of
the next bytes `bs` are taken. -/
theorem rxBufferAllocateWrite_holds (w : World σ) (part : PublishPart) (D : ℕ → Prop)
    (start n : ℕ) (got bs : List Byte) (hp : env.Provides taken part w.rx.internal.publish D)
    (hi : w.rx.internal.ignorePublish = false) (hblock : w.rx.internal.blockingStr = none)
    (hpos : w.rx.internal.remainBufPos + 1 = start + got.length) (hb : bs ≠ []) (hlt : got.length < n) (hn : n < 2^63)
    (hold : got ≠ [] → (part.get w.rx.internal.publish).Holds env taken w.app n got ∧
      ((part.get w.rx.internal.publish).write = true → ¬ D (part.get w.rx.internal.publish).data)) :
    Wp (rxBufferAllocateWrite env start part n bs) w (fun r v => ∃ k s, r = some k ∧ 0 < k ∧ k ≤ bs.length ∧
      got.length + k ≤ n ∧ Reads w v ∧ v.rx.internal = { w.rx.internal with publish := part.put w.rx.internal.publish s } ∧
      s.Holds env taken v.app n (got ++ bs.take k) ∧ (s.write = true → ¬ D s.data) ∧
      ∀ d, D d → taken v.app d = taken w.app d) fun _ _ => False := by
  have hne : w.rx.internal.remainBufPos + 1 ≠ start → got ≠ [] := by
    rintro hne rfl
    exact hne hpos
  have hnil : w.rx.internal.remainBufPos + 1 = start → got = [] := fun h =>
    List.eq_nil_of_length_eq_zero (by omega)
  simp only [rxBufferAllocateWrite, wp_bind, wp_get]
  refine (rxBufferAllocateFirst_holds w part D start n got hp hi hnil fun h => hold (hne h)).mono (fun ok v hv => ?_)
    fun _ _ h => h
  obtain ⟨rfl, s, hreads, hv, hholds, happart, hkeep⟩ := hv
  have hget : part.get v.rx.internal.publish = s := by
    rw [hv]
    cases part <;> rfl
  rw [if_pos rfl]
  simp only [rxBufferWritePart, wp_bind, wp_get]
  have hign : v.rx.internal.ignorePublish = false := by rw [hv]; exact hi
  rw [if_neg (by rw [hign]; decide)]
  simp only [wp_bind, wp_modify]
  have hunblocked : v.setRx { v.rx.internal with blockingStr := none } = v := by
    have hnone : v.rx.internal.blockingStr = none := by rw [hv]; exact hblock
    rw [← hnone]
    rfl
  rw [hunblocked]
  have hcount : n - (w.rx.internal.remainBufPos + 1 - start) = n - got.length := by omega
  rw [hcount]
  have htake : bs.take (n - got.length) ≠ [] := by
    have hlen := List.length_pos_iff.mpr hb
    apply List.length_pos_iff.mp
    rw [List.length_take]
    omega
  refine (stringWrite_holds v part n got (bs.take (n - got.length)) (by rwa [hget]) htake (by
    rw [List.length_take]
    omega) hn).mono (fun x u hu => ?_) fun _ _ h => h
  obtain ⟨s', hres, hpos', hle, hreads', hu, hholds', hwrite, hdata, hothers⟩ := hu
  rw [hget] at hwrite hdata hothers
  rw [List.length_take] at hle
  rw [List.take_take, Nat.min_eq_left (by omega)] at hholds'
  simp only [hres, wp_pure]
  refine ⟨x.2.1, s', rfl, hpos', by omega, by omega, hreads.trans hreads', ?_, hholds', ?_, ?_⟩
  · rw [hu, hv]
    cases part <;> rfl
  · rw [hwrite, hdata]
    exact happart
  · intro d hd
    rw [hothers d, hkeep d hd]
    rintro hw rfl
    exact happart hw hd

/-! ### Positions in the body -/

theorem stringLenByte_toNat (n k : ℕ) : (stringLenByte n k).toNat = n / 256^k % 256 := by
  unfold stringLenByte
  have hnat : ((n : ℤ) / 256^k % 256).toNat = n / 256^k % 256 := by
    have hcast : (n : ℤ) / 256^k % 256 = ((n / 256^k % 256 : ℕ) : ℤ) := by push_cast; rfl
    rw [hcast, Int.toNat_natCast]
  rw [hnat, UInt8.toNat_ofNat']
  omega

/- The two bytes of a length are joined to the length. -/
theorem stringLen_join (n : ℕ) (h : n ≤ 65535) :
    (stringLenByte n 1).toNat <<< 8 ||| (stringLenByte n 0).toNat = n := by
  have hlo : (stringLenByte n 0).toNat < 2^8 := (stringLenByte n 0).toNat_lt
  rw [← Nat.shiftLeft_add_eq_or_of_lt hlo, stringLenByte_toNat, stringLenByte_toNat, Nat.shiftLeft_eq]
  omega

theorem packetId_join (id : PacketId) :
    (stringLenByte id.toNat 1).toUInt16 <<< 8 ||| (stringLenByte id.toNat 0).toUInt16 = id := by
  have hlt := id.toNat_lt
  apply UInt16.toNat_inj.mp
  have hhi : (stringLenByte id.toNat 1).toNat <<< 8 < 2^16 := by
    rw [stringLenByte_toNat, Nat.shiftLeft_eq]
    omega
  have hshift : ((stringLenByte id.toNat 1).toUInt16 <<< 8).toNat = (stringLenByte id.toNat 1).toNat <<< 8 := by
    rw [UInt16.toNat_shiftLeft, UInt8.toNat_toUInt16]
    exact Nat.mod_eq_of_lt hhi
  rw [UInt16.toNat_or, hshift, UInt8.toNat_toUInt16]
  exact stringLen_join id.toNat (by omega)

namespace Message
variable (m : Message)

/- Where the payload begins. -/
def start : ℕ := 2 + m.topic.length + m.idBytes.length

/- The length of the topic and the packet id as the decoder has them behind `n` bytes. -/
def topicLenAt (n : ℕ) : ℕ :=
  if n = 0 then 0 else if n = 1 then (stringLenByte m.topic.length 1).toNat <<< 8 else m.topic.length

def idAt (n : ℕ) : PacketId :=
  if n ≤ 2 + m.topic.length then 0
  else if n = 3 + m.topic.length then (stringLenByte m.id.toNat 1).toUInt16 <<< 8 else m.id

/-- The decoder behind `n` bytes of the body. -/
def reading (h : FixedHeader) (n : ℕ) (b : Publish) : RxInternal where
  header := h
  headerFinished := true
  decoder := some rxBufferDecoderPublish
  remainBufPos := n
  topicLen := m.topicLenAt n
  packetId := m.idAt n
  publish := b

/-- The fixed header of the packet. -/
structure Heads (h : FixedHeader) : Prop where
  type : h.type = typePublish
  qos : h.qos = m.qos
  retain : h.retain = if m.retain then 1 else 0
  length : h.remainingLength = m.body.length

/-- The parts of the message behind `n` bytes of the body. -/
structure Parts (env : Env σ) (taken : σ → ℕ → List Byte) (a : σ) (n : ℕ) (b : Publish) : Prop where
  topic : 2 < n → b.topic.Holds env taken a m.topic.length (m.topic.take (n - 2))
  payload : m.start < n → b.payload.Holds env taken a m.payload.length (m.payload.take (n - m.start)) ∧
    (b.payload.write = true → ¬ (b.topic.write = true ∧ b.payload.data = b.topic.data))
  none : n ≤ m.start → b.payload = {}

variable {m}

theorem body_split : m.body = stringLenBytes m.topic.length ++ m.topic ++ (m.idBytes ++ m.payload) := by
  unfold body
  rw [List.append_assoc]

theorem body_length_start : m.body.length = m.start + m.payload.length := by
  rw [body_length, start, idBytes_length]

theorem Heads.idLen {h : FixedHeader} (hh : m.Heads h) : h.idLen = m.idBytes.length := by
  unfold FixedHeader.idLen
  rw [hh.qos, idBytes_length]

theorem idAt_zero (h : m.id = 0) (n : ℕ) : m.idAt n = 0 := by
  unfold idAt
  rw [h]
  split
  · rfl
  · split <;> decide

/- At the end of the body the packet id is known. -/
theorem Valid.idAt_length (hm : m.Valid) : m.idAt m.body.length = m.id := by
  have hbody := body_length_start (m := m)
  have hstart : m.start = 2 + m.topic.length + m.idBytes.length := rfl
  by_cases h0 : m.qos = 0
  · rw [idAt_zero (hm.id h0), hm.id h0]
  · rw [idBytes_length, if_neg h0] at hstart
    unfold idAt
    by_cases hend : m.body.length = 3 + m.topic.length
    · omega
    · rw [if_neg (by omega), if_neg hend]

end Message

/- Bytes that were read from the middle of a list are its next ones. -/
theorem take_middle {pre mid post bs more : List Byte} {n k : ℕ} (h : bs ++ more = (pre ++ mid ++ post).drop n)
    (hn : pre.length ≤ n) (hk : k ≤ bs.length) (hm : n + k ≤ pre.length + mid.length) :
    mid.take (n - pre.length) ++ bs.take k = mid.take (n - pre.length + k) := by
  obtain ⟨j, rfl⟩ := Nat.exists_eq_add_of_le hn
  have hbs : bs.take k = (mid.drop j).take k := by
    have hdrop : (pre ++ mid ++ post).drop (pre.length + j) = mid.drop j ++ post := by
      rw [List.append_assoc, ← List.drop_drop, List.drop_left, List.drop_append_of_le_length (by omega)]
    calc bs.take k = (bs ++ more).take k := (List.take_append_of_le_length hk).symm
      _ = (mid.drop j ++ post).take k := by rw [h, hdrop]
      _ = (mid.drop j).take k := List.take_append_of_le_length (by rw [List.length_drop]; omega)
  rw [hbs, Nat.add_sub_cancel_left, List.take_add]

theorem headD_append {bs : List Byte} (h : bs ≠ []) (more : List Byte) : bs.headD 0 = (bs ++ more).headD 0 := by
  cases bs with
  | nil => contradiction
  | cons b bs => rfl

/-! ### Reading the parts -/

section Read
variable {m : Message} {w : World σ} {h : FixedHeader} {n : ℕ} {b : Publish} {bs more : List Byte}

/-- The part of `rx_buffer_decode_publish` that reads: behind `n` bytes of the body it
takes some of the next ones. The position is moved on by its caller. -/
def ReadsPart (env : Env σ) (taken : σ → ℕ → List Byte) (m : Message) (h : FixedHeader) (n : ℕ) (bs : List Byte) (w : World σ)
    (r : Option ℕ) (v : World σ) : Prop :=
  ∃ k b, r = some k ∧ 0 < k ∧ k ≤ bs.length ∧ Reads w v ∧
    v.rx.internal = { m.reading h (n + k) b with remainBufPos := n } ∧ m.Parts env taken v.app (n + k) b

theorem topicLen_reads (hm : m.Valid) (hh : m.Heads h) (hw : w.rx.internal = m.reading h n b) (hp : m.Parts env taken w.app n b)
    (hb : bs ≠ []) (hs : bs ++ more = m.body.drop n) (hn : n < 2) :
    Wp (rxBufferDecodeTopicLen (bs.headD 0)) w (ReadsPart env taken m h n bs w) fun _ _ => False := by
  have hlen := List.length_pos_iff.mpr hb
  have hpart : ∀ v : World σ, v.app = w.app → m.Parts env taken v.app (n + 1) b := by
    intro v hv
    rw [hv]
    refine ⟨fun h2 => by omega, fun hst => ?_, fun _ => hp.none ?_⟩
    · unfold Message.start at hst
      omega
    · unfold Message.start
      omega
  rw [headD_append hb more, hs]
  simp only [rxBufferDecodeTopicLen, wp_bind, wp_get, wp_set, hw]
  obtain rfl | rfl : n = 0 ∨ n = 1 := by omega
  · have hjoin : m.topicLenAt 0 ||| ((m.body.drop 0).headD 0).toNat <<< ((2 - (0 + 1)) * 8) = m.topicLenAt 1 :=
      Nat.zero_or _
    refine wp_if (fun hbad => ?_) fun _ => ?_
    · have hone : 0 + 1 = 2 := hbad.1
      contradiction
    · refine ⟨1, b, rfl, Nat.one_pos, hlen, .setRx w _, ?_, hpart _ rfl⟩
      have hid : m.idAt 1 = m.idAt 0 := by
        unfold Message.idAt
        rw [if_pos (by omega), if_pos (by omega)]
      change { m.reading h 0 b with topicLen := m.topicLenAt 0 ||| ((m.body.drop 0).headD 0).toNat <<< ((2 - (0 + 1)) * 8) } = _
      rw [hjoin]
      unfold Message.reading
      rw [hid]
  · have hjoin : m.topicLenAt 1 ||| ((m.body.drop 1).headD 0).toNat <<< ((2 - (1 + 1)) * 8) = m.topic.length :=
      stringLen_join m.topic.length hm.topicFits
    refine wp_if (fun hbad => ?_) fun _ => ?_
    · obtain ⟨-, hbad⟩ := hbad
      change m.topicLenAt 1 ||| ((m.body.drop 1).headD 0).toNat <<< ((2 - (1 + 1)) * 8) = 0 ∨ h.remainingLength <
        (m.topicLenAt 1 ||| ((m.body.drop 1).headD 0).toNat <<< ((2 - (1 + 1)) * 8)) + 2 + h.idLen at hbad
      rw [hjoin, hh.length, hh.idLen, Message.body_length_start, Message.start] at hbad
      have hpos := hm.topic
      omega
    · refine ⟨1, b, rfl, Nat.one_pos, hlen, .setRx w _, ?_, hpart _ rfl⟩
      have hid : m.idAt 2 = m.idAt 1 := by
        unfold Message.idAt
        rw [if_pos (by omega), if_pos (by omega)]
      change { m.reading h 1 b with topicLen := m.topicLenAt 1 ||| ((m.body.drop 1).headD 0).toNat <<< ((2 - (1 + 1)) * 8) } = _
      rw [hjoin]
      unfold Message.reading
      rw [hid]
      rfl

theorem ignoreUnwanted_same (ha : env.Accepts taken) (w : World σ) : w.ignoreUnwanted env = w := by
  obtain ⟨f, hf, -⟩ := ha.message
  obtain ⟨g, hg, -⟩ := ha.topic
  obtain ⟨k, hk, -⟩ := ha.payload
  unfold World.ignoreUnwanted
  rw [if_neg]
  rintro ⟨-, hnone⟩
  rw [hf, hg, hk] at hnone
  simp at hnone

theorem topic_reads (ha : env.Accepts taken) (hm : m.Valid) (hw : w.rx.internal = m.reading h n b)
    (hp : m.Parts env taken w.app n b) (hb : bs ≠ []) (hs : bs ++ more = m.body.drop n) (h2 : 2 ≤ n)
    (hn : n < 2 + m.topic.length) :
    Wp (rxBufferDecodeString env 3 .topic m.topic.length bs) w (ReadsPart env taken m h n bs w) fun _ _ => False := by
  have hfits := hm.topicFits
  have hgot : (m.topic.take (n - 2)).length = n - 2 := by
    rw [List.length_take]
    omega
  have hprovides : env.Provides taken .topic w.rx.internal.publish fun _ => False := by
    obtain ⟨f, hf, hall⟩ := ha.topic
    exact ⟨f, hf, fun a k => ⟨(hall a _ k).1, (hall a _ k).2, fun _ => id, fun _ hd => hd.elim⟩⟩
  simp only [rxBufferDecodeString, wp_bind]
  refine (rxBufferAllocateWrite_holds w .topic (fun _ => False) 3 m.topic.length (m.topic.take (n - 2)) bs hprovides
    (by rw [hw]; rfl) (by rw [hw]; rfl) ?_ hb (by omega) (by omega) fun hne => ?_).mono (fun r v hv => ?_) fun _ _ h => h
  · rw [hgot, hw]
    change n + 1 = _
    omega
  · refine ⟨?_, fun _ => id⟩
    have hpos : 2 < n := by
      by_contra hle
      rw [show n - 2 = 0 by omega] at hne
      exact hne rfl
    have htopic := hp.topic hpos
    rwa [hw]
  · obtain ⟨k, s, rfl, hk, hle, hmax, hreads, hv, hholds, -, -⟩ := hv
    rw [hgot] at hmax
    have hmiddle : m.topic.take (n - 2) ++ bs.take k = m.topic.take (n - 2 + k) := by
      have hcut := hs
      rw [Message.body_split] at hcut
      apply take_middle hcut h2 hle
      change n + k ≤ 2 + _
      omega
    refine ⟨k, { b with topic := s }, rfl, hk, hle, hreads, ?_, fun _ => ?_, fun hst => ?_, fun _ => ?_⟩
    · rw [hv, hw]
      unfold Message.reading Message.topicLenAt Message.idAt
      simp only [show ¬ n = 0 by omega, show ¬ n = 1 by omega, show ¬ n + k = 0 by omega, show ¬ n + k = 1 by omega,
        show n ≤ 2 + m.topic.length by omega, show n + k ≤ 2 + m.topic.length by omega, if_true, if_false]
      rfl
    · rw [show n + k - 2 = n - 2 + k by omega, ← hmiddle]
      exact hholds
    · unfold Message.start at hst
      omega
    · exact hp.none (by unfold Message.start; omega)

theorem publishId_reads (hm : m.Valid) (hh : m.Heads h) (hw : w.rx.internal = m.reading h n b)
    (hp : m.Parts env taken w.app n b) (hb : bs ≠ []) (hs : bs ++ more = m.body.drop n) (h2 : 2 + m.topic.length ≤ n)
    (hn : n < m.start) : Wp (rxBufferDecodePublishId (bs.headD 0)) w (ReadsPart env taken m h n bs w) fun _ _ => False := by
  have hpos := hm.topic
  have hlen := List.length_pos_iff.mpr hb
  have hqos : m.qos ≠ 0 := by
    intro h0
    rw [Message.start, Message.idBytes_length, if_pos h0] at hn
    omega
  have hbytes : m.idBytes = packetIdBytes m.id := by rw [Message.idBytes, if_neg hqos]
  have hstart : m.start = 4 + m.topic.length := by
    rw [Message.start, Message.idBytes_length, if_neg hqos]
    omega
  have hdrop : ∀ j, m.body.drop (2 + m.topic.length + j) = (packetIdBytes m.id ++ m.payload).drop j := by
    intro j
    have hhead : (stringLenBytes m.topic.length ++ m.topic).length = 2 + m.topic.length := List.length_append
    rw [← List.drop_drop, Message.body_split, ← hhead, List.drop_left, hbytes]
  have hparts : m.Parts env taken w.app (n + 1) b := by
    refine ⟨fun _ => ?_, fun hst => ?_, fun _ => hp.none (by omega)⟩
    · have htopic := hp.topic (by omega)
      rwa [List.take_of_length_le (by omega)] at htopic ⊢
    · omega
  have hidLen : h.idLen = 2 := by
    rw [hh.idLen, hbytes]
    rfl
  have htopicLen : m.topicLenAt n = m.topic.length ∧ m.topicLenAt (n + 1) = m.topic.length := by
    unfold Message.topicLenAt
    rw [if_neg (by omega), if_neg (by omega), if_neg (by omega), if_neg (by omega)]
    exact ⟨rfl, rfl⟩
  rw [headD_append hb more, hs]
  simp only [rxBufferDecodePublishId, wp_bind, wp_get, wp_modify, hw]
  refine ⟨1, b, rfl, Nat.one_pos, hlen, .setRx w _, ?_, hparts⟩
  have hid : m.idAt n ||| ((m.body.drop n).headD 0).toUInt16 <<<
      UInt16.ofNat ((h.idLen + (2 + m.topicLenAt n) - (n + 1)) * 8) = m.idAt (n + 1) := by
    rw [hidLen, htopicLen.1]
    unfold Message.idAt
    obtain rfl | rfl : n = 2 + m.topic.length ∨ n = 2 + m.topic.length + 1 := by omega
    · have hbyte := hdrop 0
      rw [Nat.add_zero] at hbyte
      rw [if_pos le_rfl, if_neg (by omega), if_pos (by omega), hbyte, UInt16.zero_or,
        show (2 + (2 + m.topic.length) - (2 + m.topic.length + 1)) * 8 = 8 by omega]
      rfl
    · rw [if_neg (by omega), if_pos (by omega), if_neg (by omega), if_neg (by omega), hdrop 1,
        show (2 + (2 + m.topic.length) - (2 + m.topic.length + 1 + 1)) * 8 = 0 by omega]
      have hjoin := packetId_join m.id
      have hzero : (stringLenByte m.id.toNat 0).toUInt16 <<< UInt16.ofNat 0 = (stringLenByte m.id.toNat 0).toUInt16 :=
        UInt16.shiftLeft_zero
      rw [← hzero] at hjoin
      exact hjoin
  change { m.reading h n b with packetId := (m.idAt n ||| ((m.body.drop n).headD 0).toUInt16 <<<
    UInt16.ofNat ((h.idLen + (2 + m.topicLenAt n) - (n + 1)) * 8)) } = _
  rw [hid]
  unfold Message.reading
  rw [htopicLen.1, htopicLen.2]

theorem payload_reads (ha : env.Accepts taken) (hm : m.Valid) (hw : w.rx.internal = m.reading h n b)
    (hp : m.Parts env taken w.app n b) (hb : bs ≠ []) (hs : bs ++ more = m.body.drop n) (hn : m.start ≤ n)
    (hlt : n < m.body.length) :
    Wp (rxBufferDecodeString env (m.start + 1) .payload m.payload.length bs) w (ReadsPart env taken m h n bs w)
      fun _ _ => False := by
  have hpos := hm.topic
  have hbody := hm.bodyFits
  rw [Message.body_length_start] at hlt hbody
  have hstart : m.start = 2 + m.topic.length + m.idBytes.length := rfl
  have hgot : (m.payload.take (n - m.start)).length = n - m.start := by
    rw [List.length_take]
    omega
  have hpublish : w.rx.internal.publish = b := by rw [hw]; rfl
  have hprovides : env.Provides taken .payload w.rx.internal.publish
      fun d => b.topic.write = true ∧ d = b.topic.data := by
    obtain ⟨f, hf, hall⟩ := ha.payload
    rw [hpublish]
    refine ⟨f, hf, fun a k => ⟨(hall a b k).1, (hall a b k).2.1, ?_, ?_⟩⟩
    · rintro hwrite ⟨ht, hd⟩
      exact ((hall a b k).2.2 ht).2 hwrite hd
    · rintro d ⟨ht, rfl⟩
      exact ((hall a b k).2.2 ht).1
  simp only [rxBufferDecodeString, wp_bind]
  refine (rxBufferAllocateWrite_holds w .payload (fun d => b.topic.write = true ∧ d = b.topic.data) (m.start + 1)
    m.payload.length (m.payload.take (n - m.start)) bs hprovides (by rw [hw]; rfl) (by rw [hw]; rfl) ?_ hb (by omega)
    (by omega) fun hne => ?_).mono (fun r v hv => ?_) fun _ _ h => h
  · rw [hgot, hw]
    change n + 1 = _
    omega
  · have hafter : m.start < n := by
      by_contra hle
      rw [show n - m.start = 0 by omega] at hne
      exact hne rfl
    have hpayload := hp.payload hafter
    rwa [hw]
  · obtain ⟨k, s, rfl, hk, hle, hmax, hreads, hv, hholds, happart, hkeep⟩ := hv
    rw [hgot] at hmax
    have hmiddle : m.payload.take (n - m.start) ++ bs.take k = m.payload.take (n - m.start + k) := by
      have hpre : (stringLenBytes m.topic.length ++ m.topic ++ m.idBytes).length = m.start := by
        rw [List.length_append, List.length_append]
        rfl
      have hcut : bs ++ more = (stringLenBytes m.topic.length ++ m.topic ++ m.idBytes ++ m.payload ++ []).drop n := by
        rw [hs, List.append_nil]
        rfl
      have htake := take_middle hcut (by omega) hle (by omega)
      rwa [hpre] at htake
    refine ⟨k, { b with payload := s }, rfl, hk, hle, hreads, ?_, fun _ => ?_, fun _ => ?_, fun hst => ?_⟩
    · have hid : m.idAt (n + k) = m.idAt n := by
        by_cases h0 : m.qos = 0
        · rw [Message.idAt_zero (hm.id h0), Message.idAt_zero (hm.id h0)]
        · rw [Message.idBytes_length, if_neg h0] at hstart
          unfold Message.idAt
          rw [if_neg (by omega), if_neg (by omega), if_neg (by omega), if_neg (by omega)]
      have htopicLen : m.topicLenAt (n + k) = m.topicLenAt n := by
        unfold Message.topicLenAt
        rw [if_neg (by omega), if_neg (by omega), if_neg (by omega), if_neg (by omega)]
      rw [hv, hw]
      unfold Message.reading
      rw [hid, htopicLen]
      rfl
    · have htopic := hp.topic (by omega)
      rw [List.take_of_length_le (by omega)] at htopic ⊢
      exact htopic.congr fun ht => hkeep _ ⟨ht, rfl⟩
    · rw [show n + k - m.start = n - m.start + k by omega, ← hmiddle]
      exact ⟨hholds, happart⟩
    · omega

theorem rxBufferDecodePublishPart_reads (ha : env.Accepts taken) (hm : m.Valid) (hh : m.Heads h)
    (hw : w.rx.internal = m.reading h n b) (hp : m.Parts env taken w.app n b) (hb : bs ≠ [])
    (hs : bs ++ more = m.body.drop n) (hlt : n < m.body.length) :
    Wp (rxBufferDecodePublishPart env bs) w (ReadsPart env taken m h n bs w) fun _ _ => False := by
  have hbody := Message.body_length_start (m := m)
  have hstart : m.start = 2 + m.topic.length + m.idBytes.length := rfl
  have hpos : (w.rx.internal).remainBufPos = n ∧ w.rx.internal.header.idLen = m.idBytes.length ∧
      w.rx.internal.header.remainingLength = m.body.length ∧ w.rx.internal.topicLen = m.topicLenAt n := by
    rw [hw]
    exact ⟨rfl, hh.idLen, hh.length, rfl⟩
  simp only [rxBufferDecodePublishPart, wp_bind, wp_get]
  rw [hpos.1, hpos.2.1, hpos.2.2.1, hpos.2.2.2]
  refine wp_if (fun h2 => ?_) fun h2 => ?_
  · exact topicLen_reads hm hh hw hp hb hs (by omega)
  · have htopicLen : m.topicLenAt n = m.topic.length := by
      unfold Message.topicLenAt
      rw [if_neg (by omega), if_neg (by omega)]
    rw [wp_bind, wp_modify, ignoreUnwanted_same ha, htopicLen]
    refine wp_if (fun htopic => ?_) fun htopic => wp_if (fun hid => ?_) fun hid => ?_
    · exact topic_reads ha hm hw hp hb hs (by omega) (by omega)
    · exact publishId_reads hm hh hw hp hb hs (by omega) (by omega)
    · rw [show m.body.length - m.idBytes.length - (2 + m.topic.length) = m.payload.length by omega]
      exact payload_reads ha hm hw hp hb hs (by omega) hlt

end Read

/-! ### The end of a message -/

/-- The entry that answers a message. -/
def Message.answers (m : Message) : List Entry :=
  match m.qos with
  | 0 => []
  | 1 => [⟨.puback, { packetId := m.id }⟩]
  | _ => [⟨.pubrec, { packetId := m.id }⟩]

/- What the application is after it was handed a message and gave its strings back. -/
def Env.Handed (env : Env σ) (a : σ) (b : Publish) (a' : σ) : Prop :=
  ∃ f, env.message.onPublish = some f ∧
    a' = match env.message.onPublishDeallocate with
      | some g => g (f a b).app b
      | none => (f a b).app

/-- There is room for the answer and for the id, which is not that of a message that
was not released. -/
structure World.Room (w : World σ) (m : Message) : Prop where
  store : m.qos ≠ 0 → w.rxStore.count < w.rxStore.capacity
  ids : m.qos = 2 → w.rx.idSet.count < w.rx.idSet.capacity ∧ m.id ∉ w.rx.idSet.items

/-- The message was handed over, once, and answered. -/
structure MessageTaken (env : Env σ) (taken : σ → ℕ → List Byte) (m : Message) (w v : World σ) : Prop where
  message : ∃ a b, v.messages = (m.id, b) :: w.messages ∧ b.received (taken a) m.id = m ∧ env.Handed a b v.app
  store : v.rxStore.entries = w.rxStore.entries ++ m.answers
  ids : v.rx.idSet.items = w.rx.idSet.items ++ if m.qos = 2 then [m.id] else []
  same : ∃ s, v = { w.setStore w.rx.store s with
    app := v.app, log := v.log, rx := { w.rx with idSet := v.rx.idSet, internal := v.rx.internal } }

section Finish
variable {m : Message} {w : World σ} {h : FixedHeader} {b : Publish}

theorem Reads.received {w₀ v : World σ} (hr : Reads w₀ w) (h : MessageTaken env taken m w v) :
    MessageTaken env taken m w₀ v := by
  have hsame := hr.same
  have hstore : w.rxStore = w₀.rxStore := by
    rw [hsame]
    unfold World.rxStore World.store
    cases w₀.rx.store <;> rfl
  have hset : w.rx.idSet = w₀.rx.idSet ∧ w.rx.store = w₀.rx.store := by
    rw [hsame]
    exact ⟨rfl, rfl⟩
  obtain ⟨s, hv⟩ := h.same
  refine ⟨?_, ?_, ?_, s, ?_⟩
  · rw [← hr.messages]
    exact h.message
  · rw [← hstore]
    exact h.store
  · rw [← hset.1]
    exact h.ids
  · rw [hv, hsame]
    cases w₀.rx.store <;> rfl

theorem acknowledge_store (hm : m.Valid) (hr : m.qos ≠ 0 → w.rxStore.count < w.rxStore.capacity)
    (hq : w.rx.internal.header.qos = m.qos) (hid : w.rx.internal.packetId = m.id) :
    ∃ s, w.acknowledge = w.setStore w.rx.store s ∧ s.entries = w.rxStore.entries ++ m.answers := by
  unfold World.acknowledge
  dsimp only
  rw [hq, hid]
  by_cases h0 : m.qos = 0
  · refine ⟨w.rxStore, ?_, ?_⟩
    · rw [if_pos h0]
      exact (w.setStore_store w.rx.store).symm
    · rw [Message.answers, h0]
      exact (List.append_nil _).symm
  · rw [if_neg h0]
    have hroom := hr h0
    have hanswers : m.answers = [publishAck m.qos m.id] := by
      have hqos := hm.qos
      obtain h1 | h2 : m.qos = 1 ∨ m.qos = 2 := by omega
      · rw [Message.answers, h1]
        rfl
      · rw [Message.answers, h2]
        rfl
    refine ⟨_, rfl, ?_⟩
    rw [Store.append, dif_pos hroom, hanswers]
    rfl

/- The message callback is called, and the strings are given back. -/
theorem rxBufferTakeMessage_hands (ha : env.Accepts taken) (w : World σ) (i : RxInternal) (hw : w.rx.internal = i)
    (hi : i.ignorePublish = false) :
    Wp (rxBufferTakeMessage env) w (fun r v => r = .finished ∧ ∃ b, b = { i.publish with
        qos := i.header.qos, retain := i.header.retain ≠ 0 } ∧
      v = { w.setRx { i with publish := b } with app := v.app, log := v.log } ∧
      v.messages = (i.packetId, b) :: w.messages ∧ env.Handed w.app b v.app) fun _ _ => False := by
  obtain ⟨f, hf, hall⟩ := ha.message
  simp only [rxBufferTakeMessage, rxBufferCallMessage, callbackCalls_requests, wp_bind, wp_modify, wp_get, hf, hw]
  generalize hb : ({ i.publish with qos := i.header.qos, retain := decide (i.header.retain ≠ 0) } : Publish) = b
  obtain ⟨hok, hreq⟩ := hall w.app b
  rw [if_neg (by rw [show (w.setRx { i with publish := b }).rx.internal.ignorePublish = false from hi]; decide)]
  simp only [wp_bind, wp_set]
  change Wp (doRequests (f w.app b).requests) _ _ _
  rw [hreq]
  simp only [doRequests, wp_pure, rxBufferDeallocatePublish, wp_bind, wp_get]
  change Wp (match env.message.onPublishDeallocate with
    | some g => _
    | none => _) _ _ _
  cases hg : env.message.onPublishDeallocate with
  | none =>
    change Wp (if (f w.app b).ok = true then _ else _) _ _ _
    rw [if_pos hok]
    refine ⟨rfl, b, rfl, rfl, rfl, f, hf, ?_⟩
    rw [hg]
    rfl
  | some g =>
    dsimp only
    rw [if_pos (by
      change (!i.ignorePublish) = true
      rw [hi]
      rfl), wp_set]
    change Wp (if (f w.app b).ok = true then _ else _) _ _ _
    rw [if_pos hok]
    refine ⟨rfl, b, rfl, rfl, rfl, f, hf, ?_⟩
    rw [hg]
    rfl

theorem rxBufferRemember_puts (hr : w.Room m) (u : World σ) (hu : u.rx = w.rx)
    (hq : u.rx.internal.header.qos = m.qos) (hid : u.rx.internal.packetId = m.id) :
    Wp (rxBufferRemember) u (fun ok v => ok = true ∧ ∃ ids, v = { u with rx := { u.rx with idSet := ids } } ∧
      ids.items = w.rx.idSet.items ++ if m.qos = 2 then [m.id] else []) fun _ _ => False := by
  have hset : u.rx.idSet = w.rx.idSet := by rw [hu]
  simp only [rxBufferRemember, wp_bind, wp_get, hq, hid]
  refine wp_if (fun h2 => ?_) fun h2 => ?_
  · refine ⟨rfl, u.rx.idSet, rfl, ?_⟩
    rw [hset, if_neg h2, List.append_nil]
  · have h2 : m.qos = 2 := by simpa using h2
    obtain ⟨hroom, hnew⟩ := hr.ids h2
    rw [← hset] at hroom hnew ⊢
    cases hput : u.rx.idSet.put m.id with
    | none =>
      rw [IdSet.put_eq_none] at hput
      rcases hput with hfull | hmem
      · omega
      · exact absurd hmem hnew
    | some s =>
      refine ⟨rfl, s, rfl, ?_⟩
      rw [(IdSet.put_spec _ _ _ hput).2.2.1, if_pos h2]

/-- The application takes the message whose parts were read, and the id of QoS 2 is
remembered. -/
theorem rxBufferFinishPublish_received (ha : env.Accepts taken) (hm : m.Valid) (hh : m.Heads h) (hr : w.Room m) (n : ℕ)
    (hw : w.rx.internal = { m.reading h m.body.length b with remainBufPos := n })
    (hp : m.Parts env taken w.app m.body.length b) :
    Wp (rxBufferFinishPublish env) w (fun r v => r = .finished ∧ MessageTaken env taken m w v ∧
      ∃ b', v.rx.internal = { m.reading h m.body.length b' with remainBufPos := n }) fun _ _ => False := by
  have hbody := Message.body_length_start (m := m)
  have hstart : m.start = 2 + m.topic.length + m.idBytes.length := rfl
  have hpos := hm.topic
  have hidAt := hm.idAt_length
  have hid : w.rx.internal.packetId = m.id := by
    rw [hw]
    exact hidAt
  have hqos : w.rx.internal.header.qos = m.qos := by
    rw [hw]
    exact hh.qos
  obtain ⟨s, hack, hentries⟩ := acknowledge_store hm hr.store hqos hid
  simp only [rxBufferFinishPublish, wp_bind, wp_modify, wp_get, hack]
  generalize hu : w.setStore w.rx.store s = u
  have hurx : u.rx = w.rx := by rw [← hu, World.setStore_rx]
  have hnew : (u.rx.internal.header.qos = 2 && u.rx.idSet.contains u.rx.internal.packetId) = false := by
    rw [hurx, hqos, hid, Bool.and_eq_false_iff]
    by_cases h2 : m.qos = 2
    · right
      by_contra hc
      exact (hr.ids h2).2 ((IdSet.contains_iff ..).mp (by simpa using hc))
    · left
      exact decide_eq_false h2
  rw [if_neg (by rw [hnew]; decide), wp_bind]
  refine (rxBufferRemember_puts hr u hurx (by rw [hurx, hqos]) (by rw [hurx, hid])).mono (fun ok v hv => ?_)
    fun _ _ h => h
  obtain ⟨rfl, ids, rfl, hids⟩ := hv
  rw [if_pos rfl]
  refine (rxBufferTakeMessage_hands ha _ { m.reading h m.body.length b with remainBufPos := n }
    (by rw [← hw, ← hurx]) rfl).mono (fun r x hx => ?_) fun _ _ h => h
  obtain ⟨rfl, b', hb', hx, hmessages, hhanded⟩ := hx
  have happ : u.app = w.app := by rw [← hu, World.setStore_app]
  have hlog : u.messages = w.messages := by
    unfold World.messages
    rw [← hu, World.setStore_log]
  have hreceived : b'.received (taken w.app) m.id = m := by
    have htopic := (hp.topic (by omega)).held (by rw [List.length_take]; omega)
    rw [List.take_of_length_le (by omega)] at htopic
    have hpayload : b.payload.held (taken w.app) = m.payload := by
      by_cases h0 : m.start < m.body.length
      · have hheld := ((hp.payload h0).1).held (by rw [List.length_take]; omega)
        rwa [List.take_of_length_le (by omega)] at hheld
      · rw [hp.none (by omega)]
        exact (List.eq_nil_of_length_eq_zero (by omega)).symm
    have hretain : decide (h.retain ≠ 0) = m.retain := by
      rw [hh.retain]
      cases m.retain <;> rfl
    rw [hb']
    change (⟨h.qos, decide (h.retain ≠ 0), m.id, b.topic.held (taken w.app), b.payload.held (taken w.app)⟩ : Message) = m
    rw [hh.qos, hretain, htopic, hpayload]
  refine ⟨rfl, ⟨⟨w.app, b', ?_, hreceived, ?_⟩, ?_, ?_, s, ?_⟩, b', ?_⟩
  · rw [hmessages]
    change (m.idAt m.body.length, b') :: u.messages = _
    rw [hlog, hidAt]
  · rw [← happ]
    exact hhanded
  · have hstore : x.rxStore = u.store u.rx.store := by
      rw [hx]
      change World.store _ u.rx.store = _
      cases u.rx.store <;> rfl
    rw [hstore, hurx, ← hu, World.store_setStore_self]
    exact hentries
  · rw [hx]
    exact hids
  · rw [hx, ← hu]
    cases w.rx.store <;> rfl
  · rw [hx]
    rfl

theorem Reads.room {w₀ : World σ} (hr : Reads w₀ w) (h : w₀.Room m) : w.Room m := by
  have hsame := hr.same
  have hstore : w.rxStore = w₀.rxStore := by
    rw [hsame]
    unfold World.rxStore World.store
    cases w₀.rx.store <;> rfl
  have hset : w.rx.idSet = w₀.rx.idSet := by
    rw [hsame]
  refine ⟨?_, ?_⟩
  · rw [hstore]
    exact h.store
  · rw [hset]
    exact h.ids

end Finish

/-! ### Turns of the decoder -/

section Turn
variable {m : Message} {w v : World σ} {h : FixedHeader} {n : ℕ} {b : Publish} {bs more : List Byte}

/- What a turn in the body makes of the answer of `rx_buffer_decode_publish`. -/
theorem publishTurn_wp {Q : LightMqtt.Turn → World σ → Prop} {E : Halt → World σ → Prop} (bs : List Byte) (v : World σ) :
    Wp (rxBufferDecodeBodyTurn env rxBufferDecoderPublish bs) v Q E ↔
      Wp (rxBufferDecodePublish env bs) v (fun r u => Wp (if r.1 = .error then pure (.error, r.2) else do
        assert env ((r.1 ≠ .finished && u.rx.internal.remainBufPos + r.2 < u.rx.internal.header.remainingLength) ||
          (r.1 = .finished && u.rx.internal.remainBufPos + r.2 = u.rx.internal.header.remainingLength))
        pure (r.1, r.2)) u (fun r u => Wp (rxBufferDecodedBytes env r.1 r.2) u Q E) E) E := by
  simp only [rxBufferDecodeBodyTurn, wp_bind]
  change Wp (rxBufferDecodeRemainingWithoutId env rxBufferDecoderPublish bs) _ _ _ ↔ _
  simp only [rxBufferDecodeRemainingWithoutId, wp_bind, wp_get]
  exact Iff.rfl

/-- The message ends with `D`, at the last byte of its body; `w` is the state before the packet. -/
structure Message.Ends (env : Env σ) (taken : σ → ℕ → List Byte) (m : Message) (w : World σ) (D : World σ → Prop) : Prop where
  finish : ∀ {u h b n}, Reads w u → m.Heads h → u.rx.internal = { m.reading h m.body.length b with remainBufPos := n } →
    m.Parts env taken u.app m.body.length b →
    Wp (rxBufferFinishPublish env) u (fun r v => r = .finished ∧ D v ∧
      ∃ b', v.rx.internal = { m.reading h m.body.length b' with remainBufPos := n }) fun _ _ => False
  later : ∀ {v u}, D v → Reads v u → u.app = v.app → D u

section Ends
variable {D : World σ → Prop}

/-- `rx_buffer_decode_publish` reads on, or comes to the end of the message. -/
theorem rxBufferDecodePublish_reads (ha : env.Accepts taken) (hm : m.Valid) (he : m.Ends env taken w D) (hh : m.Heads h)
    (hr : Reads w v) (hv : v.rx.internal = m.reading h n b) (hp : m.Parts env taken v.app n b) (hb : bs ≠ [])
    (hs : bs ++ more = m.body.drop n) (hlt : n < m.body.length) :
    Wp (rxBufferDecodePublish env bs) v (fun r u => 0 < r.2 ∧ r.2 ≤ bs.length ∧
      (∃ b, u.rx.internal = { m.reading h (n + r.2) b with remainBufPos := n } ∧
        (r.1 = .continue ∧ n + r.2 < m.body.length ∧ Reads v u ∧ m.Parts env taken u.app (n + r.2) b ∨
          r.1 = .finished ∧ n + r.2 = m.body.length ∧ D u))) fun _ _ => False := by
  have hlen := List.length_pos_iff.mpr hb
  have hcount : bs.length + more.length = m.body.length - n := by
    rw [← List.length_append, hs, List.length_drop]
  simp only [rxBufferDecodePublish, wp_bind]
  refine (wp_assert ..).mpr ?_
  rw [decide_eq_true (show 1 ≤ bs.length from hlen), Bool.or_true, if_pos rfl]
  simp only [wp_get]
  refine (rxBufferDecodePublishPart_reads ha hm hh hv hp hb hs hlt).mono (fun r u hu => ?_) fun _ _ h => h
  obtain ⟨k, b', rfl, hk, hle, hreads, hu, hparts⟩ := hu
  have hpos : v.rx.internal.remainBufPos = n ∧ v.rx.internal.header.remainingLength = m.body.length := by
    rw [hv]
    exact ⟨rfl, hh.length⟩
  simp only [wp_bind, wp_get, hpos.1, hpos.2]
  rw [if_neg (by rw [hu]; exact Bool.false_ne_true)]
  refine wp_if (fun hmore => ?_) fun hend => ?_
  · exact ⟨hk, hle, b', hu, .inl ⟨rfl, by omega, hreads, hparts⟩⟩
  · have hlast : n + k = m.body.length := by omega
    rw [hlast] at hu hparts
    rw [wp_bind]
    refine (he.finish (hr.trans hreads) hh hu hparts).mono (fun r x hx => ?_) fun _ _ h => h
    obtain ⟨rfl, hd, b'', hx⟩ := hx
    exact ⟨hk, hle, b'', by rw [hx, hlast], .inr ⟨rfl, hlast, hd⟩⟩

/- The end of the packet: there is no callback of a request. -/
theorem rxBufferFinishPacket_done (he : m.Ends env taken w D) (v : World σ) (hd : D v) (hv : v.rx.internal.value = {}) :
    Wp (rxBufferFinishPacket env rxBufferDecoderPublish) v (fun ok u => ok = true ∧ D u ∧ u.rx.internal = {})
      fun _ _ => False := by
  simp only [rxBufferFinishPacket, wp_bind, wp_get]
  rw [if_neg (by decide)]
  simp only [wp_bind, wp_modify]
  have hvalue : v.decoded.rx.internal.value = {} := hv
  rw [hv]
  have hcall : Wp (callValue env {}) v.decoded (fun ok u => ok = true ∧ u = v.decoded) fun _ _ => False := by
    rw [callValue, callCallback_requests]
    cases env.fuel <;> exact ⟨rfl, rfl⟩
  refine hcall.mono (fun ok u hu => ?_) fun _ _ h => h
  obtain ⟨rfl, rfl⟩ := hu
  rw [if_pos rfl]
  exact ⟨rfl, he.later hd ⟨rfl, rfl⟩ rfl, rfl⟩

/-- A turn in the body. -/
theorem bodyTurn_reads (ha : env.Accepts taken) (hm : m.Valid) (he : m.Ends env taken w D) (hr : Reads w v) (hh : m.Heads h)
    (hv : v.rx.internal = m.reading h n b) (hp : m.Parts env taken v.app n b) (hn : n < m.body.length) (hb : bs ≠ [])
    (hs : bs ++ more = m.body.drop n) :
    Wp (rxBufferDecodeBodyTurn env rxBufferDecoderPublish bs) v (fun t u => ∃ k, t = .read k ∧ 0 < k ∧ k ≤ bs.length ∧
      ((∃ b, Reads w u ∧ u.rx.internal = m.reading h (n + k) b ∧ m.Parts env taken u.app (n + k) b ∧ n + k < m.body.length) ∨
        n + k = m.body.length ∧ D u ∧ u.rx.internal = {})) fun _ _ => False := by
  rw [publishTurn_wp]
  refine (rxBufferDecodePublish_reads ha hm he hh hr hv hp hb hs hn).mono (fun r u hu => ?_) fun _ _ h => h
  obtain ⟨hk, hle, b', hu, hres⟩ := hu
  have hpos : u.rx.internal.remainBufPos = n ∧ u.rx.internal.header.remainingLength = m.body.length := by
    rw [hu]
    exact ⟨rfl, hh.length⟩
  have hadvance : (u.advance r.2).rx.internal = m.reading h (n + r.2) b' := by
    unfold World.advance
    rw [hpos.1, hu]
    rfl
  have hfinished : rxBufferIsPacketFinished (u.advance r.2).rx.internal = decide (m.body.length ≤ n + r.2) := by
    rw [hadvance]
    unfold rxBufferIsPacketFinished
    change (true && decide (h.remainingLength ≤ n + r.2)) = _
    rw [hh.length, Bool.true_and]
  have hend : ∀ Q, Wp (rxBufferEndTurn env r.2) (u.advance r.2) Q (fun _ _ => False) ↔
      Wp (if m.body.length ≤ n + r.2 then do
          if ← rxBufferFinishPacket env rxBufferDecoderPublish then pure (.read r.2) else pure (.failed r.2)
        else pure (.read r.2)) (u.advance r.2) Q fun _ _ => False := by
    intro Q
    simp only [rxBufferEndTurn, wp_bind, wp_get]
    rw [hfinished, hadvance]
    simp only [Message.reading, decide_eq_true_eq]
  rcases hres with ⟨hres, hlt, hreads, hparts⟩ | ⟨hres, hlast, hd⟩
  · rw [if_neg (by rw [hres]; decide), wp_bind, wp_assert, hpos.1, hpos.2, hres, decide_eq_true hlt]
    rw [if_pos (by simp), wp_pure]
    simp only [rxBufferDecodedBytes, wp_bind, wp_modify]
    rw [hend, if_neg (by omega)]
    exact ⟨r.2, rfl, hk, hle, .inl ⟨b', (hr.trans hreads).trans (.setRx u _), hadvance, hparts, hlt⟩⟩
  · rw [if_neg (by rw [hres]; decide), wp_bind, wp_assert, hpos.1, hpos.2, hres, decide_eq_true hlast]
    rw [if_pos (by simp), wp_pure]
    simp only [rxBufferDecodedBytes, wp_bind, wp_modify]
    rw [hend, if_pos (by omega), wp_bind]
    refine (rxBufferFinishPacket_done he (u.advance r.2) (he.later hd (.setRx u _) rfl) (by rw [hadvance]; rfl)).mono
      (fun ok x hx => ?_) fun _ _ h => h
    obtain ⟨rfl, hx, hfresh⟩ := hx
    rw [if_pos rfl]
    exact ⟨r.2, rfl, hk, hle, .inr ⟨hlast, hx, hfresh⟩⟩

end Ends

/-- What the decoder waits for in the middle of a packet; `w` is the state before the
packet. -/
inductive Awaits (env : Env σ) (taken : σ → ℕ → List Byte) (m : Message) (w : World σ) : List Byte → World σ → Prop
  | first (v : World σ) (hr : Reads w v) (hv : v.rx.internal = {}) : Awaits env taken m w m.bytes v
  | length (v : World σ) (h : FixedHeader) (k len fuel : ℕ) (hr : Reads w v) (hv : v.rx.internal = { header := h })
    (hh : m.Heads { h with remainingLength := m.body.length }) (herror : h.error = none) (hread : h.bytesRead ≠ 0)
    (hmul : h.remainLenMultiplier = 128^k) (hmore : h.remainLenFinished = false)
    (hacc : h.remainLenAccumulator + len * 128^k = m.body.length) (hlen : len < 128^(4 - k)) (hpos : 0 < k → 0 < len)
    (hk : k ≤ 3) (hf : 4 - k ≤ fuel) : Awaits env taken m w (remainingLengthDigits fuel len ++ m.body) v
  | body (v : World σ) (h : FixedHeader) (n : ℕ) (b : Publish) (hr : Reads w v) (hh : m.Heads h)
    (hv : v.rx.internal = m.reading h n b) (hp : m.Parts env taken v.app n b) (hn : n < m.body.length) :
    Awaits env taken m w (m.body.drop n) v
  | done (v : World σ) (hr : MessageTaken env taken m w v) (hv : v.rx.internal = {}) : Awaits env taken m w [] v

/- What the decoder does after the message was handed over. -/
theorem MessageTaken.trans {u : World σ} (h : MessageTaken env taken m w v) (hr : Reads v u) (happ : u.app = v.app) :
    MessageTaken env taken m w u := by
  have hsame := hr.same
  obtain ⟨s, hv⟩ := h.same
  refine ⟨?_, ?_, ?_, s, ?_⟩
  · rw [hr.messages, happ]
    exact h.message
  · rw [← h.store, hsame]
    change (World.store _ v.rx.store).entries = (v.store v.rx.store).entries
    cases v.rx.store <;> rfl
  · rw [← h.ids, hsame]
  · rw [hsame, hv]

/-- Where there is room for its answer, a message that is read is handed over. -/
theorem Message.Valid.ends (hm : m.Valid) (ha : env.Accepts taken) (hroom : w.Room m) :
    m.Ends env taken w (MessageTaken env taken m w) := by
  refine ⟨fun {u h b n} hr hh hu hp => ?_, fun hv hr happ => hv.trans hr happ⟩
  refine (rxBufferFinishPublish_received ha hm hh (hr.room hroom) n hu hp).mono (fun r v hv => ?_) fun _ _ h => h
  obtain ⟨rfl, hv, hinternal⟩ := hv
  exact ⟨rfl, hr.received hv, hinternal⟩

/-- A turn in the body. -/
theorem bodyTurn_awaits (ha : env.Accepts taken) (hm : m.Valid) (hroom : w.Room m) (hr : Reads w v) (hh : m.Heads h)
    (hv : v.rx.internal = m.reading h n b) (hp : m.Parts env taken v.app n b) (hn : n < m.body.length) (hb : bs ≠ [])
    (hs : bs ++ more = m.body.drop n) :
    Wp (rxBufferDecodeBodyTurn env rxBufferDecoderPublish bs) v (fun t u => ∃ k, t = .read k ∧ 0 < k ∧ k ≤ bs.length ∧
      Awaits env taken m w (m.body.drop (n + k)) u) fun _ _ => False := by
  refine (bodyTurn_reads ha hm (hm.ends ha hroom) hr hh hv hp hn hb hs).mono (fun t u hu => ?_) fun _ _ h => h
  obtain ⟨k, rfl, hk, hle, hu⟩ := hu
  refine ⟨k, rfl, hk, hle, ?_⟩
  rcases hu with ⟨b', hreads, hu, hparts, hlt⟩ | ⟨hlast, hu, hfresh⟩
  · exact .body u h (n + k) b' hreads hh hu hparts hlt
  · rw [hlast, List.drop_length]
    exact .done u hu hfresh

/-! ### The fixed header -/

theorem publish_firstByte (hm : m.Valid) : ∃ h, fixedHeaderDecode {} m.firstByte = (h, .continue, none) ∧
    h.type = typePublish ∧ h.qos = m.qos ∧ (h.retain = if m.retain then 1 else 0) ∧ h.error = none ∧ h.bytesRead = 1 ∧
      h.remainLenMultiplier = 1 ∧ h.remainLenAccumulator = 0 ∧ h.remainLenFinished = false := by
  have hqos := hm.qos
  unfold Message.firstByte
  cases m.retain with
  | false =>
    obtain h | h | h : m.qos = 0 ∨ m.qos = 1 ∨ m.qos = 2 := by omega
    all_goals
      rw [h]
      exact ⟨_, rfl, rfl, rfl, rfl, rfl, rfl, rfl, rfl, rfl⟩
  | true =>
    obtain h | h | h : m.qos = 0 ∨ m.qos = 1 ∨ m.qos = 2 := by omega
    all_goals
      rw [h]
      exact ⟨_, rfl, rfl, rfl, rfl, rfl, rfl, rfl, rfl, rfl⟩

/- The bits of a digit. -/
theorem digit_low (x : ℕ) : x &&& 127 = x % 128 := Nat.and_two_pow_sub_one_eq_mod x 7

theorem digit_high (x : ℕ) (h : x < 256) : x &&& 128 ≠ 0 ↔ 128 ≤ x := by
  have hall : ∀ i : Fin 256, i.val &&& 128 ≠ 0 ↔ 128 ≤ i.val := by decide +kernel
  exact hall ⟨x, h⟩

theorem digit_toNat (x : ℕ) (h : x < 256) : (UInt8.ofNat x).toNat = x := by
  rw [UInt8.toNat_ofNat']
  omega

/- A digit of the remaining length that others follow. -/
theorem fixedHeaderDecode_digit (h : FixedHeader) (k len : ℕ) (herror : h.error = none) (hread : h.bytesRead ≠ 0)
    (hmul : h.remainLenMultiplier = 128^k) (hmore : h.remainLenFinished = false) (hlen : len < 128^(4 - k))
    (hk : k ≤ 3) (hnext : 0 < len / 128) : k < 3 ∧
      fixedHeaderDecode h (UInt8.ofNat (len % 128 + 128)) = ({ h with
        remainLenAccumulator := h.remainLenAccumulator + len % 128 * 128^k
        remainLenMultiplier := 128^(k + 1)
        bytesRead := h.bytesRead + 1 }, .continue, none) := by
  have hk3 : k < 3 := by
    by_contra hge
    rw [show k = 3 by omega] at hlen
    omega
  have hbyte := digit_toNat (len % 128 + 128) (by omega)
  have hhigh : (UInt8.ofNat (len % 128 + 128)).toNat &&& 128 ≠ 0 := by
    rw [hbyte, digit_high _ (by omega)]
    omega
  have hzero : UInt8.ofNat (len % 128 + 128) ≠ 0 := by
    intro h0
    rw [h0] at hbyte
    change 0 = _ at hbyte
    omega
  have hsmall : ¬ 128 * 128 < 128^k := by
    have hpow : 128^k ≤ 128^2 := Nat.pow_le_pow_right (by decide) (by omega)
    omega
  refine ⟨hk3, ?_⟩
  unfold fixedHeaderDecode
  rw [herror]
  dsimp only
  rw [if_neg hread, hmul, if_neg (by
    rintro (⟨hbig, -⟩ | ⟨-, h0⟩ | hfin)
    · exact hsmall hbig
    · exact hzero h0
    · rw [hmore] at hfin
      contradiction), if_pos hhigh, hbyte, digit_low, show (len % 128 + 128) % 128 = len % 128 by omega, Nat.pow_succ]

/- The last digit. -/
theorem fixedHeaderDecode_last (h : FixedHeader) (k len : ℕ) (herror : h.error = none) (hread : h.bytesRead ≠ 0)
    (hmul : h.remainLenMultiplier = 128^k) (hmore : h.remainLenFinished = false) (hpos : 0 < k → 0 < len)
    (hlast : ¬ 0 < len / 128) :
    fixedHeaderDecode h (UInt8.ofNat (len % 128)) = ({ h with
      remainLenAccumulator := h.remainLenAccumulator + len * 128^k
      remainLenMultiplier := 128^k * 128
      bytesRead := h.bytesRead + 1
      remainingLength := h.remainLenAccumulator + len * 128^k
      remainLenFinished := true }, .finished, none) := by
  have hbyte := digit_toNat (len % 128) (by omega)
  have hlow : ¬ (UInt8.ofNat (len % 128)).toNat &&& 128 ≠ 0 := by
    rw [hbyte, digit_high _ (by omega)]
    omega
  have hmod : len % 128 = len := by omega
  unfold fixedHeaderDecode
  rw [herror]
  dsimp only
  rw [if_neg hread, hmul, if_neg (by
    rintro (⟨-, hbig⟩ | ⟨hone, h0⟩ | hfin)
    · exact hlow hbig
    · have hk : 0 < k := by
        by_contra h0
        rw [show k = 0 by omega] at hone
        exact absurd hone (by decide)
      have hlen := hpos hk
      rw [h0] at hbyte
      change 0 = _ at hbyte
      omega
    · rw [hmore] at hfin
      contradiction), if_neg hlow, hbyte, digit_low, hmod, Nat.mod_eq_of_lt (by omega)]

/- A turn that reads a byte of the fixed header, but not the last. -/
theorem headerTurn_continues (v : World σ) (c : Byte) (i : RxInternal) (h' : FixedHeader) (hi : v.rx.internal = i)
    (hd : fixedHeaderDecode i.header c = (h', .continue, none)) :
    Wp (rxBufferDecodeHeaderTurn env c) v (fun t u => t = .read 1 ∧ u = v.setRx { i with header := h' })
      fun _ _ => False := by
  simp only [rxBufferDecodeHeaderTurn, wp_bind, wp_get, hi, hd]
  exact ⟨rfl, rfl⟩

/- The turn that reads the last byte of the fixed header of a PUBLISH. -/
theorem headerTurn_finishes (hm : m.Valid) (v : World σ) (c : Byte) (i : RxInternal) (h' : FixedHeader)
    (hi : v.rx.internal = i) (hd : fixedHeaderDecode i.header c = (h', .finished, none)) (hh : m.Heads h')
    (hpos : i.remainBufPos = 0) :
    Wp (rxBufferDecodeHeaderTurn env c) v (fun t u => t = .read 1 ∧
      u = v.setRx { i with header := h', headerFinished := true, decoder := some rxBufferDecoderPublish })
      fun _ _ => False := by
  have hdecoder : rxBufferDecoders h'.type = some rxBufferDecoderPublish := by
    rw [hh.type]
    rfl
  have hbody := Message.body_length_start (m := m)
  have hstart : m.start = 2 + m.topic.length + m.idBytes.length := rfl
  have htopic := hm.topic
  simp only [rxBufferDecodeHeaderTurn, wp_bind, wp_get, hi, hd, wp_set, wp_modify, hdecoder]
  rw [if_neg (by
    rw [hh.length]
    change ¬ m.body.length < 3
    omega)]
  simp only [wp_bind, rxBufferEndTurn]
  change Wp (if rxBufferIsPacketFinished { i with
      header := h', headerFinished := true, decoder := some rxBufferDecoderPublish } = true then _ else _) _ _ _
  rw [if_neg]
  · exact ⟨rfl, rfl⟩
  · unfold rxBufferIsPacketFinished
    rw [hh.length, hpos]
    simp only [Bool.true_and, decide_eq_true_eq]
    omega

/-- A turn of the decoder takes some of the bytes it waits for. -/
theorem rxBufferDecodeTurn_awaits (ha : env.Accepts taken) (hm : m.Valid) (hroom : w.Room m) (hb : bs ≠ [])
    (hv : Awaits env taken m w (bs ++ more) v) :
    Wp (rxBufferDecodeTurn env bs) v (fun t u => ∃ k, t = .read k ∧ 0 < k ∧ k ≤ bs.length ∧
      Awaits env taken m w ((bs ++ more).drop k) u) fun _ _ => False := by
  have hlen := List.length_pos_iff.mpr hb
  simp only [rxBufferDecodeTurn, wp_bind, wp_get]
  generalize hrest : bs ++ more = rest at hv
  cases hv with
  | first v hr hv =>
    obtain ⟨h, hdec, htype, hqos, hretain, herror, hread, hmul, hacc, hmore⟩ := publish_firstByte hm
    have hbyte : bs.headD 0 = m.firstByte := by
      rw [headD_append hb more, hrest]
      rfl
    rw [hv, hbyte]
    refine (headerTurn_continues v m.firstByte {} h hv hdec).mono (fun t u hu => ?_) fun _ _ h => h
    obtain ⟨rfl, rfl⟩ := hu
    refine ⟨1, rfl, Nat.one_pos, hlen, ?_⟩
    have hbody := hm.bodyFits
    refine .length _ h 0 m.body.length 10 (hr.trans (.setRx v _)) rfl ⟨htype, hqos, hretain, rfl⟩ herror (by omega) hmul hmore
      (by omega) (by omega) (by omega) (by omega) (by omega)
  | length v h k len fuel hr hv hh herror hread hmul hmore hacc hsmall hpos hk hf =>
    obtain ⟨fuel, rfl⟩ : ∃ f, fuel = f + 1 := ⟨fuel - 1, by omega⟩
    rw [hv]
    unfold remainingLengthDigits at hrest ⊢
    by_cases hnext : 0 < len / 128
    · rw [if_pos hnext] at hrest ⊢
      have hbyte : bs.headD 0 = UInt8.ofNat (len % 128 + 128) := by
        rw [headD_append hb more, hrest]
        rfl
      obtain ⟨hk3, hdec⟩ := fixedHeaderDecode_digit h k len herror hread hmul hmore hsmall hk hnext
      rw [hbyte]
      refine (headerTurn_continues v _ { header := h } _ hv hdec).mono (fun t u hu => ?_) fun _ _ h => h
      obtain ⟨rfl, rfl⟩ := hu
      refine ⟨1, rfl, Nat.one_pos, hlen, ?_⟩
      have hsplit : len % 128 * 128^k + len / 128 * 128^(k + 1) = len * 128^k := by
        rw [Nat.pow_succ, Nat.mul_comm (128^k) 128, ← Nat.mul_assoc, ← Nat.add_mul, Nat.mul_comm (len / 128) 128,
          Nat.mod_add_div]
      have hdiv : len / 128 < 128^(4 - (k + 1)) := by
        rw [Nat.div_lt_iff_lt_mul (by decide), ← Nat.pow_succ, show (4 - (k + 1)).succ = 4 - k by omega]
        exact hsmall
      have hsum : h.remainLenAccumulator + len % 128 * 128^k + len / 128 * 128^(k + 1) = m.body.length := by
        rw [Nat.add_assoc, hsplit, hacc]
      exact .length _ _ (k + 1) (len / 128) fuel (hr.trans (.setRx v _)) rfl ⟨hh.type, hh.qos, hh.retain, rfl⟩ herror
        (Nat.succ_ne_zero _) rfl hmore hsum hdiv (fun _ => hnext) (by omega) (by omega)
    · rw [if_neg hnext] at hrest ⊢
      have hbyte : bs.headD 0 = UInt8.ofNat (len % 128) := by
        rw [headD_append hb more, hrest]
        rfl
      have hdec := fixedHeaderDecode_last h k len herror hread hmul hmore hpos hnext
      rw [hbyte]
      generalize hlast : ({ h with
        remainLenAccumulator := h.remainLenAccumulator + len * 128^k
        remainLenMultiplier := 128^k * 128
        bytesRead := h.bytesRead + 1
        remainingLength := h.remainLenAccumulator + len * 128^k
        remainLenFinished := true } : FixedHeader) = h' at hdec
      have hheads : m.Heads h' := by
        rw [← hlast]
        exact ⟨hh.type, hh.qos, hh.retain, hacc⟩
      refine (headerTurn_finishes hm v _ { header := h } h' hv hdec hheads rfl).mono
        (fun t u hu => ?_) fun _ _ h => h
      obtain ⟨rfl, rfl⟩ := hu
      refine ⟨1, rfl, Nat.one_pos, hlen, ?_⟩
      have hbody := Message.body_length_start (m := m)
      have hstart : m.start = 2 + m.topic.length + m.idBytes.length := rfl
      refine .body _ h' 0 {} (hr.trans (.setRx v _)) hheads ?_
        ⟨fun h => by omega, fun h => by omega, fun _ => rfl⟩ (by omega)
      unfold Message.reading Message.topicLenAt Message.idAt
      rw [if_pos rfl, if_pos (Nat.zero_le _)]
      rfl
  | body v h n b hr hh hv hp hn =>
    rw [hv]
    refine (bodyTurn_awaits ha hm hroom hr hh hv hp hn hb hrest).mono (fun t u hu => ?_) fun _ _ h => h
    obtain ⟨k, ht, hk, hle, hu⟩ := hu
    refine ⟨k, ht, hk, hle, ?_⟩
    rwa [List.drop_drop]
  | done v hr hv =>
    rw [List.append_eq_nil_iff] at hrest
    exact absurd hrest.1 hb

/-! ### Calls of the decoder -/

theorem Awaits.idle {rest : List Byte} (h : Awaits env taken m w rest v) :
    v.rx.internal.error = none ∧ v.setRx { v.rx.internal with blockingStr := none } = v := by
  have hall : v.rx.internal.error = none ∧ v.rx.internal.blockingStr = none := by
    cases h with
    | first v hr hv | length v h k len fuel hr hv | body v h n b hr hh hv | done v hr hv =>
      rw [hv]
      exact ⟨rfl, rfl⟩
  refine ⟨hall.1, ?_⟩
  rw [← hall.2]
  rfl

/- Where nothing is left of the packet, it was received. -/
theorem Awaits.received (h : Awaits env taken m w [] v) : MessageTaken env taken m w v ∧ v.rx.internal = {} := by
  generalize hrest : ([] : List Byte) = rest at h
  have hbody := Message.body_length_start (m := m)
  have hstart : m.start = 2 + m.topic.length + m.idBytes.length := rfl
  have hlen := congrArg List.length hrest
  cases h with
  | first v hr hv => contradiction
  | length v h k len fuel hr hv =>
    rw [List.length_append, List.length_nil] at hlen
    omega
  | body v h n b hr hh hv hp hn =>
    rw [List.length_drop, List.length_nil] at hlen
    omega
  | done v hr hv => exact ⟨hr, hv⟩

/- Behind the last byte that is offered. -/
theorem rxBufferDecodeLoop_exit (fuel count : ℕ) (hv : Awaits env taken m w more v) :
    Wp (rxBufferDecodeLoop env count fuel [] count) v
      (fun r u => r = (.success, count) ∧ Awaits env taken m w more u) fun _ _ => False := by
  unfold rxBufferDecodeLoop rxBufferExit
  refine wp_if (fun _ => ?_) fun h0 => ?_
  · simp only [wp_bind, wp_modify, hv.idle.2]
    exact ⟨rfl, hv⟩
  · rw [if_pos (show count = 0 by omega)]
    exact ⟨rfl, hv⟩

/-- The loop takes all bytes it is offered. -/
theorem rxBufferDecodeLoop_awaits (ha : env.Accepts taken) (hm : m.Valid) (hroom : w.Room m) (fuel count : ℕ)
    (bs : List Byte) (v : World σ) (hv : Awaits env taken m w (bs ++ more) v) (hf : bs.length ≤ fuel) :
    Wp (rxBufferDecodeLoop env (count + bs.length) fuel bs count) v
      (fun r u => r = (.success, count + bs.length) ∧ Awaits env taken m w more u) fun _ _ => False := by
  induction fuel generalizing bs count v with
  | zero =>
    have hnil : bs = [] := List.eq_nil_of_length_eq_zero (by omega)
    subst hnil
    exact rxBufferDecodeLoop_exit 0 count hv
  | succ fuel ih =>
    cases bs with
    | nil => exact rxBufferDecodeLoop_exit (fuel + 1) count hv
    | cons c bs =>
      simp only [rxBufferDecodeLoop, wp_bind]
      refine (rxBufferDecodeTurn_awaits ha hm hroom (List.cons_ne_nil c bs) hv).mono (fun t u hu => ?_) fun _ _ h => h
      obtain ⟨k, rfl, hk, hle, hu⟩ := hu
      rw [List.drop_append_of_le_length hle] at hu
      have hdrop : ((c :: bs).drop k).length = (c :: bs).length - k := List.length_drop
      have hcount : count + (c :: bs).length = count + k + ((c :: bs).drop k).length := by omega
      rw [hcount]
      exact ih (count + k) ((c :: bs).drop k) u hu (by omega)

/-- The decoder takes the bytes of a message in whatever pieces they arrive. -/
theorem decode_calls (ha : env.Accepts taken) (hm : m.Valid) (hroom : w.Room m) (pieces : List (List Byte)) (v : World σ)
    (hv : Awaits env taken m w (pieces.flatten ++ more) v) (hf : pieces.flatten.length ≤ env.fuel) :
    Wp (pieces.mapM (lmqttRxBufferDecode env)) v
      (fun rs u => rs = pieces.map (fun p => (.success, p.length)) ∧ Awaits env taken m w more u) fun _ _ => False := by
  induction pieces generalizing v with
  | nil => exact ⟨rfl, hv⟩
  | cons p pieces ih =>
    rw [List.mapM_cons]
    rw [List.flatten_cons, List.append_assoc] at hv
    rw [List.flatten_cons, List.length_append] at hf
    simp only [wp_bind]
    have hcall : Wp (lmqttRxBufferDecode env p) v (fun r u => r = (.success, p.length) ∧
        Awaits env taken m w (pieces.flatten ++ more) u) fun _ _ => False := by
      simp only [lmqttRxBufferDecode, wp_bind, wp_get]
      rw [if_neg (by rw [hv.idle.1]; exact Bool.false_ne_true)]
      have hloop := rxBufferDecodeLoop_awaits ha hm hroom env.fuel 0 p v hv (by omega)
      rwa [Nat.zero_add] at hloop
    refine hcall.mono (fun r u hu => ?_) fun _ _ h => h
    obtain ⟨rfl, hu⟩ := hu
    refine (ih u hu (by omega)).mono (fun rs x hx => ?_) fun _ _ h => h
    obtain ⟨rfl, hx⟩ := hx
    exact ⟨rfl, hx⟩

end Turn

end LightMqtt
