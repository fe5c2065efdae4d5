import LightMqtt.PacketOrder
import LightMqtt.Walking
import LightMqtt.Untold

/-!
# Where the encoder stands

Between two turns the encoder stands at a field of the first pending entry, and
can go on there. What happens to the client in between leaves that entry, its place
and its strings alone.
-/

namespace LightMqtt

open Exec

variable {σ : Type} {env : Env σ}

/-! ### Packets -/

/-- The object of an entry passes the validation of its request. -/
def Entry.Validated (h : Heap) (e : Entry) : Prop :=
  match e.kind with
  | .connect => connectValidate (h.connects e.value.value) = true
  | .subscribe | .unsubscribe => subscribeValidate (h.subscribes e.value.value) = true
  | .publish0 | .publish1 | .publish2 => publishValidate (h.publishes e.value.value) = true
  | _ => True

/-- What passes its validation makes a packet of a length that can be encoded. -/
def Heap.Fits (h : Heap) : Prop := ∀ e : Entry, e.Validated h → e.Valid h

/-- A field of a packet that is no CONNECT. -/
def World.Plain (w : World σ) : Field → Prop
  | .header bytes => bytes ≠ []
  | .str r el ie => r.isStored = true ∧ (el = true ∧ ie = true ∧ (w.str r).len ≠ 0 ∨ el = false ∧ ie = false)

section Plain
variable {w : World σ} {e : Entry} {f : Field}

theorem World.Plain.opens (h : w.Plain f) (hw : w.Readable) : w.Open 0 f := by
  cases f with
  | header bytes => exact ⟨List.length_pos_iff.mpr h, id⟩
  | str r el ie =>
    obtain ⟨hr, hform⟩ := h
    have hready : w.Ready 0 (.str r el ie) := by
      refine ⟨hr, ?_, ?_⟩
      · rcases hform with ⟨he, -⟩ | ⟨-, he⟩
        · exact .inl he
        · exact .inr he
      · rw [show stringOffset el 0 = 0 by cases el <;> rfl]
        exact hw r hr
    exact ⟨hready, not_stuck_zero hready⟩

theorem World.Plain.not_cut (h : w.Plain f) (off bufLen : ℕ) : ¬ w.Cut off bufLen f := by
  rintro ⟨r, rfl, hz, -⟩
  rcases h.2 with ⟨-, -, hn⟩ | ⟨hf, -⟩
  · exact hn hz
  · contradiction

/- Only a payload may be empty. -/
theorem World.Plain.width_pos (h : w.Plain f) : 0 < w.width f ∨ ∃ r, f = .str r false false := by
  cases f with
  | header bytes => exact .inl (List.length_pos_iff.mpr h)
  | str r el ie =>
    rcases h.2 with ⟨rfl, rfl, -⟩ | ⟨rfl, rfl⟩
    · left
      rw [width_str, if_neg (by simp)]
      simp only [if_true]
      omega
    · exact .inr ⟨r, rfl⟩

theorem subscribeValidate_topic {s : Subscribe} (h : subscribeValidate s = true) {i : ℕ} (hi : i < s.count.toNat) :
    (s.subscriptions.getD i {}).topic.len ≠ 0 := by
  unfold subscribeValidate at h
  split at h
  · contradiction
  · have hall := List.all_eq_true.mp h i (List.mem_range.mpr hi)
    simp only [Bool.and_eq_true, decide_eq_true_eq] at hall
    exact hall.1.2

theorem entryFields_plain (hk : e.kind ≠ .connect) (hv : e.Validated w.heap) : ∀ f ∈ entryFields w.heap e, w.Plain f := by
  intro f hf
  obtain ⟨⟨x, i⟩, hx, rfl⟩ := List.mem_map.mp hf
  have hid : ∀ first len id, w.Plain (.header (idPacket first len id)) := fun _ _ _ => List.cons_ne_nil _ _
  have htopic : subscribeValidate (w.heap.subscribes e.value.value) = true → ∀ j,
      j < (w.heap.subscribes e.value.value).count.toNat →
      w.Plain (Encoder.subscribeTopic.field w.heap e.value (some j)) := fun hs j hj =>
    ⟨rfl, .inl ⟨rfl, rfl, subscribeValidate_topic hs hj⟩⟩
  have hpublish : publishValidate (w.heap.publishes e.value.value) = true → ∀ y ∈ publishEncoders
      (w.heap.publishes e.value.value).qos, w.Plain (y.field w.heap e.value none) := by
    intro hp y hy
    have hlen : (w.heap.publishes e.value.value).topic.len ≠ 0 := by
      unfold publishValidate at hp
      simp only [Bool.and_eq_true, decide_eq_true_eq] at hp
      omega
    have hcases : y = .publishFixedHeader ∨ y = .publishTopic ∨ y = .publishPacketId ∨ y = .publishPayload := by
      unfold publishEncoders at hy
      split at hy <;> simp only [List.mem_cons, List.not_mem_nil, or_false] at hy <;> tauto
    rcases hcases with rfl | rfl | rfl | rfl
    · exact List.cons_ne_nil _ _
    · exact ⟨rfl, .inl ⟨rfl, rfl, hlen⟩⟩
    · exact List.cons_ne_nil _ _
    · exact ⟨rfl, .inr ⟨rfl, rfl⟩⟩
  unfold entryEncoders at hx
  unfold Entry.Validated at hv
  cases hkind : e.kind with
  | connect => exact absurd hkind hk
  | subscribe =>
    simp only [hkind] at hx hv
    rcases List.mem_cons.mp hx with heq | hx
    · cases heq
      exact hid _ _ _
    · obtain ⟨j, hj, hx⟩ := List.mem_flatMap.mp hx
      simp only [List.mem_cons, List.not_mem_nil, or_false] at hx
      rcases hx with heq | heq <;> cases heq
      · exact htopic hv j (List.mem_range.mp hj)
      · exact List.cons_ne_nil _ _
  | unsubscribe =>
    simp only [hkind] at hx hv
    rcases List.mem_cons.mp hx with heq | hx
    · cases heq
      exact hid _ _ _
    · obtain ⟨j, hj, heq⟩ := List.mem_map.mp hx
      cases heq
      exact htopic hv j (List.mem_range.mp hj)
  | publish0 | publish1 | publish2 =>
    simp only [hkind] at hx hv
    obtain ⟨y, hy, heq⟩ := List.mem_map.mp hx
    cases heq
    exact hpublish hv _ hy
  | puback | pubrec | pubrel | pubcomp | pingreq | disconnect =>
    simp only [hkind, List.mem_singleton] at hx
    cases hx
    exact List.cons_ne_nil _ _

/- A payload is the last field. -/
theorem payload_last {i : ℕ} {r : StrRef} (hk : e.kind ≠ .connect)
    (h : (entryFields w.heap e)[i]? = some (.str r false false)) : i + 1 = (entryFields w.heap e).length := by
  rw [entryFields, List.getElem?_map, Option.map_eq_some_iff] at h
  obtain ⟨⟨x, o⟩, hx, hf⟩ := h
  have hpay : x = .publishPayload := by
    cases x <;> first | rfl | simp [Encoder.field] at hf
  subst hpay
  rw [entryFields, List.length_map]
  unfold entryEncoders at hx ⊢
  cases hkind : e.kind with
  | connect => exact absurd hkind hk
  | publish0 | publish1 | publish2 =>
    simp only [hkind] at hx ⊢
    split at hx
    · rename_i hq
      rw [if_pos hq]
      rcases i with _ | _ | _ | i
      · simp at hx
      · simp at hx
      · rfl
      · simp at hx
    · rename_i hq
      rw [if_neg hq]
      rcases i with _ | _ | _ | _ | i
      · simp at hx
      · simp at hx
      · simp at hx
      · rfl
      · simp at hx
  | subscribe | unsubscribe | puback | pubrec | pubrel | pubcomp | pingreq | disconnect =>
    simp only [hkind] at hx
    have hmem := List.mem_of_getElem? hx
    simp at hmem

/- Every packet starts with a header of at least two bytes. -/
theorem entryFields_head (h : Heap) (e : Entry) : ∃ bytes fs, entryFields h e = .header bytes :: fs ∧ 2 ≤ bytes.length := by
  have hdigits : ∀ n, 0 < (lengthBytes n).length := by
    intro n
    unfold lengthBytes remainingLengthDigits
    split <;> simp
  have hid : ∀ first len id, 2 ≤ (idPacket first len id).length := by
    intro first len id
    simp only [idPacket, List.cons_append, List.length_cons, List.length_append]
    have := hdigits len
    omega
  have hfirst : ∀ (b : Byte) n, 2 ≤ (b :: lengthBytes n).length := fun b n => Nat.succ_le_succ (hdigits n)
  unfold entryFields entryEncoders
  cases e.kind with
  | connect => exact ⟨_, _, rfl, hfirst _ _⟩
  | subscribe | unsubscribe => exact ⟨_, _, rfl, hid _ _ _⟩
  | publish0 | publish1 | publish2 =>
    dsimp only
    split <;> exact ⟨_, _, rfl, hfirst _ _⟩
  | pingreq | disconnect => exact ⟨_, _, rfl, le_rfl⟩
  | puback | pubrec | pubrel | pubcomp => exact ⟨_, _, rfl, hid _ _ _⟩

end Plain

/-! ### Standing at an entry -/

/-- The encoder can go on with the packet of `e`. -/
structure World.At (w : World σ) (e : Entry) : Prop where
  pos : w.tx.internal.pos ≤ (entryFields w.heap e).length
  between : w.tx.internal.pos = (entryFields w.heap e).length →
    w.tx.internal.offset = 0 ∧ w.tx.internal.buffer.encoded = false
  field : ∀ f, (entryFields w.heap e)[w.tx.internal.pos]? = some f →
    w.Open w.tx.internal.offset f ∧ w.tx.internal.buffer.Caches f

/-- Nothing of a packet was sent. -/
def TxInternal.Fresh (i : TxInternal) : Prop := i.pos = 0 ∧ i.offset = 0 ∧ i.buffer.encoded = false

/-- The encoder stands at the first pending entry, or before the start of a packet. -/
structure World.Standing (w : World σ) : Prop where
  idle : w.txStore.pending = [] → w.tx.internal.Fresh
  place : ∀ e es, w.txStore.pending = e :: es → e.kind ≠ .connect → e.Validated w.heap → w.At e

section At
variable {w v : World σ} {e : Entry} {f : Field}

theorem TxInternal.Fresh.place (h : w.tx.internal.Fresh) (hw : w.Readable) (hk : e.kind ≠ .connect)
    (hv : e.Validated w.heap) : w.At e := by
  obtain ⟨hp, ho, hc⟩ := h
  refine ⟨by rw [hp]; exact Nat.zero_le _, fun _ => ⟨ho, hc⟩, fun f hf => ?_⟩
  rw [ho]
  exact ⟨(entryFields_plain hk hv f (List.mem_of_getElem? hf)).opens hw, caches_of_fresh hc f⟩

theorem TxInternal.Fresh.standing (h : w.tx.internal.Fresh) (hw : w.Readable) : w.Standing :=
  ⟨fun _ => h, fun _ _ _ hk hv => h.place hw hk hv⟩

theorem readable_congr (hs : v.heap.still = w.heap.still) (hw : w.Readable) : v.Readable := by
  intro r hr
  obtain ⟨hl, hread, hb, -⟩ := string_still hr hs
  have h := hw r hr
  refine ⟨by rw [hl]; exact h.len, Nat.zero_le _, ?_⟩
  rw [hl, hread, hb]
  rcases h.source with h | h | ⟨hf, -, hm⟩
  · exact .inl h
  · exact .inr (.inl h)
  · exact .inr (.inr ⟨hf, .inl rfl, hm⟩)

theorem validated_still (h : Heap) (e : Entry) : e.Validated h.still ↔ e.Validated h := by
  have hs : subscribeValidate (h.subscribes e.value.value).still = subscribeValidate (h.subscribes e.value.value) := by
    unfold subscribeValidate
    have hget : ∀ i, (h.subscribes e.value.value).still.subscriptions.getD i {} =
        ((h.subscribes e.value.value).subscriptions.getD i {}).still := subscriptions_still _
    have hempty : (h.subscribes e.value.value).still.subscriptions.isEmpty =
        (h.subscribes e.value.value).subscriptions.isEmpty := List.isEmpty_map
    simp only [hget, hempty]
    rfl
  unfold Entry.Validated
  cases e.kind with
  | subscribe | unsubscribe => exact iff_of_eq (congrArg (· = true) hs)
  | _ => rfl

theorem validated_congr {h h' : Heap} (hs : h'.still = h.still) (e : Entry) : e.Validated h' ↔ e.Validated h := by
  rw [← validated_still h', hs, validated_still]

theorem fits_congr {h h' : Heap} (hs : h'.still = h.still) (hf : h.Fits) : h'.Fits := fun e hv =>
  (valid_congr hs e).mpr (hf e ((validated_congr hs e).mp hv))

/- A transmission is counted. -/
theorem validated_counted (h : Heap) (e x : Entry) : x.Validated (h.counted e) ↔ x.Validated h := by
  obtain ⟨hc, hs⟩ := counted_connects h e
  obtain ⟨ht, hp, hq⟩ := counted_strings h e x.value.value
  have hvalid : publishValidate ((h.counted e).publishes x.value.value) = publishValidate (h.publishes x.value.value) := by
    unfold publishValidate publishCalcRemainingLength
    rw [ht, hp, hq]
  unfold Entry.Validated
  rw [hc, hs, hvalid]

theorem fits_counted {h : Heap} (e : Entry) (hf : h.Fits) : (h.counted e).Fits := fun x hx =>
  (valid_counted h e x).mpr (hf x ((validated_counted h e x).mp hx))

theorem readable_counted (e : Entry) (hw : w.Readable) : World.Readable { w with heap := w.heap.counted e } := by
  intro r hr
  rw [str_counted]
  exact hw r hr

/- The encoder stays at its field. -/
theorem World.At.stays (hat : w.At e) (hs : LightMqtt.Sends noBytes f w v)
    (hget : (entryFields w.heap e)[w.tx.internal.pos]? = some f)
    (i : TxInternal) (hp : i.pos = w.tx.internal.pos) (ho : v.Open i.offset f) (hc : i.buffer.Caches f) :
    (v.setTx i).At e := by
  have hfields : entryFields (v.setTx i).heap e = entryFields w.heap e := entryFields_congr hs.heap e
  have hlt := (List.getElem?_eq_some_iff.mp hget).1
  constructor
  · rw [hfields]
    exact hp.trans_le hat.pos
  · intro hend
    rw [hfields] at hend
    have hend : w.tx.internal.pos = (entryFields w.heap e).length := hp.symm.trans hend
    omega
  · intro g hg
    rw [hfields] at hg
    have hg : (entryFields w.heap e)[i.pos]? = some g := hg
    rw [hp, hget] at hg
    cases hg
    refine ⟨⟨(ready_setTx ..).mpr ho.ready, fun hstuck => ho.ahead ?_⟩, hc⟩
    cases f with
    | header bytes => exact hstuck
    | str r el ie =>
      rw [stuck_str, str_setTx] at hstuck
      exact hstuck

/- It goes on with the next one. -/
theorem Sends.next (hs : Sends noBytes f w v) (hget : (entryFields w.heap e)[w.tx.internal.pos]? = some f)
    (hw : w.Readable) (hk : e.kind ≠ .connect) (hv : e.Validated w.heap) (i : TxInternal)
    (hp : i.pos = w.tx.internal.pos + 1) (ho : i.offset = 0) (hc : i.buffer.encoded = false) : (v.setTx i).At e := by
  have hstill : (v.setTx i).heap.still = w.heap.still := hs.heap
  have hlt := (List.getElem?_eq_some_iff.mp hget).1
  refine ⟨?_, fun _ => ⟨ho, hc⟩, fun g hg => ?_⟩
  · rw [entryFields_congr hstill]
    change i.pos ≤ _
    omega
  · have hplain := entryFields_plain hk ((validated_congr hstill e).mpr hv) g (List.mem_of_getElem? hg)
    have hopen := hplain.opens (readable_congr hstill hw)
    rw [← ho] at hopen
    exact ⟨hopen, caches_of_fresh hc g⟩

/- A finder changes nothing the field depends on. -/
theorem Alike.at {u : World σ} (h : Alike w u) (hat : w.At e) : u.At e := by
  have hfields := h.entryFields e
  constructor
  · rw [hfields, h.tx]
    exact hat.pos
  · rw [hfields, h.tx]
    exact hat.between
  · rw [hfields, h.tx]
    intro g hg
    obtain ⟨ho, hc⟩ := hat.field g hg
    refine ⟨⟨?_, fun hstuck => ho.ahead ((h.stuck ..).mp hstuck)⟩, hc⟩
    have hr := ho.ready
    cases g with
    | header bytes => exact hr
    | str r el ie => exact ⟨hr.1, hr.2.1, by rw [h.str]; exact hr.2.2⟩

end At

/-- A turn at a field of a packet. -/
theorem runEncoder_at {w u : World σ} {e : Entry} {x : Encoder} (hb : env.Bounded) (hf : w.heap.Fits)
    (hk : e.kind ≠ .connect) (hv : e.Validated w.heap) (hat : w.At e) (hx : Found w e x u) (ev : Event) (bufLen : ℕ) :
    ∃ f, (entryFields w.heap e)[w.tx.internal.pos]? = some f ∧ w.Plain f ∧
      Wp (runEncoder env e.value w.tx.internal.offset bufLen x) (u.emit ev)
        (Walked (u.emit ev) f w.tx.internal.offset bufLen) fun _ _ => False := by
  have hsame := hx.alike ev
  have hget := hx.field
  have hplain := entryFields_plain hk hv _ (List.mem_of_getElem? hget)
  have hplain' : (u.emit ev).Plain (x.field u.heap e.value (u.heap.subscribes e.value.value).current) := by
    generalize x.field u.heap e.value (u.heap.subscribes e.value.value).current = f at hplain
    cases f with
    | header bytes => exact hplain
    | str r el ie => exact ⟨hplain.1, by rw [hsame.str]; exact hplain.2⟩
  refine ⟨_, hget, hplain, ?_⟩
  obtain ⟨ho, hc⟩ := (hsame.at hat).field _ (by rw [hsame.entryFields, hsame.tx]; exact hget)
  obtain ⟨i, hmem⟩ := hx.encoder
  have hvalid : x.Valid (u.emit ev).heap e.value := by
    have h := hf e hv _ hmem
    rwa [← encoder_still, hsame.heap, encoder_still]
  have htx := congrArg TxBuffer.internal hsame.tx
  rw [htx] at ho hc
  exact runEncoder_walked hb (u.emit ev) e.value x w.tx.internal.offset bufLen ho (hplain'.not_cut _ _)
    (by rw [htx]; exact hc) hvalid

/-! ### The queue goes on -/

/-- The encoder and its strings are as they were, and the entries that are to be sent
are followed by others. -/
structure Ahead (w w' : World σ) : Prop where
  tx : w'.tx = w.tx
  heap : w'.heap.still = w.heap.still
  str : ∀ r, r.isStored = true → w'.str r = w.str r
  pending : ∀ r, ∃ l, (w'.store r).pending = (w.store r).pending ++ l
  error : w'.error = w.error

section Ahead
variable {w w' w'' : World σ}

theorem Ahead.refl (w : World σ) : Ahead w w := ⟨rfl, rfl, fun _ _ => rfl, fun _ => ⟨[], (List.append_nil _).symm⟩, rfl⟩

theorem Ahead.trans (h : Ahead w w') (h' : Ahead w' w'') : Ahead w w'' := by
  refine ⟨h'.tx.trans h.tx, h'.heap.trans h.heap, fun r hr => (h'.str r hr).trans (h.str r hr), fun r => ?_,
    h'.error.trans h.error⟩
  obtain ⟨l, hl⟩ := h.pending r
  obtain ⟨l', hl'⟩ := h'.pending r
  exact ⟨l ++ l', by rw [hl', hl, List.append_assoc]⟩

/- The stores, the encoder and the objects are as they were. -/
theorem Ahead.of_same (htx : w'.tx = w.tx) (hh : w'.heap = w.heap) (hs : ∀ r, w'.store r = w.store r)
    (he : w'.error = w.error) : Ahead w w' := by
  refine ⟨htx, by rw [hh], fun r hr => ?_, fun r => ⟨[], by rw [hs, List.append_nil]⟩, he⟩
  cases r with
  | rxTopic | rxPayload => contradiction
  | _ => simp only [World.str, hh]

theorem Ahead.setStore (w : World σ) (r : StoreRef) (s : Store) (h : ∃ l, s.pending = (w.store r).pending ++ l) :
    Ahead w (w.setStore r s) := by
  refine ⟨w.setStore_tx r s, by rw [World.setStore_heap], fun q hq => ?_, fun q => ?_, w.setStore_error r s⟩
  · cases q with
    | rxTopic | rxPayload => contradiction
    | _ => simp only [World.str, World.setStore_heap]
  · rw [World.store_setStore]
    split
    · rename_i hq
      rw [hq]
      exact h
    · exact ⟨[], (List.append_nil _).symm⟩

theorem Called.ahead (h : Called w w') : Ahead w w' := by
  have hs := h.same
  obtain ⟨new, hnew⟩ := h.entries
  refine ⟨?_, ?_, fun r hr => ?_, fun r => ?_, ?_⟩
  · rw [hs]
  · rw [hs]
  · have hh : w'.heap = w.heap := by rw [hs]
    cases r with
    | rxTopic | rxPayload => contradiction
    | _ => simp only [World.str, hh]
  · cases r with
    | main =>
      refine ⟨new, ?_⟩
      change w'.mainStore.pending = w.mainStore.pending ++ new
      rw [Store.pending, Store.pending, hnew, h.pos, List.drop_append_of_le_length w.mainStore.pos_le]
    | connect =>
      refine ⟨[], ?_⟩
      rw [hs]
      exact (List.append_nil _).symm
  · rw [hs]

/- The encoder still stands where it stood. -/
theorem Ahead.standing (h : Ahead w w') (hs : w.Standing) (hw : w'.Readable) : w'.Standing := by
  obtain ⟨l, hl⟩ := h.pending w.tx.store
  have hpending : w'.txStore.pending = w.txStore.pending ++ l := by
    unfold World.txStore
    rw [h.tx, hl]
  cases hp : w.txStore.pending with
  | nil =>
    have hfresh := hs.idle hp
    rw [← h.tx] at hfresh
    exact hfresh.standing hw
  | cons x xs =>
    rw [hp, List.cons_append] at hpending
    refine ⟨fun hn => ?_, fun e es he hk hv => ?_⟩
    · rw [hpending] at hn
      contradiction
    · rw [hpending] at he
      obtain ⟨rfl, -⟩ := List.cons.inj he
      have hat := hs.place x xs hp hk ((validated_congr h.heap x).mp hv)
      have hfields := entryFields_congr h.heap x
      constructor
      · rw [hfields, h.tx]
        exact hat.pos
      · rw [hfields, h.tx]
        exact hat.between
      · rw [hfields, h.tx]
        intro f hf
        obtain ⟨ho, hc⟩ := hat.field f hf
        cases f with
        | header bytes => exact ⟨⟨ho.ready, id⟩, hc⟩
        | str r el ie =>
          have hr := h.str r ho.ready.1
          refine ⟨⟨⟨ho.ready.1, ho.ready.2.1, by rw [hr]; exact ho.ready.2.2⟩, fun hstuck => ho.ahead ?_⟩, hc⟩
          rw [stuck_str, hr] at hstuck
          exact hstuck

end Ahead

/-- The client was opened, or the queue went on. -/
def Behind (w w' : World σ) : Prop :=
  ∃ evs, w'.log = evs ++ w.log ∧ ((∃ b, .connected b ∈ evs) ∨ Ahead w w')

section Behind
variable {w w' w'' : World σ}

theorem Behind.of (evs : List Event) (hl : w'.log = evs ++ w.log) (h : Ahead w w') : Behind w w' := ⟨evs, hl, .inr h⟩

theorem Behind.refl (w : World σ) : Behind w w := .of [] rfl (.refl w)

instance : IsTrans (World σ) Behind where
  trans := by
    rintro w w' w'' ⟨evs, hl, h⟩ ⟨evs', hl', h'⟩
    refine ⟨evs' ++ evs, by rw [hl', hl, List.append_assoc], ?_⟩
    rcases h with ⟨b, hb⟩ | h
    · exact .inl ⟨b, List.mem_append_right _ hb⟩
    · rcases h' with ⟨b, hb⟩ | h'
      · exact .inl ⟨b, List.mem_append_left _ hb⟩
      · exact .inr (h.trans h')

theorem Untouched.behind_of (h : Untouched w w') {b : Bool} {l : List Event} (hl : w.log = .connected b :: l)
    {u : World σ} (hu : u.log = l) : Behind u w' := by
  obtain ⟨evs, he, -⟩ := h.log
  refine ⟨evs ++ [.connected b], ?_, .inl ⟨b, List.mem_append_right _ (List.mem_singleton_self _)⟩⟩
  rw [he, hl, hu, List.append_assoc]
  rfl

theorem Called.behind (h : Called w w') : Behind w w' := by
  obtain ⟨evs, hl, -⟩ := h.log
  exact .of evs hl h.ahead

theorem Behind.emit (w : World σ) (ev : Event) : Behind w (w.emit ev) :=
  .of [ev] rfl (.of_same rfl rfl (fun r => by cases r <;> rfl) rfl)

end Behind

theorem callUser_behind (env : Env σ) (w : World σ) (f : Option (σ → Ptr → Bool → Reply σ)) (cb : Callback)
    (v : Value) (b : Bool) :
    Within Behind (callUser doRequests f cb v b) w :=
  (callUser_called env (fun _ => True) w f cb v b).mono
    (fun _ _ h => IsTrans.trans _ _ _ (Behind.emit w _) h.1.behind) fun _ _ h => h.elim

/- What follows the note that the client is open only adds to the log. -/
theorem connected_behind (call : Value → Prog σ Bool) (hcall : ∀ v w, Within Untouched (call v) w) (w t : World σ) (v : Value)
    (hl : t.log = w.log) : Wp (do
      clientSetStateConnected env call
      callUser doRequests env.onConnect .onConnack v true :
          Prog σ Bool) t (fun _ w' => Behind w w') fun _ w' => Behind w w' := by
  simp only [clientSetStateConnected, clientSetCurrentStore, wp_bind, wp_modify, wp_get]
  refine (clientCleanupStores_untouched env hcall _ _).mono (fun _ u hu => ?_) fun _ u hu => hu.behind_of rfl hl.symm
  have hall : ∀ {x y : World σ}, Untouched x y → x.log = u.log → x.rx = u.rx → Behind w y := by
    intro x y hy hlog hrx
    exact (hu.trans (.trans ⟨.of_log hlog, congrArg RxBuffer.internal hrx⟩ hy)).behind_of rfl hl.symm
  exact (callUser_untouched env _ env.onConnect .onConnack v true).mono (fun _ x hx => hall hx rfl rfl)
    fun _ x hx => hall hx rfl rfl

theorem callCallback_behind (depth : ℕ) (v : Value) (w : World σ) : Within Behind (callCallback env depth v) w := by
  cases depth with
  | zero =>
    rw [callCallback_requests]
    refine within_get_bind w _ ?_
    split <;> try exact within_pure w (.refl w) _
    · refine within_ite w _ _ _ (fun _ => callUser_behind env w _ _ v _) fun _ => within_throw w (.refl w) _
    all_goals exact callUser_behind env w _ _ v _
  | succ depth =>
    rw [callCallback_requests]
    refine within_get_bind w _ ?_
    split <;> try exact within_pure w (.refl w) _
    · refine within_ite w _ _ _ (fun _ => callUser_behind env w _ _ v _) fun _ => ?_
      unfold Within
      rw [wp_bind, wp_set]
      exact connected_behind _ (callCallback_untouched env depth) w _ v rfl
    all_goals exact callUser_behind env w _ _ v _

/- Answers in objects leave strings alone. -/
theorem str_connack (w : World σ) (p : Ptr) (b : Byte) (r : StrRef) :
    ({ w with heap := w.heap.setConnect p { w.heap.connects p with sessionPresent := b } } : World σ).str r = w.str r := by
  cases r with
  | connectClientId q | connectWillTopic q | connectWillMessage q | connectUserName q | connectPassword q =>
    simp only [World.str, Heap.setConnect, Function.update_apply]
    split <;> simp_all
  | _ => rfl

theorem str_suback (w : World σ) (p : Ptr) (i : ℕ) (b : Byte) (r : StrRef) :
    ({ w with heap := w.heap.modifySubscription p i fun x => { x with returnCode := b } } : World σ).str r = w.str r := by
  cases r with
  | subscriptionTopic q j =>
    simp only [World.str, Heap.subscription, Heap.modifySubscription, Heap.setSubscribe, Function.update_apply]
    split
    · rename_i hq
      rw [hq, List.getD_eq_getElem?_getD, List.getElem?_modify, List.getD_eq_getElem?_getD]
      cases (w.heap.subscribes p).subscriptions[j]? with
      | none => rfl
      | some x =>
        simp only [Option.map_eq_map, Option.map_some, Option.getD_some]
        split <;> rfl
    · rfl
  | _ => rfl

theorem behind_frame (env : Env σ) : DecoderFrame env Behind where
  packet w i s a evs := .of evs rfl (.of_same rfl rfl (fun r => by cases r <;> rfl) rfl)
  connack w p b := by
    refine .of [] rfl ⟨rfl, setConnect_still rfl, fun r _ => str_connack w p b r, fun r => ⟨[], ?_⟩, rfl⟩
    cases r <;> exact (List.append_nil _).symm
  suback w p i b := by
    refine .of [] rfl ⟨rfl, modifySubscription_still fun _ _ => rfl, fun r _ => str_suback w p i b r, fun r => ⟨[], ?_⟩, rfl⟩
    cases r <;> exact (List.append_nil _).symm
  append w e s hs := .of [] (World.setStore_log ..) (.setStore w _ s ⟨[e], (Store.append_spec _ _ _ hs).pending_eq⟩)
  pop w k id e s hs := by
    obtain ⟨pre, post, hrem, hlt, -⟩ := Store.popMarkedBy_spec _ _ _ _ _ hs
    obtain ⟨mid, -, -, hpending⟩ := hrem.marked hlt
    exact .of [] (World.setStore_log ..) (.setStore w _ s ⟨[], by rw [List.append_nil]; exact hpending⟩)
  requests w qs := (doRequests_called env (fun _ => True) w qs).mono (fun _ _ h => h.1.behind) fun _ _ h => h.elim
  call w v := callCallback_behind env.fuel v w

/-! ### Runs -/

/-- Where the encoder may go on, it stands at a field. -/
def World.Stands (w : World σ) : Prop :=
  w.error = none → w.tx.closed = false → w.tx.internal.error = none → w.Readable → w.heap.Fits → w.Standing

section Stands
variable {w w' : World σ} {o : Output}

theorem Ahead.stands (h : Ahead w w') (hw : w.Stands) : w'.Stands := by
  intro he hc hi hr hf
  rw [h.tx] at hc hi
  exact h.standing (hw (h.error.symm.trans he) hc hi (readable_congr h.heap.symm hr) (fits_congr h.heap.symm hf)) hr

theorem World.Stands.same (hw : w.Stands) (htx : w'.tx = w.tx) (hh : w'.heap = w.heap) (hs : ∀ r, w'.store r = w.store r)
    (he : w'.error = w.error) : w'.Stands :=
  (Ahead.of_same htx hh hs he).stands hw

theorem stands_of_reset (h : w.tx.internal = {}) : w.Stands := by
  intro _ _ _ hr _
  have hfresh : w.tx.internal.Fresh := by
    rw [h]
    exact ⟨rfl, rfl, rfl⟩
  exact hfresh.standing hr

/- Before a CONNACK nothing is to be sent. -/
theorem opened_pending (hw : Sound w) (hcalls : w.rx.internal.calls = 0) (hwe : w.error = none)
    (hv : w.rx.internal.value.callback = some .onConnack) (h : OpenedIn w w') (ho : w.Ordered) :
    w.txStore.pending = [] := by
  obtain ⟨o, hout, ha⟩ := ho
  have ha := ha hwe
  obtain ⟨t, u, ht, hu, -⟩ := h
  have hclosed : w.closed = false := by
    have hcl := hu.alive
    rw [ht.same] at hcl
    exact hcl
  have hcs : w.tx.store = .connect := by
    rw [hw.txStore]
    exact hw.phase.awaited (by rw [RxInternal.connects, if_pos hv]) hcalls hclosed
  cases o with
  | idle =>
    rw [ha.1] at hclosed
    contradiction
  | opening => exact absurd hv (Reserved.not_holds hw ha.2.2.2.1)
  | awaiting =>
    unfold World.txStore
    rw [hcs]
    change w.connectStore.entries.drop w.connectStore.pos = []
    rcases ha.2.2.2 with ⟨⟨e, he, -⟩, hpos⟩ | ⟨he, -⟩
    · rw [he, hpos]
      rfl
    · rw [he, List.drop_nil]
  | accepted =>
    rw [ha.2] at hcs
    contradiction
  | done =>
    rw [ha.2.1] at hcs
    contradiction

theorem opened_stands (hp : w.txStore.pending = []) (h : OpenedIn w w') (hwe : w.error = none) (hw : w.Stands) : w'.Stands := by
  obtain ⟨t, u, ht, hu, hend⟩ := h
  have htx : w'.tx.internal = w.tx.internal ∧ w'.tx.closed = w.tx.closed := by
    rw [hend.same, hu.same, ht.same]
    exact ⟨rfl, rfl⟩
  have hheap : w'.heap.still = w.heap.still := by
    rw [hend.heap, ← ht.heap, hu.same]
  intro _ hc hi hr hf
  rw [htx.1] at hi
  rw [htx.2] at hc
  have hfresh := (hw hwe hc hi (readable_congr hheap.symm hr) (fits_congr hheap.symm hf)).idle hp
  rw [← htx.1] at hfresh
  exact hfresh.standing hr

/- Only a CONNACK opens the client. -/
theorem Logged.not_connected (h : Logged (fun ev => ev.isWire = false) w w') {evs : List Event}
    (hl : w'.log = evs ++ w.log) (b : Bool) : .connected b ∉ evs := by
  obtain ⟨evs', hl', he⟩ := h
  intro hb
  rw [hl, List.append_left_inj] at hl'
  rw [hl'] at hb
  have hwire := he _ hb
  contradiction

theorem Behind.stands {bs : List Byte} (h : Behind w w') (hd : Deed env bs w w') (hw : Sound w)
    (hcalls : w.rx.internal.calls = 0) (hwe : w.error = none) (ho : w.Ordered) (hs : w.Stands) : w'.Stands := by
  obtain ⟨evs, hl, ⟨b, hb⟩ | hahead⟩ := h
  · have hquiet : Unmoved w w' → w'.Stands := fun hu => absurd hb (hu.log.not_connected hl b)
    cases hd with
    | still hn hk h => exact hquiet h.unmoved
    | publish t res hc ht h => exact hquiet (ht.unmoved.trans h.unmoved)
    | pubrel t hp hi ht h he => exact hquiet ((ht.unmoved.trans (.setIds t _)).trans h.unmoved)
    | connack t e s hf ht hsound hpop h =>
      have hlog : Logged (fun ev => ev.isWire = false) t w' :=
        .one (by rw [h]; exact congrArg (_ :: ·) (World.setStore_log ..)) rfl
      exact absurd hb ((ht.unmoved.log.trans hlog).not_connected hl b)
    | opened hf hdec hp hz hv h => exact opened_stands (opened_pending hw hcalls hwe hv h ho) h hwe hs
  · exact hahead.stands hs

/- What the encoder of a field leaves of its place. -/
structure Placed (w w' : World σ) : Prop where
  error : w'.tx.internal.error = w.tx.internal.error

instance : IsTrans (World σ) Placed := ⟨fun _ _ _ h h' => ⟨h'.error.trans h.error⟩⟩

theorem encoderFrame_placed : EncoderFrame (Placed (σ := σ)) where
  refl _ := ⟨rfl⟩
  tx _ _ := ⟨rfl⟩
  app _ _ := ⟨rfl⟩
  move w r pos _ := ⟨by cases r <;> rfl⟩

theorem txBufferField_stands (hb : env.Bounded) {e : Entry} {x : Encoder} (hp : w.txStore.peek = some e)
    (hs : w.Stands) {t : World σ} (hx : Found w e x t) (bufLen : ℕ) :
    Wp (txBufferField env e x bufLen) t (fun _ w' => w'.Stands) fun _ _ => True := by
  refine wp_of_ok fun _ w' h => ?_
  have hsent := wp_ok (txBufferField_sent w t e x bufLen hx) h
  have hsame := hsent.same
  obtain ⟨tl, hpend⟩ := Store.pending_of_peek hp
  have hpend' : w'.txStore.pending = e :: tl := by
    rw [hsame, ← hpend]
    rfl
  intro he hc hi hr hf
  refine ⟨fun hn => ?_, fun y ys hy hk hv => ?_⟩
  · rw [hpend'] at hn
    contradiction
  · rw [hpend'] at hy
    obtain ⟨rfl, -⟩ := List.cons.inj hy
    have hwr := readable_congr hsent.heap.symm hr
    have hwf := fits_congr hsent.heap.symm hf
    have hwv := (validated_congr hsent.heap e).mp hv
    have hwe : w.error = none := by
      rw [hsame] at he
      exact he
    have hwc : w.tx.closed = false := by
      rw [hsame] at hc
      exact hc
    -- the field
    have h := ok_get_bind h
    obtain ⟨⟨⟩, u, hu, h⟩ := ok_bind h
    cases hu
    rw [show t.tx = w.tx from hx.tx] at h
    obtain ⟨⟨res, bytes⟩, v, hrun, h⟩ := ok_bind h
    have hnote : res = .error ∧ w' = v.setTx { v.tx.internal with
          error := v.tx.internal.buffer.error, osError := v.tx.internal.buffer.osError } ∨
        w'.tx.internal.error = v.tx.internal.error := by
      cases res with
      | error => exact .inl ⟨rfl, by cases h; rfl⟩
      | wouldBlock => exact .inr (by cases h; rfl)
      | _ => exact .inr (by cases h; rfl)
    have hfails := wp_ok (runEncoder_error env _ e.value _ bufLen x) hrun
    have hgone : res ≠ .error := by
      intro hres
      rcases hnote with ⟨-, rfl⟩ | hkeep
      · have hi : v.tx.internal.buffer.error = none := hi
        have hsome := hfails hres
        rw [hi] at hsome
        contradiction
      · subst hres
        cases h
        have hi : v.tx.internal.buffer.error = none := hi
        have hsome := hfails rfl
        rw [hi] at hsome
        contradiction
    have hplaced := (wp_ok (runEncoder_keeps env encoderFrame_placed _ e.value _ bufLen x) hrun).error
    have hwi : w.tx.internal.error = none := by
      rcases hnote with ⟨hres, -⟩ | hkeep
      · exact absurd hres hgone
      · rw [hkeep, hplaced] at hi
        rw [← hx.tx]
        exact hi
    have hat := (hs hwe hwc hwi hwr hwf).place e tl hpend hk hwv
    obtain ⟨f, hget, hplain, hwalk⟩ := runEncoder_at hb hwf hk hwv hat hx
      (.encode e.kind e.value.packetId e.value.req w.tx.internal.pos) bufLen
    have hw := wp_ok hwalk hrun
    have halike := hx.alike (.encode e.kind e.value.packetId e.value.req w.tx.internal.pos)
    have hsat := halike.at hat
    rw [← halike.entryFields, ← halike.tx] at hget
    cases hw with
    | finished bytes v hsends hl hfresh hwidth =>
      cases h
      refine hsends.next hget (readable_congr halike.heap hwr) hk ((validated_congr halike.heap e).mpr hwv) _ ?_ rfl hfresh
      exact congrArg (· + 1) hsends.pos
    | «continue» bytes v hsends ho hcached =>
      cases h
      refine hsat.stays hsends hget _ hsends.pos ?_ hcached
      change v.Open (v.tx.internal.offset + bytes.length) f
      rw [hsends.offset, halike.tx]
      exact ho
    | wouldBlock bytes v hsends ho hcached =>
      cases h
      refine hsat.stays hsends hget w'.tx.internal hsends.pos ?_ hcached
      rw [hsends.offset, halike.tx]
      exact ho
    | error bytes v hsends he => exact absurd rfl hgone

theorem stands_of_closed (h : w.tx.closed = true) : w.Stands := by
  intro _ hc
  rw [h] at hc
  contradiction

theorem stands_of_error (h : w.error ≠ none) : w.Stands := fun he => absurd he h

theorem txBufferFinishEntry_stands (env : Env σ) (e : Entry) (w : World σ) :
    Wp (txBufferFinishEntry env e) w (fun _ w' => w'.Stands) fun _ _ => True := by
  -- what is left to do when the callback has returned
  have hend : ∀ (ok : Bool) v, Wp (if (!ok) = true then do
        assert env (e.kind = .publish0)
        txBufferFail (some .callbackPublish) 0
        pure false
      else do
        lmqttTxBufferReset
        pure true : Prog σ Bool) v (fun _ w' => w'.Stands) fun _ _ => True := by
    intro ok v
    refine wp_if (fun _ => wp_assert_bind (fun _ => ?_) fun _ => trivial) fun _ => stands_of_reset rfl
    intro _ _ hi
    contradiction
  simp only [txBufferFinishEntry, wp_bind, wp_emit, wp_get]
  refine wp_if (fun _ => ?_) fun _ => stands_of_reset rfl
  simp only [wp_bind, wp_set]
  refine wp_if (fun _ => stands_of_closed rfl) fun _ => ?_
  split
  · exact (wp_bind ..).mpr (wp_of_ok fun ok v _ => hend ok v)
  · exact hend true _

theorem txBufferTurn_stands (hb : env.Bounded) (w : World σ) (bufLen : ℕ) (hs : w.Stands) :
    Wp (txBufferTurn env bufLen) w (fun _ w' => w'.Stands) fun _ _ => True := by
  cases hc : w.tx.closed with
  | true =>
    simp only [txBufferTurn, wp_bind, wp_get, hc, if_true]
    exact hs
  | false =>
    cases hp : w.txStore.peek with
    | none =>
      simp only [txBufferTurn, wp_bind, wp_get, hc, hp]
      exact hs
    | some e =>
      refine wp_of_ok fun _ w' h => ?_
      rw [txBufferTurn_entry bufLen hc hp] at h
      obtain ⟨found, t, hfind, h⟩ := ok_bind h
      rcases txBufferFinder_ok hfind with ⟨x, rfl, hx⟩ | ⟨rfl, -, rfl⟩
      · exact wp_ok (txBufferField_stands hb hp hs hx bufLen) h
      · obtain ⟨ok, u, hfin, h⟩ := ok_bind h
        rw [← (ok_pure h).2]
        exact wp_ok (txBufferFinishEntry_stands env e _) hfin

/- A call of the application or of the client lets the queue go on, or starts afresh. -/
theorem act_stands (w : World σ) (a : Act σ) (hw : Live w) (hcall : a.isCall = true) (ha : a.Enabled (fun _ => True) w)
    (hs : w.Stands) : Wp (a.run env) w (fun _ w' => w'.Stands) fun _ _ => True := by
  have hahead : ∀ {α : Type} {p : Prog σ α}, Wp p w (fun _ w' => Ahead w w') (fun _ _ => True) →
      Wp p w (fun _ w' => w'.Stands) fun _ _ => True := fun h => h.mono (fun _ _ h => h.stands hs) fun _ _ h => h
  have hcalled : ∀ {α : Type} {p : Prog σ α} {q : World σ → Prop}, Wp p w (fun _ w' => Called w w' ∧ q w') (fun _ _ => False) →
      Wp p w (fun _ w' => w'.Stands) fun _ _ => True := fun h => h.mono (fun _ _ h => h.1.ahead.stands hs) fun _ _ h => h.elim
  have hclock : Wp (currentTimeout env) w (fun _ w' => w'.Stands) fun _ _ => True := by
    refine (currentTimeout_spec w).mono (fun _ w' h => ?_) fun _ _ h => h.elim
    obtain ⟨b, rfl⟩ := h
    exact hs.same rfl rfl (fun r => by cases r <;> rfl) rfl
  have htouch : ∀ (v : World σ) (r : StoreRef) (s : Store), s.pending = (v.store r).pending → Ahead v (v.setStore r s) :=
    fun v r s hp => .setStore v r s ⟨[], by rw [List.append_nil, hp]⟩
  cases a with
  | request q => exact (wp_bind ..).mpr (hcalled (doRequest_called env (fun _ => True) w q))
  | pingreq =>
    simp only [Act.run, lmqttClientPingreq, wp_bind, wp_get]
    exact wp_if (fun _ => hcalled (clientDoPingreq_called env (fun _ => True) w)) fun _ => hs
  | connect p =>
    simp only [Act.run, lmqttClientConnect, clientDoConnect, clientSetStateConnecting, lmqttRxBufferReset,
      lmqttTxBufferReset, wp_bind, wp_get]
    refine wp_if (fun _ => wp_if (fun _ => hs) fun _ => ?_) fun _ => hs
    split
    · exact hs
    · exact stands_of_reset rfl
  | reset =>
    simp only [Act.run, lmqttClientReset, resetWith, wp_bind, wp_get]
    refine wp_if (fun h => ?_) fun _ => hs
    simp only [Bool.and_eq_true, decide_eq_true_eq] at h
    refine (clientSetStateInitial_reverted w hw.sound h.2).mono (fun _ w' hr => stands_of_closed ?_) fun _ _ h => h
    rw [hr.same]
  | eof =>
    have hn : w.error ≠ some .closed := by rw [show w.error = none from ha]; simp
    refine (clientSetStateInitial_reverted w hw.sound hn).mono (fun _ w' hr => stands_of_closed ?_) fun _ _ h => h
    rw [hr.same]
  | finalize =>
    refine (lmqttClientFinalize_finalized w hw.sound).mono (fun _ w' h => stands_of_error ?_) fun _ _ h => h
    rw [h.same]
    simp
  | setDefaultTimeout secs =>
    exact ((htouch w .main { w.mainStore with timeout := secs } rfl).trans
      (htouch _ .connect { w.connectStore with timeout := secs } rfl)).stands hs
  | getTimeout =>
    simp only [Act.run, lmqttClientGetTimeout, wp_bind]
    exact hclock
  | currentTimeout => exact (wp_bind ..).mpr (hclock.mono (fun _ _ h => h) fun _ _ h => h)
  | touch r =>
    refine (storeTouch_effects env (fun _ => True) w r).mono (fun _ w' h => ?_) fun _ _ h => h.elim
    rw [h.2]
    exact ((htouch w r ((w.store r).touch (env.getTime w.app).2) rfl).stands hs).same rfl rfl
      (fun q => by cases q <;> rfl) rfl
  | transfer app readBuf writeBuf => exact hs.same rfl rfl (fun r => by cases r <;> rfl) rfl
  | fail e osError =>
    refine (clientSetStateFailed_spec env w e osError).mono (fun _ w' h => ?_) fun _ _ h => h.elim
    subst h
    exact stands_of_error (by simp)
  | decode bs => contradiction
  | encode bufLen => contradiction

/-- Every step keeps the place of the encoder. -/
theorem step_stands (hb : env.Bounded) (w : World σ) (s : Step σ) (hw : Live w) (ho : w.Ordered)
    (hen : s.Enabled (fun _ => True) w) (hs : w.Stands) :
    Wp (s.run env) w (fun _ w' => w'.Stands) fun _ _ => True := by
  cases s with
  | send bufLen => exact txBufferTurn_stands hb w bufLen hs
  | call a => exact act_stands w a hw hen.1 hen.2 hs
  | exit bufLen bytesRead =>
    simp only [Step.run, rxBufferExit, wp_bind]
    refine wp_if (fun _ => ?_) fun _ => hs
    exact hs.same rfl rfl (fun r => by cases r <;> rfl) rfl
  | read bs =>
    obtain ⟨hwe, he, -⟩ := hen
    have hdec := hw.decoding hwe
    refine (wp_bind ..).mpr (((rxBufferDecodeTurn_frame env w bs hw.sound hdec.shape he hwe hdec.requests).and
      (rxBufferDecodeTurn_keeps (behind_frame env) w bs)).mono (fun _ w' h => ?_) fun _ _ _ => trivial)
    exact h.2.stands h.1 hw.sound (hdec.shape.calls he) hwe ho hs

theorem stepped_stands (hb : env.Bounded) {C : World σ → Step σ → Prop} (w : World σ) (h : Stepped env C w) : w.Stands := by
  induction h with
  | start buffers heap app w h =>
    have hr := start_reverted h
    exact stands_of_closed (by rw [hr.same])
  | step w w' s hw hc hs h ih => exact wp_ok (step_stands hb w s hw.live (stepped_ordered hw) hs ih) h

end Stands

end LightMqtt
