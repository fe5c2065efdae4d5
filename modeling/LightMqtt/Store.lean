import LightMqtt.Core

/-!
# The packet store (`store.c`)

One bounded queue holds the requests of the client and its acknowledgements.
The first `pos` entries are marked: they were sent and wait for a response;
the entries after them are still to be sent. The array of the source is the
list of its first `count` entries, so `count` is the length of the list.
-/

namespace LightMqtt

/- What `lmqtt_store_value_t.callback` points to. `callback_data` is always
   the client itself. -/
inductive Callback
  | onConnack | onSuback | onUnsuback | onPublish | onPingresp
  deriving DecidableEq, Repr

/-- `lmqtt_store_value_t`. `req` is a ghost: the serial number of the accepted
API call the entry was created for. No function reads it. -/
structure Value where
  packetId : PacketId := 0
  value : Ptr := 0
  callback : Option Callback := none
  req : Option ℕ := none
  deriving DecidableEq, Repr

structure Entry where
  kind : Kind
  value : Value
  deriving DecidableEq, Repr

/- The callback the client registers with an entry of a kind. -/
def Kind.callback : Kind → Option Callback
  | .connect => some .onConnack
  | .publish0 | .publish1 | .publish2 | .pubrel => some .onPublish
  | .subscribe => some .onSuback
  | .unsubscribe => some .onUnsuback
  | .pingreq => some .onPingresp
  | .puback | .pubrec | .pubcomp | .disconnect => none

/- Kinds of the entries that stand for an accepted call of the API. -/
def Kind.isRequest : Kind → Bool
  | .puback | .pubrec | .pubcomp | .pingreq | .disconnect => false
  | _ => true

/-- An entry as the client makes them: its callback and its serial number are
those of its kind. -/
structure Entry.WellTyped (e : Entry) : Prop where
  callback : e.value.callback = e.kind.callback
  req : e.value.req.isSome = e.kind.isRequest

/-- `lmqtt_store_t` without its clock, with the invariant of its counters. -/
structure Store where
  keepAlive : UInt16 := 0
  timeout : UInt16 := 0
  nextPacketId : PacketId := 0
  lastTouch : Time := {}
  entries : List Entry := []
  pos : ℕ := 0
  capacity : ℕ
  pos_le : pos ≤ entries.length := by simp
  count_le : entries.length ≤ capacity := by simp
  deriving DecidableEq, Repr

namespace Store

/- An empty store in a buffer of `capacity` entries. -/
def empty (capacity : ℕ) : Store := { entries := [], capacity, count_le := Nat.zero_le capacity }

def count (s : Store) : ℕ := s.entries.length

/- `lmqtt_store_get_id` -/
def getId (s : Store) : PacketId × Store := (s.nextPacketId, { s with nextPacketId := s.nextPacketId + 1 })

def isQueueable (s : Store) : Bool := s.count < s.capacity

/- `lmqtt_store_append`; `none` where the C function returns 0. -/
def append (s : Store) (e : Entry) : Option Store :=
  if h : s.count < s.capacity then
    some { s with
      entries := s.entries ++ [e]
      pos_le := by have hp := s.pos_le; simp only [List.length_append, List.length_singleton]; omega
      count_le := by rw [List.length_append, List.length_singleton]; exact h }
  else none

def getAt (s : Store) (i : ℕ) : Option Entry := s.entries[i]?

/- `store_pop_at`: the entry at `i`, and the store with the block behind it
   moved down by one and the mark following it. -/
def popAt (s : Store) (i : ℕ) : Option (Entry × Store) :=
  if h : i < s.entries.length then
    some (s.entries[i], { s with
      entries := s.entries.eraseIdx i
      pos := if i < s.pos then s.pos - 1 else s.pos
      pos_le := by
        have hp := s.pos_le
        rw [List.length_eraseIdx_of_lt h]
        split <;> omega
      count_le := by
        have hc := s.count_le
        rw [List.length_eraseIdx_of_lt h]
        omega })
  else none

/- `lmqtt_store_delete_at` -/
def deleteAt (s : Store) (i : ℕ) : Store := ((s.popAt i).map (·.2)).getD s

/- `lmqtt_store_mark_current` -/
def markCurrent (s : Store) : Store :=
  if h : s.pos < s.entries.length then { s with pos := s.pos + 1, pos_le := h } else s

/- `lmqtt_store_drop_current` -/
def dropCurrent (s : Store) : Store := s.deleteAt s.pos

/- `lmqtt_store_peek` -/
def peek (s : Store) : Option Entry := s.getAt s.pos

def hasCurrent (s : Store) : Bool := s.peek.isSome

/- `store_find`: the first marked entry of the kind with the packet id. -/
def find (s : Store) (kind : Kind) (id : PacketId) : Option ℕ :=
  (s.entries.take s.pos).findIdx? fun e => e.kind = kind && e.value.packetId = id

/- `lmqtt_store_pop_marked_by` -/
def popMarkedBy (s : Store) (kind : Kind) (id : PacketId) : Option (Entry × Store) :=
  (s.find kind id).bind s.popAt

/- `lmqtt_store_shift` -/
def shift (s : Store) : Option (Entry × Store) := s.popAt 0

/- `lmqtt_store_unmark_all` -/
def unmarkAll (s : Store) : Store := { s with pos := 0, pos_le := Nat.zero_le _ }

/- `lmqtt_store_touch` at the clock reading `now`. -/
def touch (s : Store) (now : Time) : Store := { s with lastTouch := now }

/-- `lmqtt_store_get_timeout` at the clock reading `now`: whether there is a
timeout, the count, and what is left of it. -/
def getTimeout (s : Store) (now : Time) : Bool × ℕ × ℤ × ℤ :=
  let after := if 0 < s.count then s.timeout else s.keepAlive
  if after = 0 ∨ (s.lastTouch.secs = 0 ∧ s.lastTouch.nsecs = 0) then (false, 0, 0, 0)
  else
    let r := timeGetTimeoutTo s.lastTouch now after
    (r.1, s.count, r.2)

/-! ### The two parts of the queue -/

/- Entries that were sent and wait for a response. -/
def sent (s : Store) : List Entry := s.entries.take s.pos

/- Entries that are still to be sent. -/
def pending (s : Store) : List Entry := s.entries.drop s.pos

@[simp] theorem empty_entries (capacity : ℕ) : (empty capacity).entries = [] := rfl

@[simp] theorem empty_pos (capacity : ℕ) : (empty capacity).pos = 0 := rfl

@[simp] theorem empty_capacity (capacity : ℕ) : (empty capacity).capacity = capacity := rfl

theorem sent_append_pending (s : Store) : s.sent ++ s.pending = s.entries :=
  List.take_append_drop s.pos s.entries

theorem sent_length (s : Store) : s.sent.length = s.pos := by
  simp only [sent, List.length_take]
  have hp := s.pos_le
  omega

theorem peek_eq (s : Store) : s.peek = s.pending.head? := by
  simp only [peek, getAt, pending, List.head?_drop]

theorem pending_of_peek {s : Store} {e : Entry} (h : s.peek = some e) :
    ∃ rest, s.pending = e :: rest := by
  rw [peek_eq] at h
  cases hp : s.pending with
  | nil => simp [hp] at h
  | cons x rest =>
    rw [hp, List.head?_cons, Option.some.injEq] at h
    exact ⟨rest, by rw [h]⟩

theorem append_eq_none (s : Store) (e : Entry) : s.append e = none ↔ s.capacity ≤ s.count := by
  unfold append
  split <;> simp_all

theorem append_isSome (s : Store) (e : Entry) (h : s.count < s.capacity) : ∃ t, s.append e = some t := by
  simp [append, h]

/-- What an append that succeeds does: one entry more at the end of the
pending part, and nothing else. -/
structure Appended (s : Store) (e : Entry) (t : Store) : Prop where
  room : s.count < s.capacity
  entries : t.entries = s.entries ++ [e]
  pos : t.pos = s.pos
  capacity : t.capacity = s.capacity
  nextPacketId : t.nextPacketId = s.nextPacketId

theorem append_spec (s t : Store) (e : Entry) (h : s.append e = some t) : Appended s e t := by
  unfold append at h
  split at h
  · rename_i hroom
    cases h
    exact ⟨hroom, rfl, rfl, rfl, rfl⟩
  · contradiction

theorem Appended.sent_eq {s t : Store} {e : Entry} (h : Appended s e t) : t.sent = s.sent := by
  simp only [sent, h.entries, h.pos]
  exact List.take_append_of_le_length s.pos_le

theorem Appended.pending_eq {s t : Store} {e : Entry} (h : Appended s e t) :
    t.pending = s.pending ++ [e] := by
  simp only [pending, h.entries, h.pos]
  exact List.drop_append_of_le_length s.pos_le

/-- What a removal does: the entry between `pre` and `post` is gone, the others
keep their order and their side of the mark. -/
structure Removed (s : Store) (pre : List Entry) (e : Entry) (post : List Entry) (t : Store) :
    Prop where
  before : s.entries = pre ++ e :: post
  after : t.entries = pre ++ post
  pos : t.pos = if pre.length < s.pos then s.pos - 1 else s.pos
  capacity : t.capacity = s.capacity
  nextPacketId : t.nextPacketId = s.nextPacketId

theorem popAt_spec (s t : Store) (i : ℕ) (e : Entry) (h : s.popAt i = some (e, t)) :
    ∃ pre post, pre.length = i ∧ Removed s pre e post t := by
  unfold popAt at h
  split at h
  · rename_i hlt
    cases h
    have hlen : (s.entries.take i).length = i := by simp only [List.length_take]; omega
    refine ⟨s.entries.take i, s.entries.drop (i+1), hlen, ?_, ?_, ?_, rfl, rfl⟩
    · rw [List.getElem_cons_drop, List.take_append_drop]
    · exact List.eraseIdx_eq_take_drop_succ ..
    · simp only [hlen]
  · contradiction

theorem popAt_of_lt (s : Store) (i : ℕ) (h : i < s.entries.length) :
    ∃ t, s.popAt i = some (s.entries[i], t) := by
  simp [popAt, h]

theorem popAt_eq_none (s : Store) (i : ℕ) : s.popAt i = none ↔ s.entries.length ≤ i := by
  unfold popAt
  split <;> simp <;> omega

section Removed
variable {s t : Store} {pre post : List Entry} {e x : Entry}

theorem Removed.mem (h : Removed s pre e post t) : e ∈ s.entries := by
  simp [h.before]

theorem Removed.subset (h : Removed s pre e post t) (hx : x ∈ t.entries) : x ∈ s.entries := by
  rw [h.after, List.mem_append] at hx
  rw [h.before, List.mem_append, List.mem_cons]
  tauto

/- No entry but the removed one is lost. -/
theorem Removed.mem_or (h : Removed s pre e post t) (hx : x ∈ s.entries) :
    x = e ∨ x ∈ t.entries := by
  rw [h.before, List.mem_append, List.mem_cons] at hx
  rw [h.after, List.mem_append]
  tauto

theorem Removed.room (h : Removed s pre e post t) : t.count < t.capacity := by
  have hc := s.count_le
  simp only [count, h.after, h.capacity, List.length_append]
  rw [h.before, List.length_append, List.length_cons] at hc
  omega

/- Removing a marked entry leaves the pending part alone. -/
theorem Removed.marked (h : Removed s pre e post t) (hm : pre.length < s.pos) :
    ∃ mid, s.sent = pre ++ e :: mid ∧ t.sent = pre ++ mid ∧ t.pending = s.pending := by
  obtain ⟨k, hk⟩ : ∃ k, s.pos = pre.length + (k+1) := ⟨s.pos - pre.length - 1, by omega⟩
  have ht : t.pos = pre.length + k := by rw [h.pos, if_pos hm]; omega
  refine ⟨post.take k, ?_, ?_, ?_⟩
  · rw [sent, h.before, hk, List.take_length_add_append, List.take_succ_cons]
  · rw [sent, h.after, ht, List.take_length_add_append]
  · rw [pending, pending, h.before, h.after, ht, hk, List.drop_length_add_append,
      List.drop_length_add_append, List.drop_succ_cons]

/- Removing the current entry leaves the marked part alone. -/
theorem Removed.current (h : Removed s pre e post t) (hm : pre.length = s.pos) :
    s.sent = pre ∧ s.pending = e :: post ∧ t.sent = pre ∧ t.pending = post := by
  have ht : t.pos = pre.length := by rw [h.pos, if_neg (by omega), hm]
  refine ⟨?_, ?_, ?_, ?_⟩
  · rw [sent, h.before, ← hm, List.take_left']; rfl
  · rw [pending, h.before, ← hm, List.drop_left']; rfl
  · rw [sent, h.after, ht, List.take_left']; rfl
  · rw [pending, h.after, ht, List.drop_left']; rfl

theorem Removed.sent_subset (h : Removed s pre e post t) (hx : x ∈ t.sent) : x ∈ s.sent := by
  by_cases hm : pre.length < s.pos
  · obtain ⟨mid, hs, ht, -⟩ := h.marked hm
    rw [ht, List.mem_append] at hx
    rw [hs, List.mem_append, List.mem_cons]
    tauto
  · have ht : t.pos = s.pos := by rw [h.pos, if_neg hm]
    rw [sent, h.after, ht, List.take_append_of_le_length (by omega)] at hx
    rw [sent, h.before, List.take_append_of_le_length (by omega)]
    exact hx

end Removed

theorem deleteAt_spec (s : Store) (i : ℕ) (e : Entry) (h : s.getAt i = some e) :
    ∃ pre post, Removed s pre e post (s.deleteAt i) := by
  obtain ⟨hi, he⟩ := List.getElem?_eq_some_iff.mp h
  obtain ⟨t, ht⟩ := popAt_of_lt s i hi
  have hd : s.deleteAt i = t := by simp [deleteAt, ht]
  rw [he] at ht
  obtain ⟨pre, post, -, hr⟩ := popAt_spec s t i e ht
  exact ⟨pre, post, hd ▸ hr⟩

theorem popMarkedBy_spec (s t : Store) (kind : Kind) (id : PacketId) (e : Entry)
    (h : s.popMarkedBy kind id = some (e, t)) :
    ∃ pre post, Removed s pre e post t ∧ pre.length < s.pos ∧ e.kind = kind ∧
      e.value.packetId = id ∧ ∀ x ∈ pre, ¬ (x.kind = kind ∧ x.value.packetId = id) := by
  obtain ⟨i, hf, hp⟩ := Option.bind_eq_some_iff.mp h
  obtain ⟨hi, hmatch, hbefore⟩ := List.findIdx?_eq_some_iff_getElem.mp hf
  obtain ⟨pre, post, hlen, hr⟩ := popAt_spec s t i e hp
  have hlt : i < s.pos := by rw [List.length_take] at hi; omega
  have hget : (s.entries.take s.pos)[i] = e := by
    simp only [List.getElem_take, hr.before, ← hlen]
    simp
  rw [hget] at hmatch
  simp only [Bool.and_eq_true, decide_eq_true_eq] at hmatch
  refine ⟨pre, post, hr, by omega, hmatch.1, hmatch.2, ?_⟩
  intro x hx hxm
  obtain ⟨j, hj, rfl⟩ := List.mem_iff_getElem.mp hx
  have hb := hbefore j (by omega)
  simp only [List.getElem_take, hr.before] at hb
  rw [List.getElem_append_left hj] at hb
  simp [hxm] at hb

/- Whatever is marked with the kind and the id is found. -/
theorem popMarkedBy_of_mem (s : Store) (kind : Kind) (id : PacketId) (x : Entry)
    (hx : x ∈ s.sent) (hk : x.kind = kind) (hi : x.value.packetId = id) :
    ∃ e t, s.popMarkedBy kind id = some (e, t) := by
  cases hf : s.find kind id with
  | none =>
    have hn := List.findIdx?_eq_none_iff.mp hf x hx
    simp [hk, hi] at hn
  | some i =>
    obtain ⟨hi', -, -⟩ := List.findIdx?_eq_some_iff_getElem.mp hf
    rw [List.length_take] at hi'
    obtain ⟨t, ht⟩ := popAt_of_lt s i (by omega)
    exact ⟨s.entries[i], t, by simp only [popMarkedBy, hf, Option.bind_some, ht]⟩

theorem shift_spec (s t : Store) (e : Entry) (h : s.shift = some (e, t)) :
    ∃ post, Removed s [] e post t := by
  obtain ⟨pre, post, hlen, hr⟩ := popAt_spec s t 0 e h
  rw [List.length_eq_zero_iff] at hlen
  subst hlen
  exact ⟨post, hr⟩

theorem shift_eq_none (s : Store) : s.shift = none ↔ s.entries = [] := by
  rw [shift, popAt_eq_none, Nat.le_zero, List.length_eq_zero_iff]

/- Dropping the current entry. -/
theorem dropCurrent_spec (s : Store) (e : Entry) (rest : List Entry) (h : s.pending = e :: rest) :
    Removed s s.sent e rest s.dropCurrent := by
  have hlt : s.pos < s.entries.length := by
    by_contra hn
    rw [pending, List.drop_eq_nil_of_le (by omega)] at h
    contradiction
  obtain ⟨t, ht⟩ := popAt_of_lt s s.pos hlt
  have hd : s.dropCurrent = t := by simp [dropCurrent, deleteAt, ht]
  obtain ⟨pre, post, hlen, hr⟩ := popAt_spec s t _ _ ht
  obtain ⟨hs, hp, -, -⟩ := hr.current hlen
  rw [hp] at h
  obtain ⟨he, hr'⟩ := List.cons.inj h
  rw [hd, hs, ← he, ← hr']
  exact hr

/- Marking the current entry moves it from the pending to the sent part. -/
theorem markCurrent_spec (s : Store) (e : Entry) (rest : List Entry) (h : s.pending = e :: rest) :
    s.markCurrent.entries = s.entries ∧ s.markCurrent.capacity = s.capacity ∧
      s.markCurrent.nextPacketId = s.nextPacketId ∧
      s.markCurrent.sent = s.sent ++ [e] ∧ s.markCurrent.pending = rest := by
  have hlt : s.pos < s.entries.length := by
    by_contra hn
    rw [pending, List.drop_eq_nil_of_le (by omega)] at h
    contradiction
  have hget : s.entries[s.pos] = e ∧ s.entries.drop (s.pos+1) = rest := by
    rw [pending, List.drop_eq_getElem_cons hlt] at h
    exact List.cons.inj h
  have hm : s.markCurrent = { s with pos := s.pos + 1, pos_le := hlt } := by simp [markCurrent, hlt]
  rw [hm]
  refine ⟨rfl, rfl, rfl, ?_, hget.2⟩
  simp only [sent]
  rw [List.take_succ_eq_append_getElem hlt, hget.1]

end Store
end LightMqtt
