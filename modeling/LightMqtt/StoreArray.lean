import Mathlib.Data.List.InsertIdx
import LightMqtt.Base.Cells
import LightMqtt.Base.Machine
import LightMqtt.Base.MarkedQueue
import LightMqtt.Client

/-!
# The array of the packet store (`store.c`)

The functions of the store on the array they work on, with the two counters of
the source, against a queue of two parts. One routine, `store_pop_at`, does all
removals: it moves everything up to the capacity down by one.
-/

namespace LightMqtt

open Cells

/-- `lmqtt_store_value_t` as it lies in memory. -/
structure ValueCell where
  packetId : PacketId := 0
  value : Ptr := 0
  callback : Ptr := 0
  callbackData : Ptr := 0
  deriving DecidableEq, Repr

/-- `lmqtt_store_entry_t`; the kind is an `int`. -/
structure EntryCell where
  kind : ℤ := 0
  value : ValueCell := {}
  deriving DecidableEq, Repr

/-- What a function of the store returns, with what it writes to `kind` and
`value`. An output the function does not have, or that is NULL, is left 0. -/
structure StoreReply where
  ok : Bool
  kind : ℤ := 0
  value : ValueCell := {}
  deriving DecidableEq, Repr

/- The function is called with NULL for its outputs. -/
def StoreReply.silent (r : StoreReply) : StoreReply := { ok := r.ok }

/- `*kind = entry->kind` and the copy of the value, or zeros. -/
def StoreReply.ofEntry : Option EntryCell → StoreReply
  | some e => ⟨true, e.kind, e.value⟩
  | none => { ok := false }

/-- The part of `lmqtt_store_t` that holds its entries. -/
structure StoreArray where
  entries : Memory EntryCell
  count : ℕ := 0
  pos : ℕ := 0
  capacity : ℕ

namespace StoreArray

/- A store without entries. The array holds whatever the memory held. -/
def empty (capacity : ℕ) (memory : ℕ → EntryCell) : StoreArray := { entries := ⟨memory, []⟩, capacity }

/- `store_find` -/
def find (s : StoreArray) (kind : ℤ) (id : PacketId) : Option ℕ × StoreArray :=
  let (pos, entries) := Memory.scan (fun e => e.kind = kind && e.value.packetId = id) s.entries 0 s.pos
  (pos, { s with entries })

/- `lmqtt_store_get_at` -/
def getAt (s : StoreArray) (pos : ℕ) : StoreReply × StoreArray :=
  if s.count ≤ pos then (.ofEntry none, s)
  else
    let (entry, entries) := s.entries.read pos
    (.ofEntry (some entry), { s with entries })

/- `store_pop_at` -/
def popAt (s : StoreArray) (pos : ℕ) : StoreReply × StoreArray :=
  let (r, s) := s.getAt pos
  if !r.ok then (r, s)
  else
    let s := { s with count := s.count - 1 }
    let s := if pos < s.pos then { s with pos := s.pos - 1 } else s
    (r, { s with entries := s.entries.move pos (pos + 1) (s.capacity - pos - 1) })

/- `lmqtt_store_is_queueable` -/
def isQueueable (s : StoreArray) : Bool := s.count < s.capacity

/- `lmqtt_store_append`; without a value the entry has zeros in its place. -/
def append (s : StoreArray) (kind : ℤ) (value : Option ValueCell) : StoreReply × StoreArray :=
  if !s.isQueueable then ({ ok := false }, s)
  else ({ ok := true }, { s with count := s.count + 1, entries := s.entries.write s.count ⟨kind, value.getD {}⟩ })

/- `lmqtt_store_delete_at` -/
def deleteAt (s : StoreArray) (pos : ℕ) : StoreReply × StoreArray := ((s.popAt pos).1.silent, (s.popAt pos).2)

/- `lmqtt_store_mark_current` -/
def markCurrent (s : StoreArray) : StoreReply × StoreArray :=
  if s.pos < s.count then ({ ok := true }, { s with pos := s.pos + 1 }) else ({ ok := false }, s)

/- `lmqtt_store_drop_current` -/
def dropCurrent (s : StoreArray) : StoreReply × StoreArray := ((s.popAt s.pos).1.silent, (s.popAt s.pos).2)

/- `lmqtt_store_peek` -/
def peek (s : StoreArray) : StoreReply × StoreArray := s.getAt s.pos

/- `lmqtt_store_pop_marked_by`, which has no output for the kind. -/
def popMarkedBy (s : StoreArray) (kind : ℤ) (id : PacketId) : StoreReply × StoreArray :=
  match s.find kind id with
  | (some pos, s) => ({ (s.popAt pos).1 with kind := 0 }, (s.popAt pos).2)
  | (none, s) => ({ ok := false }, s)

/- `lmqtt_store_shift` -/
def shift (s : StoreArray) : StoreReply × StoreArray := s.popAt 0

/- `lmqtt_store_unmark_all`, which always succeeds. -/
def unmarkAll (s : StoreArray) : StoreReply × StoreArray := ({ ok := true }, { s with pos := 0 })

end StoreArray

/-- A call of one of the functions. -/
inductive StoreOp
  | append (kind : ℤ) (value : Option ValueCell) | peek | markCurrent | dropCurrent
  | popMarkedBy (kind : ℤ) (id : PacketId) | shift | deleteAt (pos : ℕ) | getAt (pos : ℕ) | unmarkAll
  deriving DecidableEq, Repr

namespace StoreArray

def step : StoreOp → StoreArray → StoreReply × StoreArray
  | .append kind value, s => s.append kind value
  | .peek, s => s.peek
  | .markCurrent, s => s.markCurrent
  | .dropCurrent, s => s.dropCurrent
  | .popMarkedBy kind id, s => s.popMarkedBy kind id
  | .shift, s => s.shift
  | .deleteAt pos, s => s.deleteAt pos
  | .getAt pos, s => s.getAt pos
  | .unmarkAll, s => s.unmarkAll

/- The first `pos` entries, and the rest up to `count`. -/
def sent (s : StoreArray) : List EntryCell := (s.entries.block 0 s.count).take s.pos
def pending (s : StoreArray) : List EntryCell := (s.entries.block 0 s.count).drop s.pos

/-- Two states of a store that differ in the touched cells at most. -/
structure Unchanged (s s' : StoreArray) : Prop where
  cells : s'.entries.cell = s.entries.cell
  count : s'.count = s.count
  pos : s'.pos = s.pos
  capacity : s'.capacity = s.capacity

end StoreArray

/- The entries `lmqtt_store_pop_marked_by` looks for. -/
def EntryCell.has (kind : ℤ) (id : PacketId) (e : EntryCell) : Bool := e.kind = kind && e.value.packetId = id

/-- What a call means for a queue of two parts with room for `capacity` entries. -/
def StoreOp.onQueue (capacity : ℕ) : StoreOp → MarkedQueue EntryCell → StoreReply × MarkedQueue EntryCell
  | .append kind value, q =>
    if q.all.length < capacity then ({ ok := true }, q.append ⟨kind, value.getD {}⟩) else ({ ok := false }, q)
  | .peek, q => (.ofEntry q.peek, q)
  | .markCurrent, q => ({ ok := !q.pending.isEmpty }, q.mark)
  | .dropCurrent, q => ({ ok := !q.pending.isEmpty }, q.drop)
  | .popMarkedBy kind id, q =>
    ({ StoreReply.ofEntry (q.sent.find? (EntryCell.has kind id)) with kind := 0 }, q.popSent (EntryCell.has kind id))
  | .shift, q => (.ofEntry q.all[0]?, q.removeAt 0)
  | .deleteAt pos, q => ({ ok := pos < q.all.length }, q.removeAt pos)
  | .getAt pos, q => (.ofEntry q.all[pos]?, q)
  | .unmarkAll, q => ({ ok := true }, q.unmark)

/-! ### Calls that fail -/

namespace StoreArray

theorem Unchanged.refl (s : StoreArray) : Unchanged s s := ⟨rfl, rfl, rfl, rfl⟩

theorem Unchanged.trans {s t u : StoreArray} (h : Unchanged s t) (h' : Unchanged t u) : Unchanged s u :=
  ⟨h'.cells.trans h.cells, h'.count.trans h.count, h'.pos.trans h.pos, h'.capacity.trans h.capacity⟩

theorem getAt_unchanged (s : StoreArray) (pos : ℕ) : Unchanged s (s.getAt pos).2 := by
  unfold getAt
  by_cases h : s.count ≤ pos
  · rw [if_pos h]
    exact .refl s
  · rw [if_neg h]
    exact ⟨rfl, rfl, rfl, rfl⟩

theorem getAt_ok (s : StoreArray) (pos : ℕ) : (s.getAt pos).1.ok = decide (pos < s.count) := by
  unfold getAt
  by_cases h : s.count ≤ pos
  · rw [if_pos h, decide_eq_false (by omega)]
    rfl
  · rw [if_neg h, decide_eq_true (by omega)]
    rfl

theorem popAt_ok (s : StoreArray) (pos : ℕ) : (s.popAt pos).1 = (s.getAt pos).1 := by
  unfold popAt
  by_cases h : (s.getAt pos).1.ok = true
  · simp only [h, Bool.not_true, Bool.false_eq_true, if_false]
  · simp only [h, Bool.not_false, if_true]

theorem popAt_unchanged (s : StoreArray) (pos : ℕ) (h : (s.popAt pos).1.ok = false) : Unchanged s (s.popAt pos).2 := by
  rw [popAt_ok] at h
  have hs : (s.popAt pos).2 = (s.getAt pos).2 := by
    simp only [popAt, h, Bool.not_false, if_true]
  rw [hs]
  exact s.getAt_unchanged pos

theorem find_unchanged (s : StoreArray) (kind : ℤ) (id : PacketId) : Unchanged s (s.find kind id).2 :=
  ⟨Memory.scan_cell .., rfl, rfl, rfl⟩

theorem find_fst (s : StoreArray) (kind : ℤ) (id : PacketId) :
    (s.find kind id).1 = (s.entries.block 0 s.pos).findIdx? (EntryCell.has kind id) := Memory.scan_fst ..

theorem step_unchanged (s : StoreArray) (op : StoreOp) (h : (step op s).1.ok = false) : Unchanged s (step op s).2 := by
  cases op with
  | append kind value =>
    simp only [step, append] at h ⊢
    by_cases hq : s.isQueueable = true
    · simp [hq] at h
    · simp only [hq, Bool.not_false, if_true]
      exact .refl s
  | peek => exact s.getAt_unchanged s.pos
  | markCurrent =>
    simp only [step, markCurrent] at h ⊢
    by_cases hm : s.pos < s.count
    · simp [hm] at h
    · rw [if_neg hm]
      exact .refl s
  | dropCurrent => exact s.popAt_unchanged s.pos h
  | popMarkedBy kind id =>
    have hf := s.find_unchanged kind id
    simp only [step, popMarkedBy] at h ⊢
    split at h
    · rename_i pos t heq
      rw [heq] at hf
      exact hf.trans (t.popAt_unchanged pos h)
    · rename_i t heq
      rw [heq] at hf
      exact hf
  | shift => exact s.popAt_unchanged 0 h
  | deleteAt pos => exact s.popAt_unchanged pos h
  | getAt pos => exact s.getAt_unchanged pos
  | unmarkAll => contradiction

/-! ### The queue an array stands for -/

/-- The array holds the queue, and kept to its bounds so far. -/
structure Holds (capacity : ℕ) (s : StoreArray) (q : MarkedQueue EntryCell) : Prop where
  queue : q = .ofList (s.entries.block 0 s.count) s.pos
  pos_le : s.pos ≤ s.count
  count_le : s.count ≤ s.capacity
  capacity_eq : s.capacity = capacity
  inside : s.entries.Inside 0 capacity

section Holds
variable {capacity : ℕ} {s : StoreArray} {q : MarkedQueue EntryCell}

theorem holds_empty (capacity : ℕ) (memory : ℕ → EntryCell) : Holds capacity (empty capacity memory) {} :=
  ⟨rfl, Nat.le_refl 0, Nat.zero_le _, rfl, fun _ h => absurd h List.not_mem_nil⟩

theorem Holds.all (h : Holds capacity s q) : q.all = s.entries.block 0 s.count := by
  rw [h.queue, MarkedQueue.ofList_all]

theorem Holds.length (h : Holds capacity s q) : q.all.length = s.count := by
  rw [h.all, Memory.block_length]

theorem Holds.getElem? (h : Holds capacity s q) (pos : ℕ) :
    q.all[pos]? = if pos < s.count then some (s.entries.cell pos) else none := by
  rw [h.all, Memory.block_getElem?, Nat.zero_add]

theorem Holds.le_length (h : Holds capacity s q) : s.pos ≤ (s.entries.block 0 s.count).length := by
  rw [Memory.block_length]
  exact h.pos_le

theorem Holds.pending_isEmpty (h : Holds capacity s q) : q.pending.isEmpty = !decide (s.pos < s.count) := by
  have hnil := MarkedQueue.ofList_pending_eq_nil (s.entries.block 0 s.count) s.pos
  rw [Memory.block_length, ← h.queue] at hnil
  by_cases hp : s.pos < s.count
  · have hne : q.pending ≠ [] := fun hn => by have := hnil.mp hn; omega
    simp [hp, hne]
  · have hn := hnil.mpr (by omega)
    simp [hp, hn]

/- Reading cells of the array. -/
theorem Holds.reads (h : Holds capacity s q) {entries : Memory EntryCell} (hc : entries.cell = s.entries.cell)
    (hi : entries.Inside 0 capacity) : Holds capacity { s with entries } q := by
  refine ⟨?_, h.pos_le, h.count_le, h.capacity_eq, hi⟩
  rw [h.queue]
  simp only [Memory.block, hc]

theorem getAt_holds (h : Holds capacity s q) (pos : ℕ) :
    (s.getAt pos).1 = .ofEntry q.all[pos]? ∧ Holds capacity (s.getAt pos).2 q := by
  have hcount := h.count_le
  have hcap := h.capacity_eq
  unfold getAt
  rw [h.getElem?]
  by_cases hp : s.count ≤ pos
  · rw [if_pos hp, if_neg (by omega)]
    exact ⟨rfl, h⟩
  · rw [if_neg hp, if_pos (by omega)]
    exact ⟨rfl, h.reads rfl (h.inside.read (Nat.zero_le _) (by omega))⟩

/-- All removals: the entry at the position leaves, and the mark follows. -/
theorem popAt_holds (h : Holds capacity s q) (pos : ℕ) :
    (s.popAt pos).1 = .ofEntry q.all[pos]? ∧ Holds capacity (s.popAt pos).2 (q.removeAt pos) := by
  obtain ⟨hreply, hget⟩ := getAt_holds h pos
  refine ⟨by rw [popAt_ok, hreply], ?_⟩
  have hpos := h.pos_le
  have hcount := h.count_le
  have hcap := h.capacity_eq
  have hq := MarkedQueue.ofList_eraseIdx (i := pos) h.le_length
  rw [← h.queue] at hq
  by_cases hp : pos < s.count
  · have hok : (s.getAt pos).1.ok = true := by rw [getAt_ok, decide_eq_true hp]
    have hinside := hget.inside
    have hsame := s.getAt_unchanged pos
    have hblock := Memory.block_move_eraseIdx (s.getAt pos).2.entries 0 (n := s.count) (i := pos)
      (k := s.capacity - pos - 1) hp (by omega)
    have hold : (s.getAt pos).2.entries.block 0 s.count = s.entries.block 0 s.count := by
      simp only [Memory.block, hsame.cells]
    rw [Nat.zero_add, hold] at hblock
    have hmoved : ((s.getAt pos).2.entries.move pos (pos + 1) (s.capacity - pos - 1)).Inside 0 capacity := by
      rw [Memory.inside_move]
      refine ⟨hinside, fun _ => ?_⟩
      omega
    simp only [popAt, hok, Bool.not_true, Bool.false_eq_true, if_false, hsame.count, hsame.pos, hsame.capacity]
    by_cases hm : pos < s.pos
    · rw [if_pos hm] at hq ⊢
      refine ⟨?_, by simp only; omega, by simp only; omega, hcap, hmoved⟩
      rw [← hq, ← hblock]
    · rw [if_neg hm] at hq ⊢
      refine ⟨?_, by simp only; omega, by simp only; omega, hcap, hmoved⟩
      rw [← hq, ← hblock]
  · have hok : (s.getAt pos).1.ok = false := by rw [getAt_ok, decide_eq_false hp]
    have hstays : q.removeAt pos = q := by
      rw [← hq, if_neg (by omega), h.queue, List.eraseIdx_of_length_le (by rw [Memory.block_length]; omega)]
    simp only [popAt, hok, Bool.not_false, if_true]
    rw [hstays]
    exact hget

theorem find_holds (h : Holds capacity s q) (kind : ℤ) (id : PacketId) : Holds capacity (s.find kind id).2 q := by
  have hpos := h.pos_le
  have hcount := h.count_le
  have hcap := h.capacity_eq
  exact h.reads (Memory.scan_cell ..) (h.inside.scan _ (Nat.le_refl 0) (by omega))

/- The search looks at the sent part only. -/
theorem popMarkedBy_holds (h : Holds capacity s q) (kind : ℤ) (id : PacketId) :
    (s.popMarkedBy kind id).1 = { StoreReply.ofEntry (q.sent.find? (EntryCell.has kind id)) with kind := 0 } ∧
      Holds capacity (s.popMarkedBy kind id).2 (q.popSent (EntryCell.has kind id)) := by
  have hfound := find_holds h kind id
  have hfst := s.find_fst kind id
  rw [← Memory.block_take s.entries 0 s.pos s.count h.pos_le] at hfst
  unfold popMarkedBy
  split
  · rename_i pos t heq
    rw [heq] at hfound hfst
    obtain ⟨hlt, hget, hremove⟩ := MarkedQueue.ofList_popSent h.le_length hfst.symm
    rw [← h.queue] at hget hremove
    have hall : q.all[pos]? = (s.entries.block 0 s.count)[pos]? := by rw [h.all]
    obtain ⟨hreply, hpop⟩ := popAt_holds hfound pos
    rw [hremove] at hpop
    refine ⟨?_, hpop⟩
    rw [hreply, hall, hget]
  · rename_i t heq
    rw [heq] at hfound hfst
    obtain ⟨hget, hstays⟩ := MarkedQueue.ofList_popSent_none hfst.symm
    rw [← h.queue] at hget hstays
    rw [hget, hstays]
    exact ⟨rfl, hfound⟩

theorem append_holds (h : Holds capacity s q) (kind : ℤ) (value : Option ValueCell) :
    (s.append kind value).1 = ((StoreOp.append kind value).onQueue capacity q).1 ∧
      Holds capacity (s.append kind value).2 ((StoreOp.append kind value).onQueue capacity q).2 := by
  have hcap := h.capacity_eq
  have hpos := h.pos_le
  simp only [append, isQueueable, StoreOp.onQueue, h.length]
  by_cases hroom : s.count < capacity
  · have hblock := s.entries.block_write 0 s.count ⟨kind, value.getD {}⟩
    rw [Nat.zero_add] at hblock
    have hqueue := MarkedQueue.ofList_append h.le_length ⟨kind, value.getD {}⟩
    rw [← h.queue, ← hblock] at hqueue
    simp only [hcap, hroom, decide_true, Bool.not_true, Bool.false_eq_true, if_false, if_true]
    refine ⟨trivial, hqueue.symm, by simp only; omega, by simp only; omega, rfl, ?_⟩
    exact h.inside.write _ (Nat.zero_le _) hroom
  · simp only [hcap, hroom, decide_false, Bool.not_false, if_true, if_false]
    exact ⟨trivial, h⟩

theorem markCurrent_holds (h : Holds capacity s q) :
    s.markCurrent.1 = { ok := !q.pending.isEmpty } ∧ Holds capacity s.markCurrent.2 q.mark := by
  rw [h.pending_isEmpty]
  unfold markCurrent
  by_cases hm : s.pos < s.count
  · have hmark := MarkedQueue.ofList_mark
      (show s.pos < (s.entries.block 0 s.count).length by rw [Memory.block_length]; exact hm)
    rw [← h.queue] at hmark
    rw [if_pos hm, decide_eq_true hm]
    exact ⟨rfl, hmark.symm, hm, h.count_le, h.capacity_eq, h.inside⟩
  · have hmark := MarkedQueue.ofList_mark_of_le
      (show (s.entries.block 0 s.count).length ≤ s.pos by rw [Memory.block_length]; omega)
    rw [← h.queue] at hmark
    rw [if_neg hm, decide_eq_false hm, hmark]
    exact ⟨rfl, h⟩

/- What a removal answers when its caller asks for no output. -/
theorem popAt_silent (s : StoreArray) (pos : ℕ) : (s.popAt pos).1.silent = { ok := decide (pos < s.count) } := by
  rw [popAt_ok, StoreReply.silent, getAt_ok]

theorem dropCurrent_holds (h : Holds capacity s q) :
    s.dropCurrent.1 = { ok := !q.pending.isEmpty } ∧ Holds capacity s.dropCurrent.2 q.drop := by
  obtain ⟨-, hpop⟩ := popAt_holds h s.pos
  have hdrop := MarkedQueue.ofList_drop h.le_length
  rw [← h.queue] at hdrop
  rw [hdrop] at hpop
  refine ⟨?_, hpop⟩
  rw [h.pending_isEmpty, Bool.not_not]
  exact popAt_silent s s.pos

end Holds

/-- Every function does to the array what its call means for the queue. -/
theorem step_refines (capacity : ℕ) : Machine.Refines (Holds capacity) step (StoreOp.onQueue capacity) := by
  intro op s q h
  cases op with
  | append kind value => exact append_holds h kind value
  | peek =>
    have hget := getAt_holds h s.pos
    have hpeek := MarkedQueue.ofList_peek (s.entries.block 0 s.count) s.pos
    rw [← h.queue, ← h.all] at hpeek
    rw [← hpeek] at hget
    exact hget
  | markCurrent => exact markCurrent_holds h
  | dropCurrent => exact dropCurrent_holds h
  | popMarkedBy kind id => exact popMarkedBy_holds h kind id
  | shift => exact popAt_holds h 0
  | deleteAt pos =>
    refine ⟨?_, (popAt_holds h pos).2⟩
    simp only [StoreOp.onQueue, h.length]
    exact popAt_silent s pos
  | getAt pos => exact getAt_holds h pos
  | unmarkAll =>
    refine ⟨rfl, ?_, Nat.zero_le _, h.count_le, h.capacity_eq, h.inside⟩
    have hzero := MarkedQueue.ofList_zero (s.entries.block 0 s.count) s.pos
    rw [← h.queue] at hzero
    exact hzero.symm

/-- In every history of calls from an empty store the array is the queue: the
calls answer as the queue answers, the two parts are the same, the counters
keep their order, no cell at or behind the capacity is touched, and a call that
fails changes nothing. -/
theorem storeArray_is_queue (capacity : ℕ) (memory : ℕ → EntryCell) (ops : List StoreOp) :
    let r := Machine.run step ops (empty capacity memory)
    let q := Machine.run (StoreOp.onQueue capacity) ops {}
    r.1 = q.1 ∧ r.2.sent = q.2.sent ∧ r.2.pending = q.2.pending ∧
      r.2.pos ≤ r.2.count ∧ r.2.count ≤ r.2.capacity ∧ r.2.capacity = capacity ∧
      (∀ i ∈ r.2.entries.touched, i < capacity) ∧
      ∀ op, (step op r.2).1.ok = false → Unchanged r.2 (step op r.2).2 := by
  intro r q
  obtain ⟨hreplies, h⟩ := Machine.run_refines (step_refines capacity) ops (holds_empty capacity memory)
  have hqueue := h.queue
  refine ⟨hreplies, ?_, ?_, h.pos_le, h.count_le, h.capacity_eq, fun i hi => (h.inside i hi).2, ?_⟩
  · rw [hqueue]
    rfl
  · rw [hqueue]
    rfl
  · exact fun op => r.2.step_unchanged op

end StoreArray

/-! ### The store of the client -/

/- The number of a kind (`lmqtt_kind_t`). -/
def Kind.number (k : Kind) : ℤ := 200 + k.ctorIdx

theorem Kind.number_inj (k k' : Kind) : k.number = k'.number ↔ k = k' := by
  cases k <;> cases k' <;> decide

/-- A call as the client makes it. -/
inductive StoreCall
  | append (e : Entry) | peek | markCurrent | dropCurrent
  | popMarkedBy (kind : Kind) (id : PacketId) | shift | deleteAt (pos : ℕ) | getAt (pos : ℕ) | unmarkAll

section Cells
variable (pointers : Option Callback → Ptr × Ptr)

/- An entry of the client as it lies in memory, given where its callback and its data are. -/
def Entry.cell (e : Entry) : EntryCell :=
  ⟨e.kind.number, ⟨e.value.packetId, e.value.value, (pointers e.value.callback).1, (pointers e.value.callback).2⟩⟩

def StoreCall.op : StoreCall → StoreOp
  | .append e => .append e.kind.number (some (e.cell pointers).value)
  | .peek => .peek
  | .markCurrent => .markCurrent
  | .dropCurrent => .dropCurrent
  | .popMarkedBy kind id => .popMarkedBy kind.number id
  | .shift => .shift
  | .deleteAt pos => .deleteAt pos
  | .getAt pos => .getAt pos
  | .unmarkAll => .unmarkAll

namespace Store

/- An entry and the store without it, or the store as it was. -/
def popped (s : Store) (r : Option (Entry × Store)) : StoreReply × Store :=
  (.ofEntry (r.map fun r => r.1.cell pointers), (r.map (·.2)).getD s)

/- The calls on the lists the model of the client works with. -/
def step : StoreCall → Store → StoreReply × Store
  | .append e, s => ({ ok := (s.append e).isSome }, (s.append e).getD s)
  | .peek, s => (.ofEntry (s.peek.map (Entry.cell pointers)), s)
  | .markCurrent, s => ({ ok := s.hasCurrent }, s.markCurrent)
  | .dropCurrent, s => ({ ok := s.hasCurrent }, s.dropCurrent)
  | .popMarkedBy kind id, s =>
    ({ (s.popped pointers (s.popMarkedBy kind id)).1 with kind := 0 }, (s.popped pointers (s.popMarkedBy kind id)).2)
  | .shift, s => s.popped pointers s.shift
  | .deleteAt pos, s => ({ ok := (s.getAt pos).isSome }, s.deleteAt pos)
  | .getAt pos, s => (.ofEntry ((s.getAt pos).map (Entry.cell pointers)), s)
  | .unmarkAll, s => ({ ok := true }, s.unmarkAll)

/-- The list of the store is the queue. -/
structure Shows (capacity : ℕ) (s : Store) (q : MarkedQueue EntryCell) : Prop where
  queue : q = .ofList (s.entries.map (Entry.cell pointers)) s.pos
  capacity_eq : s.capacity = capacity

variable {pointers} {capacity : ℕ} {s : Store} {q : MarkedQueue EntryCell}

theorem Shows.all (h : Shows pointers capacity s q) : q.all = s.entries.map (Entry.cell pointers) := by
  rw [h.queue, MarkedQueue.ofList_all]

theorem Shows.getElem? (h : Shows pointers capacity s q) (pos : ℕ) :
    q.all[pos]? = (s.getAt pos).map (Entry.cell pointers) := by
  rw [h.all, List.getElem?_map, getAt]

variable (pointers) in
theorem pos_le_cells (s : Store) : s.pos ≤ (s.entries.map (Entry.cell pointers)).length := by
  rw [List.length_map]
  exact s.pos_le

theorem Shows.peek (h : Shows pointers capacity s q) : q.peek = s.peek.map (Entry.cell pointers) := by
  rw [h.queue, MarkedQueue.ofList_peek, List.getElem?_map, Store.peek, getAt]

theorem Shows.hasCurrent (h : Shows pointers capacity s q) : s.hasCurrent = !q.pending.isEmpty := by
  have hpeek := h.peek
  rw [MarkedQueue.peek] at hpeek
  have hsome : q.pending.head?.isSome = s.hasCurrent := by
    rw [hpeek, Option.isSome_map, Store.hasCurrent]
  rw [← hsome]
  cases q.pending with
  | nil => rfl
  | cons x rest => rfl

theorem popAt_shows (h : Shows pointers capacity s q) (pos : ℕ) :
    (s.popped pointers (s.popAt pos)).1 = .ofEntry q.all[pos]? ∧
      Shows pointers capacity (s.popped pointers (s.popAt pos)).2 (q.removeAt pos) := by
  have hremove := MarkedQueue.ofList_eraseIdx (i := pos) (s.pos_le_cells pointers)
  rw [← h.queue, List.eraseIdx_map] at hremove
  rw [h.getElem?, getAt]
  by_cases hp : pos < s.entries.length
  · rw [List.getElem?_eq_getElem hp, popAt, dif_pos hp]
    exact ⟨rfl, hremove.symm, h.capacity_eq⟩
  · have hpos := s.pos_le
    rw [if_neg (by omega), List.eraseIdx_of_length_le (by omega), ← h.queue] at hremove
    rw [List.getElem?_eq_none (by omega), popAt, dif_neg hp, ← hremove]
    exact ⟨rfl, h⟩

theorem deleteAt_shows (h : Shows pointers capacity s q) (pos : ℕ) :
    Shows pointers capacity (s.deleteAt pos) (q.removeAt pos) := (popAt_shows h pos).2

theorem append_shows (h : Shows pointers capacity s q) (e : Entry) :
    (s.step pointers (.append e)).1 = (((StoreCall.append e).op pointers).onQueue capacity q).1 ∧
      Shows pointers capacity (s.step pointers (.append e)).2 (((StoreCall.append e).op pointers).onQueue capacity q).2 := by
  have hlen : q.all.length = s.count := by rw [h.all, List.length_map, count]
  have hcap := h.capacity_eq
  simp only [step, StoreCall.op, StoreOp.onQueue, hlen]
  by_cases hroom : s.count < capacity
  · obtain ⟨t, ht⟩ := s.append_isSome e (by omega)
    have hspec := append_spec s t e ht
    have hqueue := MarkedQueue.ofList_append (s.pos_le_cells pointers) (e.cell pointers)
    rw [← h.queue] at hqueue
    rw [if_pos hroom, ht]
    refine ⟨rfl, ?_, hspec.capacity.trans hcap⟩
    simp only [Option.getD_some]
    rw [hspec.entries, hspec.pos, List.map_append]
    exact hqueue.symm
  · have hfull := (s.append_eq_none e).mpr (by omega)
    rw [if_neg hroom, hfull]
    exact ⟨rfl, h⟩

theorem markCurrent_shows (h : Shows pointers capacity s q) : Shows pointers capacity s.markCurrent q.mark := by
  unfold markCurrent
  by_cases hm : s.pos < s.entries.length
  · have hmark := MarkedQueue.ofList_mark
      (show s.pos < (s.entries.map (Entry.cell pointers)).length by rw [List.length_map]; exact hm)
    rw [← h.queue] at hmark
    rw [dif_pos hm]
    exact ⟨hmark.symm, h.capacity_eq⟩
  · have hmark := MarkedQueue.ofList_mark_of_le
      (show (s.entries.map (Entry.cell pointers)).length ≤ s.pos by rw [List.length_map]; omega)
    rw [← h.queue] at hmark
    rw [dif_neg hm, hmark]
    exact h

theorem popMarkedBy_shows (h : Shows pointers capacity s q) (kind : Kind) (id : PacketId) :
    (s.popped pointers (s.popMarkedBy kind id)).1 = .ofEntry (q.sent.find? (EntryCell.has kind.number id)) ∧
      Shows pointers capacity (s.popped pointers (s.popMarkedBy kind id)).2
        (q.popSent (EntryCell.has kind.number id)) := by
  have hfind : ((s.entries.map (Entry.cell pointers)).take s.pos).findIdx? (EntryCell.has kind.number id) =
      s.find kind id := by
    rw [← List.map_take, List.findIdx?_map, find]
    congr 1
    funext e
    have hkind : decide (e.kind.number = kind.number) = decide (e.kind = kind) :=
      decide_eq_decide.mpr (Kind.number_inj e.kind kind)
    rw [← hkind]
    rfl
  unfold popMarkedBy
  cases hf : s.find kind id with
  | none =>
    obtain ⟨hget, hstays⟩ := MarkedQueue.ofList_popSent_none (hfind.trans hf)
    rw [← h.queue] at hget hstays
    rw [hget, hstays]
    exact ⟨rfl, h⟩
  | some i =>
    obtain ⟨-, hget, hremove⟩ := MarkedQueue.ofList_popSent (s.pos_le_cells pointers) (hfind.trans hf)
    rw [← h.queue] at hget hremove
    obtain ⟨hreply, hpop⟩ := popAt_shows h i
    rw [hremove] at hpop
    rw [h.all] at hreply
    rw [hget]
    exact ⟨hreply, hpop⟩

variable (pointers) in
/-- Every function does to the list what its call means for the queue. -/
theorem step_shows (capacity : ℕ) : Machine.Refines (Shows pointers capacity) (fun c s => step pointers c s)
    fun c => (c.op pointers).onQueue capacity := by
  intro c s q h
  cases c with
  | append e => exact append_shows h e
  | peek => exact ⟨by simp only [step, StoreCall.op, StoreOp.onQueue, h.peek], h⟩
  | markCurrent => exact ⟨by simp only [step, StoreCall.op, StoreOp.onQueue, h.hasCurrent], markCurrent_shows h⟩
  | dropCurrent =>
    have hdrop := MarkedQueue.ofList_drop (s.pos_le_cells pointers)
    rw [← h.queue] at hdrop
    refine ⟨by simp only [step, StoreCall.op, StoreOp.onQueue, h.hasCurrent], ?_⟩
    simp only [StoreCall.op, StoreOp.onQueue]
    rw [← hdrop]
    exact deleteAt_shows h s.pos
  | popMarkedBy kind id =>
    obtain ⟨hreply, hnext⟩ := popMarkedBy_shows h kind id
    refine ⟨?_, hnext⟩
    simp only [step, StoreCall.op, StoreOp.onQueue, hreply]
  | shift => exact popAt_shows h 0
  | deleteAt pos =>
    refine ⟨?_, deleteAt_shows h pos⟩
    simp only [step, StoreCall.op, StoreOp.onQueue, h.all, List.length_map, getAt]
    by_cases hp : pos < s.entries.length
    · rw [List.getElem?_eq_getElem hp, decide_eq_true hp]
      rfl
    · rw [List.getElem?_eq_none (by omega), decide_eq_false hp]
      rfl
  | getAt pos => exact ⟨by simp only [step, StoreCall.op, StoreOp.onQueue, h.getElem?], h⟩
  | unmarkAll =>
    have hzero := MarkedQueue.ofList_zero (s.entries.map (Entry.cell pointers)) s.pos
    rw [← h.queue] at hzero
    exact ⟨rfl, hzero.symm, h.capacity_eq⟩

variable (pointers) in
/-- In every history of calls the array and the list of the client's model give
the same answers and hold the same entries on both sides of the mark. -/
theorem array_is_store (capacity : ℕ) (memory : ℕ → EntryCell) (calls : List StoreCall) :
    let r := Machine.run StoreArray.step (calls.map (StoreCall.op pointers)) (.empty capacity memory)
    let s := Machine.run (step pointers) calls (.empty capacity)
    r.1 = s.1 ∧ r.2.sent = s.2.sent.map (Entry.cell pointers) ∧ r.2.pending = s.2.pending.map (Entry.cell pointers) := by
  intro r s
  obtain ⟨hreplies, ha⟩ := Machine.run_refines (StoreArray.step_refines capacity) (calls.map (StoreCall.op pointers))
    (StoreArray.holds_empty capacity memory)
  have hstart : Shows pointers capacity (.empty capacity) {} := ⟨rfl, rfl⟩
  obtain ⟨hanswers, hs⟩ := Machine.run_refines (step_shows pointers capacity) calls hstart
  rw [Machine.run_map (StoreOp.onQueue capacity)] at hreplies ha
  have hqueue := ha.queue.symm.trans hs.queue
  obtain ⟨hsent, hpending⟩ := MarkedQueue.mk.inj hqueue
  refine ⟨hreplies.trans hanswers.symm, ?_, ?_⟩
  · rw [Store.sent, List.map_take]
    exact hsent
  · rw [Store.pending, List.map_drop]
    exact hpending

end Store
end Cells
end LightMqtt
