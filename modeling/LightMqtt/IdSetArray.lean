import LightMqtt.Base.Cells
import LightMqtt.Base.History
import LightMqtt.Base.Machine
import LightMqtt.IdSet

/-!
# The array of the id set (`lmqtt_id_set_t` in `packet.c`)

The functions of the set on the cells they work on, which lie in a larger
memory from the cell `base` on. What the first `count` cells hold is the set of
`IdSet`; how far the block move of a removal reaches is another matter, since
its length is counted with the size of a pointer.
-/

namespace LightMqtt

open Cells

/- The sizes of a pointer and of a packet id, in bytes. -/
def sizeofPointer : ℕ := 8
def sizeofPacketId : ℕ := 2

structure IdSetArray where
  memory : Memory PacketId
  base : ℕ := 0
  capacity : ℕ
  count : ℕ := 0

namespace IdSetArray

def empty (memory : ℕ → PacketId) (base capacity : ℕ) : IdSetArray := { memory := ⟨memory, []⟩, base, capacity }

/- The loop over the first `count` cells. -/
def find (s : IdSetArray) (id : PacketId) : Option ℕ × IdSetArray :=
  let (i, memory) := Memory.scan (fun x => x = id) s.memory s.base s.count
  (i, { s with memory })

/- `lmqtt_id_set_clear` -/
def clear (s : IdSetArray) : IdSetArray := { s with count := 0 }

/- `lmqtt_id_set_contains` -/
def contains (s : IdSetArray) (id : PacketId) : Bool × IdSetArray := ((s.find id).1.isSome, (s.find id).2)

/- `lmqtt_id_set_put` -/
def put (s : IdSetArray) (id : PacketId) : Bool × IdSetArray :=
  if s.capacity ≤ s.count then (false, s)
  else match s.find id with
    | (some _, s) => (false, s)
    | (none, s) => (true, { s with memory := s.memory.write (s.base + s.count) id, count := s.count + 1 })

/- `lmqtt_id_set_remove`: the block move covers `sizeof(&id_set->items[0])`
   bytes, the size of a pointer, for every id behind the one removed. -/
def remove (s : IdSetArray) (id : PacketId) : Bool × IdSetArray :=
  match s.find id with
  | (some i, s) =>
    let bytes := sizeofPointer * (s.count - i - 1)
    (true, { s with
      memory := s.memory.move (s.base + i) (s.base + (i + 1)) (bytes / sizeofPacketId)
      count := s.count - 1 })
  | (none, s) => (false, s)

/- What the set holds. -/
def items (s : IdSetArray) : List PacketId := s.memory.block s.base s.count

end IdSetArray

/-- A call of one of the functions. -/
inductive IdSetOp
  | put (id : PacketId) | remove (id : PacketId) | contains (id : PacketId) | clear
  deriving DecidableEq, Repr

namespace IdSetArray

/- Clearing has no result; it always succeeds. -/
def step : IdSetOp → IdSetArray → Bool × IdSetArray
  | .put id, s => s.put id
  | .remove id, s => s.remove id
  | .contains id, s => s.contains id
  | .clear, s => (true, s.clear)

/-- Two states that differ in the touched cells at most. -/
structure Unchanged (s s' : IdSetArray) : Prop where
  cells : s'.memory.cell = s.memory.cell
  base : s'.base = s.base
  capacity : s'.capacity = s.capacity
  count : s'.count = s.count

end IdSetArray

/- The calls on the list the model of the client works with. -/
def IdSet.step : IdSetOp → IdSet → Bool × IdSet
  | .put id, s => ((s.put id).isSome, (s.put id).getD s)
  | .remove id, s => (s.contains id, s.remove id)
  | .contains id, s => (s.contains id, s)
  | .clear, s => (true, s.clear)

namespace IdSetArray

theorem find_unchanged (s : IdSetArray) (id : PacketId) : Unchanged s (s.find id).2 :=
  ⟨Memory.scan_cell .., rfl, rfl, rfl⟩

theorem Unchanged.items {s s' : IdSetArray} (h : Unchanged s s') : s'.items = s.items := by
  simp only [IdSetArray.items, Memory.block, h.cells, h.base, h.count]

theorem find_fst (s : IdSetArray) (id : PacketId) : (s.find id).1 = s.items.findIdx? (fun x => x = id) :=
  Memory.scan_fst ..

theorem find_isSome (s : IdSetArray) (id : PacketId) : (s.find id).1.isSome = decide (id ∈ s.items) := by
  rw [find_fst, List.findIdx?_isSome]
  by_cases h : id ∈ s.items
  · rw [decide_eq_true h]
    exact List.any_eq_true.mpr ⟨id, h, decide_eq_true rfl⟩
  · rw [decide_eq_false h]
    refine List.any_eq_false.mpr fun x hx => ?_
    rw [decide_eq_true_eq]
    rintro rfl
    exact h hx

theorem put_fst (s : IdSetArray) (id : PacketId) : (s.put id).1 = decide (id ∉ s.items ∧ s.count < s.capacity) := by
  have hfind := s.find_isSome id
  unfold put
  by_cases hc : s.capacity ≤ s.count
  · rw [if_pos hc, decide_eq_false (by omega)]
  · rw [if_neg hc]
    split
    · rename_i i t heq
      rw [heq, Option.isSome_some] at hfind
      have hmem := of_decide_eq_true hfind.symm
      rw [decide_eq_false (by tauto)]
    · rename_i t heq
      rw [heq, Option.isSome_none] at hfind
      have hmem := of_decide_eq_false hfind.symm
      rw [decide_eq_true ⟨hmem, by omega⟩]

theorem remove_fst (s : IdSetArray) (id : PacketId) : (s.remove id).1 = decide (id ∈ s.items) := by
  rw [← find_isSome]
  unfold remove
  split
  · rename_i i t heq
    rw [heq]
    rfl
  · rename_i t heq
    rw [heq]
    rfl

theorem step_unchanged (s : IdSetArray) (op : IdSetOp) (h : (step op s).1 = false) : Unchanged s (step op s).2 := by
  cases op with
  | put id =>
    have hf := s.find_unchanged id
    simp only [step, put] at h ⊢
    by_cases hc : s.capacity ≤ s.count
    · rw [if_pos hc]
      exact ⟨rfl, rfl, rfl, rfl⟩
    · rw [if_neg hc] at h ⊢
      split at h
      · rename_i i t heq
        rw [heq] at hf
        exact hf
      · contradiction
  | remove id =>
    have hf := s.find_unchanged id
    simp only [step, remove] at h ⊢
    split at h
    · contradiction
    · rename_i t heq
      rw [heq] at hf
      exact hf
  | contains id => exact s.find_unchanged id
  | clear => contradiction

theorem put_items (s : IdSetArray) (id : PacketId) (h : (s.put id).1 = true) :
    (s.put id).2.items = s.items ++ [id] ∧ (s.put id).2.capacity = s.capacity := by
  have hf := s.find_unchanged id
  unfold put at h ⊢
  by_cases hc : s.capacity ≤ s.count
  · rw [if_pos hc] at h
    contradiction
  · rw [if_neg hc] at h ⊢
    split at h
    · contradiction
    · rename_i t heq
      rw [heq] at hf
      have hblock := t.memory.block_write t.base t.count id
      have hitems : t.memory.block t.base t.count = s.items := hf.items
      rw [hitems] at hblock
      exact ⟨hblock, hf.capacity⟩

/- The block move reaches at least to the end of the set. -/
theorem remove_items (s : IdSetArray) (id : PacketId) :
    (s.remove id).2.items = s.items.erase id ∧ (s.remove id).2.capacity = s.capacity := by
  have hf := s.find_unchanged id
  have hfst := s.find_fst id
  have herase : s.items.erase id = s.items.eraseP fun x => x = id := by
    rw [List.erase_eq_eraseP]
    congr 1
    funext x
    rw [Bool.eq_iff_iff, beq_iff_eq, decide_eq_true_eq, eq_comm]
  rw [herase, List.eraseP_eq_eraseIdx]
  unfold remove
  split
  · rename_i i t heq
    rw [heq] at hf hfst
    have hlt : i < s.count := by
      obtain ⟨hi, -⟩ := List.findIdx?_eq_some_iff_getElem.mp hfst.symm
      rw [items, Memory.block_length] at hi
      exact hi
    have hreach : t.count - i - 1 ≤ sizeofPointer * (t.count - i - 1) / sizeofPacketId := by
      rw [sizeofPointer, sizeofPacketId]
      omega
    have hblock := t.memory.block_move_eraseIdx t.base (n := t.count) (i := i) (by rw [hf.count]; exact hlt) hreach
    have hitems : t.memory.block t.base t.count = s.items := hf.items
    rw [hitems] at hblock
    rw [← hfst]
    exact ⟨hblock, hf.capacity⟩
  · rename_i t heq
    rw [heq] at hf hfst
    rw [← hfst]
    exact ⟨hf.items, hf.capacity⟩

/-! ### The set an array stands for -/

theorem step_capacity (a : IdSetArray) (op : IdSetOp) : (step op a).2.capacity = a.capacity := by
  cases op with
  | put id =>
    by_cases hok : (a.put id).1 = true
    · exact (a.put_items id hok).2
    · exact (a.step_unchanged (.put id) (Bool.eq_false_iff.mpr hok)).capacity
  | remove id => exact (a.remove_items id).2
  | contains id => rfl
  | clear => rfl

/-- The array holds the set. -/
structure Holds (a : IdSetArray) (s : IdSet) : Prop where
  items : a.items = s.items
  capacity : a.capacity = s.capacity

theorem items_length (a : IdSetArray) : a.items.length = a.count := Memory.block_length ..

theorem Holds.count {a : IdSetArray} {s : IdSet} (h : Holds a s) : a.count = s.count := by
  rw [← a.items_length, h.items, IdSet.count]

theorem Unchanged.holds {a a' : IdSetArray} {s : IdSet} (h : Unchanged a a') (hs : Holds a s) : Holds a' s :=
  ⟨h.items.trans hs.items, h.capacity.trans hs.capacity⟩

/-- Every function does to the array what the function of the model does to the set. -/
theorem step_refines : Machine.Refines Holds step IdSet.step := by
  intro op a s h
  cases op with
  | put id =>
    have hfst := a.put_fst id
    rw [h.items, h.count, h.capacity] at hfst
    simp only [step, IdSet.step]
    cases hp : s.put id with
    | none =>
      have hfail : (a.put id).1 = false := by
        rw [hfst]
        refine decide_eq_false fun hok => ?_
        rcases (s.put_eq_none id).mp hp with hfull | hmem
        · omega
        · exact hok.1 hmem
      exact ⟨hfail, (a.step_unchanged (.put id) hfail).holds h⟩
    | some t =>
      obtain ⟨hmem, hroom, hitems, hcap⟩ := IdSet.put_spec s t id hp
      have hok : (a.put id).1 = true := by rw [hfst, decide_eq_true ⟨hmem, hroom⟩]
      obtain ⟨hi, hc⟩ := a.put_items id hok
      refine ⟨hok, hi.trans ?_, hc.trans (h.capacity.trans hcap.symm)⟩
      rw [h.items, Option.getD_some, hitems]
  | remove id =>
    obtain ⟨hi, hc⟩ := a.remove_items id
    refine ⟨?_, ?_, hc.trans h.capacity⟩
    · rw [Bool.eq_iff_iff]
      simp only [step, IdSet.step]
      rw [remove_fst, decide_eq_true_eq, h.items, IdSet.contains_iff]
    · rw [h.items] at hi
      exact hi
  | contains id =>
    refine ⟨?_, (a.find_unchanged id).holds h⟩
    rw [Bool.eq_iff_iff]
    simp only [step, IdSet.step, contains]
    rw [find_isSome, decide_eq_true_eq, h.items, IdSet.contains_iff]
  | clear => exact ⟨rfl, rfl, h.capacity⟩

/- The call that puts the id, when it succeeds, and those that take it out. -/
def Puts (id : PacketId) (x : IdSetOp × Bool) : Prop := x = (.put id, true)
def Drops (id : PacketId) (x : IdSetOp × Bool) : Prop := x = (.remove id, true) ∨ x.1 = .clear

/-- The array holds a set, the ids of the history that were put and not taken out since. -/
structure Remembers (a : IdSetArray) (l : List (IdSetOp × Bool)) : Prop where
  holds : ∃ s, Holds a s
  mem : ∀ id, id ∈ a.items ↔ History.IsOpen (Puts id) (Drops id) l

theorem step_mem {a : IdSetArray} {s : IdSet} (h : Holds a s) (op : IdSetOp) (id : PacketId) :
    id ∈ (step op a).2.items ↔
      Puts id (op, (step op a).1) ∨ ¬ Drops id (op, (step op a).1) ∧ id ∈ a.items := by
  cases op with
  | put x =>
    simp only [step, Puts, Drops, Prod.mk.injEq, IdSetOp.put.injEq, reduceCtorEq, false_and, or_self, not_false_eq_true,
      true_and]
    by_cases hok : (a.put x).1 = true
    · obtain ⟨hi, -⟩ := a.put_items x hok
      rw [hi, List.mem_append, List.mem_singleton, hok, eq_comm]
      tauto
    · have hfail : (a.put x).1 = false := by simpa using hok
      have hi : (a.put x).2.items = a.items := (a.step_unchanged (.put x) hfail).items
      rw [hi, hfail]
      simp
  | remove x =>
    obtain ⟨hi, -⟩ := a.remove_items x
    have hfst := a.remove_fst x
    have hnodup : a.items.Nodup := by
      rw [h.items]
      exact s.nodup
    simp only [step, Puts, Drops, Prod.mk.injEq, IdSetOp.remove.injEq, reduceCtorEq, false_and, false_or, or_false]
    rw [hi, hnodup.mem_erase_iff, hfst, decide_eq_true_eq]
    constructor
    · rintro ⟨hne, hmem⟩
      exact ⟨fun hx => hne hx.1.symm, hmem⟩
    · rintro ⟨hx, hmem⟩
      refine ⟨?_, hmem⟩
      rintro rfl
      exact hx ⟨rfl, hmem⟩
  | contains x =>
    have hi : (a.contains x).2.items = a.items := (a.find_unchanged x).items
    simp only [step, Puts, Drops, Prod.mk.injEq, reduceCtorEq, false_and, or_self, not_false_eq_true, true_and,
      false_or]
    rw [hi]
  | clear =>
    have hi : a.clear.items = [] := rfl
    simp [step, Puts, Drops, hi]

theorem remembers_step (op : IdSetOp) (a : IdSetArray) (l : List (IdSetOp × Bool)) (h : Remembers a l) :
    Remembers (step op a).2 ((op, (step op a).1) :: l) := by
  obtain ⟨s, hs⟩ := h.holds
  refine ⟨⟨_, (step_refines op a s hs).2⟩, fun id => ?_⟩
  rw [History.isOpen_cons, ← h.mem id]
  exact step_mem hs op id

theorem remembers_empty (memory : ℕ → PacketId) (base capacity : ℕ) : Remembers (empty memory base capacity) [] := by
  refine ⟨⟨.empty capacity, rfl, rfl⟩, fun id => ?_⟩
  constructor
  · intro h
    exact absurd h List.not_mem_nil
  · intro h
    exact absurd h History.not_isOpen_nil

/-- In every history of calls from an empty set the array is a set with a
capacity: its ids are distinct and within the capacity, it contains what was
put and neither removed nor cleared since, and a call that fails changes
nothing. -/
theorem idSetArray_is_set (memory : ℕ → PacketId) (base capacity : ℕ) (ops : List IdSetOp) :
    let a := (Machine.run step ops (empty memory base capacity)).2
    let l := Machine.history step ops (empty memory base capacity)
    a.items.Nodup ∧ a.count ≤ a.capacity ∧ a.capacity = capacity ∧
      (∀ id, (a.contains id).1 = true ↔ History.IsOpen (Puts id) (Drops id) l) ∧
      (∀ id, (a.put id).1 = true ↔ (a.contains id).1 = false ∧ a.count < a.capacity) ∧
      (∀ id, (a.put id).1 = true → (a.put id).2.items = a.items ++ [id]) ∧
      (∀ id, (a.remove id).1 = true ↔ (a.contains id).1 = true) ∧
      (∀ id, (a.remove id).1 = true → (a.remove id).2.items = a.items.filter (· ≠ id)) ∧
      ∀ op, (step op a).1 = false → Unchanged a (step op a).2 := by
  intro a l
  obtain ⟨⟨s, hs⟩, hmem⟩ := Machine.run_history_keeps remembers_step ops (remembers_empty memory base capacity)
  have hnodup : a.items.Nodup := by
    rw [hs.items]
    exact s.nodup
  have hcapacity : a.capacity = capacity := by
    refine Machine.run_keeps (I := fun a : IdSetArray => a.capacity = capacity) ?_ ops rfl
    intro op a ha
    rw [← ha]
    exact a.step_capacity op
  have hcontains : ∀ id, (a.contains id).1 = true ↔ id ∈ a.items := by
    intro id
    rw [contains, find_isSome, decide_eq_true_eq]
  refine ⟨hnodup, ?_, hcapacity, ?_, ?_, ?_, ?_, ?_, fun op => a.step_unchanged op⟩
  · rw [hs.count, hs.capacity]
    exact s.count_le
  · intro id
    rw [hcontains, hmem id]
  · intro id
    rw [put_fst, decide_eq_true_eq, ← hcontains, Bool.not_eq_true]
  · exact fun id hok => (a.put_items id hok).1
  · intro id
    rw [remove_fst, decide_eq_true_eq, hcontains]
  · intro id _
    rw [(a.remove_items id).1, hnodup.erase_eq_filter]
    congr 1
    funext x
    rw [Bool.eq_iff_iff, bne_iff_ne, decide_eq_true_eq]

/-! ### How far a removal reaches -/

/-- The id is found at position `i`. -/
structure FoundAt (a : IdSetArray) (id : PacketId) (i : ℕ) : Prop where
  lt : i < a.count
  cell : a.memory.cell (a.base + i) = id
  before : ∀ j < i, a.memory.cell (a.base + j) ≠ id

theorem find_eq_some (a : IdSetArray) (id : PacketId) (i : ℕ) : (a.find id).1 = some i ↔ a.FoundAt id i := by
  have hget : ∀ j (h : j < a.items.length), a.items[j] = a.memory.cell (a.base + j) := by
    intro j h
    have hj := Memory.block_getElem? a.memory a.base a.count j
    rw [items_length] at h
    rw [if_pos h] at hj
    exact (List.getElem_eq_iff _).mpr hj
  rw [find_fst, List.findIdx?_eq_some_iff_getElem]
  constructor
  · rintro ⟨hi, hmatch, hbefore⟩
    rw [hget i hi, decide_eq_true_eq] at hmatch
    refine ⟨by rw [← items_length]; exact hi, hmatch, fun j hj => ?_⟩
    have hb := hbefore j hj
    rw [hget j (by omega), decide_eq_true_eq] at hb
    exact hb
  · rintro ⟨hi, hcell, hbefore⟩
    rw [← items_length] at hi
    refine ⟨hi, ?_, fun j hj => ?_⟩
    · rw [hget i hi, hcell, decide_eq_true rfl]
    · rw [hget j (by omega), decide_eq_true_eq]
      exact hbefore j hj

theorem FoundAt.unique {a : IdSetArray} {id : PacketId} {i j : ℕ} (h : a.FoundAt id i) (h' : a.FoundAt id j) : i = j := by
  have hi := (a.find_eq_some id i).mpr h
  have hj := (a.find_eq_some id j).mpr h'
  exact Option.some.inj (hi.symm.trans hj)

/- The cells the block move covers, for each id behind the one removed. -/
theorem reach_eq (n : ℕ) : sizeofPointer * n / sizeofPacketId = 4 * n := by
  rw [sizeofPointer, sizeofPacketId]
  omega

/-- A removal keeps to the memory of its set exactly when the id is not found,
or four times the ids behind it still fit in the set. -/
theorem remove_inside_iff (cell : ℕ → PacketId) (base capacity count : ℕ) (id : PacketId) (hc : count ≤ capacity) :
    let a : IdSetArray := ⟨⟨cell, []⟩, base, capacity, count⟩
    ((a.remove id).2.memory.Inside base (base + capacity) ∧
        Memory.SameOutside base (base + capacity) a.memory (a.remove id).2.memory) ↔
      ∀ i, a.FoundAt id i → i + 4 * (count - i - 1) < capacity := by
  intro a
  have hscan : (a.find id).2.memory.Inside base (base + capacity) := by
    have hstart : a.memory.Inside base (base + capacity) := fun j hj => absurd hj List.not_mem_nil
    exact hstart.scan _ (Nat.le_refl base) (by change base + count ≤ _; omega)
  have hf := a.find_unchanged id
  unfold remove
  split
  · rename_i i t heq
    have hat := (a.find_eq_some id i).mp (by rw [heq])
    have hlt : i < count := hat.lt
    rw [heq] at hscan hf
    have hbase : t.base = base := hf.base
    have hcount : t.count = count := hf.count
    have hcells : t.memory.cell = cell := hf.cells
    simp only [reach_eq, hbase, hcount]
    rw [Memory.inside_move]
    constructor
    · rintro ⟨⟨-, hmove⟩, -⟩ j hj
      obtain rfl := hat.unique hj
      by_cases hlast : count - i - 1 = 0
      · omega
      · have hends := hmove (by omega)
        omega
    · intro hfits
      have hroom := hfits i hat
      refine ⟨⟨hscan, fun _ => by omega⟩, fun j hj => ?_⟩
      rw [Memory.move_cell_of_outside _ (by omega), hcells]
  · rename_i t heq
    rw [heq] at hscan hf
    constructor
    · intro _ i hi
      have hsome := (a.find_eq_some id i).mpr hi
      rw [heq] at hsome
      contradiction
    · intro _
      refine ⟨hscan, fun j _ => ?_⟩
      rw [hf.cells]

/- Three ids in a set with room for sixteen. -/
def smallSet : IdSetArray := ⟨⟨fun j => if j = 0 then 3 else if j = 1 then 6 else 9, []⟩, 0, 16, 3⟩

theorem remove_inside_small : smallSet.FoundAt 6 1 ∧ (smallSet.remove 6).2.memory.Inside 0 16 ∧
    Memory.SameOutside 0 16 smallSet.memory (smallSet.remove 6).2.memory := by
  have hat : smallSet.FoundAt 6 1 := ⟨by decide, by decide, by decide⟩
  refine ⟨hat, (remove_inside_iff _ 0 16 3 6 (by decide)).mpr fun i hi => ?_⟩
  obtain rfl := hat.unique hi
  decide

/- A full set of four ids, in a memory that goes on behind it. -/
def fullSet : IdSetArray :=
  (Machine.run step [.put 1, .put 2, .put 3, .put 4] (empty (fun j => UInt16.ofNat (100 + j)) 0 4)).2

theorem remove_beyond : fullSet.items = [1, 2, 3, 4] ∧ fullSet.capacity = 4 ∧ fullSet.memory.Inside 0 4 ∧
    ¬ (fullSet.remove 1).2.memory.Inside 0 4 ∧ ¬ Memory.SameOutside 0 4 fullSet.memory (fullSet.remove 1).2.memory := by
  refine ⟨by decide +kernel, by decide +kernel, ?_, ?_, ?_⟩
  · intro j hj
    have hall : ∀ j ∈ fullSet.memory.touched, j < 4 := by decide +kernel
    exact ⟨Nat.zero_le j, hall j hj⟩
  · intro h
    have h12 : 12 ∈ (fullSet.remove 1).2.memory.touched := by decide +kernel
    have hlt := (h 12 h12).2
    omega
  · intro h
    have h4 : (fullSet.remove 1).2.memory.cell 4 ≠ fullSet.memory.cell 4 := by decide +kernel
    exact h4 (h 4 (.inr (Nat.le_refl 4)))

end IdSetArray
end LightMqtt
