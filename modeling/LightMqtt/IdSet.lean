import LightMqtt.Core

/-!
# The set of packet ids (`lmqtt_id_set_t` in `packet.c`)

The ids of the QoS 2 messages that were delivered and not yet released by the
server. The set stands for the first `count` cells of its own memory.
-/

namespace LightMqtt

structure IdSet where
  items : List PacketId := []
  capacity : ℕ
  nodup : items.Nodup := by simp
  count_le : items.length ≤ capacity := by simp
  deriving DecidableEq, Repr

namespace IdSet

def count (s : IdSet) : ℕ := s.items.length

/- An empty set in a buffer of `capacity` identifiers. -/
def empty (capacity : ℕ) : IdSet := { items := [], capacity, count_le := Nat.zero_le capacity }

/- `lmqtt_id_set_clear` -/
def clear (s : IdSet) : IdSet := .empty s.capacity

/- `lmqtt_id_set_contains` -/
def contains (s : IdSet) (id : PacketId) : Bool := s.items.contains id

/- `lmqtt_id_set_put`; `none` where the C function returns 0. -/
def put (s : IdSet) (id : PacketId) : Option IdSet :=
  if hc : s.capacity ≤ s.count then none
  else if hm : id ∈ s.items then none
  else some { s with
    items := s.items ++ [id]
    nodup := by
      rw [List.nodup_append]
      exact ⟨s.nodup, List.nodup_singleton id, by
        rintro a ha b hb rfl
        rw [List.mem_singleton] at hb
        exact hm (hb ▸ ha)⟩
    count_le := by rw [List.length_append, List.length_singleton]; exact Nat.lt_of_not_le hc }

/- `lmqtt_id_set_remove`: the cells behind the first hit move down by one. -/
def remove (s : IdSet) (id : PacketId) : IdSet := { s with
  items := s.items.erase id
  nodup := s.nodup.erase id
  count_le := (List.erase_sublist.length_le).trans s.count_le }

theorem contains_iff (s : IdSet) (id : PacketId) : s.contains id = true ↔ id ∈ s.items :=
  List.contains_iff_mem

theorem put_spec (s t : IdSet) (id : PacketId) (h : s.put id = some t) :
    id ∉ s.items ∧ s.count < s.capacity ∧ t.items = s.items ++ [id] ∧ t.capacity = s.capacity := by
  unfold put at h
  split at h
  · contradiction
  · split at h
    · contradiction
    · rename_i hc hm
      cases h
      exact ⟨hm, Nat.lt_of_not_le hc, rfl, rfl⟩

theorem put_eq_none (s : IdSet) (id : PacketId) :
    s.put id = none ↔ s.capacity ≤ s.count ∨ id ∈ s.items := by
  unfold put
  split
  · simp_all
  · split <;> simp_all

theorem mem_put {s t : IdSet} {id x : PacketId} (h : s.put id = some t) :
    x ∈ t.items ↔ x ∈ s.items ∨ x = id := by
  rw [(put_spec s t id h).2.2.1, List.mem_append, List.mem_singleton]

theorem mem_remove {s : IdSet} {id x : PacketId} : x ∈ (s.remove id).items ↔ x ∈ s.items ∧ x ≠ id := by
  simp only [remove]
  rw [s.nodup.mem_erase_iff]
  tauto

end IdSet
end LightMqtt
