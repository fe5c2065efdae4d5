import Mathlib.Data.List.Basic
import Mathlib.Data.Nat.Notation
import Mathlib.Tactic.Common

/-!
# Queues of two parts

A queue whose first elements are marked as sent while the others are pending.
It is often held as one list with the number of elements before the mark;
`ofList` is the queue such a pair stands for.
-/

/-- A queue of two parts. -/
structure MarkedQueue (α : Type) where
  sent : List α := []
  pending : List α := []
  deriving DecidableEq, Repr

namespace MarkedQueue

variable {α β : Type}

def all (q : MarkedQueue α) : List α := q.sent ++ q.pending

def append (q : MarkedQueue α) (x : α) : MarkedQueue α := { q with pending := q.pending ++ [x] }

def peek (q : MarkedQueue α) : Option α := q.pending.head?

/- The head of the pending part goes to the end of the sent part. -/
def mark (q : MarkedQueue α) : MarkedQueue α :=
  match q.pending with
  | [] => q
  | x :: rest => ⟨q.sent ++ [x], rest⟩

def drop (q : MarkedQueue α) : MarkedQueue α := { q with pending := q.pending.tail }

/- The first sent element with the property leaves. -/
def popSent (q : MarkedQueue α) (p : α → Bool) : MarkedQueue α := { q with sent := q.sent.eraseP p }

/- The element at a position of the sent part, with the pending part behind it, leaves. -/
def removeAt (q : MarkedQueue α) (i : ℕ) : MarkedQueue α :=
  if i < q.sent.length then { q with sent := q.sent.eraseIdx i }
  else { q with pending := q.pending.eraseIdx (i - q.sent.length) }

def unmark (q : MarkedQueue α) : MarkedQueue α := ⟨[], q.all⟩

def map (f : α → β) (q : MarkedQueue α) : MarkedQueue β := ⟨q.sent.map f, q.pending.map f⟩

/-- The queue of a list with the mark behind its first `pos` elements. -/
def ofList (l : List α) (pos : ℕ) : MarkedQueue α := ⟨l.take pos, l.drop pos⟩

/-! ### The operations on a list with a mark -/

section OfList
variable (l : List α) (pos : ℕ)

@[simp] theorem ofList_all : (ofList l pos).all = l := List.take_append_drop pos l

theorem ofList_zero : ofList l 0 = (ofList l pos).unmark := by
  rw [unmark, ofList_all]
  rfl

theorem ofList_peek : (ofList l pos).peek = l[pos]? := by
  rw [peek, ofList, List.head?_drop]

theorem ofList_pending_eq_nil : (ofList l pos).pending = [] ↔ l.length ≤ pos := List.drop_eq_nil_iff

variable {l pos}

theorem ofList_append (h : pos ≤ l.length) (x : α) : ofList (l ++ [x]) pos = (ofList l pos).append x := by
  rw [ofList, append, ofList, List.take_append_of_le_length h, List.drop_append_of_le_length h]

theorem ofList_mark (h : pos < l.length) : ofList l (pos + 1) = (ofList l pos).mark := by
  have hp : (ofList l pos).pending = l[pos] :: l.drop (pos + 1) := List.drop_eq_getElem_cons h
  rw [mark, hp]
  simp only [ofList, List.take_succ_eq_append_getElem h]

theorem ofList_mark_of_le (h : l.length ≤ pos) : (ofList l pos).mark = ofList l pos := by
  rw [mark, (ofList_pending_eq_nil l pos).mpr h]

/- An element is taken out of the list, and the mark follows it when it stood before the mark. -/
theorem ofList_eraseIdx {i : ℕ} (hp : pos ≤ l.length) :
    ofList (l.eraseIdx i) (if i < pos then pos - 1 else pos) = (ofList l pos).removeAt i := by
  have hlen : (ofList l pos).sent.length = pos := by
    rw [ofList, List.length_take]
    omega
  rw [removeAt, hlen]
  by_cases hi : i < pos
  · have hsplit : l.eraseIdx i = (l.take pos).eraseIdx i ++ l.drop pos := by
      rw [← List.eraseIdx_append_of_lt_length (by rw [List.length_take]; omega), List.take_append_drop]
    have hleft : ((l.take pos).eraseIdx i).length = pos - 1 := by
      rw [List.length_eraseIdx_of_lt (by rw [List.length_take]; omega), List.length_take]
      omega
    rw [if_pos hi, if_pos hi, ofList, hsplit, List.take_left' hleft, List.drop_left' hleft]
    rfl
  · have hsplit : l.eraseIdx i = l.take pos ++ (l.drop pos).eraseIdx (i - pos) := by
      have hle : (l.take pos).length ≤ i := by
        rw [List.length_take]
        omega
      have happ := List.eraseIdx_append_of_length_le hle (l.drop pos)
      rw [List.take_append_drop, List.length_take, Nat.min_eq_left hp] at happ
      exact happ
    have hleft : (l.take pos).length = pos := hlen
    rw [if_neg hi, if_neg hi, ofList, hsplit, List.take_left' hleft, List.drop_left' hleft]
    rfl

/- The head of the pending part is the element behind the mark. -/
theorem ofList_drop (hp : pos ≤ l.length) : (ofList l pos).removeAt pos = (ofList l pos).drop := by
  have hlen : (ofList l pos).sent.length = pos := by
    rw [ofList, List.length_take]
    omega
  rw [removeAt, hlen, if_neg (Nat.lt_irrefl pos), Nat.sub_self, List.eraseIdx_zero]
  rfl

/- A search of the sent part that finds the element at `i`. -/
theorem ofList_popSent {p : α → Bool} {i : ℕ} (hp : pos ≤ l.length) (h : (l.take pos).findIdx? p = some i) :
    i < pos ∧ (ofList l pos).sent.find? p = l[i]? ∧ (ofList l pos).removeAt i = (ofList l pos).popSent p := by
  obtain ⟨hi, hmatch, hbefore⟩ := List.findIdx?_eq_some_iff_getElem.mp h
  have hlt : i < pos := by
    rw [List.length_take] at hi
    omega
  have hlen : (ofList l pos).sent.length = pos := by
    rw [ofList, List.length_take]
    omega
  have hfind : (l.take pos).find? p = l[i]? := by
    rw [← List.getElem?_take_of_lt hlt, List.getElem?_eq_getElem hi]
    exact List.find?_eq_some_iff_getElem.mpr ⟨hmatch, i, hi, rfl, fun j hj => by simpa using hbefore j hj⟩
  have herase : (l.take pos).eraseIdx i = (l.take pos).eraseP p := by
    rw [List.eraseP_eq_eraseIdx, h]
  refine ⟨hlt, hfind, ?_⟩
  rw [removeAt, hlen, if_pos hlt, popSent, ← show (l.take pos) = (ofList l pos).sent from rfl, herase]

theorem ofList_popSent_none {p : α → Bool} (h : (l.take pos).findIdx? p = none) :
    (ofList l pos).sent.find? p = none ∧ (ofList l pos).popSent p = ofList l pos := by
  have hnone : ∀ x ∈ (ofList l pos).sent, p x = false := List.findIdx?_eq_none_iff.mp h
  refine ⟨List.find?_eq_none.mpr fun x hx => by rw [hnone x hx]; exact Bool.false_ne_true, ?_⟩
  rw [popSent, List.eraseP_of_forall_not fun x hx => by rw [hnone x hx]; exact Bool.false_ne_true]

end OfList

end MarkedQueue
