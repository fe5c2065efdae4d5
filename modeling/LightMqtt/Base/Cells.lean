import Mathlib.Data.List.Basic
import Mathlib.Data.Nat.Notation
import Mathlib.Logic.Function.Basic
import Mathlib.Tactic.Common

/-!
# Cells of memory

A memory of numbered cells that notes which cells a program touches. A block of
cells stands for a list, and what a loop over the cells, a store or a block
move does is said of the lists.
-/

namespace Cells

/-- `touched` is a ghost: the numbers of the cells read or written so far. -/
structure Memory (α : Type) where
  cell : ℕ → α
  touched : List ℕ := []

namespace Memory

variable {α : Type}

def read (m : Memory α) (i : ℕ) : α × Memory α := (m.cell i, { m with touched := i :: m.touched })

def write (m : Memory α) (i : ℕ) (x : α) : Memory α := ⟨Function.update m.cell i x, i :: m.touched⟩

/-- `memmove`: the `n` cells from `src` on are copied to `dst` on, as they were
before the call where the two ranges overlap. -/
def move (m : Memory α) (dst src n : ℕ) : Memory α where
  cell j := if dst ≤ j ∧ j < dst + n then m.cell (src + (j - dst)) else m.cell j
  touched := List.range' dst n ++ List.range' src n ++ m.touched

/-- The cells that hold a list, one after the other. -/
def writeAll (m : Memory α) (base : ℕ) : List α → Memory α
  | [] => m
  | x :: xs => writeAll (m.write base x) (base + 1) xs

/-- The `n` cells from `base` on. -/
def block (m : Memory α) (base n : ℕ) : List α := (List.range' base n).map m.cell

def readAll (m : Memory α) (base n : ℕ) : List α × Memory α :=
  (m.block base n, { m with touched := List.range' base n ++ m.touched })

/- A loop over cells `i`, `i + 1`, .. behind `base` that stops at the first one with the property. -/
def scanFrom (p : α → Bool) (m : Memory α) (base i : ℕ) : ℕ → Option ℕ × Memory α
  | 0 => (none, m)
  | left + 1 =>
    let (x, m) := m.read (base + i)
    if p x then (some i, m) else scanFrom p m base (i + 1) left

/-- The first of the `n` cells from `base` on with the property, counted from `base`. -/
def scan (p : α → Bool) (m : Memory α) (base n : ℕ) : Option ℕ × Memory α := scanFrom p m base 0 n

/-- Every cell touched lies between the bounds. -/
def Inside (m : Memory α) (lo hi : ℕ) : Prop := ∀ i ∈ m.touched, lo ≤ i ∧ i < hi

/-- Outside the bounds the memory is as before. -/
def SameOutside (lo hi : ℕ) (m m' : Memory α) : Prop := ∀ i, i < lo ∨ hi ≤ i → m'.cell i = m.cell i

/-! ### Blocks -/

section Blocks
variable (m : Memory α) (base : ℕ)

@[simp] theorem block_zero : m.block base 0 = [] := rfl

@[simp] theorem block_length (n : ℕ) : (m.block base n).length = n := by
  rw [block, List.length_map, List.length_range']

theorem block_add (k n : ℕ) : m.block base (k + n) = m.block base k ++ m.block (base + k) n := by
  rw [block, block, block, ← List.map_append, List.range'_append_1]

theorem block_take (k n : ℕ) (h : k ≤ n) : (m.block base n).take k = m.block base k := by
  obtain ⟨d, rfl⟩ := Nat.exists_eq_add_of_le h
  rw [block_add]
  exact List.take_left' (m.block_length base k)

theorem block_drop (k n : ℕ) (h : k ≤ n) : (m.block base n).drop k = m.block (base + k) (n - k) := by
  obtain ⟨d, rfl⟩ := Nat.exists_eq_add_of_le h
  rw [block_add, Nat.add_sub_cancel_left]
  exact List.drop_left' (m.block_length base k)

theorem block_one : m.block base 1 = [m.cell base] := rfl

theorem block_getElem? (n i : ℕ) : (m.block base n)[i]? = if i < n then some (m.cell (base + i)) else none := by
  by_cases h : i < n
  · rw [if_pos h, block, List.getElem?_map, List.getElem?_range' h, Option.map_some, Nat.one_mul]
  · rw [if_neg h, List.getElem?_eq_none]
    rw [block_length]
    omega

/- A block depends on its own cells only. -/
theorem block_congr {m m' : Memory α} {base n : ℕ} (h : ∀ j, base ≤ j → j < base + n → m'.cell j = m.cell j) :
    m'.block base n = m.block base n := by
  refine List.map_congr_left fun j hj => ?_
  rw [List.mem_range'_1] at hj
  exact h j hj.1 hj.2

end Blocks

/-! ### Stores and moves -/

section Writes
variable (m : Memory α) (base : ℕ)

theorem write_cell_of_ne {i j : ℕ} (x : α) (h : j ≠ i) : (m.write i x).cell j = m.cell j := by
  rw [write]
  exact Function.update_of_ne h x m.cell

/- The cell behind a block is stored to. -/
theorem block_write (n : ℕ) (x : α) : (m.write (base + n) x).block base (n + 1) = m.block base n ++ [x] := by
  have hsame : (m.write (base + n) x).block base n = m.block base n := by
    apply block_congr
    intro j _ hj
    exact m.write_cell_of_ne x (by omega)
  have hlast : (m.write (base + n) x).cell (base + n) = x := Function.update_self ..
  rw [block_add, hsame, block_one, hlast]

theorem move_cell_of_outside {dst src n j : ℕ} (h : j < dst ∨ dst + n ≤ j) : (m.move dst src n).cell j = m.cell j := by
  have hn : ¬ (dst ≤ j ∧ j < dst + n) := by omega
  exact if_neg hn

/- The destination holds what the source held. -/
theorem block_move (dst src n : ℕ) : (m.move dst src n).block dst n = m.block src n := by
  apply List.ext_getElem?
  intro i
  rw [block_getElem?, block_getElem?]
  by_cases h : i < n
  · have hc : (m.move dst src n).cell (dst + i) = m.cell (src + (dst + i - dst)) := if_pos (by omega)
    rw [if_pos h, if_pos h, hc, Nat.add_sub_cancel_left]
  · rw [if_neg h, if_neg h]

/-- A block loses its cell `i` when at least what follows it is moved down by one. -/
theorem block_move_eraseIdx {n i k : ℕ} (hi : i < n) (hk : n - i - 1 ≤ k) :
    (m.move (base + i) (base + i + 1) k).block base (n - 1) = (m.block base n).eraseIdx i := by
  obtain ⟨k, rfl⟩ := Nat.exists_eq_add_of_le hk
  have hleft : (m.move (base + i) (base + i + 1) (n - i - 1 + k)).block base i = m.block base i := by
    apply block_congr
    intro j _ hj
    exact m.move_cell_of_outside (.inl hj)
  have hright : (m.move (base + i) (base + i + 1) (n - i - 1 + k)).block (base + i) (n - i - 1) =
      m.block (base + i + 1) (n - i - 1) := by
    have hall := m.block_move (base + i) (base + i + 1) (n - i - 1 + k)
    rw [block_add, block_add] at hall
    exact (List.append_inj hall (by rw [block_length, block_length])).1
  have hn : n - 1 = i + (n - i - 1) := by omega
  rw [List.eraseIdx_eq_take_drop_succ, block_take _ _ _ _ (Nat.le_of_lt hi), block_drop _ _ _ _ hi, hn,
    block_add, hleft, hright,
    Nat.add_assoc, Nat.sub_sub]

theorem writeAll_cell_of_outside (xs : List α) {j : ℕ} (h : j < base ∨ base + xs.length ≤ j) :
    (m.writeAll base xs).cell j = m.cell j := by
  induction xs generalizing m base with
  | nil => rfl
  | cons x xs ih =>
    rw [List.length_cons] at h
    have htail := ih (m.write base x) (base + 1) (by omega)
    have hhead : (m.write base x).cell j = m.cell j := m.write_cell_of_ne x (by omega)
    rw [writeAll, htail, hhead]

theorem block_writeAll (xs : List α) : (m.writeAll base xs).block base xs.length = xs := by
  induction xs generalizing m base with
  | nil => rfl
  | cons x xs ih =>
    have hfirst : ((m.write base x).writeAll (base + 1) xs).cell base = x := by
      rw [writeAll_cell_of_outside _ _ xs (by omega)]
      exact Function.update_self ..
    have hrest := ih (m.write base x) (base + 1)
    rw [List.length_cons, Nat.add_comm, block_add, block_one, writeAll, hfirst, hrest]
    rfl

end Writes

/-! ### Loops -/

theorem scanFrom_cell (p : α → Bool) (m : Memory α) (base i left : ℕ) : (scanFrom p m base i left).2.cell = m.cell := by
  induction left generalizing m i with
  | zero => rfl
  | succ left ih =>
    by_cases hp : p (m.cell (base + i)) = true
    · simp only [scanFrom, read, hp, if_true]
    · simp only [scanFrom, read, hp]
      exact ih _ (i + 1)

@[simp] theorem scan_cell (p : α → Bool) (m : Memory α) (base n : ℕ) : (scan p m base n).2.cell = m.cell :=
  scanFrom_cell p m base 0 n

theorem scanFrom_fst (p : α → Bool) (m : Memory α) (base i left : ℕ) :
    (scanFrom p m base i left).1 = ((m.block (base + i) left).findIdx? p).map (· + i) := by
  induction left generalizing m i with
  | zero => rfl
  | succ left ih =>
    have hcons : m.block (base + i) (left + 1) = m.cell (base + i) :: m.block (base + (i + 1)) left := by
      rw [Nat.add_comm left, block_add, block_one]
      rfl
    rw [hcons, List.findIdx?_cons]
    by_cases hp : p (m.cell (base + i)) = true
    · simp only [scanFrom, read, hp, if_true, Option.map_some, Nat.zero_add]
    · have hrest := ih { m with touched := (base + i) :: m.touched } (i + 1)
      simp only [scanFrom, read, hp, Bool.false_eq_true, if_false, Option.map_map]
      rw [hrest]
      congr 1
      funext j
      simp only [Function.comp_apply]
      omega

/-- The loop finds the first element of the block with the property. -/
theorem scan_fst (p : α → Bool) (m : Memory α) (base n : ℕ) : (scan p m base n).1 = (m.block base n).findIdx? p := by
  rw [scan, scanFrom_fst, Nat.add_zero]
  simp only [Nat.add_zero, Option.map_id']

/-! ### Cells touched -/

section Inside
variable {m : Memory α} {lo hi : ℕ}

theorem Inside.read (h : m.Inside lo hi) {i : ℕ} (hl : lo ≤ i) (hu : i < hi) : (m.read i).2.Inside lo hi := by
  intro j hj
  rcases List.mem_cons.mp hj with rfl | hj
  · exact ⟨hl, hu⟩
  · exact h j hj

theorem Inside.write (h : m.Inside lo hi) {i : ℕ} (x : α) (hl : lo ≤ i) (hu : i < hi) : (m.write i x).Inside lo hi := by
  intro j hj
  rcases List.mem_cons.mp hj with rfl | hj
  · exact ⟨hl, hu⟩
  · exact h j hj

/- A move touches its two ranges. -/
theorem inside_move {dst src n : ℕ} :
    (m.move dst src n).Inside lo hi ↔
      m.Inside lo hi ∧ (0 < n → lo ≤ dst ∧ dst + n ≤ hi ∧ lo ≤ src ∧ src + n ≤ hi) := by
  have hmem : ∀ j, j ∈ (m.move dst src n).touched ↔
      ((dst ≤ j ∧ j < dst + n) ∨ (src ≤ j ∧ j < src + n)) ∨ j ∈ m.touched := by
    intro j
    simp only [move, List.mem_append, List.mem_range'_1]
  constructor
  · intro h
    refine ⟨fun j hj => h j ((hmem j).mpr (.inr hj)), ?_⟩
    intro hn
    have hd := h dst ((hmem dst).mpr (by omega))
    have hd' := h (dst + n - 1) ((hmem _).mpr (by omega))
    have hs := h src ((hmem src).mpr (by omega))
    have hs' := h (src + n - 1) ((hmem _).mpr (by omega))
    omega
  · rintro ⟨h, hb⟩ j hj
    rcases (hmem j).mp hj with hj | hj
    · have hn := hb (by omega)
      omega
    · exact h j hj

theorem Inside.readAll (h : m.Inside lo hi) {base n : ℕ} (hl : lo ≤ base) (hu : base + n ≤ hi) :
    (m.readAll base n).2.Inside lo hi := by
  intro j hj
  rcases List.mem_append.mp hj with hj | hj
  · rw [List.mem_range'_1] at hj
    omega
  · exact h j hj

theorem Inside.writeAll {m : Memory α} (h : m.Inside lo hi) (xs : List α) {base : ℕ} (hl : lo ≤ base)
    (hu : base + xs.length ≤ hi) : (m.writeAll base xs).Inside lo hi := by
  induction xs generalizing m base with
  | nil => exact h
  | cons x xs ih =>
    rw [List.length_cons] at hu
    exact ih (h.write x hl (by omega)) (by omega) (by omega)

theorem Inside.scanFrom {m : Memory α} (h : m.Inside lo hi) (p : α → Bool) {base i left : ℕ} (hl : lo ≤ base)
    (hu : base + i + left ≤ hi) : (scanFrom p m base i left).2.Inside lo hi := by
  induction left generalizing m i with
  | zero => exact h
  | succ left ih =>
    have hread : (m.read (base + i)).2.Inside lo hi := h.read (by omega) (by omega)
    by_cases hp : p (m.cell (base + i)) = true
    · simp only [Memory.scanFrom, Memory.read, hp, if_true]
      exact hread
    · simp only [Memory.scanFrom, Memory.read, hp]
      exact ih hread (by omega)

theorem Inside.scan (h : m.Inside lo hi) (p : α → Bool) {base n : ℕ} (hl : lo ≤ base) (hu : base + n ≤ hi) :
    (scan p m base n).2.Inside lo hi := h.scanFrom p hl (by omega)

end Inside

end Memory
end Cells
