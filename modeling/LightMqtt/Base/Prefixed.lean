import Mathlib.Data.List.Basic
import Mathlib.Tactic.Common

/-!
# Strings behind their length

A string of at most 65535 bytes is sent behind two bytes that give its length,
the high byte first. A sequence of items is read back item by item.
-/

namespace Prefixed

def lengthBytes (n : ℕ) : List UInt8 := [UInt8.ofNat (n / 256), UInt8.ofNat (n % 256)]

/-- A string behind its length. -/
def encode (s : List UInt8) : List UInt8 := lengthBytes s.length ++ s

/-- The string at the start of some bytes, and the bytes behind it. -/
def take : List UInt8 → Option (List UInt8 × List UInt8)
  | hi :: lo :: bs =>
    let n := hi.toNat * 256 + lo.toNat
    if n ≤ bs.length then some (bs.take n, bs.drop n) else none
  | _ => none

/- The items to the end of some bytes, of which there are no more than `fuel`. -/
def takeItems {α : Type} (item : List UInt8 → Option (α × List UInt8)) : ℕ → List UInt8 → Option (List α)
  | _, [] => some []
  | 0, _ => none
  | fuel + 1, bs => do
    let (x, bs) ← item bs
    let xs ← takeItems item fuel bs
    pure (x :: xs)

/-- All the items of some bytes, each of at least one byte. -/
def takeAll {α : Type} (item : List UInt8 → Option (α × List UInt8)) (bs : List UInt8) : Option (List α) :=
  takeItems item bs.length bs

theorem lengthBytes_length (n : ℕ) : (lengthBytes n).length = 2 := rfl

theorem encode_length (s : List UInt8) : (encode s).length = 2 + s.length := by
  rw [encode, List.length_append, lengthBytes_length]

theorem take_encode {s : List UInt8} (h : s.length ≤ 65535) (more : List UInt8) : take (encode s ++ more) = some (s, more) := by
  have hhi : (UInt8.ofNat (s.length / 256)).toNat = s.length / 256 := by
    rw [UInt8.toNat_ofNat']
    omega
  have hlo : (UInt8.ofNat (s.length % 256)).toNat = s.length % 256 := by
    rw [UInt8.toNat_ofNat']
    omega
  have hlen : s.length / 256 * 256 + s.length % 256 = s.length := by omega
  have hbytes : encode s ++ more = UInt8.ofNat (s.length / 256) :: UInt8.ofNat (s.length % 256) :: (s ++ more) := rfl
  rw [hbytes, take, hhi, hlo, hlen, if_pos (by rw [List.length_append]; omega), List.take_left, List.drop_left]

section Items
variable {α : Type} {item : List UInt8 → Option (α × List UInt8)} {write : α → List UInt8}

theorem takeItems_flatMap (l : List α) (fuel : ℕ) (hitem : ∀ x ∈ l, ∀ more, item (write x ++ more) = some (x, more))
    (hne : ∀ x ∈ l, write x ≠ []) (hfuel : l.length ≤ fuel) : takeItems item fuel (l.flatMap write) = some l := by
  induction l generalizing fuel with
  | nil => cases fuel <;> rfl
  | cons x l ih =>
    obtain ⟨fuel, rfl⟩ : ∃ f, fuel = f + 1 := ⟨fuel - 1, by rw [List.length_cons] at hfuel; omega⟩
    have hx := hitem x (List.mem_cons_self ..) (l.flatMap write)
    have hrest := ih fuel (fun y hy => hitem y (List.mem_cons_of_mem _ hy)) (fun y hy => hne y (List.mem_cons_of_mem _ hy))
      (by rw [List.length_cons] at hfuel; omega)
    obtain ⟨b, bs, hb⟩ := List.exists_cons_of_ne_nil (hne x (List.mem_cons_self ..))
    rw [List.flatMap_cons] at *
    rw [hb, List.cons_append] at hx ⊢
    rw [takeItems, hx]
    · change (do let xs ← takeItems item fuel (l.flatMap write); pure (x :: xs)) = _
      rw [hrest]
      rfl
    · simp

/-- What was written item by item is read back. -/
theorem takeAll_flatMap (l : List α) (hitem : ∀ x ∈ l, ∀ more, item (write x ++ more) = some (x, more))
    (hne : ∀ x ∈ l, write x ≠ []) : takeAll item (l.flatMap write) = some l := by
  have hcount : l.length ≤ (l.flatMap write).length := by
    clear hitem
    induction l with
    | nil => exact Nat.zero_le _
    | cons x l ih =>
      have hpos := List.length_pos_iff.mpr (hne x (List.mem_cons_self ..))
      have hle := ih fun y hy => hne y (List.mem_cons_of_mem _ hy)
      rw [List.flatMap_cons, List.length_append, List.length_cons]
      omega
  exact takeItems_flatMap l _ hitem hne hcount

end Items

end Prefixed
