import Mathlib.Data.Nat.Digits.Defs
import Mathlib.Tactic.Common

/-!
# Numerals of seven bits a byte

A number as bytes that hold seven bits each, the lowest first. The high bit of a
byte says that others follow. The numeral of a number is the shortest one.
-/

namespace Varint

/-- The numeral of a number. -/
def encode (n : ℕ) : List UInt8 :=
  if n < 128 then [UInt8.ofNat n] else UInt8.ofNat (n % 128 + 128) :: encode (n / 128)
termination_by n
decreasing_by omega

/- The number that the bytes stand for. -/
def value (bs : List UInt8) : ℕ := Nat.ofDigits 128 (bs.map (·.toNat % 128))

/- Bytes behind each of which others follow. -/
def Open (bs : List UInt8) : Prop := ∀ b ∈ bs, 128 ≤ b.toNat

/-- The last byte is the only one that none follows, and it is no leading zero. -/
structure IsNumeral (bs : List UInt8) (d : UInt8) : Prop where
  isOpen : Open bs
  last : d.toNat < 128
  shortest : bs ≠ [] → d ≠ 0

theorem toNat_ofNat {n : ℕ} (h : n < 256) : (UInt8.ofNat n).toNat = n := by
  rw [UInt8.toNat_ofNat']
  omega

theorem value_nil : value [] = 0 := rfl

theorem value_cons (b : UInt8) (bs : List UInt8) : value (b :: bs) = b.toNat % 128 + 128 * value bs := rfl

theorem value_snoc (bs : List UInt8) (b : UInt8) : value (bs ++ [b]) = value bs + 128 ^ bs.length * (b.toNat % 128) := by
  unfold value
  rw [List.map_append, Nat.ofDigits_append, List.length_map]
  simp

theorem value_lt (bs : List UInt8) : value bs < 128 ^ bs.length := by
  induction bs with
  | nil => exact Nat.one_pos
  | cons b bs ih =>
    rw [value_cons, List.length_cons, Nat.pow_succ]
    omega

theorem Open.snoc {bs : List UInt8} {b : UInt8} (h : Open bs) (hb : 128 ≤ b.toNat) : Open (bs ++ [b]) := by
  intro x hx
  rcases List.mem_append.mp hx with hx | hx
  · exact h x hx
  · rw [List.mem_singleton] at hx
    rwa [hx]

/- A numeral that goes on can be ended. -/
theorem Open.ended {bs : List UInt8} (h : Open bs) : IsNumeral bs 1 := ⟨h, by decide, fun _ => by decide⟩

theorem IsNumeral.value_pos {bs : List UInt8} {d : UInt8} (h : IsNumeral bs d) (hne : bs ≠ []) :
    0 < value (bs ++ [d]) := by
  have hd : 0 < d.toNat := by
    have hzero := h.shortest hne
    rw [ne_eq, ← UInt8.toNat_inj] at hzero
    exact Nat.pos_of_ne_zero hzero
  have hmod : d.toNat % 128 = d.toNat := Nat.mod_eq_of_lt h.last
  rw [value_snoc, hmod]
  have hmul : 0 < 128 ^ bs.length * d.toNat := Nat.mul_pos (Nat.pow_pos (by decide)) hd
  omega

/-- A number is encoded to a numeral of it. -/
theorem encode_numeral (n : ℕ) : ∃ bs d, encode n = bs ++ [d] ∧ IsNumeral bs d ∧ value (encode n) = n := by
  induction n using Nat.strongRecOn with
  | ind n ih =>
    rw [encode]
    split
    · rename_i hn
      refine ⟨[], UInt8.ofNat n, rfl, ⟨by simp [Open], ?_, fun h => absurd rfl h⟩, ?_⟩
      · rw [toNat_ofNat (by omega)]
        exact hn
      · rw [value_cons, value_nil, toNat_ofNat (by omega)]
        omega
    · rename_i hn
      obtain ⟨bs, d, hbs, hnum, hval⟩ := ih (n / 128) (by omega)
      have hbyte : (UInt8.ofNat (n % 128 + 128)).toNat = n % 128 + 128 := toNat_ofNat (by omega)
      refine ⟨UInt8.ofNat (n % 128 + 128) :: bs, d, by rw [hbs, List.cons_append], ⟨?_, hnum.last, fun _ => ?_⟩, ?_⟩
      · intro b hb
        rcases List.mem_cons.mp hb with rfl | hb
        · omega
        · exact hnum.isOpen b hb
      · -- a last byte of zero would leave nothing of the rest
        intro hd
        by_cases hne : bs = []
        · rw [hbs, hne, List.nil_append, hd] at hval
          rw [value_cons, value_nil] at hval
          simp at hval
          omega
        · exact hnum.shortest hne hd
      · rw [value_cons, hval, hbyte]
        omega

/-- A numeral is the encoding of its value. -/
theorem IsNumeral.encode_value {bs : List UInt8} {d : UInt8} (h : IsNumeral bs d) : encode (value (bs ++ [d])) = bs ++ [d] := by
  induction bs with
  | nil =>
    have hval : value ([] ++ [d]) = d.toNat := Nat.mod_eq_of_lt h.last
    have hlast := h.last
    rw [hval, encode, if_pos hlast, UInt8.ofNat_toNat]
    rfl
  | cons b bs ih =>
    have hb := h.isOpen b (List.mem_cons_self ..)
    have hlt := b.toNat_lt
    have hrest : IsNumeral bs d := by
      refine ⟨fun x hx => h.isOpen x (List.mem_cons_of_mem _ hx), h.last, fun _ => h.shortest (List.cons_ne_nil b bs)⟩
    have hpos : 0 < value (bs ++ [d]) := by
      by_cases hne : bs = []
      · have hzero := h.shortest (List.cons_ne_nil b bs)
        rw [ne_eq, ← UInt8.toNat_inj] at hzero
        have hlast := h.last
        rw [hne, List.nil_append, value_cons, value_nil]
        change d.toNat ≠ 0 at hzero
        omega
      · exact hrest.value_pos hne
    have hvalue : value (b :: bs ++ [d]) = b.toNat % 128 + 128 * value (bs ++ [d]) := rfl
    rw [hvalue, encode, if_neg (by omega), show (b.toNat % 128 + 128 * value (bs ++ [d])) / 128 = value (bs ++ [d]) by omega,
      ih hrest]
    have hdigit : (b.toNat % 128 + 128 * value (bs ++ [d])) % 128 + 128 = b.toNat := by omega
    rw [hdigit, UInt8.ofNat_toNat, List.cons_append]

/-- The number at the start of some bytes, and the bytes behind its numeral. -/
def decode : List UInt8 → Option (ℕ × List UInt8)
  | [] => none
  | b :: bs =>
    if b.toNat < 128 then some (b.toNat, bs)
    else (decode bs).map fun x => (b.toNat - 128 + 128 * x.1, x.2)

theorem decode_encode (n : ℕ) (more : List UInt8) : decode (encode n ++ more) = some (n, more) := by
  induction n using Nat.strongRecOn with
  | ind n ih =>
    rw [encode]
    split
    · rename_i hn
      rw [List.singleton_append, decode, toNat_ofNat (by omega), if_pos hn]
    · rename_i hn
      have hbyte : (UInt8.ofNat (n % 128 + 128)).toNat = n % 128 + 128 := toNat_ofNat (by omega)
      rw [List.cons_append, decode, hbyte, if_neg (by omega), ih (n / 128) (by omega), Option.map_some]
      have hn : n % 128 + 128 - 128 + 128 * (n / 128) = n := by omega
      rw [hn]

/- The count of bytes. -/
theorem encode_length_le (n k : ℕ) (h : n < 128 ^ (k + 1)) : (encode n).length ≤ k + 1 := by
  induction k generalizing n with
  | zero =>
    rw [encode, if_pos (by omega)]
    exact le_rfl
  | succ k ih =>
    rw [encode]
    split
    · simp
    · have hdiv : n / 128 < 128 ^ (k + 1) := by
        rw [Nat.div_lt_iff_lt_mul (by decide), ← Nat.pow_succ]
        exact h
      have hle := ih (n / 128) hdiv
      rw [List.length_cons]
      omega

end Varint
