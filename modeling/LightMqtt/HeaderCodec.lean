import LightMqtt.Base.Varint
import LightMqtt.Sources
import LightMqtt.Decode

/-!
# The fixed header

The bytes that `fixed_header_decode` accepts from a zeroed header are those of
the fixed headers of MQTT 3.1.1: a legal first byte, and the remaining length as
`encode_remaining_length` writes it.
-/

namespace LightMqtt

open Exec Varint

/-! ### Fixed headers of MQTT 3.1.1 -/

/- The packet type and the flags of a first byte. -/
def firstType (b : Byte) : ℕ := b.toNat / 16
def firstFlags (b : Byte) : ℕ := b.toNat % 16

/-- The first bytes that the protocol allows: those of a PUBLISH with a QoS of at most 2,
and no duplicate of QoS 0; those of any other type with the flags reserved for it. -/
def LegalFirst (b : Byte) : Prop :=
  1 ≤ firstType b ∧ firstType b ≤ 14 ∧
    if firstType b = typePublish then
      firstFlags b / 2 % 4 ≤ 2 ∧ (firstFlags b / 2 % 4 = 0 → firstFlags b / 8 = 0)
    else firstFlags b =
      if firstType b = typePubrel ∨ firstType b = typeSubscribe ∨ firstType b = typeUnsubscribe then 2 else 0

instance (b : Byte) : Decidable (LegalFirst b) := by unfold LegalFirst; infer_instance

/- DUP, QoS and RETAIN are flags of a PUBLISH alone. -/
def firstDup (b : Byte) : ℕ := if firstType b = typePublish then firstFlags b / 8 else 0
def firstQos (b : Byte) : ℕ := if firstType b = typePublish then firstFlags b / 2 % 4 else 0
def firstRetain (b : Byte) : ℕ := if firstType b = typePublish then firstFlags b % 2 else 0

/-- The fixed header of a packet with `n` bytes behind it. -/
structure IsFixedHeader (bs : List Byte) (first : Byte) (n : ℕ) : Prop where
  legal : LegalFirst first
  length : n ≤ 268435455
  bytes : bs = first :: lengthBytes n

/-! ### Remaining lengths -/

theorem remainingLengthDigits_eq (fuel n : ℕ) (h : n < 128 ^ (fuel + 1)) : remainingLengthDigits (fuel + 1) n = encode n := by
  induction fuel generalizing n with
  | zero =>
    rw [remainingLengthDigits, if_neg (by omega), encode, if_pos (by omega), Nat.mod_eq_of_lt (by omega)]
  | succ fuel ih =>
    rw [remainingLengthDigits, encode]
    by_cases hn : n < 128
    · rw [if_neg (by omega), if_pos hn, Nat.mod_eq_of_lt hn]
    · have hdiv : n / 128 < 128 ^ (fuel + 1) := by
        rw [Nat.div_lt_iff_lt_mul (by decide), ← Nat.pow_succ]
        exact h
      rw [if_pos (by omega), if_neg hn, ih (n / 128) hdiv]

theorem lengthBytes_eq {n : ℕ} (h : n ≤ 268435455) : lengthBytes n = encode n := by
  unfold lengthBytes
  rw [Int.toNat_natCast]
  apply remainingLengthDigits_eq
  omega

/-- The bytes behind the first one are a numeral of at most four bytes. -/
theorem isFixedHeader_iff (bs : List Byte) (first : Byte) : (∃ n, IsFixedHeader bs first n) ↔
    LegalFirst first ∧ ∃ ds d, bs = first :: (ds ++ [d]) ∧ IsNumeral ds d ∧ ds.length ≤ 3 := by
  constructor
  · rintro ⟨n, hfirst, hn, rfl⟩
    obtain ⟨ds, d, hds, hnum, -⟩ := encode_numeral n
    have hle := encode_length_le n 3 (by omega)
    rw [hds, List.length_append, List.length_singleton] at hle
    exact ⟨hfirst, ds, d, by rw [lengthBytes_eq hn, hds], hnum, by omega⟩
  · rintro ⟨hfirst, ds, d, rfl, hnum, hlen⟩
    have hlt := value_lt (ds ++ [d])
    have hpow : 128 ^ (ds ++ [d]).length ≤ 128 ^ 4 := by
      apply Nat.pow_le_pow_right (by decide)
      rw [List.length_append, List.length_singleton]
      omega
    have hle : value (ds ++ [d]) ≤ 268435455 := by omega
    exact ⟨value (ds ++ [d]), hfirst, hle, by rw [lengthBytes_eq hle, hnum.encode_value]⟩

theorem IsFixedHeader.value_eq {first d : Byte} {ds : List Byte} {n : ℕ} (h : IsFixedHeader (first :: (ds ++ [d])) first n) :
    Varint.value (ds ++ [d]) = n := by
  obtain ⟨bs, x, hbs, -, hval⟩ := encode_numeral n
  have hbytes := h.bytes
  rw [lengthBytes_eq h.length] at hbytes
  rw [(List.cons.inj hbytes).2]
  exact hval

/-! ### The states of the decoder -/

/- The header behind some bytes. -/
def fixedHeaderFeed (h : FixedHeader) : List Byte → FixedHeader
  | [] => h
  | b :: bs => fixedHeaderFeed (fixedHeaderDecode h b).1 bs

/- The header behind the first byte. -/
def firstHeader (b : Byte) : FixedHeader where
  type := firstType b
  dup := firstDup b
  qos := firstQos b
  retain := firstRetain b
  bytesRead := 1
  remainLenMultiplier := 1

/- The header behind bytes of the remaining length. -/
def FixedHeader.behind (h : FixedHeader) (ds : List Byte) : FixedHeader :=
  { h with
    remainLenAccumulator := Varint.value ds
    remainLenMultiplier := 128 ^ ds.length
    bytesRead := 1 + ds.length }

def FixedHeader.ended (h : FixedHeader) : FixedHeader :=
  { h with remainingLength := h.remainLenAccumulator, remainLenFinished := true }

/-- The header behind the bytes `bs`, of the last of which `fixed_header_decode` reports `res`. -/
inductive HeaderRead : List Byte → FixedHeader → DecodeResult → Prop
  | nothing : HeaderRead [] {} .continue
  | length (first : Byte) (ds : List Byte) (hfirst : LegalFirst first) (ho : Open ds) (hlen : ds.length ≤ 3) :
    HeaderRead (first :: ds) ((firstHeader first).behind ds) .continue
  | finished (first : Byte) (ds : List Byte) (d : Byte) (hfirst : LegalFirst first) (hd : IsNumeral ds d)
    (hlen : ds.length ≤ 3) : HeaderRead (first :: (ds ++ [d])) ((firstHeader first).behind (ds ++ [d])).ended .finished
  | failed (bs : List Byte) (h : FixedHeader) (e : Error) (he : h.error = some e)
    (hno : ∀ more first n, ¬ IsFixedHeader (bs ++ more) first n) : HeaderRead bs h .error

theorem fixedHeaderDecode_first (b : Byte) :
    if LegalFirst b then fixedHeaderDecode {} b = (firstHeader b, .continue, none)
    else ∃ e h, fixedHeaderDecode {} b = (h, .error, some e) ∧ h.error = some e := by
  have hall : ∀ i : Fin 256, if LegalFirst (UInt8.ofNat i.val) then
      fixedHeaderDecode {} (UInt8.ofNat i.val) = (firstHeader (UInt8.ofNat i.val), .continue, none)
      else (fixedHeaderDecode {} (UInt8.ofNat i.val)).2.1 = .error ∧
        (fixedHeaderDecode {} (UInt8.ofNat i.val)).2.2.isSome = true ∧
        (fixedHeaderDecode {} (UInt8.ofNat i.val)).1.error = (fixedHeaderDecode {} (UInt8.ofNat i.val)).2.2 := by
    decide +kernel
  have hb := hall ⟨b.toNat, b.toNat_lt⟩
  dsimp only at hb
  rw [UInt8.ofNat_toNat] at hb
  split at hb
  · rename_i hl
    rw [if_pos hl]
    exact hb
  · rename_i hl
    obtain ⟨hres, hsome, heq⟩ := hb
    obtain ⟨e, he⟩ := Option.isSome_iff_exists.mp hsome
    rw [if_neg hl]
    exact ⟨e, (fixedHeaderDecode {} b).1, by rw [← he, ← hres], heq.trans he⟩

/- An error stays. -/
theorem fixedHeaderDecode_failed {h : FixedHeader} {e : Error} (he : h.error = some e) (b : Byte) :
    fixedHeaderDecode h b = (h, .error, some e) := by
  unfold fixedHeaderDecode
  rw [he]

theorem fixedHeaderFeed_failed {h : FixedHeader} {e : Error} (he : h.error = some e) (bs : List Byte) :
    fixedHeaderFeed h bs = h := by
  induction bs with
  | nil => rfl
  | cons b bs ih => rw [fixedHeaderFeed, fixedHeaderDecode_failed he, ih]

/- The bits of a byte of the remaining length. -/
theorem low_bits (b : Byte) : b.toNat &&& 127 = b.toNat % 128 := Nat.and_two_pow_sub_one_eq_mod b.toNat 7

theorem high_bit (b : Byte) : b.toNat &&& 128 ≠ 0 ↔ 128 ≤ b.toNat := by
  have hall : ∀ i : Fin 256, i.val &&& 128 ≠ 0 ↔ 128 ≤ i.val := by decide +kernel
  exact hall ⟨b.toNat, b.toNat_lt⟩

/-- The numeral is over where no fixed header goes on. -/
theorem not_isFixedHeader_of_ended {first d : Byte} {ds : List Byte} (hd : d.toNat < 128) (b : Byte) (more : List Byte)
    (x : Byte) (n : ℕ) : ¬ IsFixedHeader (first :: (ds ++ [d]) ++ b :: more) x n := by
  intro h
  obtain ⟨-, es, c, hbytes, hnum, -⟩ := (isFixedHeader_iff _ _).mp ⟨n, h⟩
  have htail : ds ++ [d] ++ b :: more = es ++ [c] := (List.cons.inj hbytes).2
  have hmem : d ∈ es := by
    have hdrop := congrArg List.dropLast htail
    rw [List.dropLast_concat, List.dropLast_append_of_ne_nil (List.cons_ne_nil b more)] at hdrop
    rw [← hdrop]
    simp
  exact absurd (hnum.isOpen d hmem) (by omega)

/-- A byte behind the first one. -/
theorem fixedHeaderDecode_length (first : Byte) (ds : List Byte) (b : Byte) :
    fixedHeaderDecode ((firstHeader first).behind ds) b =
      if 3 ≤ ds.length ∧ 128 ≤ b.toNat ∨ ds ≠ [] ∧ b = 0 then
        ({ (firstHeader first).behind ds with error := some .decodeFixedHeaderInvalidRemainingLength }, .error,
          some .decodeFixedHeaderInvalidRemainingLength)
      else if 128 ≤ b.toNat then ((firstHeader first).behind (ds ++ [b]), .continue, none)
      else (((firstHeader first).behind (ds ++ [b])).ended, .finished, none) := by
  have hthird : 128 * 128 < 128 ^ ds.length ↔ 3 ≤ ds.length :=
    Nat.pow_lt_pow_iff_right (n := 2) (by decide : 1 < 128)
  have hsecond : 1 < 128 ^ ds.length ↔ ds ≠ [] := by
    constructor
    · rintro hlt rfl
      exact absurd hlt (by decide)
    · intro hne
      exact Nat.one_lt_pow (mt List.length_eq_zero_iff.mp hne) (by decide)
  have hacc : Varint.value ds + b.toNat % 128 * 128 ^ ds.length = Varint.value (ds ++ [b]) := by
    rw [value_snoc, Nat.mul_comm]
  have hlen : (ds ++ [b]).length = ds.length + 1 := by rw [List.length_append, List.length_singleton]
  have hbehind : (firstHeader first).behind (ds ++ [b]) = { (firstHeader first).behind ds with
      remainLenAccumulator := Varint.value ds + b.toNat % 128 * 128 ^ ds.length
      remainLenMultiplier := 128 ^ ds.length * 128
      bytesRead := 1 + ds.length + 1 } := by
    unfold FixedHeader.behind
    rw [hacc, hlen, Nat.pow_succ, Nat.add_assoc]
  unfold fixedHeaderDecode
  have herror : ((firstHeader first).behind ds).error = none := rfl
  have hread : ((firstHeader first).behind ds).bytesRead ≠ 0 := by
    change 1 + ds.length ≠ 0
    omega
  have hmul : ((firstHeader first).behind ds).remainLenMultiplier = 128 ^ ds.length := rfl
  have hmore : ((firstHeader first).behind ds).remainLenFinished = false := rfl
  rw [herror]
  dsimp only
  simp only [hread, if_false, hmul, hmore, hthird, hsecond, high_bit, low_bits, Bool.false_eq_true, or_false]
  rw [hbehind]
  rfl

/-- A byte is added. -/
theorem HeaderRead.next {bs : List Byte} {h : FixedHeader} {res : DecodeResult} (hr : HeaderRead bs h res) (b : Byte) :
    HeaderRead (bs ++ [b]) (fixedHeaderDecode h b).1 (fixedHeaderDecode h b).2.1 := by
  cases hr with
  | nothing =>
    have hfirst := fixedHeaderDecode_first b
    split at hfirst
    · rename_i hl
      rw [hfirst]
      exact .length b [] hl (by simp [Open]) (Nat.zero_le 3)
    · rename_i hl
      obtain ⟨e, h, hdec, he⟩ := hfirst
      rw [hdec]
      refine .failed _ h e he fun more first n hno => hl ?_
      have hhead : b = first := (List.cons.inj hno.bytes).1
      rw [hhead]
      exact hno.legal
  | length first ds hfirst ho hlen =>
    rw [fixedHeaderDecode_length]
    split
    · rename_i hbad
      refine .failed _ _ .decodeFixedHeaderInvalidRemainingLength rfl fun more x n hno => ?_
      obtain ⟨-, es, d, hbytes, hnum, hes⟩ := (isFixedHeader_iff _ _).mp ⟨n, hno⟩
      have htail : ds ++ [b] ++ more = es ++ [d] := (List.cons.inj hbytes).2
      have hcount := congrArg List.length htail
      simp only [List.length_append, List.length_singleton] at hcount
      by_cases hmore : more = []
      · -- the byte is the last one
        rw [hmore, List.append_nil] at htail
        obtain ⟨hds, hb⟩ := List.append_inj' htail rfl
        have hb : b = d := (List.cons.inj hb).1
        have hlast := hnum.last
        rcases hbad with ⟨-, hhigh⟩ | ⟨hne, hzero⟩
        · rw [← hb] at hlast
          omega
        · exact hnum.shortest (by rwa [← hds]) (by rw [← hb, hzero])
      · have hpos : 0 < more.length := List.length_pos_iff.mpr hmore
        rcases hbad with ⟨hthree, -⟩ | ⟨-, hzero⟩
        · omega
        · have hmem : b ∈ es := by
            have hdrop := congrArg List.dropLast htail
            rw [List.dropLast_concat, List.dropLast_append_of_ne_nil hmore] at hdrop
            rw [← hdrop]
            simp
          have hhigh := hnum.isOpen b hmem
          rw [hzero] at hhigh
          exact absurd hhigh (by decide)
    · rename_i hgood
      push Not at hgood
      split
      · rename_i hhigh
        refine .length first (ds ++ [b]) hfirst (ho.snoc hhigh) ?_
        have hlt : ds.length < 3 := by
          by_contra hge
          exact absurd (hgood.1 (by omega)) (by omega)
        rw [List.length_append, List.length_singleton]
        omega
      · rename_i hlow
        exact .finished first ds b hfirst ⟨ho, by omega, hgood.2⟩ hlen
  | finished first ds d hfirst hd hlen =>
    have hfin : fixedHeaderDecode ((firstHeader first).behind (ds ++ [d])).ended b =
        ({ ((firstHeader first).behind (ds ++ [d])).ended with error := some .decodeFixedHeaderInvalidRemainingLength },
          .error, some .decodeFixedHeaderInvalidRemainingLength) := by
      unfold fixedHeaderDecode FixedHeader.ended FixedHeader.behind firstHeader
      simp
    rw [hfin]
    refine .failed _ _ .decodeFixedHeaderInvalidRemainingLength rfl fun more x n hno => ?_
    rw [List.append_assoc] at hno
    exact not_isFixedHeader_of_ended hd.last b more x n hno
  | failed bs h e he hno =>
    rw [fixedHeaderDecode_failed he]
    refine .failed _ h e he fun more first n hacc => ?_
    rw [List.append_assoc] at hacc
    exact hno _ first n hacc

/-- The header behind the bytes `bs`, and what is reported of one more. -/
theorem headerRead_feed (bs : List Byte) (b : Byte) : HeaderRead (bs ++ [b]) (fixedHeaderDecode (fixedHeaderFeed {} bs) b).1
    (fixedHeaderDecode (fixedHeaderFeed {} bs) b).2.1 := by
  have hfeed : ∀ (l pre : List Byte) (h : FixedHeader) (res : DecodeResult), HeaderRead pre h res →
      ∃ res', HeaderRead (pre ++ l) (fixedHeaderFeed h l) res' := by
    intro l
    induction l with
    | nil =>
      intro pre h res hr
      exact ⟨res, by rwa [List.append_nil]⟩
    | cons c l ih =>
      intro pre h res hr
      obtain ⟨res', hr'⟩ := ih (pre ++ [c]) _ _ (hr.next c)
      exact ⟨res', by rwa [List.append_assoc, List.singleton_append] at hr'⟩
  obtain ⟨res, hr⟩ := hfeed bs [] {} .continue .nothing
  exact hr.next b

/- The error that is reported is the one the header keeps. -/
theorem fixedHeaderDecode_kept {h h' : FixedHeader} {b : Byte} {error : Option Error}
    (hdec : fixedHeaderDecode h b = (h', .error, error)) : error = h'.error := by
  unfold fixedHeaderDecode at hdec
  dsimp only at hdec
  repeat' split at hdec
  all_goals
    simp only [Prod.mk.injEq, reduceCtorEq, false_and, and_false, true_and] at hdec
  all_goals
    obtain ⟨rfl, rfl⟩ := hdec
    first | rfl | (symm; assumption)

/- What is open has no end. -/
theorem not_isFixedHeader_of_open {first : Byte} {ds : List Byte} (ho : Open ds) (x : Byte) (n : ℕ) :
    ¬ IsFixedHeader (first :: ds) x n := by
  intro h
  obtain ⟨-, es, d, hbytes, hnum, -⟩ := (isFixedHeader_iff _ _).mp ⟨n, h⟩
  have hd := ho d (by rw [(List.cons.inj hbytes).2]; simp)
  have hlast := hnum.last
  omega

/-- The fixed header codec is exact. The end of a header is reported at the last byte of
a fixed header of the protocol and nowhere else, and what was encoded is read back. Every
other sequence of bytes goes on to a fixed header, or ends in an error that stays. -/
theorem fixed_header_exact (bs : List Byte) (b : Byte) (h : FixedHeader) (res : DecodeResult) (error : Option Error)
    (hdec : fixedHeaderDecode (fixedHeaderFeed {} bs) b = (h, res, error)) :
    (res = .finished ↔ ∃ first n, IsFixedHeader (bs ++ [b]) first n) ∧
      (∀ first n, IsFixedHeader (bs ++ [b]) first n → h.remainingLength = n ∧ h.type = firstType first ∧
        h.dup = firstDup first ∧ h.qos = firstQos first ∧ h.retain = firstRetain first) ∧
      ((∃ first n, IsFixedHeader (bs ++ [b]) first n) ∨
        (∃ more first n, more ≠ [] ∧ IsFixedHeader (bs ++ [b] ++ more) first n) ∨
        ∃ e, res = .error ∧ error = some e ∧
          ∀ more c, fixedHeaderDecode (fixedHeaderFeed h more) c = (h, .error, some e)) ∧
      ∀ (σ : Type) (env : Env σ) (w : World σ) (n : ℤ), Encodable n →
        encodeRemainingLength env n w = .ok (lengthBytes n) w := by
  have hencode : ∀ (σ : Type) (env : Env σ) (w : World σ) (n : ℤ), Encodable n →
      encodeRemainingLength env n w = .ok (lengthBytes n) w := by
    intro σ env w n hn
    obtain ⟨ds, v, hrun, rfl, rfl⟩ := wp_exists ((@encodeRemainingLength_wp _ env w n).mono (fun _ _ h => h)
      fun _ _ h => h.2 hn)
    exact hrun
  have hr := headerRead_feed bs b
  rw [hdec] at hr
  generalize hbytes : bs ++ [b] = bytes at hr
  cases hr with
  | nothing => simp at hbytes
  | length first ds hfirst ho hlen =>
    have hno : ∀ x n, ¬ IsFixedHeader (first :: ds) x n := fun x n => not_isFixedHeader_of_open ho x n
    refine ⟨⟨fun h => by contradiction, fun ⟨x, n, h⟩ => absurd h (hno x n)⟩, fun x n h => absurd h (hno x n), ?_, hencode⟩
    -- one more byte ends it
    obtain ⟨n, hn⟩ := (isFixedHeader_iff (first :: (ds ++ [1])) first).mpr ⟨hfirst, ds, 1, rfl, ho.ended, hlen⟩
    exact .inr (.inl ⟨[1], first, n, by simp, hn⟩)
  | finished first ds d hfirst hd hlen =>
    obtain ⟨n, hn⟩ := (isFixedHeader_iff _ _).mpr ⟨hfirst, ds, d, rfl, hd, hlen⟩
    refine ⟨⟨fun _ => ⟨first, n, hn⟩, fun _ => rfl⟩, fun x m h => ?_, .inl ⟨first, n, hn⟩, hencode⟩
    have hx : first = x := (List.cons.inj h.bytes).1
    subst hx
    exact ⟨h.value_eq, rfl, rfl, rfl, rfl⟩
  | failed _ _ e he hno =>
    have hno : ∀ x n, ¬ IsFixedHeader bytes x n := by
      intro x n
      have hnil := hno [] x n
      rwa [List.append_nil] at hnil
    refine ⟨⟨fun h => by contradiction, fun ⟨x, n, h⟩ => absurd h (hno x n)⟩, fun x n h => absurd h (hno x n), ?_, hencode⟩
    refine .inr (.inr ⟨e, rfl, (fixedHeaderDecode_kept hdec).trans he, fun more c => ?_⟩)
    rw [fixedHeaderFeed_failed he, fixedHeaderDecode_failed he]

/-- The header of a PUBLISH with 321 bytes. -/
theorem fixed_header_exact_publish :
    (fixedHeaderDecode (fixedHeaderFeed {} [0x3b, 0xc1]) 0x02).2.1 = .finished ∧
      IsFixedHeader [0x3b, 0xc1, 0x02] 0x3b 321 ∧
      (fixedHeaderDecode (fixedHeaderFeed {} [0x3b, 0xc1]) 0x02).1.remainingLength = 321 := by
  have hheader : IsFixedHeader ([0x3b, 0xc1] ++ [0x02]) 0x3b 321 := ⟨by decide, by decide, by decide +kernel⟩
  obtain ⟨hiff, hfields, -⟩ := fixed_header_exact [0x3b, 0xc1] 0x02 _ _ _ rfl
  exact ⟨hiff.mpr ⟨0x3b, 321, hheader⟩, hheader, (hfields 0x3b 321 hheader).1⟩

end LightMqtt
