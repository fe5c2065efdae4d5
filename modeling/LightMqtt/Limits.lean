import LightMqtt.Sources

/-!
# Validated objects and their remaining lengths

The header builders sum the lengths of the fields in a `long`. The checks of a
connect bound that sum; those of a subscribe bound neither the number of its
topics from below nor their sum, and those of a publish no negative payload.
-/

namespace LightMqtt

/- The range of a C `int`. -/
def IsInt (x : ℤ) : Prop := -(2^31) ≤ x ∧ x < 2^31

/-! ### The fields of a packet, summed -/

def connectLength (c : Connect) : ℤ :=
  10 + 2 + c.clientId.len + stringCalcFieldLength c.willTopic + stringCalcFieldLength c.willMessage +
    stringCalcFieldLength c.userName + stringCalcFieldLength c.password

/- The topics the packet of a subscribe object carries. -/
def Subscribe.topics (s : Subscribe) : List LString :=
  (List.range s.count.toNat).map fun i => (s.subscriptions.getD i {}).topic

/- The bytes of the topics, each with its length and, in a SUBSCRIBE, a QoS. -/
def topicsLength (topics : List LString) (includeQos : Bool) : ℤ :=
  (topics.map fun t => t.len + 2 + if includeQos then 1 else 0).sum

def subscribeLength (s : Subscribe) (includeQos : Bool) : ℤ := 2 + topicsLength s.topics includeQos

/- The bytes of a PUBLISH between its fixed header and its payload. -/
def publishHeadLength (b : Publish) : ℤ := 2 + b.topic.len + if b.qos = 0 then 0 else 2

def publishLength (b : Publish) : ℤ := publishHeadLength b + b.payload.len

/-- A builder computes the sum of the fields, and its assertion holds for it. -/
structure ExactLength (computed sum : ℤ) : Prop where
  exact : computed = sum
  encodable : Encodable computed

/-! ### What the checks say -/

theorem field_bounds {s : LString} (h : stringValidateFieldLength s = true) : 0 ≤ s.len ∧ s.len ≤ 65535 := by
  unfold stringValidateFieldLength at h
  rw [Bool.and_eq_true] at h
  exact ⟨of_decide_eq_true h.1, of_decide_eq_true h.2⟩

theorem calcFieldLength_bounds {s : LString} (h : stringValidateFieldLength s = true) :
    0 ≤ stringCalcFieldLength s ∧ stringCalcFieldLength s ≤ 65537 := by
  obtain ⟨hlo, hhi⟩ := field_bounds h
  unfold stringCalcFieldLength
  split <;> omega

theorem connectValidate_fields {c : Connect} (h : connectValidate c = true) :
    stringValidateFieldLength c.clientId = true ∧ stringValidateFieldLength c.willTopic = true ∧
      stringValidateFieldLength c.willMessage = true ∧ stringValidateFieldLength c.userName = true ∧
      stringValidateFieldLength c.password = true := by
  unfold connectValidate at h
  split at h
  · contradiction
  · rename_i hn
    simp only [Bool.or_eq_true, Bool.not_eq_true', not_or, Bool.not_eq_false] at hn
    obtain ⟨⟨⟨⟨hid, htopic⟩, hmessage⟩, huser⟩, hpassword⟩ := hn
    exact ⟨hid, htopic, hmessage, huser, hpassword⟩

theorem subscribeValidate_topics {s : Subscribe} (h : subscribeValidate s = true) :
    s.count ≠ 0 ∧ ∀ t ∈ s.topics, 0 < t.len ∧ t.len ≤ 65535 := by
  unfold subscribeValidate at h
  split at h
  · contradiction
  · rename_i hn
    rw [Bool.or_eq_true, not_or] at hn
    refine ⟨by simpa using hn.1, fun t ht => ?_⟩
    obtain ⟨i, hi, rfl⟩ := List.mem_map.mp ht
    have hi := List.all_eq_true.mp h i hi
    simp only [Bool.and_eq_true, decide_eq_true_eq] at hi
    obtain ⟨⟨hlen, hne⟩, -⟩ := hi
    obtain ⟨hlo, hhi⟩ := field_bounds hlen
    exact ⟨by omega, hhi⟩

theorem publishValidate_bounds {b : Publish} (h : publishValidate b = true) :
    2 ≤ publishHeadLength b ∧ publishHeadLength b ≤ 65539 ∧ publishCalcRemainingLength b ≤ 0xfffffff := by
  unfold publishValidate at h
  simp only [Bool.and_eq_true, decide_eq_true_eq] at h
  obtain ⟨⟨⟨hlen, hpos⟩, -⟩, hcalc⟩ := h
  obtain ⟨hlo, hhi⟩ := field_bounds hlen
  refine ⟨?_, ?_, hcalc⟩
  · unfold publishHeadLength
    split <;> omega
  · unfold publishHeadLength
    split <;> omega

/-! ### The sums -/

theorem topicsLength_bounds (topics : List LString) (includeQos : Bool)
    (h : ∀ t ∈ topics, 0 < t.len ∧ t.len ≤ 65535) :
    0 ≤ topicsLength topics includeQos ∧ topicsLength topics includeQos ≤ 65538 * topics.length := by
  induction topics with
  | nil => exact ⟨le_rfl, le_rfl⟩
  | cons t ts ih =>
    obtain ⟨hlo, hhi⟩ := ih fun x hx => h x (List.mem_cons_of_mem _ hx)
    obtain ⟨htlo, hthi⟩ := h t (List.mem_cons_self ..)
    unfold topicsLength at hlo hhi ⊢
    rw [List.map_cons, List.sum_cons, List.length_cons]
    split at hlo <;> simp_all <;> omega

theorem connectLength_exact {c : Connect} (h : connectValidate c = true) :
    ExactLength (connectCalcRemainingLength c) (connectLength c) := by
  obtain ⟨hid, htopic, hmessage, huser, hpassword⟩ := connectValidate_fields h
  have h1 := field_bounds hid
  have h2 := calcFieldLength_bounds htopic
  have h3 := calcFieldLength_bounds hmessage
  have h4 := calcFieldLength_bounds huser
  have h5 := calcFieldLength_bounds hpassword
  have hexact : connectCalcRemainingLength c = connectLength c := by
    apply toLong_of_bounds <;> omega
  refine ⟨hexact, ?_, ?_⟩ <;> rw [hexact] <;> unfold connectLength <;> omega

theorem subscribeLength_exact {s : Subscribe} (hs : IsInt s.count) (h : subscribeValidate s = true) (includeQos : Bool) :
    subscribeCalcRemainingLength s includeQos = subscribeLength s includeQos ∧ 0 ≤ subscribeLength s includeQos := by
  obtain ⟨-, htopics⟩ := subscribeValidate_topics h
  obtain ⟨hlo, hhi⟩ := topicsLength_bounds s.topics includeQos htopics
  have hcount : s.topics.length < 2^31 := by
    unfold Subscribe.topics IsInt at *
    rw [List.length_map, List.length_range]
    omega
  have hsum : subscribeCalcRemainingLength s includeQos = toLong (subscribeLength s includeQos) := by
    unfold subscribeCalcRemainingLength subscribeLength topicsLength Subscribe.topics
    rw [List.map_map]
    rfl
  unfold subscribeLength at hsum ⊢
  rw [hsum]
  refine ⟨?_, by omega⟩
  apply toLong_of_bounds <;> omega

/-- The builder of a CONNECT encodes every accepted object, those of SUBSCRIBE and
UNSUBSCRIBE exactly where there is a topic and the topics fit into a packet, that of
PUBLISH exactly where the payload length is not below zero by more than the rest of
the packet, nor so close to the end of a `long`. -/
theorem validated_encodable_iff (c : Connect) (s : Subscribe) (includeQos : Bool) (b : Publish)
    (hs : IsInt s.count) :
    (connectValidate c = true → ExactLength (connectCalcRemainingLength c) (connectLength c)) ∧
      (subscribeValidate s = true →
        (ExactLength (subscribeCalcRemainingLength s includeQos) (subscribeLength s includeQos) ∧ s.topics ≠ [] ↔
          0 < s.count ∧ topicsLength s.topics includeQos ≤ 268435453)) ∧
      (publishValidate b = true → (ExactLength (publishCalcRemainingLength b) (publishLength b) ↔
        -publishHeadLength b ≤ b.payload.len ∧ b.payload.len < 2^63 - publishHeadLength b)) := by
  refine ⟨connectLength_exact, fun hv => ?_, fun hv => ?_⟩
  · obtain ⟨hsum, hlo⟩ := subscribeLength_exact hs hv includeQos
    have hne : s.topics ≠ [] ↔ 0 < s.count := by
      unfold Subscribe.topics
      rw [ne_eq, List.map_eq_nil_iff, List.range_eq_nil]
      omega
    rw [hne]
    constructor
    · rintro ⟨⟨-, -, hhi⟩, hpos⟩
      rw [hsum] at hhi
      unfold subscribeLength at hhi
      exact ⟨hpos, by omega⟩
    · rintro ⟨hpos, hfit⟩
      refine ⟨⟨hsum, ?_, ?_⟩, hpos⟩
      · rw [hsum]
        exact hlo
      · rw [hsum]
        unfold subscribeLength
        omega
  · obtain ⟨hlo, hhi, hmax⟩ := publishValidate_bounds hv
    have hsum : publishCalcRemainingLength b = toLong (publishLength b) := rfl
    constructor
    · rintro ⟨hexact, hnonneg, -⟩
      rw [hexact] at hnonneg
      unfold publishLength at hexact hnonneg
      rw [hsum] at hexact
      refine ⟨by omega, ?_⟩
      -- a value that does not change in a `long` is in its range
      have hrange : toLong (publishLength b) < 2^63 := by
        unfold toLong
        have hlt := Int.bmod_lt (x := publishLength b) (m := 2^64) (by decide)
        omega
      unfold publishLength at hrange
      omega
    · rintro ⟨hneg, hbig⟩
      have hexact : publishCalcRemainingLength b = publishLength b := by
        rw [hsum]
        unfold publishLength
        apply toLong_of_bounds <;> omega
      refine ⟨hexact, ?_, hmax⟩
      rw [hexact]
      unfold publishLength
      omega

/- A subscribe with the topic `a`, and a publish of `b` under it. -/
def oneTopic : Subscribe := { count := 1, subscriptions := [{ topic := { len := 1, buf := some [97] } }] }
def oneByte : Publish := { topic := { len := 1, buf := some [97] }, payload := { len := 1, buf := some [98] } }

/-- A negative count and a negative payload length are accepted. -/
theorem validated_unencodable :
    (subscribeValidate { oneTopic with count := -1 } = true ∧ ({ oneTopic with count := -1 } : Subscribe).topics = []) ∧
      publishValidate { oneByte with payload := { len := -100 } } = true ∧
      ¬ Encodable (publishCalcRemainingLength { oneByte with payload := { len := -100 } }) := by
  refine ⟨⟨by decide +kernel, rfl⟩, by decide +kernel, ?_⟩
  rintro ⟨hlo, -⟩
  exact absurd hlo (by decide +kernel)

theorem validated_encodable_small :
    ExactLength (subscribeCalcRemainingLength oneTopic true) 6 ∧ ExactLength (publishCalcRemainingLength oneByte) 4 := by
  obtain ⟨-, hs, hb⟩ := validated_encodable_iff {} oneTopic true oneByte ⟨by decide, by decide⟩
  exact ⟨((hs (by decide +kernel)).mpr ⟨by decide, by decide +kernel⟩).1,
    (hb (by decide +kernel)).mpr ⟨by decide +kernel, by decide +kernel⟩⟩

end LightMqtt
