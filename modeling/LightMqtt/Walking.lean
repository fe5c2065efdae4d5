import LightMqtt.Stream

/-!
# How the encoders of fields end

An encoder is called within its field, and what a read callback answers may stop it
there. Only the number of the bytes of a string is spoken of here, not which they
are.
-/

namespace LightMqtt

open Exec

variable {σ : Type} {env : Env σ}

/-- A read callback moves no more bytes than it is asked for. -/
def Env.Bounded (env : Env σ) : Prop := ∀ a d n, (env.strRead a d n).bytes.length ≤ n

/-- Every string of an object is in memory, or has a read callback. -/
def World.Readable (w : World σ) : Prop := ∀ r, r.isStored = true → (w.str r).Ready 0

/- The number of the bytes of a field. -/
def World.width (w : World σ) : Field → ℕ
  | .header bytes => bytes.length
  | .str r el ie => if (w.str r).len = 0 ∧ ie = false then 0 else (w.str r).len.toNat + if el then 2 else 0

theorem width_str (w : World σ) (r : StrRef) (el ie : Bool) : w.width (.str r el ie) =
    if (w.str r).len = 0 ∧ ie = false then 0 else (w.str r).len.toNat + if el then 2 else 0 := rfl

/- Of the bytes of strings nothing is said. -/
def noBytes (_ : σ) (_ : ℕ) : List Byte := []

/-! ### Fields -/

/-- The encoder of a field can be called at its byte `off`. -/
structure World.Open (w : World σ) (off : ℕ) (f : Field) : Prop where
  ready : w.Ready off f
  ahead : ¬ w.Stuck off f

/-- How an encoder ends that had room for `bufLen` bytes at the byte `off` of its field. -/
inductive Walked (w : World σ) (f : Field) (off bufLen : ℕ) : EncodeResult × List Byte → World σ → Prop
  | finished (bytes v) (hs : Sends noBytes f w v) (hl : bytes.length ≤ bufLen)
    (hc : v.tx.internal.buffer.encoded = false) (hw : w.width f ≤ off + bytes.length) :
    Walked w f off bufLen (.finished, bytes) v
  | continue (bytes v) (hs : Sends noBytes f w v) (ho : v.Open (off + bytes.length) f)
    (hc : v.tx.internal.buffer.Caches f) : Walked w f off bufLen (.continue, bytes) v
  | wouldBlock (bytes v) (hs : Sends noBytes f w v) (ho : v.Open off f) (hc : v.tx.internal.buffer.Caches f) :
    Walked w f off bufLen (.wouldBlock, bytes) v
  | error (bytes v) (hs : Sends noBytes f w v) (he : v.tx.internal.buffer.error.isSome = true) :
    Walked w f off bufLen (.error, bytes) v

section Field
variable {w v : World σ} {f : Field} {off bufLen : ℕ}

/- Before an open byte of a field that has some, not all of them were sent. -/
theorem World.Open.lt_width (h : w.Open off f) (hpos : 0 < w.width f) : off < w.width f := by
  cases f with
  | header bytes => exact h.ready
  | str r el ie =>
    have hne : ¬ ((w.str r).len = 0 ∧ ie = false) := by
      intro hz
      rw [width_str, if_pos hz] at hpos
      contradiction
    have hstuck := h.ahead
    rw [stuck_str] at hstuck
    rw [width_str, if_neg hne]
    by_contra hle
    exact hstuck ⟨hne, not_lt.mp hle⟩

theorem Walked.sends {x : EncodeResult × List Byte} (h : Walked w f off bufLen x v) : Sends noBytes f w v := by
  cases h with
  | finished bytes v hs => exact hs
  | «continue» bytes v hs => exact hs
  | wouldBlock bytes v hs => exact hs
  | error bytes v hs => exact hs

theorem stuck_still (h : Sends (noBytes (σ := σ)) f w v) (hr : w.Ready off f) (off' : ℕ) :
    v.Stuck off' f ↔ w.Stuck off' f := by
  cases f with
  | header bytes => rfl
  | str r el ie => rw [stuck_str, stuck_str, (string_still hr.1 h.heap).1]

/- What is left of a field has its last bytes. -/
theorem width_le_left {rest : σ → ℕ → List Byte} (hr : w.Ready off f) (hs : w.Supplied rest off f) :
    w.width f ≤ off + (w.left rest off f).length := by
  cases f with
  | header bytes =>
    change bytes.length ≤ off + (bytes.drop off).length
    rw [List.length_drop]
    omega
  | str r el ie =>
    rw [width_str]
    by_cases hn : (w.str r).len = 0 ∧ ie = false
    · rw [if_pos hn]
      exact Nat.zero_le _
    · rw [if_neg hn, left_str w r el ie off hn, List.length_append, hr.2.2.from_length hs]
      have hwithin := hr.2.2.within
      cases el with
      | false =>
        simp only [stringOffset, Bool.false_eq_true, if_false] at hwithin ⊢
        omega
      | true =>
        have hlen : (stringLenLeft true (w.str r).len off).length = 2 - off := by
          change ((stringLenBytes (w.str r).len).drop off).length = 2 - off
          rw [List.length_drop]
          rfl
        simp only [hlen, stringOffset, if_true] at hwithin ⊢
        omega

/- A field of which the bytes are known is walked. -/
theorem Sent.walked {x : EncodeResult × List Byte} (h : Sent env noBytes f w off bufLen x v) (ho : w.Open off f)
    (hcut : ¬ w.Cut off bufLen f) : Walked w f off bufLen x v := by
  cases h with
  | finished bytes v hs hb hl hc hp =>
    refine .finished bytes v hs hl hc ?_
    rw [← hb]
    exact width_le_left ho.ready hp
  | «continue» bytes v hs hb hl hne hr hc hm hk hp he =>
    refine .continue bytes v hs ⟨hr, fun hstuck => ?_⟩ hc
    rcases hk hstuck with h | h
    · exact ho.ahead h
    · exact hcut h
  | wouldBlock bytes v hs hb hr hc hm hp hw =>
    exact .wouldBlock bytes v hs ⟨hr, fun hstuck => ho.ahead ((stuck_still hs ho.ready off).mp hstuck)⟩ hc

end Field

/-! ### Strings behind a callback -/

section Callback
variable {w v : World σ} {r : StrRef}

variable (env) in
/- The end of `string_encode` behind a read of at most the `n` bytes that are left. -/
theorem stringEncodeResult_walked (el ie : Bool) (off bufLen n : ℕ) (res : StringResult) (bytes : List Byte) (osError : ℤ)
    (hd : Drawn noBytes r w v) (ho : w.Open off (.str r el ie)) (hread : (w.str r).read = true)
    (hn : ¬ ((w.str r).len = 0 ∧ ie = false)) (hc : w.tx.internal.buffer.encoded = false) (hlen : bytes.length ≤ n)
    (hmost : n ≤ (w.str r).len.toNat - stringOffset el off)
    (hroom : (stringLenLeft el (w.str r).len off).length + n ≤ bufLen) :
    Wp (stringEncodeResult env r (stringLenLeft el (w.str r).len off) ((w.str r).len - stringOffset el off) res bytes osError)
      v (Walked w (.str r el ie) off bufLen) fun _ _ => False := by
  obtain ⟨hr, hform, hready⟩ := ho.ready
  obtain ⟨hlo, hhi⟩ := hready.len
  have hwithin := hready.within
  have hbuf : (w.str r).buf = none := by
    rcases hready.source with ⟨-, hf | hb⟩ | ⟨-, hb⟩ | ⟨hf, -⟩
    · rw [hread] at hf
      contradiction
    · exact hb
    · exact hb
    · rw [hread] at hf
      contradiction
  -- the string may be read on from every byte
  have hon : ∀ {u : World σ}, Drawn noBytes r w u → ∀ k, k ≤ (w.str r).len.toNat → (u.str r).Ready k := by
    intro u hu k hk
    obtain ⟨hul, hur, hub, -⟩ := hu.str hr
    refine ⟨by rw [hul]; exact hready.len, by rwa [hul], ?_⟩
    rw [hur, hub]
    exact .inr (.inl ⟨hread, hbuf⟩)
  have hcached : ∀ {u : World σ}, Drawn noBytes r w u → u.tx.internal.buffer.encoded = false := by
    intro u hu
    obtain ⟨s, o, hb⟩ := hu.buffer
    rw [hb]
    exact hc
  have hnote : ∀ s, Drawn noBytes r w (v.setTx { v.tx.internal with buffer := { v.tx.internal.buffer with
      blockingStr := s, osError := osError } }) := fun s => hd.trans hr (.noted v s osError)
  obtain ⟨hoff, -⟩ := stringOffset_add el (w.str r).len off bytes.length
  have hfits : ((bytes.length : ℤ) ≤ (w.str r).len - stringOffset el off) := by omega
  have hwidth : w.width (.str r el ie) = (w.str r).len.toNat + if el then 2 else 0 := if_neg hn
  have hlenlen : (stringLenLeft el (w.str r).len off).length = (if el then 2 else 0) - off := by
    cases el with
    | false => simp [stringLenLeft]
    | true =>
      change ((stringLenBytes (w.str r).len).drop off).length = 2 - off
      rw [List.length_drop]
      rfl
  have hat : stringOffset el off = off - if el then 2 else 0 := by cases el <;> rfl
  have hsum : (stringLenLeft el (w.str r).len off ++ bytes).length = (if el then 2 else 0) - off + bytes.length := by
    rw [List.length_append, hlenlen]
  rw [hat] at hfits hmost
  simp only [stringEncodeResult, wp_bind, wp_modify, wp_assert]
  rw [hat]
  simp only [hfits, decide_true, Bool.or_true, if_true]
  refine wp_if (fun hblock => ?_) fun hblock => wp_if (fun hend => ?_) fun hend => wp_if (fun hgo => ?_) fun hgo => ?_
  · refine .wouldBlock _ _ ((hnote (some r)).sends el ie) ⟨⟨hr, hform, ?_⟩, fun hstuck => ?_⟩
      (caches_of_fresh (hcached (hnote (some r))) _)
    · exact hon (hnote (some r)) _ hwithin
    · exact ho.ahead ((stuck_still ((hnote (some r)).sends el ie) ho.ready off).mp hstuck)
  · simp only [Bool.and_eq_true, decide_eq_true_eq] at hend
    refine .finished _ _ ((hnote v.tx.internal.buffer.blockingStr).sends el ie) (by rw [hsum]; omega)
      (hcached (hnote v.tx.internal.buffer.blockingStr)) ?_
    rw [hwidth, hsum]
    omega
  · simp only [Bool.and_eq_true, decide_eq_true_eq, not_and, not_le] at hgo hend
    have hlt := hend hgo.1
    have hdrawn := hnote v.tx.internal.buffer.blockingStr
    refine .continue _ _ (hdrawn.sends el ie) ⟨⟨hr, hform, hon hdrawn _ ?_⟩, fun hstuck => ?_⟩
      (caches_of_fresh (hcached hdrawn) _)
    · rw [List.length_append, hoff, hat]
      omega
    · rw [stuck_still (hdrawn.sends el ie) ho.ready, stuck_str, hsum] at hstuck
      omega
  · refine .error _ _ ?_ rfl
    obtain ⟨s, o, hb⟩ := hd.buffer
    refine ⟨IsTrans.trans _ _ _ hd.scratch (.tx v _), hd.heap, fun _ _ => rfl, ?_, ?_, ?_⟩
    · change v.tx.internal.pos = _
      rw [hb]
    · change v.tx.internal.offset = _
      rw [hb]
    · change v.tx.internal.error = _
      rw [hb]

theorem stringEncodeData_walked (hb : env.Bounded) (el ie : Bool) (off bufLen room : ℕ) (hd : Drawn noBytes r w v)
    (hstr : v.str r = w.str r) (ho : w.Open off (.str r el ie)) (hread : (w.str r).read = true)
    (hn : ¬ ((w.str r).len = 0 ∧ ie = false)) (hc : w.tx.internal.buffer.encoded = false)
    (hroom : (stringLenLeft el (w.str r).len off).length + room ≤ bufLen) :
    Wp (stringEncodeData env r (stringLenLeft el (w.str r).len off) (stringOffset el off) room) v
      (Walked w (.str r el ie) off bufLen) fun _ _ => False := by
  obtain ⟨hr, hform, hready⟩ := ho.ready
  obtain ⟨hlo, hhi⟩ := hready.len
  have hwithin := hready.within
  have hlen := toSize_min room ((w.str r).len - stringOffset el off) (by omega) (by omega)
  -- the read, behind a string that may have been moved back
  have hgo : ∀ u : World σ, Drawn noBytes r w u → Wp (do
      let x ← stringRead env r (min room ((w.str r).len - stringOffset el off).toNat)
      stringEncodeResult env r (stringLenLeft el (w.str r).len off) ((w.str r).len - stringOffset el off) x.1 x.2.1 x.2.2 :
        Prog σ (EncodeResult × List Byte)) u (Walked w (.str r el ie) off bufLen) fun _ _ => False := by
    intro u hu
    obtain ⟨-, hur, hub, -⟩ := hu.str hr
    have hbuf : (u.str r).buf.isSome = false := by
      rw [hub]
      rcases hready.source with ⟨-, hf | hb⟩ | ⟨-, hb⟩ | ⟨hf, -⟩
      · rw [hread] at hf
        contradiction
      · rw [hb]
        rfl
      · rw [hb]
        rfl
      · rw [hread] at hf
        contradiction
    have hend := fun (v : World σ) (hv : Drawn noBytes r w v) res bytes osError hle =>
      stringEncodeResult_walked env el ie off bufLen
        (min room ((w.str r).len - stringOffset el off).toNat) res bytes osError hv ho
        hread hn hc hle (by omega) (by omega)
    simp only [stringRead, wp_bind, wp_get, hur, hread, hbuf, Bool.and_false, Bool.false_eq_true, if_false, if_true]
    refine wp_if (fun _ => hend u hu _ _ _ (Nat.zero_le _)) fun _ => ?_
    simp only [wp_bind, wp_set]
    have hle := hb u.app (u.str r).data (min room ((w.str r).len - stringOffset el off).toNat)
    have hv := hu.trans hr (Drawn.app (a := (env.strRead u.app (u.str r).data
      (min room ((w.str r).len - stringOffset el off).toNat)).app) fun _ _ => rfl)
    cases (env.strRead u.app (u.str r).data (min room ((w.str r).len - stringOffset el off).toNat)).result with
    | success => exact hend _ hv _ _ _ hle
    | wouldBlock => exact hend _ hv _ _ _ hle
    | error => exact hend _ hv _ _ _ hle
  simp only [stringEncodeData, wp_bind, wp_get]
  rw [hstr, hlen]
  refine wp_if (fun _ => ?_) fun _ => ?_
  · simp only [stringRewind, wp_bind, wp_modify]
    exact (wp_bind ..).mp (hgo _ (hd.trans hr (.setPos v 0 hr)))
  · exact hgo v hd

theorem stringEncode_walked (hb : env.Bounded) (el ie : Bool) (off bufLen : ℕ) (ho : w.Open off (.str r el ie))
    (hcut : ¬ w.Cut off bufLen (.str r el ie)) (hread : (w.str r).read = true)
    (hc : w.tx.internal.buffer.encoded = false) :
    Wp (stringEncode env r el ie off bufLen) w (Walked w (.str r el ie) off bufLen) fun _ _ => False := by
  refine stringEncode_parts w r el ie off bufLen ho.ready hc (fun x u h => h.walked ho hcut) (fun hn hroom => ?_)
    fun _ _ _ hk => ho.ahead hk
  have hnoted : Drawn noBytes r w (w.setTx { w.tx.internal with
      buffer := { w.tx.internal.buffer with blockingStr := none } }) := .noted w none _
  exact stringEncodeData_walked hb el ie off bufLen _ hnoted (str_setTx ..) ho hread hn hc (by omega)

end Callback

/-- No encoder fails an assertion where its field is open. -/
theorem runEncoder_walked (hb : env.Bounded) (w : World σ) (v : Value) (x : Encoder) (off bufLen : ℕ)
    (ho : w.Open off (x.field w.heap v (w.heap.subscribes v.value).current))
    (hcut : ¬ w.Cut off bufLen (x.field w.heap v (w.heap.subscribes v.value).current))
    (hc : w.tx.internal.buffer.Caches (x.field w.heap v (w.heap.subscribes v.value).current)) (hv : x.Valid w.heap v) :
    Wp (runEncoder env v off bufLen x) w (Walked w (x.field w.heap v (w.heap.subscribes v.value).current) off bufLen)
      fun _ _ => False := by
  by_cases hm : w.InMemory (x.field w.heap v (w.heap.subscribes v.value).current)
  · refine (runEncoder_sent w v x off bufLen (.inl hm) ho.ready hc).mono (fun y u hu => Sent.walked hu ho hcut)
      fun _ _ hh => ?_
    rcases hh.2 with h | h
    · exact h hv
    · exact ho.ahead h
  · -- a string with a read callback
    simp only [World.InMemory, not_forall] at hm
    obtain ⟨r, el, ie, hf, hread⟩ := hm
    have hread : (w.str r).read = true := by simpa using hread
    have hfresh : w.tx.internal.buffer.encoded = false := by
      by_contra he
      have hcached := hc (by simpa using he)
      rw [hf] at hcached
      contradiction
    have hstr : ∀ r el ie, x.field w.heap v (w.heap.subscribes v.value).current = .str r el ie → (w.str r).read = true →
        Wp (stringEncode env r el ie off bufLen) w (Walked w (.str r el ie) off bufLen) fun _ _ => False := by
      intro r el ie hf hread
      rw [hf] at ho hcut
      exact stringEncode_walked hb el ie off bufLen ho hcut hread hfresh
    cases x with
    | connectFixedHeader | connectVariableHeader | subscribeHeaderSubscribe | subscribeHeaderUnsubscribe | subscribeQos |
        publishFixedHeader | publishPacketId | pubackFixedHeader | pubrecFixedHeader | pubrelFixedHeader |
        pubcompFixedHeader | pingreqFixedHeader | disconnectFixedHeader => contradiction
    | _ =>
      have hr := (Field.str.inj hf).1
      exact hstr _ _ _ rfl (by rw [hr]; exact hread)

end LightMqtt
