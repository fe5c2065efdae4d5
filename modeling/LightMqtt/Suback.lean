import LightMqtt.Bodies
import LightMqtt.PublishBody

/-!
# Answers to a SUBSCRIBE

A SUBACK brings a return code for each subscription of a request that was sent, or
it is refused. The codes are written into the array of the application as they
arrive; the number of them is compared with that of the subscriptions first.
-/

namespace LightMqtt

open Exec

variable {σ : Type} {env : Env σ}

/- The callbacks of requests that were called. -/
def World.calledBack (w : World σ) : List (Callback × Option ℕ × Ptr × Bool) :=
  w.log.filterMap fun
    | .answered cb req p ok => some (cb, req, p, ok)
    | _ => none

/- The return codes of the protocol. -/
def ReturnCode (c : Byte) : Prop := c = 0 ∨ c = 1 ∨ c = 2 ∨ c = 0x80

/-- The first marked SUBSCRIBE with a packet id. -/
def Store.subscribeOf (s : Store) (id : PacketId) : Option Entry :=
  s.sent.find? fun x => x.kind = .subscribe && x.value.packetId = id

theorem returnCode_iff (c : Byte) : ¬ (2 < c ∧ c ≠ 0x80) ↔ ReturnCode c := by
  unfold ReturnCode
  simp only [UInt8.lt_iff_toNat_lt, ne_eq, ← UInt8.toNat_inj]
  change ¬ (2 < c.toNat ∧ ¬ c.toNat = 128) ↔ c.toNat = 0 ∨ c.toNat = 1 ∨ c.toNat = 2 ∨ c.toNat = 128
  omega

theorem Store.popMarkedBy_subscribeOf (s : Store) (id : PacketId) :
    (s.popMarkedBy .subscribe id).map Prod.fst = s.subscribeOf id := by
  unfold Store.subscribeOf
  cases h : s.popMarkedBy .subscribe id with
  | none =>
    symm
    rw [Option.map_none, List.find?_eq_none]
    intro x hx hmatch
    simp only [Bool.and_eq_true, decide_eq_true_eq] at hmatch
    obtain ⟨e, t, hpop⟩ := s.popMarkedBy_of_mem .subscribe id x hx hmatch.1 hmatch.2
    rw [hpop] at h
    contradiction
  | some x =>
    obtain ⟨pre, post, hr, hlt, hkind, hid, hbefore⟩ := s.popMarkedBy_spec x.2 .subscribe id x.1 h
    have hsent : s.sent = pre ++ x.1 :: post.take (s.pos - pre.length - 1) := by
      unfold Store.sent
      rw [hr.before, List.take_append, List.take_of_length_le (by omega)]
      obtain ⟨k, hk⟩ : ∃ k, s.pos - pre.length = k + 1 := ⟨s.pos - pre.length - 1, by omega⟩
      rw [hk, List.take_succ_cons]
      rfl
    symm
    rw [hsent, Option.map_some, List.find?_append]
    have hnone : (pre.find? fun x => x.kind = .subscribe && x.value.packetId = id) = none := by
      rw [List.find?_eq_none]
      intro y hy hmatch
      simp only [Bool.and_eq_true, decide_eq_true_eq] at hmatch
      exact hbefore y hy hmatch
    rw [hnone, Option.none_or, List.find?_cons_of_pos]
    simp [hkind, hid]

/-! ### Return codes -/

/-- The first codes were written to the subscriptions of `p`, and nothing else. -/
structure Heap.Coded (h h' : Heap) (p : Ptr) (codes : List Byte) : Prop where
  count : (h'.subscribes p).count = (h.subscribes p).count
  length : (h'.subscribes p).subscriptions.length = (h.subscribes p).subscriptions.length
  written : ∀ i c, codes[i]? = some c → i < (h.subscribes p).subscriptions.length → (h'.subscription p i).returnCode = c
  others : ∀ q i, (q = p → codes.length ≤ i) → h'.subscription q i = h.subscription q i

theorem Heap.Coded.refl (h : Heap) (p : Ptr) : h.Coded h p [] :=
  ⟨rfl, rfl, fun i c hc => by simp at hc, fun _ _ _ => rfl⟩

/- The next code is written. -/
theorem Heap.Coded.next {h h' : Heap} {p : Ptr} {codes : List Byte} (hc : h.Coded h' p codes) (b : Byte) :
    h.Coded (h'.modifySubscription p codes.length fun x => { x with returnCode := b }) p (codes ++ [b]) := by
  have hsame : (h'.modifySubscription p codes.length fun x => { x with returnCode := b }).subscribes p =
      { h'.subscribes p with
        subscriptions := (h'.subscribes p).subscriptions.modify codes.length fun x => { x with returnCode := b } } :=
    Function.update_self ..
  have hother : ∀ q, q ≠ p →
      (h'.modifySubscription p codes.length fun x => { x with returnCode := b }).subscribes q = h'.subscribes q :=
    fun q hq => Function.update_of_ne hq ..
  refine ⟨?_, ?_, fun i c hi hlt => ?_, fun q i hq => ?_⟩
  · rw [hsame]
    exact hc.count
  · rw [hsame, ← hc.length]
    exact List.length_modify ..
  · unfold Heap.subscription
    rw [hsame]
    dsimp only
    rw [List.getD_eq_getElem?_getD, List.getElem?_modify]
    by_cases hlast : codes.length = i
    · have hb : b = c := by
        rw [← hlast, List.getElem?_concat_length] at hi
        exact Option.some.inj hi
      have hin : i < (h'.subscribes p).subscriptions.length := by rwa [hc.length]
      rw [List.getElem?_eq_getElem hin]
      simp [hlast, hb]
    · have hi : codes[i]? = some c := by
        obtain ⟨hlt, -⟩ := List.getElem?_eq_some_iff.mp hi
        rw [List.length_append, List.length_singleton] at hlt
        rwa [List.getElem?_append_left (by omega)] at hi
      have hold := hc.written i c hi hlt
      unfold Heap.subscription at hold
      rw [List.getD_eq_getElem?_getD] at hold
      simpa [hlast] using hold
  · by_cases hp : q = p
    · subst hp
      have hi := hq rfl
      rw [List.length_append, List.length_singleton] at hi
      rw [← hc.others q i fun _ => by omega]
      unfold Heap.subscription
      rw [hsame]
      dsimp only
      rw [List.getD_eq_getElem?_getD, List.getD_eq_getElem?_getD, List.getElem?_modify_ne _ _ (by omega)]
    · rw [← hc.others q i fun h => absurd h hp]
      unfold Heap.subscription
      rw [hother q hp]

/-! ### Turns -/

section Turn
variable {w : World σ} {h : FixedHeader} {Q : Turn → World σ → Prop} {E : Halt → World σ → Prop}

theorem subackTurn_wp (bs : List Byte) (v : World σ) : Wp (rxBufferDecodeBodyTurn env rxBufferDecoderSuback bs) v Q E ↔
    Wp (rxBufferDecodeRemainingWithId env rxBufferDecoderSuback bs) v
      (fun r u => Wp (rxBufferDecodedBytes env r.1 r.2) u Q E) E := by
  simp only [rxBufferDecodeBodyTurn, wp_bind]
  exact Iff.rfl

/- The decoder behind the first byte of the packet id. -/
def World.subackId (w : World σ) (h : FixedHeader) (hi : Byte) : World σ := w.setRx {
  header := h
  headerFinished := true
  decoder := some rxBufferDecoderSuback
  remainBufPos := 1
  packetId := hi.toUInt16 <<< 8 }

/- The decoder at the packet id. -/
def World.subackNamed (w : World σ) (h : FixedHeader) (id : PacketId) : World σ := w.setRx {
  header := h
  headerFinished := true
  decoder := some rxBufferDecoderSuback
  remainBufPos := 1
  packetId := id }

/- The decoder behind the packet id and `k` return codes. -/
def World.subackAt (w : World σ) (h : FixedHeader) (id : PacketId) (e : Entry) (s : Store) (heap : Heap) (k : ℕ) : World σ :=
  { w.setStore w.rx.store s with
    heap
    log := .popped e.kind id e.value.req :: .packetId h.type id :: w.log
    rx := { w.rx with internal := {
      header := h
      headerFinished := true
      decoder := some rxBufferDecoderSuback
      remainBufPos := 2 + k
      packetId := id
      value := e.value } } }

/- The first byte of the packet id. -/
theorem subackTurn_first (b : Byte) (bs : List Byte) (hlong : 3 ≤ h.remainingLength) :
    Wp (rxBufferDecodeBodyTurn env rxBufferDecoderSuback (b :: bs)) (w.atBody h rxBufferDecoderSuback)
      (fun t u => t = .read 1 ∧ u = w.subackId h b) fun _ _ => False := by
  rw [subackTurn_wp]
  simp only [rxBufferDecodeRemainingWithId, wp_bind, wp_get]
  refine wp_if (fun h2 => ?_) fun _ => ?_
  · change 2 < 0 + 1 at h2
    omega
  · simp only [wp_bind, wp_assert]
    rw [if_pos (by simp)]
    simp only [wp_modify]
    refine wp_if (fun h2 => ?_) fun _ => ?_
    · change 0 + 1 = 2 at h2
      omega
    · simp only [wp_pure, rxBufferDecodedBytes, wp_bind, wp_modify]
      change Wp (if (true && decide (h.remainingLength ≤ 1)) = true then _ else _) _ _ _
      rw [if_neg (by simp; omega)]
      refine ⟨rfl, ?_⟩
      have hid : (0 : UInt16) ||| b.toUInt16 <<< UInt16.ofNat ((2 - (0 + 1)) * 8) = b.toUInt16 <<< 8 := UInt16.zero_or
      unfold World.subackId
      rw [← hid]
      rfl

/- The request is looked up. -/
theorem popSuback (id : PacketId) (v : World σ) : Wp (rxBufferPopPacket rxBufferDecoderSuback id) v
    (fun ok u => (∃ e s, v.rxStore.popMarkedBy .subscribe id = some (e, s) ∧ ok = true ∧
        u = ((v.setStore v.rx.store s).setRx { v.rx.internal with value := e.value }).emit (.popped e.kind id e.value.req)) ∨
      v.rxStore.popMarkedBy .subscribe id = none ∧ ok = false ∧
        u = (v.setRx { v.rx.internal with value := {} }).failRx .decodeNoCorrespondingRequest 0) fun _ _ => False := by
  simp only [rxBufferPopPacket, wp_bind, wp_get]
  have hstore : (rxBufferDecoderSuback.kind.bind fun k => v.rxStore.popMarkedBy k id) = v.rxStore.popMarkedBy .subscribe id :=
    rfl
  rw [hstore]
  cases hpop : v.rxStore.popMarkedBy .subscribe id with
  | none =>
    simp only [wp_bind, wp_set, rxBufferFail, wp_modify, wp_pure]
    exact .inr ⟨trivial, trivial, trivial⟩
  | some x =>
    obtain ⟨e, s⟩ := x
    simp only [wp_bind, wp_set, wp_emit, wp_pure]
    exact .inl ⟨e, s, rfl, trivial, rfl⟩

/- The second byte: the request is looked up. -/
theorem subackTurn_second (lo : Byte) (bs : List Byte) (hi : Byte) (hlong : 3 ≤ h.remainingLength) {id : PacketId}
    (hid : hi.toUInt16 <<< 8 ||| lo.toUInt16 = id) :
    Wp (rxBufferDecodeBodyTurn env rxBufferDecoderSuback (lo :: bs)) (w.subackId h hi)
      (fun t u => (∃ e s, w.rxStore.popMarkedBy .subscribe id = some (e, s) ∧ t = .read 1 ∧ u = w.subackAt h id e s w.heap 0) ∨
        w.rxStore.popMarkedBy .subscribe id = none ∧ t = .failed 0 ∧ u.rx.internal.error.isSome = true ∧
          u.rxStore = w.rxStore ∧ u.heap = w.heap ∧ u.calledBack = w.calledBack) fun _ _ => False := by
  rw [subackTurn_wp]
  simp only [rxBufferDecodeRemainingWithId, wp_bind, wp_get]
  refine wp_if (fun h2 => ?_) fun _ => ?_
  · change 2 < 1 + 1 at h2
    omega
  · simp only [wp_bind, wp_assert]
    rw [if_pos (by simp)]
    simp only [wp_modify]
    refine wp_if (fun _ => ?_) fun h2 => absurd rfl h2
    have hjoin : hi.toUInt16 <<< 8 ||| lo.toUInt16 <<< UInt16.ofNat ((2 - (1 + 1)) * 8) = id := by
      rw [← hid]
      congr 1
      exact UInt16.shiftLeft_zero
    have hread : ((w.subackId h hi).readId ((lo :: bs).headD 0)) = w.subackNamed h id := by
      rw [← hjoin]
      rfl
    rw [hread]
    simp only [wp_bind, wp_get, wp_emit]
    change Wp (rxBufferPopPacket rxBufferDecoderSuback id) ((w.subackNamed h id).emit (.packetId h.type id)) _ _
    have hstore : ((w.subackNamed h id).emit (.packetId h.type id)).rxStore = w.rxStore := by
      change World.store _ w.rx.store = w.store w.rx.store
      cases w.rx.store <;> rfl
    refine (popSuback id _).mono (fun ok u hu => ?_) fun _ _ h => h
    rw [hstore] at hu
    rcases hu with ⟨e, s, hpop, rfl, rfl⟩ | ⟨hpop, rfl, rfl⟩
    · refine wp_if (fun _ => ?_) fun hno => absurd rfl hno
      change Wp (rxBufferDecodedBytes env .continue 1) _ _ _
      unfold Wp
      rw [decodedBytes_continue (by change 1 + 1 < h.remainingLength; omega)]
      refine .inl ⟨e, s, hpop, rfl, ?_⟩
      unfold World.subackAt World.setStore
      change World.advance (World.emit (World.setRx (World.setStore _ w.rx.store s) _) _) 1 = _
      cases w.rx.store <;> rfl
    · refine wp_if (fun hno => by contradiction) fun _ => ?_
      change Wp (rxBufferDecodedBytes env .error 1) _ _ _
      unfold Wp
      rw [decodedBytes_error rfl]
      refine .inr ⟨hpop, rfl, rfl, ?_, rfl, rfl⟩
      change World.store _ w.rx.store = w.store w.rx.store
      cases w.rx.store <;> rfl

/- A request that is answered with all its codes. -/
structure SubackAnswered (w : World σ) (e : Entry) (heap : Heap) (u : World σ) : Prop where
  calledBack : u.calledBack = (.onSuback, e.value.req, e.value.value, !w.closed) :: w.calledBack
  heap : u.heap = heap

/- The callback of the request is called at the end of the packet. -/
theorem finishSuback (id : PacketId) (e : Entry) (s : Store) (heap : Heap) (k : ℕ) (hc : e.value.callback = some .onSuback) :
    Wp (rxBufferFinishPacket env rxBufferDecoderSuback) (w.subackAt h id e s heap k)
      (fun ok u => SubackAnswered w e heap u ∧
        (ok = true ∧ u.rx.internal = {} ∨ ok = false ∧ u.rx.internal.error.isSome = true)) fun _ _ => False := by
  simp only [rxBufferFinishPacket, wp_bind, wp_get]
  rw [if_neg (by decide)]
  simp only [wp_bind, wp_modify]
  have hcall : Wp (callValue env e.value) (w.subackAt h id e s heap k).decoded (fun _ u =>
      Called ((w.subackAt h id e s heap k).decoded.emit (.answered .onSuback e.value.req e.value.value (!w.closed))) u)
      fun _ _ => False := by
    have hclosed : (w.subackAt h id e s heap k).decoded.closed = w.closed := World.setStore_closed ..
    have hrun : ∀ depth, Wp (callCallback env depth e.value) (w.subackAt h id e s heap k).decoded (fun _ u =>
        Called ((w.subackAt h id e s heap k).decoded.emit (.answered .onSuback e.value.req e.value.value (!w.closed))) u)
        fun _ _ => False := by
      intro depth
      rw [callCallback_requests]
      simp only [wp_bind, wp_get, hc, hclosed]
      exact (callUser_called env (fun _ => True) _ _ _ _ _).mono (fun _ _ h => h.1) fun _ _ h => h
    exact hrun env.fuel
  refine hcall.mono (fun ok u hu => ?_) fun _ _ h => h
  have hback : u.calledBack = (.onSuback, e.value.req, e.value.value, !w.closed) :: w.calledBack := by
    obtain ⟨evs, hlog, hall⟩ := hu.log
    have hquiet : evs.filterMap (fun ev => match ev with
        | .answered cb req p ok => some (cb, req, p, ok)
        | _ => none) = [] := by
      rw [List.filterMap_eq_nil_iff]
      intro ev hev
      obtain ⟨r, kind, id, p, used, -, rfl⟩ := hall ev hev
      rfl
    unfold World.calledBack
    rw [hlog, List.filterMap_append, hquiet]
    rfl
  have hheap : u.heap = heap := by
    rw [hu.same]
    rfl
  refine wp_if (fun hok => ?_) fun hok => ?_
  · simp only [wp_bind, emitFinished, lmqttRxBufferReset, wp_modify, wp_pure]
    exact ⟨⟨hback, hheap⟩, .inl ⟨trivial, rfl⟩⟩
  · simp only [wp_bind, wp_assert, wp_modify, wp_pure]
    rw [if_pos (by simp [rxBufferDecoderSuback])]
    exact ⟨⟨hback, hheap⟩, .inr ⟨trivial, rfl⟩⟩

/- A return code is checked and written. -/
theorem rxBufferDecodeSuback_code (b : Byte) (bs : List Byte) (id : PacketId) (e : Entry) (s : Store) (heap : Heap) (k m : ℕ)
    (hlen : h.remainingLength = 2 + m) (hk : k < m) (hm : 0 < k → (m : ℤ) = (heap.subscribes e.value.value).count) :
    Wp (rxBufferDecodeSuback env (b :: bs)) (w.subackAt h id e s heap k)
      (fun r u =>
        ¬ ((m : ℤ) = (heap.subscribes e.value.value).count ∧ ReturnCode b) ∧ r = (.error, 0) ∧
          u.rx.internal.error.isSome = true ∧ u.heap = heap ∧ u.calledBack = w.calledBack ∨
        ((m : ℤ) = (heap.subscribes e.value.value).count ∧ ReturnCode b) ∧
          r = (if k + 1 < m then .continue else .finished, 1) ∧
          u = w.subackAt h id e s (heap.modifySubscription e.value.value k fun x => { x with returnCode := b }) k)
      fun _ _ => False := by
  have hpos : (w.subackAt h id e s heap k).rx.internal.remainBufPos - 2 = k := by
    change 2 + k - 2 = k
    omega
  have hremain : (((w.subackAt h id e s heap k).rx.internal.header.remainingLength : ℕ) : ℤ) - 2 = m := by
    change ((h.remainingLength : ℕ) : ℤ) - 2 = m
    rw [hlen]
    push_cast
    omega
  simp only [rxBufferDecodeSuback, wp_bind, wp_assert, wp_get]
  rw [if_pos (by simp), hpos, hremain]
  refine wp_if (fun hbad => ?_) fun hcount => ?_
  · exact .inl ⟨fun hgood => hbad.2 hgood.1, rfl, rfl, rfl, rfl⟩
  · have hcount : (m : ℤ) = (heap.subscribes e.value.value).count := by
      by_cases h0 : k = 0
      · by_contra hne
        exact hcount ⟨h0, hne⟩
      · exact hm (by omega)
    refine wp_if (fun hbad => ?_) fun hcode => ?_
    · exact .inl ⟨fun hgood => (returnCode_iff b).mpr hgood.2 hbad, rfl, rfl, rfl, rfl⟩
    · refine .inr ⟨⟨hcount, (returnCode_iff b).mp hcode⟩, ?_, rfl⟩
      change (if (heap.subscribes e.value.value).count ≤ (k : ℤ) + 1 then DecodeResult.finished else .continue, 1) = _
      rw [← hcount]
      by_cases hlast : k + 1 < m
      · rw [if_neg (by omega), if_pos hlast]
      · rw [if_pos (by omega), if_neg hlast]

/-- A turn at a return code. -/
theorem subackTurn_code (b : Byte) (bs : List Byte) (id : PacketId) (e : Entry) (s : Store) (heap : Heap) (k m : ℕ)
    (hc : e.value.callback = some .onSuback) (hlen : h.remainingLength = 2 + m) (hk : k < m)
    (hm : 0 < k → (m : ℤ) = (heap.subscribes e.value.value).count) :
    Wp (rxBufferDecodeBodyTurn env rxBufferDecoderSuback (b :: bs)) (w.subackAt h id e s heap k)
      (fun t u =>
        (¬ ((m : ℤ) = (heap.subscribes e.value.value).count ∧ ReturnCode b) ∧ t = .failed 0 ∧
          u.rx.internal.error.isSome = true ∧ u.heap = heap ∧ u.calledBack = w.calledBack) ∨
        ((m : ℤ) = (heap.subscribes e.value.value).count ∧ ReturnCode b) ∧
          (k + 1 < m ∧ t = .read 1 ∧
            u = w.subackAt h id e s (heap.modifySubscription e.value.value k fun x => { x with returnCode := b }) (k + 1) ∨
          k + 1 = m ∧
            SubackAnswered w e (heap.modifySubscription e.value.value k fun x => { x with returnCode := b }) u ∧
            (t = .read 1 ∧ u.rx.internal = {} ∨ t = .failed 1 ∧ u.rx.internal.error.isSome = true)))
      fun _ _ => False := by
  rw [subackTurn_wp]
  simp only [rxBufferDecodeRemainingWithId, wp_bind, wp_get]
  refine wp_if (fun _ => ?_) fun h2 => ?_
  · simp only [rxBufferDecodeRemainingWithoutId, wp_bind, wp_get]
    change Wp (rxBufferDecodeSuback env (b :: bs)) _ _ _
    refine (rxBufferDecodeSuback_code b bs id e s heap k m hlen hk hm).mono (fun r u hu => ?_) fun _ _ h => h
    rcases hu with ⟨hno, rfl, herror, hheap, hback⟩ | ⟨hgood, rfl, rfl⟩
    · rw [if_pos rfl, wp_pure]
      unfold Wp
      rw [decodedBytes_error herror]
      exact .inl ⟨hno, rfl, herror, hheap, hback⟩
    · generalize hheap : (heap.modifySubscription e.value.value k fun x => { x with returnCode := b }) = heap'
      by_cases hlast : k + 1 < m
      · have hpos : (w.subackAt h id e s heap' k).rx.internal.remainBufPos + 1 <
            (w.subackAt h id e s heap' k).rx.internal.header.remainingLength := by
          change 2 + k + 1 < h.remainingLength
          omega
        rw [if_pos hlast, if_neg (by decide), wp_bind, wp_assert, if_pos (by simp [hpos]), wp_pure]
        unfold Wp
        rw [decodedBytes_continue hpos]
        exact .inr ⟨hgood, .inl ⟨hlast, rfl, rfl⟩⟩
      · have hpos : (w.subackAt h id e s heap' k).rx.internal.remainBufPos + 1 =
            (w.subackAt h id e s heap' k).rx.internal.header.remainingLength := by
          change 2 + k + 1 = h.remainingLength
          omega
        rw [if_neg hlast, if_neg (by decide), wp_bind, wp_assert, if_pos (by simp [hpos]), wp_pure]
        simp only [rxBufferDecodedBytes, wp_bind, wp_modify]
        change Wp (if (true && decide (h.remainingLength ≤ 2 + k + 1)) = true then _ else _)
          (w.subackAt h id e s heap' (k + 1)) _ _
        rw [if_pos (by simp; omega), wp_bind]
        refine (finishSuback id e s heap' (k + 1) hc).mono (fun ok v hv => ?_) fun _ _ h => h
        obtain ⟨hanswered, hres⟩ := hv
        refine wp_if (fun hok => ?_) fun hok => ?_
        · exact .inr ⟨hgood, .inr ⟨by omega, hanswered, .inl ⟨rfl, (hres.resolve_right fun h => by simp [hok] at h).2⟩⟩⟩
        · exact .inr ⟨hgood, .inr ⟨by omega, hanswered, .inr ⟨rfl, (hres.resolve_left fun h => hok h.1).2⟩⟩⟩
  · change ¬ 2 < 2 + k + 1 at h2
    omega

end Turn

/-! ### The packet -/

/-- The codes answer all subscriptions. -/
def SubackCodes (count : ℤ) (codes : List Byte) : Prop := codes.length = count ∧ ∀ c ∈ codes, ReturnCode c

/-- The request `e` was answered with all codes. -/
structure SubackDone (w : World σ) (e : Entry) (codes : List Byte) (u : World σ) : Prop where
  good : SubackCodes (w.heap.subscribes e.value.value).count codes
  calledBack : u.calledBack = (.onSuback, e.value.req, e.value.value, !w.closed) :: w.calledBack
  heap : w.heap.Coded u.heap e.value.value codes

/-- It was not, and nothing behind its subscriptions was written. -/
structure SubackNotDone (w : World σ) (e : Entry) (codes : List Byte) (u : World σ) : Prop where
  bad : ¬ SubackCodes (w.heap.subscribes e.value.value).count codes
  calledBack : u.calledBack = w.calledBack
  heap : ∀ (q : Ptr) (i : ℕ), (q = e.value.value → (w.heap.subscribes e.value.value).count ≤ (i : ℤ)) →
    u.heap.subscription q i = w.heap.subscription q i

section Packet
variable {w : World σ} {h : FixedHeader} {id : PacketId} {codes : List Byte} {e : Entry} {s : Store}

/-- What is left of the body of a SUBACK. -/
inductive SubackLeft (w : World σ) (h : FixedHeader) (id : PacketId) (codes : List Byte) (e : Entry) (s : Store) :
    List Byte → World σ → Prop
  | first : SubackLeft w h id codes e s (packetIdBytes id ++ codes) (w.atBody h rxBufferDecoderSuback)
  | second : SubackLeft w h id codes e s ((packetIdBytes id ++ codes).drop 1) (w.subackId h (stringLenByte id.toNat 1))
  | code (k : ℕ) (heap : Heap) (hk : k < codes.length) (hh : w.heap.Coded heap e.value.value (codes.take k))
    (hv : ∀ c ∈ codes.take k, ReturnCode c) (hn : 0 < k → codes.length = (w.heap.subscribes e.value.value).count) :
    SubackLeft w h id codes e s (codes.drop k) (w.subackAt h id e s heap k)
  | done (v : World σ) (hd : SubackDone w e codes v) (hv : v.rx.internal = {}) : SubackLeft w h id codes e s [] v

/- Only the next byte is looked at. -/
theorem subackTurn_past {bs : List Byte} (hb : bs ≠ []) (more : List Byte) :
    rxBufferDecodeBodyTurn env rxBufferDecoderSuback (bs ++ more) = rxBufferDecodeBodyTurn env rxBufferDecoderSuback bs := by
  obtain ⟨b, bs, rfl⟩ := List.exists_cons_of_ne_nil hb
  have hone : ∀ l : List Byte, decide (1 ≤ (b :: l).length) = true := fun l => by simp
  have hcode : ∀ l l' : List Byte, rxBufferDecodeSuback env (b :: l) = rxBufferDecodeSuback env (b :: l') := by
    intro l l'
    unfold rxBufferDecodeSuback
    rw [hone l, hone l']
    rfl
  have hid : ∀ l l' : List Byte, rxBufferDecodeRemainingWithId env rxBufferDecoderSuback (b :: l) =
      rxBufferDecodeRemainingWithId env rxBufferDecoderSuback (b :: l') := by
    intro l l'
    unfold rxBufferDecodeRemainingWithId rxBufferDecodeRemainingWithoutId
    have htype : rxBufferDecodeType env rxBufferDecoderSuback (b :: l) =
        rxBufferDecodeType env rxBufferDecoderSuback (b :: l') :=
      hcode l l'
    rw [htype, hone l, hone l']
    rfl
  have hremaining : decodeRemaining env rxBufferDecoderSuback (b :: (bs ++ more)) =
      decodeRemaining env rxBufferDecoderSuback (b :: bs) := hid (bs ++ more) bs
  rw [List.cons_append, rxBufferDecodeBodyTurn, rxBufferDecodeBodyTurn, hremaining]

theorem suback_reader (hs : w.rxStore.popMarkedBy .subscribe id = some (e, s)) (hc : e.value.callback = some .onSuback)
    (hlen : h.remainingLength = 2 + codes.length) (hne : codes ≠ []) :
    Reader env (SubackLeft w h id codes e s) fun u => u.rx.internal.error.isSome = true ∧
      (SubackDone w e codes u ∨ SubackNotDone w e codes u) := by
  have hpos := List.length_pos_iff.mpr hne
  refine ⟨fun {rest v} hv => ?_, fun he => he.1, fun {bs more v} hb hv => ?_, fun {bs v} more hb hv => ?_⟩
  · cases hv with
    | done v hd hv =>
      rw [hv]
      exact ⟨rfl, rfl⟩
    | first | second | code => exact ⟨rfl, rfl⟩
  · have hlength := List.length_pos_iff.mpr hb
    generalize hrest : bs ++ more = rest at hv
    obtain ⟨b, bs, rfl⟩ := List.exists_cons_of_ne_nil hb
    cases hv with
    | first =>
      have hbyte : b = stringLenByte id.toNat 1 := (List.cons.inj hrest).1
      unfold Wp
      rw [rxBufferDecodeTurn_body rfl rfl]
      refine Wp.mono (subackTurn_first b bs (by omega)) (fun t u hu => ?_) fun _ _ h => h
      obtain ⟨rfl, rfl⟩ := hu
      rw [hbyte]
      exact .inl ⟨1, rfl, Nat.one_pos, hlength, .second⟩
    | second =>
      have hid : (stringLenByte id.toNat 1).toUInt16 <<< 8 ||| b.toUInt16 = id := by
        rw [(List.cons.inj hrest).1]
        exact packetId_join id
      unfold Wp
      rw [rxBufferDecodeTurn_body rfl rfl]
      refine Wp.mono (subackTurn_second b bs _ (by omega) hid) (fun t u hu => ?_) fun _ _ h => h
      rcases hu with ⟨e', s', hpop, rfl, rfl⟩ | ⟨hpop, -⟩
      · rw [hs] at hpop
        cases hpop
        have hleft : SubackLeft w h id codes e s (codes.drop 0) (w.subackAt h id e s w.heap 0) :=
          .code 0 w.heap hpos (.refl ..) (by simp) fun h0 => by omega
        exact .inl ⟨1, rfl, Nat.one_pos, hlength, hleft⟩
      · rw [hs] at hpop
        contradiction
    | code k heap hk hh hv hn =>
      have hcount := hh.count
      have htake : (codes.take k).length = k := by
        rw [List.length_take]
        omega
      have hbyte : codes.drop k = b :: codes.drop (k + 1) := by
        rw [List.drop_eq_getElem_cons hk] at hrest ⊢
        rw [(List.cons.inj hrest).1]
      have hsnoc : codes.take (k + 1) = codes.take k ++ [b] := by
        rw [List.take_add, hbyte, List.take_succ_cons, List.take_zero]
      have hnext := hh.next b
      rw [htake, ← hsnoc] at hnext
      unfold Wp
      rw [rxBufferDecodeTurn_body rfl rfl]
      refine Wp.mono (subackTurn_code b bs id e s heap k codes.length hc hlen hk fun h0 => by rw [hcount]; exact hn h0)
        (fun t u hu => ?_) fun _ _ h => h
      rw [hcount] at hu
      rcases hu with ⟨hbad, rfl, herror, hheap, hback⟩ | ⟨⟨hm, hcode⟩, hu⟩
      · refine .inr ⟨0, rfl, Nat.zero_le _, herror, .inr ⟨fun hgood => hbad ⟨hgood.1, ?_⟩, hback, fun q i hq => ?_⟩⟩
        · apply hgood.2
          rw [← List.take_append_drop k codes, hbyte]
          simp
        · rw [hheap]
          apply hh.others
          intro hp
          have hi := hq hp
          rw [htake]
          by_cases h0 : k = 0
          · omega
          · have hn := hn (by omega)
            omega
      · have hvalid : ∀ c ∈ codes.take (k + 1), ReturnCode c := by
          intro c hc
          rw [hsnoc] at hc
          rcases List.mem_append.mp hc with hc | hc
          · exact hv c hc
          · rw [List.mem_singleton.mp hc]
            exact hcode
        rcases hu with ⟨hmore, rfl, rfl⟩ | ⟨hlast, hanswered, hres⟩
        · refine .inl ⟨1, rfl, Nat.one_pos, hlength, ?_⟩
          rw [List.drop_drop]
          exact .code (k + 1) _ hmore hnext hvalid fun _ => hm
        · rw [List.take_of_length_le (by omega)] at hnext hvalid
          have hdone : SubackDone w e codes u := ⟨⟨hm, hvalid⟩, hanswered.calledBack, by rw [hanswered.heap]; exact hnext⟩
          rcases hres with ⟨rfl, hfresh⟩ | ⟨rfl, herror⟩
          · refine .inl ⟨1, rfl, Nat.one_pos, hlength, ?_⟩
            rw [List.drop_drop, List.drop_of_length_le (by omega)]
            exact .done u hdone hfresh
          · exact .inr ⟨1, rfl, hlength, herror, .inl hdone⟩
    | done v hd hv => contradiction
  · have hall : v.rx.internal.headerFinished = true ∧ v.rx.internal.decoder = some rxBufferDecoderSuback := by
      cases hv with
      | done v hd hv => exact absurd rfl hb
      | first | second | code => exact ⟨rfl, rfl⟩
    rw [rxBufferDecodeTurn_body hall.1 hall.2, rxBufferDecodeTurn_body hall.1 hall.2, subackTurn_past hb]

/- Where nothing is left, the request was answered. -/
theorem SubackLeft.ended {v : World σ} (hv : SubackLeft w h id codes e s [] v) : SubackDone w e codes v := by
  generalize hrest : ([] : List Byte) = rest at hv
  cases hv with
  | first | second => contradiction
  | code k heap hk hh hv hn =>
    have hlen := congrArg List.length hrest
    rw [List.length_drop, List.length_nil] at hlen
    omega
  | done v hd hv => exact hd

/-- What is left of the packet id of a SUBACK that no request waits for. -/
inductive SubackUnknown (w : World σ) (h : FixedHeader) (id : PacketId) (codes : List Byte) : List Byte → World σ → Prop
  | first : SubackUnknown w h id codes (packetIdBytes id ++ codes) (w.atBody h rxBufferDecoderSuback)
  | second : SubackUnknown w h id codes ((packetIdBytes id ++ codes).drop 1) (w.subackId h (stringLenByte id.toNat 1))

/-- A SUBACK that no request waits for changes nothing but the decoder. -/
structure SubackIgnored (w u : World σ) : Prop where
  error : u.rx.internal.error.isSome = true
  store : u.rxStore = w.rxStore
  heap : u.heap = w.heap
  calledBack : u.calledBack = w.calledBack

theorem suback_unknown_reader (hs : w.rxStore.popMarkedBy .subscribe id = none)
    (hlen : h.remainingLength = 2 + codes.length) (hne : codes ≠ []) :
    Reader env (SubackUnknown w h id codes) (SubackIgnored w) := by
  have hpos := List.length_pos_iff.mpr hne
  refine ⟨fun {rest v} hv => ?_, fun he => he.error, fun {bs more v} hb hv => ?_, fun {bs v} more hb hv => ?_⟩
  · cases hv <;> exact ⟨rfl, rfl⟩
  · have hlength := List.length_pos_iff.mpr hb
    generalize hrest : bs ++ more = rest at hv
    obtain ⟨b, bs, rfl⟩ := List.exists_cons_of_ne_nil hb
    cases hv with
    | first =>
      have hbyte : b = stringLenByte id.toNat 1 := (List.cons.inj hrest).1
      unfold Wp
      rw [rxBufferDecodeTurn_body rfl rfl]
      refine Wp.mono (subackTurn_first b bs (by omega)) (fun t u hu => ?_) fun _ _ h => h
      obtain ⟨rfl, rfl⟩ := hu
      rw [hbyte]
      exact .inl ⟨1, rfl, Nat.one_pos, hlength, .second⟩
    | second =>
      have hid : (stringLenByte id.toNat 1).toUInt16 <<< 8 ||| b.toUInt16 = id := by
        rw [(List.cons.inj hrest).1]
        exact packetId_join id
      unfold Wp
      rw [rxBufferDecodeTurn_body rfl rfl]
      refine Wp.mono (subackTurn_second b bs _ (by omega) hid) (fun t u hu => ?_) fun _ _ h => h
      rcases hu with ⟨e, s, hpop, -⟩ | ⟨-, rfl, herror, hstore, hheap, hback⟩
      · rw [hs] at hpop
        contradiction
      · exact .inr ⟨0, rfl, Nat.zero_le _, herror, hstore, hheap, hback⟩
  · have hall : v.rx.internal.headerFinished = true ∧ v.rx.internal.decoder = some rxBufferDecoderSuback := by
      cases hv <;> exact ⟨rfl, rfl⟩
    rw [rxBufferDecodeTurn_body hall.1 hall.2, rxBufferDecodeTurn_body hall.1 hall.2, subackTurn_past hb]

/- The end of the fixed header of a SUBACK. -/
theorem header_suback {g : FixedHeader} {b : Byte} {n : ℕ} (hdec : fixedHeaderDecode g b = (h, .finished, none))
    (hann : h.Announces 0x90 n) (hlong : 3 ≤ n) :
    Wp (rxBufferDecodeHeaderTurn env b) (w.setRx { header := g })
      (fun t u => t = .read 1 ∧ u = w.atBody h rxBufferDecoderSuback) fun _ _ => False := by
  have hlen := hann.length
  rw [headerTurn_end hdec (d := rxBufferDecoderSuback) (by rw [hann.type]; rfl)]
  refine wp_if (fun hshort => ?_) fun _ => ?_
  · change h.remainingLength < 3 at hshort
    omega
  · change Wp (if (true && decide (h.remainingLength ≤ 0)) = true then _ else _) _ _ _
    rw [if_neg (by simp; omega)]
    exact ⟨rfl, rfl⟩

/-- A SUBACK answers a SUBSCRIBE completely or not at all. The callback of the request that its packet id belongs to
is called if there is a code for each subscription and the protocol has all of them, and then these are in the
subscriptions; else decoding ends in an error. Nothing behind the subscriptions is written. Where no request
waits for the packet id, no store and no subscription is changed. -/
theorem suback_all_or_nothing (w : World σ) (id : PacketId) (codes : List Byte) (hw : w.rx.internal = {}) (hne : codes ≠ [])
    (hmax : codes.length ≤ 268435453) (hf : (framed 0x90 (packetIdBytes id ++ codes)).length ≤ env.fuel) :
    (∀ e, w.rxStore.subscribeOf id = some e → e.value.callback = some .onSuback →
      (w.heap.subscribes e.value.value).count ≤ (w.heap.subscribes e.value.value).subscriptions.length →
      ∀ pieces : List (List Byte), pieces.flatten = framed 0x90 (packetIdBytes id ++ codes) → ∃ rs v,
        pieces.mapM (lmqttRxBufferDecode env) w = .ok rs v ∧
          (SubackCodes (w.heap.subscribes e.value.value).count codes →
            v.calledBack = (.onSuback, e.value.req, e.value.value, !w.closed) :: w.calledBack ∧
              ∀ i c, codes[i]? = some c → (v.heap.subscription e.value.value i).returnCode = c) ∧
          (¬ SubackCodes (w.heap.subscribes e.value.value).count codes →
            v.calledBack = w.calledBack ∧ ∃ r ∈ rs, r.1 = .error) ∧
          ∀ (q : Ptr) (i : ℕ), (q = e.value.value → (w.heap.subscribes e.value.value).count ≤ i) →
            v.heap.subscription q i = w.heap.subscription q i) ∧
    (w.rxStore.subscribeOf id = none →
      w.RefusesPacket env (framed 0x90 (packetIdBytes id ++ codes)) (SubackIgnored w)) := by
  have hpos := List.length_pos_iff.mpr hne
  have hbody : (packetIdBytes id ++ codes).length = 2 + codes.length := by
    rw [List.length_append]
    rfl
  have hhead : IsFixedHeader (0x90 :: lengthBytes (packetIdBytes id ++ codes).length) 0x90 (packetIdBytes id ++ codes).length :=
    framed_header (by decide) (by omega)
  have hstart : ∀ J, Whole w (0x90 :: lengthBytes (packetIdBytes id ++ codes).length) (packetIdBytes id ++ codes) J
      (framed 0x90 (packetIdBytes id ++ codes)) w := fun J => Whole.start hw (by simp)
  refine ⟨fun e he hc harr pieces hp => ?_, fun hnone => ?_⟩
  · obtain ⟨⟨e', s⟩, hs, rfl⟩ := Option.map_eq_some_iff.mp ((w.rxStore.popMarkedBy_subscribeOf id).trans he)
    change e'.value.callback = some .onSuback at hc
    change (w.heap.subscribes e'.value.value).count ≤ _ at harr
    dsimp only at harr ⊢
    have hall : ∀ h : FixedHeader, h.Announces 0x90 (packetIdBytes id ++ codes).length →
        Reader env (SubackLeft w h id codes e' s) fun u => u.rx.internal.error.isSome = true ∧
          (SubackDone w e' codes u ∨ SubackNotDone w e' codes u) :=
      fun h hann => suback_reader hs hc (hann.length.trans hbody) hne
    have hbodyReader := Reader.some hall fun he => he.1
    have hreader := hbodyReader.packet w (packetIdBytes id ++ codes) hhead fun g b h hdec hann =>
      (header_suback hdec hann (by omega)).mono (fun t u hu => by
        obtain ⟨rfl, rfl⟩ := hu
        exact .inl ⟨rfl, h, hann, .first⟩) fun _ _ h => h
    have hfirst := hstart fun rest v => ∃ h : FixedHeader, h.Announces 0x90 (packetIdBytes id ++ codes).length ∧
      SubackLeft w h id codes e' s rest v
    rw [← hp, ← List.append_nil pieces.flatten] at hfirst
    have hcalls := hreader.calls pieces w hfirst (by rw [hp]; exact hf)
    obtain ⟨rs, v, hrun, hv⟩ := wp_exists hcalls
    have hout : SubackDone w e' codes v ∨ SubackNotDone w e' codes v ∧ ∃ r ∈ rs, r.1 = .error := by
      rcases hv with ⟨-, hv⟩ | ⟨herror, -, hv⟩
      · obtain ⟨h, -, hv⟩ := hv.ended
        exact .inl hv.ended
      · exact hv.imp_right fun h => ⟨h, herror⟩
    refine ⟨rs, v, hrun, ?_⟩
    rcases hout with hdone | ⟨hnot, herror⟩
    · have hn := hdone.good.1
      refine ⟨fun _ => ⟨hdone.calledBack, fun i c hi => ?_⟩, fun hbad => absurd hdone.good hbad, fun q i hq => ?_⟩
      · obtain ⟨hlt, -⟩ := List.getElem?_eq_some_iff.mp hi
        exact hdone.heap.written i c hi (by omega)
      · exact hdone.heap.others q i fun hp => by
          have hi := hq hp
          omega
    · exact ⟨fun hgood => absurd hgood hnot.bad, fun _ => ⟨hnot.calledBack, herror⟩, hnot.heap⟩
  · have hs := Option.map_eq_none_iff.mp ((w.rxStore.popMarkedBy_subscribeOf id).trans hnone)
    have hall : ∀ h : FixedHeader, h.Announces 0x90 (packetIdBytes id ++ codes).length →
        Reader env (SubackUnknown w h id codes) (SubackIgnored w) :=
      fun h hann => suback_unknown_reader hs (hann.length.trans hbody) hne
    have hbodyReader := Reader.some hall fun he => he.error
    have hreader := hbodyReader.packet w (packetIdBytes id ++ codes) hhead fun g b h hdec hann =>
      (header_suback hdec hann (by omega)).mono (fun t u hu => by
        obtain ⟨rfl, rfl⟩ := hu
        exact .inl ⟨rfl, h, hann, .first⟩) fun _ _ h => h
    refine hreader.refuses (fun v hv => ?_) (hstart _) hf
    obtain ⟨h, -, hv⟩ := hv.ended
    generalize hrest : ([] : List Byte) = rest at hv
    cases hv <;> contradiction

end Packet

/- A client that waits for the answer to a SUBSCRIBE to the topics `a` and `b`. -/
def subscribedWorld : World Unit := { subscribingWorld with
  mainStore := subscribingWorld.mainStore.markCurrent
  heap := { smallHeap with subscribes := fun _ => {
    count := 2
    subscriptions := [{ topic := { len := 1, buf := some [97] } }, { topic := { len := 1, buf := some [98] } }] } } }

/-- Two return codes, cut between the bytes of the id and between the codes; and one code for the two topics. -/
theorem suback_all_or_nothing_small :
    (∃ rs v, [[0x90, 4, 0], [7, 1], [0x80]].mapM (lmqttRxBufferDecode memoryEnv) subscribedWorld = .ok rs v ∧
      v.calledBack = [(.onSuback, some 0, 0, true)] ∧ (v.heap.subscription 0 0).returnCode = 1 ∧
      (v.heap.subscription 0 1).returnCode = 0x80) ∧
    ∃ rs v, [[0x90, 3, 0], [7, 1]].mapM (lmqttRxBufferDecode memoryEnv) subscribedWorld = .ok rs v ∧
      v.calledBack = [] ∧ ∃ r ∈ rs, r.1 = .error := by
  constructor
  · obtain ⟨hmatch, -⟩ := @suback_all_or_nothing Unit memoryEnv subscribedWorld 7 [1, 0x80] rfl (by decide) (by decide)
      (by decide +kernel)
    obtain ⟨rs, v, hrun, hgood, -, -⟩ := hmatch _ rfl rfl (by decide +kernel) [[0x90, 4, 0], [7, 1], [0x80]] (by decide +kernel)
    obtain ⟨hback, hcodes⟩ := hgood ⟨by decide +kernel, fun c hc => by
      rcases List.mem_pair.mp hc with rfl | rfl
      · exact .inr (.inl rfl)
      · exact .inr (.inr (.inr rfl))⟩
    exact ⟨rs, v, hrun, hback, hcodes 0 1 rfl, hcodes 1 0x80 rfl⟩
  · obtain ⟨hmatch, -⟩ := @suback_all_or_nothing Unit memoryEnv subscribedWorld 7 [1] rfl (by decide) (by decide)
      (by decide +kernel)
    obtain ⟨rs, v, hrun, -, hbad, -⟩ := hmatch _ rfl rfl (by decide +kernel) [[0x90, 3, 0], [7, 1]] (by decide +kernel)
    have hfew : ¬ SubackCodes (subscribedWorld.heap.subscribes 0).count [1] := fun h => absurd h.1 (by decide)
    obtain ⟨hback, herror⟩ := hbad hfew
    exact ⟨rs, v, hrun, hback, herror⟩

end LightMqtt
