import LightMqtt.Base.Mirror
import LightMqtt.Trips

/-!
# Decoding does not depend on how the bytes arrive

Where the strings of a message are kept in memory, a call of
`lmqtt_rx_buffer_decode` does what the bytes do one at a time, and so any cut of
the stream leads to the same state. Behind an error the place in the packet may
differ: a part that is read at once is not accounted for when the message fails.
-/

namespace LightMqtt

open Exec

variable {σ : Type} {env : Env σ}

/-! ### The end of a message, at another place -/

def World.atPos (w : World σ) (k : ℕ) : World σ := w.setRx { w.rx.internal with remainBufPos := k }

section At
variable {w : World σ} {k : ℕ}

abbrev Placeless (k : ℕ) {α : Type} (p : Prog σ α) : Prop := ∀ w, Mirrors (fun v => v.atPos k) p p w

theorem clientAppendRequest_placeless (kind : Kind) (cb : Callback) (id : PacketId) (p : Ptr) :
    Placeless k (clientAppendRequest kind cb id p : Prog σ Bool) := by
  intro w
  apply mirrors_get_bind
  dsimp only
  rw [show (w.atPos k).mainStore = w.mainStore from rfl, show (w.atPos k).nextReq = w.nextReq from rfl]
  generalize w.mainStore.append _ = r
  cases r with
  | none => exact mirrors_pure _
  | some s => exact mirrors_bind (mirrors_set rfl) fun _ _ _ => mirrors_pure _

theorem clientGetId_placeless : Placeless k (clientGetId : Prog σ PacketId) := fun _ =>
  mirrors_get_bind (mirrors_bind (mirrors_set rfl) fun _ _ _ => mirrors_pure _)

theorem clientSubscribeWithKind_placeless (p : Ptr) (kind : Kind) (cb : Callback) :
    Placeless k (clientSubscribeWithKind p kind cb : Prog σ Bool) := by
  intro w
  apply mirrors_get_bind
  refine mirrors_ite (fun _ => mirrors_pure _) fun _ => ?_
  exact mirrors_bind (clientGetId_placeless w) fun id t _ => clientAppendRequest_placeless kind cb id p t

theorem clientDoPublish_placeless (p : Ptr) : Placeless k (clientDoPublish p : Prog σ Bool) := by
  intro w
  apply mirrors_get_bind
  refine mirrors_ite (fun _ => mirrors_pure _) fun _ => mirrors_ite (fun _ => ?_) fun _ => ?_
  · exact clientAppendRequest_placeless _ _ _ p w
  · exact mirrors_bind (clientGetId_placeless w) fun id t _ => clientAppendRequest_placeless _ _ id p t

theorem clientDoDisconnect_placeless : Placeless k (clientDoDisconnect : Prog σ Bool) := by
  intro w
  apply mirrors_get_bind
  rw [show (w.atPos k).mainStore = w.mainStore from rfl]
  generalize w.mainStore.append _ = r
  cases r with
  | none => exact mirrors_pure _
  | some s => exact mirrors_bind (mirrors_set rfl) fun _ _ _ => mirrors_pure _

theorem doRequest_placeless (q : Request) : Placeless k (doRequest q : Prog σ Bool) := by
  intro w
  cases q with
  | subscribe p =>
    exact mirrors_get_bind (mirrors_ite (fun _ => clientSubscribeWithKind_placeless p _ _ w) fun _ => mirrors_pure _)
  | unsubscribe p =>
    exact mirrors_get_bind (mirrors_ite (fun _ => clientSubscribeWithKind_placeless p _ _ w) fun _ => mirrors_pure _)
  | publish p => exact mirrors_get_bind (mirrors_ite (fun _ => clientDoPublish_placeless p w) fun _ => mirrors_pure _)
  | disconnect => exact mirrors_get_bind (mirrors_ite (fun _ => clientDoDisconnect_placeless w) fun _ => mirrors_pure _)

theorem doRequests_placeless (qs : List Request) : Placeless k (doRequests qs : Prog σ Unit) := by
  induction qs with
  | nil => exact fun w => mirrors_pure _
  | cons q qs ih => exact fun w => mirrors_bind (doRequest_placeless q w) fun _ t _ => ih t

theorem rxBufferDeallocatePublish_placeless : Placeless k (rxBufferDeallocatePublish env) := by
  intro w
  apply mirrors_get_bind
  cases env.message.onPublishDeallocate with
  | none => exact mirrors_pure _
  | some f => exact mirrors_ite (fun _ => mirrors_set rfl) fun _ => mirrors_pure _

theorem rxBufferCallMessage_placeless : Placeless k (rxBufferCallMessage env) := by
  intro w
  apply mirrors_get_bind
  cases env.message.onPublish with
  | none => exact mirrors_pure _
  | some f =>
    refine mirrors_ite (fun _ => mirrors_pure _) fun _ => ?_
    refine mirrors_bind (mirrors_set rfl) fun _ t _ => ?_
    rw [callbackCalls_requests]
    exact mirrors_bind (doRequests_placeless _ t) fun _ _ _ => mirrors_pure _

theorem rxBufferTakeMessage_placeless : Placeless k (rxBufferTakeMessage env) := by
  intro w
  refine mirrors_bind (mirrors_modify rfl) fun _ t _ => ?_
  refine mirrors_bind (rxBufferCallMessage_placeless t) fun ok u _ => ?_
  refine mirrors_bind (rxBufferDeallocatePublish_placeless u) fun _ v _ => ?_
  exact mirrors_ite (fun _ => mirrors_pure _) fun _ => mirrors_bind (mirrors_modify rfl) fun _ _ _ => mirrors_pure _

theorem rxBufferRemember_placeless : Placeless k (rxBufferRemember : Prog σ Bool) := by
  intro w
  apply mirrors_get_bind
  refine mirrors_ite (fun _ => mirrors_pure _) fun _ => ?_
  rw [show (w.atPos k).rx.idSet = w.rx.idSet from rfl, show (w.atPos k).rx.internal.packetId = w.rx.internal.packetId from rfl]
  generalize w.rx.idSet.put _ = r
  cases r with
  | none => exact mirrors_pure _
  | some s => exact mirrors_bind (mirrors_set rfl) fun _ _ _ => mirrors_pure _

theorem acknowledge_atPos (w : World σ) : (w.atPos k).acknowledge = w.acknowledge.atPos k := by
  unfold World.acknowledge
  dsimp only
  rw [show (w.atPos k).rx.internal.header = w.rx.internal.header from rfl]
  split
  · rfl
  · cases hr : w.rx.store <;> simp [World.atPos, World.setRx, World.setStore, World.rxStore, World.store, hr]

variable (env) in
theorem rxBufferFinishPublish_placeless : Placeless k (rxBufferFinishPublish env) := by
  intro w
  refine mirrors_bind (mirrors_modify (acknowledge_atPos w)) fun _ t _ => ?_
  apply mirrors_get_bind
  refine mirrors_ite (fun _ => ?_) fun _ => ?_
  · exact mirrors_bind (rxBufferDeallocatePublish_placeless t) fun _ _ _ => mirrors_pure _
  · refine mirrors_bind (rxBufferRemember_placeless t) fun ok u _ => ?_
    refine mirrors_ite (fun _ => rxBufferTakeMessage_placeless u) fun _ => ?_
    refine mirrors_bind (rxBufferDeallocatePublish_placeless u) fun _ v _ => ?_
    exact mirrors_bind (mirrors_modify rfl) fun _ _ _ => mirrors_pure _

end At

/-! ### Writing to memory -/

/- The part is skipped, or there is room for `m` more bytes of it in memory. -/
structure World.Writable (w : World σ) (part : PublishPart) (m : ℕ) : Prop where
  unblocked : w.rx.internal.blockingStr = none
  room : w.rx.internal.ignorePublish = false → (w.str part.str).write = false ∧ (w.str part.str).buf.isSome = true ∧
    (w.str part.str).Room m

/- The bytes are skipped, or written. -/
def World.put (w : World σ) (part : PublishPart) (bs : List Byte) : World σ :=
  if w.rx.internal.ignorePublish then w
  else w.setStr part.str { w.str part.str with
    buf := (w.str part.str).buf.map fun mem => overwrite mem (w.str part.str).pos bs
    pos := (w.str part.str).pos + bs.length }

section Memory
variable {w : World σ} {part : PublishPart} {m : ℕ} {bs : List Byte}

theorem overwrite_cons (mem : List Byte) (pos : ℕ) (b : Byte) (bs : List Byte) :
    overwrite (overwrite mem pos [b]) (pos + 1) bs = overwrite mem pos (b :: bs) := by
  simp only [overwrite, List.append_assoc, List.length_cons, List.length_nil, Nat.zero_add]
  rcases Nat.lt_or_ge mem.length pos with hlt | hle
  · rw [List.take_of_length_le (by omega : mem.length ≤ pos), List.drop_of_length_le (by omega : mem.length ≤ pos + 1),
      List.drop_of_length_le (by omega : mem.length ≤ pos + (bs.length + 1)), List.append_nil,
      List.take_of_length_le (by rw [List.length_append, List.length_singleton]; omega),
      List.drop_of_length_le (by rw [List.length_append, List.length_singleton]; omega)]
    simp
  · have hlen : (mem.take pos).length = pos := by rw [List.length_take]; omega
    have htake : (mem.take pos ++ ([b] ++ mem.drop (pos + 1))).take (pos + 1) = mem.take pos ++ [b] := by
      rw [← List.append_assoc, List.take_left' (by rw [List.length_append, hlen]; rfl)]
    have hdrop : (mem.take pos ++ ([b] ++ mem.drop (pos + 1))).drop (pos + 1 + bs.length) =
        mem.drop (pos + (bs.length + 1)) := by
      rw [← List.append_assoc, ← List.drop_drop, List.drop_left' (by rw [List.length_append, hlen]; rfl), List.drop_drop]
      congr 1
      omega
    rw [htake, hdrop]
    simp

theorem put_cons (w : World σ) (part : PublishPart) (b : Byte) (bs : List Byte) :
    (w.put part [b]).put part bs = w.put part (b :: bs) := by
  unfold World.put
  cases hi : w.rx.internal.ignorePublish with
  | true => simp only [if_true, hi]
  | false =>
    simp only [Bool.false_eq_true, if_false]
    obtain ⟨hself, hrx⟩ := str_setStr w part { w.str part.str with
      buf := (w.str part.str).buf.map fun mem => overwrite mem (w.str part.str).pos [b]
      pos := (w.str part.str).pos + [b].length }
    generalize ht : w.setStr part.str _ = t at hself hrx ⊢
    have hti : t.rx.internal.ignorePublish = false := by
      rw [hrx]
      exact hi
    rw [hti, hself]
    simp only [Bool.false_eq_true, if_false, Option.map_map]
    rw [← ht]
    have htwice : ∀ s s' : LString, (w.setStr part.str s).setStr part.str s' = w.setStr part.str s' := by
      intro s s'
      cases part <;> rfl
    rw [htwice]
    congr 2
    · congr 1
      funext mem
      exact overwrite_cons mem _ b bs
    · rw [List.length_singleton, List.length_cons]
      omega

theorem put_advance (w : World σ) (part : PublishPart) (bs : List Byte) (n : ℕ) :
    (w.advance n).put part bs = (w.put part bs).advance n := by
  unfold World.put
  rw [show (w.advance n).rx.internal.ignorePublish = w.rx.internal.ignorePublish from rfl]
  split
  · rfl
  · cases part <;> rfl

theorem unblocked_self (h : w.rx.internal.blockingStr = none) : w.setRx { w.rx.internal with blockingStr := none } = w := by
  rw [← h]
  rfl

theorem rxBufferWritePart_put (h : w.Writable part m) (hb : bs ≠ []) (hm : bs.length ≤ m) :
    rxBufferWritePart env part bs w = .ok (some bs.length) (w.put part bs) := by
  unfold rxBufferWritePart World.put
  rw [run_get_bind]
  cases hi : w.rx.internal.ignorePublish with
  | true => rfl
  | false =>
    obtain ⟨hw, hbuf, hroom⟩ := h.room hi
    obtain ⟨mem, hmem⟩ := Option.isSome_iff_exists.mp hbuf
    obtain ⟨hle, hlt⟩ := hroom hw hbuf
    simp only [Bool.false_eq_true, if_false]
    rw [run_modify_bind, unblocked_self h.unblocked]
    have hwrite : stringWrite env part.str bs w = .ok (.success, bs.length, 0) (w.setStr part.str { w.str part.str with
        buf := some (overwrite mem (w.str part.str).pos bs), pos := (w.str part.str).pos + bs.length }) := by
      unfold stringWrite
      rw [run_get_bind]
      have hne : bs.length ≠ 0 := fun h => hb (List.eq_nil_of_length_eq_zero h)
      have hfits : toSize ((w.str part.str).pos + bs.length) ≤ toSize (w.str part.str).len := by
        rw [toSize_of_bounds _ (by omega) (by omega), toSize_of_bounds _ (by omega) hlt]
        omega
      simp only [hw, hmem, Bool.false_and, Bool.false_eq_true, if_false, hne]
      have hassert : assert env (decide (toSize ((w.str part.str).pos + bs.length) ≤ toSize (w.str part.str).len)) w =
          .ok () w := by
        unfold assert
        rw [if_pos (by simp [hfits])]
        rfl
      rw [run_bind_ok hassert]
      rfl
    rw [run_bind_ok hwrite, hmem]
    rfl

end Memory

/-! ### A part of a message -/

section Part
variable {w v : World σ} {p : PartPlace} {bs : List Byte} {n : ℕ}

/- The count of bytes of the part that are still to come. -/
def World.remains (w : World σ) (p : PartPlace) : ℕ := p.len - (w.rx.internal.remainBufPos - p.start)

/- The part behind its allocation. -/
def partWrite (env : Env σ) (p : PartPlace) (bs : List Byte) (ok : Bool) : Prog σ (Option ℕ) := do
  let r ← if ok then rxBufferWritePart env p.part bs else pure none
  if r.isNone then rxBufferDeallocatePublish env
  pure r

theorem publishPart_string (hp : w.rx.internal.place = some p) (bs : List Byte) : rxBufferDecodePublishPart env bs w =
    (rxBufferAllocateFirst env (p.start + 1) p.part p.len >>= partWrite env p (bs.take (w.remains p)))
        (w.ignoreUnwanted env) := by
  obtain ⟨-, hur⟩ := ignoreUnwanted_rx env w
  have hpos : (w.ignoreUnwanted env).rx.internal.remainBufPos = w.rx.internal.remainBufPos := by rw [hur]
  have hstring : rxBufferDecodeString env (p.start + 1) p.part p.len bs (w.ignoreUnwanted env) =
      (rxBufferAllocateFirst env (p.start + 1) p.part p.len >>= partWrite env p (bs.take (w.remains p)))
          (w.ignoreUnwanted env) := by
    have hcount : p.len - ((w.ignoreUnwanted env).rx.internal.remainBufPos + 1 - (p.start + 1)) = w.remains p := by
      unfold World.remains
      rw [hpos]
      omega
    unfold rxBufferDecodeString rxBufferAllocateWrite partWrite
    rw [← hcount, bind_assoc, run_get_bind, bind_assoc]
    refine congrArg (fun f => (rxBufferAllocateFirst env (p.start + 1) p.part p.len >>= f) _) (funext fun ok => ?_)
    cases ok <;> rfl
  rw [← hstring]
  unfold RxInternal.place at hp
  simp only [rxBufferDecodePublishPart]
  rw [run_get_bind]
  split at hp
  · contradiction
  · rw [if_neg (by omega), run_modify_bind]
    split at hp
    · cases hp
      rw [if_pos (by omega)]
    · split at hp
      · contradiction
      · cases hp
        rw [if_neg (by omega), if_neg (by omega)]

/- Only the bytes of the part are looked at. -/
theorem publishPart_take (hp : w.rx.internal.place = some p) (bs : List Byte) :
    rxBufferDecodePublishPart env bs w = rxBufferDecodePublishPart env (bs.take (w.remains p)) w := by
  rw [publishPart_string hp, publishPart_string hp, List.take_take, Nat.min_self]

theorem partWrite_put (h : w.Writable p.part n) (hb : bs ≠ []) (hn : bs.length ≤ n) :
    partWrite env p bs true w = .ok (some bs.length) (w.put p.part bs) := by
  unfold partWrite
  rw [if_pos rfl, run_bind_ok (rxBufferWritePart_put h hb hn)]
  rfl

theorem partWrite_failed (w : World σ) (p : PartPlace) (bs : List Byte) :
    partWrite env p bs false w = .ok none (w.deallocated env) := by
  unfold partWrite
  rw [if_neg (by decide)]
  change (rxBufferDeallocatePublish env >>= fun _ => pure none) w = _
  rw [run_bind_ok (rxBufferDeallocatePublish_run env w)]
  rfl

/- Behind the first byte of a part nothing is allocated. -/
theorem allocateFirst_behind (hp : p.start < w.rx.internal.remainBufPos) :
    rxBufferAllocateFirst env (p.start + 1) p.part p.len w = .ok true w := by
  unfold rxBufferAllocateFirst
  rw [run_get_bind]
  cases p.part.allocate env with
  | none => rfl
  | some f =>
    have hne : w.rx.internal.remainBufPos + 1 ≠ p.start + 1 := by omega
    simp only [hne, decide_false, Bool.and_false, Bool.false_eq_true, if_false]
    rfl

/-! ### The end of a turn -/

/- What a decoder that took `count` bytes of a message to its end makes of it. -/
def publishEnd (env : Env σ) (count : ℕ) (res : DecodeResult) : Prog σ Turn := do
  let i := (← get).rx.internal
  if res = .error then rxBufferDecodedBytes env .error count
  else
    assert env ((res ≠ .finished && i.remainBufPos + count < i.header.remainingLength) ||
      (res = .finished && i.remainBufPos + count = i.header.remainingLength))
    rxBufferDecodedBytes env res count

section Body
variable {c : ℕ}

variable (env) in
theorem publishTurn_run (hw : w.rx.internal.inPublish = true) (bs : List Byte) : rxBufferDecodeTurn env bs w =
    (rxBufferDecodePublish env bs >>= fun r => publishEnd env r.2 r.1) w := by
  obtain ⟨hf, hd⟩ := (RxInternal.inPublish_iff _).mp hw
  rw [rxBufferDecodeTurn_body hf hd]
  change (rxBufferDecodeRemainingWithoutId env rxBufferDecoderPublish bs >>= fun r => rxBufferDecodedBytes env r.1 r.2) w = _
  change ((rxBufferDecodePublish env bs >>= _) >>= _) w = _
  rw [bind_assoc]
  refine congrArg (fun f => (rxBufferDecodePublish env bs >>= f) w) (funext fun r => ?_)
  unfold publishEnd
  rw [bind_assoc]
  refine congrArg (fun f => get >>= f) (funext fun u => ?_)
  dsimp only
  split
  · rw [pure_bind]
  · rw [bind_assoc]
    rfl

theorem run_assert_bind {α : Type} {b : Bool} (h : b = true) (f : Unit → Prog σ α) : (assert env b >>= f) w = f () w := by
  unfold assert
  rw [if_pos (by rw [h, Bool.or_true])]
  rfl

/- A turn looks at the bytes of its part alone. -/
theorem publishTurn_take (hw : w.rx.internal.inPublish = true) (hp : w.rx.internal.place = some p) (hb : bs ≠ [])
    (ht : bs.take (w.remains p) ≠ []) : rxBufferDecodeTurn env bs w = rxBufferDecodeTurn env (bs.take (w.remains p)) w := by
  have hlen : 1 ≤ bs.length := List.length_pos_iff.mpr hb
  have hlen' : 1 ≤ (bs.take (w.remains p)).length := List.length_pos_iff.mpr ht
  rw [publishTurn_run env hw, publishTurn_run env hw]
  refine run_bind_congr ?_ _
  unfold rxBufferDecodePublish
  rw [run_assert_bind (decide_eq_true hlen), run_assert_bind (decide_eq_true hlen'), run_get_bind, run_get_bind]
  exact run_bind_congr (publishPart_take hp bs) _

/- A part that failed or was read, and what the decoder makes of it. -/
theorem decodePublish_failed (hb : bs ≠ []) (h : rxBufferDecodePublishPart env bs w = .ok none v) :
    rxBufferDecodePublish env bs w = .ok (.error, 0) v := by
  have hlen : 1 ≤ bs.length := List.length_pos_iff.mpr hb
  unfold rxBufferDecodePublish
  rw [run_assert_bind (by simp [hlen]), run_get_bind, run_bind_ok h]
  rfl

theorem decodePublish_read (hb : bs ≠ []) (h : rxBufferDecodePublishPart env bs w = .ok (some c) v) :
    rxBufferDecodePublish env bs w = (do
      if (← get).rx.internal.blockingStr.isSome then pure (.wouldBlock, c)
      else if w.rx.internal.remainBufPos + 1 + c ≤ w.rx.internal.header.remainingLength then pure (.continue, c)
      else
        let res ← rxBufferFinishPublish env
        pure (res, c) : Prog σ (DecodeResult × ℕ)) v := by
  have hlen : 1 ≤ bs.length := List.length_pos_iff.mpr hb
  unfold rxBufferDecodePublish
  rw [run_assert_bind (by simp [hlen]), run_get_bind, run_bind_ok h]

theorem publishTurn_failed (hw : w.rx.internal.inPublish = true) (hb : bs ≠ [])
    (h : rxBufferDecodePublishPart env bs w = .ok none v) (he : v.rx.internal.error.isSome = true) :
    rxBufferDecodeTurn env bs w = .ok (.failed 0) v := by
  rw [publishTurn_run env hw, run_bind_ok (decodePublish_failed hb h)]
  unfold publishEnd
  rw [run_get_bind]
  exact decodedBytes_error he 0

/- The packet goes on behind the part. -/
theorem publishTurn_onward (hw : w.rx.internal.inPublish = true) (hb : bs ≠ [])
    (h : rxBufferDecodePublishPart env bs w = .ok (some c) v) (hv : v.rx.internal.blockingStr = none)
    (hk : v.rx.internal.remainBufPos = w.rx.internal.remainBufPos) (hh : v.rx.internal.header = w.rx.internal.header)
    (hc : w.rx.internal.remainBufPos + c < w.rx.internal.header.remainingLength) :
    rxBufferDecodeTurn env bs w = .ok (.read c) (v.advance c) := by
  have hrun : rxBufferDecodePublish env bs w = .ok (.continue, c) v := by
    rw [decodePublish_read hb h]
    rw [run_get_bind, hv, if_neg (by decide), if_pos (by omega)]
    rfl
  have hmore : v.rx.internal.remainBufPos + c < v.rx.internal.header.remainingLength := by rwa [hk, hh]
  rw [publishTurn_run env hw, run_bind_ok hrun]
  unfold publishEnd
  rw [run_get_bind]
  dsimp only
  rw [if_neg (by decide), run_assert_bind (by simp [hmore])]
  exact decodedBytes_continue hmore

/- The message is complete. -/
theorem publishTurn_ended (hw : w.rx.internal.inPublish = true) (hb : bs ≠ [])
    (h : rxBufferDecodePublishPart env bs w = .ok (some c) v) (hv : v.rx.internal.blockingStr = none)
    (hc : w.rx.internal.remainBufPos + c = w.rx.internal.header.remainingLength) :
    rxBufferDecodeTurn env bs w = (rxBufferFinishPublish env >>= publishEnd env c) v := by
  have hrun : rxBufferDecodePublish env bs w = (rxBufferFinishPublish env >>= fun res => pure (res, c)) v := by
    rw [decodePublish_read hb h]
    rw [run_get_bind, hv, if_neg (by decide), if_neg (by omega)]
  rw [publishTurn_run env hw, run_bind_congr hrun, bind_assoc]
  rfl

end Body

/- The place in the packet does not matter behind an error. -/
def World.blur (w : World σ) : World σ := if w.rx.internal.error.isSome then w.atPos 0 else w

theorem blur_error {u u' : World σ} (hu : u'.blur = u.blur) (he : u.rx.internal.error.isSome = true) :
    u'.rx.internal.error.isSome = true := by
  have hsame : ∀ x : World σ, x.blur.rx.internal.error = x.rx.internal.error := by
    intro x
    unfold World.blur
    split <;> rfl
  rw [← hsame, hu, hsame]
  exact he

/-- A turn that takes `n` bytes unless it fails, and the same bytes fed in another way. -/
inductive Fed (n : ℕ) : EStateM.Result Halt (World σ) Turn → EStateM.Result Halt (World σ) Unit → Prop
  | read (u : World σ) : Fed n (.ok (.read n) u) (.ok () u)
  | failed (k : ℕ) (u u' : World σ) (he : u.rx.internal.error.isSome = true) (hu : u'.blur = u.blur) :
    Fed n (.ok (.failed k) u) (.ok () u')
  | halted (x : Halt) (u : World σ) : Fed n (.error x u) (.error x u)

/- The end of a packet does not depend on the count. -/
theorem Fed.recount {n m : ℕ} {r : EStateM.Result Halt (World σ) Unit} (h : Fed n (rxBufferEndTurn env n v) r) :
    Fed m (rxBufferEndTurn env m v) r := by
  have hread : ∀ {u : World σ}, Fed n (.ok (.read n) u) r → Fed m (.ok (.read m) u) r := by
    intro u h
    cases h
    exact .read _
  have hfail : ∀ {u : World σ}, Fed n (.ok (.failed n) u) r → Fed m (.ok (.failed m) u) r := by
    intro u h
    cases h with
    | failed k u u' he hu => exact .failed m _ _ he hu
  unfold rxBufferEndTurn at h ⊢
  rw [run_get_bind] at h ⊢
  cases hd : v.rx.internal.decoder with
  | none =>
    rw [hd] at h
    exact hread h
  | some d =>
    rw [hd] at h
    dsimp only at h ⊢
    split at h
    · rename_i hfin
      rw [if_pos hfin]
      cases hrun : rxBufferFinishPacket env d v with
      | error x u =>
        rw [run_bind_error hrun] at h ⊢
        cases h
        exact .halted _ _
      | ok ok u =>
        rw [run_bind_ok hrun] at h ⊢
        cases ok with
        | true => exact hread h
        | false => exact hfail h
    · rename_i hfin
      rw [if_neg hfin]
      exact hread h

theorem atPos_blur (h : w.rx.internal.error.isSome = true) (k : ℕ) : (w.atPos k).blur = w.blur := by
  unfold World.blur
  rw [if_pos h, if_pos (show (w.atPos k).rx.internal.error.isSome = true from h)]
  rfl

theorem put_rx (w : World σ) (part : PublishPart) (bs : List Byte) : (w.put part bs).error = w.error ∧
    (w.put part bs).rx.internal = { w.rx.internal with publish := (w.put part bs).rx.internal.publish } := by
  unfold World.put
  split
  · exact ⟨rfl, rfl⟩
  · cases part <;> exact ⟨rfl, rfl⟩

theorem put_writable (h : w.Writable p.part n) (bs : List Byte) (hn : bs.length ≤ n) :
    (w.put p.part bs).Writable p.part (n - bs.length) := by
  obtain ⟨-, hrx⟩ := put_rx w p.part bs
  refine ⟨?_, fun hi => ?_⟩
  · rw [hrx]
    exact h.unblocked
  · rw [hrx] at hi
    obtain ⟨hw, hbuf, hroom⟩ := h.room hi
    obtain ⟨hle, hlt⟩ := hroom hw hbuf
    unfold World.put
    rw [if_neg (by rw [show w.rx.internal.ignorePublish = false from hi]; decide)]
    rw [(str_setStr w p.part _).1]
    refine ⟨hw, ?_, fun _ _ => ⟨?_, hlt⟩⟩
    · change ((w.str p.part.str).buf.map _).isSome = true
      rw [Option.isSome_map]
      exact hbuf
    · change (((w.str p.part.str).pos + bs.length : ℕ) : ℤ) + (n - bs.length : ℕ) ≤ (w.str p.part.str).len
      omega

/- A part that is offered no more bytes than it has left. -/
theorem publishPart_first (hp : w.rx.internal.place = some p) {t : World σ}
    (ht : rxBufferAllocateFirst env (p.start + 1) p.part p.len (w.ignoreUnwanted env) = .ok true t)
    (hwrite : t.Writable p.part (w.remains p)) (hb : bs ≠ []) (hn : bs.length ≤ w.remains p) :
    rxBufferDecodePublishPart env bs w = .ok (some bs.length) (t.put p.part bs) := by
  rw [publishPart_string hp, run_bind_ok ht, List.take_of_length_le hn]
  exact partWrite_put hwrite hb hn

/- What the allocation leaves alone. -/
theorem allocateFirst_rx {t : World σ}
    (ht : rxBufferAllocateFirst env (p.start + 1) p.part p.len (w.ignoreUnwanted env) = .ok true t) :
    t.error = w.error ∧ t.rx.internal = { w.rx.internal with
      publish := t.rx.internal.publish, ignorePublish := t.rx.internal.ignorePublish, osError := t.rx.internal.osError } := by
  obtain ⟨-, hur⟩ := ignoreUnwanted_rx env w
  obtain ⟨-, hrx, -, hok⟩ := wp_ok (rxBufferAllocateFirst_spec env (w.ignoreUnwanted env) p) ht
  obtain ⟨herr, -⟩ := hok rfl
  constructor
  · have hscr := wp_ok (rxBufferAllocateFirst_scratch env (w.ignoreUnwanted env) (p.start + 1) p.part p.len) ht
    exact hscr.toRxScratch.steady.error.trans (ignoreUnwanted_scratch env w).1.steady.error
  · rw [hrx, herr, hur]

theorem RxInternal.place_next {i j : RxInternal} (h : i.place = some p) (hlt : i.remainBufPos + 1 < p.start + p.len)
    (hp : j.remainBufPos = i.remainBufPos + 1) (ht : j.topicLen = i.topicLen) (hh : j.header = i.header) :
        j.place = some p := by
  unfold RxInternal.place at h ⊢
  rw [hp, ht, hh]
  split at h
  · contradiction
  · split at h
    · cases h
      dsimp only at hlt
      rw [if_neg (by omega), if_pos (by omega)]
    · split at h
      · contradiction
      · rw [if_neg (by omega), if_neg (by omega), if_neg (by omega)]
        exact h

/- Only the first byte of the topic may have the message ignored. -/
theorem ignoreUnwanted_behind (h : 3 ≤ w.rx.internal.remainBufPos) : w.ignoreUnwanted env = w := by
  unfold World.ignoreUnwanted
  rw [if_neg (by omega)]

/-- The bytes `b :: bs` of a part are read in one turn as they are in two. -/
theorem Fed.cons {b : Byte} (hw : w.rx.internal.inPublish = true) (hp : w.rx.internal.place = some p)
    (hi : w.rx.internal.Inside)
    (hwe : w.error = none) {t : World σ}
    (ht : rxBufferAllocateFirst env (p.start + 1) p.part p.len (w.ignoreUnwanted env) = .ok true t)
    (hn : bs.length + 1 ≤ w.remains p) (hb : bs ≠ []) (hwrite : t.Writable p.part (w.remains p)) :
    rxBufferDecodeTurn env [b] w = .ok (.read 1) ((t.put p.part [b]).advance 1) ∧
      ((t.put p.part [b]).advance 1).rx.internal.inPublish = true ∧
      ((t.put p.part [b]).advance 1).rx.internal.place = some p ∧ ((t.put p.part [b]).advance 1).remains p = w.remains p - 1 ∧
      ∀ r, Fed bs.length (rxBufferDecodeTurn env bs ((t.put p.part [b]).advance 1)) r →
        Fed (bs.length + 1) (rxBufferDecodeTurn env (b :: bs) w) r := by
  obtain ⟨hte, htrx⟩ := allocateFirst_rx ht
  have hlen := List.length_pos_iff.mpr hb
  obtain ⟨-, hstart, h2⟩ := RxInternal.place_start hp
  obtain ⟨hin, hfits⟩ := hi.place_fits hw hp
  have hremains : w.remains p = p.len - (w.rx.internal.remainBufPos - p.start) := rfl
  obtain ⟨hve, hvrx⟩ := put_rx t p.part (b :: bs)
  obtain ⟨hse, hsrx⟩ := put_rx t p.part [b]
  -- the first byte
  have hone := publishPart_first hp ht hwrite (List.cons_ne_nil b []) (by rw [List.length_singleton]; omega)
  have hfirst : rxBufferDecodeTurn env [b] w = .ok (.read 1) ((t.put p.part [b]).advance 1) := by
    refine publishTurn_onward hw (List.cons_ne_nil b []) hone ?_ ?_ ?_ ?_
    · rw [hsrx]
      exact hwrite.unblocked
    · rw [hsrx, htrx]
    · rw [hsrx, htrx]
    · omega
  have hupos : ((t.put p.part [b]).advance 1).rx.internal.remainBufPos = w.rx.internal.remainBufPos + 1 := by
    change (t.put p.part [b]).rx.internal.remainBufPos + 1 = _
    rw [hsrx, htrx]
  have huhead : ((t.put p.part [b]).advance 1).rx.internal.header = w.rx.internal.header := by
    change (t.put p.part [b]).rx.internal.header = _
    rw [hsrx, htrx]
  have hutopic : ((t.put p.part [b]).advance 1).rx.internal.topicLen = w.rx.internal.topicLen := by
    change (t.put p.part [b]).rx.internal.topicLen = _
    rw [hsrx, htrx]
  have huin : ((t.put p.part [b]).advance 1).rx.internal.inPublish = true := by
    change (t.put p.part [b]).rx.internal.inPublish = true
    rw [hsrx, htrx]
    exact hw
  have huplace : ((t.put p.part [b]).advance 1).rx.internal.place = some p :=
    RxInternal.place_next hp (by omega) hupos hutopic huhead
  have huleft : ((t.put p.part [b]).advance 1).remains p = w.remains p - 1 := by
    unfold World.remains
    rw [hupos]
    omega
  refine ⟨hfirst, huin, huplace, huleft, fun r hr => ?_⟩
  -- all bytes at once
  have hall := publishPart_first hp ht hwrite (List.cons_ne_nil b bs) (by rw [List.length_cons]; omega)
  have hvblock : (t.put p.part (b :: bs)).rx.internal.blockingStr = none := by
    rw [hvrx]
    exact hwrite.unblocked
  have hvpos : (t.put p.part (b :: bs)).rx.internal.remainBufPos = w.rx.internal.remainBufPos := by rw [hvrx, htrx]
  have hvhead : (t.put p.part (b :: bs)).rx.internal.header = w.rx.internal.header := by rw [hvrx, htrx]
  have hjoin : ((t.put p.part [b]).advance 1).put p.part bs = (t.put p.part (b :: bs)).advance 1 := by
    rw [put_advance, put_cons]
  -- the rest behind the first byte
  have hrest : rxBufferDecodePublishPart env bs ((t.put p.part [b]).advance 1) =
      .ok (some bs.length) ((t.put p.part (b :: bs)).advance 1) := by
    have huwrite : ((t.put p.part [b]).advance 1).Writable p.part (w.remains p - 1) := by
      have hput := put_writable hwrite [b] (by rw [List.length_singleton]; omega)
      have hstr : ((t.put p.part [b]).advance 1).str p.part.str = (t.put p.part [b]).str p.part.str :=
        str_rx _ _ p.part rfl
      exact ⟨hput.unblocked, fun hi => by rw [hstr]; exact hput.room hi⟩
    rw [publishPart_string huplace, huleft, List.take_of_length_le (by omega), ignoreUnwanted_behind (by omega),
      run_bind_ok (allocateFirst_behind (by omega)), partWrite_put huwrite hb (by omega), hjoin]
  have hublock : ((t.put p.part (b :: bs)).advance 1).rx.internal.blockingStr = none := hvblock
  rcases Nat.lt_or_ge (w.rx.internal.remainBufPos + (bs.length + 1)) w.rx.internal.header.remainingLength with hmore | hend
  · have hwhole := publishTurn_onward hw (List.cons_ne_nil b bs) hall hvblock hvpos hvhead (by rw [List.length_cons]; omega)
    rw [publishTurn_onward huin hb hrest hublock (by rw [hupos, ← hvpos]; rfl) (by rw [huhead, ← hvhead]; rfl)
      (by rw [hupos, huhead]; omega)] at hr
    rw [hwhole, List.length_cons]
    have hsum : ((t.put p.part (b :: bs)).advance 1).advance bs.length = (t.put p.part (b :: bs)).advance (bs.length + 1) := by
      simp only [World.advance, World.setRx, Nat.add_assoc, Nat.add_comm 1]
    rw [hsum] at hr
    cases hr
    exact .read _
  · rw [publishTurn_ended hw (List.cons_ne_nil b bs) hall hvblock (by rw [List.length_cons]; omega), List.length_cons]
    rw [publishTurn_ended huin hb hrest hublock (by rw [hupos, huhead]; omega)] at hr
    -- the message ends in the same way at both places
    have hmirror := rxBufferFinishPublish_placeless env (k := w.rx.internal.remainBufPos + 1) (t.put p.part (b :: bs))
    have hat : (t.put p.part (b :: bs)).atPos (w.rx.internal.remainBufPos + 1) = (t.put p.part (b :: bs)).advance 1 := by
      unfold World.atPos World.advance
      rw [hvpos]
    have hboth := (rxBufferFinishPublish_spec env (fun _ => True) _ (hve.trans (hte.trans hwe))).and
      (rxBufferFinishPublish_settled env (t.put p.part (b :: bs)))
    obtain ⟨res, v, hrun, hdec, -, hres⟩ := wp_exists (hboth.mono (fun _ _ h => h) fun _ _ h => h.1)
    have hother := hmirror.ok hrun
    rw [hat] at hother
    rw [run_bind_ok hrun]
    rw [run_bind_ok hother] at hr
    have hpos : v.rx.internal.remainBufPos = w.rx.internal.remainBufPos := hdec.kept.pos.trans hvpos
    have hhead : v.rx.internal.header = w.rx.internal.header := hdec.kept.header.trans hvhead
    unfold publishEnd at hr ⊢
    rw [run_get_bind] at hr ⊢
    rcases hres with rfl | rfl
    · rw [if_neg (by decide), run_assert_bind] at hr ⊢
      · change Fed _ (rxBufferEndTurn env _ (v.advance (bs.length + 1))) r
        change Fed _ (rxBufferEndTurn env _ ((v.atPos (w.rx.internal.remainBufPos + 1)).advance bs.length)) r at hr
        have hsame : (v.atPos (w.rx.internal.remainBufPos + 1)).advance bs.length = v.advance (bs.length + 1) := by
          simp only [World.atPos, World.advance, World.setRx, hpos, Nat.add_assoc, Nat.add_comm 1]
        rw [hsame] at hr
        exact hr.recount
      · simp [hpos, hhead]
        omega
      · simp [World.atPos, World.setRx, hhead]
        omega
    · have herr := hdec.why rfl
      rw [if_pos rfl] at hr ⊢
      rw [decodedBytes_error herr]
      have herr' : (v.atPos (w.rx.internal.remainBufPos + 1)).rx.internal.error.isSome = true := herr
      rw [decodedBytes_error herr'] at hr
      cases hr with
      | failed k u u' he hu => exact .failed 0 _ _ herr (hu.trans (atPos_blur herr _))

end Part

/-! ### Turns at one byte -/

section Byte
variable {w : World σ} {b : Byte} {bs : List Byte}

theorem rxBufferDecodeType_byte (d : Decoder) (hd : d.decodeBytes ≠ some .publish) (b : Byte) (bs : List Byte) :
    rxBufferDecodeType env d (b :: bs) = rxBufferDecodeType env d [b] := by
  have hlen : decide (1 ≤ (b :: bs).length) = decide (1 ≤ [b].length) := by simp
  unfold rxBufferDecodeType
  split
  · rfl
  · simp only [rxBufferDecodeConnack, hlen]
    rfl
  · contradiction
  · simp only [rxBufferDecodeSuback, hlen]
    rfl

theorem rxBufferDecodeRemaining_byte (d : Decoder) (hd : d.decodeBytes ≠ some .publish) (b : Byte) (bs : List Byte) :
    decodeRemaining env d (b :: bs) = decodeRemaining env d [b] := by
  have hlen : decide (1 ≤ (b :: bs).length) = decide (1 ≤ [b].length) := by simp
  have hbytes : rxBufferDecodeRemainingWithoutId env d (b :: bs) = rxBufferDecodeRemainingWithoutId env d [b] := by
    unfold rxBufferDecodeRemainingWithoutId
    rw [rxBufferDecodeType_byte d hd]
  unfold decodeRemaining
  cases d.decodeRemaining with
  | withoutId => exact hbytes
  | withId =>
    simp only [rxBufferDecodeRemainingWithId, hbytes, hlen]
    rfl

theorem publishPart_byte (hp : w.rx.internal.place = none) (b : Byte) (bs : List Byte) :
    rxBufferDecodePublishPart env (b :: bs) w = rxBufferDecodePublishPart env [b] w := by
  unfold RxInternal.place at hp
  simp only [rxBufferDecodePublishPart]
  rw [run_get_bind, run_get_bind]
  by_cases hlow : w.rx.internal.remainBufPos < 2
  · rw [if_pos (by omega), if_pos (by omega)]
    rfl
  · rw [if_neg hlow] at hp
    split at hp
    · contradiction
    · rename_i htopic
      split at hp
      · rename_i hid
        rw [if_neg (by omega), run_modify_bind, if_neg (by omega), if_pos (by omega)]
        rw [if_neg (by omega), run_modify_bind, if_neg (by omega), if_pos (by omega)]
        rfl
      · contradiction

/- Where no string is read, a turn looks at one byte. -/
theorem turn_byte (hs : RxShape w.rx.internal) (hn : w.rx.internal.inPublish = true → w.rx.internal.place = none) (b : Byte)
    (bs : List Byte) : rxBufferDecodeTurn env (b :: bs) w = rxBufferDecodeTurn env [b] w := by
  have hlen : decide (1 ≤ (b :: bs).length) = decide (1 ≤ [b].length) := by simp
  cases hp : w.rx.internal.inPublish with
  | true =>
    rw [publishTurn_run env hp, publishTurn_run env hp]
    refine run_bind_congr ?_ _
    unfold rxBufferDecodePublish
    have hone : decide (1 ≤ [b].length) = true := rfl
    rw [hlen, run_assert_bind hone, run_assert_bind hone, run_get_bind, run_get_bind]
    exact run_bind_congr (publishPart_byte (hn hp) b bs) _
  | false =>
    have hheader : w.rx.internal.headerFinished = false ∨ w.rx.internal.decoder = none →
        rxBufferDecodeTurn env (b :: bs) w = rxBufferDecodeTurn env [b] w := by
      intro hor
      unfold rxBufferDecodeTurn
      rw [run_get_bind, run_get_bind]
      rcases hor with hf | hd
      · rw [hf]
        rfl
      · rw [hd]
        cases w.rx.internal.headerFinished <;> rfl
    cases hf : w.rx.internal.headerFinished with
    | false => exact hheader (.inl hf)
    | true =>
      cases hd : w.rx.internal.decoder with
      | none => exact hheader (.inr hd)
      | some d =>
        have hne : d.decodeBytes ≠ some .publish := by
          intro hpub
          have hd' := rxBufferDecoders_publish _ _ ((hs.table hf).symm.trans hd) hpub
          have hin := (RxInternal.inPublish_iff _).mpr ⟨hf, hd.trans (congrArg some hd')⟩
          rw [hp] at hin
          contradiction
        rw [rxBufferDecodeTurn_body hf hd, rxBufferDecodeTurn_body hf hd]
        unfold rxBufferDecodeBodyTurn
        rw [rxBufferDecodeRemaining_byte d hne]

/- A turn at one byte takes it or fails. -/
abbrev TakesOne (p : Prog σ Turn) (w : World σ) : Prop := Wp p w (fun t _ => t = .read 1 ∨ ∃ k, t = .failed k) fun _ _ => True

variable (env) in
theorem rxBufferEndTurn_one (w : World σ) : TakesOne (rxBufferEndTurn env 1) w := by
  simp only [TakesOne, rxBufferEndTurn, wp_bind, wp_get]
  split
  · refine wp_if (fun _ => ?_) fun _ => .inl rfl
    simp only [wp_bind]
    unfold Wp
    split
    · exact wp_if (fun _ => .inl rfl) fun _ => .inr ⟨1, rfl⟩
    · trivial
  · exact .inl rfl

/- What a decoder makes of one byte. -/
def ByteDecoded (r : DecodeResult × ℕ) : Prop := r.1 = .error ∨ (r.1 = .continue ∨ r.1 = .finished) ∧ r.2 = 1

theorem decodedBytes_one {r : DecodeResult × ℕ} (h : ByteDecoded r) (w : World σ) :
    TakesOne (rxBufferDecodedBytes env r.1 r.2) w := by
  obtain ⟨res, n⟩ := r
  rcases h with rfl | ⟨rfl | rfl, rfl⟩
  · simp only [TakesOne, rxBufferDecodedBytes, wp_bind, wp_get, wp_assert]
    split
    · exact .inr ⟨0, rfl⟩
    · trivial
  · exact rxBufferEndTurn_one env (w.advance 1)
  · exact rxBufferEndTurn_one env (w.advance 1)

theorem rxBufferDecodeType_one (d : Decoder) (hd : d.decodeBytes ≠ some .publish) (w : World σ) (b : Byte) :
    Wp (rxBufferDecodeType env d [b]) w (fun r _ => ByteDecoded r) fun _ _ => True := by
  unfold rxBufferDecodeType
  split
  · exact .inl rfl
  · simp only [rxBufferDecodeConnack]
    refine wp_assert_bind (fun _ => ?_) fun _ => trivial
    simp only [wp_bind, wp_get]
    split
    · exact wp_if (fun _ => .inl rfl) fun _ => .inr ⟨.inl rfl, rfl⟩
    · exact wp_if (fun _ => .inl rfl) fun _ => wp_if (fun _ => .inl rfl) fun _ => .inr ⟨.inr rfl, rfl⟩
    · exact .inl rfl
  · contradiction
  · simp only [rxBufferDecodeSuback]
    refine wp_assert_bind (fun _ => ?_) fun _ => trivial
    simp only [wp_bind, wp_get]
    refine wp_if (fun _ => .inl rfl) fun _ => wp_if (fun _ => .inl rfl) fun _ => ?_
    simp only [wp_set, wp_bind, wp_pure]
    split
    · exact .inr ⟨.inr rfl, rfl⟩
    · exact .inr ⟨.inl rfl, rfl⟩

theorem rxBufferDecodeRemaining_one (d : Decoder) (hd : d.decodeBytes ≠ some .publish) (w : World σ) (b : Byte) :
    Wp (decodeRemaining env d [b]) w (fun r _ => ByteDecoded r) fun _ _ => True := by
  have hbytes : ∀ w : World σ,
      Wp (rxBufferDecodeRemainingWithoutId env d [b]) w (fun r _ => ByteDecoded r) fun _ _ => True := by
    intro w
    simp only [rxBufferDecodeRemainingWithoutId, wp_bind, wp_get]
    refine (rxBufferDecodeType_one d hd w b).mono (fun r v hr => ?_) fun _ _ h => h
    refine wp_if (fun _ => .inl rfl) fun _ => wp_assert_bind (fun _ => ?_) fun _ => trivial
    exact hr
  unfold decodeRemaining
  split
  · exact hbytes w
  · simp only [rxBufferDecodeRemainingWithId, wp_bind, wp_get]
    refine wp_if (fun _ => hbytes w) fun _ => wp_assert_bind (fun _ => ?_) fun _ => trivial
    simp only [wp_bind, wp_modify]
    refine wp_if (fun _ => ?_) fun _ => .inr ⟨.inl rfl, rfl⟩
    simp only [wp_bind, wp_get, wp_emit]
    unfold Wp
    split
    · exact wp_if (fun _ => .inr ⟨.inl rfl, rfl⟩) fun _ => .inl rfl
    · trivial

theorem headerTurn_one (w : World σ) (b : Byte) : TakesOne (rxBufferDecodeHeaderTurn env b) w := by
  obtain ⟨g, r, e, hdec⟩ : ∃ g r e, fixedHeaderDecode w.rx.internal.header b = (g, r, e) := ⟨_, _, _, rfl⟩
  simp only [TakesOne, rxBufferDecodeHeaderTurn, wp_bind, wp_get, wp_set, hdec]
  cases r with
  | finished =>
    simp only [wp_bind, wp_modify]
    cases rxBufferDecoders g.type with
    | none => exact .inr ⟨1, rfl⟩
    | some d =>
      refine wp_if (fun _ => .inr ⟨1, rfl⟩) fun _ => ?_
      simp only [wp_bind]
      unfold Wp
      split
      · refine wp_if (fun _ => rxBufferEndTurn_one env _) fun _ => ?_
        simp only [wp_bind, wp_get, wp_assert]
        split
        · exact .inr ⟨1, rfl⟩
        · trivial
      · trivial
  | «continue» => exact .inl rfl
  | wouldBlock => exact .inr ⟨0, rfl⟩
  | error => exact .inr ⟨0, rfl⟩

theorem publishEnd_one {res : DecodeResult} {n : ℕ} (h : ByteDecoded (res, n)) (w : World σ) :
    TakesOne (publishEnd env n res) w := by
  simp only [TakesOne, publishEnd, wp_bind, wp_get]
  refine wp_if (fun he => ?_) fun _ => wp_assert_bind (fun _ => decodedBytes_one h w) fun _ => trivial
  exact decodedBytes_one (r := (DecodeResult.error, n)) (.inl rfl) w

theorem publishTurn_one (hw : w.rx.internal.inPublish = true) {v : World σ} {r : Option ℕ}
    (h : rxBufferDecodePublishPart env [b] w = .ok r v) (hr : r = none ∨ r = some 1 ∧ v.rx.internal.blockingStr = none) :
    TakesOne (rxBufferDecodeTurn env [b]) w := by
  have hturn := publishTurn_run env hw [b]
  unfold TakesOne Wp
  rw [hturn]
  rcases hr with rfl | ⟨rfl, hv⟩
  · rw [run_bind_ok (decodePublish_failed (List.cons_ne_nil b []) h)]
    exact publishEnd_one (n := 0) (.inl rfl) v
  · rw [run_bind_congr (decodePublish_read (List.cons_ne_nil b []) h), bind_assoc, run_get_bind, hv, if_neg (by decide)]
    by_cases hmore : w.rx.internal.remainBufPos + 1 + 1 ≤ w.rx.internal.header.remainingLength
    · rw [if_pos hmore]
      exact publishEnd_one (.inr ⟨.inl rfl, rfl⟩) v
    · rw [if_neg hmore, bind_assoc]
      have hfinish := rxBufferFinishPublish_settled env v
      unfold Wp at hfinish
      cases hrun : rxBufferFinishPublish env v with
      | error x u =>
        rw [run_bind_error hrun]
        trivial
      | ok res u =>
        rw [hrun] at hfinish
        rw [run_bind_ok hrun]
        rcases hfinish.2 with rfl | rfl
        · exact publishEnd_one (.inr ⟨.inr rfl, rfl⟩) u
        · exact publishEnd_one (n := 1) (.inl rfl) u

variable (env) in
/- The length of the topic and the packet id. -/
theorem publishPart_one (hp : w.rx.internal.place = none) (b : Byte) : Wp (rxBufferDecodePublishPart env [b]) w
    (fun r v => (r = none ∨ r = some 1) ∧ v.rx.internal.blockingStr = w.rx.internal.blockingStr) fun _ _ => False := by
  unfold RxInternal.place at hp
  simp only [rxBufferDecodePublishPart, wp_bind, wp_get]
  refine wp_if (fun _ => ?_) fun hlow => ?_
  · simp only [rxBufferDecodeTopicLen, wp_bind, wp_get, wp_set]
    exact wp_if (fun _ => ⟨.inl rfl, rfl⟩) fun _ => ⟨.inr rfl, rfl⟩
  · rw [if_neg (by omega)] at hp
    obtain ⟨-, hur⟩ := ignoreUnwanted_rx env w
    simp only [wp_bind, wp_modify]
    refine wp_if (fun _ => ?_) fun _ => wp_if (fun _ => ?_) fun _ => ?_
    · rw [if_pos (by omega)] at hp
      contradiction
    · refine ⟨.inr rfl, ?_⟩
      change (w.ignoreUnwanted env).rx.internal.blockingStr = _
      rw [hur]
    · rw [if_neg (by omega), if_neg (by omega)] at hp
      contradiction

/- A turn where no string is read takes its byte or fails. -/
theorem turn_one (hs : RxShape w.rx.internal) (hb : w.rx.internal.blockingStr = none)
    (hn : w.rx.internal.inPublish = true → w.rx.internal.place = none) (b : Byte) :
        TakesOne (rxBufferDecodeTurn env [b]) w := by
  cases hp : w.rx.internal.inPublish with
  | true =>
    obtain ⟨r, v, hrun, hr, hv⟩ := wp_exists (publishPart_one env (hn hp) b)
    exact publishTurn_one hp hrun (hr.imp_right fun h => ⟨h, hv.trans hb⟩)
  | false =>
    simp only [TakesOne, rxBufferDecodeTurn, wp_bind, wp_get]
    split
    · rename_i d hf hd
      have hne : d.decodeBytes ≠ some .publish := by
        intro hpub
        have hd' := rxBufferDecoders_publish _ _ ((hs.table hf).symm.trans hd) hpub
        have hin := (RxInternal.inPublish_iff _).mpr ⟨hf, hd.trans (congrArg some hd')⟩
        rw [hp] at hin
        contradiction
      simp only [rxBufferDecodeBodyTurn, wp_bind]
      exact (rxBufferDecodeRemaining_one d hne w b).mono (fun r v hr => decodedBytes_one hr v) fun _ _ h => h
    · exact headerTurn_one w b

end Byte

/-! ### Bytes one at a time -/

/- A call for each byte. -/
def feed (env : Env σ) (bs : List Byte) : Prog σ Unit := decodeCalls env (bs.map fun b => [b])

/-- A state of a run in which the decoder reads on. -/
structure World.Feeds (env : Env σ) (w : World σ) : Prop where
  stepped : Stepped env (fun _ _ => True) w
  alive : w.error = none
  calm : w.rx.internal.error = none

section Feed
variable {w u : World σ} {b : Byte} {bs : List Byte}

theorem decodeCalls_append (as bs : List (List Byte)) :
    decodeCalls env (as ++ bs) = decodeCalls env as >>= fun _ => decodeCalls env bs := by
  induction as with
  | nil => rfl
  | cons a as ih =>
    rw [List.cons_append, decodeCalls, decodeCalls, ih, bind_assoc]

theorem feed_append (as bs : List Byte) : feed env (as ++ bs) = feed env as >>= fun _ => feed env bs := by
  unfold feed
  rw [List.map_append, decodeCalls_append]

variable (env) in
theorem decodeCalls_failed (h : w.rx.internal.error.isSome = true) (cs : List (List Byte)) :
    decodeCalls env cs w = .ok () w := by
  induction cs with
  | nil => rfl
  | cons c cs ih =>
    have hcall : lmqttRxBufferDecode env c w = .ok (.error, 0) w := by
      unfold lmqttRxBufferDecode
      rw [run_get_bind, if_pos h]
      rfl
    rw [decodeCalls, run_bind_ok hcall]
    exact ih

theorem World.Feeds.next (h : w.Feeds env) (hb : bs ≠ []) {n : ℕ} (hrun : rxBufferDecodeTurn env bs w = .ok (.read n) u) :
    u.Feeds env := by
  have hdec := h.stepped.live.decoding h.alive
  have hspec := wp_ok (rxBufferDecodeTurn_spec env (fun _ => True) w bs hdec.sound hdec.shape h.calm h.alive hdec.requests) hrun
  exact ⟨stepped_read h.stepped h.alive h.calm hb hrun, hspec.steady.error.trans h.alive, hspec.calm (by simp)⟩

theorem World.Feeds.failed (h : w.Feeds env) {k : ℕ} (hrun : rxBufferDecodeTurn env bs w = .ok (.failed k) u) :
    u.rx.internal.error.isSome = true := by
  have hdec := h.stepped.live.decoding h.alive
  have hspec := wp_ok (rxBufferDecodeTurn_spec env (fun _ => True) w bs hdec.sound hdec.shape h.calm h.alive hdec.requests) hrun
  exact hspec.why ⟨k, rfl⟩

/- In memory nothing blocks. -/
theorem World.Feeds.unblocked (hm : env.Stores) (hin : env.InMemory) (hnd : env.ndebug = false) (h : w.Feeds env) :
    w.rx.internal.blockingStr = none := by
  by_contra hb
  have hblocked := (stepped_poised hm hnd h.stepped h.calm).blocked (Option.isSome_iff_ne_none.mpr hb)
  exact hblocked.2.2.2 hin

/- The end of a call behind a byte. -/
theorem exit_unblocked (hb : w.rx.internal.blockingStr = none) (bufLen : ℕ) {n : ℕ} (hn : 0 < n) :
    rxBufferExit bufLen n w = .ok (.success, n) w := by
  unfold rxBufferExit
  rw [if_pos hn, run_modify_bind, unblocked_self hb]
  rfl

theorem exit_still (hb : w.rx.internal.blockingStr = none) (bufLen n : ℕ) :
    (rxBufferExit bufLen n >>= fun _ => pure ()) w = .ok () w := by
  rcases Nat.eq_zero_or_pos n with rfl | hn
  · rfl
  · rw [run_bind_ok (exit_unblocked hb bufLen hn)]
    rfl

/- The loop behind its first turn. -/
theorem decodeLoop_read (hb : bs ≠ []) {n : ℕ} (h : rxBufferDecodeTurn env bs w = .ok (.read n) u) (bufLen fuel count : ℕ) :
    rxBufferDecodeLoop env bufLen (fuel + 1) bs count w = rxBufferDecodeLoop env bufLen fuel (bs.drop n) (count + n) u := by
  rw [rxBufferDecodeLoop]
  · rw [run_bind_ok h]
  · exact hb

theorem decodeLoop_failed (hb : bs ≠ []) {k : ℕ} (h : rxBufferDecodeTurn env bs w = .ok (.failed k) u) (bufLen fuel count : ℕ) :
    rxBufferDecodeLoop env bufLen (fuel + 1) bs count w = .ok (.error, count + k) u := by
  rw [rxBufferDecodeLoop]
  · rw [run_bind_ok h]
    rfl
  · exact hb

theorem decodeLoop_halted (hb : bs ≠ []) {x : Halt} (h : rxBufferDecodeTurn env bs w = .error x u) (bufLen fuel count : ℕ) :
    rxBufferDecodeLoop env bufLen (fuel + 1) bs count w = .error x u := by
  rw [rxBufferDecodeLoop]
  · rw [run_bind_error h]
  · exact hb

/- A call for one byte. -/
theorem fed_one (hm : env.Stores) (hin : env.InMemory) (hnd : env.ndebug = false) (hf : 0 < env.fuel) (h : w.Feeds env)
    (hone : TakesOne (rxBufferDecodeTurn env [b]) w) : Fed 1 (rxBufferDecodeTurn env [b] w) (feed env [b] w) := by
  obtain ⟨fuel, hfuel⟩ : ∃ fuel, env.fuel = fuel + 1 := ⟨env.fuel - 1, by omega⟩
  have hb : [b] ≠ [] := List.cons_ne_nil b []
  have hcall : lmqttRxBufferDecode env [b] w = rxBufferDecodeLoop env 1 (fuel + 1) [b] 0 w := by
    rw [← hfuel]
    unfold lmqttRxBufferDecode
    rw [run_get_bind, h.calm, if_neg (by decide)]
    rfl
  have hfeed : feed env [b] = lmqttRxBufferDecode env [b] >>= fun _ => pure () := rfl
  rw [hfeed]
  unfold TakesOne Wp at hone
  cases hrun : rxBufferDecodeTurn env [b] w with
  | error x u =>
    rw [run_bind_error (hcall.trans (decodeLoop_halted hb hrun 1 fuel 0))]
    exact .halted x u
  | ok t u =>
    rw [hrun] at hone
    rcases hone with rfl | ⟨k, rfl⟩
    · have hu := h.next hb hrun
      have hexit : rxBufferDecodeLoop env 1 fuel ([b].drop 1) (0 + 1) u = .ok (.success, 1) u := by
        unfold rxBufferDecodeLoop
        exact exit_unblocked (hu.unblocked hm hin hnd) 1 (by omega)
      rw [run_bind_ok ((hcall.trans (decodeLoop_read hb hrun 1 fuel 0)).trans hexit)]
      exact .read u
    · rw [run_bind_ok (hcall.trans (decodeLoop_failed hb hrun 1 fuel 0))]
      exact .failed k u u (h.failed hrun) rfl

/- A part either fails with its allocation, or there is room for the rest of it. -/
theorem World.Feeds.part (hm : env.Stores) (hin : env.InMemory) (hnd : env.ndebug = false) (h : w.Feeds env)
    {p : PartPlace} (hw : w.rx.internal.inPublish = true) (hp : w.rx.internal.place = some p) :
    (∃ v : World σ, v.rx.internal.error.isSome = true ∧ ∀ bs, rxBufferDecodePublishPart env bs w = .ok none v) ∨
      ∃ t, rxBufferAllocateFirst env (p.start + 1) p.part p.len (w.ignoreUnwanted env) = .ok true t ∧
          t.Writable p.part (w.remains p) := by
  have hi := stepped_inside w h.stepped h.calm
  have hpoised := stepped_poised hm hnd h.stepped h.calm
  obtain ⟨-, hprep⟩ := hpoised.prepared hw
  obtain ⟨-, hstart, -⟩ := RxInternal.place_start hp
  have hfits := hi.place_fits hw hp
  have hbound := hpoised.length
  obtain ⟨-, hur⟩ := ignoreUnwanted_rx env w
  have hpos : (w.ignoreUnwanted env).rx.internal.remainBufPos = w.rx.internal.remainBufPos := by rw [hur]
  have hfirst := (rxBufferAllocateFirst_left hm (by rwa [hpos]) (hprep p hp) (by omega)).and
    (rxBufferAllocateFirst_spec env (w.ignoreUnwanted env) p)
  obtain ⟨ok, t, ht, hleft, hspec⟩ := wp_exists (hfirst.mono (fun _ _ h => h) fun _ _ h => h.1)
  obtain ⟨-, -, hno, -⟩ := hspec
  cases ok with
  | false =>
    refine .inl ⟨t.deallocated env, ?_, fun bs => ?_⟩
    · rw [deallocated_rx]
      exact (hno rfl).1
    · rw [publishPart_string hp, run_bind_ok ht, partWrite_failed]
  | true =>
    obtain ⟨hrx, -, hroom⟩ := hleft rfl
    refine .inr ⟨t, ht, ?_, fun hti => ?_⟩
    · rw [hrx, hur]
      exact h.unblocked hm hin hnd
    · obtain ⟨hback, hmem⟩ := hroom hti
      obtain ⟨hwrite, hbuf⟩ := hmem hin
      refine ⟨hwrite, hbuf, ?_⟩
      rw [hpos] at hback
      exact hback

/-- The bytes of a part, read in one turn and one by one. -/
theorem string_fed (hm : env.Stores) (hin : env.InMemory) (hnd : env.ndebug = false) (hf : 0 < env.fuel) (h : w.Feeds env)
    {p : PartPlace} (hw : w.rx.internal.inPublish = true) (hp : w.rx.internal.place = some p) (hb : bs ≠ [])
    (hn : bs.length ≤ w.remains p) : Fed bs.length (rxBufferDecodeTurn env bs w) (feed env bs w) := by
  induction bs generalizing w with
  | nil => contradiction
  | cons b bs ih =>
    rcases h.part hm hin hnd hw hp with ⟨v, hv, hpart⟩ | ⟨t, ht, hwrite⟩
    · -- the first byte fails
      have hone := publishTurn_failed hw (List.cons_ne_nil b []) (hpart _) hv
      have hall := publishTurn_failed hw (List.cons_ne_nil b bs) (hpart _) hv
      have hfirst := fed_one hm hin hnd hf h (publishTurn_one hw (hpart [b]) (.inl rfl))
      rw [hone] at hfirst
      have hfeed : feed env (b :: bs) w = (feed env [b] >>= fun _ => feed env bs) w := congrFun (feed_append [b] bs) w
      rw [hall, hfeed]
      generalize hr : feed env [b] w = r at hfirst
      cases hfirst with
      | failed k u u' he hu =>
        rw [run_bind_ok hr, feed, decodeCalls_failed env (blur_error hu he)]
        exact .failed 0 _ _ he hu
    · have hone := publishPart_first hp ht hwrite (List.cons_ne_nil b [])
        (by rw [List.length_cons] at hn ⊢; exact le_trans (by simp) hn)
      have hblock : (t.put p.part [b]).rx.internal.blockingStr = none := by
        rw [(put_rx t p.part [b]).2]
        exact hwrite.unblocked
      have hfirst := fed_one hm hin hnd hf h (publishTurn_one hw hone (.inr ⟨rfl, hblock⟩))
      cases bs with
      | nil => exact hfirst
      | cons c bs =>
        have hc : c :: bs ≠ [] := List.cons_ne_nil c bs
        obtain ⟨hturn, huw, hup, hleft, hmore⟩ := Fed.cons hw hp (stepped_inside w h.stepped h.calm) h.alive ht hn hc hwrite
        have hu := h.next (List.cons_ne_nil b []) hturn
        have hrest := ih hu huw hup hc (by rw [hleft]; rw [List.length_cons] at hn; omega)
        have hall := hmore _ hrest
        rw [hturn] at hfirst
        have hfeed : feed env (b :: c :: bs) w = (feed env [b] >>= fun _ => feed env (c :: bs)) w :=
          congrFun (feed_append [b] (c :: bs)) w
        rw [hfeed]
        generalize hr : feed env [b] w = r at hfirst
        cases hfirst with
        | read u =>
          rw [run_bind_ok hr]
          exact hall

/-- A turn reads some bytes as they are read one by one. -/
theorem turn_fed (hm : env.Stores) (hin : env.InMemory) (hnd : env.ndebug = false) (hf : 0 < env.fuel) (h : w.Feeds env)
    (hb : bs ≠ []) : ∃ n, 0 < n ∧ n ≤ bs.length ∧ Fed n (rxBufferDecodeTurn env bs w) (feed env (bs.take n) w) := by
  have hdec := h.stepped.live.decoding h.alive
  have hlen := List.length_pos_iff.mpr hb
  have hother : (w.rx.internal.inPublish = true → w.rx.internal.place = none) →
      ∃ n, 0 < n ∧ n ≤ bs.length ∧ Fed n (rxBufferDecodeTurn env bs w) (feed env (bs.take n) w) := by
    intro hn
    obtain ⟨b, more, rfl⟩ := List.exists_cons_of_ne_nil hb
    refine ⟨1, Nat.one_pos, hlen, ?_⟩
    rw [turn_byte hdec.shape hn]
    exact fed_one hm hin hnd hf h (turn_one hdec.shape (h.unblocked hm hin hnd) hn b)
  cases hw : w.rx.internal.inPublish with
  | false =>
    refine hother fun h => ?_
    rw [hw] at h
    contradiction
  | true =>
    cases hp : w.rx.internal.place with
    | none => exact hother fun _ => hp
    | some p =>
      have hshare := share_pos (stepped_inside w h.stepped h.calm) hw hb
      simp only [World.share, hp] at hshare
      have htake : bs.take (w.remains p) ≠ [] := List.length_pos_iff.mp hshare
      refine ⟨(bs.take (w.remains p)).length, List.length_pos_iff.mpr htake, List.length_take_le' _ _, ?_⟩
      have hall : bs.take (bs.take (w.remains p)).length = bs.take (w.remains p) := by
        rw [List.take_eq_take_iff, List.length_take]
        omega
      rw [publishTurn_take hw hp hb htake, hall]
      exact string_fed hm hin hnd hf h hw hp htake (List.length_take_le _ _)

/-- The loop of a call does what a call for each byte does. -/
theorem loop_fed (hm : env.Stores) (hin : env.InMemory) (hnd : env.ndebug = false) (hf : 0 < env.fuel) (h : w.Feeds env)
    (bufLen fuel count : ℕ) (hl : bs.length ≤ fuel) :
    changed World.blur ((rxBufferDecodeLoop env bufLen fuel bs count >>= fun _ => pure ()) w) =
      changed World.blur (feed env bs w) := by
  induction fuel generalizing bs count w with
  | zero =>
    rw [List.eq_nil_of_length_eq_zero (Nat.le_zero.mp hl)]
    have hexit : rxBufferDecodeLoop env bufLen 0 [] count = rxBufferExit bufLen count := by
      unfold rxBufferDecodeLoop
      rfl
    rw [hexit, exit_still (h.unblocked hm hin hnd)]
    rfl
  | succ fuel ih =>
    cases bs with
    | nil =>
      have hexit : rxBufferDecodeLoop env bufLen (fuel + 1) [] count = rxBufferExit bufLen count := by
        unfold rxBufferDecodeLoop
        rfl
      rw [hexit, exit_still (h.unblocked hm hin hnd)]
      rfl
    | cons b bs =>
      have hb : b :: bs ≠ [] := List.cons_ne_nil b bs
      obtain ⟨n, hpos, hle, hfed⟩ := turn_fed hm hin hnd hf h hb
      have hfeed : feed env (b :: bs) w = (feed env ((b :: bs).take n) >>= fun _ => feed env ((b :: bs).drop n)) w := by
        rw [← feed_append, List.take_append_drop]
      rw [hfeed]
      generalize hturn : rxBufferDecodeTurn env (b :: bs) w = r at hfed
      generalize hfirst : feed env ((b :: bs).take n) w = r' at hfed
      cases hfed with
      | read u =>
        rw [run_bind_congr (decodeLoop_read hb hturn bufLen fuel count), run_bind_ok hfirst]
        refine ih (h.next hb hturn) (count + n) ?_
        rw [List.length_drop]
        omega
      | failed k u u' he hu =>
        rw [run_bind_ok (decodeLoop_failed hb hturn bufLen fuel count), run_bind_ok hfirst, feed,
          decodeCalls_failed env (blur_error hu he)]
        exact congrArg (EStateM.Result.ok ()) hu.symm
      | halted x u => rw [run_bind_error (decodeLoop_halted hb hturn bufLen fuel count), run_bind_error hfirst]

theorem call_fed (hm : env.Stores) (hin : env.InMemory) (hnd : env.ndebug = false) (hw : Stepped env (fun _ _ => True) w)
    (he : w.error = none) (hl : bs.length ≤ env.fuel) :
    changed World.blur ((lmqttRxBufferDecode env bs >>= fun _ => pure ()) w) = changed World.blur (feed env bs w) := by
  cases hr : w.rx.internal.error with
  | some e =>
    have hsome : w.rx.internal.error.isSome = true := by rw [hr]; rfl
    have hone := decodeCalls_failed env hsome [bs]
    have hcall : (lmqttRxBufferDecode env bs >>= fun _ => pure ()) w = .ok () w := hone
    rw [hcall, feed, decodeCalls_failed env hsome]
  | none =>
    have hcall : lmqttRxBufferDecode env bs w = rxBufferDecodeLoop env bs.length env.fuel bs 0 w := by
      unfold lmqttRxBufferDecode
      rw [run_get_bind, hr, if_neg (by decide)]
    rw [run_bind_congr hcall]
    cases bs with
    | nil =>
      have hexit : rxBufferDecodeLoop env 0 env.fuel [] 0 w = .ok (.success, 0) w := by
        unfold rxBufferDecodeLoop
        rfl
      rw [List.length_nil, run_bind_ok hexit]
      rfl
    | cons b bs =>
      rw [List.length_cons] at hl
      exact loop_fed hm hin hnd (by omega) ⟨hw, he, hr⟩ _ _ 0 (by rwa [List.length_cons])

/- Without an error nothing is blurred. -/
theorem blur_calm (h : w.rx.internal.error = none) : w.blur = w := by
  unfold World.blur
  rw [h]
  rfl

theorem blur_same (h : w.blur = u.blur) : w.rx.internal.error.isSome = true ∧ u.rx.internal.error.isSome = true ∨
    w.rx.internal.error = none ∧ w = u := by
  cases hw : w.rx.internal.error with
  | some e =>
    have hsome : w.rx.internal.error.isSome = true := by rw [hw]; rfl
    exact .inl ⟨rfl, blur_error h.symm hsome⟩
  | none =>
    cases hu : u.rx.internal.error with
    | some e =>
      have hsome : u.rx.internal.error.isSome = true := by rw [hu]; rfl
      have hself := blur_error h hsome
      rw [hw] at hself
      contradiction
    | none =>
      rw [blur_calm hw, blur_calm hu] at h
      exact .inr ⟨rfl, h⟩

/- Calls do what a call for each byte does. -/
theorem calls_fed (hm : env.Stores) (hin : env.InMemory) (hnd : env.ndebug = false) (hw : Stepped env (fun _ _ => True) w)
    (he : w.error = none) (cs : List (List Byte)) (hl : ∀ c ∈ cs, c.length ≤ env.fuel) :
    changed World.blur (decodeCalls env cs w) = changed World.blur (feed env cs.flatten w) := by
  induction cs generalizing w with
  | nil => rfl
  | cons c cs ih =>
    have hfirst := call_fed hm hin hnd hw he (hl c (List.mem_cons_self ..))
    have hcalls : decodeCalls env (c :: cs) = (lmqttRxBufferDecode env c >>= fun _ => pure ()) >>= fun _ =>
        decodeCalls env cs := by
      rw [decodeCalls, bind_assoc]
      rfl
    rw [hcalls, List.flatten_cons, feed_append]
    cases hcall : lmqttRxBufferDecode env c w with
    | error x u =>
      have hpair : (lmqttRxBufferDecode env c >>= fun _ => pure ()) w = .error x u := run_bind_error hcall
      rw [hpair] at hfirst
      rw [run_bind_error hpair]
      cases hfeed : feed env c w with
      | ok r u' =>
        rw [hfeed] at hfirst
        contradiction
      | error y u' =>
        rw [hfeed] at hfirst
        rw [run_bind_error hfeed]
        exact hfirst
    | ok r u =>
      have hpair : (lmqttRxBufferDecode env c >>= fun _ => pure ()) w = .ok () u := run_bind_ok hcall
      rw [hpair] at hfirst
      rw [run_bind_ok hpair]
      cases hfeed : feed env c w with
      | error y u' =>
        rw [hfeed] at hfirst
        contradiction
      | ok r' u' =>
        rw [hfeed] at hfirst
        rw [run_bind_ok hfeed]
        have hblur : u.blur = u'.blur := by
          injection hfirst
        rcases blur_same hblur with ⟨hu, hu'⟩ | ⟨-, rfl⟩
        · rw [decodeCalls_failed env hu, feed, decodeCalls_failed env hu']
          exact congrArg (EStateM.Result.ok ()) hblur
        · obtain ⟨hstep, hue⟩ := call_stepped hw he hcall
          exact ih hstep hue fun c' hc' => hl c' (List.mem_cons_of_mem _ hc')

/-- Where the strings of messages are kept in memory, calls of `lmqtt_rx_buffer_decode` leave the same state however
the bytes are cut, besides the place in a packet that failed. -/
theorem decode_chunks (hm : env.Stores) (hin : env.InMemory) (hnd : env.ndebug = false) (hw : Stepped env (fun _ _ => True) w)
    (he : w.error = none) (cs ds : List (List Byte)) (hsame : cs.flatten = ds.flatten) (hl : cs.flatten.length ≤ env.fuel) :
    changed World.blur (decodeCalls env cs w) = changed World.blur (decodeCalls env ds w) := by
  have hbound : ∀ (es : List (List Byte)), es.flatten.length ≤ env.fuel → ∀ c ∈ es, c.length ≤ env.fuel := by
    intro es hes c hc
    exact le_trans (List.Sublist.length_le (List.sublist_flatten_of_mem hc)) hes
  rw [calls_fed hm hin hnd hw he cs (hbound cs hl), calls_fed hm hin hnd hw he ds (hbound ds (hsame ▸ hl)), hsame]

/-- The same state, or two states behind the same error that differ in the place in the packet. -/
def World.SameButPlace (u v : World σ) : Prop := v = u ∨ u.rx.internal.error.isSome = true ∧ ∃ k, v = u.atPos k

theorem atPos_atPos (w : World σ) (j k : ℕ) : (w.atPos j).atPos k = w.atPos k := rfl

theorem atPos_self (w : World σ) : w.atPos w.rx.internal.remainBufPos = w := rfl

theorem sameButPlace_iff : w.SameButPlace u ↔ w.blur = u.blur := by
  constructor
  · rintro (rfl | ⟨he, k, rfl⟩)
    · rfl
    · exact (atPos_blur he k).symm
  · intro h
    rcases blur_same h with ⟨hw, hu⟩ | ⟨-, rfl⟩
    · refine .inr ⟨hw, u.rx.internal.remainBufPos, ?_⟩
      unfold World.blur at h
      rw [if_pos hw, if_pos hu] at h
      rw [← atPos_atPos w 0, h, atPos_atPos, atPos_self]
    · exact .inl rfl

/-- Calls on the parts of a sequence of bytes and one call on the whole of it leave the same state, with the same
callbacks made and the same contents of the message; only the place in a packet that failed may differ. -/
theorem decode_once (hm : env.Stores) (hin : env.InMemory) (hnd : env.ndebug = false) (hw : Stepped env (fun _ _ => True) w)
    (he : w.error = none) (cs : List (List Byte)) (hl : cs.flatten.length ≤ env.fuel) :
    (∀ u, decodeCalls env cs w = .ok () u → ∃ r v, lmqttRxBufferDecode env cs.flatten w = .ok r v ∧ u.SameButPlace v) ∧
      (∀ r v, lmqttRxBufferDecode env cs.flatten w = .ok r v → ∃ u, decodeCalls env cs w = .ok () u ∧ u.SameButPlace v) := by
  have hbound : ∀ c ∈ cs, c.length ≤ env.fuel := fun c hc => le_trans (List.sublist_flatten_of_mem hc).length_le hl
  have hsame := (calls_fed hm hin hnd hw he cs hbound).trans (call_fed hm hin hnd hw he hl).symm
  constructor
  · intro u hu
    rw [hu] at hsame
    cases hcall : lmqttRxBufferDecode env cs.flatten w with
    | error x v =>
      rw [run_bind_error hcall] at hsame
      contradiction
    | ok r v =>
      rw [run_bind_ok hcall] at hsame
      injection hsame with _ hblur
      exact ⟨r, v, rfl, sameButPlace_iff.mpr hblur⟩
  · intro r v hv
    rw [run_bind_ok hv] at hsame
    cases hcalls : decodeCalls env cs w with
    | error x u =>
      rw [hcalls] at hsame
      contradiction
    | ok y u =>
      rw [hcalls] at hsame
      injection hsame with _ hblur
      exact ⟨u, rfl, sameButPlace_iff.mpr hblur⟩

end Feed

theorem memoryEnv_inMemory : memoryEnv.InMemory := by
  intro part f hf a b n _
  have hstr : (f a b n).str = { len := n, buf := some (List.replicate n 0) } := by
    cases part <;> cases hf <;> rfl
  rw [hstr]
  exact ⟨rfl, rfl⟩

/-- A PUBLISH with QoS 2 in three pieces and in one, behind a CONNACK. -/
theorem decode_chunks_publish : ∃ w : World Unit, Stepped memoryEnv (fun _ _ => True) w ∧ w.ops.publish = true ∧
    changed World.blur (decodeCalls memoryEnv [[0x34, 7, 0], [1, 97, 0, 7, 120], [121]] w) =
      changed World.blur (decodeCalls memoryEnv [[0x34, 7, 0, 1, 97, 0, 7, 120, 121]] w) := by
  obtain ⟨w, hw, he, hc⟩ : ∃ w : World Unit, Stepped memoryEnv (fun _ _ => True) w ∧ w.error = none ∧ w.ops.publish = true :=
    ⟨_, stepped_get (fun _ _ _ => trivial) _ _ _ _ connectRun_memory, by decide +kernel⟩
  exact ⟨w, hw, hc, decode_chunks memoryEnv_stores memoryEnv_inMemory rfl hw he _ _ rfl (by decide)⟩

/- The state behind a run that returns. -/
def stateBehind {α : Type} : EStateM.Result Halt (World σ) α → Option (World σ)
  | .ok _ u => some u
  | .error _ _ => none

theorem stateBehind_eq_some {α : Type} {r : EStateM.Result Halt (World σ) α} {u : World σ} (h : stateBehind r = some u) :
    ∃ a, r = .ok a u := by
  cases r with
  | ok a v =>
    cases h
    exact ⟨a, rfl⟩
  | error x v => contradiction

/-- The same PUBLISH: the id is remembered in both. -/
theorem decode_once_publish : ∃ w u v : World Unit, Stepped memoryEnv (fun _ _ => True) w ∧ w.rx.idSet.items = [] ∧
    decodeCalls memoryEnv [[0x34, 7, 0], [1, 97, 0, 7, 120], [121]] w = .ok () u ∧ u.rx.idSet.items = [7] ∧
    (∃ r, lmqttRxBufferDecode memoryEnv [0x34, 7, 0, 1, 97, 0, 7, 120, 121] w = .ok r v) ∧ u.SameButPlace v := by
  obtain ⟨w, hw, he, hi, hrun⟩ :
      ∃ w : World Unit, Stepped memoryEnv (fun _ _ => True) w ∧ w.error = none ∧ w.rx.idSet.items = [] ∧
      (stateBehind (decodeCalls memoryEnv [[0x34, 7, 0], [1, 97, 0, 7, 120], [121]] w)).any (fun u => u.rx.idSet.items = [7]) =
          true :=
    ⟨_, stepped_get (fun _ _ _ => trivial) _ _ _ _ connectRun_memory, by decide +kernel⟩
  obtain ⟨u, hu, hitems⟩ := (Option.any_eq_true _ _).mp hrun
  obtain ⟨_, hcalls⟩ := stateBehind_eq_some hu
  obtain ⟨r, v, hcall, hsame⟩ :=
    (decode_once memoryEnv_stores memoryEnv_inMemory rfl hw he [[0x34, 7, 0], [1, 97, 0, 7, 120], [121]] (by decide)).1 u hcalls
  exact ⟨w, u, v, hw, hi, hcalls, of_decide_eq_true hitems, ⟨r, hcall⟩, hsame⟩

/- Messages are kept in memory, and `on_publish` fails. -/
def decliningEnv : Env Unit := { memoryEnv with
  message := { memoryEnv.message with onPublish := some fun a _ => ⟨a, false, []⟩ } }

theorem decliningEnv_inMemory : decliningEnv.InMemory := by
  intro part f hf
  have hallocate : part.allocate decliningEnv = part.allocate memoryEnv := by cases part <;> rfl
  exact memoryEnv_inMemory part f (hallocate ▸ hf)

theorem connectRun_declining :
    (runClientSteps decliningEnv everyStep ⟨8, 64, 64, 4⟩ smallHeap () connectSteps).isSome = true := by
  decide +kernel

/-- A message that is refused: behind its error the place in the packet is that of the last part that was read. -/
theorem place_of_failure :
    decliningEnv.InMemory ∧ ∃ w u v : World Unit, Stepped decliningEnv (fun _ _ => True) w ∧ w.error = none ∧
    decodeCalls decliningEnv [[0x30, 5, 0, 1, 97, 120], [121]] w = .ok () u ∧
    (∃ r, lmqttRxBufferDecode decliningEnv [0x30, 5, 0, 1, 97, 120, 121] w = .ok r v) ∧
    u.rx.internal.error = v.rx.internal.error ∧ u.rx.internal.remainBufPos = 4 ∧ v.rx.internal.remainBufPos = 3 := by
  obtain ⟨w, hw, he, hparts, hwhole⟩ : ∃ w : World Unit, Stepped decliningEnv (fun _ _ => True) w ∧ w.error = none ∧
      (stateBehind (decodeCalls decliningEnv [[0x30, 5, 0, 1, 97, 120], [121]] w)).any (fun u =>
        u.rx.internal.error = some .decodePublishMessageCallbackFailed ∧ u.rx.internal.remainBufPos = 4) = true ∧
      (stateBehind (lmqttRxBufferDecode decliningEnv [0x30, 5, 0, 1, 97, 120, 121] w)).any (fun v =>
        v.rx.internal.error = some .decodePublishMessageCallbackFailed ∧ v.rx.internal.remainBufPos = 3) = true :=
    ⟨_, stepped_get (fun _ _ _ => trivial) _ _ _ _ connectRun_declining, by decide +kernel⟩
  obtain ⟨u, hu, hfour⟩ := (Option.any_eq_true _ _).mp hparts
  obtain ⟨v, hv, hthree⟩ := (Option.any_eq_true _ _).mp hwhole
  obtain ⟨_, hcalls⟩ := stateBehind_eq_some hu
  obtain ⟨r, hcall⟩ := stateBehind_eq_some hv
  obtain ⟨herror, hplace⟩ := of_decide_eq_true hfour
  obtain ⟨herror', hplace'⟩ := of_decide_eq_true hthree
  exact ⟨decliningEnv_inMemory, w, u, v, hw, he, hcalls, ⟨r, hcall⟩, herror.trans herror'.symm, hplace, hplace'⟩

end LightMqtt
