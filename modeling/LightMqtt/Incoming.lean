import LightMqtt.Untold
import LightMqtt.Reader

/-!
# A turn in the body of a PUBLISH

What a turn of the decoder asks the application, by the place it stands at: at
the first byte of the topic and of the payload a string is allocated, and the
bytes of a part are written to its string.
-/

namespace LightMqtt

open Exec

variable {σ : Type} (env : Env σ)

/-! ### Questions to the application -/

/-- A part of a message: where it begins in the body, and its length. -/
structure PartPlace where
  part : PublishPart
  start : ℕ
  len : ℕ
  deriving DecidableEq, Repr

/- The part that the next byte belongs to. -/
def RxInternal.place (i : RxInternal) : Option PartPlace :=
  if i.remainBufPos < 2 then none
  else if i.remainBufPos < 2 + i.topicLen then some ⟨.topic, 2, i.topicLen⟩
  else if i.remainBufPos < 2 + i.topicLen + i.header.idLen then none
  else some ⟨.payload, 2 + i.topicLen + i.header.idLen,
    i.header.remainingLength - i.header.idLen - (2 + i.topicLen)⟩

namespace World
variable (w : World σ) (p : PartPlace) (bs : List Byte)

/- The answer of the allocation callback of a part, which is called at its first byte. -/
def allocation : Option (Allocation σ) :=
  if w.rx.internal.ignorePublish = false ∧ w.rx.internal.remainBufPos = p.start then
    (p.part.allocate env).map fun f => f w.app w.rx.internal.publish p.len
  else none

/- The string of the part, and the application behind the allocation. -/
def target : LString × σ :=
  match w.allocation env p with
  | some a => (a.str, a.app)
  | none => (w.str p.part.str, w.app)

/- The bytes of the part are written, or skipped. -/
def accepts : Bool :=
  match w.allocation env p with
  | some a => a.result = .success
  | none => !w.rx.internal.ignorePublish
def skips : Bool :=
  match w.allocation env p with
  | some a => a.result = .ignore
  | none => w.rx.internal.ignorePublish

/- The unread bytes of the part. -/
def chunk : List Byte := bs.take (p.len - (w.rx.internal.remainBufPos - p.start))

/- The answer of the write callback of the string, where it has one. -/
def written : Option (WriteReply σ) :=
  if w.accepts env p && (w.target env p).1.write && (w.target env p).1.buf.isNone && !(w.chunk p bs).isEmpty then
    some (env.strWrite (w.target env p).2 (w.target env p).1.data (w.chunk p bs))
  else none

/-- What a turn of the decoder asks for: a part, and the answer. -/
def asks : Option (PartPlace × Allocation σ) :=
  if w.rx.internal.inPublish then
    (w.ignoreUnwanted env).rx.internal.place.bind fun p =>
      ((w.ignoreUnwanted env).allocation env p).map fun a => (p, a)
  else none

/-- What the write callback answers to a turn of the decoder at the bytes `bs`. -/
def writes : Option (WriteReply σ) :=
  if w.rx.internal.inPublish then
    (w.ignoreUnwanted env).rx.internal.place.bind fun p => (w.ignoreUnwanted env).written env p bs
  else none

end World

/-! ### The bytes of a part -/

/-- What becomes of the bytes of a part: `r` of them were taken, or it failed. -/
structure PartTaken (u : World σ) (p : PartPlace) (bs : List Byte) (r : Option ℕ) (v : World σ) : Prop where
  told : v.told = (u.allocation env p).toList.map (fun _ => .allocate p.part p.len) ++ u.told
  rx : v.rx.internal = { u.rx.internal with
    publish := v.rx.internal.publish, ignorePublish := v.rx.internal.ignorePublish
    blockingStr := v.rx.internal.blockingStr, error := v.rx.internal.error, osError := v.rx.internal.osError }
  failed : r = none → v.rx.internal.error.isSome = true ∧ v.rx.internal.ignorePublish = false ∧
    u.skips env p = false ∧ ∀ a, u.written env p bs = some a → a.result = .error
  taken : ∀ c, r = some c → v.rx.internal.error = u.rx.internal.error ∧
    v.rx.internal.ignorePublish = u.skips env p ∧
    (u.skips env p = true ∧ u.written env p bs = none ∧ c = (u.chunk p bs).length ∨
      v.rx.internal.blockingStr = none ∧ u.written env p bs = none ∧ c = (u.chunk p bs).length ∨
      v.rx.internal.blockingStr = none ∧ (∃ a, u.written env p bs = some a ∧ a.result = .success ∧ c = a.count) ∨
      v.rx.internal.blockingStr.isSome = true ∧ ∃ a, u.written env p bs = some a ∧ a.result = .wouldBlock ∧ c = a.count)

section Part
variable (u : World σ) (p : PartPlace) (bs : List Byte)

/- Where the string of a part is, and what writing leaves alone. -/
theorem str_rx (w : World σ) (i : RxInternal) (part : PublishPart) (h : i.publish = w.rx.internal.publish) :
    (w.setRx i).str part.str = w.str part.str := by
  cases part <;> simp [World.str, PublishPart.str, World.setRx, h]

/- The first half: the allocation. -/
theorem rxBufferAllocateFirst_spec :
    Wp (rxBufferAllocateFirst env (p.start + 1) p.part p.len) u (fun ok v =>
      v.told = (u.allocation env p).toList.map (fun _ => .allocate p.part p.len) ++ u.told ∧
      v.rx.internal = { u.rx.internal with
        publish := v.rx.internal.publish, ignorePublish := v.rx.internal.ignorePublish
        error := v.rx.internal.error, osError := v.rx.internal.osError } ∧
      (ok = false → v.rx.internal.error.isSome = true ∧ v.rx.internal.ignorePublish = false ∧
        u.accepts env p = false ∧ u.skips env p = false) ∧
      (ok = true → v.rx.internal.error = u.rx.internal.error ∧ v.rx.internal.ignorePublish = u.skips env p ∧
        u.accepts env p = !u.skips env p ∧ u.target env p = (v.str p.part.str, v.app))) fun _ _ => True := by
  have hnone : u.allocation env p = none →
      u.told = (u.allocation env p).toList.map (fun _ => .allocate p.part p.len) ++ u.told ∧
      u.rx.internal.ignorePublish = u.skips env p ∧ u.accepts env p = !u.skips env p ∧
      u.target env p = (u.str p.part.str, u.app) := by
    intro h
    simp [World.accepts, World.skips, World.target, h]
  simp only [rxBufferAllocateFirst, wp_bind, wp_get]
  split
  · rename_i f hf
    refine wp_if (fun hfirst => ?_) fun hlater => ?_
    · have hfirst : u.rx.internal.ignorePublish = false ∧ u.rx.internal.remainBufPos = p.start := by
        simpa using hfirst
      obtain ⟨a, hfa⟩ : ∃ a, a = f u.app u.rx.internal.publish p.len := ⟨_, rfl⟩
      have ha : u.allocation env p = some a := by
        rw [hfa]
        simp [World.allocation, hfirst, hf]
      obtain ⟨t, ht⟩ : ∃ t : World σ, t = { (u.emit (.allocate p.part p.len)).setStr p.part.str a.str with app := a.app } :=
        ⟨_, rfl⟩
      have htold : t.told = .allocate p.part p.len :: u.told := by
        rw [ht]
        cases p.part <;> exact told_emit u _
      have htr : t.rx.internal = { u.rx.internal with publish := t.rx.internal.publish } := by
        rw [ht]
        cases p.part <;> rfl
      have hstr : t.str p.part.str = a.str := by
        rw [ht]
        cases p.part <;> rfl
      have happ : t.app = a.app := by rw [ht]
      have htarget : ∀ i : RxInternal, i.publish = t.rx.internal.publish →
          u.target env p = ((t.setRx i).str p.part.str, t.app) := by
        intro i hi
        rw [str_rx t i p.part hi, hstr, happ, World.target, ha]
      have hti : t.rx.internal.ignorePublish = false := by
        rw [htr]
        exact hfirst.1
      simp only [rxBufferAllocate, wp_bind, wp_emit, wp_get, wp_set]
      have hsame : f (u.emit (.allocate p.part p.len)).app (u.emit (.allocate p.part p.len)).rx.internal.publish p.len = a :=
        hfa.symm
      rw [hsame, ← ht]
      cases hres : a.result with
      | success =>
        refine ⟨?_, ?_, by simp, fun _ => ⟨?_, ?_, ?_, ?_⟩⟩
        · simp [ha, htold]
        · simp only [World.setRx]
          rw [htr]
        · simp only [World.setRx]
          rw [htr]
        · simp [World.skips, ha, hres, World.setRx]
        · simp [World.skips, World.accepts, ha, hres]
        · rw [htarget _ rfl]
          rfl
      | ignore =>
        refine ⟨?_, ?_, by simp, fun _ => ⟨?_, ?_, ?_, ?_⟩⟩
        · simp [ha, htold]
        · simp only [World.setRx]
          rw [htr]
        · simp only [World.setRx]
          rw [htr]
        · simp [World.skips, ha, hres, World.setRx]
        · simp [World.skips, World.accepts, ha, hres]
        · rw [htarget _ rfl]
          rfl
      | error =>
        simp only [wp_bind, wp_rxBufferFail, wp_pure]
        refine ⟨?_, ?_, fun _ => ⟨rfl, hti, ?_, ?_⟩, by simp⟩
        · rw [ha]
          exact htold
        · simp only [World.failRx, World.setRx]
          rw [htr]
        · simp [World.accepts, ha, hres]
        · simp [World.skips, ha, hres]
    · have ha : u.allocation env p = none := by
        unfold World.allocation
        rw [if_neg]
        simpa using hlater
      obtain ⟨ht, hi, hacc, htar⟩ := hnone ha
      exact ⟨ht, rfl, by simp, fun _ => ⟨rfl, hi, hacc, htar⟩⟩
  · rename_i hf
    have ha : u.allocation env p = none := by simp [World.allocation, hf]
    obtain ⟨ht, hi, hacc, htar⟩ := hnone ha
    exact ⟨ht, rfl, by simp, fun _ => ⟨rfl, hi, hacc, htar⟩⟩

/- The answer of the write callback of a string, where it has one. -/
def World.answer (w : World σ) (part : PublishPart) (bs : List Byte) : Option (WriteReply σ) :=
  if (w.str part.str).write && (w.str part.str).buf.isNone && !bs.isEmpty then
    some (env.strWrite w.app (w.str part.str).data bs)
  else none

theorem stringWrite_spec (w : World σ) (part : PublishPart) :
    Wp (stringWrite env part.str bs) w (fun x v => v.told = w.told ∧
      v.rx.internal = { w.rx.internal with publish := v.rx.internal.publish } ∧
      match w.answer env part bs with
      | some a => x.2.1 = a.count ∧ (a.result = .success ∧ x.1 = .success ∨
          a.result = .wouldBlock ∧ x.1 = .wouldBlock ∨ a.result = .error ∧ x.1 = .osError)
      | none => x.1 = .success ∧ x.2.1 = bs.length ∨ x.1 = .invalidObject) fun _ _ => True := by
  simp only [stringWrite, wp_bind, wp_get]
  refine wp_if (fun hboth => ?_) fun hboth => wp_if (fun hnil => ?_) fun hnil => wp_if (fun hw => ?_) fun hw => ?_
  · have hn : w.answer env part bs = none := by
      rw [Bool.and_eq_true] at hboth
      unfold World.answer
      rw [if_neg]
      cases hb : (w.str part.str).buf <;> simp_all
    rw [hn]
    exact ⟨rfl, rfl, .inr rfl⟩
  · have hn : w.answer env part bs = none := by
      rw [List.length_eq_zero_iff] at hnil
      simp [World.answer, hnil]
    rw [hn]
    exact ⟨rfl, rfl, .inl ⟨rfl, hnil.symm⟩⟩
  · have hbuf : (w.str part.str).buf = none := by
      cases hb : (w.str part.str).buf <;> simp_all
    have ha : w.answer env part bs = some (env.strWrite w.app (w.str part.str).data bs) := by
      have hne : bs ≠ [] := fun h => hnil (by rw [h]; rfl)
      simp [World.answer, hw, hbuf, hne]
    rw [ha]
    simp only [wp_bind, wp_set]
    cases hres : (env.strWrite w.app (w.str part.str).data bs).result with
    | success => exact ⟨rfl, rfl, rfl, .inl ⟨rfl, rfl⟩⟩
    | wouldBlock => exact ⟨rfl, rfl, rfl, .inr (.inl ⟨rfl, rfl⟩)⟩
    | error => exact ⟨rfl, rfl, rfl, .inr (.inr ⟨rfl, rfl⟩)⟩
  · have hn : w.answer env part bs = none := by simp [World.answer, hw]
    rw [hn]
    split
    · refine wp_assert_bind (fun _ => ⟨?_, ?_, .inl ⟨rfl, rfl⟩⟩) fun _ => trivial
      · cases part <;> rfl
      · cases part <;> rfl
    · exact ⟨rfl, rfl, .inr rfl⟩

/-- `rx_buffer_allocate_write` at a place of the message. -/
theorem rxBufferAllocateWrite_spec (hp : p.start ≤ u.rx.internal.remainBufPos) :
    Wp (rxBufferAllocateWrite env (p.start + 1) p.part p.len bs) u (fun r v => PartTaken env u p bs r v)
      fun _ _ => True := by
  have hchunk : bs.take (p.len - (u.rx.internal.remainBufPos + 1 - (p.start + 1))) = u.chunk p bs := by
    unfold World.chunk
    congr 2
    omega
  simp only [rxBufferAllocateWrite, wp_bind, wp_get, hchunk]
  refine (rxBufferAllocateFirst_spec env u p).mono (fun ok t ht => ?_) fun _ _ _ => trivial
  obtain ⟨htold, htr, hno, hyes⟩ := ht
  refine wp_if (fun hok => ?_) fun hok => ?_
  · obtain ⟨hte, hti, hacc, htar⟩ := hyes hok
    simp only [rxBufferWritePart, wp_bind, wp_get]
    refine wp_if (fun hskip => ?_) fun hwrite => ?_
    · -- the message is ignored
      have hskips : u.skips env p = true := hti.symm.trans hskip
      have hnone : u.written env p bs = none := by
        simp [World.written, hacc, hskips]
      refine ⟨htold, ?_, by simp, fun c hc => ?_⟩
      · rw [htr]
      · cases hc
        exact ⟨hte, hti, .inl ⟨hskips, hnone, rfl⟩⟩
    · have hskips : u.skips env p = false := by
        rw [← hti]
        simpa using hwrite
      rw [hskips] at hacc
      simp only [wp_bind, wp_modify]
      obtain ⟨t', ht'⟩ : ∃ t', t' = t.setRx { t.rx.internal with blockingStr := none } := ⟨_, rfl⟩
      have hanswer : t'.answer env p.part (u.chunk p bs) = u.written env p bs := by
        have hstr : t'.str p.part.str = t.str p.part.str := by
          rw [ht']
          exact str_rx t _ p.part rfl
        have happ : t'.app = t.app := by rw [ht']; rfl
        unfold World.answer World.written
        rw [htar, hacc, hstr, happ]
        rfl
      rw [← ht']
      refine (stringWrite_spec env (u.chunk p bs) t' p.part).mono (fun x v hv => ?_) fun _ _ _ => trivial
      rw [hanswer] at hv
      obtain ⟨hvt, hvr', hx⟩ := hv
      obtain ⟨res, count, osError⟩ := x
      have htold' : v.told = (u.allocation env p).toList.map (fun _ => .allocate p.part p.len) ++ u.told := by
        rw [hvt, ht']
        exact htold
      have hvr : v.rx.internal = { u.rx.internal with
          publish := v.rx.internal.publish, ignorePublish := v.rx.internal.ignorePublish, blockingStr := none
          error := v.rx.internal.error, osError := v.rx.internal.osError } := by
        rw [hvr', ht']
        simp only [World.setRx]
        rw [htr]
      have hve : v.rx.internal.error = u.rx.internal.error ∧ v.rx.internal.ignorePublish = false := by
        have hign : t.rx.internal.ignorePublish = false := hti.trans hskips
        rw [hvr', ht']
        exact ⟨hte, hign⟩
      have hblock : v.rx.internal.blockingStr = none := by rw [hvr]
      have hfail : (∀ a, u.written env p bs = some a → a.result = .error) →
          PartTaken env u p bs none (v.failRx p.part.stringError osError) := by
        refine fun ha => ⟨htold', ?_, fun _ => ⟨rfl, hve.2, hskips, ha⟩, by simp⟩
        simp only [World.failRx, World.setRx]
        rw [hvr]
      cases hw : u.written env p bs with
      | none =>
        rw [hw] at hx
        rcases hx with ⟨rfl, rfl⟩ | rfl
        · refine ⟨htold', hvr.trans (by rw [hblock]), by simp, fun c hc => ?_⟩
          cases hc
          exact ⟨hve.1, hve.2.trans hskips.symm, .inr (.inl ⟨hblock, hw, rfl⟩)⟩
        · exact hfail (by simp [hw])
      | some a =>
        rw [hw] at hx
        obtain ⟨rfl, ⟨ha, rfl⟩ | ⟨ha, rfl⟩ | ⟨ha, rfl⟩⟩ := hx
        · refine ⟨htold', hvr.trans (by rw [hblock]), by simp, fun c hc => ?_⟩
          cases hc
          exact ⟨hve.1, hve.2.trans hskips.symm, .inr (.inr (.inl ⟨hblock, a, hw, ha, rfl⟩))⟩
        · refine ⟨htold', ?_, by simp, fun c hc => ?_⟩
          · simp only [World.setRx]
            rw [hvr]
          · cases hc
            exact ⟨hve.1, hve.2.trans hskips.symm, .inr (.inr (.inr ⟨rfl, a, hw, ha, rfl⟩))⟩
        · refine hfail fun b hb => ?_
          rw [hw] at hb
          cases hb
          exact ha
  · obtain ⟨herr, hign, hacc, hskips⟩ := hno (by simpa using hok)
    refine ⟨htold, ?_, fun _ => ⟨herr, hign, hskips, ?_⟩, by simp⟩
    · rw [htr]
    · intro a ha
      simp [World.written, hacc] at ha

end Part

/-! ### Parts of a message -/

namespace World
variable (w : World σ) (bs : List Byte)

/- The call of an allocation callback in a turn of the decoder. -/
def asked : List Event := (w.asks env).toList.map fun x => .allocate x.1.part x.1.len

/- The message is ignored, from this turn on. -/
def skipping : Bool :=
  match (w.ignoreUnwanted env).rx.internal.place with
  | some p => (w.ignoreUnwanted env).skips env p
  | none => (w.ignoreUnwanted env).rx.internal.ignorePublish

/- How many bytes a turn takes where no write callback is called. -/
def share : ℕ :=
  match w.rx.internal.place with
  | some p => (w.chunk p bs).length
  | none => 1

/- The state behind `rx_buffer_deallocate_publish`. -/
def deallocated : World σ :=
  match env.message.onPublishDeallocate with
  | some f =>
    if w.rx.internal.ignorePublish then w
    else { w with app := f w.app w.rx.internal.publish, log := .deallocate :: w.log }
  | none => w

end World

theorem rxBufferDeallocatePublish_run (w : World σ) :
    rxBufferDeallocatePublish env w = .ok () (w.deallocated env) := by
  unfold rxBufferDeallocatePublish World.deallocated
  cases hf : env.message.onPublishDeallocate with
  | none => rfl
  | some f =>
    rw [run_get_bind]
    cases hi : w.rx.internal.ignorePublish <;> simp <;> rfl

/-- How a message ends that the application was asked about, behind the calls `base`:
if it is not ignored it is released, by the last call of the turn. -/
inductive Settled (base : List Event) (w : World σ) : Bool → Prop
  | ignored (h : w.told = base) : Settled base w true
  | released (calls : List Event) (hc : ∀ ev ∈ calls, ∃ id b, ev = .message id b) (f : σ → Publish → σ) (a : σ) (b : Publish)
    (hf : env.message.onPublishDeallocate = some f) (ht : w.told = .deallocate :: (calls ++ base)) (ha : w.app = f a b) :
    Settled base w false
  | kept (calls : List Event) (hc : ∀ ev ∈ calls, ∃ id b, ev = .message id b)
    (hf : env.message.onPublishDeallocate = none) (ht : w.told = calls ++ base) : Settled base w false

theorem Settled.congr {base : List Event} {w w' : World σ} {ig : Bool} (h : Settled env base w ig) (ht : w'.told = w.told)
    (ha : w'.app = w.app) : Settled env base w' ig := by
  cases h with
  | ignored h => exact .ignored (ht.trans h)
  | released calls hc f a b hf hw hb => exact .released calls hc f a b hf (ht.trans hw) (ha.trans hb)
  | kept calls hc hf hw => exact .kept calls hc hf (ht.trans hw)

/- The message is released, if it is not ignored. -/
theorem Settled.deallocated {base calls : List Event} (w : World σ) (hc : ∀ ev ∈ calls, ∃ id b, ev = .message id b)
    (ht : w.told = calls ++ base) (hn : w.rx.internal.ignorePublish = true → calls = []) :
    Settled env base (w.deallocated env) w.rx.internal.ignorePublish := by
  unfold World.deallocated
  cases hi : w.rx.internal.ignorePublish with
  | true =>
    rw [hn hi, List.nil_append] at ht
    cases hf : env.message.onPublishDeallocate <;> exact .ignored ht
  | false =>
    cases hf : env.message.onPublishDeallocate with
    | none => exact .kept calls hc hf ht
    | some f =>
      refine .released calls hc f w.app w.rx.internal.publish hf ?_ rfl
      rw [← ht]
      exact told_emit w .deallocate

theorem deallocated_rx (w : World σ) : (w.deallocated env).rx = w.rx := by
  unfold World.deallocated
  cases env.message.onPublishDeallocate with
  | none => rfl
  | some f => cases hi : w.rx.internal.ignorePublish <;> rfl

/-- A part of the message was read: `c` bytes were taken. -/
structure PartRead (w : World σ) (bs : List Byte) (c : ℕ) (v : World σ) : Prop where
  told : v.told = w.asked env ++ w.told
  rx : v.rx.internal = { w.rx.internal with
    topicLen := v.rx.internal.topicLen, packetId := v.rx.internal.packetId, publish := v.rx.internal.publish
    ignorePublish := w.skipping env, blockingStr := v.rx.internal.blockingStr, osError := v.rx.internal.osError }
  topic : 2 ≤ w.rx.internal.remainBufPos → v.rx.internal.topicLen = w.rx.internal.topicLen
  fits : w.rx.internal.remainBufPos = 1 → 0 < v.rx.internal.topicLen ∧
    v.rx.internal.topicLen + 2 + w.rx.internal.header.idLen ≤ w.rx.internal.header.remainingLength
  count : w.writes env bs = none ∧ c = w.share bs ∧ (w.rx.internal.place = none ∨ w.skipping env = true ∨
      v.rx.internal.blockingStr = none) ∨ ∃ a, w.writes env bs = some a ∧ c = a.count ∧
    (a.result = .success ∧ v.rx.internal.blockingStr = none ∨
      a.result = .wouldBlock ∧ v.rx.internal.blockingStr.isSome = true)

/-- A part of the message failed. -/
structure PartFailed (w : World σ) (bs : List Byte) (v : World σ) : Prop where
  error : v.rx.internal.error.isSome = true
  ends : w.rx.internal.remainBufPos < 2 ∧ v.told = w.told ∨
    w.skipping env = false ∧ Settled env (w.asked env ++ w.told) v false
  writes : ∀ a, w.writes env bs = some a → a.result = .error

theorem ignoreUnwanted_rx (w : World σ) : (w.ignoreUnwanted env).told = w.told ∧
    (w.ignoreUnwanted env).rx.internal =
      { w.rx.internal with ignorePublish := (w.ignoreUnwanted env).rx.internal.ignorePublish } := by
  unfold World.ignoreUnwanted
  split
  · exact ⟨rfl, rfl⟩
  · exact ⟨rfl, rfl⟩

section Parts
variable {env} {w : World σ} (bs : List Byte)

/- The bytes of a string. -/
theorem rxBufferDecodeString_spec {p : PartPlace} (hw : w.rx.internal.inPublish = true)
    (hp : w.rx.internal.place = some p) (hle : p.start ≤ w.rx.internal.remainBufPos) (h2 : 2 ≤ w.rx.internal.remainBufPos) :
    Wp (rxBufferDecodeString env (p.start + 1) p.part p.len bs) (w.ignoreUnwanted env)
      (fun r v => match r with
        | some c => PartRead env w bs c v
        | none => PartFailed env w bs v) fun _ _ => True := by
  obtain ⟨hut, hur⟩ := ignoreUnwanted_rx env w
  have hplace : (w.ignoreUnwanted env).rx.internal.place = some p := by
    rw [hur]
    exact hp
  have hasked : ((w.ignoreUnwanted env).allocation env p).toList.map (fun _ => Event.allocate p.part p.len) = w.asked env := by
    unfold World.asked World.asks
    rw [if_pos hw, hplace, Option.bind_some]
    cases (w.ignoreUnwanted env).allocation env p <;> rfl
  have hskip : (w.ignoreUnwanted env).skips env p = w.skipping env := by
    unfold World.skipping
    rw [hplace]
  have hwrites : (w.ignoreUnwanted env).written env p bs = w.writes env bs := by
    unfold World.writes
    rw [if_pos hw, hplace]
    rfl
  have hshare : ((w.ignoreUnwanted env).chunk p bs).length = w.share bs := by
    unfold World.share World.chunk
    rw [hp, hur]
  have hle' : p.start ≤ (w.ignoreUnwanted env).rx.internal.remainBufPos := by
    rw [hur]
    exact hle
  simp only [rxBufferDecodeString, wp_bind]
  refine (rxBufferAllocateWrite_spec env (w.ignoreUnwanted env) p bs hle').mono (fun r t ht => ?_) fun _ _ _ => trivial
  have htold : t.told = w.asked env ++ w.told := by
    rw [ht.told, hasked, hut]
  cases r with
  | none =>
    obtain ⟨herr, hign, hskips, hres⟩ := ht.failed rfl
    refine wp_if (fun _ => ?_) fun h => absurd rfl h
    simp only [wp_bind]
    unfold Wp
    rw [rxBufferDeallocatePublish_run]
    refine ⟨?_, .inr ⟨hskip.symm.trans hskips, ?_⟩, ?_⟩
    · rw [deallocated_rx]
      exact herr
    · rw [← hign]
      exact @Settled.deallocated σ env _ [] t (by simp) htold (by simp)
    · rw [← hwrites]
      exact hres
  | some c =>
    obtain ⟨herr, hign, htaken⟩ := ht.taken c rfl
    refine wp_if (fun h => absurd h (by simp)) fun _ => ?_
    have hrx := ht.rx
    rw [hign, hskip, herr, hur] at hrx
    refine ⟨htold, ?_, fun _ => ?_, fun h1 => by omega, ?_⟩
    · rw [hrx]
    · rw [hrx]
    · rw [hwrites, hshare] at htaken
      rcases htaken with ⟨hs, ha, hc⟩ | ⟨hb, ha, hc⟩ | ⟨hb, a, ha, hres, hc⟩ | ⟨hb, a, ha, hres, hc⟩
      · exact .inl ⟨ha, hc, .inr (.inl (hskip.symm.trans hs))⟩
      · exact .inl ⟨ha, hc, .inr (.inr hb)⟩
      · exact .inr ⟨a, ha, hc, .inl ⟨hres, hb⟩⟩
      · exact .inr ⟨a, ha, hc, .inr ⟨hres, hb⟩⟩

/- A byte that belongs to no part. -/
theorem PartRead.one {v : World σ} (hp : w.rx.internal.place = none) (ht : v.told = w.told)
    (hr : v.rx.internal = { w.rx.internal with
      topicLen := v.rx.internal.topicLen, packetId := v.rx.internal.packetId
      ignorePublish := (w.ignoreUnwanted env).rx.internal.ignorePublish })
    (htopic : 2 ≤ w.rx.internal.remainBufPos → v.rx.internal.topicLen = w.rx.internal.topicLen)
    (hfits : w.rx.internal.remainBufPos = 1 → 0 < v.rx.internal.topicLen ∧
      v.rx.internal.topicLen + 2 + w.rx.internal.header.idLen ≤ w.rx.internal.header.remainingLength) :
    PartRead env w bs 1 v := by
  have hplace : (w.ignoreUnwanted env).rx.internal.place = none := by
    rw [(ignoreUnwanted_rx env w).2]
    exact hp
  have hasks : w.asks env = none := by
    unfold World.asks
    rw [hplace]
    split <;> rfl
  have hwrites : w.writes env bs = none := by
    unfold World.writes
    rw [hplace]
    split <;> rfl
  refine ⟨?_, ?_, htopic, hfits, .inl ⟨hwrites, ?_, .inl hp⟩⟩
  · rw [World.asked, hasks]
    exact ht
  · rw [World.skipping, hplace]
    rw [hr]
  · rw [World.share, hp]

/-- What is read at each place of the body. -/
theorem rxBufferDecodePublishPart_spec (hw : w.rx.internal.inPublish = true) :
    Wp (rxBufferDecodePublishPart env bs) w (fun r v => match r with
      | some c => PartRead env w bs c v
      | none => PartFailed env w bs v) fun _ _ => True := by
  obtain ⟨hut, hur⟩ := ignoreUnwanted_rx env w
  simp only [rxBufferDecodePublishPart, wp_bind, wp_get]
  refine wp_if (fun hlen => ?_) fun hlen => ?_
  · -- the length of the topic
    have hplace : w.rx.internal.place = none := by
      unfold RxInternal.place
      rw [if_pos (by omega)]
    have hsame : (w.ignoreUnwanted env).rx.internal.ignorePublish = w.rx.internal.ignorePublish := by
      unfold World.ignoreUnwanted
      rw [if_neg (by omega)]
    simp only [rxBufferDecodeTopicLen, wp_bind, wp_get, wp_set]
    refine wp_if (fun hbad => ?_) fun hgood => ?_
    · refine ⟨rfl, .inl ⟨by omega, rfl⟩, fun a ha => ?_⟩
      have hplace' : (w.ignoreUnwanted env).rx.internal.place = none := by
        rw [hur]
        exact hplace
      rw [World.writes, hplace', if_pos hw] at ha
      contradiction
    · refine .one bs hplace rfl ?_ (fun h2 => by omega) fun h1 => ?_
      · rw [hsame]
        rfl
      · push Not at hgood
        obtain ⟨hne, hle⟩ := hgood (by omega)
        exact ⟨Nat.pos_of_ne_zero hne, hle⟩
  · simp only [wp_bind, wp_modify]
    refine wp_if (fun htopic => ?_) fun htopic => wp_if (fun hid => ?_) fun hid => ?_
    · have hplace : w.rx.internal.place = some ⟨.topic, 2, w.rx.internal.topicLen⟩ := by
        unfold RxInternal.place
        rw [if_neg (by omega), if_pos (by omega)]
      exact rxBufferDecodeString_spec bs hw hplace (by change 2 ≤ _; omega) (by omega)
    · have hplace : w.rx.internal.place = none := by
        unfold RxInternal.place
        rw [if_neg (by omega), if_neg (by omega), if_pos (by omega)]
      simp only [rxBufferDecodePublishId, wp_bind, wp_get, wp_modify, wp_pure]
      refine .one bs hplace hut ?_ (fun _ => ?_) fun h1 => by omega
      · simp only [World.setRx]
        rw [hur]
      · simp only [World.setRx]
        rw [hur]
    · have hplace : w.rx.internal.place = some ⟨.payload, 2 + w.rx.internal.topicLen + w.rx.internal.header.idLen,
          w.rx.internal.header.remainingLength - w.rx.internal.header.idLen - (2 + w.rx.internal.topicLen)⟩ := by
        unfold RxInternal.place
        rw [if_neg (by omega), if_neg (by omega), if_neg (by omega)]
      exact rxBufferDecodeString_spec bs hw hplace (by change 2 + _ + _ ≤ _; omega) (by omega)

end Parts

/-! ### The end of the message -/

theorem failRx_settled {base : List Event} {w : World σ} {ig : Bool} (h : Settled env base w ig) (e : Error) (os : ℤ) :
    Settled env base (w.failRx e os) ig := h.congr env rfl rfl

theorem rxBufferCallMessage_told (w : World σ) :
    Wp (rxBufferCallMessage env) w (fun _ v => v.rx.internal = w.rx.internal ∧ ∃ calls,
      (∀ ev ∈ calls, ∃ id b, ev = .message id b) ∧ v.told = calls ++ w.told ∧
      (w.rx.internal.ignorePublish = true → calls = [])) fun _ _ => True := by
  simp only [rxBufferCallMessage, callbackCalls_requests, wp_bind, wp_get]
  split
  · refine wp_if (fun _ => ⟨rfl, [], by simp, rfl, fun _ => rfl⟩) fun hign => ?_
    simp only [wp_bind, wp_set, wp_pure]
    refine (doRequests_outside env _ _).mono (fun _ v hv => ⟨hv.rx, [.message w.rx.internal.packetId w.rx.internal.publish],
      ?_, ?_, fun h => absurd h hign⟩) fun _ _ _ => trivial
    · intro ev hev
      exact ⟨_, _, List.mem_singleton.mp hev⟩
    · exact hv.told.trans (told_emit w (.message w.rx.internal.packetId w.rx.internal.publish))
  · exact ⟨rfl, [], by simp, rfl, fun _ => rfl⟩

/-- At the end of the message its strings are released, unless it was ignored. -/
theorem rxBufferFinishPublish_settled (w : World σ) :
    Wp (rxBufferFinishPublish env) w (fun res v => Settled env w.told v w.rx.internal.ignorePublish ∧
      (res = .finished ∨ res = .error)) fun _ _ => True := by
  have hdealloc : ∀ (t : World σ) (calls : List Event), t.rx.internal.ignorePublish = w.rx.internal.ignorePublish →
      (∀ ev ∈ calls, ∃ id b, ev = .message id b) → t.told = calls ++ w.told →
      (w.rx.internal.ignorePublish = true → calls = []) →
      Wp (rxBufferDeallocatePublish env) t (fun _ v => Settled env w.told v w.rx.internal.ignorePublish) fun _ _ => True := by
    intro t calls hti hc ht hn
    unfold Wp
    rw [rxBufferDeallocatePublish_run]
    rw [← hti] at hn ⊢
    exact Settled.deallocated env t hc ht hn
  have hat : w.acknowledge.told = w.told ∧ w.acknowledge.rx = w.rx := by
    unfold World.acknowledge
    dsimp only
    split
    · exact ⟨rfl, rfl⟩
    · exact ⟨told_setStore w _ _, by simp⟩
  simp only [rxBufferFinishPublish, wp_bind, wp_modify, wp_get]
  obtain ⟨u, hu⟩ : ∃ u, u = w.acknowledge := ⟨_, rfl⟩
  rw [← hu] at hat ⊢
  obtain ⟨hut, hur⟩ := hat
  have hui : u.rx.internal.ignorePublish = w.rx.internal.ignorePublish := by rw [hur]
  have hknown := hdealloc u [] hui (by simp) hut fun _ => rfl
  -- the message is handed over
  have htake : ∀ t : World σ, t.told = w.told → t.rx.internal.ignorePublish = w.rx.internal.ignorePublish →
      Wp (rxBufferTakeMessage env) t (fun res v => Settled env w.told v w.rx.internal.ignorePublish ∧
        (res = .finished ∨ res = .error)) fun _ _ => True := by
    intro t ht hti
    simp only [rxBufferTakeMessage, wp_bind, wp_modify]
    refine (rxBufferCallMessage_told env _).mono (fun ok v hv => ?_) fun _ _ _ => trivial
    obtain ⟨hvr, calls, hc, hvt, hn⟩ := hv
    refine (hdealloc v calls ?_ hc (hvt.trans (congrArg _ ht)) ?_).mono (fun _ x hx => ?_) fun _ _ _ => trivial
    · rw [hvr]
      exact hti
    · intro hi
      exact hn (hti.trans hi)
    · exact wp_if (fun _ => ⟨hx, .inl rfl⟩) fun _ => ⟨failRx_settled env hx _ _, .inr rfl⟩
  refine wp_if (fun _ => ?_) fun _ => ?_
  · exact (wp_bind ..).mpr (hknown.mono (fun _ v hv => ⟨hv, .inl rfl⟩) fun _ _ _ => trivial)
  · simp only [rxBufferRemember, wp_bind, wp_get]
    refine wp_if (fun _ => wp_if (fun _ => htake u hut hui) fun h => absurd rfl h) fun _ => ?_
    split
    · refine wp_if (fun h => absurd h (by simp)) fun _ => ?_
      refine (wp_bind ..).mpr (hknown.mono (fun _ v hv => ?_) fun _ _ _ => trivial)
      exact ⟨failRx_settled env hv _ _, .inr rfl⟩
    · simp only [wp_bind, wp_set, wp_pure]
      exact wp_if (fun _ => htake _ hut hui) fun h => absurd trivial h

/-- What the decoder of a PUBLISH makes of the bytes it is offered. -/
inductive PublishDecoded (w : World σ) (bs : List Byte) : DecodeResult × ℕ → World σ → Prop
  | onward {c : ℕ} {v : World σ} (h : PartRead env w bs c v) (hb : v.rx.internal.blockingStr = none)
    (hc : w.rx.internal.remainBufPos + 1 + c ≤ w.rx.internal.header.remainingLength) : PublishDecoded w bs (.continue, c) v
  | blocked {c : ℕ} {v : World σ} (h : PartRead env w bs c v) (hb : v.rx.internal.blockingStr.isSome = true) :
    PublishDecoded w bs (.wouldBlock, c) v
  | failed {v : World σ} (h : PartFailed env w bs v) : PublishDecoded w bs (.error, 0) v
  | ended {res : DecodeResult} {c : ℕ} {w' : World σ} (v : World σ) (h : PartRead env w bs c v)
    (hc : w.rx.internal.header.remainingLength < w.rx.internal.remainBufPos + 1 + c)
    (hs : Settled env v.told w' (w.skipping env)) (hres : res = .finished ∨ res = .error) :
    PublishDecoded w bs (res, c) w'

theorem rxBufferDecodePublish_decoded (w : World σ) (bs : List Byte) (hw : w.rx.internal.inPublish = true) :
    Wp (rxBufferDecodePublish env bs) w (fun r v => PublishDecoded env w bs r v) fun _ _ => True := by
  simp only [rxBufferDecodePublish]
  refine wp_assert_bind (fun _ => ?_) fun _ => trivial
  simp only [wp_bind, wp_get]
  refine (rxBufferDecodePublishPart_spec bs hw).mono (fun r v hr => ?_) fun _ _ _ => trivial
  cases r with
  | none => exact .failed hr
  | some c =>
    simp only [wp_bind, wp_get]
    refine wp_if (fun hb => .blocked hr hb) fun hb => wp_if (fun hc => ?_) fun hc => ?_
    · exact .onward hr (by simpa using hb) hc
    · have hskip : v.rx.internal.ignorePublish = w.skipping env := by rw [hr.rx]
      refine (wp_bind ..).mpr ((rxBufferFinishPublish_settled env v).mono (fun res x hx => ?_) fun _ _ _ => trivial)
      rw [hskip] at hx
      exact .ended v hr (by omega) hx.1 hx.2

/-! ### Turns -/

/-- What a turn of the decoder in the body of a PUBLISH does: it goes on, or waits for a
string, or fails, or takes the last byte. -/
inductive PublishTurned (w : World σ) (bs : List Byte) : Turn → World σ → Prop
  | onward (c : ℕ) (v : World σ) (h : PartRead env w bs c v) (hb : v.rx.internal.blockingStr = none)
    (hc : w.rx.internal.remainBufPos + c < w.rx.internal.header.remainingLength) :
    PublishTurned w bs (.read c) (v.advance c)
  | blocked (c : ℕ) (v : World σ) (h : PartRead env w bs c v) (hb : v.rx.internal.blockingStr.isSome = true) :
    PublishTurned w bs .blocked v
  | failed (v : World σ) (h : PartFailed env w bs v) : PublishTurned w bs (.failed 0) v
  | refused (c : ℕ) (v w' : World σ) (h : PartRead env w bs c v)
    (hc : w.rx.internal.header.remainingLength ≤ w.rx.internal.remainBufPos + c)
    (hs : Settled env v.told w' (w.skipping env)) (he : w'.rx.internal.error.isSome = true) :
    PublishTurned w bs (.failed 0) w'
  | finished (c : ℕ) (v w' : World σ) (h : PartRead env w bs c v)
    (hc : w.rx.internal.header.remainingLength ≤ w.rx.internal.remainBufPos + c)
    (hs : Settled env v.told w' (w.skipping env)) (he : w'.rx.internal = {}) : PublishTurned w bs (.read c) w'

/- A turn that stops inside a packet only counts its bytes. -/
theorem rxBufferEndTurn_inside (u : World σ) (c : ℕ) (hf : rxBufferIsPacketFinished u.rx.internal = false) :
    rxBufferEndTurn env c u = .ok (.read c) u := by
  rw [rxBufferEndTurn, run_get_bind]
  simp only [hf]
  cases u.rx.internal.decoder with
  | none => rfl
  | some d => rfl

/- The end of a packet that answers no request. -/
theorem rxBufferEndTurn_idle (u : World σ) (c : ℕ) (hd : u.rx.internal.decoder = some rxBufferDecoderPublish)
    (hv : u.rx.internal.value = {}) (hf : rxBufferIsPacketFinished u.rx.internal = true) :
    Wp (rxBufferEndTurn env c) u (fun t w' => t = .read c ∧ w'.rx.internal = {} ∧ w'.told = u.told ∧ w'.app = u.app)
      fun _ _ => True := by
  have hcall : callValue env u.rx.internal.value u.decoded = .ok true u.decoded := by
    rw [hv]
    exact callValue_idle env u.decoded {} (.inl rfl)
  have htold : u.decoded.told = u.told := told_emit u.calling _
  simp only [rxBufferEndTurn, rxBufferFinishPacket, emitFinished, lmqttRxBufferReset, wp_bind, wp_get, hd]
  refine wp_if (fun _ => ?_) fun h => absurd hf h
  simp only [wp_bind, wp_get]
  refine wp_if (fun h => absurd h (by decide)) fun _ => ?_
  simp only [wp_bind, wp_modify]
  unfold Wp
  rw [hcall]
  exact ⟨rfl, rfl, htold, rfl⟩

theorem publishTurn_spec (w : World σ) (bs : List Byte) (hw : w.rx.internal.inPublish = true)
    (hv : w.rx.internal.value = {}) (hwe : w.error = none) :
    Wp (rxBufferDecodeBodyTurn env rxBufferDecoderPublish bs) w (fun t w' => PublishTurned env w bs t w')
      fun _ _ => True := by
  obtain ⟨hwf, hwd⟩ := (RxInternal.inPublish_iff _).mp hw
  unfold rxBufferDecodeBodyTurn
  simp only [wp_bind]
  change Wp (rxBufferDecodeRemainingWithoutId env rxBufferDecoderPublish bs) w _ _
  simp only [rxBufferDecodeRemainingWithoutId, wp_bind, wp_get]
  change Wp (rxBufferDecodePublish env bs) w _ _
  refine ((rxBufferDecodePublish_decoded env w bs hw).and (rxBufferDecodePublish_spec env (fun _ => True) w bs hwe)).mono
    (fun r v hr => ?_) fun _ _ _ => trivial
  obtain ⟨hr, hdec⟩ := hr
  obtain ⟨res, count⟩ := r
  have hvp := hdec.kept.pos
  have hvh := hdec.kept.header
  have hvv := hdec.kept.value.trans hv
  have hvd := hdec.kept.decoder.trans hwd
  have hvf := hdec.kept.headerFinished.trans hwf
  cases hr with
  | failed hr =>
    refine wp_if (fun _ => ?_) fun h => absurd rfl h
    exact wp_assert_bind (fun _ => .failed v hr) fun _ => trivial
  | blocked h hb =>
    refine wp_if (fun h => by contradiction) fun _ => wp_assert_bind (fun _ => ?_) fun _ => trivial
    exact wp_assert_bind (fun _ => .blocked count v h hb) fun _ => trivial
  | onward h hb hc =>
    refine wp_if (fun h => by contradiction) fun _ => wp_assert_bind (fun _ => ?_) fun _ => trivial
    have hgo : rxBufferIsPacketFinished (v.advance count).rx.internal = false := by
      simp only [rxBufferIsPacketFinished, World.advance, World.setRx, hvf, hvh, hvp, Bool.true_and]
      simp only [decide_eq_false_iff_not]
      omega
    change Wp (rxBufferEndTurn env count) (v.advance count) _ _
    unfold Wp
    rw [rxBufferEndTurn_inside env _ count hgo]
    exact .onward count v h hb (by omega)
  | ended t h hc hs hres =>
    rcases hres with rfl | rfl
    · refine wp_if (fun h => by contradiction) fun _ => wp_assert_bind (fun _ => ?_) fun _ => trivial
      simp only [rxBufferDecodedBytes]
      refine (rxBufferEndTurn_idle env (v.advance count) count hvd hvv ?_).mono (fun t' w' hw' => ?_) fun _ _ _ => trivial
      · simp only [rxBufferIsPacketFinished, World.advance, World.setRx, hvf, hvh, hvp, Bool.true_and]
        simp only [decide_eq_true_eq]
        omega
      · obtain ⟨rfl, hfresh, htold, happ⟩ := hw'
        exact .finished count t w' h (by omega) (hs.congr env htold happ) hfresh
    · refine wp_if (fun _ => ?_) fun h => absurd rfl h
      exact wp_assert_bind (fun _ => .refused count t v h (by omega) hs (hdec.why rfl)) fun _ => trivial

theorem messageTurn_spec (w : World σ) (bs : List Byte) (hs : RxShape w.rx.internal)
    (hw : w.rx.internal.inPublish = true) (hwe : w.error = none) :
    Wp (rxBufferDecodeTurn env bs) w (fun t w' => PublishTurned env w bs t w') fun _ _ => True := by
  obtain ⟨hwf, hwd⟩ := (RxInternal.inPublish_iff _).mp hw
  have hv : w.rx.internal.value = {} := by
    apply hs.idle
    rw [RxInternal.kind, hwd]
    rfl
  unfold Wp
  rw [rxBufferDecodeTurn_body hwf hwd]
  exact publishTurn_spec env w bs hw hv hwe

end LightMqtt
