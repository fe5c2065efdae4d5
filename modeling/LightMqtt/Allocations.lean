import LightMqtt.Incoming
import LightMqtt.Redelivery

/-!
# The strings of a message

A part of a message is allocated at its first byte, and the strings are released
where the decoder is done with the message. Both are counted over the run in
which one packet is read.
-/

namespace LightMqtt

open Exec

variable {σ : Type} {env : Env σ}

/-! ### Where the decoder stands -/

/- Where a part begins in the body. -/
def RxInternal.startOf (i : RxInternal) : PublishPart → ℕ
  | .topic => 2
  | .payload => 2 + i.topicLen + i.header.idLen

theorem RxInternal.place_start {i : RxInternal} {p : PartPlace} (h : i.place = some p) :
    p.start = i.startOf p.part ∧ p.start ≤ i.remainBufPos ∧ 2 ≤ p.start := by
  unfold RxInternal.place at h
  split at h
  · contradiction
  · rename_i h2
    split at h
    · cases h
      exact ⟨rfl, by dsimp only; omega, le_rfl⟩
    · split at h
      · contradiction
      · cases h
        exact ⟨rfl, by dsimp only; omega, by dsimp only; omega⟩

theorem RxInternal.place_low {i : RxInternal} (h : i.remainBufPos < 2) : i.place = none := by
  unfold RxInternal.place
  rw [if_pos h]

/-- In the body of a PUBLISH the lengths fit, and there are bytes to come. -/
structure RxInternal.Inside (i : RxInternal) : Prop where
  short : i.Short
  fits : i.inPublish = true → 2 ≤ i.remainBufPos → 0 < i.topicLen ∧
    i.topicLen + 2 + i.header.idLen ≤ i.header.remainingLength

theorem RxInternal.Inside.fresh {i : RxInternal} (h : i.headerFinished = false) : i.Inside := by
  refine ⟨fun hf => ?_, fun hp => ?_⟩
  · rw [h] at hf
    contradiction
  · rw [((RxInternal.inPublish_iff i).mp hp).1] at h
    contradiction

section Read
variable {w v : World σ} {bs : List Byte} {c : ℕ}

/- A question is asked at the first byte of a part of a message that is not ignored. -/
theorem asks_place {x : PartPlace × Allocation σ} (h : w.asks env = some x) : w.rx.internal.inPublish = true ∧
    w.rx.internal.place = some x.1 ∧ w.rx.internal.ignorePublish = false ∧ w.rx.internal.remainBufPos = x.1.start ∧
    w.skipping env = decide (x.2.result = .ignore) := by
  obtain ⟨-, hur⟩ := ignoreUnwanted_rx env w
  unfold World.asks at h
  split at h
  · rename_i hw
    obtain ⟨p, hp, h⟩ := Option.bind_eq_some_iff.mp h
    obtain ⟨a, ha, rfl⟩ := Option.map_eq_some_iff.mp h
    have hplace : w.rx.internal.place = some p := by
      rw [← hp, hur]
      rfl
    have hfirst := ha
    unfold World.allocation at hfirst
    split at hfirst
    · rename_i hi
      rw [hur] at hi
      refine ⟨hw, hplace, ?_, hi.2, ?_⟩
      · cases hign : w.rx.internal.ignorePublish with
        | false => rfl
        | true =>
          have hu : (w.ignoreUnwanted env).rx.internal.ignorePublish = true := by
            unfold World.ignoreUnwanted
            split
            · rfl
            · exact hign
          exact absurd (hu.symm.trans hi.1) (by decide)
      · rw [World.skipping, hp]
        simp only [World.skips, ha]
    · contradiction
  · contradiction

/- An ignored message stays ignored. -/
theorem skipping_of_ignored (h : w.rx.internal.ignorePublish = true) : w.skipping env = true := by
  have hu : (w.ignoreUnwanted env).rx.internal.ignorePublish = true := by
    unfold World.ignoreUnwanted
    split
    · rfl
    · exact h
  unfold World.skipping
  split
  · rename_i p hp
    have ha : (w.ignoreUnwanted env).allocation env p = none := by simp [World.allocation, hu]
    simp only [World.skips, ha, hu]
  · exact hu

/- Before the topic a turn takes one byte. -/
theorem PartRead.low (h : PartRead env w bs c v) (hp : w.rx.internal.remainBufPos < 2) : c = 1 := by
  have hplace := RxInternal.place_low hp
  rcases h.count with ⟨-, hc, -⟩ | ⟨a, ha, -⟩
  · rw [hc, World.share, hplace]
  · have hu : (w.ignoreUnwanted env).rx.internal.place = none := by
      rw [(ignoreUnwanted_rx env w).2]
      exact hplace
    rw [World.writes, hu] at ha
    split at ha <;> contradiction

/- Inside a part there are bytes to take. -/
theorem share_pos (hi : w.rx.internal.Inside) (hw : w.rx.internal.inPublish = true) (hb : bs ≠ []) : 0 < w.share bs := by
  have hshort := hi.short ((RxInternal.inPublish_iff _).mp hw).1
  have hlen := List.length_pos_iff.mpr hb
  unfold World.share
  split
  · rename_i p hp
    have hroom : 0 < p.len - (w.rx.internal.remainBufPos - p.start) := by
      unfold RxInternal.place at hp
      split at hp
      · contradiction
      · split at hp
        · cases hp
          dsimp only
          omega
        · split at hp
          · contradiction
          · cases hp
            dsimp only
            have hfits := hi.fits hw (by omega)
            omega
    unfold World.chunk
    rw [List.length_take]
    omega
  · exact Nat.one_pos

/- The decoder behind the bytes of a part. -/
theorem PartRead.inside (h : PartRead env w bs c v) (hw : w.rx.internal.inPublish = true) (hi : w.rx.internal.Inside)
    (hc : w.rx.internal.remainBufPos + c < w.rx.internal.header.remainingLength) : (v.advance c).rx.internal.Inside := by
  have hrx := h.rx
  refine ⟨fun _ => ?_, fun _ h2 => ?_⟩
  · simp only [World.advance, World.setRx]
    rw [hrx]
    exact hc
  · simp only [World.advance, World.setRx] at h2 ⊢
    have hpos : v.rx.internal.remainBufPos = w.rx.internal.remainBufPos := by rw [hrx]
    have hhead : v.rx.internal.header = w.rx.internal.header := by rw [hrx]
    rw [hpos] at h2
    rw [hhead]
    by_cases hlow : w.rx.internal.remainBufPos < 2
    · have hone := h.low hlow
      exact h.fits (by omega)
    · rw [h.topic (by omega)]
      exact hi.fits hw (by omega)

end Read

/-- A turn of the decoder, in the body of a PUBLISH or elsewhere. -/
structure ReadTurn (env : Env σ) (w : World σ) (bs : List Byte) (t : Turn) (w' : World σ) : Prop where
  turn : w.rx.internal.inPublish = false ∧ OtherTurn w t w' ∨ w.rx.internal.inPublish = true ∧ PublishTurned env w bs t w'
  why : (∃ n, t = .failed n) → w'.rx.internal.error.isSome = true

theorem readTurn_spec (w : World σ) (bs : List Byte) (hl : Live w) (hs : (Step.read bs).Enabled (fun _ => True) w)
    (hi : w.rx.internal.Inside) :
    Wp (rxBufferDecodeTurn env bs) w (fun t w' => ReadTurn env w bs t w') fun _ _ => True := by
  obtain ⟨hwe, he, -⟩ := hs
  have hdec := hl.decoding hwe
  have hspec := rxBufferDecodeTurn_spec env (fun _ => True) w bs hl.sound hdec.shape he hwe hdec.requests
  cases hw : w.rx.internal.inPublish with
  | false =>
    exact ((rxBufferDecodeTurn_other env bs w hdec.shape he hi.short hw).and hspec).mono
      (fun t w' h => ⟨.inl ⟨hw, h.1⟩, h.2.why⟩) fun _ _ _ => trivial
  | true =>
    exact ((messageTurn_spec env w bs hdec.shape hw hwe).and hspec).mono
      (fun t w' h => ⟨.inr ⟨hw, h.1⟩, h.2.why⟩) fun _ _ _ => trivial

theorem ReadTurn.inside {w w' : World σ} {bs : List Byte} {t : Turn} (h : ReadTurn env w bs t w')
    (hi : w.rx.internal.Inside) (he : w'.rx.internal.error = none) : w'.rx.internal.Inside := by
  have hnf : ∀ {e : RxInternal}, e.error.isSome = true → e.error = none → False := by
    intro e hs hn
    rw [hn] at hs
    contradiction
  rcases h.turn with ⟨-, ht⟩ | ⟨hw, ht⟩
  · refine ⟨?_, fun hp h2 => ?_⟩
    · rcases ht.short with hf | hshort
      · exact (hnf (h.why hf) he).elim
      · exact hshort
    · have hpos := ht.start hp
      omega
  · cases ht with
    | onward c v hr hb hc => exact hr.inside hw hi hc
    | blocked c v hr hb =>
      have hrx := hr.rx
      refine ⟨fun _ => ?_, fun _ h2 => ?_⟩
      · rw [hrx]
        exact hi.short ((RxInternal.inPublish_iff _).mp hw).1
      · have hpos : w'.rx.internal.remainBufPos = w.rx.internal.remainBufPos := by rw [hrx]
        have hhead : w'.rx.internal.header = w.rx.internal.header := by rw [hrx]
        rw [hpos] at h2
        rw [hr.topic h2, hhead]
        exact hi.fits hw h2
    | failed v hf => exact (hnf hf.error he).elim
    | refused c v w' hr hc hs hfail => exact (hnf hfail he).elim
    | finished c v w' hr hc hs hfresh =>
      apply RxInternal.Inside.fresh
      rw [hfresh]

/-- The decoder of a client that runs stands inside its packet. -/
theorem stepped_inside {C : World σ → Step σ → Prop} (w : World σ) (h : Stepped env C w) :
    w.rx.internal.error = none → w.rx.internal.Inside := by
  induction h with
  | start buffers heap app w h =>
    intro _
    have hr := start_reverted h
    apply RxInternal.Inside.fresh
    rw [hr.same]
    rfl
  | step w w' s hw hc hs h ih =>
    intro he'
    by_cases hread : ∃ bs, s = .read bs
    · obtain ⟨bs, rfl⟩ := hread
      obtain ⟨t, u, ht, hu⟩ := ok_bind h
      obtain ⟨-, rfl⟩ := ok_pure hu
      have hi := ih hs.2.1
      exact (wp_ok (readTurn_spec w bs hw.live hs hi) ht).inside hi he'
    · have hbeside := wp_ok (step_beside env w s hs fun bs hbs => hread ⟨bs, hbs⟩) h
      obtain ⟨-, ⟨-, hfresh⟩ | ⟨-, hsame⟩⟩ := hbeside
      · apply RxInternal.Inside.fresh
        rw [hfresh]
      · rw [hsame.rx] at he' ⊢
        have hi := ih he'
        exact ⟨hi.short, hi.fits⟩

/-! ### Runs over one packet -/

/- The allocation callback that a step calls, and what it answers. -/
def Step.asks (env : Env σ) (w : World σ) : Step σ → List (PublishPart × AllocateResult)
  | read _ => (w.asks env).toList.map fun x => (x.1.part, x.2.result)
  | _ => []

/-- The states of a run while one packet is read, from the turn that takes its first byte
in `w₀` up to the one that leaves a fresh decoder, with the answers of the allocation
callbacks, newest first. Every step meets the condition `C`. -/
inductive Packet (env : Env σ) (C : World σ → Step σ → Prop) (w₀ : World σ) :
    World σ → List (PublishPart × AllocateResult) → Prop
  | first (bs : List Byte) (w : World σ) (hn : w₀.rx.internal = {}) (hc : C w₀ (.read bs))
    (hs : (Step.read bs).Enabled (fun _ => True) w₀) (h : (Step.read bs).run env w₀ = .ok () w) : Packet env C w₀ w []
  | step (w w' : World σ) (s : Step σ) (asked : List (PublishPart × AllocateResult)) (hw : Packet env C w₀ w asked)
    (hn : w.rx.internal.header ≠ {}) (hc : C w s) (hs : s.Enabled (fun _ => True) w) (h : s.run env w = .ok () w') :
    Packet env C w₀ w' (s.asks env w ++ asked)

theorem Packet.stepped {C : World σ → Step σ → Prop} {w₀ w : World σ} {asked : List (PublishPart × AllocateResult)}
    (h : Packet env C w₀ w asked) (h₀ : Stepped env (fun _ _ => True) w₀) : Stepped env (fun _ _ => True) w := by
  induction h with
  | first bs w hn hc hs h => exact .step w₀ w _ h₀ trivial hs h
  | step w w' s asked hw hn hc hs h ih => exact .step w w' s ih trivial hs h

def Event.allocates (part : PublishPart) : Event → Bool
  | .allocate q _ => q = part
  | _ => false

/- How often the allocation callback of a part was called, and the one that releases. -/
def World.allocations (w : World σ) (part : PublishPart) : ℕ := w.told.countP (Event.allocates part)
def World.releases (w : World σ) : ℕ := w.told.count .deallocate

section Counts
variable {w w' v : World σ} {bs : List Byte} {part : PublishPart}

theorem asked_some {x : PartPlace × Allocation σ} (h : w.asks env = some x) :
    w.asked env = [.allocate x.1.part x.1.len] := by
  rw [World.asked, h]
  rfl

theorem asked_none (h : w.asks env = none) : w.asked env = [] := by
  rw [World.asked, h]
  rfl

theorem Settled.allocations {base : List Event} {ig : Bool} (h : Settled env base w ig) :
    w.allocations part = base.countP (Event.allocates part) := by
  have hcalls : ∀ {calls : List Event}, (∀ ev ∈ calls, ∃ id b, ev = .message id b) →
      (calls ++ base).countP (Event.allocates part) = base.countP (Event.allocates part) := by
    intro calls hc
    have hzero : calls.countP (Event.allocates part) = 0 := by
      rw [List.countP_eq_zero]
      intro ev hev
      obtain ⟨id, b, rfl⟩ := hc ev hev
      simp [Event.allocates]
    rw [List.countP_append, hzero, Nat.zero_add]
  unfold World.allocations
  cases h with
  | ignored h => rw [h]
  | released calls hc f a b hf ht ha =>
    rw [ht, List.countP_cons_of_neg (by simp [Event.allocates]), hcalls hc]
  | kept calls hc hf ht => rw [ht, hcalls hc]

end Counts

/-! ### Each part is allocated once -/

/- A write callback took nothing, and did not fail. -/
def WriteReply.takesNothing (a : WriteReply σ) : Bool := a.result = .wouldBlock || a.result = .success && a.count = 0

/-- The write callback takes none of the first bytes of a part, and does not fail. -/
def Step.StallsFirst (env : Env σ) (w : World σ) : Step σ → Prop
  | read bs => (w.asks env).isSome = true ∧ (w.writes env bs).any WriteReply.takesNothing = true
  | _ => False

instance (w : World σ) (s : Step σ) : Decidable (s.StallsFirst env w) := by
  cases s <;> unfold Step.StallsFirst <;> infer_instance

/-- Since `w₀` a part was allocated at most once, and not before its first byte. -/
structure Allocated (part : PublishPart) (w₀ w : World σ) : Prop where
  once : w.allocations part ≤ w₀.allocations part + 1
  behind : w.rx.internal.error = none → w.rx.internal.inPublish = true → w.rx.internal.ignorePublish = false →
    w.rx.internal.remainBufPos ≤ w.rx.internal.startOf part → w.allocations part = w₀.allocations part
  other : w.rx.internal.error = none → w.rx.internal.inPublish = false → w.rx.internal.header ≠ {} →
    w.allocations part = w₀.allocations part

section Allocated
variable {part : PublishPart} {w₀ w w' v : World σ} {bs : List Byte} {c : ℕ}

theorem allocations_told (h : w'.told = w.told) : w'.allocations part = w.allocations part := by
  rw [World.allocations, h]
  rfl

theorem Allocated.same (h : w.allocations part = w₀.allocations part) : Allocated part w₀ w :=
  ⟨by omega, fun _ _ _ _ => h, fun _ _ _ => h⟩

/- The packet is over. -/
theorem Allocated.ended (h : w.allocations part ≤ w₀.allocations part + 1)
    (ho : w.rx.internal = {} ∨ w.rx.internal.error.isSome = true) : Allocated part w₀ w := by
  refine ⟨h, fun he hp => ?_, fun he _ hn => ?_⟩
  · rcases ho with ho | ho
    · rw [ho] at hp
      contradiction
    · rw [he] at ho
      contradiction
  · rcases ho with ho | ho
    · rw [ho] at hn
      exact absurd rfl hn
    · rw [he] at ho
      contradiction

theorem Allocated.beside (h : Allocated part w₀ w) (hb : Beside w w') : Allocated part w₀ w' := by
  have ht : w'.allocations part = w.allocations part := allocations_told hb.told
  have hrx := hb.rx
  refine ⟨ht.trans_le h.once, fun he hp hi hpos => ht.trans ?_, fun he hp hn => ht.trans ?_⟩
  · rw [hrx] at he hp hi hpos
    exact h.behind he hp hi hpos
  · rw [hrx] at he hp hn
    exact h.other he hp hn

/- The question of a turn is the first about its part. -/
theorem Allocated.asked (h : Allocated part w₀ w) (he : w.rx.internal.error = none) :
    (w.asked env ++ w.told).countP (Event.allocates part) ≤ w₀.allocations part + 1 := by
  rw [List.countP_append]
  change _ + w.allocations part ≤ _
  cases ha : w.asks env with
  | none =>
    rw [asked_none ha, List.countP_nil, Nat.zero_add]
    exact h.once
  | some x =>
    obtain ⟨hw, hplace, hign, hpos, -⟩ := asks_place ha
    rw [asked_some ha, List.countP_singleton]
    by_cases hpart : x.1.part = part
    · have hstart := (RxInternal.place_start hplace).1
      rw [hpart] at hstart
      rw [h.behind he hw hign (by omega)]
      split <;> omega
    · have hno : ¬ Event.allocates part (.allocate x.1.part x.1.len) = true := by simpa [Event.allocates] using hpart
      rw [if_neg hno, Nat.zero_add]
      exact h.once

/- The decoder goes on in the message. -/
theorem Allocated.onward (h : Allocated part w₀ w) (he : w.rx.internal.error = none) (hw : w.rx.internal.inPublish = true)
    (hr : PartRead env w bs c v) (n : ℕ) (hmoves : ∀ x, w.asks env = some x → 0 < n ∨ w.skipping env = true) :
    Allocated part w₀ (v.advance n) := by
  have hrx := hr.rx
  have htold : (v.advance n).allocations part = (w.asked env ++ w.told).countP (Event.allocates part) := by
    rw [← hr.told]
    rfl
  have hpos : (v.advance n).rx.internal.remainBufPos = w.rx.internal.remainBufPos + n := by
    simp only [World.advance, World.setRx]
    rw [hrx]
  have hign : (v.advance n).rx.internal.ignorePublish = w.skipping env := by
    simp only [World.advance, World.setRx]
    rw [hrx]
  have hin : (v.advance n).rx.internal.inPublish = true := by
    simp only [World.advance, World.setRx]
    rw [hrx]
    exact hw
  refine ⟨htold.trans_le (h.asked he), fun _ _ hi hle => ?_, fun _ hp => ?_⟩
  · rw [hign] at hi
    rw [hpos] at hle
    have hwi : w.rx.internal.ignorePublish = false := by
      by_contra hign
      have hskip : w.skipping env = true := skipping_of_ignored (by simpa using hign)
      rw [hskip] at hi
      contradiction
    have hlow : 2 ≤ w.rx.internal.startOf part := by
      cases part
      · exact le_rfl
      · change 2 ≤ 2 + _ + _
        omega
    -- the part begins where it did
    have hsame : 2 ≤ w.rx.internal.remainBufPos →
        (v.advance n).rx.internal.startOf part = w.rx.internal.startOf part := by
      intro h2
      have htopic := hr.topic h2
      cases part
      · rfl
      · simp only [RxInternal.startOf, World.advance, World.setRx]
        rw [htopic, hrx]
    have hbefore : w.rx.internal.remainBufPos ≤ w.rx.internal.startOf part := by
      by_cases h2 : 2 ≤ w.rx.internal.remainBufPos
      · rw [hsame h2] at hle
        omega
      · omega
    have hnone : (w.asked env).countP (Event.allocates part) = 0 := by
      cases ha : w.asks env with
      | none => rw [asked_none ha, List.countP_nil]
      | some x =>
        obtain ⟨-, hplace, -, hat, -⟩ := asks_place ha
        obtain ⟨hstart, -, h2⟩ := RxInternal.place_start hplace
        rw [asked_some ha, List.countP_singleton, if_neg]
        intro hpart
        have hpart : x.1.part = part := by simpa [Event.allocates] using hpart
        rw [hpart] at hstart
        rw [hsame (by omega)] at hle
        rcases hmoves x ha with hc | hskip
        · omega
        · rw [hskip] at hi
          contradiction
    rw [htold, List.countP_append, hnone, Nat.zero_add]
    exact h.behind he hw hwi hbefore
  · rw [hin] at hp
    contradiction

/-- A turn of the decoder allocates a part that was not allocated yet. -/
theorem Allocated.turn {t : Turn} (h : Allocated part w₀ w) (he : w.rx.internal.error = none)
    (hn : w.rx.internal.header ≠ {}) (hi : w.rx.internal.Inside) (hb : bs ≠ []) (hc : ¬ (Step.read bs).StallsFirst env w)
    (ht : ReadTurn env w bs t w') : Allocated part w₀ w' := by
  rcases ht.turn with ⟨hw, ht⟩ | ⟨hw, ht⟩
  · exact .same ((allocations_told ht.told).trans (h.other he hw hn))
  · -- the first bytes of a part are taken, unless the message is ignored
    have hmoves : ∀ {c v}, PartRead env w bs c v → ∀ x, w.asks env = some x → 0 < c ∨ w.skipping env = true := by
      intro c v hr x hx
      rcases hr.count with ⟨-, hcount, -⟩ | ⟨a, ha, hcount, hres⟩
      · rw [hcount]
        exact .inl (share_pos hi hw hb)
      · left
        by_contra hzero
        have hzero : a.count = 0 := by omega
        refine hc ⟨by rw [hx]; rfl, ?_⟩
        rw [ha, Option.any_some]
        rcases hres with ⟨hres, -⟩ | ⟨hres, -⟩ <;> simp [WriteReply.takesNothing, hres, hzero]
    have hasked : (w.asked env ++ w.told).countP (Event.allocates part) ≤ w₀.allocations part + 1 := h.asked he
    have hover : ∀ {v : World σ} {c : ℕ}, PartRead env w bs c v → Settled env v.told w' (w.skipping env) →
        w'.allocations part ≤ w₀.allocations part + 1 := by
      intro v c hr hs
      rw [hs.allocations, hr.told]
      exact hasked
    cases ht with
    | onward c v hr hb hc => exact h.onward he hw hr c (hmoves hr)
    | blocked c v hr hbl =>
      refine h.onward he hw hr 0 fun x hx => .inr ?_
      have hnone : w'.rx.internal.blockingStr ≠ none := by
        intro hnone
        rw [hnone] at hbl
        contradiction
      rcases hr.count with ⟨-, -, hplace | hskip | hblock⟩ | ⟨a, ha, -, ⟨-, hblock⟩ | ⟨hres, -⟩⟩
      · rw [(asks_place hx).2.1] at hplace
        contradiction
      · exact hskip
      · exact absurd hblock hnone
      · exact absurd hblock hnone
      · refine absurd ⟨by rw [hx]; rfl, ?_⟩ hc
        rw [ha, Option.any_some]
        simp [WriteReply.takesNothing, hres]
    | failed v hf =>
      refine .ended ?_ (.inr hf.error)
      rcases hf.ends with ⟨-, htold⟩ | ⟨-, hs⟩
      · rw [allocations_told htold]
        exact h.once
      · rw [hs.allocations]
        exact hasked
    | refused c v w' hr hc hs hfail => exact .ended (hover hr hs) (.inr hfail)
    | finished c v w' hr hc hs hfresh => exact .ended (hover hr hs) (.inl hfresh)

/- A packet begins. -/
theorem Allocated.first {t : Turn} (hn : w₀.rx.internal = {}) (ht : ReadTurn env w₀ bs t w) : Allocated part w₀ w := by
  rcases ht.turn with ⟨-, ht⟩ | ⟨hw, -⟩
  · exact .same (allocations_told ht.told)
  · rw [hn] at hw
    contradiction

end Allocated

/-- Each part of a message is allocated at most once, in every run over its packet in which the
write callback takes some of the first bytes of a part, or fails. -/
theorem allocated_once {w₀ w : World σ} {asked : List (PublishPart × AllocateResult)}
    (h₀ : Stepped env (fun _ _ => True) w₀) (h : Packet env (fun w s => ¬ s.StallsFirst env w) w₀ w asked)
    (part : PublishPart) : w.allocations part ≤ w₀.allocations part + 1 := by
  suffices hall : Allocated part w₀ w from hall.once
  induction h with
  | first bs w hn hc hs h =>
    obtain ⟨t, u, ht, hu⟩ := ok_bind h
    obtain ⟨-, rfl⟩ := ok_pure hu
    have hi := stepped_inside w₀ h₀ hs.2.1
    have hturn := wp_ok (readTurn_spec w₀ bs h₀.live hs hi) ht
    exact .first hn hturn
  | step w w' s asked hw hn hc hs h ih =>
    have hstepped := hw.stepped h₀
    by_cases hread : ∃ bs, s = .read bs
    · obtain ⟨bs, rfl⟩ := hread
      obtain ⟨t, u, ht, hu⟩ := ok_bind h
      obtain ⟨-, rfl⟩ := ok_pure hu
      have hi := stepped_inside w hstepped hs.2.1
      have hturn := wp_ok (readTurn_spec w bs hstepped.live hs hi) ht
      exact ih.turn hs.2.1 hn hi hs.2.2 hc hturn
    · have hbeside := wp_ok (step_beside env w s hs fun bs hbs => hread ⟨bs, hbs⟩) h
      obtain ⟨htold, ⟨-, hfresh⟩ | ⟨-, hsame⟩⟩ := hbeside
      · exact .ended ((allocations_told htold).trans_le ih.once) (.inl hfresh)
      · exact ih.beside hsame

/-! ### A run on given steps -/

/- A packet on given steps. -/
def runPacket (env : Env σ) (c : World σ → Step σ → Bool) :
    List (Step σ) → World σ → List (PublishPart × AllocateResult) → Option (World σ × List (PublishPart × AllocateResult))
  | [], w, asked => some (w, asked)
  | s :: ss, w, asked =>
    if s.ready w && c w s && w.rx.internal.header ≠ {} then
      match s.run env w with
      | .ok _ w' => runPacket env c ss w' (s.asks env w ++ asked)
      | .error _ _ => none
    else none

theorem packet_runPacket {C : World σ → Step σ → Prop} {c : World σ → Step σ → Bool} (hc : ∀ w s, c w s = true → C w s)
    {w₀ w w' : World σ} {asked asked' : List (PublishPart × AllocateResult)} (ss : List (Step σ))
    (hw : Packet env C w₀ w asked) (h : runPacket env c ss w asked = some (w', asked')) : Packet env C w₀ w' asked' := by
  induction ss generalizing w asked with
  | nil =>
    cases h
    exact hw
  | cons s ss ih =>
    simp only [runPacket] at h
    split at h
    · rename_i hr
      simp only [Bool.and_eq_true, decide_eq_true_eq] at hr
      split at h
      · rename_i u hu
        exact ih (.step w u s asked hw hr.2 (hc w s hr.1.2) (s.ready_enabled w hr.1.1) hu) h
      · contradiction
    · contradiction

/- The packet from its first bytes on. -/
def runFirst (env : Env σ) (c : World σ → Step σ → Bool) (bs : List Byte) (ss : List (Step σ)) (w₀ : World σ) :
    Option (World σ × List (PublishPart × AllocateResult)) :=
  if w₀.rx.internal = {} && (Step.read bs).ready w₀ && c w₀ (.read bs) then
    match (Step.read bs).run env w₀ with
    | .ok _ w => runPacket env c ss w []
    | .error _ _ => none
  else none

theorem packet_runFirst {C : World σ → Step σ → Prop} {c : World σ → Step σ → Bool} (hc : ∀ w s, c w s = true → C w s)
    {w₀ w : World σ} {asked : List (PublishPart × AllocateResult)} (bs : List Byte) (ss : List (Step σ))
    (h : runFirst env c bs ss w₀ = some (w, asked)) : Packet env C w₀ w asked := by
  unfold runFirst at h
  split at h
  · rename_i hr
    simp only [Bool.and_eq_true, decide_eq_true_eq] at hr
    split at h
    · rename_i v hv
      have hs := (Step.read bs).ready_enabled w₀ hr.1.2
      exact packet_runPacket hc ss (.first bs v hr.1.1 (hc _ _ hr.2) hs hv) h
    · contradiction
  · contradiction

/-! ### Concrete packets -/

/- A message with the topic "a" and the payload "bc"; what is behind the length of the topic is offered twice. -/
def messageSteps : List (Step Unit) := [[5], [0], [1], [97, 98, 99], [97, 98, 99]].map .read

/- The application writes the topic away; `on_string_write` blocks. -/
def blockedEnv : Env Unit := { memoryEnv with
  message := { memoryEnv.message with onPublishAllocateTopic := some fun a _ n => ⟨a, .success, { len := n, write := true }⟩ } }

theorem connectRun_memory : (runClientSteps memoryEnv everyStep ⟨8, 64, 64, 4⟩ smallHeap () connectSteps).isSome = true := by
  decide +kernel

/- The topic "abc" up to its second byte. -/
def topicTurns : List (Step Unit) := [[5], [0], [3], [97, 98, 99], [98, 99]].map .read

/- Here `on_string_write` takes a byte at a time. -/
def writingEnv : Env Unit := { blockedEnv with strWrite := fun a _ _ => ⟨a, .success, 1, 0⟩ }

theorem connectRun_writing : (runClientSteps writingEnv everyStep ⟨8, 64, 64, 4⟩ smallHeap () connectSteps).isSome = true := by
  decide +kernel

theorem connectRun_blocked : (runClientSteps blockedEnv everyStep ⟨8, 64, 64, 4⟩ smallHeap () connectSteps).isSome = true := by
  decide +kernel

/-- The write of the topic blocks twice at its first byte: the topic is allocated twice. -/
theorem allocated_twice : ∃ (w₀ w : World Unit) (asked : List (PublishPart × AllocateResult)),
    Stepped blockedEnv (fun _ _ => True) w₀ ∧ Packet blockedEnv (fun _ _ => True) w₀ w asked ∧
    w.allocations .topic = w₀.allocations .topic + 2 := by
  obtain ⟨w₀, h₀, hrun⟩ : ∃ w₀ : World Unit, Stepped blockedEnv (fun _ _ => True) w₀ ∧
      (runFirst blockedEnv everyStep [0x30] messageSteps w₀).any
        (fun x => x.1.allocations .topic = w₀.allocations .topic + 2) = true :=
    ⟨_, stepped_get (fun _ _ _ => trivial) _ _ _ _ connectRun_blocked, by decide +kernel⟩
  obtain ⟨⟨w, asked⟩, hw, hcount⟩ := (Option.any_eq_true _ _).mp hrun
  exact ⟨w₀, w, asked, h₀, packet_runFirst (fun _ _ _ => trivial) _ _ hw, of_decide_eq_true hcount⟩

/- A topic of which each turn writes one byte away. -/
theorem allocated_once_writing : ∃ (w₀ w : World Unit) (asked : List (PublishPart × AllocateResult)),
    Packet writingEnv (fun w s => ¬ s.StallsFirst writingEnv w) w₀ w asked ∧ asked = [(.topic, .success)] ∧
    (w.str .rxTopic).write = true ∧ w.rx.internal.remainBufPos = 4 ∧ w.allocations .topic ≤ w₀.allocations .topic + 1 := by
  obtain ⟨w₀, h₀, hrun⟩ : ∃ w₀ : World Unit, Stepped writingEnv (fun _ _ => True) w₀ ∧
      (runFirst writingEnv (fun w s => decide (¬ s.StallsFirst writingEnv w)) [0x30] topicTurns w₀).any
        (fun x => x.2 = [(.topic, .success)] ∧ (x.1.str .rxTopic).write = true ∧ x.1.rx.internal.remainBufPos = 4) = true :=
    ⟨_, stepped_get (fun _ _ _ => trivial) _ _ _ _ connectRun_writing, by decide +kernel⟩
  obtain ⟨⟨w, asked⟩, hw, hx⟩ := (Option.any_eq_true _ _).mp hrun
  obtain ⟨hasked, hwrite, hplace⟩ := of_decide_eq_true hx
  have hpacket : Packet writingEnv (fun w s => ¬ s.StallsFirst writingEnv w) w₀ w asked :=
    packet_runFirst (fun w s h => of_decide_eq_true h) _ _ hw
  exact ⟨w₀, w, asked, hpacket, hasked, hwrite, hplace, allocated_once h₀ hpacket .topic⟩

end LightMqtt
