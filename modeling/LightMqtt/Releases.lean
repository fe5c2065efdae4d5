import LightMqtt.Allocations

/-!
# The release of a message

The decoder releases the strings of a message on each of its own ways out. A
connect resets it, and finalization discards it, without a word about them.
-/

namespace LightMqtt

open Exec

variable {σ : Type} {env : Env σ}

/-! ### Messages that are owed a release -/

/-- The topic was allocated, and no part was answered with IGNORE. -/
def Granted (asked : List (PublishPart × AllocateResult)) : Prop :=
  (.topic, .success) ∈ asked ∧ ∀ x ∈ asked, x.2 ≠ .ignore

instance (asked : List (PublishPart × AllocateResult)) : Decidable (Granted asked) := by
  unfold Granted
  infer_instance

/-- The step cuts off the packet that is read: the decoder is reset or discarded inside it. -/
def Step.CutsOff (w : World σ) (s : Step σ) : Prop :=
  w.rx.internal.error = none ∧ (s.Connects w ∨ s = .call .finalize)

/-- The packet ends with the step: it is complete, it failed, or the decoder was reset or discarded. -/
def Step.Ends (s : Step σ) (w' : World σ) : Prop :=
  w'.rx.internal.header = {} ∨ w'.rx.internal.error.isSome = true ∨ s = .call .finalize

/- The releases that are due for a message. -/
def releasesDue (env : Env σ) : ℕ := if env.message.onPublishDeallocate.isSome then 1 else 0

/-- The last callback of a turn released the message, and the decoder has left it. -/
structure ReleasedLast (env : Env σ) (w : World σ) : Prop where
  newest : w.told.head? = some .deallocate
  app : ∃ f a b, env.message.onPublishDeallocate = some f ∧ w.app = f a b
  ended : w.rx.internal = {} ∨ w.rx.internal.error.isSome = true

theorem not_granted_nil : ¬ Granted [] := by
  intro h
  have hmem := h.1
  contradiction

section Counts
variable {w w' v : World σ} {bs : List Byte} {c : ℕ}

theorem releases_told (h : w'.told = w.told) : w'.releases = w.releases := by
  rw [World.releases, h]
  rfl

/- A question is no release. -/
theorem asked_releases : (w.asked env ++ w.told).count .deallocate = w.releases := by
  rw [List.count_append]
  cases ha : w.asks env with
  | none => rw [asked_none ha, List.count_nil, Nat.zero_add]; rfl
  | some x => rw [asked_some ha, List.count_singleton, if_neg (by simp), Nat.zero_add]; rfl

theorem calls_releases {calls base : List Event} (hc : ∀ ev ∈ calls, ∃ id b, ev = .message id b) :
    (calls ++ base).count .deallocate = base.count .deallocate := by
  have hzero : calls.count .deallocate = 0 := by
    rw [List.count_eq_zero]
    intro hev
    obtain ⟨id, b, h⟩ := hc _ hev
    contradiction
  rw [List.count_append, hzero, Nat.zero_add]

/- A message that is not ignored is released at its end. -/
theorem Settled.releases {base : List Event} (h : Settled env base w false) :
    w.releases = base.count .deallocate + releasesDue env := by
  unfold World.releases releasesDue
  cases h with
  | released calls hc f a b hf ht ha =>
    rw [ht, List.count_cons_self, calls_releases hc, hf]
    rfl
  | kept calls hc hf ht =>
    rw [ht, calls_releases hc, hf]
    rfl

/- A release is the last callback of its turn. -/
theorem Settled.last {base : List Event} {ig : Bool} (h : Settled env base w ig)
    (hr : w.releases ≠ base.count .deallocate) (ho : w.rx.internal = {} ∨ w.rx.internal.error.isSome = true) :
    ReleasedLast env w := by
  unfold World.releases at hr
  cases h with
  | ignored ht =>
    rw [ht] at hr
    contradiction
  | released calls hc f a b hf ht ha =>
    refine ⟨?_, ⟨f, a, b, hf, ha⟩, ho⟩
    rw [ht]
    rfl
  | kept calls hc hf ht =>
    rw [ht, calls_releases hc] at hr
    contradiction

/- Where no question is asked. -/
theorem asks_none (h : w.rx.internal.inPublish = false ∨ w.rx.internal.remainBufPos < 2) : w.asks env = none := by
  cases ha : w.asks env with
  | none => rfl
  | some x =>
    obtain ⟨hw, hplace, -, hpos, -⟩ := asks_place ha
    have h2 := (RxInternal.place_start hplace).2.2
    rcases h with h | h
    · rw [hw] at h
      contradiction
    · omega

/- The topic is asked for only where all callbacks are there. -/
theorem asks_topic {x : PartPlace × Allocation σ} (h : w.asks env = some x) (hp : x.1.part = .topic) (u : World σ) :
    u.ignoreUnwanted env = u := by
  obtain ⟨-, hplace, -, hpos, -⟩ := asks_place h
  have hstart := (RxInternal.place_start hplace).1
  rw [hp] at hstart
  have h2 : w.rx.internal.remainBufPos = 2 := hpos.trans hstart
  unfold World.ignoreUnwanted
  rw [if_neg]
  intro hu
  have hign : (w.ignoreUnwanted env).rx.internal.ignorePublish = true := by
    unfold World.ignoreUnwanted
    rw [if_pos ⟨by omega, hu.2⟩]
    rfl
  have hnone : ∀ p, (w.ignoreUnwanted env).allocation env p = none := by
    intro p
    simp [World.allocation, hign]
  unfold World.asks at h
  split at h
  · obtain ⟨p, -, h⟩ := Option.bind_eq_some_iff.mp h
    rw [hnone p] at h
    contradiction
  · contradiction

end Counts

/-! ### What the decoder keeps -/

/-- The releases since `w₀` of the message that is read: none before its end, and the one
that is due when it failed. -/
structure Owing (env : Env σ) (w₀ w : World σ) (asked : List (PublishPart × AllocateResult)) : Prop where
  inside : w.rx.internal.error = none → w.releases = w₀.releases
  early : w.rx.internal.error = none → w.rx.internal.inPublish = false ∨ w.rx.internal.remainBufPos < 2 → asked = []
  wanted : (∃ r, (.topic, r) ∈ asked) → ∀ u : World σ, u.ignoreUnwanted env = u
  ignored : w.rx.internal.error = none → w.rx.internal.ignorePublish = true → ¬ Granted asked
  failed : w.rx.internal.error.isSome = true → Granted asked → w.releases = w₀.releases + releasesDue env

/-- What a turn of the decoder leaves. -/
structure TurnOwing (env : Env σ) (w₀ w w' : World σ) (asked : List (PublishPart × AllocateResult)) : Prop where
  onward : w'.rx.internal.header ≠ {} → Owing env w₀ w' asked
  ended : w'.rx.internal.header = {} ∨ w'.rx.internal.error.isSome = true → Granted asked →
    w'.releases = w₀.releases + releasesDue env
  last : w'.releases ≠ w.releases → ReleasedLast env w'

section Owing
variable {w₀ w w' v : World σ} {asked : List (PublishPart × AllocateResult)} {bs : List Byte} {c : ℕ}

theorem Owing.beside (h : Owing env w₀ w asked) (hb : Beside w w') : Owing env w₀ w' asked := by
  have ht : w'.releases = w.releases := releases_told hb.told
  have hrx := hb.rx
  refine ⟨fun he => ht.trans ?_, fun he hp => ?_, h.wanted, fun he hi => ?_, fun he hg => ht.trans ?_⟩
  · rw [hrx] at he
    exact h.inside he
  · rw [hrx] at he hp
    exact h.early he hp
  · rw [hrx] at he hi
    exact h.ignored he hi
  · rw [hrx] at he
    exact h.failed he hg

/- The topic was asked for by a turn, or before it. -/
theorem Owing.wants (h : Owing env w₀ w asked)
    (ht : ∃ r, (.topic, r) ∈ Step.asks env w (.read bs) ++ asked) (u : World σ) : u.ignoreUnwanted env = u := by
  obtain ⟨r, hr⟩ := ht
  rcases List.mem_append.mp hr with hr | hr
  · obtain ⟨x, hx, heq⟩ := List.mem_map.mp hr
    have hask : w.asks env = some x := Option.mem_toList.mp hx
    exact asks_topic hask (Prod.mk.inj heq).1 u
  · exact h.wanted ⟨r, hr⟩ u

/- Where the application wants the message and gave it strings, it is not ignored. -/
theorem Owing.takes (h : Owing env w₀ w asked) (he : w.rx.internal.error = none) (hw : w.rx.internal.inPublish = true)
    (hg : Granted (Step.asks env w (.read bs) ++ asked)) : w.skipping env = false := by
  have hsame := h.wants ⟨_, hg.1⟩ w
  cases ha : w.asks env with
  | some x =>
    rw [(asks_place ha).2.2.2.2, decide_eq_false_iff_not]
    refine hg.2 (x.1.part, x.2.result) (List.mem_append_left _ (List.mem_map.mpr ⟨x, ?_, rfl⟩))
    rw [ha]
    exact List.mem_singleton.mpr rfl
  | none =>
    have hnil : Step.asks env w (.read bs) = [] := by
      simp only [Step.asks, ha]
      rfl
    rw [hnil, List.nil_append] at hg
    have hign : w.rx.internal.ignorePublish = false := by
      by_contra hi
      exact h.ignored he (by simpa using hi) hg
    unfold World.skipping
    rw [hsame]
    split
    · rename_i p hp
      have hno : w.allocation env p = none := by
        rw [World.asks, if_pos hw, hsame, hp] at ha
        simpa using ha
      rw [World.skips, hno]
      exact hign
    · exact hign

/- The decoder goes on in the message. -/
theorem Owing.onward (h : Owing env w₀ w asked) (he : w.rx.internal.error = none) (hw : w.rx.internal.inPublish = true)
    (hr : PartRead env w bs c v) (n : ℕ) : Owing env w₀ (v.advance n) (Step.asks env w (.read bs) ++ asked) := by
  have hrx := hr.rx
  have herr : (v.advance n).rx.internal.error = none := by
    simp only [World.advance, World.setRx]
    rw [hrx]
    exact he
  have hrel : (v.advance n).releases = w.releases := by
    change v.told.count .deallocate = _
    rw [hr.told]
    exact asked_releases
  refine ⟨fun _ => hrel.trans (h.inside he), fun _ hp => ?_, h.wants, fun _ hi hg => ?_, fun hs => ?_⟩
  · have hlow : w.rx.internal.remainBufPos < 2 := by
      simp only [World.advance, World.setRx] at hp
      rw [hrx] at hp
      rcases hp with hp | hp
      · exact absurd (hw.symm.trans hp) (by decide)
      · dsimp only at hp
        omega
    have hnone : w.asks env = none := asks_none (.inr hlow)
    rw [h.early he (.inr hlow), Step.asks, hnone]
    rfl
  · simp only [World.advance, World.setRx] at hi
    rw [hrx] at hi
    exact absurd (hi.symm.trans (h.takes he hw hg)) (by decide)
  · rw [herr] at hs
    contradiction

/- A turn that is not in the body of a PUBLISH. -/
theorem Owing.other {t : Turn} (h : Owing env w₀ w asked) (he : w.rx.internal.error = none)
    (hw : w.rx.internal.inPublish = false) (ht : OtherTurn w t w') :
    TurnOwing env w₀ w w' (Step.asks env w (.read bs) ++ asked) := by
  have hrel : w'.releases = w.releases := releases_told ht.told
  have hnil : Step.asks env w (.read bs) ++ asked = [] := by
    have hnone : w.asks env = none := asks_none (.inl hw)
    rw [h.early he (.inl hw), Step.asks, hnone]
    rfl
  rw [hnil]
  refine ⟨fun _ => ?_, fun _ hg => absurd hg not_granted_nil, fun hne => absurd hrel hne⟩
  refine ⟨fun _ => hrel.trans (h.inside he), fun _ _ => rfl, fun hr => ?_, fun _ _ => not_granted_nil, fun _ hg => ?_⟩
  · obtain ⟨r, hr⟩ := hr
    contradiction
  · exact absurd hg not_granted_nil

/- The message is over. -/
theorem Owing.ended (h : Owing env w₀ w asked) (he : w.rx.internal.error = none) (hw : w.rx.internal.inPublish = true)
    (hs : Settled env (w.asked env ++ w.told) w' (w.skipping env))
    (ho : w'.rx.internal = {} ∨ w'.rx.internal.error.isSome = true) :
    TurnOwing env w₀ w w' (Step.asks env w (.read bs) ++ asked) := by
  have hdue : Granted (Step.asks env w (.read bs) ++ asked) → w'.releases = w₀.releases + releasesDue env := by
    intro hg
    rw [h.takes he hw hg] at hs
    rw [hs.releases, asked_releases, h.inside he]
  refine ⟨fun hn => ?_, fun _ => hdue, fun hne => hs.last ?_ ho⟩
  · have herr : w'.rx.internal.error ≠ none := by
      rcases ho with ho | ho
      · rw [ho] at hn
        exact absurd rfl hn
      · intro hnone
        rw [hnone] at ho
        contradiction
    exact ⟨fun hc => absurd hc herr, fun hc => absurd hc herr, h.wants, fun hc => absurd hc herr, fun _ => hdue⟩
  · rw [asked_releases]
    exact hne

/-- A turn of the decoder settles what is owed, or leaves it owing. -/
theorem Owing.turn {t : Turn} (h : Owing env w₀ w asked) (he : w.rx.internal.error = none)
    (hn : w.rx.internal.header ≠ {}) (ht : ReadTurn env w bs t w') :
    TurnOwing env w₀ w w' (Step.asks env w (.read bs) ++ asked) := by
  rcases ht.turn with ⟨hw, ht⟩ | ⟨hw, ht⟩
  · exact h.other he hw ht
  · -- the message goes on with its header, and without an error
    have hgoes : ∀ (v : World σ) (c n : ℕ), PartRead env w bs c v →
        TurnOwing env w₀ w (v.advance n) (Step.asks env w (.read bs) ++ asked) := by
      intro v c n hr
      have hrx := hr.rx
      refine ⟨fun _ => h.onward he hw hr n, fun ho => ?_, fun hne => absurd ?_ hne⟩
      · simp only [World.advance, World.setRx] at ho
        rw [hrx] at ho
        rcases ho with ho | ho
        · exact absurd ho hn
        · dsimp only at ho
          rw [he] at ho
          contradiction
      · change v.told.count .deallocate = _
        rw [hr.told]
        exact asked_releases
    cases ht with
    | onward c v hr hb hc => exact hgoes v c c hr
    | blocked c v hr hb => exact hgoes w' c 0 hr
    | failed v hf =>
      rcases hf.ends with ⟨hlow, htold⟩ | ⟨hskip, hs⟩
      · have hrel : w'.releases = w.releases := releases_told htold
        have hnil : Step.asks env w (.read bs) ++ asked = [] := by
          have hnone : w.asks env = none := asks_none (.inr hlow)
          rw [h.early he (.inr hlow), Step.asks, hnone]
          rfl
        have herr : w'.rx.internal.error ≠ none := by
          intro hnone
          have herror := hf.error
          rw [hnone] at herror
          contradiction
        rw [hnil]
        refine ⟨fun _ => ?_, fun _ hg => absurd hg not_granted_nil, fun hne => absurd hrel hne⟩
        exact ⟨fun hc => absurd hc herr, fun hc => absurd hc herr, by simp, fun hc => absurd hc herr,
          fun _ hg => absurd hg not_granted_nil⟩
      · rw [← hskip] at hs
        exact h.ended he hw hs (.inr hf.error)
    | refused c v w' hr hc hs hfail =>
      rw [hr.told] at hs
      exact h.ended he hw hs (.inr hfail)
    | finished c v w' hr hc hs hfresh =>
      rw [hr.told] at hs
      exact h.ended he hw hs (.inl hfresh)

end Owing

/-- What is owed for the message of a packet. -/
theorem Packet.owing {w₀ w : World σ} {asked : List (PublishPart × AllocateResult)}
    (h₀ : Stepped env (fun _ _ => True) w₀) (h : Packet env (fun _ _ => True) w₀ w asked) :
    w.rx.internal.header ≠ {} → Owing env w₀ w asked := by
  induction h with
  | first bs w hn hc hs h =>
    intro _
    obtain ⟨t, u, ht, hu⟩ := ok_bind h
    obtain ⟨-, rfl⟩ := ok_pure hu
    have hi := stepped_inside w₀ h₀ hs.2.1
    have hturn := wp_ok (readTurn_spec w₀ bs h₀.live hs hi) ht
    rcases hturn.turn with ⟨-, ht⟩ | ⟨hw, -⟩
    · exact ⟨fun _ => releases_told ht.told, fun _ _ => rfl, by simp, fun _ _ => not_granted_nil,
        fun _ hg => absurd hg not_granted_nil⟩
    · rw [hn] at hw
      contradiction
  | step w w' s asked hw hn hc hs h ih =>
    intro hn'
    have howing := ih hn
    by_cases hread : ∃ bs, s = .read bs
    · obtain ⟨bs, rfl⟩ := hread
      obtain ⟨t, u, ht, hu⟩ := ok_bind h
      obtain ⟨-, rfl⟩ := ok_pure hu
      have hstepped := hw.stepped h₀
      have hturn := wp_ok (readTurn_spec w bs hstepped.live hs (stepped_inside w hstepped hs.2.1)) ht
      exact (howing.turn hs.2.1 hn hturn).onward hn'
    · have hbeside := wp_ok (step_beside env w s hs fun bs hbs => hread ⟨bs, hbs⟩) h
      have hnil : s.asks env w = [] := by
        cases s with
        | read bs => exact absurd ⟨bs, rfl⟩ hread
        | _ => rfl
      rw [hnil, List.nil_append]
      obtain ⟨htold, ⟨-, hfresh⟩ | ⟨-, hsame⟩⟩ := hbeside
      · rw [hfresh] at hn'
        exact absurd rfl hn'
      · exact howing.beside hsame

/-! ### Each message is released once -/

/-- What becomes of the strings of a message by a step: they are released at most once, by the last callback
of a turn that ends the packet, and a packet that has ended was released unless it was cut off. -/
structure Released (env : Env σ) (w₀ w : World σ) (s : Step σ) (w' : World σ) : Prop where
  once : w'.releases ≤ w₀.releases + 1
  last : w'.releases ≠ w.releases → w.releases = w₀.releases ∧ ReleasedLast env w'
  ended : s.Ends w' → (w'.releases = w₀.releases + 1 ↔ env.message.onPublishDeallocate.isSome = true ∧ ¬ s.CutsOff w)

theorem due_iff (n : ℕ) : n + releasesDue env = n + 1 ↔ env.message.onPublishDeallocate.isSome = true := by
  unfold releasesDue
  split
  · rename_i h
    simp [h]
  · rename_i h
    simp [h]

theorem due_le : releasesDue env ≤ 1 := by
  unfold releasesDue
  split <;> omega

/-- The strings of a message whose topic was allocated, and which is not ignored, are released exactly once,
unless a connect is accepted or the client is finalized while the decoder is inside its packet. -/
theorem released_exactly_once {w₀ w w' : World σ} {asked : List (PublishPart × AllocateResult)} {s : Step σ}
    (h₀ : Stepped env (fun _ _ => True) w₀) (h : Packet env (fun _ _ => True) w₀ w asked)
    (hn : w.rx.internal.header ≠ {}) (hs : s.Enabled (fun _ => True) w) (hrun : s.run env w = .ok () w')
    (hg : Granted (s.asks env w ++ asked)) : Released env w₀ w s w' := by
  have howing := h.owing h₀ hn
  have hdue : releasesDue env ≤ 1 := due_le
  by_cases hread : ∃ bs, s = .read bs
  · obtain ⟨bs, rfl⟩ := hread
    obtain ⟨t, u, ht, hu⟩ := ok_bind hrun
    obtain ⟨-, hsame⟩ := ok_pure hu
    have hstepped := h.stepped h₀
    have he := hs.2.1
    have hspec := wp_ok (readTurn_spec w bs hstepped.live hs (stepped_inside w hstepped he)) ht
    rw [hsame] at hspec
    have hturn := howing.turn he hn hspec
    have hinside := howing.inside he
    have hcut : ¬ (Step.read bs).CutsOff w := by
      intro hc
      rcases hc.2 with hc | hc
      · exact hc
      · contradiction
    refine ⟨?_, fun hne => ⟨hinside, hturn.last hne⟩, fun hends => ?_⟩
    · by_cases hover : w'.rx.internal.header = {} ∨ w'.rx.internal.error.isSome = true
      · rw [hturn.ended hover hg]
        omega
      · push Not at hover
        rw [(hturn.onward hover.1).inside (by simpa using hover.2)]
        omega
    · have hover : w'.rx.internal.header = {} ∨ w'.rx.internal.error.isSome = true := by
        rcases hends with hends | hends | hends
        · exact .inl hends
        · exact .inr hends
        · contradiction
      rw [hturn.ended hover hg, due_iff]
      exact ⟨fun hd => ⟨hd, hcut⟩, fun hd => hd.1⟩
  · have hbeside := wp_ok (step_beside env w s hs fun bs hbs => hread ⟨bs, hbs⟩) hrun
    have hrel : w'.releases = w.releases := releases_told hbeside.1
    have hnil : s.asks env w = [] := by
      cases s with
      | read bs => exact absurd ⟨bs, rfl⟩ hread
      | _ => rfl
    rw [hnil, List.nil_append] at hg
    cases he : w.rx.internal.error with
    | some e =>
      have hfailed := howing.failed (by rw [he]; rfl) hg
      refine ⟨by omega, fun hne => absurd hrel hne, fun _ => ?_⟩
      rw [hrel, hfailed, due_iff]
      refine ⟨fun hd => ⟨hd, fun hc => ?_⟩, fun hd => hd.1⟩
      have hnone := hc.1
      rw [he] at hnone
      contradiction
    | none =>
      have hinside := howing.inside he
      refine ⟨by omega, fun hne => absurd hrel hne, fun hends => ?_⟩
      have hcut : s.CutsOff w := by
        refine ⟨he, ?_⟩
        obtain ⟨-, ⟨hconnects, -⟩ | ⟨-, hsame⟩⟩ := hbeside
        · exact .inl hconnects
        · rcases hends with hends | hends | hends
          · rw [hsame.rx] at hends
            exact absurd hends hn
          · rw [hsame.rx] at hends
            dsimp only at hends
            rw [he] at hends
            contradiction
          · exact .inr hends
      constructor
      · intro hc
        omega
      · intro hc
        exact absurd hcut hc.2

/-! ### Concrete packets -/

/- The application counts the releases. -/
def releasingEnv : Env Unit := { memoryEnv with
  message := { memoryEnv.message with onPublishDeallocate := some fun a _ => a } }

theorem connectRun_releasing : (runClientSteps releasingEnv everyStep ⟨8, 64, 64, 4⟩ smallHeap () connectSteps).isSome =
    true := by
  decide +kernel

/- The connection ends behind the topic. -/
def cutSteps : List (Step Unit) := messageSteps.take 4 ++ [.call .eof]

/-- The topic is allocated, the connection ends, and the next connect resets the decoder: nothing is released. -/
theorem cut_off_unreleased : ∃ (w₀ w w' : World Unit) (asked : List (PublishPart × AllocateResult)),
    Stepped releasingEnv (fun _ _ => True) w₀ ∧ Packet releasingEnv (fun _ _ => True) w₀ w asked ∧ Granted asked ∧
    (Step.call (.connect 0)).Enabled (fun _ => True) w ∧ (Step.call (.connect 0)).run releasingEnv w = .ok () w' ∧
    w'.rx.internal = {} ∧ w'.releases = w₀.releases := by
  obtain ⟨w₀, h₀, hrun⟩ : ∃ w₀ : World Unit, Stepped releasingEnv (fun _ _ => True) w₀ ∧
      (runFirst releasingEnv everyStep [0x30] cutSteps w₀).any (fun x => decide (Granted x.2) &&
        match (Step.call (.connect 0)).run releasingEnv x.1 with
        | .ok _ w' => w'.rx.internal = {} && w'.releases = w₀.releases
        | .error _ _ => false) = true :=
    ⟨_, stepped_get (fun _ _ _ => trivial) _ _ _ _ connectRun_releasing, by decide +kernel⟩
  obtain ⟨⟨w, asked⟩, hw, hx⟩ := (Option.any_eq_true _ _).mp hrun
  rw [Bool.and_eq_true, decide_eq_true_eq] at hx
  obtain ⟨hg, hx⟩ := hx
  split at hx
  · rename_i u w' hw'
    simp only [Bool.and_eq_true, decide_eq_true_eq] at hx
    exact ⟨w₀, w, w', asked, h₀, packet_runFirst (fun _ _ _ => trivial) _ _ hw, hg, ⟨rfl, fun _ => trivial⟩, hw', hx⟩
  · contradiction

/- The whole message is read. -/
theorem released_exactly_once_complete : ∃ (w₀ w w' : World Unit) (asked : List (PublishPart × AllocateResult)),
    Packet releasingEnv (fun _ _ => True) w₀ w asked ∧ w'.rx.internal = {} ∧
    Released releasingEnv w₀ w (.read [98, 99]) w' := by
  obtain ⟨w₀, h₀, hrun⟩ : ∃ w₀ : World Unit, Stepped releasingEnv (fun _ _ => True) w₀ ∧
      (runFirst releasingEnv everyStep [0x30] (messageSteps.take 4) w₀).any (fun x =>
        decide (Granted ((Step.read [98, 99]).asks releasingEnv x.1 ++ x.2)) && x.1.rx.internal.header ≠ {} &&
        (Step.read [98, 99]).ready x.1 &&
        match (Step.read [98, 99]).run releasingEnv x.1 with
        | .ok _ w' => w'.rx.internal = {}
        | .error _ _ => false) = true :=
    ⟨_, stepped_get (fun _ _ _ => trivial) _ _ _ _ connectRun_releasing, by decide +kernel⟩
  obtain ⟨⟨w, asked⟩, hw, hx⟩ := (Option.any_eq_true _ _).mp hrun
  simp only [Bool.and_eq_true, decide_eq_true_eq] at hx
  obtain ⟨⟨⟨hg, hn⟩, hr⟩, hx⟩ := hx
  have hpacket : Packet releasingEnv (fun _ _ => True) w₀ w asked := packet_runFirst (fun _ _ _ => trivial) _ _ hw
  split at hx
  · rename_i u w' hw'
    exact ⟨w₀, w, w', asked, hpacket, of_decide_eq_true hx,
      released_exactly_once h₀ hpacket hn ((Step.read [98, 99]).ready_enabled w hr) hw' hg⟩
  · contradiction

end LightMqtt
