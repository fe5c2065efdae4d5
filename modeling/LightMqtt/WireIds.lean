import LightMqtt.PacketIds

/-!
# Packet ids on the wire

A request is encoded with the id it was accepted with, as a PUBREL too. The
counter the ids come from starts at 0, and comes back to it.
-/

namespace LightMqtt

open Exec

variable {σ : Type} {env : Env σ} {P : World σ → Prop}

/- No request was accepted while the counter of the ids stood at 0. -/
def World.NonzeroIds (w : World σ) : Prop :=
  ∀ r kind id p u, .accepted r kind id p u ∈ w.log → kind.inFlight = true → id ≠ 0

def Event.isNonzero : Event → Bool
  | .accepted _ kind id _ _ => !(kind.inFlight && id = 0)
  | _ => true

instance (w : World σ) : Decidable w.NonzeroIds :=
  decidable_of_iff (∀ ev ∈ w.log, ev.isNonzero = true) (by
    constructor
    · intro h r kind id p u hm hk
      have := h _ hm
      simpa [Event.isNonzero, hk] using this
    · intro h ev hm
      cases ev with
      | accepted r kind id p u =>
        cases hk : kind.inFlight with
        | false => simp [Event.isNonzero, hk]
        | true => simp [Event.isNonzero, hk, h r kind id p u hm hk]
      | _ => rfl)

/- The requests of a list of entries have ids other than 0. -/
def LegalIds (es : List Entry) : Prop := ∀ e ∈ es, e.kind.inFlight = true → e.value.packetId ≠ 0

/- No SUBSCRIBE, UNSUBSCRIBE, PUBREL or PUBLISH of QoS 1 or 2 was encoded with the
   id 0. -/
def World.LegalOnWire (w : World σ) : Prop :=
  ∀ kind id req field, .encode kind id req field ∈ w.log → kind.inFlight = true → id ≠ 0

theorem legalIds_step {w w' : World σ} (h : MainStep env w w') (hn : w'.NonzeroIds)
    (hw : LegalIds w.mainStore.entries) : LegalIds w'.mainStore.entries := by
  cases h with
  | kept evs hl hp he hs => exact fun e hm => hw e (he.subset hm)
  | added e hl hk he hs =>
    intro x hx hkx
    rw [he, List.mem_append, List.mem_singleton] at hx
    rcases hx with hx | rfl
    · exact hw x hx hkx
    · rw [hk] at hkx
      contradiction
  | accepted e hr p hl he hs =>
    intro x hx hkx
    rw [he, List.mem_append, List.mem_singleton] at hx
    rcases hx with hx | rfl
    · exact hw x hx hkx
    · exact hn _ _ _ _ _ (by rw [hl]; exact List.mem_cons_self ..) hkx
  | pubrec pre post e hk hl hb he hs =>
    intro x hx hkx
    have hold : ∀ y ∈ pre ++ e :: post, y.kind.inFlight = true → y.value.packetId ≠ 0 := by
      rw [← hb]
      exact hw
    rw [he, List.mem_append, List.mem_singleton] at hx
    rcases hx with hx | rfl
    · refine hold x ?_ hkx
      rw [List.mem_append, List.mem_cons]
      rcases List.mem_append.mp hx with hx | hx
      · exact .inl hx
      · exact .inr (.inr hx)
    · exact hold e (List.mem_append_right _ (List.mem_cons_self ..)) (by rw [hk]; rfl)

/- The entry at which an encoder is called is one of a store. -/
theorem encode_effect {w w' : World σ} (h : Effect env P w w') {kind : Kind} {id : PacketId} {req : Option ℕ} {field : ℕ}
    (hm : .encode kind id req field ∈ w'.log) : .encode kind id req field ∈ w.log ∨
      ∃ e ∈ w.txStore.entries, e.kind = kind ∧ e.value.packetId = id ∧ e.value.req = req := by
  rcases effect_encoder h rfl hm with hm | ⟨e, hp, ⟨field', heq⟩ | ⟨heq, -⟩⟩
  · exact .inl hm
  · obtain ⟨rfl, rfl, rfl, -⟩ := Event.encode.inj heq
    exact .inr ⟨e, List.mem_of_getElem? hp, rfl, rfl, rfl⟩
  · contradiction

theorem wireRun_isSome : (runClient memoryEnv anyConnect ⟨8, 64, 64, 4⟩ smallHeap ()
    (connectKept ++ [.request (.subscribe 0), .encode 64])).isSome = true := by decide +kernel

/- A QoS 0 publish takes no id, a refused subscribe does. -/
def secondActs : List (Act Unit) :=
  connectKept ++ [.request (.publish 0), .request (.subscribe 0), .encode 64, .request (.subscribe 0), .encode 64]

theorem secondRun_isSome : (runClient memoryEnv anyConnect ⟨1, 64, 64, 4⟩ quietHeap () secondActs).isSome = true := by
  decide +kernel

end LightMqtt
