import LightMqtt.PacketOrder

/-!
# Packets before the CONNACK

A PUBLISH needs no request, and a PUBREL forgets its id before the
acknowledgement is refused: both are taken before the connection is accepted.
-/

namespace LightMqtt

open Exec

variable {σ : Type} {env : Env σ}

/-- The connection is alive, and no CONNACK with return code 0 was decoded on it. -/
def World.Unaccepted (w : World σ) : Prop :=
  w.closed = false ∧ (w.output = some .opening ∨ w.output = some .awaiting)

instance (w : World σ) : Decidable w.Unaccepted := by unfold World.Unaccepted; infer_instance

instance (w : World σ) : Decidable w.AtPubrel :=
  decidable_of_iff (w.rx.internal.headerFinished = true ∧ w.rx.internal.decoder = some rxBufferDecoderPubrel ∧
    w.rx.internal.remainBufPos = 1) ⟨fun h => ⟨h.1, h.2.1, h.2.2⟩, fun h => ⟨h.1, h.2, h.3⟩⟩

/-- A PUBLISH that ends at the bytes `bs` is of QoS 2, and there is no room for its
id; a PUBREL is for an id that is not in the set. -/
structure World.Refuses {ρ : Type} [Reentrant ρ] (env : EnvOf σ ρ) (w : World σ) (bs : List Byte) : Prop where
  publish : ∀ t, w.Receives env bs t → w.PutsId env bs t ∧ w.rx.idSet.capacity ≤ w.rx.idSet.count
  pubrel : w.AtPubrel → (w.readId (bs.headD 0)).rx.internal.packetId ∉ w.rx.idSet.items

/- No message. -/
def Event.isMessage : Event → Bool
  | .message .. => true
  | _ => false

/-- Nothing is delivered or released, and the PUBLISH or PUBREL that is complete
is an error. -/
structure World.Silent {ρ : Type} [Reentrant ρ] (env : EnvOf σ ρ) (w : World σ) (s : Step σ) (w' : World σ) : Prop where
  ids : w'.rx.idSet = w.rx.idSet
  log : Logged (fun ev => ev.isMessage = false) w w'
  failed : ∀ bs, s = .read bs → w.Takes env bs → w'.rx.internal.error.isSome = true

theorem IdSet.remove_of_not_mem {s : IdSet} {id : PacketId} (h : id ∉ s.items) : s.remove id = s := by
  have he : s.items.erase id = s.items := List.erase_of_not_mem h
  unfold IdSet.remove
  simp only [he]

section Steps
variable {w w' : World σ}

theorem Still.noMessage (h : Still w w') : Logged (fun ev => ev.isMessage = false) w w' :=
  h.log.mono fun ev he => by cases ev <;> first | rfl | contradiction

/- Quiet work that completes nothing. -/
theorem Still.silent {s : Step σ} (h : Still w w')
    (hf : ∀ bs, s = .read bs → w.Takes env bs → w'.rx.internal.error.isSome = true) :
    w.Silent env s w' :=
  ⟨h.idSet, h.noMessage, hf⟩

/- The connect store has no room before the CONNACK. -/
theorem Unaccepted.full (hu : w.Unaccepted) (ho : w.Ordered) (he : w.error = none) (hh : ¬ w.HoldsConnect) :
    w.tx.store = .connect ∧ w.Reserved := by
  obtain ⟨o, hout, ha⟩ := ho
  have ha := ha he
  rcases hu.2 with hu | hu <;> rw [hu] at hout <;> cases hout
  · exact ⟨ha.2.2.1, ha.2.2.2.1⟩
  · obtain ⟨-, -, ht, hr | hr⟩ := ha
    · exact ⟨ht, hr.1⟩
    · exact absurd hr.2 hh

theorem Reserved.append (hr : w.Reserved) (e : Entry) : w.connectStore.append e = none := by
  obtain ⟨x, hx, -, hcap⟩ := hr
  rw [Store.append_eq_none, Store.count, hx]
  exact hcap

/- A PUBLISH or a PUBREL leaves the connection as it is. -/
theorem Does.takes {bs : List Byte} (h : Does env w (.read bs) w') (ht : w.Takes env bs) : Unmoved w w' := by
  cases h with
  | still h hs => exact absurd trivial hs
  | deed h =>
    cases h with
    | still hn hk h => exact absurd ht hn
    | publish t res hc ht h => exact ht.unmoved.trans h.unmoved
    | pubrel t hp hi ht h he => exact (ht.unmoved.trans (.setIds t _)).trans h.unmoved
    | connack t e s hf hst hsound hpop h =>
      rcases ht with ⟨x, hx⟩ | hx <;> rw [hx.headerFinished] at hf <;> contradiction
    | opened hf hd hp hb hv h =>
      rcases ht with ⟨x, hx⟩ | hx <;> rw [hx.decoder] at hd <;> contradiction

theorem World.Unaccepted.unmoved (hu : w.Unaccepted) (h : Unmoved w w') : w'.Unaccepted := by
  refine ⟨?_, hu.2.imp h.output h.output⟩
  rw [h.same]
  exact hu.1

/-- What a step does before the CONNACK, unless a packet is taken. -/
theorem Does.silent {s : Step σ} (hw : Live w) (ho : w.Ordered) (hs : s.Enabled (fun _ => True) w)
    (hu : w.Unaccepted) (hc : ∀ bs, s = .read bs → w.Refuses env bs) (h : Does env w s w') (hu' : w'.Unaccepted) :
    w.Silent env s w' := by
  have hsound := hw.sound
  cases h with
  | still h hr =>
    refine h.toStill.silent ?_
    rintro _ rfl
    exact absurd trivial hr
  | @deed bs w' h =>
    obtain ⟨hwe, he, -⟩ := hs
    have hdec := hw.decoding hwe
    obtain ⟨hpub, hrel⟩ := hc bs rfl
    cases h with
    | still hn hk h =>
      refine h.silent ?_
      rintro _ ⟨⟩ ht
      exact absurd ht hn
    | publish t res hr ht h =>
      obtain ⟨hputs, hfull⟩ := hpub t hr
      have hids := ht.idSet
      cases h with
      | known hq hk h =>
        rw [hids, IdSet.contains_iff] at hk
        exact absurd hk hputs.new
      | full hq hk hp hres herr h =>
        refine (ht.trans h).silent fun _ _ _ => ?_
        rw [herr]
        rfl
      | taken u v x y hs hv hx hy h =>
        rcases hs with ⟨-, hp⟩ | ⟨hq, -⟩
        · rw [hids, (IdSet.put_eq_none _ _).mpr (.inl hfull)] at hp
          contradiction
        · exact absurd hputs.qos hq
    | pubrel t hp hi ht h herr =>
      obtain ⟨hst, hres⟩ := Unaccepted.full hu ho hwe (not_holdsConnect hsound hp.decoder (by decide))
      have hid : t.rx.internal.packetId = (w.readId (bs.headD 0)).rx.internal.packetId := by rw [hi]
      have hsame : t.setIds (t.rx.idSet.remove t.rx.internal.packetId) = t := by
        rw [hid, ht.idSet, IdSet.remove_of_not_mem (hrel hp), ← ht.idSet]
        rfl
      rw [hsame] at h
      have hstore : t.rxStore = t.connectStore := by
        have hrx : t.rx.store = .connect := by
          rw [ht.same]
          exact hsound.rxStore.trans (hsound.txStore.symm.trans hst)
        rw [World.rxStore, hrx]
        rfl
      refine (ht.trans h).silent fun _ _ _ => ?_
      rw [herr (by rw [hstore]; exact Reserved.append (hres.same (ht.reserved hres)) _)]
      rfl
    | connack t e s hf ht hst hpop h =>
      have hpopped : w'.rx.idSet = t.rx.idSet ∧ w'.log = .popped e.kind 0 e.value.req :: t.log := by
        have hids : (t.setStore t.rx.store s).rx.idSet = t.rx.idSet := congrArg RxBuffer.idSet (World.setStore_rx _ _ _)
        rw [h]
        exact ⟨hids, congrArg (_ :: ·) (World.setStore_log _ _ _)⟩
      refine ⟨hpopped.1.trans ht.idSet, ht.noMessage.trans (.one hpopped.2 rfl), ?_⟩
      rintro _ ⟨⟩ (⟨x, hx⟩ | hx)
      · rw [hx.headerFinished] at hf
        contradiction
      · rw [hx.headerFinished] at hf
        contradiction
    | opened hf hd hp hb hv h =>
      have hacc := (opened_accepts hsound (hdec.shape.calls he) hwe hv h ho).1
      rcases hu'.2 with h | h <;> rw [hacc] at h <;> contradiction
  | field e htx hp h =>
    refine ⟨by rw [h.same], .one (by rw [h.same]) rfl, ?_⟩
    simp
  | entry e htx hp h =>
    obtain ⟨u, hu, hw'⟩ := h
    have hlog : (w.departed e).log = .encoded e.kind e.value.packetId e.value.req :: w.log := World.setStore_log _ _ _
    have hsent : Logged (fun ev => ev.isMessage = false) w (w.departed e) := .one hlog rfl
    rw [hw']
    refine ⟨hu.toStill.idSet.trans (congrArg RxBuffer.idSet (World.setStore_rx _ _ _)), ?_, by simp⟩
    exact hsent.trans hu.toStill.noMessage
  | connecting p s hc happ => exact ⟨rfl, .one rfl rfl, by simp⟩
  | reverted ha h =>
    have hcl := hu'.1
    rw [h.same] at hcl
    contradiction
  | failed e os => exact absurd hu'.1 (by simp)
  | finalized h =>
    have hcl := hu'.1
    rw [h.same] at hcl
    contradiction

end Steps

/-! ### Connections that are not accepted yet -/

/-- A run of an unaccepted connection that refuses what comes. -/
def Waits {ρ : Type} [Reentrant ρ] (env : EnvOf σ ρ) (w w' : World σ) : Prop :=
  Steps env (fun v s => v.Unaccepted ∧ ∀ bs, s = .read bs → v.Refuses env bs) w w'

theorem waits_silent {w w' : World σ} (hw : Stepped env (fun _ _ => True) w) (h : Waits env w w')
    (hu : w'.Unaccepted) : w'.rx.idSet = w.rx.idSet ∧ Logged (fun ev => ev.isMessage = false) w w' ∧
      ∀ bs t, (Step.read bs).Enabled (fun _ => True) w' → w'.Refuses env bs → w'.Takes env bs →
        (Step.read bs).run env w' = .ok () t → t.rx.internal.error.isSome = true := by
  have hkeep : w'.rx.idSet = w.rx.idSet ∧ Logged (fun ev => ev.isMessage = false) w w' := by
    induction h with
    | refl => exact ⟨rfl, .refl⟩
    | step v v' s hv hc hs hrun ih =>
      obtain ⟨hids, hlog⟩ := ih hc.1
      have hstepped := Steps.stepped hv hw
      have hsilent := (wp_ok (step_does v s hstepped.live hs) hrun).silent hstepped.live (stepped_ordered hstepped) hs
        hc.1 hc.2 hu
      exact ⟨hsilent.ids.trans hids, hlog.trans hsilent.log⟩
  refine ⟨hkeep.1, hkeep.2, fun bs t hs hr ht hrun => ?_⟩
  have hstepped := Steps.stepped h hw
  have hdoes := wp_ok (step_does w' _ hstepped.live hs) hrun
  have hrefuses : ∀ bs', (Step.read bs : Step σ) = .read bs' → w'.Refuses env bs' := by
    rintro _ ⟨⟩
    exact hr
  have hsilent := hdoes.silent hstepped.live (stepped_ordered hstepped) hs hu hrefuses (hu.unmoved (hdoes.takes ht))
  exact hsilent.failed bs rfl ht

section Requests
variable {ρ : Type} [Reentrant ρ] {env : EnvOf σ ρ} {w t : World σ} {bs : List Byte}

theorem receives_requests : w.Receives env.requests bs t ↔ w.Receives env bs t := by
  have hc : w.Completed env.requests bs t ↔ w.Completed env bs t := by
    rw [World.Completed, World.Completed, ← rxBufferDecodePublishPart_requests]
  exact ⟨fun h => ⟨h.headerFinished, h.decoder, hc.mp h.completed⟩, fun h => ⟨h.headerFinished, h.decoder, hc.mpr h.completed⟩⟩

theorem World.Takes.requests (h : w.Takes env bs) : w.Takes env.requests bs := by
  rcases h with ⟨t, ht⟩ | h
  · exact .inl ⟨t, receives_requests.mpr ht⟩
  · exact .inr h

theorem World.Refuses.requests (h : w.Refuses env bs) : w.Refuses env.requests bs := by
  refine ⟨fun t ht => ?_, h.pubrel⟩
  obtain ⟨hputs, hfull⟩ := h.publish t (receives_requests.mp ht)
  exact ⟨⟨ht, hputs.qos, hputs.new⟩, hfull⟩

end Requests

/- A QoS 2 message before the CONNACK. -/
def earlyActs : List (Act Unit) := [.connect 0, .encode 64, .decode [0x34, 6, 0, 1, 97, 0, 7, 98]]

theorem earlyRun_isSome : (runClient memoryEnv anyConnect ⟨8, 64, 64, 4⟩ smallHeap () earlyActs).isSome = true := by
  decide +kernel

def World.isDelivered (w : World σ) : Bool := w.log.any Event.isMessage

/- The condition, where no PUBLISH is decoded. -/
def waitsStep (w : World Unit) : Step Unit → Bool
  | .read bs => decide w.Unaccepted && w.rx.internal.decoder ≠ some rxBufferDecoderPublish &&
      !w.rx.idSet.contains (w.readId (bs.headD 0)).rx.internal.packetId
  | _ => w.Unaccepted

theorem refuses_of_check {w : World σ} {bs : List Byte} (hd : w.rx.internal.decoder ≠ some rxBufferDecoderPublish)
    (hn : w.rx.idSet.contains (w.readId (bs.headD 0)).rx.internal.packetId = false) : w.Refuses env bs := by
  refine ⟨fun t ht => absurd ht.decoder hd, fun _ hm => ?_⟩
  rw [(IdSet.contains_iff _ _).mpr hm] at hn
  contradiction

theorem waitsStep_waits (w : World Unit) (s : Step Unit) (h : waitsStep w s = true) :
    w.Unaccepted ∧ ∀ bs, s = .read bs → w.Refuses memoryEnv bs := by
  cases s with
  | read bs =>
    simp only [waitsStep, Bool.and_eq_true, decide_eq_true_eq, Bool.not_eq_true'] at h
    refine ⟨h.1.1, ?_⟩
    rintro _ ⟨⟩
    exact refuses_of_check h.1.2 h.2
  | _ => exact ⟨by simpa [waitsStep] using h, by simp⟩

/- Up to the last byte of the id of a PUBREL. -/
def earlyPubrel : List (Step Unit) := List.replicate 12 (.send 64) ++ [[0x62], [2], [0]].map .read

def earlyEnd : Option (World Unit) :=
  (runClient memoryEnv anyConnect ⟨8, 64, 64, 4⟩ smallHeap () [.connect 0]).bind
    (runSteps memoryEnv waitsStep earlyPubrel)

theorem earlyEnd_isSome : earlyEnd.isSome = true := by decide +kernel

end LightMqtt
