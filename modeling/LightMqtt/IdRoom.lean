import LightMqtt.Deeds

/-!
# The room in the id set

The set is given a buffer in bytes, and counts it in ids: it keeps to the buffer
as long as no more ids come than the buffer can take.
-/

namespace LightMqtt

open Exec

variable {σ : Type} {env : Env σ}

/- `sizeof(lmqtt_packet_id_t)` -/
def packetIdSize : ℕ := 2

/- The cell behind the last id lies in a buffer of `size` bytes. -/
def IdSet.HasRoom (s : IdSet) (size : ℕ) : Prop := (s.count + 1) * packetIdSize ≤ size

/-- Every cell of the set lies in a buffer of `size` bytes. -/
def IdSet.Fits (s : IdSet) (size : ℕ) : Prop := ∀ i < s.count, (i + 1) * packetIdSize ≤ size

instance (s : IdSet) (size : ℕ) : Decidable (s.HasRoom size) := by unfold IdSet.HasRoom; infer_instance

instance (s : IdSet) (size : ℕ) : Decidable (s.Fits size) := by unfold IdSet.Fits; infer_instance

section IdSet
variable {s t : IdSet} {size : ℕ} {id : PacketId}

theorem IdSet.fits_iff : s.Fits size ↔ s.count * packetIdSize ≤ size := by
  unfold IdSet.Fits packetIdSize
  constructor
  · intro h
    by_cases hc : s.count = 0
    · omega
    · have hlast := h (s.count - 1) (by omega)
      omega
  · intro h i hi
    omega

theorem IdSet.Fits.put (h : s.HasRoom size) (hp : s.put id = some t) : t.Fits size := by
  obtain ⟨-, -, hi, -⟩ := IdSet.put_spec s t id hp
  have hc : t.count = s.count + 1 := by simp [IdSet.count, hi]
  rw [IdSet.fits_iff, hc]
  exact h

theorem IdSet.Fits.remove (h : s.Fits size) (id : PacketId) : (s.remove id).Fits size := by
  have hc : (s.remove id).count ≤ s.count := List.erase_sublist.length_le
  intro i hi
  exact h i (hi.trans_le hc)

theorem IdSet.Fits.clear (s : IdSet) (size : ℕ) : s.clear.Fits size := by
  intro i hi
  contradiction

end IdSet

/-! ### The ids of a run -/

/-- The states of a run of a client whose id set was given `size` bytes. -/
inductive Sized (env : Env σ) (size : ℕ) (C : World σ → Step σ → Prop) : World σ → Prop
  | start (buffers : ClientBuffers) (heap : Heap) (app : σ) (w : World σ) (hb : buffers.idSet = size)
    (h : lmqttClientInitialize env (clientCleared buffers heap app) = .ok () w) : Sized env size C w
  | step (w w' : World σ) (s : Step σ) (hw : Sized env size C w) (hc : C w s) (hs : s.Enabled (fun _ => True) w)
    (h : s.run env w = .ok () w') : Sized env size C w'

theorem Sized.stepped {size : ℕ} {C : World σ → Step σ → Prop} {w : World σ} (h : Sized env size C w) :
    Stepped env C w := by
  induction h with
  | start buffers heap app w hb h => exact .start buffers heap app w h
  | step w w' s hw hc hs h ih => exact .step w w' s ih hc hs h

theorem Still.idSet {w w' : World σ} (h : Still w w') : w'.rx.idSet = w.rx.idSet := by
  rw [h.same]

theorem OpenedIn.ids {w w' : World σ} (h : OpenedIn w w') :
    w'.rx.idSet = w.rx.idSet ∨ w'.rx.idSet = w.rx.idSet.clear := by
  obtain ⟨t, u, ht, hu, hw⟩ := h
  rw [hw.idSet, ← ht.idSet]
  exact hu.ids

/-- What a step does to the ids: nothing, it forgets them all, or one of them for
a PUBREL, or it puts that of a PUBLISH. -/
theorem Does.idSet {w w' : World σ} {s : Step σ} (h : Does env w s w') :
    (w'.rx.idSet = w.rx.idSet ∨ w'.rx.idSet = w.rx.idSet.clear) ∨ (∃ id, w'.rx.idSet = w.rx.idSet.remove id) ∨
      ∃ bs t u, s = .read bs ∧ w.Receives env bs t ∧ t.rx.internal.header.qos = 2 ∧
        w.rx.idSet.put t.rx.internal.packetId = some u ∧ w'.rx.idSet = u := by
  cases h with
  | still h hs => exact .inl (.inl h.toStill.idSet)
  | deed h =>
    cases h with
    | still hn hk h => exact .inl (.inl h.idSet)
    | publish t res hc ht h =>
      cases h with
      | known hq hk h => exact .inl (.inl (h.idSet.trans ht.idSet))
      | full hq hk hp hr he h => exact .inl (.inl (h.idSet.trans ht.idSet))
      | taken u v x y hs hv hx hy h =>
        have hw' : w'.rx.idSet = u := by
          rw [h.idSet]
          rcases hy with rfl | ⟨b, rfl⟩ <;> exact hx.idSet
        rcases hs with ⟨hq, hp⟩ | ⟨-, rfl⟩
        · rw [ht.idSet] at hp
          exact .inr (.inr ⟨_, t, u, rfl, hc, hq, hp, hw'⟩)
        · exact .inl (.inl (hw'.trans ht.idSet))
    | pubrel t hp hi ht h he =>
      refine .inr (.inl ⟨t.rx.internal.packetId, ?_⟩)
      rw [h.idSet, ← ht.idSet]
      rfl
    | connack t e s hf ht hw hs h =>
      rw [h]
      exact .inl (.inl ((congrArg RxBuffer.idSet (World.setStore_rx _ _ _)).trans ht.idSet))
    | opened hf hd hp hb hv h => exact .inl h.ids
  | field e hc hp h => exact .inl (.inl (by rw [h.same]))
  | entry e hc hp h =>
    obtain ⟨u, hu, hw'⟩ := h
    refine .inl (.inl ?_)
    rw [hw']
    exact hu.toStill.idSet.trans (congrArg RxBuffer.idSet (World.setStore_rx _ _ _))
  | connecting p s ho hs => exact .inl (.inl rfl)
  | reverted ha h => exact .inl h.ids
  | failed e os => exact .inl (.inl rfl)
  | finalized h => exact .inl h.ids

/- A set keeps its capacity. -/
theorem Does.capacity {w w' : World σ} {s : Step σ} (h : Does env w s w') :
    w'.rx.idSet.capacity = w.rx.idSet.capacity := by
  rcases h.idSet with (h | h) | ⟨id, h⟩ | ⟨bs, t, u, -, -, -, hp, h⟩
  · rw [h]
  · rw [h]
    rfl
  · rw [h]
    rfl
  · rw [h]
    exact (IdSet.put_spec _ _ _ hp).2.2.2

/- What `lmqtt_client_initialize` does to the ids. -/
theorem start_idSet {buffers : ClientBuffers} {heap : Heap} {app : σ} {w : World σ}
    (h : lmqttClientInitialize env (clientCleared buffers heap app) = .ok () w) :
    w.rx.idSet.items = [] ∧ w.rx.idSet.capacity = buffers.idSet := by
  rcases (start_reverted h).ids with h | h <;> rw [h] <;> exact ⟨rfl, rfl⟩

/- The capacity of the set is the size of its buffer. -/
theorem Sized.capacity {size : ℕ} {C : World σ → Step σ → Prop} {w : World σ} (h : Sized env size C w) :
    w.rx.idSet.capacity = size := by
  induction h with
  | start buffers heap app w hb h => exact (start_idSet h).2.trans hb
  | step w w' s hw hc hs h ih => exact (wp_ok (step_does w s hw.stepped.live hs) h).capacity.trans ih

/-! ### New ids -/

/- The PUBLISH in `t` has an id that is put in the set. -/
structure World.PutsId {ρ : Type} [Reentrant ρ] (env : EnvOf σ ρ) (w : World σ) (bs : List Byte) (t : World σ) : Prop where
  receives : w.Receives env bs t
  qos : t.rx.internal.header.qos = 2
  new : t.rx.internal.packetId ∉ w.rx.idSet.items

/-- The id that is put in the set at the bytes `bs` has room in the buffer, or
there is no buffer. -/
def World.Roomy (env : Env σ) (size : ℕ) (w : World σ) (bs : List Byte) : Prop :=
  ∀ t, w.PutsId env bs t → w.rx.idSet.HasRoom size ∨ size = 0

/-- The id that is put in the set at the bytes `bs` stays in the buffer, and
an id without room is an error. -/
def World.KeepsRoom (env : Env σ) (size : ℕ) (w : World σ) (bs : List Byte) (w' : World σ) : Prop :=
  ∀ t, w.PutsId env bs t → (∀ u, w.rx.idSet.put t.rx.internal.packetId = some u → w.rx.idSet.HasRoom size) ∧
    (¬ w.rx.idSet.HasRoom size → w'.rx.internal.error = some .decodePublishIdSetFull)

theorem World.Receives.unique {w t u : World σ} {bs : List Byte} (h : w.Receives env bs t) (h' : w.Receives env bs u) :
    t = u := by
  obtain ⟨n, hn, -⟩ := h.completed
  obtain ⟨m, hm, -⟩ := h'.completed
  rw [hn] at hm
  injection hm

/- A step that puts an id. -/
theorem Does.putsId {w w' t : World σ} {bs : List Byte} (h : Does env w (.read bs) w') (ht : w.PutsId env bs t) :
    (∃ u, w.rx.idSet.put t.rx.internal.packetId = some u) ∨ w'.rx.internal.error = some .decodePublishIdSetFull := by
  have hrec := ht.receives
  cases h with
  | still h hs => exact absurd trivial hs
  | deed h =>
    cases h with
    | still hn hk h => exact absurd (.inl ⟨t, hrec⟩) hn
    | publish t' res hc ht' h =>
      cases hrec.unique hc
      have hids := ht'.idSet
      cases h with
      | known hq hk h =>
        rw [hids, IdSet.contains_iff] at hk
        exact absurd hk ht.new
      | full hq hk hp hr he h => exact .inr he
      | taken u v x y hs hv hx hy h =>
        rcases hs with ⟨-, hp⟩ | ⟨hq, -⟩
        · rw [hids] at hp
          exact .inl ⟨u, hp⟩
        · exact absurd ht.qos hq
    | pubrel t' hp hi ht' h he => exact absurd (hrec.decoder.symm.trans hp.decoder) (by decide)
    | connack t' e s hf ht' hw hs h => rw [hrec.headerFinished] at hf; contradiction
    | opened hf hd hp hb hv h => exact absurd (hrec.decoder.symm.trans hd) (by decide)

theorem step_putsId {w w' t : World σ} {bs : List Byte} (hw : Live w) (hs : (Step.read bs).Enabled (fun _ => True) w)
    (h : (Step.read bs).run env w = .ok () w') (ht : w.PutsId env bs t) :
    (∃ u, w.rx.idSet.put t.rx.internal.packetId = some u) ∨ w'.rx.internal.error = some .decodePublishIdSetFull :=
  (wp_ok (step_does w (.read bs) hw hs) h).putsId ht

/- A run that puts only ids with room stays in the buffer. -/
theorem sized_fits {size : ℕ} {w : World σ}
    (h : Sized env size (fun v s => ∀ bs, s = .read bs → v.Roomy env size bs) w) : w.rx.idSet.Fits size := by
  induction h with
  | start buffers heap app w hb h =>
    intro i hi
    rw [IdSet.count, (start_idSet h).1] at hi
    contradiction
  | step w w' s hw hc hs h ih =>
    have hdoes := wp_ok (step_does w s hw.stepped.live hs) h
    rcases hdoes.idSet with (h | h) | ⟨id, h⟩ | ⟨bs, t, u, hread, hrec, hq, hp, h⟩
    · rwa [h]
    · rw [h]
      exact .clear _ _
    · rw [h]
      exact ih.remove id
    · rw [h]
      obtain ⟨hnew, hroom, -, -⟩ := IdSet.put_spec _ _ _ hp
      rcases hc bs hread t ⟨hrec, hq, hnew⟩ with hr | hz
      · exact IdSet.Fits.put hr hp
      · rw [hw.capacity, hz] at hroom
        contradiction

/-- In a run that puts only ids with room, every id lies in the buffer, and the
next step keeps to it exactly where it puts only an id with room. -/
theorem ids_in_buffer_iff (size : ℕ) (w : World σ)
    (h : Sized env size (fun v s => ∀ bs, s = .read bs → v.Roomy env size bs) w) :
    w.rx.idSet.Fits size ∧ ∀ bs w', (Step.read bs).Enabled (fun _ => True) w → (Step.read bs).run env w = .ok () w' →
      (w.KeepsRoom env size bs w' ↔ w.Roomy env size bs) := by
  have hfit := sized_fits h
  refine ⟨hfit, fun bs w' hs hrun => ⟨fun hk t ht => ?_, fun hr t ht => ⟨fun u hu => ?_, fun hn => ?_⟩⟩⟩
  · by_contra hno
    push Not at hno
    obtain ⟨hput, -⟩ := hk t ht
    cases hp : w.rx.idSet.put t.rx.internal.packetId with
    | some u => exact hno.1 (hput u hp)
    | none =>
      rcases (IdSet.put_eq_none _ _).mp hp with hfull | hin
      · rw [IdSet.fits_iff] at hfit
        rw [h.capacity] at hfull
        have hsize := hno.2
        unfold packetIdSize at hfit
        omega
      · exact ht.new hin
  · obtain ⟨-, hroom, -, -⟩ := IdSet.put_spec _ _ _ hu
    rw [h.capacity] at hroom
    rcases hr t ht with hr | hz
    · exact hr
    · omega
  · rcases step_putsId h.stepped.live hs hrun ht with ⟨u, hu⟩ | he
    · obtain ⟨-, hroom, -, -⟩ := IdSet.put_spec _ _ _ hu
      rw [h.capacity] at hroom
      rcases hr t ht with hr | hz
      · exact absurd hr hn
      · omega
    · exact he

/-! ### Runs with one place -/

theorem Stepped.sized {C : World σ → Step σ → Prop} {w : World σ} (h : Stepped env C w) :
    Sized env w.rx.idSet.capacity C w := by
  induction h with
  | start buffers heap app w h => exact .start buffers heap app w (start_idSet h).2.symm h
  | step w w' s hw hc hs h ih =>
    rw [(wp_ok (step_does w s hw.live hs) h).capacity]
    exact .step w w' s ih hc hs h

/- Two QoS 2 messages, where the buffer takes one id. -/
def twoMessages : List (Act Unit) :=
  connectKept ++ [.decode [0x34, 6, 0, 1, 97, 0, 1, 98], .decode [0x34, 6, 0, 1, 97, 0, 2, 98]]

theorem twoMessages_isSome : (runClient memoryEnv anyConnect ⟨8, 64, 64, 2⟩ smallHeap () twoMessages).isSome = true := by
  decide +kernel

/-- The second id is put behind the buffer. -/
theorem id_behind_buffer : ∃ w : World Unit, Sized memoryEnv packetIdSize (fun _ _ => True) w ∧
    w.rx.idSet.items = [1, 2] ∧ ¬ w.rx.idSet.Fits packetIdSize := by
  obtain ⟨w, hw, hc, hi, hf⟩ : ∃ w : World Unit, Reached memoryEnv (fun _ => True) w ∧
      w.rx.idSet.capacity = packetIdSize ∧ w.rx.idSet.items = [1, 2] ∧ ¬ w.rx.idSet.Fits packetIdSize :=
    ⟨_, reached_get anyConnect_true _ _ _ _ twoMessages_isSome, by decide +kernel⟩
  refine ⟨w, ?_, hi, hf⟩
  rw [← hc]
  exact (reached_stepped w hw).sized

/- The condition, where the part of a PUBLISH is decoded. -/
def World.roomy (env : Env σ) (size : ℕ) (w : World σ) (bs : List Byte) : Bool :=
  match rxBufferDecodePublishPart env bs w with
  | .ok (some _) t => t.rx.internal.header.qos ≠ 2 || decide (w.rx.idSet.HasRoom size)
  | _ => true

theorem roomy_of_check {size : ℕ} {w : World σ} {bs : List Byte} (h : w.roomy env size bs = true) :
    w.Roomy env size bs := by
  intro t ht
  obtain ⟨n, hn, -⟩ := ht.receives.completed
  unfold World.roomy at h
  rw [hn] at h
  left
  simpa [ht.qos] using h

def roomyStep (size : ℕ) (w : World Unit) : Step Unit → Bool
  | .read bs => w.roomy memoryEnv size bs
  | _ => true

theorem roomyStep_roomy {size : ℕ} (w : World Unit) (s : Step Unit) (h : roomyStep size w s = true) :
    ∀ bs, s = .read bs → w.Roomy memoryEnv size bs := by
  rintro bs rfl
  exact roomy_of_check h

/- The steps of a connect, and of a message of which the last byte is missing. -/
def oneMessage : List (Step Unit) :=
  .call (.connect 0) :: List.replicate 12 (.send 64) ++
    [[0x20], [2], [0], [0], [0x34], [6], [0, 1, 97, 0, 1], [1, 97, 0, 1], [97, 0, 1], [0, 1], [1]].map .read

theorem oneMessage_isSome : (runClientSteps memoryEnv (roomyStep packetIdSize) ⟨8, 64, 64, packetIdSize⟩ smallHeap ()
    oneMessage).isSome = true := by decide +kernel

theorem ids_in_buffer_one : ∃ w w' : World Unit, w.rx.idSet.Fits packetIdSize ∧
    w.KeepsRoom memoryEnv packetIdSize [98] w' ∧ w'.rx.idSet.items = [1] := by
  obtain ⟨w, hw, hc, hs, hr, hturn⟩ : ∃ w : World Unit,
      Stepped memoryEnv (fun v s => ∀ bs, s = .read bs → v.Roomy memoryEnv packetIdSize bs) w ∧
      w.rx.idSet.capacity = packetIdSize ∧ (Step.read [98]).ready w = true ∧ w.roomy memoryEnv packetIdSize [98] = true ∧
      Wp ((Step.read [98]).run memoryEnv) w (fun _ w' => w'.rx.idSet.items = [1]) fun _ _ => False :=
    ⟨_, stepped_get roomyStep_roomy _ _ _ _ oneMessage_isSome, by decide +kernel⟩
  obtain ⟨_, w', hrun, hi⟩ := wp_exists hturn
  have hsized := hw.sized
  rw [hc] at hsized
  obtain ⟨hfit, hiff⟩ := ids_in_buffer_iff packetIdSize w hsized
  have hkeeps := (hiff [98] w' (Step.ready_enabled w _ hs) hrun).mpr (roomy_of_check hr)
  exact ⟨w, w', hfit, hkeeps, hi⟩

end LightMqtt
