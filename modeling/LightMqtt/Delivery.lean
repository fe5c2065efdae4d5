import LightMqtt.Base.History
import LightMqtt.Reentry

/-!
# The receiver of QoS 2 messages

The id set holds the ids of the messages that were delivered and not released
since. The decoder tells a message from its duplicates by it.
-/

namespace LightMqtt

open Exec

variable {σ : Type} {env : Env σ} {P : World σ → Prop}

/-! ### Delivery and release in the log -/

/- The call of the message callback with a QoS 2 message of this id. -/
def Event.Delivers (id : PacketId) (e : Event) : Prop := ∃ b : Publish, b.qos = 2 ∧ e = .message id b

/- The packet id of a PUBREL was read. -/
def Event.Releases (id : PacketId) (e : Event) : Prop := e = .packetId typePubrel id

/- A message was delivered and not released since. -/
def World.Unreleased (w : World σ) (id : PacketId) : Prop :=
  History.IsOpen (Event.Delivers id) (Event.Releases id) w.log

/- Between two deliveries with one id there is a release. -/
def World.AtMostOnce (w : World σ) (id : PacketId) : Prop :=
  History.Alternates (Event.Delivers id) (Event.Releases id) w.log

/-- What keeps a message from being delivered twice while the sessions are kept. -/
structure Remembers (w : World σ) : Prop where
  session : w.cleanSession = false
  once : ∀ id, w.AtMostOnce id
  known : w.error ≠ some .closed → ∀ id, w.Unreleased id → id ∈ w.rx.idSet.items

/- Events that neither deliver nor name the clean session of a connection. -/
def Event.isQuiet : Event → Bool
  | .message .. | .connected _ => false
  | _ => true

theorem quiet_delivers {e : Event} (he : e.isQuiet = true) (id : PacketId) : ¬ e.Delivers id := by
  rintro ⟨b, -, rfl⟩
  contradiction

/- Quiet events, with the id set and the session as they were. -/
theorem Remembers.quiet {w w' : World σ} (h : Remembers w) (evs : List Event) (hl : w'.log = evs ++ w.log)
    (hq : ∀ e ∈ evs, e.isQuiet = true) (hset : w'.rx.idSet = w.rx.idSet)
    (hsession : w'.cleanSession = w.cleanSession)
    (he : w'.error ≠ some .closed → w.error ≠ some .closed) : Remembers w' := by
  have hd : ∀ id, ∀ e ∈ evs, ¬ e.Delivers id := fun id e hev => quiet_delivers (hq e hev) id
  refine ⟨hsession.trans h.session, fun id => ?_, fun hn id hu => ?_⟩
  · unfold World.AtMostOnce
    rw [hl]
    exact History.alternates_append (hd id) (h.once id)
  · unfold World.Unreleased at hu
    rw [hl] at hu
    rw [hset]
    exact h.known (he hn) id (History.isOpen_append (hd id) hu)

theorem answers_quiet (w : World σ) (v : Value) : ∀ e ∈ w.answers v, e.isQuiet = true := by
  intro e he
  unfold World.answers at he
  split at he <;> simp_all [Event.isQuiet]

theorem isNote_quiet {e : Event} (he : e.isNote = true) : e.isQuiet = true := by
  cases e <;> simp_all [Event.isNote, Event.isQuiet]

/- A message whose id is put into the set. -/
theorem Remembers.deliver {w w' : World σ} (h : Remembers w) (id : PacketId) (b : Publish) (t : IdSet)
    (he : w.error = none) (hput : w.rx.idSet.put id = some t) (hl : w'.log = .message id b :: w.log)
    (hset : w'.rx.idSet = t) (hsession : w'.cleanSession = w.cleanSession) : Remembers w' := by
  have hknown : ∀ x, w.Unreleased x → x ∈ w.rx.idSet.items := h.known (by simp [he])
  refine ⟨hsession.trans h.session, fun x => ?_, fun _ x hu => ?_⟩
  · unfold World.AtMostOnce
    rw [hl, History.alternates_cons]
    refine ⟨h.once x, ?_⟩
    rintro ⟨b', -, heq⟩ hopen
    cases heq
    exact (IdSet.put_spec _ _ _ hput).1 (hknown id hopen)
  · unfold World.Unreleased at hu
    rw [hl, History.isOpen_cons] at hu
    rw [hset, IdSet.mem_put hput]
    rcases hu with ⟨b', -, heq⟩ | ⟨-, hu⟩
    · cases heq
      exact .inr rfl
    · exact .inl (hknown x hu)

/- A PUBREL: the log starts with its packet id. -/
theorem Remembers.release {w w' : World σ} (h : Remembers w) (id : PacketId)
    (hid : ∃ l, w.log = .packetId typePubrel id :: l) (hl : w'.log = w.log) (he : w'.error = w.error)
    (hset : w'.rx.idSet = w.rx.idSet.remove id) (hsession : w'.cleanSession = w.cleanSession) :
    Remembers w' := by
  refine ⟨hsession.trans h.session, fun x => ?_, fun hn x hu => ?_⟩
  · unfold World.AtMostOnce
    rw [hl]
    exact h.once x
  · rw [he] at hn
    unfold World.Unreleased at hu
    rw [hl] at hu
    rw [hset, IdSet.mem_remove]
    refine ⟨h.known hn x hu, ?_⟩
    rintro rfl
    obtain ⟨l, hlog⟩ := hid
    rw [hlog, History.isOpen_cons] at hu
    rcases hu with ⟨b, -, heq⟩ | ⟨hnot, -⟩
    · contradiction
    · exact hnot rfl

/-- Every effect keeps what prevents a second delivery, as long as no session is
clean. -/
theorem remembers_effect {w w' : World σ} (h : Effect env P w w') (hw : Sound w)
    (hc : .connected true ∉ w'.log) (hr : Remembers w) : Remembers w' := by
  have hsame : ∀ {w' : World σ}, w'.log = w.log → w'.rx.idSet = w.rx.idSet →
      w'.cleanSession = w.cleanSession → w'.error = w.error → Remembers w' := fun hl hset hs he =>
    hr.quiet [] hl (by simp) hset hs (by rw [he]; exact id)
  cases h with
  | app | heap | timeout | tx | txClosed | rx | nextId | enqueue | sessionless | opened
  | detached | ready => exact hsame rfl rfl rfl rfl
  | clock | ack => exact hsame (by simp) (by simp) (by simp) (by simp)
  | note e he => exact hr.quiet [e] rfl (by simpa using isNote_quiet he) rfl rfl id
  | accept => exact hr.quiet [_] rfl (by simp [Event.isQuiet]) rfl rfl (fun h => h)
  | encode e field hp => exact hr.quiet [_] rfl (by simp [Event.isQuiet]) rfl rfl id
  | mark e hp hr' =>
    refine hr.quiet [.encoded e.kind e.value.packetId e.value.req] ?_ (by simp [Event.isQuiet]) ?_ ?_ ?_ <;>
      simp [World.emit]
  | drop e hp hr' =>
    refine hr.quiet (w.answers e.value ++ [.encoded e.kind e.value.packetId e.value.req]) (by simp) ?_
      (by simp) (by simp) (by simp)
    intro ev hev
    rcases List.mem_append.mp hev with hev | hev
    · exact answers_quiet w _ ev hev
    · rw [List.mem_singleton.mp hev]
      rfl
  | pop k id e s hk hv hi hc' hs =>
    refine hr.quiet [.popped e.kind id e.value.req] ?_ (by simp [Event.isQuiet]) ?_ ?_ ?_ <;>
      simp [World.emit, World.setRx]
  | pubrec e s t hk hv hy hs ht =>
    exact hr.quiet [_, _] rfl (by simp [Event.isQuiet]) (by simp [World.setRx]) (by simp [World.setRx])
      (by simp [World.setRx])
  | pubrecLost | connack => exact hr.quiet [_] rfl (by simp [Event.isQuiet]) rfl rfl id
  | answer =>
    refine hr.quiet _ (decoded_answered_log w _) (fun ev hev => ?_) rfl rfl id
    rcases List.mem_append.mp hev with hev | hev
    · exact answers_quiet w _ ev hev
    · rw [List.mem_singleton.mp hev]
      rfl
  | finalAnswer => exact hr.quiet _ rfl (answers_quiet w.calling _) rfl rfl id
  | finish => exact hr.quiet [_] rfl (by simp [Event.isQuiet]) rfl rfl id
  | remember id t ht =>
    refine ⟨hr.session, hr.once, fun hn x hu => ?_⟩
    exact (IdSet.mem_put ht).mpr (.inl (hr.known hn x hu))
  | deliver id b hb =>
    have hd : ∀ x, ¬ (Event.message id b).Delivers x := by
      rintro x ⟨b', hb', heq⟩
      cases heq
      exact hb hb'
    refine ⟨hr.session, fun x => ?_, fun hn x hu => ?_⟩
    · exact History.alternates_append (by simpa using hd x : ∀ e ∈ [Event.message id b], _) (hr.once x)
    · exact hr.known hn x (History.isOpen_append (by simpa using hd x : ∀ e ∈ [Event.message id b], _) hu)
  | deliverOnce id b t he ht => exact hr.deliver id b t he ht rfl rfl rfl
  | release id hi => exact hr.release id hi rfl rfl rfl rfl
  | connecting p s ho hp hs =>
    have he : w.error = none := (hw.connectable ho).1
    exact hr.quiet [_] rfl (by simp [Event.isQuiet]) rfl rfl (by simp [he])
  | connected p hcl he ho hn =>
    have hclean : (w.heap.connects p).cleanSession = false := by
      by_contra hn
      exact hc (by simp [show (w.heap.connects p).cleanSession = true by simpa using hn])
    have hd : ∀ x c, ¬ (Event.connected c).Delivers x := by
      rintro x c ⟨b', hb', heq⟩
      contradiction
    refine ⟨hclean, fun x => ?_, fun hn x hu => ?_⟩
    · exact History.alternates_append (by simpa using hd x _ : ∀ e ∈ [Event.connected _], _) (hr.once x)
    · exact hr.known (by simp [he]) x (History.isOpen_append (by simpa using hd x _ : ∀ e ∈ [Event.connected _], _) hu)
  | shift r e s hr' hf hs =>
    exact hr.quiet _ rfl (answers_quiet w _) (by simp) (by simp) (by simp)
  | clearIds hg =>
    rcases hg with hg | hg
    · rw [hr.session] at hg
      contradiction
    · exact ⟨hr.session, hr.once, fun hn => absurd hg hn⟩
  | initial he => exact hr.quiet [_] rfl (by simp [Event.isQuiet]) rfl rfl fun _ => he
  | failed e os he => exact hr.quiet [] rfl (by simp) rfl rfl (fun hn hc => hn (by rw [he hc]))

/-- In a run in which every session is kept, two deliveries of QoS 2 messages
with one id have a release between them. -/
theorem reached_atMostOnce (w : World σ) (h : Reached env P w) (hc : .connected true ∉ w.log) (id : PacketId) :
    w.AtMostOnce id := by
  have hinv : .connected true ∉ w.log → Remembers w := by
    refine reached_invariant (I := fun v => .connected true ∉ v.log → Remembers v) (fun v v' hs he hv hc => ?_)
      (fun _ _ _ hv hc => ⟨(hv hc).session, (hv hc).once, (hv hc).known⟩) (fun buffers heap app _ => ?_) w h
    · obtain ⟨evs, hl⟩ := effect_log he
      refine remembers_effect he hs hc (hv fun hm => hc ?_)
      rw [hl]
      exact List.mem_append_right _ hm
    · exact ⟨rfl, fun _ => History.alternates_nil, fun _ _ hu => absurd hu History.not_isOpen_nil⟩
  exact (hinv hc).once id

/-! ### One PUBLISH -/

/- The calls of the message callback in a stretch of the log. -/
def deliveries (evs : List Event) : List (PacketId × Publish) :=
  evs.filterMap fun
    | .message id b => some (id, b)
    | _ => none

theorem deliveries_append (evs evs' : List Event) :
    deliveries (evs ++ evs') = deliveries evs ++ deliveries evs' := List.filterMap_append

theorem deliveries_notes (evs : List Event) (h : ∀ e ∈ evs, e.isNote = true) : deliveries evs = [] := by
  refine List.filterMap_eq_nil_iff.mpr fun e he => ?_
  have hn := h e he
  cases e <;> simp_all [Event.isNote]

/- The PUBLISH that is being read is not handed over: the application, or a
   missing callback, says so. -/
def World.ignores {ρ : Type} (env : EnvOf σ ρ) (w : World σ) : Bool :=
  w.rx.internal.ignorePublish || env.message.onPublish.isNone

theorem World.ignores_requests {ρ : Type} [Reentrant ρ] (env : EnvOf σ ρ) (w : World σ) :
    w.ignores env.requests = w.ignores env := by
  simp only [World.ignores, EnvOf.requests, Option.isNone_map]

/- From `w` to `w'` the message callback was called with `ms`. -/
def Delivered (w : World σ) (ms : List (PacketId × Publish)) (w' : World σ) : Prop :=
  ∃ evs, w'.log = evs ++ w.log ∧ deliveries evs = ms

theorem Delivered.refl (w : World σ) : Delivered w [] w := ⟨[], rfl, rfl⟩

theorem Delivered.trans {w w' w'' : World σ} {ms ms' : List (PacketId × Publish)} (h : Delivered w ms w')
    (h' : Delivered w' ms' w'') : Delivered w (ms' ++ ms) w'' := by
  obtain ⟨evs, hl, hd⟩ := h
  obtain ⟨evs', hl', hd'⟩ := h'
  exact ⟨evs' ++ evs, by rw [hl', hl, List.append_assoc], by rw [deliveries_append, hd, hd']⟩

theorem RxScratch.delivered {w w' : World σ} (h : RxScratch w w') : Delivered w [] w' := by
  obtain ⟨evs, hl, hn⟩ := h.log
  exact ⟨evs, hl, deliveries_notes evs hn⟩

theorem Called.delivered {w w' : World σ} (h : Called w w') : Delivered w [] w' := by
  obtain ⟨evs, hl, hn⟩ := h.log
  refine ⟨evs, hl, List.filterMap_eq_nil_iff.mpr fun e he => ?_⟩
  obtain ⟨r, k, id, p, u, -, rfl⟩ := hn e he
  rfl

/- The message callback is called once, unless the message is ignored. -/
theorem rxBufferCallMessage_delivered (w : World σ) :
    Wp (rxBufferCallMessage env) w
      (fun _ w' => w'.rx = w.rx ∧ Delivered w
        (if w.ignores env then [] else [(w.rx.internal.packetId, w.rx.internal.publish)]) w')
      fun _ _ => False := by
  simp only [rxBufferCallMessage, callbackCalls_requests, wp_bind, wp_get]
  split
  · rename_i f hf
    refine wp_if (fun hi => ?_) fun hi => ?_
    · rw [if_pos (by simp [World.ignores, hi])]
      exact ⟨rfl, .refl w⟩
    · simp only [wp_bind, wp_set, wp_pure]
      rw [if_neg (by simp [World.ignores, hi, hf])]
      refine (doRequests_called env (fun _ => True) _ _).mono (fun _ t ht => ?_) fun _ _ h => h
      refine ⟨by rw [ht.1.same], ?_⟩
      have hm : Delivered w [(w.rx.internal.packetId, w.rx.internal.publish)] { w with
          app := (f w.app w.rx.internal.publish).app
          log := .message w.rx.internal.packetId w.rx.internal.publish :: w.log } := ⟨[_], rfl, rfl⟩
      exact hm.trans ht.1.delivered
  · rename_i hf
    rw [if_pos (by simp [World.ignores, hf])]
    exact ⟨rfl, .refl w⟩

/- What happens behind the last byte of a QoS 2 PUBLISH, if it is not an error. -/
theorem rxBufferFinishPublish_delivered (env : Env σ) (w : World σ) (hq : w.rx.internal.header.qos = 2) :
    Wp (rxBufferFinishPublish env) w
      (fun res w' => res ≠ .error → res = .finished ∧
        w'.rx.internal.packetId = w.rx.internal.packetId ∧ w'.ignores env = w.ignores env ∧
        w.rx.internal.packetId ∈ w'.rx.idSet.items ∧
        ∃ b : Publish, b.qos = 2 ∧ Delivered w
          (if w.ignores env || w.rx.idSet.contains w.rx.internal.packetId then []
            else [(w.rx.internal.packetId, b)]) w')
      fun _ _ => False := by
  have hack : w.acknowledge.rx = w.rx ∧ w.acknowledge.log = w.log := by
    unfold World.acknowledge
    dsimp only
    split <;> simp
  simp only [rxBufferFinishPublish, wp_bind, wp_modify, wp_get]
  generalize w.acknowledge = u at hack
  obtain ⟨hrx, hlog⟩ := hack
  have hu : Delivered w [] u := ⟨[], hlog, rfl⟩
  rw [hrx, hq]
  cases hk : w.rx.idSet.contains w.rx.internal.packetId with
  | true =>
    -- a duplicate: nothing is called
    refine wp_if (fun _ => ?_) fun h => absurd rfl h
    refine (wp_bind ..).mpr ((rxBufferDeallocatePublish_scratch env u).mono (fun _ t ht _ => ?_) fun _ _ h => h)
    have htr : t.rx = w.rx := ht.2.trans hrx
    rw [World.ignores, World.ignores, htr]
    refine ⟨rfl, rfl, rfl, (IdSet.contains_iff _ _).mp hk, { qos := 2 }, rfl, ?_⟩
    rw [Bool.or_true]
    exact hu.trans ht.1.delivered
  | false =>
    refine wp_if (fun h => absurd h (by simp)) fun _ => ?_
    simp only [rxBufferRemember, wp_bind, wp_get, hrx, hq]
    refine wp_if (fun h => absurd rfl h) fun _ => ?_
    cases hput : w.rx.idSet.put w.rx.internal.packetId with
    | none =>
      refine wp_if (by simp) fun _ => (wp_bind ..).mpr ?_
      exact (rxBufferDeallocatePublish_scratch env u).mono (fun _ t _ hn => absurd rfl hn) fun _ _ h => h
    | some s =>
      simp only [wp_bind, wp_set, wp_pure]
      refine wp_if (fun _ => ?_) (by simp)
      simp only [rxBufferTakeMessage, wp_bind, wp_modify]
      generalize hv : (({ u with rx := { w.rx with idSet := s } } : World σ).setRx _) = v
      have hvs : v.rx.idSet = s := by rw [← hv]; rfl
      have hvi : v.rx.internal = { w.rx.internal with publish := { w.rx.internal.publish with
          qos := 2, retain := w.rx.internal.header.retain ≠ 0 } } := by rw [← hv, ← hq]; rfl
      have huv : Delivered w [] v := ⟨[], by rw [← hv]; exact hlog, rfl⟩
      have higs : v.ignores env = w.ignores env := by rw [World.ignores, World.ignores, hvi]
      refine (rxBufferCallMessage_delivered v).mono (fun ok t ht => ?_) fun _ _ h => h
      refine (rxBufferDeallocatePublish_scratch env t).mono (fun _ t' ht' => ?_) fun _ _ h => h
      refine wp_if (fun _ _ => ?_) fun _ hn => absurd rfl hn
      have hr : t'.rx = v.rx := ht'.2.trans ht.1
      have hd := (huv.trans ht.2).trans ht'.1.delivered
      have hig' : t'.ignores env = w.ignores env := by rw [World.ignores, hr, ← World.ignores, higs]
      refine ⟨rfl, by rw [hr, hvi], hig', ?_, v.rx.internal.publish, by rw [hvi], ?_⟩
      · rw [hr, hvs, IdSet.mem_put hput]
        exact .inr rfl
      · rw [higs] at hd
        rw [Bool.or_false]
        have hid : v.rx.internal.packetId = w.rx.internal.packetId := by rw [hvi]
        rw [hid, List.nil_append, List.append_nil] at hd
        exact hd

/-- What a call of `rx_buffer_decode_publish` that is not an error does with a
QoS 2 message: nothing before the end of the packet, and there it calls the
message callback once if the message is not ignored and its id is not known;
the id is known behind it. -/
structure Taken {ρ : Type} (env : EnvOf σ ρ) (w : World σ) (res : DecodeResult) (t : World σ) : Prop where
  unfinished : res ≠ .finished → Delivered w [] t
  finished : res = .finished → ∃ b : Publish, b.qos = 2 ∧ Delivered w
    (if t.ignores env || w.rx.idSet.contains t.rx.internal.packetId then []
      else [(t.rx.internal.packetId, b)]) t
  known : res = .finished → t.rx.internal.packetId ∈ t.rx.idSet.items

theorem rxBufferDecodePublish_taken (w : World σ) (bs : List Byte) (hq : w.rx.internal.header.qos = 2) :
    Wp (rxBufferDecodePublish env bs) w (fun r t => r.1 ≠ .error → Taken env w r.1 t) fun _ _ => True := by
  simp only [rxBufferDecodePublish]
  refine wp_assert_bind (fun _ => ?_) fun _ => trivial
  simp only [wp_bind, wp_get]
  refine (rxBufferDecodePublishPart_scratch env w bs).mono (fun r t ht => ?_) fun _ _ _ => trivial
  cases r with
  | none => exact fun h => absurd rfl h
  | some count =>
    simp only [wp_bind, wp_get]
    have hd := ht.delivered
    refine wp_if (fun _ _ => ⟨fun _ => hd, by simp, by simp⟩) fun _ =>
      wp_if (fun _ _ => ⟨fun _ => hd, by simp, by simp⟩) fun _ => ?_
    have htq : t.rx.internal.header.qos = 2 := by rw [ht.header]; exact hq
    refine (wp_bind ..).mpr ((rxBufferFinishPublish_delivered env t htq).mono (fun res u hu hn => ?_)
      fun _ _ h => h.elim)
    obtain ⟨rfl, hid, hig, hmem, b, hb, hdel⟩ := hu hn
    have hset : t.rx.idSet = w.rx.idSet := by rw [ht.same]
    have hdel := hd.trans hdel
    rw [List.append_nil, hset, ← hid, ← hig] at hdel
    exact ⟨by simp, fun _ => ⟨b, hb, hdel⟩, fun _ => by rw [hid]; exact hmem⟩

/-- QoS 2 reception, where no callback connects, resets or finalizes the client: at
most once in every run that keeps its sessions, and exactly once for each PUBLISH with
an unknown id that is neither ignored nor an error. -/
theorem qos2_reception {ρ : Type} [Reentrant ρ] {env : EnvOf σ ρ} (henv : env.OnlyRequests) (w : World σ)
    (h : Reached env P w) (hc : .connected true ∉ w.log) :
    (∀ id, w.AtMostOnce id) ∧
      ∀ (v : World σ) (bs : List Byte) (res : DecodeResult) (count : ℕ) (t : World σ),
        v.rx.internal.header.qos = 2 → rxBufferDecodePublish env bs v = .ok (res, count) t →
        res ≠ .error → Taken env v res t := by
  refine ⟨reached_atMostOnce w (h.requests henv) hc, fun v bs res count t hq hrun hn => ?_⟩
  rw [rxBufferDecodePublish_requests henv] at hrun
  have ht := wp_ok (rxBufferDecodePublish_taken v bs hq) hrun hn
  refine ⟨ht.unfinished, fun hf => ?_, ht.known⟩
  rw [← t.ignores_requests env]
  exact ht.finished hf

/- A message, its duplicate, its PUBREL and a second message with the same id. -/
def receptionRun : Option (World Unit) :=
  runClient memoryEnv anyConnect ⟨8, 64, 64, 4⟩ smallHeap () (connectKept ++ [
    .decode [0x34, 6, 0, 1, 97, 0, 7, 1], .decode [0x3c, 6, 0, 1, 97, 0, 7, 1],
    .decode [0x62, 2, 0, 7], .decode [0x34, 6, 0, 1, 97, 0, 7, 2]])

theorem receptionRun_isSome : receptionRun.isSome = true := by decide +kernel

theorem qos2_reception_run : (deliveries (receptionRun.get receptionRun_isSome).log).length = 2 ∧
    ∀ id, (receptionRun.get receptionRun_isSome).AtMostOnce id :=
  ⟨by decide +kernel, (qos2_reception (P := fun _ => True) memoryEnv.onlyRequests _
    (reached_get anyConnect_true _ _ _ _ _) (by decide +kernel)).1⟩

/-! ### A callback that finalizes the client -/

def finalizingEnv : EnvOf Unit Reentry := { memoryEnvOf Reentry with
  message := { (memoryEnvOf Reentry).message with onPublish := some fun a _ => ⟨a, true, [.finalize]⟩ } }

/- A message and its duplicate in one buffer. -/
def finalizingRun : Option (World Unit) :=
  runClient finalizingEnv anyConnect ⟨8, 64, 64, 4⟩ smallHeap () (connectKept ++ [
    .decode [0x34, 6, 0, 1, 97, 0, 7, 1, 0x3c, 6, 0, 1, 97, 0, 7, 1]])

theorem finalizingRun_isSome : finalizingRun.isSome = true := by decide +kernel

/-- The decoder goes on with a client that was finalized and has forgotten its ids: the
duplicate is delivered too. -/
theorem delivered_again : ∃ w : World Unit, Reached finalizingEnv (fun _ => True) w ∧
    .connected true ∉ w.log ∧ ¬ w.AtMostOnce 7 := by
  obtain ⟨w, hw, hc, b, hq, hlog, hmid⟩ : ∃ w : World Unit, Reached finalizingEnv (fun _ => True) w ∧
      .connected true ∉ w.log ∧ ∃ b : Publish, b.qos = 2 ∧
      w.log = w.log.take 2 ++ .message 7 b :: ((w.log.drop 3).take 4 ++ .message 7 b :: w.log.drop 8) ∧
      .packetId typePubrel 7 ∉ (w.log.drop 3).take 4 :=
    ⟨_, reached_get anyConnect_true _ _ _ _ finalizingRun_isSome, by decide +kernel,
      { qos := 2, topic := { len := 1, buf := some [97], pos := 1 }, payload := { len := 1, buf := some [1], pos := 1 } },
      by decide +kernel⟩
  refine ⟨w, hw, hc, fun h => ?_⟩
  obtain ⟨x, hx, hrel⟩ := h _ _ _ _ _ hlog ⟨b, hq, rfl⟩ ⟨b, hq, rfl⟩
  rw [hrel] at hx
  exact hmid hx

end LightMqtt
