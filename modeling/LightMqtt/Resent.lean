import LightMqtt.Exchanges
import LightMqtt.Reentry
import LightMqtt.Resuming
import LightMqtt.WholePackets

/-!
# Packets that are sent again

The entries of a session that is resumed are sent from the first one, each with
the packet of its kind. Strings in memory are sent from their first byte; a
source is not set back.
-/

namespace LightMqtt

open Exec

variable {σ : Type} {env : Env σ} {rest : σ → ℕ → List Byte}

/-! ### Objects along a run -/

section Objects
variable {C : World σ → Step σ → Prop} {w w' : World σ} {s : Step σ}

/- A step counts at most the message that it ends. -/
theorem Does.counts (h : Does env w s w') : ∃ es, w'.heap.still = (w.heap.countedAll es).still := by
  rcases h.idle with hidle | ⟨e, -, u, hu, hw'⟩
  · exact ⟨[], hidle.heap⟩
  · refine ⟨[e], ?_⟩
    rw [hw']
    exact hu.heap

theorem steps_counts (hw : Live w) (h : Steps env C w w') : ∃ es, w'.heap.still = (w.heap.countedAll es).still := by
  induction h with
  | refl => exact ⟨[], rfl⟩
  | step v v' s hv hc hs h ih =>
    obtain ⟨es, hes⟩ := ih
    obtain ⟨es', hes'⟩ := (wp_ok (step_does v s (steps_changes hw hv).2 hs) h).counts
    exact ⟨es ++ es', by rw [hes', countedAll_congr hes, countedAll_append]⟩

end Objects

/-! ### Single packets -/

/-- The packet of `e` behind those of the entries `es`. -/
def World.packetBehind (rest : σ → ℕ → List Byte) (w : World σ) (es : List Entry) (e : Entry) : List Byte :=
  (entryFields (w.heap.countedAll es) e).flatMap (w.left rest 0)

section Packet
variable {w v : World σ} {e : Entry} {es pre post : List Entry}

theorem packets_concat (rest : σ → ℕ → List Byte) (w : World σ) (es : List Entry) (e : Entry) :
    w.packets rest (es ++ [e]) = w.packets rest es ++ w.packetBehind rest es e := by
  rw [packets_append, lineFields_singleton]
  rfl

/- The packets of the first ones of some entries come first. -/
theorem packets_starts (rest : σ → ℕ → List Byte) (w : World σ) (h : pre <+: es) :
    w.packets rest pre <+: w.packets rest es := by
  obtain ⟨post, rfl⟩ := h
  exact ⟨_, (packets_append rest w pre post).symm⟩

/- A PUBREL is its header. -/
theorem pubrel_behind (rest : σ → ℕ → List Byte) (w : World σ) (es : List Entry) (hk : e.kind = .pubrel) :
    w.packetBehind rest es e = [0x62, 2] ++ packetIdBytes e.value.packetId := by
  have hfields : entryFields (w.heap.countedAll es) e = [.header (idPacket (typePubrel * 16 ||| 2) 2 e.value.packetId)] := by
    unfold entryFields entryEncoders
    rw [hk]
    rfl
  unfold World.packetBehind
  rw [hfields]
  rfl

theorem publishes_countedAll (h : Heap) (es : List Entry) (p : Ptr) :
    ((h.countedAll es).publishes p).topic = (h.publishes p).topic ∧
      ((h.countedAll es).publishes p).payload = (h.publishes p).payload ∧
      ((h.countedAll es).publishes p).qos = (h.publishes p).qos := by
  induction es generalizing h with
  | nil => exact ⟨rfl, rfl, rfl⟩
  | cons e es ih =>
    obtain ⟨ht, hp, hq⟩ := ih (h.counted e)
    obtain ⟨ht', hp', hq'⟩ := counted_strings h e p
    exact ⟨ht.trans ht', hp.trans hp', hq.trans hq'⟩

/- The kind of packet that an entry is sent as. -/
def Kind.packetType : Kind → ℕ
  | .connect => typeConnect
  | .subscribe => typeSubscribe
  | .unsubscribe => typeUnsubscribe
  | .publish0 | .publish1 | .publish2 => typePublish
  | .puback => typePuback
  | .pubrec => typePubrec
  | .pubrel => typePubrel
  | .pubcomp => typePubcomp
  | .pingreq => typePingreq
  | .disconnect => typeDisconnect

/-- The packet of the entry `e`. -/
structure Entry.SentAs (e : Entry) (packet : List Byte) : Prop where
  type : ∃ first tail, packet = first :: tail ∧ first.toNat / 16 = e.kind.packetType
  pubrel : e.kind = .pubrel → packet = [0x62, 2] ++ packetIdBytes e.value.packetId

theorem publishFirstByte_type {b : Publish} (hq : b.qos ≤ 2) : (publishFirstByte b).toNat / 16 = typePublish := by
  obtain ⟨r, c, q, -, -, hb⟩ := publishFirstByte_eq hq
  rw [hb]
  clear hb
  revert r c q
  decide

theorem sentAs_packet (rest : σ → ℕ → List Byte) (w : World σ) (es : List Entry) (hv : e.Validated w.heap) :
    e.SentAs (w.packetBehind rest es e) := by
  refine ⟨?_, pubrel_behind rest w es⟩
  have hhead : ∀ (first : Byte) (tl : List Byte) (fs : List Field),
      entryFields (w.heap.countedAll es) e = .header (first :: tl) :: fs → first.toNat / 16 = e.kind.packetType →
      ∃ first tail, w.packetBehind rest es e = first :: tail ∧ first.toNat / 16 = e.kind.packetType := by
    intro first tl fs hf htype
    refine ⟨first, tl ++ fs.flatMap (w.left rest 0), ?_, htype⟩
    unfold World.packetBehind
    rw [hf]
    rfl
  have hpublish : e.kind.isPublish = true → publishValidate (w.heap.publishes e.value.value) = true →
      ∃ first tail, w.packetBehind rest es e = first :: tail ∧ first.toNat / 16 = e.kind.packetType := by
    intro hk hvalid
    have hfields := @publish_fields σ { w with heap := w.heap.countedAll es } e hk
    refine hhead _ _ _ hfields ?_
    obtain ⟨-, -, hqos⟩ := publishValidate_topic hvalid
    obtain ⟨-, -, hsame⟩ := publishes_countedAll w.heap es e.value.value
    rw [publishFirstByte_type (by rw [hsame]; exact hqos)]
    cases hkind : e.kind <;> rw [hkind] at hk <;> first | contradiction | rfl
  unfold Entry.Validated at hv
  unfold entryFields entryEncoders at hhead
  cases hk : e.kind with
  | publish0 | publish1 | publish2 =>
    rw [hk] at hv hpublish
    exact hpublish rfl hv
  | _ =>
    rw [hk] at hhead
    exact hhead _ _ _ rfl (by decide)

end Packet

/-! ### Flows that send their entries -/

/-- Entries that can be sent to their end: valid ones that are no CONNECT, whose strings are in memory or have a source
of their own that yields them, and whose callbacks, if they are of QoS 0, are `Silent`. -/
structure World.Deliverable (env : Env σ) (rest : σ → ℕ → List Byte) (w : World σ) (es : List Entry) : Prop where
  provides : w.Provides es
  sources : (∀ f ∈ lineFields w.heap es, w.InMemory f) ∨ env.Streams rest
  supplied : ∀ f ∈ lineFields w.heap es, w.Supplied rest 0 f
  quiet : (∀ e ∈ es, e.kind ≠ .publish0) ∨ env.Silent rest
  validated : ∀ e ∈ es, e.kind ≠ .connect ∧ e.Validated w.heap

theorem deliverable_of_canSend {w : World σ} {es : List Entry} (h : ∀ e ∈ es, w.CanSend e)
    (hq : (∀ e ∈ es, e.kind ≠ .publish0) ∨ env.Silent rest) (hvalid : ∀ e ∈ es, e.kind ≠ .connect ∧ e.Validated w.heap) :
    w.Deliverable env rest es := by
  obtain ⟨hprovides, hmem⟩ := provides_of_canSend h
  refine ⟨hprovides, .inl hmem, fun f hf => ?_, hq, hvalid⟩
  cases f with
  | header bytes => trivial
  | str r el ie =>
    have hread : (w.str r).read = false := hmem _ hf r el ie rfl
    intro ht
    rw [hread] at ht
    contradiction

/-- What a flow from `v` to `w` has sent of the entries `es`, and that it goes on. -/
structure World.Delivers {ρ : Type} [Reentrant ρ] (env : EnvOf σ ρ) (rest : σ → ℕ → List Byte) (v : World σ)
    (es : List Entry) (bs : List Byte) (w : World σ) : Prop where
  stream : bs ++ w.owed rest = v.packets rest (untilDisconnect es)
  whole : ∃ done, untilDisconnect es = done ++ w.line ∧ (v.packets rest done).length ≤ bs.length ∧
    ∀ e l, w.line = e :: l → bs.length < (v.packets rest (done ++ [e])).length
  returns : ∀ n, w.turns < env.fuel → ∃ r w', lmqttTxBufferEncode env n w = .ok r w' ∧ r.1 ≠ .error ∧ r.2.length ≤ n ∧
    ((∀ f ∈ lineFields v.heap es, v.InMemory f) → r.2.length = n ∨ w'.line = [])

section Delivers
variable {v w : World σ} {es answered : List Entry} {bs : List Byte}

theorem Flow.delivers (h : Flow env v es answered bs w) (hfresh : v.tx.internal = {}) (hopen : v.tx.closed = false)
    (hsent : v.txStore.sent = []) (hd : v.Deliverable env rest es) : v.Delivers env rest es bs w := by
  obtain ⟨hp, hs, hsup, hq, hvalid⟩ := hd
  have hflow := h.flowing hfresh hopen hsent hp hs hq
  have ho := h.owing hfresh hopen hsent hp hs hq (plain_of_validated hvalid) hsup
  refine ⟨hflow.bytes, ?_, fun n hfuel => ?_⟩
  · obtain ⟨done, hline, -⟩ := hflow.done
    exact ⟨done, hline, hflow.whole hp hsup ho hline⟩
  · obtain ⟨r, w', hrun, hr, hem⟩ := h.returns hfresh hopen hsent hp hs hq hvalid n hfuel
    exact ⟨r, w', hrun, hr, hem.room, fun hmem => hem.filled (hflow.inMemory hp hmem)⟩

theorem starts_untilDisconnect {l : List Entry} (h : l <+: es) (hd : ¬ ∃ e ∈ l, e.kind = .disconnect) :
    l <+: untilDisconnect es := by
  obtain ⟨later, rfl⟩ := h
  rw [untilDisconnect_append, if_neg hd, untilDisconnect_of_none hd]
  exact List.prefix_append ..

/- The packets of entries that come first, and are no DISCONNECT. -/
theorem World.Delivers.starts (h : v.Delivers env rest es bs w) {l : List Entry} (hl : l <+: es)
    (hd : ¬ ∃ e ∈ l, e.kind = .disconnect) : v.packets rest l <+: bs ++ w.owed rest := by
  rw [h.stream]
  exact packets_starts rest v (starts_untilDisconnect hl hd)

end Delivers

/-! ### A source that is not set back -/

/- The payload comes from a source. -/
def sourceHeap : Heap := smallHeap.setPublish 0
  { qos := 1, topic := { len := 1, buf := some [97] }, payload := { len := 2, read := true, data := 7 } }

/- The source has `bytes`, and the message is sent completely. -/
def sourceRun (bytes : List Byte) : Option (Interrupted (Bool × List Byte)) :=
  interruptedRun feedingEnv sourceHeap (true, bytes) (List.replicate 8 (.send 64))

/- The message waits for a fresh encoder, and nothing of its payload is left. -/
def SpentSource (w : World (Bool × List Byte)) : Prop :=
  (w.txStore.sent = [] ∧ w.tx.internal = {} ∧ w.tx.closed = false) ∧
    ((w.str (.publishTopic 0)).still = { len := 1, buf := some [97] } ∧
      (w.str (.publishPayload 0)).still = { len := 2, read := true, data := 7 }) ∧
    (publishValidate (w.heap.publishes 0) = true ∧ publishCalcRemainingLength (w.heap.publishes 0) = 7) ∧
    lineFields w.heap [publishEntry 1 0 0 1] =
      [.header [58, 7], .str (.publishTopic 0) true true, .header [0, 0]] ++ [.str (.publishPayload 0) false false] ∧
    w.packets fedBytes [publishEntry 1 0 0 1] = [58, 7, 0, 1, 97, 0, 0]

instance (w : World (Bool × List Byte)) : Decidable (SpentSource w) :=
  inferInstanceAs (Decidable ((_ ∧ _ ∧ _) ∧ (_ ∧ _) ∧ (_ ∧ _) ∧ _ ∧ _))

theorem SpentSource.provides {w : World (Bool × List Byte)} (h : SpentSource w) : w.Provides [publishEntry 1 0 0 1] := by
  obtain ⟨-, ⟨htopic, hpayload⟩, ⟨hvalid, hcalc⟩, hfields, -⟩ := h
  have hread : (w.str (.publishTopic 0)).read = false := congrArg LString.read htopic
  have hmem : ∀ f ∈ [Field.header [58, 7], .str (.publishTopic 0) true true, .header [0, 0]], w.InMemory f := by
    intro f hf t el ie hfe
    rw [hfe] at hf
    simp only [List.mem_cons, reduceCtorEq, Field.str.injEq, List.not_mem_nil, or_false, false_or] at hf
    rw [hf.1]
    exact hread
  refine ⟨fun e he => ?_, fun f hf => ?_, ?_⟩
  · rw [List.mem_singleton.mp he]
    refine ⟨publishEntry_wellTyped 1 0 0 1, fun x hx => ?_⟩
    rcases publishEntry_encoders hx with hx | hx | hx | hx <;> rw [hx]
    · have hcalc' : publishCalcRemainingLength (w.heap.publishes (publishEntry 1 0 0 1).value.value) = 7 := hcalc
      refine ⟨hvalid, ?_⟩
      rw [hcalc']
      exact ⟨by decide, by decide⟩
    all_goals trivial
  · rw [hfields] at hf
    have hlen : (w.str (.publishTopic 0)).len = 1 := congrArg LString.len htopic
    have hbuf : (w.str (.publishTopic 0)).buf = some [97] := congrArg LString.buf htopic
    have hlen' : (w.str (.publishPayload 0)).len = 2 := congrArg LString.len hpayload
    have hread' : (w.str (.publishPayload 0)).read = true := congrArg LString.read hpayload
    have hbuf' : (w.str (.publishPayload 0)).buf = none := congrArg LString.buf hpayload
    simp only [List.cons_append, List.nil_append, List.mem_cons, List.not_mem_nil, or_false] at hf
    rcases hf with rfl | rfl | rfl | rfl
    · exact Nat.succ_pos _
    · have hfits : (w.str (.publishTopic 0)).len.toNat ≤ ([97] : List Byte).length := by
        rw [hlen]
        decide
      exact ⟨rfl, .inl rfl, by rw [hlen]; decide, Nat.zero_le _, .inr (.inr ⟨hread, .inl rfl, [97], hbuf, hfits⟩)⟩
    · exact Nat.succ_pos _
    · exact ⟨rfl, .inr rfl, by rw [hlen']; decide, Nat.zero_le _, .inr (.inl ⟨hread', hbuf'⟩)⟩
  · rw [hfields]
    refine List.pairwise_append.mpr ⟨apart_inMemory hmem, List.pairwise_singleton .., ?_⟩
    intro f hf g _ t el ie t' el' ie' hfe _ hreads _
    rw [hmem f hf t el ie hfe] at hreads
    contradiction

/- The payload never comes, however often the encoder is called. -/
theorem SpentSource.stream {w v : World (Bool × List Byte)} (hw : SpentSource w) {answered : List Entry} {bs : List Byte}
    (h : Flow feedingEnv w [publishEntry 1 0 0 1] answered bs v) : bs <+: [58, 7, 0, 1, 97, 0, 0] := by
  have hprovides := hw.provides
  obtain ⟨⟨hsent, hfresh, hopen⟩, -, -, -, hpacket⟩ := hw
  have hflow := h.flowing hfresh hopen hsent hprovides (.inr feedingEnv_streams) (.inl (by decide))
  rw [← hpacket]
  exact ⟨_, hflow.bytes⟩

/- The payload is all that the source has. -/
theorem sourceRun_spent : ∃ r ∈ sourceRun [120, 121], r.Keeps ∧ r.cut.mainStore.pos = 1 ∧
    r.again.mainStore.entries = [publishEntry 1 0 0 1] ∧ SpentSource r.again := by decide +kernel

/- There is more behind the payload. -/
theorem sourceRun_more : ∃ r ∈ sourceRun [120, 121, 122, 123], r.Keeps ∧
    r.cut.mainStore.entries = [publishEntry 1 0 0 1] ∧
    (∃ s ∈ sendAll feedingEnv (List.replicate 8 64) r.start, s.accepted = [publishEntry 1 0 0 1] ∧
      s.bytes = [50, 7, 0, 1, 97, 0, 0, 120, 121]) ∧
    ∃ s ∈ sendAll feedingEnv (List.replicate 8 64) r.again, s.accepted = [publishEntry 1 0 0 1] ∧
      s.bytes = [58, 7, 0, 1, 97, 0, 0, 122, 123] := by decide +kernel

/-! ### A message in memory -/

theorem SmallMessage.deliverable {w : World Unit} (h : SmallMessage w.heap) :
    w.Deliverable memoryEnv.requests (fun _ _ => []) [publishEntry 2 0 0 1] := by
  refine deliverable_of_canSend (fun e he => ?_) (.inl (by decide)) fun e he => ?_
  · rw [List.mem_singleton.mp he]
    exact h.canSend
  · rw [List.mem_singleton.mp he]
    exact ⟨by decide, h.1.1⟩

/-! ### A callback that connects again -/

/-- The first connect that fails is tried again by the callback itself. -/
def retryingEnv : EnvOf Bool Reentry where
  onConnect := some fun a p ok => if ok || a then ⟨a, true, []⟩ else ⟨true, true, [.reset, .connect p]⟩
  read := fun a _ => ⟨a, .wouldBlock, [], 0⟩
  write := fun a bs => ⟨a, .success, bs.length, 0⟩
  getTime := fun a => (a, { secs := 1 })
  strRead := fun a _ _ => ⟨a, .wouldBlock, [], 0⟩
  strWrite := fun a _ _ => ⟨a, .wouldBlock, 0, 0⟩
  fuel := 64

def anyWorld (_ : World Bool) : Bool := true

/- A connection that keeps the session, and a message of QoS 1. -/
def waitingActs : List (Act Bool) := [.connect 0, .encode 64, .decode [0x20, 2, 0, 0], .request (.publish 0)]

/- The connection ends, the next one before its CONNACK, and the callback connects again. So does the application; the
   message is sent without a CONNECT, and the server answers. Then a connection is accepted. -/
def reconnectedActs : List (Act Bool) := [.eof, .connect 0, .eof, .connect 0, .encode 64, .decode [0x40, 2, 0, 0], .eof,
  .connect 0, .encode 64, .decode [0x20, 2, 0, 0]]

def messageHeap : Heap := smallHeap.setPublish 0
  { qos := 1, topic := { len := 1, buf := some [97] }, payload := { len := 1, buf := some [98] } }

theorem reconnected_facts : ∃ u ∈ runClient retryingEnv anyWorld ⟨8, 64, 64, 4⟩ messageHeap false waitingActs,
    (u.currentStore = .main ∧ u.cleanSession = false ∧ u.mainStore.entries = [publishEntry 1 0 0 1]) ∧
    ∃ v ∈ runActs retryingEnv anyWorld reconnectedActs u,
      v.currentStore = .main ∧ v.cleanSession = false ∧ v.mainStore.entries = [] := by decide +kernel

/-! ### The session -/

section Session
variable {C : World σ → Step σ → Prop} {u v v' w w' x : World σ} {e : Entry} {es answered : List Entry} {bs : List Byte}

theorem requested_nil {added : List Entry} (h : Requested [] added) : added = [] := by
  obtain ⟨qs, hsub, hall⟩ := h
  rw [List.sublist_nil] at hsub
  rw [hsub] at hall
  exact List.forall₂_nil_right_iff.mp hall

/- No DISCONNECT is kept. -/
theorem session_no_disconnect (w : World σ) : ¬ ∃ e ∈ w.session, e.kind = .disconnect := by
  rintro ⟨e, he, hk⟩
  have hkept := (List.mem_filter.mp he).2
  unfold Entry.isKept at hkept
  rw [hk] at hkept
  contradiction

/-- A flow of the session that was resumed. -/
theorem Accepted.delivers (hu : Stepped env C u) (hlost : Lost env u w) (hsteps : Steps env C w v)
    (hnone : v.connections = w.connections) (hacc : Accepted env v v') (h : Flow env v' es answered bs w')
    (hd : v'.Deliverable env rest es) : v'.Delivers env rest es bs w' ∧ u.session <+: es := by
  obtain ⟨hres, hkept, htx⟩ := hacc.session hu hlost hsteps hnone
  obtain ⟨hfresh, hopen, hsent, hpending⟩ := hres.fresh htx
  obtain ⟨added, hentries, -⟩ := hres.entries
  obtain ⟨later, hlater⟩ := h.accepted
  refine ⟨h.delivers hfresh hopen hsent hd, added ++ later, ?_⟩
  rw [hlater, hpending, hentries, hkept, List.append_assoc]

end Session

/-! ### Applications whose callbacks could do more -/

section Reentrant
variable {ρ : Type} [Reentrant ρ] {env : EnvOf σ ρ} (henv : env.OnlyRequests) {u v w : World σ} {es answered : List Entry}
  {bs : List Byte}
include henv

theorem Flow.requests (h : Flow env v es answered bs w) : Flow env.requests v es answered bs w := by
  induction h with
  | start => exact .start
  | encode es answered bs v v' r n _ hrun ih =>
    rw [lmqttTxBufferEncode_requests henv] at hrun
    exact .encode es answered bs v v' r n ih hrun
  | append es answered bs v s e _ hs ih => exact .append es answered bs v s e ih hs
  | pop es answered bs v s e k id _ hs ih => exact .pop es answered bs v s e k id ih hs

theorem Lost.requests (h : Lost env u w) : Lost env.requests u w := by
  obtain ⟨hcurrent, hkeeps, a, ha, hs, hrun⟩ := h
  rw [stepRun_requests henv] at hrun
  exact ⟨hcurrent, hkeeps, a, ha, hs, hrun⟩

theorem Accepted.requests (h : Accepted env v w) : Accepted env.requests v w := by
  obtain ⟨⟨bs, hs, hrun⟩, hconnected, hkeeps⟩ := h
  rw [stepRun_requests henv] at hrun
  exact ⟨⟨bs, hs, hrun⟩, hconnected, hkeeps⟩

theorem World.Delivers.of_requests (h : v.Delivers env.requests rest es bs w) : v.Delivers env rest es bs w := by
  obtain ⟨hstream, hwhole, hreturns⟩ := h
  refine ⟨hstream, hwhole, fun n hfuel => ?_⟩
  rw [lmqttTxBufferEncode_requests henv]
  exact hreturns n hfuel

end Reentrant

/-! ### The session is sent again -/

section Completed
variable {ρ : Type} [Reentrant ρ] {env : EnvOf σ ρ} {C : World σ → Step σ → Prop} {u v v' w : World σ}

end Completed

/-! ### The same message again -/

section Again
variable {ρ : Type} [Reentrant ρ] {env : EnvOf σ ρ} {C : World σ → Step σ → Prop} {u v v' w w' x : World σ} {e : Entry}
  {es cs pre answered : List Entry} {bs : List Byte}

/- The strings of a message are sent from where they begin, however far they were sent before. -/
theorem message_again (hcount : v.heap.still = (x.heap.countedAll cs).still) (hk : e.kind.isPublish = true)
    (hready : ∀ f ∈ entryFields x.heap e, x.Ready 0 f)
    (hsource : ∀ r el ie, .str r el ie ∈ entryFields x.heap e → (x.str r).read = true →
      rest v.app (x.str r).data = rest x.app (x.str r).data) :
    ∃ first again body, x.packets rest [e] = first :: body ∧ v.packetBehind rest pre e = again :: body := by
  have hstr : ∀ r, r.isStored = true → (v.str r).still = (x.str r).still := by
    intro r hr
    have hs : (v.str r).still = (({ x with heap := x.heap.countedAll cs } : World σ).str r).still := str_still hr hcount
    rwa [str_countedAll] at hs
  -- the counts show in the first byte only
  have hfields : ∀ es : List Entry, ∃ first, entryFields (x.heap.countedAll es) e =
      .header (first :: lengthBytes (publishCalcRemainingLength (x.heap.publishes e.value.value))) ::
        (entryFields x.heap e).tail := by
    intro es
    have hcounted := @publish_fields σ { x with heap := x.heap.countedAll es } e hk
    obtain ⟨ht, hp, hq⟩ := publishes_countedAll x.heap es e.value.value
    refine ⟨publishFirstByte ((x.heap.countedAll es).publishes e.value.value), ?_⟩
    have hcalc : publishCalcRemainingLength ((x.heap.countedAll es).publishes e.value.value) =
        publishCalcRemainingLength (x.heap.publishes e.value.value) := by
      unfold publishCalcRemainingLength
      rw [ht, hp, hq]
    rw [publish_fields hk, hcounted]
    simp only [hcalc, hq, List.tail_cons]
  have htail : (entryFields x.heap e).tail.flatMap (v.left rest 0) = (entryFields x.heap e).tail.flatMap (x.left rest 0) := by
    refine List.flatMap_congr fun f hf => ?_
    have hmem := List.mem_of_mem_tail hf
    have hr := hready f hmem
    cases f with
    | header bytes => rfl
    | str r el ie => exact (ready_of_still (hstr r hr.1) (hsource r el ie hmem) hr).2
  obtain ⟨first, hfirst⟩ := hfields []
  obtain ⟨again, hagain⟩ := hfields (cs ++ pre)
  refine ⟨first, again, lengthBytes (publishCalcRemainingLength (x.heap.publishes e.value.value)) ++
    (entryFields x.heap e).tail.flatMap (x.left rest 0), ?_, ?_⟩
  · unfold World.packets
    rw [lineFields_singleton]
    change (entryFields (x.heap.countedAll []) e).flatMap _ = _
    rw [hfirst]
    rfl
  · unfold World.packetBehind
    rw [entryFields_congr (countedAll_congr hcount pre), ← countedAll_append, hagain, List.flatMap_cons, htail]
    rfl

end Again

end LightMqtt
