import LightMqtt.Clock

/-!
# Keep alive

The store is touched by the traffic in both directions, so what a client has
received puts off its next PINGREQ. The time of the last write is a ghost: the
environment records it beside the state of the application.
-/

namespace LightMqtt

open Exec

variable {σ : Type} {env : Env σ}

/-! ### The time of the last write -/

section Beside
variable {τ : Type}

def ReplyOf.beside (r : Reply σ) (t : τ) : Reply (σ × τ) := ⟨(r.app, t), r.ok, r.requests⟩
def Allocation.beside (r : Allocation σ) (t : τ) : Allocation (σ × τ) := ⟨(r.app, t), r.result, r.str⟩
def ReadReply.beside (r : ReadReply σ) (t : τ) : ReadReply (σ × τ) := ⟨(r.app, t), r.result, r.bytes, r.osError⟩
def WriteReply.beside (r : WriteReply σ) (t : τ) : WriteReply (σ × τ) := ⟨(r.app, t), r.result, r.count, r.osError⟩

end Beside

/-- The environment that records, beside the application, the time of the last
write that took a byte. -/
def Env.recording (env : Env σ) : Env (σ × Option Time) where
  onConnect := env.onConnect.map fun f a p ok => (f a.1 p ok).beside a.2
  onSubscribe := env.onSubscribe.map fun f a p ok => (f a.1 p ok).beside a.2
  onUnsubscribe := env.onUnsubscribe.map fun f a p ok => (f a.1 p ok).beside a.2
  onPublish := env.onPublish.map fun f a p ok => (f a.1 p ok).beside a.2
  message := {
    onPublish := env.message.onPublish.map fun f a m => (f a.1 m).beside a.2
    onPublishAllocateTopic := env.message.onPublishAllocateTopic.map fun f a m n => (f a.1 m n).beside a.2
    onPublishAllocatePayload := env.message.onPublishAllocatePayload.map fun f a m n => (f a.1 m n).beside a.2
    onPublishDeallocate := env.message.onPublishDeallocate.map fun f a m => (f a.1 m, a.2) }
  read := fun a n => (env.read a.1 n).beside a.2
  write := fun a bs =>
    let r := env.write a.1 bs
    r.beside (if r.count = 0 then a.2 else some (env.getTime r.app).2)
  getTime := fun a => (((env.getTime a.1).1, a.2), (env.getTime a.1).2)
  strRead := fun a d n => (env.strRead a.1 d n).beside a.2
  strWrite := fun a d bs => (env.strWrite a.1 d bs).beside a.2
  ndebug := env.ndebug
  fuel := env.fuel

theorem recording_normal (hc : env.ClockNormal) : env.recording.ClockNormal := fun a => hc a.1

/-! ### Runs of calls -/

/- What an application calls. -/
inductive Call
  | request (q : Request)
  | connect (p : Ptr)
  | reset
  | finalize
  | setDefaultTimeout (secs : UInt16)
  | getTimeout
  | runOnce

def Call.run (env : Env σ) : Call → Prog σ Unit
  | request q => do let _ ← doRequest q
  | connect p => do let _ ← lmqttClientConnect p
  | reset => lmqttClientReset env
  | finalize => lmqttClientFinalize env
  | setDefaultTimeout secs => lmqttClientSetDefaultTimeout secs
  | getTimeout => do let _ ← lmqttClientGetTimeout env
  | runOnce => do let _ ← lmqttClientRunOnce env

/-- The states of a client between two calls. The application goes on between
them, but does not write, and its clock does not go back. -/
inductive BetweenCalls (env : Env σ) : World (σ × Option Time) → Prop
  | start (buffers : ClientBuffers) (heap : Heap) (app : σ) (w : World (σ × Option Time))
    (h : lmqttClientInitialize env.recording (clientCleared buffers heap (app, none)) = .ok () w) : BetweenCalls env w
  | call (w w' : World (σ × Option Time)) (c : Call) (hw : BetweenCalls env w) (h : c.run env.recording w = .ok () w')
    (hc : (now env.recording w).nanos ≤ (now env.recording w').nanos) : BetweenCalls env w'
  | idle (w : World (σ × Option Time)) (app : σ) (hw : BetweenCalls env w)
    (hc : (now env.recording w).nanos ≤ (env.getTime app).2.nanos) : BetweenCalls env { w with app := (app, w.app.2) }

theorem BetweenCalls.reached {w : World (σ × Option Time)} (h : BetweenCalls env w) :
    Reached env.recording (fun _ => True) w := by
  induction h with
  | start buffers heap app w h => exact .start buffers heap (app, none) w h
  | call w w' c hw h hc ih =>
    cases c with
    | request q => exact .act w w' (.request q) ih trivial h
    | connect p => exact .act w w' (.connect p) ih (fun _ => trivial) h
    | reset => exact .act w w' .reset ih trivial h
    | finalize => exact .act w w' .finalize ih trivial h
    | setDefaultTimeout secs => exact .act w w' (.setDefaultTimeout secs) ih trivial h
    | getTimeout => exact .act w w' .getTimeout ih trivial h
    | runOnce =>
      obtain ⟨r, u, hr, hu⟩ := ok_bind h
      obtain ⟨-, rfl⟩ := ok_pure hu
      have hu := wp_ok (lmqttClientRunOnce_reached w ih) hr
      exact hu
  | idle w app hw hc ih => exact reached_transfer ih (app, w.app.2) w.readBuf w.writeBuf

/-! ### PINGREQ -/

/-- A connected client with nothing to send has been silent for its keep alive
time. -/
structure PingDue (env : Env σ) (w : World (σ × Option Time)) : Prop where
  connected : w.error = none ∧ w.currentStore = .main
  declared : w.mainStore.keepAlive ≠ 0
  empty : w.mainStore.entries = [] ∧ w.writeBuf = []
  silent : ∃ t, w.app.2 = some t ∧ t.nanos + w.mainStore.keepAlive.toNat * 10^9 ≤ (now env.recording w).nanos

/- `lmqtt_client_run_once` starts by putting a PINGREQ into the queue. Nothing else
   in it can. -/
def QueuesPing (env : Env σ) (w : World σ) : Prop :=
  ∃ v, clientKeepAlive env w = .ok .ready v ∧ pingEntry ∈ v.mainStore.entries ∧
    lmqttClientRunOnce env w = runOnceLoop env env.fuel v

theorem runOnce_keptAlive {w v : World σ} (h : clientKeepAlive env w = .ok .ready v) :
    lmqttClientRunOnce env w = runOnceLoop env env.fuel v := by
  change EStateM.bind _ _ w = _
  unfold EStateM.bind
  rw [h]

theorem append_empty (s : Store) (e : Entry) (hs : s.entries = []) :
    (∀ t, s.append e = some t → t.entries = [e]) ∧ ((s.append e).isSome = true ↔ 0 < s.capacity) := by
  have hc : s.count = 0 := by
    unfold Store.count
    rw [hs]
    rfl
  unfold Store.append
  constructor
  · intro t ht
    split at ht
    · cases ht
      change s.entries ++ [e] = [e]
      rw [hs]
      rfl
    · contradiction
  · split
    · rename_i hlt
      exact ⟨fun _ => by omega, fun _ => rfl⟩
    · exact ⟨fun h => by contradiction, fun _ => by omega⟩

/-- Called when nothing was written for the keep alive time, and nothing waits,
`lmqtt_client_run_once` queues a PINGREQ exactly if nothing was received for that
time either, and the store has room. -/
theorem ping_queued_iff (hc : env.ClockNormal) (w : World (σ × Option Time)) (h : BetweenCalls env w)
    (hd : PingDue env w) : QueuesPing env.recording w ↔ 0 < w.mainStore.capacity ∧ w.mainStore.lastTouch ≠ {} ∧
      w.mainStore.lastTouch.nanos + w.mainStore.keepAlive.toNat * 10^9 ≤ (now env.recording w).nanos := by
  obtain ⟨he, hm⟩ := hd.connected
  have hdeclared := hd.declared
  obtain ⟨hempty, -⟩ := hd.empty
  have hcn := recording_normal hc
  have hlive := (reached_effects w h.reached).1
  have htouched := reached_touched hcn w h.reached
  have hnow : (now env.recording w).Ordinary := hcn w.app
  have hping : w.ops.pingreq = true := by
    rw [hlive.sound.phase.ops.2.2]
    exact hlive.requests he (hlive.sound.rxStore.trans hm)
  have hstore : w.store w.currentStore = w.mainStore := by
    rw [hm]
    rfl
  have hcount : w.mainStore.count = 0 := by
    unfold Store.count
    rw [hempty]
    rfl
  have hdue : w.mainStore.Due (now env.recording w) ↔ w.mainStore.lastTouch ≠ {} ∧
      w.mainStore.lastTouch.nanos + w.mainStore.keepAlive.toNat * 10^9 ≤ (now env.recording w).nanos := by
    unfold Store.Due Store.limit
    rw [hcount, if_neg (lt_irrefl 0)]
    constructor
    · intro ht
      exact ht.2
    · intro ht
      exact ⟨hdeclared, ht⟩
  obtain ⟨hentries, hroom⟩ := append_empty w.mainStore pingEntry hempty
  rw [← hdue]
  constructor
  · rintro ⟨v, hv, hin, -⟩
    cases clientKeepAlive_ok hnow.normal hnow.secs.1 htouched he hv with
    | idle a hn =>
      rw [show ({ w with app := a } : World _).mainStore.entries = [] from hempty] at hin
      exact absurd hin List.not_mem_nil
    | ping a s ht hs ho ha =>
      rw [hstore] at ht
      exact ⟨hroom.mp (by rw [ha]; rfl), ht⟩
    | noPing a ht hs ho =>
      rw [show ({ w with app := a } : World _).mainStore.entries = [] from hempty] at hin
      exact absurd hin List.not_mem_nil
  · rintro ⟨hcap, ht⟩
    obtain ⟨status, v, hv⟩ : ∃ status v, clientKeepAlive env.recording w = .ok status v := clientKeepAlive_returns w
    have hk := clientKeepAlive_ok hnow.normal hnow.secs.1 htouched he hv
    cases hk with
    | idle a hn =>
      rw [hstore] at hn
      exact absurd ht hn
    | timeout v hn hs =>
      rw [hstore] at hs
      omega
    | ping a s hn hs ho ha =>
      refine ⟨_, hv, ?_, runOnce_keptAlive hv⟩
      change pingEntry ∈ s.entries
      rw [hentries s ha]
      exact List.mem_singleton_self _
    | noPing a hn hs ho =>
      have hsome := hroom.mpr hcap
      rw [ho hping] at hsome
      contradiction

/- A connection from which the bytes of a server come. -/
def feedEnv : Env (UInt32 × List Byte) where
  message := {
    onPublish := some fun a _ => ⟨a, true, []⟩
    onPublishAllocateTopic := some fun a _ n => ⟨a, .success, { len := n, buf := some (List.replicate n 0) }⟩
    onPublishAllocatePayload := some fun a _ n => ⟨a, .success, { len := n, buf := some (List.replicate n 0) }⟩ }
  read := fun a n =>
    if a.2 = [] then ⟨a, .wouldBlock, [], 0⟩ else ⟨(a.1, a.2.drop n), .success, a.2.take n, 0⟩
  write := fun a bs => ⟨a, .success, bs.length, 0⟩
  getTime := fun a => (a, { secs := a.1.toNat })
  strRead := fun a _ _ => ⟨a, .wouldBlock, [], 0⟩
  strWrite := fun a _ _ => ⟨a, .wouldBlock, 0, 0⟩
  fuel := 64

theorem feedEnv_normal : feedEnv.ClockNormal := by
  intro a
  have ha := a.1.toNat_lt
  refine ⟨⟨?_, ?_⟩, ?_⟩ <;> simp only [feedEnv] <;> omega

/- Connects declare a keep alive of ten seconds. -/
def keepAliveHeap : Heap := { smallHeap with
  connects := fun _ => { keepAlive := 10, clientId := { len := 1, buf := some [97] } } }

/- The state behind some calls; before each, the application goes on. -/
def runCalls (env : Env σ) : List (σ × Call) → World (σ × Option Time) → Option (World (σ × Option Time))
  | [], w => some w
  | (app, c) :: cs, w =>
    let u := { w with app := (app, w.app.2) }
    if (now env.recording w).nanos ≤ (env.getTime app).2.nanos then
      match c.run env.recording u with
      | .ok _ v => if (now env.recording u).nanos ≤ (now env.recording v).nanos then runCalls env cs v else none
      | .error _ _ => none
    else none

theorem betweenCalls_runCalls (cs : List (σ × Call)) (w v : World (σ × Option Time)) (hw : BetweenCalls env w)
    (h : runCalls env cs w = some v) : BetweenCalls env v := by
  induction cs generalizing w with
  | nil =>
    cases h
    exact hw
  | cons c cs ih =>
    obtain ⟨app, c⟩ := c
    simp only [runCalls] at h
    split at h
    · rename_i hidle
      split at h
      · rename_i u hu
        split at h
        · rename_i hc
          exact ih u (.call _ u c (.idle w app hw hidle) hu hc) h
        · contradiction
      · contradiction
    · contradiction

/- The same from the start of a client. -/
def startCalls (env : Env σ) (buffers : ClientBuffers) (heap : Heap) (app : σ) (cs : List (σ × Call)) :
    Option (World (σ × Option Time)) :=
  match lmqttClientInitialize env.recording (clientCleared buffers heap (app, none)) with
  | .ok _ w => runCalls env cs w
  | .error _ _ => none

theorem betweenCalls_get (buffers : ClientBuffers) (heap : Heap) (app : σ) (cs : List (σ × Call))
    (h : (startCalls env buffers heap app cs).isSome = true) :
    BetweenCalls env ((startCalls env buffers heap app cs).get h) := by
  have hrun := (Option.some_get h).symm
  generalize (startCalls env buffers heap app cs).get h = w at hrun ⊢
  simp only [startCalls] at hrun
  split at hrun
  · rename_i v hv
    exact betweenCalls_runCalls cs v w (.start buffers heap app v hv) hrun
  · contradiction

/- The client connects in the first second. -/
def connectCalls : List ((UInt32 × List Byte) × Call) := [((1, []), .connect 0), ((1, [0x20, 2, 0, 0]), .runOnce)]

/- A message comes in the ninth second. -/
def subscriberCalls : List ((UInt32 × List Byte) × Call) :=
  connectCalls ++ [((9, [0x30, 4, 0, 1, 97, 98]), .runOnce), ((12, []), .getTimeout)]

def silentCalls : List ((UInt32 × List Byte) × Call) := connectCalls ++ [((12, []), .getTimeout)]

theorem subscriberCalls_isSome :
    (startCalls feedEnv ⟨8, 64, 64, 4⟩ keepAliveHeap (0, []) subscriberCalls).isSome = true := by decide +kernel

theorem silentCalls_isSome :
    (startCalls feedEnv ⟨8, 64, 64, 4⟩ keepAliveHeap (0, []) silentCalls).isSome = true := by decide +kernel

/- A client that has written nothing since the first second, in the twelfth. -/
structure SilentClient (w : World ((UInt32 × List Byte) × Option Time)) : Prop where
  connected : w.error = none ∧ w.currentStore = .main
  declared : w.mainStore.keepAlive = 10
  empty : w.mainStore.entries = [] ∧ w.writeBuf = []
  silent : w.app.2 = some ⟨1, 0⟩ ∧ w.app.1.1 = 12

instance (w : World ((UInt32 × List Byte) × Option Time)) : Decidable (SilentClient w) :=
  decidable_of_iff ((w.error = none ∧ w.currentStore = .main) ∧ w.mainStore.keepAlive = 10 ∧
    (w.mainStore.entries = [] ∧ w.writeBuf = []) ∧ w.app.2 = some ⟨1, 0⟩ ∧ w.app.1.1 = 12)
    ⟨fun h => ⟨h.1, h.2.1, h.2.2.1, h.2.2.2⟩, fun h => ⟨h.connected, h.declared, h.empty, h.silent⟩⟩

theorem SilentClient.now {w : World ((UInt32 × List Byte) × Option Time)} (h : SilentClient w) :
    LightMqtt.now feedEnv.recording w = ⟨12, 0⟩ := by
  change (⟨w.app.1.1.toNat, 0⟩ : Time) = ⟨12, 0⟩
  rw [h.silent.2]
  rfl

theorem SilentClient.pingDue {w : World ((UInt32 × List Byte) × Option Time)} (h : SilentClient w) :
    PingDue feedEnv w := by
  refine ⟨h.connected, ?_, h.empty, ⟨1, 0⟩, h.silent.1, ?_⟩
  · rw [h.declared]
    decide
  · rw [h.now, h.declared]
    decide

/-- The message that came in the ninth second has put off the PINGREQ. -/
theorem ping_put_off : ∃ w : World ((UInt32 × List Byte) × Option Time), feedEnv.ClockNormal ∧ BetweenCalls feedEnv w ∧
    PingDue feedEnv w ∧ 0 < w.mainStore.capacity ∧ ¬ QueuesPing feedEnv.recording w := by
  obtain ⟨w, hw, hs, hcap, hrun⟩ : ∃ w : World ((UInt32 × List Byte) × Option Time), BetweenCalls feedEnv w ∧
      SilentClient w ∧ 0 < w.mainStore.capacity ∧
      Wp (clientKeepAlive feedEnv.recording) w (fun _ v => v.mainStore.entries = []) fun _ _ => False :=
    ⟨_, betweenCalls_get _ _ _ _ subscriberCalls_isSome, by decide +kernel⟩
  refine ⟨w, feedEnv_normal, hw, hs.pingDue, hcap, ?_⟩
  rintro ⟨v, hv, hin, -⟩
  rw [wp_ok hrun hv] at hin
  exact List.not_mem_nil hin

/-- Where no message came, it is queued. -/
theorem ping_queued_silent : ∃ w : World ((UInt32 × List Byte) × Option Time), BetweenCalls feedEnv w ∧
    PingDue feedEnv w ∧ QueuesPing feedEnv.recording w := by
  obtain ⟨w, hw, hs, hcap, hlast⟩ : ∃ w : World ((UInt32 × List Byte) × Option Time), BetweenCalls feedEnv w ∧
      SilentClient w ∧ 0 < w.mainStore.capacity ∧ w.mainStore.lastTouch = ⟨1, 0⟩ :=
    ⟨_, betweenCalls_get _ _ _ _ silentCalls_isSome, by decide +kernel⟩
  refine ⟨w, hw, hs.pingDue, (ping_queued_iff feedEnv_normal w hw hs.pingDue).mpr ⟨hcap, ?_, ?_⟩⟩
  · rw [hlast]
    decide
  · rw [hlast, hs.now, hs.declared]
    decide

end LightMqtt
