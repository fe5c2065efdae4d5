import LightMqtt.Receive
import LightMqtt.Run

/-!
# From one client to another

A PUBLISH that one client encodes is decoded by another to the same message.
-/

namespace LightMqtt

open Exec

section RoundTrip
variable {τ σ : Type} {env : Env τ} {env' : Env σ} {taken : σ → ℕ → List Byte}

/-- Whatever the sizes of the buffers a PUBLISH is encoded to and whatever the pieces
its bytes arrive in, a decoder that has no packet in the works takes all of them, hands
over the message once, and answers it by its QoS. -/
theorem publish_round_trip (w : World τ) (v : World σ) (p : Ptr) (id : PacketId) (req : ℕ) (sizes : List ℕ)
    (hw : w.Publishes p id req) (hvalid : publishValidate (w.heap.publishes p) = true)
    (hm : (w.heap.publishes p).InMemory) (hcount : (w.heap.publishes p).encodeCount = 0)
    (hsilent : (w.heap.publishes p).qos = 0 → env.Silent fun _ _ => [])
    (hsizes : ((w.heap.publishes p).message id).bytes.length ≤ sizes.sum) (hfuel : 7 ≤ env.fuel)
    (ha : env'.Accepts taken) (hv : v.rx.internal = {}) (hroom : v.Room ((w.heap.publishes p).message id))
    (hfuel' : ((w.heap.publishes p).message id).bytes.length ≤ env'.fuel) :
    ∃ out w', sizes.mapM (lmqttTxBufferEncode env) w = .ok out w' ∧ (∀ r ∈ out, r.1 ≠ .error) ∧
      ∀ pieces : List (List Byte), pieces.flatten = out.flatMap (·.2) →
        ∃ v', pieces.mapM (lmqttRxBufferDecode env') v = .ok (pieces.map fun x => (.success, x.length)) v' ∧
          v'.rx.internal = {} ∧ MessageTaken env' taken ((w.heap.publishes p).message id) v v' := by
  obtain ⟨out, w', hout, hok, hbytes⟩ := wp_exists (encode_calls sizes w (hw.unhindered hm hvalid hsilent hfuel))
  rw [hw.owed hm hcount, List.take_of_length_le hsizes] at hbytes
  refine ⟨out, w', hout, hok, fun pieces hpieces => ?_⟩
  rw [hbytes] at hpieces
  have hfirst : Awaits env' taken ((w.heap.publishes p).message id) v (pieces.flatten ++ []) v := by
    rw [hpieces, List.append_nil]
    exact .first v (.refl v) hv
  obtain ⟨rs, v', hrun, rfl, hend⟩ := wp_exists (decode_calls ha (hm.valid hvalid) hroom pieces v hfirst (by
    rw [hpieces]
    exact hfuel'))
  obtain ⟨hreceived, hfresh⟩ := hend.received
  exact ⟨v', hrun, hfresh, hreceived⟩

/- A client with a PUBLISH to send, and one that waits for a packet. -/
def publishingWorld : World Unit where
  rx := { store := .main, idSet := .empty 1 }
  tx := { store := .main }
  readBufCapacity := 4
  writeBufCapacity := 4
  mainStore := { entries := [publishEntry 2 0 7 0], capacity := 1 }
  connectStore := .empty 1
  currentStore := .main
  heap := smallHeap
  app := ()

def waitingWorld : World Unit := { publishingWorld with mainStore := .empty 1 }

theorem memoryEnv_accepts : memoryEnv.Accepts fun _ _ => [] := by
  have hstr : ∀ n : ℕ, LString.Holds memoryEnv (fun _ _ => []) () { len := n, buf := some (List.replicate n 0) } n [] :=
    fun n => ⟨rfl, .inr ⟨rfl, rfl, _, rfl, List.length_replicate.ge, rfl⟩⟩
  refine ⟨⟨_, rfl, fun _ _ n => ⟨rfl, hstr n⟩⟩, ⟨_, rfl, fun _ _ n => ⟨rfl, hstr n, fun _ => ⟨rfl, ?_⟩⟩⟩,
    ⟨_, rfl, fun _ _ => ⟨rfl, rfl⟩⟩⟩
  intro h
  contradiction

/-- A message of QoS 2, in buffers of 3 and 20 bytes. -/
theorem publish_round_trip_small :
    ∃ out w', [3, 20].mapM (lmqttTxBufferEncode memoryEnv) publishingWorld = .ok out w' ∧ (∀ r ∈ out, r.1 ≠ .error) ∧
      ∀ pieces : List (List Byte), pieces.flatten = out.flatMap (·.2) →
        ∃ v', pieces.mapM (lmqttRxBufferDecode memoryEnv) waitingWorld =
            .ok (pieces.map fun x => (.success, x.length)) v' ∧
          v'.rx.internal = {} ∧ MessageTaken memoryEnv (fun _ _ => []) ⟨2, false, 7, [97], [98]⟩ waitingWorld v' := by
  have hm : (publishingWorld.heap.publishes 0).InMemory :=
    ⟨⟨rfl, by decide, .inr ⟨[97], rfl, by decide⟩⟩, ⟨rfl, by decide, .inr ⟨[98], rfl, by decide⟩⟩, by decide +kernel⟩
  have hroom : waitingWorld.Room ⟨2, false, 7, [97], [98]⟩ := ⟨fun _ => by decide, fun _ => by decide⟩
  exact publish_round_trip publishingWorld waitingWorld 0 7 0 [3, 20] ⟨rfl, rfl, rfl⟩ (by decide +kernel) hm rfl
    (fun h => by contradiction) (by decide +kernel) (by decide) memoryEnv_accepts rfl hroom (by decide +kernel)

end RoundTrip
end LightMqtt
