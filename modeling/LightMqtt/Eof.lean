import LightMqtt.Builds
import LightMqtt.KeepAlive

/-!
# The end of a stream

The end of a stream is inferred from a count of zero. Neither the encoder nor the
decoder makes one up. The calls of the connection are a ghost: the environment
notes them beside the state of the application.
-/

namespace LightMqtt

open Exec

variable {σ : Type} {env : Env σ}

/-! ### The encoder -/

/- An encoder that has more to write has filled some of its room. -/
theorem encodeBufferEncode_continues (w : World σ) (builder : Value → Prog σ (List Byte)) (v : Value) (offset bufLen : ℕ)
    (hb : 0 < bufLen) : Wp (encodeBufferEncode env builder v offset bufLen) w (fun r _ => r.1 = .continue → r.2 ≠ [])
      fun _ _ => True := by
  have hcut : ∀ {l : List Byte}, bufLen < l.length - offset → (l.drop offset).take bufLen ≠ [] := by
    intro l hl hnil
    have hlen := congrArg List.length hnil
    simp only [List.length_take, List.length_drop, List.length_nil] at hlen
    omega
  simp only [encodeBufferEncode, setEncodeBuffer, wp_bind, wp_get, wp_ite, wp_modify, wp_assert, wp_pure]
  split
  · refine (wp_true _ _).mono (fun _ t _ => ?_) fun _ _ _ => trivial
    split
    · split
      · rename_i hl
        exact fun _ => hcut hl
      · simp
    · trivial
  · split
    · split
      · rename_i hl
        exact fun _ => hcut hl
      · simp
    · trivial

theorem stringEncode_continues (w : World σ) (r : StrRef) (encodeLen encodeIfEmpty : Bool) (offset bufLen : ℕ)
    (hb : 0 < bufLen) : Wp (stringEncode env r encodeLen encodeIfEmpty offset bufLen) w
      (fun x _ => x.1 = .continue → x.2 ≠ []) fun _ _ => True := by
  have hres : ∀ lenBytes remaining res bytes osError t,
      Wp (stringEncodeResult env r lenBytes remaining res bytes osError) t
        (fun x _ => x.1 = .continue → x.2 ≠ []) fun _ _ => True := by
    intro lenBytes remaining res bytes osError t
    simp only [stringEncodeResult, wp_bind, wp_modify, wp_assert, wp_ite, wp_pure]
    split
    · split
      · simp
      · split
        · simp
        · split
          · rename_i hpos
            rw [Bool.and_eq_true, decide_eq_true_eq, decide_eq_true_eq, List.length_pos_iff] at hpos
            intro _ hnil
            exact hpos.2 (List.append_eq_nil_iff.mp hnil).2
          · simp
    · trivial
  have hdata : ∀ lenBytes offsetStr room t, Wp (stringEncodeData env r lenBytes offsetStr room) t
      (fun x _ => x.1 = .continue → x.2 ≠ []) fun _ _ => True := by
    intro lenBytes offsetStr room t
    simp only [stringEncodeData, wp_bind, wp_get]
    apply wp_if
    · intro _
      refine (wp_bind ..).mpr ((wp_true _ _).mono (fun _ u _ => ?_) fun _ _ _ => trivial)
      exact (wp_bind ..).mpr ((wp_true _ _).mono (fun x v _ => hres _ _ _ _ _ v) fun _ _ _ => trivial)
    · intro _
      exact (wp_bind ..).mpr ((wp_true _ _).mono (fun x v _ => hres _ _ _ _ _ v) fun _ _ _ => trivial)
  simp only [stringEncode, wp_bind, wp_get, wp_modify]
  apply wp_if
  · simp
  intro _
  apply wp_if
  · omega
  intro _
  apply wp_assert_bind
  · intro _
    apply wp_if
    · intro hfull
      simp only [Bool.and_eq_true, Bool.not_eq_true', List.isEmpty_eq_false_iff] at hfull
      exact fun _ => hfull.1.2
    · exact fun _ => hdata _ _ _ _
  · intro _
    trivial

theorem runEncoder_continues (w : World σ) (v : Value) (offset bufLen : ℕ) (encoder : Encoder) (hb : 0 < bufLen) :
    Wp (runEncoder env v offset bufLen encoder) w (fun r _ => r.1 = .continue → r.2 ≠ []) fun _ _ => True := by
  cases encoder
  case subscribeTopic =>
    simp only [runEncoder, wp_bind, wp_get]
    exact stringEncode_continues w _ _ _ offset bufLen hb
  all_goals first | exact encodeBufferEncode_continues w _ v offset bufLen hb |
    exact stringEncode_continues w _ _ _ offset bufLen hb

/- While nothing is written yet there is room. -/
theorem txBufferEncodeLoop_success (fuel : ℕ) (cur : Option Entry) (bufLen : ℕ) (out : List Byte) (w : World σ)
    (hb : out = [] → 0 < bufLen) : Wp (txBufferEncodeLoop env fuel cur bufLen out) w
      (fun r v => r = (.success, []) → v.tx.closed = true) fun _ _ => True := by
  induction fuel generalizing cur bufLen out w with
  | zero => trivial
  | succ fuel ih =>
    have hexit : Wp (txBufferExit out) w (fun r v => r = (.success, []) → v.tx.closed = true) fun _ _ => True := by
      change (_ = (IoResult.success, ([] : List Byte)) → w.tx.closed = true)
      intro hr
      obtain ⟨hres, rfl⟩ := Prod.mk.inj hr
      by_contra hn
      simp [hn] at hres
    cases cur with
    | none =>
      simp only [txBufferEncodeLoop, wp_bind, wp_get]
      apply wp_if
      · exact fun _ => hexit
      · intro _
        split
        · exact hexit
        · exact ih _ _ _ w hb
    | some e =>
      simp only [txBufferEncodeLoop, wp_bind]
      refine (wp_true _ _).mono (fun found t _ => ?_) fun _ _ h => h
      cases found with
      | none =>
        simp only [wp_bind]
        refine (wp_true _ _).mono (fun ok u _ => ?_) fun _ _ h => h
        cases ok with
        | true => exact ih none bufLen out u hb
        | false => simp
      | some encoder =>
        simp only [wp_bind, wp_get, wp_emit]
        have hrun : Wp (runEncoder env e.value t.tx.internal.offset bufLen encoder)
            (t.emit (.encode e.kind e.value.packetId e.value.req t.tx.internal.pos))
            (fun r _ => out = [] → r.1 = .continue → r.2 ≠ []) fun _ _ => True := by
          by_cases hout : out = []
          · exact (runEncoder_continues _ e.value _ bufLen encoder (hb hout)).mono (fun _ _ h _ => h) fun _ _ h => h
          · exact (wp_true _ _).mono (fun _ _ _ h => absurd h hout) fun _ _ h => h
        refine hrun.mono (fun r u hu => ?_) fun _ _ h => h
        obtain ⟨res, bytes⟩ := r
        cases res with
        | wouldBlock => simp
        | «continue» =>
          simp only [wp_bind, wp_modify, wp_pure, Prod.mk.injEq, true_and, List.append_eq_nil_iff]
          rintro ⟨hout, hbytes⟩
          exact absurd hbytes (hu hout rfl)
        | error => simp [txBufferFail]
        | finished =>
          simp only [wp_bind, wp_modify]
          apply ih
          intro hnil
          obtain ⟨hout, hbytes⟩ := List.append_eq_nil_iff.mp hnil
          rw [hbytes]
          exact hb hout

/- A call that has room writes something, unless the encoder is closed. -/
theorem lmqttTxBufferEncode_success {w v : World σ} {bufLen : ℕ} (hb : 0 < bufLen)
    (h : lmqttTxBufferEncode env bufLen w = .ok (.success, []) v) : v.tx.closed = true := by
  have h := ok_get_bind h
  rcases ok_ite h with ⟨-, h⟩ | ⟨-, h⟩
  · cases (ok_pure h).1
  · exact wp_ok (txBufferEncodeLoop_success env.fuel none bufLen [] w fun _ => hb) h rfl

/-! ### The calls of the connection -/

inductive SocketCall
  | read (result : IoResult) (count : ℕ)
  | write (result : IoResult) (count : ℕ)
  deriving DecidableEq, Repr

/-- The environment that notes, beside the application, the calls of the callbacks
of the connection, the newest first. -/
def Env.noting (env : Env σ) : Env (σ × List SocketCall) where
  onConnect := env.onConnect.map fun f a p ok => (f a.1 p ok).beside a.2
  onSubscribe := env.onSubscribe.map fun f a p ok => (f a.1 p ok).beside a.2
  onUnsubscribe := env.onUnsubscribe.map fun f a p ok => (f a.1 p ok).beside a.2
  onPublish := env.onPublish.map fun f a p ok => (f a.1 p ok).beside a.2
  message := {
    onPublish := env.message.onPublish.map fun f a m => (f a.1 m).beside a.2
    onPublishAllocateTopic := env.message.onPublishAllocateTopic.map fun f a m n => (f a.1 m n).beside a.2
    onPublishAllocatePayload := env.message.onPublishAllocatePayload.map fun f a m n => (f a.1 m n).beside a.2
    onPublishDeallocate := env.message.onPublishDeallocate.map fun f a m => (f a.1 m, a.2) }
  read := fun a n =>
    let r := env.read a.1 n
    r.beside (.read r.result r.bytes.length :: a.2)
  write := fun a bs =>
    let r := env.write a.1 bs
    r.beside (.write r.result r.count :: a.2)
  getTime := fun a => (((env.getTime a.1).1, a.2), (env.getTime a.1).2)
  strRead := fun a d n => (env.strRead a.1 d n).beside a.2
  strWrite := fun a d bs => (env.strWrite a.1 d bs).beside a.2
  ndebug := env.ndebug
  fuel := env.fuel

/- No other callback touches the notes. -/
theorem noting_calls {a b : σ × List SocketCall} (h : env.noting.CallsBack a b) : b.2 = a.2 := by
  cases h with
  | connect f p ok h | subscribe f p ok h | unsubscribe f p ok h | publish f p ok h =>
    obtain ⟨g, -, rfl⟩ := Option.map_eq_some_iff.mp h
    rfl
  | message f b h | deallocate f b h =>
    obtain ⟨g, -, rfl⟩ := Option.map_eq_some_iff.mp h
    rfl
  | allocate part f b n h =>
    cases part
    all_goals
      obtain ⟨g, -, rfl⟩ := Option.map_eq_some_iff.mp h
      rfl
  | read d n | write d bs | time => rfl

/- The run from `w` to `v` has called the connection, with this answer. -/
def NotedSince (w v : World (σ × List SocketCall)) (c : SocketCall) : Prop :=
  ∃ cs, v.app.2 = cs ++ w.app.2 ∧ c ∈ cs

/- The encoder was closed at `w`, or a DISCONNECT was encoded since. -/
def ClosedSince {τ : Type} (w v : World τ) : Prop :=
  w.tx.closed = true ∨ ∃ evs, v.log = evs ++ w.log ∧ ∃ id req, .encoded .disconnect id req ∈ evs

/-- Notes and log only grow. -/
structure Later (w v : World (σ × List SocketCall)) : Prop where
  notes : ∃ cs, v.app.2 = cs ++ w.app.2
  log : ∃ evs, v.log = evs ++ w.log

/-- The same, for the part of a call in which the encoder is closed by nothing but
a DISCONNECT. -/
structure Since (w v : World (σ × List SocketCall)) : Prop extends Later w v where
  closed : v.tx.closed = true → ClosedSince w v

section Since
variable {w u v : World (σ × List SocketCall)}

theorem Later.refl (w : World (σ × List SocketCall)) : Later w w := ⟨⟨[], rfl⟩, [], rfl⟩

theorem Later.trans (h : Later w u) (h' : Later u v) : Later w v := by
  obtain ⟨⟨cs, hc⟩, evs, hl⟩ := h
  obtain ⟨⟨cs', hc'⟩, evs', hl'⟩ := h'
  exact ⟨⟨cs' ++ cs, by rw [hc', hc, List.append_assoc]⟩, evs' ++ evs, by rw [hl', hl, List.append_assoc]⟩

theorem NotedSince.later {c : SocketCall} (h : NotedSince w u c) (h' : Later u v) : NotedSince w v c := by
  obtain ⟨cs, hc, hm⟩ := h
  obtain ⟨cs', hc'⟩ := h'.notes
  exact ⟨cs' ++ cs, by rw [hc', hc, List.append_assoc], List.mem_append_right _ hm⟩

theorem ClosedSince.later (h : ClosedSince w u) (h' : Later u v) : ClosedSince w v := by
  apply h.imp_right
  rintro ⟨evs, hl, id, req, hm⟩
  obtain ⟨evs', hl'⟩ := h'.log
  exact ⟨evs' ++ evs, by rw [hl', hl, List.append_assoc], id, req, List.mem_append_right _ hm⟩

theorem Since.refl (w : World (σ × List SocketCall)) : Since w w := ⟨.refl w, .inl⟩

/- What is noted since `u` is noted since `w`. -/
theorem Later.noted {c : SocketCall} (h : Later w u) (h' : NotedSince u v c) : NotedSince w v c := by
  obtain ⟨cs, hc⟩ := h.notes
  obtain ⟨cs', hc', hm⟩ := h'
  exact ⟨cs' ++ cs, by rw [hc', hc, List.append_assoc], List.mem_append_left _ hm⟩

theorem Since.closedSince (h : Since w u) (h' : ClosedSince u v) (hl : Later u v) : ClosedSince w v := by
  rcases h' with hc | ⟨evs', hl', id, req, hm⟩
  · exact (h.closed hc).later hl
  · obtain ⟨evs, hl⟩ := h.log
    exact .inr ⟨evs' ++ evs, by rw [hl', hl, List.append_assoc], id, req, List.mem_append_left _ hm⟩

theorem Since.trans (h : Since w u) (h' : Since u v) : Since w v :=
  ⟨h.toLater.trans h'.toLater, fun hc => h.closedSince (h'.closed hc) h'.toLater⟩

/- Steps that touch neither the application nor the encoder. -/
theorem Since.quiet (h : Since w u) (ha : v.app.2 = u.app.2) (hc : v.tx.closed = u.tx.closed)
    (hl : ∃ evs, v.log = evs ++ u.log) : Since w v :=
  h.trans ⟨⟨⟨[], ha⟩, hl⟩, fun h => .inl (hc.symm.trans h)⟩

end Since

theorem since_observes (w : World (σ × List SocketCall)) : env.noting.Observes (Since w) := by
  constructor
  · intro u v hu ha hc hl
    exact hu.quiet (congrArg Prod.snd ha) hc hl
  · intro u a hu ha
    exact hu.quiet (noting_calls ha) rfl ⟨[], rfl⟩
  · intro u hu
    exact hu.trans ⟨⟨⟨[], rfl⟩, [], rfl⟩, fun h => by contradiction⟩
  · intro u id req hu
    exact hu.trans ⟨⟨⟨[], rfl⟩, [_], rfl⟩, fun _ => .inr ⟨[_], rfl, id, req, List.mem_singleton_self _⟩⟩

theorem later_observes (w : World (σ × List SocketCall)) : env.noting.Observes (Later w) := by
  constructor
  · intro u v hu ha _ hl
    exact hu.trans ⟨⟨[], congrArg Prod.snd ha⟩, hl⟩
  · intro u a hu ha
    exact hu.trans ⟨⟨[], noting_calls ha⟩, [], rfl⟩
  · intro u hu
    exact hu.trans ⟨⟨[], rfl⟩, [], rfl⟩
  · intro u id req hu
    exact hu.trans ⟨⟨[], rfl⟩, [_], rfl⟩

/-! ### Transfers -/

section Transfers
variable {w u v : World (σ × List SocketCall)}

theorem encode_since {bufLen : ℕ} {r : IoResult × List Byte} (h : lmqttTxBufferEncode env.noting bufLen u = .ok r v) :
    Since u v := by
  have hn : env.noting.ndebug = true → env.noting.ndebug = true := id
  have ho : env.noting.Observes (Since u) := since_observes u
  exact (lmqttTxBufferEncode_simulates hn ho (.refl u) bufLen r v h).2

theorem decode_since {bs : List Byte} {r : IoResult × ℕ} (h : lmqttRxBufferDecode env.noting bs u = .ok r v) :
    Since u v := by
  have hn : env.noting.ndebug = true → env.noting.ndebug = true := id
  have ho : env.noting.Observes (Since u) := since_observes u
  exact (lmqttRxBufferDecode_simulates hn ho rfl (.refl u) bs r v h).2

theorem setStateInitial_later (h : clientSetStateInitial env.noting u = .ok () v) : Later u v := by
  have ho : env.noting.Observes (Later u) := later_observes u
  have hf : ∀ x : World (σ × List SocketCall), Later u x → Later u x.finishTx :=
    fun x hx => ⟨hx.notes, hx.log⟩
  exact (clientSetStateInitial_simulates (n := env.ndebug) ho hf (.refl u) () v h).2

theorem setBuf_since (h : Since w u) (d : Direction) (bs : List Byte) : Since w (u.setBuf d bs) := by
  cases d <;> exact h.quiet rfl rfl ⟨[], rfl⟩

/- Why a side of a transfer is at the end of its stream. -/
def FillEof (w v : World (σ × List SocketCall)) : Direction → Prop
  | .input => NotedSince w v (.read .success 0)
  | .output => ClosedSince w v

def DrainEof (w v : World (σ × List SocketCall)) : Direction → Prop
  | .input => False
  | .output => NotedSince w v (.write .success 0)

theorem FillEof.since {d : Direction} (h : FillEof w u d) (h' : Since u v) : FillEof w v d := by
  cases d with
  | input => exact NotedSince.later h h'.toLater
  | output => exact ClosedSince.later h h'.toLater

theorem DrainEof.since {d : Direction} (h : DrainEof w u d) (h' : Since u v) : DrainEof w v d := by
  cases d with
  | input => exact h
  | output => exact NotedSince.later h h'.toLater

theorem fillWrapper_eof {d : Direction} {len : ℕ} {m : Moved} (hl : 0 < len)
    (h : fillWrapper env.noting d len u = .ok m v) :
    Since u v ∧ (m.result = .success → m.count = 0 → FillEof u v d) := by
  cases d with
  | input =>
    change clientWrapperRead env.noting len u = _ at h
    have h := ok_get_bind h
    have h := ok_set_bind h
    obtain ⟨rfl, rfl⟩ := ok_pure h
    refine ⟨⟨⟨⟨[_], rfl⟩, [], rfl⟩, .inl⟩, fun hr hc => ⟨[_], rfl, ?_⟩⟩
    change (env.read u.app.1 len).result = .success at hr
    change (env.read u.app.1 len).bytes.length = 0 at hc
    rw [hr, hc]
    exact List.mem_singleton_self _
  | output =>
    obtain ⟨⟨result, bytes⟩, x, hx, h⟩ := ok_bind h
    have h := ok_get_bind h
    obtain ⟨rfl, rfl⟩ := ok_pure h
    have hs := encode_since hx
    refine ⟨hs, fun hr hc => ?_⟩
    change result = .success at hr
    rw [hr, List.length_eq_zero_iff.mp hc] at hx
    exact hs.closed (lmqttTxBufferEncode_success hl hx)

theorem drainWrapper_eof {d : Direction} {bs : List Byte} {m : Moved} (hn : bs ≠ [])
    (h : drainWrapper env.noting d bs u = .ok m v) :
    Since u v ∧ (m.result = .success → m.count = 0 → DrainEof u v d) := by
  cases d with
  | input =>
    obtain ⟨⟨result, count⟩, x, hx, h⟩ := ok_bind h
    have h := ok_get_bind h
    obtain ⟨rfl, rfl⟩ := ok_pure h
    refine ⟨decode_since hx, fun hr hc => ?_⟩
    have hpos := ((wp_ok (lmqttRxBufferDecode_answer u bs hn) hx).1 hr).1
    change count = 0 at hc
    change 0 < count at hpos
    omega
  | output =>
    change clientWrapperWrite env.noting bs u = _ at h
    have h := ok_get_bind h
    have h := ok_set_bind h
    obtain ⟨rfl, rfl⟩ := ok_pure h
    refine ⟨⟨⟨⟨[_], rfl⟩, [], rfl⟩, .inl⟩, fun hr hc => ⟨[_], rfl, ?_⟩⟩
    change (env.write u.app.1 bs).result = .success at hr
    change (env.write u.app.1 bs).count = 0 at hc
    rw [hr, hc]
    exact List.mem_singleton_self _

/- What the loop of a transfer that started at `w` keeps. -/
structure Unforged (w : World (σ × List SocketCall)) (d : Direction) (input output : Transfer)
    (v : World (σ × List SocketCall)) : Prop where
  since : Since w v
  fill : input.isEof = true → FillEof w v d
  drain : output.isEof = true → DrainEof w v d

theorem Since.fill {d : Direction} (h : Since w u) (h' : FillEof u v d) (hl : Since u v) : FillEof w v d := by
  cases d with
  | input => exact h.toLater.noted h'
  | output => exact h.closedSince h' hl.toLater

theorem Since.drain {d : Direction} (h : Since w u) (h' : DrainEof u v d) : DrainEof w v d := by
  cases d with
  | input => exact h'
  | output => exact h.toLater.noted h'

theorem moved_isEof {t : Transfer} {m : Moved} (h : (t.moved m).isEof = true) : m.result = .success ∧ m.count = 0 := by
  simpa [Transfer.isEof, Transfer.moved] using h

theorem Unforged.fills {d : Direction} {input input' output : Transfer} (hu : Unforged w d input output u)
    (h : transferFill env.noting d input u = .ok (input', true) v) : Unforged w d input' output v := by
  rcases transferFill_ok h with ⟨-, hroom, m, x, hm, -, rfl, rfl⟩ | ⟨-, rfl, rfl⟩
  · obtain ⟨hs, hf⟩ := fillWrapper_eof (by omega) hm
    have hv := setBuf_since hs d (x.buf d ++ m.bytes)
    have hx := setBuf_since (.refl x) d (x.buf d ++ m.bytes)
    refine ⟨hu.since.trans hv, fun he => ?_, fun he => (hu.drain he).since hv⟩
    obtain ⟨hr, hc⟩ := moved_isEof he
    exact hu.since.fill ((hf hr hc).since hx) hv
  · exact ⟨hu.since, hu.fill, hu.drain⟩

theorem Unforged.drains {d : Direction} {input output output' : Transfer} (hu : Unforged w d input output u)
    (h : transferDrain env.noting d output u = .ok (output', true) v) : Unforged w d input output' v := by
  rcases transferDrain_ok h with ⟨-, hn, m, x, hm, -, rfl, rfl⟩ | ⟨-, rfl, rfl⟩
  · obtain ⟨hs, hf⟩ := drainWrapper_eof hn hm
    have hv := setBuf_since hs d ((x.buf d).drop m.count)
    have hx := setBuf_since (.refl x) d ((x.buf d).drop m.count)
    refine ⟨hu.since.trans hv, fun he => (hu.fill he).since hv, fun he => ?_⟩
    obtain ⟨hr, hc⟩ := moved_isEof he
    exact hu.since.drain ((hf hr hc).since hx)
  · exact ⟨hu.since, hu.fill, hu.drain⟩

theorem bufferTransferLoop_unforged {d : Direction} {P : World (σ × List SocketCall) → Prop} {fuel : ℕ}
    {input output : Transfer} (hw : Fine env.noting P w)
    (h : bufferTransferLoop env.noting d fuel {} {} w = .ok (some (input, output)) v) :
    Unforged w d input output v := by
  have hstart : Unforged w d {} {} w :=
    ⟨.refl w, fun h => absurd h (by decide), fun h => absurd h (by decide)⟩
  have hrun := bufferTransferLoop_run (H := Unforged w d) (M := Unforged w d)
    (fun _ hu hf => hu.fills hf) (fun _ hu hd => hu.drains hd) fuel hw hstart h
  exact hrun.2.1

theorem transferred_since (w : World (σ × List SocketCall)) (input output : Transfer) :
    Since w (w.transferred env.noting input output) := by
  unfold World.transferred
  split
  · apply (Since.refl w).quiet
    · rfl
    · change (w.setStore w.currentStore _).tx.closed = _
      rw [World.setStore_tx]
    · exact ⟨[], World.setStore_log ..⟩
  · exact .refl w

/- The two reasons for the end of a transfer. -/
def TransferEof (w v : World (σ × List SocketCall)) (d : Direction) : Prop := FillEof w v d ∨ DrainEof w v d

theorem clientBufferTransfer_eof {d : Direction} {P : World (σ × List SocketCall) → Prop} {status : IoStatus}
    (hw : Fine env.noting P w) (h : clientBufferTransfer env.noting d w = .ok status v) :
    (status = .ready → TransferEof w v d ∧ Later w v) ∧ (status ≠ .ready → status ≠ .error → Since w v) := by
  cases clientBufferTransfer_ok hw h with
  | failed x v hl he => exact ⟨fun h => by contradiction, fun _ h => absurd rfl h⟩
  | eof input output x v hl he hi =>
    have hu := bufferTransferLoop_unforged hw hl
    have ht : Since x (x.transferred env.noting input output) := transferred_since x input output
    have hlater := ht.toLater.trans (setStateInitial_later hi)
    refine ⟨fun _ => ⟨?_, hu.since.toLater.trans hlater⟩, fun h => absurd rfl h⟩
    rw [Bool.or_eq_true] at he
    cases d with
    | input =>
      rcases he with he | he
      · exact .inl (NotedSince.later (hu.fill he) hlater)
      · exact (hu.drain he).elim
    | output =>
      rcases he with he | he
      · exact .inl (ClosedSince.later (hu.fill he) hlater)
      · exact .inr (NotedSince.later (hu.drain he) hlater)
  | blocked input output x status hl he hs =>
    refine ⟨fun h => absurd (hs.symm.trans h) (d.status_blocks _).2, fun _ _ => ?_⟩
    exact (bufferTransferLoop_unforged hw hl).since.trans (transferred_since x input output)

end Transfers

/-! ### `lmqtt_client_run_once` -/

section RunOnce
variable {P : World (σ × List SocketCall) → Prop} {w u v : World (σ × List SocketCall)}

theorem errorResult_notEof {τ : Type} (x : World τ) : isEof (errorResult x) = false := by
  have h : errorResult x &&& resEof = 0 := by
    rw [errorResult, Nat.and_assoc]
    exact Nat.and_zero _
  simp [isEof, h]

theorem currentTimeout_since (w : World (σ × List SocketCall)) :
    Wp (currentTimeout env.noting) w (fun _ v => Since w v) fun _ _ => False := by
  simp only [currentTimeout, wp_bind, wp_get]
  apply wp_if
  · exact fun _ => (Since.refl w).quiet rfl rfl ⟨[], rfl⟩
  · exact fun _ => .refl w

theorem lmqttClientPingreq_since (w : World (σ × List SocketCall)) :
    Wp lmqttClientPingreq w (fun _ v => Since w v) fun _ _ => False := by
  simp only [lmqttClientPingreq, wp_bind, wp_get]
  apply wp_if
  · intro _
    simp only [clientDoPingreq, wp_bind, wp_get]
    split
    · exact .refl w
    · exact (Since.refl w).quiet rfl rfl ⟨[], rfl⟩
  · exact fun _ => .refl w

theorem clientKeepAlive_since (w : World (σ × List SocketCall)) :
    Wp (clientKeepAlive env.noting) w (fun status v => status ≠ .error → Since w v) fun _ _ => True := by
  simp only [clientKeepAlive, wp_bind, wp_get]
  apply wp_if
  · exact fun _ h => absurd rfl h
  · intro _
    refine (wp_bind ..).mpr ((currentTimeout_since w).mono (fun r u hu => ?_) fun _ _ h => h.elim)
    apply wp_if
    · exact fun _ _ => hu
    intro _
    apply wp_if
    · intro _
      simp only [wp_bind, wp_modify]
      exact (wp_true _ _).mono (fun _ _ _ h => absurd rfl h) fun _ _ h => h
    · intro _
      refine (wp_bind ..).mpr ((lmqttClientPingreq_since u).mono (fun _ v hv => ?_) fun _ _ h => h.elim)
      exact fun _ => hu.trans hv

/- What the result of a part of a call says: it ends the stream for a reason, or
   it goes on with flags that do not. -/
def ProcessEof (w v : World (σ × List SocketCall)) (d : Direction) (connVal returnVal : ℕ) (go : Bool) (res : ℕ) : Prop :=
  (go = false → isEof res = true → res = resEof ||| connVal ∧ TransferEof w v d ∧ Later w v) ∧
    (go = true → Since w v ∧ (isEof returnVal = false → isEof res = false))

theorem isEof_or (a b : ℕ) : isEof (a ||| b) = (isEof a || isEof b) := by
  simp only [isEof, Nat.and_or_distrib_right]
  by_cases ha : a &&& resEof = 0 <;> by_cases hb : b &&& resEof = 0 <;> simp [ha, hb]

theorem clientProcessBuffer_eof {d : Direction} {connVal dataVal rv res : ℕ} {go : Bool}
    {blkStr : World (σ × List SocketCall) → Option StrRef} {str : Option StrRef} (hw : Reached env.noting P w)
    (hconn : isEof connVal = false) (hdata : isEof dataVal = false)
    (h : clientProcessBuffer env.noting (clientBufferTransfer env.noting d) connVal dataVal blkStr rv w =
      .ok (go, res, str) v) : ProcessEof w v d connVal rv go res := by
  obtain ⟨status, x, hs, h⟩ := ok_bind h
  have hend : status ≠ .error → (status = .ready → TransferEof w x d ∧ Later w x) ∧ (status ≠ .ready → Since w x) := by
    intro hne
    rcases transferEnd_fine hw hs with ⟨he, -⟩ | ⟨hf, -⟩
    · exact absurd he hne
    · obtain ⟨hready, hgo⟩ := clientBufferTransfer_eof hf hs
      exact ⟨hready, fun hr => hgo hr hne⟩
  cases status with
  | ready =>
    obtain ⟨he, rfl⟩ := ok_pure h
    cases he
    exact ⟨fun _ _ => ⟨rfl, (hend (by decide)).1 rfl⟩, fun h => by contradiction⟩
  | error =>
    have h := ok_get_bind h
    obtain ⟨_, y, -, h⟩ := ok_bind h
    have h := ok_get_bind h
    obtain ⟨he, rfl⟩ := ok_pure h
    cases he
    refine ⟨fun _ he => ?_, fun h => by contradiction⟩
    rw [errorResult_notEof] at he
    contradiction
  | blockConn =>
    obtain ⟨he, rfl⟩ := ok_pure h
    cases he
    refine ⟨fun h => by contradiction, fun _ => ⟨(hend (by decide)).2 (by decide), fun hrv => ?_⟩⟩
    rw [isEof_or, hrv, hconn]
    rfl
  | blockData =>
    have h := ok_get_bind h
    obtain ⟨he, rfl⟩ := ok_pure h
    cases he
    refine ⟨fun h => by contradiction, fun _ => ⟨(hend (by decide)).2 (by decide), fun hrv => ?_⟩⟩
    split
    · rw [isEof_or, hrv, hdata]
      rfl
    · exact hrv

/-- The result names a side of the connection, and that side is at its end. -/
def EofNamed (w v : World (σ × List SocketCall)) (res : ℕ) : Prop :=
  res = resEof ||| resWouldBlockConnRd ∧ NotedSince w v (.read .success 0) ∨
    res = resEof ||| resWouldBlockConnWr ∧ (NotedSince w v (.write .success 0) ∨ ClosedSince w v)

theorem EofNamed.since {res : ℕ} (hu : Since w u) (h : EofNamed u v res) (hl : Later u v) : EofNamed w v res := by
  rcases h with ⟨hr, hn⟩ | ⟨hr, hn | hc⟩
  · exact .inl ⟨hr, hu.toLater.noted hn⟩
  · exact .inr ⟨hr, .inl (hu.toLater.noted hn)⟩
  · exact .inr ⟨hr, .inr (hu.closedSince hc hl)⟩

theorem runOnceLoop_eof (fuel : ℕ) {res : ℕ} {strRd strWr : Option StrRef} (hw : Reached env.noting P w)
    (h : runOnceLoop env.noting fuel w = .ok (res, strRd, strWr) v) (he : isEof res = true) :
    EofNamed w v res ∧ Later w v := by
  induction fuel generalizing w with
  | zero => contradiction
  | succ fuel ih =>
    obtain ⟨⟨go, output, strRd'⟩, u, hout, h⟩ := ok_bind h
    have hpo := clientProcessBuffer_eof hw (by decide) (by decide) hout
    have hu := wp_ok (clientProcessBuffer_reached w _ _ _ _ _ (clientBufferTransfer_reached w hw .output)) hout
    cases go with
    | false =>
      obtain ⟨hr, rfl⟩ := ok_pure h
      cases hr
      obtain ⟨hname, heof, hl⟩ := hpo.1 rfl he
      exact ⟨.inr ⟨hname, heof.symm⟩, hl⟩
    | true =>
      obtain ⟨hwu, ho⟩ := hpo.2 rfl
      have h := ok_get_bind h
      obtain ⟨⟨go, input, strWr'⟩, x, hin, h⟩ := ok_bind h
      have hpi := clientProcessBuffer_eof hu (by decide) (by decide) hin
      have hx := wp_ok (clientProcessBuffer_reached u _ _ _ _ _ (clientBufferTransfer_reached u hu .input)) hin
      cases go with
      | false =>
        obtain ⟨hr, rfl⟩ := ok_pure h
        cases hr
        obtain ⟨hname, heof, hl⟩ := hpi.1 rfl he
        exact ⟨.inl ⟨hname, hwu.toLater.noted (heof.resolve_right id)⟩, hwu.toLater.trans hl⟩
      | true =>
        obtain ⟨hux, hi⟩ := hpi.2 rfl
        have hwx := hwu.trans hux
        have h := ok_get_bind h
        rcases ok_ite h with ⟨-, h⟩ | ⟨-, h⟩
        · obtain ⟨hn, hl⟩ := ih hx h
          exact ⟨hn.since hwx hl, hwx.toLater.trans hl⟩
        · obtain ⟨hr, rfl⟩ := ok_pure h
          cases hr
          -- a pass that goes on leaves no such flag
          have hinput : isEof input = false := hi (ho (by decide))
          split at he
          · rw [isEof_or, hinput] at he
            contradiction
          · rw [hinput] at he
            contradiction

/-- The encoder and the decoder never make up the end of a stream, so
`lmqtt_client_run_once` reports one only where the connection is at its end or the
encoder is closed. -/
theorem no_spurious_eof (w : World (σ × List SocketCall)) (hw : Reached env.noting P w) :
    (∀ bufLen v, 0 < bufLen → lmqttTxBufferEncode env.noting bufLen w = .ok (.success, []) v →
      v.tx.closed = true ∧ ClosedSince w v) ∧
    (∀ bs v, bs ≠ [] → lmqttRxBufferDecode env.noting bs w ≠ .ok (.success, 0) v) ∧
    ∀ res strRd strWr v, lmqttClientRunOnce env.noting w = .ok (res, strRd, strWr) v → isEof res = true →
      EofNamed w v res := by
  refine ⟨fun bufLen v hb h => ?_, fun bs v hn h => ?_, fun res strRd strWr v h he => ?_⟩
  · have hc := lmqttTxBufferEncode_success hb h
    exact ⟨hc, (encode_since h).closed hc⟩
  · have hpos := ((wp_ok (lmqttRxBufferDecode_answer w bs hn) h).1 rfl).1
    exact absurd hpos (by decide)
  · obtain ⟨status, x, hk, h⟩ := ok_bind h
    have hx := wp_ok (clientKeepAlive_reached w hw) hk
    have hs := wp_ok (clientKeepAlive_since w) hk
    cases status with
    | error =>
      have h := ok_get_bind h
      obtain ⟨_, y, -, h⟩ := ok_bind h
      have h := ok_get_bind h
      obtain ⟨hr, -⟩ := ok_pure h
      cases hr
      rw [errorResult_notEof] at he
      contradiction
    | ready | blockConn | blockData =>
      obtain ⟨hn, hl⟩ := runOnceLoop_eof _ hx h he
      exact hn.since (hs (by decide)) hl

end RunOnce

/- The server has closed the connection. -/
def closedEnv : Env Unit := { memoryEnv with read := fun a _ => ⟨a, .success, [], 0⟩ }

theorem closedRun_isSome : (runClient closedEnv.noting anyConnect ⟨8, 64, 64, 4⟩ smallHeap ((), [])
    [.connect 0, .encode 64, .decode [0x20, 2, 0, 0]]).isSome = true := by decide +kernel

/-- The client reads the end of the stream, and says so. -/
theorem no_spurious_eof_read : ∃ w v : World (Unit × List SocketCall), Reached closedEnv.noting (fun _ => True) w ∧
    EofNamed w v (resEof ||| resWouldBlockConnRd) := by
  obtain ⟨w, hw, hrun⟩ : ∃ w, Reached closedEnv.noting (fun _ => True) w ∧
      Wp (lmqttClientRunOnce closedEnv.noting) w (fun r _ => r.1 = resEof ||| resWouldBlockConnRd) fun _ _ => False :=
    ⟨_, reached_get anyConnect_true _ _ _ _ closedRun_isSome, by decide +kernel⟩
  obtain ⟨⟨res, strRd, strWr⟩, v, hrun, hres⟩ := wp_exists hrun
  have hres : res = resEof ||| resWouldBlockConnRd := hres
  refine ⟨w, v, hw, ?_⟩
  rw [← hres]
  apply (no_spurious_eof w hw).2.2 res strRd strWr v hrun
  rw [hres]
  decide

end LightMqtt
