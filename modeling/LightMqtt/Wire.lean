import LightMqtt.Base.Prefixed
import LightMqtt.HeaderCodec
import LightMqtt.Receive

/-!
# Packets on the wire

The bytes of the packet of an entry whose strings are in memory, and the call of
the encoder that sends them.
-/

namespace LightMqtt

open Exec

variable {σ : Type} {env : Env σ}

/-! ### Packets -/

/- The bytes of a field whose string is in memory. -/
def Field.bytes (str : StrRef → LString) : Field → List Byte
  | .header bytes => bytes
  | .str r el ie =>
    if (str r).len = 0 ∧ ie = false then []
    else (if el then stringLenBytes (str r).len else []) ++ (str r).content

/-- The bytes of the packet of an entry. -/
def World.packet (w : World σ) (e : Entry) : List Byte := (entryFields w.heap e).flatMap (Field.bytes w.str)

/-- A fresh encoder whose store has nothing but the entry `e`. -/
structure World.Alone (w : World σ) (e : Entry) : Prop where
  fresh : w.tx.internal = {}
  opened : w.tx.closed = false
  pending : w.txStore.pending = [e]

/-- An entry that the encoder can send from memory. -/
structure World.CanSend (w : World σ) (e : Entry) : Prop where
  typed : e.WellTyped
  valid : e.Valid w.heap
  strings : ∀ r el ie, .str r el ie ∈ entryFields w.heap e → (w.str r).InMemory ∧ (w.str r).len < 2^63

theorem field_header {h : Heap} {v : Value} {i : Option ℕ} {x : Encoder} {bytes : List Byte}
    (hx : x.field h v i = .header bytes) : bytes ≠ [] := by
  cases x <;> cases hx <;> simp [idPacket, packetIdBytes]

theorem field_str {h : Heap} {v : Value} {i : Option ℕ} {x : Encoder} {r : StrRef} {el ie : Bool}
    (hx : x.field h v i = .str r el ie) : r.isStored = true ∧ (el = true ∨ ie = false) := by
  cases x <;> cases hx <;> simp [StrRef.isStored]

theorem entryFields_mem {h : Heap} {e : Entry} {f : Field} (hf : f ∈ entryFields h e) :
    ∃ x i, (x, i) ∈ entryEncoders h e ∧ x.field h e.value i = f := by
  obtain ⟨⟨x, i⟩, hx, rfl⟩ := List.mem_map.mp hf
  exact ⟨x, i, hx, rfl⟩

section Alone
variable {w : World σ} {e : Entry}

theorem World.Alone.line (h : w.Alone e) : w.line = [e] := by
  unfold World.line
  rw [h.opened, h.pending]
  change untilDisconnect [e] = [e]
  rw [untilDisconnect]
  split <;> rfl

theorem World.Alone.fields (h : w.Alone e) : w.fields = entryFields w.heap e := by
  rw [fields_cons h.line, h.fresh]
  exact List.append_nil _

theorem World.CanSend.ready (h : w.CanSend e) {f : Field} (hf : f ∈ entryFields w.heap e) : w.Ready 0 f := by
  obtain ⟨x, i, -, hx⟩ := entryFields_mem hf
  cases f with
  | header bytes => exact List.length_pos_iff.mpr (field_header hx)
  | str r el ie =>
    obtain ⟨hstored, hform⟩ := field_str hx
    obtain ⟨hm, hlen⟩ := h.strings r el ie hf
    refine ⟨hstored, hform, ?_⟩
    have hzero : stringOffset el 0 = 0 := by cases el <;> rfl
    rw [hzero]
    exact hm.ready hlen

theorem World.CanSend.inMemory (h : w.CanSend e) {f : Field} (hf : f ∈ entryFields w.heap e) : w.InMemory f := by
  rintro r el ie rfl
  exact (h.strings r el ie hf).1.read

/-- The encoder is ready to send the packet. -/
theorem World.Alone.encoding (h : w.Alone e) (hs : w.CanSend e) : w.Encoding := by
  have hfields := h.fields
  refine encoding_fresh h.fresh ?_ ?_ fun x hx => ?_
  · rw [hfields]
    exact fun f => hs.ready
  · rw [hfields]
    exact apart_inMemory fun f => hs.inMemory
  · rw [h.line, List.mem_singleton] at hx
    rw [hx]
    exact ⟨hs.typed, hs.valid⟩

theorem left_zero (hs : w.CanSend e) (rest : σ → ℕ → List Byte) {f : Field} (hf : f ∈ entryFields w.heap e) :
    w.left rest 0 f = f.bytes w.str := by
  cases f with
  | header bytes => rfl
  | str r el ie =>
    have hm := (hs.strings r el ie hf).1
    by_cases hn : (w.str r).len = 0 ∧ ie = false
    · exact (if_pos hn).trans (if_pos hn).symm
    · have hbytes : (Field.str r el ie).bytes w.str = (if el then stringLenBytes (w.str r).len else []) ++ (w.str r).content :=
        if_neg hn
      rw [left_str w r el ie 0 hn, hbytes]
      cases el with
      | true => exact congrArg (stringLenBytes _ ++ ·) (hm.from_zero (rest w.app))
      | false => exact hm.from_zero (rest w.app)

/-- It owes the bytes of the packet. -/
theorem World.Alone.owed (h : w.Alone e) (hs : w.CanSend e) (rest : σ → ℕ → List Byte) : w.owed rest = w.packet e := by
  have hall : ∀ l : List Field, (∀ f ∈ l, f ∈ entryFields w.heap e) → w.bytes rest 0 l = l.flatMap (Field.bytes w.str) := by
    intro l hl
    have heach : ∀ f ∈ l, w.left rest 0 f = f.bytes w.str := fun f hf => left_zero hs rest (hl f hf)
    cases l with
    | nil => rfl
    | cons f fs =>
      change w.left rest 0 f ++ fs.flatMap (w.left rest 0) = _
      rw [heach f (List.mem_cons_self ..), List.flatMap_congr fun g hg => heach g (List.mem_cons_of_mem _ hg)]
      rfl
  unfold World.owed
  rw [h.fields, h.fresh]
  exact hall _ fun _ hf => hf

/-! ### Calls of the encoder -/

/-- A call of the encoder that has room for the packet sends it. -/
theorem World.Alone.encode (h : w.Alone e) (hs : w.CanSend e) (bufLen : ℕ)
    (hq : e.kind ≠ .publish0 ∨ env.Silent fun _ _ => []) (hf : (entryFields w.heap e).length + 3 ≤ env.fuel)
    (hb : (w.packet e).length ≤ bufLen) :
    ∃ r w', lmqttTxBufferEncode env bufLen w = .ok (r, w.packet e) w' ∧ r ≠ .error := by
  have hencoding := h.encoding hs
  have hline : (∀ x ∈ w.line, x.kind ≠ .publish0) ∨ env.Silent fun _ _ => [] := by
    refine hq.imp_left fun hk x hx => ?_
    rw [h.line, List.mem_singleton] at hx
    rwa [hx]
  have hmem : ∀ f ∈ w.fields, w.InMemory f := by
    intro f hf
    rw [h.fields] at hf
    exact hs.inMemory hf
  have hspec : Wp (lmqttTxBufferEncode env bufLen) w (fun r _ => r.2 = w.packet e ∧ r.1 ≠ .error) fun _ _ => False := by
    refine (lmqttTxBufferEncode_emitted bufLen w (.inl hmem) hline hencoding).mono (fun r w' hr => ?_) fun halt w' hh => ?_
    · obtain ⟨hr, he⟩ := hr
      refine ⟨?_, hr⟩
      rw [(he.take hmem).1, h.owed hs, List.take_of_length_le hb]
    · rcases hh with ⟨-, hlt⟩ | ⟨-, hend⟩
      · unfold World.turns at hlt
        rw [h.line, h.fields, List.length_singleton] at hlt
        omega
      · exact (hencoding.not_atEnd (by rw [h.fresh])).1 hend
  obtain ⟨⟨r, bs⟩, w', hrun, rfl, hr⟩ := wp_exists hspec
  exact ⟨r, w', hrun, hr⟩

/- What a call leaves is in memory too, and has no more callbacks. -/
theorem Emitted.kept {v : World σ} {bufLen : ℕ} {bs : List Byte} {rest : σ → ℕ → List Byte} (hw : w.Encoding)
    (he : Emitted env rest w bufLen bs v) (hm : ∀ f ∈ w.fields, w.InMemory f) (hq : ∀ x ∈ w.line, x.kind ≠ .publish0) :
    (∀ f ∈ v.fields, v.InMemory f) ∧ ∀ x ∈ v.line, x.kind ≠ .publish0 := by
  obtain ⟨done, hline, -⟩ := he.done
  obtain ⟨fs, hfields, -⟩ := he.sent
  constructor
  · intro f hf r el ie hfe
    have hin : f ∈ w.fields := by
      rw [hfields]
      exact List.mem_append_right _ hf
    obtain ⟨off, hready⟩ := hw.fields.ready hin
    rw [hfe] at hready
    have hread := congrArg LString.read (he.strings r hready.1)
    exact hread.trans (hm f hin r el ie hfe)
  · intro x hx
    apply hq
    rw [hline]
    exact List.mem_append_right _ hx

/-- Calls of the encoder that return send as much of what it owes as their buffers have room for. -/
theorem encode_calls_take (sizes : List ℕ) (w : World σ) (hw : w.Encoding) (hm : ∀ f ∈ w.fields, w.InMemory f)
    (hq : ∀ x ∈ w.line, x.kind ≠ .publish0) :
    Wp (sizes.mapM (lmqttTxBufferEncode env)) w
      (fun rs _ => (∀ r ∈ rs, r.1 ≠ .error) ∧ rs.flatMap (·.2) = (w.owed fun _ _ => []).take sizes.sum)
      fun _ _ => True := by
  induction sizes generalizing w with
  | nil => exact ⟨by simp, by simp⟩
  | cons n sizes ih =>
    rw [List.mapM_cons]
    simp only [wp_bind]
    have hcall : Wp (lmqttTxBufferEncode env n) w (fun r v => r.1 ≠ .error ∧ Emitted env (fun _ _ => []) w n r.2 v)
        fun h _ => w.Halts env env.fuel (w.turns + 1) h := lmqttTxBufferEncode_emitted n w (.inl hm) (.inl hq) hw
    refine hcall.mono (fun r v hv => ?_) fun _ _ _ => trivial
    obtain ⟨hok, he⟩ := hv
    obtain ⟨htake, hdrop⟩ := he.take hm
    obtain ⟨hmem, hkinds⟩ := he.kept hw hm hq
    refine (ih v he.encoding hmem hkinds).mono (fun rs _ hrs => ?_) fun _ _ _ => trivial
    obtain ⟨hall, hbytes⟩ := hrs
    constructor
    · intro x hx
      rcases List.mem_cons.mp hx with rfl | hx
      · exact hok
      · exact hall x hx
    · rw [List.flatMap_cons, hbytes, htake, hdrop, List.sum_cons, List.take_add]

/-- Calls of the encoder send the packet piece by piece. -/
theorem World.Alone.encode_pieces (h : w.Alone e) (hs : w.CanSend e) (hk : e.kind ≠ .publish0) {sizes : List ℕ}
    {rs : List (IoResult × List Byte)} {w' : World σ} (hrun : sizes.mapM (lmqttTxBufferEncode env) w = .ok rs w') :
    (∀ r ∈ rs, r.1 ≠ .error) ∧ rs.flatMap (·.2) = (w.packet e).take sizes.sum := by
  have hmem : ∀ f ∈ w.fields, w.InMemory f := by
    intro f hf
    rw [h.fields] at hf
    exact hs.inMemory hf
  have hkinds : ∀ x ∈ w.line, x.kind ≠ .publish0 := by
    intro x hx
    rw [h.line, List.mem_singleton] at hx
    rwa [hx]
  have hcalls : Wp (sizes.mapM (lmqttTxBufferEncode env)) w _ _ := encode_calls_take sizes w (h.encoding hs) hmem hkinds
  have hr := wp_ok hcalls hrun
  rw [h.owed hs] at hr
  exact hr

/- The loop adds to what was written. -/
theorem txBufferEncodeLoop_adds (fuel : ℕ) (cur : Option Entry) (bufLen : ℕ) (out : List Byte) (w : World σ) :
    Wp (txBufferEncodeLoop env fuel cur bufLen out) w (fun r _ => out <+: r.2) fun _ _ => True := by
  induction fuel generalizing cur bufLen out w with
  | zero => trivial
  | succ fuel ih =>
    have hexit : ∀ v : World σ,
        Wp (txBufferExit out) v (fun r _ => out <+: r.2) fun _ _ => True := fun v => List.prefix_refl out
    cases cur with
    | none =>
      simp only [txBufferEncodeLoop, wp_bind, wp_get]
      refine wp_if (fun _ => hexit w) fun _ => ?_
      cases w.txStore.peek with
      | none => exact hexit w
      | some e => exact ih (some e) bufLen out w
    | some e =>
      simp only [txBufferEncodeLoop, wp_bind]
      refine wp_of_ok fun found u _ => ?_
      cases found with
      | none =>
        simp only [wp_bind]
        refine wp_of_ok fun ok v _ => ?_
        refine wp_if (fun _ => ih none bufLen out v) fun _ => ?_
        exact List.prefix_refl out
      | some x =>
        simp only [wp_bind, wp_get, wp_emit]
        refine wp_of_ok fun r v _ => ?_
        obtain ⟨res, bytes⟩ := r
        cases res with
        | wouldBlock => exact List.prefix_refl out
        | «continue» => exact List.prefix_append out bytes
        | error => exact List.prefix_refl out
        | finished =>
          simp only [wp_bind, wp_modify]
          exact (ih (some e) _ (out ++ bytes) _).mono (fun r _ h => (List.prefix_append out bytes).trans h) fun _ _ h => h

/-- The loop sends the rest of the only entry of its line, whatever comes behind it. -/
theorem txBufferEncodeLoop_owed (fuel bufLen : ℕ) (out : List Byte) (w : World σ) (hl : w.line = [e]) (hw : w.Encoding)
    (h0 : w.tx.internal.offset = 0) (hm : ∀ f ∈ w.fields, w.InMemory f) (hb : (w.owed fun _ _ => []).length ≤ bufLen) :
    Wp (txBufferEncodeLoop env fuel (some e) bufLen out) w (fun r _ => out ++ (w.owed fun _ _ => []) <+: r.2)
      fun _ _ => True := by
  induction fuel generalizing bufLen out w with
  | zero => trivial
  | succ fuel ih =>
    by_cases hend : (entryFields w.heap e).length ≤ w.tx.internal.pos
    · -- nothing is left
      have hnil : w.owed (fun _ _ => []) = [] := by
        unfold World.owed
        rw [fields_cons hl, List.drop_of_length_le hend]
        rfl
      rw [hnil, List.append_nil]
      exact txBufferEncodeLoop_adds (fuel + 1) (some e) bufLen out w
    have hfield : ∀ s f fs, w.AtField e [] f fs s → s.tx.internal.offset = 0 ∧ s.InMemory f ∧
        w.owed (fun _ _ => []) = s.left (fun _ _ => []) 0 f ++ fs.flatMap (s.left (fun _ _ => []) 0) := by
      intro s f fs hat
      have hs0 : s.tx.internal.offset = 0 := by rw [hat.alike.tx, h0]
      refine ⟨hs0, fun r el ie hge => ?_, ?_⟩
      · rw [hat.alike.str]
        exact hm f (by rw [← hat.alike.fields, hat.fields]; exact List.mem_cons_self ..) r el ie hge
      · rw [← hat.alike.owed, World.owed, hat.fields, hs0]
        rfl
    have hstored : (∀ f ∈ w.fields, w.InMemory f) ∨ env.Streams fun _ _ => [] := .inl hm
    refine txBufferEncodeLoop_turn fuel bufLen out hstored hw hl (fun s f fs bytes v hat hv => ?_)
      (fun s f fs bytes v hat hv => ?_) (fun s f fs bytes v hat hv => ?_) (fun h => absurd h hend) fun _ _ _ _ => trivial
    · obtain ⟨-, hin, -⟩ := hfield s f fs hat
      cases hv with
      | wouldBlock bytes v hv hb' hr hc hm' => exact absurd (.inl hin) hm'
    · obtain ⟨hs0, hin, howed⟩ := hfield s f fs hat
      have hready := hat.encoding.fields.head f fs hat.fields
      rw [hs0] at hready hv
      rw [howed, List.length_append] at hb
      cases hv with
      | «continue» bytes v hv hb' hlen hne hr hc hm' hk hp he =>
        -- there was room for all of the field
        exfalso
        have hcount := hm' (.inl hin)
        rw [hb', List.length_append] at hb
        have hnil : v.left (fun _ _ => []) (0 + bytes.length) f = [] := List.eq_nil_of_length_eq_zero (by omega)
        have hsupplied : s.Supplied (fun _ _ => []) 0 f := by
          cases f with
          | header bs => trivial
          | str r el ie =>
            intro hread
            rw [hin r el ie rfl] at hread
            contradiction
        rcases hk (he hsupplied hnil) with hstuck | ⟨r, -, -, hone, -⟩
        · exact not_stuck_zero hready hstuck
        · contradiction
    · obtain ⟨hs0, hin, howed⟩ := hfield s f fs hat
      rw [howed] at hb ⊢
      rw [List.length_append] at hb
      cases hv with
      | finished bytes v hv hb' hlen hc hp =>
        set i : TxInternal := { v.tx.internal with pos := v.tx.internal.pos + 1, offset := 0 } with hi
        have hgo : (v.setTx i).Encoding ∧ (v.setTx i).fields = fs ∧
            (Emitted env _ (v.setTx i) (bufLen - bytes.length) [] s → Emitted env _ s bufLen (bytes ++ []) s) :=
          hv.goes_on hat.encoding hat.line hat.within hat.fields i ⟨by rw [hi, hv.pos], rfl,
            hv.error.trans hat.encoding.error⟩ hc hb'
            hlen hp
        obtain ⟨henc, hfields, -⟩ := hgo
        have hsend := hat.encoding.fields
        rw [hat.fields, hs0] at hsend
        rw [hs0] at hb'
        have hnext : (v.setTx i).owed (fun _ _ => []) = fs.flatMap (s.left (fun _ _ => []) 0) := by
          change (v.setTx i).bytes _ i.offset (v.setTx i).fields = _
          rw [hfields, bytes_setTx, hi]
          exact (hv.behind hsend).2
        rw [hb'] at hb ⊢
        have hmem' : ∀ g ∈ (v.setTx i).fields, (v.setTx i).InMemory g := by
          intro g hg
          have hinside : g ∈ s.fields := by
            rw [hat.fields, ← hfields]
            exact List.mem_cons_of_mem _ hg
          refine hv.inMemory i (hat.encoding.fields.ready hinside) fun r el ie hge => ?_
          rw [hat.alike.str]
          exact hm g (by rwa [← hat.alike.fields]) r el ie hge
        refine (ih (bufLen - bytes.length) (out ++ bytes) _ ((hv.line i).1.trans hat.line) henc rfl hmem' (by
          rw [hnext]
          omega)).mono (fun r t ht => ?_) fun _ _ h => h
        rwa [hnext, List.append_assoc] at ht

/-- Whatever the callback of the entry does, a call that has room for the packet sends it first. -/
theorem World.Alone.encode_first (h : w.Alone e) (hs : w.CanSend e) {bufLen : ℕ} (hb : (w.packet e).length ≤ bufLen)
    {r : IoResult × List Byte} {w' : World σ} (hrun : lmqttTxBufferEncode env bufLen w = .ok r w') : w.packet e <+: r.2 := by
  have hencoding := h.encoding hs
  have howed := h.owed hs fun _ _ => []
  have hpeek : w.txStore.peek = some e := by rw [Store.peek_eq, h.pending]; rfl
  have hmem : ∀ f ∈ w.fields, w.InMemory f := by
    intro f hf
    rw [h.fields] at hf
    exact hs.inMemory hf
  have hfirst : ∀ fuel, Wp (txBufferEncodeLoop env fuel (some e) bufLen []) w _ _ := fun fuel =>
    txBufferEncodeLoop_owed fuel bufLen [] w h.line hencoding (by rw [h.fresh]) hmem (by
    rwa [howed])
  have hspec : Wp (lmqttTxBufferEncode env bufLen) w (fun r _ => w.packet e <+: r.2) fun _ _ => True := by
    simp only [lmqttTxBufferEncode, wp_bind, wp_get, h.fresh]
    cases env.fuel with
    | zero => trivial
    | succ fuel =>
      simp only [Option.isSome_none, Bool.false_eq_true, if_false, txBufferEncodeLoop, wp_bind, wp_get, h.opened, hpeek]
      have hloop := hfirst fuel
      rwa [howed, List.nil_append] at hloop
  have hr := wp_ok hspec hrun
  exact hr

end Alone

end LightMqtt
