import Mathlib.Data.List.Induction
import LightMqtt.Base.Halting
import LightMqtt.Base.Mirror
import LightMqtt.Outgoing

/-!
# Cuts within a CONNECT

The client id of a CONNECT is sent also when it is empty. Where a call ends
between the two bytes of its length, and the next one has room for just one byte, the
encoder takes the string for unfinished, and the call after that fails an
assertion. No other cut is visible in what is sent.
-/

namespace LightMqtt

open Exec

variable {σ : Type} {env : Env σ}

/-! ### A call that goes on within a string -/

section Within
variable {w : World σ} {f : Field} {fs : List Field} {r : StrRef} {el ie : Bool} {m n : ℕ}

/- The field belongs to the first entry. -/
theorem World.Encoding.first_entry (hw : w.Encoding) (hf : w.fields = f :: fs) (ho : w.tx.internal.offset ≠ 0) :
    ∃ e es, w.line = e :: es ∧ (entryFields w.heap e)[w.tx.internal.pos]? = some f := by
  cases hl : w.line with
  | nil =>
    rw [fields_nil hl] at hf
    contradiction
  | cons e es =>
    refine ⟨e, es, rfl, ?_⟩
    have hlt : w.tx.internal.pos < (entryFields w.heap e).length := by
      refine lt_of_le_of_ne (hw.pos e es hl) fun hend => ho (hw.between (fun e' es' hl' => ?_) (line_cons hl).1).1
      rw [hl] at hl'
      obtain ⟨rfl, -⟩ := List.cons.inj hl'
      exact hend
    rw [fields_cons hl, List.drop_eq_getElem_cons hlt, List.cons_append] at hf
    obtain ⟨hget, -⟩ := List.cons.inj hf
    rw [List.getElem?_eq_getElem hlt, hget]

theorem runEncoder_str {v : Value} {x : Encoder} {h : Heap} {i : Option ℕ} {off : ℕ} {s : World σ} (hh : h = s.heap)
    (hi : i = (h.subscribes v.value).current) (hx : x.field h v i = .str r el ie) :
    runEncoder env v off n x s = stringEncode env r el ie off n s := by
  subst hh hi
  cases x <;> cases hx <;> rfl

/-- A call within a string does what `string_encode` does first. -/
theorem encode_string (hw : w.Encoding) (hf : w.fields = .str r el ie :: fs) (ho : w.tx.internal.offset ≠ 0)
    (hfuel : 2 ≤ env.fuel) :
    ∃ s, Alike w s ∧
      (∀ h u, stringEncode env r el ie w.tx.internal.offset n s = .error h u → lmqttTxBufferEncode env n w = .error h u) ∧
      ∀ bs u, stringEncode env r el ie w.tx.internal.offset n s = .ok (.continue, bs) u →
        lmqttTxBufferEncode env n w =
          .ok (.success, bs) (u.setTx { u.tx.internal with offset := u.tx.internal.offset + bs.length }) := by
  obtain ⟨e, es, hl, hget⟩ := hw.first_entry hf ho
  obtain ⟨hopen, tl, hpend, -⟩ := line_cons hl
  have hpeek : w.txStore.peek = some e := by
    rw [Store.peek_eq, hpend]
    rfl
  obtain ⟨fuel, hfuel⟩ : ∃ fuel, env.fuel = fuel + 2 := ⟨env.fuel - 2, by omega⟩
  obtain ⟨found, u, hu⟩ := txBufferFinder_runs w e
  rcases txBufferFinder_ok hu with ⟨x, rfl, hx⟩ | ⟨-, hend, -⟩
  · refine ⟨u.emit (.encode e.kind e.value.packetId e.value.req u.tx.internal.pos), hx.alike _, ?_⟩
    have hfound := hx.field
    rw [hget, Option.some_inj] at hfound
    have henter : ∃ k : EncodeResult × List Byte → Prog σ (IoResult × List Byte),
        lmqttTxBufferEncode env n w = (stringEncode env r el ie w.tx.internal.offset n >>= k)
          (u.emit (.encode e.kind e.value.packetId e.value.req u.tx.internal.pos)) ∧
        ∀ bs, k (.continue, bs) =
          (modify fun w => w.setTx { w.tx.internal with offset := w.tx.internal.offset + bs.length }) >>= fun _ =>
            pure (.success, [] ++ bs) := by
      apply Exists.intro
      apply And.intro
      · unfold lmqttTxBufferEncode
        rw [run_get_bind, hw.error, hfuel]
        change txBufferEncodeLoop env (fuel + 2) none n [] w = _
        rw [txBufferEncodeLoop, run_get_bind, hopen, hpeek]
        change txBufferEncodeLoop env (fuel + 1) (some e) n [] w = _
        rw [txBufferEncodeLoop, run_bind_ok hu]
        change (runEncoder env e.value u.tx.internal.offset n x >>= _)
          (u.emit (.encode e.kind e.value.packetId e.value.req u.tx.internal.pos)) = _
        rw [hx.tx]
        exact run_bind_congr (runEncoder_str (s := u.emit _) rfl rfl hfound.symm) _
      · exact fun bs => rfl
    obtain ⟨k, hk, hcont⟩ := henter
    refine ⟨fun h v hv => ?_, fun bs v hv => ?_⟩
    · rw [hk, run_bind_error hv]
    · rw [hk, run_bind_ok hv, hcont]
      rfl
  · rw [List.getElem?_eq_none hend] at hget
    contradiction

/- Behind the end of the string there is an assertion. -/
theorem stringEncode_stuck (hr : w.Ready m (.str r el ie)) (hstuck : w.Stuck m (.str r el ie)) (hn : 0 < n)
    (hd : env.ndebug = false) : ∃ u, stringEncode env r el ie m n w = .error .assertFailed u := by
  obtain ⟨hne, hend⟩ := hstuck
  obtain ⟨-, -, hready⟩ := hr
  obtain ⟨hlo, hhi⟩ := hready.len
  have hskip : ((w.str r).len = 0 && !ie) = false := by
    by_contra hc
    simp only [Bool.not_eq_false, Bool.and_eq_true, decide_eq_true_eq, Bool.not_eq_true'] at hc
    exact hne hc
  have hlast : decide (m < toSize ((w.str r).len + if el then 2 else 0)) = false := by
    cases el with
    | true =>
      simp only [if_true] at hend ⊢
      rw [toSize_of_bounds _ (by omega) (by omega)]
      exact decide_eq_false (by omega)
    | false =>
      simp only [Bool.false_eq_true, if_false] at hend ⊢
      rw [Int.add_zero, toSize_of_bounds _ hlo (by omega)]
      exact decide_eq_false (by omega)
  have hfails : assert env (decide (m < toSize ((w.str r).len + if el then 2 else 0))) = throw .assertFailed := by
    unfold assert
    rw [hlast, hd]
    rfl
  have hzero : ¬ n = 0 := by omega
  apply Exists.intro
  unfold stringEncode
  rw [run_get_bind, run_modify_bind, hskip, if_neg (by decide), if_neg hzero, hfails]
  rfl

/- The rest of the length of an empty string fills the buffer. -/
theorem stringEncode_cut (hz : (w.str r).len = 0) :
    stringEncode env r true true 1 1 w =
      .ok (.continue, [0]) (w.setTx { w.tx.internal with buffer := { w.tx.internal.buffer with blockingStr := none } }) := by
  have hroom : decide (1 < toSize (0 + if true = true then 2 else 0)) = true := by decide
  have hpasses : assert env true = pure () := by
    unfold assert
    rw [Bool.or_true]
    rfl
  unfold stringEncode
  rw [run_get_bind, run_modify_bind, hz, if_neg (by decide), if_neg (by decide), hroom, hpasses]
  rfl

/-- An encoder behind the end of a string fails as soon as it has room for a byte. -/
theorem encode_atEnd (hw : w.Encoding) (hend : w.AtEnd) (hn : 0 < n) (hd : env.ndebug = false) (hfuel : 2 ≤ env.fuel) :
    ∃ v, lmqttTxBufferEncode env n w = .error .assertFailed v := by
  obtain ⟨f, fs, hf, hstuck⟩ := hend
  have hready := hw.fields.head f fs hf
  have ho : w.tx.internal.offset ≠ 0 := by
    intro h0
    rw [h0] at hready hstuck
    exact not_stuck_zero hready hstuck
  cases f with
  | header bytes => exact hstuck.elim
  | str r el ie =>
    obtain ⟨s, hs, herror, -⟩ := encode_string hw hf ho hfuel
    have hready' : s.Ready w.tx.internal.offset (.str r el ie) := by
      obtain ⟨hr, hform, hdata⟩ := hready
      refine ⟨hr, hform, ?_⟩
      rwa [hs.str]
    obtain ⟨u, hu⟩ := stringEncode_stuck hready' ((hs.stuck _ _).mpr hstuck) hn hd
    exact ⟨u, herror _ u hu⟩

/-- A cut within the length of an empty string takes the encoder behind its end. -/
theorem encode_halved (hw : w.Encoding) (h : w.Halved n) (hfuel : 2 ≤ env.fuel) :
    ∃ r v, lmqttTxBufferEncode env n w = .ok r v ∧ v.AtEnd := by
  obtain ⟨f, fs, hf, r, rfl, hz, ho, rfl⟩ := h
  obtain ⟨s, hs, -, hcont⟩ := encode_string hw hf (by omega) hfuel (n := 1)
  rw [ho] at hcont
  have hzs : (s.str r).len = 0 := by rw [hs.str, hz]
  refine ⟨_, _, hcont _ _ (stringEncode_cut hzs), .str r true true, fs, ?_, ?_⟩
  · have hfields := hs.fields.trans hf
    exact hfields
  · refine (stuck_str ..).mpr ⟨fun h => by simp at h, ?_⟩
    rw [str_setTx, str_setTx, hzs]
    change 0 + 2 ≤ s.tx.internal.offset + 1
    rw [hs.tx, ho]

end Within

/-! ### Calls one behind the other -/

/-- The encoder behind calls that sent the first `k` bytes from memory. -/
structure World.SentFirst (w : World σ) (k : ℕ) (v : World σ) : Prop where
  encoding : v.Encoding
  owed : (v.owed fun _ _ => []) = (w.owed fun _ _ => []).drop k
  fields : ∃ fs, w.fields = fs ++ v.fields
  strings : ∀ r, r.isStored = true → (v.str r).still = (w.str r).still
  paused : v.line = [] ∨ v.Paused fun _ _ => []
  done : ∃ done, w.line = done ++ v.line ∧ w.txStore.pending = done ++ v.txStore.pending ∧
    v.txStore.sent = w.txStore.sent ++ done.filter (·.kind.expectsResponse)

section Calls
variable {w v : World σ} {k n : ℕ}

theorem World.SentFirst.start (hw : w.Encoding) (hp : w.line = [] ∨ w.Paused fun _ _ => []) : w.SentFirst 0 w :=
  ⟨hw, rfl, ⟨[], rfl⟩, fun _ _ => rfl, hp, [], rfl, rfl, by simp⟩

theorem World.SentFirst.inMemory (h : w.SentFirst k v) (hw : w.Encoding) (hm : ∀ f ∈ w.fields, w.InMemory f) :
    ∀ f ∈ v.fields, v.InMemory f := by
  intro f hf r el ie hfe
  obtain ⟨fs, hfields⟩ := h.fields
  have hin : f ∈ w.fields := by
    rw [hfields]
    exact List.mem_append_right _ hf
  obtain ⟨off, hready⟩ := hw.fields.ready hin
  rw [hfe] at hready
  have hread := congrArg LString.read (h.strings r hready.1)
  exact hread.trans (hm f hin r el ie hfe)

theorem World.SentFirst.turns_le (h : w.SentFirst k v) : v.turns ≤ w.turns := by
  obtain ⟨fs, hfields⟩ := h.fields
  obtain ⟨done, hline, -⟩ := h.done
  unfold World.turns
  rw [hfields, hline, List.length_append, List.length_append]
  omega

theorem supplying_of_inMemory {fs : List Field} (hm : ∀ f ∈ fs, w.InMemory f) (off : ℕ) :
    w.Supplying (fun _ _ => []) off fs := by
  have heach : ∀ off, ∀ f ∈ fs, w.Supplied (fun _ _ => []) off f := by
    intro off f hf
    cases f with
    | header bytes => trivial
    | str r el ie =>
      intro hread
      rw [hm _ hf r el ie rfl] at hread
      contradiction
  cases fs with
  | nil => trivial
  | cons f fs => exact ⟨heach off f (List.mem_cons_self ..), fun g hg => heach 0 g (List.mem_cons_of_mem _ hg)⟩

/-- One more call. -/
theorem World.SentFirst.call (h : w.SentFirst k v) (hw : w.Encoding) (hm : ∀ f ∈ w.fields, w.InMemory f)
    (hq : ∀ x ∈ w.line, x.kind ≠ .publish0) (n : ℕ) (hend : ¬ v.AtEnd) (hfuel : w.turns < env.fuel) :
    ∃ r v', lmqttTxBufferEncode env n v = .ok r v' ∧ r.1 ≠ .error ∧ r.2 = ((w.owed fun _ _ => []).drop k).take n ∧
      w.SentFirst (k + n) v' ∧ (v'.AtEnd → v.Halved n) := by
  obtain ⟨done, hline, hpend, hsent⟩ := h.done
  have hmem := h.inMemory hw hm
  have hkinds : ∀ x ∈ v.line, x.kind ≠ .publish0 := fun x hx => hq x (by rw [hline]; exact List.mem_append_right _ hx)
  have hcall : Wp (lmqttTxBufferEncode env n) v (fun r v' => r.1 ≠ .error ∧
      Emitted env (fun _ _ => []) v n r.2 v') fun _ _ => False :=
    (lmqttTxBufferEncode_emitted n v (.inl hmem) (.inl hkinds) h.encoding).mono (fun _ _ hr => hr) fun x _ hx => by
      rcases hx with ⟨-, hlt⟩ | ⟨-, hstands⟩
      · have hle := h.turns_le
        omega
      · exact hend hstands
  obtain ⟨r, v', hrun, hok, he⟩ := wp_exists hcall
  obtain ⟨htake, hdrop⟩ := he.take hmem
  refine ⟨r, v', hrun, hok, by rw [htake, h.owed], ?_, fun ha => (he.atEnd ha).resolve_left hend⟩
  obtain ⟨fs, hfields⟩ := h.fields
  obtain ⟨fs', hfields', -⟩ := he.sent
  obtain ⟨done', hline', hpend', hsent'⟩ := he.done
  refine ⟨he.encoding, ?_, ⟨fs ++ fs', ?_⟩, fun r hr => (he.strings r hr).trans (h.strings r hr), he.paused ?_,
    done ++ done', ?_, ?_, ?_⟩
  · rw [hdrop, h.owed, List.drop_drop]
  · rw [hfields, hfields', List.append_assoc]
  · exact supplying_of_inMemory hmem _
  · rw [hline, hline', List.append_assoc]
  · rw [hpend, hpend', List.append_assoc]
  · rw [hsent', hsent, List.filter_append, List.append_assoc]

end Calls

/-! ### The length of an empty client id -/

/- The number of bytes in front of the client id. -/
def World.clientIdAt (w : World σ) (e : Entry) : ℕ :=
  (lengthBytes (connectCalcRemainingLength (w.heap.connects e.value.value))).length + 11

/-- One of the calls has room for just one byte, and starts between the two bytes of the length of an
empty client id. -/
def World.CutsClientId (w : World σ) (e : Entry) (sizes : List ℕ) : Prop :=
  (w.heap.connects e.value.value).clientId.len = 0 ∧ ∃ before after, sizes = before ++ 1 :: after ∧
    before.sum = w.clientIdAt e + 1

section ClientId
variable {w v : World σ} {e : Entry} {k : ℕ}

theorem left_still {r : StrRef} (h : (v.str r).still = (w.str r).still) (el ie : Bool) (off : ℕ) :
    v.left (fun _ _ => []) off (.str r el ie) = w.left (fun _ _ => []) off (.str r el ie) := by
  have hlen : (v.str r).len = (w.str r).len := congrArg (·.len) h
  have hread : (v.str r).read = (w.str r).read := congrArg (·.read) h
  have hbuf : (v.str r).buf = (w.str r).buf := congrArg (·.buf) h
  unfold World.left LString.from
  simp only [hlen, hread, hbuf]

theorem left_empty (rest : σ → ℕ → List Byte) {r : StrRef} (hz : (w.str r).len = 0) (off : ℕ) :
    (w.left rest off (.str r true true)).length = 2 - off := by
  have hfrom := LString.from_length_le (w.str r) (stringOffset true off) (rest w.app)
  have hzero : (w.str r).len.toNat = 0 := by rw [hz]; rfl
  rw [left_str _ _ _ _ _ (by simp), List.length_append]
  have hlen : (stringLenLeft true (w.str r).len off).length = 2 - off := List.length_drop
  omega

theorem left_length_le (rest : σ → ℕ → List Byte) (f : Field) (off : ℕ) :
    (w.left rest off f).length ≤ (w.left rest 0 f).length := by
  cases f with
  | header bytes =>
    change (bytes.drop off).length ≤ (bytes.drop 0).length
    rw [List.length_drop, List.length_drop]
    omega
  | str r el ie =>
    have hfrom : ∀ i j, i ≤ j → ((w.str r).from (rest w.app) j).length ≤ ((w.str r).from (rest w.app) i).length := by
      intro i j hij
      unfold LString.from
      split
      · rw [List.length_take, List.length_take]
        omega
      · rw [List.length_drop, List.length_drop]
        omega
    by_cases hn : (w.str r).len = 0 ∧ ie = false
    · change (if _ then _ else _ : List Byte).length ≤ _
      rw [if_pos hn]
      exact Nat.zero_le _
    · rw [left_str _ _ _ _ _ hn, left_str _ _ _ _ _ hn, List.length_append, List.length_append]
      have hlen : (stringLenLeft el (w.str r).len off).length ≤ (stringLenLeft el (w.str r).len 0).length := by
        unfold stringLenLeft
        split
        · rw [List.length_drop, List.length_drop]
          omega
        · exact le_rfl
      have hdata := hfrom (stringOffset el 0) (stringOffset el off) (by cases el <;> simp [stringOffset])
      omega

theorem connect_fields (w : World σ) (hk : e.kind = .connect) : entryFields w.heap e = [
    .header (16 :: lengthBytes (connectCalcRemainingLength (w.heap.connects e.value.value))),
    .header (w.heap.connects e.value.value).variableHeader, .str (.connectClientId e.value.value) true true,
    .str (.connectWillTopic e.value.value) true false, .str (.connectWillMessage e.value.value) true false,
    .str (.connectUserName e.value.value) true false, .str (.connectPassword e.value.value) true false] := by
  unfold entryFields entryEncoders
  rw [hk]
  rfl

theorem World.SentFirst.left (h : w.SentFirst k v) {f : Field} (hf : f ∈ v.fields) (off : ℕ) :
    v.left (fun _ _ => []) off f = w.left (fun _ _ => []) off f := by
  cases f with
  | header bytes => rfl
  | str r el ie =>
    obtain ⟨_, hr, -⟩ := h.encoding.fields.ready hf
    exact left_still (h.strings r hr) el ie off

theorem World.Alone.owed_left (hw : w.Alone e) : (w.owed fun _ _ => []) = w.fields.flatMap (w.left (fun _ _ => []) 0) := by
  unfold World.owed World.bytes
  rw [hw.fresh]
  cases w.fields <;> rfl

/- Where the encoder stands. -/
theorem World.SentFirst.place (hw : w.Alone e) (h : w.SentFirst k v) {fs l : List Field} {f : Field} (hf : v.fields = f :: l)
    (hfs : w.fields = fs ++ v.fields) :
    (v.owed fun _ _ => []).length = (w.left (fun _ _ => []) v.tx.internal.offset f).length +
      (l.flatMap (w.left (fun _ _ => []) 0)).length ∧
      (w.owed fun _ _ => []).length = (fs.flatMap (w.left (fun _ _ => []) 0)).length + (w.left (fun _ _ => []) 0 f).length +
        (l.flatMap (w.left (fun _ _ => []) 0)).length := by
  constructor
  · unfold World.owed World.bytes
    rw [hf]
    change (v.left _ _ f ++ l.flatMap (v.left _ 0)).length = _
    rw [List.length_append, h.left (by rw [hf]; exact List.mem_cons_self ..),
      List.flatMap_congr fun g hg => h.left (by rw [hf]; exact List.mem_cons_of_mem _ hg) 0]
  · rw [hw.owed_left, hfs, hf, List.flatMap_append, List.flatMap_cons, List.length_append, List.length_append, Nat.add_assoc]

/-- The encoder stands between the two bytes where their number says so. -/
theorem World.SentFirst.halved_iff (hw : w.Alone e) (hk : e.kind = .connect) (h : w.SentFirst k v) (hend : ¬ v.AtEnd) :
    v.Halved 1 ↔ (w.heap.connects e.value.value).clientId.len = 0 ∧ k = w.clientIdAt e + 1 := by
  obtain ⟨fs, hfs⟩ := h.fields
  have howed : (v.owed fun _ _ => []).length = (w.owed fun _ _ => []).length - k := by rw [h.owed, List.length_drop]
  have hlist := hw.fields
  rw [connect_fields w hk, hfs] at hlist
  have hheader : (w.left (fun _ _ => []) 0
      (.header (16 :: lengthBytes (connectCalcRemainingLength (w.heap.connects e.value.value))))).length + 10 =
      w.clientIdAt e := rfl
  have hvariable : (w.left (fun _ _ => []) 0 (.header (w.heap.connects e.value.value).variableHeader)).length = 10 := rfl
  constructor
  · rintro ⟨f, l, hf, r, rfl, hz, ho, -⟩
    obtain ⟨hsent, htotal⟩ := h.place hw hf hfs
    rw [hf] at hlist
    have hfirst : fs = [.header (16 :: lengthBytes (connectCalcRemainingLength (w.heap.connects e.value.value))),
        .header (w.heap.connects e.value.value).variableHeader] ∧ r = .connectClientId e.value.value := by
      rcases fs with _ | ⟨a, _ | ⟨b, _ | ⟨c, fs⟩⟩⟩
      · simp at hlist
      · simp at hlist
      · simp only [List.cons_append, List.nil_append, List.cons.injEq, Field.str.injEq] at hlist
        exact ⟨by rw [hlist.1, hlist.2.1], hlist.2.2.1.1⟩
      · -- none of the optional strings is sent when it is empty
        simp only [List.cons_append, List.cons.injEq] at hlist
        have hin : Field.str r true true ∈ fs ++ .str r true true :: l := by simp
        rw [hlist.2.2.2] at hin
        simp at hin
    obtain ⟨rfl, rfl⟩ := hfirst
    have hstored : (v.str (.connectClientId e.value.value)).still = (w.str (.connectClientId e.value.value)).still :=
      h.strings _ rfl
    have hzero : (w.str (.connectClientId e.value.value)).len = 0 := by
      rw [← hz]
      exact (congrArg (·.len) hstored).symm
    have hone := left_empty (fun _ _ => []) hzero v.tx.internal.offset
    have htwo := left_empty (fun _ _ => []) hzero 0
    simp only [List.flatMap_cons, List.flatMap_nil, List.append_nil, List.length_append] at htotal
    exact ⟨hzero, by omega⟩
  · rintro ⟨hz, rfl⟩
    have hzero : (w.str (.connectClientId e.value.value)).len = 0 := hz
    have htwo : (w.left (fun _ _ => []) 0 (.str (.connectClientId e.value.value) true true)).length = 2 := left_empty _ hzero 0
    have htotal : w.clientIdAt e + 2 ≤ (w.owed fun _ _ => []).length := by
      rw [hw.owed_left, hw.fields, connect_fields w hk]
      simp only [List.flatMap_cons, List.length_append]
      omega
    cases hf : v.fields with
    | nil =>
      have hnone : (v.owed fun _ _ => []).length = 0 := by
        unfold World.owed
        rw [hf]
        rfl
      omega
    | cons f l =>
      obtain ⟨hsent, hparts⟩ := h.place hw hf hfs
      have hle := left_length_le (w := w) (fun _ _ => []) f v.tx.internal.offset
      rw [hf] at hlist
      have hrest : (w.left (fun _ _ => []) v.tx.internal.offset f).length ≠ 0 := by
        intro hnil
        rcases h.paused with hl | ⟨f', l', hf', hstuck⟩
        · rw [fields_nil hl] at hf
          contradiction
        · rw [hf] at hf'
          obtain ⟨rfl, -⟩ := List.cons.inj hf'
          refine hend ⟨f, l, hf, hstuck ?_⟩
          rw [h.left (by rw [hf]; exact List.mem_cons_self ..)]
          exact List.eq_nil_of_length_eq_zero hnil
      rcases fs with _ | ⟨a, _ | ⟨b, _ | ⟨c, fs⟩⟩⟩
      · simp only [List.nil_append, List.cons.injEq] at hlist
        obtain ⟨rfl, -⟩ := hlist
        simp only [List.flatMap_nil, List.length_nil] at hparts
        omega
      · simp only [List.cons_append, List.nil_append, List.cons.injEq] at hlist
        obtain ⟨rfl, rfl, -⟩ := hlist
        simp only [List.flatMap_cons, List.flatMap_nil, List.append_nil] at hparts
        omega
      · simp only [List.cons_append, List.nil_append, List.cons.injEq] at hlist
        obtain ⟨rfl, rfl, rfl, -⟩ := hlist
        simp only [List.flatMap_cons, List.flatMap_nil, List.append_nil, List.length_append] at hparts
        have hone := left_empty (fun _ _ => []) hzero v.tx.internal.offset
        have hzero' : (v.str (.connectClientId e.value.value)).len = 0 := by
          rw [← hzero]
          exact congrArg (·.len) (h.strings (.connectClientId e.value.value) rfl)
        exact ⟨_, l, hf, _, rfl, hzero', by omega, rfl⟩
      · simp only [List.cons_append, List.cons.injEq] at hlist
        obtain ⟨rfl, rfl, rfl, -⟩ := hlist
        simp only [List.flatMap_cons, List.length_append] at hparts
        omega

end ClientId

/-! ### CONNECT under every buffering -/

section Connect
variable {w v : World σ} {e : Entry}

theorem not_cutsClientId_nil : ¬ w.CutsClientId e [] := by
  rintro ⟨-, before, after, hlist, -⟩
  simp at hlist

theorem CutsClientId.append {before : List ℕ} (h : w.CutsClientId e before) (after : List ℕ) :
    w.CutsClientId e (before ++ after) := by
  obtain ⟨hz, xs, ys, rfl, hsum⟩ := h
  exact ⟨hz, xs, ys ++ after, by rw [List.append_assoc, List.cons_append], hsum⟩

theorem CutsClientId.one_mem {sizes : List ℕ} (h : w.CutsClientId e sizes) : 1 ∈ sizes := by
  obtain ⟨-, xs, ys, rfl, -⟩ := h
  simp

/- The last call is the one that cuts. -/
theorem cutsClientId_last {before : List ℕ} {n : ℕ} (hn : ¬ w.CutsClientId e before) :
    w.CutsClientId e (before ++ [n]) ↔
        n = 1 ∧ (w.heap.connects e.value.value).clientId.len = 0 ∧ before.sum = w.clientIdAt e + 1 := by
  constructor
  · rintro ⟨hz, xs, ys, hlist, hsum⟩
    rcases List.eq_nil_or_concat ys with rfl | ⟨ys, y, rfl⟩
    · obtain ⟨rfl, hlast⟩ := List.append_inj' hlist rfl
      obtain ⟨rfl, -⟩ := List.cons.inj hlast
      exact ⟨rfl, hz, hsum⟩
    · rw [List.concat_eq_append, ← List.cons_append, ← List.append_assoc] at hlist
      obtain ⟨rfl, -⟩ := List.append_inj' hlist rfl
      exact absurd ⟨hz, xs, ys, rfl, hsum⟩ hn
  · rintro ⟨rfl, hz, hsum⟩
    exact ⟨hz, before, [], rfl, hsum⟩

/-- Where calls of the encoder leave it, and which do not return. -/
theorem connect_run (hw : w.Alone e) (hs : w.CanSend e) (hk : e.kind = .connect) (hd : env.ndebug = false) (hf : 10 ≤ env.fuel)
    (sizes : List ℕ) (hpos : ∀ n ∈ sizes, 0 < n) :
    (w.CutsClientId e sizes.dropLast → ∃ v, sizes.mapM (lmqttTxBufferEncode env) w = .error .assertFailed v) ∧
      (¬ w.CutsClientId e sizes.dropLast → ∃ rs v, sizes.mapM (lmqttTxBufferEncode env) w = .ok rs v ∧
        (∀ r ∈ rs, r.1 ≠ .error) ∧
        rs.flatMap (·.2) = (w.packet e).take sizes.sum ∧ w.SentFirst sizes.sum v ∧ (v.AtEnd ↔ w.CutsClientId e sizes)) := by
  have hencoding := hw.encoding hs
  have hmem : ∀ f ∈ w.fields, w.InMemory f := by
    intro f hf
    rw [hw.fields] at hf
    exact hs.inMemory hf
  have hkinds : ∀ x ∈ w.line, x.kind ≠ .publish0 := by
    intro x hx
    rw [hw.line, List.mem_singleton] at hx
    rw [hx, hk]
    decide
  have hfuel : w.turns < env.fuel := by
    unfold World.turns
    rw [hw.fields, hw.line, connect_fields w hk]
    exact hf
  induction sizes using List.reverseRecOn with
  | nil =>
    refine ⟨fun h => absurd h not_cutsClientId_nil, fun _ => ⟨[], w, rfl, by simp, by simp, ?_, ?_⟩⟩
    · refine .start hencoding (.inr ⟨_, _, hw.fields.trans (connect_fields w hk), fun h => ?_⟩)
      rw [hw.fresh] at h
      contradiction
    · exact iff_of_false (hencoding.not_atEnd (by rw [hw.fresh])).1 not_cutsClientId_nil
  | append_singleton before n ih =>
    obtain ⟨hfails, hreturns⟩ := ih fun m hm => hpos m (List.mem_append_left _ hm)
    have hn : 0 < n := hpos n (by simp)
    rw [List.dropLast_concat]
    have hearlier : before.dropLast <+: before := List.dropLast_prefix before
    obtain ⟨last, hlast⟩ := hearlier
    by_cases hcut : w.CutsClientId e before
    · refine ⟨fun _ => ?_, fun h => absurd hcut h⟩
      by_cases hbefore : w.CutsClientId e before.dropLast
      · obtain ⟨v, hv⟩ := hfails hbefore
        exact ⟨v, mapM_append_error hv [n]⟩
      · obtain ⟨rs, v, hv, -, -, hsent, hend⟩ := hreturns hbefore
        obtain ⟨u, hu⟩ := encode_atEnd hsent.encoding (hend.mpr hcut) hn hd (by omega)
        exact ⟨u, mapM_append_singleton_error hv hu⟩
    · refine ⟨fun h => absurd h hcut, fun _ => ?_⟩
      have hbefore : ¬ w.CutsClientId e before.dropLast := fun h => hcut (by rw [← hlast]; exact CutsClientId.append h last)
      obtain ⟨rs, v, hv, hok, hbytes, hsent, hend⟩ := hreturns hbefore
      have hopen : ¬ v.AtEnd := fun h => hcut (hend.mp h)
      obtain ⟨r, u, hu, hr, htake, hnext, hhalf⟩ := hsent.call hencoding hmem hkinds n hopen hfuel
      refine ⟨rs ++ [r], u, mapM_append_singleton hv hu, ?_, ?_, ?_, ?_⟩
      · intro x hx
        rcases List.mem_append.mp hx with hx | hx
        · exact hok x hx
        · rw [List.mem_singleton.mp hx]
          exact hr
      · rw [List.flatMap_append, hbytes, List.flatMap_singleton, htake, hw.owed hs, List.sum_append,
          List.sum_singleton, List.take_add]
      · rw [List.sum_append, List.sum_singleton]
        exact hnext
      · rw [cutsClientId_last hcut]
        constructor
        · intro h
          have hcuts := hhalf h
          have hone : n = 1 := by
            obtain ⟨-, -, -, -, -, -, -, hone⟩ := hcuts
            exact hone
          subst hone
          exact ⟨rfl, (hsent.halved_iff hw hk hopen).mp hcuts⟩
        · rintro ⟨rfl, hplace⟩
          have hcuts := (hsent.halved_iff hw hk hopen).mpr hplace
          have htwo : 2 ≤ env.fuel := by omega
          obtain ⟨r', u', hu', hstands⟩ := encode_halved hsent.encoding hcuts htwo
          rw [hu] at hu'
          cases hu'
          exact hstands

/-- With the last byte the entry is marked, if the encoder does not stand behind the end of a string. -/
theorem World.SentFirst.marked {k : ℕ} (hw : w.Alone e) (hs : w.CanSend e) (hk : e.kind = .connect) (h : w.SentFirst k v)
    (hend : ¬ v.AtEnd) (hlen : (w.packet e).length ≤ k) : v.txStore.pending = [] ∧ v.txStore.sent = w.txStore.sent ++ [e] := by
  have howed := h.owed
  rw [hw.owed hs, List.drop_of_length_le hlen] at howed
  obtain ⟨done, hline, hpend, hmarked⟩ := h.done
  rw [hw.line] at hline
  rw [hw.pending] at hpend
  have hnil : v.line = [] := by
    rcases h.paused with hl | ⟨f, l, hf, hstuck⟩
    · exact hl
    · unfold World.owed World.bytes at howed
      rw [hf] at howed
      exact absurd ⟨f, l, hf, hstuck (List.append_eq_nil_iff.mp howed).1⟩ hend
  rw [hnil, List.append_nil] at hline
  rw [← hline] at hpend hmarked
  constructor
  · exact List.append_cancel_left (hpend.symm.trans (List.append_nil [e]).symm)
  · rw [hmarked, List.filter_cons_of_pos (by rw [hk]; rfl)]
    rfl

/-- Whatever the sizes of the buffers are, calls of the encoder send the packet of a valid CONNECT as one
large buffer has it, and mark its entry with the last byte. Only if one of the calls has room for just one
byte, and this is the second one of the length of an empty client id, the entry is left and the next call
fails an assertion. -/
theorem connect_calls (hw : w.Alone e) (ht : e.WellTyped) (hk : e.kind = .connect) (hv : w.FitsPacket e)
    (hd : env.ndebug = false) (hf : 10 ≤ env.fuel) (sizes : List ℕ) (hpos : ∀ n ∈ sizes, 0 < n) :
    (w.CutsClientId e sizes.dropLast → ∃ v, sizes.mapM (lmqttTxBufferEncode env) w = .error .assertFailed v) ∧
      (¬ w.CutsClientId e sizes.dropLast → ∃ rs v, sizes.mapM (lmqttTxBufferEncode env) w = .ok rs v ∧
        (∀ r ∈ rs, r.1 ≠ .error) ∧
        rs.flatMap (·.2) = (w.packet e).take sizes.sum ∧
        ((w.packet e).length ≤ sizes.sum ∧ ¬ w.CutsClientId e sizes →
          v.txStore.pending = [] ∧ v.txStore.sent = w.txStore.sent ++ [e]) ∧
        (sizes.sum < (w.packet e).length ∨ w.CutsClientId e sizes →
          v.txStore.pending = [e] ∧ v.txStore.sent = w.txStore.sent)) := by
  have hs := FitsPacket.canSend ht hv
  obtain ⟨hfails, hreturns⟩ := connect_run hw hs hk hd hf sizes hpos
  refine ⟨hfails, fun hn => ?_⟩
  obtain ⟨rs, v, hrun, hok, hbytes, hsent, hend⟩ := hreturns hn
  have howed := hsent.owed
  rw [hw.owed hs] at howed
  obtain ⟨done, hline, hpend, hmarked⟩ := hsent.done
  rw [hw.line] at hline
  rw [hw.pending] at hpend
  refine ⟨rs, v, hrun, hok, hbytes, fun h => ?_, fun h => ?_⟩
  · obtain ⟨hlen, hcut⟩ := h
    exact hsent.marked hw hs hk (fun h => hcut (hend.mp h)) hlen
  · have hne : v.line ≠ [] := by
      intro hl
      rcases h with hlen | hcut
      · unfold World.owed at howed
        rw [fields_nil hl] at howed
        exact absurd (List.drop_eq_nil_iff.mp howed.symm) (by omega)
      · obtain ⟨f, l, hf, -⟩ := hend.mpr hcut
        rw [fields_nil hl] at hf
        contradiction
    have hnone : done = [] := by
      cases done with
      | nil => rfl
      | cons x l =>
        rw [List.cons_append] at hline
        obtain ⟨-, htail⟩ := List.cons.inj hline
        exact absurd (List.append_eq_nil_iff.mp htail.symm).2 hne
    rw [hnone] at hpend hmarked
    exact ⟨hpend.symm, by rw [hmarked, List.filter_nil, List.append_nil]⟩

end Connect

def anonymousEntry : Entry := ⟨.connect, { value := 0, callback := some .onConnack, req := some 0 }⟩

/- A CONNECT of 14 bytes, the last two of which are the length of an empty client id. -/
def anonymousWorld : World Unit := { sendingWorld with
  tx := { store := .connect }
  connectStore := { entries := [anonymousEntry], capacity := 1 }
  currentStore := .connect
  heap := { smallHeap with connects := fun _ => { cleanSession := true } } }

theorem anonymousWorld_fits : anonymousWorld.FitsPacket anonymousEntry := by
  have hnone : LString.InMemory {} := ⟨rfl, le_rfl, .inl rfl⟩
  have hvalid : connectValidate { cleanSession := true } = true := by decide +kernel
  exact ⟨hvalid, hnone, hnone, hnone, hnone, hnone⟩

theorem connect_calls_anonymous :
    (∃ v, [13, 1, 4].mapM (lmqttTxBufferEncode memoryEnv) anonymousWorld = .error .assertFailed v) ∧
      ∃ rs v, [13, 2].mapM (lmqttTxBufferEncode memoryEnv) anonymousWorld = .ok rs v ∧ v.txStore.sent = [anonymousEntry] := by
  constructor
  · exact (connect_calls ⟨rfl, rfl, rfl⟩ ⟨rfl, rfl⟩ rfl anonymousWorld_fits rfl (by decide) [13, 1, 4] (by decide)).1
      ⟨rfl, [13], [], rfl, by decide +kernel⟩
  · have hcalls : _ → ∃ rs v, [13, 2].mapM (lmqttTxBufferEncode memoryEnv) anonymousWorld = .ok rs v ∧ _ :=
      (connect_calls ⟨rfl, rfl, rfl⟩ ⟨rfl, rfl⟩ rfl anonymousWorld_fits rfl (by decide) [13, 2] (by decide)).2
    obtain ⟨rs, v, hrun, -, -, hmarked, -⟩ := hcalls fun h => absurd (CutsClientId.one_mem h) (by decide)
    exact ⟨rs, v, hrun, (hmarked ⟨by decide +kernel, fun h => absurd (CutsClientId.one_mem h) (by decide)⟩).2⟩

/-! ### Any sequence of buffers -/

/- The calls send what one call with room for all of it sends, and the entry is marked when this is out. -/
def World.SentAsOne (env : Env σ) (w : World σ) (e : Entry) (sizes : List ℕ) : Prop :=
  ∃ rs v, sizes.mapM (lmqttTxBufferEncode env) w = .ok rs v ∧ (∀ r ∈ rs, r.1 ≠ .error) ∧
    rs.flatMap (·.2) = (w.packet e).take sizes.sum ∧
    ((w.packet e).length ≤ sizes.sum → v.txStore.pending = [] ∧ v.txStore.sent = w.txStore.sent ++ [e])

section Sequence
variable {w : World σ} {e : Entry}

/- Calls none of which is the cut. -/
theorem connect_run_uncut (hw : w.Alone e) (hs : w.CanSend e) (hk : e.kind = .connect)
    (hd : env.ndebug = false) (hf : 10 ≤ env.fuel)
    {sizes : List ℕ} (hpos : ∀ n ∈ sizes, 0 < n) (hn : ¬ w.CutsClientId e sizes) : w.SentAsOne env e sizes := by
  obtain ⟨last, hlast⟩ := sizes.dropLast_prefix
  have hbefore : ¬ w.CutsClientId e sizes.dropLast := fun h => hn (by rw [← hlast]; exact CutsClientId.append h last)
  obtain ⟨rs, v, hrun, hok, hbytes, hsent, hend⟩ := (connect_run hw hs hk hd hf sizes hpos).2 hbefore
  exact ⟨rs, v, hrun, hok, hbytes, hsent.marked hw hs hk fun h => hn (hend.mp h)⟩

/-- A valid CONNECT is sent alike under every sequence of buffer sizes, unless a buffer with room for one byte
takes the second byte of the length of an empty client id. -/
theorem connect_buffering_iff (hw : w.Alone e) (ht : e.WellTyped) (hk : e.kind = .connect) (hv : w.FitsPacket e)
    (hd : env.ndebug = false) (hf : 10 ≤ env.fuel) (sizes : ℕ → ℕ) (hpos : ∀ i, 0 < sizes i) :
    (∀ n, (w.packet e).length ≤ n → ∃ r v, lmqttTxBufferEncode env n w = .ok (r, w.packet e) v ∧ r ≠ .error) ∧
      ((∀ k, w.SentAsOne env e ((List.range k).map sizes)) ↔ ∀ k, ¬ w.CutsClientId e ((List.range k).map sizes)) := by
  have hs := FitsPacket.canSend ht hv
  have hsizes : ∀ k, ∀ n ∈ (List.range k).map sizes, 0 < n := by
    intro k n hn
    obtain ⟨i, -, rfl⟩ := List.mem_map.mp hn
    exact hpos i
  refine ⟨fun n hn => ?_, fun hall k hcut => ?_, fun hno k => connect_run_uncut hw hs hk hd hf (hsizes k) (hno k)⟩
  · have hcount : (entryFields w.heap e).length = 7 := by rw [connect_fields w hk]; rfl
    have hother : e.kind ≠ .publish0 := by rw [hk]; decide
    exact hw.encode hs n (.inl hother) (by omega) hn
  · have hnext : (List.range (k + 1)).map sizes = (List.range k).map sizes ++ [sizes k] := by
      rw [List.range_succ, List.map_append, List.map_singleton]
    obtain ⟨rs, v, hrun, -⟩ := hall (k + 1)
    obtain ⟨u, hu⟩ := (connect_run hw hs hk hd hf _ (hsizes (k + 1))).1 (by rw [hnext, List.dropLast_concat]; exact hcut)
    rw [hrun] at hu
    contradiction

theorem connect_buffering_anonymous :
    ¬ ∀ k, anonymousWorld.SentAsOne memoryEnv anonymousEntry ((List.range k).map fun i => if i = 1 then 1 else 13) := by
  have hsequence := @connect_buffering_iff Unit memoryEnv anonymousWorld _ ⟨rfl, rfl, rfl⟩ ⟨rfl, rfl⟩ rfl
    anonymousWorld_fits rfl (by decide) (fun i => if i = 1 then 1 else 13) (fun i => by split <;> decide)
  intro hall
  exact hsequence.2.mp hall 2 ⟨rfl, [13], [], rfl, by decide +kernel⟩

theorem connect_cut : anonymousWorld.FitsPacket anonymousEntry ∧
    ∃ v, [13, 1, 4].mapM (lmqttTxBufferEncode memoryEnv) anonymousWorld = .error .assertFailed v := by
  have hs := FitsPacket.canSend (w := anonymousWorld) (e := anonymousEntry) ⟨rfl, rfl⟩ anonymousWorld_fits
  have hcut : anonymousWorld.CutsClientId anonymousEntry [13, 1] := ⟨rfl, [13], [], rfl, by decide +kernel⟩
  exact ⟨anonymousWorld_fits,
    (connect_run ⟨rfl, rfl, rfl⟩ hs rfl rfl (by decide) [13, 1, 4] (by decide)).1 hcut⟩

end Sequence

end LightMqtt
