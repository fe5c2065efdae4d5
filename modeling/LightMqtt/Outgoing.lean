import LightMqtt.Bodies
import LightMqtt.Standing

/-!
# The outgoing stream of a run

Whatever is put into the store of the encoder or taken from it between two calls,
and whatever the sizes of its buffers are, the bytes that come out are those of
the entries one behind the other.
-/

namespace LightMqtt

open Exec

variable {σ : Type} {env : Env σ} {rest : σ → ℕ → List Byte}

/-! ### Entries one behind the other -/

/- Each of the entries is counted. -/
def Heap.countedAll (h : Heap) (es : List Entry) : Heap := es.foldl Heap.counted h

section Counted
variable {h h' : Heap} {e : Entry} {es : List Entry}

theorem countedAll_append (h : Heap) (es es' : List Entry) : h.countedAll (es ++ es') = (h.countedAll es).countedAll es' :=
  List.foldl_append

theorem countedAll_congr (hs : h'.still = h.still) (es : List Entry) : (h'.countedAll es).still = (h.countedAll es).still := by
  induction es generalizing h h' with
  | nil => exact hs
  | cons e es ih => exact ih (counted_congr hs e)

theorem valid_countedAll (h : Heap) (es : List Entry) (x : Entry) : x.Valid (h.countedAll es) ↔ x.Valid h := by
  induction es generalizing h with
  | nil => rfl
  | cons e es ih => exact (ih (h.counted e)).trans (valid_counted h e x)

theorem validated_countedAll (h : Heap) (es : List Entry) (x : Entry) : x.Validated (h.countedAll es) ↔ x.Validated h := by
  induction es generalizing h with
  | nil => rfl
  | cons e es ih => exact (ih (h.counted e)).trans (validated_counted h e x)

theorem str_countedAll (w : World σ) (es : List Entry) (r : StrRef) :
    ({ w with heap := w.heap.countedAll es } : World σ).str r = w.str r := by
  induction es generalizing w with
  | nil => rfl
  | cons e es ih => exact (ih { w with heap := w.heap.counted e }).trans (str_counted w e r)

theorem lineFields_append (h : Heap) (es es' : List Entry) :
    lineFields h (es ++ es') = lineFields h es ++ lineFields (h.countedAll es) es' := by
  induction es generalizing h with
  | nil => rfl
  | cons e es ih =>
    rw [List.cons_append, lineFields, lineFields, ih, List.append_assoc]
    rfl

theorem lineFields_singleton (h : Heap) (e : Entry) : lineFields h [e] = entryFields h e :=
  List.append_nil _

theorem lineFields_concat (h : Heap) (es : List Entry) (e : Entry) :
    lineFields h (es ++ [e]) = lineFields h es ++ entryFields (h.countedAll es) e := by
  rw [lineFields_append, lineFields_singleton]

theorem lineFields_mem {f : Field} (hf : f ∈ lineFields h es) : ∃ e ∈ es, ∃ done, f ∈ entryFields (h.countedAll done) e := by
  induction es generalizing h with
  | nil => contradiction
  | cons e es ih =>
    rcases List.mem_append.mp hf with hf | hf
    · exact ⟨e, List.mem_cons_self .., [], hf⟩
    · obtain ⟨x, hx, done, hfx⟩ := ih hf
      exact ⟨x, List.mem_cons_of_mem _ hx, e :: done, hfx⟩

/- A string is a field of an entry, however often its message was counted. -/
theorem str_mem_counted {r : StrRef} {el ie : Bool} (x : Entry) (hf : .str r el ie ∈ entryFields (h.counted x) e) :
    .str r el ie ∈ entryFields h e := by
  obtain ⟨⟨y, i⟩, hy, hfy⟩ := List.mem_map.mp hf
  rw [entryEncoders_counted] at hy
  refine List.mem_map.mpr ⟨(y, i), hy, ?_⟩
  cases y with
  | subscribeQos | connectFixedHeader | connectVariableHeader | subscribeHeaderSubscribe | subscribeHeaderUnsubscribe
  | publishFixedHeader => contradiction
  | _ => exact hfy

theorem str_mem_countedAll {r : StrRef} {el ie : Bool} (done : List Entry)
    (hf : .str r el ie ∈ entryFields (h.countedAll done) e) : .str r el ie ∈ entryFields h e := by
  induction done generalizing h with
  | nil => exact hf
  | cons x done ih => exact str_mem_counted x (ih hf)

end Counted

/-! ### What a call leaves alone -/

/- None of the fields takes its bytes from the callback `d`. -/
def World.Avoids (w : World σ) (d : ℕ) (fs : List Field) : Prop :=
  ∀ r el ie, .str r el ie ∈ fs → (w.str r).read = true → d ≠ (w.str r).data

/-- What a call of the encoder does to what comes behind its line. -/
structure Advanced (rest : σ → ℕ → List Byte) (w v : World σ) : Prop where
  done : ∃ done, w.line = done ++ v.line ∧ v.heap.still = (w.heap.countedAll done).still ∧
    (v.tx.closed = true ↔ w.tx.closed = true ∨ ∃ e ∈ done, e.kind = .disconnect)
  fields : ∃ fs, w.fields = fs ++ v.fields
  strings : ∀ r, r.isStored = true → (v.str r).still = (w.str r).still
  sources : ∀ d, w.Avoids d w.fields → rest v.app d = rest w.app d

section Advanced
variable {w v u : World σ}

theorem Advanced.refl (w : World σ) : Advanced rest w w :=
  ⟨⟨[], rfl, rfl, by simp⟩, ⟨[], rfl⟩, fun _ _ => rfl, fun _ _ => rfl⟩

theorem Advanced.trans (hw : w.Encoding) (h : Advanced rest w v) (h' : Advanced rest v u) : Advanced rest w u := by
  obtain ⟨done, hline, hheap, hclosed⟩ := h.done
  obtain ⟨done', hline', hheap', hclosed'⟩ := h'.done
  obtain ⟨fs, hfields⟩ := h.fields
  obtain ⟨fs', hfields'⟩ := h'.fields
  refine ⟨⟨done ++ done', ?_, ?_, ?_⟩, ⟨fs ++ fs', ?_⟩, fun r hr => (h'.strings r hr).trans (h.strings r hr), fun d hd => ?_⟩
  · rw [hline, hline', List.append_assoc]
  · rw [hheap', countedAll_congr hheap, countedAll_append]
  · rw [hclosed', hclosed]
    simp only [List.mem_append, or_assoc, or_and_right, exists_or]
  · rw [hfields, hfields', List.append_assoc]
  · refine (h'.sources d fun r el ie hmem hread => ?_).trans (h.sources d hd)
    have hin : .str r el ie ∈ w.fields := by
      rw [hfields]
      exact List.mem_append_right _ hmem
    obtain ⟨off, hstored, -⟩ := hw.fields.ready hin
    have hsame := h.strings r hstored
    have hdata : (v.str r).data = (w.str r).data := congrArg (·.data) hsame
    have hrd : (v.str r).read = (w.str r).read := congrArg (·.read) hsame
    rw [hdata]
    rw [hrd] at hread
    exact hd r el ie hin hread

theorem Alike.advanced (h : Alike w u) (hv : Advanced rest u v) : Advanced rest w v := by
  obtain ⟨done, hline, hheap, hclosed⟩ := hv.done
  obtain ⟨fs, hfields⟩ := hv.fields
  refine ⟨⟨done, ?_, ?_, ?_⟩, ⟨fs, ?_⟩, fun r hr => ?_, fun d hd => ?_⟩
  · rw [← h.line, hline]
  · rw [hheap, countedAll_congr h.heap]
  · rw [hclosed, h.tx]
  · rw [← h.fields, hfields]
  · rw [hv.strings r hr, h.str]
  · rw [← h.app]
    apply hv.sources
    intro r el ie hmem hread
    rw [h.fields] at hmem
    rw [h.str] at hread ⊢
    exact hd r el ie hmem hread

end Advanced

section Loop
variable {w v : World σ} {e : Entry} {es : List Entry}

/- The end of an entry. -/
theorem Finished.advanced (env : Env σ) (hl : w.line = e :: es) (hp : w.tx.internal.pos = (entryFields w.heap e).length)
    (hw : w.Encoding) (h : Finished rest { w with heap := w.heap.counted e } e es v)
    (hc : v.tx.closed = true ↔ e.kind = .disconnect) : Advanced rest w v := by
  obtain ⟨hopen, -⟩ := line_cons hl
  have hnext : v.Encoding ∧ v.tx.internal.offset = 0 ∧ v.fields = w.fields ∧
      (Emitted env rest v 0 [] v → Emitted env rest w 0 [] v) :=
    h.next hw hl hp
  obtain ⟨-, -, hfields, -⟩ := hnext
  have hunread := h.unread
  refine ⟨⟨[e], ?_, ?_, ?_⟩, ⟨[], ?_⟩, fun r hr => ?_, fun d _ => congrFun h.app d⟩
  · rw [hl, h.line]
    rfl
  · rw [h.heap]
    rfl
  · rw [hc, hopen]
    simp
  · rw [hfields]
    rfl
  · rw [hunread.str r hr]

/- An encoder within its field, or at the end of it. -/
theorem Sends.advanced {f : Field} {fs : List Field} (h : Sends rest f w v) (hf : w.fields = f :: fs) (i : TxInternal)
    (hlater : ∃ l, f :: fs = l ++ (v.setTx i).fields) : Advanced rest w (v.setTx i) := by
  obtain ⟨hline, -, -, -, hclosed⟩ := h.line i
  refine ⟨⟨[], hline.symm, h.heap, ?_⟩, ?_, fun r hr => h.strings i r hr, fun d hd => ?_⟩
  · rw [hclosed]
    simp
  · rwa [hf]
  · refine h.others d fun r el ie he hread => hd r el ie ?_ hread
    rw [hf, he]
    exact List.mem_cons_self ..

/-- The loop leaves alone what comes behind its line. -/
theorem advancedRule : LoopRule env rest (fun w _ _ v => Advanced rest w v) := by
  have hstays : ∀ {w s v : World σ} {e es f fs}, w.AtField e es f fs s → Sends rest f s v → ∀ i : TxInternal,
      i.pos = s.tx.internal.pos → Advanced rest w (v.setTx i) := by
    intro w s v e es f fs hat hv i hi
    refine hat.alike.advanced (hv.advanced hat.fields i ⟨[], ?_⟩)
    rw [hv.fields i hat.line, hi, ← fields_cons hat.line, hat.fields]
    rfl
  constructor
  case exit => exact fun w _ _ _ => .refl w
  case blocked =>
    intro w s e es f fs n bytes v hat hv
    cases hv with
    | wouldBlock bytes v hv => exact hstays hat hv v.tx.internal hv.pos
  case part =>
    intro w s e es f fs n bytes v hat hv
    cases hv with
    | «continue» bytes v hv => exact hstays hat hv _ hv.pos
  case all =>
    intro w s e es f fs n bytes v bs t hat hv ht
    cases hv with
    | finished bytes v hv hb hlen hc hp =>
      set i : TxInternal := { v.tx.internal with pos := v.tx.internal.pos + 1, offset := 0 } with hi
      have hgo : (v.setTx i).Encoding ∧ (v.setTx i).fields = fs ∧
          (Emitted env rest (v.setTx i) (n - bytes.length) bs t → Emitted env rest s n (bytes ++ bs) t) :=
        hv.goes_on hat.encoding hat.line hat.within hat.fields i ⟨by rw [hi, hv.pos], rfl,
          hv.error.trans hat.encoding.error⟩ hc hb
          hlen hp
      have hstep := hv.advanced hat.fields i ⟨[f], by rw [hgo.2.1]; rfl⟩
      exact hat.alike.advanced (hstep.trans hat.encoding ht)
  case ended =>
    intro w e es n v bs t hw hl hp hv hc ht
    exact (hv.advanced env hl hp hw hc).trans hw ht

theorem lmqttTxBufferEncode_advanced (bufLen : ℕ) (w : World σ) (hs : (∀ f ∈ w.fields, w.InMemory f) ∨ env.Streams rest)
    (hq : (∀ e ∈ w.line, e.kind ≠ .publish0) ∨ env.Silent rest) (hw : w.Encoding) :
    Wp (lmqttTxBufferEncode env bufLen) w (fun _ v => Advanced rest w v) fun _ _ => True :=
  (lmqttTxBufferEncode_run advancedRule bufLen w hs hq hw).mono (fun _ _ h => h.2) fun _ _ _ => trivial

end Loop

/-! ### Runs of the encoder and its store -/

/-- Calls of the encoder, and what its store accepts and gives back between them: up to `v` the
entries `es` were accepted, those first that are pending in `w`, the entries `answered` were
taken out, and from `w` to `v` the bytes `bs` came out. -/
inductive Flow {ρ : Type} [Reentrant ρ] (env : EnvOf σ ρ) (w : World σ) : List Entry → List Entry → List Byte → World σ → Prop
  | start : Flow env w w.txStore.pending [] [] w
  | encode (es answered bs v v' r) (n : ℕ) (hv : Flow env w es answered bs v) (h : lmqttTxBufferEncode env n v = .ok r v') :
    Flow env w es answered (bs ++ r.2) v'
  | append (es answered bs v s) (e : Entry) (hv : Flow env w es answered bs v) (h : v.txStore.append e = some s) :
    Flow env w (es ++ [e]) answered bs (v.setStore v.tx.store s)
  | pop (es answered bs v s) (e : Entry) (k : Kind) (id : PacketId) (hv : Flow env w es answered bs v)
    (h : v.txStore.popMarkedBy k id = some (e, s)) : Flow env w es (answered ++ [e]) bs (v.setStore v.tx.store s)

/-- Entries that the encoder can send: valid ones, whose strings are in memory or have a callback
of their own. -/
structure World.Provides (w : World σ) (es : List Entry) : Prop where
  typed : ∀ e ∈ es, e.WellTyped ∧ e.Valid w.heap
  ready : ∀ f ∈ lineFields w.heap es, w.Ready 0 f
  apart : (lineFields w.heap es).Pairwise w.Apart

/- The bytes of their packets, one behind the other. -/
def World.packets (rest : σ → ℕ → List Byte) (w : World σ) (es : List Entry) : List Byte :=
  (lineFields w.heap es).flatMap (w.left rest 0)

/-- What holds between two calls. -/
structure World.Flowing (rest : σ → ℕ → List Byte) (w : World σ) (es answered : List Entry) (bs : List Byte) (v : World σ) :
    Prop where
  encoding : v.Encoding
  done : ∃ done, untilDisconnect es = done ++ v.line ∧ es = done ++ v.txStore.pending ∧
    v.heap.still = (w.heap.countedAll done).still ∧ (v.tx.closed = true ↔ ∃ e ∈ done, e.kind = .disconnect) ∧
    (v.txStore.sent ++ answered).Perm (done.filter (·.kind.expectsResponse))
  bytes : bs ++ v.owed rest = w.packets rest (untilDisconnect es)
  strings : ∀ r, r.isStored = true → (v.str r).still = (w.str r).still
  sources : ∀ d, w.Avoids d (lineFields w.heap es) → rest v.app d = rest w.app d

section Flow
variable {w v : World σ} {es answered : List Entry} {bs : List Byte}

theorem untilDisconnect_starts (l : List Entry) : untilDisconnect l <+: l := by
  induction l with
  | nil => exact List.prefix_rfl
  | cons e es ih =>
    rw [untilDisconnect]
    split
    · exact ⟨es, rfl⟩
    · exact (List.prefix_cons_inj e).mpr ih

theorem untilDisconnect_of_none {l : List Entry} (h : ¬ ∃ e ∈ l, e.kind = .disconnect) : untilDisconnect l = l := by
  induction l with
  | nil => rfl
  | cons e es ih =>
    rw [untilDisconnect, if_neg fun hk => h ⟨e, List.mem_cons_self .., hk⟩, ih]
    intro hex
    obtain ⟨x, hx, hk⟩ := hex
    exact h ⟨x, List.mem_cons_of_mem _ hx, hk⟩

/- The fields that are still to be sent are the last ones of the entries as they were accepted. -/
theorem World.Flowing.fields (h : w.Flowing rest es answered bs v) :
    ∃ fs, lineFields w.heap (untilDisconnect es) = fs ++ v.fields := by
  obtain ⟨done, hline, -, hheap, -⟩ := h.done
  rw [hline, lineFields_append, ← lineFields_congr hheap]
  cases hl : v.line with
  | nil => exact ⟨_, by rw [fields_nil hl]; rfl⟩
  | cons e l =>
    rw [fields_cons hl, lineFields]
    refine ⟨lineFields w.heap done ++ (entryFields v.heap e).take v.tx.internal.pos, ?_⟩
    rw [List.append_assoc, ← List.append_assoc (List.take _ _), List.take_append_drop]

theorem lineFields_starts (h : Heap) {es' : List Entry} (hs : es' <+: es) : lineFields h es' <+: lineFields h es := by
  obtain ⟨more, rfl⟩ := hs
  exact ⟨_, (lineFields_append h es' more).symm⟩

theorem World.Flowing.fields_mem (h : w.Flowing rest es answered bs v) {f : Field} (hf : f ∈ v.fields) :
    f ∈ lineFields w.heap es := by
  obtain ⟨fs, hfs⟩ := h.fields
  apply (lineFields_starts w.heap (untilDisconnect_starts es)).mem
  rw [hfs]
  exact List.mem_append_right _ hf

theorem World.Flowing.line_mem (h : w.Flowing rest es answered bs v) {e : Entry} (he : e ∈ v.line) : e ∈ es := by
  obtain ⟨done, hline, -⟩ := h.done
  exact (untilDisconnect_starts es).mem (by rw [hline]; exact List.mem_append_right _ he)

theorem World.Flowing.inMemory (h : w.Flowing rest es answered bs v) (hp : w.Provides es)
    (hm : ∀ f ∈ lineFields w.heap es, w.InMemory f) : ∀ f ∈ v.fields, v.InMemory f := by
  intro f hf r el ie hfe
  have hin := h.fields_mem hf
  have hready := hp.ready f hin
  rw [hfe] at hready
  have hread : (v.str r).read = (w.str r).read := congrArg (·.read) (h.strings r hready.1)
  rw [hread]
  exact hm f hin r el ie hfe

/- A call of the encoder. -/
theorem World.Flowing.encode (h : w.Flowing rest es answered bs v) (hp : w.Provides es)
    (hs : (∀ f ∈ lineFields w.heap es, w.InMemory f) ∨ env.Streams rest)
    (hq : (∀ e ∈ es, e.kind ≠ .publish0) ∨ env.Silent rest) (n : ℕ) :
    Wp (lmqttTxBufferEncode env n) v (fun r v' => r.1 ≠ .error ∧ w.Flowing rest es answered (bs ++ r.2) v' ∧
      Emitted env rest v n r.2 v')
      fun x _ => v.Halts env env.fuel (v.turns + 1) x := by
  have hmem : (∀ f ∈ v.fields, v.InMemory f) ∨ env.Streams rest := hs.imp_left (h.inMemory hp)
  have hquiet : (∀ e ∈ v.line, e.kind ≠ .publish0) ∨ env.Silent rest := hq.imp_left fun hq e he => hq e (h.line_mem he)
  have hboth := (lmqttTxBufferEncode_emitted n v hmem hquiet h.encoding).and
      (lmqttTxBufferEncode_advanced n v hmem hquiet h.encoding)
  refine hboth.mono (fun r v' hv => ?_) fun x _ hx => hx.1
  obtain ⟨⟨hr, hem⟩, hadv⟩ := hv
  refine ⟨hr, ⟨hem.encoding, ?_, ?_, fun r hr => (hem.strings r hr).trans (h.strings r hr), fun d hd => ?_⟩, hem⟩
  · obtain ⟨done, hline, hpend, hheap, hclosed, hsent⟩ := h.done
    obtain ⟨more, hmline, hmpend, hmsent⟩ := hem.done
    obtain ⟨more', hmline', hmheap, hmclosed⟩ := hadv.done
    have hsame : more' = more := List.append_cancel_right (hmline'.symm.trans hmline)
    rw [hsame] at hmheap hmclosed
    refine ⟨done ++ more, ?_, ?_, ?_, ?_, ?_⟩
    · rw [hline, hmline, List.append_assoc]
    · rw [List.append_assoc, ← hmpend]
      exact hpend
    · rw [hmheap, countedAll_congr hheap, countedAll_append]
    · rw [hmclosed, hclosed]
      simp only [List.mem_append, or_and_right, exists_or]
    · rw [hmsent, List.filter_append, List.append_assoc]
      refine (List.Perm.append_left _ List.perm_append_comm).trans ?_
      rw [← List.append_assoc]
      exact hsent.append_right _
  · rw [List.append_assoc, ← hem.owed]
    exact h.bytes
  · refine (hadv.sources d fun r el ie hf hread => ?_).trans (h.sources d hd)
    have hin := h.fields_mem hf
    have hstill := h.strings r (hp.ready _ hin).1
    have hrd : (v.str r).read = (w.str r).read := congrArg (·.read) hstill
    have hdata : (v.str r).data = (w.str r).data := congrArg (·.data) hstill
    rw [hdata]
    rw [hrd] at hread
    exact hd r el ie hin hread

theorem txStore_setStore (v : World σ) (s : Store) : (v.setStore v.tx.store s).txStore = s := by
  unfold World.txStore
  rw [World.setStore_tx, World.store_setStore_self]

theorem str_setStore (v : World σ) (r : StoreRef) (s : Store) (x : StrRef) : (v.setStore r s).str x = v.str x := by
  cases r <;> cases x <;> rfl

theorem unread_setStore (rest : σ → ℕ → List Byte) (v : World σ) (r : StoreRef) (s : Store) : Unread rest v (v.setStore r s) :=
  ⟨fun x _ => str_setStore v r s x, by rw [World.setStore_app]⟩

/- Behind the line the store may change. -/
theorem same_line (rest : σ → ℕ → List Byte) {s : Store} (hline : (v.setStore v.tx.store s).line = v.line) (h : v.Encoding) :
    (v.setStore v.tx.store s).Encoding ∧ (v.setStore v.tx.store s).owed rest = v.owed rest := by
  have htx := World.setStore_tx v v.tx.store s
  have hheap := World.setStore_heap v v.tx.store s
  have hfields : (v.setStore v.tx.store s).fields = v.fields := by
    unfold World.fields
    rw [hline, hheap, htx]
  obtain ⟨hsend, hbytes⟩ := (unread_setStore rest v v.tx.store s).sendable h.fields
  constructor
  · constructor
    · rw [htx]
      exact h.error
    · rw [hline, htx]
      exact h.idle
    · rw [hline, hheap, htx]
      exact h.pos
    · rw [hline, hheap, htx]
      exact h.between
    · rw [hfields, htx]
      exact hsend
    · rw [hfields, htx]
      exact h.caches
    · rw [hline, hheap]
      exact h.typed
  · unfold World.owed
    rw [hfields, htx, hbytes]

/- An entry that was sent is answered. -/
theorem World.Flowing.pop (h : w.Flowing rest es answered bs v) {s : Store} {e : Entry} (hpend : s.pending = v.txStore.pending)
    (hsent : (s.sent ++ [e]).Perm v.txStore.sent) : w.Flowing rest es (answered ++ [e]) bs (v.setStore v.tx.store s) := by
  have hstore := txStore_setStore v s
  have htx := World.setStore_tx v v.tx.store s
  have hline : (v.setStore v.tx.store s).line = v.line := by
    unfold World.line
    rw [htx, hstore, hpend]
  obtain ⟨hencoding, howed⟩ := same_line rest hline h.encoding
  refine ⟨hencoding, ?_, by rw [howed]; exact h.bytes, fun r hr => ?_, fun d hd => ?_⟩
  · obtain ⟨done, hdone, hall, hstill, hclosed, hperm⟩ := h.done
    rw [hline, hstore, hpend, World.setStore_heap, htx]
    refine ⟨done, hdone, hall, hstill, hclosed, ?_⟩
    have hmoved : (s.sent ++ (answered ++ [e])).Perm ((s.sent ++ [e]) ++ answered) := by
      rw [List.append_assoc]
      exact List.Perm.append_left _ List.perm_append_comm
    exact hmoved.trans ((hsent.append_right answered).trans hperm)
  · rw [str_setStore]
    exact h.strings r hr
  · rw [World.setStore_app]
    exact h.sources d hd

/- A string that nothing was taken from. -/
theorem ready_of_still {r : StrRef} {el ie : Bool} (hs : (v.str r).still = (w.str r).still)
    (hd : (w.str r).read = true → rest v.app (w.str r).data = rest w.app (w.str r).data) (hr : w.Ready 0 (.str r el ie)) :
    v.Ready 0 (.str r el ie) ∧ v.left rest 0 (.str r el ie) = w.left rest 0 (.str r el ie) := by
  obtain ⟨hstored, hform, hready⟩ := hr
  have hlen : (v.str r).len = (w.str r).len := congrArg (·.len) hs
  have hread : (v.str r).read = (w.str r).read := congrArg (·.read) hs
  have hbuf : (v.str r).buf = (w.str r).buf := congrArg (·.buf) hs
  have hdata : (v.str r).data = (w.str r).data := congrArg (·.data) hs
  have hzero : stringOffset el 0 = 0 := by cases el <;> rfl
  rw [hzero] at hready
  constructor
  · refine ⟨hstored, hform, ?_⟩
    rw [hzero]
    refine ⟨by rw [hlen]; exact hready.len, Nat.zero_le _, ?_⟩
    rw [hlen, hread, hbuf]
    rcases hready.source with hz | hrd | ⟨hrd, -, hm⟩
    · exact .inl hz
    · exact .inr (.inl hrd)
    · exact .inr (.inr ⟨hrd, .inl rfl, hm⟩)
  · have hfrom : ∀ k, (v.str r).from (rest v.app) k = (w.str r).from (rest w.app) k := by
      intro k
      unfold LString.from
      rw [hlen, hread, hbuf, hdata]
      by_cases hrd : (w.str r).read = true
      · rw [hd hrd]
      · rw [if_neg hrd, if_neg hrd]
    unfold World.left
    simp only [hlen, hfrom]

theorem apart_still {f g : Field} {off off' : ℕ} (hf : v.Ready off f) (hg : v.Ready off' g)
    (hs : ∀ r, r.isStored = true → (v.str r).still = (w.str r).still) (ha : w.Apart f g) : v.Apart f g := by
  intro r el ie r' el' ie' he he' hr hr'
  subst he he'
  have hstill := hs r hf.1
  have hstill' := hs r' hg.1
  have hread : (v.str r).read = (w.str r).read := congrArg (·.read) hstill
  have hread' : (v.str r').read = (w.str r').read := congrArg (·.read) hstill'
  have hdata : (v.str r).data = (w.str r).data := congrArg (·.data) hstill
  have hdata' : (v.str r').data = (w.str r').data := congrArg (·.data) hstill'
  rw [hread] at hr
  rw [hread'] at hr'
  rw [hdata, hdata']
  exact ha r el ie r' el' ie' rfl rfl hr hr'

variable {e : Entry}

/- What an entry that comes last is sent from was not touched. -/
theorem World.Flowing.untouched (h : w.Flowing rest es answered bs v) (hp : w.Provides (es ++ [e])) {r : StrRef} {el ie : Bool}
    (hf : .str r el ie ∈ entryFields (w.heap.countedAll es) e) (hread : (w.str r).read = true) :
    rest v.app (w.str r).data = rest w.app (w.str r).data := by
  refine h.sources _ fun r' el' ie' hf' hread' => ?_
  have hapart := hp.apart
  rw [lineFields_concat] at hapart
  have hcross := (List.pairwise_append.mp hapart).2.2 _ hf' (.str r el ie) hf
  exact (hcross r' el' ie' r el ie rfl rfl hread' hread).symm

/- The fields of an entry that comes last. -/
theorem World.Flowing.last (h : w.Flowing rest es answered bs v) (hp : w.Provides (es ++ [e])) :
    entryFields (v.heap.countedAll v.line) e = entryFields (w.heap.countedAll (untilDisconnect es)) e ∧
      ∀ f ∈ entryFields (w.heap.countedAll es) e, v.Ready 0 f ∧ v.left rest 0 f = w.left rest 0 f := by
  obtain ⟨done, hline, hall, hheap, -⟩ := h.done
  constructor
  · rw [entryFields_congr (countedAll_congr hheap v.line), ← countedAll_append, ← hline]
  · intro f hf
    have hready : w.Ready 0 f := hp.ready f (by rw [lineFields_concat]; exact List.mem_append_right _ hf)
    cases f with
    | header bytes => exact ⟨hready, rfl⟩
    | str r el ie => exact ready_of_still (h.strings r hready.1) (h.untouched hp hf) hready

/- Between two entries the encoder stands at the first byte of a field. -/
theorem World.Encoding.between_fields (h : v.Encoding) (hf : v.fields = []) (hc : v.tx.closed = false) :
    v.tx.internal.offset = 0 ∧ v.tx.internal.buffer.encoded = false := by
  refine h.between (fun e es hl => ?_) hc
  rw [fields_cons hl, List.append_eq_nil_iff, List.drop_eq_nil_iff] at hf
  exact le_antisymm (h.pos e es hl) hf.1

theorem bytes_append (w : World σ) (off : ℕ) (l l' : List Field) (h : l = [] → off = 0) :
    w.bytes rest off (l ++ l') = w.bytes rest off l ++ l'.flatMap (w.left rest 0) := by
  cases l with
  | nil =>
    rw [h rfl]
    cases l' <;> rfl
  | cons f l =>
    change w.left rest off f ++ (l ++ l').flatMap _ = (w.left rest off f ++ l.flatMap _) ++ _
    rw [List.flatMap_append, List.append_assoc]

/- An entry that is accepted before a DISCONNECT comes last in the line. -/
theorem World.Flowing.append_line (h : w.Flowing rest es answered bs v) {s : Store} (hs : v.txStore.append e = some s)
    (hd : ¬ ∃ x ∈ es, x.kind = .disconnect) : v.tx.closed = false ∧ v.line = v.txStore.pending ∧
      (v.setStore v.tx.store s).line = v.line ++ [e] ∧ untilDisconnect (es ++ [e]) = es ++ [e] := by
  obtain ⟨done, hline, hall, -, hclosed, -⟩ := h.done
  have hpend := (Store.append_spec _ _ _ hs).pending_eq
  have hopen : v.tx.closed = false := by
    by_contra hc
    obtain ⟨x, hx, hk⟩ := hclosed.mp (by simpa using hc)
    exact hd ⟨x, by rw [hall]; exact List.mem_append_left _ hx, hk⟩
  have hnone : ¬ ∃ x ∈ v.txStore.pending, x.kind = .disconnect := by
    rintro ⟨x, hx, hk⟩
    exact hd ⟨x, by rw [hall]; exact List.mem_append_right _ hx, hk⟩
  have hlast : ∀ l : List Entry, (¬ ∃ x ∈ l, x.kind = .disconnect) → untilDisconnect (l ++ [e]) = l ++ [e] := by
    intro l hl
    rw [untilDisconnect_append, if_neg hl, untilDisconnect_of_none hl]
    congr 1
    rw [untilDisconnect]
    split <;> rfl
  have hsame : v.line = v.txStore.pending := by
    unfold World.line
    rw [hopen]
    exact untilDisconnect_of_none hnone
  refine ⟨hopen, hsame, ?_, hlast es hd⟩
  rw [hsame]
  unfold World.line
  rw [World.setStore_tx, txStore_setStore, hopen, hpend]
  exact hlast _ hnone

/- Behind a DISCONNECT nothing is sent. -/
theorem World.Flowing.append_behind (h : w.Flowing rest es answered bs v) {s : Store} (hs : v.txStore.append e = some s)
    (hd : ∃ x ∈ es, x.kind = .disconnect) :
        (v.setStore v.tx.store s).line = v.line ∧ untilDisconnect (es ++ [e]) = untilDisconnect es := by
  obtain ⟨done, hline, hall, -, hclosed, -⟩ := h.done
  have hpend := (Store.append_spec _ _ _ hs).pending_eq
  constructor
  · unfold World.line
    rw [World.setStore_tx, txStore_setStore, hpend]
    cases hc : v.tx.closed with
    | true => rfl
    | false =>
      have hlater : ∃ x ∈ v.txStore.pending, x.kind = .disconnect := by
        obtain ⟨x, hx, hk⟩ := hd
        rw [hall] at hx
        rcases List.mem_append.mp hx with hx | hx
        · have hyes := hclosed.mpr ⟨x, hx, hk⟩
          rw [hc] at hyes
          contradiction
        · exact ⟨x, hx, hk⟩
      rw [untilDisconnect_append, if_pos hlater]
  · rw [untilDisconnect_append, if_pos hd]

/- The fields of an entry come last. -/
theorem World.Flowing.append_fields (h : w.Flowing rest es answered bs v) (hp : w.Provides (es ++ [e])) {u : World σ}
    (hline : u.line = v.line ++ [e]) (hheap : u.heap = v.heap) (htx : u.tx = v.tx) (hc : v.tx.closed = false)
    (hd : untilDisconnect es = es) : u.fields = v.fields ++ entryFields (w.heap.countedAll es) e := by
  have hlast := (h.last hp).1
  rw [hd] at hlast
  cases hl : v.line with
  | nil =>
    rw [hl] at hline hlast
    rw [fields_nil hl, fields_cons hline, hheap, htx, h.encoding.idle hl hc]
    change entryFields v.heap e ++ [] = [] ++ _
    rw [List.append_nil]
    exact hlast
  | cons x l =>
    rw [hl] at hline hlast
    rw [List.cons_append] at hline
    have htail : lineFields (v.heap.counted x) (l ++ [e]) =
        lineFields (v.heap.counted x) l ++ entryFields (w.heap.countedAll es) e := by
      rw [lineFields_concat]
      congr 1
    rw [fields_cons hl, fields_cons hline, hheap, htx, htail, List.append_assoc]

/- An entry is accepted before a DISCONNECT. -/
theorem World.Flowing.append_before (h : w.Flowing rest es answered bs v) (hp : w.Provides (es ++ [e])) {s : Store}
    (hs : v.txStore.append e = some s) (hd : ¬ ∃ x ∈ es, x.kind = .disconnect) :
    (v.setStore v.tx.store s).Encoding ∧
      bs ++ (v.setStore v.tx.store s).owed rest = w.packets rest (untilDisconnect (es ++ [e])) := by
  obtain ⟨hopen, -, hline, hall⟩ := h.append_line hs hd
  have htx := World.setStore_tx v v.tx.store s
  have hheap := World.setStore_heap v v.tx.store s
  have hfields := h.append_fields hp hline hheap htx hopen (untilDisconnect_of_none hd)
  have hunread := unread_setStore rest v v.tx.store s
  have hbetween := fun hf => h.encoding.between_fields hf hopen
  obtain ⟨-, hready⟩ := h.last hp
  have hsub : ∀ f ∈ v.fields, f ∈ lineFields w.heap es := fun f hf => h.fields_mem hf
  -- the fields of the new entry are ready behind the others
  have hsend : v.Sendable v.tx.internal.offset (v.fields ++ entryFields (w.heap.countedAll es) e) := by
    have hold := h.encoding.fields
    refine ⟨fun f l hf => ?_, fun f hf => ?_, ?_⟩
    · cases hl : v.fields with
      | nil =>
        rw [hl, List.nil_append] at hf
        rw [(hbetween hl).1]
        exact (hready f (by rw [hf]; exact List.mem_cons_self ..)).1
      | cons g l' =>
        rw [hl] at hf hold
        obtain ⟨rfl, -⟩ := List.cons.inj hf
        exact hold.head g l' rfl
    · cases hl : v.fields with
      | nil =>
        rw [hl, List.nil_append] at hf
        exact (hready f (List.mem_of_mem_tail hf)).1
      | cons g l' =>
        rw [hl] at hf hold
        rcases List.mem_append.mp hf with hf | hf
        · exact hold.tail f hf
        · exact (hready f hf).1
    · have hapart := hp.apart
      rw [lineFields_concat] at hapart
      refine List.pairwise_append.mpr ⟨hold.apart, ?_, fun f hf g hg => ?_⟩
      · refine List.Pairwise.imp_of_mem (fun {f g} hf hg ha => ?_) (List.pairwise_append.mp hapart).2.1
        exact apart_still (hready f hf).1 (hready g hg).1 h.strings ha
      · obtain ⟨off, hf'⟩ := hold.ready hf
        exact apart_still hf' (hready g hg).1 h.strings ((List.pairwise_append.mp hapart).2.2 f (hsub f hf) g hg)
  obtain ⟨hsend', hbytes⟩ := hunread.sendable hsend
  constructor
  · constructor
    · rw [htx]
      exact h.encoding.error
    · intro hn
      rw [hline] at hn
      simp at hn
    · intro x l hx
      rw [htx, hheap]
      cases hl : v.line with
      | nil =>
        rw [h.encoding.idle hl hopen]
        exact Nat.zero_le _
      | cons y l' =>
        rw [hline, hl] at hx
        obtain ⟨rfl, -⟩ := List.cons.inj hx
        exact h.encoding.pos y l' hl
    · intro hend _
      rw [htx] at hend ⊢
      refine h.encoding.between (fun x l hx => ?_) hopen
      rw [hheap] at hend
      exact hend x (l ++ [e]) (by rw [hline, hx]; rfl)
    · rw [hfields, htx]
      exact hsend'
    · intro f fs hf
      rw [hfields] at hf
      rw [htx]
      cases hl : v.fields with
      | nil => exact caches_of_fresh (hbetween hl).2 f
      | cons g l =>
        rw [hl] at hf
        obtain ⟨rfl, -⟩ := List.cons.inj hf
        exact h.encoding.caches g l hl
    · intro x hx
      rw [hline] at hx
      rw [hheap]
      rcases List.mem_append.mp hx with hx | hx
      · exact h.encoding.typed x hx
      · obtain ⟨ht, hv⟩ := hp.typed e (by simp)
        obtain ⟨done, -, -, hstill, -⟩ := h.done
        rw [List.mem_singleton.mp hx, valid_congr hstill, valid_countedAll]
        exact ⟨ht, hv⟩
  · have hleft : (entryFields (w.heap.countedAll es) e).flatMap (v.left rest 0) =
        (entryFields (w.heap.countedAll es) e).flatMap (w.left rest 0) :=
      List.flatMap_congr fun f hf => (hready f hf).2
    have hold := h.bytes
    rw [untilDisconnect_of_none hd] at hold
    unfold World.owed
    rw [hfields, htx, hbytes, bytes_append _ _ _ _ fun hf => (hbetween hf).1, hleft, ← List.append_assoc, hall]
    change (bs ++ v.owed rest) ++ _ = _
    rw [hold]
    unfold World.packets
    rw [lineFields_concat, List.flatMap_append]

/-- An entry is accepted. -/
theorem World.Flowing.append (h : w.Flowing rest es answered bs v) (hp : w.Provides (es ++ [e])) {s : Store}
    (hs : v.txStore.append e = some s) : w.Flowing rest (es ++ [e]) answered bs (v.setStore v.tx.store s) := by
  have happ := Store.append_spec _ _ _ hs
  have htx := World.setStore_tx v v.tx.store s
  have hsources : ∀ d, w.Avoids d (lineFields w.heap (es ++ [e])) →
      rest (v.setStore v.tx.store s).app d = rest w.app d := by
    intro d hd
    rw [World.setStore_app]
    refine h.sources d fun r el ie hf => hd r el ie ?_
    rw [lineFields_append]
    exact List.mem_append_left _ hf
  have hstrings : ∀ r, r.isStored = true → ((v.setStore v.tx.store s).str r).still = (w.str r).still := by
    intro r hr
    rw [str_setStore]
    exact h.strings r hr
  obtain ⟨done, hdone, hall, hstill, hclosed, hsub⟩ := h.done
  by_cases hd : ∃ x ∈ es, x.kind = .disconnect
  · obtain ⟨hline, huntil⟩ := h.append_behind hs hd
    obtain ⟨hencoding, howed⟩ := same_line rest hline h.encoding
    refine ⟨hencoding, ⟨done, ?_, ?_, ?_, ?_, ?_⟩, ?_, hstrings, hsources⟩
    · rw [huntil, hline]
      exact hdone
    · rw [txStore_setStore, happ.pending_eq, ← List.append_assoc, ← hall]
    · rw [World.setStore_heap]
      exact hstill
    · rw [htx]
      exact hclosed
    · rw [txStore_setStore, happ.sent_eq]
      exact hsub
    · rw [howed, huntil]
      exact h.bytes
  · obtain ⟨-, hpend, hline, huntil⟩ := h.append_line hs hd
    obtain ⟨hencoding, hbytes⟩ := h.append_before hp hs hd
    refine ⟨hencoding, ⟨done, ?_, ?_, ?_, ?_, ?_⟩, hbytes, hstrings, hsources⟩
    · rw [huntil, hline, ← List.append_assoc, hpend, ← hall]
    · rw [txStore_setStore, happ.pending_eq, ← List.append_assoc, ← hall]
    · rw [World.setStore_heap]
      exact hstill
    · rw [htx]
      exact hclosed
    · rw [txStore_setStore, happ.sent_eq]
      exact hsub

theorem World.Provides.less {es' : List Entry} (h : w.Provides (es ++ es')) : w.Provides es := by
  have hstart := lineFields_starts w.heap (List.prefix_append es es')
  exact ⟨fun x hx => h.typed x (List.mem_append_left _ hx), fun f hf => h.ready f (hstart.mem hf),
    h.apart.sublist hstart.sublist⟩

/- A fresh encoder, whose store has nothing that was sent. -/
theorem flowing_start (hfresh : w.tx.internal = {}) (hopen : w.tx.closed = false) (hsent : w.txStore.sent = [])
    (hp : w.Provides w.txStore.pending) : w.Flowing rest w.txStore.pending [] [] w := by
  have hline : w.line = untilDisconnect w.txStore.pending := by
    unfold World.line
    rw [hopen]
    rfl
  obtain ⟨more, hmore⟩ := untilDisconnect_starts w.txStore.pending
  have hpart : w.Provides (untilDisconnect w.txStore.pending) := by
    have hp' := hp
    rw [← hmore] at hp'
    exact hp'.less
  have hfields : w.fields = lineFields w.heap (untilDisconnect w.txStore.pending) := by
    rw [← hline]
    cases hl : w.line with
    | nil => exact fields_nil hl
    | cons e l =>
      rw [fields_cons hl, hfresh]
      rfl
  refine ⟨encoding_fresh hfresh ?_ ?_ fun e he => ?_, ⟨[], ?_, rfl, rfl, ?_, ?_⟩, ?_, fun _ _ => rfl, fun _ _ => rfl⟩
  · rw [hfields]
    exact hpart.ready
  · rw [hfields]
    exact hpart.apart
  · rw [hline] at he
    exact hpart.typed e he
  · rw [hline]
    rfl
  · rw [hopen]
    simp
  · rw [hsent]
    exact List.Perm.refl _
  · rw [List.nil_append]
    unfold World.owed World.packets
    rw [hfresh, hfields]
    cases lineFields w.heap (untilDisconnect w.txStore.pending) <;> rfl

/-- What holds at the start holds between any two calls. -/
theorem Flow.flowing (h : Flow env w es answered bs v) (hfresh : w.tx.internal = {}) (hopen : w.tx.closed = false)
    (hsent : w.txStore.sent = []) (hp : w.Provides es)
    (hs : (∀ f ∈ lineFields w.heap es, w.InMemory f) ∨ env.Streams rest)
    (hq : (∀ e ∈ es, e.kind ≠ .publish0) ∨ env.Silent rest) : w.Flowing rest es answered bs v := by
  induction h with
  | start => exact flowing_start hfresh hopen hsent hp
  | encode es answered bs v v' r n hv h ih => exact (wp_ok ((ih hp hs hq).encode hp hs hq n) h).2.1
  | append es answered bs v s e hv h ih =>
    refine (ih hp.less (hs.imp_left fun hs f hf => hs f ?_)
      (hq.imp_left fun hq x hx => hq x (List.mem_append_left _ hx))).append hp h
    rw [lineFields_append]
    exact List.mem_append_left _ hf
  | pop es answered bs v s e k id hv h ih =>
    obtain ⟨pre, post, hrem, hlt, -⟩ := Store.popMarkedBy_spec _ _ _ _ _ h
    obtain ⟨mid, hbefore, hafter, hpend⟩ := hrem.marked hlt
    refine (ih hp hs hq).pop hpend ?_
    rw [hbefore, hafter, List.append_assoc]
    exact List.Perm.append_left _ List.perm_append_comm

/- An encoder in front of plain fields never stands behind the end of one. -/
theorem World.Flowing.halved (h : w.Flowing rest es answered bs v) (hp : w.Provides es)
    (hplain : ∀ f ∈ lineFields w.heap es, w.Plain f) (n : ℕ) : ¬ v.Halved n := by
  rintro ⟨f, fs, hf, r, rfl, hzero, -⟩
  have hin := h.fields_mem (by rw [hf]; exact List.mem_cons_self ..)
  have hlen : (v.str r).len = (w.str r).len := congrArg (·.len) (h.strings r (hp.ready _ hin).1)
  rw [hlen] at hzero
  exact (hplain _ hin).not_cut 1 1 ⟨r, rfl, hzero, rfl, rfl⟩

theorem plain_of_validated (hvalid : ∀ e ∈ es, e.kind ≠ .connect ∧ e.Validated w.heap) :
    ∀ f ∈ lineFields w.heap es, w.Plain f := by
  intro f hf
  obtain ⟨e, he, done, hfe⟩ := lineFields_mem hf
  obtain ⟨hk, hv⟩ := hvalid e he
  have hvalid' := (validated_countedAll w.heap done e).mpr hv
  have hplain := @entryFields_plain σ { w with heap := w.heap.countedAll done } e hk hvalid' f hfe
  cases f with
  | header bytes => exact hplain
  | str r el ie =>
    obtain ⟨hstored, hform⟩ := hplain
    rw [str_countedAll] at hform
    exact ⟨hstored, hform⟩

theorem atEnd_setStore {s : Store} (hf : (v.setStore v.tx.store s).fields = v.fields) (h : ¬ v.AtEnd) :
    ¬ (v.setStore v.tx.store s).AtEnd := by
  rintro ⟨f, fs, hfs, hstuck⟩
  refine h ⟨f, fs, hf ▸ hfs, ?_⟩
  rw [World.setStore_tx] at hstuck
  cases f with
  | header bytes => exact hstuck
  | str r el ie =>
    rw [stuck_str, str_setStore] at hstuck
    exact hstuck

theorem fields_setStore {s : Store} (hl : (v.setStore v.tx.store s).line = v.line) :
    (v.setStore v.tx.store s).fields = v.fields := by
  unfold World.fields
  rw [hl, World.setStore_heap, World.setStore_tx]

theorem World.Flowing.append_atEnd (h : w.Flowing rest es answered bs v) (hp : w.Provides (es ++ [e])) {s : Store}
    (hs : v.txStore.append e = some s) (hend : ¬ v.AtEnd) : ¬ (v.setStore v.tx.store s).AtEnd := by
  by_cases hd : ∃ x ∈ es, x.kind = .disconnect
  · exact atEnd_setStore (fields_setStore (h.append_behind hs hd).1) hend
  · obtain ⟨hopen, -, hline, -⟩ := h.append_line hs hd
    have hfields := h.append_fields hp hline (World.setStore_heap ..) (World.setStore_tx ..) hopen (untilDisconnect_of_none hd)
    have hnext := h.append hp hs
    cases hl : v.fields with
    | nil =>
      have hoff : (v.setStore v.tx.store s).tx.internal.offset = 0 := by
        rw [World.setStore_tx]
        exact (h.encoding.between_fields hl hopen).1
      exact (hnext.encoding.not_atEnd hoff).1
    | cons g l =>
      rintro ⟨f, fs, hfs, hstuck⟩
      rw [hfields, hl, List.cons_append] at hfs
      obtain ⟨rfl, -⟩ := List.cons.inj hfs
      refine hend ⟨g, l, hl, ?_⟩
      rw [World.setStore_tx] at hstuck
      cases g with
      | header bytes => exact hstuck
      | str r el ie =>
        rw [stuck_str, str_setStore] at hstuck
        exact hstuck

theorem Flow.not_atEnd (h : Flow env w es answered bs v) (hfresh : w.tx.internal = {}) (hopen : w.tx.closed = false)
    (hsent : w.txStore.sent = []) (hp : w.Provides es)
    (hs : (∀ f ∈ lineFields w.heap es, w.InMemory f) ∨ env.Streams rest)
    (hq : (∀ e ∈ es, e.kind ≠ .publish0) ∨ env.Silent rest)
    (hplain : ∀ f ∈ lineFields w.heap es, w.Plain f) : ¬ v.AtEnd := by
  induction h with
  | start =>
    have hstart : w.Flowing rest w.txStore.pending [] [] w := flowing_start hfresh hopen hsent hp
    refine (hstart.encoding.not_atEnd ?_).1
    rw [hfresh]
  | encode es answered bs v v' r n hv h ih =>
    have hflow := hv.flowing hfresh hopen hsent hp hs hq
    obtain ⟨-, -, hem⟩ := wp_ok (hflow.encode hp hs hq n) h
    intro hend
    rcases hem.atEnd hend with hend | hhalf
    · exact ih hp hs hq hplain hend
    · exact hflow.halved hp hplain n hhalf
  | append es answered bs v s e hv h ih =>
    have hless : ∀ f ∈ lineFields w.heap es, f ∈ lineFields w.heap (es ++ [e]) := by
      intro f hf
      rw [lineFields_append]
      exact List.mem_append_left _ hf
    have hs' := hs.imp_left fun hs f hf => hs f (hless f hf)
    have hq' : (∀ x ∈ es, x.kind ≠ .publish0) ∨ env.Silent rest := hq.imp_left fun hq x hx => hq x (List.mem_append_left _ hx)
    exact (hv.flowing hfresh hopen hsent hp.less hs' hq').append_atEnd hp h
      (ih hp.less hs' hq' fun f hf => hplain f (hless f hf))
  | pop es answered bs v s e k id hv h ih =>
    obtain ⟨pre, post, hrem, hlt, -⟩ := Store.popMarkedBy_spec _ _ _ _ _ h
    obtain ⟨mid, -, -, hpend⟩ := hrem.marked hlt
    refine atEnd_setStore (fields_setStore ?_) (ih hp hs hq hplain)
    unfold World.line
    rw [World.setStore_tx, txStore_setStore, hpend]

end Flow

/-! ### Flows that can be run -/

/-- What can happen to the encoder and its store. -/
inductive FlowOp
  | encode (bufLen : ℕ)
  | append (e : Entry)
  | pop (k : Kind) (id : PacketId)

/-- How far a flow is. -/
structure FlowState (σ : Type) where
  accepted : List Entry
  answered : List Entry
  bytes : List Byte
  world : World σ

def FlowOp.run (env : Env σ) (s : FlowState σ) : FlowOp → Option (FlowState σ)
  | .encode n =>
    match lmqttTxBufferEncode env n s.world with
    | .ok r v => some { s with bytes := s.bytes ++ r.2, world := v }
    | .error _ _ => none
  | .append e =>
    (s.world.txStore.append e).map fun t =>
      { s with accepted := s.accepted ++ [e], world := s.world.setStore s.world.tx.store t }
  | .pop k id =>
    (s.world.txStore.popMarkedBy k id).map fun r =>
      { s with answered := s.answered ++ [r.1], world := s.world.setStore s.world.tx.store r.2 }

def runFlow (env : Env σ) : List FlowOp → FlowState σ → Option (FlowState σ)
  | [], s => some s
  | op :: ops, s => (op.run env s).bind (runFlow env ops)

theorem flow_op {w : World σ} {s t : FlowState σ} {op : FlowOp} (hs : Flow env w s.accepted s.answered s.bytes s.world)
    (h : op.run env s = some t) : Flow env w t.accepted t.answered t.bytes t.world := by
  cases op with
  | encode n =>
    simp only [FlowOp.run] at h
    split at h
    · rename_i r v hr
      cases h
      exact .encode _ _ _ _ _ r n hs hr
    · contradiction
  | append e =>
    obtain ⟨t, ht, rfl⟩ := Option.map_eq_some_iff.mp h
    exact .append _ _ _ _ _ e hs ht
  | pop k id =>
    obtain ⟨r, hr, rfl⟩ := Option.map_eq_some_iff.mp h
    exact .pop _ _ _ _ _ r.1 k id hs hr

theorem flow_run {w : World σ} (ops : List FlowOp) {s t : FlowState σ} (hs : Flow env w s.accepted s.answered s.bytes s.world)
    (h : runFlow env ops s = some t) : Flow env w t.accepted t.answered t.bytes t.world := by
  induction ops generalizing s with
  | nil =>
    cases h
    exact hs
  | cons op ops ih =>
    obtain ⟨u, hu, ht⟩ := Option.bind_eq_some_iff.mp h
    exact ih (flow_op hs hu) ht

theorem provides_of_canSend {w : World σ} {es : List Entry} (h : ∀ e ∈ es, w.CanSend e) :
    w.Provides es ∧ ∀ f ∈ lineFields w.heap es, w.InMemory f := by
  have hmem : ∀ f ∈ lineFields w.heap es, w.Ready 0 f ∧ w.InMemory f := by
    intro f hf
    obtain ⟨e, he, done, hfe⟩ := lineFields_mem hf
    cases f with
    | header bytes =>
      obtain ⟨x, i, -, hx⟩ := entryFields_mem hfe
      refine ⟨List.length_pos_iff.mpr (field_header hx), fun r el ie hr => ?_⟩
      contradiction
    | str r el ie =>
      have hin := str_mem_countedAll done hfe
      exact ⟨(h e he).ready hin, (h e he).inMemory hin⟩
  exact ⟨⟨fun e he => ⟨(h e he).typed, (h e he).valid⟩, fun f hf => (hmem f hf).1, apart_inMemory fun f hf => (hmem f hf).2⟩,
    fun f hf => (hmem f hf).2⟩

/- A message that waits to be sent, and room for three entries more. -/
def sendingWorld : World Unit where
  rx := { store := .main, idSet := .empty 1 }
  tx := { store := .main }
  readBufCapacity := 4
  writeBufCapacity := 4
  mainStore := { entries := [publishEntry 2 0 3 0], capacity := 3 }
  connectStore := .empty 1
  currentStore := .main
  heap := smallHeap
  app := ()

def answerEntry : Entry := ⟨.puback, { packetId := 9 }⟩

/- The first message is cut, and answered before the second one is sent. -/
def sendingOps : List FlowOp :=
  [.encode 3, .append answerEntry, .encode 64, .pop .publish2 3, .append (publishEntry 2 1 8 1), .encode 5]

def sendingEntries : List Entry := [publishEntry 2 0 3 0, answerEntry, publishEntry 2 1 8 1]

theorem sendingWorld_publish (p : Ptr) (id : PacketId) (req : ℕ) : sendingWorld.CanSend (publishEntry 2 p id req) := by
  have hvalid : publishValidate (smallHeap.publishes 0) = true := by decide +kernel
  have hlen : publishLength (smallHeap.publishes 0) ≤ 268435455 := by decide +kernel
  have hone : (0 : ℤ) ≤ 1 := by decide
  have hfits : sendingWorld.FitsPacket (publishEntry 2 p id req) :=
    ⟨hvalid, ⟨rfl, hone, .inr ⟨[97], rfl, le_rfl⟩⟩, ⟨rfl, hone, .inr ⟨[98], rfl, le_rfl⟩⟩, hlen⟩
  exact FitsPacket.canSend (publishEntry_wellTyped 2 p id req) hfits

theorem sendingWorld_canSend (e : Entry) (he : e ∈ sendingEntries) : sendingWorld.CanSend e := by
  simp only [sendingEntries, List.mem_cons, List.not_mem_nil, or_false] at he
  rcases he with rfl | rfl | rfl
  · exact sendingWorld_publish 0 3 0
  · refine ⟨⟨rfl, rfl⟩, fun x hx => ?_, fun r el ie hf => ?_⟩
    · obtain rfl := List.mem_singleton.mp hx
      trivial
    · have hne := List.mem_singleton.mp hf
      contradiction
  · exact sendingWorld_publish 1 8 1

theorem sendingWorld_provides : sendingWorld.Provides sendingEntries ∧
    ∀ f ∈ lineFields sendingWorld.heap sendingEntries, sendingWorld.InMemory f :=
  provides_of_canSend sendingWorld_canSend

def sendingStart : FlowState Unit := ⟨sendingWorld.txStore.pending, [], [], sendingWorld⟩

theorem runFlow_isSome : (runFlow memoryEnv sendingOps sendingStart).isSome = true := by decide +kernel

def sendingEnd : FlowState Unit := (runFlow memoryEnv sendingOps sendingStart).get runFlow_isSome

theorem sending_flow :
    Flow memoryEnv sendingWorld sendingEnd.accepted sendingEnd.answered sendingEnd.bytes sendingEnd.world := by
  refine flow_run sendingOps (s := sendingStart) .start ?_
  exact (Option.some_get runFlow_isSome).symm

theorem sending_accepted : sendingEnd.accepted = sendingEntries := by decide +kernel

/-! ### The order of the packets -/

section Order
variable {w v : World σ} {es answered : List Entry} {bs : List Byte}

/-- However the calls of the encoder and the entries that are accepted and answered between them follow
each other, the bytes that came out are the first ones of the packets of the entries in the order in which
they were accepted, up to the first DISCONNECT. The entries leave the line in this order, and of those that
left it and wait for an answer each is marked, or was answered, once.

The entries are valid, their strings are in memory or each has a source of its own (`Provides.apart`), and the
callbacks of QoS 0 messages are `Silent`. -/
theorem flow_in_order (h : Flow env w es answered bs v) (hfresh : w.tx.internal = {}) (hopen : w.tx.closed = false)
    (hsent : w.txStore.sent = []) (hp : w.Provides es)
    (hs : (∀ f ∈ lineFields w.heap es, w.InMemory f) ∨ env.Streams rest)
    (hq : (∀ e ∈ es, e.kind ≠ .publish0) ∨ env.Silent rest) :
    bs ++ v.owed rest = w.packets rest (untilDisconnect es) ∧ ∃ done, untilDisconnect es = done ++ v.line ∧
      es = done ++ v.txStore.pending ∧ (v.txStore.sent ++ answered).Perm (done.filter (·.kind.expectsResponse)) := by
  have hflow := h.flowing hfresh hopen hsent hp hs hq
  obtain ⟨done, hline, hall, -, -, hperm⟩ := hflow.done
  exact ⟨hflow.bytes, done, hline, hall, hperm⟩

theorem flow_in_order_sending :
    sendingEnd.bytes ++ sendingEnd.world.owed (fun _ _ => []) =
      sendingWorld.packets (fun _ _ => []) (untilDisconnect sendingEntries) ∧
      ∃ done, untilDisconnect sendingEntries = done ++ sendingEnd.world.line ∧
        sendingEntries = done ++ sendingEnd.world.txStore.pending ∧
        (sendingEnd.world.txStore.sent ++ sendingEnd.answered).Perm (done.filter (·.kind.expectsResponse)) := by
  have hflow := sending_flow
  rw [sending_accepted] at hflow
  exact flow_in_order hflow rfl rfl (by decide) sendingWorld_provides.1 (.inl sendingWorld_provides.2) (.inl (by decide))

/-- The next call returns. -/
theorem Flow.returns (h : Flow env w es answered bs v) (hfresh : w.tx.internal = {}) (hopen : w.tx.closed = false)
    (hsent : w.txStore.sent = []) (hp : w.Provides es)
    (hs : (∀ f ∈ lineFields w.heap es, w.InMemory f) ∨ env.Streams rest)
    (hq : (∀ e ∈ es, e.kind ≠ .publish0) ∨ env.Silent rest)
    (hvalid : ∀ e ∈ es, e.kind ≠ .connect ∧ e.Validated w.heap) (n : ℕ) (hfuel : v.turns < env.fuel) :
    ∃ r v', lmqttTxBufferEncode env n v = .ok r v' ∧ r.1 ≠ .error ∧ Emitted env rest v n r.2 v' := by
  have hflow := h.flowing hfresh hopen hsent hp hs hq
  have hend := h.not_atEnd hfresh hopen hsent hp hs hq (plain_of_validated hvalid)
  have hcall := (hflow.encode hp hs hq n).mono (fun _ _ hr => hr) fun x _ hx => by
    rcases hx with ⟨-, hlt⟩ | ⟨-, hstands⟩
    · exact (by omega : False)
    · exact hend hstands
  obtain ⟨r, v', hrun, hr, -, hem⟩ := wp_exists hcall
  exact ⟨r, v', hrun, hr, hem⟩

/-- Where the entries are also no CONNECT and pass their validation, each call of the encoder returns, without
an error and without an assertion that fails; and where the strings are in memory it fills its buffer or
sends all that is left. (Validation alone is not enough for `Entry.Valid`: it accepts a length below 0.) -/
theorem flow_returns (h : Flow env w es answered bs v) (hfresh : w.tx.internal = {}) (hopen : w.tx.closed = false)
    (hsent : w.txStore.sent = []) (hp : w.Provides es)
    (hs : (∀ f ∈ lineFields w.heap es, w.InMemory f) ∨ env.Streams rest)
    (hq : (∀ e ∈ es, e.kind ≠ .publish0) ∨ env.Silent rest)
    (hvalid : ∀ e ∈ es, e.kind ≠ .connect ∧ e.Validated w.heap) (n : ℕ) (hfuel : v.turns < env.fuel) :
    ∃ r v', lmqttTxBufferEncode env n v = .ok r v' ∧ r.1 ≠ .error ∧ r.2.length ≤ n ∧
      ((∀ f ∈ lineFields w.heap es, w.InMemory f) → r.2.length = n ∨ v'.line = []) := by
  obtain ⟨r, v', hrun, hr, hem⟩ := h.returns hfresh hopen hsent hp hs hq hvalid n hfuel
  have hflow := h.flowing hfresh hopen hsent hp hs hq
  exact ⟨r, v', hrun, hr, hem.room, fun hmem => hem.filled (hflow.inMemory hp hmem)⟩

theorem flow_returns_sending : ∃ r v', lmqttTxBufferEncode memoryEnv 16 sendingEnd.world = .ok r v' ∧ r.1 ≠ .error ∧
    r.2.length ≤ 16 ∧ ((∀ f ∈ lineFields smallHeap sendingEntries, sendingWorld.InMemory f) →
      r.2.length = 16 ∨ v'.line = []) := by
  have hflow := sending_flow
  rw [sending_accepted] at hflow
  have hvalid : ∀ e ∈ sendingEntries, e.kind ≠ .connect ∧ e.Validated smallHeap := by
    intro e he
    simp only [sendingEntries, List.mem_cons, List.not_mem_nil, or_false] at he
    rcases he with rfl | rfl | rfl
    · exact ⟨by decide, (by decide +kernel : publishValidate (smallHeap.publishes 0) = true)⟩
    · exact ⟨by decide, trivial⟩
    · exact ⟨by decide, (by decide +kernel : publishValidate (smallHeap.publishes 1) = true)⟩
  have hs : (∀ f ∈ lineFields sendingWorld.heap sendingEntries, sendingWorld.InMemory f) ∨
      memoryEnv.Streams fun _ _ => [] := .inl sendingWorld_provides.2
  exact flow_returns hflow rfl rfl (by decide) sendingWorld_provides.1 hs (.inl (by decide)) hvalid 16 (by decide +kernel)

end Order

end LightMqtt
