import Mathlib.Algebra.Order.BigOperators.Group.List
import LightMqtt.Outgoing

/-!
# Whole packets

The bytes of a flow end within a packet or at the end of one. An entry leaves the
line of the encoder in the call in which the last byte of its packet comes out.
-/

namespace LightMqtt

open Exec

variable {σ : Type} {env : Env σ} {rest : σ → ℕ → List Byte}

/-! ### Messages of different objects -/

/- Two entries that are not messages of the same object. -/
def Entry.Unshared (e x : Entry) : Prop :=
  e.kind.isPublish = true → x.kind.isPublish = true → e.value.value ≠ x.value.value

instance : DecidableRel Entry.Unshared := fun _ _ => inferInstanceAs (Decidable (_ → _ → _ ≠ _))

section Unshared
variable {h : Heap} {e x : Entry} {es : List Entry}

theorem header_mem {i : Option ℕ} (hm : (.publishFixedHeader, i) ∈ entryEncoders h x) : x.kind.isPublish = true := by
  unfold entryEncoders at hm
  cases hk : x.kind <;> simp [hk] at hm <;> rfl

/- Only the header of a message shows that its object is counted. -/
theorem fields_counted (hd : e.Unshared x) : entryFields (h.counted e) x = entryFields h x := by
  obtain ⟨hc, hs⟩ := counted_connects h e
  have hpub : x.kind.isPublish = true → (h.counted e).publishes x.value.value = h.publishes x.value.value := by
    intro hx
    exact counted_publishes h e _ fun he => hd he hx
  unfold entryFields
  rw [entryEncoders_counted]
  refine List.map_congr_left fun y hy => ?_
  obtain ⟨y, i⟩ := y
  cases y with
  | publishFixedHeader => simp only [Encoder.field, hpub (header_mem hy)]
  | _ => simp only [Encoder.field, Heap.subscription, hc, hs]

theorem lineFields_unshared (hd : es.Pairwise Entry.Unshared) : lineFields h es = es.flatMap (entryFields h) := by
  induction es generalizing h with
  | nil => rfl
  | cons e es ih =>
    obtain ⟨he, hes⟩ := List.pairwise_cons.mp hd
    rw [lineFields, List.flatMap_cons, ih hes]
    congr 1
    exact List.flatMap_congr fun x hx => fields_counted (he x hx)

end Unshared

/-! ### Numbers of bytes -/

section Widths
variable {w v : World σ} {f : Field} {fs : List Field}

theorem left_length_le_width (rest : σ → ℕ → List Byte) (w : World σ) (f : Field) (off : ℕ) :
    (w.left rest off f).length ≤ w.width f := by
  cases f with
  | header bytes =>
    change (bytes.drop off).length ≤ bytes.length
    rw [List.length_drop]
    exact Nat.sub_le ..
  | str r el ie =>
    rw [width_str]
    by_cases hn : (w.str r).len = 0 ∧ ie = false
    · change (if _ then _ else _ : List Byte).length ≤ _
      rw [if_pos hn]
      exact Nat.zero_le _
    · have hfrom := LString.from_length_le (w.str r) (stringOffset el off) (rest w.app)
      rw [if_neg hn, left_str w r el ie off hn, List.length_append]
      cases el with
      | false =>
        simp only [stringLenLeft, stringOffset, Bool.false_eq_true, if_false, List.length_nil] at hfrom ⊢
        omega
      | true =>
        have hlen : (stringLenLeft true (w.str r).len off).length = 2 - off := List.length_drop
        rw [hlen, if_pos rfl]
        omega

theorem width_still (hr : w.Ready 0 f) (hs : ∀ r, r.isStored = true → (v.str r).still = (w.str r).still) :
    v.width f = w.width f := by
  cases f with
  | header bytes => rfl
  | str r el ie =>
    have hlen : (v.str r).len = (w.str r).len := congrArg (·.len) (hs r hr.1)
    rw [width_str, width_str, hlen]

/- All bytes of fields that have their sources. -/
theorem flatMap_left_length (hr : ∀ f ∈ fs, w.Ready 0 f) (hs : ∀ f ∈ fs, w.Supplied rest 0 f) :
    (fs.flatMap (w.left rest 0)).length = (fs.map w.width).sum := by
  rw [List.length_flatMap]
  congr 1
  refine List.map_congr_left fun f hf => le_antisymm (left_length_le_width rest w f 0) ?_
  have hle := width_le_left (hr f hf) (hs f hf)
  rwa [Nat.zero_add] at hle

theorem flatMap_left_length_le (rest : σ → ℕ → List Byte) (w : World σ) (fs : List Field) :
    (fs.flatMap (w.left rest 0)).length ≤ (fs.map w.width).sum := by
  rw [List.length_flatMap]
  exact List.sum_le_sum fun f _ => left_length_le_width rest w f 0

end Widths

/-! ### Between two calls -/

/-- The encoder stands in front of a byte of the first entry of its line, and the fields it still has to send have
their sources. -/
structure World.Owing (rest : σ → ℕ → List Byte) (v : World σ) : Prop where
  within : ∀ e l, v.line = e :: l → v.tx.internal.pos < (entryFields v.heap e).length
  left : ∀ f fs, v.fields = f :: fs → v.left rest v.tx.internal.offset f ≠ []
  supplied : v.Supplying rest v.tx.internal.offset v.fields

/-- The loop does not end between two entries. -/
theorem withinRule : LoopRule env rest
    (fun _ _ _ v => ∀ e l, v.line = e :: l → v.tx.internal.pos < (entryFields v.heap e).length) := by
  have hstays : ∀ {w s v : World σ} {e es f fs}, w.AtField e es f fs s → Sends rest f s v → ∀ i : TxInternal,
      i.pos = s.tx.internal.pos → ∀ e' l, (v.setTx i).line = e' :: l → i.pos < (entryFields v.heap e').length := by
    intro w s v e es f fs hat hv i hi e' l hl
    rw [(hv.line i).1, hat.line] at hl
    obtain ⟨rfl, -⟩ := List.cons.inj hl
    rw [entryFields_congr hv.heap, hi]
    exact hat.within
  constructor
  case exit =>
    intro w n _ hnil e l hl
    rw [hnil] at hl
    contradiction
  case blocked =>
    intro w s e es f fs n bytes v hat hv
    cases hv with
    | wouldBlock bytes v hv => exact hstays hat hv v.tx.internal hv.pos
  case part =>
    intro w s e es f fs n bytes v hat hv
    cases hv with
    | «continue» bytes v hv => exact hstays hat hv _ hv.pos
  case all => exact fun _ _ _ _ _ _ _ _ _ _ _ _ _ ht => ht
  case ended => exact fun _ _ _ _ _ _ _ _ _ _ _ _ ht => ht

section Owing
variable {w v : World σ} {es answered : List Entry} {bs : List Byte} {e : Entry}

/- An encoder in front of the first byte of an entry. -/
theorem owing_fresh (hpos : v.tx.internal.pos = 0) (hoff : v.tx.internal.offset = 0)
    (hs : ∀ f ∈ v.fields, v.Supplied rest 0 f) : v.Owing rest := by
  constructor
  · intro e l _
    obtain ⟨bytes, fs, hfields, -⟩ := entryFields_head v.heap e
    rw [hpos, hfields]
    exact Nat.succ_pos _
  · intro f fs hf
    cases hl : v.line with
    | nil =>
      rw [fields_nil hl] at hf
      contradiction
    | cons e l =>
      obtain ⟨bytes, fs', hfields, hlen⟩ := entryFields_head v.heap e
      rw [fields_cons hl, hpos, hfields] at hf
      obtain ⟨rfl, -⟩ := List.cons.inj hf
      rw [hoff]
      change bytes.drop 0 ≠ []
      rw [List.drop_zero]
      exact List.ne_nil_of_length_pos (by omega)
  · rw [hoff]
    cases hf : v.fields with
    | nil => trivial
    | cons f fs =>
      rw [hf] at hs
      exact ⟨hs f (List.mem_cons_self ..), fun g hg => hs g (List.mem_cons_of_mem _ hg)⟩

theorem supplying_setStore {s : Store} {off : ℕ} {fs : List Field} (hr : v.Sendable off fs) :
    (v.setStore v.tx.store s).Supplying rest off fs ↔ v.Supplying rest off fs := by
  have hunread := unread_setStore rest v v.tx.store s
  cases fs with
  | nil => rfl
  | cons f fs =>
    refine and_congr (hunread.left (hr.head f fs rfl) off).2 ?_
    exact forall₂_congr fun g hg => (hunread.left (hr.tail g hg) 0).2

/- What is appended behind the line, or taken from what was sent. -/
theorem World.Owing.setStore (h : v.Owing rest) (hv : v.Encoding) {s : Store} (hl : (v.setStore v.tx.store s).line = v.line) :
    (v.setStore v.tx.store s).Owing rest := by
  have hfields := fields_setStore hl
  have hunread := unread_setStore rest v v.tx.store s
  constructor
  · rw [hl, World.setStore_tx, World.setStore_heap]
    exact h.within
  · intro f fs hf
    rw [hfields] at hf
    rw [World.setStore_tx, (hunread.left (hv.fields.head f fs hf) _).1]
    exact h.left f fs hf
  · rw [hfields, World.setStore_tx, supplying_setStore hv.fields]
    exact h.supplied

/-- An entry is accepted. -/
theorem World.Flowing.append_owing (h : w.Flowing rest es answered bs v) (hp : w.Provides (es ++ [e])) {s : Store}
    (hs : v.txStore.append e = some s) (hsup : ∀ f ∈ entryFields (w.heap.countedAll es) e, w.Supplied rest 0 f)
    (ho : v.Owing rest) : (v.setStore v.tx.store s).Owing rest := by
  by_cases hd : ∃ x ∈ es, x.kind = .disconnect
  · exact ho.setStore h.encoding (h.append_behind hs hd).1
  · obtain ⟨hopen, -, hline, -⟩ := h.append_line hs hd
    have hheap := World.setStore_heap v v.tx.store s
    have htx := World.setStore_tx v v.tx.store s
    have hfields := h.append_fields hp hline hheap htx hopen (untilDisconnect_of_none hd)
    have hunread := unread_setStore rest v v.tx.store s
    obtain ⟨-, hready⟩ := h.last hp
    -- the sources of the new entry were not touched
    have hnew : ∀ f ∈ entryFields (w.heap.countedAll es) e, (v.setStore v.tx.store s).Supplied rest 0 f := by
      intro f hf
      rw [(hunread.left (hready f hf).1 0).2]
      cases f with
      | header bytes => trivial
      | str r el ie =>
        have hstill := h.strings r (hready _ hf).1.1
        have hlen : (v.str r).len = (w.str r).len := congrArg (·.len) hstill
        have hread : (v.str r).read = (w.str r).read := congrArg (·.read) hstill
        have hdata : (v.str r).data = (w.str r).data := congrArg (·.data) hstill
        intro hr
        rw [hread] at hr
        rw [hlen, hdata, h.untouched hp hf hr]
        exact hsup _ hf hr
    have hnext := (h.append hp hs).encoding
    cases hl : v.fields with
    | nil =>
      have hidle : v.line = [] := by
        cases hvl : v.line with
        | nil => rfl
        | cons x l =>
          have hwithin := ho.within x l hvl
          rw [fields_cons hvl, List.append_eq_nil_iff, List.drop_eq_nil_iff] at hl
          exact absurd hl.1 (by omega)
      refine owing_fresh ?_ ?_ ?_
      · rw [htx]
        exact h.encoding.idle hidle hopen
      · rw [htx]
        exact (h.encoding.between_fields hl hopen).1
      · rw [hfields, hl]
        exact hnew
    | cons g l =>
      constructor
      · intro x l' hx
        rw [hline] at hx
        rw [htx, hheap]
        cases hvl : v.line with
        | nil =>
          rw [fields_nil hvl] at hl
          contradiction
        | cons y l'' =>
          rw [hvl] at hx
          obtain ⟨rfl, -⟩ := List.cons.inj hx
          exact ho.within y l'' hvl
      · intro f fs hf
        rw [hfields, hl] at hf
        obtain ⟨rfl, -⟩ := List.cons.inj hf
        rw [htx, (hunread.left (h.encoding.fields.head g l hl) _).1]
        exact ho.left g l hl
      · have hold := (supplying_setStore (s := s) h.encoding.fields).mpr ho.supplied
        rw [hl] at hold
        rw [hfields, hl, htx]
        refine ⟨hold.1, fun f hf => ?_⟩
        rcases List.mem_append.mp hf with hf | hf
        · exact hold.2 f hf
        · exact hnew f hf

end Owing

/-! ### Runs -/

section Runs
variable {w v : World σ} {es answered : List Entry} {bs : List Byte}

/-- Between two calls the encoder stands within a packet, or at the first byte of one. -/
theorem Flow.owing (h : Flow env w es answered bs v) (hfresh : w.tx.internal = {}) (hopen : w.tx.closed = false)
    (hsent : w.txStore.sent = []) (hp : w.Provides es)
    (hs : (∀ f ∈ lineFields w.heap es, w.InMemory f) ∨ env.Streams rest)
    (hq : (∀ e ∈ es, e.kind ≠ .publish0) ∨ env.Silent rest)
    (hplain : ∀ f ∈ lineFields w.heap es, w.Plain f)
    (hsup : ∀ f ∈ lineFields w.heap es, w.Supplied rest 0 f) : v.Owing rest := by
  induction h with
  | start =>
    have hstart : w.Flowing rest w.txStore.pending [] [] w := flowing_start hfresh hopen hsent hp
    refine owing_fresh ?_ ?_ fun f hf => hsup f (hstart.fields_mem hf)
    · rw [hfresh]
    · rw [hfresh]
  | encode es answered bs v v' r n hv h ih =>
    have ho := ih hp hs hq hplain hsup
    have hflow := hv.flowing hfresh hopen hsent hp hs hq
    have hem : Emitted env rest v n r.2 v' := (wp_ok (hflow.encode hp hs hq n) h).2.2
    have hwithin := wp_ok (lmqttTxBufferEncode_run withinRule n v (hs.imp_left (hflow.inMemory hp))
      (hq.imp_left fun hq e he => hq e (hflow.line_mem he)) hflow.encoding) h
    have hend := (Flow.encode es answered bs v v' r n hv h).not_atEnd hfresh hopen hsent hp hs hq hplain
    refine ⟨hwithin.2, fun f fs hf hnil => ?_, hem.supply.mpr ho.supplied⟩
    rcases hem.paused ho.supplied with hl | ⟨g, l, hg, hstuck⟩
    · rw [fields_nil hl] at hf
      contradiction
    · rw [hf] at hg
      obtain ⟨rfl, -⟩ := List.cons.inj hg
      exact hend ⟨f, fs, hf, hstuck hnil⟩
  | append es answered bs v s e hv h ih =>
    have hless : ∀ f ∈ lineFields w.heap es, f ∈ lineFields w.heap (es ++ [e]) := by
      intro f hf
      rw [lineFields_append]
      exact List.mem_append_left _ hf
    have hs' := hs.imp_left fun hs f hf => hs f (hless f hf)
    have hq' : (∀ x ∈ es, x.kind ≠ .publish0) ∨ env.Silent rest := hq.imp_left fun hq x hx => hq x (List.mem_append_left _ hx)
    have ho := ih hp.less hs' hq' (fun f hf => hplain f (hless f hf)) fun f hf => hsup f (hless f hf)
    refine (hv.flowing hfresh hopen hsent hp.less hs' hq').append_owing hp h (fun f hf => hsup f ?_) ho
    rw [lineFields_concat]
    exact List.mem_append_right _ hf
  | pop es answered bs v s e k id hv h ih =>
    obtain ⟨pre, post, hrem, hlt, -⟩ := Store.popMarkedBy_spec _ _ _ _ _ h
    obtain ⟨mid, -, -, hpend⟩ := hrem.marked hlt
    refine (ih hp hs hq hplain hsup).setStore (hv.flowing hfresh hopen hsent hp hs hq).encoding ?_
    unfold World.line
    rw [World.setStore_tx, txStore_setStore, hpend]

/- The fields of the line are the last ones of the entries as they were accepted. -/
theorem World.Flowing.line_fields (h : w.Flowing rest es answered bs v) {done l : List Entry} {e : Entry}
    (hdone : untilDisconnect es = done ++ v.line) (hl : v.line = e :: l) :
    entryFields v.heap e = entryFields (w.heap.countedAll done) e ∧
      v.fields = (entryFields v.heap e).drop v.tx.internal.pos ++ lineFields (w.heap.countedAll (done ++ [e])) l := by
  obtain ⟨done', hline, -, hheap, -⟩ := h.done
  obtain rfl : done' = done := List.append_cancel_right (hline.symm.trans hdone)
  refine ⟨entryFields_congr hheap e, ?_⟩
  rw [fields_cons hl, countedAll_append, lineFields_congr (counted_congr hheap e)]
  rfl

/- The packets behind the line have all their bytes, and of the one at its front there is one left. -/
theorem World.Flowing.owed_bounds (h : w.Flowing rest es answered bs v) (hp : w.Provides es)
    (hsup : ∀ f ∈ lineFields w.heap es, w.Supplied rest 0 f) (ho : v.Owing rest) {done l : List Entry} {e : Entry}
    (hdone : untilDisconnect es = done ++ v.line) (hl : v.line = e :: l) :
    ((lineFields (w.heap.countedAll (done ++ [e])) l).flatMap (w.left rest 0)).length < (v.owed rest).length ∧
      (v.owed rest).length ≤ ((lineFields (w.heap.countedAll done) (e :: l)).flatMap (w.left rest 0)).length := by
  obtain ⟨hsame, hfields⟩ := h.line_fields hdone hl
  rw [hsame] at hfields
  have hline : lineFields (w.heap.countedAll done) (e :: l) =
      entryFields (w.heap.countedAll done) e ++ lineFields (w.heap.countedAll (done ++ [e])) l := by
    rw [lineFields, countedAll_append]
    rfl
  have hmem : ∀ f ∈ lineFields (w.heap.countedAll done) (e :: l), f ∈ lineFields w.heap es := by
    intro f hf
    apply (lineFields_starts w.heap (untilDisconnect_starts es)).mem
    rw [hdone, hl, lineFields_append]
    exact List.mem_append_right _ hf
  have hlen : ∀ fs : List Field, (∀ f ∈ fs, f ∈ lineFields (w.heap.countedAll done) (e :: l)) →
      (fs.flatMap (w.left rest 0)).length = (fs.map w.width).sum := fun fs hfs =>
    flatMap_left_length (fun f hf => hp.ready f (hmem f (hfs f hf))) fun f hf => hsup f (hmem f (hfs f hf))
  have hwidths : ∀ fs : List Field, (∀ f ∈ fs, f ∈ v.fields) → (fs.map v.width).sum = (fs.map w.width).sum := by
    intro fs hfs
    congr 1
    exact List.map_congr_left fun f hf => width_still (hp.ready f (h.fields_mem (hfs f hf))) h.strings
  have hwithin := ho.within e l hl
  rw [hsame] at hwithin
  have hcons := hfields
  rw [List.drop_eq_getElem_cons hwithin, List.cons_append] at hcons
  generalize hf : (entryFields (w.heap.countedAll done) e)[v.tx.internal.pos] = f at hcons
  generalize hfs : (entryFields (w.heap.countedAll done) e).drop (v.tx.internal.pos + 1) ++
    lineFields (w.heap.countedAll (done ++ [e])) l = fs at hcons
  have howed : (v.owed rest).length = (v.left rest v.tx.internal.offset f).length +
      (fs.flatMap (v.left rest 0)).length := by
    unfold World.owed
    rw [hcons]
    exact List.length_append
  constructor
  · have hsupplied := ho.supplied
    rw [hcons] at hsupplied
    have htail : (fs.flatMap (v.left rest 0)).length = (fs.map v.width).sum := by
      refine flatMap_left_length (fun g hg => h.encoding.fields.tail g ?_) hsupplied.2
      rw [hcons]
      exact hg
    have hfirst : 0 < (v.left rest v.tx.internal.offset f).length := List.length_pos_of_ne_nil (ho.left f fs hcons)
    have hbehind : ((lineFields (w.heap.countedAll (done ++ [e])) l).map w.width).sum ≤ (fs.map w.width).sum := by
      rw [← hfs, List.map_append, List.sum_append]
      exact Nat.le_add_left ..
    rw [hlen _ fun g hg => by rw [hline]; exact List.mem_append_right _ hg, howed, htail,
      hwidths fs fun g hg => by rw [hcons]; exact List.mem_cons_of_mem _ hg]
    omega
  · have hall : (v.owed rest).length ≤ (v.fields.map v.width).sum := by
      rw [howed, hcons, List.map_cons, List.sum_cons]
      exact Nat.add_le_add (left_length_le_width ..) (flatMap_left_length_le ..)
    have hpart : (v.fields.map w.width).sum ≤ ((lineFields (w.heap.countedAll done) (e :: l)).map w.width).sum := by
      rw [hfields, hline, List.map_append, List.map_append, List.sum_append, List.sum_append, List.map_drop]
      exact Nat.add_le_add_right ((List.drop_sublist ..).sum_le_sum fun _ _ => Nat.zero_le _) _
    rw [hlen _ fun _ hg => hg]
    exact hall.trans ((hwidths v.fields fun f hf => hf).le.trans hpart)

end Runs

/-! ### One call -/

/-- The encoder in front of the entry `e` and nothing else. -/
def World.only (w : World σ) (e : Entry) : World σ :=
  { w with tx := { store := .main }, mainStore := { entries := [e], capacity := 1 } }

/-- A call for the entry `e` alone writes `bs`, if its buffer has room for them and reads give all they are asked for. -/
def World.WrittenAtOnce (w : World σ) (rest : σ → ℕ → List Byte) (e : Entry) (bs : List Byte) : Prop :=
  ∀ (env : Env σ) (n : ℕ), (∀ f ∈ entryFields w.heap e, w.InMemory f) ∨ env.Streams rest ∧ env.Prompt rest →
    e.kind ≠ .publish0 ∨ env.Silent rest → bs.length ≤ n → (w.only e).turns < env.fuel →
    ∃ r v, lmqttTxBufferEncode env n (w.only e) = .ok r v ∧ r.1 ≠ .error ∧ r.2 = bs ∧ v.txStore.pending = []

/-- The loop fills its buffer if the callbacks give all that they are asked for. -/
theorem promptRule : LoopRule env rest (fun w n bs v => Emitted env rest w n bs v ∧
    (env.Prompt rest → w.Supplying rest w.tx.internal.offset w.fields → bs.length = n ∨ v.line = [])) := by
  have hfirst : ∀ {w s : World σ} {e es f fs}, w.AtField e es f fs s → w.Supplying rest w.tx.internal.offset w.fields →
      s.Supplied rest s.tx.internal.offset f := by
    intro w s e es f fs hat hs
    have hs' := (hat.alike.supplying _ _).mpr hs
    rw [← hat.alike.fields, ← hat.alike.tx, hat.fields] at hs'
    exact hs'.1
  constructor
  case exit => exact fun w n hw hl => ⟨emittedRule.exit w n hw hl, fun _ _ => .inr hl⟩
  case blocked =>
    intro w s e es f fs n bytes v hat hv
    refine ⟨emittedRule.blocked w s e es f fs n bytes v hat hv, fun hprompt hs => ?_⟩
    cases hv with
    | wouldBlock bytes v hv hb hr hc hm => exact absurd (.inr ⟨hprompt, hfirst hat hs⟩) hm
  case part =>
    intro w s e es f fs n bytes v hat hv
    refine ⟨emittedRule.part w s e es f fs n bytes v hat hv, fun hprompt hs => ?_⟩
    cases hv with
    | «continue» bytes v hv hb hlen hne hr hc hm => exact .inl (hm (.inr ⟨hprompt, hfirst hat hs⟩))
  case all =>
    intro w s e es f fs n bytes v bs t hat hv ht
    have hem := emittedRule.all w s e es f fs n bytes v bs t hat hv ht.1
    refine ⟨hem, fun hprompt hs => ?_⟩
    have hlen : bytes.length ≤ n := by
      cases hv with
      | finished bytes v hv hb hlen => exact hlen
    rw [List.length_append]
    refine (ht.2 hprompt (ht.1.supply.mp (hem.supply.mpr hs))).imp_left fun hfull => ?_
    omega
  case ended =>
    intro w e es n v bs t hw hl hp hv hc ht
    have hem := emittedRule.ended w e es n v bs t hw hl hp hv hc ht.1
    exact ⟨hem, fun hprompt hs => ht.2 hprompt (ht.1.supply.mp (hem.supply.mpr hs))⟩

section OneCall
variable {w : World σ} {es : List Entry} {e : Entry}

theorem str_only (w : World σ) (e : Entry) (r : StrRef) : (w.only e).str r = w.str r := by
  cases r <;> rfl

theorem only_provides (hp : w.Provides es) (hd : es.Pairwise Entry.Unshared) (he : e ∈ es) : (w.only e).Provides [e] := by
  have hunread : Unread (fun _ _ => []) w (w.only e) := ⟨fun r _ => str_only w e r, rfl⟩
  have hall := lineFields_unshared (h := w.heap) hd
  have hmem : ∀ f ∈ entryFields w.heap e, f ∈ lineFields w.heap es := fun f hf => by
    rw [hall]
    exact List.mem_flatMap.mpr ⟨e, he, hf⟩
  have hfields : lineFields (w.only e).heap [e] = entryFields w.heap e := lineFields_singleton ..
  refine ⟨fun x hx => ?_, fun f hf => ?_, ?_⟩
  · obtain rfl := List.mem_singleton.mp hx
    exact hp.typed x he
  · rw [hfields] at hf
    exact hunread.ready (hp.ready f (hmem f hf))
  · rw [hfields]
    have hsub : (entryFields w.heap e).Pairwise w.Apart := by
      have hapart := hp.apart
      rw [hall] at hapart
      exact hapart.sublist (List.sublist_flatten_of_mem (List.mem_map_of_mem he))
    exact List.Pairwise.imp_of_mem (fun {f g} hf hg ha =>
      hunread.apart (hp.ready f (hmem f hf)) (hp.ready g (hmem g hg)) ha) hsub

/-- The packet of an entry is what one call writes for it. -/
theorem written_at_once (hp : w.Provides es) (hd : es.Pairwise Entry.Unshared) (he : e ∈ es)
    (hvalid : e.kind ≠ .connect ∧ e.Validated w.heap) (hsup : ∀ f ∈ entryFields w.heap e, w.Supplied rest 0 f) :
    w.WrittenAtOnce rest e (w.packets rest [e]) := by
  intro env n hs hq hn hfuel
  have hunread : Unread rest w (w.only e) := ⟨fun r _ => str_only w e r, rfl⟩
  have hmem : ∀ f ∈ entryFields w.heap e, f ∈ lineFields w.heap es := fun f hf => by
    rw [lineFields_unshared hd]
    exact List.mem_flatMap.mpr ⟨e, he, hf⟩
  have hfields : lineFields (w.only e).heap [e] = entryFields w.heap e := lineFields_singleton ..
  have honly := only_provides hp hd he
  have hpackets : (w.only e).packets rest [e] = w.packets rest [e] := by
    unfold World.packets
    rw [hfields, lineFields_singleton]
    exact List.flatMap_congr fun f hf => (hunread.left (hp.ready f (hmem f hf)) 0).1
  have hin : (∀ f ∈ entryFields w.heap e, w.InMemory f) →
      ∀ f ∈ lineFields (w.only e).heap [e], (w.only e).InMemory f := by
    intro hm f hf r el ie hfe
    rw [hfields] at hf
    rw [str_only]
    exact hm f hf r el ie hfe
  have hs' : (∀ f ∈ lineFields (w.only e).heap [e], (w.only e).InMemory f) ∨ env.Streams rest :=
    hs.imp hin And.left
  have hq' : (∀ x ∈ [e], x.kind ≠ .publish0) ∨ env.Silent rest := hq.imp_left fun hq x hx => by
    rwa [List.mem_singleton.mp hx]
  have hvalid' : ∀ x ∈ [e], x.kind ≠ .connect ∧ x.Validated (w.only e).heap := fun x hx => by
    rwa [List.mem_singleton.mp hx]
  have hsup' : ∀ f ∈ lineFields (w.only e).heap [e], (w.only e).Supplied rest 0 f := by
    intro f hf
    rw [hfields] at hf
    exact (hunread.left (hp.ready f (hmem f hf)) 0).2.mpr (hsup f hf)
  have hstart : Flow env (w.only e) [e] [] [] (w.only e) := .start
  have hflow : (w.only e).Flowing rest [e] [] [] (w.only e) := hstart.flowing rfl rfl rfl honly hs' hq'
  obtain ⟨r, v, hrun, hr, hem⟩ := hstart.returns rfl rfl rfl honly hs' hq' hvalid' n hfuel
  have hencode : Flow env (w.only e) [e] [] ([] ++ r.2) v := .encode [e] [] [] (w.only e) v r n hstart hrun
  have hnext := hencode.flowing rfl rfl rfl honly hs' hq'
  have ho := hencode.owing rfl rfl rfl honly hs' hq' (plain_of_validated hvalid') hsup'
  have hbytes := hnext.bytes
  have huntil : untilDisconnect [e] = [e] := by
    rw [untilDisconnect]
    split <;> rfl
  rw [huntil, hpackets, List.nil_append] at hbytes
  have hfull : r.2.length = n ∨ v.line = [] := by
    rcases hs with hm | ⟨hstreams, hprompt⟩
    · exact hem.filled (hflow.inMemory honly (hin hm))
    · have hcall := wp_ok (lmqttTxBufferEncode_run promptRule n (w.only e) (.inr hstreams)
        (hq'.imp_left fun hq x hx => hq x (hflow.line_mem hx)) hflow.encoding) hrun
      exact hcall.2.2 hprompt (hstart.owing rfl rfl rfl honly hs' hq' (plain_of_validated hvalid') hsup').supplied
  -- with room for all of it, nothing is left
  have hdone : v.line = [] := by
    cases hl : v.line with
    | nil => rfl
    | cons x l =>
      obtain ⟨done, hdone, -⟩ := hnext.done
      have hlt := (hnext.owed_bounds honly hsup' ho hdone hl).1
      have hlen := congrArg List.length hbytes
      rw [List.length_append] at hlen
      rw [hl] at hfull
      rcases hfull with hfull | hfull
      · omega
      · contradiction
  have howed : v.owed rest = [] := by
    unfold World.owed
    rw [fields_nil hdone]
    rfl
  obtain ⟨done, hall, hpend, -⟩ := hnext.done
  refine ⟨r, v, hrun, hr, by rw [← hbytes, howed, List.append_nil], ?_⟩
  rw [huntil, hdone, List.append_nil] at hall
  rw [← hall] at hpend
  exact List.append_right_eq_self.mp hpend.symm

end OneCall

/-! ### A source that blocks -/

/-- An application with one source, `data` 7, that yields a byte at every other read. -/
def feedingEnv : Env (Bool × List Byte) where
  read := fun a _ => ⟨a, .wouldBlock, [], 0⟩
  write := fun a bs => ⟨a, .success, bs.length, 0⟩
  getTime := fun a => (a, { secs := 1 })
  strRead := fun a d _ =>
    if d = 7 ∧ a.1 ∧ a.2 ≠ [] then ⟨(false, a.2.tail), .success, a.2.take 1, 0⟩ else ⟨(true, a.2), .wouldBlock, [], 0⟩
  strWrite := fun a _ _ => ⟨a, .wouldBlock, 0, 0⟩
  fuel := 64

def fedBytes (a : Bool × List Byte) (d : ℕ) : List Byte := if d = 7 then a.2 else []

theorem feedingEnv_streams : feedingEnv.Streams fedBytes := by
  have hread : ∀ a d n, feedingEnv.strRead a d n =
      if d = 7 ∧ a.1 ∧ a.2 ≠ [] then ⟨(false, a.2.tail), .success, a.2.take 1, 0⟩ else ⟨(true, a.2), .wouldBlock, [], 0⟩ :=
    fun _ _ _ => rfl
  constructor
  · intro a d n hn
    rw [hread]
    split
    · rename_i h
      obtain ⟨rfl, -, hne⟩ := h
      obtain ⟨b, bs, hbs⟩ := List.exists_cons_of_ne_nil hne
      refine .inl ⟨rfl, ?_, ?_, ?_⟩
      · rw [hbs]
        exact List.cons_ne_nil b []
      · rw [hbs]
        exact hn
      · change a.2 = a.2.take 1 ++ a.2.tail
        rw [hbs]
        rfl
    · exact .inr ⟨rfl, rfl, rfl⟩
  · intro a d n d' hd
    rw [hread]
    split
    · rename_i h
      unfold fedBytes
      rw [if_neg (by omega), if_neg (by omega)]
    · rfl

/- The topic of the message comes from the source. -/
def feedingHeap : Heap :=
  smallHeap.setPublish 0 { qos := 1, topic := { len := 2, read := true, data := 7 }, payload := { len := 1, buf := some [98] } }

def feedingWorld : World (Bool × List Byte) where
  rx := { store := .main, idSet := .empty 1 }
  tx := { store := .main }
  readBufCapacity := 4
  writeBufCapacity := 4
  mainStore := { entries := [publishEntry 1 0 3 0], capacity := 3 }
  connectStore := .empty 1
  currentStore := .main
  heap := feedingHeap
  app := (false, [97, 99])

def disconnectEntry : Entry := ⟨.disconnect, {}⟩

/- The topic blocks behind its length, and again behind its first byte; the DISCONNECT is cut. -/
def feedingOps : List FlowOp := [.encode 3, .append answerEntry, .encode 64, .encode 64, .encode 64, .encode 64,
  .pop .publish1 3, .append disconnectEntry, .encode 1]

def feedingEntries : List Entry := [publishEntry 1 0 3 0, answerEntry, disconnectEntry]

def feedingStart : FlowState (Bool × List Byte) := ⟨feedingWorld.txStore.pending, [], [], feedingWorld⟩

theorem feeding_isSome : (runFlow feedingEnv feedingOps feedingStart).isSome = true := by decide +kernel

def feedingEnd : FlowState (Bool × List Byte) := (runFlow feedingEnv feedingOps feedingStart).get feeding_isSome

theorem feeding_flow :
    Flow feedingEnv feedingWorld feedingEnd.accepted feedingEnd.answered feedingEnd.bytes feedingEnd.world := by
  refine flow_run feedingOps (s := feedingStart) .start ?_
  exact (Option.some_get feeding_isSome).symm

theorem feeding_accepted : feedingEnd.accepted = feedingEntries := by decide +kernel

theorem feeding_fields : lineFields feedingHeap feedingEntries =
    [.header [50, 7], .str (.publishTopic 0) true true, .header [0, 3], .str (.publishPayload 0) false false,
      .header [64, 2, 0, 9], .header [224, 0]] := by decide +kernel

theorem feeding_validated : ∀ e ∈ feedingEntries, e.kind ≠ .connect ∧ e.Validated feedingHeap := by
  intro e he
  simp only [feedingEntries, List.mem_cons, List.not_mem_nil, or_false] at he
  rcases he with rfl | rfl | rfl
  · exact ⟨by decide, (by decide +kernel : publishValidate (feedingHeap.publishes 0) = true)⟩
  · exact ⟨by decide, trivial⟩
  · exact ⟨by decide, trivial⟩

theorem feeding_supplied : ∀ f ∈ lineFields feedingHeap feedingEntries, feedingWorld.Supplied fedBytes 0 f := by
  intro f hf
  rw [feeding_fields] at hf
  simp only [List.mem_cons, List.not_mem_nil, or_false] at hf
  rcases hf with rfl | rfl | rfl | rfl | rfl | rfl
  · trivial
  · exact fun _ => le_rfl
  · trivial
  · exact fun hread => absurd hread (by decide)
  · trivial
  · trivial

theorem feedingWorld_provides : feedingWorld.Provides feedingEntries := by
  refine ⟨fun e he => ?_, fun f hf => ?_, ?_⟩
  · simp only [feedingEntries, List.mem_cons, List.not_mem_nil, or_false] at he
    rcases he with rfl | rfl | rfl
    · refine ⟨publishEntry_wellTyped .., fun x hx => ?_⟩
      have hfirst : Encoder.publishFixedHeader.Valid feedingHeap (publishEntry 1 0 3 0).value :=
        ⟨by decide +kernel, by decide +kernel, by decide +kernel⟩
      rcases publishEntry_encoders hx with hx | hx | hx | hx <;> rw [hx]
      · exact hfirst
      all_goals trivial
    all_goals
      refine ⟨⟨rfl, rfl⟩, fun x hx => ?_⟩
      obtain rfl := List.mem_singleton.mp hx
      trivial
  · change f ∈ lineFields feedingHeap feedingEntries at hf
    rw [feeding_fields] at hf
    simp only [List.mem_cons, List.not_mem_nil, or_false] at hf
    rcases hf with rfl | rfl | rfl | rfl | rfl | rfl
    · exact Nat.succ_pos _
    · exact ⟨rfl, .inl rfl, by decide, Nat.zero_le _, .inr (.inl ⟨rfl, rfl⟩)⟩
    · exact Nat.succ_pos _
    · exact ⟨rfl, .inr rfl, by decide, Nat.zero_le _, .inr (.inr ⟨rfl, .inl rfl, [98], rfl, le_rfl⟩)⟩
    · exact Nat.succ_pos _
    · exact Nat.succ_pos _
  · -- only the topic has a source
    change (lineFields feedingHeap feedingEntries).Pairwise _
    rw [feeding_fields]
    have honce : [Field.header [50, 7], .str (.publishTopic 0) true true, .header [0, 3], .str (.publishPayload 0) false false,
        .header [64, 2, 0, 9], .header [224, 0]].Pairwise fun f g =>
          f ≠ .str (.publishTopic 0) true true ∨ g ≠ .str (.publishTopic 0) true true := by decide
    have htopic : ∀ r el ie, .str r el ie ∈ lineFields feedingHeap feedingEntries →
        (feedingWorld.str r).read = true → Field.str r el ie = .str (.publishTopic 0) true true := by
      intro r el ie hmem hread
      rw [feeding_fields] at hmem
      simp only [List.mem_cons, List.not_mem_nil, or_false, reduceCtorEq, false_or] at hmem
      rcases hmem with hf | hf
      · exact hf
      · obtain ⟨rfl, -⟩ := Field.str.inj hf
        exact absurd hread (by decide)
    refine List.Pairwise.imp_of_mem (fun {f g} hf hg hne r el ie r' el' ie' he he' hread hread' => ?_) honce
    rw [← feeding_fields] at hf hg
    subst he he'
    rcases hne with hne | hne
    · exact absurd (htopic r el ie hf hread) hne
    · exact absurd (htopic r' el' ie' hg hread') hne

/-! ### The stream of a flow -/

section Stream
variable {w v : World σ} {es answered : List Entry} {bs : List Byte}

theorem packets_append (rest : σ → ℕ → List Byte) (w : World σ) (es es' : List Entry) :
    w.packets rest (es ++ es') =
      w.packets rest es ++ (lineFields (w.heap.countedAll es) es').flatMap (w.left rest 0) := by
  unfold World.packets
  rw [lineFields_append, List.flatMap_append]

theorem packets_flatMap (rest : σ → ℕ → List Byte) (w : World σ) (hd : es.Pairwise Entry.Unshared) :
    w.packets rest es = es.flatMap fun e => w.packets rest [e] := by
  unfold World.packets
  rw [lineFields_unshared hd, List.flatMap_assoc]
  exact List.flatMap_congr fun e _ => by rw [lineFields_singleton]

/-- The entries that have left the line are those of which the last byte came out. -/
theorem World.Flowing.whole (h : w.Flowing rest es answered bs v) (hp : w.Provides es)
    (hsup : ∀ f ∈ lineFields w.heap es, w.Supplied rest 0 f) (ho : v.Owing rest) {done : List Entry}
    (hdone : untilDisconnect es = done ++ v.line) :
    (w.packets rest done).length ≤ bs.length ∧
      ∀ e l, v.line = e :: l → bs.length < (w.packets rest (done ++ [e])).length := by
  have hbytes := congrArg List.length h.bytes
  rw [hdone, List.length_append, packets_append, List.length_append] at hbytes
  constructor
  · cases hl : v.line with
    | nil =>
      have howed : v.owed rest = [] := by
        unfold World.owed
        rw [fields_nil hl]
        rfl
      rw [howed, List.length_nil] at hbytes
      omega
    | cons e l =>
      have hle := (h.owed_bounds hp hsup ho hdone hl).2
      rw [hl] at hbytes
      omega
  · intro e l hl
    have hlt := (h.owed_bounds hp hsup ho hdone hl).1
    rw [hl, lineFields, List.flatMap_append, List.length_append] at hbytes
    rw [countedAll_append] at hlt
    change (List.flatMap _ (lineFields ((w.heap.countedAll done).counted e) l)).length < _ at hlt
    rw [packets_append, List.length_append, lineFields_singleton]
    omega

end Stream

end LightMqtt
