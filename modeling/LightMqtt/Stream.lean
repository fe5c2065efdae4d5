import LightMqtt.Sources

/-!
# The outgoing stream

What the encoder still has to send, as the fields of the entries that are
pending: the rest of the first of them, and the others as a whole. A call of the
encoder takes a part from the front of it.
-/

namespace LightMqtt

open Exec

variable {σ : Type} {env : Env σ} {rest : σ → ℕ → List Byte}

/- The entries up to the first DISCONNECT. -/
def untilDisconnect : List Entry → List Entry
  | [] => []
  | e :: es => if e.kind = .disconnect then [e] else e :: untilDisconnect es

/-- The entries that the encoder will come to. -/
def World.line (w : World σ) : List Entry := if w.tx.closed then [] else untilDisconnect w.txStore.pending

/-- The fields it still has to send; of the first it has sent `offset` bytes. -/
def World.fields (w : World σ) : List Field :=
  match w.line with
  | [] => []
  | e :: es => (entryFields w.heap e).drop w.tx.internal.pos ++ lineFields (w.heap.counted e) es

/- The bytes of fields, those of the first from `off` on. -/
def World.bytes (rest : σ → ℕ → List Byte) (w : World σ) (off : ℕ) : List Field → List Byte
  | [] => []
  | f :: fs => w.left rest off f ++ fs.flatMap (w.left rest 0)

/-- The bytes that are still to be sent. -/
def World.owed (rest : σ → ℕ → List Byte) (w : World σ) : List Byte :=
  w.bytes rest w.tx.internal.offset w.fields

/- Two fields do not take their bytes from the same callback. -/
def World.Apart (w : World σ) (f g : Field) : Prop :=
  ∀ r el ie r' el' ie', f = .str r el ie → g = .str r' el' ie' → (w.str r).read = true → (w.str r').read = true →
    (w.str r).data ≠ (w.str r').data

/- Fields of which the first `off` bytes were sent. -/
structure World.Sendable (w : World σ) (off : ℕ) (fs : List Field) : Prop where
  head : ∀ f l, fs = f :: l → w.Ready off f
  tail : ∀ f ∈ fs.tail, w.Ready 0 f
  apart : fs.Pairwise w.Apart

/- An entry that no assertion of an encoder fails for. -/
def Entry.Valid (h : Heap) (e : Entry) : Prop := ∀ x ∈ entryEncoders h e, x.1.Valid h e.value

/-- The state of the encoder between two fields or within one. -/
structure World.Encoding (w : World σ) : Prop where
  error : w.tx.internal.error = none
  idle : w.line = [] → w.tx.closed = false → w.tx.internal.pos = 0
  pos : ∀ e es, w.line = e :: es → w.tx.internal.pos ≤ (entryFields w.heap e).length
  between : (∀ e es, w.line = e :: es → w.tx.internal.pos = (entryFields w.heap e).length) → w.tx.closed = false →
    w.tx.internal.offset = 0 ∧ w.tx.internal.buffer.encoded = false
  fields : w.Sendable w.tx.internal.offset w.fields
  caches : ∀ f fs, w.fields = f :: fs → w.tx.internal.buffer.Caches f
  typed : ∀ e ∈ w.line, e.WellTyped ∧ e.Valid w.heap

/-- Callbacks of QoS 0 messages succeed, issue no requests and leave the sources
of strings alone. -/
def Env.Silent (env : Env σ) (rest : σ → ℕ → List Byte) : Prop :=
  ∀ f, env.onPublish = some f → ∀ a p b,
    (f a p b).ok = true ∧ (f a p b).requests = [] ∧ rest (f a p b).app = rest a

/-! ### Lines -/

theorem untilDisconnect_cons (e : Entry) (es : List Entry) :
    ∃ l, untilDisconnect (e :: es) = e :: l ∧ (l = if e.kind = .disconnect then [] else untilDisconnect es) := by
  rw [untilDisconnect]
  split
  · exact ⟨[], rfl, rfl⟩
  · exact ⟨_, rfl, rfl⟩

theorem untilDisconnect_append (l l' : List Entry) : untilDisconnect (l ++ l') =
    if (∃ e ∈ l, e.kind = .disconnect) then untilDisconnect l else untilDisconnect l ++ untilDisconnect l' := by
  induction l with
  | nil => simp [untilDisconnect]
  | cons e es ih =>
    rw [List.cons_append, untilDisconnect, untilDisconnect]
    by_cases hk : e.kind = .disconnect
    · rw [if_pos hk, if_pos hk, if_pos ⟨e, List.mem_cons_self .., hk⟩]
    · simp only [hk, if_false, ih, List.exists_mem_cons_iff, false_or]
      split <;> rfl

/- The encoder comes to what is first in its store. -/
theorem line_cons {w : World σ} {e : Entry} {es : List Entry} (h : w.line = e :: es) :
    w.tx.closed = false ∧ ∃ tl, w.txStore.pending = e :: tl ∧
      es = if e.kind = .disconnect then [] else untilDisconnect tl := by
  unfold World.line at h
  split at h
  · contradiction
  · rename_i hc
    refine ⟨by simpa using hc, ?_⟩
    cases hp : w.txStore.pending with
    | nil =>
      rw [hp] at h
      contradiction
    | cons x tl =>
      obtain ⟨l, hl, heq⟩ := untilDisconnect_cons x tl
      rw [hp, hl] at h
      obtain ⟨rfl, rfl⟩ := List.cons.inj h
      exact ⟨tl, rfl, heq⟩

theorem fields_cons {w : World σ} {e : Entry} {es : List Entry} (h : w.line = e :: es) :
    w.fields = (entryFields w.heap e).drop w.tx.internal.pos ++ lineFields (w.heap.counted e) es := by
  unfold World.fields
  rw [h]

theorem fields_nil {w : World σ} (h : w.line = []) : w.fields = [] := by
  unfold World.fields
  rw [h]

/-! ### Bytes of fields -/

/- Strings and their sources are the same. -/
structure Unread (rest : σ → ℕ → List Byte) (w v : World σ) : Prop where
  str : ∀ r, r.isStored = true → v.str r = w.str r
  sources : rest v.app = rest w.app

theorem Unread.ready {w v : World σ} (h : Unread rest w v) {off : ℕ} {f : Field} (hf : w.Ready off f) :
    v.Ready off f := by
  cases f with
  | header bytes => exact hf
  | str r el ie =>
    obtain ⟨hr, hform, hready⟩ := hf
    refine ⟨hr, hform, ?_⟩
    rwa [h.str r hr]

theorem Unread.left {w v : World σ} (h : Unread rest w v) {off : ℕ} {f : Field} (hf : w.Ready off f) (off' : ℕ) :
    v.left rest off' f = w.left rest off' f ∧ (v.Supplied rest off' f ↔ w.Supplied rest off' f) := by
  cases f with
  | header bytes => exact ⟨rfl, Iff.rfl⟩
  | str r el ie =>
    unfold World.left World.Supplied
    simp only [h.str r hf.1, h.sources, and_self]

theorem Unread.apart {w v : World σ} (h : Unread rest w v) {off off' : ℕ} {f g : Field} (hf : w.Ready off f)
    (hg : w.Ready off' g) (ha : w.Apart f g) : v.Apart f g := by
  intro r el ie r' el' ie' he he' hr hr'
  subst he he'
  rw [h.str r hf.1] at hr ⊢
  rw [h.str r' hg.1] at hr' ⊢
  exact ha r el ie r' el' ie' rfl rfl hr hr'

theorem World.Sendable.ready {w : World σ} {off : ℕ} {fs : List Field} (h : w.Sendable off fs) {f : Field}
    (hf : f ∈ fs) : ∃ off', w.Ready off' f := by
  cases fs with
  | nil => contradiction
  | cons g l =>
    rcases List.mem_cons.mp hf with rfl | hf
    · exact ⟨off, h.head _ l rfl⟩
    · exact ⟨0, h.tail f hf⟩

theorem Unread.sendable {w v : World σ} (h : Unread rest w v) {off : ℕ} {fs : List Field}
    (hs : w.Sendable off fs) : v.Sendable off fs ∧ v.bytes rest off fs = w.bytes rest off fs := by
  refine ⟨⟨fun f l hf => h.ready (hs.head f l hf), fun f hf => h.ready (hs.tail f hf), ?_⟩, ?_⟩
  · refine List.Pairwise.imp_of_mem (fun {f g} hf hg ha => ?_) hs.apart
    obtain ⟨off', hf⟩ := hs.ready hf
    obtain ⟨off'', hg⟩ := hs.ready hg
    exact h.apart hf hg ha
  · cases fs with
    | nil => rfl
    | cons f l =>
      change v.left rest off f ++ l.flatMap (v.left rest 0) = w.left rest off f ++ l.flatMap (w.left rest 0)
      have htail : l.flatMap (v.left rest 0) = l.flatMap (w.left rest 0) :=
        List.flatMap_congr fun g hg => (h.left (hs.tail g hg) 0).1
      rw [(h.left (hs.head f l rfl) off).1, htail]

/- Sending one field leaves the others. -/
theorem Sends.ready {w v : World σ} {f g : Field} (h : Sends rest f w v) (ha : w.Apart f g)
    (hg : w.Ready 0 g) :
    v.Ready 0 g ∧ v.left rest 0 g = w.left rest 0 g ∧ (v.Supplied rest 0 g ↔ w.Supplied rest 0 g) := by
  cases g with
  | header bytes => exact ⟨hg, rfl, Iff.rfl⟩
  | str r el ie =>
    obtain ⟨hr, hform, hready⟩ := hg
    obtain ⟨hl, hread, hb, hd⟩ := string_still hr h.heap
    have hsource : (w.str r).read = true → rest v.app (w.str r).data = rest w.app (w.str r).data := by
      intro hrd
      apply h.others
      intro r' el' ie' hf hrd'
      exact (ha r' el' ie' r el ie hf rfl hrd' hrd).symm
    have hzero : stringOffset el 0 = 0 := by cases el <;> rfl
    refine ⟨?_, ?_, ?_⟩
    · refine ⟨hr, hform, ?_⟩
      rw [hzero] at hready ⊢
      refine ⟨by rw [hl]; exact hready.len, Nat.zero_le _, ?_⟩
      rw [hl, hread, hb]
      rcases hready.source with hz | hrd | ⟨hrd, -, hm⟩
      · exact .inl hz
      · exact .inr (.inl hrd)
      · exact .inr (.inr ⟨hrd, .inl rfl, hm⟩)
    · have hfrom : ∀ k, (v.str r).from (rest v.app) k = (w.str r).from (rest w.app) k := by
        intro k
        unfold LString.from
        rw [hl, hread, hb, hd]
        by_cases hrd : (w.str r).read = true
        · rw [hsource hrd]
        · rw [if_neg hrd, if_neg hrd]
      unfold World.left
      simp only [hl, hfrom]
    · change (v.str r).Supplied _ _ ↔ (w.str r).Supplied _ _
      unfold LString.Supplied
      rw [hl, hread, hd]
      constructor
      · intro h hrd
        rw [← hsource hrd]
        exact h hrd
      · intro h hrd
        rw [hsource hrd]
        exact h hrd

theorem Sends.apart {w v : World σ} {f : Field} (h : Sends rest f w v) {g g' : Field} {off off' : ℕ}
    (hg : w.Ready off g) (hg' : w.Ready off' g') (ha : w.Apart g g') : v.Apart g g' := by
  intro r el ie r' el' ie' he he' hr hr'
  subst he he'
  obtain ⟨-, hread, -, hdata⟩ := string_still hg.1 h.heap
  obtain ⟨-, hread', -, hdata'⟩ := string_still hg'.1 h.heap
  rw [hdata, hdata']
  exact ha r el ie r' el' ie' rfl rfl (hread ▸ hr) (hread' ▸ hr')

/-- What is left behind a field that was sent. -/
theorem Sends.behind {w v : World σ} {f : Field} {fs : List Field} {off : ℕ} (h : Sends rest f w v)
    (hs : w.Sendable off (f :: fs)) :
    v.Sendable 0 fs ∧ v.bytes rest 0 fs = fs.flatMap (w.left rest 0) := by
  have hall := fun g hg => h.ready ((List.pairwise_cons.mp hs.apart).1 g hg) (hs.tail g hg)
  have hflat : fs.flatMap (v.left rest 0) = fs.flatMap (w.left rest 0) :=
    List.flatMap_congr fun g hg => (hall g hg).2.1
  refine ⟨⟨fun g l hg => (hall g (by rw [hg]; exact List.mem_cons_self ..)).1,
    fun g hg => (hall g (List.mem_of_mem_tail hg)).1, ?_⟩, ?_⟩
  · refine List.Pairwise.imp_of_mem (fun {g g'} hg hg' ha => ?_) (List.pairwise_cons.mp hs.apart).2
    exact h.apart (hs.tail g hg) (hs.tail g' hg') ha
  · rw [← hflat]
    cases fs with
    | nil => rfl
    | cons g l => rfl

/- The field itself is sent from another offset on. -/
theorem Sends.within {w v : World σ} {f : Field} {fs : List Field} {off off' : ℕ} (h : Sends rest f w v)
    (hs : w.Sendable off (f :: fs)) (hr : v.Ready off' f) :
    v.Sendable off' (f :: fs) ∧ v.bytes rest off' (f :: fs) = v.left rest off' f ++ fs.flatMap (w.left rest 0) := by
  obtain ⟨hbehind, -⟩ := h.behind hs
  have hall := fun g hg => h.ready ((List.pairwise_cons.mp hs.apart).1 g hg) (hs.tail g hg)
  refine ⟨⟨fun g l hg => ?_, fun g hg => (hall g hg).1, List.pairwise_cons.mpr ⟨fun g hg => ?_, hbehind.apart⟩⟩, ?_⟩
  · cases hg
    exact hr
  · exact h.apart (hs.head f fs rfl) (hs.tail g hg) ((List.pairwise_cons.mp hs.apart).1 g hg)
  · change v.left rest off' f ++ fs.flatMap (v.left rest 0) = _
    rw [List.flatMap_congr fun g hg => (hall g hg).2.1]

/-! ### The end of an entry -/

/- What the end of the first entry of the line changes. -/
structure Finished (rest : σ → ℕ → List Byte) (w : World σ) (e : Entry) (es : List Entry) (v : World σ) : Prop where
  line : v.line = es
  pending : w.txStore.pending = e :: v.txStore.pending
  sent : v.txStore.sent = w.txStore.sent ++ [e].filter (·.kind.expectsResponse)
  heap : v.heap = w.heap
  rx : v.rx = w.rx
  app : rest v.app = rest w.app
  store : v.tx.store = w.tx.store
  error : v.tx.internal.error = none
  reset : v.tx.internal = {} ∨ v.tx.closed = true ∧ v.tx.internal = w.tx.internal

theorem callValue_silent (hq : env.Silent rest) (w : World σ) (v : Value) (hv : v.callback = some .onPublish) :
    Wp (callValue env v) w (fun ok u => ok = true ∧ ∃ a, rest a = rest w.app ∧
      u = { w.emit (.answered .onPublish v.req v.value (!w.closed)) with app := a }) fun _ _ => False := by
  rw [callValue, callCallback_requests]
  cases env.fuel <;> simp only [wp_bind, wp_get, hv, callUser, wp_emit]
  all_goals
    cases hf : env.onPublish with
    | none => exact ⟨rfl, w.app, rfl, rfl⟩
    | some f =>
      obtain ⟨hok, hreq, hrest⟩ := hq f hf w.app v.value (!w.closed)
      simp only [wp_bind, wp_get, wp_set]
      change Wp (doRequests (f w.app v.value (!w.closed)).requests) _ _ _
      rw [hreq]
      exact ⟨hok, (f w.app v.value (!w.closed)).app, hrest, rfl⟩

theorem txBufferFinishEntry_finished (w : World σ) (e : Entry) (es : List Entry)
    (hq : e.kind ≠ .publish0 ∨ env.Silent rest)
    (hline : w.line = e :: es) (ht : e.WellTyped) (herror : w.tx.internal.error = none) :
    Wp (txBufferFinishEntry env e) w (fun ok v => ok = true ∧ Finished rest w e es v) fun _ _ => False := by
  obtain ⟨hopen, tl, hpend, hes⟩ := line_cons hline
  have hstore : (w.emit (.encoded e.kind e.value.packetId e.value.req)).txStore = w.txStore :=
    World.store_emit w w.tx.store _
  have htx : (w.emit (.encoded e.kind e.value.packetId e.value.req)).tx = w.tx := rfl
  simp only [txBufferFinishEntry, lmqttTxBufferReset, lmqttTxBufferFinish, wp_bind, wp_emit, wp_get, wp_ite,
    wp_set, wp_modify, wp_pure, hstore, htx]
  have hline' : ∀ v : World σ, v.tx.closed = false → v.txStore.pending = tl → v.line = untilDisconnect tl := by
    intro v hc hp
    unfold World.line
    rw [hc, hp]
    rfl
  split
  · rename_i hr
    have hr : e.kind.expectsResponse = false := by simpa using hr
    obtain ⟨-, -, hsent, hpend'⟩ := (Store.dropCurrent_spec _ _ _ hpend).current w.txStore.sent_length
    have hsent' : w.txStore.sent = w.txStore.sent ++ [e].filter (·.kind.expectsResponse) := by
      simp [hr]
    generalize hv : (w.emit (.encoded e.kind e.value.packetId e.value.req)).setStore w.tx.store
      w.txStore.dropCurrent = v
    have hvtx : v.tx = w.tx := by rw [← hv, World.setStore_tx]; rfl
    have hvs : v.txStore = w.txStore.dropCurrent := by
      unfold World.txStore
      rw [hvtx, ← hv, World.store_setStore_self]
      rfl
    have hvh : v.heap = w.heap := by rw [← hv, World.setStore_heap]; rfl
    have hvr : v.rx = w.rx := by rw [← hv, World.setStore_rx]; rfl
    have hva : v.app = w.app := by rw [← hv, World.setStore_app]; rfl
    have hfin : ∀ u : World σ, u.tx = { w.tx with closed := false, internal := {} } → u.txStore = v.txStore →
        u.heap = v.heap → u.rx = v.rx → rest u.app = rest w.app → e.kind ≠ .disconnect → Finished rest w e es u := by
      intro u hut hus huh hur hua hk
      have hc : u.tx.closed = false := by rw [hut]
      refine ⟨?_, ?_, ?_, huh.trans hvh, hur.trans hvr, hua, by rw [hut], by rw [hut], .inl (by rw [hut])⟩
      · rw [hes, if_neg hk]
        apply hline' u hc
        rw [hus, hvs, hpend']
      · rw [hus, hvs, hpend', hpend]
      · rw [hus, hvs, hsent]
        exact hsent'
    split
    · rename_i hk
      refine ⟨trivial, ?_, ?_, ?_, hvh, hvr, by rw [← hva]; rfl, ?_, ?_, ?_⟩
      · rw [hes, if_pos hk]
        rfl
      · change _ = e :: v.txStore.pending
        rw [hvs, hpend', hpend]
      · change v.txStore.sent = _
        rw [hvs, hsent]
        exact hsent'
      · change v.tx.store = _
        rw [hvtx]
      · change v.tx.internal.error = none
        rw [hvtx, herror]
      · refine .inr ⟨rfl, ?_⟩
        change v.tx.internal = _
        rw [hvtx]
    · rename_i hk
      split
      · rename_i hcb
        have hcall : e.value.callback = some .onPublish := by
          rw [ht.callback] at hcb ⊢
          cases hkind : e.kind <;> rw [hkind] at hr hcb <;> first | rfl | contradiction
        have hq : env.Silent rest := by
          rcases hq with hq | hq
          · rw [ht.callback] at hcb
            cases hkind : e.kind <;> rw [hkind] at hr hcb hq <;> contradiction
          · exact hq
        refine (callValue_silent hq v e.value hcall).mono (fun ok u hu => ?_) fun _ _ h => h
        obtain ⟨rfl, a, ha, rfl⟩ := hu
        refine ⟨trivial, hfin _ ?_ rfl rfl rfl ?_ hk⟩
        · change { v.tx with closed := false, internal := {} } = _
          rw [hvtx]
        · change rest a = _
          rw [ha, hva]
      · refine ⟨trivial, hfin _ ?_ rfl rfl rfl ?_ hk⟩
        · change { v.tx with closed := false, internal := {} } = _
          rw [hvtx]
        · change rest v.app = _
          rw [hva]
  · rename_i hr
    have hr : e.kind.expectsResponse = true := by simpa using hr
    obtain ⟨-, -, -, hsent, hpend'⟩ := Store.markCurrent_spec _ _ _ hpend
    have hk : e.kind ≠ .disconnect := by
      intro hk
      rw [hk] at hr
      contradiction
    generalize hv : (w.emit (.encoded e.kind e.value.packetId e.value.req)).setStore w.tx.store
      w.txStore.markCurrent = v
    have hvtx : v.tx = w.tx := by rw [← hv, World.setStore_tx]; rfl
    have hvs : v.resetTx.txStore = w.txStore.markCurrent := by
      change v.store v.tx.store = _
      rw [hvtx, ← hv, World.store_setStore_self]
    refine ⟨trivial, ?_, ?_, ?_, ?_, ?_, ?_, ?_, rfl, .inl rfl⟩
    · rw [hes, if_neg hk]
      exact hline' _ rfl (by rw [hvs, hpend'])
    · rw [hvs, hpend', hpend]
    · rw [hvs, hsent]
      simp [hr]
    · change v.heap = _
      rw [← hv, World.setStore_heap]
      rfl
    · change v.rx = _
      rw [← hv, World.setStore_rx]
      rfl
    · change rest v.app = _
      rw [← hv, World.setStore_app]
      rfl
    · change v.tx.store = _
      rw [hvtx]

/-! ### One turn of the encoder -/

/- The callbacks of fields still have what is left of them. -/
def World.Supplying (rest : σ → ℕ → List Byte) (w : World σ) (off : ℕ) : List Field → Prop
  | [] => True
  | f :: fs => w.Supplied rest off f ∧ ∀ g ∈ fs, w.Supplied rest 0 g

/- The encoder stands behind the end of a string, or in the middle of the length
   of an empty one with room for one byte. -/
def World.AtEnd (w : World σ) : Prop := ∃ f fs, w.fields = f :: fs ∧ w.Stuck w.tx.internal.offset f
def World.Halved (w : World σ) (bufLen : ℕ) : Prop :=
  ∃ f fs, w.fields = f :: fs ∧ w.Cut w.tx.internal.offset bufLen f

/- Something is left of the field at which the encoder stands. -/
def World.Paused (rest : σ → ℕ → List Byte) (w : World σ) : Prop :=
  ∃ f fs, w.fields = f :: fs ∧ (w.left rest w.tx.internal.offset f = [] → w.Stuck w.tx.internal.offset f)

/-- What a call of the encoder does that had room for `bufLen` bytes and wrote `bs`. -/
structure Emitted (env : Env σ) (rest : σ → ℕ → List Byte) (w : World σ) (bufLen : ℕ) (bs : List Byte)
    (v : World σ) : Prop where
  owed : w.owed rest = bs ++ v.owed rest
  room : bs.length ≤ bufLen
  encoding : v.Encoding
  done : ∃ done, w.line = done ++ v.line ∧ w.txStore.pending = done ++ v.txStore.pending ∧
    v.txStore.sent = w.txStore.sent ++ done.filter (·.kind.expectsResponse)
  sent : ∃ fs, w.fields = fs ++ v.fields ∧ w.Supplying rest w.tx.internal.offset fs
  supply : v.Supplying rest v.tx.internal.offset v.fields ↔ w.Supplying rest w.tx.internal.offset w.fields
  store : v.tx.store = w.tx.store
  rx : v.rx = w.rx
  strings : ∀ r, r.isStored = true → (v.str r).still = (w.str r).still
  paused : w.Supplying rest w.tx.internal.offset w.fields → v.line = [] ∨ v.Paused rest
  atEnd : v.AtEnd → w.AtEnd ∨ w.Halved bufLen
  flows : env.Flows rest → w.Supplying rest w.tx.internal.offset w.fields → bs = [] → bufLen = 0 ∨ v.line = []
  filled : (∀ f ∈ w.fields, w.InMemory f) → bs.length = bufLen ∨ v.line = []

theorem not_stuck_zero {w : World σ} {f : Field} (h : w.Ready 0 f) : ¬ w.Stuck 0 f := by
  cases f with
  | header bytes => exact id
  | str r el ie =>
    rintro ⟨hn, hend⟩
    obtain ⟨-, hform, hready⟩ := h
    have hlo := hready.len.1
    cases el with
    | true =>
      simp only [if_true] at hend
      omega
    | false =>
      simp only [Bool.false_eq_true, if_false] at hend
      exact hn ⟨by omega, by simpa using hform⟩

theorem apart_inMemory {w : World σ} {fs : List Field} (hm : ∀ f ∈ fs, w.InMemory f) : fs.Pairwise w.Apart := by
  refine List.pairwise_of_forall_mem_list fun f hf g _ r el ie r' el' ie' he _ hread _ => ?_
  rw [hm f hf r el ie he] at hread
  contradiction

/- A fresh encoder can send what is ready. -/
theorem encoding_fresh {w : World σ} (hfresh : w.tx.internal = {}) (hready : ∀ f ∈ w.fields, w.Ready 0 f)
    (hapart : w.fields.Pairwise w.Apart) (htyped : ∀ e ∈ w.line, e.WellTyped ∧ e.Valid w.heap) : w.Encoding := by
  constructor
  · rw [hfresh]
  · intro _ _
    rw [hfresh]
  · intro e es _
    rw [hfresh]
    exact Nat.zero_le _
  · intro _ _
    rw [hfresh]
    exact ⟨rfl, rfl⟩
  · rw [hfresh]
    refine ⟨fun f l hf => hready f (by rw [hf]; exact List.mem_cons_self ..), fun f hf => hready f (List.mem_of_mem_tail hf),
      hapart⟩
  · intro f fs _
    rw [hfresh]
    exact caches_of_fresh rfl f
  · exact htyped

/- A field is entered at its first byte. -/
theorem World.Encoding.not_atEnd {w : World σ} (h : w.Encoding) (h0 : w.tx.internal.offset = 0) :
    ¬ w.AtEnd ∧ ∀ n, ¬ w.Halved n := by
  constructor
  · rintro ⟨f, fs, hf, hstuck⟩
    have hready := h.fields.head f fs hf
    rw [h0] at hready hstuck
    exact not_stuck_zero hready hstuck
  · rintro n ⟨f, fs, hf, r, -, -, hone, -⟩
    omega

/- Two states that do not differ for the encoder. -/
structure Alike (w u : World σ) : Prop where
  tx : u.tx = w.tx
  txStore : u.txStore = w.txStore
  rx : u.rx = w.rx
  app : u.app = w.app
  heap : u.heap.still = w.heap.still
  str : ∀ r, u.str r = w.str r

section Alike
variable {w u : World σ}

theorem Alike.line (h : Alike w u) : u.line = w.line := by
  unfold World.line
  rw [h.tx, h.txStore]

theorem Alike.entryFields (h : Alike w u) (e : Entry) : entryFields u.heap e = LightMqtt.entryFields w.heap e :=
  entryFields_congr h.heap e

theorem Alike.fields (h : Alike w u) : u.fields = w.fields := by
  unfold World.fields
  rw [h.line, h.tx]
  cases w.line with
  | nil => rfl
  | cons e es =>
    simp only [h.entryFields]
    rw [lineFields_congr (counted_congr h.heap e)]

theorem Alike.left (h : Alike w u) (off : ℕ) (f : Field) : u.left rest off f = w.left rest off f := by
  cases f with
  | header bytes => rfl
  | str r el ie =>
    unfold World.left
    simp only [h.str, h.app]

theorem Alike.supplied (h : Alike w u) (off : ℕ) (f : Field) : u.Supplied rest off f ↔ w.Supplied rest off f := by
  cases f with
  | header bytes => rfl
  | str r el ie =>
    unfold World.Supplied
    simp only [h.str, h.app]

theorem Alike.supplying (h : Alike w u) (off : ℕ) (fs : List Field) :
    u.Supplying rest off fs ↔ w.Supplying rest off fs := by
  cases fs with
  | nil => rfl
  | cons f fs => simp only [World.Supplying, h.supplied]

theorem Alike.owed (h : Alike w u) : u.owed rest = w.owed rest := by
  unfold World.owed World.bytes
  rw [h.fields, h.tx]
  cases w.fields with
  | nil => rfl
  | cons f fs =>
    simp only [h.left]
    rw [List.flatMap_congr fun f _ => h.left 0 f]

theorem Alike.stuck (h : Alike w u) (off : ℕ) (f : Field) : u.Stuck off f ↔ w.Stuck off f := by
  cases f with
  | header bytes => rfl
  | str r el ie => rw [stuck_str, stuck_str, h.str]

theorem Alike.atEnd (h : Alike w u) : u.AtEnd ↔ w.AtEnd := by
  unfold World.AtEnd
  simp only [h.fields, h.tx, h.stuck]

theorem Alike.halved (h : Alike w u) (bufLen : ℕ) : u.Halved bufLen ↔ w.Halved bufLen := by
  unfold World.Halved World.Cut
  simp only [h.fields, h.tx, h.str]

theorem Alike.emitted (h : Alike w u) {bufLen : ℕ} {bs : List Byte} {v : World σ}
    (he : Emitted env rest u bufLen bs v) : Emitted env rest w bufLen bs v := by
  have hmem : (∀ f ∈ w.fields, w.InMemory f) → ∀ f ∈ u.fields, u.InMemory f := by
    intro hm f hf r el ie hfe
    rw [h.str]
    rw [h.fields] at hf
    exact hm f hf r el ie hfe
  have hsup : u.Supplying rest u.tx.internal.offset u.fields ↔ w.Supplying rest w.tx.internal.offset w.fields := by
    rw [h.supplying, h.fields, h.tx]
  obtain ⟨fs, hfs, hsent⟩ := he.sent
  constructor
  · rw [← h.owed, he.owed]
  · exact he.room
  · exact he.encoding
  · rw [← h.line, ← h.txStore]
    exact he.done
  · refine ⟨fs, by rw [← h.fields, hfs], ?_⟩
    rwa [h.supplying, h.tx] at hsent
  · exact he.supply.trans hsup
  · rw [he.store, h.tx]
  · rw [he.rx, h.rx]
  · intro r hr
    rw [he.strings r hr, h.str]
  · exact fun hs => he.paused (hsup.mpr hs)
  · intro ha
    rw [← h.atEnd, ← h.halved]
    exact he.atEnd ha
  · exact fun hfl hs => he.flows hfl (hsup.mpr hs)
  · exact fun hm => he.filled (hmem hm)

end Alike

theorem encoder_still (h : Heap) (v : Value) (x : Encoder) : x.Valid h.still v ↔ x.Valid h v := by
  cases x with
  | subscribeHeaderSubscribe =>
    change Encodable (subscribeCalcRemainingLength (h.subscribes _).still true) ↔ _
    rw [subscribeCalcRemainingLength_still]
    rfl
  | subscribeHeaderUnsubscribe =>
    change Encodable (subscribeCalcRemainingLength (h.subscribes _).still false) ↔ _
    rw [subscribeCalcRemainingLength_still]
    rfl
  | _ => rfl

theorem valid_still (h : Heap) (e : Entry) : e.Valid h.still ↔ e.Valid h := by
  unfold Entry.Valid
  simp only [entryEncoders_still, encoder_still]

theorem valid_congr {h h' : Heap} (hs : h'.still = h.still) (e : Entry) : e.Valid h' ↔ e.Valid h := by
  rw [← valid_still h', hs, valid_still]

theorem entryEncoders_counted (h : Heap) (e x : Entry) : entryEncoders (h.counted e) x = entryEncoders h x := by
  obtain ⟨-, hs⟩ := counted_connects h e
  obtain ⟨-, -, hq⟩ := counted_strings h e x.value.value
  unfold entryEncoders
  simp only [hs, hq]

theorem valid_counted (h : Heap) (e x : Entry) : x.Valid (h.counted e) ↔ x.Valid h := by
  obtain ⟨hc, hs⟩ := counted_connects h e
  obtain ⟨ht, hp, hq⟩ := counted_strings h e x.value.value
  have hy : ∀ y : Encoder, y.Valid (h.counted e) x.value ↔ y.Valid h x.value := by
    intro y
    cases y with
    | publishFixedHeader =>
      have hcalc : publishCalcRemainingLength ((h.counted e).publishes x.value.value) =
          publishCalcRemainingLength (h.publishes x.value.value) := by
        unfold publishCalcRemainingLength
        rw [ht, hp, hq]
      have hvalid : publishValidate ((h.counted e).publishes x.value.value) =
          publishValidate (h.publishes x.value.value) := by
        unfold publishValidate
        rw [ht, hq, hcalc]
      simp only [Encoder.Valid, hcalc, hvalid]
    | _ => simp only [Encoder.Valid, hc, hs]
  unfold Entry.Valid
  simp only [entryEncoders_counted, hy]

section Turn
variable {u v : World σ} {f : Field} {fs : List Field} {e : Entry} {es : List Entry}

/- The encoder of a field does not change what there is to send. -/
theorem Sends.line (h : Sends rest f u v) (i : TxInternal) :
    (v.setTx i).line = u.line ∧ (v.setTx i).txStore = u.txStore ∧ (v.setTx i).tx.store = u.tx.store ∧
      (v.setTx i).rx = u.rx ∧ (v.setTx i).tx.closed = u.tx.closed := by
  have hs := h.scratch.same
  rw [hs]
  exact ⟨rfl, rfl, rfl, rfl, rfl⟩

theorem Sends.fields (h : Sends rest f u v) (i : TxInternal) (hl : u.line = e :: es) :
    (v.setTx i).fields = (entryFields u.heap e).drop i.pos ++ lineFields (u.heap.counted e) es := by
  rw [fields_cons ((h.line i).1.trans hl)]
  change (entryFields v.heap e).drop i.pos ++ lineFields (v.heap.counted e) es = _
  rw [entryFields_congr h.heap e, lineFields_congr (counted_congr h.heap e)]

theorem Sends.encoding (h : Sends rest f u v) (hu : u.Encoding) (i : TxInternal) (hl : u.line = e :: es)
    (herror : i.error = none) (hpos : i.pos ≤ (entryFields u.heap e).length)
    (hbetween : i.pos = (entryFields u.heap e).length → i.offset = 0 ∧ i.buffer.encoded = false)
    (hfields : (v.setTx i).Sendable i.offset (v.setTx i).fields)
    (hcaches : ∀ f fs, (v.setTx i).fields = f :: fs → i.buffer.Caches f) : (v.setTx i).Encoding := by
  obtain ⟨hline, -⟩ := h.line i
  have hcurrent : ∀ e' es', (v.setTx i).line = e' :: es' → entryFields v.heap e' = entryFields u.heap e := by
    intro e' es' he
    rw [hline, hl] at he
    cases he
    exact entryFields_congr h.heap e
  constructor
  · exact herror
  · intro hn
    rw [hline, hl] at hn
    contradiction
  · intro e' es' he
    change i.pos ≤ (entryFields v.heap e').length
    rw [hcurrent e' es' he]
    exact hpos
  · intro hall _
    apply hbetween
    have hend : i.pos = (entryFields v.heap e).length := hall e es (hline.trans hl)
    rwa [entryFields_congr h.heap e] at hend
  · exact hfields
  · exact hcaches
  · intro x hx
    rw [hline] at hx
    refine ⟨(hu.typed x hx).1, ?_⟩
    rw [show (v.setTx i).heap = v.heap from rfl, valid_congr h.heap]
    exact (hu.typed x hx).2

theorem Sends.strings (h : Sends rest f u v) (i : TxInternal) (r : StrRef) (hr : r.isStored = true) :
    ((v.setTx i).str r).still = (u.str r).still := by
  rw [str_setTx]
  exact str_still hr h.heap

theorem sendable_setTx (i : TxInternal) (off : ℕ) (l : List Field) : (v.setTx i).Sendable off l ↔ v.Sendable off l := by
  have hapart : ∀ f g, (v.setTx i).Apart f g ↔ v.Apart f g := by
    intro f g
    unfold World.Apart
    simp only [str_setTx]
  constructor
  · rintro ⟨h, ht, ha⟩
    refine ⟨fun f l hf => (ready_setTx ..).mp (h f l hf), fun f hf => (ready_setTx ..).mp (ht f hf), ?_⟩
    exact ha.imp fun h => (hapart ..).mp h
  · rintro ⟨h, ht, ha⟩
    refine ⟨fun f l hf => (ready_setTx ..).mpr (h f l hf), fun f hf => (ready_setTx ..).mpr (ht f hf), ?_⟩
    exact ha.imp fun h => (hapart ..).mpr h

theorem bytes_setTx (i : TxInternal) (off : ℕ) (l : List Field) : (v.setTx i).bytes rest off l = v.bytes rest off l := by
  cases l with
  | nil => rfl
  | cons f l =>
    unfold World.bytes
    simp only [left_setTx]
    rw [List.flatMap_congr fun f _ => left_setTx v i 0 f]

theorem supplying_setTx (i : TxInternal) (off : ℕ) (l : List Field) :
    (v.setTx i).Supplying rest off l ↔ v.Supplying rest off l := by
  cases l with
  | nil => rfl
  | cons f l => simp only [World.Supplying, supplied_setTx]

/- Callbacks of other fields still have what they had. -/
theorem Sends.supplying {off off' : ℕ} (h : Sends rest f u v) (hs : u.Sendable off (f :: fs))
    (hp : v.Supplied rest off' f ↔ u.Supplied rest off f) :
    v.Supplying rest off' (f :: fs) ↔ u.Supplying rest off (f :: fs) := by
  have hall : ∀ g ∈ fs, (v.Supplied rest 0 g ↔ u.Supplied rest 0 g) := fun g hg =>
    (h.ready ((List.pairwise_cons.mp hs.apart).1 g hg) (hs.tail g hg)).2.2
  simp only [World.Supplying, hp]
  constructor
  · rintro ⟨hf, h⟩
    exact ⟨hf, fun g hg => (hall g hg).mp (h g hg)⟩
  · rintro ⟨hf, h⟩
    exact ⟨hf, fun g hg => (hall g hg).mpr (h g hg)⟩

theorem Sends.supplying_behind {off : ℕ} (h : Sends rest f u v) (hs : u.Sendable off (f :: fs))
    (hp : u.Supplied rest off f) : v.Supplying rest 0 fs ↔ u.Supplying rest off (f :: fs) := by
  have hall : ∀ g ∈ fs, (v.Supplied rest 0 g ↔ u.Supplied rest 0 g) := fun g hg =>
    (h.ready ((List.pairwise_cons.mp hs.apart).1 g hg) (hs.tail g hg)).2.2
  have hfs : v.Supplying rest 0 fs ↔ ∀ g ∈ fs, v.Supplied rest 0 g := by
    cases fs with
    | nil => simp [World.Supplying]
    | cons g l => simp only [World.Supplying, List.mem_cons, forall_eq_or_imp]
  rw [hfs]
  constructor
  · exact fun h => ⟨hp, fun g hg => (hall g hg).mp (h g hg)⟩
  · exact fun h g hg => (hall g hg).mpr (h.2 g hg)

/- A string stays in memory. -/
theorem Sends.inMemory (h : Sends rest f u v) (i : TxInternal) {g : Field} (hr : ∃ off, u.Ready off g)
    (hg : u.InMemory g) : (v.setTx i).InMemory g := by
  intro r el ie hge
  obtain ⟨off, hr⟩ := hr
  subst hge
  rw [str_setTx, (string_still hr.1 h.heap).2.1]
  exact hg r el ie rfl

/- The encoder stays at the field, of which it has sent `off` bytes now. -/
theorem Sends.stays {off bufLen : ℕ} {bs : List Byte} (h : Sends rest f u v) (hu : u.Encoding)
    (hl : u.line = e :: es) (hp : u.tx.internal.pos < (entryFields u.heap e).length) (hf : u.fields = f :: fs)
    (i : TxInternal) (hi : i.pos = u.tx.internal.pos ∧ i.offset = off ∧ i.error = none)
    (hr : v.Ready off f) (hc : i.buffer.Caches f)
    (hb : u.left rest u.tx.internal.offset f = bs ++ v.left rest off f) (hlen : bs.length ≤ bufLen)
    (hs : v.Supplied rest off f ↔ u.Supplied rest u.tx.internal.offset f)
    (hpaused : u.Supplied rest u.tx.internal.offset f → v.left rest off f = [] → v.Stuck off f)
    (hend : v.Stuck off f → u.Stuck u.tx.internal.offset f ∨ u.Cut u.tx.internal.offset bufLen f)
    (hflows : env.Flows rest → u.Supplied rest u.tx.internal.offset f → bs = [] → bufLen = 0)
    (hfilled : u.InMemory f → bs.length = bufLen) : Emitted env rest u bufLen bs (v.setTx i) := by
  obtain ⟨hpos, rfl, herror⟩ := hi
  have hsend := hu.fields
  rw [hf] at hsend
  obtain ⟨hwithin, hbytes⟩ := h.within hsend hr
  obtain ⟨hline, hstore, htx, hrx, -⟩ := h.line i
  have hfields : (v.setTx i).fields = f :: fs := by
    rw [h.fields i hl, hpos, ← fields_cons hl, hf]
  have hsupply := h.supplying hsend hs
  have hend' : (v.setTx i).Stuck i.offset f ↔ v.Stuck i.offset f := by
    cases f with
    | header bytes => rfl
    | str r el ie => rw [stuck_str, stuck_str, str_setTx]
  have hfst : u.Supplying rest u.tx.internal.offset u.fields → u.Supplied rest u.tx.internal.offset f := by
    rw [hf]
    exact fun hs => hs.1
  constructor
  · change u.bytes rest _ u.fields = bs ++ (v.setTx i).bytes rest i.offset (v.setTx i).fields
    rw [hfields, hf, bytes_setTx, hbytes]
    change u.left rest _ f ++ _ = _
    rw [hb, List.append_assoc]
  · exact hlen
  · apply h.encoding hu i hl herror
    · rw [hpos]
      exact hp.le
    · intro heq
      rw [hpos] at heq
      exact absurd heq hp.ne
    · rw [hfields, sendable_setTx]
      exact hwithin
    · intro g l hg
      rw [hfields] at hg
      cases hg
      exact hc
  · refine ⟨[], by rw [hline, List.nil_append], ?_, ?_⟩
    · rw [hstore, List.nil_append]
    · rw [hstore, List.filter_nil, List.append_nil]
  · exact ⟨[], by rw [hfields, hf, List.nil_append], trivial⟩
  · rw [hfields, hf]
    exact (supplying_setTx ..).trans hsupply
  · exact htx
  · exact hrx
  · exact h.strings i
  · refine fun hs => .inr ⟨f, fs, hfields, ?_⟩
    change (v.setTx i).left rest i.offset f = [] → (v.setTx i).Stuck i.offset f
    rw [left_setTx, hend']
    exact hpaused (hfst hs)
  · rintro ⟨g, l, hg, hstuck⟩
    rw [hfields] at hg
    cases hg
    rcases hend (hend'.mp hstuck) with h | h
    · exact .inl ⟨f, fs, hf, h⟩
    · exact .inr ⟨f, fs, hf, h⟩
  · exact fun hfl hs hnil => .inl (hflows hfl (hfst hs) hnil)
  · intro hm
    exact .inl (hfilled (hm f (by rw [hf]; exact List.mem_cons_self ..)))

/- The encoder goes on behind the field. -/
theorem Sends.goes_on {bufLen : ℕ} {bytes bs : List Byte} {t : World σ} (h : Sends rest f u v) (hu : u.Encoding)
    (hl : u.line = e :: es) (hp : u.tx.internal.pos < (entryFields u.heap e).length) (hf : u.fields = f :: fs)
    (i : TxInternal) (hi : i.pos = u.tx.internal.pos + 1 ∧ i.offset = 0 ∧ i.error = none)
    (hc : i.buffer.encoded = false) (hb : u.left rest u.tx.internal.offset f = bytes) (hlen : bytes.length ≤ bufLen)
    (hs : u.Supplied rest u.tx.internal.offset f) :
    (v.setTx i).Encoding ∧ (v.setTx i).fields = fs ∧
      (Emitted env rest (v.setTx i) (bufLen - bytes.length) bs t → Emitted env rest u bufLen (bytes ++ bs) t) := by
  obtain ⟨hpos, hoff, herror⟩ := hi
  have hsend := hu.fields
  rw [hf] at hsend
  obtain ⟨hbehind, hbytes⟩ := h.behind hsend
  obtain ⟨hline, hstore, htx, hrx, -⟩ := h.line i
  have hfields : (v.setTx i).fields = fs := by
    have hall := fields_cons hl
    rw [hf] at hall
    rw [h.fields i hl, hpos]
    rw [List.drop_eq_getElem_cons hp, List.cons_append] at hall
    exact (List.cons.inj hall).2.symm
  have hsupply := h.supplying_behind hsend hs
  have hencoding : (v.setTx i).Encoding := by
    apply h.encoding hu i hl herror
    · rw [hpos]
      exact hp
    · exact fun _ => ⟨hoff, hc⟩
    · rw [hfields, sendable_setTx, hoff]
      exact hbehind
    · exact fun g l _ => caches_of_fresh hc g
  refine ⟨hencoding, hfields, fun ht => ?_⟩
  have howed : (v.setTx i).owed rest = fs.flatMap (u.left rest 0) := by
    change (v.setTx i).bytes rest i.offset (v.setTx i).fields = _
    rw [hfields, bytes_setTx, hoff, hbytes]
  have hall : (v.setTx i).Supplying rest (v.setTx i).tx.internal.offset (v.setTx i).fields ↔
      u.Supplying rest u.tx.internal.offset u.fields := by
    change (v.setTx i).Supplying rest i.offset _ ↔ _
    rw [hfields, hf, hoff, supplying_setTx]
    exact hsupply
  have hmem : (∀ g ∈ u.fields, u.InMemory g) → ∀ g ∈ (v.setTx i).fields, (v.setTx i).InMemory g := by
    intro hm g hg r el ie hge
    rw [hfields] at hg
    have hin : g ∈ u.fields := by
      rw [hf]
      exact List.mem_cons_of_mem _ hg
    exact h.inMemory i ⟨0, hsend.tail g hg⟩ (hm g hin) r el ie hge
  constructor
  · change u.bytes rest _ u.fields = _
    rw [hf]
    change u.left rest _ f ++ _ = _
    rw [hb, ← howed, ht.owed, List.append_assoc]
  · have hroom := ht.room
    rw [List.length_append]
    omega
  · exact ht.encoding
  · rw [← hline, ← hstore]
    exact ht.done
  · obtain ⟨l, hl', hsent⟩ := ht.sent
    refine ⟨f :: l, by rw [hf, ← hfields, hl', List.cons_append], hs, fun g hg => ?_⟩
    have hg' : v.Supplied rest 0 g := by
      change (v.setTx i).Supplying rest i.offset l at hsent
      rw [hoff, supplying_setTx] at hsent
      cases l with
      | nil => contradiction
      | cons x l =>
        rcases List.mem_cons.mp hg with rfl | hg
        · exact hsent.1
        · exact hsent.2 g hg
    have hin : g ∈ fs := by
      rw [← hfields, hl']
      exact List.mem_append_left _ hg
    exact (h.ready ((List.pairwise_cons.mp hsend.apart).1 g hin) (hsend.tail g hin)).2.2.mp hg'
  · exact ht.supply.trans hall
  · exact ht.store.trans htx
  · exact ht.rx.trans hrx
  · exact fun r hr => (ht.strings r hr).trans (h.strings i r hr)
  · exact fun hs => ht.paused (hall.mpr hs)
  · intro ha
    obtain ⟨hend, hhalf⟩ := hencoding.not_atEnd hoff
    rcases ht.atEnd ha with h | h
    · exact absurd h hend
    · exact absurd h (hhalf _)
  · intro hfl hs' hnil
    rw [List.append_eq_nil_iff] at hnil
    have hzero := ht.flows hfl (hall.mpr hs') hnil.2
    rw [hnil.1, List.length_nil] at hzero
    exact hzero
  · intro hm
    rw [List.length_append]
    rcases ht.filled (hmem hm) with h | h
    · left
      omega
    · exact .inr h

end Turn

/-! ### From entry to entry -/

/- The end of an entry does not change a string. -/
theorem Finished.unread {w v : World σ} {e : Entry} {es : List Entry}
    (h : Finished rest { w with heap := w.heap.counted e } e es v) : Unread rest w v := by
  refine ⟨fun r _ => ?_, h.app⟩
  rw [← str_counted w e r]
  cases r <;> simp only [World.str, h.heap, h.rx]

theorem Finished.inMemory {w v : World σ} {e : Entry} {es : List Entry}
    (h : Finished rest { w with heap := w.heap.counted e } e es v) {g : Field} (hr : ∃ off, w.Ready off g)
    (hg : w.InMemory g) : v.InMemory g := by
  intro r el ie hge
  obtain ⟨off, hr⟩ := hr
  subst hge
  rw [h.unread.str r hr.1]
  exact hg r el ie rfl

/- The next entry of the line comes to its turn. -/
theorem Finished.next {w v t : World σ} {e : Entry} {es : List Entry} {bufLen : ℕ} {bs : List Byte} (hw : w.Encoding)
    (hl : w.line = e :: es) (hp : w.tx.internal.pos = (entryFields w.heap e).length)
    (h : Finished rest { w with heap := w.heap.counted e } e es v) :
    v.Encoding ∧ v.tx.internal.offset = 0 ∧ v.fields = w.fields ∧
      (Emitted env rest v bufLen bs t → Emitted env rest w bufLen bs t) := by
  obtain ⟨hopen, -⟩ := line_cons hl
  obtain ⟨hoff, -⟩ := hw.between (fun e' es' he => by rw [hl] at he; cases he; exact hp) hopen
  have hunread := h.unread
  have hclean : v.tx.internal.pos = 0 ∨ es = [] := by
    rcases h.reset with hr | ⟨hc, -⟩
    · left
      rw [hr]
    · right
      rw [← h.line]
      unfold World.line
      rw [hc]
      rfl
  have hvoff : v.tx.internal.offset = 0 := by
    rcases h.reset with hr | ⟨-, hr⟩
    · rw [hr]
    · rw [hr]
      exact hoff
  have hfields : v.fields = w.fields := by
    rw [fields_cons hl, hp, List.drop_length, List.nil_append]
    cases hes : es with
    | nil =>
      rw [fields_nil (h.line.trans hes)]
      rfl
    | cons x l =>
      rw [hes] at hclean
      have hpos : v.tx.internal.pos = 0 := by simpa using hclean
      rw [fields_cons (h.line.trans hes), hpos, List.drop_zero, h.heap]
      rfl
  have hsend := hw.fields
  rw [hoff] at hsend
  obtain ⟨hvsend, hbytes⟩ := hunread.sendable hsend
  have howed : v.owed rest = w.owed rest := by
    unfold World.owed
    rw [hvoff, hoff, hfields, hbytes]
  have hsup : ∀ off l, w.Sendable off l → (v.Supplying rest off l ↔ w.Supplying rest off l) := by
    intro off l hs
    cases l with
    | nil => rfl
    | cons f l =>
      have htail : ∀ g ∈ l, (v.Supplied rest 0 g ↔ w.Supplied rest 0 g) := fun g hg =>
        (hunread.left (hs.tail g hg) 0).2
      simp only [World.Supplying, (hunread.left (hs.head f l rfl) off).2]
      constructor
      · exact fun h => ⟨h.1, fun g hg => (htail g hg).mp (h.2 g hg)⟩
      · exact fun h => ⟨h.1, fun g hg => (htail g hg).mpr (h.2 g hg)⟩
  have hall : v.Supplying rest v.tx.internal.offset v.fields ↔ w.Supplying rest w.tx.internal.offset w.fields := by
    rw [hvoff, hoff, hfields]
    exact hsup 0 _ hsend
  have hencoding : v.Encoding := by
    constructor
    · exact h.error
    · intro hn hc
      rcases h.reset with hr | ⟨hc', -⟩
      · rw [hr]
      · rw [hc] at hc'
        contradiction
    · intro x l hx
      rcases hclean with h0 | hnil
      · rw [h0]
        exact Nat.zero_le _
      · rw [h.line, hnil] at hx
        contradiction
    · intro _ hc
      rcases h.reset with hr | ⟨hc', -⟩
      · rw [hr]
        exact ⟨rfl, rfl⟩
      · rw [hc] at hc'
        contradiction
    · rw [hvoff, hfields]
      exact hvsend
    · intro f fs hf
      rcases h.reset with hr | ⟨hc, -⟩
      · rw [hr]
        exact caches_of_fresh rfl f
      · have hnone : v.line = [] := by
          unfold World.line
          rw [hc]
          rfl
        rw [fields_nil hnone] at hf
        contradiction
    · intro x hx
      rw [h.line] at hx
      have ht := hw.typed x (by rw [hl]; exact List.mem_cons_of_mem _ hx)
      rw [h.heap, valid_counted]
      exact ht
  refine ⟨hencoding, hvoff, hfields, fun ht => ?_⟩
  obtain ⟨done, hline, hpending, hsent⟩ := ht.done
  obtain ⟨l, hl', hlsent⟩ := ht.sent
  constructor
  · rw [← howed, ht.owed]
  · exact ht.room
  · exact ht.encoding
  · refine ⟨e :: done, by rw [hl, ← h.line, hline, List.cons_append], ?_, ?_⟩
    · have hpend := h.pending
      rw [hpending] at hpend
      exact hpend
    · rw [hsent, h.sent, List.append_assoc, ← List.filter_append]
      rfl
  · refine ⟨l, by rw [← hfields, hl'], ?_⟩
    rw [hvoff] at hlsent
    rw [hoff]
    have hsub : w.Sendable 0 l := by
      rw [← hfields, hl'] at hsend
      refine ⟨fun f k hf => ?_, fun f hf => hsend.tail f ?_, (List.pairwise_append.mp hsend.apart).1⟩
      · subst hf
        exact hsend.head f (k ++ t.fields) rfl
      · cases l with
        | nil => contradiction
        | cons g k => exact List.mem_append_left _ hf
    exact (hsup 0 l hsub).mp hlsent
  · exact ht.supply.trans hall
  · exact ht.store.trans h.store
  · exact ht.rx.trans h.rx
  · intro r hr
    rw [ht.strings r hr, hunread.str r hr]
  · exact fun hs => ht.paused (hall.mpr hs)
  · intro ha
    obtain ⟨hend, hhalf⟩ := hencoding.not_atEnd hvoff
    rcases ht.atEnd ha with h | h
    · exact absurd h hend
    · exact absurd h (hhalf _)
  · exact fun hfl hs => ht.flows hfl (hall.mpr hs)
  · intro hm
    apply ht.filled
    intro g hg
    rw [hfields] at hg
    exact h.inMemory (hsend.ready hg) (hm g hg)

/-! ### The loop of the encoder -/

theorem txBufferFinder_runs (w : World σ) (e : Entry) : ∃ found u, txBufferFinder e w = .ok found u := by
  have h : Wp (txBufferFinder e) w (fun _ _ => True) fun _ _ => False := by
    simp only [txBufferFinder, wp_bind, wp_get]
    cases e.kind with
    | subscribe | unsubscribe =>
      simp only [txBufferFinderSubscribe, txBufferFinderUnsubscribe, wp_bind, wp_get, wp_ite]
      split
      · trivial
      · split <;> trivial
    | publish0 | publish1 | publish2 =>
      simp only [txBufferFinderPublish, wp_bind, wp_get]
      split <;> trivial
    | _ => trivial
  obtain ⟨found, u, hu, -⟩ := wp_exists h
  exact ⟨found, u, hu⟩

theorem Found.alike {w u : World σ} {e : Entry} {x : Encoder} (h : Found w e x u) (ev : Event) :
    Alike w (u.emit ev) := by
  refine ⟨h.tx, ?_, ?_, h.app, h.heap, fun r => ?_⟩
  · have hs := h.scratch.same
    rw [hs]
    unfold World.txStore
    rw [World.store_emit]
    rfl
  · have hs := h.scratch.same
    rw [hs]
    rfl
  · rw [← h.str r]
    cases r <;> rfl

/- Turns of the loop that are enough for the line. -/
def World.turns (w : World σ) : ℕ := w.fields.length + 2 * w.line.length

/- Why the loop is halted. -/
def World.Halts (env : Env σ) (w : World σ) (fuel turns : ℕ) (h : Halt) : Prop :=
  h = .outOfFuel ∧ fuel < turns ∨ env.ndebug = false ∧ w.AtEnd

theorem Alike.encoding {w u : World σ} (h : Alike w u) (hw : w.Encoding) : u.Encoding := by
  have hunread : Unread (fun _ _ => []) w u := ⟨fun r _ => h.str r, rfl⟩
  constructor
  · rw [h.tx]
    exact hw.error
  · rw [h.line, h.tx]
    exact hw.idle
  · rw [h.line, h.tx]
    simp only [h.entryFields]
    exact hw.pos
  · rw [h.line, h.tx]
    simp only [h.entryFields]
    exact hw.between
  · rw [h.fields, h.tx]
    exact (hunread.sendable hw.fields).1
  · rw [h.fields, h.tx]
    exact hw.caches
  · rw [h.line]
    simp only [valid_congr h.heap]
    exact hw.typed

/-! ### A turn of the loop -/

/-- The encoder `s`, which has looked in `w` for the encoder of the field `f`. -/
structure World.AtField (w : World σ) (e : Entry) (es : List Entry) (f : Field) (fs : List Field) (s : World σ) : Prop where
  alike : Alike w s
  encoding : s.Encoding
  line : s.line = e :: es
  within : s.tx.internal.pos < (entryFields s.heap e).length
  fields : s.fields = f :: fs

section Turn
variable {w v : World σ} {e : Entry} {es : List Entry}

/- The encoder is closed at the end of a DISCONNECT. -/
theorem txBufferFinishEntry_closed (w : World σ) (hq : e.kind ≠ .publish0 ∨ env.Silent rest) (ht : e.WellTyped) :
    Wp (txBufferFinishEntry env e) w (fun _ v => v.tx.closed = true ↔ e.kind = .disconnect) fun _ _ => True := by
  have hopen : ∀ v : World σ, v.tx.closed = false → e.kind ≠ .disconnect → (v.tx.closed = true ↔ e.kind = .disconnect) := by
    intro v hv hk
    simp [hv, hk]
  simp only [txBufferFinishEntry, lmqttTxBufferReset, lmqttTxBufferFinish, wp_bind, wp_emit, wp_get]
  refine wp_if (fun hr => ?_) fun hr => ?_
  · have hr : e.kind.expectsResponse = false := by simpa using hr
    simp only [wp_bind, wp_set]
    refine wp_if (fun hk => iff_of_true rfl hk) fun hk => wp_if (fun hcb => ?_) fun _ => hopen _ rfl hk
    have hcall : e.value.callback = some .onPublish := by
      rw [ht.callback] at hcb ⊢
      cases hkind : e.kind <;> rw [hkind] at hr hcb <;> first | rfl | contradiction
    have hq : env.Silent rest := by
      rcases hq with hq | hq
      · rw [ht.callback] at hcb
        cases hkind : e.kind <;> rw [hkind] at hr hcb hq <;> contradiction
      · exact hq
    refine (wp_bind ..).mpr ((callValue_silent hq _ e.value hcall).mono (fun ok u hu => ?_) fun _ _ h => h.elim)
    obtain ⟨rfl, -⟩ := hu
    exact hopen _ rfl hk
  · have hk : e.kind ≠ .disconnect := by
      intro hk
      rw [hk] at hr
      exact hr rfl
    exact hopen _ rfl hk

/- A turn at the first entry of the line: the encoder of a field sends a part of it or all of it, or the entry is at its end. -/
theorem txBufferEncodeLoop_turn {P : IoResult × List Byte → World σ → Prop} {H : Halt → World σ → Prop}
    (fuel n : ℕ) (out : List Byte)
    (hs : (∀ f ∈ w.fields, w.InMemory f) ∨ env.Streams rest) (hw : w.Encoding) (hl : w.line = e :: es)
    (hblock : ∀ s f fs bytes v, w.AtField e es f fs s → Sent env rest f s s.tx.internal.offset n (.wouldBlock, bytes) v →
      P (.wouldBlock, out) v)
    (hpart : ∀ s f fs bytes v, w.AtField e es f fs s → Sent env rest f s s.tx.internal.offset n (.continue, bytes) v →
      P (.success, out ++ bytes) (v.setTx { v.tx.internal with offset := v.tx.internal.offset + bytes.length }))
    (hall : ∀ s f fs bytes v, w.AtField e es f fs s → Sent env rest f s s.tx.internal.offset n (.finished, bytes) v →
      Wp (txBufferEncodeLoop env fuel (some e) (n - bytes.length) (out ++ bytes))
        (v.setTx { v.tx.internal with pos := v.tx.internal.pos + 1, offset := 0 }) P H)
    (hend : (entryFields w.heap e).length ≤ w.tx.internal.pos →
      Wp (txBufferFinishEntry env e >>= fun ok => if ok then txBufferEncodeLoop env fuel none n out else pure (.error, out))
        { w with heap := w.heap.counted e } P H)
    (hhalt : env.ndebug = false → w.AtEnd → ∀ h v, H h v) : Wp (txBufferEncodeLoop env (fuel + 1) (some e) n out) w P H := by
  simp only [txBufferEncodeLoop, wp_bind]
  obtain ⟨found, u, hu⟩ := txBufferFinder_runs w e
  unfold Wp
  rw [hu]
  rcases txBufferFinder_ok hu with ⟨x, rfl, hx⟩ | ⟨rfl, hpos, rfl⟩
  · have hsame := hx.alike (.encode e.kind e.value.packetId e.value.req u.tx.internal.pos)
    change Wp (do
      let i := (← get).tx.internal
      emit (.encode e.kind e.value.packetId e.value.req i.pos)
      _) u _ _
    simp only [wp_bind, wp_get, wp_emit]
    generalize hs' : u.emit (.encode e.kind e.value.packetId e.value.req u.tx.internal.pos) = s at hsame ⊢
    have hheap : s.heap = u.heap := by
      rw [← hs']
      rfl
    have hfound := hx.field
    rw [← hheap] at hfound
    obtain ⟨i, hmem⟩ := hx.encoder
    have hvalid : x.Valid s.heap e.value := by
      have hv := (hw.typed e (by rw [hl]; exact List.mem_cons_self ..)).2 _ hmem
      rwa [← encoder_still, hsame.heap, encoder_still]
    have hse := hsame.encoding hw
    have hsl := hsame.line.trans hl
    rw [hx.tx, ← hsame.tx]
    rw [← hsame.entryFields, ← hsame.tx] at hfound
    generalize hf : x.field s.heap e.value (s.heap.subscribes e.value.value).current = f at hfound
    obtain ⟨hsp, hget⟩ := List.getElem?_eq_some_iff.mp hfound
    obtain ⟨fs, hsf⟩ : ∃ fs, s.fields = f :: fs := by
      rw [fields_cons hsl, List.drop_eq_getElem_cons hsp, hget, List.cons_append]
      exact ⟨_, rfl⟩
    have hfirst : s.InMemory f ∨ env.Streams rest := by
      refine hs.imp_left fun hs r el ie hge => ?_
      rw [hsame.str]
      exact hs f (by rw [← hsame.fields, hsf]; exact List.mem_cons_self ..) r el ie hge
    have hat : w.AtField e es f fs s := ⟨hsame, hse, hsl, hsp, hsf⟩
    have hsent := runEncoder_sent s e.value x s.tx.internal.offset n (by rwa [hf]) (by
      rw [hf]
      exact hse.fields.head f fs hsf) (by
      rw [hf]
      exact hse.caches f fs hsf)
    rw [hf] at hsent
    refine hsent.mono (fun r v hv => ?_) fun h v hh => ?_
    · obtain ⟨res, bytes⟩ := r
      cases res with
      | wouldBlock => exact hblock s f fs bytes v hat hv
      | «continue» => exact hpart s f fs bytes v hat hv
      | finished => exact hall s f fs bytes v hat hv
      | error => cases hv
    · obtain ⟨hn, hbad | hstuck⟩ := hh
      · exact absurd hvalid hbad
      · exact hhalt hn ⟨f, fs, by rw [← hsame.fields, hsf], by rwa [← hsame.tx, ← hsame.stuck]⟩ h v
  · exact hend hpos

end Turn

/-- A relation between the encoder in front of the loop, the room it has, the bytes it sends and the encoder behind it, that
holds at the end of the line and that every turn hands on. -/
structure LoopRule (env : Env σ) (rest : σ → ℕ → List Byte) (R : World σ → ℕ → List Byte → World σ → Prop) : Prop where
  exit : ∀ w n, w.Encoding → w.line = [] → R w n [] w
  blocked : ∀ w s e es f fs n bytes v, w.AtField e es f fs s →
    Sent env rest f s s.tx.internal.offset n (.wouldBlock, bytes) v → R w n [] v
  part : ∀ w s e es f fs n bytes v, w.AtField e es f fs s →
    Sent env rest f s s.tx.internal.offset n (.continue, bytes) v →
    R w n bytes (v.setTx { v.tx.internal with offset := v.tx.internal.offset + bytes.length })
  all : ∀ w s e es f fs n bytes v bs t, w.AtField e es f fs s →
    Sent env rest f s s.tx.internal.offset n (.finished, bytes) v →
    R (v.setTx { v.tx.internal with pos := v.tx.internal.pos + 1, offset := 0 }) (n - bytes.length) bs t → R w n (bytes ++ bs) t
  ended : ∀ w e es n v bs t, w.Encoding → w.line = e :: es → w.tx.internal.pos = (entryFields w.heap e).length →
    Finished rest { w with heap := w.heap.counted e } e es v → (v.tx.closed = true ↔ e.kind = .disconnect) →
      R v n bs t → R w n bs t

section Rule
variable {R : World σ → ℕ → List Byte → World σ → Prop}

/-- The loop has what its turns hand on. It is halted where the fuel is too little, or it stands behind the end of a string. -/
theorem txBufferEncodeLoop_run (hR : LoopRule env rest R) (fuel : ℕ) (cur : Option Entry) (bufLen : ℕ)
    (out : List Byte) (w : World σ)
    (hs : (∀ f ∈ w.fields, w.InMemory f) ∨ env.Streams rest)
    (hq : (∀ e ∈ w.line, e.kind ≠ .publish0) ∨ env.Silent rest) (hw : w.Encoding)
    (hcur : ∀ e, cur = some e → ∃ es, w.line = e :: es) :
    Wp (txBufferEncodeLoop env fuel cur bufLen out) w
      (fun r v => ∃ bs, r.2 = out ++ bs ∧ r.1 ≠ .error ∧ R w bufLen bs v)
      fun h _ => w.Halts env fuel (w.turns + if cur.isSome then 0 else 1) h := by
  induction fuel generalizing cur bufLen out w with
  | zero =>
    left
    refine ⟨rfl, ?_⟩
    cases cur with
    | none => exact Nat.succ_pos _
    | some e =>
      obtain ⟨es, hl⟩ := hcur e rfl
      unfold World.turns
      rw [hl, List.length_cons]
      omega
  | succ fuel ih =>
    cases cur with
    | none =>
      have hexit : w.line = [] → Wp (txBufferExit out) w (fun r v => ∃ bs, r.2 = out ++ bs ∧ r.1 ≠ .error ∧ R w bufLen bs v)
          fun h _ => w.Halts env (fuel + 1) (w.turns + 1) h := by
        intro hl
        refine ⟨[], (List.append_nil out).symm, ?_, hR.exit w bufLen hw hl⟩
        dsimp only
        split <;> simp
      simp only [txBufferEncodeLoop, wp_bind, wp_get]
      refine wp_if (fun hc => hexit ?_) fun hc => ?_
      · unfold World.line
        rw [if_pos hc]
      · have hline : w.line = untilDisconnect w.txStore.pending := by
          unfold World.line
          rw [if_neg hc]
        cases hp : w.txStore.peek with
        | none =>
          apply hexit
          rw [Store.peek_eq, List.head?_eq_none_iff] at hp
          rw [hline, hp]
          rfl
        | some e =>
          have hl : ∃ es, w.line = e :: es := by
            obtain ⟨tl, htl⟩ := Store.pending_of_peek hp
            obtain ⟨l, hl, -⟩ := untilDisconnect_cons e tl
            exact ⟨l, by rw [hline, htl, hl]⟩
          refine (ih (some e) bufLen out w hs hq hw fun x hx => ?_).mono (fun _ _ h => h) fun h _ hh => ?_
          · cases hx
            exact hl
          · rcases hh with ⟨rfl, hlt⟩ | hh
            · exact .inl ⟨rfl, Nat.succ_lt_succ hlt⟩
            · exact .inr hh
    | some e =>
      obtain ⟨es, hl⟩ := hcur e rfl
      refine txBufferEncodeLoop_turn fuel bufLen out hs hw hl (fun s f fs bytes v hat hv => ?_)
        (fun s f fs bytes v hat hv => ?_)
        (fun s f fs bytes v hat hv => ?_) (fun hpos => ?_) fun hn hend _ _ => .inr ⟨hn, hend⟩
      · exact ⟨[], (List.append_nil out).symm, by simp, hR.blocked w s e es f fs bufLen bytes v hat hv⟩
      · exact ⟨bytes, rfl, by simp, hR.part w s e es f fs bufLen bytes v hat hv⟩
      · have hgo := hR.all w s e es f fs bufLen bytes v
        cases hv with
        | finished bytes v hv hb hlen hc hp =>
          set i : TxInternal := { v.tx.internal with pos := v.tx.internal.pos + 1, offset := 0 } with hi
          have hnext : (v.setTx i).Encoding ∧ (v.setTx i).fields = fs ∧
              (Emitted env rest (v.setTx i) (bufLen - bytes.length) [] s → Emitted env rest s bufLen (bytes ++ []) s) :=
            hv.goes_on hat.encoding hat.line hat.within hat.fields i ⟨by rw [hi, hv.pos], rfl,
              hv.error.trans hat.encoding.error⟩ hc hb
              hlen hp
          obtain ⟨henc, hfields, -⟩ := hnext
          have hline := (hv.line i).1
          have hmem : (∀ g ∈ (v.setTx i).fields, (v.setTx i).InMemory g) ∨ env.Streams rest := by
            refine hs.imp_left fun h g hg => ?_
            have hin : g ∈ s.fields := by
              rw [hat.fields, ← hfields]
              exact List.mem_cons_of_mem _ hg
            refine hv.inMemory i (hat.encoding.fields.ready hin) fun r el ie hge => ?_
            rw [hat.alike.str]
            exact h g (by rwa [← hat.alike.fields]) r el ie hge
          refine (ih (some e) (bufLen - bytes.length) (out ++ bytes) _ hmem (by rwa [hline, hat.alike.line]) henc
            fun e' he' => ?_).mono (fun r t ht => ?_) fun h _ hh => ?_
          · cases he'
            exact ⟨es, hline.trans hat.line⟩
          · obtain ⟨bs, hbs, hr, ht⟩ := ht
            exact ⟨bytes ++ bs, by rw [hbs, List.append_assoc], hr, hgo bs t hat (.finished bytes v hv hb hlen hc hp) ht⟩
          · rcases hh with ⟨rfl, hlt⟩ | ⟨-, hend⟩
            · left
              refine ⟨rfl, ?_⟩
              unfold World.turns at hlt ⊢
              rw [hfields, hline] at hlt
              rw [← hat.alike.fields, ← hat.alike.line, hat.fields, List.length_cons]
              simp at hlt ⊢
              omega
            · exact absurd hend (henc.not_atEnd rfl).1
      · -- the end of the entry
        have hp : w.tx.internal.pos = (entryFields w.heap e).length := le_antisymm (hw.pos e es hl) hpos
        rw [wp_bind]
        have hfirst := (hw.typed e (by rw [hl]; exact List.mem_cons_self ..)).1
        have hqe : e.kind ≠ .publish0 ∨ env.Silent rest := hq.imp_left fun h => h e (by rw [hl]; exact List.mem_cons_self ..)
        have hfinish := txBufferFinishEntry_finished { w with heap := w.heap.counted e } e es hqe hl hfirst hw.error
        have hclosed := txBufferFinishEntry_closed { w with heap := w.heap.counted e } hqe hfirst
        refine (hfinish.and hclosed).mono (fun ok v hv => ?_) fun _ _ h => h.1.elim
        obtain ⟨⟨rfl, hv⟩, hvc⟩ := hv
        rw [if_pos rfl]
        have hnext : v.Encoding ∧ v.tx.internal.offset = 0 ∧ v.fields = w.fields ∧
            (Emitted env rest v bufLen [] v → Emitted env rest w bufLen [] v) := hv.next hw hl hp
        obtain ⟨henc, hoff, hfields, -⟩ := hnext
        have hmem : (∀ g ∈ v.fields, v.InMemory g) ∨ env.Streams rest := by
          refine hs.imp_left fun h g hg => ?_
          rw [hfields] at hg
          exact hv.inMemory (hw.fields.ready hg) (h g hg)
        have hqs : (∀ x ∈ v.line, x.kind ≠ .publish0) ∨ env.Silent rest := by
          refine hq.imp_left fun h x hx => h x ?_
          rw [hv.line] at hx
          rw [hl]
          exact List.mem_cons_of_mem _ hx
        refine (ih none bufLen out v hmem hqs henc (by simp)).mono (fun r t ht => ?_) fun h _ hh => ?_
        · obtain ⟨bs, hbs, hr, ht⟩ := ht
          exact ⟨bs, hbs, hr, hR.ended w e es bufLen v bs t hw hl hp hv hvc ht⟩
        · rcases hh with ⟨rfl, hlt⟩ | ⟨-, hend⟩
          · left
            refine ⟨rfl, ?_⟩
            unfold World.turns at hlt ⊢
            rw [hfields, hv.line] at hlt
            rw [hl, List.length_cons]
            simp at hlt ⊢
            omega
          · exact absurd hend (henc.not_atEnd hoff).1

/-- A call of the encoder has what the turns of its loop hand on. -/
theorem lmqttTxBufferEncode_run (hR : LoopRule env rest R) (bufLen : ℕ) (w : World σ)
    (hs : (∀ f ∈ w.fields, w.InMemory f) ∨ env.Streams rest)
    (hq : (∀ e ∈ w.line, e.kind ≠ .publish0) ∨ env.Silent rest) (hw : w.Encoding) :
    Wp (lmqttTxBufferEncode env bufLen) w (fun r v => r.1 ≠ .error ∧ R w bufLen r.2 v)
      fun h _ => w.Halts env env.fuel (w.turns + 1) h := by
  simp only [lmqttTxBufferEncode, wp_bind, wp_get, wp_ite]
  split
  · rename_i h
    rw [hw.error] at h
    contradiction
  · refine (txBufferEncodeLoop_run hR env.fuel none bufLen [] w hs hq hw (by simp)).mono (fun r v hv => ?_)
      fun _ _ h => h
    obtain ⟨bs, hbs, hr, hv⟩ := hv
    rw [List.nil_append] at hbs
    exact ⟨hr, hbs ▸ hv⟩

end Rule

/-! ### The bytes of a call -/

/-- The loop takes bytes from the front of what is owed. -/
theorem emittedRule : LoopRule env rest (Emitted env rest) := by
  constructor
  case exit =>
    intro w n hw hl
    constructor
    · rw [List.nil_append]
    · exact Nat.zero_le _
    · exact hw
    · exact ⟨[], rfl, rfl, by rw [List.filter_nil, List.append_nil]⟩
    · exact ⟨[], rfl, trivial⟩
    · exact Iff.rfl
    · rfl
    · rfl
    · exact fun _ _ => rfl
    · exact fun _ => .inl hl
    · exact .inl
    · exact fun _ _ _ => .inr hl
    · exact fun _ => .inr hl
  case blocked =>
    intro w s e es f fs n bytes v hat hv
    cases hv with
    | wouldBlock bytes v hv hb hr hc hm hp hw' =>
      refine hat.alike.emitted (hv.stays hat.encoding hat.line hat.within hat.fields v.tx.internal
        ⟨hv.pos, hv.offset, hv.error.trans hat.encoding.error⟩ hr hc (by rw [List.nil_append, hb]) (Nat.zero_le _) hp
        (fun hs hnil => absurd hnil (hw' hs).2) (fun hstuck => ?_) (fun hfl hs => absurd hfl (hw' hs).1)
          (fun hin => absurd (.inl hin) hm))
      left
      cases f with
      | header bytes => exact hstuck
      | str r el ie =>
        have hlen := (string_still hr.1 hv.heap).1
        rw [stuck_str, hlen] at hstuck
        exact hstuck
  case part =>
    intro w s e es f fs n bytes v hat hv
    cases hv with
    | «continue» bytes v hv hb hlen hne hr hc hm hk hp he =>
      refine hat.alike.emitted ?_
      simp only [hv.offset]
      refine hv.stays hat.encoding hat.line hat.within hat.fields _ ⟨hv.pos, rfl,
        hv.error.trans hat.encoding.error⟩ hr hc hb hlen hp
        (fun hs hnil => he hs hnil) hk (fun _ _ hnil => ?_) fun hin => hm (.inl hin)
      by_contra h0
      exact hne (Nat.pos_of_ne_zero h0) hnil
  case all =>
    intro w s e es f fs n bytes v bs t hat hv ht
    cases hv with
    | finished bytes v hv hb hlen hc hp =>
      set i : TxInternal := { v.tx.internal with pos := v.tx.internal.pos + 1, offset := 0 } with hi
      have hgo : (v.setTx i).Encoding ∧ (v.setTx i).fields = fs ∧
          (Emitted env rest (v.setTx i) (n - bytes.length) bs t → Emitted env rest s n (bytes ++ bs) t) :=
        hv.goes_on hat.encoding hat.line hat.within hat.fields i ⟨by rw [hi, hv.pos], rfl,
          hv.error.trans hat.encoding.error⟩ hc hb
          hlen hp
      exact hat.alike.emitted (hgo.2.2 ht)
  case ended =>
    intro w e es n v bs t hw hl hp hv _ ht
    exact (hv.next hw hl hp).2.2.2 ht

/-- A call of the encoder takes bytes from the front of what is owed. -/
theorem lmqttTxBufferEncode_emitted (bufLen : ℕ) (w : World σ)
    (hs : (∀ f ∈ w.fields, w.InMemory f) ∨ env.Streams rest)
    (hq : (∀ e ∈ w.line, e.kind ≠ .publish0) ∨ env.Silent rest) (hw : w.Encoding) :
    Wp (lmqttTxBufferEncode env bufLen) w (fun r v => r.1 ≠ .error ∧ Emitted env rest w bufLen r.2 v)
      fun h _ => w.Halts env env.fuel (w.turns + 1) h := lmqttTxBufferEncode_run emittedRule bufLen w hs hq hw

end LightMqtt
