import LightMqtt.Packets

/-!
# The bytes of strings

A string is in memory, or its bytes come from a read callback. `rest` says what
the callbacks still have, by the `data` of the strings they work on. An encoder
takes the next bytes of its field, no more than there is room for.
-/

namespace LightMqtt

open Exec

variable {σ : Type} {env : Env σ} {rest : σ → ℕ → List Byte}

/-- The read callbacks yield the bytes of their sources in order, at least one at a
time, or block. -/
structure Env.Streams (env : Env σ) (rest : σ → ℕ → List Byte) : Prop where
  read : ∀ a d n, 0 < n →
    (env.strRead a d n).result = .success ∧ (env.strRead a d n).bytes ≠ [] ∧ (env.strRead a d n).bytes.length ≤ n ∧
      rest a d = (env.strRead a d n).bytes ++ rest (env.strRead a d n).app d ∨
    (env.strRead a d n).result = .wouldBlock ∧ (env.strRead a d n).bytes = [] ∧
      rest (env.strRead a d n).app d = rest a d
  others : ∀ a d n d', d' ≠ d → rest (env.strRead a d n).app d' = rest a d'

/-- No read blocks while there are bytes. -/
def Env.Flows (env : Env σ) (rest : σ → ℕ → List Byte) : Prop :=
  ∀ a d n, 0 < n → rest a d ≠ [] → (env.strRead a d n).result = .success

/-- A read gives all that it is asked for where there is so much. -/
def Env.Prompt (env : Env σ) (rest : σ → ℕ → List Byte) : Prop :=
  ∀ a d n, 0 < n → n ≤ (rest a d).length → (env.strRead a d n).result = .success ∧ (env.strRead a d n).bytes.length = n

/- The bytes of a string from `k` on. -/
def LString.from (rest : ℕ → List Byte) (s : LString) (k : ℕ) : List Byte :=
  if s.read then (rest s.data).take (s.len.toNat - k) else ((s.buf.getD []).take s.len.toNat).drop k

/-- A string of which the first `k` bytes were taken. -/
structure LString.Ready (s : LString) (k : ℕ) : Prop where
  len : 0 ≤ s.len ∧ s.len < 2^63
  within : k ≤ s.len.toNat
  source : s.len = 0 ∧ (s.read = false ∨ s.buf = none) ∨ s.read = true ∧ s.buf = none ∨
    s.read = false ∧ (k = 0 ∨ s.pos = k) ∧ ∃ mem, s.buf = some mem ∧ s.len.toNat ≤ mem.length

/-- Its callback still has what is left of it. -/
def LString.Supplied (rest : ℕ → List Byte) (s : LString) (k : ℕ) : Prop :=
  s.read = true → s.len.toNat - k ≤ (rest s.data).length

theorem LString.from_length_le (s : LString) (k : ℕ) (r : ℕ → List Byte) :
    (s.from r k).length ≤ s.len.toNat - k := by
  unfold LString.from
  split
  · rw [List.length_take]
    omega
  · rw [List.length_drop, List.length_take]
    omega

theorem LString.Ready.from_length {s : LString} {k : ℕ} (h : s.Ready k) {r : ℕ → List Byte} (hs : s.Supplied r k) :
    (s.from r k).length = s.len.toNat - k := by
  unfold LString.from
  rcases h.source with ⟨h0, -⟩ | ⟨hr, -⟩ | ⟨hr, -, mem, hm, hl⟩
  · rw [h0]
    split <;> simp
  · rw [if_pos hr, List.length_take]
    have hlen := hs hr
    omega
  · rw [if_neg (by simp [hr]), hm, Option.getD_some, List.length_drop, List.length_take]
    omega

/-! ### Strings of stored objects -/

theorem str_still {w v : World σ} {r : StrRef} (hr : r.isStored = true) (h : v.heap.still = w.heap.still) :
    (v.str r).still = (w.str r).still := by
  have hc : ∀ p, (v.heap.connects p).still = (w.heap.connects p).still := congrFun (congrArg Heap.connects h)
  have hb : ∀ p, (v.heap.publishes p).still = (w.heap.publishes p).still := congrFun (congrArg Heap.publishes h)
  cases r with
  | connectClientId p => exact congrArg Connect.clientId (hc p)
  | connectWillTopic p => exact congrArg Connect.willTopic (hc p)
  | connectWillMessage p => exact congrArg Connect.willMessage (hc p)
  | connectUserName p => exact congrArg Connect.userName (hc p)
  | connectPassword p => exact congrArg Connect.password (hc p)
  | subscriptionTopic p i =>
    have hs := congrArg (fun x : Heap => (x.subscription p i).topic) h
    rw [subscription_still, subscription_still] at hs
    exact hs
  | publishTopic p => exact congrArg Publish.topic (hb p)
  | publishPayload p => exact congrArg Publish.payload (hb p)
  | rxTopic => exact absurd hr (by decide)
  | rxPayload => exact absurd hr (by decide)

/- All of a string but its position. -/
theorem string_still {w v : World σ} {r : StrRef} (hr : r.isStored = true) (h : v.heap.still = w.heap.still) :
    (v.str r).len = (w.str r).len ∧ (v.str r).read = (w.str r).read ∧ (v.str r).buf = (w.str r).buf ∧
      (v.str r).data = (w.str r).data := by
  have hstill := str_still hr h
  have hl : (v.str r).still.len = (w.str r).still.len := congrArg LString.len hstill
  have hd : (v.str r).still.read = (w.str r).still.read := congrArg LString.read hstill
  have hb : (v.str r).still.buf = (w.str r).still.buf := congrArg LString.buf hstill
  have hx : (v.str r).still.data = (w.str r).still.data := congrArg LString.data hstill
  exact ⟨hl, hd, hb, hx⟩

theorem setStr_still (w : World σ) (r : StrRef) (x : ℕ) (hr : r.isStored = true) :
    (w.setStr r { w.str r with pos := x }).heap.still = w.heap.still := by
  cases r with
  | subscriptionTopic p i =>
    apply modifySubscription_still
    intro y hy
    simp only [Subscription.still, World.str, Heap.subscription, List.getD_eq_getElem?_getD, hy, Option.getD_some]
    rfl
  | rxTopic => exact absurd hr (by decide)
  | rxPayload => exact absurd hr (by decide)
  | publishTopic p | publishPayload p => exact setPublish_still rfl
  | _ p => exact setConnect_still rfl

/- The position of a string that is moved. -/
theorem str_setPos (w : World σ) (r : StrRef) (x : ℕ) (hr : r.isStored = true)
    (hx : x = 0 ∨ (w.str r).buf ≠ none) :
    (w.setStr r { w.str r with pos := x }).str r = { w.str r with pos := x } := by
  cases r with
  | subscriptionTopic p i =>
    simp only [World.setStr, World.str, Heap.subscription, Heap.modifySubscription, Heap.setSubscribe,
      Function.update_self] at hx ⊢
    rw [List.getD_eq_getElem?_getD, List.getElem?_modify, List.getD_eq_getElem?_getD] at *
    cases hi : (w.heap.subscribes p).subscriptions[i]? with
    | some x => simp
    | none =>
      rw [hi] at hx
      rcases hx with rfl | hx
      · rfl
      · exact absurd rfl hx
  | rxTopic => exact absurd hr (by decide)
  | rxPayload => exact absurd hr (by decide)
  | _ p => simp only [World.setStr, World.str, Heap.setConnect, Heap.setPublish, Function.update_self]

@[simp] theorem str_app (w : World σ) (a : σ) (r : StrRef) : ({ w with app := a } : World σ).str r = w.str r := by
  cases r <;> rfl

/-! ### Reading -/

/-- What reading from the string `r` changes. -/
structure Drawn (rest : σ → ℕ → List Byte) (r : StrRef) (w v : World σ) : Prop where
  scratch : TxScratch w v
  heap : v.heap.still = w.heap.still
  others : ∀ d, ((w.str r).read = true → d ≠ (w.str r).data) → rest v.app d = rest w.app d
  buffer : ∃ s o, v.tx.internal = { w.tx.internal with
    buffer := { w.tx.internal.buffer with blockingStr := s, osError := o } }

theorem Drawn.refl (r : StrRef) (w : World σ) : Drawn rest r w w := ⟨.refl w, rfl, fun _ _ => rfl, _, _, rfl⟩

theorem Drawn.trans {r : StrRef} {w v u : World σ} (hr : r.isStored = true) (h : Drawn rest r w v)
    (h' : Drawn rest r v u) : Drawn rest r w u := by
  have hstill := str_still hr h.heap
  have hread : (v.str r).still.read = (w.str r).still.read := congrArg LString.read hstill
  have hdata : (v.str r).still.data = (w.str r).still.data := congrArg LString.data hstill
  obtain ⟨s, o, hb⟩ := h.buffer
  obtain ⟨s', o', hb'⟩ := h'.buffer
  refine ⟨IsTrans.trans _ _ _ h.scratch h'.scratch, h'.heap.trans h.heap, fun d hd => ?_, s', o', ?_⟩
  · rw [h'.others d, h.others d hd]
    intro ht
    rw [show (v.str r).data = (w.str r).data from hdata]
    exact hd (hread.symm.trans ht)
  · rw [hb', hb]

theorem Drawn.setPos {r : StrRef} (w : World σ) (x : ℕ) (hr : r.isStored = true) :
    Drawn rest r w (w.setStr r { w.str r with pos := x }) := by
  have happ : (w.setStr r { w.str r with pos := x }).app = w.app ∧
      (w.setStr r { w.str r with pos := x }).tx = w.tx := by
    cases r <;> exact ⟨rfl, rfl⟩
  refine ⟨.setStr w r _ hr, setStr_still w r x hr, fun d _ => by rw [happ.1],
    w.tx.internal.buffer.blockingStr, w.tx.internal.buffer.osError, ?_⟩
  rw [happ.2]

theorem Drawn.app {r : StrRef} {w : World σ} {a : σ}
    (h : ∀ d, ((w.str r).read = true → d ≠ (w.str r).data) → rest a d = rest w.app d) :
    Drawn rest r w { w with app := a } := ⟨.app w a, rfl, h, _, _, rfl⟩

/- A buffer in which only the blocking string and the number of an error are noted. -/
theorem Drawn.noted {r : StrRef} (w : World σ) (s : Option StrRef) (o : ℤ) :
    Drawn rest r w (w.setTx { w.tx.internal with
      buffer := { w.tx.internal.buffer with blockingStr := s, osError := o } }) :=
  ⟨.tx w _, rfl, fun _ _ => rfl, s, o, rfl⟩

/-- The bytes `bs` were taken from the string `r`, whose first `k` had been taken. -/
structure Took (rest : σ → ℕ → List Byte) (r : StrRef) (w : World σ) (k : ℕ) (bs : List Byte) (v : World σ) : Prop where
  drawn : Drawn rest r w v
  bytes : (w.str r).from (rest w.app) k = bs ++ (v.str r).from (rest v.app) (k + bs.length)
  ready : (v.str r).Ready (k + bs.length)
  supply : (v.str r).Supplied (rest v.app) (k + bs.length) ↔ (w.str r).Supplied (rest w.app) k

/- From a read callback. -/
theorem strRead_took (hs : env.Streams rest) (w : World σ) (r : StrRef) (k n : ℕ)
    (hready : (w.str r).Ready k) (hread : (w.str r).read = true) (hn : n ≤ (w.str r).len.toNat - k)
    (h0 : 0 < n) :
    let reply := env.strRead w.app (w.str r).data n
    Took rest r w k reply.bytes { w with app := reply.app } ∧ reply.bytes.length ≤ n ∧
      (reply.result = .success ∧ reply.bytes ≠ [] ∨
        reply.result = .wouldBlock ∧ reply.bytes = [] ∧ ((w.str r).Supplied (rest w.app) k → ¬ env.Flows rest)) ∧
      (env.Prompt rest ∧ (w.str r).Supplied (rest w.app) k → reply.result = .success ∧ reply.bytes.length = n) := by
  intro reply
  have hdrawn : Drawn rest r w { w with app := reply.app } :=
    .app fun d hd => hs.others w.app (w.str r).data n d (hd hread)
  have hbuf : (w.str r).buf = none := by
    rcases hready.source with ⟨hz, -⟩ | ⟨-, hb⟩ | ⟨hf, -⟩
    · rw [hz] at hn
      change n ≤ 0 - k at hn
      omega
    · exact hb
    · rw [hread] at hf
      contradiction
  have htaken : reply.bytes.length ≤ n ∧ rest w.app (w.str r).data = reply.bytes ++ rest reply.app (w.str r).data ∧
      (reply.result = .success ∧ reply.bytes ≠ [] ∨
        reply.result = .wouldBlock ∧ reply.bytes = [] ∧ ((w.str r).Supplied (rest w.app) k → ¬ env.Flows rest)) := by
    rcases hs.read w.app (w.str r).data n h0 with ⟨hr, hne, hl, hrest⟩ | ⟨hr, hnil, hrest⟩
    · exact ⟨hl, hrest, .inl ⟨hr, hne⟩⟩
    · have hblock : (w.str r).Supplied (rest w.app) k → ¬ env.Flows rest := by
        intro hsup hflows
        have hlen := hsup hread
        have hsuccess := hflows w.app (w.str r).data n h0 fun hnil => by
          rw [hnil, List.length_nil] at hlen
          omega
        rw [hr] at hsuccess
        contradiction
      refine ⟨?_, ?_, .inr ⟨hr, hnil, hblock⟩⟩
      · change (env.strRead w.app (w.str r).data n).bytes.length ≤ n
        rw [hnil]
        exact Nat.zero_le n
      · change _ = (env.strRead w.app (w.str r).data n).bytes ++ rest (env.strRead w.app (w.str r).data n).app _
        rw [hnil, hrest]
        rfl
  obtain ⟨hl, hrest, hres⟩ := htaken
  refine ⟨⟨hdrawn, ?_, ?_, ?_⟩, hl, hres, fun ⟨hprompt, hsup⟩ => hprompt _ _ n h0 (hn.trans (hsup hread))⟩
  · simp only [LString.from, str_app, hread, if_true]
    rw [hrest, List.take_append, List.take_of_length_le (by omega), Nat.sub_add_eq]
  · rw [str_app]
    exact ⟨hready.len, by omega, .inr (.inl ⟨hread, hbuf⟩)⟩
  · simp only [LString.Supplied, str_app, hread, true_imp_iff]
    rw [hrest, List.length_append]
    omega

/- From memory. -/
theorem memory_took (w : World σ) (r : StrRef) (k n : ℕ) (mem : List Byte) (hr : r.isStored = true)
    (hready : (w.str r).Ready k) (hread : (w.str r).read = false) (hmem : (w.str r).buf = some mem)
    (hpos : (w.str r).pos = k) (hn : n ≤ (w.str r).len.toNat - k) :
    Took rest r w k ((mem.drop k).take n) (w.setStr r { w.str r with pos := k + n }) ∧
      ((mem.drop k).take n).length = n := by
  have hlen : (w.str r).len.toNat ≤ mem.length := by
    rcases hready.source with ⟨hz, -⟩ | ⟨ht, -⟩ | ⟨-, -, m, hm, hl⟩
    · rw [hz]
      exact Nat.zero_le _
    · rw [hread] at ht
      contradiction
    · rw [hmem] at hm
      cases hm
      exact hl
  have hwithin := hready.within
  have hcount : ((mem.drop k).take n).length = n := by
    rw [List.length_take, List.length_drop]
    omega
  have hstr := str_setPos w r (k + n) hr (.inr (by rw [hmem]; simp))
  refine ⟨⟨.setPos w _ hr, ?_, ?_, ?_⟩, hcount⟩
  · rw [hstr, hcount]
    simp only [LString.from, hread, Bool.false_eq_true, if_false, hmem, Option.getD_some]
    rw [← List.drop_drop, List.drop_take]
    conv_lhs => rw [← List.take_append_drop n (List.take ((w.str r).len.toNat - k) (List.drop k mem))]
    rw [List.take_take, Nat.min_eq_left hn]
  · rw [hstr, hcount]
    exact ⟨hready.len, by change k + n ≤ (w.str r).len.toNat; omega, .inr (.inr ⟨hread, .inr rfl, mem, hmem, hlen⟩)⟩
  · rw [hstr]
    simp only [LString.Supplied, hread, Bool.false_eq_true, false_imp_iff]

/-- `string_read` at the position `k`: it takes some of the next bytes, or is
blocked. -/
theorem stringRead_step (w : World σ) (r : StrRef) (k n : ℕ) (hr : r.isStored = true)
    (hs : (w.str r).read = true → env.Streams rest)
    (hready : (w.str r).Ready k) (hn : n ≤ (w.str r).len.toNat - k)
    (hpos : (w.str r).read = false → (w.str r).buf ≠ none → (w.str r).pos = k) :
    Wp (stringRead env r n) w (fun x v => Took rest r w k x.2.1 v ∧ x.2.1.length ≤ n ∧
      (x.1 = .success ∧ (0 < n → x.2.1 ≠ []) ∨ x.1 = .wouldBlock ∧ x.2.1 = [] ∧ 0 < n ∧
        ((w.str r).Supplied (rest w.app) k → ¬ env.Flows rest)) ∧
      ((w.str r).read = false ∨ env.Prompt rest ∧ (w.str r).Supplied (rest w.app) k → x.1 = .success ∧ x.2.1.length = n))
      fun _ _ => False := by
  simp only [stringRead, wp_bind, wp_get]
  refine wp_if (fun hbad => ?_) fun _ => wp_if (fun h0 => ?_) fun h0 => wp_if (fun hread => ?_) fun hread => ?_
  · rw [Bool.and_eq_true] at hbad
    rcases hready.source with ⟨-, hf | hb⟩ | ⟨-, hb⟩ | ⟨hf, -⟩ <;> simp_all
  · subst h0
    exact ⟨⟨.refl r w, rfl, hready, Iff.rfl⟩, le_rfl, .inl ⟨rfl, fun h => absurd h (lt_irrefl 0)⟩, fun _ => ⟨rfl, rfl⟩⟩
  · obtain ⟨htook, hl, hres, hfull⟩ := strRead_took (hs hread) w r k n hready hread hn (by omega)
    simp only [wp_bind, wp_set]
    have hall : (w.str r).read = false ∨ env.Prompt rest ∧ (w.str r).Supplied (rest w.app) k →
        (env.strRead w.app (w.str r).data n).result = .success ∧ (env.strRead w.app (w.str r).data n).bytes.length = n := by
      rintro (hf | hprompt)
      · rw [hread] at hf
        contradiction
      · exact hfull hprompt
    rcases hres with ⟨hres, hne⟩ | ⟨hres, hnil⟩
    · rw [hres]
      exact ⟨htook, hl, .inl ⟨rfl, fun _ => hne⟩, fun h => ⟨rfl, (hall h).2⟩⟩
    · rw [hres] at hall ⊢
      exact ⟨htook, hl, .inr ⟨rfl, hnil.1, by omega, hnil.2⟩, fun h => absurd (hall h).1 (by decide)⟩
  · have hread : (w.str r).read = false := by simpa using hread
    cases hm : (w.str r).buf with
    | none =>
      rcases hready.source with ⟨hz, -⟩ | ⟨ht, -⟩ | ⟨-, -, m, hm', -⟩
      · rw [hz] at hn
        change n ≤ 0 - k at hn
        omega
      · rw [hread] at ht
        contradiction
      · rw [hm] at hm'
        contradiction
    | some mem =>
      have hk := hpos hread (by rw [hm]; simp)
      obtain ⟨htook, hl⟩ := @memory_took σ rest w r k n mem hr hready hread hm hk hn
      obtain ⟨hlen, hlen'⟩ := hready.len
      rw [hk]
      refine wp_assert_bind (fun _ => ?_) fun hf => ?_
      · simp only [wp_bind, wp_set]
        rw [← hm]
        refine ⟨htook, hl.le, .inl ⟨rfl, fun _ hnil => ?_⟩, fun _ => ⟨rfl, hl⟩⟩
        rw [show (mem.drop k).take n = [] from hnil] at hl
        exact absurd hl.symm h0
      · have hwithin := hready.within
        have hle : toSize (↑k + ↑n) ≤ toSize (w.str r).len := by
          rw [toSize_of_bounds _ (by omega) (by omega), toSize_of_bounds _ hlen (by omega)]
          omega
        rw [Bool.or_eq_false_iff, decide_eq_false_iff_not] at hf
        exact hf.2 hle

/-! ### Fields -/

/- The two bytes of the length of a string. -/
def stringLenBytes (len : ℤ) : List Byte := [stringLenByte len 1, stringLenByte len 0]

/-- The bytes of a field from `off` on. -/
def World.left (rest : σ → ℕ → List Byte) (w : World σ) (off : ℕ) : Field → List Byte
  | .header bytes => bytes.drop off
  | .str r encodeLen encodeIfEmpty =>
    if (w.str r).len = 0 ∧ encodeIfEmpty = false then []
    else if encodeLen then (stringLenBytes (w.str r).len).drop off ++ (w.str r).from (rest w.app) (off - 2)
    else (w.str r).from (rest w.app) off

/- The bytes of a string that were taken when `off` bytes of its field were sent. -/
def stringOffset (encodeLen : Bool) (off : ℕ) : ℕ := if encodeLen then off - 2 else off

/-- The encoder can go on with a field of which it has sent `off` bytes. -/
def World.Ready (w : World σ) (off : ℕ) : Field → Prop
  | .header bytes => off < bytes.length
  | .str r encodeLen encodeIfEmpty => r.isStored = true ∧ (encodeLen = true ∨ encodeIfEmpty = false) ∧
    (w.str r).Ready (stringOffset encodeLen off)

/-- The callback of a field still has what is left of it. -/
def World.Supplied (rest : σ → ℕ → List Byte) (w : World σ) (off : ℕ) : Field → Prop
  | .header _ => True
  | .str r encodeLen _ => (w.str r).Supplied (rest w.app) (stringOffset encodeLen off)

/- A cached header is the one of the field. -/
def EncodeBuffer.Caches (b : EncodeBuffer) (f : Field) : Prop := b.encoded = true → f = .header b.buf

theorem caches_of_fresh {b : EncodeBuffer} (h : b.encoded = false) (f : Field) : b.Caches f := by
  intro h'
  rw [h] at h'
  contradiction

/-- What sending a field changes besides the place in the buffer. -/
structure Sends (rest : σ → ℕ → List Byte) (f : Field) (w v : World σ) : Prop where
  scratch : TxScratch w v
  heap : v.heap.still = w.heap.still
  others : ∀ d, (∀ r el ie, f = .str r el ie → (w.str r).read = true → d ≠ (w.str r).data) →
    rest v.app d = rest w.app d
  pos : v.tx.internal.pos = w.tx.internal.pos
  offset : v.tx.internal.offset = w.tx.internal.offset
  error : v.tx.internal.error = w.tx.internal.error

theorem Drawn.sends {r : StrRef} {w v : World σ} (h : Drawn rest r w v) (el ie : Bool) :
    Sends rest (.str r el ie) w v := by
  obtain ⟨s, o, hb⟩ := h.buffer
  refine ⟨h.scratch, h.heap, fun d hd => h.others d (hd r el ie rfl), ?_, ?_, ?_⟩ <;> rw [hb]

/- The encoder of a string is called behind the end of its field. -/
def World.Stuck (w : World σ) (off : ℕ) : Field → Prop
  | .header _ => False
  | .str r el ie => ¬ ((w.str r).len = 0 ∧ ie = false) ∧ (w.str r).len.toNat + (if el then 2 else 0) ≤ off

/- The length of an empty string is cut in the middle, and one byte of the buffer
   takes the rest of it. -/
def World.Cut (w : World σ) (off bufLen : ℕ) (f : Field) : Prop :=
  ∃ r, f = .str r true true ∧ (w.str r).len = 0 ∧ off = 1 ∧ bufLen = 1

theorem stuck_str (w : World σ) (r : StrRef) (el ie : Bool) (off : ℕ) : w.Stuck off (.str r el ie) ↔
    ¬ ((w.str r).len = 0 ∧ ie = false) ∧ (w.str r).len.toNat + (if el then 2 else 0) ≤ off := Iff.rfl

/- A field that no read callback is needed for. -/
def World.InMemory (w : World σ) (f : Field) : Prop := ∀ r el ie, f = .str r el ie → (w.str r).read = false

/-- How an encoder ends that had room for `bufLen` bytes at the offset `off` of its
field. -/
inductive Sent (env : Env σ) (rest : σ → ℕ → List Byte) (f : Field) (w : World σ) (off bufLen : ℕ) :
    EncodeResult × List Byte → World σ → Prop
  | finished (bytes v) (hs : Sends rest f w v) (hb : w.left rest off f = bytes) (hl : bytes.length ≤ bufLen)
    (hc : v.tx.internal.buffer.encoded = false) (hp : w.Supplied rest off f) : Sent env rest f w off bufLen (.finished, bytes) v
  | continue (bytes v) (hs : Sends rest f w v) (hb : w.left rest off f = bytes ++ v.left rest (off + bytes.length) f)
    (hl : bytes.length ≤ bufLen) (hne : 0 < bufLen → bytes ≠ []) (hr : v.Ready (off + bytes.length) f)
    (hc : v.tx.internal.buffer.Caches f) (hm : w.InMemory f ∨ env.Prompt rest ∧ w.Supplied rest off f → bytes.length = bufLen)
    (hk : v.Stuck (off + bytes.length) f → w.Stuck off f ∨ w.Cut off bufLen f)
    (hp : v.Supplied rest (off + bytes.length) f ↔ w.Supplied rest off f)
    (he : w.Supplied rest off f → v.left rest (off + bytes.length) f = [] → v.Stuck (off + bytes.length) f) :
    Sent env rest f w off bufLen (.continue, bytes) v
  | wouldBlock (bytes v) (hs : Sends rest f w v) (hb : v.left rest off f = w.left rest off f)
    (hr : v.Ready off f) (hc : v.tx.internal.buffer.Caches f) (hm : ¬ (w.InMemory f ∨ env.Prompt rest ∧ w.Supplied rest off f))
    (hp : v.Supplied rest off f ↔ w.Supplied rest off f)
    (hw : w.Supplied rest off f → ¬ env.Flows rest ∧ v.left rest off f ≠ []) :
    Sent env rest f w off bufLen (.wouldBlock, bytes) v

/- `encode_buffer_encode`, for a builder that builds `bytes`. -/
theorem encodeBufferEncode_sent (w : World σ) (builder : Value → Prog σ (List Byte)) (v : Value) (bytes : List Byte)
    (off bufLen : ℕ) (hr : w.Ready off (.header bytes)) (hc : w.tx.internal.buffer.Caches (.header bytes))
    (E : Halt → World σ → Prop) (hb : Wp (builder v) w (fun built u => built = bytes ∧ u = w) E) :
    Wp (encodeBufferEncode env builder v off bufLen) w (Sent env rest (.header bytes) w off bufLen) E := by
  have hsends : ∀ b, Sends rest (.header bytes) w (w.setTx { w.tx.internal with buffer := b }) := fun b =>
    ⟨.tx w _, rfl, fun _ _ => rfl, rfl, rfl, rfl⟩
  -- behind the builder, the buffer holds the bytes of the field
  have hrest : ∀ b : EncodeBuffer, b.buf = bytes →
      Wp (do
        let eb := (← get).tx.internal.buffer
        assert env (0 < eb.buf.length && off < eb.buf.length)
        if bufLen < eb.buf.length - off then pure (.continue, (eb.buf.drop off).take bufLen)
        else
          setEncodeBuffer {}
          pure (.finished, eb.buf.drop off) : Prog σ (EncodeResult × List Byte))
        (w.setTx { w.tx.internal with buffer := b }) (Sent env rest (.header bytes) w off bufLen) E := by
    intro b hbuf
    have hr : off < bytes.length := hr
    simp only [wp_bind, wp_get]
    change Wp (assert env (0 < b.buf.length && off < b.buf.length)) _ _ _
    rw [hbuf]
    refine (wp_assert ..).mpr ?_
    have hok : (0 < bytes.length && off < bytes.length : Bool) = true := by
      simp only [Bool.and_eq_true, decide_eq_true_eq]
      omega
    rw [hok, Bool.or_true, if_pos rfl]
    refine wp_if (fun hlt => ?_) fun hle => ?_
    · have hlt : bufLen < b.buf.length - off := hlt
      rw [hbuf] at hlt
      have hlen : ((bytes.drop off).take bufLen).length = bufLen := by
        rw [List.length_take, List.length_drop]
        omega
      change Sent env rest (.header bytes) w off bufLen (.continue, (b.buf.drop off).take bufLen) _
      rw [hbuf]
      refine .continue _ _ (hsends b) ?_ hlen.le (fun h0 hnil => ?_) ?_ (fun _ => ?_) (fun _ => ?_) ?_ Iff.rfl fun _ hnil => ?_
      · change bytes.drop off = _ ++ bytes.drop (off + _)
        rw [hlen, ← List.drop_drop]
        exact (List.take_append_drop bufLen (bytes.drop off)).symm
      · rw [hnil] at hlen
        exact absurd hlen.symm h0.ne'
      · change off + _ < bytes.length
        omega
      · rw [← hbuf]
        rfl
      · exact hlen
      · exact fun h => h.elim
      · have hdone : bytes.drop (off + ((bytes.drop off).take bufLen).length) = [] := hnil
        rw [hlen, List.drop_eq_nil_iff] at hdone
        omega
    · have hle : ¬ bufLen < b.buf.length - off := hle
      rw [hbuf] at hle
      change Sent env rest (.header bytes) w off bufLen (.finished, b.buf.drop off) _
      rw [hbuf]
      refine .finished _ _ (hsends {}) rfl ?_ rfl trivial
      rw [List.length_drop]
      omega
  simp only [encodeBufferEncode, wp_bind, wp_get]
  refine wp_if (fun hn => ?_) fun hn => ?_
  · rw [wp_bind]
    refine hb.mono (fun built u hu => ?_) fun _ _ h => h
    obtain ⟨rfl, rfl⟩ := hu
    exact hrest { u.tx.internal.buffer with encoded := true, buf := built } rfl
  · have henc : w.tx.internal.buffer.encoded = true := by simpa using hn
    have hbuf := Field.header.inj (hc henc)
    exact hrest w.tx.internal.buffer hbuf.symm

/-! ### Strings -/

/- What is left of the length of a string at the offset `off` of its field. -/
def stringLenLeft (encodeLen : Bool) (len : ℤ) (off : ℕ) : List Byte :=
  if encodeLen then (stringLenBytes len).drop off else []

theorem left_str (w : World σ) (r : StrRef) (el ie : Bool) (off : ℕ) (h : ¬ ((w.str r).len = 0 ∧ ie = false)) :
    w.left rest off (.str r el ie) =
      stringLenLeft el (w.str r).len off ++ (w.str r).from (rest w.app) (stringOffset el off) := by
  change (if (w.str r).len = 0 ∧ ie = false then _ else _) = _
  rw [if_neg h]
  cases el <;> rfl

@[simp] theorem str_setTx (w : World σ) (i : TxInternal) (r : StrRef) : (w.setTx i).str r = w.str r := by
  cases r <;> rfl

@[simp] theorem left_setTx (w : World σ) (i : TxInternal) (off : ℕ) (f : Field) :
    (w.setTx i).left rest off f = w.left rest off f := by
  cases f with
  | header bytes => rfl
  | str r el ie =>
    unfold World.left
    simp only [str_setTx]
    rfl

@[simp] theorem ready_setTx (w : World σ) (i : TxInternal) (off : ℕ) (f : Field) :
    (w.setTx i).Ready off f ↔ w.Ready off f := by
  cases f with
  | header bytes => rfl
  | str r el ie =>
    unfold World.Ready
    simp only [str_setTx]

@[simp] theorem supplied_setTx (w : World σ) (i : TxInternal) (off : ℕ) (f : Field) :
    (w.setTx i).Supplied rest off f ↔ w.Supplied rest off f := by
  cases f with
  | header bytes => rfl
  | str r el ie =>
    unfold World.Supplied
    simp only [str_setTx]
    rfl

/- A step of `off` bytes that goes beyond the length. -/
theorem stringOffset_add (el : Bool) (len : ℤ) (off n : ℕ) :
    stringOffset el (off + ((stringLenLeft el len off).length + n)) = stringOffset el off + n ∧
      stringLenLeft el len (off + ((stringLenLeft el len off).length + n)) = [] := by
  unfold stringOffset stringLenLeft
  cases el with
  | false => simp
  | true =>
    have hlen : ((stringLenBytes len).drop off).length = 2 - off := by
      rw [List.length_drop]
      rfl
    simp only [if_true, hlen]
    constructor
    · omega
    · apply List.drop_eq_nil_of_le
      change 2 ≤ _
      omega

theorem Drawn.str {r : StrRef} {w v : World σ} (h : Drawn rest r w v) (hr : r.isStored = true) :
    (v.str r).len = (w.str r).len ∧ (v.str r).read = (w.str r).read ∧ (v.str r).buf = (w.str r).buf ∧
      (v.str r).data = (w.str r).data := string_still hr h.heap

/- Nothing is left of a string only behind its end. -/
theorem stuck_of_left {w : World σ} {r : StrRef} {el ie : Bool} {off : ℕ} (hr : w.Ready off (.str r el ie))
    (hn : ¬ ((w.str r).len = 0 ∧ ie = false)) (hs : w.Supplied rest off (.str r el ie))
    (h : w.left rest off (.str r el ie) = []) : w.Stuck off (.str r el ie) := by
  obtain ⟨-, -, hready⟩ := hr
  rw [left_str w r el ie off hn, List.append_eq_nil_iff] at h
  obtain ⟨hlen, hfrom⟩ := h
  have hcount := hready.from_length hs
  rw [hfrom, List.length_nil] at hcount
  refine ⟨hn, ?_⟩
  cases el with
  | false =>
    simp only [stringOffset, Bool.false_eq_true, if_false] at hcount ⊢
    omega
  | true =>
    have htwo : 2 ≤ off := List.drop_eq_nil_iff.mp hlen
    simp only [stringOffset, if_true] at hcount ⊢
    omega

/- Bytes that were taken behind the length of a string are a step of its field. -/
theorem Took.left {r : StrRef} {w v : World σ} {el ie : Bool} {off : ℕ} {bs : List Byte}
    (h : Took rest r w (stringOffset el off) bs v) (hr : r.isStored = true) (hform : el = true ∨ ie = false)
    (hn : ¬ ((w.str r).len = 0 ∧ ie = false)) :
    w.left rest off (.str r el ie) = (stringLenLeft el (w.str r).len off ++ bs) ++
        v.left rest (off + (stringLenLeft el (w.str r).len off ++ bs).length) (.str r el ie) ∧
      v.Ready (off + (stringLenLeft el (w.str r).len off ++ bs).length) (.str r el ie) ∧
      (v.Supplied rest (off + (stringLenLeft el (w.str r).len off ++ bs).length) (.str r el ie) ↔
        w.Supplied rest off (.str r el ie)) := by
  obtain ⟨hlen, -⟩ := h.drawn.str hr
  obtain ⟨hoff, hnil⟩ := stringOffset_add el (w.str r).len off bs.length
  have hready := h.ready
  rw [List.length_append]
  refine ⟨?_, ?_, ?_⟩
  · rw [left_str w r el ie off hn, left_str v r el ie _ (by rwa [hlen]), hlen, hnil, hoff, h.bytes, List.nil_append,
      List.append_assoc]
  · refine ⟨hr, hform, ?_⟩
    rwa [hoff]
  · change (v.str r).Supplied _ _ ↔ _
    rw [hoff]
    exact h.supply

/- The end of `string_encode`, behind a read of at most `n` bytes that left `room`
   for them. -/
theorem stringEncodeResult_sent (w v : World σ) (r : StrRef) (el ie : Bool) (off bufLen n : ℕ)
    (x : StringResult × List Byte × ℤ) (hr : r.isStored = true) (hform : el = true ∨ ie = false)
    (hn : ¬ ((w.str r).len = 0 ∧ ie = false)) (htook : Took rest r w (stringOffset el off) x.2.1 v) (hlen : x.2.1.length ≤ n)
    (hroom : (stringLenLeft el (w.str r).len off).length + n ≤ bufLen)
    (hfull : n = 0 → (w.str r).len.toNat ≤ stringOffset el off)
    (hready : (w.str r).Ready (stringOffset el off))
    (hc : w.tx.internal.buffer.encoded = false)
    (hres : x.1 = .success ∧ (0 < n → x.2.1 ≠ []) ∨ x.1 = .wouldBlock ∧ x.2.1 = [] ∧ 0 < n ∧
      ((w.str r).Supplied (rest w.app) (stringOffset el off) → ¬ env.Flows rest))
    (hmost : n ≤ (w.str r).len.toNat - stringOffset el off)
    (hmem : (w.str r).read = false ∨ env.Prompt rest ∧ (w.str r).Supplied (rest w.app) (stringOffset el off) →
      x.1 = .success ∧ x.2.1.length = n)
    (hmin : n = bufLen - (stringLenLeft el (w.str r).len off).length ∨
      n = (w.str r).len.toNat - stringOffset el off) :
    Wp (stringEncodeResult env r (stringLenLeft el (w.str r).len off) ((w.str r).len - stringOffset el off) x.1 x.2.1 x.2.2)
      v (Sent env rest (.str r el ie) w off bufLen) fun _ _ => False := by
  obtain ⟨hleft, hnext, hsupply⟩ := htook.left hr hform hn
  obtain ⟨hpos, -⟩ := hready.len
  have hsame := htook.drawn.str hr
  have hcached : ∀ s o, ((v.setTx { v.tx.internal with buffer := { v.tx.internal.buffer with
      blockingStr := s, osError := o } }).tx.internal.buffer.encoded = false) := by
    intro s o
    obtain ⟨s', o', hb⟩ := htook.drawn.buffer
    change v.tx.internal.buffer.encoded = false
    rw [hb]
    exact hc
  have hnote : ∀ s o, Drawn rest r w (v.setTx { v.tx.internal with buffer := { v.tx.internal.buffer with
      blockingStr := s, osError := o } }) := fun s o => htook.drawn.trans hr (.noted v s o)
  have hwithin := hready.within
  have hfits : ((x.2.1.length : ℤ) ≤ (w.str r).len - stringOffset el off) := by omega
  simp only [stringEncodeResult, wp_bind, wp_modify, wp_assert, hfits, decide_true, Bool.or_true, if_true]
  refine wp_if (fun hblock => ?_) fun hblock => ?_
  · rcases hres with ⟨hs, -⟩ | ⟨-, hnil, h0, hflows⟩
    · rw [hs] at hblock
      contradiction
    · -- the length is not counted as sent
      have hbytes := htook.bytes
      have hnow := htook.ready
      have hsup := htook.supply
      rw [hnil, List.nil_append, List.length_nil, Nat.add_zero] at hbytes
      rw [hnil, List.length_nil, Nat.add_zero] at hnow hsup
      refine .wouldBlock _ _ ((hnote (some r) x.2.2).sends el ie) ?_ ((ready_setTx ..).mpr ⟨hr, hform, hnow⟩)
        (caches_of_fresh (hcached (some r) x.2.2) _) (fun hm => ?_) ((supplied_setTx ..).trans hsup)
        fun hs => ⟨hflows hs, fun hdone => ?_⟩
      · change World.left rest ((v.setTx _).setTx _) off _ = _
        rw [left_setTx, left_setTx, left_str w r el ie off hn, left_str v r el ie off (by rwa [hsame.1]), hsame.1, hbytes]
      · have hs := (hmem (hm.imp_left fun hm => hm r el ie rfl)).1
        rw [hblock] at hs
        contradiction
      · change World.left rest ((v.setTx _).setTx _) off _ = _ at hdone
        rw [left_setTx, left_setTx, left_str v r el ie off (by rwa [hsame.1]), List.append_eq_nil_iff, ← hbytes] at hdone
        have hfrom := hready.from_length hs
        rw [hdone.2, List.length_nil] at hfrom
        omega
  · obtain ⟨hs, hne⟩ : x.1 = .success ∧ (0 < n → x.2.1 ≠ []) := hres.resolve_right fun h => hblock h.1
    have hfit : (stringLenLeft el (w.str r).len off ++ x.2.1).length ≤ bufLen := by
      rw [List.length_append]
      omega
    simp only [hs, decide_true, Bool.true_and, decide_eq_true_eq]
    refine wp_if (fun hall => ?_) fun hall => wp_if (fun _ => ?_) fun hnone => ?_
    · have hlast : (v.str r).from (rest v.app) (stringOffset el off + x.2.1.length) = [] := by
        have hfrom := (v.str r).from_length_le (stringOffset el off + x.2.1.length) (rest v.app)
        rw [hsame.1] at hfrom
        apply List.eq_nil_of_length_eq_zero
        omega
      refine .finished _ _ ((hnote _ x.2.2).sends el ie) ?_ hfit (hcached _ _) (htook.supply.mp fun _ => ?_)
      swap
      · rw [hsame.1]
        omega
      rw [left_str w r el ie off hn, htook.bytes, hlast, List.append_nil]
    · refine .continue _ _ ((hnote _ x.2.2).sends el ie) ?_ hfit (fun _ hnil => ?_) ((ready_setTx ..).mpr hnext)
        (caches_of_fresh (hcached _ x.2.2) _) (fun hm => ?_) (fun hstuck => ?_) ((supplied_setTx ..).trans hsupply)
        fun hs hnil => ?_
      · rw [left_setTx]
        exact hleft
      · rw [List.append_eq_nil_iff] at hnil
        simp_all
      · have hlen := (hmem (hm.imp_left fun hm => hm r el ie rfl)).2
        rw [List.length_append]
        omega
      · -- something is left of the string
        have hend := hstuck.2
        rw [str_setTx, hsame.1, List.length_append] at hend
        have hoff := (stringOffset_add el (w.str r).len off x.2.1.length).1
        unfold stringOffset at hoff hall
        split at hoff <;> simp_all <;> omega
      · exact stuck_of_left ((ready_setTx ..).mpr hnext) (by rwa [str_setTx, hsame.1])
          ((supplied_setTx ..).mpr (hsupply.mpr hs)) hnil
    · -- something was read where something was left
      exfalso
      have hnil : x.2.1 = [] := List.eq_nil_of_length_eq_zero (by omega)
      by_cases h0 : 0 < n
      · exact hne h0 hnil
      · have := hfull (by omega)
        omega

/- The bytes that are asked for. -/
theorem toSize_min (room : ℕ) (remaining : ℤ) (h : 0 ≤ remaining) (h' : remaining < 2^63) :
    toSize (if (room : ℤ) < remaining then (room : ℤ) else remaining) = min room remaining.toNat := by
  split
  · rw [toSize_of_bounds _ (by omega) (by omega)]
    omega
  · rw [toSize_of_bounds _ h (by omega)]
    omega

/- A string at its first byte may be moved back. -/
theorem rewound (w : World σ) (r : StrRef) (hr : r.isStored = true) (hready : (w.str r).Ready 0) :
    let u := w.setStr r { w.str r with pos := 0 }
    Drawn rest r w u ∧ u.str r = { w.str r with pos := 0 } ∧ u.app = w.app ∧ (u.str r).Ready 0 := by
  intro u
  have hstr : u.str r = { w.str r with pos := 0 } := str_setPos w r 0 hr (.inl rfl)
  have happ : u.app = w.app := by
    change (w.setStr r _).app = w.app
    cases r <;> rfl
  refine ⟨.setPos w 0 hr, hstr, happ, ?_⟩
  rw [hstr]
  refine ⟨hready.len, Nat.zero_le _, ?_⟩
  rcases hready.source with h | h | ⟨hread, -, hm⟩
  · exact .inl h
  · exact .inr (.inl h)
  · exact .inr (.inr ⟨hread, .inl rfl, hm⟩)

theorem stringEncodeData_sent (w : World σ) (r : StrRef) (el ie : Bool) (off bufLen room : ℕ)
    (hs : (w.str r).read = true → env.Streams rest)
    (hr : r.isStored = true) (hform : el = true ∨ ie = false) (hn : ¬ ((w.str r).len = 0 ∧ ie = false))
    (hready : (w.str r).Ready (stringOffset el off)) (hc : w.tx.internal.buffer.encoded = false)
    (h0 : 0 < room) (hroom : (stringLenLeft el (w.str r).len off).length + room = bufLen) :
    Wp (stringEncodeData env r (stringLenLeft el (w.str r).len off) (stringOffset el off) room) w
      (Sent env rest (.str r el ie) w off bufLen) fun _ _ => False := by
  obtain ⟨hlo, hhi⟩ := hready.len
  have hwithin := hready.within
  have hlen := toSize_min room ((w.str r).len - stringOffset el off) (by omega) (by omega)
  simp only [stringEncodeData, wp_bind, wp_get]
  rw [hlen]
  refine wp_if (fun hfirst => ?_) fun hfirst => ?_
  · rw [hfirst] at hready hwithin ⊢
    obtain ⟨hdrawn, hstr, happ, hnow⟩ := rewound w r hr hready
    simp only [stringRewind, wp_bind, wp_modify]
    refine (stringRead_step _ r 0 _ hr (by rwa [hstr]) hnow ?_ ?_).mono (fun x v hx => ?_) fun _ _ h => h
    · rw [hstr]
      change _ ≤ (w.str r).len.toNat - 0
      omega
    · intro _ _
      rw [hstr]
    · obtain ⟨htook, hle, hres, hmem⟩ := hx
      have hfrom : (w.str r).from (rest w.app) 0 =
          ((w.setStr r { w.str r with pos := 0 }).str r).from (rest (w.setStr r { w.str r with pos := 0 }).app) 0 := by
        rw [hstr, happ]
        rfl
      have hsup : ((w.setStr r { w.str r with pos := 0 }).str r).Supplied
          (rest (w.setStr r { w.str r with pos := 0 }).app) 0 ↔ (w.str r).Supplied (rest w.app) 0 := by
        rw [hstr, happ]
        rfl
      have hzero : (w.str r).Supplied (rest w.app) (stringOffset el off) ↔ (w.str r).Supplied (rest w.app) 0 := by
        rw [hfirst]
      have hread : ((w.setStr r { w.str r with pos := 0 }).str r).read = (w.str r).read := by rw [hstr]
      rw [hsup, ← hzero] at hres
      rw [hsup, ← hzero, hread] at hmem
      have hall : Took rest r w (stringOffset el off) x.2.1 v := by
        rw [hfirst]
        exact ⟨hdrawn.trans hr htook.drawn, hfrom.trans htook.bytes, htook.ready, htook.supply.trans hsup⟩
      have hsent := stringEncodeResult_sent w v r el ie off bufLen _ x hr hform hn hall hle (by omega) (by omega)
        (by rwa [hfirst]) hc hres (by omega) hmem (by omega)
      rwa [hfirst] at hsent
  · rw [wp_bind]
    refine (stringRead_step w r (stringOffset el off) _ hr hs hready ?_ ?_).mono (fun x v hx => ?_) fun _ _ h => h
    · omega
    · intro hread _
      rcases hready.source with ⟨hz, -⟩ | ⟨ht, -⟩ | ⟨-, h | h, -⟩
      · omega
      · rw [hread] at ht
        contradiction
      · contradiction
      · exact h
    · obtain ⟨htook, hle, hres, hmem⟩ := hx
      exact stringEncodeResult_sent w v r el ie off bufLen _ x hr hform hn htook hle (by omega) (by omega) hready hc hres
        (by omega) hmem (by omega)

/- The buffer is full within or right behind the length. -/
theorem stringLen_sent (w v : World σ) (r : StrRef) (ie : Bool) (off bufLen : ℕ) (hr : r.isStored = true)
    (hn : ¬ ((w.str r).len = 0 ∧ ie = false)) (hready : (w.str r).Ready (off - 2))
    (hc : v.tx.internal.buffer.encoded = false) (hd : Drawn rest r w v) (hsame : v.str r = w.str r ∧ v.app = w.app)
    (lenBytes : List Byte) (hlen : lenBytes = (stringLenLeft true (w.str r).len off).take bufLen) (hne : lenBytes ≠ [])
    (hfull : bufLen ≤ lenBytes.length) :
    Sent env rest (.str r true ie) w off bufLen
      (if 2 ≤ lenBytes.length && (w.str r).len = 0 then .finished else .continue, lenBytes) v := by
  have hcount : (stringLenLeft true (w.str r).len off).length = 2 - off := by
    change ((stringLenBytes (w.str r).len).drop off).length = 2 - off
    rw [List.length_drop]
    rfl
  have hmin : lenBytes.length = min bufLen (2 - off) := by rw [hlen, List.length_take, hcount]
  have hpos := List.length_pos_iff.mpr hne
  have hsplit : stringLenLeft true (w.str r).len off = lenBytes ++
      stringLenLeft true (w.str r).len (off + lenBytes.length) := by
    have hdrop : stringLenLeft true (w.str r).len (off + bufLen) =
        (stringLenLeft true (w.str r).len off).drop bufLen := List.drop_drop.symm
    rw [show lenBytes.length = bufLen by omega, hdrop, hlen, List.take_append_drop]
  have hzero : ∀ m, m ≤ 2 → stringOffset true m = 0 := fun m hm => Nat.sub_eq_zero_of_le hm
  have hoff : off - 2 = 0 := by omega
  have hnow : (v.str r).Ready (stringOffset true (off + lenBytes.length)) := by
    rw [hsame.1, hzero _ (by omega)]
    rwa [hoff] at hready
  split
  · rename_i hempty
    simp only [Bool.and_eq_true, decide_eq_true_eq] at hempty
    have hsup : w.Supplied rest off (.str r true ie) := by
      intro _
      rw [hempty.2]
      change 0 - _ ≤ _
      omega
    refine .finished _ _ (hd.sends true ie) ?_ (by omega) hc hsup
    have hnil : (w.str r).from (rest w.app) (stringOffset true off) = [] := by
      apply List.eq_nil_of_length_eq_zero
      have hfrom := (w.str r).from_length_le (off - 2) (rest w.app)
      rw [hempty.2] at hfrom
      change ((w.str r).from (rest w.app) (off - 2)).length = 0
      change _ ≤ 0 - _ at hfrom
      omega
    have hdone : stringLenLeft true (w.str r).len (off + lenBytes.length) = [] := by
      apply List.eq_nil_of_length_eq_zero
      change ((stringLenBytes (w.str r).len).drop _).length = 0
      rw [List.length_drop]
      change 2 - _ = 0
      omega
    rw [left_str w r true ie off hn, hnil, List.append_nil, hsplit, hdone, List.append_nil]
  · rename_i hmore
    have hsup : v.Supplied rest (off + lenBytes.length) (.str r true ie) ↔ w.Supplied rest off (.str r true ie) := by
      change (v.str r).Supplied (rest v.app) (stringOffset true _) ↔ (w.str r).Supplied (rest w.app) (stringOffset true _)
      rw [hsame.1, hsame.2, hzero off (by omega), hzero _ (by omega)]
    refine .continue _ _ (hd.sends true ie) ?_ (by omega) (fun _ => hne) ⟨hr, .inl rfl, ?_⟩ (caches_of_fresh hc _)
      (fun _ => by omega) (fun hstuck => ?_) hsup fun hs hnil => ?_
    · rw [left_str w r true ie off hn, left_str v r true ie _ (by rwa [hsame.1]), hsame.1, hsame.2, hzero off (by omega),
        hzero (off + lenBytes.length) (by omega), ← List.append_assoc, ← hsplit]
    · exact hnow
    · -- an empty string, cut behind the first byte of its length
      have hend := hstuck.2
      rw [hsame.1, if_pos rfl] at hend
      have hlo := hready.len.1
      have hempty : (w.str r).len = 0 := by omega
      have htwo : ¬ 2 ≤ lenBytes.length := by simpa [hempty] using hmore
      have hie : ie = true := by
        by_contra h
        exact hn ⟨hempty, by simpa using h⟩
      refine .inr ⟨r, by rw [hie], hempty, ?_, ?_⟩ <;> omega
    · exact stuck_of_left ⟨hr, .inl rfl, hnow⟩ (by rwa [hsame.1]) (hsup.mpr hs) hnil

/- What an encoder notes before it starts does not matter. -/
theorem Sent.from {w v u : World σ} {r : StrRef} {el ie : Bool} {off bufLen : ℕ} {x : EncodeResult × List Byte}
    (h : Sent env rest (.str r el ie) v off bufLen x u) (hr : r.isStored = true) (hd : Drawn rest r w v)
    (hi : v.tx.internal.pos = w.tx.internal.pos ∧ v.tx.internal.offset = w.tx.internal.offset ∧
      v.tx.internal.error = w.tx.internal.error)
    (hleft : v.left rest off (.str r el ie) = w.left rest off (.str r el ie))
    (hsup : v.Supplied rest off (.str r el ie) ↔ w.Supplied rest off (.str r el ie)) :
    Sent env rest (.str r el ie) w off bufLen x u := by
  obtain ⟨hlen, hread, -, hdata⟩ := hd.str hr
  have hmem : w.InMemory (.str r el ie) ∨ env.Prompt rest ∧ w.Supplied rest off (.str r el ie) →
      v.InMemory (.str r el ie) ∨ env.Prompt rest ∧ v.Supplied rest off (.str r el ie) := by
    refine Or.imp (fun h r' el' ie' hf => ?_) fun h => ⟨h.1, hsup.mpr h.2⟩
    cases hf
    exact hread.trans (h r el ie rfl)
  have hsends : ∀ {t}, Sends rest (.str r el ie) v t → Sends rest (.str r el ie) w t := by
    intro t ht
    refine ⟨IsTrans.trans _ _ _ hd.scratch ht.scratch, ht.heap.trans hd.heap, fun d hne => ?_, ht.pos.trans hi.1,
      ht.offset.trans hi.2.1, ht.error.trans hi.2.2⟩
    rw [ht.others d, hd.others d (hne r el ie rfl)]
    rintro r' el' ie' hf
    cases hf
    rw [hread, hdata]
    exact hne r el ie rfl
  cases h with
  | finished bytes u hs hb hl hc hp => exact .finished _ _ (hsends hs) (hleft.symm.trans hb) hl hc (hsup.mp hp)
  | «continue» bytes u hs hb hl hne hr hc hm hk hp he =>
    refine .continue _ _ (hsends hs) (hleft.symm.trans hb) hl hne hr hc (fun h => hm (hmem h)) (fun h => ?_)
      (hp.trans hsup) fun h => he (hsup.mpr h)
    rcases hk h with hstuck | ⟨r', hf, hz, hoff⟩
    · left
      rw [stuck_str, hlen] at hstuck
      exact hstuck
    · right
      cases hf
      exact ⟨r, rfl, hlen ▸ hz, hoff⟩
  | wouldBlock bytes u hs hb hr hc hm hp hw =>
    exact .wouldBlock _ _ (hsends hs) (hb.trans hleft) hr hc (fun h => hm (hmem h)) (hp.trans hsup)
      fun h => hw (hsup.mpr h)

/- The parts of `string_encode`: the length, and the string behind it. -/
theorem stringEncode_parts (w : World σ) (r : StrRef) (el ie : Bool) (off bufLen : ℕ)
    (hready : w.Ready off (.str r el ie)) (hc : w.tx.internal.buffer.encoded = false)
    {Q : EncodeResult × List Byte → World σ → Prop} {E : Halt → World σ → Prop}
    (hsent : ∀ x u, Sent env rest (.str r el ie) w off bufLen x u → Q x u)
    (hdata : ¬ ((w.str r).len = 0 ∧ ie = false) → (stringLenLeft el (w.str r).len off).length < bufLen →
      Wp (stringEncodeData env r (stringLenLeft el (w.str r).len off) (stringOffset el off)
          (bufLen - (stringLenLeft el (w.str r).len off).length))
        (w.setTx { w.tx.internal with buffer := { w.tx.internal.buffer with blockingStr := none } }) Q E)
    (hstuck : ∀ h v, env.ndebug = false → w.Stuck off (.str r el ie) → E h v) :
    Wp (stringEncode env r el ie off bufLen) w Q E := by
  obtain ⟨hr, hform, hready⟩ := hready
  obtain ⟨hlo, hhi⟩ := hready.len
  have hnoted : Drawn rest r w (w.setTx { w.tx.internal with
      buffer := { w.tx.internal.buffer with blockingStr := none } }) := .noted w none _
  simp only [stringEncode, wp_bind, wp_get, wp_modify]
  generalize hv : w.setTx { w.tx.internal with buffer := { w.tx.internal.buffer with blockingStr := none } } = v at hnoted hdata
  have hstr : v.str r = w.str r := by rw [← hv, str_setTx]
  have happ : v.app = w.app := by rw [← hv]; rfl
  have hcv : v.tx.internal.buffer.encoded = false := by rw [← hv]; exact hc
  have hleft : ∀ m, v.left rest m (.str r el ie) = w.left rest m (.str r el ie) := by
    intro m
    rw [← hv, left_setTx]
  have hsup : v.Supplied rest off (.str r el ie) ↔ w.Supplied rest off (.str r el ie) := by
    rw [← hv, supplied_setTx]
  refine wp_if (fun hskip => ?_) fun hskip => wp_if (fun hfull => ?_) fun hfull => ?_
  · simp only [Bool.and_eq_true, decide_eq_true_eq, Bool.not_eq_true'] at hskip
    refine hsent _ _ (.finished _ _ (hnoted.sends el ie) ?_ (Nat.zero_le _) hcv fun _ => ?_)
    · change (if (w.str r).len = 0 ∧ ie = false then _ else _) = _
      rw [if_pos hskip]
    · rw [hskip.1]
      change 0 - _ ≤ _
      omega
  · refine hsent _ _ (.continue _ _ (hnoted.sends el ie) ?_ (Nat.zero_le _) (fun h => absurd hfull h.ne') ⟨hr, hform, ?_⟩
      (caches_of_fresh hcv _) (fun _ => hfull.symm) (fun hstuck => ?_) hsup fun hs hnil => ?_)
    · rw [List.length_nil, Nat.add_zero, List.nil_append, hleft]
    · rw [hstr]
      exact hready
    · rw [stuck_str, hstr] at hstuck
      exact .inl hstuck
    · refine stuck_of_left ⟨hr, hform, ?_⟩ (by simpa [hstr] using hskip) (hsup.mpr hs) hnil
      rw [hstr]
      exact hready
  · have hn : ¬ ((w.str r).len = 0 ∧ ie = false) := by simpa using hskip
    refine wp_assert_bind (fun _ => ?_) fun hf => ?_
    · generalize hlb : (if el = true then stringLenPrefix (w.str r).len off bufLen else []) = lenBytes
      refine wp_if (fun hshort => ?_) fun hlong => ?_
      · simp only [Bool.and_eq_true, Bool.not_eq_true', List.isEmpty_eq_false_iff, decide_eq_true_eq] at hshort
        obtain ⟨⟨rfl, hne⟩, hle⟩ := hshort
        exact hsent _ _ (stringLen_sent w v r ie off bufLen hr hn hready hcv hnoted ⟨hstr, happ⟩ lenBytes hlb.symm hne hle)
      · have hall : lenBytes = stringLenLeft el (w.str r).len off ∧ lenBytes.length < bufLen := by
          cases el with
          | false =>
            rw [← hlb]
            exact ⟨rfl, Nat.pos_of_ne_zero hfull⟩
          | true =>
            simp only [Bool.true_and, Bool.and_eq_true, Bool.not_eq_true', List.isEmpty_eq_false_iff, decide_eq_true_eq,
              not_and] at hlong
            have htake : lenBytes = (stringLenLeft true (w.str r).len off).take bufLen := hlb.symm
            by_cases hnil : lenBytes = []
            · have hlen := congrArg List.length htake
              rw [hnil, List.length_nil, List.length_take] at hlen
              have hzero : stringLenLeft true (w.str r).len off = [] := List.eq_nil_of_length_eq_zero (by omega)
              rw [hnil, hzero]
              exact ⟨rfl, Nat.pos_of_ne_zero hfull⟩
            · have hlt := hlong hnil
              have hlen := congrArg List.length htake
              rw [List.length_take] at hlen
              refine ⟨?_, by omega⟩
              rw [htake, List.take_of_length_le (by omega)]
        obtain ⟨rfl, hroom⟩ := hall
        exact hdata hn hroom
    · rw [Bool.or_eq_false_iff, decide_eq_false_iff_not] at hf
      refine hstuck _ _ hf.1 ⟨hn, ?_⟩
      have hsize := hf.2
      cases el with
      | false =>
        simp only [Bool.false_eq_true, if_false, add_zero] at hsize ⊢
        rw [toSize_of_bounds _ (by omega) (by omega)] at hsize
        omega
      | true =>
        simp only [if_true] at hsize ⊢
        rw [toSize_of_bounds _ (by omega) (by omega)] at hsize
        omega

/-- `string_encode`. -/
theorem stringEncode_sent (w : World σ) (r : StrRef) (el ie : Bool) (off bufLen : ℕ)
    (hs : (w.str r).read = true → env.Streams rest)
    (hready : w.Ready off (.str r el ie)) (hc : w.tx.internal.buffer.encoded = false) :
    Wp (stringEncode env r el ie off bufLen) w (Sent env rest (.str r el ie) w off bufLen) fun _ _ =>
      env.ndebug = false ∧ w.Stuck off (.str r el ie) := by
  refine stringEncode_parts w r el ie off bufLen hready hc (fun _ _ h => h) (fun hn hroom => ?_) fun _ _ hd hk => ⟨hd, hk⟩
  obtain ⟨hr, hform, hready⟩ := hready
  have hnoted : Drawn rest r w (w.setTx { w.tx.internal with
      buffer := { w.tx.internal.buffer with blockingStr := none } }) := .noted w none _
  have hi : (w.setTx { w.tx.internal with buffer := { w.tx.internal.buffer with blockingStr := none } }).str r = w.str r :=
    str_setTx ..
  generalize hv : w.setTx { w.tx.internal with buffer := { w.tx.internal.buffer with blockingStr := none } } = v at hnoted hi ⊢
  have h := stringEncodeData_sent v r el ie off bufLen
    (bufLen - (stringLenLeft el (w.str r).len off).length) (by rwa [hi]) hr hform (by rwa [hi]) (by rwa [hi])
    (by rw [← hv]; exact hc) (by omega) (by rw [hi]; omega)
  rw [hi] at h
  refine h.mono (fun x u hu => hu.from hr hnoted ?_ ?_ ?_) fun _ _ h => h.elim
  · rw [← hv]
    exact ⟨rfl, rfl, rfl⟩
  · rw [← hv, left_setTx]
  · rw [← hv, supplied_setTx]

/-! ### Encoders -/

/- A remaining length that can be encoded. -/
def Encodable (len : ℤ) : Prop := 0 ≤ len ∧ len ≤ 0x0fffffff

/-- What the builder of a header asserts. -/
def Encoder.Valid (h : Heap) (v : Value) : Encoder → Prop
  | .connectFixedHeader => Encodable (connectCalcRemainingLength (h.connects v.value))
  | .subscribeHeaderSubscribe => Encodable (subscribeCalcRemainingLength (h.subscribes v.value) true)
  | .subscribeHeaderUnsubscribe => Encodable (subscribeCalcRemainingLength (h.subscribes v.value) false)
  | .publishFixedHeader => publishValidate (h.publishes v.value) = true ∧
      Encodable (publishCalcRemainingLength (h.publishes v.value))
  | _ => True

/- An assertion that is evaluated fails. -/
def World.Asserts (env : Env σ) (w : World σ) (v : Value) (x : Encoder) (off : ℕ) (f : Field) : Prop :=
  env.ndebug = false ∧ (¬ x.Valid w.heap v ∨ w.Stuck off f)

theorem encodeRemainingLength_wp (w : World σ) (len : ℤ) :
    Wp (encodeRemainingLength env len) w (fun bs u => bs = lengthBytes len ∧ u = w) fun _ _ =>
      env.ndebug = false ∧ ¬ Encodable len := by
  refine wp_assert_bind (fun _ => ⟨rfl, rfl⟩) fun hf => ?_
  rw [Bool.or_eq_false_iff] at hf
  refine ⟨hf.1, fun h => ?_⟩
  have hle := hf.2
  simp only [Bool.and_eq_false_iff, decide_eq_false_iff_not] at hle
  obtain ⟨hlo, hhi⟩ := h
  omega

theorem idPacket_wp (w : World σ) (first : ℕ) (len : ℤ) (id : PacketId) :
    Wp (encodeBufferEncodePacketId env first len id) w (fun bs u => bs = idPacket first len id ∧ u = w) fun _ _ =>
      env.ndebug = false ∧ ¬ Encodable len := by
  simp only [encodeBufferEncodePacketId, wp_bind]
  refine (encodeRemainingLength_wp w len).mono (fun bs u hu => ?_) fun _ _ h => h
  obtain ⟨rfl, rfl⟩ := hu
  exact ⟨rfl, rfl⟩

theorem header_sent (w : World σ) (builder : Value → Prog σ (List Byte)) (v : Value) (x : Encoder) (off bufLen : ℕ)
    (bytes : List Byte) (hr : w.Ready off (.header bytes)) (hc : w.tx.internal.buffer.Caches (.header bytes))
    (hb : Wp (builder v) w (fun built u => built = bytes ∧ u = w) fun _ _ => env.ndebug = false ∧ ¬ x.Valid w.heap v) :
    Wp (encodeBufferEncode env builder v off bufLen) w (Sent env rest (.header bytes) w off bufLen) fun _ _ =>
      w.Asserts env v x off (.header bytes) :=
  encodeBufferEncode_sent w builder v bytes off bufLen hr hc _ (hb.mono (fun _ _ h => h) fun _ _ h => ⟨h.1, .inl h.2⟩)

/-- Every encoder sends its field. -/
theorem runEncoder_sent (w : World σ) (v : Value) (x : Encoder) (off bufLen : ℕ)
    (hs : w.InMemory (x.field w.heap v (w.heap.subscribes v.value).current) ∨ env.Streams rest)
    (hr : w.Ready off (x.field w.heap v (w.heap.subscribes v.value).current))
    (hc : w.tx.internal.buffer.Caches (x.field w.heap v (w.heap.subscribes v.value).current)) :
    Wp (runEncoder env v off bufLen x) w (Sent env rest (x.field w.heap v (w.heap.subscribes v.value).current) w off bufLen)
      fun _ _ => w.Asserts env v x off (x.field w.heap v (w.heap.subscribes v.value).current) := by
  have hstr : ∀ r el ie, x.field w.heap v (w.heap.subscribes v.value).current = .str r el ie →
      Wp (stringEncode env r el ie off bufLen) w
        (Sent env rest (x.field w.heap v (w.heap.subscribes v.value).current) w off bufLen)
        fun _ _ => w.Asserts env v x off (x.field w.heap v (w.heap.subscribes v.value).current) := by
    intro r el ie hf
    have hread : (w.str r).read = true → env.Streams rest := by
      intro hread
      rcases hs with hmem | hs
      · rw [hmem r el ie hf] at hread
        contradiction
      · exact hs
    rw [hf] at hr hc ⊢
    refine (stringEncode_sent w r el ie off bufLen hread hr ?_).mono (fun _ _ h => h) fun _ _ h => ⟨h.1, .inr h.2⟩
    by_contra he
    have hcached := hc (by simpa using he)
    contradiction
  have hlen : ∀ (first : Byte) (len : ℤ) (u : World σ), (¬ Encodable len → ¬ x.Valid w.heap v) → u = w →
      Wp (do let digits ← encodeRemainingLength env len; pure (first :: digits) : Prog σ (List Byte)) u
        (fun built u => built = first :: lengthBytes len ∧ u = w) fun _ _ => env.ndebug = false ∧ ¬ x.Valid w.heap v := by
    intro first len u hv hu
    rw [wp_bind, hu]
    refine (encodeRemainingLength_wp w len).mono (fun bs t ht => ?_) fun _ _ h => ⟨h.1, hv h.2⟩
    obtain ⟨rfl, rfl⟩ := ht
    exact ⟨rfl, rfl⟩
  have hid : ∀ first len id, (¬ Encodable len → ¬ x.Valid w.heap v) →
      Wp (encodeBufferEncodePacketId env first len id) w (fun built u => built = idPacket first len id ∧ u = w)
        fun _ _ => env.ndebug = false ∧ ¬ x.Valid w.heap v := fun first len id hv =>
    (idPacket_wp w first len id).mono (fun _ _ h => h) fun _ _ h => ⟨h.1, hv h.2⟩
  have hack : ∀ first id, Wp (encodeBufferEncodePacketId env first 2 id) w
      (fun built u => built = idPacket first 2 id ∧ u = w) fun _ _ => env.ndebug = false ∧ ¬ x.Valid w.heap v :=
    fun first id => hid first 2 id fun h => absurd ⟨by decide, by decide⟩ h
  cases x with
  | connectFixedHeader =>
    refine header_sent w _ v .connectFixedHeader off bufLen _ hr hc ?_
    rw [connectBuildFixedHeader, wp_bind, wp_get]
    exact hlen _ _ w id rfl
  | subscribeHeaderSubscribe | subscribeHeaderUnsubscribe =>
    refine header_sent w _ v _ off bufLen _ hr hc ?_
    rw [subscribeBuildHeader, wp_bind, wp_get]
    exact hid _ _ _ id
  | publishFixedHeader =>
    refine header_sent w _ v _ off bufLen _ hr hc ?_
    refine wp_assert_bind (fun _ => ?_) fun hf => ?_
    · exact hlen _ _ w (fun h hv => h hv.2) rfl
    · rw [Bool.or_eq_false_iff] at hf
      refine ⟨hf.1, fun hv => ?_⟩
      rw [hv.1] at hf
      exact absurd hf.2 (by decide)
  | pubackFixedHeader | pubrecFixedHeader | pubrelFixedHeader | pubcompFixedHeader =>
    exact header_sent w _ v _ off bufLen _ hr hc (hack _ _)
  | connectVariableHeader | subscribeQos | publishPacketId | pingreqFixedHeader | disconnectFixedHeader =>
    exact header_sent w _ v _ off bufLen _ hr hc ⟨rfl, rfl⟩
  | _ => exact hstr _ _ _ rfl

end LightMqtt
