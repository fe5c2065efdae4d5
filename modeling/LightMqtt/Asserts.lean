import LightMqtt.Base.Halting
import LightMqtt.Progress

/-!
# Assertions

An `assert()` of the decoder fails for two reasons only. The return code of a
CONNACK that declares more than two bytes is taken for its end; and a part of a
message whose first byte blocked is asked for once more, and is then ignored
with the mark of the block still set. No other input of the server trips one,
whatever has happened before.
-/

namespace LightMqtt

open Exec

variable {σ : Type} {env : Env σ}

/-! ### What asserts nothing -/

/- A program without assertions. -/
abbrev Calm {α : Type} (p : Prog σ α) : Prop := HaltsBy (· = .outOfFuel) p

theorem clientAppendRequest_calm (kind : Kind) (cb : Callback) (id : PacketId) (p : Ptr) :
    Calm (clientAppendRequest kind cb id p : Prog σ Bool) := by
  apply haltsBy_get_bind
  intro w
  dsimp only
  split
  · exact haltsBy_pure _
  · exact haltsBy_bind (haltsBy_set _) fun _ => haltsBy_pure _

theorem clientGetId_calm : Calm (clientGetId : Prog σ PacketId) :=
  haltsBy_get_bind fun _ => haltsBy_bind (haltsBy_set _) fun _ => haltsBy_pure _

theorem clientSubscribeWithKind_calm (p : Ptr) (kind : Kind) (cb : Callback) :
    Calm (clientSubscribeWithKind p kind cb : Prog σ Bool) := by
  apply haltsBy_get_bind
  intro w
  apply haltsBy_ite (haltsBy_pure _)
  exact haltsBy_bind clientGetId_calm fun id => clientAppendRequest_calm kind cb id p

theorem clientDoPublish_calm (p : Ptr) : Calm (clientDoPublish p : Prog σ Bool) := by
  apply haltsBy_get_bind
  intro w
  apply haltsBy_ite (haltsBy_pure _)
  apply haltsBy_ite (clientAppendRequest_calm _ _ _ _)
  exact haltsBy_bind clientGetId_calm fun id => clientAppendRequest_calm _ _ id p

theorem clientDoDisconnect_calm : Calm (clientDoDisconnect : Prog σ Bool) := by
  apply haltsBy_get_bind
  intro w
  split
  · exact haltsBy_pure _
  · exact haltsBy_bind (haltsBy_set _) fun _ => haltsBy_pure _

theorem doRequest_calm (q : Request) : Calm (doRequest q : Prog σ Bool) := by
  have hop : ∀ (op : World σ → Bool) {p : Prog σ Bool}, Calm p → Calm (do if op (← get) then p else pure false) :=
    fun _ _ hp => haltsBy_get_bind fun _ => haltsBy_ite hp (haltsBy_pure _)
  cases q with
  | subscribe p => exact hop (·.ops.subscribe) (clientSubscribeWithKind_calm _ _ _)
  | unsubscribe p => exact hop (·.ops.unsubscribe) (clientSubscribeWithKind_calm _ _ _)
  | publish p => exact hop (·.ops.publish) (clientDoPublish_calm p)
  | disconnect => exact hop (·.ops.disconnect) clientDoDisconnect_calm

theorem doRequests_calm (qs : List Request) : Calm (doRequests qs : Prog σ Unit) := by
  induction qs with
  | nil => exact haltsBy_pure _
  | cons q qs ih => exact haltsBy_bind (doRequest_calm q) fun _ => ih

theorem callUser_calm (f : Option (σ → Ptr → Bool → Reply σ)) (cb : Callback) (v : Value) (ok : Bool) :
    Calm (callUser doRequests f cb v ok) := by
  apply haltsBy_bind (haltsBy_modify _)
  intro _
  cases f with
  | none => exact haltsBy_pure _
  | some f =>
    apply haltsBy_get_bind
    intro w
    apply haltsBy_bind (haltsBy_set _)
    intro _
    exact haltsBy_bind (doRequests_calm _) fun _ => haltsBy_pure _

theorem clientFlushStore_calm {call : Value → Prog σ Bool} (hc : ∀ v, Calm (call v)) (r : StoreRef) (fuel : ℕ) :
    Calm (clientFlushStore call r fuel) := by
  induction fuel with
  | zero => exact haltsBy_get_bind fun _ => haltsBy_ite (haltsBy_throw rfl) (haltsBy_pure _)
  | succ fuel ih =>
    apply haltsBy_get_bind
    intro w
    split
    · exact haltsBy_pure _
    · rename_i e s hs
      apply haltsBy_bind (haltsBy_set _)
      intro _
      exact haltsBy_ite (haltsBy_bind (hc _) fun _ => ih) ih

theorem clientCleanupStores_calm {call : Value → Prog σ Bool} (hc : ∀ v, Calm (call v)) (keep : Bool) :
    Calm (clientCleanupStores env call keep) := by
  have hlast := clientFlushStore_calm hc .connect env.fuel
  apply haltsBy_ite
  · exact haltsBy_bind (haltsBy_modify _) fun _ => hlast
  · apply haltsBy_bind (clientFlushStore_calm hc .main env.fuel)
    intro _
    exact haltsBy_bind (haltsBy_modify _) fun _ => hlast

theorem clientSetStateConnected_calm {call : Value → Prog σ Bool} (hc : ∀ v, Calm (call v)) :
    Calm (clientSetStateConnected env call) := by
  apply haltsBy_bind (haltsBy_modify _)
  intro _
  apply haltsBy_bind (haltsBy_modify _)
  intro _
  apply haltsBy_get_bind
  intro w
  exact haltsBy_bind (clientCleanupStores_calm hc _) fun _ => haltsBy_modify _

theorem callCallback_calm (depth : ℕ) (v : Value) : Calm (callCallback env depth v) := by
  induction depth generalizing v with
  | zero =>
    rw [callCallback_requests]
    apply haltsBy_get_bind
    intro w
    split
    · exact haltsBy_pure _
    · exact haltsBy_ite (callUser_calm _ _ _ _) (haltsBy_throw rfl)
    all_goals first | exact callUser_calm _ _ _ _ | exact haltsBy_pure _
  | succ depth ih =>
    rw [callCallback_requests]
    apply haltsBy_get_bind
    intro w
    split
    · exact haltsBy_pure _
    · apply haltsBy_ite (callUser_calm _ _ _ _)
      apply haltsBy_bind (haltsBy_set _)
      intro _
      exact haltsBy_bind (clientSetStateConnected_calm ih) fun _ => callUser_calm _ _ _ _
    all_goals first | exact callUser_calm _ _ _ _ | exact haltsBy_pure _

/- Nothing is asserted inside a callback. -/
theorem callValue_calm (v : Value) : Calm (callValue env v) := callCallback_calm env.fuel v

/-! ### Strings of a message -/

/-- A string in memory has room for `m` more bytes. -/
def LString.Room (s : LString) (m : ℕ) : Prop :=
  s.write = false → s.buf.isSome = true → (s.pos : ℤ) + m ≤ s.len ∧ s.len < 2^64

/-- The callbacks for the strings of a message: a part that is taken gets a string with room for
the bytes that were asked for, if it is in memory; a write callback takes no more than it is
offered, and nothing while it blocks. -/
structure Env.Stores (env : Env σ) : Prop where
  allocate : ∀ (part : PublishPart) f, part.allocate env = some f → ∀ a b n, n < 2^63 → (f a b n).result = .success →
    (f a b n).str.Room n
  success : ∀ a d bs, bs ≠ [] → (env.strWrite a d bs).result = .success → (env.strWrite a d bs).count ≤ bs.length
  wouldBlock : ∀ a d bs, bs ≠ [] → (env.strWrite a d bs).result = .wouldBlock → (env.strWrite a d bs).count = 0

/-- Every part that is taken gets a string in memory. -/
def Env.InMemory (env : Env σ) : Prop :=
  ∀ (part : PublishPart) f, part.allocate env = some f → ∀ a b n, (f a b n).result = .success →
    (f a b n).str.write = false ∧ (f a b n).str.buf.isSome = true

/- A string of the message with room for `m` more bytes. -/
def LString.Backed (env : Env σ) (s : LString) (m : ℕ) : Prop :=
  s.Room m ∧ (env.InMemory → s.write = false ∧ s.buf.isSome = true)

/- What a write of `bs` leaves of a string with room for `m` bytes. -/
structure StringLeft (env : Env σ) (part : PublishPart) (m : ℕ) (bs : List Byte) (w : World σ) (res : StringResult) (c : ℕ)
    (v : World σ) : Prop where
  rx : v.rx.internal = { w.rx.internal with publish := v.rx.internal.publish }
  blocked : res = .wouldBlock → c = 0 ∧ ¬ env.InMemory
  count : res = .success ∨ res = .wouldBlock → c ≤ bs.length
  room : res = .success ∨ res = .wouldBlock → (v.str part.str).Backed env (m - c)

section Strings
variable {w : World σ} {m : ℕ}

theorem LString.Room.less {s : LString} (h : s.Room m) {k : ℕ} (hk : k ≤ m) : s.Room k := by
  intro hw hb
  obtain ⟨hle, hlt⟩ := h hw hb
  exact ⟨by omega, hlt⟩

theorem str_setStr (w : World σ) (part : PublishPart) (s : LString) : (w.setStr part.str s).str part.str = s ∧
    (w.setStr part.str s).rx.internal = { w.rx.internal with publish := (w.setStr part.str s).rx.internal.publish } := by
  cases part <;> exact ⟨rfl, rfl⟩

theorem stringWrite_left (hm : env.Stores) (part : PublishPart) (bs : List Byte) (hs : (w.str part.str).Backed env m)
    (hk : bs.length ≤ m) :
    Wp (stringWrite env part.str bs) w (fun x v => StringLeft env part m bs w x.1 x.2.1 v) fun _ _ => False := by
  simp only [stringWrite, wp_bind, wp_get]
  refine wp_if (fun _ => ?_) fun _ => wp_if (fun hnil => ?_) fun hne => wp_if (fun hw => ?_) fun hw => ?_
  · exact ⟨rfl, fun h => by contradiction, fun h => by simp at h, fun h => by simp at h⟩
  · exact ⟨rfl, fun h => by contradiction, fun _ => Nat.zero_le _, fun _ => hs⟩
  · have hbs : bs ≠ [] := fun h => hne (by rw [h]; rfl)
    simp only [wp_bind, wp_set]
    -- the string is not in memory
    have hno : ¬ env.InMemory := by
      intro hin
      rw [(hs.2 hin).1] at hw
      contradiction
    have hstr : ∀ a k, (({ w with app := a } : World σ).str part.str).Backed env k := by
      intro a k
      rw [show ({ w with app := a } : World σ).str part.str = w.str part.str by cases part <;> rfl]
      refine ⟨fun h => ?_, fun h => absurd h hno⟩
      rw [hw] at h
      contradiction
    cases hres : (env.strWrite w.app (w.str part.str).data bs).result with
    | success => exact ⟨rfl, fun h => by contradiction, fun _ => hm.success _ _ _ hbs hres, fun _ => hstr _ _⟩
    | wouldBlock =>
      have hzero := hm.wouldBlock _ _ _ hbs hres
      exact ⟨rfl, fun _ => ⟨hzero, hno⟩, fun _ => by rw [hzero]; exact Nat.zero_le _, fun _ => hstr _ _⟩
    | error => exact ⟨rfl, fun h => by contradiction, fun h => by simp at h, fun h => by simp at h⟩
  · cases hmem : (w.str part.str).buf with
    | none => exact ⟨rfl, fun h => by contradiction, fun h => by simp at h, fun h => by simp at h⟩
    | some mem =>
      have hmemory : (w.str part.str).write = false := by simpa using hw
      obtain ⟨hle, hlt⟩ := hs.1 hmemory (by rw [hmem]; rfl)
      simp only [wp_bind, wp_assert, wp_set, wp_pure]
      have hroom : toSize ((w.str part.str).pos + bs.length) ≤ toSize (w.str part.str).len := by
        rw [toSize_of_bounds _ (by omega) (by omega), toSize_of_bounds _ (by omega) hlt]
        omega
      rw [if_pos (by simp [hroom])]
      obtain ⟨hself, hrx⟩ := str_setStr w part { w.str part.str with
        buf := some (overwrite mem (w.str part.str).pos bs), pos := (w.str part.str).pos + bs.length }
      refine ⟨hrx, fun h => by contradiction, fun _ => le_rfl, fun _ => ?_⟩
      rw [hself]
      refine ⟨fun _ _ => ?_, fun _ => ⟨hmemory, rfl⟩⟩
      change ((((w.str part.str).pos + bs.length : ℕ) : ℤ) + (m - bs.length : ℕ) ≤ (w.str part.str).len) ∧
        (w.str part.str).len < 2^64
      omega

end Strings

section Parts
variable {w : World σ} {p : PartPlace} {bs : List Byte}

/- A message that is not ignored has a callback for the part, and behind its first
   byte a string that holds what came so far. -/
def World.Prepared (env : Env σ) (w : World σ) (p : PartPlace) : Prop :=
  w.rx.internal.ignorePublish = false → (p.part.allocate env).isSome = true ∧
    (p.start < w.rx.internal.remainBufPos → (w.str p.part.str).Backed env (p.len - (w.rx.internal.remainBufPos - p.start)))

/-- What reading a part leaves: `c` bytes were taken. -/
structure PartLeft (env : Env σ) (w : World σ) (p : PartPlace) (bs : List Byte) (c : ℕ) (v : World σ) : Prop where
  rx : v.rx.internal = { w.rx.internal with
    publish := v.rx.internal.publish, ignorePublish := v.rx.internal.ignorePublish
    blockingStr := v.rx.internal.blockingStr, osError := v.rx.internal.osError }
  count : c ≤ p.len - (w.rx.internal.remainBufPos - p.start)
  ignored : w.rx.internal.ignorePublish = true → v.rx.internal.ignorePublish = true
  room : v.rx.internal.ignorePublish = false →
    (v.str p.part.str).Backed env (p.len - (w.rx.internal.remainBufPos - p.start + c))
  blocked : v.rx.internal.ignorePublish = false → v.rx.internal.blockingStr.isSome = true → c = 0 ∧ ¬ env.InMemory
  kept : v.rx.internal.ignorePublish = true → v.rx.internal.blockingStr = w.rx.internal.blockingStr ∧
    c = (w.chunk p bs).length

theorem rxBufferAllocateFirst_left (hm : env.Stores) (hp : p.start ≤ w.rx.internal.remainBufPos) (hw : w.Prepared env p)
    (hn : p.len < 2^63) :
    Wp (rxBufferAllocateFirst env (p.start + 1) p.part p.len) w (fun ok v => ok = true →
      v.rx.internal = { w.rx.internal with
        publish := v.rx.internal.publish, ignorePublish := v.rx.internal.ignorePublish, osError := v.rx.internal.osError } ∧
      (w.rx.internal.ignorePublish = true → v.rx.internal.ignorePublish = true) ∧
      (v.rx.internal.ignorePublish = false →
        (v.str p.part.str).Backed env (p.len - (w.rx.internal.remainBufPos - p.start)))) fun _ _ => False := by
  have hboth := (rxBufferAllocateFirst_spec env w p).and (rxBufferAllocateFirst_calm env p w)
  refine hboth.mono (fun ok v hv hok => ?_) fun _ _ h => h.2
  obtain ⟨⟨-, hrx, -, hyes⟩, -⟩ := hv
  obtain ⟨herr, hskips, haccepts, htarget⟩ := hyes hok
  refine ⟨?_, fun hi => ?_, fun hi => ?_⟩
  · rw [hrx, herr]
  · rw [hskips, World.skips]
    simp [World.allocation, hi]
  · rw [hi] at hskips
    rw [← hskips] at haccepts
    have hstr : v.str p.part.str = (w.target env p).1 := by rw [htarget]
    rw [hstr]
    cases ha : w.allocation env p with
    | none =>
      simp only [World.skips, ha] at hskips
      obtain ⟨hsome, hfilled⟩ := hw hskips.symm
      simp only [World.target, ha]
      apply hfilled
      -- the first byte of a part is not read without an allocation
      obtain ⟨f, hf⟩ := Option.isSome_iff_exists.mp hsome
      have hne : w.rx.internal.remainBufPos ≠ p.start := by
        intro heq
        simp [World.allocation, hskips.symm, heq, hf] at ha
      omega
    | some a =>
      simp only [World.accepts, ha, Bool.not_false, decide_eq_true_eq] at haccepts
      simp only [World.target, ha]
      unfold World.allocation at ha
      split at ha
      · rename_i hfirst
        obtain ⟨f, hf, rfl⟩ := Option.map_eq_some_iff.mp ha
        exact ⟨(hm.allocate p.part f hf _ _ _ hn haccepts).less (Nat.sub_le _ _), fun hin => hin p.part f hf _ _ _ haccepts⟩
      · contradiction

theorem rxBufferWritePart_left (hm : env.Stores) (bs : List Byte) {m : ℕ}
    (hw : w.rx.internal.ignorePublish = false → (w.str p.part.str).Backed env m) (hk : bs.length ≤ m) :
    Wp (rxBufferWritePart env p.part bs) w (fun r v => ∀ c, r = some c → c ≤ bs.length ∧
      v.rx.internal = { w.rx.internal with publish := v.rx.internal.publish, blockingStr := v.rx.internal.blockingStr } ∧
      (v.rx.internal.ignorePublish = false → (v.str p.part.str).Backed env (m - c)) ∧
      (v.rx.internal.ignorePublish = false → v.rx.internal.blockingStr.isSome = true → c = 0 ∧ ¬ env.InMemory) ∧
      (v.rx.internal.ignorePublish = true → v.rx.internal.blockingStr = w.rx.internal.blockingStr ∧ c = bs.length))
      fun _ _ => False := by
  simp only [rxBufferWritePart, wp_bind, wp_get]
  refine wp_if (fun hi => ?_) fun hi => ?_
  · intro c hc
    cases hc
    refine ⟨le_rfl, rfl, fun h => ?_, fun h => ?_, fun _ => ⟨rfl, rfl⟩⟩ <;>
      rw [hi] at h <;> contradiction
  · have hi : w.rx.internal.ignorePublish = false := by simpa using hi
    simp only [wp_bind, wp_modify]
    obtain ⟨t, ht⟩ : ∃ t, t = w.setRx { w.rx.internal with blockingStr := none } := ⟨_, rfl⟩
    have hstr : t.str p.part.str = w.str p.part.str := by
      rw [ht]
      exact str_rx w _ p.part rfl
    have htrx : t.rx.internal = { w.rx.internal with blockingStr := none } := by
      rw [ht]
      rfl
    rw [← ht]
    have hwrite := stringWrite_left (w := t) hm p.part bs (by rw [hstr]; exact hw hi) hk
    refine hwrite.mono (fun x v hv => ?_) fun _ _ h => h
    obtain ⟨res, count, osError⟩ := x
    have hrx := hv.rx
    cases res with
    | success =>
      intro c hc
      cases hc
      refine ⟨hv.count (.inl rfl), ?_, fun _ => hv.room (.inl rfl), fun _ h => ?_, fun h => ?_⟩
      · rw [hrx, htrx]
      · rw [hrx, htrx] at h
        contradiction
      · rw [hrx, htrx, show ({ w.rx.internal with blockingStr := none } : RxInternal).ignorePublish = false from hi] at h
        contradiction
    | wouldBlock =>
      intro c hc
      cases hc
      refine ⟨hv.count (.inr rfl), ?_, fun _ => ?_, fun _ _ => hv.blocked rfl, fun h => ?_⟩
      · simp only [World.setRx]
        rw [hrx, htrx]
      · exact (str_rx v { v.rx.internal with blockingStr := some p.part.str } p.part rfl).symm ▸ hv.room (.inr rfl)
      · have hvi : v.rx.internal.ignorePublish = false := by
          rw [hrx, htrx]
          exact hi
        exact absurd (hvi.symm.trans h) (by decide)
    | _ =>
      intro c hc
      contradiction

theorem rxBufferDecodeString_left (hm : env.Stores) (hp : p.start ≤ w.rx.internal.remainBufPos) (hw : w.Prepared env p)
    (hn : p.len < 2^63) :
    Wp (rxBufferDecodeString env (p.start + 1) p.part p.len bs) w (fun r v => ∀ c, r = some c →
      c ≤ bs.length ∧ PartLeft env w p bs c v) fun _ _ => False := by
  have hsub : w.rx.internal.remainBufPos + 1 - (p.start + 1) = w.rx.internal.remainBufPos - p.start := by omega
  simp only [rxBufferDecodeString, rxBufferAllocateWrite, wp_bind, wp_get, hsub]
  have hlast : ∀ r v, (∀ c, r = some c → c ≤ bs.length ∧ PartLeft env w p bs c v) →
      Wp (do
        if r.isNone then rxBufferDeallocatePublish env
        pure r : Prog σ (Option ℕ)) v (fun r v => ∀ c, r = some c → c ≤ bs.length ∧ PartLeft env w p bs c v) fun _ _ =>
            False := by
    intro r v hv
    cases r with
    | none =>
      simp only [Option.isNone_none, if_true, wp_bind]
      refine (rxBufferDeallocatePublish_scratch env v).mono (fun _ _ _ c hc => ?_) fun _ _ h => h
      contradiction
    | some c => exact hv
  refine (rxBufferAllocateFirst_left hm hp hw hn).mono (fun ok t ht => ?_) fun _ _ h => h
  refine wp_if (fun hok => ?_) fun _ => ?_
  · obtain ⟨hrx, hign, hfill⟩ := ht hok
    have hlen : (bs.take (p.len - (w.rx.internal.remainBufPos - p.start))).length ≤ p.len -
        (w.rx.internal.remainBufPos - p.start) := List.length_take_le _ _
    refine (rxBufferWritePart_left (w := t) hm (bs.take (p.len - (w.rx.internal.remainBufPos - p.start))) hfill hlen).mono
      (fun r v hv => hlast r v fun c hc => ?_) fun _ _ h => h
    obtain ⟨hc, hvrx, hroom, hblocked, hkept⟩ := hv c hc
    have hvi : v.rx.internal.ignorePublish = t.rx.internal.ignorePublish := by rw [hvrx]
    refine ⟨hc.trans (List.length_take_le' _ _), ?_, hc.trans hlen, fun h => ?_, fun h => ?_, hblocked, fun h => ?_⟩
    · rw [hvrx, hrx]
    · rw [hvi]
      exact hign h
    · rw [← Nat.sub_sub]
      exact hroom h
    · obtain ⟨hsame, hc⟩ := hkept h
      exact ⟨by rw [hsame, hrx], hc⟩
  · exact hlast none t fun c hc => by contradiction

end Parts

/-! ### The decoder between two turns -/

/-- What the assertions rest on, besides the place in the packet: the header is one, a part
that was begun has room for the rest of it, only a part blocks, and a SUBACK has the length of
its SUBSCRIBE. -/
structure World.Poised (env : Env σ) (w : World σ) : Prop where
  fed : ∃ bs res, HeaderRead bs w.rx.internal.header res ∧ res ≠ .error
  wanted : w.rx.internal.inPublish = true → 2 < w.rx.internal.remainBufPos → w.rx.internal.ignorePublish = false →
    ∀ part : PublishPart, (part.allocate env).isSome = true
  room : w.rx.internal.inPublish = true → w.rx.internal.ignorePublish = false → ∀ p, w.rx.internal.place = some p →
    p.start < w.rx.internal.remainBufPos → (w.str p.part.str).Backed env (p.len - (w.rx.internal.remainBufPos - p.start))
  blocked : w.rx.internal.blockingStr.isSome = true → w.rx.internal.inPublish = true ∧
    w.rx.internal.ignorePublish = false ∧ w.rx.internal.place.isSome = true ∧ ¬ env.InMemory
  suback : w.rx.internal.decoder = some rxBufferDecoderSuback → 2 < w.rx.internal.remainBufPos →
    (w.heap.subscribes w.rx.internal.value.value).count + 2 = w.rx.internal.header.remainingLength

theorem World.Poised.fresh {w : World σ} (h : w.rx.internal = {}) : w.Poised env := by
  constructor
  · rw [h]
    exact ⟨[], .continue, .nothing, by decide⟩
  all_goals
    rw [h]
    intro hn
    contradiction

/- A header that was read announces no more than four bytes of length can. -/
theorem World.Poised.length {w : World σ} (h : w.Poised env) : w.rx.internal.header.remainingLength ≤ 268435455 := by
  obtain ⟨bs, res, hr, hne⟩ := h.fed
  generalize w.rx.internal.header = g at hr
  cases hr with
  | nothing => exact Nat.zero_le _
  | length first ds hfirst ho hlen => exact Nat.zero_le _
  | finished first ds d hfirst hd hlen =>
    obtain ⟨n, hn⟩ := (isFixedHeader_iff (first :: (ds ++ [d])) first).mpr ⟨hfirst, ds, d, rfl, hd, hlen⟩
    change Varint.value (ds ++ [d]) ≤ _
    rw [hn.value_eq]
    exact hn.length
  | failed bs g e he hno => exact absurd rfl hne

section Publish
variable {w : World σ} {bs : List Byte}

theorem RxInternal.Inside.place_fits {i : RxInternal} (hi : i.Inside) (hw : i.inPublish = true) {p : PartPlace}
    (hp : i.place = some p) : i.remainBufPos - p.start ≤ p.len ∧ p.start + p.len ≤ i.header.remainingLength := by
  obtain ⟨-, -, h2⟩ := RxInternal.place_start hp
  have hshort := hi.short ((RxInternal.inPublish_iff _).mp hw).1
  unfold RxInternal.place at hp
  split at hp
  · contradiction
  · have hfits := hi.fits hw (by omega)
    split at hp
    · cases hp
      dsimp only
      omega
    · split at hp
      · contradiction
      · cases hp
        dsimp only
        omega

/- A message that is not ignored behind its length has all its callbacks. -/
theorem World.Poised.prepared (h : w.Poised env) (hw : w.rx.internal.inPublish = true) :
    (2 ≤ w.rx.internal.remainBufPos → (w.ignoreUnwanted env).rx.internal.ignorePublish = false →
      ∀ part : PublishPart, (part.allocate env).isSome = true) ∧
    ∀ p, w.rx.internal.place = some p → (w.ignoreUnwanted env).Prepared env p := by
  obtain ⟨-, hur⟩ := ignoreUnwanted_rx env w
  have hwanted : 2 ≤ w.rx.internal.remainBufPos → (w.ignoreUnwanted env).rx.internal.ignorePublish = false →
      w.rx.internal.ignorePublish = false ∧ ∀ part : PublishPart, (part.allocate env).isSome = true := by
    intro h2 hi
    unfold World.ignoreUnwanted at hi
    split at hi
    · contradiction
    · rename_i hn
      refine ⟨hi, ?_⟩
      rcases Nat.lt_or_ge 2 w.rx.internal.remainBufPos with h3 | h3
      · exact h.wanted hw h3 hi
      · have hpos : w.rx.internal.remainBufPos + 1 = 3 := by omega
        simp only [hpos, true_and, Option.isNone_iff_eq_none, not_or, ← ne_eq, Option.ne_none_iff_isSome] at hn
        intro part
        cases part with
        | topic => exact hn.2.1
        | payload => exact hn.2.2
  refine ⟨fun h2 hi => (hwanted h2 hi).2, fun p hp hi => ?_⟩
  obtain ⟨-, hle, h2⟩ := RxInternal.place_start hp
  obtain ⟨hwi, hsome⟩ := hwanted (h2.trans hle) hi
  refine ⟨hsome _, fun hlt => ?_⟩
  have hpos : (w.ignoreUnwanted env).rx.internal.remainBufPos = w.rx.internal.remainBufPos := by rw [hur]
  have hstr : (w.ignoreUnwanted env).str p.part.str = w.str p.part.str := by
    unfold World.ignoreUnwanted
    split
    · exact str_rx w _ p.part rfl
    · rfl
  rw [hpos] at hlt ⊢
  rw [hstr]
  exact h.room hw hwi p hp hlt

/-- What reading a part of the body leaves. -/
inductive BodyLeft (env : Env σ) (w : World σ) (bs : List Byte) (c : ℕ) (v : World σ) : Prop
  | string (p : PartPlace) (hp : w.rx.internal.place = some p) (hc : c ≤ bs.length)
    (h : PartLeft env (w.ignoreUnwanted env) p bs c v)
  | number (hp : w.rx.internal.place = none) (hc : c = 1)
    (hrx : v.rx.internal = { w.rx.internal with
      topicLen := v.rx.internal.topicLen, packetId := v.rx.internal.packetId, ignorePublish := v.rx.internal.ignorePublish })
    (hi : 2 ≤ w.rx.internal.remainBufPos → v.rx.internal.topicLen = w.rx.internal.topicLen ∧
      v.rx.internal.ignorePublish = (w.ignoreUnwanted env).rx.internal.ignorePublish)

theorem rxBufferDecodePublishPart_left (hm : env.Stores) (hw : w.rx.internal.inPublish = true)
    (hi : w.rx.internal.Inside) (h : w.Poised env) :
    Wp (rxBufferDecodePublishPart env bs) w (fun r v => ∀ c, r = some c → BodyLeft env w bs c v) fun _ _ => False := by
  obtain ⟨-, hur⟩ := ignoreUnwanted_rx env w
  obtain ⟨-, hprep⟩ := h.prepared hw
  have hbound := h.length
  have hstring : ∀ p, w.rx.internal.place = some p → Wp (rxBufferDecodeString env (p.start + 1) p.part p.len bs)
      (w.ignoreUnwanted env) (fun r v => ∀ c, r = some c → BodyLeft env w bs c v) fun _ _ => False := by
    intro p hp
    obtain ⟨-, hle, -⟩ := RxInternal.place_start hp
    have hpos : (w.ignoreUnwanted env).rx.internal.remainBufPos = w.rx.internal.remainBufPos := by rw [hur]
    have hfits := hi.place_fits hw hp
    refine (rxBufferDecodeString_left hm (by rwa [hpos]) (hprep p hp) (by omega)).mono
      (fun r v hv c hc => ?_) fun _ _ h => h
    obtain ⟨hle, hleft⟩ := hv c hc
    exact .string p hp hle hleft
  simp only [rxBufferDecodePublishPart, wp_bind, wp_get]
  refine wp_if (fun h2 => ?_) fun h2 => ?_
  · have hnone : w.rx.internal.place = none := RxInternal.place_low (by omega)
    simp only [rxBufferDecodeTopicLen, wp_bind, wp_get, wp_set]
    refine wp_if (fun _ => fun c hc => by contradiction) fun _ => fun c hc => ?_
    cases hc
    exact .number hnone rfl rfl fun h => by omega
  · simp only [wp_bind, wp_modify]
    refine wp_if (fun ht => ?_) fun ht => wp_if (fun hid => ?_) fun hid => ?_
    · exact hstring ⟨.topic, 2, _⟩ (by rw [RxInternal.place, if_neg (by omega), if_pos (by omega)])
    · have hnone : w.rx.internal.place = none := by
        rw [RxInternal.place, if_neg (by omega), if_neg (by omega), if_pos (by omega)]
      simp only [rxBufferDecodePublishId, wp_bind, wp_get, wp_modify]
      intro c hc
      cases hc
      refine .number hnone rfl ?_ fun _ => ⟨?_, rfl⟩
      · simp only [World.setRx]
        rw [hur]
      · simp only [World.setRx]
        rw [hur]
    · exact hstring ⟨.payload, _, _⟩ (by
        rw [RxInternal.place, if_neg (by omega), if_neg (by omega), if_neg (by omega)])

variable {v : World σ} {c : ℕ}

theorem BodyLeft.frame (h : BodyLeft env w bs c v) : v.rx.internal = { w.rx.internal with
      topicLen := v.rx.internal.topicLen, packetId := v.rx.internal.packetId, publish := v.rx.internal.publish
      ignorePublish := v.rx.internal.ignorePublish, blockingStr := v.rx.internal.blockingStr
      osError := v.rx.internal.osError } ∧
    (2 ≤ w.rx.internal.remainBufPos → v.rx.internal.topicLen = w.rx.internal.topicLen) := by
  obtain ⟨-, hur⟩ := ignoreUnwanted_rx env w
  cases h with
  | string p hp hc h =>
    have hrx := h.rx
    constructor
    · rw [hrx, hur]
    · intro _
      rw [hrx, hur]
  | number hp hc hrx hi =>
    constructor
    · rw [hrx]
    · exact fun h2 => (hi h2).1

theorem RxInternal.place_congr {i j : RxInternal} (hp : j.remainBufPos = i.remainBufPos) (ht : j.topicLen = i.topicLen)
    (hh : j.header = i.header) : j.place = i.place := by
  unfold RxInternal.place
  rw [hp, ht, hh]

/- Behind the first byte of a part is where it went on. -/
theorem BodyLeft.place (h : BodyLeft env w bs c v) {p : PartPlace} (hp : (v.advance c).rx.internal.place = some p)
    (hlt : p.start < w.rx.internal.remainBufPos + c) :
        w.rx.internal.place = some p ∧ PartLeft env (w.ignoreUnwanted env) p bs c v := by
  obtain ⟨-, hur⟩ := ignoreUnwanted_rx env w
  obtain ⟨hrx, htopic⟩ := h.frame
  have hstart := (RxInternal.place_start hp).2.2
  have hpos : v.rx.internal.remainBufPos = w.rx.internal.remainBufPos := by rw [hrx]
  have hhead : v.rx.internal.header = w.rx.internal.header := by rw [hrx]
  have hplace : (v.advance c).rx.internal.place = { w.rx.internal with
      topicLen := v.rx.internal.topicLen, remainBufPos := w.rx.internal.remainBufPos + c }.place :=
    RxInternal.place_congr (by rw [← hpos]; rfl) rfl hhead
  rw [hplace] at hp
  cases h with
  | string q hq hc hleft =>
    have hcount := hleft.count
    have hupos : (w.ignoreUnwanted env).rx.internal.remainBufPos = w.rx.internal.remainBufPos := by rw [hur]
    rw [hupos] at hcount
    have hsame : p = q := by
      have h2 := (RxInternal.place_start hq)
      rw [htopic (h2.2.2.trans h2.2.1)] at hp
      unfold RxInternal.place at hp hq
      dsimp only at hp
      split at hq
      · contradiction
      · split at hq
        · cases hq
          dsimp only at hcount
          split at hp
          · contradiction
          · split at hp
            · cases hp
              rfl
            · split at hp
              · contradiction
              · cases hp
                dsimp only at hlt
                omega
        · split at hq
          · contradiction
          · cases hq
            rw [if_neg (by omega), if_neg (by omega), if_neg (by omega)] at hp
            exact (Option.some.inj hp).symm
    rw [hsame]
    exact ⟨hq, hleft⟩
  | number hq hc hrx hi =>
    rw [hc] at hp hlt
    rcases Nat.lt_or_ge w.rx.internal.remainBufPos 2 with hlow | h2
    · omega
    · rw [(hi h2).1] at hp
      unfold RxInternal.place at hp hq
      dsimp only at hp
      rw [if_neg (by omega)] at hp hq
      split at hq
      · contradiction
      · rw [if_neg (by omega)] at hp
        split at hq
        · split at hp
          · contradiction
          · cases hp
            dsimp only at hlt
            omega
        · contradiction

/- Between two parts, or inside of one. -/
theorem BodyLeft.poised (h : BodyLeft env w bs c v) (hw : w.rx.internal.inPublish = true) (hp : w.Poised env)
    (hb : v.rx.internal.blockingStr.isSome = true → v.rx.internal.ignorePublish = false ∧
      (v.advance c).rx.internal.place.isSome = true ∧ ¬ env.InMemory) : (v.advance c).Poised env := by
  obtain ⟨hrx, -⟩ := h.frame
  obtain ⟨hwanted, -⟩ := hp.prepared hw
  obtain ⟨-, hur⟩ := ignoreUnwanted_rx env w
  have hpos : (v.advance c).rx.internal.remainBufPos = w.rx.internal.remainBufPos + c := by
    simp only [World.advance, World.setRx]
    rw [hrx]
  have hign : (v.advance c).rx.internal.ignorePublish = v.rx.internal.ignorePublish := rfl
  constructor
  · simp only [World.advance, World.setRx]
    rw [hrx]
    exact hp.fed
  · intro _ h3 hi
    rw [hpos] at h3
    rw [hign] at hi
    cases h with
    | string q hq hc hleft =>
      obtain ⟨-, hle, h2⟩ := RxInternal.place_start hq
      refine hwanted (h2.trans hle) ?_
      by_contra hn
      have hn := hleft.ignored (by simpa using hn)
      rw [hi] at hn
      contradiction
    | number hq hc hrx hkeep =>
      have h2 : 2 ≤ w.rx.internal.remainBufPos := by omega
      rw [(hkeep h2).2] at hi
      exact hwanted h2 hi
  · intro _ hi p hplace hlt
    rw [hpos] at hlt ⊢
    rw [hign] at hi
    obtain ⟨hq, hleft⟩ := h.place hplace hlt
    obtain ⟨-, hle, -⟩ := RxInternal.place_start hq
    have hroom := hleft.room hi
    have hupos : (w.ignoreUnwanted env).rx.internal.remainBufPos = w.rx.internal.remainBufPos := by rw [hur]
    have hsum : w.rx.internal.remainBufPos - p.start + c = w.rx.internal.remainBufPos + c - p.start := by omega
    rw [hupos, hsum] at hroom
    have hstr : (v.advance c).str p.part.str = v.str p.part.str := by cases p.part <;> rfl
    rwa [hstr]
  · intro hsome
    refine ⟨?_, hb hsome⟩
    simp only [World.advance, World.setRx]
    rw [hrx]
    exact hw
  · intro hd
    have hdec : v.rx.internal.decoder = some rxBufferDecoderPublish := by
      rw [hrx]
      exact ((RxInternal.inPublish_iff _).mp hw).2
    rw [show (v.advance c).rx.internal.decoder = v.rx.internal.decoder from rfl, hdec] at hd
    exact absurd hd (by decide)

/-- What the decoder of a PUBLISH makes of its bytes, if it does not fail. -/
inductive BytesLeft (env : Env σ) (w : World σ) (bs : List Byte) : DecodeResult × ℕ → World σ → Prop
  | onward {c : ℕ} {v : World σ} (h : BodyLeft env w bs c v) (hb : v.rx.internal.blockingStr = none)
    (hc : w.rx.internal.remainBufPos + c < w.rx.internal.header.remainingLength) : BytesLeft env w bs (.continue, c) v
  | blocked {c : ℕ} {v : World σ} (h : BodyLeft env w bs c v) (hb : v.rx.internal.blockingStr.isSome = true) :
    BytesLeft env w bs (.wouldBlock, c) v
  | failed {c : ℕ} {v : World σ} : BytesLeft env w bs (.error, c) v
  | ended {c : ℕ} {v : World σ} (hc : w.rx.internal.remainBufPos + c = w.rx.internal.header.remainingLength) :
    BytesLeft env w bs (.finished, c) v

/- A turn takes no bytes from behind its packet. -/
theorem BodyLeft.within (h : BodyLeft env w bs c v) (hw : w.rx.internal.inPublish = true) (hi : w.rx.internal.Inside) :
    w.rx.internal.remainBufPos + c ≤ w.rx.internal.header.remainingLength := by
  obtain ⟨-, hur⟩ := ignoreUnwanted_rx env w
  cases h with
  | string p hp hc h =>
    have hcount := h.count
    have hupos : (w.ignoreUnwanted env).rx.internal.remainBufPos = w.rx.internal.remainBufPos := by rw [hur]
    rw [hupos] at hcount
    have hfits := hi.place_fits hw hp
    have hstart := RxInternal.place_start hp
    omega
  | number hp hc hrx hkeep =>
    have hshort := hi.short ((RxInternal.inPublish_iff _).mp hw).1
    omega

theorem rxBufferDecodePublish_left (hm : env.Stores) (hb : bs ≠ []) (hw : w.rx.internal.inPublish = true)
    (hi : w.rx.internal.Inside) (h : w.Poised env) (hwe : w.error = none) :
    Wp (rxBufferDecodePublish env bs) w (BytesLeft env w bs) fun _ _ => False := by
  simp only [rxBufferDecodePublish]
  refine wp_assert_bind (fun _ => ?_) fun hn => absurd hn (by simp [hb])
  simp only [wp_bind, wp_get]
  refine ((rxBufferDecodePublishPart_left hm hw hi h).and (rxBufferDecodePublishPart_scratch env w bs)).mono
    (fun r v hv => ?_) fun _ _ h => h.1
  obtain ⟨hv, hscr⟩ := hv
  cases r with
  | none => exact .failed
  | some c =>
    have hleft := hv c rfl
    have hwithin := hleft.within hw hi
    simp only [wp_bind, wp_get]
    refine wp_if (fun hblock => .blocked hleft hblock) fun hblock => wp_if (fun hc => ?_) fun hc => ?_
    · exact .onward hleft (by simpa using hblock) (by omega)
    · have hve : v.error = none := hscr.toRxScratch.steady.error.trans hwe
      have hboth := (rxBufferFinishPublish_spec env (fun _ => True) v hve).and (rxBufferFinishPublish_settled env v)
      refine (wp_bind ..).mpr (hboth.mono (fun res u hu => ?_) fun _ _ h => h.1)
      obtain ⟨-, -, rfl | rfl⟩ := hu
      · exact .ended (by omega)
      · exact .failed

end Publish

/-! ### What trips an assertion -/

/-- The decoder is at the return code of a CONNACK that declares more than two bytes, and the
connection is accepted. -/
structure World.LongConnack (w : World σ) (bs : List Byte) : Prop where
  finished : w.rx.internal.headerFinished = true
  decoder : w.rx.internal.decoder = some rxBufferDecoderConnack
  pos : w.rx.internal.remainBufPos = 1
  code : bs.headD 0 = 0
  long : 2 < w.rx.internal.header.remainingLength

/-- A part whose first byte blocked is asked for again, and is ignored now. -/
structure World.IgnoredLate (env : Env σ) (w : World σ) : Prop where
  inPublish : w.rx.internal.inPublish = true
  blocked : w.rx.internal.blockingStr.isSome = true
  ignored : w.skipping env = true

def World.Trips (env : Env σ) (w : World σ) (bs : List Byte) : Prop := w.LongConnack bs ∨ w.IgnoredLate env

section Turn
variable {w : World σ} {bs : List Byte}

/- The end of a packet: there is room for the PUBREL that replaces a PUBLISH, and a callback
   that may fail has an error to report. -/
theorem rxBufferFinishPacket_calm (d : Decoder) (hroom : d.kind = some .publish2 → w.rxStore.count < w.rxStore.capacity)
    (hidle : d.kind ≠ some .publish2 → d.callbackError = none →
      w.rx.internal.value.callback = none ∨ w.rx.internal.value.callback = some .onPingresp) :
    Wp (rxBufferFinishPacket env d) w (fun ok u => if ok then u.rx.internal = {} else u.rx.internal.error.isSome = true)
      fun h _ => h = .outOfFuel := by
  simp only [rxBufferFinishPacket, emitFinished, lmqttRxBufferReset, wp_bind, wp_get]
  refine wp_if (fun hk => wp_if (fun _ => ?_) fun _ => rfl) fun hk => ?_
  · obtain ⟨s, hs⟩ := Store.append_isSome w.rxStore ⟨.pubrel, w.rx.internal.value⟩ (hroom hk)
    simp only [hs]
    rfl
  · simp only [wp_bind, wp_modify]
    have hfail : Wp (callValue env w.rx.internal.value) w.decoded (fun ok _ => ok = false → d.callbackError.isSome = true)
        fun _ _ => True := by
      cases hn : d.callbackError with
      | none =>
        unfold Wp
        rw [callValue_idle env w.decoded _ (hidle hk hn)]
        intro h
        contradiction
      | some e => exact (wp_true _ _).mono (fun _ _ _ _ => rfl) fun _ _ h => h
    refine ((callValue_calm w.rx.internal.value).with hfail).mono (fun ok t ht => ?_) fun _ _ h => h
    refine wp_if (fun hok => ?_) fun hok => ?_
    · simp only [wp_bind, wp_modify, wp_pure, if_true]
      rfl
    · have hsome := ht (by simpa using hok)
      refine wp_assert_bind (fun _ => ?_) fun hn => by simp [hsome] at hn
      simp only [wp_bind, wp_modify, wp_pure]
      rw [if_neg (by decide)]
      exact hsome

variable (env) in
theorem rxBufferEndTurn_calm (d : Decoder) (count : ℕ) (hd : w.rx.internal.decoder = some d)
    (hdone : rxBufferIsPacketFinished w.rx.internal = true →
      (d.kind = some .publish2 → w.rxStore.count < w.rxStore.capacity) ∧
      (d.kind ≠ some .publish2 → d.callbackError = none →
        w.rx.internal.value.callback = none ∨ w.rx.internal.value.callback = some .onPingresp))
    (hw : rxBufferIsPacketFinished w.rx.internal = false → w.Poised env) :
    Wp (rxBufferEndTurn env count) w (fun _ u => u.rx.internal.error = none → u.Poised env) fun h _ => h = .outOfFuel := by
  simp only [rxBufferEndTurn, wp_bind, wp_get, hd]
  refine wp_if (fun hfin => ?_) fun hn => fun _ => hw (by simpa using hn)
  obtain ⟨hroom, hidle⟩ := hdone hfin
  refine (wp_bind ..).mpr ((rxBufferFinishPacket_calm d hroom hidle).mono (fun ok u hu => ?_) fun _ _ h => h)
  cases ok with
  | true => exact fun _ => .fresh hu
  | false =>
    intro hn
    rw [hn] at hu
    contradiction

theorem publishTurn_poised (hm : env.Stores) (hd : env.ndebug = false) (hb : bs ≠ []) (hw : w.rx.internal.inPublish = true)
    (hi : w.rx.internal.Inside) (h : w.Poised env) (hwe : w.error = none) (hv : w.rx.internal.value = {}) :
    Wp (rxBufferDecodeBodyTurn env rxBufferDecoderPublish bs) w (fun _ u => u.rx.internal.error = none → u.Poised env)
      fun x _ => x = .outOfFuel ∨ w.IgnoredLate env := by
  rw [publishTurn_wp]
  have hboth := (rxBufferDecodePublish_left hm hb hw hi h hwe).and
      ((rxBufferDecodePublish_spec env (fun _ => True) w bs hwe).and
    (rxBufferDecodePublish_decoded env w bs hw))
  have hshort := hi.short ((RxInternal.inPublish_iff _).mp hw).1
  refine hboth.mono (fun r v hr => ?_) fun _ _ h => h.1.elim
  obtain ⟨hleft, hdec, hdecoded⟩ := hr
  have hpos := hdec.kept.pos
  have hhead := hdec.kept.header
  have hvd := hdec.kept.decoder.trans ((RxInternal.inPublish_iff _).mp hw).2
  cases hleft with
  | failed =>
    rw [if_pos rfl]
    have hwhy := hdec.why rfl
    unfold Wp
    dsimp only [pure, EStateM.pure]
    rw [decodedBytes_error hwhy]
    intro hn
    rw [hn] at hwhy
    contradiction
  | @onward c _ hleft hblock hc =>
    have hmore : v.rx.internal.remainBufPos + c < v.rx.internal.header.remainingLength := by rwa [hpos, hhead]
    refine wp_if (fun h => by contradiction) fun _ => wp_assert_bind (fun _ => ?_) fun hn => by simp [hmore] at hn
    unfold Wp
    dsimp only [pure, EStateM.pure]
    rw [decodedBytes_continue hmore]
    refine fun _ => hleft.poised hw h fun hsome => ?_
    rw [hblock] at hsome
    contradiction
  | @blocked c _ hleft hblock =>
    obtain ⟨hrx, htopic⟩ := hleft.frame
    refine wp_if (fun h => by contradiction) fun _ => ?_
    have hlate : (v.rx.internal.ignorePublish = false ∧ (c = 0 ∧ ¬ env.InMemory) ∧ ∃ p, w.rx.internal.place = some p) ∨
        w.IgnoredLate env ∧ 0 < c := by
      cases hleft with
      | number hp hc hnum hkeep =>
        rw [hnum] at hblock
        have hplace := (h.blocked hblock).2.2.1
        rw [hp] at hplace
        contradiction
      | string p hp hc hpart =>
        cases hvi : v.rx.internal.ignorePublish with
        | false => exact .inl ⟨rfl, hpart.blocked hvi hblock, p, hp⟩
        | true =>
          obtain ⟨hsame, hcount⟩ := hpart.kept hvi
          have hskip : v.rx.internal.ignorePublish = w.skipping env := by
            cases hdecoded with
            | blocked hread _ => rw [hread.rx]
            | ended u _ _ _ hres => simp at hres
          refine .inr ⟨⟨hw, ?_, hskip.symm.trans hvi⟩, ?_⟩
          · rw [hsame, (ignoreUnwanted_rx env w).2] at hblock
            exact hblock
          · have hpos := share_pos hi hw hb
            simp only [World.share, hp] at hpos
            have hsame : (w.ignoreUnwanted env).chunk p bs = w.chunk p bs := by
              unfold World.chunk
              rw [(ignoreUnwanted_rx env w).2]
            rw [hcount, hsame]
            exact hpos
    rcases hlate with ⟨hvi, ⟨hc, hno⟩, p, hp⟩ | ⟨hlate, hc⟩
    · have hmore : v.rx.internal.remainBufPos + c < v.rx.internal.header.remainingLength := by
        rw [hpos, hhead, hc]
        exact hshort
      refine wp_assert_bind (fun _ => ?_) fun hn => by simp [hmore] at hn
      simp only [wp_pure, rxBufferDecodedBytes, wp_bind, wp_assert]
      rw [if_pos (by simp [hc])]
      obtain ⟨-, hle, h2⟩ := RxInternal.place_start hp
      have hplace : (v.advance 0).rx.internal.place = w.rx.internal.place :=
        RxInternal.place_congr hpos (htopic (h2.trans hle)) hhead
      have hpoised := hleft.poised hw h fun _ => ⟨hvi, by rw [hc, hplace, hp]; rfl, hno⟩
      rw [hc] at hpoised
      exact fun _ => hpoised
    · refine wp_assert_bind (fun _ => ?_) fun _ => .inr hlate
      simp only [wp_pure, rxBufferDecodedBytes, wp_bind, wp_assert]
      rw [if_neg (by simp [hd]; omega)]
      exact .inr hlate
  | @ended c _ hc =>
    have hall : v.rx.internal.remainBufPos + c = v.rx.internal.header.remainingLength := by rwa [hpos, hhead]
    refine wp_if (fun h => by contradiction) fun _ => wp_assert_bind (fun _ => ?_) fun hn => by simp [hall] at hn
    simp only [wp_pure, rxBufferDecodedBytes, wp_bind, wp_modify]
    have hvv : (v.advance c).rx.internal.value = {} := hdec.kept.value.trans hv
    have hend := rxBufferEndTurn_calm env (w := v.advance c) rxBufferDecoderPublish c hvd
    refine (hend (fun _ => ⟨fun h => by contradiction, fun _ _ => ?_⟩) fun hopen => ?_).mono
      (fun _ _ h => h) fun _ _ h => .inl h
    · rw [hvv]
      exact .inl rfl
    · have hfin : v.rx.internal.headerFinished = true :=
        hdec.kept.headerFinished.trans ((RxInternal.inPublish_iff _).mp hw).1
      simp [rxBufferIsPacketFinished, World.advance, World.setRx, hfin, hall] at hopen

end Turn

end LightMqtt
