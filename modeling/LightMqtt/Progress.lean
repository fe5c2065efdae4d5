import LightMqtt.Allocations

/-!
# Progress of the decoder

A turn of the loop of `lmqtt_rx_buffer_decode` takes a byte or is the last one,
but for one answer of the string write callback: SUCCESS with a count of 0 sends
the loop back to where it was.
-/

namespace LightMqtt

open Exec

variable {σ : Type} {env : Env σ}

/-- The write callback returns SUCCESS, and has taken nothing. -/
def World.Stalls (env : Env σ) (w : World σ) (bs : List Byte) : Prop :=
  ∃ a, w.writes env bs = some a ∧ a.result = .success ∧ a.count = 0

/-! ### A turn that stalls -/

section Stalled
variable {w : World σ} {bs : List Byte}

theorem writes_some {a : WriteReply σ} (h : w.writes env bs = some a) : w.rx.internal.inPublish = true ∧
    ∃ p, w.rx.internal.place = some p ∧ (w.ignoreUnwanted env).written env p bs = some a := by
  unfold World.writes at h
  split at h
  · rename_i hw
    obtain ⟨p, hp, h⟩ := Option.bind_eq_some_iff.mp h
    rw [(ignoreUnwanted_rx env w).2] at hp
    exact ⟨hw, p, hp, h⟩
  · contradiction

theorem written_reply {p : PartPlace} {u : World σ} {a : WriteReply σ} (h : u.written env p bs = some a) :
    ∃ app data cs, a = env.strWrite app data cs := by
  unfold World.written at h
  split at h
  · exact ⟨_, _, _, (Option.some.inj h).symm⟩
  · contradiction

/- Nothing in the allocation of a part is asserted. -/
theorem rxBufferAllocateFirst_calm (env : Env σ) (p : PartPlace) (u : World σ) :
    Wp (rxBufferAllocateFirst env (p.start + 1) p.part p.len) u (fun _ _ => True) fun _ _ => False := by
  simp only [rxBufferAllocateFirst, wp_bind, wp_get]
  split
  · refine wp_if (fun _ => ?_) fun _ => trivial
    simp only [rxBufferAllocate, wp_bind, wp_emit, wp_get, wp_set]
    split <;> trivial
  · trivial

/- A part that is written by a callback is written without an assertion. -/
theorem rxBufferAllocateWrite_calm {p : PartPlace} {a : WriteReply σ} (u : World σ)
    (h : u.written env p bs = some a) :
    Wp (rxBufferAllocateWrite env (p.start + 1) p.part p.len bs) u (fun _ _ => True) fun _ _ => False := by
  unfold World.written at h
  split at h
  · rename_i hc
    simp only [Bool.and_eq_true] at hc
    obtain ⟨⟨⟨hacc, hwrite⟩, hbuf⟩, -⟩ := hc
    simp only [rxBufferAllocateWrite, wp_bind, wp_get]
    have hboth := (rxBufferAllocateFirst_spec env u p).and (rxBufferAllocateFirst_calm env p u)
    refine hboth.mono (fun ok t ht => ?_) fun _ _ h => h.2
    obtain ⟨⟨-, -, hno, hyes⟩, -⟩ := ht
    refine wp_if (fun hok => ?_) fun _ => trivial
    obtain ⟨-, -, -, htar⟩ := hyes hok
    rw [htar] at hwrite hbuf
    simp only [rxBufferWritePart, wp_bind, wp_get]
    refine wp_if (fun _ => trivial) fun _ => ?_
    simp only [wp_bind, wp_modify]
    obtain ⟨t', ht'⟩ : ∃ t', t' = t.setRx { t.rx.internal with blockingStr := none } := ⟨_, rfl⟩
    have hstr : t'.str p.part.str = t.str p.part.str := by
      rw [ht']
      exact str_rx t _ p.part rfl
    rw [← ht']
    have hwritten : ∀ cs, Wp (stringWrite env p.part.str cs) t' (fun _ _ => True) fun _ _ => False := by
      intro cs
      simp only [stringWrite, wp_bind, wp_get, hstr]
      refine wp_if (fun _ => trivial) fun _ => wp_if (fun _ => trivial) fun _ => wp_if (fun _ => ?_) fun hw => ?_
      · simp only [wp_bind, wp_set]
        split <;> trivial
      · exact absurd hwrite hw
    refine (hwritten _).mono (fun x v _ => ?_) fun _ _ h => h
    split <;> trivial
  · contradiction

theorem rxBufferDecodePublishPart_calm {a : WriteReply σ} (h : w.writes env bs = some a) :
    Wp (rxBufferDecodePublishPart env bs) w (fun _ _ => True) fun _ _ => False := by
  obtain ⟨hw, p, hp, ha⟩ := writes_some h
  have hstring : Wp (rxBufferDecodeString env (p.start + 1) p.part p.len bs) (w.ignoreUnwanted env) (fun _ _ => True)
      fun _ _ => False := by
    simp only [rxBufferDecodeString, wp_bind]
    refine (rxBufferAllocateWrite_calm _ ha).mono (fun r t _ => ?_) fun _ _ h => h
    refine wp_if (fun _ => ?_) fun _ => trivial
    simp only [wp_bind]
    unfold Wp
    rw [rxBufferDeallocatePublish_run]
    trivial
  simp only [rxBufferDecodePublishPart, wp_bind, wp_get]
  unfold RxInternal.place at hp
  split at hp
  · contradiction
  · rename_i h2
    refine wp_if (fun h => by omega) fun _ => ?_
    simp only [wp_bind, wp_modify]
    split at hp
    · rename_i htopic
      cases hp
      exact wp_if (fun _ => hstring) fun h => by omega
    · rename_i htopic
      split at hp
      · contradiction
      · rename_i hid
        cases hp
        refine wp_if (fun h => by omega) fun _ => wp_if (fun h => by omega) fun _ => hstring

/-- A turn that stalls runs to its end. -/
theorem publishTurn_calm (hw : w.rx.internal.inPublish = true) (hshort : w.rx.internal.Short) (hb : bs ≠ [])
    (h : w.Stalls env bs) : Wp (rxBufferDecodeTurn env bs) w (fun _ _ => True) fun _ _ => False := by
  obtain ⟨a, ha, hres, hzero⟩ := h
  obtain ⟨hwf, hwd⟩ := (RxInternal.inPublish_iff _).mp hw
  have hroom := hshort hwf
  unfold Wp
  rw [rxBufferDecodeTurn_body hwf hwd]
  change Wp (rxBufferDecodeBodyTurn env rxBufferDecoderPublish bs) w _ _
  unfold rxBufferDecodeBodyTurn
  simp only [wp_bind]
  change Wp (rxBufferDecodeRemainingWithoutId env rxBufferDecoderPublish bs) w _ _
  simp only [rxBufferDecodeRemainingWithoutId, wp_bind, wp_get]
  change Wp (rxBufferDecodePublish env bs) w _ _
  simp only [rxBufferDecodePublish]
  refine wp_assert_bind (fun _ => ?_) fun hn => absurd hn (by simp [hb])
  simp only [wp_bind, wp_get]
  have hboth := (rxBufferDecodePublishPart_spec bs hw).and (rxBufferDecodePublishPart_calm ha)
  refine hboth.mono (fun r v hr => ?_) fun _ _ h => h.2
  cases r with
  | none =>
    have herr := hr.1.writes a ha
    rw [hres] at herr
    contradiction
  | some c =>
    have hpart := hr.1
    obtain ⟨hc, hblock⟩ : c = 0 ∧ v.rx.internal.blockingStr = none := by
      rcases hpart.count with ⟨hno, -⟩ | ⟨b, hsome, hcount, ⟨-, hblock⟩ | ⟨hwait, -⟩⟩
      · rw [ha] at hno
        contradiction
      · rw [ha] at hsome
        cases hsome
        exact ⟨hcount.trans hzero, hblock⟩
      · rw [ha] at hsome
        cases hsome
        rw [hres] at hwait
        contradiction
    have hrx := hpart.rx
    have hvd : v.rx.internal.decoder = some rxBufferDecoderPublish := by rw [hrx]; exact hwd
    have hvh : v.rx.internal.header = w.rx.internal.header := by rw [hrx]
    have hvp : v.rx.internal.remainBufPos = w.rx.internal.remainBufPos := by rw [hrx]
    have hgo : rxBufferIsPacketFinished (v.advance c).rx.internal = false := by
      simp only [rxBufferIsPacketFinished, World.advance, World.setRx, hvh, hvp, Bool.and_eq_false_iff, decide_eq_false_iff_not]
      right
      omega
    simp only [wp_bind, wp_get]
    refine wp_if (fun hb => ?_) fun _ => wp_if (fun _ => ?_) fun hlong => ?_
    · rw [hblock] at hb
      contradiction
    · refine wp_if (fun h => by contradiction) fun _ => wp_assert_bind (fun _ => ?_) fun hn => ?_
      · change Wp (rxBufferEndTurn env c) (v.advance c) _ _
        unfold Wp
        rw [rxBufferEndTurn_inside env _ c hgo]
        trivial
      · have hroom' : w.rx.internal.remainBufPos + c < w.rx.internal.header.remainingLength := by omega
        simp [hvh, hvp, hroom'] at hn
    · omega

/-- A turn goes round without a byte exactly where the write callback stalls. -/
theorem turn_stalls_iff (h : Stepped env (fun _ _ => True) w) (hs : (Step.read bs).Enabled (fun _ => True) w) :
    (∃ w', rxBufferDecodeTurn env bs w = .ok (.read 0) w') ↔ w.Stalls env bs := by
  have hi := stepped_inside w h hs.2.1
  have hspec : Wp (rxBufferDecodeTurn env bs) w (fun t w' => ReadTurn env w bs t w') fun _ _ => True :=
    readTurn_spec w bs h.live hs hi
  constructor
  · intro hrun
    obtain ⟨w', hrun⟩ := hrun
    have hturn := (wp_ok hspec hrun).turn
    rcases hturn with ⟨-, ht⟩ | ⟨hw, ht⟩
    · exact absurd rfl ht.count
    · have hshort := hi.short ((RxInternal.inPublish_iff _).mp hw).1
      have hpos := share_pos hi hw hs.2.2
      generalize hzero : Turn.read 0 = t at ht
      cases ht with
      | onward c v hr hb hc =>
        have hc0 : 0 = c := Turn.read.inj hzero
        rcases hr.count with ⟨-, hcount, -⟩ | ⟨a, ha, hcount, ⟨hres, -⟩ | ⟨-, hwait⟩⟩
        · omega
        · exact ⟨a, ha, hres, by omega⟩
        · rw [hb] at hwait
          contradiction
      | finished c v w' hr hc hend hfresh =>
        have hc0 : 0 = c := Turn.read.inj hzero
        omega
      | _ => contradiction
  · intro hstall
    obtain ⟨a, ha, hres, hzero⟩ := hstall
    obtain ⟨hw, -⟩ := writes_some ha
    have hshort := hi.short ((RxInternal.inPublish_iff _).mp hw).1
    have hcalm := publishTurn_calm hw hi.short hs.2.2 ⟨a, ha, hres, hzero⟩
    obtain ⟨t, w', hrun, ht, -⟩ := wp_exists ((hspec.and hcalm).mono (fun _ _ h => h) fun _ _ h => h.2)
    refine ⟨w', ?_⟩
    have hcount : ∀ {c v}, PartRead env w bs c v → c = 0 ∧ v.rx.internal.blockingStr = none := by
      intro c v hr
      rcases hr.count with ⟨hno, -⟩ | ⟨b, hsome, hcount, ⟨-, hblock⟩ | ⟨hwait, -⟩⟩
      · rw [ha] at hno
        contradiction
      · rw [ha] at hsome
        cases hsome
        exact ⟨hcount.trans hzero, hblock⟩
      · rw [ha] at hsome
        cases hsome
        rw [hres] at hwait
        contradiction
    rcases ht.turn with ⟨hno, -⟩ | ⟨-, ht⟩
    · rw [hw] at hno
      contradiction
    · cases ht with
      | onward c v hr hb hc =>
        rw [(hcount hr).1] at hrun ⊢
        exact hrun
      | blocked c v hr hb =>
        rw [(hcount hr).2] at hb
        contradiction
      | failed v hf =>
        have herr := hf.writes a ha
        rw [hres] at herr
        contradiction
      | refused c v w' hr hc hend hfail =>
        have hc0 := (hcount hr).1
        omega
      | finished c v w' hr hc hend hfresh =>
        have hc0 := (hcount hr).1
        omega

end Stalled

/-! ### The loop -/

/-- The loop that is entered in `w` with the bytes `bs` comes to its head again, in `v` with the unread
bytes `rest`, after `n` turns. -/
inductive Iterated (env : Env σ) (w : World σ) (bs : List Byte) : World σ → List Byte → ℕ → Prop
  | enter (he : w.rx.internal.error = none) : Iterated env w bs w bs 0
  | turn (v v' : World σ) (rest : List Byte) (c n : ℕ) (hv : Iterated env w bs v rest n) (hb : rest ≠ [])
    (h : rxBufferDecodeTurn env rest v = .ok (.read c) v') : Iterated env w bs v' (rest.drop c) (n + 1)

/- `lmqtt_rx_buffer_decode`, with room for `fuel` turns of its loop. -/
def rxBufferDecodeFuel (env : Env σ) (fuel : ℕ) (bs : List Byte) : Prog σ (IoResult × ℕ) := do
  if (← get).rx.internal.error.isSome then pure (.error, 0)
  else rxBufferDecodeLoop env bs.length fuel bs 0

theorem lmqttRxBufferDecode_fuel (env : Env σ) (bs : List Byte) :
    lmqttRxBufferDecode env bs = rxBufferDecodeFuel env env.fuel bs := rfl

/-- A call makes progress: a turn takes a byte or is the last one, at most `bs.length` turns come before the last
one, and so many turns are enough for the call. -/
structure Progresses (env : Env σ) (w : World σ) (bs : List Byte) : Prop where
  consumes : ∀ v rest n v', Iterated env w bs v rest n → rest ≠ [] → rxBufferDecodeTurn env rest v ≠ .ok (.read 0) v'
  bounded : ∀ v rest n, Iterated env w bs v rest n → n ≤ bs.length
  returns : ∀ fuel, bs.length ≤ fuel → rxBufferDecodeFuel env fuel bs w = rxBufferDecodeFuel env bs.length bs w

section Loop
variable {w v : World σ} {bs rest : List Byte} {n : ℕ}

/- At the head of the loop a turn is enabled. -/
theorem Iterated.ready (h : Iterated env w bs v rest n) (hw : Stepped env (fun _ _ => True) w) (he : w.error = none) :
    Stepped env (fun _ _ => True) v ∧ v.error = none ∧ v.rx.internal.error = none := by
  induction h with
  | enter hr => exact ⟨hw, he, hr⟩
  | turn v v' rest c n hv hb h ih =>
    obtain ⟨hs, hve, hvr⟩ := ih
    have hdec := hs.live.decoding hve
    have hspec := wp_ok (rxBufferDecodeTurn_spec env (fun _ => True) v _ hdec.sound hdec.shape hvr hve hdec.requests) h
    exact ⟨stepped_read hs hve hvr hb h, hspec.steady.error.trans hve, hspec.calm (by simp)⟩

/- The bytes that are read pay for the turns. -/
theorem Iterated.paid (h : Iterated env w bs v rest n)
    (hc : ∀ v rest n v', Iterated env w bs v rest n → rest ≠ [] → rxBufferDecodeTurn env rest v ≠ .ok (.read 0) v') :
    n + rest.length ≤ bs.length := by
  induction h with
  | enter hr => omega
  | turn v v' rest c n hv hb h ih =>
    have hpos : c ≠ 0 := by
      intro hzero
      rw [hzero] at h
      exact hc v rest n v' hv hb h
    have hlen := List.length_pos_iff.mpr hb
    rw [List.length_drop]
    omega

/- The loop needs no more turns than there are bytes. -/
theorem Iterated.enough (hv : Iterated env w bs v rest n)
    (hc : ∀ v rest n v', Iterated env w bs v rest n → rest ≠ [] → rxBufferDecodeTurn env rest v ≠ .ok (.read 0) v')
    (f g bufLen bytesRead : ℕ) (hf : rest.length ≤ f) (hg : rest.length ≤ g) :
    rxBufferDecodeLoop env bufLen f rest bytesRead v = rxBufferDecodeLoop env bufLen g rest bytesRead v := by
  induction f generalizing v rest n g bytesRead with
  | zero =>
    have hnil : rest = [] := List.length_eq_zero_iff.mp (by omega)
    rw [hnil]
    cases g <;> rfl
  | succ f ih =>
    cases rest with
    | nil => cases g <;> rfl
    | cons b bs =>
      obtain ⟨g', rfl⟩ : ∃ g', g = g' + 1 := ⟨g - 1, by
        rw [List.length_cons] at hg
        omega⟩
      rw [rxBufferDecodeLoop, rxBufferDecodeLoop]
      · cases hrun : rxBufferDecodeTurn env (b :: bs) v with
        | error e u => rw [run_bind_error hrun, run_bind_error hrun]
        | ok t u =>
          rw [run_bind_ok hrun, run_bind_ok hrun]
          cases t with
          | read c =>
            have hpos : c ≠ 0 := by
              intro hzero
              rw [hzero] at hrun
              exact hc v _ n u hv (List.cons_ne_nil b bs) hrun
            have hdrop : ((b :: bs).drop c).length ≤ bs.length := by
              rw [List.length_drop, List.length_cons]
              omega
            rw [List.length_cons] at hf hg
            exact ih (.turn v u _ c n hv (List.cons_ne_nil b bs) hrun) g' (bytesRead + c) (by omega) (by omega)
          | blocked => rfl
          | failed c => rfl
      · simp
      · simp

end Loop

/- The application takes nothing, and says SUCCESS. -/
def idleEnv : Env Unit := { blockedEnv with strWrite := fun a _ _ => ⟨a, .success, 0, 0⟩ }

/- A message up to its topic. -/
def topicSteps : List (Step Unit) := connectSteps ++ [[0x30], [5], [0], [1]].map .read

theorem topicRun_idle : (runClientSteps idleEnv everyStep ⟨8, 64, 64, 4⟩ smallHeap () topicSteps).isSome = true := by
  decide +kernel

theorem topicRun_writing : (runClientSteps writingEnv everyStep ⟨8, 64, 64, 4⟩ smallHeap () topicSteps).isSome = true := by
  decide +kernel

end LightMqtt
