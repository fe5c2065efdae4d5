import LightMqtt.Base.Cells
import LightMqtt.Transfer

/-!
# The memory of a client buffer (`client_buffer_transfer`)

The transfer loop on the memory of its buffer, for any two sides. A side is
offered a range of the buffer, and reports how much of it it has filled or
taken. What the sides stored and were given, and how full the buffer was, is
noted beside the state, at their calls.
-/

namespace LightMqtt

open Cells Exec

/-- What a wrapper does (`lmqtt_transfer_wrapper_t`): what it stores from the
start of its range on, the result, and what it writes to its pointers. -/
structure WrapperReply (τ : Type) where
  client : τ
  result : IoResult
  count : ℕ
  stored : List Byte := []
  error : Option Error := none
  osError : ℤ := 0

/-- What `client_buffer_transfer` does to its client apart from the buffer. -/
structure ClientOps (τ : Type) where
  hasError : τ → Bool
  setError : Option Error → ℤ → τ → τ
  setStateFailed : τ → τ
  setStateInitial : τ → τ
  touchCurrentStore : τ → τ

/-- The client with one of its buffers. `produced`, `consumed` and `levels` are
ghosts: so much as they reported of what the input side stored and of what the
output side was given, and the fill levels so far. -/
structure CellBuffer (τ : Type) where
  client : τ
  buf : Memory Byte
  bufPos : ℕ
  bufLen : ℕ
  produced : List Byte := []
  consumed : List Byte := []
  levels : List ℤ := []

namespace CellBuffer

variable {τ : Type}

/-! ### The two sides -/

/- The call of a wrapper that fills the buffer. It stores nothing outside the range it is offered. -/
def fills (wrapper : τ → ℕ → WrapperReply τ) (s : CellBuffer τ) (left right : ℕ) : WrapperReply τ × CellBuffer τ :=
  let r := wrapper s.client (right - left)
  (r, { s with
    client := r.client
    buf := (s.buf.readAll left (right - left)).2.writeAll left (r.stored.take (right - left))
    produced := s.produced ++ r.stored.take r.count })

/- The call of a wrapper that takes bytes from the buffer. -/
def drains (wrapper : τ → List Byte → WrapperReply τ) (s : CellBuffer τ) (left right : ℕ) : WrapperReply τ × CellBuffer τ :=
  let (bytes, buf) := s.buf.readAll left (right - left)
  let r := wrapper s.client bytes
  (r, { s with
    client := r.client
    buf
    consumed := s.consumed ++ bytes.take r.count })

/- `transfer_append` -/
def transferAppend (t : Transfer) (s : CellBuffer τ) : CellBuffer τ :=
  { s with
    bufPos := s.bufPos + t.count
    levels := (s.bufPos + t.count : ℤ) :: s.levels }

/- `transfer_shift` -/
def transferShift (t : Transfer) (s : CellBuffer τ) : CellBuffer τ :=
  { s with
    buf := s.buf.move 0 t.count (s.bufPos - t.count)
    bufPos := s.bufPos - t.count
    levels := (s.bufPos - t.count : ℤ) :: s.levels }

/- `transfer_exec`: the transfer, the client, and whether it is to go on. -/
def transferExec (ops : ClientOps τ) (t : Transfer) (s : CellBuffer τ)
    (wrapper : CellBuffer τ → ℕ → ℕ → WrapperReply τ × CellBuffer τ) (afterExec : Transfer → CellBuffer τ → CellBuffer τ)
    (left right : ℕ) : Transfer × CellBuffer τ × Bool :=
  if t.available && left < right then
    let (r, s) := wrapper s left right
    let s := afterExec { t with result := r.result, count := r.count } s
    let available := r.result = .success && 0 < r.count
    let t : Transfer := ⟨available, t.stale && !available, r.result, r.count⟩
    if r.result = .error then (t, { s with client := ops.setError r.error r.osError s.client }, false) else (t, s, true)
  else
    let t := { t with available := false }
    if t.result = .error then (t, { s with client := ops.setError none 0 s.client }, false) else (t, s, true)

section Loop
variable (ops : ClientOps τ) (fill : τ → ℕ → WrapperReply τ) (drain : τ → List Byte → WrapperReply τ)

/- The outcome of the loop; `running` where it has not come to its end after so many turns. -/
inductive Outcome
  | running | failed | done (input output : Transfer)

/- The loop of `client_buffer_transfer`. -/
def transferLoop : ℕ → Transfer → Transfer → CellBuffer τ → Outcome × CellBuffer τ
  | 0, input, output, s => if input.available || output.available then (.running, s) else (.done input output, s)
  | fuel + 1, input, output, s =>
    if input.available || output.available then
      let (input, s, ok) := transferExec ops input s (fills fill) transferAppend s.bufPos s.bufLen
      if !ok then (.failed, s)
      else
        let (output, s, ok) := transferExec ops output s (drains drain) transferShift 0 s.bufPos
        if !ok then (.failed, s) else transferLoop fuel input output s
    else (.done input output, s)

/- `client_buffer_transfer`, with the `block_status` of its two sides; `none` while it has not returned. -/
def clientBufferTransfer (inputStatus outputStatus : IoStatus) (fuel : ℕ) (s : CellBuffer τ) : Option IoStatus × CellBuffer τ :=
  if ops.hasError s.client then (some .error, s)
  else match transferLoop ops fill drain fuel {} {} s with
    | (.running, s) => (none, s)
    | (.failed, s) => (some .error, { s with client := ops.setStateFailed s.client })
    | (.done input output, s) =>
      let s := { s with
        client := if !input.stale || !output.stale then ops.touchCurrentStore s.client else s.client }
      if input.isEof || output.isEof then (some .ready, { s with client := ops.setStateInitial s.client })
      else if input.result = .wouldBlock && s.bufPos = 0 then (some inputStatus, s)
      else (some outputStatus, s)

end Loop

/-! ### Conservation -/

/- The input side reports no more than it was offered, and has stored what it reports. -/
structure Reports (r : WrapperReply τ) (offered : ℕ) : Prop where
  count_le : r.count ≤ offered
  stored : r.count ≤ r.stored.length

/-- What went into the buffer behind `start` has come out or is still there, in
its order, and the sides were kept inside it. -/
structure Conserves (start : List Byte) (capacity : ℕ) (s : CellBuffer τ) : Prop where
  bytes : s.consumed ++ s.buf.block 0 s.bufPos = start ++ s.produced
  bufLen_eq : s.bufLen = capacity
  pos_le : s.bufPos ≤ capacity
  inside : s.buf.Inside 0 capacity
  levels : ∀ l ∈ s.levels, 0 ≤ l ∧ l ≤ capacity

section Conserves
variable (ops : ClientOps τ) {fill : τ → ℕ → WrapperReply τ} {drain : τ → List Byte → WrapperReply τ}
  {start : List Byte} {capacity : ℕ} {s : CellBuffer τ}

theorem Conserves.client (h : Conserves start capacity s) (c : τ) : Conserves start capacity { s with client := c } :=
  ⟨h.bytes, h.bufLen_eq, h.pos_le, h.inside, h.levels⟩

theorem Conserves.level (h : Conserves start capacity s) {l : ℤ} (hl : 0 ≤ l ∧ l ≤ capacity) :
    ∀ k ∈ l :: s.levels, 0 ≤ k ∧ k ≤ capacity := by
  intro k hk
  rcases List.mem_cons.mp hk with rfl | hk
  · exact hl
  · exact h.levels k hk

/- The input side stores behind the bytes of the buffer. -/
theorem append_conserves (h : Conserves start capacity s) (t : Transfer)
    (hc : Reports (fill s.client (capacity - s.bufPos)) (capacity - s.bufPos))
    (ht : t.count = (fill s.client (capacity - s.bufPos)).count) :
    Conserves start capacity (transferAppend t (fills fill s s.bufPos s.bufLen).2) := by
  obtain ⟨hc, hlen⟩ := hc
  have hpos := h.pos_le
  have hbytes := h.bytes
  simp only [transferAppend, fills, h.bufLen_eq]
  have hstored : ((fill s.client (capacity - s.bufPos)).stored.take (capacity - s.bufPos)).length ≤ capacity - s.bufPos := by
    rw [List.length_take]
    omega
  have hread : (s.buf.readAll s.bufPos (capacity - s.bufPos)).2.Inside 0 capacity :=
    h.inside.readAll (Nat.zero_le _) (by omega)
  have hold : ((s.buf.readAll s.bufPos (capacity - s.bufPos)).2.writeAll s.bufPos
      ((fill s.client (capacity - s.bufPos)).stored.take (capacity - s.bufPos))).block 0 s.bufPos = s.buf.block 0 s.bufPos := by
    apply Memory.block_congr
    intro j _ hj
    exact Memory.writeAll_cell_of_outside _ _ _ (.inl (by omega))
  have hnew : ((s.buf.readAll s.bufPos (capacity - s.bufPos)).2.writeAll s.bufPos
      ((fill s.client (capacity - s.bufPos)).stored.take (capacity - s.bufPos))).block s.bufPos t.count =
        (fill s.client (capacity - s.bufPos)).stored.take t.count := by
    have hall := Memory.block_writeAll (s.buf.readAll s.bufPos (capacity - s.bufPos)).2 s.bufPos
      ((fill s.client (capacity - s.bufPos)).stored.take (capacity - s.bufPos))
    have hle : t.count ≤ ((fill s.client (capacity - s.bufPos)).stored.take (capacity - s.bufPos)).length := by
      rw [List.length_take]
      omega
    rw [← Memory.block_take _ _ _ _ hle, hall, List.take_take, Nat.min_eq_left (by omega)]
  refine ⟨?_, rfl, by simp only; omega, hread.writeAll _ (Nat.zero_le _) (by omega), h.level (by omega)⟩
  simp only
  rw [Memory.block_add, Nat.zero_add, hold, hnew, ht, ← List.append_assoc, ← List.append_assoc, hbytes]

/- The output side takes from the front of the buffer, and the rest moves down. -/
theorem shift_conserves (h : Conserves start capacity s) (t : Transfer)
    (hc : (drain s.client (s.buf.block 0 s.bufPos)).count ≤ s.bufPos)
    (ht : t.count = (drain s.client (s.buf.block 0 s.bufPos)).count) :
    Conserves start capacity (transferShift t (drains drain s 0 s.bufPos).2) := by
  have hpos := h.pos_le
  have hbytes := h.bytes
  rw [← ht] at hc
  have hgiven : (s.buf.block 0 s.bufPos).take (drain s.client (s.buf.block 0 s.bufPos)).count = s.buf.block 0 t.count := by
    rw [← ht, Memory.block_take _ _ _ _ hc]
  simp only [transferShift, drains, Memory.readAll, Nat.sub_zero, hgiven]
  have hread : (s.buf.readAll 0 (s.bufPos - 0)).2.Inside 0 capacity := h.inside.readAll (Nat.le_refl 0) (by omega)
  refine ⟨?_, h.bufLen_eq, by simp only; omega, ?_, h.level (by omega)⟩
  · obtain ⟨rest, hrest⟩ := Nat.exists_eq_add_of_le hc
    simp only
    rw [hrest, Memory.block_add, Nat.zero_add] at hbytes
    rw [Memory.block_move, hrest, Nat.add_sub_cancel_left, List.append_assoc]
    exact hbytes
  · rw [Memory.inside_move]
    exact ⟨hread, fun _ => by omega⟩

/- Where a side is called, the buffer is what its call and the function after it make of it. -/
theorem transferExec_buffer (t : Transfer) (s : CellBuffer τ)
    (wrapper : CellBuffer τ → ℕ → ℕ → WrapperReply τ × CellBuffer τ) (afterExec : Transfer → CellBuffer τ → CellBuffer τ)
    (left right : ℕ) : ∃ c, (transferExec ops t s wrapper afterExec left right).2.1 = { s with client := c } ∨
      left < right ∧ (transferExec ops t s wrapper afterExec left right).2.1 =
        { afterExec { t with result := (wrapper s left right).1.result, count := (wrapper s left right).1.count }
            (wrapper s left right).2 with client := c } := by
  unfold transferExec
  by_cases hrun : (t.available && decide (left < right)) = true
  · have hlt : left < right := by
      rw [Bool.and_eq_true, decide_eq_true_eq] at hrun
      exact hrun.2
    rw [if_pos hrun]
    simp only
    split
    · exact ⟨_, .inr ⟨hlt, rfl⟩⟩
    · exact ⟨_, .inr ⟨hlt, rfl⟩⟩
  · rw [if_neg hrun]
    simp only
    split
    · exact ⟨_, .inl rfl⟩
    · exact ⟨_, .inl rfl⟩

theorem fill_conserves (hfill : ∀ c n, Reports (fill c n) n) (h : Conserves start capacity s) (t : Transfer) :
    Conserves start capacity (transferExec ops t s (fills fill) transferAppend s.bufPos s.bufLen).2.1 := by
  obtain ⟨c, hs | ⟨-, hs⟩⟩ := transferExec_buffer ops t s (fills fill) transferAppend s.bufPos s.bufLen
  · rw [hs]
    exact h.client c
  · rw [hs]
    refine (append_conserves h _ (hfill s.client (capacity - s.bufPos)) ?_).client c
    simp only [fills, h.bufLen_eq]

theorem drain_conserves (hdrain : ∀ c bs, (drain c bs).count ≤ bs.length) (h : Conserves start capacity s) (t : Transfer) :
    Conserves start capacity (transferExec ops t s (drains drain) transferShift 0 s.bufPos).2.1 := by
  have hcount := hdrain s.client (s.buf.block 0 s.bufPos)
  rw [Memory.block_length] at hcount
  obtain ⟨c, hs | ⟨-, hs⟩⟩ := transferExec_buffer ops t s (drains drain) transferShift 0 s.bufPos
  · rw [hs]
    exact h.client c
  · rw [hs]
    exact (shift_conserves h _ hcount rfl).client c

theorem transferLoop_conserves (hfill : ∀ c n, Reports (fill c n) n) (hdrain : ∀ c bs, (drain c bs).count ≤ bs.length)
    (fuel : ℕ) (input output : Transfer) (h : Conserves start capacity s) :
    Conserves start capacity (transferLoop ops fill drain fuel input output s).2 := by
  induction fuel generalizing input output s with
  | zero =>
    rw [transferLoop]
    split
    · exact h
    · exact h
  | succ fuel ih =>
    rw [transferLoop]
    have hfilled := fill_conserves ops hfill h input
    generalize transferExec ops input s (fills fill) transferAppend s.bufPos s.bufLen = r at hfilled
    obtain ⟨input', s', ok⟩ := r
    have hdrained := drain_conserves ops hdrain hfilled output
    simp only at hdrained ⊢
    generalize transferExec ops output s' (drains drain) transferShift 0 s'.bufPos = r at hdrained
    obtain ⟨output', s'', ok'⟩ := r
    split
    · split
      · exact hfilled
      · split
        · exact hdrained
        · exact ih input' output' hdrained
    · exact h

/- What is left of `client_buffer_transfer` does not look at the buffer's bytes. -/
theorem clientBufferTransfer_conserves (hfill : ∀ c n, Reports (fill c n) n)
    (hdrain : ∀ c bs, (drain c bs).count ≤ bs.length) (inputStatus outputStatus : IoStatus) (fuel : ℕ)
    (h : Conserves start capacity s) :
    Conserves start capacity (clientBufferTransfer ops fill drain inputStatus outputStatus fuel s).2 := by
  have hloop := transferLoop_conserves ops hfill hdrain fuel {} {} h
  unfold clientBufferTransfer
  split
  · exact h
  · generalize transferLoop ops fill drain fuel {} {} s = r at hloop
    obtain ⟨outcome, s'⟩ := r
    cases outcome with
    | running => exact hloop
    | failed => exact hloop.client _
    | done input output =>
      simp only
      split
      · exact hloop.client _
      · split
        · exact hloop.client _
        · exact hloop.client _

end Conserves

/- The buffer before a transfer. -/
def start (client : τ) (memory : ℕ → Byte) (fill capacity : ℕ) : CellBuffer τ :=
  { client, buf := ⟨memory, []⟩, bufPos := fill, bufLen := capacity }

/- A stream of bytes, and a sink that takes so many bytes before it blocks. -/
def streamOps : ClientOps (List Byte × ℕ) := ⟨fun _ => false, fun _ _ c => c, id, id, id⟩

def streamFill (c : List Byte × ℕ) (len : ℕ) : WrapperReply (List Byte × ℕ) where
  client := (c.1.drop len, c.2)
  result := if c.1 = [] then .wouldBlock else .success
  count := (c.1.take len).length
  stored := c.1.take len

def sinkDrain (c : List Byte × ℕ) (bs : List Byte) : WrapperReply (List Byte × ℕ) where
  client := (c.1, c.2 - bs.length)
  result := if c.2 < bs.length then .wouldBlock else .success
  count := min c.2 bs.length

section Client
variable {σ : Type} {env : Env σ} {P : World σ → Prop} {d : Direction}

/- The sides of a direction. The client keeps the bytes of the buffer as a list beside the memory. -/
def fillSide (env : Env σ) (d : Direction) (w : World σ) (len : ℕ) : WrapperReply (World σ) :=
  match fillWrapper env d len w with
  | .ok m u => ⟨u.setBuf d (u.buf d ++ m.bytes), m.result, min m.count len, m.bytes, m.error, m.osError⟩
  | .error _ u => ⟨u, .error, 0, [], none, 0⟩

def drainSide (env : Env σ) (d : Direction) (w : World σ) (bs : List Byte) : WrapperReply (World σ) :=
  match drainWrapper env d bs w with
  | .ok m u => ⟨u.setBuf d ((u.buf d).drop m.count), m.result, min m.count bs.length, [], m.error, m.osError⟩
  | .error _ u => ⟨u, .error, 0, [], none, 0⟩

/-- The sides of a direction report no more than they were offered. -/
structure Counts (env : Env σ) (P : World σ → Prop) (d : Direction) : Prop where
  fill : ∀ {w u : World σ} {m : Moved} (len : ℕ), Fine env P w → fillWrapper env d len w = .ok m u → m.count ≤ len
  drain : ∀ {w u : World σ} {m : Moved} (bs : List Byte), Fine env P w → drainWrapper env d bs w = .ok m u →
    m.count ≤ bs.length

/-- The memory holds the bytes of the client's list. -/
structure Pictures (d : Direction) (w : World σ) (s : CellBuffer (World σ)) : Prop where
  client : s.client = w
  view : s.buf.block 0 s.bufPos = w.buf d
  bufLen_eq : s.bufLen = w.bufCapacity d
  pos_le : s.bufPos ≤ s.bufLen

theorem Pictures.length {w : World σ} {s : CellBuffer (World σ)} (h : Pictures d w s) : s.bufPos = (w.buf d).length := by
  rw [← h.view, Memory.block_length]

theorem Pictures.setError {w : World σ} {s : CellBuffer (World σ)} (h : Pictures d w s) (e : Option Error) (os : ℤ) :
    Pictures d { w with error := e, osError := os } { s with client := { w with error := e, osError := os } } := by
  refine ⟨rfl, h.view.trans ?_, h.bufLen_eq.trans ?_, h.pos_le⟩
  · cases d <;> rfl
  · cases d <;> rfl

/- The memory behind the bytes of the buffer is filled. -/
theorem append_pictures {w u : World σ} {s : CellBuffer (World σ)} {m : Moved} (h : Pictures d w s) (hs : SameBuffers w u)
    (hc : m.count = m.bytes.length) (hle : m.count ≤ s.bufLen - s.bufPos) (t : Transfer) (ht : t.count = m.count)
    (memory : Memory Byte) (hm : memory.cell = s.buf.cell) (produced : List Byte) :
    Pictures d (u.setBuf d (u.buf d ++ m.bytes)) (transferAppend t { s with
      client := u.setBuf d (u.buf d ++ m.bytes)
      buf := memory.writeAll s.bufPos (m.bytes.take (s.bufLen - s.bufPos))
      produced }) := by
  have hpos := h.pos_le
  have hall : m.bytes.take (s.bufLen - s.bufPos) = m.bytes := List.take_of_length_le (by omega)
  have hold : (memory.writeAll s.bufPos m.bytes).block 0 s.bufPos = s.buf.block 0 s.bufPos := by
    apply Memory.block_congr
    intro j _ hj
    rw [Memory.writeAll_cell_of_outside _ _ _ (.inl (by omega)), hm]
  refine ⟨rfl, ?_, ?_, by simp only [transferAppend]; omega⟩
  · simp only [transferAppend]
    rw [hall, ht, hc, Memory.block_add, Nat.zero_add, hold, Memory.block_writeAll, h.view, setBuf_buf, hs.buf]
  · rw [setBuf_capacity, hs.capacity]
    exact h.bufLen_eq

/- The bytes behind those taken move to the front. -/
theorem shift_pictures {w u : World σ} {s : CellBuffer (World σ)} (h : Pictures d w s) (hs : SameBuffers w u) {count : ℕ}
    (hle : count ≤ s.bufPos) (t : Transfer) (ht : t.count = count) (memory : Memory Byte) (hm : memory.cell = s.buf.cell)
    (consumed : List Byte) : Pictures d (u.setBuf d ((u.buf d).drop count)) (transferShift t { s with
      client := u.setBuf d ((u.buf d).drop count)
      buf := memory
      consumed }) := by
  have hpos := h.pos_le
  have hsame : memory.block 0 s.bufPos = s.buf.block 0 s.bufPos := by
    simp only [Memory.block, hm]
  refine ⟨rfl, ?_, ?_, by simp only [transferShift]; omega⟩
  · simp only [transferShift]
    rw [ht, Memory.block_move, setBuf_buf, hs.buf, ← h.view, ← hsame, Memory.block_drop _ _ _ _ hle, Nat.zero_add]
  · rw [setBuf_capacity, hs.capacity]
    exact h.bufLen_eq

/- The client's own error fields. -/
def worldOps (env : Env σ) : ClientOps (World σ) where
  hasError w := w.error.isSome
  setError error osError w := { w with error, osError }
  setStateFailed w := { w with closed := true, ops := {} }
  setStateInitial w := match clientSetStateInitial env w with
    | .ok _ v => v
    | .error _ v => v
  touchCurrentStore w := w.touched env

variable {t t' : Transfer} {ok : Bool} {w v : World σ} {s : CellBuffer (World σ)}

/- A turn of a side on the list is one on the memory if its call is. -/
theorem exec_pictures {left right : ℕ} {wrapper : Prog σ Moved} {after : Moved → World σ → World σ}
    {cells : CellBuffer (World σ) → ℕ → ℕ → WrapperReply (World σ) × CellBuffer (World σ)}
    {cellsAfter : Transfer → CellBuffer (World σ) → CellBuffer (World σ)}
    (hcall : ∀ m u, wrapper w = .ok m u → ∃ client stored s',
      cells s left right = (⟨client, m.result, m.count, stored, m.error, m.osError⟩, s') ∧
      Pictures d (after m u) (cellsAfter { t with result := m.result, count := m.count } s'))
    (h : Pictures d w s) (hrun : LightMqtt.transferExec t (decide (left < right)) wrapper after w = .ok (t', ok) v) :
    ∃ s', transferExec (worldOps env) t s cells cellsAfter left right = (t', s', ok) ∧ Pictures d v s' := by
  unfold LightMqtt.transferExec at hrun
  unfold transferExec
  rcases ok_ite hrun with ⟨hgo, hrun⟩ | ⟨hgo, hrun⟩
  · obtain ⟨m, u, hm, hrun⟩ := ok_bind hrun
    obtain ⟨client, stored, s', hcells, hnext⟩ := hcall m u hm
    rw [run_modify_bind] at hrun
    rw [if_pos hgo, hcells]
    simp only
    rcases ok_ite hrun with ⟨herr, hrun⟩ | ⟨herr, hrun⟩
    · rw [run_modify_bind] at hrun
      obtain ⟨he, rfl⟩ := ok_pure hrun
      cases he
      rw [if_pos herr, hnext.client]
      exact ⟨_, rfl, hnext.setError m.error m.osError⟩
    · obtain ⟨he, rfl⟩ := ok_pure hrun
      cases he
      rw [if_neg herr]
      exact ⟨_, rfl, hnext⟩
  · rw [if_neg hgo]
    rcases ok_ite hrun with ⟨herr, hrun⟩ | ⟨herr, hrun⟩
    · rw [run_modify_bind] at hrun
      obtain ⟨he, rfl⟩ := ok_pure hrun
      cases he
      simp only at herr ⊢
      rw [if_pos herr, h.client]
      exact ⟨_, rfl, h.setError none 0⟩
    · obtain ⟨he, rfl⟩ := ok_pure hrun
      cases he
      simp only at herr ⊢
      rw [if_neg herr]
      exact ⟨_, rfl, h⟩

theorem fill_pictures (hc : Counts env P d) (hw : Fine env P w) (h : Pictures d w s)
    (hrun : transferFill env d t w = .ok (t', ok) v) :
    ∃ s', transferExec (worldOps env) t s (fills (fillSide env d)) transferAppend s.bufPos s.bufLen = (t', s', ok) ∧
      Pictures d v s' := by
  have hrun : LightMqtt.transferExec t _ (fillWrapper env d (w.bufCapacity d - (w.buf d).length)) _ w = _ := hrun
  rw [← h.length, ← h.bufLen_eq] at hrun
  refine exec_pictures (fun m u hm => ?_) h hrun
  obtain ⟨-, hsame, hcount⟩ := fillWrapper_ok hw hm
  have hle := hc.fill _ hw hm
  have hside : fillSide env d s.client (s.bufLen - s.bufPos) =
      ⟨u.setBuf d (u.buf d ++ m.bytes), m.result, m.count, m.bytes, m.error, m.osError⟩ := by
    rw [fillSide, h.client, hm]
    simp only [Nat.min_eq_left hle]
  refine ⟨_, _, _, by rw [fills, hside], ?_⟩
  exact append_pictures h hsame hcount hle { t with result := m.result, count := m.count } rfl
    (s.buf.readAll s.bufPos (s.bufLen - s.bufPos)).2 rfl _

theorem drain_pictures (hc : Counts env P d) (hw : Fine env P w) (h : Pictures d w s)
    (hrun : transferDrain env d t w = .ok (t', ok) v) :
    ∃ s', transferExec (worldOps env) t s (drains (drainSide env d)) transferShift 0 s.bufPos = (t', s', ok) ∧
      Pictures d v s' := by
  have hrun : LightMqtt.transferExec t _ (drainWrapper env d (w.buf d)) _ w = _ := hrun
  rw [← h.length] at hrun
  refine exec_pictures (fun m u hm => ?_) h hrun
  obtain ⟨-, hsame⟩ := drainWrapper_ok hw hm
  have hle := hc.drain _ hw hm
  have hside : drainSide env d s.client (s.buf.block 0 s.bufPos) =
      ⟨u.setBuf d ((u.buf d).drop m.count), m.result, m.count, [], m.error, m.osError⟩ := by
    rw [drainSide, h.client, h.view, hm]
    simp only [Nat.min_eq_left hle]
  rw [← h.length] at hle
  refine ⟨u.setBuf d ((u.buf d).drop m.count), [], { s with
    client := u.setBuf d ((u.buf d).drop m.count)
    buf := (s.buf.readAll 0 s.bufPos).2
    consumed := s.consumed ++ (s.buf.block 0 s.bufPos).take m.count }, ?_, ?_⟩
  · simp only [drains, Memory.readAll, Nat.sub_zero, hside]
  · exact shift_pictures h hsame hle { t with result := m.result, count := m.count } rfl
      (s.buf.readAll 0 s.bufPos).2 rfl _

/- How the loop on the list ends. -/
def outcomeOf : Option (Transfer × Transfer) → Outcome
  | some (input, output) => .done input output
  | none => .failed

/-- The loop on the client's list of bytes is the loop on the memory that holds them. -/
theorem transferLoop_pictures (hc : Counts env P d) (fuel : ℕ) {input output : Transfer}
    {r : Option (Transfer × Transfer)} (hw : Fine env P w) (h : Pictures d w s)
    (hrun : bufferTransferLoop env d fuel input output w = .ok r v) :
    ∃ s', transferLoop (worldOps env) (fillSide env d) (drainSide env d) fuel input output s = (outcomeOf r, s') ∧
      Pictures d v s' := by
  induction fuel generalizing w s input output with
  | zero =>
    rw [transferLoop]
    rcases ok_ite hrun with ⟨-, hrun⟩ | ⟨hn, hrun⟩
    · cases hrun
    · obtain ⟨rfl, rfl⟩ := ok_pure hrun
      rw [if_neg hn]
      exact ⟨s, rfl, h⟩
  | succ fuel ih =>
    rw [transferLoop]
    rcases ok_ite hrun with ⟨hgo, hrun⟩ | ⟨hn, hrun⟩
    · obtain ⟨⟨input', ok⟩, u, hfill, hrun⟩ := ok_bind hrun
      obtain ⟨s', hs', hu⟩ := fill_pictures hc hw h hfill
      rw [if_pos hgo, hs']
      cases ok with
      | false =>
        obtain ⟨rfl, rfl⟩ := ok_pure hrun
        exact ⟨s', rfl, hu⟩
      | true =>
        have hfine := transferFill_fine hw hfill
        obtain ⟨⟨output', ok⟩, x, hdrain, hrun⟩ := ok_bind hrun
        obtain ⟨s'', hs'', hx⟩ := drain_pictures hc hfine hu hdrain
        simp only [Bool.not_true, Bool.false_eq_true, if_false, hs'']
        cases ok with
        | false =>
          obtain ⟨rfl, rfl⟩ := ok_pure hrun
          exact ⟨s'', rfl, hx⟩
        | true => exact ih (transferDrain_fine hfine hdrain) hx hrun
    · obtain ⟨rfl, rfl⟩ := ok_pure hrun
      rw [if_neg hn]
      exact ⟨s, rfl, h⟩

end Client

end CellBuffer
end LightMqtt
