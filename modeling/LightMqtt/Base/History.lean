import Mathlib.Data.List.Basic
import Mathlib.Order.Defs.PartialOrder
import Mathlib.Tactic.Common

/-!
# Histories

A history is a list of events, its newest event first. An event that opens is
followed by one that closes before the next one opens.
-/

namespace History

variable {α : Type} (opens closes : α → Prop)

/- Some event opens, and none of the later ones closes. -/
def IsOpen (l : List α) : Prop :=
  ∃ newer x older, l = newer ++ x :: older ∧ opens x ∧ ∀ y ∈ newer, ¬ closes y

/- Between two events that open there is one that closes. -/
def Alternates (l : List α) : Prop :=
  ∀ newer x mid y older, l = newer ++ x :: (mid ++ y :: older) → opens x → opens y → ∃ z ∈ mid, closes z

/- Some event of the later kind comes after one of the earlier kind. -/
def Follows (earlier later : α → Prop) (l : List α) : Prop :=
  ∃ newer x older, l = newer ++ x :: older ∧ later x ∧ ∃ y ∈ older, earlier y

/- Every event meets a law with the events before it. -/
def Always (law : α → List α → Prop) (l : List α) : Prop :=
  ∀ newer x older, l = newer ++ x :: older → law x older

variable {opens closes}

theorem not_isOpen_nil : ¬ IsOpen opens closes [] := by
  rintro ⟨newer, x, older, h, -⟩
  simp at h

theorem alternates_nil : Alternates opens closes [] := by
  intro newer x mid y older h
  simp at h

theorem isOpen_cons (x : α) (l : List α) :
    IsOpen opens closes (x :: l) ↔ opens x ∨ ¬ closes x ∧ IsOpen opens closes l := by
  constructor
  · rintro ⟨newer, y, older, h, hy, hc⟩
    cases newer with
    | nil =>
      cases h
      exact .inl hy
    | cons z newer =>
      obtain ⟨rfl, rfl⟩ := List.cons.inj h
      exact .inr ⟨hc _ (List.mem_cons_self ..), newer, y, older, rfl, hy,
        fun z hz => hc z (List.mem_cons_of_mem _ hz)⟩
  · rintro (hx | ⟨hx, newer, y, older, rfl, hy, hc⟩)
    · exact ⟨[], x, l, rfl, hx, by simp⟩
    · refine ⟨x :: newer, y, older, rfl, hy, fun z hz => ?_⟩
      rcases List.mem_cons.mp hz with rfl | hz
      · exact hx
      · exact hc z hz

theorem alternates_cons (x : α) (l : List α) :
    Alternates opens closes (x :: l) ↔
      Alternates opens closes l ∧ (opens x → ¬ IsOpen opens closes l) := by
  constructor
  · intro h
    refine ⟨fun newer y mid z older hl => h (x :: newer) y mid z older (by rw [hl]; rfl), ?_⟩
    rintro hx ⟨mid, y, older, rfl, hy, hc⟩
    obtain ⟨z, hz, hzc⟩ := h [] x mid y older rfl hx hy
    exact hc z hz hzc
  · rintro ⟨h, hx⟩ newer y mid z older hl hy hz
    cases newer with
    | nil =>
      obtain ⟨rfl, rfl⟩ := List.cons.inj hl
      by_contra hn
      exact hx hy ⟨mid, z, older, rfl, hz, fun u hu hc => hn ⟨u, hu, hc⟩⟩
    | cons u newer =>
      obtain ⟨rfl, rfl⟩ := List.cons.inj hl
      exact h newer y mid z older rfl hy hz

/- Events that do not open add nothing. -/
theorem isOpen_append {evs l : List α} (he : ∀ x ∈ evs, ¬ opens x) (h : IsOpen opens closes (evs ++ l)) :
    IsOpen opens closes l := by
  induction evs with
  | nil => exact h
  | cons x evs ih =>
    rcases (isOpen_cons x _).mp h with hx | ⟨-, h⟩
    · exact absurd hx (he x (List.mem_cons_self ..))
    · exact ih (fun y hy => he y (List.mem_cons_of_mem _ hy)) h

theorem alternates_append {evs l : List α} (he : ∀ x ∈ evs, ¬ opens x) (h : Alternates opens closes l) :
    Alternates opens closes (evs ++ l) := by
  induction evs with
  | nil => exact h
  | cons x evs ih =>
    refine (alternates_cons x _).mpr ⟨ih fun y hy => he y (List.mem_cons_of_mem _ hy), fun hx => ?_⟩
    exact absurd hx (he x (List.mem_cons_self ..))

/- An event that does not close leaves open what is open. -/
theorem isOpen_keep {evs l : List α} (he : ∀ x ∈ evs, ¬ closes x) (h : IsOpen opens closes l) :
    IsOpen opens closes (evs ++ l) := by
  obtain ⟨newer, x, older, rfl, hx, hc⟩ := h
  refine ⟨evs ++ newer, x, older, by simp, hx, fun y hy => ?_⟩
  rcases List.mem_append.mp hy with hy | hy
  · exact he y hy
  · exact hc y hy

section Follows
variable {earlier later : α → Prop}

theorem follows_cons (x : α) (l : List α) :
    Follows earlier later (x :: l) ↔ (later x ∧ ∃ y ∈ l, earlier y) ∨ Follows earlier later l := by
  constructor
  · rintro ⟨newer, y, older, h, hy, hf⟩
    cases newer with
    | nil =>
      obtain ⟨rfl, rfl⟩ := List.cons.inj h
      exact .inl ⟨hy, hf⟩
    | cons z newer =>
      obtain ⟨rfl, rfl⟩ := List.cons.inj h
      exact .inr ⟨newer, y, older, rfl, hy, hf⟩
  · rintro (⟨hx, hf⟩ | ⟨newer, y, older, rfl, hy, hf⟩)
    · exact ⟨[], x, l, rfl, hx, hf⟩
    · exact ⟨x :: newer, y, older, rfl, hy, hf⟩

/- Events that are not of the later kind add nothing. -/
theorem follows_append {evs l : List α} (he : ∀ x ∈ evs, ¬ later x)
    (h : Follows earlier later (evs ++ l)) : Follows earlier later l := by
  induction evs with
  | nil => exact h
  | cons x evs ih =>
    rcases (follows_cons x _).mp h with ⟨hx, -⟩ | h
    · exact absurd hx (he x (List.mem_cons_self ..))
    · exact ih (fun y hy => he y (List.mem_cons_of_mem _ hy)) h

theorem Follows.exists_earlier {l : List α} (h : Follows earlier later l) : ∃ y ∈ l, earlier y := by
  obtain ⟨newer, x, older, rfl, -, y, hy, hf⟩ := h
  exact ⟨y, by simp [hy], hf⟩

end Follows

section Always
variable {law : α → List α → Prop}

theorem always_nil : Always law [] := by
  intro newer x older h
  simp at h

theorem always_cons (x : α) (l : List α) : Always law (x :: l) ↔ law x l ∧ Always law l := by
  constructor
  · intro h
    exact ⟨h [] x l rfl, fun newer y older hl => h (x :: newer) y older (by rw [hl]; rfl)⟩
  · rintro ⟨hx, h⟩ newer y older hl
    cases newer with
    | nil =>
      obtain ⟨rfl, rfl⟩ := List.cons.inj hl
      exact hx
    | cons z newer =>
      obtain ⟨-, rfl⟩ := List.cons.inj hl
      exact h newer y older rfl

end Always

/-! ### Monitors -/

section Monitor
variable {S : Type} (next : S → α → Option S) (start : S)

/- The state of a monitor behind a history, if it allows every event. -/
def After : List α → Option S
  | [] => some start
  | x :: l => (After l).bind fun s => next s x

variable {next start}

/- Events that a monitor does not look at. -/
theorem after_append {evs l : List α} {s : S} (he : ∀ x ∈ evs, next s x = some s) (h : After next start l = some s) :
    After next start (evs ++ l) = some s := by
  induction evs with
  | nil => exact h
  | cons x evs ih =>
    have hl := ih fun y hy => he y (List.mem_cons_of_mem _ hy)
    rw [List.cons_append, After, hl, Option.bind_some]
    exact he x (List.mem_cons_self ..)

theorem after_cons {x : α} {l : List α} {s t : S} (h : After next start l = some s) (hx : next s x = some t) :
    After next start (x :: l) = some t := by
  rw [After, h, Option.bind_some, hx]

end Monitor

/-! ### Timed histories -/

section Timed
variable {T : Type} [Preorder T] {time : α → T} {p : α → Prop}

/- The property holds now, and has held ever since some moment up to `n`. -/
def HeldSince (time : α → T) (p : α → Prop) (l : List α) (n : T) : Prop :=
  ∃ newer x older, l = newer ++ x :: older ∧ time x ≤ n ∧ p x ∧ ∀ y ∈ newer, p y

theorem HeldSince.mono {l : List α} {n m : T} (h : HeldSince time p l n) (hm : n ≤ m) : HeldSince time p l m := by
  obtain ⟨newer, x, older, hl, ht, hx, hy⟩ := h
  exact ⟨newer, x, older, hl, le_trans ht hm, hx, hy⟩

theorem HeldSince.now {x : α} {l : List α} {n : T} (h : HeldSince time p (x :: l) n) : p x := by
  obtain ⟨newer, y, older, hl, -, hy, hn⟩ := h
  cases newer with
  | nil =>
    cases hl
    exact hy
  | cons z newer =>
    obtain ⟨rfl, -⟩ := List.cons.inj hl
    exact hn x (List.mem_cons_self ..)

theorem heldSince_cons (x : α) (l : List α) (n : T) :
    HeldSince time p (x :: l) n ↔ p x ∧ (time x ≤ n ∨ HeldSince time p l n) := by
  constructor
  · intro h
    refine ⟨h.now, ?_⟩
    obtain ⟨newer, y, older, hl, ht, hy, hn⟩ := h
    cases newer with
    | nil =>
      cases hl
      exact .inl ht
    | cons z newer =>
      obtain ⟨rfl, rfl⟩ := List.cons.inj hl
      exact .inr ⟨newer, y, older, rfl, ht, hy, fun u hu => hn u (List.mem_cons_of_mem _ hu)⟩
  · rintro ⟨hx, ht | ⟨newer, y, older, rfl, ht, hy, hn⟩⟩
    · exact ⟨[], x, l, rfl, ht, hx, by simp⟩
    · refine ⟨x :: newer, y, older, rfl, ht, hy, fun u hu => ?_⟩
      rcases List.mem_cons.mp hu with rfl | hu
      · exact hx
      · exact hn u hu

end Timed

end History
