import Mathlib.Logic.Relation
import Mathlib.Tactic.Common

/-!
# Weakest preconditions

Programs over a state that may be halted by an exception and then keep the
state they were halted in. `Wp p s Q E` says that the run of `p` from `s` ends
in a result and a state that satisfy `Q`, or is halted in a state that
satisfies `E`. The rules follow the syntax of a program.
-/

namespace Exec

variable {ε σ α β : Type}

def Wp (p : EStateM ε σ α) (s : σ) (Q : α → σ → Prop) (E : ε → σ → Prop) : Prop :=
  match p s with
  | .ok a t => Q a t
  | .error e t => E e t

section Rules
variable (s : σ) (Q : α → σ → Prop) (E : ε → σ → Prop)

@[simp] theorem wp_pure (a : α) : Wp (pure a : EStateM ε σ α) s Q E ↔ Q a s := Iff.rfl

@[simp] theorem wp_bind (p : EStateM ε σ β) (f : β → EStateM ε σ α) :
    Wp (p >>= f) s Q E ↔ Wp p s (fun b t => Wp (f b) t Q E) E := by
  simp only [Wp, bind, EStateM.bind]
  cases p s <;> rfl

@[simp] theorem wp_map (p : EStateM ε σ β) (f : β → α) :
    Wp (f <$> p) s Q E ↔ Wp p s (fun b t => Q (f b) t) E := by
  simp only [Wp, Functor.map, EStateM.map]
  cases p s <;> rfl

@[simp] theorem wp_get (Q : σ → σ → Prop) : Wp (get : EStateM ε σ σ) s Q E ↔ Q s s := Iff.rfl

@[simp] theorem wp_set (t : σ) (Q : PUnit → σ → Prop) :
    Wp (set t : EStateM ε σ PUnit) s Q E ↔ Q ⟨⟩ t := Iff.rfl

@[simp] theorem wp_modify (f : σ → σ) (Q : PUnit → σ → Prop) :
    Wp (modify f : EStateM ε σ PUnit) s Q E ↔ Q ⟨⟩ (f s) := Iff.rfl

@[simp] theorem wp_throw (e : ε) : Wp (throw e : EStateM ε σ α) s Q E ↔ E e s := Iff.rfl

@[simp] theorem wp_ite (c : Prop) [Decidable c] (p q : EStateM ε σ α) :
    Wp (if c then p else q) s Q E ↔ if c then Wp p s Q E else Wp q s Q E := by
  split <;> rfl

theorem wp_ok {p : EStateM ε σ α} {s t : σ} {a : α} {Q : α → σ → Prop} {E : ε → σ → Prop}
    (h : Wp p s Q E) (hp : p s = .ok a t) : Q a t := by
  simpa only [Wp, hp] using h

theorem wp_error {p : EStateM ε σ α} {s t : σ} {e : ε} {Q : α → σ → Prop} {E : ε → σ → Prop}
    (h : Wp p s Q E) (hp : p s = .error e t) : E e t := by
  simpa only [Wp, hp] using h

theorem wp_of_ok {p : EStateM ε σ α} {s : σ} {Q : α → σ → Prop} (h : ∀ a t, p s = .ok a t → Q a t) :
    Wp p s Q fun _ _ => True := by
  unfold Wp
  cases hp : p s with
  | ok a t => exact h a t hp
  | error e t => trivial

theorem wp_exists {p : EStateM ε σ α} {s : σ} {Q : α → σ → Prop} (h : Wp p s Q fun _ _ => False) :
    ∃ a t, p s = .ok a t ∧ Q a t := by
  unfold Wp at h
  cases hp : p s with
  | ok a t => exact ⟨a, t, rfl, by rwa [hp] at h⟩
  | error e t => simp [hp] at h

end Rules

/-! ### Runs -/

section Run
variable {p : EStateM ε σ β} {f : β → EStateM ε σ α} {s t : σ} {b : β} {e : ε}

theorem run_bind_ok (h : p s = .ok b t) : (p >>= f) s = f b t := by
  simp only [bind, EStateM.bind, h]

theorem run_bind_error (h : p s = .error e t) : (p >>= f) s = .error e t := by
  simp only [bind, EStateM.bind, h]

theorem run_get_bind (f : σ → EStateM ε σ α) : (get >>= f) s = f s s := rfl

theorem run_modify_bind (g : σ → σ) (f : PUnit → EStateM ε σ α) : (modify g >>= f) s = f ⟨⟩ (g s) := rfl

theorem run_set_bind (f : PUnit → EStateM ε σ α) : (set t >>= f) s = f ⟨⟩ t := rfl

/- A program that returns is taken apart at its first step. -/
theorem ok_bind {a : α} (h : (p >>= f) s = .ok a t) : ∃ b u, p s = .ok b u ∧ f b u = .ok a t := by
  simp only [bind, EStateM.bind] at h
  cases hp : p s with
  | ok b u =>
    rw [hp] at h
    exact ⟨b, u, rfl, h⟩
  | error e u =>
    rw [hp] at h
    cases h

theorem ok_get_bind {f : σ → EStateM ε σ α} {a : α} (h : (get >>= f) s = .ok a t) : f s s = .ok a t := h

theorem ok_set_bind {u : σ} {f : PUnit → EStateM ε σ α} {a : α} (h : (set u >>= f) s = .ok a t) :
    f ⟨⟩ u = .ok a t := h

theorem ok_modify_bind {g : σ → σ} {f : PUnit → EStateM ε σ α} {a : α} (h : (modify g >>= f) s = .ok a t) :
    f ⟨⟩ (g s) = .ok a t := h

theorem ok_pure {a c : α} (h : (pure c : EStateM ε σ α) s = .ok a t) : c = a ∧ s = t := by
  cases h
  exact ⟨rfl, rfl⟩

theorem ok_ite {c : Prop} [Decidable c] {p q : EStateM ε σ α} {a : α} (h : (if c then p else q) s = .ok a t) :
    c ∧ p s = .ok a t ∨ ¬ c ∧ q s = .ok a t := by
  by_cases hc : c
  · rw [if_pos hc] at h
    exact .inl ⟨hc, h⟩
  · rw [if_neg hc] at h
    exact .inr ⟨hc, h⟩

end Run

section Consequence
variable {p : EStateM ε σ α} {s : σ} {Q Q' : α → σ → Prop} {E E' : ε → σ → Prop}

theorem Wp.mono (h : Wp p s Q E) (hq : ∀ a t, Q a t → Q' a t) (he : ∀ e t, E e t → E' e t) :
    Wp p s Q' E' := by
  unfold Wp at *
  cases hp : p s with
  | ok a t => rw [hp] at h; exact hq a t h
  | error e t => rw [hp] at h; exact he e t h

theorem Wp.and (h : Wp p s Q E) (h' : Wp p s Q' E') :
    Wp p s (fun a t => Q a t ∧ Q' a t) (fun e t => E e t ∧ E' e t) := by
  unfold Wp at *
  cases hp : p s with
  | ok a t => rw [hp] at h h'; exact ⟨h, h'⟩
  | error e t => rw [hp] at h h'; exact ⟨h, h'⟩

theorem wp_if {c : Prop} [Decidable c] {p q : EStateM ε σ α} (hp : c → Wp p s Q E)
    (hq : ¬ c → Wp q s Q E) : Wp (if c then p else q) s Q E := by
  split
  · rename_i h
    exact hp h
  · rename_i h
    exact hq h

theorem wp_true (p : EStateM ε σ α) (s : σ) : Wp p s (fun _ _ => True) fun _ _ => True := by
  unfold Wp
  split <;> trivial

instance (p : EStateM ε σ α) (s : σ) (Q : α → σ → Prop) (E : ε → σ → Prop) [∀ a t, Decidable (Q a t)]
    [∀ e t, Decidable (E e t)] : Decidable (Wp p s Q E) :=
  match h : p s with
  | .ok a t => decidable_of_iff (Q a t) (by simp only [Wp, h])
  | .error e t => decidable_of_iff (E e t) (by simp only [Wp, h])

end Consequence

/-! ### Relations between the first and the last state -/

/-- Every run of `p` from `s`, halted or not, ends in a state related to `s`. -/
def Within (R : σ → σ → Prop) (p : EStateM ε σ α) (s : σ) : Prop :=
  Wp p s (fun _ t => R s t) (fun _ t => R s t)

section Within
variable {R : σ → σ → Prop} (s : σ)

theorem within_pure (hr : R s s) (a : α) : Within R (pure a : EStateM ε σ α) s := hr

theorem within_throw (hr : R s s) (e : ε) : Within R (throw e : EStateM ε σ α) s := hr

theorem within_modify (f : σ → σ) (hr : R s (f s)) : Within R (modify f : EStateM ε σ PUnit) s := hr

theorem within_set (t : σ) (hr : R s t) : Within R (set t : EStateM ε σ PUnit) s := hr

theorem within_get_bind (f : σ → EStateM ε σ α) (h : Within R (f s) s) :
    Within R (get >>= f) s := h

theorem within_ite (c : Prop) [Decidable c] (p q : EStateM ε σ α) (hp : c → Within R p s)
    (hq : ¬ c → Within R q s) : Within R (if c then p else q) s := by
  split
  · rename_i h
    exact hp h
  · rename_i h
    exact hq h

theorem within_bind [IsTrans σ R] (q : EStateM ε σ β) (f : β → EStateM ε σ α) (hq : Within R q s)
    (hf : ∀ b t, R s t → Within R (f b) t) : Within R (q >>= f) s := by
  unfold Within
  rw [wp_bind]
  refine hq.mono (fun b t ht => ?_) (fun _ _ ht => ht)
  exact (hf b t ht).mono (fun _ _ hu => IsTrans.trans _ _ _ ht hu)
    (fun _ _ hu => IsTrans.trans _ _ _ ht hu)

end Within
end Exec
