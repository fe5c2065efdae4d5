import LightMqtt.Base.Wp

/-!
# Programs that are halted for given reasons

`HaltsBy E p` says that `p`, from whatever state it is run, is halted by no
exception outside of `E`. The rules follow the syntax of a program, so that a
program inherits the property from its parts.
-/

namespace Exec

variable {ε σ α β : Type} {E : ε → Prop}

def HaltsBy (E : ε → Prop) (p : EStateM ε σ α) : Prop := ∀ s, Wp p s (fun _ _ => True) fun e _ => E e

theorem haltsBy_pure (a : α) : HaltsBy E (pure a : EStateM ε σ α) := fun _ => trivial

theorem haltsBy_set (t : σ) : HaltsBy E (set t : EStateM ε σ PUnit) := fun _ => trivial

theorem haltsBy_modify (f : σ → σ) : HaltsBy E (modify f : EStateM ε σ PUnit) := fun _ => trivial

theorem haltsBy_throw {e : ε} (h : E e) : HaltsBy E (throw e : EStateM ε σ α) := fun _ => h

theorem haltsBy_bind {p : EStateM ε σ β} {f : β → EStateM ε σ α} (hp : HaltsBy E p) (hf : ∀ b, HaltsBy E (f b)) :
    HaltsBy E (p >>= f) := by
  intro s
  rw [wp_bind]
  exact (hp s).mono (fun b t _ => hf b t) fun _ _ h => h

theorem haltsBy_get_bind {f : σ → EStateM ε σ α} (hf : ∀ s, HaltsBy E (f s)) : HaltsBy E (get >>= f) :=
  fun s => hf s s

theorem haltsBy_ite {c : Prop} [Decidable c] {p q : EStateM ε σ α} (hp : HaltsBy E p) (hq : HaltsBy E q) :
    HaltsBy E (if c then p else q) := by
  split
  · exact hp
  · exact hq

/- What is known of the last state can be added. -/
theorem HaltsBy.with {p : EStateM ε σ α} {s : σ} {Q : α → σ → Prop} (h : HaltsBy E p)
    (hq : Wp p s Q fun _ _ => True) : Wp p s Q fun e _ => E e :=
  ((h s).and hq).mono (fun _ _ h => h.2) fun _ _ h => h.1

/-! ### Runs over a list -/

section Lists
variable {f : β → EStateM ε σ α} {xs : List β} {x : β} {s t u : σ} {as : List α} {a : α} {e : ε}

theorem mapM_append_error (h : xs.mapM f s = .error e t) (ys : List β) : (xs ++ ys).mapM f s = .error e t := by
  induction xs generalizing s with
  | nil => contradiction
  | cons x xs ih =>
    rw [List.cons_append, List.mapM_cons]
    rw [List.mapM_cons] at h
    cases hx : f x s with
    | error d v =>
      rw [run_bind_error hx] at h ⊢
      exact h
    | ok b v =>
      rw [run_bind_ok hx] at h ⊢
      cases hrest : xs.mapM f v with
      | error d q =>
        rw [run_bind_error hrest] at h
        cases h
        rw [run_bind_error (ih hrest)]
      | ok bs q =>
        rw [run_bind_ok hrest] at h
        contradiction

theorem mapM_append_singleton (h : xs.mapM f s = .ok as t) (hx : f x t = .ok a u) :
    (xs ++ [x]).mapM f s = .ok (as ++ [a]) u := by
  induction xs generalizing s as with
  | nil =>
    cases h
    rw [List.nil_append, List.mapM_cons, run_bind_ok hx]
    rfl
  | cons y xs ih =>
    rw [List.mapM_cons] at h
    obtain ⟨b, v, hy, h⟩ := ok_bind h
    obtain ⟨bs, q, hrest, h⟩ := ok_bind h
    cases h
    rw [List.cons_append, List.mapM_cons, run_bind_ok hy, run_bind_ok (ih hrest)]
    rfl

theorem mapM_append_singleton_error (h : xs.mapM f s = .ok as t) (hx : f x t = .error e u) :
    (xs ++ [x]).mapM f s = .error e u := by
  induction xs generalizing s as with
  | nil =>
    cases h
    rw [List.nil_append, List.mapM_cons, run_bind_error hx]
  | cons y xs ih =>
    rw [List.mapM_cons] at h
    obtain ⟨b, v, hy, h⟩ := ok_bind h
    obtain ⟨bs, q, hrest, h⟩ := ok_bind h
    cases h
    rw [List.cons_append, List.mapM_cons, run_bind_ok hy, run_bind_error (ih hrest)]

end Lists

end Exec
