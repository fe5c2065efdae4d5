import LightMqtt.Base.Wp

/-!
# A program run from a changed state

`Mirrors f p q s` says that `q`, run from `f s`, does what `p` does from `s`:
it ends in the same result or is halted by the same exception, in the state
that `f` makes of the last one. The rules walk through the two programs side
by side.
-/

namespace Exec

variable {ε σ α β : Type}

/- What follows a program depends on its run alone. -/
theorem run_bind_congr {p q : EStateM ε σ β} {s t : σ} (h : p s = q t) (f : β → EStateM ε σ α) : (p >>= f) s = (q >>= f) t := by
  simp only [bind, EStateM.bind, h]

/- A run of which the last state is changed. -/
def changed (f : σ → σ) : EStateM.Result ε σ α → EStateM.Result ε σ α
  | .ok a s => .ok a (f s)
  | .error e s => .error e (f s)

def Mirrors (f : σ → σ) (p q : EStateM ε σ α) (s : σ) : Prop := q (f s) = changed f (p s)

variable {f : σ → σ} {s : σ}

theorem mirrors_pure (a : α) : Mirrors f (pure a : EStateM ε σ α) (pure a) s := rfl

theorem mirrors_set {t u : σ} (h : u = f t) : Mirrors f (set t : EStateM ε σ PUnit) (set u) s := by
  rw [h]
  rfl

theorem mirrors_modify {g h : σ → σ} (hg : h (f s) = f (g s)) : Mirrors f (modify g : EStateM ε σ PUnit) (modify h) s :=
  congrArg (EStateM.Result.ok PUnit.unit) hg

theorem mirrors_get_bind {g h : σ → EStateM ε σ α} (hg : Mirrors f (g s) (h (f s)) s) :
    Mirrors f (get >>= g) (get >>= h) s := hg

theorem mirrors_bind {p q : EStateM ε σ β} {g h : β → EStateM ε σ α} (hp : Mirrors f p q s)
    (hg : ∀ b t, p s = .ok b t → Mirrors f (g b) (h b) t) : Mirrors f (p >>= g) (q >>= h) s := by
  unfold Mirrors at *
  cases hrun : p s with
  | ok b t =>
    rw [hrun] at hp
    rw [run_bind_ok hrun, run_bind_ok hp]
    exact hg b t hrun
  | error e t =>
    rw [hrun] at hp
    rw [run_bind_error hrun, run_bind_error hp]
    rfl

theorem mirrors_ite {c : Prop} [Decidable c] {p q p' q' : EStateM ε σ α} (hp : c → Mirrors f p p' s)
    (hq : ¬ c → Mirrors f q q' s) : Mirrors f (if c then p else q) (if c then p' else q') s := by
  by_cases hc : c
  · rw [if_pos hc, if_pos hc]
    exact hp hc
  · rw [if_neg hc, if_neg hc]
    exact hq hc

theorem Mirrors.ok {p q : EStateM ε σ α} {a : α} {t : σ} (h : Mirrors f p q s) (hp : p s = .ok a t) :
    q (f s) = .ok a (f t) := by
  unfold Mirrors at h
  rw [h, hp]
  rfl

theorem Mirrors.error {p q : EStateM ε σ α} {e : ε} {t : σ} (h : Mirrors f p q s) (hp : p s = .error e t) :
    q (f s) = .error e (f t) := by
  unfold Mirrors at h
  rw [h, hp]
  rfl

end Exec
