import LightMqtt.Base.Wp

/-!
# Two builds of a program

`Simulates I p q s` says that every run of `p` from `s` that is not halted is a
run of `q` as well, and ends in a state that satisfies `I`. The rules walk
through the two programs side by side.
-/

namespace Exec

variable {ε σ α β : Type} {I : σ → Prop} {s t : σ}

def Simulates (I : σ → Prop) (p q : EStateM ε σ α) (s : σ) : Prop :=
  ∀ a t, p s = .ok a t → q s = .ok a t ∧ I t

theorem simulates_pure (h : I s) (a : α) : Simulates I (pure a : EStateM ε σ α) (pure a) s := by
  intro b t hb
  obtain ⟨-, rfl⟩ := ok_pure hb
  exact ⟨hb, h⟩

theorem simulates_throw (e : ε) (q : EStateM ε σ α) : Simulates I (throw e) q s := by
  intro a t h
  contradiction

theorem simulates_modify {f : σ → σ} (h : I (f s)) :
    Simulates I (modify f : EStateM ε σ PUnit) (modify f) s := by
  intro a t ha
  cases ha
  exact ⟨rfl, h⟩

theorem simulates_set (h : I t) : Simulates I (set t : EStateM ε σ PUnit) (set t) s := by
  intro a u ha
  cases ha
  exact ⟨rfl, h⟩

theorem simulates_get_bind {f g : σ → EStateM ε σ α} (h : Simulates I (f s) (g s) s) :
    Simulates I (get >>= f) (get >>= g) s := h

theorem simulates_modify_bind {k : σ → σ} {f g : PUnit → EStateM ε σ α} (h : Simulates I (f ⟨⟩) (g ⟨⟩) (k s)) :
    Simulates I (modify k >>= f) (modify k >>= g) s := h

theorem simulates_set_bind {f g : PUnit → EStateM ε σ α} (h : Simulates I (f ⟨⟩) (g ⟨⟩) t) :
    Simulates I (set t >>= f) (set t >>= g) s := h

theorem simulates_bind {p q : EStateM ε σ β} {f g : β → EStateM ε σ α} (h : Simulates I p q s)
    (hf : ∀ b t, p s = .ok b t → I t → Simulates I (f b) (g b) t) : Simulates I (p >>= f) (q >>= g) s := by
  intro a u ha
  obtain ⟨b, t, hp, ha⟩ := ok_bind ha
  obtain ⟨hq, ht⟩ := h b t hp
  rw [run_bind_ok hq]
  exact hf b t hp ht a u ha

theorem simulates_map {p q : EStateM ε σ β} (h : Simulates I p q s) (f : β → α) :
    Simulates I (f <$> p) (f <$> q) s := simulates_bind h fun _ _ _ ht => simulates_pure ht _

theorem simulates_ite {c : Prop} [Decidable c] {p q p' q' : EStateM ε σ α} (hp : c → Simulates I p p' s)
    (hq : ¬ c → Simulates I q q' s) : Simulates I (if c then p else q) (if c then p' else q') s := by
  by_cases hc : c
  · rw [if_pos hc, if_pos hc]
    exact hp hc
  · rw [if_neg hc, if_neg hc]
    exact hq hc

/- A program that is the same in both builds. -/
theorem simulates_of_wp {p : EStateM ε σ α} {E : ε → σ → Prop} (h : Wp p s (fun _ t => I t) E) :
    Simulates I p p s := by
  intro a t ha
  exact ⟨ha, wp_ok h ha⟩

end Exec
