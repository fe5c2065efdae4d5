import Mathlib.Data.List.Induction
import Mathlib.Tactic.Common

/-!
# Runs of a machine

A machine answers each command and goes to a new state. One machine refines
another when related states give the same answers and stay related.
-/

namespace Machine

variable {ι ο σ τ : Type}

/-- The answers to the commands, and the state behind them. -/
def run (step : ι → σ → ο × σ) : List ι → σ → List ο × σ
  | [], s => ([], s)
  | i :: is, s => ((step i s).1 :: (run step is (step i s).2).1, (run step is (step i s).2).2)

/-- One command of the first machine is one of the second. -/
def Refines (R : σ → τ → Prop) (step : ι → σ → ο × σ) (spec : ι → τ → ο × τ) : Prop :=
  ∀ i s t, R s t → (step i s).1 = (spec i t).1 ∧ R (step i s).2 (spec i t).2

theorem run_refines {R : σ → τ → Prop} {step : ι → σ → ο × σ} {spec : ι → τ → ο × τ} (h : Refines R step spec)
    (is : List ι) {s : σ} {t : τ} (hs : R s t) :
    (run step is s).1 = (run spec is t).1 ∧ R (run step is s).2 (run spec is t).2 := by
  induction is generalizing s t with
  | nil => exact ⟨rfl, hs⟩
  | cons i is ih =>
    obtain ⟨hanswer, hnext⟩ := h i s t hs
    obtain ⟨hanswers, hend⟩ := ih hnext
    refine ⟨?_, hend⟩
    rw [run, run, hanswer, hanswers]

/- What every command keeps holds behind a run. -/
theorem run_keeps {I : σ → Prop} {step : ι → σ → ο × σ} (h : ∀ i s, I s → I (step i s).2) (is : List ι) {s : σ}
    (hs : I s) : I (run step is s).2 := by
  induction is generalizing s with
  | nil => exact hs
  | cons i is ih => exact ih (h i s hs)

theorem run_map {κ : Type} (step : ι → σ → ο × σ) (f : κ → ι) (ks : List κ) (s : σ) :
    run step (ks.map f) s = run (fun k => step (f k)) ks s := by
  induction ks generalizing s with
  | nil => rfl
  | cons k ks ih => rw [List.map_cons, run, ih, run]

theorem run_append (step : ι → σ → ο × σ) (is js : List ι) (s : σ) :
    run step (is ++ js) s =
      ((run step is s).1 ++ (run step js (run step is s).2).1, (run step js (run step is s).2).2) := by
  induction is generalizing s with
  | nil => rfl
  | cons i is ih => rw [List.cons_append, run, ih, run, List.cons_append]

theorem run_length (step : ι → σ → ο × σ) (is : List ι) (s : σ) : (run step is s).1.length = is.length := by
  induction is generalizing s with
  | nil => rfl
  | cons i is ih => rw [run, List.length_cons, List.length_cons, ih]

/-- The commands of a run with their answers, the newest first. -/
def history (step : ι → σ → ο × σ) (is : List ι) (s : σ) : List (ι × ο) := (is.zip (run step is s).1).reverse

theorem history_snoc (step : ι → σ → ο × σ) (is : List ι) (i : ι) (s : σ) :
    history step (is ++ [i]) s = (i, (step i (run step is s).2).1) :: history step is s := by
  rw [history, run_append, List.zip_append (run_length step is s).symm, List.reverse_append]
  rfl

/- What every command keeps of the state and the history so far. -/
theorem run_history_keeps {I : σ → List (ι × ο) → Prop} {step : ι → σ → ο × σ}
    (h : ∀ i s l, I s l → I (step i s).2 ((i, (step i s).1) :: l)) (is : List ι) {s : σ} (hs : I s []) :
    I (run step is s).2 (history step is s) := by
  induction is using List.reverseRecOn with
  | nil => exact hs
  | append_singleton is i ih =>
    rw [history_snoc, run_append]
    exact h i _ _ ih

end Machine
