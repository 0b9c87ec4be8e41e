import Mathlib.Data.List.Induction

/-!
# Runs of a system of labelled steps

`step s a` is the state after the action `a`, or `none` if `a` is not enabled in `s`; `run step s tr` is the state after
the actions of `tr`. An invariant may speak of the actions so far: `run_induction` is its rule.
-/

namespace NewXv6.Lib

variable {σ α : Type} {step : σ → α → Option σ}

/-- The state after the actions of `tr`, if all of them are enabled in turn. -/
def run (step : σ → α → Option σ) : σ → List α → Option σ
  | s, [] => some s
  | s, a :: tr => (step s a).bind fun t => run step t tr

theorem run_append (s : σ) (tr tr' : List α) :
    run step s (tr ++ tr') = (run step s tr).bind fun t => run step t tr' := by
  induction tr generalizing s with
  | nil => rfl
  | cons a tr ih =>
    show (step s a).bind (fun t => run step t (tr ++ tr')) = ((step s a).bind fun t => run step t tr).bind _
    rw [Option.bind_assoc]
    congr
    funext t
    exact ih t

/-- The last action of a run. -/
theorem run_snoc {s u : σ} {tr : List α} {a : α} :
    run step s (tr ++ [a]) = some u ↔ ∃ t, run step s tr = some t ∧ step t a = some u := by
  rw [run_append, Option.bind_eq_some_iff]
  simp only [run, Option.bind_fun_some]

/-- **Invariants of runs.** -/
theorem run_induction {s₀ : σ} (P : List α → σ → Prop) (h₀ : P [] s₀)
    (hstep : ∀ tr s a t, run step s₀ tr = some s → P tr s → step s a = some t → P (tr ++ [a]) t) :
    ∀ tr s, run step s₀ tr = some s → P tr s := by
  intro tr
  induction tr using List.reverseRecOn with
  | nil =>
    intro s h
    cases h
    exact h₀
  | append_singleton tr a ih =>
    intro t h
    obtain ⟨s, hs, ha⟩ := run_snoc.1 h
    exact hstep tr s a t hs (ih s hs) ha

end NewXv6.Lib
