import NewXv6.Lib.Run

/-!
# Runs whose actions meet a condition

`Path step cond s₀ tr s`: the actions `tr` lead from `s₀` to `s`, and each of them meets `cond` in the state it is taken
in. With a condition that always holds these are the runs of `step`. `Path.invariant` is the rule for what one action
after the other keeps.
-/

namespace NewXv6.Lib

variable {σ α : Type} {step : σ → α → Option σ} {cond : σ → α → Prop} {s₀ s t : σ} {tr : List α} {a : α}

/-- The states the actions lead to. -/
inductive Path (step : σ → α → Option σ) (cond : σ → α → Prop) (s₀ : σ) : List α → σ → Prop
  | nil : Path step cond s₀ [] s₀
  | snoc {tr : List α} {s t : σ} {a : α} :
      Path step cond s₀ tr s → cond s a → step s a = some t → Path step cond s₀ (tr ++ [a]) t

/-- A path is a run. -/
theorem Path.run (h : Path step cond s₀ tr s) : run step s₀ tr = some s := by
  induction h with
  | nil => rfl
  | snoc _ _ hstep ih => exact run_snoc.2 ⟨_, ih, hstep⟩

/-- A path under a condition is one under a weaker condition. -/
theorem Path.mono {cond' : σ → α → Prop} (h : Path step cond s₀ tr s) (hc : ∀ s a, cond s a → cond' s a) :
    Path step cond' s₀ tr s := by
  induction h with
  | nil => exact .nil
  | snoc _ ha hstep ih => exact .snoc ih (hc _ _ ha) hstep

/-- **Invariants of paths.** -/
theorem Path.invariant (I : σ → Prop) (h₀ : I s₀) (hstep : ∀ s a t, I s → cond s a → step s a = some t → I t)
    (h : Path step cond s₀ tr s) : I s := by
  induction h with
  | nil => exact h₀
  | snoc _ hc ha ih => exact hstep _ _ _ ih hc ha

/-- The run under a test of the condition is a path. -/
theorem Path.of_run [∀ s a, Decidable (cond s a)]
    (h : Lib.run (fun s a => if cond s a then step s a else none) s₀ tr = some s) : Path step cond s₀ tr s := by
  refine run_induction (fun tr s => Path step cond s₀ tr s) .nil (fun tr s a t _ ih ha => ?_) tr s h
  simp only [Option.ite_none_right_eq_some] at ha
  exact .snoc ih ha.1 ha.2

end NewXv6.Lib
