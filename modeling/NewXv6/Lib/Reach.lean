import NewXv6.Lib.Prog

/-!
# Runs whose steps meet a condition

`Reached step cond s₀ s w`: inputs that meet `cond` in the states they are taken in lead from `s₀` to `s`, one after the
other, and leave the events `w`. `Reached.invariant` is the rule for what every such run keeps.
-/

namespace NewXv6.Lib

variable {σ ε ω χ : Type} {step : χ → Prog σ ε ω Unit} {cond : σ → χ → Prop} {s₀ s : σ} {w : List ω}

/-- The states that are reached, and the events on the way. -/
inductive Reached (step : χ → Prog σ ε ω Unit) (cond : σ → χ → Prop) (s₀ : σ) : σ → List ω → Prop
  | start : Reached step cond s₀ s₀ []
  | step {s t : σ} {w v : List ω} {x : χ} : Reached step cond s₀ s w → cond s x → step x s = (.ok ((), t), v) →
    Reached step cond s₀ t (w ++ v)

/-- A weaker condition. -/
theorem Reached.mono {cond' : σ → χ → Prop} (h : Reached step cond s₀ s w) (hc : ∀ s x, cond s x → cond' s x) :
    Reached step cond' s₀ s w := by
  induction h with
  | start => exact .start
  | step _ hx hrun ih => exact .step ih (hc _ _ hx) hrun

/-- **Invariants** that each input keeps, under a contract without assumptions. -/
theorem Reached.invariant (C : Contract ε ω) (hC : ∀ x, C.assume x) (I : σ → Prop) (h₀ : I s₀)
    (hstep : ∀ s x, I s → cond s x → Wp C (step x) (fun _ t => I t) s) (h : Reached step cond s₀ s w) : I s := by
  induction h with
  | start => exact h₀
  | step _ hx hrun ih => exact (hstep _ _ ih hx).run hrun fun y _ => hC y

/-- Take the inputs one after the other where they meet the condition, and test the state and the events at the end. -/
def checkRun (step : χ → Prog σ ε ω Unit) (cond : σ → χ → Prop) [∀ s x, Decidable (cond s x)] (p : σ → List ω → Bool) :
    List χ → σ → List ω → Bool
  | [], s, w => p s w
  | x :: xs, s, w => decide (cond s x) &&
    (step x s).1.toOption.elim false fun r => checkRun step cond p xs r.2 (w ++ (step x s).2)

/-- A run that passes the test. -/
theorem Reached.of_check [∀ s x, Decidable (cond s x)] {p : σ → List ω → Bool} (h : Reached step cond s₀ s w) {xs : List χ}
    (hxs : checkRun step cond p xs s w = true) : ∃ t v, Reached step cond s₀ t v ∧ p t v = true := by
  induction xs generalizing s w with
  | nil => exact ⟨s, w, h, hxs⟩
  | cons x xs ih =>
    rw [checkRun, Bool.and_eq_true, decide_eq_true_eq] at hxs
    obtain ⟨hx, hrest⟩ := hxs
    rcases hrun : step x s with ⟨e | ⟨_, t⟩, v⟩
    · rw [hrun] at hrest
      cases hrest
    · rw [hrun] at hrest
      exact ih (.step h hx hrun) hrest

end NewXv6.Lib
