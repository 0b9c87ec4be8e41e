import NewXv6.Lib.Prog

/-!
# Which failures there are

`C.only F` is the contract of runs that meet the assumptions of `C` and stop with no failure outside of `F`. What `C` says of
such a run when it ends with a value holds then (`Wp.only`).
-/

namespace NewXv6.Lib

variable {σ ε ω α : Type} {C : Contract ε ω} {F : ε → Prop}

def Contract.only (C : Contract ε ω) (F : ε → Prop) : Contract ε ω := ⟨fun _ => True, C.assume, F⟩

variable {m : Prog σ ε ω α} {Q Q' : α → σ → Prop} {s : σ}

/-- Both contracts of one run. -/
theorem Wp.only (h : Wp (C.only F) m Q s) (h' : Wp C m Q' s) : Wp (C.only F) m (fun a t => Q a t ∧ Q' a t) s := by
  refine ⟨h.1, fun ha => ?_⟩
  have hassume := h.1.ensure ha
  have hends := h.2 ha
  have hends' := h'.2 hassume
  revert hends hends'
  cases (m s).1 with
  | ok r => exact fun h₁ h₂ => ⟨h₁, h₂⟩
  | error e => exact fun h₁ _ => h₁

/-- A run ends with a value, or with a failure it may have. -/
theorem Wp.ends (h : Wp (C.only F) m Q s) :
    (∃ a t w, m s = (.ok (a, t), w) ∧ Q a t) ∨ ∃ e w, m s = (.error e, w) ∧ F e := by
  have hends := h.2 fun _ _ => trivial
  rcases hm : m s with ⟨e | ⟨a, t⟩, w⟩
  · rw [hm] at hends
    exact .inr ⟨e, w, rfl, hends⟩
  · rw [hm] at hends
    exact .inl ⟨a, t, w, rfl, hends⟩

end NewXv6.Lib
