import Mathlib.Logic.Function.Basic
import Mathlib.Data.List.Basic

/-!
# Writing many places of a function

`writes f v ps b` writes `v p` at `f p` for each `p` of `ps` in turn. A place that is not written keeps its value; a place
whose writes agree gets theirs.
-/

namespace NewXv6.Lib

variable {P I V : Type} [DecidableEq I] {f : P → I} {v : P → V} {ps : List P} {b : I → V} {k : I}

/-- Write `v p` at `f p`, for each `p` in turn. -/
def writes (f : P → I) (v : P → V) (ps : List P) (b : I → V) : I → V :=
  ps.foldl (fun b p => Function.update b (f p) (v p)) b

theorem writes_of_notMem (h : ∀ p ∈ ps, f p ≠ k) : writes f v ps b k = b k := by
  induction ps generalizing b with
  | nil => rfl
  | cons p ps ih =>
    have hp := h p List.mem_cons_self
    show writes f v ps (Function.update b (f p) (v p)) k = b k
    rw [ih fun q hq => h q (List.mem_cons_of_mem p hq), Function.update_of_ne hp.symm]

theorem writes_of_mem {x : V} {p : P} (hp : p ∈ ps) (hk : f p = k) (h : ∀ q ∈ ps, f q = k → v q = x) :
    writes f v ps b k = x := by
  induction ps generalizing b p with
  | nil => cases hp
  | cons q ps ih =>
    show writes f v ps (Function.update b (f q) (v q)) k = x
    by_cases hq : ∃ p ∈ ps, f p = k
    · obtain ⟨p', hp', hk'⟩ := hq
      exact ih hp' hk' fun r hr => h r (List.mem_cons_of_mem q hr)
    · have hqk : f q = k := by
        rcases List.mem_cons.1 hp with rfl | hp
        · exact hk
        · exact absurd ⟨p, hp, hk⟩ hq
      have hnot : ∀ p ∈ ps, f p ≠ k := fun p hp hc => hq ⟨p, hp, hc⟩
      rw [writes_of_notMem hnot, hqk, Function.update_self]
      exact h q List.mem_cons_self hqk

end NewXv6.Lib
