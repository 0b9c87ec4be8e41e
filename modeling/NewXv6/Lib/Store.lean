import Mathlib.Logic.Function.Basic
import Mathlib.Tactic.Common

/-!
# Sequences of writes

A store maps addresses to values; `store ws d` is the store after the writes `ws`. What an address holds afterwards
is decided by the last write to it (`store_other`, `store_val`).
-/

namespace NewXv6.Lib

variable {A B : Type} [DecidableEq A]

/-- The store after a list of writes, the first write first. -/
def store (ws : List (A × B)) (d : A → B) : A → B := ws.foldl (fun d p => Function.update d p.1 p.2) d

@[simp] theorem store_nil (d : A → B) : store [] d = d := rfl

@[simp] theorem store_cons (p : A × B) (ws : List (A × B)) (d : A → B) :
    store (p :: ws) d = store ws (Function.update d p.1 p.2) := rfl

theorem store_append (ws vs : List (A × B)) (d : A → B) : store (ws ++ vs) d = store vs (store ws d) := by
  simp [store, List.foldl_append]

/-- An address that is not written keeps its value. -/
theorem store_other {ws : List (A × B)} {x : A} (h : ∀ p ∈ ws, p.1 ≠ x) (d : A → B) : store ws d x = d x := by
  induction ws generalizing d with
  | nil => rfl
  | cons p ws ih =>
    rw [store_cons, ih (fun q hq => h q (by simp [hq])), Function.update_of_ne (h p (by simp)).symm]

/-- If every write to `x` writes `v`, a written `x` holds `v`. -/
theorem store_val {ws : List (A × B)} {x : A} {v : B} (hv : ∀ p ∈ ws, p.1 = x → p.2 = v) (hx : ∃ p ∈ ws, p.1 = x)
    (d : A → B) : store ws d x = v := by
  induction ws generalizing d with
  | nil =>
    obtain ⟨p, hp, _⟩ := hx
    simp at hp
  | cons p ws ih =>
    rw [store_cons]
    by_cases h : ∃ q ∈ ws, q.1 = x
    · exact ih (fun q hq => hv q (by simp [hq])) h _
    · rw [store_other (fun q hq hqx => h ⟨q, hq, hqx⟩)]
      obtain ⟨q, hq, hqx⟩ := hx
      rcases List.mem_cons.1 hq with rfl | hq
      · rw [← hqx, Function.update_self]
        exact hv q (by simp) hqx
      · exact absurd ⟨q, hq, hqx⟩ h

end NewXv6.Lib
