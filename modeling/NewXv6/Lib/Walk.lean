import Mathlib.Data.List.Induction
import Mathlib.Algebra.Notation.Defs

/-!
# Index trees

A store of index blocks gives each block a child at each index; 0 stands for no block. `walk child a ks` follows the
indices `ks` from block `a`. A change of the store that keeps the blocks on the way keeps the walk (`walk_congr`); a
new entry in one block adds the walks through it and no other (`walk_link`).
-/

namespace NewXv6.Lib

variable {A I : Type} [Zero A] [DecidableEq A]

/-- The block reached from `a` by the indices `ks`. -/
def walk (child : A → I → A) : A → List I → A
  | a, [] => a
  | a, k :: ks => if a = 0 then 0 else walk child (child a k) ks

variable {child child' : A → I → A}

@[simp] theorem walk_nil (a : A) : walk child a [] = a := rfl

@[simp] theorem walk_zero (ks : List I) : walk child 0 ks = 0 := by
  cases ks <;> simp [walk]

theorem walk_append (a : A) (ks ls : List I) : walk child a (ks ++ ls) = walk child (walk child a ks) ls := by
  induction ks generalizing a with
  | nil => rfl
  | cons k ks ih =>
    simp only [List.cons_append, walk]
    split
    · rw [walk_zero]
    · exact ih _

theorem walk_snoc (a : A) (ks : List I) (k : I) :
    walk child a (ks ++ [k]) = if walk child a ks = 0 then 0 else child (walk child a ks) k := by
  rw [walk_append]
  simp [walk]

/-- A walk that arrives has been somewhere before. -/
theorem walk_prefix_ne {a : A} {k l : List I} (h : walk child a (k ++ l) ≠ 0) : walk child a k ≠ 0 := by
  rw [walk_append] at h
  rintro h₀
  rw [h₀, walk_zero] at h
  exact h rfl

/-- Only the blocks on the way matter. -/
theorem walk_congr {a : A} : ∀ {ks : List I},
    (∀ ls i, ls ++ [i] <+: ks → walk child a ls ≠ 0 → child' (walk child a ls) i = child (walk child a ls) i) →
      walk child' a ks = walk child a ks := by
  intro ks
  induction ks using List.reverseRecOn with
  | nil => exact fun _ => rfl
  | append_singleton ks k ih =>
    intro h
    rw [walk_snoc, walk_snoc, ih fun ls i hl => h ls i (hl.trans (List.prefix_append _ _))]
    split
    · rfl
    · exact h ks k (List.prefix_refl _) ‹_›

/-- A new entry `b` at index `k` of the block reached by `ks₀`, where `b` is an empty block. -/
theorem walk_link [DecidableEq I] {a b : A} {k : I} {ks₀ : List I} (h₀ : walk child a ks₀ ≠ 0)
    (hk : child (walk child a ks₀) k = 0)
    (hx : ∀ i, child' (walk child a ks₀) i = if i = k then b else child (walk child a ks₀) i)
    (hb : ∀ i, child' b i = 0) : ∀ {ks : List I},
    (∀ ls i, ls ++ [i] <+: ks → walk child a ls ≠ 0 → ls ≠ ks₀ →
      child' (walk child a ls) i = child (walk child a ls) i) →
      walk child' a ks = if ks = ks₀ ++ [k] then b else walk child a ks := by
  intro ks
  induction ks using List.reverseRecOn with
  | nil => simp
  | append_singleton ks i ih =>
    intro h
    rw [walk_snoc, ih fun ls j hl => h ls j (hl.trans (List.prefix_append _ _))]
    by_cases hks : ks = ks₀ ++ [k]
    · -- below the new block there is nothing, before and after
      subst hks
      have hold : walk child a (ks₀ ++ [k]) = 0 := by rw [walk_snoc, if_neg h₀, hk]
      have hne : ¬(ks₀ ++ [k] ++ [i] = ks₀ ++ [k]) := by simp
      rw [if_pos rfl, if_neg hne, walk_snoc, if_pos hold, hb]
      simp
    · rw [if_neg hks, walk_snoc]
      by_cases hz : walk child a ks = 0
      · have hne : ¬(ks ++ [i] = ks₀ ++ [k]) := by
          intro he
          rw [(List.append_inj' he rfl).1] at hz
          exact h₀ hz
        rw [if_pos hz, if_neg hne, if_pos hz]
      · rw [if_neg hz, if_neg hz]
        by_cases he : ks = ks₀
        · subst he
          rw [hx]
          simp
        · rw [if_neg fun hc : ks ++ [i] = ks₀ ++ [k] => he (List.append_inj' hc rfl).1]
          exact h ks i (List.prefix_refl _) hz he

end NewXv6.Lib
