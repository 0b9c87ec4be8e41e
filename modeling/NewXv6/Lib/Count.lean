import Mathlib.Data.Fintype.Basic
import Mathlib.Data.Finset.Card
import Mathlib.Algebra.BigOperators.Fin
import Mathlib.Algebra.BigOperators.Pi
import Mathlib.Algebra.Order.Ring.Int
import Mathlib.Tactic.Abel

/-!
# Counting pointers

`count f b` is the number of holders whose pointer, as `f` gives it, is `b`. The lemmas follow the changes a holder can
make: take a pointer, give it up, exchange it. `held o` is what a holder of the pointer `o` adds to the counts, so that
any change of one holder is `count_update`, and of one row of a table of holders `count_row`.
-/

namespace NewXv6.Lib

section

variable {X B : Type} [Fintype X] [DecidableEq X] [DecidableEq B]

/-- The number of holders of `b`. -/
def count (f : X → Option B) (b : B) : Nat := (Finset.univ.filter fun x => f x = some b).card

omit [DecidableEq X] in
theorem count_pos {f : X → Option B} {x : X} {b : B} (h : f x = some b) : 0 < count f b :=
  Finset.card_pos.2 ⟨x, by simp [h]⟩

/-- A holder takes a pointer. -/
theorem count_take {f : X → Option B} {x : X} (h : f x = none) (b : B) :
    count (Function.update f x (some b)) = Function.update (count f) b (count f b + 1) := by
  funext c
  by_cases hc : c = b
  · subst hc
    have : (Finset.univ.filter fun y => Function.update f x (some c) y = some c) =
        insert x (Finset.univ.filter fun y => f y = some c) := by
      ext y
      by_cases hy : y = x
      · subst hy; simp
      · simp [hy]
    rw [Function.update_self, count, this, Finset.card_insert_of_notMem (by simp [h])]
    rfl
  · rw [Function.update_of_ne hc]
    unfold count
    congr 1
    ext y
    by_cases hy : y = x
    · subst hy
      simp [h, Ne.symm hc]
    · simp [hy]

/-- A holder gives a pointer up. -/
theorem count_drop {f : X → Option B} {x : X} {b : B} (h : f x = some b) :
    count (Function.update f x none) = Function.update (count f) b (count f b - 1) := by
  have hback : Function.update (Function.update f x none) x (some b) = f := by
    rw [Function.update_idem, ← h, Function.update_eq_self]
  have htake := count_take (f := Function.update f x none) (x := x) (Function.update_self _ _ _) b
  rw [hback] at htake
  rw [htake, Function.update_self, Nat.add_sub_cancel, Function.update_idem, Function.update_eq_self]

/-- A holder exchanges a pointer for another. -/
theorem count_swap {f : X → Option B} {x : X} {a : B} (h : f x = some a) (b : B) :
    count (Function.update f x (some b)) = Function.update (Function.update (count f) a (count f a - 1)) b
      (Function.update (count f) a (count f a - 1) b + 1) := by
  rw [← count_drop h, ← count_take (x := x) (Function.update_self _ _ _) b, Function.update_idem]

/-- What a holder adds to the counts. -/
def held : Option B → B → Int
  | none => 0
  | some b => Pi.single b 1

omit [DecidableEq X] in
theorem count_eq_sum (f : X → Option B) (b : B) : (count f b : Int) = ∑ x, held (f x) b := by
  unfold count
  rw [Finset.card_filter, Nat.cast_sum]
  refine Finset.sum_congr rfl fun x _ => ?_
  cases hf : f x with
  | none => simp [held]
  | some c =>
    by_cases hc : c = b
    · subst hc; simp [held]
    · simp [held, hc]

/-- One holder changes its pointer. -/
theorem count_update (f : X → Option B) (x : X) (o : Option B) (b : B) :
    (count (Function.update f x o) b : Int) = count f b - held (f x) b + held o b := by
  rw [count_eq_sum, count_eq_sum, ← Finset.add_sum_erase _ _ (Finset.mem_univ x),
    ← Finset.add_sum_erase (a := x) _ (fun y => held (f y) b) (Finset.mem_univ x), Function.update_self]
  have : ∑ y ∈ Finset.univ.erase x, held (Function.update f x o y) b = ∑ y ∈ Finset.univ.erase x, held (f y) b :=
    Finset.sum_congr rfl fun y hy => by rw [Function.update_of_ne (Finset.ne_of_mem_erase hy)]
  rw [this]
  abel

end

section

variable {X Y B : Type} [Fintype X] [Fintype Y] [DecidableEq X] [DecidableEq B]

/-- The pointers of one row of a table change. -/
theorem count_row (f : X → Y → Option B) (x : X) (g : Y → Option B) (b : B) :
    (count (fun z : X × Y => Function.update f x g z.1 z.2) b : Int) =
      count (fun z : X × Y => f z.1 z.2) b - count (f x) b + count g b := by
  simp only [count_eq_sum, Fintype.sum_prod_type]
  rw [← Finset.add_sum_erase _ _ (Finset.mem_univ x),
    ← Finset.add_sum_erase (a := x) _ (fun y => ∑ z, held (f y z) b) (Finset.mem_univ x), Function.update_self]
  have : ∑ y ∈ Finset.univ.erase x, ∑ z, held (Function.update f x g y z) b =
      ∑ y ∈ Finset.univ.erase x, ∑ z, held (f y z) b :=
    Finset.sum_congr rfl fun y hy => by rw [Function.update_of_ne (Finset.ne_of_mem_erase hy)]
  rw [this]
  abel

omit [Fintype Y] [DecidableEq B] in
/-- One term of a sum changes. -/
theorem sum_update (w : B → Nat) (f : X → B) (x : X) (a : B) :
    ∑ y, w (Function.update f x a y) + w (f x) = ∑ y, w (f y) + w a := by
  rw [← Finset.add_sum_erase _ _ (Finset.mem_univ x),
    ← Finset.add_sum_erase (a := x) _ (fun y => w (f y)) (Finset.mem_univ x), Function.update_self]
  have : ∑ y ∈ Finset.univ.erase x, w (Function.update f x a y) = ∑ y ∈ Finset.univ.erase x, w (f y) :=
    Finset.sum_congr rfl fun y hy => by rw [Function.update_of_ne (Finset.ne_of_mem_erase hy)]
  rw [this]
  omega

/-- The counts of the pointers in a row. -/
theorem sum_held {n : Nat} (f : Fin n → Option B) :
    ((List.finRange n).map fun x => held (f x)).sum = fun b => (count f b : Int) := by
  rw [← Fin.sum_univ_def]
  funext b
  rw [count_eq_sum, Finset.sum_apply]

end

end NewXv6.Lib
