import NewXv6.Lib.Prog
import Mathlib.Algebra.Group.Pi.Basic
import Mathlib.Tactic.Abel

/-!
# Programs that change a quantity by a known amount

A `Meter` reads a quantity off a state, an element of a commutative group, and a part of the state that has to stay as
it is. `Adds M m δ` says that `m`, from any state, changes the quantity by `δ a` when it ends with the value `a`,
whatever it reads on the way; programs that stop are not asked. The amounts along a program add up (`Adds.bind`).
-/

namespace NewXv6.Lib

variable {σ τ ε ω α β G κ κ' : Type}

/-- The contract that asks for nothing. -/
def Contract.any : Contract ε ω where
  assume _ := True
  ensure _ := True
  fail _ := True

/-- A program of which nothing is asked may end in any state. -/
theorem wp_any {m : Prog σ ε ω α} {Q : α → σ → Prop} {s : σ} (hQ : ∀ a t, Q a t) : Wp Contract.any m Q s := by
  refine ⟨along_of_ensure fun _ _ => trivial, fun _ => ?_⟩
  cases (m s).1 with
  | ok r => exact hQ r.1 r.2
  | error e => exact trivial

/-- A quantity of a state, and the part of the state that stays. -/
structure Meter (σ G κ : Type) where
  value : σ → G
  kept : σ → κ

variable [AddCommGroup G] {M : Meter σ G κ} {M' : Meter τ G κ'}

/-- `m` changes the quantity by `δ a`, where `a` is its value. -/
def Adds (M : Meter σ G κ) (m : Prog σ ε ω α) (δ : α → G) : Prop :=
  ∀ s, Wp Contract.any m (fun a t => M.value t = M.value s + δ a ∧ M.kept t = M.kept s) s

namespace Adds

theorem pure {a : α} {δ : α → G} (h : δ a = 0) : Adds M (Pure.pure a : Prog σ ε ω α) δ := by
  intro s
  rw [wp_pure, h, add_zero]
  exact ⟨rfl, rfl⟩

/-- What the first program adds, the rest has to add less. -/
theorem bind {m : Prog σ ε ω α} {f : α → Prog σ ε ω β} {δ : α → G} {δ' : β → G} (hm : Adds M m δ)
    (hf : ∀ a, Adds M (f a) fun b => δ' b - δ a) : Adds M (m >>= f) δ' := by
  intro s
  rw [wp_bind]
  refine (hm s).mono fun a t ht => (hf a t).mono fun b u hu => ?_
  obtain ⟨hv, hk⟩ := ht
  obtain ⟨hv', hk'⟩ := hu
  refine ⟨?_, hk'.trans hk⟩
  dsimp only at hv'
  rw [hv', hv]
  abel

/-- A program that adds nothing, and then another. -/
theorem seq {m : Prog σ ε ω α} {f : α → Prog σ ε ω β} {δ : β → G} (hm : Adds M m fun _ => 0)
    (hf : ∀ a, Adds M (f a) δ) : Adds M (m >>= f) δ := by
  refine hm.bind fun a => ?_
  simp only [sub_zero]
  exact hf a

/-- Two programs that add up to nothing. -/
theorem congr {m : Prog σ ε ω α} {δ δ' : α → G} (hm : Adds M m δ) (h : ∀ a, δ a = δ' a) : Adds M m δ' := by
  rw [← funext h]
  exact hm

theorem get (f : σ → Prog σ ε ω β) {δ : β → G} (hf : ∀ s, Adds M (f s) δ) : Adds M (Prog.get >>= f) δ := by
  intro s
  rw [wp_bind, wp_get]
  exact hf s s

theorem modify {f : σ → σ} {g : G} (hv : ∀ s, M.value (f s) = M.value s + g) (hk : ∀ s, M.kept (f s) = M.kept s) :
    Adds M (Prog.modify f : Prog σ ε ω Unit) fun _ => g := by
  intro s
  rw [wp_modify]
  exact ⟨hv s, hk s⟩

theorem throw {e : ε} {δ : α → G} : Adds M (Prog.throw e : Prog σ ε ω α) δ := by
  intro s
  rw [wp_throw]
  trivial

theorem emit (x : ω) : Adds M (Prog.emit x : Prog σ ε ω Unit) fun _ => 0 := by
  intro s
  rw [wp_emit, add_zero]
  exact fun _ => ⟨trivial, rfl, rfl⟩

theorem ite {c : Prop} [Decidable c] {m n : Prog σ ε ω α} {δ : α → G} (hm : c → Adds M m δ) (hn : ¬c → Adds M n δ) :
    Adds M (if c then m else n) δ := by
  split
  · exact hm ‹_›
  · exact hn ‹_›

theorem discard {m : Prog σ ε ω α} {g : G} (hm : Adds M m fun _ => g) :
    Adds M (Functor.discard m : Prog σ ε ω Unit) fun _ => g := by
  intro s
  rw [wp_discard]
  exact hm s

/-- A loop whose rounds add nothing. -/
theorem forEach {f : β → Prog σ ε ω Unit} (hf : ∀ x, Adds M (f x) fun _ => 0) (l : List β) :
    Adds M (Prog.forEach f l) fun _ => 0 := by
  induction l with
  | nil => exact pure rfl
  | cons x xs ih => exact seq (hf x) fun _ => ih

/-- A program on the part of the state that the quantity is about. -/
theorem zoom {part : τ → σ} {put : σ → τ → τ} (hv : ∀ t, M'.value t = M.value (part t))
    (hput : ∀ s t, M'.value (put s t) = M.value s) (hk : ∀ s t, M'.kept (put s t) = M'.kept t)
    {m : Prog σ ε ω α} {δ : α → G} (hm : Adds M m δ) : Adds M' (m.zoom part put) δ := by
  intro t
  rw [wp_zoom]
  refine (hm (part t)).mono fun a s hs => ⟨?_, hk s t⟩
  rw [hput, hs.1, hv]

/-- A program on a part of the state that the quantity is not about. -/
theorem zoom_other {part : τ → σ} {put : σ → τ → τ} (hv : ∀ s t, M'.value (put s t) = M'.value t)
    (hk : ∀ s t, M'.kept (put s t) = M'.kept t) (m : Prog σ ε ω α) : Adds M' (m.zoom part put) fun _ => 0 := by
  intro t
  rw [wp_zoom]
  refine wp_any fun a s => ⟨?_, hk s t⟩
  rw [hv, add_zero]

end Adds

end NewXv6.Lib
