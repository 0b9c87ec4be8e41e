import Mathlib.Data.List.Basic

/-!
# Circular lists

`next` leads from each element of a list to the one behind it, and from the last to the first. A cycle may be read from any
of its elements on (`Cyclic.rotate`), and a change behind one element is a change of what stands there (`Cyclic.splice`).
-/

namespace NewXv6.Lib

variable {I : Type} {next next' : I → I} {e p : I} {l A B M M' : List I}

/-- Each element leads to the one behind it, and the last to `e`. -/
def Leads (next : I → I) (e : I) : List I → Prop
  | [] => True
  | a :: l => next a = l.headD e ∧ Leads next e l

theorem leads_append : Leads next e (A ++ B) ↔ Leads next (B.headD e) A ∧ Leads next e B := by
  induction A with
  | nil => exact (and_iff_right trivial).symm
  | cons a A ih =>
    rw [List.cons_append, Leads, Leads, ih, and_assoc]
    cases A <;> rfl

theorem Leads.congr (h : Leads next e l) (heq : ∀ a ∈ l, next' a = next a) : Leads next' e l := by
  induction l with
  | nil => trivial
  | cons a l ih =>
    exact ⟨(heq a List.mem_cons_self).trans h.1, ih h.2 fun b hb => heq b (List.mem_cons_of_mem _ hb)⟩

/-- Each element leads to the one behind it, and the last to the first. -/
def Cyclic (next : I → I) : List I → Prop
  | [] => True
  | a :: l => Leads next a (a :: l)

theorem Cyclic.rotate (h : Cyclic next (A ++ B)) : Cyclic next (B ++ A) := by
  cases A with
  | nil => rwa [List.append_nil]
  | cons a A =>
    cases B with
    | nil => rwa [List.append_nil] at h
    | cons b B =>
      obtain ⟨hA, hB⟩ := leads_append.1 (show Leads next a ((a :: A) ++ (b :: B)) from h)
      exact (leads_append (A := b :: B) (B := a :: A)).2 ⟨hB, hA⟩

/-- What is behind an element. -/
theorem Cyclic.next_eq (h : Cyclic next (p :: l)) : next p = l.headD p := h.1

/-- `M` behind `p` becomes `M'`. -/
theorem Cyclic.splice (h : Cyclic next (p :: (M ++ l))) (hM : Leads next' (l.headD p) (p :: M'))
    (heq : ∀ a ∈ l, next' a = next a) : Cyclic next' (p :: (M' ++ l)) := by
  have hl : Leads next p l := (leads_append (A := p :: M)).1 h |>.2
  exact (leads_append (A := p :: M')).2 ⟨hM, hl.congr heq⟩

end NewXv6.Lib
