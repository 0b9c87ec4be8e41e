import Mathlib.Data.List.Nodup
import Mathlib.Logic.Function.Basic

/-!
# Lists that are linked through an array

`Linked next l`: the links `next` lead through the elements of `l` in order and end after the last one. A doubly linked
list is `Linked next l` and `Linked prior l.reverse`. Elements are appended (`Linked.snoc`), taken out
(`Linked.remove`) and searched (`Linked.seek`).
-/

namespace NewXv6.Lib

variable {I : Type} {next next' : I → Option I}

/-- Follow links to the first element that fits; the number bounds the rounds. The result is `none` when they run out. -/
def seek (next : I → Option I) (fits : I → Bool) : Nat → Option I → Option (Option I)
  | _, none => some none
  | 0, some _ => none
  | fuel + 1, some p => if fits p then some (some p) else seek next fits fuel (next p)

/-- The links lead through `l`. -/
def Linked (next : I → Option I) : List I → Prop
  | [] => True
  | a :: l => next a = l.head? ∧ Linked next l

/-- The links of other elements do not matter. -/
theorem Linked.congr {l : List I} (h : Linked next l) (he : ∀ a ∈ l, next' a = next a) : Linked next' l := by
  induction l with
  | nil => trivial
  | cons a l ih =>
    refine ⟨?_, ih h.2 fun b hb => he b (List.mem_cons_of_mem a hb)⟩
    rw [he a List.mem_cons_self]
    exact h.1

/-- The link of an element. -/
theorem Linked.next_eq {l₁ l₂ : List I} {p : I} (h : Linked next (l₁ ++ p :: l₂)) : next p = l₂.head? := by
  induction l₁ with
  | nil => exact h.1
  | cons a l₁ ih => exact ih h.2

/-- A search in a linked list. -/
theorem Linked.seek {l : List I} (h : Linked next l) (fits : I → Bool) {fuel : Nat} (hfuel : l.length ≤ fuel) :
    seek next fits fuel l.head? = some (l.find? fits) := by
  induction l generalizing fuel with
  | nil => cases fuel <;> rfl
  | cons a l ih =>
    cases fuel with
    | zero => cases hfuel
    | succ fuel =>
      simp only [List.head?_cons, Lib.seek, List.find?_cons]
      cases fits a with
      | true => rfl
      | false =>
        simp only [Bool.false_eq_true, if_false]
        rw [h.1]
        exact ih h.2 (by simpa using hfuel)

/-- The end of a linked list is where the links stop. -/
theorem Linked.find_last {l : List I} (h : Linked next l) : l.find? (fun a => (next a).isNone) = l.getLast? := by
  induction l with
  | nil => rfl
  | cons a l ih =>
    rw [List.find?_cons, h.1]
    cases l with
    | nil => rfl
    | cons b l =>
      simp only [List.head?_cons, Option.isNone_some]
      rw [ih h.2, List.getLast?_cons_cons]

/-- An element without a link is the last one. -/
theorem Linked.getLast_of_next {l : List I} (h : Linked next l) {a : I} (ha : a ∈ l) (hn : next a = none) :
    l.getLast? = some a := by
  induction l with
  | nil => cases ha
  | cons b l ih =>
    cases l with
    | nil =>
      rw [List.mem_singleton.1 ha]
      rfl
    | cons c l =>
      rw [List.getLast?_cons_cons]
      rcases List.mem_cons.1 ha with rfl | ha
      · rw [h.1] at hn
        cases hn
      · exact ih h.2 ha

/-- A link leads to an element. -/
theorem Linked.next_mem {l : List I} (h : Linked next l) {a b : I} (ha : a ∈ l) (hn : next a = some b) : b ∈ l := by
  induction l with
  | nil => cases ha
  | cons c l ih =>
    rcases List.mem_cons.1 ha with rfl | ha
    · rw [h.1] at hn
      exact List.mem_cons_of_mem _ (List.mem_of_mem_head? hn)
    · exact List.mem_cons_of_mem _ (ih h.2 ha)

/-- The first element and the links determine the list. -/
theorem Linked.eq_of_head {l l' : List I} (h : Linked next l) (h' : Linked next l') (hh : l.head? = l'.head?) : l = l' := by
  induction l generalizing l' with
  | nil => exact (List.head?_eq_none_iff.1 hh.symm).symm
  | cons a l ih =>
    obtain ⟨l', rfl⟩ := List.head?_eq_some_iff.1 hh.symm
    rw [ih h.2 h'.2 (h.1.symm.trans h'.1)]

/-- A new last element. -/
theorem Linked.snoc {l : List I} (h : Linked next l) (hnodup : l.Nodup) {p : I} (hp : next' p = none)
    (hlast : ∀ a, l.getLast? = some a → next' a = some p)
    (hother : ∀ a ∈ l, l.getLast? ≠ some a → next' a = next a) : Linked next' (l ++ [p]) := by
  induction l with
  | nil => exact ⟨hp, trivial⟩
  | cons a l ih =>
    obtain ⟨ha, hnodup⟩ := List.nodup_cons.1 hnodup
    cases l with
    | nil => exact ⟨hlast a rfl, hp, trivial⟩
    | cons b l =>
      refine ⟨?_, ih h.2 hnodup (fun c hc => hlast c ?_) fun c hc hne => hother c (List.mem_cons_of_mem a hc) ?_⟩
      · rw [hother a List.mem_cons_self, h.1]
        · rfl
        · rw [List.getLast?_cons_cons]
          exact fun he => ha (List.mem_of_getLast? he)
      · rwa [List.getLast?_cons_cons]
      · rwa [List.getLast?_cons_cons]

/-- An element is taken out: the one before it is linked to the one after it. -/
theorem Linked.remove {l₁ l₂ : List I} {p : I} (h : Linked next (l₁ ++ p :: l₂)) (hnodup : (l₁ ++ p :: l₂).Nodup)
    (hlast : ∀ a, l₁.getLast? = some a → next' a = next p)
    (hother : ∀ a, a ∈ l₁ ∨ a ∈ l₂ → l₁.getLast? ≠ some a → next' a = next a) : Linked next' (l₁ ++ l₂) := by
  induction l₁ with
  | nil => exact h.2.congr fun a ha => hother a (Or.inr ha) nofun
  | cons a l₁ ih =>
    obtain ⟨ha, hnodup⟩ := List.nodup_cons.1 hnodup
    have hap : ∀ c, l₁.getLast? = some c → c ≠ a := by
      rintro c hc rfl
      exact ha (List.mem_append_left _ (List.mem_of_getLast? hc))
    cases l₁ with
    | nil =>
      refine ⟨?_, h.2.2.congr fun c hc => hother c (Or.inr hc) ?_⟩
      · rw [hlast a rfl, h.2.1]
        rfl
      · rintro he
        cases he
        exact ha (List.mem_cons_of_mem p hc)
    | cons b l₁ =>
      simp only [List.getLast?_cons_cons] at hlast hother
      refine ⟨?_, ih h.2 hnodup hlast fun c hc hne => hother c ?_ hne⟩
      · rw [hother a (Or.inl List.mem_cons_self) fun he => hap a he rfl, h.1]
        rfl
      · exact hc.imp_left (List.mem_cons_of_mem a)

/-- A new first element. -/
theorem Linked.cons {l : List I} (h : Linked next l) {p : I} (hp : next' p = l.head?) (hother : ∀ a ∈ l, next' a = next a) :
    Linked next' (p :: l) := ⟨hp, h.congr hother⟩

/-! ## Doubly linked lists -/

/-- A doubly linked list: its ends and its links. -/
structure Links (I : Type) where
  head : Option I
  tail : Option I
  prior : I → Option I
  next : I → Option I

namespace Links

variable {d e : Links I} {l : List I} {p : I}

/-- The list `d` stands for. -/
structure Holds (d : Links I) (l : List I) : Prop where
  nodup : l.Nodup
  head : d.head = l.head?
  tail : d.tail = l.getLast?
  next : Linked d.next l
  prior : Linked d.prior l.reverse

theorem Holds.congr (h : d.Holds l) (hhead : e.head = d.head) (htail : e.tail = d.tail)
    (hnext : ∀ a ∈ l, e.next a = d.next a) (hprior : ∀ a ∈ l, e.prior a = d.prior a) : e.Holds l where
  nodup := h.nodup
  head := hhead.trans h.head
  tail := htail.trans h.tail
  next := h.next.congr hnext
  prior := h.prior.congr fun a ha => hprior a (List.mem_reverse.1 ha)

/-- The neighbours of an element. -/
theorem Holds.split {l₁ l₂ : List I} (h : d.Holds (l₁ ++ p :: l₂)) :
    d.prior p = l₁.getLast? ∧ d.next p = l₂.head? := by
  have hprior := h.prior
  rw [List.reverse_append, List.reverse_cons, List.append_assoc] at hprior
  refine ⟨?_, h.next.next_eq⟩
  rw [hprior.next_eq, ← List.head?_reverse]
  rfl

variable [DecidableEq I]

/-- Change the link of an element, if there is one. -/
def setLink (f : I → Option I) (a v : Option I) : I → Option I :=
  match a with
  | some a => Function.update f a v
  | none => f

theorem setLink_self {f : I → Option I} {a : I} {v : Option I} : setLink f (some a) v a = v := Function.update_self _ _ _

theorem setLink_of_ne {f : I → Option I} {a v : Option I} {b : I} (h : a ≠ some b) : setLink f a v b = f b := by
  cases a with
  | none => rfl
  | some a => exact Function.update_of_ne (fun he => h (congrArg some he.symm)) _ _

/-- Append an element. -/
def push (d : Links I) (p : I) : Links I where
  head := if d.head = none then some p else d.head
  tail := some p
  prior := Function.update d.prior p d.tail
  next := Function.update (setLink d.next d.tail (some p)) p none

/-- Take an element out. -/
def unlink (d : Links I) (p : I) : Links I where
  head := if d.prior p = none then d.next p else d.head
  tail := if d.next p = none then d.prior p else d.tail
  prior := setLink d.prior (d.next p) (d.prior p)
  next := setLink d.next (d.prior p) (d.next p)

theorem Holds.push (h : d.Holds l) (hp : p ∉ l) : (d.push p).Holds (l ++ [p]) := by
  refine ⟨?_, ?_, ?_, ?_, ?_⟩
  · exact List.nodup_append.2 ⟨h.nodup, List.nodup_singleton p, fun a ha b hb he => hp (by simp_all)⟩
  · unfold Links.push
    rw [h.head]
    cases l <;> simp
  · simp [Links.push]
  · refine h.next.snoc h.nodup (Function.update_self _ _ _) (fun a ha => ?_) fun a ha hne => ?_
    · have hap : a ≠ p := fun he => hp (he ▸ List.mem_of_getLast? ha)
      simp only [Links.push, h.tail, ha]
      rw [Function.update_of_ne hap, setLink_self]
    · have hap : a ≠ p := fun he => hp (he ▸ ha)
      simp only [Links.push, h.tail]
      rw [Function.update_of_ne hap, setLink_of_ne hne]
  · rw [List.reverse_append]
    refine h.prior.cons ?_ fun a ha => ?_
    · simp only [Links.push, Function.update_self]
      rw [h.tail, List.head?_reverse]
    · have hap : a ≠ p := fun he => hp (he ▸ List.mem_reverse.1 ha)
      exact Function.update_of_ne hap _ _

theorem Holds.unlink {l₁ l₂ : List I} (h : d.Holds (l₁ ++ p :: l₂)) : (d.unlink p).Holds (l₁ ++ l₂) := by
  obtain ⟨hprior, hnext⟩ := h.split
  have hnodup := h.nodup
  obtain ⟨hn₁, hn₂, hdisj⟩ := List.nodup_append.1 hnodup
  obtain ⟨hp₂, hn₂⟩ := List.nodup_cons.1 hn₂
  refine ⟨?_, ?_, ?_, ?_, ?_⟩
  · exact List.nodup_append.2 ⟨hn₁, hn₂, fun a ha b hb => hdisj a ha b (List.mem_cons_of_mem p hb)⟩
  · simp only [Links.unlink, hprior, hnext, h.head]
    cases l₁ with
    | nil => simp
    | cons a l₁ => simp
  · simp only [Links.unlink, hprior, hnext, h.tail]
    cases l₂ with
    | nil => simp
    | cons a l₂ => simp
  · refine h.next.remove hnodup (fun a ha => ?_) fun a ha hne => ?_
    · simp only [Links.unlink, hprior, ha]
      exact Function.update_self _ _ _
    · simp only [Links.unlink, hprior]
      exact setLink_of_ne hne
  · have hrev := h.prior
    rw [List.reverse_append, List.reverse_cons, List.append_assoc] at hrev
    rw [List.reverse_append]
    refine hrev.remove ?_ (fun a ha => ?_) fun a ha hne => ?_
    · have := List.nodup_reverse.2 hnodup
      rwa [List.reverse_append, List.reverse_cons, List.append_assoc] at this
    · rw [List.getLast?_reverse] at ha
      simp only [Links.unlink, hnext, ha]
      exact setLink_self
    · rw [List.getLast?_reverse] at hne
      simp only [Links.unlink, hnext]
      exact setLink_of_ne hne

end Links

end NewXv6.Lib
