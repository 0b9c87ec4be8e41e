import NewXv6.Vm.Place

/-!
# The argument stack

`exec` pushes the argument strings downwards, each below the one before, and under them the words that `main` finds at its
stack pointer. `Pushed` is what holds after some of the strings, `Framed` what holds at the end; both are about the bytes
of the new address space as a function of the virtual address.
-/

namespace NewXv6.Vm.Load

open Lib

/-- The bytes `l` are at `x`. -/
def Copied (g : Nat → UInt8) (x : Nat) (l : List UInt8) : Prop := ∀ i < l.length, g (x + i) = l.getD i 0

/-- The strings `args` were pushed from `top` down to `sp`; `ptrs` are their addresses. -/
structure Pushed (g : Nat → UInt8) (top sp : Nat) (ptrs : List UInt32) (args : List (List UInt8)) : Prop where
  aligned : sp % 4 = 0
  le : sp ≤ top
  count : ptrs.length = args.length
  string : ∀ (i : Nat) (p : UInt32) (arg : List UInt8), ptrs[i]? = some p → args[i]? = some arg →
    sp ≤ p.toNat ∧ p.toNat + (arg.length + 1) ≤ top ∧ Copied g p.toNat (arg ++ [0])
  apart : ∀ (i j : Nat) (p q : UInt32) (arg : List UInt8), i < j → ptrs[i]? = some p → ptrs[j]? = some q → args[j]? = some arg →
    q.toNat + (arg.length + 1) ≤ p.toNat

/-- The words at the stack pointer: a return address, `argc` and `argv`, and then the pointers themselves. -/
def frameWords (esp : UInt32) (ptrs : List UInt32) : List UInt32 :=
  [0xffffffff, UInt32.ofNat ptrs.length, esp + 12] ++ ptrs ++ [0]

/-- The argument stack is complete, between `bottom` and `top`. -/
structure Framed (g : Nat → UInt8) (bottom top : Nat) (esp : UInt32) (argv : List (List UInt8)) (ptrs : List UInt32) :
    Prop where
  aligned : esp.toNat % 4 = 0
  low : bottom ≤ esp.toNat
  strings : Pushed g top (esp.toNat + (frameWords esp ptrs).length * 4) ptrs argv
  frame : Copied g esp.toNat ((frameWords esp ptrs).flatMap wordBytes)

variable {g : Nat → UInt8} {top sp bottom x : Nat} {ptrs : List UInt32} {args : List (List UInt8)} {l : List UInt8}

theorem length_words (l : List UInt32) : (l.flatMap wordBytes).length = l.length * 4 := by
  induction l with
  | nil => rfl
  | cons x l ih =>
    rw [List.flatMap_cons, List.length_append, ih, List.length_cons]
    show 4 + _ = _
    omega

theorem length_frameWords (esp : UInt32) (ptrs : List UInt32) : (frameWords esp ptrs).length = 3 + ptrs.length + 1 := by
  unfold frameWords
  rw [List.length_append, List.length_append]
  rfl

theorem getElem?_snoc {α : Type} {l : List α} {a b : α} {i : Nat} (h : (l ++ [a])[i]? = some b) :
    i < l.length ∧ l[i]? = some b ∨ i = l.length ∧ b = a := by
  rcases Nat.lt_trichotomy i l.length with hi | hi | hi
  · rw [List.getElem?_append_left hi] at h
    exact Or.inl ⟨hi, h⟩
  · subst hi
    rw [List.getElem?_concat_length] at h
    exact Or.inr ⟨rfl, (Option.some.inj h).symm⟩
  · rw [List.getElem?_eq_none (by rw [List.length_append]; exact hi)] at h
    cases h

theorem copied_overlay (g : Nat → UInt8) (x : Nat) (l : List UInt8) : Copied (overlay x l g) x l := by
  intro i hi
  unfold overlay
  rw [if_pos ⟨Nat.le_add_right x i, Nat.add_lt_add_left hi x⟩, Nat.add_sub_cancel_left]

/-- What is stored below stays out of the way. -/
theorem Copied.overlay (h : Copied g x l) {y : Nat} {data : List UInt8} (hy : y + data.length ≤ x) :
    Copied (overlay y data g) x l := by
  intro i hi
  unfold Load.overlay
  rw [if_neg (by omega)]
  exact h i hi

theorem Pushed.start (g : Nat → UInt8) (h : top % 4 = 0) : Pushed g top top [] [] :=
  ⟨h, Nat.le_refl _, rfl, nofun, nofun⟩

/-- One more string. -/
theorem Pushed.push (h : Pushed g top sp ptrs args) {p : UInt32} {arg : List UInt8} (haligned : p.toNat % 4 = 0)
    (hp : p.toNat + (arg.length + 1) ≤ sp) :
    Pushed (overlay p.toNat (arg ++ [0]) g) top p.toNat (ptrs ++ [p]) (args ++ [arg]) := by
  have hlen : (arg ++ [0]).length = arg.length + 1 := List.length_append
  have hle := h.le
  refine ⟨haligned, by omega, ?_, fun i q a hq ha => ?_, fun i j q r a hij hq hr ha => ?_⟩
  · rw [List.length_append, List.length_append, h.count]
    rfl
  · have hcount := h.count
    rcases getElem?_snoc hq with ⟨hi, hq⟩ | ⟨hi, rfl⟩
    · rcases getElem?_snoc ha with ⟨-, ha⟩ | ⟨hi', -⟩
      · obtain ⟨hlow, hhigh, hcopy⟩ := h.string i q a hq ha
        exact ⟨by omega, hhigh, hcopy.overlay (by omega)⟩
      · omega
    · rcases getElem?_snoc ha with ⟨hi', -⟩ | ⟨-, rfl⟩
      · omega
      · exact ⟨Nat.le_refl _, by omega, copied_overlay _ _ _⟩
  · have hcount := h.count
    rcases getElem?_snoc hr with ⟨hj, hr⟩ | ⟨hj, rfl⟩
    · rcases getElem?_snoc ha with ⟨-, ha⟩ | ⟨hj', -⟩
      · rcases getElem?_snoc hq with ⟨-, hq⟩ | ⟨hi, -⟩
        · exact h.apart i j q r a hij hq hr ha
        · omega
      · omega
    · -- the new string is below all others
      rcases getElem?_snoc ha with ⟨hj', -⟩ | ⟨-, rfl⟩
      · omega
      · rcases getElem?_snoc hq with ⟨hi, hq⟩ | ⟨hi, -⟩
        · obtain ⟨b, hb⟩ : ∃ b, args[i]? = some b := ⟨_, List.getElem?_eq_getElem (by omega)⟩
          have := (h.string i q b hq hb).1
          omega
        · omega

/-- The words below the strings. -/
theorem Pushed.frame (h : Pushed g top sp ptrs args) {esp : UInt32} (hlow : bottom ≤ esp.toNat)
    (hesp : esp.toNat + (3 + ptrs.length + 1) * 4 = sp) :
    Framed (overlay esp.toNat ((frameWords esp ptrs).flatMap wordBytes) g) bottom top esp args ptrs := by
  have haligned := h.aligned
  have hlen : ((frameWords esp ptrs).flatMap wordBytes).length = (3 + ptrs.length + 1) * 4 := by
    rw [length_words, length_frameWords]
  refine ⟨by omega, hlow, ?_, copied_overlay _ _ _⟩
  rw [length_frameWords, hesp]
  refine ⟨h.aligned, h.le, h.count, fun i p arg hp ha => ?_, h.apart⟩
  obtain ⟨hlow, hhigh, hcopy⟩ := h.string i p arg hp ha
  exact ⟨hlow, hhigh, hcopy.overlay (by omega)⟩

end NewXv6.Vm.Load
