import Mathlib.Logic.Basic

/-!
# Programs with a state, failures and a trace

A `Prog σ ε ω α` runs on a state `σ`, ends with a value or stops with a failure `ε`, and leaves the list of the
events `ω` it went through. A `Contract` says which events a run may assume, which it has to ensure as long as the
assumptions held so far, and which failures it may stop with; `Wp C m Q s` holds when `m` started in `s` keeps the
contract and, if it ends with a value and every assumption held, ends in `Q`. The `wp_*` lemmas compute `Wp` along
the syntax of a program; `wp_forEach` is the rule of loops.
-/

namespace NewXv6.Lib

/-- A program: from a state to a value and a state, or a failure, and the events on the way, oldest first. -/
def Prog (σ ε ω α : Type) : Type := σ → Except ε (α × σ) × List ω

namespace Prog

variable {σ τ ε ω α β : Type}

/-- Run `m`, then `f` on its value. -/
def bind (m : Prog σ ε ω α) (f : α → Prog σ ε ω β) : Prog σ ε ω β := fun s =>
  match m s with
  | (.error e, w) => (.error e, w)
  | (.ok (a, t), w) =>
    match f a t with
    | (r, v) => (r, w ++ v)

instance : Monad (Prog σ ε ω) where
  pure a := fun s => (.ok (a, s), [])
  bind := bind

/-- The state. -/
def get : Prog σ ε ω σ := fun s => (.ok (s, s), [])

/-- Change the state. -/
def modify (f : σ → σ) : Prog σ ε ω Unit := fun s => (.ok ((), f s), [])

/-- Stop with a failure. -/
def throw (e : ε) : Prog σ ε ω α := fun _ => (.error e, [])

/-- Leave an event in the trace. -/
def emit (x : ω) : Prog σ ε ω Unit := fun s => (.ok ((), s), [x])

/-- Run a program on a part of a larger state. -/
def zoom (part : τ → σ) (put : σ → τ → τ) (m : Prog σ ε ω α) : Prog τ ε ω α := fun t =>
  match m (part t) with
  | (.error e, w) => (.error e, w)
  | (.ok (a, s), w) => (.ok (a, put s t), w)

/-- Run `f` on every element, in order. -/
def forEach (f : β → Prog σ ε ω Unit) : List β → Prog σ ε ω Unit
  | [] => pure ()
  | x :: xs => do
    f x
    forEach f xs

/-! ### Runs -/

@[simp] theorem run_pure (a : α) (s : σ) : (pure a : Prog σ ε ω α) s = (.ok (a, s), []) := rfl

@[simp] theorem run_get (s : σ) : (get : Prog σ ε ω σ) s = (.ok (s, s), []) := rfl

@[simp] theorem run_modify (f : σ → σ) (s : σ) : (modify f : Prog σ ε ω Unit) s = (.ok ((), f s), []) := rfl

@[simp] theorem run_emit (x : ω) (s : σ) : (emit x : Prog σ ε ω Unit) s = (.ok ((), s), [x]) := rfl

@[simp] theorem run_throw (e : ε) (s : σ) : (throw e : Prog σ ε ω α) s = (.error e, []) := rfl

theorem run_bind_ok {m : Prog σ ε ω α} {s t : σ} {a : α} {w : List ω} (h : m s = (.ok (a, t), w))
    (f : α → Prog σ ε ω β) : (m >>= f) s = ((f a t).1, w ++ (f a t).2) := by
  show Prog.bind m f s = _
  simp only [bind, h]

theorem run_bind_error {m : Prog σ ε ω α} {s : σ} {e : ε} {w : List ω} (h : m s = (.error e, w))
    (f : α → Prog σ ε ω β) : (m >>= f) s = (.error e, w) := by
  show Prog.bind m f s = _
  simp only [bind, h]

theorem run_zoom_ok {part : τ → σ} {put : σ → τ → τ} {m : Prog σ ε ω α} {t : τ} {s : σ} {a : α} {w : List ω}
    (h : m (part t) = (.ok (a, s), w)) : m.zoom part put t = (.ok (a, put s t), w) := by
  simp only [zoom, h]

theorem zoom_ok {part : τ → σ} {put : σ → τ → τ} {m : Prog σ ε ω α} {t u : τ} {a : α} {w : List ω}
    (h : m.zoom part put t = (.ok (a, u), w)) : ∃ s, m (part t) = (.ok (a, s), w) ∧ u = put s t := by
  unfold zoom at h
  rcases hm : m (part t) with ⟨e | ⟨b, s⟩, v⟩
  · rw [hm] at h
    cases h
  · rw [hm] at h
    cases h
    exact ⟨s, rfl, rfl⟩

/-- Whether `m` started in `s` ends in a state that passes a test. -/
def check (m : Prog σ ε ω α) (s : σ) (p : α → σ → Bool) : Bool :=
  match m s with
  | (.error _, _) => false
  | (.ok (a, t), _) => p a t

theorem run_of_check {m : Prog σ ε ω α} {s : σ} {p : α → σ → Bool} (h : m.check s p = true) :
    ∃ a t w, m s = (.ok (a, t), w) ∧ p a t = true := by
  unfold check at h
  rcases hm : m s with ⟨_ | ⟨a, t⟩, w⟩
  · rw [hm] at h
    cases h
  · rw [hm] at h
    exact ⟨a, t, w, rfl, h⟩

/-- A run in two parts. -/
theorem run_bind {m : Prog σ ε ω α} {f : α → Prog σ ε ω β} {s t u : σ} {a : α} {b : β} {w v : List ω}
    (h : m s = (.ok (a, t), w)) (h' : f a t = (.ok (b, u), v)) : (m >>= f) s = (.ok (b, u), w ++ v) := by
  rw [run_bind_ok h, h']

end Prog

/-! ## Contracts -/

/-- What a run may assume of its events, what it ensures of them, and what it may fail with. -/
structure Contract (ε ω : Type) where
  assume : ω → Prop
  ensure : ω → Prop
  fail : ε → Prop

section Along

variable {ε ω : Type}

/-- Every event is ensured as long as it and the events before it met the assumptions. -/
def Along (C : Contract ε ω) : List ω → Prop
  | [] => True
  | x :: w => C.assume x → C.ensure x ∧ Along C w

theorem along_append (C : Contract ε ω) (w v : List ω) :
    Along C (w ++ v) ↔ Along C w ∧ ((∀ x ∈ w, C.assume x) → Along C v) := by
  induction w with
  | nil => simp [Along]
  | cons x w ih =>
    simp only [List.cons_append, Along, ih, List.mem_cons, forall_eq_or_imp]
    constructor
    · intro h
      exact ⟨fun hx => ⟨(h hx).1, (h hx).2.1⟩, fun hw => (h hw.1).2.2 hw.2⟩
    · intro h hx
      exact ⟨(h.1 hx).1, (h.1 hx).2, fun hw => h.2 ⟨hx, hw⟩⟩

theorem along_of_ensure {C : Contract ε ω} : ∀ {w : List ω}, (∀ x ∈ w, C.ensure x) → Along C w
  | [], _ => trivial
  | y :: w, h => fun _ => ⟨h y (by simp), along_of_ensure fun x hx => h x (by simp [hx])⟩

/-- Where every assumption holds, every event is ensured. -/
theorem Along.ensure {C : Contract ε ω} : ∀ {w : List ω}, Along C w → (∀ x ∈ w, C.assume x) → ∀ x ∈ w, C.ensure x
  | [], _, _, _, hx => by simp at hx
  | y :: w, h, ha, x, hx => by
    have hy := h (ha y (by simp))
    rcases List.mem_cons.1 hx with rfl | hx
    · exact hy.1
    · exact hy.2.ensure (fun z hz => ha z (by simp [hz])) x hx

end Along

/-! ## Weakest preconditions -/

section Wp

variable {σ τ ε ω α β : Type} {C : Contract ε ω}

/-- How a run may end. -/
def Ends (C : Contract ε ω) (Q : α → σ → Prop) : Except ε (α × σ) → Prop
  | .ok (a, t) => Q a t
  | .error e => C.fail e

/-- `m` started in `s` keeps the contract and ends in `Q`. -/
def Wp (C : Contract ε ω) (m : Prog σ ε ω α) (Q : α → σ → Prop) (s : σ) : Prop :=
  Along C (m s).2 ∧ ((∀ x ∈ (m s).2, C.assume x) → Ends C Q (m s).1)

theorem Wp.mono {m : Prog σ ε ω α} {Q Q' : α → σ → Prop} {s : σ} (h : Wp C m Q s) (hQ : ∀ a t, Q a t → Q' a t) :
    Wp C m Q' s := by
  refine ⟨h.1, fun ha => ?_⟩
  have he := h.2 ha
  revert he
  cases (m s).1 with
  | ok r => exact hQ r.1 r.2
  | error e => exact id

/-- A run that is another one. -/
theorem Wp.congr {m m' : Prog σ ε ω α} {Q : α → σ → Prop} {s : σ} (heq : m s = m' s) (h : Wp C m' Q s) : Wp C m Q s := by
  unfold Wp
  rw [heq]
  exact h

/-- Two postconditions of one run. -/
theorem Wp.and {m : Prog σ ε ω α} {Q Q' : α → σ → Prop} {s : σ} (h : Wp C m Q s) (h' : Wp C m Q' s) :
    Wp C m (fun a t => Q a t ∧ Q' a t) s := by
  refine ⟨h.1, fun ha => ?_⟩
  have he := h.2 ha
  have he' := h'.2 ha
  revert he he'
  cases (m s).1 with
  | ok r => exact fun h₁ h₂ => ⟨h₁, h₂⟩
  | error e => exact fun h₁ _ => h₁

@[simp] theorem wp_pure (a : α) (Q : α → σ → Prop) (s : σ) :
    Wp C (pure a : Prog σ ε ω α) Q s ↔ Q a s := by
  simp [Wp, pure, Along, Ends]

@[simp] theorem wp_bind (m : Prog σ ε ω α) (f : α → Prog σ ε ω β) (Q : β → σ → Prop) (s : σ) :
    Wp C (m >>= f) Q s ↔ Wp C m (fun a t => Wp C (f a) Q t) s := by
  unfold Wp
  show Along C (Prog.bind m f s).2 ∧ ((∀ x ∈ (Prog.bind m f s).2, C.assume x) → Ends C Q (Prog.bind m f s).1) ↔ _
  unfold Prog.bind
  rcases m s with ⟨r | ⟨a, t⟩, w⟩
  · simp [Ends]
  · simp only [along_append, List.mem_append, Ends]
    constructor
    · rintro ⟨⟨h₁, h₂⟩, h₃⟩
      exact ⟨h₁, fun ha => ⟨h₂ ha, fun hb => h₃ (fun x hx => hx.elim (ha x) (hb x))⟩⟩
    · rintro ⟨h₁, h₂⟩
      exact ⟨⟨h₁, fun ha => (h₂ ha).1⟩,
        fun hab => (h₂ (fun x hx => hab x (Or.inl hx))).2 (fun x hx => hab x (Or.inr hx))⟩

@[simp] theorem wp_discard (m : Prog σ ε ω α) (Q : Unit → σ → Prop) (s : σ) :
    Wp C (discard m) Q s ↔ Wp C m (fun _ t => Q () t) s := by
  show Wp C (m >>= fun _ => pure ()) Q s ↔ _
  simp only [wp_bind, wp_pure]

@[simp] theorem wp_get (Q : σ → σ → Prop) (s : σ) : Wp C (Prog.get : Prog σ ε ω σ) Q s ↔ Q s s := by
  simp [Wp, Prog.get, Along, Ends]

@[simp] theorem wp_modify (f : σ → σ) (Q : Unit → σ → Prop) (s : σ) :
    Wp C (Prog.modify f : Prog σ ε ω Unit) Q s ↔ Q () (f s) := by
  simp [Wp, Prog.modify, Along, Ends]

@[simp] theorem wp_throw (e : ε) (Q : α → σ → Prop) (s : σ) :
    Wp C (Prog.throw e : Prog σ ε ω α) Q s ↔ C.fail e := by
  simp [Wp, Prog.throw, Along, Ends]

@[simp] theorem wp_emit (x : ω) (Q : Unit → σ → Prop) (s : σ) :
    Wp C (Prog.emit x : Prog σ ε ω Unit) Q s ↔ (C.assume x → C.ensure x ∧ Q () s) := by
  simp only [Wp, Prog.emit, Along, Ends, List.mem_singleton, forall_eq, and_true]
  exact ⟨fun h hx => ⟨h.1 hx, h.2 hx⟩, fun h => ⟨fun hx => (h hx).1, fun hx => (h hx).2⟩⟩

@[simp] theorem wp_ite (c : Prop) [Decidable c] (m n : Prog σ ε ω α) (Q : α → σ → Prop) (s : σ) :
    Wp C (if c then m else n) Q s ↔ (c → Wp C m Q s) ∧ (¬c → Wp C n Q s) := by
  split <;> simp_all

@[simp] theorem wp_dite (c : Prop) [Decidable c] (m : c → Prog σ ε ω α) (n : ¬c → Prog σ ε ω α) (Q : α → σ → Prop)
    (s : σ) : Wp C (if h : c then m h else n h) Q s ↔ (∀ h : c, Wp C (m h) Q s) ∧ (∀ h : ¬c, Wp C (n h) Q s) := by
  split <;> simp_all

@[simp] theorem wp_zoom (part : τ → σ) (put : σ → τ → τ) (m : Prog σ ε ω α) (Q : α → τ → Prop) (t : τ) :
    Wp C (m.zoom part put) Q t ↔ Wp C m (fun a s => Q a (put s t)) (part t) := by
  unfold Wp Prog.zoom
  rcases m (part t) with ⟨r | ⟨a, s⟩, w⟩ <;> simp [Ends]

/-- **Loops**: an invariant of the elements that are left. -/
theorem wp_forEach {f : β → Prog σ ε ω Unit} (I : List β → σ → Prop)
    (hf : ∀ x xs s, I (x :: xs) s → Wp C (f x) (fun _ t => I xs t) s) :
    ∀ (l : List β) (s : σ), I l s → Wp C (Prog.forEach f l) (fun _ t => I [] t) s
  | [], s, h => by simpa [Prog.forEach] using h
  | x :: xs, s, h => by
    simp only [Prog.forEach, wp_bind]
    exact (hf x xs s h).mono fun _ t ht => wp_forEach I hf xs t ht

/-- Loops: an invariant of the elements that are done. -/
theorem wp_forEach_done {f : β → Prog σ ε ω Unit} (I : List β → σ → Prop)
    (hf : ∀ done x s, I done s → Wp C (f x) (fun _ t => I (done ++ [x]) t) s) (l : List β) (s : σ) (h : I [] s) :
    Wp C (Prog.forEach f l) (fun _ t => I l t) s := by
  refine (wp_forEach (fun rest t => ∃ done, done ++ rest = l ∧ I done t) ?_ l s ⟨[], rfl, h⟩).mono ?_
  · rintro x xs t ⟨done, rfl, ht⟩
    exact (hf done x t ht).mono fun _ u hu => ⟨done ++ [x], by simp, hu⟩
  · rintro _ t ⟨done, rfl, ht⟩
    rwa [List.append_nil]

/-- A run whose events are ensured. -/
theorem wp_of_run {m : Prog σ ε ω α} {Q : α → σ → Prop} {s t : σ} {a : α} {w : List ω} (h : m s = (.ok (a, t), w))
    (hw : ∀ x ∈ w, C.ensure x) (hQ : Q a t) : Wp C m Q s := by
  unfold Wp
  rw [h]
  exact ⟨along_of_ensure hw, fun _ => hQ⟩

/-- The run a precondition is about. -/
theorem Wp.run {m : Prog σ ε ω α} {Q : α → σ → Prop} {s t : σ} {a : α} {w : List ω} (h : Wp C m Q s)
    (hm : m s = (.ok (a, t), w)) (hw : ∀ x ∈ w, C.assume x) : Q a t := by
  have := h.2
  rw [hm] at this
  exact this hw

end Wp

end NewXv6.Lib
