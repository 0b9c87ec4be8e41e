import NewXv6.Lib.Prog

/-!
# Monitors

A `Monitor` watches the events of a run: it has a state of its own, which each event changes, and says in each of its
states which events a run may assume and which it has to ensure. `Mwp M m Q s g` holds when `m`, started in `s` with
the monitor in `g`, leaves events that are ensured as long as the assumptions held, and ends in `Q`. It is `Wp` for
contracts with a memory; the `mwp_*` lemmas compute it along the syntax of a program.
-/

namespace NewXv6.Lib

/-- What the monitor's state becomes, what may be assumed and has to be ensured of an event, and the failures allowed. -/
structure Monitor (γ ε ω : Type) where
  next : γ → ω → γ
  assume : γ → ω → Prop
  ensure : γ → ω → Prop
  fail : ε → Prop

namespace Monitor

variable {γ ε ω : Type} (M : Monitor γ ε ω)

/-- The monitor after the events `w`. -/
def after (g : γ) (w : List ω) : γ := w.foldl M.next g

/-- Every event is ensured as long as it and the events before it met the assumptions. -/
def Follows : γ → List ω → Prop
  | _, [] => True
  | g, x :: w => M.assume g x → M.ensure g x ∧ Follows (M.next g x) w

/-- Every event meets the assumption. -/
def Assumed : γ → List ω → Prop
  | _, [] => True
  | g, x :: w => M.assume g x ∧ Assumed (M.next g x) w

instance Assumed.decidable [∀ g x, Decidable (M.assume g x)] : ∀ (g : γ) (w : List ω), Decidable (M.Assumed g w)
  | _, [] => isTrue trivial
  | g, x :: w =>
    have := Assumed.decidable (M.next g x) w
    inferInstanceAs (Decidable (M.assume g x ∧ M.Assumed (M.next g x) w))

/-- Every event is ensured. -/
def Ensured : γ → List ω → Prop
  | _, [] => True
  | g, x :: w => M.ensure g x ∧ Ensured (M.next g x) w

variable {M} {g : γ} {w v : List ω}

theorem after_append : M.after g (w ++ v) = M.after (M.after g w) v := List.foldl_append

theorem assumed_append : M.Assumed g (w ++ v) ↔ M.Assumed g w ∧ M.Assumed (M.after g w) v := by
  induction w generalizing g with
  | nil => exact ⟨fun h => ⟨trivial, h⟩, fun h => h.2⟩
  | cons x w ih =>
    show M.assume g x ∧ M.Assumed (M.next g x) (w ++ v) ↔ (M.assume g x ∧ M.Assumed (M.next g x) w) ∧ _
    rw [ih, and_assoc]
    rfl

theorem follows_append :
    M.Follows g (w ++ v) ↔ M.Follows g w ∧ (M.Assumed g w → M.Follows (M.after g w) v) := by
  induction w generalizing g with
  | nil => exact ⟨fun h => ⟨trivial, fun _ => h⟩, fun h => h.2 trivial⟩
  | cons x w ih =>
    show (M.assume g x → M.ensure g x ∧ M.Follows (M.next g x) (w ++ v)) ↔
      (M.assume g x → M.ensure g x ∧ M.Follows (M.next g x) w) ∧
        (M.assume g x ∧ M.Assumed (M.next g x) w → M.Follows (M.after (M.next g x) w) v)
    rw [ih]
    constructor
    · intro h
      exact ⟨fun hx => ⟨(h hx).1, (h hx).2.1⟩, fun hw => (h hw.1).2.2 hw.2⟩
    · intro h hx
      exact ⟨(h.1 hx).1, (h.1 hx).2, fun hw => h.2 ⟨hx, hw⟩⟩

/-- Where every assumption holds, every event is ensured. -/
theorem Follows.ensured (h : M.Follows g w) (ha : M.Assumed g w) : M.Ensured g w := by
  induction w generalizing g with
  | nil => trivial
  | cons x w ih => exact ⟨(h ha.1).1, ih (h ha.1).2 ha.2⟩

end Monitor

section

variable {γ σ ε ω α β : Type} {M : Monitor γ ε ω}

/-- `m` started in `s` with the monitor in `g` ends in `Q`. -/
def Mwp (M : Monitor γ ε ω) (m : Prog σ ε ω α) (Q : α → σ → γ → Prop) (s : σ) (g : γ) : Prop :=
  M.Follows g (m s).2 ∧ (M.Assumed g (m s).2 →
    match (m s).1 with
    | .ok (a, t) => Q a t (M.after g (m s).2)
    | .error e => M.fail e)

theorem Mwp.mono {m : Prog σ ε ω α} {Q Q' : α → σ → γ → Prop} {s : σ} {g : γ} (h : Mwp M m Q s g)
    (hQ : ∀ a t g, Q a t g → Q' a t g) : Mwp M m Q' s g := by
  refine ⟨h.1, fun ha => ?_⟩
  have he := h.2 ha
  revert he
  cases (m s).1 with
  | ok r => exact hQ r.1 r.2 _
  | error e => exact id

theorem mwp_pure (a : α) (Q : α → σ → γ → Prop) (s : σ) (g : γ) : Mwp M (pure a : Prog σ ε ω α) Q s g ↔ Q a s g :=
  ⟨fun h => h.2 trivial, fun h => ⟨trivial, fun _ => h⟩⟩

theorem mwp_get (Q : σ → σ → γ → Prop) (s : σ) (g : γ) : Mwp M (Prog.get : Prog σ ε ω σ) Q s g ↔ Q s s g :=
  ⟨fun h => h.2 trivial, fun h => ⟨trivial, fun _ => h⟩⟩

theorem mwp_modify (f : σ → σ) (Q : Unit → σ → γ → Prop) (s : σ) (g : γ) :
    Mwp M (Prog.modify f : Prog σ ε ω Unit) Q s g ↔ Q () (f s) g :=
  ⟨fun h => h.2 trivial, fun h => ⟨trivial, fun _ => h⟩⟩

theorem mwp_throw (e : ε) (Q : α → σ → γ → Prop) (s : σ) (g : γ) :
    Mwp M (Prog.throw e : Prog σ ε ω α) Q s g ↔ M.fail e :=
  ⟨fun h => h.2 trivial, fun h => ⟨trivial, fun _ => h⟩⟩

theorem mwp_emit (x : ω) (Q : Unit → σ → γ → Prop) (s : σ) (g : γ) :
    Mwp M (Prog.emit x : Prog σ ε ω Unit) Q s g ↔ (M.assume g x → M.ensure g x ∧ Q () s (M.next g x)) := by
  constructor
  · exact fun h hx => ⟨(h.1 hx).1, h.2 ⟨hx, trivial⟩⟩
  · exact fun h => ⟨fun hx => ⟨(h hx).1, trivial⟩, fun hx => (h hx.1).2⟩

theorem mwp_bind (m : Prog σ ε ω α) (f : α → Prog σ ε ω β) (Q : β → σ → γ → Prop) (s : σ) (g : γ) :
    Mwp M (m >>= f) Q s g ↔ Mwp M m (fun a t g' => Mwp M (f a) Q t g') s g := by
  rcases hm : m s with ⟨r | ⟨a, t⟩, w⟩
  · unfold Mwp
    rw [Prog.run_bind_error hm, hm]
  · unfold Mwp
    rw [Prog.run_bind_ok hm, hm]
    dsimp only
    rw [Monitor.follows_append, Monitor.assumed_append, Monitor.after_append]
    constructor
    · rintro ⟨⟨h₁, h₂⟩, h₃⟩
      exact ⟨h₁, fun ha => ⟨h₂ ha, fun hb => h₃ ⟨ha, hb⟩⟩⟩
    · rintro ⟨h₁, h₂⟩
      exact ⟨⟨h₁, fun ha => (h₂ ha).1⟩, fun hab => (h₂ hab.1).2 hab.2⟩

theorem mwp_discard (m : Prog σ ε ω α) (Q : Unit → σ → γ → Prop) (s : σ) (g : γ) :
    Mwp M (discard m) Q s g ↔ Mwp M m (fun _ t g' => Q () t g') s g := by
  show Mwp M (m >>= fun _ => pure ()) Q s g ↔ _
  simp only [mwp_bind, mwp_pure]

end

end NewXv6.Lib
