import NewXv6.Lib.Prog

/-!
# Programs that do not see a part of the state

A `Hidden` change is one that some programs do not notice: it says where the programs run, what is changed, and which events
they may leave. `Blind H m` says that `m`, started where `H` holds, stays there, leaves only such events, and does the same
from the changed state, up to the change. Blind programs compose; a program that reads the state is blind if it goes on in the
same way from the changed state (`Blind.get`).
-/

namespace NewXv6.Lib

/-- A change of the state that is not to be noticed. -/
structure Hidden (σ ω : Type) where
  holds : σ → Prop
  change : σ → σ
  event : ω → Prop

variable {σ τ ε ω α β : Type} {H : Hidden σ ω} {H' : Hidden τ ω}

/-- The run of `m` from `s` is the same from the changed state. -/
structure BlindAt (H : Hidden σ ω) (m : Prog σ ε ω α) (s : σ) : Prop where
  event : ∀ x ∈ (m s).2, H.event x
  holds : ∀ a t, (m s).1 = .ok (a, t) → H.holds t
  change : m (H.change s) = ((m s).1.map fun r => (r.1, H.change r.2), (m s).2)

/-- `m` does not notice the change. -/
def Blind (H : Hidden σ ω) (m : Prog σ ε ω α) : Prop := ∀ s, H.holds s → BlindAt H m s

/-- Two programs that run in the same way here may be followed by the same. -/
theorem Prog.run_bind_congr {m n : Prog σ ε ω α} {s : σ} (h : m s = n s) (f : α → Prog σ ε ω β) :
    (m >>= f) s = (n >>= f) s := by
  show Prog.bind m f s = Prog.bind n f s
  unfold Prog.bind
  rw [h]

/-- A run of two programs is a run of the first one and one of the second. -/
theorem Prog.of_run_bind {m : Prog σ ε ω α} {f : α → Prog σ ε ω β} {s u : σ} {b : β} {x : List ω}
    (h : (m >>= f) s = (.ok (b, u), x)) :
    ∃ a t w v, m s = (.ok (a, t), w) ∧ f a t = (.ok (b, u), v) ∧ x = w ++ v := by
  rcases hm : m s with ⟨e | ⟨a, t⟩, w⟩
  · rw [Prog.run_bind_error hm] at h
    cases h
  · rw [Prog.run_bind_ok hm] at h
    obtain ⟨hok, hx⟩ := Prod.mk.inj h
    exact ⟨a, t, w, (f a t).2, rfl, Prod.ext hok rfl, hx.symm⟩

namespace BlindAt

/-- A run to the end, here and from the changed state. -/
theorem ok {m : Prog σ ε ω α} {s t : σ} {a : α} {w : List ω} (h : BlindAt H m s) (hm : m s = (.ok (a, t), w)) :
    m (H.change s) = (.ok (a, H.change t), w) ∧ H.holds t ∧ ∀ x ∈ w, H.event x := by
  have hchange := h.change
  have hevent := h.event
  rw [hm] at hchange hevent
  exact ⟨hchange, h.holds a t (by rw [hm]), hevent⟩

/-- A run that stops, here and from the changed state. -/
theorem error {m : Prog σ ε ω α} {s : σ} {e : ε} {w : List ω} (h : BlindAt H m s) (hm : m s = (.error e, w)) :
    m (H.change s) = (.error e, w) ∧ ∀ x ∈ w, H.event x := by
  have hchange := h.change
  have hevent := h.event
  rw [hm] at hchange hevent
  exact ⟨hchange, hevent⟩

theorem pure (a : α) {s : σ} (hs : H.holds s) : BlindAt H (Pure.pure a : Prog σ ε ω α) s := by
  refine ⟨fun x hx => absurd hx List.not_mem_nil, fun b t ht => ?_, rfl⟩
  cases ht
  exact hs

theorem throw (e : ε) {s : σ} : BlindAt H (Prog.throw e : Prog σ ε ω α) s := by
  refine ⟨fun x hx => absurd hx List.not_mem_nil, fun b t ht => ?_, rfl⟩
  cases ht

theorem bind {m : Prog σ ε ω α} {f : α → Prog σ ε ω β} {s : σ} (hm : BlindAt H m s)
    (hf : ∀ a t w, m s = (.ok (a, t), w) → H.holds t → BlindAt H (f a) t) : BlindAt H (m >>= f) s := by
  rcases hrun : m s with ⟨e | ⟨a, t⟩, w⟩
  · obtain ⟨hchange, hevent⟩ := hm.error hrun
    have hall := Prog.run_bind_error hrun f
    have hall' := Prog.run_bind_error hchange f
    refine ⟨?_, ?_, ?_⟩
    · rw [hall]
      exact hevent
    · rw [hall]
      intro b u hu
      cases hu
    · rw [hall, hall']
      rfl
  · obtain ⟨hchange, hholds, hevent⟩ := hm.ok hrun
    have hrest := hf a t w hrun hholds
    have hall := Prog.run_bind_ok hrun f
    have hall' := Prog.run_bind_ok hchange f
    refine ⟨?_, ?_, ?_⟩
    · rw [hall]
      intro x hx
      exact (List.mem_append.1 hx).elim (hevent x) (hrest.event x)
    · rw [hall]
      exact hrest.holds
    · rw [hall, hall', hrest.change]

theorem modify {f : σ → σ} {s : σ} (hf : H.holds (f s)) (hc : f (H.change s) = H.change (f s)) :
    BlindAt H (Prog.modify f : Prog σ ε ω Unit) s := by
  refine ⟨fun x hx => absurd hx List.not_mem_nil, fun b t ht => ?_, ?_⟩
  · cases ht
    exact hf
  · show (Except.ok ((), f (H.change s)), []) = _
    rw [hc]
    rfl

end BlindAt

namespace Blind

theorem pure (a : α) : Blind H (Pure.pure a : Prog σ ε ω α) := fun _ hs => .pure a hs

theorem throw (e : ε) : Blind H (Prog.throw e : Prog σ ε ω α) := fun _ _ => .throw e

theorem bind {m : Prog σ ε ω α} {f : α → Prog σ ε ω β} (hm : Blind H m) (hf : ∀ a, Blind H (f a)) : Blind H (m >>= f) :=
  fun s hs => (hm s hs).bind fun a t _ _ ht => hf a t ht

/-- A program that reads the state, but not what is hidden. -/
theorem get {f : σ → Prog σ ε ω β} (hc : ∀ s, f (H.change s) = f s) (hf : ∀ s, Blind H (f s)) : Blind H (Prog.get >>= f) := by
  intro s hs
  have hrun : ∀ s, (Prog.get >>= f : Prog σ ε ω β) s = f s s := fun s => Prog.run_bind_ok (Prog.run_get s) f
  obtain ⟨hevent, hholds, hchange⟩ := hf s s hs
  refine ⟨?_, ?_, ?_⟩
  · rw [hrun]
    exact hevent
  · rw [hrun]
    exact hholds
  · rw [hrun, hrun, hc]
    exact hchange

theorem modify {f : σ → σ} (hf : ∀ s, H.holds s → H.holds (f s)) (hc : ∀ s, f (H.change s) = H.change (f s)) :
    Blind H (Prog.modify f : Prog σ ε ω Unit) := fun s hs => .modify (hf s hs) (hc s)

theorem emit {x : ω} (hx : H.event x) : Blind H (Prog.emit x : Prog σ ε ω Unit) := by
  refine fun s hs => ⟨fun y hy => ?_, fun b t ht => ?_, rfl⟩
  · rw [List.mem_singleton.1 hy]
    exact hx
  · cases ht
    exact hs

theorem ite {c : Prop} [Decidable c] {m n : Prog σ ε ω α} (hm : c → Blind H m) (hn : ¬c → Blind H n) :
    Blind H (if c then m else n) := by
  split
  · exact hm ‹_›
  · exact hn ‹_›

theorem discard {m : Prog σ ε ω α} (hm : Blind H m) : Blind H (Functor.discard m : Prog σ ε ω Unit) :=
  hm.bind fun _ => pure ()

theorem forEach {f : β → Prog σ ε ω Unit} (hf : ∀ x, Blind H (f x)) (l : List β) : Blind H (Prog.forEach f l) := by
  induction l with
  | nil => exact pure ()
  | cons x xs ih => exact bind (hf x) fun _ => ih

/-- A program on a part of the state, where the hidden change is one of that part. -/
theorem zoom {part : τ → σ} {put : σ → τ → τ} (hholds : ∀ t, H'.holds t → H.holds (part t))
    (hput : ∀ s t, H.holds s → H'.holds t → H'.holds (put s t)) (hevent : ∀ x, H.event x → H'.event x)
    (hpart : ∀ t, part (H'.change t) = H.change (part t))
    (hchange : ∀ s t, put (H.change s) (H'.change t) = H'.change (put s t)) {m : Prog σ ε ω α} (hm : Blind H m) :
    Blind H' (m.zoom part put) := by
  intro t ht
  have hat := hm (part t) (hholds t ht)
  rcases hrun : m (part t) with ⟨e | ⟨a, s⟩, w⟩
  · obtain ⟨hsame, hev⟩ := hat.error hrun
    have hz : m.zoom part put t = (.error e, w) := by unfold Prog.zoom; rw [hrun]
    have hz' : m.zoom part put (H'.change t) = (.error e, w) := by unfold Prog.zoom; rw [hpart, hsame]
    refine ⟨?_, ?_, ?_⟩
    · rw [hz]
      exact fun x hx => hevent x (hev x hx)
    · rw [hz]
      intro b u hu
      cases hu
    · rw [hz, hz']
      rfl
  · obtain ⟨hsame, hs, hev⟩ := hat.ok hrun
    have hz : m.zoom part put t = (.ok (a, put s t), w) := by unfold Prog.zoom; rw [hrun]
    have hz' : m.zoom part put (H'.change t) = (.ok (a, put (H.change s) (H'.change t)), w) := by
      unfold Prog.zoom
      rw [hpart, hsame]
    refine ⟨?_, ?_, ?_⟩
    · rw [hz]
      exact fun x hx => hevent x (hev x hx)
    · rw [hz]
      intro b u hu
      cases hu
      exact hput s t hs ht
    · rw [hz, hz', hchange]
      rfl

/-- Where nothing changes, every program is blind. -/
theorem same (m : Prog σ ε ω α) : Blind ⟨fun _ => True, fun s => s, fun _ => True⟩ m := by
  refine fun s _ => ⟨fun _ _ => trivial, fun _ _ _ => trivial, ?_⟩
  show m s = _
  rcases m s with ⟨e | ⟨a, t⟩, w⟩
  · rfl
  · rfl

/-- What a program does not notice stays true. -/
theorem wp {C : Contract ε ω} (hensure : ∀ x, C.ensure x) (hfail : ∀ e, C.fail e) {m : Prog σ ε ω α} (hm : Blind H m) {s : σ}
    (hs : H.holds s) {Q : α → σ → Prop} (hQ : ∀ a t, H.holds t → Q a t) : Wp C m Q s := by
  refine ⟨along_of_ensure fun x _ => hensure x, fun _ => ?_⟩
  rcases hrun : m s with ⟨e | ⟨a, t⟩, w⟩
  · exact hfail e
  · exact hQ a t ((hm s hs).ok hrun).2.1

end Blind

end NewXv6.Lib
