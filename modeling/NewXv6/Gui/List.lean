import NewXv6.Gui.Model
import Mathlib.Data.Fintype.Card

/-!
# The list of windows

`Listed s l`: the links of the windows stand for the list `l`, from the bottom window to the top one, and `l` has the
slots that are in use. What each function does to the list is said once: `Sent` for the functions that only send
messages, `Allocated`, `Released`, and `Moved` for those that keep the windows.
-/

namespace NewXv6.Gui

open Lib

/-! ## The list -/

/-- The links of the windows. -/
def State.links (s : State) : Links WindowLink where
  head := s.list_head
  tail := s.list_tail
  prior p := (s.window_array p).prior_window
  next p := (s.window_array p).next_window

/-- The windows in use are those of the list. -/
structure Listed (s : State) (l : List WindowLink) : Prop where
  holds : s.links.Holds l
  mem : ∀ p, p ∈ l ↔ 0 < (s.window_array p).window_id

theorem init_listed (width height : Int) (screen : Int → Color) : Listed (init width height screen) [] :=
  ⟨⟨List.nodup_nil, rfl, rfl, trivial, trivial⟩, fun _ => by simp [init]⟩

/-- What does not depend on the links of a window. -/
structure Window.Same (w v : Window) : Prop where
  window_id : w.window_id = v.window_id
  pid : w.pid = v.pid
  window_position : w.window_position = v.window_position

theorem Window.Same.refl (w : Window) : w.Same w := ⟨rfl, rfl, rfl⟩

theorem Window.Same.trans {u v w : Window} (h : u.Same v) (h' : v.Same w) : u.Same w :=
  ⟨h.1.trans h'.1, h.2.trans h'.2, h.3.trans h'.3⟩

section

variable {s t : State} {l : List WindowLink} {p : WindowLink}

theorem setWindow_self (f : Window → Window) : (s.setWindow p f).window_array p = f (s.window_array p) :=
  Function.update_self _ _ _

theorem setWindow_of_ne {q : WindowLink} (h : q ≠ p) (f : Window → Window) :
    (s.setWindow p f).window_array q = s.window_array q := Function.update_of_ne h _ _

/-- Only links change. -/
structure Relinked (s t : State) : Prop where
  same : ∀ q, (t.window_array q).Same (s.window_array q)
  rest : t = { s with window_array := t.window_array, list_head := t.list_head, list_tail := t.list_tail }

theorem Relinked.trans {u : State} (h : Relinked s t) (h' : Relinked t u) : Relinked s u := by
  refine ⟨fun q => (h'.same q).trans (h.same q), ?_⟩
  rw [h'.rest, h.rest]

theorem relinked_setWindow {f : Window → Window} (hf : (f (s.window_array p)).Same (s.window_array p)) :
    Relinked s (s.setWindow p f) := by
  refine ⟨fun q => ?_, rfl⟩
  by_cases hq : q = p
  · subst hq
    rw [setWindow_self]
    exact hf
  · rw [setWindow_of_ne hq]
    exact .refl _

theorem relinked_setPrior (s : State) (p : WindowLink) (v : Option WindowLink) : Relinked s (s.setPrior p v) :=
  relinked_setWindow ⟨rfl, rfl, rfl⟩

theorem relinked_setNext (s : State) (p : WindowLink) (v : Option WindowLink) : Relinked s (s.setNext p v) :=
  relinked_setWindow ⟨rfl, rfl, rfl⟩

theorem pushTail_relinked (s : State) (p : WindowLink) : Relinked s (s.pushTail p) := by
  have hhead : Relinked s (s.startList p) := by
    unfold State.startList
    split
    · exact ⟨fun _ => .refl _, rfl⟩
    · exact ⟨fun _ => .refl _, rfl⟩
  have htail : ∀ s : State, Relinked s (s.linkTail p) := by
    intro s
    unfold State.linkTail
    split
    · exact relinked_setNext _ _ _
    · exact ⟨fun _ => .refl _, rfl⟩
  have hend : ∀ s : State, Relinked s { s with list_tail := some p } := fun _ => ⟨fun _ => .refl _, rfl⟩
  exact (((hhead.trans (htail _)).trans (relinked_setPrior _ _ _)).trans (hend _)).trans (relinked_setNext _ _ _)

theorem unlink_relinked (s : State) (p : WindowLink) : Relinked s (s.unlink p) := by
  have hnext : Relinked s (s.skipNext p) := by
    unfold State.skipNext
    split
    · exact relinked_setNext _ _ _
    · exact ⟨fun _ => .refl _, rfl⟩
  refine hnext.trans ?_
  unfold State.unlink State.skipPrior
  split
  · exact relinked_setPrior _ _ _
  · exact ⟨fun _ => .refl _, rfl⟩

/-! ### The links after each step -/

theorem setWindow_links (s : State) (p : WindowLink) (f : Window → Window) : (s.setWindow p f).links = { s.links with
    next := Function.update s.links.next p (f (s.window_array p)).next_window
    prior := Function.update s.links.prior p (f (s.window_array p)).prior_window } := by
  unfold State.links State.setWindow
  congr 1
  · funext q
    exact Function.apply_update (fun _ => Window.prior_window) s.window_array p _ q
  · funext q
    exact Function.apply_update (fun _ => Window.next_window) s.window_array p _ q

theorem setNext_links (s : State) (p : WindowLink) (v : Option WindowLink) :
    (s.setNext p v).links = { s.links with next := Function.update s.links.next p v } := by
  have hprior : Function.update s.links.prior p (s.window_array p).prior_window = s.links.prior := Function.update_eq_self ..
  unfold State.setNext
  rw [setWindow_links]
  dsimp only
  rw [hprior]

theorem setPrior_links (s : State) (p : WindowLink) (v : Option WindowLink) :
    (s.setPrior p v).links = { s.links with prior := Function.update s.links.prior p v } := by
  have hnext : Function.update s.links.next p (s.window_array p).next_window = s.links.next := Function.update_eq_self ..
  unfold State.setPrior
  rw [setWindow_links]
  dsimp only
  rw [hnext]

/-- A window changes, and its links do not. -/
theorem setWindow_links_self (s : State) (p : WindowLink) {f : Window → Window}
    (hnext : (f (s.window_array p)).next_window = (s.window_array p).next_window)
    (hprior : (f (s.window_array p)).prior_window = (s.window_array p).prior_window) : (s.setWindow p f).links = s.links := by
  have hnext' : Function.update s.links.next p (s.window_array p).next_window = s.links.next := Function.update_eq_self ..
  have hprior' : Function.update s.links.prior p (s.window_array p).prior_window = s.links.prior := Function.update_eq_self ..
  rw [setWindow_links, hnext, hprior, hnext', hprior']

theorem pushTail_links (s : State) (p : WindowLink) : (s.pushTail p).links = s.links.push p := by
  have hhead : (s.startList p).links =
      { s.links with head := if s.links.head = none then some p else s.links.head } := by
    unfold State.startList State.links
    split <;> simp_all
  have htail : ∀ s : State, (s.linkTail p).links =
      { s.links with next := Links.setLink s.links.next s.links.tail (some p) } := by
    intro s
    unfold State.linkTail
    show _ = { s.links with next := Links.setLink s.links.next s.list_tail (some p) }
    cases s.list_tail with
    | none => rfl
    | some tail => exact setNext_links s tail (some p)
  have hend : ∀ s : State, ({ s with list_tail := some p } : State).links = { s.links with tail := some p } := fun _ => rfl
  have hlinks : ∀ s : State, s.list_tail = s.links.tail := fun _ => rfl
  unfold State.pushTail
  dsimp only
  rw [setNext_links, hend, setPrior_links, hlinks, htail, hhead]
  rfl

/-- Taking `p` out, where `p` is not linked to itself. -/
theorem unlink_links {s : State} {p : WindowLink} (hp : s.links.prior p ≠ some p) :
    (s.unlink p).links = s.links.unlink p := by
  have hnext : (s.skipNext p).links = { s.links with
      head := if s.links.prior p = none then s.links.next p else s.links.head
      next := Links.setLink s.links.next (s.links.prior p) (s.links.next p) } := by
    unfold State.skipNext
    show _ = { s.links with
      head := if (s.window_array p).prior_window = none then s.links.next p else s.links.head
      next := Links.setLink s.links.next (s.window_array p).prior_window (s.links.next p) }
    cases (s.window_array p).prior_window with
    | none => rfl
    | some prior => exact setNext_links s prior _
  have hprior : ∀ s : State, (s.skipPrior p).links = { s.links with
      tail := if s.links.next p = none then s.links.prior p else s.links.tail
      prior := Links.setLink s.links.prior (s.links.next p) (s.links.prior p) } := by
    intro s
    unfold State.skipPrior
    show _ = { s.links with
      tail := if (s.window_array p).next_window = none then s.links.prior p else s.links.tail
      prior := Links.setLink s.links.prior (s.window_array p).next_window (s.links.prior p) }
    cases (s.window_array p).next_window with
    | none => rfl
    | some next => exact setPrior_links s next _
  unfold State.unlink
  rw [hprior, hnext]
  unfold Links.unlink
  dsimp only
  simp only [Links.setLink_of_ne hp]

/-! ### Searches -/

theorem Listed.length_le (h : Listed s l) : l.length ≤ MAXWINDOW := by
  have := h.holds.nodup.length_le_card
  rwa [Fintype.card_fin] at this

/-- **`getWindowById`** returns the window with the id that is nearest the bottom, if there is one. -/
theorem getWindowById_run (h : Listed s l) (window_id : Int) :
    getWindowById window_id s = (.ok (l.find? fun p => (s.window_array p).window_id = window_id, s), []) := by
  have hseek := h.holds.next.seek (fun p => decide ((s.window_array p).window_id = window_id)) h.length_le
  have hhead : l.head? = s.list_head := h.holds.head.symm
  rw [hhead] at hseek
  unfold getWindowById
  rw [Prog.run_bind_ok (Prog.run_get s)]
  exact congrArg (fun r => ((ended r s).1, [] ++ (ended r s).2)) hseek

/-- **`getWindowByPoint`** returns the window with the point that is nearest the top, if there is one. -/
theorem getWindowByPoint_run (h : Listed s l) (x y : Int) : getWindowByPoint x y s =
    (.ok (l.reverse.find? fun p => inClientRect (s.window_array p).window_position x y, s), []) := by
  have hlen : l.reverse.length ≤ MAXWINDOW := by
    rw [List.length_reverse]
    exact h.length_le
  have hseek := h.holds.prior.seek (fun p => inClientRect (s.window_array p).window_position x y) hlen
  have htail : l.reverse.head? = s.list_tail := by
    rw [List.head?_reverse]
    exact h.holds.tail.symm
  rw [htail] at hseek
  unfold getWindowByPoint
  rw [Prog.run_bind_ok (Prog.run_get s)]
  exact congrArg (fun r => ((ended r s).1, [] ++ (ended r s).2)) hseek

end

end NewXv6.Gui
