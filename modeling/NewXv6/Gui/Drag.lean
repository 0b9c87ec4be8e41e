import NewXv6.Gui.Calls
import NewXv6.Gui.Order

/-!
# Dragging

A mouse event at a point of a window moves at most the topmost window with the point, and only by the way the pointer has
gone. Sums of coordinates that do not fit an `int` and a pointer coordinate of -1, which says that no position has been
recorded, are the exceptions (`Exact`).
-/

namespace NewXv6.Gui

open Lib

variable {zero : Option Window} {s t u : State} {l : List WindowLink} {p q : WindowLink} {x y : Int}

/-! ## One event -/

/-- A mouse event of `createMsg`. -/
structure MouseEvent where
  msg_type : Int
  pos_x : Int
  pos_y : Int

def mouseEvent (zero : Option Window) (e : MouseEvent) : Act Unit := createMsg zero e.msg_type e.pos_x e.pos_y 0

/-- The topmost window with a point. -/
def State.topmost (s : State) (l : List WindowLink) (x y : Int) : Option WindowLink :=
  l.reverse.find? fun p => inClientRect (s.window_array p).window_position x y

/-- The position of a window. -/
def State.position (s : State) (p : WindowLink) : Rect := (s.window_array p).window_position

/-- The recorded position of the pointer, which is the new one at the first event. -/
def recorded (mouse pos : Int) : Int := if mouse = -1 then pos else mouse

/-- What an event may do to the windows and to the recorded position: `p` moves if it is dragged and the move is legal. -/
structure Placed (drag : Prop) (s : State) (l : List WindowLink) (p : WindowLink) (x y : Int) (t : State) : Prop where
  listed : ∃ l', Listed t l' ∧ l'.head? = l.head?
  others : ∀ q, q ≠ p → t.position q = s.position q
  moved : t.position p = s.position p ∨
    drag ∧ l.head? ≠ some p ∧ s.legalMove (s.position p) (int (x - recorded s.mouse_x x)) (int (y - recorded s.mouse_y y)) ∧
      t.position p = (s.position p).move (int (x - recorded s.mouse_x x)) (int (y - recorded s.mouse_y y))
  screen : t.SCREEN_WIDTH = s.SCREEN_WIDTH ∧ t.SCREEN_HEIGHT = s.SCREEN_HEIGHT
  pointer : t.mouse_x = x ∧ t.mouse_y = y ∨
    t.mouse_x = recorded s.mouse_x x ∧ t.mouse_y = recorded s.mouse_y y

/-- The first window of a list has none before it. -/
theorem Listed.prior_head (h : Listed s l) (hp : l.head? = some p) : (s.window_array p).prior_window = none := by
  cases l with
  | nil => cases hp
  | cons a l =>
    cases hp
    exact (Links.Holds.split (show s.links.Holds ([] ++ p :: l) from h.holds)).1

theorem raise_head (hp : p ∈ l) : (raise l p).head? = l.head? := by
  unfold raise
  split
  · rfl
  · rename_i hne
    cases l with
    | nil => cases hp
    | cons a l =>
      have ha : a ≠ p := fun h => hne (by rw [h]; rfl)
      rw [List.erase_cons_tail (by simpa using ha)]
      rfl

/-- Only messages, the screen and the pointer change. -/
structure Quiet (s t : State) : Prop where
  window_array : t.window_array = s.window_array
  links : t.links = s.links
  screen : t.SCREEN_WIDTH = s.SCREEN_WIDTH ∧ t.SCREEN_HEIGHT = s.SCREEN_HEIGHT

theorem Quiet.trans (h : Quiet s t) (h' : Quiet t u) : Quiet s u :=
  ⟨h'.window_array.trans h.window_array, h'.links.trans h.links, h'.screen.1.trans h.screen.1, h'.screen.2.trans h.screen.2⟩

theorem Quiet.of_sent {C : Contract Fault Event} (h : Sent C s t) : Quiet s t := by
  refine ⟨h.window_array, h.links, ?_⟩
  rw [h.rest]
  exact ⟨rfl, rfl⟩

theorem Quiet.of_still (h : Still s t) : Quiet s t := by
  unfold Still at h
  rw [h]
  exact ⟨rfl, rfl, rfl, rfl⟩

theorem Quiet.listed (h : Quiet s t) (hs : Listed s l) : Listed t l :=
  ⟨h.links ▸ hs.holds, fun p => by rw [h.window_array]; exact hs.mem p⟩

theorem sent_pointer {C : Contract Fault Event} (h : Sent C s t) : t.mouse_x = s.mouse_x ∧ t.mouse_y = s.mouse_y := by
  rw [h.rest]
  exact ⟨rfl, rfl⟩

theorem wp_mouseMoved_quiet : Wp anyRun (mouseMoved x y) (fun _ t => Quiet s t ∧ t.mouse_x = x ∧ t.mouse_y = y) s := by
  simp only [mouseMoved, drawMouse, wp_bind, wp_modify, wp_ite, wp_pure]
  refine ⟨fun _ => ⟨⟨rfl, rfl, rfl, rfl⟩, trivial, trivial⟩, fun _ => ?_⟩
  split <;> exact ⟨⟨rfl, rfl, rfl, rfl⟩, rfl, rfl⟩

/-- What `setActivated` leaves: the windows in a new order. -/
structure Activated (s : State) (l : List WindowLink) (p : WindowLink) (t : State) : Prop where
  listed : Listed t (raise l p)
  position : ∀ q, t.position q = s.position q
  screen : t.SCREEN_WIDTH = s.SCREEN_WIDTH ∧ t.SCREEN_HEIGHT = s.SCREEN_HEIGHT
  pointer : t.mouse_x = s.mouse_x ∧ t.mouse_y = s.mouse_y

theorem wp_setActivated_order (h : Listed s l) (hp : p ∈ l) :
    Wp anyRun (setActivated (some p)) (fun _ t => Activated s l p t) s := by
  refine wp_setActivated anyRun_lax h (fun _ _ => anyRun_sends _) hp fun t ht => ⟨⟨ht.holds, fun q => ?_⟩, fun q => ?_, ?_, ?_⟩
  · rw [(raise_perm hp).mem_iff, (ht.same q).window_id]
    exact h.mem q
  · exact (ht.same q).window_position
  · rw [ht.rest]
    exact ⟨rfl, rfl⟩
  · rw [ht.rest]
    exact ⟨rfl, rfl⟩

/-- The window under the pointer is dragged. -/
theorem wp_dragWindow_placed {drag : Prop} (hdrag : drag) (h : Listed s l) (hx : s.mouse_x = recorded s.mouse_x x)
    (hy : s.mouse_y = recorded s.mouse_y y) : Wp anyRun (dragWindow zero p x y) (fun _ t => Placed drag s l p x y t) s := by
  have hstay : Wp anyRun (mouseMoved x y) (fun _ t => Placed drag s l p x y t) s :=
    wp_mouseMoved_quiet.mono fun _ t ht => ⟨⟨l, ht.1.listed h, rfl⟩, fun q _ => by unfold State.position; rw [ht.1.window_array],
      Or.inl (by unfold State.position; rw [ht.1.window_array]), ht.1.screen, Or.inl ht.2⟩
  simp only [dragWindow, wp_bind, wp_get, wp_ite, wp_modify]
  refine ⟨fun _ => hstay, fun hprior => ⟨fun hlegal => ?_, fun _ => hstay⟩⟩
  rw [hx, hy] at hlegal ⊢
  generalize hd : int (x - recorded s.mouse_x x) = dx at hlegal ⊢
  generalize hd' : int (y - recorded s.mouse_y y) = dy at hlegal ⊢
  have hmoved := (setPosition_moved (C := anyRun) (Moved.refl h) p ((s.window_array p).window_position.move dx dy)).listed h
  generalize hv : (s.setWindow p fun w => { w with window_position := (s.window_array p).window_position.move dx dy }) = v
    at hmoved ⊢
  refine wp_drawScreen anyRun_lax hmoved.holds.head (fun _ _ => anyRun_sends _) (fun _ => anyRun_null zero _) fun t ht => ?_
  simp only [setMouse, wp_modify]
  have hquiet : Quiet v { { t with mouse_x := x, mouse_y := y } with mouseX := x, mouseY := y } :=
    (Quiet.of_sent ht).trans ⟨rfl, rfl, rfl, rfl⟩
  have hposition : ∀ q, State.position { { t with mouse_x := x, mouse_y := y } with mouseX := x, mouseY := y } q = v.position q :=
    fun q => by unfold State.position; rw [hquiet.window_array]
  refine ⟨⟨l, hquiet.listed hmoved, rfl⟩, fun q hq => ?_, Or.inr ⟨hdrag, fun hhead => ?_, ?_, ?_⟩, ?_, Or.inl ⟨rfl, rfl⟩⟩
  · rw [hposition, ← hv]
    unfold State.position
    rw [setWindow_of_ne hq]
  · exact hprior (h.prior_head hhead)
  · rw [hd, hd']
    exact hlegal
  · rw [hposition, ← hv, hd, hd']
    unfold State.position
    rw [setWindow_self]
  · rw [hquiet.screen.1, hquiet.screen.2, ← hv]
    exact ⟨rfl, rfl⟩

/-- **An event at a point of a window** leaves the windows where they are, or moves the topmost one with the point. -/
theorem wp_mouseEvent (h : Listed s l) {e : MouseEvent} (hkey : e.msg_type ≠ MSG_KEYDOWN)
    (htop : s.topmost l e.pos_x e.pos_y = some p) :
    Wp anyRun (mouseEvent zero e) (fun _ t => Placed (e.msg_type = MSG_DRAG) s l p e.pos_x e.pos_y t) s := by
  have hp : p ∈ l := List.mem_reverse.1 (List.mem_of_find?_eq_some htop)
  simp only [mouseEvent, createMsg, wp_ite, wp_bind, wp_get, wp_modify]
  refine ⟨fun hk => absurd hk hkey, fun _ => ?_⟩
  -- the position is recorded at the first event
  generalize hs₁ : ({ s with
    mouse_x := if s.mouse_x = -1 then e.pos_x else s.mouse_x
    mouse_y := if s.mouse_y = -1 then e.pos_y else s.mouse_y } : State) = s₁
  have hx : s₁.mouse_x = recorded s.mouse_x e.pos_x := by rw [← hs₁]; rfl
  have hy : s₁.mouse_y = recorded s.mouse_y e.pos_y := by rw [← hs₁]; rfl
  have hquiet : Quiet s s₁ := by rw [← hs₁]; exact ⟨rfl, rfl, rfl, rfl⟩
  have h₁ : Listed s₁ l := hquiet.listed h
  have hposition : ∀ q, s₁.position q = s.position q := fun q => by unfold State.position; rw [hquiet.window_array]
  have hrec : ∀ m v : Int, recorded (recorded m v) v = recorded m v := fun m v => by
    unfold recorded
    split
    · split <;> rfl
    · rfl
  -- what is placed from `s₁` on is placed from `s` on
  have hplaced : ∀ v t, Activated s₁ l p v → Placed (e.msg_type = MSG_DRAG) v (raise l p) p e.pos_x e.pos_y t →
      Placed (e.msg_type = MSG_DRAG) s l p e.pos_x e.pos_y t := by
    intro v t hv ht
    obtain ⟨l', hl', hhead⟩ := ht.listed
    have hlegal : ∀ r dx dy, v.legalMove r dx dy ↔ s.legalMove r dx dy := fun r dx dy => by
      unfold State.legalMove
      rw [hv.screen.1, hv.screen.2, hquiet.screen.1, hquiet.screen.2]
    refine ⟨⟨l', hl', hhead.trans (raise_head hp)⟩, fun q hq => ?_, ?_, ?_, ?_⟩
    · rw [ht.others q hq, hv.position, hposition]
    · have hmoved := ht.moved
      rw [hv.position, hposition, hv.pointer.1, hv.pointer.2, hx, hy, hrec, hrec, raise_head hp, hlegal] at hmoved
      exact hmoved
    · rw [ht.screen.1, ht.screen.2, hv.screen.1, hv.screen.2]
      exact hquiet.screen
    · have hpointer := ht.pointer
      rw [hv.pointer.1, hv.pointer.2, hx, hy, hrec, hrec] at hpointer
      exact hpointer
  -- nothing but the pointer changes
  have hstill : ∀ t, Quiet s₁ t → (t.mouse_x = e.pos_x ∧ t.mouse_y = e.pos_y ∨ t.mouse_x = s₁.mouse_x ∧ t.mouse_y = s₁.mouse_y) →
      Placed (e.msg_type = MSG_DRAG) s l p e.pos_x e.pos_y t := by
    intro t ht hpointer
    have hsame : ∀ q, t.position q = s.position q := fun q => by
      rw [← hposition q]
      unfold State.position
      rw [ht.window_array]
    rw [hx, hy] at hpointer
    exact ⟨⟨l, ht.listed h₁, rfl⟩, fun q _ => hsame q, Or.inl (hsame p), (hquiet.trans ht).screen, hpointer⟩
  have hactivated : ∀ v t, Activated s₁ l p v → Quiet v t →
      (t.mouse_x = e.pos_x ∧ t.mouse_y = e.pos_y ∨ t.mouse_x = v.mouse_x ∧ t.mouse_y = v.mouse_y) →
      Placed (e.msg_type = MSG_DRAG) s l p e.pos_x e.pos_y t := by
    intro v t hv ht hpointer
    have hsame : ∀ q, t.position q = v.position q := fun q => by unfold State.position; rw [ht.window_array]
    refine hplaced v t hv ⟨⟨_, ht.listed hv.listed, rfl⟩, fun q _ => hsame q, Or.inl (hsame p), ht.screen, ?_⟩
    rw [hv.pointer.1, hv.pointer.2, hx, hy, hrec, hrec]
    rw [hv.pointer.1, hv.pointer.2, hx, hy] at hpointer
    exact hpointer
  refine wp_getWindowByPoint h₁ ?_
  rw [show (l.reverse.find? fun p => inClientRect (s₁.window_array p).window_position e.pos_x e.pos_y) = some p by
    rw [hquiet.window_array]; exact htop]
  refine wp_deref (fun q hq => ?_) (fun he => by cases he) (fun _ he => by cases he)
  cases hq
  refine ⟨fun _ => ?_, fun _ => ⟨fun hdrag => ?_, fun _ => ?_⟩⟩
  · refine (wp_setActivated_order h₁ hp).mono fun _ v hv => wp_requireMsg fun o w hw => ?_
    refine wp_send trivial (anyRun_sends _) fun sent z hz => ⟨fun _ => ?_, fun _ => ?_⟩
    · have hvz := Quiet.of_sent (hw.trans hz)
      exact wp_mouseMoved_quiet.mono fun _ t ht => hactivated v t hv (hvz.trans ht.1) (Or.inl ht.2)
    · exact (wp_pure _ _ _).2 (hactivated v z hv (Quiet.of_sent (hw.trans hz)) (Or.inr (sent_pointer (hw.trans hz))))
  · refine (wp_setActivated_order h₁ hp).mono fun _ v hv => ?_
    have hvx : v.mouse_x = recorded v.mouse_x e.pos_x := by rw [hv.pointer.1, hx, hrec]
    have hvy : v.mouse_y = recorded v.mouse_y e.pos_y := by rw [hv.pointer.2, hy, hrec]
    exact (wp_dragWindow_placed hdrag hv.listed hvx hvy).mono fun _ t ht => hplaced v t hv ht
  · exact wp_mouseMoved_quiet.mono fun _ t ht => hstill t ht.1 (Or.inl ht.2)

/-! ## Runs of events -/

/-- The same width and height. -/
def Rect.SameSize (r r' : Rect) : Prop :=
  r.right_x - r.left_x = r'.right_x - r'.left_x ∧ r.right_y - r.left_y = r'.right_y - r'.left_y

/-- A window inside the screen. -/
def State.Inside (s : State) (p : WindowLink) : Prop :=
  0 ≤ (s.position p).left_x ∧ 0 ≤ (s.position p).left_y ∧ (s.position p).right_x ≤ s.SCREEN_WIDTH ∧
    (s.position p).right_y ≤ s.SCREEN_HEIGHT

/-- A rectangle moved without overflow. -/
def Rect.shift (r : Rect) (dx dy : Int) : Rect := ⟨r.left_x + dx, r.left_y + dy, r.right_x + dx, r.right_y + dy⟩

/-- The value of an `int`. -/
def IsInt (x : Int) : Prop := -2 ^ 31 ≤ x ∧ x < 2 ^ 31

instance (x : Int) : Decidable (IsInt x) := inferInstanceAs (Decidable (_ ∧ _))

/-- The sums of a move fit an `int`. -/
structure Rect.Fits (r : Rect) (dx dy : Int) : Prop where
  x : IsInt dx
  y : IsInt dy
  left_x : IsInt (r.left_x + dx)
  left_y : IsInt (r.left_y + dy)
  right_x : IsInt (r.right_x + dx)
  right_y : IsInt (r.right_y + dy)

theorem Rect.Fits.move {r : Rect} {dx dy : Int} (h : r.Fits dx dy) : int dx = dx ∧ int dy = dy ∧ r.move dx dy = r.shift dx dy := by
  refine ⟨int_of_range h.x.1 h.x.2, int_of_range h.y.1 h.y.2, ?_⟩
  unfold Rect.move Rect.shift
  rw [int_of_range h.left_x.1 h.left_x.2, int_of_range h.left_y.1 h.left_y.2, int_of_range h.right_x.1 h.right_x.2,
    int_of_range h.right_y.1 h.right_y.2]

/-- A mouse event at a point of the window `p`, the topmost one there. -/
structure Covers (s : State) (e : MouseEvent) (l : List WindowLink) (p : WindowLink) : Prop where
  mouse : e.msg_type ≠ MSG_KEYDOWN
  listed : Listed s l
  top : s.topmost l e.pos_x e.pos_y = some p

/-- No coordinate of the pointer is -1, and the sums of a drag fit an `int`. -/
structure Exact (s : State) (e : MouseEvent) : Prop where
  pos_x : e.pos_x ≠ -1
  pos_y : e.pos_y ≠ -1
  sums : e.msg_type = MSG_DRAG → ∀ l p, Covers s e l p → l.head? ≠ some p →
    (s.position p).Fits (e.pos_x - recorded s.mouse_x e.pos_x) (e.pos_y - recorded s.mouse_y e.pos_y)

/-- The windows before the first event: no position of the pointer has been recorded. -/
structure Start (s : State) (l : List WindowLink) : Prop where
  listed : Listed s l
  mouse_x : s.mouse_x = -1
  mouse_y : s.mouse_y = -1

/-- An event at a point of some window, without an exception. -/
def Usual (s : State) (e : MouseEvent) : Prop := (∃ l p, Covers s e l p) ∧ Exact s e

/-- **One event**: the topmost window stays or moves by the way of the pointer, and stays on the screen. -/
theorem mouseEvent_moves {e : MouseEvent} (hc : Covers s e l p) (he : Exact s e) {w : List Event}
    (hrun : mouseEvent zero e s = (.ok ((), t), w)) : Placed (e.msg_type = MSG_DRAG) s l p e.pos_x e.pos_y t ∧
      (t.position p = s.position p ∨ e.msg_type = MSG_DRAG ∧ l.head? ≠ some p ∧ t.Inside p ∧ t.position p =
        (s.position p).shift (e.pos_x - recorded s.mouse_x e.pos_x) (e.pos_y - recorded s.mouse_y e.pos_y)) := by
  have hplaced := (wp_mouseEvent hc.listed hc.mouse hc.top).run hrun fun _ _ => trivial
  refine ⟨hplaced, hplaced.moved.imp id fun ⟨hdrag, hhead, hlegal, hmove⟩ => ?_⟩
  have hfits := he.sums hdrag l p hc hhead
  obtain ⟨hx, hy, hshift⟩ := hfits.move
  rw [hx, hy] at hmove hlegal
  rw [hshift] at hmove
  refine ⟨hdrag, hhead, ?_, hmove⟩
  obtain ⟨h₁, h₂, h₃, h₄⟩ := hlegal
  rw [int_of_range hfits.left_x.1 hfits.left_x.2] at h₁
  rw [int_of_range hfits.left_y.1 hfits.left_y.2] at h₂
  rw [int_of_range hfits.right_x.1 hfits.right_x.2] at h₃
  rw [int_of_range hfits.right_y.1 hfits.right_y.2] at h₄
  unfold State.Inside
  rw [hmove, hplaced.screen.1, hplaced.screen.2]
  exact ⟨h₁, h₂, Int.le_of_lt h₃, Int.le_of_lt h₄⟩

theorem Rect.SameSize.shift (r : Rect) (dx dy : Int) : (r.shift dx dy).SameSize r := by
  unfold Rect.SameSize Rect.shift
  constructor <;> dsimp only <;> omega

/-- What every run keeps of the windows it started with. -/
structure Rigid (s₀ : State) (l₀ : List WindowLink) (s : State) : Prop where
  listed : ∃ l, Listed s l ∧ l.head? = l₀.head?
  size : ∀ q, (s.position q).SameSize (s₀.position q)
  inside : ∀ q, s₀.Inside q → s.Inside q
  head : ∀ q, l₀.head? = some q → s.position q = s₀.position q
  pointer : s.mouse_x = -1 ↔ s.mouse_y = -1

theorem Rigid.event {s₀ : State} {l₀ : List WindowLink} (h : Rigid s₀ l₀ s) {e : MouseEvent} (he : Usual s e)
    {w : List Event} (hrun : mouseEvent zero e s = (.ok ((), t), w)) : Rigid s₀ l₀ t := by
  obtain ⟨⟨l, p, hc⟩, hexact⟩ := he
  obtain ⟨l', hl', hhead⟩ := h.listed
  obtain rfl : l = l' := Linked.eq_of_head hc.listed.holds.next hl'.holds.next
    (hc.listed.holds.head.symm.trans hl'.holds.head)
  obtain ⟨hplaced, hmoves⟩ := mouseEvent_moves hc hexact hrun
  obtain ⟨k, hk, hkhead⟩ := hplaced.listed
  refine ⟨⟨k, hk, hkhead.trans hhead⟩, fun q => ?_, fun q hq => ?_, fun q hq => ?_, ?_⟩
  · by_cases hqp : q = p
    · subst hqp
      rcases hmoves with hsame | ⟨-, -, -, hshift⟩
      · rw [hsame]
        exact h.size q
      · obtain ⟨hw, hh⟩ := Rect.SameSize.shift (s.position q) (e.pos_x - recorded s.mouse_x e.pos_x)
          (e.pos_y - recorded s.mouse_y e.pos_y)
        rw [hshift]
        exact ⟨hw.trans (h.size q).1, hh.trans (h.size q).2⟩
    · rw [hplaced.others q hqp]
      exact h.size q
  · have hin := h.inside q hq
    have hstay : t.position q = s.position q → t.Inside q := fun hsame => by
      unfold State.Inside
      rw [hsame, hplaced.screen.1, hplaced.screen.2]
      exact hin
    by_cases hqp : q = p
    · subst hqp
      rcases hmoves with hsame | ⟨-, -, hinside, -⟩
      · exact hstay hsame
      · exact hinside
    · exact hstay (hplaced.others q hqp)
  · rw [← h.head q hq]
    by_cases hqp : q = p
    · subst hqp
      rcases hmoves with hsame | ⟨-, hne, -, -⟩
      · exact hsame
      · exact absurd (hhead.trans hq) hne
    · exact hplaced.others q hqp
  · have hx := hexact.pos_x
    have hy := hexact.pos_y
    have hiff := h.pointer
    rcases hplaced.pointer with ⟨h₁, h₂⟩ | ⟨h₁, h₂⟩
    · rw [h₁, h₂]
      exact iff_of_false hx hy
    · rw [h₁, h₂]
      unfold recorded
      by_cases hm : s.mouse_x = -1
      · rw [if_pos hm, if_pos (hiff.1 hm)]
        exact iff_of_false hx hy
      · rw [if_neg hm, if_neg fun hm' => hm (hiff.2 hm')]
        exact hiff

/-- **Dragging is rigid.** In every run of events at points of windows, without an exception: windows keep their size, a
window inside the screen stays inside, and the bottom window does not move; and with the next event no window moves but
the topmost one with the point, which moves by the way of the pointer since its recorded position, if it moves. -/
theorem dragging_rigid (zero : Option Window) (s₀ : State) (l₀ : List WindowLink) (h₀ : Start s₀ l₀) :
    ∀ s w, Reached (mouseEvent zero) Usual s₀ s w →
      (∀ q, (s.position q).SameSize (s₀.position q)) ∧ (∀ q, s₀.Inside q → s.Inside q) ∧
      (∀ q, l₀.head? = some q → s.position q = s₀.position q) ∧ (s.mouse_x = -1 ↔ s.mouse_y = -1) ∧
      ∀ e l p t v, Covers s e l p → Exact s e → mouseEvent zero e s = (.ok ((), t), v) →
        (∀ q, q ≠ p → t.position q = s.position q) ∧
        (t.position p = s.position p ∨ e.msg_type = MSG_DRAG ∧ t.position p =
          (s.position p).shift (e.pos_x - recorded s.mouse_x e.pos_x) (e.pos_y - recorded s.mouse_y e.pos_y)) := by
  intro s w hreached
  have hrigid : Rigid s₀ l₀ s := by
    induction hreached with
    | start => exact ⟨⟨l₀, h₀.listed, rfl⟩, fun q => ⟨rfl, rfl⟩, fun q hq => hq, fun q _ => rfl,
        iff_of_true h₀.mouse_x h₀.mouse_y⟩
    | step _ hx hrun ih => exact ih.event hx hrun
  refine ⟨hrigid.size, hrigid.inside, hrigid.head, hrigid.pointer, fun e l p t v hc he hrun => ?_⟩
  obtain ⟨hplaced, hmoves⟩ := mouseEvent_moves hc he hrun
  exact ⟨hplaced.others, hmoves.imp id fun ⟨hdrag, _, _, hshift⟩ => ⟨hdrag, hshift⟩⟩

/-- The list of the desktop and a window. -/
def State.Two (s : State) : Prop :=
  s.list_head = some 0 ∧ s.list_tail = some 1 ∧ (s.window_array 0).next_window = some 1 ∧
    (s.window_array 1).next_window = none ∧ (s.window_array 1).prior_window = some 0 ∧
    (s.window_array 0).prior_window = none ∧ ∀ p : WindowLink, p ∈ ([0, 1] : List WindowLink) ↔ 0 < (s.window_array p).window_id

instance (s : State) : Decidable s.Two := by
  unfold State.Two
  infer_instance

theorem State.Two.listed (h : s.Two) : Listed s [0, 1] := by
  obtain ⟨hhead, htail, hn0, hn1, hp1, hp0, hmem⟩ := h
  exact ⟨⟨by decide, hhead, htail, ⟨hn0, hn1, trivial⟩, ⟨hp1, hp0, trivial⟩⟩, hmem⟩

/-- An event at a point of the upper window. -/
theorem State.Two.usual (h : s.Two) {e : MouseEvent} (hkey : e.msg_type ≠ MSG_KEYDOWN)
    (htop : s.topmost [0, 1] e.pos_x e.pos_y = some 1) (hx : e.pos_x ≠ -1) (hy : e.pos_y ≠ -1)
    (hfits : (s.position 1).Fits (e.pos_x - recorded s.mouse_x e.pos_x) (e.pos_y - recorded s.mouse_y e.pos_y)) :
    Covers s e [0, 1] 1 ∧ Exact s e := by
  refine ⟨⟨hkey, h.listed, htop⟩, hx, hy, fun _ l p hc _ => ?_⟩
  obtain rfl : l = [0, 1] := Linked.eq_of_head hc.listed.holds.next h.listed.holds.next
    (hc.listed.holds.head.symm.trans h.listed.holds.head)
  obtain rfl : p = 1 := Option.some.inj (hc.top.symm.trans htop)
  exact hfits

/-- The pointer is put on a window, and the window is dragged twice. -/
theorem dragging_rigid_two : ∃ s s₂ t w v, Start s [0, 1] ∧ Reached (mouseEvent none) Usual s s₂ w ∧
    s.position 1 = ⟨10, 10, 20, 30⟩ ∧ s₂.position 1 = ⟨12, 13, 22, 33⟩ ∧ (s₂.position 1).SameSize (s.position 1) ∧
    s₂.position 0 = s.position 0 ∧ mouseEvent none ⟨MSG_DRAG, 19, 22⟩ s₂ = (.ok ((), t), v) ∧
    t.position 0 = s₂.position 0 ∧ t.position 1 = (s₂.position 1).shift 2 4 := by
  have hrun : (inputs none [.createWindow 3 (some ⟨0, 0, 800, 600⟩), .createWindow 4 (some ⟨10, 10, 20, 30⟩)]).check
      (init 800 600 fun _ => 0) (fun _ s => decide (s.Two ∧ s.mouse_x = -1 ∧ s.mouse_y = -1 ∧
        s.position 1 = ⟨10, 10, 20, 30⟩) &&
      (mouseEvent none ⟨MSG_MOVE, 15, 15⟩).check s fun _ s₁ => decide (s₁.Two ∧ s₁.mouse_x = 15 ∧ s₁.mouse_y = 15 ∧
        s₁.position 1 = ⟨10, 10, 20, 30⟩) &&
      (mouseEvent none ⟨MSG_DRAG, 17, 18⟩).check s₁ fun _ s₂ => decide (s₂.Two ∧ s₂.mouse_x = 17 ∧ s₂.mouse_y = 18 ∧
        s₂.position 1 = ⟨12, 13, 22, 33⟩) &&
      (mouseEvent none ⟨MSG_DRAG, 19, 22⟩).check s₂ fun _ t => decide (t.position 1 ≠ s₂.position 1)) = true := by
    decide +kernel
  obtain ⟨_, s, w, -, hp⟩ := Prog.run_of_check hrun
  rw [Bool.and_eq_true, decide_eq_true_eq] at hp
  obtain ⟨⟨h, hx, hy, hr⟩, hrun₁⟩ := hp
  obtain ⟨_, s₁, w₁, hmove, hp⟩ := Prog.run_of_check hrun₁
  rw [Bool.and_eq_true, decide_eq_true_eq] at hp
  obtain ⟨⟨h₁, hx₁, hy₁, hr₁⟩, hrun₂⟩ := hp
  obtain ⟨_, s₂, w₂, hdrag, hp⟩ := Prog.run_of_check hrun₂
  rw [Bool.and_eq_true, decide_eq_true_eq] at hp
  obtain ⟨⟨h₂, hx₂, hy₂, hr₂⟩, hrun₃⟩ := hp
  obtain ⟨_, t, v, hlast, hne⟩ := Prog.run_of_check hrun₃
  rw [decide_eq_true_eq] at hne
  have htop : ∀ u : State, ∀ r : Rect, u.position 1 = r → ∀ x y, inClientRect r x y = true → u.topmost [0, 1] x y = some 1 :=
    fun u r hr x y hin => by
      unfold State.position at hr
      simp [State.topmost, hr, hin]
  have hstart : Start s [0, 1] := ⟨h.listed, hx, hy⟩
  obtain ⟨hc, he⟩ := h.usual (e := ⟨MSG_MOVE, 15, 15⟩) (by decide) (htop s _ hr _ _ (by decide)) (by decide) (by decide)
    (by rw [hr, hx, hy]; constructor <;> decide)
  obtain ⟨hc₁, he₁⟩ := h₁.usual (e := ⟨MSG_DRAG, 17, 18⟩) (by decide) (htop s₁ _ hr₁ _ _ (by decide)) (by decide) (by decide)
    (by rw [hr₁, hx₁, hy₁]; constructor <;> decide)
  obtain ⟨hc₂, he₂⟩ := h₂.usual (e := ⟨MSG_DRAG, 19, 22⟩) (by decide) (htop s₂ _ hr₂ _ _ (by decide)) (by decide) (by decide)
    (by rw [hr₂, hx₂, hy₂]; constructor <;> decide)
  have hreached : Reached (mouseEvent none) Usual s s₂ (([] ++ w₁) ++ w₂) :=
    .step (.step .start ⟨⟨_, _, hc⟩, he⟩ hmove) ⟨⟨_, _, hc₁⟩, he₁⟩ hdrag
  obtain ⟨hsize, -, hhead, -, hnext⟩ := dragging_rigid none s [0, 1] hstart s₂ _ hreached
  obtain ⟨hothers, hmoved⟩ := hnext _ _ _ t v hc₂ he₂ hlast
  refine ⟨s, s₂, t, _, v, hstart, hreached, hr, hr₂, hsize 1, hhead 0 rfl, hlast, hothers 0 (by decide), ?_⟩
  obtain ⟨-, hshift⟩ := hmoved.resolve_left hne
  rw [hshift, hx₂, hy₂]
  rfl

/-- A window with its right edge at the greatest `int` is dragged by one pixel, and its right edge becomes negative. -/
theorem drag_overflow : ∃ s w, inputs none [.createWindow 3 (some ⟨0, 0, 800, 600⟩),
      .createWindow 4 (some ⟨0, 0, 2 ^ 31 - 1, 100⟩), .mouse MSG_MOVE 5 5, .mouse MSG_DRAG 6 5] (init 800 600 fun _ => 0) =
    (.ok ((), s), w) ∧ s.position 1 = ⟨1, 0, -2 ^ 31, 100⟩ := by
  have hrun : (inputs none [.createWindow 3 (some ⟨0, 0, 800, 600⟩), .createWindow 4 (some ⟨0, 0, 2 ^ 31 - 1, 100⟩),
      .mouse MSG_MOVE 5 5, .mouse MSG_DRAG 6 5]).check (init 800 600 fun _ => 0)
      (fun _ s => s.position 1 = ⟨1, 0, -2 ^ 31, 100⟩) = true := by decide +kernel
  obtain ⟨_, s, w, hs, hp⟩ := Prog.run_of_check hrun
  simp only [decide_eq_true_eq] at hp
  exact ⟨s, w, hs, hp⟩

end NewXv6.Gui
