import NewXv6.Gui.Relay

/-!
# The screen after a redraw

After `drawScreen` and its relay the screen shows at each pixel the window a click there hits (`screen_shows`), and
after `drawScreenArea` and its relay it shows the same as after a full redraw (`area_shows`).
-/

namespace NewXv6.Gui

open Lib

variable {zero : Option Window} {s t u : State} {l : List WindowLink} {g : List Pending} {p : WindowLink}
  {context : WindowLink → Int → Color} {area : Rect} {x y : Int}

/-- Windows on a screen of 800 times 600 pixels, the bottom one as large as the screen, whose processes wait for
messages, while the messages `g` of other processes leave place for one more. -/
structure Desktop (s : State) (l : List WindowLink) (g : List Pending) : Prop where
  width : s.SCREEN_WIDTH = 800
  height : s.SCREEN_HEIGHT = 600
  listed : Listed s l
  ids : (l.map fun p => (s.window_array p).window_id).Nodup
  inScreen : ∀ p ∈ l, (s.window_array p).window_position.InScreen
  ordered : ∀ p ∈ l, (s.window_array p).window_position.left_x ≤ (s.window_array p).window_position.right_x ∧
    (s.window_array p).window_position.left_y ≤ (s.window_array p).window_position.right_y
  bottom : ∃ p, l.head? = some p ∧ (s.window_array p).window_position = ⟨0, 0, 800, 600⟩
  queued : Queued s g none
  ready : ∀ p ∈ l, Ready g (s.window_array p).pid
  idle : ∀ x ∈ g, ∀ p ∈ l, x.pid ≠ (s.window_array p).pid

/-- The process of a window answers with the window's context. -/
def answer (s : State) (context : WindowLink → Int → Color) (p : WindowLink) : Act Unit :=
  discard (sys_updateWindow (some (s.window_array p).window_id) fun _ => some (context p))

/-- The process of a window answers with the window's context and the area. -/
def answerArea (s : State) (context : WindowLink → Int → Color) (area : Rect) (p : WindowLink) : Act Unit :=
  discard (sys_updatePartialWindow (some (s.window_array p).window_id) (fun _ => some (context p)) (some area))

/-- `drawScreen` and the answers to the messages it leads to. -/
def redraw (zero : Option Window) (s : State) (context : WindowLink → Int → Color) (l : List WindowLink) : Act Unit := do
  drawScreen zero
  relay s (answer s context) l

/-- `drawScreenArea` and the answers to the messages it leads to. -/
def redrawArea (zero : Option Window) (s : State) (context : WindowLink → Int → Color) (area : Rect)
    (l : List WindowLink) : Act Unit := do
  drawScreenArea zero area.left_x area.left_y area.right_x area.right_y
  relay s (answerArea s context area) l

/-- The pixel of the window that is on top at a pixel of the screen. -/
def composed (s : State) (context : WindowLink → Int → Color) (l : List WindowLink) (x y : Int) : Color :=
  match l.reverse.find? fun p => inClientRect (s.window_array p).window_position x y with
  | some p => context p (contextIndex (s.window_array p).window_position x y)
  | none => 0

/-! ## The answers -/

theorem find_of_nodup {α β : Type} [DecidableEq β] {f : α → β} {l : List α} (h : (l.map f).Nodup) {a : α} (ha : a ∈ l) :
    l.find? (fun b => f b = f a) = some a := by
  induction l with
  | nil => cases ha
  | cons b l ih =>
    obtain ⟨hb, hl⟩ := List.nodup_cons.1 h
    rcases List.mem_cons.1 ha with rfl | ha
    · simp
    · have hne : f b ≠ f a := fun he => hb (he ▸ List.mem_map_of_mem ha)
      rw [List.find?_cons]
      simp only [hne, decide_false]
      exact ih hl ha

theorem discard_bind_pure {β : Type} (m : Act Unit) (b : β) (s : State) : discard (m >>= fun _ => pure b) s = m s := by
  show Prog.bind (Prog.bind m fun _ => pure b) (fun _ => pure ()) s = m s
  unfold Prog.bind
  rcases m s with ⟨e | ⟨⟨⟩, t⟩, w⟩
  · rfl
  · simp

theorem Desktop.size (h : Desktop s l g) (hp : p ∈ l) : ¬(s.window_array p).window_position.count < 0 := by
  obtain ⟨h₁, h₂, h₃, h₄⟩ := h.inScreen p hp
  obtain ⟨hx, hy⟩ := h.ordered p hp
  have hmul := Int.mul_nonneg (Int.sub_nonneg.2 hx) (Int.sub_nonneg.2 hy)
  have hmul' : ((s.window_array p).window_position.right_x - (s.window_array p).window_position.left_x) *
      ((s.window_array p).window_position.right_y - (s.window_array p).window_position.left_y) ≤ 800 * 600 :=
    Int.mul_le_mul (by omega) (by omega) (by omega) (by omega)
  unfold Rect.count
  rw [int_of_range (x := (s.window_array p).window_position.right_x - _) (by omega) (by omega),
    int_of_range (x := (s.window_array p).window_position.right_y - _) (by omega) (by omega),
    int_of_range (by omega) (by omega)]
  omega

/-- The window system finds the window of a process. -/
theorem Desktop.found (h : Desktop s l g) (hp : p ∈ l) (hu : Same s u) :
    getWindowById (s.window_array p).window_id u = (.ok (some p, u), []) := by
  rw [getWindowById_run (hu.listed h.listed), hu.window_array, find_of_nodup h.ids hp]

/-- The end of a full redraw: the buffer is shown. -/
def showScreen (s : State) : Act Unit := do
  Prog.modify fun u => { u with vesa_array := flush u }
  drawMouse s.mouseX s.mouseY

/-- The end of a partial redraw: the area is shown. -/
def showArea (s : State) (area : Rect) : Act Unit := do
  Prog.emit (.copy area)
  Prog.modify fun u => { u with vesa_array := copyPixels u.SCREEN_WIDTH (pixels area) u.vesa_buffer u.vesa_array }
  drawMouse s.mouseX s.mouseY

theorem answer_run (h : Desktop s l g) (hp : p ∈ l) (hu : Same s u) : answer s context p u =
    ((passOn s createUpdateMsg (showScreen s) p (s.paint context (fun p => (s.window_array p).window_position) p u)).1,
      .draw (s.window_array p).window_position (s.window_array p).window_position ::
      (passOn s createUpdateMsg (showScreen s) p (s.paint context (fun p => (s.window_array p).window_position) p u)).2) := by
  have hdraw : answer s context p u = drawWindow p (context p) u := by
    rw [← discard_bind_pure (drawWindow p (context p)) (0 : Int) u]
    unfold answer
    refine congrArg (fun r : Except Fault (Int × State) × List Event => Prog.bind (fun _ => r) (fun _ => pure ()) u) ?_
    rw [sys_updateWindow, Prog.run_bind_ok (h.found hp hu)]
    dsimp only
    rw [Prog.run_bind_ok (Prog.run_get u), hu.window_array, if_neg (h.size hp)]
    rfl
  rw [hdraw]
  obtain ⟨queue, table, buffer, rfl⟩ : ∃ queue table buffer,
      u = { s with MsgQueue := queue, MsgTable := table, vesa_buffer := buffer } := ⟨_, _, _, hu.rest⟩
  unfold State.paint
  rw [← h.width]
  rfl

theorem answerArea_run (h : Desktop s l g) (hp : p ∈ l) (hu : Same s u) : answerArea s context area p u =
    ((passOn s (fun pid => createPartialUpdateMsg pid area.left_x area.left_y area.right_x area.right_y) (showArea s area) p
        (s.paint context (fun p => getIntersection area (s.window_array p).window_position) p u)).1,
      .draw (s.window_array p).window_position (getIntersection area (s.window_array p).window_position) ::
      (passOn s (fun pid => createPartialUpdateMsg pid area.left_x area.left_y area.right_x area.right_y) (showArea s area) p
        (s.paint context (fun p => getIntersection area (s.window_array p).window_position) p u)).2) := by
  have hdraw : answerArea s context area p u = drawArea p (context p) area u := by
    rw [← discard_bind_pure (drawArea p (context p) area) (0 : Int) u]
    unfold answerArea
    refine congrArg (fun r : Except Fault (Int × State) × List Event => Prog.bind (fun _ => r) (fun _ => pure ()) u) ?_
    rw [sys_updatePartialWindow, Prog.run_bind_ok (h.found hp hu)]
    dsimp only
    rw [Prog.run_bind_ok (Prog.run_get u), hu.window_array, if_neg (h.size hp)]
    rfl
  rw [hdraw]
  obtain ⟨queue, table, buffer, rfl⟩ : ∃ queue table buffer,
      u = { s with MsgQueue := queue, MsgTable := table, vesa_buffer := buffer } := ⟨_, _, _, hu.rest⟩
  unfold State.paint
  rw [← h.width]
  rfl

/-! ## The ends -/

theorem Same.underMouse (hu : Same s u) (k : Int) : u.UnderMouse k ↔ s.UnderMouse k := by
  rw [hu.rest]
  rfl

/-- What only differs in what is on the screen. -/
structure Shown (s t : State) : Prop where
  rest : t = { s with vesa_array := t.vesa_array }

theorem showScreen_run (h : Desktop s l g) (hu : Same s u) : ∃ t w, showScreen s u = (.ok ((), t), w) ∧
    w = [] ∧ Shown u t ∧ ∀ x y, OnScreen x y → ¬s.UnderMouse (y * 800 + x) →
      t.vesa_array (y * 800 + x) = u.vesa_buffer (y * 800 + x) := by
  obtain ⟨t, ht, hrest, harray⟩ := drawMouse_run { u with vesa_array := flush u }
  have hmouse : u.mouseX = s.mouseX ∧ u.mouseY = s.mouseY := by
    rw [hu.rest]
    exact ⟨rfl, rfl⟩
  have hsize : u.SCREEN_WIDTH = 800 ∧ u.SCREEN_HEIGHT = 600 := by
    rw [hu.rest]
    exact ⟨h.width, h.height⟩
  refine ⟨t, [], ?_, rfl, ⟨hrest⟩, fun x y hon hk => ?_⟩
  · rw [showScreen, Prog.run_bind_ok (Prog.run_modify _ u), ← hmouse.1, ← hmouse.2]
    exact congrArg (fun r : Except Fault (Unit × State) × List Event => (r.1, [] ++ r.2)) ht
  · refine harray _ _ (fun hc => hk ((hu.underMouse _).1 hc)) rfl ?_
    obtain ⟨hx, hx', hy, hy'⟩ := hon
    show flush u _ = _
    unfold flush
    rw [hsize.1, hsize.2, if_pos (by omega)]

theorem showArea_run (h : Desktop s l g) (hu : Same s u) (harea : area.InScreen) :
    ∃ t w, showArea s area u = (.ok ((), t), w) ∧ w = [.copy area] ∧ Shown u t ∧
    ∀ x y c, OnScreen x y → ¬s.UnderMouse (y * 800 + x) → u.vesa_buffer (y * 800 + x) = c →
      (inClientRect area x y = false → u.vesa_array (y * 800 + x) = c) → t.vesa_array (y * 800 + x) = c := by
  obtain ⟨t, ht, hrest, harray⟩ := drawMouse_run { u with
    vesa_array := copyPixels u.SCREEN_WIDTH (pixels area) u.vesa_buffer u.vesa_array }
  have hmouse : u.mouseX = s.mouseX ∧ u.mouseY = s.mouseY := by
    rw [hu.rest]
    exact ⟨rfl, rfl⟩
  have hwidth : u.SCREEN_WIDTH = 800 := by
    rw [hu.rest]
    exact h.width
  refine ⟨t, [.copy area], ?_, rfl, ⟨hrest⟩, fun x y c hon hk hbuffer hout => ?_⟩
  · rw [showArea, Prog.run_bind_ok (Prog.run_emit _ u), Prog.run_bind_ok (Prog.run_modify _ u), ← hmouse.1, ← hmouse.2]
    exact congrArg (fun r : Except Fault (Unit × State) × List Event => (r.1, [.copy area] ++ ([] ++ r.2))) ht
  · refine harray _ _ (fun hc => hk ((hu.underMouse _).1 hc)) hbuffer ?_
    show copyPixels u.SCREEN_WIDTH (pixels area) u.vesa_buffer u.vesa_array _ = c
    rw [hwidth]
    show writes (fun p => screenIndex 800 p.1 p.2) (fun p => u.vesa_buffer (screenIndex 800 p.1 p.2)) (pixels area)
      u.vesa_array _ = c
    by_cases hin : inClientRect area x y = true
    · refine writes_of_mem (inClientRect_iff.1 hin) hon.index fun q _ hq => ?_
      rw [hq]
      exact hbuffer
    · rw [writes_of_notMem fun q hq he => hin ?_]
      · exact hout (by simpa using hin)
      · have hq' := harea.onScreen hq
        rw [hq'.index] at he
        obtain ⟨hx, hx', hy, hy'⟩ := hon
        obtain ⟨gx, gx', gy, gy'⟩ := hq'
        have hqe : q = (x, y) := Prod.ext (by dsimp only; omega) (by dsimp only; omega)
        rw [inClientRect_iff, ← hqe]
        exact hq

/-! ## The redraws -/

theorem drawScreen_start (h : Desktop s l g) (zero : Option Window) : ∃ p l₂, l = p :: l₂ ∧
    (∀ site, deref zero site s.list_head s = (.ok (s.window_array p, s), [])) := by
  obtain ⟨p, hp, -⟩ := h.bottom
  cases l with
  | nil => cases hp
  | cons q l₂ =>
    cases hp
    refine ⟨p, l₂, rfl, fun site => ?_⟩
    rw [show s.list_head = some p from h.listed.holds.head]
    rfl

/-- **A full redraw** ends with the windows painted from the bottom to the top. -/
theorem redraw_run (h : Desktop s l g) (zero : Option Window) (context : WindowLink → Int → Color) :
    ∃ t w v, redraw zero s context l s = (.ok ((), t), w) ∧
      Delivers (l.map fun p => (s.window_array p).pid) MSG_UPDATE (fun _ => True) w ∧ Same s v ∧
      v.vesa_buffer = painted s context (fun p => (s.window_array p).window_position) l s.vesa_buffer ∧
      Queued v g none ∧ Shown v t ∧ ∀ x y, OnScreen x y → ¬s.UnderMouse (y * 800 + x) →
        t.vesa_array (y * 800 + x) = v.vesa_buffer (y * 800 + x) := by
  obtain ⟨p, l₂, rfl, hderef⟩ := drawScreen_start h zero
  obtain ⟨u, i, msg, hsend, hq, hu, hbuffer⟩ := createUpdateMsg_run h.queued (h.ready p List.mem_cons_self)
  obtain ⟨t, w, v, hrun, hw, hv, hvb, hqv, hR⟩ := @relay_run s (p :: l₂) g (answer s context)
    createUpdateMsg (showScreen s) MSG_UPDATE (fun _ => True) context (fun p => (s.window_array p).window_position)
    (fun v t => Shown v t ∧ ∀ x y, OnScreen x y → ¬s.UnderMouse (y * 800 + x) →
      t.vesa_array (y * 800 + x) = v.vesa_buffer (y * 800 + x))
    h.listed h.ready h.idle (fun p hp u hu => ⟨_, _, answer_run h hp hu⟩)
    (fun u pid hu hq hr => by
      obtain ⟨t, i, msg, ht⟩ := createUpdateMsg_run hq hr
      exact ⟨t, i, msg, ht.1, trivial, ht.2⟩)
    (fun u hu => by
      obtain ⟨t, w, ht, rfl, hR⟩ := showScreen_run h hu
      exact ⟨t, [], ht, delivers_nil, hR⟩)
    l₂ [] p u i msg rfl hu trivial hq
  have hstart : drawScreen zero s = (.ok ((), u), [.accept (s.window_array p).pid i MSG_UPDATE msg]) := by
    rw [drawScreen, Prog.run_bind_ok (Prog.run_get s), Prog.run_bind_ok (hderef _)]
    exact congrArg (fun r : Except Fault (Unit × State) × List Event => (r.1, [] ++ ([] ++ r.2))) hsend
  refine ⟨t, _, v, Prog.run_bind hstart hrun, (delivers_accept _ _ _ _).append hw, hv, ?_, hqv, hR⟩
  rw [hvb, hbuffer]

/-- **A partial redraw** ends with the windows painted from the bottom to the top, clipped to the area. -/
theorem redrawArea_run (h : Desktop s l g) (zero : Option Window) (context : WindowLink → Int → Color)
    (harea : area.InScreen) : ∃ t w v, redrawArea zero s context area l s = (.ok ((), t), w) ∧
      Delivers (l.map fun p => (s.window_array p).pid) MSG_PARTIAL_UPDATE
        (fun msg => msg = ⟨area.left_x, area.left_y, area.right_x, area.right_y⟩) w ∧ Same s v ∧
      v.vesa_buffer = painted s context (fun p => getIntersection area (s.window_array p).window_position) l s.vesa_buffer ∧
      Queued v g none ∧ Shown v t ∧ ∀ x y c, OnScreen x y → ¬s.UnderMouse (y * 800 + x) →
        v.vesa_buffer (y * 800 + x) = c → (inClientRect area x y = false → v.vesa_array (y * 800 + x) = c) →
        t.vesa_array (y * 800 + x) = c := by
  obtain ⟨p, l₂, rfl, hderef⟩ := drawScreen_start h zero
  obtain ⟨u, i, hsend, hq, hu, hbuffer⟩ := createPartialUpdateMsg_run h.queued (h.ready p List.mem_cons_self)
    area.left_x area.left_y area.right_x area.right_y
  obtain ⟨t, w, v, hrun, hw, hv, hvb, hqv, hR⟩ := @relay_run s (p :: l₂) g
    (answerArea s context area)
    (fun pid => createPartialUpdateMsg pid area.left_x area.left_y area.right_x area.right_y)
    (showArea s area) MSG_PARTIAL_UPDATE
    (fun msg => msg = ⟨area.left_x, area.left_y, area.right_x, area.right_y⟩) context
    (fun p => getIntersection area (s.window_array p).window_position)
    (fun v t => Shown v t ∧ ∀ x y c, OnScreen x y → ¬s.UnderMouse (y * 800 + x) →
      v.vesa_buffer (y * 800 + x) = c → (inClientRect area x y = false → v.vesa_array (y * 800 + x) = c) →
      t.vesa_array (y * 800 + x) = c)
    h.listed h.ready h.idle (fun p hp u hu => ⟨_, _, answerArea_run h hp hu⟩)
    (fun u pid hu hq hr => by
      obtain ⟨t, i, ht⟩ := createPartialUpdateMsg_run hq hr area.left_x area.left_y area.right_x area.right_y
      exact ⟨t, i, _, ht.1, rfl, ht.2⟩)
    (fun u hu => by
      obtain ⟨t, w, ht, rfl, hR⟩ := showArea_run h hu harea
      exact ⟨t, [.copy area], ht, ⟨rfl, by simp⟩, hR⟩)
    l₂ [] p u i _ rfl hu rfl hq
  have hstart : drawScreenArea zero area.left_x area.left_y area.right_x area.right_y s =
      (.ok ((), u), [.accept (s.window_array p).pid i MSG_PARTIAL_UPDATE
        ⟨area.left_x, area.left_y, area.right_x, area.right_y⟩]) := by
    rw [drawScreenArea, Prog.run_bind_ok (Prog.run_get s), Prog.run_bind_ok (hderef _)]
    exact congrArg (fun r : Except Fault (Unit × State) × List Event => (r.1, [] ++ ([] ++ r.2))) hsend
  refine ⟨t, _, v, Prog.run_bind hstart hrun, (delivers_accept _ _ _ _).append hw, hv, ?_, hqv, hR⟩
  rw [hvb, hbuffer]

/-! ## What the screen shows -/

/-- The window on top at a pixel. -/
theorem Desktop.top (h : Desktop s l g) (hon : OnScreen x y) :
    ∃ p ∈ l, (l.reverse.find? fun p => inClientRect (s.window_array p).window_position x y) = some p ∧
      inClientRect (s.window_array p).window_position x y = true := by
  cases hf : l.reverse.find? fun p => inClientRect (s.window_array p).window_position x y with
  | some p =>
    have hin := List.find?_some hf
    exact ⟨p, List.mem_reverse.1 (List.mem_of_find?_eq_some hf), rfl, hin⟩
  | none =>
    obtain ⟨p, hp, hpos⟩ := h.bottom
    obtain ⟨hx, hx', hy, hy'⟩ := hon
    refine absurd ?_ (List.find?_eq_none.1 hf p (List.mem_reverse.2 (List.mem_of_head? hp)))
    rw [hpos]
    simp [inClientRect, hx, hx', hy, hy']

/-- A full redraw leaves the windows composed. -/
theorem Desktop.painted (h : Desktop s l g) (hon : OnScreen x y) (b : Int → Color) :
    Gui.painted s context (fun p => (s.window_array p).window_position) l b (y * 800 + x) = composed s context l x y := by
  obtain ⟨p, -, hf, -⟩ := h.top hon
  rw [painted_apply (fun p hp => h.inScreen p hp) hon]
  unfold composed
  rw [hf]

theorem inClientRect_intersection (a b : Rect) (x y : Int) :
    inClientRect (getIntersection a b) x y = (inClientRect a x y && inClientRect b x y) := by
  unfold inClientRect getIntersection
  rw [Bool.eq_iff_iff]
  simp only [decide_eq_true_eq, Bool.and_eq_true]
  omega

/-- A partial redraw leaves the windows composed in the area, and what was there outside. -/
theorem Desktop.painted_area (h : Desktop s l g) (harea : area.InScreen) (hon : OnScreen x y) (b : Int → Color) :
    Gui.painted s context (fun p => getIntersection area (s.window_array p).window_position) l b (y * 800 + x) =
      if inClientRect area x y = true then composed s context l x y else b (y * 800 + x) := by
  have hclip : ∀ p ∈ l, (getIntersection area (s.window_array p).window_position).InScreen := fun p hp => by
    obtain ⟨h₁, h₂, h₃, h₄⟩ := h.inScreen p hp
    obtain ⟨g₁, g₂, g₃, g₄⟩ := harea
    exact ⟨by simp only [getIntersection]; omega, by simp only [getIntersection]; omega,
      by simp only [getIntersection]; omega, by simp only [getIntersection]; omega⟩
  rw [painted_apply hclip hon]
  simp only [inClientRect_intersection]
  by_cases hin : inClientRect area x y = true
  · obtain ⟨p, -, hf, -⟩ := h.top hon
    simp only [hin, Bool.true_and, if_true]
    unfold composed
    rw [hf]
  · have hnone : l.reverse.find? (fun p => inClientRect area x y && inClientRect (s.window_array p).window_position x y) =
        none := List.find?_eq_none.2 fun p _ => by simp [hin]
    rw [hnone, if_neg hin]

/-- **The screen shows what a click hits**: after a full redraw each pixel outside the picture of the mouse is the pixel
of the window that `getWindowByPoint` finds. -/
theorem screen_shows (zero : Option Window) (s : State) (l : List WindowLink) (g : List Pending) (h : Desktop s l g)
    (context : WindowLink → Int → Color) : ∃ t w, redraw zero s context l s = (.ok ((), t), w) ∧
      Delivers (l.map fun p => (s.window_array p).pid) MSG_UPDATE (fun _ => True) w ∧ Queued t g none ∧
      ∀ x y, 0 ≤ x → x < 800 → 0 ≤ y → y < 600 → ¬t.UnderMouse (y * 800 + x) →
        ∃ p, getWindowByPoint x y t = (.ok (some p, t), []) ∧
          t.vesa_array (y * 800 + x) = context p ((y - (t.window_array p).window_position.left_y) *
            ((t.window_array p).window_position.right_x - (t.window_array p).window_position.left_x) +
            (x - (t.window_array p).window_position.left_x)) := by
  obtain ⟨t, w, v, hrun, hw, hv, hbuffer, hq, hshown, harray⟩ := redraw_run h zero context
  have hwin : t.window_array = s.window_array := by
    rw [hshown.rest]
    exact hv.window_array
  have hlisted : Listed t l := by
    rw [hshown.rest]
    exact ⟨(hv.listed h.listed).holds, (hv.listed h.listed).mem⟩
  have hmouse : ∀ k, t.UnderMouse k ↔ s.UnderMouse k := fun k => by
    rw [← hv.underMouse, hshown.rest]
    rfl
  refine ⟨t, w, hrun, hw, ?_, fun x y hx hx' hy hy' hk => ?_⟩
  · rw [hshown.rest]
    exact hq.congr rfl rfl
  · have hon : OnScreen x y := ⟨hx, hx', hy, hy'⟩
    obtain ⟨p, hp, hf, hin⟩ := h.top hon
    refine ⟨p, ?_, ?_⟩
    · rw [getWindowByPoint_run hlisted, hwin, hf]
    · rw [harray x y hon (fun hc => hk ((hmouse _).2 hc)), hbuffer, h.painted hon, hwin,
        ← contextIndex_onScreen (h.inScreen p hp) hin]
      unfold composed
      rw [hf]

/-- **A partial redraw shows the same as a full one**, where the buffer and the screen were right outside the area. -/
theorem area_shows (zero : Option Window) (s : State) (l : List WindowLink) (g : List Pending) (h : Desktop s l g)
    (context : WindowLink → Int → Color) (area : Rect) (harea : area.InScreen)
    (hout : ∀ x y, OnScreen x y → inClientRect area x y = false →
      s.vesa_buffer (y * 800 + x) = composed s context l x y ∧
      (¬s.UnderMouse (y * 800 + x) → s.vesa_array (y * 800 + x) = composed s context l x y)) :
    ∃ t w t' w', redrawArea zero s context area l s = (.ok ((), t), w) ∧
      redraw zero s context l s = (.ok ((), t'), w') ∧
      Delivers (l.map fun p => (s.window_array p).pid) MSG_PARTIAL_UPDATE
        (fun msg => msg = ⟨area.left_x, area.left_y, area.right_x, area.right_y⟩) w ∧ Queued t g none ∧
      ∀ x y, OnScreen x y → t.vesa_buffer (y * 800 + x) = t'.vesa_buffer (y * 800 + x) ∧
        (¬t.UnderMouse (y * 800 + x) → t.vesa_array (y * 800 + x) = t'.vesa_array (y * 800 + x)) := by
  obtain ⟨t, w, v, hrun, hw, hv, hbuffer, hq, hshown, harray⟩ := redrawArea_run h zero context harea
  obtain ⟨t', w', v', hrun', -, hv', hbuffer', -, hshown', harray'⟩ := redraw_run h zero context
  have hmouse : ∀ k, t.UnderMouse k ↔ s.UnderMouse k := fun k => by
    rw [← hv.underMouse, hshown.rest]
    rfl
  have hfull : ∀ {x y}, OnScreen x y → v'.vesa_buffer (y * 800 + x) = composed s context l x y := fun hon => by
    rw [hbuffer', h.painted hon]
  have hpart : ∀ {x y}, OnScreen x y → v.vesa_buffer (y * 800 + x) = composed s context l x y := fun {x y} hon => by
    rw [hbuffer, h.painted_area harea hon]
    by_cases hin : inClientRect area x y = true
    · rw [if_pos hin]
    · rw [if_neg hin]
      exact (hout x y hon (by simpa using hin)).1
  refine ⟨t, w, t', w', hrun, hrun', hw, ?_, fun x y hon => ⟨?_, fun hk => ?_⟩⟩
  · rw [hshown.rest]
    exact hq.congr rfl rfl
  · rw [hshown.rest, hshown'.rest]
    exact (hpart hon).trans (hfull hon).symm
  · have hk' : ¬s.UnderMouse (y * 800 + x) := fun hc => hk ((hmouse _).2 hc)
    rw [harray' x y hon hk', hfull hon]
    refine harray x y _ hon hk' (hpart hon) fun hin => ?_
    rw [show v.vesa_array = s.vesa_array by rw [hv.rest]]
    exact (hout x y hon hin).2 hk'

/-- A full redraw leaves an idle desktop, and the windows composed. -/
theorem redraw_shows (h : Desktop s l g) (zero : Option Window) (context : WindowLink → Int → Color) :
    ∃ t w, redraw zero s context l s = (.ok ((), t), w) ∧ Desktop t l g ∧ t.window_array = s.window_array ∧
      ∀ x y, OnScreen x y → t.vesa_buffer (y * 800 + x) = composed s context l x y ∧
        (¬t.UnderMouse (y * 800 + x) → t.vesa_array (y * 800 + x) = composed s context l x y) := by
  obtain ⟨t, w, v, hrun, -, hv, hbuffer, hq, hshown, harray⟩ := redraw_run h zero context
  have hfull : ∀ {x y}, OnScreen x y → v.vesa_buffer (y * 800 + x) = composed s context l x y := fun hon => by
    rw [hbuffer, h.painted hon]
  have hrest := hshown.rest
  rw [hv.rest] at hrest
  have hwin : t.window_array = s.window_array := by rw [hrest]
  refine ⟨t, w, hrun, ?_, hwin, fun x y hon => ⟨?_, fun hk => ?_⟩⟩
  · obtain ⟨hwidth, hheight, hlisted, hids, hin, hordered, hbottom, -, hready, hidle⟩ := h
    rw [← hwin] at hids hin hordered hbottom hready hidle
    refine ⟨?_, ?_, ?_, hids, hin, hordered, hbottom, ?_, hready, hidle⟩
    · rw [hrest]
      exact hwidth
    · rw [hrest]
      exact hheight
    · rw [hrest]
      exact ⟨hlisted.holds, hlisted.mem⟩
    · rw [hshown.rest]
      exact hq.congr rfl rfl
  · rw [hshown.rest]
    exact hfull hon
  · rw [harray x y hon fun hc => hk ?_, hfull hon]
    rw [hrest]
    exact hc

/-- Two windows on an idle desktop. -/
theorem desktop_two : ∃ s w, inputs none [.createWindow 3 (some ⟨0, 0, 800, 600⟩), .createWindow 4 (some ⟨10, 10, 20, 30⟩),
      .getMsg 3, .getMsg 4] (init 800 600 fun _ => 0) = (.ok ((), s), w) ∧ Desktop s [0, 1] [] ∧
      (s.window_array 0).window_position = ⟨0, 0, 800, 600⟩ ∧ (s.window_array 1).window_position = ⟨10, 10, 20, 30⟩ := by
  have hrun : (inputs none [.createWindow 3 (some ⟨0, 0, 800, 600⟩), .createWindow 4 (some ⟨10, 10, 20, 30⟩),
      .getMsg 3, .getMsg 4]).check (init 800 600 fun _ => 0)
      (fun _ s => s.SCREEN_WIDTH = 800 ∧ s.SCREEN_HEIGHT = 600 ∧ s.list_head = some 0 ∧ s.list_tail = some 1 ∧
        (s.window_array 0).next_window = some 1 ∧ (s.window_array 1).next_window = none ∧
        (s.window_array 1).prior_window = some 0 ∧ (s.window_array 0).prior_window = none ∧
        (s.window_array 0).pid = 3 ∧ (s.window_array 1).pid = 4 ∧
        (s.window_array 0).window_position = ⟨0, 0, 800, 600⟩ ∧ (s.window_array 1).window_position = ⟨10, 10, 20, 30⟩ ∧
        (s.window_array 0).window_id = 1 ∧ (s.window_array 1).window_id = 2 ∧
        (∀ p : WindowLink, p ∈ ([0, 1] : List WindowLink) ↔ 0 < (s.window_array p).window_id) ∧
        (∀ k, (s.MsgQueue k).msg_type = MSG_UNUSED) ∧ ∀ i, (s.MsgTable i).pid = -1) = true := by decide +kernel
  obtain ⟨_, s, w, hs, hp⟩ := Prog.run_of_check hrun
  simp only [decide_eq_true_eq] at hp
  obtain ⟨hw, hh, hhead, htail, hn0, hn1, hp1, hp0, hpid0, hpid1, hr0, hr1, hid0, hid1, hmem, hqueue, htable⟩ := hp
  refine ⟨s, w, hs, ⟨hw, hh, ⟨⟨by decide, hhead, htail, ⟨hn0, hn1, trivial⟩, ⟨hp1, hp0, trivial⟩⟩, hmem⟩, ?_, ?_, ?_,
    ⟨0, rfl, hr0⟩, NoMessages.queued ⟨hqueue, htable⟩, ?_, nofun⟩, hr0, hr1⟩
  · simp [hid0, hid1]
  · simp only [List.mem_cons, List.not_mem_nil, or_false, forall_eq_or_imp, forall_eq, hr0, hr1]
    exact ⟨⟨by decide, by decide, by decide, by decide⟩, ⟨by decide, by decide, by decide, by decide⟩⟩
  · simp [hr0, hr1]
  · simp only [List.mem_cons, List.not_mem_nil, or_false, forall_eq_or_imp, forall_eq, hpid0, hpid1]
    exact ⟨⟨by decide, by decide, by decide⟩, ⟨by decide, by decide, by decide⟩⟩

theorem screen_shows_two : ∃ s t w, Desktop s [0, 1] [] ∧
    redraw none s (fun p _ => if p = 0 then 1 else 2) [0, 1] s = (.ok ((), t), w) ∧
    (¬t.UnderMouse (15 * 800 + 15) → ∃ p, getWindowByPoint 15 15 t = (.ok (some p, t), []) ∧
      t.vesa_array (15 * 800 + 15) = if p = 0 then 1 else 2) := by
  obtain ⟨s, w, -, hs, -⟩ := desktop_two
  obtain ⟨t, w, hrun, -, -, ht⟩ := screen_shows none s _ _ hs fun p _ => if p = 0 then 1 else 2
  exact ⟨s, t, w, hs, hrun, ht 15 15 (by decide) (by decide) (by decide) (by decide)⟩

/-- The upper window's context has changed since a full redraw, and an area around the window is redrawn. -/
theorem area_shows_two : ∃ s t u t' v w w', Desktop s [0, 1] [] ∧
    redraw none s (fun p _ => if p = 0 then 1 else 3) [0, 1] s = (.ok ((), t), v) ∧
    redrawArea none t (fun p _ => if p = 0 then 1 else 2) ⟨5, 5, 25, 35⟩ [0, 1] t = (.ok ((), u), w) ∧
    redraw none t (fun p _ => if p = 0 then 1 else 2) [0, 1] t = (.ok ((), t'), w') ∧
    t.vesa_buffer (15 * 800 + 15) = 3 ∧ u.vesa_buffer (15 * 800 + 15) = 2 ∧
    ∀ x y, OnScreen x y → u.vesa_buffer (y * 800 + x) = t'.vesa_buffer (y * 800 + x) ∧
      (¬u.UnderMouse (y * 800 + x) → u.vesa_array (y * 800 + x) = t'.vesa_array (y * 800 + x)) := by
  obtain ⟨s, v, -, hs, hr0, hr1⟩ := desktop_two
  obtain ⟨t, v, hold, ht, hwin, hshown⟩ := redraw_shows hs none fun p _ => if p = 0 then 1 else 3
  obtain ⟨t', w', hfull, -, -, hshown'⟩ := redraw_shows ht none fun p _ => if p = 0 then 1 else 2
  have hon : OnScreen 15 15 := ⟨by decide, by decide, by decide, by decide⟩
  -- outside the area only the lower window is seen, and its context is as it was
  have hout : ∀ x y, OnScreen x y → inClientRect ⟨5, 5, 25, 35⟩ x y = false →
      composed s (fun p _ => if p = 0 then 1 else 3) [0, 1] x y = composed t (fun p _ => if p = 0 then 1 else 2) [0, 1] x y := by
    intro x y hon hno
    have h1 : inClientRect ⟨10, 10, 20, 30⟩ x y = false := by
      unfold inClientRect at hno ⊢
      simp only [decide_eq_false_iff_not] at hno ⊢
      omega
    unfold composed
    simp only [hwin, List.reverse_cons, List.reverse_nil, List.nil_append, List.singleton_append, List.find?_cons, hr1, h1]
    cases inClientRect (s.window_array 0).window_position x y <;> rfl
  obtain ⟨u, w, t'', w'', harea, hfull', -, -, hagree⟩ := area_shows none t _ _ ht (fun p _ => if p = 0 then 1 else 2)
    ⟨5, 5, 25, 35⟩ ⟨by decide, by decide, by decide, by decide⟩ fun x y hon hno => by
      rw [← hout x y hon hno]
      exact hshown x y hon
  rw [hfull] at hfull'
  cases hfull'
  refine ⟨s, t, u, t', v, w, w', hs, hold, harea, hfull, ?_, ?_, hagree⟩
  · rw [(hshown 15 15 hon).1]
    simp [composed, hr1, inClientRect]
  · rw [(hagree 15 15 hon).1, (hshown' 15 15 hon).1]
    simp [composed, hwin, hr1, inClientRect]

end NewXv6.Gui
