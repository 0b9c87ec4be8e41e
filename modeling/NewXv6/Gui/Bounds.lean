import NewXv6.Gui.Order
import Mathlib.Tactic.Linarith
import Mathlib.Tactic.Ring

/-!
# The pixels a window system call writes

`drawWindow` and `drawArea` clip nothing against the screen: the indices they use are in bounds exactly when the first
and the last pixel of what they draw are (`draws_inside`).
-/

namespace NewXv6.Gui

open Lib

variable {zero : Option Window} {s t : State} {r clip area : Rect}

/-! ## Indices -/

theorem mem_ints {a b x : Int} : x ∈ ints a b ↔ a ≤ x ∧ x < b := by
  simp only [ints, List.mem_map, List.mem_range]
  constructor
  · rintro ⟨k, hk, rfl⟩
    omega
  · intro h
    exact ⟨(x - a).toNat, by omega, by omega⟩

theorem mem_pixels {r : Rect} {q : Int × Int} :
    q ∈ pixels r ↔ (r.left_x ≤ q.1 ∧ q.1 < r.right_x) ∧ r.left_y ≤ q.2 ∧ q.2 < r.right_y := by
  simp only [pixels, List.mem_flatMap, List.mem_map, mem_ints]
  constructor
  · rintro ⟨j, hj, i, hi, rfl⟩
    exact ⟨hi, hj⟩
  · rintro ⟨hi, hj⟩
    exact ⟨q.2, hj, q.1, hi, rfl⟩

theorem int_add_int (x y : Int) : int (int x + y) = int (x + y) := by
  unfold int
  simp

theorem int_sub_int (x y : Int) : int (int x - y) = int (x - y) := by
  unfold int
  simp

theorem screenIndex_eq (width i j : Int) : screenIndex width i j = int (j * width + i) := int_add_int _ _

theorem contextIndex_eq (r : Rect) (i j : Int) :
    contextIndex r i j = int (int (j - r.left_y) * int (r.right_x - r.left_x) + i - r.left_x) := by
  unfold contextIndex
  rw [int_add_int, int_sub_int]

/-- Indices that go up in steps of `k` and stay below `m` do not wrap. -/
theorem int_steps {c k m : Int} (hk : 0 ≤ k) (hm : m + k ≤ 2 ^ 31) {n : Nat}
    (h : ∀ i : Nat, i ≤ n → 0 ≤ int (c + k * i) ∧ int (c + k * i) < m) : int (c + k * n) = int c + k * n := by
  induction n with
  | zero => simp
  | succ n ih =>
    have hn := ih fun i hi => h i (Nat.le_succ_of_le hi)
    have hb := h n (Nat.le_succ n)
    have hstep : c + k * ((n + 1 : Nat) : Int) = c + k * (n : Int) + k := by
      push_cast
      ring
    rw [hstep, ← int_add_int, int_of_range (by omega) (by omega), hn]
    push_cast
    ring

/-- Indices in steps of `k` are below `m` exactly when the first and the last one are. -/
theorem int_steps_iff {c k m : Int} (hk : 0 ≤ k) (hm : m + k ≤ 2 ^ 31) {n : Nat} :
    (∀ i : Nat, i ≤ n → 0 ≤ int (c + k * i) ∧ int (c + k * i) < m) ↔ 0 ≤ int c ∧ int c + k * n < m := by
  constructor
  · intro h
    have h0 := h 0 (Nat.zero_le n)
    have hn := h n (Nat.le_refl n)
    rw [int_steps hk hm h] at hn
    simp only [Nat.cast_zero, mul_zero, add_zero] at h0
    exact ⟨h0.1, hn.2⟩
  · rintro ⟨h0, hn⟩ i hi
    have hle : k * (i : Int) ≤ k * (n : Int) := Int.mul_le_mul_of_nonneg_left (by omega) hk
    have hpos : 0 ≤ k * (i : Int) := Int.mul_nonneg hk (by omega)
    rw [← int_add_int, int_of_range (by omega) (by omega)]
    omega

/-! ## Rectangles -/

/-- The pixels of a rectangle have their place in the buffers: there are none, or the first and the last one have. -/
def State.OnScreen (s : State) (r : Rect) : Prop :=
  r.left_x < r.right_x → r.left_y < r.right_y →
    0 ≤ screenIndex s.SCREEN_WIDTH r.left_x r.left_y ∧
    screenIndex s.SCREEN_WIDTH r.left_x r.left_y + (r.right_y - 1 - r.left_y) * s.SCREEN_WIDTH +
      (r.right_x - 1 - r.left_x) < s.SCREEN_WIDTH * s.SCREEN_HEIGHT

/-- The pixels of `clip` have their place in the context of the window `r`: in each row, the first and the last one
have. -/
def InContext (r clip : Rect) : Prop :=
  clip.left_x < clip.right_x → ∀ j, clip.left_y ≤ j → j < clip.right_y →
    0 ≤ contextIndex r clip.left_x j ∧ contextIndex r clip.left_x j + (clip.right_x - 1 - clip.left_x) < r.count

/-- What is drawn is drawn inside the buffers and taken from inside the context. -/
def Event.inBounds (s : State) : Event → Prop
  | .draw r clip => ∀ q ∈ pixels clip,
    (0 ≤ screenIndex s.SCREEN_WIDTH q.1 q.2 ∧ screenIndex s.SCREEN_WIDTH q.1 q.2 < s.SCREEN_WIDTH * s.SCREEN_HEIGHT) ∧
      0 ≤ contextIndex r q.1 q.2 ∧ contextIndex r q.1 q.2 < r.count
  | .copy area => ∀ q ∈ pixels area,
    0 ≤ screenIndex s.SCREEN_WIDTH q.1 q.2 ∧ screenIndex s.SCREEN_WIDTH q.1 q.2 < s.SCREEN_WIDTH * s.SCREEN_HEIGHT
  | _ => True

theorem onScreen_iff (hw : s.SCREEN_WIDTH = 800) (hh : s.SCREEN_HEIGHT = 600) : (∀ q ∈ pixels r,
    0 ≤ screenIndex s.SCREEN_WIDTH q.1 q.2 ∧ screenIndex s.SCREEN_WIDTH q.1 q.2 < s.SCREEN_WIDTH * s.SCREEN_HEIGHT) ↔
    s.OnScreen r := by
  unfold State.OnScreen
  simp only [hw, hh, screenIndex_eq]
  have hcol : ∀ n : Nat, (r.left_y + n) * 800 + r.left_x = r.left_y * 800 + r.left_x + 800 * n := fun n => by ring
  constructor
  · intro h hx hy
    obtain ⟨m, hm⟩ : ∃ m : Nat, r.right_y - 1 - r.left_y = m := ⟨(r.right_y - 1 - r.left_y).toNat, by omega⟩
    obtain ⟨n, hn⟩ : ∃ n : Nat, r.right_x - 1 - r.left_x = n := ⟨(r.right_x - 1 - r.left_x).toNat, by omega⟩
    have hrows : ∀ i : Nat, i ≤ m → 0 ≤ int (r.left_y * 800 + r.left_x + 800 * i) ∧
        int (r.left_y * 800 + r.left_x + 800 * i) < 480000 := fun i hi => by
      have hq := h (r.left_x, r.left_y + i) (mem_pixels.2 ⟨⟨Int.le_refl _, hx⟩, by dsimp only; omega, by dsimp only; omega⟩)
      rw [← hcol]
      exact hq
    have hlast : ∀ i : Nat, i ≤ n → 0 ≤ int ((r.left_y + m) * 800 + r.left_x + 1 * i) ∧
        int ((r.left_y + m) * 800 + r.left_x + 1 * i) < 480000 := fun i hi => by
      have hq := h (r.left_x + i, r.left_y + m)
        (mem_pixels.2 ⟨⟨by dsimp only; omega, by dsimp only; omega⟩, by dsimp only; omega, by dsimp only; omega⟩)
      rw [one_mul, Int.add_assoc]
      exact hq
    have h0 := (int_steps_iff (by decide) (by decide)).1 hrows
    have h1 := (int_steps_iff (by decide) (by decide)).1 hlast
    rw [hcol, int_steps (by decide) (by decide) hrows] at h1
    rw [hm, hn]
    exact ⟨h0.1, by linarith [h1.2]⟩
  · intro h q hq
    obtain ⟨⟨hx, hx'⟩, hy, hy'⟩ := mem_pixels.1 hq
    obtain ⟨h0, hlast⟩ := h (by omega) (by omega)
    have hindex : int (q.2 * 800 + q.1) =
        int (r.left_y * 800 + r.left_x) + ((q.2 - r.left_y) * 800 + (q.1 - r.left_x)) := by
      rw [show q.2 * 800 + q.1 = r.left_y * 800 + r.left_x + ((q.2 - r.left_y) * 800 + (q.1 - r.left_x)) by ring,
        ← int_add_int, int_of_range (by omega) (by omega)]
    rw [hindex]
    omega

theorem count_lt (r : Rect) : r.count < 2 ^ 31 := by
  have := Int.bmod_lt (x := int (r.right_x - r.left_x) * int (r.right_y - r.left_y)) (m := 2 ^ 32) (by decide)
  unfold Rect.count int at *
  omega

theorem inContext_iff : (∀ q ∈ pixels clip, 0 ≤ contextIndex r q.1 q.2 ∧ contextIndex r q.1 q.2 < r.count) ↔
    InContext r clip := by
  have hcount := count_lt r
  have hrow : ∀ (j : Int) (n : Nat), int (j - r.left_y) * int (r.right_x - r.left_x) + (clip.left_x + n) - r.left_x =
      int (j - r.left_y) * int (r.right_x - r.left_x) + clip.left_x - r.left_x + 1 * n := fun j n => by ring
  unfold InContext
  simp only [contextIndex_eq]
  constructor
  · intro h hx j hj hj'
    obtain ⟨n, hn⟩ : ∃ n : Nat, clip.right_x - 1 - clip.left_x = n := ⟨(clip.right_x - 1 - clip.left_x).toNat, by omega⟩
    have hsteps := (int_steps_iff (c := int (j - r.left_y) * int (r.right_x - r.left_x) + clip.left_x - r.left_x)
      (k := 1) (m := r.count) (n := n) (by decide) (by omega)).1 fun i hi => by
        rw [← hrow]
        exact h (clip.left_x + i, j) (mem_pixels.2 ⟨⟨by dsimp only; omega, by dsimp only; omega⟩, hj, hj'⟩)
    rw [hn]
    rwa [one_mul] at hsteps
  · intro h q hq
    obtain ⟨⟨hx, hx'⟩, hy, hy'⟩ := mem_pixels.1 hq
    obtain ⟨n, hn⟩ : ∃ n : Nat, q.1 - clip.left_x = n := ⟨(q.1 - clip.left_x).toNat, by omega⟩
    obtain ⟨h0, h1⟩ := h (by omega) q.2 hy hy'
    have hq1 : q.1 = clip.left_x + n := by omega
    rw [hq1, hrow, one_mul, ← int_add_int, int_of_range (by omega) (by omega)]
    omega

/-- A window that is drawn inside the buffers is taken from inside its context. -/
theorem State.OnScreen.inContext (hw : s.SCREEN_WIDTH = 800) (hh : s.SCREEN_HEIGHT = 600) (h : s.OnScreen r) :
    InContext r r := by
  refine inContext_iff.1 fun q hq => ?_
  obtain ⟨⟨hx, hx'⟩, hy, hy'⟩ := mem_pixels.1 hq
  obtain ⟨h0, hlast⟩ := h (by omega) (by omega)
  rw [hw, hh] at hlast
  rw [hw] at h0
  have hwidth : r.right_x - r.left_x ≤ 480000 := by omega
  have hheight : r.right_y - r.left_y ≤ 600 := by omega
  have hmul : (q.2 - r.left_y) * (r.right_x - r.left_x) + (r.right_x - r.left_x) ≤
      (r.right_x - r.left_x) * (r.right_y - r.left_y) := by nlinarith
  have hmul' : (r.right_x - r.left_x) * (r.right_y - r.left_y) ≤ 480000 * 600 := by nlinarith
  have hpos : 0 ≤ (q.2 - r.left_y) * (r.right_x - r.left_x) := Int.mul_nonneg (by omega) (by omega)
  have hcount : r.count = (r.right_x - r.left_x) * (r.right_y - r.left_y) := by
    unfold Rect.count
    rw [int_of_range (x := r.right_x - r.left_x) (by omega) (by omega),
      int_of_range (x := r.right_y - r.left_y) (by omega) (by omega), int_of_range (by omega) (by omega)]
  rw [hcount, contextIndex_eq, int_of_range (x := q.2 - r.left_y) (by omega) (by omega),
    int_of_range (x := r.right_x - r.left_x) (by omega) (by omega), int_of_range (by omega) (by omega)]
  omega

/-! ## Calls -/

/-- A value that is returned at the end leaves no event. -/
theorem bind_pure_events {α β : Type} (m : Act α) (b : β) (s : State) : ((m >>= fun _ => pure b) s).2 = (m s).2 := by
  show (Prog.bind m (fun _ => pure b) s).2 = _
  unfold Prog.bind
  rcases m s with ⟨e | ⟨a, t⟩, w⟩
  · rfl
  · exact List.append_nil w

/-- Nothing is drawn. -/
def noDraw (s : State) : Contract Fault Event := ⟨fun _ => True, fun e => e.inBounds s, fun _ => True⟩

theorem noDraw_sends (s : State) (pid : Int) : Sends (noDraw s) pid := ⟨fun _ _ _ => trivial, trivial⟩

theorem noDraw_events {m : Act Unit} (h : Wp (noDraw s) m (fun _ _ => True) t) : ∀ e ∈ (m t).2, e.inBounds s :=
  h.1.ensure fun _ _ => trivial

/-- What a program that first leaves an event draws. -/
theorem inBounds_cons {m : Act Unit} {e : Event} (h : Wp (noDraw s) m (fun _ _ => True) t) :
    (∀ e' ∈ e :: (m t).2, e'.inBounds s) ↔ e.inBounds s := by
  rw [List.forall_mem_cons]
  exact ⟨fun he => he.1, fun he => ⟨he, noDraw_events h⟩⟩

theorem drawWindow_inBounds (hw : s.SCREEN_WIDTH = 800) (hh : s.SCREEN_HEIGHT = 600) (p : WindowLink)
    (context : Int → Color) :
    (∀ e ∈ (drawWindow p context s).2, e.inBounds s) ↔ s.OnScreen (s.window_array p).window_position := by
  have hfirst : Event.draw (s.window_array p).window_position (s.window_array p).window_position ∈
      (drawWindow p context s).2 := List.mem_cons_self ..
  constructor
  · exact fun h => (onScreen_iff hw hh).1 fun q hq => (h _ hfirst q hq).1
  · intro h
    refine noDraw_events ?_
    unfold drawWindow
    simp only [wp_bind, wp_get, wp_emit, wp_modify]
    refine fun _ => ⟨fun q hq => ⟨(onScreen_iff hw hh).2 h q hq, inContext_iff.2 (h.inContext hw hh) q hq⟩, ?_⟩
    cases (s.window_array p).next_window with
    | some next => exact wp_createUpdateMsg trivial (noDraw_sends s _) fun _ _ => trivial
    | none =>
      simp only [wp_bind, wp_modify]
      exact wp_drawMouse fun _ _ => trivial

theorem drawArea_inBounds (hw : s.SCREEN_WIDTH = 800) (hh : s.SCREEN_HEIGHT = 600) (p : WindowLink)
    (context : Int → Color) (area : Rect) :
    (∀ e ∈ (drawArea p context area s).2, e.inBounds s) ↔
      s.OnScreen (getIntersection area (s.window_array p).window_position) ∧
      InContext (s.window_array p).window_position (getIntersection area (s.window_array p).window_position) ∧
      ((s.window_array p).next_window = none → s.OnScreen area) := by
  have hdraw : Event.inBounds s (.draw (s.window_array p).window_position
      (getIntersection area (s.window_array p).window_position)) ↔
      s.OnScreen (getIntersection area (s.window_array p).window_position) ∧
      InContext (s.window_array p).window_position (getIntersection area (s.window_array p).window_position) := by
    rw [← onScreen_iff hw hh, ← inContext_iff]
    exact ⟨fun h => ⟨fun q hq => (h q hq).1, fun q hq => (h q hq).2⟩, fun h q hq => ⟨h.1 q hq, h.2 q hq⟩⟩
  cases hnext : (s.window_array p).next_window with
  | some next =>
    have hrun : (drawArea p context area s).2 =
        .draw (s.window_array p).window_position (getIntersection area (s.window_array p).window_position) ::
        (createPartialUpdateMsg (s.window_array next).pid area.left_x area.left_y area.right_x area.right_y
          { s with
            vesa_buffer := paint s.SCREEN_WIDTH (s.window_array p).window_position context
              (pixels (getIntersection area (s.window_array p).window_position)) s.vesa_buffer }).2 := by
      unfold drawArea
      rw [Prog.run_bind_ok (Prog.run_get s), Prog.run_bind_ok (Prog.run_emit _ s), Prog.run_bind_ok (Prog.run_modify _ s),
        hnext]
      rfl
    rw [hrun, inBounds_cons (wp_createPartialUpdateMsg trivial (noDraw_sends s _) fun _ _ => trivial), hdraw]
    simp
  | none =>
    have hrun : (drawArea p context area s).2 =
        .draw (s.window_array p).window_position (getIntersection area (s.window_array p).window_position) ::
        .copy area :: ((do
          Prog.modify fun s => { s with
            vesa_array := copyPixels s.SCREEN_WIDTH (pixels area) s.vesa_buffer s.vesa_array }
          drawMouse s.mouseX s.mouseY : Act Unit)
          { s with
            vesa_buffer := paint s.SCREEN_WIDTH (s.window_array p).window_position context
              (pixels (getIntersection area (s.window_array p).window_position)) s.vesa_buffer }).2 := by
      unfold drawArea
      rw [Prog.run_bind_ok (Prog.run_get s), Prog.run_bind_ok (Prog.run_emit _ s), Prog.run_bind_ok (Prog.run_modify _ s),
        hnext]
      rfl
    have hmouse : Wp (noDraw s) (do
        Prog.modify fun s => { s with
          vesa_array := copyPixels s.SCREEN_WIDTH (pixels area) s.vesa_buffer s.vesa_array }
        drawMouse s.mouseX s.mouseY : Act Unit) (fun _ _ => True)
        { s with
          vesa_buffer := paint s.SCREEN_WIDTH (s.window_array p).window_position context
            (pixels (getIntersection area (s.window_array p).window_position)) s.vesa_buffer } := by
      simp only [wp_bind, wp_modify]
      exact wp_drawMouse fun _ _ => trivial
    rw [hrun, List.forall_mem_cons, inBounds_cons hmouse, hdraw, and_assoc]
    simp only [forall_const]
    exact and_congr_right fun _ => and_congr_right fun _ => onScreen_iff hw hh

theorem getWindowById_cases (s : State) (window_id : Int) :
    (∃ o, getWindowById window_id s = (.ok (o, s), [])) ∨ getWindowById window_id s = (.error .hang, []) := by
  unfold getWindowById
  rw [Prog.run_bind_ok (Prog.run_get s)]
  cases seek (fun p => (s.window_array p).next_window) (fun p => (s.window_array p).window_id = window_id) MAXWINDOW
    s.list_head with
  | some o => exact Or.inl ⟨o, rfl⟩
  | none => exact Or.inr rfl

section

variable {id : Int} {argptr : Int → Option (Int → Color)} {p : WindowLink} {context : Int → Color}

/-- A system call that passes its checks draws. -/
theorem sys_updateWindow_events (ho : getWindowById id s = (.ok (some p, s), []))
    (hsize : ¬(s.window_array p).window_position.count < 0)
    (harg : argptr (int (2 * (s.window_array p).window_position.count)) = some context) :
    (sys_updateWindow (some id) argptr s).2 = (drawWindow p context s).2 := by
  rw [sys_updateWindow, Prog.run_bind_ok ho]
  dsimp only
  rw [Prog.run_bind_ok (Prog.run_get s), if_neg hsize, harg]
  exact bind_pure_events _ _ s

theorem sys_updatePartialWindow_events (ho : getWindowById id s = (.ok (some p, s), []))
    (hsize : ¬(s.window_array p).window_position.count < 0)
    (harg : argptr (int (2 * (s.window_array p).window_position.count)) = some context) :
    (sys_updatePartialWindow (some id) argptr (some area) s).2 = (drawArea p context area s).2 := by
  rw [sys_updatePartialWindow, Prog.run_bind_ok ho]
  dsimp only
  rw [Prog.run_bind_ok (Prog.run_get s), if_neg hsize, harg]
  exact bind_pure_events _ _ s

end

/-- The window a system call draws, if it passes the checks before. -/
def State.Draws (s : State) (window_id : Option Int) (argptr : Int → Option (Int → Color)) (p : WindowLink) : Prop :=
  (∃ id, window_id = some id ∧ getWindowById id s = (.ok (some p, s), [])) ∧
    0 ≤ (s.window_array p).window_position.count ∧ argptr (int (2 * (s.window_array p).window_position.count)) ≠ none

/-- **Window system calls draw inside their buffers** exactly when the rectangle they draw is on the screen, and, for a
partial update, its rows are in the context and the area of the top window is on the screen. -/
theorem draws_inside (s : State) (hw : s.SCREEN_WIDTH = 800) (hh : s.SCREEN_HEIGHT = 600) (window_id : Option Int)
    (argptr : Int → Option (Int → Color)) :
    ((∀ e ∈ (sys_updateWindow window_id argptr s).2, e.inBounds s) ↔
      ∀ p, s.Draws window_id argptr p → s.OnScreen (s.window_array p).window_position) ∧
    ∀ area, (∀ e ∈ (sys_updatePartialWindow window_id argptr (some area) s).2, e.inBounds s) ↔
      ∀ p, s.Draws window_id argptr p →
        s.OnScreen (getIntersection area (s.window_array p).window_position) ∧
        InContext (s.window_array p).window_position (getIntersection area (s.window_array p).window_position) ∧
        ((s.window_array p).next_window = none → s.OnScreen area) := by
  have hquiet : ∀ {w : List Event} {P : WindowLink → Prop}, w = [] → (∀ p, ¬s.Draws window_id argptr p) →
      ((∀ e ∈ w, e.inBounds s) ↔ ∀ p, s.Draws window_id argptr p → P p) := by
    rintro _ P rfl hno
    exact ⟨fun _ p hp => absurd hp (hno p), fun _ => nofun⟩
  cases window_id with
  | none =>
    have hno : ∀ p, ¬s.Draws none argptr p := by
      rintro p ⟨⟨id, hid, -⟩, -⟩
      cases hid
    exact ⟨hquiet rfl hno, fun area => hquiet rfl hno⟩
  | some id =>
    have hfound : ∀ {p : WindowLink} {r}, getWindowById id s = r → s.Draws (some id) argptr p → r = (.ok (some p, s), []) := by
      rintro p _ rfl ⟨⟨id', hid, hp⟩, -⟩
      cases hid
      exact hp
    rcases getWindowById_cases s id with ⟨o, ho⟩ | ho
    · cases o with
      | none =>
        have hno : ∀ p, ¬s.Draws (some id) argptr p := fun p hp => nomatch hfound ho hp
        refine ⟨hquiet ?_ hno, fun area => hquiet ?_ hno⟩
        · rw [sys_updateWindow, Prog.run_bind_ok ho]
          rfl
        · rw [sys_updatePartialWindow, Prog.run_bind_ok ho]
          rfl
      | some p =>
        have hunique : ∀ q, s.Draws (some id) argptr q → q = p := fun q hq => by
          cases hfound ho hq
          rfl
        by_cases hsize : (s.window_array p).window_position.count < 0
        · have hno : ∀ q, ¬s.Draws (some id) argptr q := fun q hq => by
            cases hunique q hq
            exact absurd hq.2.1 (Int.not_le.2 hsize)
          refine ⟨hquiet ?_ hno, fun area => hquiet ?_ hno⟩
          · rw [sys_updateWindow, Prog.run_bind_ok ho]
            dsimp only
            rw [Prog.run_bind_ok (Prog.run_get s), if_pos hsize]
            rfl
          · rw [sys_updatePartialWindow, Prog.run_bind_ok ho]
            dsimp only
            rw [Prog.run_bind_ok (Prog.run_get s), if_pos hsize]
            rfl
        · cases harg : argptr (int (2 * (s.window_array p).window_position.count)) with
          | none =>
            have hno : ∀ q, ¬s.Draws (some id) argptr q := fun q hq => by
              cases hunique q hq
              exact hq.2.2 harg
            refine ⟨hquiet ?_ hno, fun area => hquiet ?_ hno⟩
            · rw [sys_updateWindow, Prog.run_bind_ok ho]
              dsimp only
              rw [Prog.run_bind_ok (Prog.run_get s), if_neg hsize, harg]
              rfl
            · rw [sys_updatePartialWindow, Prog.run_bind_ok ho]
              dsimp only
              rw [Prog.run_bind_ok (Prog.run_get s), if_neg hsize, harg]
              rfl
          | some context =>
            have hdraws : s.Draws (some id) argptr p :=
              ⟨⟨id, rfl, ho⟩, Int.not_lt.1 hsize, fun hnone => nomatch harg.symm.trans hnone⟩
            have hall : ∀ {P : WindowLink → Prop}, (∀ q, s.Draws (some id) argptr q → P q) ↔ P p :=
              ⟨fun h => h p hdraws, fun h q hq => hunique q hq ▸ h⟩
            refine ⟨?_, fun area => ?_⟩
            · rw [sys_updateWindow_events ho hsize harg, hall]
              exact drawWindow_inBounds hw hh p context
            · rw [sys_updatePartialWindow_events ho hsize harg, hall]
              exact drawArea_inBounds hw hh p context area
    · have hno : ∀ p, ¬s.Draws (some id) argptr p := fun p hp => nomatch hfound ho hp
      refine ⟨hquiet ?_ hno, fun area => hquiet ?_ hno⟩
      · rw [sys_updateWindow, Prog.run_bind_error ho]
      · rw [sys_updatePartialWindow, Prog.run_bind_error ho]

theorem draws_inside_screen : ∃ s w, inputs none [.createWindow 3 (some ⟨0, 0, 800, 600⟩)] (init 800 600 fun _ => 0) =
      (.ok ((), s), w) ∧
    ∀ e ∈ (sys_updateWindow (some 1) (fun _ => some fun _ => 0) s).2, e.inBounds s := by
  have hrun : (inputs none [.createWindow 3 (some ⟨0, 0, 800, 600⟩)]).check (init 800 600 fun _ => 0)
      (fun _ s => s.list_head = some 0 ∧ (s.window_array 0).window_id = 1 ∧
        (s.window_array 0).window_position = ⟨0, 0, 800, 600⟩ ∧ s.SCREEN_WIDTH = 800 ∧ s.SCREEN_HEIGHT = 600) =
      true := by decide +kernel
  obtain ⟨_, s, w, h, hs⟩ := Prog.run_of_check hrun
  simp only [decide_eq_true_eq] at hs
  obtain ⟨hhead, hid, hpos, hw, hh⟩ := hs
  refine ⟨s, w, h, (draws_inside s hw hh (some 1) fun _ => some fun _ => 0).1.2 ?_⟩
  rintro p ⟨⟨_, hid', hp⟩, -⟩
  cases hid'
  have hfound : getWindowById 1 s = (.ok (some 0, s), []) := by
    rw [getWindowById, Prog.run_bind_ok (Prog.run_get s), hhead]
    simp [seek, hid, ended]
  cases hfound.symm.trans hp
  rw [hpos]
  unfold State.OnScreen
  rw [hw, hh]
  decide

/-- A window may be wider than the screen: its last pixels have no place in the buffers. -/
theorem draw_outside : ∃ s w, inputs none [.createWindow 3 (some ⟨0, 0, 1000, 600⟩)] (init 800 600 fun _ => 0) =
      (.ok ((), s), w) ∧
    ¬∀ e ∈ (sys_updateWindow (some 1) (fun _ => some fun _ => 0) s).2, e.inBounds s := by
  have hrun : (inputs none [.createWindow 3 (some ⟨0, 0, 1000, 600⟩)]).check (init 800 600 fun _ => 0)
      (fun _ s => s.list_head = some 0 ∧ (s.window_array 0).window_id = 1 ∧
        (s.window_array 0).window_position = ⟨0, 0, 1000, 600⟩ ∧ s.SCREEN_WIDTH = 800 ∧ s.SCREEN_HEIGHT = 600) =
      true := by decide +kernel
  obtain ⟨_, s, w, h, hs⟩ := Prog.run_of_check hrun
  simp only [decide_eq_true_eq] at hs
  obtain ⟨hhead, hid, hpos, hw, hh⟩ := hs
  have hfound : getWindowById 1 s = (.ok (some 0, s), []) := by
    rw [getWindowById, Prog.run_bind_ok (Prog.run_get s), hhead]
    simp [seek, hid, ended]
  have hsize : ¬(s.window_array 0).window_position.count < 0 := by
    rw [hpos]
    decide
  refine ⟨s, w, h, ?_⟩
  rw [sys_updateWindow_events hfound hsize rfl, drawWindow_inBounds hw hh, hpos]
  unfold State.OnScreen
  rw [hw, hh]
  decide

end NewXv6.Gui
