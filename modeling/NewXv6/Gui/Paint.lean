import NewXv6.Gui.Bounds
import NewXv6.Lib.Updates

/-!
# What is painted

Painting the windows of a list one after the other, each clipped to a rectangle, leaves at each pixel of the screen the
pixel of the last one whose rectangle has it (`painted_apply`).
-/

namespace NewXv6.Gui

open Lib

variable {s t : State} {r clip : Rect} {l : List WindowLink} {b : Int → Color} {x y : Int}

/-! ## Pixels of the screen -/

/-- A rectangle on a screen of 800 times 600 pixels. -/
structure Rect.InScreen (r : Rect) : Prop where
  left_x : 0 ≤ r.left_x
  right_x : r.right_x ≤ 800
  left_y : 0 ≤ r.left_y
  right_y : r.right_y ≤ 600

/-- A pixel of the screen. -/
structure OnScreen (x y : Int) : Prop where
  left_x : 0 ≤ x
  right_x : x < 800
  left_y : 0 ≤ y
  right_y : y < 600

theorem OnScreen.index (h : OnScreen x y) : screenIndex 800 x y = y * 800 + x := by
  obtain ⟨hx, hx', hy, hy'⟩ := h
  rw [screenIndex_eq, int_of_range (by omega) (by omega)]

theorem inClientRect_iff {r : Rect} : inClientRect r x y = true ↔ (x, y) ∈ pixels r := by
  rw [mem_pixels]
  unfold inClientRect
  simp only [decide_eq_true_eq]
  constructor
  · rintro ⟨h₁, h₂, h₃, h₄⟩
    exact ⟨⟨h₁, h₂⟩, h₃, h₄⟩
  · rintro ⟨⟨h₁, h₂⟩, h₃, h₄⟩
    exact ⟨h₁, h₂, h₃, h₄⟩

theorem Rect.InScreen.onScreen (h : r.InScreen) {q : Int × Int} (hq : q ∈ pixels r) : OnScreen q.1 q.2 := by
  obtain ⟨⟨hx, hx'⟩, hy, hy'⟩ := mem_pixels.1 hq
  obtain ⟨h₁, h₂, h₃, h₄⟩ := h
  exact ⟨by omega, by omega, by omega, by omega⟩

/-- The pixel of a context. -/
theorem contextIndex_onScreen (h : r.InScreen) (hx : inClientRect r x y = true) :
    contextIndex r x y = (y - r.left_y) * (r.right_x - r.left_x) + (x - r.left_x) := by
  obtain ⟨h₁, h₂, h₃, h₄⟩ := h
  obtain ⟨⟨hx, hx'⟩, hy, hy'⟩ := mem_pixels.1 (inClientRect_iff.1 hx)
  dsimp only at hx hx' hy hy'
  have hmul : (y - r.left_y) * (r.right_x - r.left_x) ≤ 600 * 800 :=
    Int.mul_le_mul (by omega) (by omega) (by omega) (by omega)
  have hpos : 0 ≤ (y - r.left_y) * (r.right_x - r.left_x) := Int.mul_nonneg (by omega) (by omega)
  rw [contextIndex_eq, int_of_range (x := y - r.left_y) (by omega) (by omega),
    int_of_range (x := r.right_x - r.left_x) (by omega) (by omega), int_of_range (by omega) (by omega)]
  omega

/-- One window is painted. -/
theorem paint_apply (hclip : clip.InScreen) (h : OnScreen x y) (context : Int → Color) :
    paint 800 r context (pixels clip) b (y * 800 + x) =
      if inClientRect clip x y = true then context (contextIndex r x y) else b (y * 800 + x) := by
  have hsame : ∀ q ∈ pixels clip, screenIndex 800 q.1 q.2 = y * 800 + x → q = (x, y) := by
    intro q hq he
    have hon := hclip.onScreen hq
    rw [hon.index] at he
    obtain ⟨hx, hx', hy, hy'⟩ := h
    obtain ⟨gx, gx', gy, gy'⟩ := hon
    exact Prod.ext (by dsimp only; omega) (by dsimp only; omega)
  show writes (fun p => screenIndex 800 p.1 p.2) (fun p => context (contextIndex r p.1 p.2)) (pixels clip) b _ = _
  by_cases hin : inClientRect clip x y = true
  · rw [if_pos hin]
    refine writes_of_mem (inClientRect_iff.1 hin) h.index fun q hq he => ?_
    rw [hsame q hq he]
  · rw [if_neg hin]
    refine writes_of_notMem fun q hq he => hin ?_
    rw [inClientRect_iff, ← hsame q hq he]
    exact hq

/-! ## Windows -/

/-- The buffer after the windows of a list were painted, each clipped. -/
def painted (s : State) (context : WindowLink → Int → Color) (clip : WindowLink → Rect) (l : List WindowLink)
    (b : Int → Color) : Int → Color :=
  l.foldl (fun b p => paint 800 (s.window_array p).window_position (context p) (pixels (clip p)) b) b

/-- **Painting** leaves the pixel of the last window that has it. -/
theorem painted_apply {context : WindowLink → Int → Color} {clip : WindowLink → Rect}
    (hclip : ∀ p ∈ l, (clip p).InScreen) (h : OnScreen x y) :
    painted s context clip l b (y * 800 + x) =
      match l.reverse.find? fun p => inClientRect (clip p) x y with
      | some p => context p (contextIndex (s.window_array p).window_position x y)
      | none => b (y * 800 + x) := by
  induction l using List.reverseRecOn with
  | nil => rfl
  | append_singleton l p ih =>
    have hrec := ih fun q hq => hclip q (List.mem_append_left _ hq)
    have hstep : painted s context clip (l ++ [p]) b =
        paint 800 (s.window_array p).window_position (context p) (pixels (clip p)) (painted s context clip l b) := by
      unfold painted
      rw [List.foldl_append]
      rfl
    rw [hstep, paint_apply (hclip p (List.mem_append_right _ (List.mem_singleton_self p))) h, List.reverse_append,
      List.reverse_singleton, List.singleton_append, List.find?_cons]
    cases inClientRect (clip p) x y with
    | true => rfl
    | false =>
      simp only [Bool.false_eq_true, if_false]
      exact hrec

/-! ## The mouse -/

/-- The mouse's picture is drawn at an index. -/
def State.UnderMouse (s : State) (k : Int) : Prop :=
  0 ≤ s.mouseX ∧ ∃ q ∈ pixels mouseRect, mousePixel q.1 q.2 ≠ 2016 ∧
    mouseIndex s.SCREEN_WIDTH s.mouseX s.mouseY q.1 q.2 = k

theorem withoutMouse_apply {k : Int} {c : Color} (hbuffer : s.vesa_buffer k = c) (harray : s.vesa_array k = c) :
    s.withoutMouse k = c := by
  show writes (fun p => mouseIndex s.SCREEN_WIDTH s.mouseX s.mouseY p.1 p.2)
    (fun p => s.vesa_buffer (mouseIndex s.SCREEN_WIDTH s.mouseX s.mouseY p.1 p.2)) (pixels mouseRect) s.vesa_array k = c
  by_cases hk : ∃ p ∈ pixels mouseRect, mouseIndex s.SCREEN_WIDTH s.mouseX s.mouseY p.1 p.2 = k
  · obtain ⟨p, hp, he⟩ := hk
    refine writes_of_mem hp he fun q _ hq => ?_
    rw [hq]
    exact hbuffer
  · rw [writes_of_notMem fun p hp he => hk ⟨p, hp, he⟩]
    exact harray

theorem withMouse_apply {k : Int} (hmouse : 0 ≤ s.mouseX) (hk : ¬s.UnderMouse k) : s.withMouse k = s.vesa_array k := by
  have hfold : s.withMouse = writes (fun p => mouseIndex s.SCREEN_WIDTH s.mouseX s.mouseY p.1 p.2)
      (fun p => mousePixel p.1 p.2) ((pixels mouseRect).filter fun p => mousePixel p.1 p.2 ≠ 2016) s.vesa_array := by
    unfold State.withMouse writes
    rw [List.foldl_filter]
    congr
    funext b p
    by_cases hp : mousePixel p.1 p.2 = 2016
    · simp [hp]
    · simp [hp]
  rw [hfold]
  refine writes_of_notMem fun p hp he => hk ⟨hmouse, p, ?_⟩
  obtain ⟨hp, hpixel⟩ := List.mem_filter.1 hp
  exact ⟨hp, by simpa using hpixel, he⟩

/-- **Drawing the mouse** where it is changes nothing where its picture is not, if the screen was right before. -/
theorem drawMouse_run (s : State) : ∃ t, drawMouse s.mouseX s.mouseY s = (.ok ((), t), []) ∧
    t = { s with vesa_array := t.vesa_array } ∧
    ∀ k c, ¬s.UnderMouse k → s.vesa_buffer k = c → s.vesa_array k = c → t.vesa_array k = c := by
  by_cases hx : s.mouseX < 0
  · refine ⟨s, ?_, rfl, fun k c _ _ hc => hc⟩
    rw [drawMouse, if_pos hx]
    rfl
  · have hmouse : 0 ≤ s.mouseX := Int.not_lt.1 hx
    refine ⟨{ s with vesa_array := ({ s with vesa_array := s.withoutMouse } : State).withMouse }, ?_, rfl,
      fun k c hk hbuffer harray => ?_⟩
    · rw [drawMouse, if_neg hx]
      simp only [bind, Prog.bind, Prog.modify, if_pos hmouse, List.append_nil]
    · show ({ s with vesa_array := s.withoutMouse } : State).withMouse k = c
      rw [withMouse_apply (s := { s with vesa_array := s.withoutMouse }) hmouse hk]
      exact withoutMouse_apply hbuffer harray

end NewXv6.Gui
