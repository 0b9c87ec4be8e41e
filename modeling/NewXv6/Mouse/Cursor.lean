import NewXv6.Mouse.Model
import NewXv6.Gui.Bounds
import NewXv6.Lib.Path

/-!
# The cursor

The cursor is drawn by the handler of the mouse, for a packet, and by every process that has drawn the top window. A step
is an interrupt, up to the call of `drawMouse` or `setMouse` that `createMsg` comes to, or one statement of such a call;
each read of `mouseX` or `mouseY` is a statement of its own. The arguments of `drawMouse(mouseX, mouseY)` are read from
the last one to the first.

`heard` has what the interrupts found in the port, newest first, and `used` the indices of `drawMouse`.
-/

namespace NewXv6.Mouse

open Gui Lib

/-! ## `createMsg` and the cursor -/

/-- The cursor stays where it is. -/
def SameCursor (s t : Gui.State) : Prop := t.mouseX = s.mouseX ∧ t.mouseY = s.mouseY

/-- The cursor stays where it is, or moves to a point. -/
def CursorAt (x y : Int) (s t : Gui.State) : Prop := SameCursor s t ∨ t.mouseX = x ∧ t.mouseY = y

section CreateMsg

variable {zero : Option Window} {s t u : Gui.State} {x y : Int}

theorem SameCursor.at (h : SameCursor s t) (h' : CursorAt x y t u) : CursorAt x y s u :=
  h'.imp_left fun hu => ⟨hu.1.trans h.1, hu.2.trans h.2⟩

theorem SameCursor.of_sent {C : Contract Fault Gui.Event} (h : Sent C s t) : SameCursor s t := by
  rw [h.rest]
  exact ⟨rfl, rfl⟩

theorem wp_drawMouse_at : Wp anyRun (drawMouse x y) (fun _ t => CursorAt x y s t) s := by
  simp only [drawMouse, wp_bind, wp_ite, wp_pure, wp_modify]
  exact ⟨fun _ => Or.inl ⟨rfl, rfl⟩, fun _ => Or.inr ⟨rfl, rfl⟩⟩

theorem wp_mouseMoved_at : Wp anyRun (mouseMoved x y) (fun _ t => CursorAt x y s t) s := by
  simp only [mouseMoved, wp_bind, wp_modify]
  exact wp_drawMouse_at (s := { s with mouse_x := x, mouse_y := y })

theorem wp_deref_any {site : Site} {o : Option WindowLink} {Q : Window → Gui.State → Prop} (h : ∀ w, Q w s) :
    Wp anyRun (deref zero site o) Q s :=
  wp_deref (fun _ _ => h _) (fun _ => anyRun_null zero site) fun w _ _ _ => h w

theorem wp_setActivated_any {p : Option WindowLink} {Q : Unit → Gui.State → Prop} (hQ : ∀ t, SameCursor s t → Q () t) :
    Wp anyRun (setActivated p) Q s := by
  simp only [setActivated, wp_bind, wp_get, wp_ite, wp_modify]
  refine ⟨fun _ => hQ _ ⟨rfl, rfl⟩, fun _ => ?_⟩
  cases p with
  | none => exact (wp_throw _ _ _).2 trivial
  | some p =>
    have hrest := ((unlink_relinked s p).trans (pushTail_relinked (s.unlink p) p)).rest
    simp only [wp_bind, wp_modify, wp_get]
    refine wp_createUpdateMsg trivial (anyRun_sends _) fun t ht => hQ t ?_
    rw [ht.rest, hrest]
    exact ⟨rfl, rfl⟩

theorem wp_dragWindow_at {p : WindowLink} : Wp anyRun (dragWindow zero p x y) (fun _ t => CursorAt x y s t) s := by
  simp only [dragWindow, wp_bind, wp_get, wp_ite, wp_modify]
  refine ⟨fun _ => wp_mouseMoved_at, fun _ => ⟨fun _ => ?_, fun _ => wp_mouseMoved_at⟩⟩
  simp only [drawScreen, setMouse, wp_bind, wp_get]
  exact wp_deref_any fun w => wp_createUpdateMsg trivial (anyRun_sends _) fun _ _ =>
    (wp_modify _ _ _).2 (Or.inr ⟨rfl, rfl⟩)

/-- **A mouse message** leaves the cursor where it is or moves it to the point of the message, whatever the windows are. -/
theorem wp_createMsg_at {msg_type : Int} {key : UInt8} (hkey : msg_type ≠ MSG_KEYDOWN) :
    Wp anyRun (createMsg zero msg_type x y key) (fun _ t => CursorAt x y s t) s := by
  simp only [createMsg, wp_ite, wp_bind, wp_get, wp_modify]
  refine ⟨fun hk => absurd hk hkey, fun _ => ?_⟩
  simp only [getWindowByPoint, wp_bind, wp_get]
  unfold ended
  split
  · rename_i p _
    rw [wp_pure]
    refine wp_deref_any fun w => ⟨fun _ => ?_, fun _ => ⟨fun _ => ?_, fun _ => wp_mouseMoved_at⟩⟩
    · refine wp_setActivated_any fun t ht => wp_requireMsg fun _ u hu => ?_
      refine wp_send trivial (anyRun_sends _) fun sent v hv => ⟨fun _ => ?_, fun _ => ?_⟩
      · have hsame := SameCursor.of_sent (hu.trans hv)
        exact (wp_mouseMoved_at).mono fun _ z hz => ht.at (hsame.at hz)
      · exact (wp_pure _ _ _).2 (ht.at (Or.inl (SameCursor.of_sent (hu.trans hv))))
    · refine wp_setActivated_any fun t ht => ?_
      cases p with
      | none => exact (wp_throw _ _ _).2 trivial
      | some p => exact wp_dragWindow_at.mono fun _ z hz => ht.at hz
  · exact (wp_throw _ _ _).2 trivial

end CreateMsg

/-! ## The system -/

/-- `mouseX` and `mouseY` of `window.c`. -/
structure Cursor where
  mouseX : Int
  mouseY : Int
  used : List Int
  deriving DecidableEq

/-- The next statement of a call of `drawMouse` or `setMouse`. -/
inductive Pc
  | idle
  /-- `createMsg` does not return. -/
  | stopped
  /-- `drawMouse(mouseX, mouseY)`: `mouseY` has been read. -/
  | args (y : Int)
  /-- `if (x < 0) return; if (mouseX >= 0)`. -/
  | test (x y : Int)
  /-- `vesa_array[..] = vesa_buffer[..]` at the pixels left: `mouseY` is read. -/
  | erase (x y : Int) (ps : List (Int × Int))
  /-- The rest of an index. -/
  | eraseAt (x y : Int) (p : Int × Int) (ps : List (Int × Int)) (my : Int)
  /-- `mouseX = x`. -/
  | setX (x y : Int)
  /-- `mouseY = y`. -/
  | setY (y : Int)
  /-- `vesa_array[..] = mouse[i][j]` at the pixels left: `mouseY` is read. -/
  | draw (ps : List (Int × Int))
  /-- The rest of an index. -/
  | drawAt (p : Int × Int) (ps : List (Int × Int)) (my : Int)
  /-- `setMouse`: `mouseX = x`. -/
  | moveX (x y : Int)
  /-- `mouseY = y`. -/
  | moveY (y : Int)
  deriving DecidableEq

/-- The indices of the loop that puts the buffer back: two for each pixel. -/
def erased : List (Int × Int) := (pixels mouseRect).flatMap fun p => [p, p]

/-- The pixels that are drawn. -/
def drawn : List (Int × Int) := (pixels mouseRect).filter fun p => mousePixel p.1 p.2 ≠ 2016

/-- One statement. -/
def Pc.step (SCREEN_WIDTH : Int) (c : Cursor) : Pc → Option (Cursor × Pc)
  | .idle => none
  | .stopped => none
  | .args y => some (c, .test c.mouseX y)
  | .test x y =>
    if x < 0 then some (c, .idle)
    else if 0 ≤ c.mouseX then some (c, .erase x y erased)
    else some (c, .setX x y)
  | .erase x y [] => some (c, .setX x y)
  | .erase x y (p :: ps) => some (c, .eraseAt x y p ps c.mouseY)
  | .eraseAt x y p ps my => some ({ c with used := mouseIndex SCREEN_WIDTH c.mouseX my p.1 p.2 :: c.used }, .erase x y ps)
  | .setX x y => some ({ c with mouseX := x }, .setY y)
  | .setY y => some ({ c with mouseY := y }, .draw drawn)
  | .draw [] => some (c, .idle)
  | .draw (p :: ps) => some (c, .drawAt p ps c.mouseY)
  | .drawAt p ps my => some ({ c with used := mouseIndex SCREEN_WIDTH c.mouseX my p.1 p.2 :: c.used }, .draw ps)
  | .moveX x y => some ({ c with mouseX := x }, .moveY y)
  | .moveY y => some ({ c with mouseY := y }, .idle)

/-- What `createMsg` comes to, which depends on the windows and the messages. -/
inductive Answer
  /-- It returns early. -/
  | refused
  /-- It calls `drawMouse`. -/
  | drawn
  /-- It calls `setMouse`. -/
  | set
  /-- It stops at a null pointer. -/
  | stopped
  deriving DecidableEq

def Answer.pc (a : Answer) (c : MsgCall) : Pc :=
  match a with
  | .refused => .idle
  | .drawn => .test c.pos_x c.pos_y
  | .set => .moveX c.pos_x c.pos_y
  | .stopped => .stopped

/-- The mouse, the cursor, the handler and the processes. -/
structure State where
  mouse : Vars
  cursor : Cursor
  handler : Pc
  process : Nat → Pc
  heard : List (Option UInt8)

inductive Action
  /-- The handler starts; what is in the port, and what `createMsg` comes to. -/
  | interrupt (tick : UInt32) (data : Option UInt8) (answer : Answer)
  | handler
  /-- A process that has drawn the top window calls `drawMouse`. -/
  | update (pid : Nat)
  | process (pid : Nat)

def State.setProcess (s : State) (pid : Nat) (pc : Pc) : State := { s with process := Function.update s.process pid pc }

def step (SCREEN_WIDTH SCREEN_HEIGHT : Int) (s : State) : Action → Option State
  | .interrupt tick data answer =>
    if s.handler = .idle then
      let r := mouseintr SCREEN_WIDTH SCREEN_HEIGHT s.mouse tick data
      some { s with
        mouse := r.1
        handler := match r.2 with
          | none => .idle
          | some c => answer.pc c
        heard := data :: s.heard }
    else none
  | .handler => (s.handler.step SCREEN_WIDTH s.cursor).map fun r => { s with cursor := r.1, handler := r.2 }
  | .update pid => if s.process pid = .idle then some (s.setProcess pid (.args s.cursor.mouseY)) else none
  | .process pid =>
    ((s.process pid).step SCREEN_WIDTH s.cursor).map fun r => { s.setProcess pid r.2 with cursor := r.1 }

/-- After boot. -/
def boot : State := ⟨init, ⟨-1, -1, []⟩, .idle, fun _ => .idle, []⟩

/-! ## Packets -/

/-- What the first byte of a packet says. -/
structure Vars.Header (s : Vars) (ch : UInt8) : Prop where
  first : firstByte ch
  left_down : s.left_down = (ch &&& 0x01 ≠ 0 : Bool)
  right_down : s.right_down = (ch &&& 0x02 ≠ 0 : Bool)
  x_sign : s.x_sign = (ch &&& 0x10 ≠ 0 : Bool)
  y_sign : s.y_sign = (ch &&& 0x20 ≠ 0 : Bool)

/-- The byte completes a packet. -/
def completes (s : Vars) (data : Option UInt8) : Prop := s.state = 3 ∧ data ≠ none

/-- The mouse is inside a packet only after the bytes of it. -/
structure Vars.Synced (s : Vars) (heard : List (Option UInt8)) : Prop where
  second : s.state = 2 → ∃ b₀ rest, heard = some b₀ :: rest ∧ s.Header b₀
  third : s.state = 3 → ∃ b₀ b₁ rest, heard = some b₁ :: some b₀ :: rest ∧ s.Header b₀ ∧
    s.x_large_dispalecement = largeDisplacement (displacement s.x_sign b₁)

/-- The cursor stays on a screen of 800 by 600 pixels. -/
structure Vars.OnScreen (s : Vars) : Prop where
  x : 0 ≤ s.x_position ∧ s.x_position ≤ 790
  y : 0 ≤ s.y_position ∧ s.y_position ≤ 585

section Packets

variable {s : Vars} {tick : UInt32} {data : Option UInt8} {heard : List (Option UInt8)} {c : MsgCall}

theorem complete_state (s : Vars) (tick : UInt32) : (complete s tick).1.state = s.state ∧
    (complete s tick).1.x_position = s.x_position ∧ (complete s tick).1.y_position = s.y_position := by
  obtain ⟨a, b, c, d, h⟩ := buttons_rest s tick
  unfold complete
  dsimp only
  rw [h]
  exact ⟨rfl, rfl, rfl⟩

theorem complete_call (h : (complete s tick).2 = some c) : c.pos_x = s.x_position ∧ c.pos_y = s.y_position := by
  obtain ⟨a, b, c', d, hb⟩ := buttons_rest s tick
  unfold complete at h
  dsimp only at h
  rw [hb] at h
  simp only [Option.ite_none_right_eq_some, Option.some.injEq] at h
  rw [← h.2]
  exact ⟨rfl, rfl⟩

/-- What an interrupt does to the state of the packet. -/
theorem mouseintr_cases (W H : Int) (s : Vars) (tick : UInt32) (data : Option UInt8) :
    (¬completes s data ∧ (mouseintr W H s tick data).2 = none) ∨
    ∃ ch, data = some ch ∧ s.state = 3 ∧ mouseintr W H s tick data = complete { s with
      y_large_dispalecement := largeDisplacement (displacement s.y_sign ch)
      y_position := clamp H SIZE_Y_MOUSE (s.y_position - displacement s.y_sign ch)
      state := 1 } tick := by
  unfold mouseintr completes
  split
  · exact Or.inl ⟨by simp, rfl⟩
  · rename_i ch
    split
    · rename_i h
      refine Or.inl ⟨by simp [h], ?_⟩
      split <;> rfl
    · rename_i h
      exact Or.inl ⟨by simp [h], rfl⟩
    · rename_i h
      exact Or.inr ⟨ch, rfl, h, rfl⟩
    · rename_i h
      exact Or.inl ⟨fun hs => h hs.1, rfl⟩

theorem mouseintr_onScreen (hs : s.OnScreen) (tick : UInt32) (data : Option UInt8) :
    (mouseintr 800 600 s tick data).1.OnScreen := by
  unfold mouseintr
  split
  · exact ⟨hs.x, hs.y⟩
  · split
    · split
      · exact ⟨hs.x, hs.y⟩
      · exact hs
    · exact ⟨clamp_mem (by decide) _, hs.y⟩
    · obtain ⟨-, hx, hy⟩ := complete_state { s with
        y_large_dispalecement := largeDisplacement (displacement s.y_sign ‹UInt8›)
        y_position := clamp 600 SIZE_Y_MOUSE (s.y_position - displacement s.y_sign ‹UInt8›)
        state := 1 } tick
      constructor
      · rw [hx]
        exact hs.x
      · rw [hy]
        exact clamp_mem (by decide) _
    · exact ⟨hs.x, hs.y⟩

/-- A call of `createMsg` is about a point on the screen. -/
theorem mouseintr_call (hs : s.OnScreen) (h : (mouseintr 800 600 s tick data).2 = some c) :
    (0 ≤ c.pos_x ∧ c.pos_x ≤ 790) ∧ 0 ≤ c.pos_y ∧ c.pos_y ≤ 585 := by
  rcases mouseintr_cases 800 600 s tick data with ⟨-, hn⟩ | ⟨ch, -, -, hm⟩
  · rw [hn] at h
    cases h
  · rw [hm] at h
    obtain ⟨hx, hy⟩ := complete_call h
    rw [hx, hy]
    exact ⟨hs.x, clamp_mem (by decide) _⟩

theorem mouseintr_synced (W H : Int) (hs : s.Synced heard) (tick : UInt32) (data : Option UInt8) :
    (mouseintr W H s tick data).1.Synced (data :: heard) := by
  have hstart : ∀ t : Vars, t.state = 1 → t.Synced (data :: heard) := fun t ht =>
    ⟨fun h => by omega, fun h => by omega⟩
  unfold mouseintr
  split
  · exact hstart _ rfl
  · rename_i ch
    split
    · rename_i h
      split
      · rename_i hfirst
        exact ⟨fun _ => ⟨ch, heard, rfl, ⟨hfirst, rfl, rfl, rfl, rfl⟩⟩, fun h => by cases h⟩
      · exact hstart _ h
    · rename_i h
      obtain ⟨b₀, rest, rfl, hb⟩ := hs.second h
      exact ⟨fun h => (by cases h), fun _ => ⟨b₀, ch, rest, rfl, ⟨hb.first, hb.left_down, hb.right_down, hb.x_sign,
        hb.y_sign⟩, rfl⟩⟩
    · exact hstart _ (complete_state _ tick).1
    · exact hstart _ rfl

end Packets

/-! ## The cursor stays on the screen -/

def Column (x : Int) : Prop := 0 ≤ x ∧ x ≤ 790

def Row (y : Int) : Prop := 0 ≤ y ∧ y ≤ 585

/-- The cursor has a position. -/
def Cursor.Shown (c : Cursor) : Prop := 0 ≤ c.mouseX ∧ 0 ≤ c.mouseY

/-- The cursor is on the screen, or nowhere yet; `mouseX` is set before `mouseY`. -/
structure Cursor.Good (c : Cursor) : Prop where
  column : c.mouseX = -1 ∨ Column c.mouseX
  row : c.mouseY = -1 ∨ Row c.mouseY
  first : 0 ≤ c.mouseY → 0 ≤ c.mouseX
  used : ∀ k ∈ c.used, 0 ≤ k ∧ k < 480000

/-- Where a statement leaves a thread. A process does not show the cursor for the first time. -/
def Pc.Ok (handler : Bool) (c : Cursor) : Pc → Prop
  | .idle => handler = true → 0 ≤ c.mouseX → c.Shown
  | .stopped => True
  | .args y => handler = false ∧ (y = -1 ∨ Row y ∧ c.Shown)
  | .test x y => handler = false ∧ x < 0 ∨ Column x ∧ Row y ∧ (handler = false ∨ 0 ≤ c.mouseX → c.Shown)
  | .erase x y ps => Column x ∧ Row y ∧ c.Shown ∧ ∀ p ∈ ps, p ∈ pixels mouseRect
  | .eraseAt x y p ps my => Column x ∧ Row y ∧ c.Shown ∧ Row my ∧ p ∈ pixels mouseRect ∧ ∀ p ∈ ps, p ∈ pixels mouseRect
  | .setX x y => Column x ∧ Row y ∧ (handler = false → c.Shown)
  | .setY y => Row y ∧ 0 ≤ c.mouseX ∧ (handler = false → c.Shown)
  | .draw ps => c.Shown ∧ ∀ p ∈ ps, p ∈ pixels mouseRect
  | .drawAt p ps my => c.Shown ∧ Row my ∧ p ∈ pixels mouseRect ∧ ∀ p ∈ ps, p ∈ pixels mouseRect
  | .moveX x y => handler = true ∧ Column x ∧ Row y
  | .moveY y => handler = true ∧ Row y ∧ 0 ≤ c.mouseX

/-- What a statement may do to the cursor of a thread that is not running. -/
def Cursor.Kept (handler : Bool) (c d : Cursor) : Prop :=
  (c.Shown → d.Shown) ∧ (handler = true → d.Shown ∨ d.mouseX = c.mouseX ∧ d.mouseY = c.mouseY)

section Statements

variable {b : Bool} {c d : Cursor} {pc pc' : Pc}

theorem Cursor.Kept.refl (b : Bool) (c : Cursor) : c.Kept b c := ⟨id, fun _ => Or.inr ⟨rfl, rfl⟩⟩

/-- Another thread keeps where a thread is. -/
theorem Pc.Ok.kept (h : pc.Ok b c) (hk : c.Kept b d) : pc.Ok b d := by
  -- what a thread knows of a cursor that is not shown stays true for the handler
  have hpos : b = true → 0 ≤ c.mouseX → 0 ≤ d.mouseX := by
    intro hb hx
    rcases hk.2 hb with hd | ⟨hd, -⟩
    · exact hd.1
    · omega
  have htest : (b = true → 0 ≤ c.mouseX → c.Shown) → b = true → 0 ≤ d.mouseX → d.Shown := by
    intro hc hb hx
    rcases hk.2 hb with hd | ⟨hd, -⟩
    · exact hd
    · exact hk.1 (hc hb (hd ▸ hx))
  cases pc with
  | idle => exact htest h
  | stopped => trivial
  | args y => exact ⟨h.1, h.2.imp id fun hy => ⟨hy.1, hk.1 hy.2⟩⟩
  | test x y =>
    refine h.imp id fun ⟨hx, hy, hs⟩ => ⟨hx, hy, fun hd => ?_⟩
    cases b with
    | false => exact hk.1 (hs (Or.inl rfl))
    | true => exact htest (fun _ h0 => hs (Or.inr h0)) rfl (hd.resolve_left (by decide))
  | erase x y ps => exact ⟨h.1, h.2.1, hk.1 h.2.2.1, h.2.2.2⟩
  | eraseAt x y p ps my => exact ⟨h.1, h.2.1, hk.1 h.2.2.1, h.2.2.2⟩
  | setX x y => exact ⟨h.1, h.2.1, fun hb => hk.1 (h.2.2 hb)⟩
  | setY y =>
    refine ⟨h.1, ?_, fun hb => hk.1 (h.2.2 hb)⟩
    cases b with
    | false => exact (hk.1 (h.2.2 rfl)).1
    | true => exact hpos rfl h.2.1
  | draw ps => exact ⟨hk.1 h.1, h.2⟩
  | drawAt p ps my => exact ⟨hk.1 h.1, h.2⟩
  | moveX x y => exact h
  | moveY y => exact ⟨h.1, h.2.1, hpos h.1 h.2.2⟩

theorem Cursor.Good.column_of_shown (h : c.Good) (hs : c.Shown) : Column c.mouseX :=
  h.column.resolve_left fun hx => by have := hs.1; omega

theorem Cursor.Good.row_of_shown (h : c.Good) (hs : c.Shown) : Row c.mouseY :=
  h.row.resolve_left fun hy => by have := hs.2; omega

/-- An index of the cursor's picture. -/
theorem mouseIndex_range {mx my : Int} {p : Int × Int} (hx : Column mx) (hy : Row my) (hp : p ∈ pixels mouseRect) :
    0 ≤ mouseIndex 800 mx my p.1 p.2 ∧ mouseIndex 800 mx my p.1 p.2 < 480000 := by
  obtain ⟨⟨h₁, h₂⟩, h₃, h₄⟩ := mem_pixels.1 hp
  simp only [mouseRect] at h₁ h₂ h₃ h₄
  obtain ⟨hx, hx'⟩ := hx
  obtain ⟨hy, hy'⟩ := hy
  unfold mouseIndex
  rw [int_of_range (x := p.2 + my) (by omega) (by omega), int_of_range (x := (p.2 + my) * 800) (by omega) (by omega),
    int_of_range (x := (p.2 + my) * 800 + p.1) (by omega) (by omega), int_of_range (by omega) (by omega)]
  constructor <;> omega

/-- An index that is used at a position on the screen. -/
theorem Cursor.Good.use {k : Int} (h : c.Good) (hk : 0 ≤ k ∧ k < 480000) : Cursor.Good { c with used := k :: c.used } :=
  ⟨h.column, h.row, h.first, fun j hj => (List.mem_cons.1 hj).elim (fun e => e ▸ hk) (h.used j)⟩

theorem mem_erased {p : Int × Int} (h : p ∈ erased) : p ∈ pixels mouseRect := by
  obtain ⟨q, hq, hp⟩ := List.mem_flatMap.1 h
  simp only [List.mem_cons, List.not_mem_nil, or_false, or_self] at hp
  rwa [hp]

theorem mem_drawn {p : Int × Int} (h : p ∈ drawn) : p ∈ pixels mouseRect := (List.mem_filter.1 h).1

/-- The cursor after a statement of a thread, and what the statement says to the other threads. -/
structure Stepped (b : Bool) (c d : Cursor) (pc : Pc) : Prop where
  good : d.Good
  ok : pc.Ok b d
  shown : c.Shown → d.Shown
  quiet : b = false → d.Shown ∨ d.mouseX = c.mouseX ∧ d.mouseY = c.mouseY

/-- A statement that does not move the cursor. -/
theorem Stepped.still (h : c.Good) (hpc : pc.Ok b c) : Stepped b c c pc := ⟨h, hpc, id, fun _ => Or.inr ⟨rfl, rfl⟩⟩

/-- **One statement** keeps the cursor on the screen, if a process does not find the cursor shown after it has read
`mouseY` as -1. -/
theorem Pc.Ok.step (h : pc.Ok b c) (hc : c.Good) (hfirst : pc = .args (-1) → c.mouseX < 0)
    (hs : pc.step 800 c = some (d, pc')) : Stepped b c d pc' := by
  cases pc with
  | idle => cases hs
  | stopped => cases hs
  | args y =>
    cases hs
    obtain ⟨hb, hy⟩ := h
    refine .still hc ?_
    rcases hy with rfl | ⟨hy, hshown⟩
    · exact Or.inl ⟨hb, hfirst rfl⟩
    · exact Or.inr ⟨hc.column_of_shown hshown, hy, fun _ => hshown⟩
  | test x y =>
    simp only [Pc.step] at hs
    split at hs
    · cases hs
      rename_i hx
      refine .still hc fun hb => ?_
      rcases h with ⟨hb', -⟩ | ⟨hx', -⟩
      · rw [hb] at hb'
        cases hb'
      · exact absurd hx'.1 (by omega)
    · rename_i hx
      obtain ⟨hx, hy, hshown⟩ := h.resolve_left fun h => hx h.2
      split at hs
      · rename_i hm
        cases hs
        exact .still hc ⟨hx, hy, hshown (Or.inr hm), fun p => mem_erased⟩
      · cases hs
        exact .still hc ⟨hx, hy, fun hb => hshown (Or.inl hb)⟩
  | erase x y ps =>
    obtain ⟨hx, hy, hshown, hps⟩ := h
    cases ps with
    | nil =>
      cases hs
      exact .still hc ⟨hx, hy, fun _ => hshown⟩
    | cons p ps =>
      cases hs
      exact .still hc ⟨hx, hy, hshown, hc.row_of_shown hshown, List.forall_mem_cons.1 hps⟩
  | eraseAt x y p ps my =>
    cases hs
    obtain ⟨hx, hy, hshown, hmy, hp, hps⟩ := h
    exact ⟨hc.use (mouseIndex_range (hc.column_of_shown hshown) hmy hp), ⟨hx, hy, hshown, hps⟩, id,
      fun _ => Or.inr ⟨rfl, rfl⟩⟩
  | setX x y =>
    cases hs
    obtain ⟨hx, hy, hshown⟩ := h
    have hnow : c.Shown → Cursor.Shown { c with mouseX := x } := fun h => ⟨hx.1, h.2⟩
    exact ⟨⟨Or.inr hx, hc.row, fun _ => hx.1, hc.used⟩, ⟨hy, hx.1, fun hb => hnow (hshown hb)⟩, hnow,
      fun hb => Or.inl (hnow (hshown hb))⟩
  | setY y =>
    cases hs
    obtain ⟨hy, hx, -⟩ := h
    exact ⟨⟨hc.column, Or.inr hy, fun _ => hx, hc.used⟩, ⟨⟨hx, hy.1⟩, fun p => mem_drawn⟩, fun _ => ⟨hx, hy.1⟩,
      fun _ => Or.inl ⟨hx, hy.1⟩⟩
  | draw ps =>
    obtain ⟨hshown, hps⟩ := h
    cases ps with
    | nil =>
      cases hs
      exact .still hc fun _ _ => hshown
    | cons p ps =>
      cases hs
      exact .still hc ⟨hshown, hc.row_of_shown hshown, List.forall_mem_cons.1 hps⟩
  | drawAt p ps my =>
    cases hs
    obtain ⟨hshown, hmy, hp, hps⟩ := h
    exact ⟨hc.use (mouseIndex_range (hc.column_of_shown hshown) hmy hp), ⟨hshown, hps⟩, id, fun _ => Or.inr ⟨rfl, rfl⟩⟩
  | moveX x y =>
    cases hs
    obtain ⟨hb, hx, hy⟩ := h
    exact ⟨⟨Or.inr hx, hc.row, fun _ => hx.1, hc.used⟩, ⟨hb, hy, hx.1⟩, fun h => ⟨hx.1, h.2⟩, fun hb' => by simp [hb] at hb'⟩
  | moveY y =>
    cases hs
    obtain ⟨hb, hy, hx⟩ := h
    exact ⟨⟨hc.column, Or.inr hy, fun _ => hx, hc.used⟩, fun _ _ => ⟨hx, hy.1⟩, fun _ => ⟨hx, hy.1⟩,
      fun hb' => by simp [hb] at hb'⟩

end Statements

/-! ## Runs -/

/-- The mouse stays on the screen and in step with its bytes, in every run. -/
structure State.Tracked (s : State) : Prop where
  onScreen : s.mouse.OnScreen
  synced : s.mouse.Synced s.heard

/-- The cursor stays on the screen. -/
structure State.Good (s : State) : Prop where
  tracked : s.Tracked
  cursor : s.cursor.Good
  handler : s.handler.Ok true s.cursor
  process : ∀ pid, (s.process pid).Ok false s.cursor

/-- A window update does not read its two arguments before and after the cursor is shown for the first time. -/
def Whole (s : State) : Action → Prop
  | .process pid => s.process pid = .args (-1) → s.cursor.mouseX < 0
  | _ => True

instance (s : State) (a : Action) : Decidable (Whole s a) := by
  cases a <;> unfold Whole <;> infer_instance

section Runs

variable {s t : State} {a : Action}

theorem boot_tracked : boot.Tracked :=
  ⟨⟨by decide, by decide⟩, ⟨fun h => absurd h (by decide), fun h => absurd h (by decide)⟩⟩

theorem step_tracked (hs : s.Tracked) (ha : step 800 600 s a = some t) : t.Tracked := by
  cases a with
  | interrupt tick data answer =>
    simp only [step, Option.ite_none_right_eq_some, Option.some.injEq] at ha
    obtain ⟨-, rfl⟩ := ha
    exact ⟨mouseintr_onScreen hs.onScreen tick data, mouseintr_synced 800 600 hs.synced tick data⟩
  | handler =>
    obtain ⟨r, -, rfl⟩ := Option.map_eq_some_iff.1 ha
    exact ⟨hs.onScreen, hs.synced⟩
  | update pid =>
    simp only [step, Option.ite_none_right_eq_some, Option.some.injEq] at ha
    obtain ⟨-, rfl⟩ := ha
    exact ⟨hs.onScreen, hs.synced⟩
  | process pid =>
    obtain ⟨r, -, rfl⟩ := Option.map_eq_some_iff.1 ha
    exact ⟨hs.onScreen, hs.synced⟩

theorem run_tracked (tr : List Action) (s : State) (h : run (step 800 600) boot tr = some s) : s.Tracked :=
  run_induction (fun _ s => s.Tracked) boot_tracked (fun _ _ _ _ _ hs ha => step_tracked hs ha) tr s h

theorem boot_good : boot.Good where
  tracked := boot_tracked
  cursor := ⟨Or.inl rfl, Or.inl rfl, fun h => absurd h (by decide), fun k hk => absurd hk (by simp [boot])⟩
  handler := fun _ h => absurd h (by decide)
  process := fun _ hb => by cases hb

/-- Where the handler starts. -/
theorem interrupt_ok (hs : s.Good) (hidle : s.handler = .idle) (tick : UInt32) (data : Option UInt8) (answer : Answer) :
    Pc.Ok true s.cursor (match (mouseintr 800 600 s.mouse tick data).2 with
      | none => .idle
      | some c => answer.pc c) := by
  have hwas : Pc.Ok true s.cursor .idle := hidle ▸ hs.handler
  split
  · exact hwas
  · rename_i c hc
    obtain ⟨hx, hy⟩ := mouseintr_call hs.tracked.onScreen hc
    cases answer with
    | refused => exact hwas
    | drawn => exact Or.inr ⟨hx, hy, fun h => hwas rfl (h.resolve_left (by decide))⟩
    | set => exact ⟨rfl, hx, hy⟩
    | stopped => trivial

/-- **One step** keeps the cursor on the screen. -/
theorem step_good (hs : s.Good) (hw : Whole s a) (ha : step 800 600 s a = some t) : t.Good := by
  have htracked := step_tracked hs.tracked ha
  cases a with
  | interrupt tick data answer =>
    simp only [step, Option.ite_none_right_eq_some, Option.some.injEq] at ha
    obtain ⟨hidle, rfl⟩ := ha
    exact ⟨htracked, hs.cursor, interrupt_ok hs hidle tick data answer, hs.process⟩
  | handler =>
    obtain ⟨⟨d, pc'⟩, hd, rfl⟩ := Option.map_eq_some_iff.1 ha
    have hok := hs.handler
    have hstep := hok.step hs.cursor (fun h => by rw [h] at hok; exact absurd hok.1 (by decide)) hd
    exact ⟨htracked, hstep.good, hstep.ok, fun pid => (hs.process pid).kept ⟨hstep.shown, fun hb => by cases hb⟩⟩
  | update pid =>
    simp only [step, Option.ite_none_right_eq_some, Option.some.injEq] at ha
    obtain ⟨-, rfl⟩ := ha
    refine ⟨htracked, hs.cursor, hs.handler, fun q => ?_⟩
    by_cases hq : q = pid
    · subst hq
      simp only [State.setProcess, Function.update_self]
      exact ⟨rfl, hs.cursor.row.imp id fun hy => ⟨hy, hs.cursor.first hy.1, hy.1⟩⟩
    · simpa only [State.setProcess, Function.update_of_ne hq] using hs.process q
  | process pid =>
    obtain ⟨⟨d, pc'⟩, hd, rfl⟩ := Option.map_eq_some_iff.1 ha
    have hstep := (hs.process pid).step hs.cursor hw hd
    refine ⟨htracked, hstep.good, hs.handler.kept ⟨hstep.shown, fun _ => hstep.quiet rfl⟩, fun q => ?_⟩
    by_cases hq : q = pid
    · subst hq
      simpa only [State.setProcess, Function.update_self] using hstep.ok
    · simp only [State.setProcess, Function.update_of_ne hq]
      exact (hs.process q).kept ⟨hstep.shown, fun hb => by cases hb⟩

/-- **The cursor on the screen.** In every run the position stays on the screen, and what completes a packet is the third
of three bytes in a row, of which the first is a first byte. In every run without an update that is torn by the first
cursor, all indices are inside the frame buffer. -/
theorem drawMouse_inside (tr : List Action) (s : State) :
    (run (step 800 600) boot tr = some s →
      (0 ≤ s.mouse.x_position ∧ s.mouse.x_position ≤ 790) ∧ (0 ≤ s.mouse.y_position ∧ s.mouse.y_position ≤ 585) ∧
      ∀ data, completes s.mouse data → ∃ b₀ b₁ b₂ rest, data = some b₂ ∧ s.heard = some b₁ :: some b₀ :: rest ∧
        s.mouse.Header b₀ ∧ s.mouse.x_large_dispalecement = largeDisplacement (displacement s.mouse.x_sign b₁)) ∧
    (Path (step 800 600) Whole boot tr s → ∀ k ∈ s.cursor.used, 0 ≤ k ∧ k < 480000) := by
  constructor
  · intro hrun
    have ht := run_tracked tr s hrun
    refine ⟨ht.onScreen.x, ht.onScreen.y, fun data ⟨hstate, hdata⟩ => ?_⟩
    obtain ⟨b₂, rfl⟩ := Option.ne_none_iff_exists'.1 hdata
    obtain ⟨b₀, b₁, rest, hheard, hhead, hlarge⟩ := ht.synced.third hstate
    exact ⟨b₀, b₁, b₂, rest, rfl, hheard, hhead, hlarge⟩
  · intro hpath
    exact (hpath.invariant State.Good boot_good fun _ _ _ hs hw ha => step_good hs hw ha).cursor.used

/-- A packet that moves the mouse by five pixels, and the handler up to its end. -/
def firstPacket : List Action :=
  [.interrupt 0 none .drawn, .interrupt 0 (some 8) .drawn, .interrupt 0 (some 5) .drawn, .interrupt 0 (some 0) .drawn] ++
    List.replicate (4 + 2 * drawn.length) .handler

/-- The first packet shows the cursor, an update of process 3 draws it again, and a second packet moves it. -/
def wholeUpdate : List Action :=
  firstPacket ++ [.update 3] ++ List.replicate (6 + 2 * (erased.length + drawn.length)) (.process 3) ++
    [.interrupt 0 (some 8) .drawn, .interrupt 0 (some 7) .drawn, .interrupt 0 (some 0) .drawn] ++
    List.replicate (5 + 2 * (erased.length + drawn.length)) .handler

theorem drawMouse_inside_whole : ∃ s, Path (step 800 600) Whole boot wholeUpdate s ∧ s.cursor.mouseX = 12 ∧
    s.cursor.used.length = 2 * erased.length + 3 * drawn.length ∧ (0 ≤ s.mouse.x_position ∧ s.mouse.x_position ≤ 790) ∧
    ∀ k ∈ s.cursor.used, 0 ≤ k ∧ k < 480000 := by
  have hrun : (run (fun s a => if Whole s a then step 800 600 s a else none) boot wholeUpdate).any (fun s =>
      decide (s.cursor.mouseX = 12 ∧ s.cursor.used.length = 2 * erased.length + 3 * drawn.length)) = true := by
    decide +kernel
  obtain ⟨s, hs, hp⟩ := (Option.any_eq_true _ _).1 hrun
  obtain ⟨hx, hused⟩ := of_decide_eq_true hp
  have hpath := Path.of_run hs
  obtain ⟨hpositions, hindices⟩ := drawMouse_inside wholeUpdate s
  exact ⟨s, hpath, hx, hused, (hpositions hpath.run).1, hindices hpath⟩

/-- The update of process 3 has read `mouseY`; the mouse shows the cursor; the update reads `mouseX` and draws. -/
def tornUpdate : List Action :=
  [.update 3] ++ firstPacket ++ List.replicate (7 + 2 * erased.length) (.process 3)

/-- The first cursor tears an update, which writes below the frame buffer. -/
theorem tornUpdate_outside : ∃ s, run (step 800 600) boot tornUpdate = some s ∧ -795 ∈ s.cursor.used := by
  have h : (run (step 800 600) boot tornUpdate).any (fun s => decide (-795 ∈ s.cursor.used)) = true := by
    decide +kernel
  obtain ⟨s, hs, hd⟩ := (Option.any_eq_true _ _).1 h
  exact ⟨s, hs, of_decide_eq_true hd⟩

end Runs

end NewXv6.Mouse
