import NewXv6.Gui.Model
import NewXv6.Lib.Run

/-!
# The mouse (`mouse.c`)

The mouse sends packets of three bytes, and interrupts for each byte; an interrupt may also find the port empty. What
`mouseintr` makes of a packet is a call of `createMsg`.
-/

namespace NewXv6.Mouse

open Gui

abbrev SIZE_X_MOUSE : Int := 10
abbrev SIZE_Y_MOUSE : Int := 15

/-! ## `mouse.h` -/

abbrev DOUBLE_CLICK_DELAY : Int := 30

/-- `event`; 0 is `none`. -/
inductive Event
  | none
  | LEFT_CLICK
  | RIGHT_CLICK
  | DOUBLE_CLICK
  | DRAGGING
  | DRAG_RELEASE
  deriving DecidableEq

/-! ## `mouse.c` -/

/-- The variables of `mouse.c` that are read somewhere. -/
structure Vars where
  x_large_dispalecement : Bool
  y_large_dispalecement : Bool
  state : Nat
  left_down : Bool
  right_down : Bool
  x_sign : Bool
  y_sign : Bool
  left_already_down : Bool
  right_already_down : Bool
  left_click_tick : Int
  is_dragging : Bool
  x_position : Int
  y_position : Int
  deriving DecidableEq

/-- After boot. -/
def init : Vars := ⟨false, false, 0, false, false, false, false, false, false, -20, false, 0, 0⟩

/-- A call of `createMsg`. -/
structure MsgCall where
  msg_type : Int
  pos_x : Int
  pos_y : Int
  deriving DecidableEq

/-- The first byte of a packet. -/
def firstByte (ch : UInt8) : Prop := ch &&& 0x08 ≠ 0 ∧ ch &&& 0x04 = 0

instance (ch : UInt8) : Decidable (firstByte ch) := by
  unfold firstByte
  infer_instance

/-- A displacement, from its sign and a byte. -/
def displacement (sign : Bool) (ch : UInt8) : Int := if sign then ch.toNat - 256 else ch.toNat

def largeDisplacement (dis : Int) : Bool := dis = 127 ∨ dis = -127

/-- The position stays on a screen of `size` pixels, with room for `room` pixels. -/
def clamp (size room x : Int) : Int :=
  let x := if x < 0 then 0 else x
  if x > size - room then size - room else x

/-- The event of a packet, after it has been received. -/
def buttons (s : Vars) (tick : UInt32) : Event × Vars :=
  if s.left_already_down = false ∧ s.right_already_down = false then
    if s.left_down then (.none, { s with left_already_down := true })
    else if s.right_down then (.none, { s with right_already_down := true })
    else (.none, s)
  else if s.left_already_down then
    if s.left_down then (.DRAGGING, { s with is_dragging := true })
    else if s.is_dragging then (.DRAG_RELEASE, { s with is_dragging := false, left_already_down := false })
    else if int (tick.toNat - s.left_click_tick) > DOUBLE_CLICK_DELAY then
      (.LEFT_CLICK, { s with left_click_tick := int tick.toNat, left_already_down := false })
    else (.DOUBLE_CLICK, { s with left_click_tick := -DOUBLE_CLICK_DELAY, left_already_down := false })
  else if s.right_down then (.none, s)
  else (.RIGHT_CLICK, { s with right_already_down := false })

def msgType : Event → Int
  | .LEFT_CLICK => MSG_LPRESS
  | .RIGHT_CLICK => MSG_RPRESS
  | .DOUBLE_CLICK => MSG_DOUBLECLICK
  | .DRAGGING => MSG_DRAG
  | .DRAG_RELEASE => MSG_NONE
  | .none => MSG_MOVE

/-- What is done when a packet is complete. -/
def complete (s : Vars) (tick : UInt32) : Vars × Option MsgCall :=
  let r := buttons s tick
  (r.2, if r.2.x_large_dispalecement = false ∧ r.2.y_large_dispalecement = false then
    some ⟨msgType r.1, r.2.x_position, r.2.y_position⟩ else none)

/-- The handler: `data` is the byte in the port, if there is one. -/
def mouseintr (SCREEN_WIDTH SCREEN_HEIGHT : Int) (s : Vars) (tick : UInt32) (data : Option UInt8) : Vars × Option MsgCall :=
  match data with
  | none => ({ s with state := 1 }, none)
  | some ch =>
    match s.state with
    | 1 =>
      if firstByte ch then
        ({ s with
          left_down := ch &&& 0x01 ≠ 0
          right_down := ch &&& 0x02 ≠ 0
          x_sign := ch &&& 0x10 ≠ 0
          y_sign := ch &&& 0x20 ≠ 0
          state := 2 }, none)
      else (s, none)
    | 2 =>
      let dis := displacement s.x_sign ch
      ({ s with
        x_large_dispalecement := largeDisplacement dis
        x_position := clamp SCREEN_WIDTH SIZE_X_MOUSE (s.x_position + dis)
        state := 3 }, none)
    | 3 =>
      let dis := displacement s.y_sign ch
      complete { s with
        y_large_dispalecement := largeDisplacement dis
        y_position := clamp SCREEN_HEIGHT SIZE_Y_MOUSE (s.y_position - dis)
        state := 1 } tick
    | _ => ({ s with state := 1 }, none)

/-! ## What the handler keeps -/

section

variable {s : Vars} {tick : UInt32}

theorem clamp_mem {size room : Int} (h : room ≤ size) (x : Int) : 0 ≤ clamp size room x ∧ clamp size room x ≤ size - room := by
  unfold clamp
  dsimp only
  split
  · split <;> omega
  · split <;> omega

/-- The buttons leave the rest alone. -/
theorem buttons_rest (s : Vars) (tick : UInt32) : ∃ a b c d, (buttons s tick).2 =
    { s with left_already_down := a, right_already_down := b, left_click_tick := c, is_dragging := d } := by
  unfold buttons
  split
  · split
    · exact ⟨_, _, _, _, rfl⟩
    · split
      · exact ⟨_, _, _, _, rfl⟩
      · exact ⟨_, _, _, _, rfl⟩
  · split
    · split
      · exact ⟨_, _, _, _, rfl⟩
      · split
        · exact ⟨_, _, _, _, rfl⟩
        · split
          · exact ⟨_, _, _, _, rfl⟩
          · exact ⟨_, _, _, _, rfl⟩
    · split
      · exact ⟨_, _, _, _, rfl⟩
      · exact ⟨_, _, _, _, rfl⟩

end

end NewXv6.Mouse
