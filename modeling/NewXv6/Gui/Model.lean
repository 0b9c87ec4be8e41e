import NewXv6.Lib.Prog
import NewXv6.Lib.Links
import Mathlib.Data.List.FinRange
import Mathlib.Algebra.Group.Nat.Defs
import Mathlib.Algebra.Group.Int.Defs

/-!
# Windows and messages (`window.c`, `message.c`, `syswindow.c`)

Windows lie in an array and are linked, from the bottom one to the top one, by `prior_window` and `next_window`. Messages
lie in one array too, linked by `next_msg` into a queue for each process that has any. Keys, mouse events and system
calls run one after the other. A read through a null window pointer leaves an event and gives the window that lies at
address 0, if there is one; a write through it stops the run.
-/

namespace NewXv6.Gui

open Lib

/-! ## Types and constants -/

abbrev MAXWINDOW : Nat := 20
abbrev MAX_PROCESS_NUMBER : Nat := 20
abbrev MAX_QUEUE_LENGTH : Nat := 100

abbrev MSG_NONE : Int := 0
abbrev MSG_UNUSED : Int := 0
abbrev MSG_MOVE : Int := 1
abbrev MSG_LPRESS : Int := 2
abbrev MSG_RPRESS : Int := 3
abbrev MSG_DOUBLECLICK : Int := 4
abbrev MSG_DRAG : Int := 5
abbrev MSG_KEYDOWN : Int := 6
abbrev MSG_UPDATE : Int := 7
abbrev MSG_PARTIAL_UPDATE : Int := 8

/-- What an `int` keeps of a number. -/
def int (x : Int) : Int := x.bmod (2 ^ 32)

abbrev Color : Type := UInt16

/-- A pointer into `window_array` that is not null. -/
abbrev WindowLink : Type := Fin MAXWINDOW

/-- An index into `MsgQueue`. -/
abbrev MsgIndex : Type := Fin MAX_QUEUE_LENGTH

structure Rect where
  left_x : Int
  left_y : Int
  right_x : Int
  right_y : Int
deriving DecidableEq

structure Window where
  window_id : Int
  pid : Int
  window_position : Rect
  prior_window : Option WindowLink
  next_window : Option WindowLink

/-- The union in a message: its four words. The position of a mouse message is in the first two, and the key of a key
message is the low byte of the first. -/
structure Concrete where
  x1 : Int
  y1 : Int
  x2 : Int
  y2 : Int
deriving DecidableEq

/-- `next_msg` is `none` for -1. -/
structure Msg where
  msg_type : Int
  concrete_msg : Concrete
  next_msg : Option MsgIndex

structure MsgTableEntry where
  pid : Int
  first_msg : MsgIndex

/-- The variables of `window.c` and `message.c`, and the size of the screen. -/
structure State where
  window_array : WindowLink → Window
  list_head : Option WindowLink
  list_tail : Option WindowLink
  activated_window : Option WindowLink
  next_window_id : Int
  MsgQueue : MsgIndex → Msg
  MsgTable : Fin MAX_PROCESS_NUMBER → MsgTableEntry
  mouse_x : Int
  mouse_y : Int
  vesa_array : Int → Color
  vesa_buffer : Int → Color
  mouseX : Int
  mouseY : Int
  SCREEN_WIDTH : Int
  SCREEN_HEIGHT : Int

/-- Where a window pointer is used without a check. -/
inductive Site
  | getActivated
  | getWindowByPoint
  | drawScreen
  | createWindow
deriving DecidableEq

/-- Why a run stops: a fault on address 0, a write through a null pointer, a loop that does not end. -/
inductive Fault
  | page
  | wild
  | hang

/-- What is seen of a run: null pointers, the messages a process is sent, was refused, and gets, and what is drawn. -/
inductive Event
  | null (site : Site)
  | accept (pid : Int) (msg_index : MsgIndex) (type : Int) (msg : Concrete)
  | refuse (pid : Int)
  | deliver (pid : Int) (type : Int) (msg : Concrete)
  | none (pid : Int)
  | draw (window clip : Rect)
  | copy (area : Rect)

/-- A function of the window system. -/
abbrev Act : Type → Type := Prog State Fault Event

/-! ## Messages -/

section Messages

/-- Change a message. -/
def setMsg (i : MsgIndex) (f : Msg → Msg) : Act Unit :=
  Prog.modify fun s => { s with MsgQueue := Function.update s.MsgQueue i (f (s.MsgQueue i)) }

/-- Change an entry of the message table. -/
def setEntry (i : Fin MAX_PROCESS_NUMBER) (f : MsgTableEntry → MsgTableEntry) : Act Unit :=
  Prog.modify fun s => { s with MsgTable := Function.update s.MsgTable i (f (s.MsgTable i)) }

/-- The first unused message. -/
def unusedMsg (s : State) : Option MsgIndex :=
  (List.finRange MAX_QUEUE_LENGTH).find? fun i => decide ((s.MsgQueue i).msg_type = MSG_UNUSED)

/-- The union after a key was stored into it. -/
def Concrete.setKey (c : Concrete) (key : UInt8) : Concrete := { c with x1 := c.x1 - c.x1 % 256 + key.toNat }

/-- The union after a mouse position was stored into it. -/
def Concrete.setMouse (c : Concrete) (x y : Int) : Concrete := { c with x1 := x, y1 := y }

/-- Allocate a message. -/
def requireMsg (msg_type pos_x pos_y : Int) (key : UInt8) : Act (Option MsgIndex) := do
  let s ← Prog.get
  match unusedMsg s with
  | some i => do
    setMsg i fun m => { m with
      msg_type
      concrete_msg := if msg_type = MSG_KEYDOWN then m.concrete_msg.setKey key else m.concrete_msg.setMouse pos_x pos_y }
    return some i
  | none => return none

def requirePartialUpdateMsg (x1 y1 x2 y2 : Int) : Act (Option MsgIndex) := do
  let s ← Prog.get
  match unusedMsg s with
  | some i => do
    setMsg i fun m => { m with msg_type := MSG_PARTIAL_UPDATE, concrete_msg := ⟨x1, y1, x2, y2⟩ }
    return some i
  | none => return none

/-- The entry of a process in the message table. -/
def entryOf (s : State) (pid : Int) : Option (Fin MAX_PROCESS_NUMBER) :=
  (List.finRange MAX_PROCESS_NUMBER).find? fun i => decide ((s.MsgTable i).pid = pid)

/-- Append a message to the queue of a process. -/
def dispatch (pid : Int) (msg_index : MsgIndex) : Act Unit := do
  let s ← Prog.get
  match entryOf s pid with
  | some i =>
    -- follow `next_msg` to the last message
    match seek (fun k => (s.MsgQueue k).next_msg) (fun k => (s.MsgQueue k).next_msg.isNone) MAX_QUEUE_LENGTH
      (some (s.MsgTable i).first_msg) with
    | some (some last) => do
      setMsg last fun m => { m with next_msg := some msg_index }
      setMsg msg_index fun m => { m with next_msg := none }
    | _ => Prog.throw .hang
  | none =>
    match entryOf s (-1) with
    | some i => do
      setEntry i fun _ => { pid, first_msg := msg_index }
      setMsg msg_index fun m => { m with next_msg := none }
    | none => pure ()

/-- Send an allocated message to a process: whether there was one. -/
def send (pid : Int) (msg : Option MsgIndex) : Act Bool := do
  match msg with
  | some i => do
    let s ← Prog.get
    Prog.emit (.accept pid i (s.MsgQueue i).msg_type (s.MsgQueue i).concrete_msg)
    dispatch pid i
    return true
  | none => do
    Prog.emit (.refuse pid)
    return false

def createUpdateMsg (pid : Int) : Act Unit := do
  let msg_index ← requireMsg MSG_UPDATE 0 0 32
  discard (send pid msg_index)

def createPartialUpdateMsg (pid x1 y1 x2 y2 : Int) : Act Unit := do
  let msg_index ← requirePartialUpdateMsg x1 y1 x2 y2
  discard (send pid msg_index)

/-- Take the first message of a process. -/
def getMsg (pid : Int) : Act Unit := do
  let s ← Prog.get
  match entryOf s pid with
  | some i => do
    let msg_index := (s.MsgTable i).first_msg
    let msg := s.MsgQueue msg_index
    Prog.emit (.deliver pid msg.msg_type msg.concrete_msg)
    match msg.next_msg with
    | none => setEntry i fun e => { e with pid := -1 }
    | some next => setEntry i fun e => { e with first_msg := next }
    setMsg msg_index fun m => { m with msg_type := MSG_UNUSED }
  | none => Prog.emit (.none pid)

end Messages

/-! ## Drawing -/

section Drawing

/-- The values of `for (i = a; i < b; i++)`. -/
def ints (a b : Int) : List Int := (List.range (b - a).toNat).map fun k : Nat => a + (k : Int)

/-- The pixels of a rectangle, row by row. -/
def pixels (r : Rect) : List (Int × Int) :=
  (ints r.left_y r.right_y).flatMap fun j => (ints r.left_x r.right_x).map fun i => (i, j)

/-- `j * SCREEN_WIDTH + i`. -/
def screenIndex (width i j : Int) : Int := int (int (j * width) + i)

/-- `(j - y1) * (x2 - x1) + i - x1`. -/
def contextIndex (r : Rect) (i j : Int) : Int :=
  int (int (int (int (j - r.left_y) * int (r.right_x - r.left_x)) + i) - r.left_x)

/-- Write the pixels `ps` of a window. -/
def paint (width : Int) (r : Rect) (context : Int → Color) (ps : List (Int × Int)) (buffer : Int → Color) : Int → Color :=
  ps.foldl (fun b p => Function.update b (screenIndex width p.1 p.2) (context (contextIndex r p.1 p.2))) buffer

/-- Copy the pixels `ps` of the buffer to the screen. -/
def copyPixels (width : Int) (ps : List (Int × Int)) (buffer screen : Int → Color) : Int → Color :=
  ps.foldl (fun b p => Function.update b (screenIndex width p.1 p.2) (buffer (screenIndex width p.1 p.2))) screen

/-- The picture of the mouse; 2016 is transparent. -/
def mouse : List (List Color) := [
  [65535, 65535, 65535, 65535, 65535, 65535, 65535, 65535, 65535, 65535, 65535, 65535, 2016, 2016, 2016],
  [65535, 2113, 0, 0, 0, 0, 0, 0, 0, 0, 27501, 65535, 2016, 2016, 2016],
  [65535, 65535, 6307, 0, 0, 0, 0, 0, 0, 27502, 65535, 65535, 2016, 2016, 2016],
  [2016, 65535, 65535, 2113, 0, 0, 0, 0, 0, 29614, 65535, 2016, 2016, 2016, 2016],
  [2016, 2016, 65535, 65535, 2113, 0, 0, 0, 0, 0, 6371, 65535, 65535, 65535, 2016],
  [2016, 2016, 2016, 65535, 65535, 32, 0, 0, 27437, 16968, 0, 0, 12710, 65535, 65535],
  [2016, 2016, 2016, 2016, 65535, 65535, 0, 0, 65535, 65535, 42292, 6371, 0, 0, 65535],
  [2016, 2016, 2016, 2016, 2016, 65535, 65535, 0, 65535, 65535, 65535, 65535, 31727, 2145, 65535],
  [2016, 2016, 2016, 2016, 2016, 2016, 65535, 65535, 65535, 2016, 2016, 65535, 65535, 65535, 65535],
  [2016, 2016, 2016, 2016, 2016, 2016, 2016, 65535, 65535, 2016, 2016, 2016, 2016, 2016, 2016]]

/-- The pixel of the mouse at column `i` and row `j`. -/
def mousePixel (i j : Int) : Color := (mouse.getD i.toNat []).getD j.toNat 2016

/-- The rectangle of the mouse's picture, relative to its position. -/
def mouseRect : Rect := ⟨0, 0, 10, 15⟩

/-- `(j + mouseY) * SCREEN_WIDTH + i + mouseX`. -/
def mouseIndex (width mouseX mouseY i j : Int) : Int := int (int (int (int (j + mouseY) * width) + i) + mouseX)

/-- The screen with the buffer put back where the mouse was. -/
def State.withoutMouse (s : State) : Int → Color :=
  (pixels mouseRect).foldl (fun b p =>
    Function.update b (mouseIndex s.SCREEN_WIDTH s.mouseX s.mouseY p.1 p.2)
      (s.vesa_buffer (mouseIndex s.SCREEN_WIDTH s.mouseX s.mouseY p.1 p.2))) s.vesa_array

/-- The screen with the mouse. -/
def State.withMouse (s : State) : Int → Color :=
  (pixels mouseRect).foldl (fun b p =>
    if mousePixel p.1 p.2 = 2016 then b
    else Function.update b (mouseIndex s.SCREEN_WIDTH s.mouseX s.mouseY p.1 p.2) (mousePixel p.1 p.2)) s.vesa_array

def drawMouse (x y : Int) : Act Unit := do
  if x < 0 then pure ()
  else do
    Prog.modify fun s => if 0 ≤ s.mouseX then { s with vesa_array := s.withoutMouse } else s
    Prog.modify fun s => { s with mouseX := x, mouseY := y }
    Prog.modify fun s => { s with vesa_array := s.withMouse }

def setMouse (x y : Int) : Act Unit := Prog.modify fun s => { s with mouseX := x, mouseY := y }

/-- `memmove(vesa_array, vesa_buffer, ..)`. -/
def flush (s : State) : Int → Color := fun k =>
  if 0 ≤ k ∧ k < s.SCREEN_WIDTH * s.SCREEN_HEIGHT then s.vesa_buffer k else s.vesa_array k

end Drawing

/-! ## Windows -/

section Windows

-- the window at address 0, if there is memory there
variable (zero : Option Window)

/-- Change a window. -/
def State.setWindow (s : State) (p : WindowLink) (f : Window → Window) : State :=
  { s with window_array := Function.update s.window_array p (f (s.window_array p)) }

/-- `*p`, without a check. -/
def deref (site : Site) (p : Option WindowLink) : Act Window := do
  match p with
  | some p => do
    let s ← Prog.get
    return s.window_array p
  | none => do
    Prog.emit (.null site)
    match zero with
    | some w => return w
    | none => Prog.throw .page

def State.setPrior (s : State) (p : WindowLink) (v : Option WindowLink) : State :=
  s.setWindow p fun w => { w with prior_window := v }

def State.setNext (s : State) (p : WindowLink) (v : Option WindowLink) : State :=
  s.setWindow p fun w => { w with next_window := v }

/-- `p` is the first window of an empty list. -/
def State.startList (s : State) (p : WindowLink) : State := if s.list_head = none then { s with list_head := some p } else s

/-- `p` follows the last window. -/
def State.linkTail (s : State) (p : WindowLink) : State :=
  match s.list_tail with
  | some tail => s.setNext tail (some p)
  | none => s

/-- Append `p` to the list. -/
def State.pushTail (s : State) (p : WindowLink) : State :=
  let s := (s.startList p).linkTail p
  let s := s.setPrior p s.list_tail
  let s := { s with list_tail := some p }
  s.setNext p none

/-- The window before `p` gets its next window. -/
def State.skipNext (s : State) (p : WindowLink) : State :=
  match (s.window_array p).prior_window with
  | some prior => s.setNext prior (s.window_array p).next_window
  | none => { s with list_head := (s.window_array p).next_window }

/-- The window after `p` gets its prior window. -/
def State.skipPrior (s : State) (p : WindowLink) : State :=
  match (s.window_array p).next_window with
  | some next => s.setPrior next (s.window_array p).prior_window
  | none => { s with list_tail := (s.window_array p).prior_window }

/-- Take `p` out of the list. -/
def State.unlink (s : State) (p : WindowLink) : State := (s.skipNext p).skipPrior p

/-- The slot `p` becomes a window. -/
def State.fillWindow (s : State) (p : WindowLink) (window_position : Rect) (pid : Int) : State :=
  { s with
    window_array := Function.update s.window_array p { s.window_array p with
      window_id := s.next_window_id, pid, window_position }
    next_window_id := int (s.next_window_id + 1) }

def allocWindow (window_position : Rect) (pid : Int) : Act (Option WindowLink) := do
  let s ← Prog.get
  match (List.finRange MAXWINDOW).find? fun p => decide ((s.window_array p).window_id ≤ 0) with
  | some p => do
    Prog.modify fun s => s.fillWindow p window_position pid
    Prog.modify fun s => s.pushTail p
    Prog.modify fun s => { s with activated_window := some p }
    createUpdateMsg pid
    return some p
  | none => return none

/-- A search that has to end. -/
def ended (r : Option (Option WindowLink)) : Act (Option WindowLink) :=
  match r with
  | some p => pure p
  | none => Prog.throw .hang

def inClientRect (r : Rect) (x y : Int) : Bool := r.left_x ≤ x ∧ r.right_x > x ∧ r.left_y ≤ y ∧ r.right_y > y

/-- The first window from the bottom with an id. -/
def getWindowById (window_id : Int) : Act (Option WindowLink) := do
  let s ← Prog.get
  ended (seek (fun p => (s.window_array p).next_window) (fun p => (s.window_array p).window_id = window_id)
    MAXWINDOW s.list_head)

/-- The first window from the top with a point. -/
def getWindowByPoint (x y : Int) : Act (Option WindowLink) := do
  let s ← Prog.get
  ended (seek (fun p => (s.window_array p).prior_window) (fun p => inClientRect (s.window_array p).window_position x y)
    MAXWINDOW s.list_tail)

def drawScreen : Act Unit := do
  let s ← Prog.get
  let w ← deref zero .drawScreen s.list_head
  createUpdateMsg w.pid

def drawScreenArea (x1 y1 x2 y2 : Int) : Act Unit := do
  let s ← Prog.get
  let w ← deref zero .drawScreen s.list_head
  createPartialUpdateMsg w.pid x1 y1 x2 y2

/-- Whether there was a window with the id. The loop is that of `getWindowById`. -/
def releaseWindow (window_id : Int) : Act Bool := do
  let p ← getWindowById window_id
  match p with
  | some p => do
    Prog.modify fun s => s.unlink p
    Prog.modify fun s => s.setWindow p fun w => { w with window_id := -1 }
    drawScreen zero
    return true
  | none => return false

def setActivated (p : Option WindowLink) : Act Unit := do
  let s ← Prog.get
  if p = s.list_head then Prog.modify fun s => { s with activated_window := p }
  else
    match p with
    | some p => do
      Prog.modify fun s => s.unlink p
      Prog.modify fun s => s.pushTail p
      Prog.modify fun s => { s with activated_window := some p }
      let s ← Prog.get
      createUpdateMsg (s.window_array p).pid
    | none => Prog.throw .wild

def drawWindow (p : WindowLink) (context : Int → Color) : Act Unit := do
  let s ← Prog.get
  let r := (s.window_array p).window_position
  Prog.emit (.draw r r)
  Prog.modify fun s => { s with vesa_buffer := paint s.SCREEN_WIDTH r context (pixels r) s.vesa_buffer }
  match (s.window_array p).next_window with
  | some next => createUpdateMsg (s.window_array next).pid
  | none => do
    Prog.modify fun s => { s with vesa_array := flush s }
    drawMouse s.mouseX s.mouseY

def getIntersection (a b : Rect) : Rect where
  left_x := max a.left_x b.left_x
  right_x := min a.right_x b.right_x
  left_y := max a.left_y b.left_y
  right_y := min a.right_y b.right_y

def drawArea (p : WindowLink) (context : Int → Color) (area : Rect) : Act Unit := do
  let s ← Prog.get
  let r := (s.window_array p).window_position
  let dest := getIntersection area r
  Prog.emit (.draw r dest)
  Prog.modify fun s => { s with vesa_buffer := paint s.SCREEN_WIDTH r context (pixels dest) s.vesa_buffer }
  match (s.window_array p).next_window with
  | some next => createPartialUpdateMsg (s.window_array next).pid area.left_x area.left_y area.right_x area.right_y
  | none => do
    Prog.emit (.copy area)
    Prog.modify fun s => { s with vesa_array := copyPixels s.SCREEN_WIDTH (pixels area) s.vesa_buffer s.vesa_array }
    drawMouse s.mouseX s.mouseY

/-! ## Keys and the mouse -/

/-- The end of a mouse event: the mouse is at its new position. -/
def mouseMoved (pos_x pos_y : Int) : Act Unit := do
  Prog.modify fun s => { s with mouse_x := pos_x, mouse_y := pos_y }
  drawMouse pos_x pos_y

/-- A window moved by `dx` and `dy`. -/
def Rect.move (r : Rect) (dx dy : Int) : Rect :=
  ⟨int (r.left_x + dx), int (r.left_y + dy), int (r.right_x + dx), int (r.right_y + dy)⟩

/-- The window stays on the screen. -/
def State.legalMove (s : State) (r : Rect) (dx dy : Int) : Prop :=
  0 ≤ int (r.left_x + dx) ∧ 0 ≤ int (r.left_y + dy) ∧ int (r.right_x + dx) < s.SCREEN_WIDTH ∧
    int (r.right_y + dy) < s.SCREEN_HEIGHT

instance (s : State) (r : Rect) (dx dy : Int) : Decidable (s.legalMove r dx dy) := by
  unfold State.legalMove
  infer_instance

/-- The window under the mouse is dragged. -/
def dragWindow (p : WindowLink) (pos_x pos_y : Int) : Act Unit := do
  let s ← Prog.get
  if (s.window_array p).prior_window = none then mouseMoved pos_x pos_y
  else do
    let r := (s.window_array p).window_position
    let dx := int (pos_x - s.mouse_x)
    let dy := int (pos_y - s.mouse_y)
    if s.legalMove r dx dy then do
      Prog.modify fun s => s.setWindow p fun w => { w with window_position := r.move dx dy }
      drawScreen zero
      Prog.modify fun s => { s with mouse_x := pos_x, mouse_y := pos_y }
      setMouse pos_x pos_y
    else mouseMoved pos_x pos_y

/-- A key was pressed, or the mouse did something. -/
def createMsg (msg_type pos_x pos_y : Int) (key : UInt8) : Act Unit := do
  if msg_type = MSG_KEYDOWN then do
    let s ← Prog.get
    let w ← deref zero .getActivated s.activated_window
    let msg_index ← requireMsg msg_type pos_x pos_y key
    discard (send w.pid msg_index)
  else do
    Prog.modify fun s => { s with
      mouse_x := if s.mouse_x = -1 then pos_x else s.mouse_x
      mouse_y := if s.mouse_y = -1 then pos_y else s.mouse_y }
    let win_ptr ← getWindowByPoint pos_x pos_y
    let w ← deref zero .getWindowByPoint win_ptr
    if msg_type = MSG_LPRESS ∨ msg_type = MSG_RPRESS ∨ msg_type = MSG_DOUBLECLICK then do
      setActivated win_ptr
      let msg_index ← requireMsg msg_type (int (pos_x - w.window_position.left_x)) (int (pos_y - w.window_position.left_y)) key
      let sent ← send w.pid msg_index
      if sent then mouseMoved pos_x pos_y else pure ()
    else if msg_type = MSG_DRAG then do
      setActivated win_ptr
      match win_ptr with
      | some p => dragWindow zero p pos_x pos_y
      | none => Prog.throw .wild
    else mouseMoved pos_x pos_y

/-! ## System calls -/

/-- The arguments are `none` where `argint` fails. -/
def sys_createWindow (pid : Int) (position : Option Rect) : Act Int := do
  match position with
  | some position => do
    let p ← allocWindow position pid
    let w ← deref zero .createWindow p
    return w.window_id
  | none => return -1

def sys_destroyWindow (window_id : Option Int) : Act Int := do
  match window_id with
  | some window_id => do
    let released ← releaseWindow zero window_id
    return if released then 0 else -1
  | none => return -1

/-- The number of pixels of a window, as the system calls compute it. -/
def Rect.count (r : Rect) : Int := int (int (r.right_x - r.left_x) * int (r.right_y - r.left_y))

/-- `argptr` gives the memory at the pointer if it accepts the number of bytes. -/
def sys_updateWindow (window_id : Option Int) (argptr : Int → Option (Int → Color)) : Act Int := do
  match window_id with
  | some window_id => do
    let p ← getWindowById window_id
    match p with
    | some p => do
      let s ← Prog.get
      let size := (s.window_array p).window_position.count
      if size < 0 then return -1
      else
        match argptr (int (2 * size)) with
        | some context => do
          drawWindow p context
          return 0
        | none => return -1
    | none => return -1
  | none => return -1

def sys_updatePartialWindow (window_id : Option Int) (argptr : Int → Option (Int → Color)) (area : Option Rect) :
    Act Int := do
  match window_id with
  | some window_id => do
    let p ← getWindowById window_id
    match p with
    | some p => do
      let s ← Prog.get
      let size := (s.window_array p).window_position.count
      if size < 0 then return -1
      else
        match argptr (int (2 * size)), area with
        | some context, some area => do
          drawArea p context area
          return 0
        | _, _ => return -1
    | none => return -1
  | none => return -1

/-! ## Runs -/

/-- What happens to the window system: a system call of a process, a key, or a mouse event. -/
inductive Input
  | createWindow (pid : Int) (position : Option Rect)
  | destroyWindow (window_id : Option Int)
  | updateWindow (window_id : Option Int) (argptr : Int → Option (Int → Color))
  | updatePartialWindow (window_id : Option Int) (argptr : Int → Option (Int → Color)) (area : Option Rect)
  | getMsg (pid : Int)
  | key (key : UInt8)
  | mouse (msg_type pos_x pos_y : Int)

def input : Input → Act Unit
  | .createWindow pid position => discard (sys_createWindow zero pid position)
  | .destroyWindow window_id => discard (sys_destroyWindow zero window_id)
  | .updateWindow window_id argptr => discard (sys_updateWindow window_id argptr)
  | .updatePartialWindow window_id argptr area => discard (sys_updatePartialWindow window_id argptr area)
  | .getMsg pid => getMsg pid
  | .key key => createMsg zero MSG_KEYDOWN 0 0 key
  | .mouse msg_type pos_x pos_y => createMsg zero msg_type pos_x pos_y 0

/-- One input after the other. -/
def inputs (tr : List Input) : Act Unit := Prog.forEach (input zero) tr

end Windows

/-- The state after `windowlistinit`, `msgqueueinit` and `msgtableinit`, with the screen as it is found. -/
def init (width height : Int) (screen : Int → Color) : State where
  window_array := fun _ => ⟨0, 0, ⟨0, 0, 0, 0⟩, none, none⟩
  list_head := none
  list_tail := none
  activated_window := none
  next_window_id := 1
  MsgQueue := fun _ => ⟨MSG_UNUSED, ⟨0, 0, 0, 0⟩, some 0⟩
  MsgTable := fun _ => ⟨-1, 0⟩
  mouse_x := -1
  mouse_y := -1
  vesa_array := screen
  vesa_buffer := fun _ => 0
  mouseX := -1
  mouseY := -1
  SCREEN_WIDTH := width
  SCREEN_HEIGHT := height

end NewXv6.Gui
