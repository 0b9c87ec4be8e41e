import NewXv6.Lib.Run
import Mathlib.Data.List.Basic

/-!
# The Finder

`src/finder.c` shows the items of a directory in a window of 600 × 450 points and works on mouse messages. Three lists are
kept apart: the items (`fileItemList`, each with its place in the window), and the areas that answer a click and a double
click (`src/clickable.c`, `cm.left_click` and `cm.double_click`). A handler that changes the directory reads its entries
again and adds the areas anew. A message comes with the entries `list(".")` finds if the message's handler calls it.

A handler that uses the item at a point where there is none (`getFileItem` returns 0) reads through a null pointer: such
a step is undefined. The name of an item is only used by the calls to the file system, whose effect is in the entries
found after them.
-/

namespace NewXv6.Finder

/-! ## Clickable areas (`clickable.c`) -/

structure Point where
  x : Int
  y : Int
deriving DecidableEq, Repr

structure Rect where
  start : Point
  width : Int
  height : Int
deriving DecidableEq, Repr

def initRect (x y w h : Int) : Rect := ⟨⟨x, y⟩, w, h⟩

def isIn (p : Point) (r : Rect) : Prop :=
  r.start.x ≤ p.x ∧ p.x < r.start.x + r.width ∧ r.start.y ≤ p.y ∧ p.y < r.start.y + r.height

instance (p : Point) (r : Rect) : Decidable (isIn p r) := inferInstanceAs (Decidable (_ ∧ _ ∧ _ ∧ _))

/-- The handlers of the Finder. -/
inductive Handler
  | h_enterDir
  | h_newFile
  | h_newFolder
  | h_deleteFile
  | h_chooseFile
  | h_closeWnd
  | h_empty
  | h_chvm2
  | h_chvm1
  | h_goUp
deriving DecidableEq, Repr

structure Clickable where
  area : Rect
  handler : Handler
deriving DecidableEq, Repr

/-- A new area becomes the head of its list. -/
def addClickable (head : List Clickable) (r : Rect) (h : Handler) : List Clickable := ⟨r, h⟩ :: head

/-- The areas that start in `region` are taken out of the list. -/
def deleteClickable : List Clickable → Rect → List Clickable
  | [], _ => []
  | cur :: next, region =>
    if isIn cur.area.start region then deleteClickable next region else cur :: deleteClickable next region

/-- The area whose handler a click runs: the first one of the list with the point in it. -/
def executeHandler : List Clickable → Point → Option Clickable
  | [], _ => none
  | cur :: next, click => if isIn click cur.area then some cur else executeHandler next click

/-! ## Items -/

abbrev WINDOW_WIDTH : Int := 600
abbrev WINDOW_HEIGHT : Int := 450
abbrev BUTTON_WIDTH : Int := 32
abbrev BUTTON_HEIGHT : Int := 32
abbrev TOPBAR_HEIGHT : Int := 20
abbrev TOOLSBAR_HEIGHT : Int := 50
abbrev TAGBAR_HEIGHT : Int := 28
abbrev ICON_ITEM_WIDTH : Int := 100
abbrev ICON_ITEM_HEIGHT : Int := 95
abbrev ICON_ITEM_GAP_X : Int := 30
abbrev ICON_ITEM_GAP_Y : Int := 20
abbrev LIST_ITEM_HEIGHT : Int := 30
abbrev LIST_ITEM_GAP : Int := 1

/-- How the items are shown (`style`). -/
inductive Style
  | ICON_STYLE
  | LIST_STYLE
deriving DecidableEq, Repr

/-- The type of a file, as `stat` gives it. -/
inductive FileType
  | T_DIR
  | T_FILE
  | T_DEV
deriving DecidableEq, Repr

/-- A directory entry that `stat` succeeds on. -/
structure Entry where
  type : FileType
  name : List Char
deriving DecidableEq, Repr

structure FileItem where
  type : FileType
  name : List Char
  pos : Rect
  chosen : Bool
deriving DecidableEq, Repr

/-- Hidden names are not shown, nor files whose name has no dot. -/
def isListable (name : List Char) (type : FileType) : Bool :=
  if name.head? = some '.' then false
  else if type = .T_DIR then true
  else name.contains '.'

/-- The place of the item with number `n`. -/
def getPos (style : Style) (n : Nat) : Rect :=
  match style with
  | .ICON_STYLE =>
    let m := WINDOW_WIDTH / (ICON_ITEM_WIDTH + ICON_ITEM_GAP_X)
    let r := (n : Int) / m
    let c := (n : Int) % m
    let y_top := r * (ICON_ITEM_HEIGHT + ICON_ITEM_GAP_Y) + TOPBAR_HEIGHT + TOOLSBAR_HEIGHT + ICON_ITEM_GAP_Y
    let x_left := c * (ICON_ITEM_WIDTH + ICON_ITEM_GAP_X)
    initRect x_left y_top ICON_ITEM_WIDTH ICON_ITEM_HEIGHT
  | .LIST_STYLE =>
    initRect 0 (TOPBAR_HEIGHT + TOOLSBAR_HEIGHT + TAGBAR_HEIGHT + n * (LIST_ITEM_HEIGHT + LIST_ITEM_GAP)) WINDOW_WIDTH
      LIST_ITEM_HEIGHT

/-- The items of the entries, the last one first; `itemCounter` counts the ones shown so far. -/
def list (style : Style) : List Entry → Nat → List FileItem → List FileItem
  | [], _, fileItemList => fileItemList
  | de :: des, itemCounter, fileItemList =>
    if isListable de.name de.type then
      list style des (itemCounter + 1) (⟨de.type, de.name, getPos style itemCounter, false⟩ :: fileItemList)
    else list style des itemCounter fileItemList

def getFileItem (point : Point) : List FileItem → Option FileItem
  | [] => none
  | p :: next => if isIn point p.pos then some p else getFileItem point next

/-- The first item at `point` is chosen, or no longer so. -/
def choose (point : Point) : List FileItem → List FileItem
  | [] => []
  | p :: next => if isIn point p.pos then { p with chosen := !p.chosen } :: next else p :: choose point next

/-! ## The window -/

/-- The variables of the Finder. -/
structure Vars where
  style : Style
  fileItemList : List FileItem
  left_click : List Clickable
  double_click : List Clickable
  right_click : List Clickable
  isRun : Bool
deriving DecidableEq, Repr

/-- The places of the buttons (`wndRes`) and their handlers (`wndEvents`). -/
def wndEvents : List (Point × Handler) :=
  [(⟨3, 3⟩, .h_closeWnd),
    (⟨WINDOW_WIDTH / 2 - 22, 3⟩, .h_empty),
    (⟨WINDOW_WIDTH - (BUTTON_WIDTH + 5), TOPBAR_HEIGHT + TOOLSBAR_HEIGHT - (BUTTON_HEIGHT + 3)⟩, .h_chvm2),
    (⟨WINDOW_WIDTH - (2 * BUTTON_WIDTH + 6), TOPBAR_HEIGHT + TOOLSBAR_HEIGHT - (BUTTON_HEIGHT + 3)⟩, .h_chvm1),
    (⟨5, TOPBAR_HEIGHT + TOOLSBAR_HEIGHT - (BUTTON_HEIGHT + 3)⟩, .h_newFolder),
    (⟨BUTTON_WIDTH + 6, TOPBAR_HEIGHT + TOOLSBAR_HEIGHT - (BUTTON_HEIGHT + 3)⟩, .h_newFile),
    (⟨2 * BUTTON_WIDTH + 100, TOPBAR_HEIGHT + TOOLSBAR_HEIGHT - (BUTTON_HEIGHT + 3)⟩, .h_goUp),
    (⟨3 * BUTTON_WIDTH + 110, TOPBAR_HEIGHT + TOOLSBAR_HEIGHT - (BUTTON_HEIGHT + 3)⟩, .h_deleteFile)]

section

-- The width and the height of the button pictures, as loaded.
variable (pic : Handler → Int × Int)

def addWndEvent (left_click : List Clickable) : List Clickable :=
  wndEvents.foldl (fun cm e => addClickable cm ⟨e.1, (pic e.2).1, (pic e.2).2⟩ e.2) left_click

/-- A file can be chosen, a directory also entered; another item has no area. -/
def addItemEvent (f : Vars) (item : FileItem) : Vars :=
  match item.type with
  | .T_FILE => { f with left_click := addClickable f.left_click item.pos .h_chooseFile }
  | .T_DIR =>
    { f with
      left_click := addClickable f.left_click item.pos .h_chooseFile
      double_click := addClickable f.double_click item.pos .h_enterDir }
  | .T_DEV => f

def addListEvent (f : Vars) : Vars := f.fileItemList.foldl addItemEvent f

/-- What the handlers do once the file system has changed: the items are read again and the areas added again. -/
def relist (f : Vars) (des : List Entry) : Vars :=
  addListEvent
    { f with
      fileItemList := list f.style des 0 []
      left_click := addWndEvent pic (deleteClickable f.left_click (initRect 0 0 800 600)) }

/-! ## Handlers -/

def h_enterDir (f : Vars) (p : Point) (des : List Entry) : Option Vars :=
  (getFileItem p f.fileItemList).map fun _ => relist pic f des

def h_newFile (f : Vars) (des : List Entry) : Vars := relist pic f des

def h_newFolder (f : Vars) (des : List Entry) : Vars := relist pic f des

def h_deleteFile (f : Vars) (des : List Entry) : Vars := relist pic f des

def h_chooseFile (f : Vars) (p : Point) : Option Vars :=
  (getFileItem p f.fileItemList).map fun _ => { f with fileItemList := choose p f.fileItemList }

def h_closeWnd (f : Vars) : Vars := { f with isRun := false }

def h_chvm1 (f : Vars) (des : List Entry) : Vars := relist pic { f with style := .ICON_STYLE } des

def h_chvm2 (f : Vars) (des : List Entry) : Vars := relist pic { f with style := .LIST_STYLE } des

def h_goUp (f : Vars) (des : List Entry) : Vars := relist pic f des

def h_empty (f : Vars) : Vars := f

/-- The call of a handler; `none` is the read through a null pointer. -/
def handle (f : Vars) (h : Handler) (p : Point) (des : List Entry) : Option Vars :=
  match h with
  | .h_enterDir => h_enterDir pic f p des
  | .h_newFile => some (h_newFile pic f des)
  | .h_newFolder => some (h_newFolder pic f des)
  | .h_deleteFile => some (h_deleteFile pic f des)
  | .h_chooseFile => h_chooseFile f p
  | .h_closeWnd => some (h_closeWnd f)
  | .h_empty => some (h_empty f)
  | .h_chvm2 => some (h_chvm2 pic f des)
  | .h_chvm1 => some (h_chvm1 pic f des)
  | .h_goUp => some (h_goUp pic f des)

/-! ## Messages -/

inductive MsgType
  | MSG_DOUBLECLICK
  | MSG_LPRESS
  | MSG_RPRESS
deriving DecidableEq, Repr

/-- A mouse message, with the entries `list(".")` finds during it. -/
structure Msg where
  msg_type : MsgType
  point : Point
  found : List Entry
deriving DecidableEq, Repr

/-- The list of areas that answers the message. -/
def Vars.areas (f : Vars) : MsgType → List Clickable
  | .MSG_DOUBLECLICK => f.double_click
  | .MSG_LPRESS => f.left_click
  | .MSG_RPRESS => f.right_click

/-- One turn of the loop of `main`. -/
def step (f : Vars) (msg : Msg) : Option Vars :=
  if f.isRun then
    match executeHandler (f.areas msg.msg_type) msg.point with
    | none => some f
    | some c => handle pic f c.handler msg.point msg.found
  else some f

/-- `main` before its loop, with the entries of `userfolder`. -/
def main (des : List Entry) : Vars := relist pic ⟨.LIST_STYLE, [], [], [], [], true⟩ des

end

end NewXv6.Finder
