import NewXv6.Finder.Model
import Mathlib.Logic.Function.Basic

/-!
# Clickable lists in memory (`clickable.c`)

The nodes of the lists are blocks of memory, linked by their addresses: a pointer is an address, or `none` for 0. A call that
reads, writes or frees a block that is not in use has no result. `malloc` gives any block that is not in use, so that a call of
`createClickable` names the block it gets. Where it gives 0, `addClickable` would write through it; that is left out, and so are
sums of a start and a width that are no ints. Handlers are values of any type; which one is run is what `executeHandler`
returns.
-/

namespace NewXv6.Clickables

open Finder (Point Rect isIn)

abbrev Addr : Type := Nat

/-- `struct Clickable`. -/
structure Node (H : Type) where
  area : Rect
  handler : H
  next : Option Addr

/-- The blocks in use, and the blocks that were freed, in order. -/
structure Mem (H : Type) where
  heap : Addr → Option (Node H)
  freed : List Addr

variable {H : Type}

def Mem.write (m : Mem H) (a : Addr) (n : Node H) : Mem H := { m with heap := Function.update m.heap a (some n) }

def Mem.free (m : Mem H) (a : Addr) : Option (Mem H) :=
  (m.heap a).map fun _ => { heap := Function.update m.heap a none, freed := m.freed ++ [a] }

/-- `addClickable`, with the block that `malloc` gives. -/
def addClickable (m : Mem H) (head : Option Addr) (r : Rect) (h : H) (c : Addr) : Mem H × Option Addr :=
  (m.write c ⟨r, h, head⟩, some c)

/-- The loop of `deleteClickable`, with `*head`, `prev` and `cur`; the number bounds the rounds. -/
def deleteLoop (region : Rect) : Nat → Mem H → Option Addr → Option Addr → Option Addr → Option (Mem H × Option Addr)
  | 0, _, _, _, _ => none
  | _ + 1, m, head, _, none => some (m, head)
  | n + 1, m, head, prev, some cur => do
    let c ← m.heap cur
    if isIn c.area.start region then
      if some cur = head then
        -- `*head = cur->next; cur = prev = *head; free(temp);`
        let m ← m.free cur
        deleteLoop region n m c.next c.next c.next
      else
        -- `prev->next = cur->next; temp = cur; cur = cur->next; free(temp);`
        let p ← prev
        let b ← m.heap p
        let m := m.write p { b with next := c.next }
        let c ← m.heap cur
        let m ← m.free cur
        deleteLoop region n m head (some p) c.next
    else if some cur = head then deleteLoop region n m head prev c.next
    else
      let p ← prev
      let b ← m.heap p
      deleteLoop region n m head b.next c.next

def deleteClickable (n : Nat) (m : Mem H) (head : Option Addr) (region : Rect) : Option (Mem H × Option Addr) :=
  deleteLoop region n m head head head

/-- `executeHandler`: the handler that is run, or `none` where it returns 0. -/
def executeHandler (m : Mem H) (click : Point) : Nat → Option Addr → Option (Option H)
  | 0, _ => none
  | _ + 1, none => some none
  | n + 1, some cur => do
    let c ← m.heap cur
    if isIn click c.area then some (some c.handler) else executeHandler m click n c.next

/-! ## Calls -/

/-- The lists of a `ClickableManager`. -/
inductive Field
  | left_click
  | double_click
  | right_click
deriving DecidableEq, Repr

/-- The types of messages that `createClickable` tells apart. -/
inductive MsgType
  | MSG_DOUBLECLICK
  | MSG_LPRESS
  | MSG_RPRESS
  | other
deriving DecidableEq, Repr

/-- The list that `createClickable` adds to. -/
def MsgType.field : MsgType → Option Field
  | .MSG_DOUBLECLICK => some .double_click
  | .MSG_LPRESS => some .left_click
  | .MSG_RPRESS => some .right_click
  | .other => none

inductive Call (H : Type)
  | createClickable (r : Rect) (msgType : MsgType) (h : H) (block : Addr)
  | deleteClickable (head : Field) (region : Rect)
  | executeHandler (head : Field) (click : Point)

/-- The memory, the heads of the lists, and what the calls of `executeHandler` ran so far. -/
structure State (H : Type) where
  mem : Mem H
  cm : Field → Option Addr
  ran : List (Option H)

/-- Why there is no next state: `malloc` does not give a block in use; a memory fault is one of the code. -/
inductive Fault
  | busy
  | memory
deriving DecidableEq, Repr

/-- `initClickManager`. -/
def initClickManager : State H := ⟨⟨fun _ => none, []⟩, fun _ => none, []⟩

def step (n : Nat) (s : State H) : Call H → Except Fault (State H)
  | .createClickable r msgType h block =>
    match msgType.field with
    | none => .ok s
    | some f =>
      if (s.mem.heap block).isSome then .error .busy
      else
        let (mem, head) := addClickable s.mem (s.cm f) r h block
        .ok { s with mem := mem, cm := Function.update s.cm f head }
  | .deleteClickable f region =>
    match deleteClickable n s.mem (s.cm f) region with
    | none => .error .memory
    | some (mem, head) => .ok { s with mem := mem, cm := Function.update s.cm f head }
  | .executeHandler f click =>
    match executeHandler s.mem click n (s.cm f) with
    | none => .error .memory
    | some h => .ok { s with ran := s.ran ++ [h] }

def run (n : Nat) : State H → List (Call H) → Except Fault (State H)
  | s, [] => .ok s
  | s, c :: calls => (step n s c).bind fun s => run n s calls

end NewXv6.Clickables
