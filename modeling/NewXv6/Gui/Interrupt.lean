import NewXv6.Gui.Fifo
import NewXv6.Lib.Path

/-!
# Messages and interrupts

System calls run with interrupts enabled, and `message.c` takes no lock: the mouse or keyboard handler may run a whole
`createMsg` between any two statements of `getMsg` or `dispatch`. A step is one statement of the call that is running,
or such a run of the handler; `requireMsg` is one step. All that matters of `createMsg` is the message it sends, to
any process.

Each message that is accepted gets a number. `tag` has the number of the message that was last put into a slot, and
`returned` what `getMsg` has copied out, so that a run shows which messages are lost, doubled or sent astray.
-/

namespace NewXv6.Gui

open Lib

/-! ## The system -/

/-- A message as it was accepted for a process. -/
structure Accepted where
  pid : Int
  type : Int
  msg : Concrete
deriving DecidableEq

/-- A message that `getMsg` returned to a process, and its number. -/
structure Returned where
  id : Nat
  msg : Accepted
deriving DecidableEq

/-- The next statement of the system call that is running. -/
inductive Pc
  | idle
  /-- `getMsg`: `if(MsgTable[i].pid == pid)`. -/
  | find (pid i : Nat)
  /-- `msg_index = MsgTable[i].first_msg`. -/
  | first (pid : Nat) (i : Fin MAX_PROCESS_NUMBER)
  /-- `ptr->msg_type = MsgQueue[k].msg_type`. -/
  | copyType (pid : Nat) (i : Fin MAX_PROCESS_NUMBER) (k : MsgIndex)
  /-- `ptr->concrete_msg = MsgQueue[k].concrete_msg`. -/
  | copyMsg (pid : Nat) (i : Fin MAX_PROCESS_NUMBER) (k : MsgIndex) (type : Int)
  /-- `if(MsgQueue[k].next_msg == -1)`. -/
  | test (pid : Nat) (i : Fin MAX_PROCESS_NUMBER) (k : MsgIndex) (type : Int) (msg : Concrete)
  /-- `MsgTable[i].pid = -1`. -/
  | drop (pid : Nat) (i : Fin MAX_PROCESS_NUMBER) (k : MsgIndex) (type : Int) (msg : Concrete)
  /-- `MsgTable[i].first_msg = MsgQueue[k].next_msg`. -/
  | next (pid : Nat) (i : Fin MAX_PROCESS_NUMBER) (k : MsgIndex) (type : Int) (msg : Concrete)
  /-- `MsgQueue[k].msg_type = MSG_UNUSED; return`. -/
  | free (pid : Nat) (k : MsgIndex) (type : Int) (msg : Concrete)
  /-- `dispatch` of message `m`: `if(MsgTable[i].pid == pid)`. -/
  | seek (pid : Nat) (m : MsgIndex) (i : Nat)
  /-- `temp_msg_index = MsgTable[i].first_msg`. -/
  | start (pid : Nat) (m : MsgIndex) (i : Fin MAX_PROCESS_NUMBER)
  /-- `while(MsgQueue[t].next_msg != -1)`. -/
  | walk (pid : Nat) (m : MsgIndex) (i : Fin MAX_PROCESS_NUMBER) (t : MsgIndex)
  /-- `temp_msg_index = MsgQueue[t].next_msg`. -/
  | advance (pid : Nat) (m : MsgIndex) (i : Fin MAX_PROCESS_NUMBER) (t : MsgIndex)
  /-- `MsgQueue[t].next_msg = m`. -/
  | link (pid : Nat) (m : MsgIndex) (i : Fin MAX_PROCESS_NUMBER) (t : MsgIndex)
  /-- `MsgQueue[m].next_msg = -1; return`. -/
  | endLink (pid : Nat) (m : MsgIndex) (i : Fin MAX_PROCESS_NUMBER)
  /-- `if(MsgTable[i].pid == -1)`. -/
  | vacant (pid : Nat) (m : MsgIndex) (i : Nat)
  /-- `MsgTable[i].pid = pid`. -/
  | setPid (pid : Nat) (m : MsgIndex) (i : Fin MAX_PROCESS_NUMBER)
  /-- `MsgTable[i].first_msg = m`. -/
  | setFirst (pid : Nat) (m : MsgIndex) (i : Fin MAX_PROCESS_NUMBER)
  /-- `MsgQueue[m].next_msg = -1; break`. -/
  | setNext (pid : Nat) (m : MsgIndex) (i : Fin MAX_PROCESS_NUMBER)

/-- The messages, the system call that is running, and what was accepted and returned. -/
structure MsgState where
  gui : State
  pc : Pc
  tag : MsgIndex → Nat
  accepted : List Accepted
  returned : List Returned

/-- What happens next. -/
inductive MsgAct
  | getMsg (pid : Nat)
  | createUpdateMsg (pid : Nat)
  | createPartialUpdateMsg (pid : Nat) (x1 y1 x2 y2 : Int)
  /-- The next statement of the system call. -/
  | statement
  /-- A key or a mouse event: `createMsg` sends a message to process `pid`. -/
  | interrupt (pid : Nat) (msg_type x y : Int) (key : UInt8)

namespace State

/-- Change a message. -/
def setMsg (g : State) (k : MsgIndex) (f : Msg → Msg) : State :=
  { g with MsgQueue := Function.update g.MsgQueue k (f (g.MsgQueue k)) }

/-- Change an entry of the message table. -/
def setEntry (g : State) (i : Fin MAX_PROCESS_NUMBER) (f : MsgTableEntry → MsgTableEntry) : State :=
  { g with MsgTable := Function.update g.MsgTable i (f (g.MsgTable i)) }

end State

namespace MsgState

/-- The message in slot `i` of `t` is accepted for a process. -/
def accept (s : MsgState) (pid : Nat) (i : MsgIndex) (t : State) : MsgState :=
  { s with
    gui := t
    tag := Function.update s.tag i s.accepted.length
    accepted := s.accepted ++ [⟨pid, (t.MsgQueue i).msg_type, (t.MsgQueue i).concrete_msg⟩] }

/-- A system call that creates a message: `requireMsg`, and `dispatch` begins. -/
def create (s : MsgState) (pid : Nat) (alloc : Act (Option MsgIndex)) : Option MsgState :=
  match (alloc s.gui).1 with
  | .ok (some i, t) => some { s.accept pid i t with pc := .seek pid i 0 }
  | .ok (none, _) => some s
  | .error _ => none

/-- The handler creates a message: `requireMsg` and all of `dispatch`. -/
def interrupt (s : MsgState) (pid : Nat) (alloc : Act (Option MsgIndex)) : Option MsgState :=
  match (alloc s.gui).1 with
  | .ok (some i, t) =>
    match (dispatch pid i t).1 with
    | .ok (_, u) => some { s.accept pid i t with gui := u }
    | .error _ => none
  | .ok (none, _) => some s
  | .error _ => none

/-- The next statement of the system call. -/
def statement (s : MsgState) : Option MsgState :=
  let queue := s.gui.MsgQueue
  let table := s.gui.MsgTable
  match s.pc with
  | .idle => none
  | .find pid i =>
    if h : i < MAX_PROCESS_NUMBER then
      some { s with pc := if (table ⟨i, h⟩).pid = pid then .first pid ⟨i, h⟩ else .find pid (i + 1) }
    else some { s with pc := .idle }
  | .first pid i => some { s with pc := .copyType pid i (table i).first_msg }
  | .copyType pid i k => some { s with pc := .copyMsg pid i k (queue k).msg_type }
  | .copyMsg pid i k type => some { s with pc := .test pid i k type (queue k).concrete_msg }
  | .test pid i k type msg =>
    some { s with pc := if (queue k).next_msg = none then .drop pid i k type msg else .next pid i k type msg }
  | .drop pid i k type msg => some { s with gui := s.gui.setEntry i fun e => { e with pid := -1 }, pc := .free pid k type msg }
  | .next pid i k type msg =>
    match (queue k).next_msg with
    | some n => some { s with gui := s.gui.setEntry i fun e => { e with first_msg := n }, pc := .free pid k type msg }
    | none => none
  | .free pid k type msg =>
    some { s with
      gui := s.gui.setMsg k fun m => { m with msg_type := MSG_UNUSED }
      pc := .idle
      returned := s.returned ++ [⟨s.tag k, ⟨pid, type, msg⟩⟩] }
  | .seek pid m i =>
    if h : i < MAX_PROCESS_NUMBER then
      some { s with pc := if (table ⟨i, h⟩).pid = pid then .start pid m ⟨i, h⟩ else .seek pid m (i + 1) }
    else some { s with pc := .vacant pid m 0 }
  | .start pid m i => some { s with pc := .walk pid m i (table i).first_msg }
  | .walk pid m i t =>
    some { s with pc := if (queue t).next_msg = none then .link pid m i t else .advance pid m i t }
  | .advance pid m i t =>
    match (queue t).next_msg with
    | some n => some { s with pc := .walk pid m i n }
    | none => none
  | .link pid m i t => some { s with gui := s.gui.setMsg t fun x => { x with next_msg := some m }, pc := .endLink pid m i }
  | .endLink _ m _ => some { s with gui := s.gui.setMsg m fun x => { x with next_msg := none }, pc := .idle }
  | .vacant pid m i =>
    if h : i < MAX_PROCESS_NUMBER then
      some { s with pc := if (table ⟨i, h⟩).pid = -1 then .setPid pid m ⟨i, h⟩ else .vacant pid m (i + 1) }
    else some { s with pc := .idle }
  | .setPid pid m i => some { s with gui := s.gui.setEntry i fun e => { e with pid := pid }, pc := .setFirst pid m i }
  | .setFirst pid m i => some { s with gui := s.gui.setEntry i fun e => { e with first_msg := m }, pc := .setNext pid m i }
  | .setNext _ m _ => some { s with gui := s.gui.setMsg m fun x => { x with next_msg := none }, pc := .idle }

/-- The messages `createMsg` sends. -/
def Sends (msg_type : Int) : Prop :=
  msg_type = MSG_KEYDOWN ∨ msg_type = MSG_LPRESS ∨ msg_type = MSG_RPRESS ∨ msg_type = MSG_DOUBLECLICK

instance (msg_type : Int) : Decidable (Sends msg_type) := by unfold Sends; infer_instance

/-- One step. A system call begins when none is running. -/
def step (s : MsgState) : MsgAct → Option MsgState
  | .getMsg pid =>
    match s.pc with
    | .idle => some { s with pc := .find pid 0 }
    | _ => none
  | .createUpdateMsg pid =>
    match s.pc with
    | .idle => s.create pid (requireMsg MSG_UPDATE 0 0 32)
    | _ => none
  | .createPartialUpdateMsg pid x1 y1 x2 y2 =>
    match s.pc with
    | .idle => s.create pid (requirePartialUpdateMsg x1 y1 x2 y2)
    | _ => none
  | .statement => s.statement
  | .interrupt pid msg_type x y key =>
    if Sends msg_type then s.interrupt pid (requireMsg msg_type x y key) else none

/-- After `msgqueueinit` and `msgtableinit`. -/
def init (gui : State) : MsgState where
  gui
  pc := .idle
  tag _ := 0
  accepted := []
  returned := []

/-- Where the handler may send a message to process `pid`: not to the entry whose queue the system call is about to end,
has found the end of, or has not ended yet; not into the free entry it has found; and only if there is an entry for it. -/
def Apart (s : MsgState) (pid : Nat) : Prop :=
  (match s.pc with
    | .drop _ i _ _ _ | .link _ _ i _ | .endLink _ _ i | .setFirst _ _ i | .setNext _ _ i => entryOf s.gui pid ≠ some i
    | .setPid _ _ _ => entryOf s.gui pid ≠ none
    | _ => True) ∧ (entryOf s.gui pid = none → entryOf s.gui (-1) ≠ none)

/-- The condition on a step. -/
def Clear (s : MsgState) : MsgAct → Prop
  | .interrupt pid _ _ _ _ => unusedMsg s.gui ≠ none → s.Apart pid
  | .statement =>
    match s.pc with
    | .vacant _ _ i => i < MAX_PROCESS_NUMBER
    | _ => True
  | _ => True

end MsgState

end NewXv6.Gui
