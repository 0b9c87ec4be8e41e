import NewXv6.Param
import NewXv6.Lib.Circle
import NewXv6.Lib.Run
import Mathlib.Data.Finset.Basic
import Mathlib.Data.List.FinRange

/-!
# The buffer cache (`bio.c`, `ide.c`)

Any number of processes call `bread`, `bwrite`, `log_write` and `brelse`. A step is a section under `bcache.lock`, the
part of a call between two such sections or sleeps, or the end of a disk transfer; transfers may end in any order. A
process that sleeps in `bget` may look again at any time, since `brelse`, the disk and `kill` all end its sleep.

A process puts the new contents into a buffer before it calls `bwrite` or `log_write`: these steps have the contents as
an argument. `latest` has what was last written to each sector, and `reads` what each `bread` returned beside it.
-/

namespace NewXv6

open Lib

/-- Size of the disk block cache. -/
abbrev NBUF : Nat := MAXOPBLOCKS * 3

/-- A device and a sector. -/
abbrev SectorId : Type := Nat × Nat

/-- `struct buf`. `id` is `none` while `dev` is -1. -/
structure Buf (Data : Type) where
  id : Option SectorId
  busy : Bool
  valid : Bool
  dirty : Bool
  data : Data

/-- Where a process is: outside of `bio.c`, before or in a sleep of `bget`, back from `bget` in `bread`, or in `iderw`,
for `bread` or for `bwrite`. -/
inductive BioPc
  | outside
  | bget (id : SectorId)
  | check (b : Fin NBUF)
  | iderw (b : Fin NBUF) (reading : Bool)
  deriving DecidableEq

/-- The panics of `bio.c` and `ide.c`. -/
inductive BioPanic
  | bgetNoBuffers
  | bwrite
  | brelse
  | iderwNotBusy
  | iderwNothingToDo
  deriving DecidableEq

/-- The cache, the disk and the processes. `held` has the buffers that `bget` gave a process and that it has not
released. -/
structure Bcache (Proc Data : Type) where
  buf : Fin NBUF → Buf Data
  list : Circle (Fin NBUF)
  idequeue : List (Fin NBUF)
  disk : SectorId → Data
  pc : Proc → BioPc
  held : Proc → Finset (Fin NBUF)
  panicked : Option BioPanic
  latest : SectorId → Data
  reads : List (Data × Data)

/-- What a process or the disk does in one step. -/
inductive BioAct (Proc Data : Type)
  /-- `bread` is called. -/
  | bread (p : Proc) (id : SectorId)
  /-- The locked section of `bget`. -/
  | bget (p : Proc)
  /-- `if(!(b->flags & B_VALID)) iderw(b)`. -/
  | check (p : Proc)
  /-- `iderw` returns. -/
  | ready (p : Proc)
  | bwrite (p : Proc) (b : Fin NBUF) (data : Data)
  | logWrite (p : Proc) (b : Fin NBUF) (data : Data)
  | brelse (p : Proc) (b : Fin NBUF)
  /-- `ideintr` for buffer `b`. -/
  | ideintr (b : Fin NBUF)

namespace Bcache

variable {Proc Data : Type} [DecidableEq Proc]

/-! ## `bio.c` -/

/-- `binit`: the buffers are put into the list one after the other. -/
def binit (disk : SectorId → Data) (data : Fin NBUF → Data) : Bcache Proc Data where
  buf b := ⟨none, false, false, false, data b⟩
  list := (List.finRange NBUF).foldl Circle.pushFront Circle.empty
  idequeue := []
  disk
  pc _ := .outside
  held _ := ∅
  panicked := none
  latest := disk
  reads := []

/-- Process `p` goes on at `pc`. -/
def goto (s : Bcache Proc Data) (p : Proc) (pc : BioPc) : Bcache Proc Data :=
  { s with pc := Function.update s.pc p pc }

/-- Change a buffer. -/
def setBuf (s : Bcache Proc Data) (b : Fin NBUF) (f : Buf Data → Buf Data) : Bcache Proc Data :=
  { s with buf := Function.update s.buf b (f (s.buf b)) }

/-- `bget` returns buffer `b` to process `p`. -/
def give (s : Bcache Proc Data) (p : Proc) (b : Fin NBUF) : Bcache Proc Data :=
  { s.goto p (.check b) with held := Function.update s.held p (insert b (s.held p)) }

/-- Is the sector already cached? -/
def cached (s : Bcache Proc Data) (id : SectorId) : Option (Option (Fin NBUF)) :=
  seek s.list.links.next (fun b => decide ((s.buf b).id = some id)) NBUF s.list.links.head

/-- A buffer that is not busy and clean, from the end of the list. -/
def clean (s : Bcache Proc Data) : Option (Option (Fin NBUF)) :=
  seek s.list.links.prior (fun b => !(s.buf b).busy && !(s.buf b).dirty) NBUF s.list.links.tail

/-- The section of `bget` under `bcache.lock`: up to its end or to the sleep. -/
def bget (s : Bcache Proc Data) (p : Proc) (id : SectorId) : Option (Bcache Proc Data) :=
  match s.cached id with
  | some (some b) =>
    if (s.buf b).busy then some s
    else some ((s.setBuf b fun x => { x with busy := true }).give p b)
  | some none =>
    match s.clean with
    | some (some b) =>
      some ((s.setBuf b fun x => { x with id := some id, busy := true, valid := false, dirty := false }).give p b)
    | some none => some { s with panicked := some .bgetNoBuffers }
    | none => none
  | none => none

/-- `bread` returns buffer `b`. -/
def read (s : Bcache Proc Data) (p : Proc) (b : Fin NBUF) : Bcache Proc Data :=
  match (s.buf b).id with
  | some id => { s.goto p .outside with reads := s.reads ++ [((s.buf b).data, s.latest id)] }
  | none => s.goto p .outside

/-- `iderw`, up to the sleep. -/
def iderw (s : Bcache Proc Data) (p : Proc) (b : Fin NBUF) (reading : Bool) : Bcache Proc Data :=
  if (s.buf b).busy = false then { s with panicked := some .iderwNotBusy }
  else if (s.buf b).valid ∧ (s.buf b).dirty = false then { s with panicked := some .iderwNothingToDo }
  else { s.goto p (.iderw b reading) with idequeue := s.idequeue ++ [b] }

/-- The rest of `bread`. -/
def check (s : Bcache Proc Data) (p : Proc) (b : Fin NBUF) : Bcache Proc Data :=
  if (s.buf b).valid then s.read p b else s.iderw p b true

/-- New contents for buffer `b`. -/
def write (s : Bcache Proc Data) (b : Fin NBUF) (data : Data) : Bcache Proc Data :=
  { s.setBuf b fun x => { x with data, dirty := true } with
    latest := match (s.buf b).id with
      | some id => Function.update s.latest id data
      | none => s.latest }

/-- `bwrite`, up to the sleep in `iderw`. -/
def bwrite (s : Bcache Proc Data) (p : Proc) (b : Fin NBUF) (data : Data) : Bcache Proc Data :=
  if (s.buf b).busy = false then { s with panicked := some .bwrite } else (s.write b data).iderw p b false

/-- `brelse`. -/
def brelse (s : Bcache Proc Data) (p : Proc) (b : Fin NBUF) : Bcache Proc Data :=
  if (s.buf b).busy = false then { s with panicked := some .brelse }
  else
    { s.setBuf b fun x => { x with busy := false } with
      list := (s.list.unlink b).pushFront b
      held := Function.update s.held p ((s.held p).erase b) }

/-! ## `ide.c` -/

/-- The transfer of buffer `b` ends: its data are read unless it is dirty, or they have been written. -/
def ideintr (s : Bcache Proc Data) (b : Fin NBUF) : Bcache Proc Data :=
  match (s.buf b).id with
  | some id =>
    let s' := { s with idequeue := s.idequeue.erase b }
    if (s.buf b).dirty then
      { s'.setBuf b fun x => { x with valid := true, dirty := false } with
        disk := Function.update s.disk id (s.buf b).data }
    else s'.setBuf b fun x => { x with data := s.disk id, valid := true, dirty := false }
  | none => s

/-! ## Steps -/

/-- One step, if the process is where the action starts, holds the buffer it uses, and nobody has panicked. -/
def step (s : Bcache Proc Data) (a : BioAct Proc Data) : Option (Bcache Proc Data) :=
  if s.panicked ≠ none then none
  else
    match a with
    | .bread p id => if s.pc p = .outside then some (s.goto p (.bget id)) else none
    | .bget p =>
      match s.pc p with
      | .bget id => s.bget p id
      | _ => none
    | .check p =>
      match s.pc p with
      | .check b => some (s.check p b)
      | _ => none
    | .ready p =>
      match s.pc p with
      | .iderw b reading =>
        if (s.buf b).valid ∧ (s.buf b).dirty = false then
          some (if reading then s.read p b else s.goto p .outside)
        else none
      | _ => none
    | .bwrite p b data => if s.pc p = .outside ∧ b ∈ s.held p then some (s.bwrite p b data) else none
    | .logWrite p b data => if s.pc p = .outside ∧ b ∈ s.held p then some (s.write b data) else none
    | .brelse p b => if s.pc p = .outside ∧ b ∈ s.held p then some (s.brelse p b) else none
    | .ideintr b => if b ∈ s.idequeue then some (s.ideintr b) else none

end Bcache

end NewXv6
