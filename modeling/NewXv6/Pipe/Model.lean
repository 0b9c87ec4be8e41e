import NewXv6.Lib.Ring
import NewXv6.Lib.Run

/-!
# Pipes

`pipe.c` as a system of steps: a step is one stretch of a thread under `p->lock`, from its `acquire` (or its return from
`sleep`) to its `release` (or its next `sleep`), or a `kill`. Threads are an arbitrary type `T`. The pipe itself is a ring
buffer whose counters are 32-bit words; the state also keeps the bytes that were appended and removed so far.
-/

namespace NewXv6.Pipes

/-- Bytes in a pipe's buffer. -/
abbrev PIPESIZE : Nat := 512

abbrev Byte := BitVec 8

/-- `struct pipe` without its lock. -/
structure Pipe extends Lib.Ring Byte PIPESIZE 32 where
  readopen : Bool
  writeopen : Bool

/-- Where a thread stands with respect to the pipe, and, in a sleep, whether it has been woken. -/
inductive Pc
  | out
  /-- In `pipewrite`, asleep on `&p->nwrite`: of `n` bytes, `bs` are still to be written. -/
  | sleepWrite (n : Nat) (bs : List Byte)
  | wokenWrite (n : Nat) (bs : List Byte)
  /-- In `piperead` for `n` bytes, asleep on `&p->nread`. -/
  | sleepRead (n : Nat)
  | wokenRead (n : Nat)
deriving DecidableEq

structure State (T : Type) where
  pipe : Pipe
  pc : T → Pc
  killed : T → Bool
  /-- The bytes that `pipewrite` has appended so far. -/
  ins : List Byte
  /-- The bytes that `piperead` has removed so far. -/
  outs : List Byte

/-- The state of a new pipe: `kalloc` leaves arbitrary bytes in the buffer. -/
def pipealloc {T : Type} (data : Nat → Byte) : State T where
  pipe := { data := data, nread := 0, nwrite := 0, readopen := true, writeopen := true }
  pc := fun _ => .out
  killed := fun _ => false
  ins := []
  outs := []

/-! ## Wakeups -/

def Pc.wakeRead : Pc → Pc
  | .sleepRead n => .wokenRead n
  | pc => pc

def Pc.wakeWrite : Pc → Pc
  | .sleepWrite n bs => .wokenWrite n bs
  | pc => pc

namespace State

variable {T : Type} [DecidableEq T] (s : State T)

/-- `wakeup(&p->nread)`. -/
def wakeRead : State T := { s with pc := fun x => (s.pc x).wakeRead }

/-- `wakeup(&p->nwrite)`. -/
def wakeWrite : State T := { s with pc := fun x => (s.pc x).wakeWrite }

def setPc (x : T) (pc : Pc) : State T := { s with pc := Function.update s.pc x pc }

end State

/-! ## The loops of `pipewrite` and `piperead` -/

/-- The rounds of `pipewrite`'s loop until the pipe is full: the pipe afterwards and the bytes still to be written. -/
def fill (p : Pipe) : List Byte → Pipe × List Byte
  | [] => (p, [])
  | b :: bs => if p.full then (p, b :: bs) else fill { p with toRing := p.put b } bs

/-- The rounds of `piperead`'s loop: the pipe afterwards and the bytes read. -/
def drain (p : Pipe) : Nat → Pipe × List Byte
  | 0 => (p, [])
  | n + 1 =>
    if p.empty then (p, [])
    else
      let r := drain { p with toRing := p.take } n
      (r.1, p.front :: r.2)

/-! ## Steps -/

section

variable {T : Type} [DecidableEq T]

/-- A stretch of `pipewrite` by `x`, which was called with `n` bytes and has `bs` left: the state at its end and what it
returns, if it returns. -/
def pipewrite (s : State T) (x : T) (n : Nat) (bs : List Byte) : State T × Option Int :=
  let r := fill s.pipe bs
  let s := { s with pipe := r.1, ins := s.ins ++ bs.take (bs.length - r.2.length) }
  match r.2 with
  | [] => (s.wakeRead.setPc x .out, some n)
  | b :: rest =>
    if !r.1.readopen || s.killed x then (s.setPc x .out, some (-1))
    else (s.wakeRead.setPc x (.sleepWrite n (b :: rest)), none)

/-- A stretch of `piperead` by `x` for `n` bytes: the state at its end and what it returns, if it returns. -/
def piperead (s : State T) (x : T) (n : Nat) : State T × Option Int :=
  if s.pipe.empty && s.pipe.writeopen then
    if s.killed x then (s.setPc x .out, some (-1)) else (s.setPc x (.sleepRead n), none)
  else
    let r := drain s.pipe n
    (({ s with pipe := r.1, outs := s.outs ++ r.2 } : State T).wakeWrite.setPc x .out, some r.2.length)

/-- `pipeclose`, called when the last descriptor of its kind is closed. -/
def pipeclose (s : State T) (writable : Bool) : State T :=
  if writable then ({ s with pipe := { s.pipe with writeopen := false } } : State T).wakeRead
  else ({ s with pipe := { s.pipe with readopen := false } } : State T).wakeWrite

inductive Act (T : Type)
  | write (x : T) (bs : List Byte)
  | read (x : T) (n : Nat)
  /-- A woken thread has the lock again. -/
  | resume (x : T)
  | close (writable : Bool)
  | kill (x : T)

/-- The stretch of `pipewrite` that the action starts. -/
def writes (s : State T) : Act T → Option (T × Nat × List Byte)
  | .write x bs => if s.pc x = .out then some (x, bs.length, bs) else none
  | .resume x =>
    match s.pc x with
    | .wokenWrite n bs => some (x, n, bs)
    | _ => none
  | _ => none

/-- The stretch of `piperead` that the action starts. -/
def reads (s : State T) : Act T → Option (T × Nat)
  | .read x n => if s.pc x = .out then some (x, n) else none
  | .resume x =>
    match s.pc x with
    | .wokenRead n => some (x, n)
    | _ => none
  | _ => none

/-- An end that is open is closed; a thread is killed, which wakes it if it sleeps; or a stretch runs. -/
def step (s : State T) (a : Act T) : Option (State T) :=
  match a with
  | .close writable => if (if writable then s.pipe.writeopen else s.pipe.readopen) then some (pipeclose s writable) else none
  | .kill x =>
    some ({ s with killed := Function.update s.killed x true }.setPc x (s.pc x).wakeRead.wakeWrite)
  | a =>
    match writes s a, reads s a with
    | some (x, n, bs), _ => some (pipewrite s x n bs).1
    | none, some (x, n) => some (piperead s x n).1
    | none, none => none

end

end NewXv6.Pipes
