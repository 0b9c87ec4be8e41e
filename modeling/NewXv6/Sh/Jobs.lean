import NewXv6.Param
import NewXv6.Pipe.Model
import NewXv6.Sh.Model

/-!
# The processes that run a command (`runcmd` of `sh.c`)

`runcmd` forks a process for each part of a command, and these run side by side. The state is the tree of the processes
with the number of unread bytes in each pipe; a step is one system call of one process that does not sleep in it. A
process runs `runcmd` or a program that `exec` has loaded, of which nothing is known but its descriptors and what it
sleeps in: reads, writes and `wait`. Programs open no pipes of their own, and no process is killed.
-/

namespace NewXv6.Sh

open Pipes (PIPESIZE)

/-! ## Descriptors -/

/-- What an open descriptor stands for. -/
inductive Obj
  /-- Open before the command. -/
  | given (k : Nat)
  /-- Opened by a redirection. -/
  | file (name : Word) (mode : Mode)
  | readEnd (n : Nat)
  | writeEnd (n : Nat)
  deriving DecidableEq

/-- The number of a pipe, for its two ends. -/
def Obj.pipe? : Obj → Option Nat
  | .readEnd n | .writeEnd n => some n
  | _ => none

/-- `ofile` of a process. -/
abbrev Fds := Nat → Option Obj

namespace Fds

variable (f : Fds)

/-- `fdalloc`: the lowest descriptor that is free. -/
def fdalloc (x : Obj) : Option (Nat × Fds) :=
  ((List.range NOFILE).find? fun fd => (f fd).isNone).map fun fd => (fd, Function.update f fd (some x))

def close (fd : Nat) : Fds := Function.update f fd none

/-- `dup`, which fails without an effect. -/
def dup (fd : Nat) : Fds := ((f fd).bind f.fdalloc).elim f Prod.snd

end Fds

/-- Descriptors 0, 1 and 2, and no others. -/
def std (i o e : Obj) : Fds := fun fd => [i, o, e][fd]?

/-! ## What `runcmd` does -/

/-- What is left to do of `runcmd`. -/
inductive Op
  | runcmd (cmd : Cmd)
  | close (fd : Nat)
  | dup (fd : Nat)
  | openFile (r : Redir)
  /-- The two calls of `exec`, of which either may load a program. -/
  | exec (argv : List Word)
  | pipe (left right : Cmd)
  /-- `fork1`, with what the child does. -/
  | fork1 (child : List Op)
  | wait

/-- The operations after which a failure leads to `exit`. -/
inductive Op.MayFail : Op → Prop
  | openFile {r : Redir} : MayFail (.openFile r)
  | exec {argv : List Word} : MayFail (.exec argv)
  | pipe {left right : Cmd} : MayFail (.pipe left right)
  | fork1 {child : List Op} : MayFail (.fork1 child)

/-- `runcmd` up to its `exit`. -/
def runcmd : Cmd → List Op
  | .exec [] => []
  | .exec (a :: argv) => [.exec (a :: argv)]
  | .redir cmd r => [.close r.fd, .openFile r, .runcmd cmd]
  | .list left right => [.fork1 [.runcmd left], .wait, .runcmd right]
  | .pipe left right => [.pipe left right]
  | .back cmd => [.fork1 [.runcmd cmd]]

/-- The child on the left of a pipe. -/
def leftChild (p0 p1 : Nat) (left : Cmd) : List Op := [.close 1, .dup p1, .close p0, .close p1, .runcmd left]

/-- The child on the right of a pipe. -/
def rightChild (p0 p1 : Nat) (right : Cmd) : List Op := [.close 0, .dup p0, .close p0, .close p1, .runcmd right]

/-- The case `PIPE` of `runcmd` after `pipe(p)`. -/
def afterPipe (p0 p1 : Nat) (left right : Cmd) : List Op :=
  [.fork1 (leftChild p0 p1 left), .fork1 (rightChild p0 p1 right), .close p0, .close p1, .wait, .wait]

/-! ## Processes -/

/-- What a program does next. -/
inductive Act
  | ready
  | read (fd : Nat)
  | write (fd : Nat)
  | wait

inductive Proc
  | shell (ops : List Op) (f : Fds)
  | program (a : Act) (f : Fds)
  | zombie

/-- A process with its children, the oldest outermost. A child stays in its place when it is reaped. -/
inductive Job
  | self (p : Proc)
  | child (reaped : Bool) (kid proc : Job)

def Proc.Holds (x : Obj) : Proc → Prop
  | .shell _ f | .program _ f => ∃ fd, f fd = some x
  | .zombie => False

/-- What a process in `wait` goes on as. -/
inductive Proc.Waits : Proc → Proc → Prop
  | shell {ops : List Op} {f : Fds} : Waits (.shell (.wait :: ops) f) (.shell ops f)
  | program {f : Fds} : Waits (.program .wait f) (.program .ready f)

namespace Job

def process : Job → Proc
  | self p => p
  | child _ _ proc => proc.process

def setProcess (q : Proc) : Job → Job
  | self _ => self q
  | child reaped kid proc => child reaped kid (proc.setProcess q)

/-- Some process has `x` open. -/
def Holds (x : Obj) : Job → Prop
  | self p => p.Holds x
  | child _ kid proc => kid.Holds x ∨ proc.Holds x

/-- Some process has not exited. -/
def Live : Job → Prop
  | self p => p ≠ .zombie
  | child _ kid proc => kid.Live ∨ proc.Live

/-- Some process runs `runcmd`. -/
def HasShell : Job → Prop
  | self p => ∃ ops f, p = .shell ops f
  | child _ kid proc => kid.HasShell ∨ proc.HasShell

/-- All children of the process have been reaped. -/
def Alone : Job → Prop
  | self _ => True
  | child reaped _ proc => reaped = true ∧ proc.Alone

end Job

/-- What the processes share. -/
structure World where
  /-- The number of pipes that were made. -/
  next : Nat
  /-- The unread bytes of a pipe. -/
  unread : Nat → Nat
  /-- The programs that were loaded, with their arguments and descriptors. -/
  ran : List (List Word × Fds)
  /-- A call of `runcmd` that leads to `exit` has failed. -/
  failed : Bool

/-- The bytes in pipe `n`. -/
def World.setUnread (w : World) (n k : Nat) : World := { w with unread := Function.update w.unread n k }

/-! ## Steps -/

variable (held : Obj → Prop)

/-- A step of a process; `held` tells what is open in any process. -/
inductive Call : World → Proc → World → Proc → Prop
  | runcmd {w : World} {cmd : Cmd} {ops : List Op} {f : Fds} :
    Call w (.shell (.runcmd cmd :: ops) f) w (.shell (runcmd cmd) f)
  | close {w : World} {fd : Nat} {ops : List Op} {f : Fds} :
    Call w (.shell (.close fd :: ops) f) w (.shell ops (f.close fd))
  | dup {w : World} {fd : Nat} {ops : List Op} {f : Fds} :
    Call w (.shell (.dup fd :: ops) f) w (.shell ops (f.dup fd))
  | openFile {w : World} {r : Redir} {ops : List Op} {f g : Fds} {fd : Nat} :
    f.fdalloc (.file r.file r.mode) = some (fd, g) → Call w (.shell (.openFile r :: ops) f) w (.shell ops g)
  | exec {w : World} {argv : List Word} {ops : List Op} {f : Fds} :
    Call w (.shell (.exec argv :: ops) f) { w with ran := w.ran ++ [(argv, f)] } (.program .ready f)
  | pipe {w : World} {left right : Cmd} {ops : List Op} {f g h : Fds} {p0 p1 : Nat} :
    f.fdalloc (.readEnd w.next) = some (p0, g) → g.fdalloc (.writeEnd w.next) = some (p1, h) →
    Call w (.shell (.pipe left right :: ops) f) { w.setUnread w.next 0 with next := w.next + 1 }
      (.shell (afterPipe p0 p1 left right) h)
  | fail {w : World} {op : Op} {ops : List Op} {f : Fds} :
    op.MayFail → Call w (.shell (op :: ops) f) { w with failed := true } .zombie
  | exit {w : World} {f : Fds} : Call w (.shell [] f) w .zombie
  /-- A program makes its next call. -/
  | act {w : World} {a : Act} {f : Fds} : Call w (.program .ready f) w (.program a f)
  /-- Any other calls of a program: no end of a pipe comes to its descriptors. -/
  | other {w : World} {f g : Fds} :
    (∀ fd x, g fd = some x → x.pipe? ≠ none → ∃ fd', f fd' = some x) →
    Call w (.program .ready f) w (.program .ready g)
  | leave {w : World} {f : Fds} : Call w (.program .ready f) w .zombie
  /-- `piperead` of `k` bytes. -/
  | read {w : World} {fd n k : Nat} {f : Fds} : f fd = some (.readEnd n) → 0 < k → k ≤ w.unread n →
    Call w (.program (.read fd) f) (w.setUnread n (w.unread n - k)) (.program .ready f)
  | readEof {w : World} {fd n : Nat} {f : Fds} : f fd = some (.readEnd n) → w.unread n = 0 → ¬ held (.writeEnd n) →
    Call w (.program (.read fd) f) w (.program .ready f)
  | readOther {w : World} {fd : Nat} {f : Fds} : (∀ n, f fd ≠ some (.readEnd n)) →
    Call w (.program (.read fd) f) w (.program .ready f)
  /-- `k` bytes of a `pipewrite`, which returns or goes on. -/
  | write {w : World} {fd n k : Nat} {f : Fds} {a : Act} : f fd = some (.writeEnd n) → 0 < k →
    w.unread n + k ≤ PIPESIZE → a = .ready ∨ a = .write fd →
    Call w (.program (.write fd) f) (w.setUnread n (w.unread n + k)) (.program a f)
  | writeBroken {w : World} {fd n : Nat} {f : Fds} : f fd = some (.writeEnd n) → PIPESIZE ≤ w.unread n →
    ¬ held (.readEnd n) → Call w (.program (.write fd) f) w (.program .ready f)
  | writeOther {w : World} {fd : Nat} {f : Fds} : (∀ n, f fd ≠ some (.writeEnd n)) →
    Call w (.program (.write fd) f) w (.program .ready f)

/-- `wait` finds a child that has exited. -/
inductive Reap : Job → Job → Prop
  | here {kid proc : Job} {q : Proc} : kid.process = .zombie → proc.process.Waits q →
    Reap (.child false kid proc) (.child true kid (proc.setProcess q))
  | there {reaped : Bool} {kid proc proc' : Job} : Reap proc proc' →
    Reap (.child reaped kid proc) (.child reaped kid proc')

/-- `wait` of a process reaps a child, or there is none to wait for. -/
inductive Wait : Job → Job → Prop
  | reap {j j' : Job} : Reap j j' → Wait j j'
  | alone {j : Job} {q : Proc} : j.Alone → j.process.Waits q → Wait j (j.setProcess q)

/-- A step of some process of the tree, but for a `wait` of its root. -/
inductive Move : World → Job → World → Job → Prop
  | call {w w' : World} {p p' : Proc} : Call held w p w' p' → Move w (.self p) w' (.self p')
  | fork1 {w : World} {child ops : List Op} {f : Fds} :
    Move w (.self (.shell (.fork1 child :: ops) f)) w (.child false (.self (.shell child f)) (.self (.shell ops f)))
  /-- A program forks. -/
  | fork {w : World} {f : Fds} :
    Move w (.self (.program .ready f)) w
      (.child false (.self (.program .ready f)) (.self (.program .ready f)))
  | kid {w w' : World} {reaped : Bool} {kid kid' proc : Job} : Move w kid w' kid' →
    Move w (.child reaped kid proc) w' (.child reaped kid' proc)
  | wait {w : World} {reaped : Bool} {kid kid' proc : Job} : Wait kid kid' →
    Move w (.child reaped kid proc) w (.child reaped kid' proc)
  | proc {w w' : World} {reaped : Bool} {kid proc proc' : Job} : Move w proc w' proc' →
    Move w (.child reaped kid proc) w' (.child reaped kid proc')

/-- The tree of the processes and what they share. -/
structure Jobs where
  job : Job
  world : World

/-- The process that the shell forks for a line: descriptors 0, 1 and 2 are open. -/
def start (cmd : Cmd) : Jobs where
  job := .self (.shell [.runcmd cmd] (std (.given 0) (.given 1) (.given 2)))
  world := { next := 0, unread := fun _ => 0, ran := [], failed := false }

inductive Jobs.Step : Jobs → Jobs → Prop
  | move {s : Jobs} {w : World} {j : Job} : Move (fun x => s.job.Holds x) s.world s.job w j → Step s ⟨j, w⟩
  | wait {s : Jobs} {j : Job} : Wait s.job j → Step s { s with job := j }

/-- The states that the command can be in. -/
def Reaches (cmd : Cmd) (s : Jobs) : Prop := Relation.ReflTransGen Jobs.Step (start cmd) s

end NewXv6.Sh
