import NewXv6.Proc.Table
import NewXv6.Lib.Run

/-!
# Scheduler and context switches

The same calls as in `Proc.Model`, seen from the CPUs and store by store: every CPU runs either its own `scheduler` loop or
the kernel thread of one process, `ptable.lock` is taken in one context and released in another, and a step is one store
that matters here (a process's `state`, a CPU's `proc`, the page table register, the lock, a `swtch`, the freeing of a
kernel stack or a page table). Loops over the table under the lock are one step.
-/

namespace NewXv6.Ptable.Sched

/-! ## States -/

/-- Where a kernel thread goes on when it does not hold `ptable.lock`. -/
inductive Cont
  | user
  /-- In `fork`: the slot is `EMBRYO`, `kalloc` of the kernel stack comes next. -/
  | alloced (np : Slot)
  /-- In `fork`: `copyuvm` comes next. -/
  | stacked (np : Slot)
  /-- In `fork`: making the child `RUNNABLE` comes next. -/
  | copied (np : Slot)
deriving DecidableEq

/-- The next step of a kernel thread. -/
inductive Pc
  /-- The lock is not held. -/
  | free (k : Cont)
  /-- `release(&ptable.lock)`; a new process starts here, in `forkret`. -/
  | rel (k : Cont)
  /-- `yield`: `proc->state = RUNNABLE`. -/
  | yield0 (k : Cont)
  /-- `yield`: `sched()`. -/
  | yield1 (k : Cont)
  /-- `sleep`: `proc->chan = chan; proc->state = SLEEPING`. -/
  | sleep0 (chan : BitVec 32)
  /-- `sleep`: `sched()`. -/
  | sleep1
  /-- `sleep`, switched to again: `proc->chan = 0`. -/
  | sleep2
  /-- `exit`: the wakeup of the parent and the loop over the children. -/
  | exit0
  /-- `exit`: `proc->state = ZOMBIE`. -/
  | exit1
  /-- `exit`: `sched()`. -/
  | exit2
  /-- `exit`, never switched to again. -/
  | exit3
  /-- `wait`: the scan of the table. -/
  | wait0
  /-- `wait`, asleep: `sched()`. -/
  | wait1
  /-- `wait`, switched to again: `proc->chan = 0`. -/
  | wait2
  /-- `wait`: `kfree(p->kstack)`. -/
  | reap0 (x : Slot)
  /-- `wait`: `freevm(p->pgdir)`. -/
  | reap1 (x : Slot)
  /-- `wait`: the slot becomes `UNUSED`. -/
  | reap2 (x : Slot)
  /-- `allocproc`: the loop and the `EMBRYO` slot. -/
  | alloc
  /-- `fork`: `np->state = RUNNABLE`. -/
  | run (np : Slot)
  | wake (chan : BitVec 32) (k : Cont)
  | kill (pid : BitVec 32)
deriving DecidableEq

/-- Where the `scheduler` of a CPU stands. -/
inductive At
  /-- Before `acquire`, interrupts on. -/
  | idle
  /-- In the loop, before the test of slot `i`. -/
  | scan (i : Nat)
  /-- `proc = p` is done; `switchuvm` comes next. -/
  | chosen (p : Slot)
  /-- `switchuvm(p)` is done; `p->state = RUNNING` comes next. -/
  | loaded (p : Slot)
  /-- `p->state = RUNNING` is done; `swtch` comes next. -/
  | marked (p : Slot)
  /-- In `swtch`: the CPU executes the kernel thread of `p`. -/
  | switched (p : Slot)
  /-- `swtch` has returned; `switchkvm` comes next. -/
  | back (p : Slot)
  /-- `switchkvm` is done; `proc = 0` comes next. -/
  | unloaded (p : Slot)
  /-- An interrupt while idle: the loop of `wakeup`. -/
  | wake (chan : BitVec 32)
  /-- An interrupt while idle: the release after `wakeup`. -/
  | woken
deriving DecidableEq

/-- `struct cpu`. -/
structure Cpu where
  /-- The per-CPU variable `proc`. -/
  proc : Option Slot
  /-- The process whose page table is loaded, `none` for `kpgdir`. -/
  cr3 : Option Slot
  pos : At

/-- The process whose kernel context the CPU executes, `none` for its scheduler's. -/
def Cpu.ctx (u : Cpu) : Option Slot :=
  match u.pos with
  | .switched p => some p
  | _ => none

/-- The machine; `C` is the type of its CPUs. -/
structure State (C : Type) where
  lock : Option C
  proc : Table
  nextpid : BitVec 32
  /-- Which slots have a kernel stack allocated. -/
  kstack : Slot → Bool
  /-- Which slots have a page table allocated. -/
  pgdir : Slot → Bool
  pc : Slot → Pc
  cpu : C → Cpu

/-- The calls a thread can enter. -/
inductive Call
  | yield
  | wakeup (chan : BitVec 32)
  | sleep (chan : BitVec 32)
  | exit
  | wait
  | fork
  | kill (pid : BitVec 32)
deriving DecidableEq

inductive Act (C : Type)
  /-- The next step of what the CPU executes; `ok` is the fate of an allocation. -/
  | next (c : C) (ok : Bool)
  /-- The thread that the CPU executes enters a call. -/
  | call (c : C) (f : Call)
  /-- An interrupt on an idle CPU wakes a channel. -/
  | irq (c : C) (chan : BitVec 32)

/-! ## Steps -/

section

variable {C : Type} [DecidableEq C]

namespace State

variable (s : State C)

/-- The state of a slot. -/
def st (p : Slot) : ProcState := (s.proc p).state

def setProc (p : Slot) (e : Proc) : State C := { s with proc := Function.update s.proc p e }

def setSt (p : Slot) (x : ProcState) : State C := s.setProc p { s.proc p with state := x }

def setPc (p : Slot) (pc : Pc) : State C := { s with pc := Function.update s.pc p pc }

def setCpu (c : C) (u : Cpu) : State C := { s with cpu := Function.update s.cpu c u }

/-- `acquire`: enabled when nobody holds the lock. -/
def acquire (c : C) : Option (State C) := if s.lock = none then some { s with lock := some c } else none

def release : State C := { s with lock := none }

/-- `swtch` from the thread of `p`, which goes on at `pc` later, to the scheduler of `c`. -/
def swtch (c : C) (p : Slot) (pc : Pc) : State C :=
  (s.setPc p pc).setCpu c { s.cpu c with pos := .back p }

end State

/-- The next step of the thread of `p`, which `c` executes. -/
def threadStep (s : State C) (c : C) (p : Slot) (ok : Bool) : Option (State C) :=
  match s.pc p with
  | .free .user => none
  | .free (.alloced np) =>
    if ok then
      some (({ s with kstack := Function.update s.kstack np true }.setPc np (.rel .user)).setPc p (.free (.stacked np)))
    else some ((s.setSt np .UNUSED).setPc p (.free .user))
  | .free (.stacked np) =>
    if ok then
      some (({ s with pgdir := Function.update s.pgdir np true }.setProc np
        { s.proc np with parent := some p }).setPc p (.free (.copied np)))
    else some (({ s with kstack := Function.update s.kstack np false }.setSt np .UNUSED).setPc p (.free .user))
  | .free (.copied np) => (s.acquire c).map fun s => s.setPc p (.run np)
  | .rel k => some (s.release.setPc p (.free k))
  | .yield0 k => some ((s.setSt p .RUNNABLE).setPc p (.yield1 k))
  | .yield1 k => some (s.swtch c p (.rel k))
  | .sleep0 chan =>
    some ((s.setProc p { s.proc p with chan := some (.addr chan), state := .SLEEPING }).setPc p .sleep1)
  | .sleep1 => some (s.swtch c p .sleep2)
  | .sleep2 => some ((s.setProc p { s.proc p with chan := none }).setPc p (.rel .user))
  | .exit0 =>
    some ({ s with proc := passChildren (wakeup1 s.proc ((s.proc p).parent.map .proc)) p }.setPc p .exit1)
  | .exit1 => some ((s.setSt p .ZOMBIE).setPc p .exit2)
  | .exit2 => some (s.swtch c p .exit3)
  | .exit3 => none
  | .wait0 =>
    match zombieChild s.proc p with
    | some x => some (s.setPc p (.reap0 x))
    | none =>
      if !havekids s.proc p || (s.proc p).killed then some (s.setPc p (.rel .user))
      else some ((s.setProc p { s.proc p with chan := some (.proc p), state := .SLEEPING }).setPc p .wait1)
  | .wait1 => some (s.swtch c p .wait2)
  | .wait2 => some ((s.setProc p { s.proc p with chan := none }).setPc p .wait0)
  | .reap0 x => some ({ s with kstack := Function.update s.kstack x false }.setPc p (.reap1 x))
  | .reap1 x => some ({ s with pgdir := Function.update s.pgdir x false }.setPc p (.reap2 x))
  | .reap2 x => some ((s.setProc x (s.proc x).reaped).setPc p (.rel .user))
  | .alloc =>
    match firstUnused s.proc with
    | none => some (s.setPc p (.rel .user))
    | some np => some (({ s with nextpid := s.nextpid + 1 }.setProc np
        { s.proc np with state := .EMBRYO, pid := s.nextpid }).setPc p (.rel (.alloced np)))
  | .run np => some ((s.setSt np .RUNNABLE).setPc p (.rel .user))
  | .wake chan k => some ({ s with proc := wakeup1 s.proc (some (.addr chan)) }.setPc p (.rel k))
  | .kill pid =>
    match withPid s.proc pid with
    | none => some (s.setPc p (.rel .user))
    | some q => some ((s.setProc q { s.proc q with
        killed := true, state := if s.st q = .SLEEPING then .RUNNABLE else s.st q }).setPc p (.rel .user))

/-- The next step of the scheduler of `c`. -/
def schedStep (s : State C) (c : C) : Option (State C) :=
  match (s.cpu c).pos with
  | .idle => (s.acquire c).map fun s => s.setCpu c { s.cpu c with pos := .scan 0 }
  | .scan i =>
    if h : i < NPROC then
      if s.st ⟨i, h⟩ = .RUNNABLE then some (s.setCpu c { s.cpu c with proc := some ⟨i, h⟩, pos := .chosen ⟨i, h⟩ })
      else some (s.setCpu c { s.cpu c with pos := .scan (i + 1) })
    else some (s.release.setCpu c { s.cpu c with pos := .idle })
  | .chosen p => some (s.setCpu c { s.cpu c with cr3 := some p, pos := .loaded p })
  | .loaded p => some ((s.setSt p .RUNNING).setCpu c { s.cpu c with pos := .marked p })
  | .marked p => some (s.setCpu c { s.cpu c with pos := .switched p })
  | .switched _ => none
  | .back p => some (s.setCpu c { s.cpu c with cr3 := none, pos := .unloaded p })
  | .unloaded p => some (s.setCpu c { s.cpu c with proc := none, pos := .scan (p + 1) })
  | .wake chan => some ({ s with proc := wakeup1 s.proc (some (.addr chan)) }.setCpu c { s.cpu c with pos := .woken })
  | .woken => some (s.release.setCpu c { s.cpu c with pos := .idle })

/-- Where a call starts, after its `acquire`. -/
def Call.entry (p : Slot) (k : Cont) : Call → Option Pc
  | .yield => some (.yield0 k)
  | .wakeup chan => some (.wake chan k)
  | .sleep chan => if k = .user then some (.sleep0 chan) else none
  -- `exit` of `initproc` panics
  | .exit => if k = .user ∧ p ≠ initproc then some .exit0 else none
  | .wait => if k = .user then some .wait0 else none
  | .fork => if k = .user then some .alloc else none
  | .kill pid => if k = .user then some (.kill pid) else none

def step (s : State C) : Act C → Option (State C)
  | .next c ok =>
    match (s.cpu c).pos with
    | .switched p => threadStep s c p ok
    | _ => schedStep s c
  | .call c f =>
    match (s.cpu c).pos with
    | .switched p =>
      match s.pc p with
      | .free k => (f.entry p k).bind fun pc => (s.acquire c).map fun s => s.setPc p pc
      | _ => none
    | _ => none
  | .irq c chan =>
    if (s.cpu c).pos = .idle then (s.acquire c).map fun s => s.setCpu c { s.cpu c with pos := .wake chan }
    else none

/-- The machine when every CPU has entered `scheduler`: `userinit` has made `initproc`. -/
def boot : State C where
  lock := none
  proc := Function.update (fun _ => Proc.zero) initproc { Proc.zero with state := .RUNNABLE, pid := 1 }
  nextpid := 2
  kstack := Function.update (fun _ => false) initproc true
  pgdir := Function.update (fun _ => false) initproc true
  pc := Function.update (fun _ => .exit3) initproc (.rel .user)
  cpu := fun _ => ⟨none, none, .idle⟩

/-- `s` is reached by a run from boot. -/
def Reachable (s : State C) : Prop := ∃ tr, Lib.run step boot tr = some s

end

end NewXv6.Ptable.Sched
