import NewXv6.Proc.Table
import NewXv6.Lib.Run

/-!
# Processes: fork, exit, wait, kill, sleep and scheduling

The calls of `proc.c` as a system of steps over the process table. A step is one stretch of a kernel thread under
`ptable.lock`, or one of the stores that `fork` makes without it; between two steps any other process may run. The
number of CPUs is left open: every process that is `RUNNING` may take the next step.

`exec s a` is the state after the action `a` and what the action reports; `step` keeps the reports as a history.
-/

namespace NewXv6.Ptable

/-! ## States -/

/-- Where the kernel thread of a process stands between two sections. -/
inductive Pc
  /-- Outside `fork`'s and `wait`'s sections: in user space or anywhere else in the kernel. -/
  | user
  /-- In `fork`, the new slot is `EMBRYO`; its kernel stack comes next. -/
  | alloced (np : Slot)
  /-- In `fork`, `allocproc` has returned; `copyuvm` comes next. -/
  | stacked (np : Slot)
  /-- In `fork`, the child is complete; making it `RUNNABLE` comes next. -/
  | copied (np : Slot)
  /-- In `wait`'s sleep. -/
  | waiting
  /-- In a sleep with another lock than `ptable.lock`. -/
  | asleep
deriving DecidableEq

structure State where
  proc : Table
  nextpid : BitVec 32
  pc : Slot → Pc

/-- What a call reports. -/
inductive Event
  /-- `allocproc` in `fork` of `p` gave the pid to the slot `np`. -/
  | alloced (p np : Slot) (pid : BitVec 32)
  /-- `fork` of `p` returns the pid of its child in the slot `np`. -/
  | forked (p np : Slot) (pid : BitVec 32)
  /-- `fork` of `p` returns -1. -/
  | forkFailed (p : Slot)
  /-- `p` has exited. -/
  | exited (p : Slot)
  /-- `wait` of `p` returns the pid of its child in the slot `c`. -/
  | reaped (p c : Slot) (pid : BitVec 32)
  /-- `wait` of `p` returns -1. -/
  | waitFailed (p : Slot)
  /-- `kill` of `p` returns 0, having found the slot `q`. -/
  | killed (p q : Slot) (pid : BitVec 32)
  /-- `kill` of `p` returns -1. -/
  | killFailed (p : Slot) (pid : BitVec 32)
deriving DecidableEq

/-- One step of a process, or of the kernel at an interrupt. -/
inductive Act
  /-- `fork`: `allocproc` up to its release. -/
  | allocproc (p : Slot)
  /-- `fork`: `allocproc` allocates the kernel stack. -/
  | kalloc (p : Slot) (ok : Bool)
  /-- `fork`: `copyuvm`, and the fields of the child. -/
  | copyuvm (p : Slot) (ok : Bool)
  /-- `fork`: the child becomes `RUNNABLE`. -/
  | runnable (p : Slot)
  /-- `exit`, from its acquire on. -/
  | exit (p : Slot)
  /-- `wait`, to its return or to its sleep. -/
  | wait (p : Slot)
  | kill (p : Slot) (pid : BitVec 32)
  | yield (p : Slot)
  /-- `sleep(chan, lk)` with another lock than `ptable.lock`. -/
  | sleep (p : Slot) (chan : BitVec 32)
  | wakeup (chan : BitVec 32)
  /-- `scheduler` switches to `p`, and `p` goes on to its release of the lock. -/
  | schedule (p : Slot)
  /-- `trap`: `p` misbehaves in user space. -/
  | fault (p : Slot)
deriving DecidableEq

/-! ## Steps -/

namespace State

variable (s : State)

def setProc (p : Slot) (e : Proc) : State := { s with proc := Function.update s.proc p e }

def setState (p : Slot) (x : ProcState) : State := s.setProc p { s.proc p with state := x }

def setPc (p : Slot) (pc : Pc) : State := { s with pc := Function.update s.pc p pc }

/-- `p` runs outside `fork` and `wait`. -/
def atUser (p : Slot) : Prop := (s.proc p).state = .RUNNING ∧ s.pc p = .user

instance (p : Slot) : Decidable (s.atUser p) := by unfold atUser; infer_instance

end State

/-- The body of `wait`'s loop, from the scan of the table to the return or the sleep. -/
def waitLoop (s : State) (p : Slot) : State × Option Event :=
  match zombieChild s.proc p with
  | some c => ((s.setProc c (s.proc c).reaped).setPc p .user, some (.reaped p c (s.proc c).pid))
  | none =>
    if !havekids s.proc p || (s.proc p).killed then (s.setPc p .user, some (.waitFailed p))
    else ((s.setProc p { s.proc p with chan := some (.proc p), state := .SLEEPING }).setPc p .waiting, none)

/-- The state after `a` and what `a` reports, if `a` is enabled in `s`. -/
def exec (s : State) : Act → Option (State × Option Event)
  | .allocproc p =>
    if s.atUser p then
      match firstUnused s.proc with
      | none => some (s, some (.forkFailed p))
      | some np =>
        let s' := s.setProc np { s.proc np with state := .EMBRYO, pid := s.nextpid }
        some ({ s' with nextpid := s.nextpid + 1 }.setPc p (.alloced np), some (.alloced p np s.nextpid))
    else none
  | .kalloc p ok =>
    match s.pc p with
    | .alloced np =>
      if (s.proc p).state ≠ .RUNNING then none
      else if ok then some (s.setPc p (.stacked np), none)
      else some ((s.setState np .UNUSED).setPc p .user, some (.forkFailed p))
    | _ => none
  | .copyuvm p ok =>
    match s.pc p with
    | .stacked np =>
      if (s.proc p).state ≠ .RUNNING then none
      else if ok then some ((s.setProc np { s.proc np with parent := some p }).setPc p (.copied np), none)
      else some ((s.setState np .UNUSED).setPc p .user, some (.forkFailed p))
    | _ => none
  | .runnable p =>
    match s.pc p with
    | .copied np =>
      if (s.proc p).state ≠ .RUNNING then none
      else some (((s.setState np .RUNNABLE).setPc np .user).setPc p .user, some (.forked p np (s.proc np).pid))
    | _ => none
  | .exit p =>
    -- `exit` of `initproc` panics
    if s.atUser p ∧ p ≠ initproc then
      let tb := passChildren (wakeup1 s.proc ((s.proc p).parent.map .proc)) p
      some ({ s with proc := tb }.setState p .ZOMBIE, some (.exited p))
    else none
  | .wait p => if s.atUser p then some (waitLoop s p) else none
  | .kill p pid =>
    if s.atUser p then
      match withPid s.proc pid with
      | some q =>
        let s' := s.setProc q { s.proc q with
          killed := true, state := if (s.proc q).state = .SLEEPING then .RUNNABLE else (s.proc q).state }
        some (s', some (.killed p q pid))
      | none => some (s, some (.killFailed p pid))
    else none
  | .yield p => if (s.proc p).state = .RUNNING then some (s.setState p .RUNNABLE, none) else none
  | .sleep p chan =>
    if s.atUser p then
      some ((s.setProc p { s.proc p with chan := some (.addr chan), state := .SLEEPING }).setPc p .asleep, none)
    else none
  | .wakeup chan => some ({ s with proc := wakeup1 s.proc (some (.addr chan)) }, none)
  | .schedule p =>
    if (s.proc p).state = .RUNNABLE then
      let s := s.setState p .RUNNING
      match s.pc p with
      | .waiting => some (waitLoop (s.setProc p { s.proc p with chan := none }) p)
      | .asleep => some ((s.setProc p { s.proc p with chan := none }).setPc p .user, none)
      | _ => some (s, none)
    else none
  | .fault p => if s.atUser p then some (s.setProc p { s.proc p with killed := true }, none) else none

/-- The table when `userinit` is done: `initproc` with the pid 1 is ready to run. -/
def boot : State where
  proc := Function.update (fun _ => Proc.zero) initproc { Proc.zero with state := .RUNNABLE, pid := 1 }
  nextpid := 2
  pc := fun _ => .user

/-- A step that keeps what the actions reported. -/
def step (s : State × List Event) (a : Act) : Option (State × List Event) :=
  (exec s.1 a).map fun r => (r.1, s.2 ++ r.2.toList)

/-- `s` is the state after a run from boot in which the actions `tr` report `h`. -/
def Reaches (tr : List Act) (s : State) (h : List Event) : Prop := Lib.run step (boot, []) tr = some (s, h)

/-- **Invariants of process tables** with their histories. -/
theorem reaches_induction (P : State → List Event → Prop) (h₀ : P boot [])
    (hstep : ∀ s h a t e, P s h → exec s a = some (t, e) → P t (h ++ e.toList)) {tr : List Act} {s : State}
    {h : List Event} (hr : Reaches tr s h) : P s h := by
  refine Lib.run_induction (fun _ x => P x.1 x.2) h₀ ?_ tr (s, h) hr
  rintro _ ⟨s, h⟩ a ⟨t, h'⟩ - hs ha
  obtain ⟨⟨u, e⟩, hu, heq⟩ := Option.map_eq_some_iff.1 ha
  cases heq
  exact hstep s h a u e hs hu

/-! ## Fields after the updates -/

section

variable (s : State) (p q : Slot) (e : Proc) (x : ProcState) (pc : Pc)

@[simp] theorem setProc_pc : (s.setProc p e).pc = s.pc := rfl
@[simp] theorem setProc_nextpid : (s.setProc p e).nextpid = s.nextpid := rfl
@[simp] theorem setState_pc : (s.setState p x).pc = s.pc := rfl
@[simp] theorem setState_nextpid : (s.setState p x).nextpid = s.nextpid := rfl
@[simp] theorem setPc_proc : (s.setPc p pc).proc = s.proc := rfl
@[simp] theorem setPc_nextpid : (s.setPc p pc).nextpid = s.nextpid := rfl

theorem setProc_proc : (s.setProc p e).proc q = if q = p then e else s.proc q := Function.update_apply ..

theorem setState_proc : (s.setState p x).proc q = if q = p then { s.proc p with state := x } else s.proc q :=
  Function.update_apply ..

theorem setPc_pc : (s.setPc p pc).pc q = if q = p then pc else s.pc q := Function.update_apply ..

end

end NewXv6.Ptable
