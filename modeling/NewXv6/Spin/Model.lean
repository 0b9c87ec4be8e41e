import Mathlib.Logic.Function.Basic
import NewXv6.Lib.Run

/-!
# Spin locks

`spinlock.c` as a system of steps: a step is one statement of one CPU. CPUs, locks and processes are arbitrary types `C`, `K`
and `P`. Between its calls of the functions, the code on a CPU can be interrupted while interrupts are on, can switch
interrupts on, and can switch to another kernel thread as `sched` and `scheduler` do, with `ptable.lock` and nothing else.
It calls `acquire` for locks that it does not hold, `release` for locks that it holds, and `popcli` after `pushcli`.
-/

namespace NewXv6.Spin

/-- Where the code stands in `spinlock.c`. `pushcli` is called by `acquire` for a lock, or from elsewhere. -/
inductive Pc (K : Type)
  | out
  /-- `eflags = readeflags()`. -/
  | readFlags (lk : Option K)
  | cli (lk : Option K) (eflags : Bool)
  /-- `if(cpu->ncli++ == 0) cpu->intena = eflags & FL_IF`. -/
  | count (lk : Option K) (eflags : Bool)
  /-- `acquire`: `holding` reads `locked`, and then `cpu`. -/
  | acqLocked (lk : K)
  | acqCpu (lk : K)
  | xchg (lk : K)
  | setCpu (lk : K)
  /-- `release`: `holding` reads `locked`, and then `cpu`. -/
  | relLocked (lk : K)
  | relCpu (lk : K)
  | clearCpu (lk : K)
  | unlock (lk : K)
  /-- `popcli` up to its three statements. -/
  | popFlags
  | popCount
  | popSti
  | panic
  deriving DecidableEq

/-- The code from an interrupt, or the start of the thread, up to the next interrupt. -/
structure Frame (K : Type) where
  pc : Pc K
  /-- Calls of `pushcli` from elsewhere that no `popcli` has followed. -/
  pushed : Nat
  /-- Locks that `acquire` has returned for. -/
  held : List K
  /-- Whether interrupts are on where the code is in no `pushcli` and holds no lock. -/
  enabled : Bool

/-- `struct cpu` with the thread that it executes. -/
structure Cpu (K : Type) where
  ncli : Int
  intena : Bool
  /-- `FL_IF`. -/
  eflags : Bool
  frame : Frame K
  /-- The interrupted frames below. -/
  below : List (Frame K)

/-- A thread that no CPU executes. -/
structure Thread (K : Type) where
  frame : Frame K
  below : List (Frame K)
  /-- `intena` of `sched`; the scheduler does not keep it, nor has a new process one. -/
  intena : Option Bool

structure State (C K P : Type) where
  cpu : C → Cpu K
  locked : K → Bool
  /-- `cpu` of a lock. -/
  owner : K → Option C
  /-- The process that a CPU executes, if it is not in its scheduler. -/
  proc : C → Option P
  /-- The threads that no CPU executes. -/
  scheduler : C → Option (Thread K)
  thread : P → Option (Thread K)

inductive Act (K P : Type)
  /-- The next statement of `spinlock.c`. -/
  | next
  | pushcli
  | popcli
  | acquire (lk : K)
  | release (lk : K)
  | sti
  | interrupt
  | iret
  | sched
  /-- The scheduler switches to the process. -/
  | run (p : P)

variable {C K P : Type} [DecidableEq C] [DecidableEq K] [DecidableEq P]

namespace State

variable (s : State C K P) (c : C)

def setCpu (u : Cpu K) : State C K P := { s with cpu := Function.update s.cpu c u }

/-- The code of `c` goes on at `pc`. -/
def goto (pc : Pc K) : State C K P :=
  s.setCpu c { s.cpu c with frame := { (s.cpu c).frame with pc := pc } }

end State

/-- The code holds no lock and is in no `pushcli`. -/
def Frame.Free (f : Frame K) : Prop := f.pc = .out ∧ f.pushed = 0 ∧ f.held = []

instance (f : Frame K) : Decidable f.Free := inferInstanceAs (Decidable (_ ∧ _))

/-- What `sched` checks: the code holds `ptable.lock` and nothing else. -/
def Frame.Switches (ptable : K) (f : Frame K) : Prop := f.pc = .out ∧ f.pushed = 0 ∧ f.held = [ptable]

instance (ptable : K) (f : Frame K) : Decidable (f.Switches ptable) := inferInstanceAs (Decidable (_ ∧ _))

/-- A CPU goes on with the thread `t`, which sets `cpu->intena` to what it has kept. A thread that has kept nothing will leave
interrupts as the last thread would have. -/
def Cpu.load (u : Cpu K) (t : Thread K) : Cpu K :=
  { u with
    intena := t.intena.getD u.intena
    frame := { t.frame with enabled := t.intena.elim u.intena fun _ => t.frame.enabled }
    below := t.below }

/-- The next statement. -/
def next (s : State C K P) (c : C) : Option (State C K P) :=
  let u := s.cpu c
  let f := u.frame
  match f.pc with
  | .out | .panic => none
  | .readFlags lk => some (s.goto c (.cli lk u.eflags))
  | .cli lk fl => some (s.setCpu c { u with eflags := false, frame := { f with pc := .count lk fl } })
  | .count lk fl =>
    some (s.setCpu c { u with
      ncli := u.ncli + 1
      intena := if u.ncli = 0 then fl else u.intena
      frame := lk.elim { f with pc := .out, pushed := f.pushed + 1 } fun lk => { f with pc := .acqLocked lk } })
  | .acqLocked lk => some (s.goto c (if s.locked lk then .acqCpu lk else .xchg lk))
  | .acqCpu lk => some (s.goto c (if s.owner lk = some c then .panic else .xchg lk))
  | .xchg lk =>
    some (if s.locked lk then s
      else { s.goto c (.setCpu lk) with locked := Function.update s.locked lk true })
  | .setCpu lk =>
    some { s.setCpu c { u with frame := { f with pc := .out, held := lk :: f.held } } with
      owner := Function.update s.owner lk (some c) }
  | .relLocked lk => some (s.goto c (if s.locked lk then .relCpu lk else .panic))
  | .relCpu lk => some (s.goto c (if s.owner lk = some c then .clearCpu lk else .panic))
  | .clearCpu lk => some { s.goto c (.unlock lk) with owner := Function.update s.owner lk none }
  | .unlock lk => some { s.goto c .popFlags with locked := Function.update s.locked lk false }
  | .popFlags => some (s.goto c (if u.eflags then .panic else .popCount))
  | .popCount =>
    some (s.setCpu c { u with
      ncli := u.ncli - 1
      frame := { f with pc := if u.ncli - 1 < 0 then .panic else .popSti } })
  | .popSti =>
    some (s.setCpu c { u with
      eflags := u.eflags || (decide (u.ncli = 0) && u.intena)
      frame := { f with pc := .out } })

/-- A step of the CPU `c`. -/
def step (ptable : K) (s : State C K P) : C × Act K P → Option (State C K P)
  | (c, a) =>
    let u := s.cpu c
    let f := u.frame
    match a with
    | .next => next s c
    | .pushcli => if f.pc = .out then some (s.goto c (.readFlags none)) else none
    | .popcli =>
      if f.pc = .out ∧ 0 < f.pushed then
        some (s.setCpu c { u with frame := { f with pc := .popFlags, pushed := f.pushed - 1 } })
      else none
    | .acquire lk => if f.pc = .out ∧ lk ∉ f.held then some (s.goto c (.readFlags (some lk))) else none
    | .release lk =>
      if f.pc = .out ∧ lk ∈ f.held then
        some (s.setCpu c { u with frame := { f with pc := .relLocked lk, held := f.held.erase lk } })
      else none
    | .sti => if f.Free then some (s.setCpu c { u with eflags := true, frame := { f with enabled := true } }) else none
    | .interrupt =>
      if u.eflags then
        some (s.setCpu c { u with
          eflags := false
          frame := { pc := .out, pushed := 0, held := [], enabled := false }
          below := f :: u.below })
      else none
    | .iret =>
      match u.below with
      | [] => none
      | g :: below => if f.Free then some (s.setCpu c { u with eflags := true, frame := g, below := below }) else none
    | .sched =>
      match s.proc c, s.scheduler c with
      | some p, some t =>
        if f.Switches ptable then
          some { s.setCpu c (u.load t) with
            proc := Function.update s.proc c none
            scheduler := Function.update s.scheduler c none
            thread := Function.update s.thread p (some ⟨f, u.below, some u.intena⟩) }
        else none
      | _, _ => none
    | .run p =>
      match s.proc c, s.thread p with
      | none, some t =>
        if f.Switches ptable then
          some { s.setCpu c (u.load t) with
            proc := Function.update s.proc c (some p)
            scheduler := Function.update s.scheduler c (some ⟨f, u.below, none⟩)
            thread := Function.update s.thread p none }
        else none
      | _, _ => none

/-- The schedulers start with interrupts off, and a process at `forkret`, which releases `ptable.lock` for the scheduler. -/
def boot (ptable : K) : State C K P where
  cpu _ := { ncli := 0, intena := false, eflags := false, frame := { pc := .out, pushed := 0, held := [], enabled := false },
             below := [] }
  locked _ := false
  owner _ := none
  proc _ := none
  scheduler _ := none
  thread _ := some ⟨{ pc := .out, pushed := 0, held := [ptable], enabled := false }, [], none⟩

/-- The states that the CPUs reach. -/
def Reachable (ptable : K) (s : State C K P) : Prop := ∃ tr, Lib.run (step ptable) (boot ptable) tr = some s

end NewXv6.Spin
