import Mathlib.Data.List.FinRange
import Mathlib.Logic.Function.Basic
import Mathlib.Algebra.Group.Nat.Defs
import NewXv6.Param

/-!
# The process table

The entries of `ptable.proc` as far as `proc.c` reads them to fork, kill, exit and wait, and the loops over the table
that these calls share. `ptable.lock` is not part of the table: the modules that follow say which stretches it covers.
-/

namespace NewXv6.Ptable

/-- An index into `ptable.proc`, standing for a `struct proc *`. -/
abbrev Slot := Fin NPROC

/-- The process `userinit` makes. -/
def initproc : Slot := 0

/-- `enum procstate`. -/
inductive ProcState
  | UNUSED | EMBRYO | SLEEPING | RUNNABLE | RUNNING | ZOMBIE
deriving DecidableEq, Repr

/-- What a process sleeps on: in `wait` its own address, elsewhere the address of another kernel object. -/
inductive Chan
  | proc (p : Slot)
  | addr (a : BitVec 32)
deriving DecidableEq

/-- `struct proc`. A null pointer is `none`. -/
structure Proc where
  state : ProcState
  pid : BitVec 32
  parent : Option Slot
  chan : Option Chan
  killed : Bool

/-- The entry of a slot that was never used. -/
def Proc.zero : Proc := { state := .UNUSED, pid := 0, parent := none, chan := none, killed := false }

/-- `ptable.proc`. -/
abbrev Table := Slot → Proc

/-- A process that fork has returned and that has not exited. -/
def ProcState.Live (x : ProcState) : Prop := x = .SLEEPING ∨ x = .RUNNABLE ∨ x = .RUNNING

instance (x : ProcState) : Decidable x.Live := by unfold ProcState.Live; infer_instance

@[simp] theorem ProcState.live_sleeping : ProcState.SLEEPING.Live := Or.inl rfl
@[simp] theorem ProcState.live_runnable : ProcState.RUNNABLE.Live := Or.inr (Or.inl rfl)
@[simp] theorem ProcState.live_running : ProcState.RUNNING.Live := Or.inr (Or.inr rfl)

@[simp] theorem ProcState.not_live_unused : ¬ ProcState.UNUSED.Live := by decide
@[simp] theorem ProcState.not_live_embryo : ¬ ProcState.EMBRYO.Live := by decide
@[simp] theorem ProcState.not_live_zombie : ¬ ProcState.ZOMBIE.Live := by decide

variable (tb : Table)

/-! ## The loops over the table -/

/-- `allocproc`'s loop: the first slot that is `UNUSED`. -/
def firstUnused : Option Slot := (List.finRange NPROC).find? fun p => (tb p).state = .UNUSED

/-- `kill`'s loop: the first slot with that pid, whatever its state. -/
def withPid (pid : BitVec 32) : Option Slot := (List.finRange NPROC).find? fun p => (tb p).pid = pid

/-- `wakeup1`: every process that sleeps on `chan` becomes `RUNNABLE`. -/
def wakeup1 (chan : Option Chan) : Table := fun p =>
  if (tb p).state = .SLEEPING ∧ (tb p).chan = chan then { tb p with state := .RUNNABLE } else tb p

/-- One round of the loop in which `exit` passes the children of `p` to `initproc`. -/
def passOn (p : Slot) (tb : Table) (c : Slot) : Table :=
  if (tb c).parent = some p then
    let tb := Function.update tb c { tb c with parent := some initproc }
    if (tb c).state = .ZOMBIE then wakeup1 tb (some (.proc initproc)) else tb
  else tb

/-- `exit`'s loop. -/
def passChildren (p : Slot) : Table := (List.finRange NPROC).foldl (passOn p) tb

/-- `wait`'s loop: the first zombie among the children of `p`. -/
def zombieChild (p : Slot) : Option Slot :=
  (List.finRange NPROC).find? fun c => (tb c).parent = some p ∧ (tb c).state = .ZOMBIE

/-- `havekids`, when `wait`'s loop found no zombie. -/
def havekids (p : Slot) : Bool := (List.finRange NPROC).any fun c => (tb c).parent = some p

/-- What `wait` writes into the slot of the child it found. -/
def Proc.reaped (e : Proc) : Proc := { e with state := .UNUSED, pid := 0, parent := none, killed := false }

/-! ## What the loops do -/

variable {tb}

theorem firstUnused_some {p : Slot} (h : firstUnused tb = some p) : (tb p).state = .UNUSED := by
  have := List.find?_some h
  simpa using this

theorem withPid_some {pid : BitVec 32} {p : Slot} (h : withPid tb pid = some p) : (tb p).pid = pid := by
  have := List.find?_some h
  simpa using this

theorem zombieChild_some {p c : Slot} (h : zombieChild tb p = some c) :
    (tb c).parent = some p ∧ (tb c).state = .ZOMBIE := by
  have := List.find?_some h
  simpa using this

theorem zombieChild_none {p : Slot} (h : zombieChild tb p = none) {c : Slot} (hc : (tb c).parent = some p) :
    (tb c).state ≠ .ZOMBIE := by
  have := List.find?_eq_none.1 h c (List.mem_finRange c)
  intro hz
  simp [hc, hz] at this

section

variable (tb) (chan : Option Chan) (q : Slot)

@[simp] theorem wakeup1_pid : (wakeup1 tb chan q).pid = (tb q).pid := by unfold wakeup1; split <;> rfl
@[simp] theorem wakeup1_parent : (wakeup1 tb chan q).parent = (tb q).parent := by unfold wakeup1; split <;> rfl
@[simp] theorem wakeup1_chan : (wakeup1 tb chan q).chan = (tb q).chan := by unfold wakeup1; split <;> rfl
@[simp] theorem wakeup1_killed : (wakeup1 tb chan q).killed = (tb q).killed := by unfold wakeup1; split <;> rfl

/-- `wakeup1` makes sleepers on its channel `RUNNABLE` and changes no other state. -/
theorem wakeup1_state : (wakeup1 tb chan q).state =
    if (tb q).state = .SLEEPING ∧ (tb q).chan = chan then .RUNNABLE else (tb q).state := by
  unfold wakeup1; split <;> rfl

end

section

variable (tb) (p c q : Slot)

/-- The entry of `q` after the child `c` got a new parent and before the wakeup. -/
theorem passOn_eq (h : (tb c).parent = some p) : passOn p tb c =
    if (tb c).state = .ZOMBIE then
      wakeup1 (Function.update tb c { tb c with parent := some initproc }) (some (.proc initproc))
    else Function.update tb c { tb c with parent := some initproc } := by
  simp [passOn, h]

theorem passOn_other (h : (tb c).parent ≠ some p) : passOn p tb c = tb := by
  simp [passOn, h]

/-- Apart from parents and states a round changes nothing. -/
theorem passOn_rest : (passOn p tb c q).pid = (tb q).pid ∧ (passOn p tb c q).chan = (tb q).chan ∧
    (passOn p tb c q).killed = (tb q).killed := by
  by_cases h : (tb c).parent = some p
  · rw [passOn_eq tb p c h]
    by_cases hq : q = c
    · subst hq; split <;> simp
    · split <;> simp [hq]
  · rw [passOn_other tb p c h]; exact ⟨rfl, rfl, rfl⟩

theorem passOn_parent : (passOn p tb c q).parent =
    if (tb q).parent = some p ∧ q = c then some initproc else (tb q).parent := by
  by_cases h : (tb c).parent = some p
  · rw [passOn_eq tb p c h]
    by_cases hq : q = c
    · subst hq; split <;> simp [h]
    · split <;> simp [hq]
  · rw [passOn_other tb p c h]
    by_cases hq : q = c
    · subst hq; simp [h]
    · simp [hq]

theorem passOn_state : (passOn p tb c q).state =
    if ((tb c).parent = some p ∧ (tb c).state = .ZOMBIE) ∧ (tb q).state = .SLEEPING ∧
      (tb q).chan = some (.proc initproc) then .RUNNABLE else (tb q).state := by
  by_cases h : (tb c).parent = some p
  · rw [passOn_eq tb p c h]
    by_cases hz : (tb c).state = .ZOMBIE
    · by_cases hq : q = c
      · subst hq; simp [h, hz, wakeup1_state]
      · simp [h, hz, hq, wakeup1_state]
    · by_cases hq : q = c
      · subst hq; simp [hz]
      · simp [hz, hq]
  · rw [passOn_other tb p c h]
    simp [h]

end

/-- What the rounds of `exit`'s loop over `l` do: the children of `p` in `l` go to `initproc`, and `initproc` is woken
if there is a zombie among them. -/
theorem foldl_passOn (p q : Slot) (l : List Slot) : ∀ tb : Table,
    ((l.foldl (passOn p) tb) q).pid = (tb q).pid ∧ ((l.foldl (passOn p) tb) q).chan = (tb q).chan ∧
    ((l.foldl (passOn p) tb) q).killed = (tb q).killed ∧
    ((l.foldl (passOn p) tb) q).parent =
      (if (tb q).parent = some p ∧ q ∈ l then some initproc else (tb q).parent) ∧
    (((l.foldl (passOn p) tb) q).state = (tb q).state ∨ (tb q).state = .SLEEPING ∧
      (tb q).chan = some (.proc initproc) ∧ ((l.foldl (passOn p) tb) q).state = .RUNNABLE) ∧
    ((∃ c ∈ l, (tb c).parent = some p ∧ (tb c).state = .ZOMBIE) → (tb q).chan = some (.proc initproc) →
      ((l.foldl (passOn p) tb) q).state ≠ .SLEEPING) := by
  induction l with
  | nil => simp
  | cons c l ih =>
    intro tb
    obtain ⟨h1, h2, h3, h4, h5, h6⟩ := ih (passOn p tb c)
    obtain ⟨r1, r2, r3⟩ := passOn_rest tb p c q
    have hst := passOn_state tb p c q
    rw [List.foldl_cons]
    rw [r1] at h1
    rw [r2] at h2 h5 h6
    rw [r3] at h3
    rw [passOn_parent] at h4
    refine ⟨h1, h2, h3, ?_, ?_, ?_⟩
    · rw [h4]
      by_cases hq : q = c
      · subst hq
        by_cases hp : (tb q).parent = some p
        · simp [hp]
        · simp [hp]
      · simp [hq]
    · rcases h5 with h5 | ⟨h5, h5', h5''⟩
      · rw [hst] at h5
        split at h5
        · next hw => exact Or.inr ⟨hw.2.1, hw.2.2, h5⟩
        · exact Or.inl h5
      · rw [hst] at h5
        split at h5
        · exact absurd h5 (by decide)
        · exact Or.inr ⟨h5, h5', h5''⟩
    · rintro ⟨d, hd, hdp, hdz⟩ hqc
      by_cases hz : (tb c).parent = some p ∧ (tb c).state = .ZOMBIE
      · rcases h5 with h5 | ⟨-, -, h5⟩
        · rw [h5, hst]
          split
          · decide
          · next hn => intro hs; exact hn ⟨hz, hs, hqc⟩
        · rw [h5]; decide
      · have hdc : d ≠ c := fun h => hz ⟨h ▸ hdp, h ▸ hdz⟩
        have hdl : d ∈ l := by simpa [hdc] using hd
        refine h6 ⟨d, hdl, ?_, ?_⟩ hqc
        · rw [passOn_parent]; simp [hdc, hdp]
        · rw [passOn_state]; simp [hdz]

section

variable (tb) (p q : Slot)

@[simp] theorem passChildren_pid : (passChildren tb p q).pid = (tb q).pid := (foldl_passOn p q _ tb).1
@[simp] theorem passChildren_chan : (passChildren tb p q).chan = (tb q).chan := (foldl_passOn p q _ tb).2.1
@[simp] theorem passChildren_killed : (passChildren tb p q).killed = (tb q).killed := (foldl_passOn p q _ tb).2.2.1

theorem passChildren_parent : (passChildren tb p q).parent =
    if (tb q).parent = some p then some initproc else (tb q).parent := by
  have := (foldl_passOn p q (List.finRange NPROC) tb).2.2.2.1
  simp only [List.mem_finRange, and_true] at this
  exact this

/-- `exit`'s loop changes no state except that it wakes `initproc`. -/
theorem passChildren_state : (passChildren tb p q).state = (tb q).state ∨ (tb q).state = .SLEEPING ∧
    (tb q).chan = some (.proc initproc) ∧ (passChildren tb p q).state = .RUNNABLE :=
  (foldl_passOn p q _ tb).2.2.2.2.1

/-- If a child of `p` is a zombie, nobody sleeps on `initproc` after the loop. -/
theorem passChildren_wakes {c : Slot} (hc : (tb c).parent = some p) (hz : (tb c).state = .ZOMBIE)
    (hq : (tb q).chan = some (.proc initproc)) : (passChildren tb p q).state ≠ .SLEEPING :=
  (foldl_passOn p q _ tb).2.2.2.2.2 ⟨c, List.mem_finRange c, hc, hz⟩ hq

end

end NewXv6.Ptable
