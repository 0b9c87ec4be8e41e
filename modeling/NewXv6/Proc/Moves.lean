import NewXv6.Proc.Inv

/-!
# What a step does to one slot

`exec_moves` says, for every step and every slot, which of the few things that can happen to a slot has happened to
it, and how the event of the step tells. The histories of `Reap` and `Kill` are read off from it.
-/

namespace NewXv6.Ptable

/-- The slot that an event is about. -/
def Event.subject : Event → Option Slot
  | .alloced _ np _ => some np
  | .forked _ np _ => some np
  | .exited p => some p
  | .reaped _ c _ => some c
  | .killed _ q _ => some q
  | .forkFailed _ => none
  | .waitFailed _ => none
  | .killFailed _ _ => none

/-- What the step `a` with the event `e` can do to the slot `q`, whose entry is `y` afterwards. -/
inductive Moves (s : State) (a : Act) (e : Option Event) (q : Slot) (y : Proc) : Prop
  | alloced (p : Slot) (he : e = some (.alloced p q s.nextpid)) (hx : (s.proc q).state = .UNUSED)
      (hy : y = { s.proc q with state := .EMBRYO, pid := s.nextpid })
  | failed (p : Slot) (he : e = some (.forkFailed p)) (hx : (s.pc p).Forks q)
      (hy : y = { s.proc q with state := .UNUSED })
  | copied (p : Slot) (he : e = none) (hx : (s.pc p).Forks q) (hy : y = { s.proc q with parent := some p })
  | forked (p : Slot) (he : e = some (.forked p q (s.proc q).pid)) (hx : (s.pc p).Forks q)
      (hy : y = { s.proc q with state := .RUNNABLE })
  | exited (ha : a = .exit q) (he : e = some (.exited q)) (hx : (s.proc q).state = .RUNNING) (hst : y.state = .ZOMBIE)
      (hpid : y.pid = (s.proc q).pid) (hk : y.killed = (s.proc q).killed)
  | reaped (p : Slot) (he : e = some (.reaped p q (s.proc q).pid)) (hp : (s.proc q).parent = some p)
      (hx : (s.proc q).state = .ZOMBIE) (hst : y.state = .UNUSED) (hpid : y.pid = 0) (hk : y.killed = false)
  | killed (p : Slot) (pid : BitVec 32) (ha : a = .kill p pid) (he : e = some (.killed p q pid))
      (hx : withPid s.proc pid = some q) (hst : y.state = (s.proc q).state ∨ (s.proc q).state.Live ∧ y.state.Live)
      (hpid : y.pid = (s.proc q).pid) (hpar : y.parent = (s.proc q).parent) (hk : y.killed = true)
  | other (he : e.bind Event.subject ≠ some q)
      (hst : y.state = (s.proc q).state ∨ (s.proc q).state.Live ∧ y.state.Live) (hpid : y.pid = (s.proc q).pid)
      (hpar : y.parent = (s.proc q).parent ∨ ∃ p, a = .exit p ∧ (s.proc q).parent = some p ∧ y.parent = some initproc)
      (hk : y.killed = (s.proc q).killed ∨ (s.proc q).state.Live ∧ y.killed = true)

section

variable {s : State} {a : Act} {e : Option Event} {q : Slot} {y : Proc}

/-- A slot whose entry stays as it is. -/
theorem Moves.same (he : e.bind Event.subject ≠ some q) : Moves s a e q (s.proc q) :=
  .other he (Or.inl rfl) rfl (Or.inl rfl) (Or.inl rfl)

/-- A process that has not exited and goes on. -/
theorem Moves.live (he : e.bind Event.subject ≠ some q) (hs : (s.proc q).state.Live) (hy : y.state.Live)
    (hpid : y.pid = (s.proc q).pid) (hpar : y.parent = (s.proc q).parent)
    (hk : y.killed = (s.proc q).killed ∨ y.killed = true) : Moves s a e q y :=
  .other he (Or.inr ⟨hs, hy⟩) hpid (Or.inl hpar) (hk.imp_right fun h => ⟨hs, h⟩)

/-- What the step that reports a new slot did to it. -/
theorem Moves.of_alloced {p : Slot} {pid : BitVec 32} (h : Moves s a (some (.alloced p q pid)) q y) :
    (s.proc q).state = .UNUSED ∧ y = { s.proc q with state := .EMBRYO, pid := s.nextpid } := by
  cases h with
  | alloced _ _ hx hy => exact ⟨hx, hy⟩
  | failed _ he => cases he
  | copied _ he => cases he
  | forked _ he => cases he
  | exited _ he => cases he
  | reaped _ he => cases he
  | killed _ _ _ he => cases he
  | other he => exact absurd rfl he

/-- What the step that reports a forked child did to its slot. -/
theorem Moves.of_forked {p : Slot} {pid : BitVec 32} (h : Moves s a (some (.forked p q pid)) q y) :
    (s.pc p).Forks q ∧ pid = (s.proc q).pid ∧ y = { s.proc q with state := .RUNNABLE } := by
  cases h with
  | forked _ he hx hy => cases he; exact ⟨hx, rfl, hy⟩
  | alloced _ he => cases he
  | failed _ he => cases he
  | copied _ he => cases he
  | exited _ he => cases he
  | reaped _ he => cases he
  | killed _ _ _ he => cases he
  | other he => exact absurd rfl he

/-- What the step that reports a reaped child did to its slot. -/
theorem Moves.of_reaped {p : Slot} {pid : BitVec 32} (h : Moves s a (some (.reaped p q pid)) q y) :
    (s.proc q).parent = some p ∧ (s.proc q).state = .ZOMBIE ∧ pid = (s.proc q).pid ∧ y.state = .UNUSED ∧
      y.killed = false := by
  cases h with
  | reaped _ he hp hx hst hpid hk => cases he; exact ⟨hp, hx, rfl, hst, hk⟩
  | alloced _ he => cases he
  | failed _ he => cases he
  | copied _ he => cases he
  | forked _ he => cases he
  | exited _ he => cases he
  | killed _ _ _ he => cases he
  | other he => exact absurd rfl he

/-- The loop of `wait`, entered by `p` that stood in the entry `x` before. -/
theorem waitLoop_moves {s : State} {p : Slot} (a : Act) (x : Proc) (hx : x.state.Live) (hrun : (s.proc p).state.Live)
    (hpid : (s.proc p).pid = x.pid) (hpar : (s.proc p).parent = x.parent) (hk : (s.proc p).killed = x.killed) (q : Slot) :
    Moves (s.setProc p x) a (waitLoop s p).2 q ((waitLoop s p).1.proc q) := by
  have hpz : ∀ c, (s.proc c).state = .ZOMBIE → c ≠ p := fun c hc h => by rw [h] at hc; rw [hc] at hrun; simp at hrun
  have hold : ∀ c, c ≠ p → (s.setProc p x).proc c = s.proc c := fun c hc => by rw [setProc_proc, if_neg hc]
  have hself : (s.setProc p x).proc p = x := by rw [setProc_proc, if_pos rfl]
  have hstay : ∀ e : Option Event, e.bind Event.subject ≠ some q → Moves (s.setProc p x) a e q (s.proc q) := by
    intro e he
    by_cases hq : q = p
    · subst hq
      exact .live he (by rw [hself]; exact hx) hrun (by rw [hself, hpid]) (by rw [hself, hpar]) (Or.inl (by rw [hself, hk]))
    · have := Moves.same (s := s.setProc p x) (a := a) he
      rw [hold q hq] at this
      exact this
  unfold waitLoop
  cases hz : zombieChild s.proc p with
  | some c =>
    obtain ⟨hcp, hcz⟩ := zombieChild_some hz
    show Moves _ _ (some (.reaped p c (s.proc c).pid)) q ((s.setProc c (s.proc c).reaped).proc q)
    rw [setProc_proc]
    by_cases hq : q = c
    · subst hq
      rw [if_pos rfl]
      have hqs := hold q (hpz q hcz)
      exact .reaped p (by rw [hqs]) (by rw [hqs, hcp]) (by rw [hqs, hcz]) rfl rfl rfl
    · rw [if_neg hq]
      exact hstay _ fun h => hq (Option.some.inj h).symm
  | none =>
    show Moves _ _ (if _ then _ else _ : State × Option Event).2 q ((if _ then _ else _ : State × Option Event).1.proc q)
    split
    · exact hstay _ (by simp [Event.subject])
    · show Moves _ _ none q ((s.setProc p _).proc q)
      rw [setProc_proc]
      split
      · next h =>
        subst h
        exact .live (by simp) (by rw [hself]; exact hx) (by simp) (by rw [hself, hpid]) (by rw [hself, hpar])
          (Or.inl (by rw [hself, hk]))
      · exact hstay _ (by simp)

end

theorem setProc_self (s : State) (p : Slot) : s.setProc p (s.proc p) = s := by
  unfold State.setProc
  rw [Function.update_eq_self]

/-- `allocproc` gives the child a kernel stack, or frees the slot. -/
theorem kalloc_moves {s t : State} {p : Slot} {ok : Bool} {e : Option Event} (h : exec s (.kalloc p ok) = some (t, e)) (q : Slot) :
    Moves s (.kalloc p ok) e q (t.proc q) := by
  simp only [exec] at h
  split at h
  · next np hf =>
    split at h
    · cases h
    · split at h
      · cases h
        exact .same (by simp)
      · cases h
        rw [setPc_proc, setState_proc]
        split
        · next hq => subst hq; exact .failed p rfl (Or.inl hf) rfl
        · exact .same (by simp [Event.subject])
  · cases h

/-- `fork` copies the parent, or frees the slot. -/
theorem copyuvm_moves {s t : State} {p : Slot} {ok : Bool} {e : Option Event} (h : exec s (.copyuvm p ok) = some (t, e)) (q : Slot) :
    Moves s (.copyuvm p ok) e q (t.proc q) := by
  simp only [exec] at h
  split at h
  · next np hf =>
    split at h
    · cases h
    · split at h
      · cases h
        rw [setPc_proc, setProc_proc]
        split
        · next hq => subst hq; exact .copied p rfl (Or.inr (Or.inl hf)) rfl
        · exact .same (by simp)
      · cases h
        rw [setPc_proc, setState_proc]
        split
        · next hq => subst hq; exact .failed p rfl (Or.inr (Or.inl hf)) rfl
        · exact .same (by simp [Event.subject])
  · cases h

/-- `exit` wakes the parent, passes the children on and becomes a zombie. -/
theorem exit_moves {s t : State} {p : Slot} {e : Option Event} (h : exec s (.exit p) = some (t, e)) (q : Slot) :
    Moves s (.exit p) e q (t.proc q) := by
  simp only [exec] at h
  split at h
  · next hp =>
    cases h
    have hpid := passChildren_pid (wakeup1 s.proc ((s.proc p).parent.map .proc)) p q
    have hk := passChildren_killed (wakeup1 s.proc ((s.proc p).parent.map .proc)) p q
    have hpar := passChildren_parent (wakeup1 s.proc ((s.proc p).parent.map .proc)) p q
    have hst := passChildren_state (wakeup1 s.proc ((s.proc p).parent.map .proc)) p q
    generalize passChildren (wakeup1 s.proc ((s.proc p).parent.map .proc)) p = tb at *
    rw [wakeup1_pid] at hpid
    rw [wakeup1_killed] at hk
    rw [wakeup1_parent] at hpar
    rw [setState_proc]
    split
    · next hq =>
      subst hq
      exact .exited rfl rfl hp.1.1 rfl hpid hk
    · next hq =>
      refine .other (fun h => hq (Option.some.inj h).symm) ?_ hpid ?_ (Or.inl hk)
      · rcases hst with h | ⟨h, -, h'⟩
        · rw [h, wakeup1_state]
          split
          · next hw => rw [hw.1]; exact Or.inr ⟨by simp, by simp⟩
          · exact Or.inl rfl
        · rw [wakeup1_state] at h
          split at h
          · cases h
          · rw [h, h']; exact Or.inr ⟨by simp, by simp⟩
      · split at hpar
        · next h => exact Or.inr ⟨p, rfl, h, hpar⟩
        · exact Or.inl hpar
  · cases h

/-- `kill` marks a process, and wakes it. -/
theorem kill_moves {s t : State} {p : Slot} {pid : BitVec 32} {e : Option Event} (h : exec s (.kill p pid) = some (t, e)) (q : Slot) :
    Moves s (.kill p pid) e q (t.proc q) := by
  simp only [exec] at h
  split at h
  · split at h
    · next x hx =>
      cases h
      rw [setProc_proc]
      split
      · next hq =>
        subst hq
        refine .killed p pid rfl rfl hx ?_ rfl rfl rfl
        show (if _ then _ else _ : ProcState) = _ ∨ _
        split
        · next h => rw [h]; exact Or.inr ⟨by simp, by simp⟩
        · exact Or.inl rfl
      · next hq => exact .same fun h => hq (Option.some.inj h).symm
    · cases h
      exact .same (by simp [Event.subject])
  · cases h

/-- The scheduler resumes a process, which may go on in `wait`. -/
theorem schedule_moves {s t : State} {p : Slot} {e : Option Event} (h : exec s (.schedule p) = some (t, e)) (q : Slot) :
    Moves s (.schedule p) e q (t.proc q) := by
  simp only [exec] at h
  split at h
  · next hp =>
    have hl : (s.proc p).state.Live := by rw [hp]; simp
    split at h
    · have := waitLoop_moves (s := (s.setState p .RUNNING).setProc p
        { (s.setState p .RUNNING).proc p with chan := none }) (p := p) (.schedule p) (s.proc p) hl
        (by rw [setProc_proc, if_pos rfl, setState_proc, if_pos rfl]; simp)
        (by rw [setProc_proc, if_pos rfl, setState_proc, if_pos rfl])
        (by rw [setProc_proc, if_pos rfl, setState_proc, if_pos rfl])
        (by rw [setProc_proc, if_pos rfl, setState_proc, if_pos rfl]) q
      rw [Option.some.inj h] at this
      have hback : ((s.setState p .RUNNING).setProc p
          { (s.setState p .RUNNING).proc p with chan := none }).setProc p (s.proc p) = s := by
        simp [State.setProc, State.setState]
      rw [hback] at this
      exact this
    · cases h
      rw [setPc_proc, setProc_proc]
      split
      · next hq =>
        subst hq
        refine .live (by simp) hl ?_ ?_ ?_ (Or.inl ?_) <;> rw [setState_proc, if_pos rfl]
        simp
      · next hq =>
        rw [setState_proc, if_neg hq]
        exact .same (by simp)
    · cases h
      rw [setState_proc]
      split
      · next hq => subst hq; exact .live (by simp) hl (by simp) rfl rfl (Or.inl rfl)
      · exact .same (by simp)
  · cases h

/-- **What a step can do to a slot.** -/
theorem exec_moves {s t : State} {a : Act} {e : Option Event} (h : exec s a = some (t, e)) (q : Slot) :
    Moves s a e q (t.proc q) := by
  cases a with
  | allocproc p =>
    simp only [exec] at h
    split at h
    · split at h
      · cases h
        exact .same (by simp [Event.subject])
      · next np hnp =>
        cases h
        show Moves _ _ _ q ((s.setProc np _).proc q)
        rw [setProc_proc]
        split
        · next hq => subst hq; exact .alloced p rfl (firstUnused_some hnp) rfl
        · next hq => exact .same fun h => hq (Option.some.inj h).symm
    · cases h
  | kalloc p ok => exact kalloc_moves h q
  | copyuvm p ok => exact copyuvm_moves h q
  | runnable p =>
    simp only [exec] at h
    split at h
    · next np hf =>
      split at h
      · cases h
      · cases h
        rw [setPc_proc, setPc_proc, setState_proc]
        split
        · next hq => subst hq; exact .forked p rfl (Or.inr (Or.inr hf)) rfl
        · next hq => exact .same fun h => hq (Option.some.inj h).symm
    · cases h
  | exit p => exact exit_moves h q
  | wait p =>
    simp only [exec] at h
    split at h
    · next hp =>
      have hl : (s.proc p).state.Live := by rw [hp.1]; simp
      have := waitLoop_moves (s := s) (p := p) (.wait p) (s.proc p) hl hl rfl rfl rfl q
      rw [setProc_self, Option.some.inj h] at this
      exact this
    · cases h
  | kill p pid => exact kill_moves h q
  | yield p =>
    simp only [exec] at h
    split at h
    · next hp =>
      cases h
      rw [setState_proc]
      split
      · next hq => subst hq; exact .live (by simp) (by rw [hp]; simp) (by simp) rfl rfl (Or.inl rfl)
      · exact .same (by simp)
    · cases h
  | sleep p ch =>
    simp only [exec] at h
    split at h
    · next hp =>
      cases h
      rw [setPc_proc, setProc_proc]
      split
      · next hq => subst hq; exact .live (by simp) (by rw [hp.1]; simp) (by simp) rfl rfl (Or.inl rfl)
      · exact .same (by simp)
    · cases h
  | wakeup ch =>
    cases h
    refine .other (by simp) ?_ (wakeup1_pid ..) (Or.inl (wakeup1_parent ..)) (Or.inl (wakeup1_killed ..))
    show (wakeup1 _ _ q).state = _ ∨ _ ∧ (wakeup1 _ _ q).state.Live
    rw [wakeup1_state]
    split
    · next h => rw [h.1]; exact Or.inr ⟨by simp, by simp⟩
    · exact Or.inl rfl
  | schedule p => exact schedule_moves h q
  | fault p =>
    simp only [exec] at h
    split at h
    · next hp =>
      cases h
      rw [setProc_proc]
      split
      · next hq =>
        subst hq
        exact .live (by simp) (by rw [hp.1]; simp) (by rw [hp.1]; simp) rfl rfl (Or.inr rfl)
      · exact .same (by simp)
    · cases h

end NewXv6.Ptable
