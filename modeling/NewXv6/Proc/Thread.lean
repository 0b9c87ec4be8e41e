import NewXv6.Proc.SchedInv

/-!
# The steps of a thread

Every step of a thread keeps the invariant of the scheduler (`Inv.threadStep`): what `fork`, `wait`, `exit`, `sleep`, `yield`
and `kill` do one after another while a CPU executes the thread.
-/

namespace NewXv6.Ptable.Sched

variable {C : Type}

section

variable [DecidableEq C] {s t : State C} {c : C} {p : Slot}

/-! ## States that a step changes -/

section

variable (s) (q : Slot) (e : Proc) (x : ProcState) (pc : Pc) (u : Cpu)

omit [DecidableEq C] in
theorem st_setProc : (s.setProc p e).st q = if q = p then e.state else s.st q := by
  show (Function.update s.proc p e q).state = _
  rw [Function.update_apply]
  split <;> rfl

omit [DecidableEq C] in
theorem st_setSt : (s.setSt p x).st q = if q = p then x else s.st q := st_setProc ..

omit [DecidableEq C] in
theorem pc_setPc : (s.setPc p pc).pc q = if q = p then pc else s.pc q := Function.update_apply ..

omit [DecidableEq C] in
@[simp] theorem st_setPc : (s.setPc p pc).st q = s.st q := rfl

theorem cpu_setCpu (c' : C) : (s.setCpu c u).cpu c' = if c' = c then u else s.cpu c' := Function.update_apply ..

end

omit [DecidableEq C] in
/-- What `acquire` does. -/
theorem acquire_some (h : s.acquire c = some t) : s.lock = none ∧ t = { s with lock := some c } := by
  unfold State.acquire at h
  split at h
  · next hl => cases h; exact ⟨hl, rfl⟩
  · cases h

omit [DecidableEq C] in
theorem lock_other {l : Option C} {c c' : C} (hl : l = none ∨ l = some c) (hc : c' ≠ c) {m : Option C}
    (hm : m = none ∨ m = some c) : m = some c' ↔ l = some c' := by
  have hne : ∀ {o : Option C}, o = none ∨ o = some c → o ≠ some c' := by
    rintro o (rfl | rfl) h
    · cases h
    · exact hc (Option.some.inj h).symm
  exact iff_of_false (hne hm) (hne hl)

omit [DecidableEq C] in
/-- A thread that only moves on, with or without a change of its own entry. -/
theorem Inv.move (hi : Inv s) (hpos : (s.cpu c).pos = .switched p) (hl : s.lock = some c) {pc : Pc} (hk : pc.Locked)
    (e : Proc) (he : e.state = pc.expect) (hcont : pc.cont = (s.pc p).cont ∨ pc.cont = .user)
    (hreap : ∀ x, pc.reaps = some x → s.st x = .ZOMBIE ∧ x ≠ p) : Inv ((s.setProc p e).setPc p pc) := by
  have hpcp : ((s.setProc p e).setPc p pc).pc p = pc := by rw [pc_setPc, if_pos rfl]
  refine hi.thread hpos rfl (fun _ _ => Iff.rfl) ?_ ?_ ?_ ?_ ?_ ?_ ?_
  · rw [hpcp]; exact iff_of_true hl hk
  · rw [hpcp, st_setPc, st_setProc, if_pos rfl, he]
  · intro x hx; rw [pc_setPc, if_neg hx]; rfl
  · intro x hx; rw [st_setPc, st_setProc, if_neg hx]; exact Or.inl rfl
  · rw [hpcp]; exact hcont
  · rw [hpcp]; exact hreap
  · intro x _; exact ⟨rfl, rfl⟩

omit [DecidableEq C] in
theorem setProc_self (s : State C) (p : Slot) : s.setProc p (s.proc p) = s := by
  unfold State.setProc
  rw [Function.update_eq_self]

omit [DecidableEq C] in
/-- A thread that only moves on while its process keeps running. -/
theorem Inv.moveRunning (hi : Inv s) (hpos : (s.cpu c).pos = .switched p) (hl : s.lock = some c) {pc : Pc}
    (hk : pc.Locked) (hs : s.st p = .RUNNING) (he : pc.expect = .RUNNING)
    (hcont : pc.cont = (s.pc p).cont ∨ pc.cont = .user)
    (hreap : ∀ x, pc.reaps = some x → s.st x = .ZOMBIE ∧ x ≠ p) : Inv (s.setPc p pc) := by
  have := hi.move hpos hl hk (s.proc p) (by rw [he]; exact hs) hcont hreap
  rw [setProc_self] at this
  exact this

/-- A thread leaves its CPU. -/
theorem Inv.swtch (hi : Inv s) (hpos : (s.cpu c).pos = .switched p) (hl : s.lock = some c) {pc : Pc}
    (hs : s.st p = .RUNNABLE ∨ s.st p = .SLEEPING ∨ s.st p = .ZOMBIE)
    (hpc : pc.Parked ∧ pc.cont = (s.pc p).cont ∨ ¬ (s.st p).Live) : Inv (s.swtch c p pc) := by
  obtain ⟨hp, hcr, -, -⟩ := hi.switched hpos
  have hcpu : ∀ c', (s.swtch c p pc).cpu c' = if c' = c then { s.cpu c with pos := .back p } else s.cpu c' :=
    fun c' => cpu_setCpu ..
  have hpcs : ∀ x, (s.swtch c p pc).pc x = if x = p then pc else s.pc x := fun x => pc_setPc ..
  refine hi.scheduler (c := c) ?_ (fun _ _ => Iff.rfl) ?_ ?_ ?_ (fun _ => Or.inl rfl) ⟨rfl, rfl⟩ (Or.inl ?_)
  · intro c' hc; rw [hcpu, if_neg hc]
  · unfold CpuOk
    rw [hcpu, if_pos rfl]
    exact ⟨hp, hcr, hl, hs⟩
  · intro x
    rw [hpcs]
    split
    · next h => rw [h]; exact Or.inr ⟨hpos, hpc⟩
    · exact Or.inl rfl
  · intro x hx
    rw [hpos] at hx
    cases hx
    rw [hpcs, if_pos rfl]
    exact hpc.imp_left And.left
  · rw [hcpu, if_pos rfl]

omit [DecidableEq C] in
/-- Other processes are woken, with the lock held. -/
theorem Inv.wakeOthers (hi : Inv s) (hpos : (s.cpu c).pos = .switched p) (hl : s.lock = some c) {pc : Pc}
    (hk : pc.Locked) (he : pc.expect = .RUNNING) (hs : s.st p = .RUNNING) (tb : Table)
    (htb : ∀ x, (tb x).state = s.st x ∨ s.st x = .SLEEPING ∧ (tb x).state = .RUNNABLE)
    (hcont : pc.cont = (s.pc p).cont ∨ pc.cont = .user) (hreap : pc.reaps = none) :
    Inv ({ s with proc := tb }.setPc p pc) := by
  have hpcp : ({ s with proc := tb }.setPc p pc).pc p = pc := by rw [pc_setPc, if_pos rfl]
  refine hi.thread hpos rfl (fun _ _ => Iff.rfl) ?_ ?_ ?_ ?_ ?_ ?_ ?_
  · rw [hpcp]; exact iff_of_true hl hk
  · rw [hpcp, he]
    rcases htb p with h | ⟨h, -⟩
    · exact h.trans hs
    · rw [hs] at h; cases h
  · intro x hx; rw [pc_setPc, if_neg hx]
  · intro x _
    rcases htb x with h | ⟨h, h'⟩
    · exact Or.inl h
    · exact Or.inr ⟨h, h', hl⟩
  · rw [hpcp]; exact hcont
  · rw [hpcp, hreap]; intro x hx; cases hx
  · intro x _; exact ⟨rfl, rfl⟩

omit [DecidableEq C] in
/-- The thread takes the lock. -/
theorem Inv.enter (hi : Inv s) (hpos : (s.cpu c).pos = .switched p) (hl : s.lock = none) {pc : Pc} (hk : pc.Locked)
    (he : pc.expect = .RUNNING) (hs : s.st p = .RUNNING) (hcont : pc.cont = (s.pc p).cont ∨ pc.cont = .user)
    (hreap : pc.reaps = none) : Inv ({ s with lock := some c }.setPc p pc) := by
  have hpcp : ({ s with lock := some c }.setPc p pc).pc p = pc := by rw [pc_setPc, if_pos rfl]
  refine hi.thread hpos rfl (fun c' hc => lock_other (Or.inl hl) hc (Or.inr rfl)) ?_ ?_ ?_ ?_ ?_ ?_ ?_
  · rw [hpcp]; exact iff_of_true rfl hk
  · rw [hpcp, he]; exact hs
  · intro x hx; rw [pc_setPc, if_neg hx]
  · intro x _; exact Or.inl rfl
  · rw [hpcp]; exact hcont
  · rw [hpcp, hreap]; intro x hx; cases hx
  · intro x _; exact ⟨rfl, rfl⟩

theorem wakeup1_woken (tb : Table) (ch : Option Chan) (x : Slot) : (wakeup1 tb ch x).state = (tb x).state ∨
    (tb x).state = .SLEEPING ∧ (wakeup1 tb ch x).state = .RUNNABLE := by
  rw [wakeup1_state]
  split
  · next h => exact Or.inr ⟨h.1, rfl⟩
  · exact Or.inl rfl

/-- `exit`'s stretch over the table wakes processes and changes no other state. -/
theorem passChildren_woken (tb : Table) (ch : Option Chan) (p x : Slot) :
    (passChildren (wakeup1 tb ch) p x).state = (tb x).state ∨
      (tb x).state = .SLEEPING ∧ (passChildren (wakeup1 tb ch) p x).state = .RUNNABLE := by
  rcases passChildren_state (wakeup1 tb ch) p x with h | ⟨h, -, h'⟩
  · rw [h]; exact wakeup1_woken tb ch x
  · rcases wakeup1_woken tb ch x with e | ⟨-, e⟩
    · exact Or.inr ⟨e ▸ h, h'⟩
    · rw [e] at h; cases h

/-! ## The steps of a thread -/

section Threads

variable {pc pc' : Pc} {k : Cont} {x np : Slot}

omit [DecidableEq C]

theorem Inv.holds (hi : Inv s) (hpos : (s.cpu c).pos = .switched p) (hpc : s.pc p = pc) (hk : pc.Locked) :
    s.lock = some c := by
  obtain ⟨-, -, hlock, -⟩ := hi.switched hpos
  exact hlock.2 (hpc ▸ hk)

theorem Inv.expects (hi : Inv s) (hpos : (s.cpu c).pos = .switched p) (hpc : s.pc p = pc) : s.st p = pc.expect := by
  obtain ⟨-, -, -, hst⟩ := hi.switched hpos
  exact hpc ▸ hst

/-- The slot that a `fork` has in its hands is in no others'. -/
theorem Inv.inHands (hi : Inv s) (hpos : (s.cpu c).pos = .switched p) (hpc : s.pc p = pc) (hn : pc.cont.slot = some np)
    (hrun : s.st p = .RUNNING) : s.st np = .EMBRYO ∧ np ≠ p ∧ (∀ c', (s.cpu c').proc ≠ some np) ∧
      (∀ q, q ≠ p → (s.st q).Live → (s.pc q).cont.slot ≠ some np) ∧
      ∀ q, q ≠ p → (s.st q).Live → (s.pc q).reaps ≠ some np := by
  obtain ⟨hp, -, -, -⟩ := hi.switched hpos
  have hl : (s.st p).Live := by rw [hrun]; simp
  have hn' : (s.pc p).cont.slot = some np := hpc ▸ hn
  have he := hi.forks p np hl hn'
  have hc := hi.not_current (Or.inl he)
  refine ⟨he, fun h => hc c (h ▸ hp), hc, fun q hq hql hqn => hq (hi.forksInj q p np hql hl hqn hn'), ?_⟩
  intro q hq hql hqr
  have := hi.reaps q np hql hqr
  rw [he] at this
  cases this

/-- `fork`: the child gets its kernel stack. -/
theorem Inv.stack (hi : Inv s) (hpos : (s.cpu c).pos = .switched p) (hpc : s.pc p = .free (.alloced np)) :
    Inv (({ s with kstack := Function.update s.kstack np true }.setPc np (.rel .user)).setPc p (.free (.stacked np))) := by
  have hrun : s.st p = .RUNNING := hi.expects hpos hpc
  obtain ⟨-, -, hlk, -⟩ := hi.switched hpos
  have hlock : s.lock ≠ some c := fun hl => hlk.1 hl _ hpc
  obtain ⟨he, hnp, hnc, hnf, hnr⟩ := hi.inHands hpos hpc rfl hrun
  refine hi.special (y := np) hpos rfl (fun _ _ => Iff.rfl) ?_ hrun ?_ ?_ ?_ (by rw [he]; simp) hnc hnf hnr
    (Or.inl he) ?_ ?_ ?_ ?_
  all_goals try simp only [pc_setPc, if_true]
  · exact iff_of_false hlock fun hk => hk _ rfl
  · rfl
  · intro x hx hxn
    rw [if_neg hx, if_neg hxn]
    exact ⟨rfl, rfl, Function.update_of_ne hxn .., rfl⟩
  · exact ⟨Function.update_of_ne (Ne.symm hnp) .., rfl⟩
  · exact Or.inr ⟨rfl, he⟩
  · intro _
    rw [if_neg hnp]
    exact ⟨Function.update_self .., rfl⟩
  · intro h; cases h
  · rfl

/-- `fork`: there is no kernel stack, or no page table, and the slot is free again. -/
theorem Inv.unalloc (hi : Inv s) (hpos : (s.cpu c).pos = .switched p) (hpc : s.pc p = .free k) (hk : k.slot = some np)
    {ks : Slot → Bool} (hks : ∀ x, x ≠ np → ks x = s.kstack x) :
    Inv (({ s with kstack := ks }.setSt np .UNUSED).setPc p (.free .user)) := by
  have hrun : s.st p = .RUNNING := hi.expects hpos hpc
  obtain ⟨-, -, hlk, -⟩ := hi.switched hpos
  have hlock : s.lock ≠ some c := fun hl => hlk.1 hl _ hpc
  obtain ⟨he, hnp, hnc, hnf, hnr⟩ := hi.inHands hpos hpc hk hrun
  have hstn : ∀ x, (State.setSt { s with kstack := ks } np .UNUSED).st x = if x = np then .UNUSED else s.st x :=
    fun x => st_setSt ..
  refine hi.special (y := np) hpos rfl (fun _ _ => Iff.rfl) ?_ ?_ ?_ ?_ ?_ (by rw [he]; simp) hnc hnf hnr
    ?_ ?_ ?_ ?_ ?_
  all_goals try simp only [pc_setPc, if_true]
  · exact iff_of_false hlock fun hk => hk _ rfl
  · exact (hstn p).trans (by rw [if_neg (Ne.symm hnp), hrun])
  · rfl
  · intro x hx hxn
    rw [if_neg hx]
    exact ⟨(hstn x).trans (if_neg hxn), rfl, hks x hxn, rfl⟩
  · exact ⟨hks p (Ne.symm hnp), rfl⟩
  · exact Or.inr (Or.inl ((hstn np).trans (if_pos rfl)))
  · exact Or.inl rfl
  · rintro (h | h) <;> cases h
  · intro h; cases h
  · rfl

/-- `fork`: the child gets its page table. -/
theorem Inv.copy (hi : Inv s) (hpos : (s.cpu c).pos = .switched p) (hpc : s.pc p = .free (.stacked np)) :
    Inv (({ s with pgdir := Function.update s.pgdir np true }.setProc np { s.proc np with parent := some p }).setPc p
      (.free (.copied np))) := by
  have hrun : s.st p = .RUNNING := hi.expects hpos hpc
  obtain ⟨-, -, hlk, -⟩ := hi.switched hpos
  have hlock : s.lock ≠ some c := fun hl => hlk.1 hl _ hpc
  obtain ⟨he, hnp, hnc, hnf, hnr⟩ := hi.inHands hpos hpc rfl hrun
  obtain ⟨hks, hpcn⟩ := hi.stacked p np (by rw [hrun]; simp) (by rw [hpc]; exact Or.inl rfl)
  have hstn : ∀ x, (State.setProc { s with pgdir := Function.update s.pgdir np true } np
      { s.proc np with parent := some p }).st x = s.st x := by
    intro x
    rw [st_setProc]
    split
    · next h => rw [h]; rfl
    · rfl
  refine hi.special (y := np) hpos rfl (fun _ _ => Iff.rfl) ?_ ?_ ?_ ?_ ?_ (by rw [he]; simp) hnc hnf hnr
    ?_ ?_ ?_ ?_ ?_
  all_goals try simp only [pc_setPc, if_true]
  · exact iff_of_false hlock fun hk => hk _ rfl
  · exact (hstn p).trans hrun
  · rfl
  · intro x hx hxn
    rw [if_neg hx]
    exact ⟨hstn x, rfl, rfl, Function.update_of_ne hxn ..⟩
  · exact ⟨rfl, Function.update_of_ne (Ne.symm hnp) ..⟩
  · exact Or.inl ((hstn np).trans he)
  · exact Or.inr ⟨rfl, (hstn np).trans he⟩
  · intro _
    rw [if_neg hnp]
    exact ⟨hks, hpcn⟩
  · intro _; exact Function.update_self ..
  · rfl

/-- `release` at the end of a call. -/
theorem Inv.leave (hi : Inv s) (hpos : (s.cpu c).pos = .switched p) (hpc : s.pc p = .rel k) :
    Inv (s.release.setPc p (.free k)) := by
  have hl : s.lock = some c := hi.holds hpos hpc fun k h => by cases h
  have hrun : s.st p = .RUNNING := hi.expects hpos hpc
  refine hi.thread hpos rfl (fun c' hc => lock_other (Or.inr hl) hc (Or.inl rfl)) ?_ ?_ ?_ (fun _ _ => Or.inl rfl) ?_ ?_
    fun _ _ => ⟨rfl, rfl⟩
  all_goals try simp only [pc_setPc, if_true]
  · exact iff_of_false (fun h => by cases h) fun hk => hk k rfl
  · exact hrun
  · intro x hx; rw [if_neg hx]; rfl
  · rw [hpc]; exact Or.inl rfl
  · intro x hx; cases hx

/-- `wait` finds a child that has exited. -/
theorem Inv.findChild (hi : Inv s) (hpos : (s.cpu c).pos = .switched p) (hpc : s.pc p = .wait0)
    (hx : zombieChild s.proc p = some x) : Inv (s.setPc p (.reap0 x)) := by
  have hrun : s.st p = .RUNNING := hi.expects hpos hpc
  obtain ⟨-, hxz⟩ := zombieChild_some hx
  refine hi.moveRunning hpos (hi.holds hpos hpc fun k h => by cases h) (fun k h => by cases h) hrun rfl (Or.inr rfl)
    fun y hy => ?_
  cases hy
  refine ⟨hxz, fun hxp => ?_⟩
  rw [hxp] at hxz
  exact absurd (hrun.symm.trans hxz) (by decide)

/-- `wait` frees the kernel stack of the child, and then its page table. -/
theorem Inv.freeMemory (hi : Inv s) (hpos : (s.cpu c).pos = .switched p) (hpc : s.pc p = pc) (hr : pc.reaps = some x)
    (hr' : pc'.reaps = some x) (hcont : pc'.cont = .user) {ks pg : Slot → Bool}
    (hmem : ∀ y, y ≠ x → ks y = s.kstack y ∧ pg y = s.pgdir y) :
    Inv ({ s with kstack := ks, pgdir := pg }.setPc p pc') := by
  obtain ⟨hp, -, -, -⟩ := hi.switched hpos
  obtain ⟨hl, hz, hnc⟩ := hi.reap_alone hpos (x := x) (by rw [hpc, hr])
  have hrun : s.st p = .RUNNING := (hi.expects hpos hpc).trans (Pc.reaps_locked hr).2
  refine hi.thread hpos rfl (fun _ _ => Iff.rfl) ?_ ?_ ?_ (fun _ _ => Or.inl rfl) ?_ ?_ ?_
  all_goals try simp only [pc_setPc, if_true]
  · exact iff_of_true hl (Pc.reaps_locked hr').1
  · exact hrun.trans (Pc.reaps_locked hr').2.symm
  · intro y hy; rw [if_neg hy]
  · exact Or.inr hcont
  · intro y hy
    rw [hr'] at hy
    cases hy
    exact ⟨hz, fun h => hnc c (h ▸ hp)⟩
  · intro y hy
    have hyx : y ≠ x := by
      rintro rfl
      rcases hy with h | ⟨c', h⟩
      · exact h hz
      · exact hnc c' h
    exact hmem y hyx

/-- `wait` frees the slot of the child. -/
theorem Inv.freeSlot (hi : Inv s) (hpos : (s.cpu c).pos = .switched p) (hpc : s.pc p = .reap2 x) :
    Inv ((s.setProc x (s.proc x).reaped).setPc p (.rel .user)) := by
  obtain ⟨hp, -, -, -⟩ := hi.switched hpos
  obtain ⟨hl, hz, hnc⟩ := hi.reap_alone hpos (x := x) (by rw [hpc]; rfl)
  have hxp : x ≠ p := fun h => hnc c (h ▸ hp)
  refine hi.special (y := x) hpos rfl (fun _ _ => Iff.rfl) ?_ ?_ ?_ ?_ ⟨rfl, rfl⟩ (by rw [hz]; simp) hnc ?_ ?_
    ?_ ?_ ?_ ?_ ?_
  all_goals try simp only [pc_setPc, if_true]
  · exact iff_of_true hl fun k h => by cases h
  · rw [st_setPc, st_setProc, if_neg (Ne.symm hxp)]
    exact hi.expects hpos hpc
  · rfl
  · intro y hy hyx
    rw [if_neg hy, st_setPc, st_setProc, if_neg hyx]
    exact ⟨rfl, rfl, rfl, rfl⟩
  · intro q _ hq hqn
    have := hi.forks q x hq hqn
    rw [hz] at this
    cases this
  · intro q hqp hq hqr
    obtain ⟨d, hd, hdl⟩ := hi.reaper hq hqr
    have hdc : d = c := Option.some.inj (hdl.symm.trans hl)
    rw [hdc, hpos] at hd
    cases hd
    exact hqp rfl
  · rw [st_setPc, st_setProc, if_pos rfl]; exact Or.inr (Or.inl rfl)
  · exact Or.inl rfl
  · rintro (h | h) <;> cases h
  · intro h; cases h
  · rfl

/-- `allocproc` takes a free slot. -/
theorem Inv.takeSlot (hi : Inv s) (hpos : (s.cpu c).pos = .switched p) (hpc : s.pc p = .alloc)
    (hnp : firstUnused s.proc = some np) : Inv (({ s with nextpid := s.nextpid + 1 }.setProc np
      { s.proc np with state := .EMBRYO, pid := s.nextpid }).setPc p (.rel (.alloced np))) := by
  obtain ⟨hp, -, -, -⟩ := hi.switched hpos
  have hl : s.lock = some c := hi.holds hpos hpc fun k h => by cases h
  have hun : s.st np = .UNUSED := firstUnused_some hnp
  have hnc := hi.not_current (Or.inr hun)
  have hnpp : np ≠ p := fun h => hnc c (h ▸ hp)
  have hstn : ∀ x, (State.setProc { s with nextpid := s.nextpid + 1 } np
      { s.proc np with state := .EMBRYO, pid := s.nextpid }).st x = if x = np then .EMBRYO else s.st x :=
    fun x => st_setProc ..
  refine hi.special (y := np) hpos rfl (fun _ _ => Iff.rfl) ?_ ?_ ?_ ?_ ⟨rfl, rfl⟩ (by rw [hun]; simp) hnc ?_ ?_
    ?_ ?_ ?_ ?_ ?_
  all_goals try simp only [pc_setPc, if_true]
  · exact iff_of_true hl fun k h => by cases h
  · exact (hstn p).trans ((if_neg (Ne.symm hnpp)).trans (hi.expects hpos hpc))
  · rfl
  · intro x hx hxn
    rw [if_neg hx]
    exact ⟨(hstn x).trans (if_neg hxn), rfl, rfl, rfl⟩
  · intro q _ hq hqn
    have := hi.forks q np hq hqn
    rw [hun] at this
    cases this
  · intro q _ hq hqr
    have := hi.reaps q np hq hqr
    rw [hun] at this
    cases this
  · exact Or.inl ((hstn np).trans (if_pos rfl))
  · exact Or.inr ⟨rfl, (hstn np).trans (if_pos rfl)⟩
  · rintro (h | h) <;> cases h
  · intro h; cases h
  · rfl

/-- `fork` makes the child runnable. -/
theorem Inv.start (hi : Inv s) (hpos : (s.cpu c).pos = .switched p) (hpc : s.pc p = .run np) :
    Inv ((s.setSt np .RUNNABLE).setPc p (.rel .user)) := by
  have hl : s.lock = some c := hi.holds hpos hpc fun k h => by cases h
  have hrun : s.st p = .RUNNING := hi.expects hpos hpc
  have hlive : (s.st p).Live := by rw [hrun]; simp
  obtain ⟨he, hnp, hnc, hnf, hnr⟩ := hi.inHands hpos hpc rfl hrun
  obtain ⟨hks, hpcn⟩ := hi.stacked p np hlive (by rw [hpc]; exact Or.inr rfl)
  have hpg := hi.mapped p np hlive (by rw [hpc]; rfl)
  refine hi.special (y := np) hpos rfl (fun _ _ => Iff.rfl) ?_ ?_ ?_ ?_ ⟨rfl, rfl⟩ (by rw [he]; simp) hnc hnf hnr
    ?_ ?_ ?_ ?_ ?_
  all_goals try simp only [pc_setPc, if_true]
  · exact iff_of_true hl fun k h => by cases h
  · rw [st_setPc, st_setSt, if_neg (Ne.symm hnp), hrun]
  · rfl
  · intro x hx hxn
    rw [if_neg hx, st_setPc, st_setSt, if_neg hxn]
    exact ⟨rfl, rfl, rfl, rfl⟩
  · rw [st_setPc, st_setSt, if_pos rfl, if_neg hnp]
    exact Or.inr (Or.inr ⟨rfl, hpcn, hks, hpg⟩)
  · exact Or.inl rfl
  · rintro (h | h) <;> cases h
  · intro h; cases h
  · rfl

/-- `kill` wakes the process if it sleeps. -/
theorem Inv.killOther (hi : Inv s) (hpos : (s.cpu c).pos = .switched p) {pid : BitVec 32} (hpc : s.pc p = .kill pid) (q : Slot) :
    Inv ((s.setProc q { s.proc q with
      killed := true, state := if s.st q = .SLEEPING then .RUNNABLE else s.st q }).setPc p (.rel .user)) := by
  have hl : s.lock = some c := hi.holds hpos hpc fun k h => by cases h
  refine hi.wakeOthers hpos hl (fun k h => by cases h) rfl (hi.expects hpos hpc) _ (fun x => ?_) (Or.inr rfl) rfl
  rw [Function.update_apply]
  split
  · next hx =>
    rw [hx]
    show (if s.st q = .SLEEPING then ProcState.RUNNABLE else s.st q) = s.st q ∨ _
    split
    · next h => exact Or.inr ⟨h, rfl⟩
    · exact Or.inl rfl
  · exact Or.inl rfl

end Threads

/-- **Every step of a thread keeps the invariant.** -/
theorem Inv.threadStep (hi : Inv s) (hpos : (s.cpu c).pos = .switched p) {ok : Bool}
    (h : threadStep s c p ok = some t) : Inv t := by
  have hst := hi.expects hpos rfl
  unfold Sched.threadStep at h
  cases hpc : s.pc p with
  | free k =>
    rw [hpc] at h hst
    cases k with
    | user => cases h
    | alloced np =>
      simp only at h
      split at h
      · cases h
        exact hi.stack hpos hpc
      · cases h
        exact hi.unalloc hpos hpc rfl fun _ _ => rfl
    | stacked np =>
      simp only at h
      split at h
      · cases h
        exact hi.copy hpos hpc
      · cases h
        exact hi.unalloc hpos hpc rfl fun x hx => Function.update_of_ne hx ..
    | copied np =>
      simp only at h
      obtain ⟨u, hu, rfl⟩ := Option.map_eq_some_iff.1 h
      obtain ⟨hl, rfl⟩ := acquire_some hu
      exact hi.enter hpos hl (fun k h => by cases h) rfl hst (Or.inl (by rw [hpc]; rfl)) rfl
  | rel k =>
    rw [hpc] at h
    cases h
    exact hi.leave hpos hpc
  | exit3 => rw [hpc] at h; cases h
  | yield0 k =>
    rw [hpc] at h
    cases h
    exact hi.move hpos (hi.holds hpos hpc fun k h => by cases h) (fun k h => by cases h)
      { s.proc p with state := .RUNNABLE } rfl (Or.inl (by rw [hpc]; rfl)) fun x hx => by cases hx
  | yield1 k =>
    rw [hpc] at h hst
    cases h
    exact hi.swtch hpos (hi.holds hpos hpc fun k h => by cases h) (Or.inl hst)
      (Or.inl ⟨Or.inl ⟨k, rfl⟩, by rw [hpc]; rfl⟩)
  | sleep0 ch =>
    rw [hpc] at h
    cases h
    exact hi.move hpos (hi.holds hpos hpc fun k h => by cases h) (fun k h => by cases h)
      { s.proc p with chan := some (.addr ch), state := .SLEEPING } rfl (Or.inr rfl) fun x hx => by cases hx
  | sleep1 =>
    rw [hpc] at h hst
    cases h
    exact hi.swtch hpos (hi.holds hpos hpc fun k h => by cases h) (Or.inr (Or.inl hst))
      (Or.inl ⟨Or.inr (Or.inl rfl), by rw [hpc]; rfl⟩)
  | sleep2 =>
    rw [hpc] at h hst
    cases h
    exact hi.move hpos (hi.holds hpos hpc fun k h => by cases h) (fun k h => by cases h)
      { s.proc p with chan := none } hst (Or.inr rfl) fun x hx => by cases hx
  | exit0 =>
    rw [hpc] at h hst
    cases h
    exact hi.wakeOthers hpos (hi.holds hpos hpc fun k h => by cases h) (fun k h => by cases h) rfl hst _
      (passChildren_woken s.proc _ p) (Or.inr rfl) rfl
  | exit1 =>
    rw [hpc] at h
    cases h
    exact hi.move hpos (hi.holds hpos hpc fun k h => by cases h) (fun k h => by cases h)
      { s.proc p with state := .ZOMBIE } rfl (Or.inr rfl) fun x hx => by cases hx
  | exit2 =>
    rw [hpc] at h hst
    cases h
    have hz : s.st p = .ZOMBIE := hst
    exact hi.swtch hpos (hi.holds hpos hpc fun k h => by cases h) (Or.inr (Or.inr hz)) (Or.inr (by rw [hz]; simp))
  | wait0 =>
    rw [hpc] at h hst
    have hl : s.lock = some c := hi.holds hpos hpc fun k h => by cases h
    simp only at h
    split at h
    · next x hx =>
      cases h
      exact hi.findChild hpos hpc hx
    · split at h
      · cases h
        exact hi.moveRunning hpos hl (fun k h => by cases h) hst rfl (Or.inr rfl) fun x hx => by cases hx
      · cases h
        exact hi.move hpos hl (fun k h => by cases h) { s.proc p with chan := some (.proc p), state := .SLEEPING } rfl
          (Or.inr rfl) fun x hx => by cases hx
  | wait1 =>
    rw [hpc] at h hst
    cases h
    exact hi.swtch hpos (hi.holds hpos hpc fun k h => by cases h) (Or.inr (Or.inl hst))
      (Or.inl ⟨Or.inr (Or.inr rfl), by rw [hpc]; rfl⟩)
  | wait2 =>
    rw [hpc] at h hst
    cases h
    exact hi.move hpos (hi.holds hpos hpc fun k h => by cases h) (fun k h => by cases h)
      { s.proc p with chan := none } hst (Or.inr rfl) fun x hx => by cases hx
  | reap0 x =>
    rw [hpc] at h
    cases h
    exact hi.freeMemory hpos hpc rfl rfl rfl fun y hy => ⟨Function.update_of_ne hy .., rfl⟩
  | reap1 x =>
    rw [hpc] at h
    cases h
    exact hi.freeMemory hpos hpc rfl rfl rfl fun y hy => ⟨rfl, Function.update_of_ne hy ..⟩
  | reap2 x =>
    rw [hpc] at h
    cases h
    exact hi.freeSlot hpos hpc
  | alloc =>
    rw [hpc] at h hst
    simp only at h
    split at h
    · cases h
      exact hi.moveRunning hpos (hi.holds hpos hpc fun k h => by cases h) (fun k h => by cases h) hst rfl (Or.inr rfl)
        fun x hx => by cases hx
    · next np hnp =>
      cases h
      exact hi.takeSlot hpos hpc hnp
  | run np =>
    rw [hpc] at h
    cases h
    exact hi.start hpos hpc
  | wake ch k =>
    rw [hpc] at h hst
    cases h
    exact hi.wakeOthers hpos (hi.holds hpos hpc fun k h => by cases h) (fun k h => by cases h) rfl hst _
      (wakeup1_woken s.proc _) (Or.inl (by rw [hpc]; rfl)) rfl
  | kill pid =>
    rw [hpc] at h hst
    simp only at h
    split at h
    · cases h
      exact hi.moveRunning hpos (hi.holds hpos hpc fun k h => by cases h) (fun k h => by cases h) hst rfl (Or.inr rfl)
        fun x hx => by cases hx
    · next q hq =>
      cases h
      exact hi.killOther hpos hpc q

end

end NewXv6.Ptable.Sched
