import NewXv6.Proc.Thread

/-!
# A process runs on one CPU at a time

The invariant of the scheduler holds at boot and after every step of every CPU (`Reachable.inv`). From it: no two CPUs execute
one context, a kernel stack or a page table is only freed when no CPU uses it, and while `ptable.lock` is free the `RUNNING`
processes are exactly those the CPUs have (`one_cpu`).
-/

namespace NewXv6.Ptable.Sched

variable {C : Type}

/-! ## The steps of a scheduler -/

section

variable [DecidableEq C] {s t : State C} {c : C} {p : Slot}

/-- A scheduler that changes its own CPU and perhaps the lock. -/
theorem Inv.local (hi : Inv s) {u : Cpu} {l : Option C} (hno : ∀ x, (s.cpu c).pos ≠ .switched x)
    (hlock : ∀ c', c' ≠ c → (l = some c' ↔ s.lock = some c'))
    (hproc : u.proc = (s.cpu c).proc ∨ u.proc = none ∧ (∀ x, (s.cpu c).proc = some x → s.st x ≠ .RUNNING) ∨
      ∃ x, u.proc = some x ∧ s.st x = .RUNNABLE ∧ s.lock = some c ∧ (s.cpu c).proc = none)
    (hok : CpuOk ({ s with lock := l }.setCpu c u) c) : Inv ({ s with lock := l }.setCpu c u) := by
  refine hi.scheduler (c := c) ?_ hlock hok (fun _ => Or.inl rfl) (fun x hx => absurd hx (hno x)) (fun _ => Or.inl rfl)
    ⟨rfl, rfl⟩ ?_
  · intro c' hc; rw [cpu_setCpu, if_neg hc]
  · rw [cpu_setCpu, if_pos rfl]; exact hproc

/-- **Every step of a scheduler keeps the invariant.** -/
theorem Inv.schedStep (hi : Inv s) (h : schedStep s c = some t) : Inv t := by
  have hok := hi.cpu c
  unfold CpuOk at hok
  unfold Sched.schedStep at h
  cases hpos : (s.cpu c).pos with
  | idle =>
    rw [hpos] at h hok
    obtain ⟨u, hu, rfl⟩ := Option.map_eq_some_iff.1 h
    obtain ⟨hl, rfl⟩ := acquire_some hu
    refine hi.local (fun x h => by rw [hpos] at h; cases h) (fun c' hc => lock_other (Or.inl hl) hc (Or.inr rfl))
      (Or.inl rfl) ?_
    unfold CpuOk
    rw [cpu_setCpu, if_pos rfl]
    exact ⟨hok.1, hok.2.1, rfl⟩
  | scan i =>
    rw [hpos] at h hok
    simp only at h
    split at h
    · next hi' =>
      split at h
      · next hrun =>
        cases h
        refine hi.local (l := s.lock) (fun x h => by rw [hpos] at h; cases h) (fun _ _ => Iff.rfl)
          (Or.inr (Or.inr ⟨⟨i, hi'⟩, rfl, hrun, hok.2.2, hok.1⟩)) ?_
        unfold CpuOk
        rw [cpu_setCpu, if_pos rfl]
        exact ⟨rfl, hok.2.1, hok.2.2, hrun⟩
      · cases h
        refine hi.local (l := s.lock) (fun x h => by rw [hpos] at h; cases h) (fun _ _ => Iff.rfl) (Or.inl rfl) ?_
        unfold CpuOk
        rw [cpu_setCpu, if_pos rfl]
        exact hok
    · cases h
      refine hi.local (fun x h => by rw [hpos] at h; cases h)
        (fun c' hc => lock_other (Or.inr hok.2.2) hc (Or.inl rfl)) (Or.inl rfl) ?_
      unfold CpuOk
      rw [cpu_setCpu, if_pos rfl]
      exact ⟨hok.1, hok.2.1, fun h => by cases h⟩
  | chosen p =>
    rw [hpos] at h hok
    cases h
    refine hi.local (l := s.lock) (fun x h => by rw [hpos] at h; cases h) (fun _ _ => Iff.rfl) (Or.inl rfl) ?_
    unfold CpuOk
    rw [cpu_setCpu, if_pos rfl]
    exact ⟨hok.1, rfl, hok.2.2⟩
  | loaded p =>
    rw [hpos] at h hok
    cases h
    obtain ⟨h1, h2, h3, h4⟩ := hok
    have hcpu : ∀ c', ((s.setSt p .RUNNING).setCpu c { s.cpu c with pos := .marked p }).cpu c' =
        if c' = c then { s.cpu c with pos := .marked p } else s.cpu c' := fun c' => cpu_setCpu ..
    have hst : ∀ x, ((s.setSt p .RUNNING).setCpu c { s.cpu c with pos := .marked p }).st x =
        if x = p then .RUNNING else s.st x := fun x => st_setSt ..
    refine hi.scheduler (c := c) ?_ (fun _ _ => Iff.rfl) ?_ (fun _ => Or.inl rfl) ?_ ?_ ⟨rfl, rfl⟩ (Or.inl ?_)
    · intro c' hc; rw [hcpu, if_neg hc]
    · unfold CpuOk
      rw [hcpu, if_pos rfl]
      exact ⟨h1, h2, h3, (hst p).trans (if_pos rfl)⟩
    · intro x hx; rw [hpos] at hx; cases hx
    · intro x
      rw [hst, hcpu, if_pos rfl]
      split
      · next hx => rw [hx]; exact Or.inr ⟨h3, Or.inr ⟨h4, rfl, h1⟩⟩
      · exact Or.inl rfl
    · rw [hcpu, if_pos rfl]
  | marked p =>
    rw [hpos] at h hok
    cases h
    obtain ⟨h1, h2, h3, h4⟩ := hok
    have hpark : (s.pc p).Parked := by
      refine hi.parked p (by rw [h4]; simp) fun c' hc' => ?_
      have := hi.apart c' c p (hi.switched hc').1 h1
      rw [this, hpos] at hc'
      cases hc'
    refine hi.local (l := s.lock) (fun x h => by rw [hpos] at h; cases h) (fun _ _ => Iff.rfl) (Or.inl rfl) ?_
    unfold CpuOk
    rw [cpu_setCpu, if_pos rfl]
    exact ⟨h1, h2, iff_of_true h3 hpark.locked, h4.trans hpark.expect.symm⟩
  | switched p => rw [hpos] at h; cases h
  | back p =>
    rw [hpos] at h hok
    cases h
    refine hi.local (l := s.lock) (fun x h => by rw [hpos] at h; cases h) (fun _ _ => Iff.rfl) (Or.inl rfl) ?_
    unfold CpuOk
    rw [cpu_setCpu, if_pos rfl]
    exact ⟨hok.1, rfl, hok.2.2⟩
  | unloaded p =>
    rw [hpos] at h hok
    cases h
    obtain ⟨h1, h2, h3, h4⟩ := hok
    refine hi.local (l := s.lock) (fun x h => by rw [hpos] at h; cases h) (fun _ _ => Iff.rfl)
      (Or.inr (Or.inl ⟨rfl, fun x hx => ?_⟩)) ?_
    · rw [h1] at hx
      cases hx
      rcases h4 with h | h | h <;> rw [h] <;> decide
    · unfold CpuOk
      rw [cpu_setCpu, if_pos rfl]
      exact ⟨rfl, h2, h3⟩
  | wake ch =>
    rw [hpos] at h hok
    cases h
    have hcpu : ∀ c', (State.setCpu { s with proc := wakeup1 s.proc (some (.addr ch)) } c
        { s.cpu c with pos := .woken }).cpu c' = if c' = c then { s.cpu c with pos := .woken } else s.cpu c' :=
      fun c' => cpu_setCpu ..
    refine hi.scheduler (c := c) ?_ (fun _ _ => Iff.rfl) ?_ (fun _ => Or.inl rfl) ?_ ?_ ⟨rfl, rfl⟩ (Or.inl ?_)
    · intro c' hc; rw [hcpu, if_neg hc]
    · unfold CpuOk
      rw [hcpu, if_pos rfl]
      exact hok
    · intro x hx; rw [hpos] at hx; cases hx
    · intro x
      rcases wakeup1_woken s.proc (some (.addr ch)) x with h | h
      · exact Or.inl h
      · exact Or.inr ⟨hok.2.2, Or.inl h⟩
    · rw [hcpu, if_pos rfl]
  | woken =>
    rw [hpos] at h hok
    cases h
    refine hi.local (fun x h => by rw [hpos] at h; cases h)
      (fun c' hc => lock_other (Or.inr hok.2.2) hc (Or.inl rfl)) (Or.inl rfl) ?_
    unfold CpuOk
    rw [cpu_setCpu, if_pos rfl]
    exact ⟨hok.1, hok.2.1, fun h => by cases h⟩

omit [DecidableEq C] in
/-- Where calls start. -/
theorem entry_some {f : Call} {k : Cont} {pc : Pc} (h : f.entry p k = some pc) : pc.Locked ∧ pc.expect = .RUNNING ∧
    (pc.cont = k ∨ pc.cont = .user) ∧ pc.reaps = none := by
  cases f <;> simp only [Call.entry] at h
  case yield | wakeup => cases h; exact ⟨(fun k h => by cases h), rfl, Or.inl rfl, rfl⟩
  all_goals
    split at h
    · cases h; exact ⟨(fun k h => by cases h), rfl, Or.inr rfl, rfl⟩
    · cases h

/-- **Every step keeps the invariant.** -/
theorem Inv.step (hi : Inv s) {a : Act C} (h : step s a = some t) : Inv t := by
  cases a with
  | next c ok =>
    simp only [Sched.step] at h
    split at h
    · next p hpos => exact hi.threadStep hpos h
    · exact hi.schedStep h
  | call c f =>
    simp only [Sched.step] at h
    split at h
    · next p hpos =>
      split at h
      · next k hk =>
        obtain ⟨pc, hpc, h⟩ := Option.bind_eq_some_iff.1 h
        obtain ⟨u, hu, rfl⟩ := Option.map_eq_some_iff.1 h
        obtain ⟨hl, rfl⟩ := acquire_some hu
        obtain ⟨h1, h2, h3, h4⟩ := entry_some hpc
        obtain ⟨-, -, -, hs⟩ := hi.switched hpos
        rw [hk] at hs
        refine hi.enter hpos hl h1 h2 hs (h3.imp_left fun h => ?_) h4
        rw [h, hk]
        rfl
      · cases h
    · cases h
  | irq c ch =>
    simp only [Sched.step] at h
    split at h
    · next hpos =>
      obtain ⟨u, hu, rfl⟩ := Option.map_eq_some_iff.1 h
      obtain ⟨hl, rfl⟩ := acquire_some hu
      have hok := hi.cpu c
      unfold CpuOk at hok
      rw [hpos] at hok
      refine hi.local (fun x h => by rw [hpos] at h; cases h) (fun c' hc => lock_other (Or.inl hl) hc (Or.inr rfl))
        (Or.inl rfl) ?_
      unfold CpuOk
      rw [cpu_setCpu, if_pos rfl]
      exact ⟨hok.1, hok.2.1, rfl⟩
    · cases h

omit [DecidableEq C] in
theorem boot_st (x : Slot) : (boot : State C).st x = if x = initproc then .RUNNABLE else .UNUSED := by
  show (Function.update (fun _ => Proc.zero) initproc _ x : Proc).state = _
  by_cases hx : x = initproc
  · subst hx; rfl
  · rw [Function.update_of_ne hx, if_neg hx]; rfl

omit [DecidableEq C] in
theorem boot_live {x : Slot} (h : ((boot : State C).st x).Live) : x = initproc := by
  by_contra hx
  rw [boot_st, if_neg hx] at h
  simp at h

omit [DecidableEq C] in
theorem boot_inv : Inv (boot : State C) := by
  have hpc : (boot : State C).pc initproc = .rel .user := rfl
  constructor
  · intro c
    exact ⟨rfl, rfl, fun h => by cases h⟩
  · intro c c' p h; cases h
  · intro p h
    rw [boot_st] at h
    split at h <;> cases h
  · intro p h _
    rw [boot_live h, hpc]
    exact Or.inl ⟨.user, rfl⟩
  · intro p np h hn
    rw [boot_live h, hpc] at hn
    cases hn
  · intro p p' np h h' _ _
    rw [boot_live h, boot_live h']
  · intro p np h hn
    rw [boot_live h, hpc] at hn
    rcases hn with h | h <;> cases h
  · intro p np h hn
    rw [boot_live h, hpc] at hn
    cases hn
  · intro p x h hx
    rw [boot_live h, hpc] at hx
    cases hx
  · rintro p (h | ⟨c, h⟩)
    · rw [boot_live h]; exact ⟨rfl, rfl⟩
    · cases h

/-- The invariant holds in every reachable state. -/
theorem Reachable.inv (h : Reachable s) : Inv s := by
  obtain ⟨tr, hr⟩ := h
  exact Lib.run_induction (fun _ s => Inv s) boot_inv (fun _ _ _ _ _ hi hs => hi.step hs) tr s hr

/-! ## One CPU -/

omit [DecidableEq C] in
/-- A CPU that has the page table of a process loaded has that process. -/
theorem Inv.loaded (hi : Inv s) {x : Slot} (h : (s.cpu c).cr3 = some x) : (s.cpu c).proc = some x := by
  have hok := hi.cpu c
  unfold CpuOk at hok
  split at hok
  all_goals
    have h2 := hok.2.1
    rw [h] at h2
    cases h2
  all_goals exact hok.1

omit [DecidableEq C] in
theorem ctx_some {u : Cpu} {x : Slot} (h : u.ctx = some x) : u.pos = .switched x := by
  unfold Cpu.ctx at h
  split at h
  · next p hp => cases h; exact hp
  · cases h

/-- The memory of the slot `x` is freed from `s` to `t`. -/
def Frees (s t : State C) (x : Slot) : Prop :=
  s.kstack x = true ∧ t.kstack x = false ∨ s.pgdir x = true ∧ t.pgdir x = false

/-- Nothing is freed from `s` to `t`. -/
def Keeps (s t : State C) : Prop :=
  (∀ x, s.kstack x = true → t.kstack x = true) ∧ ∀ x, s.pgdir x = true → t.pgdir x = true

omit [DecidableEq C] in
theorem Keeps.of_eq (hk : t.kstack = s.kstack) (hp : t.pgdir = s.pgdir) : Keeps s t :=
  ⟨fun x h => by rw [hk, h], fun x h => by rw [hp, h]⟩

omit [DecidableEq C] in
theorem Keeps.not_frees {x : Slot} (h : Keeps s t) : ¬ Frees s t x := by
  rintro (⟨h1, h2⟩ | ⟨h1, h2⟩)
  · rw [h.1 x h1] at h2; cases h2
  · rw [h.2 x h1] at h2; cases h2

theorem update_true {f : Slot → Bool} {x y : Slot} (h : f x = true) : Function.update f y true x = true := by
  rw [Function.update_apply]
  split
  · rfl
  · exact h

omit [DecidableEq C] in
theorem frees_kstack {x y : Slot} (h : Frees s t x) (hk : t.kstack = Function.update s.kstack y false)
    (hp : t.pgdir = s.pgdir) : x = y := by
  by_contra hxy
  rcases h with ⟨h1, h2⟩ | ⟨h1, h2⟩
  · rw [hk, Function.update_of_ne hxy, h1] at h2; cases h2
  · rw [hp, h1] at h2; cases h2

omit [DecidableEq C] in
theorem frees_pgdir {x y : Slot} (h : Frees s t x) (hk : t.kstack = s.kstack)
    (hp : t.pgdir = Function.update s.pgdir y false) : x = y := by
  by_contra hxy
  rcases h with ⟨h1, h2⟩ | ⟨h1, h2⟩
  · rw [hk, h1] at h2; cases h2
  · rw [hp, Function.update_of_ne hxy, h1] at h2; cases h2

omit [DecidableEq C] in
theorem acquire_keeps {f : State C → State C} (h : (s.acquire c).map f = some t) (hf : ∀ u, Keeps u (f u)) :
    Keeps s t := by
  obtain ⟨u, hu, rfl⟩ := Option.map_eq_some_iff.1 h
  obtain ⟨-, rfl⟩ := acquire_some hu
  exact hf { s with lock := some c }

/-- Only `wait`, for the child it has found, and a failing `fork` free memory. -/
theorem threadStep_frees {ok : Bool} (h : threadStep s c p ok = some t) {x : Slot} (hf : Frees s t x) :
    (s.pc p).reaps = some x ∨ s.pc p = .free (.stacked x) := by
  have hno : ¬ Keeps s t := fun hk => hk.not_frees hf
  unfold threadStep at h
  cases hpc : s.pc p with
  | free k =>
    rw [hpc] at h
    cases k with
    | user => cases h
    | alloced np =>
      simp only at h
      split at h
      · cases h; exact absurd ⟨fun _ => update_true, fun _ h => h⟩ hno
      · cases h; exact (hno (Keeps.of_eq rfl rfl)).elim
    | stacked np =>
      simp only at h
      split at h
      · cases h; exact absurd ⟨fun _ h => h, fun _ => update_true⟩ hno
      · cases h
        rw [frees_kstack (y := np) hf rfl rfl]
        exact Or.inr rfl
    | copied np =>
      simp only at h
      exact absurd (acquire_keeps h fun u => Keeps.of_eq rfl rfl) hno
  | reap0 y =>
    rw [hpc] at h
    cases h
    rw [frees_kstack (y := y) hf rfl rfl]
    exact Or.inl rfl
  | reap1 y =>
    rw [hpc] at h
    cases h
    rw [frees_pgdir (y := y) hf rfl rfl]
    exact Or.inl rfl
  | wait0 =>
    rw [hpc] at h
    simp only at h
    split at h
    · cases h; exact (hno (Keeps.of_eq rfl rfl)).elim
    · split at h
      · cases h; exact (hno (Keeps.of_eq rfl rfl)).elim
      · cases h; exact (hno (Keeps.of_eq rfl rfl)).elim
  | alloc =>
    rw [hpc] at h
    simp only at h
    split at h
    · cases h; exact (hno (Keeps.of_eq rfl rfl)).elim
    · cases h; exact (hno (Keeps.of_eq rfl rfl)).elim
  | kill pid =>
    rw [hpc] at h
    simp only at h
    split at h
    · cases h; exact (hno (Keeps.of_eq rfl rfl)).elim
    · cases h; exact (hno (Keeps.of_eq rfl rfl)).elim
  | exit0 =>
    rw [hpc] at h
    simp only at h
    generalize passChildren (wakeup1 s.proc ((s.proc p).parent.map .proc)) p = tb at h
    cases h
    exact (hno (Keeps.of_eq rfl rfl)).elim
  | exit3 => rw [hpc] at h; cases h
  | _ =>
    rw [hpc] at h
    cases h
    exact (hno (Keeps.of_eq rfl rfl)).elim

theorem schedStep_keeps (h : schedStep s c = some t) : Keeps s t := by
  unfold schedStep at h
  split at h
  · exact acquire_keeps h fun u => Keeps.of_eq rfl rfl
  · split at h
    · split at h
      · cases h; exact Keeps.of_eq rfl rfl
      · cases h; exact Keeps.of_eq rfl rfl
    · cases h; exact Keeps.of_eq rfl rfl
  · cases h; exact Keeps.of_eq rfl rfl
  · cases h; exact Keeps.of_eq rfl rfl
  · cases h; exact Keeps.of_eq rfl rfl
  · cases h
  · cases h; exact Keeps.of_eq rfl rfl
  · cases h; exact Keeps.of_eq rfl rfl
  · cases h; exact Keeps.of_eq rfl rfl
  · cases h; exact Keeps.of_eq rfl rfl

/-- Memory is freed only while no CPU has the process. -/
theorem Inv.step_frees (hi : Inv s) {a : Act C} (h : Sched.step s a = some t) {x : Slot} (hf : Frees s t x) (c : C) :
    (s.cpu c).proc ≠ some x := by
  cases a with
  | next d ok =>
    simp only [Sched.step] at h
    split at h
    · next p hpos =>
      rcases threadStep_frees h hf with hr | hr
      · exact (hi.reap_alone hpos hr).2.2 c
      · have hs := (hi.switched hpos).2.2.2
        rw [hr] at hs
        refine hi.not_current (Or.inl (hi.forks p x ?_ ?_)) c
        · rw [hs]; exact ProcState.live_running
        · rw [hr]; rfl
    · exact absurd hf (schedStep_keeps h).not_frees
  | call d f =>
    simp only [Sched.step] at h
    split at h
    · split at h
      · obtain ⟨pc, -, h⟩ := Option.bind_eq_some_iff.1 h
        exact absurd hf (acquire_keeps h fun u => Keeps.of_eq rfl rfl).not_frees
      · cases h
    · cases h
  | irq d ch =>
    simp only [Sched.step] at h
    split at h
    · exact absurd hf (acquire_keeps h fun u => Keeps.of_eq rfl rfl).not_frees
    · cases h

/-- What holds of processes and CPUs in the state `s`. -/
structure OneCpu (s : State C) : Prop where
  /-- A process is `RUNNING` exactly when one CPU has it, unless the CPU that holds `ptable.lock` has it; while the lock
  is free, that is every process. -/
  running : ∀ p, (∀ c, s.lock = some c → (s.cpu c).proc ≠ some p) → (s.st p = .RUNNING ↔ ∃! c, (s.cpu c).proc = some p)
  /-- No process is current on two CPUs. -/
  current : ∀ c c' p, (s.cpu c).proc = some p → (s.cpu c').proc = some p → c = c'
  /-- No two CPUs execute the context of one process. -/
  context : ∀ c c' p, (s.cpu c).ctx = some p → (s.cpu c').ctx = some p → c = c'
  /-- A CPU executes on an allocated kernel stack, with an allocated page table. -/
  memory : ∀ c p, (s.cpu c).ctx = some p ∨ (s.cpu c).cr3 = some p → s.kstack p = true ∧ s.pgdir p = true
  /-- No step frees the kernel stack or the page table of a process that a CPU has not switched away from. -/
  frees : ∀ a t p, step s a = some t → Frees s t p →
    ∀ c, (s.cpu c).proc ≠ some p ∧ (s.cpu c).ctx ≠ some p ∧ (s.cpu c).cr3 ≠ some p

/-- **A process runs on at most one CPU, and its kernel stack outlives its use**, in every reachable state. -/
theorem one_cpu (s : State C) (hr : Reachable s) : OneCpu s := by
  have hi := hr.inv
  have hctx : ∀ c p, (s.cpu c).ctx = some p → (s.cpu c).proc = some p := fun c p h => (hi.switched (ctx_some h)).1
  refine ⟨?_, hi.apart, ?_, ?_, ?_⟩
  · intro p hno
    constructor
    · intro hp
      obtain ⟨c, hc⟩ := hi.running p hp
      exact ⟨c, hc, fun c' hc' => hi.apart c' c p hc' hc⟩
    · rintro ⟨c, hc, -⟩
      exact (hi.unlocked hc fun hl => hno c hl hc).2
  · intro c c' p h h'
    exact hi.apart c c' p (hctx c p h) (hctx c' p h')
  · rintro c p (h | h)
    · exact hi.memory p (Or.inr ⟨c, hctx c p h⟩)
    · exact hi.memory p (Or.inr ⟨c, hi.loaded h⟩)
  · intro a t p h hf c
    have hc := hi.step_frees h hf c
    exact ⟨hc, fun h => hc (hctx c p h), fun h => hc (hi.loaded h)⟩

/-- CPU 0 takes `initproc` up to its first release of the lock. -/
def firstSwitch : List (Act (Fin 2)) := List.replicate 6 (.next 0 true)

/-- On a machine with two CPUs, `initproc` runs on the CPU 0. -/
theorem one_cpu_two : ∃ s : State (Fin 2), Reachable s ∧ OneCpu s ∧ s.lock = none ∧ s.st initproc = .RUNNING := by
  have hrun : (Lib.run step boot firstSwitch).map (fun s => (s.lock, s.st initproc)) = some (none, .RUNNING) := by
    decide +kernel
  obtain ⟨s, hs, heq⟩ := Option.map_eq_some_iff.1 hrun
  obtain ⟨hl, hst⟩ := Prod.mk.inj heq
  exact ⟨s, ⟨_, hs⟩, one_cpu s ⟨_, hs⟩, hl, hst⟩

/-- While the scheduler switches to a process, the process is current on a CPU before it is `RUNNING`. -/
theorem current_not_running : ∃ s : State (Fin 2), Reachable s ∧
    ¬ ∀ p, s.st p = .RUNNING ↔ ∃! c, (s.cpu c).proc = some p := by
  have hrun : (Lib.run step boot (firstSwitch.take 2)).map
      (fun s => (s.st initproc, (s.cpu 0).proc, (s.cpu 1).proc)) = some (.RUNNABLE, some initproc, none) := by
    decide +kernel
  obtain ⟨s, hs, heq⟩ := Option.map_eq_some_iff.1 hrun
  obtain ⟨hst, heq⟩ := Prod.mk.inj heq
  obtain ⟨h0, h1⟩ := Prod.mk.inj heq
  refine ⟨s, ⟨_, hs⟩, fun h => ?_⟩
  have := (h initproc).2 ⟨0, h0, fun c hc => ?_⟩
  · rw [hst] at this; cases this
  · by_contra hne
    have hc1 : c = 1 := by omega
    rw [hc1, h1] at hc
    cases hc

end

end NewXv6.Ptable.Sched
