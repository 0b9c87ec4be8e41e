import NewXv6.Vm.Own
import NewXv6.Vm.Runs

/-!
# The calls keep the pages apart

One lemma for each call: started when no page is used twice, it leaves no page that is used twice and frees no page that
is free, as long as no store misses the user pages. From them `pages_once`, about every run, and a program whose segment
reaches into the kernel for which it fails.
-/

namespace NewXv6.Vm

open Lib

section

variable {s : State} {d : Pgdir} {pid : Fin NPROC} {p : Page} {x : Proc} {outside : Outside} {kernelEnd : Page}

/-- No page is used twice. -/
def Inv (s : State) : Prop := Owns s.inUse s.kmem

theorem Inv.once (h : Inv s) : Once s := h

theorem lift_wp {α : Type} (m : Alloc α) (Q : α → State → Prop) :
    Wp once (liftM m : Kern α) Q s ↔ Wp once m (fun a kmem => Q a { s with kmem }) s.kmem := wp_zoom _ _ m Q s

/-- A step of a call, which holds the pages of `d`: only the allocator changes. -/
def Building (s : State) (d : Pgdir) : Prop := Owns (fun p => s.inUse p + d.uses p) s.kmem

theorem inUse_setProc (pid : Fin NPROC) (q : Option Proc) :
    ({ s with proc := Function.update s.proc pid q } : State).inUse p + Proc.uses (s.proc pid) p =
      s.inUse p + Proc.uses q p := by
  have := sum_update (fun x => Proc.uses x p) s.proc pid q
  simp only [State.inUse]
  omega

theorem inUse_setPipe (j : Fin NFILE) (q : Option Pipe) :
    ({ s with pipe := Function.update s.pipe j q } : State).inUse p + Pipe.uses (s.pipe j) p =
      s.inUse p + Pipe.uses q p := by
  have := sum_update (fun x => Pipe.uses x p) s.pipe j q
  simp only [State.inUse]
  omega

/-! ## `exec` -/

/-- A store that misses the user pages is left out of account. -/
theorem wp_wild {α : Type} {k : Unit → Kern α} {a : Nat} {Q : α → State → Prop} :
    Wp once (Prog.emit (.wild a) >>= k) Q s := by
  rw [wp_bind, wp_emit]
  exact fun h => h.elim

theorem wp_loadFrom (addr : UInt32) (sz fuel : Nat) : ∀ {i got : Nat} {Q : Pgdir × Bool → State → Prop},
    (∀ b, Q (d, b) s) → Wp once (loadFrom outside addr sz fuel i got d) Q s := by
  induction fuel with
  | zero =>
    intro i got Q hQ
    exact (wp_pure _ _ _).2 (hQ _)
  | succ fuel ih =>
    intro i got Q hQ
    rw [loadFrom, wp_ite, wp_pure]
    refine ⟨fun _ => ?_, fun _ => hQ _⟩
    dsimp only
    cases d.table (Pgdir.pdx ((addr + UInt32.ofNat i).toNat / PGSIZE)) with
    | none => exact (wp_throw _ _ _).2 trivial
    | some pt =>
      dsimp only
      rw [wp_ite, wp_bind, wp_pure, wp_ite, wp_pure]
      refine ⟨fun _ => ⟨fun _ => hQ _, fun _ => ih hQ⟩, fun _ => ?_⟩
      rw [wp_bind, wildStore]
      exact wp_wild

theorem wp_loaduvm (addr sz : UInt32) (got : Nat) {Q : Pgdir × Bool → State → Prop} (hQ : ∀ b, Q (d, b) s) :
    Wp once (loaduvm outside d addr sz got) Q s := by
  rw [loaduvm, wp_ite, wp_throw]
  exact ⟨fun _ => trivial, fun _ => wp_loadFrom addr _ _ hQ⟩

theorem wp_loadSegments (phs : List Segment) : ∀ {s : State} {d : Pgdir} {sz : Size}, Building s d →
    ∀ {Q : Pgdir × Option Size → State → Prop}, (∀ d r kmem, Building { s with kmem } d → Q (d, r) { s with kmem }) →
      Wp once (loadSegments outside kernelEnd d sz phs) Q s := by
  induction phs with
  | nil =>
    intro s d sz h Q hQ
    exact (wp_pure _ _ _).2 (hQ d _ s.kmem h)
  | cons ph phs ih =>
    intro s d sz h Q hQ
    -- `bad`
    have hbad : ∀ {kmem : Kmem} {d : Pgdir}, Building { s with kmem } d → Wp once (pure (d, none)) Q { s with kmem } :=
      fun h => (wp_pure _ _ _).2 (hQ _ _ _ h)
    rw [loadSegments, wp_ite, wp_ite, wp_ite]
    refine ⟨fun _ => hbad h, fun _ => ⟨fun _ => ih h hQ, fun _ => ⟨fun _ => hbad h, fun _ => ?_⟩⟩⟩
    rw [wp_bind, lift_wp]
    refine wp_allocuvm h sz _ fun d n m hm => ?_
    dsimp only
    rw [wp_ite]
    refine ⟨fun _ => hbad hm, fun _ => ?_⟩
    rw [wp_bind]
    refine wp_loaduvm _ _ _ fun ok => ?_
    dsimp only
    rw [wp_ite]
    exact ⟨fun _ => ih (s := { s with kmem := m }) hm hQ, fun _ => hbad hm⟩

theorem wp_clearpteu (a : Nat) {Q : Pgdir → State → Prop} (hQ : ∀ d', (∀ p, d'.uses p = d.uses p) → Q d' s) :
    Wp once (clearpteu d a) Q s := by
  rw [clearpteu]
  cases hd : d.table (Pgdir.pdx a) with
  | none => exact (wp_throw _ _ _).2 trivial
  | some pt =>
    refine (wp_pure _ _ _).2 (hQ _ fun p => ?_)
    have := Pgdir.uses_setPte (p := p) hd ((pt.pte (Pgdir.ptx a)).map fun x => { x with user := false })
    have hsame : Pte.uses ((pt.pte (Pgdir.ptx a)).map fun x => { x with user := false }) p =
        Pte.uses (pt.pte (Pgdir.ptx a)) p := by
      cases pt.pte (Pgdir.ptx a) with
      | none => rfl
      | some y => rfl
    omega

theorem wp_copyout (fuel : Nat) : ∀ {va : UInt32} {len : Nat} {Q : Pgdir × Bool → State → Prop}, (∀ b, Q (d, b) s) →
    Wp once (copyout outside fuel d va len) Q s := by
  induction fuel with
  | zero =>
    intro va len Q hQ
    exact (wp_pure _ _ _).2 (hQ _)
  | succ fuel ih =>
    intro va len Q hQ
    rw [copyout, wp_ite, wp_pure]
    refine ⟨fun _ => hQ _, fun _ => ?_⟩
    dsimp only
    cases d.table (Pgdir.pdx (va.toNat / PGSIZE)) with
    | none => exact wp_wild
    | some pt =>
      dsimp only
      rw [wp_ite, wp_pure]
      exact ⟨fun _ => ih hQ, fun _ => hQ _⟩

theorem wp_pushArgs (args : List Nat) : ∀ {sp : UInt32} {argc : Nat} {Q : Pgdir × Bool → State → Prop},
    (∀ b, Q (d, b) s) → Wp once (pushArgs outside d sp argc args) Q s := by
  induction args with
  | nil =>
    intro sp argc Q hQ
    exact wp_copyout _ hQ
  | cons len args ih =>
    intro sp argc Q hQ
    rw [pushArgs, wp_ite, wp_pure]
    refine ⟨fun _ => hQ _, fun _ => ?_⟩
    rw [wp_bind]
    refine wp_copyout _ fun ok => ?_
    dsimp only
    rw [wp_ite, wp_pure]
    exact ⟨fun _ => ih hQ, fun _ => hQ _⟩

theorem wp_execBad (h : Building s d) {Q : Unit → State → Prop} (hQ : ∀ t, Inv t → Q () t) :
    Wp once (execBad kernelEnd d) Q s := by
  rw [execBad, lift_wp]
  exact wp_freevm h fun m hm => hQ { s with kmem := m } hm

theorem wp_setProc (q : Option Proc) {Q : Unit → State → Prop}
    (hQ : Q () { s with proc := Function.update s.proc pid q }) : Wp once (setProc pid q) Q s := by
  rw [setProc, wp_modify]
  exact hQ

/-- The new image takes the place of the old one, which is freed. -/
theorem wp_exec (h : Inv s) (hp : s.proc pid = some x) (image : Image) {Q : Unit → State → Prop}
    (hQ : ∀ t, Inv t → Q () t) : Wp once (exec outside kernelEnd pid x image) Q s := by
  rw [exec, wp_ite, wp_pure]
  refine ⟨fun _ => hQ s h, fun _ => ?_⟩
  rw [wp_bind, lift_wp]
  refine wp_setupkvm h (fun m hm => (wp_pure _ _ _).2 (hQ _ hm)) fun d m hm => ?_
  dsimp only
  rw [wp_bind]
  refine wp_loadSegments (s := { s with kmem := m }) _ hm fun d r m hm => ?_
  cases r with
  | none => exact wp_execBad hm hQ
  | some sz =>
    dsimp only
    rw [wp_bind, lift_wp]
    refine wp_allocuvm hm _ _ fun d n m hm => ?_
    dsimp only
    rw [wp_ite]
    refine ⟨fun _ => wp_execBad (s := { s with kmem := m }) hm hQ, fun _ => ?_⟩
    rw [wp_bind]
    refine wp_clearpteu _ fun d' hd' => ?_
    have hm' : Owns (fun p => s.inUse p + d'.uses p) m := hm.mono fun p => by
      show s.inUse p + d'.uses p ≤ s.inUse p + d.uses p
      rw [hd']
    rw [wp_bind]
    refine wp_pushArgs _ fun ok => ?_
    dsimp only
    rw [wp_ite]
    refine ⟨fun _ => ?_, fun _ => wp_execBad (s := { s with kmem := m }) hm' hQ⟩
    rw [wp_bind]
    refine wp_setProc _ ?_
    rw [lift_wp]
    refine wp_freevm (g := ({ s with proc := Function.update s.proc pid (some { x with pgdir := d', sz := n }) } : State).inUse)
      (hm'.mono fun p => ?_) fun m hm => hQ _ hm
    have := inUse_setProc (s := s) (p := p) pid (some { x with pgdir := d', sz := n })
    rw [hp] at this
    simp only [Proc.uses, Option.elim_some] at this
    omega

/-! ## `proc.c` -/

/-- What a change of the memory of one process leaves. -/
theorem inv_setProc {g : Page → Nat} {m : Kmem} (hm : Owns g m) {q : Option Proc}
    (hle : ∀ p, s.inUse p + Proc.uses q p ≤ g p + Proc.uses (s.proc pid) p) :
    Inv { s with kmem := m, proc := Function.update s.proc pid q } := by
  refine hm.mono fun p => ?_
  have := inUse_setProc (s := s) (p := p) pid q
  have := hle p
  show ({ s with proc := Function.update s.proc pid q } : State).inUse p ≤ g p
  omega

theorem wp_growproc (h : Inv s) (hp : s.proc pid = some x) (n : Int32) {Q : Unit → State → Prop}
    (hQ : ∀ t, Inv t → Q () t) : Wp once (growproc kernelEnd pid x n) Q s := by
  -- what is there besides the page directory of the process
  have hsplit : Owns (fun p => s.inUse p - x.pgdir.uses p + x.pgdir.uses p) s.kmem := h.mono fun p => by
    have := inUse_setProc (s := s) (p := p) pid none
    rw [hp] at this
    simp only [Proc.uses, Option.elim_some, Option.elim_none] at this
    omega
  have hdone : ∀ (r : Pgdir × Size) (m : Kmem), Owns (fun p => s.inUse p - x.pgdir.uses p + r.1.uses p) m →
      Wp once (setProc pid (some { x with pgdir := r.1, sz := if r.2 = 0 then x.sz else r.2 })) Q { s with kmem := m } := by
    intro r m hm
    refine wp_setProc _ (hQ _ (inv_setProc (s := s) hm fun p => ?_))
    have := inUse_setProc (s := s) (p := p) pid none
    rw [hp] at this ⊢
    simp only [Proc.uses, Option.elim_some, Option.elim_none] at this ⊢
    omega
  rw [growproc, wp_ite, wp_pure]
  refine ⟨fun _ => hQ s h, fun _ => ?_⟩
  rw [wp_bind, lift_wp]
  refine (?_ : Wp once _ (fun r m => Owns (fun p => s.inUse p - x.pgdir.uses p + r.1.uses p) m) _).mono fun r m hm => ?_
  swap
  · obtain ⟨d, n⟩ := r
    exact hdone (d, n) m hm
  rw [wp_ite]
  refine ⟨fun _ => ?_, fun _ => ?_⟩
  · exact wp_allocuvm (g := fun p => s.inUse p - x.pgdir.uses p) hsplit _ _ fun _ _ _ hm => hm
  · exact wp_deallocuvm (g := fun p => s.inUse p - x.pgdir.uses p) hsplit _ _ fun _ _ _ hm => hm

theorem wp_fork (h : Inv s) {Q : Unit → State → Prop} (hQ : ∀ t, Inv t → Q () t) :
    Wp once (fork kernelEnd pid x) Q s := by
  rw [fork, wp_bind, wp_get]
  generalize hfind : List.find? _ _ = r
  cases r with
  | none => exact (wp_pure _ _ _).2 (hQ s h)
  | some np =>
    have hnp : s.proc np = none := by simpa using List.find?_some hfind
    dsimp only
    rw [wp_bind, lift_wp]
    refine wp_kalloc h (fun m hm => (wp_pure _ _ _).2 (hQ _ hm)) fun kstack m hm => ?_
    dsimp only
    rw [wp_bind, lift_wp]
    refine wp_copyuvm hm x.pgdir x.sz (fun m hm => ?_) fun c m hm => ?_
    · dsimp only
      rw [lift_wp]
      exact wp_kfree hm fun m hm => hQ _ hm
    · refine wp_setProc _ (hQ _ (inv_setProc (s := s) hm fun p => ?_))
      rw [hnp]
      simp only [Proc.uses, Option.elim_some, Option.elim_none]
      omega

/-- `exit` uses and frees no page. -/
theorem exited_uses (pid : Fin NPROC) (proc : Fin NPROC → Option Proc) (q : Fin NPROC) :
    Proc.uses (exited pid proc q) p = Proc.uses (proc q) p := by
  unfold exited
  cases proc q with
  | none => rfl
  | some x => rfl

theorem wp_exit (h : Inv s) {Q : Unit → State → Prop} (hQ : ∀ t, Inv t → Q () t) : Wp once (exit pid) Q s := by
  rw [exit, wp_ite, wp_throw, wp_modify]
  refine ⟨fun _ => trivial, fun _ => hQ _ (h.mono fun p => ?_)⟩
  simp only [State.inUse, exited_uses]
  exact Nat.le_refl _

/-- `wait` frees what a zombie still uses. -/
theorem wp_wait (h : Inv s) {Q : Unit → State → Prop} (hQ : ∀ t, Inv t → Q () t) : Wp once (wait kernelEnd pid) Q s := by
  rw [wait, wp_bind, wp_get]
  cases List.find? (fun q => (s.proc q).any fun x => x.zombie && decide (x.parent = pid)) (List.finRange NPROC) with
  | none => exact (wp_pure _ _ _).2 (hQ s h)
  | some q =>
    dsimp only
    cases hq : s.proc q with
    | none => exact (wp_pure _ _ _).2 (hQ s h)
    | some x =>
      dsimp only
      rw [wp_bind, lift_wp]
      have hle := fun p => inUse_setProc (s := s) (p := p) q none
      simp only [hq, Proc.uses, Option.elim_some, Option.elim_none] at hle
      refine wp_kfree (g := fun p => s.inUse p - (one x.kstack p + x.pgdir.uses p) + x.pgdir.uses p) (h.mono fun p => ?_)
        fun m hm => ?_
      · have := hle p
        omega
      · rw [wp_bind, lift_wp]
        refine wp_freevm hm fun m hm => wp_setProc _ (hQ _ (inv_setProc (s := s) hm fun p => ?_))
        have := hle p
        rw [hq]
        simp only [Proc.uses, Option.elim_some, Option.elim_none]
        omega

/-! ## `pipe.c` -/

theorem inv_setPipe {g : Page → Nat} {m : Kmem} (hm : Owns g m) {j : Fin NFILE} {q : Option Pipe}
    (hle : ∀ p, s.inUse p + Pipe.uses q p ≤ g p + Pipe.uses (s.pipe j) p) :
    Inv { s with kmem := m, pipe := Function.update s.pipe j q } := by
  refine hm.mono fun p => ?_
  have := inUse_setPipe (s := s) (p := p) j q
  have := hle p
  show ({ s with pipe := Function.update s.pipe j q } : State).inUse p ≤ g p
  omega

theorem wp_pipealloc (h : Inv s) {Q : Unit → State → Prop} (hQ : ∀ t, Inv t → Q () t) : Wp once pipealloc Q s := by
  rw [pipealloc, wp_bind, wp_get]
  generalize hfind : List.find? _ _ = r
  cases r with
  | none => exact (wp_pure _ _ _).2 (hQ s h)
  | some j =>
    have hj : s.pipe j = none := by simpa using List.find?_some hfind
    dsimp only
    rw [wp_bind, lift_wp]
    refine wp_kalloc h (fun m hm => (wp_pure _ _ _).2 (hQ _ hm)) fun page m hm => ?_
    dsimp only
    rw [setPipe, wp_modify]
    refine hQ _ (inv_setPipe (s := s) hm fun p => ?_)
    rw [hj]
    simp only [Pipe.uses, Option.elim_some, Option.elim_none]
    omega

theorem wp_pipeclose (h : Inv s) (j : Fin NFILE) (writable : Bool) {Q : Unit → State → Prop} (hQ : ∀ t, Inv t → Q () t) :
    Wp once (pipeclose kernelEnd j writable) Q s := by
  rw [pipeclose, wp_bind, wp_get]
  cases hj : s.pipe j with
  | none => exact (wp_pure _ _ _).2 (hQ s h)
  | some x =>
    dsimp only
    rw [wp_ite, wp_pure]
    refine ⟨fun _ => hQ s h, fun _ => ?_⟩
    have hpage : (if writable then { x with writeopen := false } else { x with readopen := false } : Pipe).page = x.page := by
      split <;> rfl
    generalize (if writable then { x with writeopen := false } else { x with readopen := false } : Pipe) = y at hpage
    rw [wp_ite]
    refine ⟨fun _ => ?_, fun _ => ?_⟩
    · rw [wp_bind, lift_wp]
      have hle := fun p => inUse_setPipe (s := s) (p := p) j none
      simp only [hj, Pipe.uses, Option.elim_some, Option.elim_none] at hle
      refine wp_kfree (g := fun p => s.inUse p - one x.page p) (h.mono fun p => ?_) fun m hm => ?_
      · have := hle p
        rw [hpage]
        omega
      · rw [setPipe, wp_modify]
        refine hQ _ (inv_setPipe (s := s) hm fun p => ?_)
        have := hle p
        rw [hj]
        simp only [Pipe.uses, Option.elim_some, Option.elim_none]
        omega
    · rw [setPipe, wp_modify]
      refine hQ _ (inv_setPipe (s := s) h fun p => ?_)
      rw [hj]
      simp only [Pipe.uses, Option.elim_some, hpage]
      exact Nat.le_refl _

/-! ## Runs -/

theorem wp_syscall (h : Inv s) (pid : Fin NPROC) (c : Call) {Q : Unit → State → Prop} (hQ : ∀ t, Inv t → Q () t) :
    Wp once (syscall outside kernelEnd pid c) Q s := by
  rw [syscall, wp_bind, wp_get]
  cases hp : s.proc pid with
  | none => exact (wp_pure _ _ _).2 (hQ s h)
  | some x =>
    dsimp only
    rw [wp_ite, wp_pure]
    refine ⟨fun _ => hQ s h, fun _ => ?_⟩
    cases c with
    | fork => exact wp_fork h hQ
    | exec image => exact wp_exec h hp image hQ
    | sbrk n => exact wp_growproc h hp n hQ
    | exit => exact wp_exit h hQ
    | wait => exact wp_wait h hQ
    | pipe => exact wp_pipealloc h hQ
    | close j writable => exact wp_pipeclose h j writable hQ

end

/-! ### Booting -/

section

variable {outside : Outside} {kernelEnd : Page} {s : State}

theorem mem_freerange {start stop p : Nat} : p ∈ freerange start stop ↔ start ≤ p ∧ p < stop := by
  unfold freerange
  rw [List.mem_map]
  constructor
  · rintro ⟨i, hi, rfl⟩
    have := List.mem_range.1 hi
    show start ≤ stop - 1 - i ∧ stop - 1 - i < stop
    omega
  · intro h
    refine ⟨stop - 1 - p, List.mem_range.2 (by omega), ?_⟩
    show stop - 1 - (stop - 1 - p) = p
    omega

theorem nodup_freerange (start stop : Nat) : (freerange start stop).Nodup := by
  unfold freerange
  have hinj : ∀ i j : Nat, i < stop - start → j < stop - start → stop - 1 - i = stop - 1 - j → i = j := by omega
  exact List.Nodup.map_on (fun i hi j hj => hinj i j (List.mem_range.1 hi) (List.mem_range.1 hj)) List.nodup_range

/-- The pages that `kinit2` is going to free. -/
def later (p : Page) : Nat := (freerange NPTENTRIES (PHYSTOP / PGSIZE)).count p

theorem start_owns (kernelEnd : Page) (fails : Nat → Bool) :
    Owns (fun p => later p + (start kernelEnd fails).inUse p) (start kernelEnd fails).kmem := by
  have hnodup : (freerange kernelEnd NPTENTRIES ++ freerange NPTENTRIES (PHYSTOP / PGSIZE)).Nodup := by
    refine List.nodup_append.2 ⟨nodup_freerange _ _, nodup_freerange _ _, fun p hp q hq => ?_⟩
    exact Nat.ne_of_lt (Nat.lt_of_lt_of_le (mem_freerange.1 hp).2 (mem_freerange.1 hq).1)
  intro p
  have hcount := List.nodup_iff_count_le_one.1 hnodup p
  rw [List.count_append] at hcount
  have hprocs : ∑ _q : Fin NPROC, Proc.uses none p = 0 := Finset.sum_eq_zero fun _ _ => rfl
  have hpipes : ∑ _j : Fin NFILE, Pipe.uses none p = 0 := Finset.sum_eq_zero fun _ _ => rfl
  show (freerange kernelEnd NPTENTRIES).count p + (later p + (0 + 0 + ∑ _q : Fin NPROC, Proc.uses none p +
    ∑ _j : Fin NFILE, Pipe.uses none p)) ≤ 1
  unfold later
  omega

theorem wp_startothers (ncpu : Nat) {g : Page → Nat} : ∀ {s : State}, Owns (fun p => g p + s.inUse p) s.kmem →
    ∀ {Q : Unit → State → Prop}, (∀ t, Owns (fun p => g p + t.inUse p) t.kmem → t.proc = s.proc → Q () t) →
      Wp once (startothers ncpu) Q s := by
  induction ncpu with
  | zero =>
    intro s h Q hQ
    exact (wp_pure _ _ _).2 (hQ s h rfl)
  | succ ncpu ih =>
    intro s h Q hQ
    rw [startothers, wp_bind, lift_wp]
    refine wp_kalloc h (fun m hm => ih (s := { s with kmem := m }) hm hQ) fun stack m hm => ?_
    dsimp only
    rw [wp_bind, wp_modify]
    refine ih (s := { s with kmem := m, cpustack := stack :: s.cpustack }) (hm.mono fun p => ?_) hQ
    simp only [State.inUse, List.count_cons, one, beq_iff_eq]
    omega

theorem wp_main (ncpu : Nat) (fails : Nat → Bool) {Q : Unit → State → Prop} (hQ : ∀ t, Inv t → Q () t) :
    Wp once (main ncpu) Q (start kernelEnd fails) := by
  have hstop : ∀ {s : State}, Wp once (Prog.throw .outOfMemory) Q s := (wp_throw _ _ _).2 trivial
  rw [main, wp_bind, lift_wp]
  refine wp_setupkvm (start_owns kernelEnd fails) (fun m _ => hstop) fun kpgdir m hm => ?_
  dsimp only
  rw [wp_bind, wp_modify, wp_bind]
  refine wp_startothers ncpu (g := later) (s := { start kernelEnd fails with kmem := m, kpgdir := some kpgdir })
    (hm.mono fun p => ?_) fun t ht hproc => ?_
  · simp only [State.inUse, start, Option.elim_some, Option.elim_none]
    omega
  rw [wp_bind, wp_modify, wp_bind, lift_wp]
  have ht' : Owns t.inUse { t.kmem with freelist := freerange NPTENTRIES (PHYSTOP / PGSIZE) ++ t.kmem.freelist } := by
    intro p
    have := ht p
    unfold later at this
    beta_reduce at this
    rw [List.count_append]
    omega
  refine wp_kalloc ht' (fun m _ => hstop) fun kstack m hm => ?_
  dsimp only
  rw [wp_bind, lift_wp]
  refine wp_setupkvm hm (fun m _ => hstop) fun pgdir m hm => ?_
  dsimp only
  rw [wp_bind, lift_wp]
  refine wp_kalloc hm (fun m _ => hstop) fun mem m hm => ?_
  dsimp only
  rw [wp_bind, lift_wp]
  refine wp_mappages 0 { page := mem, user := true } hm fun d b m hm => ?_
  refine wp_setProc _ (hQ _ (inv_setProc (s := t) hm fun p => ?_))
  rw [hproc]
  simp only [start, Proc.uses, Option.elim_some, Option.elim_none]
  omega

/-- **No page is ever used twice, and none is freed twice**, in every run in which no store of `exec` misses the user
pages. -/
theorem pages_once (ncpu : Nat) (fails : Nat → Bool) (tr : List (Fin NPROC × Call)) {r : Except Stop (Unit × State)}
    {w : List Event} (hrun : machine outside kernelEnd ncpu tr (start kernelEnd fails) = (r, w)) (hw : ∀ x ∈ w, x.Tame) :
    (∀ v l, .kfree v l ∈ w → v ∉ l) ∧ ∀ t, r = .ok ((), t) → Once t := by
  have hall : Wp once (machine outside kernelEnd ncpu tr) (fun _ t => Inv t) (start kernelEnd fails) := by
    rw [machine, wp_bind]
    refine wp_main ncpu fails fun t ht => ?_
    exact wp_forEach (fun _ t => Inv t) (fun c _ _ h => wp_syscall h c.1 c.2 fun _ hu => hu) tr t ht
  obtain ⟨hevents, hend⟩ := hall
  rw [hrun] at hevents hend
  refine ⟨fun v l hv => hevents.ensure hw _ hv, fun t ht => ?_⟩
  have := hend hw
  rw [ht] at this
  exact Inv.once this

/-- Stores that do nothing. -/
def noStore : Outside where
  store _ x := x
  nullPte _ _ := none

/-- A child grows, and a pipe is opened and closed; the last `kalloc` of the child fails. -/
def childRun : List (Fin NPROC × Call) :=
  [(0, .fork), (1, .sbrk 12288), (0, .pipe), (0, .close 0 true), (0, .close 0 false)]

theorem pages_once_child : ∃ t w, machine noStore 300 1 childRun (start 300 fun n => n == 228) = (.ok ((), t), w) ∧
    (∀ v l, .kfree v l ∈ w → v ∉ l) ∧ Once t := by
  have hrun : (match machine noStore 300 1 childRun (start 300 fun n => n == 228) with
    | (.ok _, w) => w.all fun x => decide x.Tame
    | (.error _, _) => false) = true := by decide +kernel
  rcases h : machine noStore 300 1 childRun (start 300 fun n => n == 228) with ⟨_ | ⟨_, t⟩, w⟩
  · rw [h] at hrun
    cases hrun
  · rw [h] at hrun
    obtain ⟨hfreed, hend⟩ := pages_once 1 _ childRun h fun x hx => of_decide_eq_true (List.all_eq_true.1 hrun x hx)
    exact ⟨t, w, rfl, hfreed, hend t rfl⟩

end

/-! ## A segment over the allocator -/

section Twice

variable {m : Kmem} {s : State} {pid : Fin NPROC} {p : Proc} {dir : Page} {rest : List Page} {d : Pgdir} {kernelEnd : Page}

/-- A program whose segment covers the page of `kmem`, at `0x80112000`: the sum of `vaddr` and `memsz` wraps to one page. -/
def kernelProgram : Image where
  elf := true
  segments := [{ read := true, load := true, vaddr := 0x80112000, memsz := 0x7FEEF000, filesz := 0x1000, got := 1 }]
  args := []

/-- The bytes of that segment put the address of the first user page of the new image into `kmem.freelist`; the page is
zero, so it is also the last one of the list. -/
def kmemStore : Outside where
  store _ x :=
    let user := ((x.2.table 0).bind fun pt => pt.pte 0).map Pte.page
    ({ x.1 with kmem := { x.1.kmem with freelist := user.toList } }, x.2)
  nullPte _ _ := none

/-- The first page is allocated, with its page table. -/
theorem allocuvm_first {mem tbl : Page} (ht : d.table (Pgdir.pdx 0) = none) (hl : m.freelist = mem :: tbl :: rest)
    (h : m.fails 0 = false) (h' : m.fails 1 = false) : allocuvm kernelEnd d 0 0x1000 m =
      (.ok ((d.setPte 0 { page := tbl, pte := fun _ => none } (some { page := mem, user := true }), ⟨0x1000, by decide⟩),
        { freelist := rest, fails := fun n => m.fails (n + 2) }), []) := by
  unfold allocuvm
  rw [dif_neg (by decide), if_neg (by decide)]
  rw [show (0x1000 : UInt32).toNat / PGSIZE + 1 = 1 + 1 from rfl, show pageRoundUp (0 : Size) = 0 from rfl, allocFrom, if_pos (by decide)]
  refine Prog.run_bind (kalloc_first hl h) (v := []) ?_
  refine Prog.run_bind (a := (d.setPte 0 { page := tbl, pte := fun _ => none } (some { page := mem, user := true }), true))
    (t := { freelist := rest, fails := fun n => m.fails (n + 2) }) (w := []) (v := []) ?_ ?_
  · rw [mappages, ht]
    exact Prog.run_bind (kalloc_first (m := { freelist := tbl :: rest, fails := fun n => m.fails (n + 1) }) rfl h') (v := []) rfl
  · dsimp only
    rw [allocFrom, if_neg (by decide)]
    rfl

/-- The second page is the same one, and there is no third: the second is deallocated. -/
theorem allocuvm_second {mem : Page} {pt : PageTable} (ht : d.table (Pgdir.pdx 0) = some pt)
    (hpte : ∀ y, 1 ≤ y → y < NPTENTRIES → pt.pte (Pgdir.ptx y) = none) (hl : m.freelist = [mem]) (h : m.fails 0 = false)
    (hmem : kernelEnd ≤ mem ∧ mem < PHYSTOP / PGSIZE) (hpos : 0 < kernelEnd) : ∃ e f,
      allocuvm kernelEnd d ⟨0x1000, by decide⟩ 0x3000 m = (.ok ((e, 0), { freelist := [mem], fails := f }), [.kfree mem []]) ∧
      e.dir = d.dir ∧ (∀ i, i ≠ Pgdir.pdx 0 → e.table i = d.table i) ∧ ∃ pte, e.table (Pgdir.pdx 0) = some { pt with pte } ∧
        pte (Pgdir.ptx 0) = pt.pte (Pgdir.ptx 0) ∧ ∀ y, 1 ≤ y → y < NPTENTRIES → pte (Pgdir.ptx y) = none := by
  have hpdx : Pgdir.pdx 1 = Pgdir.pdx 0 := rfl
  have hptx : ∀ y, 1 ≤ y → y < NPTENTRIES → y ≠ 1 → Pgdir.ptx y ≠ Pgdir.ptx 1 := fun y _ hy hne heq => by
    have hval : y % NPTENTRIES = 1 % NPTENTRIES := congrArg Fin.val heq
    rw [Nat.mod_eq_of_lt hy] at hval
    exact hne hval
  let x : Pte := { page := mem, user := true }
  let pt₁ : PageTable := { pt with pte := Function.update pt.pte (Pgdir.ptx 1) (some x) }
  let pt₂ : PageTable := { pt₁ with pte := Function.update pt₁.pte (Pgdir.ptx 1) none }
  have ht₁ : (d.setPte 1 pt (some x)).table (Pgdir.pdx 1) = some pt₁ := setPte_table hpdx pt (some x)
  have ht₂ : ((d.setPte 1 pt (some x)).setPte 1 pt₁ none).table (Pgdir.pdx 0) = some pt₂ := setPte_table hpdx pt₁ none
  have hpte₂ : ∀ y, 1 ≤ y → y < NPTENTRIES → pt₂.pte (Pgdir.ptx y) = none := by
    intro y hy hlt
    by_cases hy1 : y = 1
    · rw [hy1]
      exact Function.update_self (Pgdir.ptx 1) none pt₁.pte
    · exact ((Function.update_of_ne (hptx y hy hlt hy1) none pt₁.pte).trans
        (Function.update_of_ne (hptx y hy hlt hy1) (some x) pt.pte)).trans (hpte y hy hlt)
  have hdealloc : deallocuvm kernelEnd (d.setPte 1 pt (some x)) ⟨0x3000, by decide⟩ 0x1000
      { freelist := [], fails := fun n => m.fails (n + 2) } =
      (.ok (((d.setPte 1 pt (some x)).setPte 1 pt₁ none, ⟨0x1000, by decide⟩),
        { freelist := [mem], fails := fun n => m.fails (n + 2) }), [.kfree mem []]) := by
    unfold deallocuvm
    rw [dif_neg (by decide)]
    refine Prog.run_bind (deallocFrom_one (a := 1) (x := x) (by decide) ht₁ (Function.update_self (Pgdir.ptx 1) (some x) pt.pte) hmem hpos
      fun y hy hlt => ?_) (v := []) rfl
    have hlt : y * PGSIZE < 0x3000 := hlt
    simp only [PGSIZE] at hlt
    have hy' : Pgdir.pdx y = Pgdir.pdx 0 := by
      obtain rfl | rfl : y = 1 ∨ y = 2 := by omega
      · rfl
      · rfl
    rw [hy', ht₂, Option.bind_some]
    exact hpte₂ y (by omega) (by simp only [NPTENTRIES]; omega)
  refine ⟨(d.setPte 1 pt (some x)).setPte 1 pt₁ none, fun n => m.fails (n + 2), ?_, rfl, fun i hi => ?_, pt₂.pte, ht₂, ?_, hpte₂⟩
  · unfold allocuvm
    rw [dif_neg (by decide), if_neg (by decide), show (0x3000 : UInt32).toNat / PGSIZE + 1 = 2 + 1 + 1 from rfl,
      show pageRoundUp (⟨0x1000, by decide⟩ : Size) = 1 from rfl, allocFrom, if_pos (by decide)]
    refine Prog.run_bind (kalloc_first hl h) (w := []) (v := [Event.kfree mem []]) ?_
    refine Prog.run_bind (a := (d.setPte 1 pt (some x), true)) (t := { freelist := [], fails := fun n => m.fails (n + 1) })
      (w := []) (v := [Event.kfree mem []]) ?_ ?_
    · rw [mappages, hpdx, ht]
      dsimp only
      rw [hpte 1 (Nat.le_refl 1) (by decide)]
      rfl
    · dsimp only
      rw [allocFrom, if_pos (by decide)]
      refine Prog.run_bind (kalloc_empty (m := { freelist := [], fails := fun n => m.fails (n + 1) }) rfl) (w := []) ?_
      exact Prog.run_bind hdealloc (v := []) rfl
  · rw [setPte_table_ne (by rwa [hpdx]), setPte_table_ne (by rwa [hpdx])]
  · have hne : Pgdir.ptx 0 ≠ Pgdir.ptx 1 := by decide
    exact (Function.update_of_ne hne none pt₁.pte).trans (Function.update_of_ne hne (some x) pt.pte)

/-- The segment's bytes are stored in `kmem`. -/
theorem loaduvm_kmem {pt : PageTable} {x : Pte} (ht : d.table 0 = some pt) (hx : pt.pte 0 = some x)
    (hdev : (d.table (Pgdir.pdx 0x80112)).isSome) : loaduvm kmemStore d 0x80112000 0x1000 1 s =
      (.ok ((d, true), { s with kmem := { s.kmem with freelist := [x.page] } }), [.wild 0x80112]) := by
  obtain ⟨dev, hdev⟩ := Option.isSome_iff_exists.1 hdev
  have hstore : wildStore kmemStore d 0x80112 s =
      (.ok (d, { s with kmem := { s.kmem with freelist := [x.page] } }), [.wild 0x80112]) := by
    have huser : ((d.table 0).bind fun pt => pt.pte 0).map Pte.page = some x.page := by rw [ht, Option.bind_some, hx]; rfl
    have hput : kmemStore.store 0x80112 (s, d) = ({ s with kmem := { s.kmem with freelist := [x.page] } }, d) := by
      unfold kmemStore
      dsimp only
      rw [huser]
      rfl
    refine Prog.run_bind (a := ()) (t := s) rfl (w := [Event.wild 0x80112]) (v := []) ?_
    refine Prog.run_bind (a := s) (t := s) rfl (w := []) (v := []) ?_
    exact congrArg (fun y : State × Pgdir => ((.ok (y.2, y.1), []) : Except Stop (Pgdir × State) × List Event)) hput
  unfold loaduvm
  rw [if_neg (by decide), show (0x1000 : UInt32).toNat / PGSIZE + 1 = 1 + 1 from rfl, loadFrom, if_pos (by decide)]
  dsimp only
  rw [show ((0x80112000 : UInt32) + UInt32.ofNat 0).toNat / PGSIZE = 0x80112 from rfl, hdev]
  dsimp only
  rw [if_neg fun hc => absurd hc.1 (by decide)]
  refine Prog.run_bind hstore (v := []) ?_
  rw [if_neg (by decide), loadFrom, if_neg (by decide)]
  rfl

/-- `exec` of that program frees its first page twice. -/
theorem exec_twice {mem tbl : Page} {ks : List Page} (hl : s.kmem.freelist = dir :: ks ++ mem :: tbl :: rest)
    (hlen : ks.length = kmap.length) (hf : ∀ n, n < kmap.length + 4 → s.kmem.fails n = false)
    (hvalid : ∀ k ∈ dir :: ks ++ [mem, tbl], kernelEnd ≤ k ∧ k < PHYSTOP / PGSIZE) (hpos : 0 < kernelEnd) : ∃ l kmem w,
      exec kmemStore kernelEnd pid p kernelProgram s = (.ok ((), { s with kmem }), w) ∧ kmem.freelist = l ++ [mem, mem] ∧
      .kfree mem [mem] ∈ w := by
  obtain ⟨d, hsetup, hdir, hnone, hdev, htables⟩ := setupkvm_run hl hlen
    fun n hn => hf n (Nat.lt_of_lt_of_le hn (by omega))
  let m₁ : Kmem := { freelist := mem :: tbl :: rest, fails := fun n => s.kmem.fails (n + kmap.length + 1) }
  let x : Pte := { page := mem, user := true }
  let pt : PageTable := { page := tbl, pte := Function.update (fun _ => none) (Pgdir.ptx 0) (some x) }
  let d₁ := d.setPte 0 { page := tbl, pte := fun _ => none } (some x)
  have hfirst : allocuvm kernelEnd d 0 0x1000 m₁ = (.ok ((d₁, ⟨0x1000, by decide⟩),
      { freelist := rest, fails := fun n => s.kmem.fails (n + 2 + kmap.length + 1) }), []) :=
    allocuvm_first hnone rfl (hf _ (by omega)) (hf _ (by omega))
  have ht : d₁.table (Pgdir.pdx 0) = some pt := setPte_table rfl _ _
  have hpte : pt.pte (Pgdir.ptx 0) = some x := Function.update_self (Pgdir.ptx 0) (some x) fun _ => none
  have hptx : ∀ y, 1 ≤ y → y < NPTENTRIES → pt.pte (Pgdir.ptx y) = none := fun y hy hlt => by
    have hne : Pgdir.ptx y ≠ Pgdir.ptx 0 := fun heq => by
      have hval : y % NPTENTRIES = 0 % NPTENTRIES := congrArg Fin.val heq
      rw [Nat.mod_eq_of_lt hlt, Nat.zero_mod] at hval
      exact absurd hval (Nat.ne_of_gt hy)
    exact Function.update_of_ne hne (some x) fun _ => (none : Option Pte)
  have hother : ∀ i, i ≠ Pgdir.pdx 0 → d₁.table i = d.table i := fun i hi => setPte_table_ne hi _ _
  let s₂ : State := { s with kmem := { freelist := [mem], fails := fun n => s.kmem.fails (n + 2 + kmap.length + 1) } }
  have hload : loaduvm kmemStore d₁ 0x80112000 0x1000 1 { s with kmem := {
      freelist := rest, fails := fun n => s.kmem.fails (n + 2 + kmap.length + 1) } } = (.ok ((d₁, true), s₂), [.wild 0x80112]) :=
    loaduvm_kmem ht hpte (by rw [hother _ (by decide)]; exact hdev)
  have hmem := hvalid mem (by simp)
  obtain ⟨e, f, hsecond, hdir', hother', pte, ht', hpte', hptx'⟩ := allocuvm_second (m := s₂.kmem) ht hptx rfl
    (hf _ (by omega)) hmem hpos
  have htables' : ∀ i pt, e.table i = some pt → kernelEnd ≤ pt.page ∧ pt.page < PHYSTOP / PGSIZE := by
    intro i pt' hi
    by_cases hi0 : i = Pgdir.pdx 0
    · rw [hi0, ht'] at hi
      cases hi
      exact hvalid tbl (by simp)
    · rw [hother' i hi0, hother i hi0] at hi
      exact hvalid _ (by simp [(htables i pt' hi).1])
  obtain ⟨l, w, hfree⟩ := freevm_run (m := { freelist := [mem], fails := f })
    (by rw [hdir', show d₁.dir = dir from hdir]; exact hvalid dir (by simp)) htables' hpos ht'
    (hpte'.trans hpte) hmem fun y hy hlt => by
      by_cases hi : Pgdir.pdx y = Pgdir.pdx 0
      · have hlow : y < NPTENTRIES := by
          have := congrArg Fin.val hi
          simp only [Pgdir.pdx, NPTENTRIES, NPDENTRIES, PGSIZE, KERNBASE] at this hlt ⊢
          omega
        rw [hi, ht', Option.bind_some]
        exact hptx' y hy hlow
      · rw [hother' _ hi, hother _ hi]
        cases htab : d.table (Pgdir.pdx y) with
        | none => rfl
        | some pt' => exact (htables _ pt' htab).2 _
  have hsegments : loadSegments kmemStore kernelEnd d 0 kernelProgram.segments { s with kmem := m₁ } =
      (.ok ((d₁, some ⟨0x1000, by decide⟩), s₂), [.wild 0x80112]) := by
    unfold kernelProgram
    dsimp only
    rw [loadSegments]
    dsimp only
    rw [if_neg (by decide), if_neg (by decide), if_neg (by decide)]
    refine Prog.run_bind (lift_run (s := { s with kmem := m₁ }) hfirst) (v := [Event.wild 0x80112]) ?_
    dsimp only
    rw [if_neg (by decide)]
    refine Prog.run_bind hload (v := []) ?_
    rfl
  refine ⟨l, { freelist := l ++ [mem, mem], fails := f }, [.wild 0x80112] ++ ([.kfree mem []] ++ .kfree mem [mem] :: w), ?_, rfl, ?_⟩
  · unfold exec
    rw [if_neg (by decide)]
    refine Prog.run_bind (lift_run hsetup) (w := []) ?_
    dsimp only
    refine Prog.run_bind hsegments ?_
    dsimp only
    refine Prog.run_bind (lift_run (s := s₂) hsecond) ?_
    dsimp only
    rw [if_pos rfl]
    exact lift_run (s := { s₂ with kmem := { freelist := [mem], fails := f } }) hfree
  · simp

/-- `exec` of that program maps its first page twice, frees it twice, and leaves it on the free list twice. -/
theorem kernel_segment : ∃ t w, machine kmemStore 300 0 [(0, .exec kernelProgram)] (start 300 fun _ => false) =
    (.ok ((), t), w) ∧ ¬ Once t ∧ ∃ v l, .kfree v l ∈ w ∧ v ∈ l := by
  obtain ⟨_, s₀, w₀, hboot, hs⟩ := Prog.run_of_check (show (main 0).check (start 300 fun _ => false) (fun _ s =>
    ((s.proc 0).any fun p => !p.zombie) && ((List.range (kmap.length + 4)).all fun n => !s.kmem.fails n) &&
    (s.kmem.freelist.take (kmap.length + 3)).length == kmap.length + 3 &&
    (s.kmem.freelist.take (kmap.length + 3)).all fun k => decide (300 ≤ k ∧ k < PHYSTOP / PGSIZE)) = true by decide +kernel)
  simp only [Bool.and_eq_true, beq_iff_eq] at hs
  obtain ⟨⟨⟨hinit, hfails⟩, hlen⟩, hvalid⟩ := hs
  obtain ⟨p, hp, hlive⟩ := (Option.any_eq_true _ _).1 hinit
  -- the pages that `exec` takes
  have htake := List.take_append_drop (kmap.length + 3) s₀.kmem.freelist
  obtain ⟨dir, taken, hcons⟩ := List.exists_cons_of_length_eq_add_one hlen
  rw [hcons, List.length_cons] at hlen
  obtain ⟨ks, mem, tbl, hks, rfl⟩ : ∃ ks mem tbl, ks.length = kmap.length ∧ taken = ks ++ [mem, tbl] := by
    obtain ⟨mem, tbl, hlast⟩ := List.length_eq_two.1 (show (taken.drop kmap.length).length = 2 by
      rw [List.length_drop]
      omega)
    refine ⟨taken.take kmap.length, mem, tbl, ?_, ?_⟩
    · rw [List.length_take]
      omega
    · rw [← hlast, List.take_append_drop]
  rw [hcons] at htake hvalid
  obtain ⟨l, kmem, w, hrun, hlist, hfreed⟩ : ∃ l kmem w, exec kmemStore 300 0 p kernelProgram s₀ =
      (.ok ((), { s₀ with kmem }), w) ∧ kmem.freelist = l ++ [mem, mem] ∧ .kfree mem [mem] ∈ w := exec_twice
    (htake.symm.trans (by simp : _ = dir :: ks ++ mem :: tbl :: s₀.kmem.freelist.drop (kmap.length + 3))) hks
    (fun n hn => by simpa using List.all_eq_true.1 hfails n (List.mem_range.2 hn))
    (fun k hk => of_decide_eq_true (List.all_eq_true.1 hvalid k hk)) (by decide)
  have hcall : syscall kmemStore 300 0 (.exec kernelProgram) s₀ = (.ok ((), { s₀ with kmem }), w) := by
    refine Prog.run_bind (a := s₀) (t := s₀) rfl (w := []) (v := w) ?_
    rw [hp]
    dsimp only
    rw [if_neg (by simpa using hlive)]
    exact hrun
  refine ⟨{ s₀ with kmem }, w₀ ++ (w ++ []), Prog.run_bind hboot (Prog.run_bind hcall rfl), fun honce => ?_, mem, [mem], ?_,
    List.mem_singleton_self mem⟩
  · have hmem := honce mem
    have hcount : 2 ≤ kmem.freelist.count mem := by
      rw [hlist]
      simp
    unfold State.uses at hmem
    dsimp only at hmem
    omega
  · exact List.mem_append_right _ (List.mem_append_left _ hfreed)

end Twice

end NewXv6.Vm
