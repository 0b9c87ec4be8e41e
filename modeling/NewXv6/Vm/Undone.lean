import NewXv6.Vm.Failed
import NewXv6.Lib.Path

/-!
# A call that fails gives back what it took

The kernel from `main` on: in a run in which `kalloc` does not fail for a page table, the pages of every process up to its
size are mapped, and a `fork`, an `exec` or a `sbrk` that returns -1 leaves everything as it was. Where `kalloc` fails for
a page table of `setupkvm`, the pages it took before are lost.
-/

namespace NewXv6.Vm

open Lib
open Load (Avail calls)

section

variable {m m' : Kmem} {d : Pgdir} {outside : Outside} {kernelEnd : Page} {s t s₀ : State} {pid : Fin NPROC}
  {x : Fin NPROC × Call} {tr : List (Fin NPROC × Call)}

/-! ## Runs -/

/-- Of every process the pages up to its size are mapped, and no others. -/
def Steady (s : State) : Prop := ∀ pid p, s.proc pid = some p → Whole p.pgdir (pageRoundUp p.sz)

/-- The free list has the same pages, and the processes and pipes are the same. -/
structure Kept (s t : State) : Prop where
  freelist : t.kmem.freelist.Perm s.kmem.freelist
  proc : t.proc = s.proc
  pipe : t.pipe = s.pipe

/-- `kalloc` does not fail for a page table, and `sbrk` does not give back all. -/
def Meets (s : State) (c : Fin NPROC × Call) : Prop :=
  ∀ p, s.proc c.1 = some p → p.zombie = false →
    match c.2 with
    | .fork => (∃ np, s.proc np = none) → Avail s.kmem 1 → Fits (Load.after s.kmem 1) (pageRoundUp p.sz)
    | .exec image => image.elf = true → Fits s.kmem (asked 0 image.segments)
    | .sbrk n =>
      (0 < n → (askedSize p n).toNat < KERNBASE → (p.sz : Nat) ≤ (askedSize p n).toNat → GrowFits s.kmem p.pgdir
        (pageRoundUp p.sz) (pageRoundUp (askedSize p n).toNat - pageRoundUp p.sz)) ∧
      (n < 0 → (askedSize p n).toNat ≠ 0)
    | _ => True

/-- A call that returns -1 leaves everything as it was: there is a child after `fork`, a new address space after `exec` and
the size that was asked for after `sbrk`, or nothing has changed. -/
def Outcome (s : State) (c : Fin NPROC × Call) (t : State) : Prop :=
  ∀ p, s.proc c.1 = some p → p.zombie = false →
    match c.2 with
    | .fork => Kept s t ∨ ∃ np q, s.proc np = none ∧ t.proc = Function.update s.proc np (some q)
    | .exec _ => Kept s t ∨ ∃ d sz, t.proc = Function.update s.proc c.1 (some { p with pgdir := d, sz }) ∧
        d.dir ∈ s.kmem.freelist
    | .sbrk n => Kept s t ∨ ∃ d sz, t.proc = Function.update s.proc c.1 (some { p with pgdir := d, sz }) ∧
        (sz : Nat) = (askedSize p n).toNat ∧ Fresh s d (pageRoundUp p.sz) (pageRoundUp sz)
    | _ => True

/-- A call whose stores do not miss the user pages. -/
def step (outside : Outside) (kernelEnd : Page) (s : State) (c : Fin NPROC × Call) : Option State :=
  match syscall outside kernelEnd c.1 c.2 s with
  | (.ok ((), t), w) => if ∀ x ∈ w, x.Tame then some t else none
  | (.error _, _) => none

theorem step_eq_some (h : step outside kernelEnd s x = some t) :
    ∃ w, syscall outside kernelEnd x.1 x.2 s = (.ok ((), t), w) ∧ ∀ y ∈ w, y.Tame := by
  unfold step at h
  rcases hr : syscall outside kernelEnd x.1 x.2 s with ⟨_ | ⟨_, t'⟩, w⟩
  · rw [hr] at h
    cases h
  · rw [hr] at h
    simp only [Option.ite_none_right_eq_some, Option.some.injEq] at h
    obtain ⟨hw, rfl⟩ := h
    exact ⟨w, rfl, hw⟩

theorem Steady.update (h : Steady s) {q : Option Proc} (hq : ∀ p, q = some p → Whole p.pgdir (pageRoundUp p.sz))
    {m' : Kmem} :
    Steady { s with kmem := m', proc := Function.update s.proc pid q } := by
  intro i p hp
  dsimp only at hp
  by_cases hi : i = pid
  · subst hi
    rw [Function.update_self] at hp
    exact hq p hp
  · rw [Function.update_of_ne hi] at hp
    exact h i p hp

theorem Steady.exited (h : Steady s) : Steady { s with proc := exited pid s.proc } := by
  intro i p hp
  have hp' : (s.proc i).map _ = some p := hp
  obtain ⟨q, hq, rfl⟩ := Option.map_eq_some_iff.1 hp'
  exact h i q hq

/-- What every call keeps. -/
theorem calm_syscall (h : Steady s) (hc : Meets s x) :
    Wp calm (syscall outside kernelEnd x.1 x.2) (fun _ t => Steady t ∧ Outcome s x t) s := by
  obtain ⟨pid, c⟩ := x
  have hnothing : ∀ m', (∀ x, m'.freelist.count x = s.kmem.freelist.count x) → Kept s { s with kmem := m' } := fun m' hm' =>
    ⟨List.perm_iff_count.2 hm', rfl, rfl⟩
  rw [syscall, wp_bind, wp_get]
  cases hp : s.proc pid with
  | none => exact (wp_pure _ _ _).2 ⟨h, fun p hp' => by cases hp.symm.trans hp'⟩
  | some p =>
    dsimp only
    rw [wp_ite, wp_pure]
    refine ⟨fun hz => ⟨h, fun q hq hzq => ?_⟩, fun hz => ?_⟩
    · cases hp.symm.trans hq
      cases hz.symm.trans hzq
    have hmeets := hc p hp (by simpa using hz)
    have hw := h pid p hp
    cases c with
    | fork =>
      refine calm_fork hmeets (fun m' hm' => ⟨h, fun _ _ _ => Or.inl (hnothing m' hm')⟩) fun np q m' hnp hwq =>
        ⟨h.update fun p hp => ?_, fun _ _ _ => Or.inr ⟨np, q, hnp, rfl⟩⟩
      cases hp
      exact hwq
    | exec image =>
      refine calm_exec image hmeets (fun m' hm' => ⟨h, fun _ _ _ => Or.inl (hnothing m' hm')⟩) fun d sz m' hwd hdir =>
        ⟨h.update fun p hp => ?_, fun q hq _ => Or.inr ⟨d, sz, ?_, hdir⟩⟩
      · cases hp
        exact hwd
      · cases hp.symm.trans hq
        rfl
    | sbrk n =>
      refine calm_growproc hp hw n hmeets.1 hmeets.2 (fun m' hm' => ⟨h, fun _ _ _ => Or.inl (hnothing m' hm')⟩)
        fun d sz m' hsz hwd hfresh => ⟨h.update fun p hp => ?_, fun q hq _ => Or.inr ⟨d, sz, ?_, ?_, ?_⟩⟩
      · cases hp
        exact hwd
      · cases hp.symm.trans hq
        rfl
      · cases hp.symm.trans hq
        exact hsz
      · cases hp.symm.trans hq
        exact hfresh
    | exit =>
      show Wp calm (exit pid) _ s
      rw [exit, wp_ite, wp_throw, wp_modify]
      exact ⟨fun _ => trivial, fun _ => ⟨h.exited, fun _ _ _ => trivial⟩⟩
    | wait =>
      show Wp calm (wait kernelEnd pid) _ s
      rw [wait, wp_bind, wp_get]
      cases List.find? (fun q => (s.proc q).any fun x => x.zombie && decide (x.parent = pid)) (List.finRange NPROC) with
      | none => exact (wp_pure _ _ _).2 ⟨h, fun _ _ _ => trivial⟩
      | some q =>
        dsimp only
        cases s.proc q with
        | none => exact (wp_pure _ _ _).2 ⟨h, fun _ _ _ => trivial⟩
        | some y =>
          dsimp only
          rw [wp_bind, calm_lift]
          refine calm_any fun _ m' => ?_
          rw [wp_bind, calm_lift]
          refine calm_any fun _ m' => ?_
          rw [setProc, wp_modify]
          exact ⟨h.update (fun p hp => by cases hp), fun _ _ _ => trivial⟩
    | pipe =>
      show Wp calm pipealloc _ s
      rw [pipealloc, wp_bind, wp_get]
      cases List.find? (fun j => (s.pipe j).isNone) (List.finRange NFILE) with
      | none => exact (wp_pure _ _ _).2 ⟨h, fun _ _ _ => trivial⟩
      | some j =>
        dsimp only
        rw [wp_bind, calm_lift]
        refine calm_any fun r m' => ?_
        cases r with
        | none => exact (wp_pure _ _ _).2 ⟨h, fun _ _ _ => trivial⟩
        | some page =>
          dsimp only
          rw [setPipe, wp_modify]
          exact ⟨h, fun _ _ _ => trivial⟩
    | close j writable =>
      show Wp calm (pipeclose kernelEnd j writable) _ s
      rw [pipeclose, wp_bind, wp_get]
      cases s.pipe j with
      | none => exact (wp_pure _ _ _).2 ⟨h, fun _ _ _ => trivial⟩
      | some y =>
        dsimp only
        rw [wp_ite, wp_pure, wp_ite, wp_bind, calm_lift]
        exact ⟨fun _ => ⟨h, fun _ _ _ => trivial⟩, fun _ =>
          ⟨fun _ => calm_any fun _ m' => (wp_modify _ _ _).2 ⟨h, fun _ _ _ => trivial⟩, fun _ =>
            (wp_modify _ _ _).2 ⟨h, fun _ _ _ => trivial⟩⟩⟩

/-- What one call after the other keeps. -/
theorem Steady.path (h₀ : Steady s₀) (hrun : Path (step outside kernelEnd) Meets s₀ tr s) : Steady s :=
  hrun.invariant Steady h₀ fun _ _ _ h hc ht => by
    obtain ⟨w, hw, htame⟩ := step_eq_some ht
    exact ((calm_syscall h hc).run hw htame).1

/-! ## Booting -/

/-- No kernel code is left out. -/
def any : Contract Stop Event where
  assume _ := True
  ensure _ := True
  fail _ := True

theorem wp_anything {α σ : Type} {f : Prog σ Stop Event α} {Q : α → σ → Prop} {s : σ} (h : ∀ a t, Q a t) : Wp any f Q s :=
  wp_total (fun _ => trivial) (fun _ => trivial) h

theorem any_lift {α : Type} (f : Alloc α) (Q : α → State → Prop) :
    Wp any (liftM f : Kern α) Q s ↔ Wp any f (fun a kmem => Q a { s with kmem }) s.kmem := wp_zoom _ _ f Q s

/-- What is in a page directory with the kernel's mappings only. -/
def Bare (d : Pgdir) : Prop :=
  (∀ i pt, d.table i = some pt → ∀ j, pt.pte j = none) ∧ d.table (Pgdir.pdx 0) = none

theorem Bare.whole (h : Bare d) : Whole d 0 := by
  intro y _
  have hnone : pteAt d y = none := by
    unfold pteAt
    cases hd : d.table (Pgdir.pdx y) with
    | none => rfl
    | some pt => exact h.1 _ pt hd _
  rw [hnone]
  exact ⟨nofun, fun hlt => absurd hlt (Nat.not_lt_zero y)⟩

theorem any_mapKernel (is : List (Fin NPDENTRIES)) : ∀ {d : Pgdir} {m : Kmem}, (∀ i ∈ is, i ≠ Pgdir.pdx 0) → Bare d →
    Wp any (mapKernel d is) (fun r _ => ∀ e, r = some e → Bare e) m := by
  induction is with
  | nil =>
    intro d m _ h
    refine (wp_pure _ _ _).2 fun e he => ?_
    cases he
    exact h
  | cons i is ih =>
    intro d m his h
    rw [mapKernel, wp_bind]
    refine wp_anything fun r m' => ?_
    cases r with
    | none => exact (wp_pure _ _ _).2 fun _ he => by cases he
    | some page =>
      dsimp only
      refine ih (fun j hj => his j (List.mem_cons_of_mem i hj)) ⟨fun j pt hj l => ?_, ?_⟩
      · dsimp only at hj
        by_cases hji : j = i
        · subst hji
          rw [Function.update_self] at hj
          cases hj
          rfl
        · rw [Function.update_of_ne hji] at hj
          exact h.1 j pt hj l
      · dsimp only
        rw [Function.update_of_ne (his i (List.mem_cons_self ..)).symm]
        exact h.2

theorem any_setupkvm : Wp any setupkvm (fun r _ => ∀ e, r = some e → Bare e) m := by
  rw [setupkvm, wp_bind]
  refine wp_anything fun r m' => ?_
  cases r with
  | none => exact (wp_pure _ _ _).2 fun _ he => by cases he
  | some dir =>
    refine any_mapKernel kmap (fun i hi h0 => ?_) ⟨(fun i pt hi => by cases hi), rfl⟩
    exact Load.pdx_notMem_kmap (Nat.two_pow_pos 19) (h0 ▸ hi)

/-- The page of `initcode` is mapped. -/
def InitMapped (s : State) : Prop := ∀ p, s.proc initproc = some p → (pteAt p.pgdir 0).isSome

/-- The stacks of the other CPUs. -/
theorem any_startothers (ncpu : Nat) : ∀ {s : State}, Wp any (startothers ncpu) (fun _ t => t.proc = s.proc) s := by
  induction ncpu with
  | zero =>
    intro s
    exact (wp_pure _ _ _).2 rfl
  | succ ncpu ih =>
    intro s
    rw [startothers, wp_bind, any_lift]
    refine wp_anything fun r m' => ?_
    cases r with
    | none => exact ih
    | some stack =>
      dsimp only
      rw [wp_bind, wp_modify]
      exact ih

/-- The first process. -/
theorem any_init {kstack : Page} {hlt : PGSIZE < KERNBASE + 1} (hs : s.proc = fun _ => none)
    (hd : (pteAt d 0).isSome → Whole d 1) : Wp any (setProc initproc
      (some { kstack, pgdir := d, sz := ⟨PGSIZE, hlt⟩, zombie := false, parent := initproc }))
      (fun _ t => InitMapped t → Steady t) { s with kmem := m' } := by
  rw [setProc, wp_modify]
  intro hinit pid p hp
  have hmapped : (pteAt d 0).isSome := by
    refine hinit { kstack, pgdir := d, sz := ⟨PGSIZE, hlt⟩, zombie := false, parent := initproc } ?_
    dsimp only
    exact Function.update_self ..
  have hw := hd hmapped
  dsimp only at hp
  by_cases hpid : pid = initproc
  · subst hpid
    rw [Function.update_self] at hp
    cases hp
    have hone : pageRoundUp PGSIZE = 1 := by decide
    show Whole d (pageRoundUp PGSIZE)
    rw [hone]
    exact hw
  · rw [Function.update_of_ne hpid, hs] at hp
    cases hp

/-- **Booting**: there is one process, of one page. -/
theorem boot_steady {ncpu : Nat} {fails : Nat → Bool} {w : List Event}
    (hboot : main ncpu (start kernelEnd fails) = (.ok ((), s₀), w)) (hinit : InitMapped s₀) : Steady s₀ := by
  suffices hwp : Wp any (main ncpu) (fun _ t => InitMapped t → Steady t) (start kernelEnd fails) from
    hwp.run hboot (fun _ _ => trivial) hinit
  rw [main, wp_bind, any_lift]
  refine wp_anything fun r m' => ?_
  cases r with
  | none => exact (wp_throw _ _ _).2 trivial
  | some kpgdir =>
    dsimp only
    rw [wp_bind, wp_modify, wp_bind]
    refine (any_startothers ncpu).mono fun _ s hs => ?_
    rw [wp_bind, wp_modify, wp_bind, any_lift]
    refine wp_anything fun r m' => ?_
    cases r with
    | none => exact (wp_throw _ _ _).2 trivial
    | some kstack =>
      dsimp only
      rw [wp_bind, any_lift]
      refine any_setupkvm.mono fun r m' hr => ?_
      cases r with
      | none => exact (wp_throw _ _ _).2 trivial
      | some pgdir =>
        have hbare := hr pgdir rfl
        dsimp only
        rw [wp_bind, any_lift]
        refine wp_anything fun r m' => ?_
        cases r with
        | none => exact (wp_throw _ _ _).2 trivial
        | some mem =>
          dsimp only
          rw [wp_bind, any_lift]
          unfold mappages
          rw [hbare.2]
          dsimp only
          rw [wp_bind]
          refine wp_anything fun r m' => ?_
          cases r with
          | none =>
            refine (wp_pure _ _ _).2 (any_init hs fun h0 => ?_)
            rw [hbare.whole.none (Nat.two_pow_pos 20) (Nat.zero_le 0)] at h0
            cases h0
          | some page =>
            exact (wp_pure _ _ _).2 (any_init hs fun _ =>
              hbare.whole.setPte (Nat.two_pow_pos 20) (Or.inr ⟨hbare.2, fun _ => rfl⟩))

/-! ## The pages `allocuvm` gives -/

/-- `allocuvm` with the contents of pages: the new pages are mapped for the user, each to a page that was free, and they are
zero. -/
def Zeroed (w : Load.World) (a : Nat) (r : Pgdir × Size) (w' : Load.World) : Prop :=
  r.2 ≠ 0 → ∀ y, a ≤ y → y < pageRoundUp r.2 →
    ∃ x, Load.userPte r.1 y = some x ∧ x.user = true ∧ x.page ∈ w.kmem.freelist ∧ w'.mem x.page = fun _ => 0

theorem code_lift {α : Type} {w : Load.World} (f : Alloc α) (Q : α → Load.World → Prop) :
    Wp calm (liftM f : Load.Code α) Q w ↔ Wp calm f (fun a kmem => Q a { w with kmem }) w.kmem := wp_zoom _ _ f Q w

theorem calm_zeroed {w : Load.World} {oldsz : Size} {newsz : UInt32} (hw : Whole d (pageRoundUp oldsz))
    (hle : (oldsz : Nat) ≤ newsz.toNat)
    (hgot : newsz.toNat < KERNBASE → TablesGot w.kmem d (pageRoundUp oldsz) (pageRoundUp newsz.toNat - pageRoundUp oldsz)) :
    Wp calm (Load.allocuvm kernelEnd d oldsz newsz) (Zeroed w (pageRoundUp oldsz)) w := by
  have hx : Exact (fun x => w.kmem.freelist.count x + d.uses x) (fun x => 0 + d.uses x) w.kmem := fun x => by
    dsimp only
    omega
  have hclear : ∀ (e : Pgdir) (sz : Size) (m' : Kmem), (sz ≠ 0 → ∀ y, pageRoundUp oldsz ≤ y → y < pageRoundUp sz →
      ∃ x, pteAt e y = some x ∧ x.user = true ∧ x.page ∈ w.kmem.freelist) →
      Wp calm (do
        Prog.modify fun w : Load.World => { w with
          mem := Load.clear e (pageRoundUp oldsz) (pageRoundUp sz) w.mem }
        return (e, sz)) (Zeroed w (pageRoundUp oldsz)) { w with kmem := m' } := by
    intro e sz m' h
    rw [wp_bind, wp_modify, wp_pure]
    intro hne y hy hy'
    obtain ⟨x, hpte, huser, hfree⟩ := h hne y hy hy'
    have hsz : (sz : Nat) < 0x80000000 + 1 := sz.isLt
    have hpages : pageRoundUp sz = ((sz : Nat) + 4096 - 1) / 4096 := rfl
    have hlow : y * PGSIZE < KERNBASE := by
      have : y < pageRoundUp sz := hy'
      show y * 4096 < 0x80000000
      omega
    have huserPte : Load.userPte e y = some x := by
      unfold Load.userPte
      rw [if_pos hlow]
      exact hpte
    refine ⟨x, huserPte, huser, hfree, ?_⟩
    dsimp only
    unfold Load.clear
    refine if_pos (List.mem_filterMap.2 ⟨y, List.mem_range'_1.2 ⟨hy, ?_⟩, ?_⟩)
    · have : y < pageRoundUp sz := hy'
      omega
    · rw [huserPte]
      rfl
  unfold Load.allocuvm
  rw [wp_bind, code_lift, allocuvm, wp_dite, wp_pure]
  refine ⟨fun _ => hclear d 0 _ fun hne => absurd rfl hne, fun hlt => ?_⟩
  have hlt' : newsz.toNat < KERNBASE := Nat.lt_of_not_le hlt
  rw [wp_ite, wp_pure]
  refine ⟨fun hsmall => absurd hsmall (Nat.not_lt.2 hle), fun _ => ?_⟩
  have hnew : newsz.toNat < KERNBASE + 1 := Nat.lt_succ_of_lt hlt'
  have hgrown : (oldsz : Nat) ≤ (⟨_, hnew⟩ : Size) := hle
  refine calm_grow (m := w.kmem) hgrown hw (hgot hlt') hx
    (fun k e m' _ _ _ _ _ _ => hclear e 0 m' fun hne => absurd rfl hne) fun e _ hfresh m' => hclear e _ m' fun _ => hfresh

/-! ## The main result -/

/-- **Failed calls give back what they took**, in every run in which `kalloc` does not fail for a page table and no `sbrk`
gives back all: the pages of every process up to its size are mapped, a call that returns -1 changes nothing, and where
`allocuvm` succeeds the new pages are mapped, free before and zero. -/
theorem failed_undone {ncpu : Nat} {fails : Nat → Bool} {w : List Event}
    (hboot : main ncpu (start kernelEnd fails) = (.ok ((), s₀), w)) (hinit : InitMapped s₀)
    (hrun : Path (step outside kernelEnd) Meets s₀ tr s) :
    (∀ c t, Meets s c → step outside kernelEnd s c = some t → Outcome s c t) ∧
    (∀ pid p, s.proc pid = some p → Whole p.pgdir (pageRoundUp p.sz)) ∧
    ∀ (w : Load.World) (d : Pgdir) (oldsz : Size) (newsz : UInt32), Whole d (pageRoundUp oldsz) →
      (oldsz : Nat) ≤ newsz.toNat → (newsz.toNat < KERNBASE →
        TablesGot w.kmem d (pageRoundUp oldsz) (pageRoundUp newsz.toNat - pageRoundUp oldsz)) →
      Wp calm (Load.allocuvm kernelEnd d oldsz newsz) (Zeroed w (pageRoundUp oldsz)) w := by
  have h := (boot_steady hboot hinit).path hrun
  refine ⟨fun c t hc ht => ?_, h, fun w d oldsz newsz hw hle hgot => calm_zeroed hw hle hgot⟩
  obtain ⟨w, hw, htame⟩ := step_eq_some ht
  exact ((calm_syscall h hc).run hw htame).2

/-- `fork` of the first process, when `kalloc` fails for the page directory of the child. -/
theorem failed_undone_fork : ∃ s₀ t w, main 0 (start 300 fun n => n == 150) = (.ok ((), s₀), w) ∧
    step noStore 300 s₀ (0, .fork) = some t ∧ Outcome s₀ (0, .fork) t := by
  obtain ⟨_, s₀, w, hboot, hs⟩ := Prog.run_of_check (show (main 0).check (start 300 fun n => n == 150) (fun _ s =>
    ((s.proc 0).all fun p => (pteAt p.pgdir 0).isSome) && (step noStore 300 s (0, .fork)).isSome && s.kmem.fails 1) = true by
    decide +kernel)
  simp only [Bool.and_eq_true] at hs
  obtain ⟨⟨hinit, hstep⟩, hfails⟩ := hs
  obtain ⟨t, ht⟩ := Option.isSome_iff_exists.1 hstep
  have hInit : InitMapped s₀ := fun p hp => by
    have hp' : s₀.proc 0 = some p := hp
    rw [hp', Option.all_some] at hinit
    exact hinit
  -- the first call after that of the kernel stack fails
  have hno : ∀ k, ¬Avail (Load.after s₀.kmem 1) (k + 1) := fun k hA =>
    absurd ((hA.2 0 (Nat.succ_pos k)).symm.trans hfails) nofun
  refine ⟨s₀, t, w, hboot, ht, (failed_undone hboot hInit .nil).1 (0, .fork) t (fun p _ _ => ?_) ht⟩
  exact fun _ _ => ⟨fun hA => absurd hA (hno 0), fun k _ _ hA => absurd hA (hno _)⟩

end

/-! ## A call that loses a page -/

section Loses

variable {m : Kmem} {s t : State} {pid : Fin NPROC} {p : Proc} {k dir : Page} {rest : List Page}
  {kernelEnd : Page}

/-- `copyuvm` gives up after `setupkvm` has taken the page directory. -/
theorem copyuvm_loses (hl : m.freelist = dir :: rest) (h : m.fails 0 = false) (h' : m.fails 1 = true) (d : Pgdir) (sz : Size) :
    copyuvm kernelEnd d sz m = (.ok (none, { freelist := rest, fails := fun n => m.fails (n + 2) }), []) := by
  obtain ⟨i, is, hkmap⟩ : ∃ i is, kmap = i :: is := ⟨_, _, rfl⟩
  have hsetup : setupkvm m = (.ok (none, { freelist := rest, fails := fun n => m.fails (n + 2) }), []) := by
    unfold setupkvm
    rw [hkmap]
    refine Prog.run_bind (kalloc_first hl h) (v := []) ?_
    exact Prog.run_bind (kalloc_fails h') (v := []) rfl
  exact Prog.run_bind hsetup (v := []) rfl

/-- `fork` frees the kernel stack only. -/
theorem fork_run (hl : s.kmem.freelist = k :: dir :: rest) (h : s.kmem.fails 0 = false) (h' : s.kmem.fails 1 = false)
    (h'' : s.kmem.fails 2 = true) (hfree : ∃ np, s.proc np = none) (hk : kernelEnd ≤ k ∧ k < PHYSTOP / PGSIZE) :
    fork kernelEnd pid p s = (.ok ((), { s with kmem := { freelist := k :: rest, fails := fun n => s.kmem.fails (n + 3) } }),
      [.kfree k rest]) := by
  obtain ⟨np, hnp⟩ : ∃ np, ((List.finRange NPROC).find? fun np => (s.proc np).isNone) = some np := by
    obtain ⟨np, hnp⟩ := hfree
    exact Option.isSome_iff_exists.1 (List.find?_isSome.2 ⟨np, List.mem_finRange np, by rw [hnp]; rfl⟩)
  refine Prog.run_bind (a := s) (t := s) rfl (w := []) (v := [Event.kfree k rest]) ?_
  rw [hnp]
  refine Prog.run_bind (lift_run (s := s) (kalloc_first hl h)) (v := [.kfree k rest]) ?_
  have hcopy := @copyuvm_loses ⟨dir :: rest, fun n => s.kmem.fails (n + 1)⟩ dir rest kernelEnd rfl h' h'' p.pgdir p.sz
  refine Prog.run_bind (lift_run (s := { s with kmem := ⟨dir :: rest, fun n => s.kmem.fails (n + 1)⟩ }) hcopy)
    (v := [.kfree k rest]) ?_
  exact lift_run (s := { s with kmem := ⟨rest, fun n => s.kmem.fails (n + 3)⟩ }) (kfree_run hk)

/-- `setupkvm` loses the page directory when `kalloc` fails for its first page table. -/
theorem fork_loses : ¬∀ (fails : Nat → Bool) (s₀ t : State) (w : List Event),
    main 0 (start 300 fails) = (.ok ((), s₀), w) → InitMapped s₀ → step noStore 300 s₀ (0, .fork) = some t →
      Outcome s₀ (0, .fork) t := by
  intro h
  obtain ⟨_, s₀, w, hboot, hs⟩ := Prog.run_of_check (show (main 0).check (start 300 fun n => n == 151) (fun _ s =>
    ((s.proc 0).any fun p => (pteAt p.pgdir 0).isSome && !p.zombie) && (s.proc 1).isNone && s.kmem.fails 2 &&
    !s.kmem.fails 0 && !s.kmem.fails 1 && (s.kmem.freelist.take 2 == [57267, 57266])) = true by decide +kernel)
  simp only [Bool.and_eq_true, Bool.not_eq_true', beq_iff_eq] at hs
  obtain ⟨⟨⟨⟨⟨hinit, hfree⟩, hthird⟩, hfirst⟩, hsecond⟩, hlist⟩ := hs
  obtain ⟨p, hp, hpm⟩ := (Option.any_eq_true _ _).1 hinit
  simp only [Bool.and_eq_true, Bool.not_eq_true'] at hpm
  have hInit : InitMapped s₀ := fun q hq => by
    cases hp.symm.trans hq
    exact hpm.1
  have hl : s₀.kmem.freelist = 57267 :: 57266 :: s₀.kmem.freelist.drop 2 := by
    have hsplit := List.take_append_drop 2 s₀.kmem.freelist
    rw [hlist] at hsplit
    exact hsplit.symm
  have hfork : fork 300 0 p s₀ = _ :=
    fork_run hl hfirst hsecond hthird ⟨1, Option.isNone_iff_eq_none.1 hfree⟩ ⟨by decide, by decide⟩
  have hcall : syscall noStore 300 0 .fork s₀ = fork 300 0 p s₀ := by
    rw [hfork]
    refine Prog.run_bind (a := s₀) (t := s₀) rfl (w := []) (v := [Event.kfree 57267 _]) ?_
    rw [hp]
    refine Eq.trans ?_ hfork
    show (if p.zombie then _ else _ : Kern Unit) s₀ = _
    rw [hpm.2]
    rfl
  have hstep : step noStore 300 s₀ (0, .fork) =
      some { s₀ with kmem := { freelist := 57267 :: s₀.kmem.freelist.drop 2, fails := fun n => s₀.kmem.fails (n + 3) } } := by
    unfold step
    rw [hcall, hfork]
    exact if_pos fun x hx => by rw [List.mem_singleton.1 hx]; trivial
  rcases h _ s₀ _ w hboot hInit hstep p hp hpm.2 with hkept | ⟨np, q, hnone, hproc⟩
  · have hlen := hkept.freelist.length_eq
    rw [hl] at hlen
    simp at hlen
  · have hsome := congrFun hproc np
    rw [Function.update_self] at hsome
    exact Option.some_ne_none q (hsome.symm.trans hnone)

end Loses

end NewXv6.Vm
