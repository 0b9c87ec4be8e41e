import NewXv6.Vm.Model
import NewXv6.Lib.Count
import Mathlib.Algebra.Order.BigOperators.Group.Finset

/-!
# Every page has one owner

`State.uses s p` counts what page `p` is used for: once for each time it is on the free list, and once for each page
directory, page table, PTE, kernel stack and pipe it is in. A call that is under way holds pages of its own: `Owns g m`
says that of the pages on the free list and those in `g` none is there twice. Taking a page off the free list, mapping it
and giving it back keep that, so `uses` is at most one whenever no call is running (`pages_once`), as long as no store
misses the user pages.
-/

namespace NewXv6.Vm

open Lib

/-! ## What a page is used for -/

/-- Whether `p` is `q`, as a number. -/
def one (q p : Page) : Nat := if q = p then 1 else 0

def Pte.uses (x : Option Pte) (p : Page) : Nat := x.elim 0 fun x => one x.page p

def PageTable.uses (t : Option PageTable) (p : Page) : Nat := t.elim 0 fun t => one t.page p + ∑ j, Pte.uses (t.pte j) p

/-- The uses of a page in a page directory: the directory, its page tables and their PTEs. -/
def Pgdir.uses (d : Pgdir) (p : Page) : Nat := one d.dir p + ∑ i, PageTable.uses (d.table i) p

def Proc.uses (x : Option Proc) (p : Page) : Nat := x.elim 0 fun x => one x.kstack p + x.pgdir.uses p

def Pipe.uses (x : Option Pipe) (p : Page) : Nat := x.elim 0 fun x => one x.page p

namespace State

/-- The uses outside of the free list. -/
def inUse (s : State) (p : Page) : Nat :=
  (s.kpgdir.elim 0 fun d => d.uses p) + s.cpustack.count p + ∑ q, Proc.uses (s.proc q) p + ∑ j, Pipe.uses (s.pipe j) p

/-- **All uses of a page.** -/
def uses (s : State) (p : Page) : Nat := s.kmem.freelist.count p + s.inUse p

end State

/-- No page is used twice. -/
def Once (s : State) : Prop := ∀ p, s.uses p ≤ 1

/-- The event is not a store that misses the user pages. -/
def Event.Tame : Event → Prop
  | .kfree _ _ => True
  | .wild _ => False

instance : DecidablePred Event.Tame
  | .kfree _ _ => inferInstanceAs (Decidable True)
  | .wild _ => inferInstanceAs (Decidable False)

/-- A page that is freed is not on the free list. -/
def Event.FreedOnce : Event → Prop
  | .kfree v freelist => v ∉ freelist
  | .wild _ => True

instance : DecidablePred Event.FreedOnce
  | .kfree v freelist => inferInstanceAs (Decidable (v ∉ freelist))
  | .wild _ => inferInstanceAs (Decidable True)

/-- As long as no store misses the user pages, no page is freed twice. -/
def once : Contract Stop Event where
  assume := Event.Tame
  ensure := Event.FreedOnce
  fail _ := True

/-- Of the pages on the free list and those in `g`, none is there twice. -/
def Owns (g : Page → Nat) (m : Kmem) : Prop := ∀ p, m.freelist.count p + g p ≤ 1

theorem Owns.mono {g g' : Page → Nat} {m : Kmem} (h : Owns g m) (hle : ∀ p, g' p ≤ g p) : Owns g' m := fun p => by
  have := h p
  have := hle p
  omega

/-! ### Page directories -/

section

variable {d : Pgdir} {a : Nat} {p : Page}

/-- A PTE changes in a page table that is there. -/
theorem Pgdir.uses_setPte {pt : PageTable} (h : d.table (pdx a) = some pt) (x : Option Pte) :
    (d.setPte a pt x).uses p + Pte.uses (pt.pte (ptx a)) p = d.uses p + Pte.uses x p := by
  have houter := sum_update (fun t => PageTable.uses t p) d.table (pdx a)
    (some { pt with pte := Function.update pt.pte (ptx a) x })
  have hinner := sum_update (fun y => Pte.uses y p) pt.pte (ptx a) x
  rw [h] at houter
  simp only [PageTable.uses, Option.elim_some] at houter
  simp only [Pgdir.uses, Pgdir.setPte, PageTable.uses] at houter ⊢
  omega

/-- A page table with one PTE is added. -/
theorem Pgdir.uses_newTable (h : d.table (pdx a) = none) (page : Page) (x : Pte) :
    (d.setPte a { page, pte := fun _ => none } (some x)).uses p = d.uses p + one page p + one x.page p := by
  have houter := sum_update (fun t => PageTable.uses t p) d.table (pdx a)
    (some { page, pte := Function.update (fun _ => none) (ptx a) (some x) })
  have hinner := sum_update (fun y => Pte.uses y p) (fun _ => none) (ptx a) (some x)
  have hzero : ∑ _j : Fin NPTENTRIES, Pte.uses none p = 0 := Finset.sum_eq_zero fun _ _ => rfl
  have hnone : Pte.uses none p = 0 := rfl
  have hsome : Pte.uses (some x) p = one x.page p := rfl
  rw [h] at houter
  simp only [PageTable.uses, Option.elim_some, Option.elim_none] at houter
  simp only [Pgdir.uses, Pgdir.setPte, PageTable.uses] at houter ⊢
  omega

/-- An empty page table is added. -/
theorem Pgdir.uses_setTable (i : Fin NPDENTRIES) (page : Page) :
    ({ d with table := Function.update d.table i (some { page, pte := fun _ => none }) } : Pgdir).uses p ≤
      d.uses p + one page p := by
  have houter := sum_update (fun t => PageTable.uses t p) d.table i (some { page, pte := fun _ => none })
  have hzero : ∑ _j : Fin NPTENTRIES, Pte.uses none p = 0 := Finset.sum_eq_zero fun _ _ => rfl
  have hnew : PageTable.uses (some { page, pte := fun _ => none }) p = one page p := by
    show one page p + ∑ _j : Fin NPTENTRIES, Pte.uses none p = one page p
    omega
  simp only [Pgdir.uses]
  omega

end

/-! ## `kalloc.c` -/

section

variable {g : Page → Nat} {m : Kmem} {d : Pgdir} {kernelEnd : Page}

theorem wp_kalloc (h : Owns g m) {Q : Option Page → Kmem → Prop} (hnone : ∀ m, Owns g m → Q none m)
    (hsome : ∀ r m, Owns (fun p => g p + one r p) m → Q (some r) m) : Wp once kalloc Q m := by
  rw [kalloc, wp_bind, wp_get, wp_bind, wp_modify]
  split
  · exact (wp_pure _ _ _).2 (hnone _ h)
  · rename_i r rest hl
    have hlist : m.freelist = r :: rest := by
      split at hl
      · cases hl
      · exact hl
    rw [wp_bind, wp_modify, wp_pure]
    refine hsome r _ fun p => ?_
    have := h p
    rw [hlist, List.count_cons] at this
    dsimp only
    unfold one
    simp only [beq_iff_eq] at this
    split at this <;> simp_all
    omega

theorem wp_kfree {v : Page} (h : Owns (fun p => g p + one v p) m) {Q : Unit → Kmem → Prop} (hQ : ∀ m, Owns g m → Q () m) :
    Wp once (kfree kernelEnd v) Q m := by
  rw [kfree, wp_bind, wp_get, wp_bind, wp_emit]
  intro _
  have hself : one v v = 1 := if_pos rfl
  refine ⟨?_, ?_⟩
  · show v ∉ m.freelist
    rw [← List.count_eq_zero]
    have := h v
    dsimp only at this
    omega
  · rw [wp_ite, wp_throw, wp_modify]
    refine ⟨fun _ => trivial, fun _ => hQ _ fun p => ?_⟩
    have := h p
    dsimp only at this ⊢
    rw [List.count_cons]
    unfold one at this
    simp only [beq_iff_eq]
    omega

/-! ## `vm.c` -/

/-- The page is mapped, or it is lost. -/
theorem wp_mappages (a : Nat) (x : Pte) (h : Owns (fun p => g p + d.uses p + one x.page p) m)
    {Q : Pgdir × Bool → Kmem → Prop} (hQ : ∀ d b m, Owns (fun p => g p + d.uses p) m → Q (d, b) m) :
    Wp once (mappages d a x) Q m := by
  unfold mappages
  cases hd : d.table (Pgdir.pdx a) with
  | some pt =>
    dsimp only
    cases hpt : pt.pte (Pgdir.ptx a) with
    | some y => exact (wp_throw _ _ _).2 trivial
    | none =>
      refine (wp_pure _ _ _).2 (hQ _ _ _ (h.mono fun p => ?_))
      have := Pgdir.uses_setPte (p := p) hd (some x)
      have hnone : Pte.uses (pt.pte (Pgdir.ptx a)) p = 0 := by rw [hpt]; rfl
      have hsome : Pte.uses (some x) p = one x.page p := rfl
      omega
  | none =>
    dsimp only
    rw [wp_bind]
    refine wp_kalloc h (fun m hm => ?_) fun page m hm => ?_
    · exact (wp_pure _ _ _).2 (hQ _ _ _ (hm.mono fun p => by omega))
    · refine (wp_pure _ _ _).2 (hQ _ _ _ (hm.mono fun p => ?_))
      have := Pgdir.uses_newTable (p := p) hd page x
      omega

theorem wp_mapKernel (is : List (Fin NPDENTRIES)) : ∀ {d : Pgdir} {m : Kmem}, Owns (fun p => g p + d.uses p) m →
    ∀ {Q : Option Pgdir → Kmem → Prop}, (∀ m, Owns g m → Q none m) →
      (∀ d m, Owns (fun p => g p + d.uses p) m → Q (some d) m) → Wp once (mapKernel d is) Q m := by
  induction is with
  | nil =>
    intro d m h Q _ hsome
    exact (wp_pure _ _ _).2 (hsome d m h)
  | cons i is ih =>
    intro d m h Q hnone hsome
    rw [mapKernel, wp_bind]
    refine wp_kalloc h (fun m hm => (wp_pure _ _ _).2 (hnone m (hm.mono fun p => by omega))) fun page m hm => ?_
    refine ih (hm.mono fun p => ?_) hnone hsome
    have := Pgdir.uses_setTable (d := d) (p := p) i page
    omega

/-- What `setupkvm` gives up with is lost. -/
theorem wp_setupkvm (h : Owns g m) {Q : Option Pgdir → Kmem → Prop} (hnone : ∀ m, Owns g m → Q none m)
    (hsome : ∀ d m, Owns (fun p => g p + d.uses p) m → Q (some d) m) : Wp once setupkvm Q m := by
  rw [setupkvm, wp_bind]
  refine wp_kalloc h (fun m hm => (wp_pure _ _ _).2 (hnone m hm)) fun dir m hm => ?_
  refine wp_mapKernel kmap (hm.mono fun p => ?_) hnone hsome
  have : ∑ _i : Fin NPDENTRIES, PageTable.uses none p = 0 := Finset.sum_eq_zero fun _ _ => rfl
  show g p + (one dir p + ∑ _i : Fin NPDENTRIES, PageTable.uses none p) ≤ _
  omega

theorem wp_deallocFrom (oldsz : Size) (fuel : Nat) : ∀ {a : Nat} {d : Pgdir} {m : Kmem},
    Owns (fun p => g p + d.uses p) m → ∀ {Q : Pgdir → Kmem → Prop}, (∀ d m, Owns (fun p => g p + d.uses p) m → Q d m) →
      Wp once (deallocFrom kernelEnd oldsz fuel a d) Q m := by
  induction fuel with
  | zero =>
    intro a d m h Q hQ
    exact (wp_pure _ _ _).2 (hQ d m h)
  | succ fuel ih =>
    intro a d m h Q hQ
    rw [deallocFrom, wp_ite, wp_pure]
    refine ⟨fun _ => ?_, fun _ => hQ d m h⟩
    cases hd : d.table (Pgdir.pdx a) with
    | none => exact ih h hQ
    | some pt =>
      dsimp only
      cases hpt : pt.pte (Pgdir.ptx a) with
      | none => exact ih h hQ
      | some x =>
        dsimp only
        rw [wp_ite, wp_throw, wp_bind]
        refine ⟨fun _ => trivial, fun _ => ?_⟩
        -- the page leaves its PTE for the free list
        refine wp_kfree (g := fun p => g p + (d.setPte a pt none).uses p) (h.mono fun p => ?_) fun m hm => ih hm hQ
        have := Pgdir.uses_setPte (p := p) hd none
        have hsome : Pte.uses (pt.pte (Pgdir.ptx a)) p = one x.page p := by rw [hpt]; rfl
        have hnone : Pte.uses none p = 0 := rfl
        omega

theorem wp_deallocuvm (h : Owns (fun p => g p + d.uses p) m) (oldsz : Size) (newsz : UInt32)
    {Q : Pgdir × Size → Kmem → Prop} (hQ : ∀ d n m, Owns (fun p => g p + d.uses p) m → Q (d, n) m) :
    Wp once (deallocuvm kernelEnd d oldsz newsz) Q m := by
  rw [deallocuvm, wp_dite]
  refine ⟨fun _ => (wp_pure _ _ _).2 (hQ _ _ _ h), fun _ => ?_⟩
  rw [wp_bind]
  exact wp_deallocFrom oldsz _ h fun d m hm => (wp_pure _ _ _).2 (hQ _ _ _ hm)

theorem wp_allocFrom (oldsz newsz : Size) (fuel : Nat) : ∀ {a : Nat} {d : Pgdir} {m : Kmem},
    Owns (fun p => g p + d.uses p) m → ∀ {Q : Pgdir × Size → Kmem → Prop},
      (∀ d n m, Owns (fun p => g p + d.uses p) m → Q (d, n) m) →
      Wp once (allocFrom kernelEnd oldsz newsz fuel a d) Q m := by
  induction fuel with
  | zero =>
    intro a d m h Q hQ
    exact (wp_pure _ _ _).2 (hQ _ _ _ h)
  | succ fuel ih =>
    intro a d m h Q hQ
    rw [allocFrom, wp_ite, wp_pure]
    refine ⟨fun _ => ?_, fun _ => hQ _ _ _ h⟩
    rw [wp_bind]
    refine wp_kalloc h (fun m hm => ?_) fun mem m hm => ?_
    · dsimp only
      rw [wp_bind]
      exact wp_deallocuvm hm newsz _ fun d n m hm => (wp_pure _ _ _).2 (hQ _ _ _ hm)
    · dsimp only
      rw [wp_bind]
      exact wp_mappages a _ hm fun d b m hm => ih hm hQ

theorem wp_allocuvm (h : Owns (fun p => g p + d.uses p) m) (oldsz : Size) (newsz : UInt32)
    {Q : Pgdir × Size → Kmem → Prop} (hQ : ∀ d n m, Owns (fun p => g p + d.uses p) m → Q (d, n) m) :
    Wp once (allocuvm kernelEnd d oldsz newsz) Q m := by
  rw [allocuvm, wp_dite]
  refine ⟨fun _ => (wp_pure _ _ _).2 (hQ _ _ _ h), fun _ => ?_⟩
  rw [wp_ite]
  exact ⟨fun _ => (wp_pure _ _ _).2 (hQ _ _ _ h), fun _ => wp_allocFrom oldsz _ _ h hQ⟩

/-- The pages of the page tables from `is` on. -/
def tablePages (d : Pgdir) (is : List (Fin NPDENTRIES)) (p : Page) : Nat :=
  (is.map fun i => (d.table i).elim 0 fun pt => one pt.page p).sum

theorem tablePages_le (d : Pgdir) (p : Page) : tablePages d (List.finRange NPDENTRIES) p + one d.dir p ≤ d.uses p := by
  have hle : tablePages d (List.finRange NPDENTRIES) p ≤ ∑ i, PageTable.uses (d.table i) p := by
    rw [tablePages, ← Fin.sum_univ_def]
    refine Finset.sum_le_sum fun i _ => ?_
    cases d.table i with
    | none => exact Nat.le_refl 0
    | some pt => exact Nat.le_add_right _ _
  simp only [Pgdir.uses]
  omega

/-- `freevm` gives back what a page directory consists of. -/
theorem wp_freevm (h : Owns (fun p => g p + d.uses p) m) {Q : Unit → Kmem → Prop} (hQ : ∀ m, Owns g m → Q () m) :
    Wp once (freevm kernelEnd d) Q m := by
  rw [freevm, wp_bind]
  refine wp_deallocuvm h _ _ fun d n m hm => ?_
  dsimp only
  rw [wp_bind]
  refine (wp_forEach (fun is m => Owns (fun p => g p + one d.dir p + tablePages d is p) m) (fun i is m hm => ?_) _ m
    (hm.mono fun p => ?_)).mono fun _ m hm => ?_
  · cases hd : d.table i with
    | none =>
      refine (wp_pure _ _ _).2 (hm.mono fun p => ?_)
      simp [tablePages]
    | some pt =>
      refine wp_kfree (g := fun p => g p + one d.dir p + tablePages d is p) (hm.mono fun p => ?_) fun m hm => hm
      simp only [tablePages, List.map_cons, List.sum_cons, hd, Option.elim_some]
      omega
  · have := tablePages_le d p
    omega
  · exact wp_kfree (g := g) (hm.mono fun p => by omega) hQ

theorem wp_copyFrom (sz : Size) (fuel : Nat) : ∀ {a : Nat} {c : Pgdir} {m : Kmem}, Owns (fun p => g p + c.uses p) m →
    ∀ {Q : Option Pgdir → Kmem → Prop}, (∀ m, Owns g m → Q none m) →
      (∀ c m, Owns (fun p => g p + c.uses p) m → Q (some c) m) → Wp once (copyFrom kernelEnd d sz fuel a c) Q m := by
  induction fuel with
  | zero =>
    intro a c m h Q _ hsome
    exact (wp_pure _ _ _).2 (hsome c m h)
  | succ fuel ih =>
    intro a c m h Q hnone hsome
    -- `bad`
    have hbad : ∀ {c : Pgdir} {m : Kmem}, Owns (fun p => g p + c.uses p) m → Wp once (do
        freevm kernelEnd c
        return none) Q m := by
      intro c m h
      rw [wp_bind]
      exact wp_freevm h fun m hm => (wp_pure _ _ _).2 (hnone m hm)
    rw [copyFrom, wp_ite, wp_pure]
    refine ⟨fun _ => ?_, fun _ => hsome c m h⟩
    cases (d.table (Pgdir.pdx a)).bind fun pt => pt.pte (Pgdir.ptx a) with
    | none => exact (wp_throw _ _ _).2 trivial
    | some x =>
      dsimp only
      rw [wp_bind]
      refine wp_kalloc h (fun m hm => hbad hm) fun mem m hm => ?_
      dsimp only
      rw [wp_bind]
      refine wp_mappages a _ hm fun c ok m hm => ?_
      dsimp only
      rw [wp_ite]
      exact ⟨fun _ => ih hm hnone hsome, fun _ => hbad hm⟩

/-- `copyuvm` shares no page with what it copies. -/
theorem wp_copyuvm (h : Owns g m) (d : Pgdir) (sz : Size) {Q : Option Pgdir → Kmem → Prop}
    (hnone : ∀ m, Owns g m → Q none m) (hsome : ∀ c m, Owns (fun p => g p + c.uses p) m → Q (some c) m) :
    Wp once (copyuvm kernelEnd d sz) Q m := by
  rw [copyuvm, wp_bind]
  refine wp_setupkvm h (fun m hm => (wp_pure _ _ _).2 (hnone m hm)) fun c m hm => ?_
  exact wp_copyFrom sz _ hm hnone hsome

end

end NewXv6.Vm
