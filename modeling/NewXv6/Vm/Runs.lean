import NewXv6.Vm.Model

/-!
# Runs of the allocator

What `kalloc`, `kfree` and the loops over page tables do from a given free list, as equations. Each loop is run by an
induction over what it goes through, so that a run through all page tables need not be evaluated.
-/

namespace NewXv6.Vm

open Lib

section

variable {m : Kmem} {s : State} {k dir : Page} {rest : List Page} {d : Pgdir} {kernelEnd : Page}

/-! ## Pages -/

/-- `kalloc` takes the first page. -/
theorem kalloc_first (hl : m.freelist = k :: rest) (h : m.fails 0 = false) :
    kalloc m = (.ok (some k, { freelist := rest, fails := fun n => m.fails (n + 1) }), []) := by
  refine Prog.run_bind (a := m) (t := m) rfl (w := []) (v := []) ?_
  refine Prog.run_bind (a := ()) (t := { m with fails := fun n => m.fails (n + 1) }) rfl (w := []) (v := []) ?_
  rw [h, hl]
  rfl

/-- `kalloc` of an empty list. -/
theorem kalloc_empty (hl : m.freelist = []) : kalloc m = (.ok (none, { m with fails := fun n => m.fails (n + 1) }), []) := by
  refine Prog.run_bind (a := m) (t := m) rfl (w := []) (v := []) ?_
  refine Prog.run_bind (a := ()) (t := { m with fails := fun n => m.fails (n + 1) }) rfl (w := []) (v := []) ?_
  rw [hl, ite_self]
  rfl

/-- `kalloc` fails although there is a page. -/
theorem kalloc_fails (h : m.fails 0 = true) : kalloc m = (.ok (none, { m with fails := fun n => m.fails (n + 1) }), []) := by
  refine Prog.run_bind (a := m) (t := m) rfl (w := []) (v := []) ?_
  refine Prog.run_bind (a := ()) (t := { m with fails := fun n => m.fails (n + 1) }) rfl (w := []) (v := []) ?_
  rw [h]
  rfl

/-- `kfree` of a page of the allocator. -/
theorem kfree_run (hk : kernelEnd ≤ k ∧ k < PHYSTOP / PGSIZE) :
    kfree kernelEnd k m = (.ok ((), { m with freelist := k :: m.freelist }), [.kfree k m.freelist]) := by
  have hvalid : ¬(k < kernelEnd ∨ PHYSTOP / PGSIZE ≤ k) := fun h => h.elim (Nat.not_lt.2 hk.1) (Nat.not_le.2 hk.2)
  refine Prog.run_bind (a := m) (t := m) rfl (w := []) (v := [Event.kfree k m.freelist]) ?_
  refine Prog.run_bind (a := ()) (t := m) rfl (w := [Event.kfree k m.freelist]) (v := []) ?_
  rw [if_neg hvalid]
  rfl

/-- Code of the allocator in the kernel. -/
theorem lift_run {α : Type} {x : Alloc α} {a : α} {w : List Event} (h : x s.kmem = (.ok (a, m), w)) :
    (liftM x : Kern α) s = (.ok (a, { s with kmem := m }), w) := Prog.run_zoom_ok h

/-! ## Page tables -/

/-- `mapKernel` takes a page for every page table. -/
theorem mapKernel_run (is : List (Fin NPDENTRIES)) : ∀ {ks : List Page} {d : Pgdir} {m : Kmem}, ks.length = is.length →
    m.freelist = ks ++ rest → (∀ n, n < is.length → m.fails n = false) → ∃ e,
      mapKernel d is m = (.ok (some e, { freelist := rest, fails := fun n => m.fails (n + is.length) }), []) ∧
      e.dir = d.dir ∧ (∀ i, i ∉ is → e.table i = d.table i) ∧
      ∀ i ∈ is, ∃ k ∈ ks, e.table i = some { page := k, pte := fun _ => none } := by
  induction is with
  | nil =>
    intro ks d m hlen hl _
    obtain rfl := List.eq_nil_of_length_eq_zero hlen
    obtain ⟨l, f⟩ := m
    obtain rfl : l = rest := hl
    exact ⟨d, rfl, rfl, fun _ _ => rfl, fun i hi => absurd hi List.not_mem_nil⟩
  | cons i is ih =>
    intro ks d m hlen hl hf
    cases ks with
    | nil => cases hlen
    | cons k ks =>
      obtain ⟨e, hrun, hdir, hother, hin⟩ := ih (d := { d with
          table := Function.update d.table i (some { page := k, pte := fun _ => none }) })
        (m := { freelist := ks ++ rest, fails := fun n => m.fails (n + 1) }) (Nat.succ.inj hlen) rfl
        fun n hn => hf (n + 1) (Nat.succ_lt_succ hn)
      refine ⟨e, ?_, hdir, fun j hj => ?_, fun j hj => ?_⟩
      · rw [mapKernel]
        exact Prog.run_bind (kalloc_first hl (hf 0 (Nat.succ_pos _))) (v := []) hrun
      · rw [hother j fun hc => hj (List.mem_cons_of_mem _ hc)]
        exact Function.update_of_ne (fun hc => hj (by rw [hc]; exact List.mem_cons_self)) ..
      · by_cases hjs : j ∈ is
        · obtain ⟨k', hk', htable⟩ := hin j hjs
          exact ⟨k', List.mem_cons_of_mem _ hk', htable⟩
        · obtain rfl : j = i := (List.mem_cons.1 hj).resolve_right hjs
          exact ⟨k, List.mem_cons_self, (hother j hjs).trans (Function.update_self ..)⟩

/-- Nothing is deallocated where nothing is mapped. -/
theorem deallocFrom_none (oldsz : Size) (fuel : Nat) : ∀ {a : Nat},
    (∀ y, a ≤ y → y * PGSIZE < oldsz → ((d.table (Pgdir.pdx y)).bind fun pt => pt.pte (Pgdir.ptx y)) = none) →
      deallocFrom kernelEnd oldsz fuel a d m = (.ok (d, m), []) := by
  induction fuel with
  | zero => exact fun _ => rfl
  | succ fuel ih =>
    intro a h
    rw [deallocFrom]
    by_cases hlt : a * PGSIZE < oldsz
    · have hpte := h a (Nat.le_refl a) hlt
      rw [if_pos hlt]
      cases ht : d.table (Pgdir.pdx a) with
      | none => exact ih fun y hy => h y (Nat.le_trans (Nat.le_add_right _ _) hy)
      | some pt =>
        rw [ht, Option.bind_some] at hpte
        dsimp only
        rw [hpte]
        exact ih fun y hy => h y (Nat.le_trans (Nat.le_succ a) hy)
    · rw [if_neg hlt]
      rfl

/-- One page is deallocated, and behind it nothing is mapped. -/
theorem deallocFrom_one {oldsz : Size} {fuel a : Nat} {pt : PageTable} {x : Pte} (hlt : a * PGSIZE < oldsz)
    (ht : d.table (Pgdir.pdx a) = some pt) (hx : pt.pte (Pgdir.ptx a) = some x)
    (hpage : kernelEnd ≤ x.page ∧ x.page < PHYSTOP / PGSIZE) (hpos : 0 < kernelEnd)
    (h : ∀ y, a + 1 ≤ y → y * PGSIZE < oldsz →
      (((d.setPte a pt none).table (Pgdir.pdx y)).bind fun pt => pt.pte (Pgdir.ptx y)) = none) :
    deallocFrom kernelEnd oldsz (fuel + 1) a d m =
      (.ok (d.setPte a pt none, { m with freelist := x.page :: m.freelist }), [.kfree x.page m.freelist]) := by
  rw [deallocFrom, if_pos hlt, ht]
  dsimp only
  rw [hx]
  dsimp only
  rw [if_neg (Nat.ne_of_gt (Nat.lt_of_lt_of_le hpos hpage.1))]
  exact Prog.run_bind (kfree_run hpage) (v := []) (deallocFrom_none oldsz fuel h)

/-- A loop whose rounds only put pages in front of the list. -/
theorem forEach_run {ι : Type} {f : ι → Alloc Unit} (h : ∀ i m, ∃ l w, f i m = (.ok ((), { m with freelist := l ++ m.freelist }), w))
    (is : List ι) : ∀ m, ∃ l w, Prog.forEach f is m = (.ok ((), { m with freelist := l ++ m.freelist }), w) := by
  induction is with
  | nil => exact fun m => ⟨[], [], rfl⟩
  | cons i is ih =>
    intro m
    obtain ⟨l, w, hrun⟩ := h i m
    obtain ⟨l', w', hrun'⟩ := ih { m with freelist := l ++ m.freelist }
    refine ⟨l' ++ l, w ++ w', ?_⟩
    rw [List.append_assoc]
    exact Prog.run_bind hrun hrun'

/-- **`freevm`** of a directory with one user page, the first: that page is the first to be freed. -/
theorem freevm_run {pt : PageTable} {x : Pte} (hdir : kernelEnd ≤ d.dir ∧ d.dir < PHYSTOP / PGSIZE)
    (htables : ∀ i pt, d.table i = some pt → kernelEnd ≤ pt.page ∧ pt.page < PHYSTOP / PGSIZE) (hpos : 0 < kernelEnd)
    (ht : d.table (Pgdir.pdx 0) = some pt) (hx : pt.pte (Pgdir.ptx 0) = some x)
    (hpage : kernelEnd ≤ x.page ∧ x.page < PHYSTOP / PGSIZE)
    (h : ∀ y, 1 ≤ y → y * PGSIZE < KERNBASE → ((d.table (Pgdir.pdx y)).bind fun pt => pt.pte (Pgdir.ptx y)) = none) :
    ∃ l w, freevm kernelEnd d m = (.ok ((), { m with freelist := l ++ x.page :: m.freelist }), .kfree x.page m.freelist :: w) := by
  have hset : ∀ y, 1 ≤ y → y * PGSIZE < KERNBASE →
      (((d.setPte 0 pt none).table (Pgdir.pdx y)).bind fun pt => pt.pte (Pgdir.ptx y)) = none := by
    intro y hy hlt
    unfold Pgdir.setPte
    dsimp only
    by_cases hi : Pgdir.pdx y = Pgdir.pdx 0
    · rw [hi, Function.update_self, Option.bind_some]
      by_cases hj : Pgdir.ptx y = Pgdir.ptx 0
      · rw [hj]
        exact Function.update_self (Pgdir.ptx 0) none pt.pte
      · have hnone := h y hy hlt
        rw [hi, ht, Option.bind_some] at hnone
        exact (Function.update_of_ne hj ..).trans hnone
    · rw [Function.update_of_ne hi]
      exact h y hy hlt
  have htables' : ∀ i pt', (d.setPte 0 pt none).table i = some pt' → kernelEnd ≤ pt'.page ∧ pt'.page < PHYSTOP / PGSIZE := by
    intro i pt' hi
    unfold Pgdir.setPte at hi
    dsimp only at hi
    by_cases hi0 : i = Pgdir.pdx 0
    · rw [hi0, Function.update_self] at hi
      cases hi
      exact htables _ pt ht
    · rw [Function.update_of_ne hi0] at hi
      exact htables i pt' hi
  have hdealloc : deallocuvm kernelEnd d (Fin.last KERNBASE) 0 m =
      (.ok ((d.setPte 0 pt none, 0), { m with freelist := x.page :: m.freelist }), [.kfree x.page m.freelist]) := by
    unfold deallocuvm
    rw [dif_neg (by decide)]
    exact Prog.run_bind (deallocFrom_one (by decide) ht hx hpage hpos hset) (v := []) rfl
  unfold freevm
  rw [Prog.run_bind_ok hdealloc]
  dsimp only
  generalize hloop : Prog.forEach _ (List.finRange NPDENTRIES) = loop
  obtain ⟨l, w, hrun⟩ : ∃ l w, loop { m with freelist := x.page :: m.freelist } =
      (.ok ((), { m with freelist := l ++ x.page :: m.freelist }), w) := by
    rw [← hloop]
    refine forEach_run (fun i m => ?_) _ { m with freelist := x.page :: m.freelist }
    cases hi : (d.setPte 0 pt none).table i with
    | none => exact ⟨[], [], rfl⟩
    | some pt' => exact ⟨[pt'.page], _, kfree_run (htables' i pt' hi)⟩
  rw [Prog.run_bind_ok hrun, kfree_run (show kernelEnd ≤ (d.setPte 0 pt none).dir ∧ _ from hdir)]
  exact ⟨d.dir :: l, _, rfl⟩

/-- The page table of the changed PTE. -/
theorem setPte_table {a : Nat} (h : Pgdir.pdx a = Pgdir.pdx 0) (pt : PageTable) (x : Option Pte) :
    (d.setPte a pt x).table (Pgdir.pdx 0) = some { pt with pte := Function.update pt.pte (Pgdir.ptx a) x } := by
  unfold Pgdir.setPte
  rw [h]
  exact Function.update_self (Pgdir.pdx 0) _ d.table

theorem setPte_table_ne {a : Nat} {i : Fin NPDENTRIES} (h : i ≠ Pgdir.pdx a) (pt : PageTable) (x : Option Pte) :
    (d.setPte a pt x).table i = d.table i := Function.update_of_ne h ..

/-- **`setupkvm`** takes a page for the directory and one for every page table. -/
theorem setupkvm_run {ks : List Page} (hl : m.freelist = dir :: ks ++ rest) (hlen : ks.length = kmap.length)
    (hf : ∀ n, n < kmap.length + 1 → m.fails n = false) : ∃ d,
      setupkvm m = (.ok (some d, { freelist := rest, fails := fun n => m.fails (n + kmap.length + 1) }), []) ∧ d.dir = dir ∧
      d.table (Pgdir.pdx 0) = none ∧ (d.table (Pgdir.pdx 0x80112)).isSome ∧
      ∀ i pt, d.table i = some pt → pt.page ∈ ks ∧ ∀ j, pt.pte j = none := by
  let m₁ : Kmem := { freelist := ks ++ rest, fails := fun n => m.fails (n + 1) }
  have hl₁ : m₁.freelist = ks ++ rest := rfl
  obtain ⟨d, hrun, hdir, hother, hin⟩ := mapKernel_run kmap (d := { dir, table := fun _ => none }) hlen hl₁
    fun n hn => hf (n + 1) (Nat.succ_lt_succ hn)
  refine ⟨d, Prog.run_bind (kalloc_first hl (hf 0 (Nat.succ_pos _))) (v := []) hrun, hdir, hother _ (by decide), ?_,
    fun i pt hi => ?_⟩
  · obtain ⟨k, -, hk⟩ := hin (Pgdir.pdx 0x80112) (by decide)
    rw [hk]
    rfl
  · by_cases hmem : i ∈ kmap
    · obtain ⟨k, hk, hi'⟩ := hin i hmem
      rw [hi'] at hi
      cases hi
      exact ⟨hk, fun _ => rfl⟩
    · rw [hother i hmem] at hi
      cases hi

end

end NewXv6.Vm
