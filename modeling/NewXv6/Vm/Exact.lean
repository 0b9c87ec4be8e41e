import NewXv6.Vm.Calls
import NewXv6.Vm.Fit

/-!
# Where the pages go

The lemmas of `Vm.Own` say that no page is used twice, these that none is lost: `Exact c g m` counts the pages on the free
list and those in `g`. A page directory in which the first `n` user pages are mapped and no others (`Whole`) is taken
apart without a rest, and one that is built loses nothing as long as a page table is there where one is needed.
-/

namespace NewXv6.Vm

open Lib
open Load (Avail frame calls tables TablesFit)

/-- No store misses the user pages; a run may panic. -/
def calm : Contract Stop Event where
  assume := Event.Tame
  ensure _ := True
  fail _ := True

/-- There are `c p` of page `p`, on the free list and in `g`. -/
def Exact (c g : Page → Nat) (m : Kmem) : Prop := ∀ p, m.freelist.count p + g p = c p

/-- The PTE of virtual page `a`. -/
def pteAt (d : Pgdir) (a : Nat) : Option Pte := (d.table (Pgdir.pdx a)).bind fun pt => pt.pte (Pgdir.ptx a)

/-- The number of virtual pages. -/
abbrev NPAGES : Nat := NPDENTRIES * NPTENTRIES

/-- The first `n` user pages are mapped, and no others. -/
def Whole (d : Pgdir) (n : Nat) : Prop := ∀ y, y < NPAGES → ((pteAt d y).isSome ↔ y < n)

/-- The page directory and its page tables are in the same pages. -/
structure SameTables (d e : Pgdir) : Prop where
  dir : e.dir = d.dir
  table : ∀ i, (e.table i).map PageTable.page = (d.table i).map PageTable.page

section

variable {c g g' : Page → Nat} {m m' : Kmem} {d e : Pgdir} {kernelEnd : Page} {a b k n : Nat} {pt : PageTable}
  {x : Option Pte}

theorem Exact.congr (h : Exact c g m) (hg : ∀ p, g' p = g p) (hm : m'.freelist = m.freelist) : Exact c g' m' := fun p => by
  rw [hm, hg]
  exact h p

/-! ## PTEs -/

theorem pte_index (i : Fin NPDENTRIES) (j : Fin NPTENTRIES) :
    Pgdir.pdx (i.val * NPTENTRIES + j.val) = i ∧ Pgdir.ptx (i.val * NPTENTRIES + j.val) = j := by
  have hi : i.val < 1024 := i.isLt
  have hj : j.val < 1024 := j.isLt
  constructor
  · refine Fin.ext ?_
    show (i.val * 1024 + j.val) / 1024 % 1024 = i.val
    omega
  · refine Fin.ext ?_
    show (i.val * 1024 + j.val) % 1024 = j.val
    omega

theorem index_lt (i : Fin NPDENTRIES) (j : Fin NPTENTRIES) : i.val * NPTENTRIES + j.val < NPAGES := by
  have hi : i.val < 1024 := i.isLt
  have hj : j.val < 1024 := j.isLt
  show i.val * 1024 + j.val < 1048576
  omega

theorem page_eq (ha : a < NPAGES) (hb : b < NPAGES) (hd : Pgdir.pdx b = Pgdir.pdx a) (ht : Pgdir.ptx b = Pgdir.ptx a) :
    b = a := by
  have hd' : b / 1024 % 1024 = a / 1024 % 1024 := congrArg Fin.val hd
  have ht' : b % 1024 = a % 1024 := congrArg Fin.val ht
  have : a < 1048576 := ha
  have : b < 1048576 := hb
  omega

theorem pteAt_setPte (h : d.table (Pgdir.pdx a) = some pt ∨ d.table (Pgdir.pdx a) = none ∧ ∀ j, pt.pte j = none)
    (ha : a < NPAGES) (hb : b < NPAGES) : pteAt (d.setPte a pt x) b = if b = a then x else pteAt d b := by
  unfold pteAt Pgdir.setPte
  dsimp only
  by_cases hd : Pgdir.pdx b = Pgdir.pdx a
  · rw [hd, Function.update_self, Option.bind_some]
    dsimp only
    by_cases ht : Pgdir.ptx b = Pgdir.ptx a
    · rw [if_pos (page_eq ha hb hd ht), ht, Function.update_self]
    · have hne : b ≠ a := fun he => ht (he ▸ rfl)
      rw [if_neg hne, Function.update_of_ne ht]
      rcases h with h | ⟨h, hempty⟩
      · rw [h, Option.bind_some]
      · rw [h, Option.bind_none]
        exact hempty _
  · have hne : b ≠ a := fun he => hd (he ▸ rfl)
    rw [if_neg hne, Function.update_of_ne hd]

theorem Whole.setPte (h : Whole d n) (hn : n < NPAGES) {y : Pte}
    (hpt : d.table (Pgdir.pdx n) = some pt ∨ d.table (Pgdir.pdx n) = none ∧ ∀ j, pt.pte j = none) :
    Whole (d.setPte n pt (some y)) (n + 1) := by
  intro z hz
  rw [pteAt_setPte hpt hn hz]
  by_cases hzn : z = n
  · rw [if_pos hzn, hzn]
    exact ⟨fun _ => Nat.lt_succ_self n, fun _ => rfl⟩
  · rw [if_neg hzn, h z hz]
    omega

theorem Whole.none (h : Whole d n) (hb : b < NPAGES) (hn : n ≤ b) : pteAt d b = none := by
  have := h b hb
  cases hp : pteAt d b with
  | none => rfl
  | some y =>
    rw [hp] at this
    exact absurd (this.1 rfl) (Nat.not_lt.2 hn)

theorem SameTables.refl (d : Pgdir) : SameTables d d := ⟨rfl, fun _ => rfl⟩

theorem SameTables.trans {f : Pgdir} (h : SameTables d e) (h' : SameTables e f) : SameTables d f :=
  ⟨h'.dir.trans h.dir, fun i => (h'.table i).trans (h.table i)⟩

theorem SameTables.setPte (h : d.table (Pgdir.pdx a) = some pt) : SameTables d (d.setPte a pt x) := by
  refine ⟨rfl, fun i => ?_⟩
  by_cases hi : i = Pgdir.pdx a
  · subst hi
    simp only [Pgdir.setPte, Function.update_self, h, Option.map_some]
  · simp only [Pgdir.setPte, Function.update_of_ne hi]

theorem SameTables.isSome (h : SameTables d e) (i : Fin NPDENTRIES) : (e.table i).isSome = (d.table i).isSome := by
  have := congrArg Option.isSome (h.table i)
  rwa [Option.isSome_map, Option.isSome_map] at this

/-- The pages and the PTEs are all that a page directory is. -/
theorem SameTables.eq (h : SameTables d e) (hp : ∀ y, y < NPAGES → pteAt e y = pteAt d y) : e = d := by
  obtain ⟨dir, table⟩ := d
  obtain ⟨dir', table'⟩ := e
  cases h.dir
  have htable : table' = table := by
    funext i
    have hi := h.table i
    have hpi := fun j => hp _ (index_lt i j)
    unfold pteAt at hpi
    simp only [pte_index] at hpi hi
    cases h₁ : table i with
    | none =>
      rw [h₁, Option.map_none, Option.map_eq_none_iff] at hi
      exact hi
    | some pt =>
      rw [h₁, Option.map_some, Option.map_eq_some_iff] at hi
      obtain ⟨pt', h₂, hpage⟩ := hi
      simp only [h₁, h₂, Option.bind_some] at hpi
      obtain ⟨page, pte⟩ := pt
      obtain ⟨page', pte'⟩ := pt'
      cases hpage
      rw [h₂, show pte' = pte from funext hpi]
  rw [htable]

/-! ## `kalloc.c` -/

theorem calm_kalloc (h : Avail m k) {Q : Option Page → Kmem → Prop}
    (hnone : ¬Avail m (k + 1) → ∀ m', m'.freelist = (Load.after m k).freelist → Q none m')
    (hsome : Avail m (k + 1) → Q (some (frame m k)) (Load.after m (k + 1))) : Wp calm kalloc Q (Load.after m k) := by
  rw [kalloc, wp_bind, wp_get, wp_bind, wp_modify]
  by_cases hf : m.fails k = true
  · have h0 : (Load.after m k).fails 0 = true := by simpa [Load.after] using hf
    rw [if_pos h0]
    refine (wp_pure _ _ _).2 (hnone (fun hA => ?_) _ rfl)
    have := hA.2 k (Nat.lt_succ_self k)
    rw [hf] at this
    cases this
  · have h0 : ¬(Load.after m k).fails 0 = true := by simpa [Load.after] using hf
    rw [if_neg h0]
    cases hl : (Load.after m k).freelist with
    | nil =>
      refine (wp_pure _ _ _).2 (hnone (fun hA => ?_) _ hl.symm)
      have hlen := congrArg List.length hl
      simp only [Load.after, List.length_drop, List.length_nil] at hlen
      have := hA.1
      omega
    | cons r rest =>
      have hk : k < m.freelist.length := by
        have hlen := congrArg List.length hl
        simp only [Load.after, List.length_drop, List.length_cons] at hlen
        omega
      have hA : Avail m (k + 1) := by
        refine ⟨hk, fun i hi => ?_⟩
        rcases Nat.lt_succ_iff_lt_or_eq.1 hi with hi | rfl
        · exact h.2 i hi
        · simpa using hf
      have hdrop : r :: rest = m.freelist[k] :: m.freelist.drop (k + 1) := hl.symm.trans (List.drop_eq_getElem_cons hk)
      obtain ⟨rfl, rfl⟩ := List.cons.inj hdrop
      rw [wp_bind, wp_modify, wp_pure]
      have hframe : frame m k = m.freelist[k] := List.getD_eq_getElem _ _ hk
      have hafter : ({ freelist := m.freelist.drop (k + 1), fails := fun i => (Load.after m k).fails (i + 1) } : Kmem) =
          Load.after m (k + 1) := by
        unfold Load.after
        congr 1
        funext i
        show m.fails (i + 1 + k) = m.fails (i + (k + 1))
        congr 1
        omega
      have hQ := hsome hA
      rw [hframe] at hQ
      rw [hafter]
      exact hQ

/-- The page `kalloc` gives is no longer on the free list. -/
theorem Exact.kalloc (h : Exact c g (Load.after m k)) (hA : Avail m (k + 1)) :
    Exact c (fun p => g p + one (frame m k) p) (Load.after m (k + 1)) := by
  intro p
  have hk : k < m.freelist.length := hA.1
  have hp := h p
  have hframe : frame m k = m.freelist[k] := List.getD_eq_getElem _ _ hk
  have hdrop : (Load.after m k).freelist = frame m k :: (Load.after m (k + 1)).freelist := by
    rw [hframe]
    exact List.drop_eq_getElem_cons hk
  rw [hdrop, List.count_cons] at hp
  simp only [beq_iff_eq] at hp
  show _ + (g p + if frame m k = p then 1 else 0) = c p
  omega

theorem calm_kfree {v : Page} (h : Exact c (fun p => g p + one v p) m) {Q : Unit → Kmem → Prop}
    (hQ : ∀ m, Exact c g m → Q () m) : Wp calm (kfree kernelEnd v) Q m := by
  rw [kfree, wp_bind, wp_get, wp_bind, wp_emit]
  intro _
  refine ⟨trivial, ?_⟩
  rw [wp_ite, wp_throw, wp_modify]
  refine ⟨fun _ => trivial, fun _ => hQ _ fun p => ?_⟩
  have hp : _ + (g p + if v = p then 1 else 0) = c p := h p
  rw [List.count_cons]
  simp only [beq_iff_eq]
  omega

/-! ## Taking apart -/

/-- The loop of `deallocuvm`: the PTEs from `a` on are cleared, and their pages go to the free list. -/
theorem calm_deallocFrom (oldsz : Size) (hlt : ∀ y, y < n → y * PGSIZE < oldsz) (fuel : Nat) :
    ∀ {a : Nat} {d : Pgdir} {m : Kmem}, Exact c (fun p => g p + d.uses p) m →
      (∀ y, a ≤ y → y < NPAGES → ((pteAt d y).isSome ↔ y < n)) → n ≤ a + fuel → ∀ {Q : Pgdir → Kmem → Prop},
      (∀ e m, Exact c (fun p => g p + e.uses p) m → SameTables d e →
        (∀ y, y < NPAGES → pteAt e y = if a ≤ y then none else pteAt d y) → Q e m) →
      Wp calm (deallocFrom kernelEnd oldsz fuel a d) Q m := by
  -- where nothing is mapped from `a` on, nothing changes
  have hend : ∀ {a : Nat} {d : Pgdir}, (∀ y, a ≤ y → y < NPAGES → ((pteAt d y).isSome ↔ y < n)) → n ≤ a →
      ∀ y, y < NPAGES → pteAt d y = if a ≤ y then none else pteAt d y := by
    intro a d hmap hna y hy
    split
    · rename_i hay
      have := hmap y hay hy
      cases hp : pteAt d y with
      | none => rfl
      | some z =>
        rw [hp] at this
        exact absurd (this.1 rfl) (by omega)
    · rfl
  induction fuel with
  | zero =>
    intro a d m h hmap hfuel Q hQ
    exact (wp_pure _ _ _).2 (hQ d m h (.refl d) (hend hmap hfuel))
  | succ fuel ih =>
    intro a d m h hmap hfuel Q hQ
    rw [deallocFrom, wp_ite, wp_pure]
    refine ⟨fun hin => ?_, fun hout => hQ d m h (.refl d) (hend hmap ?_)⟩
    · have ha : a < NPAGES := by
        have h₁ : a * 4096 < oldsz := hin
        have h₂ : (oldsz : Nat) < 0x80000000 + 1 := oldsz.isLt
        show a < 1048576
        omega
      -- a page that is not mapped is past the end
      have hskip : pteAt d a = none → n ≤ a := by
        intro hp
        have := hmap a (Nat.le_refl a) ha
        rw [hp] at this
        exact Nat.not_lt.1 fun hlt => Bool.noConfusion (this.2 hlt)
      cases hd : d.table (Pgdir.pdx a) with
      | none =>
        have hna : n ≤ a := hskip (by unfold pteAt; rw [hd]; rfl)
        refine ih h (fun y hy => hmap y (by omega)) (by omega) fun e m he hs hp => hQ e m he hs fun y hy => ?_
        rw [hp y hy]
        by_cases h₁ : a + NPTENTRIES ≤ y
        · rw [if_pos h₁, if_pos (by omega)]
        · rw [if_neg h₁]
          exact hend hmap hna y hy
      | some pt =>
        dsimp only
        cases hpt : pt.pte (Pgdir.ptx a) with
        | none =>
          have hna : n ≤ a := hskip (by unfold pteAt; rw [hd]; exact hpt)
          refine ih h (fun y hy => hmap y (by omega)) (by omega) fun e m he hs hp => hQ e m he hs fun y hy => ?_
          rw [hp y hy]
          by_cases h₁ : a + 1 ≤ y
          · rw [if_pos h₁, if_pos (by omega)]
          · rw [if_neg h₁]
            exact hend hmap hna y hy
        | some z =>
          dsimp only
          rw [wp_ite, wp_throw, wp_bind]
          refine ⟨fun _ => trivial, fun _ => ?_⟩
          have hset : ∀ y, y < NPAGES → pteAt (d.setPte a pt none) y = if y = a then none else pteAt d y := fun y hy =>
            pteAt_setPte (Or.inl hd) ha hy
          refine calm_kfree (g := fun p => g p + (d.setPte a pt none).uses p) (fun p => ?_) fun m hm =>
            ih hm (fun y hy hlt => ?_) (by omega) fun e m he hs hp =>
              hQ e m he ((SameTables.setPte hd).trans hs) fun y hy => ?_
          · have hp : _ + (g p + d.uses p) = c p := h p
            have := Pgdir.uses_setPte (p := p) hd none
            have hsome : Pte.uses (pt.pte (Pgdir.ptx a)) p = one z.page p := by rw [hpt]; rfl
            have hnone : Pte.uses none p = 0 := rfl
            dsimp only
            omega
          · rw [hset y hlt, if_neg (by omega)]
            exact hmap y (by omega) hlt
          · rw [hp y hy, hset y hy]
            by_cases h₁ : a + 1 ≤ y
            · rw [if_pos h₁, if_pos (by omega)]
            · by_cases h₂ : y = a
              · rw [if_neg h₁, if_pos h₂, if_pos (by omega)]
              · rw [if_neg h₁, if_neg h₂, if_neg (by omega)]
    · exact Nat.not_lt.1 fun hlt' => hout (hlt a hlt')

theorem calm_deallocuvm (h : Exact c (fun p => g p + d.uses p) m) (hw : Whole d n) {oldsz : Size} {newsz : UInt32}
    (hn : n ≤ pageRoundUp oldsz) (hlt : newsz.toNat < (oldsz : Nat)) {Q : Pgdir × Size → Kmem → Prop}
    (hQ : ∀ e m (sz : Size), (sz : Nat) = newsz.toNat → Exact c (fun p => g p + e.uses p) m → SameTables d e →
      (∀ y, y < NPAGES → pteAt e y = if pageRoundUp newsz.toNat ≤ y then none else pteAt d y) → Q (e, sz) m) :
    Wp calm (deallocuvm kernelEnd d oldsz newsz) Q m := by
  have hround : pageRoundUp oldsz = ((oldsz : Nat) + 4096 - 1) / 4096 := rfl
  rw [deallocuvm, wp_dite]
  refine ⟨fun hle => absurd hlt (Nat.not_lt.2 hle), fun hlt' => ?_⟩
  rw [wp_bind]
  refine calm_deallocFrom (n := n) oldsz (fun y hy => ?_) _ h (fun y _ hy => hw y hy) ?_ fun e m he hs hp =>
    (wp_pure _ _ _).2 (hQ e m _ rfl he hs hp)
  · show y * 4096 < oldsz
    omega
  · show n ≤ pageRoundUp newsz.toNat + ((oldsz : Nat) / 4096 + 1)
    omega

/-- Without PTEs a page directory is itself and its page tables. -/
theorem tablePages_eq (h : ∀ y, y < NPAGES → pteAt d y = none) (p : Page) :
    tablePages d (List.finRange NPDENTRIES) p + one d.dir p = d.uses p := by
  have heq : tablePages d (List.finRange NPDENTRIES) p = ∑ i, PageTable.uses (d.table i) p := by
    rw [tablePages, ← Fin.sum_univ_def]
    refine Finset.sum_congr rfl fun i _ => ?_
    have hi := fun j => h _ (index_lt i j)
    unfold pteAt at hi
    simp only [pte_index] at hi
    cases hd : d.table i with
    | none => simp only [PageTable.uses, Option.elim_none]
    | some pt =>
      simp only [hd, Option.bind_some] at hi
      have hzero : ∑ j, Pte.uses (pt.pte j) p = 0 := Finset.sum_eq_zero fun j _ => by rw [hi j]; rfl
      show one pt.page p = one pt.page p + ∑ j, Pte.uses (pt.pte j) p
      omega
  simp only [Pgdir.uses]
  omega

/-- **`freevm`** gives back all that a page directory consists of. -/
theorem calm_freevm (h : Exact c (fun p => g p + d.uses p) m) (hw : Whole d n) (hn : n ≤ 524288) {Q : Unit → Kmem → Prop}
    (hQ : ∀ m, Exact c g m → Q () m) : Wp calm (freevm kernelEnd d) Q m := by
  rw [freevm, wp_bind]
  refine calm_deallocuvm h hw ?_ ?_ fun e m _ _ he _ hp => ?_
  · rw [Fin.val_last, pageRoundUp]
    omega
  · rw [Fin.val_last, UInt32.toNat_zero]
    exact Nat.two_pow_pos 31
  have hempty : ∀ y, y < NPAGES → pteAt e y = none := fun y hy => (hp y hy).trans (if_pos (Nat.zero_le y))
  dsimp only
  rw [wp_bind]
  refine (wp_forEach (fun is m => Exact c (fun p => g p + one e.dir p + tablePages e is p) m) (fun i is m hm => ?_) _ m
    (he.congr (fun p => ?_) rfl)).mono fun _ m hm => ?_
  · cases hi : e.table i with
    | none =>
      refine (wp_pure _ _ _).2 (hm.congr (fun p => ?_) rfl)
      simp [tablePages, hi]
    | some pt =>
      refine calm_kfree (g := fun p => g p + one e.dir p + tablePages e is p) (hm.congr (fun p => ?_) rfl) fun m hm => hm
      simp only [tablePages, List.map_cons, List.sum_cons, hi, Option.elim_some]
      omega
  · have := tablePages_eq hempty p
    omega
  · exact calm_kfree (hm.congr (fun p => by simp [tablePages]) rfl) hQ

end

end NewXv6.Vm
