import NewXv6.Paging.Model
import Mathlib.Tactic.Common

/-!
# Mapping a range of pages (`vm.c`)

A page directory is told by its PTEs, one for each page of the address space whose page table there is (`pte`). Its page
tables are pages of their own (`Wf`): a new directory is so, and `mappages` keeps it so. One round of `mappages` sets one PTE
(`round_set`); what a whole call does is an induction over the pages of the range (`mapLoop_spec`, `mappages_range`).
-/

namespace NewXv6.Paging

/-! ## Page directories -/

/-- The PTE of page `p` of the address space, if its page table is there. -/
def pte (s : Phys) (pgdir : Page) (p : Nat) : Option Nat :=
  if present (s.entry pgdir (p / 1024)) then some (s.entry (PTE_ADDR (s.entry pgdir (p / 1024))) (p % 1024)) else none

/-- The page tables are pages of their own, none of them free. -/
structure Wf (s : Phys) (pgdir : Page) : Prop where
  free_nodup : s.freelist.Nodup
  free_lt : ∀ page ∈ s.freelist, page < 1048576
  dir_free : pgdir ∉ s.freelist
  table : ∀ i < 1024, present (s.entry pgdir i) →
    PTE_ADDR (s.entry pgdir i) ≠ pgdir ∧ PTE_ADDR (s.entry pgdir i) ∉ s.freelist
  apart : ∀ i < 1024, ∀ j < 1024, present (s.entry pgdir i) → present (s.entry pgdir j) →
    PTE_ADDR (s.entry pgdir i) = PTE_ADDR (s.entry pgdir j) → i = j

variable {s s' : Phys} {pgdir page pgtab : Page} {p q i j e n m k va size pa perm : Nat} {rest : List Page}

theorem present_iff : present e = true ↔ e % 2 = 1 := by
  rw [present, Nat.and_one_is_mod, bne_iff_ne]
  omega

/-! ## Entries -/

theorem set_self : (s.set page i e).entry page i = e := by
  simp only [Phys.set, Function.update_self]

theorem set_page (h : pgtab ≠ page) : (s.set page i e).entry pgtab = s.entry pgtab := Function.update_of_ne h _ _

theorem set_index (h : j ≠ i) : (s.set page i e).entry page j = s.entry page j := by
  simp only [Phys.set, Function.update_self, Function.update_of_ne h]

theorem zero_self : (s.zero page).entry page i = 0 := by
  simp only [Phys.zero, Function.update_self]

theorem zero_page (h : pgtab ≠ page) : (s.zero page).entry pgtab = s.entry pgtab := Function.update_of_ne h _ _

/-- A directory of zeros: a page that `kalloc` gave and that was cleared. -/
theorem wf_zero (hnodup : (pgdir :: rest).Nodup) (hlt : ∀ page ∈ rest, page < 1048576) :
    Wf (Phys.zero { s with freelist := rest } pgdir) pgdir := by
  have hzero : ∀ i, (Phys.zero { s with freelist := rest } pgdir).entry pgdir i = 0 := fun i => zero_self
  have habsent : ∀ i, ¬present ((Phys.zero { s with freelist := rest } pgdir).entry pgdir i) = true := fun i => by
    rw [hzero, present_iff]
    decide
  exact ⟨(List.nodup_cons.1 hnodup).2, hlt, (List.nodup_cons.1 hnodup).1, fun i _ h => absurd h (habsent i),
    fun i _ _ _ h => absurd h (habsent i)⟩

/-- The entry of a page table, with its flags. -/
theorem pde_eq (page : Page) : page * PGSIZE ||| PTE_P ||| PTE_W ||| PTE_U = page * 4096 + 7 := by
  have hflags : ∀ x : Nat, x ||| 1 ||| 2 ||| 4 = x ||| 7 := fun x => by
    rw [Nat.or_assoc, Nat.or_assoc]
    rfl
  have hadd := Nat.two_pow_add_eq_or_of_lt (show 7 < 2 ^ 12 by decide) page
  rw [hflags, Nat.mul_comm]
  exact hadd.symm

/-- A page table that is there gets one PTE. -/
theorem Wf.set (h : Wf s pgdir) (hp : p < 1048576) (hthere : present (s.entry pgdir (p / 1024)))
    (hs' : s' = s.set (PTE_ADDR (s.entry pgdir (p / 1024))) (p % 1024) e) :
    Wf s' pgdir ∧ s'.freelist = s.freelist ∧ (∀ i, s'.entry pgdir i = s.entry pgdir i) ∧ pte s' pgdir p = some e ∧
      ∀ q < 1048576, q ≠ p → pte s' pgdir q = pte s pgdir q := by
  have hi : p / 1024 < 1024 := by omega
  have hfree : s'.freelist = s.freelist := by rw [hs']; rfl
  have hdir : ∀ i, s'.entry pgdir i = s.entry pgdir i := fun i => by
    rw [hs', set_page (Ne.symm (h.table _ hi hthere).1)]
  refine ⟨⟨?_, ?_, ?_, ?_, ?_⟩, hfree, hdir, ?_, ?_⟩
  · rw [hfree]
    exact h.free_nodup
  · rw [hfree]
    exact h.free_lt
  · rw [hfree]
    exact h.dir_free
  · intro i hi
    rw [hdir i, hfree]
    exact h.table i hi
  · intro i hi j hj
    rw [hdir i, hdir j]
    exact h.apart i hi j hj
  · rw [pte, hdir, if_pos hthere, hs', set_self]
  · intro q hq hne
    rw [pte, hdir, pte]
    split
    · case isTrue hq' =>
      by_cases hsame : PTE_ADDR (s.entry pgdir (q / 1024)) = PTE_ADDR (s.entry pgdir (p / 1024))
      · have hindex := h.apart _ (by omega) _ hi hq' hthere hsame
        rw [hsame, hs', set_index (by omega)]
      · rw [hs', set_page hsame]
    · rfl

/-- A new page table: all its PTEs are 0. -/
theorem Wf.create (h : Wf s pgdir) (hfree : s.freelist = pgtab :: rest) (hs' : s' = (Phys.zero { s with freelist := rest } pgtab).set pgdir i
      (pgtab * PGSIZE ||| PTE_P ||| PTE_W ||| PTE_U)) :
    Wf s' pgdir ∧ s'.freelist = rest ∧ present (s'.entry pgdir i) ∧ PTE_ADDR (s'.entry pgdir i) = pgtab ∧
      (∀ j ≠ i, s'.entry pgdir j = s.entry pgdir j) ∧
      (∀ q < 1048576, q / 1024 = i → pte s' pgdir q = some 0) ∧
      ∀ q < 1048576, q / 1024 ≠ i → pte s' pgdir q = pte s pgdir q := by
  have hnodup := h.free_nodup
  rw [hfree, List.nodup_cons] at hnodup
  have hne : pgdir ≠ pgtab := fun heq => h.dir_free (by rw [hfree, heq]; exact List.mem_cons_self)
  have hnew : s'.entry pgdir i = pgtab * 4096 + 7 := by rw [hs', set_self, pde_eq]
  have hflags : ∀ x : Nat, (x * 4096 + 7) % 2 = 1 := fun x => by omega
  have haddr : ∀ x : Nat, (x * 4096 + 7) / 4096 = x := fun x => by omega
  have hthere : present (s'.entry pgdir i) = true := by
    rw [hnew, present_iff]
    exact hflags pgtab
  have haddr : PTE_ADDR (s'.entry pgdir i) = pgtab := by
    rw [hnew]
    exact haddr pgtab
  have hdir : ∀ j ≠ i, s'.entry pgdir j = s.entry pgdir j := fun j hj => by
    rw [hs', set_index hj, zero_page hne]
  have htable : ∀ j < 1024, present (s.entry pgdir j) → PTE_ADDR (s.entry pgdir j) ≠ pgtab := fun j hj hthere heq =>
    (h.table j hj hthere).2 (by rw [hfree, heq]; exact List.mem_cons_self)
  refine ⟨⟨?_, ?_, ?_, ?_, ?_⟩, by rw [hs']; rfl, hthere, haddr, hdir, ?_, ?_⟩
  · rw [hs']
    exact hnodup.2
  · rw [hs']
    exact fun page hpage => h.free_lt page (by rw [hfree]; exact List.mem_cons_of_mem _ hpage)
  · rw [hs']
    exact fun hin => h.dir_free (by rw [hfree]; exact List.mem_cons_of_mem _ hin)
  · intro j hj hj'
    have hfreelist : s'.freelist = rest := by rw [hs']; rfl
    by_cases heq : j = i
    · rw [heq, haddr, hfreelist]
      exact ⟨hne.symm, hnodup.1⟩
    · rw [hdir j heq] at hj' ⊢
      rw [hfreelist]
      obtain ⟨hd, hf⟩ := h.table j hj hj'
      exact ⟨hd, fun hin => hf (by rw [hfree]; exact List.mem_cons_of_mem _ hin)⟩
  · intro j hj k hk hj' hk' hsame
    by_cases hji : j = i
    · by_cases hki : k = i
      · rw [hji, hki]
      · rw [hji, haddr, hdir k hki] at hsame
        rw [hdir k hki] at hk'
        exact absurd hsame.symm (htable k hk hk')
    · by_cases hki : k = i
      · rw [hki, haddr, hdir j hji] at hsame
        rw [hdir j hji] at hj'
        exact absurd hsame (htable j hj hj')
      · rw [hdir j hji] at hj' hsame
        rw [hdir k hki] at hk' hsame
        exact h.apart j hj k hk hj' hk' hsame
  · intro q _ hq
    rw [pte, hq, if_pos hthere, haddr, hs', set_page hne.symm, zero_self]
  · intro q hq hqi
    rw [pte, hdir _ hqi, pte]
    split
    · case isTrue hthere' =>
      rw [hs', set_page (h.table _ (by omega) hthere').1, zero_page (htable _ (by omega) hthere')]
    · rfl

/-! ## One round -/

/-- A page is mapped: its PTE is there and is present. -/
def mapped (s : Phys) (pgdir : Page) (p : Nat) : Prop := ∃ e, pte s pgdir p = some e ∧ present e

/-- How many of `l` page tables from `i` on are not there. -/
def absent (s : Phys) (pgdir : Page) (i l : Nat) : Nat := (List.range' i l).countP fun j => !present (s.entry pgdir j)

/-- How many page tables the pages from `p` to `p + k` still need. -/
def newTables (s : Phys) (pgdir : Page) (p k : Nat) : Nat := absent s pgdir (p / 1024) ((p + k) / 1024 + 1 - p / 1024)

/-- The other PTEs stay as they are, those of a new page table are 0. -/
def Kept (s s' : Phys) (pgdir : Page) (q : Nat) : Prop :=
  pte s' pgdir q = pte s pgdir q ∨ pte s pgdir q = none ∧ pte s' pgdir q = some 0

/-- Page `p` got the PTE `e`, and a page table if it had none. -/
structure Placed (s s' : Phys) (pgdir : Page) (p e : Nat) : Prop where
  wf : Wf s' pgdir
  tables : ∀ i ≠ p / 1024, s'.entry pgdir i = s.entry pgdir i
  table : present (s'.entry pgdir (p / 1024))
  free : s.freelist.length = absent s pgdir (p / 1024) 1 + s'.freelist.length
  self : pte s' pgdir p = some e
  others : ∀ q < 1048576, q ≠ p → Kept s s' pgdir q

theorem absent_succ : absent s pgdir i (n + 1) = absent s pgdir i 1 + absent s pgdir (i + 1) n := by
  rw [absent, absent, absent, Nat.add_comm n 1, ← List.range'_append_1, List.countP_append]

theorem absent_there (h : present (s.entry pgdir i)) : absent s pgdir i 1 = 0 := by
  simp [absent, h]

theorem absent_missing (h : ¬present (s.entry pgdir i) = true) : absent s pgdir i 1 = 1 := by
  simp [absent, h]

theorem absent_congr (h : ∀ j, i ≤ j → s'.entry pgdir j = s.entry pgdir j) : absent s' pgdir i n = absent s pgdir i n :=
  List.countP_congr fun j hj => by rw [h j (List.mem_range'_1.1 hj).1]

theorem newTables_eq :
    newTables s pgdir p k = absent s pgdir (p / 1024) 1 + absent s pgdir (p / 1024 + 1) ((p + k) / 1024 - p / 1024) := by
  rw [newTables, Nat.succ_sub (by omega), absent_succ]

theorem newTables_zero : newTables s pgdir p 0 = absent s pgdir (p / 1024) 1 := by
  have hno : (p + 0) / 1024 - p / 1024 = 0 := Nat.sub_self _
  rw [newTables_eq, hno]
  rfl

theorem absent_le : absent s pgdir (p / 1024) 1 ≤ newTables s pgdir p k := by
  rw [newTables_eq]
  exact Nat.le_add_right _ _

/-- A page table that is there is not needed again. -/
theorem Placed.needed (h : Placed s s' pgdir p e) :
    newTables s pgdir p (k + 1) = absent s pgdir (p / 1024) 1 + newTables s' pgdir (p + 1) k := by
  have hrest : absent s' pgdir (p / 1024 + 1) ((p + (k + 1)) / 1024 - p / 1024) =
      absent s pgdir (p / 1024 + 1) ((p + (k + 1)) / 1024 - p / 1024) := absent_congr fun j hj => h.tables j (by omega)
  have hs' : newTables s' pgdir (p + 1) k = absent s' pgdir (p / 1024 + 1) ((p + (k + 1)) / 1024 - p / 1024) := by
    rw [newTables, Nat.add_right_comm p 1 k, Nat.add_assoc p k 1]
    by_cases hsame : (p + 1) / 1024 = p / 1024
    · rw [hsame, Nat.succ_sub (by omega), absent_succ, absent_there h.table, Nat.zero_add]
    · rw [show (p + 1) / 1024 = p / 1024 + 1 by omega, Nat.add_sub_add_right]
  rw [newTables_eq, hs', hrest]

theorem Kept.mapped_iff (h : Kept s s' pgdir q) : mapped s' pgdir q ↔ mapped s pgdir q := by
  obtain h | ⟨hnone, hzero⟩ := h
  · rw [mapped, mapped, h]
  · constructor
    · rintro ⟨e, he, hpresent⟩
      rw [hzero, Option.some.injEq] at he
      subst he
      exact absurd hpresent (by decide)
    · rintro ⟨e, he, -⟩
      rw [hnone] at he
      cases he

theorem Kept.trans {s'' : Phys} (h : Kept s s' pgdir q) (h' : Kept s' s'' pgdir q) : Kept s s'' pgdir q := by
  obtain h | ⟨hnone, hzero⟩ := h
  · rw [Kept, h] at h'
    exact h'
  · obtain h' | ⟨hnone', -⟩ := h'
    · exact Or.inr ⟨hnone, h'.trans hzero⟩
    · rw [hzero] at hnone'
      cases hnone'

theorem Kept.some (h : Kept s s' pgdir q) (he : pte s pgdir q = some e) : pte s' pgdir q = some e := by
  obtain h | ⟨hnone, -⟩ := h
  · rw [h, he]
  · rw [hnone] at he
    cases he

/-- The PTE of a page lies in the page table of its entry. -/
theorem walk_at (hp : p < 1048576) : PDX (p * 4096) = p / 1024 ∧ PTX (p * 4096) = p % 1024 := by
  rw [PDX, PTX]
  omega

/-- What one round does: it has no page table for the page, or it finds the page mapped, or it maps it. -/
theorem round (h : Wf s pgdir) (hp : p < 1048576) :
    (s.freelist.length < absent s pgdir (p / 1024) 1 ∧ ¬mapped s pgdir p ∧
      ∀ last, mapLoop pgdir last perm (n + 1) s (p * 4096) pa = some (s, .failed)) ∨
    (absent s pgdir (p / 1024) 1 = 0 ∧ mapped s pgdir p ∧
      ∀ last, mapLoop pgdir last perm (n + 1) s (p * 4096) pa = some (s, .remap)) ∨
    (¬mapped s pgdir p ∧ ∃ s', Placed s s' pgdir p (pa ||| perm ||| PTE_P) ∧
      ∀ last, mapLoop pgdir last perm (n + 1) s (p * 4096) pa = if p * 4096 = last then some (s', .done)
        else mapLoop pgdir last perm n s' ((p * 4096 + PGSIZE) % WORD) ((pa + PGSIZE) % WORD)) := by
  obtain ⟨hpdx, hptx⟩ := walk_at hp
  by_cases hthere : present (s.entry pgdir (p / 1024)) = true
  · have hwalk : walkpgdir s pgdir (p * 4096) true = (s, some (PTE_ADDR (s.entry pgdir (p / 1024)), p % 1024)) := by
      simp only [walkpgdir, hpdx, hptx, hthere, if_true]
    have hpte : pte s pgdir p = some (s.entry (PTE_ADDR (s.entry pgdir (p / 1024))) (p % 1024)) := if_pos hthere
    by_cases hpresent : present (s.entry (PTE_ADDR (s.entry pgdir (p / 1024))) (p % 1024)) = true
    · exact Or.inr (Or.inl ⟨absent_there hthere, ⟨_, hpte, hpresent⟩, fun last => by
        simp only [mapLoop, hwalk, hpresent, if_true]⟩)
    · obtain ⟨hwf, hfree, hdir, hself, hothers⟩ := h.set hp hthere (e := pa ||| perm ||| PTE_P) rfl
      refine Or.inr (Or.inr ⟨?_, _, ⟨hwf, fun i _ => hdir i, ?_, ?_, hself, fun q hq hne => Or.inl (hothers q hq hne)⟩,
        fun last => by simp only [mapLoop, hwalk, hpresent, Bool.false_eq_true, if_false]⟩)
      · rintro ⟨e, he, hpe⟩
        rw [hpte, Option.some.injEq] at he
        exact hpresent (he ▸ hpe)
      · rw [hdir]
        exact hthere
      · rw [absent_there hthere, hfree, Nat.zero_add]
  · have hpte : pte s pgdir p = none := if_neg hthere
    have hmapped : ¬mapped s pgdir p := by
      rintro ⟨e, he, -⟩
      rw [hpte] at he
      cases he
    cases hfree : s.freelist with
    | nil =>
      refine Or.inl ⟨?_, hmapped, fun last => ?_⟩
      · rw [absent_missing hthere]
        exact Nat.zero_lt_one
      · simp only [mapLoop, walkpgdir, hpdx, hthere, hfree, Bool.false_eq_true, if_false, if_true]
    | cons pgtab rest =>
      obtain ⟨s₁, hs₁⟩ : ∃ s₁, s₁ = (Phys.zero { s with freelist := rest } pgtab).set pgdir (p / 1024)
        (pgtab * PGSIZE ||| PTE_P ||| PTE_W ||| PTE_U) := ⟨_, rfl⟩
      have hwalk : walkpgdir s pgdir (p * 4096) true = (s₁, some (pgtab, p % 1024)) := by
        simp only [walkpgdir, hpdx, hptx, hthere, hfree, hs₁, Bool.false_eq_true, if_false, if_true]
      obtain ⟨hwf₁, hfree₁, hthere₁, haddr₁, hdir₁, hzero₁, hothers₁⟩ := h.create hfree hs₁
      have habsent : present (s₁.entry pgtab (p % 1024)) = false := by
        have hpte₁ := hzero₁ p hp rfl
        rw [pte, if_pos hthere₁, haddr₁, Option.some.injEq] at hpte₁
        rw [hpte₁]
        rfl
      obtain ⟨hwf, hfree', hdir, hself, hothers⟩ := hwf₁.set hp hthere₁ (e := pa ||| perm ||| PTE_P) rfl
      rw [haddr₁] at hwf hfree' hdir hself hothers
      refine Or.inr (Or.inr ⟨hmapped, _, ⟨hwf, fun i hi => (hdir i).trans (hdir₁ i hi), ?_, ?_, hself, fun q hq hne => ?_⟩,
        fun last => by simp only [mapLoop, hwalk, habsent, Bool.false_eq_true, if_false]⟩)
      · rw [hdir]
        exact hthere₁
      · rw [absent_missing hthere, hfree', hfree₁, hfree, List.length_cons, Nat.add_comm]
      · rw [Kept, hothers q hq hne]
        by_cases hsame : q / 1024 = p / 1024
        · refine Or.inr ⟨?_, hzero₁ q hq hsame⟩
          rw [pte, hsame, if_neg hthere]
        · exact Or.inl (hothers₁ q hq hsame)

/-! ## The loop -/

/-- What a run of the loop over the pages from `p` to `p + m` comes to. -/
structure Ran (s s' : Phys) (pgdir : Page) (p m pa perm : Nat) (outcome : Outcome) : Prop where
  wf : Wf s' pgdir
  done : outcome = .done ↔ (∀ k ≤ m, ¬mapped s pgdir (p + k)) ∧ newTables s pgdir p m ≤ s.freelist.length
  remap : outcome = .remap ↔ ∃ k ≤ m, mapped s pgdir (p + k) ∧ newTables s pgdir p k ≤ s.freelist.length
  set : outcome = .done → ∀ k ≤ m, pte s' pgdir (p + k) = some ((pa + k * PGSIZE) % WORD ||| perm ||| PTE_P)
  others : ∀ q < 1048576, q < p ∨ p + m < q → Kept s s' pgdir q

/-- No page is free for the first page table. -/
theorem Ran.failed (h : Wf s pgdir) (hless : s.freelist.length < absent s pgdir (p / 1024) 1) :
    Ran s s pgdir p m pa perm .failed := by
  have hmore : ∀ k, ¬newTables s pgdir p k ≤ s.freelist.length := fun k hle =>
    Nat.lt_irrefl _ (Nat.lt_of_lt_of_le hless (Nat.le_trans absent_le hle))
  refine ⟨h, ?_, ?_, fun hdone => (by cases hdone), fun q _ _ => Or.inl rfl⟩
  · exact ⟨fun hdone => (by cases hdone), fun hall => absurd hall.2 (hmore m)⟩
  · exact ⟨fun hremap => (by cases hremap), fun ⟨k, _, _, hle⟩ => absurd hle (hmore k)⟩

/-- The first page is mapped. -/
theorem Ran.mapped (h : Wf s pgdir) (hthere : absent s pgdir (p / 1024) 1 = 0) (hmapped : mapped s pgdir p) :
    Ran s s pgdir p m pa perm .remap := by
  refine ⟨h, ?_, ?_, fun hdone => (by cases hdone), fun q _ _ => Or.inl rfl⟩
  · exact ⟨fun hdone => (by cases hdone), fun hall => absurd hmapped (hall.1 0 (Nat.zero_le m))⟩
  · refine ⟨fun _ => ⟨0, Nat.zero_le m, hmapped, ?_⟩, fun _ => rfl⟩
    rw [newTables_zero, hthere]
    exact Nat.zero_le _

/-- The first page is the last one. -/
theorem Ran.last (h : Placed s s' pgdir p (pa ||| perm ||| PTE_P)) (hmapped : ¬Paging.mapped s pgdir p) (hpa : pa < WORD) :
    Ran s s' pgdir p 0 pa perm .done := by
  refine ⟨h.wf, ?_, ?_, ?_, fun q hq hne => h.others q hq (by omega)⟩
  · refine ⟨fun _ => ⟨?_, ?_⟩, fun _ => rfl⟩
    · intro k hk
      rw [Nat.le_zero.1 hk]
      exact hmapped
    · rw [newTables_zero, h.free]
      exact Nat.le_add_right _ _
  · refine ⟨fun hremap => (by cases hremap), fun ⟨k, hk, hm, _⟩ => ?_⟩
    rw [Nat.le_zero.1 hk] at hm
    exact absurd hm hmapped
  · intro _ k hk
    rw [Nat.le_zero.1 hk, Nat.zero_mul, Nat.add_zero, Nat.add_zero, Nat.mod_eq_of_lt hpa]
    exact h.self

/-- The first page is mapped now, and the loop goes on. -/
theorem Ran.step {s'' : Phys} {outcome : Outcome} (h : Placed s s' pgdir p (pa ||| perm ||| PTE_P))
    (hmapped : ¬Paging.mapped s pgdir p) (hp : p + (m + 1) < 1048576) (hpa : pa < WORD)
    (hran : Ran s' s'' pgdir (p + 1) m ((pa + PGSIZE) % WORD) perm outcome) : Ran s s'' pgdir p (m + 1) pa perm outcome := by
  have hiff : ∀ k ≤ m, Paging.mapped s' pgdir (p + 1 + k) ↔ Paging.mapped s pgdir (p + (k + 1)) := fun k hk => by
    rw [Nat.add_assoc, Nat.add_comm 1 k]
    exact (h.others _ (by omega) (by omega)).mapped_iff
  have hfree : ∀ k, newTables s pgdir p (k + 1) ≤ s.freelist.length ↔ newTables s' pgdir (p + 1) k ≤ s'.freelist.length :=
    fun k => by rw [h.needed, h.free, Nat.add_le_add_iff_left]
  refine ⟨hran.wf, ?_, ?_, ?_, ?_⟩
  · rw [hran.done, hfree]
    refine and_congr_left fun _ => ⟨fun hall k hk => ?_, fun hall k hk => ?_⟩
    · cases k with
      | zero => exact hmapped
      | succ k => exact fun hm => hall k (Nat.le_of_succ_le_succ hk) ((hiff k (Nat.le_of_succ_le_succ hk)).2 hm)
    · exact fun hm => hall (k + 1) (Nat.succ_le_succ hk) ((hiff k hk).1 hm)
  · rw [hran.remap]
    constructor
    · rintro ⟨k, hk, hm, hle⟩
      exact ⟨k + 1, Nat.succ_le_succ hk, (hiff k hk).1 hm, (hfree k).2 hle⟩
    · rintro ⟨k, hk, hm, hle⟩
      cases k with
      | zero => exact absurd hm hmapped
      | succ k =>
        have hk' := Nat.le_of_succ_le_succ hk
        exact ⟨k, hk', (hiff k hk').2 hm, (hfree k).1 hle⟩
  · intro hdone k hk
    cases k with
    | zero =>
      rw [Nat.zero_mul, Nat.add_zero, Nat.add_zero, Nat.mod_eq_of_lt hpa]
      exact (hran.others p (by omega) (by omega)).some h.self
    | succ k =>
      have hset := hran.set hdone k (Nat.le_of_succ_le_succ hk)
      rw [Nat.mod_add_mod, Nat.add_assoc pa, Nat.add_assoc p, Nat.add_comm 1 k] at hset
      rw [hset, Nat.succ_mul, Nat.add_comm PGSIZE]
  · exact fun q hq hne => (h.others q hq (by omega)).trans (hran.others q hq (by omega))

/-- The loop maps the pages from `p` to `p + m`: it ends within `m + 1` rounds. -/
theorem mapLoop_spec (h : Wf s pgdir) (hp : p + m < 1048576) (hn : m < n) (hpa : pa < WORD) :
    ∃ s' outcome, mapLoop pgdir ((p + m) * 4096) perm n s (p * 4096) pa = some (s', outcome) ∧
      Ran s s' pgdir p m pa perm outcome := by
  induction m generalizing s p pa n with
  | zero =>
    obtain ⟨n, rfl⟩ : ∃ n', n = n' + 1 := ⟨n - 1, by omega⟩
    obtain ⟨hless, -, hrun⟩ | ⟨hthere, hmapped, hrun⟩ | ⟨hmapped, s', hplaced, hrun⟩ := round (n := n) h (by omega : p < _)
    · exact ⟨s, _, hrun _, .failed h hless⟩
    · exact ⟨s, _, hrun _, .mapped h hthere hmapped⟩
    · refine ⟨s', .done, ?_, .last hplaced hmapped hpa⟩
      rw [hrun, Nat.add_zero, if_pos rfl]
  | succ m ih =>
    obtain ⟨n, rfl⟩ : ∃ n', n = n' + 1 := ⟨n - 1, by omega⟩
    obtain ⟨hless, -, hrun⟩ | ⟨hthere, hmapped, hrun⟩ | ⟨hmapped, s₁, hplaced, hrun⟩ := round (n := n) h (by omega : p < _)
    · exact ⟨s, _, hrun _, .failed h hless⟩
    · exact ⟨s, _, hrun _, .mapped h hthere hmapped⟩
    · obtain ⟨s', outcome, hloop, hran⟩ := ih hplaced.wf (by omega : p + 1 + m < _) (Nat.lt_of_succ_lt_succ hn)
        (Nat.mod_lt (pa + PGSIZE) (by decide : 0 < WORD))
      refine ⟨s', outcome, ?_, .step hplaced hmapped hp hpa hran⟩
      have hnext : (p * 4096 + PGSIZE) % WORD = (p + 1) * 4096 := by
        show (p * 4096 + 4096) % 4294967296 = _
        omega
      rw [hrun, if_neg (by omega), hnext, Nat.add_comm m 1, ← Nat.add_assoc, hloop]

/-! ## The range -/

/-- `mappages` runs the loop over the pages of the range, to the end of the address space at most. -/
theorem mappages_ran (h : Wf s pgdir) (hsize : 0 < size) (hend : va + size ≤ WORD) (hpa : pa < WORD) :
    ∃ s' outcome, mappages s pgdir va size pa perm = some (s', outcome) ∧
      Ran s s' pgdir (va / 4096) ((va + size - 1) / 4096 - va / 4096) pa perm outcome := by
  have hword : va + size ≤ 4294967296 := hend
  have hm : va / 4096 + ((va + size - 1) / 4096 - va / 4096) = (va + size - 1) / 4096 := by omega
  -- `va + size` may be 2^32, so the sum wraps to 0 before 1 is taken off
  have hlast : PGROUNDDOWN ((va + size + (WORD - 1)) % WORD) = (va + size - 1) / 4096 * 4096 := by
    show (va + size + (4294967296 - 1)) % 4294967296 / 4096 * 4096 = _
    omega
  have hrun : mappages s pgdir va size pa perm =
      mapLoop pgdir ((va / 4096 + ((va + size - 1) / 4096 - va / 4096)) * 4096) perm 1048576 s (va / 4096 * 4096) pa := by
    rw [mappages, hlast, hm]
    rfl
  rw [hrun]
  exact mapLoop_spec h (by omega) (by omega) hpa

/-- `mappages` maps the pages of a range that ends at the end of the address space at most: the `k`-th page from that of `va` on
gets the PTE of the `k`-th page from `pa` on, the other PTEs stay, or are 0 in a new page table. It panics when a page of the
range is mapped, and the free pages are enough for the page tables up to that page. -/
theorem mappages_range (h : Wf s pgdir) (hsize : 0 < size) (hend : va + size ≤ WORD) (hpa : pa < WORD) :
    ∃ s' outcome, mappages s pgdir va size pa perm = some (s', outcome) ∧ Wf s' pgdir ∧
      (outcome = .done →
        (∀ k ≤ (va + size - 1) / 4096 - va / 4096,
          pte s' pgdir (va / 4096 + k) = some ((pa + k * PGSIZE) % WORD ||| perm ||| PTE_P)) ∧
        ∀ q < 1048576, q < va / 4096 ∨ (va + size - 1) / 4096 < q →
          pte s' pgdir q = pte s pgdir q ∨ pte s pgdir q = none ∧ pte s' pgdir q = some 0) ∧
      (outcome = .done ↔ (∀ k ≤ (va + size - 1) / 4096 - va / 4096, ¬mapped s pgdir (va / 4096 + k)) ∧
        newTables s pgdir (va / 4096) ((va + size - 1) / 4096 - va / 4096) ≤ s.freelist.length) ∧
      (outcome = .remap ↔ ∃ k ≤ (va + size - 1) / 4096 - va / 4096,
        mapped s pgdir (va / 4096 + k) ∧ newTables s pgdir (va / 4096) k ≤ s.freelist.length) := by
  have hword : va + size ≤ 4294967296 := hend
  obtain ⟨s', outcome, hrun, hran⟩ := mappages_ran h hsize hend hpa
  exact ⟨s', outcome, hrun, hran.wf, fun hdone => ⟨hran.set hdone, fun q hq hne => hran.others q hq (by omega)⟩, hran.done,
    hran.remap⟩

/-- Two pages in two new page tables, and the second of them once more. -/
theorem mappages_range_tables : ∃ s s', mappages (Phys.zero ⟨fun _ _ => 0, [6, 7, 8]⟩ 5) 5 0x3FF000 0x2000 0xA000 2 = some (s, .done) ∧
    pte s 5 1023 = some 0xA003 ∧ pte s 5 1024 = some 0xB003 ∧ mappages s 5 0x400000 0x1000 0xC000 2 = some (s', .remap) := by
  have hwf : Wf (Phys.zero ⟨fun _ _ => 0, [6, 7, 8]⟩ 5) 5 := @wf_zero ⟨fun _ _ => 0, []⟩ 5 [6, 7, 8] (by decide) (by decide)
  obtain ⟨s, outcome, hrun, hwf', hset, hdone, -⟩ := @mappages_range _ 5 0x3FF000 0x2000 0xA000 2 hwf (by decide) (by decide)
    (by decide)
  have hnone : ∀ k, k ≤ 1 → ¬mapped (Phys.zero ⟨fun _ _ => 0, [6, 7, 8]⟩ 5) 5 (0x3FF000 / 4096 + k) := by
    rintro k - ⟨e, he, -⟩
    have hno : pte (Phys.zero ⟨fun _ _ => 0, [6, 7, 8]⟩ 5) 5 (0x3FF000 / 4096 + k) = none := by
      rw [pte, zero_self]
      rfl
    rw [hno] at he
    cases he
  obtain rfl : outcome = .done := hdone.2 ⟨hnone, by decide⟩
  obtain ⟨hpages, -⟩ := hset rfl
  have hfirst := hpages 0 (by decide)
  have hsecond : pte s 5 1024 = some 0xB003 := hpages 1 (by decide)
  -- the page table is there now
  have htable : present (s.entry 5 1) = true := by
    by_contra hno
    rw [pte, if_neg hno] at hsecond
    cases hsecond
  obtain ⟨s', outcome, hrun', -, -, -, hremap⟩ := @mappages_range s 5 0x400000 0x1000 0xC000 2 hwf' (by decide) (by decide)
    (by decide)
  obtain rfl : outcome = .remap := by
    refine hremap.2 ⟨0, Nat.zero_le _, ⟨0xB003, hsecond, by decide⟩, ?_⟩
    show [1].countP (fun j => !present (s.entry 5 j)) ≤ _
    rw [List.countP_singleton, htable]
    exact Nat.zero_le _
  exact ⟨s, s', hrun, hfirst, hsecond, hrun'⟩

end NewXv6.Paging
