import NewXv6.Vm.Load
import Mathlib.Data.Nat.Bitwise

/-!
# Building an address space

`exec` builds the new address space page by page: when `n` user pages are mapped, `calls n` calls of `kalloc` are over,
and the page of virtual page `a` is what call number `calls a` gave (`Built`). Where a call fails the code gives up, but
for a page table: `allocuvm` does not look at what `mappages` returns, and the page is missing (`TablesFit`).
-/

namespace NewXv6.Vm.Load

open Lib

/-- No panic, and no store misses the user pages. -/
def safe : Contract Stop Event where
  assume _ := True
  ensure := Event.Tame
  fail _ := False

/-! ## `kalloc` -/

/-- The first `k` calls of `kalloc` find a page. -/
def Avail (m : Kmem) (k : Nat) : Prop := k ≤ m.freelist.length ∧ ∀ i < k, m.fails i = false

/-- The allocator after `k` calls. -/
def after (m : Kmem) (k : Nat) : Kmem := { freelist := m.freelist.drop k, fails := fun i => m.fails (i + k) }

/-- The page that call number `k` gives. -/
def frame (m : Kmem) (k : Nat) : Page := m.freelist.getD k 0

/-- The page tables of `n` user pages. -/
def tables (n : Nat) : Nat := (n + 1023) / 1024

/-- The calls of `kalloc` until `n` user pages are mapped. -/
def calls (n : Nat) : Nat := kmap.length + 1 + n + tables n

/-- Where there is a page for the first virtual page of a page table, there is one for the page table. -/
def TablesFit (m : Kmem) (a b : Nat) : Prop :=
  ∀ t, a ≤ 1024 * t → 1024 * t < b → Avail m (calls (1024 * t) + 1) → Avail m (calls (1024 * t) + 2)

/-- A page that `kfree` takes. -/
def Valid (kernelEnd : Page) (p : Page) : Prop := kernelEnd ≤ p ∧ p < PHYSTOP / PGSIZE ∧ p ≠ 0

variable {m : Kmem} {d : Pgdir} {kernelEnd : Page} {n a k : Nat}

theorem Avail.mono {j : Nat} (h : Avail m k) (hj : j ≤ k) : Avail m j :=
  ⟨Nat.le_trans hj h.1, fun i hi => h.2 i (Nat.lt_of_lt_of_le hi hj)⟩

theorem frame_mem (h : Avail m (k + 1)) : frame m k ∈ m.freelist := by
  have hk : k < m.freelist.length := h.1
  unfold frame
  rw [List.getD_eq_getElem _ _ hk]
  exact List.getElem_mem hk

theorem frame_inj (hnodup : m.freelist.Nodup) {i j : Nat} (hi : i < m.freelist.length) (hj : j < m.freelist.length)
    (h : frame m i = frame m j) : i = j := by
  unfold frame at h
  rw [List.getD_eq_getElem _ _ hi, List.getD_eq_getElem _ _ hj] at h
  exact (hnodup.getElem_inj_iff).1 h

theorem calls_lt {b : Nat} (h : a < b) : calls a + 1 ≤ calls b := by
  unfold calls tables
  omega

theorem wp_kalloc (h : Avail m k) {Q : Option Page → Kmem → Prop} (hnone : ¬Avail m (k + 1) → ∀ m', Q none m')
    (hsome : Avail m (k + 1) → Q (some (frame m k)) (after m (k + 1))) : Wp safe kalloc Q (after m k) := by
  rw [kalloc, wp_bind, wp_get, wp_bind, wp_modify]
  by_cases hf : m.fails k = true
  · have h0 : (after m k).fails 0 = true := by simpa [after] using hf
    rw [if_pos h0]
    refine (wp_pure _ _ _).2 (hnone (fun hA => ?_) _)
    have := hA.2 k (Nat.lt_succ_self k)
    rw [hf] at this
    cases this
  · have h0 : ¬(after m k).fails 0 = true := by simpa [after] using hf
    rw [if_neg h0]
    cases hl : m.freelist.drop k with
    | nil =>
      have hl' : (after m k).freelist = [] := hl
      rw [hl']
      refine (wp_pure _ _ _).2 (hnone (fun hA => ?_) _)
      have hlen := congrArg List.length hl
      rw [List.length_drop, List.length_nil] at hlen
      have := hA.1
      omega
    | cons r rest =>
      have hl' : (after m k).freelist = r :: rest := hl
      have hlen := congrArg List.length hl
      rw [List.length_drop, List.length_cons] at hlen
      have hA : Avail m (k + 1) := by
        refine ⟨by omega, fun i hi => ?_⟩
        rcases Nat.lt_succ_iff_lt_or_eq.1 hi with hi | rfl
        · exact h.2 i hi
        · simpa using hf
      have hr : r = frame m k := by
        have hk : k < m.freelist.length := hA.1
        rw [List.drop_eq_getElem_cons hk] at hl
        unfold frame
        rw [List.getD_eq_getElem _ _ hk]
        exact (List.cons.inj hl).1.symm
      have hrest : rest = m.freelist.drop (k + 1) := by
        have hk : k < m.freelist.length := hA.1
        rw [List.drop_eq_getElem_cons hk] at hl
        exact (List.cons.inj hl).2.symm
      rw [hl', wp_bind, wp_modify, wp_pure, hr, hrest]
      have hafter : ({ freelist := m.freelist.drop (k + 1), fails := fun i => (after m k).fails (i + 1) } : Kmem) =
          after m (k + 1) := by
        unfold after
        congr 1
        funext i
        show m.fails (i + 1 + k) = m.fails (i + (k + 1))
        congr 1
        omega
      rw [hafter]
      exact hsome hA

/-! ## `freevm` -/

/-- Every page that a page directory consists of can be freed. -/
structure Sound (kernelEnd : Page) (d : Pgdir) : Prop where
  dir : Valid kernelEnd d.dir
  table : ∀ i pt, d.table i = some pt → Valid kernelEnd pt.page
  page : ∀ i pt, d.table i = some pt → ∀ j x, pt.pte j = some x → Valid kernelEnd x.page

theorem Sound.setPte (h : Sound kernelEnd d) {pt : PageTable} {x : Option Pte} (hpt : Valid kernelEnd pt.page)
    (hpages : ∀ j y, pt.pte j = some y → Valid kernelEnd y.page) (hx : ∀ y, x = some y → Valid kernelEnd y.page) :
    Sound kernelEnd (d.setPte a pt x) := by
  refine ⟨h.dir, fun i t hi => ?_, fun i t hi j y hj => ?_⟩
  · by_cases hia : i = Pgdir.pdx a
    · subst hia
      simp only [Pgdir.setPte, Function.update_self, Option.some.injEq] at hi
      subst hi
      exact hpt
    · simp only [Pgdir.setPte, Function.update_of_ne hia] at hi
      exact h.table i t hi
  · by_cases hia : i = Pgdir.pdx a
    · subst hia
      simp only [Pgdir.setPte, Function.update_self, Option.some.injEq] at hi
      subst hi
      dsimp only at hj
      by_cases hja : j = Pgdir.ptx a
      · subst hja
        rw [Function.update_self] at hj
        exact hx y hj
      · rw [Function.update_of_ne hja] at hj
        exact hpages j y hj
    · simp only [Pgdir.setPte, Function.update_of_ne hia] at hi
      exact h.page i t hi j y hj

theorem wp_kfree {p : Page} (hp : Valid kernelEnd p) {Q : Unit → Kmem → Prop} (hQ : ∀ m', Q () m') :
    Wp safe (kfree kernelEnd p) Q m := by
  rw [kfree, wp_bind, wp_get, wp_bind, wp_emit]
  intro _
  refine ⟨trivial, ?_⟩
  rw [wp_ite, wp_throw, wp_modify]
  refine ⟨fun hbad => ?_, fun _ => hQ _⟩
  obtain ⟨h, h', -⟩ := hp
  rcases hbad with hbad | hbad
  · exact absurd hbad (Nat.not_lt.2 h)
  · exact absurd hbad (Nat.not_le.2 h')

theorem wp_deallocFrom (oldsz : Size) (fuel : Nat) : ∀ {a : Nat} {d : Pgdir} {m : Kmem}, Sound kernelEnd d →
    ∀ {Q : Pgdir → Kmem → Prop}, (∀ d m, Sound kernelEnd d → Q d m) →
      Wp safe (deallocFrom kernelEnd oldsz fuel a d) Q m := by
  induction fuel with
  | zero =>
    intro a d m h Q hQ
    exact (wp_pure _ _ _).2 (hQ d m h)
  | succ fuel ih =>
    intro a d m h Q hQ
    rw [deallocFrom, wp_ite, wp_pure]
    refine ⟨fun _ => ?_, fun _ => hQ d m h⟩
    cases hd : d.table (Pgdir.pdx a) with
    | none => exact ih h hQ
    | some pt =>
      dsimp only
      cases hpt : pt.pte (Pgdir.ptx a) with
      | none => exact ih h hQ
      | some x =>
        have hx := h.page _ _ hd _ _ hpt
        dsimp only
        rw [wp_ite, wp_throw, wp_bind]
        refine ⟨fun h0 => hx.2.2 h0, fun _ => wp_kfree hx fun m' => ih (h.setPte (h.table _ _ hd) (h.page _ _ hd) ?_) hQ⟩
        exact fun _ he => by cases he

theorem wp_deallocuvm (h : Sound kernelEnd d) (oldsz : Size) (newsz : UInt32) {Q : Pgdir × Size → Kmem → Prop}
    (hQ : ∀ d n m, Sound kernelEnd d → Q (d, n) m) : Wp safe (deallocuvm kernelEnd d oldsz newsz) Q m := by
  rw [deallocuvm, wp_dite]
  refine ⟨fun _ => (wp_pure _ _ _).2 (hQ _ _ _ h), fun _ => ?_⟩
  rw [wp_bind]
  exact wp_deallocFrom oldsz _ h fun d m hd => (wp_pure _ _ _).2 (hQ _ _ _ hd)

theorem wp_freevm (h : Sound kernelEnd d) {Q : Unit → Kmem → Prop} (hQ : ∀ m', Q () m') :
    Wp safe (freevm kernelEnd d) Q m := by
  rw [freevm, wp_bind]
  refine wp_deallocuvm h _ _ fun d _ m hd => ?_
  dsimp only
  rw [wp_bind]
  refine (wp_forEach (fun _ _ => True) (fun i _ m _ => ?_) _ m trivial).mono fun _ m _ => wp_kfree hd.dir hQ
  cases hi : d.table i with
  | none => exact (wp_pure _ _ _).2 trivial
  | some pt => exact wp_kfree (hd.table i pt hi) fun _ => trivial

/-! ## Page directories -/

/-- The first `n` user pages are mapped; `user` says which of them the process may use. -/
structure Built (m : Kmem) (user : Nat → Bool) (d : Pgdir) (n : Nat) : Prop where
  mapped : ∀ a < n, ∃ pt, d.table (Pgdir.pdx a) = some pt ∧ pt.pte (Pgdir.ptx a) = some ⟨frame m (calls a), user a⟩
  unmapped : ∀ a, n ≤ a → a < 524288 → ∀ pt, d.table (Pgdir.pdx a) = some pt → pt.pte (Pgdir.ptx a) = none
  absent : ∀ a, 1024 * tables n ≤ a → a < 524288 → d.table (Pgdir.pdx a) = none
  kernel : ∀ i ∈ kmap, (d.table i).isSome
  hole : ∀ i : Fin NPDENTRIES, 512 ≤ i.val → i ∉ kmap → d.table i = none

theorem pdx_eq_iff {b : Nat} (ha : a < 524288) (hb : b < 524288) : Pgdir.pdx a = Pgdir.pdx b ↔ a / 1024 = b / 1024 := by
  unfold Pgdir.pdx
  rw [Fin.mk.injEq]
  show a / 1024 % 1024 = b / 1024 % 1024 ↔ _
  omega

theorem ptx_eq_iff {b : Nat} : Pgdir.ptx a = Pgdir.ptx b ↔ a % 1024 = b % 1024 := by
  unfold Pgdir.ptx
  rw [Fin.mk.injEq]

theorem kmap_ge (i : Fin NPDENTRIES) (hi : i ∈ kmap) : 512 ≤ i.val := by
  have hall : (kmap.all fun i => decide (512 ≤ i.val)) = true := by decide +kernel
  exact of_decide_eq_true (List.all_eq_true.1 hall i hi)

theorem pdx_lt (ha : a < 524288) : (Pgdir.pdx a).val < 512 := by
  show a / 1024 % 1024 < 512
  omega

theorem pdx_notMem_kmap (ha : a < 524288) : Pgdir.pdx a ∉ kmap := fun h =>
  absurd (kmap_ge _ h) (Nat.not_le.2 (pdx_lt ha))

variable {user : Nat → Bool}

/-- A page is mapped. -/
theorem Built.setPte (h : Built m user d n) (hn : n < 524288) {pt : PageTable}
    (hpt : d.table (Pgdir.pdx n) = some pt ∨ d.table (Pgdir.pdx n) = none ∧ ∀ j, pt.pte j = none) :
    Built m user (d.setPte n pt (some ⟨frame m (calls n), user n⟩)) (n + 1) := by
  refine ⟨fun a ha => ?_, fun a hna ha t ht => ?_, fun a hna ha => ?_, fun i hi => ?_, fun i hi hik => ?_⟩
  · rcases Nat.lt_succ_iff_lt_or_eq.1 ha with ha | rfl
    · obtain ⟨t, ht, hpte⟩ := h.mapped a ha
      by_cases hpd : Pgdir.pdx a = Pgdir.pdx n
      · -- the page table of page n is there already
        rcases hpt with hpt | ⟨hnone, -⟩
        · rw [hpd, hpt] at ht
          cases ht
          refine ⟨_, by rw [hpd]; exact Function.update_self .., ?_⟩
          have hne : Pgdir.ptx a ≠ Pgdir.ptx n := by
            rw [Ne, ptx_eq_iff]
            rw [pdx_eq_iff (by omega) hn] at hpd
            omega
          dsimp only
          rw [Function.update_of_ne hne]
          exact hpte
        · rw [hpd, hnone] at ht
          cases ht
      · refine ⟨t, ?_, hpte⟩
        simp only [Pgdir.setPte, Function.update_of_ne hpd]
        exact ht
    · exact ⟨_, Function.update_self .., Function.update_self ..⟩
  · by_cases hpd : Pgdir.pdx a = Pgdir.pdx n
    · simp only [Pgdir.setPte, hpd, Function.update_self, Option.some.injEq] at ht
      subst ht
      have hne : Pgdir.ptx a ≠ Pgdir.ptx n := by
        rw [Ne, ptx_eq_iff]
        rw [pdx_eq_iff ha hn] at hpd
        omega
      dsimp only
      rw [Function.update_of_ne hne]
      rcases hpt with hpt | ⟨-, hempty⟩
      · exact h.unmapped a (by omega) ha pt (by rw [hpd]; exact hpt)
      · exact hempty _
    · simp only [Pgdir.setPte, Function.update_of_ne hpd] at ht
      exact h.unmapped a (by omega) ha t ht
  · have hpd : Pgdir.pdx a ≠ Pgdir.pdx n := by
      rw [Ne, pdx_eq_iff ha hn]
      unfold tables at hna
      omega
    simp only [Pgdir.setPte, Function.update_of_ne hpd]
    refine h.absent a ?_ ha
    unfold tables at hna ⊢
    omega
  · have hne : i ≠ Pgdir.pdx n := fun hc => pdx_notMem_kmap hn (hc ▸ hi)
    simp only [Pgdir.setPte, Function.update_of_ne hne]
    exact h.kernel i hi
  · have hne : i ≠ Pgdir.pdx n := fun hc => absurd hi (Nat.not_le.2 (hc ▸ pdx_lt hn))
    simp only [Pgdir.setPte, Function.update_of_ne hne]
    exact h.hole i hi hik

theorem Built.userPte (h : Built m user d n) (hn : n ≤ 524288) (ha : a < n) :
    userPte d a = some ⟨frame m (calls a), user a⟩ := by
  obtain ⟨pt, hpt, hpte⟩ := h.mapped a ha
  have hlt : a * PGSIZE < KERNBASE := by
    show a * 4096 < 0x80000000
    omega
  unfold Load.userPte
  rw [if_pos hlt, hpt, Option.bind_some, hpte]

theorem Built.userPte_none (h : Built m user d n) (ha : n ≤ a) : Load.userPte d a = none := by
  unfold Load.userPte
  split
  · next hlt =>
    have ha' : a < 524288 := by
      have : a * 4096 < 0x80000000 := hlt
      omega
    cases hd : d.table (Pgdir.pdx a) with
    | none => rfl
    | some pt => exact h.unmapped a ha ha' pt hd
  · rfl

/-- The end of the page directory stays where it was. -/
theorem Built.table (h : Built m user d n) (hn : n ≤ 524288) (ha : a < 1024 * tables n) :
    ∃ pt, d.table (Pgdir.pdx a) = some pt := by
  have hfirst : 1024 * (a / 1024) < n := by
    unfold tables at ha
    omega
  obtain ⟨pt, hpt, -⟩ := h.mapped _ hfirst
  have hpd : Pgdir.pdx (1024 * (a / 1024)) = Pgdir.pdx a := by
    rw [pdx_eq_iff (by omega) (by omega)]
    omega
  exact ⟨pt, hpd ▸ hpt⟩

/-! ## Growing -/

/-- An empty page table is added. -/
def newTable (d : Pgdir) (i : Fin NPDENTRIES) (page : Page) : Pgdir :=
  { d with table := Function.update d.table i (some { page, pte := fun _ => none }) }

theorem newTable_table (i : Fin NPDENTRIES) (page : Page) :
    (newTable d i page).table = Function.update d.table i (some { page, pte := fun _ => none }) := rfl

theorem newTable_some {i j : Fin NPDENTRIES} {page : Page} {pt : PageTable} (h : (newTable d i page).table j = some pt) :
    j = i ∧ pt = { page, pte := fun _ => none } ∨ d.table j = some pt := by
  by_cases hij : j = i
  · subst hij
    rw [newTable_table, Function.update_self] at h
    cases h
    exact Or.inl ⟨rfl, rfl⟩
  · rw [newTable_table, Function.update_of_ne hij] at h
    exact Or.inr h

theorem Sound.newTable (hd : Sound kernelEnd d) {page : Page} (hpage : Valid kernelEnd page) (i : Fin NPDENTRIES) :
    Sound kernelEnd (Load.newTable d i page) := by
  refine ⟨hd.dir, fun j pt hj => ?_, fun j pt hj => ?_⟩
  · rcases newTable_some hj with ⟨-, rfl⟩ | hj
    · exact hpage
    · exact hd.table j pt hj
  · rcases newTable_some hj with ⟨-, rfl⟩ | hj
    · exact nofun
    · exact hd.page j pt hj

variable (hfree : ∀ p ∈ m.freelist, Valid kernelEnd p)
include hfree

theorem wp_mapKernel (is : List (Fin NPDENTRIES)) : ∀ {d : Pgdir} {k : Nat}, Avail m k →
    (∀ i pt, d.table i = some pt → i ∈ kmap ∧ ∀ j, pt.pte j = none) → (∀ i ∈ is, i ∈ kmap) → Sound kernelEnd d →
    ∀ {Q : Option Pgdir → Kmem → Prop}, (¬Avail m (k + is.length) → ∀ m', Q none m') →
      (∀ d', Avail m (k + is.length) → (∀ i pt, d'.table i = some pt → i ∈ kmap ∧ ∀ j, pt.pte j = none) →
        (∀ i, (i ∈ is ∨ (d.table i).isSome) → (d'.table i).isSome) → Sound kernelEnd d' →
        Q (some d') (after m (k + is.length))) →
      Wp safe (mapKernel d is) Q (after m k) := by
  induction is with
  | nil =>
    intro d k hA hhigh _ hd Q _ hsome
    exact (wp_pure _ _ _).2 (hsome d hA hhigh (fun i hi => hi.resolve_left nofun) hd)
  | cons i is ih =>
    intro d k hA hhigh his hd Q hnone hsome
    have hlen : k + 1 + is.length = k + (i :: is).length := by
      rw [List.length_cons]
      omega
    rw [← hlen] at hnone
    rw [mapKernel, wp_bind]
    refine wp_kalloc hA (fun hno m' => (wp_pure _ _ _).2 (hnone (fun hA' => hno (hA'.mono (by omega))) m')) fun hA' => ?_
    have hpage := hfree _ (frame_mem hA')
    have hhigh' : ∀ j pt, (newTable d i (frame m k)).table j = some pt → j ∈ kmap ∧ ∀ l, pt.pte l = none := by
      intro j pt hj
      rcases newTable_some hj with ⟨rfl, rfl⟩ | hj
      · exact ⟨his _ List.mem_cons_self, fun _ => rfl⟩
      · exact hhigh j pt hj
    refine ih hA' hhigh' (fun j hj => his j (List.mem_cons_of_mem i hj)) (hd.newTable hpage i) hnone
      fun d' hA'' hhigh'' hall hd' => ?_
    rw [hlen] at hA'' ⊢
    refine hsome d' hA'' hhigh'' (fun j hj => hall j ?_) hd'
    by_cases hij : j = i
    · subst hij
      exact Or.inr (by rw [newTable_table, Function.update_self]; rfl)
    · rw [newTable_table, Function.update_of_ne hij]
      exact hj.imp_left fun h => (List.mem_cons.1 h).resolve_left hij

/-- `setupkvm` maps no user page. -/
theorem wp_setupkvm {Q : Option Pgdir → Kmem → Prop} (hnone : ¬Avail m (calls 0) → ∀ m', Q none m')
    (hsome : ∀ d, Avail m (calls 0) → Built m user d 0 → Sound kernelEnd d → Q (some d) (after m (calls 0))) :
    Wp safe setupkvm Q (after m 0) := by
  have hcalls : 0 + 1 + kmap.length = calls 0 := by
    unfold calls tables
    omega
  rw [← hcalls] at hnone
  rw [setupkvm, wp_bind]
  refine wp_kalloc ⟨Nat.zero_le _, fun i hi => absurd hi (Nat.not_lt_zero i)⟩
    (fun hno m' => (wp_pure _ _ _).2 (hnone (fun hA => hno (hA.mono (by omega))) m')) fun hA => ?_
  dsimp only
  have hempty : ∀ (i : Fin NPDENTRIES) (pt : PageTable), (none : Option PageTable) = some pt → False := fun _ _ he => by cases he
  refine wp_mapKernel hfree kmap hA (fun i pt hi => (hempty i pt hi).elim) (fun _ hi => hi)
    ⟨hfree _ (frame_mem hA), fun i pt hi => (hempty i pt hi).elim, fun i pt hi => (hempty i pt hi).elim⟩ hnone
    fun d hA' hhigh hall hd => ?_
  rw [hcalls] at hA' ⊢
  refine hsome d hA' ⟨fun a ha => absurd ha (Nat.not_lt_zero a), fun a _ _ pt hpt => (hhigh _ pt hpt).2 _,
    fun a _ ha => ?_, fun i hi => hall i (Or.inl hi), fun i _ hik => ?_⟩ hd
  · cases hpt : d.table (Pgdir.pdx a) with
    | none => rfl
    | some pt => exact absurd (hhigh _ pt hpt).1 (pdx_notMem_kmap ha)
  · cases hpt : d.table i with
    | none => rfl
    | some pt => exact absurd (hhigh i pt hpt).1 hik

/-- The next user page is mapped. -/
theorem wp_mappages (hn : n < 524288) (hA : Avail m (calls n + 1)) (h : Built m user d n) (hd : Sound kernelEnd d)
    (htable : n % 1024 = 0 → Avail m (calls n + 2)) {Q : Pgdir × Bool → Kmem → Prop}
    (hQ : ∀ d, Avail m (calls (n + 1)) → Built m user d (n + 1) → Sound kernelEnd d →
      Q (d, true) (after m (calls (n + 1)))) :
    Wp safe (mappages d n { page := frame m (calls n), user := user n }) Q (after m (calls n + 1)) := by
  have hpage := hfree _ (frame_mem hA)
  have hnew : ∀ y, some (⟨frame m (calls n), user n⟩ : Pte) = some y → Valid kernelEnd y.page := by
    intro y hy
    cases hy
    exact hpage
  unfold mappages
  by_cases hfirst : n % 1024 = 0
  · -- the first page of a page table
    have hcalls : calls (n + 1) = calls n + 1 + 1 := by
      unfold calls tables
      omega
    have hnone : d.table (Pgdir.pdx n) = none := h.absent n (by unfold tables; omega) hn
    rw [hnone]
    dsimp only
    rw [wp_bind]
    have hA' := htable hfirst
    refine wp_kalloc hA (fun hno => absurd hA' hno) fun _ => ?_
    rw [hcalls] at hQ
    refine (wp_pure _ _ _).2 (hQ _ hA' (h.setPte hn (Or.inr ⟨hnone, fun _ => rfl⟩)) ?_)
    exact hd.setPte (hfree _ (frame_mem hA')) nofun hnew
  · have hcalls : calls (n + 1) = calls n + 1 := by
      unfold calls tables
      omega
    obtain ⟨pt, hpt⟩ := h.table (Nat.le_of_lt hn) (a := n) (by unfold tables; omega)
    rw [hpt]
    dsimp only
    rw [h.unmapped n (Nat.le_refl n) hn pt hpt]
    rw [hcalls] at hQ
    refine (wp_pure _ _ _).2 (hQ _ hA (h.setPte hn (Or.inl hpt)) ?_)
    exact hd.setPte (hd.table _ pt hpt) (hd.page _ pt hpt) hnew

/-- The loop of `allocuvm`. -/
theorem wp_allocFrom (oldsz newsz : Size) (fuel : Nat) : ∀ {a : Nat} {d : Pgdir}, a ≤ pageRoundUp newsz →
    pageRoundUp newsz ≤ a + fuel → Avail m (calls a) → Built m (fun _ => true) d a → Sound kernelEnd d →
    TablesFit m a (pageRoundUp newsz) → ∀ {Q : Pgdir × Size → Kmem → Prop},
    (¬Avail m (calls (pageRoundUp newsz)) → ∀ d m', Sound kernelEnd d → Q (d, 0) m') →
    (∀ d, Avail m (calls (pageRoundUp newsz)) → Built m (fun _ => true) d (pageRoundUp newsz) → Sound kernelEnd d →
      Q (d, newsz) (after m (calls (pageRoundUp newsz)))) →
    Wp safe (allocFrom kernelEnd oldsz newsz fuel a d) Q (after m (calls a)) := by
  have hnewsz := newsz.isLt
  have hround : pageRoundUp newsz = (newsz + 4096 - 1) / 4096 := rfl
  have hle : pageRoundUp newsz ≤ 524288 := by
    have : (newsz : Nat) < 0x80000000 + 1 := hnewsz
    omega
  induction fuel with
  | zero =>
    intro a d ha hfuel hA hb hd _ Q _ hok
    have ha' : a = pageRoundUp newsz := by omega
    subst ha'
    exact (wp_pure _ _ _).2 (hok d hA hb hd)
  | succ fuel ih =>
    intro a d ha hfuel hA hb hd hfit Q hbad hok
    rw [allocFrom, wp_ite, wp_pure]
    refine ⟨fun hlt => ?_, fun hge => ?_⟩
    · have hlt' : a < pageRoundUp newsz := by
        have : a * 4096 < newsz := hlt
        omega
      rw [wp_bind]
      refine wp_kalloc hA (fun hno m' => ?_) fun hA' => ?_
      · have hno' : ¬Avail m (calls (pageRoundUp newsz)) := fun hA => hno (hA.mono (calls_lt hlt'))
        dsimp only
        rw [wp_bind]
        exact wp_deallocuvm hd newsz _ fun d _ m hd => (wp_pure _ _ _).2 (hbad hno' d m hd)
      · dsimp only
        rw [wp_bind]
        refine wp_mappages hfree (Nat.lt_of_lt_of_le hlt' hle) hA' hb hd (fun hmod => ?_)
          fun d hA hb hd => ?_
        · have hdiv : 1024 * (a / 1024) = a := by omega
          have := hfit (a / 1024) (by omega) (by omega)
          rw [hdiv] at this
          exact this hA'
        · exact ih hlt' (by omega) hA hb hd (fun t ht => hfit t (by omega)) hbad hok
    · have ha' : a = pageRoundUp newsz := by
        have : ¬a * 4096 < newsz := hge
        omega
      subst ha'
      exact hok d hA hb hd

end NewXv6.Vm.Load
