import NewXv6.Vm.Exact

/-!
# Building without losing pages

The loops that build an address space: `allocuvm` for a process that grows (`Growing`) and for a new one (`Tabled`),
`setupkvm` and `copyuvm`. Where they get no page they give back what they took, as long as `kalloc` does not fail where the
code does not look at it or cannot undo it: for a page table.
-/

namespace NewXv6.Vm

open Lib
open Load (Avail frame calls tables TablesFit)

section

variable {c g : Page → Nat} {m m' : Kmem} {d e : Pgdir} {kernelEnd : Page} {a b k n : Nat} {pt : PageTable}

/-! ## `allocuvm` -/

/-- The loop of `allocuvm`, with an invariant `I` of the page, the page directory and the number of calls of `kalloc` that
are over. A page table is always there or can be had. -/
theorem calm_allocFrom (I : Nat → Pgdir → Nat → Prop) (oldsz newsz : Size)
    (hstep : ∀ a d k, I a d k → a < pageRoundUp newsz → Avail m (k + 1) →
      (∀ pt, d.table (Pgdir.pdx a) = some pt → I (a + 1) (d.setPte a pt (some ⟨frame m k, true⟩)) (k + 1)) ∧
      (d.table (Pgdir.pdx a) = none → Avail m (k + 2) ∧
        I (a + 1) (d.setPte a ⟨frame m (k + 1), fun _ => none⟩ (some ⟨frame m k, true⟩)) (k + 2)))
    (fuel : Nat) : ∀ {a : Nat} {d : Pgdir} {k : Nat}, pageRoundUp oldsz ≤ a → a ≤ pageRoundUp newsz →
      pageRoundUp newsz ≤ a + fuel → I a d k → Avail m k → Whole d a → Exact c (fun p => g p + d.uses p) (Load.after m k) →
      ∀ {Q : Pgdir × Size → Kmem → Prop},
      (∀ a d k e m', a < pageRoundUp newsz → I a d k → Avail m k → ¬Avail m (k + 1) →
        Exact c (fun p => g p + e.uses p) m' → SameTables d e → Whole e (pageRoundUp oldsz) →
        (∀ y, y < NPAGES → pteAt e y = if pageRoundUp oldsz ≤ y then none else pteAt d y) → Q (e, 0) m') →
      (∀ d k, I (pageRoundUp newsz) d k → Avail m k → Whole d (pageRoundUp newsz) →
        Exact c (fun p => g p + d.uses p) (Load.after m k) → Q (d, newsz) (Load.after m k)) →
      Wp calm (allocFrom kernelEnd oldsz newsz fuel a d) Q (Load.after m k) := by
  have hnewsz : (newsz : Nat) < 0x80000000 + 1 := newsz.isLt
  have holdsz : (oldsz : Nat) < 0x80000000 + 1 := oldsz.isLt
  have hlo : pageRoundUp oldsz = (oldsz + 4096 - 1) / 4096 := rfl
  have hhi : pageRoundUp newsz = (newsz + 4096 - 1) / 4096 := rfl
  have htoNat : (UInt32.ofNat (oldsz : Nat)).toNat = oldsz := by
    rw [UInt32.toNat_ofNat']
    exact Nat.mod_eq_of_lt (by omega)
  induction fuel with
  | zero =>
    intro a d k _ ha hfuel hI hA hw hx Q _ hok
    cases (show a = pageRoundUp newsz by omega)
    exact (wp_pure _ _ _).2 (hok d k hI hA hw hx)
  | succ fuel ih =>
    intro a d k hloa ha hfuel hI hA hw hx Q hbad hok
    rw [allocFrom, wp_ite, wp_pure]
    refine ⟨fun hin => ?_, fun hout => ?_⟩
    · have hin' : a * 4096 < newsz := hin
      have hlt : a < pageRoundUp newsz := by omega
      have hapages : a < NPAGES := by
        show a < 1048576
        omega
      rw [wp_bind]
      refine calm_kalloc hA (fun hno m' hm' => ?_) fun hA' => ?_
      · -- what was mapped is given back
        dsimp only
        rw [wp_bind]
        refine calm_deallocuvm (hx.congr (fun _ => rfl) hm') hw (Nat.le_of_lt hlt) (by rw [htoNat]; omega)
          fun e m _ _ he hs hp => ?_
        rw [htoNat] at hp
        dsimp only
        rw [wp_pure]
        refine hbad a d k e m hlt hI hA hno he hs (fun y hy => ?_) hp
        rw [hp y hy]
        by_cases h₁ : pageRoundUp oldsz ≤ y
        · rw [if_pos h₁]
          exact ⟨(fun he => by cases he), fun h₂ => absurd h₂ (by omega)⟩
        · rw [if_neg h₁, hw y hy]
          omega
      · dsimp only
        rw [wp_bind]
        unfold mappages
        have hnone := hw.none hapages (Nat.le_refl a)
        obtain ⟨hsome, hnew⟩ := hstep a d k hI hlt hA'
        cases hd : d.table (Pgdir.pdx a) with
        | some pt =>
          dsimp only
          unfold pteAt at hnone
          rw [hd, Option.bind_some] at hnone
          rw [hnone]
          dsimp only
          rw [wp_pure]
          dsimp only
          refine ih (by omega) hlt (by omega) (hsome pt hd) hA' (hw.setPte hapages (Or.inl hd))
            ((hx.kalloc hA').congr (fun p => ?_) rfl) hbad hok
          have := Pgdir.uses_setPte (p := p) hd (some ⟨frame m k, true⟩)
          have hnone' : Pte.uses (pt.pte (Pgdir.ptx a)) p = 0 := by rw [hnone]; rfl
          have hsome' : Pte.uses (some ⟨frame m k, true⟩) p = one (frame m k) p := rfl
          omega
        | none =>
          dsimp only
          obtain ⟨hA₂, hI₂⟩ := hnew hd
          rw [wp_bind]
          refine calm_kalloc hA' (fun hno => absurd hA₂ hno) fun _ => ?_
          dsimp only
          rw [wp_pure]
          dsimp only
          refine ih (by omega) hlt (by omega) hI₂ hA₂ (hw.setPte hapages (Or.inr ⟨hd, fun _ => rfl⟩))
            (((hx.kalloc hA').kalloc hA₂).congr (fun p => ?_) rfl) hbad hok
          have := Pgdir.uses_newTable (p := p) hd (frame m (k + 1)) ⟨frame m k, true⟩
          dsimp only at this ⊢
          omega
    · have hout' : ¬a * 4096 < newsz := hout
      cases (show a = pageRoundUp newsz by omega)
      exact hok d k hI hA hw hx

/-! ## Growing -/

/-- The first virtual page from `a` on that needs the page table it is in, which is not there. -/
def Missing (d : Pgdir) (a y : Nat) : Prop := (d.table (Pgdir.pdx y)).isNone = true ∧ (y = a ∨ y % NPTENTRIES = 0)

instance (d : Pgdir) (a y : Nat) : Decidable (Missing d a y) := inferInstanceAs (Decidable (_ ∧ _))

/-- How many page tables the `n` pages from `a` on still need. -/
def missing (d : Pgdir) (a : Nat) : Nat → Nat
  | 0 => 0
  | n + 1 => missing d a n + if Missing d a (a + n) then 1 else 0

/-- How often `kalloc` is called for the `n` pages from `a` on. -/
def asks (d : Pgdir) (a n : Nat) : Nat := n + missing d a n

/-- Where there is a page for a virtual page that needs a page table, there is one for the page table. -/
def TablesGot (m : Kmem) (d : Pgdir) (a n : Nat) : Prop :=
  ∀ k < n, Missing d a (a + k) → Avail m (asks d a k + 1) → Avail m (asks d a k + 2)

theorem asks_succ_of_missing (h : Missing d a (a + n)) : asks d a (n + 1) = asks d a n + 2 := by
  unfold asks
  rw [missing, if_pos h]
  omega

theorem asks_succ_of_not_missing (h : ¬Missing d a (a + n)) : asks d a (n + 1) = asks d a n + 1 := by
  unfold asks
  rw [missing, if_neg h]
  omega

theorem asks_mono {j : Nat} (h : j ≤ n) : asks d a j ≤ asks d a n := by
  induction n, h using Nat.le_induction with
  | base => exact Nat.le_refl _
  | succ n _ ih =>
    unfold asks at ih ⊢
    rw [missing]
    omega

theorem missing_mono {j : Nat} (h : j ≤ n) : missing d a j ≤ missing d a n := by
  induction n, h using Nat.le_induction with
  | base => exact Nat.le_refl _
  | succ n _ ih =>
    rw [missing]
    omega

theorem isSome_setPte {x : Option Pte} (y : Nat) : ((d.setPte a pt x).table (Pgdir.pdx y)).isSome ↔
    Pgdir.pdx y = Pgdir.pdx a ∨ (d.table (Pgdir.pdx y)).isSome := by
  unfold Pgdir.setPte
  dsimp only
  by_cases h : Pgdir.pdx y = Pgdir.pdx a
  · rw [h, Function.update_self]
    exact ⟨fun _ => Or.inl rfl, fun _ => rfl⟩
  · rw [Function.update_of_ne h]
    exact ⟨Or.inr, fun h' => h'.resolve_left h⟩

/-- The page directory `e` in the loop of `allocuvm`, which started at `a` with `d` and got to `b`. -/
structure Growing (m : Kmem) (d : Pgdir) (a b : Nat) (e : Pgdir) (k : Nat) : Prop where
  le : a ≤ b
  asked : k = asks d a (b - a)
  tabled : ∀ y, y < 524288 →
    ((e.table (Pgdir.pdx y)).isSome ↔ (d.table (Pgdir.pdx y)).isSome ∨ ∃ z, a ≤ z ∧ z < b ∧ z / 1024 = y / 1024)
  same : missing d a (b - a) = 0 → SameTables d e
  old : ∀ y < a, pteAt e y = pteAt d y
  fresh : ∀ y, a ≤ y → y < b → ∃ x, pteAt e y = some x ∧ x.user = true ∧ x.page ∈ m.freelist

theorem Growing.start (m : Kmem) (d : Pgdir) (a : Nat) : Growing m d a a d 0 where
  le := Nat.le_refl a
  asked := by rw [Nat.sub_self]; rfl
  tabled y _ := ⟨Or.inl, fun h => h.elim id fun ⟨z, hz, hz', _⟩ => absurd hz' (Nat.not_lt.2 hz)⟩
  same _ := .refl d
  old _ _ := rfl
  fresh y hy hy' := absurd hy' (Nat.not_lt.2 hy)

/-- Where a page table is missing. -/
theorem Growing.missing_iff (h : Growing m d a b e k) (hb : b < 524288) : Missing d a b ↔ e.table (Pgdir.pdx b) = none := by
  have hle := h.le
  have ht := h.tabled b hb
  unfold Missing
  rw [Option.isNone_iff_eq_none]
  constructor
  · rintro ⟨hd, hfirst⟩
    cases he : e.table (Pgdir.pdx b) with
    | none => rfl
    | some pt =>
      rw [he, hd] at ht
      rcases ht.1 rfl with hs | ⟨z, hz, hz', hzb⟩
      · cases hs
      · exfalso
        have : b = a ∨ b % 1024 = 0 := hfirst
        omega
  · intro he
    rw [he] at ht
    have hno : ¬((d.table (Pgdir.pdx b)).isSome = true ∨ ∃ z, a ≤ z ∧ z < b ∧ z / 1024 = b / 1024) := fun h' =>
      Bool.noConfusion (ht.2 h')
    refine ⟨?_, ?_⟩
    · cases hd : d.table (Pgdir.pdx b) with
      | none => rfl
      | some pt => exact absurd (Or.inl (by rw [hd]; rfl)) hno
    · by_contra hc
      have hc' : ¬(b = a ∨ b % 1024 = 0) := hc
      exact hno (Or.inr ⟨b - 1, by omega, by omega, by omega⟩)

/-- One more page, in a page table that is there or in a new one. -/
theorem Growing.setPte (h : Growing m d a b e k) (hb : b < 524288)
    (hpt : e.table (Pgdir.pdx b) = some pt ∨ e.table (Pgdir.pdx b) = none ∧ ∀ j, pt.pte j = none) {x : Pte}
    (huser : x.user = true) (hfree : x.page ∈ m.freelist) {l : Nat}
    (hl : l = k + if e.table (Pgdir.pdx b) = none then 2 else 1) :
    Growing m d a (b + 1) (e.setPte b pt (some x)) l := by
  have hle := h.le
  have hsub : b + 1 - a = b - a + 1 := by omega
  have hback : a + (b - a) = b := by omega
  have hmiss := h.missing_iff hb
  have hset : ∀ y, y < 524288 → pteAt (e.setPte b pt (some x)) y = if y = b then some x else pteAt e y := fun y hy =>
    pteAt_setPte hpt (Nat.lt_of_lt_of_le hb (by decide)) (Nat.lt_of_lt_of_le hy (by decide))
  refine ⟨by omega, ?_, fun y hy => ?_, fun hno => ?_, fun y hy => ?_, fun y hy hyb => ?_⟩
  · rw [hsub, hl, h.asked]
    by_cases hnone : e.table (Pgdir.pdx b) = none
    · rw [if_pos hnone, asks_succ_of_missing (by rw [hback]; exact hmiss.2 hnone)]
    · rw [if_neg hnone, asks_succ_of_not_missing (by rw [hback]; exact fun hm => hnone (hmiss.1 hm))]
  · rw [isSome_setPte, h.tabled y hy, Load.pdx_eq_iff hy hb]
    constructor
    · rintro (heq | hs | ⟨z, hz, hz', hzy⟩)
      · exact Or.inr ⟨b, hle, Nat.lt_succ_self b, heq.symm⟩
      · exact Or.inl hs
      · exact Or.inr ⟨z, hz, Nat.lt_succ_of_lt hz', hzy⟩
    · rintro (hs | ⟨z, hz, hz', hzy⟩)
      · exact Or.inr (Or.inl hs)
      · by_cases hzb : z = b
        · exact Or.inl (by rw [← hzb, hzy])
        · exact Or.inr (Or.inr ⟨z, hz, by omega, hzy⟩)
  · -- no page table was missing, so this one was there
    rw [hsub, missing, hback] at hno
    have hthere : ¬Missing d a b := fun hm => by rw [if_pos hm] at hno; omega
    rw [if_neg hthere] at hno
    rcases hpt with hpt | ⟨hpt, -⟩
    · exact (h.same hno).trans (.setPte hpt)
    · exact absurd (hmiss.2 hpt) hthere
  · rw [hset y (by omega), if_neg (by omega)]
    exact h.old y hy
  · rw [hset y (by omega)]
    by_cases hyb' : y = b
    · rw [if_pos hyb']
      exact ⟨x, rfl, huser, hfree⟩
    · rw [if_neg hyb']
      exact h.fresh y hy (by omega)

/-- The loop of `allocuvm` for a process that grows. -/
theorem calm_grow {oldsz newsz : Size} (hle : (oldsz : Nat) ≤ newsz) (hw : Whole d (pageRoundUp oldsz))
    (hgot : TablesGot m d (pageRoundUp oldsz) (pageRoundUp newsz - pageRoundUp oldsz))
    (hx : Exact c (fun p => g p + d.uses p) m) {Q : Pgdir × Size → Kmem → Prop}
    (hbad : ∀ k e m', k < pageRoundUp newsz - pageRoundUp oldsz → Avail m (asks d (pageRoundUp oldsz) k) →
      ¬Avail m (asks d (pageRoundUp oldsz) k + 1) → Exact c (fun p => g p + e.uses p) m' → Whole e (pageRoundUp oldsz) →
      (missing d (pageRoundUp oldsz) k = 0 → e = d) → Q (e, 0) m')
    (hok : ∀ e, Whole e (pageRoundUp newsz) → (∀ y, pageRoundUp oldsz ≤ y → y < pageRoundUp newsz →
      ∃ x, pteAt e y = some x ∧ x.user = true ∧ x.page ∈ m.freelist) → ∀ m', Q (e, newsz) m') :
    Wp calm (allocFrom kernelEnd oldsz newsz (newsz / PGSIZE + 1) (pageRoundUp oldsz) d) Q (Load.after m 0) := by
  have hnewsz : (newsz : Nat) < 0x80000000 + 1 := newsz.isLt
  have hlo : pageRoundUp oldsz = ((oldsz : Nat) + 4096 - 1) / 4096 := rfl
  have hhi : pageRoundUp newsz = ((newsz : Nat) + 4096 - 1) / 4096 := rfl
  have hfuel : pageRoundUp newsz ≤ pageRoundUp oldsz + ((newsz : Nat) / PGSIZE + 1) := by
    show _ ≤ _ + ((newsz : Nat) / 4096 + 1)
    omega
  have hA₀ : Avail m 0 := ⟨Nat.zero_le _, fun i hi => absurd hi (Nat.not_lt_zero i)⟩
  refine calm_allocFrom (Growing m d (pageRoundUp oldsz)) oldsz newsz (fun b e k hI hb hA => ?_) _ (Nat.le_refl _)
    (by omega) hfuel (Growing.start m d _) hA₀ hw hx (fun b e k f m' hb hI hA hno hf hs hwf hp => ?_)
    fun e k hI _ hwe _ => hok e hwe hI.fresh _
  · have hb' : b < 524288 := by omega
    have hfree := Load.frame_mem hA
    refine ⟨fun pt hpt => hI.setPte hb' (Or.inl hpt) rfl hfree (by rw [hpt, if_neg nofun]), fun hnone => ?_⟩
    have hleb := hI.le
    have hback : pageRoundUp oldsz + (b - pageRoundUp oldsz) = b := by omega
    have hmiss := (hI.missing_iff hb').2 hnone
    have hasked := hI.asked
    have hA₂ := hgot (b - pageRoundUp oldsz) (by omega) (by rw [hback]; exact hmiss) (by rw [← hasked]; exact hA)
    rw [← hasked] at hA₂
    exact ⟨hA₂, hI.setPte hb' (Or.inr ⟨hnone, fun _ => rfl⟩) rfl hfree (by rw [if_pos hnone])⟩
  · have hleb := hI.le
    have hasked := hI.asked
    rw [hasked] at hA hno
    refine hbad (b - pageRoundUp oldsz) f m' (by omega) hA hno hf hwf fun hmiss => ?_
    refine ((hI.same hmiss).trans hs).eq fun y hy => ?_
    rw [hp y hy]
    by_cases h₁ : pageRoundUp oldsz ≤ y
    · rw [if_pos h₁]
      exact (hw.none hy h₁).symm
    · rw [if_neg h₁]
      exact hI.old y (Nat.lt_of_not_le h₁)

/-! ## A new address space -/

/-- There are page tables for the first `n` user pages, and no others below `KERNBASE`. -/
def Tabled (d : Pgdir) (n : Nat) : Prop := ∀ y, y < 524288 → ((d.table (Pgdir.pdx y)).isSome ↔ y < 1024 * tables n)

/-- One more page, in a page table that is there or in a new one. -/
theorem Tabled.setPte (h : Tabled d n) (hn : n < 524288) (pt : PageTable) (x : Option Pte) :
    Tabled (d.setPte n pt x) (n + 1) ∧
    ((d.table (Pgdir.pdx n)).isSome → calls (n + 1) = calls n + 1) ∧
    (d.table (Pgdir.pdx n) = none → n % 1024 = 0 ∧ calls (n + 1) = calls n + 2) := by
  have hhere := h n hn
  have htables : tables n = (n + 1023) / 1024 := rfl
  have htables' : tables (n + 1) = (n + 1 + 1023) / 1024 := rfl
  refine ⟨fun y hy => ?_, fun hs => ?_, fun hno => ?_⟩
  · rw [isSome_setPte, h y hy, Load.pdx_eq_iff hy hn]
    omega
  · have := hhere.1 hs
    unfold calls
    omega
  · rw [hno] at hhere
    have hge : ¬n < 1024 * tables n := fun hlt => Bool.noConfusion (hhere.2 hlt)
    refine ⟨by omega, ?_⟩
    unfold calls
    omega

theorem kmap_nodup : kmap.Nodup := by decide +kernel

/-- The loop of `setupkvm`, where it gets its pages. -/
theorem calm_mapKernel (is : List (Fin NPDENTRIES)) : ∀ {d : Pgdir} {k : Nat}, Avail m (k + is.length) → is.Nodup →
    (∀ i ∈ is, d.table i = none) → (∀ i pt, d.table i = some pt → ∀ j, pt.pte j = none) →
    Exact c (fun p => g p + d.uses p) (Load.after m k) → ∀ {Q : Option Pgdir → Kmem → Prop},
    (∀ e, (∀ i pt, e.table i = some pt → ∀ j, pt.pte j = none) → (∀ i, i ∉ is → e.table i = d.table i) →
      Exact c (fun p => g p + e.uses p) (Load.after m (k + is.length)) → Q (some e) (Load.after m (k + is.length))) →
    Wp calm (mapKernel d is) Q (Load.after m k) := by
  induction is with
  | nil =>
    intro d k _ _ _ hempty hx Q hQ
    exact (wp_pure _ _ _).2 (hQ d hempty (fun _ _ => rfl) hx)
  | cons i is ih =>
    intro d k hA hnd hfree hempty hx Q hQ
    have hlen : k + (i :: is).length = k + 1 + is.length := by
      rw [List.length_cons]
      omega
    rw [hlen] at hA hQ
    obtain ⟨hi, hnd⟩ := List.nodup_cons.1 hnd
    have hA' : Avail m (k + 1) := hA.mono (by omega)
    rw [mapKernel, wp_bind]
    refine calm_kalloc (hA.mono (by omega)) (fun hno => absurd hA' hno) fun _ => ?_
    dsimp only
    refine ih hA hnd (fun j hj => ?_) (fun j pt hj l => ?_) ((hx.kalloc hA').congr (fun p => ?_) rfl)
      fun e he hother hxe => hQ e he (fun j hj => ?_) hxe
    · have hji : j ≠ i := by
        rintro rfl
        exact hi hj
      dsimp only
      rw [Function.update_of_ne hji]
      exact hfree j (List.mem_cons_of_mem i hj)
    · by_cases hji : j = i
      · subst hji
        dsimp only at hj
        rw [Function.update_self] at hj
        cases hj
        rfl
      · dsimp only at hj
        rw [Function.update_of_ne hji] at hj
        exact hempty j pt hj l
    · have houter := sum_update (fun t => PageTable.uses t p) d.table i (some { page := frame m k, pte := fun _ => none })
      have hzero : ∑ _j : Fin NPTENTRIES, Pte.uses none p = 0 := Finset.sum_eq_zero fun _ _ => rfl
      have hnew : PageTable.uses (some { page := frame m k, pte := fun _ => none }) p = one (frame m k) p := by
        show one (frame m k) p + ∑ _j : Fin NPTENTRIES, Pte.uses none p = one (frame m k) p
        omega
      have hold : PageTable.uses (d.table i) p = 0 := by
        rw [hfree i (List.mem_cons_self ..)]
        rfl
      simp only [Pgdir.uses]
      omega
    · rw [hother j fun hj' => hj (List.mem_cons_of_mem i hj')]
      have hji : j ≠ i := by
        rintro rfl
        exact hj (List.mem_cons_self ..)
      dsimp only
      rw [Function.update_of_ne hji]

/-- **`setupkvm`** takes nothing or all it needs, where it does not fail in the middle. -/
theorem calm_setupkvm (hfit : Avail m 1 → Avail m (calls 0)) (hx : Exact c g m) {Q : Option Pgdir → Kmem → Prop}
    (hnone : ∀ m', m'.freelist = m.freelist → Q none m')
    (hsome : ∀ d, Avail m (calls 0) → Whole d 0 → Tabled d 0 → Exact c (fun p => g p + d.uses p) (Load.after m (calls 0)) →
      Q (some d) (Load.after m (calls 0))) : Wp calm setupkvm Q (Load.after m 0) := by
  have hcalls : calls 0 = 0 + 1 + kmap.length := by
    unfold calls tables
    omega
  have hA₀ : Avail m 0 := ⟨Nat.zero_le _, fun i hi => absurd hi (Nat.not_lt_zero i)⟩
  have hx₀ : Exact c g (Load.after m 0) := hx
  rw [hcalls] at hfit hsome
  rw [setupkvm, wp_bind]
  refine calm_kalloc hA₀ (fun _ m' hm' => (wp_pure _ _ _).2 (hnone m' hm')) fun hA => ?_
  dsimp only
  refine calm_mapKernel kmap (hfit hA) kmap_nodup (fun _ _ => rfl) (fun i pt hi => by cases hi)
    ((hx₀.kalloc hA).congr (fun p => ?_) rfl)
    fun e he hother hxe => hsome e (hfit hA) (fun y hy => ?_) (fun y hy => ?_) hxe
  · have : ∑ _i : Fin NPDENTRIES, PageTable.uses none p = 0 := Finset.sum_eq_zero fun _ _ => rfl
    show g p + (one (frame m 0) p + ∑ _i : Fin NPDENTRIES, PageTable.uses none p) = _
    omega
  · have hnone : pteAt e y = none := by
      unfold pteAt
      cases hd : e.table (Pgdir.pdx y) with
      | none => rfl
      | some pt => exact he _ pt hd _
    rw [hnone]
    exact ⟨(fun he => by cases he), fun hlt => absurd hlt (Nat.not_lt_zero y)⟩
  · rw [hother _ (Load.pdx_notMem_kmap hy)]
    exact ⟨(fun he => by cases he), fun hlt => absurd hlt (Nat.not_lt_zero y)⟩

/-- The loop of `copyuvm`. -/
theorem calm_copyFrom (d : Pgdir) (sz : Size) (hfit : TablesFit m 0 (pageRoundUp sz)) (fuel : Nat) : ∀ {a : Nat} {e : Pgdir},
    a ≤ pageRoundUp sz → pageRoundUp sz ≤ a + fuel → Tabled e a → Avail m (calls a) → Whole e a →
    Exact c (fun p => g p + e.uses p) (Load.after m (calls a)) → ∀ {Q : Option Pgdir → Kmem → Prop},
    (∀ m', Exact c g m' → Q none m') →
    (∀ e, Whole e (pageRoundUp sz) → ∀ m', Q (some e) m') →
    Wp calm (copyFrom kernelEnd d sz fuel a e) Q (Load.after m (calls a)) := by
  have hsz : (sz : Nat) < 0x80000000 + 1 := sz.isLt
  have hhi : pageRoundUp sz = (sz + 4096 - 1) / 4096 := rfl
  induction fuel with
  | zero =>
    intro a e ha hfuel _ _ hw _ Q _ hsome
    cases (show a = pageRoundUp sz by omega)
    exact (wp_pure _ _ _).2 (hsome e hw _)
  | succ fuel ih =>
    intro a e ha hfuel ht hA hw hx Q hnone hsome
    rw [copyFrom, wp_ite, wp_pure]
    refine ⟨fun hin => ?_, fun hout => ?_⟩
    · have hin' : a * 4096 < sz := hin
      have ha' : a < 524288 := by omega
      have hapages : a < NPAGES := by
        show a < 1048576
        omega
      cases (d.table (Pgdir.pdx a)).bind fun pt => pt.pte (Pgdir.ptx a) with
      | none => exact (wp_throw _ _ _).2 trivial
      | some x =>
        dsimp only
        rw [wp_bind]
        refine calm_kalloc hA (fun _ m' hm' => ?_) fun hA' => ?_
        · dsimp only
          rw [wp_bind]
          exact calm_freevm (hx.congr (fun _ => rfl) hm') hw (Nat.le_of_lt ha') fun m hm => (wp_pure _ _ _).2 (hnone m hm)
        · dsimp only
          rw [wp_bind]
          unfold mappages
          have hpte := hw.none hapages (Nat.le_refl a)
          cases hd : e.table (Pgdir.pdx a) with
          | some pt =>
            obtain ⟨ht', hcalls, -⟩ := ht.setPte ha' pt (some ⟨frame m (calls a), x.user⟩)
            have hc := hcalls (by rw [hd]; rfl)
            dsimp only
            unfold pteAt at hpte
            rw [hd, Option.bind_some] at hpte
            rw [hpte]
            dsimp only
            rw [wp_pure]
            dsimp only
            rw [if_pos rfl, ← hc]
            rw [← hc] at hA'
            refine ih (by omega) (by omega) ht' hA' (hw.setPte hapages (Or.inl hd)) ?_ hnone hsome
            rw [hc] at hA' ⊢
            refine (hx.kalloc hA').congr (fun p => ?_) rfl
            have := Pgdir.uses_setPte (p := p) hd (some ⟨frame m (calls a), x.user⟩)
            have hnone' : Pte.uses (pt.pte (Pgdir.ptx a)) p = 0 := by rw [hpte]; rfl
            have hsome' : Pte.uses (some ⟨frame m (calls a), x.user⟩) p = one (frame m (calls a)) p := rfl
            omega
          | none =>
            obtain ⟨ht', -, hcalls⟩ := ht.setPte ha' ⟨frame m (calls a + 1), fun _ => none⟩
              (some ⟨frame m (calls a), x.user⟩)
            obtain ⟨hmod, hc⟩ := hcalls hd
            have hdiv : 1024 * (a / 1024) = a := by omega
            have hA₂ := hfit (a / 1024) (Nat.zero_le _) (by omega)
            rw [hdiv] at hA₂
            have hA₂ := hA₂ hA'
            dsimp only
            rw [wp_bind]
            refine calm_kalloc hA' (fun hno => absurd hA₂ hno) fun _ => ?_
            dsimp only
            rw [wp_pure]
            dsimp only
            rw [if_pos rfl, show calls a + 1 + 1 = calls (a + 1) from hc.symm]
            refine ih (by omega) (by omega) ht' (by rw [hc]; exact hA₂) (hw.setPte hapages (Or.inr ⟨hd, fun _ => rfl⟩)) ?_
              hnone hsome
            rw [hc]
            refine ((hx.kalloc hA').kalloc hA₂).congr (fun p => ?_) rfl
            have := Pgdir.uses_newTable (p := p) hd (frame m (calls a + 1)) ⟨frame m (calls a), x.user⟩
            dsimp only at this ⊢
            omega
    · have hout' : ¬a * 4096 < sz := hout
      cases (show a = pageRoundUp sz by omega)
      exact hsome e hw _

/-- What a new address space of `n` user pages needs: `kalloc` does not fail for a page table once there is a page
directory. -/
def Fits (m : Kmem) (n : Nat) : Prop := (Avail m 1 → Avail m (calls 0)) ∧ TablesFit m 0 n

/-- **`copyuvm`** gives back what it took. -/
theorem calm_copyuvm (d : Pgdir) (sz : Size) (hfit : Fits m (pageRoundUp sz)) (hx : Exact c g m)
    {Q : Option Pgdir → Kmem → Prop} (hnone : ∀ m', Exact c g m' → Q none m')
    (hsome : ∀ e, Whole e (pageRoundUp sz) → ∀ m', Q (some e) m') : Wp calm (copyuvm kernelEnd d sz) Q m := by
  rw [copyuvm, wp_bind]
  refine calm_setupkvm (m := m) hfit.1 hx (fun m' hm' => (wp_pure _ _ _).2 (hnone m' (hx.congr (fun _ => rfl) hm')))
    fun e hA hw ht hxe => ?_
  have hfuel : pageRoundUp sz ≤ 0 + ((sz : Nat) / PGSIZE + 1) := by
    show ((sz : Nat) + 4096 - 1) / 4096 ≤ 0 + ((sz : Nat) / 4096 + 1)
    omega
  exact calm_copyFrom d sz hfit.2 _ (Nat.zero_le (pageRoundUp sz)) hfuel ht hA hw hxe hnone hsome

end

end NewXv6.Vm
