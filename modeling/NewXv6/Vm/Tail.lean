import NewXv6.Vm.Exact

/-!
# What `deallocuvm` frees (`vm.c`)

Where there is no page table the loop of `deallocuvm` goes on 1024 pages later, from wherever it is: a loop that does not
start at the first page of a page table comes to the next page table somewhere in the middle. The pages before that
(`Skipped`) stay mapped; all others are freed (`deallocuvm_tail`).
-/

namespace NewXv6.Vm

open Lib
open Load (Valid)

/-- The loop that starts at virtual page `a` passes over `y`: none of the page tables before that of `y` is there, and the
loop enters that of `y` after it. -/
def Skipped (d : Pgdir) (a y : Nat) : Prop :=
  y % NPTENTRIES < a % NPTENTRIES ∧
    ∀ t < y / NPTENTRIES, a / NPTENTRIES ≤ t → (d.table (Pgdir.pdx (t * NPTENTRIES))).isNone = true

instance (d : Pgdir) (a y : Nat) : Decidable (Skipped d a y) := inferInstanceAs (Decidable (_ ∧ _))

/-- The page that virtual page `y` is mapped to. -/
def pageAt (d : Pgdir) (y : Nat) : Option Page := (pteAt d y).map Pte.page

/-- The pages of the virtual pages from `a` to `b`, but for those that the loop passes over. -/
def reached (d : Pgdir) (a b : Nat) : List Page :=
  (List.range' a (b - a)).filterMap fun y => if Skipped d a y then none else pageAt d y

/-- The page an event gives to `kfree`. -/
def Event.freed : Event → Option Page
  | .kfree v _ => some v
  | .wild _ => none

/-- How the loop ends that starts at virtual page `a`: all pages it comes to are ones that `kfree` takes, and they are
freed, or one of them is not, and `kfree` panics. -/
def Emptied (kernelEnd : Page) (d : Pgdir) (a b : Nat) (m : Kmem) : Except Stop (Pgdir × Kmem) × List Event → Prop
  | (.ok (e, m'), w) =>
    (∀ p ∈ reached d a b, Valid kernelEnd p) ∧ w.filterMap Event.freed = reached d a b ∧
      m'.freelist = (reached d a b).reverse ++ m.freelist ∧ m'.fails = m.fails ∧ SameTables d e ∧
      ∀ y < NPAGES, pteAt e y = if (a ≤ y ∧ y < b) ∧ ¬Skipped d a y then none else pteAt d y
  | (.error _, _) => ∃ p ∈ reached d a b, ¬Valid kernelEnd p

section

variable {d e : Pgdir} {kernelEnd : Page} {a b y : Nat} {pt : PageTable} {m : Kmem}

/-! ## Pages that are passed over -/

theorem pageAt_absent (h : d.table (Pgdir.pdx a) = none) (hy : Pgdir.pdx y = Pgdir.pdx a) : pageAt d y = none := by
  unfold pageAt pteAt
  rw [hy, h]
  rfl

theorem pdx_congr (h : y / NPTENTRIES = a / NPTENTRIES) : Pgdir.pdx y = Pgdir.pdx a := by
  unfold Pgdir.pdx
  simp only [h]

theorem pdx_table (t : Nat) (h : t = a / NPTENTRIES) : Pgdir.pdx (t * NPTENTRIES) = Pgdir.pdx a :=
  pdx_congr (by rw [h]; exact Nat.mul_div_cancel _ (by decide))

/-- No page is passed over where the loop starts at the beginning of a page table. -/
theorem not_skipped_of_aligned (h : a % NPTENTRIES = 0) : ¬Skipped d a y := fun hs => by
  have := hs.1
  omega

/-- No page is passed over where the first page table is there. -/
theorem not_skipped_of_present (h : d.table (Pgdir.pdx a) ≠ none) (hay : a ≤ y) : ¬Skipped d a y := by
  rintro ⟨hlt, htables⟩
  have hmod : y % 1024 < a % 1024 := hlt
  refine h ?_
  have := htables (a / 1024) (show a / 1024 < y / 1024 by omega) (Nat.le_refl _)
  rw [pdx_table _ rfl] at this
  exact Option.isNone_iff_eq_none.1 this

/-- The loop goes on with the next page. -/
theorem not_skipped_succ (h : d.table (Pgdir.pdx a) ≠ none) (hay : a + 1 ≤ y) : ¬Skipped d (a + 1) y := by
  by_cases hmod : (a + 1) % NPTENTRIES = 0
  · exact not_skipped_of_aligned hmod
  · have hdiv : (a + 1) / NPTENTRIES = a / NPTENTRIES := by
      have : (a + 1) % 1024 ≠ 0 := hmod
      show (a + 1) / 1024 = a / 1024
      omega
    refine not_skipped_of_present ?_ hay
    rw [pdx_congr hdiv]
    exact h

/-- The loop goes on 1024 pages later. -/
theorem skipped_jump (h : d.table (Pgdir.pdx a) = none) (hay : a + NPTENTRIES ≤ y) :
    Skipped d (a + NPTENTRIES) y ↔ Skipped d a y := by
  have hay' : a + 1024 ≤ y := hay
  unfold Skipped
  rw [show (a + NPTENTRIES) % NPTENTRIES = a % NPTENTRIES from Nat.add_mod_right a 1024]
  refine and_congr_right fun _ => ⟨fun hs t ht hat => ?_, fun hs t ht hat => hs t ht ?_⟩
  · by_cases hta : t = a / NPTENTRIES
    · rw [pdx_table t hta, h]
      rfl
    · refine hs t ht ?_
      have : a / 1024 ≤ t := hat
      have : t ≠ a / 1024 := hta
      show (a + 1024) / 1024 ≤ t
      omega
  · have : (a + 1024) / 1024 ≤ t := hat
    show a / 1024 ≤ t
    omega

/-- What the jump passes over is not mapped, or it is in the next page table. -/
theorem jumped (h : d.table (Pgdir.pdx a) = none) (hay : a ≤ y) (hy : y < a + NPTENTRIES) :
    Skipped d a y ∨ pageAt d y = none := by
  have hy' : y < a + 1024 := hy
  by_cases hdiv : y / NPTENTRIES = a / NPTENTRIES
  · exact Or.inr (pageAt_absent h (pdx_congr hdiv))
  · have hdiv' : y / 1024 ≠ a / 1024 := hdiv
    refine Or.inl ⟨show y % 1024 < a % 1024 by omega, fun t ht hat => ?_⟩
    have ht' : t < y / 1024 := ht
    have hat' : a / 1024 ≤ t := hat
    rw [pdx_table t (show t = a / 1024 by omega), h]
    rfl

theorem skipped_congr (h : SameTables d e) : Skipped e a y ↔ Skipped d a y := by
  unfold Skipped
  refine and_congr_right fun _ => forall_congr' fun t => forall_congr' fun _ => forall_congr' fun _ => ?_
  have := h.isSome (Pgdir.pdx (t * NPTENTRIES))
  rw [Option.isNone_iff_eq_none, Option.isNone_iff_eq_none, ← Option.not_isSome_iff_eq_none,
    ← Option.not_isSome_iff_eq_none, this]

/-! ## Pages that are freed -/

theorem reached_of_le (h : b ≤ a) : reached d a b = [] := by
  unfold reached
  rw [Nat.sub_eq_zero_of_le h]
  rfl

theorem reached_jump (h : d.table (Pgdir.pdx a) = none) : reached d a b = reached d (a + NPTENTRIES) b := by
  have hnone : ∀ k, k ≤ NPTENTRIES → (List.range' a k).filterMap
      (fun y => if Skipped d a y then none else pageAt d y) = [] := by
    intro k hk
    rw [List.filterMap_eq_nil_iff]
    intro y hy
    rw [List.mem_range'_1] at hy
    rcases jumped (y := y) h hy.1 (by omega) with hs | hp
    · rw [if_pos hs]
    · rw [hp, ite_self]
  unfold reached
  by_cases hab : b - a ≤ NPTENTRIES
  · rw [hnone _ hab, Nat.sub_eq_zero_of_le (by omega)]
    rfl
  · rw [show b - a = NPTENTRIES + (b - (a + NPTENTRIES)) by omega, ← List.range'_append_1, List.filterMap_append,
      hnone _ (Nat.le_refl _), List.nil_append]
    refine List.filterMap_congr fun y hy => ?_
    rw [List.mem_range'_1] at hy
    simp only [skipped_jump h hy.1]

theorem reached_cons (h : d.table (Pgdir.pdx a) ≠ none) (hab : a < b) :
    reached d a b = (pageAt d a).toList ++ reached d (a + 1) b := by
  unfold reached
  rw [show b - a = (b - (a + 1)) + 1 by omega, List.range'_succ, List.filterMap_cons,
    if_neg (not_skipped_of_present h (Nat.le_refl a))]
  have htail : (List.range' (a + 1) (b - (a + 1))).filterMap (fun y => if Skipped d a y then none else pageAt d y) =
      (List.range' (a + 1) (b - (a + 1))).filterMap (fun y => if Skipped d (a + 1) y then none else pageAt d y) := by
    refine List.filterMap_congr fun y hy => ?_
    rw [List.mem_range'_1] at hy
    rw [if_neg (not_skipped_of_present h (by omega)), if_neg (not_skipped_succ h hy.1)]
  rw [htail]
  cases pageAt d a with
  | none => rfl
  | some p => rfl

theorem reached_setPte (hpt : d.table (Pgdir.pdx a) = some pt) (ha : a < NPAGES) (hb : b ≤ NPAGES) :
    reached (d.setPte a pt none) (a + 1) b = reached d (a + 1) b := by
  unfold reached
  refine List.filterMap_congr fun y hy => ?_
  rw [List.mem_range'_1] at hy
  have hpage : pageAt (d.setPte a pt none) y = pageAt d y := by
    unfold pageAt
    rw [pteAt_setPte (Or.inl hpt) ha (by omega), if_neg (by omega)]
  simp only [skipped_congr (SameTables.setPte hpt), hpage]

/-! ## The loop -/

theorem kfree_not_valid {v : Page} (h : ¬Valid kernelEnd v) (h0 : v ≠ 0) (m : Kmem) :
    kfree kernelEnd v m = (.error .kfree, [.kfree v m.freelist]) := by
  unfold kfree
  have hbad : v < kernelEnd ∨ PHYSTOP / PGSIZE ≤ v := by
    by_contra hc
    obtain ⟨hlo, hhi⟩ := not_or.1 hc
    exact h ⟨Nat.not_lt.1 hlo, Nat.not_le.1 hhi, h0⟩
  rw [Prog.run_bind_ok (Prog.run_get m), Prog.run_bind_ok (Prog.run_emit _ m), if_pos hbad]
  rfl

/-- What a page that is not mapped, or not looked at, has to do with the rest of the loop. -/
theorem Emptied.next {r : Except Stop (Pgdir × Kmem) × List Event} {a' : Nat} (h : Emptied kernelEnd d a' b m r)
    (hreached : reached d a b = reached d a' b) (hlt : a < a') (hsame : ∀ y, a' ≤ y → (Skipped d a' y ↔ Skipped d a y))
    (hnone : ∀ y, a ≤ y → y < a' → Skipped d a y ∨ pageAt d y = none) : Emptied kernelEnd d a b m r := by
  obtain ⟨_ | ⟨e, m'⟩, w⟩ := r
  · obtain ⟨p, hp, hbad⟩ := h
    exact ⟨p, hreached ▸ hp, hbad⟩
  · obtain ⟨hvalid, hw, hfree, hfails, hs, hpte⟩ := h
    rw [← hreached] at hvalid hw hfree
    refine ⟨hvalid, hw, hfree, hfails, hs, fun y hy => ?_⟩
    rw [hpte y hy]
    by_cases hay : a' ≤ y
    · simp only [hsame y hay, hay, Nat.le_of_lt (Nat.lt_of_lt_of_le hlt hay)]
    · rw [if_neg (fun hc => hay hc.1.1)]
      split
      · next hc =>
        rcases hnone y hc.1.1 (Nat.not_le.1 hay) with hsk | hp
        · exact absurd hsk hc.2
        · exact Option.map_eq_none_iff.1 hp
      · rfl

/-- **The loop of `deallocuvm`** ends as it should with the pages it comes to. -/
theorem deallocFrom_tail (oldsz : Size) (fuel : Nat) : ∀ (a : Nat) (d : Pgdir) (m : Kmem), pageRoundUp oldsz ≤ a + fuel →
    Emptied kernelEnd d a (pageRoundUp oldsz) m (deallocFrom kernelEnd oldsz fuel a d m) := by
  have holdsz : (oldsz : Nat) < 0x80000000 + 1 := oldsz.isLt
  have hround : pageRoundUp oldsz = ((oldsz : Nat) + 4096 - 1) / 4096 := rfl
  have hpages : pageRoundUp oldsz ≤ NPAGES := by
    show pageRoundUp oldsz ≤ 1048576
    omega
  -- the loop is over
  have hend : ∀ (a : Nat) (d : Pgdir) (m : Kmem), pageRoundUp oldsz ≤ a →
      Emptied kernelEnd d a (pageRoundUp oldsz) m (.ok (d, m), []) := by
    intro a d m ha
    refine ⟨?_, ?_, ?_, rfl, .refl d, fun y _ => ?_⟩
    · rw [reached_of_le ha]
      exact fun _ hp => by cases hp
    · rw [reached_of_le ha]
      rfl
    · rw [reached_of_le ha]
      rfl
    · rw [if_neg fun hc => by omega]
  induction fuel with
  | zero =>
    intro a d m ha
    exact hend a d m ha
  | succ fuel ih =>
    intro a d m hfuel
    rw [deallocFrom]
    split
    · next hin =>
      have hin' : a * 4096 < oldsz := hin
      have hlt : a < pageRoundUp oldsz := by omega
      cases hd : d.table (Pgdir.pdx a) with
      | none =>
        have h1024 : NPTENTRIES = 1024 := rfl
        exact (ih (a + NPTENTRIES) d m (by omega)).next (reached_jump hd) (by omega) (fun y hy => skipped_jump hd hy)
          fun y => jumped hd
      | some pt =>
        have hne : d.table (Pgdir.pdx a) ≠ none := by
          rw [hd]
          exact fun he => by cases he
        have hcons := reached_cons hne hlt
        dsimp only
        cases hpt : pt.pte (Pgdir.ptx a) with
        | none =>
          have hp : pageAt d a = none := by
            unfold pageAt pteAt
            rw [hd, Option.bind_some, hpt]
            rfl
          rw [hp] at hcons
          refine (ih (a + 1) d m (by omega)).next hcons (Nat.lt_succ_self a) (fun y hy => ?_) fun y hy hy' => Or.inr ?_
          · exact iff_of_false (not_skipped_succ hne hy) (not_skipped_of_present hne (by omega))
          · rw [show y = a by omega]
            exact hp
        | some x =>
          have hp : pageAt d a = some x.page := by
            unfold pageAt pteAt
            rw [hd, Option.bind_some, hpt]
            rfl
          rw [hp, Option.toList_some, List.singleton_append] at hcons
          dsimp only
          split
          · next h0 =>
            exact ⟨x.page, hcons ▸ List.mem_cons_self, fun hv => hv.2.2 h0⟩
          · next h0 =>
            by_cases hv : Valid kernelEnd x.page
            · rw [Prog.run_bind_ok (kfree_run ⟨hv.1, hv.2.1⟩)]
              have hrest := ih (a + 1) (d.setPte a pt none) { m with freelist := x.page :: m.freelist } (by omega)
              have hapages : a < NPAGES := Nat.lt_of_lt_of_le hlt hpages
              revert hrest
              rcases deallocFrom kernelEnd oldsz fuel (a + 1) (d.setPte a pt none)
                { m with freelist := x.page :: m.freelist } with ⟨_ | ⟨e, m'⟩, w⟩
              · rintro ⟨p, hp, hbad⟩
                rw [reached_setPte hd hapages hpages] at hp
                exact ⟨p, hcons ▸ List.mem_cons_of_mem _ hp, hbad⟩
              · rintro ⟨hvalid, hw, hfree, hfails, hs, hpte⟩
                rw [reached_setPte hd hapages hpages] at hvalid hw hfree
                refine ⟨?_, ?_, ?_, hfails, (SameTables.setPte hd).trans hs, fun y hy => ?_⟩
                · rw [hcons]
                  exact List.forall_mem_cons.2 ⟨hv, hvalid⟩
                · rw [hcons, ← hw]
                  rfl
                · rw [hcons, hfree, List.reverse_cons, List.append_assoc]
                  rfl
                · rw [hpte y hy, pteAt_setPte (Or.inl hd) hapages hy]
                  simp only [skipped_congr (SameTables.setPte hd)]
                  by_cases hya : y = a
                  · subst hya
                    rw [if_neg (by omega), if_pos rfl, if_pos ⟨⟨Nat.le_refl _, hlt⟩,
                      not_skipped_of_present hne (Nat.le_refl _)⟩]
                  · rw [if_neg hya]
                    by_cases hay : a + 1 ≤ y
                    · simp only [not_skipped_succ hne hay, not_skipped_of_present hne (Nat.le_of_succ_le hay), hay,
                        Nat.le_of_succ_le hay]
                    · rw [if_neg (by omega), if_neg (by omega)]
            · rw [Prog.run_bind_error (kfree_not_valid hv h0 m)]
              exact ⟨x.page, hcons ▸ List.mem_cons_self, hv⟩
    · next hout =>
      have hout' : ¬a * 4096 < oldsz := hout
      exact hend a d m (by omega)

/-! ## `deallocuvm` -/

/-- The run of the loop in that of `deallocuvm`. -/
theorem deallocuvm_tail (kernelEnd : Page) (d : Pgdir) (m : Kmem) {oldsz : Size} {newsz : UInt32} (h : newsz.toNat < (oldsz : Nat)) :
    ∃ r, Emptied kernelEnd d (pageRoundUp newsz.toNat) (pageRoundUp oldsz) m r ∧
      ∃ sz : Size, (sz : Nat) = newsz.toNat ∧ deallocuvm kernelEnd d oldsz newsz m = match r with
        | (.ok (e, m'), w) => (.ok ((e, sz), m'), w)
        | (.error stop, w) => (.error stop, w) := by
  refine ⟨_, deallocFrom_tail oldsz ((oldsz : Nat) / PGSIZE + 1) _ d m ?_, ⟨newsz.toNat, by have := oldsz.isLt; omega⟩, rfl, ?_⟩
  · show ((oldsz : Nat) + 4096 - 1) / 4096 ≤ (newsz.toNat + 4096 - 1) / 4096 + ((oldsz : Nat) / 4096 + 1)
    omega
  · rw [deallocuvm, dif_neg (Nat.not_le.2 h)]
    rcases hr : deallocFrom kernelEnd oldsz ((oldsz : Nat) / PGSIZE + 1) (pageRoundUp newsz.toNat) d m with ⟨_ | ⟨e, m'⟩, w⟩
    · rw [Prog.run_bind_error hr]
    · rw [Prog.run_bind_ok hr, Prog.run_pure, List.append_nil]

/-- The tail is freed exactly: no page of it is mapped, each page that was mapped there was given to `kfree`, and every
other PTE is as it was. -/
def FreesTail (kernelEnd : Page) (d : Pgdir) (oldsz : Size) (newsz : UInt32) (m : Kmem) : Prop :=
  ∃ e sz m' w, deallocuvm kernelEnd d oldsz newsz m = (.ok ((e, sz), m'), w) ∧
    w.filterMap Event.freed =
      (List.range' (pageRoundUp newsz.toNat) (pageRoundUp oldsz - pageRoundUp newsz.toNat)).filterMap (pageAt d) ∧
    ∀ y < NPAGES, pteAt e y = if pageRoundUp newsz.toNat ≤ y ∧ y < pageRoundUp oldsz then none else pteAt d y

theorem mem_reached {p : Page} : p ∈ reached d a b ↔ ∃ y, a ≤ y ∧ y < b ∧ ¬Skipped d a y ∧ pageAt d y = some p := by
  unfold reached
  rw [List.mem_filterMap]
  constructor
  · rintro ⟨y, hy, hp⟩
    rw [List.mem_range'_1] at hy
    split at hp
    · cases hp
    · next hs => exact ⟨y, hy.1, by omega, hs, hp⟩
  · rintro ⟨y, hay, hyb, hs, hp⟩
    exact ⟨y, List.mem_range'_1.2 ⟨hay, by omega⟩, by rw [if_neg hs]; exact hp⟩

/-- **What `deallocuvm` frees.** It frees exactly the tail if `kfree` takes the pages that are mapped there and the loop
passes over none of them. -/
theorem deallocuvm_freesTail (kernelEnd : Page) (d : Pgdir) (m : Kmem) (oldsz : Size) (newsz : UInt32)
    (h : newsz.toNat < (oldsz : Nat)) : FreesTail kernelEnd d oldsz newsz m ↔
      ∀ y p, pageRoundUp newsz.toNat ≤ y → y < pageRoundUp oldsz → pageAt d y = some p →
        Valid kernelEnd p ∧ ¬Skipped d (pageRoundUp newsz.toNat) y := by
  have holdsz : (oldsz : Nat) < 0x80000000 + 1 := oldsz.isLt
  have hround : pageRoundUp oldsz = ((oldsz : Nat) + 4096 - 1) / 4096 := rfl
  obtain ⟨r, hr, sz, -, hrun⟩ := deallocuvm_tail kernelEnd d m h
  constructor
  · rintro ⟨e, sz', m', w, hok, -, hpte⟩ y p hlo hhi hp
    obtain ⟨_ | ⟨e', m''⟩, w'⟩ := r
    · rw [hrun] at hok
      cases hok
    · rw [hrun] at hok
      cases hok
      obtain ⟨hvalid, -, -, -, -, hpte'⟩ := hr
      have hy : y < NPAGES := by
        show y < 1048576
        omega
      have hs : ¬Skipped d (pageRoundUp newsz.toNat) y := by
        intro hs
        have hgone := (hpte' y hy).symm.trans (hpte y hy)
        rw [if_pos (show pageRoundUp newsz.toNat ≤ y ∧ y < pageRoundUp oldsz from ⟨hlo, hhi⟩),
          if_neg fun hc => hc.2 hs] at hgone
        unfold pageAt at hp
        rw [hgone] at hp
        cases hp
      exact ⟨hvalid p (mem_reached.2 ⟨y, hlo, hhi, hs, hp⟩), hs⟩
  · intro hcond
    obtain ⟨_ | ⟨e, m'⟩, w⟩ := r
    · obtain ⟨p, hp, hbad⟩ := hr
      obtain ⟨y, hlo, hhi, -, hp⟩ := mem_reached.1 hp
      exact absurd (hcond y p hlo hhi hp).1 hbad
    · obtain ⟨-, hw, -, -, -, hpte⟩ := hr
      refine ⟨e, sz, m', w, hrun, ?_, fun y hy => ?_⟩
      · rw [hw]
        refine List.filterMap_congr fun y hy => ?_
        rw [List.mem_range'_1] at hy
        split
        · next hs =>
          cases hp : pageAt d y with
          | none => rfl
          | some p => exact absurd hs (hcond y p hy.1 (by omega) hp).2
        · rfl
      · rw [hpte y hy]
        by_cases hin : pageRoundUp newsz.toNat ≤ y ∧ y < pageRoundUp oldsz
        · rw [if_pos hin]
          split
          · rfl
          · next hc =>
            cases hp : pteAt d y with
            | none => rfl
            | some x =>
              have := (hcond y x.page hin.1 hin.2 (by unfold pageAt; rw [hp]; rfl)).2
              exact absurd ⟨hin, this⟩ hc
        · rw [if_neg hin, if_neg fun hc => hin hc.1]

end

/-- One user page is mapped, at the start of the second page table. -/
def secondTable : Pgdir where
  dir := 1025
  table i := if i = 1 then some { page := 1026, pte := fun j => if j = 0 then some ⟨1027, true⟩ else none } else none

theorem secondTable_valid (y : Nat) (p : Page) (hp : pageAt secondTable y = some p) : Valid 1024 p := by
  unfold pageAt pteAt secondTable at hp
  dsimp only at hp
  split at hp
  · rw [Option.bind_some] at hp
    dsimp only at hp
    split at hp
    · cases hp
      exact ⟨by decide, by decide, by decide⟩
    · cases hp
  · cases hp

theorem deallocuvm_freesTail_all : FreesTail 1024 secondTable (Fin.last KERNBASE) 0 ⟨[], fun _ => false⟩ := by
  refine (deallocuvm_freesTail 1024 secondTable _ (Fin.last KERNBASE) 0 ?_).2 fun y p _ _ hp =>
    ⟨secondTable_valid y p hp, not_skipped_of_aligned rfl⟩
  rw [Fin.val_last, UInt32.toNat_zero]
  exact Nat.two_pow_pos 31

/-- From the second page on, the first page of the second page table is passed over. -/
theorem not_freesTail : ¬∀ (kernelEnd : Page) (d : Pgdir) (m : Kmem) (oldsz : Size) (newsz : UInt32),
    newsz.toNat < (oldsz : Nat) → (∀ y p, pageAt d y = some p → Valid kernelEnd p) →
      FreesTail kernelEnd d oldsz newsz m := by
  intro h
  have hlt : (4096 : UInt32).toNat < ((⟨4198400, by decide⟩ : Size) : Nat) := by decide
  obtain ⟨e, sz', m', w, hok, -, hpte⟩ := h 1024 secondTable ⟨[], fun _ => false⟩ ⟨4198400, by decide⟩ 4096 hlt
    secondTable_valid
  obtain ⟨r, hr, sz, -, hrun⟩ := deallocuvm_tail 1024 secondTable ⟨[], fun _ => false⟩ hlt
  rw [hrun] at hok
  obtain ⟨_ | ⟨e', m''⟩, w'⟩ := r
  · cases hok
  · cases hok
    obtain ⟨-, -, -, -, -, hpte'⟩ := hr
    have hgone := (hpte' 1024 (by decide)).symm.trans (hpte 1024 (by decide))
    rw [if_neg fun hc => hc.2 (by decide), if_pos (by decide)] at hgone
    cases hgone

end NewXv6.Vm
