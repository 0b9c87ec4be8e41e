import NewXv6.Vm.Tail
import NewXv6.Vm.Undo
import NewXv6.Vm.Copyout

/-!
# What `sbrk` leaves (`proc.c`, `vm.c`)

`growproc` with the contents of pages, whatever `kalloc` does. `allocuvm` stops at the first page it does not get and takes
back the others, but it goes on where it does not get a page table (`filled` says which it is), and clears only the pages
that are new. `deallocuvm` takes a size that wrapped around for one that is larger, and 0 is its size as well as an error.
-/

namespace NewXv6.Vm

open Lib

/-- `kalloc` as a function. -/
def Kmem.take (m : Kmem) : Option Page × Kmem :=
  match if m.fails 0 then [] else m.freelist with
  | [] => (none, { m with fails := fun n => m.fails (n + 1) })
  | r :: rest => (some r, { freelist := rest, fails := fun n => m.fails (n + 1) })

/-- What `kalloc` has for the `n` virtual pages from `a` on, when the page tables of `there` are there: `none` if it fails for
one of the pages, and else whether it has all the page tables. -/
def filled (there : Fin NPDENTRIES → Bool) (m : Kmem) (a : Nat) : Nat → Option Bool
  | 0 => some true
  | n + 1 =>
    match m.take with
    | (none, _) => none
    | (some _, m) =>
      if there (Pgdir.pdx a) then filled there m (a + 1) n
      else match m.take with
        | (some _, m) => filled (Function.update there (Pgdir.pdx a) true) m (a + 1) n
        | (none, m) => (filled there m (a + 1) n).map fun _ => false

/-- Which page tables are there. -/
def Pgdir.there (d : Pgdir) : Fin NPDENTRIES → Bool := fun i => (d.table i).isSome

namespace Load

section

variable (kernelEnd : Page)

/-- Grow current process's memory by n bytes: whether 0 is returned. -/
def growproc (n : Int32) : Code Bool := do
  let w ← Prog.get
  let newsz := UInt32.ofNat w.caller.sz + n.toUInt32
  if n = 0 then return true
  else do
    let (pgdir, sz) ← (if 0 < n then allocuvm kernelEnd w.caller.pgdir w.caller.sz newsz
      else liftM (deallocuvm kernelEnd w.caller.pgdir w.caller.sz newsz) : Code (Pgdir × Size))
    Prog.modify fun w => { w with caller := { w.caller with pgdir, sz := if sz = 0 then w.caller.sz else sz } }
    return sz ≠ 0

end

/-- The byte at virtual address `x`. -/
def byteAt (d : Pgdir) (mem : Mem) (x : Nat) : Option UInt8 := (pteAt d (x / PGSIZE)).map fun q => mem q.page (x % PGSIZE)

/-- The pages of the process up to its size are mapped, and no others; they and those on the free list can be freed, and none
of them is on the free list. -/
structure Fitted (kernelEnd : Page) (w : World) : Prop where
  whole : Vm.Whole w.caller.pgdir (pageRoundUp w.caller.sz)
  sound : Sound kernelEnd w.caller.pgdir
  free : ∀ p ∈ w.kmem.freelist, Valid kernelEnd p
  apart : ∀ y q, pteAt w.caller.pgdir y = some q → q.page ∉ w.kmem.freelist

/-- The process has the new size, its pages are mapped and no others, what it had is as it was and the rest is zero. -/
structure Resized (w : World) (n : Int32) (w' : World) : Prop where
  size : (w'.caller.sz : Int) = w.caller.sz + n.toInt
  whole : Vm.Whole w'.caller.pgdir (pageRoundUp w'.caller.sz)
  old : ∀ x, x < (w.caller.sz : Nat) → x < (w'.caller.sz : Nat) →
    byteAt w'.caller.pgdir w'.mem x = byteAt w.caller.pgdir w.mem x
  zero : ∀ x, (w.caller.sz : Nat) ≤ x → x < (w'.caller.sz : Nat) → byteAt w'.caller.pgdir w'.mem x = some 0

/-- The size and the user pages are as they were. -/
structure Untouched (w w' : World) : Prop where
  size : w'.caller.sz = w.caller.sz
  pte : ∀ y < NPAGES, pteAt w'.caller.pgdir y = pteAt w.caller.pgdir y
  mem : ∀ y q, pteAt w.caller.pgdir y = some q → w'.mem q.page = w.mem q.page

/-- `growproc` is all or nothing. -/
def AllOrNothing (kernelEnd : Page) (w : World) (n : Int32) : Prop :=
  ∃ ok w' t, growproc kernelEnd n w = (.ok (ok, w'), t) ∧ if ok then Resized w n w' else Untouched w w'

/-- What `kalloc` has for the process to grow by `n`. -/
def filledFor (w : World) (n : Int32) : Option Bool :=
  filled w.caller.pgdir.there w.kmem (pageRoundUp w.caller.sz)
    (pageRoundUp (UInt32.ofNat w.caller.sz + n.toUInt32).toNat - pageRoundUp w.caller.sz)

/-- Something is left of a process that shrinks, or it had nothing; a process that grows gets every page table, or it does not
get a page; and if it gets all, the rest of its last page is zero. -/
def Grows (w : World) (n : Int32) : Prop :=
  (n < 0 → (w.caller.sz : Nat) = 0 ∨ 0 < (w.caller.sz : Int) + n.toInt) ∧
  (0 < n → (w.caller.sz : Int) + n.toInt < KERNBASE → filledFor w n ≠ some false ∧
    (filledFor w n = some true → ∀ x : Nat, (w.caller.sz : Nat) ≤ x → (x : Int) < w.caller.sz + n.toInt →
      x < pageRoundUp w.caller.sz * PGSIZE → byteAt w.caller.pgdir w.mem x = some 0))

end Load

/-- A run does not panic. -/
def sure : Contract Stop Event where
  assume _ := True
  ensure _ := True
  fail _ := False

section

variable {m m₀ : Kmem} {d e : Pgdir} {kernelEnd : Page} {a b lo : Nat} {pt : PageTable}

theorem run_of_sure {σ α : Type} {f : Prog σ Stop Event α} {Q : α → σ → Prop} {s : σ} (h : Wp sure f Q s) :
    ∃ a t w, f s = (.ok (a, t), w) ∧ Q a t := by
  have hends := h.2 fun _ _ => trivial
  rcases hf : f s with ⟨stop | ⟨a, t⟩, w⟩
  · rw [hf] at hends
    exact hends.elim
  · rw [hf] at hends
    exact ⟨a, t, w, rfl, hends⟩

theorem sure_of_run {σ α : Type} {f : Prog σ Stop Event α} {Q : α → σ → Prop} {s t : σ} {a : α} {w : List Event}
    (h : f s = (.ok (a, t), w)) (hQ : Q a t) : Wp sure f Q s := wp_of_run h (fun _ _ => trivial) hQ

/-! ## `kalloc` -/

theorem sure_kalloc {Q : Option Page → Kmem → Prop} (h : Q m.take.1 m.take.2) : Wp sure kalloc Q m := by
  rw [kalloc, wp_bind, wp_get, wp_bind, wp_modify]
  unfold Kmem.take at h
  revert h
  generalize (if m.fails 0 = true then [] else m.freelist) = l
  intro h
  cases l with
  | nil => exact (wp_pure _ _ _).2 h
  | cons r rest =>
    rw [wp_bind, wp_modify]
    exact (wp_pure _ _ _).2 h

theorem take_sub {p : Page} (h : p ∈ m.take.2.freelist) : p ∈ m.freelist := by
  unfold Kmem.take at h
  split at h
  · exact h
  · next r rest hl =>
    split at hl
    · cases hl
    · rw [hl]
      exact List.mem_cons_of_mem r h

theorem take_mem {p : Page} (h : m.take.1 = some p) : p ∈ m.freelist := by
  unfold Kmem.take at h
  split at h
  · cases h
  · next r rest hl =>
    split at hl
    · cases hl
    · rw [hl]
      cases h
      exact List.mem_cons_self

/-! ## The loop of `allocuvm` -/

/-- The page directory `e` in the loop of `allocuvm`, which started at `lo` with `d` and got to `a`. -/
structure Extends (kernelEnd : Page) (m₀ : Kmem) (d : Pgdir) (lo a : Nat) (e : Pgdir) (m : Kmem) : Prop where
  old : ∀ y < lo, pteAt e y = pteAt d y
  above : ∀ y, a ≤ y → y < NPAGES → pteAt e y = none
  fresh : ∀ y, lo ≤ y → y < NPAGES → ∀ q, pteAt e y = some q → q.page ∈ m₀.freelist
  sound : Load.Sound kernelEnd e
  free : ∀ p ∈ m.freelist, p ∈ m₀.freelist
  first : lo % NPTENTRIES = 0 ∨ e.table (Pgdir.pdx lo) ≠ none

theorem Extends.later (h : Extends kernelEnd m₀ d lo a e m) {m' : Kmem} (hm : ∀ p ∈ m'.freelist, p ∈ m.freelist) :
    Extends kernelEnd m₀ d lo a e m' := { h with free := fun p hp => h.free p (hm p hp) }

/-- The page is lost. -/
theorem Extends.skip (h : Extends kernelEnd m₀ d lo a e m) : Extends kernelEnd m₀ d lo (a + 1) e m :=
  { h with above := fun y hy hlt => h.above y (by omega) hlt }

/-- The page is mapped. -/
theorem Extends.setPte (hfree : ∀ p ∈ m₀.freelist, Load.Valid kernelEnd p) (h : Extends kernelEnd m₀ d lo a e m) (hlo : lo ≤ a) (ha : a < NPAGES)
    (hpt : e.table (Pgdir.pdx a) = some pt ∨ e.table (Pgdir.pdx a) = none ∧ ∀ j, pt.pte j = none)
    (hpage : pt.page ∈ m₀.freelist ∨ e.table (Pgdir.pdx a) = some pt) {q : Pte} (hq : q.page ∈ m₀.freelist) :
    Extends kernelEnd m₀ d lo (a + 1) (e.setPte a pt (some q)) m := by
  have hset : ∀ y < NPAGES, pteAt (e.setPte a pt (some q)) y = if y = a then some q else pteAt e y := fun y hy =>
    pteAt_setPte hpt ha hy
  refine ⟨fun y hy => ?_, fun y hy hlt => ?_, fun y hy hlt r hr => ?_, ?_, h.free, h.first.imp_right fun hs => ?_⟩
  · rw [hset y (by omega), if_neg (by omega)]
    exact h.old y hy
  · rw [hset y hlt, if_neg (by omega)]
    exact h.above y (by omega) hlt
  · rw [hset y hlt] at hr
    split at hr
    · cases hr
      exact hq
    · exact h.fresh y hy hlt r hr
  · refine h.sound.setPte ?_ (fun j y hj => ?_) fun y hy => ?_
    · rcases hpage with hp | hp
      · exact hfree _ hp
      · exact h.sound.table _ pt hp
    · rcases hpt with hpt | ⟨-, hempty⟩
      · exact h.sound.page _ pt hpt j y hj
      · rw [hempty j] at hj
        cases hj
    · cases hy
      exact hfree _ hq
  · rw [← Option.isSome_iff_ne_none] at hs ⊢
    exact (isSome_setPte lo).2 (Or.inr hs)

theorem there_setPte (d : Pgdir) (a : Nat) (pt : PageTable) (x : Option Pte) :
    (d.setPte a pt x).there = Function.update d.there (Pgdir.pdx a) true := by
  unfold Pgdir.there Pgdir.setPte
  funext i
  by_cases hi : i = Pgdir.pdx a
  · subst hi
    dsimp only
    rw [Function.update_self, Function.update_self]
    rfl
  · dsimp only
    rw [Function.update_of_ne hi, Function.update_of_ne hi]

/-- A page table that is there is there. -/
theorem there_setPte_some {x : Option Pte} (h : d.table (Pgdir.pdx a) = some pt) : (d.setPte a pt x).there = d.there := by
  rw [there_setPte]
  refine Function.update_eq_self_iff.2 ?_
  unfold Pgdir.there
  rw [h]
  rfl

/-- `allocuvm` takes back what it mapped. -/
theorem sure_undo {oldsz newsz : Size} (hw : Whole d (pageRoundUp oldsz))
    (h : Extends kernelEnd m₀ d (pageRoundUp oldsz) a e m) (hlt : a < pageRoundUp newsz) (hlo : pageRoundUp oldsz ≤ a)
    {Q : Pgdir × Size → Kmem → Prop}
    (hQ : ∀ e m sz, (∀ y < NPAGES, pteAt e y = pteAt d y) → Q (e, sz) m) :
    Wp sure (deallocuvm kernelEnd e newsz (UInt32.ofNat oldsz)) Q m := by
  have holdsz : (oldsz : Nat) < 0x80000000 + 1 := oldsz.isLt
  have hlo' : pageRoundUp oldsz = ((oldsz : Nat) + 4096 - 1) / 4096 := rfl
  have hhi' : pageRoundUp newsz = ((newsz : Nat) + 4096 - 1) / 4096 := rfl
  have htoNat : (UInt32.ofNat (oldsz : Nat)).toNat = oldsz := by
    rw [UInt32.toNat_ofNat']
    exact Nat.mod_eq_of_lt (by omega)
  have hsmaller : (UInt32.ofNat (oldsz : Nat)).toNat < (newsz : Nat) := by
    rw [htoNat]
    omega
  obtain ⟨r, hr, sz, -, hrun⟩ := deallocuvm_tail kernelEnd e m hsmaller
  rw [htoNat] at hr
  have hskip : ∀ y, pageRoundUp oldsz ≤ y → ¬Skipped e (pageRoundUp oldsz) y := fun y hy =>
    h.first.elim not_skipped_of_aligned fun hs => not_skipped_of_present hs hy
  obtain ⟨_ | ⟨e', m'⟩, w⟩ := r
  · obtain ⟨p, hp, hbad⟩ := hr
    obtain ⟨y, -, -, -, hp⟩ := mem_reached.1 hp
    obtain ⟨q, hq, rfl⟩ := Option.map_eq_some_iff.1 hp
    obtain ⟨t, ht, hq⟩ := Option.bind_eq_some_iff.1 hq
    exact absurd (h.sound.page _ t ht _ q hq) hbad
  · obtain ⟨-, -, -, -, -, hpte⟩ := hr
    refine sure_of_run hrun (hQ e' m' sz fun y hy => ?_)
    rw [hpte y hy]
    by_cases hy' : pageRoundUp oldsz ≤ y
    · rw [hw.none hy hy']
      split
      · rfl
      · next hc =>
        refine h.above y ?_ hy
        by_contra hno
        exact hc ⟨⟨hy', by omega⟩, hskip y hy'⟩
    · rw [if_neg fun hc => hy' hc.1.1]
      exact h.old y (by omega)

/-- **The loop of `allocuvm`**, whatever `kalloc` does. -/
theorem sure_allocFrom (hfree : ∀ p ∈ m₀.freelist, Load.Valid kernelEnd p) {oldsz newsz : Size} (hw : Whole d (pageRoundUp oldsz)) (fuel : Nat) :
    ∀ {a : Nat} {e : Pgdir} {m : Kmem}, pageRoundUp oldsz ≤ a → a ≤ pageRoundUp newsz → pageRoundUp newsz ≤ a + fuel →
    Extends kernelEnd m₀ d (pageRoundUp oldsz) a e m → ∀ {Q : Pgdir × Size → Kmem → Prop},
    (filled e.there m a (pageRoundUp newsz - a) = none → ∀ e m, (∀ y < NPAGES, pteAt e y = pteAt d y) → Q (e, 0) m) →
    (∀ all, filled e.there m a (pageRoundUp newsz - a) = some all → ∀ f m,
      Extends kernelEnd m₀ d (pageRoundUp oldsz) (pageRoundUp newsz) f m → (∀ y < a, pteAt f y = pteAt e y) →
      (all = true ↔ ∀ y, a ≤ y → y < pageRoundUp newsz → (pteAt f y).isSome = true) → Q (f, newsz) m) →
    Wp sure (allocFrom kernelEnd oldsz newsz fuel a e) Q m := by
  have hnewsz : (newsz : Nat) < 0x80000000 + 1 := newsz.isLt
  have hhi : pageRoundUp newsz = ((newsz : Nat) + 4096 - 1) / 4096 := rfl
  have hend : ∀ {e : Pgdir} {m : Kmem}, Extends kernelEnd m₀ d (pageRoundUp oldsz) (pageRoundUp newsz) e m →
      ∀ {Q : Pgdir × Size → Kmem → Prop},
      (∀ all, filled e.there m (pageRoundUp newsz) (pageRoundUp newsz - pageRoundUp newsz) = some all → ∀ f m,
        Extends kernelEnd m₀ d (pageRoundUp oldsz) (pageRoundUp newsz) f m →
        (∀ y < pageRoundUp newsz, pteAt f y = pteAt e y) →
        (all = true ↔ ∀ y, pageRoundUp newsz ≤ y → y < pageRoundUp newsz → (pteAt f y).isSome = true) → Q (f, newsz) m) →
      Q (e, newsz) m := fun h Q hok =>
    hok true (by rw [Nat.sub_self]; rfl) _ _ h (fun _ _ => rfl)
      (iff_of_true rfl fun y hy hy' => absurd hy' (Nat.not_lt.2 hy))
  induction fuel with
  | zero =>
    intro a e m _ ha hfuel h Q _ hok
    cases (show a = pageRoundUp newsz by omega)
    exact (wp_pure _ _ _).2 (hend h hok)
  | succ fuel ih =>
    intro a e m hlo ha hfuel h Q hbad hok
    rw [allocFrom, wp_ite, wp_pure]
    refine ⟨fun hin => ?_, fun hout => ?_⟩
    · have hin' : a * 4096 < newsz := hin
      have hlt : a < pageRoundUp newsz := by omega
      have hapages : a < NPAGES := by
        show a < 1048576
        omega
      have hn : pageRoundUp newsz - a = (pageRoundUp newsz - (a + 1)) + 1 := by omega
      rw [hn] at hbad hok
      rw [wp_bind]
      refine sure_kalloc ?_
      have hsub : ∀ p ∈ m.take.2.freelist, p ∈ m.freelist := fun p => take_sub
      have hmem : ∀ p, m.take.1 = some p → p ∈ m.freelist := fun p => take_mem
      unfold filled at hbad hok
      generalize m.take = r at hsub hmem hbad hok ⊢
      rcases r with ⟨_ | mem, m'⟩
      · -- no page
        dsimp only at hsub ⊢
        rw [wp_bind]
        refine sure_undo hw (h.later hsub) hlt hlo fun e' m' sz hpte => ?_
        exact (wp_pure _ _ _).2 (hbad rfl e' m' hpte)
      · dsimp only at hsub hmem hbad hok ⊢
        have hmem₀ := h.free mem (hmem mem rfl)
        have h := h.later hsub
        have habove := h.above a (Nat.le_refl a) hapages
        -- the pages that follow
        have hmapped : ∀ {f : Pgdir} {all : Bool} {x : Option Pte},
            (∀ y < a + 1, pteAt f y = if y = a then x else pteAt e y) →
            (all = true ↔ ∀ y, a + 1 ≤ y → y < pageRoundUp newsz → (pteAt f y).isSome = true) →
            ((all = true ∧ x.isSome = true) ↔ ∀ y, a ≤ y → y < pageRoundUp newsz → (pteAt f y).isSome = true) := by
          intro f all x hf hall
          rw [hall]
          have hfa := hf a (Nat.lt_succ_self a)
          rw [if_pos rfl] at hfa
          constructor
          · rintro ⟨hrest, hx⟩ y hy hy'
            by_cases hya : y = a
            · rw [hya, hfa]
              exact hx
            · exact hrest y (by omega) hy'
          · intro hall
            refine ⟨fun y hy => hall y (by omega), ?_⟩
            have := hall a (Nat.le_refl a) hlt
            rwa [hfa] at this
        rw [wp_bind]
        unfold mappages
        cases hd : e.table (Pgdir.pdx a) with
        | some pt =>
          dsimp only
          have hthere : e.there (Pgdir.pdx a) = true := by
            unfold Pgdir.there
            rw [hd]
            rfl
          rw [if_pos hthere, ← there_setPte_some (x := some ⟨mem, true⟩) hd] at hbad hok
          have hnone := habove
          unfold pteAt at hnone
          rw [hd, Option.bind_some] at hnone
          rw [hnone]
          dsimp only
          rw [wp_pure]
          have hset : ∀ y < a + 1, pteAt (e.setPte a pt (some ⟨mem, true⟩)) y =
              if y = a then some ⟨mem, true⟩ else pteAt e y := fun y hy => pteAt_setPte (Or.inl hd) hapages (by omega)
          refine ih (by omega) hlt (by omega) (.setPte hfree h hlo hapages (Or.inl hd) (Or.inr hd) hmem₀) hbad
            fun all hall f m' hf hold hmap => hok all hall f m' hf (fun y hy => ?_) ?_
          · rw [hold y (by omega), hset y (by omega), if_neg (by omega)]
          · rw [← hmapped (fun y hy => (hold y hy).trans (hset y hy)) hmap]
            exact ⟨fun h => ⟨h, rfl⟩, fun h => h.1⟩
        | none =>
          dsimp only
          have hthere : ¬e.there (Pgdir.pdx a) = true := by
            unfold Pgdir.there
            rw [hd]
            exact fun he => by cases he
          rw [if_neg hthere] at hbad hok
          rw [wp_bind]
          refine sure_kalloc ?_
          have hsub' : ∀ p ∈ m'.take.2.freelist, p ∈ m'.freelist := fun p => take_sub
          have hmem' : ∀ p, m'.take.1 = some p → p ∈ m'.freelist := fun p => take_mem
          generalize m'.take = r at hsub' hmem' hbad hok ⊢
          rcases r with ⟨_ | page, m''⟩
          · -- no page table: the page is lost
            dsimp only at hsub' hbad hok ⊢
            rw [wp_pure]
            refine ih (by omega) hlt (by omega) (h.later hsub').skip (fun hno => hbad (by rw [hno]; rfl))
              fun all hall f m' hf hold hmap => hok false (by rw [hall]; rfl) f m' hf (fun y hy => hold y (by omega)) ?_
            rw [← hmapped (x := none) (fun y hy => ?_) hmap]
            · exact ⟨(fun he => by cases he), fun h => Bool.noConfusion h.2⟩
            · rw [hold y hy]
              split
              · next hya =>
                rw [hya]
                exact habove
              · rfl
          · dsimp only at hsub' hmem' hbad hok ⊢
            have hpage := h.free page (hmem' page rfl)
            rw [wp_pure]
            rw [← there_setPte e a ⟨page, fun _ => none⟩ (some ⟨mem, true⟩)] at hbad hok
            have hset : ∀ y < a + 1, pteAt (e.setPte a ⟨page, fun _ => none⟩ (some ⟨mem, true⟩)) y =
                if y = a then some ⟨mem, true⟩ else pteAt e y := fun y hy =>
              pteAt_setPte (Or.inr ⟨hd, fun _ => rfl⟩) hapages (by omega)
            refine ih (by omega) hlt (by omega)
              (.setPte hfree (h.later hsub') hlo hapages (Or.inr ⟨hd, fun _ => rfl⟩) (Or.inl hpage) hmem₀) hbad
              fun all hall f m' hf hold hmap => hok all hall f m' hf (fun y hy => ?_) ?_
            · rw [hold y (by omega), hset y (by omega), if_neg (by omega)]
            · rw [← hmapped (fun y hy => (hold y hy).trans (hset y hy)) hmap]
              exact ⟨fun h => ⟨h, rfl⟩, fun h => h.1⟩
    · have hout' : ¬a * 4096 < newsz := hout
      cases (show a = pageRoundUp newsz by omega)
      exact hend h hok

end

namespace Load

section

variable {kernelEnd : Page} {w : World} {d : Pgdir} {mem : Mem} {a b y : Nat} {q : Pte} {n : Int32}

theorem code_sure {α : Type} (f : Alloc α) (Q : α → World → Prop) :
    Wp sure (liftM f : Code α) Q w ↔ Wp sure f (fun a kmem => Q a { w with kmem }) w.kmem :=
  wp_zoom World.kmem (fun kmem w => { w with kmem }) f Q w

/-! ## The size asked for -/

theorem toInt_eq (n : Int32) : n.toInt =
    if 2 * n.toUInt32.toNat < 2 ^ 32 then (n.toUInt32.toNat : Int) else (n.toUInt32.toNat : Int) - (2 ^ 32 : Nat) :=
  BitVec.toInt_eq_toNat_cond n.toBitVec

theorem newsz_of_nonneg (sz : Size) (h : 0 ≤ (sz : Int) + n.toInt) :
    ((UInt32.ofNat sz + n.toUInt32).toNat : Int) = sz + n.toInt := by
  have hsz : (sz : Nat) < 0x80000000 + 1 := sz.isLt
  have hn := n.toUInt32.toNat_lt
  rw [toInt_eq] at h ⊢
  rw [UInt32.toNat_add, UInt32.toNat_ofNat']
  split
  · next hc =>
    rw [if_pos hc] at h
    omega
  · next hc =>
    rw [if_neg hc] at h
    omega

theorem newsz_of_neg (sz : Size) (h : (sz : Int) + n.toInt < 0) :
    (sz : Nat) ≤ (UInt32.ofNat sz + n.toUInt32).toNat := by
  have hsz : (sz : Nat) < 0x80000000 + 1 := sz.isLt
  have hn := n.toUInt32.toNat_lt
  rw [toInt_eq] at h
  rw [UInt32.toNat_add, UInt32.toNat_ofNat']
  split at h
  · omega
  · omega

theorem lt_zero_iff : n < 0 ↔ n.toInt < 0 := by
  rw [Int32.lt_iff_toInt_lt]
  rfl

theorem zero_lt_iff : 0 < n ↔ 0 < n.toInt := by
  rw [Int32.lt_iff_toInt_lt]
  rfl

/-! ## The pages that are cleared -/

theorem userPte_eq (h : y < 524288) : userPte d y = pteAt d y := if_pos (show y * 4096 < 0x80000000 by omega)

theorem clear_new (hb : b ≤ 524288) (ha : a ≤ y) (hy : y < b) (hq : pteAt d y = some q) :
    clear d a b mem q.page = fun _ => 0 := by
  refine if_pos (List.mem_filterMap.2 ⟨y, List.mem_range'_1.2 ⟨ha, by omega⟩, ?_⟩)
  rw [userPte_eq (by omega), hq]
  rfl

theorem clear_old {p : Page} (hb : b ≤ 524288) (h : ∀ y, a ≤ y → y < b → ∀ q, pteAt d y = some q → q.page ≠ p) :
    clear d a b mem p = mem p := by
  refine if_neg fun hp => ?_
  obtain ⟨y, hy, hp⟩ := List.mem_filterMap.1 hp
  rw [List.mem_range'_1] at hy
  rw [userPte_eq (by omega)] at hp
  obtain ⟨q, hq, hqp⟩ := Option.map_eq_some_iff.1 hp
  exact h y hy.1 (by omega) q hq hqp

/-! ## Growing -/

theorem Fitted.extends (h : Fitted kernelEnd w) : Extends kernelEnd w.kmem w.caller.pgdir (pageRoundUp w.caller.sz)
    (pageRoundUp w.caller.sz) w.caller.pgdir w.kmem := by
  have hsz : (w.caller.sz : Nat) < 0x80000000 + 1 := w.caller.sz.isLt
  have hround : pageRoundUp w.caller.sz = ((w.caller.sz : Nat) + 4096 - 1) / 4096 := rfl
  refine ⟨fun _ _ => rfl, fun y hy hlt => h.whole.none hlt hy, fun y hy hlt q hq => ?_, h.sound, fun _ hp => hp, ?_⟩
  · rw [h.whole.none hlt hy] at hq
    cases hq
  · by_cases hmod : pageRoundUp w.caller.sz % NPTENTRIES = 0
    · exact Or.inl hmod
    · -- the page before is in the same page table
      have hmod' : pageRoundUp w.caller.sz % 1024 ≠ 0 := hmod
      have hlast := (h.whole (pageRoundUp w.caller.sz - 1) (show _ < 1048576 by omega)).2 (by omega)
      refine Or.inr fun hnone => ?_
      unfold pteAt at hlast
      rw [pdx_congr (show (pageRoundUp w.caller.sz - 1) / 1024 = pageRoundUp w.caller.sz / 1024 by omega), hnone] at hlast
      cases hlast

/-- **`allocuvm`** of a process that grows. -/
theorem sure_grow (h : Fitted kernelEnd w) {newsz : UInt32} (hle : (w.caller.sz : Nat) ≤ newsz.toNat)
    (hlt : newsz.toNat < KERNBASE) {Q : Pgdir × Size → World → Prop}
    (hbad : filled w.caller.pgdir.there w.kmem (pageRoundUp w.caller.sz)
        (pageRoundUp newsz.toNat - pageRoundUp w.caller.sz) = none →
      ∀ e kmem, (∀ y < NPAGES, pteAt e y = pteAt w.caller.pgdir y) → Q (e, 0) { w with kmem })
    (hok : ∀ all, filled w.caller.pgdir.there w.kmem (pageRoundUp w.caller.sz)
        (pageRoundUp newsz.toNat - pageRoundUp w.caller.sz) = some all → ∀ f kmem (sz : Size), (sz : Nat) = newsz.toNat →
      Extends kernelEnd w.kmem w.caller.pgdir (pageRoundUp w.caller.sz) (pageRoundUp newsz.toNat) f kmem →
      (all = true ↔ ∀ y, pageRoundUp w.caller.sz ≤ y → y < pageRoundUp newsz.toNat → (pteAt f y).isSome = true) →
      Q (f, sz) { w with kmem, mem := clear f (pageRoundUp w.caller.sz) (pageRoundUp newsz.toNat) w.mem }) :
    Wp sure (allocuvm kernelEnd w.caller.pgdir w.caller.sz newsz) Q w := by
  have hmono : pageRoundUp w.caller.sz ≤ pageRoundUp newsz.toNat := pageRoundUp_mono hle
  have hhi : pageRoundUp newsz.toNat = (newsz.toNat + 4096 - 1) / 4096 := rfl
  unfold allocuvm
  rw [wp_bind, code_sure, Vm.allocuvm, wp_dite]
  refine ⟨fun hge => absurd hlt (Nat.not_lt.2 hge), fun hlt' => ?_⟩
  rw [wp_ite]
  refine ⟨fun hsmall => absurd hle (Nat.not_le.2 hsmall), fun _ => ?_⟩
  refine sure_allocFrom h.free h.whole _ (Nat.le_refl _) hmono ?_ h.extends (fun hno e m he => ?_) fun all hall f m hf _ hmap => ?_
  · show pageRoundUp newsz.toNat ≤ _ + (newsz.toNat / 4096 + 1)
    omega
  · dsimp only
    rw [wp_bind, wp_modify, wp_pure]
    dsimp only
    rw [clear_of_le _ (show pageRoundUp ((0 : Size) : Nat) ≤ _ from Nat.zero_le _)]
    exact hbad hno e m he
  · dsimp only
    rw [wp_bind, wp_modify, wp_pure]
    exact hok all hall f m _ rfl hf hmap

/-- What a process that grew has. -/
theorem resized_iff (h : Fitted kernelEnd w) {f : Pgdir} {kmem : Kmem} {sz : Size} {all : Bool}
    (hsz : (sz : Int) = w.caller.sz + n.toInt) (hle : (w.caller.sz : Nat) ≤ sz)
    (hf : Extends kernelEnd w.kmem w.caller.pgdir (pageRoundUp w.caller.sz) (pageRoundUp sz) f kmem)
    (hall : all = true ↔ ∀ y, pageRoundUp w.caller.sz ≤ y → y < pageRoundUp sz → (pteAt f y).isSome = true) :
    Resized w n ⟨kmem, clear f (pageRoundUp w.caller.sz) (pageRoundUp sz) w.mem, { w.caller with pgdir := f, sz }⟩ ↔
      all = true ∧ ∀ x : Nat, (w.caller.sz : Nat) ≤ x → x < (sz : Nat) → x < pageRoundUp w.caller.sz * PGSIZE →
        byteAt w.caller.pgdir w.mem x = some 0 := by
  have hmono : pageRoundUp w.caller.sz ≤ pageRoundUp sz := pageRoundUp_mono hle
  have hlt : (sz : Nat) < 0x80000000 + 1 := sz.isLt
  have hlo : pageRoundUp w.caller.sz = ((w.caller.sz : Nat) + 4096 - 1) / 4096 := rfl
  have hhi : pageRoundUp sz = ((sz : Nat) + 4096 - 1) / 4096 := rfl
  -- a byte in a page that was there
  have hold : ∀ x, x / PGSIZE < pageRoundUp w.caller.sz →
      byteAt f (clear f (pageRoundUp w.caller.sz) (pageRoundUp sz) w.mem) x = byteAt w.caller.pgdir w.mem x := by
    intro x hx
    unfold byteAt
    rw [hf.old _ hx]
    refine Option.map_congr fun q hq => ?_
    rw [clear_old (by omega)]
    intro y hy hy' r hr hpage
    refine h.apart _ q hq ?_
    rw [← hpage]
    exact hf.fresh y hy (show y < 1048576 by omega) r hr
  constructor
  · intro hr
    refine ⟨hall.2 fun y hy hy' => (hr.whole y (show y < 1048576 by omega)).2 hy', fun x hx hx' hpage => ?_⟩
    rw [← hold x (Nat.div_lt_of_lt_mul (by rw [Nat.mul_comm]; exact hpage))]
    exact hr.zero x hx hx'
  · rintro ⟨ha, hzero⟩
    have hmapped := hall.1 ha
    refine ⟨hsz, fun y hy => ?_, fun x hx _ => hold x ?_, fun x hx hx' => ?_⟩
    · dsimp only
      by_cases h₁ : y < pageRoundUp w.caller.sz
      · rw [hf.old y h₁, h.whole y hy]
        omega
      · by_cases h₂ : y < pageRoundUp sz
        · exact iff_of_true (hmapped y (by omega) h₂) h₂
        · rw [hf.above y (by omega) hy]
          exact iff_of_false nofun h₂
    · show x / 4096 < _
      omega
    · have hx'' : x < (sz : Nat) := hx'
      by_cases hpage : x < pageRoundUp w.caller.sz * PGSIZE
      · exact (hold x (Nat.div_lt_of_lt_mul (by rw [Nat.mul_comm]; exact hpage))).trans (hzero x hx hx' hpage)
      · have hpage' : ¬x < pageRoundUp w.caller.sz * 4096 := hpage
        have hlow : pageRoundUp w.caller.sz ≤ x / 4096 := by omega
        have hhigh : x / 4096 < pageRoundUp sz := by omega
        obtain ⟨q, hq⟩ := Option.isSome_iff_exists.1 (hmapped _ hlow hhigh)
        unfold byteAt
        dsimp only
        rw [show pteAt f (x / PGSIZE) = some q from hq, Option.map_some, clear_new (by omega) hlow hhigh hq]

/-! ## Shrinking -/

/-- **`deallocuvm`** of a process that shrinks. -/
theorem sure_shrink (h : Fitted kernelEnd w) {newsz : UInt32} (hlt : newsz.toNat < (w.caller.sz : Nat))
    {Q : Pgdir × Size → World → Prop}
    (hQ : ∀ e kmem (sz : Size), (sz : Nat) = newsz.toNat →
      (∀ y < NPAGES, pteAt e y = if pageRoundUp newsz.toNat ≤ y then none else pteAt w.caller.pgdir y) →
      Q (e, sz) { w with kmem }) :
    Wp sure (liftM (deallocuvm kernelEnd w.caller.pgdir w.caller.sz newsz) : Code (Pgdir × Size)) Q w := by
  have hsz : (w.caller.sz : Nat) < 0x80000000 + 1 := w.caller.sz.isLt
  have hlo : pageRoundUp newsz.toNat = (newsz.toNat + 4096 - 1) / 4096 := rfl
  have hhi : pageRoundUp w.caller.sz = ((w.caller.sz : Nat) + 4096 - 1) / 4096 := rfl
  rw [code_sure]
  obtain ⟨r, hr, sz, hsize, hrun⟩ := deallocuvm_tail kernelEnd w.caller.pgdir w.kmem hlt
  obtain ⟨_ | ⟨e, m⟩, t⟩ := r
  · obtain ⟨p, hp, hbad⟩ := hr
    obtain ⟨y, -, -, -, hp⟩ := mem_reached.1 hp
    obtain ⟨q, hq, rfl⟩ := Option.map_eq_some_iff.1 hp
    obtain ⟨t, ht, hq⟩ := Option.bind_eq_some_iff.1 hq
    exact absurd (h.sound.page _ t ht _ q hq) hbad
  · obtain ⟨-, -, -, -, -, hpte⟩ := hr
    refine sure_of_run hrun (hQ e m sz hsize fun y hy => ?_)
    rw [hpte y hy]
    by_cases hy' : pageRoundUp newsz.toNat ≤ y
    · rw [if_pos hy']
      by_cases hin : y < pageRoundUp w.caller.sz
      · -- the first page of the tail is mapped
        have hfirst := (h.whole (pageRoundUp newsz.toNat) (show _ < 1048576 by omega)).2 (by omega)
        refine if_pos ⟨⟨hy', hin⟩, not_skipped_of_present (fun hnone => ?_) hy'⟩
        unfold pteAt at hfirst
        rw [hnone] at hfirst
        cases hfirst
      · rw [h.whole.none hy (Nat.le_of_not_lt hin), ite_self]
    · rw [if_neg fun hc => hy' hc.1.1, if_neg hy']

/-! ## `growproc` -/

theorem untouched_refl (w : World) (kmem : Kmem) : Untouched w { w with kmem } := ⟨rfl, fun _ _ => rfl, fun _ _ _ => rfl⟩

/-- What `growproc` does with the size it gets. -/
theorem sure_commit {ok : Bool → World → Prop} {m : Code (Pgdir × Size)}
    (h : Wp sure m (fun r w' => ok (decide (r.2 ≠ 0)) { w' with
      caller := { w'.caller with pgdir := r.1, sz := if r.2 = 0 then w'.caller.sz else r.2 } }) w) :
    Wp sure (do
      let (pgdir, sz) ← m
      Prog.modify fun w => { w with caller := { w.caller with pgdir, sz := if sz = 0 then w.caller.sz else sz } }
      return decide (sz ≠ 0)) ok w := by
  rw [wp_bind]
  refine h.mono fun r w' hr => ?_
  obtain ⟨pgdir, sz⟩ := r
  dsimp only
  rw [wp_bind, wp_modify, wp_pure]
  exact hr

theorem growproc_grow (h : Fitted kernelEnd w) (hn : 0 < n) :
    Wp sure (growproc kernelEnd n) (fun ok w' => (if ok then Resized w n w' else Untouched w w') ↔ Grows w n) w := by
  have hpos := zero_lt_iff.1 hn
  have hsz : (w.caller.sz : Nat) < 0x80000000 + 1 := w.caller.sz.isLt
  have hnew := newsz_of_nonneg (n := n) w.caller.sz (by omega)
  have hne : ¬n = 0 := fun h0 => by
    rw [h0] at hpos
    exact absurd hpos (by decide)
  have hneg : ¬n < 0 := fun h0 => by
    have := lt_zero_iff.1 h0
    omega
  unfold growproc
  rw [wp_bind, wp_get, if_neg hne]
  refine sure_commit ?_
  rw [if_pos hn]
  unfold Grows filledFor
  generalize UInt32.ofNat (w.caller.sz : Nat) + n.toUInt32 = newsz at hnew ⊢
  by_cases hlt : newsz.toNat < KERNBASE
  · have hlt' : newsz.toNat < 0x80000000 := hlt
    have hcond : ∀ P : Prop, (((n < 0 → (w.caller.sz : Nat) = 0 ∨ 0 < (w.caller.sz : Int) + n.toInt) ∧
        (0 < n → (w.caller.sz : Int) + n.toInt < KERNBASE → P)) ↔ P) := fun P =>
      ⟨fun hc => hc.2 hn (show _ < (0x80000000 : Int) by omega), fun hP => ⟨fun h0 => absurd h0 hneg, fun _ _ => hP⟩⟩
    rw [hcond]
    refine sure_grow h (by omega) hlt (fun hno e kmem he => ?_) fun all hall f kmem sz hsize hf hmap => ?_
    · rw [hno]
      refine iff_of_true ?_ ⟨nofun, nofun⟩
      exact ⟨rfl, he, fun _ _ _ => rfl⟩
    · have hne0 : ¬sz = 0 := fun h0 => by
        rw [h0] at hsize
        have : ((0 : Size) : Nat) = 0 := rfl
        omega
      rw [hall]
      dsimp only
      rw [decide_eq_true hne0, if_pos rfl, if_neg hne0]
      rw [← hsize] at hf hmap ⊢
      rw [resized_iff h (by omega) (by omega) hf hmap]
      constructor
      · rintro ⟨ha, hzero⟩
        refine ⟨by rw [ha]; exact nofun, fun _ x hx hx' hpage => hzero x hx (by omega) hpage⟩
      · rintro ⟨hall', hzero⟩
        have ha : all = true := by
          cases all with
          | true => rfl
          | false => exact absurd rfl hall'
        exact ⟨ha, fun x hx hx' hpage => hzero (by rw [ha]) x hx (by omega) hpage⟩
  · have hlt' : ¬newsz.toNat < 0x80000000 := hlt
    unfold allocuvm
    rw [wp_bind, code_sure, Vm.allocuvm, wp_dite]
    refine ⟨fun _ => ?_, fun hno => absurd (Nat.le_of_not_lt hlt) hno⟩
    rw [wp_pure]
    dsimp only
    rw [wp_bind, wp_modify, wp_pure]
    dsimp only
    rw [clear_of_le _ (show pageRoundUp ((0 : Size) : Nat) ≤ _ from Nat.zero_le _)]
    refine iff_of_true (untouched_refl w _) ⟨fun h0 => absurd h0 hneg, fun _ hsmall => ?_⟩
    have hsmall' : (w.caller.sz : Int) + n.toInt < 0x80000000 := hsmall
    omega

theorem growproc_shrink (h : Fitted kernelEnd w) (hn : n < 0) :
    Wp sure (growproc kernelEnd n) (fun ok w' => (if ok then Resized w n w' else Untouched w w') ↔ Grows w n) w := by
  have hneg := lt_zero_iff.1 hn
  have hsz : (w.caller.sz : Nat) < 0x80000000 + 1 := w.caller.sz.isLt
  have hpos : ¬0 < n := fun h0 => by
    have := zero_lt_iff.1 h0
    omega
  have hne : ¬n = 0 := fun h0 => by
    rw [h0] at hneg
    exact absurd hneg (by decide)
  have hcond : Grows w n ↔ (w.caller.sz : Nat) = 0 ∨ 0 < (w.caller.sz : Int) + n.toInt :=
    ⟨fun hc => hc.1 hn, fun hc => ⟨fun _ => hc, fun h0 => absurd h0 hpos⟩⟩
  unfold growproc
  rw [wp_bind, wp_get, if_neg hne, hcond]
  refine sure_commit ?_
  rw [if_neg hpos]
  by_cases hwrap : (w.caller.sz : Int) + n.toInt < 0
  · -- the size wraps around, and nothing happens
    have hle := newsz_of_neg (n := n) w.caller.sz hwrap
    rw [code_sure, deallocuvm, dif_pos hle, wp_pure]
    dsimp only
    by_cases h0 : w.caller.sz = 0
    · rw [decide_eq_false (not_not.2 h0), if_neg Bool.false_ne_true, if_pos h0]
      exact iff_of_true (untouched_refl w _) (Or.inl (congrArg Fin.val h0))
    · rw [decide_eq_true h0, if_pos rfl, if_neg h0]
      refine iff_of_false (fun hr => ?_) fun hc => hc.elim (fun hz => h0 (Fin.ext hz)) fun hp => by omega
      have hsize := hr.size
      dsimp only at hsize
      omega
  · have hnew := newsz_of_nonneg (n := n) w.caller.sz (by omega)
    refine sure_shrink h (by omega) fun e kmem sz hsize hpte => ?_
    dsimp only
    by_cases h0 : sz = 0
    · -- all pages are given back, and the size is taken for an error
      have hzero : (sz : Nat) = 0 := congrArg Fin.val h0
      rw [decide_eq_false (not_not.2 h0), if_neg Bool.false_ne_true]
      have hround : pageRoundUp w.caller.sz = ((w.caller.sz : Nat) + 4096 - 1) / 4096 := rfl
      refine iff_of_false (fun hu => ?_) fun hc => by omega
      have hgone : pteAt e 0 = pteAt w.caller.pgdir 0 := hu.pte 0 (Nat.two_pow_pos 20)
      have hfirst := (h.whole 0 (Nat.two_pow_pos 20)).2 (by omega)
      have hstart : pageRoundUp 0 ≤ 0 := by decide
      rw [hpte 0 (Nat.two_pow_pos 20), ← hsize, hzero, if_pos hstart] at hgone
      rw [← hgone] at hfirst
      cases hfirst
    · rw [decide_eq_true h0, if_pos rfl, if_neg h0]
      have hpos' : 0 < (sz : Nat) := Nat.pos_of_ne_zero fun hc => h0 (Fin.ext hc)
      refine iff_of_true ?_ (Or.inr (by omega))
      have hlo : pageRoundUp sz = ((sz : Nat) + 4096 - 1) / 4096 := rfl
      have hhi : pageRoundUp w.caller.sz = ((w.caller.sz : Nat) + 4096 - 1) / 4096 := rfl
      rw [← hsize] at hpte
      refine ⟨by dsimp only; omega, fun y hy => ?_, fun x hx hx' => ?_, fun x hx hx' => ?_⟩
      · dsimp only
        rw [hpte y hy]
        by_cases hy' : pageRoundUp sz ≤ y
        · rw [if_pos hy']
          exact iff_of_false (fun he => by cases he) (Nat.not_lt.2 hy')
        · rw [if_neg hy', h.whole y hy]
          omega
      · have hx'' : x < (sz : Nat) := hx'
        unfold byteAt
        dsimp only
        rw [hpte _ (show x / 4096 < 1048576 by omega), if_neg (show ¬pageRoundUp sz ≤ x / 4096 by omega)]
      · have hx'' : x < (sz : Nat) := hx'
        omega

/-- **When `sbrk` is all or nothing.** -/
theorem growproc_allOrNothing (kernelEnd : Page) (w : World) (n : Int32) (h : Fitted kernelEnd w) :
    AllOrNothing kernelEnd w n ↔ Grows w n := by
  have hwp : Wp sure (growproc kernelEnd n) (fun ok w' => (if ok then Resized w n w' else Untouched w w') ↔ Grows w n) w := by
    rcases Int.lt_trichotomy n.toInt 0 with hn | hn | hn
    · exact growproc_shrink h (lt_zero_iff.2 hn)
    · have h0 : n = 0 := Int32.toInt_inj.1 hn
      unfold growproc
      rw [wp_bind, wp_get, if_pos h0, wp_pure]
      refine iff_of_true ⟨?_, h.whole, fun _ _ _ => rfl, fun x hx hx' => absurd hx' (Nat.not_lt.2 hx)⟩
        ⟨fun hlt => ?_, fun hlt => ?_⟩
      · rw [hn, Int.add_zero]
      · rw [lt_zero_iff] at hlt
        omega
      · rw [zero_lt_iff] at hlt
        omega
    · exact growproc_grow h (zero_lt_iff.2 hn)
  obtain ⟨ok, w', t, hrun, hiff⟩ := run_of_sure hwp
  rw [← hiff]
  constructor
  · rintro ⟨ok', w'', t', hrun', hout⟩
    cases hrun.symm.trans hrun'
    exact hout
  · exact fun hout => ⟨ok, w', t, hrun, hout⟩

end

/-- A process of one page, and one page on the free list. -/
def onePage : World := ⟨⟨[1028], fun _ => false⟩, fun _ _ => 0, ⟨firstPage, ⟨4096, by decide⟩, 0, 0, []⟩⟩

theorem firstPage_pte {y : Nat} {q : Pte} (h : pteAt firstPage y = some q) :
    q = ⟨1027, true⟩ ∧ Pgdir.pdx y = Pgdir.pdx 0 ∧ Pgdir.ptx y = Pgdir.ptx 0 := by
  unfold pteAt firstPage at h
  dsimp only at h
  split at h
  · next hd =>
    rw [Option.bind_some] at h
    dsimp only at h
    split at h
    · next ht =>
      cases h
      exact ⟨rfl, hd, ht⟩
    · cases h
  · cases h

theorem onePage_fitted : Fitted 1024 onePage := by
  refine ⟨fun y hy => ⟨fun hs => ?_, fun hlt => ?_⟩,
    ⟨⟨by decide, by decide, by decide⟩, fun i pt hi => ?_, fun i pt hi j x hj => ?_⟩, ?_, fun y q hq => ?_⟩
  · obtain ⟨q, hq⟩ := Option.isSome_iff_exists.1 hs
    obtain ⟨-, hd, ht⟩ := firstPage_pte hq
    rw [page_eq (Nat.two_pow_pos 20) hy hd ht]
    decide
  · have hone : pageRoundUp onePage.caller.sz = 1 := by decide
    rw [hone] at hlt
    rw [show y = 0 by omega]
    rfl
  · have hi' : (if i = 0 then some _ else none) = some pt := hi
    split at hi'
    · cases hi'
      exact ⟨by decide, by decide, by decide⟩
    · cases hi'
  · have hi' : (if i = 0 then some _ else none) = some pt := hi
    split at hi'
    · cases hi'
      dsimp only at hj
      split at hj
      · cases hj
        exact ⟨by decide, by decide, by decide⟩
      · cases hj
    · cases hi'
  · intro p hp
    rw [List.mem_singleton.1 hp]
    exact ⟨by decide, by decide, by decide⟩
  · rw [(firstPage_pte hq).1]
    exact fun hm => absurd (List.mem_singleton.1 hm) (by decide)

theorem growproc_allOrNothing_page : AllOrNothing 1024 onePage 4096 := by
  refine (growproc_allOrNothing 1024 onePage 4096 onePage_fitted).2 ⟨fun h => absurd h (by decide), fun _ _ => ⟨?_, ?_⟩⟩
  · decide
  · intro _ x hx _ hx'
    have hx₁ : 4096 ≤ x := hx
    have hx₂ : x < 1 * 4096 := hx'
    omega

/-- `sbrk` of minus the size gives all pages back and returns -1. -/
theorem not_allOrNothing : ¬∀ (kernelEnd : Page) (w : World) (n : Int32), Fitted kernelEnd w → AllOrNothing kernelEnd w n := by
  intro h
  obtain ⟨ok, w', t, hrun, hout⟩ := h 1024 onePage (-4096) onePage_fitted
  obtain ⟨ok', w'', t', hrun', hiff⟩ := run_of_sure (growproc_shrink (n := -4096) onePage_fitted (by decide))
  cases hrun.symm.trans hrun'
  have hshrink := (hiff.1 hout).1 (by decide)
  exact absurd hshrink (by decide)

end Load

end NewXv6.Vm
