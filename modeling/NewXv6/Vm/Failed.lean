import NewXv6.Vm.Undo
import NewXv6.Vm.Exec

/-!
# The calls that fail

`fork`, `exec` and `sbrk` as long as `kalloc` does not fail for a page table: a call either does what it is for or leaves
the free list, the processes and the pipes as they were.
-/

namespace NewXv6.Vm

open Lib
open Load (Avail frame calls tables TablesFit)

section

variable {c g : Page → Nat} {m m' : Kmem} {d e : Pgdir} {outside : Outside} {kernelEnd : Page} {a b k n : Nat}
  {s : State} {pid : Fin NPROC} {p : Proc}

theorem calm_of_once {α σ : Type} {f : Prog σ Stop Event α} {Q : α → σ → Prop} {s : σ} (h : Wp once f Q s) :
    Wp calm f Q s := by
  refine ⟨along_of_ensure fun _ _ => trivial, fun ha => ?_⟩
  have he := h.2 ha
  revert he
  cases (f s).1 with
  | ok r => exact id
  | error _ => exact fun _ => trivial

/-- A postcondition that always holds, under a contract that asks for nothing. -/
theorem wp_total {α σ : Type} {C : Contract Stop Event} {f : Prog σ Stop Event α} {Q : α → σ → Prop} {s : σ}
    (hensure : ∀ x, C.ensure x) (hfail : ∀ x, C.fail x) (h : ∀ a t, Q a t) : Wp C f Q s := by
  refine ⟨along_of_ensure fun x _ => hensure x, fun _ => ?_⟩
  cases (f s).1 with
  | ok r => exact h r.1 r.2
  | error x => exact hfail x

theorem calm_any {α σ : Type} {f : Prog σ Stop Event α} {Q : α → σ → Prop} {s : σ} (h : ∀ a t, Q a t) : Wp calm f Q s :=
  wp_total (fun _ => trivial) (fun _ => trivial) h

theorem calm_lift {α : Type} (f : Alloc α) (Q : α → State → Prop) :
    Wp calm (liftM f : Kern α) Q s ↔ Wp calm f (fun a kmem => Q a { s with kmem }) s.kmem := wp_zoom _ _ f Q s

/-! ## `exec` -/

/-- A new address space of `n` user pages. -/
structure Grown (c g : Page → Nat) (m : Kmem) (d : Pgdir) (n : Nat) : Prop where
  tabled : Tabled d n
  avail : Avail m (calls n)
  whole : Whole d n
  exact : Exact c (fun p => g p + d.uses p) (Load.after m (calls n))

theorem Load.TablesFit.mono {m : Kmem} (h : TablesFit m a b) (hn : n ≤ b) : TablesFit m a n := fun t ht ht' =>
  h t ht (Nat.lt_of_lt_of_le ht' hn)

/-- **`allocuvm`** for a new address space. -/
theorem calm_allocuvm {oldsz : Size} {newsz : UInt32} (h : Grown c g m d (pageRoundUp oldsz))
    (hfit : newsz.toNat < KERNBASE → TablesFit m 0 (pageRoundUp (max oldsz newsz.toNat))) {Q : Pgdir × Size → Kmem → Prop}
    (hbad : ∀ e n m', n ≤ 524288 → Exact c (fun p => g p + e.uses p) m' → Whole e n → Q (e, 0) m')
    (hok : newsz.toNat < KERNBASE → ∀ e (sz : Size), (sz : Nat) = max (oldsz : Nat) newsz.toNat →
      Grown c g m e (pageRoundUp sz) → Q (e, sz) (Load.after m (calls (pageRoundUp sz)))) :
    Wp calm (allocuvm kernelEnd d oldsz newsz) Q (Load.after m (calls (pageRoundUp oldsz))) := by
  have holdsz : (oldsz : Nat) < 0x80000000 + 1 := oldsz.isLt
  have hlo : pageRoundUp oldsz = ((oldsz : Nat) + 4096 - 1) / 4096 := rfl
  have hhi : pageRoundUp newsz.toNat = (newsz.toNat + 4096 - 1) / 4096 := rfl
  rw [allocuvm, wp_dite]
  refine ⟨fun _ => (wp_pure _ _ _).2 (hbad d _ _ (by omega) h.exact h.whole), fun hlt => ?_⟩
  have hlt' : newsz.toNat < KERNBASE := Nat.lt_of_not_le hlt
  have hlt'' : newsz.toNat < 0x80000000 := hlt'
  rw [wp_ite]
  refine ⟨fun hsmall => (wp_pure _ _ _).2 (hok hlt' d oldsz (by omega) h), fun hlarge => ?_⟩
  have hmax : max (oldsz : Nat) newsz.toNat = newsz.toNat := by omega
  have hfuel : pageRoundUp newsz.toNat ≤ pageRoundUp oldsz + (newsz.toNat / PGSIZE + 1) := by
    show _ ≤ _ + (newsz.toNat / 4096 + 1)
    omega
  have hfit' := hfit hlt'
  rw [hmax] at hfit'
  refine calm_allocFrom (fun a d k => Tabled d a ∧ k = calls a) oldsz ⟨newsz.toNat, by omega⟩ (fun a e k hI ha hA => ?_) _
    (Nat.le_refl _) (by dsimp only; omega) hfuel ⟨h.tabled, rfl⟩ h.avail h.whole h.exact
    (fun a e k f m' _ _ _ _ hf _ hwf _ => hbad f _ m' (by omega) hf hwf) fun e k hI hA hwe hxe => ?_
  · obtain ⟨ht, rfl⟩ := hI
    have ha' : a < pageRoundUp newsz.toNat := ha
    have ha'' : a < 524288 := by omega
    refine ⟨fun pt hpt => ?_, fun hnone => ?_⟩
    · obtain ⟨ht', hc, -⟩ := ht.setPte ha'' pt (some ⟨frame m (calls a), true⟩)
      exact ⟨ht', (hc (by rw [hpt]; rfl)).symm⟩
    · obtain ⟨ht', -, hc⟩ := ht.setPte ha'' ⟨frame m (calls a + 1), fun _ => none⟩ (some ⟨frame m (calls a), true⟩)
      obtain ⟨hmod, hc⟩ := hc hnone
      have hdiv : 1024 * (a / 1024) = a := by omega
      have hA₂ := hfit' (a / 1024) (Nat.zero_le _) (by omega)
      rw [hdiv] at hA₂
      exact ⟨hA₂ hA, ht', hc.symm⟩
  · obtain ⟨ht, rfl⟩ := hI
    exact hok hlt' e ⟨newsz.toNat, by omega⟩ (by dsimp only; omega) ⟨ht, hA, hwe, hxe⟩

/-- How many user pages `exec` asks for, from the segments `phs` on and with the size `sz` so far. -/
def asked (sz : Nat) : List Segment → Nat
  | [] => if (pageRoundUp sz + 2) * PGSIZE < KERNBASE then pageRoundUp sz + 2 else pageRoundUp sz
  | ph :: phs =>
    let newsz := (ph.vaddr + ph.memsz).toNat
    if ph.read = false then pageRoundUp sz
    else if ph.load = false then asked sz phs
    else if ph.memsz < ph.filesz ∨ KERNBASE ≤ newsz then pageRoundUp sz
    else if max sz newsz = 0 ∨ PGSIZE * ph.got < ph.filesz.toNat then pageRoundUp (max sz newsz)
    else asked (max sz newsz) phs

theorem le_asked (phs : List Segment) : ∀ sz, pageRoundUp sz ≤ asked sz phs := by
  induction phs with
  | nil =>
    intro sz
    unfold asked
    split
    · omega
    · exact Nat.le_refl _
  | cons ph phs ih =>
    intro sz
    have hmax := Load.pageRoundUp_mono (Nat.le_max_left sz (ph.vaddr + ph.memsz).toNat)
    unfold asked
    dsimp only
    split
    · exact Nat.le_refl _
    · split
      · exact ih sz
      · split
        · exact Nat.le_refl _
        · split
          · exact hmax
          · exact Nat.le_trans hmax (ih _)

theorem calm_loadFrom (addr : UInt32) (sz fuel : Nat) : ∀ {i got : Nat} {Q : Pgdir × Bool → State → Prop},
    sz ≤ i + 4096 * fuel → (∀ b, (b = true → sz ≤ i + 4096 * got) → Q (d, b) s) →
    Wp calm (loadFrom outside addr sz fuel i got d) Q s := by
  induction fuel with
  | zero =>
    intro i got Q hfuel hQ
    exact (wp_pure _ _ _).2 (hQ _ fun _ => by omega)
  | succ fuel ih =>
    intro i got Q hfuel hQ
    rw [loadFrom, wp_ite, wp_pure]
    refine ⟨fun _ => ?_, fun hout => hQ _ fun _ => by omega⟩
    dsimp only
    cases d.table (Pgdir.pdx ((addr + UInt32.ofNat i).toNat / PGSIZE)) with
    | none => exact (wp_throw _ _ _).2 trivial
    | some pt =>
      have hnext : sz ≤ i + PGSIZE + 4096 * fuel := by
        show sz ≤ i + 4096 + 4096 * fuel
        omega
      dsimp only
      rw [wp_ite, wp_bind, wp_pure, wp_ite, wp_pure]
      refine ⟨fun _ => ⟨fun _ => hQ _ (fun he => by cases he), fun hgot => ih hnext fun b hb => hQ b fun h => ?_⟩, fun _ => ?_⟩
      · have hb' : sz ≤ i + 4096 + 4096 * (got - 1) := hb h
        omega
      · rw [wp_bind, wildStore]
        exact calm_of_once wp_wild

theorem calm_loaduvm (addr sz : UInt32) (got : Nat) {Q : Pgdir × Bool → State → Prop}
    (hQ : ∀ b, (b = true → sz.toNat ≤ 4096 * got) → Q (d, b) s) : Wp calm (loaduvm outside d addr sz got) Q s := by
  rw [loaduvm, wp_ite, wp_throw]
  refine ⟨fun _ => trivial, fun _ => calm_loadFrom addr _ _ ?_ fun b hb => hQ b fun h => ?_⟩
  · show sz.toNat ≤ 0 + 4096 * (sz.toNat / 4096 + 1)
    omega
  · have := hb h
    omega

/-- The loop of `exec` over the program headers. -/
theorem calm_loadSegments (phs : List Segment) : ∀ {sz : Size} {d : Pgdir}, Grown c g m d (pageRoundUp sz) →
    TablesFit m 0 (asked sz phs) → ∀ {Q : Pgdir × Option Size → State → Prop},
    (∀ e n m', n ≤ 524288 → Exact c (fun p => g p + e.uses p) m' → Whole e n → Q (e, none) { s with kmem := m' }) →
    (∀ e (sz' : Size), Grown c g m e (pageRoundUp sz') → TablesFit m 0 (asked sz' []) →
      Q (e, some sz') { s with kmem := Load.after m (calls (pageRoundUp sz')) }) →
    Wp calm (loadSegments outside kernelEnd d sz phs) Q { s with kmem := Load.after m (calls (pageRoundUp sz)) } := by
  induction phs with
  | nil =>
    intro sz d h hfit Q _ hok
    exact (wp_pure _ _ _).2 (hok d sz h hfit)
  | cons ph phs ih =>
    intro sz d h hfit Q hbad hok
    have hsz : (sz : Nat) < 0x80000000 + 1 := sz.isLt
    have hpages : pageRoundUp sz = ((sz : Nat) + 4096 - 1) / 4096 := rfl
    have hstop : Wp calm (pure (d, none)) Q { s with kmem := Load.after m (calls (pageRoundUp sz)) } :=
      (wp_pure _ _ _).2 (hbad d _ _ (by omega) h.exact h.whole)
    unfold asked at hfit
    dsimp only at hfit
    rw [loadSegments, wp_ite, wp_ite, wp_ite]
    refine ⟨fun _ => hstop, fun hread => ⟨fun hload => ?_, fun hload => ⟨fun _ => hstop, fun hmem => ?_⟩⟩⟩
    · rw [if_neg hread, if_pos hload] at hfit
      exact ih h hfit hbad hok
    · rw [if_neg hread, if_neg hload] at hfit
      rw [wp_bind, calm_lift]
      refine calm_allocuvm h (fun hlt => ?_) (fun e n m' hn hx hw => ?_) fun hlt e sz' hsz' he => ?_
      · rw [if_neg (fun hc => hc.elim hmem (Nat.not_le.2 hlt))] at hfit
        refine hfit.mono ?_
        split
        · exact Nat.le_refl _
        · exact le_asked _ _
      · dsimp only
        rw [wp_ite, wp_pure]
        exact ⟨fun _ => hbad e n m' hn hx hw, fun hne => absurd rfl hne⟩
      · have hsz'' : (sz' : Nat) < 0x80000000 + 1 := sz'.isLt
        have hpages' : pageRoundUp sz' = ((sz' : Nat) + 4096 - 1) / 4096 := rfl
        have hgiveup : Wp calm (pure (e, none)) Q { s with kmem := Load.after m (calls (pageRoundUp sz')) } :=
          (wp_pure _ _ _).2 (hbad e _ _ (by omega) he.exact he.whole)
        rw [if_neg (fun hc => hc.elim hmem (Nat.not_le.2 hlt)), ← hsz'] at hfit
        dsimp only
        rw [wp_ite]
        refine ⟨fun _ => hgiveup, fun hne => ?_⟩
        have hpos : (sz' : Nat) ≠ 0 := fun h0 => hne (Fin.ext h0)
        rw [wp_bind]
        refine calm_loaduvm _ _ _ fun ok hok' => ?_
        dsimp only
        rw [wp_ite]
        refine ⟨fun htrue => ?_, fun _ => hgiveup⟩
        have hgot : ph.filesz.toNat ≤ 4096 * ph.got := hok' htrue
        rw [if_neg (fun hc => hc.elim hpos (Nat.not_lt.2 hgot))] at hfit
        exact ih he hfit hbad hok

/-- The two pages of the stack. -/
theorem calm_stackPages {sz : Size} (h : Grown c g m d (pageRoundUp sz)) (hfit : TablesFit m 0 (asked sz []))
    {hlt : pageRoundUp sz * PGSIZE % (KERNBASE + 1) < KERNBASE + 1} {Q : Pgdir × Size → Kmem → Prop}
    (hbad : ∀ e n m', n ≤ 524288 → Exact c (fun p => g p + e.uses p) m' → Whole e n → Q (e, 0) m')
    (hok : ∀ e (sz : Size), Grown c g m e (pageRoundUp sz) → Q (e, sz) (Load.after m (calls (pageRoundUp sz)))) :
    Wp calm (allocuvm kernelEnd d ⟨pageRoundUp sz * PGSIZE % (KERNBASE + 1), hlt⟩
      (UInt32.ofNat (pageRoundUp sz * PGSIZE % (KERNBASE + 1) + 2 * PGSIZE))) Q (Load.after m (calls (pageRoundUp sz))) := by
  have hsz : (sz : Nat) < 0x80000000 + 1 := sz.isLt
  have hpages : pageRoundUp sz = ((sz : Nat) + 4096 - 1) / 4096 := rfl
  have hmod : pageRoundUp sz * PGSIZE % (KERNBASE + 1) = pageRoundUp sz * 4096 := by
    show pageRoundUp sz * 4096 % (0x80000000 + 1) = _
    omega
  have key : ∀ start : Size, (start : Nat) = pageRoundUp sz * 4096 →
      Wp calm (allocuvm kernelEnd d start (UInt32.ofNat (start + 2 * PGSIZE))) Q
        (Load.after m (calls (pageRoundUp sz))) := by
    intro start hstart
    have hsame : pageRoundUp start = pageRoundUp sz := by
      rw [hstart]
      exact Load.pageRoundUp_pages _
    have hnew : (UInt32.ofNat ((start : Nat) + 2 * PGSIZE)).toNat = (pageRoundUp sz + 2) * 4096 := by
      have hsum : (start : Nat) + 2 * 4096 = (pageRoundUp sz + 2) * 4096 := by omega
      show (UInt32.ofNat ((start : Nat) + 2 * 4096)).toNat = _
      rw [hsum]
      exact Load.toNat_pages (by omega)
    rw [← hsame] at h ⊢
    refine calm_allocuvm h (fun hlt => ?_) hbad fun _ e sz' _ he => hok e sz' he
    have hmax : max (start : Nat) ((pageRoundUp sz + 2) * 4096) = (pageRoundUp sz + 2) * 4096 := by omega
    rw [hnew] at hlt ⊢
    rw [hmax, Load.pageRoundUp_pages]
    unfold asked at hfit
    rwa [if_pos hlt] at hfit
  exact key ⟨_, hlt⟩ hmod

/-- Clearing `PTE_U` takes no page and gives none. -/
theorem calm_clearpteu (ha : a < NPAGES) {Q : Pgdir → State → Prop}
    (hQ : ∀ e, (∀ p, e.uses p = d.uses p) → (∀ y, y < NPAGES → (pteAt e y).isSome = (pteAt d y).isSome) → Q e s) :
    Wp calm (clearpteu d a) Q s := by
  refine ((calm_of_once (wp_clearpteu (d := d) (s := s) a fun e he => he)).and
    (?_ : Wp calm _ (fun e t => t = s ∧ ∀ y, y < NPAGES → (pteAt e y).isSome = (pteAt d y).isSome) s)).mono
    fun e t ⟨he, ht, hp⟩ => ht ▸ hQ e he hp
  rw [clearpteu]
  cases hd : d.table (Pgdir.pdx a) with
  | none => exact (wp_throw _ _ _).2 trivial
  | some pt =>
    refine (wp_pure _ _ _).2 ⟨rfl, fun y hy => ?_⟩
    rw [pteAt_setPte (Or.inl hd) ha hy]
    by_cases hya : y = a
    · rw [if_pos hya, Option.isSome_map, hya]
      unfold pteAt
      rw [hd, Option.bind_some]
    · rw [if_neg hya]

theorem calm_execBad (hx : Exact c (fun p => g p + d.uses p) m) (hw : Whole d n) (hn : n ≤ 524288) {Q : Unit → State → Prop}
    (hQ : ∀ m', Exact c g m' → Q () { s with kmem := m' }) : Wp calm (execBad kernelEnd d) Q { s with kmem := m } := by
  rw [execBad, calm_lift]
  exact calm_freevm hx hw hn hQ

/-- **`exec`** gives back what it took, or the process has a new address space. -/
theorem calm_exec (image : Image) (hfit : image.elf = true → Fits s.kmem (asked 0 image.segments)) {Q : Unit → State → Prop}
    (hkept : ∀ m', (∀ x, m'.freelist.count x = s.kmem.freelist.count x) → Q () { s with kmem := m' })
    (hdone : ∀ d (sz : Size) m', Whole d (pageRoundUp sz) → d.dir ∈ s.kmem.freelist →
      Q () { s with kmem := m', proc := Function.update s.proc pid (some { p with pgdir := d, sz }) }) :
    Wp calm (exec outside kernelEnd pid p image) Q s := by
  have hx₀ : Exact (fun x => s.kmem.freelist.count x) (fun _ => 0) s.kmem := fun x => Nat.add_zero _
  have hback : ∀ m', Exact (fun x => s.kmem.freelist.count x) (fun _ => 0) m' → Q () { s with kmem := m' } := fun m' hm' =>
    hkept m' fun x => hm' x
  rw [exec, wp_ite, wp_pure]
  refine ⟨fun _ => hkept s.kmem fun _ => rfl, fun helf => ?_⟩
  have hfit' := hfit (by simpa using helf)
  rw [wp_bind, calm_lift]
  refine calm_setupkvm (m := s.kmem) hfit'.1 hx₀
    (fun m' hm' => (wp_pure _ _ _).2 (hkept m' fun x => by rw [hm'])) fun d hA hw ht hx => ?_
  dsimp only
  rw [wp_bind]
  have hnew : Grown (fun x => s.kmem.freelist.count x) (fun _ => 0) s.kmem d (pageRoundUp (0 : Size)) := ⟨ht, hA, hw, hx⟩
  refine calm_loadSegments image.segments hnew hfit'.2 (fun e n m' hn hx hw => ?_) fun e sz he hfit => ?_
  · exact calm_execBad hx hw hn hback
  · dsimp only
    rw [wp_bind, calm_lift]
    refine calm_stackPages he hfit (fun e n m' hn hx hw => ?_) fun e sz he => ?_
    · dsimp only
      rw [wp_ite]
      exact ⟨fun _ => calm_execBad hx hw hn hback, fun hne => absurd rfl hne⟩
    · have hsz : (sz : Nat) < 0x80000000 + 1 := sz.isLt
      have hpages : pageRoundUp sz = ((sz : Nat) + 4096 - 1) / 4096 := rfl
      dsimp only
      rw [wp_ite]
      refine ⟨fun _ => calm_execBad he.exact he.whole (by omega) hback, fun _ => ?_⟩
      rw [wp_bind]
      refine calm_clearpteu ?_ fun f huses hptes => ?_
      · show ((sz : Nat) - 2 * 4096) / 4096 < 1048576
        omega
      have hwf : Whole f (pageRoundUp sz) := fun y hy => by
        rw [hptes y hy]
        exact he.whole y hy
      have hxf : Exact (fun x => s.kmem.freelist.count x) (fun p => 0 + f.uses p)
          (Load.after s.kmem (calls (pageRoundUp sz))) :=
        he.exact.congr (fun p => by rw [huses p]) rfl
      have hdir : f.dir ∈ s.kmem.freelist := by
        have hfx : _ + (0 + f.uses f.dir) = s.kmem.freelist.count f.dir := hxf f.dir
        have hone : one f.dir f.dir = 1 := if_pos rfl
        have huses : f.uses f.dir = one f.dir f.dir + ∑ i, PageTable.uses (f.table i) f.dir := rfl
        exact List.count_pos_iff.1 (by omega)
      rw [wp_bind]
      refine (calm_of_once (wp_pushArgs
        (Q := fun r t => r.1 = f ∧ t = { s with kmem := Load.after s.kmem (calls (pageRoundUp sz)) })
        _ fun _ => ⟨rfl, rfl⟩)).mono fun r t hr => ?_
      obtain ⟨f', ok⟩ := r
      obtain ⟨rfl, rfl⟩ := hr
      dsimp only
      rw [wp_ite]
      refine ⟨fun _ => ?_, fun _ => calm_execBad hxf hwf (by omega) hback⟩
      rw [wp_bind, setProc, wp_modify, calm_lift]
      exact calm_any fun _ m' => hdone f' sz m' hwf hdir

/-! ## `proc.c` -/

/-- **`fork`** gives back what it took, or there is a child. -/
theorem calm_fork (hfit : (∃ np, s.proc np = none) → Avail s.kmem 1 → Fits (Load.after s.kmem 1) (pageRoundUp p.sz))
    {Q : Unit → State → Prop}
    (hkept : ∀ m', (∀ x, m'.freelist.count x = s.kmem.freelist.count x) → Q () { s with kmem := m' })
    (hdone : ∀ np q m', s.proc np = none → Whole q.pgdir (pageRoundUp q.sz) →
      Q () { s with kmem := m', proc := Function.update s.proc np (some q) }) :
    Wp calm (fork kernelEnd pid p) Q s := by
  have hx₀ : Exact (fun x => s.kmem.freelist.count x) (fun _ => 0) (Load.after s.kmem 0) := fun x => Nat.add_zero _
  have hA₀ : Avail s.kmem 0 := ⟨Nat.zero_le _, fun i hi => absurd hi (Nat.not_lt_zero i)⟩
  rw [fork, wp_bind, wp_get]
  generalize hfind : List.find? _ _ = r
  cases r with
  | none => exact (wp_pure _ _ _).2 (hkept s.kmem fun _ => rfl)
  | some np =>
    have hnp : s.proc np = none := by simpa using List.find?_some hfind
    dsimp only
    rw [wp_bind, calm_lift]
    refine calm_kalloc (m := s.kmem) hA₀
      (fun _ m' hm' => (wp_pure _ _ _).2 (hkept m' fun x => by rw [hm']; rfl)) fun hA => ?_
    dsimp only
    rw [wp_bind, calm_lift]
    refine calm_copyuvm (m := Load.after s.kmem 1) p.pgdir p.sz (hfit ⟨np, hnp⟩ hA) (hx₀.kalloc hA) (fun m' hm' => ?_)
      fun e hw m' => ?_
    · dsimp only
      rw [calm_lift]
      exact calm_kfree hm' fun m' hm' => hkept m' fun x => hm' x
    · dsimp only
      rw [setProc, wp_modify]
      exact hdone np _ m' hnp hw

/-- What `allocuvm` needs to undo all it did: it gets every page, or it does not get a page before it needed a page table. -/
def GrowFits (m : Kmem) (d : Pgdir) (a n : Nat) : Prop :=
  Avail m (asks d a n) ∨ ∃ k < n, missing d a k = 0 ∧ Avail m k ∧ ¬Avail m (k + 1)

theorem GrowFits.tablesGot (h : GrowFits m d a n) : TablesGot m d a n := by
  intro k hk hmiss hA
  have hnext := asks_succ_of_missing hmiss
  rcases h with h | ⟨j, hj, hzero, hAj, hno⟩
  · exact h.mono (by rw [← hnext]; exact asks_mono hk)
  · exfalso
    rcases Nat.lt_or_ge k j with hkj | hjk
    · -- the page table is missing before the page
      have hle := missing_mono (d := d) (a := a) (Nat.succ_le_of_lt hkj)
      rw [missing, if_pos hmiss] at hle
      omega
    · refine hno (hA.mono ?_)
      unfold asks
      omega

/-- Where a page is not there, no page table was missing. -/
theorem GrowFits.missing_eq (h : GrowFits m d a n) (hk : k < n) (hA : Avail m (asks d a k))
    (hno : ¬Avail m (asks d a k + 1)) : missing d a k = 0 := by
  rcases h with h | ⟨j, hj, hzero, hAj, hnoj⟩
  · refine absurd (h.mono ?_) hno
    have hle := asks_mono (d := d) (a := a) (Nat.succ_le_of_lt hk)
    have : asks d a k + 1 ≤ asks d a (k + 1) := by
      unfold asks
      rw [missing]
      omega
    exact Nat.le_trans this hle
  · rcases Nat.lt_or_ge j k with hjk | hkj
    · refine absurd (hA.mono ?_) hnoj
      unfold asks
      omega
    · exact Nat.le_zero.1 (hzero ▸ missing_mono hkj)

/-- The size that `sbrk` asks for. -/
def askedSize (p : Proc) (n : Int32) : UInt32 := UInt32.ofNat p.sz + n.toUInt32

/-- The new pages of a process: each is mapped for the user, in a page that was free. -/
def Fresh (s : State) (d : Pgdir) (a b : Nat) : Prop :=
  ∀ y, a ≤ y → y < b → ∃ x, pteAt d y = some x ∧ x.user = true ∧ x.page ∈ s.kmem.freelist

/-- The size is 0 only if it was. -/
theorem grown_size {old new : Size} (h : (old : Nat) ≤ new) : (if new = 0 then old else new) = new := by
  split
  · rename_i h0
    rw [h0] at h ⊢
    exact Fin.ext (Nat.le_zero.1 h)
  · rfl

/-- **`growproc`** gives back what it took, or the process has the size it asked for. -/
theorem calm_growproc (hp : s.proc pid = some p) (hw : Whole p.pgdir (pageRoundUp p.sz)) (n : Int32)
    (hfit : 0 < n → (askedSize p n).toNat < KERNBASE → (p.sz : Nat) ≤ (askedSize p n).toNat → GrowFits s.kmem p.pgdir
      (pageRoundUp p.sz) (pageRoundUp (askedSize p n).toNat - pageRoundUp p.sz))
    (hall : n < 0 → (askedSize p n).toNat ≠ 0) {Q : Unit → State → Prop}
    (hkept : ∀ m', (∀ x, m'.freelist.count x = s.kmem.freelist.count x) → Q () { s with kmem := m' })
    (hdone : ∀ d (sz : Size) m', (sz : Nat) = (askedSize p n).toNat → Whole d (pageRoundUp sz) →
      Fresh s d (pageRoundUp p.sz) (pageRoundUp sz) →
      Q () { s with kmem := m', proc := Function.update s.proc pid (some { p with pgdir := d, sz }) }) :
    Wp calm (growproc kernelEnd pid p n) Q s := by
  have hx : Exact (fun x => s.kmem.freelist.count x + p.pgdir.uses x) (fun x => 0 + p.pgdir.uses x) s.kmem := fun x => by
    dsimp only
    omega
  have hsame : Function.update s.proc pid (some p) = s.proc := by rw [← hp, Function.update_eq_self]
  have hback : ∀ m', Exact (fun x => s.kmem.freelist.count x + p.pgdir.uses x) (fun x => 0 + p.pgdir.uses x) m' →
      Q () { s with kmem := m', proc := Function.update s.proc pid (some p) } := fun m' hm' => by
    rw [hsame]
    refine hkept m' fun x => ?_
    have hx : _ + (0 + p.pgdir.uses x) = s.kmem.freelist.count x + p.pgdir.uses x := hm' x
    omega
  have hset : ∀ (d : Pgdir) (sz : Size) (m' : Kmem),
      Q () { s with
        kmem := m'
        proc := Function.update s.proc pid (some { p with pgdir := d, sz := if sz = 0 then p.sz else sz }) } →
      Wp calm (setProc pid (some { p with pgdir := d, sz := if sz = 0 then p.sz else sz })) Q { s with kmem := m' } :=
    fun d sz m' h => by
      rw [setProc, wp_modify]
      exact h
  rw [growproc, wp_ite, wp_pure]
  refine ⟨fun _ => hkept s.kmem fun _ => rfl, fun hne => ?_⟩
  rw [wp_bind, calm_lift, wp_ite]
  refine ⟨fun hpos => ?_, fun hneg => ?_⟩
  · have hfit' := hfit hpos
    unfold askedSize at hfit' hdone
    rw [allocuvm, wp_dite, wp_pure]
    refine ⟨fun _ => hset _ _ _ ?_, fun hlt => ?_⟩
    · rw [if_pos rfl]
      exact hback _ hx
    · have hlt' : (UInt32.ofNat p.sz + n.toUInt32).toNat < KERNBASE := Nat.lt_of_not_le hlt
      rw [wp_ite, wp_pure]
      refine ⟨fun _ => hset _ _ _ ?_, fun hlarge => ?_⟩
      · rw [ite_self]
        exact hback _ hx
      · have hle : (p.sz : Nat) ≤ (UInt32.ofNat p.sz + n.toUInt32).toNat := Nat.le_of_not_lt hlarge
        have hgrow := hfit' hlt' hle
        have hnew : (UInt32.ofNat p.sz + n.toUInt32).toNat < KERNBASE + 1 := Nat.lt_succ_of_lt hlt'
        have hgrown : (p.sz : Nat) ≤ (⟨_, hnew⟩ : Size) := hle
        refine calm_grow (m := s.kmem) hgrown hw hgrow.tablesGot hx
          (fun k e m' hk hA hno hxe _ he => hset _ _ _ ?_) fun e hwe hfresh m' => hset _ _ _ ?_
        · rw [if_pos rfl, he (hgrow.missing_eq hk hA hno)]
          refine hback m' (hxe.congr (fun x => ?_) rfl)
          rw [he (hgrow.missing_eq hk hA hno)]
        · rw [grown_size hle]
          exact hdone e _ m' rfl hwe hfresh
  · have hall' := hall (Int32.lt_of_le_of_ne (Int32.not_lt.1 hneg) hne)
    unfold askedSize at hall' hdone
    by_cases hle : (p.sz : Nat) ≤ (UInt32.ofNat p.sz + n.toUInt32).toNat
    · rw [deallocuvm, dif_pos hle, wp_pure]
      refine hset _ _ _ ?_
      rw [ite_self]
      exact hback _ hx
    · refine calm_deallocuvm hx hw (Nat.le_refl _) (Nat.lt_of_not_le hle) fun e m' sz hsz _ _ hptes => hset _ _ _ ?_
      have hne : ¬sz = 0 := fun h0 => hall' (hsz ▸ congrArg Fin.val h0)
      have hmono : pageRoundUp sz ≤ pageRoundUp p.sz := Load.pageRoundUp_mono (by omega)
      rw [if_neg hne]
      refine hdone e sz m' hsz (fun y hy => ?_) fun y hy hy' => absurd (Nat.lt_of_lt_of_le hy' hmono) (Nat.not_lt.2 hy)
      rw [hptes y hy, ← hsz]
      by_cases h₁ : pageRoundUp sz ≤ y
      · rw [if_pos h₁]
        exact ⟨(fun he => by cases he), fun h₂ => absurd h₂ (Nat.not_lt.2 h₁)⟩
      · rw [if_neg h₁, hw y hy]
        omega

end

end NewXv6.Vm
