import NewXv6.Vm.Exec

/-!
# Where a program does not fit

As long as no page table is missing, what `ProgramFits` asks for is needed: a segment that does not fit, and an argument
that wraps to an address without a page table, end in a panic or in a store that misses the user pages (`wrong`). So the
condition of `exec_safe` leaves out no program that `exec` takes.
-/

namespace NewXv6.Vm.Load

open Lib

variable {kernelEnd : Page} {outside : Outside} {w₀ w : World} {user : Nat → Bool} {d : Pgdir} {n : Nat} {g : Nat → UInt8}

/-- A run panics, or a store misses the user pages, or it ends in what is claimed. -/
def wrong : Contract Stop Event where
  assume := Event.Tame
  ensure _ := True
  fail _ := True

theorem wrong_of_safe {α : Type} {c : Code α} {Q : α → World → Prop} (h : Wp safe c Q w) : Wp wrong c Q w := by
  refine ⟨along_of_ensure fun _ _ => trivial, fun _ => ?_⟩
  have hends := h.2 fun _ _ => trivial
  revert hends
  cases (c w).1 with
  | ok r => exact id
  | error e => exact fun _ => trivial

/-! ## Segments -/

/-- Where the page tables are. -/
theorem Built.tableAt {m : Kmem} (h : Built m user d n) {x : UInt32} {pt : PageTable}
    (hpt : d.table (Pgdir.pdx (x.toNat / PGSIZE)) = some pt) :
    x.toNat / PGSIZE < 1024 * tables n ∨ Pgdir.pdx (x.toNat / PGSIZE) ∈ kmap := by
  by_contra hno
  rw [not_or] at hno
  have hnone : d.table (Pgdir.pdx (x.toNat / PGSIZE)) = none := by
    by_cases hlow : x.toNat / PGSIZE < 524288
    · exact h.absent _ (Nat.le_of_not_lt hno.1) hlow
    · refine h.hole _ ?_ hno.2
      have hx := x.toNat_lt
      have hhigh : ¬x.toNat / 4096 < 524288 := hlow
      show 512 ≤ x.toNat / 4096 / 1024 % 1024
      omega
  rw [hnone] at hpt
  cases hpt

/-- The loop of `loaduvm` comes to byte `k`, whose page is not a user page. -/
theorem wrong_loadFrom (hr : Ready kernelEnd w₀) {file : List UInt8} {ph : ProgHdr} {k : Nat}
    (hk : k < ph.filesz.toNat) (hdvdk : PGSIZE ∣ k) (hfull : ∀ j < k, PGSIZE ∣ j → Full file ph j)
    (hbad : ¬((ph.vaddr + UInt32.ofNat k).toNat / PGSIZE < n ∨
      ((ph.vaddr + UInt32.ofNat k).toNat / PGSIZE < 1024 * tables n ∨
        Pgdir.pdx ((ph.vaddr + UInt32.ofNat k).toNat / PGSIZE) ∈ kmap) ∧
      (chunk file ph.off ph.filesz k).getD [] = [])) (fuel : Nat) : ∀ {i : Nat} {w : World} {g : Nat → UInt8},
    PGSIZE ∣ i → ph.filesz.toNat ≤ i + PGSIZE * fuel → i ≤ k → Loading kernelEnd w₀ w user d n g →
    ∀ {Q : Pgdir × Bool → World → Prop}, Wp wrong (loadFrom outside ph.vaddr file ph.off ph.filesz fuel i d) Q w := by
  induction fuel with
  | zero =>
    intro i w g _ hfuel hik _ Q
    rw [Nat.mul_zero] at hfuel
    omega
  | succ fuel ih =>
    intro i w g hdvd hfuel hik h Q
    have hfuel4 : ph.filesz.toNat ≤ i + 4096 * (fuel + 1) := hfuel
    have hdvd4 : 4096 ∣ i := hdvd
    have hdvdk4 : 4096 ∣ k := hdvdk
    rw [loadFrom, wp_ite, wp_pure]
    refine ⟨fun hlt => ?_, fun hge => absurd (Nat.lt_of_le_of_lt hik hk) hge⟩
    dsimp only
    cases hpt : d.table (Pgdir.pdx ((ph.vaddr + UInt32.ofNat i).toNat / PGSIZE)) with
    | none => exact (wp_throw _ _ _).2 trivial
    | some pt =>
      -- the round reads something
      obtain ⟨data, hchunk, hne⟩ : ∃ data, chunk file ph.off ph.filesz i = some data ∧ data ≠ [] := by
        by_cases hik' : i = k
        · subst hik'
          by_contra hno
          refine hbad (Or.inr ⟨h.built.tableAt hpt, ?_⟩)
          cases hc : chunk file ph.off ph.filesz i with
          | none => rfl
          | some data => exact by_contra fun hne => hno ⟨data, hc, hne⟩
        · obtain ⟨data, hchunk, hlen⟩ := hfull i (by omega) hdvd
          refine ⟨data, hchunk, fun hc => ?_⟩
          have hlen4 : data.length = min (ph.filesz.toNat - i) 4096 := hlen
          rw [hc, List.length_nil] at hlen4
          omega
      dsimp only
      rw [hchunk]
      dsimp only
      by_cases hin : (ph.vaddr + UInt32.ofNat i).toNat / PGSIZE < n
      · have hik' : i < k := by
          refine Nat.lt_of_le_of_ne hik fun hc => ?_
          subst hc
          exact hbad (Or.inl hin)
        have hmax : 0 + data.length ≤ PGSIZE := by
          rw [Nat.zero_add]
          exact chunk_length hchunk
        have hstore := h.store hr hin hmax
        obtain ⟨b, hb, hlen⟩ := hfull i hik' hdvd
        rw [hchunk] at hb
        cases hb
        rw [h.built.userPte h.size hin]
        dsimp only
        rw [wp_bind, wp_modify, wp_bind, wp_pure, wp_ite, wp_pure]
        refine ⟨fun hno => absurd hlen hno, fun _ => ih (Nat.dvd_add hdvd (Nat.dvd_refl _)) ?_ ?_ hstore⟩
        · show _ ≤ i + 4096 + 4096 * fuel
          omega
        · show i + 4096 ≤ k
          omega
      · rw [h.built.userPte_none (Nat.le_of_not_lt hin)]
        dsimp only
        rw [if_neg hne, wp_bind]
        unfold wildStore
        rw [wp_bind, wp_emit]
        exact fun ht => ht.elim

theorem wrong_loaduvm (hr : Ready kernelEnd w₀) {file : List UInt8} {ph : ProgHdr} (hfit : ¬SegmentFits file ph n)
    (h : Loading kernelEnd w₀ w user d n g) {Q : Pgdir × Bool → World → Prop} :
    Wp wrong (loaduvm outside d ph.vaddr file ph.off ph.filesz) Q w := by
  have hfuel : ph.filesz.toNat ≤ 0 + PGSIZE * (ph.filesz.toNat / PGSIZE + 1) := by
    show _ ≤ 0 + 4096 * (ph.filesz.toNat / 4096 + 1)
    omega
  unfold loaduvm
  rw [wp_ite, wp_throw]
  refine ⟨fun _ => trivial, fun hal => ?_⟩
  by_contra hrun
  refine hfit ⟨Decidable.not_not.1 hal, fun k hk hdvd hfull => ?_⟩
  by_contra hbad
  exact hrun (wrong_loadFrom hr hk hdvd hfull hbad _ (Nat.dvd_zero _) hfuel (Nat.zero_le k) h)

/-! ## The program headers -/

/-- No page table is missing. -/
def TablesKept (m : Kmem) : Prop := ∀ t, Avail m (calls (1024 * t) + 1) → Avail m (calls (1024 * t) + 2)

theorem wrong_loadSegments (hr : Ready kernelEnd w₀) (htables : TablesKept w₀.kmem) {file : List UInt8}
    (hfile : file.length < 2 ^ 32) {rest : Nat → Prop} (count : Nat) : ∀ {off : UInt32} {d : Pgdir} {sz : Size} {w : World}
    {g : Nat → UInt8}, ¬SegmentsFit w₀.kmem file rest count off sz →
    Loading kernelEnd w₀ w (fun _ => true) d (pageRoundUp sz) g → ∀ {Q : Pgdir × Option Size → World → Prop},
    (∀ d w (newsz : Size) g, ¬rest newsz → Loading kernelEnd w₀ w (fun _ => true) d (pageRoundUp newsz) g →
      Q (d, some newsz) w) → Wp wrong (loadSegments outside kernelEnd file count off d sz) Q w := by
  induction count with
  | zero =>
    intro off d sz w g hfit h Q hok
    exact (wp_pure _ _ _).2 (hok d w sz g hfit h)
  | succ count ih =>
    intro off d sz w g hfit h Q hok
    unfold SegmentsFit at hfit
    rw [loadSegments]
    cases hb : readAll file off sizeofPh with
    | none =>
      rw [hb] at hfit
      exact absurd trivial hfit
    | some b =>
      rw [hb] at hfit
      dsimp only at hfit ⊢
      generalize ProgHdr.ofBytes b = ph at hfit ⊢
      rw [wp_ite]
      refine ⟨fun htype => ?_, fun htype => ?_⟩
      · rw [if_pos htype] at hfit
        exact ih hfit h hok
      · rw [if_neg htype, Classical.not_imp, Classical.not_imp, Classical.not_imp] at hfit
        obtain ⟨hmem, hlt, hzero, hno⟩ := hfit
        have havail : ¬(Avail w₀.kmem (calls (pageRoundUp (max (sz : Nat) (ph.vaddr + ph.memsz).toNat))) → _) :=
          fun hyes => hno ⟨fun t _ _ => htables t, hyes⟩
        rw [Classical.not_imp] at havail
        obtain ⟨hA, hno⟩ := havail
        rw [wp_ite]
        refine ⟨fun hsmall => absurd hmem (UInt32.not_le.2 hsmall), fun _ => ?_⟩
        rw [wp_bind]
        refine wrong_of_safe (wp_allocuvm hr h (ph.vaddr + ph.memsz) (fun _ _ t _ _ => htables t) (fun hfails d w _ => ?_)
          fun _ d w newsz hnewsz h => ?_)
        · obtain ⟨hle, hfails⟩ := hfails hlt
          rw [Nat.max_eq_right hle] at hA
          exact absurd hA hfails
        · rw [← hnewsz] at hzero hno
          dsimp only
          rw [wp_ite]
          refine ⟨fun hc => absurd (by rw [hc]; rfl) hzero, fun _ => ?_⟩
          rw [wp_bind]
          by_cases hsegment : SegmentFits file ph (pageRoundUp newsz)
          · -- the segment is loaded, and a later one does not fit
            have hlater : ¬(Whole file ph → _) := fun hyes => hno ⟨hsegment, hyes⟩
            rw [Classical.not_imp] at hlater
            obtain ⟨hwhole, hnext⟩ := hlater
            refine wrong_of_safe (wp_loaduvm hr hfile hsegment h (fun hpart _ _ => absurd hwhole hpart) fun w _ _ h => ?_)
            dsimp only
            rw [if_pos rfl]
            exact ih hnext h hok
          · exact wrong_loaduvm hr hsegment h

theorem calls_zero_le (a : Nat) : calls 0 ≤ calls a := by
  unfold calls tables
  omega

/-- Without memory nothing is asked for. -/
theorem segmentsFit_of_not_avail {m : Kmem} {file : List UInt8} {rest : Nat → Prop} (hA : ¬Avail m (calls 0))
    (hrest : ∀ sz, rest sz) (count : Nat) : ∀ {off : UInt32} {sz : Nat}, SegmentsFit m file rest count off sz := by
  induction count with
  | zero => exact hrest _
  | succ count ih =>
    intro off sz
    unfold SegmentsFit
    cases readAll file off sizeofPh with
    | none => trivial
    | some b =>
      dsimp only
      split
      · exact ih
      · intro _ _ _
        exact ⟨fun t _ _ h => absurd (h.mono (Nat.le_succ_of_le (calls_zero_le _))) hA,
          fun h => absurd (h.mono (calls_zero_le _)) hA⟩

/-! ## The arguments -/

theorem wrong_copyout (h : Loading kernelEnd w₀ w user d n g) {va : UInt32} {p : List UInt8} (hva : KERNBASE ≤ va.toNat)
    (htable : Pgdir.pdx (va.toNat / PGSIZE) ∉ kmap) (hp : 0 < p.length) {fuel : Nat} (hfuel : 0 < fuel)
    {Q : Pgdir × Bool → World → Prop} : Wp wrong (copyout outside fuel d va p) Q w := by
  obtain ⟨fuel, rfl⟩ : ∃ f, fuel = f + 1 := ⟨fuel - 1, by omega⟩
  have hne : p ≠ [] := List.ne_nil_of_length_pos hp
  have hnone : d.table (Pgdir.pdx (va.toNat / PGSIZE)) = none := by
    refine h.built.hole _ ?_ htable
    have hva4 : 0x80000000 ≤ va.toNat := hva
    have hlt := va.toNat_lt
    show 512 ≤ va.toNat / 4096 / 1024 % 1024
    omega
  unfold copyout
  rw [if_neg hne]
  dsimp only
  rw [hnone]
  dsimp only
  rw [wp_bind, wp_emit]
  exact fun ht => ht.elim

theorem wrong_pushArgs (hr : Ready kernelEnd w₀) (args : List (List UInt8)) : ∀ {w : World} {g : Nat → UInt8} {sp : UInt32}
    {ustack : List UInt32}, Loading kernelEnd w₀ w (userAt n) d (n + 2) g → (n + 1) * PGSIZE ≤ sp.toNat →
    sp.toNat ≤ (n + 2) * PGSIZE → ustack.length + args.length < MAXARG → (∀ arg ∈ args, arg.length < KERNBASE) →
    ¬ArgsFit n sp args → ∀ {Q : Pgdir × Option UInt32 → World → Prop},
    Wp wrong (pushArgs outside d sp ustack args) Q w := by
  induction args with
  | nil =>
    intro w g sp ustack _ _ _ _ _ hfit
    unfold ArgsFit at hfit
    exact absurd trivial hfit
  | cons arg args ih =>
    intro w g sp ustack h hlow hhigh hcount hlen hfit Q
    have hlow4 : (n + 1) * 4096 ≤ sp.toNat := hlow
    have hhigh4 : sp.toNat ≤ (n + 2) * 4096 := hhigh
    have harg := hlen arg List.mem_cons_self
    have harg4 : arg.length < 0x80000000 := harg
    have hbelow : (below sp arg).toNat = _ := below_toNat harg
    have hlength : (arg ++ [0]).length = arg.length + 1 := List.length_append
    rw [List.length_cons] at hcount
    unfold ArgsFit at hfit
    unfold pushArgs
    rw [if_neg (show ¬MAXARG ≤ ustack.length by omega), wp_bind]
    by_cases hwrap : sp.toNat < arg.length + 1
    · rw [if_pos hwrap] at hfit hbelow
      refine wrong_copyout h ?_ hfit (by omega) (by omega)
      show 0x80000000 ≤ (below sp arg).toNat
      omega
    · rw [if_neg hwrap] at hbelow
      rw [if_neg hwrap, Classical.not_imp] at hfit
      obtain ⟨hin, hnext⟩ := hfit
      have hend : (below sp arg).toNat + (arg ++ [0]).length ≤ (n + 2) * PGSIZE := by
        rw [hlength]
        show _ ≤ (n + 2) * 4096
        omega
      refine wrong_of_safe (wp_copyout_stack h hr hin hend (by omega) (by omega) fun w h => ?_)
      dsimp only
      rw [if_pos rfl]
      refine ih h hin (show _ ≤ (n + 2) * 4096 by omega) ?_ (fun x hx => hlen x (List.mem_cons_of_mem arg hx)) hnext
      rw [List.length_append]
      show ustack.length + 1 + args.length < MAXARG
      omega

/-! ## `exec` -/

theorem wrong_exec (hr : Ready kernelEnd w₀) (htables : TablesKept w₀.kmem) (path : List UInt8) {file : List UInt8}
    {argv : List (List UInt8)} (hargc : argv.length < MAXARG) (hargs : ∀ arg ∈ argv, arg.length < KERNBASE)
    (hfile : file.length < 2 ^ 32) (hfit : ¬ProgramFits w₀.kmem file argv) {Q : Bool → World → Prop} :
    Wp wrong (exec outside kernelEnd path (some file) argv) Q w₀ := by
  unfold ProgramFits at hfit
  rw [not_forall] at hfit
  obtain ⟨b, hfit⟩ := hfit
  rw [Classical.not_imp, Classical.not_imp] at hfit
  obtain ⟨hb, hmagic, hsegments⟩ := hfit
  unfold exec
  dsimp only
  rw [hb]
  dsimp only
  generalize ElfHdr.ofBytes b = elf at hmagic hsegments ⊢
  rw [wp_ite]
  refine ⟨fun hno => absurd hmagic hno, fun _ => ?_⟩
  have hstart : after w₀.kmem 0 = w₀.kmem := rfl
  rw [wp_bind]
  refine wrong_of_safe ((lift_wp _ _).2 ?_)
  rw [← hstart]
  refine wp_setupkvm hr.free (fun hA _ => ?_) fun d hA (hbuilt : Built w₀.kmem (fun _ => true) d 0) hsound => ?_
  · -- without memory the program fits
    refine absurd (segmentsFit_of_not_avail hA (fun sz _ => ⟨fun t _ _ h => ?_, fun h => ?_⟩) _) hsegments
    · exact absurd (h.mono (Nat.le_succ_of_le (calls_zero_le _))) hA
    · exact absurd (h.mono (calls_zero_le _)) hA
  · dsimp only
    rw [wp_bind]
    refine wrong_loadSegments hr htables hfile _ hsegments (loading_start hA hbuilt hsound) fun d w sz g hstack h => ?_
    unfold StackFits at hstack
    rw [Classical.not_imp] at hstack
    obtain ⟨hlt, hstack⟩ := hstack
    have havail : ¬(Avail w₀.kmem (calls (pageRoundUp sz + 2)) → _) := fun hyes => hstack ⟨fun t _ _ => htables t, hyes⟩
    rw [Classical.not_imp] at havail
    obtain ⟨hA, hargsfit⟩ := havail
    have hsize := h.size
    dsimp only
    rw [wp_bind]
    refine wrong_of_safe (wp_stackPages hr h (fun _ t _ _ => htables t) (fun hfails _ _ _ => absurd hA (hfails hlt))
      fun _ d w sz' hsz' h => ?_)
    obtain ⟨hne, hguard, hsp⟩ := stack_size hsz' hsize
    dsimp only
    rw [if_neg hne, wp_bind, hguard]
    refine wrong_of_safe (wp_clearpteu h hr (by omega) fun d h => ?_)
    rw [wp_bind]
    refine wrong_pushArgs hr argv h ?_ ?_ ?_ hargs ?_
    · rw [hsp]
      show (pageRoundUp sz + 1) * 4096 ≤ _
      omega
    · exact Nat.le_of_eq hsp
    · rw [List.length_nil]
      omega
    · rw [hsz']
      exact hargsfit


/-- `exec` does not panic, no store misses the pages it took, and either nothing has changed for the process or the new
image is in place. -/
def Safe (outside : Outside) (kernelEnd : Page) (path : List UInt8) (file : Option (List UInt8)) (argv : List (List UInt8))
    (w : World) : Prop :=
  ∃ ok w' tr, exec outside kernelEnd path file argv w = (.ok (ok, w'), tr) ∧ (∀ e ∈ tr, e.Tame) ∧ Done w file ok w'

/-- **`exec` is safe where the program fits**, and as long as no page table is missing only there. -/
theorem exec_safe {kernelEnd : Page} (outside : Outside) {w : World} (hr : Ready kernelEnd w) (path : List UInt8)
    {file : Option (List UInt8)} {argv : List (List UInt8)} (hargc : argv.length < MAXARG)
    (hargs : ∀ arg ∈ argv, arg.length < KERNBASE) (hfile : ∀ f, file = some f → f.length < 2 ^ 32) :
    ((∀ f, file = some f → ProgramFits w.kmem f argv) → Safe outside kernelEnd path file argv w) ∧
      (TablesKept w.kmem → Safe outside kernelEnd path file argv w → ∀ f, file = some f → ProgramFits w.kmem f argv) := by
  constructor
  · intro hfit
    have h : Wp safe (exec outside kernelEnd path file argv) (Done w file) w := wp_exec hr path hargc hargs hfile hfit
    have halong := h.1.ensure fun _ _ => trivial
    have hends := h.2 fun _ _ => trivial
    rcases hrun : exec outside kernelEnd path file argv w with ⟨r, tr⟩
    rw [hrun] at halong hends
    cases r with
    | error e => exact hends.elim
    | ok r => exact ⟨r.1, r.2, tr, hrun, halong, hends⟩
  · rintro htables ⟨ok, w', tr, hrun, htame, -⟩ f rfl
    by_contra hfit
    have h : Wp wrong (exec outside kernelEnd path (some f) argv) (fun _ _ => False) w :=
      wrong_exec hr htables path hargc hargs (hfile f rfl) hfit
    have hends := h.2
    rw [hrun] at hends
    exact hends htame

/-! ### Two programs -/

/-- A file with one segment of one byte. -/
def oneByte (vaddr : UInt32) : List UInt8 :=
  [0x7F, 0x45, 0x4C, 0x46] ++ List.replicate 24 0 ++ wordBytes 52 ++ List.replicate 12 0 ++ [1, 0] ++ List.replicate 6 0 ++
    wordBytes 1 ++ wordBytes 84 ++ wordBytes vaddr ++ wordBytes 0 ++ wordBytes 1 ++ wordBytes 1 ++ List.replicate 8 0 ++ [42]

/-- A kernel with the free pages 300 to 399. -/
def smallWorld : World where
  kmem := { freelist := List.range' 300 100, fails := fun _ => false }
  mem := fun _ _ => 0
  caller := { pgdir := { dir := 400, table := fun _ => none }, sz := 0, eip := 0, esp := 0, name := [] }

/-- Stores that miss the user pages do nothing. -/
def noOutside : Outside := { store := fun _ s => s, nullPte := fun _ s => some s }

theorem smallWorld_ready : Ready 300 smallWorld := by
  refine ⟨List.nodup_range', fun p hp => ?_, ⟨⟨by decide, by decide, by decide⟩, nofun, nofun⟩⟩
  obtain ⟨hlow, hhigh⟩ := List.mem_range'_1.1 hp
  exact ⟨hlow, Nat.lt_of_lt_of_le hhigh (by decide), Nat.ne_of_gt (Nat.lt_of_lt_of_le (by decide) hlow)⟩

theorem smallWorld_avail {k : Nat} (h : k ≤ 100) : Avail smallWorld.kmem k := by
  refine ⟨?_, fun _ _ => rfl⟩
  show k ≤ (List.range' 300 100).length
  rw [List.length_range']
  exact h

theorem oneByte_fits : ProgramFits smallWorld.kmem (oneByte 0) [[97]] := by
  intro b hb _
  have hb' : readAll (oneByte 0) 0 sizeofElf = some ((oneByte 0).take 52) := by decide +kernel
  cases hb'.symm.trans hb
  have hnum : (ElfHdr.ofBytes ((oneByte 0).take 52)).phnum = 1 := by decide +kernel
  have hoff : (ElfHdr.ofBytes ((oneByte 0).take 52)).phoff = 52 := by decide +kernel
  have hread : readAll (oneByte 0) 52 sizeofPh = some (((oneByte 0).drop 52).take 32) := by decide +kernel
  have hph : ProgHdr.ofBytes (((oneByte 0).drop 52).take 32) = ⟨1, 84, 0, 1, 1⟩ := by decide +kernel
  have hcalls : calls (1024 * 0) = 73 := by decide +kernel
  rw [hnum, hoff]
  unfold SegmentsFit
  rw [hread]
  dsimp only
  rw [hph, if_neg (by decide)]
  intro _ _ _
  refine ⟨fun t _ ht _ => ?_, fun _ => ⟨⟨rfl, fun i hi _ _ => ?_⟩, fun _ _ => ⟨fun t ht ht' => ?_, fun _ => ?_⟩⟩⟩
  · have ht' : 1024 * t < 1 := ht
    obtain rfl : t = 0 := by omega
    rw [hcalls]
    exact smallWorld_avail (by decide)
  · have hi' : i < 1 := hi
    obtain rfl : i = 0 := by omega
    exact Or.inl (by decide)
  · have h1 : 1 ≤ 1024 * t := ht
    have h2 : 1024 * t < 1 + 2 := ht'
    omega
  · unfold ArgsFit
    rw [if_neg (by decide)]
    intro _
    unfold ArgsFit
    trivial

theorem exec_safe_oneByte : Safe noOutside 300 [97] (some (oneByte 0)) [[97]] smallWorld :=
  (exec_safe noOutside smallWorld_ready [97] (by decide) (by decide) (fun _ h => by cases h; decide +kernel)).1
    (fun _ h => by cases h; exact oneByte_fits)

/-- `exec` of that segment at address 1 panics. -/
theorem exec_unaligned : ¬Safe noOutside 300 [97] (some (oneByte 1)) [[97]] smallWorld := by
  rintro ⟨ok, w, tr, hrun, -⟩
  have hpanic : (match (exec noOutside 300 [97] (some (oneByte 1)) [[97]] smallWorld).1 with
      | .error e => decide (e = Stop.loaduvmAligned)
      | .ok _ => false) = true := by decide +kernel
  rw [hrun] at hpanic
  cases hpanic

end NewXv6.Vm.Load
