import NewXv6.Vm.Stack

/-!
# `exec` is safe where the program fits

The stack of the new image is its last page, and the page below it is the guard page: `copyout` of an argument either
stays in the stack or comes to the guard page and fails, unless its start wraps to an address without a page table.
`exec_safe` puts the parts together: where the program fits, `exec` does not panic and stores only into pages it took
from the free list, and either nothing has changed for the process or every segment is in place.
-/

namespace NewXv6.Vm.Load

open Lib

variable {m : Kmem} {kernelEnd : Page} {outside : Outside} {w₀ w : World} {d : Pgdir} {n : Nat} {g : Nat → UInt8}

/-! ## The guard page -/

/-- The pages the process may use, but for the guard page. -/
def userAt (n : Nat) : Nat → Bool := fun a => decide (a ≠ n)

theorem userAt_self : userAt n n = false := decide_eq_false fun h => h rfl

theorem userAt_of_ne {a : Nat} (h : a ≠ n) : userAt n a = true := decide_eq_true h

theorem Built.clearpteu {k : Nat} (h : Built m (fun _ => true) d k) (hn : n < k) (hk : k ≤ 524288) {pt : PageTable}
    (hpt : d.table (Pgdir.pdx n) = some pt) :
    Built m (userAt n) (d.setPte n pt (some ⟨frame m (calls n), false⟩)) k := by
  have htable : (d.setPte n pt (some ⟨frame m (calls n), false⟩)).table = Function.update d.table (Pgdir.pdx n)
      (some { pt with pte := Function.update pt.pte (Pgdir.ptx n) (some ⟨frame m (calls n), false⟩) }) := rfl
  refine ⟨fun a ha => ?_, fun a hka ha t ht => ?_, fun a hka ha => ?_, fun i hi => ?_, fun i hi hik => ?_⟩
  · by_cases han : a = n
    · subst han
      rw [htable, userAt_self]
      exact ⟨_, Function.update_self .., Function.update_self ..⟩
    · obtain ⟨t, ht, hpte⟩ := h.mapped a ha
      rw [htable, userAt_of_ne han]
      by_cases hpd : Pgdir.pdx a = Pgdir.pdx n
      · rw [hpd, hpt] at ht
        cases ht
        have hne : Pgdir.ptx a ≠ Pgdir.ptx n := by
          rw [Ne, ptx_eq_iff]
          rw [pdx_eq_iff (by omega) (by omega)] at hpd
          omega
        refine ⟨_, by rw [hpd]; exact Function.update_self .., ?_⟩
        dsimp only
        rw [Function.update_of_ne hne]
        exact hpte
      · rw [Function.update_of_ne hpd]
        exact ⟨t, ht, hpte⟩
  · rw [htable] at ht
    by_cases hpd : Pgdir.pdx a = Pgdir.pdx n
    · rw [hpd, Function.update_self] at ht
      cases ht
      have hne : Pgdir.ptx a ≠ Pgdir.ptx n := by
        rw [Ne, ptx_eq_iff]
        rw [pdx_eq_iff ha (by omega)] at hpd
        omega
      dsimp only
      rw [Function.update_of_ne hne]
      exact h.unmapped a hka ha pt (by rw [hpd]; exact hpt)
    · rw [Function.update_of_ne hpd] at ht
      exact h.unmapped a hka ha t ht
  · have hnone := h.absent a hka ha
    have hpd : Pgdir.pdx a ≠ Pgdir.pdx n := fun hc => by
      rw [hc, hpt] at hnone
      cases hnone
    rw [htable, Function.update_of_ne hpd]
    exact hnone
  · have hne : i ≠ Pgdir.pdx n := fun hc => pdx_notMem_kmap (by omega) (hc ▸ hi)
    rw [htable, Function.update_of_ne hne]
    exact h.kernel i hi
  · have hne : i ≠ Pgdir.pdx n := fun hc => absurd hi (Nat.not_le.2 (hc ▸ pdx_lt (by omega)))
    rw [htable, Function.update_of_ne hne]
    exact h.hole i hi hik

theorem wp_clearpteu {k : Nat} (h : Loading kernelEnd w₀ w (fun _ => true) d k g) (hr : Ready kernelEnd w₀) (hn : n < k)
    {Q : Pgdir → World → Prop} (hQ : ∀ d, Loading kernelEnd w₀ w (userAt n) d k g → Q d w) :
    Wp safe (clearpteu d n) Q w := by
  obtain ⟨pt, hpt, hpte⟩ := h.built.mapped n hn
  unfold clearpteu
  rw [hpt]
  dsimp only
  rw [hpte, Option.map_some, wp_pure]
  refine hQ _ { h with
    built := h.built.clearpteu hn h.size hpt
    sound := h.sound.setPte (h.sound.table _ pt hpt) (h.sound.page _ pt hpt) fun y hy => ?_ }
  cases hy
  exact hr.free _ (h.frame_mem hn)

/-! ## `copyout` -/

/-- Bytes that end in the stack page and start in it are copied. -/
theorem wp_copyout_stack (h : Loading kernelEnd w₀ w (userAt n) d (n + 2) g) (hr : Ready kernelEnd w₀) {va : UInt32}
    {p : List UInt8} (hva : (n + 1) * PGSIZE ≤ va.toNat) (hend : va.toNat + p.length ≤ (n + 2) * PGSIZE)
    (hp : 0 < p.length) {fuel : Nat} (hfuel : 2 ≤ fuel) {Q : Pgdir × Bool → World → Prop}
    (hQ : ∀ w, Loading kernelEnd w₀ w (userAt n) d (n + 2) (overlay va.toNat p g) → Q (d, true) w) :
    Wp safe (copyout outside fuel d va p) Q w := by
  obtain ⟨fuel, rfl⟩ : ∃ f, fuel = f + 2 := ⟨fuel - 2, by omega⟩
  have hva4 : (n + 1) * 4096 ≤ va.toNat := hva
  have hend4 : va.toNat + p.length ≤ (n + 2) * 4096 := hend
  have hpage : va.toNat / PGSIZE = n + 1 := by
    show va.toNat / 4096 = n + 1
    omega
  have hmod : va.toNat % PGSIZE = va.toNat - (n + 1) * 4096 := by
    show va.toNat % 4096 = _
    omega
  have hmin : min p.length (PGSIZE - va.toNat % PGSIZE) = p.length := by
    rw [hmod]
    show min p.length (4096 - _) = _
    omega
  have hne : p ≠ [] := List.ne_nil_of_length_pos hp
  obtain ⟨pt, hpt, -⟩ := h.built.mapped (n + 1) (by omega)
  have hfits : va.toNat % PGSIZE + p.length ≤ PGSIZE := by
    rw [hmod]
    show _ ≤ 4096
    omega
  have hstore := h.store hr (show n + 1 < n + 2 by omega) hfits
  have hstart : (n + 1) * PGSIZE + va.toNat % PGSIZE = va.toNat := by
    rw [hmod]
    show (n + 1) * 4096 + _ = _
    omega
  rw [hstart] at hstore
  unfold copyout
  rw [if_neg hne]
  dsimp only
  rw [hpage, hpt]
  dsimp only
  rw [h.built.userPte h.size (by omega)]
  dsimp only
  rw [userAt_of_ne (by omega), if_pos rfl, wp_bind, wp_modify, hmin, List.take_length, List.drop_length]
  unfold copyout
  rw [if_pos rfl, wp_pure]
  exact hQ _ hstore

/-- Bytes that start below the stack and end above the start of the guard page are not all copied. -/
theorem wp_copyout_low (hr : Ready kernelEnd w₀) (fuel : Nat) : ∀ {w : World} {g : Nat → UInt8} {va : UInt32}
    {p : List UInt8}, Loading kernelEnd w₀ w (userAt n) d (n + 2) g → va.toNat < (n + 1) * PGSIZE →
    n * PGSIZE < va.toNat + p.length → 0 < p.length → p.length ≤ fuel → ∀ {Q : Pgdir × Bool → World → Prop},
    (∀ w, Failed kernelEnd w₀ w d → Q (d, false) w) → Wp safe (copyout outside fuel d va p) Q w := by
  induction fuel with
  | zero =>
    intro w g va p _ _ _ hp hfuel
    omega
  | succ fuel ih =>
    intro w g va p h hva hend hp hfuel Q hbad
    have hva4 : va.toNat < (n + 1) * 4096 := hva
    have hend4 : n * 4096 < va.toNat + p.length := hend
    have hsize := h.size
    have hne : p ≠ [] := List.ne_nil_of_length_pos hp
    have hpage : va.toNat / PGSIZE < n + 2 := by
      show va.toNat / 4096 < _
      omega
    obtain ⟨pt, hpt, -⟩ := h.built.mapped _ hpage
    unfold copyout
    rw [if_neg hne]
    dsimp only
    rw [hpt]
    dsimp only
    rw [h.built.userPte h.size hpage]
    dsimp only
    by_cases hguard : va.toNat / PGSIZE = n
    · -- the guard page
      rw [hguard, userAt_self, if_neg Bool.false_ne_true, wp_pure]
      exact hbad w h.failed
    · have hlow : va.toNat / 4096 < n := by
        have : ¬va.toNat / 4096 = n := hguard
        omega
      have hmin : min p.length (PGSIZE - va.toNat % PGSIZE) = 4096 - va.toNat % 4096 := by
        show min p.length (4096 - va.toNat % 4096) = _
        omega
      have hnext : (UInt32.ofNat ((va.toNat / PGSIZE + 1) * PGSIZE)).toNat = (va.toNat / 4096 + 1) * 4096 := by
        rw [UInt32.toNat_ofNat']
        show (va.toNat / 4096 + 1) * 4096 % 2 ^ 32 = _
        omega
      have hfits : va.toNat % PGSIZE + (p.take (min p.length (PGSIZE - va.toNat % PGSIZE))).length ≤ PGSIZE := by
        rw [List.length_take, hmin]
        show va.toNat % 4096 + _ ≤ 4096
        omega
      have hstore := h.store hr hpage hfits
      rw [userAt_of_ne hguard, if_pos rfl, wp_bind, wp_modify]
      refine ih hstore ?_ ?_ ?_ ?_ hbad
      · rw [hnext]
        exact Nat.mul_lt_mul_of_pos_right (Nat.succ_lt_succ hlow) (by decide)
      · rw [hnext, List.length_drop, hmin]
        show n * 4096 < _
        omega
      · rw [List.length_drop, hmin]
        omega
      · rw [List.length_drop, hmin]
        omega

/-- Bytes for a kernel address are not copied. -/
theorem wp_copyout_kernel (h : Loading kernelEnd w₀ w (userAt n) d (n + 2) g) {va : UInt32} {p : List UInt8}
    (hva : KERNBASE ≤ va.toNat) (htable : Pgdir.pdx (va.toNat / PGSIZE) ∈ kmap) (hp : 0 < p.length) {fuel : Nat}
    (hfuel : 0 < fuel) {Q : Pgdir × Bool → World → Prop} (hbad : ∀ w, Failed kernelEnd w₀ w d → Q (d, false) w) :
    Wp safe (copyout outside fuel d va p) Q w := by
  obtain ⟨fuel, rfl⟩ : ∃ f, fuel = f + 1 := ⟨fuel - 1, by omega⟩
  have hne : p ≠ [] := List.ne_nil_of_length_pos hp
  obtain ⟨pt, hpt⟩ := Option.isSome_iff_exists.1 (h.built.kernel _ htable)
  have hhigh : userPte d (va.toNat / PGSIZE) = none := by
    refine h.built.userPte_none ?_
    have hva4 : 0x80000000 ≤ va.toNat := hva
    have := h.size
    show n + 2 ≤ va.toNat / 4096
    omega
  unfold copyout
  rw [if_neg hne]
  dsimp only
  rw [hpt]
  dsimp only
  rw [hhigh]
  exact (wp_pure _ _ _).2 (hbad w h.failed)

/-! ## The arguments -/

theorem and_not_three (x : Nat) (hx : x < 2 ^ 32) : x &&& 4294967292 = x / 4 * 4 := by
  have hmask : (4294967292 : Nat) = (2 ^ 30 - 1) <<< 2 := by decide
  have hdiv : x / 4 * 4 = (x >>> 2) <<< 2 := by
    rw [Nat.shiftRight_eq_div_pow, Nat.shiftLeft_eq]
  rw [hmask, hdiv]
  refine Nat.eq_of_testBit_eq fun i => ?_
  rw [Nat.testBit_and, Nat.testBit_shiftLeft, Nat.testBit_shiftLeft, Nat.testBit_two_pow_sub_one, Nat.testBit_shiftRight]
  by_cases hi : 2 ≤ i
  · have hsum : 2 + (i - 2) = i := by omega
    rw [hsum]
    by_cases hlt : i - 2 < 30
    · simp [hi, hlt]
    · have hzero : x.testBit i = false := Nat.testBit_lt_two_pow (Nat.lt_of_lt_of_le hx (Nat.pow_le_pow_right (by decide) (by omega)))
      simp [hzero]
  · simp [hi]

/-- Where the stack pointer goes. -/
theorem below_toNat {sp : UInt32} {arg : List UInt8} (harg : arg.length < KERNBASE) : (below sp arg).toNat =
    (if sp.toNat < arg.length + 1 then sp.toNat + 2 ^ 32 - (arg.length + 1) else sp.toNat - (arg.length + 1)) / 4 * 4 := by
  have harg' : arg.length < 0x80000000 := harg
  have hsp := sp.toNat_lt
  have hmask : (~~~(3 : UInt32)).toNat = 4294967292 := by decide
  unfold below
  rw [UInt32.toNat_and, hmask, and_not_three _ (UInt32.toNat_lt _)]
  congr 2
  rw [UInt32.toNat_sub, UInt32.toNat_ofNat']
  split
  · omega
  · omega

/-- Where an argument does not fit between address 0 and the stack pointer, there is a page table at its start. -/
def ArgsFit (n : Nat) : UInt32 → List (List UInt8) → Prop
  | _, [] => True
  | sp, arg :: args =>
    if sp.toNat < arg.length + 1 then Pgdir.pdx ((below sp arg).toNat / PGSIZE) ∈ kmap
    else (n + 1) * PGSIZE ≤ (below sp arg).toNat → ArgsFit n (below sp arg) args

/-- Bytes in the stack page are not those of another page. -/
theorem overlay_stack {start x : Nat} {data : List UInt8} (hstart : (n + 1) * PGSIZE ≤ start)
    (hend : start + data.length ≤ (n + 2) * PGSIZE) (hx : x / PGSIZE ≠ n + 1) : overlay start data g x = g x := by
  have hstart4 : (n + 1) * 4096 ≤ start := hstart
  have hend4 : start + data.length ≤ (n + 2) * 4096 := hend
  have hx4 : x / 4096 ≠ n + 1 := hx
  unfold overlay
  exact if_neg (by omega)

theorem wp_pushArgs (hr : Ready kernelEnd w₀) (args : List (List UInt8)) : ∀ {w : World} {g : Nat → UInt8} {sp : UInt32}
    {ustack : List UInt32} {done : List (List UInt8)}, Loading kernelEnd w₀ w (userAt n) d (n + 2) g →
    (n + 1) * PGSIZE ≤ sp.toNat → Pushed g ((n + 2) * PGSIZE) sp.toNat ustack done →
    ustack.length + args.length < MAXARG → (∀ arg ∈ args, arg.length < KERNBASE) →
    ArgsFit n sp args → ∀ {Q : Pgdir × Option UInt32 → World → Prop}, (∀ w, Failed kernelEnd w₀ w d → Q (d, none) w) →
    (∀ w sp g', (∀ x, x / PGSIZE ≠ n + 1 → g' x = g x) →
      (∃ ptrs, Framed g' ((n + 1) * PGSIZE) ((n + 2) * PGSIZE) sp (done ++ args) ptrs) →
      Loading kernelEnd w₀ w (userAt n) d (n + 2) g' → Q (d, some sp) w) →
    Wp safe (pushArgs outside d sp ustack args) Q w := by
  induction args with
  | nil =>
    intro w g sp ustack done h hlow hpushed hcount _ _ Q hbad hok
    have hhigh := hpushed.le
    have hlow4 : (n + 1) * 4096 ≤ sp.toNat := hlow
    have hhigh4 : sp.toNat ≤ (n + 2) * 4096 := hhigh
    have hcount4 : ustack.length + 0 < 32 := hcount
    have hsub : (sp - UInt32.ofNat ((3 + ustack.length + 1) * 4)).toNat = sp.toNat - (3 + ustack.length + 1) * 4 := by
      rw [UInt32.toNat_sub, UInt32.toNat_ofNat']
      have := sp.toNat_lt
      omega
    have hargv : sp - UInt32.ofNat ((ustack.length + 1) * 4) = sp - UInt32.ofNat ((3 + ustack.length + 1) * 4) + 12 := by
      have hsum : UInt32.ofNat ((3 + ustack.length + 1) * 4) = UInt32.ofNat ((ustack.length + 1) * 4) + 12 := by
        rw [show (3 + ustack.length + 1) * 4 = (ustack.length + 1) * 4 + 12 by omega, UInt32.ofNat_add]
        rfl
      rw [hsum]
      grind
    have hlength : ((frameWords (sp - UInt32.ofNat ((3 + ustack.length + 1) * 4)) ustack).flatMap wordBytes).length =
        (3 + ustack.length + 1) * 4 := by
      rw [length_words, length_frameWords]
    unfold pushArgs
    rw [wp_bind, hargv]
    have hframe : (n + 1) * PGSIZE ≤ (sp - UInt32.ofNat ((3 + ustack.length + 1) * 4)).toNat →
        Framed (overlay (sp - UInt32.ofNat ((3 + ustack.length + 1) * 4)).toNat
          ((frameWords (sp - UInt32.ofNat ((3 + ustack.length + 1) * 4)) ustack).flatMap wordBytes) g)
          ((n + 1) * PGSIZE) ((n + 2) * PGSIZE) (sp - UInt32.ofNat ((3 + ustack.length + 1) * 4)) done ustack :=
      fun hlow => hpushed.frame hlow (by omega)
    unfold frameWords at hlength hframe
    generalize ([0xffffffff, UInt32.ofNat ustack.length, sp - UInt32.ofNat ((3 + ustack.length + 1) * 4) + 12] ++ ustack ++
        [0]).flatMap wordBytes = words at hlength hframe ⊢
    by_cases hin : (n + 1) * 4096 ≤ sp.toNat - (3 + ustack.length + 1) * 4
    · have hend : (sp - UInt32.ofNat ((3 + ustack.length + 1) * 4)).toNat + words.length ≤ (n + 2) * PGSIZE := by
        rw [hsub, hlength]
        show _ ≤ (n + 2) * 4096
        omega
      refine wp_copyout_stack h hr (by rw [hsub]; exact hin) hend (by omega) (by omega) fun w h => ?_
      have hin' : (n + 1) * PGSIZE ≤ (sp - UInt32.ofNat ((3 + ustack.length + 1) * 4)).toNat := by
        rw [hsub]
        exact hin
      refine (wp_pure _ _ _).2 (hok w _ _ (fun x hx => overlay_stack hin' hend hx) ⟨ustack, ?_⟩ h)
      rw [List.append_nil]
      exact hframe hin'
    · refine wp_copyout_low hr _ h ?_ ?_ (by omega) (by omega) fun w hf => (wp_pure _ _ _).2 (hbad w hf)
      · rw [hsub]
        show _ < (n + 1) * 4096
        omega
      · rw [hsub, hlength]
        show n * 4096 < _
        omega
  | cons arg args ih =>
    intro w g sp ustack done h hlow hpushed hcount hlen hfit Q hbad hok
    have hlow4 : (n + 1) * 4096 ≤ sp.toNat := hlow
    have hhigh4 : sp.toNat ≤ (n + 2) * 4096 := hpushed.le
    have harg := hlen arg List.mem_cons_self
    have harg4 : arg.length < 0x80000000 := harg
    have hsize := h.size
    have hbelow : (below sp arg).toNat = _ := below_toNat harg
    have hlength : (arg ++ [0]).length = arg.length + 1 := List.length_append
    rw [List.length_cons] at hcount
    unfold ArgsFit at hfit
    unfold pushArgs
    rw [if_neg (show ¬MAXARG ≤ ustack.length by omega), wp_bind]
    by_cases hwrap : sp.toNat < arg.length + 1
    · -- the stack pointer wraps
      rw [if_pos hwrap] at hfit hbelow
      refine wp_copyout_kernel h ?_ hfit (by omega) (by omega) fun w hf => ?_
      · show 0x80000000 ≤ (below sp arg).toNat
        omega
      · dsimp only
        rw [if_neg Bool.false_ne_true, wp_pure]
        exact hbad w hf
    · rw [if_neg hwrap] at hfit hbelow
      by_cases hin : (n + 1) * 4096 ≤ (below sp arg).toNat
      · have hend : (below sp arg).toNat + (arg ++ [0]).length ≤ (n + 2) * PGSIZE := by
          rw [hlength]
          show _ ≤ (n + 2) * 4096
          omega
        refine wp_copyout_stack h hr hin hend (by omega) (by omega) fun w h => ?_
        dsimp only
        rw [if_pos rfl]
        refine ih h hin (hpushed.push (by omega) (by omega)) ?_ (fun x hx => hlen x (List.mem_cons_of_mem arg hx)) (hfit hin)
          hbad fun w sp g' hg' hframed h => hok w sp g' (fun x hx => (hg' x hx).trans (overlay_stack hin hend hx)) ?_ h
        · rw [List.length_append]
          show ustack.length + 1 + args.length < MAXARG
          omega
        · rw [List.append_assoc] at hframed
          exact hframed
      · refine wp_copyout_low hr _ h (Nat.lt_of_not_le hin) ?_ (by omega) (by omega) fun w hf => ?_
        · rw [hlength]
          show n * 4096 < _
          omega
        · dsimp only
          rw [if_neg Bool.false_ne_true, wp_pure]
          exact hbad w hf

/-! ## `exec` -/

theorem toNat_pages {k : Nat} (h : k ≤ 524288 + 2) : (UInt32.ofNat (k * 4096)).toNat = k * 4096 := by
  rw [UInt32.toNat_ofNat']
  exact Nat.mod_eq_of_lt (by omega)

theorem pageRoundUp_pages (k : Nat) : pageRoundUp (k * 4096) = k := by
  show (k * 4096 + 4096 - 1) / 4096 = k
  omega

/-- `allocuvm` of the guard page and the stack. -/
theorem wp_stackPages (hr : Ready kernelEnd w₀) {hlt : n * PGSIZE % (KERNBASE + 1) < KERNBASE + 1}
    (h : Loading kernelEnd w₀ w (fun _ => true) d n g)
    (htables : (n + 2) * PGSIZE < KERNBASE → TablesFit w₀.kmem n (n + 2)) {Q : Pgdir × Size → World → Prop}
    (hbad : ((n + 2) * PGSIZE < KERNBASE → ¬Avail w₀.kmem (calls (n + 2))) → ∀ d w, Failed kernelEnd w₀ w d → Q (d, 0) w)
    (hok : (n + 2) * PGSIZE < KERNBASE → ∀ d w (sz : Size), (sz : Nat) = (n + 2) * 4096 →
      Loading kernelEnd w₀ w (fun _ => true) d (n + 2) g → Q (d, sz) w) :
    Wp safe (allocuvm kernelEnd d ⟨n * PGSIZE % (KERNBASE + 1), hlt⟩
      (UInt32.ofNat (n * PGSIZE % (KERNBASE + 1) + 2 * PGSIZE))) Q w := by
  have hsize := h.size
  have hmod : n * PGSIZE % (KERNBASE + 1) = n * 4096 := by
    show n * 4096 % (0x80000000 + 1) = _
    omega
  have hnew : (UInt32.ofNat (n * PGSIZE % (KERNBASE + 1) + 2 * PGSIZE)).toNat = (n + 2) * 4096 := by
    have hsum : n * PGSIZE % (KERNBASE + 1) + 2 * PGSIZE = (n + 2) * 4096 := by
      rw [hmod]
      exact (Nat.add_mul _ _ _).symm
    rw [hsum]
    exact toNat_pages (Nat.add_le_add_right hsize 2)
  have hn : pageRoundUp (n * PGSIZE % (KERNBASE + 1)) = n := by rw [hmod, pageRoundUp_pages]
  have h' : Loading kernelEnd w₀ w (fun _ => true) d (pageRoundUp ((⟨n * PGSIZE % (KERNBASE + 1), hlt⟩ : Size) : Nat)) g := by
    show Loading kernelEnd w₀ w (fun _ => true) d (pageRoundUp (n * PGSIZE % (KERNBASE + 1))) g
    rw [hn]
    exact h
  refine wp_allocuvm hr h' _ (fun hlt _ => ?_) (fun hfails => ?_)
    fun hlt d w sz hsz h => ?_
  · rw [hnew] at hlt ⊢
    show TablesFit w₀.kmem (pageRoundUp (n * PGSIZE % (KERNBASE + 1))) _
    rw [hn, pageRoundUp_pages]
    exact htables hlt
  · rw [hnew, pageRoundUp_pages] at hfails
    exact hbad fun hlt => (hfails hlt).2
  · rw [hnew] at hlt hsz
    have hsz' : (sz : Nat) = (n + 2) * 4096 := by
      rw [hsz]
      show max (n * PGSIZE % (KERNBASE + 1)) _ = _
      rw [hmod]
      exact Nat.max_eq_right (Nat.mul_le_mul_right _ (Nat.le_add_right n 2))
    rw [hsz', pageRoundUp_pages] at h
    exact hok hlt d w sz hsz' h

/-- The size of the image, the guard page and the stack pointer. -/
theorem stack_size {sz : Size} (h : (sz : Nat) = (n + 2) * 4096) (hn : n ≤ 524288) : ¬sz = 0 ∧
    ((sz : Nat) - 2 * PGSIZE) / PGSIZE = n ∧ (UInt32.ofNat (sz : Nat)).toNat = (n + 2) * 4096 := by
  refine ⟨fun hc => ?_, ?_, ?_⟩
  · have hzero : ((0 : Size) : Nat) = 0 := rfl
    rw [hc, hzero] at h
    omega
  · rw [h]
    show ((n + 2) * 4096 - 2 * 4096) / 4096 = n
    omega
  · rw [h]
    exact toNat_pages (Nat.add_le_add_right hn 2)

/-- The page tables of the stack are there, and its arguments fit; `sz` is the size the segments end with. -/
def StackFits (m : Kmem) (argv : List (List UInt8)) (sz : Nat) : Prop :=
  (pageRoundUp sz + 2) * PGSIZE < KERNBASE → TablesFit m (pageRoundUp sz) (pageRoundUp sz + 2) ∧
    (Avail m (calls (pageRoundUp sz + 2)) →
      ArgsFit (pageRoundUp sz) (UInt32.ofNat ((pageRoundUp sz + 2) * PGSIZE)) argv)

/-- **The program fits.** -/
def ProgramFits (m : Kmem) (file : List UInt8) (argv : List (List UInt8)) : Prop :=
  ∀ b, readAll file 0 sizeofElf = some b → (ElfHdr.ofBytes b).magic = ELF_MAGIC →
    SegmentsFit m file (StackFits m argv) (ElfHdr.ofBytes b).phnum (ElfHdr.ofBytes b).phoff 0

/-- The byte the process has at a virtual address. -/
def userByte (d : Pgdir) (mem : Mem) (x : Nat) : Option UInt8 :=
  (userPte d (x / PGSIZE)).bind fun p => if p.user then some (mem p.page (x % PGSIZE)) else none

/-- The segments that a file asks for. -/
def loadable (file : List UInt8) : List ProgHdr :=
  match readAll file 0 sizeofElf with
  | none => []
  | some b => segments file (ElfHdr.ofBytes b).phnum (ElfHdr.ofBytes b).phoff

/-- The image is in place: its pages are from the free list, and each byte of a segment is at its address, unless a later
segment covers it. -/
structure Installed (w₀ w : World) (file : List UInt8) : Prop where
  fresh : ∀ a p, userPte w.caller.pgdir a = some p → p.page ∈ w₀.kmem.freelist
  placed : ∀ before ph later, loadable file = before ++ ph :: later → ∀ k < ph.filesz.toNat,
    (∀ q ∈ later, ¬(q.vaddr.toNat ≤ ph.vaddr.toNat + k ∧ ph.vaddr.toNat + k < q.vaddr.toNat + q.filesz.toNat)) →
    ph.off.toNat + k < file.length ∧ ph.vaddr.toNat + k < w.caller.sz ∧
      userByte w.caller.pgdir w.mem (ph.vaddr.toNat + k) = some (file.getD (ph.off.toNat + k) 0)

/-- A byte that no segment covers is what it was. -/
theorem layout_of_notCovered {file : List UInt8} {x : Nat} (phs : List ProgHdr) : ∀ {g : Nat → UInt8},
    (∀ q ∈ phs, ¬(q.vaddr.toNat ≤ x ∧ x < q.vaddr.toNat + q.filesz.toNat)) → layout file phs g x = g x := by
  induction phs with
  | nil => exact fun _ => rfl
  | cons q phs ih =>
    intro g h
    show layout file phs (place file q q.filesz.toNat g) x = g x
    rw [ih fun r hr => h r (List.mem_cons_of_mem q hr)]
    unfold place
    rw [Nat.min_self]
    exact if_neg (h q List.mem_cons_self)

theorem layout_byte {file : List UInt8} {before later : List ProgHdr} {ph : ProgHdr} {k : Nat} (hk : k < ph.filesz.toNat)
    (h : ∀ q ∈ later, ¬(q.vaddr.toNat ≤ ph.vaddr.toNat + k ∧ ph.vaddr.toNat + k < q.vaddr.toNat + q.filesz.toNat)) :
    layout file (before ++ ph :: later) g (ph.vaddr.toNat + k) = file.getD (ph.off.toNat + k) 0 := by
  have hsplit : layout file (before ++ ph :: later) g =
      layout file later (place file ph ph.filesz.toNat (layout file before g)) := by
    unfold layout
    rw [List.foldl_append, List.foldl_cons]
  rw [hsplit, layout_of_notCovered later h]
  unfold place
  rw [Nat.min_self, if_pos ⟨Nat.le_add_right _ _, Nat.add_lt_add_left hk _⟩, Nat.add_sub_cancel_left]

/-- What `exec` leaves. -/
def Done (w₀ : World) (file : Option (List UInt8)) (ok : Bool) (w : World) : Prop :=
  (∀ p, p ∉ w₀.kmem.freelist → w.mem p = w₀.mem p) ∧ (ok = false → w.caller = w₀.caller) ∧
    (ok = true → ∃ f, file = some f ∧ Installed w₀ w f)

theorem wp_bad {Q : Bool → World → Prop} (h : Failed kernelEnd w₀ w d)
    (hQ : ∀ w, (∀ p, p ∉ w₀.kmem.freelist → w.mem p = w₀.mem p) → w.caller = w₀.caller → Q false w) :
    Wp safe (bad kernelEnd d) Q w := by
  unfold bad
  rw [wp_bind, lift_wp]
  exact wp_freevm h.sound fun kmem => (wp_pure _ _ _).2 (hQ _ h.kept h.caller)

/-- After `setupkvm` no user page is mapped. -/
theorem loading_start (hA : Avail w₀.kmem (calls 0)) (hb : Built w₀.kmem (fun _ => true) d 0) (hd : Sound kernelEnd d) :
    Loading kernelEnd w₀ { w₀ with kmem := after w₀.kmem (calls 0) } (fun _ => true) d (pageRoundUp ((0 : Size) : Nat))
      (fun _ => 0) :=
  ⟨rfl, hA, Nat.zero_le _, hb, hd, fun _ hx => absurd hx (Nat.not_lt_zero _), fun _ _ => rfl, fun _ _ => rfl, rfl⟩

/-- **`exec`** of a program that fits: it gives up, or the segments and the arguments are in place. -/
theorem wp_exec_image (hr : Ready kernelEnd w₀) (path : List UInt8) {file : Option (List UInt8)} {argv : List (List UInt8)}
    (hargc : argv.length < MAXARG) (hargs : ∀ arg ∈ argv, arg.length < KERNBASE)
    (hfile : ∀ f, file = some f → f.length < 2 ^ 32) (hfit : ∀ f, file = some f → ProgramFits w₀.kmem f argv)
    {Q : Bool → World → Prop}
    (hbad : ∀ w, (∀ p, p ∉ w₀.kmem.freelist → w.mem p = w₀.mem p) → w.caller = w₀.caller → Q false w)
    (hok : ∀ f, file = some f → ∀ (n : Nat) (sz : Size) d w g c, (sz : Nat) = (n + 2) * 4096 → c.pgdir = d → c.sz = sz →
      (∀ ph ∈ loadable f, Within f ph n) → (∀ x, x / PGSIZE ≠ n + 1 → g x = layout f (loadable f) (fun _ => 0) x) →
      (∃ ptrs, Framed g ((n + 1) * PGSIZE) ((n + 2) * PGSIZE) c.esp argv ptrs) →
      Loading kernelEnd w₀ w (userAt n) d (n + 2) g → ∀ kmem, Q true { w with kmem, caller := c }) :
    Wp safe (exec outside kernelEnd path file argv) Q w₀ := by
  have hnothing : Q false w₀ := hbad w₀ (fun _ _ => rfl) rfl
  unfold exec
  cases file with
  | none => exact (wp_pure _ _ _).2 hnothing
  | some file =>
    dsimp only
    cases hb : readAll file 0 sizeofElf with
    | none => exact (wp_pure _ _ _).2 hnothing
    | some b =>
      have hfit' := hfit file rfl b hb
      have hloadable : loadable file = segments file (ElfHdr.ofBytes b).phnum (ElfHdr.ofBytes b).phoff := by
        unfold loadable
        rw [hb]
      have hok' := hok file rfl
      rw [hloadable] at hok'
      dsimp only
      generalize ElfHdr.ofBytes b = elf at hfit' hok' ⊢
      rw [wp_ite, wp_pure]
      refine ⟨fun _ => hnothing, fun hmagic => ?_⟩
      have hsegments := hfit' (Decidable.not_not.1 hmagic)
      have hstart : after w₀.kmem 0 = w₀.kmem := rfl
      rw [wp_bind, lift_wp, ← hstart]
      refine wp_setupkvm hr.free (fun _ kmem => (wp_pure _ _ _).2 (hbad _ (fun _ _ => rfl) rfl))
        fun d hA (hbuilt : Built w₀.kmem (fun _ => true) d 0) hsound => ?_
      dsimp only
      rw [wp_bind]
      refine wp_loadSegments hr (hfile file rfl) _ hsegments (loading_start hA hbuilt hsound) (fun d w hf => wp_bad hf hbad)
        fun d w sz hstack _ hin h => ?_
      have hsize := h.size
      dsimp only
      rw [wp_bind]
      refine wp_stackPages hr h (fun hlt => (hstack hlt).1) (fun _ d w hf => ?_) fun hlt d w sz' hsz' h => ?_
      · dsimp only
        rw [if_pos rfl]
        exact wp_bad hf hbad
      · have hargsfit := (hstack hlt).2 h.avail
        obtain ⟨hne, hguard, hsp⟩ := stack_size hsz' hsize
        dsimp only
        rw [if_neg hne, wp_bind, hguard]
        refine wp_clearpteu h hr (by omega) fun d h => ?_
        rw [wp_bind]
        have htop : (UInt32.ofNat (sz' : Nat)).toNat = (pageRoundUp sz + 2) * PGSIZE := hsp
        have hpushed : Pushed (layout file (segments file elf.phnum elf.phoff) fun _ => 0) ((pageRoundUp sz + 2) * PGSIZE)
            (UInt32.ofNat (sz' : Nat)).toNat [] [] := by
          rw [htop]
          exact .start _ (show (pageRoundUp sz + 2) * 4096 % 4 = 0 by omega)
        refine wp_pushArgs hr argv h ?_ hpushed ?_ hargs ?_ (fun w hf => wp_bad hf hbad) fun w sp g' hg' hframed h => ?_
        · rw [hsp]
          show (pageRoundUp sz + 1) * 4096 ≤ _
          omega
        · rw [List.length_nil]
          omega
        · rw [hsz']
          exact hargsfit
        · dsimp only
          rw [wp_bind, wp_get, wp_bind, wp_modify, wp_bind, lift_wp, h.caller]
          exact wp_freevm hr.caller fun kmem => (wp_pure _ _ _).2
            (hok' _ sz' d w g' { pgdir := d, sz := sz', eip := elf.entry, esp := sp, name := (last path).take 15 } hsz' rfl rfl
              hin hg' hframed h kmem)

theorem wp_exec (hr : Ready kernelEnd w₀) (path : List UInt8) {file : Option (List UInt8)} {argv : List (List UInt8)}
    (hargc : argv.length < MAXARG) (hargs : ∀ arg ∈ argv, arg.length < KERNBASE)
    (hfile : ∀ f, file = some f → f.length < 2 ^ 32) (hfit : ∀ f, file = some f → ProgramFits w₀.kmem f argv) :
    Wp safe (exec outside kernelEnd path file argv) (Done w₀ file) w₀ := by
  refine wp_exec_image hr path hargc hargs hfile hfit (fun w hkept hcaller => ⟨hkept, fun _ => hcaller, nofun⟩)
    fun f hf n sz d w g c hsz hd hcsz hin hg _ h kmem => ⟨h.kept, nofun, fun _ => ⟨f, hf, ?_, ?_⟩⟩
  · intro a p hp
    dsimp only at hp
    rw [hd] at hp
    by_cases ha : a < n + 2
    · rw [h.built.userPte h.size ha] at hp
      cases hp
      exact h.frame_mem ha
    · rw [h.built.userPte_none (Nat.le_of_not_lt ha)] at hp
      cases hp
  · intro before ph later hsplit k hk hlater
    have hwithin := hin ph (by rw [hsplit]; exact List.mem_append_right _ List.mem_cons_self)
    obtain ⟨hend, hoff⟩ := hwithin.resolve_left (by omega)
    have hend4 : ph.vaddr.toNat + ph.filesz.toNat ≤ n * 4096 := hend
    have hx : (ph.vaddr.toNat + k) / PGSIZE < n := by
      show (ph.vaddr.toNat + k) / 4096 < _
      omega
    have hx' : (ph.vaddr.toNat + k) / PGSIZE < n + 2 := by omega
    dsimp only
    rw [hcsz, hd]
    refine ⟨by omega, by omega, ?_⟩
    have hbyte := h.bytes _ hx'
    rw [hg _ (by omega), hsplit, layout_byte hk hlater] at hbyte
    unfold userByte
    rw [h.built.userPte h.size hx', Option.bind_some]
    dsimp only
    rw [userAt_of_ne (by omega), if_pos rfl, hbyte]

end NewXv6.Vm.Load
