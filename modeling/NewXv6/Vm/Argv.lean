import NewXv6.Vm.Safe
import NewXv6.Vm.Sbrk

/-!
# What `main` finds on its stack

Where `exec` succeeds without a store that misses the user pages, the stack page of the new image holds the arguments
(`ArgStack`). An argument that wraps to an address without a page table makes `uva2ka` use a null pointer as its PTE, and then
the new image may be anything.
-/

namespace NewXv6.Vm.Load

open Lib

/-- The process finds the bytes `l` at `x`. -/
def UserBytes (w : World) (x : Nat) (l : List UInt8) : Prop :=
  ∀ i < l.length, userByte w.caller.pgdir w.mem (x + i) = some (l.getD i 0)

/-- The stack pointer is aligned and points to the return address, `argc` and `argv`, with `argv` at the pointers to the
strings, which are copied; the strings do not overlap, and all is in the page above the guard page. -/
structure ArgStack (w : World) (argv : List (List UInt8)) (ptrs : List UInt32) : Prop where
  aligned : w.caller.esp.toNat % 4 = 0
  count : ptrs.length = argv.length
  frame : UserBytes w w.caller.esp.toNat ((frameWords w.caller.esp ptrs).flatMap wordBytes)
  string : ∀ (i : Nat) (p : UInt32) (arg : List UInt8), ptrs[i]? = some p → argv[i]? = some arg →
    UserBytes w p.toNat (arg ++ [0])
  above : ∀ (i : Nat) (p : UInt32) (arg : List UInt8), ptrs[i]? = some p → argv[i]? = some arg →
    w.caller.esp.toNat + (frameWords w.caller.esp ptrs).length * 4 ≤ p.toNat ∧ p.toNat + (arg.length + 1) ≤ w.caller.sz
  apart : ∀ (i j : Nat) (p q : UInt32) (arg : List UInt8), i < j → ptrs[i]? = some p → ptrs[j]? = some q →
    argv[j]? = some arg → q.toNat + (arg.length + 1) ≤ p.toNat
  page : (w.caller.sz : Nat) ≤ w.caller.esp.toNat + PGSIZE ∧
    w.caller.esp.toNat + (frameWords w.caller.esp ptrs).length * 4 ≤ w.caller.sz
  guard : ∀ x : Nat, (w.caller.sz : Nat) ≤ x + 2 * PGSIZE → x + PGSIZE < w.caller.sz →
    userByte w.caller.pgdir w.mem x = none

/-- Where `exec` returns 0, the argument stack is right. -/
def StackRight (outside : Outside) (kernelEnd : Page) (path : List UInt8) (file : Option (List UInt8))
    (argv : List (List UInt8)) (w : World) : Prop :=
  ∀ w' t, exec outside kernelEnd path file argv w = (.ok (true, w'), t) → ∃ ptrs, ArgStack w' argv ptrs

section

variable {kernelEnd : Page} {outside : Outside} {w₀ w : World} {d : Pgdir} {n : Nat} {g : Nat → UInt8}

/-- The bytes of the stack page. -/
theorem Loading.stackByte (h : Loading kernelEnd w₀ w (userAt n) d (n + 2) g) {x : Nat} (hx : x / PGSIZE = n + 1) :
    userByte d w.mem x = some (g x) := by
  have hbyte := h.bytes x (by omega)
  unfold userByte
  rw [h.built.userPte h.size (by omega : x / PGSIZE < n + 2), Option.bind_some]
  dsimp only
  rw [userAt_of_ne (by omega), if_pos rfl, hbyte]

theorem Framed.argStack {c : Caller} {sz : Size} {argv : List (List UInt8)} {ptrs : List UInt32}
    (hf : Framed g ((n + 1) * PGSIZE) ((n + 2) * PGSIZE) c.esp argv ptrs) (h : Loading kernelEnd w₀ w (userAt n) d (n + 2) g)
    (hsz : (sz : Nat) = (n + 2) * 4096) (hd : c.pgdir = d) (hcsz : c.sz = sz) (kmem : Kmem) :
    ArgStack { w with kmem, caller := c } argv ptrs := by
  have hlow : (n + 1) * 4096 ≤ c.esp.toNat := hf.low
  have hhigh : c.esp.toNat + (frameWords c.esp ptrs).length * 4 ≤ (n + 2) * 4096 := hf.strings.le
  have hbytes : ∀ x l, (n + 1) * 4096 ≤ x → x + l.length ≤ (n + 2) * 4096 → Copied g x l →
      UserBytes { w with kmem, caller := c } x l := by
    intro x l hx hx' hc i hi
    have hpage : (x + i) / PGSIZE = n + 1 := by
      show (x + i) / 4096 = n + 1
      omega
    show userByte c.pgdir w.mem (x + i) = _
    rw [hd, h.stackByte hpage, hc i hi]
  refine ⟨hf.aligned, hf.strings.count, hbytes _ _ hlow ?_ hf.frame, fun i p arg hp ha => ?_, fun i p arg hp ha => ?_,
    hf.strings.apart, ⟨?_, ?_⟩, fun x hx hx' => ?_⟩
  · rw [length_words]
    exact hhigh
  · obtain ⟨hlo, hhi, hcopy⟩ := hf.strings.string i p arg hp ha
    have hhi' : p.toNat + (arg.length + 1) ≤ (n + 2) * 4096 := hhi
    refine hbytes _ _ (by omega) ?_ hcopy
    rw [List.length_append]
    exact hhi'
  · obtain ⟨hlo, hhi, -⟩ := hf.strings.string i p arg hp ha
    have hhi' : p.toNat + (arg.length + 1) ≤ (n + 2) * 4096 := hhi
    dsimp only
    rw [hcsz, hsz]
    refine ⟨hlo, ?_⟩
    omega
  · dsimp only
    have hpage : (n + 1) * 4096 + 4096 ≤ c.esp.toNat + PGSIZE := Nat.add_le_add_right hlow 4096
    rw [← Nat.succ_mul] at hpage
    rw [hcsz, hsz]
    exact hpage
  · dsimp only
    rw [hcsz, hsz]
    omega
  · have hx₁ : (c.sz : Nat) ≤ x + 2 * 4096 := hx
    have hx₂ : x + 4096 < c.sz := hx'
    rw [hcsz, hsz] at hx₁ hx₂
    have hpage : x / PGSIZE = n := by
      show x / 4096 = n
      omega
    show userByte c.pgdir w.mem x = none
    unfold userByte
    rw [hd, h.built.userPte h.size (by omega : x / PGSIZE < n + 2), Option.bind_some, hpage]
    dsimp only
    rw [userAt_self, if_neg Bool.false_ne_true]

/-- **The argument stack** of a program that fits. -/
theorem wp_exec_stack (hr : Ready kernelEnd w₀) (path : List UInt8) {file : Option (List UInt8)} {argv : List (List UInt8)}
    (hargc : argv.length < MAXARG) (hargs : ∀ arg ∈ argv, arg.length < KERNBASE)
    (hfile : ∀ f, file = some f → f.length < 2 ^ 32) (hfit : ∀ f, file = some f → ProgramFits w₀.kmem f argv) :
    Wp safe (exec outside kernelEnd path file argv) (fun ok w => ok = true → ∃ ptrs, ArgStack w argv ptrs) w₀ :=
  wp_exec_image hr path hargc hargs hfile hfit (fun _ _ _ hc => absurd hc Bool.false_ne_true)
    fun _ _ n sz d w g c hsz hd hcsz _ _ hframed h kmem _ => by
      obtain ⟨ptrs, hf⟩ := hframed
      exact ⟨ptrs, hf.argStack h hsz hd hcsz kmem⟩

end

/-- **`exec` builds the argument stack** of a program that fits; and of any program, as long as no page table is missing and
no store misses the user pages. -/
theorem exec_stackRight {kernelEnd : Page} {w : World} (hr : Ready kernelEnd w) (path : List UInt8)
    {file : Option (List UInt8)} {argv : List (List UInt8)} (hargc : argv.length < MAXARG)
    (hargs : ∀ arg ∈ argv, arg.length < KERNBASE) (hfile : ∀ f, file = some f → f.length < 2 ^ 32) :
    ((∀ f, file = some f → ProgramFits w.kmem f argv) → ∀ outside, StackRight outside kernelEnd path file argv w) ∧
      (TablesKept w.kmem → ∀ outside w' t, exec outside kernelEnd path file argv w = (.ok (true, w'), t) →
        (∀ x ∈ t, x.Tame) → ∃ ptrs, ArgStack w' argv ptrs) := by
  constructor
  · intro hfit outside w' t hrun
    exact (wp_exec_stack hr path hargc hargs hfile hfit).run hrun (fun _ _ => trivial) rfl
  · intro htables outside w' t hrun htame
    by_cases hfit : ∀ f, file = some f → ProgramFits w.kmem f argv
    · exact (wp_exec_stack hr path hargc hargs hfile hfit).run hrun (fun _ _ => trivial) rfl
    · -- a program that does not fit panics, or a store misses the user pages
      obtain ⟨f, hf⟩ := not_forall.1 hfit
      obtain ⟨rfl, hno⟩ := Classical.not_imp.1 hf
      have h : Wp wrong (exec outside kernelEnd path (some f) argv) (fun _ _ => False) w :=
        wrong_exec hr htables path hargc hargs (hfile f rfl) hno
      exact (h.run hrun htame).elim

theorem exec_stackRight_oneByte : StackRight noOutside 300 [97] (some (oneByte 0)) [[97]] smallWorld :=
  (exec_stackRight smallWorld_ready [97] (by decide) (by decide) (fun _ h => by cases h; decide +kernel)).1
    (fun _ h => by cases h; exact oneByte_fits) noOutside

/-! ### An argument that wraps -/

/-- An entry of the new page directory after a store through a null pointer into it at page `a`: the argument string has the
kernel's entries again and no other with the present bit, and the words below the string make two present entries. -/
def storedEntry (x y : PageTable) (a : Nat) (d : Pgdir) (i : Fin NPDENTRIES) : Option PageTable :=
  if a = 0xFB000 then
    if i.val < 1019 then d.table i else if i.val = 1019 then some x else if i.val = 1020 then some y else none
  else if 512 ≤ i.val ∧ i.val < 568 then d.table i
  else none

def directoryStore (x y : PageTable) : Outside where
  store _ s := s
  nullPte a s := some (s.1, { s.2 with table := storedEntry x y a s.2 })

theorem sure_of_safe {α : Type} {c : Code α} {Q : α → World → Prop} {w : World} (h : Wp safe c Q w) : Wp sure c Q w := by
  refine ⟨along_of_ensure fun _ _ => trivial, fun _ => ?_⟩
  have hends := h.2 fun _ _ => trivial
  revert hends
  cases (c w).1 with
  | ok r => exact id
  | error e => exact id

/-- The user pages and the devices have no page tables. -/
def Cleared (d : Pgdir) : Prop := ∀ i : Fin NPDENTRIES, i.val < 512 ∨ 568 ≤ i.val → d.table i = none

/-- The string runs over the end of the address space to the end of the second page. -/
def Wraps (va : UInt32) (n : Nat) : Prop :=
  0xFB001000 ≤ va.toNat ∧ va.toNat + n = 2 ^ 32 + 0x2000 ∨ va.toNat + n = 0x2000

theorem pdx_wraps {va : UInt32} {n : Nat} (hva : Wraps va n) :
    (Pgdir.pdx (va.toNat / PGSIZE)).val < 512 ∨ 568 ≤ (Pgdir.pdx (va.toNat / PGSIZE)).val := by
  have hlt := va.toNat_lt
  show va.toNat / 4096 / 1024 % 1024 < 512 ∨ 568 ≤ va.toNat / 4096 / 1024 % 1024
  obtain ⟨hlow, -⟩ | hend := hva <;> omega

theorem wraps_next {va : UInt32} {p : List UInt8} (hp : p ≠ []) (hva : Wraps va p.length) :
    Wraps (UInt32.ofNat ((va.toNat / PGSIZE + 1) * PGSIZE))
      (p.drop (min p.length (PGSIZE - va.toNat % PGSIZE))).length := by
  have hlen : 0 < p.length := List.length_pos_iff.2 hp
  have hlt := va.toNat_lt
  have hnext : (UInt32.ofNat ((va.toNat / PGSIZE + 1) * PGSIZE)).toNat = (va.toNat / 4096 + 1) * 4096 % 4294967296 :=
    UInt32.toNat_ofNat'
  unfold Wraps
  rw [hnext, List.length_drop]
  show _ ∧ _ + (p.length - min p.length (4096 - va.toNat % 4096)) = _ ∨
    _ + (p.length - min p.length (4096 - va.toNat % 4096)) = _
  obtain ⟨hlow, hend⟩ | hend := hva <;> omega

section

variable {x y : PageTable} {d : Pgdir} {Q : Pgdir × Bool → World → Prop}

/-- One round of `copyout` at a page without a page table. -/
theorem wp_copyout_hole {fuel : Nat} {va : UInt32} {p : List UInt8} {w : World} (hp : p ≠ [])
    (hd : d.table (Pgdir.pdx (va.toNat / PGSIZE)) = none)
    (hQ : ∀ d', (va.toNat / PGSIZE ≠ 0xFB000 → Cleared d') →
      Wp sure (copyout (directoryStore x y) fuel d' (UInt32.ofNat ((va.toNat / PGSIZE + 1) * PGSIZE))
        (p.drop (min p.length (PGSIZE - va.toNat % PGSIZE)))) Q w) :
    Wp sure (copyout (directoryStore x y) (fuel + 1) d va p) Q w := by
  rw [copyout, if_neg hp]
  dsimp only
  rw [hd]
  dsimp only
  rw [wp_bind, wp_emit]
  refine fun _ => ⟨trivial, ?_⟩
  rw [wp_bind, wp_get]
  show Wp sure (Prog.modify _ >>= _) Q w
  rw [wp_bind, wp_modify]
  refine hQ _ fun ha i hi => ?_
  show storedEntry x y (va.toNat / PGSIZE) d i = none
  unfold storedEntry
  rw [if_neg ha, if_neg (by omega)]

theorem copyout_nil (outside : Outside) (fuel : Nat) (d : Pgdir) (va : UInt32) :
    copyout outside fuel d va [] = pure (d, true) := by
  cases fuel with
  | zero => rfl
  | succ fuel => rw [copyout, if_pos rfl]

/-- The rest of the string goes to pages without a page table. -/
theorem wp_copyout_cleared (fuel : Nat) : ∀ {d : Pgdir} {va : UInt32} {p : List UInt8} {w : World}, Cleared d →
    Wraps va p.length → (∀ d, Cleared d → Q (d, true) w) →
      Wp sure (copyout (directoryStore x y) fuel d va p) Q w := by
  induction fuel with
  | zero =>
    intro d va p w hd _ hQ
    exact (wp_pure _ _ _).2 (hQ d hd)
  | succ fuel ih =>
    intro d va p w hd hva hQ
    by_cases hp : p = []
    · rw [hp, copyout_nil]
      exact (wp_pure _ _ _).2 (hQ d hd)
    · refine wp_copyout_hole hp (hd _ (pdx_wraps hva)) fun d' hd' => ih (hd' ?_) (wraps_next hp hva) hQ
      show va.toNat / 4096 ≠ 0xFB000
      obtain ⟨hlow, -⟩ | hend := hva <;> omega

end

/-- A header without program headers. -/
def noSegments : List UInt8 := [0x7F, 0x45, 0x4C, 0x46] ++ List.replicate 48 0

/-- The bytes of the argument in a page: those of the kernel's entries in the new page directory. -/
def imageByte (o : Nat) : UInt8 :=
  if 512 ≤ o / 4 ∧ o / 4 < 568 then (wordBytes (UInt32.ofNat ((0x1011 + 16 * (o / 4 - 511)) * PGSIZE + 7))).getD (o % 4) 0
  else 98

/-- An argument of 80 MB. -/
def longArg : List UInt8 := (List.range 0x5000FFF).map fun i => imageByte (i % PGSIZE)

theorem length_longArg : longArg.length = 0x5000FFF := by
  unfold longArg
  rw [List.length_map, List.length_range]

/-- The caller has 84 MB: the word at address 0 is the PTE of the first free page, and the argument starts at the second
page. -/
def largeWorld : World where
  kmem := { freelist := List.range' 0x1011 100 16, fails := fun _ => false }
  mem p o :=
    if p = 6000 then (wordBytes 0x1011007).getD o 0
    else if p = 6000 + 0x5001 ∧ o = 4095 then 0
    else imageByte o
  caller :=
    { pgdir := { dir := 400, table := fun i =>
        if i.val < 21 then some ⟨5900 + i.val, fun j => some ⟨6000 + i.val * NPTENTRIES + j.val, true⟩⟩ else none }
      sz := .ofNat (KERNBASE + 1) 0x5400000, eip := 0, esp := 0, name := [] }

theorem largeWorld_table {i : Fin NPDENTRIES} {pt : PageTable} (h : largeWorld.caller.pgdir.table i = some pt) :
    i.val < 21 ∧ pt = ⟨5900 + i.val, fun j => some ⟨6000 + i.val * NPTENTRIES + j.val, true⟩⟩ := by
  unfold largeWorld at h
  dsimp only at h
  split at h
  · next hi => exact ⟨hi, (Option.some.inj h).symm⟩
  · cases h

theorem largeWorld_ready : Ready 300 largeWorld := by
  refine ⟨List.nodup_range' 16 (by decide), fun p hp => ?_, ⟨⟨by decide, by decide, by decide⟩, fun i pt hi => ?_,
    fun i pt hi j x hx => ?_⟩⟩
  · obtain ⟨k, hk, rfl⟩ := List.mem_range'.1 hp
    show 300 ≤ 0x1011 + 16 * k ∧ 0x1011 + 16 * k < 57344 ∧ 0x1011 + 16 * k ≠ 0
    omega
  · obtain ⟨hlt, rfl⟩ := largeWorld_table hi
    show 300 ≤ 5900 + i.val ∧ 5900 + i.val < 57344 ∧ 5900 + i.val ≠ 0
    omega
  · obtain ⟨hlt, rfl⟩ := largeWorld_table hi
    obtain rfl := Option.some.inj hx
    have hj : j.val < 1024 := j.isLt
    show 300 ≤ 6000 + i.val * 1024 + j.val ∧ 6000 + i.val * 1024 + j.val < 57344 ∧ 6000 + i.val * 1024 + j.val ≠ 0
    omega

theorem largeWorld_avail {k : Nat} (h : k ≤ 100) : Avail largeWorld.kmem k := by
  refine ⟨?_, fun _ _ => rfl⟩
  show k ≤ (List.range' 0x1011 100 16).length
  rw [List.length_range']
  exact h

/-- A byte of the caller. -/
theorem largeWorld_byte {x : Nat} (hx : x < 0x5400000) :
    userByte largeWorld.caller.pgdir largeWorld.mem x = some (largeWorld.mem (6000 + x / 4096) (x % 4096)) := by
  have hpdx : (Pgdir.pdx (x / 4096)).val = x / 4096 / 1024 :=
    Nat.mod_eq_of_lt (show x / 4096 / 1024 < 1024 by omega)
  have hpage : 6000 + (Pgdir.pdx (x / 4096)).val * NPTENTRIES + (Pgdir.ptx (x / 4096)).val = 6000 + x / 4096 := by
    show 6000 + _ * 1024 + x / 4096 % 1024 = _
    omega
  have hkern : x / 4096 * PGSIZE < KERNBASE := by
    show x / 4096 * 4096 < 0x80000000
    omega
  have hpte : userPte largeWorld.caller.pgdir (x / 4096) = some ⟨6000 + x / 4096, true⟩ := by
    unfold userPte largeWorld
    rw [if_pos hkern]
    dsimp only
    rw [if_pos (by omega), Option.bind_some]
    dsimp only
    rw [hpage]
  unfold userByte
  show (userPte _ (x / 4096)).bind _ = _
  rw [hpte]
  rfl

/-- The argument wraps to addresses without a page table, and `exec` succeeds with a stack pointer there. -/
theorem exec_wraps (x y : PageTable) {arg : List UInt8} (harg : arg.length = 0x5000FFF) :
    Wp sure (exec (directoryStore x y) 300 [97] (some noSegments) [arg])
    (fun ok w => ok = true ∧ KERNBASE ≤ w.caller.esp.toNat) largeWorld := by
  have hread : readAll noSegments 0 sizeofElf = some noSegments := by decide +kernel
  have hmagic : (ElfHdr.ofBytes noSegments).magic = ELF_MAGIC := by decide +kernel
  have hnum : (ElfHdr.ofBytes noSegments).phnum = 0 := by decide +kernel
  have hcalls : calls 0 = 73 := by decide +kernel
  have hcalls' : calls 2 = 76 := by decide +kernel
  have hstart : after largeWorld.kmem 0 = largeWorld.kmem := rfl
  have hr := largeWorld_ready
  unfold exec
  dsimp only
  rw [hread]
  dsimp only
  rw [if_neg (not_not.2 hmagic), hnum, wp_bind]
  refine sure_of_safe ?_
  rw [lift_wp, ← hstart]
  refine wp_setupkvm hr.free (fun hno => absurd (largeWorld_avail (by rw [hcalls]; decide)) hno)
    fun d hA (hbuilt : Built largeWorld.kmem (fun _ => true) d 0) hsound => ?_
  have h : Loading 300 largeWorld { largeWorld with kmem := after largeWorld.kmem (calls 0) } (fun _ => true) d
      (pageRoundUp ((0 : Size) : Nat)) fun _ => 0 := loading_start hA hbuilt hsound
  have hzero : pageRoundUp ((0 : Size) : Nat) = 0 := by decide
  dsimp only
  rw [wp_bind, loadSegments, wp_pure]
  dsimp only
  rw [wp_bind]
  refine sure_of_safe (wp_stackPages hr h (fun _ t _ ht _ => ?_) (fun hno => absurd ?_ (hno (by decide)))
    fun hlt d w sz' hsz' h => ?_)
  · have ht' : 1024 * t < pageRoundUp ((0 : Size) : Nat) + 2 := ht
    obtain rfl : t = 0 := by omega
    exact largeWorld_avail (by rw [Nat.mul_zero, hcalls]; decide)
  · exact largeWorld_avail (by rw [hzero, Nat.zero_add, hcalls']; decide)
  obtain ⟨hne, hguard, hsp⟩ := stack_size hsz' (Nat.zero_le _)
  dsimp only
  rw [if_neg hne, wp_bind, hguard]
  refine sure_of_safe (wp_clearpteu h hr (Nat.lt_add_of_pos_right Nat.two_pos) fun d h => ?_)
  rw [wp_bind, pushArgs, if_neg (by decide), wp_bind]
  have hsp' : (UInt32.ofNat (sz' : Nat)).toNat = 8192 := by rw [hsp, hzero]
  have hbelow : (below (UInt32.ofNat (sz' : Nat)) arg).toNat = 0xFB001000 := by
    rw [below_toNat (by rw [harg]; decide), hsp', harg]
    decide
  have hlen : (arg ++ [0]).length = 0x5001000 := by rw [List.length_append, harg]; rfl
  have hne : arg ++ [0] ≠ [] := List.append_ne_nil_of_right_ne_nil _ (List.cons_ne_nil _ _)
  generalize below (UInt32.ofNat (sz' : Nat)) arg = sp at hbelow ⊢
  have hwraps : Wraps sp (arg ++ [0]).length := by
    rw [hlen]
    unfold Wraps
    omega
  -- the first page of the string is between the end of physical memory and the devices
  have hhole : d.table (Pgdir.pdx (sp.toNat / PGSIZE)) = none := by
    refine h.built.hole _ ?_ ?_
    · rw [hbelow]
      decide
    · rw [hbelow]
      decide +kernel
  refine wp_copyout_hole hne hhole fun d hd => ?_
  refine wp_copyout_cleared _ (hd ?_) (wraps_next hne hwraps) fun d hd => ?_
  · rw [hbelow]
    decide
  · -- and so is the page of the words below it
    have hesp : (sp - UInt32.ofNat ((3 + ([] ++ [sp]).length + 1) * 4)).toNat = 0xFB000FEC := by
      show (sp - 20).toNat = _
      rw [UInt32.toNat_sub_of_le, hbelow]
      · decide
      · rw [UInt32.le_iff_toNat_le, hbelow]
        decide
    dsimp only
    rw [if_pos rfl, pushArgs]
    dsimp only
    rw [wp_bind]
    refine wp_copyout_hole (List.cons_ne_nil _ _) (hd _ ?_) fun d _ => ?_
    · rw [hesp]
      decide
    have hdrop : 5 * 4 ≤ min (5 * 4) (PGSIZE - (sp - UInt32.ofNat ((3 + ([] ++ [sp]).length + 1) * 4)).toNat % PGSIZE) := by
      rw [hesp]
      decide
    rw [List.drop_eq_nil_of_le (by rw [length_words]; exact hdrop), copyout_nil, wp_pure, wp_pure]
    dsimp only
    rw [if_pos rfl]
    dsimp only
    rw [wp_bind, wp_get, wp_bind, wp_modify, wp_bind]
    refine sure_of_safe ?_
    rw [lift_wp, h.caller]
    exact wp_freevm hr.caller fun kmem => (wp_pure _ _ _).2 ⟨rfl, by rw [hesp]; decide⟩

theorem imageByte_ne_zero (o : Nat) : imageByte o ≠ 0 := by
  unfold imageByte
  split
  · next h =>
    have hbytes : ∀ k < 1024, 512 ≤ k ∧ k < 568 → ∀ j < 4,
        (wordBytes (UInt32.ofNat ((0x1011 + 16 * (k - 511)) * PGSIZE + 7))).getD j 0 ≠ 0 := by decide +kernel
    exact hbytes _ (by omega) h _ (Nat.mod_lt _ (by decide))
  · decide

/-- The caller holds the argument, and the word at address 0 is the PTE of the page that the page directory will be in; `exec`
succeeds, but the stack pointer that the program gets is not in its address space. -/
theorem not_stackRight : Ready 300 largeWorld ∧ UserBytes largeWorld 0 (wordBytes 0x1011007) ∧
    UserBytes largeWorld 4096 (longArg ++ [0]) ∧ (∀ b ∈ longArg, b ≠ 0) ∧
    ¬∃ x y, StackRight (directoryStore x y) 300 [97] (some noSegments) [longArg] largeWorld := by
  refine ⟨largeWorld_ready, fun i hi => ?_, fun i hi => ?_, fun b hb => ?_, ?_⟩
  · have hi' : i < 4 := hi
    rw [largeWorld_byte (by omega), show (0 + i) / 4096 = 0 by omega, show (0 + i) % 4096 = i by omega]
    rfl
  · rw [List.length_append, length_longArg] at hi
    have hi' : i < 0x5000FFF + 1 := hi
    rw [largeWorld_byte (by omega)]
    show some (if 6000 + (4096 + i) / 4096 = 6000 then _ else if 6000 + (4096 + i) / 4096 = 6000 + 0x5001 ∧ (4096 + i) % 4096 = 4095 then _
      else _) = _
    rw [if_neg (by omega)]
    by_cases hend : i = 0x5000FFF
    · rw [if_pos (by omega), hend, ← length_longArg, List.getD_append_right _ _ _ _ (Nat.le_refl _), Nat.sub_self]
      rfl
    · rw [if_neg (by omega), List.getD_append _ _ _ _ (by rw [length_longArg]; omega)]
      unfold longArg
      rw [List.getD_eq_getElem?_getD, List.getElem?_map, List.getElem?_range (by omega)]
      show _ = some (imageByte (i % 4096))
      rw [Nat.add_mod_left]
  · obtain ⟨i, -, rfl⟩ := List.mem_map.1 hb
    exact imageByte_ne_zero _
  · rintro ⟨x, y, h⟩
    obtain ⟨ok, w, t, hrun, hok, hesp⟩ := run_of_sure (exec_wraps x y length_longArg)
    subst hok
    obtain ⟨ptrs, hstack⟩ := h w t hrun
    have hbyte := hstack.frame 0 (by rw [length_words, length_frameWords]; omega)
    have hhigh : ¬(w.caller.esp.toNat + 0) / PGSIZE * PGSIZE < KERNBASE := by
      have hesp' : 0x80000000 ≤ w.caller.esp.toNat := hesp
      show ¬(w.caller.esp.toNat + 0) / 4096 * 4096 < 0x80000000
      omega
    unfold userByte userPte at hbyte
    rw [if_neg hhigh] at hbyte
    cases hbyte

end NewXv6.Vm.Load
