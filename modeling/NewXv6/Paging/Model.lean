import Mathlib.Data.List.Basic
import Mathlib.Logic.Function.Basic

/-!
# Page tables in physical memory (`vm.c`)

A page directory and its page tables are pages of 1024 entries, 32-bit numbers each; an entry holds the page it leads to and
flags. Pages are named by their numbers, as the physical addresses in the entries do (`p2v` and `v2p` are inverse to each
other). `kalloc` takes the first page of the free list.
-/

namespace NewXv6.Paging

/-- The number of values of a `uint`. -/
def WORD : Nat := 4294967296

abbrev PGSIZE : Nat := 4096
abbrev PTE_P : Nat := 1
abbrev PTE_W : Nat := 2
abbrev PTE_U : Nat := 4

/-- A physical page, by its number. -/
abbrev Page : Type := Nat

def PDX (va : Nat) : Nat := va / 4194304 % 1024
def PTX (va : Nat) : Nat := va / 4096 % 1024
def PGROUNDDOWN (a : Nat) : Nat := a / 4096 * 4096

/-- The page that an entry leads to: `PTE_ADDR` without its zeros. -/
def PTE_ADDR (e : Nat) : Page := e / 4096

/-- `e & PTE_P`. -/
def present (e : Nat) : Bool := e &&& PTE_P != 0

/-- The entries of the pages, and `kmem.freelist`. -/
structure Phys where
  entry : Page → Nat → Nat
  freelist : List Page

def Phys.set (s : Phys) (page : Page) (i e : Nat) : Phys :=
  { s with entry := Function.update s.entry page (Function.update (s.entry page) i e) }

/-- `memset(page, 0, PGSIZE)`. -/
def Phys.zero (s : Phys) (page : Page) : Phys := { s with entry := Function.update s.entry page fun _ => 0 }

/-- `walkpgdir`: the PTE of `va`, as its page and index. -/
def walkpgdir (s : Phys) (pgdir : Page) (va : Nat) (alloc : Bool) : Phys × Option (Page × Nat) :=
  let pde := s.entry pgdir (PDX va)
  if present pde then (s, some (PTE_ADDR pde, PTX va))
  else if alloc then
    match s.freelist with
    | [] => (s, none)
    | pgtab :: rest =>
      let s := Phys.zero { s with freelist := rest } pgtab
      (s.set pgdir (PDX va) (pgtab * PGSIZE ||| PTE_P ||| PTE_W ||| PTE_U), some (pgtab, PTX va))
  else (s, none)

/-- What `mappages` comes to: it returns 0 or -1, or it is `panic("remap")`. -/
inductive Outcome
  | done
  | failed
  | remap
deriving DecidableEq, Repr

/-- The loop of `mappages`; the number bounds the rounds. -/
def mapLoop (pgdir : Page) (last perm : Nat) : Nat → Phys → Nat → Nat → Option (Phys × Outcome)
  | 0, _, _, _ => none
  | n + 1, s, a, pa =>
    match walkpgdir s pgdir a true with
    | (s, none) => some (s, .failed)
    | (s, some (pgtab, i)) =>
      if present (s.entry pgtab i) then some (s, .remap)
      else
        let s := s.set pgtab i (pa ||| perm ||| PTE_P)
        if a = last then some (s, .done)
        else mapLoop pgdir last perm n s ((a + PGSIZE) % WORD) ((pa + PGSIZE) % WORD)

def mappages (s : Phys) (pgdir : Page) (va size pa perm : Nat) : Option (Phys × Outcome) :=
  let a := PGROUNDDOWN va
  let last := PGROUNDDOWN ((va + size + (WORD - 1)) % WORD)
  mapLoop pgdir last perm 1048576 s a pa

end NewXv6.Paging
