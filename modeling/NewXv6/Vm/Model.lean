import NewXv6.Lib.Prog
import NewXv6.Param
import Mathlib.Logic.Function.Basic
import Mathlib.Algebra.Ring.Nat

/-!
# Physical pages (`kalloc.c`, `vm.c`, `exec.c`, `proc.c`, `pipe.c`)

Which physical pages are on the free list and what the others are used for. A call is the code of one process while no
other process runs, and `kalloc` may fail at any call. A page directory is the value the code builds through pointers;
the PTEs from `KERNBASE` on are the same in all of them and left out, but not their page tables. The contents of pages
are left out as well, so a store matters only if it misses the user pages it is meant for: `loaduvm` at a kernel address
or at a PTE that is not present, `copyout` without a page table. What such a store does to the kernel's data depends on
where the linker put it; it is a parameter, and the trace records it (`wild`).
-/

namespace NewXv6.Vm

open Lib

/-! ## `mmu.h`, `memlayout.h` -/

abbrev NPDENTRIES : Nat := 1024
abbrev NPTENTRIES : Nat := 1024
abbrev PGSIZE : Nat := 4096
abbrev PHYSTOP : Nat := 0xE000000
abbrev DEVSPACE : Nat := 0xFC000000
abbrev KERNBASE : Nat := 0x80000000
abbrev MAXARG : Nat := 32

instance : NeZero NPTENTRIES := ⟨by decide⟩
instance (priority := 2000) : NeZero (KERNBASE + 1) := ⟨by decide⟩

/-- A physical page, by its number. -/
abbrev Page : Type := Nat

/-- The size of a process. -/
abbrev Size : Type := Fin (KERNBASE + 1)

/-- A present PTE: the page, and `PTE_U`. -/
structure Pte where
  page : Page
  user : Bool

/-- A page table: the page it is in, and its present PTEs. -/
structure PageTable where
  page : Page
  pte : Fin NPTENTRIES → Option Pte

/-- A page directory: the page it is in, and the page tables of its present entries. -/
structure Pgdir where
  dir : Page
  table : Fin NPDENTRIES → Option PageTable

namespace Pgdir

/-- `PDX` and `PTX` of virtual page `a`. -/
def pdx (a : Nat) : Fin NPDENTRIES := ⟨a / NPTENTRIES % NPDENTRIES, Nat.mod_lt _ (by decide)⟩
def ptx (a : Nat) : Fin NPTENTRIES := ⟨a % NPTENTRIES, Nat.mod_lt _ (by decide)⟩

/-- The page table of virtual page `a` changes one PTE. -/
def setPte (d : Pgdir) (a : Nat) (pt : PageTable) (x : Option Pte) : Pgdir :=
  { d with table := Function.update d.table (pdx a) (some { pt with pte := Function.update pt.pte (ptx a) x }) }

end Pgdir

/-! ## Programs -/

/-- The panics, and the null pointers that `main` does not check for. -/
inductive Stop
  | kfree
  | remap
  | loaduvmAligned
  | loaduvmAddress
  | copyuvmPte
  | clearpteu
  | initExiting
  | outOfMemory
  deriving DecidableEq, Repr

/-- `kfree` was called for `v` when the free list was `freelist`; the kernel stored at virtual page `a` outside of the
user pages. -/
inductive Event
  | kfree (v : Page) (freelist : List Page)
  | wild (a : Nat)

/-- `kmem.freelist`, and which of the calls of `kalloc` to come fail although there is a page. -/
structure Kmem where
  freelist : List Page
  fails : Nat → Bool

/-- Code that only uses the allocator. -/
abbrev Alloc (α : Type) : Type := Prog Kmem Stop Event α

/-! ## `kalloc.c` -/

/-- Allocate one page; `none` if there is none. -/
def kalloc : Alloc (Option Page) := do
  let s ← Prog.get
  Prog.modify fun s => { s with fails := fun n => s.fails (n + 1) }
  match if s.fails 0 then [] else s.freelist with
  | [] => return none
  | r :: rest => do
    Prog.modify fun s => { s with freelist := rest }
    return some r

/-- The pages that `freerange` puts on the free list, the last one first. -/
def freerange (start stop : Page) : List Page := (List.range (stop - start)).map fun i => stop - 1 - i

section

-- the first page after the kernel: `end`
variable (kernelEnd : Page)

/-- Free the page `v`. -/
def kfree (v : Page) : Alloc Unit := do
  let s ← Prog.get
  Prog.emit (.kfree v s.freelist)
  if v < kernelEnd ∨ PHYSTOP / PGSIZE ≤ v then Prog.throw .kfree
  else Prog.modify fun s => { s with freelist := v :: s.freelist }

/-! ## `vm.c` -/

/-- `mappages` of one page that maps virtual page `a`: the page directory, and whether there was a page table. -/
def mappages (d : Pgdir) (a : Nat) (x : Pte) : Alloc (Pgdir × Bool) := do
  match d.table (Pgdir.pdx a) with
  | some pt =>
    match pt.pte (Pgdir.ptx a) with
    | some _ => Prog.throw .remap
    | none => return (d.setPte a pt (some x), true)
  | none => do
    -- the `alloc` branch of `walkpgdir`
    match ← kalloc with
    | none => return (d, false)
    | some page => return (d.setPte a { page, pte := fun _ => none } (some x), true)

/-- The page directory entries of the kernel's mappings, in the order of `kmap`. -/
def kmap : List (Fin NPDENTRIES) :=
  ((List.range' (KERNBASE / PGSIZE / NPTENTRIES) (PHYSTOP / PGSIZE / NPTENTRIES)) ++
    (List.range' (DEVSPACE / PGSIZE / NPTENTRIES) ((2 ^ 32 - DEVSPACE) / PGSIZE / NPTENTRIES))).map
    fun i => Pgdir.pdx (i * NPTENTRIES)

/-- The loop of `setupkvm`, one round for each page table. -/
def mapKernel (d : Pgdir) : List (Fin NPDENTRIES) → Alloc (Option Pgdir)
  | [] => return some d
  | i :: is => do
    match ← kalloc with
    | none => return none
    | some page => mapKernel { d with table := Function.update d.table i (some { page, pte := fun _ => none }) } is

/-- Set up kernel part of a page table. -/
def setupkvm : Alloc (Option Pgdir) := do
  match ← kalloc with
  | none => return none
  | some dir => mapKernel { dir, table := fun _ => none } kmap

/-- The loop of `deallocuvm`; the first argument bounds the number of rounds. -/
def deallocFrom (oldsz : Size) : Nat → Nat → Pgdir → Alloc Pgdir
  | 0, _, d => return d
  | fuel + 1, a, d =>
    if a * PGSIZE < oldsz then
      match d.table (Pgdir.pdx a) with
      | none => deallocFrom oldsz fuel (a + NPTENTRIES) d
      | some pt =>
        match pt.pte (Pgdir.ptx a) with
        | none => deallocFrom oldsz fuel (a + 1) d
        | some x =>
          if x.page = 0 then Prog.throw .kfree
          else do
            kfree kernelEnd x.page
            deallocFrom oldsz fuel (a + 1) (d.setPte a pt none)
    else return d

/-- Round up to whole pages. -/
def pageRoundUp (sz : Nat) : Nat := (sz + PGSIZE - 1) / PGSIZE

/-- Deallocate user pages to bring the process size from oldsz to newsz: the page directory and the new size. -/
def deallocuvm (d : Pgdir) (oldsz : Size) (newsz : UInt32) : Alloc (Pgdir × Size) :=
  if h : (oldsz : Nat) ≤ newsz.toNat then return (d, oldsz)
  else do
    let d ← deallocFrom kernelEnd oldsz (oldsz / PGSIZE + 1) (pageRoundUp newsz.toNat) d
    return (d, ⟨newsz.toNat, by omega⟩)

/-- The loop of `allocuvm`; the first argument bounds the number of rounds. -/
def allocFrom (oldsz newsz : Size) : Nat → Nat → Pgdir → Alloc (Pgdir × Size)
  | 0, _, d => return (d, newsz)
  | fuel + 1, a, d =>
    if a * PGSIZE < newsz then do
      match ← kalloc with
      | none => do
        let (d, _) ← deallocuvm kernelEnd d newsz (UInt32.ofNat oldsz)
        return (d, 0)
      | some mem => do
        -- what `mappages` returns is not looked at
        let (d, _) ← mappages d a { page := mem, user := true }
        allocFrom oldsz newsz fuel (a + 1) d
    else return (d, newsz)

/-- Allocate page tables and physical memory to grow process from oldsz to newsz: the page directory, and the new size
or 0 on error. -/
def allocuvm (d : Pgdir) (oldsz : Size) (newsz : UInt32) : Alloc (Pgdir × Size) :=
  if h : KERNBASE ≤ newsz.toNat then return (d, 0)
  else if newsz.toNat < (oldsz : Nat) then return (d, oldsz)
  else
    allocFrom kernelEnd oldsz ⟨newsz.toNat, by omega⟩ (newsz.toNat / PGSIZE + 1) (pageRoundUp oldsz) d

/-- Free a page table and all the physical memory pages in the user part. -/
def freevm (d : Pgdir) : Alloc Unit := do
  let (d, _) ← deallocuvm kernelEnd d (Fin.last KERNBASE) 0
  Prog.forEach (fun i => match d.table i with
    | some pt => kfree kernelEnd pt.page
    | none => pure ()) (List.finRange NPDENTRIES)
  kfree kernelEnd d.dir

/-- The loop of `copyuvm`, into `c`; the first argument bounds the number of rounds. -/
def copyFrom (d : Pgdir) (sz : Size) : Nat → Nat → Pgdir → Alloc (Option Pgdir)
  | 0, _, c => return some c
  | fuel + 1, a, c =>
    if a * PGSIZE < sz then
      match (d.table (Pgdir.pdx a)).bind fun pt => pt.pte (Pgdir.ptx a) with
      | none => Prog.throw .copyuvmPte
      | some x => do
        match ← kalloc with
        | none => do
          freevm kernelEnd c
          return none
        | some mem => do
          let (c, ok) ← mappages c a { page := mem, user := x.user }
          if ok then copyFrom d sz fuel (a + 1) c
          else do
            freevm kernelEnd c
            return none
    else return some c

/-- Given a parent process's page table, create a copy of it for a child. -/
def copyuvm (d : Pgdir) (sz : Size) : Alloc (Option Pgdir) := do
  match ← setupkvm with
  | none => return none
  | some c => copyFrom kernelEnd d sz (sz / PGSIZE + 1) 0 c

end

/-! ## The kernel -/

/-- What the memory of a process consists of. -/
structure Proc where
  kstack : Page
  pgdir : Pgdir
  sz : Size
  zombie : Bool
  parent : Fin NPROC

/-- `struct pipe`, in the page `page`. -/
structure Pipe where
  page : Page
  readopen : Bool
  writeopen : Bool

/-- The allocator, `kpgdir`, the stacks of the other CPUs, the processes in use and the pipes. -/
structure State where
  kmem : Kmem
  kpgdir : Option Pgdir
  cpustack : List Page
  proc : Fin NPROC → Option Proc
  pipe : Fin NFILE → Option Pipe

/-- Kernel code. -/
abbrev Kern (α : Type) : Type := Prog State Stop Event α

instance : MonadLift Alloc Kern where
  monadLift m := m.zoom State.kmem fun kmem s => { s with kmem }

/-- What the stores that miss the user pages do, to the kernel and to the page directory that is being built. -/
structure Outside where
  /-- `loaduvm` stores at virtual page `a`. -/
  store : Nat → State × Pgdir → State × Pgdir
  /-- `copyout` uses a null pointer as the PTE of virtual page `a`; `none` if it gives up. -/
  nullPte : Nat → State × Pgdir → Option (State × Pgdir)

def setProc (pid : Fin NPROC) (q : Option Proc) : Kern Unit :=
  Prog.modify fun s => { s with proc := Function.update s.proc pid q }

def setPipe (j : Fin NFILE) (q : Option Pipe) : Kern Unit :=
  Prog.modify fun s => { s with pipe := Function.update s.pipe j q }

/-! ## `exec.c` -/

/-- A program header as `exec` reads it: `read` tells whether the header could be read, `load` whether it is to be
loaded, and `got` how many of the `readi` of `loaduvm` succeed. -/
structure Segment where
  read : Bool
  load : Bool
  vaddr : UInt32
  memsz : UInt32
  filesz : UInt32
  got : Nat

/-- A program and its arguments: whether `namei` found it and its header is good, the segments, and the lengths of the
argument strings with their NULs. -/
structure Image where
  elf : Bool
  segments : List Segment
  args : List Nat

section

variable (outside : Outside) (kernelEnd : Page)

/-- A store that misses the user pages. -/
def wildStore (d : Pgdir) (a : Nat) : Kern Pgdir := do
  Prog.emit (.wild a)
  let s ← Prog.get
  let (t, d) := outside.store a (s, d)
  Prog.modify fun _ => t
  return d

/-- The loop of `loaduvm` from byte `i` on; the first argument bounds the number of rounds. -/
def loadFrom (addr : UInt32) (sz : Nat) : Nat → Nat → Nat → Pgdir → Kern (Pgdir × Bool)
  | 0, _, _, d => return (d, true)
  | fuel + 1, i, got, d =>
    if i < sz then do
      let a := (addr + UInt32.ofNat i).toNat / PGSIZE
      match d.table (Pgdir.pdx a) with
      | none => Prog.throw .loaduvmAddress
      | some pt => do
        -- the PTE may be one of the kernel's, or not present
        let d ← if a * PGSIZE < KERNBASE ∧ (pt.pte (Pgdir.ptx a)).isSome then pure d else wildStore outside d a
        if got = 0 then return (d, false) else loadFrom addr sz fuel (i + PGSIZE) (got - 1) d
    else return (d, true)

/-- Load a program segment into pgdir: the page directory, and whether -1 was not returned. -/
def loaduvm (d : Pgdir) (addr : UInt32) (sz : UInt32) (got : Nat) : Kern (Pgdir × Bool) :=
  if addr.toNat % PGSIZE ≠ 0 then Prog.throw .loaduvmAligned
  else loadFrom outside addr sz.toNat (sz.toNat / PGSIZE + 1) 0 got d

/-- The loop of `exec` over the program headers: the page directory, and the size, or `none` for `bad`. -/
def loadSegments (d : Pgdir) (sz : Size) : List Segment → Kern (Pgdir × Option Size)
  | [] => return (d, some sz)
  | ph :: phs => do
    if ph.read = false then return (d, none)
    else if ph.load = false then loadSegments d sz phs
    else if ph.memsz < ph.filesz then return (d, none)
    else do
      let (d, sz) ← (liftM (allocuvm kernelEnd d sz (ph.vaddr + ph.memsz)) : Kern (Pgdir × Size))
      if sz = 0 then return (d, none)
      else do
        let (d, ok) ← loaduvm outside d ph.vaddr ph.filesz ph.got
        if ok then loadSegments d sz phs else return (d, none)

/-- Clear PTE_U on the page at `a`. -/
def clearpteu (d : Pgdir) (a : Nat) : Kern Pgdir :=
  match d.table (Pgdir.pdx a) with
  | none => Prog.throw .clearpteu
  | some pt => return d.setPte a pt ((pt.pte (Pgdir.ptx a)).map fun x => { x with user := false })

/-- The loop of `copyout`: the page directory, and whether -1 was not returned. The first argument bounds the number of
rounds. -/
def copyout : Nat → Pgdir → UInt32 → Nat → Kern (Pgdir × Bool)
  | 0, d, _, _ => return (d, true)
  | fuel + 1, d, va, len =>
    if len = 0 then return (d, true)
    else do
      let a := va.toNat / PGSIZE
      let n := min len (PGSIZE - va.toNat % PGSIZE)
      let next := UInt32.ofNat ((a + 1) * PGSIZE)
      match d.table (Pgdir.pdx a) with
      | some pt =>
        if a * PGSIZE < KERNBASE ∧ ((pt.pte (Pgdir.ptx a)).any Pte.user) = true then copyout fuel d next (len - n)
        else return (d, false)
      | none => do
        -- `uva2ka` does not test what `walkpgdir` returns
        Prog.emit (.wild a)
        let s ← Prog.get
        match outside.nullPte a (s, d) with
        | none => return (d, false)
        | some (t, d) => do
          Prog.modify fun _ => t
          copyout fuel d next (len - n)

/-- Push argument strings and the rest of the stack, from the argument number `argc` on. -/
def pushArgs (d : Pgdir) (sp : UInt32) (argc : Nat) : List Nat → Kern (Pgdir × Bool)
  | [] =>
    let len := (3 + argc + 1) * 4
    copyout outside (len + 1) d (sp - UInt32.ofNat len) len
  | len :: args => do
    if MAXARG ≤ argc then return (d, false)
    else do
      let sp := (sp - UInt32.ofNat len) &&& ~~~3
      let (d, ok) ← copyout outside (len + 1) d sp len
      if ok then pushArgs d sp (argc + 1) args else return (d, false)

/-- `bad` of `exec`. -/
def execBad (d : Pgdir) : Kern Unit := liftM (freevm kernelEnd d)

/-- `exec` of the process `pid`, which is `p`. -/
def exec (pid : Fin NPROC) (p : Proc) (image : Image) : Kern Unit := do
  if image.elf = false then return ()
  else do
    match ← (liftM setupkvm : Kern (Option Pgdir)) with
    | none => return ()
    | some d => do
      let (d, loaded) ← loadSegments outside kernelEnd d 0 image.segments
      match loaded with
      | none => execBad kernelEnd d
      | some sz => do
        -- allocate two pages at the next page boundary
        let sz : Size := ⟨pageRoundUp sz * PGSIZE % (KERNBASE + 1), Nat.mod_lt _ (by decide)⟩
        let (d, sz) ← (liftM (allocuvm kernelEnd d sz (UInt32.ofNat (sz + 2 * PGSIZE))) : Kern (Pgdir × Size))
        if sz = 0 then execBad kernelEnd d
        else do
          let d ← clearpteu d ((sz - 2 * PGSIZE : Nat) / PGSIZE)
          let (d, ok) ← pushArgs outside d (UInt32.ofNat sz) 0 image.args
          if ok then do
            -- commit to the user image
            setProc pid (some { p with pgdir := d, sz })
            freevm kernelEnd p.pgdir
          else execBad kernelEnd d

end

/-! ## `proc.c` -/

section

variable (kernelEnd : Page)

/-- Grow current process's memory by n bytes. -/
def growproc (pid : Fin NPROC) (p : Proc) (n : Int32) : Kern Unit := do
  let newsz := UInt32.ofNat p.sz + n.toUInt32
  if n = 0 then return ()
  else do
    let (pgdir, sz) ← (liftM (if 0 < n then allocuvm kernelEnd p.pgdir p.sz newsz
      else deallocuvm kernelEnd p.pgdir p.sz newsz) : Kern (Pgdir × Size))
    setProc pid (some { p with pgdir, sz := if sz = 0 then p.sz else sz })

/-- Create a new process copying p as the parent. -/
def fork (pid : Fin NPROC) (p : Proc) : Kern Unit := do
  let s ← Prog.get
  match (List.finRange NPROC).find? fun np => (s.proc np).isNone with
  | none => return ()
  | some np => do
    match ← (liftM kalloc : Kern (Option Page)) with
    | none => return ()
    | some kstack => do
      match ← (liftM (copyuvm kernelEnd p.pgdir p.sz) : Kern (Option Pgdir)) with
      | none => kfree kernelEnd kstack
      | some pgdir => setProc np (some { kstack, pgdir, sz := p.sz, zombie := false, parent := pid })

/-- The init process. -/
def initproc : Fin NPROC := 0

/-- The table when process `pid` has exited and passed its children to init. -/
def exited (pid : Fin NPROC) (proc : Fin NPROC → Option Proc) : Fin NPROC → Option Proc := fun q =>
  (proc q).map fun x => { x with
    parent := if x.parent = pid then initproc else x.parent
    zombie := x.zombie || decide (q = pid) }

/-- The process turns into a zombie. -/
def exit (pid : Fin NPROC) : Kern Unit := do
  if pid = initproc then Prog.throw .initExiting
  else Prog.modify fun s => { s with proc := exited pid s.proc }

/-- `wait`: a zombie child is freed, if there is one. -/
def wait (pid : Fin NPROC) : Kern Unit := do
  let s ← Prog.get
  match (List.finRange NPROC).find? fun q => (s.proc q).any fun x => x.zombie && decide (x.parent = pid) with
  | none => return ()
  | some q =>
    match s.proc q with
    | none => return ()
    | some x => do
      kfree kernelEnd x.kstack
      freevm kernelEnd x.pgdir
      setProc q none

/-! ## `pipe.c` -/

/-- `pipealloc`, when there are file structures for pipe `j`. -/
def pipealloc : Kern Unit := do
  let s ← Prog.get
  match (List.finRange NFILE).find? fun j => (s.pipe j).isNone with
  | none => return ()
  | some j => do
    match ← (liftM kalloc : Kern (Option Page)) with
    | none => return ()
    | some page => setPipe j (some { page, readopen := true, writeopen := true })

/-- `pipeclose`, when the last descriptor of one end of pipe `j` is closed. -/
def pipeclose (j : Fin NFILE) (writable : Bool) : Kern Unit := do
  let s ← Prog.get
  match s.pipe j with
  | none => return ()
  | some p =>
    if (if writable then p.writeopen else p.readopen) = false then return ()
    else
      let p := if writable then { p with writeopen := false } else { p with readopen := false }
      if p.readopen = false ∧ p.writeopen = false then do
        kfree kernelEnd p.page
        setPipe j none
      else setPipe j (some p)

end

/-! ## Runs -/

/-- The kernel when it starts, with the pages `kinit1` freed; `kalloc` fails as `fails` says. -/
def start (kernelEnd : Page) (fails : Nat → Bool) : State where
  kmem := { freelist := freerange kernelEnd NPTENTRIES, fails }
  kpgdir := none
  cpustack := []
  proc := fun _ => none
  pipe := fun _ => none

/-- The calls that use memory, with what else they depend on. -/
inductive Call
  | fork
  | exec (image : Image)
  | sbrk (n : Int32)
  | exit
  | wait
  | pipe
  | close (j : Fin NFILE) (writable : Bool)

section

variable (outside : Outside) (kernelEnd : Page)

/-- `startothers` with `ncpu` other CPUs: their stacks. -/
def startothers : Nat → Kern Unit
  | 0 => return ()
  | ncpu + 1 => do
    match ← (liftM kalloc : Kern (Option Page)) with
    | none => startothers ncpu
    | some stack => do
      Prog.modify fun s => { s with cpustack := stack :: s.cpustack }
      startothers ncpu

/-- `main` from `kvmalloc` to `userinit`. -/
def main (ncpu : Nat) : Kern Unit := do
  match ← (liftM setupkvm : Kern (Option Pgdir)) with
  | none => Prog.throw .outOfMemory
  | some kpgdir => do
    Prog.modify fun s => { s with kpgdir := some kpgdir }
    startothers ncpu
    -- `kinit2`
    Prog.modify fun s => { s with
      kmem := { s.kmem with freelist := freerange NPTENTRIES (PHYSTOP / PGSIZE) ++ s.kmem.freelist } }
    match ← (liftM kalloc : Kern (Option Page)) with
    | none => Prog.throw .outOfMemory
    | some kstack => do
      match ← (liftM setupkvm : Kern (Option Pgdir)) with
      | none => Prog.throw .outOfMemory
      | some pgdir => do
        match ← (liftM kalloc : Kern (Option Page)) with
        | none => Prog.throw .outOfMemory
        | some mem => do
          let (pgdir, _) ← (liftM (mappages pgdir 0 { page := mem, user := true }) : Kern (Pgdir × Bool))
          setProc initproc (some { kstack, pgdir, sz := ⟨PGSIZE, by decide⟩, zombie := false, parent := initproc })

/-- A call of process `pid`, if it is alive. -/
def syscall (pid : Fin NPROC) (c : Call) : Kern Unit := do
  let s ← Prog.get
  match s.proc pid with
  | none => return ()
  | some p =>
    if p.zombie then return ()
    else
      match c with
      | .fork => fork kernelEnd pid p
      | .exec image => exec outside kernelEnd pid p image
      | .sbrk n => growproc kernelEnd pid p n
      | .exit => exit pid
      | .wait => wait kernelEnd pid
      | .pipe => pipealloc
      | .close j writable => pipeclose kernelEnd j writable

/-- The machine boots and runs the calls `tr`. -/
def machine (ncpu : Nat) (tr : List (Fin NPROC × Call)) : Kern Unit := do
  main ncpu
  Prog.forEach (fun c => syscall outside kernelEnd c.1 c.2) tr

end

end NewXv6.Vm
