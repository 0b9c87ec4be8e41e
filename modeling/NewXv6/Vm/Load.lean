import NewXv6.Vm.Own

/-!
# `exec` with the contents of pages (`exec.c`, `vm.c`)

The program is a file, given by its bytes, and the headers are read from them. Next to the page directory the code has
the contents of the physical pages: `allocuvm` clears the pages it takes, `loaduvm` and `copyout` store into them. What
`kalloc` and `kfree` leave in pages on the free list is left out, and so are the pages of the tables themselves.
-/

namespace NewXv6.Vm.Load

open Lib

/-! ## The state -/

/-- The process that calls `exec`: `proc->pgdir`, `sz`, `tf->eip`, `tf->esp` and `name`. -/
structure Caller where
  pgdir : Pgdir
  sz : Size
  eip : UInt32
  esp : UInt32
  name : List UInt8

/-- The contents of the pages. -/
abbrev Mem : Type := Page → Nat → UInt8

structure World where
  kmem : Kmem
  mem : Mem
  caller : Caller

abbrev Code (α : Type) : Type := Prog World Stop Event α

instance : MonadLift Alloc Code where
  monadLift m := m.zoom World.kmem fun kmem w => { w with kmem }

/-- What the stores that miss the user pages do. -/
structure Outside where
  /-- `loaduvm` stores at virtual page `a`. -/
  store : Nat → World × Pgdir → World × Pgdir
  /-- `copyout` uses a null pointer as the PTE of virtual page `a`; `none` if it gives up. -/
  nullPte : Nat → World × Pgdir → Option (World × Pgdir)

/-- The PTE of virtual page `a`, if it is below `KERNBASE`. -/
def userPte (d : Pgdir) (a : Nat) : Option Pte :=
  if a * PGSIZE < KERNBASE then (d.table (Pgdir.pdx a)).bind fun pt => pt.pte (Pgdir.ptx a) else none

/-- Store bytes in a page from `o` on. -/
def setBytes (page : Page) (o : Nat) (data : List UInt8) (mem : Mem) : Mem :=
  Function.update mem page fun j => if o ≤ j ∧ j < o + data.length then data.getD (j - o) 0 else mem page j

/-- Clear the virtual pages from `a` to `b`. -/
def clear (d : Pgdir) (a b : Nat) (mem : Mem) : Mem := fun p =>
  if p ∈ (List.range' a (b - a)).filterMap (fun v => (userPte d v).map Pte.page) then fun _ => 0 else mem p

/-! ## The file -/

/-- `readi` of a file that is not a device. -/
def readi (file : List UInt8) (off n : UInt32) : Option (List UInt8) :=
  let size := UInt32.ofNat file.length
  if off > size ∨ off + n < off then none
  else
    let n := if off + n > size then size - off else n
    some ((file.drop off.toNat).take n.toNat)

/-- `readi` of a structure of `n` bytes. -/
def readAll (file : List UInt8) (off : UInt32) (n : Nat) : Option (List UInt8) :=
  match readi file off (UInt32.ofNat n) with
  | some b => if b.length = n then some b else none
  | none => none

/-- A field of `len` bytes at `o`. -/
def field (b : List UInt8) (o len : Nat) : UInt32 :=
  UInt32.ofNat ((b.drop o).take len |>.foldr (fun x r => x.toNat + 256 * r) 0)

abbrev ELF_MAGIC : UInt32 := 0x464C457F
abbrev ELF_PROG_LOAD : UInt32 := 1

/-- `struct elfhdr` as far as `exec` reads it. -/
structure ElfHdr where
  magic : UInt32
  entry : UInt32
  phoff : UInt32
  phnum : Nat

def ElfHdr.ofBytes (b : List UInt8) : ElfHdr :=
  { magic := field b 0 4, entry := field b 24 4, phoff := field b 28 4, phnum := (field b 44 2).toNat }

/-- `struct proghdr` as far as `exec` reads it. -/
structure ProgHdr where
  type : UInt32
  off : UInt32
  vaddr : UInt32
  filesz : UInt32
  memsz : UInt32
  deriving DecidableEq

def ProgHdr.ofBytes (b : List UInt8) : ProgHdr :=
  { type := field b 0 4, off := field b 4 4, vaddr := field b 8 4, filesz := field b 16 4, memsz := field b 20 4 }

abbrev sizeofElf : Nat := 52
abbrev sizeofPh : Nat := 32

/-! ## `vm.c` -/

section

variable (outside : Outside) (kernelEnd : Page)

/-- A store that misses the user pages. -/
def wildStore (d : Pgdir) (a : Nat) : Code Pgdir := do
  Prog.emit (.wild a)
  let w ← Prog.get
  let (v, d) := outside.store a (w, d)
  Prog.modify fun _ => v
  return d

/-- `allocuvm` of `vm.c`, with its `memset`; a page that was not mapped is lost, and so is its contents. -/
def allocuvm (d : Pgdir) (oldsz : Size) (newsz : UInt32) : Code (Pgdir × Size) := do
  let (d, sz) ← (liftM (Vm.allocuvm kernelEnd d oldsz newsz) : Code (Pgdir × Size))
  Prog.modify fun w => { w with mem := clear d (pageRoundUp oldsz) (pageRoundUp sz) w.mem }
  return (d, sz)

/-- The part of a segment from byte `i` on that is read in one round. -/
def chunk (file : List UInt8) (offset sz : UInt32) (i : Nat) : Option (List UInt8) :=
  readi file (offset + UInt32.ofNat i) (UInt32.ofNat (min (sz.toNat - i) PGSIZE))

/-- The loop of `loaduvm` from byte `i` on; the first argument bounds the number of rounds. -/
def loadFrom (addr : UInt32) (file : List UInt8) (offset sz : UInt32) : Nat → Nat → Pgdir → Code (Pgdir × Bool)
  | 0, _, d => return (d, true)
  | fuel + 1, i, d =>
    if i < sz.toNat then do
      let a := (addr + UInt32.ofNat i).toNat / PGSIZE
      match d.table (Pgdir.pdx a) with
      | none => Prog.throw .loaduvmAddress
      | some _ =>
        match chunk file offset sz i with
        | none => return (d, false)
        | some data => do
          let d ← match userPte d a with
            | some x => do
              Prog.modify fun w => { w with mem := setBytes x.page 0 data w.mem }
              pure d
            | none => if data = [] then pure d else wildStore outside d a
          if data.length ≠ min (sz.toNat - i) PGSIZE then return (d, false)
          else loadFrom addr file offset sz fuel (i + PGSIZE) d
    else return (d, true)

/-- Load a program segment into pgdir: the page directory, and whether -1 was not returned. -/
def loaduvm (d : Pgdir) (addr : UInt32) (file : List UInt8) (offset sz : UInt32) : Code (Pgdir × Bool) :=
  if addr.toNat % PGSIZE ≠ 0 then Prog.throw .loaduvmAligned
  else loadFrom outside addr file offset sz (sz.toNat / PGSIZE + 1) 0 d

/-- Clear PTE_U on the page at `a`. -/
def clearpteu (d : Pgdir) (a : Nat) : Code Pgdir :=
  match d.table (Pgdir.pdx a) with
  | none => Prog.throw .clearpteu
  | some pt => return d.setPte a pt ((pt.pte (Pgdir.ptx a)).map fun x => { x with user := false })

/-- The loop of `copyout`: the page directory, and whether -1 was not returned. The first argument bounds the number of
rounds. -/
def copyout : Nat → Pgdir → UInt32 → List UInt8 → Code (Pgdir × Bool)
  | 0, d, _, _ => return (d, true)
  | fuel + 1, d, va, p =>
    if p = [] then return (d, true)
    else do
      let a := va.toNat / PGSIZE
      let n := min p.length (PGSIZE - va.toNat % PGSIZE)
      let next := UInt32.ofNat ((a + 1) * PGSIZE)
      match d.table (Pgdir.pdx a) with
      | some _ =>
        match userPte d a with
        | some x =>
          if x.user then do
            Prog.modify fun w => { w with mem := setBytes x.page (va.toNat % PGSIZE) (p.take n) w.mem }
            copyout fuel d next (p.drop n)
          else return (d, false)
        | none => return (d, false)
      | none => do
        -- `uva2ka` does not test what `walkpgdir` returns
        Prog.emit (.wild a)
        let w ← Prog.get
        match outside.nullPte a (w, d) with
        | none => return (d, false)
        | some (v, d) => do
          Prog.modify fun _ => v
          copyout fuel d next (p.drop n)

/-! ## `exec.c` -/

/-- The loop of `exec` over the program headers: the page directory, and the size, or `none` for `bad`. -/
def loadSegments (file : List UInt8) : Nat → UInt32 → Pgdir → Size → Code (Pgdir × Option Size)
  | 0, _, d, sz => return (d, some sz)
  | count + 1, off, d, sz =>
    match readAll file off sizeofPh with
    | none => return (d, none)
    | some b => do
      let ph := ProgHdr.ofBytes b
      if ph.type ≠ ELF_PROG_LOAD then loadSegments file count (off + UInt32.ofNat sizeofPh) d sz
      else if ph.memsz < ph.filesz then return (d, none)
      else do
        let (d, sz) ← allocuvm kernelEnd d sz (ph.vaddr + ph.memsz)
        if sz = 0 then return (d, none)
        else do
          let (d, ok) ← loaduvm outside d ph.vaddr file ph.off ph.filesz
          if ok then loadSegments file count (off + UInt32.ofNat sizeofPh) d sz else return (d, none)

/-- A word in memory. -/
def wordBytes (x : UInt32) : List UInt8 :=
  [UInt8.ofNat x.toNat, UInt8.ofNat (x.toNat / 256), UInt8.ofNat (x.toNat / 65536), UInt8.ofNat (x.toNat / 16777216)]

/-- The stack pointer below an argument string. -/
def below (sp : UInt32) (arg : List UInt8) : UInt32 := (sp - UInt32.ofNat (arg.length + 1)) &&& ~~~3

/-- Push argument strings and the rest of the stack: the page directory, and the stack pointer, or `none` for `bad`. -/
def pushArgs (d : Pgdir) (sp : UInt32) (ustack : List UInt32) : List (List UInt8) → Code (Pgdir × Option UInt32)
  | [] => do
    let argc := ustack.length
    let words := [0xffffffff, UInt32.ofNat argc, sp - UInt32.ofNat ((argc + 1) * 4)] ++ ustack ++ [0]
    let sp := sp - UInt32.ofNat ((3 + argc + 1) * 4)
    let (d, ok) ← copyout outside ((3 + argc + 1) * 4 + 1) d sp (words.flatMap wordBytes)
    return (d, if ok then some sp else none)
  | arg :: args => do
    if MAXARG ≤ ustack.length then return (d, none)
    else do
      let (d, ok) ← copyout outside (arg.length + 2) d (below sp arg) (arg ++ [0])
      if ok then pushArgs d (below sp arg) (ustack ++ [below sp arg]) args else return (d, none)

/-- What follows the last slash of a path. -/
def last (path : List UInt8) : List UInt8 :=
  path.foldl (fun l c => if c = 47 then [] else l ++ [c]) []

/-- `bad` of `exec`. -/
def bad (d : Pgdir) : Code Bool := do
  (liftM (freevm kernelEnd d) : Code Unit)
  return false

/-- `exec` of the file that `namei` finds: whether -1 was not returned. -/
def exec (path : List UInt8) (file : Option (List UInt8)) (argv : List (List UInt8)) : Code Bool := do
  match file with
  | none => return false
  | some file =>
    match readAll file 0 sizeofElf with
    | none => return false
    | some b =>
      let elf := ElfHdr.ofBytes b
      if elf.magic ≠ ELF_MAGIC then return false
      else do
        match ← (liftM setupkvm : Code (Option Pgdir)) with
        | none => return false
        | some d => do
          let (d, loaded) ← loadSegments outside kernelEnd file elf.phnum elf.phoff d 0
          match loaded with
          | none => bad kernelEnd d
          | some sz => do
            -- allocate two pages at the next page boundary
            let sz : Size := .ofNat (KERNBASE + 1) (pageRoundUp sz * PGSIZE)
            let (d, sz) ← allocuvm kernelEnd d sz (UInt32.ofNat (sz + 2 * PGSIZE))
            if sz = 0 then bad kernelEnd d
            else do
              let d ← clearpteu d ((sz - 2 * PGSIZE : Nat) / PGSIZE)
              let (d, pushed) ← pushArgs outside d (UInt32.ofNat sz) [] argv
              match pushed with
              | none => bad kernelEnd d
              | some sp => do
                -- commit to the user image
                let w ← Prog.get
                Prog.modify fun w => { w with
                  caller := { pgdir := d, sz, eip := elf.entry, esp := sp, name := (last path).take 15 } }
                (liftM (freevm kernelEnd w.caller.pgdir) : Code Unit)
                return true

end

end NewXv6.Vm.Load
