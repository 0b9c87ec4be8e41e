import NewXv6.Fs.Model

/-!
# System calls (`file.c`, `sysfile.c`, `proc.c`)

The file table, and of each process its current directory and its descriptors. The calls are the code of one process
while no other process runs; a run is a list of calls by any processes. Arguments come as `argstr`, `argint` and
`argptr` return them, `none` where they return -1. Of pipes only the file structures are here: which bytes a read or a
write of a pipe moves changes nothing in this state. Of `exec` everything is left out but what it does to the file
system: which ranges it reads, and that it gives up after one of them, depends on what it reads.
-/

namespace NewXv6

open Lib

/-- The types of `struct file`. -/
inductive FdType
  | none
  | pipe
  | inode
  deriving DecidableEq

/-- `struct file`. -/
structure File where
  type : FdType
  ref : Int
  readable : Bool
  writable : Bool
  ip : Slot
  off : UInt32

/-- What the file system knows of a process. -/
structure Proc where
  cwd : Slot
  ofile : Fin NOFILE → Option (Fin NFILE)

/-- The file system, `ftable.file`, and the processes in use. -/
structure Sys where
  fs : FsState
  ftable : Fin NFILE → File
  proc : Fin NPROC → Option Proc

instance : MonadLift (Kern FsState) (Kern Sys) where
  monadLift m := m.zoom Sys.fs fun fs s => { s with fs }

/-- `struct stat`. -/
structure Stat where
  type : Int16
  ino : Nat
  nlink : Int16
  size : UInt32

/-! ## `file.c` -/

/-- `f->...`. -/
def file (f : Fin NFILE) : Kern Sys File := do
  let s ← Prog.get
  return s.ftable f

/-- A change of the fields of `*f`. -/
def setFile (f : Fin NFILE) (g : File → File) : Kern Sys Unit :=
  Prog.modify fun s => { s with ftable := Function.update s.ftable f (g (s.ftable f)) }

/-- Allocate a file structure. -/
def filealloc : Kern Sys (Option (Fin NFILE)) := do
  let s ← Prog.get
  match (List.finRange NFILE).find? fun f => decide ((s.ftable f).ref = 0) with
  | some f => do
    setFile f fun x => { x with ref := 1 }
    return some f
  | none => return none

/-- Increment ref count for file f. -/
def filedup (f : Fin NFILE) : Kern Sys (Fin NFILE) := do
  let x ← file f
  if x.ref < 1 then panic .filedup
  else do
    setFile f fun x => { x with ref := x.ref + 1 }
    return f

/-- Close file f. -/
def fileclose (f : Fin NFILE) : Kern Sys Unit := do
  let x ← file f
  if x.ref < 1 then panic .fileclose
  else if 0 < x.ref - 1 then setFile f fun x => { x with ref := x.ref - 1 }
  else do
    setFile f fun x => { x with ref := 0, type := .none }
    match x.type with
    | .inode => do
      beginOp
      iput x.ip
      endOp
    -- `pipeclose` changes the pipe only
    | .pipe => pure ()
    | .none => pure ()

/-- Copy stat information from inode. -/
def stati (ip : Slot) : Kern FsState Stat := do
  let i ← inode ip
  return { type := i.dinode.type, ino := i.inum, nlink := i.dinode.nlink, size := i.dinode.size }

/-- Get metadata about file f. -/
def filestat (f : Fin NFILE) : Kern Sys (Option Stat) := do
  let x ← file f
  match x.type with
  | .inode => do
    ilock x.ip
    let st ← stati x.ip
    iunlock x.ip
    return some st
  | .pipe | .none => return none

section

variable (devsw : Nat → Option Devsw)

/-- Read from file f: the bytes read, or `none` for -1. -/
def fileread (f : Fin NFILE) (n : UInt32) : Kern Sys (Option (List UInt8)) := do
  let x ← file f
  if x.readable = false then return none
  else
    match x.type with
    | .inode => do
      ilock x.ip
      let r ← readi devsw x.ip x.off n
      match r with
      | some data => setFile f fun x => { x with off := x.off + UInt32.ofNat data.length }
      | none => pure ()
      iunlock x.ip
      return r
    -- `piperead` changes the pipe only, and what it returns is not modelled
    | .pipe => return none
    | .none => panic .fileread

/-- The most bytes `filewrite` writes in one transaction. -/
def maxWrite : Nat := (LOGSIZE - 1 - 1 - 2) / 2 * 512

/-- One round of `filewrite`: what `writei` returned. -/
def writeChunk (f : Fin NFILE) (src : List UInt8) : Kern Sys Int := do
  beginOp
  let x ← file f
  ilock x.ip
  let r ← writei devsw x.ip src x.off
  if 0 < r then setFile f fun x => { x with off := x.off + UInt32.ofNat r.toNat } else pure ()
  iunlock x.ip
  endOp
  return r

/-- The loop of `filewrite`: whether all bytes were written. The first argument bounds the number of rounds. -/
def filewriteFrom (f : Fin NFILE) : Nat → List UInt8 → Kern Sys Bool
  | 0, src => pure (src.length = 0)
  | fuel + 1, src =>
    -- write a few blocks at a time to avoid exceeding the maximum log transaction size
    if src.length = 0 then pure true
    else do
      let n₁ := min src.length maxWrite
      let r ← writeChunk devsw f (src.take n₁)
      if r < 0 then return false
      else if r ≠ n₁ then panic .shortFilewrite
      else filewriteFrom f fuel (src.drop n₁)

/-- Write to file f: the number of bytes, or -1. -/
def filewrite (f : Fin NFILE) (src : List UInt8) : Kern Sys Int := do
  let x ← file f
  if x.writable = false then return -1
  else
    match x.type with
    | .inode => do
      let all ← filewriteFrom devsw f src.length src
      return if all then src.length else -1
    -- `pipewrite` changes the pipe only, and what it returns is not modelled
    | .pipe => return -1
    | .none => panic .filewrite

end

/-! ## Descriptors -/

/-- The open file of a descriptor. -/
def argfd (p : Proc) (fd : Int) : Option (Fin NFILE) :=
  if h : 0 ≤ fd ∧ fd < NOFILE then p.ofile ⟨fd.toNat, by omega⟩ else none

/-- Allocate a file descriptor for the given file. -/
def fdalloc (pid : Fin NPROC) (f : Fin NFILE) : Kern Sys (Option (Fin NOFILE)) := do
  let s ← Prog.get
  match s.proc pid with
  | none => return none
  | some p =>
    match (List.finRange NOFILE).find? fun fd => (p.ofile fd).isNone with
    | some fd => do
      Prog.modify fun s => { s with
        proc := Function.update s.proc pid (some { p with ofile := Function.update p.ofile fd (some f) }) }
      return some fd
    | none => return none

/-- `proc->ofile[fd] = 0`. -/
def fdclear (pid : Fin NPROC) (fd : Fin NOFILE) : Kern Sys Unit :=
  Prog.modify fun s => { s with proc := Function.update s.proc pid ((s.proc pid).map fun p =>
    { p with ofile := Function.update p.ofile fd none }) }

/-! ## `sysfile.c` -/

section

variable (devsw : Nat → Option Devsw)

/-- Is the directory dp empty except for "." and ".." ? The loop from `off` on. -/
def isdiremptyFrom (dp : Slot) : Nat → Nat → Kern FsState Bool
  | 0, _ => pure true
  | fuel + 1, off => do
    let i ← inode dp
    if off < i.dinode.size.toNat then do
      let de ← readEntry devsw .isdiremptyReadi dp off
      if de.inum ≠ 0 then return false else isdiremptyFrom dp fuel (off + DIRENT)
    else return true

def isdirempty (dp : Slot) : Kern FsState Bool := do
  let i ← inode dp
  isdiremptyFrom devsw dp (i.dinode.size.toNat / DIRENT + 1) (2 * DIRENT)

/-- `"."` and `".."`. -/
def dot : List UInt8 := [46]
def dotdot : List UInt8 := [46, 46]

/-- The file `path` as `type`, made if there is none; it is locked. -/
def create (cwd : Slot) (path : List UInt8) (type major minor : Int16) : Kern FsState (Option Slot) := do
  match ← nameiparent devsw cwd path with
  | none => return none
  | some (dp, name) => do
    ilock dp
    match ← dirlookup devsw dp name with
    | some (ip, _) => do
      iunlockput dp
      ilock ip
      let i ← inode ip
      if type = T_FILE ∧ i.dinode.type = T_FILE then return some ip
      else do
        iunlockput ip
        return none
    | none => do
      let ip ← ialloc type
      ilock ip
      setDinode ip fun d => { d with major, minor, nlink := 1 }
      iupdate ip
      if type = T_DIR then do
        -- create . and .. entries
        setDinode dp fun d => { d with nlink := d.nlink + 1 }
        iupdate dp
        let i ← inode ip
        let d ← inode dp
        let r ← dirlink devsw ip dot i.inum
        if r < 0 then panic .createDots
        else do
          let r ← dirlink devsw ip dotdot d.inum
          if r < 0 then panic .createDots else pure ()
      else pure ()
      let i ← inode ip
      let r ← dirlink devsw dp name i.inum
      if r < 0 then panic .createDirlink
      else do
        iunlockput dp
        return some ip

/-- `sys_open` from the locked inode on. -/
def openInode (pid : Fin NPROC) (ip : Slot) (omode : UInt32) : Kern Sys Int := do
  match ← filealloc with
  | none => do
    iunlockput ip
    endOp
    return -1
  | some f => do
    match ← fdalloc pid f with
    | none => do
      fileclose f
      iunlockput ip
      endOp
      return -1
    | some fd => do
      iunlock ip
      endOp
      setFile f fun x => { x with
        type := .inode, ip, off := 0, readable := omode &&& UInt32.ofNat O_WRONLY == 0,
        writable := omode &&& UInt32.ofNat O_WRONLY != 0 || omode &&& UInt32.ofNat O_RDWR != 0 }
      return fd

def sysOpen (pid : Fin NPROC) (cwd : Slot) (path : Option (List UInt8)) (omode : UInt32) : Kern Sys Int := do
  match path with
  | none => return -1
  | some path => do
    beginOp
    if omode &&& UInt32.ofNat O_CREATE ≠ 0 then do
      match ← create devsw cwd path T_FILE 0 0 with
      | none => do
        endOp
        return -1
      | some ip => openInode pid ip omode
    else do
      match ← namei devsw cwd path with
      | none => do
        endOp
        return -1
      | some ip => do
        ilock ip
        let i ← inode ip
        if i.dinode.type = T_DIR ∧ omode ≠ UInt32.ofNat O_RDONLY then do
          iunlockput ip
          endOp
          return -1
        else openInode pid ip omode

/-- `bad` of `sys_link`. -/
def linkBad (ip : Slot) : Kern Sys Int := do
  ilock ip
  setDinode ip fun d => { d with nlink := d.nlink - 1 }
  iupdate ip
  iunlockput ip
  endOp
  return -1

/-- Create the path new as a link to the same inode as old. -/
def sysLink (cwd : Slot) (old new : Option (List UInt8)) : Kern Sys Int := do
  match old, new with
  | some old, some new => do
    beginOp
    match ← namei devsw cwd old with
    | none => do
      endOp
      return -1
    | some ip => do
      ilock ip
      let i ← inode ip
      if i.dinode.type = T_DIR then do
        iunlockput ip
        endOp
        return -1
      else do
        setDinode ip fun d => { d with nlink := d.nlink + 1 }
        iupdate ip
        iunlock ip
        match ← nameiparent devsw cwd new with
        | none => linkBad ip
        | some (dp, name) => do
          ilock dp
          let i ← inode ip
          let r ← dirlink devsw dp name i.inum
          if r < 0 then do
            iunlockput dp
            linkBad ip
          else do
            iunlockput dp
            iput ip
            endOp
            return 0
  | _, _ => return -1

/-- `bad` of `sys_unlink`. -/
def unlinkBad (dp : Slot) : Kern Sys Int := do
  iunlockput dp
  endOp
  return -1

def sysUnlink (cwd : Slot) (path : Option (List UInt8)) : Kern Sys Int := do
  match path with
  | none => return -1
  | some path => do
    beginOp
    match ← nameiparent devsw cwd path with
    | none => do
      endOp
      return -1
    | some (dp, name) => do
      ilock dp
      -- cannot unlink "." or ".."
      if namecmp name dot = 0 ∨ namecmp name dotdot = 0 then unlinkBad dp
      else do
        match ← dirlookup devsw dp name with
        | none => unlinkBad dp
        | some (ip, off) => do
          ilock ip
          let i ← inode ip
          if i.dinode.nlink < 1 then panic .unlinkNlink
          else do
            let empty ← (if i.dinode.type = T_DIR then isdirempty devsw ip else pure true : Kern FsState Bool)
            if empty = false then do
              iunlockput ip
              unlinkBad dp
            else do
              let n ← writei devsw dp (List.replicate DIRENT 0) (UInt32.ofNat off)
              if n ≠ DIRENT then panic .unlinkWritei
              else do
                let i ← inode ip
                if i.dinode.type = T_DIR then do
                  setDinode dp fun d => { d with nlink := d.nlink - 1 }
                  iupdate dp
                else pure ()
                iunlockput dp
                setDinode ip fun d => { d with nlink := d.nlink - 1 }
                iupdate ip
                iunlockput ip
                endOp
                return 0

/-- `sys_mkdir` and `sys_mknod` from `create` on. -/
def makeNode (cwd : Slot) (path : Option (List UInt8)) (type major minor : Int16) : Kern Sys Int := do
  beginOp
  match path with
  | none => do
    endOp
    return -1
  | some path => do
    match ← create devsw cwd path type major minor with
    | none => do
      endOp
      return -1
    | some ip => do
      iunlockput ip
      endOp
      return 0

def sysMkdir (cwd : Slot) (path : Option (List UInt8)) : Kern Sys Int := makeNode devsw cwd path T_DIR 0 0

def sysMknod (cwd : Slot) (path : Option (List UInt8)) (major minor : Int16) : Kern Sys Int :=
  makeNode devsw cwd path T_DEV major minor

/-- `proc->cwd = ip`. -/
def setCwd (pid : Fin NPROC) (ip : Slot) : Kern Sys Unit :=
  Prog.modify fun s => { s with proc := Function.update s.proc pid ((s.proc pid).map fun p => { p with cwd := ip }) }

def sysChdir (pid : Fin NPROC) (cwd : Slot) (path : Option (List UInt8)) : Kern Sys Int := do
  beginOp
  match path with
  | none => do
    endOp
    return -1
  | some path => do
    match ← namei devsw cwd path with
    | none => do
      endOp
      return -1
    | some ip => do
      ilock ip
      let i ← inode ip
      if i.dinode.type ≠ T_DIR then do
        iunlockput ip
        endOp
        return -1
      else do
        iunlock ip
        iput cwd
        endOp
        setCwd pid ip
        return 0

/-- The file structures of a new pipe, as `pipealloc` leaves them. -/
def pipeEnd (readable : Bool) (x : File) : File := { x with type := .pipe, readable, writable := !readable }

/-- `pipealloc`: the file structures, or `none` for -1; `mem` tells whether `kalloc` returned a page. -/
def pipealloc (mem : Bool) : Kern Sys (Option (Fin NFILE × Fin NFILE)) := do
  match ← filealloc with
  | none => return none
  | some f0 => do
    match ← filealloc with
    | none => do
      fileclose f0
      return none
    | some f1 =>
      if mem then do
        setFile f0 (pipeEnd true)
        setFile f1 (pipeEnd false)
        return some (f0, f1)
      else do
        fileclose f0
        fileclose f1
        return none

/-- `sys_pipe`; `fd` tells whether `argptr` returned a pointer. -/
def sysPipe (pid : Fin NPROC) (fd mem : Bool) : Kern Sys Int := do
  if fd then do
    match ← pipealloc mem with
    | none => return -1
    | some (rf, wf) => do
      match ← fdalloc pid rf with
      | none => do
        fileclose rf
        fileclose wf
        return -1
      | some fd0 => do
        match ← fdalloc pid wf with
        | none => do
          fdclear pid fd0
          fileclose rf
          fileclose wf
          return -1
        | some _ => return 0
  else return -1

/-- What `exec` does to the file system: `reads` are the ranges it reads of the program. -/
def exec (cwd : Slot) (path : List UInt8) (reads : List (UInt32 × UInt32)) : Kern Sys Unit := do
  beginOp
  match ← namei devsw cwd path with
  | none => endOp
  | some ip => do
    ilock ip
    Prog.forEach (fun r => do
      let _ ← (liftM (readi devsw ip r.1 r.2) : Kern Sys (Option (List UInt8)))) reads
    iunlockput ip
    endOp

end

/-! ## `proc.c` -/

/-- The descriptors `fork` copies. -/
def forkFiles (ofile : Fin NOFILE → Option (Fin NFILE)) : Kern Sys Unit :=
  Prog.forEach (fun fd => match ofile fd with
    | some f => do
      let _ ← filedup f
    | none => pure ()) (List.finRange NOFILE)

/-- What `fork` does to the file system; `mem` tells whether `kalloc` and `copyuvm` got their pages. -/
def fork (p : Proc) (mem : Bool) : Kern Sys Int := do
  let s ← Prog.get
  match if mem then (List.finRange NPROC).find? fun np => (s.proc np).isNone else none with
  | none => return -1
  | some np => do
    forkFiles p.ofile
    let cwd ← (liftM (idup p.cwd) : Kern Sys Slot)
    Prog.modify fun s => { s with proc := Function.update s.proc np (some { cwd, ofile := p.ofile }) }
    return np

/-- The init process. -/
def initproc : Fin NPROC := 0

/-- What `exit` does to the file system. -/
def exit (pid : Fin NPROC) (p : Proc) : Kern Sys Unit := do
  if pid = initproc then panic .initExiting
  else do
    Prog.forEach (fun fd => match p.ofile fd with
      | some f => do
        fileclose f
        fdclear pid fd
      | none => pure ()) (List.finRange NOFILE)
    beginOp
    iput p.cwd
    endOp
    Prog.modify fun s => { s with proc := Function.update s.proc pid none }

/-! ## Calls -/

/-- The system calls that use the file system, with their arguments. -/
inductive Call
  | open (path : Option (List UInt8)) (omode : UInt32)
  | read (fd : Int) (n : UInt32)
  | write (fd : Int) (src : List UInt8)
  | close (fd : Int)
  | dup (fd : Int)
  | fstat (fd : Int)
  | link (old new : Option (List UInt8))
  | unlink (path : Option (List UInt8))
  | mkdir (path : Option (List UInt8))
  | mknod (path : Option (List UInt8)) (major minor : Int16)
  | chdir (path : Option (List UInt8))
  | pipe (fd mem : Bool)
  | exec (path : List UInt8) (reads : List (UInt32 × UInt32))
  | fork (mem : Bool)
  | exit

section

variable (devsw : Nat → Option Devsw)

/-- A system call of process `pid`, which is `p`. -/
def runCall (pid : Fin NPROC) (p : Proc) : Call → Kern Sys Unit
  | .open path omode => discard (sysOpen devsw pid p.cwd path omode)
  | .read fd n =>
    match argfd p fd with
    | some f => discard (fileread devsw f n)
    | none => pure ()
  | .write fd src =>
    match argfd p fd with
    | some f => discard (filewrite devsw f src)
    | none => pure ()
  | .close fd =>
    if h : 0 ≤ fd ∧ fd < NOFILE then
      match p.ofile ⟨fd.toNat, by omega⟩ with
      | some f => do
        fdclear pid ⟨fd.toNat, by omega⟩
        fileclose f
      | none => pure ()
    else pure ()
  | .dup fd =>
    match argfd p fd with
    | some f => do
      match ← fdalloc pid f with
      | some _ => discard (filedup f)
      | none => pure ()
    | none => pure ()
  | .fstat fd =>
    match argfd p fd with
    | some f => discard (filestat f)
    | none => pure ()
  | .link old new => discard (sysLink devsw p.cwd old new)
  | .unlink path => discard (sysUnlink devsw p.cwd path)
  | .mkdir path => discard (sysMkdir devsw p.cwd path)
  | .mknod path major minor => discard (sysMknod devsw p.cwd path major minor)
  | .chdir path => discard (sysChdir devsw pid p.cwd path)
  | .pipe fd mem => discard (sysPipe pid fd mem)
  | .exec path reads => exec devsw p.cwd path reads
  | .fork mem => discard (fork p mem)
  | .exit => exit pid p

/-- A call by process `pid`, if there is one. -/
def syscall (pid : Fin NPROC) (c : Call) : Kern Sys Unit := do
  let s ← Prog.get
  match s.proc pid with
  | some p => runCall devsw pid p c
  | none => pure ()

/-- A sequence of calls. -/
def syscalls (tr : List (Fin NPROC × Call)) : Kern Sys Unit := Prog.forEach (fun c => syscall devsw c.1 c.2) tr

end

end NewXv6
