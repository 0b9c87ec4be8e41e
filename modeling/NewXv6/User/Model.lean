import NewXv6.Sys.Model

/-!
# cp and mv (`cp.c`, `mv.c`)

The two programs over the system calls they make, on files as lists of bytes and directories as maps from names to inode
numbers; blocks are left out, so a disk that is full is not modelled (`NewXv6.User.Disk` reads such a tree off a disk). No
other process runs, and no other process has one of the two files open. A run that does not come to the end of the copy loop
gives why: the program exits or a call panics, which a device as source counts to (what it reads is not in the file system),
or `strcpy` runs over `com`, after which nothing is known.
-/

namespace NewXv6.User

open Lib

/-- What an inode holds. -/
inductive Kind
  | file (data : List UInt8)
  | dir (entry : List UInt8 → Option Nat)
  | dev

/-- An inode in use. -/
structure INode where
  kind : Kind
  nlink : Nat

/-- The inodes. -/
structure Tree where
  ninodes : Nat
  node : Nat → Option INode

namespace Tree

/-- The data of a file. -/
def file (t : Tree) (i : Nat) : Option (List UInt8) :=
  match t.node i with
  | some ⟨.file data, _⟩ => some data
  | _ => none

/-- The entries of a directory. -/
def dir (t : Tree) (i : Nat) : Option (List UInt8 → Option Nat) :=
  match t.node i with
  | some ⟨.dir entry, _⟩ => some entry
  | _ => none

/-- Change what an inode holds. -/
def setKind (t : Tree) (i : Nat) (kind : Kind) : Tree :=
  { t with node := Function.update t.node i ((t.node i).map fun x => { x with kind }) }

/-! ## Path names -/

/-- The elements of a path; the first argument bounds their number. -/
def elemsFrom : Nat → List UInt8 → List (List UInt8)
  | 0, _ => []
  | fuel + 1, path =>
    match skipelem path with
    | none => []
    | some (name, path) => name :: elemsFrom fuel path

/-- The elements of a path. -/
def elems (path : List UInt8) : List (List UInt8) := elemsFrom path.length path

/-- Where a path starts. -/
def start (cwd : Nat) (path : List UInt8) : Nat := if path.headD 0 = slash then ROOTINO else cwd

/-- `dirlookup`. -/
def dirlookup (t : Tree) (dp : Nat) (name : List UInt8) : Option Nat := (t.dir dp).bind fun entry => entry name

/-- The loop of `namex`. -/
def walk (t : Tree) : Nat → List (List UInt8) → Option Nat
  | ip, [] => some ip
  | ip, name :: names => (t.dirlookup ip name).bind fun next => t.walk next names

def namei (t : Tree) (cwd : Nat) (path : List UInt8) : Option Nat := t.walk (start cwd path) (elems path)

/-- The directory of the last element, and the element. -/
def nameiparent (t : Tree) (cwd : Nat) (path : List UInt8) : Option (Nat × List UInt8) :=
  match (elems path).getLast? with
  | none => none
  | some name => (t.walk (start cwd path) (elems path).dropLast).bind fun dp => (t.dir dp).map fun _ => (dp, name)

/-! ## System calls -/

/-- `ialloc`. -/
def ialloc (t : Tree) : Option Nat := (List.range' 1 (t.ninodes - 1)).find? fun i => (t.node i).isNone

/-- `dirlink`. -/
def dirlink (t : Tree) (dp : Nat) (entry : List UInt8 → Option Nat) (name : List UInt8) (inum : Nat) : Tree :=
  t.setKind dp (.dir (Function.update entry name (some inum)))

/-- `open` with `O_CREATE`: the file, made if there is none. -/
def create (t : Tree) (cwd : Nat) (path : List UInt8) : Option (Tree × Nat) :=
  match t.nameiparent cwd path with
  | none => none
  | some (dp, name) =>
    match t.dir dp with
    | none => none
    | some entry =>
      match entry name with
      | some ip => (t.file ip).map fun _ => (t, ip)
      | none =>
        t.ialloc.map fun ip => (dirlink { t with node := Function.update t.node ip (some ⟨.file [], 1⟩) } dp entry name ip, ip)

/-- `read` of a file at `off`: the bytes, or `none` for -1. -/
def read (t : Tree) (ip off n : Nat) : Option (List UInt8) :=
  (t.file ip).bind fun data => if data.length < off then none else some ((data.drop off).take n)

/-- `write` of a file at `off`: the file system, and the bytes written, 0 where it returns -1. -/
def write (t : Tree) (ip off : Nat) (src : List UInt8) : Tree × Nat :=
  match t.file ip with
  | none => (t, 0)
  | some data =>
    if data.length < off then (t, 0)
    else if MAXFILE * BSIZE < off + src.length then (t, 0)
    else (t.setKind ip (.file (data.take off ++ src ++ data.drop (off + src.length))), src.length)

/-- `unlink` of a file; nothing where it returns -1. -/
def unlink (t : Tree) (cwd : Nat) (path : List UInt8) : Option Tree :=
  match t.nameiparent cwd path with
  | none => none
  | some (dp, name) =>
    -- cannot unlink "." or ".."
    if name = dot ∨ name = dotdot then none
    else
      match t.dir dp with
      | none => none
      | some entry =>
        match entry name with
        | none => none
        | some ip =>
          match t.node ip with
          | none => none
          | some ⟨.dir _, _⟩ => none
          | some x =>
            let t' := t.setKind dp (.dir (Function.update entry name none))
            if x.nlink < 1 then none
            -- the last link: `iput` frees the inode
            else if x.nlink = 1 then some { t' with node := Function.update t'.node ip none }
            else some { t' with node := Function.update t'.node ip (some { x with nlink := x.nlink - 1 }) }

end Tree

/-! ## The programs -/

/-- The size of `buf`. -/
abbrev BUF_SIZE : Nat := 256

/-- The file name at the end of a path. -/
def fileName (path : List UInt8) : List UInt8 := (path.reverse.takeWhile (· != slash)).reverse

/-- The size of `com`. -/
abbrev COM_SIZE : Nat := 128

/-- The destination; the name of the source is appended to a path that ends in a slash. -/
def destPath (src dest : List UInt8) : List UInt8 := if dest.getLast? = some slash then dest ++ fileName src else dest

/-- `com`; `none` where `strcpy` stores behind its end, a NUL at least. -/
def com (src dest : List UInt8) : Option (List UInt8) :=
  if (destPath src dest).length < COM_SIZE then some (destPath src dest) else none

/-- Why a run does not come to the end of the copy loop. -/
inductive Stop
  /-- The program exits, or a call panics. -/
  | exit
  /-- `strcpy` stores behind the end of `com`. -/
  | overrun

/-- The copy loop: `off` and `destOff` are the offsets of the two open files. The first argument bounds the number of
rounds. -/
def copyLoop : Nat → Tree → Nat → Nat → Nat → Nat → Option Tree
  | 0, _, _, _, _, _ => none
  | fuel + 1, t, src, dest, off, destOff =>
    match t.read src off BUF_SIZE with
    | none => some t
    | some buf =>
      if buf.length = 0 then some t
      else copyLoop fuel (t.write dest destOff buf).1 src dest (off + buf.length) (destOff + (t.write dest destOff buf).2)

/-- `cp`: the file system after the copy loop. `fds` tells whether the two calls of `open` got a file structure and a
descriptor. -/
def cp (t : Tree) (cwd : Nat) (fds : Bool × Bool) (src dest : List UInt8) : Except Stop Tree :=
  match t.namei cwd src with
  | none => .error .exit
  | some ip =>
    match t.file ip with
    | none => .error .exit
    | some data =>
      if fds.1 then
        match com src dest with
        | none => .error .overrun
        | some path =>
          match t.create cwd path with
          | none => .error .exit
          | some (t', dp) =>
            if fds.2 then
              match copyLoop (data.length + 1) t' ip dp 0 0 with
              | none => .error .exit
              | some t'' => .ok t''
            else .error .exit
      else .error .exit

/-- The end of `mv`: whether the source was unlinked. -/
def unlinkSrc (t : Tree) (cwd : Nat) (src : List UInt8) : Tree × Bool :=
  match t.unlink cwd src with
  | some t' => (t', true)
  | none => (t, false)

/-- `mv`: the file system at the end, and whether the source was unlinked. -/
def mv (t : Tree) (cwd : Nat) (fds : Bool × Bool) (src dest : List UInt8) : Except Stop (Tree × Bool) :=
  (cp t cwd fds src dest).map fun t' => unlinkSrc t' cwd src

end NewXv6.User
