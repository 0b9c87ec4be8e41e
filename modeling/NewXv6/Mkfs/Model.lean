import NewXv6.Fs.Model
import NewXv6.Fs.Files

/-!
# Making a file system (`mkfs.c`)

`mkfs` writes an image sector by sector: zeros, the superblock, the root directory, the files it is given, and at last the
free bitmap. What successive calls of `read` return of a file is part of the input. The conversions to little-endian
byte order are those of `Block`.
-/

namespace NewXv6

namespace Mkfs

/-! ## The disk -/

abbrev size : Nat := 1024 * 1024
abbrev nlog : Nat := LOGSIZE
abbrev ninodes : Nat := 200
abbrev nblocks : Nat := 1024 * 1024 - 3 - 256 - 26 - LOGSIZE

/-- The superblock. -/
def sb : Superblock := ⟨size, nblocks, ninodes, nlog⟩

abbrev bitblocks : Nat := size / (512 * 8) + 1

/-- The blocks before the data. -/
abbrev metablocks : Nat := ninodes / IPB + 3 + bitblocks

/-- The image, and the counters `freeblock`, `usedblocks` and `freeinode`. -/
structure State where
  disk : Nat → Block
  freeblock : Nat
  usedblocks : Nat
  freeinode : Nat

namespace State

def rsect (s : State) (sec : Nat) : Block := s.disk sec

def wsect (s : State) (sec : Nat) (buf : Block) : State := { s with disk := Function.update s.disk sec buf }

end State

def i2b (inum : Nat) : Nat := inum / IPB + 2

namespace State

def winode (s : State) (inum : Nat) (ip : Dinode) : State :=
  s.wsect (i2b inum) ((s.rsect (i2b inum)).putDinode (inum % IPB) ip)

def rinode (s : State) (inum : Nat) : Dinode := (s.rsect (i2b inum)).getDinode (inum % IPB)

def ialloc (s : State) (type : Int16) : Nat × State :=
  (s.freeinode, { s with freeinode := s.freeinode + 1 }.winode s.freeinode { Dinode.zero with type, nlink := 1, size := 0 })

/-! ## Files -/

/-- `freeblock++; usedblocks++`. -/
def take (s : State) : Nat × State := (s.freeblock, { s with freeblock := s.freeblock + 1, usedblocks := s.usedblocks + 1 })

/-- The block in entry `k` of the index block `a`, which is allocated if there is none. -/
def indirect (s : State) (a k : Nat) : Nat × State :=
  if (s.rsect a).word k = 0 then
    (s.take.1, s.take.2.wsect a ((s.rsect a).setWord k (.ofNat s.take.1)))
  else (((s.rsect a).word k).toNat, s)

/-- The block of an address of the inode, which is allocated if there is none. -/
def address (s : State) (din : Dinode) (j : Fin (NDIRECT + 1)) : Nat × Dinode × State :=
  if din.addrs j = 0 then
    (s.take.1, { din with addrs := Function.update din.addrs j (.ofNat s.take.1) }, s.take.2)
  else ((din.addrs j).toNat, din, s)

/-- The data block `fbn` of the inode, which is allocated if there is none. -/
def fileBlock (s : State) (din : Dinode) (fbn : Nat) : Nat × Dinode × State :=
  if h : fbn < NDIRECT then s.address din ⟨fbn, Nat.lt_succ_of_lt h⟩
  else
    let d₁ := (fbn - NDIRECT) / 128
    let k₁ := (fbn - NDIRECT) % 128
    let d₂ := d₁ / 128
    let k₂ := d₁ % 128
    let k₃ := d₂ % 128
    let (a₁, din, s) := s.address din (Fin.last NDIRECT)
    let (a₂, s) := s.indirect a₁ k₃
    let (a₃, s) := s.indirect a₂ k₂
    let (x, s) := s.indirect a₃ k₁
    (x, din, s)

/-- The loop of `iappend`: the bytes `p` at offset `off`, which is a `uint`. -/
def iappendFrom (s : State) (din : Dinode) (off : Nat) (p : List UInt8) : State × Dinode × Nat :=
  if _hp : p = [] then (s, din, off)
  else
    let fbn := off / 512
    let (x, din, s) := s.fileBlock din fbn
    let n₁ := min p.length ((fbn + 1) * 512 - off)
    let s := s.wsect x ((s.rsect x).put (off - fbn * 512) n₁ fun j => p.getD j 0)
    iappendFrom s din ((off + n₁) % 2 ^ 32) (p.drop n₁)
termination_by p.length
decreasing_by
  have hlen := List.length_pos_iff.2 _hp
  simp only [List.length_drop]
  omega

def iappend (s : State) (inum : Nat) (p : List UInt8) : State :=
  let (s, din, off) := s.iappendFrom (s.rinode inum) (s.rinode inum).size.toNat p
  s.winode inum { din with size := .ofNat off }

end State

/-! ## The bitmap -/

/-- The buffer in `balloc` when `used` blocks are left to mark. -/
def bitmapBlock (used : Nat) : Block := (List.range (min used 512)).foldl Block.setBit Block.zero

/-- The loop of `balloc`, which leaves the last buffer, and the write after it. -/
def State.ballocFrom (s : State) (used j : Nat) (buf : Block) : State :=
  if h : 0 < used then
    (s.wsect (ninodes / IPB + 3 + j) (bitmapBlock used)).ballocFrom (used - 512) (j + 1) (bitmapBlock used)
  else s.wsect (ninodes / IPB + 3) buf
termination_by used
decreasing_by exact Nat.sub_lt h (Nat.succ_pos _)

/-- Mark the first `used` blocks. -/
def State.balloc (s : State) (used : Nat) : State := s.ballocFrom used 0 Block.zero

/-! ## The program -/

/-- A host file: its name, and what `read` returns until it returns 0. -/
structure HostFile where
  name : List UInt8
  reads : List (List UInt8)
  some_read : ∀ cc ∈ reads, cc ≠ [] ∧ cc.length ≤ 512

/-- What is in the file. -/
def HostFile.contents (f : HostFile) : List UInt8 := f.reads.flatten

/-- `++argv[i]` when the name starts with `_`. -/
def skipUnderscore : List UInt8 → List UInt8
  | 95 :: name => name
  | name => name

/-- An entry of the root directory. -/
def dirent (inum : Nat) (name : List UInt8) : List UInt8 :=
  Dirent.encode { inum := UInt16.ofNat inum, name := strncpy name DIRSIZ }

/-- The disk before the first file: zeros, and the superblock. -/
def format : State where
  disk := Function.update (fun _ => Block.zero) 1
    ((((Block.zero.setWord 0 (.ofNat size)).setWord 1 (.ofNat nblocks)).setWord 2 (.ofNat ninodes)).setWord 3 (.ofNat nlog))
  freeblock := metablocks
  usedblocks := metablocks
  freeinode := 1

/-- The root directory with its entries `"."` and `".."`. -/
def makeRoot (s : State) : State :=
  let (rootino, s) := s.ialloc T_DIR
  let s := s.iappend rootino (dirent rootino [46])
  s.iappend rootino (dirent rootino [46, 46])

/-- One file of the command line. -/
def addFile (s : State) (f : HostFile) : State :=
  let (inum, s) := s.ialloc T_FILE
  let s := s.iappend ROOTINO (dirent inum (skipUnderscore f.name))
  f.reads.foldl (fun s cc => s.iappend inum cc) s

/-- Fix the size of the root directory. -/
def fixRoot (s : State) : State :=
  let din := s.rinode ROOTINO
  s.winode ROOTINO { din with size := .ofNat ((din.size.toNat / BSIZE + 1) * BSIZE % 2 ^ 32) }

/-- The image without its bitmap. -/
def filled (files : List HostFile) : State := fixRoot (files.foldl addFile (makeRoot format))

/-- The image `mkfs` makes of the files: none if a name has a `/`, or if the number of used blocks is no `int`. -/
def mkfs (files : List HostFile) : Option (Nat → Block) :=
  if files.any fun f => f.name.contains 47 then none
  else if (filled files).usedblocks < 2 ^ 31 then some ((filled files).balloc (filled files).usedblocks).disk
  else none

end Mkfs

end NewXv6
