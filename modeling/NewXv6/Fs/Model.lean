import NewXv6.Log.Model

/-!
# Files (`fs.c`)

The allocator of disk blocks, the inode cache, the contents of inodes, directories and path names, as one process
runs them while no other process runs. There is one device, so `dev` fields and arguments are left out. A pointer to a
cached inode is its index in `icache.inode`. A sleep on a locked inode does not end.

Block numbers that are stored or returned are `uint`; a sector a buffer is for is a natural number.
-/

namespace NewXv6

open Lib

/-- An entry of the inode cache. -/
abbrev Slot : Type := Fin NINODE

/-- In-memory copy of an inode: `dinode` holds the copies of the disk inode's fields, `busy` and `valid` the flags. -/
structure Inode where
  inum : Nat
  ref : Int
  busy : Bool
  valid : Bool
  dinode : Dinode

/-- The log layer and `icache.inode`. -/
structure FsState where
  io : LogState
  icache : Slot → Inode

namespace FsState

/-- The contents of a sector as `bread` returns them. -/
def view (s : FsState) : Nat → Block := s.io.view

end FsState

instance : MonadLift (Kern LogState) (Kern FsState) where
  monadLift m := m.zoom FsState.io fun io s => { s with io }

/-- The device functions of a major device number: what `read` puts into the buffer, or `none` for -1, and what `write`
returns. -/
structure Devsw where
  read : Option (UInt32 → Option (List UInt8))
  write : Option (List UInt8 → Int)

/-- `ip->...`. -/
def inode (ip : Slot) : Kern FsState Inode := do
  let s ← Prog.get
  return s.icache ip

/-- A change of the fields of `*ip`. -/
def setInode (ip : Slot) (f : Inode → Inode) : Kern FsState Unit :=
  Prog.modify fun s => { s with icache := Function.update s.icache ip (f (s.icache ip)) }

/-- A change of the fields of `*ip` that are copies of the disk inode. -/
def setDinode (ip : Slot) (f : Dinode → Dinode) : Kern FsState Unit :=
  setInode ip fun i => { i with dinode := f i.dinode }

/-! ## Blocks -/

/-- Zero a block. -/
def bzero (bno : Nat) : Kern LogState Unit := logWrite bno Block.zero

/-- The loop of `balloc` over the bits of the bitmap block `bp` that holds the bits of the blocks from `b` on. -/
@[irreducible] def findFree (sb : Superblock) (b : Nat) (bp : Block) : Option Nat :=
  (List.range BPB).find? fun bi => b + bi < sb.size && !bp.bit bi

/-- The loop of `balloc` over the bitmap blocks. -/
def ballocFrom (sb : Superblock) : List Nat → Kern LogState UInt32
  | [] => panic .ballocOutOfBlocks
  | b :: bs => do
    let bp ← bread (BBLOCK b sb.ninodes)
    match findFree sb b bp with
    | some bi => do
      let s ← Prog.get
      Prog.emit (.balloc s.view (b + bi))
      logWrite (BBLOCK b sb.ninodes) (bp.setBit bi)
      bzero (b + bi)
      return UInt32.ofNat (b + bi)
    | none => ballocFrom sb bs

/-- Allocate a zeroed disk block. -/
def balloc : Kern LogState UInt32 := do
  let sb ← readsb
  ballocFrom sb ((List.range ((sb.size + (BPB - 1)) / BPB)).map (· * BPB))

/-- Free a disk block. -/
def bfree (b : UInt32) : Kern LogState Unit := do
  let sb ← readsb
  let bp ← bread (BBLOCK b.toNat sb.ninodes)
  let bi := b.toNat % BPB
  if bp.bit bi then logWrite (BBLOCK b.toNat sb.ninodes) (bp.clearBit bi)
  else panic .freeingFreeBlock

/-! ## Inodes -/

/-- Find the inode with number `inum` and return the in-memory copy. -/
def iget (inum : Nat) : Kern FsState Slot := do
  let s ← Prog.get
  match (List.finRange NINODE).find? fun ip => decide (0 < (s.icache ip).ref) && decide ((s.icache ip).inum = inum) with
  | some ip => do
    setInode ip fun i => { i with ref := i.ref + 1 }
    return ip
  | none =>
    -- recycle an inode cache entry
    match (List.finRange NINODE).find? fun ip => decide ((s.icache ip).ref = 0) with
    | some ip => do
      setInode ip fun i => { i with inum, ref := 1, busy := false, valid := false }
      return ip
    | none => panic .igetNoInodes

/-- The loop of `ialloc` over the inode numbers. -/
def iallocFrom (type : Int16) : List Nat → Kern FsState Slot
  | [] => panic .iallocNoInodes
  | inum :: inums => do
    let bp ← bread (IBLOCK inum)
    if (bp.getDinode (inum % IPB)).type = 0 then do
      logWrite (IBLOCK inum) (bp.putDinode (inum % IPB) { Dinode.zero with type })
      iget inum
    else iallocFrom type inums

/-- Allocate a new inode with the given type. -/
def ialloc (type : Int16) : Kern FsState Slot := do
  let sb ← readsb
  iallocFrom type (List.range' 1 (sb.ninodes - 1))

/-- Copy a modified in-memory inode to disk. -/
def iupdate (ip : Slot) : Kern FsState Unit := do
  let i ← inode ip
  let bp ← bread (IBLOCK i.inum)
  logWrite (IBLOCK i.inum) (bp.putDinode (i.inum % IPB) i.dinode)

/-- Increment reference count. -/
def idup (ip : Slot) : Kern FsState Slot := do
  setInode ip fun i => { i with ref := i.ref + 1 }
  return ip

/-- Lock the given inode; read it from disk if necessary. -/
def ilock (ip : Slot) : Kern FsState Unit := do
  let i ← inode ip
  if i.ref < 1 then panic .ilock
  else if i.busy then Prog.throw .hang
  else do
    setInode ip fun i => { i with busy := true }
    if i.valid then pure ()
    else do
      let bp ← bread (IBLOCK i.inum)
      let dip := bp.getDinode (i.inum % IPB)
      setInode ip fun i => { i with dinode := dip, valid := true }
      if dip.type = 0 then panic .ilockNoType else pure ()

/-- Unlock the given inode. -/
def iunlock (ip : Slot) : Kern FsState Unit := do
  let i ← inode ip
  if !i.busy || decide (i.ref < 1) then panic .iunlock
  else setInode ip fun i => { i with busy := false }

/-- Free the block of a direct address, or the top index block, and clear the address. -/
def freeAddr (ip : Slot) (j : Fin (NDIRECT + 1)) : Kern FsState Unit := do
  let i ← inode ip
  bfree (i.dinode.addrs j)
  setDinode ip fun d => { d with addrs := Function.update d.addrs j 0 }

/-- Truncate inode (discard contents). -/
def itrunc (ip : Slot) : Kern FsState Unit := do
  let i ← inode ip
  let s ← Prog.get
  Prog.emit (.itrunc s.view i.dinode)
  Prog.forEach (fun j : Fin NDIRECT => do
    let i ← inode ip
    if i.dinode.addrs j.castSucc ≠ 0 then freeAddr ip j.castSucc else pure ()) (List.finRange NDIRECT)
  let i ← inode ip
  if i.dinode.addrs (Fin.last NDIRECT) ≠ 0 then do
    let bp ← bread (i.dinode.addrs (Fin.last NDIRECT)).toNat
    Prog.forEach (fun j => if bp.word j ≠ 0 then liftM (bfree (bp.word j)) else pure ()) (List.range NINDIRECT)
    freeAddr ip (Fin.last NDIRECT)
  else pure ()
  setDinode ip fun d => { d with size := 0 }
  iupdate ip

/-- Drop a reference to an in-memory inode. -/
def iput (ip : Slot) : Kern FsState Unit := do
  let i ← inode ip
  if i.ref = 1 ∧ i.valid ∧ i.dinode.nlink = 0 then do
    -- inode has no links and no other references: truncate and free
    if i.busy then panic .iputBusy
    else do
      setInode ip fun i => { i with busy := true }
      itrunc ip
      setDinode ip fun d => { d with type := 0 }
      iupdate ip
      setInode ip fun i => { i with busy := false, valid := false }
  else pure ()
  setInode ip fun i => { i with ref := i.ref - 1 }

/-- Common idiom: unlock, then put. -/
def iunlockput (ip : Slot) : Kern FsState Unit := do
  iunlock ip
  iput ip

/-! ## Inode content -/

/-- An address in the inode, allocating a block if there is none. -/
def inodeAddr (ip : Slot) (j : Fin (NDIRECT + 1)) : Kern FsState UInt32 := do
  let i ← inode ip
  if i.dinode.addrs j = 0 then do
    let addr ← balloc
    setDinode ip fun d => { d with addrs := Function.update d.addrs j addr }
    return addr
  else return i.dinode.addrs j

/-- The address at index `k` of the index block at `addr`, allocating a block if there is none. -/
def indexAddr (addr : UInt32) (k : Nat) : Kern FsState UInt32 := do
  let bp ← bread addr.toNat
  if bp.word k = 0 then do
    let b ← balloc
    logWrite addr.toNat (bp.setWord k b)
    return b
  else return bp.word k

/-- Return the disk block address of block `bn` in inode `ip`; if there is no such block, allocate one. -/
def bmap (ip : Slot) (bn : Nat) : Kern FsState UInt32 :=
  if h : bn < NDIRECT then inodeAddr ip ⟨bn, Nat.lt_succ_of_lt h⟩
  else if bn - NDIRECT < NINDIRECT * NINDIRECT * NINDIRECT then do
    let addr ← inodeAddr ip (Fin.last NDIRECT)
    let d1 := (bn - NDIRECT) / NINDIRECT
    let k1 := (bn - NDIRECT) % NINDIRECT
    let d2 := d1 / NINDIRECT
    let k2 := d1 % NINDIRECT
    let k3 := d2 % NINDIRECT
    -- find the first level indirect block
    let addr ← indexAddr addr k3
    -- find the second level indirect block
    let addr ← indexAddr addr k2
    -- find the data block
    indexAddr addr k1
  else panic .bmapOutOfRange

/-- The loop of `readi`; the first argument bounds the number of rounds, `n` is what is left to read. -/
def readFrom (ip : Slot) : Nat → Nat → Nat → Kern FsState (List UInt8)
  | 0, _, _ => pure []
  | fuel + 1, off, n =>
    if n = 0 then pure []
    else do
      let addr ← bmap ip (off / BSIZE)
      let bp ← bread addr.toNat
      let m := min n (BSIZE - off % BSIZE)
      let rest ← readFrom ip fuel (off + m) (n - m)
      return (List.range m).map (fun j => bp.byte (off % BSIZE + j)) ++ rest

/-- Read data from inode: the bytes put into the buffer, or `none` for -1. -/
def readi (devsw : Nat → Option Devsw) (ip : Slot) (off n : UInt32) : Kern FsState (Option (List UInt8)) := do
  let i ← inode ip
  if i.dinode.type = T_DEV then
    if i.dinode.major < 0 ∨ (NDEV : Int) ≤ i.dinode.major.toInt then return none
    else
      match (devsw i.dinode.major.toInt.toNat).bind Devsw.read with
      | none => return none
      | some read => return read n
  else if i.dinode.size < off ∨ off + n < off then return none
  else do
    let n := if i.dinode.size < off + n then i.dinode.size - off else n
    let data ← readFrom ip n.toNat off.toNat n.toNat
    return some data

/-- The loop of `writei`: the first argument bounds the number of rounds, `src` is what is left to write. -/
def writeFrom (ip : Slot) : Nat → Nat → List UInt8 → Kern FsState Unit
  | 0, _, _ => pure ()
  | fuel + 1, off, src =>
    if src.length = 0 then pure ()
    else do
      let addr ← bmap ip (off / BSIZE)
      let bp ← bread addr.toNat
      let m := min src.length (BSIZE - off % BSIZE)
      logWrite addr.toNat (bp.put (off % BSIZE) m fun j => src.getD j 0)
      writeFrom ip fuel (off + m) (src.drop m)

/-- Write data to inode: `n` is the length of `src`; returns `n`, or -1. -/
def writei (devsw : Nat → Option Devsw) (ip : Slot) (src : List UInt8) (off : UInt32) : Kern FsState Int := do
  let i ← inode ip
  let n := UInt32.ofNat src.length
  if i.dinode.type = T_DEV then
    if i.dinode.major < 0 ∨ (NDEV : Int) ≤ i.dinode.major.toInt then return -1
    else
      match (devsw i.dinode.major.toInt.toNat).bind Devsw.write with
      | none => return -1
      | some write => return write src
  else if i.dinode.size < off ∨ off + n < off then return -1
  else if UInt32.ofNat (MAXFILE * BSIZE) < off + n then return -1
  else do
    writeFrom ip n.toNat off.toNat src
    let i ← inode ip
    if 0 < n ∧ i.dinode.size < off + n then do
      setDinode ip fun d => { d with size := off + n }
      iupdate ip
    else pure ()
    return n.toNat

/-! ## Directories -/

/-- `strncmp` of two strings, which end in a NUL where their lists end. -/
def strncmp (p q : List UInt8) : Nat → Int
  | 0 => 0
  | n + 1 =>
    if p.headD 0 ≠ 0 ∧ p.headD 0 = q.headD 0 then strncmp p.tail q.tail n
    else ((p.headD 0).toNat : Int) - (q.headD 0).toNat

/-- `strncpy`: the `n` bytes it leaves in the destination. -/
def strncpy (t : List UInt8) : Nat → List UInt8
  | 0 => []
  | n + 1 => t.headD 0 :: if t.headD 0 = 0 then List.replicate n 0 else strncpy t.tail n

def namecmp (s t : List UInt8) : Int := strncmp s t DIRSIZ

/-- `struct dirent`. -/
structure Dirent where
  inum : UInt16
  name : List UInt8

namespace Dirent

/-- The 16 bytes of an entry. -/
def encode (de : Dirent) : List UInt8 := byte16 de.inum 0 :: byte16 de.inum 1 :: de.name

/-- The entry in 16 bytes. -/
def decode (data : List UInt8) : Dirent where
  inum := le16 (fun j => data.getD j 0) 0
  name := data.drop 2

end Dirent

section

variable (devsw : Nat → Option Devsw)

/-- Read the entry at `off`; the caller panics if there are no 16 bytes. -/
def readEntry (p : Panic) (dp : Slot) (off : Nat) : Kern FsState Dirent := do
  match ← readi devsw dp (UInt32.ofNat off) (UInt32.ofNat DIRENT) with
  | some data => if data.length = DIRENT then return Dirent.decode data else panic p
  | none => panic p

/-- The loop of `dirlookup`; the first argument bounds the number of rounds. -/
def dirlookupFrom (dp : Slot) (name : List UInt8) : Nat → Nat → Kern FsState (Option (Slot × Nat))
  | 0, _ => pure none
  | fuel + 1, off => do
    let i ← inode dp
    if off < i.dinode.size.toNat then do
      let de ← readEntry devsw .dirlinkRead dp off
      if de.inum ≠ 0 ∧ namecmp name de.name = 0 then do
        -- entry matches path element
        let ip ← iget de.inum.toNat
        return some (ip, off)
      else dirlookupFrom dp name fuel (off + DIRENT)
    else return none

/-- Look for a directory entry in a directory: the inode, and the byte offset of the entry. -/
def dirlookup (dp : Slot) (name : List UInt8) : Kern FsState (Option (Slot × Nat)) := do
  let i ← inode dp
  if i.dinode.type ≠ T_DIR then panic .dirlookupNotDir
  else dirlookupFrom devsw dp name (i.dinode.size.toNat / DIRENT + 1) 0

/-- The loop of `dirlink` that looks for an empty entry. -/
def emptyFrom (dp : Slot) : Nat → Nat → Kern FsState Nat
  | 0, off => pure off
  | fuel + 1, off => do
    let i ← inode dp
    if off < i.dinode.size.toNat then do
      let de ← readEntry devsw .dirlinkRead dp off
      if de.inum = 0 then return off else emptyFrom dp fuel (off + DIRENT)
    else return off

/-- Write a new directory entry (name, inum) into the directory dp. -/
def dirlink (dp : Slot) (name : List UInt8) (inum : Nat) : Kern FsState Int := do
  -- check that name is not present
  match ← dirlookup devsw dp name with
  | some (ip, _) => do
    iput ip
    return -1
  | none => do
    let i ← inode dp
    let off ← emptyFrom devsw dp (i.dinode.size.toNat / DIRENT + 1) 0
    let de : Dirent := { inum := UInt16.ofNat inum, name := strncpy name DIRSIZ }
    let n ← writei devsw dp de.encode (UInt32.ofNat off)
    if n ≠ DIRENT then panic .dirlink else return 0

/-! ## Paths -/

/-- `'/'`. -/
def slash : UInt8 := 47

/-- Copy the next path element from path into name: the name, and the path after it without leading slashes. -/
def skipelem (path : List UInt8) : Option (List UInt8 × List UInt8) :=
  let s := path.dropWhile (· == slash)
  if s = [] then none
  else some ((s.takeWhile (· != slash)).take DIRSIZ, (s.dropWhile (· != slash)).dropWhile (· == slash))

/-- The loop of `namex`; the first argument bounds the number of rounds. -/
def namexFrom (nameiparent : Bool) : Nat → Slot → List UInt8 → Kern FsState (Option (Slot × List UInt8))
  | 0, _, _ => Prog.throw .hang
  | fuel + 1, ip, path =>
    match skipelem path with
    | none =>
      if nameiparent then do
        iput ip
        return none
      else return some (ip, [])
    | some (name, path) => do
      ilock ip
      let i ← inode ip
      if i.dinode.type ≠ T_DIR then do
        iunlockput ip
        return none
      else if nameiparent = true ∧ path = [] then do
        -- stop one level early
        iunlock ip
        return some (ip, name)
      else do
        match ← dirlookup devsw ip name with
        | none => do
          iunlockput ip
          return none
        | some (next, _) => do
          iunlockput ip
          namexFrom nameiparent fuel next path

/-- Look up and return the inode for a path name, or with `nameiparent` the inode for the parent and the final path
element. -/
def namex (cwd : Slot) (path : List UInt8) (nameiparent : Bool) : Kern FsState (Option (Slot × List UInt8)) := do
  let ip ← if path.headD 0 = slash then iget ROOTINO else idup cwd
  namexFrom devsw nameiparent (path.length + 1) ip path

def namei (cwd : Slot) (path : List UInt8) : Kern FsState (Option Slot) := do
  let r ← namex devsw cwd path false
  return r.map Prod.fst

def nameiparent (cwd : Slot) (path : List UInt8) : Kern FsState (Option (Slot × List UInt8)) :=
  namex devsw cwd path true

end

end NewXv6
