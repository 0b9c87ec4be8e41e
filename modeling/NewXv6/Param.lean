import Mathlib.Algebra.Ring.Nat

/-!
# Constants

The constants of `param.h`, `fs.h`, `stat.h` and `fcntl.h` that the models use, and the two address functions of
`fs.h`.
-/

namespace NewXv6

/-! ## `param.h` -/

/-- Maximum number of processes. -/
abbrev NPROC : Nat := 64
/-- Open files per process. -/
abbrev NOFILE : Nat := 16
/-- Open files per system. -/
abbrev NFILE : Nat := 100
/-- Maximum number of active inodes. -/
abbrev NINODE : Nat := 50
/-- Maximum major device number. -/
abbrev NDEV : Nat := 10
/-- Maximum number of blocks a file system operation writes. -/
abbrev MAXOPBLOCKS : Nat := 10
/-- Maximum number of data sectors in the on-disk log. -/
abbrev LOGSIZE : Nat := MAXOPBLOCKS * 3

instance : NeZero NPROC := ⟨by decide⟩
instance : NeZero NFILE := ⟨by decide⟩
instance : NeZero NINODE := ⟨by decide⟩

/-! ## `fs.h` -/

/-- The root inode. -/
abbrev ROOTINO : Nat := 1
/-- Block size. -/
abbrev BSIZE : Nat := 512
abbrev NDIRECT : Nat := 12
/-- Addresses in an index block: `BSIZE / sizeof(uint)`. -/
abbrev NINDIRECT : Nat := 128
abbrev MAXFILE : Nat := NDIRECT + NINDIRECT
/-- Inodes per block: `BSIZE / sizeof(struct dinode)`. -/
abbrev IPB : Nat := 8
/-- Bitmap bits per block. -/
abbrev BPB : Nat := BSIZE * 8
/-- Length of a name in a directory entry. -/
abbrev DIRSIZ : Nat := 14
/-- `sizeof(struct dirent)`. -/
abbrev DIRENT : Nat := 16

instance (priority := 2000) : NeZero (NDIRECT + 1) := ⟨by decide⟩

/-- Block containing inode `i`. -/
def IBLOCK (i : Nat) : Nat := i / IPB + 2

/-- Block containing the bit of block `b`. -/
def BBLOCK (b ninodes : Nat) : Nat := b / BPB + ninodes / IPB + 3

/-! ## `stat.h` and `fcntl.h` -/

abbrev T_DIR : Int16 := 1
abbrev T_FILE : Int16 := 2
abbrev T_DEV : Int16 := 3

abbrev O_RDONLY : Nat := 0x000
abbrev O_WRONLY : Nat := 0x001
abbrev O_RDWR : Nat := 0x002
abbrev O_CREATE : Nat := 0x200

end NewXv6
