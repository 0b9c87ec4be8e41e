import NewXv6.Lib.Prog
import NewXv6.Block

/-!
# Kernel code

Kernel code is a program whose failures are the panics and the sleeps nobody ends, and whose trace records the sector
writes, the calls of `log_write`, the borders of a transaction, the blocks `balloc` returns and the inodes `itrunc` discards.
-/

namespace NewXv6

open Lib

/-- The panics of `log.c`, `fs.c`, `file.c`, `sysfile.c` and `proc.c` that the modelled code can reach. -/
inductive Panic
  | tooBigATransaction
  | logWriteOutsideOfTrans
  | logCommitting
  | ballocOutOfBlocks
  | freeingFreeBlock
  | iallocNoInodes
  | igetNoInodes
  | ilock
  | ilockNoType
  | iunlock
  | iputBusy
  | bmapOutOfRange
  | dirlookupNotDir
  | dirlinkRead
  | dirlink
  | isdiremptyReadi
  | unlinkNlink
  | unlinkWritei
  | createDots
  | createDirlink
  | filedup
  | fileclose
  | fileread
  | filewrite
  | shortFilewrite
  | initExiting
  deriving DecidableEq, Repr

/-- Why kernel code does not come back: a panic, or a sleep that no other code of the same run can end. -/
inductive Stop
  | panic (p : Panic)
  | hang
  deriving DecidableEq, Repr

/-- What a run of kernel code leaves in its trace. -/
inductive Event
  /-- A sector was written to disk. -/
  | bwrite (sector : Nat) (data : Block)
  /-- `log_write` was called for a sector. -/
  | logWrite (sector : Nat)
  /-- `begin_op` let an operation in. -/
  | beginOp
  /-- An operation reached `end_op`. -/
  | endOp
  /-- `balloc`, called when the blocks were as in `before`, returned `b`. -/
  | balloc (before : Nat → Block) (b : Nat)
  /-- `itrunc` was called on an inode, with the blocks as in `before`. -/
  | itrunc (before : Nat → Block) (d : Dinode)

/-- Kernel code over a state `σ`. -/
abbrev Kern (σ α : Type) : Type := Prog σ Stop Event α

/-- `panic`. -/
def panic {σ α : Type} (p : Panic) : Kern σ α := Prog.throw (.panic p)

@[simp] theorem wp_panic {σ α : Type} {C : Contract Stop Event} (p : Panic) (Q : α → σ → Prop) (s : σ) :
    Wp C (panic p : Kern σ α) Q s ↔ C.fail (.panic p) := wp_throw _ _ _

end NewXv6
