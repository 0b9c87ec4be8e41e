import NewXv6.Kernel
import Mathlib.Logic.Function.Basic

/-!
# The log (`log.c`)

The disk, the buffers whose contents the disk does not have yet, and the log. A buffer that is not dirty holds what
the disk holds, so `bread` gives the dirty buffer's data if there is one and the disk's block otherwise.

`begin_op`, `log_write` and `end_op` are the code of one process while no other process runs; their tests and updates
are functions of `struct log` alone, which the model of concurrent processes shares.
-/

namespace NewXv6

open Lib

/-! ## The superblock -/

/-- `struct superblock`. -/
structure Superblock where
  size : Nat
  nblocks : Nat
  ninodes : Nat
  nlog : Nat

/-- The superblock in a block. -/
def Block.superblock (b : Block) : Superblock where
  size := (b.word 0).toNat
  nblocks := (b.word 1).toNat
  ninodes := (b.word 2).toNat
  nlog := (b.word 3).toNat

/-! ## `struct log` -/

/-- `struct log`: `sector` is `lh.sector[0 .. lh.n)`. -/
structure Log where
  start : Nat
  size : Nat
  outstanding : Int
  committing : Bool
  sector : List Nat

namespace Log

/-- `begin_op`: this op might exhaust log space. -/
def full (l : Log) : Prop := (l.sector.length : Int) + (l.outstanding + 1) * MAXOPBLOCKS > LOGSIZE

/-- `log_write`: too big a transaction. -/
def tooBig (l : Log) : Prop := l.sector.length ≥ LOGSIZE ∨ (l.sector.length : Int) ≥ (l.size : Int) - 1

/-- The header after `log_write`: a sector that is already there is absorbed. -/
def record (l : Log) (s : Nat) : Log := if s ∈ l.sector then l else { l with sector := l.sector ++ [s] }

instance (l : Log) : Decidable l.full := by unfold full; infer_instance
instance (l : Log) : Decidable l.tooBig := by unfold tooBig; infer_instance

/-- Sector `x` lies in the log area. -/
def InLog (l : Log) (x : Nat) : Prop := l.start ≤ x ∧ x < l.start + l.size

end Log

/-! ## The buffers -/

/-- The disk and the dirty buffers. -/
structure Bio where
  disk : Nat → Block
  dirty : Nat → Option Block

namespace Bio

/-- The contents of a sector as `bread` returns them. -/
def view (b : Bio) (x : Nat) : Block := (b.dirty x).getD (b.disk x)

/-- A sector is written to disk; its buffer is clean afterwards. -/
def write (b : Bio) (x : Nat) (data : Block) : Bio where
  disk := Function.update b.disk x data
  dirty := Function.update b.dirty x none

/-- A buffer is changed and pinned in the cache. -/
def pin (b : Bio) (x : Nat) (data : Block) : Bio := { b with dirty := Function.update b.dirty x (some data) }

end Bio

/-- The state of the log layer. -/
structure LogState where
  log : Log
  bio : Bio

namespace LogState

/-- The contents of a sector as `bread` returns them. -/
def view (s : LogState) : Nat → Block := s.bio.view

end LogState

/-- `bread`. -/
def bread (x : Nat) : Kern LogState Block := do
  let s ← Prog.get
  return s.view x

/-- `memmove(b->data, data); bwrite(b)`. -/
def bwrite (x : Nat) (data : Block) : Kern LogState Unit := do
  Prog.modify fun s => { s with bio := s.bio.write x data }
  Prog.emit (.bwrite x data)

/-! ## The header block -/

/-- The header block: the count, then the sectors. -/
def headBlock (b : Block) (ss : List Nat) : Block :=
  ss.zipIdx.foldl (fun b p => b.setWord (p.2 + 1) (UInt32.ofNat p.1)) (b.setWord 0 (UInt32.ofNat ss.length))

/-- The count of a header block, an `int`: a negative count makes every loop over it empty. -/
def Block.headCount (b : Block) : Nat := if (b.word 0).toNat < 2 ^ 31 then (b.word 0).toNat else 0

/-- The sectors of a header block. -/
def Block.headSectors (b : Block) : List Nat := (List.range b.headCount).map fun i => (b.word (i + 1)).toNat

/-- Read the log header from disk into the in-memory log header. -/
def readHead : Kern LogState Unit := do
  let s ← Prog.get
  let buf ← bread s.log.start
  Prog.modify fun s => { s with log := { s.log with sector := buf.headSectors } }

/-- Write in-memory log header to disk. -/
def writeHead : Kern LogState Unit := do
  let s ← Prog.get
  let buf ← bread s.log.start
  bwrite s.log.start (headBlock buf s.log.sector)

/-- `log.lh.n = 0`. -/
def clearHead : Kern LogState Unit := Prog.modify fun s => { s with log := { s.log with sector := [] } }

/-! ## Copying -/

/-- The loop of `install_trans` from index `tail` on. -/
def installFrom (start : Nat) : Nat → List Nat → Kern LogState Unit
  | _, [] => pure ()
  | tail, s :: ss => do
    let lbuf ← bread (start + tail + 1)
    bwrite s lbuf
    installFrom start (tail + 1) ss

/-- Copy committed blocks from log to their home location. -/
def installTrans : Kern LogState Unit := do
  let s ← Prog.get
  installFrom s.log.start 0 s.log.sector

/-- The loop of `write_log` from index `tail` on. -/
def writeLogFrom (start : Nat) : Nat → List Nat → Kern LogState Unit
  | _, [] => pure ()
  | tail, s :: ss => do
    let src ← bread s
    bwrite (start + tail + 1) src
    writeLogFrom start (tail + 1) ss

/-- Copy modified blocks from cache to log. -/
def writeLog : Kern LogState Unit := do
  let s ← Prog.get
  writeLogFrom s.log.start 0 s.log.sector

/-! ## Commit and recovery -/

/-- `commit`. -/
def commit : Kern LogState Unit := do
  let s ← Prog.get
  if s.log.sector.length > 0 then do
    writeLog
    writeHead
    installTrans
    clearHead
    writeHead
  else pure ()

/-- `recover_from_log`. -/
def recoverFromLog : Kern LogState Unit := do
  readHead
  installTrans
  clearHead
  writeHead

/-- `readsb`. -/
def readsb : Kern LogState Superblock := do
  let b ← bread 1
  return b.superblock

/-- `initlog`. -/
def initlog : Kern LogState Unit := do
  let sb ← readsb
  Prog.modify fun s => { s with log := { s.log with start := sb.size - sb.nlog, size := sb.nlog } }
  recoverFromLog

/-! ## Transactions -/

/-- `begin_op`: with no other process running, a sleep in it does not end. -/
def beginOp : Kern LogState Unit := do
  let s ← Prog.get
  if s.log.committing then Prog.throw .hang
  else if s.log.full then Prog.throw .hang
  else do
    Prog.modify fun s => { s with log := { s.log with outstanding := s.log.outstanding + 1 } }
    Prog.emit .beginOp

/-- `end_op`. -/
def endOp : Kern LogState Unit := do
  Prog.emit .endOp
  Prog.modify fun s => { s with log := { s.log with outstanding := s.log.outstanding - 1 } }
  let s ← Prog.get
  if s.log.committing then panic .logCommitting
  else if s.log.outstanding = 0 then do
    Prog.modify fun s => { s with log := { s.log with committing := true } }
    commit
    Prog.modify fun s => { s with log := { s.log with committing := false } }
  else pure ()

/-- `log_write` of a buffer whose data the caller has set to `data`. -/
def logWrite (x : Nat) (data : Block) : Kern LogState Unit := do
  let s ← Prog.get
  if s.log.tooBig then panic .tooBigATransaction
  else if s.log.outstanding < 1 then panic .logWriteOutsideOfTrans
  else do
    Prog.modify fun s => { log := s.log.record x, bio := s.bio.pin x data }
    Prog.emit (.logWrite x)

end NewXv6
