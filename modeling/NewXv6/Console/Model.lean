import NewXv6.Lib.Ring
import NewXv6.Lib.Run

/-!
# The console on the serial line (`console.c`)

`consoleintr(getc, 0)` edits the line at the end of a ring buffer, and `consoleread` takes bytes from its front. A step is
one byte of `consoleintr`, or one round of the loop of a process that reads. From the serial line `cgaputc` does not touch
the input.

`line` has the line discipline itself: the bytes committed so far, the line that is being edited, and how many of the
committed bytes have been taken. `delivered` has the bytes that were copied to readers, in order, and `returned` the reads
that have ended.
-/

namespace NewXv6.Console

open Lib

abbrev INPUT_BUF : Nat := 128

/-- `C('D')`, `C('H')`, `C('P')`, `C('U')` and delete. -/
abbrev ctrlD : UInt8 := 0x04
abbrev ctrlH : UInt8 := 0x08
abbrev ctrlP : UInt8 := 0x10
abbrev ctrlU : UInt8 := 0x15
abbrev delete : UInt8 := 0x7f

/-- `'\n'` and `'\r'`. -/
abbrev newline : UInt8 := 0x0a
abbrev carriage : UInt8 := 0x0d

/-- The codes of the arrow keys. -/
def isArrow (c : UInt8) : Bool := c = 0xe2 ∨ c = 0xe3 ∨ c = 0xe4 ∨ c = 0xe5

/-- `input`, without its lock. -/
structure Input where
  buf : Nat → UInt8
  r : BitVec 32
  w : BitVec 32
  e : BitVec 32

namespace Input

/-- The bytes from `r` to `e`. -/
def ring (s : Input) : Ring UInt8 INPUT_BUF 32 := ⟨s.buf, s.r, s.e⟩

/-- `input.buf[input.e++ % INPUT_BUF] = c`. -/
def store (s : Input) (c : UInt8) : Input :=
  { s with buf := Function.update s.buf (s.e.toNat % INPUT_BUF) c, e := s.e + 1 }

/-- The loop of `C('U')`, at most `rounds` times. -/
def killLine : Nat → Input → Input
  | 0, s => s
  | rounds + 1, s =>
    if s.e ≠ s.w ∧ s.buf ((s.e - 1).toNat % INPUT_BUF) ≠ newline then killLine rounds { s with e := s.e - 1 } else s

/-- The loop that closes the gap of a deleted byte, from `i` on. -/
def closeGap (posoffset : Nat) : Nat → Input → Input
  | 0, s => s
  | k + 1, s =>
    let i := BitVec.ofNat 32 (posoffset - (k + 1))
    let at_ := (s.e - BitVec.ofNat 32 posoffset + i).toNat % INPUT_BUF
    closeGap posoffset k
      { s with buf := Function.update s.buf at_ (s.buf ((s.e - BitVec.ofNat 32 posoffset + i + 1).toNat % INPUT_BUF)) }

/-- One byte of `consoleintr(getc, 0)`. -/
def consoleintr (posoffset : Nat) (s : Input) (c : UInt8) : Input :=
  if c = ctrlP then s
  else if c = ctrlU then killLine (s.e - s.w).toNat s
  else if c = ctrlH ∨ c = delete then
    if s.e - BitVec.ofNat 32 posoffset ≠ s.w then closeGap posoffset posoffset { s with e := s.e - 1 } else s
  else if c ≠ 0 ∧ (s.e - s.r).toNat < INPUT_BUF then
    let c := if c = carriage then newline else c
    let s := if isArrow c then s else s.store c
    if c = newline ∨ c = ctrlD ∨ s.e = s.r + BitVec.ofNat 32 INPUT_BUF then { s with w := s.e } else s
  else s

end Input

/-! ## The line discipline -/

/-- The bytes committed so far, the line that is being edited, and how many committed bytes have been taken. -/
structure Line where
  committed : List UInt8
  pending : List UInt8
  taken : Nat

/-- The committed bytes that have not been taken. -/
def Line.unread (l : Line) : List UInt8 := l.committed.drop l.taken

/-- A byte arrives; the bytes of `drops` are not part of a line. -/
def Line.arrive (drops : UInt8 → Bool) (l : Line) (c : UInt8) : Line :=
  if c = ctrlP then l
  else if c = ctrlU then { l with pending := [] }
  else if c = ctrlH ∨ c = delete then { l with pending := l.pending.dropLast }
  else if drops c ∨ INPUT_BUF ≤ l.unread.length + l.pending.length then l
  else
    let c := if c = carriage then newline else c
    let pending := l.pending ++ [c]
    if c = newline ∨ c = ctrlD ∨ l.unread.length + pending.length = INPUT_BUF then
      { l with committed := l.committed ++ pending, pending := [] }
    else { l with pending }

/-- The bytes that `consoleintr` drops: 0 and the codes of the arrow keys. -/
def noText (c : UInt8) : Bool := c = 0 ∨ isArrow c

/-! ## The system -/

/-- Why a read ends. -/
inductive Stop
  | count
  | line
  | eof
  | killed
  deriving DecidableEq

/-- A read that has ended: its value, and the bytes it was given. -/
structure Read where
  value : Int
  got : List UInt8
  stop : Stop

/-- A process in `consoleread`. -/
structure Reader where
  target : Int
  n : Int
  got : List UInt8

structure Tty (Proc : Type) where
  input : Input
  posoffset : Nat
  reader : Proc → Option Reader
  killed : Proc → Bool
  line : Line
  delivered : List UInt8
  returned : List Read

inductive Action (Proc : Type)
  | byte (c : UInt8)
  | read (p : Proc) (n : Int)
  /-- A round of the loop of `consoleread`. -/
  | go (p : Proc)
  | kill (p : Proc)

namespace Tty

variable {Proc : Type} [DecidableEq Proc]

/-- After boot. -/
def boot : Tty Proc :=
  ⟨⟨fun _ => 0, 0, 0, 0⟩, 0, fun _ => none, fun _ => false, ⟨[], [], 0⟩, [], []⟩

/-- The read of `p` ends. -/
def finish (s : Tty Proc) (p : Proc) (value : Int) (got : List UInt8) (stop : Stop) : Tty Proc :=
  { s with reader := Function.update s.reader p none, returned := s.returned ++ [⟨value, got, stop⟩] }

/-- A round of `consoleread`; `none` while it sleeps. -/
def consoleread (s : Tty Proc) (p : Proc) (x : Reader) : Option (Tty Proc) :=
  if 0 < x.n then
    if s.input.r = s.input.w then
      if s.killed p then some (s.finish p (-1) x.got .killed) else none
    else
      let c := s.input.buf (s.input.r.toNat % INPUT_BUF)
      let r := s.input.r + 1
      if c = ctrlD then
        if x.n < x.target then
          -- the byte is saved for the next read
          some ({ s with input := { s.input with r := r - 1 } }.finish p (x.target - x.n) x.got .eof)
        else
          some ({ s with
            input := { s.input with r }
            line := { s.line with taken := s.line.taken + 1 } }.finish p (x.target - x.n) x.got .eof)
      else
        let s := { s with
          input := { s.input with r }
          line := { s.line with taken := s.line.taken + 1 }
          delivered := s.delivered ++ [c] }
        if c = newline then some (s.finish p (x.target - (x.n - 1)) (x.got ++ [c]) .line)
        else some { s with reader := Function.update s.reader p (some { x with n := x.n - 1, got := x.got ++ [c] }) }
  else some (s.finish p (x.target - x.n) x.got .count)

def step (s : Tty Proc) : Action Proc → Option (Tty Proc)
  | .byte c => some { s with input := s.input.consoleintr s.posoffset c, line := s.line.arrive noText c }
  | .read p n =>
    match s.reader p with
    | none => some { s with reader := Function.update s.reader p (some ⟨n, n, []⟩) }
    | some _ => none
  | .go p =>
    match s.reader p with
    | none => none
    | some x => s.consoleread p x
  | .kill p => some { s with killed := Function.update s.killed p true }

end Tty

end NewXv6.Console
