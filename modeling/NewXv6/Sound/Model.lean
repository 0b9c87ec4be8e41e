import NewXv6.Lib.Links
import NewXv6.Lib.Run
import Mathlib.Data.List.FinRange

/-!
# Sound (`sound.c`, `sysaudio.c`)

Any number of processes call `sys_setSampleRate`, `sys_kwrite` and `sys_wavdecode`, and the sound card interrupts. A step
is what a call does between two of its lock operations, sleeps and tests of a loop, or one interrupt; between two steps
any other process may run. `wavdecode` may sleep at its pause for any time.

The indices of `memmove` are numbers without a bound here: a copy past the end of an array is not modelled as such.
`queued` has the bytes of the nodes `addSound` was called for, and `accepted` the chunks `sys_kwrite` took.
-/

namespace NewXv6.Sound

open Lib

/-- `DMA_BUF_NUM * DMA_BUF_SIZE`. -/
abbrev bufsize : Nat := 32 * (0x80 * 2)

/-- The length of `buf`. -/
abbrev BUFLEN : Nat := 4096

/-- A node of `audiobuf`. -/
abbrev NodeId : Type := Fin 3

/-- `struct soundNode`, with the bits `PROCESSED` and `PCM_OUT` of `flag`. -/
structure SoundNode where
  processed : Bool
  pcmOut : Bool
  next : Option NodeId
  data : Nat → UInt8

/-- A node of zeros. -/
def SoundNode.zero : SoundNode := ⟨false, false, none, fun _ => 0⟩

/-- `memmove(&dst[off], &src[start], n)`. -/
def memmove (dst : Nat → UInt8) (off : Int) (src : Nat → UInt8) (start n : Int) : Nat → UInt8 := fun i =>
  if off ≤ i ∧ (i : Int) < off + n then src (start + (i - off)).toNat else dst i

/-- The first `n` bytes. -/
def bytes (f : Nat → UInt8) (n : Int) : List UInt8 := (List.range n.toNat).map f

/-- Where a process is in `sys_wavdecode`: waiting for a chunk, back from the wait, at the pause, before `addSound`, at
a pass of the search for a node, or before `isdecoding = 0`. -/
inductive WavPc
  | outside
  | wait
  | start
  | pause (temp : Int)
  | add (i : NodeId) (temp : Int) (pass : Nat)
  | search (temp : Int) (pass : Nat)
  | finish
  deriving DecidableEq

/-- The variables of `sysaudio.c` and `sound.c` and the processes. `locked`: a call returned with `decodelock` held. -/
structure Audio (Proc : Type) where
  audiobuf : NodeId → SoundNode
  soundQueue : Option NodeId
  datacount : Int
  bufcount : NodeId
  size : Int
  buf : Nat → UInt8
  isdecoding : Bool
  locked : Bool
  pc : Proc → WavPc
  /-- A null node was used. -/
  crashed : Bool
  /-- The walk of `addSound` does not end. -/
  hung : Bool
  queued : List UInt8
  accepted : List (List UInt8)

/-- What happens next. An argument is `none` where `argint` or `argptr` fails. -/
inductive AudioAct (Proc : Type)
  | setSampleRate (p : Proc) (rate : Option Int)
  | kwrite (p : Proc) (size : Option Int) (buffer : Option (Nat → UInt8))
  | wavdecode (p : Proc)
  /-- The next part of `sys_wavdecode`. -/
  | go (p : Proc)
  | soundInterrupt

namespace Audio

variable {Proc : Type} [DecidableEq Proc]

/-- After boot. -/
def init : Audio Proc where
  audiobuf _ := .zero
  soundQueue := none
  datacount := 0
  bufcount := 0
  size := 0
  buf _ := 0
  isdecoding := false
  locked := false
  pc _ := .outside
  crashed := false
  hung := false
  queued := []
  accepted := []

/-- Process `p` goes on at `pc`. -/
def goto (s : Audio Proc) (p : Proc) (pc : WavPc) : Audio Proc := { s with pc := Function.update s.pc p pc }

/-- Change a node. -/
def setNode (s : Audio Proc) (i : NodeId) (f : SoundNode → SoundNode) : Audio Proc :=
  { s with audiobuf := Function.update s.audiobuf i (f (s.audiobuf i)) }

/-! ## `sound.c` -/

/-- `soundInterrupt`. -/
def soundInterrupt (s : Audio Proc) : Audio Proc :=
  match s.soundQueue with
  | none => { s with crashed := true }
  | some i =>
    { s.setNode i fun x => { x with processed := true } with soundQueue := (s.audiobuf i).next }

/-- `addSound`: append the node to the queue. -/
def addSound (s : Audio Proc) (i : NodeId) : Audio Proc :=
  let audiobuf := Function.update s.audiobuf i { s.audiobuf i with next := none }
  let queued := s.queued ++ bytes (s.audiobuf i).data bufsize
  match s.soundQueue with
  | none => { s with audiobuf, queued, soundQueue := some i }
  | some first =>
    match seek (fun k => (audiobuf k).next) (fun k => (audiobuf k).next.isNone) 3 (some first) with
    | some (some last) =>
      { s with audiobuf := Function.update audiobuf last { audiobuf last with next := some i }, queued }
    | _ => { s with hung := true }

/-! ## `sysaudio.c` -/

/-- `sys_setSampleRate`. -/
def setSampleRate (s : Audio Proc) : Option Int → Audio Proc
  | none => s
  | some _ => { s with datacount := 0, bufcount := 0, audiobuf := fun _ => { SoundNode.zero with processed := true } }

/-- `sys_kwrite` after its wait. When an argument is bad it returns without a release. -/
def kwrite (s : Audio Proc) (size : Option Int) (buffer : Option (Nat → UInt8)) : Audio Proc :=
  match size with
  | none => { s with locked := true }
  | some n =>
    match buffer with
    | none => { s with size := n, locked := true }
    | some b =>
      { s with
        size := n
        buf := memmove s.buf 0 b 0 n
        isdecoding := true
        accepted := s.accepted ++ [bytes b n] }

/-- `sys_wavdecode` after its wait: the chunk fits into the current node, or the node will be full. -/
def start (s : Audio Proc) (p : Proc) : Audio Proc :=
  let s' := if s.datacount = 0 then s.setNode s.bufcount fun _ => .zero else s
  if (bufsize : Int) - s.datacount > s.size then
    { s'.setNode s.bufcount fun x =>
        { x with data := memmove x.data s.datacount s.buf 0 s.size, pcmOut := true, processed := true } with
      datacount := s.datacount + s.size
      pc := Function.update s.pc p .finish }
  else s'.goto p (.pause (bufsize - s.datacount))

/-- The current node is filled. -/
def fill (s : Audio Proc) (p : Proc) (temp : Int) : Audio Proc :=
  (s.setNode s.bufcount fun x =>
    { x with data := memmove x.data s.datacount s.buf 0 temp, pcmOut := true, processed := false }).goto p
    (.add s.bufcount temp 0)

/-- One pass of the search for a node that has been played: the rest of the chunk goes into it. -/
def search (s : Audio Proc) (p : Proc) (temp : Int) (pass : Nat) : Audio Proc :=
  if h : pass < 3 then
    let i : NodeId := ⟨pass, h⟩
    if (s.audiobuf i).processed then
      if (bufsize : Int) > s.size - temp then
        { s.setNode i fun _ =>
            { SoundNode.zero with data := memmove (fun _ => 0) 0 s.buf temp (s.size - temp), pcmOut := true, processed := true } with
          datacount := s.size - temp
          bufcount := i
          pc := Function.update s.pc p .finish }
      else
        (s.setNode i fun _ => { SoundNode.zero with data := memmove (fun _ => 0) 0 s.buf temp bufsize, pcmOut := true }).goto p
          (.add i (temp + bufsize) (pass + 1))
    else s.goto p (.search temp (pass + 1))
  else s.goto p (.search temp 0)

/-- The next part of `sys_wavdecode`. -/
def go (s : Audio Proc) (p : Proc) : Option (Audio Proc) :=
  match s.pc p with
  | .outside => none
  | .wait => if s.locked then none else some (if s.isdecoding then s.goto p .start else s)
  | .start => some (s.start p)
  | .pause temp => some (s.fill p temp)
  | .add i temp pass => some ((s.addSound i).goto p (.search temp pass))
  | .search temp pass => some (s.search p temp pass)
  | .finish => if s.locked then none else some { s.goto p .outside with isdecoding := false }

/-- One step, if the process is where the action starts and nothing has gone wrong. -/
def step (s : Audio Proc) (a : AudioAct Proc) : Option (Audio Proc) :=
  if s.crashed ∨ s.hung then none
  else
    match a with
    | .setSampleRate p rate => if s.pc p = .outside then some (s.setSampleRate rate) else none
    | .kwrite p size buffer =>
      if s.pc p = .outside ∧ s.locked = false ∧ s.isdecoding = false then some (s.kwrite size buffer) else none
    | .wavdecode p => if s.pc p = .outside then some (s.goto p .wait) else none
    | .go p => s.go p
    | .soundInterrupt => some s.soundInterrupt

/-- The nodes from `soundQueue` on. -/
def Queue (s : Audio Proc) (l : List NodeId) : Prop :=
  s.soundQueue = l.head? ∧ Lib.Linked (fun i => (s.audiobuf i).next) l

end Audio

end NewXv6.Sound
