import Mathlib.Logic.Function.Basic
import Mathlib.Algebra.Group.Nat.Defs
import NewXv6.Lib.Cyclic

/-!
# The user heap (`umalloc.c`)

Memory is seen as an array of headers of 8 bytes, and an address is an index in it. `chunks` has the memory that `sbrk` has
given, as first addresses and lengths. A loop that does not end runs out of fuel.

The fields `size` are numbers without a bound: memory ends below 2²⁸ headers.
-/

namespace NewXv6.Umalloc

/-- `Header`. -/
structure Header where
  ptr : Nat
  size : Nat
  deriving DecidableEq

/-- The first address of a block, and its length. -/
abbrev Block : Type := Nat × Nat

structure Heap where
  mem : Nat → Header
  freep : Nat
  chunks : List Block

/-- The loop of `free`. -/
def freeLoop (mem : Nat → Header) (bp : Nat) : Nat → Nat → Option Nat
  | 0, _ => none
  | fuel + 1, p =>
    if p < bp ∧ bp < (mem p).ptr then some p
    else if (mem p).ptr ≤ p ∧ (p < bp ∨ bp < (mem p).ptr) then some p
    else freeLoop mem bp fuel (mem p).ptr

/-- The block behind `bp` is joined to it, or linked. -/
def joinNext (mem : Nat → Header) (p bp : Nat) : Nat → Header :=
  let q := (mem p).ptr
  if bp + (mem bp).size = q then Function.update mem bp ⟨(mem q).ptr, (mem bp).size + (mem q).size⟩
  else Function.update mem bp ⟨q, (mem bp).size⟩

/-- `bp` is joined to the block before it, or linked. -/
def joinPrev (mem : Nat → Header) (p bp : Nat) : Nat → Header :=
  if p + (mem p).size = bp then Function.update mem p ⟨(mem bp).ptr, (mem p).size + (mem bp).size⟩
  else Function.update mem p ⟨bp, (mem p).size⟩

/-- `free` of the block with its header at `bp`. -/
def free (fuel : Nat) (h : Heap) (bp : Nat) : Option Heap :=
  (freeLoop h.mem bp fuel h.freep).map fun p =>
    { h with mem := joinPrev (joinNext h.mem p bp) p bp, freep := p }

/-- The number of headers that `morecore` asks for. -/
def coreUnits (nu : UInt32) : UInt32 := if nu < 4096 then 4096 else nu

/-- The argument of `sbrk`, an `int`. -/
def coreBytes (nu : UInt32) : Int := (coreUnits nu * 8).toInt32.toInt

/-- `morecore` when `sbrk` has given memory from `hp` on. -/
def morecore (fuel : Nat) (h : Heap) (nu : UInt32) (hp : Nat) : Option Heap :=
  free fuel
    { h with
      mem := Function.update h.mem hp { h.mem hp with size := (coreUnits nu).toNat }
      chunks := (hp, (coreBytes nu).toNat / 8) :: h.chunks } hp

/-- The block `p` is taken from the list, or its end is. -/
def take (h : Heap) (nunits prevp p : Nat) : Heap × Nat :=
  if (h.mem p).size = nunits then
    ({ h with mem := Function.update h.mem prevp { h.mem prevp with ptr := (h.mem p).ptr }, freep := prevp }, p + 1)
  else
    let size := (h.mem p).size - nunits
    let mem := Function.update h.mem p { h.mem p with size }
    let p := p + size
    ({ h with mem := Function.update mem p { mem p with size := nunits }, freep := prevp }, p + 1)

/-- The loop of `malloc`, with the answers of `sbrk`. -/
def mallocLoop (nunits : UInt32) : Nat → List (Option Nat) → Heap → Nat → Nat → Option (Heap × Nat)
  | 0, _, _, _, _ => none
  | fuel + 1, answers, h, prevp, p =>
    if nunits.toNat ≤ (h.mem p).size then some (take h nunits.toNat prevp p)
    else if p = h.freep then
      match answers with
      | [] => none
      | none :: _ => some (h, 0)
      | some hp :: answers =>
        (morecore fuel h nunits hp).bind fun h => mallocLoop nunits fuel answers h h.freep (h.mem h.freep).ptr
    else mallocLoop nunits fuel answers h p (h.mem p).ptr

/-- The first call makes a list of `base` alone. -/
def start (base : Nat) (h : Heap) : Heap :=
  if h.freep = 0 then { h with mem := Function.update h.mem base ⟨base, 0⟩, freep := base } else h

def malloc (base fuel : Nat) (answers : List (Option Nat)) (h : Heap) (nbytes : UInt32) : Option (Heap × Nat) :=
  let nunits := (nbytes + 8 - 1) / 8 + 1
  let h := start base h
  mallocLoop nunits fuel answers h h.freep (h.mem h.freep).ptr

end NewXv6.Umalloc
