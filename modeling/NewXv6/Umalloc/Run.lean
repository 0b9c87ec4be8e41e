import NewXv6.Umalloc.Malloc
import NewXv6.Lib.Path

/-!
# Runs of the heap

A program calls `malloc` and `free` and writes in its blocks. `calls` counts the calls so far: there are no more free blocks,
which bounds the rounds of the loops.
-/

namespace NewXv6.Umalloc

open Lib

/-- The heap, and the blocks in use, each from its header on. -/
structure State where
  heap : Heap
  live : List Block
  calls : Nat

def State.boot : State := ⟨⟨fun _ => ⟨0, 0⟩, 0, []⟩, [], 0⟩

inductive Action
  /-- `malloc(nbytes)`, with the answer of `sbrk` if it is asked. -/
  | malloc (nbytes : UInt32) (answer : Option Nat)
  | free (b : Block)
  /-- The program writes behind the header of a block. -/
  | write (b : Block) (a : Nat) (data : Header)

def State.fuel (s : State) : Nat := 2 * s.calls + 3

def step (base : Nat) (s : State) : Action → Option State
  | .malloc nbytes answer =>
    (malloc base s.fuel [answer] s.heap nbytes).map fun r =>
      ⟨r.1, if r.2 = 0 then s.live else (r.2 - 1, (r.1.mem (r.2 - 1)).size) :: s.live, s.calls + 1⟩
  | .free b => (free s.fuel s.heap b.1).map fun h => ⟨h, s.live.erase b, s.calls + 1⟩
  | .write _ a data => some { s with heap := { s.heap with mem := Function.update s.heap.mem a data } }

/-- `sbrk` gives fresh memory, `free` gets blocks in use, and a program writes in its blocks. No call of `malloc` asks for more
than 2³² - 8 bytes, and none for more than 2³¹ - 16 where `sbrk` gives memory. -/
def State.Meets (base : Nat) (s : State) : Action → Prop
  | .malloc nbytes answer => nbytes.toNat ≤ 2 ^ 32 - 8 ∧
    ∀ hp, answer = some hp → nbytes.toNat ≤ 2 ^ 31 - 16 ∧ Fresh base s.heap hp
  | .free b => b ∈ s.live
  | .write b a _ => b ∈ s.live ∧ b.1 < a ∧ a < b.1 + b.2

/-- Nothing has been allocated yet, or the free list is right. -/
def State.Right (base : Nat) (s : State) : Prop :=
  (s.heap.freep = 0 ∧ s.live = [] ∧ s.heap.chunks = []) ∨ ∃ blocks, Inv base s.heap blocks s.live

/-- The block that `malloc(nbytes)` returns has `nbytes` bytes behind its header, in memory that `sbrk` has given and that no
other block in use has. -/
def Serves (base : Nat) (s t : State) (nbytes : UInt32) : Prop :=
  t.live = s.live ∨ ∃ b, t.live = b :: s.live ∧ nbytes.toNat ≤ 8 * (b.2 - 1) ∧
    ∀ x, Inside x b → covers t.heap.chunks x = 1 ∧ covers s.live x = 0 ∧ x ≠ base

section Run

variable {base : Nat} {h : Heap} {blocks live live' : List Block} {s : State}

theorem Inv.perm (hi : Inv base h blocks live) (hp : live.Perm live') : Inv base h blocks live' :=
  { hi with
    used := fun b hb => hi.used b (hp.mem_iff.2 hb)
    cover := fun x => by rw [← covers_perm hp]; exact hi.cover x }

/-- `base` alone. -/
theorem inv_start (mem : Nat → Header) : Inv base ⟨Function.update mem base ⟨base, 0⟩, base, []⟩ [] [] := by
  refine ⟨⟨?_, trivial⟩, fun b hb => ?_, List.mem_cons_self, List.pairwise_singleton _ _, nofun, nofun, fun x => rfl,
    fun x => Nat.zero_le _, nofun⟩
  · show (Function.update mem base ⟨base, 0⟩ base).ptr = base
    rw [Function.update_self]
  · rw [List.mem_singleton.1 hb]
    show (Function.update mem base ⟨base, 0⟩ base).size = 0
    rw [Function.update_self]

theorem Inv.base_le_freep (hi : Inv base h blocks live) : base ≤ h.freep := by
  obtain ⟨L, p, R, hp, heq⟩ := exists_at hi.freep
  rw [← heq]
  exact hp.base_le hi

/-- Writing behind a header leaves the headers alone. -/
theorem Inv.write (hi : Inv base h blocks live) {b : Block} (hb : b ∈ live) {a : Nat} (hlo : b.1 < a) (hhi : a < b.1 + b.2)
    (data : Header) : Inv base { h with mem := Function.update h.mem a data } blocks live := by
  have hbase := hi.live_above hb
  have hnode : ∀ q ∈ (base, 0) :: blocks, q.1 ≠ a := by
    intro q hq
    rcases List.mem_cons.1 hq with rfl | hq
    · show base ≠ a
      omega
    · have := hi.apart hq hb
      have := hi.pos q hq
      omega
  have hheader : ∀ c ∈ live, c.1 ≠ a := by
    intro c hc
    have hperm := List.perm_cons_erase hb
    rcases List.mem_cons.1 (hperm.mem_iff.1 hc) with rfl | hc
    · omega
    · have := (hi.perm hperm).live_apart hc
      have := (hi.used c (List.mem_of_mem_erase hc)).2
      omega
  refine { hi with cycle := ?_, size := fun q hq => ?_, used := fun q hq => ?_ }
  · have hcycle : Leads h.next base (base :: blocks.map Prod.fst) := hi.cycle
    show Leads (fun x => (Function.update h.mem a data x).ptr) base (base :: blocks.map Prod.fst)
    refine hcycle.congr fun x hx => ?_
    have hx : x ∈ ((base, 0) :: blocks).map Prod.fst := hx
    obtain ⟨q, hq, rfl⟩ := List.mem_map.1 hx
    show (Function.update h.mem a data q.1).ptr = (h.mem q.1).ptr
    rw [Function.update_of_ne (hnode q hq)]
  · show (Function.update h.mem a data q.1).size = q.2
    rw [Function.update_of_ne (hnode q hq)]
    exact hi.size q hq
  · show (Function.update h.mem a data q.1).size = q.2 ∧ 0 < q.2
    rw [Function.update_of_ne (hheader q hq)]
    exact hi.used q hq

theorem nunits_eq {nbytes : UInt32} (hn : nbytes.toNat ≤ 2 ^ 32 - 8) :
    ((nbytes + 8 - 1) / 8 + 1).toNat = (nbytes.toNat + 7) / 8 + 1 := by
  have h7 : nbytes + 8 - 1 = nbytes + 7 := by grind
  have hadd : (nbytes + 7).toNat = nbytes.toNat + 7 := by
    rw [UInt32.toNat_add]
    exact Nat.mod_eq_of_lt (by show nbytes.toNat + 7 < 2 ^ 32; omega)
  rw [h7, UInt32.toNat_add, UInt32.toNat_div, hadd]
  exact Nat.mod_eq_of_lt (by show (nbytes.toNat + 7) / 8 + 1 < 2 ^ 32; omega)

/-- **`malloc`** ends with a block in use, or with a null pointer. -/
theorem Inv.malloc (hi : Inv base h blocks live) (hbase : 0 < base) {nbytes : UInt32} {answer : Option Nat}
    (hn : nbytes.toNat ≤ 2 ^ 32 - 8) (hanswer : ∀ hp, answer = some hp → nbytes.toNat ≤ 2 ^ 31 - 16 ∧ Fresh base h hp)
    {fuel : Nat} (hfuel : 2 * blocks.length + 3 ≤ fuel) :
    ∃ h' r, malloc base fuel [answer] h nbytes = some (h', r) ∧
      ((r = 0 ∧ h' = h) ∨ ∃ b blocks', r = b + 1 ∧ Inv base h' blocks' ((b, (nbytes.toNat + 7) / 8 + 1) :: live) ∧
        blocks'.length ≤ blocks.length + 1) := by
  have hstart : start base h = h := if_neg (by have := hi.base_le_freep; omega)
  have hunits := nunits_eq hn
  obtain ⟨k, hk⟩ : ∃ k, fuel = blocks.length + 1 + (blocks.length + 2 + k) := ⟨fuel - (2 * blocks.length + 3), by omega⟩
  have hpos : 0 < ((nbytes + 8 - 1) / 8 + 1).toNat := by omega
  have hgiven : ∀ hp, answer = some hp → ((nbytes + 8 - 1) / 8 + 1).toNat < 2 ^ 28 ∧ Fresh base h hp := by
    intro hp hsome
    obtain ⟨hle, hfresh⟩ := hanswer hp hsome
    exact ⟨by omega, hfresh⟩
  obtain ⟨h', r, hrun, hres⟩ := hi.loop hpos hgiven k
  refine ⟨h', r, ?_, ?_⟩
  · unfold Umalloc.malloc
    rw [hstart, hk]
    exact hrun
  · rw [← hunits]
    exact hres.imp (fun h => ⟨h.1, h.2.2⟩) id

/-- The free list is right, and has no more blocks than there were calls. -/
def State.Good (base : Nat) (s : State) : Prop :=
  (s.heap.freep = 0 ∧ s.live = [] ∧ s.heap.chunks = []) ∨ ∃ blocks, Inv base s.heap blocks s.live ∧ blocks.length ≤ s.calls

theorem State.Good.right (h : s.Good base) : s.Right base :=
  h.imp id fun ⟨blocks, hi, _⟩ => ⟨blocks, hi⟩

theorem Inv.serves {t : State} {b : Nat} {nbytes : UInt32} (hi : Inv base t.heap blocks t.live)
    (ht : t.live = (b, (nbytes.toNat + 7) / 8 + 1) :: s.live) : Serves base s t nbytes := by
  refine Or.inr ⟨_, ht, ?_, fun x hx => ?_⟩
  · show nbytes.toNat ≤ 8 * ((nbytes.toNat + 7) / 8 + 1 - 1)
    omega
  · have hcov := hi.cover x
    have honce := hi.once x
    rw [ht, covers_cons, if_pos hx] at hcov
    obtain ⟨c, hc, hin⟩ := exists_of_covers (l := t.heap.chunks) (x := x) (by omega)
    have := hi.above c hc
    have := hin.1
    exact ⟨by omega, by omega, by omega⟩

/-- What an action is to give. -/
def Action.Gives (base : Nat) (s t : State) : Action → Prop
  | .malloc nbytes _ => Serves base s t nbytes
  | .free b => t.live = s.live.erase b
  | .write _ _ _ => t.live = s.live

/-- **One action** ends, and keeps the free list right. -/
theorem State.Good.step (hbase : 0 < base) (hs : s.Good base) {a : Action} (ha : s.Meets base a) :
    ∃ t, step base s a = some t ∧ t.Good base ∧ a.Gives base s t := by
  cases a with
  | malloc nbytes answer =>
    obtain ⟨hn, hanswer⟩ := ha
    -- the first call makes the list
    obtain ⟨blocks, hi, hlen, hrun⟩ : ∃ blocks, Inv base (start base s.heap) blocks s.live ∧ blocks.length ≤ s.calls ∧
        malloc base s.fuel [answer] (start base s.heap) nbytes = malloc base s.fuel [answer] s.heap nbytes := by
      rcases hs with ⟨hfreep, hlive, hchunks⟩ | ⟨blocks, hi, hlen⟩
      · have hstart : start base s.heap = ⟨Function.update s.heap.mem base ⟨base, 0⟩, base, []⟩ := by
          unfold start
          rw [if_pos hfreep, hchunks]
        have htwice : start base (start base s.heap) = start base s.heap := by
          rw [hstart]
          exact if_neg (Nat.ne_of_gt hbase)
        refine ⟨[], ?_, Nat.zero_le _, ?_⟩
        · rw [hstart, hlive]
          exact inv_start _
        · unfold Umalloc.malloc
          rw [htwice]
      · have hstart : start base s.heap = s.heap := if_neg (by have := hi.base_le_freep; omega)
        rw [hstart]
        exact ⟨blocks, hi, hlen, rfl⟩
    have hchunks : (start base s.heap).chunks = s.heap.chunks := by
      unfold start
      split <;> rfl
    have hfresh : ∀ hp, answer = some hp → nbytes.toNat ≤ 2 ^ 31 - 16 ∧ Fresh base (start base s.heap) hp := by
      intro hp hanswer'
      obtain ⟨hle, habove, hends⟩ := hanswer hp hanswer'
      refine ⟨hle, habove, ?_⟩
      rw [hchunks]
      exact hends
    have hfuel : 2 * blocks.length + 3 ≤ s.fuel := by
      unfold State.fuel
      omega
    obtain ⟨h', r, hmalloc, hres⟩ := hi.malloc hbase hn hfresh hfuel
    rw [hrun] at hmalloc
    have hstep : Umalloc.step base s (.malloc nbytes answer) =
        some ⟨h', if r = 0 then s.live else (r - 1, (h'.mem (r - 1)).size) :: s.live, s.calls + 1⟩ := by
      show (Umalloc.malloc base s.fuel [answer] s.heap nbytes).map _ = _
      rw [hmalloc]
      rfl
    refine ⟨_, hstep, ?_⟩
    rcases hres with ⟨rfl, rfl⟩ | ⟨b, blocks', rfl, hinv, hlen'⟩
    · exact ⟨Or.inr ⟨blocks, hi, by show blocks.length ≤ s.calls + 1; omega⟩, Or.inl rfl⟩
    · have hsize : (h'.mem (b + 1 - 1)).size = (nbytes.toNat + 7) / 8 + 1 := (hinv.used _ List.mem_cons_self).1
      rw [if_neg (Nat.succ_ne_zero b), hsize]
      exact ⟨Or.inr ⟨blocks', hinv, by show blocks'.length ≤ s.calls + 1; omega⟩, hinv.serves rfl⟩
  | free b =>
    have hb : b ∈ s.live := ha
    rcases hs with ⟨-, hlive, -⟩ | ⟨blocks, hi, hlen⟩
    · rw [hlive] at hb
      exact absurd hb List.not_mem_nil
    · obtain ⟨k, hk⟩ : ∃ k, s.fuel = blocks.length + 1 + k := ⟨s.fuel - (blocks.length + 1), by unfold State.fuel; omega⟩
      have hfront : Inv base s.heap blocks ((b.1, b.2) :: s.live.erase b) := hi.perm (List.perm_cons_erase hb)
      obtain ⟨h', blocks', hrun, hinv, -, hlen', -⟩ := hfront.freed k
      refine ⟨⟨h', s.live.erase b, s.calls + 1⟩, ?_, Or.inr ⟨blocks', hinv, ?_⟩, rfl⟩
      · show (Umalloc.free s.fuel s.heap b.1).map _ = _
        rw [hk, hrun]
        rfl
      · show blocks'.length ≤ s.calls + 1
        omega
  | write b a data =>
    obtain ⟨hb, hlo, hhi⟩ := ha
    rcases hs with ⟨-, hlive, -⟩ | ⟨blocks, hi, hlen⟩
    · rw [hlive] at hb
      exact absurd hb List.not_mem_nil
    · exact ⟨_, rfl, Or.inr ⟨blocks, hi.write hb hlo hhi data, hlen⟩, rfl⟩

theorem boot_good : State.boot.Good base := Or.inl ⟨rfl, rfl, rfl⟩

/-- **The heap is right** in every state of a run that meets the condition, and every call that meets it ends and gives what it
is to give. -/
theorem heap_right (hbase : 0 < base) (tr : List Action) (s : State)
    (h : Path (step base) (State.Meets base) .boot tr s) :
    s.Right base ∧ ∀ a, s.Meets base a → ∃ t, step base s a = some t ∧ t.Right base ∧ a.Gives base s t := by
  have hgood : s.Good base := h.invariant (State.Good base) boot_good fun s a t hs ha ht => by
    obtain ⟨u, hu, hgood, -⟩ := hs.step hbase ha
    rw [ht] at hu
    cases hu
    exact hgood
  refine ⟨hgood.right, fun a ha => ?_⟩
  obtain ⟨t, ht, hgood', hgives⟩ := hgood.step hbase ha
  exact ⟨t, ht, hgood'.right, hgives⟩

/-- A block is allocated and freed again. -/
theorem heap_right_once : ∃ s, Path (step 1) (State.Meets 1) .boot [.malloc 10 (some 512), .free (4605, 3)] s ∧ s.Right 1 ∧
    ∀ a, s.Meets 1 a → ∃ t, step 1 s a = some t ∧ t.Right 1 ∧ a.Gives 1 s t := by
  have hfresh : Fresh 1 State.boot.heap 512 := ⟨by decide, nofun⟩
  have hmalloc : State.boot.Meets 1 (.malloc 10 (some 512)) := ⟨by decide, fun hp h => by
    cases h
    exact ⟨by decide, hfresh⟩⟩
  have hfirst : Path (step 1) (State.Meets 1) .boot [.malloc 10 (some 512)] _ := .snoc .nil hmalloc rfl
  have hpath : Path (step 1) (State.Meets 1) .boot [.malloc 10 (some 512), .free (4605, 3)] _ :=
    hfirst.snoc List.mem_cons_self rfl
  exact ⟨_, hpath, heap_right (by decide) _ _ hpath⟩

/-- A block for 2³² - 1 bytes has none. -/
theorem heap_overflow : Fresh 1 State.boot.heap 512 ∧ ∃ t, step 1 .boot (.malloc 4294967295 (some 512)) = some t ∧
    t.live = [(4607, 1)] ∧ ¬Serves 1 .boot t 4294967295 := by
  refine ⟨⟨by decide, nofun⟩, _, rfl, by decide, ?_⟩
  rintro (h | ⟨b, hb, hle, -⟩)
  · exact absurd h (by decide)
  · cases hb
    exact absurd hle (by decide)

end Run

end NewXv6.Umalloc
