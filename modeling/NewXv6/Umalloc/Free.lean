import NewXv6.Umalloc.Model
import Mathlib.Data.List.Perm.Basic
import Mathlib.Tactic.Common

/-!
# The free list

The free list is a cycle in the order of addresses: `base`, then blocks of which none ends where the next one begins. Every
header of the memory that `sbrk` has given is in exactly one block, which is free or in use.
-/

namespace NewXv6.Umalloc

open Lib

/-- Header `x` is in the block. -/
def Inside (x : Nat) (b : Block) : Prop := b.1 ≤ x ∧ x < b.1 + b.2

instance (x : Nat) (b : Block) : Decidable (Inside x b) := by unfold Inside; infer_instance

/-- How many of the blocks `x` is in. -/
def covers (l : List Block) (x : Nat) : Nat := l.countP fun b => decide (Inside x b)

/-- A block ends before another one, with something between them. -/
def Before (b c : Block) : Prop := b.1 + b.2 < c.1

def Heap.next (h : Heap) (a : Nat) : Nat := (h.mem a).ptr

/-- The free blocks, and the blocks in use. -/
structure Inv (base : Nat) (h : Heap) (blocks live : List Block) : Prop where
  cycle : Cyclic h.next (base :: blocks.map Prod.fst)
  size : ∀ b ∈ (base, 0) :: blocks, (h.mem b.1).size = b.2
  freep : h.freep ∈ base :: blocks.map Prod.fst
  sorted : ((base, 0) :: blocks).Pairwise Before
  pos : ∀ b ∈ blocks, 0 < b.2
  used : ∀ b ∈ live, (h.mem b.1).size = b.2 ∧ 0 < b.2
  cover : ∀ x, covers blocks x + covers live x = covers h.chunks x
  once : ∀ x, covers h.chunks x ≤ 1
  above : ∀ c ∈ h.chunks, base < c.1

section Covers

variable {l A B : List Block} {x a s t : Nat} {b c : Block}

theorem covers_cons (b : Block) (l : List Block) (x : Nat) : covers (b :: l) x = covers l x + if Inside x b then 1 else 0 := by
  unfold covers
  rw [List.countP_cons]
  simp

theorem covers_append (A B : List Block) (x : Nat) : covers (A ++ B) x = covers A x + covers B x := List.countP_append

theorem covers_perm (h : A.Perm B) (x : Nat) : covers A x = covers B x := h.countP_eq _

theorem covers_pos (hb : b ∈ l) (hx : Inside x b) : 0 < covers l x :=
  List.countP_pos_iff.2 ⟨b, hb, by simpa using hx⟩

theorem exists_of_covers (h : 0 < covers l x) : ∃ b ∈ l, Inside x b := by
  obtain ⟨b, hb, hx⟩ := List.countP_pos_iff.1 h
  exact ⟨b, hb, by simpa using hx⟩

/-- Two blocks that touch are one. -/
theorem covers_join (a s t : Nat) (l : List Block) (x : Nat) :
    covers ((a, s) :: (a + s, t) :: l) x = covers ((a, s + t) :: l) x := by
  rw [covers_cons, covers_cons, covers_cons, Nat.add_assoc]
  congr 1
  by_cases hx : x < a + s
  · have hnot : ¬Inside x (a + s, t) := fun hc => absurd hc.1 (Nat.not_le.2 hx)
    rw [if_neg hnot, Nat.zero_add]
    exact if_congr ⟨fun hc => ⟨hc.1, show x < a + (s + t) by omega⟩, fun hc => ⟨hc.1, hx⟩⟩ rfl rfl
  · have hnot : ¬Inside x (a, s) := fun hc => hx hc.2
    rw [if_neg hnot, Nat.add_zero]
    refine if_congr ⟨fun hc => ⟨?_, ?_⟩, fun hc => ⟨Nat.not_lt.1 hx, ?_⟩⟩ rfl rfl
    · show a ≤ x
      omega
    · have : x < a + s + t := hc.2
      show x < a + (s + t)
      omega
    · have : x < a + (s + t) := hc.2
      show x < a + s + t
      omega

end Covers

section List

variable {base : Nat} {h : Heap} {blocks live : List Block} {b c d : Block}

/-- Blocks that are not apart share a header. -/
theorem exists_shared (hb : 0 < b.2) (hc : 0 < c.2) (hne : ¬(b.1 + b.2 ≤ c.1 ∨ c.1 + c.2 ≤ b.1)) :
    ∃ x, Inside x b ∧ Inside x c := by
  rw [not_or, Nat.not_le, Nat.not_le] at hne
  exact ⟨max b.1 c.1, ⟨Nat.le_max_left _ _, by omega⟩, ⟨Nat.le_max_right _ _, by omega⟩⟩

/-- A header is in one block. -/
theorem Inv.apart (hi : Inv base h blocks live) (hb : b ∈ blocks) (hc : c ∈ live) : b.1 + b.2 ≤ c.1 ∨ c.1 + c.2 ≤ b.1 := by
  by_contra hne
  obtain ⟨x, hxb, hxc⟩ := exists_shared (hi.pos b hb) (hi.used c hc).2 hne
  have h₁ := covers_pos hb hxb
  have h₂ := covers_pos hc hxc
  have := hi.cover x
  have := hi.once x
  omega

theorem Inv.live_apart (hi : Inv base h blocks (b :: live)) (hc : c ∈ live) : b.1 + b.2 ≤ c.1 ∨ c.1 + c.2 ≤ b.1 := by
  by_contra hne
  obtain ⟨x, hxb, hxc⟩ := exists_shared (hi.used b List.mem_cons_self).2 (hi.used c (List.mem_cons_of_mem _ hc)).2 hne
  have h₁ := covers_pos hc hxc
  have hcov := hi.cover x
  have := hi.once x
  rw [covers_cons, if_pos hxb] at hcov
  omega

/-- Blocks in use are in the memory that `sbrk` has given, above `base`. -/
theorem Inv.live_above (hi : Inv base h blocks live) (hb : b ∈ live) : base < b.1 := by
  have hpos := (hi.used b hb).2
  have hx : Inside b.1 b := ⟨Nat.le_refl _, by omega⟩
  have := covers_pos hb hx
  have hcov := hi.cover b.1
  obtain ⟨c, hc, hin⟩ := exists_of_covers (l := h.chunks) (x := b.1) (by omega)
  exact Nat.lt_of_lt_of_le (hi.above c hc) hin.1

/-- A node of the list, with what is before and behind it. -/
structure At (base : Nat) (blocks L : List Block) (p : Block) (R : List Block) : Prop where
  eq : (base, 0) :: blocks = L ++ p :: R

theorem At.mem {L R : List Block} (hp : At base blocks L b R) : b ∈ (base, 0) :: blocks := by
  rw [hp.eq]
  exact List.mem_append.2 (Or.inr List.mem_cons_self)

/-- What is behind a node is changed. -/
theorem At.exists_list {L R : List Block} (hp : At base blocks L b R) (N : List Block) :
    ∃ blocks', (base, 0) :: blocks' = L ++ b :: N := by
  have heq := hp.eq
  cases L with
  | nil =>
    rw [List.nil_append, List.cons.injEq] at heq
    exact ⟨N, by rw [heq.1]; rfl⟩
  | cons q L =>
    rw [List.cons_append, List.cons.injEq] at heq
    exact ⟨L ++ b :: N, by rw [heq.1]; rfl⟩

/-- The cycle from a node on. -/
theorem Inv.from (hi : Inv base h blocks live) {L R : List Block} {p : Block} (hp : At base blocks L p R) :
    Cyclic h.next (p.1 :: (R.map Prod.fst ++ L.map Prod.fst)) := by
  have hmap : base :: blocks.map Prod.fst = L.map Prod.fst ++ p.1 :: R.map Prod.fst := by
    have := congrArg (List.map Prod.fst) hp.eq
    rwa [List.map_cons, List.map_append, List.map_cons] at this
  have := hi.cycle
  rw [hmap] at this
  exact this.rotate

/-- The first node is `base`. -/
theorem At.headD {L R : List Block} {p : Block} (hp : At base blocks L p R) (l : List Nat) :
    (l ++ L.map Prod.fst).headD p.1 = l.headD base := by
  cases l with
  | cons a l => rfl
  | nil =>
    have heq := hp.eq
    cases L with
    | nil =>
      rw [List.nil_append, List.cons.injEq] at heq
      show p.1 = base
      rw [← heq.1]
    | cons q L =>
      rw [List.cons_append, List.cons.injEq] at heq
      show q.1 = base
      rw [← heq.1]

/-- The pointer of a node. -/
theorem Inv.next_eq (hi : Inv base h blocks live) {L R : List Block} {p : Block} (hp : At base blocks L p R) :
    (h.mem p.1).ptr = (R.map Prod.fst).headD base := by
  rw [← hp.headD]
  exact (hi.from hp).next_eq

theorem Inv.sorted_at (hi : Inv base h blocks live) {L R : List Block} {p : Block} (hp : At base blocks L p R) :
    (L ++ p :: R).Pairwise Before := hp.eq ▸ hi.sorted

/-- The freed block goes behind this node. -/
theorem Inv.exists_stop (hi : Inv base h blocks live) (hb : b ∈ live) :
    ∃ L p R, At base blocks L p R ∧ p.1 < b.1 ∧ ∀ q ∈ R, b.1 < q.1 := by
  have hbase := hi.live_above hb
  have hne : ∀ q ∈ blocks, q.1 ≠ b.1 := by
    rintro q hq he
    have := hi.apart hq hb
    have := hi.pos q hq
    have := (hi.used b hb).2
    omega
  have key : ∀ (l : List Block) (p : Block), (p :: l).Pairwise Before → p.1 < b.1 → (∀ q ∈ l, q.1 ≠ b.1) →
      ∃ L q R, p :: l = L ++ q :: R ∧ q.1 < b.1 ∧ ∀ r ∈ R, b.1 < r.1 := by
    intro l
    induction l with
    | nil => exact fun p _ hlt _ => ⟨[], p, [], rfl, hlt, fun r hr => absurd hr List.not_mem_nil⟩
    | cons c l ih =>
      intro p hsorted hlt hne
      by_cases hc : c.1 < b.1
      · obtain ⟨L, q, R, heq, hq, hR⟩ := ih c (List.pairwise_cons.1 hsorted).2 hc fun q hq => hne q (List.mem_cons_of_mem _ hq)
        exact ⟨p :: L, q, R, by rw [heq]; rfl, hq, hR⟩
      · have hc' := hne c List.mem_cons_self
        refine ⟨[], p, c :: l, rfl, hlt, fun r hr => ?_⟩
        rcases List.mem_cons.1 hr with rfl | hr
        · omega
        · have := (List.pairwise_cons.1 (List.pairwise_cons.1 hsorted).2).1 r hr
          unfold Before at this
          omega
  obtain ⟨L, p, R, heq, hlt, hR⟩ := key blocks (base, 0) hi.sorted hbase hne
  exact ⟨L, p, R, ⟨heq⟩, hlt, hR⟩

end List

/-! ## The loop of `free` -/

section Walk

variable {base bp n : Nat} {h : Heap} {blocks live L R R₁ : List Block} {p c : Block} {mem : Nat → Header}

/-- The loop of `free` stops at `p`. -/
def Stop (mem : Nat → Header) (bp p : Nat) : Prop :=
  (p < bp ∧ bp < (mem p).ptr) ∨ ((mem p).ptr ≤ p ∧ (p < bp ∨ bp < (mem p).ptr))

theorem freeLoop_stop {a : Nat} (h : Stop mem bp a) (k : Nat) : freeLoop mem bp (k + 1) a = some a := by
  rw [freeLoop]
  by_cases h₁ : a < bp ∧ bp < (mem a).ptr
  · rw [if_pos h₁]
  · rw [if_neg h₁, if_pos (h.resolve_left h₁)]

theorem freeLoop_next {a : Nat} (h : ¬Stop mem bp a) (k : Nat) :
    freeLoop mem bp (k + 1) a = freeLoop mem bp k (mem a).ptr := by
  obtain ⟨h₁, h₂⟩ := not_or.1 h
  rw [freeLoop, if_neg h₁, if_neg h₂]

/-- The loop finds the first element where it stops. -/
theorem freeLoop_walk {e : Nat} (bp : Nat) (l : List Nat) : ∀ a, Leads (fun x => (mem x).ptr) e (a :: l) →
    (∃ t ∈ a :: l, Stop mem bp t) → ∃ t ∈ a :: l, Stop mem bp t ∧ ∀ k, freeLoop mem bp (l.length + 1 + k) a = some t := by
  induction l with
  | nil =>
    rintro a - ⟨t, ht, hstop⟩
    obtain rfl := List.mem_singleton.1 ht
    exact ⟨t, ht, hstop, fun k => by rw [Nat.add_comm]; exact freeLoop_stop hstop _⟩
  | cons b l ih =>
    rintro a ⟨hnext, hl⟩ ⟨t, ht, hstop⟩
    have hlen : ∀ k, (b :: l).length + 1 + k = l.length + 1 + k + 1 := fun k => by
      rw [List.length_cons]
      omega
    by_cases ha : Stop mem bp a
    · exact ⟨a, List.mem_cons_self, ha, fun k => by rw [hlen]; exact freeLoop_stop ha _⟩
    · have ht' : t ∈ b :: l := (List.mem_cons.1 ht).resolve_left fun h => ha (h ▸ hstop)
      obtain ⟨u, hu, hustop, hrun⟩ := ih b hl ⟨t, ht', hstop⟩
      refine ⟨u, List.mem_cons_of_mem _ hu, hustop, fun k => ?_⟩
      have hptr : (mem a).ptr = b := hnext
      rw [hlen, freeLoop_next ha, hptr]
      exact hrun k

/-- Every node of the list is somewhere in it. -/
theorem exists_at {a : Nat} (h : a ∈ base :: blocks.map Prod.fst) : ∃ L p R, At base blocks L p R ∧ p.1 = a := by
  have : a ∈ ((base, 0) :: blocks).map Prod.fst := h
  obtain ⟨p, hp, rfl⟩ := List.mem_map.1 this
  obtain ⟨L, R, heq⟩ := List.append_of_mem hp
  exact ⟨L, p, R, ⟨heq⟩, rfl⟩

theorem At.mem_address (hp : At base blocks L p R) : p.1 ∈ base :: blocks.map Prod.fst :=
  List.mem_map_of_mem (f := Prod.fst) hp.mem

theorem At.base_le (hp : At base blocks L p R) (hi : Inv base h blocks live) : base ≤ p.1 := by
  rcases List.mem_cons.1 hp.mem with rfl | hb
  · exact Nat.le_refl _
  · have := (List.pairwise_cons.1 hi.sorted).1 p hb
    unfold Before at this
    exact Nat.le_of_lt (Nat.lt_of_le_of_lt (Nat.le_add_right _ _) this)

theorem Inv.behind (hi : Inv base h blocks live) (hp : At base blocks L p R) : ∀ q ∈ R, Before p q :=
  (List.pairwise_cons.1 (List.pairwise_append.1 (hi.sorted_at hp)).2.1).1

theorem Inv.before (hi : Inv base h blocks live) (hp : At base blocks L p R) : ∀ q ∈ L, Before q p := fun q hq =>
  (List.pairwise_append.1 (hi.sorted_at hp)).2.2 q hq p List.mem_cons_self

/-- The loop stops exactly where the block belongs. -/
theorem Inv.stop_iff (hi : Inv base h blocks live) (hp : At base blocks L p R) (hbase : base < bp) :
    Stop h.mem bp p.1 ↔ p.1 < bp ∧ ∀ q ∈ R, bp < q.1 := by
  have hptr := hi.next_eq hp
  have hle := hp.base_le hi
  unfold Stop
  rw [hptr]
  cases hR : R with
  | nil =>
    show (p.1 < bp ∧ bp < base ∨ base ≤ p.1 ∧ (p.1 < bp ∨ bp < base)) ↔ _
    exact ⟨fun h => ⟨by omega, fun q hq => absurd hq List.not_mem_nil⟩, fun h => Or.inr ⟨hle, Or.inl h.1⟩⟩
  | cons q R' =>
    subst hR
    have hpq : p.1 + p.2 < q.1 := hi.behind hp q List.mem_cons_self
    show (p.1 < bp ∧ bp < q.1 ∨ q.1 ≤ p.1 ∧ (p.1 < bp ∨ bp < q.1)) ↔ _
    constructor
    · intro h
      refine ⟨by omega, fun r hr => ?_⟩
      have hall := (List.pairwise_append.1 (hi.sorted_at hp)).2.1
      rcases List.mem_cons.1 hr with rfl | hr
      · omega
      · have := (List.pairwise_cons.1 (List.pairwise_cons.1 hall).2).1 r hr
        unfold Before at this
        omega
    · intro h
      exact Or.inl ⟨h.1, h.2 q List.mem_cons_self⟩

/-- **The loop of `free` ends** at the node behind which the block belongs. -/
theorem Inv.found (hi : Inv base h blocks live) {b : Block} (hb : b ∈ live) :
    ∃ L p R, At base blocks L p R ∧ p.1 < b.1 ∧ (∀ q ∈ R, b.1 < q.1) ∧
      ∀ k, freeLoop h.mem b.1 (blocks.length + 1 + k) h.freep = some p.1 := by
  obtain ⟨L, p, R, hp, hlt, hR⟩ := hi.exists_stop hb
  have hbase := hi.live_above hb
  obtain ⟨A, f, B, hf, hfreep⟩ := exists_at hi.freep
  have hcycle : Leads h.next f.1 (f.1 :: (B.map Prod.fst ++ A.map Prod.fst)) := hi.from hf
  have hmem : ∀ a, a ∈ f.1 :: (B.map Prod.fst ++ A.map Prod.fst) ↔ a ∈ base :: blocks.map Prod.fst := by
    intro a
    show _ ↔ a ∈ ((base, 0) :: blocks).map Prod.fst
    rw [hf.eq, List.map_append, List.map_cons]
    simp only [List.mem_cons, List.mem_append]
    tauto
  have hexists : ∃ t ∈ f.1 :: (B.map Prod.fst ++ A.map Prod.fst), Stop h.mem b.1 t :=
    ⟨p.1, (hmem _).2 hp.mem_address, (hi.stop_iff hp hbase).2 ⟨hlt, hR⟩⟩
  obtain ⟨t, ht, hstop, hrun⟩ := freeLoop_walk b.1 _ _ hcycle hexists
  obtain ⟨L', q, R', hq, rfl⟩ := exists_at ((hmem t).1 ht)
  obtain ⟨hlt', hR'⟩ := (hi.stop_iff hq hbase).1 hstop
  have hlen : (B.map Prod.fst ++ A.map Prod.fst).length = blocks.length := by
    have := congrArg List.length hf.eq
    simp only [List.length_cons, List.length_append, List.length_map] at this ⊢
    omega
  rw [hlen, hfreep] at hrun
  exact ⟨L', q, R', hq, hlt', hR', hrun⟩

/-! ## Joining -/

theorem Inv.gap (hi : Inv base h blocks ((bp, n) :: live)) (hp : At base blocks L p R) (hlt : p.1 < bp) : p.1 + p.2 ≤ bp := by
  rcases List.mem_cons.1 hp.mem with rfl | hb
  · exact Nat.le_of_lt hlt
  · have hn := (hi.used _ List.mem_cons_self).2
    have := hi.apart hb List.mem_cons_self
    dsimp only at *
    omega

theorem At.mem_blocks (hi : Inv base h blocks live) (hp : At base blocks L p R) {q : Block} (hq : q ∈ R) : q ∈ blocks := by
  have hmem : q ∈ (base, 0) :: blocks := by
    rw [hp.eq]
    exact List.mem_append.2 (Or.inr (List.mem_cons_of_mem _ hq))
  refine (List.mem_cons.1 hmem).resolve_left ?_
  rintro rfl
  have h₁ : p.1 + p.2 < base := hi.behind hp _ hq
  have h₂ := hp.base_le hi
  omega

theorem Inv.next_joined (hi : Inv base h blocks ((bp, n) :: live)) (hp : At base blocks L p R) (hR : ∀ q ∈ R, bp < q.1) :
    ∃ c R₁, c.1 = bp ∧ n ≤ c.2 ∧ R₁ <:+ R ∧ (∀ q ∈ R₁, Before c q) ∧ (∀ x, covers (c :: R₁) x = covers ((bp, n) :: R) x) ∧
      joinNext h.mem p.1 bp = Function.update h.mem bp ⟨(R₁.map Prod.fst).headD base, c.2⟩ := by
  have hbp : (h.mem bp).size = n := (hi.used _ List.mem_cons_self).1
  have hn : 0 < n := (hi.used _ List.mem_cons_self).2
  have hbase : base < bp := hi.live_above List.mem_cons_self
  have hend : ∀ q ∈ R, bp + n ≤ q.1 := by
    intro q hq
    have := hi.apart (hp.mem_blocks hi hq) List.mem_cons_self
    have := hR q hq
    dsimp only at *
    omega
  unfold joinNext
  dsimp only
  rw [hi.next_eq hp, hbp]
  by_cases htouch : bp + n = (R.map Prod.fst).headD base
  · rw [if_pos htouch]
    cases R with
    | nil =>
      have : bp + n = base := htouch
      omega
    | cons q R₁ =>
      have hq : bp + n = q.1 := htouch
      have hat : At base blocks (L ++ [p]) q R₁ := ⟨by rw [hp.eq]; simp⟩
      refine ⟨(bp, n + q.2), R₁, rfl, Nat.le_add_right _ _, List.suffix_cons _ _, fun r hr => ?_, fun x => ?_, ?_⟩
      · have := hi.behind hat r hr
        unfold Before at *
        dsimp only
        omega
      · rw [← covers_join, hq]
      · show Function.update h.mem bp ⟨(h.mem q.1).ptr, n + (h.mem q.1).size⟩ = _
        rw [hi.next_eq hat, hi.size q hat.mem]
  · rw [if_neg htouch]
    refine ⟨(bp, n), R, rfl, Nat.le_refl _, List.suffix_refl _, fun q hq => ?_, fun x => rfl, rfl⟩
    cases R with
    | nil => exact absurd hq List.not_mem_nil
    | cons r R =>
      have hr : bp + n ≠ r.1 := htouch
      have hr' := hend r List.mem_cons_self
      have hq' := hend q hq
      show bp + n < q.1
      rcases List.mem_cons.1 hq with rfl | hq
      · omega
      · have hat : At base blocks (L ++ [p]) r R := ⟨by rw [hp.eq]; simp⟩
        have := hi.behind hat q hq
        unfold Before at this
        omega

end Walk

section Join

variable {base bp n s : Nat} {h : Heap} {blocks live L R R₁ P : List Block} {p c : Block} {mem : Nat → Header}

theorem covers_base (base : Nat) (blocks : List Block) (x : Nat) : covers ((base, 0) :: blocks) x = covers blocks x := by
  rw [covers_cons, if_neg, Nat.add_zero]
  rintro ⟨h₁, h₂⟩
  dsimp only at h₁ h₂
  omega

/-- What stands behind `p` changes: a block of `n` headers comes in. -/
theorem Inv.rebuild (hi : Inv base h blocks ((bp, n) :: live)) (hp : At base blocks L p R) (hsuf : R₁ <:+ R)
    (hs : L = [] → s = p.2) (hP : P = [] ∨ ∃ c, P = [c] ∧ c.1 = bp ∧ mem bp = ⟨(R₁.map Prod.fst).headD base, c.2⟩)
    (hne : p.1 ≠ bp) (hmem : ∀ a, a ≠ bp → a ≠ p.1 → mem a = h.mem a)
    (hpmem : mem p.1 = ⟨((P ++ R₁).map Prod.fst).headD base, s⟩) (hR : ∀ q ∈ R, bp < q.1) (hlt : p.1 < bp)
    (hsorted : ((p.1, s) :: (P ++ R₁)).Pairwise Before) (hpos : p.2 ≤ s) (hPpos : ∀ c ∈ P, 0 < c.2)
    (hcover : ∀ x, covers ((p.1, s) :: (P ++ R₁)) x = covers (p :: R) x + if Inside x (bp, n) then 1 else 0) :
    ∃ blocks', Inv base { h with mem, freep := p.1 } blocks' live ∧ (base, 0) :: blocks' = L ++ (p.1, s) :: (P ++ R₁) := by
  obtain ⟨blocks', heq⟩ : ∃ blocks', (base, 0) :: blocks' = L ++ (p.1, s) :: (P ++ R₁) := by
    have := hp.eq
    cases L with
    | nil =>
      rw [List.nil_append, List.cons.injEq] at this
      refine ⟨P ++ R₁, ?_⟩
      rw [hs rfl, ← this.1]
      rfl
    | cons q L =>
      rw [List.cons_append, List.cons.injEq] at this
      exact ⟨L ++ (p.1, s) :: (P ++ R₁), by rw [this.1]; rfl⟩
  have hbefore := hi.before hp
  have hbehind := hi.behind hp
  have hL : ∀ q ∈ L, q.1 < p.1 := fun q hq => Nat.lt_of_le_of_lt (Nat.le_add_right _ _) (hbefore q hq)
  have hR₁ : ∀ q ∈ R₁, q ∈ R := fun q hq => hsuf.subset hq
  have hRp : ∀ q ∈ R₁, p.1 < q.1 := fun q hq => Nat.lt_trans hlt (hR q (hR₁ q hq))
  -- the other nodes are as before
  have hother : ∀ q, q ∈ L ∨ q ∈ R₁ → mem q.1 = h.mem q.1 := by
    rintro q (hq | hq)
    · have := hL q hq
      exact hmem _ (by omega) (by omega)
    · have := hR q (hR₁ q hq)
      have := hRp q hq
      exact hmem _ (by omega) (by omega)
  have hnode : ∀ q, q ∈ L ∨ q ∈ R₁ → q ∈ (base, 0) :: blocks := by
    rintro q (hq | hq)
    · rw [hp.eq]
      exact List.mem_append.2 (Or.inl hq)
    · rw [hp.eq]
      exact List.mem_append.2 (Or.inr (List.mem_cons_of_mem _ (hR₁ q hq)))
  have hall : ((base, 0) :: blocks').Pairwise Before := by
    rw [heq]
    refine List.pairwise_append.2 ⟨(List.pairwise_append.1 (hi.sorted_at hp)).1, hsorted, fun q hq r hr => ?_⟩
    have hqp : q.1 + q.2 < p.1 := hbefore q hq
    rcases List.mem_cons.1 hr with rfl | hr
    · exact hqp
    · have : p.1 + s < r.1 := (List.pairwise_cons.1 hsorted).1 r hr
      show q.1 + q.2 < r.1
      omega
  refine ⟨blocks', ⟨?_, ?_, ?_, hall, ?_, ?_, ?_, hi.once, hi.above⟩, heq⟩
  · -- the cycle
    obtain ⟨M, hM⟩ := hsuf
    have hcycle := hi.from hp
    rw [← hM, List.map_append, List.append_assoc] at hcycle
    have hnew : Cyclic (fun a => (mem a).ptr) (p.1 :: (P.map Prod.fst ++ (R₁.map Prod.fst ++ L.map Prod.fst))) := by
      refine hcycle.splice ?_ fun a ha => ?_
      · rw [hp.headD]
        rcases hP with rfl | ⟨c, rfl, hc, hbpmem⟩
        · refine ⟨?_, trivial⟩
          show (mem p.1).ptr = _
          rw [hpmem]
          rfl
        · refine ⟨?_, ?_, trivial⟩
          · show (mem p.1).ptr = _
            rw [hpmem]
            rfl
          show (mem c.1).ptr = _
          rw [hc, hbpmem]
          rfl
      · rw [← List.map_append] at ha
        obtain ⟨q, hq, rfl⟩ := List.mem_map.1 ha
        show (mem q.1).ptr = (h.mem q.1).ptr
        rw [hother q ((List.mem_append.1 hq).symm)]
    have hmap : base :: blocks'.map Prod.fst = L.map Prod.fst ++ (p.1 :: (P.map Prod.fst ++ R₁.map Prod.fst)) := by
      have := congrArg (List.map Prod.fst) heq
      rwa [List.map_cons, List.map_append, List.map_cons, List.map_append] at this
    show Cyclic (fun a => (mem a).ptr) (base :: blocks'.map Prod.fst)
    rw [hmap]
    rw [← List.append_assoc, ← List.cons_append] at hnew
    exact hnew.rotate
  · -- the sizes
    intro q hq
    rw [heq] at hq
    show (mem q.1).size = q.2
    rcases List.mem_append.1 hq with hq | hq
    · rw [hother q (Or.inl hq)]
      exact hi.size q (hnode q (Or.inl hq))
    · rcases List.mem_cons.1 hq with rfl | hq
      · show (mem p.1).size = s
        rw [hpmem]
      · rcases List.mem_append.1 hq with hq | hq
        · rcases hP with rfl | ⟨c, rfl, hc, hbpmem⟩
          · exact absurd hq List.not_mem_nil
          · obtain rfl := List.mem_singleton.1 hq
            rw [hc, hbpmem]
        · rw [hother q (Or.inr hq)]
          exact hi.size q (hnode q (Or.inr hq))
  · show p.1 ∈ ((base, 0) :: blocks').map Prod.fst
    rw [heq]
    exact List.mem_map.2 ⟨(p.1, s), List.mem_append.2 (Or.inr List.mem_cons_self), rfl⟩
  · intro q hq
    have hq' : q ∈ (base, 0) :: blocks' := List.mem_cons_of_mem _ hq
    have hqbase : base + 0 < q.1 := (List.pairwise_cons.1 hall).1 q hq
    have hold : ∀ r, r ∈ (base, 0) :: blocks → base < r.1 → 0 < r.2 := by
      intro r hr hlt
      rcases List.mem_cons.1 hr with rfl | hr
      · exact absurd hlt (Nat.lt_irrefl _)
      · exact hi.pos r hr
    rw [heq] at hq'
    rcases List.mem_append.1 hq' with hq | hq
    · exact hold q (hnode q (Or.inl hq)) hqbase
    · rcases List.mem_cons.1 hq with rfl | hq
      · have := hold p hp.mem hqbase
        exact Nat.lt_of_lt_of_le this hpos
      · rcases List.mem_append.1 hq with hq | hq
        · exact hPpos q hq
        · exact hold q (hnode q (Or.inr hq)) hqbase
  · intro b hb
    have hb' := hi.used b (List.mem_cons_of_mem _ hb)
    have hbp : b.1 ≠ bp := by
      have := hi.live_apart hb
      have := hi.used _ List.mem_cons_self
      dsimp only at *
      omega
    have hbp' : b.1 ≠ p.1 := by
      have habove := hi.live_above (List.mem_cons_of_mem _ hb)
      rcases List.mem_cons.1 hp.mem with rfl | hpb
      · exact Nat.ne_of_gt habove
      · have := hi.apart hpb (List.mem_cons_of_mem _ hb)
        have := hi.pos p hpb
        omega
    show (mem b.1).size = b.2 ∧ 0 < b.2
    rw [hmem _ hbp hbp']
    exact hb'
  · intro x
    have hx := hi.cover x
    rw [← covers_base base blocks, hp.eq, covers_append, covers_cons (bp, n)] at hx
    rw [← covers_base base blocks', heq, covers_append, hcover]
    show _ = covers h.chunks x
    omega

/-- **A block is joined into the list.** -/
theorem Inv.join (hi : Inv base h blocks ((bp, n) :: live)) (hp : At base blocks L p R) (hlt : p.1 < bp)
    (hR : ∀ q ∈ R, bp < q.1) :
    ∃ blocks', Inv base { h with mem := joinPrev (joinNext h.mem p.1 bp) p.1 bp, freep := p.1 } blocks' live ∧
      (∃ c ∈ blocks', n ≤ c.2) ∧ blocks'.length ≤ blocks.length + 1 := by
  obtain ⟨c, R₁, hc, hn, hsuf, hafter, hcov, hmem⟩ := hi.next_joined hp hR
  have hgap := hi.gap hp hlt
  have hbase : base < bp := hi.live_above List.mem_cons_self
  have hpos : 0 < n := (hi.used _ List.mem_cons_self).2
  have hRsorted : R₁.Pairwise Before :=
    (List.pairwise_cons.1 (List.pairwise_append.1 (hi.sorted_at hp)).2.1).2.sublist hsuf.sublist
  have hlen : R₁.length ≤ R.length := hsuf.length_le
  have hlen' : blocks.length = L.length + R.length := by
    have := congrArg List.length hp.eq
    simp only [List.length_cons, List.length_append] at this
    omega
  have hpmem : joinNext h.mem p.1 bp p.1 = h.mem p.1 := by
    rw [hmem]
    exact Function.update_of_ne (Nat.ne_of_lt hlt) _ _
  have hbpmem : joinNext h.mem p.1 bp bp = ⟨(R₁.map Prod.fst).headD base, c.2⟩ := by
    rw [hmem]
    exact Function.update_self _ _ _
  have hother : ∀ a, a ≠ bp → joinNext h.mem p.1 bp a = h.mem a := fun a ha => by
    rw [hmem]
    exact Function.update_of_ne ha _ _
  have hpsize := hi.size p hp.mem
  unfold joinPrev
  rw [hpmem, hpsize]
  by_cases htouch : p.1 + p.2 = bp
  · rw [if_pos htouch, hbpmem]
    have hL : L ≠ [] := by
      rintro rfl
      have := hp.eq
      rw [List.nil_append, List.cons.injEq] at this
      rw [← this.1] at htouch
      dsimp only at htouch
      omega
    have hsorted : ((p.1, p.2 + c.2) :: ([] ++ R₁)).Pairwise Before := by
      refine List.pairwise_cons.2 ⟨fun q hq => ?_, hRsorted⟩
      have : c.1 + c.2 < q.1 := hafter q hq
      show p.1 + (p.2 + c.2) < q.1
      omega
    have hcover : ∀ x, covers ((p.1, p.2 + c.2) :: ([] ++ R₁)) x = covers (p :: R) x + if Inside x (bp, n) then 1 else 0 := by
      intro x
      have hj : covers (p :: c :: R₁) x = covers ((p.1, p.2 + c.2) :: R₁) x := by
        have := covers_join p.1 p.2 c.2 R₁ x
        rw [htouch, ← hc] at this
        exact this
      rw [List.nil_append, ← hj, covers_cons, hcov, covers_cons, covers_cons]
      omega
    have hpmem' : Function.update (joinNext h.mem p.1 bp) p.1 ⟨(R₁.map Prod.fst).headD base, p.2 + c.2⟩ p.1 =
        ⟨(([] ++ R₁).map Prod.fst).headD base, p.2 + c.2⟩ := Function.update_self _ _ _
    obtain ⟨blocks', hinv, heq⟩ := hi.rebuild (P := []) hp hsuf (fun h => absurd h hL) (Or.inl rfl) (Nat.ne_of_lt hlt)
      (fun a h₁ h₂ => (Function.update_of_ne h₂ _ _).trans (hother a h₁)) hpmem' hR hlt hsorted
      (Nat.le_add_right _ _) (fun c hc => absurd hc List.not_mem_nil) hcover
    refine ⟨blocks', hinv, ?_, ?_⟩
    · obtain ⟨q, L', rfl⟩ := List.exists_cons_of_ne_nil hL
      rw [List.cons_append, List.cons.injEq] at heq
      refine ⟨(p.1, p.2 + c.2), ?_, Nat.le_trans hn (Nat.le_add_left _ _)⟩
      rw [heq.2]
      exact List.mem_append.2 (Or.inr List.mem_cons_self)
    · have := congrArg List.length heq
      simp only [List.length_cons, List.length_append, List.length_nil] at this
      omega
  · rw [if_neg htouch]
    have hpc : p.1 + p.2 < c.1 := by omega
    have hsorted : ((p.1, p.2) :: ([c] ++ R₁)).Pairwise Before := by
      refine List.pairwise_cons.2 ⟨fun q hq => ?_, List.pairwise_cons.2 ⟨hafter, hRsorted⟩⟩
      rcases List.mem_cons.1 hq with rfl | hq
      · exact hpc
      · have : c.1 + c.2 < q.1 := hafter q hq
        show p.1 + p.2 < q.1
        omega
    have hcover : ∀ x, covers ((p.1, p.2) :: ([c] ++ R₁)) x = covers (p :: R) x + if Inside x (bp, n) then 1 else 0 := by
      intro x
      show covers (p :: c :: R₁) x = _
      rw [covers_cons, hcov, covers_cons, covers_cons]
      omega
    have hbpmem' : Function.update (joinNext h.mem p.1 bp) p.1 ⟨bp, p.2⟩ bp = ⟨(R₁.map Prod.fst).headD base, c.2⟩ :=
      (Function.update_of_ne (Nat.ne_of_gt hlt) _ _).trans hbpmem
    have hpmem' : Function.update (joinNext h.mem p.1 bp) p.1 ⟨bp, p.2⟩ p.1 = ⟨(([c] ++ R₁).map Prod.fst).headD base, p.2⟩ := by
      rw [Function.update_self, ← hc]
      rfl
    obtain ⟨blocks', hinv, heq⟩ := hi.rebuild (P := [c]) hp hsuf (fun _ => rfl) (Or.inr ⟨c, rfl, hc, hbpmem'⟩) (Nat.ne_of_lt hlt)
      (fun a h₁ h₂ => (Function.update_of_ne h₂ _ _).trans (hother a h₁)) hpmem' hR hlt hsorted (Nat.le_refl _)
      (fun d hd => by rw [List.mem_singleton.1 hd]; omega) hcover
    refine ⟨blocks', hinv, ⟨c, ?_, hn⟩, ?_⟩
    · have hmem : c ∈ (base, 0) :: blocks' := by
        rw [heq]
        exact List.mem_append.2 (Or.inr (List.mem_cons_of_mem _ List.mem_cons_self))
      refine (List.mem_cons.1 hmem).resolve_left ?_
      rintro rfl
      dsimp only at hc
      omega
    · have := congrArg List.length heq
      simp only [List.length_cons, List.length_append, List.length_nil] at this
      omega

/-- **`free`** ends, and the block is in the list. -/
theorem Inv.freed (hi : Inv base h blocks ((bp, n) :: live)) (k : Nat) :
    ∃ h' blocks', free (blocks.length + 1 + k) h bp = some h' ∧ Inv base h' blocks' live ∧
      (∃ c ∈ blocks', n ≤ c.2) ∧ blocks'.length ≤ blocks.length + 1 ∧ h'.chunks = h.chunks := by
  obtain ⟨L, p, R, hp, hlt, hR, hrun⟩ := hi.found List.mem_cons_self
  obtain ⟨blocks', hinv, hlarge, hlen⟩ := hi.join hp hlt hR
  refine ⟨_, blocks', ?_, hinv, hlarge, hlen, rfl⟩
  unfold free
  rw [hrun k]
  rfl

end Join

end NewXv6.Umalloc
