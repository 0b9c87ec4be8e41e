import NewXv6.Umalloc.Free

/-!
# Taking a block

`malloc` goes once around the list. If no block is large enough, what `sbrk` gives is freed into the list, and the second
round finds it.
-/

namespace NewXv6.Umalloc

open Lib

section Take

variable {base n : Nat} {h : Heap} {blocks live L R : List Block} {x y : Block}

/-- Only one node points to a block. -/
theorem Inv.pred_unique (hi : Inv base h blocks live) (hy : At base blocks L y (x :: R)) {a : Nat}
    (ha : a ∈ base :: blocks.map Prod.fst) (hnext : h.next a = x.1) : a = y.1 := by
  obtain ⟨A, v, B, hv, rfl⟩ := exists_at ha
  have hyx : y.1 + y.2 < x.1 := hi.behind hy x List.mem_cons_self
  have hbase := hy.base_le hi
  have hptr : (B.map Prod.fst).headD base = x.1 := (hi.next_eq hv).symm.trans hnext
  cases B with
  | nil =>
    have : base = x.1 := hptr
    omega
  | cons z B =>
    have hzx : z.1 = x.1 := hptr
    have hvz : v.1 + v.2 < z.1 := hi.behind hv z List.mem_cons_self
    have hvlist := hv.mem
    have hylist := hy.mem
    rw [hy.eq] at hvlist
    rw [hv.eq] at hylist
    rcases Nat.lt_trichotomy v.1 y.1 with hlt | heq | hgt
    · -- `y` would be behind `v`, and `z` not behind `y`
      rcases List.mem_append.1 hylist with hA | hB
      · have : y.1 + y.2 < v.1 := hi.before hv y hA
        omega
      · rcases List.mem_cons.1 hB with rfl | hB
        · omega
        · rcases List.mem_cons.1 hB with rfl | hB
          · omega
          · have hz : At base blocks (A ++ [v]) z B := ⟨by rw [hv.eq]; simp⟩
            have : z.1 + z.2 < y.1 := hi.behind hz y hB
            omega
    · exact heq
    · rcases List.mem_append.1 hvlist with hL | hR
      · have : v.1 + v.2 < y.1 := hi.before hy v hL
        omega
      · rcases List.mem_cons.1 hR with rfl | hR
        · omega
        · rcases List.mem_cons.1 hR with rfl | hR
          · omega
          · have hx : At base blocks (L ++ [y]) x R := ⟨by rw [hy.eq]; simp⟩
            have : x.1 + x.2 < v.1 := hi.behind hx v hR
            omega

/-- The whole block is taken. -/
theorem Inv.taken_whole (hi : Inv base h blocks live) (hy : At base blocks L y (x :: R)) (hpos : 0 < x.2) :
    ∃ blocks', Inv base { h with mem := Function.update h.mem y.1 { h.mem y.1 with ptr := (h.mem x.1).ptr }, freep := y.1 }
      blocks' (x :: live) ∧ blocks'.length ≤ blocks.length := by
  have hx : At base blocks (L ++ [y]) x R := ⟨by rw [hy.eq]; simp⟩
  obtain ⟨blocks', heq⟩ := hy.exists_list R
  have hsub : List.Sublist ((base, 0) :: blocks') ((base, 0) :: blocks) := by
    rw [heq, hy.eq]
    exact (List.Sublist.refl L).append ((List.sublist_cons_self x R).cons_cons y)
  have hsize : ∀ a, (Function.update h.mem y.1 { h.mem y.1 with ptr := (h.mem x.1).ptr } a).size = (h.mem a).size := by
    intro a
    rw [Function.update_apply]
    split
    · rename_i ha
      rw [ha]
    · rfl
  have hyR : ∀ q, q ∈ L ∨ q ∈ R → q.1 ≠ y.1 := by
    rintro q (hq | hq)
    · have : q.1 + q.2 < y.1 := hi.before hy q hq
      omega
    · have : y.1 + y.2 < q.1 := hi.behind hy q (List.mem_cons_of_mem _ hq)
      omega
  refine ⟨blocks', ⟨?_, fun q hq => ?_, ?_, hi.sorted.sublist hsub, fun q hq => ?_, fun q hq => ?_, fun a => ?_, hi.once,
    hi.above⟩, ?_⟩
  · have hcycle := hi.from hy
    have hnew : Cyclic (fun a => (Function.update h.mem y.1 { h.mem y.1 with ptr := (h.mem x.1).ptr } a).ptr)
        (y.1 :: ([] ++ (R.map Prod.fst ++ L.map Prod.fst))) := by
      have hold : Cyclic h.next (y.1 :: ([x.1] ++ (R.map Prod.fst ++ L.map Prod.fst))) := hcycle
      refine hold.splice ⟨?_, trivial⟩ fun a ha => ?_
      · show (Function.update h.mem y.1 _ y.1).ptr = _
        rw [Function.update_self, hy.headD]
        exact hi.next_eq hx
      · rw [← List.map_append] at ha
        obtain ⟨q, hq, rfl⟩ := List.mem_map.1 ha
        show (Function.update h.mem y.1 _ q.1).ptr = (h.mem q.1).ptr
        rw [Function.update_of_ne (hyR q (List.mem_append.1 hq).symm)]
    have hmap : base :: blocks'.map Prod.fst = L.map Prod.fst ++ y.1 :: R.map Prod.fst := by
      have := congrArg (List.map Prod.fst) heq
      rwa [List.map_cons, List.map_append, List.map_cons] at this
    rw [hmap]
    exact Cyclic.rotate (A := y.1 :: R.map Prod.fst) hnew
  · exact (hsize q.1).trans (hi.size q (hsub.subset hq))
  · show y.1 ∈ ((base, 0) :: blocks').map Prod.fst
    rw [heq]
    exact List.mem_map.2 ⟨y, List.mem_append.2 (Or.inr List.mem_cons_self), rfl⟩
  · have hq' := hsub.subset (List.mem_cons_of_mem _ hq)
    refine (List.mem_cons.1 hq').elim (fun hqb => ?_) (hi.pos q)
    have : base + 0 < q.1 := (List.pairwise_cons.1 (hi.sorted.sublist hsub)).1 q hq
    rw [hqb] at this
    exact absurd this (Nat.lt_irrefl _)
  · rw [hsize]
    rcases List.mem_cons.1 hq with rfl | hq
    · exact ⟨hi.size _ hx.mem, hpos⟩
    · exact hi.used q hq
  · have hcov := hi.cover a
    rw [← covers_base base blocks, hy.eq, covers_append, covers_cons, covers_cons] at hcov
    rw [← covers_base base blocks', heq, covers_append, covers_cons, covers_cons]
    show _ = covers h.chunks a
    omega
  · have := hsub.length_le
    simp only [List.length_cons] at this
    omega

/-- The end of a block is taken. -/
theorem Inv.taken_end (hi : Inv base h blocks live) (hy : At base blocks L y (x :: R)) (hpos : 0 < n) (hlt : n < x.2) :
    ∃ blocks', Inv base { h with
        mem := Function.update (Function.update h.mem x.1 { h.mem x.1 with size := x.2 - n }) (x.1 + (x.2 - n))
          { Function.update h.mem x.1 { h.mem x.1 with size := x.2 - n } (x.1 + (x.2 - n)) with size := n }, freep := y.1 }
      blocks' ((x.1 + (x.2 - n), n) :: live) ∧ blocks'.length ≤ blocks.length := by
  have hx : At base blocks (L ++ [y]) x R := ⟨by rw [hy.eq]; simp⟩
  have hxy : y.1 + y.2 < x.1 := hi.behind hy x List.mem_cons_self
  obtain ⟨blocks', heq⟩ := hy.exists_list ((x.1, x.2 - n) :: R)
  generalize hmem : Function.update (Function.update h.mem x.1 _) (x.1 + (x.2 - n)) _ = mem
  have hptr : ∀ a, (mem a).ptr = (h.mem a).ptr := by
    intro a
    rw [← hmem]
    simp only [Function.update_apply]
    split
    · rename_i ha
      rw [ha]
      split
      · rename_i hx
        exact absurd hx (by omega)
      · rfl
    · split
      · rename_i ha
        rw [ha]
      · rfl
  have hother : ∀ a, a ≠ x.1 → a ≠ x.1 + (x.2 - n) → (mem a).size = (h.mem a).size := fun a h₁ h₂ => by
    rw [← hmem, Function.update_of_ne h₂, Function.update_of_ne h₁]
  have hxsize : (mem x.1).size = x.2 - n := by
    rw [← hmem, Function.update_of_ne (by omega), Function.update_self]
  have hbsize : (mem (x.1 + (x.2 - n))).size = n := by
    rw [← hmem, Function.update_self]
  have hnode : ∀ q, q ∈ (base, 0) :: blocks' → q = (x.1, x.2 - n) ∨
      q ∈ (base, 0) :: blocks ∧ (q.1 + q.2 < x.1 ∨ x.1 + x.2 < q.1) := by
    intro q hq
    rw [heq] at hq
    rcases List.mem_append.1 hq with hq | hq
    · exact Or.inr ⟨by rw [hy.eq]; exact List.mem_append.2 (Or.inl hq), Or.inl (hi.before hx q (List.mem_append.2 (Or.inl hq)))⟩
    · rcases List.mem_cons.1 hq with rfl | hq
      · exact Or.inr ⟨hy.mem, Or.inl hxy⟩
      · rcases List.mem_cons.1 hq with rfl | hq
        · exact Or.inl rfl
        · refine Or.inr ⟨?_, Or.inr (hi.behind hx q hq)⟩
          rw [hy.eq]
          exact List.mem_append.2 (Or.inr (List.mem_cons_of_mem _ (List.mem_cons_of_mem _ hq)))
  have hxblock : x ∈ blocks := hy.mem_blocks hi List.mem_cons_self
  have hsorted : ((base, 0) :: blocks').Pairwise Before := by
    have hold := hi.sorted_at hx
    rw [heq, show L ++ y :: (x.1, x.2 - n) :: R = (L ++ [y]) ++ (x.1, x.2 - n) :: R by simp]
    obtain ⟨h₁, h₂, h₃⟩ := List.pairwise_append.1 hold
    obtain ⟨h₄, h₅⟩ := List.pairwise_cons.1 h₂
    refine List.pairwise_append.2 ⟨h₁, List.pairwise_cons.2 ⟨fun q hq => ?_, h₅⟩, fun q hq r hr => ?_⟩
    · have : x.1 + x.2 < q.1 := h₄ q hq
      show x.1 + (x.2 - n) < q.1
      omega
    · rcases List.mem_cons.1 hr with rfl | hr
      · exact h₃ q hq x List.mem_cons_self
      · exact h₃ q hq r (List.mem_cons_of_mem _ hr)
  refine ⟨blocks', ⟨?_, fun q hq => ?_, ?_, hsorted, fun q hq => ?_, fun q hq => ?_, fun a => ?_, hi.once, hi.above⟩, ?_⟩
  · have hmap : base :: blocks'.map Prod.fst = base :: blocks.map Prod.fst := by
      have h₁ := congrArg (List.map Prod.fst) heq
      have h₂ := congrArg (List.map Prod.fst) hy.eq
      simp only [List.map_cons, List.map_append] at h₁ h₂
      rw [h₁, h₂]
    have hnext : (fun a => (mem a).ptr) = h.next := funext hptr
    show Cyclic (fun a => (mem a).ptr) _
    rw [hnext, hmap]
    exact hi.cycle
  · show (mem q.1).size = q.2
    rcases hnode q hq with rfl | ⟨hq', hne⟩
    · exact hxsize
    · rw [hother q.1 (by omega) (by omega)]
      exact hi.size q hq'
  · show y.1 ∈ ((base, 0) :: blocks').map Prod.fst
    rw [heq]
    exact List.mem_map.2 ⟨y, List.mem_append.2 (Or.inr List.mem_cons_self), rfl⟩
  · rcases hnode q (List.mem_cons_of_mem _ hq) with rfl | ⟨hq', -⟩
    · show 0 < x.2 - n
      omega
    · refine (List.mem_cons.1 hq').elim (fun hqb => ?_) (hi.pos q)
      have : base + 0 < q.1 := (List.pairwise_cons.1 hsorted).1 q hq
      rw [hqb] at this
      exact absurd this (Nat.lt_irrefl _)
  · show (mem q.1).size = q.2 ∧ 0 < q.2
    rcases List.mem_cons.1 hq with rfl | hq
    · exact ⟨hbsize, hpos⟩
    · have := hi.apart hxblock hq
      have := (hi.used q hq).2
      rw [hother q.1 (by omega) (by omega)]
      exact hi.used q hq
  · have hcov := hi.cover a
    have hj := covers_join x.1 (x.2 - n) n R a
    rw [Nat.sub_add_cancel (Nat.le_of_lt hlt), covers_cons, covers_cons, covers_cons] at hj
    rw [← covers_base base blocks, hy.eq, covers_append, covers_cons, covers_cons] at hcov
    rw [← covers_base base blocks', heq, covers_append, covers_cons, covers_cons, covers_cons]
    show _ = covers h.chunks a
    change covers R a + _ + _ = covers R a + (if Inside a x then 1 else 0) at hj
    omega
  · have h₁ := congrArg List.length heq
    have h₂ := congrArg List.length hy.eq
    simp only [List.length_cons, List.length_append] at h₁ h₂
    omega

/-- **A block that is large enough** is taken. -/
theorem Inv.taken (hi : Inv base h blocks live) {t prevp : Nat} (ht : t ∈ base :: blocks.map Prod.fst)
    (hprev : prevp ∈ base :: blocks.map Prod.fst) (hnext : h.next prevp = t) (hpos : 0 < n) (hle : n ≤ (h.mem t).size) :
    ∃ b blocks', (take h n prevp t).2 = b + 1 ∧ Inv base (take h n prevp t).1 blocks' ((b, n) :: live) ∧
      blocks'.length ≤ blocks.length ∧ (take h n prevp t).1.chunks = h.chunks := by
  obtain ⟨L, x, R, hx, rfl⟩ := exists_at ht
  have hsize := hi.size x hx.mem
  rw [hsize] at hle
  have hL : L ≠ [] := by
    rintro rfl
    have := hx.eq
    rw [List.nil_append, List.cons.injEq] at this
    rw [← this.1] at hle
    dsimp only at hle
    omega
  obtain ⟨L', y, rfl⟩ : ∃ L' y, L = L' ++ [y] := ⟨_, _, (List.dropLast_append_getLast hL).symm⟩
  have hy : At base blocks L' y (x :: R) := ⟨by rw [hx.eq]; simp⟩
  obtain rfl := hi.pred_unique hy hprev hnext
  unfold take
  rw [hsize]
  by_cases heq : x.2 = n
  · obtain ⟨blocks', hinv, hlen⟩ := hi.taken_whole hy (by omega)
    rw [if_pos heq]
    refine ⟨x.1, blocks', rfl, ?_, hlen, rfl⟩
    rw [← heq]
    exact hinv
  · obtain ⟨blocks', hinv, hlen⟩ := hi.taken_end hy hpos (by omega)
    rw [if_neg heq]
    exact ⟨x.1 + (x.2 - n), blocks', rfl, hinv, hlen, rfl⟩

end Take

/-! ## The loop of `malloc` -/

section Loop

variable {base : Nat} {h : Heap} {blocks live : List Block} {nunits : UInt32} {answers : List (Option Nat)}

/-- The end of a round: `sbrk` is asked. -/
def atFreep (nunits : UInt32) (fuel : Nat) (answers : List (Option Nat)) (h : Heap) : Option (Heap × Nat) :=
  match answers with
  | [] => none
  | none :: _ => some (h, 0)
  | some hp :: answers =>
    (morecore fuel h nunits hp).bind fun h => mallocLoop nunits fuel answers h h.freep (h.mem h.freep).ptr

theorem mallocLoop_fit {a : Nat} (hfit : nunits.toNat ≤ (h.mem a).size) (prev k : Nat) :
    mallocLoop nunits (k + 1) answers h prev a = some (take h nunits.toNat prev a) := by
  rw [mallocLoop.eq_def]
  exact if_pos hfit

theorem mallocLoop_freep {a : Nat} (hfit : ¬nunits.toNat ≤ (h.mem a).size) (ha : a = h.freep) (prev k : Nat) :
    mallocLoop nunits (k + 1) answers h prev a = atFreep nunits k answers h := by
  rw [mallocLoop.eq_def]
  exact (if_neg hfit).trans (if_pos ha)

theorem mallocLoop_next {a : Nat} (hfit : ¬nunits.toNat ≤ (h.mem a).size) (ha : a ≠ h.freep) (prev k : Nat) :
    mallocLoop nunits (k + 1) answers h prev a = mallocLoop nunits k answers h a (h.mem a).ptr := by
  rw [mallocLoop.eq_def]
  exact (if_neg hfit).trans (if_neg ha)

/-- **A round** takes the first block that is large enough, or comes to `freep`. -/
theorem mallocLoop_walk {e : Nat} (nunits : UInt32) (answers : List (Option Nat)) (l : List Nat) :
    ∀ prev a, h.next prev = a → Leads h.next e (a :: l) →
    (∀ t ∈ (a :: l).dropLast, t ≠ h.freep) → (a :: l).getLast (List.cons_ne_nil _ _) = h.freep →
    (∃ t ∈ a :: l, ∃ prev' ∈ prev :: a :: l, h.next prev' = t ∧ nunits.toNat ≤ (h.mem t).size ∧
      ∀ k, mallocLoop nunits (l.length + 1 + k) answers h prev a = some (take h nunits.toNat prev' t)) ∨
    ((∀ t ∈ a :: l, ¬nunits.toNat ≤ (h.mem t).size) ∧
      ∀ k, mallocLoop nunits (l.length + 1 + k) answers h prev a = atFreep nunits k answers h) := by
  induction l with
  | nil =>
    intro prev a hprev _ _ hlast
    by_cases hfit : nunits.toNat ≤ (h.mem a).size
    · refine Or.inl ⟨a, List.mem_cons_self, prev, List.mem_cons_self, hprev, hfit, fun k => ?_⟩
      rw [Nat.add_comm]
      exact mallocLoop_fit hfit prev _
    · refine Or.inr ⟨fun t ht => by rw [List.mem_singleton.1 ht]; exact hfit, fun k => ?_⟩
      rw [List.length_nil, Nat.zero_add, Nat.add_comm]
      exact mallocLoop_freep hfit hlast prev k
  | cons b l ih =>
    intro prev a hprev hleads hbefore hlast
    have hlen : ∀ k, (b :: l).length + 1 + k = l.length + 1 + k + 1 := fun k => by
      rw [List.length_cons]
      omega
    by_cases hfit : nunits.toNat ≤ (h.mem a).size
    · refine Or.inl ⟨a, List.mem_cons_self, prev, List.mem_cons_self, hprev, hfit, fun k => ?_⟩
      rw [hlen]
      exact mallocLoop_fit hfit prev _
    · have ha : a ≠ h.freep := hbefore a List.mem_cons_self
      have hptr : (h.mem a).ptr = b := hleads.1
      have hstep : ∀ k, mallocLoop nunits ((b :: l).length + 1 + k) answers h prev a =
          mallocLoop nunits (l.length + 1 + k) answers h a b := fun k => by
        rw [hlen, mallocLoop_next hfit ha, hptr]
      rcases ih a b hptr hleads.2 (fun t ht => hbefore t (List.mem_cons_of_mem _ ht)) hlast with
        ⟨t, ht, prev', hprev', hnext, hle, hrun⟩ | ⟨hnone, hrun⟩
      · exact Or.inl ⟨t, List.mem_cons_of_mem _ ht, prev', List.mem_cons_of_mem _ hprev', hnext, hle, fun k => by rw [hstep, hrun]⟩
      · refine Or.inr ⟨fun t ht => ?_, fun k => by rw [hstep, hrun]⟩
        rcases List.mem_cons.1 ht with rfl | ht
        · exact hfit
        · exact hnone t ht

/-- A round from `freep` on. -/
theorem Inv.round (hi : Inv base h blocks live) (hpos : 0 < nunits.toNat) (answers : List (Option Nat)) :
    (∃ h' b blocks', Inv base h' blocks' ((b, nunits.toNat) :: live) ∧ blocks'.length ≤ blocks.length ∧ h'.chunks = h.chunks ∧
      ∀ k, mallocLoop nunits (blocks.length + 1 + k) answers h h.freep (h.mem h.freep).ptr = some (h', b + 1)) ∨
    ((∀ c ∈ blocks, c.2 < nunits.toNat) ∧
      ∀ k, mallocLoop nunits (blocks.length + 1 + k) answers h h.freep (h.mem h.freep).ptr = atFreep nunits k answers h) := by
  obtain ⟨A, f, B, hf, hfreep⟩ := exists_at hi.freep
  have hcycle := hi.from hf
  rw [hfreep] at hcycle
  generalize hM : B.map Prod.fst ++ A.map Prod.fst = M at hcycle
  have hmem : ∀ a, a ∈ M ++ [h.freep] ↔ a ∈ base :: blocks.map Prod.fst := by
    intro a
    show _ ↔ a ∈ ((base, 0) :: blocks).map Prod.fst
    rw [hf.eq, List.map_append, List.map_cons, ← hM, hfreep]
    simp only [List.mem_cons, List.mem_append, List.not_mem_nil, or_false]
    tauto
  have hlen : M.length = blocks.length := by
    have := congrArg List.length hf.eq
    rw [← hM]
    simp only [List.length_cons, List.length_append, List.length_map] at this ⊢
    omega
  have hnot : ∀ t ∈ M, t ≠ h.freep := by
    intro t ht
    rw [← hM, ← List.map_append] at ht
    obtain ⟨q, hq, rfl⟩ := List.mem_map.1 ht
    rw [← hfreep]
    rcases List.mem_append.1 hq with hq | hq
    · have : f.1 + f.2 < q.1 := hi.behind hf q hq
      omega
    · have : q.1 + q.2 < f.1 := hi.before hf q hq
      omega
  have hrot : Cyclic h.next (M ++ [h.freep]) := Cyclic.rotate (A := [h.freep]) hcycle
  -- the round begins behind `freep`
  obtain ⟨a, l, hal⟩ : ∃ a l, M ++ [h.freep] = a :: l := List.exists_cons_of_ne_nil (by simp)
  have hfirst : h.next h.freep = a := by
    have := hcycle.next_eq
    rw [this]
    cases M with
    | nil =>
      rw [List.nil_append, List.cons.injEq] at hal
      exact hal.1
    | cons b M =>
      rw [List.cons_append, List.cons.injEq] at hal
      exact hal.1
  have hl : l.length = blocks.length := by
    have := congrArg List.length hal
    simp only [List.length_append, List.length_cons, List.length_nil] at this
    omega
  have hdrop : (a :: l).dropLast = M := by
    rw [← hal]
    simp
  have hgetLast : (a :: l).getLast (List.cons_ne_nil _ _) = h.freep := by
    have : (M ++ [h.freep]).getLast (by simp) = h.freep := by simp
    simpa only [hal] using this
  rw [hal] at hrot
  have hwalk := mallocLoop_walk nunits answers l h.freep a hfirst hrot
    (fun t ht => hnot t (by rwa [hdrop] at ht)) hgetLast
  rw [hl] at hwalk
  have hptr : (h.mem h.freep).ptr = a := hfirst
  rw [hptr]
  rcases hwalk with ⟨t, ht, prev', hprev', hnext, hle, hrun⟩ | ⟨hnone, hrun⟩
  · have ht' : t ∈ base :: blocks.map Prod.fst := (hmem t).1 (hal ▸ ht)
    have hp' : prev' ∈ base :: blocks.map Prod.fst := by
      rcases List.mem_cons.1 hprev' with rfl | hp
      · exact hi.freep
      · exact (hmem prev').1 (hal ▸ hp)
    obtain ⟨b, blocks', hb, hinv, hlen', hchunks⟩ := hi.taken ht' hp' hnext hpos hle
    refine Or.inl ⟨(take h nunits.toNat prev' t).1, b, blocks', hinv, hlen', hchunks, fun k => ?_⟩
    rw [hrun, ← hb]
  · refine Or.inr ⟨fun c hc => ?_, hrun⟩
    have hcmem : c.1 ∈ base :: blocks.map Prod.fst := List.mem_cons_of_mem _ (List.mem_map_of_mem (f := Prod.fst) hc)
    have := hnone c.1 (hal ▸ (hmem c.1).2 hcmem)
    rw [hi.size c (List.mem_cons_of_mem _ hc)] at this
    omega

/-! ## `morecore` -/

/-- `sbrk` gives memory above everything. -/
def Fresh (base : Nat) (h : Heap) (hp : Nat) : Prop := base < hp ∧ ∀ c ∈ h.chunks, c.1 + c.2 ≤ hp

theorem Inv.inside (hi : Inv base h blocks live) {b : Block} (hb : b ∈ blocks ∨ b ∈ live) :
    ∃ c ∈ h.chunks, Inside b.1 c := by
  have hpos : 0 < covers blocks b.1 + covers live b.1 := by
    rcases hb with hb | hb
    · have := hi.pos b hb
      have := covers_pos hb (x := b.1) ⟨Nat.le_refl _, by omega⟩
      omega
    · have := (hi.used b hb).2
      have := covers_pos hb (x := b.1) ⟨Nat.le_refl _, by omega⟩
      omega
  rw [hi.cover] at hpos
  exact exists_of_covers hpos

/-- Fresh memory is a block in use. -/
theorem Inv.fresh (hi : Inv base h blocks live) {hp n : Nat} (hfresh : Fresh base h hp) (hn : 0 < n) :
    Inv base { h with mem := Function.update h.mem hp { h.mem hp with size := n }, chunks := (hp, n) :: h.chunks } blocks
      ((hp, n) :: live) := by
  have hptr : ∀ a, (Function.update h.mem hp { h.mem hp with size := n } a).ptr = (h.mem a).ptr := by
    intro a
    rw [Function.update_apply]
    split
    · rename_i ha
      rw [ha]
    · rfl
  have hbelow : ∀ b, b ∈ blocks ∨ b ∈ live → b.1 < hp := by
    intro b hb
    obtain ⟨c, hc, hin⟩ := hi.inside hb
    exact Nat.lt_of_lt_of_le hin.2 (hfresh.2 c hc)
  refine ⟨?_, fun q hq => ?_, hi.freep, hi.sorted, hi.pos, fun q hq => ?_, fun x => ?_, fun x => ?_, fun c hc => ?_⟩
  · have hnext : (fun a => (Function.update h.mem hp { h.mem hp with size := n } a).ptr) = h.next := funext hptr
    show Cyclic (fun a => (Function.update h.mem hp { h.mem hp with size := n } a).ptr) _
    rw [hnext]
    exact hi.cycle
  · have hne : q.1 ≠ hp := by
      rcases List.mem_cons.1 hq with rfl | hq
      · exact Nat.ne_of_lt hfresh.1
      · exact Nat.ne_of_lt (hbelow q (Or.inl hq))
    show (Function.update h.mem hp _ q.1).size = q.2
    rw [Function.update_of_ne hne]
    exact hi.size q hq
  · show (Function.update h.mem hp _ q.1).size = q.2 ∧ 0 < q.2
    rcases List.mem_cons.1 hq with rfl | hq
    · rw [Function.update_self]
      exact ⟨rfl, hn⟩
    · rw [Function.update_of_ne (Nat.ne_of_lt (hbelow q (Or.inr hq)))]
      exact hi.used q hq
  · have := hi.cover x
    rw [covers_cons, covers_cons]
    omega
  · rw [covers_cons]
    by_cases hx : Inside x (hp, n)
    · have hzero : covers h.chunks x = 0 := by
        by_contra hne
        obtain ⟨c, hc, hin⟩ := exists_of_covers (Nat.pos_of_ne_zero hne)
        exact absurd (Nat.lt_of_lt_of_le hin.2 (hfresh.2 c hc)) (Nat.not_lt.2 hx.1)
      have hone : (if Inside x (hp, n) then 1 else 0) = 1 := if_pos hx
      omega
    · rw [if_neg hx]
      exact hi.once x
  · rcases List.mem_cons.1 hc with rfl | hc
    · exact hfresh.1
    · exact hi.above c hc

theorem coreBytes_eq (h : nunits.toNat < 2 ^ 28) : (coreBytes nunits).toNat / 8 = (coreUnits nunits).toNat ∧
    nunits.toNat ≤ (coreUnits nunits).toNat ∧ 0 < (coreUnits nunits).toNat := by
  unfold coreBytes
  have hcore : (coreUnits nunits).toNat < 2 ^ 28 ∧ nunits.toNat ≤ (coreUnits nunits).toNat ∧ 0 < (coreUnits nunits).toNat := by
    unfold coreUnits
    split
    · rename_i hlt
      have : nunits.toNat < 4096 := UInt32.lt_iff_toNat_lt.1 hlt
      have h4096 : (4096 : UInt32).toNat = 4096 := rfl
      omega
    · rename_i hge
      have : 4096 ≤ nunits.toNat := UInt32.le_iff_toNat_le.1 (UInt32.not_lt.1 hge)
      omega
  obtain ⟨hlt, hle, hpos⟩ := hcore
  generalize coreUnits nunits = u at hlt hle hpos
  have hmul : (u * 8).toNat = u.toNat * 8 := by
    rw [UInt32.toNat_mul]
    exact Nat.mod_eq_of_lt (by show u.toNat * 8 < 2 ^ 32; omega)
  have hint : (u * 8).toInt32.toInt = u.toNat * 8 := by
    have := BitVec.toInt_eq_toNat_of_lt (x := (u * 8).toBitVec) (by show 2 * (u * 8).toNat < 2 ^ 32; omega)
    refine (show (u * 8).toInt32.toInt = (u * 8).toBitVec.toInt from rfl).trans (this.trans ?_)
    show ((u * 8).toNat : Int) = _
    rw [hmul]
    push_cast
    rfl
  rw [hint]
  exact ⟨by omega, hle, hpos⟩

/-- **`morecore`** ends, and a block of the list is large enough. -/
theorem Inv.morecore (hi : Inv base h blocks live) {hp : Nat} (hfresh : Fresh base h hp) (hn : nunits.toNat < 2 ^ 28) (k : Nat) :
    ∃ h' blocks', morecore (blocks.length + 1 + k) h nunits hp = some h' ∧ Inv base h' blocks' live ∧
      (∃ c ∈ blocks', nunits.toNat ≤ c.2) ∧ blocks'.length ≤ blocks.length + 1 := by
  obtain ⟨hbytes, hle, hpos⟩ := coreBytes_eq hn
  obtain ⟨h', blocks', hrun, hinv, ⟨c, hc, hlarge⟩, hlen, -⟩ := (hi.fresh hfresh hpos).freed k
  refine ⟨h', blocks', ?_, hinv, ⟨c, hc, Nat.le_trans hle hlarge⟩, hlen⟩
  unfold Umalloc.morecore
  rw [hbytes]
  exact hrun

/-- **The loop of `malloc`** ends with a block in use, or where `sbrk` fails. -/
theorem Inv.loop (hi : Inv base h blocks live) {nunits : UInt32} (hpos : 0 < nunits.toNat) {answer : Option Nat}
    (hanswer : ∀ hp, answer = some hp → nunits.toNat < 2 ^ 28 ∧ Fresh base h hp) (k : Nat) :
    ∃ h' r, mallocLoop nunits (blocks.length + 1 + (blocks.length + 2 + k)) [answer] h h.freep (h.mem h.freep).ptr = some (h', r) ∧
      ((r = 0 ∧ answer = none ∧ h' = h) ∨ ∃ b blocks', r = b + 1 ∧ Inv base h' blocks' ((b, nunits.toNat) :: live) ∧
        blocks'.length ≤ blocks.length + 1) := by
  rcases hi.round hpos [answer] with ⟨h', b, blocks', hinv, hlen, -, hrun⟩ | ⟨-, hrun⟩
  · exact ⟨h', b + 1, hrun _, Or.inr ⟨b, blocks', rfl, hinv, by omega⟩⟩
  · rw [hrun]
    cases answer with
    | none => exact ⟨h, 0, rfl, Or.inl ⟨rfl, rfl, rfl⟩⟩
    | some hp =>
      have hfuel : blocks.length + 2 + k = blocks.length + 1 + (k + 1) := by omega
      obtain ⟨hn, hfresh⟩ := hanswer hp rfl
      obtain ⟨h₁, blocks₁, hmore, hinv₁, ⟨c, hc, hlarge⟩, hlen₁⟩ := hi.morecore hfresh hn (k + 1)
      unfold atFreep
      dsimp only
      rw [hfuel, hmore, Option.bind_some]
      rcases hinv₁.round hpos [] with ⟨h', b, blocks', hinv, hlen, -, hrun₂⟩ | ⟨hsmall, -⟩
      · obtain ⟨d, hd⟩ : ∃ d, blocks.length + 1 + (k + 1) = blocks₁.length + 1 + d :=
          ⟨blocks.length + 1 + (k + 1) - (blocks₁.length + 1), by omega⟩
        rw [hd]
        exact ⟨h', b + 1, hrun₂ d, Or.inr ⟨b, blocks', rfl, hinv, by omega⟩⟩
      · exact absurd (hsmall c hc) (Nat.not_lt.2 hlarge)

end Loop

end NewXv6.Umalloc
