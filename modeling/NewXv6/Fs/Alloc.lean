import NewXv6.Fs.View
import NewXv6.Fs.Model
import NewXv6.Log.Run
import Mathlib.Data.Finset.Card
import Mathlib.Data.Finset.Range
import Mathlib.Data.Finset.Filter

/-!
# The block layer

What the code above the log relies on: `IoInv` holds between any two calls of the log layer, a `log_write` changes one
block of the view, `balloc` takes the first block that is not marked, `bfree` takes a mark away.
-/

namespace NewXv6

open Lib

/-! ## What is assumed and promised -/

/-- The contract of a run of file system code on disks laid out as `sb` says. `W` are the sectors the run may log. -/
structure Setting where
  C : Contract Stop Event
  sb : Superblock
  P : Policy
  W : Nat → Prop
  ok : sb.Ok
  strict : P.exact → P.strict
  fail : ∀ e, C.fail e
  bwrite : ∀ x data, C.ensure (.bwrite x data)
  beginOp : C.ensure .beginOp
  endOp : C.ensure .endOp
  logWrite : ∀ x, W x → C.ensure (.logWrite x)
  /-- `balloc` returns data blocks. -/
  balloc : ∀ v b, sb.InData b → C.ensure (.balloc v b)
  /-- If the log is not marked, `balloc` is not called when no data block is free. -/
  room : ∀ v b, C.assume (.balloc v b) → P.logMarked ∨ ∃ x, sb.InData x ∧ ¬Marked sb v x
  itrunc : ∀ v d, C.ensure (.itrunc v d)
  /-- Where nothing may leak, only inodes without index blocks are discarded. -/
  small : P.exact → ∀ v d, C.assume (.itrunc v d) → d.addrs (Fin.last NDIRECT) = 0

/-- What holds of the log layer between any two of its calls. -/
structure IoInv (sb : Superblock) (io : LogState) : Prop where
  start : io.log.start = sb.logStart
  size : io.log.size = sb.nlog
  quiet : io.log.committing = false
  home : ∀ x ∈ io.log.sector, x < sb.logStart
  le_logsize : io.log.sector.length ≤ LOGSIZE
  lt_size : io.log.sector.length < io.log.size
  dirty : ∀ x, io.bio.dirty x ≠ none → x ∈ io.log.sector

variable {E : Setting} {io : LogState}

theorem IoInv.record {sb : Superblock} (h : IoInv sb io) {x : Nat} {data : Block} (hx : x < sb.logStart)
    (hbig : ¬io.log.tooBig) : IoInv sb { log := io.log.record x, bio := io.bio.pin x data } := by
  have hdirty : ∀ y, (io.bio.pin x data).dirty y ≠ none → y = x ∨ y ∈ io.log.sector := by
    intro y hy
    by_cases hyx : y = x
    · exact Or.inl hyx
    · simp only [Bio.pin, Function.update_of_ne hyx] at hy
      exact Or.inr (h.dirty y hy)
  unfold Log.tooBig at hbig
  unfold Log.record
  split
  · refine ⟨h.start, h.size, h.quiet, h.home, h.le_logsize, h.lt_size, fun y hy => ?_⟩
    rcases hdirty y hy with rfl | hy
    · assumption
    · exact hy
  · refine ⟨h.start, h.size, h.quiet, ?_, ?_, ?_, fun y hy => ?_⟩
    · intro y hy
      rcases List.mem_append.1 hy with hy | hy
      · exact h.home y hy
      · rw [List.mem_singleton.1 hy]
        exact hx
    · show (io.log.sector ++ [x]).length ≤ LOGSIZE
      simp only [List.length_append, List.length_singleton]
      omega
    · show (io.log.sector ++ [x]).length < io.log.size
      simp only [List.length_append, List.length_singleton]
      omega
    · show y ∈ io.log.sector ++ [x]
      rcases hdirty y hy with rfl | hy <;> simp_all

/-! ## Rules -/

@[simp] theorem wp_bread {C : Contract Stop Event} (x : Nat) (Q : Block → LogState → Prop) :
    Wp C (bread x) Q io ↔ Q (io.view x) io := by
  simp [bread]

@[simp] theorem wp_readsb {C : Contract Stop Event} (Q : Superblock → LogState → Prop) :
    Wp C readsb Q io ↔ Q (io.view 1).superblock io := by
  simp [readsb]

/-- The log layer under the inode cache. -/
@[simp] theorem wp_liftM {C : Contract Stop Event} {α : Type} (m : Kern LogState α) (Q : α → FsState → Prop)
    (s : FsState) : Wp C (liftM m : Kern FsState α) Q s ↔ Wp C m (fun a io => Q a { s with io }) s.io :=
  wp_zoom _ _ m Q s

theorem wp_logWrite (h : IoInv E.sb io) {x : Nat} {data : Block} (hx : x < E.sb.logStart) (hW : E.W x)
    {Q : Unit → LogState → Prop}
    (hQ : ∀ io', IoInv E.sb io' → io'.view = Function.update io.view x data → Q () io') :
    Wp E.C (logWrite x data) Q io := by
  simp only [logWrite, wp_bind, wp_get, wp_ite, wp_panic, wp_modify, wp_emit]
  refine ⟨fun _ => E.fail _, fun hbig => ⟨fun _ => E.fail _, fun _ _ => ⟨E.logWrite x hW, ?_⟩⟩⟩
  exact hQ _ (h.record hx hbig) (Bio.view_pin _ _ _)

/-! ## Transactions -/

theorem IoInv.fits {sb : Superblock} (h : IoInv sb io) : io.log.Fits :=
  ⟨h.le_logsize, h.lt_size, fun x hx => Or.inl (by rw [h.start]; exact h.home x hx)⟩

theorem wp_beginOp (h : IoInv E.sb io) {Q : Unit → LogState → Prop}
    (hQ : ∀ io', IoInv E.sb io' → io'.view = io.view → Q () io') : Wp E.C beginOp Q io := by
  simp only [beginOp, wp_bind, wp_get, wp_ite, wp_throw, wp_modify, wp_emit]
  exact ⟨fun _ => E.fail _, fun _ => ⟨fun _ => E.fail _, fun _ _ => ⟨E.beginOp,
    hQ _ ⟨h.start, h.size, h.quiet, h.home, h.le_logsize, h.lt_size, h.dirty⟩ rfl⟩⟩⟩

/-- A commit keeps the blocks below the log, and leaves no dirty buffer. -/
theorem commit_below (hf : io.log.Fits) (hd : ∀ x, io.bio.dirty x ≠ none → x ∈ io.log.sector) :
    ∃ bio w, commit io = (.ok ((), { log := { io.log with sector := [] }, bio }), bwrites w) ∧
      (∀ x, x < io.log.start → bio.view x = io.view x) ∧ ∀ x, bio.dirty x = none := by
  by_cases hn : io.log.sector = []
  · refine ⟨io.bio, [], ?_, fun _ _ => rfl, fun x => ?_⟩
    · rw [commit_nil hn]
      obtain ⟨⟨start, size, outstanding, committing, sector⟩, bio⟩ := io
      subst hn
      rfl
    · by_contra hx
      have := hd x hx
      rw [hn] at this
      simp at this
  · refine ⟨_, _, commit_run hf hn, fun x hx => ?_, fun x => ?_⟩
    · rw [Bio.view_writeAll]
      exact store_commitWrites hf (Or.inl hx)
    · rw [Bio.dirty_writeAll]
      split
      · rfl
      · rename_i hx
        by_contra hdx
        exact hx (mem_commitWrites (hd x hdx))

theorem wp_endOp (h : IoInv E.sb io) {Q : Unit → LogState → Prop}
    (hQ : ∀ io', IoInv E.sb io' → (∀ x, x < E.sb.logStart → io'.view x = io.view x) → Q () io') :
    Wp E.C endOp Q io := by
  simp only [endOp, wp_bind, wp_get, wp_ite, wp_panic, wp_modify, wp_emit, wp_pure]
  refine fun _ => ⟨E.endOp, fun _ => E.fail _, fun _ => ⟨fun _ => ?_, fun _ => ?_⟩⟩
  · have hf := h.fits
    obtain ⟨bio, w, hrun, hbelow, hclean⟩ := @commit_below { io with
      log := { io.log with outstanding := io.log.outstanding - 1, committing := true } } ⟨hf.le_logsize, hf.lt_size, hf.out⟩ h.dirty
    refine wp_of_run hrun (fun x hx => ?_) ?_
    · obtain ⟨p, -, rfl⟩ := List.mem_map.1 hx
      exact E.bwrite _ _
    · refine hQ _ ⟨h.start, h.size, rfl, by simp, by simp, ?_, fun x hx => absurd (hclean x) hx⟩ fun x hx => ?_
      · exact Nat.lt_of_le_of_lt (Nat.zero_le _) h.lt_size
      · exact hbelow x (by rw [h.start]; exact hx)
  · exact hQ _ ⟨h.start, h.size, h.quiet, h.home, h.le_logsize, h.lt_size, h.dirty⟩ fun _ _ => rfl

/-! ## The bitmap -/

section Bitmap

variable {sb : Superblock} {v v' : Nat → Block}

theorem bblock_inj {b x : Nat} (h : BBLOCK x sb.ninodes = BBLOCK b sb.ninodes) (hm : x % BPB = b % BPB) : x = b := by
  unfold BBLOCK at h
  rw [← Nat.div_add_mod x BPB, ← Nat.div_add_mod b BPB, hm, show x / BPB = b / BPB by omega]

instance (b : Nat) : Decidable (Marked sb v b) := by unfold Marked; infer_instance

/-- A mark is set. -/
theorem marked_setBit {b : Nat} (hv : v' (BBLOCK b sb.ninodes) = (v (BBLOCK b sb.ninodes)).setBit (b % BPB))
    {x : Nat} (hx : BBLOCK x sb.ninodes ≠ BBLOCK b sb.ninodes → v' (BBLOCK x sb.ninodes) = v (BBLOCK x sb.ninodes)) :
    Marked sb v' x ↔ Marked sb v x ∨ x = b := by
  have hlt : b % BPB < BPB := Nat.mod_lt _ (by decide)
  unfold Marked
  by_cases hxb : BBLOCK x sb.ninodes = BBLOCK b sb.ninodes
  · rw [hxb, hv, Block.bit_setBit _ _ hlt, Bool.or_eq_true, decide_eq_true_iff, or_comm]
    exact or_congr_right ⟨fun h => bblock_inj hxb h, fun h => by rw [h]⟩
  · rw [hx hxb]
    constructor
    · exact Or.inl
    · rintro (h | rfl)
      · exact h
      · exact absurd rfl hxb

/-- A mark is cleared. -/
theorem marked_clearBit {b : Nat} (hv : v' (BBLOCK b sb.ninodes) = (v (BBLOCK b sb.ninodes)).clearBit (b % BPB))
    {x : Nat} (hx : BBLOCK x sb.ninodes ≠ BBLOCK b sb.ninodes → v' (BBLOCK x sb.ninodes) = v (BBLOCK x sb.ninodes)) :
    Marked sb v' x ↔ Marked sb v x ∧ x ≠ b := by
  have hlt : b % BPB < BPB := Nat.mod_lt _ (by decide)
  unfold Marked
  by_cases hxb : BBLOCK x sb.ninodes = BBLOCK b sb.ninodes
  · rw [hxb, hv, Block.bit_clearBit _ _ hlt, Bool.and_eq_true, Bool.not_eq_true', decide_eq_false_iff_not, and_comm]
    exact and_congr_right fun _ => not_congr ⟨fun h => bblock_inj hxb h, fun h => by rw [h]⟩
  · rw [hx hxb]
    constructor
    · rintro h
      exact ⟨h, by rintro rfl; exact hxb rfl⟩
    · exact And.left

/-- The number of blocks below `b` that are not marked. -/
def freeBelow (sb : Superblock) (v : Nat → Block) (b : Nat) : Nat := ((Finset.range b).filter fun x => ¬Marked sb v x).card

/-- Block `b` is among the next `k` blocks `balloc` takes. -/
def Next (sb : Superblock) (v : Nat → Block) (k b : Nat) : Prop :=
  b < sb.size ∧ ¬Marked sb v b ∧ freeBelow sb v b < k

theorem next_one {b : Nat} (hb : b < sb.size) (hfree : ¬Marked sb v b) (hall : ∀ x, x < b → Marked sb v x) :
    Next sb v 1 b := by
  refine ⟨hb, hfree, ?_⟩
  unfold freeBelow
  rw [Finset.card_eq_zero.2]
  · omega
  · ext x
    simpa using hall x

theorem next_mono {k l b : Nat} (h : Next sb v k b) (hkl : k ≤ l) : Next sb v l b :=
  ⟨h.1, h.2.1, Nat.lt_of_lt_of_le h.2.2 hkl⟩

theorem next_congr (hv : ∀ x, x < sb.size → (Marked sb v' x ↔ Marked sb v x)) {k b : Nat} :
    Next sb v' k b ↔ Next sb v k b := by
  refine and_congr_right fun hb => ?_
  have : freeBelow sb v' b = freeBelow sb v b := by
    unfold freeBelow
    congr 1
    refine Finset.filter_congr fun x hx => ?_
    rw [hv x (by have := Finset.mem_range.1 hx; omega)]
  rw [hv b hb, this]

/-- With a block taken, the next `k` are among the next `k + 1` of before. -/
theorem next_succ {b k : Nat} (hv : ∀ x, x < sb.size → (Marked sb v' x ↔ Marked sb v x ∨ x = b)) {x : Nat}
    (h : Next sb v' k x) : Next sb v (k + 1) x := by
  obtain ⟨hx, hxf, hk⟩ := h
  have hx' : ¬Marked sb v x ∧ x ≠ b := by simpa [hv x hx, not_or] using hxf
  refine ⟨hx, hx'.1, ?_⟩
  have hsub : (Finset.range x).filter (fun y => ¬Marked sb v y) ⊆
      insert b ((Finset.range x).filter fun y => ¬Marked sb v' y) := by
    intro y hy
    simp only [Finset.mem_filter, Finset.mem_range, Finset.mem_insert] at hy ⊢
    by_cases hyb : y = b
    · exact Or.inl hyb
    · exact Or.inr ⟨hy.1, by simpa [hv y (by omega), hyb] using hy.2⟩
  have := (Finset.card_le_card hsub).trans (Finset.card_insert_le _ _)
  unfold freeBelow at hk ⊢
  omega

end Bitmap

/-! ## `balloc` and `bfree` -/

/-- The blocks after `balloc` returned `b`. -/
def allocView (sb : Superblock) (v : Nat → Block) (b : Nat) : Nat → Block :=
  Function.update (Function.update v (BBLOCK b sb.ninodes) ((v (BBLOCK b sb.ninodes)).setBit (b % BPB))) b Block.zero

section Alloc

variable {sb : Superblock} {v : Nat → Block}

theorem allocView_self (b : Nat) : allocView sb v b b = Block.zero := Function.update_self _ _ _

theorem allocView_of_ne {b x : Nat} (hb : x ≠ b) (hx : x ≠ BBLOCK b sb.ninodes) : allocView sb v b x = v x := by
  unfold allocView
  rw [Function.update_of_ne hb, Function.update_of_ne hx]

/-- After `balloc` its block is marked too. -/
theorem marked_allocView (hok : sb.Ok) {b : Nat} (hb : sb.InData b) {x : Nat} (hx : x < sb.size) :
    Marked sb (allocView sb v b) x ↔ Marked sb v x ∨ x = b := by
  have hbit := hok.bblock (hok.data_lt hb)
  have hxbit := hok.bblock hx
  have := hb.1
  apply marked_setBit
  · unfold allocView
    rw [Function.update_of_ne (by omega), Function.update_self]
  · intro hne
    exact allocView_of_ne (by omega) hne

end Alloc

theorem wp_ballocFrom (h : IoInv E.sb io) (hres : ∀ b, b < E.sb.size → E.P.Reserved E.sb b → Marked E.sb io.view b)
    {Q : UInt32 → LogState → Prop}
    (hW : ∀ b, Next E.sb io.view 1 b → E.W b ∧ E.W (BBLOCK b E.sb.ninodes))
    (hQ : ∀ b io', E.sb.InData b → ¬Marked E.sb io.view b → (∀ x, x < b → Marked E.sb io.view x) → IoInv E.sb io' →
      io'.view = allocView E.sb io.view b → Q (UInt32.ofNat b) io') (n : Nat) :
    ∀ g, (∀ x, x < g * BPB → x < E.sb.size → Marked E.sb io.view x) →
      Wp E.C (ballocFrom E.sb ((List.range' g n).map (· * BPB))) Q io := by
  induction n with
  | zero =>
    intro g _
    rw [List.range'_zero, List.map_nil, ballocFrom, wp_panic]
    exact E.fail _
  | succ n ih =>
    intro g hbelow
    rw [List.range'_succ, List.map_cons, ballocFrom, wp_bind, wp_bread]
    have hbb : ∀ bi, bi < BPB → BBLOCK (g * BPB) E.sb.ninodes = BBLOCK (g * BPB + bi) E.sb.ninodes ∧
        (g * BPB + bi) % BPB = bi := by
      intro bi hbi
      unfold BBLOCK
      rw [Nat.add_comm (g * BPB) bi, Nat.add_mul_div_right _ _ (by decide), Nat.mul_div_cancel _ (by decide),
        Nat.div_eq_of_lt hbi, Nat.add_mul_mod_self_right, Nat.mod_eq_of_lt hbi, Nat.zero_add]
      exact ⟨rfl, rfl⟩
    generalize hfind : findFree _ _ _ = r
    unfold findFree at hfind
    cases r with
    | none =>
      refine ih (g + 1) fun x hx hxs => ?_
      by_cases hxg : x < g * BPB
      · exact hbelow x hxg hxs
      · obtain ⟨i, rfl⟩ : ∃ i, x = g * BPB + i := ⟨x - g * BPB, by omega⟩
        have hi : i < BPB := by
          rw [Nat.add_mul] at hx
          omega
        obtain ⟨hblk', hmod'⟩ := hbb i hi
        have := List.find?_eq_none.1 hfind i (List.mem_range.2 hi)
        unfold Marked
        rw [← hblk', hmod']
        simpa [hxs] using this
    | some bi =>
      rw [List.find?_range_eq_some] at hfind
      obtain ⟨hp, hbi, hbefore⟩ := hfind
      simp only [List.mem_range, Bool.and_eq_true, decide_eq_true_eq, Bool.not_eq_true'] at hp hbi hbefore
      obtain ⟨hlt, hclear⟩ := hp
      obtain ⟨hblk, hmod⟩ := hbb bi hbi
      have hfree : ¬Marked E.sb io.view (g * BPB + bi) := by
        unfold Marked
        rw [← hblk, hmod, hclear]
        simp
      have hall : ∀ x, x < g * BPB + bi → Marked E.sb io.view x := by
        intro x hx
        by_cases hxg : x < g * BPB
        · exact hbelow x hxg (by omega)
        · obtain ⟨i, rfl⟩ : ∃ i, x = g * BPB + i := ⟨x - g * BPB, by omega⟩
          have := hbefore i (by omega)
          obtain ⟨hblk', hmod'⟩ := hbb i (by omega)
          unfold Marked
          rw [← hblk', hmod']
          simpa [show g * BPB + i < E.sb.size by omega] using this
      obtain ⟨hWb, hWm⟩ := hW _ (next_one hlt hfree hall)
      simp only [wp_bind, wp_get, wp_emit, wp_pure, bzero]
      intro hassume
      -- the free block found is the first one, so it is below any free data block
      have hdata : E.sb.InData (g * BPB + bi) := by
        refine ⟨?_, ?_⟩
        · by_contra hlow
          exact hfree (hres _ hlt (Or.inl (by omega)))
        · rcases E.room _ _ hassume with hm | ⟨x, hx, hxfree⟩
          · by_contra hhigh
            exact hfree (hres _ hlt (Or.inr ⟨hm, by omega⟩))
          · by_contra hhigh
            exact hxfree (hall x (by have := hx.2; omega))
      refine ⟨E.balloc _ _ hdata, ?_⟩
      have hlog := (E.ok.bblock hlt).2
      have hle := E.ok.data_le
      refine wp_logWrite h (by rw [hblk]; omega) (by rw [hblk]; exact hWm) fun io₁ h₁ hv₁ => ?_
      refine wp_logWrite h₁ hdata.2 hWb fun io₂ h₂ hv₂ => ?_
      refine hQ _ io₂ hdata hfree hall h₂ ?_
      rw [hv₂, hv₁, allocView, hblk, hmod]

/-- **`balloc`** takes the first free block, which is a data block. -/
theorem wp_balloc (h : IoInv E.sb io) (hsb : (io.view 1).superblock = E.sb)
    (hres : ∀ b, b < E.sb.size → E.P.Reserved E.sb b → Marked E.sb io.view b) {Q : UInt32 → LogState → Prop}
    (hW : ∀ b, Next E.sb io.view 1 b → E.W b ∧ E.W (BBLOCK b E.sb.ninodes))
    (hQ : ∀ b io', E.sb.InData b → ¬Marked E.sb io.view b → (∀ x, x < b → Marked E.sb io.view x) → IoInv E.sb io' →
      io'.view = allocView E.sb io.view b → Q (UInt32.ofNat b) io') : Wp E.C balloc Q io := by
  rw [balloc, wp_bind, wp_readsb, hsb, List.range_eq_range']
  exact wp_ballocFrom h hres hW hQ _ 0 fun x hx => by omega

/-- **`bfree`** clears a mark. -/
theorem wp_bfree (h : IoInv E.sb io) (hsb : (io.view 1).superblock = E.sb) {b : UInt32} (hb : E.sb.InData b.toNat)
    (hW : E.W (BBLOCK b.toNat E.sb.ninodes)) {Q : Unit → LogState → Prop}
    (hQ : ∀ io', IoInv E.sb io' → io'.view = Function.update io.view (BBLOCK b.toNat E.sb.ninodes)
      ((io.view (BBLOCK b.toNat E.sb.ninodes)).clearBit (b.toNat % BPB)) → Q () io') : Wp E.C (bfree b) Q io := by
  have hlog := (E.ok.bblock (E.ok.data_lt hb)).2
  have hle := E.ok.data_le
  simp only [bfree, wp_bind, wp_readsb, wp_bread, wp_ite, wp_panic, hsb]
  exact ⟨fun _ => wp_logWrite h (by omega) hW fun io' h' hv => hQ io' h' hv, fun _ => E.fail _⟩

end NewXv6
