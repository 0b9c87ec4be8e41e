import NewXv6.Fs.Content
import NewXv6.Lib.Total

/-!
# Reads after writes

`writei` in a transaction can only stop because the log is full, and does not stop if the blocks it logs fit there: the
contracts of the other modules say nothing of failures, so the functions on the way are followed once more for theirs alone.
-/

namespace NewXv6

open Lib

/-! ## The setting -/

/-- The setting of runs that log only the sectors `V`. -/
def Setting.within (sb : Superblock) (P : Policy) (ok : sb.Ok) (strict : P.exact → P.strict) (V : Finset Nat) : Setting where
  C := {
    assume := fun
      | .balloc v _ => ∃ x, sb.InData x ∧ ¬Marked sb v x
      | .itrunc _ d => P.exact → d.addrs (Fin.last NDIRECT) = 0
      | _ => True
    ensure := fun _ => True
    fail := fun _ => True }
  sb := sb
  P := P
  W := fun x => x ∈ V
  ok := ok
  strict := strict
  fail := fun _ => trivial
  bwrite := fun _ _ => trivial
  beginOp := trivial
  endOp := trivial
  logWrite := fun _ _ => trivial
  balloc := fun _ _ _ => trivial
  room := fun _ _ h => .inr h
  itrunc := fun _ _ => trivial
  small := fun he _ _ ha => ha he

/-- A run may log the sectors `V`, and may call `balloc` where a data block is free. -/
structure Setting.Logs (E : Setting) (V : Finset Nat) : Prop where
  mem : ∀ x, E.W x → x ∈ V
  logWrite : ∀ x, E.C.assume (.logWrite x)
  balloc : ∀ v b, (∃ x, E.sb.InData x ∧ ¬Marked E.sb v x) → E.C.assume (.balloc v b)

theorem Setting.logs_within {sb : Superblock} {P : Policy} {ok : sb.Ok} {strict : P.exact → P.strict} {V : Finset Nat} :
    (Setting.within sb P ok strict V).Logs V :=
  ⟨fun _ => id, fun _ => trivial, fun _ _ => id⟩

/-- In a transaction whose log holds the sectors `B` at least and sectors of `V` only. If `log_write` must not find the log
full, `V` fits. -/
structure Ready (V : Finset Nat) (B : Set Nat) (F : Stop → Prop) (io : LogState) : Prop where
  outstanding : 1 ≤ io.log.outstanding
  sector : ∀ x ∈ io.log.sector, x ∈ V
  logged : ∀ x ∈ B, x ∈ io.log.sector
  nodup : io.log.sector.Nodup
  fits : F (.panic .tooBigATransaction) ∨ V.card < LOGSIZE ∧ V.card + 1 < io.log.size

/-- The data blocks that are free. -/
def freeData (sb : Superblock) (v : Nat → Block) : Finset Nat :=
  (Finset.range sb.logStart).filter fun b => sb.dataStart ≤ b ∧ ¬Marked sb v b

/-- There is a free block for each of the positions `L` of inode `n` that has none. -/
def Enough (E : Setting) (s : FsState) (n : Nat) (L : Finset Pos) : Prop :=
  (L.filter fun p => (s.files E.sb).addr n p = 0).card ≤ (freeData E.sb s.view).card

section Only

variable {E : Setting} {V : Finset Nat} {B : Set Nat} {F : Stop → Prop} {a : Ahead} {m : Slot → Nat} {s t u : FsState}
  {io : LogState} {ip : Slot}

theorem mem_freeData {v : Nat → Block} {b : Nat} : b ∈ freeData E.sb v ↔ E.sb.InData b ∧ ¬Marked E.sb v b := by
  unfold freeData Superblock.InData
  rw [Finset.mem_filter, Finset.mem_range]
  tauto

theorem Ready.mono {B' : Set Nat} (h : Ready V B F io) (hB : ∀ x ∈ B', x ∈ io.log.sector) : Ready V B' F io :=
  ⟨h.outstanding, h.sector, hB, h.nodup, h.fits⟩

/-- The log before a `log_write` that must not fail has room. -/
theorem Ready.tooBig (h : Ready V B F io) (hbig : io.log.tooBig) : F (.panic .tooBigATransaction) := by
  rcases h.fits with hF | ⟨hlogsize, hsize⟩
  · exact hF
  · have hlen : io.log.sector.length ≤ V.card := by
      rw [← List.toFinset_card_of_nodup h.nodup]
      exact Finset.card_le_card fun x hx => h.sector x (List.mem_toFinset.1 hx)
    unfold Log.tooBig at hbig
    omega

theorem logWrite_only (hE : E.Logs V) (h : Ready V B F io) {x : Nat} (data : Block) (hx : E.W x) :
    Wp (E.C.only F) (logWrite x data)
      (fun _ io' => Ready V (insert x B) F io') io := by
  simp only [logWrite, wp_bind, wp_get, wp_ite, wp_panic, wp_modify, wp_emit]
  refine ⟨fun hbig => h.tooBig hbig, fun _ => ⟨fun hout => absurd h.outstanding (by omega), fun _ _ => ⟨hE.logWrite x, ?_⟩⟩⟩
  unfold Log.record
  split
  · next hmem =>
    refine ⟨h.outstanding, h.sector, ?_, h.nodup, h.fits⟩
    rintro y (rfl | hy)
    · exact hmem
    · exact h.logged y hy
  · next hmem =>
    refine ⟨h.outstanding, fun y hy => ?_, ?_, ?_, h.fits⟩
    · rcases List.mem_append.1 hy with hy | hy
      · exact h.sector y hy
      · rw [List.mem_singleton.1 hy]
        exact hE.mem x hx
    · rintro y (rfl | hy)
      · exact List.mem_append.2 (.inr (List.mem_singleton.2 rfl))
      · exact List.mem_append.2 (.inl (h.logged y hy))
    · refine List.nodup_append.2 ⟨h.nodup, List.nodup_singleton _, fun y hy z hz hyz => hmem ?_⟩
      rwa [← List.mem_singleton.1 hz, ← hyz]

/-- `balloc` with a free data block. -/
theorem ballocFrom_only (hE : E.Logs V) (h : Ready V B F io) (hW : ∀ b, Next E.sb io.view 1 b → E.W b ∧ E.W (BBLOCK b E.sb.ninodes))
    (hdata : ∃ x, E.sb.InData x ∧ ¬Marked E.sb io.view x) (n : Nat) :
    ∀ g, (∀ x, x < g * BPB → x < E.sb.size → Marked E.sb io.view x) →
      (∃ x, x < (g + n) * BPB ∧ x < E.sb.size ∧ ¬Marked E.sb io.view x) →
      Wp (E.C.only F) (ballocFrom E.sb ((List.range' g n).map (· * BPB)))
        (fun _ io' => Ready V B F io') io := by
  induction n with
  | zero =>
    rintro g hbelow ⟨x, hx, hlt, hfree⟩
    exact absurd (hbelow x hx hlt) hfree
  | succ n ih =>
    intro g hbelow hex
    rw [List.range'_succ, List.map_cons, ballocFrom, wp_bind, wp_bread]
    have hbb : ∀ bi, bi < BPB → BBLOCK (g * BPB) E.sb.ninodes = BBLOCK (g * BPB + bi) E.sb.ninodes ∧
        (g * BPB + bi) % BPB = bi := by
      intro bi hbi
      unfold BBLOCK
      rw [Nat.add_comm (g * BPB) bi, Nat.add_mul_div_right _ _ (by decide), Nat.mul_div_cancel _ (by decide),
        Nat.div_eq_of_lt hbi, Nat.add_mul_mod_self_right, Nat.mod_eq_of_lt hbi, Nat.zero_add]
      exact ⟨rfl, rfl⟩
    generalize hfind : findFree _ _ _ = r
    unfold findFree at hfind
    cases r with
    | none =>
      refine ih (g + 1) (fun x hx hxs => ?_) (by rwa [Nat.add_right_comm])
      by_cases hxg : x < g * BPB
      · exact hbelow x hxg hxs
      · obtain ⟨i, rfl⟩ : ∃ i, x = g * BPB + i := ⟨x - g * BPB, by omega⟩
        have hi : i < BPB := by
          rw [Nat.add_mul] at hx
          omega
        obtain ⟨hblk, hmod⟩ := hbb i hi
        have := List.find?_eq_none.1 hfind i (List.mem_range.2 hi)
        unfold Marked
        rw [← hblk, hmod]
        simpa [hxs] using this
    | some bi =>
      rw [List.find?_range_eq_some] at hfind
      obtain ⟨hp, hbi, hbefore⟩ := hfind
      simp only [List.mem_range, Bool.and_eq_true, decide_eq_true_eq, Bool.not_eq_true'] at hp hbi hbefore
      obtain ⟨hlt, hclear⟩ := hp
      obtain ⟨hblk, hmod⟩ := hbb bi hbi
      have hfree : ¬Marked E.sb io.view (g * BPB + bi) := by
        unfold Marked
        rw [← hblk, hmod, hclear]
        simp
      have hall : ∀ x, x < g * BPB + bi → Marked E.sb io.view x := by
        intro x hx
        by_cases hxg : x < g * BPB
        · exact hbelow x hxg (by omega)
        · obtain ⟨i, rfl⟩ : ∃ i, x = g * BPB + i := ⟨x - g * BPB, by omega⟩
          have := hbefore i (by omega)
          obtain ⟨hblk', hmod'⟩ := hbb i (by omega)
          unfold Marked
          rw [← hblk', hmod']
          simpa [show g * BPB + i < E.sb.size by omega] using this
      obtain ⟨hWb, hWm⟩ := hW _ (next_one hlt hfree hall)
      simp only [wp_bind, wp_get, wp_emit, wp_pure, bzero]
      refine fun _ => ⟨hE.balloc _ _ hdata, ?_⟩
      refine (logWrite_only hE h _ (by rw [hblk]; exact hWm)).mono fun _ io₁ h₁ => ?_
      exact (logWrite_only hE h₁ _ hWb).mono fun _ io₂ h₂ => h₂.mono fun x hx => h₂.logged x (.inr (.inr hx))

theorem balloc_only (hE : E.Logs V) (h : Ready V B F io) (hsb : (io.view 1).superblock = E.sb)
    (hW : ∀ b, Next E.sb io.view 1 b → E.W b ∧ E.W (BBLOCK b E.sb.ninodes)) (hdata : ∃ x, E.sb.InData x ∧ ¬Marked E.sb io.view x) :
    Wp (E.C.only F) balloc (fun _ io' => Ready V B F io') io := by
  rw [balloc, wp_bind, wp_readsb, hsb, List.range_eq_range']
  refine ballocFrom_only hE h hW hdata _ 0 (fun x hx => by omega) ?_
  obtain ⟨x, hx, hfree⟩ := hdata
  have hlt := E.ok.data_lt hx
  refine ⟨x, ?_, hlt, hfree⟩
  have := Nat.lt_div_mul_add (a := E.sb.size + (BPB - 1)) (b := BPB) (by decide)
  simp only [BPB, BSIZE] at *
  omega

/-! ## The block map -/

/-- A position that has no block gets one. -/
theorem Enough.exists {n : Nat} {L : Finset Pos} (h : Enough E s n L) {p : Pos} (hp : p ∈ L)
    (hz : (s.files E.sb).addr n p = 0) : ∃ x, E.sb.InData x ∧ ¬Marked E.sb s.view x := by
  have hpos : 0 < (freeData E.sb s.view).card :=
    Nat.lt_of_lt_of_le (Finset.card_pos.2 ⟨p, Finset.mem_filter.2 ⟨hp, hz⟩⟩) h
  obtain ⟨x, hx⟩ := Finset.card_pos.1 hpos
  exact ⟨x, mem_freeData.1 hx⟩

theorem Linked.enough {L : Finset Pos} {p : Pos} {b : Nat} (h : Linked E m ip p b s t) (hp : p ∈ L)
    (he : Enough E s (s.icache ip).inum L) : Enough E t (s.icache ip).inum L := by
  have hcard : (L.filter fun q => (t.files E.sb).addr (s.icache ip).inum q = 0).card + 1 =
      (L.filter fun q => (s.files E.sb).addr (s.icache ip).inum q = 0).card := by
    have : L.filter (fun q => (t.files E.sb).addr (s.icache ip).inum q = 0) =
        (L.filter fun q => (s.files E.sb).addr (s.icache ip).inum q = 0).erase p := by
      ext q
      simp only [Finset.mem_filter, Finset.mem_erase, h.addr, true_and]
      have := E.ok.data_ne h.data
      by_cases hq : q = p
      · simp [hq, this]
      · simp [hq]
    rw [this, Finset.card_erase_add_one]
    simp [hp, h.none]
  have hfree : (freeData E.sb t.view).card + 1 = (freeData E.sb s.view).card := by
    have : freeData E.sb t.view = (freeData E.sb s.view).erase b := by
      ext x
      rw [Finset.mem_erase, mem_freeData, mem_freeData]
      by_cases hx : E.sb.InData x
      · rw [h.marked x (E.ok.data_lt hx)]
        tauto
      · tauto
    rw [this, Finset.card_erase_add_one]
    exact mem_freeData.2 ⟨h.data, h.next.2.1⟩
  unfold Enough at *
  omega

theorem LinkedOr.enough {L : Finset Pos} {p : Pos} {x : UInt32} (h : LinkedOr E m ip p x s t) (hp : p ∈ L)
    (he : Enough E s (s.icache ip).inum L) : Enough E t (s.icache ip).inum L := by
  rcases h with ⟨-, rfl, -⟩ | h
  · exact he
  · exact h.enough hp he

/-- What the steps of `bmap` need: room in the log, and blocks for the positions `L`. -/
structure Supplied (E : Setting) (V : Finset Nat) (B : Set Nat) (F : Stop → Prop) (s : FsState) (n : Nat) (L : Finset Pos) :
    Prop where
  ready : Ready V B F s.io
  room : Room E s n L
  enough : Enough E s n L

theorem inodeAddr_only (hE : E.Logs V) (h : Inv E (.addrs ip) m s) (hm : 0 < m ip)
    (hv : (s.icache ip).valid = true) {j : Fin (NDIRECT + 1)} {L : Finset Pos} (hL : (j, []) ∈ L)
    (hs : Supplied E V B F s (s.icache ip).inum L) :
    Wp (E.C.only F) (inodeAddr ip j) (fun addr t => Ready V B F t.io ∧
      LinkedOr E m ip (j, []) addr s t) s := by
  have hroot := h.addr_root hm hv j
  refine Wp.only ?_ (wp_inodeAddr h hm hv (fun hz b hb => hs.room.next hL hz hb) fun addr t ht => ht)
  rw [inodeAddr, wp_bind, inode_wp, wp_ite]
  refine ⟨fun hz => ?_, fun _ => ?_⟩
  · have hz₀ : (s.files E.sb).addr (s.icache ip).inum (j, []) = 0 := hroot.trans (by rw [hz]; rfl)
    rw [wp_bind, wp_liftM]
    refine (balloc_only hE hs.ready h.super (fun b hb => hs.room.next hL hz₀ hb) (hs.enough.exists hL hz₀)).mono
      fun b io hio => ?_
    rw [wp_bind, setDinode_wp, wp_pure]
    exact hio
  · rw [wp_pure]
    exact hs.ready

theorem indexAddr_only (hE : E.Logs V) (h : Inv E (.addrs ip) m s) (hm : 0 < m ip) (hv : (s.icache ip).valid = true)
    {j : Fin (NDIRECT + 1)} {ks : List Nat} {k : Nat} {addr : UInt32} (hks : ks.length < depth j)
    (hx : addr.toNat = (s.files E.sb).addr (s.icache ip).inum (j, ks)) (hne : addr.toNat ≠ 0) (hk : k < NINDIRECT)
    {L : Finset Pos} (hL : (j, ks ++ [k]) ∈ L) (hs : Supplied E V B F s (s.icache ip).inum L) :
    Wp (E.C.only F) (indexAddr addr k) (fun addr' t => Ready V B F t.io ∧ LinkedOr E m ip (j, ks ++ [k]) addr' s t) s := by
  have hindex : (s.files E.sb).addr (s.icache ip).inum (j, ks ++ [k]) = 0 → E.W addr.toNat := fun hz => by
    rw [hx]
    exact hs.room.index j ks k hL (by rw [← hx]; exact hne) hz
  have hchild := h.addr_snoc hm hv k hks (by rw [← hx]; exact hne)
  rw [← hx] at hchild
  refine Wp.only ?_ (wp_indexAddr h hm hv hks hx hne hk (fun hz => ⟨hindex hz, fun b hb => hs.room.next hL hz hb⟩)
    fun addr' t ht => ht)
  rw [indexAddr, wp_bind, bread_wp, wp_ite]
  refine ⟨fun hz => ?_, fun _ => ?_⟩
  · have hz₀ : (s.files E.sb).addr (s.icache ip).inum (j, ks ++ [k]) = 0 := by rw [hchild, hz]; rfl
    rw [wp_bind, wp_liftM]
    refine (balloc_only hE hs.ready h.super (fun b hb => hs.room.next hL hz₀ hb) (hs.enough.exists hL hz₀)).mono
      fun b io hio => ?_
    simp only [wp_bind, wp_liftM, wp_pure]
    exact (logWrite_only hE hio _ (hindex hz₀)).mono fun _ io' hio' => hio'.mono fun x hx => hio'.logged x (.inr hx)
  · rw [wp_pure]
    exact hs.ready

/-- A position of a supplied inode is looked up. -/
theorem Reached.index_only (hE : E.Logs V) {L : Finset Pos} {j : Fin (NDIRECT + 1)} {ks : List Nat} {k : Nat} {x : UInt32}
    (h : Inv E (.addrs ip) m s) (hm : 0 < m ip) (hv : (s.icache ip).valid = true) (ht : Reached E m ip L (j, ks) x s t)
    (hks : ks.length < depth j) (hk : k < NINDIRECT) (hL : (j, ks ++ [k]) ∈ L)
    (hs : Supplied E V B F t (s.icache ip).inum L) {Q : UInt32 → FsState → Prop}
    (hQ : ∀ y u, Reached E m ip L (j, ks ++ [k]) y s u → Supplied E V B F u (s.icache ip).inum L → Q y u) :
    Wp (E.C.only F) (indexAddr x k) Q t := by
  have hi := ht.grown.inum ip
  have hv' := ((ht.grown.stable m).valid ip hm hv).1
  have hx : x.toNat = (t.files E.sb).addr (t.icache ip).inum (j, ks) := by rw [hi]; exact ht.eq
  rw [← hi] at hs
  refine (indexAddr_only hE ht.inv hm hv' hks hx ht.ne hk hL hs).mono fun y u hu => ?_
  have hyu := hu.2.reached ht.inv hL
  have hsu : Supplied E V B F u (t.icache ip).inum L := ⟨hu.1, hyu.room hs.room, hu.2.enough hL hs.enough⟩
  rw [hi] at hsu
  exact hQ y u (ht.step (fun hne => h.prefix_ne hm hv hne) hyu) hsu

/-- **`bmap`** of a supplied inode. -/
theorem bmap_only (hE : E.Logs V) (h : Inv E (.addrs ip) m s) (hm : 0 < m ip) (hv : (s.icache ip).valid = true) {bn : Nat}
    (hbn : bn < MAXFILE) {L : Finset Pos} (hL : path bn ⊆ L) (hs : Supplied E V B F s (s.icache ip).inum L) :
    Wp (E.C.only F) (bmap ip bn)
      (fun addr t => Reached E m ip L (blockPos bn) addr s t ∧ Supplied E V B F t (s.icache ip).inum L) s := by
  have hmem : ∀ p : Pos, p.1 = (blockPos bn).1 → p.2 <+: (blockPos bn).2 → p ∈ L := fun p h₁ h₂ => hL (mem_path.2 ⟨h₁, h₂⟩)
  have hroot : ∀ j : Fin (NDIRECT + 1), (j, []) ∈ L → Wp (E.C.only F) (inodeAddr ip j)
      (fun addr t => Reached E m ip L (j, []) addr s t ∧ Supplied E V B F t (s.icache ip).inum L) s := fun j hj => by
    refine (inodeAddr_only hE h hm hv hj hs).mono fun addr t ht => ?_
    have hreached := ht.2.reached h hj
    exact ⟨hreached, ht.1, hreached.room hs.room, ht.2.enough hj hs.enough⟩
  rw [bmap, wp_dite]
  refine ⟨fun hdirect => ?_, fun hdirect => ?_⟩
  · have hpos : blockPos bn = (⟨bn, Nat.lt_succ_of_lt hdirect⟩, []) := dif_pos hdirect
    rw [hpos] at hmem ⊢
    exact hroot _ (hmem (⟨bn, Nat.lt_succ_of_lt hdirect⟩, []) rfl (List.prefix_refl _))
  · have hpos : blockPos bn = (Fin.last NDIRECT, [(bn - NDIRECT) / NINDIRECT / NINDIRECT,
      (bn - NDIRECT) / NINDIRECT % NINDIRECT, (bn - NDIRECT) % NINDIRECT]) := dif_neg hdirect
    have hrange : bn - NDIRECT < NINDIRECT * NINDIRECT * NINDIRECT := by
      simp only [NDIRECT, NINDIRECT, MAXFILE] at *
      omega
    rw [if_pos hrange]
    have hk₃ : (bn - NDIRECT) / NINDIRECT / NINDIRECT % NINDIRECT = (bn - NDIRECT) / NINDIRECT / NINDIRECT := by
      simp only [NDIRECT, NINDIRECT, MAXFILE] at *
      omega
    dsimp only
    rw [hk₃]
    generalize hd₁ : (bn - NDIRECT) / NINDIRECT / NINDIRECT = k₃ at hk₃ hpos
    generalize hd₂ : (bn - NDIRECT) / NINDIRECT % NINDIRECT = k₂ at hpos
    generalize hd₃ : (bn - NDIRECT) % NINDIRECT = k₁ at hpos
    have hlt₃ : k₃ < NINDIRECT := by rw [← hk₃]; exact Nat.mod_lt _ (by decide)
    have hlt₂ : k₂ < NINDIRECT := by rw [← hd₂]; exact Nat.mod_lt _ (by decide)
    have hlt₁ : k₁ < NINDIRECT := by rw [← hd₃]; exact Nat.mod_lt _ (by decide)
    rw [hpos] at hmem ⊢
    have hdepth : depth (Fin.last NDIRECT) = 3 := rfl
    have hm₀ := hmem (Fin.last NDIRECT, []) rfl (List.nil_prefix)
    have hm₃ := hmem (Fin.last NDIRECT, [] ++ [k₃]) rfl ⟨[k₂, k₁], rfl⟩
    have hm₂ := hmem (Fin.last NDIRECT, [k₃] ++ [k₂]) rfl ⟨[k₁], rfl⟩
    have hm₁ := hmem (Fin.last NDIRECT, [k₃, k₂] ++ [k₁]) rfl (List.prefix_refl _)
    rw [wp_bind]
    refine (hroot (Fin.last NDIRECT) hm₀).mono fun x₀ t₀ h₀ => ?_
    rw [wp_bind]
    refine h₀.1.index_only hE h hm hv (by simp [hdepth]) hlt₃ hm₃ h₀.2 fun x₃ t₃ h₃ hs₃ => ?_
    rw [wp_bind]
    refine h₃.index_only hE h hm hv (by simp [hdepth]) hlt₂ hm₂ hs₃ fun x₂ t₂ h₂ hs₂ => ?_
    exact h₂.index_only hE h hm hv (by simp [hdepth]) hlt₁ hm₁ hs₂ fun x₁ t₁ h₁ hs₁ => ⟨h₁, hs₁⟩

/-! ## `writei` -/

theorem Enough.congr {n : Nat} {L : Finset Pos} (h : Enough E s n L) (haddr : (t.files E.sb).addr n = (s.files E.sb).addr n)
    (hmarked : ∀ x, x < E.sb.size → (Marked E.sb t.view x ↔ Marked E.sb s.view x)) : Enough E t n L := by
  have hfree : freeData E.sb t.view = freeData E.sb s.view := by
    ext x
    rw [mem_freeData, mem_freeData]
    exact and_congr_right fun hx => not_congr (hmarked x (E.ok.data_lt hx))
  unfold Enough at *
  rwa [haddr, hfree]

/-- The blocks that hold the bytes from `off` to `stop` of inode `n`. -/
def stored (E : Setting) (s : FsState) (n off stop : Nat) : Set Nat :=
  {x | ∃ o, off ≤ o ∧ o < stop ∧ (s.files E.sb).addr n (blockPos (o / BSIZE)) = x}

/-- The loop of `writei`; the blocks it has written are in the log. -/
theorem writeFrom_only (hE : E.Logs V) (hs : Inv E .no m s) (hm : 0 < m ip) (hv : (s.icache ip).valid = true)
    (hfile : (s.icache ip).dinode.type = T_FILE) {off : Nat} {src : List UInt8}
    (hoff : off ≤ (s.icache ip).dinode.size.toNat) (hmax : off + src.length ≤ MAXFILE * BSIZE) (fuel : Nat) :
    ∀ {t : FsState} {o : Nat}, Written E m ip off src o s t → off ≤ o → o ≤ off + src.length →
      off + src.length - o ≤ fuel →
      Supplied E V (stored E t (s.icache ip).inum off o) F t (s.icache ip).inum (paths off src.length) →
      Wp (E.C.only F) (writeFrom ip fuel o (src.drop (o - off))) (fun _ u => Written E m ip off src (off + src.length) s u ∧
        Ready V (stored E u (s.icache ip).inum off (off + src.length)) F u.io) t := by
  have hnotDir : (s.files E.sb).type (s.icache ip).inum ≠ T_DIR := fun ht => by
    rw [hs.type_eq hm hv, hfile] at ht
    exact absurd ht (by decide)
  induction fuel with
  | zero =>
    intro t o h hlo hhi hfuel hready
    obtain rfl : o = off + src.length := by omega
    exact (wp_pure _ _ _).2 ⟨h, hready.ready⟩
  | succ fuel ih =>
    intro t o h hlo hhi hfuel hready
    unfold writeFrom
    rw [wp_ite, wp_pure, List.length_drop]
    refine ⟨fun hdone => ?_, fun hmore => ?_⟩
    · obtain rfl : o = off + src.length := by omega
      exact ⟨h, hready.ready⟩
    · obtain ⟨as, has⟩ := h.entry
      have hi := withAddrs_inum has ip
      have hv' := ((withAddrs_stable has m).valid ip hm hv).1
      have hpath : path (o / BSIZE) ⊆ paths off src.length := by
        intro p hp
        refine Finset.mem_biUnion.2 ⟨o - off, Finset.mem_range.2 (by omega), ?_⟩
        rwa [Nat.add_sub_cancel' hlo]
      have hbn : o / BSIZE < MAXFILE := by
        rw [Nat.div_lt_iff_lt_mul (by decide)]
        omega
      generalize hlen : min (src.length - (o - off)) (BSIZE - o % BSIZE) = len
      have hpos : 0 < len := by
        simp only [BSIZE] at *
        omega
      have hblock : o % BSIZE + len ≤ BSIZE := by
        simp only [BSIZE] at *
        omega
      rw [wp_bind]
      rw [← hi] at hready
      refine (bmap_only hE h.inv hm hv' hbn hpath hready).mono fun addr u hu => ?_
      obtain ⟨hu, hsu⟩ := hu
      rw [hi] at hsu
      have hx : (u.files E.sb).addr (s.icache ip).inum (blockPos (o / BSIZE)) = addr.toNat := by rw [hu.eq, hi]
      have hne : (u.files E.sb).addr (s.icache ip).inum (blockPos (o / BSIZE)) ≠ 0 := by rw [hx]; exact hu.ne
      have harea := hu.inv.sound.area _ _ hne
      have hW : E.W addr.toNat := by
        rw [← hx]
        refine hsu.room.leaf _ (hpath ?_) (blockPos_depth _) hne
        exact mem_path.2 ⟨rfl, List.prefix_refl _⟩
      rw [hx] at harea
      simp only [wp_bind, wp_liftM, wp_bread]
      refine ((logWrite_only hE hsu.ready _ hW).only (wp_logWrite hu.inv.io harea.2 hW
        (Q := fun _ io' => IoInv E.sb io' ∧ io'.view = Function.update u.view addr.toNat
          ((u.view addr.toNat).put (o % BSIZE) len fun j => (src.drop (o - off)).getD j 0))
        fun io' hio hview => ⟨hio, hview⟩)).mono fun _ io' hio' => ?_
      obtain ⟨hlogged, hio, hview⟩ := hio'
      have hnext := Written.step hs hm hv hoff (fun ht => absurd ht hnotDir) h hlo (by omega) hpos hblock hu hio hview
      have hwview : ({ u with io := io' } : FsState).view = Function.update u.view
          ((u.files E.sb).addr (s.icache ip).inum (blockPos (o / BSIZE)))
          ((u.view addr.toNat).put (o % BSIZE) len fun j => (src.drop (o - off)).getD j 0) := by
        rw [hx]
        exact hview
      obtain ⟨-, -, haddr, hmarked, -⟩ := hu.inv.write_files (t := { u with io := io' }) hne rfl hwview
      have hdrop : (src.drop (o - off)).drop len = src.drop (o + len - off) := by
        rw [List.drop_drop]
        congr 1
        omega
      rw [hdrop]
      refine ih hnext (by omega) (by omega) (by omega) ⟨hlogged.mono ?_, hnext.room,
        hsu.enough.congr (congrFun haddr _) hmarked⟩
      rintro x ⟨o', h₁, h₂, rfl⟩
      rw [haddr]
      by_cases ho : o' < o
      · -- an older block stays where it is
        have hmapped := h.mapped o' h₁ ho
        have hsame := hu.grown.addr (blockPos (o' / BSIZE))
        rw [hi] at hsame
        exact hlogged.logged _ (.inr ⟨o', h₁, ho, (hsame hmapped).symm⟩)
      · have : o' / BSIZE = o / BSIZE := by
          simp only [BSIZE] at *
          omega
        rw [this, hx]
        exact hlogged.logged _ (.inl rfl)

/-- Where the range ends in the file, the writing is done. -/
theorem Written.wrote {off : Nat} {src : List UInt8} (h : Inv E .no m s) (hm : 0 < m ip) (hv : (s.icache ip).valid = true)
    (ht : Written E m ip off src (off + src.length) s t) (hle : off + src.length ≤ (s.icache ip).dinode.size.toNat) :
    Wrote E ip off src s t := by
  refine ⟨ht.type, fun k => ?_, ht.addr, ht.other, ht.byte⟩
  rw [ht.size]
  split
  · rename_i hk
    rw [hk, h.size_eq hm hv]
    omega
  · rfl

/-- A range that ends behind the file, and the new size. -/
theorem Written.wrote_resized {off : Nat} {src : List UInt8} (h : Inv E .no m s) (hm : 0 < m ip)
    (hv : (s.icache ip).valid = true) (ht : Written E m ip off src (off + src.length) s t)
    (hgrow : (s.icache ip).dinode.size.toNat < off + src.length) (htype : (u.files E.sb).type = (s.files E.sb).type)
    (hsize : ∀ k, (u.files E.sb).size k = if k = (s.icache ip).inum then off + src.length else (s.files E.sb).size k)
    (haddr : (u.files E.sb).addr = (t.files E.sb).addr) (hbyte : (u.files E.sb).byte = (t.files E.sb).byte) :
    Wrote E ip off src s u := by
  refine ⟨htype, fun k => ?_, fun q hq => ?_, fun k hk => ?_, fun k o => ?_⟩
  · rw [hsize]
    split
    · rename_i hk
      rw [hk, h.size_eq hm hv]
      omega
    · rfl
  · rw [haddr]
    exact ht.addr q hq
  · rw [haddr]
    exact ht.other k hk
  · rw [hbyte]
    exact ht.byte k o

/-- **`writei`** of a range that begins in the file stops only with a failure that it may have. -/
theorem writei_only (hE : E.Logs V) (h : Inv E .no m s) (hm : 0 < m ip) (hv : (s.icache ip).valid = true)
    (hfile : (s.icache ip).dinode.type = T_FILE) (devsw : Nat → Option Devsw) {src : List UInt8} {off : UInt32}
    (hoff : off ≤ (s.icache ip).dinode.size) (hmax : off.toNat + src.length ≤ MAXFILE * BSIZE)
    (hs : Supplied E V ∅ F s (s.icache ip).inum (paths off.toNat src.length))
    (hWi : (s.icache ip).dinode.size.toNat < off.toNat + src.length → E.W (IBLOCK (s.icache ip).inum)) :
    Wp (E.C.only F) (writei devsw ip src off) (fun r t => r = src.length ∧ Inv E .no m t ∧ Stable m s t ∧
      Wrote E ip off.toNat src s t ∧ ∀ x ∈ stored E t (s.icache ip).inum off.toNat (off.toNat + src.length),
        x ∈ t.io.log.sector) s := by
  have hbound : MAXFILE * BSIZE < 2 ^ 32 := by decide
  have hn : (UInt32.ofNat src.length).toNat = src.length := by
    rw [UInt32.toNat_ofNat']
    exact Nat.mod_eq_of_lt (by omega)
  have hsum : (off + UInt32.ofNat src.length).toNat = off.toNat + src.length := by
    rw [UInt32.toNat_add, hn]
    exact Nat.mod_eq_of_lt (by omega)
  have hoff' : off.toNat ≤ (s.icache ip).dinode.size.toNat := UInt32.le_iff_toNat_le.1 hoff
  have hnotDir : (s.files E.sb).type (s.icache ip).inum ≠ T_DIR := fun ht => by
    rw [h.type_eq hm hv, hfile] at ht
    exact absurd ht (by decide)
  rw [writei, wp_bind, inode_wp]
  dsimp only
  rw [hfile, if_neg (by decide), if_neg, if_neg]
  rotate_left
  · rw [UInt32.not_lt, UInt32.le_iff_toNat_le, hsum]
    exact hmax
  · rw [not_or, UInt32.not_lt, UInt32.not_lt, UInt32.le_iff_toNat_le, UInt32.le_iff_toNat_le, hsum]
    exact ⟨hoff', Nat.le_add_right _ _⟩
  have hstart : Written E m ip off.toNat src off.toNat s s :=
    ⟨h.toAddrs ip, fun _ => h, ⟨_, (s.withAddrs_self ip).symm⟩, hs.room, rfl, rfl, fun o h₁ h₂ => by omega, fun _ _ => rfl,
      fun _ _ => rfl, fun k o => by rw [if_neg (by omega)]⟩
  have hnone : Supplied E V (stored E s (s.icache ip).inum off.toNat off.toNat) F s (s.icache ip).inum
      (paths off.toNat src.length) :=
    ⟨hs.ready.mono fun x hx => by obtain ⟨o, h₁, h₂, -⟩ := hx; omega, hs.room, hs.enough⟩
  have hloop := writeFrom_only hE h hm hv hfile hoff' hmax src.length hstart (Nat.le_refl _) (by omega) (by omega) hnone
  rw [Nat.sub_self, List.drop_zero] at hloop
  rw [hn, wp_bind]
  refine hloop.mono fun _ t ht => ?_
  obtain ⟨ht, hready⟩ := ht
  obtain ⟨as, has⟩ := ht.entry
  have hst := withAddrs_stable has m
  have hi := withAddrs_inum has ip
  have hv' := (hst.valid ip hm hv).1
  have hsz : (t.icache ip).dinode.size = (s.icache ip).dinode.size := by
    rw [has, FsState.withAddrs, Function.update_self]
  have hgt : (s.icache ip).dinode.size < off + UInt32.ofNat src.length ↔
      (s.icache ip).dinode.size.toNat < off.toNat + src.length := by
    rw [UInt32.lt_iff_toNat_lt, hsum]
  rw [wp_bind, inode_wp, hsz, wp_ite]
  refine ⟨fun hgrow => ?_, fun hgrow => ?_⟩
  · replace hgrow := hgt.1 hgrow.2
    obtain ⟨hinv, htype, hsize, haddr, hbyte⟩ := ht.resize h hm hv hoff' (fun ht => absurd ht hnotDir) hsum
      (i := { t.icache ip with dinode := { (t.icache ip).dinode with size := off + UInt32.ofNat src.length } }) rfl
    have hentry := t.setEntry_self ip { t.icache ip with
      dinode := { (t.icache ip).dinode with size := off + UInt32.ofNat src.length } }
    have hst' : Stable m t (t.setEntry ip { t.icache ip with
        dinode := { (t.icache ip).dinode with size := off + UInt32.ofNat src.length } }) :=
      Stable.entry (fun _ => rfl) fun _ hv => ⟨hv, rfl⟩
    have hio : (t.setEntry ip { t.icache ip with
        dinode := { (t.icache ip).dinode with size := off + UInt32.ofNat src.length } }).io = t.io := rfl
    rw [wp_bind, setDinode_wp, wp_bind]
    generalize t.setEntry ip _ = u at hinv htype hsize haddr hbyte hentry hst' hio ⊢
    have hui : (u.icache ip).inum = (s.icache ip).inum := by rw [hentry]; exact hi
    have hroom : Wp (E.C.only F) (iupdate ip)
        (fun _ w => Ready V (stored E t (s.icache ip).inum off.toNat (off.toNat + src.length)) F w.io) u := by
      simp only [iupdate, wp_bind, inode_wp, wp_liftM, wp_bread]
      rw [← hio] at hready
      exact (logWrite_only hE hready _ (by rw [hui]; exact hWi hgrow)).mono fun _ io' hio' =>
        hio'.mono fun x hx => hio'.logged x (.inr hx)
    have hkept : Wp E.C (iupdate ip) (fun _ w => Inv E .no m w ∧ Stable m u w ∧ w.files E.sb = u.files E.sb) u := by
      refine wp_iupdate hinv hm (by rw [hentry]; exact hv') (fun jp hj => ?_) (by rw [hui]; exact hWi hgrow)
        fun w hw hst'' _ hfiles _ => ⟨hw, hst'', hfiles⟩
      rcases hj with hj | hj
      · cases hj
      · injection hj with hj
        exact hj.symm
    refine (Wp.only hroom hkept).mono fun _ w hw => ?_
    obtain ⟨hlogged, hinv', hst'', hfiles⟩ := hw
    rw [wp_pure]
    refine ⟨rfl, hinv', hst.trans (hst'.trans hst''), ?_, fun x hx => hlogged.logged x ?_⟩
    · rw [← hfiles] at htype hsize haddr hbyte
      exact ht.wrote_resized h hm hv hgrow htype hsize haddr hbyte
    · obtain ⟨o, h₁, h₂, rfl⟩ := hx
      exact ⟨o, h₁, h₂, by rw [hfiles, haddr]⟩
  · have hle : off.toNat + src.length ≤ (s.icache ip).dinode.size.toNat := by
      by_cases hpos : 0 < src.length
      · refine Nat.le_of_not_lt fun hlt => hgrow ⟨?_, hgt.2 hlt⟩
        rw [UInt32.lt_iff_toNat_lt, hn]
        exact hpos
      · omega
    rw [wp_pure]
    exact ⟨rfl, ht.no hle, hst, ht.wrote h hm hv hle, fun x hx => hready.logged x hx⟩

/-! ## `readi` -/

/-- **`readi`** of a range without holes. -/
theorem readi_full (htype : (s.icache ip).dinode.type ≠ T_DEV) (devsw : Nat → Option Devsw) (off n : UInt32)
    (hfull : ∀ o, off.toNat ≤ o → o < off.toNat + min n.toNat ((s.icache ip).dinode.size.toNat - off.toNat) →
      (s.icache ip).dinode.addr s.view (blockPos (o / BSIZE)) ≠ 0) :
    readi devsw ip off n s = (.ok (if (s.icache ip).dinode.size < off ∨ off + n < off then none
      else some ((List.range (min n.toNat ((s.icache ip).dinode.size.toNat - off.toNat))).map fun j =>
        (s.icache ip).dinode.byteAt s.view (off.toNat + j)), s), []) := by
  have hinode : inode ip s = (.ok (s.icache ip, s), []) := rfl
  unfold readi
  refine Prog.run_bind hinode (w := []) (v := []) ?_
  rw [if_neg htype]
  by_cases hout : (s.icache ip).dinode.size < off ∨ off + n < off
  · rw [if_pos hout, if_pos hout]
    rfl
  · rw [if_neg hout, if_neg hout]
    have hlen : ((s.icache ip).dinode.readLen off n).toNat = min n.toNat ((s.icache ip).dinode.size.toNat - off.toNat) := by
      rw [not_or, UInt32.not_lt, UInt32.not_lt, UInt32.le_iff_toNat_le, UInt32.le_iff_toNat_le, UInt32.toNat_add] at hout
      unfold Dinode.readLen
      have := UInt32.toNat_lt off
      have := UInt32.toNat_lt n
      have := UInt32.toNat_lt (s.icache ip).dinode.size
      split
      · rename_i hlt
        rw [UInt32.lt_iff_toNat_lt, UInt32.toNat_add] at hlt
        rw [UInt32.toNat_sub_of_le _ _ (by rw [UInt32.le_iff_toNat_le]; exact hout.1)]
        omega
      · rename_i hle
        rw [UInt32.lt_iff_toNat_lt, UInt32.toNat_add] at hle
        omega
    have hread := readFrom_run (s := s) ((s.icache ip).dinode.readLen off n).toNat
      (Nat.le_refl ((s.icache ip).dinode.readLen off n).toNat) fun o h₁ h₂ => hfull o h₁ (by rw [← hlen]; exact h₂)
    show (readFrom ip ((s.icache ip).dinode.readLen off n).toNat off.toNat ((s.icache ip).dinode.readLen off n).toNat >>=
      fun data => pure (some data)) s = _
    refine (Prog.run_bind hread (v := []) (w := []) rfl).trans ?_
    rw [hlen]
    rfl

/-- **`readi`** of a file without holes. -/
theorem readi_run (h : Inv E .no m s) (hstrict : E.P.strict) (hm : 0 < m ip) (hv : (s.icache ip).valid = true)
    (hfile : (s.icache ip).dinode.type = T_FILE) (devsw : Nat → Option Devsw) (off n : UInt32) :
    readi devsw ip off n s = (.ok (if (s.icache ip).dinode.size < off ∨ off + n < off then none
      else some ((List.range (min n.toNat ((s.icache ip).dinode.size.toNat - off.toNat))).map fun j =>
        (s.files E.sb).byte (s.icache ip).inum (off.toNat + j)), s), []) := by
  have hfull : ∀ o, off.toNat ≤ o → o < off.toNat + min n.toNat ((s.icache ip).dinode.size.toNat - off.toNat) →
      (s.files E.sb).addr (s.icache ip).inum (blockPos (o / BSIZE)) ≠ 0 := fun o _ ho =>
    h.full hstrict hm hv (by omega)
  rw [readi_full (by rw [hfile]; decide) devsw off n fun o h₁ h₂ => by
    rw [← h.addr_eq hm hv]
    exact hfull o h₁ h₂]
  congr 5
  refine List.map_congr_left fun j hj => ?_
  exact h.byteAt hm hv (hfull _ (by omega) (by have := List.mem_range.1 hj; omega))

end Only

end NewXv6
