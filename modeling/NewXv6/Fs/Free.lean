import NewXv6.Fs.Cache

/-!
# Freeing inodes

`itrunc` frees the blocks at the direct addresses, the top index block and the blocks its entries name (`Gone`), and
nothing below those. `iput` drops a pointer; if it was the last one to an inode without links, it frees the inode.
-/

namespace NewXv6

open Lib

section Free

variable {E : Setting} {a : Ahead} {m : Slot → Nat} {s t : FsState} {ip : Slot}

/-- From `s` to `t` the marks of the blocks in `F` were taken away, and no block outside the bitmap was written. -/
structure Freed (E : Setting) (F : Nat → Prop) (s t : FsState) : Prop where
  io : IoInv E.sb t.io
  view : ∀ x, x < E.sb.bitmapStart ∨ E.sb.dataStart ≤ x → t.view x = s.view x
  marked : ∀ b, b < E.sb.size → (Marked E.sb t.view b ↔ Marked E.sb s.view b ∧ ¬F b)

theorem Freed.congr {F G : Nat → Prop} (h : Freed E F s t) (hFG : ∀ b, F b ↔ G b) : Freed E G s t :=
  ⟨h.io, h.view, fun b hb => by rw [h.marked b hb, hFG]⟩

theorem Freed.super {F : Nat → Prop} (h : Freed E F s t) (hsb : (s.view 1).superblock = E.sb) :
    (t.view 1).superblock = E.sb := by
  rw [h.view 1 (Or.inl E.sb.one_lt_bitmapStart)]
  exact hsb

/-- One more block is freed. -/
theorem Freed.bfree {F : Nat → Prop} (h : Freed E F s t) (hsb : (s.view 1).superblock = E.sb) {b : UInt32}
    (hb : E.sb.InData b.toNat) (hW : E.W (BBLOCK b.toNat E.sb.ninodes)) {Q : Unit → FsState → Prop}
    (hQ : ∀ t', Freed E (fun x => F x ∨ x = b.toNat) s t' → t'.icache = t.icache → Q () t') :
    Wp E.C (liftM (bfree b)) Q t := by
  have hbit := E.ok.bblock (E.ok.data_lt hb)
  rw [wp_liftM]
  refine wp_bfree h.io (h.super hsb) hb hW fun io' hio hview => ?_
  have hview : ({ t with io := io' } : FsState).view = Function.update t.view (BBLOCK b.toNat E.sb.ninodes)
    ((t.view (BBLOCK b.toNat E.sb.ninodes)).clearBit (b.toNat % BPB)) := hview
  refine hQ _ ⟨hio, fun x hx => ?_, fun x hx => ?_⟩ rfl
  · rw [hview, Function.update_of_ne (by omega)]
    exact h.view x hx
  · rw [marked_clearBit (v := t.view) (b := b.toNat), h.marked x hx, not_or, and_assoc]
    · rw [hview, Function.update_self]
    · intro hne
      rw [hview, Function.update_of_ne hne]

theorem freeAddr_wp {F : Nat → Prop} (h : Freed E F s t) (hsb : (s.view 1).superblock = E.sb) {j : Fin (NDIRECT + 1)}
    (hb : E.sb.InData ((t.icache ip).dinode.addrs j).toNat)
    (hW : E.W (BBLOCK ((t.icache ip).dinode.addrs j).toNat E.sb.ninodes)) {Q : Unit → FsState → Prop}
    (hQ : ∀ t', Freed E (fun x => F x ∨ x = ((t.icache ip).dinode.addrs j).toNat) s t' →
      t'.icache = Function.update t.icache ip { t.icache ip with
        dinode := { (t.icache ip).dinode with addrs := Function.update (t.icache ip).dinode.addrs j 0 } } → Q () t') :
    Wp E.C (freeAddr ip j) Q t := by
  rw [freeAddr, wp_bind, inode_wp, wp_bind]
  refine h.bfree hsb hb hW fun t' ht hic => ?_
  rw [setDinode_wp]
  refine hQ _ ⟨ht.io, ht.view, ht.marked⟩ ?_
  rw [FsState.setEntry, hic]

/-! ## `itrunc` -/

/-- The blocks `itrunc` frees: those at a position at most one index below an address. -/
def Gone (E : Setting) (s : FsState) (n b : Nat) : Prop :=
  b ≠ 0 ∧ ∃ p : Pos, p.2.length ≤ 1 ∧ (s.files E.sb).addr n p = b

/-- What `itrunc` leaves of an inode. -/
def Dinode.trunc (d : Dinode) : Dinode := { d with size := 0, addrs := fun _ => 0 }

/-- From `s` to `t` the inode of entry `ip` was truncated. -/
structure Truncated (E : Setting) (ip : Slot) (s t : FsState) : Prop where
  io : IoInv E.sb t.io
  view : ∀ x, x ≠ IBLOCK (s.icache ip).inum → x < E.sb.bitmapStart ∨ E.sb.dataStart ≤ x → t.view x = s.view x
  disk : t.view (IBLOCK (s.icache ip).inum) = (s.view (IBLOCK (s.icache ip).inum)).putDinode
    ((s.icache ip).inum % IPB) (s.icache ip).dinode.trunc
  marked : ∀ b, b < E.sb.size → (Marked E.sb t.view b ↔ Marked E.sb s.view b ∧ ¬Gone E s (s.icache ip).inum b)
  icache : t.icache = Function.update s.icache ip { s.icache ip with dinode := (s.icache ip).dinode.trunc }

theorem Inv.addr_child (h : Inv E a m s) (hm : 0 < m ip) (hv : (s.icache ip).valid = true) (k : Nat) :
    (s.files E.sb).addr (s.icache ip).inum (Fin.last NDIRECT, [k]) =
      if ((s.icache ip).dinode.addrs (Fin.last NDIRECT)).toNat = 0 then 0
      else ((s.view ((s.icache ip).dinode.addrs (Fin.last NDIRECT)).toNat).word k).toNat := by
  rw [h.addr_eq hm hv, Dinode.addr_eq (by simp [depth])]
  rfl

/-- The addresses when those in `done` have been cleared. -/
def clearedAddrs (d : Dinode) (done : List (Fin NDIRECT)) (j : Fin (NDIRECT + 1)) : UInt32 :=
  if ∃ i ∈ done, i.castSucc = j then 0 else d.addrs j

theorem clearedAddrs_nil (d : Dinode) : clearedAddrs d [] = d.addrs := by
  funext j
  simp [clearedAddrs]

theorem clearedAddrs_snoc (d : Dinode) (done : List (Fin NDIRECT)) (x : Fin NDIRECT) :
    clearedAddrs d (done ++ [x]) = Function.update (clearedAddrs d done) x.castSucc 0 := by
  funext j
  unfold clearedAddrs
  by_cases hj : j = x.castSucc
  · subst hj
    rw [Function.update_self, if_pos ⟨x, by simp, rfl⟩]
  · rw [Function.update_of_ne hj]
    have : (∃ i ∈ done ++ [x], i.castSucc = j) ↔ ∃ i ∈ done, i.castSucc = j := by
      constructor
      · rintro ⟨i, hi, rfl⟩
        rcases List.mem_append.1 hi with hi | hi
        · exact ⟨i, hi, rfl⟩
        · rw [List.mem_singleton.1 hi] at hj
          exact absurd rfl hj
      · rintro ⟨i, hi, rfl⟩
        exact ⟨i, List.mem_append_left _ hi, rfl⟩
    simp only [this]

theorem clearedAddrs_eq {d : Dinode} {done : List (Fin NDIRECT)} {j : Fin (NDIRECT + 1)} (h : clearedAddrs d done j ≠ 0) :
    clearedAddrs d done j = d.addrs j := by
  unfold clearedAddrs at *
  split at h
  · exact absurd rfl h
  · rw [if_neg ‹_›]

/-- The loop of `itrunc` over the direct addresses. -/
theorem trunc_direct (h : Inv E .no m s) (hm : 0 < m ip) (hv : (s.icache ip).valid = true)
    (hW : ∀ p : Pos, p.2.length ≤ 1 → (s.files E.sb).addr (s.icache ip).inum p ≠ 0 →
      E.W (BBLOCK ((s.files E.sb).addr (s.icache ip).inum p) E.sb.ninodes)) :
    Wp E.C (Prog.forEach (fun j : Fin NDIRECT => do
      let i ← inode ip
      if i.dinode.addrs j.castSucc ≠ 0 then freeAddr ip j.castSucc else pure ()) (List.finRange NDIRECT))
      (fun _ t => Freed E (fun b => ∃ i ∈ List.finRange NDIRECT, (s.icache ip).dinode.addrs i.castSucc ≠ 0 ∧
        b = ((s.icache ip).dinode.addrs i.castSucc).toNat) s t ∧
        t.icache = s.withAddrs ip (clearedAddrs (s.icache ip).dinode (List.finRange NDIRECT))) s := by
  have hroot := fun i : Fin NDIRECT => h.addr_root hm hv i.castSucc
  refine wp_forEach_done (fun done t => Freed E (fun b => ∃ i ∈ done, (s.icache ip).dinode.addrs i.castSucc ≠ 0 ∧
    b = ((s.icache ip).dinode.addrs i.castSucc).toNat) s t ∧
    t.icache = s.withAddrs ip (clearedAddrs (s.icache ip).dinode done)) ?_ _ s ?_
  · rintro done x t ⟨hfreed, hic⟩
    have hentry : (t.icache ip).dinode.addrs = clearedAddrs (s.icache ip).dinode done := by
      rw [hic, FsState.withAddrs, Function.update_self]
    rw [wp_bind, inode_wp, wp_ite, hentry]
    refine ⟨fun hne => ?_, fun hz => ?_⟩
    · have hx := clearedAddrs_eq hne
      have hx₀ : (s.icache ip).dinode.addrs x.castSucc ≠ 0 := hx ▸ hne
      have hpos : (s.files E.sb).addr (s.icache ip).inum (x.castSucc, []) ≠ 0 := by
        rw [hroot]
        exact fun h₀ => hx₀ (UInt32.toNat_inj.1 h₀)
      have hdata := h.sound.area _ _ hpos
      have hWx := hW (x.castSucc, []) (Nat.zero_le _) hpos
      rw [hroot] at hdata hWx
      refine freeAddr_wp hfreed h.super (by rw [hentry, hx]; exact hdata) (by rw [hentry, hx]; exact hWx) fun t' ht' hic' => ?_
      rw [hentry, hx] at ht'
      refine ⟨ht'.congr fun b => ?_, ?_⟩
      · constructor
        · rintro (⟨i, hi, h₁, h₂⟩ | rfl)
          · exact ⟨i, List.mem_append_left _ hi, h₁, h₂⟩
          · exact ⟨x, by simp, hx₀, rfl⟩
        · rintro ⟨i, hi, h₁, h₂⟩
          rcases List.mem_append.1 hi with hi | hi
          · exact Or.inl ⟨i, hi, h₁, h₂⟩
          · rw [List.mem_singleton.1 hi] at h₂
            exact Or.inr h₂
      · rw [hic', hentry, hic, clearedAddrs_snoc]
        simp only [FsState.withAddrs, Function.update_self, Function.update_idem]
    · have hz : clearedAddrs (s.icache ip).dinode done x.castSucc = 0 := by simpa using hz
      have hsnoc : clearedAddrs (s.icache ip).dinode (done ++ [x]) = clearedAddrs (s.icache ip).dinode done := by
        rw [clearedAddrs_snoc, ← hz, Function.update_eq_self]
      rw [wp_pure, hsnoc]
      refine ⟨hfreed.congr fun b => ?_, hic⟩
      constructor
      · rintro ⟨i, hi, h₁, h₂⟩
        exact ⟨i, List.mem_append_left _ hi, h₁, h₂⟩
      · rintro ⟨i, hi, h₁, h₂⟩
        rcases List.mem_append.1 hi with hi | hi
        · exact ⟨i, hi, h₁, h₂⟩
        · -- the address of `x` is already clear
          rw [List.mem_singleton.1 hi] at h₁ h₂
          unfold clearedAddrs at hz
          split at hz
          · rename_i hdone
            obtain ⟨i', hi', he⟩ := hdone
            exact ⟨i', hi', he ▸ h₁, he ▸ h₂⟩
          · exact absurd hz h₁
  · refine ⟨⟨h.io, fun _ _ => rfl, fun b _ => by simp⟩, ?_⟩
    rw [clearedAddrs_nil, FsState.withAddrs, Function.update_eq_self]

/-- The blocks `itrunc` frees, in terms of the cached inode. -/
theorem gone_iff (h : Inv E a m s) (hm : 0 < m ip) (hv : (s.icache ip).valid = true) (b : Nat) :
    Gone E s (s.icache ip).inum b ↔
      (∃ i ∈ List.finRange NDIRECT, (s.icache ip).dinode.addrs i.castSucc ≠ 0 ∧
        b = ((s.icache ip).dinode.addrs i.castSucc).toNat) ∨
      (s.icache ip).dinode.addrs (Fin.last NDIRECT) ≠ 0 ∧
        ((∃ k ∈ List.range NINDIRECT, (s.view ((s.icache ip).dinode.addrs (Fin.last NDIRECT)).toNat).word k ≠ 0 ∧
          b = ((s.view ((s.icache ip).dinode.addrs (Fin.last NDIRECT)).toNat).word k).toNat) ∨
        b = ((s.icache ip).dinode.addrs (Fin.last NDIRECT)).toNat) := by
  have hne : ∀ x : UInt32, x ≠ 0 ↔ x.toNat ≠ 0 := fun x => not_congr UInt32.toNat_inj.symm
  constructor
  · rintro ⟨hb, ⟨j, ks⟩, hlen, hp⟩
    cases ks with
    | nil =>
      rw [h.addr_root hm hv] at hp
      induction j using Fin.lastCases with
      | last => exact Or.inr ⟨by rw [hne, hp]; exact hb, Or.inr hp.symm⟩
      | cast i => exact Or.inl ⟨i, List.mem_finRange i, by rw [hne, hp]; exact hb, hp.symm⟩
    | cons k ks =>
      have hks : ks = [] := by
        simp only [List.length_cons] at hlen
        exact List.length_eq_zero_iff.1 (by omega)
      subst hks
      have hj : j = Fin.last NDIRECT := by
        by_contra hj
        rw [h.addr_eq hm hv] at hp
        simp [Dinode.addr, depth, hj] at hp
        exact hb hp.symm
      subst hj
      rw [h.addr_child hm hv] at hp
      split at hp
      · exact absurd hp.symm hb
      · rename_i h₀
        refine Or.inr ⟨(hne _).2 h₀, Or.inl ⟨k, ?_, by rw [hne, hp]; exact hb, hp.symm⟩⟩
        by_contra hk
        rw [Block.word_of_le _ (by simpa using hk)] at hp
        exact hb hp.symm
  · rintro (⟨i, -, h₁, rfl⟩ | ⟨h₁, ⟨k, -, h₂, rfl⟩ | rfl⟩)
    · exact ⟨(hne _).1 h₁, (i.castSucc, []), Nat.zero_le _, h.addr_root hm hv _⟩
    · refine ⟨(hne _).1 h₂, (Fin.last NDIRECT, [k]), Nat.le_refl _, ?_⟩
      rw [h.addr_child hm hv, if_neg ((hne _).1 h₁)]
    · exact ⟨(hne _).1 h₁, (Fin.last NDIRECT, []), Nat.zero_le _, h.addr_root hm hv _⟩

/-- The loop of `itrunc` over the entries of an index block. -/
theorem free_words {F : Nat → Prop} (h : Freed E F s t) (hsb : (s.view 1).superblock = E.sb) {bp : Block}
    (hdata : ∀ k, bp.word k ≠ 0 → E.sb.InData (bp.word k).toNat ∧ E.W (BBLOCK (bp.word k).toNat E.sb.ninodes)) :
    Wp E.C (Prog.forEach (fun j => if bp.word j ≠ 0 then (liftM (bfree (bp.word j)) : Kern FsState Unit) else pure ())
        (List.range NINDIRECT))
      (fun _ u => Freed E (fun b => F b ∨ ∃ k ∈ List.range NINDIRECT, bp.word k ≠ 0 ∧ b = (bp.word k).toNat) s u ∧
        u.icache = t.icache) t := by
  refine wp_forEach_done (fun done u => Freed E (fun b => F b ∨ ∃ k ∈ done, bp.word k ≠ 0 ∧ b = (bp.word k).toNat) s u ∧
    u.icache = t.icache) ?_ _ t ⟨h.congr fun b => by simp, rfl⟩
  rintro done x u ⟨hu, hic⟩
  rw [wp_ite, wp_pure]
  refine ⟨fun hx => ?_, fun hx => ⟨hu.congr fun b => ?_, hic⟩⟩
  · obtain ⟨hd, hW⟩ := hdata x hx
    refine hu.bfree hsb hd hW fun u' hu' hic' => ⟨hu'.congr fun b => ?_, hic'.trans hic⟩
    simp only [List.mem_append, List.mem_singleton, or_and_right, exists_or, exists_eq_left, or_assoc]
    simp [hx]
  · have hx : bp.word x = 0 := by simpa using hx
    simp [or_and_right, exists_or, hx]

/-- Writing back the truncated inode. -/
theorem Freed.truncated (h : Inv E .no m s) (hm : 0 < m ip)
    (ht : Freed E (Gone E s (s.icache ip).inum) s t) (hic : t.icache = s.withAddrs ip fun _ => 0)
    (hW : E.W (IBLOCK (s.icache ip).inum)) {Q : Unit → FsState → Prop} (hQ : ∀ u, Truncated E ip s u → Q () u) :
    Wp E.C (do
      setDinode ip fun d => { d with size := 0 }
      iupdate ip) Q t := by
  have hblk := Superblock.iblock_lt (h.inum ip hm)
  have hdata := E.ok.data_le
  have hbit := E.ok.bitmap_lt
  simp only [iupdate, wp_bind, setDinode_wp, inode_wp, wp_liftM, wp_bread]
  have hentry : t.icache ip = { s.icache ip with dinode := { (s.icache ip).dinode with addrs := fun _ => 0 } } := by
    rw [hic, FsState.withAddrs, Function.update_self]
  rw [FsState.setEntry_self, FsState.setEntry_io, hentry]
  refine wp_logWrite ht.io (by omega) hW fun io' hio hview => hQ _ ?_
  have hsame : t.view (IBLOCK (s.icache ip).inum) = s.view (IBLOCK (s.icache ip).inum) := ht.view _ (Or.inl hblk.2)
  refine ⟨hio, fun x hx hlow => ?_, ?_, fun b hb => ?_, ?_⟩
  · show io'.view x = _
    rw [hview, Function.update_of_ne hx]
    exact ht.view x hlow
  · show io'.view _ = _
    rw [hview, Function.update_self, ← hsame]
    rfl
  · rw [← ht.marked b hb]
    have := E.ok.bblock hb
    show (io'.view _).bit _ = true ↔ _
    rw [hview, Function.update_of_ne (by omega)]
    rfl
  · show Function.update t.icache ip _ = _
    rw [hic, FsState.withAddrs, Function.update_idem]
    rfl

/-- **`itrunc`** frees the blocks at most one index below the addresses, and clears the addresses and the size. -/
theorem wp_itrunc (h : Inv E .no m s) (hm : 0 < m ip) (hv : (s.icache ip).valid = true)
    (hWi : E.W (IBLOCK (s.icache ip).inum)) (hW : ∀ b, Gone E s (s.icache ip).inum b → E.W (BBLOCK b E.sb.ninodes))
    {Q : Unit → FsState → Prop}
    (hQ : ∀ t, E.C.assume (.itrunc s.view (s.icache ip).dinode) → Truncated E ip s t → Q () t) :
    Wp E.C (itrunc ip) Q s := by
  simp only [itrunc, wp_bind, inode_wp, wp_get, wp_emit]
  intro hassume
  refine ⟨E.itrunc _ _, ?_⟩
  have hgone := gone_iff h hm hv
  have hW' : ∀ p : Pos, p.2.length ≤ 1 → (s.files E.sb).addr (s.icache ip).inum p ≠ 0 →
      E.W (BBLOCK ((s.files E.sb).addr (s.icache ip).inum p) E.sb.ninodes) :=
    fun p hp hne => hW _ ⟨hne, p, hp, rfl⟩
  refine (trunc_direct h hm hv hW').mono fun _ t hfreed => ?_
  obtain ⟨ht, hic⟩ := hfreed
  have hdirect : ∀ i : Fin NDIRECT, clearedAddrs (s.icache ip).dinode (List.finRange NDIRECT) i.castSucc = 0 :=
    fun i => if_pos ⟨i, List.mem_finRange i, rfl⟩
  have hlast : clearedAddrs (s.icache ip).dinode (List.finRange NDIRECT) (Fin.last NDIRECT) =
      (s.icache ip).dinode.addrs (Fin.last NDIRECT) := by
    refine if_neg fun hcleared => ?_
    obtain ⟨i, -, he⟩ := hcleared
    exact Fin.ne_of_lt (Fin.castSucc_lt_last i) he
  have hentry : (t.icache ip).dinode.addrs = clearedAddrs (s.icache ip).dinode (List.finRange NDIRECT) := by
    rw [hic, FsState.withAddrs, Function.update_self]
  have hend : ∀ u, Freed E (Gone E s (s.icache ip).inum) s u → (u.icache = s.withAddrs ip fun _ => 0) →
      Wp E.C (do
        setDinode ip fun d => { d with size := 0 }
        iupdate ip) Q u :=
    fun u hu hic' => hu.truncated h hm hic' hWi fun v hv => hQ v hassume hv
  rw [hentry, hlast, wp_ite]
  refine ⟨fun hne => ?_, fun hz => ?_⟩
  · have hne' : ((s.icache ip).dinode.addrs (Fin.last NDIRECT)).toNat ≠ 0 := fun h₀ => hne (UInt32.toNat_inj.1 h₀)
    have hroot := h.addr_root hm hv (Fin.last NDIRECT)
    have harea := h.sound.area _ (Fin.last NDIRECT, []) (by rw [hroot]; exact hne')
    rw [hroot] at harea
    rw [wp_bind, bread_wp, ht.view _ (Or.inr harea.1), wp_bind]
    refine (free_words ht h.super fun k hk => ?_).mono fun _ u hfreed => ?_
    · have hk' : ((s.view ((s.icache ip).dinode.addrs (Fin.last NDIRECT)).toNat).word k).toNat ≠ 0 :=
        fun h₀ => hk (UInt32.toNat_inj.1 h₀)
      have hchild := h.addr_child hm hv k
      rw [if_neg hne'] at hchild
      have hd := h.sound.area _ (Fin.last NDIRECT, [k]) (by rw [hchild]; exact hk')
      have hWk := hW' (Fin.last NDIRECT, [k]) (Nat.le_refl _) (by rw [hchild]; exact hk')
      rw [hchild] at hd hWk
      exact ⟨hd, hWk⟩
    · obtain ⟨hu, hic'⟩ := hfreed
      have hlast' : (u.icache ip).dinode.addrs (Fin.last NDIRECT) = (s.icache ip).dinode.addrs (Fin.last NDIRECT) := by
        rw [hic', hentry, hlast]
      have hWl := hW' (Fin.last NDIRECT, []) (Nat.zero_le _) (by rw [hroot]; exact hne')
      rw [hroot] at hWl
      rw [wp_bind]
      refine freeAddr_wp hu h.super (by rw [hlast']; exact harea) (by rw [hlast']; exact hWl) fun u' hu' hic'' => ?_
      rw [hlast'] at hu'
      refine hend u' (hu'.congr fun b => ?_) ?_
      · rw [hgone]
        simp only [hne, ne_eq, not_false_eq_true, true_and, or_assoc]
      · rw [hic'', hic', hic]
        simp only [FsState.withAddrs, Function.update_self, Function.update_idem]
        congr 3
        funext j
        induction j using Fin.lastCases with
        | last => exact Function.update_self _ _ _
        | cast i => rw [Function.update_of_ne (Fin.ne_of_lt (Fin.castSucc_lt_last i)), hdirect]
  · have hz : (s.icache ip).dinode.addrs (Fin.last NDIRECT) = 0 := by simpa using hz
    refine hend t (ht.congr fun b => ?_) ?_
    · rw [hgone]
      simp only [hz, ne_eq, not_true_eq_false, false_and, or_false]
    · rw [hic]
      congr 1
      funext j
      induction j using Fin.lastCases with
      | last => rw [hlast, hz]
      | cast i => exact hdirect i

/-! ## `iput` -/

/-- `iput` frees the inode of entry `ip`. -/
def Frees (m : Slot → Nat) (s : FsState) (ip : Slot) : Prop :=
  m ip = 1 ∧ (s.icache ip).valid = true ∧ (s.icache ip).dinode.nlink = 0

/-- What the freeing of an inode leaves. -/
structure Discarded (E : Setting) (ip : Slot) (s t : FsState) : Prop where
  io : IoInv E.sb t.io
  view : ∀ x, x ≠ IBLOCK (s.icache ip).inum → x < E.sb.bitmapStart ∨ E.sb.dataStart ≤ x → t.view x = s.view x
  disk : ∀ k, k < E.sb.inodes →
    diskInode t.view k = if k = (s.icache ip).inum then { (s.icache ip).dinode.trunc with type := 0 }
      else diskInode s.view k
  marked : ∀ b, b < E.sb.size → (Marked E.sb t.view b ↔ Marked E.sb s.view b ∧ ¬Gone E s (s.icache ip).inum b)
  ref : (t.icache ip).ref = 0
  other : ∀ jp, jp ≠ ip → t.icache jp = s.icache jp

theorem Discarded.inv (h : Inv E .no m s) (hm : m ip = 1) (hv : (s.icache ip).valid = true) (ht : Discarded E ip s t)
    (hsmall : E.P.exact → (s.icache ip).dinode.addrs (Fin.last NDIRECT) = 0) :
    Inv E .no (drop m ip) t ∧ Stable (drop m ip) s t := by
  have hm₀ : 0 < m ip := by omega
  have hn := h.inum ip hm₀
  have hblk := Superblock.iblock_lt hn
  have hbit := E.ok.bitmap_lt
  have hdrop : ∀ jp, 0 < drop m ip jp → jp ≠ ip ∧ 0 < m jp := by
    intro jp hj
    have hne : jp ≠ ip := by
      rintro rfl
      rw [drop_self] at hj
      omega
    exact ⟨hne, by rwa [drop_of_ne hne] at hj⟩
  have hinum : ∀ jp, jp ≠ ip → 0 < m jp → (s.icache jp).inum ≠ (s.icache ip).inum :=
    fun jp hj hmj he => hj (h.uniq jp ip hmj hm₀ he)
  have hdisk : ∀ jp, jp ≠ ip → 0 < m jp → diskInode t.view (s.icache jp).inum = diskInode s.view (s.icache jp).inum := by
    intro jp hj hmj
    rw [ht.disk _ (h.inum jp hmj), if_neg (hinum jp hj hmj)]
  refine ⟨⟨ht.io, ?_, fun jp => ?_, fun jp kp => ?_, fun jp => ?_, fun jp => ?_, fun jp _ => ?_, fun hs jp _ _ => ?_, ?_⟩, ?_⟩
  · rw [ht.view 1 (by omega) (Or.inl E.sb.one_lt_bitmapStart)]
    exact h.super
  · by_cases hj : jp = ip
    · subst hj
      rw [ht.ref, drop_self, hm]
      rfl
    · rw [ht.other jp hj, drop_of_ne hj]
      exact h.refs jp
  · intro hmj hmk
    obtain ⟨hj, hmj⟩ := hdrop jp hmj
    obtain ⟨hk, hmk⟩ := hdrop kp hmk
    rw [ht.other jp hj, ht.other kp hk]
    exact h.uniq jp kp hmj hmk
  · intro hmj
    obtain ⟨hj, hmj⟩ := hdrop jp hmj
    rw [ht.other jp hj]
    exact h.inum jp hmj
  · intro hmj
    obtain ⟨hj, hmj⟩ := hdrop jp hmj
    rw [ht.other jp hj]
    exact h.typed jp hmj
  · intro hmj
    obtain ⟨hj, hmj⟩ := hdrop jp hmj
    rw [ht.other jp hj]
    intro hvj
    rw [hdisk jp hj hmj]
    exact h.weak jp (by simp) hmj hvj
  · intro hmj
    obtain ⟨hj, hmj⟩ := hdrop jp hmj
    rw [ht.other jp hj]
    intro hvj
    rw [hdisk jp hj hmj]
    exact h.sync hs jp (by simp) (by simp) hmj hvj
  · -- the inode's current copy is the one on disk; the other inodes are as before
    have hcached : ∀ k, k ≠ (s.icache ip).inum → ∀ jp, t.Cached k jp ↔ s.Cached k jp := by
      intro k hk jp
      unfold FsState.Cached
      by_cases hj : jp = ip
      · subst hj
        refine iff_of_false (fun hc => ?_) fun hc => hk hc.2.2.symm
        have := hc.1
        rw [ht.ref] at this
        omega
      · rw [ht.other jp hj]
    have hcur : ∀ k, k < E.sb.inodes → k ≠ (s.icache ip).inum → (t.cur k).Same (s.cur k) := by
      intro k hk₀ hk
      refine FsState.cur_congr (hcached k hk) (fun jp hjc => ?_) fun _ => ?_
      · rw [ht.other jp]
        · exact Dinode.Same.rfl
        · rintro rfl
          exact hk hjc.2.2.symm
      · rw [ht.disk k hk₀, if_neg hk]
        exact Dinode.Same.rfl
    have hself : t.cur (s.icache ip).inum = { (s.icache ip).dinode.trunc with type := 0 } := by
      rw [FsState.cur_disk, ht.disk _ hn, if_pos rfl]
      intro jp hjc
      by_cases hj : jp = ip
      · subst hj
        have := hjc.1
        rw [ht.ref] at this
        omega
      · obtain ⟨hr, -, hi⟩ := hjc
        rw [ht.other jp hj] at hr hi
        have := h.refs jp
        exact hinum jp hj (by omega) hi
    have hother := fun k (hk : k ≠ (s.icache ip).inum) => @filesOf_inode E.sb s.cur t.cur s.view
      t.view k (fun hk₀ => hcur k hk₀ hk) fun p hne => by
        have : E.sb.dataStart ≤ (filesOf E.sb s.cur s.view).addr k p := (h.sound.area k p hne).1
        exact ht.view _ (by omega) (Or.inr this)
    have htype : (t.files E.sb).type (s.icache ip).inum = 0 := by
      unfold FsState.files
      rw [filesOf_type hn, hself]
    refine h.sound.discard E.ok (n := (s.icache ip).inum) (F := Gone E s (s.icache ip).inum) htype
      (fun k hk => (hother k hk).1) (fun k hk => (hother k hk).2.1) (fun p => ?_) (fun k hk => (hother k hk).2.2.1)
      (fun b hb => ?_) (fun b hb => ⟨hb.1, ?_⟩) (fun he p hp => ⟨hp, p, ?_, rfl⟩) fun k hk => (hother k hk).2.2.2
    · unfold FsState.files filesOf
      simp [hself]
    · have := ht.marked b hb
      unfold FsState.files filesOf
      simp only [hb, true_and]
      exact this
    · obtain ⟨-, p, -, hp⟩ := hb
      exact ⟨p, hp⟩
    · -- without index blocks all blocks are at direct addresses
      rw [h.addr_eq hm₀ hv] at hp
      unfold Dinode.addr at hp
      split at hp
      · rename_i hlen
        by_cases hj : p.1 = Fin.last NDIRECT
        · rw [hj, hsmall he] at hp
          exact absurd (walk_zero _) hp
        · simp only [depth, hj, if_false] at hlen
          omega
      · exact absurd rfl hp
  · refine ⟨fun jp hmj => ?_, fun jp hmj hvj => ?_⟩
    · obtain ⟨hj, -⟩ := hdrop jp hmj
      rw [ht.other jp hj]
    · obtain ⟨hj, -⟩ := hdrop jp hmj
      rw [ht.other jp hj]
      exact ⟨hvj, rfl⟩

/-- The inode of a truncated entry is freed on disk. -/
theorem Truncated.discarded (h : Inv E .no m s) (hm : 0 < m ip) {u : FsState}
    (ht : Truncated E ip s t) (hio : IoInv E.sb u.io) (hview : u.view = Function.update t.view (IBLOCK (s.icache ip).inum)
      ((t.view (IBLOCK (s.icache ip).inum)).putDinode ((s.icache ip).inum % IPB)
        { (s.icache ip).dinode.trunc with type := 0 }))
    (href : (u.icache ip).ref = 0) (hic : ∀ jp, jp ≠ ip → u.icache jp = t.icache jp) : Discarded E ip s u := by
  have hn := h.inum ip hm
  have hblk := Superblock.iblock_lt hn
  refine ⟨hio, fun x hx hlow => ?_, fun k hk => ?_, fun b hb => ?_, href, fun jp hj => ?_⟩
  · rw [hview, Function.update_of_ne hx]
    exact ht.view x hx hlow
  · rw [hview, diskInode_put]
    have hblk' := Superblock.iblock_lt hk
    split
    · rfl
    · rename_i hkn
      rw [diskInode_of_put (v := s.view) (n := (s.icache ip).inum) ht.disk, if_neg hkn]
      exact fun hne => ht.view _ hne (Or.inl hblk'.2)
  · rw [← ht.marked b hb]
    have := E.ok.bblock hb
    unfold Marked
    rw [hview, Function.update_of_ne (by omega)]
  · rw [hic jp hj, ht.icache, Function.update_of_ne hj]

theorem Dinode.Weak.addr_or {d e : Dinode} (h : d.Weak e) (v : Nat → Block) (p : Pos) :
    d.addr v p = 0 ∨ d.addr v p = e.addr v p := by
  unfold Dinode.addr
  split
  · rcases h.addrs p.1 with h₀ | h₀
    · rw [h₀]
      exact Or.inl (walk_zero _)
    · rw [h₀]
      exact Or.inr rfl
  · exact Or.inl rfl

/-- A current inode that falls back to a weaker copy loses blocks. -/
theorem sound_weaken (h : (s.files E.sb).Sound E.sb E.P) (hs : ¬E.P.strict) (hview : t.view = s.view)
    (hcur : ∀ k, k < E.sb.inodes → (t.cur k).Weak (s.cur k)) : (t.files E.sb).Sound E.sb E.P := by
  have haddr : ∀ n p, (t.files E.sb).addr n p = 0 ∨ (t.files E.sb).addr n p = (s.files E.sb).addr n p := by
    intro n p
    by_cases hn : n < E.sb.inodes ∧ (s.cur n).type ≠ 0
    · unfold FsState.files
      rw [filesOf_addr hn.1 (by rw [(hcur n hn.1).type]; exact hn.2), filesOf_addr hn.1 hn.2, hview]
      exact (hcur n hn.1).addr_or _ _
    · refine Or.inl ?_
      unfold FsState.files filesOf
      exact if_neg fun hc => hn ⟨hc.1, by rw [← (hcur n hc.1).type]; exact hc.2⟩
  refine h.lose hs (fun he => hs (E.strict he)) ?_ ?_ haddr ?_ (fun n k _ _ => ?_) ?_
  · funext n
    unfold FsState.files filesOf
    dsimp only
    split
    · exact (hcur n ‹_›).type
    · rfl
  · funext n
    unfold FsState.files filesOf
    dsimp only
    split
    · rw [(hcur n ‹_›).size]
    · rfl
  · unfold FsState.files
    rw [hview]
    rfl
  · -- both bytes of the entry's inode number are in one block
    have hblock : ∀ j, j < 2 → (DIRENT * k + j) / BSIZE = DIRENT * k / BSIZE := by
      intro j hj
      simp only [DIRENT, BSIZE]
      omega
    rcases haddr n (blockPos (DIRENT * k / BSIZE)) with h₀ | h₀
    · refine Or.inl ?_
      unfold Files.entry
      rw [le16_zero fun j hj => ?_]
      · rfl
      · unfold FsState.files
        rw [filesOf_byte, hblock j hj, if_pos]
        exact h₀
    · refine Or.inr (Files.entry_congr fun j hj => ?_)
      unfold FsState.files at h₀ ⊢
      rw [filesOf_byte, filesOf_byte, hblock j hj, h₀, hview]
  · unfold Superblock.inodes
    simp only [IPB]
    omega

/-- `ip->ref--`. -/
theorem Inv.unref (h : Inv E .no m s) (hm : 0 < m ip) {i : Inode}
    (hi : i = { s.icache ip with ref := (s.icache ip).ref - 1 }) :
    Inv E .no (drop m ip) (s.setEntry ip i) ∧ Stable (drop m ip) s (s.setEntry ip i) := by
  subst hi
  refine ⟨?_, Stable.entry (fun _ => rfl) fun _ hv => ⟨hv, rfl⟩⟩
  have href := h.refs ip
  have hpos : 0 < drop m ip ip → 0 < m ip := fun _ => hm
  refine h.entry_sound (fun jp hj => drop_of_ne hj) ?_ (fun _ jp hj hmj he => hj (h.uniq jp ip hmj hm he))
    (fun _ => h.inum ip hm) (fun _ hv => ⟨h.typed ip hm hv, fun ha => h.weak ip ha hm hv,
    fun hs ha hb => h.sync hs ip ha hb hm hv⟩) ?_
  · rw [drop_self]
    simp only [href]
    omega
  · by_cases hlast : m ip = 1 ∧ (s.icache ip).valid = true
    · obtain ⟨hm₁, hv⟩ := hlast
      have hnot : ∀ jp, jp ≠ ip → ¬(s.Cached (s.icache ip).inum jp) := fun jp hj hc => by
        obtain ⟨hmj, -, hi⟩ := h.cached_iff.1 hc
        exact hj (h.uniq jp ip hmj hm hi)
      -- the current copy of the inode is now the one on disk
      have hself : (s.setEntry ip { s.icache ip with ref := (s.icache ip).ref - 1 }).cur (s.icache ip).inum =
          diskInode s.view (s.icache ip).inum := by
        refine FsState.cur_disk fun jp hc => ?_
        by_cases hj : jp = ip
        · subst hj
          have := hc.1
          rw [s.setEntry_self] at this
          dsimp only at this
          omega
        · unfold FsState.Cached at hc
          rw [s.setEntry_of_ne _ hj] at hc
          exact hnot jp hj hc
      have hother : ∀ k, k ≠ (s.icache ip).inum →
          ((s.setEntry ip { s.icache ip with ref := (s.icache ip).ref - 1 }).cur k).Same (s.cur k) := by
        intro k hk
        refine FsState.cur_congr (fun jp => ?_) (fun jp hjc => ?_) fun _ => Dinode.Same.rfl
        · unfold FsState.Cached
          by_cases hj : jp = ip
          · subst hj
            exact iff_of_false (fun hc => hk (by simpa using hc.2.2.symm)) fun hc => hk hc.2.2.symm
          · rw [s.setEntry_of_ne _ hj]
        · rw [s.setEntry_of_ne]
          · exact Dinode.Same.rfl
          · rintro rfl
            exact hk hjc.2.2.symm
      by_cases hs : E.P.strict
      · rw [files_congr (s := s) (s.setEntry_view ip _) fun k _ => ?_]
        · exact h.sound
        · by_cases hk : k = (s.icache ip).inum
          · subst hk
            rw [hself, h.cur_eq hm hv]
            exact h.sync hs ip (by simp) (by simp) hm hv
          · exact hother k hk
      · refine sound_weaken h.sound hs (s.setEntry_view ip _) fun k _ => ?_
        by_cases hk : k = (s.icache ip).inum
        · subst hk
          rw [hself, h.cur_eq hm hv]
          exact h.weak ip (by simp) hm hv
        · exact (hother k hk).weak
    · rw [files_congr (s := s) (s.setEntry_view ip _) fun k _ => ?_]
      · exact h.sound
      · by_cases hv : (s.icache ip).valid = true
        · refine cur_setEntry (i := { s.icache ip with ref := (s.icache ip).ref - 1 }) rfl ?_ Dinode.Same.rfl k
          simp only [hv, and_true] at hlast ⊢
          omega
        · exact cur_setEntry_invalid (i := { s.icache ip with ref := (s.icache ip).ref - 1 }) (fun hc => hv hc.2)
            (fun hc => hv hc.2) k

/-- **`iput`** drops a pointer; the last one to an inode without links frees it. -/
theorem wp_iput (h : Inv E .no m s) (hm : 0 < m ip)
    (hW : Frees m s ip → E.W (IBLOCK (s.icache ip).inum) ∧
      ∀ b, Gone E s (s.icache ip).inum b → E.W (BBLOCK b E.sb.ninodes)) {Q : Unit → FsState → Prop}
    (hQ : ∀ t, Inv E .no (drop m ip) t → Stable (drop m ip) s t → Q () t) : Wp E.C (iput ip) Q s := by
  rw [iput, wp_bind, inode_wp, wp_ite]
  refine ⟨fun hfree => ?_, fun _ => ?_⟩
  · have hfrees : Frees m s ip := by
      refine ⟨?_, hfree.2⟩
      have := h.refs ip
      omega
    obtain ⟨hWi, hWb⟩ := hW hfrees
    rw [wp_ite]
    refine ⟨fun _ => ?_, fun _ => ?_⟩
    · rw [wp_bind, wp_panic]
      exact E.fail _
    · obtain ⟨h₁, hst, hcur⟩ := h.fields hm (i := { s.icache ip with busy := true }) rfl rfl rfl Dinode.Same.rfl
      rw [wp_bind, setInode_wp, wp_bind]
      generalize hs₁ : s.setEntry ip { s.icache ip with busy := true } = s₁ at h₁ hst hcur
      have hentry : s₁.icache ip = { s.icache ip with busy := true } := by rw [← hs₁, s.setEntry_self]
      have hinum : (s₁.icache ip).inum = (s.icache ip).inum := by rw [hentry]
      have hgone : Gone E s₁ (s₁.icache ip).inum = Gone E s (s.icache ip).inum := by
        unfold Gone
        rw [hinum, files_congr (s := s) (t := s₁) (by rw [← hs₁]; rfl) fun k _ => hcur k]
      have hv₁ : (s₁.icache ip).valid = true := by rw [hentry]; exact hfree.2.1
      refine wp_itrunc h₁ hm hv₁ (by rw [hinum]; exact hWi) (by rw [hgone]; exact hWb) fun t hassume ht => ?_
      have hblk := Superblock.iblock_lt (h₁.inum ip hm)
      have hbit := E.ok.bitmap_lt
      have hdata := E.ok.data_le
      have htentry : t.icache ip = { s₁.icache ip with dinode := (s₁.icache ip).dinode.trunc } := by
        rw [ht.icache, Function.update_self]
      simp only [iupdate, wp_bind, setDinode_wp, inode_wp, wp_liftM, wp_bread, setInode_wp]
      rw [FsState.setEntry_self, FsState.setEntry_io, htentry]
      dsimp only
      refine wp_logWrite ht.io (by omega) (by rw [hinum]; exact hWi) fun io' hio hview => ?_
      have href : (s₁.icache ip).ref = 1 := by rw [hentry]; exact hfree.1
      have hend : ∀ u : FsState, u.io = io' → (u.icache ip).ref = 0 → (∀ jp, jp ≠ ip → u.icache jp = t.icache jp) →
          Q () u := by
        intro u hu hr hj
        have hview' : u.view = io'.view := by
          unfold FsState.view
          rw [hu]
        obtain ⟨hinv, hst'⟩ := (ht.discarded h₁ hm (u := u) (by rw [hu]; exact hio) (hview'.trans hview) hr hj).inv h₁
          hfrees.1 hv₁ fun he => E.small he _ _ hassume
        exact hQ u hinv ((hst.mono fun jp => drop_le m ip jp).trans hst')
      refine hend _ rfl ?_ fun jp hj => ?_
      · simp [FsState.setEntry, href]
      · simp [FsState.setEntry, hj]
  · obtain ⟨hinv, hst⟩ := h.unref hm rfl
    rw [setInode_wp]
    exact hQ _ hinv hst

theorem wp_iunlockput (h : Inv E .no m s) (hm : 0 < m ip)
    (hW : Frees m s ip → E.W (IBLOCK (s.icache ip).inum) ∧
      ∀ b, Gone E s (s.icache ip).inum b → E.W (BBLOCK b E.sb.ninodes)) {Q : Unit → FsState → Prop}
    (hQ : ∀ t, Inv E .no (drop m ip) t → Stable (drop m ip) s t → Q () t) : Wp E.C (iunlockput ip) Q s := by
  rw [iunlockput, wp_bind]
  refine wp_iunlock h hm fun t ht hinv hst hcur => ?_
  have hentry : t.icache ip = { s.icache ip with busy := false } := by rw [ht, s.setEntry_self]
  have hfiles : t.files E.sb = s.files E.sb := files_congr (by rw [ht]; rfl) fun k _ => hcur k
  refine wp_iput hinv hm ?_ fun u hu hst' => hQ u hu ((hst.mono fun jp => drop_le m ip jp).trans hst')
  unfold Frees Gone at *
  rw [hentry, hfiles]
  exact hW

end Free

end NewXv6
