import NewXv6.Sys.Blocks

/-!
# The bitmap and the files

A disk is balanced when as many blocks are marked as there are reserved blocks and blocks of files. Discarding an inode
keeps that when it frees every block the inode owns, which it does exactly when no block lies below two indices; files
that large leak (`discard_balanced`).
-/

namespace NewXv6

open Lib

/-- As many blocks are marked as are reserved or belong to a file. -/
def Files.Balanced (sb : Superblock) (P : Policy) (f : Files) : Prop :=
  {b | b < sb.size ∧ f.used b}.ncard =
    {b | b < sb.size ∧ P.Reserved sb b}.ncard + {x : Nat × Pos | f.addr x.1 x.2 ≠ 0}.ncard

section

variable {sb : Superblock} {P : Policy} {f : Files}

/-- A block of a file is not reserved. -/
theorem Files.Sound.not_reserved (h : f.Sound sb P) {n : Nat} {p : Pos} (hne : f.addr n p ≠ 0) :
    ¬P.Reserved sb (f.addr n p) := by
  obtain ⟨hlo, hhi⟩ := h.area n p hne
  rintro (hr | ⟨_, hr⟩)
  · omega
  · omega

/-- Where nothing else is marked, the disk is balanced. -/
theorem Files.Sound.balanced (hok : sb.Ok) (h : f.Sound sb P) (he : P.exact) : f.Balanced sb P := by
  have hfin : ∀ S : Set Nat, (∀ b ∈ S, b < sb.size) → S.Finite := fun S hS => (Set.finite_lt_nat sb.size).subset hS
  have hlt : ∀ n p, f.addr n p ≠ 0 → f.addr n p < sb.size := fun n p hne => hok.data_lt (h.area n p hne)
  let owned : Set Nat := (fun x : Nat × Pos => f.addr x.1 x.2) '' {x | f.addr x.1 x.2 ≠ 0}
  have howned : ∀ b ∈ owned, b < sb.size := by
    rintro b ⟨x, hx, rfl⟩
    exact hlt _ _ hx
  have hset : {b | b < sb.size ∧ f.used b} = {b | b < sb.size ∧ P.Reserved sb b} ∪ owned := by
    ext b
    constructor
    · rintro ⟨hb, hu⟩
      rcases h.exact he b hb hu with hr | ⟨n, p, rfl⟩
      · exact Or.inl ⟨hb, hr⟩
      · by_cases hne : f.addr n p = 0
        · refine Or.inl ⟨hb, Or.inl ?_⟩
          rw [hne]
          exact hok.dataStart_pos
        · exact Or.inr ⟨(n, p), hne, rfl⟩
    · rintro (⟨hb, hr⟩ | hb)
      · exact ⟨hb, h.reserved b hb hr⟩
      · refine ⟨howned b hb, ?_⟩
        obtain ⟨x, hx, rfl⟩ := hb
        exact h.used _ _ hx
  have hdisj : Disjoint {b | b < sb.size ∧ P.Reserved sb b} owned := by
    rw [Set.disjoint_left]
    rintro b ⟨_, hr⟩ ⟨x, hx, rfl⟩
    exact h.not_reserved hx hr
  have hcard : owned.ncard = {x : Nat × Pos | f.addr x.1 x.2 ≠ 0}.ncard := by
    refine Set.InjOn.ncard_image fun x hx y _ hxy => ?_
    obtain ⟨hn, hp⟩ := h.inj _ _ _ _ hx hxy
    exact Prod.ext hn hp
  unfold Files.Balanced
  rw [hset, Set.ncard_union_eq hdisj (hfin _ fun b hb => hb.1) (hfin _ howned), hcard]

/-- What discarding an inode does. -/
theorem truncated_of_run {ok : sb.Ok} {m : Slot → Nat} {s t : FsState} {ip : Slot} {w : List Event}
    (hinv : Inv (Setting.plain sb ⟨False, False, False⟩ ok id) .no m s) (hm : 0 < m ip) (hv : (s.icache ip).valid = true)
    (hrun : itrunc ip s = (.ok ((), t), w)) : Truncated (Setting.plain sb ⟨False, False, False⟩ ok id) ip s t := by
  have hwp : Wp (Setting.plain sb ⟨False, False, False⟩ ok id).C (itrunc ip)
      (fun _ t => Truncated (Setting.plain sb ⟨False, False, False⟩ ok id) ip s t) s :=
    wp_itrunc hinv hm hv trivial (fun _ _ => trivial) fun _ _ ht => ht
  -- no block is allocated on the way
  have hquiet := (itrunc_noBalloc (s := s) ip).1.ensure fun _ _ => trivial
  rw [hrun] at hquiet
  refine hwp.run hrun fun x hx => ?_
  cases x with
  | balloc v b => exact (hquiet _ hx).elim
  | itrunc v d => exact False.elim
  | bwrite sector data => trivial
  | logWrite sector => trivial
  | beginOp => trivial
  | endOp => trivial

/-- **Discarding an inode** frees all its blocks exactly when none of them lies below two indices. **Runs** from a disk without
holes and with an exact bitmap keep the disk balanced, where only inodes without index blocks are discarded, and blocks are only
allocated while there is a free one if the log is not marked. -/
theorem discard_balanced (ok : sb.Ok) (logMarked : Prop) :
    (∀ (m : Slot → Nat) (s t : FsState) (ip : Slot) (w : List Event),
      Inv (Setting.plain sb ⟨False, False, False⟩ ok id) .no m s → 0 < m ip → (s.icache ip).valid = true →
      itrunc ip s = (.ok ((), t), w) →
      (FreesAll sb ip s t ↔ ∀ p, (s.files sb).addr (s.icache ip).inum p ≠ 0 → p.2.length ≤ 1)) ∧
    ∀ (image : Nat → Block) (devsw : Nat → Option Devsw) (tr : List (Fin NPROC × Call)) (t : Sys) (w : List Event),
      Image sb ⟨logMarked, True, True⟩ image → machine devsw tr (powerOn image) = (.ok ((), t), w) →
      (∀ v d, .itrunc v d ∈ w → d.addrs (Fin.last NDIRECT) = 0) →
      (∀ v b, .balloc v b ∈ w → logMarked ∨ ∃ x, sb.InData x ∧ ¬Marked sb v x) →
      (t.fs.files sb).Balanced sb ⟨logMarked, True, True⟩ := by
  constructor
  · intro m s t ip w hinv hm hv hrun
    exact Truncated.freesAll_iff hinv (truncated_of_run hinv hm hv hrun)
  · intro image devsw tr t w himage hrun htrunc hroom
    have hinv := (machine_inv himage id devsw tr).run hrun fun x hx => by
      cases x with
      | balloc v b => exact hroom v b hx
      | itrunc v d => exact fun _ => htrunc v d hx
      | bwrite sector data => trivial
      | logWrite sector => trivial
      | beginOp => trivial
      | endOp => trivial
    exact hinv.fs.sound.balanced himage.ok trivial

end

/-! ## Small disks -/

/-- A small disk without holes. -/
theorem smallImage_exact : Image smallSb ⟨True, True, True⟩ (smallImage smallRoot Block.zero) := by
  have htidy := smallImage_tidy smallRoot Block.zero
  have himage := htidy.toImage (small_named (by decide))
  refine ⟨himage.ok, himage.super, himage.log, himage.sound.inj, himage.sound.area, himage.sound.used,
    himage.sound.reserved, himage.sound.free, fun _ n bn ht hlt => ?_, fun _ b hb hu => ?_, himage.sound.dirs⟩
  · have hn : n < smallSb.inodes := by
      by_contra hn
      unfold imageFiles filesOf at ht
      exact ht (if_neg hn)
    unfold imageFiles at ht hlt
    rw [filesOf_type hn, small_inode hn] at ht
    rw [filesOf_size hn, small_inode hn] at hlt
    split at ht
    · subst n
      have hbn : bn = 0 := by
        have : bn * BSIZE < 32 := hlt
        simp only [BSIZE] at this
        omega
      subst bn
      rw [small_addr]
      decide
    · exact absurd rfl ht
  · rcases (htidy.tidy.marks b hb).1 hu with h | h | ⟨n, p, _, h⟩
    · exact Or.inl (Or.inl h)
    · exact Or.inl (Or.inr ⟨trivial, h⟩)
    · exact Or.inr ⟨n, p, h⟩

/-- A disk with more marks and fewer holes than need be. -/
theorem Image.weaken {sb : Superblock} {P : Policy} {image : Nat → Block} (h : Image sb P image) :
    Image sb ⟨False, False, False⟩ image :=
  ⟨h.ok, h.super, h.log, h.sound.inj, h.sound.area, h.sound.used,
    fun b hb hr => h.sound.reserved b hb (hr.imp_right fun hr => hr.1.elim), h.sound.free,
    fun hs => hs.elim, fun he => he.elim, h.sound.dirs⟩

/-- Take inode `n` and lock it, in a transaction. -/
def lockInode (n : Nat) : Kern FsState Slot := do
  liftM beginOp
  let ip ← iget n
  ilock ip
  return ip

/-- What `lockInode` leads to on a disk that was just booted. -/
theorem locked_of_check {sb : Superblock} {P : Policy} {image : Nat → Block} (himage : Image sb P image)
    (strict : P.exact → P.strict) {n : Nat} (hn : n < sb.inodes) {p : Slot → FsState → Bool}
    (h : (match lockInode n (booted sb image).fs with
      | (.ok (ip, s), w) => (w.all fun | .beginOp => true | _ => false) && p ip s
      | (.error _, _) => false) = true) :
    ∃ ip s m, Inv (Setting.plain sb P himage.ok strict) .no m s ∧ 0 < m ip ∧ (s.icache ip).valid = true ∧ p ip s = true := by
  have hwp : Wp (Setting.plain sb P himage.ok strict).C (lockInode n) (fun ip s =>
      ∃ m, Inv (Setting.plain sb P himage.ok strict) .no m s ∧ 0 < m ip ∧ (s.icache ip).valid = true)
      (booted sb image).fs := by
    have hboot := (himage.booted_inv strict).fs
    simp only [lockInode, wp_bind, wp_liftM, wp_pure]
    refine wp_beginOp hboot.io fun io hio hview => ?_
    have hbegun := (hboot.log hio fun x _ => by rw [hview]; rfl).1
    refine wp_iget hbegun hn fun ip s hs _ _ _ _ => ?_
    have hm : 0 < hold (booted sb image).refs ip ip := by
      rw [hold_self]
      omega
    exact wp_ilock hs hm fun t ht _ hv _ _ => ⟨_, ht, hm, hv⟩
  rcases hrun : lockInode n (booted sb image).fs with ⟨_ | ⟨ip, s⟩, w⟩
  · rw [hrun] at h
    cases h
  · rw [hrun] at h
    obtain ⟨hw, hp⟩ := Bool.and_eq_true_iff.1 h
    obtain ⟨m, hinv, hm, hv⟩ := hwp.run hrun fun x hx => by
      have := List.all_eq_true.1 hw x hx
      cases x with
      | beginOp => trivial
      | _ => cases this
    exact ⟨ip, s, m, hinv, hm, hv, hp⟩

theorem discard_balanced_small :
    (∃ s t w, itrunc 0 s = (.ok ((), t), w) ∧
      (FreesAll smallSb 0 s t ↔ ∀ p, (s.files smallSb).addr (s.icache 0).inum p ≠ 0 → p.2.length ≤ 1)) ∧
    ∃ t, Reachable (fun _ => none) (smallImage smallRoot Block.zero) t ∧
      (t.fs.files smallSb).Balanced smallSb ⟨True, True, True⟩ := by
  obtain ⟨htrunc, hrun⟩ := discard_balanced smallSb_ok True
  constructor
  · have himage : Image smallSb ⟨False, False, False⟩ (smallImage smallRoot Block.zero) :=
      smallImage_exact.weaken
    obtain ⟨ip, s, m, hinv, hm, hv, hp⟩ := locked_of_check himage id (n := 1)
      (p := fun ip s => decide (ip = 0) && (itrunc 0).check s fun _ _ => true) (by decide) (by decide +kernel)
    obtain ⟨rfl, hp⟩ := by simpa only [Bool.and_eq_true, decide_eq_true_eq] using hp
    obtain ⟨_, t, w, ht, -⟩ := Prog.run_of_check hp
    exact ⟨s, t, w, ht, htrunc m s t 0 w hinv hm hv ht⟩
  · have hmkdir : (match machine (fun _ => none) [(0, .mkdir (some [97]))] (powerOn (smallImage smallRoot Block.zero)) with
      | (.ok _, w) => w.all fun
        | .itrunc _ d => decide (d.addrs (Fin.last NDIRECT) = 0)
        | _ => true
      | (.error _, _) => false) = true := by decide +kernel
    rcases h : machine (fun _ => none) [(0, .mkdir (some [97]))] (powerOn (smallImage smallRoot Block.zero)) with
      ⟨_ | ⟨_, t⟩, w⟩
    · rw [h] at hmkdir
      cases hmkdir
    · rw [h] at hmkdir
      refine ⟨t, ⟨_, w, h⟩, hrun _ _ _ t w smallImage_exact h (fun v d hd => ?_) fun _ _ _ => Or.inl trivial⟩
      have := List.all_eq_true.1 hmkdir _ hd
      exact of_decide_eq_true this

/-! ## A file with index blocks -/

/-- The inode of a file of 13 blocks, which was unlinked while it was open. -/
def bigInode : Dinode :=
  { Dinode.zero with type := T_FILE, size := 6656, addrs := fun j => .ofNat (5 + j.val) }

/-- A small disk with a file of 13 blocks, whose last block lies below three index blocks. -/
def bigImage (x : Nat) : Block :=
  if x = 2 then (smallImage smallRoot Block.zero 2).putDinode 2 bigInode
  else if x = 3 then (List.range 54).foldl (fun b i => if i < 21 ∨ 24 ≤ i then b.setBit i else b) Block.zero
  else if 17 ≤ x ∧ x < 20 then Block.zero.setWord 0 (.ofNat (x + 1))
  else smallImage smallRoot Block.zero x

/-- The positions of the blocks of the file. -/
def bigTree : List Pos :=
  (List.finRange 13).map (·, []) ++ [(Fin.last NDIRECT, [0]), (Fin.last NDIRECT, [0, 0]), (Fin.last NDIRECT, [0, 0, 0])]

theorem big_inode {n : Nat} (hn : n < smallSb.inodes) : diskInode bigImage n =
    if n = 2 then bigInode else diskInode (smallImage smallRoot Block.zero) n := by
  have hn : n < 8 := hn
  have hb : bigImage (IBLOCK n) = (smallImage smallRoot Block.zero (IBLOCK n)).putDinode 2 bigInode := by
    unfold IBLOCK
    rw [Nat.div_eq_of_lt hn]
    rfl
  unfold diskInode
  rw [hb, Nat.mod_eq_of_lt hn]
  split
  · subst n
    exact Block.getDinode_putDinode_self _ _ (by decide)
  · exact Block.getDinode_putDinode_ne _ _ ‹_›

theorem big_child {x : Nat} (h : 17 ≤ x ∧ x < 20) (k : Nat) : child bigImage x k = if k = 0 then x + 1 else 0 := by
  have hb : bigImage x = Block.zero.setWord 0 (.ofNat (x + 1)) := by
    unfold bigImage
    rw [if_neg (by omega), if_neg (by omega), if_pos h]
  rw [child_apply, hb, Block.word_setWord _ k _ (by decide : 0 < NINDIRECT), Block.word_zero]
  split
  · rw [UInt32.toNat_ofNat_of_lt' (show x + 1 < 2 ^ 32 by omega)]
  · rfl

theorem big_walk (ks : List Nat) {x : Nat} (hlo : 17 ≤ x) (hhi : x + ks.length ≤ 20) :
    walk (child bigImage) x ks = if ks = List.replicate ks.length 0 then x + ks.length else 0 := by
  induction ks generalizing x with
  | nil => rfl
  | cons k ks ih =>
    simp only [List.length_cons] at hhi
    rw [walk, if_neg (by omega), big_child ⟨hlo, by omega⟩]
    simp only [List.length_cons, List.replicate_succ, List.cons.injEq]
    by_cases hk : k = 0
    · rw [if_pos hk, ih (by omega) (by omega)]
      simp only [hk, true_and, show x + 1 + ks.length = x + (ks.length + 1) by omega]
    · rw [if_neg hk, walk_zero, if_neg fun h => hk h.1]

theorem bigInode_addr (p : Pos) : bigInode.addr bigImage p = if p ∈ bigTree then 5 + bigTree.idxOf p else 0 := by
  have hmem : ∀ p ∈ bigTree, p.2.length ≤ depth p.1 ∧ p.2 = List.replicate p.2.length 0 := by decide
  have htree : ∀ (j : Fin (NDIRECT + 1)) i, i < depth j + 1 →
      (j, List.replicate i 0) ∈ bigTree ∧ 5 + bigTree.idxOf (j, List.replicate i 0) = (bigInode.addrs j).toNat + i := by
    decide
  obtain ⟨j, ks⟩ := p
  by_cases hlen : ks.length ≤ depth j
  · have hwalk : walk (child bigImage) (bigInode.addrs j).toNat ks =
        if ks = List.replicate ks.length 0 then (bigInode.addrs j).toNat + ks.length else 0 := by
      cases ks with
      | nil => rfl
      | cons k ks =>
        have hj : j = Fin.last NDIRECT := by
          by_contra hj
          simp [depth, hj] at hlen
        subst hj
        exact big_walk _ (by decide) (Nat.add_le_add_left hlen _)
    rw [Dinode.addr_eq hlen, hwalk]
    by_cases hks : ks = List.replicate ks.length 0
    · obtain ⟨hin, hidx⟩ := htree j ks.length (by omega)
      rw [← hks] at hin hidx
      rw [if_pos hks, if_pos hin, hidx]
    · rw [if_neg hks, if_neg fun h => hks (hmem _ h).2]
  · rw [if_neg fun h => hlen (hmem _ h).1]
    exact if_neg hlen

/-- Without index blocks, what an inode owns does not depend on the disk. -/
theorem addr_direct {d : Dinode} {u v : Nat → Block} (h : d.addrs (Fin.last NDIRECT) = 0) (p : Pos) :
    d.addr u p = d.addr v p := by
  obtain ⟨j, ks⟩ := p
  by_cases hj : j = Fin.last NDIRECT
  · subst hj
    simp [Dinode.addr, h]
  · cases ks with
    | nil => rfl
    | cons k ks => simp [Dinode.addr, depth, hj]

/-- The blocks of the files. -/
theorem big_addr (n : Nat) (p : Pos) : (imageFiles smallSb bigImage).addr n p =
    if n = 1 ∧ p = (0, []) then 4 else if n = 2 ∧ p ∈ bigTree then 5 + bigTree.idxOf p else 0 := by
  have hsame : ∀ m, m ≠ 2 → (imageFiles smallSb bigImage).addr m p =
      (imageFiles smallSb (smallImage smallRoot Block.zero)).addr m p := by
    intro m hm
    unfold imageFiles filesOf
    dsimp only
    by_cases h : m < smallSb.inodes
    · rw [big_inode h, if_neg hm, addr_direct (v := smallImage smallRoot Block.zero)]
      rw [small_inode h]
      split <;> rfl
    · rw [if_neg fun hc => h hc.1, if_neg fun hc => h hc.1]
  by_cases hn : n = 2
  · subst hn
    unfold imageFiles
    rw [filesOf_addr (by decide) (by rw [big_inode (by decide)]; decide), big_inode (by decide), if_pos rfl, bigInode_addr]
    simp
  · rw [hsame n hn, small_addr]
    simp only [hn, false_and, if_false]

/-- All the blocks that are marked belong to a file or are reserved. -/
theorem bigImage_tidy : TidyImage smallSb bigImage := by
  have hidx : ∀ p ∈ bigTree, bigTree.idxOf p < 16 := fun p hp => List.idxOf_lt_length_iff.2 hp
  have hcases : ∀ n p, (imageFiles smallSb bigImage).addr n p ≠ 0 →
      (n = 1 ∧ p = (0, []) ∧ (imageFiles smallSb bigImage).addr n p = 4) ∨
      (n = 2 ∧ p ∈ bigTree ∧ (imageFiles smallSb bigImage).addr n p = 5 + bigTree.idxOf p) := by
    intro n p hne
    rw [big_addr] at hne ⊢
    by_cases h₁ : n = 1 ∧ p = (0, [])
    · exact Or.inl ⟨h₁.1, h₁.2, if_pos h₁⟩
    · rw [if_neg h₁] at hne ⊢
      by_cases h₂ : n = 2 ∧ p ∈ bigTree
      · exact Or.inr ⟨h₂.1, h₂.2, if_pos h₂⟩
      · exact absurd (if_neg h₂) hne
  refine ⟨smallSb_ok, (smallImage_tidy smallRoot Block.zero).super, rfl, fun n p m q hne he => ?_, fun n p hne => ?_,
    fun b hb => ?_⟩
  · have hne' : (imageFiles smallSb bigImage).addr m q ≠ 0 := he ▸ hne
    rcases hcases n p hne with ⟨hn, hp, h⟩ | ⟨hn, hp, h⟩ <;> rcases hcases m q hne' with ⟨hm, hq, h'⟩ | ⟨hm, hq, h'⟩
    · exact ⟨hn.trans hm.symm, hp.trans hq.symm⟩
    · omega
    · omega
    · exact ⟨hn.trans hm.symm, (List.idxOf_inj hp).1 (by omega)⟩
  · rcases hcases n p hne with ⟨-, -, h⟩ | ⟨-, hp, h⟩
    · rw [h]
      exact ⟨by decide, by decide⟩
    · have := hidx p hp
      rw [h]
      refine ⟨?_, ?_⟩
      · show 4 ≤ _
        omega
      · show _ < 24
        omega
  · have hb : b < 54 := hb
    have hmark : ∀ b, b < 54 → (((List.range 54).foldl (fun b i => if i < 21 ∨ 24 ≤ i then b.setBit i else b)
        Block.zero).bit b = true ↔ b < 4 ∨ 24 ≤ b ∨ b = 4 ∨ ∃ p ∈ bigTree, 5 + bigTree.idxOf p = b) := by decide +kernel
    have hblk : bigImage (BBLOCK b smallSb.ninodes) =
        (List.range 54).foldl (fun b i => if i < 21 ∨ 24 ≤ i then b.setBit i else b) Block.zero := by
      unfold BBLOCK
      rw [Nat.div_eq_of_lt (by simp only [BPB, BSIZE]; omega)]
      rfl
    have hused : (imageFiles smallSb bigImage).used b ↔
        b < 4 ∨ 24 ≤ b ∨ b = 4 ∨ ∃ p ∈ bigTree, 5 + bigTree.idxOf p = b := by
      show b < 54 ∧ Marked smallSb bigImage b ↔ _
      unfold Marked
      rw [hblk, Nat.mod_eq_of_lt (by simp only [BPB, BSIZE]; omega), hmark b hb]
      exact and_iff_right hb
    rw [hused]
    refine or_congr_right (or_congr_right ⟨?_, ?_⟩)
    · rintro (rfl | ⟨p, hp, rfl⟩)
      · exact ⟨1, (0, []), by simp [big_addr]⟩
      · exact ⟨2, p, by simp [big_addr, hp]⟩
    · rintro ⟨n, p, hne, rfl⟩
      rcases hcases n p hne with ⟨-, -, h⟩ | ⟨-, hp, h⟩
      · exact Or.inl h
      · exact Or.inr ⟨p, hp, h.symm⟩

theorem big_named : (imageFiles smallSb bigImage).Named smallSb := by
  have hsmall : (imageFiles smallSb (smallImage smallRoot Block.zero)).Named smallSb := small_named (by decide)
  intro n k ht hk
  have hn : n < smallSb.inodes := by
    by_contra hn
    unfold imageFiles filesOf at ht
    dsimp only at ht
    rw [if_neg hn] at ht
    cases ht
  have hne : n ≠ 2 := by
    rintro rfl
    unfold imageFiles at ht
    rw [filesOf_type hn, big_inode hn] at ht
    cases ht
  have hinode : diskInode bigImage n = diskInode (smallImage smallRoot Block.zero) n := by
    rw [big_inode hn, if_neg hne]
  have hbyte : ∀ o, (imageFiles smallSb bigImage).byte n o = (imageFiles smallSb (smallImage smallRoot Block.zero)).byte n o := by
    intro o
    have haddr := big_addr n (blockPos (o / BSIZE))
    have haddr' := small_addr smallRoot Block.zero n (blockPos (o / BSIZE))
    simp only [hne, false_and, if_false] at haddr
    unfold imageFiles at haddr haddr' ⊢
    rw [filesOf_byte, filesOf_byte, haddr, haddr']
    split
    · rfl
    · rfl
  have hentry : (imageFiles smallSb bigImage).entry n k =
      (imageFiles smallSb (smallImage smallRoot Block.zero)).entry n k := by
    unfold Files.entry
    rw [le16_congr fun j _ => hbyte _]
  rw [hentry]
  unfold imageFiles at ht hk
  refine hsmall n k ?_ ?_
  · unfold imageFiles
    rwa [filesOf_type hn, ← hinode, ← filesOf_type (v := bigImage) hn]
  · unfold imageFiles
    rwa [filesOf_size hn, ← hinode, ← filesOf_size (v := bigImage) hn]

/-- What it takes to free the blocks `S` of a small disk: they are marked, and the log has room. -/
structure Freeable (S : Nat → Prop) (io : LogState) : Prop where
  super : (io.view 1).superblock = smallSb
  outstanding : 1 ≤ io.log.outstanding
  size : io.log.size = 30
  sector : io.log.sector = [] ∨ io.log.sector = [3]
  marked : ∀ b, S b → b < 54 ∧ (io.view 3).bit b = true

/-- Runs that do not fail. -/
def whole : Contract Stop Event := ⟨fun _ => True, fun _ => True, fun _ => False⟩

theorem whole_ends {α : Type} {m : Kern FsState α} {Q : α → FsState → Prop} {s : FsState} (h : Wp whole m Q s) :
    ∃ a t w, m s = (.ok (a, t), w) := by
  have hends := h.2 fun _ _ => trivial
  rcases hm : m s with ⟨_ | ⟨a, t⟩, w⟩
  · rw [hm] at hends
    exact hends.elim
  · exact ⟨a, t, w, rfl⟩

theorem Freeable.small {S : Nat → Prop} {io : LogState} (h : Freeable S io) : ¬io.log.tooBig := by
  unfold Log.tooBig
  rw [h.size]
  rcases h.sector with hs | hs <;> rw [hs] <;> decide

theorem Freeable.mono {S S' : Nat → Prop} {io : LogState} (h : Freeable S io) (hS : ∀ b, S' b → S b) : Freeable S' io :=
  ⟨h.super, h.outstanding, h.size, h.sector, fun b hb => h.marked b (hS b hb)⟩

/-- Freeing one of the blocks leaves the others to be freed. -/
theorem Freeable.bfree {S : Nat → Prop} {io : LogState} (h : Freeable S io) {b : UInt32} (hb : S b.toNat)
    {Q : Unit → LogState → Prop}
    (hQ : ∀ io', Freeable (fun x => S x ∧ x ≠ b.toNat) io' → (∀ x, x ≠ 3 → io'.view x = io.view x) → Q () io') :
    Wp whole (bfree b) Q io := by
  obtain ⟨hlt, hbit⟩ := h.marked _ hb
  have hblk : BBLOCK b.toNat smallSb.ninodes = 3 := by
    unfold BBLOCK
    rw [Nat.div_eq_of_lt (by simp only [BPB, BSIZE]; omega)]
    rfl
  have hmod : b.toNat % BPB = b.toNat := Nat.mod_eq_of_lt (by simp only [BPB, BSIZE]; omega)
  have hsmall := h.small
  simp only [NewXv6.bfree, wp_bind, wp_readsb, wp_bread, h.super, hblk, hmod, wp_ite, wp_panic, logWrite, wp_get, wp_modify,
    wp_emit]
  refine ⟨fun _ => ⟨fun hbig => absurd hbig hsmall, fun _ => ⟨fun hout => ?_, fun _ _ => ⟨trivial, ?_⟩⟩⟩,
    fun hno => absurd hbit hno⟩
  · have := h.outstanding
    omega
  · have hview : ∀ x, ({ log := io.log.record 3, bio := io.bio.pin 3 ((io.view 3).clearBit b.toNat) } : LogState).view x =
        Function.update io.view 3 ((io.view 3).clearBit b.toNat) x := fun x => congrFun (Bio.view_pin _ _ _) x
    have hrecord : (io.log.record 3).sector = [3] ∧ (io.log.record 3).size = io.log.size ∧
        (io.log.record 3).outstanding = io.log.outstanding := by
      unfold Log.record
      rcases h.sector with hs | hs <;> simp [hs]
    refine hQ _ ⟨?_, ?_, ?_, Or.inr hrecord.1, fun x hx => ?_⟩ fun x hx => (hview x).trans (Function.update_of_ne hx _ _)
    · rw [hview]
      exact h.super
    · exact hrecord.2.2 ▸ h.outstanding
    · exact hrecord.2.1.trans h.size
    · obtain ⟨hlt, hbit⟩ := h.marked x hx.1
      refine ⟨hlt, ?_⟩
      rw [hview, Function.update_self, Block.bit_clearBit _ _ (by simp only [BPB, BSIZE]; omega), hbit]
      simp [hx.2]

theorem Freeable.freeAddr {S : Nat → Prop} {s : FsState} (h : Freeable S s.io) {ip : Slot} {j : Fin (NDIRECT + 1)}
    (hb : S ((s.icache ip).dinode.addrs j).toNat) {Q : Unit → FsState → Prop}
    (hQ : ∀ t, Freeable (fun x => S x ∧ x ≠ ((s.icache ip).dinode.addrs j).toNat) t.io →
      (∀ x, x ≠ 3 → t.view x = s.view x) →
      (∀ k, k ≠ j → (t.icache ip).dinode.addrs k = (s.icache ip).dinode.addrs k) →
      (t.icache ip).inum = (s.icache ip).inum → Q () t) : Wp whole (freeAddr ip j) Q s := by
  simp only [NewXv6.freeAddr, wp_bind, inode_wp, wp_liftM, setDinode_wp]
  refine h.bfree hb fun io' hio hview => hQ _ hio hview (fun k hk => ?_) ?_
  · rw [FsState.setEntry_self]
    exact Function.update_of_ne hk _ _
  · rw [FsState.setEntry_self]

/-- Discarding the file of 13 blocks does not fail. -/
theorem big_itrunc {s : FsState} {ip : Slot} (h : Freeable (fun b => 5 ≤ b ∧ b < 19) s.io)
    (hd : ∀ j, (s.icache ip).dinode.addrs j = bigInode.addrs j) (hn : (s.icache ip).inum = 2)
    (hw : ∀ j, j < NINDIRECT → (s.view 17).word j = if j = 0 then 18 else 0) :
    Wp whole (itrunc ip) (fun _ _ => True) s := by
  have haddr : ∀ j : Fin (NDIRECT + 1), (bigInode.addrs j).toNat = 5 + j.val := by decide
  simp only [itrunc, wp_bind, inode_wp, wp_get, wp_emit]
  refine fun _ => ⟨trivial, Wp.mono (wp_forEach (fun rest t => rest.Nodup ∧
    Freeable (fun b => b = 17 ∨ b = 18 ∨ ∃ j ∈ rest, b = 5 + j.val) t.io ∧
    (∀ j ∈ rest, (t.icache ip).dinode.addrs j.castSucc = bigInode.addrs j.castSucc) ∧
    (t.icache ip).dinode.addrs (Fin.last NDIRECT) = bigInode.addrs (Fin.last NDIRECT) ∧
    (t.icache ip).inum = 2 ∧ t.view 17 = s.view 17) ?_ _ _ ?_) ?_⟩
  · -- a direct block
    rintro j rest t ⟨hnodup, ht, hdirect, hlast, hinum, hview⟩
    obtain ⟨hj, hrest⟩ := List.nodup_cons.1 hnodup
    have hblock : ((t.icache ip).dinode.addrs j.castSucc).toNat = 5 + j.val := by
      rw [hdirect j List.mem_cons_self, haddr]
      rfl
    simp only [wp_bind, inode_wp, wp_ite, wp_pure]
    refine ⟨fun _ => ht.freeAddr ?_ fun u hu hview' haddrs hinum' => ⟨hrest, hu.mono ?_, ?_, ?_, ?_, ?_⟩, fun hzero => ?_⟩
    · exact Or.inr (Or.inr ⟨j, List.mem_cons_self, hblock⟩)
    · have hj₁₂ : j.val < 12 := j.isLt
      rintro b (rfl | rfl | ⟨k, hk, rfl⟩)
      · exact ⟨Or.inl rfl, by omega⟩
      · exact ⟨Or.inr (Or.inl rfl), by omega⟩
      · refine ⟨Or.inr (Or.inr ⟨k, List.mem_cons_of_mem _ hk, rfl⟩), fun he => hj ?_⟩
        rw [show j = k from Fin.ext (by omega)]
        exact hk
    · intro k hk
      rw [haddrs _ fun he => hj ?_]
      · exact hdirect k (List.mem_cons_of_mem _ hk)
      · rw [← Fin.castSucc_inj.1 he]
        exact hk
    · rw [haddrs _ (Fin.castSucc_lt_last j).ne']
      exact hlast
    · exact hinum'.trans hinum
    · rw [hview' 17 (by decide), hview]
    · simp only [ne_eq, Decidable.not_not] at hzero
      rw [hzero] at hblock
      have : (0 : UInt32).toNat = 0 := rfl
      omega
  · refine ⟨List.nodup_finRange _, h.mono ?_, fun j _ => hd _, hd _, hn, rfl⟩
    rintro b (rfl | rfl | ⟨j, _, rfl⟩)
    · decide
    · decide
    · have : j.val < 12 := j.isLt
      omega
  · -- the index block
    rintro _ t ⟨-, ht, -, hlast, hinum, hview⟩
    have hindex : ((t.icache ip).dinode.addrs (Fin.last NDIRECT)).toNat = 17 := by
      rw [hlast, haddr]
      rfl
    have hfinish : ∀ u : FsState, Freeable (fun _ => False) u.io → (u.icache ip).inum = 2 →
        Wp whole (do setDinode ip fun d => { d with size := 0 }; iupdate ip) (fun _ _ => True) u := by
      intro u hu hinum
      have hsmall := hu.small
      have hout := hu.outstanding
      simp only [wp_bind, setDinode_wp, iupdate, inode_wp, wp_bread, wp_liftM, logWrite, wp_get, wp_ite, wp_panic,
        wp_modify, wp_emit]
      exact ⟨fun hbig => absurd hbig hsmall, fun _ => ⟨fun hno => absurd hout (by simpa using hno), fun _ _ => ⟨trivial, trivial⟩⟩⟩
    simp only [wp_ite, wp_bind, bread_wp]
    refine ⟨fun _ => Wp.mono (wp_forEach (fun rest u => rest.Nodup ∧ (∀ j ∈ rest, j < NINDIRECT) ∧
      Freeable (fun b => b = 17 ∨ (b = 18 ∧ 0 ∈ rest)) u.io ∧ u.icache ip = t.icache ip) ?_ _ _ ?_) ?_, fun hzero => ?_⟩
    · rintro j rest u ⟨hnodup, hlt, hu, hicache⟩
      obtain ⟨hj, hrest⟩ := List.nodup_cons.1 hnodup
      have hword : (t.view ((t.icache ip).dinode.addrs (Fin.last NDIRECT)).toNat).word j = if j = 0 then 18 else 0 := by
        rw [hindex, hview]
        exact hw j (hlt j List.mem_cons_self)
      have hlt' := fun k hk => hlt k (List.mem_cons_of_mem j hk)
      rw [hword]
      by_cases hj₀ : j = 0
      · subst hj₀
        simp only [if_true, wp_ite, wp_liftM, wp_pure]
        refine ⟨fun _ => hu.bfree (Or.inr ⟨rfl, List.mem_cons_self⟩) fun io hio _ => ⟨hrest, hlt', hio.mono ?_, hicache⟩,
          fun hno => absurd hno (by decide)⟩
        rintro b (rfl | ⟨rfl, hb⟩)
        · exact ⟨Or.inl rfl, by decide⟩
        · exact absurd hb hj
      · simp only [hj₀, if_false, ne_eq, not_true_eq_false, wp_pure]
        refine ⟨hrest, hlt', hu.mono ?_, hicache⟩
        rintro b (rfl | ⟨rfl, hb⟩)
        · exact Or.inl rfl
        · exact Or.inr ⟨rfl, List.mem_cons_of_mem _ hb⟩
    · refine ⟨List.nodup_range, fun j hj => List.mem_range.1 hj, ht.mono ?_, rfl⟩
      rintro b (rfl | ⟨rfl, -⟩)
      · exact Or.inl rfl
      · exact Or.inr (Or.inl rfl)
    · rintro _ u ⟨-, -, hu, hicache⟩
      refine hu.freeAddr ?_ fun v hv _ _ hinum' => ?_
      · rw [hicache, hindex]
        exact Or.inl rfl
      · refine (wp_bind _ _ _ _).1 (hfinish v (hv.mono fun _ h => h.elim) ?_)
        rw [hinum', hicache, hinum]
    · simp only [ne_eq, Decidable.not_not] at hzero
      rw [hzero] at hindex
      cases hindex

/-- **Files with index blocks leak**: of a file of 13 blocks, the last block and the index block above it are still marked
when the inode is discarded. -/
theorem itrunc_leaks : ¬∀ (sb : Superblock) (ok : sb.Ok) (m : Slot → Nat) (s t : FsState) (ip : Slot) (w : List Event),
    Inv (Setting.plain sb ⟨False, False, False⟩ ok id) .no m s → 0 < m ip → (s.icache ip).valid = true →
    itrunc ip s = (.ok ((), t), w) → FreesAll sb ip s t := by
  intro hall
  obtain ⟨ip, s, m, hinv, hm, hv, hp⟩ := locked_of_check (bigImage_tidy.toImage big_named).weaken id (n := 2)
    (p := fun ip s => decide ((s.icache ip).inum = 2 ∧ s.io.log.outstanding = 1 ∧ s.io.log.size = 30 ∧
        s.io.log.sector = []) &&
      decide (∀ j, (s.icache ip).dinode.addrs j = bigInode.addrs j) &&
      ((List.range 14).all fun i => (s.view 3).bit (5 + i)) &&
      decide (∀ j, j < NINDIRECT → (s.view 17).word j = if j = 0 then 18 else 0) &&
      decide ((s.icache ip).dinode.addr s.view (Fin.last NDIRECT, [0, 0]) ≠ 0)) (by decide) (by decide +kernel)
  simp only [Bool.and_eq_true, decide_eq_true_eq, List.all_eq_true, List.mem_range] at hp
  obtain ⟨⟨⟨⟨⟨hinum, hout, hsize, hsector⟩, haddrs⟩, hbits⟩, hwords⟩, hdeep⟩ := hp
  have hfree : Freeable (fun b => 5 ≤ b ∧ b < 19) s.io :=
    ⟨hinv.super, hout.ge, hsize, Or.inl hsector, fun b hb => ⟨by omega, Nat.add_sub_cancel' hb.1 ▸ hbits (b - 5) (by omega)⟩⟩
  obtain ⟨_, t, w, ht⟩ := whole_ends (big_itrunc hfree haddrs hinum hwords)
  rw [← hinv.addr_eq hm hv] at hdeep
  -- nothing below two indices is freed
  have hlen := (Truncated.freesAll_iff hinv (truncated_of_run hinv hm hv ht)).1 (hall _ _ m s t ip w hinv hm hv ht) _ hdeep
  exact absurd hlen (by decide)

end NewXv6
