import NewXv6.Mkfs.Place
import NewXv6.Fs.View

/-!
# What `iappend` adds to a file

The image is read as files (`State.files`), with the inode that `iappend` holds in memory. A block that it takes for an
address or an index block links a blank block to the file (`Wider`), a round writes one block of it, and `iappend` adds its
bytes at the end of the file and changes no other file (`iappend_content`).
-/

namespace NewXv6

open Lib

namespace Mkfs

namespace State

variable {s t : State} {f g e : Files} {inum n : Nat} {din : Dinode} {p : Pos}

/-- The files of the image, with the inode `inum` that is in memory. -/
def files (s : State) (inum : Nat) (din : Dinode) : Files := filesOf sb (Function.update s.rinode inum din) s.disk

/-- The files of the image. -/
def image (s : State) : Files := filesOf sb s.rinode s.disk

/-- The blocks of files are different blocks in use, and the blocks that are not in use are blank. -/
structure Laid (s : State) (f : Files) : Prop where
  inj : ∀ n p m q, f.addr n p ≠ 0 → f.addr n p = f.addr m q → n = m ∧ p = q
  area : ∀ n p, f.addr n p ≠ 0 → metablocks ≤ f.addr n p ∧ f.addr n p < s.freeblock
  free : metablocks ≤ s.freeblock
  blank : ∀ b, s.freeblock ≤ b → s.disk b = Block.zero
  super : s.disk 1 = format.disk 1

/-- One position of a tree is above another. -/
def Above (q p : Pos) : Prop := q.1 = p.1 ∧ q.2 <+: p.2

theorem Above.refl (p : Pos) : Above p p := ⟨rfl, List.prefix_rfl⟩

theorem Above.trans {q : Pos} {r : Pos} (h : Above r q) (h' : Above q p) : Above r p := ⟨h.1.trans h'.1, h.2.trans h'.2⟩

theorem Above.snoc (j : Fin (NDIRECT + 1)) (ks : List Nat) (k : Nat) : Above (j, ks) (j, ks ++ [k]) := ⟨rfl, List.prefix_append _ _⟩

/-- A data block is above no other. -/
theorem Above.blockPos {bn bm : Nat} (h : Above (blockPos bn) (blockPos bm)) : bn = bm := by
  refine blockPos_inj (Prod.ext h.1 (h.2.eq_of_length ?_))
  rw [blockPos_depth, blockPos_depth, h.1]

/-- File `n` has got blocks without bytes, at `p` and above. -/
structure Wider (n : Nat) (p : Pos) (f g : Files) : Prop where
  type : g.type = f.type
  size : g.size = f.size
  byte : g.byte = f.byte
  addr : ∀ m q, f.addr m q ≠ 0 → g.addr m q = f.addr m q
  other : ∀ m q, ¬(m = n ∧ Above q p) → g.addr m q = f.addr m q

theorem Wider.refl (n : Nat) (p : Pos) (f : Files) : Wider n p f f := ⟨rfl, rfl, rfl, fun _ _ _ => rfl, fun _ _ _ => rfl⟩

theorem Wider.trans {q : Pos} (h : Wider n p f g) (hpq : Above p q) (h' : Wider n q g e) : Wider n q f e := by
  refine ⟨h'.type.trans h.type, h'.size.trans h.size, h'.byte.trans h.byte, fun m r hne => ?_, fun m r hno => ?_⟩
  · have hg := h.addr m r hne
    rw [h'.addr m r (by rw [hg]; exact hne), hg]
  · rw [h'.other m r hno, h.other m r fun hm => hno ⟨hm.1, hm.2.trans hpq⟩]

theorem files_self (s : State) (inum : Nat) : s.files inum (s.rinode inum) = s.image := by
  unfold files
  rw [Function.update_eq_self]
  rfl

theorem inodes_eq : sb.inodes = 208 := by decide

/-- A file gets the next block. -/
theorem Laid.link (h : Laid s f) (hfree : t.freeblock = s.freeblock + 1)
    (hblank : ∀ b, t.freeblock ≤ b → t.disk b = s.disk b) (hsuper : t.disk 1 = s.disk 1)
    (haddr : ∀ m q, g.addr m q = if m = n ∧ q = p then s.freeblock else f.addr m q) : Laid t g := by
  have hnew : ∀ m q, f.addr m q ≠ s.freeblock := fun m q he => by
    have hmeta := metablocks_eq
    have hfree := h.free
    have hne : f.addr m q ≠ 0 := by rw [he]; omega
    have harea := (h.area m q hne).2
    omega
  refine ⟨fun m q m' q' hne he => ?_, fun m q hne => ?_, ?_, fun b hb => ?_, hsuper.trans h.super⟩
  · rw [haddr] at hne
    rw [haddr, haddr] at he
    by_cases hmq : m = n ∧ q = p
    · rw [if_pos hmq] at he
      by_cases hmq' : m' = n ∧ q' = p
      · exact ⟨hmq.1.trans hmq'.1.symm, hmq.2.trans hmq'.2.symm⟩
      · rw [if_neg hmq'] at he
        exact absurd he.symm (hnew _ _)
    · rw [if_neg hmq] at hne he
      by_cases hmq' : m' = n ∧ q' = p
      · rw [if_pos hmq'] at he
        exact absurd he (hnew _ _)
      · rw [if_neg hmq'] at he
        exact h.inj m q m' q' hne he
  · rw [haddr] at hne ⊢
    rw [hfree]
    split
    · exact ⟨h.free, Nat.lt_succ_self _⟩
    · rw [if_neg ‹_›] at hne
      exact ⟨(h.area m q hne).1, Nat.lt_succ_of_lt (h.area m q hne).2⟩
  · rw [hfree]
    exact Nat.le_succ_of_le h.free
  · rw [hblank b hb]
    exact h.blank b (by omega)

theorem Wider.link (htype : g.type = f.type) (hsize : g.size = f.size) (hbyte : g.byte = f.byte) (hp : f.addr n p = 0)
    {b : Nat} (haddr : ∀ m q, g.addr m q = if m = n ∧ q = p then b else f.addr m q) : Wider n p f g := by
  refine ⟨htype, hsize, hbyte, fun m q hne => ?_, fun m q hno => ?_⟩
  · rw [haddr, if_neg]
    rintro ⟨rfl, rfl⟩
    exact hne hp
  · rw [haddr, if_neg]
    rintro ⟨rfl, rfl⟩
    exact hno ⟨rfl, .refl _⟩

/-- What a block of a file has been found to be. -/
structure Found (s : State) (inum : Nat) (din : Dinode) (p : Pos) (b : Nat) (t : State) (din' : Dinode) : Prop where
  laid : Laid t (t.files inum din')
  wider : Wider inum p (s.files inum din) (t.files inum din')
  addr : (t.files inum din').addr inum p = b
  ne : b ≠ 0
  type : din'.type = din.type
  size : din'.size = din.size

/-- **An address of the inode.** -/
theorem address_found (h : Laid s (s.files inum din)) (hn : inum < sb.inodes) (ht : din.type ≠ 0)
    (j : Fin (NDIRECT + 1)) (hfew : (s.address din j).2.2.freeblock < 2 ^ 32) :
    Found s inum din (j, []) (s.address din j).1 (s.address din j).2.2 (s.address din j).2.1 := by
  unfold address at hfew ⊢
  have hself : Function.update s.rinode inum din inum = din := Function.update_self ..
  by_cases hzero : din.addrs j = 0
  · rw [if_pos hzero] at hfew ⊢
    have hlt : s.freeblock < 2 ^ 32 := Nat.lt_of_succ_lt hfew
    have hne : s.freeblock ≠ 0 := by
      have hmeta := metablocks_eq
      have hfree := h.free
      omega
    obtain ⟨htype, hsize, haddr, hbyte⟩ := @filesOf_link_root sb (Function.update s.rinode inum din)
      (Function.update s.rinode inum { din with addrs := Function.update din.addrs j (.ofNat s.freeblock) }) s.disk s.disk
      inum s.freeblock j hn (by rw [hself]; exact ht) (by rw [hself]; exact hzero) hlt (h.blank _ (Nat.le_refl _))
      (fun m _ hm => by rw [Function.update_of_ne hm, Function.update_of_ne hm]; exact .rfl)
      (by rw [hself, Function.update_self]; exact .rfl) (fun _ _ _ => rfl)
    have hp : (s.files inum din).addr inum (j, []) = 0 := by
      unfold files
      rw [filesOf_addr hn (by rw [hself]; exact ht), hself, Dinode.addr_eq (Nat.zero_le _), hzero]
      rfl
    refine ⟨h.link (n := inum) (p := (j, [])) rfl (fun _ _ => rfl) rfl haddr, .link htype hsize hbyte hp haddr, ?_, hne, rfl, rfl⟩
    exact (haddr inum (j, [])).trans (if_pos ⟨rfl, rfl⟩)
  · rw [if_neg hzero] at hfew ⊢
    refine ⟨h, .refl _ _ _, ?_, fun he => hzero (UInt32.toNat_inj.1 he), rfl, rfl⟩
    dsimp only
    unfold files
    rw [filesOf_addr hn (by rw [hself]; exact ht), hself, Dinode.addr_eq (Nat.zero_le _)]
    rfl

/-- A block of a file is written: the inodes stay. -/
theorem files_wsect {b : Nat} {buf : Block} (hb : metablocks ≤ b) :
    (s.wsect b buf).files inum din = filesOf sb (Function.update s.rinode inum din) (s.wsect b buf).disk := by
  refine filesOf_congr (fun m hm => ?_) (fun _ _ _ => rfl) fun _ _ => Iff.rfl
  have hmeta := metablocks_eq
  have hinodes := inodes_eq
  have hsec : i2b m < 29 := i2b_lt (by omega)
  by_cases hmn : m = inum
  · rw [hmn, Function.update_self, Function.update_self]
    exact .rfl
  · rw [Function.update_of_ne hmn, Function.update_of_ne hmn, rinode_wsect s buf (by omega)]
    exact .rfl

/-- **An entry of an index block.** -/
theorem indirect_found (h : Laid s (s.files inum din)) (hn : inum < sb.inodes) (ht : din.type ≠ 0)
    {j : Fin (NDIRECT + 1)} {ks : List Nat} {a k : Nat} (ha : (s.files inum din).addr inum (j, ks) = a) (ha₀ : a ≠ 0)
    (hks : ks.length < depth j) (hk : k < NINDIRECT) (hfew : (s.indirect a k).2.freeblock < 2 ^ 32) :
    Found s inum din (j, ks ++ [k]) (s.indirect a k).1 (s.indirect a k).2 din := by
  have hself : Function.update s.rinode inum din inum = din := Function.update_self ..
  have hchild : (s.files inum din).addr inum (j, ks ++ [k]) = ((s.disk a).word k).toNat := by
    unfold files at ha ⊢
    rw [filesOf_addr hn (by rw [hself]; exact ht), hself, Dinode.addr_eq (Nat.le_of_lt hks)] at ha
    rw [filesOf_addr hn (by rw [hself]; exact ht), hself,
      Dinode.addr_eq (p := (j, ks ++ [k])) (by rw [List.length_append, List.length_singleton]; exact hks), walk_snoc, ha,
      if_neg ha₀]
    rfl
  have harea := h.area inum (j, ks) (by rw [ha]; exact ha₀)
  rw [ha] at harea
  unfold indirect at hfew ⊢
  by_cases hzero : (s.rsect a).word k = 0
  · rw [if_pos hzero] at hfew ⊢
    have hlt : s.freeblock < 2 ^ 32 := Nat.lt_of_succ_lt hfew
    have hne : s.freeblock ≠ 0 := by
      have hmeta := metablocks_eq
      have hfree := h.free
      omega
    have hp : (s.files inum din).addr inum (j, ks ++ [k]) = 0 := by
      rw [hchild]
      exact congrArg UInt32.toNat hzero
    have hother : ∀ b, b ≠ a → (s.wsect a ((s.rsect a).setWord k (.ofNat s.freeblock))).disk b = s.disk b := fun b hb =>
      Function.update_of_ne hb _ _
    obtain ⟨haddr, hbyte⟩ := @filesOf_link_index sb (Function.update s.rinode inum din) s.disk
      (s.wsect a ((s.rsect a).setWord k (.ofNat s.freeblock))).disk h.inj inum s.freeblock k j ks hks
      (by show (s.files inum din).addr inum (j, ks) ≠ 0; rw [ha]; exact ha₀) hp hk hlt
      (by show _ = (s.disk ((s.files inum din).addr inum (j, ks))).setWord k _
          show (s.wsect a _).disk ((s.files inum din).addr inum (j, ks)) = _
          rw [ha]; exact Function.update_self ..)
      (by rw [hother _ (Nat.ne_of_gt harea.2)]; exact h.blank _ (Nat.le_refl _))
      (fun m q _ hmq => hother _ (by rw [← ha]; exact hmq))
    have hfiles : (s.take.2.wsect a ((s.rsect a).setWord k (.ofNat s.take.1))).files inum din =
        filesOf sb (Function.update s.rinode inum din) (s.wsect a ((s.rsect a).setWord k (.ofNat s.freeblock))).disk :=
      files_wsect harea.1
    dsimp only
    refine ⟨?_, ?_, ?_, hne, rfl, rfl⟩
    · rw [hfiles]
      refine h.link (n := inum) (p := (j, ks ++ [k])) rfl (fun b hb => hother b ?_) (hother 1 ?_) haddr
      · have hb' : s.freeblock + 1 ≤ b := hb
        omega
      · have hmeta := metablocks_eq
        omega
    · rw [hfiles]
      exact .link rfl rfl hbyte hp haddr
    · rw [hfiles]
      exact (haddr inum (j, ks ++ [k])).trans (if_pos ⟨rfl, rfl⟩)
  · rw [if_neg hzero] at hfew ⊢
    exact ⟨h, .refl _ _ _, hchild, fun he => hzero (UInt32.toNat_inj.1 he), rfl, rfl⟩

theorem Found.trans {a b : Nat} {q : Pos} {u : State} {din' din'' : Dinode} (h : Found s inum din p a t din')
    (hpq : Above p q) (h' : Found t inum din' q b u din'') : Found s inum din q b u din'' :=
  ⟨h'.laid, h.wider.trans hpq h'.wider, h'.addr, h'.ne, h'.type.trans h.type, h'.size.trans h.size⟩

/-- The most blocks a file can have. -/
abbrev maxBlocks : Nat := NDIRECT + NINDIRECT * NINDIRECT * NINDIRECT

/-- **The data block of `iappend`** is where `bmap` looks for it. -/
theorem fileBlock_found (h : Laid s (s.files inum din)) (hn : inum < sb.inodes) (ht : din.type ≠ 0) {fbn : Nat}
    (hfbn : fbn < maxBlocks) (hfew : (s.fileBlock din fbn).2.2.freeblock < 2 ^ 32) :
    Found s inum din (blockPos fbn) (s.fileBlock din fbn).1 (s.fileBlock din fbn).2.2 (s.fileBlock din fbn).2.1 := by
  unfold fileBlock at hfew ⊢
  unfold blockPos
  by_cases hlt : fbn < NDIRECT
  · rw [dif_pos hlt] at hfew
    rw [dif_pos hlt, dif_pos hlt]
    exact address_found h hn ht _ hfew
  · rw [dif_neg hlt] at hfew
    rw [dif_neg hlt, dif_neg hlt]
    dsimp only at hfew ⊢
    have hdepth : depth (Fin.last NDIRECT) = 3 := if_pos rfl
    have hmod : ∀ x, x % 128 < NINDIRECT := fun x => Nat.mod_lt x (by decide)
    -- the outer index is less than 128, so it is not reduced
    have htop : (fbn - NDIRECT) / 128 / 128 % 128 = (fbn - NDIRECT) / NINDIRECT / NINDIRECT := by
      simp only [maxBlocks, NDIRECT, NINDIRECT] at *
      omega
    have hmod₂ := hmod ((fbn - NDIRECT) / 128)
    have hmod₁ := hmod (fbn - NDIRECT)
    have hmod₃ := hmod ((fbn - NDIRECT) / 128 / 128)
    rw [← htop]
    show Found s inum din (_, [_, (fbn - NDIRECT) / 128 % 128, (fbn - NDIRECT) % 128]) _ _ _
    generalize (fbn - NDIRECT) / 128 / 128 % 128 = k₃ at hmod₃ hfew ⊢
    generalize (fbn - NDIRECT) / 128 % 128 = k₂ at hmod₂ hfew ⊢
    generalize (fbn - NDIRECT) % 128 = k₁ at hmod₁ hfew ⊢
    rw [Nat.mod_eq_of_lt (show k₃ < 128 from hmod₃)]
    have hfew₃ := Nat.lt_of_le_of_lt (later_indirect _ _ _).le hfew
    have hfew₂ := Nat.lt_of_le_of_lt (later_indirect _ _ _).le hfew₃
    have hfew₁ := Nat.lt_of_le_of_lt (later_indirect _ _ _).le hfew₂
    have h₁ := address_found h hn ht (Fin.last NDIRECT) hfew₁
    have ht₁ : (s.address din (Fin.last NDIRECT)).2.1.type ≠ 0 := by
      rw [h₁.type]
      exact ht
    have h₂ := indirect_found h₁.laid hn ht₁ h₁.addr h₁.ne (by rw [hdepth]; exact Nat.zero_lt_succ 2) hmod₃ hfew₂
    have h₃ := indirect_found h₂.laid hn ht₁ h₂.addr h₂.ne (by rw [hdepth]; exact Nat.lt_of_sub_eq_succ rfl) hmod₂ hfew₃
    have h₄ := indirect_found h₃.laid hn ht₁ h₃.addr h₃.ne (by rw [hdepth]; exact Nat.lt_of_sub_eq_succ rfl) hmod₁ hfew
    rw [List.nil_append] at h₂ h₃ h₄
    have habove : ∀ {ks ls : List Nat}, ks <+: ls → Above (Fin.last NDIRECT, ks) (Fin.last NDIRECT, ls) := fun h => ⟨rfl, h⟩
    have h₁₂ := h₁.trans (habove List.nil_prefix) h₂
    have h₁₃ := h₁₂.trans (habove (List.prefix_append _ _)) h₃
    have h₁₄ := h₁₃.trans (habove (List.prefix_append _ _)) h₄
    simp only [List.cons_append, List.nil_append] at h₁₄
    exact h₁₄

/-! ## The bytes -/

/-- The bytes `p` are in file `n` from `off` on, with blocks for them, and nothing else has changed. -/
structure Added (n off : Nat) (p : List UInt8) (f g : Files) : Prop where
  type : g.type = f.type
  size : g.size = f.size
  byte : ∀ o, g.byte n o = if off ≤ o ∧ o < off + p.length then p.getD (o - off) 0 else f.byte n o
  addr : ∀ o, off ≤ o → o < off + p.length → g.addr n (blockPos (o / BSIZE)) ≠ 0
  keep : ∀ q, f.addr n q ≠ 0 → g.addr n q = f.addr n q
  rest : ∀ bn, (∀ o, off ≤ o → o < off + p.length → o / BSIZE ≠ bn) → g.addr n (blockPos bn) = f.addr n (blockPos bn)
  other : ∀ m, m ≠ n → g.addr m = f.addr m ∧ g.byte m = f.byte m

theorem Added.nil (n off : Nat) (f : Files) : Added n off [] f f := by
  refine ⟨rfl, rfl, fun o => ?_, fun o h₁ h₂ => ?_, fun _ _ => rfl, fun _ _ => rfl, fun _ _ => ⟨rfl, rfl⟩⟩
  · rw [if_neg]
    rintro ⟨h₁, h₂⟩
    rw [List.length_nil] at h₂
    omega
  · rw [List.length_nil] at h₂
    omega

/-- The first `k` bytes, and then the rest. -/
theorem Added.append {off k : Nat} {bs : List UInt8} (hk : k ≤ bs.length) (h : Added n off (bs.take k) f g)
    (h' : Added n (off + k) (bs.drop k) g e) : Added n off bs f e := by
  have hlen : (bs.take k).length = k := List.length_take_of_le hk
  have hlen' : (bs.drop k).length = bs.length - k := List.length_drop
  refine ⟨h'.type.trans h.type, h'.size.trans h.size, fun o => ?_, fun o h₁ h₂ => ?_, fun q hne => ?_, fun bn hno => ?_,
    fun m hm => ?_⟩
  · rw [h'.byte, h.byte, hlen, hlen']
    by_cases hrest : off + k ≤ o ∧ o < off + k + (bs.length - k)
    · rw [if_pos hrest, if_pos (by omega), List.getD_eq_getElem?_getD, List.getD_eq_getElem?_getD, List.getElem?_drop]
      congr 2
      omega
    · rw [if_neg hrest]
      by_cases hfirst : off ≤ o ∧ o < off + k
      · rw [if_pos hfirst, if_pos (by omega), List.getD_eq_getElem?_getD, List.getD_eq_getElem?_getD,
          List.getElem?_take_of_lt (by omega)]
      · rw [if_neg hfirst, if_neg (by omega)]
  · by_cases hfirst : o < off + k
    · have hne := h.addr o h₁ (by rw [hlen]; exact hfirst)
      rw [h'.keep _ hne]
      exact hne
    · exact h'.addr o (by omega) (by rw [hlen']; omega)
  · have hg := h.keep q hne
    rw [h'.keep q (by rw [hg]; exact hne), hg]
  · rw [h'.rest bn fun o h₁ h₂ => hno o (by omega) (by omega), h.rest bn fun o h₁ h₂ => hno o h₁ (by omega)]
  · obtain ⟨ha, hb⟩ := h.other m hm
    obtain ⟨ha', hb'⟩ := h'.other m hm
    exact ⟨ha'.trans ha, hb'.trans hb⟩

theorem Wider.added {off : Nat} {bs : List UInt8} (h : Wider n (blockPos (off / BSIZE)) f g) (hbs : bs ≠ [])
    (h' : Added n off bs g e) : Added n off bs f e := by
  have hlen := List.length_pos_iff.2 hbs
  refine ⟨h'.type.trans h.type, h'.size.trans h.size, fun o => ?_, h'.addr, fun q hne => ?_, fun bn hno => ?_, fun m hm => ?_⟩
  · rw [h'.byte, h.byte]
  · have hg := h.addr n q hne
    rw [h'.keep q (by rw [hg]; exact hne), hg]
  · rw [h'.rest bn hno, h.other n _ fun habove => hno off (Nat.le_refl _) (by omega) habove.2.blockPos.symm]
  · obtain ⟨ha, hb⟩ := h'.other m hm
    exact ⟨ha.trans (funext fun q => h.other m q fun hc => hm hc.1), hb.trans (by rw [h.byte])⟩

/-- The bitmap is before the blocks of files. -/
theorem marked_wsect {x b : Nat} {buf : Block} (hx : metablocks ≤ x) (hb : b < sb.size) :
    Marked sb (s.wsect x buf).disk b ↔ Marked sb s.disk b := by
  have hmeta := metablocks_eq
  have hsize : b < 1024 * 1024 := hb
  have hsec : BBLOCK b sb.ninodes ≠ x := by
    show b / 4096 + 200 / 8 + 3 ≠ x
    omega
  unfold Marked wsect
  dsimp only
  rw [Function.update_of_ne hsec]

/-- **A round of `iappend`** writes bytes of one block. -/
theorem wsect_added (h : Laid s (s.files inum din)) {off k x : Nat} {bs : List UInt8}
    (hx : (s.files inum din).addr inum (blockPos (off / 512)) = x) (hx₀ : x ≠ 0) (hk : k ≤ bs.length)
    (hend : off + k ≤ (off / 512 + 1) * 512) :
    Laid (s.wsect x ((s.rsect x).put (off - off / 512 * 512) k fun j => bs.getD j 0))
        ((s.wsect x ((s.rsect x).put (off - off / 512 * 512) k fun j => bs.getD j 0)).files inum din) ∧
      Added inum off (bs.take k) (s.files inum din)
        ((s.wsect x ((s.rsect x).put (off - off / 512 * 512) k fun j => bs.getD j 0)).files inum din) := by
  generalize hbuf : (s.rsect x).put (off - off / 512 * 512) k (fun j => bs.getD j 0) = buf
  have harea := h.area inum (blockPos (off / 512)) (by rw [hx]; exact hx₀)
  rw [hx] at harea
  have hother : ∀ b, b ≠ x → (s.wsect x buf).disk b = s.disk b := fun b hb => Function.update_of_ne hb _ _
  have hself : (s.wsect x buf).disk x = buf := Function.update_self ..
  have hne : (s.files inum din).addr inum (blockPos (off / 512)) ≠ 0 := by
    rw [hx]
    exact hx₀
  obtain ⟨haddr, -, hbyte⟩ := @filesOf_write sb (Function.update s.rinode inum din) s.disk (s.wsect x buf).disk h.inj inum (off / 512) buf hne
    (by show (s.wsect x buf).disk ((s.files inum din).addr inum _) = _; rw [hx]; exact hself)
    (fun m q _ hmq => hother _ (by rw [← hx]; exact hmq)) (fun b hb => marked_wsect harea.1 hb)
  have hfiles : (s.wsect x buf).files inum din =
      filesOf sb (Function.update s.rinode inum din) (s.wsect x buf).disk := files_wsect harea.1
  rw [← hfiles] at haddr hbyte
  have haddr' : ((s.wsect x buf).files inum din).addr = (s.files inum din).addr := haddr
  refine ⟨⟨?_, ?_, h.free, fun b hb => ?_, ?_⟩, ⟨by rw [hfiles]; rfl, by rw [hfiles]; rfl, fun o => ?_, fun o h₁ h₂ => ?_,
    fun q _ => by rw [haddr'], fun bn _ => by rw [haddr'], fun m hm => ⟨by rw [haddr'], funext fun o => ?_⟩⟩⟩
  · rw [haddr']
    exact h.inj
  · rw [haddr']
    exact h.area
  · have hb' : s.freeblock ≤ b := hb
    rw [hother b (by omega)]
    exact h.blank b hb'
  · have hmeta := metablocks_eq
    rw [hother 1 (by omega)]
    exact h.super
  · -- in the block of this round, the bytes that are written and the others
    have hold : o / 512 = off / 512 → (s.files inum din).byte inum o = (s.rsect x).byte (o % 512) := fun ho => by
      have hf : (s.files inum din).byte inum o = if (s.files inum din).addr inum (blockPos (o / BSIZE)) = 0 then 0
          else (s.disk ((s.files inum din).addr inum (blockPos (o / BSIZE)))).byte (o % BSIZE) := filesOf_byte _ _
      rw [hf, show o / BSIZE = off / 512 from ho, if_neg hne, hx]
      rfl
    rw [hbyte, List.length_take_of_le hk]
    by_cases ho : o / BSIZE = off / 512
    · rw [if_pos ⟨rfl, ho⟩, ← hbuf, Block.byte_put]
      have ho' : o / 512 = off / 512 := ho
      by_cases hin : off ≤ o ∧ o < off + k
      · have hin' : o % 512 < 512 ∧ off - off / 512 * 512 ≤ o % 512 ∧ o % 512 < off - off / 512 * 512 + k := by omega
        have hidx : o % 512 - (off - off / 512 * 512) = o - off := by omega
        show (if o % 512 < 512 ∧ off - off / 512 * 512 ≤ o % 512 ∧ o % 512 < off - off / 512 * 512 + k then
          bs.getD (o % 512 - (off - off / 512 * 512)) 0 else _) = _
        rw [if_pos hin', if_pos hin, hidx, List.getD_eq_getElem?_getD, List.getD_eq_getElem?_getD,
          List.getElem?_take_of_lt (by omega)]
      · have hin' : ¬(o % 512 < 512 ∧ off - off / 512 * 512 ≤ o % 512 ∧ o % 512 < off - off / 512 * 512 + k) := by omega
        show (if o % 512 < 512 ∧ off - off / 512 * 512 ≤ o % 512 ∧ o % 512 < off - off / 512 * 512 + k then _ else
          (s.rsect x).byte (o % 512)) = _
        rw [if_neg hin', if_neg hin]
        exact (hold ho').symm
    · have ho' : ¬o / 512 = off / 512 := ho
      rw [if_neg fun hc => ho hc.2, if_neg (by omega)]
      rfl
  · rw [List.length_take_of_le hk] at h₂
    have ho : o / BSIZE = off / 512 := by
      show o / 512 = _
      omega
    rw [haddr', ho]
    exact hne
  · rw [hbyte, if_neg fun hc => hm hc.1]
    rfl

/-- **The loop of `iappend`.** -/
theorem iappendFrom_added (hn : inum < sb.inodes) (k : Nat) : ∀ {s : State} {din : Dinode} {off : Nat} {bs : List UInt8},
    bs.length ≤ k → Laid s (s.files inum din) → din.type ≠ 0 → off + bs.length ≤ maxBlocks * 512 →
    (s.iappendFrom din off bs).1.freeblock < 2 ^ 32 →
    Laid (s.iappendFrom din off bs).1 ((s.iappendFrom din off bs).1.files inum (s.iappendFrom din off bs).2.1) ∧
    Added inum off bs (s.files inum din) ((s.iappendFrom din off bs).1.files inum (s.iappendFrom din off bs).2.1) ∧
    (s.iappendFrom din off bs).2.1.type = din.type ∧ (s.iappendFrom din off bs).2.1.size = din.size ∧
    (s.iappendFrom din off bs).2.2 = off + bs.length := by
  induction k with
  | zero =>
    intro s din off bs hk h ht hmax hfew
    obtain rfl := List.length_eq_zero_iff.1 (Nat.le_zero.1 hk)
    rw [iappendFrom, dif_pos rfl]
    exact ⟨h, .nil _ _ _, rfl, rfl, rfl⟩
  | succ k ih =>
    intro s din off bs hk h ht hmax hfew
    rw [iappendFrom] at hfew ⊢
    by_cases hnil : bs = []
    · rw [dif_pos hnil]
      subst hnil
      exact ⟨h, .nil _ _ _, rfl, rfl, rfl⟩
    · rw [dif_neg hnil] at hfew ⊢
      dsimp only at hfew ⊢
      have hlen := List.length_pos_iff.2 hnil
      have hround : (bs.drop (min bs.length ((off / 512 + 1) * 512 - off))).length ≤ k := length_drop_round hk hnil
      have hmax' : off + bs.length ≤ maxBlocks * 512 := hmax
      have hbound : maxBlocks * 512 < 2 ^ 32 := by decide
      generalize hn₁ : min bs.length ((off / 512 + 1) * 512 - off) = n₁ at hfew hround ⊢
      have hoff : (off + n₁) % 2 ^ 32 = off + n₁ := Nat.mod_eq_of_lt (by omega)
      rw [hoff] at hfew ⊢
      have hfile := Nat.lt_of_le_of_lt (later_iappendFrom k hround).le hfew
      have hfound := fileBlock_found h hn ht
        (show off / 512 < maxBlocks by simp only [maxBlocks, NDIRECT, NINDIRECT] at *; omega) hfile
      obtain ⟨hlaid, hadded⟩ := wsect_added hfound.laid hfound.addr hfound.ne (show n₁ ≤ bs.length by omega) (by omega)
      obtain ⟨hlaid', hadded', htype, hsize, hend⟩ := ih hround hlaid (by rw [hfound.type]; exact ht)
        (by rw [List.length_drop]; omega) hfew
      refine ⟨hlaid', hfound.wider.added hnil (.append (by omega) hadded hadded'), htype.trans hfound.type,
        hsize.trans hfound.size, ?_⟩
      rw [hend, List.length_drop]
      omega

/-- An inode before the bitmap is written: it is no longer only in memory. -/
theorem image_winode (h : Laid s (s.files inum din)) (hn : inum < sb.inodes) :
    (s.winode inum din).image = s.files inum din ∧ Laid (s.winode inum din) (s.winode inum din).image := by
  have hinodes := inodes_eq
  have hmeta := metablocks_eq
  have hsec : i2b inum < 29 := i2b_lt (by omega)
  have hother : ∀ b, b ≠ i2b inum → (s.winode inum din).disk b = s.disk b := fun b hb => Function.update_of_ne hb _ _
  have himage : (s.winode inum din).image = s.files inum din := by
    refine filesOf_congr (fun m _ => ?_) (fun m q hne => hother _ ?_) fun b hb => ?_
    · by_cases hm : m = inum
      · rw [hm, rinode_winode_self, Function.update_self]
        exact .rfl
      · rw [rinode_winode_ne s din hm, Function.update_of_ne hm]
        exact .rfl
    · have harea := h.area m q hne
      unfold files at harea
      omega
    · have hbit : BBLOCK b sb.ninodes ≠ i2b inum := by
        show b / 4096 + 200 / 8 + 3 ≠ inum / 8 + 2
        omega
      unfold Marked winode wsect
      dsimp only
      rw [Function.update_of_ne hbit]
  refine ⟨himage, ?_⟩
  rw [himage]
  have hfree := h.free
  refine ⟨h.inj, h.area, h.free, fun b hb => ?_, ?_⟩
  · have hb' : s.freeblock ≤ b := hb
    rw [hother b (by omega)]
    exact h.blank b hb'
  · rw [hother 1 (by show 1 ≠ inum / 8 + 2; omega)]
    exact h.super

/-- What is in file `n`: its bytes, and a block for each, and no other. -/
structure Content (f : Files) (n : Nat) (bs : List UInt8) : Prop where
  size : f.size n = bs.length
  byte : ∀ o, f.byte n o = bs.getD o 0
  addr : ∀ o, o < bs.length → f.addr n (blockPos (o / BSIZE)) ≠ 0
  rest : ∀ bn, bs.length ≤ bn * BSIZE → f.addr n (blockPos bn) = 0

/-- File `n` may differ, and nothing else. -/
structure Only (n : Nat) (f g : Files) : Prop where
  type : ∀ m, m ≠ n → g.type m = f.type m
  size : ∀ m, m ≠ n → g.size m = f.size m
  addr : ∀ m, m ≠ n → g.addr m = f.addr m
  byte : ∀ m, m ≠ n → g.byte m = f.byte m

theorem Content.congr {m : Nat} {bs : List UInt8} (h : Content f m bs) (h' : Only n f g) (hm : m ≠ n) : Content g m bs :=
  ⟨(h'.size m hm).trans h.size, fun o => by rw [h'.byte m hm]; exact h.byte o, fun o ho => by rw [h'.addr m hm]; exact h.addr o ho,
    fun bn hbn => by rw [h'.addr m hm]; exact h.rest bn hbn⟩

/-- **`iappend`** adds its bytes at the end of a file. -/
theorem iappend_content (h : Laid s s.image) (hn : inum < sb.inodes) (ht : (s.rinode inum).type ≠ 0) {cs bs : List UInt8}
    (hcs : Content s.image inum cs) (hmax : cs.length + bs.length ≤ maxBlocks * 512)
    (hfew : (s.iappend inum bs).freeblock < 2 ^ 32) :
    Laid (s.iappend inum bs) (s.iappend inum bs).image ∧ Content (s.iappend inum bs).image inum (cs ++ bs) ∧
      (s.iappend inum bs).image.type = s.image.type ∧ Only inum s.image (s.iappend inum bs).image ∧
      ∀ q, s.image.addr inum q ≠ 0 → (s.iappend inum bs).image.addr inum q = s.image.addr inum q := by
  have hsize₀ : (s.rinode inum).size.toNat = cs.length := by
    rw [← hcs.size]
    exact (filesOf_size hn).symm
  rw [← files_self s inum] at h
  have hfew' : (s.iappendFrom (s.rinode inum) (s.rinode inum).size.toNat bs).1.freeblock < 2 ^ 32 := hfew
  obtain ⟨hlaid, hadded, -, -, hend⟩ := iappendFrom_added hn bs.length (Nat.le_refl _) h ht (by rw [hsize₀]; exact hmax) hfew'
  rw [files_self] at hadded
  unfold iappend
  dsimp only
  generalize hr : s.iappendFrom (s.rinode inum) (s.rinode inum).size.toNat bs = r at hlaid hadded hend ⊢
  obtain ⟨t, din, off⟩ := r
  dsimp only at hlaid hadded hend ⊢
  rw [hsize₀] at hadded hend
  -- the size is set after the loop
  let din' : Dinode := { din with size := .ofNat off }
  obtain ⟨htype, haddr, hbyte⟩ := @filesOf_fields sb (Function.update t.rinode inum din) (Function.update t.rinode inum din') t.disk
    (fun m _ => by by_cases hm : m = inum <;> simp [hm, din'])
    (fun m _ => by by_cases hm : m = inum <;> simp [hm, din'])
  have htype' : (t.files inum din').type = (t.files inum din).type := htype
  have haddr' : (t.files inum din').addr = (t.files inum din).addr := haddr
  have hbyte' : (t.files inum din').byte = (t.files inum din).byte := hbyte
  have hlaid' : Laid t (t.files inum din') := by
    refine ⟨?_, ?_, hlaid.free, hlaid.blank, hlaid.super⟩
    · rw [haddr']
      exact hlaid.inj
    · rw [haddr']
      exact hlaid.area
  obtain ⟨himage, hlaid''⟩ := image_winode hlaid' hn
  have hbound : maxBlocks * 512 < 2 ^ 32 := by decide
  have hsize : (t.files inum din').size inum = cs.length + bs.length := by
    have hfield : (t.files inum din').size inum = (Function.update t.rinode inum din' inum).size.toNat := filesOf_size hn
    rw [hfield, Function.update_self]
    show (UInt32.ofNat off).toNat = _
    rw [UInt32.toNat_ofNat', hend]
    exact Nat.mod_eq_of_lt (by omega)
  have hothers : ∀ m, m ≠ inum → (t.files inum din').size m = s.image.size m := fun m hm => by
    rw [← hadded.size]
    show (if _ then _ else _) = (if _ then _ else _)
    rw [Function.update_of_ne hm, Function.update_of_ne hm]
  refine ⟨hlaid'', ?_, ?_, ?_, ?_⟩
  · rw [himage]
    refine ⟨hsize.trans List.length_append.symm, fun o => ?_, fun o ho => ?_, fun bn hbn => ?_⟩
    · rw [hbyte', hadded.byte, hcs.byte]
      by_cases ho : o < cs.length
      · rw [if_neg (by omega), List.getD_eq_getElem?_getD, List.getD_eq_getElem?_getD, List.getElem?_append_left ho]
      · rw [List.getD_eq_getElem?_getD, List.getD_eq_getElem?_getD, List.getD_eq_getElem?_getD,
          List.getElem?_append_right (Nat.le_of_not_lt ho)]
        split
        · rfl
        · rw [List.getElem?_eq_none (by omega), List.getElem?_eq_none (by omega)]
    · rw [List.length_append] at ho
      rw [haddr']
      by_cases hold : o < cs.length
      · have hne := hcs.addr o hold
        rw [hadded.keep _ hne]
        exact hne
      · exact hadded.addr o (by omega) ho
    · rw [List.length_append] at hbn
      rw [haddr', hadded.rest bn fun o h₁ h₂ => ?_, hcs.rest bn (by omega)]
      have hbn' : cs.length + bs.length ≤ bn * 512 := hbn
      show o / 512 ≠ bn
      omega
  · rw [himage]
    exact htype'.trans hadded.type
  · rw [himage]
    exact ⟨fun m _ => by rw [htype', hadded.type], hothers, fun m hm => by rw [haddr']; exact (hadded.other m hm).1,
      fun m hm => by rw [hbyte']; exact (hadded.other m hm).2⟩
  · rw [himage, haddr']
    exact hadded.keep

end State

end Mkfs

end NewXv6
