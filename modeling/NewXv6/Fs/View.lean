import NewXv6.Fs.Files
import Mathlib.Algebra.Ring.Nat

/-!
# The files on a disk

`filesOf sb ino v` is the abstract file system whose inodes are `ino` and whose blocks are `v`. The lemmas say how it
changes with a block: not at all when the block belongs to no file, by one address when an index block or an inode gets
a new block, by the bytes of one block when a data block is written.
-/

namespace NewXv6

open Lib

/-! ## Reading an inode's tree -/

/-- Entry `k` of the index block `a`. -/
def child (v : Nat → Block) (a k : Nat) : Nat := ((v a).word k).toNat

theorem child_apply (v : Nat → Block) (a k : Nat) : child v a k = ((v a).word k).toNat := rfl

namespace Dinode

/-- The block at a position of an inode's tree. -/
def addr (d : Dinode) (v : Nat → Block) (p : Pos) : Nat :=
  if p.2.length ≤ depth p.1 then walk (child v) (d.addrs p.1).toNat p.2 else 0

/-- The same type, size and addresses. -/
structure Same (d e : Dinode) : Prop where
  type : d.type = e.type
  size : d.size = e.size
  addrs : d.addrs = e.addrs

theorem Same.rfl {d : Dinode} : d.Same d := ⟨Eq.refl _, Eq.refl _, Eq.refl _⟩

theorem Same.symm {d e : Dinode} (h : d.Same e) : e.Same d := ⟨h.type.symm, h.size.symm, h.addrs.symm⟩

theorem Same.trans {a d e : Dinode} (h : a.Same d) (h' : d.Same e) : a.Same e :=
  ⟨h.type.trans h'.type, h.size.trans h'.size, h.addrs.trans h'.addrs⟩

theorem Same.addr {d e : Dinode} (h : d.Same e) (v : Nat → Block) (p : Pos) : d.addr v p = e.addr v p := by
  unfold Dinode.addr
  rw [h.addrs]

theorem addr_eq {d : Dinode} {v : Nat → Block} {p : Pos} (h : p.2.length ≤ depth p.1) :
    d.addr v p = walk (child v) (d.addrs p.1).toNat p.2 := if_pos h

theorem addr_lt (d : Dinode) (v : Nat → Block) (p : Pos) : d.addr v p < 2 ^ 32 := by
  have hwalk : ∀ (ks : List Nat) (x : Nat), x < 2 ^ 32 → walk (child v) x ks < 2 ^ 32 := by
    intro ks
    induction ks with
    | nil => exact fun x hx => hx
    | cons k ks ih =>
      intro x _
      rw [walk]
      split
      · decide
      · exact ih _ (UInt32.toNat_lt _)
  unfold addr
  split
  · exact hwalk _ _ (UInt32.toNat_lt _)
  · decide

/-- Only the index blocks of the tree matter. -/
theorem addr_congr {d : Dinode} {v v' : Nat → Block} {p : Pos}
    (h : ∀ q : Pos, q.1 = p.1 → q.2.length < depth q.1 → d.addr v q ≠ 0 → v' (d.addr v q) = v (d.addr v q)) :
    d.addr v' p = d.addr v p := by
  obtain ⟨j, ks⟩ := p
  unfold addr
  dsimp only
  split
  · rename_i hle
    apply walk_congr
    intro ls i hls hne
    have hlen : ls.length < depth j := by
      have := hls.length_le
      simp only [List.length_append, List.length_singleton] at this
      omega
    have ha : d.addr v (j, ls) = walk (child v) (d.addrs j).toNat ls := addr_eq (p := (j, ls)) (Nat.le_of_lt hlen)
    have := h (j, ls) (Eq.refl _) hlen (by rw [ha]; exact hne)
    rw [ha] at this
    rw [child_apply, child_apply, this]
  · exact Eq.refl _

end Dinode

/-- Inode `n` on a disk. -/
def diskInode (v : Nat → Block) (n : Nat) : Dinode := (v (IBLOCK n)).getDinode (n % IPB)

/-- Block `b` is marked in the bitmap. -/
def Marked (sb : Superblock) (v : Nat → Block) (b : Nat) : Prop := (v (BBLOCK b sb.ninodes)).bit (b % BPB) = true

/-- The files whose inodes are `ino` and whose blocks are `v`. -/
def filesOf (sb : Superblock) (ino : Nat → Dinode) (v : Nat → Block) : Files where
  type n := if n < sb.inodes then (ino n).type else 0
  size n := if n < sb.inodes then (ino n).size.toNat else 0
  addr n p := if n < sb.inodes ∧ (ino n).type ≠ 0 then (ino n).addr v p else 0
  used b := b < sb.size ∧ Marked sb v b
  byte n o :=
    if n < sb.inodes ∧ (ino n).type ≠ 0 then
      if (ino n).addr v (blockPos (o / BSIZE)) = 0 then 0
      else (v ((ino n).addr v (blockPos (o / BSIZE)))).byte (o % BSIZE)
    else 0

section filesOf

variable {sb : Superblock} {ino ino' : Nat → Dinode} {v v' : Nat → Block}

theorem filesOf_addr {n : Nat} (hn : n < sb.inodes) (ht : (ino n).type ≠ 0) (p : Pos) :
    (filesOf sb ino v).addr n p = (ino n).addr v p := if_pos ⟨hn, ht⟩

theorem filesOf_type {n : Nat} (hn : n < sb.inodes) : (filesOf sb ino v).type n = (ino n).type := if_pos hn

theorem filesOf_size {n : Nat} (hn : n < sb.inodes) : (filesOf sb ino v).size n = (ino n).size.toNat := if_pos hn

/-- A file's contents are in its data blocks. -/
theorem filesOf_byte (n o : Nat) : (filesOf sb ino v).byte n o =
    if (filesOf sb ino v).addr n (blockPos (o / BSIZE)) = 0 then 0
    else (v ((filesOf sb ino v).addr n (blockPos (o / BSIZE)))).byte (o % BSIZE) := by
  simp only [filesOf]
  split
  · rfl
  · simp

/-- A file without blocks reads as zeros. -/
theorem filesOf_byte_none {n : Nat} (h : ∀ p, (filesOf sb ino v).addr n p = 0) (o : Nat) :
    (filesOf sb ino v).byte n o = 0 := by
  rw [filesOf_byte, h, if_pos rfl]

/-- What a file is depends on its inode's type, size and addresses and on its own blocks. -/
theorem filesOf_inode {n : Nat} (hino : n < sb.inodes → (ino' n).Same (ino n))
    (hown : ∀ p, (filesOf sb ino v).addr n p ≠ 0 →
      v' ((filesOf sb ino v).addr n p) = v ((filesOf sb ino v).addr n p)) :
    (filesOf sb ino' v').type n = (filesOf sb ino v).type n ∧ (filesOf sb ino' v').size n = (filesOf sb ino v).size n ∧
    (filesOf sb ino' v').addr n = (filesOf sb ino v).addr n ∧ (filesOf sb ino' v').byte n = (filesOf sb ino v).byte n := by
  have haddr : (filesOf sb ino' v').addr n = (filesOf sb ino v).addr n := by
    funext p
    by_cases hn : n < sb.inodes ∧ (ino n).type ≠ 0
    · rw [filesOf_addr hn.1 (by rw [(hino hn.1).type]; exact hn.2), filesOf_addr hn.1 hn.2, (hino hn.1).addr]
      apply Dinode.addr_congr
      intro q _ _ hne
      have := hown q (by rw [filesOf_addr hn.1 hn.2]; exact hne)
      rwa [filesOf_addr hn.1 hn.2] at this
    · simp only [filesOf]
      rw [if_neg hn, if_neg fun h => hn ⟨h.1, by rw [← (hino h.1).type]; exact h.2⟩]
  refine ⟨?_, ?_, haddr, ?_⟩
  · simp only [filesOf]
    split
    · exact (hino ‹_›).type
    · rfl
  · simp only [filesOf]
    split
    · rw [(hino ‹_›).size]
    · rfl
  · funext o
    rw [filesOf_byte, filesOf_byte, haddr]
    split
    · rfl
    · rw [hown _ ‹_›]

/-- A block outside of files and bitmap, or an inode's other fields, do not matter. -/
theorem filesOf_congr (hino : ∀ n, n < sb.inodes → (ino' n).Same (ino n))
    (hown : ∀ n p, (filesOf sb ino v).addr n p ≠ 0 →
      v' ((filesOf sb ino v).addr n p) = v ((filesOf sb ino v).addr n p))
    (hbit : ∀ b, b < sb.size → (Marked sb v' b ↔ Marked sb v b)) : filesOf sb ino' v' = filesOf sb ino v := by
  have key := fun n => filesOf_inode (hino n) (hown n)
  ext n o
  · rw [(key n).1]
  · rw [(key n).2.1]
  · rw [(key n).2.2.1]
  · exact and_congr_right fun hb => hbit _ hb
  · rw [(key n).2.2.2]

/-- The other fields of inodes do not show in their trees. -/
theorem filesOf_fields (htype : ∀ n, n < sb.inodes → (ino' n).type = (ino n).type)
    (haddrs : ∀ n, n < sb.inodes → (ino' n).addrs = (ino n).addrs) :
    (filesOf sb ino' v).type = (filesOf sb ino v).type ∧ (filesOf sb ino' v).addr = (filesOf sb ino v).addr ∧
    (filesOf sb ino' v).byte = (filesOf sb ino v).byte := by
  have haddr : (filesOf sb ino' v).addr = (filesOf sb ino v).addr := by
    funext n p
    by_cases hn : n < sb.inodes
    · simp only [filesOf, htype n hn, Dinode.addr, haddrs n hn]
    · simp only [filesOf, hn, false_and, if_false]
  refine ⟨funext fun n => ?_, haddr, funext fun n => funext fun o => ?_⟩
  · by_cases hn : n < sb.inodes
    · rw [filesOf_type hn, filesOf_type hn, htype n hn]
    · simp only [filesOf, hn, if_false]
  · rw [filesOf_byte, filesOf_byte, haddr]

/-- A data block of a file is written. -/
theorem filesOf_write
    (h : ∀ m p m' q, (filesOf sb ino v).addr m p ≠ 0 →
      (filesOf sb ino v).addr m p = (filesOf sb ino v).addr m' q → m = m' ∧ p = q)
    {n bn : Nat} {data : Block}
    (hx : (filesOf sb ino v).addr n (blockPos bn) ≠ 0)
    (hdata : v' ((filesOf sb ino v).addr n (blockPos bn)) = data)
    (hown : ∀ m q, (filesOf sb ino v).addr m q ≠ 0 →
      (filesOf sb ino v).addr m q ≠ (filesOf sb ino v).addr n (blockPos bn) →
      v' ((filesOf sb ino v).addr m q) = v ((filesOf sb ino v).addr m q))
    (hbit : ∀ b, b < sb.size → (Marked sb v' b ↔ Marked sb v b)) :
    (filesOf sb ino v').addr = (filesOf sb ino v).addr ∧ (filesOf sb ino v').used = (filesOf sb ino v).used ∧
      ∀ m o, (filesOf sb ino v').byte m o =
        if m = n ∧ o / BSIZE = bn then data.byte (o % BSIZE) else (filesOf sb ino v).byte m o := by
  -- the block is at the bottom of a tree, so it is no index block
  have haddr : (filesOf sb ino v').addr = (filesOf sb ino v).addr := by
    funext m p
    by_cases hm : m < sb.inodes ∧ (ino m).type ≠ 0
    · rw [filesOf_addr hm.1 hm.2, filesOf_addr hm.1 hm.2]
      apply Dinode.addr_congr
      intro q _ hq hne
      have hne' : (filesOf sb ino v).addr m q ≠ 0 := by rw [filesOf_addr hm.1 hm.2]; exact hne
      have := hown m q hne' fun he => by
        obtain ⟨-, rfl⟩ := h m q n (blockPos bn) hne' he
        rw [blockPos_depth] at hq
        omega
      rwa [filesOf_addr hm.1 hm.2] at this
    · simp only [filesOf, if_neg hm]
  refine ⟨haddr, ?_, fun m o => ?_⟩
  · funext b
    exact propext (and_congr_right fun hb => hbit b hb)
  · rw [filesOf_byte, filesOf_byte, haddr]
    by_cases hmo : m = n ∧ o / BSIZE = bn
    · obtain ⟨rfl, rfl⟩ := hmo
      rw [if_neg hx, if_pos ⟨rfl, rfl⟩, hdata]
    · rw [if_neg hmo]
      split
      · rfl
      · rename_i hne
        rw [hown m _ hne]
        intro he
        obtain ⟨rfl, hp⟩ := h m _ n _ hne he
        exact hmo ⟨rfl, blockPos_inj hp⟩

/-- The contents of files do not change when a file gets an empty block. -/
theorem filesOf_byte_link {n b : Nat} {p : Pos}
    (hp : (filesOf sb ino v).addr n p = 0) (hb : v' b = Block.zero)
    (haddr : ∀ m q, (filesOf sb ino' v').addr m q = if m = n ∧ q = p then b else (filesOf sb ino v).addr m q)
    (hown : ∀ m q, q.2.length = depth q.1 → (filesOf sb ino v).addr m q ≠ 0 →
      v' ((filesOf sb ino v).addr m q) = v ((filesOf sb ino v).addr m q)) :
    (filesOf sb ino' v').byte = (filesOf sb ino v).byte := by
  funext m o
  rw [filesOf_byte, filesOf_byte, haddr]
  by_cases hmo : m = n ∧ blockPos (o / BSIZE) = p
  · rw [if_pos hmo, hmo.1, hmo.2, hp, hb]
    simp
  · rw [if_neg hmo]
    split
    · rfl
    · rw [hown m _ (blockPos_depth _) ‹_›]

/-- An index block gets a new entry. -/
theorem filesOf_link_index
    (h : ∀ m p m' q, (filesOf sb ino v).addr m p ≠ 0 →
      (filesOf sb ino v).addr m p = (filesOf sb ino v).addr m' q → m = m' ∧ p = q)
    {n b k : Nat} {j : Fin (NDIRECT + 1)} {ks : List Nat}
    (hks : ks.length < depth j) (hx : (filesOf sb ino v).addr n (j, ks) ≠ 0)
    (hp : (filesOf sb ino v).addr n (j, ks ++ [k]) = 0) (hk : k < NINDIRECT) (hb32 : b < 2 ^ 32)
    (hxdata : v' ((filesOf sb ino v).addr n (j, ks)) =
      (v ((filesOf sb ino v).addr n (j, ks))).setWord k (UInt32.ofNat b)) (hb : v' b = Block.zero)
    (hown : ∀ m q, (filesOf sb ino v).addr m q ≠ 0 →
      (filesOf sb ino v).addr m q ≠ (filesOf sb ino v).addr n (j, ks) →
      v' ((filesOf sb ino v).addr m q) = v ((filesOf sb ino v).addr m q)) :
    (∀ m q, (filesOf sb ino v').addr m q =
      if m = n ∧ q = (j, ks ++ [k]) then b else (filesOf sb ino v).addr m q) ∧
    (filesOf sb ino v').byte = (filesOf sb ino v).byte := by
  have hn : n < sb.inodes ∧ (ino n).type ≠ 0 := by
    by_contra hno
    simp only [filesOf, if_neg hno, ne_eq, not_true_eq_false] at hx
  have hwalk : ∀ ls : List Nat, ls.length ≤ depth j →
      (filesOf sb ino v).addr n (j, ls) = walk (child v) ((ino n).addrs j).toNat ls := by
    intro ls hls
    rw [filesOf_addr hn.1 hn.2]
    exact Dinode.addr_eq hls
  have hb' : (UInt32.ofNat b).toNat = b := by
    rw [UInt32.toNat_ofNat']
    exact Nat.mod_eq_of_lt hb32
  have hxk := hwalk ks (Nat.le_of_lt hks)
  have haddr : ∀ m q, (filesOf sb ino v').addr m q =
      if m = n ∧ q = (j, ks ++ [k]) then b else (filesOf sb ino v).addr m q := by
    intro m q
    by_cases hmq : m = n ∧ q.1 = j
    · obtain ⟨rfl, rfl⟩ := hmq
      obtain ⟨i, ls⟩ := q
      dsimp only at *
      by_cases hls : ls.length ≤ depth i
      · rw [hwalk ls hls, filesOf_addr hn.1 hn.2, Dinode.addr_eq (p := (i, ls)) hls]
        simp only [Prod.mk.injEq, true_and]
        rw [hxk] at hx hxdata
        apply walk_link hx
        · rw [hwalk _ (by simp only [List.length_append, List.length_singleton]; omega), walk_snoc, if_neg hx] at hp
          exact hp
        · intro l
          rw [child_apply, hxdata, Block.word_setWord _ _ _ hk]
          split
          · exact hb'
          · rfl
        · intro l
          rw [child_apply, hb, Block.word_zero]
          rfl
        · intro ls' l hpre hne hne'
          have hlen : ls'.length < depth i := by
            have := hpre.length_le
            simp only [List.length_append, List.length_singleton] at this
            omega
          have hw := hwalk ls' (Nat.le_of_lt hlen)
          rw [← hw] at hne ⊢
          have := hown m (i, ls') hne fun he => by
            obtain ⟨-, hq⟩ := h _ _ _ _ hne he
            exact hne' (congrArg Prod.snd hq)
          rw [child_apply, child_apply, this]
      · have hno : ¬(ls = ks ++ [k]) := by
          rintro rfl
          simp only [List.length_append, List.length_singleton] at hls
          omega
        rw [if_neg (by simpa using hno), filesOf_addr hn.1 hn.2, filesOf_addr hn.1 hn.2]
        simp only [Dinode.addr, if_neg hls]
    · have hno : ¬(m = n ∧ q = (j, ks ++ [k])) := fun hc => hmq ⟨hc.1, congrArg Prod.fst hc.2⟩
      rw [if_neg hno]
      by_cases hm : m < sb.inodes ∧ (ino m).type ≠ 0
      · rw [filesOf_addr hm.1 hm.2, filesOf_addr hm.1 hm.2]
        apply Dinode.addr_congr
        intro q' hq' _ hne
        have hne' : (filesOf sb ino v).addr m q' ≠ 0 := by rw [filesOf_addr hm.1 hm.2]; exact hne
        have := hown m q' hne' fun he => by
          obtain ⟨rfl, hqq⟩ := h _ _ _ _ hne' he
          exact hmq ⟨rfl, by rw [← hq', hqq]⟩
        rwa [filesOf_addr hm.1 hm.2] at this
      · simp only [filesOf, if_neg hm]
  refine ⟨haddr, filesOf_byte_link hp hb haddr fun m q hq hne => hown m q hne fun he => ?_⟩
  obtain ⟨-, rfl⟩ := h _ _ _ _ hne he
  dsimp only at hq
  omega

/-- An inode gets a new address. -/
theorem filesOf_link_root {n b : Nat} {j : Fin (NDIRECT + 1)} (hn : n < sb.inodes)
    (ht : (ino n).type ≠ 0) (hp : (ino n).addrs j = 0) (hb32 : b < 2 ^ 32) (hb : v' b = Block.zero)
    (hino : ∀ m, m < sb.inodes → m ≠ n → (ino' m).Same (ino m))
    (hinon : (ino' n).Same { ino n with addrs := Function.update (ino n).addrs j (UInt32.ofNat b) })
    (hown : ∀ m q, (filesOf sb ino v).addr m q ≠ 0 → v' ((filesOf sb ino v).addr m q) = v ((filesOf sb ino v).addr m q)) :
    (filesOf sb ino' v').type = (filesOf sb ino v).type ∧ (filesOf sb ino' v').size = (filesOf sb ino v).size ∧
    (∀ m q, (filesOf sb ino' v').addr m q = if m = n ∧ q = (j, []) then b else (filesOf sb ino v).addr m q) ∧
    (filesOf sb ino' v').byte = (filesOf sb ino v).byte := by
  have htype : ∀ m, m < sb.inodes → (ino' m).type = (ino m).type := by
    intro m hm
    by_cases hmn : m = n
    · subst hmn
      exact hinon.type
    · exact (hino m hm hmn).type
  have hsize : ∀ m, m < sb.inodes → (ino' m).size = (ino m).size := by
    intro m hm
    by_cases hmn : m = n
    · subst hmn
      exact hinon.size
    · exact (hino m hm hmn).size
  have hb' : (UInt32.ofNat b).toNat = b := by
    rw [UInt32.toNat_ofNat']
    exact Nat.mod_eq_of_lt hb32
  have hpos : (filesOf sb ino v).addr n (j, []) = 0 := by
    rw [filesOf_addr hn ht, Dinode.addr_eq (Nat.zero_le _), hp]
    rfl
  have hcongr : ∀ m, m < sb.inodes → (ino m).type ≠ 0 → ∀ q, (ino m).addr v' q = (ino m).addr v q := by
    intro m hm hmt q
    apply Dinode.addr_congr
    intro q' _ _ hne
    have := hown m q' (by rw [filesOf_addr hm hmt]; exact hne)
    rwa [filesOf_addr hm hmt] at this
  have haddr : ∀ m q, (filesOf sb ino' v').addr m q =
      if m = n ∧ q = (j, []) then b else (filesOf sb ino v).addr m q := by
    intro m q
    by_cases hm : m < sb.inodes ∧ (ino m).type ≠ 0
    · have hm' : (ino' m).type ≠ 0 := by rw [htype m hm.1]; exact hm.2
      rw [filesOf_addr hm.1 hm', filesOf_addr hm.1 hm.2]
      by_cases hmn : m = n
      · subst hmn
        rw [hinon.addr]
        obtain ⟨i, ls⟩ := q
        by_cases hij : i = j
        · subst hij
          cases ls with
          | nil =>
            rw [if_pos ⟨rfl, rfl⟩, Dinode.addr_eq (Nat.zero_le _)]
            simp [hb']
          | cons l ls =>
            rw [if_neg (by simp)]
            unfold Dinode.addr
            split
            · simp only [Function.update_self, hb', walk, hp]
              split
              · simp
              · have hc : child v' b l = 0 := by
                  unfold child
                  rw [hb, Block.word_zero]
                  rfl
                rw [hc, walk_zero]
                simp
            · rfl
        · rw [if_neg (by simp [hij]), ← hcongr m hm.1 hm.2]
          unfold Dinode.addr
          simp only [Function.update_of_ne hij]
      · rw [if_neg fun hc => hmn hc.1, (hino m hm.1 hmn).addr, hcongr m hm.1 hm.2]
    · have hm' : ¬(m < sb.inodes ∧ (ino' m).type ≠ 0) := fun hc => hm ⟨hc.1, by rw [← htype m hc.1]; exact hc.2⟩
      have hmn : ¬(m = n ∧ q = (j, [])) := by
        rintro ⟨rfl, -⟩
        exact hm ⟨hn, ht⟩
      rw [if_neg hmn]
      simp only [filesOf, if_neg hm, if_neg hm']
  refine ⟨?_, ?_, haddr, filesOf_byte_link hpos hb haddr fun m q _ => hown m q⟩
  · funext m
    simp only [filesOf]
    split
    · exact htype m ‹_›
    · rfl
  · funext m
    simp only [filesOf]
    split
    · rw [hsize m ‹_›]
    · rfl

end filesOf

end NewXv6
