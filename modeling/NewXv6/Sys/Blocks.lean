import NewXv6.Sys.Boot
import Mathlib.Data.Set.Card

/-!
# Blocks of files

In every run of system calls no block is used twice, and a block in use is marked (`blocks_apart`). What discarding an
inode frees is in `NewXv6.Sys.Balance`.
-/

namespace NewXv6

open Lib

/-! ## No block is used twice -/

namespace Files

/-- No block is at two places, and every block of a file is marked. -/
structure Apart (f : Files) : Prop where
  once : ∀ n p m q, f.addr n p ≠ 0 → f.addr n p = f.addr m q → n = m ∧ p = q
  used : ∀ n p, f.addr n p ≠ 0 → f.used (f.addr n p)

/-- Files in the data area, each block at one place, where the metadata, the log and the blocks of files are marked. -/
structure Tidy (sb : Superblock) (f : Files) : Prop where
  once : ∀ n p m q, f.addr n p ≠ 0 → f.addr n p = f.addr m q → n = m ∧ p = q
  area : ∀ n p, f.addr n p ≠ 0 → sb.InData (f.addr n p)
  marks : ∀ b, b < sb.size → (f.used b ↔ b < sb.dataStart ∨ sb.logStart ≤ b ∨ ∃ n p, f.addr n p ≠ 0 ∧ f.addr n p = b)

/-- Directory entries name inodes there are. -/
def Named (sb : Superblock) (f : Files) : Prop :=
  ∀ n k, f.type n = T_DIR → DIRENT * k + DIRENT ≤ f.size n → f.entry n k < sb.inodes

end Files

/-- A disk with an empty log whose bitmap marks exactly the metadata, the log and the blocks of files, and on which every
block of a file is reachable once. -/
structure TidyImage (sb : Superblock) (image : Nat → Block) : Prop where
  ok : sb.Ok
  super : (image 1).superblock = sb
  log : (image sb.logStart).headCount = 0
  tidy : (imageFiles sb image).Tidy sb

section Blocks

variable {sb : Superblock} {image : Nat → Block}

theorem imageFiles_free (n : Nat) (p : Pos) (h : (imageFiles sb image).type n = 0) : (imageFiles sb image).addr n p = 0 := by
  unfold imageFiles filesOf at *
  dsimp only at *
  split
  · rename_i hn
    rw [if_pos hn.1] at h
    exact absurd h hn.2
  · rfl

theorem TidyImage.toImage (h : TidyImage sb image) (hdirs : (imageFiles sb image).Named sb) :
    Image sb ⟨True, False, False⟩ image := by
  have hlt := fun n p hne => h.ok.data_lt (h.tidy.area n p hne)
  refine ⟨h.ok, h.super, h.log, h.tidy.once, h.tidy.area, fun n p hne => ?_, fun b hb hr => ?_, imageFiles_free,
    fun hs => hs.elim, fun he => he.elim, hdirs⟩
  · exact (h.tidy.marks _ (hlt n p hne)).2 (Or.inr (Or.inr ⟨n, p, hne, rfl⟩))
  · exact (h.tidy.marks b hb).2 (hr.imp_right fun hr => Or.inl hr.2)

/-- **No block is used twice**, in any state a sequence of system calls leads to, and every block in use is marked: if
the directory entries on the disk name inodes there are. -/
theorem blocks_apart (h : TidyImage sb image) (hdirs : (imageFiles sb image).Named sb) (devsw : Nat → Option Devsw)
    {t : Sys} (ht : Reachable devsw image t) : (t.fs.files sb).Apart := by
  obtain ⟨tr, w, hrun⟩ := ht
  have hinv := (machine_inv (h.toImage hdirs) False.elim devsw tr).run hrun fun x _ => by
    cases x <;> first | trivial | exact Or.inl trivial | exact False.elim
  exact ⟨hinv.fs.sound.inj, hinv.fs.sound.used⟩

end Blocks

/-! ### A small disk -/

/-- 4 blocks of metadata, 20 data blocks, and a log of 30 blocks. -/
def smallSb : Superblock := ⟨54, 20, 7, 30⟩

/-- A disk with a root directory of one block, and a free data block. -/
def smallImage (root free : Block) (x : Nat) : Block :=
  if x = 1 then (((Block.zero.setWord 0 54).setWord 1 20).setWord 2 7).setWord 3 30
  else if x = 2 then Block.zero.putDinode 1 { Dinode.zero with
    type := T_DIR, nlink := 1, size := 32, addrs := fun j => if j = 0 then 4 else 0 }
  else if x = 3 then (List.range 54).foldl (fun b i => if i < 5 ∨ 24 ≤ i then b.setBit i else b) Block.zero
  else if x = 4 then root
  else if x = 5 then free
  else Block.zero

/-- The entries `"."` and `".."` of the root directory. -/
def smallRoot : Block := Block.zero.put 0 32 fun j => ([1, 0, 46, 0, 0, 0, 0, 0, 0, 0, 0, 0, 0, 0, 0, 0, 1, 0, 46, 46] : List UInt8).getD j 0

/-- A root directory whose entry `"x"` names inode 24. -/
def danglingRoot : Block := Block.zero.put 0 32 fun j => ([24, 0, 120] : List UInt8).getD j 0

/-- A block that could hold a file's inode, without links, with the root directory's block. -/
def danglingInode : Block := Block.zero.putDinode 0 { Dinode.zero with type := T_FILE, addrs := fun j => if j = 0 then 4 else 0 }

section Small

variable {root free : Block}

theorem smallSb_ok : smallSb.Ok := ⟨by decide, by decide, by decide, by decide⟩

theorem small_inode {n : Nat} (hn : n < smallSb.inodes) : diskInode (smallImage root free) n =
    if n = 1 then { Dinode.zero with type := T_DIR, nlink := 1, size := 32, addrs := fun j => if j = 0 then 4 else 0 }
    else Dinode.zero := by
  have hn : n < 8 := hn
  have hb : smallImage root free (IBLOCK n) = Block.zero.putDinode 1 { Dinode.zero with
      type := T_DIR, nlink := 1, size := 32, addrs := fun j => if j = 0 then 4 else 0 } := by
    unfold IBLOCK
    rw [Nat.div_eq_of_lt hn]
    rfl
  unfold diskInode
  rw [hb, Nat.mod_eq_of_lt hn]
  split
  · subst n
    exact Block.getDinode_putDinode_self _ _ (by decide)
  · rw [Block.getDinode_putDinode_ne _ _ ‹_›, Block.getDinode_zero]

theorem small_addr (root free : Block) (n : Nat) (p : Pos) :
    (imageFiles smallSb (smallImage root free)).addr n p = if n = 1 ∧ p = (0, []) then 4 else 0 := by
  by_cases hn : n < smallSb.inodes
  · unfold imageFiles
    by_cases h₁ : n = 1
    · subst h₁
      rw [filesOf_addr hn (by rw [small_inode hn]; decide), small_inode hn]
      obtain ⟨j, ks⟩ := p
      by_cases hj : j = 0
      · subst hj
        cases ks with
        | nil => rfl
        | cons k ks => simp [Dinode.addr, depth]
      · simp [Dinode.addr, hj]
    · rw [if_neg fun h => h₁ h.1]
      unfold filesOf
      refine if_neg fun h => h.2 ?_
      rw [small_inode hn, if_neg h₁]
      rfl
  · unfold imageFiles filesOf
    dsimp only
    rw [if_neg fun h => hn h.1, if_neg]
    rintro ⟨rfl, -⟩
    exact hn (by decide)

theorem smallImage_tidy (root free : Block) : TidyImage smallSb (smallImage root free) := by
  have hsb : (smallImage root free 1).superblock = smallSb := by
    have : smallImage root free 1 = (((Block.zero.setWord 0 54).setWord 1 20).setWord 2 7).setWord 3 30 := rfl
    rw [this]
    rfl
  refine ⟨smallSb_ok, hsb, rfl, fun n p m q hne he => ?_, fun n p hne => ?_, fun b hb => ?_⟩
  · rw [small_addr] at hne
    rw [small_addr, small_addr] at he
    split at he
    · split at he
      · rename_i h₁ h₂
        exact ⟨h₁.1.trans h₂.1.symm, h₁.2.trans h₂.2.symm⟩
      · cases he
    · rw [if_neg ‹_›] at hne
      exact absurd rfl hne
  · rw [small_addr] at hne ⊢
    split
    · exact ⟨by decide, by decide⟩
    · rw [if_neg ‹_›] at hne
      exact absurd rfl hne
  · have hb : b < 54 := hb
    have hmark : ∀ b, b < 54 → (((List.range 54).foldl (fun b i => if i < 5 ∨ 24 ≤ i then b.setBit i else b)
        Block.zero).bit b = true ↔ b < 4 ∨ 24 ≤ b ∨ b = 4) := by decide +kernel
    have hblk : smallImage root free (BBLOCK b smallSb.ninodes) =
        (List.range 54).foldl (fun b i => if i < 5 ∨ 24 ≤ i then b.setBit i else b) Block.zero := by
      unfold BBLOCK
      rw [Nat.div_eq_of_lt (by simp only [BPB, BSIZE]; omega)]
      rfl
    have hused : (imageFiles smallSb (smallImage root free)).used b ↔ b < 4 ∨ 24 ≤ b ∨ b = 4 := by
      show b < 54 ∧ Marked smallSb (smallImage root free) b ↔ _
      unfold Marked
      rw [hblk, Nat.mod_eq_of_lt (by simp only [BPB, BSIZE]; omega), hmark b hb]
      exact and_iff_right hb
    rw [hused]
    refine or_congr_right (or_congr_right ⟨?_, ?_⟩)
    · rintro rfl
      exact ⟨1, (0, []), by simp [small_addr]⟩
    · rintro ⟨n, p, hne, rfl⟩
      rw [small_addr] at hne ⊢
      split
      · rfl
      · rw [if_neg ‹_›] at hne
        exact absurd rfl hne

/-- The entries of a small disk's root directory. -/
theorem small_named (h : ∀ k, k < 2 → (le16 root.byte (DIRENT * k)).toNat < smallSb.inodes) :
    (imageFiles smallSb (smallImage root free)).Named smallSb := by
  intro n k ht hk
  have hn : n < smallSb.inodes := by
    by_contra hn
    unfold imageFiles filesOf at ht
    dsimp only at ht
    rw [if_neg hn] at ht
    cases ht
  have hn₁ : n = 1 := by
    by_contra hne
    unfold imageFiles at ht
    rw [filesOf_type hn, small_inode hn, if_neg hne] at ht
    cases ht
  subst hn₁
  have hk : k < 2 := by
    unfold imageFiles at hk
    rw [filesOf_size hn, small_inode hn, if_pos rfl] at hk
    have hk : DIRENT * k + DIRENT ≤ 32 := hk
    simp only [DIRENT] at hk
    omega
  have hentry : (imageFiles smallSb (smallImage root free)).entry 1 k = (le16 root.byte (DIRENT * k)).toNat := by
    unfold Files.entry
    rw [le16_congr (g := root.byte) (p := DIRENT * k) fun j hj => ?_]
    have hlt : DIRENT * k + j < 512 := by
      simp only [DIRENT]
      omega
    have haddr := small_addr root free 1 (blockPos ((DIRENT * k + j) / BSIZE))
    rw [Nat.div_eq_of_lt (by simpa only [BSIZE] using hlt)] at haddr
    have haddr : (imageFiles smallSb (smallImage root free)).addr 1 (blockPos 0) = 4 := haddr
    unfold imageFiles at haddr ⊢
    rw [filesOf_byte, Nat.div_eq_of_lt (by simpa only [BSIZE] using hlt), haddr, if_neg (by decide),
      Nat.mod_eq_of_lt (by simpa only [BSIZE] using hlt)]
    rfl
  rw [hentry]
  exact h k hk

/-- What the root inode of a small disk is in a state in which entry 0 is its only valid copy. -/
theorem small_cur {t : Sys} (hc : t.fs.Cached 1 0) (hu : ∀ j, t.fs.Cached 1 j → j = 0) :
    t.fs.cur 1 = (t.fs.icache 0).dinode := FsState.cur_cached hc hu

/-- Making a directory on a small disk. -/
theorem blocks_apart_mkdir : ∃ t, Reachable (fun _ => none) (smallImage smallRoot Block.zero) t ∧
    (t.fs.files smallSb).Apart := by
  have hrun : (machine (fun _ => none) [(0, .mkdir (some [97]))]).check (powerOn (smallImage smallRoot Block.zero))
      (fun _ _ => true) = true := by decide +kernel
  obtain ⟨_, t, w, h, -⟩ := Prog.run_of_check hrun
  have ht : Reachable (fun _ => none) (smallImage smallRoot Block.zero) t := ⟨_, w, h⟩
  exact ⟨t, ht, blocks_apart (smallImage_tidy _ _) (small_named (by decide)) _ ht⟩

/-- **An entry that names no inode breaks it**: the block of the root directory is freed when a process tries to change
its directory to `"x"`, whose entry leads to a data block that looks like an inode. -/
theorem dangling_not_apart : ¬∀ (sb : Superblock) (image : Nat → Block), TidyImage sb image →
    ∀ (devsw : Nat → Option Devsw) (t : Sys), Reachable devsw image t → (t.fs.files sb).Apart := by
  intro hall
  have hrun : (machine (fun _ => none) [(0, .chdir (some [120]))]).check
      (powerOn (smallImage danglingRoot danglingInode)) (fun _ t => !(t.fs.view 3).bit 4 &&
        decide ((t.fs.icache 0).dinode.addrs 0 = 4) && decide ((t.fs.icache 0).dinode.type = T_DIR) &&
        (List.finRange NINODE).all fun j => decide (t.fs.Cached 1 j ↔ j = 0)) = true := by decide +kernel
  obtain ⟨_, t, w, h, ht⟩ := Prog.run_of_check hrun
  simp only [Bool.and_eq_true, Bool.not_eq_true', decide_eq_true_eq, List.all_eq_true] at ht
  obtain ⟨⟨⟨hbit, haddr⟩, htype⟩, hcached⟩ := ht
  have hcached := fun j => hcached j (List.mem_finRange j)
  have happ := hall _ _ (smallImage_tidy danglingRoot danglingInode) (fun _ => none) t ⟨_, w, h⟩
  have hcur := small_cur ((hcached 0).2 rfl) fun j => (hcached j).1
  have haddr : (t.fs.files smallSb).addr 1 (0, []) = 4 := by
    unfold FsState.files
    rw [filesOf_addr (by decide) (by rw [hcur, htype]; decide), hcur, Dinode.addr_eq (Nat.zero_le _)]
    show ((t.fs.icache 0).dinode.addrs 0).toNat = 4
    rw [haddr]
    rfl
  have hmark := (happ.used 1 (0, []) (by rw [haddr]; decide)).2
  rw [haddr] at hmark
  have hmark : (t.fs.view 3).bit 4 = true := hmark
  rw [hbit] at hmark
  cases hmark

end Small

/-! ## Discarding inodes -/

/-- Every block of an inode is freed, no other mark changes, and the inode has no addresses and no size, in the cache and
on disk. -/
structure FreesAll (sb : Superblock) (ip : Slot) (s t : FsState) : Prop where
  freed : ∀ p, (s.files sb).addr (s.icache ip).inum p ≠ 0 → ¬Marked sb t.view ((s.files sb).addr (s.icache ip).inum p)
  kept : ∀ b, b < sb.size → (∀ p, (s.files sb).addr (s.icache ip).inum p ≠ b) → (Marked sb t.view b ↔ Marked sb s.view b)
  cached : (t.icache ip).dinode = (s.icache ip).dinode.trunc
  disk : diskInode t.view (s.icache ip).inum = (s.icache ip).dinode.trunc

section Discard

variable {E : Setting} {m : Slot → Nat} {s t : FsState} {ip : Slot}

theorem Truncated.freesAll_iff (h : Inv E .no m s) (ht : Truncated E ip s t) :
    FreesAll E.sb ip s t ↔
      ∀ p, (s.files E.sb).addr (s.icache ip).inum p ≠ 0 → p.2.length ≤ 1 := by
  have hlt := fun p hne => E.ok.data_lt (h.sound.area (s.icache ip).inum p hne)
  constructor
  · intro hall p hne
    -- a block at a deeper position would still be marked
    by_contra hlen
    refine hall.freed p hne ((ht.marked _ (hlt p hne)).2 ⟨(h.sound.used _ p hne).2, ?_⟩)
    rintro ⟨-, q, hq, he⟩
    obtain ⟨-, rfl⟩ := h.sound.inj _ _ _ _ (by rw [he]; exact hne) he
    exact hlen hq
  · intro hshort
    refine ⟨fun p hne hmark => ?_, fun b hb hno => ?_, ?_, ?_⟩
    · exact ((ht.marked _ (hlt p hne)).1 hmark).2 ⟨hne, p, hshort p hne, rfl⟩
    · rw [ht.marked b hb]
      exact and_iff_left fun ⟨_, p, _, hp⟩ => hno p hp
    · rw [ht.icache, Function.update_self]
    · unfold diskInode
      rw [ht.disk]
      exact Block.getDinode_putDinode_self _ _ (Nat.mod_lt _ (by decide))

end Discard

/-! ### Nothing is allocated -/

/-- The contract of code that does not call `balloc`. -/
def noBalloc : Contract Stop Event where
  assume := fun _ => True
  ensure := fun
    | .balloc _ _ => False
    | _ => True
  fail := fun _ => True

section NoBalloc

variable {s : FsState}

theorem logWrite_noBalloc (x : Nat) (data : Block) (io : LogState) :
    Wp noBalloc (logWrite x data) (fun _ _ => True) io := by
  simp [logWrite, noBalloc]

theorem bfree_noBalloc (b : UInt32) : Wp noBalloc (liftM (bfree b) : Kern FsState Unit) (fun _ _ => True) s := by
  simp only [wp_liftM, bfree, wp_bind, wp_readsb, wp_bread, wp_ite, wp_panic]
  exact ⟨fun _ => logWrite_noBalloc _ _ _, fun _ => trivial⟩

theorem freeAddr_noBalloc (ip : Slot) (j : Fin (NDIRECT + 1)) : Wp noBalloc (freeAddr ip j) (fun _ _ => True) s := by
  rw [freeAddr, wp_bind, inode_wp, wp_bind]
  exact (bfree_noBalloc _).mono fun _ t _ => (setDinode_wp _ _ _).2 trivial

theorem itrunc_noBalloc (ip : Slot) : Wp noBalloc (itrunc ip) (fun _ _ => True) s := by
  have hend : ∀ t : FsState, Wp noBalloc (do
      setDinode ip fun d => { d with size := 0 }
      iupdate ip) (fun _ _ => True) t := by
    intro t
    simp only [iupdate, wp_bind, setDinode_wp, inode_wp, wp_liftM, wp_bread]
    exact logWrite_noBalloc _ _ _
  rw [itrunc, wp_bind, inode_wp, wp_bind, wp_get, wp_bind, wp_emit]
  refine fun _ => ⟨trivial, ?_⟩
  rw [wp_bind]
  refine (wp_forEach (fun _ _ => True) (fun j _ t _ => ?_) _ _ trivial).mono fun _ t _ => ?_
  · rw [wp_bind, inode_wp, wp_ite, wp_pure]
    exact ⟨fun _ => freeAddr_noBalloc _ _, fun _ => trivial⟩
  · rw [wp_bind, inode_wp, wp_ite]
    refine ⟨fun _ => ?_, fun _ => hend t⟩
    rw [wp_bind, bread_wp, wp_bind]
    refine (wp_forEach (fun _ _ => True) (fun j _ u _ => ?_) _ _ trivial).mono fun _ u _ => ?_
    · rw [wp_ite, wp_pure]
      exact ⟨fun _ => bfree_noBalloc _, fun _ => trivial⟩
    · rw [wp_bind]
      exact (freeAddr_noBalloc _ _).mono fun _ v _ => hend v

end NoBalloc

end NewXv6
