import NewXv6.Mkfs.Files
import NewXv6.Fs.Overlay

/-!
# The kernel reads what `mkfs` wrote

The index computation of `iappend` is that of `bmap`: the kernel's `readi` returns the bytes of a host file, whatever `read`
returned of it to `mkfs`, and allocates nothing (`files_agree`). Where more than `512 * bitblocks` blocks are used, `balloc`
of `mkfs` writes chunks over files (`files_misread`).
-/

namespace NewXv6

open Lib

namespace Mkfs

open State

variable {s : State} {cs : List (List UInt8)} {root acc : List UInt8}

/-- The kernel reads the inode as a file with the contents `bs`, and allocates nothing for it. -/
def ReadsAs (disk : Nat → Block) (inum : Nat) (bs : List UInt8) : Prop :=
  (diskInode disk inum).type = T_FILE ∧ (diskInode disk inum).size.toNat = bs.length ∧
    ∀ (devsw : Nat → Option Devsw) (t : FsState) (ip : Slot) (off n : UInt32),
      (t.icache ip).dinode = diskInode disk inum → (∀ b, b < sb.logStart → t.view b = disk b) →
      readi devsw ip off n t = (.ok (if bs.length < off.toNat ∨ off + n < off then none
        else some ((bs.drop off.toNat).take n.toNat), t), [])

theorem logStart_eq : sb.logStart = 1048546 := by decide

/-- A part of a list, byte by byte. -/
theorem map_getD (bs : List UInt8) (off n : Nat) :
    (List.range (min n (bs.length - off))).map (fun j => bs.getD (off + j) 0) = (bs.drop off).take n := by
  refine List.ext_getElem ?_ fun i h₁ h₂ => ?_
  · rw [List.length_map, List.length_range, List.length_take, List.length_drop]
  · rw [List.length_map, List.length_range] at h₁
    rw [List.getElem_map, List.getElem_range, List.getElem_take, List.getElem_drop, List.getD_eq_getElem?_getD,
      List.getElem?_eq_getElem (by omega), Option.getD_some]

/-- A file with blocks before the log. -/
theorem content_reads {disk : Nat → Block} {n : Nat} {bs : List UInt8} (h : Content (imageFiles sb disk) n bs) (hn : n < sb.inodes)
    (ht : (imageFiles sb disk).type n = T_FILE)
    (harea : ∀ p, (imageFiles sb disk).addr n p ≠ 0 → (imageFiles sb disk).addr n p < sb.logStart) : ReadsAs disk n bs := by
  have htype : (diskInode disk n).type = T_FILE := by
    rw [← ht]
    exact (filesOf_type hn).symm
  have hne : (diskInode disk n).type ≠ 0 := by
    rw [htype]
    decide
  have hsize : (diskInode disk n).size.toNat = bs.length := by
    rw [← h.size]
    exact (filesOf_size hn).symm
  have haddr : ∀ p, (imageFiles sb disk).addr n p = (diskInode disk n).addr disk p := fun p => filesOf_addr hn hne p
  refine ⟨htype, hsize, fun devsw t ip off len hdin hview => ?_⟩
  have hpath : ∀ p, (diskInode disk n).addr t.view p = (diskInode disk n).addr disk p := fun p =>
    Dinode.addr_congr fun q _ _ hq => hview _ (by rw [← haddr] at hq ⊢; exact harea q hq)
  have hfull : ∀ o, o < bs.length → (t.icache ip).dinode.addr t.view (blockPos (o / BSIZE)) ≠ 0 := fun o ho => by
    rw [hdin, hpath, ← haddr]
    exact h.addr o ho
  have hbyte : ∀ o, o < bs.length → (diskInode disk n).byteAt t.view o = bs.getD o 0 := fun o ho => by
    have hf := h.byte o
    have hbyte : (imageFiles sb disk).byte n o = if (imageFiles sb disk).addr n (blockPos (o / BSIZE)) = 0 then 0
        else (disk ((imageFiles sb disk).addr n (blockPos (o / BSIZE)))).byte (o % BSIZE) := filesOf_byte _ _
    rw [hbyte, if_neg (h.addr o ho)] at hf
    unfold Dinode.byteAt
    rw [hpath, ← haddr, hview _ (harea _ (h.addr o ho)), hf]
  rw [readi_full (by rw [hdin, htype]; decide) devsw off len fun o _ ho => hfull o (by rw [hdin, hsize] at ho; omega), hdin, hsize,
    ← map_getD]
  refine congrArg (fun r => ((Except.ok (r, t), []) : Except Stop (Option (List UInt8) × FsState) × List Event)) ?_
  refine if_congr ?_ rfl (congrArg some (List.map_congr_left fun j hj => hbyte _ ?_))
  · rw [UInt32.lt_iff_toNat_lt, hsize]
  · have hj' := List.mem_range.1 hj
    omega

/-! ## Files of zeros -/

theorem balloc_low (used : Nat) {sec : Nat} (hsec : sec < ninodes / IPB + 3) : (s.balloc used).disk sec = s.disk sec :=
  ballocFrom_other used (Nat.ne_of_lt hsec) fun i _ => by omega

/-- The chunk from block `512 * i` on is written to block `i` of the bitmap, or after the bitmap. -/
theorem ballocFrom_at (used : Nat) : ∀ {s : State} {j i : Nat} {buf : Block}, 512 * i < used → 0 < j + i →
    (s.ballocFrom used j buf).disk (ninodes / IPB + 3 + (j + i)) = bitmapBlock (used - 512 * i) := by
  induction used using Nat.strongRecOn with
  | ind used ih =>
    intro s j i buf hi hpos
    have hused : 0 < used := Nat.lt_of_le_of_lt (Nat.zero_le _) hi
    rw [State.ballocFrom, dif_pos hused]
    cases i with
    | zero =>
      rw [ballocFrom_other (used - 512) (Nat.ne_of_gt (Nat.lt_add_of_pos_right hpos)) fun i _ => by omega]
      exact Function.update_self ..
    | succ i =>
      have hlater : used - 512 * (i + 1) = used - 512 - 512 * i := by omega
      rw [hlater, ← Nat.succ_add_eq_add_succ j i]
      exact ih (used - 512) (Nat.sub_lt hused (by decide)) (by omega) (by omega)

theorem bitmapBlock_byte {used : Nat} (h : 0 < used) : (bitmapBlock used).byte 0 ≠ 0 := by
  intro hzero
  have hbit := bit_bitmapBlock used 0
  rw [Block.bit_eq, hzero, decide_eq_true (by omega)] at hbit
  revert hbit
  decide

namespace State

theorem indirect_le (s : State) (a k : Nat) : (s.indirect a k).2.freeblock ≤ s.freeblock + 1 := by
  unfold indirect
  split
  · exact Nat.le_refl _
  · exact Nat.le_succ _

theorem address_le (s : State) (din : Dinode) (j : Fin (NDIRECT + 1)) : (s.address din j).2.2.freeblock ≤ s.freeblock + 1 := by
  unfold address
  split
  · exact Nat.le_refl _
  · exact Nat.le_succ _

theorem fileBlock_le (s : State) (din : Dinode) (fbn : Nat) : (s.fileBlock din fbn).2.2.freeblock ≤ s.freeblock + 4 := by
  unfold fileBlock
  split
  · exact Nat.le_trans (address_le s din _) (Nat.add_le_add_left (by decide) _)
  · dsimp only
    have hindex : ∀ {t : State} {m : Nat} (a k : Nat), t.freeblock ≤ m → (t.indirect a k).2.freeblock ≤ m + 1 :=
      fun a k h => Nat.le_trans (indirect_le _ a k) (Nat.succ_le_succ h)
    exact hindex _ _ (hindex _ _ (hindex _ _ (address_le s din _)))

/-- What lies in one block takes at most this block and three index blocks. -/
theorem iappend_le (s : State) (inum : Nat) {p : List UInt8} (hp : p ≠ [])
    (hroom : (s.rinode inum).size.toNat % 512 + p.length ≤ 512) : (s.iappend inum p).freeblock ≤ s.freeblock + 4 := by
  unfold iappend
  generalize (s.rinode inum).size.toNat = off at hroom ⊢
  have hmin : min p.length ((off / 512 + 1) * 512 - off) = p.length := by omega
  have hblock := fileBlock_le s (s.rinode inum) (off / 512)
  rw [iappendFrom, dif_neg hp]
  dsimp only
  rw [hmin, List.drop_length, iappendFrom, dif_pos rfl]
  exact hblock

end State

/-- A file has a block for each 512 bytes. -/
theorem State.Content.blocks {f : Files} {n k : Nat} {bs : List UInt8} (h : Content f n bs) (hlaid : Laid s f)
    (hlen : 512 * k ≤ bs.length) : metablocks + k ≤ s.freeblock := by
  have hne : ∀ bn < k, f.addr n (blockPos bn) ≠ 0 := fun bn hbn => by
    have haddr := h.addr (512 * bn) (by omega)
    have hdiv : 512 * bn / BSIZE = bn := Nat.mul_div_cancel_left bn (by decide)
    rwa [hdiv] at haddr
  have hcard := Finset.card_le_card_of_injOn (s := Finset.range k) (t := Finset.Ico metablocks s.freeblock)
    (fun bn => f.addr n (blockPos bn))
    (fun bn hbn => Finset.mem_coe.2 (Finset.mem_Ico.2 (hlaid.area _ _ (hne bn (Finset.mem_range.1 (Finset.mem_coe.1 hbn))))))
    (fun bn hbn bm _ he => blockPos_inj (hlaid.inj _ _ _ _ (hne bn (Finset.mem_range.1 (Finset.mem_coe.1 hbn))) he).2)
  rw [Finset.card_range, Nat.card_Ico] at hcard
  have hfree := hlaid.free
  omega

/-- A block of zeros. -/
def zeroBlock : List UInt8 := List.replicate 512 0

theorem length_zeroBlock : zeroBlock.length = 512 := List.length_replicate

theorem zeroBlock_ne : zeroBlock ≠ [] := List.ne_nil_of_length_pos (by rw [length_zeroBlock]; decide)

theorem length_zeroBlocks (n : Nat) : (List.replicate n zeroBlock).flatten.length = 512 * n := by
  unfold zeroBlock
  rw [List.flatten_replicate_replicate, List.length_replicate, Nat.mul_comm]

/-- The first byte of a file that the kernel reads. -/
theorem ReadsAs.byte {disk : Nat → Block} {n : Nat} {bs : List UInt8} (h : ReadsAs disk n bs) (hlen : 0 < bs.length)
    (haddr : (diskInode disk n).addr disk (blockPos 0) ≠ 0) : 
    (disk ((diskInode disk n).addr disk (blockPos 0))).byte 0 = bs.getD 0 0 := by
  obtain ⟨htype, hsize, hread⟩ := h
  let t : FsState := { (powerOn disk).fs with
    icache := fun _ => { inum := n, ref := 1, busy := false, valid := true, dinode := diskInode disk n } }
  have hrun := hread (fun _ => none) t 0 0 1 rfl fun _ _ => rfl
  have hdev : (t.icache 0).dinode.type ≠ T_DEV := by
    show (diskInode disk n).type ≠ _
    rw [htype]
    decide
  have hone : min (1 : UInt32).toNat ((t.icache 0).dinode.size.toNat - (0 : UInt32).toNat) = 1 := by
    show min 1 ((diskInode disk n).size.toNat - 0) = 1
    omega
  have hfull : ∀ o, (0 : UInt32).toNat ≤ o →
      o < (0 : UInt32).toNat + min (1 : UInt32).toNat ((t.icache 0).dinode.size.toNat - (0 : UInt32).toNat) →
      (t.icache 0).dinode.addr t.view (blockPos (o / BSIZE)) ≠ 0 := fun o _ ho => by
    rw [hone] at ho
    obtain rfl : o = 0 := Nat.lt_one_iff.1 ho
    exact haddr
  rw [readi_full hdev _ _ _ hfull, hone, if_neg (by simp), if_neg (by simp)] at hrun
  simp only [Except.ok.injEq, Prod.mk.injEq, Option.some.injEq, and_true] at hrun
  cases bs with
  | nil => exact absurd hlen (Nat.lt_irrefl 0)
  | cons c bs => exact (List.cons.inj hrun).1

/-- A file of `n` blocks of zeros. -/
def zeros (n : Nat) : HostFile where
  name := [97]
  reads := List.replicate n zeroBlock
  some_read cc h := by
    rw [List.eq_of_mem_replicate h]
    exact ⟨zeroBlock_ne, Nat.le_of_eq length_zeroBlock⟩

theorem zeros_getD (n o : Nat) : (zeros n).contents.getD o 0 = 0 := by
  have hzeros : ∀ c ∈ (zeros n).contents, c = 0 := fun c hc => by
    obtain ⟨cc, hcc, hc⟩ := List.mem_flatten.1 hc
    rw [List.eq_of_mem_replicate hcc] at hc
    exact List.eq_of_mem_replicate hc
  rw [List.getD_eq_getElem?_getD]
  cases ho : (zeros n).contents[o]? with
  | none => rfl
  | some c => exact hzeros c (List.mem_of_getElem? ho)

theorem Made.root_size (h : Made s cs root) : (s.rinode ROOTINO).size.toNat = root.length := by
  rw [← h.root.size]
  exact (filesOf_size (by decide)).symm

theorem Made.last_size (h : Made s (cs ++ [acc]) root) (hn : cs.length + 2 < sb.inodes) :
    (s.rinode (cs.length + 2)).size.toNat = acc.length := by
  rw [← (h.file cs.length acc List.getElem?_concat_length).2.size]
  exact (filesOf_size hn).symm

/-- Each block of a file takes at most four blocks. -/
theorem zeros_le (k : Nat) : ∀ {s : State} {acc : List UInt8}, Made s (cs ++ [acc]) root → cs.length + 2 < sb.inodes →
    acc.length % 512 = 0 → acc.length + 512 * k ≤ maxBlocks * 512 → s.freeblock + 4 * k < 2 ^ 32 →
    ((List.replicate k zeroBlock).foldl (fun s cc => s.iappend (cs.length + 2) cc) s).freeblock ≤ s.freeblock + 4 * k := by
  induction k with
  | zero => exact fun _ _ _ _ _ => Nat.le_refl _
  | succ k ih =>
    intro s acc h hn halign hmax hfew
    have hlen := length_zeroBlock
    have hblock := iappend_le s (cs.length + 2) zeroBlock_ne (by rw [h.last_size hn, halign, hlen])
    obtain ⟨hmade, -⟩ := h.read (p := zeroBlock) hn (by omega) (by omega)
    rw [List.replicate_succ, List.foldl_cons]
    have hrest := ih hmade hn (by rw [List.length_append, hlen]; omega) (by rw [List.length_append, hlen]; omega) (by omega)
    omega

/-- The first block of a file of zeros is one of the first after the bitmap, and the file is in at least as many blocks as it
has. -/
theorem zeros_image {k : Nat} (hk : k + 1 ≤ maxBlocks) :
    let s := addFile (makeRoot format) (zeros (k + 1))
    metablocks ≤ s.image.addr 2 (blockPos 0) ∧ s.image.addr 2 (blockPos 0) < 296 ∧ metablocks + (k + 1) ≤ s.freeblock ∧
      s.freeblock ≤ 296 + 4 * k := by
  intro s
  obtain ⟨-, heq, -, hhigh, hinode⟩ := makeRoot_small
  have hmeta := metablocks_eq
  have hmax : maxBlocks = 2097164 := by decide
  have hinodes := inodes_eq
  have hroot := makeRoot_made
  have hlen := length_dirBytes [(ROOTINO, [46]), (ROOTINO, [46, 46])]
  have hzero := length_zeroBlock
  have hent : (dirent 2 [97]).length = 16 := length_dirent _ _
  have hnew := hroot.ialloc (by rw [List.length_nil]; omega)
  -- the entry, the first block, and the rest
  have hfree₁ := iappend_le ((makeRoot format).ialloc T_FILE).2 ROOTINO (p := dirent 2 [97])
    (List.ne_nil_of_length_pos (by omega)) (by rw [hnew.root_size, hlen, hent]; decide)
  have hfree₀ : ((makeRoot format).ialloc T_FILE).2.freeblock = (makeRoot format).freeblock := rfl
  have hmade₁ := hnew.entry (p := dirent 2 [97]) (by rw [hlen, hent]; decide) (by omega)
  have hsum : s = (List.replicate k zeroBlock).foldl (fun t cc => t.iappend 2 cc)
      ((((makeRoot format).ialloc T_FILE).2.iappend ROOTINO (dirent 2 [97])).iappend 2 zeroBlock) := by
    have hstep : s = (List.replicate (k + 1) zeroBlock).foldl (fun t cc => t.iappend (makeRoot format).freeinode cc)
        (((makeRoot format).ialloc T_FILE).2.iappend ROOTINO (dirent (makeRoot format).freeinode [97])) := rfl
    rw [hstep, hinode]
    rfl
  clear_value s
  generalize ((makeRoot format).ialloc T_FILE).2.iappend ROOTINO (dirent 2 [97]) = s₁ at hfree₁ hmade₁ hsum
  have hn : ([] : List (List UInt8)).length + 2 < sb.inodes := by
    rw [List.length_nil]
    omega
  have hinum : ([] : List (List UInt8)).length + 2 = 2 := rfl
  have hsize : (s₁.rinode 2).size.toNat = 0 := hmade₁.last_size hn
  have hfree₂ := iappend_le s₁ 2 zeroBlock_ne (by rw [hsize, hzero])
  obtain ⟨hmade₂, -⟩ := hmade₁.read (p := zeroBlock) hn (by rw [List.length_nil, hzero]; decide)
    (by show (s₁.iappend 2 zeroBlock).freeblock < _; omega)
  generalize hs₂ : s₁.iappend 2 zeroBlock = s₂ at hfree₂ hsum
  have hmade₂' : Made s₂ ([] ++ [zeroBlock]) (dirBytes [(ROOTINO, [46]), (ROOTINO, [46, 46])] ++ dirent 2 [97]) := by
    rw [List.nil_append zeroBlock, hinum] at hmade₂
    rw [← hs₂]
    exact hmade₂
  have hfew : s.freeblock ≤ s₂.freeblock + 4 * k := by
    have hrest := zeros_le k hmade₂' hn (by rw [hzero]) (by rw [hzero]; omega) (by omega)
    rw [hinum] at hrest
    rw [hsum]
    exact hrest
  obtain ⟨hmade, hkeep⟩ := hmade₂'.reads (List.replicate k zeroBlock) hn
    (by rw [length_zeroBlocks, hzero]; omega)
    (by show ((List.replicate k zeroBlock).foldl (fun t cc => t.iappend 2 cc) s₂).freeblock < _; rw [← hsum]; omega)
  have hs : (List.replicate k zeroBlock).foldl (fun t cc => t.iappend (([] : List (List UInt8)).length + 2) cc) s₂ = s := hsum.symm
  rw [hs] at hmade hkeep
  -- the first block of the file is found before the others
  obtain ⟨-, hcontent⟩ := hmade₂'.file 0 zeroBlock rfl
  have hne : s₂.image.addr 2 (blockPos 0) ≠ 0 := hcontent.addr 0 (by rw [hzero]; decide)
  have harea := hmade₂'.laid.area 2 (blockPos 0) hne
  have haddr : s.image.addr 2 (blockPos 0) = s₂.image.addr 2 (blockPos 0) := hkeep _ hne
  obtain ⟨-, hwhole⟩ := hmade.file 0 _ rfl
  have hblocks := hwhole.blocks (k := k + 1) hmade.laid
    (by rw [List.length_append, length_zeroBlocks, hzero]; omega)
  rw [haddr]
  exact ⟨harea.1, by omega, hblocks, by omega⟩

/-- The blocks that are used. -/
theorem filled_blocks (files : List HostFile) :
    (filled files).usedblocks = (files.foldl addFile (makeRoot format)).freeblock := filled_used files

/-! ## Reading the files -/

/-- **The kernel reads the files as `mkfs` was given them**, where no more blocks are used than the bitmap that `mkfs` writes has
place for: it writes one block of it for each 512 used blocks. -/
theorem files_agree {files : List HostFile} {disk : Nat → Block} (h : mkfs files = some disk)
    (hfiles : files.length + 2 ≤ sb.inodes) (hmax : ∀ f ∈ files, f.contents.length ≤ maxBlocks * 512)
    (hused : (filled files).usedblocks ≤ 512 * bitblocks) : ∀ i f, files[i]? = some f → ReadsAs disk (i + 2) f.contents := by
  intro i f hi
  have hdisk := mkfs_made h hfiles hmax hused
  have hused' : (filled files).usedblocks ≤ 512 * 257 := hused
  have hlog := logStart_eq
  have hlt : i < files.length := (List.getElem?_eq_some_iff.1 hi).1
  obtain ⟨htype, hcontent⟩ := hdisk.file i f hi
  refine content_reads hcontent (by omega) htype fun p hne => ?_
  have hfree := filled_used files
  have harea := (hdisk.laid.area _ p hne).2
  omega

/-- A file of a thousand blocks, most of them behind index blocks. -/
theorem files_agree_zeros : ∃ disk, mkfs [zeros 1000] = some disk ∧ ReadsAs disk 2 (zeros 1000).contents ∧
    (zeros 1000).contents.length = 512000 := by
  have hmeta := metablocks_eq
  have hlen : (zeros 1000).contents.length = 512 * 1000 := length_zeroBlocks _
  have hused := filled_blocks [zeros 1000]
  rw [List.foldl_cons, List.foldl_nil] at hused
  obtain ⟨-, -, -, hfew⟩ := zeros_image (k := 999) (by decide)
  have hfew' : (addFile (makeRoot format) (zeros 1000)).freeblock ≤ 296 + 4 * 999 := hfew
  have hname : ¬([zeros 1000].any fun f => f.name.contains 47) = true := by
    show ¬(([97] : List UInt8).contains 47 || false) = true
    decide
  have hdisk : mkfs [zeros 1000] = some ((filled [zeros 1000]).balloc (filled [zeros 1000]).usedblocks).disk := by
    unfold mkfs
    rw [if_neg hname, if_pos (by omega)]
  have hmax : ∀ f ∈ [zeros 1000], f.contents.length ≤ maxBlocks * 512 := fun f hf => by
    rw [List.mem_singleton.1 hf, hlen]
    decide
  have hfits : (filled [zeros 1000]).usedblocks ≤ 512 * bitblocks := by
    show _ ≤ 512 * 257
    omega
  have hread := files_agree hdisk (by rw [inodes_eq, List.length_singleton]; decide) hmax hfits 0 _ rfl
  exact ⟨_, hdisk, hread, hlen⟩

/-- **The first block of a large file is lost**: the file fits its inode and the data area, but `balloc` writes a chunk of the
bitmap over its first block. -/
theorem files_misread {n : Nat} (hlow : 136420 ≤ n) (hhigh : n ≤ 262000) :
    (zeros n).contents.length ≤ maxBlocks * 512 ∧ (filled [zeros n]).usedblocks ≤ sb.logStart ∧
      ∃ disk i, mkfs [zeros n] = some disk ∧ 512 * i < (filled [zeros n]).usedblocks ∧ sb.InData (ninodes / IPB + 3 + i) ∧
        (diskInode disk 2).type = T_FILE ∧ (diskInode disk 2).addr disk (blockPos 0) = ninodes / IPB + 3 + i ∧
        disk (ninodes / IPB + 3 + i) = bitmapBlock ((filled [zeros n]).usedblocks - 512 * i) ∧
        ¬ReadsAs disk 2 (zeros n).contents := by
  have hmeta := metablocks_eq
  have hmax : maxBlocks = 2097164 := by decide
  have hinodes := inodes_eq
  have hlog := logStart_eq
  obtain ⟨k, rfl⟩ : ∃ k, n = k + 1 := ⟨n - 1, by omega⟩
  have hlen : (zeros (k + 1)).contents.length = 512 * (k + 1) := length_zeroBlocks _
  have hused := filled_blocks [zeros (k + 1)]
  rw [List.foldl_cons, List.foldl_nil] at hused
  obtain ⟨hfirst₀, hfirst₁, hmany, hfew⟩ := zeros_image (k := k) (by omega)
  generalize hs : addFile (makeRoot format) (zeros (k + 1)) = s at hfirst₀ hfirst₁ hmany hfew hused
  -- `mkfs` makes an image, and writes a chunk to the block
  have hname : ¬([zeros (k + 1)].any fun f => f.name.contains 47) = true := by
    show ¬(([97] : List UInt8).contains 47 || false) = true
    decide
  have hfiles : [zeros (k + 1)].length + 2 ≤ sb.inodes := by
    rw [hinodes, List.length_singleton]
    decide
  have hsizes : ∀ f ∈ [zeros (k + 1)], f.contents.length ≤ maxBlocks * 512 := fun f hf => by
    rw [List.mem_singleton.1 hf]
    omega
  have hmade := files_made hfiles hsizes (by omega)
  rw [List.foldl_cons, List.foldl_nil, hs] at hmade
  -- the inode is not overwritten, so the kernel finds the block
  have hfilled : filled [zeros (k + 1)] = fixRoot s := by rw [← hs]; rfl
  obtain ⟨-, htypes, haddr, -⟩ := fixRoot_image hmade (root_lt hfiles)
  have hinode : diskInode ((filled [zeros (k + 1)]).balloc (filled [zeros (k + 1)]).usedblocks).disk 2 =
      (fixRoot s).rinode 2 := by
    have hsec := balloc_low (s := filled [zeros (k + 1)]) (filled [zeros (k + 1)]).usedblocks
      (show IBLOCK 2 < ninodes / IPB + 3 by decide)
    unfold diskInode
    rw [hsec, hfilled]
    rfl
  have htype : ((fixRoot s).rinode 2).type = T_FILE := by
    have hfile : s.image.type 2 = T_FILE := (hmade.file 0 _ rfl).1
    rw [← hfile, ← htypes]
    exact (filesOf_type (by rw [hinodes]; decide)).symm
  have hfirst : (fixRoot s).image.addr 2 (blockPos 0) = ((fixRoot s).rinode 2).addr
      ((filled [zeros (k + 1)]).balloc (filled [zeros (k + 1)]).usedblocks).disk (blockPos 0) :=
    filesOf_addr (by rw [hinodes]; decide) (by rw [htype]; decide) (blockPos 0)
  rw [haddr, ← hinode] at hfirst
  have hplace : ninodes / IPB + 3 + (s.image.addr 2 (blockPos 0) - 28) = s.image.addr 2 (blockPos 0) := by
    show 28 + (_ - 28) = _
    omega
  have hunder : 512 * (s.image.addr 2 (blockPos 0) - 28) < (filled [zeros (k + 1)]).usedblocks := by omega
  have hchunk := @ballocFrom_at (filled [zeros (k + 1)]).usedblocks (filled [zeros (k + 1)]) 0 (s.image.addr 2 (blockPos 0) - 28)
    Block.zero hunder (by omega)
  rw [Nat.zero_add] at hchunk
  refine ⟨by omega, by omega, ((filled [zeros (k + 1)]).balloc (filled [zeros (k + 1)]).usedblocks).disk,
    s.image.addr 2 (blockPos 0) - 28, ?_, hunder, ?_, ?_, ?_, hchunk, fun hread => ?_⟩
  · unfold mkfs
    rw [if_neg hname, if_pos (by omega)]
  · rw [hplace]
    exact ⟨Nat.le_trans (by decide) hfirst₀, by omega⟩
  · rw [hinode, htype]
  · rw [hplace]
    exact hfirst.symm
  · rw [hplace] at hchunk
    have hbyte := hread.byte (by omega) (by rw [← hfirst]; omega)
    rw [← hfirst] at hbyte
    refine bitmapBlock_byte (Nat.sub_pos_of_lt hunder) ?_
    rw [← hchunk]
    exact hbyte.trans (zeros_getD _ _)

theorem files_misread_one : ∃ disk i, mkfs [zeros 140000] = some disk ∧ sb.InData (ninodes / IPB + 3 + i) ∧
    (diskInode disk 2).addr disk (blockPos 0) = ninodes / IPB + 3 + i ∧
    disk (ninodes / IPB + 3 + i) = bitmapBlock ((filled [zeros 140000]).usedblocks - 512 * i) ∧
    ¬ReadsAs disk 2 (zeros 140000).contents := by
  obtain ⟨-, -, disk, i, hdisk, -, hdata, -, haddr, hchunk, hread⟩ := files_misread (n := 140000) (by decide) (by decide)
  exact ⟨disk, i, hdisk, hdata, haddr, hchunk, hread⟩

end Mkfs

end NewXv6
