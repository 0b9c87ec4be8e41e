import NewXv6.Mkfs.Files
import NewXv6.Fs.Overlay

/-!
# Running on a new disk

Where at most 512 blocks are used, so that its bitmap is right, `mkfs` makes a disk with sound files (`mkfs_image`), and the
invariant of the system calls holds of every run that starts with it: `balloc` returns data blocks (`balloc_inData`), and if
the root directory is not rounded up by a whole block, no file gets a hole and `readi` writes nothing (`runs_full`).
-/

namespace NewXv6

open Lib

namespace Mkfs

open State

/-! ## The root directory -/

theorem dirent_inum (inum : Nat) (name : List UInt8) :
    le16 (fun j => (dirent inum name).getD j 0) 0 = UInt16.ofNat inum :=
  le16_byte16 fun j hj => by
    obtain rfl | rfl : j = 0 ∨ j = 1 := by omega
    · rfl
    · rfl

/-- The bytes of entry `k`. -/
theorem dirBytes_getD {es : List (Nat × List UInt8)} : ∀ {k : Nat} {e : Nat × List UInt8}, es[k]? = some e →
    ∀ j, j < 16 → (dirBytes es).getD (16 * k + j) 0 = (dirent e.1 e.2).getD j 0 := by
  induction es with
  | nil =>
    intro k e he
    rw [List.getElem?_nil] at he
    cases he
  | cons e' es ih =>
    intro k e he j hj
    have hcons : dirBytes (e' :: es) = dirent e'.1 e'.2 ++ dirBytes es := rfl
    have hlen := length_dirent e'.1 e'.2
    rw [hcons, List.getD_eq_getElem?_getD]
    cases k with
    | zero =>
      cases he
      rw [Nat.mul_zero, Nat.zero_add, List.getElem?_append_left (by omega), List.getD_eq_getElem?_getD]
    | succ k =>
      have hidx : 16 * (k + 1) + j - 16 = 16 * k + j := by omega
      rw [List.getElem?_append_right (by omega), hlen, hidx, ← List.getD_eq_getElem?_getD]
      exact ih he j hj

theorem entriesFrom_lt (files : List HostFile) : ∀ n, ∀ e ∈ entriesFrom n files, e.1 < n + files.length := by
  induction files with
  | nil => exact fun _ _ he => absurd he List.not_mem_nil
  | cons f files ih =>
    intro n e he
    rw [List.length_cons]
    rcases List.mem_cons.1 he with rfl | he
    · dsimp only
      omega
    · have hrest := ih (n + 1) e he
      omega

theorem entries_lt {files : List HostFile} {e : Nat × List UInt8} (he : e ∈ entries files) : e.1 < files.length + 2 := by
  rcases List.mem_cons.1 he with rfl | he
  · show 1 < _
    omega
  · rcases List.mem_cons.1 he with rfl | he
    · show 1 < _
      omega
    · have hrest := entriesFrom_lt files 2 e he
      omega

/-- The inodes that the root directory names. -/
theorem root_entry {files : List HostFile} (hfiles : files.length + 2 ≤ sb.inodes) (k : Nat) :
    (le16 (fun o => (dirBytes (entries files)).getD o 0) (DIRENT * k)).toNat < sb.inodes := by
  have hinodes := inodes_eq
  cases he : (entries files)[k]? with
  | some e =>
    have hbytes : le16 (fun o => (dirBytes (entries files)).getD o 0) (DIRENT * k) =
        le16 (fun j => (dirent e.1 e.2).getD j 0) 0 := le16_congr fun j hj => by
      rw [Nat.zero_add]
      exact dirBytes_getD he j (by omega)
    rw [hbytes, dirent_inum, UInt16.toNat_ofNat']
    have hlt := entries_lt (List.mem_of_getElem? he)
    exact Nat.lt_of_le_of_lt (Nat.mod_le _ _) (by omega)
  | none =>
    have hlen := List.getElem?_eq_none_iff.1 he
    rw [le16_zero fun j hj => ?_]
    · decide
    · rw [List.getD_eq_getElem?_getD, List.getElem?_eq_none]
      · rfl
      · rw [length_dirBytes]
        show 16 * _ ≤ 16 * k + j
        omega

theorem sb_ok : sb.Ok := ⟨by decide, by decide, by decide, by decide⟩

/-- The superblock that `mkfs` writes is the one that the kernel reads. -/
theorem format_superblock : (format.disk 1).superblock = sb := by
  have hword : ∀ k, k < NINDIRECT → (format.disk 1).word k =
      if k = 3 then .ofNat nlog else if k = 2 then .ofNat ninodes else if k = 1 then .ofNat nblocks else
        if k = 0 then .ofNat size else 0 := fun k _ => by
    show (((((Block.zero.setWord 0 _).setWord 1 _).setWord 2 _).setWord 3 _).word k) = _
    rw [Block.word_setWord _ _ _ (by decide), Block.word_setWord _ _ _ (by decide), Block.word_setWord _ _ _ (by decide),
      Block.word_setWord _ _ _ (by decide), Block.word_zero]
  unfold Block.superblock
  rw [hword 0 (by decide), hword 1 (by decide), hword 2 (by decide), hword 3 (by decide)]
  rfl

/-! ## The invariant -/

section Image

variable {files : List HostFile} {disk : Nat → Block}

/-- The inodes that are in use: the root directory, and one for each file. -/
theorem Disk.inode (h : Disk files disk) {n : Nat} (hn : (imageFiles sb disk).type n ≠ 0) :
    n = ROOTINO ∨ ∃ i f, n = i + 2 ∧ files[i]? = some f := by
  have hlow : n ≠ 0 := fun h0 => hn (h.free n (Or.inl h0))
  have hhigh : ¬files.length + 2 ≤ n := fun hle => hn (h.free n (Or.inr hle))
  by_cases hroot : n = ROOTINO
  · exact Or.inl hroot
  · have hroot' : n ≠ 1 := hroot
    have hlt : n - 2 < files.length := by omega
    exact Or.inr ⟨n - 2, files[n - 2], by omega, List.getElem?_eq_getElem hlt⟩

/-- **A new disk** has sound files. They have no holes, unless the root directory fills its blocks: then it is rounded up by a
whole block. -/
theorem mkfs_image {P : Policy} (h : mkfs files = some disk) (hfiles : files.length + 2 ≤ sb.inodes)
    (hmax : ∀ f ∈ files, f.contents.length ≤ maxBlocks * 512) (hused : (filled files).usedblocks ≤ 512) (hlog : ¬P.logMarked)
    (hexact : ¬P.exact) (hstrict : P.strict → (files.length + 2) % 32 ≠ 0) : Image sb P disk := by
  have hmeta := metablocks_eq
  have hinodes := inodes_eq
  have hdisk := mkfs_made h hfiles hmax (by show _ ≤ 512 * 257; omega)
  have hchunk := balloc_chunk (s := filled files) hused
  rw [← mkfs_disk h] at hchunk
  have hlow := hdisk.laid.free
  have hfree : (filled files).freeblock = (filled files).usedblocks := (filled_used files).symm
  have hbitmap : ninodes / IPB + 3 = 28 := rfl
  -- the blocks in use are those before `usedblocks`
  have hmarked : ∀ b, b < 512 → ((imageFiles sb disk).used b ↔ b < (filled files).usedblocks) := fun b hb => by
    have hblock : BBLOCK b sb.ninodes = ninodes / IPB + 3 := by
      show b / 4096 + 25 + 3 = 28
      omega
    show b < 1024 * 1024 ∧ (disk _).bit (b % 4096) = true ↔ _
    rw [hblock, hchunk, if_pos rfl, bit_bitmapBlock, decide_eq_true_iff, Nat.mod_eq_of_lt (show b < 4096 by omega)]
    omega
  refine ⟨sb_ok, ?_, ?_, ⟨hdisk.laid.inj, fun n p hne => ?_, fun n p hne => ?_, fun b hb hres => ?_, fun n p ht => ?_,
    fun hs n bn hn hlt => ?_, fun he => absurd he hexact, fun n k hn hk => ?_⟩⟩
  · rw [hchunk, if_neg (by omega), hdisk.laid.super]
    exact format_superblock
  · have hblank : disk sb.logStart = Block.zero := by
      have hstart : sb.logStart = 1048546 := by decide
      rw [hchunk, if_neg (by omega)]
      exact hdisk.laid.blank _ (by omega)
    rw [hblank]
    exact headCount_of_word_zero (Block.word_zero 0)
  · have harea := hdisk.laid.area n p hne
    refine ⟨harea.1, Nat.lt_of_lt_of_le harea.2 ?_⟩
    show _ ≤ 1048546
    omega
  · have harea := hdisk.laid.area n p hne
    exact (hmarked _ (by omega)).2 (by omega)
  · rcases hres with hmetadata | ⟨hmark, -⟩
    · have hmetadata' : b < 285 := hmetadata
      exact (hmarked b (by omega)).2 (by omega)
    · exact absurd hmark hlog
  · refine if_neg fun hc => hc.2 ?_
    rw [← ht]
    exact (filesOf_type hc.1).symm
  · have hlt' : bn * 512 < (imageFiles sb disk).size n := hlt
    rcases hdisk.inode hn with rfl | ⟨i, f, rfl, hi⟩
    · rw [hdisk.root.2] at hlt'
      have hround := hstrict hs
      exact hdisk.block bn (by omega)
    · obtain ⟨-, hcontent⟩ := hdisk.file i f hi
      rw [hcontent.size] at hlt'
      have hne := hcontent.addr (512 * bn) (by omega)
      have hdiv : 512 * bn / BSIZE = bn := Nat.mul_div_cancel_left bn (by decide)
      rwa [hdiv] at hne
  · rcases hdisk.inode (by rw [hn]; decide) with rfl | ⟨i, f, rfl, hi⟩
    · have hentry : (imageFiles sb disk).entry ROOTINO k = (le16 (fun o => (dirBytes (entries files)).getD o 0) (DIRENT * k)).toNat :=
        congrArg UInt16.toNat (le16_congr fun j _ => hdisk.entry _)
      rw [hentry]
      exact root_entry hfiles k
    · rw [(hdisk.file i f hi).1] at hn
      exact absurd hn (by decide)

end Image

/-! ## A disk with one file -/

namespace State

variable {s : State} {inum n : Nat} {type : Int16} {b : UInt32} {p : List UInt8}

/-- An inode with at most one block. -/
def oneBlock (type : Int16) (size : Nat) (b : UInt32) : Dinode :=
  { Dinode.zero with type, nlink := 1, size := .ofNat size, addrs := fun j => if j = 0 then b else 0 }

theorem size_oneBlock (hn : n ≤ 512) : (oneBlock type n b).size.toNat = n := by
  show (UInt32.ofNat n).toNat = n
  rw [UInt32.toNat_ofNat', Nat.mod_eq_of_lt (by omega)]

theorem addrs_oneBlock : (oneBlock type n b).addrs 0 = b := by
  show (if (0 : Fin (NDIRECT + 1)) = 0 then b else 0) = b
  exact if_pos rfl

theorem ialloc_oneBlock (s : State) (type : Int16) : (s.ialloc type).2.rinode s.freeinode = oneBlock type 0 0 := by
  refine (rinode_winode_self _ _ _).trans ?_
  have haddrs : Dinode.zero.addrs = fun j => if j = 0 then 0 else 0 := funext fun j => by
    rw [ite_self]
    rfl
  unfold oneBlock
  dsimp only
  rw [haddrs]
  rfl

/-- `iappend` behind what the block has. -/
theorem iappend_oneBlock (h : s.rinode inum = oneBlock type n b) (hb : b ≠ 0) (hp : p ≠ []) (hfit : n + p.length ≤ 512) :
    s.iappend inum p = s.wfile inum (oneBlock type (n + p.length) b) b.toNat n p := by
  have hlen := List.length_pos_iff.2 hp
  have hsize : (s.rinode inum).size.toNat = n := by
    rw [h]
    exact size_oneBlock (by omega)
  have haddr : s.address (s.rinode inum) 0 = (b.toNat, s.rinode inum, s) := by
    unfold address
    rw [h, addrs_oneBlock, if_neg hb]
  rw [iappend_direct s inum (j := 0) hp (by rw [hsize]; show 0 = n / 512; omega) (by decide) (by rw [hsize]; omega), haddr, hsize,
    Nat.mod_eq_of_lt (show n < 512 by omega), Nat.mod_eq_of_lt (show n + p.length < 2 ^ 32 by omega), h]
  rfl

/-- The first `iappend` takes the next free block. -/
theorem iappend_fresh (h : s.rinode inum = oneBlock type 0 0) (hp : p ≠ []) (hfit : p.length ≤ 512) :
    s.iappend inum p = s.take.2.wfile inum (oneBlock type p.length (.ofNat s.freeblock)) s.freeblock 0 p := by
  have hsize : (s.rinode inum).size.toNat = 0 := by
    rw [h]
    exact size_oneBlock (by decide)
  have haddr : s.address (s.rinode inum) 0 = (s.freeblock, oneBlock type 0 (.ofNat s.freeblock), s.take.2) := by
    unfold address
    rw [h, addrs_oneBlock, if_pos rfl]
    congr 2
    unfold oneBlock
    dsimp only
    congr 1
    funext j
    rw [Function.update_apply, ite_self]
    rfl
  rw [iappend_direct s inum (j := 0) hp (by rw [hsize]; rfl) (by decide) (by rw [hsize]; omega), haddr, hsize, Nat.zero_mod, Nat.zero_add,
    Nat.mod_eq_of_lt (show p.length < 2 ^ 32 by omega)]
  rfl

end State

section OneByte

open State

/-- The disk with the file of one byte before the bitmap is written: the root directory is in block 285, the file in block 286. -/
def oneByteState : State :=
  let s := (format.ialloc T_DIR).2.take.2.wfile 1 (oneBlock T_DIR 16 285) 285 0 (dirent 1 [46])
  let s := s.wfile 1 (oneBlock T_DIR 32 285) 285 16 (dirent 1 [46, 46])
  let s := (s.ialloc T_FILE).2.wfile 1 (oneBlock T_DIR 48 285) 285 32 (dirent 2 [97])
  (s.take.2.wfile 2 (oneBlock T_FILE 1 286) 286 0 [1]).winode 1 (oneBlock T_DIR 512 285)

/-- Four calls of `iappend` and the rounding of the directory. -/
theorem filled_oneByte : filled (List.replicate 1 oneByte) = oneByteState := by
  have hone : ROOTINO = 1 := rfl
  -- the root directory
  have hnew : (format.ialloc T_DIR).2.rinode 1 = oneBlock T_DIR 0 0 := ialloc_oneBlock format T_DIR
  have hroot : makeRoot format = ((format.ialloc T_DIR).2.take.2.wfile 1 (oneBlock T_DIR 16 285) 285 0 (dirent 1 [46])).wfile 1
      (oneBlock T_DIR 32 285) 285 16 (dirent 1 [46, 46]) := by
    show ((format.ialloc T_DIR).2.iappend 1 (dirent 1 [46])).iappend 1 (dirent 1 [46, 46]) = _
    rw [iappend_fresh hnew (dirent_ne _ _) (by rw [length_dirent]; decide),
      iappend_oneBlock (rinode_wfile_self _ _ _ _ _ _) (by decide) (dirent_ne _ _) (by rw [length_dirent, length_dirent]; decide),
      length_dirent, length_dirent]
    rfl
  have hroot₁ : (makeRoot format).rinode 1 = oneBlock T_DIR 32 285 := by
    rw [hroot, rinode_wfile_self]
  have hinode : (makeRoot format).freeinode = 2 := makeRoot_small.2.2.2.2
  have hfree : (makeRoot format).freeblock = 286 := by
    have hmade : (format.ialloc T_DIR).2.take.2.freeblock = metablocks + 1 := rfl
    rw [hroot, freeblock_wfile, freeblock_wfile, hmade, metablocks_eq]
  -- the file and its entry
  have hadd : addFile (makeRoot format) oneByte =
      (((makeRoot format).ialloc T_FILE).2.iappend 1 (dirent 2 [97])).iappend 2 [1] := by
    rw [addFile_eq, hinode, hone]
  have halloc : ((makeRoot format).ialloc T_FILE).2.rinode 2 = oneBlock T_FILE 0 0 := by
    have h := ialloc_oneBlock (makeRoot format) T_FILE
    rwa [hinode] at h
  have halloc₁ : ((makeRoot format).ialloc T_FILE).2.rinode 1 = oneBlock T_DIR 32 285 := by
    refine (rinode_winode_ne _ _ ?_).trans hroot₁
    rw [hinode]
    decide
  have hentry : ((makeRoot format).ialloc T_FILE).2.iappend 1 (dirent 2 [97]) =
      ((makeRoot format).ialloc T_FILE).2.wfile 1 (oneBlock T_DIR 48 285) 285 32 (dirent 2 [97]) := by
    rw [iappend_oneBlock halloc₁ (by decide) (dirent_ne _ _) (by rw [length_dirent]; decide), length_dirent]
    rfl
  have hfile : addFile (makeRoot format) oneByte =
      (((makeRoot format).ialloc T_FILE).2.wfile 1 (oneBlock T_DIR 48 285) 285 32 (dirent 2 [97])).take.2.wfile 2
        (oneBlock T_FILE 1 286) 286 0 [1] := by
    have hnew₂ : (((makeRoot format).ialloc T_FILE).2.wfile 1 (oneBlock T_DIR 48 285) 285 32 (dirent 2 [97])).rinode 2 =
        ((makeRoot format).ialloc T_FILE).2.rinode 2 := rinode_wfile_ne _ _ _ _ (by decide) (by decide)
    have hfree₂ : (((makeRoot format).ialloc T_FILE).2.wfile 1 (oneBlock T_DIR 48 285) 285 32 (dirent 2 [97])).freeblock = 286 := hfree
    rw [hadd, hentry, iappend_fresh (hnew₂.trans halloc) (List.cons_ne_nil _ _) (by decide), hfree₂]
    rfl
  -- the size of the directory
  have hlast : (addFile (makeRoot format) oneByte).rinode 1 = oneBlock T_DIR 48 285 := by
    rw [hfile, rinode_wfile_ne _ _ _ _ (by decide) (by decide)]
    exact rinode_wfile_self _ _ _ _ _ _
  have hfix : fixRoot (addFile (makeRoot format) oneByte) = (addFile (makeRoot format) oneByte).winode 1 (oneBlock T_DIR 512 285) := by
    unfold fixRoot
    dsimp only
    rw [hone, hlast]
    rfl
  show fixRoot (addFile (makeRoot format) oneByte) = _
  rw [hfix, hfile, hroot]
  rfl

/-- What `mkfs` makes of the file. -/
def oneByteDisk : Nat → Block := Function.update oneByteState.disk 28 (firstBits 287)

theorem mkfs_oneByte : mkfs (List.replicate 1 oneByte) = some oneByteDisk := by
  obtain ⟨disk, hmkfs, hdisk, -⟩ := mkfs_small (show 1 ≤ 300 by decide)
  have hused : oneByteState.usedblocks = 287 := by decide
  rw [hmkfs, hdisk, filled_oneByte, hused]
  congr 1
  funext sec
  rw [balloc_chunk (by decide), bitmapBlock_bytes (by decide)]
  exact (Function.update_apply _ _ _ _).symm

/-- `balloc` is called while block 287 is free. -/
def freeBlock : Event → Bool
  | .balloc v _ => !(v (BBLOCK 287 ninodes)).bit (287 % BPB)
  | _ => true

/-- `balloc` returns block 287. -/
def firstFree : Event → Bool
  | .balloc _ b => b == 287
  | _ => false

/-- A process makes a directory on the disk: its block is the first one after the file. -/
theorem oneByte_mkdir : ∃ t w, machine (fun _ => none) [(0, .mkdir (some [98]))] (powerOn oneByteDisk) = (.ok ((), t), w) ∧
    (∀ v b, .balloc v b ∈ w → ∃ x, sb.InData x ∧ ¬Marked sb v x) ∧ ∃ v, .balloc v 287 ∈ w := by
  have hrun : ((machine (fun _ => none) [(0, .mkdir (some [98]))] (powerOn oneByteDisk)).1.toOption.isSome &&
      (machine (fun _ => none) [(0, .mkdir (some [98]))] (powerOn oneByteDisk)).2.all freeBlock &&
      (machine (fun _ => none) [(0, .mkdir (some [98]))] (powerOn oneByteDisk)).2.any firstFree) = true := by decide +kernel
  rcases hm : machine (fun _ => none) [(0, .mkdir (some [98]))] (powerOn oneByteDisk) with ⟨_ | ⟨⟨⟩, t⟩, w⟩
  · rw [hm] at hrun
    cases hrun
  · rw [hm, Bool.and_eq_true, Bool.and_eq_true, List.all_eq_true, List.any_eq_true] at hrun
    obtain ⟨⟨-, hfree⟩, e, he, hfirst⟩ := hrun
    refine ⟨t, w, rfl, fun v b hb => ⟨287, ⟨by decide, by decide⟩, fun hmark => ?_⟩, ?_⟩
    · have hbit : (v (BBLOCK 287 ninodes)).bit (287 % BPB) = true := hmark
      have := hfree _ hb
      rw [freeBlock, hbit] at this
      cases this
    · cases e with
      | balloc v b =>
        rw [firstFree, beq_iff_eq] at hfirst
        exact ⟨v, hfirst ▸ he⟩
      | _ => cases hfirst

end OneByte

/-! ## Runs -/

section Runs

variable {files : List HostFile} {disk : Nat → Block} {devsw : Nat → Option Devsw} {tr : List (Fin NPROC × Call)} {t : Sys}
  {w : List Event}

/-- What a run assumes of `balloc`, and of nothing else. -/
theorem plain_assume {P : Policy} {ok : sb.Ok} {strict : P.exact → P.strict} (hexact : ¬P.exact)
    (hroom : ∀ v b, .balloc v b ∈ w → ∃ x, sb.InData x ∧ ¬Marked sb v x) :
    ∀ x ∈ w, (Setting.plain sb P ok strict).C.assume x := fun x hx => by
  cases x with
  | balloc v b => exact Or.inr (hroom v b hx)
  | itrunc v d => exact fun he => absurd he hexact
  | bwrite sector data => trivial
  | logWrite sector => trivial
  | beginOp => trivial
  | endOp => trivial

/-- **`balloc` returns data blocks** in every run on a new disk, as long as it is only called when there is a free one: the
system calls never write file data over the superblock, the inodes, the bitmap or the log, although the bits of the log are not
set. -/
theorem balloc_inData (h : mkfs files = some disk) (hfiles : files.length + 2 ≤ sb.inodes)
    (hmax : ∀ f ∈ files, f.contents.length ≤ maxBlocks * 512) (hused : (filled files).usedblocks ≤ 512) {r : Except Stop (Unit × Sys)}
    (hrun : machine devsw tr (powerOn disk) = (r, w)) (hroom : ∀ v b, .balloc v b ∈ w → ∃ x, sb.InData x ∧ ¬Marked sb v x) :
    ∀ v b, .balloc v b ∈ w → sb.InData b := by
  intro v b hb
  have himage : Image sb ⟨False, False, False⟩ disk := mkfs_image h hfiles hmax hused id id False.elim
  have halong := (machine_inv himage id devsw tr).1
  rw [hrun] at halong
  exact halong.ensure (plain_assume id hroom) _ hb

theorem balloc_inData_mkdir : ∃ disk v w, mkfs (List.replicate 1 oneByte) = some disk ∧
    (machine (fun _ => none) [(0, .mkdir (some [98]))] (powerOn disk)).2 = w ∧ .balloc v 287 ∈ w ∧
      ∀ v b, .balloc v b ∈ w → sb.InData b := by
  obtain ⟨t, w, hrun, hroom, v, hv⟩ := oneByte_mkdir
  have hused : (filled (List.replicate 1 oneByte)).usedblocks ≤ 512 := by
    rw [filled_oneByte]
    decide
  refine ⟨oneByteDisk, v, w, mkfs_oneByte, by rw [hrun], hv, ?_⟩
  exact balloc_inData mkfs_oneByte (by decide) (by decide) hused hrun hroom

/-- **No file has a hole** after a run on a new disk, unless the root directory was rounded up by a whole block: `readi` of the
inode of a pointer finds every block, so it allocates nothing and writes nothing to the log. -/
theorem runs_full (h : mkfs files = some disk) (hfiles : files.length + 2 ≤ sb.inodes)
    (hmax : ∀ f ∈ files, f.contents.length ≤ maxBlocks * 512) (hused : (filled files).usedblocks ≤ 512)
    (hround : (files.length + 2) % 32 ≠ 0) (hrun : machine devsw tr (powerOn disk) = (.ok ((), t), w))
    (hroom : ∀ v b, .balloc v b ∈ w → ∃ x, sb.InData x ∧ ¬Marked sb v x) :
    (∀ n o, (t.fs.files sb).type n ≠ 0 → o < (t.fs.files sb).size n → (t.fs.files sb).addr n (blockPos (o / BSIZE)) ≠ 0) ∧
    ∀ ip off n, 0 < t.refs ip → (t.fs.icache ip).valid = true → (t.fs.icache ip).dinode.type ≠ T_DEV →
      ∃ data, readi devsw ip off n t.fs = (.ok (data, t.fs), []) := by
  have himage : Image sb ⟨False, True, False⟩ disk := mkfs_image h hfiles hmax hused id id fun _ => hround
  have hinv := ((machine_inv himage False.elim devsw tr).run hrun (plain_assume id hroom)).fs
  refine ⟨fun n o ht ho => ?_, fun ip off n hm hv hdev => ⟨_, readi_full hdev devsw off n fun o h₁ h₂ => ?_⟩⟩
  · have hdiv := Nat.div_mul_le_self o BSIZE
    exact hinv.sound.full trivial n _ ht (Nat.lt_of_le_of_lt hdiv ho)
  · rw [← hinv.addr_eq hm hv]
    exact hinv.full trivial hm hv (by omega)

theorem runs_full_mkdir : ∃ disk t w, mkfs (List.replicate 1 oneByte) = some disk ∧
    machine (fun _ => none) [(0, .mkdir (some [98]))] (powerOn disk) = (.ok ((), t), w) ∧ (∃ v, .balloc v 287 ∈ w) ∧
      ∀ n o, (t.fs.files sb).type n ≠ 0 → o < (t.fs.files sb).size n → (t.fs.files sb).addr n (blockPos (o / BSIZE)) ≠ 0 := by
  obtain ⟨t, w, hrun, hroom, hv⟩ := oneByte_mkdir
  have hused : (filled (List.replicate 1 oneByte)).usedblocks ≤ 512 := by
    rw [filled_oneByte]
    decide
  exact ⟨oneByteDisk, t, w, mkfs_oneByte, hrun, hv, (runs_full mkfs_oneByte (by decide) (by decide) hused (by decide) hrun hroom).1⟩

end Runs

end Mkfs

end NewXv6
