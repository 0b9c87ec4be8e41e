import Mathlib.Algebra.Order.BigOperators.Group.Finset
import Mathlib.Order.Interval.Finset.Nat
import NewXv6.Fs.Overlay

/-!
# Reads see the last writes

A `writei` in a transaction overlays the file with its bytes, or finds the log full. The blocks it has written are sectors of
the log, so more of them than the log holds cannot be written in one transaction.
-/

namespace NewXv6

open Lib

/-! ## A write and what is read after it -/

/-- A locked regular file of a consistent file system, in a transaction. -/
structure OpenFile (E : Setting) (m : Slot → Nat) (ip : Slot) (s : FsState) : Prop where
  inv : Inv E .no m s
  ref : 0 < m ip
  valid : (s.icache ip).valid = true
  file : (s.icache ip).dinode.type = T_FILE
  outstanding : 1 ≤ s.io.log.outstanding
  nodup : s.io.log.sector.Nodup

/-- `writei` returns the number of bytes, and what is read then is the file with the bytes written over it. -/
def Overlays (E : Setting) (devsw : Nat → Option Devsw) (ip : Slot) (src : List UInt8) (off : UInt32) (s : FsState) : Prop :=
  ∃ t w, writei devsw ip src off s = (.ok ((src.length : Int), t), w) ∧ Wrote E ip off.toNat src s t ∧
    ∀ off' n : UInt32,
      let size := max (s.icache ip).dinode.size.toNat (off.toNat + src.length)
      readi devsw ip off' n t = (.ok (if size < off'.toNat ∨ off' + n < off' then none
        else some ((List.range (min n.toNat (size - off'.toNat))).map fun j =>
          if off.toNat ≤ off'.toNat + j ∧ off'.toNat + j < off.toNat + src.length then src.getD (off'.toNat + j - off.toNat) 0
          else (s.files E.sb).byte (s.icache ip).inum (off'.toNat + j)), t), [])

section Overlay

variable {sb : Superblock} {P : Policy} {ok : sb.Ok} {strict : P.exact → P.strict} {V V' : Finset Nat} {F : Stop → Prop}
  {a : Ahead} {m : Slot → Nat} {ip : Slot} {s : FsState} {src : List UInt8} {off : UInt32}

/-- What may be logged is no part of the invariant. -/
theorem Inv.within (h : Inv (Setting.within sb P ok strict V) a m s) : Inv (Setting.within sb P ok strict V') a m s :=
  ⟨h.io, h.super, h.refs, h.uniq, h.inum, h.typed, h.weak, h.sync, h.sound⟩

theorem OpenFile.within (h : OpenFile (Setting.within sb P ok strict V) m ip s) :
    OpenFile (Setting.within sb P ok strict V') m ip s :=
  ⟨h.inv.within, h.ref, h.valid, h.file, h.outstanding, h.nodup⟩

theorem Overlays.within {devsw : Nat → Option Devsw} (h : Overlays (Setting.within sb P ok strict V) devsw ip src off s) :
    Overlays (Setting.within sb P ok strict V') devsw ip src off s := by
  obtain ⟨t, w, hrun, hwrote, hread⟩ := h
  exact ⟨t, w, hrun, ⟨hwrote.type, hwrote.size, hwrote.addr, hwrote.other, hwrote.byte⟩, hread⟩

/-- A run of `writei` ends with a failure of `F`, or the file is overlaid. -/
theorem OpenFile.overlays (h : OpenFile (Setting.within sb P ok strict V) m ip s) (hstrict : P.strict)
    (devsw : Nat → Option Devsw) (hoff : off ≤ (s.icache ip).dinode.size) (hmax : off.toNat + src.length ≤ MAXFILE * BSIZE)
    (hs : Supplied (Setting.within sb P ok strict V) V ∅ F s (s.icache ip).inum (paths off.toNat src.length))
    (hWi : (s.icache ip).dinode.size.toNat < off.toNat + src.length → IBLOCK (s.icache ip).inum ∈ V) :
    Overlays (Setting.within sb P ok strict V) devsw ip src off s ∨
      ∃ e w, writei devsw ip src off s = (.error e, w) ∧ F e := by
  rcases (writei_only Setting.logs_within h.inv h.ref h.valid h.file devsw hoff hmax hs hWi).ends with
    ⟨r, t, w, hrun, rfl, hinv, hstable, hwrote, -⟩ | hfail
  · refine Or.inl ⟨t, w, hrun, hwrote, fun off' n => ?_⟩
    obtain ⟨hvalid, htype⟩ := hstable.valid ip h.ref h.valid
    have hinum := hstable.inum ip h.ref
    have hfile : (t.icache ip).dinode.type = T_FILE := htype.trans h.file
    have hsize : (t.icache ip).dinode.size.toNat = max (s.icache ip).dinode.size.toNat (off.toNat + src.length) := by
      rw [← hinv.size_eq h.ref hvalid, hinum, hwrote.size, if_pos rfl, h.inv.size_eq h.ref h.valid]
    dsimp only
    rw [readi_run hinv hstrict h.ref hvalid hfile devsw off' n]
    congr 3
    refine if_congr ?_ rfl (congrArg some ?_)
    · rw [UInt32.lt_iff_toNat_lt, hsize]
    · rw [hsize]
      refine List.map_congr_left fun j _ => ?_
      rw [hinum, hwrote.byte]
      exact if_congr (and_iff_right rfl) rfl rfl
  · exact Or.inr hfail

/-- What a write may log, and what the log already has, is in `V`. -/
structure Covers (E : Setting) (V : Finset Nat) (s : FsState) (n : Nat) (L : Finset Pos) : Prop where
  room : Room (Setting.within E.sb E.P E.ok E.strict V) s n L
  inode : IBLOCK n ∈ V
  logged : ∀ x ∈ s.io.log.sector, x ∈ V

/-- Everything that is logged is on the disk. -/
theorem OpenFile.covers (h : OpenFile (Setting.within sb P ok strict V) m ip s) (L : Finset Pos) :
    Covers (Setting.within sb P ok strict V) (Finset.range sb.size) s (s.icache ip).inum L := by
  have hlog := ok.data_le
  refine ⟨⟨fun b hb => ⟨Finset.mem_range.2 hb.1, Finset.mem_range.2 ?_⟩, fun j ks k _ hne _ => Finset.mem_range.2 ?_,
    fun p _ _ hne => Finset.mem_range.2 ?_⟩, Finset.mem_range.2 ?_, fun x hx => Finset.mem_range.2 ?_⟩
  · have := (ok.bblock hb.1).2
    show BBLOCK b sb.ninodes < sb.size
    omega
  · exact ok.data_lt (h.inv.sound.area _ _ hne)
  · exact ok.data_lt (h.inv.sound.area _ _ hne)
  · have hinode : IBLOCK (s.icache ip).inum < sb.bitmapStart := (Superblock.iblock_lt (h.inv.inum ip h.ref)).2
    have hbitmap : sb.bitmapStart < sb.dataStart := Nat.lt_of_le_of_lt (Nat.le_add_right _ _) ok.bitmap
    omega
  · have := h.inv.io.home x hx
    have : x < sb.logStart := this
    omega

theorem OpenFile.supplied (h : OpenFile (Setting.within sb P ok strict V) m ip s) {L : Finset Pos}
    (henough : Enough (Setting.within sb P ok strict V) s (s.icache ip).inum L)
    (hcovers : Covers (Setting.within sb P ok strict V) V' s (s.icache ip).inum L)
    (hF : F (.panic .tooBigATransaction) ∨ V'.card < LOGSIZE ∧ V'.card + 1 < sb.nlog) :
    Supplied (Setting.within sb P ok strict V') V' ∅ F s (s.icache ip).inum L := by
  refine ⟨⟨h.outstanding, hcovers.logged, fun x hx => absurd hx (Set.notMem_empty x), h.nodup, ?_⟩, hcovers.room, henough⟩
  rw [h.inv.io.size]
  exact hF

/-- **A write of more blocks than the log holds** panics. -/
theorem OpenFile.tooBig (h : OpenFile (Setting.within sb P ok strict V) m ip s) (hstrict : P.strict)
    (devsw : Nat → Option Devsw) (hoff : off ≤ (s.icache ip).dinode.size) (hmax : off.toNat + src.length ≤ MAXFILE * BSIZE)
    (henough : Enough (Setting.within sb P ok strict V) s (s.icache ip).inum (paths off.toNat src.length))
    (hlen : LOGSIZE * BSIZE < src.length) :
    ∃ w, writei devsw ip src off s = (.error (.panic .tooBigATransaction), w) := by
  have hcovers := h.covers (paths off.toNat src.length)
  have hs := h.supplied henough hcovers (F := (· = .panic .tooBigATransaction)) (Or.inl rfl)
  have h' : OpenFile (Setting.within sb P ok strict (Finset.range sb.size)) m ip s := h.within
  rcases (writei_only Setting.logs_within h'.inv h.ref h.valid h.file devsw hoff hmax hs fun _ => hcovers.inode).ends with
    ⟨r, t, w, -, -, hinv, hstable, hwrote, hstored⟩ | ⟨e, w, hrun, rfl⟩
  · -- the blocks of the range are different sectors of the log
    exfalso
    obtain ⟨hvalid, -⟩ := hstable.valid ip h.ref h.valid
    have hinum := hstable.inum ip h.ref
    have hsize : (t.icache ip).dinode.size.toNat = max (s.icache ip).dinode.size.toNat (off.toNat + src.length) := by
      rw [← hinv.size_eq h.ref hvalid, hinum, hwrote.size, if_pos rfl, h'.inv.size_eq h.ref h.valid]
    have hlt : ∀ j ∈ Finset.range (LOGSIZE + 1), off.toNat + j * BSIZE < off.toNat + src.length := by
      intro j hj
      have := Nat.mul_le_mul_right BSIZE (Nat.le_of_lt_succ (Finset.mem_range.1 hj))
      omega
    have hcard := Finset.card_le_card_of_injOn
      (fun j => (t.files sb).addr (s.icache ip).inum (blockPos ((off.toNat + j * BSIZE) / BSIZE)))
      (s := Finset.range (LOGSIZE + 1)) (t := t.io.log.sector.toFinset)
      (fun j hj => List.mem_toFinset.2 (hstored _ ⟨_, Nat.le_add_right _ _, hlt j hj, rfl⟩)) fun j hj k hk he => by
        have hne : (t.files sb).addr (s.icache ip).inum (blockPos ((off.toNat + j * BSIZE) / BSIZE)) ≠ 0 := by
          rw [← hinum]
          refine hinv.full hstrict h.ref hvalid ?_
          have := hlt j hj
          omega
        have hpos := blockPos_inj (hinv.sound.inj _ _ _ _ hne he).2
        rw [Nat.add_mul_div_right _ _ (by decide), Nat.add_mul_div_right _ _ (by decide)] at hpos
        omega
    have hle := List.toFinset_card_le t.io.log.sector
    have := hinv.io.le_logsize
    rw [Finset.card_range] at hcard
    omega
  · exact ⟨w, hrun⟩

/-- **Reads see the last writes**, unless a write logs too much: it returns and overlays the file, or it panics with "too big
a transaction"; it returns where what it may log fits in the log with what is there. -/
theorem writei_readi (h : OpenFile (Setting.within sb P ok strict ∅) m ip s) (hstrict : P.strict)
    (devsw : Nat → Option Devsw) (hoff : off ≤ (s.icache ip).dinode.size) (hmax : off.toNat + src.length ≤ MAXFILE * BSIZE)
    (henough : Enough (Setting.within sb P ok strict ∅) s (s.icache ip).inum (paths off.toNat src.length)) :
    (Overlays (Setting.within sb P ok strict ∅) devsw ip src off s ∨
      ∃ w, writei devsw ip src off s = (.error (.panic .tooBigATransaction), w)) ∧
    ∀ V, Covers (Setting.within sb P ok strict ∅) V s (s.icache ip).inum (paths off.toNat src.length) →
      V.card < LOGSIZE → V.card + 1 < sb.nlog → Overlays (Setting.within sb P ok strict ∅) devsw ip src off s := by
  constructor
  · have hcovers := h.covers (paths off.toNat src.length)
    have hs := h.supplied henough hcovers (F := (· = .panic .tooBigATransaction)) (Or.inl rfl)
    rcases h.within.overlays hstrict devsw hoff hmax hs fun _ => hcovers.inode with hover | ⟨e, w, hrun, rfl⟩
    · exact Or.inl hover.within
    · exact Or.inr ⟨w, hrun⟩
  · intro V hcovers hlogsize hnlog
    have hs := h.supplied henough hcovers (F := fun _ => False) (Or.inr ⟨hlogsize, hnlog⟩)
    rcases h.within.overlays hstrict devsw hoff hmax hs fun _ => hcovers.inode with hover | ⟨e, w, -, hF⟩
    · exact hover.within
    · exact hF.elim

end Overlay

/-! ## A write that is too big -/

/-- 4 blocks of metadata, 204 data blocks, and a log of 30 blocks. -/
def roomySb : Superblock := ⟨238, 204, 7, 30⟩

/-- The root directory's inode. -/
def roomyRoot : Dinode := { Dinode.zero with type := T_DIR, nlink := 1, size := 32, addrs := fun j => if j = 0 then 4 else 0 }

/-- The inode of an empty file. -/
def roomyFile : Dinode := { Dinode.zero with type := T_FILE, nlink := 1 }

/-- A disk with a root directory of one block, an empty file, and 203 free blocks. -/
def roomyImage (x : Nat) : Block :=
  if x = 1 then (((Block.zero.setWord 0 238).setWord 1 204).setWord 2 7).setWord 3 30
  else if x = 2 then (Block.zero.putDinode 1 roomyRoot).putDinode 2 roomyFile
  else if x = 3 then fun i => if i.1 = 0 then 31 else if i.1 < 26 then 0 else 255
  else if x = 4 then Block.zero.put 0 32 fun j =>
    ([1, 0, 46, 0, 0, 0, 0, 0, 0, 0, 0, 0, 0, 0, 0, 0, 1, 0, 46, 46, 0, 0, 0, 0, 0, 0, 0, 0, 0, 0, 0, 0] : List UInt8).getD j 0
  else Block.zero

/-- The file is open, in a transaction. -/
def roomy : FsState where
  io := {
    log := { start := 208, size := 30, outstanding := 1, committing := false, sector := [] }
    bio := { disk := roomyImage, dirty := fun _ => none } }
  icache := fun ip =>
    if ip = 0 then { inum := 2, ref := 1, busy := true, valid := true, dinode := roomyFile }
    else { inum := 0, ref := 0, busy := false, valid := false, dinode := Dinode.zero }

section Roomy

theorem roomySb_ok : roomySb.Ok := ⟨by decide, by decide, by decide, by decide⟩

/-- The setting of the disk: the log is marked as used, and files have no holes. -/
def roomySetting : Setting := Setting.within roomySb ⟨True, True, False⟩ roomySb_ok False.elim ∅

theorem roomy_view : roomy.view = roomyImage := rfl

theorem roomy_inode {n : Nat} (hn : n < roomySb.inodes) : diskInode roomyImage n =
    if n = 2 then roomyFile else if n = 1 then roomyRoot else Dinode.zero := by
  have hn : n < 8 := hn
  have hb : roomyImage (IBLOCK n) = (Block.zero.putDinode 1 roomyRoot).putDinode 2 roomyFile := by
    unfold IBLOCK
    rw [Nat.div_eq_of_lt hn]
    rfl
  unfold diskInode
  rw [hb, Nat.mod_eq_of_lt hn]
  split
  · subst n
    exact Block.getDinode_putDinode_self _ _ (by decide)
  · rw [Block.getDinode_putDinode_ne _ _ ‹_›]
    split
    · subst n
      exact Block.getDinode_putDinode_self _ _ (by decide)
    · rw [Block.getDinode_putDinode_ne _ _ ‹_›, Block.getDinode_zero]

theorem roomy_cached {n : Nat} {ip : Slot} (h : roomy.Cached n ip) : ip = 0 ∧ n = 2 := by
  obtain ⟨href, -, hinum⟩ := h
  by_cases hip : ip = 0
  · subst hip
    exact ⟨rfl, hinum.symm⟩
  · have hzero : (roomy.icache ip).ref = 0 := by
      show (if ip = 0 then _ else _ : Inode).ref = 0
      rw [if_neg hip]
    rw [hzero] at href
    exact absurd href (by decide)

theorem roomy_cur {n : Nat} (hn : n < roomySb.inodes) :
    roomy.cur n = if n = 2 then roomyFile else if n = 1 then roomyRoot else Dinode.zero := by
  by_cases h : n = 2
  · subst h
    have hc : roomy.Cached 2 0 := ⟨by decide, rfl, rfl⟩
    rw [FsState.cur_cached hc fun j hj => (roomy_cached hj).1]
    rfl
  · rw [FsState.cur_disk fun ip hip => h (roomy_cached hip).2, roomy_view, roomy_inode hn]

theorem roomy_addr (n : Nat) (p : Pos) : (roomy.files roomySb).addr n p = if n = 1 ∧ p = (0, []) then 4 else 0 := by
  unfold FsState.files
  by_cases hn : n < roomySb.inodes
  · by_cases h₁ : n = 1
    · subst h₁
      rw [filesOf_addr hn (by rw [roomy_cur hn]; decide), roomy_cur hn]
      obtain ⟨j, ks⟩ := p
      by_cases hj : j = 0
      · subst hj
        cases ks with
        | nil => rfl
        | cons k ks => simp [Dinode.addr, depth]
      · simp [Dinode.addr, roomyRoot, hj]
    · rw [if_neg fun h => h₁ h.1]
      by_cases h₂ : n = 2
      · subst h₂
        rw [filesOf_addr hn (by rw [roomy_cur hn]; decide), roomy_cur hn]
        obtain ⟨j, ks⟩ := p
        simp [Dinode.addr, roomyFile, Dinode.zero]
      · unfold filesOf
        refine if_neg fun h => h.2 ?_
        rw [roomy_cur hn, if_neg h₂, if_neg h₁]
        rfl
  · unfold filesOf
    dsimp only
    rw [if_neg fun h => hn h.1, if_neg]
    rintro ⟨rfl, -⟩
    exact hn (by decide)

theorem roomy_marked {b : Nat} (hb : b < roomySb.size) : Marked roomySb roomyImage b ↔ b < 5 ∨ 208 ≤ b := by
  have hb : b < 238 := hb
  have hblk : roomyImage (BBLOCK b roomySb.ninodes) = roomyImage 3 := by
    unfold BBLOCK
    rw [Nat.div_eq_of_lt (by simp only [BPB, BSIZE]; omega)]
    rfl
  have hmark : ∀ b, b < 238 → ((roomyImage 3).bit b = true ↔ b < 5 ∨ 208 ≤ b) := by decide +kernel
  unfold Marked
  rw [hblk, Nat.mod_eq_of_lt (by simp only [BPB, BSIZE]; omega), hmark b hb]

theorem roomy_type {n : Nat} (hn : n < roomySb.inodes) : (roomy.files roomySb).type n =
    (if n = 2 then roomyFile else if n = 1 then roomyRoot else Dinode.zero).type := by
  unfold FsState.files
  rw [filesOf_type hn, roomy_cur hn]

theorem roomy_size {n : Nat} (hn : n < roomySb.inodes) : (roomy.files roomySb).size n =
    (if n = 2 then roomyFile else if n = 1 then roomyRoot else Dinode.zero).size.toNat := by
  unfold FsState.files
  rw [filesOf_size hn, roomy_cur hn]

theorem roomy_named {n : Nat} (h : (roomy.files roomySb).type n ≠ 0) : n < roomySb.inodes ∧ (n = 1 ∨ n = 2) := by
  have hn : n < roomySb.inodes := by
    by_contra hn
    exact h (if_neg hn)
  rw [roomy_type hn] at h
  refine ⟨hn, ?_⟩
  by_contra hne
  rw [not_or] at hne
  rw [if_neg hne.2, if_neg hne.1] at h
  exact h rfl

theorem roomy_sound : (roomy.files roomySb).Sound roomySb ⟨True, True, False⟩ := by
  refine ⟨fun n p m q hne he => ?_, fun n p hne => ?_, fun n p hne => ?_, fun b hb hres => ⟨hb, ?_⟩, fun n p ht => ?_,
    fun _ n bn ht hlt => ?_, False.elim, fun n k ht hk => ?_⟩
  · rw [roomy_addr] at hne
    rw [roomy_addr, roomy_addr] at he
    split at he
    · split at he
      · rename_i h₁ h₂
        exact ⟨h₁.1.trans h₂.1.symm, h₁.2.trans h₂.2.symm⟩
      · cases he
    · rw [if_neg ‹_›] at hne
      exact absurd rfl hne
  · rw [roomy_addr] at hne ⊢
    split
    · exact ⟨by decide, by decide⟩
    · rw [if_neg ‹_›] at hne
      exact absurd rfl hne
  · rw [roomy_addr] at hne ⊢
    split
    · exact ⟨by decide, (roomy_marked (by decide)).2 (by decide)⟩
    · rw [if_neg ‹_›] at hne
      exact absurd rfl hne
  · rcases hres with hlow | ⟨-, hlog⟩
    · have hlow : b < 4 := hlow
      exact (roomy_marked hb).2 (by omega)
    · have hlog : 208 ≤ b := hlog
      exact (roomy_marked hb).2 (Or.inr hlog)
  · rw [roomy_addr]
    refine if_neg ?_
    rintro ⟨rfl, -⟩
    rw [roomy_type (by decide)] at ht
    exact absurd ht (by decide)
  · obtain ⟨hn, rfl | rfl⟩ := roomy_named ht
    · rw [roomy_size hn] at hlt
      have hlt : bn * 512 < 32 := hlt
      obtain rfl : bn = 0 := by omega
      rw [roomy_addr]
      decide
    · rw [roomy_size hn] at hlt
      exact absurd hlt (Nat.not_lt_zero _)
  · obtain ⟨hn, rfl | rfl⟩ := roomy_named (by rw [ht]; decide)
    · rw [roomy_size hn] at hk
      have hk : 16 * k + 16 ≤ 32 := hk
      have hbyte : ∀ o, o < 512 → (roomy.files roomySb).byte 1 o = (roomyImage 4).byte o := by
        intro o ho
        have haddr : (roomy.files roomySb).addr 1 (blockPos 0) = 4 := roomy_addr _ _
        unfold FsState.files at haddr ⊢
        rw [filesOf_byte, Nat.div_eq_of_lt ho, haddr, if_neg (by decide), Nat.mod_eq_of_lt ho]
        rfl
      have hentry : (roomy.files roomySb).entry 1 k = (le16 (roomyImage 4).byte (DIRENT * k)).toNat := by
        unfold Files.entry
        rw [le16_congr fun j hj => hbyte (DIRENT * k + j) (by simp only [DIRENT]; omega)]
      have hall : ∀ k, k < 2 → (le16 (roomyImage 4).byte (DIRENT * k)).toNat < roomySb.inodes := by decide
      rw [hentry]
      exact hall k (by omega)
    · rw [roomy_type hn] at ht
      exact absurd ht (by decide)

/-- The pointers to the open file. -/
def roomyRefs (ip : Slot) : Nat := if ip = 0 then 1 else 0

theorem roomy_refs {ip : Slot} (h : 0 < roomyRefs ip) : ip = 0 := by
  by_contra hip
  unfold roomyRefs at h
  rw [if_neg hip] at h
  exact absurd h (Nat.lt_irrefl 0)

theorem roomy_open : OpenFile roomySetting roomyRefs 0 roomy := by
  have hsame : (diskInode roomyImage 2).Same roomyFile := by
    rw [roomy_inode (by decide)]
    exact Dinode.Same.rfl
  refine ⟨⟨?_, rfl, fun ip => ?_, fun ip jp hi hj _ => (roomy_refs hi).trans (roomy_refs hj).symm, fun ip hi => ?_,
    fun ip hi _ => ?_, fun ip _ hi _ => ?_, fun _ ip _ _ hi _ => ?_, roomy_sound⟩, by decide, rfl, rfl, by decide, List.nodup_nil⟩
  · exact ⟨rfl, rfl, rfl, fun x hx => absurd hx List.not_mem_nil, Nat.zero_le _, by decide, fun x hx => absurd rfl hx⟩
  · show (if ip = 0 then _ else _ : Inode).ref = ((if ip = 0 then 1 else 0 : Nat) : Int)
    split <;> rfl
  · obtain rfl := roomy_refs hi
    decide
  · obtain rfl := roomy_refs hi
    decide
  · obtain rfl := roomy_refs hi
    exact hsame.weak
  · obtain rfl := roomy_refs hi
    exact hsame

/-- A block has at most four positions on its way. -/
theorem card_path_le (bn : Nat) : (path bn).card ≤ 4 := by
  unfold path
  refine (List.toFinset_card_le _).trans ?_
  rw [List.length_map, List.length_inits]
  unfold blockPos
  split
  · exact Nat.succ_le_succ (Nat.zero_le _)
  · exact Nat.le_refl 4

/-- The disk has blocks for a file of 31 blocks. -/
theorem roomy_enough {len : Nat} (hlen : len ≤ 31 * BSIZE) : Enough roomySetting roomy 2 (paths 0 len) := by
  have hpaths : paths 0 len ⊆ (Finset.range 31).biUnion path := by
    intro p hp
    obtain ⟨j, hj, hp⟩ := Finset.mem_biUnion.1 hp
    rw [Finset.mem_range] at hj
    refine Finset.mem_biUnion.2 ⟨(0 + j) / BSIZE, Finset.mem_range.2 ?_, hp⟩
    rw [Nat.div_lt_iff_lt_mul (by decide)]
    omega
  have hcard : (paths 0 len).card ≤ 31 * 4 := by
    refine (Finset.card_le_card hpaths).trans ?_
    have := Finset.card_biUnion_le_card_mul (Finset.range 31) path 4 fun bn _ => card_path_le bn
    rwa [Finset.card_range] at this
  have hfree : Finset.Ico 5 208 ⊆ freeData roomySetting.sb roomy.view := by
    intro b hb
    rw [Finset.mem_Ico] at hb
    have hdata : roomySb.InData b := ⟨show 4 ≤ b by omega, show b < 208 from hb.2⟩
    refine mem_freeData.2 ⟨hdata, fun hmarked => ?_⟩
    have := (roomy_marked (roomySb_ok.data_lt hdata)).1 hmarked
    omega
  have hle := Finset.card_le_card hfree
  rw [Nat.card_Ico] at hle
  unfold Enough
  exact (Finset.card_filter_le _ _).trans (hcard.trans (Nat.le_trans (by decide) hle))

/-- 31 blocks do not fit in the log. -/
theorem roomy_tooBig : OpenFile roomySetting roomyRefs 0 roomy ∧ Enough roomySetting roomy 2 (paths 0 (31 * BSIZE)) ∧
    31 * BSIZE ≤ MAXFILE * BSIZE ∧
    ∃ w, writei (fun _ => none) 0 (List.replicate (31 * BSIZE) 0) 0 roomy = (.error (.panic .tooBigATransaction), w) := by
  have hlen : (List.replicate (31 * BSIZE) (0 : UInt8)).length = 31 * BSIZE := List.length_replicate
  have henough := roomy_enough (Nat.le_refl (31 * BSIZE))
  refine ⟨roomy_open, henough, by decide, ?_⟩
  refine roomy_open.tooBig trivial (fun _ => none) (by decide) (by rw [hlen]; decide) ?_ (by rw [hlen]; decide)
  rw [hlen]
  exact henough

/-- Two blocks of the empty file. -/
theorem roomy_covers : Covers roomySetting {2, 3, 5, 6} roomy 2 (paths 0 600) := by
  have hnone : ∀ p, (roomy.files roomySb).addr 2 p = 0 := fun p => by
    rw [roomy_addr]
    exact if_neg fun h => absurd h.1 (by decide)
  refine ⟨⟨fun b hb => ?_, fun j ks k _ hne => absurd (hnone _) hne, fun p _ _ hne => absurd (hnone _) hne⟩, by decide,
    fun x hx => absurd hx List.not_mem_nil⟩
  obtain ⟨hlt, hfree, hbelow⟩ := hb
  have hcard : ((paths 0 600).filter fun p => (roomy.files roomySb).addr 2 p = 0).card ≤ 2 :=
    (Finset.card_filter_le _ _).trans (by decide +kernel)
  have hb : b < 238 := hlt
  have hmarked : ¬(b < 5 ∨ 208 ≤ b) := fun h => hfree ((roomy_marked hlt).2 h)
  -- blocks 5 and 6 are free, so a later block is not one of the first two
  have hfirst : b = 5 ∨ b = 6 := by
    by_contra hne
    have htwo : ({5, 6} : Finset Nat).card ≤ freeBelow roomySb roomyImage b := by
      refine Finset.card_le_card fun x hx => Finset.mem_filter.2 ⟨Finset.mem_range.2 ?_, fun h => ?_⟩
      · obtain rfl | rfl := by simpa using hx
        · omega
        · omega
      · obtain rfl | rfl := by simpa using hx
        · exact absurd ((roomy_marked (by decide)).1 h) (by decide)
        · exact absurd ((roomy_marked (by decide)).1 h) (by decide)
    have htwo' : 2 ≤ freeBelow roomySb roomyImage b := htwo
    exact absurd (Nat.lt_of_lt_of_le hbelow hcard) (by
      show ¬freeBelow roomySb roomyImage b < 2
      omega)
  obtain rfl | rfl := hfirst
  · exact ⟨show 5 ∈ ({2, 3, 5, 6} : Finset Nat) by decide, show BBLOCK 5 7 ∈ ({2, 3, 5, 6} : Finset Nat) by decide⟩
  · exact ⟨show 6 ∈ ({2, 3, 5, 6} : Finset Nat) by decide, show BBLOCK 6 7 ∈ ({2, 3, 5, 6} : Finset Nat) by decide⟩

/-- 600 bytes, which begin a second block. -/
theorem writei_readi_blocks : Overlays roomySetting (fun _ => none) 0 ((List.range 600).map UInt8.ofNat) 0 roomy := by
  have hlen : ((List.range 600).map UInt8.ofNat).length = 600 := by rw [List.length_map, List.length_range]
  have henough : Enough roomySetting roomy 2 (paths 0 600) := roomy_enough (by decide)
  have hmax : (0 : UInt32).toNat + ((List.range 600).map UInt8.ofNat).length ≤ MAXFILE * BSIZE := by
    rw [hlen]
    decide
  refine (writei_readi roomy_open trivial (fun _ => none) (UInt32.le_refl 0) hmax ?_).2 {2, 3, 5, 6} ?_ (by decide) (by decide)
  · rw [hlen]
    exact henough
  · rw [hlen]
    exact roomy_covers

end Roomy

end NewXv6
