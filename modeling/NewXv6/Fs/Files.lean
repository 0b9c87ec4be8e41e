import NewXv6.Log.Model
import NewXv6.Lib.Walk

/-!
# Files and their blocks

What the file system is for, without caches, buffers and a log: every allocated inode has a size, contents, and blocks
at the positions of its index tree; some blocks are marked as used. `Sound` says what keeps files apart: no two
positions share a block, the blocks lie in the data area and are marked. A `Policy` adds what only some runs can
promise: that the log is marked too, that files have no holes, that nothing else is marked. Each change the file system
makes has its lemma.
-/

namespace NewXv6

open Lib

/-! ## The areas of a disk -/

namespace Superblock

/-- The first block of the free bitmap. -/
def bitmapStart (sb : Superblock) : Nat := sb.ninodes / IPB + 3

theorem one_lt_bitmapStart (sb : Superblock) : 1 < sb.bitmapStart := by
  unfold bitmapStart
  generalize sb.ninodes / IPB = x
  omega

/-- The first block after the bitmap. -/
def dataStart (sb : Superblock) : Nat := sb.size - sb.nlog - sb.nblocks

/-- The first block of the log. -/
def logStart (sb : Superblock) : Nat := sb.size - sb.nlog

/-- The number of inodes the inode blocks hold. -/
def inodes (sb : Superblock) : Nat := IPB * (sb.ninodes / IPB + 1)

/-- Block `b` lies in the data area. -/
def InData (sb : Superblock) (b : Nat) : Prop := sb.dataStart ≤ b ∧ b < sb.logStart

/-- The areas follow each other: the bitmap ends before the data, and the data and the log fill the rest. -/
structure Ok (sb : Superblock) : Prop where
  size_lt : sb.size < 2 ^ 32
  log_pos : 0 < sb.nlog
  fits : sb.nblocks + sb.nlog ≤ sb.size
  bitmap : sb.bitmapStart + sb.size / BPB < sb.dataStart

theorem Ok.data_le {sb : Superblock} (h : sb.Ok) : sb.dataStart ≤ sb.logStart ∧ sb.logStart < sb.size := by
  have := h.fits
  have := h.log_pos
  unfold dataStart logStart
  omega

theorem Ok.bitmap_lt {sb : Superblock} (h : sb.Ok) : sb.bitmapStart < sb.dataStart :=
  Nat.lt_of_le_of_lt (Nat.le_add_right _ _) h.bitmap

theorem Ok.dataStart_pos {sb : Superblock} (h : sb.Ok) : 0 < sb.dataStart :=
  Nat.lt_of_le_of_lt (Nat.zero_le _) h.bitmap_lt

theorem Ok.data_ne {sb : Superblock} (h : sb.Ok) {b : Nat} (hb : sb.InData b) : b ≠ 0 := by
  have := h.dataStart_pos
  have := hb.1
  omega

theorem Ok.data_lt {sb : Superblock} (h : sb.Ok) {b : Nat} (hb : sb.InData b) : b < sb.size := by
  have := h.data_le
  have := hb.2
  omega

/-- The bitmap lies between the inodes and the data. -/
theorem Ok.bblock {sb : Superblock} (h : sb.Ok) {b : Nat} (hb : b < sb.size) :
    sb.bitmapStart ≤ BBLOCK b sb.ninodes ∧ BBLOCK b sb.ninodes < sb.dataStart := by
  have := h.bitmap
  have : b / BPB ≤ sb.size / BPB := Nat.div_le_div_right (Nat.le_of_lt hb)
  unfold BBLOCK
  unfold bitmapStart at *
  generalize b / BPB = x at *
  generalize sb.size / BPB = y at *
  generalize sb.ninodes / IPB = z at *
  omega

/-- The inodes lie before the bitmap. -/
theorem iblock_lt {sb : Superblock} {n : Nat} (hn : n < sb.inodes) : 1 < IBLOCK n ∧ IBLOCK n < sb.bitmapStart := by
  unfold inodes at hn
  unfold IBLOCK bitmapStart
  have : n / IPB < sb.ninodes / IPB + 1 := Nat.div_lt_of_lt_mul hn
  generalize n / IPB = x at *
  generalize sb.ninodes / IPB = y at *
  omega

end Superblock

/-! ## Positions -/

/-- A position in the index tree of an inode: one of its addresses, and the indices into the index blocks below. -/
abbrev Pos : Type := Fin (NDIRECT + 1) × List Nat

/-- The number of index blocks below an address. -/
def depth (j : Fin (NDIRECT + 1)) : Nat := if j = Fin.last NDIRECT then 3 else 0

/-- The position of data block `bn`. -/
def blockPos (bn : Nat) : Pos :=
  if h : bn < NDIRECT then (⟨bn, Nat.lt_succ_of_lt h⟩, [])
  else (Fin.last NDIRECT, [(bn - NDIRECT) / NINDIRECT / NINDIRECT, (bn - NDIRECT) / NINDIRECT % NINDIRECT,
    (bn - NDIRECT) % NINDIRECT])

theorem depth_direct {bn : Nat} (h : bn < NDIRECT) (h' : bn < NDIRECT + 1) : depth ⟨bn, h'⟩ = 0 := by
  unfold depth
  rw [if_neg]
  simp only [Fin.ext_iff, Fin.val_last, NDIRECT] at *
  omega

/-- Data blocks are at the bottom. -/
theorem blockPos_depth (bn : Nat) : (blockPos bn).2.length = depth (blockPos bn).1 := by
  unfold blockPos
  split
  · rw [depth_direct ‹_›]
    rfl
  · simp [depth]

theorem blockPos_inj {bn bm : Nat} (h : blockPos bn = blockPos bm) : bn = bm := by
  unfold blockPos at h
  split at h <;> split at h
  · simpa [Fin.ext_iff] using h
  · simp at h
  · simp at h
  · simp only [Prod.mk.injEq, List.cons.injEq, and_true, true_and] at h
    simp only [NDIRECT, NINDIRECT] at *
    omega

/-! ## Files -/

/-- The type of each inode (0 for a free one), its size, the block at each position of its tree (0 for none), its
contents, and the blocks that are marked as used. -/
@[ext] structure Files where
  type : Nat → Int16
  size : Nat → Nat
  addr : Nat → Pos → Nat
  used : Nat → Prop
  byte : Nat → Nat → UInt8

/-- What a run promises beyond keeping files apart. -/
structure Policy where
  /-- The blocks of the log are marked as used. -/
  logMarked : Prop
  /-- Files have no holes. -/
  strict : Prop
  /-- Nothing but the metadata, the log and the blocks of files is marked as used. -/
  exact : Prop

/-- The blocks that are never free: the metadata, and the log where it is marked. -/
def Policy.Reserved (P : Policy) (sb : Superblock) (b : Nat) : Prop :=
  b < sb.dataStart ∨ (P.logMarked ∧ sb.logStart ≤ b)

namespace Files

/-- The inode number in entry `k` of directory `n`. -/
def entry (f : Files) (n k : Nat) : Nat := (le16 (f.byte n) (DIRENT * k)).toNat

/-- **No block is used twice.** -/
structure Sound (sb : Superblock) (P : Policy) (f : Files) : Prop where
  inj : ∀ n p m q, f.addr n p ≠ 0 → f.addr n p = f.addr m q → n = m ∧ p = q
  area : ∀ n p, f.addr n p ≠ 0 → sb.InData (f.addr n p)
  used : ∀ n p, f.addr n p ≠ 0 → f.used (f.addr n p)
  reserved : ∀ b, b < sb.size → P.Reserved sb b → f.used b
  free : ∀ n p, f.type n = 0 → f.addr n p = 0
  full : P.strict → ∀ n bn, f.type n ≠ 0 → bn * BSIZE < f.size n → f.addr n (blockPos bn) ≠ 0
  exact : P.exact → ∀ b, b < sb.size → f.used b → P.Reserved sb b ∨ ∃ n p, f.addr n p = b
  dirs : ∀ n k, f.type n = T_DIR → DIRENT * k + DIRENT ≤ f.size n → f.entry n k < sb.inodes

variable {sb : Superblock} {P : Policy} {f g : Files}

theorem entry_congr {n k : Nat} (h : ∀ j, j < 2 → g.byte n (DIRENT * k + j) = f.byte n (DIRENT * k + j)) :
    g.entry n k = f.entry n k := by
  unfold entry
  rw [le16_congr h]

/-- A free block gets a place in a file. -/
theorem Sound.link (hok : sb.Ok) (h : f.Sound sb P) {n b : Nat} {p : Pos} (hb : sb.InData b) (hfree : ¬f.used b)
    (hn : f.type n ≠ 0) (hp : f.addr n p = 0) (htype : g.type = f.type) (hsize : g.size = f.size)
    (hbyte : g.byte = f.byte) (haddr : ∀ m q, g.addr m q = if m = n ∧ q = p then b else f.addr m q)
    (hused : ∀ x, g.used x ↔ f.used x ∨ x = b) : g.Sound sb P := by
  have hb₀ : b ≠ 0 := hok.data_ne hb
  have hnew : ∀ m q, f.addr m q ≠ b := by
    intro m q he
    exact hfree (he ▸ h.used m q (by rw [he]; exact hb₀))
  refine ⟨?_, ?_, ?_, ?_, ?_, ?_, ?_, ?_⟩
  · intro m q m' q' hne he
    rw [haddr, haddr] at he
    rw [haddr] at hne
    split at he <;> split at he
    · simp_all
    · exact absurd he.symm (hnew _ _)
    · exact absurd he (hnew _ _)
    · rw [if_neg ‹_›] at hne
      exact h.inj m q m' q' hne he
  · intro m q hne
    rw [haddr] at hne ⊢
    split
    · exact hb
    · rw [if_neg ‹_›] at hne
      exact h.area m q hne
  · intro m q hne
    rw [hused]
    rw [haddr] at hne ⊢
    split
    · exact Or.inr rfl
    · rw [if_neg ‹_›] at hne
      exact Or.inl (h.used m q hne)
  · intro x hx hr
    exact (hused x).2 (Or.inl (h.reserved x hx hr))
  · intro m q hm
    rw [htype] at hm
    rw [haddr, if_neg]
    · exact h.free m q hm
    · rintro ⟨rfl, -⟩
      exact hn hm
  · intro hs m bn hm hlt
    rw [htype] at hm
    rw [hsize] at hlt
    rw [haddr]
    split
    · exact hb₀
    · exact h.full hs m bn hm hlt
  · intro he x hx hu
    rcases (hused x).1 hu with hu | rfl
    · rcases h.exact he x hx hu with hr | ⟨m, q, hq⟩
      · exact Or.inl hr
      · by_cases hmq : m = n ∧ q = p
        · obtain ⟨rfl, rfl⟩ := hmq
          rw [hp] at hq
          exact Or.inl (Or.inl (hq ▸ hok.dataStart_pos))
        · exact Or.inr ⟨m, q, by rw [haddr, if_neg hmq, hq]⟩
    · exact Or.inr ⟨n, p, by rw [haddr, if_pos ⟨rfl, rfl⟩]⟩
  · intro m k hm hk
    rw [htype] at hm
    rw [hsize] at hk
    rw [entry_congr (f := f) (g := g) fun j _ => by rw [hbyte]]
    exact h.dirs m k hm hk

/-- The contents of a file change. -/
theorem Sound.write (h : f.Sound sb P) {n : Nat} (htype : g.type = f.type) (hsize : g.size = f.size)
    (haddr : g.addr = f.addr) (hused : g.used = f.used) (hbyte : ∀ m, m ≠ n → g.byte m = f.byte m)
    (hdir : ∀ k, f.type n = T_DIR → DIRENT * k + DIRENT ≤ f.size n → g.entry n k < sb.inodes) : g.Sound sb P := by
  refine ⟨?_, ?_, ?_, ?_, ?_, ?_, ?_, ?_⟩
  · rw [haddr]; exact h.inj
  · rw [haddr]; exact h.area
  · rw [haddr, hused]; exact h.used
  · rw [hused]; exact h.reserved
  · rw [haddr, htype]; exact h.free
  · rw [haddr, htype, hsize]; exact h.full
  · rw [haddr, hused]; exact h.exact
  · intro m k hm hk
    rw [htype] at hm
    rw [hsize] at hk
    by_cases hmn : m = n
    · subst hmn
      exact hdir k hm hk
    · rw [entry_congr (f := f) (g := g) fun j _ => by rw [hbyte m hmn]]
      exact h.dirs m k hm hk

/-- The size of a file changes. -/
theorem Sound.resize (h : f.Sound sb P) {n : Nat} (htype : g.type = f.type) (hsize : ∀ m, m ≠ n → g.size m = f.size m)
    (haddr : g.addr = f.addr) (hused : g.used = f.used) (hbyte : g.byte = f.byte)
    (hfull : P.strict → ∀ bn, f.type n ≠ 0 → bn * BSIZE < g.size n → f.addr n (blockPos bn) ≠ 0)
    (hdir : ∀ k, f.type n = T_DIR → DIRENT * k + DIRENT ≤ g.size n → f.entry n k < sb.inodes) : g.Sound sb P := by
  refine ⟨?_, ?_, ?_, ?_, ?_, ?_, ?_, ?_⟩
  · rw [haddr]; exact h.inj
  · rw [haddr]; exact h.area
  · rw [haddr, hused]; exact h.used
  · rw [hused]; exact h.reserved
  · rw [haddr, htype]; exact h.free
  · intro hs m bn hm hlt
    rw [htype] at hm
    rw [haddr]
    by_cases hmn : m = n
    · subst hmn
      exact hfull hs bn hm hlt
    · rw [hsize m hmn] at hlt
      exact h.full hs m bn hm hlt
  · rw [haddr, hused]; exact h.exact
  · intro m k hm hk
    rw [htype] at hm
    rw [entry_congr (f := f) (g := g) fun j _ => by rw [hbyte]]
    by_cases hmn : m = n
    · subst hmn
      exact hdir k hm hk
    · rw [hsize m hmn] at hk
      exact h.dirs m k hm hk

/-- A free inode becomes an empty file. -/
theorem Sound.create (h : f.Sound sb P) {n : Nat} (hn : f.type n = 0) (htype : ∀ m, m ≠ n → g.type m = f.type m)
    (hsize : ∀ m, m ≠ n → g.size m = f.size m) (hzero : g.size n = 0) (haddr : g.addr = f.addr)
    (hused : g.used = f.used) (hbyte : g.byte = f.byte) : g.Sound sb P := by
  have hno := fun p => h.free n p hn
  refine ⟨?_, ?_, ?_, ?_, ?_, ?_, ?_, ?_⟩
  · rw [haddr]; exact h.inj
  · rw [haddr]; exact h.area
  · rw [haddr, hused]; exact h.used
  · rw [hused]; exact h.reserved
  · intro m p hm
    rw [haddr]
    by_cases hmn : m = n
    · subst hmn
      exact hno p
    · rw [htype m hmn] at hm
      exact h.free m p hm
  · intro hs m bn hm hlt
    by_cases hmn : m = n
    · subst hmn
      omega
    · rw [htype m hmn] at hm
      rw [hsize m hmn] at hlt
      rw [haddr]
      exact h.full hs m bn hm hlt
  · rw [haddr, hused]; exact h.exact
  · intro m k hm hk
    by_cases hmn : m = n
    · subst hmn
      rw [hzero] at hk
      simp only [DIRENT] at hk
      omega
    · rw [htype m hmn] at hm
      rw [hsize m hmn] at hk
      rw [entry_congr (f := f) (g := g) fun j _ => by rw [hbyte]]
      exact h.dirs m k hm hk

/-- A file loses blocks without their being freed. -/
theorem Sound.lose (h : f.Sound sb P) (hloose : ¬P.strict) (hloose' : ¬P.exact) (htype : g.type = f.type)
    (hsize : g.size = f.size) (haddr : ∀ n p, g.addr n p = 0 ∨ g.addr n p = f.addr n p) (hused : g.used = f.used)
    (hdir : ∀ n k, f.type n = T_DIR → DIRENT * k + DIRENT ≤ f.size n → g.entry n k = 0 ∨ g.entry n k = f.entry n k)
    (hpos : 0 < sb.inodes) : g.Sound sb P := by
  have hsame : ∀ n p, g.addr n p ≠ 0 → g.addr n p = f.addr n p := fun n p hne =>
    (haddr n p).resolve_left hne
  refine ⟨?_, ?_, ?_, ?_, ?_, fun hs => absurd hs hloose, fun he => absurd he hloose', ?_⟩
  · intro n p m q hne he
    have h₁ := hsame n p hne
    have h₂ := hsame m q (by rw [← he]; exact hne)
    exact h.inj n p m q (by rw [← h₁]; exact hne) (by rw [← h₁, he, h₂])
  · intro n p hne
    have h₁ := hsame n p hne
    rw [h₁] at hne ⊢
    exact h.area n p hne
  · intro n p hne
    have h₁ := hsame n p hne
    rw [h₁] at hne ⊢
    rw [hused]
    exact h.used n p hne
  · rw [hused]; exact h.reserved
  · intro n p hn
    rw [htype] at hn
    rcases haddr n p with h₀ | h₀
    · exact h₀
    · rw [h₀]
      exact h.free n p hn
  · intro n k hn hk
    rw [htype] at hn
    rw [hsize] at hk
    rcases hdir n k hn hk with h₀ | h₀
    · omega
    · rw [h₀]
      exact h.dirs n k hn hk

/-- An inode is freed, and with it some of its blocks. -/
theorem Sound.discard (hok : sb.Ok) (h : f.Sound sb P) {n : Nat} {F : Nat → Prop} (hn : g.type n = 0)
    (htype : ∀ m, m ≠ n → g.type m = f.type m) (hsize : ∀ m, m ≠ n → g.size m = f.size m)
    (haddr : ∀ p, g.addr n p = 0) (haddr' : ∀ m, m ≠ n → g.addr m = f.addr m)
    (hused : ∀ b, b < sb.size → (g.used b ↔ f.used b ∧ ¬F b)) (hF : ∀ b, F b → b ≠ 0 ∧ ∃ p, f.addr n p = b)
    (hall : P.exact → ∀ p, f.addr n p ≠ 0 → F (f.addr n p)) (hbyte : ∀ m, m ≠ n → g.byte m = f.byte m) :
    g.Sound sb P := by
  have hother : ∀ m p, g.addr m p ≠ 0 → m ≠ n ∧ g.addr m p = f.addr m p := by
    intro m p hne
    have hmn : m ≠ n := by
      rintro rfl
      exact hne (haddr p)
    exact ⟨hmn, by rw [haddr' m hmn]⟩
  refine ⟨?_, ?_, ?_, ?_, ?_, ?_, ?_, ?_⟩
  · intro m p m' p' hne he
    obtain ⟨-, h₁⟩ := hother m p hne
    obtain ⟨-, h₂⟩ := hother m' p' (by rw [← he]; exact hne)
    exact h.inj m p m' p' (by rw [← h₁]; exact hne) (by rw [← h₁, he, h₂])
  · intro m p hne
    obtain ⟨-, h₁⟩ := hother m p hne
    rw [h₁] at hne ⊢
    exact h.area m p hne
  · intro m p hne
    obtain ⟨hmn, h₁⟩ := hother m p hne
    rw [h₁] at hne ⊢
    have hlt : f.addr m p < sb.size := by
      have := (h.area m p hne).2
      have := hok.data_le
      omega
    refine (hused _ hlt).2 ⟨h.used m p hne, fun hf => ?_⟩
    obtain ⟨-, q, hq⟩ := hF _ hf
    exact hmn (h.inj m p n q hne hq.symm).1
  · intro b hb hr
    refine (hused b hb).2 ⟨h.reserved b hb hr, fun hf => ?_⟩
    obtain ⟨hb₀, p, rfl⟩ := hF _ hf
    have := h.area n p hb₀
    unfold Superblock.InData at this
    rcases hr with hr | ⟨-, hr⟩ <;> omega
  · intro m p hm
    by_cases hmn : m = n
    · subst hmn
      exact haddr p
    · rw [htype m hmn] at hm
      rw [haddr' m hmn]
      exact h.free m p hm
  · intro hs m bn hm hlt
    by_cases hmn : m = n
    · subst hmn
      exact absurd hn hm
    · rw [htype m hmn] at hm
      rw [hsize m hmn] at hlt
      rw [haddr' m hmn]
      exact h.full hs m bn hm hlt
  · intro he b hb hu
    obtain ⟨hu, hnF⟩ := (hused b hb).1 hu
    rcases h.exact he b hb hu with hr | ⟨m, p, hp⟩
    · exact Or.inl hr
    · refine Or.inr ⟨m, p, ?_⟩
      by_cases hmn : m = n
      · subst hmn
        by_cases hb₀ : b = 0
        · rw [haddr, hb₀]
        · exact absurd (hp ▸ hall he p (by rw [hp]; exact hb₀)) hnF
      · rw [haddr' m hmn, hp]
  · intro m k hm hk
    have hmn : m ≠ n := by
      rintro rfl
      rw [hn] at hm
      exact absurd hm (by decide)
    rw [htype m hmn] at hm
    rw [hsize m hmn] at hk
    rw [entry_congr (f := f) (g := g) fun j _ => by rw [hbyte m hmn]]
    exact h.dirs m k hm hk

end Files

end NewXv6
