import NewXv6.Mkfs.Model

/-!
# The free bitmap of a new disk

`mkfs` marks the used blocks in chunks of 512 bits, with a block of the bitmap for each chunk, and writes the last chunk once
more to the first block; the kernel looks for block `b` in bit `b % 4096` of block `b / 4096` of the bitmap. The two agree
as long as there is one chunk, and nothing was written to the rest of the bitmap.
-/

namespace NewXv6

namespace Mkfs

/-- The bit of block `b`, where the kernel looks for it. -/
def marked (disk : Nat → Block) (b : Nat) : Bool := (disk (BBLOCK b ninodes)).bit (b % BPB)

/-- The bits of the used blocks are set, and those of the other blocks up to the log are clear. -/
def BitmapRight (disk : Nat → Block) (used : Nat) : Prop :=
  (∀ b, b < used → marked disk b = true) ∧ ∀ b, used ≤ b → b < size - nlog → marked disk b = false

/-! ## `balloc` -/

theorem bit_foldl_setBit {n : Nat} (h : n ≤ BPB) (i : Nat) :
    ((List.range n).foldl Block.setBit Block.zero).bit i = decide (i < n) := by
  induction n with
  | zero => simp
  | succ n ih =>
    rw [List.range_succ, List.foldl_append, List.foldl_cons, List.foldl_nil, Block.bit_setBit _ _ h,
      ih (Nat.le_of_succ_le h)]
    by_cases hi : i = n
    · simp [hi]
    · have : i < n ↔ i < n + 1 := by omega
      simp [hi, this]

theorem bit_bitmapBlock (used i : Nat) : (bitmapBlock used).bit i = decide (i < min used 512) :=
  bit_foldl_setBit (Nat.le_trans (Nat.min_le_right _ _) (by decide)) i

/-- A block is its bits. -/
theorem ext_bit {b c : Block} (h : ∀ i < BPB, b.bit i = c.bit i) : b = c := by
  funext i
  have hi : i.val < 512 := i.isLt
  have hb : ∀ d : Block, d i = d.byte i := fun d => by
    unfold Block.byte
    rw [dif_pos i.isLt]
  rw [hb b, hb c]
  refine UInt8.toBitVec_inj.1 (BitVec.eq_of_getLsbD_eq fun j hj => ?_)
  have := h (8 * i + j) (by show 8 * i.val + j < 4096; omega)
  rw [Block.bit_eq, Block.bit_eq] at this
  have h₁ : (8 * i.val + j) / 8 = i := by omega
  have h₂ : (8 * i.val + j) % 8 = j := by omega
  rwa [h₁, h₂] at this

/-- A block whose first `n` bits are set. -/
def firstBits (n : Nat) : Block := fun i => if i.val < n / 8 then 255 else if i.val = n / 8 then .ofNat (2 ^ (n % 8) - 1) else 0

theorem bitmapBlock_bytes {n : Nat} (hn : n ≤ 512) : bitmapBlock n = firstBits n := by
  have hfull : ∀ j < 8, (255 : UInt8).toBitVec.getLsbD j = true := by decide
  have hlast : ∀ r < 8, ∀ j < 8, (UInt8.ofNat (2 ^ r - 1)).toBitVec.getLsbD j = decide (j < r) := by decide
  refine ext_bit fun i hi => ?_
  have hi : i < 4096 := hi
  have hmod := Nat.mod_lt i (show 0 < 8 by decide)
  rw [bit_bitmapBlock, Nat.min_eq_left hn, Block.bit_eq, Block.byte, dif_pos (show i / 8 < 512 by omega), firstBits]
  dsimp only
  split
  · rw [hfull _ hmod]
    exact decide_eq_true (by omega)
  · split
    · rw [hlast _ (Nat.mod_lt n (by decide)) _ hmod]
      exact decide_eq_decide.2 (by omega)
    · rw [show (0 : UInt8).toBitVec.getLsbD (i % 8) = false from BitVec.getLsbD_zero]
      exact decide_eq_false (by omega)

/-- No chunk has more than 512 bits, and the first block of the bitmap gets the last one. -/
theorem ballocFrom_first (used : Nat) : ∀ {s : State} {j : Nat} {buf : Block}, buf.bit 512 = false →
    ((s.ballocFrom used j buf).disk (ninodes / IPB + 3)).bit 512 = false := by
  induction used using Nat.strongRecOn with
  | _ used ih =>
    intro s j buf hbuf
    rw [State.ballocFrom]
    split
    · rename_i h
      refine ih (used - 512) (by omega) ?_
      rw [bit_bitmapBlock]
      exact decide_eq_false (by omega)
    · have hself : (s.wsect (ninodes / IPB + 3) buf).disk (ninodes / IPB + 3) = buf := by
        unfold State.wsect
        dsimp only
        rw [Function.update_self]
      rw [hself]
      exact hbuf

/-- One chunk. -/
theorem balloc_chunk {s : State} {used : Nat} (h : used ≤ 512) (sec : Nat) :
    (s.balloc used).disk sec = if sec = ninodes / IPB + 3 then bitmapBlock used else s.disk sec := by
  unfold State.balloc
  rw [State.ballocFrom]
  split
  · rw [Nat.sub_eq_zero_of_le h, State.ballocFrom, dif_neg (Nat.lt_irrefl 0)]
    simp only [State.wsect]
    by_cases hsec : sec = ninodes / IPB + 3
    · rw [if_pos hsec, hsec, Function.update_self]
    · rw [if_neg hsec, Function.update_of_ne hsec, Function.update_of_ne hsec]
  · obtain rfl : used = 0 := by omega
    simp only [State.wsect]
    by_cases hsec : sec = ninodes / IPB + 3
    · rw [if_pos hsec, hsec, Function.update_self]
      rfl
    · rw [if_neg hsec, Function.update_of_ne hsec]

/-- **When the bitmap is right**: there is one chunk, and the rest of the bitmap is clear before. -/
theorem balloc_right (s : State) (used : Nat) : BitmapRight (s.balloc used).disk used ↔
    used ≤ 512 ∧ ∀ b, BPB ≤ b → b < size - nlog → marked s.disk b = false := by
  constructor
  · rintro ⟨hset, hclear⟩
    have hone : used ≤ 512 := by
      by_contra hmany
      have h512 := hset 512 (by omega)
      have hno := ballocFrom_first used (s := s) (j := 0) (Block.bit_zero 512)
      exact Bool.noConfusion (h512.symm.trans hno)
    refine ⟨hone, fun b hb hlog => ?_⟩
    have hb' : 4096 ≤ b := hb
    have h := hclear b (by omega) hlog
    unfold marked at h ⊢
    rwa [balloc_chunk hone, if_neg (by unfold BBLOCK; show ¬b / 4096 + _ + _ = _; omega)] at h
  · rintro ⟨hone, hrest⟩
    have hlow : ∀ b, b < BPB → marked (s.balloc used).disk b = decide (b < used) := by
      intro b hb
      have hb' : b < 4096 := hb
      unfold marked
      rw [balloc_chunk hone, if_pos (by unfold BBLOCK; show b / 4096 + _ + _ = _; omega), bit_bitmapBlock,
        Nat.mod_eq_of_lt hb, Nat.min_eq_left hone]
    refine ⟨fun b hb => ?_, fun b hb hlog => ?_⟩
    · rw [hlow b (by show b < 4096; omega)]
      exact decide_eq_true hb
    · by_cases hb' : b < BPB
      · rw [hlow b hb']
        exact decide_eq_false (Nat.not_lt.2 hb)
      · have h4096 : ¬b < 4096 := hb'
        have h := hrest b (Nat.le_of_not_lt hb') hlog
        unfold marked at h ⊢
        rwa [balloc_chunk hone, if_neg (by unfold BBLOCK; show ¬b / 4096 + _ + _ = _; omega)]

theorem mkfs_disk {files : List HostFile} {disk : Nat → Block} (h : mkfs files = some disk) :
    disk = ((filled files).balloc (filled files).usedblocks).disk := by
  unfold mkfs at h
  split at h
  · cases h
  · split at h
    · cases h
      rfl
    · cases h

/-- Where the bitmap is right, the loop of the kernel's `balloc` gives no block that is used. -/
theorem BitmapRight.findFree {disk : Nat → Block} {used b bi : Nat} (h : BitmapRight disk used) (hb : BPB ∣ b)
    (hfind : findFree sb b (disk (BBLOCK b ninodes)) = some bi) : used ≤ b + bi := by
  unfold NewXv6.findFree at hfind
  have hfree := List.find?_some hfind
  have hbi : bi < 4096 := List.mem_range.1 (List.mem_of_find?_eq_some hfind)
  obtain ⟨c, rfl⟩ := hb
  have hblock : BBLOCK (BPB * c + bi) ninodes = BBLOCK (BPB * c) ninodes := by
    unfold BBLOCK
    show (4096 * c + bi) / 4096 + _ + _ = 4096 * c / 4096 + _ + _
    omega
  have hbit : (BPB * c + bi) % BPB = bi := by
    show (4096 * c + bi) % 4096 = bi
    omega
  by_contra hlt
  have hset := h.1 (BPB * c + bi) (Nat.lt_of_not_le hlt)
  unfold marked at hset
  rw [hblock, hbit] at hset
  rw [hset, Bool.not_true, Bool.and_false] at hfree
  cases hfree

/-! ## Many small files -/

namespace State

theorem rinode_wsect (s : State) {sec inum : Nat} (buf : Block) (h : i2b inum ≠ sec) :
    (s.wsect sec buf).rinode inum = s.rinode inum := by
  unfold rinode rsect wsect
  dsimp only
  rw [Function.update_of_ne h]

theorem rinode_winode_self (s : State) (inum : Nat) (ip : Dinode) : (s.winode inum ip).rinode inum = ip := by
  unfold winode rinode rsect wsect
  dsimp only
  rw [Function.update_self]
  exact Block.getDinode_putDinode_self _ _ (Nat.mod_lt _ (by decide))

theorem rinode_winode_ne (s : State) {inum l : Nat} (ip : Dinode) (h : l ≠ inum) :
    (s.winode inum ip).rinode l = s.rinode l := by
  unfold winode
  by_cases hsec : i2b l = i2b inum
  · have hmod : l % IPB ≠ inum % IPB := by
      have hdiv : l / 8 + 2 = inum / 8 + 2 := hsec
      show l % 8 ≠ inum % 8
      omega
    unfold rinode rsect wsect
    dsimp only
    rw [hsec, Function.update_self]
    exact Block.getDinode_putDinode_ne _ _ hmod
  · exact rinode_wsect _ _ hsec

/-- Bytes at `off` of block `b`, and the inode. -/
def wfile (s : State) (inum : Nat) (din : Dinode) (b off : Nat) (p : List UInt8) : State :=
  (s.wsect b ((s.rsect b).put off p.length fun j => p.getD j 0)).winode inum din

theorem freeblock_wfile (s : State) (inum : Nat) (din : Dinode) (b off : Nat) (p : List UInt8) :
    (s.wfile inum din b off p).freeblock = s.freeblock := rfl

theorem rinode_wfile_self (s : State) (inum : Nat) (din : Dinode) (b off : Nat) (p : List UInt8) :
    (s.wfile inum din b off p).rinode inum = din := rinode_winode_self _ _ _

theorem rinode_wfile_ne (s : State) {inum l b : Nat} (din : Dinode) (off : Nat) (p : List UInt8) (h : l ≠ inum)
    (hb : i2b l ≠ b) : (s.wfile inum din b off p).rinode l = s.rinode l :=
  (rinode_winode_ne _ _ h).trans (rinode_wsect _ _ hb)

/-- `iappend` of bytes that fit into a block with a direct address. -/
theorem iappend_direct (s : State) (inum : Nat) {p : List UInt8} {j : Fin (NDIRECT + 1)} (hp : p ≠ [])
    (hj : j.val = (s.rinode inum).size.toNat / 512) (hdirect : j.val < NDIRECT)
    (hfit : (s.rinode inum).size.toNat % 512 + p.length ≤ 512) :
    s.iappend inum p = (s.address (s.rinode inum) j).2.2.wfile inum
      { (s.address (s.rinode inum) j).2.1 with size := .ofNat (((s.rinode inum).size.toNat + p.length) % 2 ^ 32) }
      (s.address (s.rinode inum) j).1 ((s.rinode inum).size.toNat % 512) p := by
  have hlen := List.length_pos_iff.2 hp
  have hmin : min p.length (((s.rinode inum).size.toNat / 512 + 1) * 512 - (s.rinode inum).size.toNat) = p.length := by
    omega
  have hoff : (s.rinode inum).size.toNat - (s.rinode inum).size.toNat / 512 * 512 = (s.rinode inum).size.toNat % 512 := by
    omega
  have hfile : s.fileBlock (s.rinode inum) ((s.rinode inum).size.toNat / 512) = s.address (s.rinode inum) j := by
    unfold fileBlock
    rw [dif_pos (hj ▸ hdirect)]
    congr 1
    exact Fin.ext hj.symm
  unfold iappend
  rw [iappendFrom, dif_neg hp]
  dsimp only
  rw [hfile, hmin, hoff, List.drop_length, iappendFrom, dif_pos rfl]
  rfl

/-- An address is missing, or it is one of a block after the metadata. -/
def Fine (a : UInt32) : Prop := a = 0 ∨ metablocks ≤ a.toNat

theorem address_spec (s : State) {din : Dinode} (j : Fin (NDIRECT + 1)) (hdin : ∀ i, Fine (din.addrs i))
    (hfree : metablocks ≤ s.freeblock) (hfew : s.freeblock < 2 ^ 32) : ∃ t, t ≤ 1 ∧ (din.addrs j = 0 → t = 1) ∧
      metablocks ≤ (s.address din j).1 ∧ (s.address din j).2.1.size = din.size ∧
      (∀ i, Fine ((s.address din j).2.1.addrs i)) ∧
      (s.address din j).2.2 = { s with freeblock := s.freeblock + t, usedblocks := s.usedblocks + t } := by
  unfold address take
  split
  · refine ⟨1, Nat.le_refl 1, fun _ => rfl, hfree, rfl, fun i => ?_, rfl⟩
    dsimp only
    by_cases hi : i = j
    · rw [hi, Function.update_self]
      refine Or.inr ?_
      rw [UInt32.toNat_ofNat', Nat.mod_eq_of_lt hfew]
      exact hfree
    · rw [Function.update_of_ne hi]
      exact hdin i
  · rename_i hne
    exact ⟨0, Nat.zero_le 1, fun h => absurd h hne, (hdin j).resolve_left hne, rfl, hdin, rfl⟩

/-- `iappend` of a few bytes, in a direct block: at most one block is taken, and the other inodes stay. -/
theorem iappend_small (s : State) (inum : Nat) {p : List UInt8} (hp : p ≠ [])
    (hdin : ∀ i, Fine ((s.rinode inum).addrs i)) (hfree : metablocks ≤ s.freeblock) (hfew : s.freeblock < 2 ^ 32)
    (hdirect : (s.rinode inum).size.toNat / 512 < NDIRECT) (hfit : (s.rinode inum).size.toNat % 512 + p.length ≤ 512) :
    ∃ t, t ≤ 1 ∧ ((∀ i, (s.rinode inum).addrs i = 0) → t = 1) ∧ (s.iappend inum p).freeblock = s.freeblock + t ∧
      (s.iappend inum p).usedblocks = s.usedblocks + t ∧ (s.iappend inum p).freeinode = s.freeinode ∧
      ((s.iappend inum p).rinode inum).size.toNat = (s.rinode inum).size.toNat + p.length ∧
      (∀ i, Fine (((s.iappend inum p).rinode inum).addrs i)) ∧
      ∀ l, l ≠ inum → i2b l < metablocks → (s.iappend inum p).rinode l = s.rinode l := by
  have hlt : (s.rinode inum).size.toNat / 512 < NDIRECT + 1 := Nat.lt_succ_of_lt hdirect
  have hiappend := s.iappend_direct inum (j := ⟨_, hlt⟩) hp rfl hdirect hfit
  obtain ⟨t, ht, hone, hlow, hsize, hfine, hs⟩ := s.address_spec ⟨_, hlt⟩ hdin hfree hfew
  have hdirect' : (s.rinode inum).size.toNat / 512 < 12 := hdirect
  rw [hiappend, hs]
  refine ⟨t, ht, fun h => hone (h _), rfl, rfl, rfl, ?_, ?_, fun l hl hlow' => ?_⟩
  · rw [rinode_wfile_self, UInt32.toNat_ofNat', Nat.mod_mod, Nat.mod_eq_of_lt (by omega)]
  · rw [rinode_wfile_self]
    exact hfine
  · rw [rinode_wfile_ne _ _ _ _ hl (Nat.ne_of_lt (Nat.lt_of_lt_of_le hlow' hlow))]
    rfl

/-- A root directory of `n` entries. -/
structure Small (n : Nat) (s : State) : Prop where
  size : (s.rinode ROOTINO).size.toNat = 16 * n
  fine : ∀ i, Fine ((s.rinode ROOTINO).addrs i)
  free : metablocks ≤ s.freeblock

/-- One more entry. -/
theorem Small.entry {n : Nat} {s : State} (h : Small n s) (hn : n < 384) (hfew : s.freeblock < 2 ^ 32) {p : List UInt8}
    (hp : p.length = 16) : ∃ t, t ≤ 1 ∧ (s.iappend ROOTINO p).freeblock = s.freeblock + t ∧
      (s.iappend ROOTINO p).usedblocks = s.usedblocks + t ∧ (s.iappend ROOTINO p).freeinode = s.freeinode ∧
      Small (n + 1) (s.iappend ROOTINO p) ∧
      ∀ l, l ≠ ROOTINO → i2b l < metablocks → (s.iappend ROOTINO p).rinode l = s.rinode l := by
  have hne : p ≠ [] := by
    rintro rfl
    cases hp
  obtain ⟨t, ht, -, hfree, hused, hinode, hsize, hfine, hothers⟩ := s.iappend_small ROOTINO hne h.fine h.free hfew
    (by rw [h.size]; show 16 * n / 512 < 12; omega) (by rw [h.size, hp]; omega)
  refine ⟨t, ht, hfree, hused, hinode, ⟨?_, hfine, ?_⟩, hothers⟩
  · rw [hsize, h.size, hp]
    omega
  · rw [hfree]
    exact Nat.le_trans h.free (Nat.le_add_right _ _)

end State

theorem length_strncpy (t : List UInt8) (n : Nat) : (strncpy t n).length = n := by
  induction n generalizing t with
  | zero => rfl
  | succ n ih =>
    unfold strncpy
    rw [List.length_cons]
    split
    · rw [List.length_replicate]
    · rw [ih]

theorem dirent_ne (inum : Nat) (name : List UInt8) : dirent inum name ≠ [] := List.cons_ne_nil _ _

theorem length_dirent (inum : Nat) (name : List UInt8) : (dirent inum name).length = 16 := by
  unfold dirent Dirent.encode
  rw [List.length_cons, List.length_cons, length_strncpy]

/-- A file of one byte. -/
def oneByte : HostFile where
  name := [97]
  reads := [[1]]
  some_read cc h := by
    rw [List.mem_singleton.1 h]
    exact ⟨List.cons_ne_nil _ _, by decide⟩

theorem addFile_eq (s : State) : addFile s oneByte =
    ((s.ialloc T_FILE).2.iappend ROOTINO (dirent s.freeinode [97])).iappend s.freeinode [1] := rfl

/-- One more file of one byte takes a block for it, and maybe one for its entry. -/
theorem addFile_oneByte {n : Nat} {s : State} (h : s.Small n) (hn : n < 384) (hfew : s.freeblock + 1 < 2 ^ 32)
    (hroot : s.freeinode ≠ ROOTINO) (hlow : i2b s.freeinode < metablocks) : ∃ t, 1 ≤ t ∧ t ≤ 2 ∧
      (addFile s oneByte).Small (n + 1) ∧ (addFile s oneByte).freeblock = s.freeblock + t ∧
      (addFile s oneByte).usedblocks = s.usedblocks + t ∧ (addFile s oneByte).freeinode = s.freeinode + 1 := by
  let fresh : Dinode := { Dinode.zero with type := T_FILE, nlink := 1, size := 0 }
  let s₁ : State := { s with freeinode := s.freeinode + 1 }.winode s.freeinode fresh
  have hadd : addFile s oneByte = (s₁.iappend ROOTINO (dirent s.freeinode [97])).iappend s.freeinode [1] := addFile_eq s
  have hkeep : s₁.rinode ROOTINO = s.rinode ROOTINO := State.rinode_winode_ne _ _ hroot.symm
  have h₁ : s₁.Small n := ⟨by rw [hkeep]; exact h.size, by rw [hkeep]; exact h.fine, h.free⟩
  have hfew₁ : s₁.freeblock < 2 ^ 32 := Nat.lt_of_succ_lt hfew
  obtain ⟨t₁, ht₁, hfree₁, hused₁, hinode₁, h₂, hothers₁⟩ := h₁.entry hn hfew₁ (length_dirent s.freeinode [97])
  have hfresh : (s₁.iappend ROOTINO (dirent s.freeinode [97])).rinode s.freeinode = fresh :=
    (hothers₁ _ hroot hlow).trans (State.rinode_winode_self _ _ _)
  have hfew₂ : (s₁.iappend ROOTINO (dirent s.freeinode [97])).freeblock < 2 ^ 32 := by
    have : s₁.freeblock = s.freeblock := rfl
    omega
  obtain ⟨t₂, ht₂, hone, hfree₂, hused₂, hinode₂, -, -, hothers₂⟩ :=
    (s₁.iappend ROOTINO (dirent s.freeinode [97])).iappend_small s.freeinode (p := [1]) (List.cons_ne_nil _ _)
      (fun i => by rw [hfresh]; exact Or.inl rfl) h₂.free hfew₂ (by rw [hfresh]; decide) (by rw [hfresh]; decide)
  have ht₂' : t₂ = 1 := hone fun i => by rw [hfresh]; rfl
  have hroot₂ := hothers₂ ROOTINO hroot.symm (by decide)
  rw [hadd]
  refine ⟨t₁ + t₂, by omega, by omega, ⟨?_, ?_, ?_⟩, ?_, ?_, ?_⟩
  · rw [hroot₂]
    exact h₂.size
  · rw [hroot₂]
    exact h₂.fine
  · rw [hfree₂]
    exact Nat.le_trans h₂.free (Nat.le_add_right _ _)
  · rw [hfree₂, hfree₁, Nat.add_assoc]
    rfl
  · rw [hused₂, hused₁, Nat.add_assoc]
    rfl
  · rw [hinode₂, hinode₁]
    rfl

/-- The root directory with its first two entries. -/
theorem makeRoot_small : (makeRoot format).Small 2 ∧ (makeRoot format).freeblock = (makeRoot format).usedblocks ∧
    metablocks ≤ (makeRoot format).usedblocks ∧ (makeRoot format).usedblocks ≤ metablocks + 2 ∧
    (makeRoot format).freeinode = 2 := by
  let fresh : Dinode := { Dinode.zero with type := T_DIR, nlink := 1, size := 0 }
  let s₀ : State := { format with freeinode := 2 }.winode ROOTINO fresh
  have hroot : makeRoot format = (s₀.iappend ROOTINO (dirent ROOTINO [46])).iappend ROOTINO (dirent ROOTINO [46, 46]) := rfl
  have hfresh : s₀.rinode ROOTINO = fresh := State.rinode_winode_self _ _ _
  have h₀ : s₀.Small 0 := ⟨by rw [hfresh]; rfl, fun i => by rw [hfresh]; exact Or.inl rfl, Nat.le_refl _⟩
  have hfree₀ : s₀.freeblock = metablocks := rfl
  have hused₀ : s₀.usedblocks = metablocks := rfl
  have hmeta : metablocks = 285 := by decide
  obtain ⟨t₁, ht₁, hfree₁, hused₁, hinode₁, h₁, -⟩ := h₀.entry (by decide) (by omega) (length_dirent ROOTINO [46])
  obtain ⟨t₂, ht₂, hfree₂, hused₂, hinode₂, h₂, -⟩ := h₁.entry (by decide) (by omega) (length_dirent ROOTINO [46, 46])
  rw [hroot]
  refine ⟨h₂, by omega, by omega, by omega, ?_⟩
  rw [hinode₂, hinode₁]
  rfl

/-- An image with `k` files of one byte uses a block for each of them. -/
theorem files_small (k : Nat) (hk : k ≤ 300) : ∃ s, (List.replicate k oneByte).foldl addFile (makeRoot format) = s ∧
    s.Small (k + 2) ∧ s.freeblock = s.usedblocks ∧ metablocks + k ≤ s.usedblocks ∧
    s.usedblocks ≤ metablocks + 2 + 2 * k ∧ s.freeinode = k + 2 := by
  have hmeta : metablocks = 285 := by decide
  induction k with
  | zero =>
    obtain ⟨h, heq, hlow, hhigh, hinode⟩ := makeRoot_small
    exact ⟨_, rfl, h, heq, hlow, hhigh, hinode⟩
  | succ k ih =>
    obtain ⟨s, hs, h, heq, hlow, hhigh, hinode⟩ := ih (by omega)
    have hroot : s.freeinode ≠ ROOTINO := by
      rw [hinode]
      show k + 2 ≠ 1
      omega
    have hsec : i2b s.freeinode < metablocks := by
      rw [hinode, hmeta]
      show (k + 2) / 8 + 2 < 285
      omega
    obtain ⟨t, ht, ht', h', hfree', hused', hinode'⟩ := addFile_oneByte h (by omega) (by omega) hroot hsec
    refine ⟨addFile s oneByte, ?_, h', by omega, by omega, by omega, by omega⟩
    rw [List.replicate_succ', List.foldl_append, hs]
    rfl

theorem mkfs_small {k : Nat} (hk : k ≤ 300) : ∃ disk, mkfs (List.replicate k oneByte) = some disk ∧
    disk = ((filled (List.replicate k oneByte)).balloc (filled (List.replicate k oneByte)).usedblocks).disk ∧
    metablocks + k ≤ (filled (List.replicate k oneByte)).usedblocks := by
  obtain ⟨s, hs, -, -, hlow, hhigh, -⟩ := files_small k hk
  have hmeta : metablocks = 285 := by decide
  have hused : (filled (List.replicate k oneByte)).usedblocks = s.usedblocks := by
    unfold filled
    rw [hs]
    rfl
  refine ⟨_, ?_, rfl, hused ▸ hlow⟩
  unfold mkfs
  rw [if_neg, if_pos]
  · rw [hused]
    omega
  · intro hany
    obtain ⟨f, hf, hslash⟩ := List.any_eq_true.1 hany
    rw [List.eq_of_mem_replicate hf] at hslash
    revert hslash
    decide

/-- 230 files of one byte take more than 512 blocks, and the last chunk marks only a few in the first block of the bitmap. -/
theorem bitmap_wrong : ¬∀ files disk, mkfs files = some disk → BitmapRight disk (filled files).usedblocks := by
  intro h
  obtain ⟨disk, hmkfs, hdisk, hlow⟩ := mkfs_small (k := 230) (by decide)
  have hmeta : metablocks = 285 := by decide
  have hright := h _ _ hmkfs
  rw [hdisk] at hright
  have hfew := ((balloc_right _ _).1 hright).1
  omega

end Mkfs

end NewXv6
