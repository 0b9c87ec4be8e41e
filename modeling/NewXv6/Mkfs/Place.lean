import NewXv6.Mkfs.Bitmap

/-!
# Where `mkfs` writes

Every block after the metadata is a data block or an index block, and stays it (`kind`): so the writes of `iappend` go to
blocks that were taken for the file, and the blocks of the bitmap are clear until `balloc`.
-/

namespace NewXv6

namespace Mkfs

namespace State

/-- Block `b` is in use, as a data block or as an index block of blocks of the kind before. -/
def In (kind : Nat → Nat) (s : State) (r b : Nat) : Prop := metablocks ≤ b ∧ b < s.freeblock ∧ kind b = r

/-- What address `j` of an inode is for. -/
def level (j : Fin (NDIRECT + 1)) : Nat := if j = Fin.last NDIRECT then 3 else 0

/-- The addresses of an inode are of blocks in use. -/
def Placed (kind : Nat → Nat) (s : State) (din : Dinode) : Prop :=
  ∀ j, din.addrs j = 0 ∨ In kind s (level j) (din.addrs j).toNat

/-- The blocks in use, those not yet taken, the inodes before the bitmap, and the bitmap after its first block. -/
structure Typed (kind : Nat → Nat) (s : State) : Prop where
  free : metablocks ≤ s.freeblock
  used : s.usedblocks = s.freeblock
  word : ∀ b r, In kind s (r + 1) b → ∀ k, (s.disk b).word k = 0 ∨ In kind s r ((s.disk b).word k).toNat
  blank : ∀ b, s.freeblock ≤ b → s.disk b = Block.zero
  addr : ∀ inum, inum < 216 → Placed kind s (s.rinode inum)
  clear : ∀ sec, 29 ≤ sec → sec < metablocks → s.disk sec = Block.zero

variable {kind kind' : Nat → Nat} {s t : State} {r b k inum : Nat} {din : Dinode}

theorem In.mono (h : In kind s r b) (hle : s.freeblock ≤ t.freeblock) (hext : ∀ b < s.freeblock, kind' b = kind b) :
    In kind' t r b :=
  ⟨h.1, Nat.lt_of_lt_of_le h.2.1 hle, (hext b h.2.1).trans h.2.2⟩

theorem Placed.mono (h : Placed kind s din) (hle : s.freeblock ≤ t.freeblock)
    (hext : ∀ b < s.freeblock, kind' b = kind b) : Placed kind' t din := fun j => (h j).imp_right fun h => h.mono hle hext

theorem i2b_lt (h : inum < 216) : i2b inum < 29 := by
  show inum / 8 + 2 < 29
  omega

theorem metablocks_eq : metablocks = 285 := by decide

/-- A block is taken for the kind `r`. -/
theorem Typed.take (h : Typed kind s) (r : Nat) : Typed (Function.update kind s.freeblock r) s.take.2 ∧
    In (Function.update kind s.freeblock r) s.take.2 r s.freeblock ∧
    ∀ b < s.freeblock, Function.update kind s.freeblock r b = kind b := by
  have hext : ∀ b < s.freeblock, Function.update kind s.freeblock r b = kind b := fun b hb =>
    Function.update_of_ne (Nat.ne_of_lt hb) _ _
  have hle : s.freeblock ≤ s.take.2.freeblock := Nat.le_succ _
  refine ⟨⟨Nat.le_trans h.free hle, congrArg (· + 1) h.used, fun b q hb k => ?_, fun b hb => h.blank b (Nat.le_of_succ_le hb),
    fun inum hi => (h.addr inum hi).mono hle hext, h.clear⟩, ⟨h.free, Nat.lt_succ_self _, Function.update_self ..⟩, hext⟩
  rcases Nat.lt_succ_iff_lt_or_eq.1 hb.2.1 with hlt | rfl
  · have hold : In kind s (q + 1) b := ⟨hb.1, hlt, (hext b hlt).symm.trans hb.2.2⟩
    exact (h.word b q hold k).imp_right fun h => h.mono hle hext
  · refine Or.inl ?_
    show (s.disk s.freeblock).word k = 0
    rw [h.blank _ (Nat.le_refl _)]
    exact Block.word_zero k

/-- A block in use is written. -/
theorem Typed.wsect (h : Typed kind s) {buf : Block} (hb : metablocks ≤ b) (hlt : b < s.freeblock)
    (hbuf : ∀ r, kind b = r + 1 → ∀ k, buf.word k = 0 ∨ In kind s r (buf.word k).toNat) : Typed kind (s.wsect b buf) := by
  have hmeta := metablocks_eq
  have hother : ∀ c, c ≠ b → (s.wsect b buf).disk c = s.disk c := fun c hc => Function.update_of_ne hc _ _
  refine ⟨h.free, h.used, fun c q hc k => ?_, fun c hc => ?_, fun inum hi => ?_, fun sec h₁ h₂ => ?_⟩
  · by_cases hcb : c = b
    · subst hcb
      have hself : (s.wsect c buf).disk c = buf := Function.update_self ..
      rw [hself]
      exact hbuf q hc.2.2 k
    · rw [hother c hcb]
      exact h.word c q hc k
  · have hc' : s.freeblock ≤ c := hc
    rw [hother c (by omega)]
    exact h.blank c hc
  · have hi' := i2b_lt hi
    rw [rinode_wsect s buf (by omega)]
    exact h.addr inum hi
  · rw [hother sec (by omega)]
    exact h.clear sec h₁ h₂

/-- An inode before the bitmap is written. -/
theorem Typed.winode (h : Typed kind s) (hi : inum < 216) (hdin : Placed kind s din) : Typed kind (s.winode inum din) := by
  have hmeta := metablocks_eq
  have hsec := i2b_lt hi
  have hfree := h.free
  have hother : ∀ c, 29 ≤ c → (s.winode inum din).disk c = s.disk c := fun c hc =>
    Function.update_of_ne (by omega) _ _
  refine ⟨h.free, h.used, fun c q hc k => ?_, fun c hc => ?_, fun l hl => ?_, fun sec h₁ h₂ => ?_⟩
  · have hc' := hc.1
    rw [hother c (by omega)]
    exact h.word c q hc k
  · have hc' : s.freeblock ≤ c := hc
    rw [hother c (by omega)]
    exact h.blank c hc
  · by_cases hli : l = inum
    · rw [hli, rinode_winode_self]
      exact hdin
    · rw [rinode_winode_ne s din hli]
      exact h.addr l hl
  · rw [hother sec h₁]
    exact h.clear sec h₁ h₂

/-! ## The blocks of a file -/

/-- What code that takes blocks keeps. -/
structure Later (s t : State) : Prop where
  le : s.freeblock ≤ t.freeblock
  used : t.usedblocks + s.freeblock = t.freeblock + s.usedblocks
  inodes : t.freeinode = s.freeinode

theorem Later.refl (s : State) : Later s s := ⟨Nat.le_refl _, Nat.add_comm _ _, rfl⟩

theorem Later.trans {u : State} (h : Later s t) (h' : Later t u) : Later s u := by
  refine ⟨Nat.le_trans h.le h'.le, ?_, h'.inodes.trans h.inodes⟩
  have h₁ := h.used
  have h₂ := h'.used
  omega

theorem later_take (s : State) : Later s s.take.2 := by
  refine ⟨Nat.le_succ _, ?_, rfl⟩
  show s.usedblocks + 1 + s.freeblock = s.freeblock + 1 + s.usedblocks
  omega

theorem Later.of_wsect {buf : Block} (h : Later (s.wsect b buf) t) : Later s t := ⟨h.le, h.used, h.inodes⟩

theorem Later.wsect {buf : Block} (h : Later s t) : Later s (t.wsect b buf) := ⟨h.le, h.used, h.inodes⟩

theorem later_indirect (s : State) (a k : Nat) : Later s (s.indirect a k).2 := by
  unfold indirect
  split
  · exact (later_take s).wsect
  · exact .refl s

theorem later_address (s : State) (din : Dinode) (j : Fin (NDIRECT + 1)) : Later s (s.address din j).2.2 := by
  unfold address
  split
  · exact later_take s
  · exact .refl s

theorem indirect_typed (h : Typed kind s) {a : Nat} (ha : In kind s (r + 1) a) (hk : k < NINDIRECT)
    (hfew : (s.indirect a k).2.freeblock < 2 ^ 32) : ∃ kind', Typed kind' (s.indirect a k).2 ∧
      (∀ din, Placed kind s din → Placed kind' (s.indirect a k).2 din) ∧
      In kind' (s.indirect a k).2 r (s.indirect a k).1 := by
  unfold indirect at hfew ⊢
  split
  · rename_i hzero
    rw [if_pos hzero] at hfew
    have hlt : s.freeblock < 2 ^ 32 := Nat.lt_of_succ_lt hfew
    obtain ⟨htake, hin, hext⟩ := h.take r
    refine ⟨_, htake.wsect ha.1 (Nat.lt_succ_of_lt ha.2.1) fun q hq l => ?_,
      fun din hdin => hdin.mono (Nat.le_succ _) hext, hin⟩
    rw [Block.word_setWord _ _ _ hk]
    have hqr : q = r := by
      have := (hext a ha.2.1).symm.trans hq
      have := ha.2.2
      omega
    split
    · refine Or.inr ?_
      rw [hqr]
      show In _ _ r (UInt32.ofNat s.freeblock).toNat
      rw [UInt32.toNat_ofNat', Nat.mod_eq_of_lt hlt]
      exact hin
    · rw [hqr]
      exact (h.word a r ha l).imp_right fun h => h.mono (Nat.le_succ _) hext
  · rename_i hne
    exact ⟨kind, h, fun _ => id, (h.word a r ha k).resolve_left hne⟩

theorem address_typed (h : Typed kind s) (hdin : Placed kind s din) (j : Fin (NDIRECT + 1))
    (hfew : (s.address din j).2.2.freeblock < 2 ^ 32) : ∃ kind', Typed kind' (s.address din j).2.2 ∧
      Placed kind' (s.address din j).2.2 (s.address din j).2.1 ∧
      In kind' (s.address din j).2.2 (level j) (s.address din j).1 := by
  unfold address at hfew ⊢
  split
  · rename_i hzero
    rw [if_pos hzero] at hfew
    have hlt : s.freeblock < 2 ^ 32 := Nat.lt_of_succ_lt hfew
    obtain ⟨htake, hin, hext⟩ := h.take (level j)
    refine ⟨_, htake, fun i => ?_, hin⟩
    dsimp only
    by_cases hij : i = j
    · rw [hij, Function.update_self]
      refine Or.inr ?_
      show In _ _ _ (UInt32.ofNat s.freeblock).toNat
      rw [UInt32.toNat_ofNat', Nat.mod_eq_of_lt hlt]
      exact hin
    · rw [Function.update_of_ne hij]
      exact (hdin i).imp_right fun h => h.mono (Nat.le_succ _) hext
  · rename_i hne
    exact ⟨kind, h, hdin, (hdin j).resolve_left hne⟩

theorem later_fileBlock (s : State) (din : Dinode) (fbn : Nat) : Later s (s.fileBlock din fbn).2.2 := by
  unfold fileBlock
  split
  · exact later_address s din _
  · dsimp only
    exact (later_address s din _).trans ((later_indirect _ _ _).trans ((later_indirect _ _ _).trans (later_indirect _ _ _)))

/-- The block that `iappend` writes is a data block in use. -/
theorem fileBlock_typed (h : Typed kind s) (hdin : Placed kind s din) (fbn : Nat)
    (hfew : (s.fileBlock din fbn).2.2.freeblock < 2 ^ 32) : ∃ kind', Typed kind' (s.fileBlock din fbn).2.2 ∧
      Placed kind' (s.fileBlock din fbn).2.2 (s.fileBlock din fbn).2.1 ∧
      In kind' (s.fileBlock din fbn).2.2 0 (s.fileBlock din fbn).1 := by
  unfold fileBlock at hfew ⊢
  split
  · rename_i hlt
    rw [dif_pos hlt] at hfew
    obtain ⟨kind', h', hdin', hin⟩ := address_typed h hdin _ hfew
    have hlevel : level ⟨fbn, by omega⟩ = 0 := if_neg fun he => Nat.ne_of_lt hlt (congrArg Fin.val he)
    exact ⟨kind', h', hdin', hlevel ▸ hin⟩
  · rename_i hlt
    rw [dif_neg hlt] at hfew
    dsimp only at hfew ⊢
    have hlast : level (Fin.last NDIRECT) = 3 := if_pos rfl
    -- from the inode down: the outer index block, two more, the data block
    have hmod : ∀ x, x % 128 < NINDIRECT := fun x => Nat.mod_lt x (by decide)
    have hfew₃ := Nat.lt_of_le_of_lt (later_indirect _ _ _).le hfew
    have hfew₂ := Nat.lt_of_le_of_lt (later_indirect _ _ _).le hfew₃
    have hfew₁ := Nat.lt_of_le_of_lt (later_indirect _ _ _).le hfew₂
    obtain ⟨kind₁, h₁, hdin₁, hin₁⟩ := address_typed h hdin _ hfew₁
    rw [hlast] at hin₁
    obtain ⟨kind₂, h₂, hkeep₂, hin₂⟩ := indirect_typed h₁ hin₁ (hmod _) hfew₂
    obtain ⟨kind₃, h₃, hkeep₃, hin₃⟩ := indirect_typed h₂ hin₂ (hmod _) hfew₃
    obtain ⟨kind₄, h₄, hkeep₄, hin₄⟩ := indirect_typed h₃ hin₃ (hmod _) hfew
    exact ⟨kind₄, h₄, hkeep₄ _ (hkeep₃ _ (hkeep₂ _ hdin₁)), hin₄⟩

/-- One round of `iappend` leaves less. -/
theorem length_drop_round {off n : Nat} {p : List UInt8} (hp : p.length ≤ n + 1) (hne : p ≠ []) :
    (p.drop (min p.length ((off / 512 + 1) * 512 - off))).length ≤ n := by
  have hlen := List.length_pos_iff.2 hne
  have hround : off < (off / 512 + 1) * 512 := by omega
  rw [List.length_drop]
  omega

theorem later_iappendFrom (n : Nat) : ∀ {s : State} {din : Dinode} {off : Nat} {p : List UInt8}, p.length ≤ n →
    Later s (s.iappendFrom din off p).1 := by
  induction n with
  | zero =>
    intro s din off p hp
    rw [iappendFrom, dif_pos (List.length_eq_zero_iff.1 (Nat.le_zero.1 hp))]
    exact .refl s
  | succ n ih =>
    intro s din off p hp
    rw [iappendFrom]
    split
    · exact .refl s
    · rename_i hne
      exact (later_fileBlock s din (off / 512)).trans (Later.of_wsect (ih (length_drop_round hp hne)))

/-- The loop of `iappend`. -/
theorem iappendFrom_typed (n : Nat) : ∀ {kind : Nat → Nat} {s : State} {din : Dinode} {off : Nat} {p : List UInt8},
    p.length ≤ n → Typed kind s → Placed kind s din → (s.iappendFrom din off p).1.freeblock < 2 ^ 32 →
    ∃ kind', Typed kind' (s.iappendFrom din off p).1 ∧
      Placed kind' (s.iappendFrom din off p).1 (s.iappendFrom din off p).2.1 := by
  induction n with
  | zero =>
    intro kind s din off p hp h hdin _
    rw [iappendFrom, dif_pos (List.length_eq_zero_iff.1 (Nat.le_zero.1 hp))]
    exact ⟨kind, h, hdin⟩
  | succ n ih =>
    intro kind s din off p hp h hdin hfew
    rw [iappendFrom] at hfew ⊢
    split
    · exact ⟨kind, h, hdin⟩
    · rename_i hne
      rw [dif_neg hne] at hfew
      dsimp only at hfew ⊢
      have hdrop : (p.drop (min p.length ((off / 512 + 1) * 512 - off))).length ≤ n := length_drop_round hp hne
      have hfile := Nat.lt_of_le_of_lt (later_iappendFrom n hdrop).le hfew
      obtain ⟨kind', h', hdin', hin⟩ := fileBlock_typed h hdin (off / 512) hfile
      refine ih hdrop (h'.wsect hin.1 hin.2.1 fun q hq => ?_) hdin' hfew
      have hdata := hin.2.2
      omega

theorem later_iappend (s : State) (inum : Nat) (p : List UInt8) : Later s (s.iappend inum p) := by
  have h : Later s (s.iappendFrom (s.rinode inum) (s.rinode inum).size.toNat p).1 :=
    later_iappendFrom p.length (Nat.le_refl _)
  exact h.wsect

theorem iappend_typed (h : Typed kind s) (hi : inum < 216) {p : List UInt8}
    (hfew : (s.iappend inum p).freeblock < 2 ^ 32) : ∃ kind', Typed kind' (s.iappend inum p) := by
  obtain ⟨kind', h', hdin'⟩ := iappendFrom_typed p.length (Nat.le_refl _) h (h.addr inum hi) hfew
  exact ⟨kind', h'.winode hi hdin'⟩

theorem ialloc_typed (h : Typed kind s) (hi : s.freeinode < 216) (type : Int16) : Typed kind (s.ialloc type).2 := by
  have h' : Typed kind { s with freeinode := s.freeinode + 1 } := ⟨h.free, h.used, h.word, h.blank, h.addr, h.clear⟩
  exact h'.winode hi fun _ => Or.inl rfl

theorem later_reads (inum : Nat) (reads : List (List UInt8)) : ∀ {s : State},
    Later s (reads.foldl (fun s cc => s.iappend inum cc) s) := by
  induction reads with
  | nil => exact .refl _
  | cons cc reads ih => exact (later_iappend _ inum cc).trans ih

theorem reads_typed (hi : inum < 216) (reads : List (List UInt8)) : ∀ {kind : Nat → Nat} {s : State}, Typed kind s →
    (reads.foldl (fun s cc => s.iappend inum cc) s).freeblock < 2 ^ 32 →
    ∃ kind', Typed kind' (reads.foldl (fun s cc => s.iappend inum cc) s) := by
  induction reads with
  | nil => exact fun h _ => ⟨_, h⟩
  | cons cc reads ih =>
    intro kind s h hfew
    obtain ⟨kind', h'⟩ := iappend_typed h hi (Nat.lt_of_le_of_lt (later_reads inum reads).le hfew)
    exact ih h' hfew

end State

/-! ## The files -/

open State

variable {kind : Nat → Nat} {s : State}

/-- One file takes one inode. -/
theorem addFile_later (s : State) (f : HostFile) : s.freeblock ≤ (addFile s f).freeblock ∧
    (addFile s f).usedblocks + s.freeblock = (addFile s f).freeblock + s.usedblocks ∧
    (addFile s f).freeinode = s.freeinode + 1 := by
  have h : Later (s.ialloc T_FILE).2 (addFile s f) := (later_iappend _ _ _).trans (later_reads _ f.reads)
  exact ⟨h.le, h.used, h.inodes⟩

theorem addFile_typed (h : Typed kind s) (hi : s.freeinode < 216) (f : HostFile)
    (hfew : (addFile s f).freeblock < 2 ^ 32) : ∃ kind', Typed kind' (addFile s f) := by
  have hreads := Nat.lt_of_le_of_lt (later_reads s.freeinode f.reads).le hfew
  obtain ⟨kind', h'⟩ := iappend_typed (ialloc_typed h hi T_FILE) (show ROOTINO < 216 by decide) hreads
  exact reads_typed hi f.reads h' hfew

theorem addFiles_le (files : List HostFile) : ∀ {s : State}, s.freeblock ≤ (files.foldl addFile s).freeblock ∧
    (files.foldl addFile s).usedblocks + s.freeblock = (files.foldl addFile s).freeblock + s.usedblocks := by
  induction files with
  | nil => exact ⟨Nat.le_refl _, Nat.add_comm _ _⟩
  | cons f files ih =>
    intro s
    obtain ⟨hle, hused, -⟩ := addFile_later s f
    obtain ⟨hle', hused'⟩ := @ih (addFile s f)
    rw [List.foldl_cons]
    omega

theorem addFiles_typed (files : List HostFile) : ∀ {kind : Nat → Nat} {s : State}, Typed kind s →
    s.freeinode + files.length ≤ 216 → (files.foldl addFile s).freeblock < 2 ^ 32 →
    ∃ kind', Typed kind' (files.foldl addFile s) := by
  induction files with
  | nil => exact fun h _ _ => ⟨_, h⟩
  | cons f files ih =>
    intro kind s h hi hfew
    rw [List.length_cons] at hi
    rw [List.foldl_cons] at hfew ⊢
    obtain ⟨kind', h'⟩ := addFile_typed h (by omega) f (Nat.lt_of_le_of_lt (addFiles_le files).1 hfew)
    have hinode := (addFile_later s f).2.2
    exact ih h' (by omega) hfew

/-- The disk before the first file. -/
theorem format_typed : Typed (fun _ => 0) format := by
  have hmeta := metablocks_eq
  have hzero : ∀ sec, sec ≠ 1 → format.disk sec = Block.zero := fun sec hsec => by
    unfold format
    dsimp only
    rw [Function.update_of_ne hsec]
  refine ⟨Nat.le_refl _, rfl, fun b r hb => ?_, fun b hb => hzero b ?_, fun inum _ j => Or.inl ?_, fun sec h₁ _ =>
    hzero sec (by omega)⟩
  · exact absurd hb.2.2 (Nat.succ_ne_zero r).symm
  · have hb' : metablocks ≤ b := hb
    omega
  · have hsec : i2b inum ≠ 1 := by
      show inum / 8 + 2 ≠ 1
      omega
    unfold rinode rsect
    rw [hzero _ hsec, Block.getDinode_zero]
    rfl

theorem makeRoot_later : Later (format.ialloc T_DIR).2 (makeRoot format) :=
  (later_iappend _ _ _).trans (later_iappend _ _ _)

theorem makeRoot_typed (hfew : (makeRoot format).freeblock < 2 ^ 32) : ∃ kind', Typed kind' (makeRoot format) := by
  have hroot : (1 : Nat) < 216 := by decide
  have h₀ := ialloc_typed format_typed hroot T_DIR
  have hmid := Nat.lt_of_le_of_lt (later_iappend _ _ _).le hfew
  obtain ⟨kind', h₁⟩ := iappend_typed h₀ hroot hmid
  exact iappend_typed h₁ hroot hfew

/-- As many blocks are in use as were counted. -/
theorem filled_used (files : List HostFile) : (filled files).usedblocks = (filled files).freeblock := by
  have hroot := makeRoot_later.used
  have hfiles := (addFiles_le files (s := makeRoot format)).2
  have hstart : (format.ialloc T_DIR).2.usedblocks = (format.ialloc T_DIR).2.freeblock := rfl
  show (files.foldl addFile (makeRoot format)).usedblocks = (files.foldl addFile (makeRoot format)).freeblock
  omega

/-- **The rest of the bitmap is clear** before `balloc`, where there are at most 214 files. -/
theorem rest_clear {files : List HostFile} (hfiles : files.length ≤ 214) (hfew : (filled files).usedblocks < 2 ^ 32)
    {b : Nat} (hb : BPB ≤ b) (hlog : b < size - nlog) : marked (filled files).disk b = false := by
  rw [filled_used] at hfew
  have hmeta := metablocks_eq
  have hall : (files.foldl addFile (makeRoot format)).freeblock < 2 ^ 32 := hfew
  obtain ⟨kind, hroot⟩ := makeRoot_typed (Nat.lt_of_le_of_lt (addFiles_le files).1 hall)
  have hinode : (makeRoot format).freeinode = 2 := makeRoot_later.inodes
  obtain ⟨kind', h⟩ := addFiles_typed files hroot (by omega) hall
  have hfixed : Typed kind' (filled files) := h.winode (by decide) (h.addr ROOTINO (by decide))
  have hb' : 4096 ≤ b := hb
  have hlog' : b < 1024 * 1024 - 30 := hlog
  have hsec : BBLOCK b ninodes = b / 4096 + 28 := rfl
  unfold marked
  rw [hsec, hfixed.clear _ (by omega) (by omega)]
  exact Block.bit_zero _

/-- **The bitmap of an image** is the one the kernel reads exactly if at most 512 blocks are used and nothing was written to
the blocks of the bitmap after the first, which holds of every image with at most 214 files; then the kernel's `balloc` gives
no block that is used. -/
theorem bitmap_right {files : List HostFile} {disk : Nat → Block} (h : mkfs files = some disk) :
    (BitmapRight disk (filled files).usedblocks ↔ (filled files).usedblocks ≤ 512 ∧
      ∀ b, BPB ≤ b → b < size - nlog → marked (filled files).disk b = false) ∧
    (files.length ≤ 214 → (BitmapRight disk (filled files).usedblocks ↔ (filled files).usedblocks ≤ 512)) ∧
    (BitmapRight disk (filled files).usedblocks → ∀ b bi, BPB ∣ b → findFree sb b (disk (BBLOCK b ninodes)) = some bi →
      (filled files).usedblocks ≤ b + bi) := by
  cases mkfs_disk h
  have hiff := balloc_right (filled files) (filled files).usedblocks
  refine ⟨hiff, fun hfiles => ⟨fun hright => (hiff.1 hright).1, fun hused => hiff.2 ⟨hused, fun b hb hlog => ?_⟩⟩,
    fun hright b bi hb hfind => hright.findFree hb hfind⟩
  exact rest_clear hfiles (Nat.lt_of_le_of_lt hused (by decide)) hb hlog

/-- An image with one file. -/
theorem bitmap_right_one : ∃ disk, mkfs (List.replicate 1 oneByte) = some disk ∧
    (BitmapRight disk (filled (List.replicate 1 oneByte)).usedblocks ↔
      (filled (List.replicate 1 oneByte)).usedblocks ≤ 512) := by
  obtain ⟨disk, hmkfs, -, -⟩ := mkfs_small (show 1 ≤ 300 by decide)
  exact ⟨disk, hmkfs, (bitmap_right hmkfs).2.1 (by decide)⟩

end Mkfs

end NewXv6
