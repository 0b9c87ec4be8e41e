import NewXv6.Fs.Map
import Mathlib.Data.Finset.Union

/-!
# Contents of inodes

`readi` returns the bytes of a file, and where there are no holes it changes nothing (`readi_run`). `writei` changes the
bytes of the range it is given, and the size if the range ends behind it (`Written`).
-/

namespace NewXv6

open Lib

section Content

variable {E : Setting} {a : Ahead} {m : Slot → Nat} {s t u : FsState} {ip : Slot}

/-! ## What may be ahead of the disk -/

/-- Addresses may be ahead of a disk inode. -/
theorem Inv.toAddrs (h : Inv E .no m s) (ip : Slot) : Inv E (.addrs ip) m s :=
  ⟨h.io, h.super, h.refs, h.uniq, h.inum, h.typed, fun jp _ => h.weak jp (by simp),
    fun hs jp _ _ => h.sync hs jp (by simp) (by simp), h.sound⟩

/-- Where holes are allowed, a disk inode whose addresses lag behind is no exception. -/
theorem Inv.settle (h : Inv E (.addrs ip) m s) (hs : ¬E.P.strict) : Inv E .no m s :=
  ⟨h.io, h.super, h.refs, h.uniq, h.inum, h.typed, fun jp _ => h.weak jp (by simp), fun hs' => absurd hs' hs, h.sound⟩

theorem Inv.toFields (h : Inv E (.addrs ip) m s) : Inv E (.fields ip) m s := by
  refine ⟨h.io, h.super, h.refs, h.uniq, h.inum, h.typed, fun jp _ => h.weak jp (by simp), fun hs jp hj _ => ?_, h.sound⟩
  exact h.sync hs jp (by simp) fun he => hj (by injection he with he; rw [he])

/-! ## Reading -/

/-- Byte `o` of an inode. -/
def Dinode.byteAt (d : Dinode) (v : Nat → Block) (o : Nat) : UInt8 := (v (d.addr v (blockPos (o / BSIZE)))).byte (o % BSIZE)

/-- The rounds of `readi` are one block each. -/
theorem block_split {off n j : Nat} (hj : j < min n (BSIZE - off % BSIZE)) :
    (off + j) / BSIZE = off / BSIZE ∧ (off + j) % BSIZE = off % BSIZE + j := by
  simp only [BSIZE] at *
  omega

/-- The bytes of a range in two parts. -/
theorem range_split {α : Type} (f : Nat → α) {k n : Nat} (h : k ≤ n) :
    (List.range k).map f ++ (List.range (n - k)).map (fun j => f (k + j)) = (List.range n).map f := by
  conv_rhs => rw [show n = k + (n - k) by omega, List.range_add, List.map_append, List.map_map]
  rfl

/-- Reading where there are no holes changes nothing. -/
theorem readFrom_run (fuel : Nat) : ∀ {off n : Nat}, n ≤ fuel →
    (∀ o, off ≤ o → o < off + n → (s.icache ip).dinode.addr s.view (blockPos (o / BSIZE)) ≠ 0) →
    readFrom ip fuel off n s = (.ok ((List.range n).map fun j => (s.icache ip).dinode.byteAt s.view (off + j), s), []) := by
  induction fuel with
  | zero =>
    intro off n hn _
    obtain rfl : n = 0 := by omega
    rfl
  | succ fuel ih =>
    intro off n hn hfull
    unfold readFrom
    split
    · subst n
      rfl
    · rename_i hn₀
      have hmap : bmap ip (off / BSIZE) s = _ := bmap_run (hfull off (Nat.le_refl _) (by omega))
      have hbread : ∀ x, (liftM (bread x) : Kern FsState Block) s = (.ok (s.view x, s), []) := fun _ => rfl
      have hm : 0 < min n (BSIZE - off % BSIZE) := by
        simp only [BSIZE]
        omega
      refine Prog.run_bind hmap (w := []) (v := []) ?_
      refine Prog.run_bind (hbread _) (w := []) (v := []) ?_
      have hrest := @ih (off + min n (BSIZE - off % BSIZE)) (n - min n (BSIZE - off % BSIZE)) (by omega)
        fun o h₁ h₂ => hfull o (by omega) (by omega)
      refine (Prog.run_bind hrest (w := []) (v := []) rfl).trans ?_
      have hb' : (UInt32.ofNat ((s.icache ip).dinode.addr s.view (blockPos (off / BSIZE)))).toNat =
          (s.icache ip).dinode.addr s.view (blockPos (off / BSIZE)) := by
        rw [UInt32.toNat_ofNat']
        exact Nat.mod_eq_of_lt (Dinode.addr_lt _ _ _)
      rw [hb', ← range_split (fun j => (s.icache ip).dinode.byteAt s.view (off + j)) (Nat.min_le_left n (BSIZE - off % BSIZE))]
      congr 4
      · refine List.map_congr_left fun j hj => ?_
        obtain ⟨h₁, h₂⟩ := block_split (List.mem_range.1 hj)
        unfold Dinode.byteAt
        rw [h₁, h₂]
      · exact List.map_congr_left fun j _ => by rw [Nat.add_assoc]

/-- The bytes of a file that are in blocks. -/
theorem Inv.byteAt (h : Inv E a m s) (hm : 0 < m ip) (hv : (s.icache ip).valid = true) {o : Nat}
    (hne : (s.files E.sb).addr (s.icache ip).inum (blockPos (o / BSIZE)) ≠ 0) :
    (s.icache ip).dinode.byteAt s.view o = (s.files E.sb).byte (s.icache ip).inum o := by
  have haddr := h.addr_eq hm hv (blockPos (o / BSIZE))
  unfold FsState.files at hne haddr ⊢
  rw [filesOf_byte, if_neg hne, haddr]
  rfl

/-- Files of a strict system have no holes. -/
theorem Inv.full (h : Inv E a m s) (hs : E.P.strict) (hm : 0 < m ip) (hv : (s.icache ip).valid = true) {o : Nat}
    (ho : o < (s.icache ip).dinode.size.toNat) :
    (s.files E.sb).addr (s.icache ip).inum (blockPos (o / BSIZE)) ≠ 0 := by
  refine h.sound.full hs _ _ ?_ ?_
  · rw [h.type_eq hm hv]
    exact h.typed ip hm hv
  · rw [h.size_eq hm hv]
    have := Nat.div_mul_le_self o BSIZE
    omega

/-- The loop of `readi` where holes are allowed. -/
theorem wp_readFrom (hs : ¬E.P.strict) (hW : ∀ x, E.W x) (hm : 0 < m ip) (fuel : Nat) :
    ∀ {s : FsState} {off n : Nat}, Inv E .no m s → (s.icache ip).valid = true → n ≤ fuel →
    ∀ {Q : List UInt8 → FsState → Prop}, (∀ t, Inv E .no m t → Grown E ip s t →
      Q ((List.range n).map fun j => (s.files E.sb).byte (s.icache ip).inum (off + j)) t) →
    Wp E.C (readFrom ip fuel off n) Q s := by
  induction fuel with
  | zero =>
    intro s off n h _ hn Q hQ
    obtain rfl : n = 0 := by omega
    exact (wp_pure _ _ _).2 (hQ s h (Grown.refl s))
  | succ fuel ih =>
    intro s off n h hv hn Q hQ
    unfold readFrom
    rw [wp_ite, wp_pure]
    refine ⟨?_, fun hn₀ => ?_⟩
    · rintro rfl
      exact hQ s h (Grown.refl s)
    · have hlen : 0 < min n (BSIZE - off % BSIZE) := by
        simp only [BSIZE]
        omega
      have hroom : Room E s (s.icache ip).inum (path (off / BSIZE)) :=
        ⟨fun _ _ => ⟨hW _, hW _⟩, fun _ _ _ _ _ _ => hW _, fun _ _ _ _ => hW _⟩
      rw [wp_bind]
      refine wp_bmap (h.toAddrs ip) hm hv (Finset.Subset.refl _) hroom fun addr t ht => ?_
      have hi := ht.grown.inum ip
      have hv' := ((ht.grown.stable m).valid ip hm hv).1
      rw [wp_bind, bread_wp, wp_bind]
      refine ih (ht.inv.settle hs) hv' (by omega) fun u hu hgrown => ?_
      rw [wp_pure]
      have hbyte := ht.grown.byte
      have hrest : (List.range (n - min n (BSIZE - off % BSIZE))).map
          (fun j => (t.files E.sb).byte (t.icache ip).inum (off + min n (BSIZE - off % BSIZE) + j)) =
          (List.range (n - min n (BSIZE - off % BSIZE))).map
          (fun j => (s.files E.sb).byte (s.icache ip).inum (off + (min n (BSIZE - off % BSIZE) + j))) :=
        List.map_congr_left fun j _ => by rw [hbyte, hi, Nat.add_assoc]
      have hblock : (List.range (min n (BSIZE - off % BSIZE))).map (fun j => (t.view addr.toNat).byte (off % BSIZE + j)) =
          (List.range (min n (BSIZE - off % BSIZE))).map fun j => (s.files E.sb).byte (s.icache ip).inum (off + j) := by
        refine List.map_congr_left fun j hj => ?_
        obtain ⟨h₁, h₂⟩ := block_split (List.mem_range.1 hj)
        have heq := ht.eq
        have hne := ht.ne
        rw [← hbyte]
        unfold FsState.files at heq ⊢
        rw [heq] at hne
        rw [filesOf_byte, h₁, h₂, if_neg hne, heq]
      rw [hrest, hblock, range_split (fun j => (s.files E.sb).byte (s.icache ip).inum (off + j)) (Nat.min_le_left _ _)]
      exact hQ u hu (ht.grown.trans hgrown)

/-- What `readi` gives back of an inode that is no device. -/
def Reads (E : Setting) (ip : Slot) (s : FsState) (off n : UInt32) (r : Option (List UInt8)) : Prop :=
  (s.icache ip).dinode.type ≠ T_DEV → ∀ data, r = some data →
    data.length ≤ n.toNat ∧ off.toNat + data.length ≤ (s.icache ip).dinode.size.toNat ∧
    data = (List.range data.length).map fun j => (s.files E.sb).byte (s.icache ip).inum (off.toNat + j)

/-- The number of bytes `readi` reads. -/
def Dinode.readLen (d : Dinode) (off n : UInt32) : UInt32 := if d.size < off + n then d.size - off else n

theorem readLen_le {d : Dinode} {off n : UInt32} (h : ¬(d.size < off ∨ off + n < off)) :
    (d.readLen off n).toNat ≤ n.toNat ∧ off.toNat + (d.readLen off n).toNat ≤ d.size.toNat := by
  rw [not_or, UInt32.not_lt, UInt32.not_lt, UInt32.le_iff_toNat_le, UInt32.le_iff_toNat_le, UInt32.toNat_add] at h
  unfold Dinode.readLen
  have := UInt32.toNat_lt off
  have := UInt32.toNat_lt n
  have := UInt32.toNat_lt d.size
  split
  · rename_i hlt
    rw [UInt32.lt_iff_toNat_lt, UInt32.toNat_add] at hlt
    rw [UInt32.toNat_sub_of_le _ _ (by rw [UInt32.le_iff_toNat_le]; exact h.1)]
    omega
  · rename_i hle
    rw [UInt32.lt_iff_toNat_lt, UInt32.toNat_add] at hle
    omega

/-- **`readi`** returns bytes of the file; in a strict system it changes nothing. -/
theorem wp_readi (h : Inv E .no m s) (hm : 0 < m ip) (hv : (s.icache ip).valid = true) (hW : ¬E.P.strict → ∀ x, E.W x)
    (devsw : Nat → Option Devsw) {off n : UInt32} {Q : Option (List UInt8) → FsState → Prop}
    (hQ : ∀ r t, Inv E .no m t → Grown E ip s t → (E.P.strict → t = s) → Reads E ip s off n r → Q r t) :
    Wp E.C (readi devsw ip off n) Q s := by
  have hsame : ∀ r, Reads E ip s off n r → Q r s := fun r => hQ r s h (Grown.refl s) fun _ => rfl
  rw [readi, wp_bind, inode_wp, wp_ite]
  refine ⟨fun hdev => ?_, fun _ => ?_⟩
  · have hany : ∀ r, Q r s := fun r => hsame r fun ht => absurd hdev ht
    rw [wp_ite, wp_pure]
    refine ⟨fun _ => hany _, fun _ => ?_⟩
    split
    · exact (wp_pure _ _ _).2 (hany _)
    · exact (wp_pure _ _ _).2 (hany _)
  · rw [wp_ite, wp_pure]
    refine ⟨fun _ => hsame _ (fun _ _ he => by cases he), fun hin => ?_⟩
    obtain ⟨hle, hend⟩ := readLen_le hin
    show Wp E.C (readFrom ip ((s.icache ip).dinode.readLen off n).toNat off.toNat
      ((s.icache ip).dinode.readLen off n).toNat >>= fun data => pure (some data)) Q s
    have hreads : Reads E ip s off n (some ((List.range ((s.icache ip).dinode.readLen off n).toNat).map fun j =>
        (s.files E.sb).byte (s.icache ip).inum (off.toNat + j))) := by
      rintro _ data he
      obtain rfl := Option.some.inj he
      simp only [List.length_map, List.length_range, and_true]
      exact ⟨hle, hend⟩
    rw [wp_bind]
    by_cases hs : E.P.strict
    · have hfull : ∀ o, off.toNat ≤ o → o < off.toNat + ((s.icache ip).dinode.readLen off n).toNat →
          (s.files E.sb).addr (s.icache ip).inum (blockPos (o / BSIZE)) ≠ 0 :=
        fun o _ ho => h.full hs hm hv (by omega)
      refine wp_of_run (readFrom_run _ (Nat.le_refl _) fun o h₁ h₂ => ?_) (by simp) ?_
      · rw [← h.addr_eq hm hv]
        exact hfull o h₁ h₂
      · have hmap : (List.range ((s.icache ip).dinode.readLen off n).toNat).map
            (fun j => (s.icache ip).dinode.byteAt s.view (off.toNat + j)) =
            (List.range ((s.icache ip).dinode.readLen off n).toNat).map
            fun j => (s.files E.sb).byte (s.icache ip).inum (off.toNat + j) := by
          refine List.map_congr_left fun j hj => ?_
          exact h.byteAt hm hv (hfull _ (by omega) (by have := List.mem_range.1 hj; omega))
        rw [wp_pure, hmap]
        exact hsame _ hreads
    · refine wp_readFrom hs (hW hs) hm _ h hv (Nat.le_refl _) fun t ht hgrown => ?_
      rw [wp_pure]
      exact hQ _ t ht hgrown (fun hs' => absurd hs' hs) hreads

/-! ## Writing -/

/-- Blocks outside of the inodes and the superblock change. -/
theorem Inv.blocks (h : Inv E a m s) (hic : t.icache = s.icache) (hio : IoInv E.sb t.io)
    (hlow : ∀ x, x < E.sb.bitmapStart → t.view x = s.view x) (hsound : (t.files E.sb).Sound E.sb E.P) : Inv E a m t := by
  have hdisk : ∀ jp, 0 < m jp → diskInode t.view (s.icache jp).inum = diskInode s.view (s.icache jp).inum := by
    intro jp hmj
    unfold diskInode
    rw [hlow _ (Superblock.iblock_lt (h.inum jp hmj)).2]
  refine ⟨hio, ?_, ?_, ?_, ?_, ?_, fun jp ha hmj => ?_, fun hs jp ha hb hmj => ?_, hsound⟩
  · rw [hlow 1 E.sb.one_lt_bitmapStart]
    exact h.super
  · rw [hic]; exact h.refs
  · rw [hic]; exact h.uniq
  · rw [hic]; exact h.inum
  · rw [hic]; exact h.typed
  · rw [hic, hdisk jp hmj]; exact h.weak jp ha hmj
  · rw [hic, hdisk jp hmj]; exact h.sync hs jp ha hb hmj

/-- A data block of a file is written. -/
theorem Inv.write_files (h : Inv E a m s) {n bn : Nat} {data : Block} (hx : (s.files E.sb).addr n (blockPos bn) ≠ 0)
    (hic : t.icache = s.icache)
    (hview : t.view = Function.update s.view ((s.files E.sb).addr n (blockPos bn)) data) :
    (t.files E.sb).type = (s.files E.sb).type ∧ (t.files E.sb).size = (s.files E.sb).size ∧
    (t.files E.sb).addr = (s.files E.sb).addr ∧ (∀ x, x < E.sb.size → (Marked E.sb t.view x ↔ Marked E.sb s.view x)) ∧
    ∀ k o, (t.files E.sb).byte k o =
      if k = n ∧ o / BSIZE = bn then data.byte (o % BSIZE) else (s.files E.sb).byte k o := by
  have hbit := E.ok.bitmap_lt
  have hdata := (h.sound.area n _ hx).1
  have hcur : ∀ k, k < E.sb.inodes → (t.cur k).Same (s.cur k) := by
    intro k hk
    refine FsState.cur_congr (fun jp => ?_) (fun jp _ => ?_) fun _ => ?_
    · unfold FsState.Cached
      rw [hic]
    · rw [hic]
      exact Dinode.Same.rfl
    · have := (Superblock.iblock_lt hk).2
      unfold diskInode
      rw [hview, Function.update_of_ne (by omega)]
      exact Dinode.Same.rfl
  have hsame : t.files E.sb = filesOf E.sb s.cur t.view := by
    unfold FsState.files
    exact filesOf_congr hcur (fun _ _ _ => rfl) fun _ _ => Iff.rfl
  have hmarked : ∀ x, x < E.sb.size → (Marked E.sb t.view x ↔ Marked E.sb s.view x) := by
    intro x hx
    have := E.ok.bblock hx
    unfold Marked
    rw [hview, Function.update_of_ne (by omega)]
  obtain ⟨haddr, -, hbyte⟩ := @filesOf_write E.sb s.cur s.view t.view h.sound.inj n bn data hx
    (by rw [hview]; exact Function.update_self _ _ _)
    (fun k q _ hne => by rw [hview]; exact Function.update_of_ne hne _ _) hmarked
  rw [hsame]
  exact ⟨rfl, rfl, haddr, hmarked, hbyte⟩

theorem Inv.write (h : Inv E a m s) {n bn : Nat} {data : Block} (hx : (s.files E.sb).addr n (blockPos bn) ≠ 0)
    (hic : t.icache = s.icache) (hio : IoInv E.sb t.io)
    (hview : t.view = Function.update s.view ((s.files E.sb).addr n (blockPos bn)) data)
    (hdir : (s.files E.sb).type n = T_DIR → ∀ k, DIRENT * k + DIRENT ≤ (s.files E.sb).size n →
      (t.files E.sb).entry n k < E.sb.inodes) : Inv E a m t := by
  obtain ⟨htype, hsize, haddr, hmarked, hbyte⟩ := h.write_files hx hic hview
  have hbit := E.ok.bitmap_lt
  have hdata := (h.sound.area n _ hx).1
  refine h.blocks hic hio (fun x hlow => ?_) ?_
  · rw [hview, Function.update_of_ne (by omega)]
  · refine h.sound.write (n := n) htype hsize haddr ?_ (fun k hk => funext fun o => ?_) fun k hk hlen => hdir hk k hlen
    · funext b
      exact propext (and_congr_right fun hb => hmarked b hb)
    · rw [hbyte, if_neg fun hc => hk hc.1]

/-- The positions of the blocks that hold `len` bytes from `off` on. -/
def paths (off len : Nat) : Finset Pos := (Finset.range len).biUnion fun j => path ((off + j) / BSIZE)

/-- The bytes of file `n` from `off` to `stop` come from `src`, everything else is as in `s`. -/
structure Written (E : Setting) (m : Slot → Nat) (ip : Slot) (off : Nat) (src : List UInt8) (stop : Nat)
    (s t : FsState) : Prop where
  inv : Inv E (.addrs ip) m t
  no : off + src.length ≤ (s.icache ip).dinode.size.toNat → Inv E .no m t
  entry : ∃ addrs, t.icache = s.withAddrs ip addrs
  room : Room E t (s.icache ip).inum (paths off src.length)
  type : (t.files E.sb).type = (s.files E.sb).type
  size : (t.files E.sb).size = (s.files E.sb).size
  mapped : ∀ o, off ≤ o → o < stop → (t.files E.sb).addr (s.icache ip).inum (blockPos (o / BSIZE)) ≠ 0
  addr : ∀ q, (s.files E.sb).addr (s.icache ip).inum q ≠ 0 →
    (t.files E.sb).addr (s.icache ip).inum q = (s.files E.sb).addr (s.icache ip).inum q
  other : ∀ k, k ≠ (s.icache ip).inum → (t.files E.sb).addr k = (s.files E.sb).addr k
  byte : ∀ k o, (t.files E.sb).byte k o =
    if k = (s.icache ip).inum ∧ off ≤ o ∧ o < stop then src.getD (o - off) 0 else (s.files E.sb).byte k o

/-- What may be written to a directory: one entry, of an inode that exists. -/
def EntryOk (sb : Superblock) (off : Nat) (src : List UInt8) : Prop :=
  DIRENT ∣ off ∧ src.length = DIRENT ∧ (le16 (fun j => src.getD j 0) 0).toNat < sb.inodes

/-- A directory stays well formed while an entry is written. -/
theorem entry_written {sb : Superblock} {f g : Files} {n off stop : Nat} {src : List UInt8} (hsrc : EntryOk sb off src)
    (hstop : stop = off ∨ stop = off + src.length) (hoff : off ≤ f.size n)
    (hbyte : ∀ o, g.byte n o = if off ≤ o ∧ o < stop then src.getD (o - off) 0 else f.byte n o)
    (hf : ∀ k, DIRENT * k + DIRENT ≤ f.size n → f.entry n k < sb.inodes) {k : Nat}
    (hk : DIRENT * k + DIRENT ≤ f.size n ∨ DIRENT * k + DIRENT ≤ stop) : g.entry n k < sb.inodes := by
  obtain ⟨⟨i, rfl⟩, hlen, hinum⟩ := hsrc
  rw [hlen] at hstop
  simp only [DIRENT] at *
  by_cases hin : 16 * i ≤ 16 * k ∧ 16 * k < stop
  · obtain rfl : i = k := by omega
    have : g.entry n i = (le16 (fun j => src.getD j 0) 0).toNat := by
      unfold Files.entry
      rw [le16_congr (g := fun j => src.getD j 0) (p := 0) fun j hj => ?_]
      dsimp only [DIRENT]
      rw [hbyte, if_pos (by omega), Nat.zero_add, Nat.add_sub_cancel_left]
    rw [this]
    exact hinum
  · rw [Files.entry_congr (f := f) fun j hj => ?_]
    · exact hf k (by omega)
    · dsimp only [DIRENT]
      rw [hbyte, if_neg (by omega)]

theorem Room.congr {n : Nat} {L : Finset Pos} (h : Room E s n L)
    (haddr : (t.files E.sb).addr n = (s.files E.sb).addr n)
    (hmarked : ∀ x, x < E.sb.size → (Marked E.sb t.view x ↔ Marked E.sb s.view x)) : Room E t n L := by
  refine ⟨fun b hb => ?_, fun j ks k => ?_, fun p => ?_⟩
  · rw [haddr] at hb
    exact h.new b ((next_congr hmarked).1 hb)
  · rw [haddr]
    exact h.index j ks k
  · rw [haddr]
    exact h.leaf p

/-- One round of `writei`: the block is looked up, and a part of it is written. -/
theorem Written.step (hs : Inv E .no m s) (hm : 0 < m ip) (hv : (s.icache ip).valid = true) {off o len : Nat}
    {src : List UInt8} {addr : UInt32} {io : LogState} (hoff : off ≤ (s.icache ip).dinode.size.toNat)
    (hsrc : (s.files E.sb).type (s.icache ip).inum = T_DIR → EntryOk E.sb off src ∧
      (o + len = off ∨ o + len = off + src.length))
    (h : Written E m ip off src o s t) (hlo : off ≤ o) (hhi : o + len ≤ off + src.length) (hlen : 0 < len)
    (hblock : o % BSIZE + len ≤ BSIZE)
    (hu : Reached E m ip (paths off src.length) (blockPos (o / BSIZE)) addr t u)
    (hio : IoInv E.sb io) (hview : io.view = Function.update u.view addr.toNat
      ((u.view addr.toNat).put (o % BSIZE) len fun j => (src.drop (o - off)).getD j 0)) :
    Written E m ip off src (o + len) s { u with io } := by
  obtain ⟨as, has⟩ := h.entry
  obtain ⟨bs, hbs⟩ := hu.grown.entry
  have hi := withAddrs_inum has ip
  have hic := withAddrs_trans has hbs
  have hx : (u.files E.sb).addr (s.icache ip).inum (blockPos (o / BSIZE)) = addr.toNat := by rw [hu.eq, hi]
  have hx₀ : (u.files E.sb).addr (s.icache ip).inum (blockPos (o / BSIZE)) ≠ 0 := by rw [hx]; exact hu.ne
  have hv' := ((withAddrs_stable has m).valid ip hm hv).1
  -- nothing is allocated inside of a file without holes
  have hno : off + src.length ≤ (s.icache ip).dinode.size.toNat → Inv E .no m u := by
    intro hin
    by_cases hs : E.P.strict
    · have hsz : (t.icache ip).dinode.size = (s.icache ip).dinode.size := by
        rw [has, FsState.withAddrs, Function.update_self]
      have := (h.no hin).full hs hm hv' (o := o) (by rw [hsz]; omega)
      rw [hu.same this]
      exact h.no hin
    · exact hu.inv.settle hs
  generalize hw : ({ u with io := io } : FsState) = w
  have hwic : w.icache = u.icache := by rw [← hw]
  have hwio : w.io = io := by rw [← hw]
  have hwview : w.view = Function.update u.view ((u.files E.sb).addr (s.icache ip).inum (blockPos (o / BSIZE)))
      ((u.view addr.toNat).put (o % BSIZE) len fun j => (src.drop (o - off)).getD j 0) := by
    rw [hx, ← hview, ← hw]
    rfl
  obtain ⟨htype, hsize, haddr, hmarked, hbyte⟩ := hu.inv.write_files hx₀ hwic hwview
  have htype' : (w.files E.sb).type = (s.files E.sb).type := htype.trans (hu.grown.type.trans h.type)
  have hsize' : (w.files E.sb).size = (s.files E.sb).size := hsize.trans (hu.grown.size.trans h.size)
  have hgrown : ∀ q, (t.files E.sb).addr (s.icache ip).inum q ≠ 0 →
      (w.files E.sb).addr (s.icache ip).inum q = (t.files E.sb).addr (s.icache ip).inum q := by
    intro q hq
    have := hu.grown.addr q
    rw [hi] at this
    rw [haddr]
    exact this hq
  have hbyte' : ∀ k o', (w.files E.sb).byte k o' =
      if k = (s.icache ip).inum ∧ off ≤ o' ∧ o' < o + len then src.getD (o' - off) 0 else (s.files E.sb).byte k o' := by
    intro k o'
    rw [hbyte, hu.grown.byte, h.byte]
    by_cases hk : k = (s.icache ip).inum
    · subst hk
      by_cases hb : o' / BSIZE = o / BSIZE
      · -- the old contents of the block are those of the file
        have hold : (u.view addr.toNat).byte (o' % BSIZE) = (t.files E.sb).byte (s.icache ip).inum o' := by
          rw [← hu.grown.byte]
          unfold FsState.files at hx hx₀ ⊢
          rw [filesOf_byte, hb, if_neg hx₀, hx]
        rw [if_pos ⟨rfl, hb⟩, Block.byte_put, hold, h.byte]
        simp only [true_and]
        have hget : (src.drop (o - off)).getD (o' % BSIZE - o % BSIZE) 0 = src.getD (o - off + (o' % BSIZE - o % BSIZE)) 0 := by
          rw [List.getD_eq_getElem?_getD, List.getD_eq_getElem?_getD, List.getElem?_drop]
        rw [hget]
        simp only [BSIZE] at *
        by_cases hin : o ≤ o' ∧ o' < o + len
        · rw [if_pos (by omega), if_pos (by omega), show o - off + (o' % 512 - o % 512) = o' - off by omega]
        · rw [if_neg (by omega)]
          by_cases hin' : off ≤ o' ∧ o' < o
          · rw [if_pos (by omega), if_pos (by omega)]
          · rw [if_neg (by omega), if_neg (by omega)]
      · rw [if_neg fun hc => hb hc.2]
        simp only [true_and]
        simp only [BSIZE] at *
        by_cases hin' : off ≤ o' ∧ o' < o
        · rw [if_pos (by omega), if_pos (by omega)]
        · rw [if_neg (by omega), if_neg (by omega)]
    · rw [if_neg fun hc => hk hc.1, if_neg fun hc => hk hc.1, if_neg fun hc => hk hc.1]
  have hdir : (u.files E.sb).type (s.icache ip).inum = T_DIR → ∀ k,
      DIRENT * k + DIRENT ≤ (u.files E.sb).size (s.icache ip).inum →
      (w.files E.sb).entry (s.icache ip).inum k < E.sb.inodes := by
    intro ht k hk
    rw [← htype, htype'] at ht
    rw [← hsize, hsize'] at hk
    obtain ⟨hok, hstop⟩ := hsrc ht
    refine entry_written (f := s.files E.sb) hok hstop (by rw [hs.size_eq hm hv]; exact hoff) (fun o' => ?_)
      (fun i hi => hs.sound.dirs _ i ht hi) (Or.inl hk)
    rw [hbyte']
    simp only [true_and]
  refine ⟨hu.inv.write hx₀ hwic (by rw [hwio]; exact hio) hwview hdir, fun hin => ?_, ⟨bs, by rw [hwic]; exact hic⟩, ?_,
    htype', hsize', fun o' h₁ h₂ => ?_, fun q hq => ?_, fun k hk => ?_, hbyte'⟩
  · exact (hno hin).write hx₀ hwic (by rw [hwio]; exact hio) hwview hdir
  · have hr := hu.room
    rw [hi] at hr
    exact (hr h.room).congr (congrFun haddr _) hmarked
  · by_cases ho : o' < o
    · have := h.mapped o' h₁ ho
      rw [hgrown _ this]
      exact this
    · have : o' / BSIZE = o / BSIZE := by
        simp only [BSIZE] at *
        omega
      rw [this, haddr, hx]
      exact hu.ne
  · rw [hgrown q (by rw [h.addr q hq]; exact hq), h.addr q hq]
  · have := hu.grown.other k
    rw [hi] at this
    rw [haddr, this hk, h.other k hk]

/-- The loop of `writei`. -/
theorem wp_writeFrom (hs : Inv E .no m s) (hm : 0 < m ip) (hv : (s.icache ip).valid = true) {off : Nat}
    {src : List UInt8} (hoff : off ≤ (s.icache ip).dinode.size.toNat)
    (hsrc : (s.files E.sb).type (s.icache ip).inum = T_DIR → EntryOk E.sb off src) {Q : Unit → FsState → Prop}
    (hQ : ∀ u, Written E m ip off src (off + src.length) s u → Q () u) (fuel : Nat) :
    ∀ {t : FsState} {o : Nat}, Written E m ip off src o s t → off ≤ o → o ≤ off + src.length →
      ((s.files E.sb).type (s.icache ip).inum = T_DIR → o = off ∨ o = off + src.length) → off + src.length - o ≤ fuel →
      Wp E.C (writeFrom ip fuel o (src.drop (o - off))) Q t := by
  induction fuel with
  | zero =>
    intro t o h hlo hhi _ hfuel
    obtain rfl : o = off + src.length := by omega
    exact (wp_pure _ _ _).2 (hQ t h)
  | succ fuel ih =>
    intro t o h hlo hhi hdir hfuel
    unfold writeFrom
    rw [wp_ite, wp_pure, List.length_drop]
    refine ⟨fun hdone => ?_, fun hmore => ?_⟩
    · obtain rfl : o = off + src.length := by omega
      exact hQ t h
    · obtain ⟨as, has⟩ := h.entry
      have hi := withAddrs_inum has ip
      have hv' := ((withAddrs_stable has m).valid ip hm hv).1
      have hpath : path (o / BSIZE) ⊆ paths off src.length := by
        intro p hp
        refine Finset.mem_biUnion.2 ⟨o - off, Finset.mem_range.2 (by omega), ?_⟩
        rwa [Nat.add_sub_cancel' hlo]
      have hlen : 0 < min (src.length - (o - off)) (BSIZE - o % BSIZE) := by
        simp only [BSIZE]
        omega
      have hlen₂ : min (src.length - (o - off)) (BSIZE - o % BSIZE) ≤ BSIZE - o % BSIZE := Nat.min_le_right _ _
      have hlen₃ : min (src.length - (o - off)) (BSIZE - o % BSIZE) ≤ src.length - (o - off) := Nat.min_le_left _ _
      have hstop : (s.files E.sb).type (s.icache ip).inum = T_DIR → EntryOk E.sb off src ∧
          (o + min (src.length - (o - off)) (BSIZE - o % BSIZE) = off ∨
            o + min (src.length - (o - off)) (BSIZE - o % BSIZE) = off + src.length) := by
        intro ht
        have hok := hsrc ht
        obtain ⟨⟨i, hi⟩, hl, -⟩ := hok
        have := hdir ht
        refine ⟨hsrc ht, Or.inr ?_⟩
        simp only [BSIZE, DIRENT] at *
        omega
      rw [wp_bind]
      refine wp_bmap h.inv hm hv' hpath (by rw [hi]; exact h.room) fun addr u hu => ?_
      have hne := hu.ne
      have heq := hu.eq
      rw [heq] at hne
      have harea := hu.inv.sound.area _ _ hne
      have hW : E.W addr.toNat := by
        rw [heq]
        refine (hu.room (by rw [hi]; exact h.room)).leaf _ (hpath ?_) (blockPos_depth _) hne
        exact mem_path.2 ⟨rfl, List.prefix_refl _⟩
      rw [← heq] at harea
      simp only [wp_bind, wp_liftM, wp_bread]
      refine wp_logWrite hu.inv.io harea.2 hW fun io' hio hview => ?_
      have hnext := Written.step hs hm hv hoff hstop h hlo (by omega) hlen (by simp only [BSIZE] at *; omega) hu hio hview
      have hdrop : (src.drop (o - off)).drop (min (src.length - (o - off)) (BSIZE - o % BSIZE)) =
          src.drop (o + min (src.length - (o - off)) (BSIZE - o % BSIZE) - off) := by
        rw [List.drop_drop]
        congr 1
        omega
      rw [hdrop]
      exact ih hnext (by omega) (by omega) (fun ht => (hstop ht).2) (by omega)

/-- The size of a file that has grown. -/
theorem Written.resize (hs : Inv E .no m s) (hm : 0 < m ip) (hv : (s.icache ip).valid = true) {off : Nat} {src : List UInt8}
    {size : UInt32} (hoff : off ≤ (s.icache ip).dinode.size.toNat)
    (hsrc : (s.files E.sb).type (s.icache ip).inum = T_DIR → EntryOk E.sb off src)
    (h : Written E m ip off src (off + src.length) s t) (hsize : size.toNat = off + src.length) {i : Inode}
    (hi : i = { t.icache ip with dinode := { (t.icache ip).dinode with size } }) :
    Inv E (.fields ip) m (t.setEntry ip i) ∧
    ((t.setEntry ip i).files E.sb).type = (s.files E.sb).type ∧
    (∀ k, ((t.setEntry ip i).files E.sb).size k = if k = (s.icache ip).inum then off + src.length else (s.files E.sb).size k) ∧
    ((t.setEntry ip i).files E.sb).addr = (t.files E.sb).addr ∧
    ((t.setEntry ip i).files E.sb).byte = (t.files E.sb).byte := by
  obtain ⟨as, has⟩ := h.entry
  have hn := withAddrs_inum has ip
  have hv' := ((withAddrs_stable has m).valid ip hm hv).1
  have hinv := h.inv.toFields
  have hcur : ∀ k, k < E.sb.inodes → (((t.setEntry ip i).cur k).Same
      (if k = (s.icache ip).inum then { t.cur k with size } else t.cur k)) := by
    intro k hk
    have hcached : ∀ jp, (t.setEntry ip i).Cached k jp ↔ t.Cached k jp := by
      intro jp
      unfold FsState.Cached
      by_cases hj : jp = ip
      · subst hj; rw [t.setEntry_self, hi]
      · rw [t.setEntry_of_ne _ hj]
    split
    · rename_i hkn
      rw [hkn, ← hn] at hcached ⊢
      have hc : t.Cached (t.icache ip).inum ip := hinv.cached_iff.2 ⟨hm, hv', rfl⟩
      rw [hinv.cur_eq hm hv', FsState.cur_cached ((hcached ip).2 hc), t.setEntry_self, hi]
      · exact Dinode.Same.rfl
      · intro jp hj
        obtain ⟨hmj, -, hij⟩ := hinv.cached_iff.1 ((hcached jp).1 hj)
        exact hinv.uniq jp ip hmj hm hij
    · rename_i hkn
      refine FsState.cur_congr hcached (fun jp hj => ?_) fun _ => Dinode.Same.rfl
      rw [t.setEntry_of_ne]
      · exact Dinode.Same.rfl
      · rintro rfl
        exact hkn (hj.2.2.symm.trans hn)
  have hfields := @filesOf_fields E.sb t.cur (t.setEntry ip i).cur t.view
    (fun k hk => by
      rw [(hcur k hk).type]
      split <;> rfl)
    (fun k hk => by
      rw [(hcur k hk).addrs]
      split <;> rfl)
  have hlt := hs.inum ip hm
  have htype : ((t.setEntry ip i).files E.sb).type = (t.files E.sb).type := hfields.1
  have haddr : ((t.setEntry ip i).files E.sb).addr = (t.files E.sb).addr := hfields.2.1
  have hbyte : ((t.setEntry ip i).files E.sb).byte = (t.files E.sb).byte := hfields.2.2
  have hsizes : ∀ k, ((t.setEntry ip i).files E.sb).size k =
      if k = (s.icache ip).inum then off + src.length else (s.files E.sb).size k := by
    intro k
    rw [← h.size]
    by_cases hk : k < E.sb.inodes
    · unfold FsState.files
      rw [filesOf_size hk, filesOf_size hk, (hcur k hk).size]
      split
      · exact hsize
      · rfl
    · rw [if_neg (by omega)]
      simp only [FsState.files, filesOf, hk, if_false]
  refine ⟨hinv.entry_sound (fun _ _ => rfl) ?_ ?_ ?_ ?_ ?_, htype.trans h.type, hsizes, haddr, hbyte⟩
  · rw [hi]; exact hinv.refs ip
  · rw [hi]; exact fun _ jp hj hmj he => hj (hinv.uniq jp ip hmj hm he)
  · rw [hi]; exact fun _ => hinv.inum ip hm
  · rw [hi]; exact fun _ hv => ⟨hinv.typed ip hm hv, fun ha => absurd rfl ha, fun _ ha => absurd rfl ha⟩
  · refine h.inv.sound.resize (n := (s.icache ip).inum) htype (fun k hk => ?_) haddr rfl hbyte (fun hstrict bn ht hbn => ?_)
      fun k ht hk => ?_
    · rw [hsizes, if_neg hk, h.size]
    · rw [hsizes, if_pos rfl] at hbn
      by_cases hin : bn * BSIZE < (t.files E.sb).size (s.icache ip).inum
      · exact h.inv.sound.full hstrict _ _ ht hin
      · rw [h.size, hs.size_eq hm hv] at hin
        have := h.mapped (bn * BSIZE) (by omega) hbn
        rwa [Nat.mul_div_cancel _ (by decide)] at this
    · rw [hsizes, if_pos rfl] at hk
      rw [h.type] at ht
      refine entry_written (f := s.files E.sb) (hsrc ht) (Or.inr rfl) (by rw [hs.size_eq hm hv]; exact hoff) (fun o => ?_)
        (fun k hk => hs.sound.dirs _ k ht hk) (Or.inr hk)
      rw [h.byte]
      simp only [true_and]

/-- What a `writei` that did not fail changed: the bytes of the range, and the size if the range ends behind it. -/
structure Wrote (E : Setting) (ip : Slot) (off : Nat) (src : List UInt8) (s t : FsState) : Prop where
  type : (t.files E.sb).type = (s.files E.sb).type
  size : ∀ k, (t.files E.sb).size k = if k = (s.icache ip).inum then max ((s.files E.sb).size k) (off + src.length)
    else (s.files E.sb).size k
  addr : ∀ q, (s.files E.sb).addr (s.icache ip).inum q ≠ 0 →
    (t.files E.sb).addr (s.icache ip).inum q = (s.files E.sb).addr (s.icache ip).inum q
  other : ∀ k, k ≠ (s.icache ip).inum → (t.files E.sb).addr k = (s.files E.sb).addr k
  byte : ∀ k o, (t.files E.sb).byte k o = if k = (s.icache ip).inum ∧ off ≤ o ∧ o < off + src.length
    then src.getD (o - off) 0 else (s.files E.sb).byte k o

/-- A `writei` whose range starts in the file and ends before the largest size changes the range. -/
theorem wp_writei_in (h : Inv E .no m s) (hm : 0 < m ip) (hv : (s.icache ip).valid = true) (devsw : Nat → Option Devsw)
    {src : List UInt8} {off : UInt32} (htype : (s.icache ip).dinode.type ≠ T_DEV) (hoff : off ≤ (s.icache ip).dinode.size)
    (hmax : off.toNat + src.length ≤ MAXFILE * BSIZE) (hsrc : (s.icache ip).dinode.type = T_DIR → EntryOk E.sb off.toNat src)
    (hr : Room E s (s.icache ip).inum (paths off.toNat src.length))
    (hWi : (s.icache ip).dinode.size.toNat < off.toNat + src.length → E.W (IBLOCK (s.icache ip).inum))
    {Q : Int → FsState → Prop} (hQ : ∀ t, Inv E .no m t → Stable m s t → Wrote E ip off.toNat src s t → Q src.length t) :
    Wp E.C (writei devsw ip src off) Q s := by
  have hlimit : MAXFILE * BSIZE < 2 ^ 32 := by decide
  have hn : (UInt32.ofNat src.length).toNat = src.length := by
    rw [UInt32.toNat_ofNat']
    exact Nat.mod_eq_of_lt (by omega)
  have hsum : (off + UInt32.ofNat src.length).toNat = off.toNat + src.length := by
    rw [UInt32.toNat_add, hn]
    exact Nat.mod_eq_of_lt (by omega)
  have hin : ¬((s.icache ip).dinode.size < off ∨ off + UInt32.ofNat src.length < off) := by
    rw [not_or, UInt32.not_lt, UInt32.not_lt]
    refine ⟨hoff, UInt32.le_iff_toNat_le.2 ?_⟩
    rw [hsum]
    exact Nat.le_add_right _ _
  have hlarge : ¬UInt32.ofNat (MAXFILE * BSIZE) < off + UInt32.ofNat src.length := by
    rw [UInt32.not_lt, UInt32.le_iff_toNat_le, hsum]
    exact hmax
  rw [UInt32.le_iff_toNat_le] at hoff
  rw [writei, wp_bind, inode_wp]
  dsimp only
  rw [if_neg htype, if_neg hin, if_neg hlarge]
  have hsrc' : (s.files E.sb).type (s.icache ip).inum = T_DIR → EntryOk E.sb off.toNat src := by
    rw [h.type_eq hm hv]
    exact hsrc
  have hstart : Written E m ip off.toNat src off.toNat s s :=
    ⟨h.toAddrs ip, fun _ => h, ⟨_, (s.withAddrs_self ip).symm⟩, hr, rfl, rfl, fun o h₁ h₂ => by omega, fun _ _ => rfl,
      fun _ _ => rfl, fun k o => by rw [if_neg (by omega)]⟩
  have hloop := wp_writeFrom (E := E) h hm hv hoff hsrc' (Q := fun _ u => Written E m ip off.toNat src (off.toNat + src.length) s u)
    (fun u hu => hu) src.length hstart (Nat.le_refl _) (by omega) (fun _ => Or.inl rfl) (by omega)
  rw [Nat.sub_self, List.drop_zero] at hloop
  rw [hn, wp_bind]
  refine hloop.mono fun _ t ht => ?_
  obtain ⟨as, has⟩ := ht.entry
  have hst := withAddrs_stable has m
  have hi := withAddrs_inum has ip
  have hv' := (hst.valid ip hm hv).1
  have hsz : (t.icache ip).dinode.size = (s.icache ip).dinode.size := by
    rw [has, FsState.withAddrs, Function.update_self]
  have hpos : 0 < UInt32.ofNat src.length ↔ 0 < src.length := by
    rw [UInt32.lt_iff_toNat_lt, hn]
    rfl
  have hgt : (s.icache ip).dinode.size < off + UInt32.ofNat src.length ↔
      (s.icache ip).dinode.size.toNat < off.toNat + src.length := by
    rw [UInt32.lt_iff_toNat_lt, hsum]
  rw [wp_bind, inode_wp, hsz, wp_ite]
  refine ⟨fun hgrow => ?_, fun hgrow => ?_⟩
  · rw [hpos, hgt] at hgrow
    obtain ⟨hinv, htype, hsize, haddr, hbyte⟩ := ht.resize h hm hv hoff hsrc' hsum
      (i := { t.icache ip with dinode := { (t.icache ip).dinode with size := off + UInt32.ofNat src.length } }) rfl
    have hentry := t.setEntry_self ip { t.icache ip with
      dinode := { (t.icache ip).dinode with size := off + UInt32.ofNat src.length } }
    have hst' : Stable m t (t.setEntry ip { t.icache ip with
        dinode := { (t.icache ip).dinode with size := off + UInt32.ofNat src.length } }) :=
      Stable.entry (fun _ => rfl) fun _ hv => ⟨hv, rfl⟩
    rw [wp_bind, setDinode_wp, wp_bind]
    generalize t.setEntry ip _ = u at hinv htype hsize haddr hbyte hentry hst' ⊢
    have hui : (u.icache ip).inum = (s.icache ip).inum := by rw [hentry]; exact hi
    refine wp_iupdate hinv hm (by rw [hentry]; exact hv') (fun jp hj => ?_) (by rw [hui]; exact hWi hgrow.2)
      fun w hw hst'' _ hfiles _ => ?_
    · rcases hj with hj | hj
      · cases hj
      · injection hj with hj
        exact hj.symm
    · rw [wp_pure]
      refine hQ w hw (hst.trans (hst'.trans hst'')) ?_
      rw [← hfiles] at htype hsize haddr hbyte
      refine ⟨htype, fun k => ?_, fun q hq => ?_, fun k hk => ?_, fun k o => ?_⟩
      · rw [hsize]
        split
        · rename_i hk
          rw [hk, h.size_eq hm hv]
          omega
        · rfl
      · rw [haddr]
        exact ht.addr q hq
      · rw [haddr]
        exact ht.other k hk
      · rw [hbyte]
        exact ht.byte k o
  · rw [hpos, hgt] at hgrow
    rw [wp_pure]
    refine hQ t (ht.no (by omega)) hst ⟨ht.type, fun k => ?_, ht.addr, ht.other, ht.byte⟩
    rw [ht.size]
    split
    · rename_i hk
      rw [hk, h.size_eq hm hv]
      omega
    · rfl

/-- **`writei`** fails without a change, or changes the range it is given. -/
theorem wp_writei (h : Inv E .no m s) (hm : 0 < m ip) (hv : (s.icache ip).valid = true) (devsw : Nat → Option Devsw)
    {src : List UInt8} {off : UInt32} (hlen : src.length < 2 ^ 32)
    (hsrc : (s.icache ip).dinode.type = T_DIR → EntryOk E.sb off.toNat src)
    (hr : Room E s (s.icache ip).inum (paths off.toNat src.length))
    (hWi : (s.icache ip).dinode.size.toNat < off.toNat + src.length → E.W (IBLOCK (s.icache ip).inum))
    {Q : Int → FsState → Prop}
    (hQ : ∀ (r : Int) t, Inv E .no m t → Stable m s t → (t = s ∨ r = src.length ∧ Wrote E ip off.toNat src s t) → Q r t) :
    Wp E.C (writei devsw ip src off) Q s := by
  have hsame : ∀ r, Q r s := fun r => hQ r s h (Stable.refl m s) (Or.inl rfl)
  by_cases hin : (s.icache ip).dinode.type ≠ T_DEV ∧ off ≤ (s.icache ip).dinode.size ∧
      off.toNat + src.length ≤ MAXFILE * BSIZE
  · exact wp_writei_in h hm hv devsw hin.1 hin.2.1 hin.2.2 hsrc hr hWi fun t ht hst hw => hQ _ t ht hst (Or.inr ⟨rfl, hw⟩)
  · rw [writei, wp_bind, inode_wp]
    dsimp only
    rw [wp_ite]
    refine ⟨fun _ => ?_, fun hdev => ?_⟩
    · rw [wp_ite, wp_pure]
      refine ⟨fun _ => hsame _, fun _ => ?_⟩
      split
      · exact (wp_pure _ _ _).2 (hsame _)
      · exact (wp_pure _ _ _).2 (hsame _)
    · rw [wp_ite, wp_pure]
      refine ⟨fun _ => hsame _, fun hrange => ?_⟩
      rw [wp_ite, wp_pure]
      refine ⟨fun _ => hsame _, fun hlarge => ?_⟩
      have hn : (UInt32.ofNat src.length).toNat = src.length := by
        rw [UInt32.toNat_ofNat']
        exact Nat.mod_eq_of_lt hlen
      rw [not_or, UInt32.not_lt, UInt32.not_lt] at hrange
      have hsum : (off + UInt32.ofNat src.length).toNat = off.toNat + src.length := by
        have hle := UInt32.le_iff_toNat_le.1 hrange.2
        rw [UInt32.toNat_add, hn] at hle ⊢
        have := UInt32.toNat_lt off
        omega
      rw [UInt32.not_lt, UInt32.le_iff_toNat_le, hsum] at hlarge
      exact absurd ⟨hdev, hrange.1, hlarge⟩ hin

end Content

end NewXv6
