import Mathlib.Data.List.GetD
import Mathlib.Data.List.TakeWhile
import NewXv6.Fs.Tree

/-!
# Entries that are written

A `dirlink` that returns 0 changes the tree on the disk as the one on lists of entries does (`wp_dirlink_tree`): the new
entry takes the first empty place or the one behind the last, and the types and entries of all other inodes stay. The
entries of a directory are read off its file, whose bytes `writei` changes in one range (`wp_writei_entry`).
-/

namespace NewXv6.Fs.Lookup

open Lib Names

/-! ## The entries in a file -/

/-- The bytes of a directory as entries. -/
def entriesIn (f : Files) (n : Nat) : List Dirent :=
  (List.range (f.size n / DIRENT)).map fun k => Dirent.decode ((List.range DIRENT).map fun j => f.byte n (DIRENT * k + j))

/-- The inodes that the disk has are of the same types and have the same entries. -/
def SameEntries (sb : Superblock) (t u : Tree) : Prop :=
  ∀ n, n < sb.inodes → (t.node n).type = (u.node n).type ∧ (t.node n).entries = (u.node n).entries

/-- The files but `n` have the sizes and the bytes that they had. -/
def OthersKept (sb : Superblock) (n : Nat) (s t : FsState) : Prop :=
  ∀ k, k ≠ n → (t.files sb).size k = (s.files sb).size k ∧ (t.files sb).byte k = (s.files sb).byte k

section Entries

variable {f g : Files} {n k : Nat} {d : Dinode} {v : Nat → Block} {de : Dirent}

theorem lt_of_entry {size k j : Nat} (hk : k < size / DIRENT) (hj : j < DIRENT) : DIRENT * k + j < size := by
  have hle := Nat.mul_div_le size DIRENT
  have hsucc := Nat.mul_le_mul_left DIRENT hk
  rw [Nat.mul_succ] at hsucc
  omega

theorem entriesOf_eq (hsize : d.size.toNat = f.size n) (hbyte : ∀ o, o < f.size n → d.byteAt v o = f.byte n o) :
    entriesOf d v = entriesIn f n := by
  unfold entriesOf entriesIn
  rw [hsize]
  refine List.map_congr_left fun k hk => congrArg _ (List.map_congr_left fun j hj => ?_)
  exact hbyte _ (lt_of_entry (List.mem_range.1 hk) (List.mem_range.1 hj))

theorem entriesIn_congr (hsize : g.size n = f.size n) (hbyte : g.byte n = f.byte n) : entriesIn g n = entriesIn f n := by
  unfold entriesIn
  rw [hsize, hbyte]

theorem decode_encode (hlen : de.name.length = DIRSIZ) :
    Dirent.decode ((List.range DIRENT).map fun j => de.encode.getD j 0) = de := by
  have hwhole : ((List.range DIRENT).map fun j => de.encode.getD j 0) = de.encode := by
    refine List.ext_getElem ?_ fun j hj hj' => ?_
    · rw [List.length_map, List.length_range, Dirent.encode, List.length_cons, List.length_cons, hlen]
    · rw [List.getElem_map, List.getElem_range, List.getD_eq_getElem _ _ hj']
  rw [hwhole]
  obtain ⟨inum, name⟩ := de
  unfold Dirent.decode
  congr 1
  refine le16_byte16 fun j hj => ?_
  obtain rfl | rfl : j = 0 ∨ j = 1 := by omega
  · rfl
  · rfl

theorem getElem?_put {es : List Dirent} (hk : k ≤ es.length) (i : Nat) :
    (put es k de)[i]? = if i = k then some de else es[i]? := by
  have htake : (es.take k).length = k := List.length_take_of_le hk
  unfold put
  rcases Nat.lt_trichotomy i k with hlt | rfl | hgt
  · rw [List.getElem?_append_left (by rwa [htake]), List.getElem?_take_of_lt hlt, if_neg (Nat.ne_of_lt hlt)]
  · rw [List.getElem?_append_right (by rw [htake]), htake, Nat.sub_self, if_pos rfl, List.getElem?_cons_zero]
  · rw [List.getElem?_append_right (by omega), htake, if_neg (Nat.ne_of_gt hgt)]
    obtain ⟨j, rfl⟩ := Nat.exists_eq_add_of_lt hgt
    rw [show k + j + 1 - k = j + 1 by omega, List.getElem?_cons_succ, List.getElem?_drop]
    congr 1
    omega

theorem getElem?_entriesIn (f : Files) (n i : Nat) : (entriesIn f n)[i]? = if i < f.size n / DIRENT then
    some (Dirent.decode ((List.range DIRENT).map fun j => f.byte n (DIRENT * i + j))) else none := by
  unfold entriesIn
  rw [List.getElem?_map]
  split
  · rw [List.getElem?_range ‹_›]
    rfl
  · rw [List.getElem?_eq_none (by rw [List.length_range]; omega)]
    rfl

theorem inum_decode (f : Files) (n k : Nat) :
    (Dirent.decode ((List.range DIRENT).map fun j => f.byte n (DIRENT * k + j))).inum.toNat = f.entry n k := by
  unfold Dirent.decode Files.entry
  rw [le16_congr (g := f.byte n) (p := DIRENT * k) fun j hj => ?_]
  rw [Nat.zero_add, List.getD_eq_getElem?_getD, List.getElem?_map, List.getElem?_range (by simp only [DIRENT]; omega)]
  rfl

/-- An entry written over a file that is whole entries. -/
theorem entriesIn_put (hwhole : DIRENT ∣ f.size n) (hk : DIRENT * k ≤ f.size n) (hlen : de.name.length = DIRSIZ)
    (hsize : g.size n = max (f.size n) (DIRENT * k + DIRENT))
    (hbyte : ∀ o, g.byte n o = if DIRENT * k ≤ o ∧ o < DIRENT * k + DIRENT then de.encode.getD (o - DIRENT * k) 0
      else f.byte n o) : entriesIn g n = put (entriesIn f n) k de := by
  obtain ⟨c, hc⟩ := hwhole
  have hdiv : f.size n / DIRENT = c := by
    rw [hc]
    exact Nat.mul_div_cancel_left c (by decide)
  have hkc : k ≤ c := by
    rw [hc] at hk
    exact Nat.le_of_mul_le_mul_left hk (by decide)
  have hdiv' : g.size n / DIRENT = max c (k + 1) := by
    rw [hsize, hc, ← Nat.mul_succ, Nat.mul_max_mul_left]
    exact Nat.mul_div_cancel_left _ (by decide)
  refine List.ext_getElem? fun i => ?_
  rw [getElem?_put (by unfold entriesIn; rwa [List.length_map, List.length_range, hdiv]), getElem?_entriesIn,
    getElem?_entriesIn, hdiv, hdiv']
  by_cases hi : i = k
  · subst hi
    rw [if_pos rfl, if_pos (by omega)]
    refine congrArg some (Eq.trans (congrArg _ (List.map_congr_left fun j hj => ?_)) (decode_encode hlen))
    have hj := List.mem_range.1 hj
    rw [hbyte, if_pos ⟨Nat.le_add_right _ _, Nat.add_lt_add_left hj _⟩, Nat.add_sub_cancel_left]
  · rw [if_neg hi]
    refine ite_congr (propext ⟨fun h => by omega, fun h => by omega⟩) (fun _ => ?_) fun _ => rfl
    congr 2
    refine List.map_congr_left fun j hj => ?_
    have hj := List.mem_range.1 hj
    rw [hbyte, if_neg]
    simp only [DIRENT] at *
    omega

end Entries

/-! ## The tree of a state -/

section State

variable {E : Setting} {m : Slot → Nat} {s t : FsState} {dp : Slot}

/-- What is on the disk is current. -/
theorem disk_same (h : Inv E .no m s) (hs : E.P.strict) (n : Nat) : (diskInode s.view n).Same (s.cur n) := by
  by_cases hc : ∃ ip, 0 < m ip ∧ (s.icache ip).inum = n ∧ (s.icache ip).valid = true
  · obtain ⟨ip, hm, rfl, hv⟩ := hc
    rw [h.cur_eq hm hv]
    exact h.sync hs ip Ahead.noConfusion Ahead.noConfusion hm hv
  · rw [h.cur_eq_disk fun ip hm hi => Bool.eq_false_iff.2 fun hv => hc ⟨ip, hm, hi, hv⟩]
    exact .rfl

theorem disk_size (h : Inv E .no m s) (hs : E.P.strict) {n : Nat} (hn : n < E.sb.inodes) :
    (diskInode s.view n).size.toNat = (s.files E.sb).size n := by
  unfold FsState.files
  rw [filesOf_size hn, (disk_same h hs n).size]

theorem disk_byte (h : Inv E .no m s) (hs : E.P.strict) {n o : Nat} (hn : n < E.sb.inodes)
    (htype : (s.files E.sb).type n ≠ 0) (ho : o < (s.files E.sb).size n) :
    (diskInode s.view n).byteAt s.view o = (s.files E.sb).byte n o := by
  have hsame := disk_same h hs n
  have hne := h.sound.full hs n (o / BSIZE) htype (Nat.lt_of_le_of_lt (Nat.div_mul_le_self o BSIZE) ho)
  have haddr : (s.files E.sb).addr n (blockPos (o / BSIZE)) = (diskInode s.view n).addr s.view (blockPos (o / BSIZE)) := by
    rw [hsame.addr]
    unfold FsState.files at htype
    rw [filesOf_type hn] at htype
    exact filesOf_addr hn htype _
  unfold FsState.files at hne haddr ⊢
  rw [filesOf_byte, if_neg hne, haddr]
  rfl

theorem diskTree_node (h : Inv E .no m s) (hs : E.P.strict) {n : Nat} (hn : n < E.sb.inodes) :
    ((diskTree s.view).node n).type = (s.files E.sb).type n ∧ ((diskTree s.view).node n).entries =
      if (s.files E.sb).type n = T_DIR then entriesIn (s.files E.sb) n else [] := by
  have htype : (diskInode s.view n).type = (s.files E.sb).type n := by
    unfold FsState.files
    rw [filesOf_type hn, (disk_same h hs n).type]
  refine ⟨htype, ?_⟩
  show (if (diskInode s.view n).type = T_DIR then entriesOf (diskInode s.view n) s.view else []) = _
  rw [htype]
  by_cases hdir : (s.files E.sb).type n = T_DIR
  · rw [if_pos hdir, if_pos hdir]
    exact entriesOf_eq (disk_size h hs hn) fun o ho => disk_byte h hs hn (by rw [hdir]; decide) ho
  · rw [if_neg hdir, if_neg hdir]

/-- A held directory that is whole entries. -/
theorem reads_held (h : Inv E .no m s) (hs : E.P.strict) (hm : 0 < m dp) (hv : (s.icache dp).valid = true)
    (ht : (s.icache dp).dinode.type = T_DIR) (hwhole : DIRENT ∣ (s.icache dp).dinode.size.toNat) : Reads s dp :=
  ⟨ht, hwhole, fun o ho => by
    rw [← h.addr_eq hm hv]
    exact h.full hs hm hv ho⟩

theorem held_entries (h : Inv E .no m s) (hs : E.P.strict) (hm : 0 < m dp) (hv : (s.icache dp).valid = true)
    (ht : (s.icache dp).dinode.type = T_DIR) : ((diskTree s.view).node (s.icache dp).inum).type = T_DIR ∧
      ((diskTree s.view).node (s.icache dp).inum).entries = entriesOf (s.icache dp).dinode s.view := by
  obtain ⟨htype, hentries⟩ := diskTree_node h hs (h.inum dp hm)
  have hdir : (s.files E.sb).type (s.icache dp).inum = T_DIR := (h.type_eq hm hv).trans ht
  refine ⟨htype.trans hdir, ?_⟩
  rw [hentries, if_pos hdir]
  refine (entriesOf_eq (h.size_eq hm hv).symm fun o ho => h.byteAt hm hv (h.full hs hm hv ?_)).symm
  rwa [← h.size_eq hm hv]

/-! ## Writes -/

/-- **`writei`** of an entry to a directory with room for it. -/
theorem wp_writei_entry (h : Inv E .no m s) (hs : E.P.strict) (hm : 0 < m dp) (hv : (s.icache dp).valid = true)
    (hW : ∀ x, E.W x) (devsw : Nat → Option Devsw) (ht : (s.icache dp).dinode.type = T_DIR)
    (hwhole : DIRENT ∣ (s.icache dp).dinode.size.toNat) {k : Nat} {de : Dirent}
    (hk : DIRENT * k ≤ (s.icache dp).dinode.size.toNat) (hroom : DIRENT * k + DIRENT ≤ MAXFILE * BSIZE)
    (hlen : de.name.length = DIRSIZ) (hinum : de.inum.toNat < E.sb.inodes) :
    Wp E.C (writei devsw dp de.encode (UInt32.ofNat (DIRENT * k))) (fun r t => r = DIRENT ∧
      SameEntries E.sb (diskTree t.view) ((diskTree s.view).setEntries (s.icache dp).inum
        (put ((diskTree s.view).node (s.icache dp).inum).entries k de)) ∧
      OthersKept E.sb (s.icache dp).inum s t) s := by
  have hsize := UInt32.toNat_lt (s.icache dp).dinode.size
  have hoff : (UInt32.ofNat (DIRENT * k)).toNat = DIRENT * k := by
    rw [UInt32.toNat_ofNat']
    exact Nat.mod_eq_of_lt (by omega)
  have hbytes : de.encode.length = DIRENT := by
    rw [Dirent.encode, List.length_cons, List.length_cons, hlen]
  have hok : EntryOk E.sb (UInt32.ofNat (DIRENT * k)).toNat de.encode := by
    refine ⟨by rw [hoff]; exact Nat.dvd_mul_right DIRENT k, hbytes, ?_⟩
    rwa [le16_byte16 (v := de.inum) fun j hj => ?_]
    obtain rfl | rfl : j = 0 ∨ j = 1 := by omega
    · rfl
    · rfl
  refine wp_writei_in h hm hv devsw (by rw [ht]; decide) (by rwa [UInt32.le_iff_toNat_le, hoff])
    (by rwa [hoff, hbytes]) (fun _ => hok) (Room.all hW _ _ _) (fun _ => hW _) fun t hinv _ hwrote => ?_
  have hothers : OthersKept E.sb (s.icache dp).inum s t := fun n hdp =>
    ⟨by rw [hwrote.size, if_neg hdp], funext fun o => by rw [hwrote.byte, if_neg fun hc => hdp hc.1]⟩
  refine ⟨by rw [hbytes], fun n hn => ?_, hothers⟩
  obtain ⟨htype, hentries⟩ := diskTree_node h hs hn
  obtain ⟨htype', hentries'⟩ := diskTree_node hinv hs hn
  rw [hwrote.type] at htype' hentries'
  have hdir : (s.files E.sb).type (s.icache dp).inum = T_DIR := (h.type_eq hm hv).trans ht
  rw [htype', hentries', ← htype]
  by_cases hdp : n = (s.icache dp).inum
  · subst hdp
    rw [Tree.setEntries, set_node_self]
    refine ⟨rfl, ?_⟩
    rw [hentries, htype, if_pos hdir, if_pos hdir]
    refine entriesIn_put (by rwa [h.size_eq hm hv]) (by rwa [h.size_eq hm hv]) hlen ?_ fun o => ?_
    · rw [hwrote.size, if_pos rfl, hoff, hbytes]
    · rw [hwrote.byte, hoff, hbytes]
      exact if_congr (and_iff_right rfl) rfl rfl
  · rw [Tree.setEntries, set_node_ne _ _ hdp]
    refine ⟨rfl, ?_⟩
    rw [hentries, htype, entriesIn_congr (hothers n hdp).1 (hothers n hdp).2]

/-- A range that ends behind the largest size is not written. -/
theorem writei_far (ht : (s.icache dp).dinode.type ≠ T_DEV) (devsw : Nat → Option Devsw) {src : List UInt8} {off : UInt32}
    (hlen : src.length < 2 ^ 32) (hfar : MAXFILE * BSIZE < off.toNat + src.length) :
    writei devsw dp src off s = (.ok (-1, s), []) := by
  have hinode : inode dp s = (.ok (s.icache dp, s), []) := rfl
  have hn : (UInt32.ofNat src.length).toNat = src.length := by
    rw [UInt32.toNat_ofNat']
    exact Nat.mod_eq_of_lt hlen
  refine Prog.run_bind hinode (w := []) (v := []) ?_
  dsimp only
  rw [if_neg ht]
  by_cases hin : (s.icache dp).dinode.size < off ∨ off + UInt32.ofNat src.length < off
  · rw [if_pos hin]
    rfl
  · have hsum : (off + UInt32.ofNat src.length).toNat = off.toNat + src.length := by
      have hle := UInt32.le_iff_toNat_le.1 (UInt32.not_lt.1 (not_or.1 hin).2)
      have hoff := UInt32.toNat_lt off
      rw [UInt32.toNat_add, hn] at hle ⊢
      omega
    rw [if_neg hin, if_pos (by rw [UInt32.lt_iff_toNat_lt, hsum]; exact hfar)]
    rfl

/-- **The loop of `dirlink`** finds the first empty entry, or the end. -/
theorem emptyFrom_run (h : Reads s dp) (devsw : Nat → Option Devsw) (fuel : Nat) : ∀ k,
    (s.icache dp).dinode.size.toNat / DIRENT < k + fuel → k ≤ (s.icache dp).dinode.size.toNat / DIRENT →
      emptyFrom devsw dp fuel (DIRENT * k) s =
        (.ok (DIRENT * (k + emptyAt ((entriesOf (s.icache dp).dinode s.view).drop k)), s), []) := by
  have hlen : (entriesOf (s.icache dp).dinode s.view).length = (s.icache dp).dinode.size.toNat / DIRENT := by
    unfold entriesOf
    rw [List.length_map, List.length_range]
  obtain ⟨n, hn⟩ := h.whole
  have hdiv : (s.icache dp).dinode.size.toNat / DIRENT = n := by
    rw [hn]
    exact Nat.mul_div_cancel_left n (by decide)
  induction fuel with
  | zero =>
    intro k hk hle
    omega
  | succ fuel ih =>
    intro k hk hle
    rw [emptyFrom]
    show (if DIRENT * k < (s.icache dp).dinode.size.toNat then _ else _ : Kern FsState Nat) s = _
    by_cases hlt : k < n
    · have hwhole : DIRENT * k + DIRENT ≤ (s.icache dp).dinode.size.toNat := by
        rw [hn]
        exact Nat.mul_le_mul_left DIRENT hlt
      rw [if_pos (Nat.lt_of_lt_of_le (Nat.lt_add_of_pos_right (by decide)) hwhole), entriesOf_drop _ _ (by omega),
        Prog.run_bind_ok (readEntry_run h .dirlinkRead hwhole), emptyAt, List.findIdx_cons]
      generalize Dirent.decode _ = de
      by_cases hempty : de.inum = 0
      · rw [if_pos hempty, decide_eq_true hempty]
        rfl
      · rw [if_neg hempty, decide_eq_false hempty]
        have hrec := ih (k + 1) (by omega) (by omega)
        rw [Nat.mul_succ] at hrec
        rw [hrec]
        dsimp only [cond_false, List.nil_append]
        rw [emptyAt, Nat.add_right_comm, ← Nat.add_assoc]
    · rw [if_neg (by rw [hn]; exact fun hc => hlt (Nat.lt_of_mul_lt_mul_left hc)), List.drop_eq_nil_of_le (by omega)]
      rfl

/-- **`dirlink`** that returns 0 changes the tree as the one on lists of entries. -/
theorem wp_dirlink_tree (h : Inv E .no m s) (hs : E.P.strict) (hm : 0 < m dp) (hv : (s.icache dp).valid = true)
    (hW : ∀ x, E.W x) (devsw : Nat → Option Devsw) (hwhole : DIRENT ∣ (s.icache dp).dinode.size.toNat) (name : List UInt8)
    {inum : Nat} (hinum : inum < E.sb.inodes) :
    Wp E.C (NewXv6.dirlink devsw dp name inum) (fun r t => r = 0 → ∃ u,
      Names.dirlink (diskTree s.view) (s.icache dp).inum name inum = .ok (0, u) ∧ SameEntries E.sb (diskTree t.view) u ∧
        OthersKept E.sb (s.icache dp).inum s t) s := by
  by_cases ht : (s.icache dp).dinode.type = T_DIR
  swap
  · -- `dirlookup` panics
    rw [NewXv6.dirlink, wp_bind, NewXv6.dirlookup, wp_bind, inode_wp, wp_ite, wp_panic]
    exact ⟨fun _ => E.fail _, fun hdir => absurd (Decidable.not_not.1 hdir) ht⟩
  have hreads := reads_held h hs hm hv ht hwhole
  obtain ⟨hdir, hentries⟩ := held_entries h hs hm hv ht
  have hof : entriesOf (s.icache dp).dinode s.view = entriesIn (s.files E.sb) (s.icache dp).inum :=
    entriesOf_eq (h.size_eq hm hv).symm fun o ho => h.byteAt hm hv (h.full hs hm hv (by rwa [← h.size_eq hm hv]))
  have hloop : NewXv6.dirlookup devsw dp name s =
      dirlookupFrom devsw dp name ((s.icache dp).dinode.size.toNat / DIRENT + 1) (DIRENT * 0) s := by
    show (if (s.icache dp).dinode.type ≠ T_DIR then _ else _ : Kern FsState (Option (Slot × Nat))) s = _
    rw [if_neg (fun hne => hne ht)]
    rfl
  obtain ⟨hnone, hsome⟩ := @dirlookupFrom_run s dp devsw name hreads _ 0
    (Nat.lt_of_lt_of_le (Nat.lt_succ_self _) (Nat.le_add_left _ 0))
  rw [← hloop, List.drop_zero] at hnone hsome
  rw [NewXv6.dirlink, wp_bind]
  cases hfind : (entriesOf (s.icache dp).dinode s.view).find? (fits name) with
  | some de =>
    -- the name is there: -1
    obtain ⟨off, hrun⟩ := hsome de hfind
    have hmem := List.mem_of_find?_eq_some hfind
    rw [hof, entriesIn] at hmem
    obtain ⟨k, hk, rfl⟩ := List.mem_map.1 hmem
    have hlt : (s.files E.sb).entry (s.icache dp).inum k < E.sb.inodes := by
      refine h.sound.dirs _ _ ((h.type_eq hm hv).trans ht) ?_
      have hle := Nat.mul_div_le ((s.files E.sb).size (s.icache dp).inum) DIRENT
      have hsucc := Nat.mul_le_mul_left DIRENT (List.mem_range.1 hk)
      rw [Nat.mul_succ] at hsucc
      omega
    rw [← inum_decode] at hlt
    refine Wp.congr hrun ?_
    rw [wp_bind]
    refine wp_iget h hlt fun ip t ht _ _ _ _ => (wp_pure _ _ _).2 ?_
    dsimp only
    rw [wp_bind]
    refine wp_iput ht (hold_pos m ip) (fun _ => ⟨hW _, fun _ _ => hW _⟩) fun u _ _ => (wp_pure _ _ _).2 ?_
    exact fun hzero => absurd hzero (by decide)
  | none =>
    refine wp_of_run (hnone hfind) (fun x hx => absurd hx List.not_mem_nil) ?_
    dsimp only
    rw [wp_bind, inode_wp, wp_bind]
    have hempty := emptyFrom_run hreads devsw ((s.icache dp).dinode.size.toNat / DIRENT + 1) 0 (by omega) (Nat.zero_le _)
    rw [List.drop_zero, Nat.zero_add, Nat.mul_zero] at hempty
    refine wp_of_run hempty (fun x hx => absurd hx List.not_mem_nil) ?_
    rw [wp_bind]
    have hle : emptyAt (entriesOf (s.icache dp).dinode s.view) ≤ (s.icache dp).dinode.size.toNat / DIRENT := by
      have hfirst : emptyAt (entriesOf (s.icache dp).dinode s.view) ≤ (entriesOf (s.icache dp).dinode s.view).length :=
        List.findIdx_le_length
      unfold entriesOf at hfirst ⊢
      rwa [List.length_map, List.length_range] at hfirst
    have hname : (strncpy name DIRSIZ).length = DIRSIZ := length_strncpy name DIRSIZ
    by_cases hroom : DIRENT * emptyAt (entriesOf (s.icache dp).dinode s.view) + DIRENT ≤ MAXFILE * BSIZE
    · have hmod : (UInt16.ofNat inum).toNat < E.sb.inodes := by
        rw [UInt16.toNat_ofNat']
        exact Nat.lt_of_le_of_lt (Nat.mod_le _ _) hinum
      refine (wp_writei_entry h hs hm hv hW devsw ht hwhole
        (Nat.le_trans (Nat.mul_le_mul_left DIRENT hle) (Nat.mul_div_le _ _)) hroom hname hmod).mono fun r t hpost => ?_
      obtain ⟨rfl, hentry⟩ := hpost
      rw [if_neg (fun hne => hne rfl), wp_pure]
      refine fun _ => ⟨_, ?_, hentry⟩
      have hlook : Names.dirlookup (diskTree s.view) (s.icache dp).inum name = .ok none := by
        rw [Names.dirlookup, if_neg (fun hne => hne hdir), hentries, hfind]
        rfl
      rw [dirlink_room inum hlook (by unfold Names.Full; rw [hentries]; exact Nat.not_lt.2 hroom), hentries]
    · have hbytes : (Dirent.encode { inum := UInt16.ofNat inum, name := strncpy name DIRSIZ }).length = DIRENT := by
        rw [Dirent.encode, List.length_cons, List.length_cons, hname]
      have hsize := UInt32.toNat_lt (s.icache dp).dinode.size
      have hoff : (UInt32.ofNat (DIRENT * emptyAt (entriesOf (s.icache dp).dinode s.view))).toNat =
          DIRENT * emptyAt (entriesOf (s.icache dp).dinode s.view) := by
        rw [UInt32.toNat_ofNat']
        have := Nat.mul_div_le (s.icache dp).dinode.size.toNat DIRENT
        have := Nat.mul_le_mul_left DIRENT hle
        exact Nat.mod_eq_of_lt (by omega)
      refine wp_of_run (writei_far (by rw [ht]; decide) devsw (by rw [hbytes]; decide)
        (by rw [hoff, hbytes]; exact Nat.lt_of_not_le hroom)) (fun x hx => absurd hx List.not_mem_nil) ?_
      rw [if_pos (by decide), wp_panic]
      exact E.fail _

end State

/-! ## Lookups after a write -/

section Lookups

variable {t u : Tree} {dp inum k : Nat} {name : List UInt8}

/-- A name that a path can have as a component. -/
structure Component (name : List UInt8) : Prop where
  short : name.length ≤ DIRSIZ
  string : (0 : UInt8) ∉ name

theorem Component.cstring (h : Component name) : (cstring name).take DIRSIZ = name := by
  have hstring : Lookup.cstring name = name :=
    List.takeWhile_eq_self_iff.2 fun c hc => bne_iff_ne.2 fun hzero => h.string (hzero ▸ hc)
  rw [hstring, List.take_of_length_le h.short]

/-- A stored component matches itself only. -/
theorem fits_stored {name' : List UInt8} (h : Component name) (h' : Component name') (inum : UInt16) (hne : inum ≠ 0) :
    fits name' { inum, name := strncpy name DIRSIZ } = decide (name' = name) := by
  refine decide_eq_decide.2 ⟨fun hfit => ?_, fun heq => ⟨hne, ?_⟩⟩
  · have := (strncmp_strncpy _ _ _).1 hfit.2
    rwa [h.cstring, h'.cstring] at this
  · rw [heq]
    exact (strncmp_strncpy _ _ _).2 rfl

/-- A search after a write over an entry that does not match. -/
theorem find?_put {p : Dirent → Bool} {es : List Dirent} {de : Dirent} (hold : ∀ e, es[k]? = some e → p e = false)
    (hone : p de = true → es.find? p = none) : (put es k de).find? p = if p de then some de else es.find? p := by
  rw [put, List.find?_append, List.find?_cons]
  by_cases hde : p de = true
  · have htake : (es.take k).find? p = none := by
      rw [List.find?_eq_none] at hone ⊢
      exact fun e he => hone hde e (List.mem_of_mem_take he)
    rw [hde, htake, if_pos rfl]
    rfl
  · rw [Bool.not_eq_true] at hde
    rw [hde, if_neg Bool.false_ne_true]
    have hrest : (es.drop (k + 1)).find? p = (es.drop k).find? p := by
      by_cases hk : k < es.length
      · rw [List.drop_eq_getElem_cons hk, List.find?_cons, hold _ (List.getElem?_eq_getElem hk)]
      · rw [List.drop_eq_nil_of_le (by omega), List.drop_eq_nil_of_le (by omega)]
    rw [hrest, ← List.find?_append, List.take_append_drop]

/-- What `dirlink` found and what it left. -/
theorem dirlink_ok (h : Names.dirlink t dp name inum = .ok (0, u)) : (t.node dp).type = T_DIR ∧
    (t.node dp).entries.find? (fits name) = none ∧ u = t.setEntries dp (put (t.node dp).entries
      (emptyAt (t.node dp).entries) { inum := UInt16.ofNat inum, name := strncpy name DIRSIZ }) := by
  cases hl : Names.dirlookup t dp name with
  | error e =>
    rw [dirlink_error hl] at h
    cases h
  | ok r =>
    cases r with
    | some ip =>
      rw [dirlink_found hl] at h
      cases h
    | none =>
      have hroom : ¬Names.Full t dp := fun hfull => by
        rw [dirlink_full hl hfull] at h
        cases h
      rw [dirlink_room inum hl hroom] at h
      have hdir : (t.node dp).type = T_DIR := by
        unfold Names.dirlookup at hl
        by_contra hc
        rw [if_pos hc] at hl
        cases hl
      rw [Names.dirlookup, if_neg (fun hc => hc hdir)] at hl
      exact ⟨hdir, Option.map_eq_none_iff.1 (Except.ok.inj hl), (Prod.mk.inj (Except.ok.inj h)).2.symm⟩

theorem dirlink_dir (h : Names.dirlink t dp name inum = .ok (0, u)) : (t.node dp).type = T_DIR := (dirlink_ok h).1

theorem dirlink_type (h : Names.dirlink t dp name inum = .ok (0, u)) (n : Nat) : (u.node n).type = (t.node n).type := by
  obtain ⟨-, -, rfl⟩ := dirlink_ok h
  unfold Tree.setEntries
  by_cases hn : n = dp
  · subst hn
    rw [set_node_self]
  · rw [set_node_ne _ _ hn]

/-- **A lookup after `dirlink`**: the new name gives the new inode, and all others what they gave. -/
theorem lookup_dirlink (h : Names.dirlink t dp name inum = .ok (0, u)) (hname : Component name) (hpos : 0 < inum)
    (hlt : inum < 2 ^ 16) : lookup t dp name = none ∧ ∀ n name', Component name' →
      lookup u n name' = if n = dp ∧ name' = name then some inum else lookup t n name' := by
  have hmod : (UInt16.ofNat inum).toNat = inum := by
    rw [UInt16.toNat_ofNat']
    exact Nat.mod_eq_of_lt hlt
  have hne : UInt16.ofNat inum ≠ 0 := fun hzero => by
    rw [hzero] at hmod
    exact Nat.ne_of_lt hpos hmod
  obtain ⟨hdir, hnone, rfl⟩ := dirlink_ok h
  refine ⟨by rw [lookup, if_pos hdir, hnone]; rfl, fun n name' hname' => ?_⟩
  unfold lookup Tree.setEntries
  by_cases hn : n = dp
  · subst hn
    rw [set_node_self]
    dsimp only
    rw [if_pos hdir, if_pos hdir, find?_put]
    · rw [fits_stored hname hname' _ hne]
      by_cases heq : name' = name
      · rw [if_pos (decide_eq_true heq), if_pos ⟨rfl, heq⟩]
        exact congrArg some hmod
      · rw [if_neg (fun hc => heq (of_decide_eq_true hc)), if_neg (fun hc => heq hc.2)]
    · -- the place is an empty entry
      intro e he
      obtain ⟨hk, rfl⟩ := List.getElem?_eq_some_iff.1 he
      have hempty := List.findIdx_getElem (w := hk)
      exact decide_eq_false fun hc => hc.1 (of_decide_eq_true hempty)
    · intro hfit
      rw [fits_stored hname hname' _ hne] at hfit
      rwa [of_decide_eq_true hfit]
  · rw [set_node_ne _ _ hn]
    exact (if_neg fun hc => hn hc.1).symm

/-- Lookups in trees with the same entries. -/
theorem SameEntries.lookup {sb : Superblock} (h : SameEntries sb t u) {n : Nat} (hn : n < sb.inodes) (name : List UInt8) :
    lookup t n name = lookup u n name := by
  unfold Lookup.lookup
  rw [(h n hn).1, (h n hn).2]

end Lookups

end NewXv6.Fs.Lookup
