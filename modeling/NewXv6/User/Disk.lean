import Mathlib.Data.List.GetD
import NewXv6.Fs.Link
import NewXv6.User.Copy

/-!
# The files of cp and mv on the disk

The inodes of `Tree`, read off the disk (`onDisk`). A path names the same inode there as for the kernel's `namei`
(`namei_onDisk`, `nameiparent_onDisk`), `read` gives the bytes that `readi` does (`read_onDisk`), what is read after a
`writei` is what is read after `write` (`write_onDisk`), and a name that `dirlink` stores is the one that the tree gets
(`dirlink_onDisk`).
-/

namespace NewXv6.User

open Lib Fs Fs.Lookup

/-! ## The tree -/

/-- The data of a file. -/
def dataOf (d : Dinode) (v : Nat → Block) : List UInt8 := (List.range d.size.toNat).map (d.byteAt v)

/-- What an inode holds. -/
def kindOf (d : Dinode) (v : Nat → Block) : Kind :=
  if d.type = T_DIR then .dir fun name => ((entriesOf d v).find? (Names.fits name)).map fun de => de.inum.toNat
  else if d.type = T_FILE then .file (dataOf d v)
  else .dev

def onDisk (v : Nat → Block) : Tree where
  ninodes := (v 1).superblock.ninodes
  node n := if (diskInode v n).type = 0 then none else some ⟨kindOf (diskInode v n) v, (diskInode v n).nlink.toNatClampNeg⟩

/-! ## Path names -/

section Paths

variable {v : Nat → Block} {s : FsState} {devsw : Nat → Option Devsw}

/-- The elements of a path are its components. -/
theorem elems_components (path : List UInt8) : Tree.elems path = components path := by
  have hfrom : ∀ fuel path, path.length ≤ fuel → Tree.elemsFrom fuel path = components path := by
    intro fuel
    induction fuel with
    | zero =>
      intro path hlen
      rw [List.eq_nil_of_length_eq_zero (Nat.le_zero.1 hlen)]
      rfl
    | succ fuel ih =>
      intro path hlen
      rw [Tree.elemsFrom]
      rcases skipelem_components path with ⟨hskip, hcomp⟩ | ⟨name, rest, hskip, hcomp, -⟩
      · rw [hskip, hcomp]
      · have hlen' := skipelem_length hskip
        rw [hskip, hcomp, ← ih rest (by omega)]
  exact hfrom _ path (Nat.le_refl _)

theorem dir_onDisk (v : Nat → Block) (dp : Nat) : (onDisk v).dir dp =
    if (diskInode v dp).type = T_DIR then
      some fun name => ((entriesOf (diskInode v dp) v).find? (Names.fits name)).map fun de => de.inum.toNat
    else none := by
  unfold Tree.dir onDisk kindOf
  dsimp only
  by_cases hdir : (diskInode v dp).type = T_DIR
  · rw [if_neg (by rw [hdir]; decide), if_pos hdir, if_pos hdir]
  · rw [if_neg hdir]
    split
    · rename_i heq
      split at heq
      · cases heq
      · split at heq <;> cases heq
    · exact (if_neg hdir).symm

theorem dirlookup_onDisk (v : Nat → Block) (dp : Nat) (name : List UInt8) :
    (onDisk v).dirlookup dp name = lookup (diskTree v) dp name := by
  unfold Tree.dirlookup lookup
  rw [dir_onDisk]
  show _ = if (diskInode v dp).type = T_DIR then _ else none
  by_cases hdir : (diskInode v dp).type = T_DIR
  · rw [if_pos hdir, if_pos hdir]
    show _ = ((if (diskInode v dp).type = T_DIR then entriesOf (diskInode v dp) v else []).find? _).map _
    rw [if_pos hdir]
    rfl
  · rw [if_neg hdir, if_neg hdir]
    rfl

theorem walk_onDisk (v : Nat → Block) (names : List (List UInt8)) :
    ∀ ip, (onDisk v).walk ip names = walk (diskTree v) ip names := by
  induction names with
  | nil => exact fun _ => rfl
  | cons name names ih =>
    intro ip
    rw [Tree.walk, dirlookup_onDisk, walk_cons]
    exact congrArg _ (funext ih)

/-- **`namei`** of the kernel returns the inode that the tree has under the path. -/
theorem namei_onDisk (σ : Caller) (hs : Settled s) (hdisk : ofDisk s = σ.state) (path : List UInt8) :
    (NewXv6.namei devsw σ.cwd path s = (.error (.panic .igetNoInodes), []) ∧ Full σ.state) ∨
      ∃ r t, NewXv6.namei devsw σ.cwd path s = (.ok (r, t), []) ∧ t.view = s.view ∧
        (r.map fun ip => (t.icache ip).inum) = (onDisk s.view).namei (s.icache σ.cwd).inum path := by
  have hstart : Tree.start (s.icache σ.cwd).inum path = σ.start path := by
    unfold Tree.start Caller.start
    rw [← hdisk]
    rfl
  rcases namei_disk σ hs hdisk path with hfull | ⟨r, t, hr, hv, -, -, hwalk⟩
  · exact .inl hfull
  · refine .inr ⟨r, t, hr, hv, ?_⟩
    rw [hwalk, Tree.namei, elems_components, walk_onDisk, hstart]

/-- **`nameiparent`** on trees. -/
theorem nameiparent_onDisk (v : Nat → Block) (cwd : Nat) (path : List UInt8) :
    (onDisk v).nameiparent cwd path = walkParent (diskTree v) (Tree.start cwd path) (components path) := by
  unfold Tree.nameiparent walkParent
  rw [elems_components]
  cases (components path).getLast? with
  | none => rfl
  | some name =>
    dsimp only
    rw [walk_onDisk]
    show _ = (walk (diskTree v) (Tree.start cwd path) (components path).dropLast).bind fun dp =>
      if (diskInode v dp).type = T_DIR then some (dp, name) else none
    congr 1
    funext dp
    rw [dir_onDisk]
    by_cases hdir : (diskInode v dp).type = T_DIR
    · rw [if_pos hdir, if_pos hdir]
      rfl
    · rw [if_neg hdir, if_neg hdir]
      rfl

end Paths

/-! ## Reads and writes -/

section Data

variable {s : FsState} {ip : Slot} {off n : UInt32} {src : List UInt8}

theorem file_onDisk (hcopy : (s.icache ip).dinode = diskInode s.view (s.icache ip).inum)
    (hfile : (s.icache ip).dinode.type = T_FILE) :
    (onDisk s.view).file (s.icache ip).inum = some (dataOf (s.icache ip).dinode s.view) := by
  have hnode : (onDisk s.view).node (s.icache ip).inum = some ⟨.file (dataOf (s.icache ip).dinode s.view),
      (s.icache ip).dinode.nlink.toNatClampNeg⟩ := by
    show (if (diskInode s.view (s.icache ip).inum).type = 0 then none else _) = _
    rw [← hcopy, if_neg (by rw [hfile]; decide)]
    unfold kindOf
    rw [if_neg (by rw [hfile]; decide), if_pos hfile]
  unfold Tree.file
  rw [hnode]

theorem length_dataOf (d : Dinode) (v : Nat → Block) : (dataOf d v).length = d.size.toNat := by
  rw [dataOf, List.length_map, List.length_range]

theorem getElem_dataOf {d : Dinode} {v : Nat → Block} {o : Nat} (ho : o < (dataOf d v).length) :
    (dataOf d v)[o] = d.byteAt v o := by
  simp [dataOf]

/-- A part of a list, byte by byte. -/
theorem drop_take_eq_map {data : List UInt8} {f : Nat → UInt8} (off n : Nat)
    (hf : ∀ o (ho : o < data.length), data[o] = f o) :
    (data.drop off).take n = (List.range (min n (data.length - off))).map fun j => f (off + j) := by
  refine List.ext_getElem ?_ fun j hj _ => ?_
  · rw [List.length_take, List.length_drop, List.length_map, List.length_range]
  · rw [List.length_take, List.length_drop] at hj
    rw [List.getElem_take, List.getElem_drop, List.getElem_map, List.getElem_range]
    exact hf (off + j) (by omega)

/-- A list with a part written over. -/
theorem getElem_splice {data src : List UInt8} {off o : Nat} (hoff : off ≤ data.length)
    (ho : o < (data.take off ++ src ++ data.drop (off + src.length)).length) :
    (data.take off ++ src ++ data.drop (off + src.length))[o] =
      if off ≤ o ∧ o < off + src.length then src.getD (o - off) 0 else data.getD o 0 := by
  have htake : (data.take off).length = off := List.length_take_of_le hoff
  rw [← List.getD_eq_getElem _ 0 ho]
  by_cases hlt : o < off + src.length
  · rw [List.getD_append _ _ _ _ (by rw [List.length_append, htake]; exact hlt)]
    by_cases hle : off ≤ o
    · rw [List.getD_append_right _ _ _ _ (by rw [htake]; exact hle), htake, if_pos ⟨hle, hlt⟩]
    · rw [List.getD_append _ _ _ _ (by omega), if_neg (fun hc => hle hc.1)]
      simp [List.getD, Nat.lt_of_not_le hle]
  · rw [List.getD_append_right _ _ _ _ (by rw [List.length_append, htake]; omega), List.length_append, htake,
      if_neg (fun hc => hlt hc.2)]
    simp only [List.getD, List.getElem?_drop]
    congr 2
    omega

/-- The range of a read does not wrap. -/
theorem range_ok (hno : off.toNat + n.toNat < 2 ^ 32) : ¬off + n < off := by
  rw [UInt32.not_lt, UInt32.le_iff_toNat_le, UInt32.toNat_add, Nat.mod_eq_of_lt hno]
  exact Nat.le_add_right _ _

/-- **`read`** gives what `readi` does. -/
theorem read_onDisk (devsw : Nat → Option Devsw) (hcopy : (s.icache ip).dinode = diskInode s.view (s.icache ip).inum)
    (hfile : (s.icache ip).dinode.type = T_FILE) (hfull : ∀ o, o < (s.icache ip).dinode.size.toNat →
      (s.icache ip).dinode.addr s.view (blockPos (o / BSIZE)) ≠ 0) (hno : off.toNat + n.toNat < 2 ^ 32) :
    readi devsw ip off n s = (.ok ((onDisk s.view).read (s.icache ip).inum off.toNat n.toNat, s), []) := by
  rw [readi_full (by rw [hfile]; decide) devsw off n fun o _ ho => hfull o (by omega), Tree.read, file_onDisk hcopy hfile]
  have hout : ((s.icache ip).dinode.size < off ∨ off + n < off) ↔
      (dataOf (s.icache ip).dinode s.view).length < off.toNat := by
    rw [length_dataOf, UInt32.lt_iff_toNat_lt]
    exact or_iff_left (range_ok hno)
  show _ = (Except.ok (if _ then none else some _, s), [])
  rw [if_congr hout rfl rfl, drop_take_eq_map off.toNat n.toNat fun o ho => getElem_dataOf ho, length_dataOf]

/-- **`write`** gives what `writei` does: what is read after one is what is read after the other. -/
theorem write_onDisk {E : Setting} {m : Slot → Nat} (h : OpenFile E m ip s) (hstrict : E.P.strict) (devsw : Nat → Option Devsw)
    (hcopy : (s.icache ip).dinode = diskInode s.view (s.icache ip).inum) (hoff : off ≤ (s.icache ip).dinode.size)
    (hmax : off.toNat + src.length ≤ MAXFILE * BSIZE) (hover : Overlays E devsw ip src off s) :
    let r := (onDisk s.view).write (s.icache ip).inum off.toNat src
    r.2 = src.length ∧ ∃ t w, writei devsw ip src off s = (.ok ((src.length : Int), t), w) ∧
      ∀ off' n : UInt32, off'.toNat + n.toNat < 2 ^ 32 →
        readi devsw ip off' n t = (.ok (r.1.read (s.icache ip).inum off'.toNat n.toNat, t), []) := by
  have hdata := file_onDisk hcopy h.file
  have hlen := length_dataOf (s.icache ip).dinode s.view
  rw [UInt32.le_iff_toNat_le] at hoff
  have hwrite : (onDisk s.view).write (s.icache ip).inum off.toNat src =
      ((onDisk s.view).setKind (s.icache ip).inum (.file ((dataOf (s.icache ip).dinode s.view).take off.toNat ++ src ++
        (dataOf (s.icache ip).dinode s.view).drop (off.toNat + src.length))), src.length) := by
    unfold Tree.write
    rw [hdata]
    dsimp only
    rw [if_neg (by omega), if_neg (Nat.not_lt.2 hmax)]
  dsimp only
  rw [hwrite]
  obtain ⟨t, w, hrun, -, hread⟩ := hover
  refine ⟨rfl, t, w, hrun, fun off' n hno => ?_⟩
  rw [hread off' n]
  let data := dataOf (s.icache ip).dinode s.view
  have hlen' : data.length = (s.icache ip).dinode.size.toNat := hlen
  let new := data.take off.toNat ++ src ++ data.drop (off.toNat + src.length)
  have hsize : new.length = max (s.icache ip).dinode.size.toNat (off.toNat + src.length) := by
    simp only [new, data, List.length_append, List.length_take, List.length_drop, hlen]
    omega
  have hbyte : ∀ o (ho : o < new.length), new[o] = if off.toNat ≤ o ∧ o < off.toNat + src.length
      then src.getD (o - off.toNat) 0 else (s.files E.sb).byte (s.icache ip).inum o := by
    intro o ho
    rw [getElem_splice (by omega) ho]
    split
    · rfl
    · rename_i hnot
      have hlt : o < data.length := by omega
      rw [List.getD_eq_getElem _ _ hlt, getElem_dataOf hlt]
      exact h.inv.byteAt h.ref h.valid (h.inv.full hstrict h.ref h.valid (by rwa [← hlen]))
  have hfile : ((onDisk s.view).setKind (s.icache ip).inum (.file new)).file (s.icache ip).inum = some new := by
    rw [Tree.file_setFile hdata, if_pos rfl]
  have hout : (max (s.icache ip).dinode.size.toNat (off.toNat + src.length) < off'.toNat ∨ off' + n < off') ↔
      new.length < off'.toNat := by
    rw [hsize]
    exact or_iff_left (range_ok hno)
  show _ = (Except.ok (Tree.read ((onDisk s.view).setKind (s.icache ip).inum (.file new)) _ _ _, t), [])
  rw [Tree.read, hfile]
  show _ = (Except.ok (if _ then none else some _, t), [])
  rw [if_congr hout rfl rfl, drop_take_eq_map off'.toNat n.toNat hbyte, hsize]

end Data

/-! ## New entries -/

section Entries

variable {E : Setting} {m : Slot → Nat} {s t : FsState} {dp : Slot} {name : List UInt8} {inum : Nat}

/-- A directory has no data. -/
theorem Tree.file_setDir (t : Tree) (i : Nat) (entry : List UInt8 → Option Nat) : (t.setKind i (.dir entry)).file i = none := by
  unfold Tree.file
  rw [Tree.node_setKind]
  cases t.node i <;> rfl

theorem file_eq (v : Nat → Block) (n : Nat) : (onDisk v).file n =
    if (diskInode v n).type = T_FILE then some (dataOf (diskInode v n) v) else none := by
  unfold Tree.file onDisk kindOf
  dsimp only
  by_cases hfile : (diskInode v n).type = T_FILE
  · rw [if_neg (by rw [hfile]; decide), if_neg (by rw [hfile]; decide), if_pos hfile, if_pos hfile]
  · rw [if_neg hfile]
    split
    · rename_i heq
      split at heq
      · cases heq
      · split at heq <;> cases heq
    · exact (if_neg hfile).symm

/-- The data of an inode that is not free. -/
theorem dataOf_eq (h : Inv E .no m s) (hs : E.P.strict) {n : Nat} (hn : n < E.sb.inodes)
    (htype : (s.files E.sb).type n ≠ 0) : dataOf (diskInode s.view n) s.view =
      (List.range ((s.files E.sb).size n)).map ((s.files E.sb).byte n) := by
  unfold dataOf
  rw [disk_size h hs hn]
  exact List.map_congr_left fun o ho => disk_byte h hs hn htype (List.mem_range.1 ho)

/-- **`dirlink`** of the kernel gives the tree a name, as that of the tree does. -/
theorem dirlink_onDisk (h : Inv E .no m s) (hs : E.P.strict) (hm : 0 < m dp) (hv : (s.icache dp).valid = true)
    (hW : ∀ x, E.W x) (devsw : Nat → Option Devsw) (hwhole : DIRENT ∣ (s.icache dp).dinode.size.toNat)
    (hname : Component name) (hinum : inum < E.sb.inodes) (hpos : 0 < inum) (hlt : inum < 2 ^ 16) :
    Wp E.C (NewXv6.dirlink devsw dp name inum) (fun r t => r = 0 → ∃ entry,
      (onDisk s.view).dir (s.icache dp).inum = some entry ∧ entry name = none ∧ ∀ n, n < E.sb.inodes →
        (onDisk t.view).file n = ((onDisk s.view).dirlink (s.icache dp).inum entry name inum).file n ∧
        ∀ name', Component name' → (onDisk t.view).dirlookup n name' =
          ((onDisk s.view).dirlink (s.icache dp).inum entry name inum).dirlookup n name') s := by
  have hinv := wp_dirlink h hm hv hW devsw name hinum (Q := fun _ t => Inv E .no m t) fun _ _ ht _ => ht
  refine ((wp_dirlink_tree h hs hm hv hW devsw hwhole name hinum).and hinv).mono fun r t hpost hr => ?_
  obtain ⟨htree, ht⟩ := hpost
  obtain ⟨u, hlink, hsame, hothers⟩ := htree hr
  obtain ⟨hnone, hlookup⟩ := lookup_dirlink hlink hname hpos hlt
  have hdir : (diskInode s.view (s.icache dp).inum).type = T_DIR := dirlink_dir hlink
  obtain ⟨entry, hentry⟩ : ∃ entry, (onDisk s.view).dir (s.icache dp).inum = some entry :=
    ⟨_, (dir_onDisk s.view (s.icache dp).inum).trans (if_pos hdir)⟩
  refine ⟨entry, hentry, ?_, fun n hn => ⟨?_, fun name' hname' => ?_⟩⟩
  · rw [← hnone, ← dirlookup_onDisk]
    exact (Tree.dirlookup_eq hentry).symm
  · have htype : (diskInode t.view n).type = (diskInode s.view n).type := (hsame n hn).1.trans (dirlink_type hlink n)
    rw [file_eq, htype]
    by_cases hdp : n = (s.icache dp).inum
    · subst hdp
      rw [if_neg (by rw [hdir]; decide)]
      exact (Tree.file_setDir ..).symm
    · have hkeep : ((onDisk s.view).dirlink (s.icache dp).inum entry name inum).file n = (onDisk s.view).file n := by
        unfold Tree.dirlink Tree.file
        rw [Tree.node_setKind_ne hdp]
      rw [hkeep, file_eq]
      refine ite_congr rfl (fun hfile => congrArg some ?_) fun _ => rfl
      have hfiles : (s.files E.sb).type n ≠ 0 := by
        rw [← (diskTree_node h hs hn).1]
        show (diskInode s.view n).type ≠ 0
        rw [hfile]
        decide
      have hfiles' : (t.files E.sb).type n ≠ 0 := by
        rw [← (diskTree_node ht hs hn).1]
        show (diskInode t.view n).type ≠ 0
        rw [htype, hfile]
        decide
      rw [dataOf_eq h hs hn hfiles, dataOf_eq ht hs hn hfiles', (hothers n hdp).1, (hothers n hdp).2]
  · rw [dirlookup_onDisk, hsame.lookup hn, hlookup n name' hname']
    by_cases hdp : n = (s.icache dp).inum
    · subst hdp
      have hset : ((onDisk s.view).setKind (s.icache dp).inum (.dir (Function.update entry name (some inum)))).dir
          (s.icache dp).inum = some (Function.update entry name (some inum)) := Tree.dir_setKind (by rw [hentry]; rfl)
      rw [Tree.dirlink, Tree.dirlookup_eq hset]
      by_cases heq : name' = name
      · subst heq
        rw [if_pos ⟨rfl, rfl⟩, Function.update_self]
      · rw [if_neg (fun hc => heq hc.2), Function.update_of_ne heq, ← dirlookup_onDisk]
        exact Tree.dirlookup_eq hentry
    · rw [if_neg (fun hc => hdp hc.1), ← dirlookup_onDisk]
      unfold Tree.dirlookup Tree.dir Tree.dirlink
      rw [Tree.node_setKind_ne hdp]

end Entries

end NewXv6.User
