import NewXv6.User.Model

/-!
# What cp and mv leave

The copy loop writes the first bytes of the source over the destination, as many as `writei` allows in a file, and leaves
the rest of the destination as it was.
-/

namespace NewXv6.User

open Lib

/-- The most bytes `writei` allows in a file. -/
abbrev LIMIT : Nat := MAXFILE * BSIZE

namespace Tree

variable {t u : Tree} {cwd i j d n : Nat} {name path : List UInt8} {names : List (List UInt8)} {S data : List UInt8}

/-! ## Changes of an inode -/

theorem node_of_file (h : t.file i = some data) : ∃ nlink, t.node i = some ⟨.file data, nlink⟩ := by
  unfold file at h
  split at h
  · rename_i hn
    cases h
    exact ⟨_, hn⟩
  · cases h

theorem file_of_node {nlink : Nat} (h : t.node i = some ⟨.file data, nlink⟩) : t.file i = some data := by
  unfold file
  rw [h]

theorem dir_none_of_file (h : t.file i = some data) : t.dir i = none := by
  obtain ⟨nlink, hn⟩ := node_of_file h
  unfold dir
  rw [hn]

theorem dir_congr (h : u.node i = t.node i) : u.dir i = t.dir i := by
  unfold dir
  rw [h]

theorem file_congr (h : u.node i = t.node i) : u.file i = t.file i := by
  unfold file
  rw [h]

theorem node_setKind_ne {k : Kind} (h : j ≠ i) : (t.setKind i k).node j = t.node j := Function.update_of_ne h ..

theorem node_setKind {k : Kind} : (t.setKind i k).node i = (t.node i).map fun x => { x with kind := k } := Function.update_self ..

theorem node_of_dir {entry : List UInt8 → Option Nat} (h : t.dir i = some entry) :
    ∃ nlink, t.node i = some ⟨.dir entry, nlink⟩ := by
  unfold dir at h
  split at h
  · rename_i hn
    cases h
    exact ⟨_, hn⟩
  · cases h

theorem file_none_of_dir {entry : List UInt8 → Option Nat} (h : t.dir i = some entry) : t.file i = none := by
  obtain ⟨nlink, hn⟩ := node_of_dir h
  unfold file
  rw [hn]

theorem dir_setKind {entry : List UInt8 → Option Nat} (h : (t.dir i).isSome) : (t.setKind i (.dir entry)).dir i = some entry := by
  obtain ⟨entry', he⟩ := Option.isSome_iff_exists.1 h
  obtain ⟨nlink, hn⟩ := node_of_dir he
  unfold dir
  rw [node_setKind, hn]
  rfl

theorem dirlookup_eq {entry : List UInt8 → Option Nat} (h : t.dir d = some entry) : t.dirlookup d name = entry name := by
  unfold dirlookup
  rw [h]
  rfl

theorem dir_of_dirlookup (h : t.dirlookup d name = some i) : (t.dir d).isSome := by
  unfold dirlookup at h
  cases hd : t.dir d with
  | none =>
    rw [hd] at h
    cases h
  | some entry => rfl

/-- New data for a file changes no directory. -/
theorem dir_setFile (h : t.file i = some data) (S : List UInt8) (k : Nat) : (t.setKind i (.file S)).dir k = t.dir k := by
  by_cases hk : k = i
  · obtain ⟨nlink, hn⟩ := node_of_file h
    rw [hk, dir_none_of_file h]
    unfold dir
    rw [node_setKind, hn]
    rfl
  · exact dir_congr (node_setKind_ne hk)

theorem file_setFile (h : t.file i = some data) (S : List UInt8) (k : Nat) :
    (t.setKind i (.file S)).file k = if k = i then some S else t.file k := by
  split
  · rename_i hk
    obtain ⟨nlink, hn⟩ := node_of_file h
    rw [hk]
    unfold file
    rw [node_setKind, hn]
    rfl
  · rename_i hk
    exact file_congr (node_setKind_ne hk)

theorem setKind_setKind (k k' : Kind) : (t.setKind i k).setKind i k' = t.setKind i k' := by
  have hnode : (t.setKind i k).node i = (t.node i).map fun x => { x with kind := k } := node_setKind
  show ({ t with node := Function.update (Function.update t.node i _) i (((t.setKind i k).node i).map _) } : Tree) = _
  rw [hnode, Option.map_map, Function.update_idem]
  rfl

theorem setFile_self (h : t.file i = some data) : t.setKind i (.file data) = t := by
  obtain ⟨nlink, hn⟩ := node_of_file h
  unfold setKind
  rw [hn]
  have : Function.update t.node i (some ⟨.file data, nlink⟩) = t.node := by rw [← hn, Function.update_eq_self]
  rw [Option.map_some, this]

/-! ## Path names -/

/-- Directories stay, and so do their entries for directories. -/
structure Keeps (t u : Tree) : Prop where
  dir : ∀ d, (t.dir d).isSome → (u.dir d).isSome
  entry : ∀ d name i, t.dirlookup d name = some i → (t.dir i).isSome → u.dirlookup d name = some i

theorem walk_append (t : Tree) (ip : Nat) (names : List (List UInt8)) (name : List UInt8) :
    t.walk ip (names ++ [name]) = (t.walk ip names).bind fun d => t.dirlookup d name := by
  induction names generalizing ip with
  | nil =>
    show (t.dirlookup ip name).bind some = t.dirlookup ip name
    exact Option.bind_fun_some _
  | cons first names ih =>
    show (t.dirlookup ip first).bind (fun next => t.walk next (names ++ [name])) =
      ((t.dirlookup ip first).bind fun next => t.walk next names).bind fun d => t.dirlookup d name
    rw [Option.bind_assoc]
    exact congrArg _ (funext fun next => ih next)

/-- A walk to a directory starts at a directory. -/
theorem dir_of_walk (h : t.walk i names = some d) (hd : (t.dir d).isSome) : (t.dir i).isSome := by
  cases names with
  | nil =>
    cases h
    exact hd
  | cons name names =>
    obtain ⟨next, hnext, -⟩ := Option.bind_eq_some_iff.1 h
    exact dir_of_dirlookup hnext

theorem Keeps.walk (hk : Keeps t u) (h : t.walk i names = some d) (hd : (t.dir d).isSome) : u.walk i names = some d := by
  induction names generalizing i with
  | nil => exact h
  | cons name names ih =>
    obtain ⟨next, hnext, hrest⟩ := Option.bind_eq_some_iff.1 h
    exact Option.bind_eq_some_iff.2 ⟨next, hk.entry i name next hnext (dir_of_walk hrest hd), ih hrest⟩

theorem nameiparent_iff : t.nameiparent cwd path = some (d, name) ↔
    (elems path).getLast? = some name ∧ t.walk (start cwd path) (elems path).dropLast = some d ∧ (t.dir d).isSome := by
  unfold nameiparent
  cases (elems path).getLast? with
  | none => simp
  | some last =>
    simp only [Option.bind_eq_some_iff, Option.map_eq_some_iff, Option.some.injEq, Prod.mk.injEq, Option.isSome_iff_exists]
    constructor
    · rintro ⟨dp, hw, entry, he, rfl, rfl⟩
      exact ⟨rfl, hw, entry, he⟩
    · rintro ⟨rfl, hw, entry, he⟩
      exact ⟨d, hw, entry, he, rfl, rfl⟩

theorem Keeps.nameiparent (hk : Keeps t u) (h : t.nameiparent cwd path = some (d, name)) :
    u.nameiparent cwd path = some (d, name) := by
  obtain ⟨hlast, hwalk, hd⟩ := nameiparent_iff.1 h
  exact nameiparent_iff.2 ⟨hlast, hk.walk hwalk hd, hk.dir d hd⟩

/-- The file at the end of a path is the entry of its last element. -/
theorem namei_eq (h : t.nameiparent cwd path = some (d, name)) : t.namei cwd path = t.dirlookup d name := by
  obtain ⟨hlast, hwalk, -⟩ := nameiparent_iff.1 h
  obtain ⟨front, hfront⟩ := List.getLast?_eq_some_iff.1 hlast
  rw [hfront, List.dropLast_concat] at hwalk
  unfold namei
  rw [hfront, walk_append, hwalk]
  rfl

/-! ## The copy loop -/

/-- What the loop leaves of a destination with the data `old` after `off` bytes were read: the bytes `writei` allowed,
then what was there. -/
def copied (S old : List UInt8) (off : Nat) : List UInt8 := S.take (min off LIMIT) ++ old.drop (min off LIMIT)

theorem copied_self (S : List UInt8) (off : Nat) : copied S S off = S := List.take_append_drop ..

/-- One round: at the limit nothing is written, below it the next bytes are. -/
theorem write_copied {old buf : List UInt8} {off : Nat} (hfile : t.file j = some data) (hbuf : (S.drop off).take BUF_SIZE = buf)
    (hoff : off < S.length) (haligned : BUF_SIZE ∣ off) :
    (t.setKind j (.file (copied S old off))).write j (min off LIMIT) buf =
      (t.setKind j (.file (copied S old (off + buf.length))), min (off + buf.length) LIMIT - min off LIMIT) := by
  have hlen : buf.length = min BUF_SIZE (S.length - off) := by
    rw [← hbuf]
    simp
  have hpos : 0 < BUF_SIZE := by decide
  have hlim : BUF_SIZE ∣ LIMIT := by decide
  have hcur : (copied S old off).length = min off LIMIT + (old.length - min off LIMIT) := by
    simp only [copied, List.length_append, List.length_take, List.length_drop]
    omega
  unfold write
  rw [file_setFile hfile, if_pos rfl]
  dsimp only
  rw [if_neg (by omega)]
  change (if LIMIT < min off LIMIT + buf.length then _ else _) = _
  by_cases hfull : LIMIT ≤ off
  · rw [if_pos (by omega), copied, copied, Nat.min_eq_right hfull, Nat.min_eq_right (Nat.le_trans hfull (Nat.le_add_right ..)),
      Nat.sub_self]
  · -- both are multiples of the size of the buffer
    have hroom : off + BUF_SIZE ≤ LIMIT := by
      obtain ⟨a, rfl⟩ := haligned
      obtain ⟨b, hb⟩ := hlim
      rw [hb] at hfull ⊢
      have : a < b := Nat.lt_of_mul_lt_mul_left (Nat.not_le.1 hfull)
      calc BUF_SIZE * a + BUF_SIZE = BUF_SIZE * (a + 1) := rfl
        _ ≤ BUF_SIZE * b := Nat.mul_le_mul_left _ this
    have hin : off + buf.length ≤ LIMIT := by omega
    rw [if_neg (by omega), setKind_setKind]
    unfold copied
    rw [Nat.min_eq_left (Nat.le_trans (Nat.le_add_right ..) hroom), Nat.min_eq_left hin]
    refine Prod.ext (congrArg (fun x => t.setKind j (.file x)) ?_) (by dsimp only; omega)
    have htake : (S.take off).length = off := List.length_take_of_le (Nat.le_of_lt hoff)
    have hnext : S.take off ++ buf = S.take (off + buf.length) := by
      have hpre : buf = (S.drop off).take buf.length := List.prefix_iff_eq_take.1 (hbuf ▸ List.take_prefix ..)
      rw [List.take_add, ← hpre]
    rw [List.take_left' htake, List.drop_append, List.drop_of_length_le (by omega), htake, List.nil_append, List.drop_drop,
      hnext, Nat.add_sub_cancel_left]

/-- **The copy loop.** -/
theorem copyLoop_eq {old : List UInt8} (hsrc : t.file i = some S) (hdest : t.file j = some old) (fuel : Nat) {off : Nat}
    (hfuel : S.length - off < fuel) (hoff : off ≤ S.length) (haligned : off = S.length ∨ BUF_SIZE ∣ off) :
    copyLoop fuel (t.setKind j (.file (copied S old off))) i j off (min off LIMIT) =
      some (t.setKind j (.file (copied S old S.length))) := by
  induction fuel generalizing off with
  | zero => omega
  | succ fuel ih =>
    -- the source is as it was, also where it is the destination
    have hread : (t.setKind j (.file (copied S old off))).file i = some S := by
      rw [file_setFile hdest]
      split
      · rename_i hij
        subst i
        cases hsrc.symm.trans hdest
        rw [copied_self]
      · exact hsrc
    unfold copyLoop read
    rw [hread, Option.bind_some, if_neg (by omega)]
    dsimp only
    obtain ⟨buf, hbuf⟩ : ∃ buf, (S.drop off).take BUF_SIZE = buf := ⟨_, rfl⟩
    have hlen : buf.length = min BUF_SIZE (S.length - off) := by
      rw [← hbuf]
      simp
    have hpos : 0 < BUF_SIZE := by decide
    rw [hbuf]
    by_cases hend : off = S.length
    · rw [if_pos (by omega), hend]
    · have hal : BUF_SIZE ∣ off := haligned.resolve_left hend
      rw [if_neg (by omega), write_copied hdest hbuf (by omega) hal]
      dsimp only
      rw [Nat.add_sub_cancel' (by omega)]
      refine ih (by omega) (by omega) ?_
      by_cases hlast : S.length - off ≤ BUF_SIZE
      · exact Or.inl (by omega)
      · rw [hlen, Nat.min_eq_left (by omega)]
        exact Or.inr ((Nat.dvd_add_right hal).2 (Nat.dvd_refl _))

/-! ## `open` and `unlink` -/

/-- The data of the file a path names. -/
def contents (t : Tree) (cwd : Nat) (path : List UInt8) : Option (List UInt8) := (t.namei cwd path).bind t.file

/-- What `mkfs` and the system calls keep: the root and the current directory are directories, and a file with two
entries counts two links. -/
structure Sound (t : Tree) (cwd : Nat) : Prop where
  root : (t.dir ROOTINO).isSome
  cwd : (t.dir cwd).isSome
  links : ∀ d name d' name' i x, t.dirlookup d name = some i → t.dirlookup d' name' = some i → (d, name) ≠ (d', name') →
    t.node i = some x → t.dir i = none → 2 ≤ x.nlink

theorem Sound.start (h : Sound t cwd) (path : List UInt8) : (t.dir (start cwd path)).isSome := by
  unfold Tree.start
  split
  · exact h.root
  · exact h.cwd

/-- A path that names a file has a last element. -/
theorem contents_entry (h : Sound t cwd) (hS : t.contents cwd path = some S) :
    ∃ d name i, t.nameiparent cwd path = some (d, name) ∧ t.dirlookup d name = some i ∧ t.namei cwd path = some i ∧
      t.file i = some S := by
  obtain ⟨i, hi, hfile⟩ := Option.bind_eq_some_iff.1 hS
  cases hlast : (elems path).getLast? with
  | none =>
    unfold namei at hi
    rw [List.getLast?_eq_none_iff.1 hlast] at hi
    cases hi
    have hdir := h.start path
    rw [dir_none_of_file hfile] at hdir
    cases hdir
  | some name =>
    have hi' := hi
    unfold namei at hi
    obtain ⟨front, hfront⟩ := List.getLast?_eq_some_iff.1 hlast
    rw [hfront, walk_append] at hi
    obtain ⟨d, hwalk, hd⟩ := Option.bind_eq_some_iff.1 hi
    refine ⟨d, name, i, nameiparent_iff.2 ⟨hlast, ?_, dir_of_dirlookup hd⟩, hd, hi', hfile⟩
    rw [hfront, List.dropLast_concat]
    exact hwalk

theorem contents_eq (h : t.nameiparent cwd path = some (d, name)) (hi : t.dirlookup d name = some i) :
    t.contents cwd path = t.file i := by
  unfold contents
  rw [namei_eq h, hi]
  rfl

/-- What an `open` with `O_CREATE` keeps. -/
structure Opens (t u : Tree) (cwd : Nat) (path : List UInt8) (d : Nat) (name : List UInt8) (j : Nat) : Prop where
  parent : t.nameiparent cwd path = some (d, name)
  entry : u.dirlookup d name = some j
  data : u.file j = some ((t.contents cwd path).getD [])
  old : t.dirlookup d name = some j ∨ t.node j = none
  dirs : ∀ k, (t.dir k).isSome → (u.dir k).isSome
  lookups : ∀ k n i, t.dirlookup k n = some i → u.dirlookup k n = some i
  files : ∀ i S, t.file i = some S → u.node i = t.node i

theorem Opens.keeps {path' : List UInt8} (h : Opens t u cwd path' d name j) : Keeps t u := ⟨h.dirs, fun k n i hi _ => h.lookups k n i hi⟩

theorem opens_create {r : Tree × Nat} (hr : t.create cwd path = some r) : ∃ d name, Opens t r.1 cwd path d name r.2 := by
  unfold create at hr
  cases hpar : t.nameiparent cwd path with
  | none =>
    rw [hpar] at hr
    cases hr
  | some dn =>
    obtain ⟨d, name⟩ := dn
    cases hdir : t.dir d with
    | none =>
      simp only [hpar, hdir] at hr
      cases hr
    | some entry =>
      have hlook : t.dirlookup d name = entry name := dirlookup_eq hdir
      cases hentry : entry name with
      | some j =>
        simp only [hpar, hdir, hentry, Option.map_eq_some_iff] at hr
        obtain ⟨data, hdata, rfl⟩ := hr
        rw [hentry] at hlook
        refine ⟨d, name, hpar, hlook, ?_, Or.inl hlook, fun _ hk => hk, fun _ _ _ hi => hi, fun _ _ _ => rfl⟩
        rw [contents_eq hpar hlook, hdata]
        rfl
      | none =>
        simp only [hpar, hdir, hentry, Option.map_eq_some_iff] at hr
        obtain ⟨j, hj, rfl⟩ := hr
        rw [hentry] at hlook
        have hfree : t.node j = none := Option.isNone_iff_eq_none.1 (List.find?_some (p := fun i => (t.node i).isNone) hj)
        obtain ⟨nlink, hd⟩ := node_of_dir hdir
        have hjd : d ≠ j := by
          rintro rfl
          rw [hfree] at hd
          cases hd
        -- the tree with the new inode, before the entry
        obtain ⟨v, hv⟩ : ∃ v : Tree, v = { t with node := Function.update t.node j (some ⟨.file [], 1⟩) } := ⟨_, rfl⟩
        have hvj : v.node j = some ⟨.file [], 1⟩ := by rw [hv]; exact Function.update_self ..
        have hvne : ∀ k, k ≠ j → v.node k = t.node k := fun k hk => by rw [hv]; exact Function.update_of_ne hk ..
        have hvd : (v.dir d).isSome := by
          rw [dir_congr (hvne d hjd), hdir]
          rfl
        have hud : (v.dirlink d entry name j).dir d = some (Function.update entry name (some j)) := dir_setKind hvd
        have hune : ∀ k, k ≠ j → k ≠ d → (v.dirlink d entry name j).node k = t.node k := fun k hkj hkd =>
          (node_setKind_ne hkd).trans (hvne k hkj)
        have huj : (v.dirlink d entry name j).node j = some ⟨.file [], 1⟩ := (node_setKind_ne hjd.symm).trans hvj
        have hnotj : ∀ k, t.node k ≠ none → k ≠ j := by
          rintro k hk rfl
          exact hk hfree
        rw [← hv]
        refine ⟨d, name, hpar, ?_, ?_, Or.inr hfree, fun k hk => ?_, fun k n i hi => ?_, fun i S hi => ?_⟩
        · exact (dirlookup_eq hud).trans (Function.update_self ..)
        · have hnone : t.contents cwd path = none := by
            unfold contents
            rw [namei_eq hpar, hlook]
            rfl
          rw [hnone]
          exact file_of_node huj
        · by_cases hkd : k = d
          · rw [hkd]
            exact Option.isSome_iff_exists.2 ⟨_, hud⟩
          · obtain ⟨entry', he⟩ := Option.isSome_iff_exists.1 hk
            obtain ⟨nl, hn⟩ := node_of_dir he
            rw [dir_congr (hune k (hnotj k (by simp [hn])) hkd)]
            exact hk
        · by_cases hkd : k = d
          · subst k
            refine (dirlookup_eq hud).trans ?_
            have hne : n ≠ name := by
              rintro rfl
              rw [hlook] at hi
              cases hi
            rw [Function.update_of_ne hne, ← dirlookup_eq hdir]
            exact hi
          · obtain ⟨entry', he⟩ := Option.isSome_iff_exists.1 (dir_of_dirlookup hi)
            obtain ⟨nl, hn⟩ := node_of_dir he
            unfold dirlookup
            rw [dir_congr (hune k (hnotj k (by simp [hn])) hkd)]
            exact hi
        · obtain ⟨nl, hn⟩ := node_of_file hi
          refine hune i (hnotj i (by simp [hn])) ?_
          rintro rfl
          rw [hn] at hd
          cases hd

/-- What `unlink` of a file leaves: the entry is gone, and the file if it was the last one. -/
structure Unlinks (u v : Tree) (d : Nat) (name : List UInt8) (i : Nat) : Prop where
  gone : v.dirlookup d name = none
  lookups : ∀ k n, (k, n) ≠ (d, name) → v.dirlookup k n = u.dirlookup k n
  dirs : ∀ k, (u.dir k).isSome → (v.dir k).isSome
  others : ∀ k, k ≠ i → v.file k = u.file k
  file : (∀ x, u.node i = some x → 2 ≤ x.nlink) → v.file i = u.file i

theorem unlinks_unlink {v : Tree} (hpar : u.nameiparent cwd path = some (d, name)) (hi : u.dirlookup d name = some i)
    (hfile : u.file i = some data) (hv : u.unlink cwd path = some v) : Unlinks u v d name i := by
  obtain ⟨nlink, hn⟩ := node_of_file hfile
  obtain ⟨entry, he⟩ := Option.isSome_iff_exists.1 (dir_of_dirlookup hi)
  have hid : i ≠ d := by
    rintro rfl
    rw [dir_none_of_file hfile] at he
    cases he
  have hlook : entry name = some i := (dirlookup_eq he).symm.trans hi
  obtain ⟨w, hw⟩ : ∃ w, w = u.setKind d (.dir (Function.update entry name none)) := ⟨_, rfl⟩
  have hwd : w.dir d = some (Function.update entry name none) := by
    rw [hw]
    exact dir_setKind (by rw [he]; rfl)
  have hwne : ∀ k, k ≠ d → w.node k = u.node k := fun k hk => by rw [hw]; exact node_setKind_ne hk
  -- the tree at the end agrees with the one without the entry but for the inode
  obtain ⟨x, hvx, hx⟩ : ∃ x : Option INode, v = { w with node := Function.update w.node i x } ∧
      (x = none ∧ nlink = 1 ∨ x = some ⟨.file data, nlink - 1⟩) := by
    unfold unlink at hv
    simp only [hpar, he, hlook, hn] at hv
    split at hv
    · cases hv
    · split at hv
      · cases hv
      · split at hv
        · rename_i hone
          cases hv
          exact ⟨none, by rw [hw], Or.inl ⟨rfl, hone⟩⟩
        · cases hv
          exact ⟨_, by rw [hw], Or.inr rfl⟩
  have hvi : v.node i = x := by rw [hvx]; exact Function.update_self ..
  have hvne : ∀ k, k ≠ i → v.node k = w.node k := fun k hk => by rw [hvx]; exact Function.update_of_ne hk ..
  have hvd : v.dir d = some (Function.update entry name none) := (dir_congr (hvne d hid.symm)).trans hwd
  have hdir : ∀ k, k ≠ d → v.dir k = u.dir k := by
    intro k hkd
    by_cases hki : k = i
    · subst k
      rw [dir_none_of_file hfile]
      unfold dir
      rw [hvi]
      rcases hx with ⟨rfl, -⟩ | rfl <;> rfl
    · exact dir_congr ((hvne k hki).trans (hwne k hkd))
  refine ⟨(dirlookup_eq hvd).trans (Function.update_self ..), fun k n hkn => ?_, fun k hk => ?_, fun k hk => ?_, fun htwo => ?_⟩
  · by_cases hkd : k = d
    · subst k
      have hne : n ≠ name := by
        rintro rfl
        exact hkn rfl
      rw [dirlookup_eq hvd, dirlookup_eq he, Function.update_of_ne hne]
    · unfold dirlookup
      rw [hdir k hkd]
  · by_cases hkd : k = d
    · rw [hkd, hvd]
      rfl
    · rw [hdir k hkd]
      exact hk
  · by_cases hkd : k = d
    · rw [hkd, file_none_of_dir hvd, file_none_of_dir he]
    · exact file_congr ((hvne k hk).trans (hwne k hkd))
  · have hge : 2 ≤ nlink := htwo _ hn
    rcases hx with ⟨-, hone⟩ | rfl
    · omega
    · rw [hfile]
      exact file_of_node hvi

theorem Unlinks.keeps {v : Tree} (h : Unlinks u v d name i) (hi : u.dirlookup d name = some i) (hfile : u.file i = some data) :
    Keeps u v := by
  refine ⟨h.dirs, fun k n x hx hdir => (h.lookups k n ?_).trans hx⟩
  -- the entry that is gone was no directory's
  rintro heq
  cases heq
  cases hi.symm.trans hx
  rw [dir_none_of_file hfile] at hdir
  cases hdir

/-! ## The programs -/

variable {src dest : List UInt8} {fds : Bool × Bool}

/-- Behind the bytes that the copy loop writes the destination has what the source has. -/
def Fits (t : Tree) (cwd : Nat) (src dest S : List UInt8) : Prop :=
  ((t.contents cwd (destPath src dest)).getD []).drop (min S.length LIMIT) = S.drop (min S.length LIMIT)

/-- The two paths name one entry of one directory. -/
def SameEntry (t : Tree) (cwd : Nat) (src dest : List UInt8) : Prop :=
  t.nameiparent cwd (destPath src dest) = t.nameiparent cwd src

theorem copied_iff {old : List UInt8} : copied S old S.length = S ↔
    old.drop (min S.length LIMIT) = S.drop (min S.length LIMIT) := by
  unfold copied
  conv_lhs =>
    rhs
    rw [← List.take_append_drop (min S.length LIMIT) S]
  exact List.append_right_inj _

theorem com_eq_some (hshort : (destPath src dest).length < COM_SIZE) : com src dest = some (destPath src dest) := if_pos hshort

/-- What `cp` leaves. -/
theorem cp_eq (h : Sound t cwd) (hS : t.contents cwd src = some S) (hshort : (destPath src dest).length < COM_SIZE)
    {r : Tree × Nat} (hr : t.create cwd (destPath src dest) = some r) :
    cp t cwd (true, true) src dest =
      .ok (r.1.setKind r.2 (.file (copied S ((t.contents cwd (destPath src dest)).getD []) S.length))) := by
  obtain ⟨ds, ns, i, hpar, hlook, hnamei, hfile⟩ := contents_entry h hS
  obtain ⟨d, name, ho⟩ := opens_create hr
  have hsrc : r.1.file i = some S := (file_congr (ho.files i S hfile)).trans hfile
  have hloop := copyLoop_eq hsrc ho.data (S.length + 1) (show S.length - 0 < S.length + 1 by omega) (Nat.zero_le _) (Or.inr (Nat.dvd_zero _))
  have hzero : copied S ((t.contents cwd (destPath src dest)).getD []) 0 = (t.contents cwd (destPath src dest)).getD [] := by
    unfold copied
    rw [Nat.zero_min, List.take_zero, List.drop_zero, List.nil_append]
  rw [hzero, setFile_self ho.data, Nat.zero_min] at hloop
  unfold cp
  simp only [hnamei, hfile, com_eq_some hshort, hr, if_pos]
  rw [hloop]

theorem cp_overrun (h : Sound t cwd) (hS : t.contents cwd src = some S) (b : Bool) (hlong : ¬(destPath src dest).length < COM_SIZE) :
    cp t cwd (true, b) src dest = .error .overrun := by
  obtain ⟨ds, ns, i, -, -, hnamei, hfile⟩ := contents_entry h hS
  have hnone : com src dest = none := if_neg hlong
  unfold cp
  simp [hnamei, hfile, hnone]

/-- A run of `cp` ends behind its copy loop, or before it, or `com` runs over. -/
theorem cp_cases (fds : Bool × Bool) (dest : List UInt8) (h : Sound t cwd) (hS : t.contents cwd src = some S) :
    cp t cwd fds src dest = .error .exit ∨
    (cp t cwd fds src dest = .error .overrun ∧ ¬(destPath src dest).length < COM_SIZE) ∨
    ((destPath src dest).length < COM_SIZE ∧ ∃ r, t.create cwd (destPath src dest) = some r ∧ cp t cwd fds src dest =
      .ok (r.1.setKind r.2 (.file (copied S ((t.contents cwd (destPath src dest)).getD []) S.length)))) := by
  obtain ⟨ds, ns, i, hpar, hlook, hnamei, hfile⟩ := contents_entry h hS
  obtain ⟨b₁, b₂⟩ := fds
  cases b₁ with
  | false =>
    left
    unfold cp
    simp [hnamei, hfile]
  | true =>
    by_cases hshort : (destPath src dest).length < COM_SIZE
    · cases hr : t.create cwd (destPath src dest) with
      | none =>
        left
        unfold cp
        simp [hnamei, hfile, com_eq_some hshort, hr]
      | some r =>
        cases b₂ with
        | false =>
          left
          unfold cp
          simp [hnamei, hfile, com_eq_some hshort, hr]
        | true => exact .inr (.inr ⟨hshort, r, rfl, cp_eq h hS hshort hr⟩)
    · exact .inr (.inl ⟨cp_overrun h hS b₂ hshort, hshort⟩)

/-- What the new data of the destination leaves alone. -/
theorem Opens.copied {path : List UInt8} (ho : Opens t u cwd path d name j) (c : List UInt8) :
    (u.setKind j (.file c)).nameiparent cwd path = some (d, name) ∧ (u.setKind j (.file c)).dirlookup d name = some j ∧
      (u.setKind j (.file c)).file j = some c ∧ Keeps t (u.setKind j (.file c)) ∧
      (∀ k n i, t.dirlookup k n = some i → (u.setKind j (.file c)).dirlookup k n = some i) ∧
      ∀ i x, (u.setKind j (.file c)).node i = some x → ∃ y, u.node i = some y ∧ x.nlink = y.nlink := by
  have hdir := dir_setFile ho.data c
  have hlook : ∀ k n, (u.setKind j (.file c)).dirlookup k n = u.dirlookup k n := fun k n => by
    unfold dirlookup
    rw [hdir]
  have hlooks : ∀ k n i, t.dirlookup k n = some i → (u.setKind j (.file c)).dirlookup k n = some i := fun k n i hi =>
    (hlook k n).trans (ho.lookups k n i hi)
  have hkeeps : Keeps t (u.setKind j (.file c)) :=
    ⟨fun k hk => by rw [hdir]; exact ho.dirs k hk, fun k n i hi _ => hlooks k n i hi⟩
  refine ⟨hkeeps.nameiparent ho.parent, (hlook d name).trans ho.entry, ?_, hkeeps, hlooks, fun i x hx => ?_⟩
  · rw [file_setFile ho.data, if_pos rfl]
  · by_cases hij : i = j
    · rw [hij, node_setKind, Option.map_eq_some_iff] at hx
      obtain ⟨y, hy, rfl⟩ := hx
      exact ⟨y, by rw [hij, hy], rfl⟩
    · rw [node_setKind_ne hij] at hx
      exact ⟨x, hx, rfl⟩

/-- What `mv` leaves when it unlinks the source. -/
theorem unlink_copied (h : Sound t cwd) (hS : t.contents cwd src = some S) {r : Tree × Nat}
    (hr : t.create cwd (destPath src dest) = some r) {w : Tree}
    (hw : r.1.setKind r.2 (.file (copied S ((t.contents cwd (destPath src dest)).getD []) S.length)) = w)
    (hunlink : w.unlink cwd src = some u) :
    u.contents cwd (destPath src dest) = some S ↔ Fits t cwd src dest S ∧ ¬SameEntry t cwd src dest := by
  obtain ⟨ds, ns, i, hpar, hlook, hnamei, hfile⟩ := contents_entry h hS
  obtain ⟨d, name, ho⟩ := opens_create hr
  obtain ⟨hp, hl, hf, hkeeps, hlooks, hnode⟩ := ho.copied (copied S ((t.contents cwd (destPath src dest)).getD []) S.length)
  rw [hw] at hp hl hf hkeeps hlooks hnode
  -- the source is still there
  have hpar' := hkeeps.nameiparent hpar
  have hlook' := hlooks _ _ _ hlook
  obtain ⟨data, hdata⟩ : ∃ data, w.file i = some data := by
    rw [← hw, file_setFile ho.data, file_congr (ho.files i S hfile), hfile]
    split <;> exact ⟨_, rfl⟩
  have hun := unlinks_unlink hpar' hlook' hdata hunlink
  have hp' := (hun.keeps hlook' hdata).nameiparent hp
  by_cases hsame : (d, name) = (ds, ns)
  · have hnone : u.contents cwd (destPath src dest) = none := by
      cases hsame
      unfold contents
      rw [namei_eq hp', hun.gone]
      rfl
    have hentry : SameEntry t cwd src dest := by
      unfold SameEntry
      rw [ho.parent, hpar, hsame]
    rw [hnone]
    exact iff_of_false (by simp) fun hfits => hfits.2 hentry
  · have hentry : ¬SameEntry t cwd src dest := by
      unfold SameEntry
      rw [ho.parent, hpar]
      exact fun he => hsame (Option.some.inj he)
    have hfile' : u.file r.2 = w.file r.2 := by
      by_cases hij : r.2 = i
      · -- the destination is another link to the source
        rw [hij]
        refine hun.file fun x hx => ?_
        obtain ⟨x₀, hx₀, hxn⟩ := hnode i x hx
        rw [ho.files i S hfile] at hx₀
        rw [hxn]
        refine h.links d name ds ns i x₀ ?_ hlook hsame hx₀ (dir_none_of_file hfile)
        rcases ho.old with hold | hfree
        · rw [← hij]
          exact hold
        · rw [hij, hx₀] at hfree
          cases hfree
      · exact hun.others r.2 hij
    rw [contents_eq hp' ((hun.lookups d name hsame).trans hl), hfile', hf, Option.some.injEq]
    exact copied_iff.trans (and_iff_left hentry).symm

/-- **cp copies and mv keeps the data** exactly where the path fits `com` and the destination fits, and for `mv` is another
entry. The copy loop ends once both files are open. -/
theorem copies (h : Sound t cwd) (hS : t.contents cwd src = some S) :
    (cp t cwd fds src dest ≠ .error .exit → ((∃ u, cp t cwd fds src dest = .ok u ∧ u.contents cwd (destPath src dest) = some S) ↔
      (destPath src dest).length < COM_SIZE ∧ Fits t cwd src dest S)) ∧
    (mv t cwd fds src dest ≠ .error .exit → (∀ u, mv t cwd fds src dest ≠ .ok (u, false)) →
      ((∃ u, mv t cwd fds src dest = .ok (u, true) ∧ u.contents cwd (destPath src dest) = some S) ↔
        (destPath src dest).length < COM_SIZE ∧ Fits t cwd src dest S ∧ ¬SameEntry t cwd src dest)) ∧
    ((destPath src dest).length < COM_SIZE → ∀ r, t.create cwd (destPath src dest) = some r →
      ∃ u, cp t cwd (true, true) src dest = .ok u) := by
  refine ⟨fun hend => ?_, fun hend hun => ?_, fun hshort r hr => ⟨_, cp_eq h hS hshort hr⟩⟩
  · obtain hexit | ⟨hover, hlong⟩ | ⟨hshort, r, hr, hok⟩ := cp_cases fds dest h hS
    · exact absurd hexit hend
    · rw [hover]
      exact iff_of_false (by simp) fun hc => hlong hc.1
    · obtain ⟨d, name, ho⟩ := opens_create hr
      obtain ⟨hp, hl, hf, -⟩ := ho.copied (copied S ((t.contents cwd (destPath src dest)).getD []) S.length)
      rw [hok, and_iff_right hshort]
      simp only [Except.ok.injEq, exists_eq_left']
      rw [contents_eq hp hl, hf, Option.some.injEq]
      exact copied_iff
  · obtain hexit | ⟨hover, hlong⟩ | ⟨hshort, r, hr, hok⟩ := cp_cases fds dest h hS
    · rw [mv, hexit] at hend
      exact absurd rfl hend
    · rw [mv, hover]
      exact iff_of_false (by simp [Except.map]) fun hc => hlong hc.1
    · rw [mv, hok] at hun ⊢
      obtain ⟨w, hw⟩ : ∃ w, r.1.setKind r.2 (.file (copied S ((t.contents cwd (destPath src dest)).getD []) S.length)) = w := ⟨_, rfl⟩
      rw [hw] at hun ⊢
      simp only [Except.map] at hun ⊢
      cases hunlink : w.unlink cwd src with
      | none =>
        have hkept : unlinkSrc w cwd src = (w, false) := by
          unfold unlinkSrc
          rw [hunlink]
        exact absurd (congrArg Except.ok hkept) (hun w)
      | some v =>
        have hgone : unlinkSrc w cwd src = (v, true) := by
          unfold unlinkSrc
          rw [hunlink]
        rw [hgone, and_iff_right hshort]
        simp only [Except.ok.injEq, Prod.mk.injEq, and_true, exists_eq_left']
        exact unlink_copied h hS hr hw hunlink

/-- A root directory with the files a and b. -/
def twoFiles (a b : List UInt8) : Tree where
  ninodes := 8
  node i :=
    if i = 1 then some ⟨.dir fun name => if name = [97] then some 2 else if name = [98] then some 3 else none, 1⟩
    else if i = 2 then some ⟨.file a, 1⟩
    else if i = 3 then some ⟨.file b, 1⟩
    else none

theorem sound_twoFiles (a b : List UInt8) : Sound (twoFiles a b) 1 := by
  have hentry : ∀ d name i, (twoFiles a b).dirlookup d name = some i →
      d = 1 ∧ (name = [97] ∧ i = 2 ∨ name = [98] ∧ i = 3) := by
    intro d name i hi
    by_cases hd : d = 1
    · subst d
      change (if name = [97] then some 2 else if name = [98] then some 3 else none) = some i at hi
      by_cases ha : name = [97]
      · rw [if_pos ha] at hi
        exact ⟨rfl, Or.inl ⟨ha, (Option.some.inj hi).symm⟩⟩
      · by_cases hb : name = [98]
        · rw [if_neg ha, if_pos hb] at hi
          exact ⟨rfl, Or.inr ⟨hb, (Option.some.inj hi).symm⟩⟩
        · rw [if_neg ha, if_neg hb] at hi
          cases hi
    · have hdir : (twoFiles a b).dir d = none := by
        by_cases h₂ : d = 2
        · rw [h₂]
          rfl
        · by_cases h₃ : d = 3
          · rw [h₃]
            rfl
          · simp [dir, twoFiles, hd, h₂, h₃]
      unfold dirlookup at hi
      rw [hdir] at hi
      cases hi
  refine ⟨rfl, rfl, fun d name d' name' i x h₁ h₂ hne => ?_⟩
  obtain ⟨rfl, e₁⟩ := hentry d name i h₁
  obtain ⟨rfl, e₂⟩ := hentry d' name' i h₂
  rcases e₁ with ⟨rfl, rfl⟩ | ⟨rfl, rfl⟩ <;> rcases e₂ with ⟨rfl, h⟩ | ⟨rfl, h⟩
  · exact absurd rfl hne
  · omega
  · omega
  · exact absurd rfl hne

theorem ok_of_toOption {ε α : Type} {r : Except ε α} {a : α} (h : r.toOption = some a) : r = .ok a := by
  cases r with
  | ok b => exact congrArg Except.ok (Option.some.inj h)
  | error e => cases h

/-- A file of three bytes is moved over a file of one. -/
theorem copies_longer : ∃ u, mv (twoFiles [1, 2, 3] [9]) 1 (true, true) [97] [98] = .ok (u, true) ∧
    u.contents 1 [98] = some [1, 2, 3] := by
  have hrun : ((mv (twoFiles [1, 2, 3] [9]) 1 (true, true) [97] [98]).toOption.map Prod.snd) = some true := by decide +kernel
  obtain ⟨⟨u, b⟩, hu, rfl⟩ := Option.map_eq_some_iff.1 hrun
  have hok := ok_of_toOption hu
  have hS : (twoFiles [1, 2, 3] [9]).contents 1 [97] = some [1, 2, 3] := rfl
  have hall := @copies (twoFiles [1, 2, 3] [9]) 1 [1, 2, 3] [97] [98] (true, true) (sound_twoFiles [1, 2, 3] [9]) hS
  have hfits : Fits (twoFiles [1, 2, 3] [9]) 1 [97] [98] [1, 2, 3] := by
    show List.drop _ _ = List.drop _ _
    decide +kernel
  have hother : ¬SameEntry (twoFiles [1, 2, 3] [9]) 1 [97] [98] := fun he =>
    absurd (congrArg (Option.map Prod.snd) he) (by decide +kernel)
  exact (hall.2.1 (by rw [hok]; simp) (by rw [hok]; simp)).2 ⟨by decide, hfits, hother⟩

/-- A file of one byte is moved over a file of two, of which the second stays; a file moved to itself is gone; and a path of 128
bytes runs over `com`. -/
theorem mv_loses :
    (∃ t u, Sound t 1 ∧ t.contents 1 [97] = some [1] ∧ mv t 1 (true, true) [97] [98] = .ok (u, true) ∧
      u.contents 1 (destPath [97] [98]) = some [1, 3]) ∧
    (∃ t u, Sound t 1 ∧ t.contents 1 [97] = some [1] ∧ mv t 1 (true, true) [97] [97] = .ok (u, true) ∧
      u.contents 1 (destPath [97] [97]) = none) ∧
    ∃ t, Sound t 1 ∧ t.contents 1 [97] = some [1] ∧ cp t 1 (true, true) [97] (List.replicate 128 98) = .error .overrun := by
  have h₁ : (mv (twoFiles [1] [2, 3]) 1 (true, true) [97] [98]).toOption.map
      (fun r => (r.1.contents 1 (destPath [97] [98]), r.2)) = some (some [1, 3], true) := by
    decide +kernel
  have h₂ : (mv (twoFiles [1] [2, 3]) 1 (true, true) [97] [97]).toOption.map
      (fun r => (r.1.contents 1 (destPath [97] [97]), r.2)) = some (none, true) := by
    decide +kernel
  obtain ⟨⟨u₁, b₁⟩, hu₁, he₁⟩ := Option.map_eq_some_iff.1 h₁
  obtain ⟨⟨u₂, b₂⟩, hu₂, he₂⟩ := Option.map_eq_some_iff.1 h₂
  obtain ⟨hc₁, rfl⟩ := Prod.mk.inj he₁
  obtain ⟨hc₂, rfl⟩ := Prod.mk.inj he₂
  have hS : (twoFiles [1] [2, 3]).contents 1 [97] = some [1] := rfl
  refine ⟨⟨_, u₁, sound_twoFiles _ _, hS, ok_of_toOption hu₁, hc₁⟩, ⟨_, u₂, sound_twoFiles _ _, hS, ok_of_toOption hu₂, hc₂⟩,
    _, sound_twoFiles [1] [2, 3], hS, ?_⟩
  exact cp_overrun (sound_twoFiles [1] [2, 3]) hS true (by decide +kernel)

end Tree

end NewXv6.User
