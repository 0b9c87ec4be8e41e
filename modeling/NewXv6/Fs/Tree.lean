import NewXv6.Fs.Lookup
import NewXv6.Fs.Reads

/-!
# The tree on the disk

The inodes on the disk are a tree: the entries of a directory are those in the blocks of its file (`diskTree`). While no call
changes the disk and no copy in the inode cache differs from it (`Settled`), `namex` runs step by step as the one that walks
over trees (`Runs`). So `namei` finds in the blocks of the disk what `walk` finds in the tree (`namei_disk`).
-/

namespace NewXv6.Fs.Lookup

open Lib Names

/-! ## The tree -/

/-- The entries in the blocks of a directory. -/
def entriesOf (d : Dinode) (v : Nat → Block) : List Dirent :=
  (List.range (d.size.toNat / DIRENT)).map fun k => Dirent.decode ((List.range DIRENT).map fun j => d.byteAt v (DIRENT * k + j))

/-- An inode, with its entries if it is a directory. -/
def nodeOf (d : Dinode) (v : Nat → Block) : Node where
  type := d.type
  major := d.major
  minor := d.minor
  nlink := d.nlink
  entries := if d.type = T_DIR then entriesOf d v else []

def diskTree (v : Nat → Block) : Tree where
  ninodes := (v 1).superblock.ninodes
  node n := nodeOf (diskInode v n) v

/-- An entry of the inode cache, without the copy of the inode. -/
def cached (i : Inode) : Cached := ⟨i.inum, i.ref.toNat, i.busy, i.valid⟩

/-- The inode cache over the tree on the disk. -/
def ofDisk (s : FsState) : State where
  tree := diskTree s.view
  icache ip := cached (s.icache ip)

/-- Copies are what is on the disk, and directories are whole entries without holes. -/
structure Settled (s : FsState) : Prop where
  refs : ∀ ip, 0 ≤ (s.icache ip).ref
  copy : ∀ ip, (s.icache ip).valid = true → (s.icache ip).dinode = diskInode s.view (s.icache ip).inum
  whole : ∀ n, (diskInode s.view n).type = T_DIR → DIRENT ∣ (diskInode s.view n).size.toNat
  full : ∀ n, (diskInode s.view n).type = T_DIR → ∀ o, o < (diskInode s.view n).size.toNat →
    (diskInode s.view n).addr s.view (blockPos (o / BSIZE)) ≠ 0

/-- `m`, started in `s`, runs as `x`: it leaves no event, and the disk as it was. -/
inductive Runs {α : Type} (m : Kern FsState α) (s : FsState) : Except Stop (α × State) → Prop
  | ok {a : α} {t : FsState} (h : m s = (.ok (a, t), [])) (ht : Settled t) (hv : t.view = s.view) : Runs m s (.ok (a, ofDisk t))
  | error {e : Stop} (h : m s = (.error e, [])) : Runs m s (.error e)

section Runs

variable {α β : Type} {m : Kern FsState α} {f : α → Kern FsState β} {s t : FsState} {a : α} {u : State} {e : Stop}
  {x : Except Stop (α × State)} {y : Except Stop (β × State)}

theorem Runs.to_ok (h : Runs m s (.ok (a, u))) :
    ∃ t, m s = (.ok (a, t), []) ∧ Settled t ∧ t.view = s.view ∧ ofDisk t = u := by
  cases h with
  | ok h ht hv => exact ⟨_, h, ht, hv, rfl⟩

theorem Runs.to_error (h : Runs m s (.error e)) : m s = (.error e, []) := by
  cases h with
  | error h => exact h

theorem Runs.congr {m' : Kern FsState α} (heq : m s = m' s) (h : Runs m' s x) : Runs m s x := by
  cases h with
  | ok h ht hv => exact .ok (heq.trans h) ht hv
  | error h => exact .error (heq.trans h)

/-- A part that leaves the disk as it is. -/
theorem Runs.after (hm : m s = (.ok (a, t), [])) (hv : t.view = s.view) (h : Runs (f a) t y) : Runs (m >>= f) s y := by
  cases h with
  | ok h hu hv' => exact .ok (Prog.run_bind hm h) hu (hv'.trans hv)
  | error h =>
    refine .error ?_
    rw [Prog.run_bind_ok hm, h]
    rfl

/-- A part that ends, and what follows it. -/
theorem Runs.bind (hm : Runs m s (.ok (a, u))) (hf : ∀ t, Settled t → t.view = s.view → ofDisk t = u → Runs (f a) t y) :
    Runs (m >>= f) s y := by
  obtain ⟨t, hrun, ht, hv, rfl⟩ := hm.to_ok
  exact .after hrun hv (hf t ht hv rfl)

theorem Runs.bind_error (hm : Runs m s (.error e)) : Runs (m >>= f) s (.error e) :=
  .error (Prog.run_bind_error hm.to_error f)

theorem Runs.get {f : FsState → Kern FsState β} (h : Runs (f s) s y) : Runs (Prog.get >>= f) s y :=
  Runs.congr (show (Prog.get >>= f) s = f s s from rfl) h

theorem Runs.bind_congr {m' : Kern FsState α} (heq : m s = m' s) (h : Runs (m' >>= f) s y) : Runs (m >>= f) s y := by
  refine Runs.congr ?_ h
  show Prog.bind m f s = Prog.bind m' f s
  unfold Prog.bind
  rw [heq]

theorem runs_pure (hs : Settled s) (a : α) : Runs (pure a : Kern FsState α) s (.ok (a, ofDisk s)) := .ok rfl hs rfl

end Runs

/-! ## The inode cache -/

section Cache

variable {s : FsState} {ip : Slot}

theorem ofDisk_setEntry (s : FsState) (ip : Slot) (i : Inode) : ofDisk (s.setEntry ip i) = (ofDisk s).setInode ip (cached i) := by
  unfold ofDisk State.setInode
  congr 1
  funext jp
  by_cases hj : jp = ip
  · subst hj
    rw [s.setEntry_self, Function.update_self]
  · rw [s.setEntry_of_ne i hj, Function.update_of_ne hj]

/-- A change of one entry keeps the copies what they are. -/
theorem Settled.setEntry (h : Settled s) {i : Inode} (href : 0 ≤ i.ref)
    (hcopy : i.valid = true → i.dinode = diskInode s.view i.inum) : Settled (s.setEntry ip i) := by
  refine ⟨fun jp => ?_, fun jp => ?_, h.whole, h.full⟩
  · by_cases hj : jp = ip
    · subst hj
      rwa [s.setEntry_self]
    · rw [s.setEntry_of_ne i hj]
      exact h.refs jp
  · by_cases hj : jp = ip
    · subst hj
      rw [s.setEntry_self]
      exact hcopy
    · rw [s.setEntry_of_ne i hj]
      exact h.copy jp

theorem setInode_runs (hs : Settled s) (ip : Slot) (f : Inode → Inode) (href : 0 ≤ (f (s.icache ip)).ref)
    (hcopy : (f (s.icache ip)).valid = true → (f (s.icache ip)).dinode = diskInode s.view (f (s.icache ip)).inum) :
    Runs (setInode ip f) s (.ok ((), (ofDisk s).setInode ip (cached (f (s.icache ip))))) := by
  rw [← ofDisk_setEntry]
  exact .ok rfl (hs.setEntry href hcopy) rfl

theorem cached_ref_pos (i : Inode) : 0 < (cached i).ref ↔ 0 < i.ref := Int.lt_toNat

/-- **`iget`** looks for the entry, and then for a free one. -/
theorem iget_runs (hs : Settled s) (inum : Nat) : Runs (NewXv6.iget inum) s (iget (ofDisk s) inum) := by
  have hused : (fun ip => decide (0 < ((ofDisk s).icache ip).ref ∧ ((ofDisk s).icache ip).inum = inum)) =
      fun ip => decide (0 < (s.icache ip).ref) && decide ((s.icache ip).inum = inum) := funext fun ip => by
    rw [← Bool.decide_and]
    exact decide_eq_decide.2 (and_congr (cached_ref_pos _) Iff.rfl)
  have hfree : (fun ip => decide (((ofDisk s).icache ip).ref = 0)) = fun ip => decide ((s.icache ip).ref = 0) :=
    funext fun ip => decide_eq_decide.2 (by
      have := hs.refs ip
      show (s.icache ip).ref.toNat = 0 ↔ _
      omega)
  unfold iget
  rw [hused, hfree]
  refine Runs.get ?_
  dsimp only
  cases (List.finRange NINODE).find? fun ip => decide (0 < (s.icache ip).ref) && decide ((s.icache ip).inum = inum) with
  | some ip =>
    have href := hs.refs ip
    refine Runs.bind (setInode_runs hs ip _ (by dsimp only; omega) (hs.copy ip)) fun t ht _ hu => ?_
    have hcached : cached { s.icache ip with ref := (s.icache ip).ref + 1 } =
        { (ofDisk s).icache ip with ref := ((ofDisk s).icache ip).ref + 1 } := by
      show Cached.mk _ _ _ _ = Cached.mk _ _ _ _
      congr 1
      show ((s.icache ip).ref + 1).toNat = (s.icache ip).ref.toNat + 1
      omega
    rw [hcached] at hu
    have hend := runs_pure ht ip
    rw [hu] at hend
    exact hend
  | none =>
    cases (List.finRange NINODE).find? fun ip => decide ((s.icache ip).ref = 0) with
    | some ip =>
      refine Runs.bind (setInode_runs hs ip _ (by dsimp only; decide) nofun) fun t ht _ hu => ?_
      have hcached : cached { s.icache ip with inum, ref := 1, busy := false, valid := false } =
          { inum, ref := 1, busy := false, valid := false } := rfl
      rw [hcached] at hu
      have hend := runs_pure ht ip
      rw [hu] at hend
      exact hend
    | none => exact .error rfl

theorem idup_runs (hs : Settled s) (ip : Slot) : Runs (NewXv6.idup ip) s (.ok (ip, idup (ofDisk s) ip)) := by
  have href := hs.refs ip
  refine Runs.bind (setInode_runs hs ip _ (by dsimp only; omega) (hs.copy ip)) fun t ht _ hu => ?_
  have hidup : idup (ofDisk s) ip = (ofDisk s).setInode ip (cached { s.icache ip with ref := (s.icache ip).ref + 1 }) := by
    unfold idup
    congr 1
    show Cached.mk _ _ _ _ = Cached.mk _ _ _ _
    congr 1
    show (s.icache ip).ref.toNat + 1 = ((s.icache ip).ref + 1).toNat
    omega
  rw [hidup, ← hu]
  exact runs_pure ht ip

theorem Runs.inode {α : Type} {f : Inode → Kern FsState α} {y : Except Stop (α × State)} (h : Runs (f (s.icache ip)) s y) :
    Runs (NewXv6.inode ip >>= f) s y :=
  Runs.congr (show (NewXv6.inode ip >>= f) s = f (s.icache ip) s from rfl) h

/-- **`ilock`** reads the inode from the disk if there is no copy. -/
theorem ilock_runs (hs : Settled s) (ip : Slot) :
    Runs (NewXv6.ilock ip) s ((ilock (ofDisk s) ip).map fun u => ((), u)) := by
  have hrefs := hs.refs ip
  have href : ((ofDisk s).icache ip).ref < 1 ↔ (s.icache ip).ref < 1 := by
    show (s.icache ip).ref.toNat < 1 ↔ _
    omega
  have hbusy : ((ofDisk s).icache ip).busy = (s.icache ip).busy := rfl
  have hvalid : ((ofDisk s).icache ip).valid = (s.icache ip).valid := rfl
  have htype : ((ofDisk s).inode ip).type = (diskInode s.view (s.icache ip).inum).type := rfl
  have hend : ∀ i : Inode, i.inum = (s.icache ip).inum → i.ref = (s.icache ip).ref → i.busy = true → i.valid = true →
      (ofDisk s).setInode ip { (ofDisk s).icache ip with busy := true, valid := true } = ofDisk (s.setEntry ip i) := by
    intro i hi hr hb hv
    rw [ofDisk_setEntry]
    unfold cached
    rw [hi, hr, hb, hv]
    rfl
  unfold NewXv6.ilock ilock
  refine Runs.inode ?_
  rw [hbusy, hvalid, htype]
  by_cases hone : (s.icache ip).ref < 1
  · rw [if_pos hone, if_pos (href.2 hone)]
    exact .error rfl
  rw [if_neg hone, if_neg (mt href.1 hone)]
  by_cases hb : (s.icache ip).busy = true
  · rw [if_pos hb, if_pos hb]
    exact .error rfl
  rw [if_neg hb, if_neg hb]
  refine Runs.after (t := s.setEntry ip { s.icache ip with busy := true }) rfl rfl ?_
  by_cases hv : (s.icache ip).valid = true
  · rw [if_pos hv, if_neg (by rw [hv]; exact Bool.noConfusion), hend { s.icache ip with busy := true } rfl rfl rfl hv]
    exact runs_pure (hs.setEntry (i := { s.icache ip with busy := true }) hrefs (hs.copy ip)) ()
  · rw [if_neg hv]
    refine Runs.after (t := s.setEntry ip { s.icache ip with busy := true }) (a := s.view (IBLOCK (s.icache ip).inum)) rfl rfl ?_
    refine Runs.after (a := ()) (t := s.setEntry ip
      ⟨(s.icache ip).inum, (s.icache ip).ref, true, true, diskInode s.view (s.icache ip).inum⟩) ?_ rfl ?_
    · show (Except.ok ((), (s.setEntry ip _).setEntry ip _), []) = _
      rw [s.setEntry_setEntry, s.setEntry_self]
      rfl
    have hno : (s.icache ip).valid = false := Bool.eq_false_iff.2 hv
    have hdisk : (diskInode s.view (s.icache ip).inum).type =
      ((s.view (IBLOCK (s.icache ip).inum)).getDinode ((s.icache ip).inum % IPB)).type := rfl
    rw [hno, hdisk, hend ⟨(s.icache ip).inum, (s.icache ip).ref, true, true, diskInode s.view (s.icache ip).inum⟩ rfl rfl rfl rfl]
    by_cases hfree : ((s.view (IBLOCK (s.icache ip).inum)).getDinode ((s.icache ip).inum % IPB)).type = 0
    · rw [if_pos hfree, if_pos (by rw [decide_eq_true hfree]; rfl)]
      exact .error rfl
    · rw [if_neg hfree, if_neg (by rw [decide_eq_false hfree, Bool.and_false]; exact Bool.noConfusion)]
      have hload : Settled (s.setEntry ip ⟨(s.icache ip).inum, (s.icache ip).ref, true, true,
        diskInode s.view (s.icache ip).inum⟩) := hs.setEntry hrefs fun _ => rfl
      exact runs_pure hload ()

theorem ilock_valid {σ u : State} (h : ilock σ ip = .ok u) : (u.icache ip).valid = true := by
  unfold ilock at h
  split at h
  · cases h
  split at h
  · cases h
  split at h
  · cases h
  cases h
  rw [setInode_self]

theorem iunlock_runs (hs : Settled s) (ip : Slot) :
    Runs (NewXv6.iunlock ip) s ((iunlock (ofDisk s) ip).map fun u => ((), u)) := by
  have hrefs := hs.refs ip
  have href : decide (((ofDisk s).icache ip).ref < 1) = decide ((s.icache ip).ref < 1) := decide_eq_decide.2 (by
    show (s.icache ip).ref.toNat < 1 ↔ _
    omega)
  have hbusy : ((ofDisk s).icache ip).busy = (s.icache ip).busy := rfl
  unfold NewXv6.iunlock iunlock
  refine Runs.inode ?_
  rw [hbusy, href]
  by_cases hbad : (!(s.icache ip).busy || decide ((s.icache ip).ref < 1)) = true
  · rw [if_pos hbad, if_pos hbad]
    exact .error rfl
  · rw [if_neg hbad, if_neg hbad]
    exact setInode_runs hs ip _ hrefs (hs.copy ip)

/-- **`iput`**, where it does not free the inode. -/
theorem iput_runs (hs : Settled s) {ip : Slot} (hpos : 0 < (s.icache ip).ref)
    (hkeep : ¬((s.icache ip).ref = 1 ∧ (s.icache ip).valid = true ∧ (diskInode s.view (s.icache ip).inum).nlink = 0)) :
    Runs (NewXv6.iput ip) s ((iput (ofDisk s) ip).map fun u => ((), u)) := by
  have hrefs := hs.refs ip
  have hfrees : ¬((s.icache ip).ref = 1 ∧ (s.icache ip).valid = true ∧ (s.icache ip).dinode.nlink = 0) := fun hf =>
    hkeep ⟨hf.1, hf.2.1, by rw [← hs.copy ip hf.2.1]; exact hf.2.2⟩
  have hkept : ¬(((ofDisk s).icache ip).ref = 1 ∧ ((ofDisk s).icache ip).valid = true ∧ ((ofDisk s).inode ip).nlink = 0) :=
    fun hf => hkeep ⟨by have hone : (s.icache ip).ref.toNat = 1 := hf.1; omega, hf.2⟩
  have hend : cached { s.icache ip with ref := (s.icache ip).ref - 1 } =
      { (ofDisk s).icache ip with ref := ((ofDisk s).icache ip).ref - 1 } := by
    show Cached.mk _ _ _ _ = Cached.mk _ _ _ _
    congr 1
    show ((s.icache ip).ref - 1).toNat = (s.icache ip).ref.toNat - 1
    omega
  unfold NewXv6.iput iput
  refine Runs.inode ?_
  dsimp only
  rw [if_neg hfrees, if_neg hkept, ← hend]
  exact setInode_runs hs ip (fun i => { i with ref := i.ref - 1 }) (Int.sub_nonneg_of_le hpos) (hs.copy ip)

end Cache

/-! ## Directories -/

section Dir

variable {s : FsState} {dp : Slot} {devsw : Nat → Option Devsw} {name : List UInt8}

/-- A directory with a copy in the cache. -/
structure Reads (s : FsState) (dp : Slot) : Prop where
  type : (s.icache dp).dinode.type = T_DIR
  whole : DIRENT ∣ (s.icache dp).dinode.size.toNat
  full : ∀ o, o < (s.icache dp).dinode.size.toNat → (s.icache dp).dinode.addr s.view (blockPos (o / BSIZE)) ≠ 0

theorem readEntry_run (h : Reads s dp) (p : Panic) {k : Nat} (hk : DIRENT * k + DIRENT ≤ (s.icache dp).dinode.size.toNat) :
    readEntry devsw p dp (DIRENT * k) s = (.ok (Dirent.decode ((List.range DIRENT).map fun j =>
      (s.icache dp).dinode.byteAt s.view (DIRENT * k + j)), s), []) := by
  have hsize := UInt32.toNat_lt (s.icache dp).dinode.size
  have hoff : (UInt32.ofNat (DIRENT * k)).toNat = DIRENT * k := by
    rw [UInt32.toNat_ofNat']
    exact Nat.mod_eq_of_lt (by omega)
  have hlen : (UInt32.ofNat DIRENT).toNat = DIRENT := by decide
  have hin : min (UInt32.ofNat DIRENT).toNat ((s.icache dp).dinode.size.toNat - (UInt32.ofNat (DIRENT * k)).toNat) = DIRENT := by
    rw [hoff, hlen]
    omega
  have hread := readi_full (by rw [h.type]; decide) devsw (UInt32.ofNat (DIRENT * k)) (UInt32.ofNat DIRENT)
    fun o _ ho => h.full o (by rw [hin, hoff] at ho; omega)
  have hok : ¬((s.icache dp).dinode.size < UInt32.ofNat (DIRENT * k) ∨
      UInt32.ofNat (DIRENT * k) + UInt32.ofNat DIRENT < UInt32.ofNat (DIRENT * k)) := by
    rw [not_or, UInt32.not_lt, UInt32.not_lt, UInt32.le_iff_toNat_le, UInt32.le_iff_toNat_le, UInt32.toNat_add, hoff, hlen]
    simp only [DIRENT] at *
    omega
  rw [if_neg hok, hin, hoff] at hread
  refine Prog.run_bind hread (v := []) ?_
  dsimp only
  rw [if_pos (by rw [List.length_map, List.length_range])]
  rfl

/-- The entries of the copy. -/
theorem entriesOf_drop (d : Dinode) (v : Nat → Block) {k : Nat} (hk : k < d.size.toNat / DIRENT) :
    (entriesOf d v).drop k = Dirent.decode ((List.range DIRENT).map fun j => d.byteAt v (DIRENT * k + j)) ::
      (entriesOf d v).drop (k + 1) := by
  have hlen : k < (entriesOf d v).length := by
    unfold entriesOf
    rwa [List.length_map, List.length_range]
  rw [List.drop_eq_getElem_cons hlen]
  congr 1
  simp [entriesOf]

/-- **The loop of `dirlookup`** finds the first entry that fits. -/
theorem dirlookupFrom_run (h : Reads s dp) (fuel : Nat) : ∀ k, (s.icache dp).dinode.size.toNat / DIRENT < k + fuel →
    (((entriesOf (s.icache dp).dinode s.view).drop k).find? (fits name) = none →
      dirlookupFrom devsw dp name fuel (DIRENT * k) s = (.ok (none, s), [])) ∧
    ∀ de, ((entriesOf (s.icache dp).dinode s.view).drop k).find? (fits name) = some de → ∃ off,
      dirlookupFrom devsw dp name fuel (DIRENT * k) s =
        (do let ip ← NewXv6.iget de.inum.toNat; return some (ip, off) : Kern FsState (Option (Slot × Nat))) s := by
  have hlen : (entriesOf (s.icache dp).dinode s.view).length = (s.icache dp).dinode.size.toNat / DIRENT := by
    unfold entriesOf
    rw [List.length_map, List.length_range]
  have hend : ∀ k, (s.icache dp).dinode.size.toNat / DIRENT ≤ k →
      (entriesOf (s.icache dp).dinode s.view).drop k = [] := fun k hk => List.drop_eq_nil_of_le (by omega)
  obtain ⟨n, hn⟩ := h.whole
  have hdiv : (s.icache dp).dinode.size.toNat / DIRENT = n := by
    rw [hn]
    exact Nat.mul_div_cancel_left n (by decide)
  induction fuel with
  | zero =>
    intro k hk
    rw [hend k (by omega)]
    exact ⟨fun _ => rfl, fun de hde => absurd hde (Option.some_ne_none de).symm⟩
  | succ fuel ih =>
    intro k hk
    by_cases hlt : DIRENT * k < (s.icache dp).dinode.size.toNat
    · have hkn : k < n := by
        rw [hn] at hlt
        exact Nat.lt_of_mul_lt_mul_left hlt
      have hwhole : DIRENT * k + DIRENT ≤ (s.icache dp).dinode.size.toNat := by
        rw [hn]
        exact Nat.mul_le_mul_left DIRENT hkn
      have hround : dirlookupFrom devsw dp name (fuel + 1) (DIRENT * k) s =
          (readEntry devsw .dirlinkRead dp (DIRENT * k) >>= fun de =>
            if de.inum ≠ 0 ∧ namecmp name de.name = 0 then do
              let ip ← NewXv6.iget de.inum.toNat
              return some (ip, DIRENT * k)
            else dirlookupFrom devsw dp name fuel (DIRENT * k + DIRENT)) s := by
        rw [dirlookupFrom]
        show (if DIRENT * k < (s.icache dp).dinode.size.toNat then _ else _ : Kern FsState (Option (Slot × Nat))) s = _
        rw [if_pos hlt]
      rw [entriesOf_drop _ _ (by omega), List.find?_cons, hround, Prog.run_bind_ok (readEntry_run h .dirlinkRead hwhole)]
      generalize Dirent.decode _ = de
      by_cases hfits : de.inum ≠ 0 ∧ namecmp name de.name = 0
      · have htrue : fits name de = true := decide_eq_true hfits
        rw [htrue, if_pos hfits]
        refine ⟨fun hnone => absurd hnone (Option.some_ne_none de), fun de' hde => ⟨DIRENT * k, ?_⟩⟩
        cases hde
        rfl
      · have hfalse : fits name de = false := decide_eq_false hfits
        rw [hfalse, if_neg hfits]
        exact ih (k + 1) (by omega)
    · rw [hend k (by rw [hdiv]; rw [hn] at hlt; exact Nat.le_of_not_lt fun hc => hlt (Nat.mul_lt_mul_of_pos_left hc (by decide)))]
      refine ⟨fun _ => ?_, fun de hde => absurd hde (Option.some_ne_none de).symm⟩
      rw [dirlookupFrom]
      show (if DIRENT * k < (s.icache dp).dinode.size.toNat then _ else _ : Kern FsState (Option (Slot × Nat))) s = _
      rw [if_neg hlt]
      rfl

/-- A locked directory has a copy. -/
theorem Settled.reads (hs : Settled s) (hv : (s.icache dp).valid = true) (ht : ((ofDisk s).inode dp).type = T_DIR) : Reads s dp := by
  have hcopy := hs.copy dp hv
  have htype : (diskInode s.view (s.icache dp).inum).type = T_DIR := ht
  refine ⟨?_, ?_, ?_⟩
  · rw [hcopy]
    exact htype
  · rw [hcopy]
    exact hs.whole _ htype
  · rw [hcopy]
    exact hs.full _ htype

/-- **`dirlookup`** in a locked directory: nothing, or a pointer to the inode of the entry that fits. -/
theorem dirlookup_run (hs : Settled s) (hv : (s.icache dp).valid = true) (ht : ((ofDisk s).inode dp).type = T_DIR) :
    (((ofDisk s).inode dp).entries.find? (fits name) = none → NewXv6.dirlookup devsw dp name s = (.ok (none, s), [])) ∧
    ∀ de, ((ofDisk s).inode dp).entries.find? (fits name) = some de → ∃ off, NewXv6.dirlookup devsw dp name s =
      (do let ip ← NewXv6.iget de.inum.toNat; return some (ip, off) : Kern FsState (Option (Slot × Nat))) s := by
  have hreads := hs.reads hv ht
  have hentries : ((ofDisk s).inode dp).entries = entriesOf (s.icache dp).dinode s.view := by
    rw [hs.copy dp hv]
    exact if_pos ht
  have hrun : NewXv6.dirlookup devsw dp name s =
      dirlookupFrom devsw dp name ((s.icache dp).dinode.size.toNat / DIRENT + 1) (DIRENT * 0) s := by
    show (if (s.icache dp).dinode.type ≠ T_DIR then _ else _ : Kern FsState (Option (Slot × Nat))) s = _
    rw [if_neg (fun hne => hne hreads.type)]
    rfl
  rw [hrun, hentries]
  exact dirlookupFrom_run hreads _ 0 (by omega)

end Dir

/-! ## Paths -/

section Paths

variable {s₀ : State} {s : FsState} {devsw : Nat → Option Devsw}

/-- `iput` of a pointer that `namex` holds does not free the inode. -/
theorem Held.iput_runs {m : Slot → Nat} {ip : Slot} (h : Held s₀ (ofDisk s) m none) (hs : Settled s) (hm : 0 < m ip)
    (hkeep : ((ofDisk s).inode ip).nlink ≠ 0 ∨ 0 < (s₀.icache ip).ref) :
    Runs (NewXv6.iput ip) s ((Lookup.iput (ofDisk s) ip).map fun u => ((), u)) := by
  have href := h.ref ip
  have hpos : 0 < (s.icache ip).ref := (cached_ref_pos _).1 (show 0 < ((ofDisk s).icache ip).ref by omega)
  refine Lookup.iput_runs hs hpos fun hfree => ?_
  rcases hkeep with hlinks | hother
  · exact hlinks hfree.2.2
  · have hone : ((ofDisk s).icache ip).ref = 1 := by
      show (s.icache ip).ref.toNat = 1
      omega
    omega

theorem Held.iunlockput_runs {m : Slot → Nat} {ip : Slot} (h : Held s₀ (ofDisk s) m (some ip)) (hs : Settled s) (hm : 0 < m ip)
    (hkeep : ((ofDisk s).inode ip).nlink ≠ 0 ∨ 0 < (s₀.icache ip).ref) :
    Runs (NewXv6.iunlockput ip) s ((Lookup.iunlockput (ofDisk s) ip).map fun u => ((), u)) := by
  have href := h.ref ip
  obtain ⟨u, hu, hheld, hinum⟩ := h.iunlock (show 0 < ((ofDisk s).icache ip).ref by omega)
  have hunlock := iunlock_runs hs ip
  rw [hu] at hunlock
  unfold NewXv6.iunlockput Lookup.iunlockput
  rw [hu]
  refine Runs.bind hunlock fun t ht hv hut => ?_
  subst hut
  refine hheld.iput_runs ht hm ?_
  have hnode : (ofDisk t).inode ip = (ofDisk s).inode ip := by
    unfold State.inode
    rw [hinum, hheld.tree, h.tree]
  rwa [hnode]

/-- **The loop of `namex`** over the disk is the loop over the tree. -/
theorem namexFrom_runs (hwf : WellFormed s₀.tree) (parent : Bool) (fuel : Nat) :
    ∀ {s : FsState} {ip : Slot} {path : List UInt8}, Settled s → Held s₀ (ofDisk s) (hold (fun _ => 0) ip) none →
      path.length < fuel → ((ofDisk s).inode ip).type ≠ 0 → ((ofDisk s).inode ip).nlink ≠ 0 ∨ 0 < (s₀.icache ip).ref →
      Runs (NewXv6.namexFrom devsw parent fuel ip path) s (namexFrom parent fuel ip path (ofDisk s)) := by
  induction fuel with
  | zero => exact fun _ _ hlen => absurd hlen (Nat.not_lt_zero _)
  | succ fuel ih =>
    intro s ip path hs h hlen htype hkeep
    have hpos := hold_pos (fun _ => 0) ip
    have href : 0 < ((ofDisk s).icache ip).ref := by
      have := h.ref ip
      omega
    rw [NewXv6.namexFrom, namexFrom]
    cases hskip : skipelem path with
    | none =>
      dsimp only
      cases parent with
      | true =>
        rw [if_pos rfl, if_pos rfl]
        obtain ⟨u, hu, -, -⟩ := h.iput hpos hkeep
        have hiput := h.iput_runs hs hpos hkeep
        rw [hu] at hiput ⊢
        refine Runs.bind hiput fun t ht _ hut => ?_
        rw [← hut]
        exact runs_pure ht none
      | false => exact runs_pure hs _
    | some r =>
      obtain ⟨name, rest⟩ := r
      have hlen' := skipelem_length hskip
      dsimp only
      obtain ⟨u, hu, hheld, hinum⟩ := h.ilock href htype
      have hilock := ilock_runs hs ip
      rw [hu] at hilock ⊢
      refine Runs.bind hilock fun t ht hv hut => ?_
      subst hut
      have hvalid : (t.icache ip).valid = true := ilock_valid hu
      have hnode : (ofDisk t).inode ip = (ofDisk s).inode ip := by
        unfold State.inode
        rw [hinum, hheld.tree, h.tree]
      have hkeep' : ((ofDisk t).inode ip).nlink ≠ 0 ∨ 0 < (s₀.icache ip).ref := by rwa [hnode]
      have htypes : ((ofDisk t).inode ip).type = (t.icache ip).dinode.type :=
        congrArg Dinode.type (ht.copy ip hvalid).symm
      refine Runs.inode ?_
      rw [← htypes]
      show Runs _ t (if ((ofDisk t).inode ip).type ≠ T_DIR then _ else if parent = true ∧ rest = [] then _ else _)
      by_cases hdir : ((ofDisk t).inode ip).type = T_DIR
      · have hnot : ¬((ofDisk t).inode ip).type ≠ T_DIR := not_not_intro hdir
        rw [if_neg hnot, if_neg hnot]
        by_cases hparent : parent = true ∧ rest = []
        · rw [if_pos hparent, if_pos hparent]
          obtain ⟨v, hv', -, -⟩ := hheld.iunlock (by have := hheld.ref ip; omega)
          have hrun := iunlock_runs ht ip
          rw [hv'] at hrun ⊢
          refine Runs.bind hrun fun w hw _ hwt => ?_
          rw [← hwt]
          exact runs_pure hw _
        · rw [if_neg hparent, if_neg hparent]
          obtain ⟨hnone, hsome⟩ := @dirlookup_run t ip devsw name ht hvalid hdir
          cases hfind : ((ofDisk t).inode ip).entries.find? (fits name) with
          | none =>
            obtain ⟨v, hv', -, -⟩ := hheld.iunlockput hpos hkeep'
            have hrun := hheld.iunlockput_runs ht hpos hkeep'
            rw [hv'] at hrun
            refine Runs.after (hnone hfind) rfl ?_
            dsimp only
            rw [hv']
            refine Runs.bind hrun fun w hw _ hwt => ?_
            rw [← hwt]
            exact runs_pure hw none
          | some de =>
            obtain ⟨off, hlookup⟩ := hsome de hfind
            have hde : de.inum ≠ 0 := (of_decide_eq_true (List.find?_some hfind :)).1
            have hmem := List.mem_of_find?_eq_some hfind
            have hat : (ofDisk t).inode ip = s₀.tree.node ((ofDisk t).icache ip).inum := by
              unfold State.inode
              rw [hheld.tree]
            rw [hat] at hmem hdir
            obtain ⟨htype', hlinks⟩ := hwf.entries _ hdir de hmem hde
            have hreft : ∀ jp, some ip = some jp → 0 < ((ofDisk t).icache jp).ref := by
              rintro jp ⟨⟩
              have := hheld.ref ip
              omega
            refine Runs.bind_congr hlookup ?_
            have higet := iget_runs ht de.inum.toNat
            dsimp only
            rcases hheld.iget hreft de.inum.toNat with ⟨hfail, -⟩ | ⟨next, v, hv', hheld', hinum', hsame⟩
            · rw [hfail] at higet ⊢
              exact Runs.bind_error (Runs.bind_error higet)
            · rw [hv'] at higet ⊢
              have hfound : Runs (do let ip ← NewXv6.iget de.inum.toNat; return some (ip, off) : Kern FsState (Option (Slot × Nat)))
                  t (.ok (some (next, off), v)) := Runs.bind higet fun w hw _ hwt => by
                rw [← hwt]
                exact runs_pure hw _
              refine Runs.bind hfound fun w hw _ hwt => ?_
              subst hwt
              have hposw := Nat.lt_of_lt_of_le hpos (le_hold _ next ip)
              have hnodew : (ofDisk w).inode ip = (ofDisk t).inode ip := by
                unfold State.inode
                rw [hsame ip (hreft ip rfl), hheld'.tree, hheld.tree]
              have hkeepw : ((ofDisk w).inode ip).nlink ≠ 0 ∨ 0 < (s₀.icache ip).ref := by rwa [hnodew]
              obtain ⟨x, hx, hheldx, hinumx⟩ := hheld'.iunlockput hposw hkeepw
              have hput := hheld'.iunlockput_runs hw hposw hkeepw
              show Runs _ w (do let s ← iunlockput (ofDisk w) ip; namexFrom parent fuel next rest s)
              dsimp only
              rw [hx] at hput ⊢
              refine Runs.bind hput fun y hy _ hyx => ?_
              subst hyx
              rw [hold_comm, drop_hold] at hheldx
              have hatNext : ((ofDisk y).icache next).inum = de.inum.toNat := (hinumx next).trans hinum'
              have hnext : (ofDisk y).inode next = s₀.tree.node de.inum.toNat := by
                unfold State.inode
                rw [hatNext, hheldx.tree]
              refine ih hy hheldx (show rest.length < fuel by omega) (by rwa [hnext]) ?_
              rw [hnext]
              rcases hlinks with hlinks | hself
              · exact .inl hlinks
              · -- the directory names itself
                have hposv : ∀ jp, 0 < hold (hold (fun _ => 0) ip) next jp → 0 < ((ofDisk w).icache jp).ref := fun jp hj => by
                  rw [hheld'.ref jp]
                  omega
                obtain rfl := hheld'.unique next ip (hposv next (hold_pos _ next)) (hposv ip hposw)
                  (by rw [hinum', hsame ip (hreft ip rfl), hself])
                rwa [hself, ← hat]
      · rw [if_pos hdir, if_pos hdir]
        obtain ⟨v, hv', -, -⟩ := hheld.iunlockput hpos hkeep'
        have hrun := hheld.iunlockput_runs ht hpos hkeep'
        rw [hv'] at hrun ⊢
        refine Runs.bind hrun fun w hw _ hwt => ?_
        rw [← hwt]
        exact runs_pure hw none

/-- **`namex`** over the disk runs as the one over the tree. -/
theorem namex_runs (σ : Caller) (hs : Settled s) (hdisk : ofDisk s = σ.state) (path : List UInt8) (parent : Bool) :
    Runs (NewXv6.namex devsw σ.cwd path parent) s (namex σ.state σ.cwd path parent) := by
  have hstart : Held σ.state (ofDisk s) (fun _ => 0) none := by
    rw [hdisk]
    exact σ.held
  unfold NewXv6.namex namex
  by_cases hroot : path.headD 0 = slash
  · rw [if_pos hroot, if_pos hroot, ← hdisk]
    have higet := iget_runs hs ROOTINO
    rcases hstart.iget nofun ROOTINO with ⟨hfail, -⟩ | ⟨ip, u, hu, hheld, hinum, -⟩
    · rw [hfail] at higet ⊢
      exact Runs.bind_error higet
    · rw [hu] at higet ⊢
      refine Runs.bind higet fun t ht _ htu => ?_
      subst htu
      have hnode : (ofDisk t).inode ip = σ.state.tree.node ROOTINO := by
        unfold State.inode
        rw [hinum, hheld.tree]
      exact namexFrom_runs σ.wellFormed parent _ ht hheld (Nat.lt_succ_self path.length)
        (by rw [hnode]; exact σ.wellFormed.root.1) (.inl (by rw [hnode]; exact σ.wellFormed.root.2))
  · rw [if_neg hroot, if_neg hroot, ← hdisk]
    refine Runs.bind (idup_runs hs σ.cwd) fun t ht _ htu => ?_
    have hheld : Held σ.state (ofDisk t) (hold (fun _ => 0) σ.cwd) none := by
      rw [htu, hdisk]
      exact σ.held.set_same (fun jp hjp => hold_of_ne hjp) (fun _ _ => Iff.rfl) (by rw [hold_self]) (σ.idle σ.cwd) rfl σ.cwd_ref
    have hnode : (ofDisk t).inode σ.cwd = σ.state.inode σ.cwd := by
      unfold State.inode
      rw [hheld.tree, htu, hdisk]
      unfold idup
      rw [setInode_self]
    rw [← htu]
    exact namexFrom_runs σ.wellFormed parent _ ht hheld (Nat.lt_succ_self path.length)
      (by rw [hnode]; exact σ.cwd_type) (.inr σ.cwd_ref)

/-- **`namei` over the disk** leaves the disk alone and returns the inode that `walk` finds in the tree on it; only a cache
without two free entries can stop it. -/
theorem namei_disk (σ : Caller) (hs : Settled s) (hdisk : ofDisk s = σ.state) (path : List UInt8) :
    (NewXv6.namei devsw σ.cwd path s = (.error (.panic .igetNoInodes), []) ∧ Full σ.state) ∨
      ∃ r t, NewXv6.namei devsw σ.cwd path s = (.ok (r, t), []) ∧ t.view = s.view ∧ Settled t ∧
        Held σ.state (ofDisk t) (result r) none ∧
        (r.map fun ip => (t.icache ip).inum) = walk (diskTree s.view) (σ.start path) (components path) := by
  have hrun : Runs (NewXv6.namei devsw σ.cwd path) s (namei σ.state σ.cwd path) := by
    have hnamex := @namex_runs s devsw σ hs hdisk path false
    unfold NewXv6.namei namei
    cases hx : namex σ.state σ.cwd path false with
    | error e =>
      rw [hx] at hnamex
      exact Runs.bind_error hnamex
    | ok x =>
      rw [hx] at hnamex
      refine Runs.bind hnamex fun t ht _ htx => ?_
      have hend := runs_pure ht (x.1.map Prod.fst)
      rw [htx] at hend
      exact hend
  have htree : σ.state.tree = diskTree s.view := by
    rw [← hdisk]
    rfl
  rcases namei_walk σ path with ⟨hfail, hfull⟩ | ⟨r, u, hr, hheld, hwalk⟩
  · rw [hfail] at hrun
    exact .inl ⟨hrun.to_error, hfull⟩
  · rw [hr] at hrun
    obtain ⟨t, ht, hsettled, hv, rfl⟩ := hrun.to_ok
    rw [htree] at hwalk
    exact .inr ⟨r, t, ht, hv, hsettled, hheld, hwalk⟩

end Paths

/-! ## A lookup on a disk -/

section Roomy

/-- The disk, with the root directory as the current one. -/
def roomyRooted : FsState where
  io := roomy.io
  icache ip :=
    if ip = 0 then { inum := ROOTINO, ref := 1, busy := false, valid := false, dinode := Dinode.zero }
    else { inum := 0, ref := 0, busy := false, valid := false, dinode := Dinode.zero }

/-- The root is the only directory that has entries. -/
theorem roomy_dirs {n : Nat} (h : (diskInode roomyImage n).type = T_DIR) : n = 1 ∨ (diskInode roomyImage n).size = 0 := by
  have hfirst : ∀ n : Fin 24, (diskInode roomyImage n.val).type = T_DIR →
      n.val = 1 ∨ (diskInode roomyImage n.val).size = 0 := by decide +kernel
  by_cases hn : n < 24
  · exact hfirst ⟨n, hn⟩ h
  · have hzero : roomyImage (IBLOCK n) = Block.zero := by
      have hb : 5 ≤ IBLOCK n := by
        show 5 ≤ n / 8 + 2
        omega
      exact (if_neg (by omega)).trans ((if_neg (by omega)).trans ((if_neg (by omega)).trans (if_neg (by omega))))
    unfold diskInode at h
    rw [hzero, Block.getDinode_zero] at h
    exact absurd h (by decide)

theorem roomy_root : diskInode roomyImage 1 = roomyRoot := roomy_inode (by decide)

theorem settled_roomy : Settled roomyRooted := by
  refine ⟨by decide +kernel, fun ip hip => ?_, fun n hn => ?_, fun n hn o ho => ?_⟩
  · have hnone : ∀ ip : Slot, (roomyRooted.icache ip).valid = false := by decide +kernel
    rw [hnone ip] at hip
    cases hip
  · rcases roomy_dirs hn with rfl | hsize
    · show DIRENT ∣ (diskInode roomyImage 1).size.toNat
      rw [roomy_root]
      decide
    · show DIRENT ∣ (diskInode roomyImage n).size.toNat
      rw [hsize]
      exact Nat.dvd_zero _
  · replace ho : o < (diskInode roomyImage n).size.toNat := ho
    rcases roomy_dirs hn with rfl | hsize
    · show (diskInode roomyImage 1).addr roomyImage (blockPos (o / BSIZE)) ≠ 0
      rw [roomy_root] at ho ⊢
      rw [Nat.div_eq_of_lt (Nat.lt_trans ho (by decide))]
      decide
    · rw [hsize] at ho
      cases ho

/-- Its root directory names itself only. -/
def rootedCaller : Caller where
  state := ofDisk roomyRooted
  cwd := 0
  wellFormed := by
    have hroot : ∀ de ∈ entriesOf (diskInode roomyImage 1) roomyImage, de.inum.toNat = 1 := by decide +kernel
    have htype : (diskInode roomyImage 1).type ≠ 0 := by rw [roomy_root]; decide
    have hlink : (diskInode roomyImage 1).nlink ≠ 0 := by rw [roomy_root]; decide
    refine ⟨⟨htype, hlink⟩, fun dp hdp de hde _ => ?_⟩
    replace hdp : (diskInode roomyImage dp).type = T_DIR := hdp
    replace hde : de ∈ if (diskInode roomyImage dp).type = T_DIR then entriesOf (diskInode roomyImage dp) roomyImage else [] :=
      hde
    rw [if_pos hdp] at hde
    rcases roomy_dirs hdp with rfl | hsize
    · rw [hroot de hde]
      exact ⟨htype, .inl hlink⟩
    · rw [entriesOf, hsize] at hde
      cases hde
  idle := by decide +kernel
  cwd_ref := Nat.one_pos
  cwd_type := by decide +kernel
  unique := by
    intro ip jp hip hjp _
    have hzero : ∀ ip : Slot, 0 < ((ofDisk roomyRooted).icache ip).ref → ip = 0 := by decide +kernel
    rw [hzero ip hip, hzero jp hjp]

/-- `namei` of "." finds the root. -/
theorem namei_disk_dot : ∃ ip t, NewXv6.namei (fun _ => none) 0 dot roomyRooted = (.ok (some ip, t), []) ∧
    (t.icache ip).inum = ROOTINO := by
  rcases @namei_disk roomyRooted (fun _ => none) rootedCaller settled_roomy rfl dot with ⟨-, hfull⟩ | ⟨r, t, hr, -, -, -, hwalk⟩
  · exact absurd (hfull 1 2 rfl rfl) (by decide)
  · have hfound : walk (diskTree roomyRooted.view) (rootedCaller.start dot) (components dot) = some ROOTINO := by
      decide +kernel
    rw [hfound] at hwalk
    obtain ⟨ip, rfl, hip⟩ := Option.map_eq_some_iff.1 hwalk
    exact ⟨ip, t, hr, hip⟩

end Roomy

/-! ## Lookups of the calls that add and remove names -/

section Names

variable {t : Tree} {path : List UInt8}

/-- The loop of `namex` without a cache is the fold, too. -/
theorem names_namexFrom (hwf : WellFormed t) (parent : Bool) (fuel : Nat) : ∀ {ip : Nat} {path : List UInt8},
    path.length < fuel → (t.node ip).type ≠ 0 → Names.namexFrom t parent fuel ip path =
      .ok (if parent then walkParent t ip (components path) else (walk t ip (components path)).map fun n => (n, [])) := by
  induction fuel with
  | zero => exact fun hlen => absurd hlen (Nat.not_lt_zero _)
  | succ fuel ih =>
    intro ip path hlen htype
    rw [Names.namexFrom]
    rcases skipelem_components path with ⟨hskip, hcomp⟩ | ⟨name, rest, hskip, hcomp, hlast⟩
    · rw [hskip, hcomp]
      cases parent <;> rfl
    · have hlen' := skipelem_length hskip
      rw [hskip, hcomp]
      dsimp only
      rw [if_neg htype]
      by_cases hdir : (t.node ip).type = T_DIR
      · rw [if_neg (not_not_intro hdir)]
        by_cases hparent : parent = true ∧ rest = []
        · rw [if_pos hparent, if_pos hparent.1, hlast.1 hparent.2, walkParent_one, if_pos hdir]
        · rw [if_neg hparent]
          have hmore : parent = true → components rest ≠ [] := fun hp hc => hparent ⟨hp, hlast.2 hc⟩
          have hlookup : Names.dirlookup t ip name = .ok (lookup t ip name) := by
            unfold Names.dirlookup lookup
            rw [if_neg (not_not_intro hdir), if_pos hdir]
          rw [hlookup]
          have hstep : (if parent = true then walkParent t ip (name :: components rest)
              else (walk t ip (name :: components rest)).map fun n => (n, [])) = (lookup t ip name).bind fun next =>
                if parent = true then walkParent t next (components rest)
                else (walk t next (components rest)).map fun n => (n, []) := by
            cases parent with
            | true => exact walkParent_cons (hmore rfl)
            | false =>
              rw [if_neg Bool.noConfusion, walk_cons, Option.map_bind]
              rfl
          rw [hstep]
          cases hnext : lookup t ip name with
          | none => rfl
          | some next =>
            obtain ⟨de, hfind, rfl⟩ : ∃ de, (t.node ip).entries.find? (fits name) = some de ∧ de.inum.toNat = next := by
              unfold lookup at hnext
              rw [if_pos hdir] at hnext
              exact Option.map_eq_some_iff.1 hnext
            have hde : de.inum ≠ 0 := (of_decide_eq_true (List.find?_some hfind :)).1
            exact ih (by omega) (hwf.entries ip hdir de (List.mem_of_find?_eq_some hfind) hde).1
      · rw [if_pos hdir]
        cases parent with
        | true =>
          by_cases hrest : components rest = []
          · rw [hrest, if_pos rfl, walkParent_one, if_neg hdir]
          · rw [if_pos rfl, walkParent_cons hrest, lookup_notDir hdir]
            rfl
        | false =>
          rw [if_neg Bool.noConfusion, walk_cons, lookup_notDir hdir]
          rfl

/-- **The lookups of `open`, `link`, `unlink` and `mkdir`** are walks, and never panic in a well-formed tree. -/
theorem names_walk (hwf : WellFormed t) {cwd : Nat} (hcwd : (t.node cwd).type ≠ 0) (path : List UInt8) :
    let start := if path.headD 0 = slash then ROOTINO else cwd
    Names.namei t cwd path = .ok ((walk t start (components path)).map fun n => (n, [])) ∧
      Names.nameiparent t cwd path = .ok (walkParent t start (components path)) := by
  have htype : (t.node (if path.headD 0 = slash then ROOTINO else cwd)).type ≠ 0 := by
    split
    · exact hwf.root.1
    · exact hcwd
  exact ⟨names_namexFrom hwf false _ (Nat.lt_succ_self path.length) htype,
    names_namexFrom hwf true _ (Nat.lt_succ_self path.length) htype⟩

end Names

end NewXv6.Fs.Lookup
