import NewXv6.Lib.Adds
import NewXv6.Lib.Count
import NewXv6.Fs.Model
import Mathlib.Algebra.Group.Pi.Lemmas

/-!
# References to cached inodes

What the functions of `fs.c` add to the reference counts of the inode cache, whatever the disk holds: one lemma for each
function. A function that returns an inode adds a reference to it, `iput` drops one, and the others change no count.
-/

namespace NewXv6

open Lib

/-- The reference counts of the inode cache. -/
def refMeter : Meter FsState (Slot → Int) Unit where
  value s := fun ip => (s.icache ip).ref
  kept _ := ()

/-- One reference. -/
def one (ip : Slot) : Slot → Int := Pi.single ip 1

section

variable {α : Type} {δ : α → Slot → Int}

/-- The log layer does not know of the inode cache. -/
theorem log_adds (m : Kern LogState α) : Adds refMeter (liftM m : Kern FsState α) fun _ => 0 := by
  refine Adds.zoom_other ?_ ?_ m
  · exact fun _ _ => rfl
  · exact fun _ _ => rfl

theorem panic_adds (p : Panic) : Adds refMeter (panic p : Kern FsState α) δ := Adds.throw

theorem inode_adds (ip : Slot) : Adds refMeter (inode ip) fun _ => 0 := Adds.get _ fun _ => Adds.pure rfl

theorem setInode_adds {ip : Slot} {f : Inode → Inode} {n : Int} (h : ∀ i, (f i).ref = i.ref + n) :
    Adds refMeter (setInode ip f) fun _ => Pi.single ip n := by
  refine Adds.modify (fun s => funext fun jp => ?_) fun _ => rfl
  by_cases hj : jp = ip
  · subst hj
    simp [refMeter, h]
  · simp [refMeter, hj]

/-- A change of the other fields. -/
theorem setFields_adds {ip : Slot} {f : Inode → Inode} (h : ∀ i, (f i).ref = i.ref) :
    Adds refMeter (setInode ip f) fun _ => 0 := by
  refine (setInode_adds (n := 0) fun i => by rw [h, add_zero]).congr fun _ => ?_
  exact Pi.single_zero ip

theorem setDinode_adds (ip : Slot) (f : Dinode → Dinode) : Adds refMeter (setDinode ip f) fun _ => 0 :=
  setFields_adds fun _ => rfl

end

/-! ## Inodes -/

theorem iget_adds (inum : Nat) : Adds refMeter (iget inum) one := by
  intro s
  rw [iget, wp_bind, wp_get]
  cases List.find? (fun ip => decide (0 < (s.icache ip).ref) && decide ((s.icache ip).inum = inum))
      (List.finRange NINODE) with
  | some ip =>
    refine (Adds.bind (setInode_adds (n := 1) fun _ => rfl) fun _ => Adds.pure ?_) s
    exact sub_self _
  | none =>
    generalize hfind : List.find? _ _ = r
    cases r with
    | none => exact panic_adds _ s
    | some ip =>
      -- an entry that is recycled has no references
      have hzero : (s.icache ip).ref = 0 := by simpa using List.find?_some hfind
      dsimp only
      rw [setInode, wp_bind, wp_modify, wp_pure]
      refine ⟨funext fun jp => ?_, rfl⟩
      by_cases hj : jp = ip
      · subst hj
        simp [refMeter, one, hzero]
      · simp [refMeter, one, hj]

theorem iallocFrom_adds (type : Int16) (inums : List Nat) : Adds refMeter (iallocFrom type inums) one := by
  induction inums with
  | nil => exact panic_adds _
  | cons inum inums ih =>
    rw [iallocFrom]
    refine Adds.seq (log_adds _) fun bp => Adds.ite (fun _ => ?_) fun _ => ih
    exact Adds.seq (log_adds _) fun _ => iget_adds inum

theorem ialloc_adds (type : Int16) : Adds refMeter (ialloc type) one :=
  Adds.seq (log_adds _) fun _ => iallocFrom_adds type _

theorem iupdate_adds (ip : Slot) : Adds refMeter (iupdate ip) fun _ => 0 :=
  Adds.seq (inode_adds ip) fun _ => Adds.seq (log_adds _) fun _ => log_adds _

theorem idup_adds (ip : Slot) : Adds refMeter (idup ip) one := by
  refine Adds.bind (setInode_adds (n := 1) fun _ => rfl) fun _ => Adds.pure ?_
  exact sub_self _

theorem ilock_adds (ip : Slot) : Adds refMeter (ilock ip) fun _ => 0 := by
  refine Adds.seq (inode_adds ip) fun i => Adds.ite (fun _ => panic_adds _) fun _ => ?_
  refine Adds.ite (fun _ => Adds.throw) fun _ => Adds.seq (setFields_adds fun _ => rfl) fun _ => ?_
  refine Adds.ite (fun _ => Adds.pure rfl) fun _ => Adds.seq (log_adds _) fun bp => ?_
  refine Adds.seq (setFields_adds fun _ => rfl) fun _ => ?_
  exact Adds.ite (fun _ => panic_adds _) fun _ => Adds.pure rfl

theorem iunlock_adds (ip : Slot) : Adds refMeter (iunlock ip) fun _ => 0 :=
  Adds.seq (inode_adds ip) fun _ => Adds.ite (fun _ => panic_adds _) fun _ => setFields_adds fun _ => rfl

theorem freeAddr_adds (ip : Slot) (j : Fin (NDIRECT + 1)) : Adds refMeter (freeAddr ip j) fun _ => 0 :=
  Adds.seq (inode_adds ip) fun _ => Adds.seq (log_adds _) fun _ => setDinode_adds ip _

theorem itrunc_adds (ip : Slot) : Adds refMeter (itrunc ip) fun _ => 0 := by
  have hend : Adds refMeter (do
      setDinode ip fun d => { d with size := 0 }
      iupdate ip) fun _ => 0 := Adds.seq (setDinode_adds ip _) fun _ => iupdate_adds ip
  refine Adds.seq (inode_adds ip) fun _ => Adds.get _ fun _ => Adds.seq (Adds.emit _) fun _ => ?_
  refine Adds.seq (Adds.forEach (fun j => ?_) _) fun _ => Adds.seq (inode_adds ip) fun i => ?_
  · exact Adds.seq (inode_adds ip) fun _ => Adds.ite (fun _ => freeAddr_adds ip _) fun _ => Adds.pure rfl
  · dsimp only
    refine Adds.ite (fun _ => Adds.seq (log_adds _) fun bp => ?_) fun _ => hend
    refine Adds.seq (Adds.forEach (fun j => ?_) _) fun _ => Adds.seq (freeAddr_adds ip _) fun _ => hend
    exact Adds.ite (fun _ => log_adds _) fun _ => Adds.pure rfl

theorem iput_adds (ip : Slot) : Adds refMeter (iput ip) fun _ => -one ip := by
  have hend : Adds refMeter (setInode ip fun i => { i with ref := i.ref - 1 }) fun _ => -one ip :=
    (setInode_adds (n := -1) fun _ => rfl).congr fun _ => Pi.single_neg ip 1
  refine Adds.seq (inode_adds ip) fun i => ?_
  dsimp only
  refine Adds.ite (fun _ => Adds.ite (fun _ => Adds.seq (panic_adds _) fun _ => hend) fun _ => ?_) fun _ => hend
  refine Adds.seq (setFields_adds fun _ => rfl) fun _ => Adds.seq (itrunc_adds ip) fun _ => ?_
  refine Adds.seq (setDinode_adds ip _) fun _ => Adds.seq (iupdate_adds ip) fun _ => ?_
  exact Adds.seq (setFields_adds fun _ => rfl) fun _ => hend

theorem iunlockput_adds (ip : Slot) : Adds refMeter (iunlockput ip) fun _ => -one ip :=
  Adds.seq (iunlock_adds ip) fun _ => iput_adds ip

/-! ## Contents -/

theorem inodeAddr_adds (ip : Slot) (j : Fin (NDIRECT + 1)) : Adds refMeter (inodeAddr ip j) fun _ => 0 := by
  refine Adds.seq (inode_adds ip) fun _ => Adds.ite (fun _ => ?_) fun _ => Adds.pure rfl
  exact Adds.seq (log_adds _) fun _ => Adds.seq (setDinode_adds ip _) fun _ => Adds.pure rfl

theorem indexAddr_adds (addr : UInt32) (k : Nat) : Adds refMeter (indexAddr addr k) fun _ => 0 := by
  refine Adds.seq (log_adds _) fun _ => Adds.ite (fun _ => ?_) fun _ => Adds.pure rfl
  exact Adds.seq (log_adds _) fun _ => Adds.seq (log_adds _) fun _ => Adds.pure rfl

theorem bmap_adds (ip : Slot) (bn : Nat) : Adds refMeter (bmap ip bn) fun _ => 0 := by
  unfold bmap
  split
  · exact inodeAddr_adds ip _
  · refine Adds.ite (fun _ => Adds.seq (inodeAddr_adds ip _) fun _ => ?_) fun _ => panic_adds _
    exact Adds.seq (indexAddr_adds _ _) fun _ => Adds.seq (indexAddr_adds _ _) fun _ => indexAddr_adds _ _

theorem readFrom_adds (ip : Slot) (fuel off n : Nat) : Adds refMeter (readFrom ip fuel off n) fun _ => 0 := by
  induction fuel generalizing off n with
  | zero => exact Adds.pure rfl
  | succ fuel ih =>
    refine Adds.ite (fun _ => Adds.pure rfl) fun _ => Adds.seq (bmap_adds ip _) fun _ => ?_
    exact Adds.seq (log_adds _) fun _ => Adds.seq (ih _ _) fun _ => Adds.pure rfl

section

variable (devsw : Nat → Option Devsw)

theorem readi_adds (ip : Slot) (off n : UInt32) : Adds refMeter (readi devsw ip off n) fun _ => 0 := by
  refine Adds.seq (inode_adds ip) fun i => Adds.ite (fun _ => Adds.ite (fun _ => Adds.pure rfl) fun _ => ?_) fun _ => ?_
  · cases (devsw i.dinode.major.toInt.toNat).bind Devsw.read with
    | none => exact Adds.pure rfl
    | some read => exact Adds.pure rfl
  · refine Adds.ite (fun _ => Adds.pure rfl) fun _ => ?_
    exact Adds.seq (readFrom_adds ip _ _ _) fun _ => Adds.pure rfl

theorem writeFrom_adds (ip : Slot) (fuel off : Nat) (src : List UInt8) :
    Adds refMeter (writeFrom ip fuel off src) fun _ => 0 := by
  induction fuel generalizing off src with
  | zero => exact Adds.pure rfl
  | succ fuel ih =>
    refine Adds.ite (fun _ => Adds.pure rfl) fun _ => Adds.seq (bmap_adds ip _) fun _ => ?_
    exact Adds.seq (log_adds _) fun _ => Adds.seq (log_adds _) fun _ => ih _ _

theorem writei_adds (ip : Slot) (src : List UInt8) (off : UInt32) :
    Adds refMeter (writei devsw ip src off) fun _ => 0 := by
  refine Adds.seq (inode_adds ip) fun i => Adds.ite (fun _ => Adds.ite (fun _ => Adds.pure rfl) fun _ => ?_) fun _ => ?_
  · cases (devsw i.dinode.major.toInt.toNat).bind Devsw.write with
    | none => exact Adds.pure rfl
    | some write => exact Adds.pure rfl
  · refine Adds.ite (fun _ => Adds.pure rfl) fun _ => Adds.ite (fun _ => Adds.pure rfl) fun _ => ?_
    refine Adds.seq (writeFrom_adds ip _ _ _) fun _ => Adds.seq (inode_adds ip) fun i => ?_
    dsimp only
    refine Adds.ite (fun _ => ?_) fun _ => Adds.pure rfl
    exact Adds.seq (setDinode_adds ip _) fun _ => Adds.seq (iupdate_adds ip) fun _ => Adds.pure rfl

/-! ## Directories -/

theorem readEntry_adds (p : Panic) (dp : Slot) (off : Nat) : Adds refMeter (readEntry devsw p dp off) fun _ => 0 := by
  refine Adds.seq (readi_adds devsw dp _ _) fun r => ?_
  cases r with
  | none => exact panic_adds _
  | some data => exact Adds.ite (fun _ => Adds.pure rfl) fun _ => panic_adds _

theorem dirlookupFrom_adds (dp : Slot) (name : List UInt8) (fuel off : Nat) :
    Adds refMeter (dirlookupFrom devsw dp name fuel off) fun r => held (r.map Prod.fst) := by
  induction fuel generalizing off with
  | zero => exact Adds.pure rfl
  | succ fuel ih =>
    refine Adds.seq (inode_adds dp) fun i => Adds.ite (fun _ => ?_) fun _ => Adds.pure rfl
    refine Adds.seq (readEntry_adds devsw _ dp off) fun de => Adds.ite (fun _ => ?_) fun _ => ih _
    refine Adds.bind (iget_adds _) fun ip => Adds.pure ?_
    exact sub_self _

theorem dirlookup_adds (dp : Slot) (name : List UInt8) :
    Adds refMeter (dirlookup devsw dp name) fun r => held (r.map Prod.fst) :=
  Adds.seq (inode_adds dp) fun _ => Adds.ite (fun _ => panic_adds _) fun _ => dirlookupFrom_adds devsw dp name _ _

theorem emptyFrom_adds (dp : Slot) (fuel off : Nat) : Adds refMeter (emptyFrom devsw dp fuel off) fun _ => 0 := by
  induction fuel generalizing off with
  | zero => exact Adds.pure rfl
  | succ fuel ih =>
    refine Adds.seq (inode_adds dp) fun i => Adds.ite (fun _ => ?_) fun _ => Adds.pure rfl
    exact Adds.seq (readEntry_adds devsw _ dp off) fun de => Adds.ite (fun _ => Adds.pure rfl) fun _ => ih _

/-- `dirlink` drops the reference that `dirlookup` returned. -/
theorem dirlink_adds (dp : Slot) (name : List UInt8) (inum : Nat) :
    Adds refMeter (dirlink devsw dp name inum) fun _ => 0 := by
  refine Adds.bind (dirlookup_adds devsw dp name) fun r => ?_
  cases r with
  | some e =>
    refine Adds.bind (iput_adds e.1) fun _ => Adds.pure ?_
    show (0 : Slot → Int) - one e.1 - -one e.1 = 0
    abel
  | none =>
    refine (Adds.congr (δ := fun _ => 0) ?_ fun _ => (sub_zero _).symm)
    refine Adds.seq (inode_adds dp) fun i => Adds.seq (emptyFrom_adds devsw dp _ _) fun off => ?_
    refine Adds.seq (writei_adds devsw dp _ _) fun n => ?_
    exact Adds.ite (fun _ => panic_adds _) fun _ => Adds.pure rfl

/-! ## Paths -/

/-- `namex` gives its reference to `ip` up for the one it returns. -/
theorem namexFrom_adds (nameiparent : Bool) (fuel : Nat) (ip : Slot) (path : List UInt8) :
    Adds refMeter (namexFrom devsw nameiparent fuel ip path) fun r => held (r.map Prod.fst) - one ip := by
  induction fuel generalizing ip path with
  | zero => exact Adds.throw
  | succ fuel ih =>
    -- nothing is found
    have hput : Adds refMeter (do
        iunlockput ip
        return none : Kern FsState (Option (Slot × List UInt8))) fun r => held (r.map Prod.fst) - one ip := by
      refine Adds.bind (iunlockput_adds ip) fun _ => Adds.pure ?_
      show (0 : Slot → Int) - one ip - -one ip = 0
      abel
    rw [namexFrom]
    cases skipelem path with
    | none =>
      refine Adds.ite (fun _ => Adds.bind (iput_adds ip) fun _ => Adds.pure ?_) fun _ => Adds.pure (sub_self _)
      show (0 : Slot → Int) - one ip - -one ip = 0
      abel
    | some e =>
      refine Adds.seq (ilock_adds ip) fun _ => Adds.seq (inode_adds ip) fun i => Adds.ite (fun _ => hput) fun _ => ?_
      refine Adds.ite (fun _ => Adds.seq (iunlock_adds ip) fun _ => Adds.pure (sub_self _)) fun _ => ?_
      refine Adds.bind (dirlookup_adds devsw ip e.1) fun r => ?_
      cases r with
      | none => exact hput.congr fun _ => (sub_zero _).symm
      | some next =>
        refine Adds.bind (iunlockput_adds ip) fun _ => (ih next.1 e.2).congr fun r => ?_
        show _ = held (r.map Prod.fst) - one ip - one next.1 - -one ip
        abel

theorem namex_adds (cwd : Slot) (path : List UInt8) (nameiparent : Bool) :
    Adds refMeter (namex devsw cwd path nameiparent) fun r => held (r.map Prod.fst) := by
  rw [namex]
  refine Adds.ite (fun _ => ?_) fun _ => ?_
  · exact Adds.bind (iget_adds ROOTINO) fun ip => namexFrom_adds devsw nameiparent _ ip path
  · exact Adds.bind (idup_adds cwd) fun ip => namexFrom_adds devsw nameiparent _ ip path

theorem namei_adds (cwd : Slot) (path : List UInt8) : Adds refMeter (namei devsw cwd path) held :=
  Adds.bind (namex_adds devsw cwd path false) fun _ => Adds.pure (sub_self _)

theorem nameiparent_adds (cwd : Slot) (path : List UInt8) :
    Adds refMeter (nameiparent devsw cwd path) fun r => held (r.map Prod.fst) := namex_adds devsw cwd path true

end

end NewXv6
