import NewXv6.Lib.Blind
import NewXv6.Fs.Model

/-!
# Inside a transaction

Between `begin_op` and `end_op` the functions of `fs.c` reach the disk through `log_write` only. So what `log_write` does not
see, none of them sees: one lemma for each function, for any hidden change of the log layer (`Veil`). Two changes are used
later: nothing at all, and another operation that has begun.
-/

namespace NewXv6

open Lib

/-- A change of the log layer that neither the contents of sectors nor `log_write` shows. -/
structure Veil (H : Hidden LogState Event) : Prop where
  view : ∀ s, (H.change s).view = s.view
  logWrite : ∀ x data, Blind H (logWrite x data)
  balloc : ∀ v b, H.event (.balloc v b)
  itrunc : ∀ v d, H.event (.itrunc v d)

/-- The change of the log layer under the inode cache. -/
def Lib.Hidden.fs (H : Hidden LogState Event) : Hidden FsState Event where
  holds s := H.holds s.io
  change s := { s with io := H.change s.io }
  event := H.event

section

variable {H : Hidden LogState Event} {α : Type}

theorem panic_blind {σ : Type} {H : Hidden σ Event} (p : Panic) : Blind H (panic p : Kern σ α) := Blind.throw _

theorem log_blind {m : Kern LogState α} (hm : Blind H m) : Blind H.fs (liftM m : Kern FsState α) := by
  refine Blind.zoom ?_ ?_ ?_ ?_ ?_ hm
  · exact fun _ h => h
  · exact fun _ _ h _ => h
  · exact fun _ h => h
  · exact fun _ => rfl
  · exact fun _ _ => rfl

/-! ## Blocks -/

theorem bread_blind (hview : ∀ s, (H.change s).view = s.view) (x : Nat) : Blind H (bread x) :=
  Blind.get (fun s => by rw [hview s]) fun _ => Blind.pure _

theorem Veil.bread (h : Veil H) (x : Nat) : Blind H (bread x) := bread_blind h.view x

theorem Veil.readsb (h : Veil H) : Blind H readsb := (h.bread 1).bind fun _ => Blind.pure _

theorem Veil.ballocFrom (h : Veil H) (sb : Superblock) (bs : List Nat) : Blind H (ballocFrom sb bs) := by
  induction bs with
  | nil => exact panic_blind _
  | cons b bs ih =>
    refine (h.bread _).bind fun bp => ?_
    cases findFree sb b bp with
    | none => exact ih
    | some bi =>
      refine Blind.get (fun s => by rw [h.view s]) fun s => ?_
      refine (Blind.emit (h.balloc _ _)).bind fun _ => (h.logWrite _ _).bind fun _ => ?_
      exact (h.logWrite _ _).bind fun _ => Blind.pure _

theorem Veil.balloc_blind (h : Veil H) : Blind H NewXv6.balloc := h.readsb.bind fun sb => h.ballocFrom sb _

theorem Veil.bfree (h : Veil H) (b : UInt32) : Blind H (bfree b) := by
  refine h.readsb.bind fun sb => (h.bread _).bind fun bp => ?_
  exact Blind.ite (fun _ => h.logWrite _ _) fun _ => panic_blind _

/-! ## Inodes -/

theorem inode_blind (ip : Slot) : Blind H.fs (inode ip) := Blind.get (fun _ => rfl) fun _ => Blind.pure _

theorem setInode_blind (ip : Slot) (f : Inode → Inode) : Blind H.fs (setInode ip f) :=
  Blind.modify (fun _ hs => hs) fun _ => rfl

theorem setDinode_blind (ip : Slot) (f : Dinode → Dinode) : Blind H.fs (setDinode ip f) := setInode_blind ip _

theorem iget_blind (inum : Nat) : Blind H.fs (iget inum) := by
  refine Blind.get (fun _ => rfl) fun s => ?_
  cases List.find? (fun ip => decide (0 < (s.icache ip).ref) && decide ((s.icache ip).inum = inum))
      (List.finRange NINODE) with
  | some ip => exact (setInode_blind ip _).bind fun _ => Blind.pure _
  | none =>
    cases List.find? (fun ip => decide ((s.icache ip).ref = 0)) (List.finRange NINODE) with
    | none => exact panic_blind _
    | some ip => exact (setInode_blind ip _).bind fun _ => Blind.pure _

theorem Veil.iallocFrom (h : Veil H) (type : Int16) (inums : List Nat) : Blind H.fs (iallocFrom type inums) := by
  induction inums with
  | nil => exact panic_blind _
  | cons inum inums ih =>
    refine (log_blind (h.bread _)).bind fun bp => Blind.ite (fun _ => ?_) fun _ => ih
    exact (log_blind (h.logWrite _ _)).bind fun _ => iget_blind inum

theorem Veil.ialloc (h : Veil H) (type : Int16) : Blind H.fs (ialloc type) :=
  (log_blind h.readsb).bind fun _ => h.iallocFrom type _

theorem Veil.iupdate (h : Veil H) (ip : Slot) : Blind H.fs (iupdate ip) :=
  (inode_blind ip).bind fun _ => (log_blind (h.bread _)).bind fun _ => log_blind (h.logWrite _ _)

theorem idup_blind (ip : Slot) : Blind H.fs (idup ip) := (setInode_blind ip _).bind fun _ => Blind.pure _

/-- `ilock` reads the disk, and writes nothing. -/
theorem ilock_blind (hview : ∀ s, (H.change s).view = s.view) (ip : Slot) : Blind H.fs (ilock ip) := by
  refine (inode_blind ip).bind fun i => Blind.ite (fun _ => panic_blind _) fun _ => ?_
  refine Blind.ite (fun _ => Blind.throw _) fun _ => (setInode_blind ip _).bind fun _ => ?_
  refine Blind.ite (fun _ => Blind.pure _) fun _ => (log_blind (bread_blind hview _)).bind fun bp => ?_
  refine (setInode_blind ip _).bind fun _ => ?_
  exact Blind.ite (fun _ => panic_blind _) fun _ => Blind.pure _

theorem Veil.ilock (h : Veil H) (ip : Slot) : Blind H.fs (ilock ip) := ilock_blind h.view ip

theorem iunlock_blind (ip : Slot) : Blind H.fs (iunlock ip) :=
  (inode_blind ip).bind fun _ => Blind.ite (fun _ => panic_blind _) fun _ => setInode_blind ip _

theorem Veil.freeAddr (h : Veil H) (ip : Slot) (j : Fin (NDIRECT + 1)) : Blind H.fs (freeAddr ip j) :=
  (inode_blind ip).bind fun _ => (log_blind (h.bfree _)).bind fun _ => setDinode_blind ip _

theorem Veil.itrunc_blind (h : Veil H) (ip : Slot) : Blind H.fs (NewXv6.itrunc ip) := by
  have hend : Blind H.fs (do
      setDinode ip fun d => { d with size := 0 }
      NewXv6.iupdate ip) := (setDinode_blind ip _).bind fun _ => h.iupdate ip
  refine (inode_blind ip).bind fun i => Blind.get (fun s => ?_) fun s => ?_
  · have hview : (H.fs.change s).view = s.view := h.view s.io
    rw [hview]
  refine (Blind.emit (H := H.fs) (h.itrunc _ _)).bind fun _ => (Blind.forEach (fun j => ?_) _).bind fun _ => ?_
  · exact (inode_blind ip).bind fun _ => Blind.ite (fun _ => h.freeAddr ip _) fun _ => Blind.pure _
  · refine (inode_blind ip).bind fun i => ?_
    dsimp only
    refine Blind.ite (fun _ => (log_blind (h.bread _)).bind fun bp => ?_) fun _ => hend
    refine (Blind.forEach (fun j => ?_) _).bind fun _ => (h.freeAddr ip _).bind fun _ => hend
    exact Blind.ite (fun _ => log_blind (h.bfree _)) fun _ => Blind.pure _

theorem Veil.iput (h : Veil H) (ip : Slot) : Blind H.fs (iput ip) := by
  have hend : Blind H.fs (setInode ip fun i => { i with ref := i.ref - 1 }) := setInode_blind ip _
  refine (inode_blind ip).bind fun i => ?_
  dsimp only
  refine Blind.ite (fun _ => Blind.ite (fun _ => (panic_blind _).bind fun _ => hend) fun _ => ?_) fun _ => hend
  refine (setInode_blind ip _).bind fun _ => (h.itrunc_blind ip).bind fun _ => ?_
  refine (setDinode_blind ip _).bind fun _ => (h.iupdate ip).bind fun _ => ?_
  exact (setInode_blind ip _).bind fun _ => hend

theorem Veil.iunlockput (h : Veil H) (ip : Slot) : Blind H.fs (iunlockput ip) :=
  (iunlock_blind ip).bind fun _ => h.iput ip

/-! ## Contents -/

theorem Veil.inodeAddr (h : Veil H) (ip : Slot) (j : Fin (NDIRECT + 1)) : Blind H.fs (inodeAddr ip j) := by
  refine (inode_blind ip).bind fun _ => Blind.ite (fun _ => ?_) fun _ => Blind.pure _
  exact (log_blind h.balloc_blind).bind fun _ => (setDinode_blind ip _).bind fun _ => Blind.pure _

theorem Veil.indexAddr (h : Veil H) (addr : UInt32) (k : Nat) : Blind H.fs (indexAddr addr k) := by
  refine (log_blind (h.bread _)).bind fun _ => Blind.ite (fun _ => ?_) fun _ => Blind.pure _
  exact (log_blind h.balloc_blind).bind fun _ => (log_blind (h.logWrite _ _)).bind fun _ => Blind.pure _

theorem Veil.bmap (h : Veil H) (ip : Slot) (bn : Nat) : Blind H.fs (bmap ip bn) := by
  unfold NewXv6.bmap
  split
  · exact h.inodeAddr ip _
  · refine Blind.ite (fun _ => (h.inodeAddr ip _).bind fun _ => ?_) fun _ => panic_blind _
    exact (h.indexAddr _ _).bind fun _ => (h.indexAddr _ _).bind fun _ => h.indexAddr _ _

theorem Veil.readFrom (h : Veil H) (ip : Slot) (fuel off n : Nat) : Blind H.fs (readFrom ip fuel off n) := by
  induction fuel generalizing off n with
  | zero => exact Blind.pure _
  | succ fuel ih =>
    refine Blind.ite (fun _ => Blind.pure _) fun _ => (h.bmap ip _).bind fun _ => ?_
    exact (log_blind (h.bread _)).bind fun _ => (ih _ _).bind fun _ => Blind.pure _

variable (devsw : Nat → Option Devsw)

theorem Veil.readi (h : Veil H) (ip : Slot) (off n : UInt32) : Blind H.fs (readi devsw ip off n) := by
  refine (inode_blind ip).bind fun i => Blind.ite (fun _ => Blind.ite (fun _ => Blind.pure _) fun _ => ?_) fun _ => ?_
  · cases (devsw i.dinode.major.toInt.toNat).bind Devsw.read with
    | none => exact Blind.pure _
    | some read => exact Blind.pure _
  · exact Blind.ite (fun _ => Blind.pure _) fun _ => (h.readFrom ip _ _ _).bind fun _ => Blind.pure _

theorem Veil.writeFrom (h : Veil H) (ip : Slot) (fuel off : Nat) (src : List UInt8) :
    Blind H.fs (writeFrom ip fuel off src) := by
  induction fuel generalizing off src with
  | zero => exact Blind.pure _
  | succ fuel ih =>
    refine Blind.ite (fun _ => Blind.pure _) fun _ => (h.bmap ip _).bind fun _ => ?_
    exact (log_blind (h.bread _)).bind fun _ => (log_blind (h.logWrite _ _)).bind fun _ => ih _ _

theorem Veil.writei (h : Veil H) (ip : Slot) (src : List UInt8) (off : UInt32) : Blind H.fs (writei devsw ip src off) := by
  refine (inode_blind ip).bind fun i => Blind.ite (fun _ => Blind.ite (fun _ => Blind.pure _) fun _ => ?_) fun _ => ?_
  · cases (devsw i.dinode.major.toInt.toNat).bind Devsw.write with
    | none => exact Blind.pure _
    | some write => exact Blind.pure _
  · refine Blind.ite (fun _ => Blind.pure _) fun _ => Blind.ite (fun _ => Blind.pure _) fun _ => ?_
    refine (h.writeFrom ip _ _ _).bind fun _ => (inode_blind ip).bind fun i => ?_
    dsimp only
    refine Blind.ite (fun _ => ?_) fun _ => Blind.pure _
    exact (setDinode_blind ip _).bind fun _ => (h.iupdate ip).bind fun _ => Blind.pure _

/-! ## Directories -/

theorem Veil.readEntry (h : Veil H) (p : Panic) (dp : Slot) (off : Nat) : Blind H.fs (readEntry devsw p dp off) := by
  refine (h.readi devsw dp _ _).bind fun r => ?_
  cases r with
  | none => exact panic_blind _
  | some data => exact Blind.ite (fun _ => Blind.pure _) fun _ => panic_blind _

theorem Veil.dirlookupFrom (h : Veil H) (dp : Slot) (name : List UInt8) (fuel off : Nat) :
    Blind H.fs (dirlookupFrom devsw dp name fuel off) := by
  induction fuel generalizing off with
  | zero => exact Blind.pure _
  | succ fuel ih =>
    refine (inode_blind dp).bind fun i => Blind.ite (fun _ => ?_) fun _ => Blind.pure _
    refine (h.readEntry devsw _ dp off).bind fun de => Blind.ite (fun _ => ?_) fun _ => ih _
    exact (iget_blind _).bind fun _ => Blind.pure _

theorem Veil.dirlookup (h : Veil H) (dp : Slot) (name : List UInt8) : Blind H.fs (dirlookup devsw dp name) :=
  (inode_blind dp).bind fun _ => Blind.ite (fun _ => panic_blind _) fun _ => h.dirlookupFrom devsw dp name _ _

theorem Veil.emptyFrom (h : Veil H) (dp : Slot) (fuel off : Nat) : Blind H.fs (emptyFrom devsw dp fuel off) := by
  induction fuel generalizing off with
  | zero => exact Blind.pure _
  | succ fuel ih =>
    refine (inode_blind dp).bind fun i => Blind.ite (fun _ => ?_) fun _ => Blind.pure _
    exact (h.readEntry devsw _ dp off).bind fun de => Blind.ite (fun _ => Blind.pure _) fun _ => ih _

theorem Veil.dirlink (h : Veil H) (dp : Slot) (name : List UInt8) (inum : Nat) :
    Blind H.fs (dirlink devsw dp name inum) := by
  refine (h.dirlookup devsw dp name).bind fun r => ?_
  cases r with
  | some e => exact (h.iput e.1).bind fun _ => Blind.pure _
  | none =>
    refine (inode_blind dp).bind fun i => (h.emptyFrom devsw dp _ _).bind fun off => ?_
    refine (h.writei devsw dp _ _).bind fun n => ?_
    exact Blind.ite (fun _ => panic_blind _) fun _ => Blind.pure _

/-! ## Paths -/

theorem Veil.namexFrom (h : Veil H) (nameiparent : Bool) (fuel : Nat) (ip : Slot) (path : List UInt8) :
    Blind H.fs (namexFrom devsw nameiparent fuel ip path) := by
  induction fuel generalizing ip path with
  | zero => exact Blind.throw _
  | succ fuel ih =>
    rw [NewXv6.namexFrom]
    cases skipelem path with
    | none => exact Blind.ite (fun _ => (h.iput ip).bind fun _ => Blind.pure _) fun _ => Blind.pure _
    | some e =>
      have hput : Blind H.fs (do
          NewXv6.iunlockput ip
          return none : Kern FsState (Option (Slot × List UInt8))) := (h.iunlockput ip).bind fun _ => Blind.pure _
      refine (h.ilock ip).bind fun _ => (inode_blind ip).bind fun i => Blind.ite (fun _ => hput) fun _ => ?_
      refine Blind.ite (fun _ => (iunlock_blind ip).bind fun _ => Blind.pure _) fun _ => ?_
      refine (h.dirlookup devsw ip e.1).bind fun r => ?_
      cases r with
      | none => exact hput
      | some next => exact (h.iunlockput ip).bind fun _ => ih next.1 e.2

theorem Veil.namex (h : Veil H) (cwd : Slot) (path : List UInt8) (nameiparent : Bool) :
    Blind H.fs (namex devsw cwd path nameiparent) := by
  rw [NewXv6.namex]
  refine Blind.ite (fun _ => ?_) fun _ => ?_
  · exact (iget_blind ROOTINO).bind fun ip => h.namexFrom devsw nameiparent _ ip path
  · exact (idup_blind cwd).bind fun ip => h.namexFrom devsw nameiparent _ ip path

theorem Veil.namei (h : Veil H) (cwd : Slot) (path : List UInt8) : Blind H.fs (namei devsw cwd path) :=
  (h.namex devsw cwd path false).bind fun _ => Blind.pure _

theorem Veil.nameiparent (h : Veil H) (cwd : Slot) (path : List UInt8) : Blind H.fs (nameiparent devsw cwd path) :=
  h.namex devsw cwd path true

end

end NewXv6
