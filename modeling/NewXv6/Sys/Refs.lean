import NewXv6.Sys.Blocks
import NewXv6.Fs.Refs

/-!
# Reference counts

`RefsExact` holds between any two calls: the count of a file structure is the number of descriptors that point to it, and
the count of a cached inode is the number of pointers to it, which are the current directories and the open files. A call
that is under way holds references of its own: `Exact ε δ` says that the counts of the files are off by `ε` and those of
the inodes by `δ`. Nothing is asked of the disk, and calls that panic are left out of account.
-/

namespace NewXv6

open Lib

/-! ## Counts -/

namespace Sys

/-- The descriptors of all processes. -/
def descriptors (s : Sys) : Fin NPROC × Fin NOFILE → Option (Fin NFILE) := fun x => (s.proc x.1).bind fun p => p.ofile x.2

end Sys

/-- The counts are the numbers of descriptors and of pointers. -/
structure RefsExact (s : Sys) : Prop where
  file : ∀ f, (s.ftable f).ref = count s.descriptors f
  inode : ∀ ip, (s.fs.icache ip).ref = count s.pointers ip

/-- The counts are off by `ε` and `δ`; a file structure without references is free. -/
structure Exact (ε : Fin NFILE → Int) (δ : Slot → Int) (s : Sys) : Prop where
  file : ∀ f, (s.ftable f).ref = count s.descriptors f + ε f
  inode : ∀ ip, (s.fs.icache ip).ref = count s.pointers ip + δ ip
  free : ∀ f, (s.ftable f).type ≠ .none → 0 < (s.ftable f).ref

/-- The descriptors of an entry of the process table. -/
def rowOf (q : Option Proc) : Fin NOFILE → Option (Fin NFILE) := fun fd => q.bind fun p => p.ofile fd

/-- The inode a file structure points to. -/
def File.pointer (x : File) : Option Slot := if x.type = .inode then some x.ip else none

/-- One reference to a file structure. -/
def oneFile (f : Fin NFILE) : Fin NFILE → Int := Pi.single f 1

section

variable {ε ε' : Fin NFILE → Int} {δ δ' : Slot → Int} {s t : Sys} {f : Fin NFILE} {pid : Fin NPROC} {p : Proc}

theorem Exact.refsExact (h : Exact 0 0 s) : RefsExact s :=
  ⟨fun f => (h.file f).trans (add_zero _), fun ip => (h.inode ip).trans (add_zero _)⟩

theorem Exact.congr (h : Exact ε δ s) (hε : ε = ε') (hδ : δ = δ') : Exact ε' δ' s := by
  rw [← hε, ← hδ]
  exact h

/-- The entry of a process changes. -/
theorem Exact.setProc (h : Exact ε δ s) (pid : Fin NPROC) (q : Option Proc) :
    Exact (fun f => ε f + count (rowOf (s.proc pid)) f - count (rowOf q) f)
      (δ + held ((s.proc pid).map Proc.cwd) - held (q.map Proc.cwd))
      { s with proc := Function.update s.proc pid q } := by
  have hrow : ({ s with proc := Function.update s.proc pid q } : Sys).descriptors =
      fun z => Function.update (fun x => rowOf (s.proc x)) pid (rowOf q) z.1 z.2 := by
    funext z
    show rowOf (Function.update s.proc pid q z.1) z.2 = _
    by_cases hz : z.1 = pid
    · rw [hz, Function.update_self, Function.update_self]
    · rw [Function.update_of_ne hz, Function.update_of_ne hz]
  refine ⟨fun f => ?_, fun ip => ?_, h.free⟩
  · have hc := count_row (fun x => rowOf (s.proc x)) pid (rowOf q) f
    have hf : (s.ftable f).ref = count (fun z : Fin NPROC × Fin NOFILE => rowOf (s.proc z.1) z.2) f + ε f := h.file f
    rw [hrow, hc]
    show (s.ftable f).ref = _
    rw [hf]
    omega
  · rw [Sys.pointers_setProc, count_update]
    have hip := h.inode ip
    show (s.fs.icache ip).ref = _
    rw [hip]
    show _ = _ - held ((s.proc pid).map Proc.cwd) ip + _ + (δ ip + _ - _)
    omega

/-- A file structure changes. -/
theorem Exact.setFile (h : Exact ε δ s) (f : Fin NFILE) {x : File} (hx : x.type ≠ .none → 0 < x.ref) :
    Exact (ε + Pi.single f (x.ref - (s.ftable f).ref)) (δ + held (s.ftable f).pointer - held x.pointer)
      { s with ftable := Function.update s.ftable f x } := by
  have hptr : ({ s with ftable := Function.update s.ftable f x } : Sys).pointers =
      Function.update s.pointers (.inr f) x.pointer := by
    funext y
    cases y with
    | inl p => rfl
    | inr g =>
      by_cases hg : g = f
      · subst hg; simp [Sys.pointers, File.pointer]
      · simp [Sys.pointers, hg]
  refine ⟨fun g => ?_, fun ip => ?_, fun g hg => ?_⟩
  · have hf := h.file g
    show (Function.update s.ftable f x g).ref = count s.descriptors g + (ε g + _)
    by_cases hg : g = f
    · subst hg
      rw [Function.update_self, Pi.single_eq_same]
      omega
    · rw [Function.update_of_ne hg, Pi.single_eq_of_ne hg]
      omega
  · rw [hptr, count_update]
    have hip := h.inode ip
    show (s.fs.icache ip).ref = _
    rw [hip]
    show _ = _ - held (s.ftable f).pointer ip + _ + (δ ip + _ - _)
    omega
  · dsimp only at hg ⊢
    by_cases hgf : g = f
    · subst hgf
      rw [Function.update_self] at hg ⊢
      exact hx hg
    · rw [Function.update_of_ne hgf] at hg ⊢
      exact h.free g hg

/-- A file structure keeps what it is, and its pointer. -/
theorem Exact.setRef (h : Exact ε δ s) {x : File} {n : Int} (hn : x.ref = (s.ftable f).ref + n)
    (hp : x.pointer = (s.ftable f).pointer) (hx : x.type ≠ .none → 0 < x.ref) :
    Exact (ε + Pi.single f n) δ { s with ftable := Function.update s.ftable f x } := by
  refine (h.setFile f hx).congr ?_ ?_
  · rw [hn, add_sub_cancel_left]
  · rw [hp, add_sub_cancel_right]

theorem Exact.none_of_ref (h : Exact ε δ s) (hf : (s.ftable f).ref = 0) : (s.ftable f).type = .none := by
  by_contra hne
  have := h.free f hne
  omega

/-- The descriptors of a process change. -/
theorem Exact.setOfile (h : Exact ε δ s) (hp : s.proc pid = some p) (fd : Fin NOFILE) (o : Option (Fin NFILE)) :
    Exact (ε + held (p.ofile fd) - held o) δ
      { s with proc := Function.update s.proc pid (some { p with ofile := Function.update p.ofile fd o }) } := by
  refine (h.setProc pid _).congr ?_ ?_
  · funext g
    have hrow : rowOf (s.proc pid) = p.ofile := by rw [hp]; rfl
    have hrow' : rowOf (some { p with ofile := Function.update p.ofile fd o }) = Function.update p.ofile fd o := rfl
    rw [hrow, hrow', count_update]
    show _ = ε g + held (p.ofile fd) g - held o g
    omega
  · rw [hp]
    exact add_sub_cancel_right _ _

end

/-! ## Calls of the file system -/

/-- The reference counts of the inodes, with the processes and what counts of the file structures. -/
def sysMeter : Meter Sys (Slot → Int) ((Fin NPROC → Option Proc) × (Fin NFILE → FdType × Int × Slot)) where
  value s := fun ip => (s.fs.icache ip).ref
  kept s := (s.proc, fun f => ((s.ftable f).type, (s.ftable f).ref, (s.ftable f).ip))

section

variable {α : Type} {δ : α → Slot → Int} {s : Sys}

theorem fs_adds {m : Kern FsState α} (hm : Adds refMeter m δ) : Adds sysMeter (liftM m : Kern Sys α) δ := by
  refine Adds.zoom ?_ ?_ ?_ hm
  · exact fun _ => rfl
  · exact fun _ _ => rfl
  · exact fun _ _ => rfl

theorem sysLog_adds (m : Kern LogState α) : Adds sysMeter (liftM m : Kern Sys α) fun _ => 0 := fs_adds (log_adds m)

theorem file_adds (f : Fin NFILE) : Adds sysMeter (file f) fun _ => 0 := Adds.get _ fun _ => Adds.pure rfl

/-- A change of the offset. -/
theorem setOff_adds {f : Fin NFILE} {g : File → File} (h : ∀ x, (g x).type = x.type ∧ (g x).ref = x.ref ∧ (g x).ip = x.ip) :
    Adds sysMeter (setFile f g) fun _ => 0 := by
  refine Adds.modify (fun s => (add_zero _).symm) fun s => ?_
  refine Prod.ext rfl (funext fun k => ?_)
  show ((Function.update s.ftable f (g (s.ftable f)) k).type, (Function.update s.ftable f (g (s.ftable f)) k).ref,
    (Function.update s.ftable f (g (s.ftable f)) k).ip) = ((s.ftable k).type, (s.ftable k).ref, (s.ftable k).ip)
  by_cases hk : k = f
  · subst hk
    simp [h]
  · simp [hk]

/-- What the rest of a call may use of a part that changes no file structure. -/
theorem Exact.adds {ε : Fin NFILE → Int} {δ' : Slot → Int} (h : Exact ε δ' s) {m : Kern Sys α} (hm : Adds sysMeter m δ)
    {Q : α → Sys → Prop} (hQ : ∀ a t, Exact ε (δ' + δ a) t → t.proc = s.proc →
      (∀ f, (t.ftable f).type = (s.ftable f).type ∧ (t.ftable f).ref = (s.ftable f).ref) → Q a t) :
    Wp Contract.any m Q s := by
  refine (hm s).mono fun a t ht => ?_
  obtain ⟨hv, hk⟩ := ht
  have hproc : t.proc = s.proc := congrArg Prod.fst hk
  have hf : ∀ f, (t.ftable f).type = (s.ftable f).type ∧ (t.ftable f).ref = (s.ftable f).ref ∧
      (t.ftable f).ip = (s.ftable f).ip := fun f => by
    have := congrFun (congrArg Prod.snd hk) f
    exact ⟨congrArg Prod.fst this, congrArg (fun x => x.2.1) this, congrArg (fun x => x.2.2) this⟩
  refine hQ a t ⟨fun f => ?_, fun ip => ?_, fun f hne => ?_⟩ hproc fun f => ⟨(hf f).1, (hf f).2.1⟩
  · rw [(hf f).2.1, h.file f]
    unfold Sys.descriptors
    rw [hproc]
  · have hip : (t.fs.icache ip).ref = (s.fs.icache ip).ref + δ a ip := congrFun hv ip
    have hptr : t.pointers = s.pointers := by
      funext y
      cases y with
      | inl q =>
        unfold Sys.pointers
        rw [hproc]
      | inr g =>
        unfold Sys.pointers
        dsimp only
        rw [(hf g).1, (hf g).2.2]
    rw [hip, h.inode ip, hptr]
    show _ = _ + (δ' ip + δ a ip)
    omega
  · rw [(hf f).1] at hne
    rw [(hf f).2.1]
    exact h.free f hne

variable (devsw : Nat → Option Devsw)

/-! ### Functions that only use inodes -/

theorem filestat_adds (f : Fin NFILE) : Adds sysMeter (filestat f) fun _ => 0 := by
  refine Adds.seq (file_adds f) fun x => ?_
  cases hx : x.type with
  | none => exact Adds.pure rfl
  | pipe => exact Adds.pure rfl
  | inode =>
    refine Adds.seq (fs_adds (ilock_adds x.ip)) fun _ => Adds.seq (fs_adds ?_) fun st => ?_
    · exact Adds.seq (inode_adds x.ip) fun _ => Adds.pure rfl
    · exact Adds.seq (fs_adds (iunlock_adds x.ip)) fun _ => Adds.pure rfl

theorem fileread_adds (f : Fin NFILE) (n : UInt32) : Adds sysMeter (fileread devsw f n) fun _ => 0 := by
  refine Adds.seq (file_adds f) fun x => Adds.ite (fun _ => Adds.pure rfl) fun _ => ?_
  cases hx : x.type with
  | none => exact Adds.throw
  | pipe => exact Adds.pure rfl
  | inode =>
    refine Adds.seq (fs_adds (ilock_adds x.ip)) fun _ => Adds.seq (fs_adds (readi_adds devsw x.ip x.off n)) fun r => ?_
    have hend : Adds sysMeter (do
        (liftM (iunlock x.ip) : Kern Sys Unit)
        return r) fun _ => 0 := Adds.seq (fs_adds (iunlock_adds x.ip)) fun _ => Adds.pure rfl
    cases r with
    | none => exact hend
    | some data => exact Adds.seq (setOff_adds fun _ => ⟨rfl, rfl, rfl⟩) fun _ => hend

theorem writeChunk_adds (f : Fin NFILE) (src : List UInt8) : Adds sysMeter (writeChunk devsw f src) fun _ => 0 := by
  refine Adds.seq (sysLog_adds _) fun _ => Adds.seq (file_adds f) fun x => Adds.seq (fs_adds (ilock_adds x.ip)) fun _ => ?_
  refine Adds.seq (fs_adds (writei_adds devsw x.ip src x.off)) fun r => ?_
  have hend : Adds sysMeter (do
      (liftM (iunlock x.ip) : Kern Sys Unit)
      (liftM endOp : Kern Sys Unit)
      return r) fun _ => 0 :=
    Adds.seq (fs_adds (iunlock_adds x.ip)) fun _ => Adds.seq (sysLog_adds _) fun _ => Adds.pure rfl
  dsimp only
  exact Adds.ite (fun _ => Adds.seq (setOff_adds fun _ => ⟨rfl, rfl, rfl⟩) fun _ => hend) fun _ => hend

theorem filewriteFrom_adds (f : Fin NFILE) (fuel : Nat) (src : List UInt8) :
    Adds sysMeter (filewriteFrom devsw f fuel src) fun _ => 0 := by
  induction fuel generalizing src with
  | zero => exact Adds.pure rfl
  | succ fuel ih =>
    refine Adds.ite (fun _ => Adds.pure rfl) fun _ => Adds.seq (writeChunk_adds devsw f _) fun r => ?_
    exact Adds.ite (fun _ => Adds.pure rfl) fun _ => Adds.ite (fun _ => Adds.throw) fun _ => ih _

theorem filewrite_adds (f : Fin NFILE) (src : List UInt8) : Adds sysMeter (filewrite devsw f src) fun _ => 0 := by
  refine Adds.seq (file_adds f) fun x => Adds.ite (fun _ => Adds.pure rfl) fun _ => ?_
  cases hx : x.type with
  | none => exact Adds.throw
  | pipe => exact Adds.pure rfl
  | inode => exact Adds.seq (filewriteFrom_adds devsw f _ src) fun _ => Adds.pure rfl

theorem isdiremptyFrom_adds (dp : Slot) (fuel off : Nat) : Adds refMeter (isdiremptyFrom devsw dp fuel off) fun _ => 0 := by
  induction fuel generalizing off with
  | zero => exact Adds.pure rfl
  | succ fuel ih =>
    refine Adds.seq (inode_adds dp) fun i => Adds.ite (fun _ => ?_) fun _ => Adds.pure rfl
    exact Adds.seq (readEntry_adds devsw _ dp off) fun de => Adds.ite (fun _ => Adds.pure rfl) fun _ => ih _

theorem isdirempty_adds (dp : Slot) : Adds refMeter (isdirempty devsw dp) fun _ => 0 :=
  Adds.seq (inode_adds dp) fun _ => isdiremptyFrom_adds devsw dp _ _

/-- `create` gives the parent back, and the inode it does not return. -/
theorem create_adds (cwd : Slot) (path : List UInt8) (type major minor : Int16) :
    Adds refMeter (create devsw cwd path type major minor) held := by
  refine Adds.bind (nameiparent_adds devsw cwd path) fun r => ?_
  cases r with
  | none => exact Adds.pure (sub_self _)
  | some e =>
    obtain ⟨dp, name⟩ := e
    refine Adds.seq (ilock_adds dp) fun _ => Adds.bind (dirlookup_adds devsw dp name) fun r => ?_
    cases r with
    | some e =>
      refine Adds.bind (iunlockput_adds dp) fun _ => Adds.seq (ilock_adds e.1) fun _ => ?_
      refine Adds.seq (inode_adds e.1) fun i => Adds.ite (fun _ => Adds.pure ?_) fun _ => ?_
      · show one e.1 - one dp - one e.1 - -one dp = 0
        abel
      · refine Adds.bind (iunlockput_adds e.1) fun _ => Adds.pure ?_
        show (0 : Slot → Int) - one dp - one e.1 - -one dp - -one e.1 = 0
        abel
    | none =>
      refine Adds.bind (ialloc_adds type) fun ip => Adds.seq (ilock_adds ip) fun _ => Adds.seq (setDinode_adds ip _) fun _ => ?_
      refine Adds.seq (iupdate_adds ip) fun _ => ?_
      -- the entry in the parent comes last
      have hend : Adds refMeter (do
          let i ← inode ip
          let r ← dirlink devsw dp name i.inum
          if r < 0 then panic .createDirlink
          else do
            iunlockput dp
            return some ip : Kern FsState (Option Slot)) fun r => held r - one dp - 0 - one ip := by
        refine Adds.seq (inode_adds ip) fun i => Adds.seq (dirlink_adds devsw dp name _) fun r => ?_
        refine Adds.ite (fun _ => panic_adds _) fun _ => Adds.bind (iunlockput_adds dp) fun _ => Adds.pure ?_
        show one ip - one dp - 0 - one ip - -one dp = 0
        abel
      dsimp only
      refine Adds.ite (fun _ => ?_) fun _ => hend
      refine Adds.seq (setDinode_adds dp _) fun _ => Adds.seq (iupdate_adds dp) fun _ => ?_
      refine Adds.seq (inode_adds ip) fun i => Adds.seq (inode_adds dp) fun d => ?_
      refine Adds.seq (dirlink_adds devsw ip dot _) fun r => Adds.ite (fun _ => Adds.seq (panic_adds _) fun _ => hend) fun _ => ?_
      refine Adds.seq (dirlink_adds devsw ip dotdot _) fun r => ?_
      exact Adds.ite (fun _ => Adds.seq (panic_adds _) fun _ => hend) fun _ => hend

/-- `iunlockput(ip); end_op(); return`. -/
theorem put_adds (ip : Slot) (r : α) : Adds sysMeter (do
    (liftM (iunlockput ip) : Kern Sys Unit)
    (liftM endOp : Kern Sys Unit)
    return r) fun _ => -one ip := by
  refine Adds.bind (fs_adds (iunlockput_adds ip)) fun _ => Adds.seq (sysLog_adds _) fun _ => Adds.pure ?_
  exact sub_self _

/-- `ip->nlink` changes, and so does the disk. -/
theorem nlink_adds {g : Dinode → Dinode} {ip : Slot} {m : Kern Sys α} (hm : Adds sysMeter m δ) : Adds sysMeter (do
    (liftM (setDinode ip g) : Kern Sys Unit)
    (liftM (iupdate ip) : Kern Sys Unit)
    m) δ :=
  Adds.seq (fs_adds (setDinode_adds ip g)) fun _ => Adds.seq (fs_adds (iupdate_adds ip)) fun _ => hm

theorem linkBad_adds (ip : Slot) : Adds sysMeter (linkBad ip) fun _ => -one ip :=
  Adds.seq (fs_adds (ilock_adds ip)) fun _ => nlink_adds (put_adds ip _)

theorem sysLink_adds (cwd : Slot) (old new : Option (List UInt8)) :
    Adds sysMeter (sysLink devsw cwd old new) fun _ => 0 := by
  unfold sysLink
  cases old with
  | none => exact Adds.pure rfl
  | some old =>
  cases new with
  | none => exact Adds.pure rfl
  | some new =>
    refine Adds.seq (sysLog_adds _) fun _ => Adds.bind (fs_adds (namei_adds devsw cwd old)) fun r => ?_
    cases r with
    | none => exact Adds.seq (sysLog_adds _) fun _ => Adds.pure (sub_self _)
    | some ip =>
      refine Adds.seq (fs_adds (ilock_adds ip)) fun _ => Adds.seq (fs_adds (inode_adds ip)) fun i => ?_
      refine Adds.ite (fun _ => (put_adds ip _).congr fun _ => (zero_sub _).symm) fun _ => nlink_adds ?_
      refine Adds.seq (fs_adds (iunlock_adds ip)) fun _ => Adds.bind (fs_adds (nameiparent_adds devsw cwd new)) fun r => ?_
      cases r with
      | none =>
        refine (linkBad_adds ip).congr fun _ => ?_
        show -one ip = 0 - one ip - 0
        abel
      | some e =>
        refine Adds.seq (fs_adds (ilock_adds e.1)) fun _ => Adds.seq (fs_adds (inode_adds ip)) fun i => ?_
        refine Adds.seq (fs_adds (dirlink_adds devsw e.1 e.2 _)) fun r => Adds.ite (fun _ => ?_) fun _ => ?_
        · refine Adds.bind (fs_adds (iunlockput_adds e.1)) fun _ => (linkBad_adds ip).congr fun _ => ?_
          show -one ip = 0 - one ip - one e.1 - -one e.1
          abel
        · refine Adds.bind (fs_adds (iunlockput_adds e.1)) fun _ => Adds.bind (fs_adds (iput_adds ip)) fun _ => ?_
          refine Adds.seq (sysLog_adds _) fun _ => Adds.pure ?_
          show (0 : Slot → Int) - one ip - one e.1 - -one e.1 - -one ip = 0
          abel

theorem sysUnlink_adds (cwd : Slot) (path : Option (List UInt8)) :
    Adds sysMeter (sysUnlink devsw cwd path) fun _ => 0 := by
  unfold sysUnlink
  cases path with
  | none => exact Adds.pure rfl
  | some path =>
    refine Adds.seq (sysLog_adds _) fun _ => Adds.bind (fs_adds (nameiparent_adds devsw cwd path)) fun r => ?_
    cases r with
    | none => exact Adds.seq (sysLog_adds _) fun _ => Adds.pure (sub_self _)
    | some e =>
      obtain ⟨dp, name⟩ := e
      have hbad : Adds sysMeter (unlinkBad dp) fun _ => 0 - one dp := (put_adds dp _).congr fun _ => (zero_sub _).symm
      refine Adds.seq (fs_adds (ilock_adds dp)) fun _ => Adds.ite (fun _ => hbad) fun _ => ?_
      refine Adds.bind (fs_adds (dirlookup_adds devsw dp name)) fun r => ?_
      cases r with
      | none => exact hbad.congr fun _ => (sub_zero _).symm
      | some e =>
        obtain ⟨ip, off⟩ := e
        refine Adds.seq (fs_adds (ilock_adds ip)) fun _ => Adds.seq (fs_adds (inode_adds ip)) fun i => ?_
        refine Adds.ite (fun _ => Adds.throw) fun _ => Adds.seq (fs_adds ?_) fun empty => Adds.ite (fun _ => ?_) fun _ => ?_
        · exact Adds.ite (fun _ => isdirempty_adds devsw ip) fun _ => Adds.pure rfl
        · refine Adds.bind (fs_adds (iunlockput_adds ip)) fun _ => (put_adds dp _).congr fun _ => ?_
          show -one dp = 0 - one dp - one ip - -one ip
          abel
        · refine Adds.seq (fs_adds (writei_adds devsw dp _ _)) fun n => Adds.ite (fun _ => Adds.throw) fun _ => ?_
          refine Adds.seq (fs_adds (inode_adds ip)) fun i => ?_
          -- both inodes are given back
          have hend : Adds sysMeter (do
              (liftM (iunlockput dp) : Kern Sys Unit)
              (liftM (setDinode ip fun d => { d with nlink := d.nlink - 1 }) : Kern Sys Unit)
              (liftM (iupdate ip) : Kern Sys Unit)
              (liftM (iunlockput ip) : Kern Sys Unit)
              (liftM endOp : Kern Sys Unit)
              return 0 : Kern Sys Int) fun _ => 0 - one dp - one ip := by
            refine Adds.bind (fs_adds (iunlockput_adds dp)) fun _ => nlink_adds ((put_adds ip _).congr fun _ => ?_)
            abel
          dsimp only
          exact Adds.ite (fun _ => nlink_adds hend) fun _ => hend

theorem makeNode_adds (cwd : Slot) (path : Option (List UInt8)) (type major minor : Int16) :
    Adds sysMeter (makeNode devsw cwd path type major minor) fun _ => 0 := by
  refine Adds.seq (sysLog_adds _) fun _ => ?_
  cases path with
  | none => exact Adds.seq (sysLog_adds _) fun _ => Adds.pure rfl
  | some path =>
    refine Adds.bind (fs_adds (create_adds devsw cwd path _ _ _)) fun r => ?_
    cases r with
    | none => exact Adds.seq (sysLog_adds _) fun _ => Adds.pure (sub_self _)
    | some ip => exact (put_adds ip _).congr fun _ => (zero_sub _).symm

theorem exec_adds (cwd : Slot) (path : List UInt8) (reads : List (UInt32 × UInt32)) :
    Adds sysMeter (exec devsw cwd path reads) fun _ => 0 := by
  refine Adds.seq (sysLog_adds _) fun _ => Adds.bind (fs_adds (namei_adds devsw cwd path)) fun r => ?_
  cases r with
  | none => exact (sysLog_adds _).congr fun _ => (sub_zero _).symm
  | some ip =>
    refine Adds.seq (fs_adds (ilock_adds ip)) fun _ => Adds.seq (Adds.forEach (fun r => ?_) _) fun _ => ?_
    · exact Adds.seq (fs_adds (readi_adds devsw ip r.1 r.2)) fun _ => Adds.pure rfl
    · refine Adds.bind (fs_adds (iunlockput_adds ip)) fun _ => (sysLog_adds _).congr fun _ => ?_
      show (0 : Slot → Int) = 0 - one ip - -one ip
      abel

end

/-! ## File structures and descriptors -/

section

variable {ε : Fin NFILE → Int} {δ : Slot → Int} {s : Sys} {f : Fin NFILE} {pid : Fin NPROC} {p : Proc}

theorem Exact.filealloc (h : Exact ε δ s) (hf : (s.ftable f).ref = 0) :
    Exact (ε + oneFile f) δ { s with ftable := Function.update s.ftable f { s.ftable f with ref := 1 } } :=
  h.setRef (n := 1) (by rw [hf]; rfl) rfl fun _ => Int.one_pos

/-- `filedup` adds a reference to the file. -/
theorem Exact.filedup (h : Exact ε δ s) {Q : Fin NFILE → Sys → Prop}
    (hQ : ∀ t, Exact (ε + oneFile f) δ t → t.proc = s.proc → Q f t) : Wp Contract.any (filedup f) Q s := by
  rw [NewXv6.filedup, wp_bind, file_wp, wp_ite, wp_panic]
  refine ⟨fun _ => trivial, fun hr => ?_⟩
  rw [wp_bind, setFile_wp, wp_pure]
  exact hQ _ (h.setRef rfl rfl fun _ => by show 0 < (s.ftable f).ref + 1; omega) rfl

/-- `fileclose` drops one, and with the last one the reference of the file to its inode. -/
theorem Exact.fileclose (h : Exact ε δ s) {Q : Unit → Sys → Prop}
    (hQ : ∀ t, Exact (ε - oneFile f) δ t → t.proc = s.proc → Q () t) : Wp Contract.any (fileclose f) Q s := by
  rw [NewXv6.fileclose, wp_bind, file_wp, wp_ite, wp_panic]
  refine ⟨fun _ => trivial, fun hr => ?_⟩
  have hsub : ε + Pi.single f (-1) = ε - oneFile f := by rw [Pi.single_neg]; exact (sub_eq_add_neg _ _).symm
  rw [wp_ite, setFile_wp]
  refine ⟨fun hmore => ?_, fun hlast => ?_⟩
  · refine hQ _ (Exact.congr (h.setRef (n := -1) (by rfl) rfl fun _ => hmore) hsub rfl) rfl
  · rw [wp_bind, setFile_wp]
    have hclosed := h.setFile f (x := { s.ftable f with ref := 0, type := .none }) fun hx => absurd rfl hx
    have hone : (s.ftable f).ref = 1 := by omega
    have hε : ε + Pi.single f ((0 : Int) - (s.ftable f).ref) = ε - oneFile f := by rw [hone]; exact hsub
    -- a pipe, or a structure that was never opened
    have hother : (s.ftable f).pointer = none → Exact (ε - oneFile f) δ { s with
        ftable := Function.update s.ftable f { s.ftable f with ref := 0, type := .none } } := by
      intro hp
      refine hclosed.congr hε ?_
      rw [hp]
      show δ + 0 - 0 = δ
      abel
    cases ht : (s.ftable f).type with
    | none => exact (wp_pure _ _ _).2 (hQ _ (hother (by simp [File.pointer, ht])) rfl)
    | pipe => exact (wp_pure _ _ _).2 (hQ _ (hother (by simp [File.pointer, ht])) rfl)
    | inode =>
      have hp : (s.ftable f).pointer = some (s.ftable f).ip := by simp [File.pointer, ht]
      rw [hp] at hclosed
      dsimp only
      rw [wp_bind]
      refine hclosed.adds (sysLog_adds _) fun _ t ht hproc _ => ?_
      rw [wp_bind]
      refine ht.adds (fs_adds (iput_adds _)) fun _ u hu hproc' _ => hu.adds (sysLog_adds _) fun _ v hv hproc'' _ => ?_
      refine hQ v (hv.congr hε ?_) (hproc''.trans (hproc'.trans hproc))
      show δ + one (s.ftable f).ip - 0 + 0 + -one (s.ftable f).ip + 0 = δ
      abel

/-- `fdalloc` takes a free descriptor. -/
theorem fdalloc_wp {C : Contract Stop Event} {Q : Option (Fin NOFILE) → Sys → Prop} (hnone : Q none s)
    (hsome : ∀ p fd, s.proc pid = some p → p.ofile fd = none → Q (some fd) { s with
      proc := Function.update s.proc pid (some { p with ofile := Function.update p.ofile fd (some f) }) }) :
    Wp C (fdalloc pid f) Q s := by
  rw [fdalloc, wp_bind, wp_get]
  cases hp : s.proc pid with
  | none => exact (wp_pure _ _ _).2 hnone
  | some p =>
    dsimp only
    generalize hfind : List.find? _ _ = r
    cases r with
    | none => exact (wp_pure _ _ _).2 hnone
    | some fd =>
      simp only [wp_bind, wp_modify, wp_pure]
      exact hsome p fd hp (by simpa using List.find?_some hfind)

/-- The new descriptor takes a reference over. -/
theorem Exact.fdalloc (h : Exact ε δ s) (hp : s.proc pid = some p) {fd : Fin NOFILE} (hfd : p.ofile fd = none) :
    Exact (ε - oneFile f) δ { s with
      proc := Function.update s.proc pid (some { p with ofile := Function.update p.ofile fd (some f) }) } := by
  refine (h.setOfile hp fd (some f)).congr ?_ rfl
  rw [hfd]
  show ε + 0 - oneFile f = ε - oneFile f
  abel

/-- A descriptor is cleared, and its reference goes to the call. -/
theorem Exact.fdclear (h : Exact ε δ s) (hp : s.proc pid = some p) {fd : Fin NOFILE} (hfd : p.ofile fd = some f)
    {Q : Unit → Sys → Prop} (hQ : ∀ t, Exact (ε + oneFile f) δ t → t.ftable = s.ftable →
      t.proc = Function.update s.proc pid (some { p with ofile := Function.update p.ofile fd none }) → Q () t) :
    Wp Contract.any (fdclear pid fd) Q s := by
  rw [NewXv6.fdclear, wp_modify, hp]
  refine hQ _ ((h.setOfile hp fd none).congr ?_ rfl) rfl rfl
  rw [hfd]
  show ε + oneFile f - 0 = ε + oneFile f
  abel

/-- An inode is given back at the end of a call. -/
theorem Exact.put {α : Type} (h : Exact ε δ s) (ip : Slot) (r : α) {Q : α → Sys → Prop}
    (hQ : ∀ t, Exact ε (δ - one ip) t → Q r t) : Wp Contract.any (do
      (liftM (iunlockput ip) : Kern Sys Unit)
      (liftM endOp : Kern Sys Unit)
      return r) Q s := by
  rw [wp_bind]
  refine h.adds (fs_adds (iunlockput_adds ip)) fun _ t ht _ _ => ?_
  rw [wp_bind]
  refine ht.adds (sysLog_adds _) fun _ u hu _ _ => (wp_pure _ _ _).2 (hQ u (hu.congr rfl ?_))
  show δ + -one ip + 0 = δ - one ip
  abel

/-! ## The calls that open and close files -/

variable (devsw : Nat → Option Devsw)

/-- The file takes the reference to the inode over, or it is given back. -/
theorem Exact.openInode {ip : Slot} (h : Exact 0 (one ip) s) (omode : UInt32) {Q : Int → Sys → Prop}
    (hQ : ∀ r t, Exact 0 0 t → Q r t) : Wp Contract.any (openInode pid ip omode) Q s := by
  have hput : ∀ {t : Sys}, Exact 0 (one ip) t → Wp Contract.any (do
      (liftM (iunlockput ip) : Kern Sys Unit)
      (liftM endOp : Kern Sys Unit)
      return -1) Q t := fun ht => ht.put ip _ fun u hu => hQ _ u (hu.congr rfl (sub_self _))
  rw [NewXv6.openInode, wp_bind]
  refine filealloc_wp (hput h) fun f hzero => ?_
  have ht := h.filealloc hzero
  have hnone := h.none_of_ref hzero
  generalize htt : ({ s with ftable := Function.update s.ftable f { s.ftable f with ref := 1 } } : Sys) = t at ht
  have hft : (t.ftable f).type = .none ∧ (t.ftable f).ref = 1 := by rw [← htt]; simp [hnone]
  dsimp only
  rw [wp_bind]
  refine fdalloc_wp ?_ fun p fd hp hfd => ?_
  · dsimp only
    rw [wp_bind]
    exact ht.fileclose fun u hu _ => hput (hu.congr (by abel) rfl)
  · have hu := ht.fdalloc (f := f) hp hfd
    dsimp only
    rw [wp_bind]
    refine hu.adds (fs_adds (iunlock_adds ip)) fun _ v hv _ hfv => ?_
    rw [wp_bind]
    refine hv.adds (sysLog_adds _) fun _ w hw _ hfw => ?_
    have hw_none : (w.ftable f).type = .none := (hfw f).1.trans ((hfv f).1.trans hft.1)
    have hw_one : (w.ftable f).ref = 1 := (hfw f).2.trans ((hfv f).2.trans hft.2)
    have hp : (w.ftable f).pointer = none := by simp [File.pointer, hw_none]
    rw [wp_bind, setFile_wp, wp_pure]
    refine hQ _ _ ((hw.setFile f fun _ => ?_).congr ?_ ?_)
    · show 0 < (w.ftable f).ref
      rw [hw_one]
      decide
    · rw [sub_self, Pi.single_zero]
      abel
    · rw [hp]
      show one ip + 0 + 0 + 0 - one ip = 0
      abel

theorem Exact.sysOpen (h : Exact 0 0 s) (cwd : Slot) (path : Option (List UInt8)) (omode : UInt32)
    {Q : Int → Sys → Prop} (hQ : ∀ r t, Exact 0 0 t → Q r t) :
    Wp Contract.any (sysOpen devsw pid cwd path omode) Q s := by
  -- no inode was found or made
  have hend : ∀ {t : Sys}, Exact 0 (0 + 0 + held none) t → Wp Contract.any (do
      (liftM endOp : Kern Sys Unit)
      return -1) Q t := by
    intro t ht
    rw [wp_bind]
    exact ht.adds (sysLog_adds _) fun _ u hu _ _ => (wp_pure _ _ _).2 (hQ _ u hu)
  unfold NewXv6.sysOpen
  cases path with
  | none => exact (wp_pure _ _ _).2 (hQ _ s h)
  | some path =>
    dsimp only
    rw [wp_bind]
    refine h.adds (sysLog_adds _) fun _ t ht _ _ => ?_
    rw [wp_ite]
    refine ⟨fun _ => ?_, fun _ => ?_⟩
    · rw [wp_bind]
      refine ht.adds (fs_adds (create_adds devsw cwd path _ _ _)) fun r u hu _ _ => ?_
      cases r with
      | none => exact hend hu
      | some ip => exact Exact.openInode (hu.congr rfl (zero_add _)) omode hQ
    · rw [wp_bind]
      refine ht.adds (fs_adds (namei_adds devsw cwd path)) fun r u hu _ _ => ?_
      cases r with
      | none => exact hend hu
      | some ip =>
        dsimp only
        rw [wp_bind]
        refine hu.adds (fs_adds (ilock_adds ip)) fun _ v hv _ _ => ?_
        rw [wp_bind]
        refine hv.adds (fs_adds (inode_adds ip)) fun i w hw _ _ => ?_
        have hw : Exact 0 (one ip) w := hw.congr rfl (by show 0 + 0 + one ip + 0 + 0 = one ip; abel)
        rw [wp_ite]
        exact ⟨fun _ => hw.put ip _ fun x hx => hQ _ x (hx.congr rfl (sub_self _)), fun _ => hw.openInode omode hQ⟩

theorem Exact.close (h : Exact 0 0 s) (hp : s.proc pid = some p) {fd : Fin NOFILE} (hfd : p.ofile fd = some f)
    {Q : Unit → Sys → Prop} (hQ : ∀ t, Exact 0 0 t → Q () t) : Wp Contract.any (do
      NewXv6.fdclear pid fd
      NewXv6.fileclose f) Q s := by
  rw [wp_bind]
  exact h.fdclear hp hfd fun t ht _ _ => ht.fileclose fun u hu _ => hQ u (hu.congr (by abel) rfl)

theorem Exact.dup (h : Exact 0 0 s) {Q : Unit → Sys → Prop} (hQ : ∀ t, Exact 0 0 t → Q () t) :
    Wp Contract.any (do
      match ← NewXv6.fdalloc pid f with
      | some _ => discard (NewXv6.filedup f)
      | none => pure ()) Q s := by
  rw [wp_bind]
  refine fdalloc_wp ((wp_pure _ _ _).2 (hQ s h)) fun p fd hp hfd => ?_
  have ht := h.fdalloc (f := f) hp hfd
  exact (wp_discard _ _ _).2 (ht.filedup fun u hu _ => hQ u (hu.congr (by abel) rfl))

/-- The caller of `pipealloc` gets one reference to each end. -/
theorem Exact.pipealloc (h : Exact 0 0 s) (mem : Bool) {Q : Option (Fin NFILE × Fin NFILE) → Sys → Prop}
    (hnone : ∀ t, Exact 0 0 t → Q none t)
    (hsome : ∀ f0 f1 t, Exact (oneFile f0 + oneFile f1) 0 t → Q (some (f0, f1)) t) :
    Wp Contract.any (pipealloc mem) Q s := by
  rw [NewXv6.pipealloc, wp_bind]
  refine filealloc_wp ((wp_pure _ _ _).2 (hnone s h)) fun f0 h0 => ?_
  have ht := h.filealloc h0
  have hty0 := h.none_of_ref h0
  generalize htt : ({ s with ftable := Function.update s.ftable f0 { s.ftable f0 with ref := 1 } } : Sys) = t at ht
  have hf0 : (t.ftable f0).type = .none ∧ (t.ftable f0).ref = 1 := by rw [← htt]; simp [hty0]
  dsimp only
  rw [wp_bind]
  refine filealloc_wp ?_ fun f1 h1 => ?_
  · dsimp only
    rw [wp_bind]
    exact ht.fileclose fun u hu _ => (wp_pure _ _ _).2 (hnone u (hu.congr (by abel) rfl))
  · have hne : f0 ≠ f1 := fun he => by rw [← he, hf0.2] at h1; cases h1
    have hu := ht.filealloc h1
    have hty1 := ht.none_of_ref h1
    generalize huu : ({ t with ftable := Function.update t.ftable f1 { t.ftable f1 with ref := 1 } } : Sys) = u at hu
    have hf0' : (u.ftable f0).type = .none ∧ (u.ftable f0).ref = 1 := by
      rw [← huu]
      simpa [Function.update_of_ne hne] using hf0
    have hf1 : (u.ftable f1).type = .none ∧ (u.ftable f1).ref = 1 := by rw [← huu]; simp [hty1]
    dsimp only
    rw [wp_ite]
    refine ⟨fun _ => ?_, fun _ => ?_⟩
    · rw [wp_bind, setFile_wp, wp_bind, setFile_wp, wp_pure]
      have hset0 := hu.setRef (f := f0) (x := pipeEnd true (u.ftable f0)) (n := 0) (add_zero _).symm
        (by simp [File.pointer, pipeEnd, hf0'.1]) fun _ => by show 0 < (u.ftable f0).ref; rw [hf0'.2]; decide
      have hset1 := hset0.setRef (f := f1) (x := pipeEnd false (Function.update u.ftable f0 (pipeEnd true (u.ftable f0)) f1))
        (n := 0) (add_zero _).symm (by simp [File.pointer, pipeEnd, Function.update_of_ne hne.symm, hf1.1]) fun _ => by
          show 0 < (Function.update u.ftable f0 (pipeEnd true (u.ftable f0)) f1).ref
          rw [Function.update_of_ne hne.symm, hf1.2]
          decide
      refine hsome f0 f1 _ (hset1.congr ?_ rfl)
      rw [Pi.single_zero, Pi.single_zero]
      abel
    · rw [wp_bind]
      refine hu.fileclose fun v hv _ => ?_
      rw [wp_bind]
      exact hv.fileclose fun w hw _ => (wp_pure _ _ _).2 (hnone w (hw.congr (by abel) rfl))

theorem Exact.sysPipe (h : Exact 0 0 s) (fd mem : Bool) {Q : Int → Sys → Prop} (hQ : ∀ r t, Exact 0 0 t → Q r t) :
    Wp Contract.any (sysPipe pid fd mem) Q s := by
  rw [NewXv6.sysPipe, wp_ite, wp_pure]
  refine ⟨fun _ => ?_, fun _ => hQ _ s h⟩
  rw [wp_bind]
  refine h.pipealloc mem (fun t ht => (wp_pure _ _ _).2 (hQ _ t ht)) fun rf wf t ht => ?_
  have hbad : ∀ u, Exact (oneFile rf + oneFile wf) 0 u → Wp Contract.any (do
      NewXv6.fileclose rf
      NewXv6.fileclose wf
      pure (-1)) Q u := by
    intro u hu
    rw [wp_bind]
    refine hu.fileclose fun v hv _ => ?_
    rw [wp_bind]
    exact hv.fileclose fun w hw _ => (wp_pure _ _ _).2 (hQ _ w (hw.congr (by abel) rfl))
  dsimp only
  rw [wp_bind]
  refine fdalloc_wp (hbad t ht) fun p fd0 hp hfd0 => ?_
  have hu := ht.fdalloc (f := rf) hp hfd0
  dsimp only
  rw [wp_bind]
  refine fdalloc_wp ?_ fun q fd1 hq hfd1 => ?_
  · dsimp only
    rw [wp_bind]
    refine hu.fdclear (Function.update_self _ _ _) (Function.update_self _ _ _) fun v hv _ _ => hbad v (hv.congr ?_ rfl)
    abel
  · exact (wp_pure _ _ _).2 (hQ _ _ ((hu.fdalloc (f := wf) hq hfd1).congr (by abel) rfl))

/-! ## Processes -/

theorem Exact.sysChdir (h : Exact 0 0 s) (hp : s.proc pid = some p) (path : Option (List UInt8)) {Q : Int → Sys → Prop}
    (hQ : ∀ r t, Exact 0 0 t → Q r t) : Wp Contract.any (sysChdir devsw pid p.cwd path) Q s := by
  unfold NewXv6.sysChdir
  rw [wp_bind]
  refine h.adds (sysLog_adds _) fun _ t ht hproc _ => ?_
  -- nothing was looked up
  have hend : ∀ {t : Sys}, Exact 0 0 t → Wp Contract.any (do
      (liftM endOp : Kern Sys Unit)
      return -1) Q t := by
    intro t ht
    rw [wp_bind]
    exact ht.adds (sysLog_adds _) fun _ u hu _ _ => (wp_pure _ _ _).2 (hQ _ u hu)
  cases path with
  | none => exact hend ht
  | some path =>
    dsimp only
    rw [wp_bind]
    refine ht.adds (fs_adds (namei_adds devsw p.cwd path)) fun r u hu hproc' _ => ?_
    cases r with
    | none => exact hend hu
    | some ip =>
      dsimp only
      rw [wp_bind]
      refine hu.adds (fs_adds (ilock_adds ip)) fun _ v hv hproc'' _ => ?_
      rw [wp_bind]
      refine hv.adds (fs_adds (inode_adds ip)) fun i w hw hproc₃ _ => ?_
      have hw : Exact 0 (one ip) w := hw.congr rfl (by show 0 + 0 + one ip + 0 + 0 = one ip; abel)
      have hwp : w.proc pid = some p := by
        rw [hproc₃, hproc'', hproc', hproc]
        exact hp
      rw [wp_ite]
      refine ⟨fun _ => hw.put ip _ fun x hx => hQ _ x (hx.congr rfl (sub_self _)), fun _ => ?_⟩
      rw [wp_bind]
      refine hw.adds (fs_adds (iunlock_adds ip)) fun _ x hx hprocx _ => ?_
      rw [wp_bind]
      refine hx.adds (fs_adds (iput_adds p.cwd)) fun _ y hy hprocy _ => ?_
      rw [wp_bind]
      refine hy.adds (sysLog_adds _) fun _ z hz hprocz _ => ?_
      have hzp : z.proc pid = some p := by
        rw [hprocz, hprocy, hprocx]
        exact hwp
      rw [wp_bind, setCwd, wp_modify, wp_pure, hzp]
      refine hQ _ _ ((hz.setProc pid _).congr ?_ ?_)
      · rw [hzp]
        funext f
        exact add_sub_cancel_right (0 : Int) _
      · rw [hzp]
        show one ip + 0 + -one p.cwd + 0 + one p.cwd - one ip = 0
        abel

theorem Exact.fork (h : Exact 0 0 s) (mem : Bool) {Q : Int → Sys → Prop}
    (hQ : ∀ r t, Exact 0 0 t → Q r t) : Wp Contract.any (fork p mem) Q s := by
  rw [NewXv6.fork, wp_bind, wp_get]
  generalize hfind : (if mem = true then _ else none : Option (Fin NPROC)) = r
  cases r with
  | none => exact (wp_pure _ _ _).2 (hQ _ s h)
  | some np =>
    have hnp : s.proc np = none := by
      split at hfind
      · simpa using List.find?_some hfind
      · cases hfind
    dsimp only
    rw [wp_bind, forkFiles]
    refine (wp_forEach_done (fun done t => Exact (done.map fun fd => held (p.ofile fd)).sum 0 t ∧ t.proc = s.proc)
      (fun done fd t ht => ?_) _ s ⟨h, rfl⟩).mono fun _ t ht => ?_
    · obtain ⟨ht, hproc⟩ := ht
      have hsum : ((done ++ [fd]).map fun fd => held (p.ofile fd)).sum =
          (done.map fun fd => held (p.ofile fd)).sum + held (p.ofile fd) := by simp
      rw [hsum]
      cases hfd : p.ofile fd with
      | none => exact (wp_pure _ _ _).2 ⟨ht.congr (add_zero _).symm rfl, hproc⟩
      | some f =>
        dsimp only
        rw [wp_bind]
        exact ht.filedup fun u hu hu' => (wp_pure _ _ _).2 ⟨hu, hu'.trans hproc⟩
    · obtain ⟨ht, hproc⟩ := ht
      rw [wp_bind]
      refine ht.adds (fs_adds (idup_adds p.cwd)) fun cwd u hu hproc' _ => ?_
      rw [wp_bind, wp_modify, wp_pure]
      have hu_np : u.proc np = none := by
        rw [hproc', hproc]
        exact hnp
      refine hQ _ _ ((hu.setProc np _).congr ?_ ?_)
      · rw [hu_np, sum_held]
        funext f
        show (count p.ofile f : Int) + count (fun _ => none) f - count p.ofile f = 0
        have : count (fun _ : Fin NOFILE => (none : Option (Fin NFILE))) f = 0 := by simp [count]
        omega
      · rw [hu_np]
        show 0 + one cwd + 0 - one cwd = 0
        abel

theorem Exact.exit (h : Exact 0 0 s) (hp : s.proc pid = some p) {Q : Unit → Sys → Prop}
    (hQ : ∀ t, Exact 0 0 t → Q () t) : Wp Contract.any (exit pid p) Q s := by
  rw [NewXv6.exit, wp_ite, wp_panic]
  refine ⟨fun _ => trivial, fun _ => ?_⟩
  rw [wp_bind]
  -- the descriptors in `rest` are still open
  refine (wp_forEach (fun rest t => rest.Nodup ∧ Exact 0 0 t ∧ ∃ q, t.proc pid = some q ∧ q.cwd = p.cwd ∧
    ∀ fd, q.ofile fd = if fd ∈ rest then p.ofile fd else none) (fun fd rest t ht => ?_) _ s
    ⟨List.nodup_finRange _, h, p, hp, rfl, fun fd => by simp⟩).mono fun _ t ht => ?_
  · obtain ⟨hnd, ht, q, hq, hcwd, hof⟩ := ht
    obtain ⟨hnot, hnd⟩ := List.nodup_cons.1 hnd
    have hq_fd : q.ofile fd = p.ofile fd := by simp [hof]
    cases hfd : p.ofile fd with
    | none =>
      refine (wp_pure _ _ _).2 ⟨hnd, ht, q, hq, hcwd, fun fd' => ?_⟩
      rw [hof]
      by_cases he : fd' = fd
      · subst he; simp [hfd]
      · simp [he]
    | some f =>
      dsimp only
      rw [wp_bind]
      refine ht.fileclose fun u hu hproc => ?_
      have hq' : u.proc pid = some q := by rw [hproc]; exact hq
      refine hu.fdclear hq' (hq_fd.trans hfd) fun v hv _ hvp => ?_
      refine ⟨hnd, hv.congr (by abel) rfl, { q with ofile := Function.update q.ofile fd none }, ?_, hcwd, fun fd' => ?_⟩
      · rw [hvp, Function.update_self]
      by_cases he : fd' = fd
      · subst he; simp [hnot]
      · simp [he, hof]
  · obtain ⟨_, ht, q, hq, hcwd, hof⟩ := ht
    rw [wp_bind]
    refine ht.adds (sysLog_adds _) fun _ u hu hproc _ => ?_
    rw [wp_bind]
    refine hu.adds (fs_adds (iput_adds p.cwd)) fun _ v hv hproc' _ => ?_
    rw [wp_bind]
    refine hv.adds (sysLog_adds _) fun _ w hw hproc'' _ => ?_
    have hwq : w.proc pid = some q := by
      rw [hproc'', hproc', hproc]
      exact hq
    rw [wp_modify]
    refine hQ _ ((hw.setProc pid none).congr ?_ ?_)
    · rw [hwq]
      funext f
      have hrow : rowOf (some q) = fun _ => none := funext fun fd => by simp [rowOf, hof]
      have hnone : count (rowOf none) f = count (fun _ : Fin NOFILE => (none : Option (Fin NFILE))) f := rfl
      rw [hrow, hnone]
      exact add_sub_cancel_right (0 : Int) _
    · rw [hwq]
      show 0 + 0 + -one p.cwd + 0 + one q.cwd - 0 = 0
      rw [hcwd]
      abel

/-! ## Runs -/

/-- A part of a call that changes no count. -/
theorem Exact.same {m : Kern Sys Unit} (h : Exact 0 0 s) (hm : Adds sysMeter m fun _ => 0) {Q : Unit → Sys → Prop}
    (hQ : ∀ t, Exact 0 0 t → Q () t) : Wp Contract.any m Q s :=
  h.adds hm fun _ t ht _ _ => hQ t (ht.congr rfl (add_zero 0))

theorem Exact.runCall (h : Exact 0 0 s) (hp : s.proc pid = some p) (c : Call) {Q : Unit → Sys → Prop}
    (hQ : ∀ t, Exact 0 0 t → Q () t) : Wp Contract.any (runCall devsw pid p c) Q s := by
  have hdone : Wp Contract.any (pure () : Kern Sys Unit) Q s := (wp_pure _ _ _).2 (hQ s h)
  cases c with
  | «open» path omode => exact (wp_discard _ _ _).2 (h.sysOpen devsw _ path omode fun _ => hQ)
  | read fd n =>
    rw [NewXv6.runCall]
    cases argfd p fd with
    | none => exact hdone
    | some f => exact h.same (fileread_adds devsw f n).discard hQ
  | write fd src =>
    rw [NewXv6.runCall]
    cases argfd p fd with
    | none => exact hdone
    | some f => exact h.same (filewrite_adds devsw f src).discard hQ
  | close fd =>
    rw [NewXv6.runCall, wp_dite]
    refine ⟨fun hfd => ?_, fun _ => hdone⟩
    cases hf : p.ofile ⟨fd.toNat, by omega⟩ with
    | none => exact hdone
    | some f => exact h.close hp hf hQ
  | dup fd =>
    rw [NewXv6.runCall]
    cases argfd p fd with
    | none => exact hdone
    | some f => exact h.dup hQ
  | fstat fd =>
    rw [NewXv6.runCall]
    cases argfd p fd with
    | none => exact hdone
    | some f => exact h.same (filestat_adds f).discard hQ
  | link old new => exact h.same (sysLink_adds devsw p.cwd old new).discard hQ
  | unlink path => exact h.same (sysUnlink_adds devsw p.cwd path).discard hQ
  | mkdir path => exact h.same (makeNode_adds devsw p.cwd path _ _ _).discard hQ
  | mknod path major minor => exact h.same (makeNode_adds devsw p.cwd path _ _ _).discard hQ
  | chdir path => exact (wp_discard _ _ _).2 (h.sysChdir devsw hp path fun _ => hQ)
  | pipe fd mem => exact (wp_discard _ _ _).2 (h.sysPipe fd mem fun _ => hQ)
  | exec path reads => exact h.same (exec_adds devsw p.cwd path reads) hQ
  | fork mem => exact (wp_discard _ _ _).2 (h.fork mem fun _ => hQ)
  | exit => exact h.exit hp hQ

theorem Exact.syscall (h : Exact 0 0 s) (pid : Fin NPROC) (c : Call) {Q : Unit → Sys → Prop}
    (hQ : ∀ t, Exact 0 0 t → Q () t) : Wp Contract.any (syscall devsw pid c) Q s := by
  rw [NewXv6.syscall, wp_bind, wp_get]
  cases hp : s.proc pid with
  | none => exact (wp_pure _ _ _).2 (hQ s h)
  | some p => exact h.runCall devsw hp c hQ

/-- Nothing points to anything when the machine is switched on. -/
theorem powerOn_exact (image : Nat → Block) : Exact 0 0 (powerOn image) := by
  refine ⟨fun f => ?_, fun ip => ?_, fun f hf => absurd rfl hf⟩
  · simp [powerOn, count, Sys.descriptors]
  · have hnone : (powerOn image).pointers = fun _ => none := by
      funext y
      cases y with
      | inl p => rfl
      | inr f => rfl
    rw [hnone]
    simp [powerOn, count]

theorem startup_exact (image : Nat → Block) {Q : Unit → Sys → Prop} (hQ : ∀ t, Exact 0 0 t → Q () t) :
    Wp Contract.any (startup devsw) Q (powerOn image) := by
  -- what follows `userinit`
  have hend : ∀ {t : Sys}, Exact 0 0 t → Wp Contract.any (liftM initlog) Q t := fun ht => ht.same (sysLog_adds _) hQ
  rw [startup, wp_bind, userinit, wp_bind]
  refine (powerOn_exact image).adds (fs_adds (namei_adds devsw 0 [slash])) fun r t ht hproc _ => ?_
  cases r with
  | none => exact (wp_pure _ _ _).2 (hend (ht.congr rfl (add_zero 0)))
  | some cwd =>
    dsimp only
    rw [wp_modify]
    refine hend ((ht.setProc initproc _).congr ?_ ?_)
    · rw [hproc]
      funext f
      exact add_sub_cancel_right (0 : Int) _
    · rw [hproc]
      show 0 + one cwd + 0 - one cwd = 0
      abel

end

section

variable {devsw : Nat → Option Devsw} {image : Nat → Block} {t : Sys}

/-- **Whenever no call is running, every count is exact**, whatever is on the disk. -/
theorem refs_exact (h : Reachable devsw image t) : RefsExact t := by
  obtain ⟨tr, w, hrun⟩ := h
  have hall : Wp Contract.any (machine devsw tr) (fun _ t => Exact 0 0 t) (powerOn image) := by
    rw [machine, wp_bind]
    refine startup_exact devsw image fun s hs => ?_
    exact wp_forEach (fun _ t => Exact 0 0 t) (fun c _ _ ht => ht.syscall devsw c.1 c.2 fun _ hu => hu) tr s hs
  exact (hall.run hrun fun _ _ => trivial).refsExact

/-- A file that two processes have open, one of them twice, next to a pipe. -/
theorem refs_exact_shared : ∃ t, Reachable (fun _ => none) (smallImage smallRoot Block.zero) t ∧ RefsExact t ∧
    (t.ftable 0).ref = 3 ∧ (t.ftable 2).ref = 1 := by
  let tr : List (Fin NPROC × Call) := [(0, .open (some [97]) (UInt32.ofNat (O_CREATE ||| O_RDWR))), (0, .dup 0),
    (0, .fork true), (0, .pipe true true), (1, .close 0), (1, .mkdir (some [98])), (1, .chdir (some [98]))]
  have hrun : (machine (fun _ => none) tr).check (powerOn (smallImage smallRoot Block.zero))
      (fun _ t => decide ((t.ftable 0).ref = 3) && decide ((t.ftable 2).ref = 1)) = true := by decide +kernel
  obtain ⟨_, t, w, h, hcheck⟩ := Prog.run_of_check hrun
  have ht : Reachable (fun _ => none) (smallImage smallRoot Block.zero) t := ⟨tr, w, h⟩
  rw [Bool.and_eq_true, decide_eq_true_eq, decide_eq_true_eq] at hcheck
  exact ⟨t, ht, refs_exact ht, hcheck.1, hcheck.2⟩

end

end NewXv6
