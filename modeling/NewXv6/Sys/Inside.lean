import NewXv6.Fs.Inside
import NewXv6.Sys.Refs

/-!
# One transaction of a system call

A call that uses the log runs from `begin_op` to one `end_op` without a write to the disk, and does nothing to the file system
after it (`Closes`, `OneOp`). With another operation outstanding it does the same, but its `end_op` does not commit: so the
end of that run shows the state in which the commit of the first one starts.
-/

namespace NewXv6

open Lib

/-- An event that is neither a write to the disk nor an end of an operation. -/
def Event.Calm : Event → Prop
  | .bwrite _ _ => False
  | .beginOp => False
  | .endOp => False
  | _ => True

/-- Calm events write nothing. -/
theorem writesOf_calm {w : List Event} (h : ∀ x ∈ w, x.Calm) : writesOf w = [] := by
  induction w with
  | nil => rfl
  | cons x w ih =>
    have hx := h x List.mem_cons_self
    have hw := ih fun y hy => h y (List.mem_cons_of_mem _ hy)
    unfold writesOf at hw ⊢
    rw [List.filterMap_cons]
    cases x with
    | bwrite sector data => exact hx.elim
    | beginOp => exact hx.elim
    | endOp => exact hx.elim
    | logWrite sector => exact hw
    | balloc before b => exact hw
    | itrunc before d => exact hw

theorem writesOf_append (w v : List Event) : writesOf (w ++ v) = writesOf w ++ writesOf v := List.filterMap_append

/-! ## Hidden changes of the log -/

/-- In the one operation that is outstanding, on the disk `d`: another one begins. -/
def joined (d : Nat → Block) : Hidden LogState Event where
  holds s := s.log.outstanding = 1 ∧ s.log.committing = false ∧ s.bio.disk = d
  change s := { s with log := { s.log with outstanding := s.log.outstanding + 1 } }
  event := Event.Calm

/-- Between two operations, on the disk `d`: nothing happens. -/
def still (d : Nat → Block) : Hidden LogState Event where
  holds s := s.log.outstanding = 0 ∧ s.log.committing = false ∧ s.bio.disk = d ∧ s.log.sector = [] ∧ ∀ x, s.bio.dirty x = none
  change s := s
  event := Event.Calm

/-- The log layer does not look at how many operations are outstanding, where one is. -/
theorem joined_veil (d : Nat → Block) : Veil (joined d) := by
  refine ⟨fun _ => rfl, fun x data s hs => ?_, fun _ _ => trivial, fun _ _ => trivial⟩
  obtain ⟨hout, hcom, hdisk⟩ := hs
  have hrecord : ∀ l : Log, (l.record x).outstanding = l.outstanding ∧ (l.record x).committing = l.committing ∧
      ({ l with outstanding := l.outstanding + 1 } : Log).record x =
        { l.record x with outstanding := (l.record x).outstanding + 1 } := fun l => by
    unfold Log.record
    split
    · exact ⟨rfl, rfl, rfl⟩
    · exact ⟨rfl, rfl, rfl⟩
  obtain ⟨hsame, hcom', hchange⟩ := hrecord s.log
  by_cases hbig : s.log.tooBig
  · have hrun : ∀ s : LogState, s.log.tooBig → logWrite x data s = (.error (.panic .tooBigATransaction), []) := fun s hs => by
      show (if s.log.tooBig then _ else _ : Kern LogState Unit) s = _
      rw [if_pos hs]
      rfl
    have hbig' : ((joined d).change s).log.tooBig := hbig
    refine ⟨?_, ?_, ?_⟩
    · rw [hrun s hbig]
      exact fun y hy => absurd hy List.not_mem_nil
    · rw [hrun s hbig]
      intro a t ht
      cases ht
    · rw [hrun s hbig, hrun _ hbig']
      rfl
  · have hrun : ∀ s : LogState, ¬s.log.tooBig → 1 ≤ s.log.outstanding →
        logWrite x data s = (.ok ((), { log := s.log.record x, bio := s.bio.pin x data }), [.logWrite x]) := fun s hs ho => by
      show (if s.log.tooBig then _ else if s.log.outstanding < 1 then _ else _ : Kern LogState Unit) s = _
      rw [if_neg hs, if_neg (by omega)]
      rfl
    have hbig' : ¬((joined d).change s).log.tooBig := hbig
    have hout' : 1 ≤ ((joined d).change s).log.outstanding := by
      show 1 ≤ s.log.outstanding + 1
      omega
    refine ⟨?_, ?_, ?_⟩
    · rw [hrun s hbig (by omega)]
      intro y hy
      rw [List.mem_singleton.1 hy]
      trivial
    · rw [hrun s hbig (by omega)]
      intro a t ht
      cases ht
      exact ⟨hsame.trans hout, hcom'.trans hcom, hdisk⟩
    · rw [hrun s hbig (by omega), hrun _ hbig' hout']
      show (Except.ok ((), LogState.mk (Log.record { s.log with outstanding := s.log.outstanding + 1 } x) _), _) = _
      rw [hchange]
      rfl

/-- Outside of an operation `log_write` panics, so that nothing is recorded. -/
theorem still_veil (d : Nat → Block) : Veil (still d) := by
  refine ⟨fun _ => rfl, fun x data s hs => ?_, fun _ _ => trivial, fun _ _ => trivial⟩
  -- `log_write` outside of a transaction panics
  have hrun : ∃ p, logWrite x data s = (.error (.panic p), []) := by
    by_cases hbig : s.log.tooBig
    · refine ⟨.tooBigATransaction, ?_⟩
      show (if s.log.tooBig then _ else _ : Kern LogState Unit) s = _
      rw [if_pos hbig]
      rfl
    · refine ⟨.logWriteOutsideOfTrans, ?_⟩
      show (if s.log.tooBig then _ else if s.log.outstanding < 1 then _ else _ : Kern LogState Unit) s = _
      rw [if_neg hbig, if_pos (by rw [hs.1]; decide)]
      rfl
  obtain ⟨p, hrun⟩ := hrun
  refine ⟨?_, ?_, ?_⟩
  · rw [hrun]
    exact fun y hy => absurd hy List.not_mem_nil
  · rw [hrun]
    intro a t ht
    cases ht
  · show logWrite x data s = _
    rw [hrun]
    rfl

/-- The change of the log layer under the system calls. -/
def Lib.Hidden.sys (H : Hidden LogState Event) : Hidden Sys Event where
  holds s := H.holds s.fs.io
  change s := { s with fs := H.fs.change s.fs }
  event := H.event

section

variable {H : Hidden LogState Event} {α : Type} {f : Fin NFILE} {pid : Fin NPROC} {s : Sys}

/-- What the file system does not see, the system calls do not see through it. -/
theorem fs_blind {m : Kern FsState α} (hm : Blind H.fs m) : Blind H.sys (liftM m : Kern Sys α) := by
  refine Blind.zoom ?_ ?_ ?_ ?_ ?_ hm
  · exact fun _ h => h
  · exact fun _ _ h _ => h
  · exact fun _ h => h
  · exact fun _ => rfl
  · exact fun _ _ => rfl

/-! ## Files and descriptors -/

theorem file_blind (f : Fin NFILE) : Blind H.sys (file f) := Blind.get (fun _ => rfl) fun _ => Blind.pure _

/-- File structures are not part of the log layer. -/
theorem setFile_blind (f : Fin NFILE) (g : File → File) : Blind H.sys (setFile f g) :=
  Blind.modify (fun _ hs => hs) fun _ => rfl

theorem filealloc_blind : Blind H.sys filealloc := by
  refine Blind.get (fun _ => rfl) fun s => ?_
  cases (List.finRange NFILE).find? fun f => decide ((s.ftable f).ref = 0) with
  | none => exact Blind.pure _
  | some f => exact (setFile_blind f _).bind fun _ => Blind.pure _

theorem filedup_blind (f : Fin NFILE) : Blind H.sys (filedup f) := by
  refine (file_blind f).bind fun x => Blind.ite (fun _ => panic_blind _) fun _ => ?_
  exact (setFile_blind f _).bind fun _ => Blind.pure _

/-- Descriptors are not part of the log layer. -/
theorem fdalloc_blind (pid : Fin NPROC) (f : Fin NFILE) : Blind H.sys (fdalloc pid f) := by
  refine Blind.get (fun _ => rfl) fun s => ?_
  cases s.proc pid with
  | none => exact Blind.pure _
  | some p =>
    dsimp only
    cases (List.finRange NOFILE).find? fun fd => (p.ofile fd).isNone with
    | none => exact Blind.pure _
    | some fd =>
      refine Blind.bind (Blind.modify ?_ ?_) fun _ => Blind.pure _
      · exact fun _ hs => hs
      · exact fun _ => rfl

theorem fdclear_blind (pid : Fin NPROC) (fd : Fin NOFILE) : Blind H.sys (fdclear pid fd) :=
  Blind.modify (fun _ hs => hs) fun _ => rfl

/-- A file structure that stands for no inode is closed without a transaction. -/
theorem fileclose_blindAt (hs : H.sys.holds s) (ht : (s.ftable f).type ≠ .inode) : BlindAt H.sys (fileclose f) s := by
  refine BlindAt.bind (file_blind f s hs) fun x t w hrun hx => ?_
  have hfile : file f s = (.ok (s.ftable f, s), []) := rfl
  rw [hfile] at hrun
  cases hrun
  refine Blind.ite (fun _ => panic_blind _) (fun _ => Blind.ite (fun _ => setFile_blind f _) fun _ => ?_) s hs
  refine (setFile_blind f _).bind fun _ => ?_
  cases htype : (s.ftable f).type with
  | inode => exact absurd htype ht
  | pipe => exact Blind.pure _
  | none => exact Blind.pure _

/-! ## Calls without a transaction -/

theorem Veil.filestat (h : Veil H) (f : Fin NFILE) : Blind H.sys (filestat f) := by
  refine (file_blind f).bind fun x => ?_
  cases x.type with
  | none => exact Blind.pure _
  | pipe => exact Blind.pure _
  | inode =>
    refine (fs_blind (h.ilock _)).bind fun _ => (fs_blind ?_).bind fun _ => ?_
    · exact (inode_blind _).bind fun _ => Blind.pure _
    · exact (fs_blind (iunlock_blind _)).bind fun _ => Blind.pure _

/-- A read is no operation: `fileread` takes the lock of the inode, but does not call `begin_op`. -/
theorem Veil.fileread (h : Veil H) (devsw : Nat → Option Devsw) (f : Fin NFILE) (n : UInt32) :
    Blind H.sys (fileread devsw f n) := by
  refine (file_blind f).bind fun x => Blind.ite (fun _ => Blind.pure _) fun _ => ?_
  cases x.type with
  | none => exact panic_blind _
  | pipe => exact Blind.pure _
  | inode =>
    refine (fs_blind (h.ilock _)).bind fun _ => (fs_blind (h.readi devsw _ _ _)).bind fun r => ?_
    cases r with
    | none => exact (fs_blind (iunlock_blind _)).bind fun _ => Blind.pure _
    | some data =>
      exact (setFile_blind f _).bind fun _ => (fs_blind (iunlock_blind _)).bind fun _ => Blind.pure _

/-- `fork` takes references and copies descriptors. -/
theorem fork_blind (p : Proc) (mem : Bool) : Blind H.sys (fork p mem) := by
  refine Blind.get (fun _ => rfl) fun s => ?_
  cases (if mem then (List.finRange NPROC).find? fun np => (s.proc np).isNone else none : Option (Fin NPROC)) with
  | none => exact Blind.pure _
  | some np =>
    refine (Blind.forEach (fun fd => ?_) _).bind fun _ => (fs_blind (idup_blind _)).bind fun _ => ?_
    · cases p.ofile fd with
      | none => exact Blind.pure _
      | some f => exact (filedup_blind f).bind fun _ => Blind.pure _
    · refine Blind.bind (Blind.modify ?_ ?_) fun _ => Blind.pure _
      · exact fun _ hs => hs
      · exact fun _ => rfl

/-! ## Directories -/

variable (devsw : Nat → Option Devsw)

theorem Veil.isdiremptyFrom (h : Veil H) (dp : Slot) (fuel off : Nat) : Blind H.fs (isdiremptyFrom devsw dp fuel off) := by
  induction fuel generalizing off with
  | zero => exact Blind.pure _
  | succ fuel ih =>
    refine (inode_blind dp).bind fun i => Blind.ite (fun _ => ?_) fun _ => Blind.pure _
    exact (h.readEntry devsw _ dp off).bind fun de => Blind.ite (fun _ => Blind.pure _) fun _ => ih _

theorem Veil.isdirempty (h : Veil H) (dp : Slot) : Blind H.fs (isdirempty devsw dp) :=
  (inode_blind dp).bind fun _ => h.isdiremptyFrom devsw dp _ _

/-- `create` is called in an operation, and neither begins nor ends one. -/
theorem Veil.create (h : Veil H) (cwd : Slot) (path : List UInt8) (type major minor : Int16) :
    Blind H.fs (create devsw cwd path type major minor) := by
  refine (h.nameiparent devsw cwd path).bind fun r => ?_
  cases r with
  | none => exact Blind.pure _
  | some e =>
    refine (h.ilock e.1).bind fun _ => (h.dirlookup devsw e.1 e.2).bind fun r => ?_
    cases r with
    | some g =>
      refine (h.iunlockput e.1).bind fun _ => (h.ilock g.1).bind fun _ => (inode_blind g.1).bind fun i => ?_
      exact Blind.ite (fun _ => Blind.pure _) fun _ => (h.iunlockput g.1).bind fun _ => Blind.pure _
    | none =>
      refine (h.ialloc type).bind fun ip => (h.ilock ip).bind fun _ => (setDinode_blind ip _).bind fun _ => ?_
      refine (h.iupdate ip).bind fun _ => ?_
      have hlink : Blind H.fs (do
          let i ← inode ip
          let r ← NewXv6.dirlink devsw e.1 e.2 i.inum
          if r < 0 then panic .createDirlink
          else do
            NewXv6.iunlockput e.1
            return some ip) := by
        refine (inode_blind ip).bind fun i => (h.dirlink devsw e.1 e.2 i.inum).bind fun r => ?_
        exact Blind.ite (fun _ => panic_blind _) fun _ => (h.iunlockput e.1).bind fun _ => Blind.pure _
      dsimp only
      refine Blind.ite (fun _ => ?_) fun _ => hlink
      refine (setDinode_blind e.1 _).bind fun _ => (h.iupdate e.1).bind fun _ => ?_
      refine (inode_blind ip).bind fun i => (inode_blind e.1).bind fun j => (h.dirlink devsw ip dot i.inum).bind fun r => ?_
      refine Blind.ite (fun _ => (panic_blind _).bind fun _ => hlink) fun _ => ?_
      refine (h.dirlink devsw ip dotdot j.inum).bind fun r => ?_
      exact Blind.ite (fun _ => (panic_blind _).bind fun _ => hlink) fun _ => hlink

end

/-! ## From `begin_op` to `end_op` -/

/-- `m`, started in `s`, gets to its one `end_op` after the events `w`, in the log layer `u`, and ends with it, up to files and
descriptors. Where another operation is outstanding, it gets there too, and leaves `u`. -/
structure Reaches {α : Type} (d : Nat → Block) (m : Kern Sys α) (s : Sys) (u : LogState) (w : List Event) : Prop where
  holds : (joined d).holds u
  quiet : writesOf w = []
  events : ∃ v, (m s).2 = w ++ v
  ends : ∀ io v, endOp u = (.ok ((), io), v) → ∃ a t, m s = (.ok (a, t), w ++ v) ∧ t.fs.io = io
  beside : ∃ a t, m ((joined d).sys.change s) = (.ok (a, t), w ++ [.endOp]) ∧ t.fs.io = u

/-- `m`, started in an operation, ends with it, or stops without a write to the disk. -/
def Closes {α : Type} (d : Nat → Block) (m : Kern Sys α) (s : Sys) : Prop :=
  (∃ e w, m s = (.error e, w) ∧ writesOf w = []) ∨ ∃ u w, Reaches d m s u w

/-- `m`, started between two operations, has no operation, or one that it ends with. -/
def OneOp {α : Type} (d : Nat → Block) (m : Kern Sys α) (s : Sys) : Prop :=
  (writesOf (m s).2 = [] ∧ ∀ a t, (m s).1 = .ok (a, t) → (still d).sys.holds t) ∨ ∃ u w, Reaches d m s u w

section

variable {α β : Type} {d : Nat → Block} {s t : Sys} {u : LogState} {a : α} {w v : List Event} {f : Fin NFILE} {pid : Fin NPROC}

/-- A part that another operation does not change can go before. -/
theorem Reaches.bind {m : Kern Sys α} {g : α → Kern Sys β} (hm : m s = (.ok (a, t), w))
    (hm' : m ((joined d).sys.change s) = (.ok (a, (joined d).sys.change t), w)) (hw : writesOf w = [])
    (hg : Reaches d (g a) t u v) : Reaches d (m >>= g) s u (w ++ v) := by
  refine ⟨hg.holds, ?_, ?_, fun io x hx => ?_, ?_⟩
  · rw [writesOf_append, hw, hg.quiet]
    rfl
  · obtain ⟨x, hx⟩ := hg.events
    refine ⟨x, ?_⟩
    rw [Prog.run_bind_ok hm, hx, List.append_assoc]
  · obtain ⟨b, r, hrun, hio⟩ := hg.ends io x hx
    refine ⟨b, r, ?_, hio⟩
    rw [Prog.run_bind hm hrun, List.append_assoc]
  · obtain ⟨b, r, hrun, hio⟩ := hg.beside
    refine ⟨b, r, ?_, hio⟩
    rw [Prog.run_bind hm' hrun, List.append_assoc]

/-- The rule for what is done before `end_op`. -/
theorem Closes.bind {m : Kern Sys α} {g : α → Kern Sys β} (hm : BlindAt (joined d).sys m s)
    (hg : ∀ a t w, m s = (.ok (a, t), w) → (joined d).sys.holds t → Closes d (g a) t) : Closes d (m >>= g) s := by
  rcases hrun : m s with ⟨e | ⟨a, t⟩, w⟩
  · exact Or.inl ⟨e, w, Prog.run_bind_error hrun g, writesOf_calm (hm.error hrun).2⟩
  · obtain ⟨hchange, hholds, hevent⟩ := hm.ok hrun
    have hcalm := writesOf_calm hevent
    rcases hg a t w hrun hholds with ⟨e, v, he, hv⟩ | ⟨u, v, hu⟩
    · refine Or.inl ⟨e, w ++ v, ?_, ?_⟩
      · rw [Prog.run_bind_ok hrun, he]
      · rw [writesOf_append, hcalm, hv]
        rfl
    · exact Or.inr ⟨u, w ++ v, hu.bind hrun hchange hcalm⟩

theorem Closes.seq {m : Kern Sys α} {g : α → Kern Sys β} (hs : (joined d).sys.holds s) (hm : Blind (joined d).sys m)
    (hg : ∀ a t, (joined d).sys.holds t → Closes d (g a) t) : Closes d (m >>= g) s :=
  .bind (hm s hs) fun a t _ _ ht => hg a t ht

/-- Both branches have to come to `end_op`. -/
theorem Closes.ite {c : Prop} [Decidable c] {m n : Kern Sys α} (hm : c → Closes d m s) (hn : ¬c → Closes d n s) :
    Closes d (if c then m else n) s := by
  split
  · exact hm ‹_›
  · exact hn ‹_›

/-- A program that stops before its `end_op`. -/
theorem Closes.panic (p : Panic) : Closes d (NewXv6.panic p : Kern Sys α) s := Or.inl ⟨_, [], rfl, rfl⟩

/-- With another operation outstanding, `end_op` only counts. -/
theorem endOp_joined (hu : (joined d).holds u) : endOp ((joined d).change u) = (.ok ((), u), [.endOp]) := by
  obtain ⟨hout, hcom, -⟩ := hu
  rcases u with ⟨⟨start, size, outstanding, committing, sector⟩, bio⟩
  dsimp only at hout hcom
  subst hout
  subst hcom
  rfl

/-- `end_op`, and changes of files and descriptors. -/
theorem Closes.close {q : Unit → Kern Sys α} (hs : (joined d).sys.holds s)
    (hq : ∀ v, ∃ a t, q () v = (.ok (a, t), []) ∧ t.fs = v.fs) : Closes d ((liftM endOp : Kern Sys Unit) >>= q) s := by
  have hlift : ∀ (v : Sys) (io : LogState) (w : List Event), endOp v.fs.io = (.ok ((), io), w) →
      ∃ a t, ((liftM endOp : Kern Sys Unit) >>= q) v = (.ok (a, t), w) ∧ t.fs.io = io := fun v io w hend => by
    have hrun : (liftM endOp : Kern Sys Unit) v = (.ok ((), { v with fs := { v.fs with io } }), w) :=
      Prog.run_zoom_ok (Prog.run_zoom_ok hend)
    obtain ⟨a, t, ht, hfs⟩ := hq { v with fs := { v.fs with io } }
    refine ⟨a, t, ?_, ?_⟩
    · rw [Prog.run_bind hrun ht, List.append_nil]
    · rw [hfs]
  refine Or.inr ⟨s.fs.io, [], hs, rfl, ⟨_, rfl⟩, fun io v hend => hlift s io v hend, ?_⟩
  exact hlift ((joined d).sys.change s) s.fs.io [.endOp] (endOp_joined hs)

/-- The way most calls end: `end_op`, and a value. -/
theorem Closes.return (hs : (joined d).sys.holds s) (a : α) : Closes d (do
    (liftM endOp : Kern Sys Unit)
    pure a) s := Closes.close hs fun v => ⟨a, v, rfl, rfl⟩

theorem Closes.close_unit (hs : (joined d).sys.holds s) : Closes d (liftM endOp : Kern Sys Unit) s := by
  have hlift : ∀ (v : Sys) (io : LogState) (w : List Event), endOp v.fs.io = (.ok ((), io), w) →
      ∃ a t, (liftM endOp : Kern Sys Unit) v = (.ok (a, t), w) ∧ t.fs.io = io := fun v io w hend =>
    ⟨(), { v with fs := { v.fs with io } }, Prog.run_zoom_ok (Prog.run_zoom_ok hend), rfl⟩
  refine Or.inr ⟨s.fs.io, [], hs, rfl, ⟨_, rfl⟩, fun io v hend => hlift s io v hend, ?_⟩
  exact hlift ((joined d).sys.change s) s.fs.io [.endOp] (endOp_joined hs)

/-- A step on the file system. -/
theorem Closes.fs {m : Kern FsState α} {g : α → Kern Sys β} (hs : (joined d).sys.holds s) (hm : Blind (joined d).fs m)
    (hg : ∀ a t, (joined d).sys.holds t → t.ftable = s.ftable → Closes d (g a) t) :
    Closes d ((liftM m : Kern Sys α) >>= g) s := by
  refine .bind (fs_blind hm s hs) fun a t w hrun ht => hg a t ht ?_
  obtain ⟨fs, -, rfl⟩ := Prog.zoom_ok hrun
  rfl

/-! ### Whole operations -/

/-- A call without an operation. -/
theorem OneOp.of_blind {m : Kern Sys α} (hm : BlindAt (still d).sys m s) : OneOp d m s :=
  Or.inl ⟨writesOf_calm hm.event, hm.holds⟩

/-- Between two operations, another one begins. -/
def begun (d : Nat → Block) : Hidden LogState Event where
  holds := (still d).holds
  change := (joined d).change
  event := Event.Calm

/-- A step that does not see the log layer. -/
theorem OneOp.bind {m : Kern Sys α} {g : α → Kern Sys β} (hm : BlindAt (begun d).sys m s)
    (hg : ∀ a t, (still d).sys.holds t → OneOp d (g a) t) : OneOp d (m >>= g) s := by
  rcases hrun : m s with ⟨e | ⟨a, t⟩, w⟩
  · refine Or.inl ?_
    rw [Prog.run_bind_error hrun g]
    exact ⟨writesOf_calm (hm.error hrun).2, fun b r hr => by cases hr⟩
  · obtain ⟨hchange, hholds, hevent⟩ := hm.ok hrun
    have hcalm := writesOf_calm hevent
    rcases hg a t hholds with ⟨hv, hend⟩ | ⟨u, v, hu⟩
    · refine Or.inl ?_
      rw [Prog.run_bind_ok hrun, writesOf_append, hcalm, hv]
      exact ⟨rfl, hend⟩
    · exact Or.inr ⟨u, w ++ v, hu.bind hrun hchange hcalm⟩

/-- The last step of a program does not see the log layer. -/
theorem OneOp.last {m : Kern Sys α} {g : α → Kern Sys β} (hm : OneOp d m s)
    (hg : ∀ a t, ∃ b r, g a t = (.ok (b, r), []) ∧ r.fs = t.fs) : OneOp d (m >>= g) s := by
  have hok : ∀ {s : Sys} {w : List Event} {t : Sys} {a : α}, m s = (.ok (a, t), w) →
      ∃ b r, (m >>= g) s = (.ok (b, r), w) ∧ r.fs = t.fs := fun {s w t a} hrun => by
    obtain ⟨b, r, hb, hfs⟩ := hg a t
    refine ⟨b, r, ?_, hfs⟩
    rw [Prog.run_bind hrun hb, List.append_nil]
  rcases hm with ⟨hw, hend⟩ | ⟨u, w, hu⟩
  · refine Or.inl ?_
    rcases hrun : m s with ⟨e | ⟨a, t⟩, w⟩
    · rw [Prog.run_bind_error hrun g]
      rw [hrun] at hw
      exact ⟨hw, fun b r hr => by cases hr⟩
    · obtain ⟨b, r, hall, hfs⟩ := hok hrun
      rw [hrun] at hw
      rw [hall]
      refine ⟨hw, fun b' r' hr => ?_⟩
      cases hr
      have ht := hend a t (by rw [hrun])
      show (still d).holds r.fs.io
      rw [hfs]
      exact ht
  · refine Or.inr ⟨u, w, hu.holds, hu.quiet, ?_, fun io v hv => ?_, ?_⟩
    · obtain ⟨v, hv⟩ := hu.events
      rcases hrun : m s with ⟨e | ⟨a, t⟩, x⟩
      · refine ⟨v, ?_⟩
        rw [Prog.run_bind_error hrun g, ← hv, hrun]
      · obtain ⟨b, r, hall, -⟩ := hok hrun
        refine ⟨v, ?_⟩
        rw [hall, ← hv, hrun]
    · obtain ⟨a, t, hrun, hio⟩ := hu.ends io v hv
      obtain ⟨b, r, hall, hfs⟩ := hok hrun
      exact ⟨b, r, hall, by rw [hfs]; exact hio⟩
    · obtain ⟨a, t, hrun, hio⟩ := hu.beside
      obtain ⟨b, r, hall, hfs⟩ := hok hrun
      exact ⟨b, r, hall, by rw [hfs]; exact hio⟩

theorem OneOp.discard {m : Kern Sys α} (hm : OneOp d m s) : OneOp d (Functor.discard m : Kern Sys Unit) s :=
  hm.last fun _ t => ⟨(), t, rfl, rfl⟩

/-- A call may have its operation in one branch only. -/
theorem OneOp.ite {c : Prop} [Decidable c] {m n : Kern Sys α} (hm : c → OneOp d m s) (hn : ¬c → OneOp d n s) :
    OneOp d (if c then m else n) s := by
  split
  · exact hm ‹_›
  · exact hn ‹_›

/-- `begin_op` beside at most one other operation does not wait. -/
theorem beginOp_run (hcom : u.log.committing = false) (hsec : u.log.sector = []) (hout : u.log.outstanding ≤ 1) :
    beginOp u = (.ok ((), (joined d).change u), [.beginOp]) := by
  have hfull : ¬u.log.full := by
    unfold Log.full
    rw [hsec]
    simp only [List.length_nil, MAXOPBLOCKS, LOGSIZE]
    omega
  show (if u.log.committing = true then _ else if u.log.full then _ else _ : Kern LogState Unit) u = _
  rw [hcom, if_neg (by decide), if_neg hfull]
  rfl

/-- `begin_op`, and what comes after it. -/
theorem OneOp.begin {g : Unit → Kern Sys β} (hs : (still d).sys.holds s)
    (hg : (joined d).sys.holds ((joined d).sys.change s) → Closes d (g ()) ((joined d).sys.change s)) :
    OneOp d ((liftM beginOp : Kern Sys Unit) >>= g) s := by
  obtain ⟨hout, hcom, hdisk, hsec, -⟩ := hs
  have hlift : ∀ v : Sys, beginOp v.fs.io = (.ok ((), (joined d).change v.fs.io), [.beginOp]) →
      (liftM beginOp : Kern Sys Unit) v = (.ok ((), (joined d).sys.change v), [.beginOp]) := fun v hv =>
    Prog.run_zoom_ok (Prog.run_zoom_ok hv)
  have hrun := hlift s (beginOp_run hcom hsec (by omega))
  have hrun' := hlift ((joined d).sys.change s) (beginOp_run hcom hsec (by show s.fs.io.log.outstanding + 1 ≤ 1; omega))
  have hin : (joined d).sys.holds ((joined d).sys.change s) := by
    refine ⟨?_, hcom, hdisk⟩
    show s.fs.io.log.outstanding + 1 = 1
    omega
  rcases hg hin with ⟨e, w, he, hw⟩ | ⟨u, w, hu⟩
  · refine Or.inl ?_
    rw [Prog.run_bind_ok hrun, he]
    exact ⟨hw, fun b r hr => by cases hr⟩
  · exact Or.inr ⟨u, _, hu.bind hrun hrun' rfl⟩

/-! ## The calls -/

/-- `fileclose` puts the inode of the last reference in an operation of its own. -/
theorem fileclose_oneOp (hs : (still d).sys.holds s) (f : Fin NFILE) : OneOp d (fileclose f) s := by
  refine .bind (file_blind f s hs) fun x t ht => ?_
  refine .ite (fun _ => .of_blind (panic_blind _ t ht)) fun _ => .ite (fun _ => .of_blind (setFile_blind f _ t ht)) fun _ => ?_
  refine .bind (setFile_blind f _ t ht) fun _ v hv => ?_
  cases x.type with
  | none => exact .of_blind (.pure _ hv)
  | pipe => exact .of_blind (.pure _ hv)
  | inode =>
    refine .begin hv fun hj => Closes.fs hj ((joined_veil d).iput _) fun _ r hr _ => ?_
    exact Closes.close_unit hr

section

variable (devsw : Nat → Option Devsw)

/-- A round of the loop of `filewrite` is one operation. -/
theorem writeChunk_oneOp (hs : (still d).sys.holds s) (f : Fin NFILE) (src : List UInt8) :
    OneOp d (writeChunk devsw f src) s := by
  refine .begin hs fun hj => Closes.seq hj (file_blind f) fun x t ht => ?_
  refine Closes.fs ht ((joined_veil d).ilock _) fun _ t ht _ => ?_
  refine Closes.fs ht ((joined_veil d).writei devsw _ _ _) fun r t ht _ => ?_
  have hend : ∀ t, (joined d).sys.holds t → Closes d (do
      (liftM (iunlock x.ip) : Kern Sys Unit)
      (liftM endOp : Kern Sys Unit)
      pure r) t := fun t ht => Closes.fs ht (iunlock_blind _) fun _ t ht _ => Closes.return ht r
  exact .ite (fun _ => Closes.seq ht (setFile_blind f _) fun _ t ht => hend t ht) fun _ => hend t ht

/-- The contract of a program that leaves no events. -/
def Contract.silent : Contract Stop Event where
  assume _ := True
  ensure _ := False
  fail _ := True

/-- The file structure that `filealloc` gives had no reference, and has one. -/
theorem filealloc_some {t : Sys} {w : List Event} (h : filealloc s = (.ok (some f, t), w)) :
    (s.ftable f).ref = 0 ∧ t = { s with ftable := Function.update s.ftable f { s.ftable f with ref := 1 } } := by
  let Q : Option (Fin NFILE) → Sys → Prop := fun r t => ∀ f, r = some f →
    (s.ftable f).ref = 0 ∧ t = { s with ftable := Function.update s.ftable f { s.ftable f with ref := 1 } }
  have hwp : Wp Contract.silent filealloc Q s := filealloc_wp (fun f hf => by cases hf) fun f hf g hg => by
    cases hg
    exact ⟨hf, rfl⟩
  exact hwp.run h (fun _ _ => trivial) f rfl

theorem fdalloc_ftable {t : Sys} {r : Option (Fin NOFILE)} {w : List Event} (h : fdalloc pid f s = (.ok (r, t), w)) :
    t.ftable = s.ftable :=
  (fdalloc_wp (C := Contract.silent) (Q := fun _ t => t.ftable = s.ftable) rfl fun _ _ _ _ => rfl).run h fun _ _ => trivial

/-- Nothing is open that no file structure is used for. -/
def Unused (s : Sys) : Prop := ∀ f, (s.ftable f).ref = 0 → (s.ftable f).type = .none

/-- `sys_open` with the inode: without a structure or a descriptor it puts the inode back. -/
theorem openInode_closes (hs : (joined d).sys.holds s) (hu : Unused s) (pid : Fin NPROC) (ip : Slot) (omode : UInt32) :
    Closes d (openInode pid ip omode) s := by
  have hput : ∀ t, (joined d).sys.holds t → Closes d (do
      (liftM (iunlockput ip) : Kern Sys Unit)
      (liftM endOp : Kern Sys Unit)
      pure (-1 : Int)) t := fun t ht => Closes.fs ht ((joined_veil d).iunlockput ip) fun _ t ht _ => Closes.return ht _
  refine .bind (filealloc_blind s hs) fun r t w hrun ht => ?_
  cases r with
  | none => exact hput t ht
  | some f =>
    obtain ⟨href, rfl⟩ := filealloc_some hrun
    refine .bind (fdalloc_blind pid f _ ht) fun r v w hrun hv => ?_
    have htable := fdalloc_ftable hrun
    cases r with
    | none =>
      refine .bind (fileclose_blindAt hv ?_) fun _ v _ _ hv => hput v hv
      have htype : (v.ftable f).type = .none := by
        rw [htable]
        dsimp only
        rw [Function.update_self]
        exact hu f href
      rw [htype]
      exact fun he => by cases he
    | some fd =>
      refine Closes.fs hv (iunlock_blind ip) fun _ v hv _ => Closes.close hv fun v => ?_
      exact ⟨_, _, rfl, rfl⟩

/-- `sys_open` creates, looks up and puts in one operation, whatever its flags are. -/
theorem sysOpen_oneOp (hs : (still d).sys.holds s) (hu : Unused s) (pid : Fin NPROC) (cwd : Slot)
    (path : Option (List UInt8)) (omode : UInt32) : OneOp d (sysOpen devsw pid cwd path omode) s := by
  cases path with
  | none => exact .of_blind (.pure _ hs)
  | some path =>
    refine .begin hs fun hj => Closes.ite (fun _ => ?_) fun _ => ?_
    · refine Closes.fs hj ((joined_veil d).create devsw _ _ _ _ _) fun r t ht htable => ?_
      cases r with
      | none => exact Closes.return ht _
      | some ip => exact openInode_closes ht (by unfold Unused; rw [htable]; exact hu) pid ip omode
    · refine Closes.fs hj ((joined_veil d).namei devsw _ _) fun r t ht htable => ?_
      cases r with
      | none => exact Closes.return ht _
      | some ip =>
        refine Closes.fs ht ((joined_veil d).ilock ip) fun _ t ht htable₁ => ?_
        refine Closes.fs ht (inode_blind ip) fun i t ht htable₂ => ?_
        refine Closes.ite (fun _ => ?_) fun _ => ?_
        · exact Closes.fs ht ((joined_veil d).iunlockput ip) fun _ t ht _ => Closes.return ht _
        · exact openInode_closes ht (by unfold Unused; rw [htable₂, htable₁, htable]; exact hu) pid ip omode

/-- The label `bad` of `sys_link` takes the link back in the same operation. -/
theorem linkBad_closes (hs : (joined d).sys.holds s) (ip : Slot) : Closes d (linkBad ip) s := by
  refine Closes.fs hs ((joined_veil d).ilock ip) fun _ t ht _ => Closes.fs ht (setDinode_blind ip _) fun _ t ht _ => ?_
  refine Closes.fs ht ((joined_veil d).iupdate ip) fun _ t ht _ => ?_
  exact Closes.fs ht ((joined_veil d).iunlockput ip) fun _ t ht _ => Closes.return ht _

/-- `sys_link` counts the link, writes the entry and undoes both in one operation. -/
theorem sysLink_oneOp (hs : (still d).sys.holds s) (cwd : Slot) (old new : Option (List UInt8)) :
    OneOp d (sysLink devsw cwd old new) s := by
  cases old with
  | none => exact .of_blind (.pure _ hs)
  | some old =>
    cases new with
    | none => exact .of_blind (.pure _ hs)
    | some new =>
      refine .begin hs fun hj => Closes.fs hj ((joined_veil d).namei devsw _ _) fun r t ht _ => ?_
      cases r with
      | none => exact Closes.return ht _
      | some ip =>
        refine Closes.fs ht ((joined_veil d).ilock ip) fun _ t ht _ => Closes.fs ht (inode_blind ip) fun i t ht _ => ?_
        refine Closes.ite (fun _ => ?_) fun _ => ?_
        · exact Closes.fs ht ((joined_veil d).iunlockput ip) fun _ t ht _ => Closes.return ht _
        · refine Closes.fs ht (setDinode_blind ip _) fun _ t ht _ => Closes.fs ht ((joined_veil d).iupdate ip) fun _ t ht _ => ?_
          refine Closes.fs ht (iunlock_blind ip) fun _ t ht _ => ?_
          refine Closes.fs ht ((joined_veil d).nameiparent devsw _ _) fun r t ht _ => ?_
          cases r with
          | none => exact linkBad_closes ht ip
          | some e =>
            refine Closes.fs ht ((joined_veil d).ilock e.1) fun _ t ht _ => Closes.fs ht (inode_blind ip) fun i t ht _ => ?_
            refine Closes.fs ht ((joined_veil d).dirlink devsw _ _ _) fun r t ht _ => Closes.ite (fun _ => ?_) fun _ => ?_
            · exact Closes.fs ht ((joined_veil d).iunlockput e.1) fun _ t ht _ => linkBad_closes ht ip
            · refine Closes.fs ht ((joined_veil d).iunlockput e.1) fun _ t ht _ => ?_
              exact Closes.fs ht ((joined_veil d).iput ip) fun _ t ht _ => Closes.return ht _

/-- The label `bad` of `sys_unlink`. -/
theorem unlinkBad_closes (hs : (joined d).sys.holds s) (dp : Slot) : Closes d (unlinkBad dp) s :=
  Closes.fs hs ((joined_veil d).iunlockput dp) fun _ _ ht _ => Closes.return ht _

/-- `sys_unlink` clears the entry and counts the links down in one operation. -/
theorem sysUnlink_oneOp (hs : (still d).sys.holds s) (cwd : Slot) (path : Option (List UInt8)) :
    OneOp d (sysUnlink devsw cwd path) s := by
  cases path with
  | none => exact .of_blind (.pure _ hs)
  | some path =>
    refine .begin hs fun hj => Closes.fs hj ((joined_veil d).nameiparent devsw _ _) fun r t ht _ => ?_
    cases r with
    | none => exact Closes.return ht _
    | some e =>
      refine Closes.fs ht ((joined_veil d).ilock e.1) fun _ t ht _ => Closes.ite (fun _ => unlinkBad_closes ht _) fun _ => ?_
      refine Closes.fs ht ((joined_veil d).dirlookup devsw _ _) fun r t ht _ => ?_
      cases r with
      | none => exact unlinkBad_closes ht _
      | some g =>
        refine Closes.fs ht ((joined_veil d).ilock g.1) fun _ t ht _ => Closes.fs ht (inode_blind g.1) fun i t ht _ => ?_
        refine Closes.ite (fun _ => Closes.panic _) fun _ => Closes.fs ht ?_ fun empty t ht _ => ?_
        · exact Blind.ite (fun _ => (joined_veil d).isdirempty devsw _) fun _ => Blind.pure _
        refine Closes.ite (fun _ => ?_) fun _ => ?_
        · exact Closes.fs ht ((joined_veil d).iunlockput g.1) fun _ t ht _ => unlinkBad_closes ht _
        refine Closes.fs ht ((joined_veil d).writei devsw _ _ _) fun n t ht _ => Closes.ite (fun _ => Closes.panic _) fun _ => ?_
        refine Closes.fs ht (inode_blind g.1) fun i t ht _ => ?_
        have hend : ∀ t, (joined d).sys.holds t → Closes d (do
            (liftM (iunlockput e.1) : Kern Sys Unit)
            (liftM (setDinode g.1 fun d => { d with nlink := d.nlink - 1 }) : Kern Sys Unit)
            (liftM (iupdate g.1) : Kern Sys Unit)
            (liftM (iunlockput g.1) : Kern Sys Unit)
            (liftM endOp : Kern Sys Unit)
            pure (0 : Int)) t := fun t ht => by
          refine Closes.fs ht ((joined_veil d).iunlockput e.1) fun _ t ht _ => Closes.fs ht (setDinode_blind g.1 _) fun _ t ht _ => ?_
          refine Closes.fs ht ((joined_veil d).iupdate g.1) fun _ t ht _ => ?_
          exact Closes.fs ht ((joined_veil d).iunlockput g.1) fun _ t ht _ => Closes.return ht _
        refine Closes.ite (fun _ => ?_) fun _ => hend t ht
        refine Closes.fs ht (setDinode_blind e.1 _) fun _ t ht _ => ?_
        exact Closes.fs ht ((joined_veil d).iupdate e.1) fun _ t ht _ => hend t ht

/-- `sys_mkdir` and `sys_mknod` are one operation. -/
theorem makeNode_oneOp (hs : (still d).sys.holds s) (cwd : Slot) (path : Option (List UInt8)) (type major minor : Int16) :
    OneOp d (makeNode devsw cwd path type major minor) s := by
  refine .begin hs fun hj => ?_
  cases path with
  | none => exact Closes.return hj _
  | some path =>
    refine Closes.fs hj ((joined_veil d).create devsw _ _ _ _ _) fun r t ht _ => ?_
    cases r with
    | none => exact Closes.return ht _
    | some ip => exact Closes.fs ht ((joined_veil d).iunlockput ip) fun _ t ht _ => Closes.return ht _

/-- `sys_chdir` puts the old directory in the operation of the lookup. -/
theorem sysChdir_oneOp (hs : (still d).sys.holds s) (pid : Fin NPROC) (cwd : Slot) (path : Option (List UInt8)) :
    OneOp d (sysChdir devsw pid cwd path) s := by
  refine .begin hs fun hj => ?_
  cases path with
  | none => exact Closes.return hj _
  | some path =>
    refine Closes.fs hj ((joined_veil d).namei devsw _ _) fun r t ht _ => ?_
    cases r with
    | none => exact Closes.return ht _
    | some ip =>
      refine Closes.fs ht ((joined_veil d).ilock ip) fun _ t ht _ => Closes.fs ht (inode_blind ip) fun i t ht _ => ?_
      refine Closes.ite (fun _ => ?_) fun _ => ?_
      · exact Closes.fs ht ((joined_veil d).iunlockput ip) fun _ t ht _ => Closes.return ht _
      · refine Closes.fs ht (iunlock_blind ip) fun _ t ht _ => Closes.fs ht ((joined_veil d).iput cwd) fun _ t ht _ => ?_
        exact Closes.close ht fun v => ⟨_, _, rfl, rfl⟩

/-- `exec` reads the program in an operation, and ends it where the program is read or something is wrong. -/
theorem exec_oneOp (hs : (still d).sys.holds s) (cwd : Slot) (path : List UInt8) (reads : List (UInt32 × UInt32)) :
    OneOp d (exec devsw cwd path reads) s := by
  refine .begin hs fun hj => Closes.fs hj ((joined_veil d).namei devsw _ _) fun r t ht _ => ?_
  cases r with
  | none => exact Closes.close_unit ht
  | some ip =>
    refine Closes.fs ht ((joined_veil d).ilock ip) fun _ t ht _ => Closes.seq ht (Blind.forEach (fun r => ?_) _) fun _ t ht => ?_
    · exact (fs_blind ((joined_veil d).readi devsw ip _ _)).bind fun _ => Blind.pure _
    · exact Closes.fs ht ((joined_veil d).iunlockput ip) fun _ t ht _ => Closes.close_unit ht

end

/-! ### Pipes -/

/-- A structure that stands for no inode is closed without an event. -/
theorem fileclose_silent (ht : (s.ftable f).type ≠ .inode) {Q : Unit → Sys → Prop}
    (hQ : ∀ x : File, x.type ≠ .inode → Q () { s with ftable := Function.update s.ftable f x }) :
    Wp Contract.silent (fileclose f) Q s := by
  rw [fileclose, wp_bind, file_wp, wp_ite, wp_panic]
  refine ⟨fun _ => trivial, fun _ => ?_⟩
  rw [wp_ite, setFile_wp]
  refine ⟨fun _ => hQ _ ht, fun _ => ?_⟩
  rw [wp_bind, setFile_wp]
  have hdone := hQ { s.ftable f with ref := 0, type := .none } fun he => by cases he
  cases htype : (s.ftable f).type with
  | inode => exact absurd htype ht
  | pipe => exact (wp_pure _ _ _).2 hdone
  | none => exact (wp_pure _ _ _).2 hdone

/-- `pipealloc` gives structures that stand for no inode, or takes them back. -/
theorem pipealloc_silent (hu : Unused s) (mem : Bool) {Q : Option (Fin NFILE × Fin NFILE) → Sys → Prop}
    (hnone : ∀ t, t.fs = s.fs → Q none t)
    (hsome : ∀ f0 f1 t, t.fs = s.fs → (t.ftable f0).type ≠ .inode → (t.ftable f1).type ≠ .inode → Q (some (f0, f1)) t) :
    Wp Contract.silent (pipealloc mem) Q s := by
  have hne : ∀ {x : FdType}, x = .none → x ≠ .inode := fun hx he => by rw [hx] at he; cases he
  have hpipe : ∀ b x, (pipeEnd b x).type ≠ .inode := fun b x he => by cases he
  rw [pipealloc, wp_bind]
  refine filealloc_wp ((wp_pure _ _ _).2 (hnone s rfl)) fun f0 h0 => ?_
  have h0' := hne (hu f0 h0)
  dsimp only
  rw [wp_bind]
  refine filealloc_wp ?_ fun f1 h1 => ?_
  · dsimp only
    rw [wp_bind]
    refine fileclose_silent ?_ fun _ _ => (wp_pure _ _ _).2 (hnone _ rfl)
    dsimp only
    rw [Function.update_self]
    exact h0'
  · have hf : f1 ≠ f0 := fun he => by
      rw [he] at h1
      dsimp only at h1
      rw [Function.update_self] at h1
      cases h1
    dsimp only at h1
    rw [Function.update_of_ne hf] at h1
    have h1' := hne (hu f1 h1)
    dsimp only
    rw [Function.update_of_ne hf, wp_ite]
    refine ⟨fun _ => ?_, fun _ => ?_⟩
    · rw [wp_bind, setFile_wp, wp_bind, setFile_wp, wp_pure]
      refine hsome f0 f1 _ rfl ?_ ?_
      · dsimp only
        rw [Function.update_of_ne (Ne.symm hf), Function.update_self]
        exact hpipe _ _
      · dsimp only
        rw [Function.update_self]
        exact hpipe _ _
    · rw [wp_bind]
      refine fileclose_silent ?_ fun x hx => ?_
      · dsimp only
        rw [Function.update_of_ne (Ne.symm hf), Function.update_self]
        exact h0'
      · rw [wp_bind]
        refine fileclose_silent ?_ fun _ _ => (wp_pure _ _ _).2 (hnone _ rfl)
        dsimp only
        rw [Function.update_of_ne hf, Function.update_self]
        exact h1'

theorem fdalloc_silent {Q : Option (Fin NOFILE) → Sys → Prop} (hQ : ∀ r t, t.fs = s.fs → t.ftable = s.ftable → Q r t) :
    Wp Contract.silent (fdalloc pid f) Q s := fdalloc_wp (hQ none s rfl rfl) fun _ fd _ _ => hQ (some fd) _ rfl rfl

/-- `sys_pipe` leaves the file system alone. -/
theorem sysPipe_silent (hu : Unused s) (fd mem : Bool) :
    Wp Contract.silent (sysPipe pid fd mem) (fun _ t => t.fs = s.fs) s := by
  rw [sysPipe, wp_ite, wp_pure]
  refine ⟨fun _ => ?_, fun _ => rfl⟩
  rw [wp_bind]
  refine pipealloc_silent hu mem (fun t ht => (wp_pure _ _ _).2 ht) fun rf wf t ht hrf hwf => ?_
  -- both ends are closed again
  have hbad : ∀ u : Sys, u.fs = s.fs → u.ftable = t.ftable → Wp Contract.silent (do
      fileclose rf
      fileclose wf
      pure (-1 : Int)) (fun _ v => v.fs = s.fs) u := fun u hu htable => by
    rw [wp_bind]
    refine fileclose_silent (by rw [htable]; exact hrf) fun x hx => ?_
    rw [wp_bind]
    refine fileclose_silent ?_ fun _ _ => (wp_pure _ _ _).2 hu
    dsimp only
    by_cases hf : wf = rf
    · rw [hf, Function.update_self]
      exact hx
    · rw [Function.update_of_ne hf, htable]
      exact hwf
  dsimp only
  rw [wp_bind]
  refine fdalloc_silent fun r u hu htable => ?_
  cases r with
  | none => exact hbad u (hu.trans ht) htable
  | some fd0 =>
    dsimp only
    rw [wp_bind]
    refine fdalloc_silent fun r v hv htable' => ?_
    cases r with
    | some _ => exact (wp_pure _ _ _).2 (hv.trans (hu.trans ht))
    | none =>
      dsimp only
      rw [wp_bind, fdclear, wp_modify]
      exact hbad _ (hv.trans (hu.trans ht)) (htable'.trans htable)

/-- `sys_pipe` has no operation. -/
theorem sysPipe_oneOp (hs : (still d).sys.holds s) (hu : Unused s) (pid : Fin NPROC) (fd mem : Bool) :
    OneOp d (sysPipe pid fd mem) s := by
  obtain ⟨halong, hends⟩ : Wp Contract.silent (sysPipe pid fd mem) (fun _ t => t.fs = s.fs) s := sysPipe_silent hu fd mem
  have hnone : ∀ x ∈ (sysPipe pid fd mem s).2, False := halong.ensure fun _ _ => trivial
  refine Or.inl ⟨writesOf_calm fun x hx => (hnone x hx).elim, fun a t ht => ?_⟩
  have hfs := hends fun _ _ => trivial
  rw [ht] at hfs
  show (still d).holds t.fs.io
  rw [show t.fs = s.fs from hfs]
  exact hs

/-! ### All calls but `write` and `exit` -/

/-- The calls that are one transaction at most. -/
def Call.Single : Call → Prop
  | .write _ _ => False
  | .exit => False
  | _ => True

theorem runCall_oneOp (hs : (still d).sys.holds s) (hu : Unused s) (devsw : Nat → Option Devsw) (pid : Fin NPROC) (p : Proc)
    {c : Call} (hc : c.Single) : OneOp d (runCall devsw pid p c) s := by
  have hdone : OneOp d (pure () : Kern Sys Unit) s := .of_blind (.pure _ hs)
  cases c with
  | «open» path omode => exact (sysOpen_oneOp devsw hs hu pid p.cwd path omode).discard
  | read fd n =>
    rw [runCall]
    cases argfd p fd with
    | none => exact hdone
    | some f => exact (OneOp.of_blind ((still_veil d).fileread devsw f n s hs)).discard
  | write fd src => exact hc.elim
  | close fd =>
    rw [runCall]
    by_cases hfd : 0 ≤ fd ∧ fd < NOFILE
    · rw [dif_pos hfd]
      cases p.ofile ⟨fd.toNat, by omega⟩ with
      | none => exact hdone
      | some f => exact .bind (fdclear_blind pid _ s hs) fun _ t ht => fileclose_oneOp ht f
    · rw [dif_neg hfd]
      exact hdone
  | dup fd =>
    rw [runCall]
    cases argfd p fd with
    | none => exact hdone
    | some f =>
      refine .of_blind ((fdalloc_blind pid f s hs).bind fun r t _ _ ht => ?_)
      cases r with
      | none => exact .pure _ ht
      | some fd' => exact (filedup_blind f).discard t ht
  | fstat fd =>
    rw [runCall]
    cases argfd p fd with
    | none => exact hdone
    | some f => exact (OneOp.of_blind ((still_veil d).filestat f s hs)).discard
  | link old new => exact (sysLink_oneOp devsw hs p.cwd old new).discard
  | unlink path => exact (sysUnlink_oneOp devsw hs p.cwd path).discard
  | mkdir path => exact (makeNode_oneOp devsw hs p.cwd path _ _ _).discard
  | mknod path major minor => exact (makeNode_oneOp devsw hs p.cwd path _ _ _).discard
  | chdir path => exact (sysChdir_oneOp devsw hs pid p.cwd path).discard
  | pipe fd mem => exact (sysPipe_oneOp hs hu pid fd mem).discard
  | exec path reads => exact exec_oneOp devsw hs p.cwd path reads
  | fork mem => exact (OneOp.of_blind (fork_blind p mem s hs)).discard
  | exit => exact hc.elim

end

end NewXv6
