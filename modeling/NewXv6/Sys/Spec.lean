import NewXv6.Fs.Call
import NewXv6.Lib.Count
import Mathlib.Data.Fintype.Sum

/-!
# The system calls

`SysInv` holds between any two calls: the invariant of the file system, where the pointers to cached inodes are the
current directories and the open files, and open files are locked by nobody, valid, and no directories if they can be
written. Every call keeps it (`syscalls_inv`).
-/

namespace NewXv6

open Lib

/-! ## Pointers -/

namespace Sys

/-- The pointers to cached inodes: current directories and open files. -/
def pointers (s : Sys) : Fin NPROC ⊕ Fin NFILE → Option Slot
  | .inl p => (s.proc p).map Proc.cwd
  | .inr f => if (s.ftable f).type = .inode then some (s.ftable f).ip else none

/-- The number of pointers to each entry of the inode cache. -/
def refs (s : Sys) : Slot → Nat := count s.pointers

@[simp] theorem refs_fs (s : Sys) (fs : FsState) : ({ s with fs } : Sys).refs = s.refs := rfl

theorem refs_congr {s t : Sys} (h : t.pointers = s.pointers) : t.refs = s.refs := by
  unfold refs
  rw [h]

theorem cwd_pos {s : Sys} {pid : Fin NPROC} {p : Proc} (h : s.proc pid = some p) : 0 < s.refs p.cwd := by
  refine count_pos (x := .inl pid) ?_
  simp [pointers, h]

theorem file_pos {s : Sys} {f : Fin NFILE} (h : (s.ftable f).type = .inode) : 0 < s.refs (s.ftable f).ip := by
  refine count_pos (x := .inr f) ?_
  simp [pointers, h]

/-- A file that stays what it is, up to its counts and its offset. -/
theorem refs_setFile {s : Sys} {f : Fin NFILE} {x : File} (ht : x.type = (s.ftable f).type)
    (hi : x.ip = (s.ftable f).ip) : ({ s with ftable := Function.update s.ftable f x } : Sys).refs = s.refs := by
  refine refs_congr (funext fun y => ?_)
  cases y with
  | inl p => rfl
  | inr g =>
    by_cases hg : g = f
    · subst hg; simp [pointers, ht, hi]
    · simp [pointers, hg]

/-- A file is closed. -/
theorem refs_close {s : Sys} {f : Fin NFILE} {x : File} (h : (s.ftable f).type = .inode) (ht : x.type = .none) :
    ({ s with ftable := Function.update s.ftable f x } : Sys).refs = drop s.refs (s.ftable f).ip := by
  have : ({ s with ftable := Function.update s.ftable f x } : Sys).pointers = Function.update s.pointers (.inr f) none := by
    funext y
    cases y with
    | inl p => rfl
    | inr g =>
      by_cases hg : g = f
      · subst hg; simp [pointers, ht]
      · simp [pointers, hg]
  unfold refs
  rw [this, count_drop (b := (s.ftable f).ip) (by simp [pointers, h])]
  rfl

/-- A file that points to no inode, before and after. -/
theorem refs_other {s : Sys} {f : Fin NFILE} {x : File} (h : (s.ftable f).type ≠ .inode) (hx : x.type ≠ .inode) :
    ({ s with ftable := Function.update s.ftable f x } : Sys).refs = s.refs := by
  refine refs_congr (funext fun y => ?_)
  cases y with
  | inl p => rfl
  | inr g =>
    by_cases hg : g = f
    · subst hg; simp [pointers, h, hx]
    · simp [pointers, hg]

/-- A file is opened. -/
theorem refs_open {s : Sys} {f : Fin NFILE} {x : File} (h : (s.ftable f).type = .none) (ht : x.type = .inode) :
    ({ s with ftable := Function.update s.ftable f x } : Sys).refs = hold s.refs x.ip := by
  have : ({ s with ftable := Function.update s.ftable f x } : Sys).pointers = Function.update s.pointers (.inr f) (some x.ip) := by
    funext y
    cases y with
    | inl p => rfl
    | inr g =>
      by_cases hg : g = f
      · subst hg; simp [pointers, ht]
      · simp [pointers, hg]
  unfold refs
  rw [this, count_take (by simp [pointers, h])]
  rfl

/-- The pointers when the entry of a process changes. -/
theorem pointers_setProc (s : Sys) (pid : Fin NPROC) (q : Option Proc) :
    ({ s with proc := Function.update s.proc pid q } : Sys).pointers =
      Function.update s.pointers (.inl pid) (q.map Proc.cwd) := by
  funext y
  cases y with
  | inl p =>
    by_cases hp : p = pid
    · subst hp; simp [pointers]
    · simp [pointers, hp]
  | inr g => rfl

end Sys

theorem drop_hold_comm {m : Slot → Nat} {ip jp : Slot} (h : 0 < m jp) : drop (hold m ip) jp = hold (drop m jp) ip := by
  funext kp
  by_cases h₁ : kp = ip <;> by_cases h₂ : kp = jp
  · subst h₁; subst h₂
    rw [drop_self, hold_self, hold_self, drop_self]
    omega
  · subst h₁
    rw [drop_of_ne h₂, hold_self, hold_self, drop_of_ne h₂]
  · subst h₂
    rw [drop_self, hold_of_ne h₁, hold_of_ne h₁, drop_self]
  · rw [drop_of_ne h₂, hold_of_ne h₁, hold_of_ne h₁, drop_of_ne h₂]

/-! ## The invariant -/

/-- The open files: what they point to is valid, and what can be written is no directory. -/
structure Opened (s : Sys) : Prop where
  ref : ∀ f, (s.ftable f).type ≠ .none → 0 < (s.ftable f).ref
  held : ∀ f, (s.ftable f).type = .inode → (s.fs.icache (s.ftable f).ip).valid = true ∧
    ((s.ftable f).writable = true → (s.fs.icache (s.ftable f).ip).dinode.type ≠ T_DIR)

/-- The invariant between system calls. -/
structure SysInv (E : Setting) (s : Sys) : Prop where
  fs : Inv E .no s.refs s.fs
  opened : Opened s

section Spec

variable {E : Setting} {m : Slot → Nat} {s t : Sys} {ip : Slot} {f : Fin NFILE} {pid : Fin NPROC}

theorem Opened.fs (h : Opened s) {fs : FsState} (hst : Stable s.refs s.fs fs) : Opened { s with fs } := by
  refine ⟨h.ref, fun f hf => ?_⟩
  obtain ⟨hv, hd⟩ := h.held f hf
  obtain ⟨hv', ht⟩ := hst.valid _ (Sys.file_pos hf) hv
  exact ⟨hv', fun hw => by rw [ht]; exact hd hw⟩

/-- A file structure that is free, or that stays the file it is. -/
theorem Opened.setFile (h : Opened s) {x : File} (hr : x.type ≠ .none → 0 < x.ref)
    (hx : x.type = .inode → (s.fs.icache x.ip).valid = true ∧
      (x.writable = true → (s.fs.icache x.ip).dinode.type ≠ T_DIR)) :
    Opened { s with ftable := Function.update s.ftable f x } := by
  refine ⟨fun g hg => ?_, fun g hg => ?_⟩
  · by_cases hgf : g = f
    · subst hgf
      simp only [Function.update_self] at hg ⊢
      exact hr hg
    · simp only [Function.update_of_ne hgf] at hg ⊢
      exact h.ref g hg
  · by_cases hgf : g = f
    · subst hgf
      simp only [Function.update_self] at hg ⊢
      exact hx hg
    · simp only [Function.update_of_ne hgf] at hg ⊢
      exact h.held g hg

theorem wp_fs {C : Contract Stop Event} {α : Type} (p : Kern FsState α) (Q : α → Sys → Prop) :
    Wp C (liftM p : Kern Sys α) Q s ↔ Wp C p (fun a fs => Q a { s with fs }) s.fs := wp_zoom _ _ p Q s

theorem wp_log {C : Contract Stop Event} {α : Type} (p : Kern LogState α) (Q : α → Sys → Prop) :
    Wp C (liftM p : Kern Sys α) Q s ↔ Wp C p (fun a io => Q a { s with fs := { s.fs with io } }) s.fs.io := by
  show Wp C (Prog.zoom _ _ (Prog.zoom _ _ p)) Q s ↔ _
  rw [wp_zoom, wp_zoom]

theorem file_wp {C : Contract Stop Event} (Q : File → Sys → Prop) : Wp C (file f) Q s ↔ Q (s.ftable f) s := by
  simp [file]

theorem setFile_wp {C : Contract Stop Event} (g : File → File) (Q : Unit → Sys → Prop) :
    Wp C (setFile f g) Q s ↔ Q () { s with ftable := Function.update s.ftable f (g (s.ftable f)) } := by
  simp [setFile]

/-! ## Transactions -/

/-- A change of the log layer that keeps the blocks below the log. -/
theorem Inv.log {fs : FsState} (h : Inv E .no m fs) {io : LogState} (hio : IoInv E.sb io)
    (hview : ∀ x, x < E.sb.logStart → io.view x = fs.view x) :
    Inv E .no m { fs with io } ∧ Stable m fs { fs with io } := by
  have hle := E.ok.data_le
  have hbit := E.ok.bitmap_lt
  have hcur : ∀ k, k < E.sb.inodes → (({ fs with io } : FsState).cur k).Same (fs.cur k) := by
    intro k hk
    refine FsState.cur_congr (fun _ => Iff.rfl) (fun _ _ => Dinode.Same.rfl) fun _ => ?_
    have := (Superblock.iblock_lt hk).2
    unfold diskInode
    rw [show ({ fs with io } : FsState).view (IBLOCK k) = fs.view (IBLOCK k) from hview _ (by omega)]
    exact Dinode.Same.rfl
  have hfiles : ({ fs with io } : FsState).files E.sb = fs.files E.sb := by
    unfold FsState.files
    refine filesOf_congr hcur (fun n p hne => hview _ (h.sound.area n p hne).2) fun b hb => ?_
    have := E.ok.bblock hb
    unfold Marked
    rw [show ({ fs with io } : FsState).view (BBLOCK b E.sb.ninodes) = fs.view _ from hview _ (by omega)]
  refine ⟨h.blocks rfl hio (fun x hx => hview x (by omega)) (by rw [hfiles]; exact h.sound),
    ⟨fun _ _ => rfl, fun _ _ hv => ⟨hv, rfl⟩⟩⟩

theorem begin_wp (h : Inv E .no m s.fs) {Q : Unit → Sys → Prop}
    (hQ : ∀ fs, Inv E .no m fs → Stable m s.fs fs → fs.icache = s.fs.icache → Q () { s with fs }) :
    Wp E.C (liftM beginOp) Q s := by
  rw [wp_log]
  refine wp_beginOp h.io fun io hio hview => ?_
  obtain ⟨hinv, hst⟩ := h.log hio fun x _ => by rw [hview]; rfl
  exact hQ _ hinv hst rfl

theorem end_wp (h : Inv E .no m s.fs) {Q : Unit → Sys → Prop}
    (hQ : ∀ fs, Inv E .no m fs → Stable m s.fs fs → fs.icache = s.fs.icache → Q () { s with fs }) :
    Wp E.C (liftM endOp) Q s := by
  rw [wp_log]
  refine wp_endOp h.io fun io hio hview => ?_
  obtain ⟨hinv, hst⟩ := h.log hio hview
  exact hQ _ hinv hst rfl

/-- The end of a call that gives back -1 or 0. -/
theorem end_return {α : Type} {a : α} (ho : Opened s) (h : Inv E .no s.refs s.fs) {Q : α → Sys → Prop}
    (hQ : ∀ fs, SysInv E { s with fs } → Q a { s with fs }) :
    Wp E.C (do
      (liftM endOp : Kern Sys Unit)
      pure a) Q s := by
  rw [wp_bind]
  refine end_wp h fun fs hfs hst _ => ?_
  rw [wp_pure]
  exact hQ fs ⟨hfs, ho.fs hst⟩

end Spec

end NewXv6
