import NewXv6.Sys.Calls

/-!
# Runs

A machine is switched on with a disk, boots, and runs system calls. `Image` says what is asked of the disk: the areas
follow each other, the log is empty, and the files on it are sound. Then the invariant holds whenever no call is
running, and every event of the run is as the setting says (`machine_inv`).
-/

namespace NewXv6

open Lib

/-! ## Booting -/

/-- The kernel when it starts: its tables are zero. -/
def powerOn (image : Nat → Block) : Sys where
  fs := {
    io := {
      log := { start := 0, size := 0, outstanding := 0, committing := false, sector := [] }
      bio := { disk := image, dirty := fun _ => none } }
    icache := fun _ => { inum := 0, ref := 0, busy := false, valid := false, dinode := Dinode.zero } }
  ftable := fun _ => { type := .none, ref := 0, readable := false, writable := false, ip := 0, off := 0 }
  proc := fun _ => none

section

variable (devsw : Nat → Option Devsw)

/-- What `userinit` does to the file system: `p->cwd = namei("/")`. -/
def userinit : Kern Sys Unit := do
  match ← namei devsw 0 [slash] with
  | some cwd => Prog.modify fun s => { s with proc := Function.update s.proc initproc (some { cwd, ofile := fun _ => none }) }
  | none => pure ()

/-- `main` up to `userinit`, and the first `forkret`. -/
def startup : Kern Sys Unit := do
  userinit devsw
  initlog

/-- The calls `tr` after the machine booted. -/
def machine (tr : List (Fin NPROC × Call)) : Kern Sys Unit := do
  startup devsw
  syscalls devsw tr

/-- A state in which the machine that was started with `image` may be between two calls. -/
def Reachable (image : Nat → Block) (t : Sys) : Prop := ∃ tr w, machine devsw tr (powerOn image) = (.ok ((), t), w)

end

/-- The files on a disk. -/
def imageFiles (sb : Superblock) (image : Nat → Block) : Files := filesOf sb (diskInode image) image

/-- A disk with the areas `sb`, an empty log, and sound files. -/
structure Image (sb : Superblock) (P : Policy) (image : Nat → Block) : Prop where
  ok : sb.Ok
  super : (image 1).superblock = sb
  log : (image sb.logStart).headCount = 0
  sound : (imageFiles sb image).Sound sb P

/-- The machine when it has booted. -/
def booted (sb : Superblock) (image : Nat → Block) : Sys where
  fs := {
    io := {
      log := { start := sb.logStart, size := sb.nlog, outstanding := 0, committing := false, sector := [] }
      bio := Bio.write { disk := image, dirty := fun _ => none } sb.logStart (headBlock (image sb.logStart) []) }
    icache := Function.update (fun _ => { inum := 0, ref := 0, busy := false, valid := false, dinode := Dinode.zero }) 0
      { inum := ROOTINO, ref := 1, busy := false, valid := false, dinode := Dinode.zero } }
  ftable := fun _ => { type := .none, ref := 0, readable := false, writable := false, ip := 0, off := 0 }
  proc := Function.update (fun _ => none) initproc (some { cwd := 0, ofile := fun _ => none })

section Boot

variable {sb : Superblock} {P : Policy} {image : Nat → Block}

theorem userinit_run (devsw : Nat → Option Devsw) (sb : Superblock) (image : Nat → Block) :
    userinit devsw (powerOn image) = (.ok ((), { powerOn image with
      fs := { (powerOn image).fs with icache := (booted sb image).fs.icache }
      proc := (booted sb image).proc }), []) := rfl

/-- Recovery finds nothing to do, and clears the count of the log header. -/
theorem startup_run (h : Image sb P image) (devsw : Nat → Option Devsw) :
    startup devsw (powerOn image) = (.ok ((), booted sb image), [.bwrite sb.logStart (headBlock (image sb.logStart) [])]) := by
  let s : LogState := { log := ⟨sb.logStart, sb.nlog, 0, false, []⟩, bio := ⟨image, fun _ => none⟩ }
  have hsec : (image sb.logStart).headSectors = [] := by
    unfold Block.headSectors
    rw [h.log]
    rfl
  have hfit : ({ s.log with sector := (s.view s.log.start).headSectors } : Log).Fits := by
    have : s.view s.log.start = image sb.logStart := rfl
    rw [this, hsec]
    exact ⟨Nat.zero_le _, h.ok.log_pos, by simp⟩
  have hrec := recoverFromLog_run hfit
  have hwrites : recoverWrites s = [(sb.logStart, headBlock (image sb.logStart) [])] := by
    have hview : s.view s.log.start = image sb.logStart := rfl
    unfold recoverWrites
    rw [hview, hsec]
    rfl
  rw [hwrites] at hrec
  have hinit : initlog (powerOn image).fs.io = (.ok ((), (booted sb image).fs.io),
      [.bwrite sb.logStart (headBlock (image sb.logStart) [])]) := by
    have hsb : readsb (powerOn image).fs.io = (.ok (sb, (powerOn image).fs.io), []) := by
      rw [← h.super]
      rfl
    unfold initlog
    refine (Prog.run_bind hsb (Prog.run_bind (Prog.run_modify _ _) ?_)).trans (congrArg (Prod.mk _) (List.nil_append _))
    exact hrec
  refine (Prog.run_bind (userinit_run devsw sb image) (w := []) ?_).trans (congrArg (Prod.mk _) (List.nil_append _))
  exact Prog.run_zoom_ok (Prog.run_zoom_ok hinit)

/-! ## The invariant of a run -/

/-- The contract of a run on disks laid out as `sb` says: `balloc` returns data blocks, provided that it is only called
when there is a free one if the log is not marked; where nothing may leak, only inodes without index blocks are
discarded. -/
def Setting.plain (sb : Superblock) (P : Policy) (ok : sb.Ok) (strict : P.exact → P.strict) : Setting where
  C := {
    assume := fun
      | .balloc v _ => P.logMarked ∨ ∃ x, sb.InData x ∧ ¬Marked sb v x
      | .itrunc _ d => P.exact → d.addrs (Fin.last NDIRECT) = 0
      | _ => True
    ensure := fun
      | .balloc _ b => sb.InData b
      | _ => True
    fail := fun _ => True }
  sb := sb
  P := P
  W := fun _ => True
  ok := ok
  strict := strict
  fail := fun _ => trivial
  bwrite := fun _ _ => trivial
  beginOp := trivial
  endOp := trivial
  logWrite := fun _ _ => trivial
  balloc := fun _ _ => id
  room := fun _ _ => id
  itrunc := fun _ _ => trivial
  small := fun he _ _ ha => ha he

/-- Nothing but the header of the log has changed. -/
theorem booted_view {x : Nat} (hx : x < sb.logStart) : (booted sb image).fs.view x = image x := by
  show (Bio.write _ _ _).view x = _
  rw [Bio.view_write, Function.update_of_ne (by omega)]
  rfl

theorem booted_refs : (booted sb image).refs = hold (fun _ => 0) 0 := by
  have hnone : count (fun _ : Fin NPROC ⊕ Fin NFILE => (none : Option Slot)) = fun _ => 0 := by
    funext b
    simp [count]
  have : (booted sb image).pointers = Function.update (fun _ => none) (.inl initproc) (some 0) := by
    funext y
    cases y with
    | inl p =>
      by_cases hp : p = initproc
      · subst hp; simp [Sys.pointers, booted]
      · simp [Sys.pointers, booted, hp]
    | inr f => simp [Sys.pointers, booted]
  unfold Sys.refs
  rw [this, count_take rfl, hnone]
  rfl

theorem Image.booted_inv (h : Image sb P image) (strict : P.exact → P.strict) :
    SysInv (Setting.plain sb P h.ok strict) (booted sb image) := by
  have hle := h.ok.data_le
  have hbit := h.ok.bitmap_lt
  have hone := sb.one_lt_bitmapStart
  have hinvalid : ∀ ip, ((booted sb image).fs.icache ip).valid = false := by
    intro ip
    by_cases hip : ip = 0
    · subst hip; rfl
    · simp [booted, hip]
  have hroot : ∀ ip, 0 < (booted sb image).refs ip → ip = 0 := by
    intro ip hm
    rw [booted_refs] at hm
    by_contra hip
    rw [hold_of_ne hip] at hm
    omega
  have hno : ∀ ip, 0 < (booted sb image).refs ip → ((booted sb image).fs.icache ip).valid = true → False := by
    intro ip _ hv
    rw [hinvalid] at hv
    cases hv
  refine ⟨⟨⟨rfl, rfl, rfl, by simp [booted], Nat.zero_le _, h.ok.log_pos, fun x hx => ?_⟩, ?_, fun ip => ?_,
    fun ip jp hi hj _ => ?_, fun ip hm => ?_, fun ip hm hv => (hno ip hm hv).elim,
    fun ip _ hm hv => (hno ip hm hv).elim, fun _ ip _ _ hm hv => (hno ip hm hv).elim, ?_⟩,
    ⟨fun f hf => by simp [booted] at hf, fun f hf => by simp [booted] at hf⟩⟩
  · simp [booted, Bio.write] at hx
  · rw [booted_view (by omega)]
    exact h.super
  · rw [booted_refs]
    by_cases hip : ip = 0
    · subst hip; rfl
    · rw [hold_of_ne hip]
      simp [booted, hip]
  · rw [hroot ip hi, hroot jp hj]
  · rw [hroot ip hm]
    exact rootino_lt sb
  · have hcur : ∀ n, n < sb.inodes → (booted sb image).fs.cur n = diskInode image n := by
      intro n hn
      have := (Superblock.iblock_lt hn).2
      rw [FsState.cur_disk fun ip hc => ?_]
      · unfold diskInode
        rw [booted_view (by omega)]
      · have := hc.2.1
        rw [hinvalid] at this
        cases this
    have hfiles : (booted sb image).fs.files sb = imageFiles sb image := by
      refine filesOf_congr (fun n hn => by rw [hcur n hn]; exact Dinode.Same.rfl)
        (fun n p hne => booted_view (h.sound.area n p hne).2) fun b hb => ?_
      have := h.ok.bblock hb
      unfold Marked
      rw [booted_view (by omega)]
    show ((booted sb image).fs.files sb).Sound sb P
    rw [hfiles]
    exact h.sound

/-- **Whenever no call is running, the invariant holds, and every event so far was as the contract says.** -/
theorem machine_inv (h : Image sb P image) (strict : P.exact → P.strict) (devsw : Nat → Option Devsw)
    (tr : List (Fin NPROC × Call)) : Wp (Setting.plain sb P h.ok strict).C (machine devsw tr)
      (fun _ t => SysInv (Setting.plain sb P h.ok strict) t) (powerOn image) := by
  rw [machine, wp_bind]
  refine wp_of_run (startup_run h devsw) (fun x hx => ?_) ?_
  · rw [List.mem_singleton.1 hx]
    trivial
  · exact syscalls_inv (h.booted_inv strict) (fun _ => trivial) devsw tr

end Boot

end NewXv6
