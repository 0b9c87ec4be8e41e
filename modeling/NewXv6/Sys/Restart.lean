import NewXv6.Sys.Balance
import NewXv6.Sys.Crash

/-!
# Crashes of a machine

A machine that was started with a good disk, whose bitmap marks the log or which has a free data block for each `balloc`, stops
after any of its sector writes, and recovery starts over, as often as it is cut. It ends with the disk of a run of the calls
before the crash and a part of the next one (`crash_prefix`), and that disk is good again where no file has a hole
(`crash_image`).
-/

namespace NewXv6

open Lib

section

variable {sb : Superblock} {P : Policy} {image d : Nat → Block}

/-! ## Before the first call -/

/-- Recovery of a good disk clears the count of the header. -/
theorem Image.recover_run (h : Image sb P image) : ∃ t, recoverFromLog (boot sb.log image) =
    (.ok ((), t), [.bwrite sb.logStart (headBlock (image sb.logStart) [])]) ∧
      CleanDisk sb.log image t.bio.disk := by
  have hsec : (image sb.logStart).headSectors = [] := by
    unfold Block.headSectors
    rw [h.log]
    rfl
  have hview : (boot sb.log image).view (boot sb.log image).log.start = image sb.logStart := rfl
  have hwrites : recoverWrites (boot sb.log image) = [(sb.logStart, headBlock (image sb.logStart) [])] := by
    unfold recoverWrites
    rw [hview, hsec]
    rfl
  have hrun := @recoverFromLog_run (boot sb.log image) (by
    rw [hview, hsec]
    exact ⟨Nat.zero_le _, h.ok.log_pos, fun x hx => absurd hx List.not_mem_nil⟩)
  rw [hwrites] at hrun
  refine ⟨_, hrun, ?_⟩
  rw [Bio.disk_writeAll]
  exact clean_update h.ok.log_pos (fun _ _ => rfl) _

theorem booted_outside {x : Nat} (hx : ¬sb.log.InLog x) (hpos : 0 < sb.nlog) : (booted sb image).fs.view x = image x := by
  have hne : x ≠ sb.logStart := fun he => hx (by
    rw [he]
    exact ⟨Nat.le_refl _, Nat.lt_add_of_pos_right hpos⟩)
  show (Bio.write _ _ _).view x = _
  rw [Bio.view_write, Function.update_of_ne hne]
  rfl

/-- A machine that stops before its first write. -/
theorem Image.recovers (h : Image sb P image) : Recovers sb.log image (booted sb image).fs.view := by
  refine (?_ : Recovers sb.log image image).congr rfl rfl fun x hx => (booted_outside hx h.ok.log_pos).symm
  obtain ⟨t, hrun, hclean⟩ := h.recover_run
  intro d hd
  have hcrash : d = image ∨ CleanDisk sb.log image d := by
    induction hd with
    | refl => exact Or.inl rfl
    | tail _ hstep ih =>
      rcases ih with rfl | ih
      · obtain ⟨k, rfl⟩ := hstep
        rw [hrun]
        cases k with
        | zero => exact Or.inl rfl
        | succ k =>
          refine Or.inr ?_
          show CleanDisk _ _ (store (List.take (k + 1) [(sb.logStart, _)]) _)
          rw [List.take_succ_cons, List.take_nil]
          exact clean_update h.ok.log_pos (fun _ _ => rfl) _
      · exact Or.inr (clean_crash ih hstep)
  rcases hcrash with rfl | hcrash
  · exact ⟨t, _, hrun, hclean⟩
  · exact clean_recovers hcrash

theorem Image.rest (h : Image sb P image) (strict : P.exact → P.strict) :
    Rest (Setting.plain sb P h.ok strict) (booted sb image) := by
  refine ⟨h.booted_inv strict, ⟨rfl, rfl, rfl, rfl, fun x => ?_⟩, ?_⟩
  · show Function.update (fun _ => none) sb.logStart none x = none
    by_cases hx : x = sb.logStart
    · rw [hx, Function.update_self]
    · rw [Function.update_of_ne hx]
  · show (Function.update image sb.logStart (headBlock (image sb.logStart) []) sb.logStart).word 0 = 0
    rw [Function.update_self]
    exact word_headBlock_zero _ (by decide)

/-! ## Whole runs -/

theorem machine_run (h : Image sb P image) (devsw : Nat → Option Devsw) (tr : List (Fin NPROC × Call)) :
    machine devsw tr (powerOn image) = ((syscalls devsw tr (booted sb image)).1,
      .bwrite sb.logStart (headBlock (image sb.logStart) []) :: (syscalls devsw tr (booted sb image)).2) := by
  rw [machine, Prog.run_bind_ok (startup_run h devsw)]
  rfl

theorem before_nil (tr : List (Fin NPROC × Call)) : Before tr [] := by
  cases tr with
  | nil => exact .nil
  | cons c tr => exact .part (.none c.2)

/-- What a crash after `k` writes leaves: a run of `done`, in which no call is missing that had ended. -/
theorem machine_crash (h : Image sb P image) (strict : P.exact → P.strict) (devsw : Nat → Option Devsw)
    (tr : List (Fin NPROC × Call))
    (hw : ∀ x ∈ (machine devsw tr (powerOn image)).2, (Setting.plain sb P h.ok strict).C.assume x) (k : Nat) :
    ∃ done v w, Before tr done ∧ machine devsw done (powerOn image) = (.ok ((), v), w) ∧
      SysInv (Setting.plain sb P h.ok strict) v ∧ Recovers sb.log (crashAfter (machine devsw tr (powerOn image)).2 k image) v.fs.view ∧
      ∀ pre t x, pre <+: tr → machine devsw pre (powerOn image) = (.ok ((), t), x) → (writesOf x).length ≤ k → pre <+: done := by
  have hall := machine_run h devsw tr
  rw [hall] at hw ⊢
  have hsurv := syscalls_survive devsw (E := Setting.plain sb P h.ok strict) trivial (fun _ => trivial) tr (h.rest strict)
    fun x hx => hw x (List.mem_cons_of_mem _ hx)
  -- a run of the machine writes the header before the first call
  have hpre : ∀ {pre t x}, machine devsw pre (powerOn image) = (.ok ((), t), x) → ∃ w,
      syscalls devsw pre (booted sb image) = (.ok ((), t), w) ∧ (writesOf x).length = (writesOf w).length + 1 :=
    fun {pre t x} hrun => by
      rw [machine_run h devsw pre] at hrun
      obtain ⟨hok, rfl⟩ := Prod.mk.inj hrun
      exact ⟨_, Prod.ext hok rfl, rfl⟩
  cases k with
  | zero =>
    refine ⟨[], booted sb image, _, before_nil tr, machine_run h devsw [], h.booted_inv strict, h.recovers, fun pre t x _ hrun hk => ?_⟩
    obtain ⟨w, -, hlen⟩ := hpre hrun
    omega
  | succ k =>
    obtain ⟨v, ⟨done, w, hbefore, hdone, hpres⟩, hrest, hrec⟩ := hsurv.crash k
    have hrun := machine_run h devsw done
    rw [hdone] at hrun
    refine ⟨done, v, _, hbefore, hrun, hrest.inv, hrec, fun pre t x hprefix hrun hk => ?_⟩
    obtain ⟨w, hok, hlen⟩ := hpre hrun
    exact hpres pre t w hprefix hok (by omega)

/-! ## The files after recovery -/

variable {v : Sys}

/-- Where no file has a hole, the inodes on the disk are those in memory, and the recovered disk is good. -/
theorem SysInv.toImage {ok : sb.Ok} {strict : P.exact → P.strict} (h : SysInv (Setting.plain sb P ok strict) v) (hP : P.strict)
    (hd : CleanDisk sb.log v.fs.view d) : Image sb P d := by
  have hle := ok.data_le
  have hbit := ok.bitmap_lt
  have hone := sb.one_lt_bitmapStart
  have hbelow : ∀ {x}, x < sb.logStart → d x = v.fs.view x := fun {x} hx => hd.home x fun hin => by
    have hge : sb.logStart ≤ x := hin.1
    omega
  have hcur : ∀ n, n < sb.inodes → (diskInode d n).Same (v.fs.cur n) := fun n hn => by
    have hblock := (Superblock.iblock_lt hn).2
    have hdisk : diskInode d n = diskInode v.fs.view n := by
      unfold diskInode
      rw [hbelow (by omega)]
    rw [hdisk]
    by_cases hc : ∃ ip, v.fs.Cached n ip
    · obtain ⟨ip, hc⟩ := hc
      have href : ∀ {jp}, v.fs.Cached n jp → 0 < v.refs jp := fun {jp} hj => by
        have hpos := hj.1
        rw [h.fs.refs jp] at hpos
        exact_mod_cast hpos
      have hsync := h.fs.sync hP ip (fun he => by cases he) (fun he => by cases he) (href hc) hc.2.1
      rw [FsState.cur_cached hc fun jp hj => h.fs.uniq jp ip (href hj) (href hc) (hj.2.2.trans hc.2.2.symm), ← hc.2.2]
      exact hsync
    · rw [FsState.cur_disk fun ip hip => hc ⟨ip, hip⟩]
      exact Dinode.Same.rfl
  have hfiles : imageFiles sb d = v.fs.files sb := by
    refine filesOf_congr hcur (fun n p hne => hbelow (h.fs.sound.area n p hne).2) fun b hb => ?_
    have hblock := ok.bblock hb
    unfold Marked
    rw [hbelow (by omega)]
  refine ⟨ok, ?_, headCount_of_word_zero hd.head, ?_⟩
  · rw [hbelow (by omega)]
    exact h.fs.super
  · rw [hfiles]
    exact h.fs.sound

/-! ## Crashes -/

/-- **A crash keeps a prefix of the calls.** Cut a run of system calls after any number `k` of sector writes, and its recoveries
at any point, any number of times: a recovery that runs to its end leaves the sectors outside the log as they are after a run
of the first calls and a part of the next one, and every call that had ended when the machine stopped is among them. -/
theorem crash_prefix (h : Image sb P image) (strict : P.exact → P.strict) (devsw : Nat → Option Devsw)
    (tr : List (Fin NPROC × Call))
    (hw : ∀ x ∈ (machine devsw tr (powerOn image)).2, (Setting.plain sb P h.ok strict).C.assume x) (k : Nat) :
    ∃ done v w, Before tr done ∧ machine devsw done (powerOn image) = (.ok ((), v), w) ∧
      (∀ d, Relation.ReflTransGen (RecoveryCrash sb.log) (crashAfter (machine devsw tr (powerOn image)).2 k image) d →
        ∃ t x, recoverFromLog (boot sb.log d) = (.ok ((), t), x) ∧ ∀ y, ¬sb.log.InLog y → t.bio.disk y = v.fs.view y) ∧
      ∀ pre t x, pre <+: tr → machine devsw pre (powerOn image) = (.ok ((), t), x) → (writesOf x).length ≤ k →
        pre <+: done := by
  obtain ⟨done, v, w, hbefore, hdone, -, hrec, hpres⟩ := machine_crash h strict devsw tr hw k
  refine ⟨done, v, w, hbefore, hdone, fun d hd => ?_, hpres⟩
  obtain ⟨t, x, hrun, hclean⟩ := hrec d hd
  exact ⟨t, x, hrun, hclean.home⟩

end

/-! ### On a small disk -/

theorem smallImage_full : Image smallSb ⟨True, True, False⟩ (smallImage smallRoot Block.zero) := by
  have h := smallImage_exact
  exact ⟨h.ok, h.super, h.log, h.sound.inj, h.sound.area, h.sound.used, h.sound.reserved, h.sound.free, h.sound.full,
    fun he => he.elim, h.sound.dirs⟩

/-- Where the log is marked and blocks may leak, nothing is assumed. -/
theorem small_assume (w : List Event) : ∀ x ∈ w, (Setting.plain smallSb ⟨True, True, False⟩ smallSb_ok False.elim).C.assume x := by
  intro x _
  cases x with
  | balloc v b => exact Or.inl trivial
  | itrunc v d => exact False.elim
  | bwrite sector data => trivial
  | logWrite sector => trivial
  | beginOp => trivial
  | endOp => trivial

theorem crash_prefix_mkdir : ∃ done v w, Before [(0, .mkdir (some [97]))] done ∧
    machine (fun _ => none) done (powerOn (smallImage smallRoot Block.zero)) = (.ok ((), v), w) ∧
      ∃ t x, recoverFromLog (boot smallSb.log (crashAfter (machine (fun _ => none) [(0, .mkdir (some [97]))]
        (powerOn (smallImage smallRoot Block.zero))).2 7 (smallImage smallRoot Block.zero))) = (.ok ((), t), x) ∧
          ∀ y, ¬smallSb.log.InLog y → t.bio.disk y = v.fs.view y := by
  obtain ⟨done, v, w, hbefore, hdone, hrec, -⟩ := crash_prefix smallImage_full False.elim (fun _ => none)
    [(0, .mkdir (some [97]))] (small_assume _) 7
  exact ⟨done, v, w, hbefore, hdone, hrec _ .refl⟩

section

variable {sb : Superblock} {P : Policy} {image d : Nat → Block}

/-- **After a crash the disk is good again**: the areas, the empty log and sound files without holes. So a machine can be started
with it. -/
theorem crash_image (h : Image sb P image) (strict : P.exact → P.strict) (hP : P.strict) (devsw : Nat → Option Devsw)
    (tr : List (Fin NPROC × Call))
    (hw : ∀ x ∈ (machine devsw tr (powerOn image)).2, (Setting.plain sb P h.ok strict).C.assume x) (k : Nat)
    (hd : Relation.ReflTransGen (RecoveryCrash sb.log) (crashAfter (machine devsw tr (powerOn image)).2 k image) d) :
    ∃ t w, recoverFromLog (boot sb.log d) = (.ok ((), t), w) ∧ Image sb P t.bio.disk := by
  obtain ⟨-, v, -, -, -, hinv, hrec, -⟩ := machine_crash h strict devsw tr hw k
  obtain ⟨t, x, hrun, hclean⟩ := hrec d hd
  exact ⟨t, x, hrun, hinv.toImage hP hclean⟩

end

theorem crash_image_mkdir : ∃ t w, recoverFromLog (boot smallSb.log (crashAfter (machine (fun _ => none)
    [(0, .mkdir (some [97]))] (powerOn (smallImage smallRoot Block.zero))).2 7 (smallImage smallRoot Block.zero))) =
      (.ok ((), t), w) ∧ Image smallSb ⟨True, True, False⟩ t.bio.disk :=
  crash_image smallImage_full False.elim trivial (fun _ => none) [(0, .mkdir (some [97]))] (small_assume _) 7 .refl

end NewXv6
