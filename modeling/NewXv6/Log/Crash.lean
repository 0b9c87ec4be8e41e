import NewXv6.Log.Run
import Mathlib.Logic.Relation

/-!
# Crash safety of the log

A crash loses the buffers and keeps the disk as the sector writes so far have left it. Two kinds of disks matter: a
clean one, whose header count is 0, and a pending one, whose header lists the sectors of a transaction and whose log
blocks hold their contents. A crash during `commit` leaves one or the other (`commit_crash`); a recovery that is cut
short keeps a clean disk clean and leaves a pending one pending or clean (`clean_crash`, `pending_crash`), and one that
runs to its end leaves a clean disk (`clean_recovers`, `pending_recovers`).
-/

namespace NewXv6

open Lib

/-! ## Crashes -/

/-- The state the kernel boots into on a disk: no buffers, an empty header, the log where the superblock puts it. -/
def boot (l : Log) (d : Nat → Block) : LogState where
  log := { start := l.start, size := l.size, outstanding := 0, committing := false, sector := [] }
  bio := { disk := d, dirty := fun _ => none }

/-- The disk `d` after the first `k` sector writes of a run with trace `w`. -/
def crashAfter (w : List Event) (k : Nat) (d : Nat → Block) : Nat → Block := store ((writesOf w).take k) d

/-- A recovery on disk `d` crashes and leaves `d'`. -/
def RecoveryCrash (l : Log) (d d' : Nat → Block) : Prop := ∃ k, d' = crashAfter (recoverFromLog (boot l d)).2 k d

/-- The first `write_head` of a commit, the write to the header sector, is among the first `k` sector writes. -/
def HeadReached (s : LogState) (k : Nat) : Prop := ∃ p ∈ (writesOf (commit s).2).take k, p.1 = s.log.start

section Disks

variable {l : Log} {home old new : Nat → Block} {ss : List Nat} {d d' : Nat → Block}

/-- The header count is 0 and the sectors outside the log are as in `home`. -/
structure CleanDisk (l : Log) (home d : Nat → Block) : Prop where
  size_pos : 0 < l.size
  head : (d l.start).word 0 = 0
  home : ∀ x, ¬l.InLog x → d x = home x

/-- The header lists `ss`, the log blocks hold `new`, and the other sectors outside the log are as in `old`. -/
structure PendingDisk (l : Log) (ss : List Nat) (old new d : Nat → Block) : Prop where
  fits : Log.Fits { l with sector := ss }
  head : (d l.start).headSectors = ss
  log : ∀ j (h : j < ss.length), d (l.start + j + 1) = new ss[j]
  home : ∀ x, ¬l.InLog x → x ∉ ss → d x = old x

/-- The sectors of a transaction new, the others old. -/
def after (ss : List Nat) (old new : Nat → Block) (x : Nat) : Block := if x ∈ ss then new x else old x

/-- Clearing the header keeps the home sectors. -/
theorem clean_update (hs : 0 < l.size) (hd : ∀ x, ¬l.InLog x → d x = home x) (b : Block) :
    CleanDisk l home (Function.update d l.start (headBlock b [])) := by
  refine ⟨hs, ?_, fun x hx => ?_⟩
  · rw [Function.update_self]
    exact word_headBlock_zero b (by decide)
  · have hne : x ≠ l.start := by
      rintro rfl
      exact hx ⟨Nat.le_refl _, by omega⟩
    rw [Function.update_of_ne hne]
    exact hd x hx

/-! ## Recovery from a clean disk -/

theorem recoverWrites_clean (h : CleanDisk l home d) :
    recoverWrites (boot l d) = [(l.start, headBlock (d l.start) [])] := by
  have hc : (d l.start).headSectors = [] := by simp [Block.headSectors, headCount_of_word_zero h.head]
  show homeWrites d l.start 0 (d l.start).headSectors ++ [(l.start, headBlock (d l.start) [])] = _
  rw [hc]
  rfl

theorem recover_clean_run (h : CleanDisk l home d) :
    recoverFromLog (boot l d) = (.ok ((), { boot l d with bio := (boot l d).bio.writeAll (recoverWrites (boot l d)) }),
      bwrites (recoverWrites (boot l d))) := by
  have hc : (d l.start).headSectors = [] := by simp [Block.headSectors, headCount_of_word_zero h.head]
  refine recoverFromLog_run (s := boot l d) ⟨?_, ?_, ?_⟩
  · show (d l.start).headSectors.length ≤ _
    rw [hc]; simp
  · show (d l.start).headSectors.length < l.size
    rw [hc]; exact h.size_pos
  · show ∀ x ∈ (d l.start).headSectors, _
    rw [hc]; simp

/-- A recovery that is cut short keeps a clean disk clean. -/
theorem clean_crash (h : CleanDisk l home d) (hc : RecoveryCrash l d d') : CleanDisk l home d' := by
  obtain ⟨k, rfl⟩ := hc
  rw [recover_clean_run h, crashAfter, writesOf_bwrites, recoverWrites_clean h]
  cases k with
  | zero => exact h
  | succ k =>
    rw [List.take_succ_cons, List.take_nil]
    exact clean_update h.size_pos h.home _

/-- A recovery of a clean disk leaves it clean. -/
theorem clean_recovers (h : CleanDisk l home d) :
    ∃ t w, recoverFromLog (boot l d) = (.ok ((), t), w) ∧ CleanDisk l home t.bio.disk := by
  refine ⟨_, _, recover_clean_run h, ?_⟩
  show CleanDisk l home ((boot l d).bio.writeAll (recoverWrites (boot l d))).disk
  rw [Bio.disk_writeAll, recoverWrites_clean h]
  exact clean_update h.size_pos h.home _

/-! ## Recovery from a pending disk -/

theorem recoverWrites_pending (h : PendingDisk l ss old new d) :
    recoverWrites (boot l d) = homeWrites d l.start 0 ss ++ [(l.start, headBlock (d l.start) [])] := by
  show homeWrites d l.start 0 (d l.start).headSectors ++ [(l.start, headBlock (d l.start) [])] = _
  rw [h.head]

theorem recover_pending_run (h : PendingDisk l ss old new d) :
    recoverFromLog (boot l d) = (.ok ((), { boot l d with bio := (boot l d).bio.writeAll (recoverWrites (boot l d)) }),
      bwrites (recoverWrites (boot l d))) := by
  refine recoverFromLog_run (s := boot l d) ?_
  show Log.Fits { (boot l d).log with sector := (d l.start).headSectors }
  rw [h.head]
  exact ⟨h.fits.le_logsize, h.fits.lt_size, h.fits.out⟩

/-- The sectors of the transaction lie outside the log. -/
theorem PendingDisk.not_inLog (h : PendingDisk l ss old new d) {x : Nat} (hx : x ∈ ss) : ¬l.InLog x := by
  rintro ⟨h₁, h₂⟩
  have : x < l.start ∨ l.start + l.size ≤ x := h.fits.out x hx
  omega

/-- Writes to home sectors of the transaction keep a disk pending. -/
theorem pending_store (h : PendingDisk l ss old new d) {ws : List (Nat × Block)} (hw : ∀ p ∈ ws, p.1 ∈ ss) :
    PendingDisk l ss old new (store ws d) := by
  have hlt : ss.length < l.size := h.fits.lt_size
  have hlog : ∀ x, l.InLog x → store ws d x = d x := by
    intro x hx
    apply store_other
    rintro p hp rfl
    exact h.not_inLog (hw p hp) hx
  refine ⟨h.fits, ?_, fun j hj => ?_, fun x hx hs => ?_⟩
  · rw [hlog _ ⟨Nat.le_refl _, by omega⟩]
    exact h.head
  · rw [hlog _ ⟨by omega, by omega⟩]
    exact h.log j hj
  · rw [store_other (fun p hp hpx => hs (by rw [← hpx]; exact hw p hp))]
    exact h.home x hx hs

/-- The writes home of a pending disk make the transaction's sectors new. -/
theorem pending_install (h : PendingDisk l ss old new d) {x : Nat} (hx : ¬l.InLog x) :
    store (homeWrites d l.start 0 ss) d x = after ss old new x := by
  have hval : ∀ p ∈ homeWrites d l.start 0 ss, p.2 = new p.1 :=
    homeWrites_val fun j hj => by rw [Nat.zero_add]; exact h.log j hj
  unfold after
  split
  · rename_i hs
    refine store_val (fun p hp hpx => by rw [← hpx]; exact hval p hp) ?_ d
    rw [← map_fst_homeWrites d l.start 0 ss] at hs
    obtain ⟨p, hp, hpx⟩ := List.mem_map.1 hs
    exact ⟨p, hp, hpx⟩
  · rename_i hs
    rw [store_other (fun p hp hpx => hs (by rw [← hpx]; exact mem_homeWrites hp))]
    exact h.home x hx hs

/-- A recovery that is cut short leaves a pending disk pending, or clean with the transaction installed. -/
theorem pending_crash (h : PendingDisk l ss old new d) (hc : RecoveryCrash l d d') :
    PendingDisk l ss old new d' ∨ CleanDisk l (after ss old new) d' := by
  obtain ⟨k, rfl⟩ := hc
  have hlt : ss.length < l.size := h.fits.lt_size
  rw [recover_pending_run h, crashAfter, writesOf_bwrites, recoverWrites_pending h]
  by_cases hk : k ≤ ss.length
  · left
    rw [List.take_append_of_le_length (by rw [length_homeWrites]; exact hk)]
    exact pending_store h fun p hp => mem_homeWrites (List.mem_of_mem_take hp)
  · right
    rw [List.take_of_length_le (by simp [length_homeWrites]; omega), store_append]
    exact clean_update (by omega) (fun x hx => pending_install h hx) _

/-- A recovery of a pending disk leaves it clean with the transaction installed. -/
theorem pending_recovers (h : PendingDisk l ss old new d) :
    ∃ t w, recoverFromLog (boot l d) = (.ok ((), t), w) ∧ CleanDisk l (after ss old new) t.bio.disk := by
  have hlt : ss.length < l.size := h.fits.lt_size
  refine ⟨_, _, recover_pending_run h, ?_⟩
  show CleanDisk l _ ((boot l d).bio.writeAll (recoverWrites (boot l d))).disk
  rw [Bio.disk_writeAll, recoverWrites_pending h, store_append]
  exact clean_update (by omega) (fun x hx => pending_install h hx) _

/-! ## Any number of crashes -/

/-- Crashes of recoveries keep a clean disk clean. -/
theorem clean_crashes (h : CleanDisk l home d) (hc : Relation.ReflTransGen (RecoveryCrash l) d d') :
    CleanDisk l home d' := by
  induction hc with
  | refl => exact h
  | tail _ hs ih => exact clean_crash ih hs

/-- Crashes of recoveries leave a pending disk pending or clean. -/
theorem pending_crashes (h : PendingDisk l ss old new d) (hc : Relation.ReflTransGen (RecoveryCrash l) d d') :
    PendingDisk l ss old new d' ∨ CleanDisk l (after ss old new) d' := by
  induction hc with
  | refl => exact Or.inl h
  | tail _ hs ih =>
    rcases ih with ih | ih
    · exact pending_crash ih hs
    · exact Or.inr (clean_crash ih hs)

end Disks

/-! ## Crashes of a commit -/

section Commit

variable {s : LogState}

theorem writesOf_commit (hf : s.log.Fits) (hn : s.log.sector ≠ []) : writesOf (commit s).2 = commitWrites s := by
  rw [commit_run hf hn, writesOf_bwrites]

/-- The first `write_head` follows the writes of `write_log`. -/
theorem headReached_iff (hf : s.log.Fits) (hn : s.log.sector ≠ []) (k : Nat) :
    HeadReached s k ↔ s.log.sector.length < k := by
  have hlen := length_logWrites s.view s.log.start 0 s.log.sector
  unfold HeadReached
  rw [writesOf_commit hf hn, commitWrites]
  constructor
  · rintro ⟨p, hp, hps⟩
    by_contra hk
    rw [List.take_append_of_le_length (by omega)] at hp
    have := mem_logWrites (List.mem_of_mem_take hp)
    omega
  · intro hk
    obtain ⟨m, rfl⟩ : ∃ m, k = s.log.sector.length + (m + 1) := ⟨k - s.log.sector.length - 1, by omega⟩
    refine ⟨(s.log.start, (commitHeads s).1), ?_, rfl⟩
    rw [← hlen, List.take_length_add_append]
    simp

/-- A commit that is cut short leaves the old disk clean, the transaction pending, or the new disk clean. -/
theorem commit_crash (hf : s.log.Fits) (hn : s.log.sector ≠ []) (h32 : ∀ x ∈ s.log.sector, x < 2 ^ 32)
    (h0 : (s.bio.disk s.log.start).word 0 = 0) (k : Nat) :
    (k ≤ s.log.sector.length ∧ CleanDisk s.log s.bio.disk (crashAfter (commit s).2 k s.bio.disk)) ∨
    (s.log.sector.length < k ∧
      (PendingDisk s.log s.log.sector s.bio.disk s.view (crashAfter (commit s).2 k s.bio.disk) ∨
        CleanDisk s.log (after s.log.sector s.bio.disk s.view) (crashAfter (commit s).2 k s.bio.disk))) := by
  have hlen := length_logWrites s.view s.log.start 0 s.log.sector
  have hlt := hf.lt_size
  have hss : s.log.sector.length < NINDIRECT := by have := hf.le_logsize; simp only [LOGSIZE, MAXOPBLOCKS, NINDIRECT] at *; omega
  let ws := logWrites s.view s.log.start 0 s.log.sector
  rw [crashAfter, writesOf_commit hf hn, commitWrites]
  by_cases hk : k ≤ s.log.sector.length
  · -- only log blocks were written
    left
    rw [List.take_append_of_le_length (by omega)]
    have hw : ∀ p ∈ ws.take k, s.log.start < p.1 ∧ p.1 ≤ s.log.start + s.log.sector.length := by
      intro p hp
      have := mem_logWrites (List.mem_of_mem_take hp)
      omega
    refine ⟨hk, by omega, ?_, fun x hx => ?_⟩
    · rw [store_other (fun p hp hps => by have := hw p hp; omega)]
      exact h0
    · rw [store_other]
      rintro p hp rfl
      have := hw p hp
      exact hx ⟨by omega, by omega⟩
  · right
    refine ⟨by omega, ?_⟩
    obtain ⟨m, rfl⟩ : ∃ m, k = s.log.sector.length + (m + 1) := ⟨k - s.log.sector.length - 1, by omega⟩
    rw [← hlen, List.take_length_add_append, store_append]
    simp only [List.cons_append, List.nil_append, List.take_succ_cons, store_cons]
    -- the disk just after the first `write_head`
    generalize hd : Function.update (store ws s.bio.disk) s.log.start (commitHeads s).1 = d₁
    have hlog : ∀ j (h : j < s.log.sector.length), store ws s.bio.disk (s.log.start + j + 1) = s.view s.log.sector[j] := by
      intro j h
      have := store_logWrites s.view s.log.start 0 s.log.sector s.bio.disk j h
      rwa [Nat.zero_add] at this
    have hp : PendingDisk s.log s.log.sector s.bio.disk s.view d₁ := by
      subst hd
      refine ⟨hf, ?_, fun j hj => ?_, fun x hx hs => ?_⟩
      · rw [Function.update_self]
        exact headSectors_headBlock _ hss h32
      · rw [Function.update_of_ne (by omega)]
        exact hlog j hj
      · have hne : x ≠ s.log.start := by
          rintro rfl
          exact hx ⟨Nat.le_refl _, by omega⟩
        rw [Function.update_of_ne hne, store_other]
        rintro p hp rfl
        have := mem_logWrites hp
        exact hx ⟨by omega, by omega⟩
    have hhome : homeWrites (store ws s.view) s.log.start 0 s.log.sector = homeWrites d₁ s.log.start 0 s.log.sector := by
      subst hd
      apply homeWrites_congr
      intro j _ hj
      rw [Nat.zero_add] at hj
      have := store_logWrites s.view s.log.start 0 s.log.sector s.view j hj
      rw [Nat.zero_add] at this
      rw [Function.update_of_ne (by omega), hlog j hj]
      exact this
    show PendingDisk _ _ _ _ (store ((homeWrites (store ws s.view) _ _ _ ++ _).take m) d₁) ∨ CleanDisk _ _ _
    rw [hhome]
    by_cases hm : m ≤ s.log.sector.length
    · left
      rw [List.take_append_of_le_length (by rw [length_homeWrites]; exact hm)]
      exact pending_store hp fun p hp => mem_homeWrites (List.mem_of_mem_take hp)
    · right
      rw [List.take_of_length_le (by simp [length_homeWrites]; omega), store_append]
      exact clean_update (by omega) (fun x hx => pending_install hp hx) _

end Commit

/-! ## Crash safety -/

/-- **The log is crash safe.** Cut a commit after any number `k` of its sector writes, then any number of recoveries
at any point: a recovery that runs to its end leaves the sectors of the transaction all new if the first `write_head`
was reached and all old if it was not, the other sectors outside the log as they were, and the header count 0. -/
theorem crash_safe {s : LogState} (hf : s.log.Fits) (h32 : ∀ x ∈ s.log.sector, x < 2 ^ 32)
    (h0 : (s.bio.disk s.log.start).word 0 = 0) (k : Nat) (d : Nat → Block)
    (hd : Relation.ReflTransGen (RecoveryCrash s.log) (crashAfter (commit s).2 k s.bio.disk) d) :
    ∃ t w, recoverFromLog (boot s.log d) = (.ok ((), t), w) ∧
      (HeadReached s k → ∀ x ∈ s.log.sector, t.bio.disk x = s.view x) ∧
      (¬HeadReached s k → ∀ x ∈ s.log.sector, t.bio.disk x = s.bio.disk x) ∧
      (∀ x, x ∉ s.log.sector → ¬s.log.InLog x → t.bio.disk x = s.bio.disk x) ∧
      (t.bio.disk s.log.start).word 0 = 0 := by
  have hnot : ∀ x ∈ s.log.sector, ¬s.log.InLog x := by
    rintro x hx ⟨h₁, h₂⟩
    have := hf.out x hx
    omega
  by_cases hn : s.log.sector = []
  · have hdisk : crashAfter (commit s).2 k s.bio.disk = s.bio.disk := by
      rw [commit_nil hn]; simp [crashAfter, writesOf]
    have hc : CleanDisk s.log s.bio.disk s.bio.disk := ⟨by have := hf.lt_size; omega, h0, fun _ _ => rfl⟩
    rw [hdisk] at hd
    obtain ⟨t, w, hr, hc⟩ := clean_recovers (clean_crashes hc hd)
    exact ⟨t, w, hr, by simp [hn], by simp [hn], fun x _ hx => hc.home x hx, hc.head⟩
  · rcases commit_crash hf hn h32 h0 k with ⟨hk, hc⟩ | ⟨hk, hc⟩
    · obtain ⟨t, w, hr, hc⟩ := clean_recovers (clean_crashes hc hd)
      refine ⟨t, w, hr, fun hh => ?_, fun _ x hx => hc.home x (hnot x hx), fun x _ hx => hc.home x hx, hc.head⟩
      have := (headReached_iff hf hn k).1 hh
      omega
    · have hclean : ∃ t w, recoverFromLog (boot s.log d) = (.ok ((), t), w) ∧
          CleanDisk s.log (after s.log.sector s.bio.disk s.view) t.bio.disk := by
        rcases hc with hc | hc
        · rcases pending_crashes hc hd with hp | hp
          · exact pending_recovers hp
          · exact clean_recovers hp
        · exact clean_recovers (clean_crashes hc hd)
      obtain ⟨t, w, hr, hc⟩ := hclean
      refine ⟨t, w, hr, fun _ x hx => ?_, fun hh => absurd ((headReached_iff hf hn k).2 hk) hh, fun x hs hx => ?_, hc.head⟩
      · rw [hc.home x (hnot x hx), after, if_pos hx]
      · rw [hc.home x hx, after, if_neg hs]

/-- A dirty sector 5 is committed with the log at 100, the commit is cut after its header write and the first recovery
after its write home: the next recovery makes sector 5 new. -/
theorem crash_safe_one :
    let s : LogState :=
      { log := ⟨100, 30, 0, true, [5]⟩, bio := ⟨fun _ => Block.zero, fun x => if x = 5 then some (fun _ => 1) else none⟩ }
    let d₁ := crashAfter (commit s).2 2 s.bio.disk
    let d₂ := crashAfter (recoverFromLog (boot s.log d₁)).2 1 d₁
    ∃ t w, recoverFromLog (boot s.log d₂) = (.ok ((), t), w) ∧ t.bio.disk 5 = s.view 5 := by
  intro s d₁ d₂
  have hf : s.log.Fits := ⟨by decide, by decide, by decide⟩
  obtain ⟨t, w, hr, h, -⟩ := crash_safe (s := s) hf (by decide) (Block.word_zero 0) 2 d₂
    (Relation.ReflTransGen.single ⟨1, rfl⟩)
  exact ⟨t, w, hr, h ((headReached_iff hf (by decide) 2).2 (by decide)) 5 (by decide)⟩

/-! ## The superblock -/

/-- `initlog` on a disk whose superblock puts the log at `l` is a recovery of `l`. -/
theorem initlog_run {l : Log} {d : Nat → Block} (hs : (d 1).superblock.size - (d 1).superblock.nlog = l.start)
    (hl : (d 1).superblock.nlog = l.size) (start size : Nat) :
    initlog { log := ⟨start, size, 0, false, []⟩, bio := ⟨d, fun _ => none⟩ } = recoverFromLog (boot l d) := by
  have hsb : readsb { log := ⟨start, size, 0, false, []⟩, bio := ⟨d, fun _ => none⟩ } =
      (.ok ((d 1).superblock, { log := ⟨start, size, 0, false, []⟩, bio := ⟨d, fun _ => none⟩ }), []) := rfl
  unfold initlog
  rw [Prog.run_bind_ok hsb, Prog.run_bind_ok (Prog.run_modify _ _)]
  rw [hs, hl]
  rfl

end NewXv6
