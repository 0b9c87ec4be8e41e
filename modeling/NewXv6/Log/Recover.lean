import NewXv6.Log.Crash

/-!
# Recovering a transaction

What a crash leaves is good if every recovery from it, after any number of recoveries that were cut short, ends with the same
sectors outside the log (`Recovers`). A clean disk and a pending one are; so an `end_op` that commits is atomic: wherever it is
cut, the sectors are recovered as they were before the transaction, or as they are after it (`endOp_commits`).
-/

namespace NewXv6

open Lib

/-- Every recovery from the disk `d`, after any crashes of recoveries, ends with an empty log and the sectors of `home`. -/
def Recovers (l : Log) (d home : Nat → Block) : Prop :=
  ∀ d', Relation.ReflTransGen (RecoveryCrash l) d d' →
    ∃ t w, recoverFromLog (boot l d') = (.ok ((), t), w) ∧ CleanDisk l home t.bio.disk

section

variable {l l' : Log} {ss : List Nat} {home home' old new d : Nat → Block}

theorem CleanDisk.recovers (h : CleanDisk l home d) : Recovers l d home := fun _ hd => clean_recovers (clean_crashes h hd)

theorem PendingDisk.recovers (h : PendingDisk l ss old new d) : Recovers l d (after ss old new) := fun _ hd =>
  (pending_crashes h hd).elim pending_recovers clean_recovers

theorem CleanDisk.congr (h : CleanDisk l home d) (hstart : l.start = l'.start) (hsize : l.size = l'.size)
    (hhome : ∀ x, ¬l.InLog x → home x = home' x) : CleanDisk l' home' d := by
  have hin : ∀ x, l'.InLog x ↔ l.InLog x := fun x => by
    unfold Log.InLog
    rw [hstart, hsize]
  refine ⟨?_, ?_, fun x hx => ?_⟩
  · rw [← hsize]
    exact h.size_pos
  · rw [← hstart]
    exact h.head
  · rw [hin] at hx
    rw [← hhome x hx]
    exact h.home x hx

/-- Of the log, only its place matters; of the sectors, those outside it. -/
theorem Recovers.congr (h : Recovers l d home) (hstart : l.start = l'.start) (hsize : l.size = l'.size)
    (hhome : ∀ x, ¬l.InLog x → home x = home' x) : Recovers l' d home' := by
  have hboot : boot l' = boot l := by
    unfold boot
    rw [hstart, hsize]
  have hcrash : RecoveryCrash l' = RecoveryCrash l := by
    unfold RecoveryCrash
    rw [hboot]
  intro d' hd
  rw [hcrash] at hd
  obtain ⟨t, w, hrun, hclean⟩ := h d' hd
  refine ⟨t, w, ?_, hclean.congr hstart hsize hhome⟩
  rw [hboot]
  exact hrun

end

section

variable {u : LogState}

/-- The last `write_head` leaves the count 0. -/
theorem head_commitWrites (s : LogState) (d : Nat → Block) : (store (commitWrites s) d s.log.start).word 0 = 0 := by
  unfold commitWrites
  simp only [store_append, store_cons, store_nil, Function.update_self]
  exact word_headBlock_zero _ (by decide)

/-- What the last `end_op` of a transaction does: its sector writes are `ws`, and it leaves nothing in the log. -/
structure Commits (u : LogState) (ws : List (Nat × Block)) (io : LogState) : Prop where
  run : endOp u = (.ok ((), io), .endOp :: bwrites ws)
  log : io.log = { u.log with outstanding := 0, sector := [] }
  dirty : ∀ x, io.bio.dirty x = none
  disk : io.bio.disk = store ws u.bio.disk
  head : (io.bio.disk u.log.start).word 0 = 0
  view : ∀ x, ¬u.log.InLog x → io.view x = u.view x
  crash : ∀ k, Recovers u.log (store (ws.take k) u.bio.disk) u.bio.disk ∨ Recovers u.log (store (ws.take k) u.bio.disk) io.view

/-- **An `end_op` that commits is atomic.** -/
theorem endOp_commits (hout : u.log.outstanding = 1) (hcom : u.log.committing = false) (hf : u.log.Fits)
    (hdirty : ∀ x, u.bio.dirty x ≠ none → x ∈ u.log.sector) (h32 : ∀ x ∈ u.log.sector, x < 2 ^ 32)
    (h0 : (u.bio.disk u.log.start).word 0 = 0) : ∃ ws io, Commits u ws io := by
  -- the state in which `commit` starts
  let s : LogState := { u with log := { u.log with outstanding := 0, committing := true } }
  have hsf : s.log.Fits := ⟨hf.le_logsize, hf.lt_size, hf.out⟩
  have hpos : 0 < s.log.size := Nat.lt_of_le_of_lt (Nat.zero_le _) hf.lt_size
  have hend : ∀ {io : LogState} {w : List Event}, commit s = (.ok ((), io), w) →
      endOp u = (.ok ((), { io with log := { io.log with committing := false } }), .endOp :: w) := fun {io w} hrun => by
    let done : LogState → LogState := fun s => { s with log := { s.log with committing := false } }
    have hstep : endOp u = (((commit >>= fun _ => Prog.modify done) s).1, .endOp :: ((commit >>= fun _ => Prog.modify done) s).2) := by
      rcases u with ⟨⟨start, size, outstanding, committing, sector⟩, bio⟩
      dsimp only at hout hcom
      subst hout
      subst hcom
      rfl
    rw [hstep, Prog.run_bind_ok hrun, Prog.run_modify, List.append_nil]
  by_cases hn : s.log.sector = []
  · refine ⟨[], _, hend (commit_nil hn), ?_, fun x => ?_, rfl, h0, fun _ _ => rfl, fun k => Or.inl ?_⟩
    · show ({ s.log with committing := false } : Log) = _
      have hsec : u.log.sector = [] := hn
      rw [← hsec, ← hcom]
    · by_contra hx
      have hmem := hdirty x hx
      have hsec : u.log.sector = [] := hn
      rw [hsec] at hmem
      exact absurd hmem List.not_mem_nil
    · rw [List.take_nil]
      exact CleanDisk.recovers ⟨hpos, h0, fun _ _ => rfl⟩
  · have hview : ∀ x, ¬u.log.InLog x → store (commitWrites s) s.view x = u.view x := fun x hx => by
      refine store_commitWrites hsf ?_
      unfold Log.InLog at hx
      show x < u.log.start ∨ u.log.start + u.log.size ≤ x
      omega
    have hclean : ∀ x, (s.bio.writeAll (commitWrites s)).dirty x = none := fun x => by
      rw [Bio.dirty_writeAll]
      split
      · rfl
      · rename_i hno
        by_contra hx
        exact hno (mem_commitWrites (hdirty x hx))
    refine ⟨commitWrites s, _, hend (commit_run hsf hn), ?_, hclean, Bio.disk_writeAll _ _, ?_, fun x hx => ?_, fun k => ?_⟩
    · show ({ u.log with outstanding := 0, committing := false, sector := [] } : Log) = _
      rw [← hcom]
    · show ((s.bio.writeAll (commitWrites s)).disk s.log.start).word 0 = 0
      rw [Bio.disk_writeAll]
      exact head_commitWrites s _
    · show (s.bio.writeAll (commitWrites s)).view x = _
      rw [Bio.view_writeAll]
      exact hview x hx
    · have hcrash := commit_crash hsf hn h32 h0 k
      rw [crashAfter, writesOf_commit hsf hn] at hcrash
      -- the sectors of the transaction are those whose buffers are dirty
      have hafter : ∀ x, ¬s.log.InLog x → after s.log.sector s.bio.disk s.view x = (s.bio.writeAll (commitWrites s)).view x :=
        fun x hx => by
          rw [Bio.view_writeAll]
          refine Eq.trans ?_ (hview x hx).symm
          unfold after
          split
          · rfl
          · rename_i hno
            have hnone : u.bio.dirty x = none := by
              by_contra hx
              exact hno (hdirty x hx)
            show u.bio.disk x = (u.bio.dirty x).getD (u.bio.disk x)
            rw [hnone]
            rfl
      rcases hcrash with ⟨-, hold⟩ | ⟨-, hpending | hnew⟩
      · exact Or.inl (hold.recovers.congr rfl rfl fun _ _ => rfl)
      · exact Or.inr (hpending.recovers.congr rfl rfl hafter)
      · exact Or.inr (hnew.recovers.congr rfl rfl hafter)

end

end NewXv6
