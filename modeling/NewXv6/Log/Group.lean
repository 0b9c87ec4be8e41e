import NewXv6.Log.Model
import NewXv6.Lib.Run
import Mathlib.Data.Finset.Card
import Mathlib.Algebra.Order.BigOperators.Group.Finset

/-!
# Group commit

Any number of processes call `begin_op`, `log_write` and `end_op`. A step is a section of `log.c` under `log.lock`, a
call of `log_write`, or one of the calls `commit` makes; between two steps any other process may run. The tests and
the updates of `struct log` are those of `NewXv6.Log.Model`.

`History` is what the processes have asked for, a function of the actions alone: the sectors each running operation has
logged, those of each operation that ended since the last commit, and all of them together.
-/

namespace NewXv6

open Lib

/-! ## The system -/

/-- What `commit` and the end of `end_op` do next. -/
inductive CommitPc
  | start
  | writeLog
  | writeHead
  | installTrans
  | clearHead
  | eraseHead
  | finish
  deriving DecidableEq, Repr

/-- Where a process is: outside of a transaction, sleeping in `begin_op`, woken up in it, between `begin_op` and
`end_op`, or committing in `end_op`. -/
inductive Phase
  | outside
  | asleep
  | woken
  | inOp
  | commit (pc : CommitPc)
  deriving DecidableEq, Repr

/-- The log and the processes. -/
structure Group (Proc : Type) where
  log : Log
  phase : Proc → Phase
  panicked : Option Panic

/-- What a process does in one step. -/
inductive Act (Proc : Type)
  /-- One pass of the loop in `begin_op`. -/
  | begin (p : Proc)
  /-- A sleep is ended from outside (`kill`). -/
  | kill (p : Proc)
  /-- `log_write` of sector `x`. -/
  | logWrite (p : Proc) (x : Nat)
  /-- The first locked section of `end_op`. -/
  | endOp (p : Proc)
  /-- The next call in `commit`. -/
  | commit (p : Proc)
  /-- The last locked section of `end_op`. -/
  | finish (p : Proc)

namespace Group

variable {Proc : Type} [DecidableEq Proc]

/-- The system after `initlog`. -/
def init (start size : Nat) : Group Proc where
  log := { start, size, outstanding := 0, committing := false, sector := [] }
  phase _ := .outside
  panicked := none

/-- Process `p` goes to phase `ph`. -/
def goto (s : Group Proc) (p : Proc) (ph : Phase) : Group Proc := { s with phase := Function.update s.phase p ph }

/-- `wakeup(&log)`. -/
def wakeup (s : Group Proc) : Group Proc :=
  { s with phase := fun p => if s.phase p = .asleep then .woken else s.phase p }

/-- One pass of the loop in `begin_op`. -/
def begin (s : Group Proc) (p : Proc) : Group Proc :=
  if s.log.committing then s.goto p .asleep
  else if s.log.full then s.goto p .asleep
  else { s.goto p .inOp with log := { s.log with outstanding := s.log.outstanding + 1 } }

/-- `log_write`. -/
def logWrite (s : Group Proc) (x : Nat) : Group Proc :=
  if s.log.tooBig then { s with panicked := some .tooBigATransaction }
  else if s.log.outstanding < 1 then { s with panicked := some .logWriteOutsideOfTrans }
  else { s with log := s.log.record x }

/-- The first locked section of `end_op`. -/
def endOp (s : Group Proc) (p : Proc) : Group Proc :=
  let s := { s with log := { s.log with outstanding := s.log.outstanding - 1 } }
  if s.log.committing then { s with panicked := some .logCommitting }
  else if s.log.outstanding = 0 then { s.goto p (.commit .start) with log := { s.log with committing := true } }
  else (s.goto p .outside).wakeup

/-- The next call in `commit`. -/
def commit (s : Group Proc) (p : Proc) : CommitPc → Group Proc
  | .start => if s.log.sector.length > 0 then s.goto p (.commit .writeLog) else s.goto p (.commit .finish)
  | .writeLog => s.goto p (.commit .writeHead)
  | .writeHead => s.goto p (.commit .installTrans)
  | .installTrans => s.goto p (.commit .clearHead)
  | .clearHead => { s.goto p (.commit .eraseHead) with log := { s.log with sector := [] } }
  | .eraseHead => s.goto p (.commit .finish)
  | .finish => s

/-- The last locked section of `end_op`. -/
def finish (s : Group Proc) (p : Proc) : Group Proc :=
  wakeup { s.goto p .outside with log := { s.log with committing := false } }

/-- One step, if the process is where the action starts and nobody has panicked. -/
def step (s : Group Proc) (a : Act Proc) : Option (Group Proc) :=
  if s.panicked ≠ none then none
  else
    match a with
    | .begin p => if s.phase p = .outside ∨ s.phase p = .woken then some (s.begin p) else none
    | .kill p => if s.phase p = .asleep then some (s.goto p .woken) else none
    | .logWrite p x => if s.phase p = .inOp then some (s.logWrite x) else none
    | .endOp p => if s.phase p = .inOp then some (s.endOp p) else none
    | .commit p =>
      match s.phase p with
      | .commit .finish => none
      | .commit pc => some (s.commit p pc)
      | _ => none
    | .finish p => if s.phase p = .commit .finish then some (s.finish p) else none

end Group

/-! ## History -/

/-- What the actions so far have asked for: the sectors each process has logged since its last `begin_op`, those of each
operation that ended since the last commit, and all sectors logged since then. -/
structure History (Proc : Type) where
  running : Proc → List Nat
  ended : List (List Nat)
  group : Finset Nat

namespace History

variable {Proc : Type} [DecidableEq Proc]

/-- One more action. -/
def next (h : History Proc) : Act Proc → History Proc
  | .begin p => { h with running := Function.update h.running p [] }
  | .logWrite p x =>
    { h with running := Function.update h.running p (x :: h.running p), group := insert x h.group }
  | .endOp p => { h with ended := h.running p :: h.ended }
  | .finish _ => { h with ended := [], group := ∅ }
  | .kill _ | .commit _ => h

end History

/-- The history of a list of actions. -/
def history {Proc : Type} [DecidableEq Proc] (tr : List (Act Proc)) : History Proc :=
  tr.foldl History.next ⟨fun _ => [], [], ∅⟩

/-- Every operation logs at most `n` distinct sectors. -/
def OpBound {Proc : Type} [DecidableEq Proc] (n : Nat) (tr : List (Act Proc)) : Prop :=
  ∀ k p, ((history (tr.take k)).running p).toFinset.card ≤ n

/-! ## The invariant -/

namespace Group

variable {Proc : Type}

/-- The sectors of the running and the ended operations are still in the header: no commit is past clearing it. -/
def Holds (s : Group Proc) : Prop := ∀ p, s.phase p ≠ .commit .eraseHead ∧ s.phase p ≠ .commit .finish

/-- What holds between any two steps. -/
structure Inv (h : History Proc) (s : Group Proc) : Prop where
  /-- `outstanding` counts the processes between `begin_op` and `end_op`. -/
  ops : ∃ F : Finset Proc, (∀ p, p ∈ F ↔ s.phase p = .inOp) ∧ s.log.outstanding = F.card
  committer : ∀ p pc, s.phase p = .commit pc → s.log.committing = true
  one : ∀ p q pc pc', s.phase p = .commit pc → s.phase q = .commit pc' → p = q
  alone : s.log.committing = true → ∀ p, s.phase p ≠ .inOp
  nodup : s.log.sector.Nodup
  quiet : s.log.committing = false → (∀ p, s.phase p ≠ .inOp) → s.log.sector = []
  cleared : ¬s.Holds → s.log.sector = []
  ops_mem : s.Holds → ∀ x, x ∈ s.log.sector ↔ (∃ op ∈ h.ended, x ∈ op) ∨ ∃ p, s.phase p = .inOp ∧ x ∈ h.running p
  group_mem : s.Holds → ∀ x, x ∈ s.log.sector ↔ x ∈ h.group

theorem inv_init [DecidableEq Proc] (start size : Nat) : Inv (history []) (init start size : Group Proc) := by
  refine ⟨⟨∅, ?_, rfl⟩, ?_, ?_, ?_, ?_, fun _ _ => rfl, fun _ => rfl, ?_, ?_⟩ <;> simp [init, history]

/-- The invariant sees only who is in an operation and who commits. -/
theorem Inv.congr {h : History Proc} {s t : Group Proc} (hs : Inv h s) (hl : t.log = s.log)
    (hop : ∀ p, t.phase p = .inOp ↔ s.phase p = .inOp)
    (hc : ∀ p pc, t.phase p = .commit pc ↔ s.phase p = .commit pc) : Inv h t := by
  have hh : t.Holds ↔ s.Holds := by
    unfold Holds
    simp only [ne_eq, hc]
  obtain ⟨F, hF, ho⟩ := hs.ops
  refine ⟨⟨F, fun p => (hF p).trans (hop p).symm, by rw [hl, ho]⟩, ?_, ?_, ?_, ?_, ?_, ?_, ?_, ?_⟩
  · intro p pc hp
    rw [hl]
    exact hs.committer p pc ((hc p pc).1 hp)
  · intro p q pc pc' hp hq
    exact hs.one p q pc pc' ((hc p pc).1 hp) ((hc q pc').1 hq)
  · intro h₁ p hp
    rw [hl] at h₁
    exact hs.alone h₁ p ((hop p).1 hp)
  · rw [hl]
    exact hs.nodup
  · intro h₁ h₂
    rw [hl] at h₁ ⊢
    exact hs.quiet h₁ fun p hp => h₂ p ((hop p).2 hp)
  · intro h₁
    rw [hl]
    exact hs.cleared fun h₂ => h₁ (hh.2 h₂)
  · intro h₁ x
    rw [hl, hs.ops_mem (hh.1 h₁)]
    simp only [hop]
  · intro h₁ x
    rw [hl]
    exact hs.group_mem (hh.1 h₁) x

/-- While nobody commits, the header holds the sectors of the running and the ended operations. -/
theorem Inv.holds {h : History Proc} {s : Group Proc} (hs : Inv h s) (hc : s.log.committing = false) : s.Holds := by
  refine fun p => ⟨fun hp => ?_, fun hp => ?_⟩
  · have := hs.committer p _ hp
    simp [hc] at this
  · have := hs.committer p _ hp
    simp [hc] at this

/-- A process in an operation excludes a commit. -/
theorem Inv.committing {h : History Proc} {s : Group Proc} (hs : Inv h s) {p : Proc} (hp : s.phase p = .inOp) :
    s.log.committing = false := by
  cases hc : s.log.committing with
  | false => rfl
  | true => exact absurd hp (hs.alone hc p)

theorem Inv.outstanding_pos {h : History Proc} {s : Group Proc} (hs : Inv h s) {p : Proc} (hp : s.phase p = .inOp) :
    1 ≤ s.log.outstanding := by
  obtain ⟨F, hF, ho⟩ := hs.ops
  have : 0 < F.card := Finset.card_pos.2 ⟨p, (hF p).2 hp⟩
  omega

variable [DecidableEq Proc]

theorem phase_goto (s : Group Proc) (p q : Proc) (ph : Phase) :
    (s.goto p ph).phase q = if q = p then ph else s.phase q := by
  simp [goto, Function.update_apply]

/-! ## One step -/

theorem inv_goto {h : History Proc} {s : Group Proc} (hs : Inv h s) {p : Proc} {ph : Phase}
    (hp : s.phase p = .outside ∨ s.phase p = .asleep ∨ s.phase p = .woken)
    (hph : ph = .outside ∨ ph = .asleep ∨ ph = .woken) : Inv h (s.goto p ph) := by
  refine hs.congr rfl (fun q => ?_) (fun q pc => ?_)
  all_goals
    rw [phase_goto]
    split
    · subst q
      rcases hp with hp | hp | hp <;> rcases hph with rfl | rfl | rfl <;> simp [hp]
    · rfl

omit [DecidableEq Proc] in
theorem inv_wakeup {h : History Proc} {s : Group Proc} (hs : Inv h s) : Inv h s.wakeup := by
  refine hs.congr rfl (fun q => ?_) (fun q pc => ?_)
  all_goals
    simp only [wakeup]
    split
    · simp_all
    · rfl

theorem inv_begin {h : History Proc} {s : Group Proc} (hs : Inv h s) {p : Proc}
    (hp : s.phase p = .outside ∨ s.phase p = .woken) : Inv (h.next (.begin p)) (s.begin p) := by
  -- the history of a process that is in no operation does not matter
  have hs' : Inv (h.next (.begin p)) s := by
    refine ⟨hs.ops, hs.committer, hs.one, hs.alone, hs.nodup, hs.quiet, hs.cleared, fun hh x => ?_, hs.group_mem⟩
    rw [hs.ops_mem hh]
    have : ∀ q, (s.phase q = .inOp ∧ x ∈ h.running q) ↔
        (s.phase q = .inOp ∧ x ∈ (h.next (.begin p)).running q) := by
      intro q
      by_cases hq : q = p
      · subst q
        rcases hp with hp | hp <;> simp [hp]
      · simp [History.next, Function.update_of_ne hq]
    simp only [this]
    rfl
  unfold begin
  split
  · exact inv_goto hs' (by tauto) (by simp)
  split
  · exact inv_goto hs' (by tauto) (by simp)
  rename_i hc _
  have hc : s.log.committing = false := by simpa using hc
  have hno : ∀ q pc, s.phase q ≠ .commit pc := by
    intro q pc hq
    have := hs.committer q pc hq
    simp [hc] at this
  obtain ⟨F, hF, ho⟩ := hs.ops
  have hpF : p ∉ F := by
    rw [hF]
    rcases hp with hp | hp <;> simp [hp]
  have hin : ∀ q, (s.goto p .inOp).phase q = .inOp ↔ q = p ∨ s.phase q = .inOp := by
    intro q
    rw [phase_goto]
    split <;> simp_all
  have hco : ∀ q pc, (s.goto p .inOp).phase q ≠ .commit pc := by
    intro q pc
    rw [phase_goto]
    split
    · simp
    · exact hno q pc
  refine ⟨⟨insert p F, fun q => ?_, ?_⟩, ?_, ?_, ?_, hs.nodup, ?_, ?_, ?_, ?_⟩
  · show q ∈ insert p F ↔ (s.goto p .inOp).phase q = .inOp
    rw [hin, Finset.mem_insert, hF]
  · show s.log.outstanding + 1 = _
    rw [Finset.card_insert_of_notMem hpF, ho]
    simp
  · exact fun q pc hq => absurd hq (hco q pc)
  · exact fun q _ pc _ hq _ => absurd hq (hco q pc)
  · intro h₁
    exact absurd h₁ (by simp [hc])
  · intro _ h₂
    exact absurd ((hin p).2 (Or.inl rfl)) (h₂ p)
  · intro h₁
    exact absurd (fun q => ⟨hco q _, hco q _⟩) h₁
  · intro _ x
    show x ∈ s.log.sector ↔ _ ∨ ∃ q, (s.goto p .inOp).phase q = .inOp ∧ _
    rw [hs'.ops_mem (hs.holds hc)]
    constructor
    · rintro (h₁ | ⟨q, hq, hx⟩)
      · exact Or.inl h₁
      · exact Or.inr ⟨q, (hin q).2 (Or.inr hq), hx⟩
    · rintro (h₁ | ⟨q, hq, hx⟩)
      · exact Or.inl h₁
      · rcases (hin q).1 hq with rfl | hq
        · simp [History.next] at hx
        · exact Or.inr ⟨q, hq, hx⟩
  · intro _ x
    exact hs'.group_mem (hs.holds hc) x

/-- A `log_write` that the tests let through. -/
theorem inv_record {h : History Proc} {s : Group Proc} (hs : Inv h s) {p : Proc} (x : Nat) (hp : s.phase p = .inOp) :
    Inv (h.next (.logWrite p x)) { s with log := s.log.record x } := by
  have hc := hs.committing hp
  have hmem : ∀ y, y ∈ (s.log.record x).sector ↔ y = x ∨ y ∈ s.log.sector := by
    intro y
    unfold Log.record
    split <;> simp_all [or_comm]
  have hcom : (s.log.record x).committing = s.log.committing := by
    unfold Log.record
    split <;> rfl
  have hout : (s.log.record x).outstanding = s.log.outstanding := by
    unfold Log.record
    split <;> rfl
  obtain ⟨F, hF, ho⟩ := hs.ops
  have hno : ∀ q pc, s.phase q ≠ .commit pc := by
    intro q pc hq
    have := hs.committer q pc hq
    simp [hc] at this
  refine ⟨⟨F, hF, hout.trans ho⟩, ?_, hs.one, ?_, ?_, ?_, ?_, ?_, ?_⟩
  · exact fun q pc hq => absurd hq (hno q pc)
  · intro h₁
    exact absurd (hcom.symm.trans h₁) (by simp [hc])
  · show (s.log.record x).sector.Nodup
    unfold Log.record
    split
    · exact hs.nodup
    · rename_i hx
      exact List.nodup_append.2 ⟨hs.nodup, by simp, by
        intro y hy z hz hyz
        rw [List.mem_singleton.1 hz] at hyz
        exact hx (hyz ▸ hy)⟩
  · intro _ h₂
    exact absurd hp (h₂ p)
  · intro h₁
    exact absurd (fun q => ⟨hno q _, hno q _⟩) h₁
  · intro _ y
    show y ∈ (s.log.record x).sector ↔ _ ∨ ∃ q, s.phase q = .inOp ∧ y ∈ (h.next (.logWrite p x)).running q
    rw [hmem, hs.ops_mem (hs.holds hc)]
    constructor
    · rintro (rfl | h₁ | ⟨q, hq, hy⟩)
      · exact Or.inr ⟨p, hp, by simp [History.next]⟩
      · exact Or.inl h₁
      · refine Or.inr ⟨q, hq, ?_⟩
        by_cases hqp : q = p
        · subst q; simp [History.next, hy]
        · simp [History.next, Function.update_of_ne hqp, hy]
    · rintro (h₁ | ⟨q, hq, hy⟩)
      · exact Or.inr (Or.inl h₁)
      · by_cases hqp : q = p
        · subst q
          simp only [History.next, Function.update_self, List.mem_cons] at hy
          rcases hy with rfl | hy
          · exact Or.inl rfl
          · exact Or.inr (Or.inr ⟨p, hp, hy⟩)
        · simp only [History.next, Function.update_of_ne hqp] at hy
          exact Or.inr (Or.inr ⟨q, hq, hy⟩)
  · intro _ y
    show y ∈ (s.log.record x).sector ↔ y ∈ insert x h.group
    rw [hmem, hs.group_mem (hs.holds hc), Finset.mem_insert]

theorem inv_endOp {h : History Proc} {s : Group Proc} (hs : Inv h s) {p : Proc} (hp : s.phase p = .inOp) :
    Inv (h.next (.endOp p)) (s.endOp p) ∧ (s.endOp p).panicked = s.panicked := by
  have hc := hs.committing hp
  have hno : ∀ q pc, s.phase q ≠ .commit pc := by
    intro q pc hq
    have := hs.committer q pc hq
    simp [hc] at this
  obtain ⟨F, hF, ho⟩ := hs.ops
  have hpF : p ∈ F := (hF p).2 hp
  have hcard : (F.erase p).card + 1 = F.card := Finset.card_erase_add_one hpF
  have hmem : ∀ x, x ∈ s.log.sector ↔ (∃ op ∈ (h.next (.endOp p)).ended, x ∈ op) ∨
      ∃ q, q ≠ p ∧ s.phase q = .inOp ∧ x ∈ h.running q := by
    intro x
    rw [hs.ops_mem (hs.holds hc)]
    simp only [History.next, List.mem_cons, exists_eq_or_imp]
    constructor
    · rintro (h₁ | ⟨q, hq, hx⟩)
      · exact Or.inl (Or.inr h₁)
      · by_cases hqp : q = p
        · subst q; exact Or.inl (Or.inl hx)
        · exact Or.inr ⟨q, hqp, hq, hx⟩
    · rintro ((hx | h₁) | ⟨q, -, hq, hx⟩)
      · exact Or.inr ⟨p, hp, hx⟩
      · exact Or.inl h₁
      · exact Or.inr ⟨q, hq, hx⟩
  unfold endOp
  simp only [hc, Bool.false_eq_true, ↓reduceIte]
  split
  · -- the last operation: this process commits
    rename_i hz
    have hin : ∀ q, s.phase q = .inOp → q = p := by
      intro q hq
      by_contra hqp
      have : 0 < (F.erase p).card := Finset.card_pos.2 ⟨q, Finset.mem_erase.2 ⟨hqp, (hF q).2 hq⟩⟩
      omega
    have hph : ∀ q, (s.goto p (.commit .start)).phase q ≠ .inOp := by
      intro q
      rw [phase_goto]
      split
      · simp
      · rename_i hqp
        exact fun hq => hqp (hin q hq)
    have hcom : ∀ q pc, (s.goto p (.commit .start)).phase q = .commit pc → q = p ∧ pc = .start := by
      intro q pc
      rw [phase_goto]
      split
      · simp_all
      · exact fun hq => absurd hq (hno q pc)
    refine ⟨⟨⟨∅, fun q => ?_, ?_⟩, fun _ _ _ => rfl, ?_, fun _ => hph, hs.nodup, ?_, ?_, ?_, ?_⟩, rfl⟩
    · exact iff_of_false (Finset.notMem_empty q) (hph q)
    · simpa using hz
    · intro q q' pc pc' hq hq'
      rw [(hcom q pc hq).1, (hcom q' pc' hq').1]
    · intro h₁
      simp at h₁
    · intro h₁
      refine absurd (fun q => ⟨fun hq => ?_, fun hq => ?_⟩) h₁
      · exact absurd (hcom q _ hq).2 (by simp)
      · exact absurd (hcom q _ hq).2 (by simp)
    · intro _ x
      show x ∈ s.log.sector ↔ _ ∨ ∃ q, (s.goto p (.commit .start)).phase q = .inOp ∧ _
      rw [hmem]
      constructor
      · rintro (h₁ | ⟨q, hqp, hq, -⟩)
        · exact Or.inl h₁
        · exact absurd (hin q hq) hqp
      · rintro (h₁ | ⟨q, hq, -⟩)
        · exact Or.inl h₁
        · exact absurd hq (hph q)
    · exact fun _ => hs.group_mem (hs.holds hc)
  · -- others are still running
    rename_i hz
    refine ⟨inv_wakeup ?_, rfl⟩
    have hin : ∀ q, (s.goto p .outside).phase q = .inOp ↔ q ≠ p ∧ s.phase q = .inOp := by
      intro q
      rw [phase_goto]
      split <;> simp_all
    have hco : ∀ q pc, (s.goto p .outside).phase q ≠ .commit pc := by
      intro q pc
      rw [phase_goto]
      split
      · simp
      · exact hno q pc
    refine ⟨⟨F.erase p, fun q => ?_, ?_⟩, ?_, ?_, ?_, hs.nodup, ?_, ?_, ?_, ?_⟩
    · show q ∈ F.erase p ↔ (s.goto p .outside).phase q = .inOp
      rw [hin, Finset.mem_erase, hF]
    · show s.log.outstanding - 1 = _
      omega
    · exact fun q pc hq => absurd hq (hco q pc)
    · exact fun q _ pc _ hq _ => absurd hq (hco q pc)
    · intro h₁
      exact absurd h₁ (by simp [goto])
    · intro _ h₂
      exfalso
      apply hz
      have : F.erase p = ∅ := by
        ext q
        simp only [Finset.mem_erase, hF, Finset.notMem_empty, iff_false]
        exact fun hq => h₂ q ((hin q).2 hq)
      rw [this] at hcard
      simp at hcard
      omega
    · intro h₁
      exact absurd (fun q => ⟨hco q _, hco q _⟩) h₁
    · intro _ x
      show x ∈ s.log.sector ↔ _ ∨ ∃ q, (s.goto p .outside).phase q = .inOp ∧ _
      rw [hmem]
      simp only [hin, and_assoc]
      rfl
    · exact fun _ => hs.group_mem (hs.holds hc)

theorem inv_commit {h : History Proc} {s : Group Proc} (hs : Inv h s) {p : Proc} {pc : CommitPc}
    (hp : s.phase p = .commit pc) (hpc : pc ≠ .finish) : Inv h (s.commit p pc) := by
  have hc := hs.committer p pc hp
  have halone := hs.alone hc
  -- every call takes the committer on; only clearing the header changes the log
  have key : ∀ (pc' : CommitPc) (ss : List Nat), ss.Nodup →
      ((pc' = .eraseHead ∨ pc' = .finish) → ss = []) →
      (¬(pc' = .eraseHead ∨ pc' = .finish) → ss = s.log.sector ∧ s.Holds) →
      Inv h { s.goto p (.commit pc') with log := { s.log with sector := ss } } := by
    intro pc' ss hnd hclr hkeep
    have hph : ∀ q, (s.goto p (.commit pc')).phase q ≠ .inOp := by
      intro q
      rw [phase_goto]
      split
      · simp
      · exact halone q
    have hcom : ∀ q pc'', (s.goto p (.commit pc')).phase q = .commit pc'' → q = p ∧ pc'' = pc' := by
      intro q pc''
      rw [phase_goto]
      split
      · simp_all
      · rename_i hqp
        exact fun hq => absurd (hs.one q p _ _ hq hp) hqp
    have hself : (s.goto p (.commit pc')).phase p = .commit pc' := by simp [phase_goto]
    have hholds : Holds { s.goto p (.commit pc') with log := { s.log with sector := ss } } →
        ¬(pc' = .eraseHead ∨ pc' = .finish) := by
      rintro h₁ (rfl | rfl)
      · exact (h₁ p).1 hself
      · exact (h₁ p).2 hself
    obtain ⟨F, hF, ho⟩ := hs.ops
    have hFe : F = ∅ := by
      ext q
      simpa [hF] using halone q
    refine ⟨⟨∅, fun q => by simpa using hph q, by rw [ho, hFe]⟩, fun _ _ _ => hc, ?_, fun _ => hph, hnd, ?_, ?_, ?_, ?_⟩
    · intro q q' pc₁ pc₂ hq hq'
      rw [(hcom q pc₁ hq).1, (hcom q' pc₂ hq').1]
    · intro h₁
      simp [hc] at h₁
    · intro h₁
      apply hclr
      by_contra hno
      refine h₁ fun q => ⟨fun hq => ?_, fun hq => ?_⟩
      · exact hno (Or.inl (hcom q _ hq).2.symm)
      · exact hno (Or.inr (hcom q _ hq).2.symm)
    · intro h₁ x
      obtain ⟨rfl, hh⟩ := hkeep (hholds h₁)
      show x ∈ s.log.sector ↔ _ ∨ ∃ q, (s.goto p (.commit pc')).phase q = .inOp ∧ _
      rw [hs.ops_mem hh]
      simp only [hph, halone, false_and, exists_false]
    · intro h₁ x
      obtain ⟨rfl, hh⟩ := hkeep (hholds h₁)
      exact hs.group_mem hh x
  have hholds : pc ≠ .eraseHead → s.Holds := by
    intro hne q
    refine ⟨fun hq => ?_, fun hq => ?_⟩
    · obtain rfl := hs.one q p _ _ hq hp
      rw [hp] at hq
      exact hne (by simpa using hq)
    · obtain rfl := hs.one q p _ _ hq hp
      rw [hp] at hq
      exact hpc (by simpa using hq)
  cases pc with
  | start =>
    simp only [commit]
    split
    · exact key .writeLog _ hs.nodup (by simp) fun _ => ⟨rfl, hholds (by simp)⟩
    · rename_i hlen
      have : s.log.sector = [] := List.length_eq_zero_iff.1 (by omega)
      exact key .finish _ hs.nodup (fun _ => this) (by simp)
  | writeLog => exact key .writeHead _ hs.nodup (by simp) fun _ => ⟨rfl, hholds (by simp)⟩
  | writeHead => exact key .installTrans _ hs.nodup (by simp) fun _ => ⟨rfl, hholds (by simp)⟩
  | installTrans => exact key .clearHead _ hs.nodup (by simp) fun _ => ⟨rfl, hholds (by simp)⟩
  | clearHead => exact key .eraseHead [] List.nodup_nil (fun _ => rfl) (by simp)
  | eraseHead => exact key .finish _ hs.nodup (fun _ => hs.cleared fun hh => (hh p).1 hp) (by simp)
  | finish => exact absurd rfl hpc

theorem inv_finish {h : History Proc} {s : Group Proc} (hs : Inv h s) {p : Proc} (hp : s.phase p = .commit .finish) :
    Inv (h.next (.finish p)) (s.finish p) := by
  have hc := hs.committer p _ hp
  have halone := hs.alone hc
  have hempty : s.log.sector = [] := hs.cleared fun hh => (hh p).2 hp
  have hph : ∀ q, (s.goto p .outside).phase q ≠ .inOp := by
    intro q
    rw [phase_goto]
    split
    · simp
    · exact halone q
  have hco : ∀ q pc, (s.goto p .outside).phase q ≠ .commit pc := by
    intro q pc
    rw [phase_goto]
    split
    · simp
    · rename_i hqp
      exact fun hq => hqp (hs.one q p _ _ hq hp)
  obtain ⟨F, hF, ho⟩ := hs.ops
  have hFe : F = ∅ := by
    ext q
    simpa [hF] using halone q
  refine inv_wakeup ⟨⟨∅, fun q => by simpa using hph q, by rw [← hFe]; exact ho⟩, ?_, ?_, ?_, hs.nodup,
    fun _ _ => hempty, fun _ => hempty, ?_, ?_⟩
  · exact fun q pc hq => absurd hq (hco q pc)
  · exact fun q _ pc _ hq _ => absurd hq (hco q pc)
  · exact fun _ => hph
  · intro _ x
    show x ∈ s.log.sector ↔ _
    rw [hempty]
    simp [History.next, hph]
  · intro _ x
    show x ∈ s.log.sector ↔ _
    rw [hempty]
    simp [History.next]

/-- The steps of a system that has not panicked. -/
inductive Fires (s : Group Proc) : Act Proc → Group Proc → Prop
  | begin {p : Proc} (hp : s.phase p = .outside ∨ s.phase p = .woken) : Fires s (.begin p) (s.begin p)
  | kill {p : Proc} (hp : s.phase p = .asleep) : Fires s (.kill p) (s.goto p .woken)
  | logWrite {p : Proc} (x : Nat) (hp : s.phase p = .inOp) : Fires s (.logWrite p x) (s.logWrite x)
  | endOp {p : Proc} (hp : s.phase p = .inOp) : Fires s (.endOp p) (s.endOp p)
  | commit {p : Proc} {pc : CommitPc} (hp : s.phase p = .commit pc) (hpc : pc ≠ .finish) :
      Fires s (.commit p) (s.commit p pc)
  | finish {p : Proc} (hp : s.phase p = .commit .finish) : Fires s (.finish p) (s.finish p)

/-- **What a step can be.** -/
theorem step_cases {s t : Group Proc} {a : Act Proc} (ha : step s a = some t) : s.panicked = none ∧ Fires s a t := by
  unfold step at ha
  split at ha
  · cases ha
  refine ⟨by simpa using ‹¬s.panicked ≠ none›, ?_⟩
  cases a with
  | begin p =>
    simp only [Option.ite_none_right_eq_some, Option.some.injEq] at ha
    exact ha.2 ▸ .begin ha.1
  | kill p =>
    simp only [Option.ite_none_right_eq_some, Option.some.injEq] at ha
    exact ha.2 ▸ .kill ha.1
  | logWrite p x =>
    simp only [Option.ite_none_right_eq_some, Option.some.injEq] at ha
    exact ha.2 ▸ .logWrite x ha.1
  | endOp p =>
    simp only [Option.ite_none_right_eq_some, Option.some.injEq] at ha
    exact ha.2 ▸ .endOp ha.1
  | commit p =>
    dsimp only at ha
    split at ha
    · cases ha
    · rename_i pc hne hp
      cases ha
      exact .commit hp hne
    · cases ha
  | finish p =>
    simp only [Option.ite_none_right_eq_some, Option.some.injEq] at ha
    exact ha.2 ▸ .finish ha.1

/-- **One step.** It keeps the invariant, or it is a `log_write` that finds the log too full. -/
theorem step_inv {h : History Proc} {s t : Group Proc} {a : Act Proc} (hs : Inv h s) (ha : step s a = some t) :
    (Inv (h.next a) t ∧ t.panicked = none) ∨
      ∃ p x, a = .logWrite p x ∧ s.phase p = .inOp ∧ s.log.tooBig ∧ t = { s with panicked := some .tooBigATransaction } := by
  obtain ⟨hcalm, ha⟩ := step_cases ha
  cases ha with
  | begin hp =>
    refine Or.inl ⟨inv_begin hs hp, ?_⟩
    unfold begin
    split
    · exact hcalm
    · split <;> exact hcalm
  | kill hp => exact Or.inl ⟨inv_goto hs (by tauto) (by simp), hcalm⟩
  | @logWrite p x hp =>
    have hpos := hs.outstanding_pos hp
    by_cases hb : s.log.tooBig
    · exact Or.inr ⟨p, x, rfl, hp, hb, if_pos hb⟩
    · left
      have ht : s.logWrite x = { s with log := s.log.record x } := by
        unfold logWrite
        rw [if_neg hb, if_neg (by omega)]
      rw [ht]
      exact ⟨inv_record hs x hp, hcalm⟩
  | endOp hp => exact Or.inl ⟨(inv_endOp hs hp).1, (inv_endOp hs hp).2.trans hcalm⟩
  | @commit p pc hp hpc =>
    refine Or.inl ⟨inv_commit hs hp hpc, ?_⟩
    cases pc with
    | start =>
      simp only [commit]
      split <;> exact hcalm
    | writeLog | writeHead | installTrans | clearHead | eraseHead | finish => exact hcalm
  | finish hp => exact Or.inl ⟨inv_finish hs hp, hcalm⟩

/-! ## Runs -/

/-- A run from the boot of a system whose superblock has `nlog = size`. -/
def Run (start size : Nat) (tr : List (Act Proc)) (s : Group Proc) : Prop := run step (init start size) tr = some s

theorem history_snoc (tr : List (Act Proc)) (a : Act Proc) : history (tr ++ [a]) = (history tr).next a := by
  simp [history, List.foldl_append]

/-- **A run.** The invariant holds, or the last action was a `log_write` that found the log too full. -/
theorem run_inv {start size : Nat} : ∀ (tr : List (Act Proc)) (s : Group Proc), Run start size tr s →
    (Inv (history tr) s ∧ s.panicked = none) ∨
      ∃ tr' p x t, tr = tr' ++ [.logWrite p x] ∧ Run start size tr' t ∧ Inv (history tr') t ∧ t.panicked = none ∧
        t.phase p = .inOp ∧ t.log.tooBig ∧ s = { t with panicked := some .tooBigATransaction } := by
  refine run_induction _ (Or.inl ⟨inv_init start size, rfl⟩) fun tr s a t hrun ih ha => ?_
  rcases ih with ⟨hs, hcalm⟩ | ⟨_, _, _, _, _, _, _, _, _, _, rfl⟩
  · rcases step_inv hs ha with ⟨ht, hc⟩ | ⟨p, x, rfl, hp, hb, rfl⟩
    · rw [history_snoc]
      exact Or.inl ⟨ht, hc⟩
    · exact Or.inr ⟨tr, p, x, s, rfl, hrun, hs, hcalm, hp, hb, rfl⟩
  · exact absurd (step_cases ha).1 (by simp)

/-- `log.size` does not change. -/
theorem run_size {start size : Nat} : ∀ (tr : List (Act Proc)) (s : Group Proc), Run start size tr s →
    s.log.size = size := by
  refine run_induction _ rfl fun tr s a t _ ih ha => ?_
  have hrec : ∀ x, (s.log.record x).size = s.log.size := by
    intro x
    unfold Log.record
    split <;> rfl
  rw [← ih]
  cases (step_cases ha).2 with
  | begin =>
    unfold begin
    split
    · rfl
    · split <;> rfl
  | kill => rfl
  | logWrite x =>
    unfold logWrite
    split
    · rfl
    · split
      · rfl
      · exact hrec x
  | endOp =>
    unfold endOp
    dsimp only
    split
    · rfl
    · split <;> rfl
  | @commit p pc =>
    cases pc with
    | start =>
      simp only [commit]
      split <;> rfl
    | writeLog | writeHead | installTrans | clearHead | eraseHead | finish => rfl
  | finish => rfl

/-- `begin_op` of a process alone is the step of the system, and a sleep is for ever. -/
theorem beginOp_step (g : Group Proc) (p : Proc) (bio : Bio) :
    beginOp { log := g.log, bio } = if (g.begin p).phase p = .inOp
      then (.ok ((), { log := (g.begin p).log, bio }), [.beginOp]) else (.error .hang, []) := by
  unfold beginOp
  rw [Prog.run_bind_ok (Prog.run_get _)]
  unfold begin
  by_cases hc : g.log.committing = true
  · simp [hc, goto]
  · by_cases hf : g.log.full
    · simp [hc, hf, goto]
    · rw [if_neg hc, if_neg hf, if_neg hc, if_neg hf, if_pos (by simp [goto])]
      rfl

omit [DecidableEq Proc] in
/-- `log_write` of a process alone is the step of the system. -/
theorem logWrite_step (g : Group Proc) (hg : g.panicked = none) (bio : Bio) (x : Nat) (data : Block) :
    NewXv6.logWrite x data { log := g.log, bio } = match (g.logWrite x).panicked with
      | some e => (.error (.panic e), [])
      | none => (.ok ((), { log := (g.logWrite x).log, bio := bio.pin x data }), [.logWrite x]) := by
  unfold NewXv6.logWrite
  rw [Prog.run_bind_ok (Prog.run_get _)]
  unfold logWrite
  by_cases hb : g.log.tooBig
  · simp only [hb, ↓reduceIte]
    rfl
  · by_cases ho : g.log.outstanding < 1
    · simp only [hb, ho, ↓reduceIte]
      rfl
    · simp only [hb, ho, ↓reduceIte, hg]
      rfl

end Group

end NewXv6
