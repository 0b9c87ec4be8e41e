import NewXv6.Log.Group
import NewXv6.Lib.Path

/-!
# `log_write` without a lock

`log_write` takes no lock, so another process may run between its capacity check, any two passes of its scan, its store
and its increment. `begin_op`, `end_op` and `commit` are those of `NewXv6.Log.Group`.

Two calls whose scans end at the same free slot write it one after the other, and the first sector is gone. Where each
store hits its own sector or a slot nobody else is about to count, the header holds what was logged.
-/

namespace NewXv6

open Lib

/-! ## The system -/

/-- Where a process is in `log_write` of sector `x`: at pass `i` of the scan, before `lh.sector[i] = x`, or before
`if(i == lh.n) lh.n++`. -/
inductive WritePc
  | scan (x i : Nat)
  | store (x i : Nat)
  | incr (x i : Nat)
  deriving DecidableEq, Repr

/-- `struct log` with the whole array `lh.sector`, and the processes. `logged` has the sectors of the calls of
`log_write` that returned since `commit` last cleared the header. -/
structure Race (Proc : Type) where
  start : Nat
  size : Nat
  outstanding : Int
  committing : Bool
  n : Nat
  sector : Nat → Nat
  phase : Proc → Phase
  panicked : Option Panic
  pc : Proc → Option WritePc
  logged : Finset Nat

/-- What a process does in one step. -/
inductive RaceAct (Proc : Type)
  /-- `log_write` of sector `x` is called: the two tests. -/
  | call (p : Proc) (x : Nat)
  /-- One pass of the scan. -/
  | scan (p : Proc)
  | store (p : Proc)
  | incr (p : Proc)
  /-- A step outside of `log_write`. -/
  | other (a : Act Proc)

/-- The process that acts. -/
def Act.proc {Proc : Type} : Act Proc → Proc
  | .begin p | .kill p | .logWrite p _ | .endOp p | .commit p | .finish p => p

namespace Race

variable {Proc : Type}

/-- `lh.sector[0 .. lh.n)`. -/
def header (s : Race Proc) : List Nat := (List.range s.n).map s.sector

/-- `struct log` up to `lh.n`. -/
def log (s : Race Proc) : Log where
  start := s.start
  size := s.size
  outstanding := s.outstanding
  committing := s.committing
  sector := s.header

/-- What the steps outside of `log_write` see. -/
def group (s : Race Proc) : Group Proc := ⟨s.log, s.phase, s.panicked⟩

variable [DecidableEq Proc]

/-- The system after `initlog`. -/
def init (start size : Nat) : Race Proc where
  start
  size
  outstanding := 0
  committing := false
  n := 0
  sector _ := 0
  phase _ := .outside
  panicked := none
  pc _ := none
  logged := ∅

/-- Process `p` goes on at `pc`. -/
def goto (s : Race Proc) (p : Proc) (pc : WritePc) : Race Proc := { s with pc := Function.update s.pc p (some pc) }

/-- The tests of `log_write`. -/
def call (s : Race Proc) (p : Proc) (x : Nat) : Race Proc :=
  if s.log.tooBig then { s with panicked := some .tooBigATransaction }
  else if s.outstanding < 1 then { s with panicked := some .logWriteOutsideOfTrans }
  else s.goto p (.scan x 0)

/-- One pass of the scan. -/
def scan (s : Race Proc) (p : Proc) (x i : Nat) : Race Proc :=
  if i < s.n then
    if s.sector i = x then s.goto p (.store x i) else s.goto p (.scan x (i + 1))
  else s.goto p (.store x i)

/-- `lh.sector[i] = x`. -/
def store (s : Race Proc) (p : Proc) (x i : Nat) : Race Proc :=
  { s.goto p (.incr x i) with sector := Function.update s.sector i x }

/-- `if(i == lh.n) lh.n++`, and `log_write` returns. -/
def incr (s : Race Proc) (p : Proc) (x i : Nat) : Race Proc :=
  { s with
    n := if i = s.n then s.n + 1 else s.n
    pc := Function.update s.pc p none
    logged := insert x s.logged }

/-- The action is `lh.n = 0` in `commit`. -/
def Clears (s : Race Proc) : Act Proc → Prop
  | .commit p => s.phase p = .commit .clearHead
  | _ => False

instance (s : Race Proc) (a : Act Proc) : Decidable (s.Clears a) := by
  cases a <;> unfold Clears <;> infer_instance

/-- The system after a step outside of `log_write`. -/
def restore (s : Race Proc) (a : Act Proc) (g : Group Proc) : Race Proc :=
  { s with
    start := g.log.start
    size := g.log.size
    outstanding := g.log.outstanding
    committing := g.log.committing
    n := g.log.sector.length
    phase := g.phase
    panicked := g.panicked
    logged := if s.Clears a then ∅ else s.logged }

/-- A step outside of `log_write`. -/
def other (s : Race Proc) : Act Proc → Option (Race Proc)
  | .logWrite _ _ => none
  | a => if s.pc a.proc = none then (s.group.step a).map (s.restore a) else none

/-- One step, if the process is where the action starts and nobody has panicked. -/
def step (s : Race Proc) (a : RaceAct Proc) : Option (Race Proc) :=
  if s.panicked ≠ none then none
  else
    match a with
    | .call p x => if s.phase p = .inOp ∧ s.pc p = none then some (s.call p x) else none
    | .scan p =>
      match s.pc p with
      | some (.scan x i) => some (s.scan p x i)
      | _ => none
    | .store p =>
      match s.pc p with
      | some (.store x i) => some (s.store p x i)
      | _ => none
    | .incr p =>
      match s.pc p with
      | some (.incr x i) => some (s.incr p x i)
      | _ => none
    | .other a => s.other a

/-- The condition on a step. A store writes an entry that is there already, or it writes the first free slot, which has
to be inside of the header and of the log, while no other process is about to count another sector there. -/
def Apart (s : Race Proc) : RaceAct Proc → Prop
  | .store p => ∀ x i, s.pc p = some (.store x i) →
      (i < s.n ∧ s.sector i = x) ∨
        (i = s.n ∧ i < LOGSIZE ∧ (i : Int) < s.size - 1 ∧ ∀ q y, s.pc q = some (.incr y i) → y = x)
  | _ => True

/-! ## The invariant -/

/-- What holds between any two steps. -/
structure Inv (s : Race Proc) : Prop where
  group : ∃ h, s.group.Inv h
  inOp : ∀ p c, s.pc p = some c → s.phase p = .inOp
  scan : ∀ p x i, s.pc p = some (.scan x i) → i ≤ s.n ∧ ∀ j < i, s.sector j ≠ x
  store : ∀ p x i, s.pc p = some (.store x i) → i ≤ s.n ∧ ∀ j < i, s.sector j ≠ x
  incr : ∀ p x i, s.pc p = some (.incr x i) →
    i ≤ s.n ∧ s.sector i = x ∧ (∀ j < i, s.sector j ≠ x) ∧ (i : Int) < s.size - 1
  logged : ∀ x, x ∈ s.logged ↔ x ∈ s.header
  bound : (s.n : Int) ≤ s.size - 1

omit [DecidableEq Proc] in
@[simp] theorem mem_header {s : Race Proc} {x : Nat} : x ∈ s.header ↔ ∃ j < s.n, s.sector j = x := by
  simp [header]

omit [DecidableEq Proc] in
@[simp] theorem length_header (s : Race Proc) : s.header.length = s.n := by
  simp [header]

omit [DecidableEq Proc] in
/-- The slots that are counted hold different sectors. -/
theorem Inv.nodup {s : Race Proc} (hs : Inv s) : s.header.Nodup := by
  obtain ⟨h, hg⟩ := hs.group
  exact hg.nodup

theorem inv_init {start size : Nat} (hsize : 0 < size) : Inv (init start size : Race Proc) := by
  refine ⟨⟨history [], Group.inv_init start size⟩, ?_, ?_, ?_, ?_, ?_, ?_⟩ <;> simp [init]
  omega

theorem pc_goto (s : Race Proc) (p q : Proc) (c : WritePc) :
    (s.goto p c).pc q = if q = p then some c else s.pc q := by
  simp [goto, Function.update_apply]

/-- A process moves on to a place that fits. -/
theorem inv_goto {s : Race Proc} (hs : Inv s) {p : Proc} {c : WritePc} (hp : s.phase p = .inOp)
    (hc : match c with
      | .scan x i | .store x i => i ≤ s.n ∧ ∀ j < i, s.sector j ≠ x
      | .incr _ _ => False) : Inv (s.goto p c) := by
  refine ⟨hs.group, fun q c' hq => ?_, fun q x i hq => ?_, fun q x i hq => ?_, fun q x i hq => ?_, hs.logged, hs.bound⟩
  all_goals
    rw [pc_goto] at hq
    split at hq
  · subst q
    exact hp
  · exact hs.inOp q c' hq
  · cases hq
    exact hc
  · exact hs.scan q x i hq
  · cases hq
    exact hc
  · exact hs.store q x i hq
  · cases hq
    exact absurd hc id
  · exact hs.incr q x i hq

/-! ## One step -/

theorem inv_call {s : Race Proc} (hs : Inv s) {p : Proc} (x : Nat) (hp : s.phase p = .inOp) : Inv (s.call p x) := by
  obtain ⟨h, hg⟩ := hs.group
  unfold call
  split
  · exact ⟨⟨h, hg.congr rfl (fun _ => Iff.rfl) (fun _ _ => Iff.rfl)⟩, hs.inOp, hs.scan, hs.store, hs.incr, hs.logged, hs.bound⟩
  split
  · exact ⟨⟨h, hg.congr rfl (fun _ => Iff.rfl) (fun _ _ => Iff.rfl)⟩, hs.inOp, hs.scan, hs.store, hs.incr, hs.logged, hs.bound⟩
  · exact inv_goto hs hp ⟨Nat.zero_le _, by simp⟩

theorem inv_scan {s : Race Proc} (hs : Inv s) {p : Proc} {x i : Nat} (hp : s.pc p = some (.scan x i)) :
    Inv (s.scan p x i) := by
  have hin := hs.inOp p _ hp
  obtain ⟨hi, hne⟩ := hs.scan p x i hp
  unfold scan
  split
  · rename_i hlt
    split
    · exact inv_goto hs hin ⟨hi, hne⟩
    · rename_i hx
      refine inv_goto hs hin ⟨hlt, fun j hj => ?_⟩
      rcases Nat.lt_succ_iff_lt_or_eq.1 hj with hj | rfl
      · exact hne j hj
      · exact hx
  · exact inv_goto hs hin ⟨hi, hne⟩

/-- A store that meets the condition changes no entry that is counted. -/
theorem inv_store {s : Race Proc} (hs : Inv s) {p : Proc} {x i : Nat} (hp : s.pc p = some (.store x i))
    (hc : s.Apart (.store p)) : Inv (s.store p x i) := by
  have hin := hs.inOp p _ hp
  obtain ⟨hi, hne⟩ := hs.store p x i hp
  have hbound := hs.bound
  have hkeep : ∀ j < s.n, Function.update s.sector i x j = s.sector j := by
    intro j hj
    rcases hc x i hp with ⟨-, hx⟩ | ⟨rfl, -⟩
    · rw [Function.update_apply]
      split
      · subst j
        exact hx.symm
      · rfl
    · exact Function.update_of_ne (by omega) _ _
  have hhead : (s.store p x i).header = s.header := List.map_congr_left fun j hj => hkeep j (List.mem_range.1 hj)
  have hlog : (s.store p x i).log = s.log := by
    unfold log
    rw [hhead]
    rfl
  have hslot : (i : Int) < s.size - 1 := by
    rcases hc x i hp with ⟨hlt, -⟩ | ⟨-, -, hlt, -⟩ <;> omega
  have hpc : ∀ q c, (s.store p x i).pc q = some c → (q = p ∧ c = .incr x i) ∨ s.pc q = some c := by
    intro q c hq
    rw [show (s.store p x i).pc q = (s.goto p (.incr x i)).pc q from rfl, pc_goto] at hq
    split at hq
    · exact Or.inl ⟨‹_›, (Option.some.inj hq).symm⟩
    · exact Or.inr hq
  have hbefore : ∀ k y, k ≤ s.n → (∀ j < k, s.sector j ≠ y) → ∀ j < k, Function.update s.sector i x j ≠ y := by
    intro k y hk hy j hj
    rw [hkeep j (by omega)]
    exact hy j hj
  obtain ⟨h, hg⟩ := hs.group
  refine ⟨⟨h, hg.congr hlog (fun _ => Iff.rfl) (fun _ _ => Iff.rfl)⟩, fun q c hq => ?_, fun q y k hq => ?_,
    fun q y k hq => ?_, fun q y k hq => ?_, fun y => ?_, hbound⟩
  · rcases hpc q c hq with ⟨rfl, -⟩ | hq
    · exact hin
    · exact hs.inOp q c hq
  · rcases hpc q _ hq with ⟨-, hc⟩ | hq
    · cases hc
    · exact ⟨(hs.scan q y k hq).1, hbefore k y (hs.scan q y k hq).1 (hs.scan q y k hq).2⟩
  · rcases hpc q _ hq with ⟨-, hc⟩ | hq
    · cases hc
    · exact ⟨(hs.store q y k hq).1, hbefore k y (hs.store q y k hq).1 (hs.store q y k hq).2⟩
  · rcases hpc q _ hq with ⟨-, hyk⟩ | hq
    · cases hyk
      exact ⟨hi, Function.update_self .., hbefore i x hi hne, hslot⟩
    · obtain ⟨hk, hy, hny, hks⟩ := hs.incr q y k hq
      refine ⟨hk, ?_, hbefore k y hk hny, hks⟩
      show Function.update s.sector i x k = y
      by_cases hki : k = i
      · subst k
        rw [Function.update_self]
        rcases hc x i hp with ⟨-, hx⟩ | ⟨-, -, -, hq'⟩
        · exact hx.symm.trans hy
        · exact (hq' q y hq).symm
      · rw [Function.update_of_ne hki]
        exact hy
  · rw [hhead]
    exact hs.logged y

theorem inv_incr {s : Race Proc} (hs : Inv s) {p : Proc} {x i : Nat} (hp : s.pc p = some (.incr x i)) :
    Inv (s.incr p x i) := by
  have hin := hs.inOp p _ hp
  obtain ⟨hi, hx, hne, hslot⟩ := hs.incr p x i hp
  have hbound := hs.bound
  -- the header takes the sector as the atomic `log_write` does
  have hhead : (s.incr p x i).header = if x ∈ s.header then s.header else s.header ++ [x] := by
    by_cases hn : i = s.n
    · have hnot : x ∉ s.header := by
        rw [mem_header]
        rintro ⟨j, hj, hjx⟩
        exact hne j (by omega) hjx
      rw [if_neg hnot, ← hx, hn]
      simp [header, incr, List.range_succ]
    · have hmem : x ∈ s.header := mem_header.2 ⟨i, by omega, hx⟩
      rw [if_pos hmem]
      simp only [header, incr, if_neg hn]
  have hlog : (s.incr p x i).log = s.log.record x := by
    unfold log
    rw [hhead]
    unfold Log.record
    dsimp only
    split <;> rfl
  have hpc : ∀ q c, (s.incr p x i).pc q = some c → s.pc q = some c := by
    intro q c hq
    by_cases hqp : q = p
    · subst q
      simp [incr] at hq
    · simpa [incr, Function.update_of_ne hqp] using hq
  have hmono : s.n ≤ (s.incr p x i).n := by
    simp only [incr]
    split <;> omega
  obtain ⟨h, hg⟩ := hs.group
  refine ⟨⟨_, (Group.inv_record hg x hin).congr hlog (fun _ => Iff.rfl) (fun _ _ => Iff.rfl)⟩,
    fun q c hq => hs.inOp q c (hpc q c hq), fun q y k hq => ?_, fun q y k hq => ?_, fun q y k hq => ?_, fun y => ?_, ?_⟩
  · obtain ⟨hk, hy⟩ := hs.scan q y k (hpc q _ hq)
    exact ⟨hk.trans hmono, hy⟩
  · obtain ⟨hk, hy⟩ := hs.store q y k (hpc q _ hq)
    exact ⟨hk.trans hmono, hy⟩
  · obtain ⟨hk, hy⟩ := hs.incr q y k (hpc q _ hq)
    exact ⟨hk.trans hmono, hy⟩
  · show y ∈ insert x s.logged ↔ _
    rw [hhead, Finset.mem_insert, hs.logged]
    split
    · constructor
      · rintro (rfl | hy)
        · assumption
        · exact hy
      · exact Or.inr
    · simp [or_comm]
  · show ((if i = s.n then s.n + 1 else s.n : Nat) : Int) ≤ s.size - 1
    split <;> push_cast <;> omega

/-! ## The steps outside of `log_write` -/

/-- They leave the header alone, or clear it. -/
theorem sector_step {g t : Group Proc} {a : Act Proc} (ha : g.step a = some t) (hl : ∀ p x, a ≠ .logWrite p x) :
    t.log.start = g.log.start ∧ t.log.size = g.log.size ∧
      ((t.log.sector = g.log.sector ∧ ∀ p, a = .commit p → g.phase p ≠ .commit .clearHead) ∨
        (t.log.sector = [] ∧ ∃ p, a = .commit p ∧ g.phase p = .commit .clearHead)) := by
  cases (Group.step_cases ha).2 with
  | begin =>
    unfold Group.begin
    split
    · exact ⟨rfl, rfl, Or.inl ⟨rfl, by simp⟩⟩
    · split <;> exact ⟨rfl, rfl, Or.inl ⟨rfl, by simp⟩⟩
  | kill => exact ⟨rfl, rfl, Or.inl ⟨rfl, by simp⟩⟩
  | logWrite x => exact absurd rfl (hl _ x)
  | endOp =>
    unfold Group.endOp
    dsimp only
    split
    · exact ⟨rfl, rfl, Or.inl ⟨rfl, by simp⟩⟩
    · split <;> exact ⟨rfl, rfl, Or.inl ⟨rfl, by simp⟩⟩
  | @commit p pc hp =>
    cases pc with
    | start =>
      simp only [Group.commit]
      split <;> exact ⟨rfl, rfl, Or.inl ⟨rfl, by simp [hp]⟩⟩
    | clearHead => exact ⟨rfl, rfl, Or.inr ⟨rfl, p, rfl, hp⟩⟩
    | writeLog | writeHead | installTrans | eraseHead | finish => exact ⟨rfl, rfl, Or.inl ⟨rfl, by simp [hp]⟩⟩
  | finish => exact ⟨rfl, rfl, Or.inl ⟨rfl, by simp⟩⟩

/-- They leave the other processes in their operations. -/
theorem inOp_step {g t : Group Proc} {a : Act Proc} (ha : g.step a = some t) {q : Proc} (hq : q ≠ a.proc)
    (hin : g.phase q = .inOp) : t.phase q = .inOp := by
  have hgoto : ∀ (g : Group Proc) p ph, q ≠ p → g.phase q = .inOp → (g.goto p ph).phase q = .inOp := by
    intro g p ph hqp hin
    rw [Group.phase_goto, if_neg hqp, hin]
  have hwake : ∀ g : Group Proc, g.phase q = .inOp → g.wakeup.phase q = .inOp := by
    intro g hin
    simp [Group.wakeup, hin]
  cases (Group.step_cases ha).2 with
  | @begin p =>
    unfold Group.begin
    split
    · exact hgoto _ _ _ hq hin
    · split <;> exact hgoto _ _ _ hq hin
  | @kill p => exact hgoto _ _ _ hq hin
  | @logWrite p x =>
    unfold Group.logWrite
    split
    · exact hin
    · split <;> exact hin
  | @endOp p =>
    unfold Group.endOp
    dsimp only
    split
    · exact hin
    split
    · exact hgoto { g with log := _ } _ _ hq hin
    · exact hwake _ (hgoto { g with log := _ } _ _ hq hin)
  | @commit p pc =>
    cases pc with
    | start =>
      simp only [Group.commit]
      split <;> exact hgoto _ _ _ hq hin
    | clearHead => exact hgoto _ _ _ hq hin
    | writeLog | writeHead | installTrans | eraseHead => exact hgoto _ _ _ hq hin
    | finish => exact hin
  | @finish p => exact hwake _ (hgoto _ _ _ hq hin)

theorem other_cases {s t : Race Proc} {a : Act Proc} (ha : s.other a = some t) :
    (∀ p x, a ≠ .logWrite p x) ∧ s.pc a.proc = none ∧ ∃ g, s.group.step a = some g ∧ t = s.restore a g := by
  unfold other at ha
  split at ha
  · cases ha
  · simp only [Option.ite_none_right_eq_some, Option.map_eq_some_iff] at ha
    obtain ⟨hpc, g, hg, rfl⟩ := ha
    exact ⟨by assumption, hpc, g, hg, rfl⟩

theorem inv_other {s t : Race Proc} (hs : Inv s) {a : Act Proc} (ha : s.other a = some t) : Inv t := by
  obtain ⟨hl, hidle, g, hg, rfl⟩ := other_cases ha
  obtain ⟨h, hinv⟩ := hs.group
  obtain ⟨hstart, hsize, hsec⟩ := sector_step hg hl
  have hnext : g.Inv (h.next a) := by
    rcases Group.step_inv hinv hg with ⟨hi, -⟩ | ⟨p, x, rfl, -⟩
    · exact hi
    · exact absurd rfl (hl p x)
  have hin : ∀ q c, s.pc q = some c → g.phase q = .inOp := by
    intro q c hq
    refine inOp_step hg ?_ (hs.inOp q c hq)
    rintro rfl
    simp [hidle] at hq
  have hlen : s.group.log.sector.length = s.n := length_header s
  rcases hsec with ⟨hsame, hno⟩ | ⟨hnil, p, rfl, hp⟩
  · -- the header stays
    have hn : g.log.sector.length = s.n := by rw [hsame, hlen]
    have hhead : (s.restore a g).header = s.header := by
      simp only [header, restore, hn]
    have hclear : ¬s.Clears a := by
      cases a with
      | commit p => exact hno p rfl
      | begin p | kill p | logWrite p x | endOp p | finish p => exact id
    have hlog : (s.restore a g).log = g.log := by
      show (⟨g.log.start, g.log.size, g.log.outstanding, g.log.committing, (s.restore a g).header⟩ : Log) = g.log
      rw [hhead, show s.header = g.log.sector from hsame.symm]
    have hnum : (s.restore a g).n = s.n := hn
    have hsz : (s.restore a g).size = s.size := hsize
    refine ⟨⟨_, hnext.congr hlog (fun _ => Iff.rfl) (fun _ _ => Iff.rfl)⟩, hin, ?_, ?_, ?_, fun x => ?_, ?_⟩
    · intro q x i hq
      rw [hnum]
      exact hs.scan q x i hq
    · intro q x i hq
      rw [hnum]
      exact hs.store q x i hq
    · intro q x i hq
      rw [hnum, hsz]
      exact hs.incr q x i hq
    · rw [hhead, show (s.restore a g).logged = s.logged from if_neg hclear]
      exact hs.logged x
    · rw [hnum, hsz]
      exact hs.bound
  · -- the header is cleared: the committer is alone
    have hnone : ∀ q c, s.pc q ≠ some c := by
      intro q c hq
      exact hinv.alone (hinv.committer p _ hp) q (hs.inOp q c hq)
    have hnum : (s.restore (.commit p) g).n = 0 := by
      show g.log.sector.length = 0
      rw [hnil]
      rfl
    have hhead : (s.restore (.commit p) g).header = [] := by
      unfold header
      rw [hnum]
      rfl
    have hlog : (s.restore (.commit p) g).log = g.log := by
      show (⟨g.log.start, g.log.size, g.log.outstanding, g.log.committing, (s.restore (.commit p) g).header⟩ : Log) = g.log
      rw [hhead, ← hnil]
    have hbound := hs.bound
    have hsz : (s.restore (.commit p) g).size = s.size := hsize
    refine ⟨⟨_, hnext.congr hlog (fun _ => Iff.rfl) (fun _ _ => Iff.rfl)⟩, hin, ?_, ?_, ?_, fun x => ?_, ?_⟩
    · exact fun q x i hq => absurd hq (hnone q _)
    · exact fun q x i hq => absurd hq (hnone q _)
    · exact fun q x i hq => absurd hq (hnone q _)
    · rw [hhead, show (s.restore (.commit p) g).logged = ∅ from if_pos hp]
      simp
    · rw [hnum, hsz]
      omega

/-- **One step** that meets the condition keeps the invariant. -/
theorem step_inv {s t : Race Proc} {a : RaceAct Proc} (hs : Inv s) (hc : s.Apart a) (ha : s.step a = some t) : Inv t := by
  unfold step at ha
  split at ha
  · cases ha
  cases a with
  | call p x =>
    simp only [Option.ite_none_right_eq_some, Option.some.injEq] at ha
    obtain ⟨⟨hp, -⟩, rfl⟩ := ha
    exact inv_call hs x hp
  | scan p =>
    dsimp only at ha
    split at ha
    · cases ha
      exact inv_scan hs (by assumption)
    · cases ha
  | store p =>
    dsimp only at ha
    split at ha
    · cases ha
      exact inv_store hs (by assumption) hc
    · cases ha
  | incr p =>
    dsimp only at ha
    split at ha
    · cases ha
      exact inv_incr hs (by assumption)
    · cases ha
  | other a => exact inv_other hs ha

/-! ## Runs -/

/-- **Logged sectors are kept where the stores do not overlap.** In every run whose stores meet the condition,
`lh.n` is at most `log.size - 1`, and whenever no `log_write` is in progress the header has every sector logged since
the last commit exactly once. -/
theorem logged_once {start size : Nat} (hsize : 0 < size) {tr : List (RaceAct Proc)} {s : Race Proc}
    (h : Path step Apart (init start size) tr s) :
    (s.n : Int) ≤ s.size - 1 ∧ ((∀ p, s.pc p = none) → ∀ x ∈ s.logged, s.header.count x = 1) := by
  have hs := h.invariant Inv (inv_init hsize) fun _ _ _ hs hc ha => step_inv hs hc ha
  exact ⟨hs.bound, fun _ x hx => List.count_eq_one_of_mem hs.nodup ((hs.logged x).1 hx)⟩

/-- Process 0 logs sector 7, and process 1 logs it again: it is absorbed. -/
theorem logged_once_two :
    ∃ tr, ∃ s : Race (Fin 2), Path step Apart (init 0 30) tr s ∧ s.logged = {7} ∧ (∀ p, s.pc p = none) ∧
      (s.n : Int) ≤ s.size - 1 ∧ ((∀ p, s.pc p = none) → ∀ x ∈ s.logged, s.header.count x = 1) := by
  have h₁ : Path step Apart (init 0 30 : Race (Fin 2))
      ([] ++ [.other (.begin 0)] ++ [.other (.begin 1)] ++ [.call 0 7] ++ [.scan 0]) _ :=
    .snoc (.snoc (.snoc (.snoc .nil trivial rfl) trivial rfl) trivial rfl) trivial rfl
  have h₂ := Path.snoc h₁ (a := RaceAct.store 0) (by
    intro x i hp
    cases hp
    exact Or.inr ⟨rfl, by decide, by decide, fun q y hq => by match q with | 0 => cases hq | 1 => cases hq⟩) rfl
  have h₃ := Path.snoc (Path.snoc (Path.snoc h₂ (a := RaceAct.incr 0) trivial rfl) (a := RaceAct.call 1 7) trivial rfl)
    (a := RaceAct.scan 1) trivial rfl
  have h₄ := Path.snoc (Path.snoc h₃ (a := RaceAct.store 1) (by
    intro x i hp
    cases hp
    exact Or.inl ⟨by decide, by decide⟩) rfl) (a := RaceAct.incr 1) trivial rfl
  exact ⟨_, _, h₄, by decide, by decide, logged_once (by decide) h₄⟩

/-- Processes 0 and 1 log sectors 7 and 8 at once: both scans end at slot 0, and sector 7 is lost. -/
theorem logged_lost :
    ∃ tr, ∃ s : Race (Fin 2), run step (init 0 30) tr = some s ∧ (∀ p, s.pc p = none) ∧ 7 ∈ s.logged ∧ 7 ∉ s.header := by
  refine ⟨[.other (.begin 0), .other (.begin 1), .call 0 7, .call 1 8, .scan 0, .scan 1, .store 0, .store 1, .incr 0,
    .incr 1], _, rfl, ?_, ?_, ?_⟩ <;> decide

end Race

end NewXv6
