import NewXv6.Proc.Moves

/-!
# Kill and its targets

`known h` gives, from the history alone, the pid that every slot's process was created with, from the return of its
`fork` to the return of its parent's `wait`. `kill` does what its name says in a run exactly if no `kill` finds its pid
in a slot that is free or still in the hands of a `fork` (`kill_target`). Such slots do hold pids: the pid 0 of a slot
that was never used or has been reaped, and the pid of a `fork` that failed (`kill_free_slot`).
-/

namespace NewXv6.Ptable

/-! ## Who is known by which pid -/

/-- What an event says about who is known. -/
def note (k : Slot → Option (BitVec 32)) : Event → Slot → Option (BitVec 32)
  | .forked _ np pid => Function.update k np (some pid)
  | .reaped _ c _ => Function.update k c none
  | _ => k

/-- The processes that were created and not yet reaped, with the pids they were created with. -/
def known (h : List Event) : Slot → Option (BitVec 32) :=
  h.foldl note (Function.update (fun _ => none) initproc (some 1))

/-- The slot holds a process that `fork` has returned and `wait` has not. -/
def ProcState.Known (x : ProcState) : Prop := x ≠ .UNUSED ∧ x ≠ .EMBRYO

instance (x : ProcState) : Decidable x.Known := by unfold ProcState.Known; infer_instance

theorem ProcState.Live.known {x : ProcState} (h : x.Live) : x.Known := by
  rcases h with rfl | rfl | rfl <;> decide

/-- The table agrees with the history. -/
def Agrees (s : State) (h : List Event) : Prop :=
  ∀ q, known h q = if (s.proc q).state.Known then some (s.proc q).pid else none

theorem boot_agrees : Agrees boot [] := by
  intro q
  rw [boot_proc]
  by_cases hq : q = initproc
  · rw [if_pos hq, if_pos (by decide), hq]
    rfl
  · rw [if_neg hq, if_neg (by decide)]
    simp [known, hq]

theorem known_snoc (h : List Event) (e : Option Event) : known (h ++ e.toList) = e.elim (known h) (note (known h)) := by
  unfold known
  rw [List.foldl_append]
  cases e <;> rfl

/-- An event that is not about `q` says nothing about it. -/
theorem note_other {k : Slot → Option (BitVec 32)} {e : Event} {q : Slot} (h : e.subject ≠ some q) :
    note k e q = k q := by
  cases e with
  | forked p np pid => exact Function.update_of_ne (fun hq => h (congrArg some hq.symm)) ..
  | reaped p c pid => exact Function.update_of_ne (fun hq => h (congrArg some hq.symm)) ..
  | _ => rfl

theorem Agrees.exec {s t : State} {h : List Event} (hi : Inv s) (hg : Agrees s h) {a : Act} {e : Option Event}
    (he : exec s a = some (t, e)) : Agrees t (h ++ e.toList) := by
  intro q
  have hq := hg q
  have hf : ∀ p, (s.pc p).Forks q → (s.proc q).state = .EMBRYO := fun p hp => (hi.forks p q hp).1
  have hsame : ∀ {y : Proc}, (y.state = (s.proc q).state ∨ (s.proc q).state.Live ∧ y.state.Live) →
      y.pid = (s.proc q).pid → known h q = if y.state.Known then some y.pid else none := by
    rintro y (h1 | ⟨h1, h2⟩) h3
    · rw [hq, h1, h3]
    · rw [hq, h3, if_pos h1.known, if_pos h2.known]
  rw [known_snoc]
  cases exec_moves he q with
  | alloced p he hx hy =>
    rw [he, hy]
    rw [hx] at hq
    exact hq
  | failed p he hx hy =>
    rw [he, hy]
    rw [hf p hx] at hq
    exact hq
  | copied p he hx hy =>
    rw [he, hy]
    exact hq
  | forked p he hx hy =>
    rw [he, hy]
    exact Function.update_self ..
  | exited ha he hx hst hpid hk =>
    rw [he, hst, hpid]
    rw [hx] at hq
    exact hq
  | reaped p he hp hx hst hpid hk =>
    rw [he, hst]
    exact Function.update_self ..
  | killed p pid ha he hx hst hpid hpar hk =>
    rw [he]
    exact hsame hst hpid
  | other hn hst hpid hpar hk =>
    rw [← hsame hst hpid]
    cases e with
    | none => rfl
    | some e => exact note_other hn

theorem Reaches.agrees {tr : List Act} {s : State} {h : List Event} (hr : Reaches tr s h) : Agrees s h :=
  (reaches_induction (fun s h => Inv s ∧ Agrees s h) ⟨boot_inv, boot_agrees⟩
    (fun _ _ _ _ _ ⟨hi, hg⟩ he => ⟨hi.exec he, hg.exec hi he⟩) hr).2

/-! ## Every step of a run -/

/-- `P` holds of every step of the run `tr`: of the state and the history before it, the action, the state after it
and the event. -/
def EveryStep (tr : List Act) (P : State → List Event → Act → State → Option Event → Prop) : Prop :=
  ∀ tr' a, tr' ++ [a] <+: tr → ∀ s h t e, Reaches tr' s h → exec s a = some (t, e) → P s h a t e

/-- What `kill` and `fork` promise at one step. -/
structure KillSpec (s : State) (h : List Event) (a : Act) (t : State) (e : Option Event) : Prop where
  /-- A `kill` that returns 0 has found a process that was created with that pid and is not yet reaped. -/
  found : ∀ p q pid, e = some (.killed p q pid) → known h q = some pid
  /-- `kill` marks nobody else. -/
  only : ∀ p pid q, a = .kill p pid → known h q ≠ some pid → (t.proc q).killed = (s.proc q).killed
  /-- `kill` returns -1 if there is no such process. -/
  none : ∀ p pid, a = .kill p pid → (∀ q, known h q ≠ some pid) → e = some (.killFailed p pid)
  /-- The child of a `fork` that returns starts unmarked. -/
  child : ∀ p np pid, e = some (.forked p np pid) → (t.proc np).killed = false

/-- If the action is a `kill` that finds its pid, the slot holds a process that `fork` has returned. -/
def KillsKnown (s : State) (a : Act) : Prop :=
  ∀ p pid q, a = .kill p pid → withPid s.proc pid = some q → (s.proc q).state.Known

/-- As long as no `kill` found another slot, free slots and those in the hands of a `fork` are unmarked. -/
theorem Reaches.unmarked {tr : List Act} {s : State} {h : List Event} (hr : Reaches tr s h)
    (hk : EveryStep tr fun s _ a _ _ => KillsKnown s a) {q : Slot} (hq : ¬ (s.proc q).state.Known) :
    (s.proc q).killed = false := by
  refine Lib.run_induction (fun tr (x : State × List Event) => EveryStep tr (fun s _ a _ _ => KillsKnown s a) →
    ∀ q, ¬ (x.1.proc q).state.Known → (x.1.proc q).killed = false) ?_ ?_ tr (s, h) hr hk q hq
  · intro _ q _
    show (boot.proc q).killed = false
    rw [boot_proc]
    split <;> rfl
  · rintro tr ⟨s, h⟩ a ⟨t, h'⟩ hs ih ha hk q hq
    obtain ⟨⟨u, e⟩, he, heq⟩ := Option.map_eq_some_iff.1 ha
    cases heq
    have hold := ih (fun tr' b hp => hk tr' b (hp.trans (List.prefix_append ..))) q
    have hf : ∀ p, (s.pc p).Forks q → ¬ (s.proc q).state.Known := fun p hp => by
      have hi : Inv s := Reaches.inv hs
      rw [(hi.forks p q hp).1]
      decide
    have hsame : ∀ {y : Proc}, y.state = (s.proc q).state ∨ (s.proc q).state.Live ∧ y.state.Live →
        ¬ y.state.Known → ¬ (s.proc q).state.Known := by
      rintro y (h | ⟨-, h⟩) hy
      · rwa [← h]
      · exact absurd h.known hy
    show (u.proc q).killed = false
    cases exec_moves he q with
    | alloced p _ hx hy => rw [hy]; exact hold (by rw [hx]; decide)
    | failed p _ hx hy => rw [hy]; exact hold (hf p hx)
    | copied p _ hx hy => rw [hy]; exact hold (hf p hx)
    | forked p _ hx hy => rw [hy]; exact hold (hf p hx)
    | exited _ _ _ hst => exact absurd (by rw [hst]; decide) hq
    | reaped _ _ _ _ _ _ hk => exact hk
    | killed p pid ha _ hx hst => exact absurd (hk tr a (List.prefix_refl _) s h u e hs he p pid q ha hx) (hsame hst hq)
    | other _ hst _ _ hkill =>
      rcases hkill with h1 | ⟨h1, -⟩
      · rw [h1]; exact hold (hsame hst hq)
      · exact absurd h1.known (hsame hst hq)

/-- A `kill` marks the slot it finds, or returns -1 if there is none. -/
theorem exec_kill {s t : State} {p : Slot} {pid : BitVec 32} {e : Option Event} (h : exec s (.kill p pid) = some (t, e)) :
    (∃ q, withPid s.proc pid = some q ∧ e = some (.killed p q pid) ∧
      ∀ x, x ≠ q → (t.proc x).killed = (s.proc x).killed) ∨
    withPid s.proc pid = none ∧ e = some (.killFailed p pid) ∧ t = s := by
  simp only [exec] at h
  split at h
  · split at h
    · next q hq =>
      cases h
      refine Or.inl ⟨q, hq, rfl, fun x hx => ?_⟩
      rw [setProc_proc, if_neg hx]
    · next hq => cases h; exact Or.inr ⟨hq, rfl, rfl⟩
  · cases h

/-- **`kill` affects only its target**, in a run, exactly if every `kill` that finds its pid finds it in the slot of a
process that `fork` has returned and `wait` has not. -/
theorem kill_target (tr : List Act) : EveryStep tr KillSpec ↔ EveryStep tr fun s _ a _ _ => KillsKnown s a := by
  constructor
  · intro hspec tr' a hp s h t e hr he p pid q ha hq
    subst ha
    rcases exec_kill he with ⟨q', hq', rfl, -⟩ | ⟨hn, -⟩
    · rw [hq] at hq'
      cases hq'
      have hkn := (hspec tr' _ hp s h t _ hr he).found p q pid rfl
      rw [hr.agrees q] at hkn
      by_contra hno
      rw [if_neg hno] at hkn
      cases hkn
    · rw [hq] at hn; cases hn
  · intro hk tr' a hp s h t e hr he
    have hok := hk tr' a hp s h t e hr he
    have hag := hr.agrees
    refine ⟨?_, ?_, ?_, ?_⟩
    · rintro p q pid rfl
      cases exec_moves he q with
      | killed p' pid' ha hee hx =>
        cases hee
        rw [hag q, if_pos (hok _ _ _ ha hx), withPid_some hx]
      | other h => exact absurd rfl h
      | alloced _ h => cases h
      | failed _ h => cases h
      | copied _ h => cases h
      | forked _ h => cases h
      | exited _ h => cases h
      | reaped _ h => cases h
    · rintro p pid q rfl hq
      rcases exec_kill he with ⟨x, hx, -, hrest⟩ | ⟨-, -, rfl⟩
      · refine hrest q fun hqx => hq ?_
        rw [hqx, hag x, if_pos (hok _ _ _ rfl hx), withPid_some hx]
      · rfl
    · rintro p pid rfl hnone
      rcases exec_kill he with ⟨x, hx, -, -⟩ | ⟨-, h, -⟩
      · refine absurd ?_ (hnone x)
        rw [hag x, if_pos (hok _ _ _ rfl hx), withPid_some hx]
      · exact h
    · rintro p np pid rfl
      obtain ⟨hf, -, hy⟩ := (exec_moves he np).of_forked
      have hemb : ¬ (s.proc np).state.Known := by
        rw [(hr.inv.forks p np hf).1]
        decide
      rw [hy]
      exact hr.unmarked (fun tr'' b hpre => hk tr'' b (hpre.trans ((List.prefix_append ..).trans hp))) hemb

/-- **`kill` of the pid 0 marks a free slot**: it returns 0 though there is no such process, and the child that the next
`fork` puts into the slot starts killed. -/
theorem kill_free_slot : ¬ EveryStep [.schedule 0, .kill 0 0, .allocproc 0, .kalloc 0 true, .copyuvm 0 true, .runnable 0]
    KillSpec := by
  intro hspec
  have hrun : (Lib.run step (boot, []) [.schedule 0, .kill 0 0, .allocproc 0, .kalloc 0 true, .copyuvm 0 true]).bind
      (fun x => (exec x.1 (.runnable 0)).map fun r => (r.2, (r.1.proc 1).killed)) =
      some (some (.forked 0 1 2), true) := by decide +kernel
  obtain ⟨⟨s, h⟩, hr, hx⟩ := Option.bind_eq_some_iff.1 hrun
  obtain ⟨⟨t, e⟩, he, heq⟩ := Option.map_eq_some_iff.1 hx
  obtain ⟨rfl, hkilled⟩ := Prod.mk.inj heq
  have := (hspec _ _ (List.prefix_refl _) s h t _ hr he).child 0 1 2 rfl
  rw [hkilled] at this
  cases this

end NewXv6.Ptable
