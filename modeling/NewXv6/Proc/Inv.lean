import NewXv6.Proc.Model

/-!
# The invariant of the process table

`Inv` ties states, parents, sleep channels and the positions of the kernel threads together. It holds at boot and after
every step (`Inv.exec`); the proof goes by the kind of change: a change that only wakes, stops or starts processes
(`Inv.quiet`), a fork in its four stages, an exit and a wait.
-/

namespace NewXv6.Ptable

/-- The thread stands in a `fork` that makes `np`. -/
def Pc.Forks (pc : Pc) (np : Slot) : Prop := pc = .alloced np ∨ pc = .stacked np ∨ pc = .copied np

structure Inv (s : State) : Prop where
  /-- `initproc` never exits. -/
  init : (s.proc initproc).state.Live
  /-- Every other process has a parent that has not exited. -/
  child : ∀ c, (s.proc c).state.Live ∨ (s.proc c).state = .ZOMBIE → c ≠ initproc →
    ∃ q, (s.proc c).parent = some q ∧ q ≠ c ∧ (s.proc q).state.Live
  /-- A free slot is nobody's child. -/
  unused : ∀ c, (s.proc c).state = .UNUSED → (s.proc c).parent = none
  /-- An embryo is in the hands of a fork. -/
  embryo : ∀ c, (s.proc c).state = .EMBRYO → ∃ p, (s.pc p).Forks c
  forks : ∀ p np, (s.pc p).Forks np → (s.proc np).state = .EMBRYO ∧
    (s.proc np).parent = if s.pc p = .copied np then some p else none
  forksInj : ∀ p p' np, (s.pc p).Forks np → (s.pc p').Forks np → p = p'
  /-- Only processes that have not exited stand inside a call. -/
  live : ∀ p, s.pc p ≠ .user → (s.proc p).state.Live
  /-- A process that sleeps in `wait` sleeps on its own address, and nobody else sleeps on a process. -/
  waiting : ∀ p, (s.proc p).state = .SLEEPING → s.pc p = .waiting → (s.proc p).chan = some (.proc p)
  chan : ∀ p q, (s.proc p).state = .SLEEPING → (s.proc p).chan = some (.proc q) → q = p ∧ s.pc p = .waiting
  /-- Nobody sleeps in `wait` next to a zombie child. -/
  noLost : ∀ p c, (s.proc p).state = .SLEEPING → s.pc p = .waiting → (s.proc c).parent = some p →
    (s.proc c).state ≠ .ZOMBIE

theorem boot_proc (p : Slot) : boot.proc p = if p = initproc then { Proc.zero with state := .RUNNABLE, pid := 1 }
    else Proc.zero := by
  show Function.update (fun _ => Proc.zero) initproc _ p = _
  exact Function.update_apply ..

theorem boot_inv : Inv boot := by
  constructor <;> intros <;> grind [boot_proc, Proc.zero, boot, Pc.Forks, ProcState.Live]

/-- A change that lets nobody fall asleep: processes that have not exited wake, stop, run or go on in a call that has
no part in `fork`'s bookkeeping. -/
structure Quiet (s t : State) : Prop where
  parent : ∀ p, (t.proc p).parent = (s.proc p).parent
  state : ∀ p, (t.proc p).state = (s.proc p).state ∧ (t.proc p).chan = (s.proc p).chan ∧ t.pc p = s.pc p ∨
    (s.proc p).state.Live ∧ (t.proc p).state.Live ∧ (t.proc p).state ≠ .SLEEPING
  forks : ∀ p np, (t.pc p).Forks np ↔ (s.pc p).Forks np
  copied : ∀ p np, t.pc p = .copied np ↔ s.pc p = .copied np

theorem Inv.quiet {s t : State} (hi : Inv s) (h : Quiet s t) : Inv t := by
  have hlive : ∀ p, (t.proc p).state.Live ↔ (s.proc p).state.Live := by
    intro p
    rcases h.state p with ⟨h, -⟩ | ⟨h, h', -⟩
    · rw [h]
    · exact iff_of_true h' h
  have hdead : ∀ p x, ¬ x.Live → ((t.proc p).state = x ↔ (s.proc p).state = x) := by
    intro p x hx
    rcases h.state p with ⟨h, -⟩ | ⟨h, h', -⟩
    · rw [h]
    · exact iff_of_false (fun e => hx (e ▸ h')) fun e => hx (e ▸ h)
  have hsleep : ∀ p, (t.proc p).state = .SLEEPING → (s.proc p).state = .SLEEPING ∧
      (t.proc p).chan = (s.proc p).chan ∧ t.pc p = s.pc p := by
    intro p hp
    rcases h.state p with ⟨h1, h2, h3⟩ | ⟨-, -, h⟩
    · exact ⟨h1 ▸ hp, h2, h3⟩
    · exact absurd hp h
  constructor
  · exact (hlive _).2 hi.init
  · intro c hc hn
    rw [hlive, hdead c .ZOMBIE (by decide)] at hc
    obtain ⟨q, h1, h2, h3⟩ := hi.child c hc hn
    exact ⟨q, (h.parent c).trans h1, h2, (hlive q).2 h3⟩
  · intro c hc
    rw [h.parent]
    exact hi.unused c ((hdead c _ (by decide)).1 hc)
  · intro c hc
    obtain ⟨p, hp⟩ := hi.embryo c ((hdead c _ (by decide)).1 hc)
    exact ⟨p, (h.forks p c).2 hp⟩
  · intro p np hp
    obtain ⟨h1, h2⟩ := hi.forks p np ((h.forks p np).1 hp)
    refine ⟨(hdead np _ (by decide)).2 h1, ?_⟩
    rw [h.parent, h2]
    simp only [h.copied]
  · intro p p' np h1 h2
    exact hi.forksInj p p' np ((h.forks p np).1 h1) ((h.forks p' np).1 h2)
  · intro p hp
    rw [hlive]
    rcases h.state p with ⟨-, -, h⟩ | ⟨h, -⟩
    · exact hi.live p (h ▸ hp)
    · exact h
  · intro p hp hw
    obtain ⟨h1, h2, h3⟩ := hsleep p hp
    exact h2.trans (hi.waiting p h1 (h3 ▸ hw))
  · intro p q hp hq
    obtain ⟨h1, h2, h3⟩ := hsleep p hp
    rw [h3]
    exact hi.chan p q h1 (h2 ▸ hq)
  · intro p c hp hw hc
    obtain ⟨h1, h2, h3⟩ := hsleep p hp
    rw [Ne, hdead c _ (by decide)]
    exact hi.noLost p c h1 (h3 ▸ hw) ((h.parent c) ▸ hc)

/-! ## The steps of fork -/

section

variable {s t : State} {p np : Slot}

theorem Pc.Forks.ne_user {pc : Pc} (h : pc.Forks np) : pc ≠ .user := by
  rintro rfl
  rcases h with h | h | h <;> cases h

theorem Pc.Forks.inj {pc : Pc} {x : Slot} (h : pc.Forks np) (hx : pc.Forks x) : x = np := by
  rcases h with rfl | rfl | rfl <;> rcases hx with h | h | h <;> cases h <;> rfl

/-- If no process left the live ones and no parent changed, everybody's parent is still there. -/
theorem Inv.child_of (hi : Inv s) (hpar : ∀ c, (t.proc c).parent = (s.proc c).parent)
    (hst : ∀ c, (t.proc c).state.Live ∨ (t.proc c).state = .ZOMBIE → (s.proc c).state.Live ∨ (s.proc c).state = .ZOMBIE)
    (hlive : ∀ q, (s.proc q).state.Live → (t.proc q).state.Live) :
    ∀ c, (t.proc c).state.Live ∨ (t.proc c).state = .ZOMBIE → c ≠ initproc →
      ∃ q, (t.proc c).parent = some q ∧ q ≠ c ∧ (t.proc q).state.Live := by
  intro c hc hn
  obtain ⟨q, hq, hqc, hl⟩ := hi.child c (hst c hc) hn
  exact ⟨q, (hpar c).trans hq, hqc, hlive q hl⟩

theorem Inv.allocproc (hi : Inv s) (hp : s.atUser p) (hnp : (s.proc np).state = .UNUSED)
    (hst : ∀ q, (t.proc q).state = if q = np then .EMBRYO else (s.proc q).state)
    (hpar : ∀ q, (t.proc q).parent = (s.proc q).parent) (hch : ∀ q, (t.proc q).chan = (s.proc q).chan)
    (hpc : ∀ q, t.pc q = if q = p then .alloced np else s.pc q) : Inv t := by
  have hfresh : ∀ q, ¬ (s.pc q).Forks np := fun q hq => by
    have := (hi.forks q np hq).1
    rw [hnp] at this
    cases this
  have hne : p ≠ np := fun h => by
    have := hp.1
    rw [h, hnp] at this
    cases this
  have hlive : ∀ q, (s.proc q).state.Live → (t.proc q).state.Live := by grind [ProcState.Live]
  have hback : ∀ q, (t.proc q).state.Live ∨ (t.proc q).state = .ZOMBIE →
      (s.proc q).state.Live ∨ (s.proc q).state = .ZOMBIE := by grind [ProcState.Live]
  have hchild := hi.child_of hpar hback hlive
  obtain ⟨hp, hpu⟩ := hp
  obtain ⟨h1, -, h3, h4, h5, h6, h7, h8, h9, h10⟩ := hi
  constructor
  · exact hlive _ h1
  · exact hchild
  · grind
  · grind [Pc.Forks]
  · grind [Pc.Forks]
  · grind [Pc.Forks]
  · grind [ProcState.Live]
  · grind
  · grind
  · grind

/-- A fork gives its slot back. -/
theorem Inv.forkFailed (hi : Inv s) (hf : s.pc p = .alloced np ∨ s.pc p = .stacked np)
    (hst : ∀ q, (t.proc q).state = if q = np then .UNUSED else (s.proc q).state)
    (hpar : ∀ q, (t.proc q).parent = (s.proc q).parent) (hch : ∀ q, (t.proc q).chan = (s.proc q).chan)
    (hpc : ∀ q, t.pc q = if q = p then .user else s.pc q) : Inv t := by
  have hfp : (s.pc p).Forks np := by grind [Pc.Forks]
  obtain ⟨hemb, hnone⟩ := hi.forks p np hfp
  have hlive : ∀ q, (s.proc q).state.Live → (t.proc q).state.Live := by grind [ProcState.Live]
  have hback : ∀ q, (t.proc q).state.Live ∨ (t.proc q).state = .ZOMBIE →
      (s.proc q).state.Live ∨ (s.proc q).state = .ZOMBIE := by grind [ProcState.Live]
  have hchild := hi.child_of hpar hback hlive
  have hothers : ∀ q x, q ≠ p → (s.pc q).Forks x → x ≠ np := fun q x hq hx h => hq (hi.forksInj q p np (h ▸ hx) hfp)
  obtain ⟨h1, -, h3, h4, h5, h6, h7, h8, h9, h10⟩ := hi
  constructor
  · exact hlive _ h1
  · exact hchild
  · grind
  · intro c hc
    have hcn : c ≠ np := fun h => by rw [hst, if_pos h] at hc; cases hc
    rw [hst, if_neg hcn] at hc
    obtain ⟨q, hq⟩ := h4 c hc
    have hqp : q ≠ p := fun h => hcn (hfp.inj (h ▸ hq))
    exact ⟨q, by rw [hpc, if_neg hqp]; exact hq⟩
  · grind [Pc.Forks]
  · grind [Pc.Forks]
  · intro q hq
    rw [hpc] at hq
    split at hq
    · exact absurd rfl hq
    · exact hlive q (h7 q hq)
  · grind
  · grind
  · grind

/-- A fork goes on from its second to its third stage. -/
theorem Inv.copied (hi : Inv s) (hf : s.pc p = .stacked np)
    (hst : ∀ q, (t.proc q).state = (s.proc q).state)
    (hpar : ∀ q, (t.proc q).parent = if q = np then some p else (s.proc q).parent)
    (hch : ∀ q, (t.proc q).chan = (s.proc q).chan)
    (hpc : ∀ q, t.pc q = if q = p then .copied np else s.pc q) : Inv t := by
  have hfp : (s.pc p).Forks np := Or.inr (Or.inl hf)
  obtain ⟨hemb, hnone⟩ := hi.forks p np hfp
  have hothers : ∀ q x, q ≠ p → (s.pc q).Forks x → x ≠ np := fun q x hq hx h => hq (hi.forksInj q p np (h ▸ hx) hfp)
  obtain ⟨h1, h2, h3, h4, h5, h6, h7, h8, h9, h10⟩ := hi
  constructor
  · rw [hst]; exact h1
  · intro c hc hn
    rw [hst] at hc
    obtain ⟨q, hq, hqc, hl⟩ := h2 c hc hn
    have hcn : c ≠ np := by
      rintro rfl
      simp [hemb] at hc
    exact ⟨q, by rw [hpar, if_neg hcn]; exact hq, hqc, by rw [hst]; exact hl⟩
  · grind
  · intro c hc
    rw [hst] at hc
    by_cases hcn : c = np
    · exact ⟨p, by rw [hpc, if_pos rfl, hcn]; exact Or.inr (Or.inr rfl)⟩
    · obtain ⟨q, hq⟩ := h4 c hc
      have hqp : q ≠ p := fun h => hcn (hfp.inj (h ▸ hq))
      exact ⟨q, by rw [hpc, if_neg hqp]; exact hq⟩
  · grind [Pc.Forks]
  · grind [Pc.Forks]
  · grind
  · grind
  · grind
  · grind

/-- A fork hands its child to the scheduler. -/
theorem Inv.forked (hi : Inv s) (hp : (s.proc p).state = .RUNNING) (hf : s.pc p = .copied np)
    (hst : ∀ q, (t.proc q).state = if q = np then .RUNNABLE else (s.proc q).state)
    (hpar : ∀ q, (t.proc q).parent = (s.proc q).parent) (hch : ∀ q, (t.proc q).chan = (s.proc q).chan)
    (hpc : ∀ q, t.pc q = if q = p ∨ q = np then .user else s.pc q) : Inv t := by
  have hfp : (s.pc p).Forks np := Or.inr (Or.inr hf)
  obtain ⟨hemb, hpnp⟩ := hi.forks p np hfp
  rw [if_pos hf] at hpnp
  have hnp : s.pc np = .user := by
    by_contra h
    have := hi.live np h
    simp [hemb] at this
  have hothers : ∀ q x, q ≠ p → (s.pc q).Forks x → x ≠ np := fun q x hq hx h => hq (hi.forksInj q p np (h ▸ hx) hfp)
  have hlive : ∀ q, (s.proc q).state.Live → (t.proc q).state.Live := by grind [ProcState.Live]
  obtain ⟨h1, h2, h3, h4, h5, h6, h7, h8, h9, h10⟩ := hi
  constructor
  · exact hlive _ h1
  · intro c hc hn
    rw [hpar]
    by_cases hcn : c = np
    · refine ⟨p, hcn ▸ hpnp, ?_, hlive p (by rw [hp]; simp)⟩
      rintro rfl
      rw [hcn, hemb] at hp
      cases hp
    · rw [hst, if_neg hcn] at hc
      obtain ⟨q, hq, hqc, hl⟩ := h2 c hc hn
      exact ⟨q, hq, hqc, hlive q hl⟩
  · grind
  · intro c hc
    have hcn : c ≠ np := fun h => by rw [hst, if_pos h] at hc; cases hc
    rw [hst, if_neg hcn] at hc
    obtain ⟨q, hq⟩ := h4 c hc
    have hqp : q ≠ p := fun h => hcn (hfp.inj (h ▸ hq))
    have hqn : q ≠ np := fun h => hq.ne_user (h ▸ hnp)
    exact ⟨q, by rw [hpc, if_neg (by simp [hqp, hqn])]; exact hq⟩
  · grind [Pc.Forks]
  · grind [Pc.Forks]
  · intro q hq
    rw [hpc] at hq
    split at hq
    · exact absurd rfl hq
    · exact hlive q (h7 q hq)
  · grind
  · grind
  · grind

end

/-! ## Exit, wait and sleep -/

section

variable {s t : State} {p c : Slot}

/-- What `exit` does to the table before it leaves the CPU. -/
theorem Inv.exit (hi : Inv s) (hp : s.atUser p) (hn : p ≠ initproc)
    (hst : ∀ q, q ≠ p → (t.proc q).state = (s.proc q).state ∨
      (s.proc q).state = .SLEEPING ∧ (t.proc q).state = .RUNNABLE)
    (hz : (t.proc p).state = .ZOMBIE)
    (hpar : ∀ q, (t.proc q).parent = if (s.proc q).parent = some p then some initproc else (s.proc q).parent)
    (hch : ∀ q, (t.proc q).chan = (s.proc q).chan) (hpc : t.pc = s.pc)
    (hwake : ∀ q, (s.proc p).parent = some q → (s.proc q).chan = some (.proc q) → (t.proc q).state ≠ .SLEEPING)
    (hwakes : ∀ c, (s.proc c).parent = some p → (s.proc c).state = .ZOMBIE →
      (s.proc initproc).chan = some (.proc initproc) → (t.proc initproc).state ≠ .SLEEPING) : Inv t := by
  obtain ⟨hp, hpu⟩ := hp
  have hlive : ∀ q, q ≠ p → (s.proc q).state.Live → (t.proc q).state.Live := by grind [ProcState.Live]
  have hback : ∀ q x, q ≠ p → ¬ x.Live → (t.proc q).state = x → (s.proc q).state = x := by grind [ProcState.Live]
  have hsleep : ∀ q, (t.proc q).state = .SLEEPING → (s.proc q).state = .SLEEPING := by grind
  have hinit : (t.proc initproc).state.Live := hlive _ (Ne.symm hn) hi.init
  have hnofork : ∀ q, s.pc q ≠ .copied p := by
    intro q hq
    have := (hi.forks q p (Or.inr (Or.inr hq))).1
    rw [hp] at this
    cases this
  constructor
  · exact hinit
  · intro x hx hxn
    rw [hpar]
    split
    · exact ⟨initproc, rfl, Ne.symm hxn, hinit⟩
    · next hxp =>
      have hx' : (s.proc x).state.Live ∨ (s.proc x).state = .ZOMBIE := by
        by_cases hxp : x = p
        · subst hxp; rw [hp]; simp
        · rcases hst x hxp with h | ⟨h, -⟩
          · rw [h] at hx; exact hx
          · rw [h]; simp
      obtain ⟨q, hq, hqx, hl⟩ := hi.child x hx' hxn
      have hqp : q ≠ p := fun h => hxp (h ▸ hq)
      exact ⟨q, hq, hqx, hlive q hqp hl⟩
  · intro x hx
    have hxp : x ≠ p := by rintro rfl; rw [hz] at hx; cases hx
    rw [hpar, hi.unused x (hback x _ hxp (by decide) hx)]
    simp
  · intro x hx
    have hxp : x ≠ p := by rintro rfl; rw [hz] at hx; cases hx
    rw [hpc]
    exact hi.embryo x (hback x _ hxp (by decide) hx)
  · intro q np hq
    rw [hpc] at hq ⊢
    obtain ⟨h1, h2⟩ := hi.forks q np hq
    have hnp : np ≠ p := by rintro rfl; rw [hp] at h1; cases h1
    have hqp : q ≠ p := fun h => hq.ne_user (h ▸ hpu)
    refine ⟨?_, ?_⟩
    · rcases hst np hnp with h | ⟨h, -⟩
      · rw [h, h1]
      · rw [h] at h1; cases h1
    · rw [hpar, h2]
      by_cases hcp : s.pc q = .copied np
      · simp [hcp, hqp]
      · simp [hcp]
  · rw [hpc]; exact hi.forksInj
  · intro q hq
    rw [hpc] at hq
    have hqp : q ≠ p := fun h => hq (h ▸ hpu)
    exact hlive q hqp (hi.live q hq)
  · intro q hq hw
    rw [hch]
    exact hi.waiting q (hsleep q hq) (hpc ▸ hw)
  · intro q r hq hr
    rw [hpc]
    exact hi.chan q r (hsleep q hq) (hch q ▸ hr)
  · intro q x hq hw hx hxz
    rw [hpc] at hw
    have hqs := hsleep q hq
    have hqc := hi.waiting q hqs hw
    rw [hpar] at hx
    by_cases hxp : x = p
    · subst hxp
      -- nobody is its own parent, so `p` keeps its parent, which `exit` has woken
      have hself : (s.proc x).parent ≠ some x := by
        obtain ⟨r, hr, hrx, -⟩ := hi.child x (Or.inl (by rw [hp]; simp)) hn
        rw [hr]
        exact fun h => hrx (Option.some.inj h)
      rw [if_neg hself] at hx
      exact hwake q hx hqc hq
    · have hxz' := hback x _ hxp (by decide) hxz
      split at hx
      · next hxp' =>
        have hxi : initproc = q := Option.some.inj hx
        subst hxi
        exact hwakes x hxp' hxz' hqc hq
      · exact hi.noLost q x hqs hw hx hxz'

/-- `wait` takes a zombie child out of the table. -/
theorem Inv.reap (hi : Inv s) (hp : (s.proc p).state = .RUNNING) (hpp : s.pc p = .user ∨ s.pc p = .waiting)
    (hz : (s.proc c).state = .ZOMBIE)
    (hst : ∀ q, (t.proc q).state = if q = c then .UNUSED else (s.proc q).state)
    (hpar : ∀ q, (t.proc q).parent = if q = c then none else (s.proc q).parent)
    (hch : ∀ q, (t.proc q).chan = (s.proc q).chan) (hpc : ∀ q, t.pc q = if q = p then .user else s.pc q) : Inv t := by
  have hcl : ¬ (s.proc c).state.Live := by rw [hz]; decide
  have hpf : ∀ q x, q = p → ¬ (s.pc q).Forks x := by
    rintro q x rfl h
    rcases hpp with e | e <;> rw [e] at h <;> rcases h with h | h | h <;> cases h
  have hnf : ∀ q, ¬ (s.pc q).Forks c := by
    intro q h
    have := (hi.forks q c h).1
    rw [hz] at this
    cases this
  have hlive : ∀ q, (s.proc q).state.Live → q ≠ c := fun q hq h => hcl (h ▸ hq)
  constructor
  · rw [hst, if_neg (hlive _ hi.init)]
    exact hi.init
  · intro x hx hxn
    have hxc : x ≠ c := fun h => by rw [hst, if_pos h] at hx; simp at hx
    rw [hst, if_neg hxc] at hx
    obtain ⟨q, hq, hqx, hl⟩ := hi.child x hx hxn
    exact ⟨q, by rw [hpar, if_neg hxc]; exact hq, hqx, by rw [hst, if_neg (hlive q hl)]; exact hl⟩
  · intro x hx
    rw [hpar]
    split
    · rfl
    · next hxc => exact hi.unused x (by rw [hst, if_neg hxc] at hx; exact hx)
  · intro x hx
    have hxc : x ≠ c := fun h => by rw [hst, if_pos h] at hx; cases hx
    rw [hst, if_neg hxc] at hx
    obtain ⟨q, hq⟩ := hi.embryo x hx
    have hqp : q ≠ p := fun h => hpf q x h hq
    exact ⟨q, by rw [hpc, if_neg hqp]; exact hq⟩
  · intro q x hq
    have hqp : q ≠ p := fun h => by rw [hpc, if_pos h] at hq; exact hq.ne_user rfl
    rw [hpc, if_neg hqp] at hq ⊢
    have hxc : x ≠ c := fun h => hnf q (h ▸ hq)
    rw [hst, hpar, if_neg hxc, if_neg hxc]
    exact hi.forks q x hq
  · intro q q' x hq hq'
    have hqp : q ≠ p := fun h => by rw [hpc, if_pos h] at hq; exact hq.ne_user rfl
    have hqp' : q' ≠ p := fun h => by rw [hpc, if_pos h] at hq'; exact hq'.ne_user rfl
    rw [hpc, if_neg hqp] at hq
    rw [hpc, if_neg hqp'] at hq'
    exact hi.forksInj q q' x hq hq'
  · intro q hq
    have hqp : q ≠ p := fun h => hq (by rw [hpc, if_pos h])
    rw [hpc, if_neg hqp] at hq
    have hl := hi.live q hq
    rw [hst, if_neg (hlive q hl)]
    exact hl
  · intro q hq hw
    have hqp : q ≠ p := fun h => by rw [hpc, if_pos h] at hw; cases hw
    have hqc : q ≠ c := fun h => by rw [hst, if_pos h] at hq; cases hq
    rw [hpc, if_neg hqp] at hw
    rw [hst, if_neg hqc] at hq
    rw [hch]
    exact hi.waiting q hq hw
  · intro q r hq hr
    have hqc : q ≠ c := fun h => by rw [hst, if_pos h] at hq; cases hq
    rw [hst, if_neg hqc] at hq
    have hqp : q ≠ p := fun h => by rw [h, hp] at hq; cases hq
    rw [hpc, if_neg hqp]
    exact hi.chan q r hq (hch q ▸ hr)
  · intro q x hq hw hx
    have hqp : q ≠ p := fun h => by rw [hpc, if_pos h] at hw; cases hw
    have hqc : q ≠ c := fun h => by rw [hst, if_pos h] at hq; cases hq
    rw [hpc, if_neg hqp] at hw
    rw [hst, if_neg hqc] at hq
    rw [hpar] at hx
    rw [hst]
    split at hx
    · cases hx
    · next hxc =>
      rw [if_neg hxc]
      exact hi.noLost q x hq hw hx

/-- `p` falls asleep in `wait` without a zombie child, or on the address of another object. -/
theorem Inv.fallAsleep (hi : Inv s) (hp : (s.proc p).state = .RUNNING) (hpp : s.pc p = .user ∨ s.pc p = .waiting)
    {ch : Chan} {pc : Pc} (hwhy : pc = .waiting ∧ ch = .proc p ∧ (∀ c, (s.proc c).parent = some p →
      (s.proc c).state ≠ .ZOMBIE) ∨ pc = .asleep ∧ ∃ a, ch = .addr a)
    (hst : ∀ q, (t.proc q).state = if q = p then .SLEEPING else (s.proc q).state)
    (hpar : ∀ q, (t.proc q).parent = (s.proc q).parent)
    (hch : ∀ q, (t.proc q).chan = if q = p then some ch else (s.proc q).chan)
    (hpc : ∀ q, t.pc q = if q = p then pc else s.pc q) : Inv t := by
  have hpf : ∀ q x, (t.pc q).Forks x ↔ (s.pc q).Forks x := by
    intro q x
    rw [hpc]
    split
    · next h =>
      subst h
      refine iff_of_false ?_ ?_
      · rcases hwhy with ⟨rfl, -⟩ | ⟨rfl, -⟩ <;> rintro (h | h | h) <;> cases h
      · rcases hpp with e | e <;> rw [e] <;> rintro (h | h | h) <;> cases h
    · rfl
  have hcop : ∀ q x, (s.pc q).Forks x → (t.pc q = .copied x ↔ s.pc q = .copied x) := by
    intro q x hq
    have hqp : q ≠ p := by
      rintro rfl
      rcases hpp with e | e <;> rw [e] at hq <;> rcases hq with h | h | h <;> cases h
    rw [hpc, if_neg hqp]
  have hlive : ∀ q, (t.proc q).state.Live ↔ (s.proc q).state.Live := by
    intro q
    rw [hst]
    split
    · next h => rw [h, hp]; simp
    · rfl
  have hdead : ∀ q x, ¬ x.Live → ((t.proc q).state = x ↔ (s.proc q).state = x) := by
    intro q x hx
    rw [hst]
    split
    · next h =>
      rw [h, hp]
      exact iff_of_false (fun e => hx (e ▸ by simp)) fun e => hx (e ▸ by simp)
    · rfl
  constructor
  · exact (hlive _).2 hi.init
  · intro c hc hn
    rw [hlive, hdead c .ZOMBIE (by decide)] at hc
    obtain ⟨q, h1, h2, h3⟩ := hi.child c hc hn
    exact ⟨q, (hpar c).trans h1, h2, (hlive q).2 h3⟩
  · intro c hc
    rw [hpar]
    exact hi.unused c ((hdead c _ (by decide)).1 hc)
  · intro c hc
    obtain ⟨q, hq⟩ := hi.embryo c ((hdead c _ (by decide)).1 hc)
    exact ⟨q, (hpf q c).2 hq⟩
  · intro q x hq
    rw [hpf] at hq
    obtain ⟨h1, h2⟩ := hi.forks q x hq
    refine ⟨(hdead x _ (by decide)).2 h1, ?_⟩
    rw [hpar, h2]
    simp only [hcop q x hq]
  · intro q q' x hq hq'
    exact hi.forksInj q q' x ((hpf q x).1 hq) ((hpf q' x).1 hq')
  · intro q hq
    rw [hlive]
    by_cases hqp : q = p
    · rw [hqp, hp]; simp
    · rw [hpc, if_neg hqp] at hq
      exact hi.live q hq
  · intro q hq hw
    rw [hch]
    by_cases hqp : q = p
    · rw [hpc, if_pos hqp] at hw
      rw [if_pos hqp]
      rcases hwhy with ⟨-, rfl, -⟩ | ⟨rfl, -⟩
      · rw [hqp]
      · cases hw
    · rw [hpc, if_neg hqp] at hw
      rw [hst, if_neg hqp] at hq
      rw [if_neg hqp]
      exact hi.waiting q hq hw
  · intro q r hq hr
    by_cases hqp : q = p
    · rw [hch, if_pos hqp] at hr
      rw [hpc, if_pos hqp]
      rcases hwhy with ⟨rfl, rfl, -⟩ | ⟨rfl, a, rfl⟩
      · cases hr
        exact ⟨hqp.symm, rfl⟩
      · cases hr
    · rw [hch, if_neg hqp] at hr
      rw [hst, if_neg hqp] at hq
      rw [hpc, if_neg hqp]
      exact hi.chan q r hq hr
  · intro q c hq hw hc
    rw [hpar] at hc
    rw [Ne, hdead c _ (by decide)]
    by_cases hqp : q = p
    · rw [hpc, if_pos hqp] at hw
      rcases hwhy with ⟨-, -, hno⟩ | ⟨rfl, -⟩
      · exact hno c (hqp ▸ hc)
      · cases hw
    · rw [hst, if_neg hqp] at hq
      rw [hpc, if_neg hqp] at hw
      exact hi.noLost q c hq hw hc

end

/-! ## Every step -/

section

variable {s t : State} {p : Slot}

/-- `p` goes on in the kernel from where it has no slot in its hands. -/
theorem forks_of_idle {pc pc' : Pc} (h : pc = .user ∨ pc = .waiting ∨ pc = .asleep)
    (h' : pc' = .user ∨ pc' = .waiting ∨ pc' = .asleep) (np : Slot) :
    (pc'.Forks np ↔ pc.Forks np) ∧ (pc' = .copied np ↔ pc = .copied np) := by
  rcases h with rfl | rfl | rfl <;> rcases h' with rfl | rfl | rfl <;> simp [Pc.Forks]

/-- A change of the entry of a process that has not exited, after which it does not sleep, and of no other entry. -/
theorem Quiet.of_entry (e : Proc) (hs : (s.proc p).state.Live) (ht : e.state.Live) (hn : e.state ≠ .SLEEPING)
    (hpar : e.parent = (s.proc p).parent) (hproc : t.proc = (s.setProc p e).proc)
    (hpc : t.pc = s.pc ∨ (s.pc p = .user ∨ s.pc p = .waiting ∨ s.pc p = .asleep) ∧ t.pc = (s.setPc p .user).pc) :
    Quiet s t := by
  have hprocs : ∀ q, t.proc q = if q = p then e else s.proc q := fun q => by rw [hproc, setProc_proc]
  have hforks : ∀ q np, ((t.pc q).Forks np ↔ (s.pc q).Forks np) ∧ (t.pc q = .copied np ↔ s.pc q = .copied np) := by
    intro q np
    rcases hpc with h | ⟨hidle, h⟩
    · rw [h]; exact ⟨Iff.rfl, Iff.rfl⟩
    · rw [h, setPc_pc]
      split
      · next hq => exact forks_of_idle (hq ▸ hidle) (Or.inl rfl) np
      · exact ⟨Iff.rfl, Iff.rfl⟩
  refine ⟨fun q => ?_, fun q => ?_, fun q np => (hforks q np).1, fun q np => (hforks q np).2⟩
  · rw [hprocs]
    split
    · next h => rw [h, hpar]
    · rfl
  · rw [hprocs]
    by_cases hq : q = p
    · rw [if_pos hq, hq]
      exact Or.inr ⟨hs, ht, hn⟩
    · rw [if_neg hq]
      refine Or.inl ⟨rfl, rfl, ?_⟩
      rcases hpc with h | ⟨-, h⟩
      · rw [h]
      · rw [h, setPc_pc, if_neg hq]

theorem Quiet.wakeup1 (ch : Option Chan) : Quiet s { s with proc := wakeup1 s.proc ch } := by
  refine ⟨fun q => wakeup1_parent .., fun q => ?_, fun _ _ => Iff.rfl, fun _ _ => Iff.rfl⟩
  simp only [wakeup1_state, wakeup1_chan]
  split
  · next h => exact Or.inr ⟨by rw [h.1]; simp, by simp, by simp⟩
  · exact Or.inl (by simp)

theorem Inv.waitLoop (hi : Inv s) (hp : (s.proc p).state = .RUNNING) (hpp : s.pc p = .user ∨ s.pc p = .waiting) :
    Inv (waitLoop s p).1 := by
  unfold Ptable.waitLoop
  cases hz : zombieChild s.proc p with
  | some c =>
    obtain ⟨hcp, hcz⟩ := zombieChild_some hz
    refine hi.reap hp hpp hcz ?_ ?_ ?_ ?_
    all_goals intro q; simp only [setPc_proc, setProc_proc, setPc_pc, setProc_pc, Proc.reaped]
    · split <;> rfl
    · split <;> rfl
    · split
      · next h => rw [h]
      · rfl
  | none =>
    show Inv (if _ then _ else _ : State × Option Event).1
    split
    · exact hi.quiet (Quiet.of_entry (s.proc p) (by rw [hp]; simp) (by rw [hp]; simp) (by rw [hp]; simp) rfl
        (by rw [setPc_proc]; exact (Function.update_eq_self ..).symm)
        (Or.inr ⟨by rcases hpp with h | h <;> simp [h], rfl⟩))
    · refine hi.fallAsleep hp hpp (Or.inl ⟨rfl, rfl, fun c => zombieChild_none hz⟩) ?_ ?_ ?_ ?_
      all_goals intro q; simp only [setPc_proc, setProc_proc, setPc_pc, setProc_pc]
      · split <;> rfl
      · split
        · next h => rw [h]
        · rfl
      · split <;> rfl

/-- The state in which the resumed thread goes on. -/
theorem Inv.resume (hi : Inv s) (hp : (s.proc p).state = .RUNNABLE) : Inv (s.setState p .RUNNING) :=
  hi.quiet (Quiet.of_entry { s.proc p with state := .RUNNING } (by rw [hp]; simp) (by simp) (by simp) rfl rfl
    (Or.inl rfl))

theorem Inv.exec_exit (hi : Inv s) (hp : s.atUser p) (hn : p ≠ initproc) :
    Inv ({ s with proc := passChildren (wakeup1 s.proc ((s.proc p).parent.map .proc)) p }.setState p .ZOMBIE) := by
  have hpar := passChildren_parent (Ptable.wakeup1 s.proc ((s.proc p).parent.map .proc)) p
  have hch := passChildren_chan (Ptable.wakeup1 s.proc ((s.proc p).parent.map .proc)) p
  have hst := passChildren_state (Ptable.wakeup1 s.proc ((s.proc p).parent.map .proc)) p
  have hwakes := fun c => passChildren_wakes (Ptable.wakeup1 s.proc ((s.proc p).parent.map .proc)) p initproc (c := c)
  generalize passChildren (Ptable.wakeup1 s.proc ((s.proc p).parent.map .proc)) p = tb at *
  simp only [wakeup1_parent, wakeup1_chan] at hpar hch hst hwakes
  refine hi.exit hp hn ?_ ?_ ?_ ?_ rfl ?_ ?_
  · intro q hq
    rw [setState_proc, if_neg hq]
    rcases hst q with h | ⟨h1, -, h2⟩
    · rw [h, wakeup1_state]
      split
      · next hw => exact Or.inr ⟨hw.1, rfl⟩
      · exact Or.inl rfl
    · rw [wakeup1_state] at h1
      split at h1
      · cases h1
      · exact Or.inr ⟨h1, h2⟩
  · rw [setState_proc, if_pos rfl]
  · intro q
    rw [setState_proc, ← hpar]
    split
    · next h => rw [h]
    · rfl
  · intro q
    rw [setState_proc, ← hch]
    split
    · next h => rw [h]
    · rfl
  · intro q hq hqc
    rw [setState_proc]
    split
    · simp
    · rcases hst q with h | ⟨-, -, h⟩
      · rw [h, wakeup1_state, hq]
        simp only [hqc, Option.map_some, and_true]
        split
        · simp
        · next h => exact h
      · rw [h]; simp
  · intro c hc hcz hic
    rw [setState_proc, if_neg (Ne.symm hn)]
    refine hwakes c hc ?_ hic
    rw [wakeup1_state, if_neg (by rw [hcz]; simp)]
    exact hcz

/-- `allocproc` takes a slot, or finds none. -/
theorem Inv.exec_allocproc (hi : Inv s) {e : Option Event} (h : exec s (.allocproc p) = some (t, e)) : Inv t := by
  simp only [Ptable.exec] at h
  split at h
  · next hp =>
    split at h
    · cases h; exact hi
    · next np hnp =>
      cases h
      refine hi.allocproc hp (firstUnused_some hnp) ?_ ?_ ?_ ?_
      all_goals intro q; simp only [setPc_proc, setProc_proc, setPc_pc, setProc_pc]
      · split <;> rfl
      · split
        · next h => rw [h]
        · rfl
      · split
        · next h => rw [h]
        · rfl
  · cases h

/-- `allocproc` gives the child a kernel stack, or frees the slot. -/
theorem Inv.exec_kalloc (hi : Inv s) {ok : Bool} {e : Option Event} (h : exec s (.kalloc p ok) = some (t, e)) : Inv t := by
  simp only [Ptable.exec] at h
  split at h
  · next np hf =>
    split at h
    · cases h
    · next hp =>
      rw [not_not] at hp
      split at h
      · cases h
        refine hi.quiet ⟨fun _ => rfl, fun q => ?_, fun q x => ?_, fun q x => ?_⟩
        · by_cases hq : q = p
          · subst hq
            exact Or.inr ⟨by rw [hp]; simp, by rw [setPc_proc, hp]; simp, by rw [setPc_proc, hp]; simp⟩
          · exact Or.inl ⟨rfl, rfl, by rw [setPc_pc, if_neg hq]⟩
        · rw [setPc_pc]
          split
          · next hq => rw [hq, hf]; simp [Pc.Forks]
          · rfl
        · rw [setPc_pc]
          split
          · next hq => rw [hq, hf]; simp
          · rfl
      · cases h
        refine hi.forkFailed (Or.inl hf) ?_ ?_ ?_ ?_
        all_goals intro q; simp only [setPc_proc, setState_proc, setPc_pc, setState_pc]
        · split <;> rfl
        · split
          · next h => rw [h]
          · rfl
        · split
          · next h => rw [h]
          · rfl
  · cases h

/-- `fork` copies the parent, or frees the slot. -/
theorem Inv.exec_copyuvm (hi : Inv s) {ok : Bool} {e : Option Event} (h : exec s (.copyuvm p ok) = some (t, e)) : Inv t := by
  simp only [Ptable.exec] at h
  split at h
  · next np hf =>
    split at h
    · cases h
    · split at h
      · cases h
        refine hi.copied hf ?_ ?_ ?_ ?_
        all_goals intro q; simp only [setPc_proc, setProc_proc, setPc_pc, setProc_pc]
        · split
          · next h => rw [h]
          · rfl
        · split <;> rfl
        · split
          · next h => rw [h]
          · rfl
      · cases h
        refine hi.forkFailed (Or.inr hf) ?_ ?_ ?_ ?_
        all_goals intro q; simp only [setPc_proc, setState_proc, setPc_pc, setState_pc]
        · split <;> rfl
        · split
          · next h => rw [h]
          · rfl
        · split
          · next h => rw [h]
          · rfl
  · cases h

/-- `fork` makes the child runnable. -/
theorem Inv.exec_runnable (hi : Inv s) {e : Option Event} (h : exec s (.runnable p) = some (t, e)) : Inv t := by
  simp only [Ptable.exec] at h
  split at h
  · next np hf =>
    split at h
    · cases h
    · next hp =>
      rw [not_not] at hp
      cases h
      refine hi.forked hp hf ?_ ?_ ?_ ?_
      all_goals intro q; simp only [setPc_proc, setState_proc, setPc_pc, setState_pc]
      · split <;> rfl
      · split
        · next h => rw [h]
        · rfl
      · split
        · next h => rw [h]
        · rfl
      · by_cases hq : q = p <;> simp [hq]
  · cases h

/-- `kill` marks a process, and wakes it. -/
theorem Inv.exec_kill (hi : Inv s) {pid : BitVec 32} {e : Option Event} (h : exec s (.kill p pid) = some (t, e)) : Inv t := by
  simp only [Ptable.exec] at h
  split at h
  · split at h
    · next q hq =>
      cases h
      by_cases hl : (s.proc q).state.Live
      · refine hi.quiet (Quiet.of_entry _ hl ?_ ?_ ?_ rfl (Or.inl rfl))
        · split
          · simp
          · exact hl
        · split
          · simp
          · next h => exact h
        · rfl
      · have hns : (s.proc q).state ≠ .SLEEPING := fun h => hl (by rw [h]; simp)
        refine hi.quiet ⟨fun x => ?_, fun x => ?_, fun _ _ => Iff.rfl, fun _ _ => Iff.rfl⟩
        · rw [setProc_proc]
          split
          · next h => rw [h]
          · rfl
        · refine Or.inl ⟨?_, ?_, rfl⟩
          · rw [setProc_proc]
            split
            · next h => rw [h]
            · rfl
          · rw [setProc_proc]
            split
            · next h => rw [h]
            · rfl
    · cases h; exact hi
  · cases h

/-- The scheduler resumes a process, which may go on in `wait`. -/
theorem Inv.exec_schedule (hi : Inv s) {e : Option Event} (h : exec s (.schedule p) = some (t, e)) : Inv t := by
  simp only [Ptable.exec] at h
  split at h
  · next hp =>
    have hr := hi.resume hp
    have hrun : ((s.setState p .RUNNING).proc p).state = .RUNNING := by rw [setState_proc, if_pos rfl]
    split at h
    · next hw =>
      have hq : Inv ((s.setState p .RUNNING).setProc p { (s.setState p .RUNNING).proc p with chan := none }) :=
        hr.quiet (Quiet.of_entry { (s.setState p .RUNNING).proc p with chan := none } (by rw [hrun]; simp)
          (by rw [hrun]; simp) (by rw [hrun]; simp) rfl rfl (Or.inl rfl))
      have := hq.waitLoop (p := p) (by rw [setProc_proc, if_pos rfl]; exact hrun) (Or.inr hw)
      rw [Option.some.inj h] at this
      exact this
    · next hw =>
      cases h
      exact hr.quiet (Quiet.of_entry { (s.setState p .RUNNING).proc p with chan := none } (by rw [hrun]; simp)
        (by rw [hrun]; simp) (by rw [hrun]; simp) rfl rfl (Or.inr ⟨Or.inr (Or.inr hw), rfl⟩))
    · cases h; exact hr
  · cases h

/-- **Every step keeps the invariant.** -/
theorem Inv.exec (hi : Inv s) {a : Act} {e : Option Event} (h : exec s a = some (t, e)) : Inv t := by
  cases a with
  | allocproc p => exact hi.exec_allocproc h
  | kalloc p ok => exact hi.exec_kalloc h
  | copyuvm p ok => exact hi.exec_copyuvm h
  | runnable p => exact hi.exec_runnable h
  | exit p =>
    simp only [Ptable.exec] at h
    split at h
    · next hp => cases h; exact hi.exec_exit hp.1 hp.2
    · cases h
  | wait p =>
    simp only [Ptable.exec] at h
    split at h
    · next hp =>
      have := hi.waitLoop hp.1 (Or.inl hp.2)
      rw [Option.some.inj h] at this
      exact this
    · cases h
  | kill p pid => exact hi.exec_kill h
  | yield p =>
    simp only [Ptable.exec] at h
    split at h
    · next hp =>
      cases h
      exact hi.quiet (Quiet.of_entry { s.proc p with state := .RUNNABLE } (by rw [hp]; simp) (by simp) (by simp) rfl rfl
        (Or.inl rfl))
    · cases h
  | sleep p ch =>
    simp only [Ptable.exec] at h
    split at h
    · next hp =>
      cases h
      refine hi.fallAsleep hp.1 (Or.inl hp.2) (Or.inr ⟨rfl, ch, rfl⟩) ?_ ?_ ?_ ?_
      all_goals intro q; simp only [setPc_proc, setProc_proc, setPc_pc, setProc_pc]
      · split <;> rfl
      · split
        · next h => rw [h]
        · rfl
      · split <;> rfl
    · cases h
  | wakeup ch =>
    cases h
    exact hi.quiet (Quiet.wakeup1 _)
  | schedule p => exact hi.exec_schedule h
  | fault p =>
    simp only [Ptable.exec] at h
    split at h
    · next hp =>
      cases h
      exact hi.quiet (Quiet.of_entry { s.proc p with killed := true } (by rw [hp.1]; simp) (by rw [hp.1]; simp)
        (by rw [hp.1]; simp) rfl rfl (Or.inl rfl))
    · cases h

end

/-- The invariant holds in every state of every run. -/
theorem Reaches.inv {tr : List Act} {s : State} {h : List Event} (hr : Reaches tr s h) : Inv s :=
  reaches_induction (fun s _ => Inv s) boot_inv (fun _ _ _ _ _ hi he => hi.exec he) hr

end NewXv6.Ptable
