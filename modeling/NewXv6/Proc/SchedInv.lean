import NewXv6.Proc.Sched

/-!
# The invariant of the scheduler

`Inv` says for every CPU what its scheduler's position means for the lock, for the process it has and for that process's
state (`CpuOk`), and what the threads that no CPU executes wait for. A thread's step that moves on and at most wakes others
keeps it (`Inv.thread`), one that takes a slot from one stage to the next (`Inv.special`), and a scheduler's
(`Inv.scheduler`).
-/

namespace NewXv6.Ptable.Sched

variable {C : Type}

/-! ## What a position says -/

/-- Where the thread goes on once it has released the lock. -/
def Pc.cont : Pc → Cont
  | .free k | .rel k | .yield0 k | .yield1 k | .wake _ k => k
  | .run np => .copied np
  | _ => .user

/-- The slot that a `fork` has in its hands. -/
def Cont.slot : Cont → Option Slot
  | .user => none
  | .alloced np | .stacked np | .copied np => some np

/-- The child that a `wait` is freeing. -/
def Pc.reaps : Pc → Option Slot
  | .reap0 x | .reap1 x | .reap2 x => some x
  | _ => none

/-- The thread holds `ptable.lock` when a CPU executes it here. -/
def Pc.Locked (pc : Pc) : Prop := ∀ k, pc ≠ .free k

/-- Where a thread can be switched to. -/
def Pc.Parked (pc : Pc) : Prop := (∃ k, pc = .rel k) ∨ pc = .sleep2 ∨ pc = .wait2

/-- The state of the process when a CPU executes its thread here. -/
def Pc.expect : Pc → ProcState
  | .yield1 _ => .RUNNABLE
  | .sleep1 | .wait1 => .SLEEPING
  | .exit2 | .exit3 => .ZOMBIE
  | _ => .RUNNING

theorem Pc.Parked.locked {pc : Pc} (h : pc.Parked) : pc.Locked := by
  intro k
  rcases h with ⟨k', rfl⟩ | rfl | rfl <;> simp

theorem Pc.Parked.expect {pc : Pc} (h : pc.Parked) : pc.expect = .RUNNING := by
  rcases h with ⟨k, rfl⟩ | rfl | rfl <;> rfl

theorem Pc.Parked.reaps {pc : Pc} (h : pc.Parked) : pc.reaps = none := by
  rcases h with ⟨k, rfl⟩ | rfl | rfl <;> rfl

theorem Pc.reaps_locked {pc : Pc} {x : Slot} (h : pc.reaps = some x) : pc.Locked ∧ pc.expect = .RUNNING := by
  cases pc <;> simp_all [Pc.reaps, Pc.Locked, Pc.expect]

theorem Pc.slot_ne_zombie {pc : Pc} {np : Slot} (h : pc.cont.slot = some np) : pc.expect ≠ .ZOMBIE := by
  cases pc <;> simp_all [Pc.cont, Cont.slot, Pc.expect]

theorem Pc.free_expect {pc : Pc} (h : ¬ pc.Locked) : pc.expect = .RUNNING := by
  unfold Pc.Locked at h
  push Not at h
  obtain ⟨k, rfl⟩ := h
  rfl

/-! ## The invariant -/

/-- What the position of `c`'s scheduler says about `c`, the lock and the process that `c` has. -/
def CpuOk (s : State C) (c : C) : Prop :=
  match (s.cpu c).pos with
  | .idle => (s.cpu c).proc = none ∧ (s.cpu c).cr3 = none ∧ s.lock ≠ some c
  | .scan _ | .wake _ | .woken => (s.cpu c).proc = none ∧ (s.cpu c).cr3 = none ∧ s.lock = some c
  | .chosen p => (s.cpu c).proc = some p ∧ (s.cpu c).cr3 = none ∧ s.lock = some c ∧ s.st p = .RUNNABLE
  | .loaded p => (s.cpu c).proc = some p ∧ (s.cpu c).cr3 = some p ∧ s.lock = some c ∧ s.st p = .RUNNABLE
  | .marked p => (s.cpu c).proc = some p ∧ (s.cpu c).cr3 = some p ∧ s.lock = some c ∧ s.st p = .RUNNING
  | .switched p => (s.cpu c).proc = some p ∧ (s.cpu c).cr3 = some p ∧ (s.lock = some c ↔ (s.pc p).Locked) ∧
      s.st p = (s.pc p).expect
  | .back p => (s.cpu c).proc = some p ∧ (s.cpu c).cr3 = some p ∧ s.lock = some c ∧
      (s.st p = .RUNNABLE ∨ s.st p = .SLEEPING ∨ s.st p = .ZOMBIE)
  | .unloaded p => (s.cpu c).proc = some p ∧ (s.cpu c).cr3 = none ∧ s.lock = some c ∧
      (s.st p = .RUNNABLE ∨ s.st p = .SLEEPING ∨ s.st p = .ZOMBIE)

structure Inv (s : State C) : Prop where
  cpu : ∀ c, CpuOk s c
  /-- No process is current on two CPUs. -/
  apart : ∀ c c' p, (s.cpu c).proc = some p → (s.cpu c').proc = some p → c = c'
  /-- A running process is current somewhere. -/
  running : ∀ p, s.st p = .RUNNING → ∃ c, (s.cpu c).proc = some p
  /-- A thread that no CPU executes stands where it can be switched to. -/
  parked : ∀ p, (s.st p).Live → (∀ c, (s.cpu c).pos ≠ .switched p) → (s.pc p).Parked
  /-- A slot in the hands of a fork is an embryo, and in the hands of one fork only. -/
  forks : ∀ p np, (s.st p).Live → (s.pc p).cont.slot = some np → s.st np = .EMBRYO
  forksInj : ∀ p p' np, (s.st p).Live → (s.st p').Live → (s.pc p).cont.slot = some np →
    (s.pc p').cont.slot = some np → p = p'
  /-- After `allocproc` the embryo has its kernel stack, on which it will start in `forkret`. -/
  stacked : ∀ p np, (s.st p).Live → (s.pc p).cont = .stacked np ∨ (s.pc p).cont = .copied np →
    s.kstack np = true ∧ s.pc np = .rel .user
  mapped : ∀ p np, (s.st p).Live → (s.pc p).cont = .copied np → s.pgdir np = true
  /-- `wait` frees zombies only. -/
  reaps : ∀ p x, (s.st p).Live → (s.pc p).reaps = some x → s.st x = .ZOMBIE
  /-- What is live or current has its kernel stack and its page table. -/
  memory : ∀ p, (s.st p).Live ∨ (∃ c, (s.cpu c).proc = some p) → s.kstack p = true ∧ s.pgdir p = true

section

variable {s t : State C} {c c' : C} {p x : Slot}

/-- A CPU that is not involved in a step. -/
theorem CpuOk.frame (h : CpuOk s c) (hcpu : t.cpu c = s.cpu c) (hlock : t.lock = some c ↔ s.lock = some c)
    (hst : ∀ x, (s.cpu c).proc = some x → t.st x = s.st x ∧ t.pc x = s.pc x) : CpuOk t c := by
  unfold CpuOk at h ⊢
  rw [hcpu]
  cases hp : (s.cpu c).pos <;> simp only [hp] at h ⊢
  case idle => exact ⟨h.1, h.2.1, fun hl => h.2.2 (hlock.1 hl)⟩
  case scan | wake | woken => exact ⟨h.1, h.2.1, hlock.2 h.2.2⟩
  case chosen | loaded | marked | back | unloaded =>
    obtain ⟨h1, h2, h3, h4⟩ := h
    rw [(hst _ h1).1]
    exact ⟨h1, h2, hlock.2 h3, h4⟩
  case switched =>
    rw [(hst _ h.1).1, (hst _ h.1).2, hlock]
    exact h

/-- What a CPU executes is its current process. -/
theorem Inv.switched (hi : Inv s) (h : (s.cpu c).pos = .switched p) : (s.cpu c).proc = some p ∧
    (s.cpu c).cr3 = some p ∧ (s.lock = some c ↔ (s.pc p).Locked) ∧ s.st p = (s.pc p).expect := by
  have := hi.cpu c
  unfold CpuOk at this
  rw [h] at this
  exact this

/-- A CPU that has a process without holding the lock executes it. -/
theorem Inv.unlocked (hi : Inv s) (hp : (s.cpu c).proc = some p) (hl : s.lock ≠ some c) :
    (s.cpu c).pos = .switched p ∧ s.st p = .RUNNING := by
  have h := hi.cpu c
  unfold CpuOk at h
  split at h
  all_goals first
    | (rw [h.1] at hp; cases hp; done)
    | exact absurd h.2.2 hl
    | exact absurd h.2.2.1 hl
    | skip
  next q hq =>
  rw [h.1] at hp
  cases hp
  refine ⟨hq, ?_⟩
  rw [h.2.2.2]
  exact Pc.free_expect fun hk => hl (h.2.2.1.2 hk)

/-- The states of a current process. -/
theorem Inv.current (hi : Inv s) (hp : (s.cpu c).proc = some p) : (s.st p).Live ∨ s.st p = .ZOMBIE := by
  have h := hi.cpu c
  unfold CpuOk at h
  split at h
  all_goals first
    | (rw [h.1] at hp; cases hp; done)
    | skip
  all_goals
    obtain ⟨h1, -, -, h4⟩ := h
    rw [h1] at hp
    cases hp
  · rw [h4]; simp
  · rw [h4]; simp
  · rw [h4]; simp
  · rw [h4]; cases s.pc _ <;> simp [Pc.expect]
  · rcases h4 with h | h | h <;> rw [h] <;> simp
  · rcases h4 with h | h | h <;> rw [h] <;> simp

/-- No CPU has an embryo or a free slot. -/
theorem Inv.not_current (hi : Inv s) (hx : s.st x = .EMBRYO ∨ s.st x = .UNUSED) (c : C) : (s.cpu c).proc ≠ some x := by
  intro h
  have := hi.current h
  rcases hx with hx | hx <;> rw [hx] at this <;> simp at this

/-- A CPU that has a zombie holds the lock. -/
theorem Inv.zombie_lock (hi : Inv s) (hx : s.st x = .ZOMBIE) (h : (s.cpu c).proc = some x) : s.lock = some c := by
  by_contra hl
  have := (hi.unlocked h hl).2
  rw [hx] at this
  cases this

/-- A thread that frees a zombie is executed, with the lock, by a CPU that nobody else's zombie is on. -/
theorem Inv.reap_alone (hi : Inv s) (hpos : (s.cpu c).pos = .switched p) (hr : (s.pc p).reaps = some x) :
    s.lock = some c ∧ s.st x = .ZOMBIE ∧ ∀ c', (s.cpu c').proc ≠ some x := by
  obtain ⟨h1, h2, h3, h4⟩ := hi.switched hpos
  obtain ⟨hl, he⟩ := Pc.reaps_locked hr
  have hlock := h3.2 hl
  have hz := hi.reaps p x (by rw [h4, he]; simp) hr
  refine ⟨hlock, hz, fun c' hc' => ?_⟩
  have hcc : c' = c := Option.some.inj ((hi.zombie_lock hz hc').symm.trans hlock)
  rw [hcc, h1] at hc'
  cases hc'
  rw [h4, he] at hz
  cases hz

/-- Only the thread that a CPU executes with the lock frees zombies. -/
theorem Inv.reaper (hi : Inv s) {q : Slot} (hq : (s.st q).Live) (hr : (s.pc q).reaps = some x) :
    ∃ c, (s.cpu c).pos = .switched q ∧ s.lock = some c := by
  by_cases h : ∀ c, (s.cpu c).pos ≠ .switched q
  · have := (hi.parked q hq h).reaps
    rw [hr] at this
    cases this
  · push Not at h
    obtain ⟨c, hc⟩ := h
    exact ⟨c, hc, (hi.reap_alone hc hr).1⟩

/-- **A step of a thread** that at most wakes other processes, changes its own entry and moves on. -/
theorem Inv.thread (hi : Inv s) (hpos : (s.cpu c).pos = .switched p) (hcpu : t.cpu = s.cpu)
    (hlock : ∀ c', c' ≠ c → (t.lock = some c' ↔ s.lock = some c'))
    (hlk : t.lock = some c ↔ (t.pc p).Locked) (hself : t.st p = (t.pc p).expect)
    (hpc : ∀ x, x ≠ p → t.pc x = s.pc x)
    (hst : ∀ x, x ≠ p → t.st x = s.st x ∨ s.st x = .SLEEPING ∧ t.st x = .RUNNABLE ∧ s.lock = some c)
    (hcont : (t.pc p).cont = (s.pc p).cont ∨ (t.pc p).cont = .user)
    (hreap : ∀ x, (t.pc p).reaps = some x → s.st x = .ZOMBIE ∧ x ≠ p)
    (hmem : ∀ x, s.st x ≠ .ZOMBIE ∨ (∃ c, (s.cpu c).proc = some x) → t.kstack x = s.kstack x ∧ t.pgdir x = s.pgdir x) :
    Inv t := by
  obtain ⟨hp, hcr, hl, hs⟩ := hi.switched hpos
  have hne : ∀ c' x, c' ≠ c → (s.cpu c').proc = some x → x ≠ p := fun c' x hc hx h =>
    hc (hi.apart c' c p (h ▸ hx) hp)
  have hlive : ∀ x, x ≠ p → ((t.st x).Live ↔ (s.st x).Live) := by
    intro x hx
    rcases hst x hx with h | ⟨h, h', -⟩
    · rw [h]
    · rw [h, h']; simp
  have hsame : ∀ x y, x ≠ p → ¬ y.Live → (t.st x = y ↔ s.st x = y) := by
    intro x y hx hy
    rcases hst x hx with h | ⟨h, h', -⟩
    · rw [h]
    · rw [h, h']
      exact iff_of_false (fun e => hy (e ▸ by simp)) fun e => hy (e ▸ by simp)
  have hemb : ∀ x, s.st x = .EMBRYO → x ≠ p ∧ t.st x = .EMBRYO := by
    intro x hx
    have hxp : x ≠ p := fun h => hi.not_current (Or.inl hx) c (h ▸ hp)
    exact ⟨hxp, (hsame x _ hxp (by decide)).2 hx⟩
  -- the thread of `p` was live before if it has a slot in its hands now
  have hpslot : ∀ np, (t.pc p).cont.slot = some np → (s.st p).Live ∧ (s.pc p).cont = (t.pc p).cont := by
    intro np h
    rcases hcont with he | he
    · refine ⟨?_, he.symm⟩
      rw [he] at h
      rcases hi.current hp with h' | h'
      · exact h'
      · rw [hs] at h'
        exact absurd h' (Pc.slot_ne_zombie h)
    · rw [he] at h; cases h
  have hslot : ∀ q np, (t.st q).Live → (t.pc q).cont.slot = some np →
      (s.st q).Live ∧ (s.pc q).cont = (t.pc q).cont := by
    intro q np hq hn
    by_cases hqp : q = p
    · subst hqp; exact hpslot np hn
    · rw [hpc q hqp] at hn ⊢
      exact ⟨(hlive q hqp).1 hq, rfl⟩
  constructor
  · intro c'
    by_cases hc : c' = c
    · subst hc
      unfold CpuOk
      rw [hcpu, hpos]
      exact ⟨hp, hcr, hlk, hself⟩
    · refine (hi.cpu c').frame (by rw [hcpu]) (hlock c' hc) fun x hx => ⟨?_, hpc x (hne c' x hc hx)⟩
      rcases hst x (hne c' x hc hx) with h | ⟨h, -, h'⟩
      · exact h
      · have hl' : s.lock ≠ some c' := fun e => hc (Option.some.inj (e.symm.trans h'))
        have := (hi.unlocked hx hl').2
        rw [h] at this
        cases this
  · rw [hcpu]; exact hi.apart
  · intro x hx
    rw [hcpu]
    by_cases hxp : x = p
    · exact ⟨c, hxp ▸ hp⟩
    · rcases hst x hxp with h | ⟨-, h, -⟩
      · exact hi.running x (h ▸ hx)
      · rw [h] at hx; cases hx
  · intro x hx hno
    rw [hcpu] at hno
    have hxp : x ≠ p := fun h => hno c (h ▸ hpos)
    rw [hpc x hxp]
    exact hi.parked x ((hlive x hxp).1 hx) hno
  · intro q np hq hn
    obtain ⟨h1, h2⟩ := hslot q np hq hn
    exact (hemb np (hi.forks q np h1 (h2 ▸ hn))).2
  · intro q q' np hq hq' hn hn'
    obtain ⟨h1, h2⟩ := hslot q np hq hn
    obtain ⟨h3, h4⟩ := hslot q' np hq' hn'
    exact hi.forksInj q q' np h1 h3 (h2 ▸ hn) (h4 ▸ hn')
  · intro q np hq hn
    have hns : (t.pc q).cont.slot = some np := by rcases hn with h | h <;> rw [h] <;> rfl
    obtain ⟨h1, h2⟩ := hslot q np hq hns
    obtain ⟨h3, h4⟩ := hi.stacked q np h1 (h2 ▸ hn)
    have he := hi.forks q np h1 (h2 ▸ hns)
    rw [hpc np (hemb np he).1, (hmem np (Or.inl (by rw [he]; simp))).1]
    exact ⟨h3, h4⟩
  · intro q np hq hn
    have hns : (t.pc q).cont.slot = some np := by rw [hn]; rfl
    obtain ⟨h1, h2⟩ := hslot q np hq hns
    have he := hi.forks q np h1 (h2 ▸ hns)
    rw [(hmem np (Or.inl (by rw [he]; simp))).2]
    exact hi.mapped q np h1 (h2 ▸ hn)
  · intro q x hq hx
    have hz : s.st x = .ZOMBIE ∧ x ≠ p := by
      by_cases hqp : q = p
      · subst hqp; exact hreap x hx
      · rw [hpc q hqp] at hx
        have hq' := (hlive q hqp).1 hq
        obtain ⟨d, hd, -⟩ := hi.reaper hq' hx
        exact ⟨hi.reaps q x hq' hx, fun h => (hi.reap_alone hd hx).2.2 c (h ▸ hp)⟩
    exact (hsame x _ hz.2 (by decide)).2 hz.1
  · intro x hx
    rw [hcpu] at hx
    have hold : (s.st x).Live ∨ ∃ c, (s.cpu c).proc = some x := by
      by_cases hxp : x = p
      · exact Or.inr ⟨c, hxp ▸ hp⟩
      · exact hx.imp_left (hlive x hxp).1
    have hm := hmem x (hold.imp_left fun h e => by rw [e] at h; simp at h)
    rw [hm.1, hm.2]
    exact hi.memory x hold

/-- **A step of a thread** that takes a slot `y` which no CPU has from one stage to the next. -/
theorem Inv.special (hi : Inv s) {y : Slot} (hpos : (s.cpu c).pos = .switched p) (hcpu : t.cpu = s.cpu)
    (hlock : ∀ c', c' ≠ c → (t.lock = some c' ↔ s.lock = some c'))
    (hlk : t.lock = some c ↔ (t.pc p).Locked) (hself : t.st p = .RUNNING) (hexp : (t.pc p).expect = .RUNNING)
    (hrest : ∀ x, x ≠ p → x ≠ y → t.st x = s.st x ∧ t.pc x = s.pc x ∧ t.kstack x = s.kstack x ∧ t.pgdir x = s.pgdir x)
    (hmemp : t.kstack p = s.kstack p ∧ t.pgdir p = s.pgdir p)
    (hyd : ¬ (s.st y).Live) (hyc : ∀ c', (s.cpu c').proc ≠ some y)
    (hforks : ∀ q, q ≠ p → (s.st q).Live → (s.pc q).cont.slot ≠ some y)
    (hreaps : ∀ q, q ≠ p → (s.st q).Live → (s.pc q).reaps ≠ some y)
    (hty : t.st y = .EMBRYO ∨ t.st y = .UNUSED ∨
      t.st y = .RUNNABLE ∧ t.pc y = .rel .user ∧ t.kstack y = true ∧ t.pgdir y = true)
    (hcont : (t.pc p).cont = .user ∨ (t.pc p).cont.slot = some y ∧ t.st y = .EMBRYO)
    (hstacked : (t.pc p).cont = .stacked y ∨ (t.pc p).cont = .copied y → t.kstack y = true ∧ t.pc y = .rel .user)
    (hmapped : (t.pc p).cont = .copied y → t.pgdir y = true)
    (hreap : (t.pc p).reaps = none) : Inv t := by
  obtain ⟨hp, hcr, hl, hs⟩ := hi.switched hpos
  have hyp : y ≠ p := fun h => hyc c (h ▸ hp)
  have hne : ∀ c' x, c' ≠ c → (s.cpu c').proc = some x → x ≠ p := fun c' x hc hx h =>
    hc (hi.apart c' c p (h ▸ hx) hp)
  have hney : ∀ c' x, (s.cpu c').proc = some x → x ≠ y := fun c' x hx h => hyc c' (h ▸ hx)
  -- a live thread other than `p`'s and `y`'s is as before, and `y`'s has nothing in its hands
  have hlive : ∀ q, q ≠ p → (t.st q).Live → q = y ∧ t.pc q = .rel .user ∨
      q ≠ y ∧ (s.st q).Live ∧ t.pc q = s.pc q := by
    intro q hqp hq
    by_cases hqy : q = y
    · subst hqy
      rcases hty with h | h | ⟨-, h, -⟩
      · rw [h] at hq; simp at hq
      · rw [h] at hq; simp at hq
      · exact Or.inl ⟨rfl, h⟩
    · obtain ⟨h1, h2, -⟩ := hrest q hqp hqy
      exact Or.inr ⟨hqy, h1 ▸ hq, h2⟩
  have hemb : ∀ x, x ≠ y → s.st x = .EMBRYO → x ≠ p ∧ t.st x = .EMBRYO := by
    intro x hxy hx
    have hxp : x ≠ p := fun h => hi.not_current (Or.inl hx) c (h ▸ hp)
    exact ⟨hxp, by rw [(hrest x hxp hxy).1, hx]⟩
  -- who has a slot in its hands
  have hslot : ∀ q np, (t.st q).Live → (t.pc q).cont.slot = some np →
      q = p ∧ np = y ∨ q ≠ p ∧ np ≠ y ∧ (s.st q).Live ∧ t.pc q = s.pc q := by
    intro q np hq hn
    by_cases hqp : q = p
    · subst hqp
      rcases hcont with h | ⟨h, -⟩
      · rw [h] at hn; cases hn
      · rw [h] at hn
        exact Or.inl ⟨rfl, (Option.some.inj hn).symm⟩
    · rcases hlive q hqp hq with ⟨-, h⟩ | ⟨hqy, h1, h2⟩
      · rw [h] at hn; cases hn
      · exact Or.inr ⟨hqp, fun h => hforks q hqp h1 (by rw [← h2, hn, h]), h1, h2⟩
  constructor
  · intro c'
    by_cases hc : c' = c
    · subst hc
      unfold CpuOk
      rw [hcpu, hpos]
      exact ⟨hp, hcr, hlk, by rw [hself, hexp]⟩
    · refine (hi.cpu c').frame (by rw [hcpu]) (hlock c' hc) fun x hx => ?_
      obtain ⟨h1, h2, -⟩ := hrest x (hne c' x hc hx) (hney c' x hx)
      exact ⟨h1, h2⟩
  · rw [hcpu]; exact hi.apart
  · intro x hx
    rw [hcpu]
    by_cases hxp : x = p
    · exact ⟨c, hxp ▸ hp⟩
    · have hxy : x ≠ y := by
        rintro rfl
        rcases hty with h | h | ⟨h, -⟩ <;> rw [h] at hx <;> cases hx
      exact hi.running x ((hrest x hxp hxy).1 ▸ hx)
  · intro x hx hno
    rw [hcpu] at hno
    have hxp : x ≠ p := fun h => hno c (h ▸ hpos)
    rcases hlive x hxp hx with ⟨-, h⟩ | ⟨-, h1, h2⟩
    · rw [h]; exact Or.inl ⟨.user, rfl⟩
    · rw [h2]; exact hi.parked x h1 hno
  · intro q np hq hn
    rcases hslot q np hq hn with ⟨rfl, rfl⟩ | ⟨-, hny, h1, h2⟩
    · rcases hcont with h | ⟨-, h⟩
      · rw [h] at hn; cases hn
      · exact h
    · exact (hemb np hny (hi.forks q np h1 (h2 ▸ hn))).2
  · intro q q' np hq hq' hn hn'
    rcases hslot q np hq hn with ⟨rfl, rfl⟩ | ⟨hqp, hny, h1, h2⟩
    · rcases hslot q' np hq' hn' with ⟨rfl, -⟩ | ⟨-, hny, -⟩
      · rfl
      · exact absurd rfl hny
    · rcases hslot q' np hq' hn' with ⟨-, rfl⟩ | ⟨-, -, h3, h4⟩
      · exact absurd rfl hny
      · exact hi.forksInj q q' np h1 h3 (h2 ▸ hn) (h4 ▸ hn')
  · intro q np hq hn
    have hns : (t.pc q).cont.slot = some np := by rcases hn with h | h <;> rw [h] <;> rfl
    rcases hslot q np hq hns with ⟨rfl, rfl⟩ | ⟨-, hny, h1, h2⟩
    · exact hstacked hn
    · have he := hi.forks q np h1 (h2 ▸ hns)
      obtain ⟨-, h5, h6, -⟩ := hrest np (hemb np hny he).1 hny
      rw [h5, h6]
      exact hi.stacked q np h1 (h2 ▸ hn)
  · intro q np hq hn
    have hns : (t.pc q).cont.slot = some np := by rw [hn]; rfl
    rcases hslot q np hq hns with ⟨rfl, rfl⟩ | ⟨-, hny, h1, h2⟩
    · exact hmapped hn
    · have he := hi.forks q np h1 (h2 ▸ hns)
      rw [(hrest np (hemb np hny he).1 hny).2.2.2]
      exact hi.mapped q np h1 (h2 ▸ hn)
  · intro q x hq hx
    have hqp : q ≠ p := fun h => by rw [h, hreap] at hx; cases hx
    rcases hlive q hqp hq with ⟨-, h⟩ | ⟨-, h1, h2⟩
    · rw [h] at hx; cases hx
    · rw [h2] at hx
      have hxy : x ≠ y := fun h => hreaps q hqp h1 (h ▸ hx)
      have hz := hi.reaps q x h1 hx
      obtain ⟨d, hd, -⟩ := hi.reaper h1 hx
      have hxp : x ≠ p := fun h => (hi.reap_alone hd hx).2.2 c (h ▸ hp)
      rw [(hrest x hxp hxy).1, hz]
  · intro x hx
    rw [hcpu] at hx
    by_cases hxp : x = p
    · subst hxp
      rw [hmemp.1, hmemp.2]
      exact hi.memory x (Or.inr ⟨c, hp⟩)
    · by_cases hxy : x = y
      · subst hxy
        rcases hx with h | ⟨c', h⟩
        · rcases hty with h' | h' | ⟨-, -, h1, h2⟩
          · rw [h'] at h; simp at h
          · rw [h'] at h; simp at h
          · exact ⟨h1, h2⟩
        · exact absurd h (hyc c')
      · obtain ⟨h1, -, h3, h4⟩ := hrest x hxp hxy
        rw [h3, h4]
        exact hi.memory x (hx.imp_left fun h => h1 ▸ h)

/-- **A step of a CPU's scheduler**, or of a thread that leaves its CPU: apart from this CPU, the position of the thread
that leaves and the state of the process that is taken, nothing but sleepers changes. -/
theorem Inv.scheduler (hi : Inv s) (hcpu : ∀ c', c' ≠ c → t.cpu c' = s.cpu c')
    (hlock : ∀ c', c' ≠ c → (t.lock = some c' ↔ s.lock = some c')) (hok : CpuOk t c)
    (hpc : ∀ x, t.pc x = s.pc x ∨ (s.cpu c).pos = .switched x ∧ ((t.pc x).Parked ∧
      (t.pc x).cont = (s.pc x).cont ∨ ¬ (s.st x).Live))
    (hswitched : ∀ x, (s.cpu c).pos = .switched x → (t.pc x).Parked ∨ ¬ (s.st x).Live)
    (hst : ∀ x, t.st x = s.st x ∨ s.lock = some c ∧ (s.st x = .SLEEPING ∧ t.st x = .RUNNABLE ∨
      s.st x = .RUNNABLE ∧ t.st x = .RUNNING ∧ (t.cpu c).proc = some x))
    (hmem : t.kstack = s.kstack ∧ t.pgdir = s.pgdir)
    (hproc : (t.cpu c).proc = (s.cpu c).proc ∨ (t.cpu c).proc = none ∧
        (∀ x, (s.cpu c).proc = some x → t.st x ≠ .RUNNING) ∨
      ∃ x, (t.cpu c).proc = some x ∧ s.st x = .RUNNABLE ∧ s.lock = some c ∧ (s.cpu c).proc = none) : Inv t := by
  have hlive : ∀ x, (t.st x).Live ↔ (s.st x).Live := by
    intro x
    rcases hst x with h | ⟨-, ⟨h, h'⟩ | ⟨h, h', -⟩⟩
    · rw [h]
    · rw [h, h']; simp
    · rw [h, h']; simp
  have hsame : ∀ x y, ¬ y.Live → (t.st x = y ↔ s.st x = y) := by
    intro x y hy
    rcases hst x with h | ⟨-, ⟨h, h'⟩ | ⟨h, h', -⟩⟩
    · rw [h]
    · rw [h, h']; exact iff_of_false (fun e => hy (e ▸ by simp)) fun e => hy (e ▸ by simp)
    · rw [h, h']; exact iff_of_false (fun e => hy (e ▸ by simp)) fun e => hy (e ▸ by simp)
  have hcont : ∀ x, (s.st x).Live → (t.pc x).cont = (s.pc x).cont ∧ ((t.pc x).reaps = none ∨ t.pc x = s.pc x) := by
    intro x hx
    rcases hpc x with h | ⟨-, ⟨h, h'⟩ | h⟩
    · exact ⟨by rw [h], Or.inr h⟩
    · exact ⟨h', Or.inl h.reaps⟩
    · exact absurd hx h
  -- a process that another CPU has is not taken by this one
  have hother : ∀ c' x, c' ≠ c → (s.cpu c').proc = some x → (t.cpu c).proc ≠ some x := by
    intro c' x hc hx ht
    rcases hproc with h | ⟨h, -⟩ | ⟨y, h, hy, hl, -⟩
    · exact hc (hi.apart c' c x hx (h ▸ ht))
    · rw [h] at ht; cases ht
    · rw [h] at ht
      cases ht
      have := (hi.unlocked hx fun e => hc (Option.some.inj (e.symm.trans hl))).2
      rw [hy] at this
      cases this
  constructor
  · intro c'
    by_cases hc : c' = c
    · subst hc; exact hok
    · refine (hi.cpu c').frame (hcpu c' hc) (hlock c' hc) fun x hx => ⟨?_, ?_⟩
      · rcases hst x with h | ⟨hl, h⟩
        · exact h
        · have := (hi.unlocked hx fun e => hc (Option.some.inj (e.symm.trans hl))).2
          rcases h with ⟨h, -⟩ | ⟨h, -⟩ <;> rw [h] at this <;> cases this
      · rcases hpc x with h | ⟨h, -⟩
        · exact h
        · exact absurd (hi.apart c' c x hx (hi.switched h).1) hc
  · intro c₁ c₂ x h1 h2
    by_cases e1 : c₁ = c
    · subst e1
      by_cases e2 : c₂ = c₁
      · exact e2.symm
      · rw [hcpu c₂ e2] at h2
        exact absurd h1 (hother c₂ x e2 h2)
    · rw [hcpu c₁ e1] at h1
      by_cases e2 : c₂ = c
      · subst e2
        exact absurd h2 (hother c₁ x e1 h1)
      · rw [hcpu c₂ e2] at h2
        exact hi.apart c₁ c₂ x h1 h2
  · intro x hx
    rcases hst x with h | ⟨-, ⟨-, h⟩ | ⟨-, -, h⟩⟩
    · obtain ⟨c', hc'⟩ := hi.running x (h ▸ hx)
      by_cases hc : c' = c
      · subst hc
        rcases hproc with h | ⟨-, h⟩ | ⟨y, -, -, -, h⟩
        · exact ⟨c', h.trans hc'⟩
        · exact absurd hx (h x hc')
        · rw [h] at hc'; cases hc'
      · exact ⟨c', by rw [hcpu c' hc]; exact hc'⟩
    · rw [h] at hx; cases hx
    · exact ⟨c, h⟩
  · intro x hx hno
    have hxs := (hlive x).1 hx
    by_cases hxc : (s.cpu c).pos = .switched x
    · rcases hswitched x hxc with h | h
      · exact h
      · exact absurd hxs h
    · rcases hpc x with h | ⟨h, -⟩
      · rw [h]
        refine hi.parked x hxs fun c' => ?_
        by_cases hc : c' = c
        · exact hc ▸ hxc
        · rw [← hcpu c' hc]; exact hno c'
      · exact absurd h hxc
  · intro q np hq hn
    have hqs := (hlive q).1 hq
    rw [hsame np _ (by decide)]
    exact hi.forks q np hqs ((hcont q hqs).1 ▸ hn)
  · intro q q' np hq hq' hn hn'
    have hqs := (hlive q).1 hq
    have hqs' := (hlive q').1 hq'
    exact hi.forksInj q q' np hqs hqs' ((hcont q hqs).1 ▸ hn) ((hcont q' hqs').1 ▸ hn')
  · intro q np hq hn
    have hqs := (hlive q).1 hq
    rw [(hcont q hqs).1] at hn
    obtain ⟨h1, h2⟩ := hi.stacked q np hqs hn
    rw [hmem.1]
    refine ⟨h1, ?_⟩
    have he := hi.forks q np hqs (by rcases hn with h | h <;> rw [h] <;> rfl)
    rcases hpc np with h | ⟨h, -⟩
    · rw [h, h2]
    · exact absurd (hi.switched h).1 (hi.not_current (Or.inl he) c)
  · intro q np hq hn
    have hqs := (hlive q).1 hq
    rw [hmem.2]
    exact hi.mapped q np hqs ((hcont q hqs).1 ▸ hn)
  · intro q x hq hx
    have hqs := (hlive q).1 hq
    rw [hsame x _ (by decide)]
    rcases (hcont q hqs).2 with h | h
    · rw [h] at hx; cases hx
    · exact hi.reaps q x hqs (h ▸ hx)
  · intro x hx
    rw [hmem.1, hmem.2]
    refine hi.memory x ?_
    rcases hx with h | ⟨c', h⟩
    · exact Or.inl ((hlive x).1 h)
    · by_cases hc : c' = c
      · subst hc
        rcases hproc with e | ⟨e, -⟩ | ⟨y, e, hy, -⟩
        · exact Or.inr ⟨c', e ▸ h⟩
        · rw [e] at h; cases h
        · rw [e] at h
          cases h
          exact Or.inl (by rw [hy]; simp)
      · exact Or.inr ⟨c', by rw [← hcpu c' hc]; exact h⟩

end

end NewXv6.Ptable.Sched
