import Mathlib.Data.List.Nodup
import NewXv6.Spin.Model

/-!
# Spin locks exclude each other

What each CPU keeps about itself is `CpuOk`: `ncli` counts the locks that its code holds or is about to release and the
calls of `pushcli`, interrupts are off while it is not 0, and `intena` is what they were before. What holds between the CPUs
is `LocksOk`: `locked` and `cpu` of a lock tell who has it. Every step keeps both (`Inv.step`).
-/

namespace NewXv6.Spin

variable {C K P : Type}

/-! ## The invariant -/

/-- One call of `pushcli` for the lock that `acquire` or `release` is about, or for the running `popcli`. -/
def Pc.extra : Pc K → Nat
  | .acqLocked _ | .acqCpu _ | .xchg _ | .setCpu _ | .relLocked _ | .relCpu _ | .clearCpu _ | .unlock _ | .popFlags
  | .popCount => 1
  | _ => 0

/-- The lock that `acquire` or `release` is about. -/
def Pc.lock? : Pc K → Option K
  | .acqLocked lk | .acqCpu lk | .xchg lk | .setCpu lk | .relLocked lk | .relCpu lk | .clearCpu lk | .unlock lk => some lk
  | .readFlags lk | .cli lk _ | .count lk _ => lk
  | _ => none

/-- The lock in `release` whose `cpu` is still set. -/
def Pc.owns? : Pc K → Option K
  | .relLocked lk | .relCpu lk | .clearCpu lk => some lk
  | _ => none

/-- The lock whose `locked` is set and whose `cpu` is not. -/
def Pc.locks? : Pc K → Option K
  | .setCpu lk | .unlock lk => some lk
  | _ => none

/-- Interrupts are still as they were before `pushcli`, or again. -/
def Pc.Open : Pc K → Prop
  | .out | .readFlags _ | .cli _ _ => True
  | _ => False

namespace Frame

variable (f : Frame K)

/-- The calls of `pushcli` that count. -/
def depth : Nat := f.pushed + f.held.length + f.pc.extra

/-- The CPU is in `cpu` of the lock. -/
def Owns (lk : K) : Prop := lk ∈ f.held ∨ f.pc.owns? = some lk

/-- The lock is locked for the CPU. -/
def Locks (lk : K) : Prop := f.Owns lk ∨ f.pc.locks? = some lk

/-- A frame that was interrupted. -/
structure Interrupted : Prop where
  pc : f.pc = .out ∨ (∃ lk, f.pc = .readFlags lk) ∨ ∃ lk, f.pc = .cli lk true
  pushed : f.pushed = 0
  held : f.held = []
  enabled : f.enabled = true

end Frame

/-- What a CPU keeps. -/
structure CpuOk (u : Cpu K) : Prop where
  ncli : u.ncli = u.frame.depth
  nodup : u.frame.held.Nodup
  apart : ∀ lk, u.frame.pc.lock? = some lk → lk ∉ u.frame.held
  calm : u.frame.pc ≠ .panic
  eflags : u.eflags = true ↔ u.frame.depth = 0 ∧ u.frame.pc.Open ∧ u.frame.enabled = true
  intena : 0 < u.frame.depth ∨ u.frame.pc = .popSti → u.intena = u.frame.enabled
  flags : ∀ lk fl, u.frame.pc = .cli lk fl ∨ u.frame.pc = .count lk fl → u.frame.depth = 0 → fl = u.frame.enabled
  below : ∀ g ∈ u.below, g.Interrupted

/-- What holds between CPUs. -/
structure LocksOk (s : State C K P) : Prop where
  owner : ∀ lk c, s.owner lk = some c ↔ (s.cpu c).frame.Owns lk
  locked : ∀ lk, s.locked lk = true ↔ ∃ c, (s.cpu c).frame.Locks lk
  only : ∀ lk c d, (s.cpu c).frame.Locks lk → (s.cpu d).frame.Locks lk → c = d

/-- A thread that no CPU executes is in `sched`, or before its first step. -/
structure ThreadOk (ptable : K) (t : Thread K) : Prop where
  switches : t.frame.Switches ptable
  intena : ∀ b, t.intena = some b → t.frame.enabled = b
  below : ∀ g ∈ t.below, g.Interrupted

structure Inv (ptable : K) (s : State C K P) : Prop where
  cpu : ∀ c, CpuOk (s.cpu c)
  locks : LocksOk s
  scheduler : ∀ c t, s.scheduler c = some t → ThreadOk ptable t
  thread : ∀ p t, s.thread p = some t → ThreadOk ptable t

/-! ## Frames -/

variable {f g : Frame K} {lk : K} {u : Cpu K}

/-- Frames that have the same locks. -/
def Frame.Same (f g : Frame K) : Prop := ∀ lk, (f.Owns lk ↔ g.Owns lk) ∧ (f.Locks lk ↔ g.Locks lk)

theorem Frame.Same.of (ho : ∀ lk, f.Owns lk ↔ g.Owns lk) (hl : f.pc.locks? = g.pc.locks?) : f.Same g := fun lk =>
  ⟨ho lk, or_congr (ho lk) (by rw [hl])⟩

theorem Frame.Free.depth (h : f.Free) : f.depth = 0 := by
  obtain ⟨h1, h2, h3⟩ := h
  unfold Frame.depth
  rw [h1, h2, h3]
  rfl

theorem Frame.Switches.depth {ptable : K} (h : f.Switches ptable) : f.depth = 1 := by
  obtain ⟨h1, h2, h3⟩ := h
  unfold Frame.depth
  rw [h1, h2, h3]
  rfl

/-- Interrupts are on only where nothing is locked. -/
theorem CpuOk.open (h : CpuOk u) (he : u.eflags = true) : u.frame.Interrupted := by
  obtain ⟨hd, ho, hn⟩ := h.eflags.1 he
  have hp : u.frame.pushed = 0 := by unfold Frame.depth at hd; omega
  have hl : u.frame.held = [] := List.length_eq_zero_iff.1 (by unfold Frame.depth at hd; omega)
  refine ⟨?_, hp, hl, hn⟩
  have hf := h.flags
  cases hpc : u.frame.pc <;> rw [hpc] at ho hf
  all_goals first
    | exact ho.elim
    | skip
  · exact .inl rfl
  · exact .inr (.inl ⟨_, rfl⟩)
  · exact .inr (.inr ⟨_, by rw [hf _ _ (.inl rfl) hd, hn]⟩)

theorem Frame.Interrupted.depth (h : f.Interrupted) : f.depth = 0 := by
  unfold Frame.depth
  rw [h.pushed, h.held]
  obtain h | ⟨lk, h⟩ | ⟨lk, h⟩ := h.pc <;> rw [h] <;> rfl

theorem Frame.Interrupted.not_locks (h : f.Interrupted) : ¬ f.Locks lk := by
  unfold Frame.Locks Frame.Owns
  rw [h.held]
  obtain h | ⟨lk, h⟩ | ⟨lk, h⟩ := h.pc <;> rw [h] <;> simp [Pc.owns?, Pc.locks?]

theorem Frame.same_of_none (hf : ∀ lk, ¬ f.Locks lk) (hg : ∀ lk, ¬ g.Locks lk) : f.Same g := fun lk =>
  ⟨iff_of_false (fun h => hf lk (.inl h)) fun h => hg lk (.inl h), iff_of_false (hf lk) (hg lk)⟩

/-! ## What a CPU keeps -/

section

attribute [local grind =] Frame.depth Pc.extra Pc.lock? Pc.Open

variable {n : Int} {i e fl en : Bool} {p : Nat} {pc pc' : Pc K} {hs : List K} {b : List (Frame K)} {olk : Option K}

/-- A statement that neither counts nor switches interrupts. -/
theorem CpuOk.goto (h : CpuOk ⟨n, i, e, ⟨pc, p, hs, en⟩, b⟩) (hx : pc.extra = 1) (hx' : pc'.extra = 1)
    (hl : ∀ lk, pc'.lock? = some lk → pc.lock? = some lk) : CpuOk ⟨n, i, e, ⟨pc', p, hs, en⟩, b⟩ := by
  obtain ⟨hn, hnodup, hapart, -, he, hi, -, hb⟩ := h
  have ho : ∀ {q : Pc K}, q.extra = 1 → ¬ q.Open ∧ q ≠ .panic ∧ q ≠ .popSti := by
    intro q hq
    cases q <;> simp_all [Pc.extra, Pc.Open]
  constructor <;> grind

theorem CpuOk.readFlags (h : CpuOk ⟨n, i, e, ⟨.readFlags olk, p, hs, en⟩, b⟩) :
    CpuOk ⟨n, i, e, ⟨.cli olk e, p, hs, en⟩, b⟩ := by
  obtain ⟨hn, hnodup, hapart, -, he, hi, -, hb⟩ := h
  constructor <;> grind

theorem CpuOk.cli (h : CpuOk ⟨n, i, e, ⟨.cli olk fl, p, hs, en⟩, b⟩) :
    CpuOk ⟨n, i, false, ⟨.count olk fl, p, hs, en⟩, b⟩ := by
  obtain ⟨hn, hnodup, hapart, -, he, hi, hf, hb⟩ := h
  constructor <;> grind

/-- `pushcli` returns. -/
theorem CpuOk.pushed (h : CpuOk ⟨n, i, e, ⟨.count none fl, p, hs, en⟩, b⟩) :
    CpuOk ⟨n + 1, if n = 0 then fl else i, e, ⟨.out, p + 1, hs, en⟩, b⟩ := by
  obtain ⟨hn, hnodup, hapart, -, he, hi, hf, hb⟩ := h
  constructor <;> grind

/-- `pushcli` returns to `acquire`. -/
theorem CpuOk.counted (h : CpuOk ⟨n, i, e, ⟨.count (some lk) fl, p, hs, en⟩, b⟩) :
    CpuOk ⟨n + 1, if n = 0 then fl else i, e, ⟨.acqLocked lk, p, hs, en⟩, b⟩ := by
  obtain ⟨hn, hnodup, hapart, -, he, hi, hf, hb⟩ := h
  constructor <;> grind

/-- `acquire` returns. -/
theorem CpuOk.acquired (h : CpuOk ⟨n, i, e, ⟨.setCpu lk, p, hs, en⟩, b⟩) :
    CpuOk ⟨n, i, e, ⟨.out, p, lk :: hs, en⟩, b⟩ := by
  obtain ⟨hn, hnodup, hapart, -, he, hi, hf, hb⟩ := h
  constructor <;> grind

theorem CpuOk.popCount (h : CpuOk ⟨n, i, e, ⟨.popCount, p, hs, en⟩, b⟩) :
    0 ≤ n - 1 ∧ CpuOk ⟨n - 1, i, e, ⟨.popSti, p, hs, en⟩, b⟩ := by
  obtain ⟨hn, hnodup, hapart, -, he, hi, hf, hb⟩ := h
  refine ⟨by grind, ?_⟩
  constructor <;> grind

/-- `popcli` returns. -/
theorem CpuOk.popSti (h : CpuOk ⟨n, i, e, ⟨.popSti, p, hs, en⟩, b⟩) :
    CpuOk ⟨n, i, e || (decide (n = 0) && i), ⟨.out, p, hs, en⟩, b⟩ := by
  obtain ⟨hn, hnodup, hapart, -, he, hi, hf, hb⟩ := h
  constructor <;> grind

/-! ## Calls -/

theorem CpuOk.callPush (h : CpuOk ⟨n, i, e, ⟨.out, p, hs, en⟩, b⟩) (hl : ∀ lk, olk = some lk → lk ∉ hs) :
    CpuOk ⟨n, i, e, ⟨.readFlags olk, p, hs, en⟩, b⟩ := by
  obtain ⟨hn, hnodup, hapart, -, he, hi, hf, hb⟩ := h
  constructor <;> grind

theorem CpuOk.callPop (h : CpuOk ⟨n, i, e, ⟨.out, p, hs, en⟩, b⟩) (hp : 0 < p) :
    CpuOk ⟨n, i, e, ⟨.popFlags, p - 1, hs, en⟩, b⟩ := by
  obtain ⟨hn, hnodup, hapart, -, he, hi, hf, hb⟩ := h
  constructor <;> grind

theorem CpuOk.callRelease [DecidableEq K] (h : CpuOk ⟨n, i, e, ⟨.out, p, hs, en⟩, b⟩) (hl : lk ∈ hs) :
    CpuOk ⟨n, i, e, ⟨.relLocked lk, p, hs.erase lk, en⟩, b⟩ := by
  obtain ⟨hn, hnodup, hapart, -, he, hi, hf, hb⟩ := h
  have hlen := List.length_erase_of_mem hl
  have hpos := List.length_pos_of_mem hl
  have hnot := hnodup.not_mem_erase (a := lk)
  have hnodup' := hnodup.erase lk
  constructor <;> grind

theorem CpuOk.sti (h : CpuOk ⟨n, i, e, f, b⟩) (hf : f.Free) : CpuOk ⟨n, i, true, { f with enabled := true }, b⟩ := by
  have hd := hf.depth
  obtain ⟨hn, hnodup, hapart, hc, he, hi, -, hb⟩ := h
  obtain ⟨hpc, hp, hh⟩ := hf
  constructor <;> grind

theorem CpuOk.interrupt (h : CpuOk u) (he : u.eflags = true) :
    CpuOk ⟨u.ncli, u.intena, false, ⟨.out, 0, [], false⟩, u.frame :: u.below⟩ := by
  have hd := (h.open he).depth
  have hb : ∀ g ∈ u.frame :: u.below, g.Interrupted := List.forall_mem_cons.2 ⟨h.open he, h.below⟩
  have hn := h.ncli
  constructor <;> grind

theorem CpuOk.iret (h : CpuOk ⟨n, i, e, f, g :: b⟩) (hf : f.Free) : CpuOk ⟨n, i, true, g, b⟩ := by
  have hn := h.ncli
  have hg := h.below g List.mem_cons_self
  have hb : ∀ g ∈ b, g.Interrupted := fun g hg => h.below g (List.mem_cons_of_mem _ hg)
  have hd := hf.depth
  have hd' := hg.depth
  obtain ⟨hpc, hp, hh, he⟩ := hg
  constructor <;> grind

theorem CpuOk.load {ptable : K} {t : Thread K} (h : CpuOk u) (hf : u.frame.Switches ptable) (ht : ThreadOk ptable t) :
    CpuOk (u.load t) := by
  have hn := h.ncli
  have hd := hf.depth
  have hd' := ht.switches.depth
  have he := h.eflags
  obtain ⟨hpc, hp, hh⟩ := ht.switches
  have hi := ht.intena
  have hb := ht.below
  unfold Cpu.load
  cases hti : t.intena <;> constructor <;> grind

end

/-! ## What holds between CPUs -/

variable [DecidableEq C] {s t : State C K P} {c : C}

/-- A step of `c` that leaves the locks alone. -/
theorem LocksOk.same (h : LocksOk s) (hcpu : t.cpu = Function.update s.cpu c u) (ho : t.owner = s.owner)
    (hl : t.locked = s.locked) (hs : u.frame.Same (s.cpu c).frame) : LocksOk t := by
  have hsame : ∀ d, (t.cpu d).frame.Same (s.cpu d).frame := by
    intro d
    rw [hcpu]
    by_cases hd : d = c
    · subst hd
      rwa [Function.update_self]
    · rw [Function.update_of_ne hd]
      exact fun _ => ⟨Iff.rfl, Iff.rfl⟩
  refine ⟨fun lk d => ?_, fun lk => ?_, fun lk d d' hd hd' => ?_⟩
  · rw [ho, h.owner, (hsame d lk).1]
  · rw [hl, h.locked]
    exact exists_congr fun d => (hsame d lk).2.symm
  · exact h.only lk d d' ((hsame d lk).2.1 hd) ((hsame d' lk).2.1 hd')

/-- A step of `c` about a lock that no other CPU has. -/
theorem LocksOk.change (h : LocksOk s) (lk : K) (hcpu : t.cpu = Function.update s.cpu c u)
    (hother : ∀ d, d ≠ c → ¬ (s.cpu d).frame.Locks lk)
    (hs : ∀ k, k ≠ lk → (u.frame.Owns k ↔ (s.cpu c).frame.Owns k) ∧ (u.frame.Locks k ↔ (s.cpu c).frame.Locks k))
    (ho : ∀ k, k ≠ lk → t.owner k = s.owner k) (hl : ∀ k, k ≠ lk → t.locked k = s.locked k)
    (howner : ∀ d, t.owner lk = some d ↔ d = c ∧ u.frame.Owns lk) (hlocked : t.locked lk = true ↔ u.frame.Locks lk) :
    LocksOk t := by
  have hself : t.cpu c = u := by rw [hcpu, Function.update_self]
  have hne : ∀ d, d ≠ c → t.cpu d = s.cpu d := fun d hd => by rw [hcpu, Function.update_of_ne hd]
  -- apart from `lk` nothing changes
  have hsame : ∀ k, k ≠ lk → ∀ d, ((t.cpu d).frame.Owns k ↔ (s.cpu d).frame.Owns k) ∧
      ((t.cpu d).frame.Locks k ↔ (s.cpu d).frame.Locks k) := by
    intro k hk d
    by_cases hd : d = c
    · subst hd
      rw [hself]
      exact hs k hk
    · rw [hne d hd]
      exact ⟨Iff.rfl, Iff.rfl⟩
  have honly : ∀ d, (t.cpu d).frame.Locks lk → d = c := by
    intro d hd
    by_contra hne'
    rw [hne d hne'] at hd
    exact hother d hne' hd
  refine ⟨fun k d => ?_, fun k => ?_, fun k d d' hd hd' => ?_⟩
  · by_cases hk : k = lk
    · subst hk
      rw [howner]
      refine ⟨fun hd => ?_, fun hd => ?_⟩
      · rw [hd.1, hself]
        exact hd.2
      · have he := honly d (.inl hd)
        rw [he, hself] at hd
        exact ⟨he, hd⟩
    · rw [ho k hk, h.owner, (hsame k hk d).1]
  · by_cases hk : k = lk
    · subst hk
      rw [hlocked]
      refine ⟨fun hu => ⟨c, by rwa [hself]⟩, fun hd => ?_⟩
      obtain ⟨d, hd⟩ := hd
      rwa [honly d hd, hself] at hd
    · rw [hl k hk, h.locked]
      exact exists_congr fun d => (hsame k hk d).2.symm
  · by_cases hk : k = lk
    · subst hk
      rw [honly d hd, honly d' hd']
    · exact h.only k d d' ((hsame k hk d).2.1 hd) ((hsame k hk d').2.1 hd')

omit [DecidableEq C] in
/-- What `c` has no other CPU has. -/
theorem LocksOk.other (h : LocksOk s) (hc : (s.cpu c).frame.Locks lk) : ∀ d, d ≠ c → ¬ (s.cpu d).frame.Locks lk :=
  fun _ hd hl => hd (h.only lk _ _ hl hc)

/-! ## Steps -/

theorem Inv.of {ptable : K} (hi : Inv ptable s) (hcpu : t.cpu = Function.update s.cpu c u) (hu : CpuOk u) (hl : LocksOk t)
    (hs : t.scheduler = s.scheduler) (ht : t.thread = s.thread) : Inv ptable t := by
  refine ⟨fun d => ?_, hl, ?_, ?_⟩
  · rw [hcpu]
    by_cases hd : d = c
    · subst hd
      rwa [Function.update_self]
    · rw [Function.update_of_ne hd]
      exact hi.cpu d
  · rw [hs]
    exact hi.scheduler
  · rw [ht]
    exact hi.thread

/-- A statement that leaves the locks alone. -/
theorem Inv.quiet {ptable : K} (hi : Inv ptable s) (hu : CpuOk u) (hs : u.frame.Same (s.cpu c).frame) :
    Inv ptable (s.setCpu c u) :=
  hi.of rfl hu (hi.locks.same rfl rfl rfl hs) rfl rfl

variable [DecidableEq K]

/-- **Every statement of `spinlock.c` keeps the invariant.** -/
theorem Inv.next {ptable : K} (hi : Inv ptable s) (h : next s c = some t) : Inv ptable t := by
  have hc := hi.cpu c
  rcases hu : s.cpu c with ⟨n, i, e, ⟨pc, p, hs, en⟩, b⟩
  rw [hu] at hc
  simp only [Spin.next, hu, State.goto] at h
  cases pc with
  | out | panic => cases h
  | readFlags lk =>
    cases h
    exact hi.quiet hc.readFlags (by rw [hu]; exact fun _ => ⟨Iff.rfl, Iff.rfl⟩)
  | cli lk fl =>
    cases h
    exact hi.quiet hc.cli (by rw [hu]; exact fun _ => ⟨Iff.rfl, Iff.rfl⟩)
  | count lk fl =>
    cases h
    cases lk with
    | none => exact hi.quiet hc.pushed (by rw [hu]; exact fun _ => ⟨Iff.rfl, Iff.rfl⟩)
    | some lk => exact hi.quiet hc.counted (by rw [hu]; exact fun _ => ⟨Iff.rfl, Iff.rfl⟩)
  | acqLocked lk =>
    cases h
    split
    · exact hi.quiet (hc.goto rfl rfl fun _ h => h) (by rw [hu]; exact fun _ => ⟨Iff.rfl, Iff.rfl⟩)
    · exact hi.quiet (hc.goto rfl rfl fun _ h => h) (by rw [hu]; exact fun _ => ⟨Iff.rfl, Iff.rfl⟩)
  | acqCpu lk =>
    cases h
    have hne : s.owner lk ≠ some c := by
      rw [ne_eq, hi.locks.owner, hu]
      rintro (h | h)
      · exact hc.apart lk rfl h
      · cases h
    rw [if_neg hne]
    exact hi.quiet (hc.goto rfl rfl fun _ h => h) (by rw [hu]; exact fun _ => ⟨Iff.rfl, Iff.rfl⟩)
  | xchg lk =>
    cases h
    split
    · exact hi
    · next hfree =>
      have hnot : ∀ d, ¬ (s.cpu d).frame.Locks lk := fun d hd => hfree ((hi.locks.locked lk).2 ⟨d, hd⟩)
      have hc' : CpuOk ⟨n, i, e, ⟨.setCpu lk, p, hs, en⟩, b⟩ := hc.goto rfl rfl fun _ h => h
      refine hi.of rfl hc' (hi.locks.change lk rfl (fun d _ => hnot d) (fun k hk => ?_) (fun _ _ => rfl)
        (fun k hk => Function.update_of_ne hk _ _) (fun d => ?_) ?_) rfl rfl
      · rw [hu]
        exact ⟨Iff.rfl, or_congr Iff.rfl (by simp [Pc.locks?, hk.symm])⟩
      · refine iff_of_false (fun ho => hnot d (.inl ((hi.locks.owner lk d).1 ho))) fun ho => ?_
        exact ho.2.elim (hc.apart lk rfl) fun h => by cases h
      · exact iff_of_true (Function.update_self ..) (.inr rfl)
  | setCpu lk =>
    cases h
    have hlk : (s.cpu c).frame.Locks lk := by rw [hu]; exact .inr rfl
    refine hi.of rfl hc.acquired (hi.locks.change lk rfl (hi.locks.other hlk) (fun k hk => ?_)
      (fun k hk => Function.update_of_ne hk _ _) (fun _ _ => rfl) (fun d => ?_) ?_) rfl rfl
    · rw [hu]
      simp [Frame.Locks, Frame.Owns, Pc.owns?, Pc.locks?, hk, hk.symm]
    · have hself : Function.update s.owner lk (some c) lk = some c := Function.update_self ..
      exact ⟨fun h => ⟨Option.some.inj (h.symm.trans hself), .inl List.mem_cons_self⟩,
        fun h => hself.trans (congrArg some h.1.symm)⟩
    · exact iff_of_true ((hi.locks.locked lk).2 ⟨c, hlk⟩) (.inl (.inl List.mem_cons_self))
  | relLocked lk =>
    cases h
    have hl : s.locked lk = true := (hi.locks.locked lk).2 ⟨c, by rw [hu]; exact .inl (.inr rfl)⟩
    rw [if_pos hl]
    exact hi.quiet (hc.goto rfl rfl fun _ h => h) (by rw [hu]; exact fun _ => ⟨Iff.rfl, Iff.rfl⟩)
  | relCpu lk =>
    cases h
    have ho : s.owner lk = some c := (hi.locks.owner lk c).2 (by rw [hu]; exact .inr rfl)
    rw [if_pos ho]
    exact hi.quiet (hc.goto rfl rfl fun _ h => h) (by rw [hu]; exact fun _ => ⟨Iff.rfl, Iff.rfl⟩)
  | clearCpu lk =>
    cases h
    have hlk : (s.cpu c).frame.Locks lk := by rw [hu]; exact .inl (.inr rfl)
    have hc' : CpuOk ⟨n, i, e, ⟨.unlock lk, p, hs, en⟩, b⟩ := hc.goto rfl rfl fun _ h => h
    refine hi.of rfl hc' (hi.locks.change lk rfl (hi.locks.other hlk) (fun k hk => ?_)
      (fun k hk => Function.update_of_ne hk _ _) (fun _ _ => rfl) (fun d => ?_) ?_) rfl rfl
    · rw [hu]
      simp [Frame.Locks, Frame.Owns, Pc.owns?, Pc.locks?, hk.symm]
    · have hself : Function.update s.owner lk none lk = none := Function.update_self ..
      refine iff_of_false (fun h => by cases hself.symm.trans h) fun h => ?_
      exact h.2.elim (hc.apart lk rfl) fun h => by cases h
    · exact iff_of_true ((hi.locks.locked lk).2 ⟨c, hlk⟩) (.inr rfl)
  | unlock lk =>
    cases h
    have hlk : (s.cpu c).frame.Locks lk := by rw [hu]; exact .inr rfl
    have hc' : CpuOk ⟨n, i, e, ⟨.popFlags, p, hs, en⟩, b⟩ := hc.goto rfl rfl fun _ h => by cases h
    have hno : ¬ Frame.Owns (⟨.popFlags, p, hs, en⟩ : Frame K) lk := fun h =>
      h.elim (hc.apart lk rfl) fun h => by cases h
    refine hi.of rfl hc' (hi.locks.change lk rfl (hi.locks.other hlk) (fun k hk => ?_)
      (fun _ _ => rfl) (fun k hk => Function.update_of_ne hk _ _) (fun d => ?_) ?_) rfl rfl
    · rw [hu]
      simp [Frame.Locks, Frame.Owns, Pc.owns?, Pc.locks?, hk.symm]
    · refine iff_of_false (fun ho => ?_) fun h => hno h.2
      have hd := (hi.locks.owner lk d).1 ho
      rw [hi.locks.only lk d c (.inl hd) hlk, hu] at hd
      exact hno (hd.imp_right fun h => by cases h)
    · have hself : Function.update s.locked lk false lk = false := Function.update_self ..
      exact iff_of_false (fun h => by cases hself.symm.trans h) fun h => h.elim hno fun h => by cases h
  | popFlags =>
    cases h
    have he : e = false := by
      have := hc.eflags
      cases e
      · rfl
      · exact (this.1 rfl).2.1.elim
    subst he
    have hc' : CpuOk ⟨n, i, false, ⟨.popCount, p, hs, en⟩, b⟩ := hc.goto rfl rfl fun _ h => h
    exact hi.quiet hc' (by rw [hu]; exact fun _ => ⟨Iff.rfl, Iff.rfl⟩)
  | popCount =>
    cases h
    obtain ⟨hn, hc⟩ := hc.popCount
    rw [if_neg (by omega)]
    exact hi.quiet hc (by rw [hu]; exact fun _ => ⟨Iff.rfl, Iff.rfl⟩)
  | popSti =>
    cases h
    exact hi.quiet hc.popSti (by rw [hu]; exact fun _ => ⟨Iff.rfl, Iff.rfl⟩)

omit [DecidableEq K] in
/-- Frames at `sched` hold the same lock. -/
theorem Frame.Switches.same {ptable : K} (hf : f.Switches ptable) (hg : g.Switches ptable) : f.Same g := by
  obtain ⟨hf, -, hf'⟩ := hf
  obtain ⟨hg, -, hg'⟩ := hg
  refine .of (fun lk => ?_) (by rw [hf, hg])
  unfold Frame.Owns
  rw [hf, hg, hf', hg']

omit [DecidableEq K] in
theorem Frame.Free.not_locks (h : f.Free) : ¬ f.Locks lk := by
  unfold Frame.Locks Frame.Owns
  rw [h.1, h.2.2]
  simp [Pc.owns?, Pc.locks?]

omit [DecidableEq K] in
/-- A CPU goes on with another thread. -/
theorem Inv.swtch {ptable : K} {th : Thread K} (hi : Inv ptable s) (hf : (s.cpu c).frame.Switches ptable)
    (ht : ThreadOk ptable th) (hcpu : t.cpu = Function.update s.cpu c ((s.cpu c).load th)) (ho : t.owner = s.owner)
    (hl : t.locked = s.locked) (hs : ∀ d t', t.scheduler d = some t' → ThreadOk ptable t')
    (hth : ∀ p t', t.thread p = some t' → ThreadOk ptable t') : Inv ptable t := by
  have hlocks : LocksOk t := hi.locks.same hcpu ho hl (Frame.Switches.same ht.switches hf)
  refine ⟨fun d => ?_, hlocks, hs, hth⟩
  rw [hcpu]
  by_cases hd : d = c
  · subst hd
    rw [Function.update_self]
    exact (hi.cpu d).load hf ht
  · rw [Function.update_of_ne hd]
    exact hi.cpu d

omit [DecidableEq K] in
theorem update_ok {ι : Type} [DecidableEq ι] {ptable : K} {ts : ι → Option (Thread K)}
    (h : ∀ d t, ts d = some t → ThreadOk ptable t) (j : ι) {o : Option (Thread K)} (ho : ∀ t, o = some t → ThreadOk ptable t)
    (d : ι) (t : Thread K) (ht : Function.update ts j o d = some t) : ThreadOk ptable t := by
  by_cases hd : d = j
  · subst hd
    rw [Function.update_self] at ht
    exact ho t ht
  · rw [Function.update_of_ne hd] at ht
    exact h d t ht

omit [DecidableEq K] in
/-- What a thread that is switched away from leaves. -/
theorem CpuOk.parked {ptable : K} (h : CpuOk u) (hf : u.frame.Switches ptable) {b : Option Bool}
    (hb : b = none ∨ b = some u.intena) : ThreadOk ptable ⟨u.frame, u.below, b⟩ := by
  refine ⟨hf, fun x hx => ?_, h.below⟩
  have hd := hf.depth
  obtain rfl | rfl := hb
  · cases hx
  · rw [← h.intena (.inl (by omega))]
    exact Option.some.inj hx

variable [DecidableEq P]

/-- **Every step keeps the invariant.** -/
theorem Inv.step {ptable : K} {a : Act K P} (hi : Inv ptable s) (h : step ptable s (c, a) = some t) : Inv ptable t := by
  have hc := hi.cpu c
  cases a with
  | next => exact hi.next h
  | pushcli =>
    rcases hu : s.cpu c with ⟨n, i, e, ⟨pc, p, hs, en⟩, b⟩
    simp only [Spin.step, hu, State.goto] at h
    rw [hu] at hc
    split at h
    · next hp =>
      subst hp
      cases h
      exact hi.quiet (hc.callPush fun _ h => by cases h) (by rw [hu]; exact fun _ => ⟨Iff.rfl, Iff.rfl⟩)
    · cases h
  | popcli =>
    rcases hu : s.cpu c with ⟨n, i, e, ⟨pc, p, hs, en⟩, b⟩
    simp only [Spin.step, hu] at h
    rw [hu] at hc
    split at h
    · next hp =>
      obtain ⟨rfl, hp⟩ := hp
      cases h
      exact hi.quiet (hc.callPop hp) (by rw [hu]; exact fun _ => ⟨Iff.rfl, Iff.rfl⟩)
    · cases h
  | acquire lk =>
    rcases hu : s.cpu c with ⟨n, i, e, ⟨pc, p, hs, en⟩, b⟩
    simp only [Spin.step, hu, State.goto] at h
    rw [hu] at hc
    split at h
    · next hp =>
      obtain ⟨rfl, hp⟩ := hp
      cases h
      exact hi.quiet (hc.callPush fun _ h => by cases h; exact hp) (by rw [hu]; exact fun _ => ⟨Iff.rfl, Iff.rfl⟩)
    · cases h
  | release lk =>
    rcases hu : s.cpu c with ⟨n, i, e, ⟨pc, p, hs, en⟩, b⟩
    simp only [Spin.step, hu] at h
    rw [hu] at hc
    split at h
    · next hp =>
      obtain ⟨rfl, hp⟩ := hp
      cases h
      refine hi.quiet (hc.callRelease hp) (.of (fun k => ?_) (by rw [hu]; rfl))
      rw [hu]
      unfold Frame.Owns
      by_cases hk : k = lk
      · subst hk
        exact iff_of_true (.inr rfl) (.inl hp)
      · simp [List.mem_erase_of_ne hk, Pc.owns?, Ne.symm hk]
    · cases h
  | sti =>
    simp only [Spin.step] at h
    split at h
    · next hf =>
      cases h
      exact hi.quiet (hc.sti hf) fun _ => ⟨Iff.rfl, Iff.rfl⟩
    · cases h
  | interrupt =>
    simp only [Spin.step] at h
    split at h
    · next he =>
      cases h
      refine hi.quiet (hc.interrupt he) (Frame.same_of_none (fun lk => ?_) fun lk => (hc.open he).not_locks)
      exact Frame.Free.not_locks ⟨rfl, rfl, rfl⟩
    · cases h
  | iret =>
    rcases hu : s.cpu c with ⟨n, i, e, f, b⟩
    simp only [Spin.step, hu] at h
    rw [hu] at hc
    cases b with
    | nil => cases h
    | cons g b =>
      simp only at h
      split at h
      · next hf =>
        cases h
        have hg := hc.below g List.mem_cons_self
        exact hi.quiet (hc.iret hf) (by rw [hu]; exact Frame.same_of_none (fun _ => hg.not_locks) fun _ => hf.not_locks)
      · cases h
  | sched =>
    simp only [Spin.step] at h
    split at h
    · next p th hp hth =>
      split at h
      · next hf =>
        cases h
        refine hi.swtch hf (hi.scheduler c th hth) rfl rfl rfl (update_ok hi.scheduler c fun _ ht => by cases ht)
          (update_ok hi.thread p fun _ ht => ?_)
        cases ht
        exact hc.parked hf (.inr rfl)
      · cases h
    · cases h
  | run p =>
    simp only [Spin.step] at h
    split at h
    · next th hp hth =>
      split at h
      · next hf =>
        cases h
        refine hi.swtch hf (hi.thread p th hth) rfl rfl rfl (update_ok hi.scheduler c fun _ ht => ?_)
          (update_ok hi.thread p fun _ ht => by cases ht)
        cases ht
        exact hc.parked hf (.inl rfl)
      · cases h
    · cases h

omit [DecidableEq C] [DecidableEq K] [DecidableEq P] in
theorem Inv.boot (ptable : K) : Inv ptable (boot ptable : State C K P) := by
  have hnot : ∀ lk, ¬ Frame.Locks (⟨.out, 0, [], false⟩ : Frame K) lk := fun _ => Frame.Free.not_locks ⟨rfl, rfl, rfl⟩
  refine ⟨fun c => ?_, ⟨fun lk c => ?_, fun lk => ?_, fun lk c d hc => (hnot lk hc).elim⟩, fun c t h => (by cases h),
    fun p t h => ?_⟩
  · exact ⟨rfl, List.nodup_nil, fun _ h => (by cases h), fun h => (by cases h), by simp [Spin.boot],
      fun _ => rfl, fun _ _ h => (by simp [Spin.boot] at h), fun g hg => by cases hg⟩
  · exact iff_of_false (fun h => by cases h) fun h => hnot lk (.inl h)
  · exact iff_of_false (fun h => by cases h) fun h => h.elim fun _ h => hnot lk h
  · cases h
    exact ⟨⟨rfl, rfl, rfl⟩, fun _ h => (by cases h), fun g hg => by cases hg⟩

theorem Reachable.inv {ptable : K} (h : Reachable ptable s) : Inv ptable s := by
  obtain ⟨tr, h⟩ := h
  refine Lib.run_induction (fun _ s => Inv ptable s) (.boot ptable) (fun _ s a t _ hi hs => ?_) tr s h
  obtain ⟨c, a⟩ := a
  exact hi.step hs

/-- What the callers of `spinlock.c` rely on. -/
structure Right (ptable : K) (s : State C K P) : Prop where
  /-- At most one CPU is between the `xchg` of `acquire` and that of `release` of a lock. -/
  exclusive : ∀ lk c d, (s.cpu c).frame.Locks lk → (s.cpu d).frame.Locks lk → c = d
  /-- It has interrupts off. -/
  masked : ∀ lk c, (s.cpu c).frame.Locks lk → (s.cpu c).eflags = false
  /-- A CPU does not spin on a lock that its own code has, interrupted or not. -/
  spins : ∀ lk c, (s.cpu c).frame.pc = .xchg lk → ∀ f ∈ (s.cpu c).frame :: (s.cpu c).below, ¬ f.Locks lk
  calm : ∀ c, (s.cpu c).frame.pc ≠ .panic
  /-- What `sched` checks. -/
  sched : ∀ c, (s.cpu c).frame.Switches ptable →
    s.locked ptable = true ∧ s.owner ptable = some c ∧ (s.cpu c).ncli = 1 ∧ (s.cpu c).eflags = false
  /-- Where the code holds no lock and is in no `pushcli`, interrupts are as they were before. -/
  restored : ∀ c, (s.cpu c).frame.Free → (s.cpu c).ncli = 0 ∧ (s.cpu c).eflags = (s.cpu c).frame.enabled

omit [DecidableEq C] [DecidableEq K] [DecidableEq P] in
theorem Inv.masked {ptable : K} (hi : Inv ptable s) (hl : (s.cpu c).frame.Locks lk) : (s.cpu c).eflags = false := by
  by_contra he
  rw [Bool.not_eq_false] at he
  exact ((hi.cpu c).open he).not_locks hl

/-- **Spin locks exclude each other**, in every state that the CPUs reach, in whatever order they execute their statements,
are interrupted and switch threads: no two CPUs have a lock, the one that has it has interrupts off, none spins on a lock that
it has itself, no `acquire`, `release`, `popcli` or check of locks and interrupts in `sched` panics, and when the last lock is
released interrupts are again as they were before the first, on whichever CPU that was. -/
theorem locks_right {ptable : K} (h : Reachable ptable s) : Right ptable s := by
  have hi := h.inv
  refine ⟨hi.locks.only, fun _ _ => hi.masked, fun lk c hc f hf => ?_, fun c => (hi.cpu c).calm, fun c hc => ?_, fun c hc => ?_⟩
  · obtain rfl | hf := List.mem_cons.1 hf
    · rintro ((hl | hl) | hl)
      · exact (hi.cpu c).apart lk (by rw [hc]; rfl) hl
      · rw [hc] at hl
        cases hl
      · rw [hc] at hl
        cases hl
    · exact ((hi.cpu c).below f hf).not_locks
  · have ho : (s.cpu c).frame.Owns ptable := .inl (by rw [hc.2.2]; exact List.mem_singleton_self _)
    refine ⟨(hi.locks.locked ptable).2 ⟨c, .inl ho⟩, (hi.locks.owner ptable c).2 ho, ?_, hi.masked (.inl ho)⟩
    rw [(hi.cpu c).ncli, hc.depth]
    rfl
  · refine ⟨by rw [(hi.cpu c).ncli, hc.depth]; rfl, ?_⟩
    have he := (hi.cpu c).eflags
    rw [hc.depth, hc.1] at he
    exact Bool.eq_iff_iff.2 (he.trans ⟨fun h => h.2.2, fun h => ⟨rfl, trivial, h⟩⟩)

/-- CPU 0 switches to a process, which releases `ptable.lock`, while CPU 1 spins on it. -/
def handOver : List (Fin 2 × Act Unit Unit) :=
  let c₀ : Fin 2 := ⟨0, Nat.two_pos⟩
  let c₁ : Fin 2 := ⟨1, Nat.one_lt_two⟩
  [(c₀, .sti), (c₀, .acquire ())] ++ List.replicate 6 (c₀, .next) ++ [(c₁, .acquire ())] ++ List.replicate 5 (c₁, .next) ++
    [(c₀, .run ()), (c₀, .release ())] ++ List.replicate 4 (c₀, .next)

theorem locks_right_handOver : ∃ s : State (Fin 2) Unit Unit, Lib.run (step ()) (boot ()) handOver = some s ∧ Right () s := by
  obtain ⟨s, hs⟩ : ∃ s, Lib.run (step ()) (boot ()) handOver = some s := Option.isSome_iff_exists.1 (by decide)
  exact ⟨s, hs, locks_right ⟨handOver, hs⟩⟩

end NewXv6.Spin
