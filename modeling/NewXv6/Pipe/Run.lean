import NewXv6.Pipe.Model

/-!
# A pipe is a bounded FIFO

In every run the bytes removed are a prefix of the bytes appended and the counters differ by the number of bytes in
between, at most `PIPESIZE` (`run_fifo`). Nobody sleeps without reason in a run exactly if no `pipewrite` leaves with -1
after it has filled the pipe in the same stretch while a reader sleeps (`pipe_correct`): that exit of `pipewrite`
misses the wakeup of its other exits (`reader_stranded`).
-/

namespace NewXv6.Pipes

open Lib

theorem size_dvd : PIPESIZE ∣ 2 ^ 32 := by decide
theorem size_lt : PIPESIZE < 2 ^ 32 := by decide

/-! ## The loops -/

/-- `pipewrite`'s loop appends as many bytes as there is room for. -/
theorem fill_holds (bs : List Byte) : ∀ (p : Pipe) (q : List Byte), p.Holds q →
    (fill p bs).1.Holds (q ++ bs.take (PIPESIZE - q.length)) ∧ (fill p bs).2 = bs.drop (PIPESIZE - q.length) ∧
    (fill p bs).1.readopen = p.readopen ∧ (fill p bs).1.writeopen = p.writeopen := by
  induction bs with
  | nil => intro p q h; simpa [fill] using h
  | cons b bs ih =>
    intro p q h
    unfold fill
    cases hf : p.full with
    | true =>
      have hlen := (h.full_iff size_lt).1 hf
      rw [if_pos rfl, hlen, Nat.sub_self]
      simpa using h
    | false =>
      have hlen : q.length < PIPESIZE := by
        refine lt_of_le_of_ne h.bound fun he => ?_
        rw [(h.full_iff size_lt).2 he] at hf
        cases hf
      obtain ⟨h1, h2, h3, h4⟩ := ih { p with toRing := p.put b } (q ++ [b]) (h.put size_dvd hlen b)
      have hk : PIPESIZE - q.length = PIPESIZE - (q ++ [b]).length + 1 := by
        rw [List.length_append, List.length_singleton]; omega
      rw [if_neg (by simp), hk, List.take_succ_cons, List.drop_succ_cons]
      rw [List.append_assoc, List.singleton_append] at h1
      exact ⟨h1, h2, h3, h4⟩

/-- `piperead`'s loop removes up to `n` bytes from the front. -/
theorem drain_holds (n : Nat) : ∀ (p : Pipe) (q : List Byte), p.Holds q →
    (drain p n).1.Holds (q.drop n) ∧ (drain p n).2 = q.take n ∧
    (drain p n).1.readopen = p.readopen ∧ (drain p n).1.writeopen = p.writeopen := by
  induction n with
  | zero => intro p q h; simpa [drain] using h
  | succ n ih =>
    intro p q h
    unfold drain
    cases q with
    | nil =>
      rw [if_pos ((h.empty_iff size_lt).2 rfl)]
      simpa using h
    | cons a q =>
      have hne : ¬ p.empty = true := fun he => by cases (h.empty_iff size_lt).1 he
      obtain ⟨hfront, htake⟩ := h.take size_dvd
      obtain ⟨h1, h2, h3, h4⟩ := ih { p with toRing := p.take } q htake
      rw [if_neg hne]
      exact ⟨h1, by rw [List.take_succ_cons, ← h2, ← hfront], h3, h4⟩

/-! ## What a stretch does -/

variable {T : Type} [DecidableEq T] {s t : State T}

/-- The pipe holds what was appended and not yet removed. -/
def Inv (s : State T) (q : List Byte) : Prop := s.pipe.Holds q ∧ s.ins = s.outs ++ q

/-- Nobody sleeps without reason. -/
structure Awake (s : State T) : Prop where
  /-- A reader sleeps only while the pipe is empty and has a writer. -/
  reader : ∀ x n, s.pc x = .sleepRead n → s.pipe.empty = true ∧ s.pipe.writeopen = true
  /-- A writer sleeps only while the pipe is full and has a reader. -/
  writer : ∀ x n bs, s.pc x = .sleepWrite n bs → s.pipe.full = true ∧ s.pipe.readopen = true

@[simp] theorem wakeRead_ne (pc : Pc) (n : Nat) : pc.wakeRead ≠ .sleepRead n := by cases pc <;> simp [Pc.wakeRead]

@[simp] theorem wakeWrite_ne (pc : Pc) (n : Nat) (bs : List Byte) : pc.wakeWrite ≠ .sleepWrite n bs := by
  cases pc <;> simp [Pc.wakeWrite]

@[simp] theorem wakeRead_write (pc : Pc) (n : Nat) (bs : List Byte) :
    pc.wakeRead = .sleepWrite n bs ↔ pc = .sleepWrite n bs := by cases pc <;> simp [Pc.wakeRead]

@[simp] theorem wakeWrite_read (pc : Pc) (n : Nat) : pc.wakeWrite = .sleepRead n ↔ pc = .sleepRead n := by
  cases pc <;> simp [Pc.wakeWrite]

/-- Room in the pipe, as the counters tell it. -/
def room (s : State T) : Nat := PIPESIZE - (s.pipe.nwrite - s.pipe.nread).toNat

omit [DecidableEq T] in
theorem Inv.room {q : List Byte} (hi : Inv s q) : room s = PIPESIZE - q.length := by
  unfold Pipes.room
  rw [hi.1.length size_lt]

/-- `pipewrite` fills the pipe and returns -1 in the same stretch while a reader sleeps. -/
def Strands (s : State T) (a : Act T) : Prop :=
  ∃ x n bs, writes s a = some (x, n, bs) ∧ 0 < room s ∧ room s < bs.length ∧
    (s.pipe.readopen = false ∨ s.killed x = true) ∧ ∃ y m, s.pc y = .sleepRead m

theorem pipewrite_inv {q : List Byte} (hi : Inv s q) (x : T) (n : Nat) (bs : List Byte) :
    Inv (pipewrite s x n bs).1 (q ++ bs.take (PIPESIZE - q.length)) := by
  obtain ⟨h1, h2, -⟩ := fill_holds bs s.pipe q hi.1
  have hins : s.ins ++ bs.take (bs.length - (fill s.pipe bs).2.length) = s.outs ++ (q ++ bs.take (PIPESIZE - q.length)) := by
    rw [h2, List.length_drop, hi.2, List.append_assoc]
    congr 2
    by_cases hle : PIPESIZE - q.length ≤ bs.length
    · rw [Nat.sub_sub_self hle]
    · rw [List.take_of_length_le (by omega), List.take_of_length_le (by omega)]
  unfold pipewrite
  simp only
  split
  · exact ⟨h1, hins⟩
  · split
    · exact ⟨h1, hins⟩
    · exact ⟨h1, hins⟩

theorem piperead_inv {q : List Byte} (hi : Inv s q) (x : T) (n : Nat) : ∃ q', Inv (piperead s x n).1 q' := by
  obtain ⟨h1, h2, -⟩ := drain_holds n s.pipe q hi.1
  unfold piperead
  split
  · split
    · exact ⟨q, hi⟩
    · exact ⟨q, hi⟩
  · refine ⟨q.drop n, h1, ?_⟩
    show s.ins = s.outs ++ (drain s.pipe n).2 ++ q.drop n
    rw [h2, List.append_assoc, List.take_append_drop]
    exact hi.2

theorem setPc_pc (x y : T) (pc : Pc) : (s.setPc x pc).pc y = if y = x then pc else s.pc y := Function.update_apply ..

/-- A stretch of `pipewrite` wakes the readers it has to, unless it strands one. -/
theorem pipewrite_awake {q : List Byte} (hi : Inv s q) (ha : Awake s) {x : T} {n : Nat} {bs : List Byte}
    (hno : ¬ (0 < room s ∧ room s < bs.length ∧ (s.pipe.readopen = false ∨ s.killed x = true) ∧
      ∃ y m, s.pc y = .sleepRead m)) : Awake (pipewrite s x n bs).1 := by
  obtain ⟨h1, h2, h3, h4⟩ := fill_holds bs s.pipe q hi.1
  -- a writer that slept sleeps on a full pipe, which this stretch leaves full
  have hwriter : ∀ y m cs, s.pc y = .sleepWrite m cs →
      (fill s.pipe bs).1.full = true ∧ (fill s.pipe bs).1.readopen = true := by
    intro y m cs hy
    obtain ⟨hf, hr⟩ := ha.writer y m cs hy
    have hlen := (hi.1.full_iff size_lt).1 hf
    refine ⟨(h1.full_iff size_lt).2 ?_, h3.trans hr⟩
    rw [hlen, Nat.sub_self, List.take_zero, List.append_nil, hlen]
  have hfull : (fill s.pipe bs).2 ≠ [] → (fill s.pipe bs).1.full = true := by
    intro hne
    refine (h1.full_iff size_lt).2 ?_
    have hb := hi.1.bound
    rw [h2, Ne, List.drop_eq_nil_iff, not_le] at hne
    rw [List.length_append, List.length_take]
    omega
  unfold pipewrite
  simp only
  split
  · refine ⟨fun y m hy => ?_, fun y m cs hy => ?_⟩
    · rw [setPc_pc] at hy
      split at hy
      · cases hy
      · exact absurd hy (wakeRead_ne _ _)
    · rw [setPc_pc] at hy
      split at hy
      · cases hy
      · exact hwriter y m cs ((wakeRead_write _ _ _).1 hy)
  · next b rest hrest =>
    split
    · next hret =>
      refine ⟨fun y m hy => ?_, fun y m cs hy => ?_⟩
      · rw [setPc_pc] at hy
        split at hy
        · cases hy
        · -- the reader slept on an empty pipe, which this stretch filled
          have hq := (hi.1.empty_iff size_lt).1 (ha.reader y m hy).1
          rw [h3, Bool.or_eq_true, Bool.not_eq_true'] at hret
          have hroom := hi.room
          rw [hq] at hroom
          rw [hq] at h2
          refine absurd ⟨by rw [hroom]; decide, ?_, hret, y, m, hy⟩ hno
          rw [hroom]
          by_contra hle
          rw [List.drop_of_length_le (by omega)] at h2
          rw [h2] at hrest
          cases hrest
      · rw [setPc_pc] at hy
        split at hy
        · cases hy
        · exact hwriter y m cs hy
    · next hret =>
      have hf := hfull (by rw [hrest]; simp)
      refine ⟨fun y m hy => ?_, fun y m cs hy => ?_⟩
      · rw [setPc_pc] at hy
        split at hy
        · cases hy
        · exact absurd hy (wakeRead_ne _ _)
      · refine ⟨hf, ?_⟩
        rw [Bool.or_eq_true, not_or, Bool.not_eq_true', Bool.not_eq_false] at hret
        exact hret.1

theorem piperead_awake (ha : Awake s) (x : T) (n : Nat) :
    Awake (piperead s x n).1 := by
  unfold piperead
  split
  · next hc =>
    rw [Bool.and_eq_true] at hc
    split
    · refine ⟨fun y m hy => ?_, fun y m cs hy => ?_⟩
      · rw [setPc_pc] at hy
        split at hy
        · cases hy
        · exact ha.reader y m hy
      · rw [setPc_pc] at hy
        split at hy
        · cases hy
        · exact ha.writer y m cs hy
    · refine ⟨fun y m hy => ?_, fun y m cs hy => ?_⟩
      · exact hc
      · rw [setPc_pc] at hy
        split at hy
        · cases hy
        · exact ha.writer y m cs hy
  · next hc =>
    rw [Bool.and_eq_true] at hc
    refine ⟨fun y m hy => ?_, fun y m cs hy => ?_⟩
    · rw [setPc_pc] at hy
      split at hy
      · cases hy
      · exact absurd (ha.reader y m ((wakeWrite_read _ _).1 hy)) hc
    · rw [setPc_pc] at hy
      split at hy
      · cases hy
      · exact absurd hy (wakeWrite_ne _ _ _)

omit [DecidableEq T] in
theorem pipeclose_inv {q : List Byte} (hi : Inv s q) (writable : Bool) : Inv (pipeclose s writable) q := by
  cases writable
  · exact hi
  · exact hi

omit [DecidableEq T] in
theorem pipeclose_awake (ha : Awake s) (writable : Bool) : Awake (pipeclose s writable) := by
  cases writable with
  | false =>
    refine ⟨fun y m hy => ?_, fun y m cs hy => ?_⟩
    · exact ha.reader y m ((wakeWrite_read _ _).1 hy)
    · exact absurd hy (wakeWrite_ne _ _ _)
  | true =>
    refine ⟨fun y m hy => ?_, fun y m cs hy => ?_⟩
    · exact absurd hy (wakeRead_ne _ _)
    · exact ha.writer y m cs ((wakeRead_write _ _ _).1 hy)

/-! ## Every step -/

/-- The kinds of steps. -/
theorem step_cases {a : Act T} (h : step s a = some t) :
    (∃ writable, t = pipeclose s writable) ∧ writes s a = none ∨
    (∃ x, t = { s with killed := Function.update s.killed x true }.setPc x (s.pc x).wakeRead.wakeWrite) ∧
      writes s a = none ∨
    (∃ x n bs, writes s a = some (x, n, bs) ∧ t = (pipewrite s x n bs).1) ∨
    ∃ x n, t = (piperead s x n).1 ∧ writes s a = none := by
  cases a with
  | close writable =>
    simp only [step] at h
    by_cases hc : (if writable = true then s.pipe.writeopen else s.pipe.readopen) = true
    · rw [if_pos hc] at h; cases h; exact Or.inl ⟨⟨writable, rfl⟩, rfl⟩
    · rw [if_neg hc] at h; cases h
  | kill x => cases h; exact Or.inr (Or.inl ⟨⟨x, rfl⟩, rfl⟩)
  | _ =>
    simp only [step] at h
    split at h
    · next x n bs hw => cases h; exact Or.inr (Or.inr (Or.inl ⟨x, n, bs, hw, rfl⟩))
    · next x n hw hr => cases h; exact Or.inr (Or.inr (Or.inr ⟨x, n, rfl, hw⟩))
    · cases h

theorem step_inv {q : List Byte} (hi : Inv s q) {a : Act T} (h : step s a = some t) : ∃ q', Inv t q' := by
  rcases step_cases h with ⟨⟨w, rfl⟩, -⟩ | ⟨⟨x, rfl⟩, -⟩ | ⟨x, n, bs, -, rfl⟩ | ⟨x, n, rfl, -⟩
  · exact ⟨q, pipeclose_inv hi w⟩
  · exact ⟨q, hi⟩
  · exact ⟨_, pipewrite_inv hi x n bs⟩
  · exact piperead_inv hi x n

theorem step_awake {q : List Byte} (hi : Inv s q) (ha : Awake s) {a : Act T} (h : step s a = some t)
    (hno : ¬ Strands s a) : Awake t := by
  rcases step_cases h with ⟨⟨w, rfl⟩, -⟩ | ⟨⟨x, rfl⟩, -⟩ | ⟨x, n, bs, hw, rfl⟩ | ⟨x, n, rfl, -⟩
  · exact pipeclose_awake ha w
  · refine ⟨fun y m hy => ?_, fun y m cs hy => ?_⟩
    · rw [setPc_pc] at hy
      split at hy
      · exact absurd ((wakeWrite_read _ _).1 hy) (wakeRead_ne _ _)
      · exact ha.reader y m hy
    · rw [setPc_pc] at hy
      split at hy
      · exact absurd hy (wakeWrite_ne _ _ _)
      · exact ha.writer y m cs hy
  · exact pipewrite_awake hi ha fun ⟨h1, h2, h3, h4⟩ => hno ⟨x, n, bs, hw, h1, h2, h3, h4⟩
  · exact piperead_awake ha x n

/-- A stretch that strands a reader leaves it asleep next to a full pipe. -/
theorem pipewrite_strands {q : List Byte} (hi : Inv s q) {x : T} {n : Nat} {bs : List Byte} (hpos : 0 < room s)
    (hlt : room s < bs.length) (hret : s.pipe.readopen = false ∨ s.killed x = true) {y : T} (hyx : y ≠ x) {m : Nat}
    (hy : s.pc y = .sleepRead m) : ¬ Awake (pipewrite s x n bs).1 := by
  intro ha
  obtain ⟨h1, h2, h3, -⟩ := fill_holds bs s.pipe q hi.1
  rw [hi.room] at hpos hlt
  have hrest : (fill s.pipe bs).2 ≠ [] := by
    rw [h2, Ne, List.drop_eq_nil_iff]
    omega
  obtain ⟨b, rest, hbr⟩ := List.exists_cons_of_ne_nil hrest
  have hout : (pipewrite s x n bs).1.pc y = .sleepRead m ∧ (pipewrite s x n bs).1.pipe = (fill s.pipe bs).1 := by
    unfold pipewrite
    simp only [hbr]
    rw [if_pos (by rw [h3, Bool.or_eq_true, Bool.not_eq_true']; exact hret)]
    exact ⟨by rw [setPc_pc, if_neg hyx]; exact hy, rfl⟩
  have hemp := (ha.reader y m hout.1).1
  rw [hout.2] at hemp
  have hlen := congrArg List.length ((h1.empty_iff size_lt).1 hemp)
  rw [List.length_append, List.length_take, List.length_nil] at hlen
  omega

theorem strands_not_awake {q : List Byte} (hi : Inv s q) {a : Act T} (h : step s a = some t) (hs : Strands s a) :
    ¬ Awake t := by
  obtain ⟨x, n, bs, hw, hpos, hlt, hret, y, m, hy⟩ := hs
  -- who writes does not sleep
  have hyx : y ≠ x := by
    rintro rfl
    cases a with
    | write z cs =>
      simp only [writes] at hw
      split at hw
      · next hz => cases hw; rw [hz] at hy; cases hy
      · cases hw
    | resume z =>
      simp only [writes] at hw
      split at hw
      · next hz => cases hw; rw [hz] at hy; cases hy
      · cases hw
    | _ => cases hw
  rcases step_cases h with ⟨-, hn⟩ | ⟨-, hn⟩ | ⟨x', n', bs', hw', rfl⟩ | ⟨x', n', -, hn⟩
  · rw [hn] at hw; cases hw
  · rw [hn] at hw; cases hw
  · rw [hw'] at hw
    cases hw
    exact pipewrite_strands hi hpos hlt hret hyx hy
  · rw [hn] at hw; cases hw

/-! ## Every run -/

/-- The pipe is a FIFO of at most `PIPESIZE` bytes. -/
structure Fifo (s : State T) : Prop where
  pre : s.outs <+: s.ins
  /-- The counters count, modulo `2 ^ 32`, what is appended and not yet removed. -/
  count : s.ins.length = s.outs.length + (s.pipe.nwrite - s.pipe.nread).toNat
  bound : (s.pipe.nwrite - s.pipe.nread).toNat ≤ PIPESIZE

omit [DecidableEq T] in
theorem Inv.fifo {q : List Byte} (hi : Inv s q) : Fifo s := by
  refine ⟨⟨q, hi.2.symm⟩, ?_, ?_⟩
  · rw [hi.1.length size_lt, hi.2, List.length_append]
  · rw [hi.1.length size_lt]; exact hi.1.bound

omit [DecidableEq T] in
theorem pipealloc_inv (data : Nat → Byte) : Inv (pipealloc data : State T) [] :=
  ⟨⟨Nat.zero_le _, rfl, fun i h => absurd h (Nat.not_lt_zero i)⟩, rfl⟩

omit [DecidableEq T] in
theorem pipealloc_awake (data : Nat → Byte) : Awake (pipealloc data : State T) :=
  ⟨(fun _ _ h => by cases h), fun _ _ _ h => by cases h⟩

variable {data : Nat → Byte} {tr : List (Act T)}

theorem run_inv (h : run step (pipealloc data) tr = some s) : ∃ q, Inv s q :=
  run_induction (fun _ s => ∃ q, Inv s q) ⟨[], pipealloc_inv data⟩
    (fun _ _ _ _ _ ⟨_, hi⟩ hs => step_inv hi hs) tr s h

/-- **A pipe is a bounded FIFO**, in every run. -/
theorem run_fifo (h : run step (pipealloc data) tr = some s) : Fifo s := by
  obtain ⟨q, hi⟩ := run_inv h
  exact hi.fifo

/-- Every state in the run `tr` on a new pipe has the property `P`. -/
def EveryState (data : Nat → Byte) (tr : List (Act T)) (P : State T → Prop) : Prop :=
  ∀ tr' s, tr' <+: tr → run step (pipealloc data) tr' = some s → P s

/-- No step of the run `tr` on a new pipe has the property `P`. -/
def NoStep (data : Nat → Byte) (tr : List (Act T)) (P : State T → Act T → Prop) : Prop :=
  ∀ tr' a s t, tr' ++ [a] <+: tr → run step (pipealloc data) tr' = some s → step s a = some t → ¬ P s a

theorem run_awake (hno : NoStep data tr Strands) (h : run step (pipealloc data) tr = some s) : Awake s := by
  refine run_induction (fun tr s => NoStep data tr Strands → Awake s) ?_ ?_ tr s h hno
  · intro _; exact pipealloc_awake data
  · intro tr s a t hs ih ha hno
    obtain ⟨q, hi⟩ := run_inv hs
    have hold := ih fun tr' b u v hp => hno tr' b u v (hp.trans (List.prefix_append ..))
    exact step_awake hi hold ha (hno tr a s t (List.prefix_refl _) hs ha)

/-- **A pipe is a bounded FIFO without lost wakeups**, in every state of a run, exactly if in the run no `pipewrite` fills
the pipe and returns -1 in the same stretch while a reader sleeps. -/
theorem pipe_correct (data : Nat → Byte) (tr : List (Act T)) :
    EveryState data tr (fun s => Fifo s ∧ Awake s) ↔ NoStep data tr Strands := by
  constructor
  · intro hall tr' a s t hp hs ha hstr
    obtain ⟨q, hi⟩ := run_inv hs
    exact strands_not_awake hi ha hstr (hall _ t hp (run_snoc.2 ⟨s, hs, ha⟩)).2
  · intro hno tr' s hp hs
    exact ⟨run_fifo hs, run_awake (fun tr'' b u v h => hno tr'' b u v (h.trans hp)) hs⟩

/-- **A reader sleeps next to a full pipe**: thread 0 reads from the empty pipe; thread 1, killed on its way into
`pipewrite`, writes 513 bytes, of which 512 go in, and leaves without a wakeup. -/
theorem reader_stranded : ¬ EveryState (fun _ => 0) [.read 0 1, .kill 1, .write 1 (List.replicate 513 0)]
    fun s : State (Fin 3) => Fifo s ∧ Awake s := by
  intro hall
  have hrun : (run step (pipealloc fun _ => 0) [.read 0 1, .kill 1, .write (1 : Fin 3) (List.replicate 513 0)]).map
      (fun s => (s.pc 0, s.pipe.empty)) = some (.sleepRead 1, false) := by decide +kernel
  obtain ⟨s, hs, heq⟩ := Option.map_eq_some_iff.1 hrun
  obtain ⟨hpc, hemp⟩ := Prod.mk.inj heq
  have := ((hall _ s (List.prefix_refl _) hs).2.reader 0 1 hpc).1
  rw [hemp] at this
  cases this

end NewXv6.Pipes
