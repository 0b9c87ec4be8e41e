import NewXv6.Sh.Wiring

/-!
# A line never deadlocks

Where no process can take a step, a process that has not exited leads to one that sleeps in a read or a write
(`Stuck.busy`), and this one sleeps on the standard input or output of the line (`Runs.blocked`): a pipe between two of its
programs is not both empty and full, and nobody but its two sides has its ends open (`Runs.holds`). But the line's own
input and output are no pipes, so some process can take a step (`never_stuck`).
-/

namespace NewXv6.Sh

open Pipes (PIPESIZE)

/-! ## Processes that sleep -/

/-- No process below the root can take a step, nor can the root but for `wait`. -/
def Still (held : Obj → Prop) (w : World) (job : Job) : Prop := ∀ w' job', ¬ Move held w job w' job'

structure Stuck (held : Obj → Prop) (w : World) (job : Job) : Prop where
  still : Still held w job
  wait : ∀ job', ¬ Wait job job'

/-- A program is in a read or a write. -/
inductive Proc.Transfers : Proc → Prop
  | read {fd : Nat} {f : Fds} : Transfers (.program (.read fd) f)
  | write {fd : Nat} {f : Fds} : Transfers (.program (.write fd) f)

/-- Some program is in a read or a write. -/
def Job.Busy : Job → Prop
  | .self p => p.Transfers
  | .child _ kid proc => kid.Busy ∨ proc.Busy

/-- The children of the process have exited. -/
def Job.Bereft : Job → Prop
  | .self _ => True
  | .child _ kid proc => kid.process = .zombie ∧ proc.Bereft

variable {held : Obj → Prop} {e i o : Obj} {w : World} {cmd : Cmd} {ns : Multiset Nat} {L : Multiset (List Word × Fds)}
  {job : Job}

theorem Still.kid {reaped : Bool} {kid proc : Job} (h : Still held w (.child reaped kid proc)) : Stuck held w kid :=
  ⟨fun _ _ hm => h _ _ (.kid hm), fun _ hw => h _ _ (.wait hw)⟩

theorem Still.proc {reaped : Bool} {kid proc : Job} (h : Still held w (.child reaped kid proc)) : Still held w proc :=
  fun _ _ hm => h _ _ (.proc hm)

/-- What cannot take a step has exited, waits, or is in a read or a write. -/
theorem Still.self {p : Proc} (h : Still held w (.self p)) : p = .zombie ∨ (∃ q, p.Waits q) ∨ p.Transfers := by
  cases p with
  | zombie => exact .inl rfl
  | program a f =>
    cases a with
    | ready => exact (h _ _ (.call .leave)).elim
    | read => exact .inr (.inr .read)
    | write => exact .inr (.inr .write)
    | wait => exact .inr (.inl ⟨_, .program⟩)
  | shell ops f =>
    cases ops with
    | nil => exact (h _ _ (.call .exit)).elim
    | cons op ops =>
      cases op with
      | runcmd => exact (h _ _ (.call .runcmd)).elim
      | close => exact (h _ _ (.call .close)).elim
      | dup => exact (h _ _ (.call .dup)).elim
      | openFile => exact (h _ _ (.call (.fail .openFile))).elim
      | exec => exact (h _ _ (.call .exec)).elim
      | pipe => exact (h _ _ (.call (.fail .pipe))).elim
      | fork1 => exact (h _ _ .fork1).elim
      | wait => exact .inr (.inl ⟨_, .shell⟩)

theorem Job.not_alone (h : job.Bereft) {q : Proc} (hq : job.process.Waits q) : job.Alone ∨ ∃ job', Reap job job' := by
  induction job with
  | self => exact .inl trivial
  | child reaped kid proc _ ih =>
    cases reaped with
    | false => exact .inr ⟨_, .here h.1 hq⟩
    | true => exact (ih h.2 hq).imp (fun ha => ⟨rfl, ha⟩) fun hr => hr.elim fun _ hr => ⟨_, .there hr⟩

/-- A process whose children have exited does not sleep in `wait`. -/
theorem Job.wakes (h : job.Bereft) {q : Proc} (hq : job.process.Waits q) : ∃ job', Wait job job' := by
  obtain ha | ⟨job', hr⟩ := job.not_alone h hq
  · exact ⟨_, .alone ha hq⟩
  · exact ⟨job', .reap hr⟩

theorem Job.process_zombie (h : ¬ job.Live) : job.process = .zombie := by
  induction job with
  | self p => exact of_not_not h
  | child _ _ _ _ ih => exact ih fun hp => h (.inr hp)

/-- Where nobody is in a read or a write, only the root is left, in `wait`. -/
theorem Still.quiet (h : Still held w job) (hb : ¬ job.Busy) :
    job.Bereft ∧ (job.Live → ∃ q, job.process.Waits q) := by
  induction job with
  | self p =>
    obtain rfl | hw | ht := h.self
    · exact ⟨trivial, fun hl => (hl rfl).elim⟩
    · exact ⟨trivial, fun _ => hw⟩
    · exact absurd ht hb
  | child reaped kid proc ihk ihp =>
    obtain ⟨hbk, hwk⟩ := ihk h.kid.still fun hk => hb (.inl hk)
    obtain ⟨hbp, hwp⟩ := ihp h.proc fun hp => hb (.inr hp)
    have hdead : ¬ kid.Live := by
      intro hl
      obtain ⟨q, hq⟩ := hwk hl
      obtain ⟨job', hw⟩ := kid.wakes hbk hq
      exact h.kid.wait job' hw
    exact ⟨⟨Job.process_zombie hdead, hbp⟩, fun hl => hwp (hl.resolve_left hdead)⟩

/-- **Somebody is in a read or a write** where nobody can take a step. -/
theorem Stuck.busy (h : Stuck held w job) (hl : job.Live) : job.Busy := by
  by_contra hb
  obtain ⟨hj, hw⟩ := h.still.quiet hb
  obtain ⟨q, hq⟩ := hw hl
  obtain ⟨job', hw⟩ := job.wakes hj hq
  exact h.wait job' hw

/-! ## Who has a pipe open -/

theorem Job.Holds.live {x : Obj} (h : job.Holds x) : job.Live := by
  induction job with
  | self p => rintro rfl; exact h
  | child _ _ _ ihk ihp => exact h.imp ihk ihp

theorem std_holds {x : Obj} {ops : List Op} (h : Proc.Holds x (.shell ops (std i o e))) : x = i ∨ x = o ∨ x = e := by
  obtain ⟨fd, h⟩ := h
  exact std_mem h

theorem Setup.moves {goal : Fds} {ops : List Op} {f : Fds} (h : Setup cmd goal ops f) :
    ¬ Still held w (.self (.shell ops f)) := by
  intro hs
  cases h with
  | run => exact hs _ _ (.call .runcmd)
  | close => exact hs _ _ (.call .close)
  | dup => exact hs _ _ (.call .dup)
  | openFile hf => exact hs _ _ (.call (.openFile hf))

theorem Closes.holds {n : Nat} {a b : Bool} {p : Proc} {x : Obj} (h : Closes n i o e a b p) (hs : Still held w (.self p))
    (hx : p.Holds x) : x = i ∨ x = o ∨ x = e := by
  cases h with
  | close0 | close1 => exact (hs _ _ (.call .close)).elim
  | wait0 | wait1 | exit => exact std_holds hx
  | zombie => exact hx.elim

theorem Tame.holds {n : Nat} {x : Obj} (h : Tame i o job) (hx : job.Holds x) (hn : x.pipe? = some n) : x = i ∨ x = o := by
  induction h with
  | program hf =>
    obtain ⟨fd, hx⟩ := hx
    exact hf fd x hx (by rw [hn]; simp)
  | zombie => exact hx.elim
  | child _ _ ihk ihp => exact hx.elim ihk ihp

theorem pipe_cases {n : Nat} {x : Obj} (he : e.pipe? = none) (hn : x.pipe? = some n) (hx : x = i ∨ x = o ∨ x = e) :
    x = i ∨ x = o := by
  obtain h | h | rfl := hx
  · exact .inl h
  · exact .inr h
  · rw [he] at hn
    cases hn

theorem Redir.stdin_pipe {n : Nat} {r : Redir} {x : Obj} (hx : x = r.stdin i) (hn : x.pipe? = some n) : x = i := by
  unfold Redir.stdin at hx
  split at hx
  · subst hx
    cases hn
  · exact hx

theorem Redir.stdout_pipe {n : Nat} {r : Redir} {x : Obj} (hx : x = r.stdout o) (hn : x.pipe? = some n) : x = o := by
  unfold Redir.stdout at hx
  split at hx
  · subst hx
    cases hn
  · exact hx

/-- An end of a pipe that the processes of a command have open is its input or output, or an end of a pipe they made. -/
theorem Runs.holds {b : Bool} {n : Nat} {x : Obj} (he : e.pipe? = none) (h : Runs e b cmd i o ns L job) (hs : Still held w job)
    (hx : job.Holds x) (hn : x.pipe? = some n) : x = i ∨ x = o ∨ n ∈ ns := by
  induction h with
  | setup h => exact (h.moves hs).elim
  | failed => exact hx.elim
  | empty h =>
    obtain rfl | rfl := h
    · exact (hs _ _ (.call .exit)).elim
    · exact hx.elim
  | exec => exact (hs _ _ (.call .exec)).elim
  | program _ ht => exact (ht.holds hx hn).imp_right .inl
  | redir _ ih =>
    obtain hx | hx | hx := ih hs hx
    · exact .inl (Redir.stdin_pipe hx hn)
    · exact .inr (.inl (Redir.stdout_pipe hx hn))
    · exact .inr (.inr hx)
  | fork | detach | forks => exact (hs _ _ .fork1).elim
  | waits _ ih =>
    obtain hx | hx := hx
    · exact ih hs.kid.still hx
    · exact (pipe_cases he hn (std_holds hx)).imp_right .inl
  | list _ _ ihl ihr =>
    obtain hx | hx := hx
    · exact (ihl hs.kid.still hx).imp_right (.imp_right (Multiset.mem_add.2 ∘ .inl))
    · exact (ihr hs.proc hx).imp_right (.imp_right (Multiset.mem_add.2 ∘ .inr))
  | back _ hp ih =>
    obtain hx | hx := hx
    · exact ih hs.kid.still hx
    · obtain rfl | rfl := hp
      · exact (hs _ _ (.proc (.call .exit))).elim
      · exact hx.elim
  | pipe => exact (hs _ _ (.call (.fail .pipe))).elim
  | left _ hp ih =>
    obtain hx | hx := hx
    · obtain hx | rfl | hx := ih hs.kid.still hx
      · exact .inl hx
      · exact .inr (.inr (Multiset.mem_cons.2 (.inl (Option.some.inj hn).symm)))
      · exact .inr (.inr (Multiset.mem_cons_of_mem hx))
    · obtain rfl | ⟨-, rfl⟩ := hp
      · exact (hs _ _ (.proc .fork1)).elim
      · exact hx.elim
  | both _ _ hp ihl ihr =>
    obtain hx | hx | hx := hx
    · obtain hx | rfl | hx := ihl hs.kid.still hx
      · exact .inl hx
      · exact .inr (.inr (Multiset.mem_cons.2 (.inl (Option.some.inj hn).symm)))
      · exact .inr (.inr (Multiset.mem_cons_of_mem (Multiset.mem_add.2 (.inl hx))))
    · obtain rfl | hx | hx := ihr hs.proc.kid.still hx
      · exact .inr (.inr (Multiset.mem_cons.2 (.inl (Option.some.inj hn).symm)))
      · exact .inr (.inl hx)
      · exact .inr (.inr (Multiset.mem_cons_of_mem (Multiset.mem_add.2 (.inr hx))))
    · exact (pipe_cases he hn (hp.holds hs.proc.proc hx)).imp_right .inl

/-! ## Pipes that are waited for -/

/-- A read or a write of this end of a pipe sleeps. -/
def Blocked (held : Obj → Prop) (w : World) : Obj → Prop
  | .readEnd n => w.unread n = 0 ∧ held (.writeEnd n)
  | .writeEnd n => PIPESIZE ≤ w.unread n ∧ held (.readEnd n)
  | _ => False

/-- A program in a read or a write sleeps on one of its descriptors. -/
theorem Still.sleeps {p : Proc} (h : Still held w (.self p)) (ht : p.Transfers) : ∃ x n, p.Holds x ∧ x.pipe? = some n ∧
    Blocked held w x := by
  cases ht with
  | @read fd f =>
    by_cases hf : ∃ n, f fd = some (.readEnd n)
    · obtain ⟨n, hf⟩ := hf
      have h0 : w.unread n = 0 := by
        by_contra hne
        exact h _ _ (.call (.read hf (Nat.pos_of_ne_zero hne) le_rfl))
      refine ⟨_, n, ⟨fd, hf⟩, rfl, h0, ?_⟩
      by_contra hw
      exact h _ _ (.call (.readEof hf h0 hw))
    · exact (h _ _ (.call (.readOther fun n hn => hf ⟨n, hn⟩))).elim
  | @write fd f =>
    by_cases hf : ∃ n, f fd = some (.writeEnd n)
    · obtain ⟨n, hf⟩ := hf
      have hfull : PIPESIZE ≤ w.unread n := by
        by_contra hlt
        exact h _ _ (.call (.write (k := 1) hf Nat.one_pos (by omega) (.inl rfl)))
      refine ⟨_, n, ⟨fd, hf⟩, rfl, hfull, ?_⟩
      by_contra hr
      exact h _ _ (.call (.writeBroken hf hfull hr))
    · exact (h _ _ (.call (.writeOther fun n hn => hf ⟨n, hn⟩))).elim

/-- A pipe is not both empty and full. -/
theorem Blocked.one {n : Nat} (hr : Blocked held w (.readEnd n)) (hw : Blocked held w (.writeEnd n)) : False := by
  have h0 := hr.1
  have hfull := hw.1
  have : 0 < PIPESIZE := by decide
  omega

theorem Tame.blocked (h : Tame i o job) (hs : Still held w job) (hb : job.Busy) : Blocked held w i ∨ Blocked held w o := by
  induction h with
  | program hf =>
    obtain ⟨x, n, ⟨fd, hx⟩, hn, hb⟩ := hs.sleeps hb
    obtain rfl | rfl := hf fd x hx (by rw [hn]; simp)
    · exact .inl hb
    · exact .inr hb
  | zombie => cases hb
  | child _ _ ihk ihp => exact hb.elim (ihk hs.kid.still) (ihp hs.proc)

/-- The pipes `ns` belong to the processes `job`: nobody else has an end of them open, and they are not the input or the
output. -/
structure Owns (held : Obj → Prop) (i o : Obj) (ns : Multiset Nat) (job : Job) : Prop where
  nodup : ns.Nodup
  input : ∀ n ∈ ns, i.pipe? ≠ some n
  output : ∀ n ∈ ns, o.pipe? ≠ some n
  only : ∀ x n, x.pipe? = some n → n ∈ ns → held x → job.Holds x

theorem Owns.part {i' o' : Obj} {ns' : Multiset Nat} {job' : Job} (h : Owns held i o ns job) (hle : ns' ≤ ns)
    (hi : ∀ n ∈ ns', i'.pipe? ≠ some n) (ho : ∀ n ∈ ns', o'.pipe? ≠ some n)
    (hj : ∀ x n, x.pipe? = some n → n ∈ ns' → job.Holds x → job'.Holds x) : Owns held i' o' ns' job' :=
  ⟨Multiset.nodup_of_le hle h.nodup, hi, ho,
    fun x n hx hn hh => hj x n hx hn (h.only x n hx (Multiset.mem_of_le hle hn) hh)⟩

theorem Owns.sub {ns' : Multiset Nat} {job' : Job} (h : Owns held i o ns job) (hle : ns' ≤ ns)
    (hj : ∀ x n, x.pipe? = some n → n ∈ ns' → job.Holds x → job'.Holds x) : Owns held i o ns' job' :=
  h.part hle (fun n hn => h.input n (Multiset.mem_of_le hle hn)) (fun n hn => h.output n (Multiset.mem_of_le hle hn)) hj

/-- Standard descriptors are no ends of the pipes. -/
theorem Owns.not_std {x : Obj} {n : Nat} (h : Owns held i o ns job) (he : e.pipe? = none) (hx : x.pipe? = some n) (hn : n ∈ ns) :
    ¬ (x = i ∨ x = o ∨ x = e) := by
  rintro (rfl | rfl | rfl)
  · exact h.input n hn hx
  · exact h.output n hn hx
  · rw [he] at hx
    cases hx

theorem Blocked.pipe {x : Obj} (h : Blocked held w x) : ∃ n, x.pipe? = some n := by
  cases x with
  | given | file => exact h.elim
  | readEnd n | writeEnd n => exact ⟨n, rfl⟩

theorem Owns.redir {r : Redir} (h : Owns held i o ns job) : Owns held (r.stdin i) (r.stdout o) ns job :=
  ⟨h.nodup, fun n hn hp => h.input n hn (Redir.stdin_pipe rfl hp ▸ hp), fun n hn hp => h.output n hn (Redir.stdout_pipe rfl hp ▸ hp),
    h.only⟩

/-- The processes of a command do not have an end of any other pipe open. -/
theorem Runs.not_holds {b : Bool} {x : Obj} {n : Nat} (he : e.pipe? = none) (h : Runs e b cmd i o ns L job)
    (hs : Still held w job) (hx : x.pipe? = some n) (hi : i.pipe? ≠ some n) (ho : o.pipe? ≠ some n) (hn : n ∉ ns) :
    ¬ job.Holds x := by
  intro hh
  obtain rfl | rfl | h := h.holds he hs hh hx
  · exact hi hx
  · exact ho hx
  · exact hn h

/-- The two sides of a pipe: one of them sleeps on the input or the output of both. -/
theorem pipe_blocked {b : Bool} {n : Nat} {ns ms : Multiset Nat} {L M : Multiset (List Word × Fds)} {left right : Cmd}
    {kid kid' : Job} (hl : Runs e b left i (.writeEnd n) ns L kid) (hr : Runs e b right (.readEnd n) o ms M kid')
    (he : e.pipe? = none) (hi : i.pipe? ≠ some n) (ho : o.pipe? ≠ some n) (hn : n ∉ ns) (hm : n ∉ ms)
    (hs : Stuck held w kid) (hs' : Stuck held w kid')
    (honly : ∀ x, x.pipe? = some n → held x → kid.Holds x ∨ kid'.Holds x)
    (hbl : kid.Busy → Blocked held w i ∨ Blocked held w (.writeEnd n))
    (hbr : kid'.Busy → Blocked held w (.readEnd n) ∨ Blocked held w o) (hb : kid.Busy ∨ kid'.Busy) :
    Blocked held w i ∨ Blocked held w o := by
  -- the left side does not have the end for reading, nor the right side the end for writing
  have hleft : ¬ kid.Holds (.readEnd n) := by
    intro hx
    obtain rfl | h | h := hl.holds he hs.still hx rfl
    · exact hi rfl
    · cases h
    · exact hn h
  have hright : ¬ kid'.Holds (.writeEnd n) := by
    intro hx
    obtain h | rfl | h := hr.holds he hs'.still hx rfl
    · cases h
    · exact ho rfl
    · exact hm h
  have hfull : Blocked held w (.writeEnd n) → kid'.Busy := fun h =>
    hs'.busy ((honly _ rfl h.2).resolve_left hleft).live
  have hempty : Blocked held w (.readEnd n) → kid.Busy := fun h =>
    hs.busy ((honly _ rfl h.2).resolve_right hright).live
  obtain hb | hb := hb
  · obtain h | h := hbl hb
    · exact .inl h
    · exact (hbr (hfull h)).imp_left fun h' => (h'.one h).elim
  · obtain h | h := hbr hb
    · exact (hbl (hempty h)).imp_right fun h' => (h.one h').elim
    · exact .inr h

/-- **Programs that sleep** in reads and writes lead to one that sleeps on the input or the output of their command. -/
theorem Runs.blocked {b : Bool} (he : e.pipe? = none) (h : Runs e b cmd i o ns L job) (ho : Owns held i o ns job)
    (hs : Still held w job) (hb : job.Busy) : Blocked held w i ∨ Blocked held w o := by
  induction h with
  | setup | failed | exec | fork | detach | pipe | forks => cases hb
  | empty h =>
    obtain rfl | rfl := h <;> cases hb
  | program _ ht => exact ht.blocked hs hb
  | redir _ ih =>
    refine (ih ho.redir hs hb).imp (fun h => ?_) fun h => ?_
    · obtain ⟨n, hn⟩ := h.pipe
      rwa [Redir.stdin_pipe rfl hn] at h
    · obtain ⟨n, hn⟩ := h.pipe
      rwa [Redir.stdout_pipe rfl hn] at h
  | waits _ ih =>
    refine ih (ho.sub le_rfl fun x n hx hn hh => ?_) hs.kid.still (hb.resolve_right fun h => by cases h)
    exact hh.resolve_right fun h => ho.not_std he hx hn (std_holds h)
  | @list left right i o ns ms L M kid proc hl hr ihl ihr =>
    have hdisj := (Multiset.nodup_add.1 ho.nodup).2.2
    obtain hb | hb := hb
    · refine ihl (ho.sub (Multiset.le_add_right ns ms) fun x n hx hn hh => hh.resolve_right ?_) hs.kid.still hb
      have hmem : n ∈ ns + ms := Multiset.mem_add.2 (.inl hn)
      exact hr.not_holds he hs.proc hx (ho.input n hmem) (ho.output n hmem) (Multiset.disjoint_left.1 hdisj hn)
    · refine ihr (ho.sub (Multiset.le_add_left ms ns) fun x n hx hn hh => hh.resolve_left ?_) hs.proc hb
      have hmem : n ∈ ns + ms := Multiset.mem_add.2 (.inr hn)
      exact hl.not_holds he hs.kid.still hx (ho.input n hmem) (ho.output n hmem) (Multiset.disjoint_right.1 hdisj hn)
  | back _ hp ih =>
    obtain rfl | rfl := hp
    · exact (hs _ _ (.proc (.call .exit))).elim
    · refine ih (ho.sub le_rfl fun x n _ _ hh => ?_) hs.kid.still (hb.resolve_right fun h => by cases h)
      exact hh.resolve_right id
  | @left left right i o n ns L kid p hl hp ih =>
    obtain rfl | ⟨-, rfl⟩ := hp
    · exact (hs _ _ (.proc .fork1)).elim
    · have hmem := Multiset.mem_cons_self n ns
      have hsub : Owns held i (.writeEnd n) ns kid := by
        have hle := Multiset.le_cons_self ns n
        refine ho.part hle (fun m hm => ho.input m (Multiset.mem_of_le hle hm)) ?_ fun x m _ _ hh => hh.resolve_right id
        rintro m hm ⟨⟩
        exact (Multiset.nodup_cons.1 ho.nodup).1 hm
      obtain h | h := ih hsub hs.kid.still (hb.resolve_right fun h => by cases h)
      · exact .inl h
      -- nobody has the other end of the pipe open
      · obtain hx | hx := ho.only _ n rfl hmem h.2
        · obtain rfl | hx | hx := hl.holds he hs.kid.still hx rfl
          · exact (ho.input n hmem rfl).elim
          · cases hx
          · exact ((Multiset.nodup_cons.1 ho.nodup).1 hx).elim
        · exact hx.elim
  | @both left right i o n ns ms L M a b kid kid' p hl hr hp ihl ihr =>
    obtain ⟨hn, hnodup⟩ := Multiset.nodup_cons.1 ho.nodup
    have hdisj := (Multiset.nodup_add.1 hnodup).2.2
    have hnl : n ∉ ns := fun h => hn (Multiset.mem_add.2 (.inl h))
    have hnr : n ∉ ms := fun h => hn (Multiset.mem_add.2 (.inr h))
    have hle := Multiset.le_cons_self (ns + ms) n
    have hmem := Multiset.mem_cons_self n (ns + ms)
    have hself : ∀ x m, x.pipe? = some m → m ∈ n ::ₘ (ns + ms) → ¬ p.Holds x := fun x m hx hm hh =>
      ho.not_std he hx hm (hp.holds hs.proc.proc hh)
    have hsubl : Owns held i (.writeEnd n) ns kid := by
      have hle := (Multiset.le_add_right ns ms).trans hle
      refine ho.part hle (fun m hm => ho.input m (Multiset.mem_of_le hle hm)) ?_ fun x m hx hm hh => hh.resolve_right ?_
      · rintro m hm ⟨⟩
        exact hnl hm
      · rintro (hh | hh)
        · refine hr.not_holds he hs.proc.kid.still hx ?_ (ho.output m (Multiset.mem_of_le hle hm)) ?_ hh
          · rintro ⟨⟩
            exact hnl hm
          · exact Multiset.disjoint_left.1 hdisj hm
        · exact hself x m hx (Multiset.mem_of_le hle hm) hh
    have hsubr : Owns held (.readEnd n) o ms kid' := by
      have hle := (Multiset.le_add_left ms ns).trans hle
      refine ho.part hle ?_ (fun m hm => ho.output m (Multiset.mem_of_le hle hm)) fun x m hx hm hh => ?_
      · rintro m hm ⟨⟩
        exact hnr hm
      · obtain hh | hh | hh := hh
        · refine (hl.not_holds he hs.kid.still hx (ho.input m (Multiset.mem_of_le hle hm)) ?_ ?_ hh).elim
          · rintro ⟨⟩
            exact hnr hm
          · exact Multiset.disjoint_right.1 hdisj hm
        · exact hh
        · exact (hself x m hx (Multiset.mem_of_le hle hm) hh).elim
    have hb : kid.Busy ∨ kid'.Busy := by
      obtain hb | hb | hb := hb
      · exact .inl hb
      · exact .inr hb
      · cases hp <;> cases hb
    refine pipe_blocked hl hr he (ho.input n hmem) (ho.output n hmem) hnl hnr hs.kid hs.proc.kid (fun x hx hh => ?_)
      (ihl hsubl hs.kid.still) (ihr hsubr hs.proc.kid.still) hb
    obtain h | h | h := ho.only x n hx hmem hh
    · exact .inl h
    · exact .inr h
    · exact (hself x n hx hmem h).elim

/-- **A line never deadlocks**: in every state that its processes reach, if some process has not exited then some process
can take a step. -/
theorem never_stuck {line : List Char} {s : Jobs} (hp : parsecmd line = .ok cmd) (h : Reaches cmd s) (hl : s.job.Live) :
    ∃ t, s.Step t := by
  by_contra hno
  have hs : Stuck (fun x => s.job.Holds x) s.world s.job :=
    ⟨fun w job hm => hno ⟨_, .move hm⟩, fun job hw => hno ⟨_, .wait hw⟩⟩
  obtain ⟨ns, hi⟩ := h.inv (parsecmd_plain hp)
  have ho : Owns (fun x => s.job.Holds x) (.given 0) (.given 1) ns s.job :=
    ⟨hi.nodup, fun _ _ h => (by cases h), fun _ _ h => (by cases h), fun _ _ _ _ h => h⟩
  exact (hi.runs.blocked rfl ho hs.still (hs.busy hl)).elim id id

theorem never_stuck_pipe : ∃ s, Reaches lsWc s ∧ s.job.Live ∧ ∃ t, s.Step t := by
  obtain ⟨s, h, -, hl⟩ := lsWc_reaches
  exact ⟨s, h, hl, never_stuck lsWc_line h hl⟩

end NewXv6.Sh
