import Mathlib.Algebra.Order.Group.Multiset
import NewXv6.Sh.Jobs
import NewXv6.Sh.Plain

/-!
# A command's programs are wired as the line says

`Wired cmd i o ns progs`: with standard input `i` and output `o`, the programs of `cmd` are started as `progs`, with their
arguments and descriptors, and are joined by the pipes `ns`. `Runs` is the invariant of the tree of processes from which
this follows (`Runs.wired`), kept by every step (`Runs.move`, `Runs.wait`).
-/

namespace NewXv6.Sh

/-! ## What a line means -/

def Redir.stdin (r : Redir) (i : Obj) : Obj := if r.fd = 0 then .file r.file r.mode else i

def Redir.stdout (r : Redir) (o : Obj) : Obj := if r.fd = 1 then .file r.file r.mode else o

/-- The programs of a command, and the pipes between them. Where `gap` holds, some may be missing. -/
inductive Wired (e : Obj) (gap : Prop) : Cmd → Obj → Obj → Multiset Nat → Multiset (List Word × Fds) → Prop
  | gap {cmd : Cmd} {i o : Obj} {ns : Multiset Nat} : gap → Wired e gap cmd i o ns 0
  | empty {i o : Obj} : Wired e gap (.exec []) i o 0 0
  | exec {argv : List Word} {i o : Obj} : argv ≠ [] → Wired e gap (.exec argv) i o 0 {(argv, std i o e)}
  | redir {cmd : Cmd} {r : Redir} {i o : Obj} {ns : Multiset Nat} {L : Multiset (List Word × Fds)} :
    Wired e gap cmd (r.stdin i) (r.stdout o) ns L → Wired e gap (.redir cmd r) i o ns L
  | pipe {left right : Cmd} {i o : Obj} {n : Nat} {ns ms : Multiset Nat} {L M : Multiset (List Word × Fds)} :
    Wired e gap left i (.writeEnd n) ns L → Wired e gap right (.readEnd n) o ms M →
    Wired e gap (.pipe left right) i o (n ::ₘ (ns + ms)) (L + M)
  | list {left right : Cmd} {i o : Obj} {ns ms : Multiset Nat} {L M : Multiset (List Word × Fds)} :
    Wired e gap left i o ns L → Wired e gap right i o ms M → Wired e gap (.list left right) i o (ns + ms) (L + M)
  | back {cmd : Cmd} {i o : Obj} {ns : Multiset Nat} {L : Multiset (List Word × Fds)} :
    Wired e gap cmd i o ns L → Wired e gap (.back cmd) i o ns L

theorem Wired.mono {e i o : Obj} {gap gap' : Prop} {cmd : Cmd} {ns : Multiset Nat} {L : Multiset (List Word × Fds)}
    (h : Wired e gap cmd i o ns L) (hg : gap → gap') : Wired e gap' cmd i o ns L := by
  induction h with
  | gap h => exact .gap (hg h)
  | empty => exact .empty
  | exec h => exact .exec h
  | redir _ ih => exact .redir ih
  | pipe _ _ ihl ihr => exact .pipe ihl ihr
  | list _ _ ihl ihr => exact .list ihl ihr
  | back _ ih => exact .back ih

/-! ## Descriptors -/

section

variable {i o e x : Obj} {n : Nat}

/-- Descriptors after `pipe(p)`: `p[0]` is 3 and `p[1]` is 4. -/
def piped (i o e : Obj) (n : Nat) : Fds := fun fd => [i, o, e, .readEnd n, .writeEnd n][fd]?

theorem std_fdalloc : (std i o e).fdalloc x = some (3, fun fd => [i, o, e, x][fd]?) := by
  refine congrArg some (congrArg (Prod.mk 3) (funext fun fd => ?_))
  rcases fd with _ | _ | _ | _ | fd <;> rfl

theorem piped_fdalloc :
    Fds.fdalloc (fun fd => [i, o, e, .readEnd n][fd]?) (.writeEnd n) = some (4, piped i o e n) := by
  refine congrArg some (congrArg (Prod.mk 4) (funext fun fd => ?_))
  rcases fd with _ | _ | _ | _ | _ | fd <;> rfl

theorem std_mem {fd : Nat} (h : std i o e fd = some x) : x = i ∨ x = o ∨ x = e := by
  have hm := List.mem_of_getElem? h
  simpa using hm

/-- Standard error is no end of a pipe. -/
theorem std_pipe {fd : Nat} (he : e.pipe? = none) (h : std i o e fd = some x) (hx : x.pipe? ≠ none) : x = i ∨ x = o := by
  obtain h | h | rfl := std_mem h
  · exact .inl h
  · exact .inr h
  · exact absurd he hx

/-- `close(0)` and `open`. -/
theorem std_stdin : ((std i o e).close 0).fdalloc x = some (0, std x o e) := by
  refine congrArg some (congrArg (Prod.mk 0) (funext fun fd => ?_))
  rcases fd with _ | fd <;> rfl

/-- `close(1)` and `open`. -/
theorem std_stdout : ((std i o e).close 1).fdalloc x = some (1, std i x e) := by
  refine congrArg some (congrArg (Prod.mk 1) (funext fun fd => ?_))
  rcases fd with _ | _ | fd <;> rfl

theorem piped_close : ((piped i o e n).close 3).close 4 = std i o e := by
  funext fd
  rcases fd with _ | _ | _ | _ | _ | fd <;> rfl

theorem piped_left : ((((piped i o e n).close 1).dup 4).close 3).close 4 = std i (.writeEnd n) e := by
  funext fd
  rcases fd with _ | _ | _ | _ | _ | fd <;> rfl

theorem piped_right : ((((piped i o e n).close 0).dup 3).close 3).close 4 = std (.readEnd n) o e := by
  funext fd
  rcases fd with _ | _ | _ | _ | _ | fd <;> rfl

end

/-! ## The invariant -/

/-- A process is about to run `cmd` with descriptors `goal`. -/
inductive Setup (cmd : Cmd) (goal : Fds) : List Op → Fds → Prop
  | run : Setup cmd goal [.runcmd cmd] goal
  | close {fd : Nat} {ops : List Op} {f : Fds} : Setup cmd goal ops (f.close fd) → Setup cmd goal (.close fd :: ops) f
  | dup {fd : Nat} {ops : List Op} {f : Fds} : Setup cmd goal ops (f.dup fd) → Setup cmd goal (.dup fd :: ops) f
  | openFile {r : Redir} {ops : List Op} {f g : Fds} {fd : Nat} : f.fdalloc (.file r.file r.mode) = some (fd, g) →
    Setup cmd goal ops g → Setup cmd goal (.openFile r :: ops) f

/-- Programs that have no end of a pipe open but their standard input and output. -/
inductive Tame (i o : Obj) : Job → Prop
  | program {a : Act} {f : Fds} : (∀ fd x, f fd = some x → x.pipe? ≠ none → x = i ∨ x = o) → Tame i o (.self (.program a f))
  | zombie : Tame i o (.self .zombie)
  | child {reaped : Bool} {kid proc : Job} : Tame i o kid → Tame i o proc → Tame i o (.child reaped kid proc)

/-- The process that made pipe `n` once it has forked both children; `a` and `b` tell whether they were reaped. -/
inductive Closes (n : Nat) (i o e : Obj) : Bool → Bool → Proc → Prop
  | close0 : Closes n i o e false false (.shell [.close 3, .close 4, .wait, .wait] (piped i o e n))
  | close1 : Closes n i o e false false (.shell [.close 4, .wait, .wait] ((piped i o e n).close 3))
  | wait0 : Closes n i o e false false (.shell [.wait, .wait] (std i o e))
  | wait1 {a b : Bool} : a ≠ b → Closes n i o e a b (.shell [.wait] (std i o e))
  | exit : Closes n i o e true true (.shell [] (std i o e))
  | zombie : Closes n i o e true true .zombie

/-- The processes `job` run `cmd` with standard input `i` and output `o`: so far they have made the pipes `ns` and started
the programs `L`. -/
inductive Runs (e : Obj) (failed : Bool) : Cmd → Obj → Obj → Multiset Nat → Multiset (List Word × Fds) → Job → Prop
  | setup {cmd : Cmd} {i o : Obj} {ops : List Op} {f : Fds} : Setup cmd (std i o e) ops f →
    Runs e failed cmd i o 0 0 (.self (.shell ops f))
  | failed {cmd : Cmd} {i o : Obj} {ns : Multiset Nat} : failed = true → Runs e failed cmd i o ns 0 (.self .zombie)
  | empty {i o : Obj} {p : Proc} : p = .shell [] (std i o e) ∨ p = .zombie → Runs e failed (.exec []) i o 0 0 (.self p)
  | exec {argv : List Word} {i o : Obj} : argv ≠ [] →
    Runs e failed (.exec argv) i o 0 0 (.self (.shell [.exec argv] (std i o e)))
  | program {argv : List Word} {i o : Obj} {job : Job} : argv ≠ [] → Tame i o job →
    Runs e failed (.exec argv) i o 0 {(argv, std i o e)} job
  | redir {cmd : Cmd} {r : Redir} {i o : Obj} {ns : Multiset Nat} {L : Multiset (List Word × Fds)} {job : Job} :
    Runs e failed cmd (r.stdin i) (r.stdout o) ns L job → Runs e failed (.redir cmd r) i o ns L job
  | fork {left right : Cmd} {i o : Obj} :
    Runs e failed (.list left right) i o 0 0 (.self (.shell [.fork1 [.runcmd left], .wait, .runcmd right] (std i o e)))
  | waits {left right : Cmd} {i o : Obj} {ns : Multiset Nat} {L : Multiset (List Word × Fds)} {kid : Job} :
    Runs e failed left i o ns L kid →
    Runs e failed (.list left right) i o ns L (.child false kid (.self (.shell [.wait, .runcmd right] (std i o e))))
  | list {left right : Cmd} {i o : Obj} {ns ms : Multiset Nat} {L M : Multiset (List Word × Fds)} {kid proc : Job} :
    Runs e failed left i o ns L kid → Runs e failed right i o ms M proc →
    Runs e failed (.list left right) i o (ns + ms) (L + M) (.child true kid proc)
  | detach {cmd : Cmd} {i o : Obj} : Runs e failed (.back cmd) i o 0 0 (.self (.shell [.fork1 [.runcmd cmd]] (std i o e)))
  | back {cmd : Cmd} {i o : Obj} {ns : Multiset Nat} {L : Multiset (List Word × Fds)} {kid : Job} {p : Proc} :
    Runs e failed cmd i o ns L kid → p = .shell [] (std i o e) ∨ p = .zombie →
    Runs e failed (.back cmd) i o ns L (.child false kid (.self p))
  | pipe {left right : Cmd} {i o : Obj} : Runs e failed (.pipe left right) i o 0 0 (.self (.shell [.pipe left right] (std i o e)))
  | forks {left right : Cmd} {i o : Obj} {n : Nat} :
    Runs e failed (.pipe left right) i o {n} 0 (.self (.shell (afterPipe 3 4 left right) (piped i o e n)))
  | left {left right : Cmd} {i o : Obj} {n : Nat} {ns : Multiset Nat} {L : Multiset (List Word × Fds)} {kid : Job} {p : Proc} :
    Runs e failed left i (.writeEnd n) ns L kid →
    p = .shell (afterPipe 3 4 left right).tail (piped i o e n) ∨ failed = true ∧ p = .zombie →
    Runs e failed (.pipe left right) i o (n ::ₘ ns) L (.child false kid (.self p))
  | both {left right : Cmd} {i o : Obj} {n : Nat} {ns ms : Multiset Nat} {L M : Multiset (List Word × Fds)} {a b : Bool}
    {kid kid' : Job} {p : Proc} : Runs e failed left i (.writeEnd n) ns L kid → Runs e failed right (.readEnd n) o ms M kid' →
    Closes n i o e a b p →
    Runs e failed (.pipe left right) i o (n ::ₘ (ns + ms)) (L + M) (.child a kid (.child b kid' (.self p)))

variable {held : Obj → Prop} {e i o : Obj} {w w' : World} {cmd : Cmd} {ns : Multiset Nat} {L : Multiset (List Word × Fds)}
  {job job' : Job}

theorem Runs.mono {b b' : Bool} (h : Runs e b cmd i o ns L job) (hb : b = true → b' = true) :
    Runs e b' cmd i o ns L job := by
  induction h with
  | setup h => exact .setup h
  | failed h => exact .failed (hb h)
  | empty h => exact .empty h
  | exec h => exact .exec h
  | program h ht => exact .program h ht
  | redir _ ih => exact .redir ih
  | fork => exact .fork
  | waits _ ih => exact .waits ih
  | list _ _ ihl ihr => exact .list ihl ihr
  | detach => exact .detach
  | back _ hp ih => exact .back ih hp
  | pipe => exact .pipe
  | forks => exact .forks
  | left _ hp ih => exact .left ih (hp.imp_right fun h => ⟨hb h.1, h.2⟩)
  | both _ _ hp ihl ihr => exact .both ihl ihr hp

/-- The programs that `Runs` has seen are wired; those of the processes that still run `runcmd` may be missing. -/
theorem Runs.wired {b : Bool} (h : Runs e b cmd i o ns L job) : Wired e (b = true ∨ job.HasShell) cmd i o ns L := by
  induction h with
  | setup => exact .gap (.inr ⟨_, _, rfl⟩)
  | failed h => exact .gap (.inl h)
  | empty => exact .empty
  | exec => exact .gap (.inr ⟨_, _, rfl⟩)
  | program h => exact .exec h
  | redir _ ih => exact .redir ih
  | fork => exact .gap (.inr ⟨_, _, rfl⟩)
  | @waits left right i o ns L kid _ ih =>
    have hr : Wired e (b = true ∨ (Job.child false kid (.self (.shell [.wait, .runcmd right] (std i o e)))).HasShell)
        right i o 0 0 := .gap (.inr (.inr ⟨_, _, rfl⟩))
    have hw := Wired.list (ih.mono fun h => h.imp_right Or.inl) hr
    rwa [add_zero, add_zero] at hw
  | list _ _ ihl ihr => exact .list (ihl.mono fun h => h.imp_right .inl) (ihr.mono fun h => h.imp_right .inr)
  | detach => exact .gap (.inr ⟨_, _, rfl⟩)
  | back _ _ ih => exact .back (ih.mono fun h => h.imp_right .inl)
  | pipe => exact .gap (.inr ⟨_, _, rfl⟩)
  | forks => exact .gap (.inr ⟨_, _, rfl⟩)
  | @left left right i o n ns L kid p _ hp ih =>
    have hr : Wired e (b = true ∨ (Job.child false kid (.self p)).HasShell) right (.readEnd n) o 0 0 :=
      .gap (hp.symm.imp And.left fun h => .inr ⟨_, _, h⟩)
    have hw := Wired.pipe (ih.mono fun h => h.imp_right Or.inl) hr
    rwa [add_zero, add_zero] at hw
  | both _ _ _ ihl ihr =>
    exact .pipe (ihl.mono fun h => h.imp_right .inl) (ihr.mono fun h => h.imp_right fun h => .inr (.inl h))

/-! ## `wait` -/

theorem Wait.self {p : Proc} (h : Wait (.self p) job') : ∃ q, p.Waits q ∧ job' = .self q := by
  cases h with
  | reap h => cases h
  | alone _ hq => exact ⟨_, hq, rfl⟩

theorem Wait.child {reaped : Bool} {kid proc : Job} (h : Wait (.child reaped kid proc) job') :
    (reaped = false ∧ ∃ q, proc.process.Waits q ∧ job' = .child true kid (proc.setProcess q)) ∨
    ∃ proc', (Reap proc proc' ∨ reaped = true ∧ Wait proc proc') ∧ job' = .child reaped kid proc' := by
  cases h with
  | reap h =>
    cases h with
    | here _ hq => exact .inl ⟨rfl, _, hq, rfl⟩
    | there h => exact .inr ⟨_, .inl h, rfl⟩
  | alone ha hq => exact .inr ⟨_, .inr ⟨ha.1, .alone ha.2 hq⟩, rfl⟩

theorem Reap.self {p : Proc} (h : Reap (.self p) job') : False := by cases h

theorem Tame.setProcess {q : Proc} (h : Tame i o job) (hq : job.process.Waits q) : Tame i o (job.setProcess q) := by
  induction h with
  | program hf => cases hq; exact .program hf
  | zombie => cases hq
  | child hk _ _ ih => exact .child hk (ih hq)

theorem Tame.wait (h : Tame i o job) (hw : Wait job job') : Tame i o job' := by
  induction h generalizing job' with
  | program hf =>
    obtain ⟨q, hq, rfl⟩ := hw.self
    cases hq
    exact .program hf
  | zombie =>
    obtain ⟨q, hq, rfl⟩ := hw.self
    cases hq
  | child hk hp _ ih =>
    obtain ⟨-, q, hq, rfl⟩ | ⟨proc', hj, rfl⟩ := hw.child
    · exact .child hk (hp.setProcess hq)
    · exact .child hk (ih (hj.elim .reap And.right))

theorem Closes.waits {n : Nat} {a b : Bool} {p q : Proc} (h : Closes n i o e a b p) (hq : p.Waits q) :
    (a = false → Closes n i o e true b q) ∧ (b = false → Closes n i o e a true q) ∧ ¬ (a = true ∧ b = true) := by
  cases h <;> cases hq
  case wait0.shell => exact ⟨fun _ => .wait1 (by decide), fun _ => .wait1 (by decide), by simp⟩
  case wait1.shell hne => cases a <;> cases b <;> simp_all [Closes.exit]

/-- **`wait` keeps the invariant**. -/
theorem Runs.wait {b : Bool} (h : Runs e b cmd i o ns L job) (hw : Wait job job') : Runs e b cmd i o ns L job' := by
  induction h generalizing job' with
  | setup h =>
    obtain ⟨q, hq, rfl⟩ := hw.self
    cases h <;> cases hq
  | failed h =>
    obtain ⟨q, hq, rfl⟩ := hw.self
    cases hq
  | empty h =>
    obtain ⟨q, hq, rfl⟩ := hw.self
    obtain rfl | rfl := h <;> cases hq
  | exec | fork | detach | pipe | forks =>
    obtain ⟨q, hq, rfl⟩ := hw.self
    cases hq
  | program h ht => exact .program h (ht.wait hw)
  | redir _ ih => exact .redir (ih hw)
  | @waits left right i o ns L kid h _ =>
    obtain ⟨-, q, hq, rfl⟩ | ⟨proc', hj, rfl⟩ := hw.child
    · cases hq
      have hr : Runs e b (.list left right) i o (ns + 0) (L + 0) (.child true kid (.self (.shell [.runcmd right] _))) :=
        .list h (.setup .run)
      rwa [add_zero, add_zero] at hr
    · obtain hr | ⟨ha, -⟩ := hj
      · exact hr.self.elim
      · cases ha
  | list hl _ _ ihr =>
    obtain ⟨ha, -⟩ | ⟨proc', hj, rfl⟩ := hw.child
    · cases ha
    · exact .list hl (ihr (hj.elim .reap And.right))
  | back _ hp _ =>
    obtain ⟨-, q, hq, rfl⟩ | ⟨proc', hj, rfl⟩ := hw.child
    · obtain rfl | rfl := hp <;> cases hq
    · obtain hr | ⟨ha, -⟩ := hj
      · exact hr.self.elim
      · cases ha
  | left _ hp _ =>
    obtain ⟨-, q, hq, rfl⟩ | ⟨proc', hj, rfl⟩ := hw.child
    · obtain rfl | ⟨-, rfl⟩ := hp <;> cases hq
    · obtain hr | ⟨ha, -⟩ := hj
      · exact hr.self.elim
      · cases ha
  | both hl hr hp _ _ =>
    obtain ⟨rfl, q, hq, rfl⟩ | ⟨proc', hj, rfl⟩ := hw.child
    · exact .both hl hr ((hp.waits hq).1 rfl)
    · obtain ⟨rfl, q, hq, rfl⟩ | ⟨proc', hj', rfl⟩ := (hj.elim .reap And.right : Wait _ proc').child
      · exact .both hl hr ((hp.waits hq).2.1 rfl)
      · obtain hs | ⟨rfl, hs⟩ := hj'
        · exact hs.self.elim
        · obtain ⟨q, hq, rfl⟩ := hs.self
          obtain hj | ⟨rfl, -⟩ := hj
          · cases hj with
            | there hj => exact hj.self.elim
          · exact ((hp.waits hq).2.2 ⟨rfl, rfl⟩).elim

/-! ## The other steps -/

/-- What a step adds to the pipes and the programs. -/
structure World.Adds (w w' : World) (ps : Multiset Nat) (xs : Multiset (List Word × Fds)) : Prop where
  failed : w.failed = true → w'.failed = true
  next : ps = 0 ∧ w'.next = w.next ∨ ps = {w.next} ∧ w'.next = w.next + 1
  ran : (w'.ran : Multiset (List Word × Fds)) = w.ran + xs

theorem World.Adds.none (hf : w.failed = true → w'.failed = true) (hn : w'.next = w.next) (hr : w'.ran = w.ran) :
    w.Adds w' 0 0 := ⟨hf, .inl ⟨rfl, hn⟩, by rw [hr, add_zero]⟩

/-- A step to `job'` that keeps the invariant. -/
def Keeps (e : Obj) (w w' : World) (cmd : Cmd) (i o : Obj) (ns : Multiset Nat) (L : Multiset (List Word × Fds)) (job' : Job) :
    Prop := ∃ ps xs, w.Adds w' ps xs ∧ Runs e w'.failed cmd i o (ns + ps) (L + xs) job'

theorem Keeps.same (hr : Runs e w.failed cmd i o ns L job') : Keeps e w w cmd i o ns L job' :=
  ⟨0, 0, .none id rfl rfl, by rwa [add_zero, add_zero]⟩

theorem Keeps.failed : Keeps e w { w with failed := true } cmd i o ns 0 (.self .zombie) :=
  ⟨0, 0, .none (fun _ => rfl) rfl rfl, by rw [add_zero, add_zero]; exact .failed rfl⟩

/-- A call of a program leaves `runcmd`'s part of the world as it is. -/
theorem Tame.call {a : Act} {f : Fds} {p' : Proc} (hf : ∀ fd x, f fd = some x → x.pipe? ≠ none → x = i ∨ x = o)
    (hc : Call held w (.program a f) w' p') : w'.failed = w.failed ∧ w'.next = w.next ∧ w'.ran = w.ran ∧ Tame i o (.self p') := by
  cases hc with
  | act | readEof | readOther | writeBroken | writeOther => exact ⟨rfl, rfl, rfl, .program hf⟩
  | other hg =>
    refine ⟨rfl, rfl, rfl, .program fun fd x hx hp => ?_⟩
    obtain ⟨fd', hx'⟩ := hg fd x hx hp
    exact hf fd' x hx' hp
  | leave => exact ⟨rfl, rfl, rfl, .zombie⟩
  | read | write => exact ⟨rfl, rfl, rfl, .program hf⟩

theorem Tame.move (h : Tame i o job) (hm : Move held w job w' job') :
    w'.failed = w.failed ∧ w'.next = w.next ∧ w'.ran = w.ran ∧ Tame i o job' := by
  induction h generalizing job' with
  | program hf =>
    cases hm with
    | call hc => exact Tame.call hf hc
    | fork => exact ⟨rfl, rfl, rfl, .child (.program hf) (.program hf)⟩
  | zombie => cases hm with
    | call hc => cases hc
  | child hk hp ihk ihp =>
    cases hm with
    | kid hm =>
      obtain ⟨h1, h2, h3, h4⟩ := ihk hm
      exact ⟨h1, h2, h3, .child h4 hp⟩
    | wait hw => exact ⟨rfl, rfl, rfl, .child (hk.wait hw) hp⟩
    | proc hm =>
      obtain ⟨h1, h2, h3, h4⟩ := ihp hm
      exact ⟨h1, h2, h3, .child hk h4⟩

theorem Runs.runcmd {b : Bool} (hc : cmd.Plain) : Runs e b cmd i o 0 0 (.self (.shell (runcmd cmd) (std i o e))) := by
  cases cmd with
  | exec argv =>
    cases argv with
    | nil => exact .empty (.inl rfl)
    | cons a argv => exact .exec (by simp)
  | redir cmd r =>
    refine .redir (.setup (.close ?_))
    obtain h | h := hc.1
    · rw [h, Redir.stdin, if_pos h, Redir.stdout, if_neg (by omega)]
      exact .openFile std_stdin .run
    · rw [h, Redir.stdin, if_neg (by omega), Redir.stdout, if_pos h]
      exact .openFile std_stdout .run
  | pipe => exact .pipe
  | list => exact .fork
  | back => exact .detach

theorem Setup.move {ops : List Op} {f : Fds} (h : Setup cmd (std i o e) ops f) (hc : cmd.Plain)
    (hm : Move held w (.self (.shell ops f)) w' job') : Keeps e w w' cmd i o 0 0 job' := by
  cases h with
  | run =>
    cases hm with
    | call hcall => cases hcall with
      | runcmd => exact .same (.runcmd hc)
      | fail h => cases h
  | close h =>
    cases hm with
    | call hcall => cases hcall with
      | close => exact .same (.setup h)
      | fail h => cases h
  | dup h =>
    cases hm with
    | call hcall => cases hcall with
      | dup => exact .same (.setup h)
      | fail h => cases h
  | openFile hf h =>
    cases hm with
    | call hcall => cases hcall with
      | openFile hf' =>
        rw [hf] at hf'
        obtain ⟨-, rfl⟩ := Prod.mk.inj (Option.some.inj hf')
        exact .same (.setup h)
      | fail => exact .failed

/-- A step of a part of the tree. -/
theorem Keeps.part {cmd' : Cmd} {i' o' : Obj} {ns' : Multiset Nat} {L' : Multiset (List Word × Fds)} {job : Job}
    (h : Keeps e w w' cmd i o ns L job)
    (hr : ∀ ps xs, w.Adds w' ps xs → Runs e w'.failed cmd i o (ns + ps) (L + xs) job →
      Runs e w'.failed cmd' i' o' (ns' + ps) (L' + xs) job') : Keeps e w w' cmd' i' o' ns' L' job' := by
  obtain ⟨ps, xs, ha, h⟩ := h
  exact ⟨ps, xs, ha, hr ps xs ha h⟩

theorem Closes.move {n : Nat} {a b : Bool} {p : Proc} (h : Closes n i o e a b p) (hm : Move held w (.self p) w' job') :
    w' = w ∧ ∃ q, Closes n i o e a b q ∧ job' = .self q := by
  cases h with
  | close0 => cases hm with
    | call hcall => cases hcall with
      | close => exact ⟨rfl, _, .close1, rfl⟩
      | fail h => cases h
  | close1 => cases hm with
    | call hcall => cases hcall with
      | close => rw [piped_close]; exact ⟨rfl, _, .wait0, rfl⟩
      | fail h => cases h
  | wait0 | wait1 => cases hm with
    | call hcall => cases hcall with
      | fail h => cases h
  | exit => cases hm with
    | call hcall => cases hcall with
      | exit => exact ⟨rfl, _, .zombie, rfl⟩
  | zombie => cases hm with
    | call hcall => cases hcall

theorem setup_left {b : Bool} {n : Nat} {left : Cmd} :
    Runs e b left i (.writeEnd n) 0 0 (.self (.shell (leftChild 3 4 left) (piped i o e n))) :=
  .setup (.close (.dup (.close (.close (piped_left ▸ .run)))))

theorem setup_right {b : Bool} {n : Nat} {right : Cmd} :
    Runs e b right (.readEnd n) o 0 0 (.self (.shell (rightChild 3 4 right) (piped i o e n))) :=
  .setup (.close (.dup (.close (.close (piped_right ▸ .run)))))

/-- The second child of a pipe is forked. -/
theorem Runs.forked {b : Bool} {n : Nat} {left right : Cmd} {kid : Job} (hl : Runs e b left i (.writeEnd n) ns L kid) :
    Runs e b (.pipe left right) i o (n ::ₘ ns) L (.child false kid
      (.child false (.self (.shell (rightChild 3 4 right) (piped i o e n)))
        (.self (.shell [.close 3, .close 4, .wait, .wait] (piped i o e n))))) := by
  have hr : Runs e b right (.readEnd n) o 0 0 (.self (.shell (rightChild 3 4 right) (piped i o e n))) := setup_right
  have hb := Runs.both hl hr .close0
  rwa [add_zero, add_zero] at hb

/-- **Every other step keeps the invariant**, and adds a pipe or a program at most. -/
theorem Runs.move (he : e.pipe? = none) (h : Runs e w.failed cmd i o ns L job) (hc : cmd.Plain) (hm : Move held w job w' job') :
    Keeps e w w' cmd i o ns L job' := by
  induction h generalizing job' with
  | setup h => exact h.move hc hm
  | failed => cases hm with
    | call hcall => cases hcall
  | empty h =>
    obtain rfl | rfl := h
    · cases hm with
      | call hcall => cases hcall with
        | exit => exact .same (.empty (.inr rfl))
    · cases hm with
      | call hcall => cases hcall
  | exec ha =>
    cases hm with
    | call hcall => cases hcall with
      | exec =>
        refine ⟨0, {_}, ⟨id, .inl ⟨rfl, rfl⟩, by rw [← Multiset.coe_add]; rfl⟩, ?_⟩
        rw [zero_add, zero_add]
        exact .program ha (.program fun fd x hx hp => std_pipe he hx hp)
      | fail => exact .failed
  | program ha ht =>
    obtain ⟨hf, hn, hr, ht⟩ := ht.move hm
    exact ⟨0, 0, .none (fun h => hf.trans h) hn hr, by rw [add_zero, add_zero]; exact .program ha ht⟩
  | redir _ ih => exact (ih hc.2 hm).part fun _ _ _ h => .redir h
  | fork => cases hm with
    | call hcall => cases hcall with
      | fail => exact .failed
    | fork1 => exact .same (.waits (.setup .run))
  | waits hl ih => cases hm with
    | kid hm => exact (ih hc.1 hm).part fun _ _ _ h => .waits h
    | wait hw => exact .same (.waits (hl.wait hw))
    | proc hm => cases hm with
      | call hcall => cases hcall with
        | fail h => cases h
  | @list left right i o ns ms L M kid proc hl hr ihl ihr => cases hm with
    | kid hm =>
      refine (ihl hc.1 hm).part fun ps xs ha h => ?_
      rw [add_right_comm ns, add_right_comm L]
      exact .list h (hr.mono ha.failed)
    | wait hw => exact .same (.list (hl.wait hw) hr)
    | proc hm =>
      refine (ihr hc.2 hm).part fun ps xs ha h => ?_
      rw [add_assoc, add_assoc]
      exact .list (hl.mono ha.failed) h
  | detach => cases hm with
    | call hcall => cases hcall with
      | fail => exact .failed
    | fork1 => exact .same (.back (.setup .run) (.inl rfl))
  | back hk hp ih => cases hm with
    | kid hm => exact (ih hc hm).part fun _ _ _ h => .back h hp
    | wait hw => exact .same (.back (hk.wait hw) hp)
    | proc hm =>
      obtain rfl | rfl := hp
      · cases hm with
        | call hcall => cases hcall with
          | exit => exact .same (.back hk (.inr rfl))
      · cases hm with
        | call hcall => cases hcall
  | pipe => cases hm with
    | call hcall => cases hcall with
      | pipe h0 h1 =>
        rw [std_fdalloc] at h0
        obtain ⟨rfl, rfl⟩ := Prod.mk.inj (Option.some.inj h0)
        rw [piped_fdalloc] at h1
        obtain ⟨rfl, rfl⟩ := Prod.mk.inj (Option.some.inj h1)
        refine ⟨{w.next}, 0, ⟨id, .inr ⟨rfl, rfl⟩, by rw [add_zero]; rfl⟩, ?_⟩
        rw [zero_add, zero_add]
        exact .forks
      | fail => exact .failed
  | forks => cases hm with
    | call hcall => cases hcall with
      | fail => exact .failed
    | fork1 => exact .same (.left setup_left (.inl rfl))
  | left hl hp ih => cases hm with
    | kid hm =>
      refine (ih hc.1 hm).part fun ps xs ha h => ?_
      rw [Multiset.cons_add]
      exact .left h (hp.imp_right fun h => ⟨ha.failed h.1, h.2⟩)
    | wait hw => exact .same (.left (hl.wait hw) hp)
    | proc hm =>
      obtain rfl | ⟨hf, rfl⟩ := hp
      · cases hm with
        | call hcall => cases hcall with
          | fail =>
            refine ⟨0, 0, .none (fun _ => rfl) rfl rfl, ?_⟩
            rw [add_zero, add_zero]
            exact .left (hl.mono fun _ => rfl) (.inr ⟨rfl, rfl⟩)
        | fork1 =>
          exact .same hl.forked
      · cases hm with
        | call hcall => cases hcall
  | @both left right i o n ns ms L M a b kid kid' p hl hr hp ihl ihr => cases hm with
    | kid hm =>
      refine (ihl hc.1 hm).part fun ps xs ha h => ?_
      rw [Multiset.cons_add, add_right_comm ns, add_right_comm L]
      exact .both h (hr.mono ha.failed) hp
    | wait hw => exact .same (.both (hl.wait hw) hr hp)
    | proc hm => cases hm with
      | kid hm =>
        refine (ihr hc.2 hm).part fun ps xs ha h => ?_
        rw [Multiset.cons_add, add_assoc, add_assoc]
        exact .both (hl.mono ha.failed) h hp
      | wait hw => exact .same (.both hl (hr.wait hw) hp)
      | proc hm =>
        obtain ⟨rfl, q, hq, rfl⟩ := hp.move hm
        exact .same (.both hl hr hq)

/-! ## Runs -/

/-- The invariant of the processes of a line. -/
structure Jobs.Inv (cmd : Cmd) (s : Jobs) (ns : Multiset Nat) : Prop where
  runs : Runs (.given 2) s.world.failed cmd (.given 0) (.given 1) ns s.world.ran s.job
  nodup : ns.Nodup
  lt : ∀ n ∈ ns, n < s.world.next

theorem Jobs.Inv.step {s t : Jobs} (h : s.Inv cmd ns) (hc : cmd.Plain) (hs : s.Step t) : ∃ ns', t.Inv cmd ns' := by
  cases hs with
  | wait hw => exact ⟨ns, h.runs.wait hw, h.nodup, h.lt⟩
  | move hm =>
    obtain ⟨ps, xs, ha, hr⟩ := h.runs.move rfl hc hm
    rw [← ha.ran] at hr
    obtain ⟨rfl, hn⟩ | ⟨rfl, hn⟩ := ha.next
    · rw [add_zero] at hr
      exact ⟨ns, hr, h.nodup, fun n hmem => (h.lt n hmem).trans_eq hn.symm⟩
    · refine ⟨ns + {s.world.next}, hr, ?_, fun n hmem => ?_⟩
      · rw [add_comm, Multiset.singleton_add, Multiset.nodup_cons]
        exact ⟨fun hmem => (h.lt _ hmem).false, h.nodup⟩
      · refine Nat.lt_of_lt_of_eq (Nat.lt_succ_of_le ?_) hn.symm
        obtain hmem | hmem := Multiset.mem_add.1 hmem
        · exact (h.lt n hmem).le
        · exact (Multiset.mem_singleton.1 hmem).le

theorem Reaches.inv {s : Jobs} (hc : cmd.Plain) (h : Reaches cmd s) : ∃ ns, s.Inv cmd ns := by
  induction h with
  | refl => exact ⟨0, .setup .run, Multiset.nodup_zero, fun n hn => absurd hn (Multiset.notMem_zero n)⟩
  | tail _ hs ih =>
    obtain ⟨ns, ih⟩ := ih
    exact ih.step hc hs

/-- `ls | wc`. -/
def lsWc : Cmd := .pipe (.exec ["ls".toList]) (.exec ["wc".toList])

theorem lsWc_line : parsecmd "ls | wc".toList = .ok lsWc := by decide +kernel

/-- A run of `ls | wc` up to where `ls` is loaded. -/
theorem lsWc_reaches : ∃ s, Reaches lsWc s ∧
    s.world.ran = [(["ls".toList], std (.given 0) (.writeEnd 0) (.given 2))] ∧ s.job.Live := by
  have h := Relation.ReflTransGen.refl (a := start lsWc) (r := Jobs.Step)
  have h := h.tail (.move (.call .runcmd))
  have h := h.tail (.move (.call (.pipe std_fdalloc piped_fdalloc)))
  have h := h.tail (.move .fork1)
  have h := h.tail (.move (.kid (.call .close)))
  have h := h.tail (.move (.kid (.call .dup)))
  have h := h.tail (.move (.kid (.call .close)))
  have h := h.tail (.move (.kid (.call .close)))
  have h := h.tail (.move (.kid (.call .runcmd)))
  have h := h.tail (.move (.kid (.call .exec)))
  refine ⟨_, h, ?_, .inl (by rintro ⟨⟩)⟩
  rw [piped_left]
  rfl

/-- **The programs of a line are wired as the line says**: in every state that its processes reach, in whatever order they
run and whichever calls fail, the programs that were started are those of the line with its arguments, each with three open
descriptors, which are the ends of one pipe for every `|` of the line, the files of its redirections and else those that
the shell had; and once no process is in `runcmd`, no program is missing unless a call failed. -/
theorem started_wired {line : List Char} {s : Jobs} (hp : parsecmd line = .ok cmd) (h : Reaches cmd s) :
    ∃ ns : Multiset Nat, ns.Nodup ∧
      Wired (.given 2) (s.world.failed = true ∨ s.job.HasShell) cmd (.given 0) (.given 1) ns s.world.ran := by
  obtain ⟨ns, hi⟩ := h.inv (parsecmd_plain hp)
  exact ⟨ns, hi.nodup, hi.runs.wired⟩

theorem started_wired_pipe : ∃ s, Reaches lsWc s ∧
    s.world.ran = [(["ls".toList], std (.given 0) (.writeEnd 0) (.given 2))] ∧ ∃ ns : Multiset Nat, ns.Nodup ∧
      Wired (.given 2) (s.world.failed = true ∨ s.job.HasShell) lsWc (.given 0) (.given 1) ns s.world.ran := by
  obtain ⟨s, h, hran, -⟩ := lsWc_reaches
  exact ⟨s, h, hran, started_wired lsWc_line h⟩

end NewXv6.Sh
