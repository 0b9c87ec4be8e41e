import NewXv6.Gui.Null
import NewXv6.Gui.Relay

/-!
# Windows and messages of processes that are gone

`exit` and `kill` do not look at the window system. So nothing there belongs to a process that is gone as long as every
process destroys its windows and takes its messages before it exits (`exited_gone`), and otherwise its window and its
messages stay (`exited_stays`).
-/

namespace NewXv6.Gui

open Lib

variable {zero : Option Window} {s t : State} {l : List WindowLink} {g : List Pending} {fail : Fault → Prop}

/-! ## The queues in a run of the window system -/

theorem keeps_allocWindow (r : Rect) (pid : Int) : Keeps fail (allocWindow r pid) := by
  refine keeps_get.bind fun s => ?_
  cases (List.finRange MAXWINDOW).find? fun p => decide ((s.window_array p).window_id ≤ 0) with
  | none => exact keeps_pure _
  | some p =>
    refine Keeps.bind (keeps_modify (fun _ => rfl) fun _ => rfl) fun _ => ?_
    refine (keeps_modify (fun s => (pushTail_messages s p).1) fun s => (pushTail_messages s p).2).bind fun _ => ?_
    refine Keeps.bind (keeps_modify (fun _ => rfl) fun _ => rfl) fun _ => ?_
    exact (keeps_createUpdateMsg pid).bind fun _ => keeps_pure _

theorem keeps_getWindowById (hhang : fail .hang) (window_id : Int) : Keeps fail (getWindowById window_id) := by
  refine keeps_get.bind fun s => ?_
  cases seek (fun p => (s.window_array p).next_window) (fun p => (s.window_array p).window_id = window_id) MAXWINDOW
    s.list_head with
  | some p => exact keeps_pure p
  | none => exact keeps_throw hhang

theorem keeps_releaseWindow (hpage : fail .page) (hhang : fail .hang) (window_id : Int) :
    Keeps fail (releaseWindow zero window_id) := by
  refine (keeps_getWindowById hhang window_id).bind fun o => ?_
  cases o with
  | none => exact keeps_pure _
  | some p =>
    refine (keeps_modify (fun s => (unlink_messages s p).1) fun s => (unlink_messages s p).2).bind fun _ => ?_
    refine Keeps.bind (keeps_modify (fun _ => rfl) fun _ => rfl) fun _ => ?_
    exact (keeps_drawScreen hpage).bind fun _ => keeps_pure _

theorem keeps_emit_draw (r clip : Rect) : Keeps fail (Prog.emit (.draw r clip)) := fun _ _ h =>
  (mwp_emit _ _ _ _).2 fun _ => ⟨trivial, h⟩

theorem keeps_drawWindow (p : WindowLink) (context : Int → Color) : Keeps fail (drawWindow p context) := by
  refine keeps_get.bind fun s => (keeps_emit_draw _ _).bind fun _ => ?_
  refine Keeps.bind (keeps_modify (fun _ => rfl) fun _ => rfl) fun _ => ?_
  cases (s.window_array p).next_window with
  | some next => exact keeps_createUpdateMsg _
  | none => exact Keeps.bind (keeps_modify (fun _ => rfl) fun _ => rfl) fun _ => keeps_drawMouse _ _

theorem keeps_drawArea (p : WindowLink) (context : Int → Color) (area : Rect) : Keeps fail (drawArea p context area) := by
  refine keeps_get.bind fun s => (keeps_emit_draw _ _).bind fun _ => ?_
  refine Keeps.bind (keeps_modify (fun _ => rfl) fun _ => rfl) fun _ => ?_
  cases (s.window_array p).next_window with
  | some next => exact keeps_createPartialUpdateMsg _ _ _ _ _
  | none =>
    refine Keeps.bind (fun _ _ h => (mwp_emit _ _ _ _).2 fun _ => ⟨trivial, h⟩) fun _ => ?_
    exact Keeps.bind (keeps_modify (fun _ => rfl) fun _ => rfl) fun _ => keeps_drawMouse _ _

theorem Keeps.discard {α : Type} {m : Act α} (hm : Keeps fail m) : Keeps fail (discard m) := fun s g h => by
  rw [mwp_discard]
  exact hm s g h

/-- **Every input** keeps the queues. -/
theorem keeps_input (hpage : fail .page) (hwild : fail .wild) (hhang : fail .hang) (x : Input) :
    Keeps fail (input zero x) := by
  cases x with
  | createWindow pid position =>
    refine Keeps.discard ?_
    cases position with
    | none => exact keeps_pure _
    | some position =>
      exact (keeps_allocWindow position pid).bind fun p => (keeps_deref hpage _ p).bind fun w => keeps_pure _
  | destroyWindow window_id =>
    refine Keeps.discard ?_
    cases window_id with
    | none => exact keeps_pure _
    | some window_id => exact (keeps_releaseWindow hpage hhang window_id).bind fun b => keeps_pure _
  | updateWindow window_id argptr =>
    refine Keeps.discard ?_
    cases window_id with
    | none => exact keeps_pure _
    | some window_id =>
      refine (keeps_getWindowById hhang window_id).bind fun o => ?_
      cases o with
      | none => exact keeps_pure _
      | some p =>
        refine keeps_get.bind fun s => Keeps.ite (keeps_pure _) ?_
        cases argptr _ with
        | none => exact keeps_pure _
        | some context => exact (keeps_drawWindow p context).bind fun _ => keeps_pure _
  | updatePartialWindow window_id argptr area =>
    refine Keeps.discard ?_
    cases window_id with
    | none => exact keeps_pure _
    | some window_id =>
      refine (keeps_getWindowById hhang window_id).bind fun o => ?_
      cases o with
      | none => exact keeps_pure _
      | some p =>
        refine keeps_get.bind fun s => Keeps.ite (keeps_pure _) ?_
        cases argptr _ with
        | none => exact keeps_pure _
        | some context =>
          cases area with
          | none => exact keeps_pure _
          | some area => exact (keeps_drawArea p context area).bind fun _ => keeps_pure _
  | getMsg pid => exact keeps_getMsg pid
  | key key => exact keeps_createMsg hpage hwild hhang _ _ _ key
  | mouse msg_type x y => exact keeps_createMsg hpage hwild hhang _ _ _ 0

/-! ## Processes -/

/-- The window system and the processes that are gone. -/
structure Life where
  gui : State
  exited : List Int

/-- What happens: an input, or a process is killed or exits. -/
inductive LifeEvent
  | input (x : Input)
  | kill (pid : Int)
  | exit (pid : Int)

/-- `kill` marks a process, and `exit` ends it; both leave the window system as it is. -/
def live (zero : Option Window) : LifeEvent → Prog Life Fault Event Unit
  | .input x => (input zero x).zoom Life.gui fun gui life => { life with gui }
  | .kill _ => pure ()
  | .exit pid => Prog.modify fun life => { life with exited := pid :: life.exited }

/-- Nothing belongs to a process: no window, no entry of the table, no message, and not the active window. -/
structure Gone (s : State) (g : List Pending) (pid : Int) : Prop where
  window : ∃ l, s.links.Holds l ∧ ∀ p ∈ l, (s.window_array p).pid ≠ pid
  entry : ∀ i, (s.MsgTable i).pid ≠ pid
  message : ∀ k, (s.MsgQueue k).msg_type ≠ MSG_UNUSED → ∃ x ∈ g, x.slot = k ∧ x.pid ≠ pid
  activated : ∀ p, s.activated_window = some p → (s.window_array p).pid ≠ pid

/-- Inputs find their windows, and no process that is gone makes a window; a process that exits has no window, no
entry of the table and not the active window. -/
def LeavesNothing (life : Life) : LifeEvent → Prop
  | .input x => FindsWindow life.gui x ∧ ∀ pid position, x = .createWindow pid position → pid ∉ life.exited
  | .kill _ => True
  | .exit pid => pid ≠ -1 ∧ (∀ p, 0 < (life.gui.window_array p).window_id → (life.gui.window_array p).pid ≠ pid) ∧
    (∀ i, (life.gui.MsgTable i).pid ≠ pid) ∧
    ∀ p, life.gui.activated_window = some p → (life.gui.window_array p).pid ≠ pid

/-- The process that an input makes a window for. -/
def creator : Input → Option Int
  | .createWindow pid _ => some pid
  | _ => none

theorem leavesNothing_input (life : Life) (x : Input) :
    LeavesNothing life (.input x) ↔ FindsWindow life.gui x ∧ ∀ pid ∈ creator x, pid ∉ life.exited := by
  refine and_congr_right fun _ => ⟨fun h pid hpid => ?_, fun h pid position hx => ?_⟩
  · cases x with
    | createWindow pid' position =>
      cases hpid
      exact h _ position rfl
    | _ => cases hpid
  · rw [hx] at h
    exact h pid rfl

instance (life : Life) (e : LifeEvent) : Decidable (LeavesNothing life e) :=
  match e with
  | .input x => decidable_of_iff _ (leavesNothing_input life x).symm
  | .kill _ => inferInstanceAs (Decidable True)
  | .exit _ => inferInstanceAs (Decidable (_ ∧ _ ∧ _ ∧ _))

/-- Everything belongs to processes that are not gone. -/
structure Alive (life : Life) (l : List WindowLink) (g : List Pending) : Prop where
  listed : Listed life.gui l
  queued : Queued life.gui g none
  process : -1 ∉ life.exited
  window : ∀ p ∈ l, (life.gui.window_array p).pid ∉ life.exited
  entry : ∀ i, (life.gui.MsgTable i).pid ∉ life.exited
  activated : ∀ p, life.gui.activated_window = some p → (life.gui.window_array p).pid ∉ life.exited

theorem Alive.gone {life : Life} (h : Alive life l g) {pid : Int} (hpid : pid ∈ life.exited) : Gone life.gui g pid := by
  refine ⟨⟨l, h.listed.holds, fun p hp he => h.window p hp (he ▸ hpid)⟩, fun i he => h.entry i (he ▸ hpid),
    fun k hk => ?_, fun p hp he => h.activated p hp (he ▸ hpid)⟩
  obtain ⟨x, hx, hxk⟩ := List.mem_map.1 (((h.queued.used k).1 hk).resolve_right nofun)
  refine ⟨x, hx, hxk, fun he => ?_⟩
  obtain ⟨i, hi⟩ := (h.queued.has x hx).2
  exact h.entry i (hi ▸ he ▸ hpid)

/-- Messages go to processes that are not gone, and no null pointer is read. -/
def toAlive (exited : List Int) : Contract Fault Event where
  assume _ := True
  ensure
    | .accept pid _ _ _ => pid ∉ exited
    | .refuse pid => pid ∉ exited
    | .null _ => False
    | _ => True
  fail _ := True

theorem toAlive_lax (exited : List Int) : Lax (toAlive exited) :=
  ⟨trivial, trivial, fun _ _ => trivial, fun _ => trivial, fun _ _ _ => trivial, fun _ => trivial⟩

theorem toAlive_sends {exited : List Int} {pid : Int} : Sends (toAlive exited) pid ↔ pid ∉ exited :=
  ⟨fun h => h.refuse, fun h => ⟨fun _ _ _ => h, h⟩⟩

/-- **One input** gives nothing to a process that is gone. -/
theorem Stepped.alive {life : Life} {x : Input} {l' : List WindowLink} {g' : List Pending} (h : Alive life l g)
    (hx : LeavesNothing life (.input x)) (ht : Stepped (toAlive life.exited) life.gui l x t l')
    (hq : Queued t g' none) : Alive { life with gui := t } l' g' := by
  have htable : (∀ i, (t.MsgTable i).pid = (life.gui.MsgTable i).pid ∨ Sends (toAlive life.exited) (t.MsgTable i).pid) →
      ∀ i, (t.MsgTable i).pid ∉ life.exited := fun hi i => by
    rcases hi i with he | hs
    · rw [he]
      exact h.entry i
    · exact toAlive_sends.1 hs
  cases ht with
  | moved ht =>
    refine ⟨ht.listed h.listed, hq, h.process, fun p hp => ?_, htable ht.table, fun p hp => ?_⟩
    · show (t.window_array p).pid ∉ life.exited
      rw [(ht.owner p).2]
      exact h.window p (ht.perm.mem_iff.1 hp)
    · show (t.window_array p).pid ∉ life.exited
      rw [(ht.owner p).2]
      rcases ht.activated with he | ⟨q, hq, he⟩ | ⟨he, -⟩
      · exact h.activated p (he.symm.trans hp)
      · cases he.symm.trans hp
        exact h.window p hq
      · cases he.symm.trans hp
  | @allocated r pid p he _ ht =>
    subst he
    have hpid : pid ∉ life.exited := hx.2 pid _ rfl
    refine ⟨ht.listed h.listed hx.1.1, hq, h.process, fun q hq => ?_, htable ht.table, fun q hq => ?_⟩
    · show (t.window_array q).pid ∉ life.exited
      by_cases hqp : q = p
      · rw [hqp, ht.window.2.1]
        exact hpid
      · rw [(ht.other q hqp).pid]
        exact h.window q ((List.mem_append.1 hq).resolve_right fun hc => hqp (List.mem_singleton.1 hc))
    · show (t.window_array q).pid ∉ life.exited
      cases ht.activated.symm.trans hq
      rw [ht.window.2.1]
      exact hpid
  | @released _ p _ _ ht =>
    have howner : ∀ q, (t.window_array q).pid = (life.gui.window_array q).pid := fun q => by
      by_cases hqp : q = p
      · rw [hqp]
        exact ht.owner
      · exact (ht.other q hqp).pid
    refine ⟨ht.listed h.listed, hq, h.process, fun q hq => ?_, htable ht.table, fun q hq => ?_⟩
    · show (t.window_array q).pid ∉ life.exited
      rw [howner q]
      exact h.window q (List.mem_of_mem_erase hq)
    · show (t.window_array q).pid ∉ life.exited
      rw [howner q]
      exact h.activated q (ht.activated.symm.trans hq)
  | got _ ht =>
    have hwin : t.window_array = life.gui.window_array := by rw [ht.rest]
    refine ⟨ht.listed h.listed, hq, h.process, fun p hp => ?_, fun i => ?_, fun p hp => ?_⟩
    · show (t.window_array p).pid ∉ life.exited
      rw [hwin]
      exact h.window p hp
    · rcases ht.table i with he | he
      · show (t.MsgTable i).pid ∉ life.exited
        rw [he]
        exact h.entry i
      · show (t.MsgTable i).pid ∉ life.exited
        rw [he]
        exact h.process
    · show (t.window_array p).pid ∉ life.exited
      rw [hwin]
      refine h.activated p ?_
      rw [← show t.activated_window = life.gui.activated_window by rw [ht.rest]]
      exact hp

/-- A process exits and leaves nothing. -/
theorem Alive.exit {life : Life} {pid : Int} (h : Alive life l g) (hx : LeavesNothing life (.exit pid)) :
    Alive { life with exited := pid :: life.exited } l g := by
  obtain ⟨hpid, hwindow, hentry, hactive⟩ := hx
  have hcons : ∀ {pid' : Int}, pid' ≠ pid → pid' ∉ life.exited → pid' ∉ pid :: life.exited := fun hne hnot hin =>
    (List.mem_cons.1 hin).elim hne hnot
  exact ⟨h.listed, h.queued, hcons hpid.symm h.process, fun p hp => hcons (hwindow p ((h.listed.mem p).1 hp)) (h.window p hp),
    fun i => hcons (hentry i) (h.entry i), fun p hp => hcons (hactive p hp) (h.activated p hp)⟩

/-- The run of an input in a larger state. -/
theorem zoom_input {x : Input} {life life' : Life} {v : List Event} (h : live zero (.input x) life = (.ok ((), life'), v)) :
    ∃ t, input zero x life.gui = (.ok ((), t), v) ∧ life' = { life with gui := t } :=
  @Prog.zoom_ok _ _ _ _ _ Life.gui (fun gui life => { life with gui }) (input zero x) life life' () v h

theorem reached_alive (width height : Int) (screen : Int → Color) {life : Life} {w : List Event}
    (h : Reached (live zero) LeavesNothing ⟨init width height screen, []⟩ life w) :
    (fifo mayFail).Assumed [] w → ∃ l, Alive life l ((fifo mayFail).after [] w) := by
  induction h with
  | start =>
    exact fun _ => ⟨[], init_listed width height screen, (init_noMessages width height screen).queued, nofun, nofun, nofun, nofun⟩
  | @step life life' w v x h hx hrun ih =>
    intro hfew
    obtain ⟨hw, hv⟩ := Monitor.assumed_append.1 hfew
    obtain ⟨l, hl⟩ := ih hw
    rw [Monitor.after_append]
    cases x with
    | input x =>
      obtain ⟨t, ht, rfl⟩ := zoom_input hrun
      have hkeep : Keeps mayFail (input zero x) := keeps_input trivial trivial trivial x
      have hkeeps := (hkeep _ _ hl.queued).2
      rw [ht] at hkeeps
      have hwp : Wp (toAlive life.exited) (input zero x)
          (fun _ t => ∃ l', Stepped (toAlive life.exited) life.gui l x t l') life.gui :=
        wp_input (toAlive_lax _) hl.listed (fun p hp => toAlive_sends.2 (hl.window p hp))
          (fun p hp => toAlive_sends.2 (hl.activated p hp))
          (hx.1.inputOk hl.listed fun pid position he => toAlive_sends.2 (hx.2 pid position he)) fun t l' ht => ⟨l', ht⟩
      obtain ⟨l', hstep⟩ := hwp.run ht fun _ _ => trivial
      exact ⟨l', hstep.alive hl hx (hkeeps hv)⟩
    | kill pid =>
      cases hrun
      exact ⟨l, hl⟩
    | exit pid =>
      cases hrun
      exact ⟨l, hl.exit hx⟩

/-- **Nothing belongs to processes that are gone**, in every run in which each process leaves nothing when it exits. -/
theorem exited_gone (zero : Option Window) (width height : Int) (screen : Int → Color) (life : Life) (w : List Event)
    (h : Reached (live zero) LeavesNothing ⟨init width height screen, []⟩ life w) (hfew : (fifo mayFail).Assumed [] w) :
    ∀ pid ∈ life.exited, Gone life.gui ((fifo mayFail).after [] w) pid := by
  obtain ⟨l, hl⟩ := reached_alive width height screen h hfew
  exact fun pid hpid => hl.gone hpid

/-- Process 4 makes a window, is pressed in it, loses the focus, destroys the window, takes its messages and exits. -/
theorem exited_gone_window : ∃ life w, Reached (live none) LeavesNothing ⟨init 800 600 fun _ => 0, []⟩ life w ∧
    life.exited = [4] ∧ (life.gui.window_array 1).pid = 4 ∧ Gone life.gui ((fifo mayFail).after [] w) 4 := by
  have hrun : checkRun (live none) LeavesNothing (fun life w => decide ((fifo mayFail).Assumed [] w ∧ life.exited = [4] ∧
      (life.gui.window_array 1).pid = 4))
      [.input (.createWindow 3 (some ⟨0, 0, 800, 600⟩)), .input (.createWindow 4 (some ⟨10, 10, 20, 30⟩)),
        .input (.getMsg 4), .input (.mouse MSG_LPRESS 15 15), .input (.mouse MSG_LPRESS 100 100),
        .input (.destroyWindow (some 2)), .input (.getMsg 4), .input (.getMsg 4), .kill 4, .exit 4]
      ⟨init 800 600 fun _ => 0, []⟩ [] = true := by decide +kernel
  obtain ⟨life, w, hreached, hp⟩ := Reached.of_check .start hrun
  obtain ⟨hfew, hexit, hpid⟩ := of_decide_eq_true hp
  exact ⟨life, w, hreached, hexit, hpid, exited_gone none 800 600 _ _ _ hreached hfew 4 (by rw [hexit]; decide)⟩

/-- A process makes a window and exits: its window, its message and its entry of the table stay, and its window is the
active one. -/
theorem exited_stays : ∃ life w, Prog.forEach (live none) [.input (.createWindow 3 (some ⟨0, 0, 800, 600⟩)),
      .input (.createWindow 4 (some ⟨10, 10, 20, 30⟩)), .exit 4] ⟨init 800 600 fun _ => 0, []⟩ = (.ok ((), life), w) ∧
    4 ∈ life.exited ∧ 0 < (life.gui.window_array 1).window_id ∧ (life.gui.window_array 1).pid = 4 ∧
    (life.gui.MsgTable 1).pid = 4 ∧ (life.gui.MsgQueue (life.gui.MsgTable 1).first_msg).msg_type ≠ MSG_UNUSED ∧
    life.gui.activated_window = some 1 := by
  have hrun : (Prog.forEach (live none) [.input (.createWindow 3 (some ⟨0, 0, 800, 600⟩)),
      .input (.createWindow 4 (some ⟨10, 10, 20, 30⟩)), .exit 4]).check ⟨init 800 600 fun _ => 0, []⟩
      (fun _ life => 4 ∈ life.exited ∧ 0 < (life.gui.window_array 1).window_id ∧ (life.gui.window_array 1).pid = 4 ∧
        (life.gui.MsgTable 1).pid = 4 ∧ (life.gui.MsgQueue (life.gui.MsgTable 1).first_msg).msg_type ≠ MSG_UNUSED ∧
        life.gui.activated_window = some 1) = true := by decide +kernel
  obtain ⟨_, life, w, h, hp⟩ := Prog.run_of_check hrun
  exact ⟨life, w, h, by simpa using hp⟩

end NewXv6.Gui
