import NewXv6.Gui.Calls
import NewXv6.Gui.Order

/-!
# The active window

`activated_window` is set when a window is created or activated, and stays when a window is destroyed. So it is a window
of the list as long as nobody destroys the active window (`active_listed`), and after that it is not (`active_stale`).
-/

namespace NewXv6.Gui

open Lib

variable {zero : Option Window} {s t : State} {l : List WindowLink} {w : List Event}

/-- The active window is in the list; there is none only if there is no window. -/
def State.ActiveListed (s : State) : Prop :=
  ∃ l, s.links.Holds l ∧ match s.activated_window with
    | some p => p ∈ l
    | none => l = []

/-- The ids have not run out, a destroyed window is not the active one, and a key finds an active window. -/
def KeepsActive (s : State) : Input → Prop
  | .createWindow _ _ => 0 < s.next_window_id
  | .destroyWindow window_id => ∀ p, s.activated_window = some p → window_id ≠ some (s.window_array p).window_id
  | .key _ => s.activated_window ≠ none
  | .mouse msg_type _ _ => msg_type = MSG_KEYDOWN → s.activated_window ≠ none
  | _ => True

instance (s : State) (x : Input) : Decidable (KeepsActive s x) := by
  cases x <;> unfold KeepsActive <;> infer_instance

/-- The windows, the list and the active window of a run. -/
structure Active (s : State) (l : List WindowLink) : Prop where
  listed : Listed s l
  empty : s.activated_window = none → l = []
  mem : ∀ p, s.activated_window = some p → p ∈ l

theorem Active.activeListed (h : Active s l) : s.ActiveListed := by
  refine ⟨l, h.listed.holds, ?_⟩
  cases hp : s.activated_window with
  | none => exact h.empty hp
  | some p => exact h.mem p hp

theorem init_active (width height : Int) (screen : Int → Color) : Active (init width height screen) [] :=
  ⟨init_listed width height screen, fun _ => rfl, nofun⟩

/-- A new window, while there are ids. -/
theorem Allocated.listed {C : Contract Fault Event} {r : Rect} {pid : Int} {p : WindowLink} (h : Listed s l)
    (hnext : 0 < s.next_window_id) (ht : Allocated C s l r pid p t) : Listed t (l ++ [p]) := by
  refine ⟨ht.holds, fun q => ?_⟩
  by_cases hq : q = p
  · subst hq
    rw [ht.window.1]
    simp [hnext]
  · rw [(ht.other q hq).window_id, ← h.mem q]
    simp [hq]

theorem Released.listed {C : Contract Fault Event} {p : WindowLink} (h : Listed s l) (ht : Released C s l p t) :
    Listed t (l.erase p) := by
  refine ⟨ht.holds, fun q => ?_⟩
  by_cases hq : q = p
  · subst hq
    rw [ht.window]
    simp [h.holds.nodup.not_mem_erase]
  · rw [(ht.other q hq).window_id, ← h.mem q, List.mem_erase_of_ne hq]

theorem Got.listed (h : Listed s l) (ht : Got s t) : Listed t l := by
  rw [ht.rest]
  exact ⟨h.holds, h.mem⟩

/-- **One input** keeps the active window in the list. -/
theorem Stepped.active {C : Contract Fault Event} {x : Input} {l' : List WindowLink} (h : Active s l)
    (hx : KeepsActive s x) (ht : Stepped C s l x t l') : Active t l' := by
  cases ht with
  | moved ht =>
    refine ⟨ht.listed h.listed, fun hnone => ?_, fun p hp => ?_⟩
    · rcases ht.activated with he | ⟨p, -, he⟩ | ⟨-, hempty⟩
      · have hl := h.empty (he.symm.trans hnone)
        subst hl
        exact ht.perm.eq_nil
      · rw [he] at hnone
        cases hnone
      · subst hempty
        exact ht.perm.eq_nil
    · rw [ht.perm.mem_iff]
      rcases ht.activated with he | ⟨q, hq, he⟩ | ⟨he, -⟩
      · exact h.mem p (he.symm.trans hp)
      · cases he.symm.trans hp
        exact hq
      · cases he.symm.trans hp
  | allocated he _ ht =>
    subst he
    refine ⟨ht.listed h.listed hx, fun hnone => ?_, fun p hp => ?_⟩
    · cases ht.activated.symm.trans hnone
    · cases ht.activated.symm.trans hp
      exact List.mem_append_right _ (List.mem_singleton_self _)
  | released he hid ht =>
    subst he hid
    refine ⟨ht.listed h.listed, fun hnone => ?_, fun p hp => ?_⟩
    · have hl := h.empty (ht.activated.symm.trans hnone)
      subst hl
      rfl
    · have hact := ht.activated.symm.trans hp
      refine (List.mem_erase_of_ne fun he => hx p hact ?_).2 (h.mem p hact)
      rw [he]
  | got _ ht =>
    have hact : t.activated_window = s.activated_window := by rw [ht.rest]
    exact ⟨ht.listed h.listed, fun hnone => h.empty (hact.symm.trans hnone), fun p hp => h.mem p (hact.symm.trans hp)⟩

theorem anyRun_ok (zero : Option Window) (s : State) (l : List WindowLink) (x : Input) : InputOk anyRun zero s l x := by
  cases x with
  | createWindow pid position => exact ⟨anyRun_sends pid, fun _ _ => anyRun_null zero _⟩
  | destroyWindow window_id => exact fun _ _ _ => anyRun_null zero _
  | key key => exact fun _ => anyRun_null zero _
  | mouse msg_type x y => exact ⟨fun _ _ => anyRun_null zero _, fun _ _ => anyRun_null zero _⟩
  | updateWindow | updatePartialWindow | getMsg => trivial

theorem reached_active (width height : Int) (screen : Int → Color)
    (h : Reached (input zero) KeepsActive (init width height screen) s w) : ∃ l, Active s l := by
  refine h.invariant anyRun (fun _ => trivial) (fun s => ∃ l, Active s l) ⟨[], init_active width height screen⟩ ?_
  rintro s x ⟨l, hl⟩ hx
  exact wp_input anyRun_lax hl.listed (fun _ _ => anyRun_sends _) (fun _ _ => anyRun_sends _) (anyRun_ok zero s l x)
    fun t l' ht => ⟨l', ht.active hl hx⟩

/-- Messages go to the owner of a window of the list. -/
def toWindows (s : State) (l : List WindowLink) : Contract Fault Event where
  assume _ := True
  ensure
    | .accept pid _ _ _ => ∃ p ∈ l, (s.window_array p).pid = pid
    | .refuse pid => ∃ p ∈ l, (s.window_array p).pid = pid
    | .null _ => False
    | _ => True
  fail _ := True

theorem toWindows_lax (s : State) (l : List WindowLink) : Lax (toWindows s l) :=
  ⟨trivial, trivial, fun _ _ => trivial, fun _ => trivial, fun _ _ _ => trivial, fun _ => trivial⟩

theorem toWindows_sends {p : WindowLink} (hp : p ∈ l) : Sends (toWindows s l) (s.window_array p).pid :=
  ⟨fun _ _ _ => ⟨p, hp, rfl⟩, ⟨p, hp, rfl⟩⟩

/-- A key is sent to the owner of a window of the list. -/
theorem Active.key_listed (h : Active s l) (hs : s.activated_window ≠ none) (msg_type x y : Int) (key : UInt8)
    (hkey : msg_type = MSG_KEYDOWN) {pid : Int} {i : MsgIndex} {type : Int} {msg : Concrete}
    (he : .accept pid i type msg ∈ (createMsg zero msg_type x y key s).2) : ∃ p ∈ l, (s.window_array p).pid = pid := by
  have hwp : Wp (toWindows s l) (createMsg zero msg_type x y key) (fun _ _ => True) s :=
    wp_createMsg (toWindows_lax s l) h.listed (fun _ hp => toWindows_sends hp) (fun p hp => toWindows_sends (h.mem p hp))
      (fun _ hnone => absurd hnone hs) (fun hne => absurd hkey hne) fun _ _ _ => trivial
  exact hwp.1.ensure (fun _ _ => trivial) _ he

/-- **Keys go to a live window**, in every run in which the active window is not destroyed. -/
theorem active_listed (zero : Option Window) (width height : Int) (screen : Int → Color) (s : State) (w : List Event)
    (h : Reached (input zero) KeepsActive (init width height screen) s w) :
    s.ActiveListed ∧ ∀ msg_type x y key, msg_type = MSG_KEYDOWN → s.activated_window ≠ none →
      ∀ pid i type msg, .accept pid i type msg ∈ (createMsg zero msg_type x y key s).2 →
        ∃ l, s.links.Holds l ∧ ∃ p ∈ l, (s.window_array p).pid = pid := by
  obtain ⟨l, hl⟩ := reached_active width height screen h
  refine ⟨hl.activeListed, fun msg_type x y key hkey hs pid i type msg he => ?_⟩
  exact ⟨l, hl.listed.holds, hl.key_listed hs msg_type x y key hkey he⟩

/-- The second of two windows is pressed, the first one gets the focus, the second one is destroyed, and a key follows. -/
theorem active_listed_two : ∃ s w, Reached (input none) KeepsActive (init 800 600 fun _ => 0) s w ∧ s.ActiveListed ∧
    s.activated_window = some 0 ∧ (s.window_array 1).window_id ≤ 0 ∧ (s.window_array 1).pid = 4 ∧
    ∀ key, ∀ pid i type msg, .accept pid i type msg ∈ (createMsg none MSG_KEYDOWN 0 0 key s).2 →
      ∃ l, s.links.Holds l ∧ ∃ p ∈ l, (s.window_array p).pid = pid := by
  have hrun : checkRun (input none) KeepsActive (fun s _ => decide (s.activated_window = some 0 ∧
      (s.window_array 1).window_id ≤ 0 ∧ (s.window_array 1).pid = 4))
      [.createWindow 3 (some ⟨0, 0, 800, 600⟩), .createWindow 4 (some ⟨10, 10, 20, 30⟩), .key 97, .mouse MSG_LPRESS 15 15,
        .mouse MSG_LPRESS 100 100, .destroyWindow (some 2), .key 98]
      (init 800 600 fun _ => 0) [] = true := by decide +kernel
  obtain ⟨s, w, hreached, hp⟩ := Reached.of_check .start hrun
  obtain ⟨hact, hid, hpid⟩ := of_decide_eq_true hp
  obtain ⟨hlisted, hkeys⟩ := active_listed none 800 600 _ s w hreached
  exact ⟨s, w, hreached, hlisted, hact, hid, hpid, fun key => hkeys _ 0 0 key rfl (by rw [hact]; exact Option.some_ne_none 0)⟩

theorem send_accepts (pid : Int) (i : MsgIndex) (s : State) :
    .accept pid i (s.MsgQueue i).msg_type (s.MsgQueue i).concrete_msg ∈ (discard (send pid (some i)) s).2 := by
  have hsend : send pid (some i) s = (((dispatch pid i >>= fun _ => pure true) s).1,
      .accept pid i (s.MsgQueue i).msg_type (s.MsgQueue i).concrete_msg ::
        ((dispatch pid i >>= fun _ => pure true) s).2) := rfl
  show _ ∈ (Prog.bind (send pid (some i)) (fun _ => pure ()) s).2
  unfold Prog.bind
  rw [hsend]
  rcases (dispatch pid i >>= fun _ => pure true) s with ⟨e | ⟨b, t⟩, v⟩
  · exact List.mem_cons_self
  · exact List.mem_cons_self

/-- The second of two windows is destroyed: it stays the active window, and a key is sent to its owner, process 4, which
has no window. -/
theorem active_stale : ∃ s w, inputs none [.createWindow 3 (some ⟨0, 0, 800, 600⟩), .createWindow 4 (some ⟨1, 1, 9, 9⟩),
      .destroyWindow (some 2)] (init 800 600 fun _ => 0) = (.ok ((), s), w) ∧ ¬s.ActiveListed ∧
    s.links.Holds [0] ∧ (s.window_array 0).pid = 3 ∧
    ∃ i msg, .accept 4 i MSG_KEYDOWN msg ∈ (input none (.key 97) s).2 := by
  have hrun : (inputs none [.createWindow 3 (some ⟨0, 0, 800, 600⟩), .createWindow 4 (some ⟨1, 1, 9, 9⟩),
      .destroyWindow (some 2)]).check (init 800 600 fun _ => 0)
      (fun _ s => s.list_head = some 0 ∧ s.list_tail = some 0 ∧ (s.window_array 0).next_window = none ∧
        (s.window_array 0).prior_window = none ∧ s.activated_window = some 1 ∧ (s.window_array 0).pid = 3 ∧
        (s.window_array 1).pid = 4 ∧ unusedMsg s = some 3) = true := by decide +kernel
  obtain ⟨_, s, w, h, hs⟩ := Prog.run_of_check hrun
  simp only [decide_eq_true_eq] at hs
  obtain ⟨hhead, htail, hnext, hprior, hact, hpid, hpid', hmsg⟩ := hs
  refine ⟨s, w, h, ?_, ⟨List.nodup_singleton _, hhead, htail, ⟨hnext, trivial⟩, ⟨hprior, trivial⟩⟩, hpid, 3, ?_⟩
  · rintro ⟨l, hl, hmem⟩
    rw [hact] at hmem
    have hl0 : l.head? = some 0 := hl.head.symm.trans hhead
    cases l with
    | nil => cases hmem
    | cons p l =>
      cases hl0
      have hl1 : l.head? = none := hl.next.1.symm.trans hnext
      rw [List.head?_eq_none_iff.1 hl1] at hmem
      exact absurd (List.mem_singleton.1 hmem) (by decide)
  · have hderef : deref none .getActivated s.activated_window s = (.ok (s.window_array 1, s), []) := by
      rw [hact]
      rfl
    have hrequire : requireMsg MSG_KEYDOWN 0 0 97 s = (.ok (some 3, { s with
        MsgQueue := Function.update s.MsgQueue 3 { s.MsgQueue 3 with
          msg_type := MSG_KEYDOWN
          concrete_msg := (s.MsgQueue 3).concrete_msg.setKey 97 } }), []) := by
      rw [requireMsg, Prog.run_bind_ok (Prog.run_get s), hmsg]
      rfl
    refine ⟨((s.MsgQueue 3).concrete_msg.setKey 97), ?_⟩
    show _ ∈ (createMsg none MSG_KEYDOWN 0 0 97 s).2
    rw [createMsg, if_pos rfl, Prog.run_bind_ok (Prog.run_get s), Prog.run_bind_ok hderef, Prog.run_bind_ok hrequire,
      hpid']
    have hsend := send_accepts 4 3 { s with
      MsgQueue := Function.update s.MsgQueue 3 { s.MsgQueue 3 with
        msg_type := MSG_KEYDOWN
        concrete_msg := (s.MsgQueue 3).concrete_msg.setKey 97 } }
    simpa using hsend

end NewXv6.Gui
