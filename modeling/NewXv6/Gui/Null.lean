import NewXv6.Gui.Active

/-!
# Null window pointers

The active window, the window under the mouse, the bottom window and the new window are used without a check. A run in
which each input finds its window reads no null pointer (`no_null`); without a window, or without a free slot, it does
(`null_read`).
-/

namespace NewXv6.Gui

open Lib

variable {zero : Option Window} {s t : State} {l : List WindowLink} {w : List Event}

/-- A null pointer was read. -/
def Event.isNull : Event → Bool
  | .null _ => true
  | _ => false

/-- The windows an input uses are there: a free slot, a second window, the active window, a window under the mouse. -/
def FindsWindow (s : State) : Input → Prop
  | .createWindow _ position => 0 < s.next_window_id ∧ (position ≠ none → ∃ p, (s.window_array p).window_id ≤ 0)
  | .destroyWindow window_id =>
    ∀ p, s.list_head = some p → window_id = some (s.window_array p).window_id → (s.window_array p).next_window ≠ none
  | .key _ => s.activated_window ≠ none
  | .mouse msg_type x y => (msg_type = MSG_KEYDOWN → s.activated_window ≠ none) ∧ (msg_type ≠ MSG_KEYDOWN →
    ∃ p, 0 < (s.window_array p).window_id ∧ inClientRect (s.window_array p).window_position x y = true)
  | _ => True

instance (s : State) (x : Input) : Decidable (FindsWindow s x) :=
  match x with
  | .createWindow _ _ | .mouse _ _ _ => inferInstanceAs (Decidable (_ ∧ _))
  | .destroyWindow window_id => inferInstanceAs (Decidable (∀ p, s.list_head = some p →
      window_id = some (s.window_array p).window_id → (s.window_array p).next_window ≠ none))
  | .key _ => inferInstanceAs (Decidable (_ ≠ _))
  | .updateWindow _ _ | .updatePartialWindow _ _ _ | .getMsg _ => inferInstanceAs (Decidable True)

/-- No null pointer is read. -/
def noNull : Contract Fault Event where
  assume _ := True
  ensure e := e.isNull = false
  fail _ := True

theorem noNull_lax : Lax noNull :=
  ⟨trivial, trivial, fun _ _ => rfl, fun _ => rfl, fun _ _ _ => rfl, fun _ => rfl⟩

theorem noNull_sends (pid : Int) : Sends noNull pid := ⟨fun _ _ _ => rfl, rfl⟩

/-- An input that finds its windows needs no null pointer. -/
theorem FindsWindow.inputOk {C : Contract Fault Event} (h : Listed s l) {x : Input} (hx : FindsWindow s x)
    (hsends : ∀ pid position, x = .createWindow pid position → Sends C pid) : InputOk C zero s l x := by
  cases x with
  | createWindow pid position =>
    refine ⟨hsends pid position rfl, fun hpos hfull => ?_⟩
    obtain ⟨p, hp⟩ := hx.2 hpos
    have hall : ∀ p, p ∈ l := fun p => by
      by_contra hp
      have hlen := (List.nodup_cons.2 ⟨hp, h.holds.nodup⟩).length_le_card
      rw [Fintype.card_fin, List.length_cons, hfull] at hlen
      exact absurd hlen (Nat.not_succ_le_self _)
    have := (h.mem p).1 (hall p)
    omega
  | destroyWindow window_id =>
    rintro p rfl hid
    exact absurd h.holds.next.1 (hx p h.holds.head hid)
  | key key => exact fun hnone => absurd hnone hx
  | mouse msg_type x y =>
    refine ⟨fun hkey hnone => absurd hnone (hx.1 hkey), fun hne hnone => ?_⟩
    obtain ⟨p, hp, hin⟩ := hx.2 hne
    rw [hnone p ((h.mem p).2 hp)] at hin
    cases hin
  | updateWindow | updatePartialWindow | getMsg => trivial

/-- **One input** that finds its windows. -/
theorem Listed.finds (h : Listed s l) {x : Input} (hx : FindsWindow s x) :
    Wp noNull (input zero x) (fun _ t => ∃ l', Listed t l') s := by
  refine wp_input noNull_lax h (fun _ _ => noNull_sends _) (fun _ _ => noNull_sends _)
    (hx.inputOk h fun pid _ _ => noNull_sends pid) fun t l' ht => ⟨l', ?_⟩
  cases ht with
  | moved ht => exact ht.listed h
  | allocated he _ ht =>
    subst he
    exact ht.listed h hx.1
  | released _ _ ht => exact ht.listed h
  | got _ ht => exact ht.listed h

/-- **No null pointer is read** in a run whose inputs find their windows, and none by a next such input. -/
theorem no_null (zero : Option Window) (width height : Int) (screen : Int → Color) (s : State) (w : List Event)
    (h : Reached (input zero) FindsWindow (init width height screen) s w) :
    (∀ e ∈ w, e.isNull = false) ∧ ∀ x, FindsWindow s x → ∀ e ∈ (input zero x s).2, e.isNull = false := by
  have hlisted : ∀ {s : State} {w : List Event}, Reached (input zero) FindsWindow (init width height screen) s w →
      ∃ l, Listed s l := fun h =>
    h.invariant noNull (fun _ => trivial) (fun s => ∃ l, Listed s l) ⟨[], init_listed width height screen⟩
      fun s x ⟨_, hl⟩ hx => hl.finds hx
  have hnext : ∀ {s : State} {w : List Event}, Reached (input zero) FindsWindow (init width height screen) s w →
      ∀ x, FindsWindow s x → ∀ e ∈ (input zero x s).2, e.isNull = false := by
    intro s w h x hx
    obtain ⟨l, hl⟩ := hlisted h
    exact (hl.finds hx).1.ensure fun _ _ => trivial
  refine ⟨?_, hnext h⟩
  induction h with
  | start => exact nofun
  | step h hx hrun ih =>
    intro e he
    rcases List.mem_append.1 he with he | he
    · exact ih e he
    · refine hnext h _ hx e ?_
      rw [hrun]
      exact he

/-- Two windows, a press in the second one, and the second one is destroyed; no null pointer is read on the way or for a key after
that. -/
theorem no_null_two : ∃ s w, Reached (input none) FindsWindow (init 800 600 fun _ => 0) s w ∧
    s.activated_window = some 0 ∧ (s.window_array 1).pid = 4 ∧ (s.window_array 1).window_id ≤ 0 ∧
    (∀ e ∈ w, e.isNull = false) ∧ ∀ e ∈ (input none (.key 97) s).2, e.isNull = false := by
  have hrun : checkRun (input none) FindsWindow (fun s _ => decide (s.activated_window = some 0 ∧
      (s.window_array 1).pid = 4 ∧ (s.window_array 1).window_id ≤ 0))
      [.createWindow 3 (some ⟨0, 0, 800, 600⟩), .createWindow 4 (some ⟨10, 10, 20, 30⟩), .mouse MSG_MOVE 15 15,
        .mouse MSG_LPRESS 15 15, .key 98, .mouse MSG_LPRESS 100 100, .destroyWindow (some 2)]
      (init 800 600 fun _ => 0) [] = true := by decide +kernel
  obtain ⟨s, w, hreached, hp⟩ := Reached.of_check .start hrun
  obtain ⟨hact, hpid, hid⟩ := of_decide_eq_true hp
  obtain ⟨hsofar, hnext⟩ := no_null none 800 600 _ s w hreached
  exact ⟨s, w, hreached, hact, hpid, hid, hsofar, hnext (.key 97) (show s.activated_window ≠ none by rw [hact]; exact Option.some_ne_none 0)⟩

/-- Null pointers are read when a key is pressed or the mouse moves and there is no window, when the only window is
destroyed, and when a 21st window is created, where the id of the window at address 0 is returned. -/
theorem null_read :
    (input none (.key 97) (init 800 600 fun _ => 0)).2.any Event.isNull = true ∧
    (input none (.mouse MSG_MOVE 5 5) (init 800 600 fun _ => 0)).2.any Event.isNull = true ∧
    (inputs none [.createWindow 3 (some ⟨0, 0, 800, 600⟩), .destroyWindow (some 1)]
      (init 800 600 fun _ => 0)).2.any Event.isNull = true ∧
    (do
      inputs none (List.replicate 20 (.createWindow 3 (some ⟨0, 0, 8, 6⟩)))
      sys_createWindow (some ⟨7, 0, ⟨0, 0, 0, 0⟩, none, none⟩) 3 (some ⟨0, 0, 8, 6⟩) : Act Int).check
      (init 800 600 fun _ => 0) (fun window_id _ => window_id = 7) = true := by
  refine ⟨by decide +kernel, by decide +kernel, by decide +kernel, by decide +kernel⟩

end NewXv6.Gui
