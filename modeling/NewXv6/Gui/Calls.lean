import NewXv6.Gui.Spec
import NewXv6.Lib.Reach

/-!
# What an input does to the windows

The system calls, and one lemma for all inputs: an input takes a message, adds a window, takes a window away, or moves
the windows (`wp_input`).
-/

namespace NewXv6.Gui

open Lib

variable {C : Contract Fault Event} {zero : Option Window} {s t u : State} {l l' : List WindowLink} {p : WindowLink}

/-! ## Drawing -/

/-- The window after a window of the list is in the list. -/
theorem Listed.next_mem (h : Listed s l) (hp : p ∈ l) {next : WindowLink}
    (hnext : (s.window_array p).next_window = some next) : next ∈ l := by
  obtain ⟨l₁, l₂, rfl⟩ := List.append_of_mem hp
  have hhead : l₂.head? = some next := h.holds.split.2.symm.trans hnext
  exact List.mem_append_right _ (List.mem_cons_of_mem _ (List.mem_of_head? hhead))

theorem wp_drawWindow (hC : Lax C) (h : Listed s l) (hl : ∀ p ∈ l, Sends C (s.window_array p).pid) (hp : p ∈ l)
    {context : Int → Color} {Q : Unit → State → Prop} (hQ : ∀ t, Moved C s l t l → Q () t) :
    Wp C (drawWindow p context) Q s := by
  simp only [drawWindow, wp_bind, wp_get, wp_emit, wp_modify]
  intro _
  refine ⟨hC.draw _ _, ?_⟩
  generalize paint s.SCREEN_WIDTH (s.window_array p).window_position context
    (pixels (s.window_array p).window_position) s.vesa_buffer = buffer
  generalize hs₁ : ({ s with vesa_buffer := buffer } : State) = s₁
  have hstill : Still s s₁ := by rw [← hs₁]; rfl
  cases hnext : (s.window_array p).next_window with
  | some next =>
    exact wp_createUpdateMsg hC.hang (hl next (h.next_mem hp hnext)) fun t ht => hQ t ((Moved.of_still h hstill).sent ht)
  | none =>
    simp only [wp_bind, wp_modify]
    have hflush : Still s₁ { s₁ with vesa_array := flush s₁ } := rfl
    exact wp_drawMouse fun t ht => hQ t (Moved.of_still h ((hstill.trans hflush).trans ht))

theorem wp_drawArea (hC : Lax C) (h : Listed s l) (hl : ∀ p ∈ l, Sends C (s.window_array p).pid) (hp : p ∈ l)
    {context : Int → Color} {area : Rect} {Q : Unit → State → Prop} (hQ : ∀ t, Moved C s l t l → Q () t) :
    Wp C (drawArea p context area) Q s := by
  simp only [drawArea, wp_bind, wp_get, wp_emit, wp_modify]
  intro _
  refine ⟨hC.draw _ _, ?_⟩
  generalize paint s.SCREEN_WIDTH (s.window_array p).window_position context
    (pixels (getIntersection area (s.window_array p).window_position)) s.vesa_buffer = buffer
  generalize hs₁ : ({ s with vesa_buffer := buffer } : State) = s₁
  have hstill : Still s s₁ := by rw [← hs₁]; rfl
  cases hnext : (s.window_array p).next_window with
  | some next =>
    exact wp_createPartialUpdateMsg hC.hang (hl next (h.next_mem hp hnext)) fun t ht =>
      hQ t ((Moved.of_still h hstill).sent ht)
  | none =>
    simp only [wp_bind, wp_emit, wp_modify]
    have hcopy : Still s₁ { s₁ with
        vesa_array := copyPixels s₁.SCREEN_WIDTH (pixels area) s₁.vesa_buffer s₁.vesa_array } := rfl
    exact fun _ => ⟨hC.copy _, wp_drawMouse fun t ht => hQ t (Moved.of_still h ((hstill.trans hcopy).trans ht))⟩

/-! ## Messages -/

/-- Only messages change, and an entry of the table may become free. -/
structure Got (s t : State) : Prop where
  rest : t = { s with MsgQueue := t.MsgQueue, MsgTable := t.MsgTable }
  table : ∀ i, (t.MsgTable i).pid = (s.MsgTable i).pid ∨ (t.MsgTable i).pid = -1

theorem wp_getMsg (hC : Lax C) {pid : Int} {Q : Unit → State → Prop} (hQ : ∀ t, Got s t → Q () t) :
    Wp C (getMsg pid) Q s := by
  simp only [getMsg, wp_bind, wp_get]
  cases entryOf s pid with
  | none =>
    simp only [wp_emit]
    exact fun _ => ⟨hC.none _, hQ s ⟨rfl, fun _ => Or.inl rfl⟩⟩
  | some i =>
    simp only [wp_bind, wp_emit]
    intro _
    refine ⟨hC.deliver _ _ _, ?_⟩
    cases (s.MsgQueue (s.MsgTable i).first_msg).next_msg with
    | none =>
      simp only [wp_bind, setEntry, setMsg, wp_modify]
      refine hQ _ ⟨rfl, fun k => ?_⟩
      by_cases hk : k = i
      · subst hk
        exact Or.inr (by simp only [Function.update_self])
      · exact Or.inl (by simp only [Function.update_of_ne hk])
    | some next =>
      simp only [wp_bind, setEntry, setMsg, wp_modify]
      refine hQ _ ⟨rfl, fun k => Or.inl ?_⟩
      by_cases hk : k = i
      · subst hk
        simp only [Function.update_self]
      · simp only [Function.update_of_ne hk]

/-! ## System calls -/

/-- What an input does to the windows. -/
inductive Stepped (C : Contract Fault Event) (s : State) (l : List WindowLink) (x : Input) (t : State) :
    List WindowLink → Prop
  | moved {l' : List WindowLink} : Moved C s l t l' → Stepped C s l x t l'
  | allocated {r : Rect} {pid : Int} {p : WindowLink} : x = .createWindow pid (some r) → l.length < MAXWINDOW →
    Allocated C s l r pid p t → Stepped C s l x t (l ++ [p])
  | released {window_id : Int} {p : WindowLink} : x = .destroyWindow (some window_id) →
    (s.window_array p).window_id = window_id → Released C s l p t → Stepped C s l x t (l.erase p)
  | got {pid : Int} : x = .getMsg pid → Got s t → Stepped C s l x t l

/-- What a contract has to allow for an input: messages to the owner of a new window, and its null pointers. -/
def InputOk (C : Contract Fault Event) (zero : Option Window) (s : State) (l : List WindowLink) : Input → Prop
  | .createWindow pid position =>
    Sends C pid ∧ (position ≠ none → l.length = MAXWINDOW → NullOk C zero .createWindow)
  | .destroyWindow window_id =>
    ∀ p, l = [p] → window_id = some (s.window_array p).window_id → NullOk C zero .drawScreen
  | .key _ => s.activated_window = none → NullOk C zero .getActivated
  | .mouse msg_type x y => (msg_type = MSG_KEYDOWN → s.activated_window = none → NullOk C zero .getActivated) ∧
    (msg_type ≠ MSG_KEYDOWN → (∀ p ∈ l, inClientRect (s.window_array p).window_position x y = false) →
      NullOk C zero .getWindowByPoint)
  | _ => True

theorem wp_sys_updateWindow (hC : Lax C) (h : Listed s l) (hl : ∀ p ∈ l, Sends C (s.window_array p).pid)
    {window_id : Option Int} {argptr : Int → Option (Int → Color)} {Q : Int → State → Prop}
    (hQ : ∀ r t, Moved C s l t l → Q r t) : Wp C (sys_updateWindow window_id argptr) Q s := by
  unfold sys_updateWindow
  cases window_id with
  | none => exact (wp_pure _ _ _).2 (hQ _ s (.refl h))
  | some window_id =>
    simp only [wp_bind]
    refine wp_getWindowById h ?_
    cases hf : l.find? fun p => (s.window_array p).window_id = window_id with
    | none => exact (wp_pure _ _ _).2 (hQ _ s (.refl h))
    | some p =>
      simp only [wp_bind, wp_get, wp_ite, wp_pure]
      refine ⟨fun _ => hQ _ s (.refl h), fun _ => ?_⟩
      cases argptr _ with
      | none => exact (wp_pure _ _ _).2 (hQ _ s (.refl h))
      | some context =>
        simp only [wp_bind, wp_pure]
        exact wp_drawWindow hC h hl (List.mem_of_find?_eq_some hf) fun t ht => hQ _ t ht

theorem wp_sys_updatePartialWindow (hC : Lax C) (h : Listed s l) (hl : ∀ p ∈ l, Sends C (s.window_array p).pid)
    {window_id : Option Int} {argptr : Int → Option (Int → Color)} {area : Option Rect} {Q : Int → State → Prop}
    (hQ : ∀ r t, Moved C s l t l → Q r t) : Wp C (sys_updatePartialWindow window_id argptr area) Q s := by
  unfold sys_updatePartialWindow
  cases window_id with
  | none => exact (wp_pure _ _ _).2 (hQ _ s (.refl h))
  | some window_id =>
    simp only [wp_bind]
    refine wp_getWindowById h ?_
    cases hf : l.find? fun p => (s.window_array p).window_id = window_id with
    | none => exact (wp_pure _ _ _).2 (hQ _ s (.refl h))
    | some p =>
      simp only [wp_bind, wp_get, wp_ite, wp_pure]
      refine ⟨fun _ => hQ _ s (.refl h), fun _ => ?_⟩
      cases argptr _ with
      | none => exact (wp_pure _ _ _).2 (hQ _ s (.refl h))
      | some context =>
        cases area with
        | none => exact (wp_pure _ _ _).2 (hQ _ s (.refl h))
        | some area =>
          simp only [wp_bind, wp_pure]
          exact wp_drawArea hC h hl (List.mem_of_find?_eq_some hf) fun t ht => hQ _ t ht

/-- **One input.** -/
theorem wp_input (hC : Lax C) (h : Listed s l) (hl : ∀ p ∈ l, Sends C (s.window_array p).pid)
    (ha : ∀ p, s.activated_window = some p → Sends C (s.window_array p).pid) {x : Input} (hx : InputOk C zero s l x)
    {Q : Unit → State → Prop} (hQ : ∀ t l', Stepped C s l x t l' → Q () t) : Wp C (input zero x) Q s := by
  cases x with
  | createWindow pid position =>
    simp only [input, wp_discard, sys_createWindow]
    cases position with
    | none => exact (wp_pure _ _ _).2 (hQ s l (.moved (.refl h)))
    | some position =>
      simp only [wp_bind, wp_pure]
      refine wp_allocWindow hC h hx.1 (fun hfull => ?_) fun p t hlt ht => ?_
      · exact wp_deref (fun _ he => by cases he) (fun _ => hx.2 (fun he => by cases he) hfull) fun w _ _ _ => hQ s l (.moved (.refl h))
      · exact wp_deref (fun _ _ => hQ t _ (.allocated rfl hlt ht)) (fun he => by cases he) fun _ he => by cases he
  | destroyWindow window_id =>
    simp only [input, wp_discard, sys_destroyWindow]
    cases window_id with
    | none => exact (wp_pure _ _ _).2 (hQ s l (.moved (.refl h)))
    | some window_id =>
      simp only [wp_bind, wp_pure]
      refine wp_releaseWindow hC h hl (fun p hone hid => hx p hone (congrArg some hid.symm)) (fun _ => ?_) fun p t hf ht => ?_
      · exact hQ s l (.moved (.refl h))
      · exact hQ t _ (.released rfl (by simpa using List.find?_some hf) ht)
  | updateWindow window_id argptr =>
    simp only [input, wp_discard]
    exact wp_sys_updateWindow hC h hl fun _ t ht => hQ t l (.moved ht)
  | updatePartialWindow window_id argptr area =>
    simp only [input, wp_discard]
    exact wp_sys_updatePartialWindow hC h hl fun _ t ht => hQ t l (.moved ht)
  | getMsg pid => exact wp_getMsg hC fun t ht => hQ t l (.got rfl ht)
  | key key =>
    exact wp_createMsg hC h hl ha (fun _ hnone => hx hnone) (fun hne => absurd rfl hne) fun t l' ht => hQ t l' (.moved ht)
  | mouse msg_type x y => exact wp_createMsg hC h hl ha hx.1 hx.2 fun t l' ht => hQ t l' (.moved ht)

end NewXv6.Gui
