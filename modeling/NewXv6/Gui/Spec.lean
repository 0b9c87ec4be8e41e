import NewXv6.Gui.List

/-!
# What the window functions do

Specifications under a contract `C` that says which processes may be sent messages (`Sends C pid`) and where a null
pointer may be read (`NullOk`). `Sent` is what a function does that only sends messages, `Allocated` and `Released` are
what `allocWindow` and `releaseWindow` do, and `Moved` is what everything else does to the windows.
-/

namespace NewXv6.Gui

open Lib

variable {C : Contract Fault Event} {zero : Option Window} {s t u : State} {l : List WindowLink} {p : WindowLink}

/-! ## Contracts -/

/-- A process may be sent messages. -/
structure Sends (C : Contract Fault Event) (pid : Int) : Prop where
  accept : ∀ i type msg, C.ensure (.accept pid i type msg)
  refuse : C.ensure (.refuse pid)

/-- A run may stop in a loop or at a write through a null pointer, draw, and take messages. -/
structure Lax (C : Contract Fault Event) : Prop where
  hang : C.fail .hang
  wild : C.fail .wild
  draw : ∀ window clip, C.ensure (.draw window clip)
  copy : ∀ area, C.ensure (.copy area)
  deliver : ∀ pid type msg, C.ensure (.deliver pid type msg)
  none : ∀ pid, C.ensure (.none pid)

/-- A null pointer may be read at a site. -/
structure NullOk (C : Contract Fault Event) (zero : Option Window) (site : Site) : Prop where
  emit : C.assume (.null site) → C.ensure (.null site)
  page : C.assume (.null site) → C.fail .page
  sends : C.assume (.null site) → ∀ w, zero = some w → Sends C w.pid

/-! ## Messages -/

/-- Only messages change, and only processes that may be sent some get an entry in the table. -/
structure Sent (C : Contract Fault Event) (s t : State) : Prop where
  rest : t = { s with MsgQueue := t.MsgQueue, MsgTable := t.MsgTable }
  table : ∀ i, (t.MsgTable i).pid = (s.MsgTable i).pid ∨ Sends C (t.MsgTable i).pid

theorem Sent.refl (C : Contract Fault Event) (s : State) : Sent C s s := ⟨rfl, fun _ => Or.inl rfl⟩

theorem Sent.trans (h : Sent C s t) (h' : Sent C t u) : Sent C s u := by
  refine ⟨?_, fun i => ?_⟩
  · rw [h'.rest, h.rest]
  · rcases h'.table i with he | hs
    · rw [he]
      exact h.table i
    · exact Or.inr hs

theorem Sent.window_array (h : Sent C s t) : t.window_array = s.window_array := by rw [h.rest]

theorem Sent.links (h : Sent C s t) : t.links = s.links := by
  rw [h.rest]
  rfl

theorem Sent.activated_window (h : Sent C s t) : t.activated_window = s.activated_window := by rw [h.rest]

theorem Sent.next_window_id (h : Sent C s t) : t.next_window_id = s.next_window_id := by rw [h.rest]

theorem wp_setMsg {i : MsgIndex} {f : Msg → Msg} {Q : Unit → State → Prop} (hQ : ∀ t, Sent C s t → Q () t) :
    Wp C (setMsg i f) Q s := by
  simp only [setMsg, wp_modify]
  exact hQ _ ⟨rfl, fun _ => Or.inl rfl⟩

theorem wp_requireMsg {msg_type x y : Int} {key : UInt8} {Q : Option MsgIndex → State → Prop}
    (hQ : ∀ o t, Sent C s t → Q o t) : Wp C (requireMsg msg_type x y key) Q s := by
  simp only [requireMsg, wp_bind, wp_get]
  cases unusedMsg s with
  | none => exact (wp_pure _ _ _).2 (hQ _ _ (.refl C s))
  | some i =>
    simp only [wp_bind]
    exact wp_setMsg fun t ht => (wp_pure _ _ _).2 (hQ _ _ ht)

theorem wp_requirePartialUpdateMsg {x1 y1 x2 y2 : Int} {Q : Option MsgIndex → State → Prop}
    (hQ : ∀ o t, Sent C s t → Q o t) : Wp C (requirePartialUpdateMsg x1 y1 x2 y2) Q s := by
  simp only [requirePartialUpdateMsg, wp_bind, wp_get]
  cases unusedMsg s with
  | none => exact (wp_pure _ _ _).2 (hQ _ _ (.refl C s))
  | some i =>
    simp only [wp_bind]
    exact wp_setMsg fun t ht => (wp_pure _ _ _).2 (hQ _ _ ht)

theorem wp_dispatch (hC : C.fail .hang) {pid : Int} (hpid : Sends C pid) {i : MsgIndex} {Q : Unit → State → Prop}
    (hQ : ∀ t, Sent C s t → Q () t) : Wp C (dispatch pid i) Q s := by
  simp only [dispatch, wp_bind, wp_get]
  cases entryOf s pid with
  | some e =>
    dsimp only
    split
    · simp only [wp_bind]
      exact wp_setMsg fun t ht => wp_setMsg fun u hu => hQ u (ht.trans hu)
    · exact (wp_throw _ _ _).2 hC
  | none =>
    cases entryOf s (-1) with
    | none => exact (wp_pure _ _ _).2 (hQ s (.refl C s))
    | some e =>
      simp only [wp_bind, setEntry, wp_modify]
      refine wp_setMsg fun t ht => hQ t (Sent.trans ⟨rfl, fun k => ?_⟩ ht)
      by_cases hk : k = e
      · subst hk
        refine Or.inr ?_
        simp only [Function.update_self]
        exact hpid
      · refine Or.inl ?_
        simp only [Function.update_of_ne hk]

theorem wp_send (hC : C.fail .hang) {pid : Int} (hpid : Sends C pid) {o : Option MsgIndex} {Q : Bool → State → Prop}
    (hQ : ∀ b t, Sent C s t → Q b t) : Wp C (send pid o) Q s := by
  unfold send
  cases o with
  | none =>
    simp only [wp_bind, wp_emit, wp_pure]
    exact fun _ => ⟨hpid.refuse, hQ _ _ (.refl C s)⟩
  | some i =>
    simp only [wp_bind, wp_get, wp_emit, wp_pure]
    exact fun _ => ⟨hpid.accept _ _ _, wp_dispatch hC hpid fun t ht => hQ _ _ ht⟩

theorem wp_createUpdateMsg (hC : C.fail .hang) {pid : Int} (hpid : Sends C pid) {Q : Unit → State → Prop}
    (hQ : ∀ t, Sent C s t → Q () t) : Wp C (createUpdateMsg pid) Q s := by
  simp only [createUpdateMsg, wp_bind, wp_discard]
  exact wp_requireMsg fun _ t ht => wp_send hC hpid fun _ u hu => hQ u (ht.trans hu)

theorem wp_createPartialUpdateMsg (hC : C.fail .hang) {pid x1 y1 x2 y2 : Int} (hpid : Sends C pid) {Q : Unit → State → Prop}
    (hQ : ∀ t, Sent C s t → Q () t) : Wp C (createPartialUpdateMsg pid x1 y1 x2 y2) Q s := by
  simp only [createPartialUpdateMsg, wp_bind, wp_discard]
  exact wp_requirePartialUpdateMsg fun _ t ht => wp_send hC hpid fun _ u hu => hQ u (ht.trans hu)

/-! ## Pointers -/

theorem wp_deref {site : Site} {o : Option WindowLink} {Q : Window → State → Prop}
    (hsome : ∀ p, o = some p → Q (s.window_array p) s) (hnull : o = none → NullOk C zero site)
    (hnone : ∀ w, o = none → zero = some w → Sends C w.pid → Q w s) : Wp C (deref zero site o) Q s := by
  unfold deref
  cases o with
  | some p =>
    simp only [wp_bind, wp_get, wp_pure]
    exact hsome p rfl
  | none =>
    simp only [wp_bind, wp_emit]
    intro ha
    refine ⟨(hnull rfl).emit ha, ?_⟩
    cases hz : zero with
    | none => exact (wp_throw _ _ _).2 ((hnull rfl).page ha)
    | some w => exact (wp_pure _ _ _).2 (hnone w rfl hz ((hnull rfl).sends ha w hz))

theorem wp_drawScreen (hC : Lax C) (hhead : s.list_head = l.head?) (hl : ∀ p ∈ l, Sends C (s.window_array p).pid)
    (hnull : l = [] → NullOk C zero .drawScreen) {Q : Unit → State → Prop} (hQ : ∀ t, Sent C s t → Q () t) :
    Wp C (drawScreen zero) Q s := by
  simp only [drawScreen, wp_bind, wp_get]
  refine wp_deref (fun p hp => ?_) (fun hnone => hnull ?_) fun w _ _ hw => wp_createUpdateMsg hC.hang hw hQ
  · rw [hhead] at hp
    exact wp_createUpdateMsg hC.hang (hl p (List.mem_of_head? hp)) hQ
  · rw [hhead] at hnone
    exact List.head?_eq_none_iff.1 hnone

/-! ## Windows -/

theorem wp_getWindowById (h : Listed s l) {window_id : Int} {Q : Option WindowLink → State → Prop}
    (hQ : Q (l.find? fun p => (s.window_array p).window_id = window_id) s) : Wp C (getWindowById window_id) Q s :=
  wp_of_run (getWindowById_run h window_id) nofun hQ

theorem wp_getWindowByPoint (h : Listed s l) {x y : Int} {Q : Option WindowLink → State → Prop}
    (hQ : Q (l.reverse.find? fun p => inClientRect (s.window_array p).window_position x y) s) :
    Wp C (getWindowByPoint x y) Q s :=
  wp_of_run (getWindowByPoint_run h x y) nofun hQ

/-- A free slot. -/
theorem Listed.find_free (h : Listed s l) :
    (∃ p, (List.finRange MAXWINDOW).find? (fun p => decide ((s.window_array p).window_id ≤ 0)) = some p ∧ p ∉ l ∧
      l.length < MAXWINDOW) ∨
    ((List.finRange MAXWINDOW).find? (fun p => decide ((s.window_array p).window_id ≤ 0)) = none ∧
      l.length = MAXWINDOW) := by
  cases hf : (List.finRange MAXWINDOW).find? (fun p => decide ((s.window_array p).window_id ≤ 0)) with
  | some p =>
    have hp := List.find?_some hf
    simp only [decide_eq_true_eq] at hp
    have hpl : p ∉ l := fun hin => by
      have := (h.mem p).1 hin
      omega
    have hlen := (List.nodup_cons.2 ⟨hpl, h.holds.nodup⟩).length_le_card
    rw [Fintype.card_fin] at hlen
    exact Or.inl ⟨p, rfl, hpl, hlen⟩
  | none =>
    have hall : ∀ p, p ∈ l := fun p => by
      have := List.find?_eq_none.1 hf p (List.mem_finRange p)
      simp only [decide_eq_true_eq, not_le] at this
      exact (h.mem p).2 this
    refine Or.inr ⟨rfl, Nat.le_antisymm h.length_le ?_⟩
    have hsub : (List.finRange MAXWINDOW).length ≤ l.length :=
      ((List.nodup_finRange MAXWINDOW).subperm fun p _ => hall p).length_le
    rwa [List.length_finRange] at hsub

/-- What `allocWindow` does when there is a free slot. -/
structure Allocated (C : Contract Fault Event) (s : State) (l : List WindowLink) (r : Rect) (pid : Int) (p : WindowLink)
    (t : State) : Prop where
  fresh : p ∉ l
  holds : t.links.Holds (l ++ [p])
  window : (t.window_array p).window_id = s.next_window_id ∧ (t.window_array p).pid = pid ∧
    (t.window_array p).window_position = r
  other : ∀ q, q ≠ p → (t.window_array q).Same (s.window_array q)
  activated : t.activated_window = some p
  next : t.next_window_id = int (s.next_window_id + 1)
  table : ∀ i, (t.MsgTable i).pid = (s.MsgTable i).pid ∨ Sends C (t.MsgTable i).pid

theorem wp_allocWindow (hC : Lax C) (h : Listed s l) {r : Rect} {pid : Int} (hpid : Sends C pid)
    {Q : Option WindowLink → State → Prop} (hfull : l.length = MAXWINDOW → Q none s)
    (hQ : ∀ p t, l.length < MAXWINDOW → Allocated C s l r pid p t → Q (some p) t) : Wp C (allocWindow r pid) Q s := by
  simp only [allocWindow, wp_bind, wp_get]
  rcases h.find_free with ⟨p, hf, hp, hlen⟩ | ⟨hf, hlen⟩
  · rw [hf]
    simp only [wp_bind, wp_modify, wp_pure]
    refine wp_createUpdateMsg hC.hang hpid fun t ht => hQ p t hlen ?_
    have hne : ∀ q ∈ l, q ≠ p := fun q hq he => hp (he ▸ hq)
    have hlinks : (s.fillWindow p r pid).links.Holds l := by
      refine h.holds.congr rfl rfl (fun q hq => ?_) fun q hq => ?_
      · simp [State.links, State.fillWindow, hne q hq]
      · simp [State.links, State.fillWindow, hne q hq]
    have hpush := pushTail_relinked (s.fillWindow p r pid) p
    have hwin : t.window_array = ((s.fillWindow p r pid).pushTail p).window_array := ht.window_array
    refine ⟨hp, ?_, ?_, fun q hq => ?_, ?_, ?_, ?_⟩
    · rw [ht.links]
      show ((s.fillWindow p r pid).pushTail p).links.Holds _
      rw [pushTail_links]
      exact hlinks.push hp
    · have hsame := hpush.same p
      simp only [State.fillWindow, Function.update_self] at hsame
      rw [hwin]
      exact ⟨hsame.window_id, hsame.pid, hsame.window_position⟩
    · have hsame := hpush.same q
      rw [hwin]
      rwa [show (s.fillWindow p r pid).window_array q = s.window_array q from Function.update_of_ne hq _ _] at hsame
    · exact ht.activated_window
    · rw [ht.next_window_id]
      show ((s.fillWindow p r pid).pushTail p).next_window_id = _
      rw [hpush.rest]
      rfl
    · intro i
      have htable := ht.table i
      have hsame : ((s.fillWindow p r pid).pushTail p).MsgTable = s.MsgTable := by
        rw [hpush.rest]
        rfl
      rwa [show ({ (s.fillWindow p r pid).pushTail p with activated_window := some p } : State).MsgTable = s.MsgTable
        from hsame] at htable
  · rw [hf]
    exact (wp_pure _ _ _).2 (hfull hlen)

/-- What `releaseWindow` does to a window it finds. -/
structure Released (C : Contract Fault Event) (s : State) (l : List WindowLink) (p : WindowLink) (t : State) : Prop where
  mem : p ∈ l
  holds : t.links.Holds (l.erase p)
  window : (t.window_array p).window_id = -1
  owner : (t.window_array p).pid = (s.window_array p).pid
  other : ∀ q, q ≠ p → (t.window_array q).Same (s.window_array q)
  activated : t.activated_window = s.activated_window
  next : t.next_window_id = s.next_window_id
  table : ∀ i, (t.MsgTable i).pid = (s.MsgTable i).pid ∨ Sends C (t.MsgTable i).pid

/-- The list without `p`. -/
theorem Listed.unlink (h : Listed s l) (hp : p ∈ l) : (s.unlink p).links.Holds (l.erase p) := by
  obtain ⟨l₁, l₂, rfl⟩ := List.append_of_mem hp
  have hprior : s.links.prior p ≠ some p := by
    rw [h.holds.split.1]
    intro he
    have hnodup := h.holds.nodup
    exact (List.nodup_append.1 hnodup).2.2 p (List.mem_of_getLast? he) p List.mem_cons_self rfl
  have hnot : p ∉ l₁ := fun hin =>
    (List.nodup_append.1 h.holds.nodup).2.2 p hin p List.mem_cons_self rfl
  rw [unlink_links hprior, List.erase_append_right _ hnot, List.erase_cons_head]
  exact h.holds.unlink

theorem wp_releaseWindow (hC : Lax C) (h : Listed s l) (hl : ∀ p ∈ l, Sends C (s.window_array p).pid) {window_id : Int}
    (hnull : ∀ p, l = [p] → (s.window_array p).window_id = window_id → NullOk C zero .drawScreen)
    {Q : Bool → State → Prop}
    (hnone : l.find? (fun p => (s.window_array p).window_id = window_id) = none → Q false s)
    (hQ : ∀ p t, l.find? (fun p => (s.window_array p).window_id = window_id) = some p → Released C s l p t → Q true t) :
    Wp C (releaseWindow zero window_id) Q s := by
  simp only [releaseWindow, wp_bind]
  refine wp_getWindowById h ?_
  cases hf : l.find? fun p => (s.window_array p).window_id = window_id with
  | none => exact (wp_pure _ _ _).2 (hnone hf)
  | some p =>
    have hp := List.mem_of_find?_eq_some hf
    have hid := List.find?_some hf
    simp only [decide_eq_true_eq] at hid
    have hrel := unlink_relinked s p
    have hlinks : ((s.unlink p).setWindow p fun w => { w with window_id := -1 }).links = (s.unlink p).links :=
      setWindow_links_self _ p rfl rfl
    have hholds : ((s.unlink p).setWindow p fun w => { w with window_id := -1 }).links.Holds (l.erase p) := by
      rw [hlinks]
      exact h.unlink hp
    have hother : ∀ q, q ≠ p → (((s.unlink p).setWindow p fun w => { w with window_id := -1 }).window_array q).Same
        (s.window_array q) := by
      intro q hq
      rw [setWindow_of_ne hq]
      exact hrel.same q
    simp only [wp_bind, wp_modify, wp_pure]
    refine wp_drawScreen hC hholds.head (fun q hq => ?_) (fun hempty => ?_) fun t ht => hQ p t hf ?_
    · have hqp : q ≠ p := fun he => h.holds.nodup.not_mem_erase (he ▸ hq)
      rw [(hother q hqp).pid]
      exact hl q (List.mem_of_mem_erase hq)
    · have hone : l = [p] := by
        have hlen := List.length_erase_of_mem hp
        rw [hempty] at hlen
        obtain ⟨q, rfl⟩ := List.length_eq_one_iff.1 (show l.length = 1 by
          have := List.length_pos_of_mem hp
          simp only [List.length_nil] at hlen
          omega)
        rw [List.mem_singleton.1 hp]
      exact hnull p hone hid
    · refine ⟨hp, ?_, ?_, ?_, fun q hq => ?_, ?_, ?_, fun i => ?_⟩
      · rw [ht.links]
        exact hholds
      · rw [ht.window_array, setWindow_self]
      · rw [ht.window_array, setWindow_self]
        exact (hrel.same p).pid
      · rw [ht.window_array]
        exact hother q hq
      · rw [ht.activated_window]
        show (s.unlink p).activated_window = _
        rw [hrel.rest]
      · rw [ht.next_window_id]
        show (s.unlink p).next_window_id = _
        rw [hrel.rest]
      · have htable := ht.table i
        have hsame : (s.unlink p).MsgTable = s.MsgTable := by rw [hrel.rest]
        rwa [show ((s.unlink p).setWindow p fun w => { w with window_id := -1 }).MsgTable = s.MsgTable from hsame] at htable

/-- The list after `p` was activated: a window that is not the first one becomes the last. -/
def raise (l : List WindowLink) (p : WindowLink) : List WindowLink := if l.head? = some p then l else l.erase p ++ [p]

theorem raise_perm (hp : p ∈ l) : (raise l p).Perm l := by
  unfold raise
  split
  · exact .refl _
  · exact (List.perm_append_comm.trans (List.perm_cons_erase hp).symm)

/-- What `setActivated` does to a window of the list. -/
structure Raised (C : Contract Fault Event) (s : State) (l : List WindowLink) (p : WindowLink) (t : State) : Prop where
  holds : t.links.Holds (raise l p)
  same : ∀ q, (t.window_array q).Same (s.window_array q)
  activated : t.activated_window = some p
  rest : t = { s with
    window_array := t.window_array
    list_head := t.list_head
    list_tail := t.list_tail
    activated_window := t.activated_window
    MsgQueue := t.MsgQueue
    MsgTable := t.MsgTable }
  table : ∀ i, (t.MsgTable i).pid = (s.MsgTable i).pid ∨ Sends C (t.MsgTable i).pid

theorem wp_setActivated (hC : Lax C) (h : Listed s l) (hl : ∀ p ∈ l, Sends C (s.window_array p).pid) (hp : p ∈ l)
    {Q : Unit → State → Prop} (hQ : ∀ t, Raised C s l p t → Q () t) : Wp C (setActivated (some p)) Q s := by
  have hhead : s.list_head = l.head? := h.holds.head
  simp only [setActivated, wp_bind, wp_get, wp_ite, wp_modify]
  refine ⟨fun he => hQ _ ⟨?_, fun _ => .refl _, rfl, rfl, fun _ => Or.inl rfl⟩, fun he => ?_⟩
  · unfold raise
    rw [if_pos (hhead.symm.trans he.symm)]
    exact h.holds
  · have hrel := (unlink_relinked s p).trans (pushTail_relinked (s.unlink p) p)
    have hholds : ((s.unlink p).pushTail p).links.Holds (raise l p) := by
      unfold raise
      rw [if_neg fun hc => he (hhead.trans hc).symm, pushTail_links]
      exact (h.unlink hp).push h.holds.nodup.not_mem_erase
    refine wp_createUpdateMsg hC.hang ?_ fun t ht => hQ t ⟨?_, fun q => ?_, ?_, ?_, fun i => ?_⟩
    · show Sends C (((s.unlink p).pushTail p).window_array p).pid
      rw [(hrel.same p).pid]
      exact hl p hp
    · rw [ht.links]
      exact hholds
    · rw [ht.window_array]
      exact hrel.same q
    · exact ht.activated_window
    · rw [ht.rest]
      show ({ (s.unlink p).pushTail p with activated_window := _, MsgQueue := _, MsgTable := _ } : State) = _
      rw [hrel.rest]
    · have htable := ht.table i
      have hsame : ((s.unlink p).pushTail p).MsgTable = s.MsgTable := by rw [hrel.rest]
      rwa [show ({ (s.unlink p).pushTail p with activated_window := some p } : State).MsgTable = s.MsgTable
        from hsame] at htable

/-! ## Keys and the mouse -/

/-- Nothing changes but the mouse and what is drawn. -/
def Still (s t : State) : Prop :=
  t = { s with
    mouse_x := t.mouse_x
    mouse_y := t.mouse_y
    vesa_array := t.vesa_array
    vesa_buffer := t.vesa_buffer
    mouseX := t.mouseX
    mouseY := t.mouseY }

theorem Still.trans (h : Still s t) (h' : Still t u) : Still s u := by
  unfold Still at *
  rw [h', h]

theorem wp_drawMouse {x y : Int} {Q : Unit → State → Prop} (hQ : ∀ t, Still s t → Q () t) : Wp C (drawMouse x y) Q s := by
  simp only [drawMouse, wp_bind, wp_ite, wp_pure, wp_modify]
  refine ⟨fun _ => hQ s rfl, fun _ => hQ _ ?_⟩
  split <;> rfl

theorem wp_mouseMoved {x y : Int} {Q : Unit → State → Prop} (hQ : ∀ t, Still s t → Q () t) :
    Wp C (mouseMoved x y) Q s := by
  simp only [mouseMoved, wp_bind, wp_modify]
  have h₁ : Still s { s with mouse_x := x, mouse_y := y } := rfl
  exact wp_drawMouse fun t ht => hQ t (h₁.trans ht)

/-- What keys, the mouse and drawing do to the windows: they change places in the list, and one of them is activated. -/
structure Moved (C : Contract Fault Event) (s : State) (l : List WindowLink) (t : State) (l' : List WindowLink) : Prop where
  holds : t.links.Holds l'
  perm : l'.Perm l
  owner : ∀ q, (t.window_array q).window_id = (s.window_array q).window_id ∧
    (t.window_array q).pid = (s.window_array q).pid
  activated : t.activated_window = s.activated_window ∨ (∃ p ∈ l, t.activated_window = some p) ∨
    (t.activated_window = none ∧ l = [])
  next : t.next_window_id = s.next_window_id
  table : ∀ i, (t.MsgTable i).pid = (s.MsgTable i).pid ∨ Sends C (t.MsgTable i).pid

variable {l' : List WindowLink}

theorem Moved.refl (h : Listed s l) : Moved C s l s l :=
  ⟨h.holds, .refl _, fun _ => ⟨rfl, rfl⟩, Or.inl rfl, rfl, fun _ => Or.inl rfl⟩

theorem Moved.listed (h : Listed s l) (ht : Moved C s l t l') : Listed t l' :=
  ⟨ht.holds, fun p => by rw [ht.perm.mem_iff, (ht.owner p).1]; exact h.mem p⟩

theorem Moved.sent (h : Moved C s l t l') (hu : Sent C t u) : Moved C s l u l' := by
  refine ⟨?_, h.perm, fun q => ?_, ?_, ?_, fun i => ?_⟩
  · rw [hu.links]
    exact h.holds
  · rw [hu.window_array]
    exact h.owner q
  · rw [hu.activated_window]
    exact h.activated
  · rw [hu.next_window_id]
    exact h.next
  · rcases hu.table i with he | hs
    · rw [he]
      exact h.table i
    · exact Or.inr hs

theorem Moved.still (h : Moved C s l t l') (hu : Still t u) : Moved C s l u l' := by
  unfold Still at hu
  rw [hu]
  exact ⟨h.holds, h.perm, h.owner, h.activated, h.next, h.table⟩

theorem Moved.of_raised {p : WindowLink} (hp : p ∈ l) (ht : Raised C s l p t) : Moved C s l t (raise l p) := by
  refine ⟨ht.holds, raise_perm hp, fun q => ⟨(ht.same q).window_id, (ht.same q).pid⟩, Or.inr (Or.inl ⟨p, hp, ht.activated⟩),
    ?_, ht.table⟩
  rw [ht.rest]

theorem Moved.of_still (h : Listed s l) (ht : Still s t) : Moved C s l t l := (Moved.refl h).still ht

theorem setPosition_moved (h : Moved C s l t l') (p : WindowLink) (r : Rect) :
    Moved C s l (t.setWindow p fun w => { w with window_position := r }) l' := by
  have hself := fun q (hq : q = p) => by
    subst hq
    exact setWindow_self (s := t) (p := q) fun w => { w with window_position := r }
  have hwin : ∀ q, ((t.setWindow p fun w => { w with window_position := r }).window_array q).window_id =
      (t.window_array q).window_id ∧
      ((t.setWindow p fun w => { w with window_position := r }).window_array q).pid = (t.window_array q).pid ∧
      ((t.setWindow p fun w => { w with window_position := r }).window_array q).prior_window =
        (t.window_array q).prior_window ∧
      ((t.setWindow p fun w => { w with window_position := r }).window_array q).next_window =
        (t.window_array q).next_window := by
    intro q
    by_cases hq : q = p
    · subst hq
      rw [setWindow_self]
      exact ⟨rfl, rfl, rfl, rfl⟩
    · rw [setWindow_of_ne hq]
      exact ⟨rfl, rfl, rfl, rfl⟩
  refine ⟨h.holds.congr rfl rfl (fun q _ => (hwin q).2.2.2) fun q _ => (hwin q).2.2.1, h.perm, fun q => ?_, h.activated,
    h.next, h.table⟩
  rw [(hwin q).1, (hwin q).2.1]
  exact h.owner q

theorem wp_dragWindow (hC : Lax C) (h : Moved C s l t l') (hl : ∀ p ∈ l, Sends C (s.window_array p).pid)
    {p : WindowLink} (hp : p ∈ l) {x y : Int} {Q : Unit → State → Prop} (hQ : ∀ u, Moved C s l u l' → Q () u) :
    Wp C (dragWindow zero p x y) Q t := by
  simp only [dragWindow, wp_bind, wp_get, wp_ite, wp_modify]
  refine ⟨fun _ => wp_mouseMoved fun u hu => hQ u (h.still hu), fun _ => ⟨fun _ => ?_, fun _ =>
    wp_mouseMoved fun u hu => hQ u (h.still hu)⟩⟩
  have hmoved := setPosition_moved h p ((t.window_array p).window_position.move (int (x - t.mouse_x)) (int (y - t.mouse_y)))
  refine wp_drawScreen hC hmoved.holds.head (fun q hq => ?_) (fun hempty => ?_) fun u hu => ?_
  · rw [(hmoved.owner q).2]
    exact hl q (h.perm.mem_iff.1 hq)
  · subst hempty
    exact absurd (h.perm.mem_iff.2 hp) List.not_mem_nil
  · simp only [setMouse, wp_modify]
    exact hQ _ (((hmoved.sent hu).still (u := { u with mouse_x := x, mouse_y := y }) rfl).still rfl)

/-- A key or a mouse event. -/
theorem wp_createMsg (hC : Lax C) (h : Listed s l) (hl : ∀ p ∈ l, Sends C (s.window_array p).pid)
    (ha : ∀ p, s.activated_window = some p → Sends C (s.window_array p).pid) {msg_type x y : Int} {key : UInt8}
    (hkey : msg_type = MSG_KEYDOWN → s.activated_window = none → NullOk C zero .getActivated)
    (hpoint : msg_type ≠ MSG_KEYDOWN → (∀ p ∈ l, inClientRect (s.window_array p).window_position x y = false) →
      NullOk C zero .getWindowByPoint)
    {Q : Unit → State → Prop} (hQ : ∀ t l', Moved C s l t l' → Q () t) : Wp C (createMsg zero msg_type x y key) Q s := by
  simp only [createMsg, wp_ite, wp_bind, wp_get, wp_modify, wp_discard]
  refine ⟨fun hk => ?_, fun hk => ?_⟩
  · have hsend : ∀ pid, Sends C pid →
        Wp C (requireMsg msg_type x y key) (fun o t => Wp C (send pid o) (fun _ t => Q () t) t) s := fun pid hpid =>
      wp_requireMsg fun _ t ht => wp_send hC.hang hpid fun _ u hu => hQ u l ((Moved.refl h).sent (ht.trans hu))
    exact wp_deref (fun p hp => hsend _ (ha p hp)) (hkey hk) fun w _ _ hw => hsend _ hw
  · generalize hs₁ : ({ s with
      mouse_x := if s.mouse_x = -1 then x else s.mouse_x
      mouse_y := if s.mouse_y = -1 then y else s.mouse_y } : State) = s₁
    have hstill : Still s s₁ := by rw [← hs₁]; rfl
    have hmoved : Moved C s l s₁ l := Moved.of_still h hstill
    have h₁ : Listed s₁ l := hmoved.listed h
    have hwin : s₁.window_array = s.window_array := by rw [← hs₁]
    refine wp_getWindowByPoint h₁ ?_
    rw [hwin]
    cases hf : l.reverse.find? fun p => inClientRect (s.window_array p).window_position x y with
    | none =>
      have hnone : ∀ p ∈ l, inClientRect (s.window_array p).window_position x y = false := fun p hp => by
        simpa using List.find?_eq_none.1 hf p (List.mem_reverse.2 hp)
      refine wp_deref (fun _ he => by cases he) (fun _ => hpoint hk hnone) fun w _ _ hw => ⟨fun _ => ?_, fun _ => ⟨fun _ => ?_, fun _ => ?_⟩⟩
      · simp only [setActivated, wp_bind, wp_get, wp_ite, wp_modify, wp_throw]
        refine ⟨fun he => ?_, fun _ => hC.wild⟩
        have hempty : l = [] := by
          have := h₁.holds.head
          exact List.head?_eq_none_iff.1 (this.symm.trans he.symm)
        have hact : Moved C s l { s₁ with activated_window := none } l :=
          ⟨hmoved.holds, .refl _, hmoved.owner, Or.inr (Or.inr ⟨rfl, hempty⟩), hmoved.next, hmoved.table⟩
        refine wp_requireMsg fun _ t ht => wp_send hC.hang hw fun sent u hu => ⟨fun _ => ?_, fun _ => ?_⟩
        · exact wp_mouseMoved fun v hv => hQ v l ((hact.sent (ht.trans hu)).still hv)
        · exact (wp_pure _ _ _).2 (hQ u l (hact.sent (ht.trans hu)))
      · simp only [setActivated, wp_bind, wp_get, wp_ite, wp_modify, wp_throw]
        exact ⟨fun _ => hC.wild, fun _ => hC.wild⟩
      · exact wp_mouseMoved fun t ht => hQ t l (hmoved.still ht)
    | some p =>
      have hp : p ∈ l := List.mem_reverse.1 (List.mem_of_find?_eq_some hf)
      refine wp_deref (fun q hq => ?_) (fun he => by cases he) (fun _ he => by cases he)
      cases hq
      have hpid : Sends C (s₁.window_array p).pid := by
        rw [hwin]
        exact hl p hp
      have hl₁ : ∀ q ∈ l, Sends C (s₁.window_array q).pid := by
        rw [hwin]
        exact hl
      have hraised : ∀ t, Raised C s₁ l p t → Moved C s l t (raise l p) := by
        intro t ht
        have hm := Moved.of_raised hp ht
        refine ⟨hm.holds, hm.perm, fun q => ?_, Or.inr (Or.inl ⟨p, hp, ht.activated⟩), ?_, fun i => ?_⟩
        · rw [(hm.owner q).1, (hm.owner q).2, hwin]
          exact ⟨rfl, rfl⟩
        · rw [hm.next, ← hs₁]
        · have := hm.table i
          rwa [← hs₁] at this
      refine ⟨fun _ => ?_, fun _ => ⟨fun _ => ?_, fun _ => ?_⟩⟩
      · refine wp_setActivated hC h₁ hl₁ hp fun t ht => wp_requireMsg fun _ u hu => wp_send hC.hang hpid fun sent v hv =>
          ⟨fun _ => ?_, fun _ => ?_⟩
        · exact wp_mouseMoved fun w hw => hQ w _ (((hraised t ht).sent (hu.trans hv)).still hw)
        · exact (wp_pure _ _ _).2 (hQ v _ ((hraised t ht).sent (hu.trans hv)))
      · refine wp_setActivated hC h₁ hl₁ hp fun t ht => wp_dragWindow hC (hraised t ht) hl hp fun u hu => hQ u _ hu
      · exact wp_mouseMoved fun t ht => hQ t l (hmoved.still ht)

end NewXv6.Gui
