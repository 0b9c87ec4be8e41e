import NewXv6.Gui.Paint
import NewXv6.Gui.Fifo
import NewXv6.Gui.Calls

/-!
# Painting is a relay

`drawScreen` sends the bottom window's process a message; each process answers its message with `updateWindow`, which
paints the window and sends the next process a message; the top window's process shows what was painted.
-/

namespace NewXv6.Gui

open Lib

variable {zero : Option Window} {s t u : State} {l : List WindowLink} {g : List Pending} {pid : Int}

/-! ## Messages on an idle system -/

/-- The windows, the mouse and the screen are as before; messages and the buffer may differ. -/
structure Same (s t : State) : Prop where
  rest : t = { s with MsgQueue := t.MsgQueue, MsgTable := t.MsgTable, vesa_buffer := t.vesa_buffer }

theorem Same.refl (s : State) : Same s s := ⟨rfl⟩

theorem Same.trans (h : Same s t) (h' : Same t u) : Same s u := by
  refine ⟨?_⟩
  rw [h'.rest, h.rest]

theorem Same.window_array (h : Same s t) : t.window_array = s.window_array := by rw [h.rest]

theorem Same.listed (h : Same s t) (hl : Listed s l) : Listed t l := by
  rw [h.rest]
  exact ⟨hl.holds, hl.mem⟩

/-- A message may be sent: there is a slot, an entry of the table, and the receiver is a process. -/
structure Ready (g : List Pending) (pid : Int) : Prop where
  process : pid ≠ -1
  slot : g.length < MAX_QUEUE_LENGTH
  entry : (g.map Pending.pid).toFinset.card < MAX_PROCESS_NUMBER

theorem Ready.few (h : Ready g pid) (x : Pending) : Few (g ++ [x]) := by
  have hcard := Finset.card_insert_le x.pid (g.map Pending.pid).toFinset
  have := h.entry
  unfold Few
  rw [pids_snoc]
  omega

/-- A free slot. -/
theorem Queued.unused (h : Queued s g none) (hlen : g.length < MAX_QUEUE_LENGTH) : ∃ i, unusedMsg s = some i := by
  cases hi : unusedMsg s with
  | some i => exact ⟨i, rfl⟩
  | none => exact absurd (h.full hi) (Nat.ne_of_lt hlen)

theorem dispatch_events (pid : Int) (i : MsgIndex) (s : State) : (dispatch pid i s).2 = [] := by
  unfold dispatch
  rw [Prog.run_bind_ok (Prog.run_get s)]
  cases entryOf s pid with
  | some e =>
    dsimp only
    rcases seek (fun k => (s.MsgQueue k).next_msg) (fun k => (s.MsgQueue k).next_msg.isNone) MAX_QUEUE_LENGTH
      (some (s.MsgTable e).first_msg) with _ | _ | last
    · rfl
    · rfl
    · rfl
  | none =>
    dsimp only
    cases entryOf s (-1) with
    | some e => rfl
    | none => rfl

/-- What is sent is accepted. -/
theorem send_events (pid : Int) (i : MsgIndex) (s : State) :
    (discard (send pid (some i)) s).2 = [.accept pid i (s.MsgQueue i).msg_type (s.MsgQueue i).concrete_msg] := by
  have hdispatch := dispatch_events pid i s
  show (Prog.bind (send pid (some i)) (fun _ => pure ()) s).2 = _
  have hsend : send pid (some i) s = (((dispatch pid i >>= fun _ => pure true) s).1,
      .accept pid i (s.MsgQueue i).msg_type (s.MsgQueue i).concrete_msg ::
        ((dispatch pid i >>= fun _ => pure true) s).2) := rfl
  have hnil : ((dispatch pid i >>= fun _ => pure true) s).2 = [] := by
    rw [bind_pure_events]
    exact hdispatch
  unfold Prog.bind
  rw [hsend, hnil]
  rcases ((dispatch pid i >>= fun _ => pure true) s).1 with e | ⟨b, t⟩
  · rfl
  · rfl

/-- **`createUpdateMsg`** when a message may be sent. -/
theorem createUpdateMsg_run (h : Queued s g none) (hr : Ready g pid) : ∃ t i msg,
    createUpdateMsg pid s = (.ok ((), t), [.accept pid i MSG_UPDATE msg]) ∧
    Queued t (g ++ [⟨pid, i, MSG_UPDATE, msg⟩]) none ∧ Same s t ∧ t.vesa_buffer = s.vesa_buffer := by
  obtain ⟨i, hi⟩ := h.unused hr.slot
  have hrequire : ∃ msg, requireMsg MSG_UPDATE 0 0 32 s = (.ok (some i, { s with
      MsgQueue := Function.update s.MsgQueue i { s.MsgQueue i with msg_type := MSG_UPDATE, concrete_msg := msg } }), []) := by
    rw [requireMsg, Prog.run_bind_ok (Prog.run_get s), hi]
    exact ⟨_, rfl⟩
  obtain ⟨msg, hrequire⟩ := hrequire
  have hevents : (createUpdateMsg pid s).2 = [.accept pid i MSG_UPDATE msg] := by
    rw [createUpdateMsg, Prog.run_bind_ok hrequire, send_events]
    simp
  have hassumed : (fifo mustEnd).Assumed g (createUpdateMsg pid s).2 := by
    rw [hevents]
    exact ⟨⟨hr.process, hr.few _⟩, trivial⟩
  obtain ⟨t, w, ht⟩ := ends_of_mwp (keeps_createUpdateMsg pid s g h) hassumed
  have hqueued := (keeps_createUpdateMsg pid s g h).2 hassumed
  have hwp : Wp anyRun (createUpdateMsg pid) (fun _ t => Sent anyRun s t) s :=
    wp_createUpdateMsg trivial (anyRun_sends pid) fun _ ht => ht
  have hsent := hwp.run ht fun _ _ => trivial
  rw [hevents, ht] at hqueued
  rw [ht] at hevents
  dsimp only at hevents
  subst hevents
  exact ⟨t, i, msg, ht, hqueued, ⟨by rw [hsent.rest]⟩, by rw [hsent.rest]⟩

/-- **`createPartialUpdateMsg`** when a message may be sent. -/
theorem createPartialUpdateMsg_run (h : Queued s g none) (hr : Ready g pid) (x1 y1 x2 y2 : Int) : ∃ t i,
    createPartialUpdateMsg pid x1 y1 x2 y2 s = (.ok ((), t), [.accept pid i MSG_PARTIAL_UPDATE ⟨x1, y1, x2, y2⟩]) ∧
    Queued t (g ++ [⟨pid, i, MSG_PARTIAL_UPDATE, ⟨x1, y1, x2, y2⟩⟩]) none ∧ Same s t ∧
      t.vesa_buffer = s.vesa_buffer := by
  obtain ⟨i, hi⟩ := h.unused hr.slot
  have hrequire : requirePartialUpdateMsg x1 y1 x2 y2 s = (.ok (some i, { s with
      MsgQueue := Function.update s.MsgQueue i
        { s.MsgQueue i with msg_type := MSG_PARTIAL_UPDATE, concrete_msg := ⟨x1, y1, x2, y2⟩ } }), []) := by
    rw [requirePartialUpdateMsg, Prog.run_bind_ok (Prog.run_get s), hi]
    rfl
  have hevents : (createPartialUpdateMsg pid x1 y1 x2 y2 s).2 =
      [.accept pid i MSG_PARTIAL_UPDATE ⟨x1, y1, x2, y2⟩] := by
    rw [createPartialUpdateMsg, Prog.run_bind_ok hrequire, send_events]
    simp
  have hassumed : (fifo mustEnd).Assumed g (createPartialUpdateMsg pid x1 y1 x2 y2 s).2 := by
    rw [hevents]
    exact ⟨⟨hr.process, hr.few _⟩, trivial⟩
  obtain ⟨t, w, ht⟩ := ends_of_mwp (keeps_createPartialUpdateMsg pid x1 y1 x2 y2 s g h) hassumed
  have hqueued := (keeps_createPartialUpdateMsg pid x1 y1 x2 y2 s g h).2 hassumed
  have hwp : Wp anyRun (createPartialUpdateMsg pid x1 y1 x2 y2) (fun _ t => Sent anyRun s t) s :=
    wp_createPartialUpdateMsg trivial (anyRun_sends pid) fun _ ht => ht
  have hsent := hwp.run ht fun _ _ => trivial
  rw [hevents, ht] at hqueued
  rw [ht] at hevents
  dsimp only at hevents
  subst hevents
  exact ⟨t, i, ht, hqueued, ⟨by rw [hsent.rest]⟩, by rw [hsent.rest]⟩

theorem getMsg_events (pid : Int) (s : State) :
    (getMsg pid s).2 = [.none pid] ∨ ∃ type msg, (getMsg pid s).2 = [.deliver pid type msg] := by
  unfold getMsg
  rw [Prog.run_bind_ok (Prog.run_get s)]
  cases entryOf s pid with
  | none => exact Or.inl rfl
  | some e =>
    dsimp only
    rw [Prog.run_bind_ok (Prog.run_emit _ s)]
    cases (s.MsgQueue (s.MsgTable e).first_msg).next_msg with
    | none => exact Or.inr ⟨_, _, rfl⟩
    | some next => exact Or.inr ⟨_, _, rfl⟩

/-- **`getMsg`** when the last message is the only one of the process. -/
theorem getMsg_run {x : Pending} (h : Queued s (g ++ [x]) none) (hx : ∀ y ∈ g, y.pid ≠ x.pid) (hpid : x.pid ≠ -1) :
    ∃ t, getMsg x.pid s = (.ok ((), t), [.deliver x.pid x.type x.msg]) ∧ Queued t g none ∧ Same s t ∧
      t.vesa_buffer = s.vesa_buffer := by
  have hkeeps : Mwp (fifo mustEnd) (getMsg x.pid) (fun _ t g' => Queued t g' none) s (g ++ [x]) := mwp_getMsg h fun _ _ ht => ht
  obtain ⟨t, w, ht⟩ := getMsg_ends x.pid s
  have hwp : Wp anyRun (getMsg x.pid) (fun _ t => Got s t) s := wp_getMsg anyRun_lax fun _ ht => ht
  have hgot := hwp.run ht fun _ _ => trivial
  have hfind : ((g ++ [x]).find? fun y => y.pid = x.pid) = some x := by
    rw [List.find?_append, List.find?_eq_none.2 fun y hy => by simpa using hx y hy]
    simp
  have hassumed : (fifo mustEnd).Assumed (g ++ [x]) (getMsg x.pid s).2 := by
    rcases getMsg_events x.pid s with he | ⟨type, msg, he⟩
    · rw [he]
      exact ⟨hpid, trivial⟩
    · rw [he]
      exact ⟨hpid, trivial⟩
  have hensured := hkeeps.1.ensured hassumed
  have hqueued := hkeeps.2 hassumed
  rcases getMsg_events x.pid s with he | ⟨type, msg, he⟩
  · rw [he] at hensured
    exact absurd rfl (hensured.1 x (List.mem_append_right _ (List.mem_singleton_self x)))
  · rw [he] at hensured
    obtain ⟨y, hy, rfl, rfl⟩ := hensured.1
    cases hfind.symm.trans hy
    have hafter : (fifo mustEnd).after (g ++ [x]) [.deliver x.pid x.type x.msg] = g := by
      show (g ++ [x]).eraseP (fun y => y.pid = x.pid) = g
      rw [List.eraseP_append_right _ fun y hy => by simpa using hx y hy]
      simp
    rw [he, ht, hafter] at hqueued
    rw [ht] at he
    dsimp only at he
    subst he
    exact ⟨t, ht, hqueued, ⟨by rw [hgot.rest]⟩, by rw [hgot.rest]⟩

/-! ## The relay -/

/-- The processes that get a message, in order. -/
def receivers (w : List Event) : List Int :=
  w.filterMap fun
    | .deliver pid _ _ => some pid
    | _ => none

/-- The processes `pids` get one message each, in order, and each is of the type and fits. -/
structure Delivers (pids : List Int) (type : Int) (fits : Concrete → Prop) (w : List Event) : Prop where
  receivers : receivers w = pids
  message : ∀ pid type' msg, .deliver pid type' msg ∈ w → type' = type ∧ fits msg

theorem Delivers.append {pids pids' : List Int} {type : Int} {fits : Concrete → Prop} {w v : List Event}
    (h : Delivers pids type fits w) (h' : Delivers pids' type fits v) : Delivers (pids ++ pids') type fits (w ++ v) := by
  refine ⟨?_, fun pid type' msg he => ?_⟩
  · show (w ++ v).filterMap _ = _
    rw [List.filterMap_append]
    exact congrArg₂ _ h.receivers h'.receivers
  · rcases List.mem_append.1 he with he | he
    · exact h.message pid type' msg he
    · exact h'.message pid type' msg he

theorem delivers_nil {type : Int} {fits : Concrete → Prop} : Delivers [] type fits [] := ⟨rfl, nofun⟩

theorem delivers_accept {type : Int} {fits : Concrete → Prop} (pid : Int) (i : MsgIndex) (type' : Int) (msg : Concrete) :
    Delivers [] type fits [.accept pid i type' msg] := ⟨rfl, by simp⟩

theorem delivers_draw {type : Int} {fits : Concrete → Prop} (r clip : Rect) : Delivers [] type fits [.draw r clip] :=
  ⟨rfl, by simp⟩

theorem delivers_one {type : Int} {fits : Concrete → Prop} {msg : Concrete} (hmsg : fits msg) (pid : Int) :
    Delivers [pid] type fits [.deliver pid type msg] := by
  refine ⟨rfl, fun pid' type' msg' he => ?_⟩
  cases List.mem_singleton.1 he
  exact ⟨rfl, hmsg⟩

/-- After a window was painted: the next window's process is sent a message, or the painting is finished. -/
def passOn (s : State) (send : Int → Act Unit) (finish : Act Unit) (p : WindowLink) : Act Unit :=
  match (s.window_array p).next_window with
  | some next => send (s.window_array next).pid
  | none => finish

/-- Each process takes its message and answers it. -/
def relay (s : State) (call : WindowLink → Act Unit) (l : List WindowLink) : Act Unit :=
  Prog.forEach (fun p => do
    getMsg (s.window_array p).pid
    call p) l

/-- The buffer after a window was painted. -/
def State.paint (s : State) (context : WindowLink → Int → Color) (clip : WindowLink → Rect) (p : WindowLink) (u : State) :
    State :=
  { u with vesa_buffer := Gui.paint 800 (s.window_array p).window_position (context p) (pixels (clip p)) u.vesa_buffer }

section

variable {call : WindowLink → Act Unit} {send : Int → Act Unit} {finish : Act Unit} {type : Int}
  {fits : Concrete → Prop} {context : WindowLink → Int → Color} {clip : WindowLink → Rect} {R : State → State → Prop}

/-- **The relay** paints the windows of the list from the bottom to the top, and then finishes. -/
theorem relay_run (h : Listed s l) (hready : ∀ p ∈ l, Ready g (s.window_array p).pid)
    (hidle : ∀ x ∈ g, ∀ p ∈ l, x.pid ≠ (s.window_array p).pid)
    (hcall : ∀ p ∈ l, ∀ u, Same s u → ∃ r clip', call p u = ((passOn s send finish p (s.paint context clip p u)).1,
      .draw r clip' :: (passOn s send finish p (s.paint context clip p u)).2))
    (hsend : ∀ u pid, Same s u → Queued u g none → Ready g pid → ∃ t i msg,
      send pid u = (.ok ((), t), [.accept pid i type msg]) ∧ fits msg ∧ Queued t (g ++ [⟨pid, i, type, msg⟩]) none ∧
        Same u t ∧ t.vesa_buffer = u.vesa_buffer)
    (hfinish : ∀ u, Same s u → ∃ t w, finish u = (.ok ((), t), w) ∧ Delivers [] type fits w ∧ R u t) :
    ∀ (l₂ l₁ : List WindowLink) (p : WindowLink) (u : State) (i : MsgIndex) (msg : Concrete), l = l₁ ++ p :: l₂ →
      Same s u → fits msg → Queued u (g ++ [⟨(s.window_array p).pid, i, type, msg⟩]) none →
      ∃ t w v, relay s call (p :: l₂) u = (.ok ((), t), w) ∧
        Delivers ((p :: l₂).map fun p => (s.window_array p).pid) type fits w ∧
        Same s v ∧ v.vesa_buffer = painted s context clip (p :: l₂) u.vesa_buffer ∧ Queued v g none ∧ R v t := by
  intro l₂
  induction l₂ with
  | nil =>
    intro l₁ p u i msg hl hu hmsg hq
    subst hl
    have hp : p ∈ l₁ ++ [p] := List.mem_append_right _ (List.mem_singleton_self p)
    obtain ⟨u₁, hget, hq₁, hu₁, hb₁⟩ := getMsg_run hq (fun x hx => hidle x hx p hp) (hready p hp).process
    obtain ⟨r, clip', hc⟩ := hcall p hp u₁ (hu.trans hu₁)
    have hpass : passOn s send finish p = finish := by
      unfold passOn
      rw [show (s.window_array p).next_window = none from h.holds.split.2]
    have hsame : Same s (s.paint context clip p u₁) := (hu.trans hu₁).trans ⟨rfl⟩
    obtain ⟨t, w, hfin, hw, hR⟩ := hfinish _ hsame
    rw [hpass, hfin] at hc
    refine ⟨t, ([.deliver (s.window_array p).pid type msg] ++ (.draw r clip' :: w)) ++ [], _, ?_, ?_, hsame, ?_,
      hq₁.congr rfl rfl, hR⟩
    · exact Prog.run_bind (Prog.run_bind hget hc) rfl
    · exact ((delivers_one hmsg _).append ((delivers_draw r clip').append hw)).append delivers_nil
    · show Gui.paint 800 _ _ _ u₁.vesa_buffer = _
      rw [hb₁]
      rfl
  | cons q l₃ ih =>
    intro l₁ p u i msg hl hu hmsg hq
    subst hl
    have hp : p ∈ l₁ ++ p :: q :: l₃ := List.mem_append_right _ List.mem_cons_self
    have hqm : q ∈ l₁ ++ p :: q :: l₃ := List.mem_append_right _ (List.mem_cons_of_mem p List.mem_cons_self)
    obtain ⟨u₁, hget, hq₁, hu₁, hb₁⟩ := getMsg_run hq (fun x hx => hidle x hx p hp) (hready p hp).process
    obtain ⟨r, clip', hc⟩ := hcall p hp u₁ (hu.trans hu₁)
    have hpass : passOn s send finish p = send (s.window_array q).pid := by
      unfold passOn
      rw [show (s.window_array p).next_window = some q from h.holds.split.2]
    have hsame : Same s (s.paint context clip p u₁) := (hu.trans hu₁).trans ⟨rfl⟩
    obtain ⟨u₂, j, msg', hs, hmsg', hq₂, hu₂, hb₂⟩ := hsend _ (s.window_array q).pid hsame (hq₁.congr rfl rfl) (hready q hqm)
    rw [hpass, hs] at hc
    obtain ⟨t, w, v, hrun, hw, hv, hbuffer, hqv, hR⟩ := ih (l₁ ++ [p]) q u₂ j msg' (List.append_cons l₁ p (q :: l₃))
      (hsame.trans hu₂) hmsg' hq₂
    refine ⟨t, ([.deliver (s.window_array p).pid type msg] ++
      [.draw r clip', .accept (s.window_array q).pid j type msg']) ++ w, v, ?_, ?_, hv, ?_, hqv, hR⟩
    · exact Prog.run_bind (Prog.run_bind hget hc) hrun
    · exact ((delivers_one hmsg _).append ((delivers_draw r clip').append (delivers_accept _ _ _ _))).append hw
    · rw [hbuffer, hb₂]
      show painted s context clip (q :: l₃) (Gui.paint 800 _ _ _ u₁.vesa_buffer) = _
      rw [hb₁]
      rfl

end

end NewXv6.Gui
