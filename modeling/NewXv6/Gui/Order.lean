import NewXv6.Gui.Spec

/-!
# The order of the windows

`ZOrder` is what the list of windows is for: the ids of the windows, from the bottom one to the top one. A new window is
on top, and an activated window comes to the top, except that the bottom one stays where it is. Every run of
`allocWindow`, `releaseWindow` and `setActivated` keeps the links of the windows a list in that order (`window_list`).
-/

namespace NewXv6.Gui

open Lib

/-- The ids of the windows from the bottom to the top, and the next id. -/
structure ZOrder where
  ids : List Int
  next : Int

/-- A function that changes the list. -/
inductive ListOp
  | allocWindow (position : Rect) (pid : Int)
  | releaseWindow (window_id : Int)
  | setActivated (window_id : Int)

/-- What the functions are for. -/
def ZOrder.step (z : ZOrder) : ListOp → ZOrder
  | .allocWindow _ _ => if z.ids.length < MAXWINDOW then ⟨z.ids ++ [z.next], z.next + 1⟩ else z
  | .releaseWindow window_id => { z with ids := z.ids.erase window_id }
  | .setActivated window_id =>
    if window_id ∈ z.ids ∧ z.ids.head? ≠ some window_id then { z with ids := z.ids.erase window_id ++ [window_id] } else z

/-- The functions; `setActivated` is applied to windows of the list. -/
def listOp (zero : Option Window) : ListOp → Act Unit
  | .allocWindow position pid => discard (allocWindow position pid)
  | .releaseWindow window_id => discard (releaseWindow zero window_id)
  | .setActivated window_id => do
    let p ← getWindowById window_id
    match p with
    | some p => setActivated (some p)
    | none => pure ()

/-- The windows have the ids of `z`, in that order. -/
structure Ordered (z : ZOrder) (s : State) (l : List WindowLink) : Prop where
  listed : Listed s l
  ids : l.map (fun p => (s.window_array p).window_id) = z.ids
  nodup : z.ids.Nodup
  lt_next : ∀ i ∈ z.ids, i < z.next
  next : s.next_window_id = int z.next
  pos : 0 < z.next

/-- Nothing is promised of a run. -/
def anyRun : Contract Fault Event := ⟨fun _ => True, fun _ => True, fun _ => True⟩

theorem anyRun_lax : Lax anyRun :=
  ⟨trivial, trivial, fun _ _ => trivial, fun _ => trivial, fun _ _ _ => trivial, fun _ => trivial⟩

theorem anyRun_sends (pid : Int) : Sends anyRun pid := ⟨fun _ _ _ => trivial, trivial⟩

theorem anyRun_null (zero : Option Window) (site : Site) : NullOk anyRun zero site :=
  ⟨fun _ => trivial, fun _ => trivial, fun _ w _ => anyRun_sends w.pid⟩

section

variable {zero : Option Window} {z : ZOrder} {s t : State} {l : List WindowLink}

theorem map_erase_of_nodup {α β : Type} [DecidableEq α] [DecidableEq β] {f : α → β} {l : List α}
    (h : (l.map f).Nodup) {a : α} (ha : a ∈ l) : (l.erase a).map f = (l.map f).erase (f a) := by
  induction l with
  | nil => cases ha
  | cons b l ih =>
    obtain ⟨hb, hl⟩ := List.nodup_cons.1 h
    by_cases hab : b = a
    · subst hab
      simp
    · have hal : a ∈ l := (List.mem_cons.1 ha).resolve_left (Ne.symm hab)
      have hf : f b ≠ f a := fun he => hb (he ▸ List.mem_map_of_mem hal)
      rw [List.erase_cons_tail (by simpa using hab), List.map_cons, List.map_cons,
        List.erase_cons_tail (by simpa using hf), ih hl hal]

theorem ZOrder.step_alloc (h : z.ids.length < MAXWINDOW) (position : Rect) (pid : Int) :
    z.step (.allocWindow position pid) = ⟨z.ids ++ [z.next], z.next + 1⟩ := if_pos h

theorem ZOrder.step_full (h : ¬z.ids.length < MAXWINDOW) (position : Rect) (pid : Int) :
    z.step (.allocWindow position pid) = z := if_neg h

theorem ZOrder.step_release (window_id : Int) :
    z.step (.releaseWindow window_id) = { z with ids := z.ids.erase window_id } := rfl

theorem ZOrder.step_raise {window_id : Int} (h : window_id ∈ z.ids ∧ z.ids.head? ≠ some window_id) :
    z.step (.setActivated window_id) = { z with ids := z.ids.erase window_id ++ [window_id] } := if_pos h

theorem ZOrder.step_stay {window_id : Int} (h : ¬(window_id ∈ z.ids ∧ z.ids.head? ≠ some window_id)) :
    z.step (.setActivated window_id) = z := if_neg h

theorem ZOrder.next_le (z : ZOrder) (ops : List ListOp) : z.next ≤ (ops.foldl ZOrder.step z).next := by
  induction ops generalizing z with
  | nil => exact Int.le_refl _
  | cons op ops ih =>
    refine Int.le_trans ?_ (ih (z.step op))
    cases op with
    | allocWindow position pid =>
      by_cases h : z.ids.length < MAXWINDOW
      · rw [step_alloc h]
        exact Int.le_of_lt (Int.lt_succ _)
      · rw [step_full h]
    | releaseWindow window_id => exact Int.le_refl _
    | setActivated window_id =>
      by_cases h : window_id ∈ z.ids ∧ z.ids.head? ≠ some window_id
      · rw [step_raise h]
      · rw [step_stay h]

theorem int_of_range {x : Int} (h : -2 ^ 31 ≤ x) (h' : x < 2 ^ 31) : int x = x := by
  unfold int
  exact Int.bmod_eq_of_le (by omega) (by omega)

/-- The window with an id. -/
theorem Ordered.find (h : Ordered z s l) {window_id : Int} (hid : window_id ∈ z.ids) :
    ∃ p, l.find? (fun p => (s.window_array p).window_id = window_id) = some p ∧ p ∈ l ∧
      (s.window_array p).window_id = window_id := by
  rw [← h.ids] at hid
  obtain ⟨p, hp, he⟩ := List.mem_map.1 hid
  cases hf : l.find? fun p => (s.window_array p).window_id = window_id with
  | none => exact absurd (by simpa using he) (List.find?_eq_none.1 hf p hp)
  | some q =>
    have hq := List.find?_some hf
    exact ⟨q, rfl, List.mem_of_find?_eq_some hf, by simpa using hq⟩

theorem Ordered.find_none (h : Ordered z s l) {window_id : Int} (hid : window_id ∉ z.ids) :
    l.find? (fun p => (s.window_array p).window_id = window_id) = none := by
  refine List.find?_eq_none.2 fun p hp he => hid ?_
  rw [← h.ids, ← show (s.window_array p).window_id = window_id by simpa using he]
  exact List.mem_map_of_mem hp

/-- **One function** does to the windows what it is for. -/
theorem wp_listOp (h : Ordered z s l) (op : ListOp) (hnext : (z.step op).next < 2 ^ 31) :
    Wp anyRun (listOp zero op) (fun _ t => ∃ l', Ordered (z.step op) t l') s := by
  have hnodup : (l.map fun p => (s.window_array p).window_id).Nodup := h.ids ▸ h.nodup
  have hlen : l.length = z.ids.length := by rw [← h.ids, List.length_map]
  have hpos := h.pos
  cases op with
  | allocWindow position pid =>
    simp only [listOp, wp_discard]
    refine wp_allocWindow anyRun_lax h.listed (anyRun_sends pid) (fun hfull => ⟨l, ?_⟩) fun p t hlt ht => ⟨l ++ [p], ?_⟩
    · rw [ZOrder.step_full (by omega)]
      exact h
    · rw [ZOrder.step_alloc (by omega)] at hnext ⊢
      dsimp only at hnext
      have hid : (t.window_array p).window_id = z.next := by
        rw [ht.window.1, h.next]
        exact int_of_range (by omega) (by omega)
      have hsame : ∀ q ∈ l, (t.window_array q).window_id = (s.window_array q).window_id := fun q hq =>
        (ht.other q fun he => ht.fresh (he ▸ hq)).window_id
      refine ⟨⟨ht.holds, fun q => ?_⟩, ?_, ?_, fun i hi => ?_, ?_, ?_⟩
      · by_cases hq : q = p
        · subst hq
          rw [hid]
          simp [hpos]
        · rw [(ht.other q hq).window_id, ← h.listed.mem q]
          simp [hq]
      · rw [List.map_append, List.map_congr_left hsame, h.ids]
        simp [hid]
      · refine List.nodup_append.2 ⟨h.nodup, List.nodup_singleton _, fun a ha b hb => ?_⟩
        have := h.lt_next a ha
        rw [List.mem_singleton.1 hb]
        omega
      · rcases List.mem_append.1 hi with hi | hi
        · have := h.lt_next i hi
          show i < z.next + 1
          omega
        · rw [List.mem_singleton.1 hi]
          exact Int.lt_succ _
      · rw [ht.next, h.next]
        exact congrArg (fun x => int (x + 1)) (int_of_range (by omega) (by omega))
      · show 0 < z.next + 1
        omega
  | releaseWindow window_id =>
    simp only [listOp, wp_discard]
    refine wp_releaseWindow anyRun_lax h.listed (fun _ _ => anyRun_sends _) (fun _ _ _ => anyRun_null _ _)
      (fun hf => ⟨l, ?_⟩) fun p t hf ht => ⟨l.erase p, ?_⟩
    · have hid : window_id ∉ z.ids := fun hin => by
        obtain ⟨p, hp, -⟩ := h.find hin
        rw [hf] at hp
        cases hp
      rw [ZOrder.step_release, List.erase_of_not_mem hid]
      exact h
    · have hid := List.find?_some hf
      simp only [decide_eq_true_eq] at hid
      have hsame : ∀ q ∈ l.erase p, (t.window_array q).window_id = (s.window_array q).window_id := fun q hq =>
        (ht.other q fun he => h.listed.holds.nodup.not_mem_erase (he ▸ hq)).window_id
      refine ⟨⟨ht.holds, fun q => ?_⟩, ?_, h.nodup.erase _, fun i hi => h.lt_next i (List.mem_of_mem_erase hi), ?_, hpos⟩
      · by_cases hq : q = p
        · subst hq
          rw [ht.window]
          simp [h.listed.holds.nodup.not_mem_erase]
        · rw [(ht.other q hq).window_id, ← h.listed.mem q, List.mem_erase_of_ne hq]
      · rw [List.map_congr_left hsame, map_erase_of_nodup hnodup ht.mem, h.ids, hid]
        rfl
      · rw [ht.next, h.next]
        rfl
  | setActivated window_id =>
    simp only [listOp, wp_bind]
    refine wp_getWindowById h.listed ?_
    by_cases hid : window_id ∈ z.ids
    · obtain ⟨p, hf, hp, he⟩ := h.find hid
      rw [hf]
      refine wp_setActivated anyRun_lax h.listed (fun _ _ => anyRun_sends _) hp fun t ht => ⟨raise l p, ?_⟩
      have hhead : l.head? = some p ↔ z.ids.head? = some window_id := by
        rw [← h.ids, List.head?_map]
        constructor
        · intro hl
          rw [hl]
          simp [he]
        · intro hl
          cases l with
          | nil => cases hl
          | cons q l =>
            simp only [List.head?_cons, Option.map_some, Option.some.injEq] at hl
            rw [List.find?_cons, hl] at hf
            simpa using hf
      have hids : (raise l p).map (fun q => (s.window_array q).window_id) = (z.step (.setActivated window_id)).ids := by
        unfold raise
        by_cases hl : l.head? = some p
        · rw [if_pos hl, ZOrder.step_stay fun hc => hc.2 (hhead.1 hl)]
          exact h.ids
        · rw [if_neg hl, ZOrder.step_raise ⟨hid, fun hc => hl (hhead.2 hc)⟩, List.map_append,
            map_erase_of_nodup hnodup hp, h.ids, he]
          simp [he]
      have hperm := raise_perm hp
      have hperm' : (z.step (.setActivated window_id)).ids.Perm z.ids := by
        rw [← hids, ← h.ids]
        exact hperm.map _
      have hnext' : (z.step (.setActivated window_id)).next = z.next := by
        by_cases hc : window_id ∈ z.ids ∧ z.ids.head? ≠ some window_id
        · rw [ZOrder.step_raise hc]
        · rw [ZOrder.step_stay hc]
      refine ⟨⟨ht.holds, fun q => ?_⟩, ?_, hperm'.nodup_iff.2 h.nodup, fun i hi => ?_, ?_, ?_⟩
      · rw [hperm.mem_iff, (ht.same q).window_id]
        exact h.listed.mem q
      · rw [← hids]
        exact List.map_congr_left fun q _ => (ht.same q).window_id
      · rw [hnext']
        exact h.lt_next i (hperm'.mem_iff.1 hi)
      · rw [hnext', ← h.next, ht.rest]
      · rw [hnext']
        exact hpos
    · rw [h.find_none hid]
      refine (wp_pure _ _ _).2 ⟨l, ?_⟩
      rw [ZOrder.step_stay fun hc => hid hc.1]
      exact h

theorem wp_listOps (ops : List ListOp) : ∀ {z : ZOrder} {s : State} {l : List WindowLink}, Ordered z s l →
    (ops.foldl ZOrder.step z).next < 2 ^ 31 →
    Wp anyRun (Prog.forEach (listOp zero) ops) (fun _ t => ∃ l', Ordered (ops.foldl ZOrder.step z) t l') s := by
  induction ops with
  | nil => exact fun h _ => (wp_pure _ _ _).2 ⟨_, h⟩
  | cons op ops ih =>
    intro z s l h hnext
    have hle := (z.step op).next_le ops
    simp only [Prog.forEach, wp_bind]
    refine (wp_listOp h op (Int.lt_of_le_of_lt hle hnext)).mono fun _ t ht => ?_
    obtain ⟨l', hl'⟩ := ht
    exact ih hl' hnext

end

/-- **The windows are a list in z-order**: as long as the next id has not wrapped, the links stand for a list of the slots
in use, whose ids are distinct and in the order of `ZOrder`, and the searches return the windows they look for. -/
theorem window_list (zero : Option Window) (width height : Int) (screen : Int → Color) (ops : List ListOp) (s : State)
    (w : List Event) (hrun : Prog.forEach (listOp zero) ops (init width height screen) = (.ok ((), s), w))
    (hnext : (ops.foldl ZOrder.step ⟨[], 1⟩).next < 2 ^ 31) :
    ∃ l, s.links.Holds l ∧ (∀ p, p ∈ l ↔ 0 < (s.window_array p).window_id) ∧
      (l.map fun p => (s.window_array p).window_id) = (ops.foldl ZOrder.step ⟨[], 1⟩).ids ∧
      (ops.foldl ZOrder.step ⟨[], 1⟩).ids.Nodup ∧
      (∀ window_id, getWindowById window_id s =
        (.ok (l.find? fun p => (s.window_array p).window_id = window_id, s), [])) ∧
      ∀ x y, getWindowByPoint x y s =
        (.ok (l.reverse.find? fun p => inClientRect (s.window_array p).window_position x y, s), []) := by
  have hinit : Ordered ⟨[], 1⟩ (init width height screen) [] :=
    ⟨init_listed width height screen, rfl, List.nodup_nil, nofun, rfl, by decide⟩
  obtain ⟨l, hl⟩ := (wp_listOps ops hinit hnext).run hrun fun _ _ => trivial
  exact ⟨l, hl.listed.holds, hl.listed.mem, hl.ids, hl.nodup, getWindowById_run hl.listed, getWindowByPoint_run hl.listed⟩

theorem window_list_two : ∃ s w,
    Prog.forEach (listOp none) [.allocWindow ⟨0, 0, 8, 6⟩ 3, .allocWindow ⟨1, 1, 2, 2⟩ 4, .releaseWindow 1]
      (init 8 6 fun _ => 0) = (.ok ((), s), w) ∧
    ∃ l, s.links.Holds l ∧ (l.map fun p => (s.window_array p).window_id) = [2] := by
  have hrun : (Prog.forEach (listOp none) [.allocWindow ⟨0, 0, 8, 6⟩ 3, .allocWindow ⟨1, 1, 2, 2⟩ 4, .releaseWindow 1]).check
      (init 8 6 fun _ => 0) (fun _ _ => true) = true := by decide +kernel
  obtain ⟨_, s, w, h, -⟩ := Prog.run_of_check hrun
  obtain ⟨l, hl, -, hids, -⟩ := window_list none 8 6 _ _ s w h (by decide)
  exact ⟨s, w, h, l, hl, hids⟩

end NewXv6.Gui
