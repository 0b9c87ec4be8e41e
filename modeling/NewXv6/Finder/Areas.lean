import NewXv6.Finder.Model
import Mathlib.Tactic.Common

/-!
# Areas of the Finder and the items under them

An area that chooses or enters is of use only where an item is: `Safe`. The lists of areas are only partly cleared when the
items are read again. The areas that answer a click are (those that stay start outside the window), the areas that answer a
double click stay for ever. So a state is safe again if and only if directories take the place of all the old ones
(`relist_safe`), and a run is safe exactly if this is so at each of its events (`areas_covered`).
-/

namespace NewXv6.Finder

open Lib

/-- The points of the window. -/
def InWindow (p : Point) : Prop := 0 ≤ p.x ∧ p.x < WINDOW_WIDTH ∧ 0 ≤ p.y ∧ p.y < WINDOW_HEIGHT

/-- What the handler of an area needs at a point: an item to choose, or a directory to enter. -/
def Covers (f : Vars) (p : Point) (c : Clickable) : Prop :=
  match c.handler with
  | .h_chooseFile => ∃ item, getFileItem p f.fileItemList = some item
  | .h_enterDir => ∃ item, getFileItem p f.fileItemList = some item ∧ item.type = .T_DIR
  | _ => True

/-- Each area has what its handler needs, at every point of the window where it is the first one. -/
def Safe (f : Vars) : Prop :=
  ∀ p, InWindow p → ∀ c, executeHandler f.left_click p = some c ∨ executeHandler f.double_click p = some c → Covers f p c

/-- How a handler that reads the items again shows them. -/
def relists (style : Style) : Handler → Option Style
  | .h_enterDir | .h_newFile | .h_newFolder | .h_deleteFile | .h_goUp => some style
  | .h_chvm1 => some .ICON_STYLE
  | .h_chvm2 => some .LIST_STYLE
  | .h_chooseFile | .h_closeWnd | .h_empty => none

/-- The points of the areas that answer a double click are places of directories in the new list. -/
def Replaced (f : Vars) (style : Style) (des : List Entry) : Prop :=
  ∀ p, InWindow p → (∃ c ∈ f.double_click, isIn p c.area) →
    ∃ item ∈ list style des 0 [], item.type = .T_DIR ∧ isIn p item.pos

/-- If the message makes the Finder read the items again, the old directories are replaced. -/
def Meets (f : Vars) (msg : Msg) : Prop :=
  f.isRun → ∀ c, executeHandler (f.areas msg.msg_type) msg.point = some c →
    ∀ style, relists f.style c.handler = some style → Replaced f style msg.found

variable {f g : Vars} {p q : Point} {c : Clickable} {l l' : List Clickable} {items : List FileItem} {item : FileItem}
  {style : Style} {des : List Entry} {msg : Msg} {pic : Handler → Int × Int}

/-! ## Lists of areas -/

theorem executeHandler_mem (h : executeHandler l p = some c) : c ∈ l ∧ isIn p c.area := by
  induction l with
  | nil => cases h
  | cons cur next ih =>
    rw [executeHandler] at h
    split at h
    · case isTrue hin =>
      cases h
      exact ⟨List.mem_cons_self, hin⟩
    · obtain ⟨hmem, hin⟩ := ih h
      exact ⟨List.mem_cons_of_mem _ hmem, hin⟩

theorem exists_executeHandler (hmem : c ∈ l) (hin : isIn p c.area) : ∃ c', executeHandler l p = some c' := by
  induction l with
  | nil => cases hmem
  | cons cur next ih =>
    rw [executeHandler]
    by_cases hcur : isIn p cur.area
    · exact ⟨cur, if_pos hcur⟩
    · rw [if_neg hcur]
      rcases List.mem_cons.1 hmem with rfl | hnext
      · exact absurd hin hcur
      · exact ih hnext

theorem mem_deleteClickable {region : Rect} (h : c ∈ deleteClickable l region) :
    c ∈ l ∧ ¬isIn c.area.start region := by
  induction l with
  | nil => cases h
  | cons cur next ih =>
    rw [deleteClickable] at h
    split at h
    · exact ⟨List.mem_cons_of_mem _ (ih h).1, (ih h).2⟩
    · case isFalse hout =>
      rcases List.mem_cons.1 h with rfl | hnext
      · exact ⟨List.mem_cons_self, hout⟩
      · exact ⟨List.mem_cons_of_mem _ (ih hnext).1, (ih hnext).2⟩

/-! ## Items and their places -/

theorem getFileItem_mem (h : getFileItem p items = some item) : item ∈ items ∧ isIn p item.pos := by
  induction items with
  | nil => cases h
  | cons cur next ih =>
    rw [getFileItem] at h
    split at h
    · case isTrue hin =>
      cases h
      exact ⟨List.mem_cons_self, hin⟩
    · obtain ⟨hmem, hin⟩ := ih h
      exact ⟨List.mem_cons_of_mem _ hmem, hin⟩

theorem exists_getFileItem (hmem : item ∈ items) (hin : isIn p item.pos) : ∃ item', getFileItem p items = some item' := by
  induction items with
  | nil => cases hmem
  | cons cur next ih =>
    rw [getFileItem]
    by_cases hcur : isIn p cur.pos
    · exact ⟨cur, if_pos hcur⟩
    · rw [if_neg hcur]
      rcases List.mem_cons.1 hmem with rfl | hnext
      · exact absurd hin hcur
      · exact ih hnext

/-- An item that is chosen stays where it is. -/
theorem getFileItem_choose :
    (getFileItem p (choose q items)).map FileItem.type = (getFileItem p items).map FileItem.type := by
  induction items with
  | nil => rfl
  | cons cur next ih =>
    rw [choose]
    split
    · simp only [getFileItem]
      split <;> rfl
    · simp only [getFileItem]
      split
      · rfl
      · exact ih

theorem getPos_icon (n : Nat) : getPos .ICON_STYLE n = ⟨⟨(n : Int) % 4 * 130, (n : Int) / 4 * 115 + 20 + 50 + 20⟩, 100, 95⟩ :=
  rfl

theorem getPos_list (n : Nat) : getPos .LIST_STYLE n = ⟨⟨0, 98 + n * 31⟩, 600, 30⟩ := rfl

/-- Places of different items have no point in common. -/
theorem getPos_inj {n k : Nat} (hn : isIn p (getPos style n)) (hk : isIn p (getPos style k)) : n = k := by
  cases style with
  | ICON_STYLE =>
    simp only [isIn, getPos_icon] at hn hk
    omega
  | LIST_STYLE =>
    simp only [isIn, getPos_list] at hn hk
    omega

theorem getPos_nonneg (style : Style) (n : Nat) : 0 ≤ (getPos style n).start.x ∧ 0 ≤ (getPos style n).start.y := by
  cases style with
  | ICON_STYLE =>
    simp only [getPos_icon]
    omega
  | LIST_STYLE =>
    simp only [getPos_list]
    omega

/-- `isIn` with the sums of ints. -/
theorem isIn_bmod {p : Point} {r : Rect} (hx : -2147483648 ≤ r.start.x + r.width) (hx' : r.start.x + r.width < 2147483648)
    (hy : -2147483648 ≤ r.start.y + r.height) (hy' : r.start.y + r.height < 2147483648) :
    isIn p r ↔ r.start.x ≤ p.x ∧ p.x < (r.start.x + r.width).bmod 4294967296 ∧
      r.start.y ≤ p.y ∧ p.y < (r.start.y + r.height).bmod 4294967296 := by
  rw [Int.bmod_eq_of_le (by omega) (by omega), Int.bmod_eq_of_le (by omega) (by omega)]
  exact Iff.rfl

/-- The places of the items of any directory are ints: a file has at most 2²⁶ entries. -/
theorem isIn_getPos {n : Nat} (h : n ≤ 67108864) (style : Style) (p : Point) :
    isIn p (getPos style n) ↔ (getPos style n).start.x ≤ p.x ∧
      p.x < ((getPos style n).start.x + (getPos style n).width).bmod 4294967296 ∧ (getPos style n).start.y ≤ p.y ∧
      p.y < ((getPos style n).start.y + (getPos style n).height).bmod 4294967296 := by
  cases style with
  | ICON_STYLE =>
    rw [getPos_icon]
    exact isIn_bmod (by dsimp only; omega) (by dsimp only; omega) (by dsimp only; omega) (by dsimp only; omega)
  | LIST_STYLE =>
    rw [getPos_list]
    exact isIn_bmod (by dsimp only; omega) (by dsimp only; omega) (by dsimp only; omega) (by dsimp only; omega)

/-- The first `n` places are taken, each by one item. -/
structure Placed (style : Style) (n : Nat) (items : List FileItem) : Prop where
  place : ∀ item ∈ items, ∃ k < n, item.pos = getPos style k
  alone : ∀ item ∈ items, ∀ item' ∈ items, ∀ p, isIn p item.pos → isIn p item'.pos → item = item'

theorem Placed.nil (style : Style) : Placed style 0 [] where
  place _ h := by cases h
  alone _ h := by cases h

theorem Placed.add {n : Nat} (h : Placed style n items) (hpos : item.pos = getPos style n) :
    Placed style (n + 1) (item :: items) := by
  have hfree : ∀ other ∈ items, ∀ p, isIn p item.pos → ¬isIn p other.pos := by
    intro other hmem p hin hother
    obtain ⟨k, hk, hplace⟩ := h.place other hmem
    rw [hpos] at hin
    rw [hplace] at hother
    exact Nat.ne_of_gt hk (getPos_inj hin hother)
  constructor
  case place =>
    intro other hmem
    rcases List.mem_cons.1 hmem with rfl | hmem
    · exact ⟨n, Nat.lt_succ_self n, hpos⟩
    · obtain ⟨k, hk, hplace⟩ := h.place other hmem
      exact ⟨k, Nat.lt_succ_of_lt hk, hplace⟩
  case alone =>
    intro a ha b hb p hpa hpb
    rcases List.mem_cons.1 ha with rfl | hold
    · rcases List.mem_cons.1 hb with rfl | hold'
      · rfl
      · exact absurd hpb (hfree b hold' p hpa)
    · rcases List.mem_cons.1 hb with rfl | hold'
      · exact absurd hpa (hfree a hold p hpb)
      · exact h.alone a hold b hold' p hpa hpb

theorem Placed.list {n : Nat} (h : Placed style n items) (des : List Entry) : ∃ k, Placed style k (list style des n items) := by
  induction des generalizing n items with
  | nil => exact ⟨n, h⟩
  | cons de des ih =>
    rw [Finder.list]
    split
    · exact ih (h.add rfl)
    · exact ih h

/-! ## The areas of a new list -/

theorem addItemEvent_style : (items.foldl addItemEvent f).style = f.style := by
  induction items generalizing f with
  | nil => rfl
  | cons item items ih =>
    rw [List.foldl_cons, ih, addItemEvent]
    split <;> rfl

theorem addItemEvent_items : (items.foldl addItemEvent f).fileItemList = f.fileItemList := by
  induction items generalizing f with
  | nil => rfl
  | cons item items ih =>
    rw [List.foldl_cons, ih, addItemEvent]
    split <;> rfl

theorem addItemEvent_right : (items.foldl addItemEvent f).right_click = f.right_click := by
  induction items generalizing f with
  | nil => rfl
  | cons item items ih =>
    rw [List.foldl_cons, ih, addItemEvent]
    split <;> rfl

/-- An area that answers a click is an item's or was there before. -/
theorem addItemEvent_left (h : c ∈ (items.foldl addItemEvent f).left_click) :
    c ∈ f.left_click ∨ ∃ item ∈ items, c = ⟨item.pos, .h_chooseFile⟩ := by
  induction items generalizing f with
  | nil => exact Or.inl h
  | cons item items ih =>
    rcases ih h with hold | ⟨other, hmem, hc⟩
    · rw [addItemEvent] at hold
      split at hold
      · rcases List.mem_cons.1 hold with hc | hold
        · exact Or.inr ⟨item, List.mem_cons_self, hc⟩
        · exact Or.inl hold
      · rcases List.mem_cons.1 hold with hc | hold
        · exact Or.inr ⟨item, List.mem_cons_self, hc⟩
        · exact Or.inl hold
      · exact Or.inl hold
    · exact Or.inr ⟨other, List.mem_cons_of_mem _ hmem, hc⟩

/-- An area that answers a double click is a directory's or was there before. -/
theorem mem_addItemEvent_double : c ∈ (items.foldl addItemEvent f).double_click ↔
    c ∈ f.double_click ∨ ∃ item ∈ items, item.type = .T_DIR ∧ c = ⟨item.pos, .h_enterDir⟩ := by
  induction items generalizing f with
  | nil => simp
  | cons item items ih =>
    rw [List.foldl_cons, ih, addItemEvent]
    split
    · case _ htype => simp [htype]
    · case _ htype => simp [htype, addClickable, or_assoc, or_comm]
    · case _ htype => simp [htype]

/-- A button neither enters nor chooses. -/
theorem wnd_handlers {handler : Handler} (h : handler ∈ wndEvents.map Prod.snd) :
    handler ≠ .h_enterDir ∧ handler ≠ .h_chooseFile := by
  revert handler
  decide

theorem mem_addWndEvent (h : c ∈ addWndEvent pic l) : c ∈ l ∨ c.handler ∈ wndEvents.map Prod.snd := by
  have hfold : ∀ (es : List (Point × Handler)) (l : List Clickable),
      c ∈ es.foldl (fun cm e => addClickable cm ⟨e.1, (pic e.2).1, (pic e.2).2⟩ e.2) l →
      c ∈ l ∨ c.handler ∈ es.map Prod.snd := by
    intro es
    induction es with
    | nil => exact fun l h => Or.inl h
    | cons e es ih =>
      intro l h
      rcases ih _ h with hold | hes
      · rcases List.mem_cons.1 hold with rfl | hold
        · exact Or.inr List.mem_cons_self
        · exact Or.inl hold
      · exact Or.inr (List.mem_cons_of_mem _ hes)
  exact hfold wndEvents l h

@[simp] theorem relist_style : (relist pic f des).style = f.style := addItemEvent_style

@[simp] theorem relist_items : (relist pic f des).fileItemList = list f.style des 0 [] := addItemEvent_items

@[simp] theorem relist_right : (relist pic f des).right_click = f.right_click := addItemEvent_right

theorem mem_relist_left (h : c ∈ (relist pic f des).left_click) :
    (c ∈ f.left_click ∧ ¬isIn c.area.start (initRect 0 0 800 600)) ∨ c.handler ∈ wndEvents.map Prod.snd ∨
      ∃ item ∈ list f.style des 0 [], c = ⟨item.pos, .h_chooseFile⟩ := by
  rcases addItemEvent_left h with hold | hnew
  · rcases mem_addWndEvent hold with hold | hwnd
    · exact Or.inl (mem_deleteClickable hold)
    · exact Or.inr (Or.inl hwnd)
  · exact Or.inr (Or.inr hnew)

theorem mem_relist_double : c ∈ (relist pic f des).double_click ↔
    c ∈ f.double_click ∨ ∃ item ∈ list f.style des 0 [], item.type = .T_DIR ∧ c = ⟨item.pos, .h_enterDir⟩ :=
  mem_addItemEvent_double

/-! ## The invariant -/

/-- What holds of the areas whatever the directories are. -/
structure Inv (f : Vars) : Prop where
  left : ∀ c ∈ f.left_click, c.handler ≠ .h_enterDir ∧
    (c.handler = .h_chooseFile → 0 ≤ c.area.start.x ∧ 0 ≤ c.area.start.y)
  double : ∀ c ∈ f.double_click, c.handler = .h_enterDir
  right : f.right_click = []

theorem Inv.relist (h : Inv f) (pic : Handler → Int × Int) (des : List Entry) : Inv (relist pic f des) where
  left c hc := by
    rcases mem_relist_left hc with ⟨hold, -⟩ | hwnd | ⟨item, hitem, rfl⟩
    · exact h.left c hold
    · exact ⟨(wnd_handlers hwnd).1, fun hc => absurd hc (wnd_handlers hwnd).2⟩
    · obtain ⟨n, hplaced⟩ := (Placed.nil f.style).list des
      obtain ⟨k, -, hpos⟩ := hplaced.place item hitem
      refine ⟨nofun, fun _ => ?_⟩
      show 0 ≤ item.pos.start.x ∧ 0 ≤ item.pos.start.y
      rw [hpos]
      exact getPos_nonneg _ _
  double c hc := by
    rcases mem_relist_double.1 hc with hold | ⟨item, -, -, rfl⟩
    · exact h.double c hold
    · rfl
  right := by
    rw [relist_right]
    exact h.right

/-- An area that is not deleted is outside the window. -/
theorem not_in_window {r : Rect} (hx : 0 ≤ r.start.x) (hy : 0 ≤ r.start.y) (hout : ¬isIn r.start (initRect 0 0 800 600))
    (hp : InWindow p) : ¬isIn p r := by
  simp only [isIn, initRect, InWindow, WINDOW_WIDTH, WINDOW_HEIGHT] at *
  omega

/-- **Reading the items again.** The state is safe afterwards if and only if directories take the place of the old ones. -/
theorem relist_safe (h : Inv f) : Safe (relist pic f des) ↔ Replaced f f.style des := by
  obtain ⟨n, hplaced⟩ := (Placed.nil f.style).list des
  constructor
  · intro hsafe p hp ⟨old, hold, hin⟩
    obtain ⟨c, hc⟩ := exists_executeHandler (mem_relist_double.2 (Or.inl hold)) hin
    have hcovers := hsafe p hp c (Or.inr hc)
    have hhandler : c.handler = .h_enterDir := (h.relist pic des).double c (executeHandler_mem hc).1
    simp only [Covers, hhandler, relist_items] at hcovers
    obtain ⟨item, hitem, htype⟩ := hcovers
    exact ⟨item, (getFileItem_mem hitem).1, htype, (getFileItem_mem hitem).2⟩
  · intro hnew p hp c hc
    rcases hc with hc | hc
    · obtain ⟨hmem, hin⟩ := executeHandler_mem hc
      rcases mem_relist_left hmem with ⟨hold, hout⟩ | hwnd | ⟨item, hitem, rfl⟩
      · -- an area from before is outside the window, or it is no item's
        obtain ⟨henter, hchoose⟩ := h.left c hold
        cases hhandler : c.handler with
        | h_enterDir => exact absurd hhandler henter
        | h_chooseFile => exact absurd hin (not_in_window (hchoose hhandler).1 (hchoose hhandler).2 hout hp)
        | _ => simp only [Covers, hhandler]
      · obtain ⟨henter, hchoose⟩ := wnd_handlers hwnd
        cases hhandler : c.handler with
        | h_enterDir => exact absurd hhandler henter
        | h_chooseFile => exact absurd hhandler hchoose
        | _ => simp only [Covers, hhandler]
      · show ∃ item, getFileItem p (Finder.relist pic f des).fileItemList = some item
        rw [relist_items]
        exact exists_getFileItem hitem hin
    · obtain ⟨hmem, hin⟩ := executeHandler_mem hc
      have hhandler : c.handler = .h_enterDir := (h.relist pic des).double c hmem
      have hdir : ∃ item ∈ list f.style des 0 [], item.type = .T_DIR ∧ isIn p item.pos := by
        rcases mem_relist_double.1 hmem with hold | ⟨item, hitem, htype, rfl⟩
        · exact hnew p hp ⟨c, hold, hin⟩
        · exact ⟨item, hitem, htype, hin⟩
      obtain ⟨item, hitem, htype, hat⟩ := hdir
      obtain ⟨item', hget⟩ := exists_getFileItem hitem hat
      obtain ⟨hitem', hat'⟩ := getFileItem_mem hget
      -- the item at the point is the directory: no other item is there
      have heq : item' = item := hplaced.alone item' hitem' item hitem p hat' hat
      simp only [Covers, hhandler, relist_items]
      exact ⟨item', hget, heq ▸ htype⟩

/-! ## Steps -/

theorem Inv.relist_as (h : Inv f) (style : Style) : Inv { f with style } := ⟨h.left, h.double, h.right⟩

/-- Each handler reads the items again, changes the chosen one, or leaves items and areas as they are. -/
theorem handle_cases {handler : Handler} (h : handle pic f handler p des = some g) :
    (∃ style, relists f.style handler = some style ∧ g = relist pic { f with style } des) ∨
    (relists f.style handler = none ∧ g.left_click = f.left_click ∧ g.double_click = f.double_click ∧
      g.right_click = f.right_click ∧
      ∀ p, (getFileItem p g.fileItemList).map FileItem.type = (getFileItem p f.fileItemList).map FileItem.type) := by
  cases handler with
  | h_enterDir =>
    obtain ⟨_, -, rfl⟩ := Option.map_eq_some_iff.1 h
    exact Or.inl ⟨f.style, rfl, rfl⟩
  | h_newFile | h_newFolder | h_deleteFile | h_goUp =>
    cases h
    exact Or.inl ⟨f.style, rfl, rfl⟩
  | h_chvm1 =>
    cases h
    exact Or.inl ⟨.ICON_STYLE, rfl, rfl⟩
  | h_chvm2 =>
    cases h
    exact Or.inl ⟨.LIST_STYLE, rfl, rfl⟩
  | h_chooseFile =>
    obtain ⟨_, -, rfl⟩ := Option.map_eq_some_iff.1 h
    exact Or.inr ⟨rfl, rfl, rfl, rfl, fun _ => getFileItem_choose⟩
  | h_closeWnd | h_empty =>
    cases h
    exact Or.inr ⟨rfl, rfl, rfl, rfl, fun _ => rfl⟩

/-- Items of the same types at the same points cover the same. -/
theorem Covers.of_types (h : ∀ p, (getFileItem p g.fileItemList).map FileItem.type =
    (getFileItem p f.fileItemList).map FileItem.type) (hc : Covers f p c) : Covers g p c := by
  have hp := h p
  unfold Covers at hc ⊢
  split at hc
  · case _ hhandler =>
    obtain ⟨item, hitem⟩ := hc
    rw [hitem, Option.map_some, Option.map_eq_some_iff] at hp
    obtain ⟨item', hitem', -⟩ := hp
    exact ⟨item', hitem'⟩
  · obtain ⟨item, hitem, htype⟩ := hc
    rw [hitem, Option.map_some, Option.map_eq_some_iff] at hp
    obtain ⟨item', hitem', htype'⟩ := hp
    exact ⟨item', hitem', htype'.trans htype⟩
  · trivial

theorem Safe.of_same (h : Safe f) (hleft : g.left_click = f.left_click) (hdouble : g.double_click = f.double_click)
    (htypes : ∀ p, (getFileItem p g.fileItemList).map FileItem.type =
      (getFileItem p f.fileItemList).map FileItem.type) : Safe g := by
  intro p hp c hc
  rw [hleft, hdouble] at hc
  exact (h p hp c hc).of_types htypes

/-- What a step does: nothing, or what the handler of the first area does. -/
theorem step_cases (h : step pic f msg = some g) :
    (g = f ∧ (f.isRun → executeHandler (f.areas msg.msg_type) msg.point = none)) ∨
    ∃ c, f.isRun ∧ executeHandler (f.areas msg.msg_type) msg.point = some c ∧
      handle pic f c.handler msg.point msg.found = some g := by
  rw [step] at h
  split at h
  · case isTrue hrun =>
    cases hc : executeHandler (f.areas msg.msg_type) msg.point with
    | none =>
      rw [hc] at h
      cases h
      exact Or.inl ⟨rfl, fun _ => rfl⟩
    | some c =>
      rw [hc] at h
      exact Or.inr ⟨c, hrun, rfl, h⟩
  · case isFalse hrun =>
    cases h
    exact Or.inl ⟨rfl, fun hr => absurd hr hrun⟩

theorem Inv.step (h : Inv f) (hstep : step pic f msg = some g) : Inv g := by
  rcases step_cases hstep with ⟨rfl, -⟩ | ⟨c, -, -, hg⟩
  · exact h
  · rcases handle_cases hg with ⟨style, -, rfl⟩ | ⟨-, hleft, hdouble, hright, -⟩
    · exact (h.relist_as style).relist pic msg.found
    · exact ⟨hleft ▸ h.left, hdouble ▸ h.double, hright ▸ h.right⟩

/-- In a safe state a handler finds its item. -/
theorem Safe.step (pic : Handler → Int × Int) (hinv : Inv f) (h : Safe f) (hp : InWindow msg.point) :
    ∃ g, step pic f msg = some g := by
  rw [Finder.step]
  split
  · cases hc : executeHandler (f.areas msg.msg_type) msg.point with
    | none => exact ⟨f, rfl⟩
    | some c =>
      have hlists : executeHandler f.left_click msg.point = some c ∨ executeHandler f.double_click msg.point = some c := by
        cases htype : msg.msg_type with
        | MSG_DOUBLECLICK =>
          rw [htype] at hc
          exact Or.inr hc
        | MSG_LPRESS =>
          rw [htype] at hc
          exact Or.inl hc
        | MSG_RPRESS =>
          rw [htype, Vars.areas, hinv.right] at hc
          cases hc
      have hcovers := h msg.point hp c hlists
      show ∃ g, handle pic f c.handler msg.point msg.found = some g
      cases hhandler : c.handler with
      | h_enterDir =>
        simp only [Covers, hhandler] at hcovers
        obtain ⟨item, hitem, -⟩ := hcovers
        exact ⟨relist pic f msg.found, by rw [handle, h_enterDir, hitem, Option.map_some]⟩
      | h_chooseFile =>
        simp only [Covers, hhandler] at hcovers
        obtain ⟨item, hitem⟩ := hcovers
        exact ⟨{ f with fileItemList := choose msg.point f.fileItemList }, by
          rw [handle, h_chooseFile, hitem, Option.map_some]⟩
      | _ => exact ⟨_, rfl⟩
  · exact ⟨f, rfl⟩

/-- **A step.** From a safe state the next one is safe if and only if the old directories are replaced. -/
theorem safe_step (hinv : Inv f) (h : Safe f) (hstep : step pic f msg = some g) : Safe g ↔ Meets f msg := by
  rcases step_cases hstep with ⟨rfl, hnone⟩ | ⟨c, hrun, hc, hg⟩
  · refine iff_of_true h fun hrun c hc => ?_
    rw [hnone hrun] at hc
    cases hc
  · rcases handle_cases hg with ⟨style, hstyle, rfl⟩ | ⟨hstyle, hleft, hdouble, -, htypes⟩
    · rw [relist_safe (hinv.relist_as style)]
      constructor
      · intro hnew hrun c' hc' style' hstyle'
        have hcc : c = c' := Option.some.inj (hc.symm.trans hc')
        have hss : style = style' := Option.some.inj (hstyle.symm.trans (hcc ▸ hstyle'))
        exact hss ▸ hnew
      · intro hmeets
        exact hmeets hrun c hc style hstyle
    · refine iff_of_true (h.of_same hleft hdouble htypes) fun hrun c' hc' style' hstyle' => ?_
      have hcc : c = c' := Option.some.inj (hc.symm.trans hc')
      rw [← hcc, hstyle] at hstyle'
      cases hstyle'

/-! ## Runs -/

theorem empty_inv : Inv ⟨style, [], [], [], [], true⟩ where
  left _ h := by cases h
  double _ h := by cases h
  right := rfl

theorem main_inv : Inv (main pic des) := empty_inv.relist pic des

theorem main_safe : Safe (main pic des) := by
  refine (relist_safe empty_inv).2 fun p _ ⟨c, hc, _⟩ => ?_
  cases hc

theorem run_inv {msgs : List Msg} (h : run (step pic) (main pic des) msgs = some f) : Inv f :=
  run_induction (fun _ => Inv) main_inv (fun _ _ _ _ _ hinv hstep => hinv.step hstep) msgs f h

/-- **The areas of the Finder have their items** in every state of a run if and only if at each event that reads the items
again the old directories are replaced. -/
theorem areas_covered (pic : Handler → Int × Int) (des : List Entry) (msgs : List Msg)
    (hin : ∀ msg ∈ msgs, InWindow msg.point) :
    (∀ past, past <+: msgs → ∃ f, run (step pic) (main pic des) past = some f ∧ Safe f) ↔
      ∀ past msg, past ++ [msg] <+: msgs → ∀ f, run (step pic) (main pic des) past = some f → Meets f msg := by
  constructor
  · intro hsafe past msg hpast f hf
    obtain ⟨f', hf', hsafe'⟩ := hsafe past ((List.prefix_append _ _).trans hpast)
    have heq : f' = f := Option.some.inj (hf'.symm.trans hf)
    obtain ⟨g, hg, hnext⟩ := hsafe (past ++ [msg]) hpast
    obtain ⟨t, ht, hstep⟩ := run_snoc.1 hg
    have heq' : t = f := Option.some.inj (ht.symm.trans hf)
    exact (safe_step (run_inv hf) (heq ▸ hsafe') (heq' ▸ hstep)).1 hnext
  · intro hmeets past hpast
    induction past using List.reverseRecOn with
    | nil => exact ⟨main pic des, rfl, main_safe⟩
    | append_singleton past msg ih =>
      obtain ⟨f, hf, hsafe⟩ := ih ((List.prefix_append _ _).trans hpast)
      have hmem : msg ∈ msgs := hpast.subset (List.mem_append_right _ List.mem_cons_self)
      obtain ⟨g, hg⟩ := hsafe.step pic (run_inv hf) (hin msg hmem)
      have hrun : run (step pic) (main pic des) (past ++ [msg]) = some g := run_snoc.2 ⟨f, hf, hg⟩
      exact ⟨g, hrun, (safe_step (run_inv hf) hsafe hg).2 (hmeets past msg hpast f hf)⟩

/-- A directory with one directory in it, which is entered, and then has a directory at the same place. -/
def folder : Entry := ⟨.T_DIR, ['d']⟩

/-- A double click on the first item of the list. -/
def enter (found : List Entry) : Msg := ⟨.MSG_DOUBLECLICK, ⟨10, 100⟩, found⟩

theorem areas_covered_enter :
    ∃ f, run (step fun _ => (32, 32)) (main (fun _ => (32, 32)) [folder]) [enter [folder]] = some f ∧ Safe f := by
  have hin : ∀ msg ∈ [enter [folder]], InWindow msg.point := by simp [enter, InWindow, WINDOW_WIDTH, WINDOW_HEIGHT]
  refine (areas_covered (fun _ => (32, 32)) [folder] [enter [folder]] hin).2 ?_ [enter [folder]] List.prefix_rfl
  intro past msg hpast f hf
  have hone : past = [] ∧ msg = enter [folder] := by
    cases past with
    | nil => simpa using hpast
    | cons a past => simp [List.cons_prefix_cons] at hpast
  obtain ⟨rfl, rfl⟩ := hone
  cases hf
  intro _ c hc style hstyle p hp ⟨old, hold, hat⟩
  have hc' : c = ⟨initRect 0 98 600 30, .h_enterDir⟩ := Option.some.inj (hc.symm.trans rfl)
  rw [hc'] at hstyle
  cases hstyle
  have hold' : old = ⟨initRect 0 98 600 30, .h_enterDir⟩ := List.mem_singleton.1 hold
  rw [hold'] at hat
  exact ⟨⟨.T_DIR, ['d'], initRect 0 98 600 30, false⟩, List.mem_singleton.2 rfl, rfl, hat⟩

/-- A directory is entered that is empty, and its area is still there. -/
theorem areas_stale : ¬∀ (pic : Handler → Int × Int) (des : List Entry) (msgs : List Msg),
    (∀ msg ∈ msgs, InWindow msg.point) →
      ∀ past, past <+: msgs → ∃ f, run (step pic) (main pic des) past = some f ∧ Safe f := by
  intro h
  obtain ⟨f, hf, -⟩ := h (fun _ => (32, 32)) [folder] [enter [], enter []] (by simp [enter, InWindow, WINDOW_WIDTH, WINDOW_HEIGHT]) _ (List.prefix_refl _)
  have hnone : run (step fun _ => (32, 32)) (main (fun _ => (32, 32)) [folder]) [enter [], enter []] = none := by decide
  rw [hnone] at hf
  cases hf

end NewXv6.Finder
