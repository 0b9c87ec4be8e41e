import NewXv6.ShellGui.Model
import Mathlib.Data.List.Induction
import Mathlib.Logic.Function.Basic

/-!
# The rows of the screen

What is printed falls into rows, and the printer keeps the last `LINES` of them, each in its line. A row that is full has no
0 behind it: what follows it is the next line, and where the rows start again in line 0, that holds an old row.
-/

namespace NewXv6.ShellGui

open Lib

/-- The rows of a stream: those that are over, and the last one. -/
structure Rows where
  ended : List (List UInt8)
  last : List UInt8

namespace Rows

/-- A newline ends a row, and the last character it has room for. -/
def put (r : Rows) (c : UInt8) : Rows :=
  if c = newline then ⟨r.ended ++ [r.last], []⟩
  else if r.last.length + 1 = CHARS then ⟨r.ended ++ [r.last ++ [c]], []⟩
  else ⟨r.ended, r.last ++ [c]⟩

def of (stream : List UInt8) : Rows := stream.foldl put ⟨[], []⟩

def all (r : Rows) : List (List UInt8) := r.ended ++ [r.last]

def row (r : Rows) (k : Nat) : List UInt8 := r.all.getD k []

/-- The last `LINES` rows. -/
def shown (r : Rows) : List (List UInt8) := r.all.drop (r.all.length - LINES)

/-- Every full row is in front of a line of the screen that is blank, and nothing is put there. -/
def Clean (r : Rows) : Prop :=
  ∀ k, (r.row k).length = CHARS → k % LINES ≠ LINES - 1 ∧ r.row (k + 1) = [] ∧ (LINES ≤ k + 1 → r.row (k + 1 - LINES) = [])

variable {r : Rows} {c : UInt8} {k : Nat}

/-! ## One character -/

theorem row_of_lt (h : k < r.ended.length) : r.row k = r.ended[k] := by
  unfold row all
  rw [List.getD_append _ _ _ _ h, List.getD_eq_getElem _ _ h]

theorem row_last : r.row r.ended.length = r.last := by
  unfold row all
  rw [List.getD_append_right _ _ _ _ (Nat.le_refl _), Nat.sub_self]
  rfl

theorem row_of_gt (h : r.ended.length < k) : r.row k = [] := by
  unfold row all
  rw [List.getD_eq_default]
  rw [List.length_append]
  exact h

theorem put_newline : r.put newline = ⟨r.ended ++ [r.last], []⟩ := if_pos rfl

theorem put_full (h : c ≠ newline) (hfull : r.last.length + 1 = CHARS) : r.put c = ⟨r.ended ++ [r.last ++ [c]], []⟩ := by
  unfold put
  rw [if_neg h, if_pos hfull]

theorem put_short (h : c ≠ newline) (hshort : r.last.length + 1 ≠ CHARS) : r.put c = ⟨r.ended, r.last ++ [c]⟩ := by
  unfold put
  rw [if_neg h, if_neg hshort]

/-- An empty row at the end is no row. -/
theorem row_push (ended : List (List UInt8)) (last : List UInt8) : row ⟨ended ++ [last], []⟩ = row ⟨ended, last⟩ := by
  funext k
  show ((ended ++ [last]) ++ [[]]).getD k [] = (ended ++ [last]).getD k []
  rcases Nat.lt_or_ge k (ended ++ [last]).length with h | h
  · exact List.getD_append _ _ _ _ h
  · rw [List.getD_append_right _ _ _ _ h, List.getD_eq_default _ _ h]
    cases k - (ended ++ [last]).length <;> rfl

theorem row_newline : (r.put newline).row = r.row := by
  rw [put_newline]
  exact row_push r.ended r.last

theorem row_put (h : c ≠ newline) : (r.put c).row = Function.update r.row r.ended.length (r.last ++ [c]) := by
  have hput : (r.put c).row = row ⟨r.ended, r.last ++ [c]⟩ := by
    by_cases hfull : r.last.length + 1 = CHARS
    · rw [put_full h hfull, row_push]
    · rw [put_short h hfull]
  rw [hput]
  funext k
  rcases Nat.lt_trichotomy k r.ended.length with hk | rfl | hk
  · rw [Function.update_of_ne (Nat.ne_of_lt hk), row_of_lt hk]
    exact row_of_lt (r := ⟨r.ended, r.last ++ [c]⟩) hk
  · rw [Function.update_self]
    exact row_last (r := ⟨r.ended, r.last ++ [c]⟩)
  · rw [Function.update_of_ne (Nat.ne_of_gt hk), row_of_gt hk]
    exact row_of_gt (r := ⟨r.ended, r.last ++ [c]⟩) hk

theorem row_put_ne (h : k ≠ r.ended.length) : (r.put c).row k = r.row k := by
  by_cases hc : c = newline
  · rw [hc, row_newline]
  · rw [row_put hc, Function.update_of_ne h]

/-- The rows of a text: no row is longer than a line, and the last one has room. -/
structure Text (r : Rows) : Prop where
  short : r.last.length < CHARS
  length : ∀ k, (r.row k).length ≤ CHARS
  char : ∀ k, ∀ b ∈ r.row k, b ≠ 0

theorem Text.put (h : r.Text) (hc : c ≠ 0) : (r.put c).Text := by
  by_cases hnl : c = newline
  · subst hnl
    refine ⟨?_, ?_, ?_⟩
    · rw [put_newline]
      exact (by decide : 0 < CHARS)
    · rw [row_newline]
      exact h.length
    · rw [row_newline]
      exact h.char
  · refine ⟨?_, fun k => ?_, fun k b hb => ?_⟩
    · by_cases hfull : r.last.length + 1 = CHARS
      · rw [put_full hnl hfull]
        exact (by decide : 0 < CHARS)
      · rw [put_short hnl hfull]
        show (r.last ++ [c]).length < CHARS
        rw [List.length_append]
        exact Nat.lt_of_le_of_ne h.short hfull
    · rw [row_put hnl]
      by_cases hk : k = r.ended.length
      · rw [hk, Function.update_self, List.length_append]
        exact h.short
      · rw [Function.update_of_ne hk]
        exact h.length k
    · rw [row_put hnl] at hb
      by_cases hk : k = r.ended.length
      · rw [hk, Function.update_self, List.mem_append, List.mem_singleton, ← row_last] at hb
        rcases hb with hb | rfl
        · exact h.char _ b hb
        · exact hc
      · rw [Function.update_of_ne hk] at hb
        exact h.char k b hb

theorem row_eq_nil (h : r.Text) (hzero : (r.row k).getD 0 0 = 0) : r.row k = [] := by
  cases hrow : r.row k with
  | nil => rfl
  | cons b w =>
    rw [hrow] at hzero
    exact absurd hzero (h.char k b (by rw [hrow]; exact List.mem_cons_self))

/-- More characters make no row clean. -/
theorem Clean.of_put (h : (r.put c).Clean) (hr : r.Text) : r.Clean := by
  intro k hk
  have hne : k ≠ r.ended.length := by
    rintro rfl
    rw [row_last] at hk
    exact absurd hk (Nat.ne_of_lt hr.short)
  obtain ⟨hline, hnext, hold⟩ := h k (by rw [row_put_ne hne]; exact hk)
  have hempty : ∀ i, (r.put c).row i = [] → r.row i = [] := by
    intro i hi
    by_cases hn : c = newline
    · rw [hn, row_newline] at hi
      exact hi
    · by_cases hin : i = r.ended.length
      · rw [row_put hn, hin, Function.update_self] at hi
        exact absurd hi (List.append_ne_nil_of_right_ne_nil _ (List.cons_ne_nil _ _))
      · rw [row_put_ne hin] at hi
        exact hi
  exact ⟨hline, hempty _ hnext, fun hl => hempty _ (hold hl)⟩

end Rows

/-! ## The printer -/

namespace Printer

open Rows

variable {s : Printer} {r : Rows} {c : UInt8} {k : Nat}

/-- The printer is at the end of the last row. -/
structure At (s : Printer) (r : Rows) : Prop where
  line : s.line_index = r.ended.length % LINES
  char : s.char_index = r.last.length
  full : s.isFull = true ↔ LINES ≤ r.ended.length

/-- The lines hold the last rows, and blanks behind them. -/
def Holds (s : Printer) (r : Rows) : Prop :=
  ∀ k j, r.ended.length < k + LINES → (k ≤ r.ended.length ∨ k < LINES) → j < CHARS →
    s.printer_buf (CHARS * (k % LINES) + j) = (r.row k).getD j 0

theorem At.next (h : s.At r) (last : List UInt8) : s.nextLine.At ⟨r.ended ++ [last], []⟩ := by
  have hline : s.line_index = r.ended.length % 20 := h.line
  have hfull : s.isFull = true ↔ 20 ≤ r.ended.length := h.full
  unfold nextLine
  split
  next hwrap =>
    have hwrap : 20 ≤ s.line_index + 1 := hwrap
    refine ⟨?_, rfl, ?_⟩
    · show 0 = (r.ended ++ [last]).length % 20
      rw [List.length_append, List.length_singleton]
      omega
    · refine iff_of_true rfl ?_
      show 20 ≤ (r.ended ++ [last]).length
      rw [List.length_append, List.length_singleton]
      omega
  next hwrap =>
    have hwrap : ¬20 ≤ s.line_index + 1 := hwrap
    refine ⟨?_, rfl, ?_⟩
    · show s.line_index + 1 = (r.ended ++ [last]).length % 20
      rw [List.length_append, List.length_singleton]
      omega
    · show s.isFull = true ↔ 20 ≤ (r.ended ++ [last]).length
      rw [hfull, List.length_append, List.length_singleton]
      omega

theorem putChar_newline : s.putChar newline = s.nextLine.clearLine := if_pos rfl

theorem putChar_full (ha : s.At r) (hc : c ≠ newline) (hfull : r.last.length + 1 = CHARS) :
    s.putChar c = (s.store c).nextLine := by
  have hchar : CHARS ≤ (s.store c).char_index := by
    show CHARS ≤ s.char_index + 1
    rw [ha.char]
    exact Nat.le_of_eq hfull.symm
  unfold putChar
  rw [if_neg hc, if_pos hchar]

theorem putChar_short (ha : s.At r) (hc : c ≠ newline) (hshort : r.last.length + 1 < CHARS) : s.putChar c = s.store c := by
  have hchar : ¬CHARS ≤ (s.store c).char_index := by
    show ¬CHARS ≤ s.char_index + 1
    rw [ha.char]
    exact Nat.not_le.2 hshort
  unfold putChar
  rw [if_neg hc, if_neg hchar]

theorem At.store (h : s.At r) (c : UInt8) : (s.store c).At ⟨r.ended, r.last ++ [c]⟩ := by
  refine ⟨h.line, ?_, h.full⟩
  show s.char_index + 1 = (r.last ++ [c]).length
  rw [h.char, List.length_append]
  rfl

theorem At.put (h : s.At r) (hr : r.Text) : (s.putChar c).At (r.put c) := by
  by_cases hc : c = newline
  · obtain ⟨hline, hchar, hfull⟩ := h.next r.last
    rw [hc, put_newline, putChar_newline]
    exact ⟨hline, hchar, hfull⟩
  · rcases Nat.lt_or_eq_of_le hr.short with hshort | hfull
    · rw [put_short hc (Nat.ne_of_lt hshort), putChar_short h hc hshort]
      exact h.store c
    · rw [put_full hc hfull, putChar_full h hc hfull]
      exact (h.store c).next (r.last ++ [c])

/-- The lines of two rows on the screen are different. -/
theorem line_ne {i n : Nat} (hlow : n < i + LINES) (hk : n < k + LINES) (hi : i ≤ n ∨ i < LINES) (hhigh : k ≤ n ∨ k < LINES)
    (hne : i ≠ k) : i % LINES ≠ k % LINES := by
  simp only [LINES] at *
  omega

/-- A cell in another line. -/
theorem address_ne {i l j m : Nat} (hline : i ≠ l) (hj : j < CHARS) (hm : m < CHARS) : CHARS * i + j ≠ CHARS * l + m := by
  simp only [CHARS] at *
  omega

/-- A character in the last row. -/
theorem Holds.cell (h : s.Holds r) (ha : s.At r) (hshort : r.last.length < CHARS) {k j : Nat}
    (hlow : r.ended.length < k + LINES) (hhigh : k ≤ r.ended.length ∨ k < LINES) (hj : j < CHARS) :
    Buffer.store s.printer_buf (CHARS * s.line_index + s.char_index) [c] (CHARS * (k % LINES) + j) =
      (Function.update r.row r.ended.length (r.last ++ [c]) k).getD j 0 := by
  rw [Buffer.store_singleton, ha.line, ha.char]
  by_cases hk : k = r.ended.length
  · subst hk
    have hold := h r.ended.length j hlow hhigh hj
    rw [row_last] at hold
    rw [Function.update_self]
    rcases Nat.lt_trichotomy j r.last.length with hjl | rfl | hjl
    · rw [Function.update_of_ne (by omega), hold, List.getD_append _ _ _ _ hjl]
    · rw [Function.update_self, List.getD_append_right _ _ _ _ (Nat.le_refl _), Nat.sub_self]
      rfl
    · rw [Function.update_of_ne (by omega), hold, List.getD_eq_default _ _ (Nat.le_of_lt hjl), List.getD_eq_default]
      rw [List.length_append]
      exact hjl
  · have hn : r.ended.length < r.ended.length + LINES := Nat.lt_add_of_pos_right (by decide)
    rw [Function.update_of_ne (address_ne (line_ne hlow hn hhigh (Or.inl (Nat.le_refl _)) hk) hj hshort),
      Function.update_of_ne hk]
    exact h k j hlow hhigh hj

theorem nextLine_buf : s.nextLine.printer_buf = s.printer_buf := by
  unfold nextLine
  split <;> rfl

/-- A new line is cleared. -/
theorem Holds.newline (h : s.Holds r) (ha : s.At r) : s.nextLine.clearLine.Holds (r.put newline) := by
  rw [put_newline]
  intro k j hlow hhigh hj
  have hlen : (r.ended ++ [r.last]).length = r.ended.length + 1 := List.length_append
  rw [hlen] at hlow hhigh
  have hline := (ha.next r.last).line
  rw [hlen] at hline
  show Buffer.store s.nextLine.printer_buf (CHARS * s.nextLine.line_index) (List.replicate CHARS 0) (CHARS * (k % LINES) + j) =
    (row ⟨r.ended ++ [r.last], []⟩ k).getD j 0
  rw [hline, row_push, nextLine_buf]
  by_cases hk : k = r.ended.length + 1
  · subst hk
    rw [Buffer.store_add (by rw [List.length_replicate]; exact hj), List.getElem_replicate,
      row_of_gt (Nat.lt_succ_self _)]
    rfl
  · have hn : r.ended.length + 1 < r.ended.length + 1 + LINES := Nat.lt_add_of_pos_right (by decide)
    have hne := line_ne hlow hn hhigh (Or.inl (Nat.le_refl _)) hk
    have hout : CHARS * (k % LINES) + j < CHARS * ((r.ended.length + 1) % LINES) ∨
        CHARS * ((r.ended.length + 1) % LINES) + CHARS ≤ CHARS * (k % LINES) + j := by
      simp only [CHARS] at *
      omega
    have hold : s.printer_buf (CHARS * (k % LINES) + j) = (r.row k).getD j 0 := h k j (by omega) (by omega) hj
    rcases hout with hout | hout
    · rw [Buffer.store_of_lt hout, hold]
    · rw [Buffer.store_of_le (by rw [List.length_replicate]; exact hout), hold]

theorem Holds.put (h : s.Holds r) (ha : s.At r) (hr : r.Text) (hclean : (r.put c).Clean) : (s.putChar c).Holds (r.put c) := by
  by_cases hc : c = ShellGui.newline
  · rw [hc, putChar_newline]
    exact h.newline ha
  · intro k j hlow hhigh hj
    rcases Nat.lt_or_eq_of_le hr.short with hshort | hfull
    · rw [put_short hc (Nat.ne_of_lt hshort)] at hlow hhigh
      rw [putChar_short ha hc hshort, row_put hc]
      exact h.cell ha hr.short hlow hhigh hj
    · rw [put_full hc hfull] at hlow hhigh
      rw [putChar_full ha hc hfull, nextLine_buf]
      have hlen : (r.ended ++ [r.last ++ [c]]).length = r.ended.length + 1 := List.length_append
      rw [hlen] at hlow hhigh
      by_cases hk : k = r.ended.length + 1 ∧ LINES ≤ k
      · -- the new line holds the oldest row on the screen, which is empty
        obtain ⟨rfl, hlines⟩ := hk
        have hrow : ((r.put c).row r.ended.length).length = CHARS := by
          rw [row_put hc, Function.update_self, List.length_append]
          exact hfull
        obtain ⟨-, hnext, hold⟩ := hclean r.ended.length hrow
        have hmod : (r.ended.length + 1) % LINES = (r.ended.length + 1 - LINES) % LINES := Nat.mod_eq_sub_mod hlines
        have hcell := h.cell ha hr.short (c := c) (k := r.ended.length + 1 - LINES) (by omega) (Or.inl (by omega)) hj
        rw [← row_put hc, hold hlines] at hcell
        rw [hnext, hmod]
        exact hcell
      · rw [row_put hc]
        exact h.cell ha hr.short (by omega) (by omega) hj

/-! ## The drawing -/

theorem puts_str_iff {i : Nat} {w : List UInt8} : s.puts_str i = some w ↔ w.length < CHARS * LINES - CHARS * i ∧
    (∀ j (h : j < w.length), s.printer_buf (CHARS * i + j) = w[j] ∧ w[j] ≠ 0) ∧
    s.printer_buf (CHARS * i + w.length) = 0 := by
  unfold puts_str
  rw [Buffer.scan_eq_some]
  simp only [beq_eq_false_iff_ne, beq_iff_eq]

/-- The lines that are drawn are those of the rows on the screen. -/
theorem order_eq (ha : s.At r) :
    s.order = (List.range' (r.ended.length + 1 - LINES) (min (r.ended.length + 1) LINES)).map (· % LINES) := by
  have hline := ha.line
  unfold order
  split
  next hfull =>
    have hover := ha.full.1 hfull
    rw [Nat.min_eq_right (Nat.le_succ_of_le hover), List.range'_eq_map_range, List.map_map]
    refine List.map_congr_left fun j hj => ?_
    show (s.line_index + 1 + j) % LINES = (r.ended.length + 1 - LINES + j) % LINES
    simp only [LINES] at *
    omega
  next hfull =>
    have hover : r.ended.length < LINES := Nat.lt_of_not_le fun h => hfull (ha.full.2 h)
    rw [Nat.sub_eq_zero_of_le hover, Nat.min_eq_left hover, hline, Nat.mod_eq_of_lt hover, ← List.range_eq_range']
    refine (List.map_id _).symm.trans (List.map_congr_left fun j hj => ?_)
    rw [Nat.mod_eq_of_lt (Nat.lt_of_lt_of_le (List.mem_range.1 hj) hover)]
    rfl

theorem shown_eq (r : Rows) :
    r.shown = (List.range' (r.ended.length + 1 - LINES) (min (r.ended.length + 1) LINES)).map r.row := by
  have hall : r.all.length = r.ended.length + 1 := List.length_append
  unfold shown
  refine List.ext_getElem ?_ fun j hj hj' => ?_
  · rw [List.length_drop, List.length_map, List.length_range', hall]
    omega
  · rw [List.getElem_drop, List.getElem_map, List.getElem_range', Nat.one_mul]
    unfold row
    rw [List.getD_eq_getElem _ _ (by rw [List.length_drop] at hj; omega)]
    congr 2
    rw [hall]

/-- The drawing is right if it is for every row on the screen. -/
theorem drawn_iff (ha : s.At r) : s.drawn = r.shown.map some ↔
    ∀ k, r.ended.length < k + LINES → k ≤ r.ended.length → s.puts_str (k % LINES) = some (r.row k) := by
  unfold drawn
  rw [order_eq ha, shown_eq, List.map_map, List.map_map, List.map_inj_left]
  constructor
  · intro h k hlow hhigh
    exact h k (List.mem_range'_1.2 (by omega))
  · intro h k hk
    have hk := List.mem_range'_1.1 hk
    exact h k (by omega) (by omega)

theorem Holds.drawn (h : s.Holds r) (ha : s.At r) (hr : r.Text) (hclean : r.Clean) : s.drawn = r.shown.map some := by
  rw [drawn_iff ha]
  intro k hlow hhigh
  have hmod : k % LINES < LINES := Nat.mod_lt _ (by decide)
  have hcell := fun j hj => h k j hlow (Or.inl hhigh) hj
  have hlast := ha.char
  rw [puts_str_iff]
  refine ⟨?_, fun j hj => ?_, ?_⟩
  · rcases Nat.lt_or_eq_of_le (hr.length k) with hk | hk
    · simp only [LINES, CHARS] at *
      omega
    · have hline := (hclean k hk).1
      simp only [LINES, CHARS] at *
      omega
  · have hj' := Nat.lt_of_lt_of_le hj (hr.length k)
    rw [hcell j hj', List.getD_eq_getElem _ _ hj]
    exact ⟨rfl, hr.char k _ (List.getElem_mem hj)⟩
  · rcases Nat.lt_or_eq_of_le (hr.length k) with hk | hk
    · rw [hcell _ hk, List.getD_eq_default _ _ (Nat.le_refl _)]
    · -- the next line is blank
      obtain ⟨hline, hnext, -⟩ := hclean k hk
      have hne : k ≠ r.ended.length := by
        rintro rfl
        rw [row_last] at hk
        exact absurd hk (Nat.ne_of_lt hr.short)
      have hblank := h (k + 1) 0 (by omega) (Or.inl (by omega)) (by decide)
      rw [hnext] at hblank
      have haddr : CHARS * (k % LINES) + (r.row k).length = CHARS * ((k + 1) % LINES) + 0 := by
        rw [hk]
        simp only [LINES, CHARS] at *
        omega
      rw [haddr]
      exact hblank

/-- A character that is not put clean is drawn wrong. -/
theorem Holds.wrong (h : s.Holds r) (ha : s.At r) (hr : r.Text) (hclean : r.Clean) (hc : c ≠ 0)
    (hbad : ¬(r.put c).Clean) : (s.putChar c).drawn ≠ (r.put c).shown.map some := by
  have hnl : c ≠ ShellGui.newline := by
    rintro rfl
    refine hbad ?_
    unfold Clean
    rw [row_newline]
    exact hclean
  have hlines : LINES = 20 := rfl
  have hput := row_put (r := r) hnl
  have hone : (Function.update r.row r.ended.length (r.last ++ [c]) r.ended.length) = r.last ++ [c] := Function.update_self ..
  intro hdrawn
  rw [drawn_iff (ha.put hr)] at hdrawn
  refine hbad fun k hk => ?_
  by_cases hkn : k = r.ended.length
  · -- the character fills the last row
    subst hkn
    have hfull : r.last.length + 1 = CHARS := by
      rw [hput, hone, List.length_append] at hk
      exact hk
    have hlen : (r.put c).ended.length = r.ended.length + 1 := by
      rw [put_full hnl hfull]
      exact List.length_append
    have hnext : (r.put c).row (r.ended.length + 1) = [] := by
      rw [hput, Function.update_of_ne (Nat.succ_ne_self _), row_of_gt (Nat.lt_succ_self _)]
    refine ⟨?_, hnext, fun hwrap => ?_⟩
    · have hroom := (puts_str_iff.1 (hdrawn r.ended.length (by omega) (by omega))).1
      rw [hk] at hroom
      simp only [LINES, CHARS] at *
      omega
    · have hblank := (puts_str_iff.1 (hdrawn (r.ended.length + 1) (by omega) (by omega))).2.2
      have hmod : (r.ended.length + 1) % LINES = (r.ended.length + 1 - LINES) % LINES := Nat.mod_eq_sub_mod hwrap
      have hold := h.cell ha hr.short (c := c) (k := r.ended.length + 1 - LINES) (j := 0) (by omega) (Or.inl (by omega)) (by decide)
      rw [hnext, putChar_full ha hnl hfull, nextLine_buf, hmod] at hblank
      rw [← hput] at hold
      exact row_eq_nil (hr.put hc) (hold.symm.trans hblank)
  · rw [row_put_ne hkn] at hk
    obtain ⟨hline, hnext, hold⟩ := hclean k hk
    have hlt : k < r.ended.length := by
      refine Nat.lt_of_le_of_ne (Nat.le_of_not_lt fun hgt => ?_) hkn
      rw [row_of_gt hgt] at hk
      exact absurd hk (by decide)
    refine ⟨hline, ?_, fun hwrap => ?_⟩
    · by_cases hk1 : k + 1 = r.ended.length
      · -- the character is the first behind a full row
        have hempty : r.last = [] := by rw [← row_last, ← hk1, hnext]
        have hshort : r.last.length + 1 < CHARS := by
          rw [hempty]
          decide
        have hover : (r.put c).ended.length = r.ended.length := by rw [put_short hnl (Nat.ne_of_lt hshort)]
        have hend := (puts_str_iff.1 (hdrawn k (by omega) (by omega))).2.2
        have hcell := h.cell ha hr.short (c := c) (k := r.ended.length) (j := 0) (by omega) (Or.inl (Nat.le_refl _)) (by decide)
        have haddr : CHARS * (k % LINES) + CHARS = CHARS * (r.ended.length % LINES) + 0 := by
          simp only [LINES, CHARS] at *
          omega
        rw [row_put_ne hkn, hk, putChar_short ha hnl hshort, haddr] at hend
        rw [hone, hempty] at hcell
        exact absurd (hcell.symm.trans hend) hc
      · rw [row_put_ne hk1]
        exact hnext
    · rw [row_put_ne (by omega)]
      exact hold hwrap

/-! ## The runs -/

/-- After every call the drawing is the end of the output. -/
def Right (calls : List (List UInt8)) : Prop :=
  ∀ done, done <+: calls → done ≠ [] →
    (done.foldl string_printer init_printer).drawn = (Rows.of done.flatten).shown.map some

theorem foldl_calls (s : Printer) (calls : List (List UInt8)) :
    calls.foldl string_printer s = s.string_printer calls.flatten := List.foldl_flatten.symm

theorem string_printer_snoc (s : Printer) (stream : List UInt8) (c : UInt8) :
    s.string_printer (stream ++ [c]) = (s.string_printer stream).putChar c := List.foldl_append ..

theorem of_snoc (stream : List UInt8) (c : UInt8) : Rows.of (stream ++ [c]) = (Rows.of stream).put c := List.foldl_append ..

/-- Where the printer is does not depend on what the lines hold. -/
theorem at_of {stream : List UInt8} (hchars : 0 ∉ stream) :
    (init_printer.string_printer stream).At (Rows.of stream) ∧ (Rows.of stream).Text := by
  induction stream using List.reverseRecOn with
  | nil =>
    refine ⟨⟨rfl, rfl, by decide⟩, ⟨by decide, fun k => ?_, fun k b hb => ?_⟩⟩
    · have hrow : (Rows.of []).row k = [] := by cases k <;> rfl
      rw [hrow]
      exact Nat.zero_le _
    · have hrow : (Rows.of []).row k = [] := by cases k <;> rfl
      rw [hrow] at hb
      exact absurd hb List.not_mem_nil
  | append_singleton stream c ih =>
    rw [List.mem_append, not_or, List.mem_singleton] at hchars
    obtain ⟨ha, hr⟩ := ih hchars.1
    rw [string_printer_snoc, of_snoc]
    exact ⟨ha.put hr, hr.put (Ne.symm hchars.2)⟩

theorem holds_of {stream : List UInt8} (hchars : 0 ∉ stream) (hclean : (Rows.of stream).Clean) :
    (init_printer.string_printer stream).Holds (Rows.of stream) := by
  induction stream using List.reverseRecOn with
  | nil =>
    intro k j _ _ _
    have hrow : (Rows.of []).row k = [] := by cases k <;> rfl
    rw [hrow]
    rfl
  | append_singleton stream c ih =>
    rw [List.mem_append, not_or, List.mem_singleton] at hchars
    obtain ⟨ha, hr⟩ := at_of hchars.1
    rw [of_snoc] at hclean
    rw [string_printer_snoc, of_snoc]
    exact (ih hchars.1 (hclean.of_put hr)).put ha hr hclean

theorem clean_prefix {stream more : List UInt8} (hchars : 0 ∉ stream ++ more) (hclean : (Rows.of (stream ++ more)).Clean) :
    (Rows.of stream).Clean := by
  induction more using List.reverseRecOn with
  | nil =>
    rw [List.append_nil] at hclean
    exact hclean
  | append_singleton more c ih =>
    rw [← List.append_assoc] at hchars hclean
    rw [of_snoc] at hclean
    have hchars := fun h => hchars (List.mem_append_left [c] h)
    exact ih hchars (hclean.of_put (at_of hchars).2)

/-- **The window** shows the end of the output, however it is printed, if and only if every full row is clean. -/
theorem rows_right (stream : List UInt8) (hchars : 0 ∉ stream) :
    (∀ calls, calls.flatten = stream → Right calls) ↔ (Rows.of stream).Clean := by
  constructor
  · intro hright
    -- one character a call: the first that is not clean is drawn wrong
    have hall : ∀ first rest, stream = first ++ rest → (Rows.of first).Clean := by
      intro first
      induction first using List.reverseRecOn with
      | nil =>
        intro rest hrest k hk
        have hrow : (Rows.of []).row k = [] := by cases k <;> rfl
        rw [hrow] at hk
        exact absurd hk (by decide)
      | append_singleton first c ih =>
        intro rest hrest
        rw [List.append_assoc] at hrest
        have hclean := ih _ hrest
        have hfirst : 0 ∉ first := fun h => hchars (by rw [hrest]; exact List.mem_append_left _ h)
        have hc : c ≠ 0 := by
          rintro rfl
          exact hchars (by rw [hrest]; exact List.mem_append_right _ List.mem_cons_self)
        obtain ⟨ha, hr⟩ := at_of hfirst
        by_contra hbad
        rw [of_snoc] at hbad
        refine (holds_of hfirst hclean).wrong ha hr hclean hc hbad ?_
        have hdone := hright (stream.map fun b => [b]) (List.flatMap_singleton' stream) ((first ++ [c]).map fun b => [b])
          ((List.IsPrefix.map _ ⟨rest, by rw [hrest, List.append_assoc]⟩)) (by simp)
        have hflat : ((first ++ [c]).map fun b => [b]).flatten = first ++ [c] := List.flatMap_singleton' _
        rw [foldl_calls, hflat, string_printer_snoc, of_snoc] at hdone
        exact hdone
    exact hall stream [] (List.append_nil _).symm
  · rintro hclean calls rfl done ⟨rest, rfl⟩ -
    rw [List.flatten_append] at hclean hchars
    have hdone : 0 ∉ done.flatten := fun h => hchars (List.mem_append_left _ h)
    obtain ⟨ha, hr⟩ := at_of hdone
    have hclean := clean_prefix hchars hclean
    rw [foldl_calls]
    exact (holds_of hdone hclean).drawn ha hr hclean

theorem rows_right_line : Right [[36, 32], [108, 115, 10]] := by
  refine (rows_right [36, 32, 108, 115, 10] (by decide)).2 (fun k hk => ?_) _ rfl
  have hrow : ((Rows.of [36, 32, 108, 115, 10]).row k).length ≤ 4 := by
    rcases k with _ | _ | k
    · decide
    · decide
    · exact Nat.zero_le _
  exact absurd (Nat.le_of_eq hk.symm) (Nat.not_le.2 (Nat.lt_of_le_of_lt hrow (by decide)))

/-- After 81 letters the first line is drawn with the letter of the second. -/
theorem rows_merged : ¬∀ calls : List (List UInt8), 0 ∉ calls.flatten → Right calls := by
  intro h
  have hlong := h [List.replicate 81 97] (by decide) _ List.prefix_rfl (List.cons_ne_nil _ _)
  revert hlong
  decide +kernel

end Printer

end NewXv6.ShellGui
