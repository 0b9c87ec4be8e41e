import NewXv6.Editor.Model

/-!
# The commands of the editor

Each command is an operation on the list of the lines. With `MAX_LINE_NUMBER` lines there is no null pointer behind the last:
inserting loses a line or needs an index more, and every loop up to the null pointer leaves `text`.
-/

namespace NewXv6.Editor

open Lib

/-! ## The operations -/

/-- Insert a line behind line `n`; an empty last line is filled, and gets an empty line behind it. -/
def insert (lines : List (List UInt8)) (n : Int) (line : List UInt8) : List (List UInt8) :=
  if n < 0 ∨ lines.length < n then lines
  else if n = lines.length ∧ lines.getLast? = some [] then lines.dropLast ++ [line, []]
  else lines.insertIdx n.toNat line

def modify (lines : List (List UInt8)) (n : Int) (line : List UInt8) : List (List UInt8) :=
  if n ≤ 0 ∨ lines.length < n then lines else lines.set (n.toNat - 1) line

/-- A single line is emptied. -/
def delete (lines : List (List UInt8)) (n : Int) : List (List UInt8) :=
  if n ≤ 0 ∨ lines.length < n then lines
  else if lines.length = 1 then [[]]
  else lines.eraseIdx (n.toNat - 1)

/-! ## The text -/

/-- A string that a line has room for. -/
def Fit (line : List UInt8) : Prop := line.length < MAX_LINE_LENGTH ∧ 0 ∉ line

namespace Text

/-- The text holds these lines, and null behind them. -/
structure Holds (t : Text) (lines : List (List UInt8)) : Prop where
  ne : lines ≠ []
  le : lines.length ≤ MAX_LINE_NUMBER
  cell : ∀ i < MAX_LINE_NUMBER, t i = lines[i]?
  fit : ∀ line ∈ lines, Fit line

/-- The run ends with these lines. -/
def Gives (r : Option Text) (lines : List (List UInt8)) : Prop := ∃ t, r = some t ∧ t.Holds lines

variable {t : Text} {lines front : List (List UInt8)} {line : List UInt8} {i n : Nat} {auto_show : Bool}

theorem Holds.pos (h : t.Holds lines) : 0 < lines.length := List.length_pos_iff.2 h.ne

theorem Holds.set (h : t.Holds lines) (hi : i < lines.length) (hline : Fit line) :
    (t.set i (some line)).Holds (lines.set i line) := by
  refine ⟨fun hnil => ?_, ?_, fun j hj => ?_, fun l hl => ?_⟩
  · have hlen := congrArg List.length hnil
    rw [List.length_set] at hlen
    exact h.ne (List.length_eq_zero_iff.1 hlen)
  · rw [List.length_set]
    exact h.le
  · rw [List.getElem?_set]
    split
    next heq =>
      subst heq
      exact Function.update_self ..
    next hne =>
      rw [← h.cell j hj]
      exact Function.update_of_ne (Ne.symm hne) ..
  · rcases List.mem_or_eq_of_mem_set hl with hl | rfl
    · exact h.fit l hl
    · exact hline

theorem Holds.push (h : t.Holds lines) (hlen : lines.length < MAX_LINE_NUMBER) (hline : Fit line) :
    (t.set lines.length (some line)).Holds (lines ++ [line]) := by
  refine ⟨List.append_ne_nil_of_left_ne_nil h.ne _, ?_, fun j hj => ?_, fun l hl => ?_⟩
  · rw [List.length_append]
    exact hlen
  · rcases Nat.lt_trichotomy j lines.length with hlt | rfl | hgt
    · rw [List.getElem?_append_left hlt, ← h.cell j hj]
      exact Function.update_of_ne (Nat.ne_of_lt hlt) ..
    · rw [List.getElem?_concat_length]
      exact Function.update_self ..
    · rw [List.getElem?_eq_none (by rw [List.length_append]; exact hgt), ← List.getElem?_eq_none (Nat.le_of_lt hgt),
        ← h.cell j hj]
      exact Function.update_of_ne (Nat.ne_of_gt hgt) ..
  · rcases List.mem_append.1 hl with hl | hl
    · exact h.fit l hl
    · rw [List.mem_singleton.1 hl]
      exact hline

theorem Holds.pop (h : t.Holds (front ++ [line])) (hne : front ≠ []) : (t.set front.length none).Holds front := by
  have hle := h.le
  rw [List.length_append] at hle
  refine ⟨hne, Nat.le_of_succ_le hle, fun j hj => ?_, fun l hl => h.fit l (List.mem_append_left _ hl)⟩
  rcases Nat.lt_trichotomy j front.length with hlt | rfl | hgt
  · have hfront : (front ++ [line])[j]? = front[j]? := List.getElem?_append_left hlt
    rw [← hfront, ← h.cell j hj]
    exact Function.update_of_ne (Nat.ne_of_lt hlt) ..
  · rw [List.getElem?_eq_none (Nat.le_refl _)]
    exact Function.update_self ..
  · have hnone : (front ++ [line])[j]? = none := List.getElem?_eq_none (by rw [List.length_append]; exact hgt)
    rw [List.getElem?_eq_none (Nat.le_of_lt hgt), ← hnone, ← h.cell j hj]
    exact Function.update_of_ne (Nat.ne_of_gt hgt) ..

theorem Holds.number (h : t.Holds lines) : t.get_line_number + 1 = lines.length := by
  have hfirst : ∀ n i, n + i = MAX_LINE_NUMBER → i ≤ lines.length → t.firstNull n i = lines.length := by
    intro n
    induction n with
    | zero =>
      intro i hi hle
      have hmax := h.le
      show i = lines.length
      omega
    | succ n ih =>
      intro i hi hle
      rw [firstNull, h.cell i (by omega)]
      split
      next hnone =>
        have hge := List.getElem?_eq_none_iff.1 hnone
        omega
      next hsome =>
        refine ih (i + 1) (by omega) ?_
        by_contra hlt
        exact hsome (List.getElem?_eq_none (by omega))
  unfold get_line_number
  rw [hfirst MAX_LINE_NUMBER 0 rfl (Nat.zero_le _)]
  omega

/-- The null pointer is found if there is one. -/
theorem Holds.toNull (h : t.Holds lines) :
    t.toNull = if lines.length < MAX_LINE_NUMBER then some (lines.map some) else none := by
  unfold Text.toNull
  split
  next hlt =>
    refine Buffer.scan_of_at (fun j hj => ?_) (fun l hl => ?_) ?_ ?_
    · rw [List.length_map] at hj
      rw [Nat.zero_add, h.cell j (Nat.lt_trans hj hlt), List.getElem_map, List.getElem?_eq_getElem hj]
    · obtain ⟨l, -, rfl⟩ := List.mem_map.1 hl
      rfl
    · rw [Nat.zero_add, List.length_map, h.cell _ hlt, List.getElem?_eq_none (Nat.le_refl _)]
      rfl
    · rw [List.length_map]
      exact hlt
  next hge =>
    refine Buffer.scan_eq_none.2 fun j hj => ?_
    rw [Nat.zero_add, h.cell j hj, List.getElem?_eq_getElem (by omega)]
    rfl

theorem Holds.shown (h : t.Holds lines) :
    Gives (t.shown auto_show) lines ↔ (auto_show = true → lines.length < MAX_LINE_NUMBER) := by
  unfold Text.shown show_text
  cases auto_show with
  | false => exact iff_of_true ⟨t, rfl, h⟩ nofun
  | true =>
    rw [if_pos rfl, h.toNull]
    split
    next hlt => exact iff_of_true ⟨t, rfl, h⟩ fun _ => hlt
    next hge => exact iff_of_false (fun ⟨_, hnone, _⟩ => nomatch hnone) fun hlt => hge (hlt rfl)

/-! ## Inserting -/

theorem move_self (t : Text) (i : Nat) : t.move i i = if t (i - 1) = none then t i else t (i - 1) := by
  unfold move
  cases hline : t (i - 1) with
  | none => rw [if_pos rfl]
  | some l =>
    rw [if_neg nofun]
    exact Function.update_self ..

theorem move_ne {j : Nat} (t : Text) (h : j ≠ i) : t.move i j = t j := by
  unfold move
  cases t (i - 1) with
  | none => rfl
  | some l => exact Function.update_of_ne h ..

theorem shift_of_lt {m : Nat} (t : Text) (n : Nat) (h : m < i) : t.shift n m i = t i := by
  induction m generalizing t with
  | zero => rfl
  | succ m ih =>
    rw [shift]
    split
    next => rw [ih _ (by omega), move_ne _ (by omega)]
    next => rfl

theorem shift_of_le {m : Nat} (t : Text) (h : i ≤ n) : t.shift n m i = t i := by
  induction m generalizing t with
  | zero => rfl
  | succ m ih =>
    rw [shift]
    split
    next hn => rw [ih, move_ne _ (by omega)]
    next => rfl

/-- The loop moves the lines behind line `n` by one. -/
theorem shift_mid {m : Nat} (t : Text) (hlow : n < i) (hhigh : i ≤ m) :
    t.shift n m i = if t (i - 1) = none then t i else t (i - 1) := by
  induction m generalizing t with
  | zero => omega
  | succ m ih =>
    rw [shift, if_pos (by omega)]
    rcases Nat.lt_or_eq_of_le hhigh with hlt | rfl
    · rw [ih _ (by omega), move_ne _ (by omega), move_ne _ (by omega)]
    · rw [shift_of_lt _ _ (by omega), move_self]

/-- The place of the new line is made and filled. -/
theorem Holds.insertIdx (h : t.Holds lines) (hn : n < lines.length) (hlen : lines.length < MAX_LINE_NUMBER) (hline : Fit line) :
    ((t.shift n (MAX_LINE_NUMBER - 1)).set n (some line)).Holds (lines.insertIdx n line) := by
  have hinsert : (lines.insertIdx n line).length = lines.length + 1 := List.length_insertIdx_of_le_length (Nat.le_of_lt hn) line
  refine ⟨fun hnil => ?_, ?_, fun i hi => ?_, fun l hl => ?_⟩
  · have h0 := congrArg List.length hnil
    rw [hinsert] at h0
    exact Nat.succ_ne_zero _ h0
  · rw [hinsert]
    exact hlen
  · rcases Nat.lt_trichotomy i n with hlt | rfl | hgt
    · rw [List.getElem?_insertIdx_of_lt hlt, ← h.cell i hi, ← shift_of_le t (Nat.le_of_lt hlt)]
      exact Function.update_of_ne (Nat.ne_of_lt hlt) ..
    · rw [List.getElem?_insertIdx_self, if_pos (Nat.le_of_lt hn)]
      exact Function.update_self ..
    · have hshift := shift_mid t hgt (show i ≤ MAX_LINE_NUMBER - 1 by omega)
      rw [h.cell _ hi, h.cell _ (by omega)] at hshift
      have hset : (t.shift n (MAX_LINE_NUMBER - 1)).set n (some line) i = t.shift n (MAX_LINE_NUMBER - 1) i :=
        Function.update_of_ne (Nat.ne_of_gt hgt) ..
      rw [hset, hshift, List.getElem?_insertIdx_of_gt hgt]
      split
      next hnone => rw [hnone, List.getElem?_eq_none (Nat.le_trans (List.getElem?_eq_none_iff.1 hnone) (Nat.sub_le _ _))]
      next => rfl
  · rcases (List.mem_insertIdx (Nat.le_of_lt hn)).1 hl with rfl | hl
    · exact hline
    · exact h.fit l hl

/-! ## Deleting -/

theorem eraseIdx_swap {l : List (List UInt8)} {i : Nat} (hi : i + 1 < l.length) (line : List UInt8) :
    ((l.set i l[i + 1]).set (i + 1) line).eraseIdx (i + 1) = l.eraseIdx i := by
  refine List.ext_getElem? fun j => ?_
  rw [List.getElem?_eraseIdx, List.getElem?_eraseIdx]
  rcases Nat.lt_trichotomy j i with hlt | rfl | hgt
  · rw [if_pos (by omega), if_pos hlt, List.getElem?_set_ne (by omega), List.getElem?_set_ne (by omega)]
  · rw [if_pos (by omega), if_neg (by omega), List.getElem?_set_ne (by omega), List.getElem?_set_self (by omega),
      List.getElem?_eq_getElem hi]
  · rw [if_neg (by omega), if_neg (by omega), List.getElem?_set_ne (by omega), List.getElem?_set_ne (by omega)]

/-- The loop moves the lines behind the emptied one, which comes to the end. -/
theorem Holds.close (h : t.Holds lines) (hlen : lines.length < MAX_LINE_NUMBER) (hi : i < lines.length)
    (hempty : lines[i] = []) (hfuel : MAX_LINE_NUMBER ≤ n + i) :
    ∃ u, t.close n i = some (u, lines.length - 1) ∧ u.Holds (lines.eraseIdx i ++ [[]]) := by
  induction n generalizing t lines i with
  | zero => omega
  | succ n ih =>
    rw [Text.close, at_, if_pos (by omega), h.cell _ (by omega), Option.bind_some]
    by_cases hlast : i + 1 = lines.length
    · rw [List.getElem?_eq_none (by omega)]
      refine ⟨t, by rw [← hlast]; rfl, ?_⟩
      have heq : lines.eraseIdx i ++ [[]] = lines := by
        rw [List.eraseIdx_eq_take_drop_succ, hlast, List.drop_length, List.append_nil, ← hempty]
        rw [List.take_append_getElem, hlast, List.take_length]
      rw [heq]
      exact h
    · have hi' : i + 1 < lines.length := by omega
      rw [List.getElem?_eq_getElem hi']
      have hset : ((t.set i (some lines[i + 1])).set (i + 1) (some [])).Holds ((lines.set i lines[i + 1]).set (i + 1) []) :=
        (h.set hi (h.fit _ (List.getElem_mem hi'))).set (by rw [List.length_set]; exact hi') ⟨by decide, List.not_mem_nil⟩
      obtain ⟨u, hclose, hu⟩ := ih hset (by simpa using hlen) (by simpa using hi') (by simp) (by omega)
      refine ⟨u, ?_, ?_⟩
      · simpa using hclose
      · rwa [eraseIdx_swap hi'] at hu

theorem Holds.close_full (h : t.Holds lines) (hlen : lines.length = MAX_LINE_NUMBER) (hi : i < lines.length) :
    t.close n i = none := by
  induction n generalizing t lines i with
  | zero => rfl
  | succ n ih =>
    rw [Text.close, at_]
    by_cases hlast : i + 1 < MAX_LINE_NUMBER
    · have hi' : i + 1 < lines.length := by omega
      rw [if_pos hlast, h.cell _ hlast, List.getElem?_eq_getElem hi', Option.bind_some]
      have hset : ((t.set i (some lines[i + 1])).set (i + 1) (some [])).Holds ((lines.set i lines[i + 1]).set (i + 1) []) :=
        (h.set hi (h.fit _ (List.getElem_mem hi'))).set (by rw [List.length_set]; exact hi') ⟨by decide, List.not_mem_nil⟩
      exact ih hset (by simpa using hlen) (by simpa using hi')
    · rw [if_neg hlast]
      rfl

theorem Holds.delete (h : t.Holds lines) (hlen : lines.length < MAX_LINE_NUMBER) (hi : i < lines.length) :
    ∃ u, (t.set i (some [])).close MAX_LINE_NUMBER i = some (u, lines.length - 1) ∧
      (if lines.length - 1 ≠ 0 then u.set (lines.length - 1) none else u).Holds
        (if lines.length = 1 then [[]] else lines.eraseIdx i) := by
  have hset : (t.set i (some [])).Holds (lines.set i []) := h.set hi ⟨by decide, List.not_mem_nil⟩
  obtain ⟨u, hclose, hu⟩ := hset.close (n := MAX_LINE_NUMBER) (by rw [List.length_set]; exact hlen)
    (by rw [List.length_set]; exact hi) (List.getElem_set_self ..) (Nat.le_add_right _ _)
  rw [List.length_set] at hclose
  rw [List.eraseIdx_set_eq] at hu
  refine ⟨u, hclose, ?_⟩
  have herase : (lines.eraseIdx i).length = lines.length - 1 := List.length_eraseIdx_of_lt hi
  by_cases hone : lines.length = 1
  · rw [if_neg (by omega), if_pos hone]
    have hnil : lines.eraseIdx i = [] := List.length_eq_zero_iff.1 (by omega)
    rwa [hnil] at hu
  · rw [if_pos (by omega), if_neg hone, ← herase]
    refine hu.pop fun hnil => ?_
    rw [hnil] at herase
    exact hone (by rw [List.length_nil] at herase; have := h.pos; omega)

end Text

/-! ## The commands -/

open Text

/-- A command with the line that is typed for it. -/
inductive Command
  | ins (n : Int) (extra typed : List UInt8)
  | mod (n : Int) (extra typed : List UInt8)
  | del (n : Int)

namespace Command

def run (auto_show : Bool) (t : Text) : Command → Option Text
  | ins n extra typed => t.com_ins auto_show n extra typed
  | mod n extra typed => t.com_mod auto_show n extra typed
  | del n => t.com_del auto_show n

def result (lines : List (List UInt8)) : Command → List (List UInt8)
  | ins n extra typed => insert lines n (content extra typed)
  | mod n extra typed => modify lines n (content extra typed)
  | del n => delete lines n

/-- The new line is short enough. -/
def Fits : Command → Prop
  | ins _ extra typed => Fit (content extra typed)
  | mod _ extra typed => Fit (content extra typed)
  | del _ => True

/-- With a valid line number a null pointer stays behind the lines wherever it is looked for. -/
def Meets (auto_show : Bool) (lines : List (List UInt8)) : Command → Prop
  | ins n _ _ =>
    0 ≤ n ∧ n ≤ lines.length → lines.length < MAX_LINE_NUMBER ∧ (auto_show = true → lines.length + 1 < MAX_LINE_NUMBER)
  | mod n _ _ => 0 < n ∧ n ≤ lines.length → auto_show = true → lines.length < MAX_LINE_NUMBER
  | del n => 0 < n ∧ n ≤ lines.length → lines.length < MAX_LINE_NUMBER

end Command

section Right

variable {t : Text} {lines : List (List UInt8)} {n : Int} {auto_show : Bool} {extra typed : List UInt8}

theorem length_insert (hlow : 0 ≤ n) (hhigh : n ≤ lines.length) (line : List UInt8) :
    (insert lines n line).length = lines.length + 1 := by
  unfold insert
  rw [if_neg (by omega)]
  split
  next hlast =>
    have hne : lines ≠ [] := by
      rintro rfl
      exact nomatch hlast.2
    have hpos := List.length_pos_iff.2 hne
    rw [List.length_append, List.length_dropLast]
    show lines.length - 1 + 2 = lines.length + 1
    omega
  next => exact List.length_insertIdx_of_le_length (by omega) line

/-- What `com_ins` leaves before it shows the text. -/
theorem Text.Holds.com_ins (h : t.Holds lines) (auto_show : Bool) (hlow : 0 ≤ n) (hhigh : n ≤ lines.length)
    (hlen : lines.length < MAX_LINE_NUMBER) (hfit : Fit (content extra typed)) :
    ∃ u : Text, t.com_ins auto_show n extra typed = u.shown auto_show ∧ u.Holds (insert lines n (content extra typed)) := by
  have hnumber := h.number
  have hpos := h.pos
  unfold Text.com_ins insert
  rw [if_neg (by omega), if_neg (by omega)]
  by_cases hend : n = lines.length
  · -- behind the last line nothing is moved
    have hn : n.toNat = lines.length := by omega
    have hsame : ∀ i < MAX_LINE_NUMBER, t.shift lines.length (MAX_LINE_NUMBER - 1) i = t i := by
      intro i hi
      rcases Nat.lt_or_ge lines.length i with hgt | hle
      · have hnone : t (i - 1) = none := by rw [h.cell _ (by omega), List.getElem?_eq_none (by omega)]
        rw [shift_mid t hgt (by omega), if_pos hnone]
      · exact shift_of_le t hle
    have hshift : (t.shift lines.length (MAX_LINE_NUMBER - 1)).Holds lines :=
      ⟨h.ne, h.le, fun i hi => by rw [hsame i hi, h.cell i hi], h.fit⟩
    have hat : (t.shift lines.length (MAX_LINE_NUMBER - 1)).at_ lines.length = some none := by
      unfold at_
      rw [if_pos hlen, hshift.cell _ hlen, List.getElem?_eq_none (Nat.le_refl _)]
    have hlast : t.shift lines.length (MAX_LINE_NUMBER - 1) (lines.length - 1) = lines.getLast? := by
      rw [hshift.cell _ (by omega), List.getLast?_eq_getElem?]
    rw [hn]
    simp only
    rw [hat, Option.bind_some, if_pos rfl, if_neg (by omega), hlast]
    by_cases hempty : lines.getLast? = some []
    · rw [if_pos hempty, if_pos ⟨hend, hempty⟩]
      refine ⟨_, rfl, ?_⟩
      obtain ⟨front, rfl⟩ := List.getLast?_eq_some_iff.1 hempty
      have hpush := hshift.push hlen ⟨by decide, List.not_mem_nil⟩
      have hset := hpush.set (i := front.length) (by simp) hfit
      have hlines : (front ++ [[]] ++ [[]]).set front.length (content extra typed) =
          (front ++ [[]]).dropLast ++ [content extra typed, []] := by
        rw [List.append_assoc, List.set_append_right _ _ (Nat.le_refl _), Nat.sub_self, List.dropLast_concat]
        rfl
      rw [hlines] at hset
      simpa using hset
    · rw [if_neg hempty, if_neg fun hand => hempty hand.2]
      refine ⟨_, rfl, ?_⟩
      rw [List.insertIdx_length_self]
      exact hshift.push hlen hfit
  · have hn : n.toNat < lines.length := by omega
    have hat : (t.shift n.toNat (MAX_LINE_NUMBER - 1)).at_ n.toNat = some (some lines[n.toNat]) := by
      unfold at_
      rw [if_pos (by omega), shift_of_le t (Nat.le_refl _), h.cell _ (by omega), List.getElem?_eq_getElem hn]
    simp only
    rw [hat, Option.bind_some, if_neg nofun, if_neg fun hand => hend hand.1]
    exact ⟨_, rfl, h.insertIdx hn hlen hfit⟩

/-- **A command** does the operation on the lines, inside `text`, if and only if it meets the condition. -/
theorem command_right (h : t.Holds lines) (c : Command) (hfit : c.Fits) :
    Gives (c.run auto_show t) (c.result lines) ↔ c.Meets auto_show lines := by
  have hnumber := h.number
  have hle := h.le
  cases c with
  | ins n extra typed =>
    show Gives (t.com_ins auto_show n extra typed) (insert lines n (content extra typed)) ↔
      (0 ≤ n ∧ n ≤ lines.length → lines.length < MAX_LINE_NUMBER ∧ (auto_show = true → lines.length + 1 < MAX_LINE_NUMBER))
    by_cases hvalid : 0 ≤ n ∧ n ≤ lines.length
    · rw [forall_prop_of_true hvalid]
      have hlength := length_insert hvalid.1 hvalid.2 (content extra typed)
      by_cases hlen : lines.length < MAX_LINE_NUMBER
      · obtain ⟨u, hrun, hu⟩ := h.com_ins auto_show hvalid.1 hvalid.2 hlen hfit
        rw [hrun, hu.shown, hlength]
        exact (and_iff_right hlen).symm
      · refine iff_of_false ?_ fun hand => hlen hand.1
        rintro ⟨u, -, hu⟩
        have hmax := hu.le
        omega
    · refine iff_of_true ?_ fun hand => absurd hand hvalid
      unfold Text.com_ins insert
      rw [if_pos (by omega), if_pos (by omega)]
      exact ⟨t, rfl, h⟩
  | mod n extra typed =>
    show Gives (t.com_mod auto_show n extra typed) (modify lines n (content extra typed)) ↔
      (0 < n ∧ n ≤ lines.length → auto_show = true → lines.length < MAX_LINE_NUMBER)
    unfold Text.com_mod modify
    by_cases hvalid : 0 < n ∧ n ≤ lines.length
    · rw [forall_prop_of_true hvalid, if_neg (by omega), if_neg (by omega), at_, if_pos (by omega), Option.bind_some,
        (h.set (by omega) hfit).shown, List.length_set]
    · rw [if_pos (by omega), if_pos (by omega)]
      exact iff_of_true ⟨t, rfl, h⟩ fun hand => absurd hand hvalid
  | del n =>
    show Gives (t.com_del auto_show n) (delete lines n) ↔ (0 < n ∧ n ≤ lines.length → lines.length < MAX_LINE_NUMBER)
    unfold Text.com_del delete
    by_cases hvalid : 0 < n ∧ n ≤ lines.length
    · have hi : n.toNat - 1 < lines.length := by omega
      rw [forall_prop_of_true hvalid, if_neg (by omega), if_neg (by omega), at_, if_pos (by omega), Option.bind_some]
      by_cases hlen : lines.length < MAX_LINE_NUMBER
      · obtain ⟨u, hclose, hu⟩ := h.delete hlen hi
        rw [hclose, Option.bind_some]
        refine iff_of_true (hu.shown.2 fun _ => ?_) hlen
        split
        · decide
        · rw [List.length_eraseIdx_of_lt hi]
          omega
      · have hset : (t.set (n.toNat - 1) (some [])).Holds (lines.set (n.toNat - 1) []) :=
          h.set hi ⟨by decide, List.not_mem_nil⟩
        rw [hset.close_full (by rw [List.length_set]; omega) (by rw [List.length_set]; exact hi)]
        exact iff_of_false (fun ⟨_, hnone, _⟩ => nomatch hnone) hlen
    · rw [if_pos (by omega), if_pos (by omega)]
      exact iff_of_true ⟨t, rfl, h⟩ fun hand => absurd hand hvalid

/-- The text with these lines. -/
def ofLines (lines : List (List UInt8)) : Text := fun i => lines[i]?

theorem holds_ofLines (hne : lines ≠ []) (hle : lines.length ≤ MAX_LINE_NUMBER) (hfit : ∀ line ∈ lines, Fit line) :
    (ofLines lines).Holds lines := ⟨hne, hle, fun _ _ => rfl, hfit⟩

theorem fit_one {c : UInt8} (h : c ≠ 0) : Fit [c] :=
  ⟨(by decide : 1 < MAX_LINE_LENGTH), fun hzero => h (List.mem_singleton.1 hzero).symm⟩

theorem command_right_ins :
    Gives (Command.run true (ofLines [[97]]) (.ins 1 [98] [])) (Command.result [[97]] (.ins 1 [98] [])) := by
  have hline : ∀ line ∈ [[97]], Fit line := fun line hline => List.mem_singleton.1 hline ▸ fit_one (by decide)
  exact (command_right (holds_ofLines (List.cons_ne_nil _ _) (by decide) hline) (.ins 1 [98] []) (fit_one (by decide))).2
    fun _ => ⟨by decide, fun _ => by decide⟩

/-- With all lines in use a line more has no place. -/
theorem command_full : ¬∀ (auto_show : Bool) (t : Text) (lines : List (List UInt8)) (c : Command), t.Holds lines → c.Fits →
    Gives (c.run auto_show t) (c.result lines) := by
  intro h
  have hfull : (ofLines (List.replicate 256 [97])).Holds (List.replicate 256 [97]) := by
    refine holds_ofLines (List.cons_ne_nil _ _) (Nat.le_of_eq List.length_replicate) fun line hline => ?_
    rw [List.eq_of_mem_replicate hline]
    exact fit_one (by decide)
  obtain ⟨u, -, hu⟩ := h false _ _ (.ins 0 [98] []) hfull (fit_one (by decide))
  have hle : (insert (List.replicate 256 [97]) 0 [98]).length ≤ MAX_LINE_NUMBER := hu.le
  rw [length_insert (Int.le_refl 0) (Int.natCast_nonneg _), List.length_replicate] at hle
  exact absurd hle (by decide)

/-! ## Sessions -/

/-- Commands one after another, each with the `auto_show` it meets. -/
def session (t : Text) : List (Bool × Command) → Option Text
  | [] => some t
  | (auto_show, c) :: commands => (c.run auto_show t).bind fun t => session t commands

/-- Every command of the session meets the condition in the lines it comes to. -/
def SessionMeets (lines : List (List UInt8)) : List (Bool × Command) → Prop
  | [] => True
  | (auto_show, c) :: commands => c.Meets auto_show lines ∧ SessionMeets (c.result lines) commands

theorem session_right {commands : List (Bool × Command)} (h : t.Holds lines) (hfit : ∀ p ∈ commands, p.2.Fits)
    (hmeets : SessionMeets lines commands) :
    Gives (session t commands) (commands.foldl (fun lines p => p.2.result lines) lines) := by
  induction commands generalizing t lines with
  | nil => exact ⟨t, rfl, h⟩
  | cons p commands ih =>
    obtain ⟨auto_show, c⟩ := p
    obtain ⟨u, hrun, hu⟩ := (command_right h c (hfit _ List.mem_cons_self)).2 hmeets.1
    obtain ⟨v, hsession, hv⟩ := ih hu (fun p hp => hfit p (List.mem_cons_of_mem _ hp)) hmeets.2
    exact ⟨v, by rw [session, hrun, Option.bind_some, hsession], hv⟩

end Right

end NewXv6.Editor
