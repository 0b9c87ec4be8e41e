import NewXv6.Editor.Commands
import Mathlib.Data.List.TakeWhile

/-!
# Opening and saving a file

The loader puts together the lines from the chunks that `read` gives, and `com_save` writes them with a newline between two.
-/

namespace NewXv6.Editor

open Lib

/-- The lines that are over, and the last one. -/
structure Lines where
  ended : List (List UInt8)
  last : List UInt8

namespace Lines

def all (s : Lines) : List (List UInt8) := s.ended ++ [s.last]

def put (s : Lines) (c : UInt8) : Lines := if c = newline then ⟨s.ended ++ [s.last], []⟩ else ⟨s.ended, s.last ++ [c]⟩

/-- The lines after more bytes. -/
def read (s : Lines) (bytes : List UInt8) : Lines := bytes.foldl put s

variable {s : Lines} {w bytes : List UInt8} {lines : List (List UInt8)}

theorem put_newline : s.put newline = ⟨s.ended ++ [s.last], []⟩ := if_pos rfl

theorem put_of_ne {c : UInt8} (h : c ≠ newline) : s.put c = ⟨s.ended, s.last ++ [c]⟩ := if_neg h

theorem read_append (s : Lines) (bytes more : List UInt8) : s.read (bytes ++ more) = (s.read bytes).read more :=
  List.foldl_append ..

theorem read_of_not_mem (h : newline ∉ w) : s.read w = ⟨s.ended, s.last ++ w⟩ := by
  induction w generalizing s with
  | nil =>
    rw [List.append_nil]
    rfl
  | cons c w ih =>
    rw [List.mem_cons, not_or] at h
    show (s.put c).read w = _
    rw [put_of_ne (Ne.symm h.1), ih h.2, List.append_assoc]
    rfl

/-- A line that is over stays, and one that is begun is the beginning of a line. -/
theorem read_prefix (s : Lines) (bytes : List UInt8) :
    s.ended <+: (s.read bytes).ended ∧ ∃ line ∈ (s.read bytes).all, s.last <+: line := by
  induction bytes generalizing s with
  | nil => exact ⟨List.prefix_rfl, s.last, List.mem_append_right _ List.mem_cons_self, List.prefix_rfl⟩
  | cons c bytes ih =>
    obtain ⟨hover, line, hline, hlast⟩ := ih (s.put c)
    show s.ended <+: ((s.put c).read bytes).ended ∧ ∃ line ∈ ((s.put c).read bytes).all, s.last <+: line
    by_cases hc : c = newline
    · rw [hc, put_newline] at hover ⊢
      refine ⟨(List.prefix_append _ _).trans hover, s.last, List.mem_append_left _ (hover.subset ?_), List.prefix_rfl⟩
      exact List.mem_append_right _ List.mem_cons_self
    · rw [put_of_ne hc] at hover hline hlast ⊢
      exact ⟨hover, line, hline, (List.prefix_append _ _).trans hlast⟩

theorem read_intercalate (hlines : ∀ line ∈ lines, newline ∉ line) (hne : lines ≠ []) (ended : List (List UInt8)) :
    (read ⟨ended, []⟩ ([newline].intercalate lines)).all = ended ++ lines := by
  induction lines generalizing ended with
  | nil => exact absurd rfl hne
  | cons line lines ih =>
    have hline := hlines line List.mem_cons_self
    cases lines with
    | nil =>
      rw [List.intercalate_singleton, read_of_not_mem hline]
      rfl
    | cons next lines =>
      have hnext : read ⟨ended, line⟩ [newline] = ⟨ended ++ [line], []⟩ := put_newline
      rw [List.intercalate_cons_cons, read_append, read_append, read_of_not_mem hline, List.nil_append, hnext,
        ih (fun l hl => hlines l (List.mem_cons_of_mem _ hl)) (List.cons_ne_nil _ _), List.append_assoc]
      rfl

end Lines

/-! ## The loader -/

namespace Load

/-- The loader is in the last of these lines. -/
structure At (s : Load) (l : Lines) : Prop where
  text : s.text.Holds l.all
  line_number : s.line_number = l.ended.length
  is_full : s.is_full = false

variable {s : Load} {l : Lines} {piece bytes : List UInt8} {chunks : List (List UInt8)}

theorem length_all (l : Lines) : l.all.length = l.ended.length + 1 := List.length_append

theorem At.add (h : s.At l) (hfit : Fit (l.last ++ piece)) : (s.add piece).At ⟨l.ended, l.last ++ piece⟩ := by
  have hlen := length_all l
  have hle := h.text.le
  have hcell : s.text s.line_number = some l.last := by
    rw [h.line_number, h.text.cell _ (by omega)]
    exact List.getElem?_concat_length
  have hroom : ¬MAX_LINE_LENGTH ≤ piece.length + l.last.length := by
    have hshort := hfit.1
    rw [List.length_append] at hshort
    omega
  have hset : (s.text.set l.ended.length (some (l.last ++ piece))).Holds (l.all.set l.ended.length (l.last ++ piece)) :=
    h.text.set (by omega) hfit
  have hall : l.all.set l.ended.length (l.last ++ piece) = Lines.all ⟨l.ended, l.last ++ piece⟩ := by
    unfold Lines.all
    rw [List.set_append_right _ _ (Nat.le_refl _), Nat.sub_self]
    rfl
  refine ⟨?_, h.line_number, h.is_full⟩
  unfold Load.add Text.strcat_n
  rw [hcell, Option.map_some, if_neg hroom, h.line_number, ← hall]
  exact hset

theorem At.nextLine (h : s.At l) (hroom : l.ended.length + 2 ≤ MAX_LINE_NUMBER) : s.nextLine.At ⟨l.ended ++ [l.last], []⟩ := by
  have hlen := length_all l
  have hnumber := h.line_number
  have hpush : (s.text.set l.all.length (some [])).Holds (l.all ++ [[]]) :=
    h.text.push (by omega) ⟨by decide, List.not_mem_nil⟩
  rw [hlen] at hpush
  unfold Load.nextLine
  rw [if_neg (by omega), hnumber]
  exact ⟨hpush, hlen.symm, h.is_full⟩

theorem At.chunk (h : s.At l) (hfit : ∀ line ∈ (l.read bytes).all, Fit line)
    (hroom : (l.read bytes).all.length ≤ MAX_LINE_NUMBER) : (s.chunk bytes).At (l.read bytes) := by
  induction hlen : bytes.length using Nat.strongRecOn generalizing s l bytes with
  | ind n ih =>
    rw [Load.chunk]
    have hbytes := List.takeWhile_append_dropWhile (p := (· ≠ newline)) (l := bytes)
    have hpiece : newline ∉ bytes.takeWhile (· ≠ newline) := by
      intro hmem
      have hne := List.mem_takeWhile_imp hmem
      simp at hne
    split
    next hdrop =>
      -- no newline in what is left
      rw [hdrop, List.append_nil] at hbytes
      rw [hbytes] at hpiece
      have hread := Lines.read_of_not_mem (s := l) hpiece
      rw [hread] at hfit ⊢
      exact h.add (hfit _ (List.mem_append_right _ List.mem_cons_self))
    next c more hdrop =>
      have hc : c = newline := by
        have hne := List.head?_dropWhile_not (· ≠ newline) bytes
        rw [hdrop] at hne
        simpa using hne
      rw [hdrop, hc] at hbytes
      have hread : l.read bytes = Lines.read ⟨l.ended ++ [l.last ++ bytes.takeWhile (· ≠ newline)], []⟩ more := by
        conv_lhs => rw [← hbytes, Lines.read_append, Lines.read_of_not_mem hpiece]
        exact congrArg (fun l => Lines.read l more) Lines.put_newline
      rw [hread] at hfit hroom ⊢
      obtain ⟨hover, -⟩ :=
        Lines.read_prefix ⟨l.ended ++ [l.last ++ bytes.takeWhile (· ≠ newline)], []⟩ more
      have hlines := hover.length_le
      rw [length_all] at hroom
      rw [List.length_append] at hlines
      have hadd := h.add (hfit _ (List.mem_append_left _ (hover.subset (List.mem_append_right _ List.mem_cons_self))))
      have hnext := hadd.nextLine (Nat.le_trans (Nat.succ_le_succ hlines) hroom)
      simp only [hnext.is_full, Bool.false_eq_true, false_or]
      split
      next hmore =>
        rw [hmore]
        exact hnext
      next hmore =>
        have hshort : more.length < n := by
          rw [← hlen, ← hbytes, List.length_append, List.length_cons]
          omega
        exact ih more.length hshort hnext hfit (by rw [length_all]; exact hroom) rfl

/-- The loader over all the reads. -/
theorem At.load (h : s.At l) (hfit : ∀ line ∈ (l.read chunks.flatten).all, Fit line)
    (hroom : (l.read chunks.flatten).all.length ≤ MAX_LINE_NUMBER) : (s.load chunks).At (l.read chunks.flatten) := by
  induction chunks generalizing s l with
  | nil => exact h
  | cons bytes chunks ih =>
    rw [List.flatten_cons, Lines.read_append] at hfit hroom ⊢
    obtain ⟨hover, line, hline, hlast⟩ := Lines.read_prefix (l.read bytes) chunks.flatten
    have hchunk : (s.chunk bytes).At (l.read bytes) := by
      refine h.chunk (fun first hfirst => ?_) ?_
      · rcases List.mem_append.1 hfirst with hfirst | hfirst
        · exact hfit first (List.mem_append_left _ (hover.subset hfirst))
        · rw [List.mem_singleton.1 hfirst]
          exact ⟨Nat.lt_of_le_of_lt hlast.length_le (hfit line hline).1, fun hzero => (hfit line hline).2 (hlast.subset hzero)⟩
      · rw [length_all] at hroom ⊢
        exact Nat.le_trans (Nat.succ_le_succ hover.length_le) hroom
    rw [Load.load, hchunk.is_full, if_neg Bool.false_ne_true]
    exact ih hchunk hfit hroom

theorem at_start : start.At ⟨[], []⟩ := by
  refine ⟨⟨List.cons_ne_nil _ _, by decide, fun i _ => ?_, fun line hline => ?_⟩, rfl, rfl⟩
  · cases i <;> rfl
  · rw [List.mem_singleton.1 hline]
    exact ⟨by decide, List.not_mem_nil⟩

end Load

/-! ## The file -/

/-- The file with these lines. -/
def fileOf (lines : List (List UInt8)) : List UInt8 := [newline].intercalate lines

/-- `main` up to the commands, and then `com_save`: what is written. -/
def openSave (chunks : List (List UInt8)) : Option (List UInt8) := (Load.start.load chunks).text.show_text.bind Text.com_save

variable {lines chunks : List (List UInt8)}

theorem loaded (hne : lines ≠ []) (hle : lines.length ≤ MAX_LINE_NUMBER) (hlines : ∀ line ∈ lines, Fit line ∧ newline ∉ line)
    (hchunks : chunks.flatten = fileOf lines) : (Load.start.load chunks).text.Holds lines := by
  have hread : (Lines.read ⟨[], []⟩ chunks.flatten).all = lines := by
    rw [hchunks]
    exact Lines.read_intercalate (fun line hline => (hlines line hline).2) hne []
  have hload : (Load.start.load chunks).At (Lines.read ⟨[], []⟩ chunks.flatten) :=
    Load.at_start.load (fun line hline => (hlines line (hread ▸ hline)).1) (hread ▸ hle)
  have htext := hload.text
  rwa [hread] at htext

theorem openSave_eq (hne : lines ≠ []) (hle : lines.length ≤ MAX_LINE_NUMBER)
    (hlines : ∀ line ∈ lines, Fit line ∧ newline ∉ line) (hchunks : chunks.flatten = fileOf lines) :
    openSave chunks = if lines.length < MAX_LINE_NUMBER then some (fileOf lines) else none := by
  have htext := loaded hne hle hlines hchunks
  unfold openSave Text.show_text Text.com_save
  rw [htext.toNull]
  split
  next hlt =>
    rw [Option.map_some, Option.bind_some, htext.toNull, if_pos hlt, Option.map_some, List.map_map]
    exact congrArg (fun l => some ([newline].intercalate l)) (List.map_id lines)
  next => rfl

/-- **Opening and saving** writes the file again, inside `text`, if and only if a null pointer is left. -/
theorem open_save (lines chunks : List (List UInt8)) (hne : lines ≠ []) (hle : lines.length ≤ MAX_LINE_NUMBER)
    (hlines : ∀ line ∈ lines, Fit line ∧ newline ∉ line) (hchunks : chunks.flatten = fileOf lines) :
    openSave chunks = some (fileOf lines) ↔ lines.length < MAX_LINE_NUMBER := by
  rw [openSave_eq hne hle hlines hchunks]
  split
  next hlt => exact iff_of_true rfl hlt
  next hge => exact iff_of_false nofun hge

theorem open_save_two : openSave [[97], [10]] = some (fileOf [[97], []]) := by
  refine (open_save [[97], []] [[97], [10]] (List.cons_ne_nil _ _) (by decide) (fun line hline => ?_) rfl).2 (by decide)
  rcases List.mem_cons.1 hline with rfl | hline
  · exact ⟨fit_one (by decide), by decide⟩
  · rw [List.mem_singleton.1 hline]
    exact ⟨⟨by decide, List.not_mem_nil⟩, List.not_mem_nil⟩

/-- A file with as many lines as there are pointers. -/
theorem open_full : ¬∀ lines chunks : List (List UInt8), lines ≠ [] → lines.length ≤ MAX_LINE_NUMBER →
    (∀ line ∈ lines, Fit line ∧ newline ∉ line) → chunks.flatten = fileOf lines →
    (∀ chunk ∈ chunks, chunk ≠ [] ∧ chunk.length ≤ 256) → openSave chunks = some (fileOf lines) := by
  intro h
  have hlen : (List.replicate 256 ([] : List UInt8)).length = MAX_LINE_NUMBER := List.length_replicate
  have hlines : ∀ line ∈ List.replicate 256 ([] : List UInt8), Fit line ∧ newline ∉ line := by
    intro line hline
    rw [List.eq_of_mem_replicate hline]
    exact ⟨⟨by decide, List.not_mem_nil⟩, List.not_mem_nil⟩
  have hne : List.replicate 256 ([] : List UInt8) ≠ [] := List.ne_nil_of_length_pos (by rw [hlen]; decide)
  have hfile : [fileOf (List.replicate 256 [])].flatten = fileOf (List.replicate 256 []) := List.flatten_singleton
  have hsave := h _ _ hne (Nat.le_of_eq hlen) hlines hfile (by decide +kernel)
  rw [openSave_eq hne (Nat.le_of_eq hlen) hlines hfile, hlen, if_neg (Nat.lt_irrefl _)] at hsave
  exact nomatch hsave

end NewXv6.Editor
