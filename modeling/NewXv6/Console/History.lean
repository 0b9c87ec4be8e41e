import Mathlib.Data.List.GetD
import Mathlib.Logic.Function.Iterate
import NewXv6.Console.Edit

/-!
# The history of the console (`cgaputc`, `consoleintr`)

An entered line is stored in the history, and the up and down keys put stored lines in the place of the line that is being
typed. A stored line is what stands before its first 0, so a slot with a 0 first is the empty line.

After Enter there is no command to be completed (`commandfilled` is 1 and `matchinputlen` is 0), and a recalled line leaves
none, so the two keys come to the history; what is typed between two prompts is any line.

A recalled line is put into the ring of the input. Where it fits, the ring and the cursor are those of the editor with the
recalled line (`recall_edits`, `enter_edits`); a line that does not fit is left out, as in `Input.Meets`.
-/

namespace NewXv6.Console

open Lib

namespace History

/-- The characters of a line, without its end; none of them is 0. -/
abbrev Line : Type := List UInt8

/-- `history`, `historyno`, and the line between `input.w` and `input.e`. -/
structure State where
  bufarray : Nat → Line
  top : Nat
  base : Nat
  historyno : Int
  pending : Line

/-- After boot. -/
def State.boot : State := ⟨fun _ => [], 0, 0, -1, []⟩

/-- The slot of a line of the history. -/
def State.posno (s : State) : Nat := (((s.top : Int) - 1 - s.historyno + 100) % 100).toNat

/-- The line in the slot becomes the line that is typed, if it is not empty. -/
def State.recall (s : State) : State :=
  if s.bufarray s.posno ≠ [] then { s with pending := s.bufarray s.posno } else s

/-- The key 0xe2. -/
def State.up (s : State) : State :=
  (if s.posno ≠ s.base then { s with historyno := (s.historyno + 1).tmod 100 } else s).recall

/-- The key 0xe3. -/
def State.down (s : State) : State :=
  (if s.posno ≠ (s.top + 99) % 100 then { s with historyno := (s.historyno - 1).tmod 100 } else s).recall

/-- Enter: a line that is not empty sets `historyno`, any line is stored. -/
def State.enter (s : State) (line : Line) : State :=
  let bufarray := Function.update s.bufarray s.top line
  let historyno := if line = [] then s.historyno else -1
  let top := (s.top + 1) % 100
  let base := if (top + 100 - s.base) % 100 = 1 ∧ bufarray top ≠ [] then top else s.base
  ⟨bufarray, top, base, historyno, []⟩

inductive Key
  | up
  | down
  /-- A line is typed, and Enter. -/
  | enter (line : Line)

def step (s : State) : Key → Option State
  | .up => some s.up
  | .down => some s.down
  | .enter line => some (s.enter line)

/-- Lines are not empty, and the history does not wrap; the down key is pressed from the second line on. -/
def State.Meets (s : State) : Key → Prop
  | .up => True
  | .down => 1 ≤ s.historyno
  | .enter line => line ≠ [] ∧ s.top < 99

/-- The lines that have been entered, last one first. -/
def entered : List Key → List Line
  | [] => []
  | .enter line :: tr => line :: entered tr
  | _ :: tr => entered tr

def lines (tr : List Key) : List Line := entered tr.reverse

/-- `k` presses of the up key. -/
def State.ups (s : State) (k : Nat) : State := State.up^[k] s

/-! ## The ring of the input -/

section Ring

variable {s t : State} {b : Input} {l : Console.Line} {c : UInt8} {posoffset : Nat}

/-- The up key goes to an older line and recalls it. -/
theorem up_eq (s : State) :
    ∃ t : State, t.bufarray = s.bufarray ∧ t.top = s.top ∧ t.pending = s.pending ∧ s.up = t.recall := by
  refine ⟨_, ?_, ?_, ?_, rfl⟩ <;> split <;> rfl

/-- The down key goes to a newer line and recalls it. -/
theorem down_eq (s : State) :
    ∃ t : State, t.bufarray = s.bufarray ∧ t.top = s.top ∧ t.pending = s.pending ∧ s.down = t.recall := by
  refine ⟨_, ?_, ?_, ?_, rfl⟩ <;> split <;> rfl

/-- The editor types what the history recalls. -/
theorem typed_recall (hpend : l.pending = t.pending) (hplain : newline ∉ t.bufarray t.posno) (hc : c = 0xe2 ∨ c = 0xe3) :
    l.typed posoffset (.history ⟨t.bufarray t.posno, hplain⟩) c = t.recall.pending := by
  have hnew : c ≠ newline := by rcases hc with rfl | rfl <;> decide
  have harrow : isArrow c = true := by rcases hc with rfl | rfl <;> decide
  have hright : c ≠ 0xe5 := by rcases hc with rfl | rfl <;> decide
  have hrec : (Display.history ⟨t.bufarray t.posno, hplain⟩).recalled c = t.bufarray t.posno := if_pos hc
  unfold State.recall
  by_cases hrow : t.bufarray t.posno = []
  · rw [if_neg (not_not_intro hrow), ← hpend]
    exact Line.typed_arrow harrow (hrec.trans hrow) rfl
  · rw [if_pos hrow]
    unfold Line.typed
    rw [if_neg hnew, if_pos harrow, hrec, if_pos hrow]

/-- **A recall in the ring**: where the recalled line fits, the ring has it as the line that is edited. -/
theorem recall_edits (h : b.Edits posoffset l) (hpend : l.pending = t.pending) (hplain : newline ∉ t.bufarray t.posno)
    (hc : c = 0xe2 ∨ c = 0xe3) (hle : b.w ≤ b.e) (hroom : l.unread.length + l.pending.length < INPUT_BUF)
    (hfits : l.unread.length + t.recall.pending.length < INPUT_BUF) :
    let r := b.keyintr (.history ⟨t.bufarray t.posno, hplain⟩) posoffset c
    r.1.Edits r.2 { l with pending := t.recall.pending } := by
  have hrec : (Display.history ⟨t.bufarray t.posno, hplain⟩).recalled c = t.bufarray t.posno := if_pos hc
  have htyped := @typed_recall t l c posoffset hpend hplain hc
  have hmeets : b.Meets posoffset l (.history ⟨t.bufarray t.posno, hplain⟩) c := by
    refine ⟨fun hl => ?_, fun _ htext => ?_, fun hne _ => ⟨hle, ?_⟩, fun hne => absurd rfl hne⟩
    · rcases hc with rfl | rfl <;> exact absurd hl (by decide)
    · rcases hc with rfl | rfl <;> exact absurd htext (by decide)
    · rw [hrec] at hne ⊢
      have hrow : t.recall.pending = t.bufarray t.posno := by
        unfold State.recall
        rw [if_pos hne]
      rw [← hrow]
      exact Nat.le_of_lt hfits
  have hedit : l.edit posoffset (.history ⟨t.bufarray t.posno, hplain⟩) c = { l with pending := t.recall.pending } := by
    have hplainKey : c ≠ ctrlP ∧ c ≠ ctrlU ∧ ¬(c = ctrlH ∨ c = delete) ∧ c ≠ 0 ∧ c ≠ carriage ∧ c ≠ newline ∧ c ≠ ctrlD := by
      rcases hc with rfl | rfl <;> decide
    obtain ⟨hP, hU, hB, hzero, hcar, hnew, hD⟩ := hplainKey
    unfold Line.edit
    rw [if_neg hP, if_neg hU, if_neg hB, if_neg (fun hd => hd.elim hzero (Nat.not_le.2 hroom))]
    dsimp only
    rw [if_neg hcar, htyped]
    unfold Line.commit
    exact if_neg fun hend => hend.elim hnew fun hend => hend.elim hD (Nat.ne_of_lt hfits)
  have hkey := h.keyintr hmeets
  rw [hedit] at hkey
  exact hkey

/-- **Enter in the ring**: the line that the history stores is committed, and a new one begins. -/
theorem enter_edits {d : Display} (h : b.Edits posoffset l) (hroom : l.unread.length + l.pending.length < INPUT_BUF) :
    let r := b.keyintr d posoffset newline
    r.1.Edits r.2 { l with committed := l.committed ++ (l.pending ++ [newline]), pending := (s.enter l.pending).pending } := by
  have hmeets : b.Meets posoffset l d newline := by
    refine ⟨fun hc => absurd hc (by decide), fun _ hc => absurd hc (by decide), fun hne => absurd ?_ hne,
      fun hne => absurd ?_ hne⟩ <;> cases d <;> rfl
  have hedit : l.edit posoffset d newline = { l with committed := l.committed ++ (l.pending ++ [newline]), pending := [] } := by
    unfold Line.edit
    rw [if_neg (by decide), if_neg (by decide), if_neg (by decide),
      if_neg (fun hd => hd.elim (by decide) (Nat.not_le.2 hroom))]
    dsimp only
    rw [if_neg (by decide)]
    unfold Line.commit Line.typed
    rw [if_pos rfl, if_pos (Or.inl rfl)]
  have hkey := h.keyintr hmeets
  rw [hedit] at hkey
  exact hkey

end Ring

/-! ## Runs -/

/-- What the history has, and where it is. -/
structure Good (ls : List Line) (s : State) : Prop where
  top : s.top = ls.length
  small : s.top ≤ 99
  base : s.base = 0
  stored : ∀ i, i < ls.length → s.bufarray (s.top - 1 - i) = ls.getD i []
  rest : ∀ i, s.top ≤ i → s.bufarray i = []
  full : ∀ l ∈ ls, l ≠ []
  ge : -1 ≤ s.historyno
  lt : s.historyno < s.top

section History

variable {ls : List Line} {s : State} {j : Nat}

theorem Good.posno (h : Good ls s) : s.posno = ((s.top : Int) - 1 - s.historyno).toNat := by
  have := h.small
  have := h.ge
  have := h.lt
  unfold State.posno
  omega

theorem Good.recall (h : Good ls s) (hj : s.historyno = j) :
    s.recall = { s with pending := ls.getD j [] } ∧ ls.getD j [] ≠ [] := by
  have hlt := h.lt
  have htop := h.top
  have hjlt : j < ls.length := by omega
  have hpos : s.posno = s.top - 1 - j := by
    rw [h.posno]
    omega
  have hslot := h.stored j hjlt
  have hne : ls.getD j [] ≠ [] := by
    rw [List.getD_eq_getElem _ _ hjlt]
    exact h.full _ (List.getElem_mem hjlt)
  unfold State.recall
  rw [hpos, hslot, if_pos hne]
  exact ⟨rfl, hne⟩

theorem Good.move (h : Good ls s) {n : Int} (hge : -1 ≤ n) (hlt : n < s.top) (line : Line) :
    Good ls { s with historyno := n, pending := line } :=
  ⟨h.top, h.small, h.base, h.stored, h.rest, h.full, hge, hlt⟩

/-- **Up** goes to the line before, and stays at the oldest one. -/
theorem Good.up (h : Good ls s) (hne : ls ≠ []) :
    s.up = { s with
      historyno := min (s.historyno + 1) (s.top - 1), pending := ls.getD (min (s.historyno + 1) (s.top - 1)).toNat [] } := by
  have hpos : 0 < ls.length := List.length_pos_iff.2 hne
  have hposno := h.posno
  have htop := h.top
  have hsmall := h.small
  have hge := h.ge
  have hlt := h.lt
  unfold State.up
  by_cases hlast : s.historyno = s.top - 1
  · have hmin : min (s.historyno + 1) (s.top - 1 : Int) = s.historyno := by omega
    obtain ⟨hrecall, -⟩ := h.recall (j := s.historyno.toNat) (by omega)
    have hoff : ¬s.posno ≠ s.base := by
      rw [hposno, h.base]
      omega
    rw [if_neg hoff, hrecall, hmin]
  · have hmin : min (s.historyno + 1) (s.top - 1 : Int) = s.historyno + 1 := by omega
    have hmod : (s.historyno + 1).tmod 100 = s.historyno + 1 := by
      rw [Int.tmod_eq_emod_of_nonneg (by omega)]
      omega
    have hmoved : Good ls { s with historyno := s.historyno + 1 } := h.move (by omega) (by omega) _
    obtain ⟨hrecall, -⟩ := hmoved.recall (j := (s.historyno + 1).toNat) (by show s.historyno + 1 = _; omega)
    have hon : s.posno ≠ s.base := by
      rw [hposno, h.base]
      omega
    rw [if_pos hon, hmod, hrecall, hmin]

/-- **Down** goes back by one line. -/
theorem Good.down (h : Good ls s) (hj : 1 ≤ s.historyno) :
    s.down = { s with historyno := s.historyno - 1, pending := ls.getD (s.historyno - 1).toNat [] } := by
  have hposno := h.posno
  have hsmall := h.small
  have hlt := h.lt
  have hmod : (s.historyno - 1).tmod 100 = s.historyno - 1 := by
    rw [Int.tmod_eq_emod_of_nonneg (by omega)]
    omega
  have hmoved : Good ls { s with historyno := s.historyno - 1 } := h.move (by omega) (by omega) _
  obtain ⟨hrecall, -⟩ := hmoved.recall (j := (s.historyno - 1).toNat) (by show s.historyno - 1 = _; omega)
  unfold State.down
  rw [hposno, if_pos (by omega), hmod, hrecall]

/-- **Enter** stores the line. -/
theorem Good.enter (h : Good ls s) {line : Line} (hline : line ≠ []) (hroom : s.top < 99) : Good (line :: ls) (s.enter line) := by
  have htop := h.top
  have hmod : (s.top + 1) % 100 = s.top + 1 := Nat.mod_eq_of_lt (by omega)
  have hnext : Function.update s.bufarray s.top line (s.top + 1) = [] := by
    rw [Function.update_of_ne (by omega)]
    exact h.rest _ (by omega)
  have henter : s.enter line = ⟨Function.update s.bufarray s.top line, s.top + 1, s.base, -1, []⟩ := by
    unfold State.enter
    dsimp only
    rw [hmod, if_neg hline, if_neg (fun hc => hc.2 hnext)]
  rw [henter]
  refine ⟨by rw [htop]; rfl, by show s.top + 1 ≤ 99; omega, h.base, fun i hi => ?_, fun i hi => ?_, fun l hl => ?_, ?_, ?_⟩
  · show Function.update s.bufarray s.top line (s.top + 1 - 1 - i) = _
    rw [List.length_cons] at hi
    cases i with
    | zero =>
      rw [Nat.add_sub_cancel, Nat.sub_zero, Function.update_self]
      rfl
    | succ i =>
      rw [Function.update_of_ne (by omega), List.getD_cons_succ, ← h.stored i (by omega)]
      congr 1
      omega
  · show Function.update s.bufarray s.top line i = []
    have hi : s.top + 1 ≤ i := hi
    rw [Function.update_of_ne (by omega)]
    exact h.rest i (by omega)
  · rcases List.mem_cons.1 hl with rfl | hl
    · exact hline
    · exact h.full l hl
  · exact Int.le_refl (-1)
  · show (-1 : Int) < ((s.top + 1 : Nat) : Int)
    omega

theorem Good.up_empty (h : Good [] s) : s.up = s := by
  have htop : s.top = 0 := h.top
  have hge := h.ge
  have hlt := h.lt
  have hposno : s.posno = 0 := by
    rw [h.posno]
    omega
  have hslot : s.bufarray s.posno = [] := h.rest _ (by omega)
  unfold State.up
  rw [if_neg (by rw [hposno, h.base]; exact fun hc => hc rfl)]
  unfold State.recall
  rw [if_neg (fun hc => hc hslot)]

theorem Good.up_good (h : Good ls s) : Good ls s.up := by
  by_cases hne : ls = []
  · subst hne
    rw [h.up_empty]
    exact h
  · have hpos : 0 < ls.length := List.length_pos_iff.2 hne
    have htop := h.top
    have hge := h.ge
    rw [h.up hne]
    exact h.move (by omega) (by omega) _

/-- `k + 1` presses on a fresh prompt. -/
theorem Good.ups (h : Good ls s) (hfresh : s.historyno = -1) (hne : ls ≠ []) (k : Nat) :
    s.ups (k + 1) = { s with historyno := (min k (ls.length - 1) : Nat), pending := ls.getD (min k (ls.length - 1)) [] } := by
  have hpos : 0 < ls.length := List.length_pos_iff.2 hne
  have htop := h.top
  induction k with
  | zero =>
    have hmin : min (s.historyno + 1) (s.top - 1 : Int) = ((min 0 (ls.length - 1) : Nat) : Int) := by omega
    show s.up = _
    rw [h.up hne, hmin]
    rfl
  | succ k ih =>
    have hstep : s.ups (k + 1 + 1) = (s.ups (k + 1)).up := Function.iterate_succ_apply' _ _ _
    have hgood : Good ls (s.ups (k + 1)) := by
      rw [ih]
      exact h.move (by omega) (by omega) _
    have hmin : min ((s.ups (k + 1)).historyno + 1) ((s.ups (k + 1)).top - 1 : Int) =
        ((min (k + 1) (ls.length - 1) : Nat) : Int) := by
      rw [hgood.top, ih]
      dsimp only
      omega
    rw [hstep, hgood.up hne, hmin, ih]
    rfl

/-- Down after more than one press. -/
theorem Good.down_ups (h : Good ls s) (hfresh : s.historyno = -1) {k : Nat} (hk : k + 2 ≤ ls.length) :
    (s.ups (k + 2)).down = s.ups (k + 1) := by
  have hne : ls ≠ [] := List.ne_nil_of_length_pos (by omega)
  have hups := h.ups hfresh hne
  have htop := h.top
  have hgood : Good ls (s.ups (k + 2)) := by
    rw [hups]
    exact h.move (by omega) (by omega) _
  have hno : (s.ups (k + 2)).historyno = ((k + 1 : Nat) : Int) := by
    rw [hups]
    show ((min (k + 1) (ls.length - 1) : Nat) : Int) = _
    omega
  have hprev : ((k + 1 : Nat) : Int) - 1 = ((min k (ls.length - 1) : Nat) : Int) := by omega
  rw [hgood.down (by omega), hno, hprev, hups, hups]
  rfl

theorem lines_snoc (tr : List Key) (a : Key) : lines (tr ++ [a]) = match a with
    | .enter line => line :: lines tr
    | _ => lines tr := by
  unfold lines
  rw [List.reverse_append]
  cases a <;> rfl

theorem boot_good : Good [] State.boot :=
  ⟨rfl, Nat.zero_le _, rfl, nofun, fun _ _ => rfl, nofun, Int.le_refl _, by decide⟩

/-- The history of a run. -/
theorem good_of_path {tr : List Key} (h : Path step State.Meets .boot tr s) : Good (lines tr) s := by
  induction h with
  | nil => exact boot_good
  | @snoc tr s t a _ ha hstep ih =>
    rw [lines_snoc]
    cases a with
    | up =>
      cases hstep
      exact ih.up_good
    | down =>
      have hge : 1 ≤ s.historyno := ha
      have hlt := ih.lt
      cases hstep
      rw [ih.down hge]
      exact ih.move (by omega) (by omega) _
    | enter line =>
      cases hstep
      exact ih.enter ha.1 ha.2

/-- Nothing has been pressed since the last Enter. -/
def Fresh (tr : List Key) : Prop := tr = [] ∨ ∃ tr' line, tr = tr' ++ [.enter line]

theorem fresh_historyno {tr : List Key} (h : Path step State.Meets .boot tr s) (hfresh : Fresh tr) : s.historyno = -1 := by
  cases h with
  | nil => rfl
  | @snoc tr' r _ a _ ha hstep =>
    rcases hfresh with hnil | ⟨tr'', line, heq⟩
    · exact absurd hnil (by simp)
    · obtain ⟨-, rfl⟩ := List.append_inj' heq rfl |>.imp id fun h => List.cons.inj h |>.1
      cases hstep
      exact if_neg ha.1

/-- **History recall walks back in order**, while the history does not wrap and has no empty line. -/
theorem recall_right (tr : List Key) (s : State) (h : Path step State.Meets .boot tr s) (hfresh : Fresh tr) :
    ∀ k, 1 ≤ k → lines tr ≠ [] →
      (s.ups k).pending = (lines tr).getD (min k (lines tr).length - 1) [] ∧
      (2 ≤ k → k ≤ (lines tr).length → (s.ups k).down = s.ups (k - 1)) := by
  intro k hk hne
  have hgood := good_of_path h
  have hno := fresh_historyno h hfresh
  obtain ⟨j, rfl⟩ : ∃ j, k = j + 1 := ⟨k - 1, by omega⟩
  have hpos : 0 < (lines tr).length := List.length_pos_iff.2 hne
  refine ⟨?_, fun hk₂ hle => ?_⟩
  · have hmin : min j ((lines tr).length - 1) = min (j + 1) (lines tr).length - 1 := by omega
    rw [hgood.ups hno hne, ← hmin]
  · obtain ⟨i, rfl⟩ : ∃ i, j = i + 1 := ⟨j - 1, by omega⟩
    exact hgood.down_ups hno hle

/-- Two lines, the first recalled and entered again. -/
theorem recall_right_twice : ∃ s, Path step State.Meets .boot [.enter [97], .up, .enter [98]] s ∧
    (s.ups 2).pending = (lines [.enter [97], .up, .enter [98]]).getD 1 [] := by
  have hfirst : Path step State.Meets .boot [.enter [97]] _ := .snoc .nil ⟨by decide, by decide⟩ rfl
  have hsecond : Path step State.Meets .boot [.enter [97], .up] _ := hfirst.snoc trivial rfl
  have hpath : Path step State.Meets .boot [.enter [97], .up, .enter [98]] _ := hsecond.snoc ⟨by decide, by decide⟩ rfl
  exact ⟨_, hpath, (recall_right _ _ hpath (Or.inr ⟨[.enter [97], .up], [98], rfl⟩) 2 (by decide) (by decide)).1⟩

/-- 100 lines. -/
def hundred : List Key := (List.range 100).map fun i => .enter [UInt8.ofNat (i + 1)]

/-- Down does not take back the first up, an empty line is in the way of the line before it, and after 100 lines up begins
with the oldest one. -/
theorem recall_wrong :
    ((run step .boot [.enter [97], .up, .down]).map State.pending = some [97]) ∧
    ((run step .boot [.enter [97], .enter [], .up]).map State.pending = some []) ∧
    (run step .boot (hundred ++ [.up])).map State.pending = some [1] := by
  refine ⟨by decide, by decide, by decide +kernel⟩

end History

end History

end NewXv6.Console
