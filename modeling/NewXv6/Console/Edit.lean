import NewXv6.Console.Keyboard
import NewXv6.Lib.Path

/-!
# The keyboard line as an editor

A key leaves a line in the buffer (`Input.Keyed`), which is then committed or not (`Input.Keyed.commit`). Keys that meet
`Input.Meets` and rounds of reads keep `Tty.Edits`: the buffer has the line of the editor, and the cursor is in it.
-/

namespace NewXv6.Console

open Lib

/-! ## Keys -/

section Keys

variable {s : Input} {l : Line} {d : Display} {c : UInt8} {posoffset : Nat} {p : List UInt8}

theorem Line.before_append_after (l : Line) (posoffset : Nat) : l.before posoffset ++ l.after posoffset = l.pending :=
  List.take_append_drop _ _

theorem Line.length_after (h : posoffset ≤ l.pending.length) : (l.after posoffset).length = posoffset := by
  unfold Line.after
  rw [List.length_drop]
  omega

theorem Line.after_zero (l : Line) : l.after 0 = [] := by
  unfold Line.after
  rw [Nat.sub_zero, List.drop_length]

theorem Line.before_zero (l : Line) : l.before 0 = l.pending := by
  rw [← l.before_append_after 0, l.after_zero, List.append_nil]

theorem Input.Edits.room (h : s.Edits posoffset l) : l.unread.length + l.pending.length ≤ INPUT_BUF := by
  have hbound := h.has.holds.bound
  rwa [List.length_append] at hbound

/-- The buffer with the line that a key leaves, before it is committed. -/
structure Input.Keyed (s : Input) (posoffset : Nat) (l : Line) (c : UInt8) (p : List UInt8) : Prop where
  holds : s.ring.Holds (l.unread ++ p)
  write : s.w = s.r + BitVec.ofNat 32 l.unread.length
  cursor : posoffset ≤ p.length
  plain : c ≠ newline → newline ∉ p
  ends : c = newline ∨ c = ctrlD ∨ l.unread.length + p.length = INPUT_BUF → posoffset = 0

theorem Input.Keyed.commit (h : s.Keyed posoffset l c p) (htaken : l.taken ≤ l.committed.length) :
    (s.commit c).Edits posoffset (l.commit c p) := by
  have hfull : s.e = s.r + BitVec.ofNat 32 INPUT_BUF ↔ l.unread.length + p.length = INPUT_BUF := by
    have hiff := h.holds.full_iff size_lt
    unfold Ring.full at hiff
    rw [decide_eq_true_iff, List.length_append] at hiff
    exact hiff
  unfold Input.commit Line.commit
  by_cases hend : c = newline ∨ c = ctrlD ∨ l.unread.length + p.length = INPUT_BUF
  · rw [if_pos hend, if_pos (hend.imp id (Or.imp id hfull.2))]
    have hunread : (({ l with committed := l.committed ++ p, pending := [] } : Line).unread) = l.unread ++ p :=
      List.drop_append_of_le_length htaken
    refine ⟨⟨?_, ?_, List.not_mem_nil, ?_⟩, ?_, fun _ => rfl⟩
    · rw [hunread, List.append_nil]
      exact h.holds
    · rw [hunread]
      exact h.holds.count
    · show l.taken ≤ (l.committed ++ p).length
      rw [List.length_append]
      exact htaken.trans (Nat.le_add_right _ _)
    · rw [h.ends hend]
      exact Nat.zero_le _
  · rw [if_neg hend, if_neg fun hc => hend (hc.imp id (Or.imp id hfull.1))]
    exact ⟨⟨h.holds, h.write, h.plain fun hc => hend (Or.inl hc), htaken⟩, h.cursor,
      fun hlen => absurd (Or.inr (Or.inr hlen)) hend⟩

/-- The buffer is not changed. -/
theorem Input.Edits.keyed (h : s.Edits posoffset l) (hroom : l.unread.length + l.pending.length < INPUT_BUF)
    (hnew : c ≠ newline) (hD : c ≠ ctrlD) {k : Nat} (hk : k ≤ l.pending.length) : s.Keyed k l c l.pending where
  holds := h.has.holds
  write := h.has.write
  cursor := hk
  plain := fun _ => h.has.plain
  ends := fun hc => hc.elim (absurd · hnew) fun hc => hc.elim (absurd · hD) fun hc => absurd hc (Nat.ne_of_lt hroom)

/-- A line of the history. -/
theorem Input.Edits.recall (h : s.Edits posoffset l) (hle : s.w ≤ s.e) {row : List UInt8}
    (hroom : l.unread.length + row.length ≤ INPUT_BUF) (hplain : newline ∉ row) : (s.recallLine row).Keyed 0 l c row := by
  have hrounds := (edit_sub h.has.holds h.has.write).ge
  obtain ⟨hclear, hw, hr⟩ := clearLine_holds _ s _ _ hrounds h.has.holds h.has.write hle
  obtain ⟨hrow, hw', hr'⟩ := foldl_store_holds row _ _ hclear (by rw [List.length_append]; exact hroom)
  refine ⟨hrow, ?_, Nat.zero_le _, fun _ => hplain, fun _ => rfl⟩
  unfold Input.recallLine
  rw [hw', hr', hw, hr]
  exact h.has.write

/-- The rest of a command. -/
theorem Input.Edits.complete (h : s.Edits 0 l) {shown : List UInt8}
    (hroom : l.unread.length + l.pending.length + shown.length ≤ INPUT_BUF) (hplain : newline ∉ shown) :
    (shown.foldl Input.store s).Keyed 0 l c (l.pending ++ shown) := by
  obtain ⟨hrow, hw, hr⟩ := foldl_store_holds shown s _ h.has.holds
    (by rw [List.length_append, List.length_append]; exact hroom)
  refine ⟨by rw [← List.append_assoc]; exact hrow, ?_, Nat.zero_le _, fun _ hm => ?_, fun _ => rfl⟩
  · rw [hw, hr]
    exact h.has.write
  · exact (List.mem_append.1 hm).elim h.has.plain hplain

theorem Line.typed_arrow (harrow : isArrow c = true) (hrec : d.recalled c = []) (hcom : d.completed c = []) :
    l.typed posoffset d c = l.pending := by
  have hnew : c ≠ newline := by rintro rfl; cases harrow
  unfold Line.typed
  rw [if_neg hnew, if_pos harrow, if_neg (not_not_intro hrec), hcom, List.append_nil, l.before_append_after]

/-- **The arrow keys.** -/
theorem Input.Edits.arrow (h : s.Edits posoffset l) (hroom : l.unread.length + l.pending.length < INPUT_BUF)
    (hm : s.Meets posoffset l d c) (harrow : isArrow c = true) :
    (s.cgaputc d posoffset c).1.Keyed (s.cgaputc d posoffset c).2 l c (l.typed posoffset d c) := by
  have hnew : c ≠ newline := by rintro rfl; cases harrow
  have hD : c ≠ ctrlD := by rintro rfl; cases harrow
  have hsame {k : Nat} (hk : k ≤ l.pending.length) (hrec : d.recalled c = []) (hcom : d.completed c = []) :
      s.Keyed k l c (l.typed posoffset d c) := by
    rw [Line.typed_arrow harrow hrec hcom]
    exact h.keyed hroom hnew hD hk
  unfold Input.cgaputc
  rw [if_neg hnew]
  by_cases hup : c = 0xe2 ∨ c = 0xe3
  · rw [if_pos hup]
    have hright : c ≠ 0xe5 := by rcases hup with rfl | rfl <;> decide
    cases d with
    | command shown => exact hsame h.cursor rfl (if_neg hright)
    | neither => exact hsame h.cursor rfl rfl
    | history row =>
      have hrec : (Display.history row).recalled c = row.1 := if_pos hup
      by_cases hrow : row.1 = []
      · simp only [hrow, ne_eq, not_true_eq_false, if_false]
        exact hsame h.cursor (hrec.trans hrow) rfl
      · have hfits := hm.recalls (by rwa [hrec]) hroom
        rw [hrec] at hfits
        have htyped : l.typed posoffset (.history row) c = row.1 := by
          unfold Line.typed
          rw [if_neg hnew, if_pos harrow, hrec, if_pos hrow]
        simp only [hrow, ne_eq, not_false_eq_true, if_true]
        rw [htyped]
        exact h.recall hfits.1 hfits.2 row.2
  rw [if_neg hup]
  have hrec : d.recalled c = [] := by
    cases d with
    | history row => exact if_neg hup
    | command shown => rfl
    | neither => rfl
  by_cases hleft : c = 0xe4
  · rw [if_pos hleft]
    have hright : c ≠ 0xe5 := by rw [hleft]; decide
    cases d with
    | command shown => exact hsame h.cursor hrec (if_neg hright)
    | neither => exact hsame h.cursor hrec rfl
    | history row =>
      by_cases hlt : s.w + BitVec.ofNat 32 posoffset < s.e
      · simp only [hlt, if_true]
        -- before the first byte of the line the two sides are equal
        have hne : posoffset ≠ l.pending.length := fun he => by
          rw [he, ← edit_eq h.has.holds h.has.write] at hlt
          exact BitVec.lt_irrefl _ hlt
        exact hsame (Nat.lt_of_le_of_ne h.cursor hne) hrec rfl
      · simp only [hlt, if_false]
        exact hsame h.cursor hrec rfl
  rw [if_neg hleft]
  have hright : c = 0xe5 := by
    have := harrow
    unfold isArrow at this
    rw [decide_eq_true_iff] at this
    grind
  rw [if_pos hright]
  cases d with
  | neither => exact hsame h.cursor hrec rfl
  | history row =>
    by_cases hpos : 0 < posoffset
    · simp only [hpos, if_true]
      exact hsame ((Nat.sub_le _ _).trans h.cursor) hrec rfl
    · simp only [hpos, if_false]
      exact hsame h.cursor hrec rfl
  | command shown =>
    have hcom : (Display.command shown).completed c = shown.1 := if_pos hright
    dsimp only
    by_cases hshown : shown.1 = []
    · rw [hshown]
      exact hsame h.cursor hrec (hcom.trans hshown)
    · obtain ⟨rfl, hfits⟩ := hm.completes (by rwa [hcom]) hroom
      rw [hcom] at hfits
      have htyped : l.typed 0 (.command shown) c = l.pending ++ shown.1 := by
        unfold Line.typed
        rw [if_neg hnew, if_pos harrow, if_neg (not_not_intro hrec), hcom, l.before_zero, l.after_zero, List.append_nil]
      rw [htyped]
      exact h.complete hfits shown.2

/-- **A byte of a line.** -/
theorem Input.Edits.put (h : s.Edits posoffset l) (hroom : l.unread.length + l.pending.length < INPUT_BUF)
    (hm : s.Meets posoffset l d c) (htext : c = newline ∨ isArrow c = true ∨ isText c = true) :
    (s.put d posoffset c).1.Keyed (s.put d posoffset c).2 l c (l.typed posoffset d c) := by
  unfold Input.put
  dsimp only
  by_cases harrow : isArrow c = true
  · rw [if_pos harrow]
    exact h.arrow hroom hm harrow
  rw [if_neg harrow]
  have hstore : (l.unread ++ l.pending).length < INPUT_BUF := by
    rw [List.length_append]
    exact hroom
  by_cases hnew : c = newline
  · subst hnew
    rw [if_neg fun hc => hc.1 rfl]
    exact ⟨store_holds h.has.holds hstore newline, h.has.write, Nat.zero_le _, fun hc => absurd rfl hc, fun _ => rfl⟩
  have htext : isText c = true := by
    rcases htext with hc | hc | hc
    · exact absurd hc hnew
    · exact absurd hc harrow
    · exact hc
  have hkeep (s : Input) : s.cgaputc d posoffset c = (s, posoffset) := by
    unfold Input.cgaputc
    unfold isArrow at harrow
    rw [decide_eq_true_iff] at harrow
    grind
  have htyped : l.typed posoffset d c = l.before posoffset ++ c :: l.after posoffset := by
    unfold Line.typed
    rw [if_neg hnew, if_neg harrow]
  have hplain : newline ∉ l.before posoffset ++ c :: l.after posoffset := fun hmem => by
    rcases List.mem_append.1 hmem with hmem | hmem
    · exact h.has.plain (List.mem_of_mem_take hmem)
    · rcases List.mem_cons.1 hmem with hmem | hmem
      · exact hnew hmem.symm
      · exact h.has.plain (List.mem_of_mem_drop hmem)
  have hafter := Line.length_after h.cursor
  have hlen : (l.before posoffset ++ c :: l.after posoffset).length = l.pending.length + 1 := by
    have hsplit := congrArg List.length (l.before_append_after posoffset)
    rw [List.length_append] at hsplit
    rw [List.length_append, List.length_cons]
    omega
  rw [hkeep, htyped]
  dsimp only
  by_cases hpos : 0 < posoffset
  · rw [if_pos ⟨hnew, hpos⟩]
    have hholds := h.has.holds
    rw [← l.before_append_after posoffset, ← List.append_assoc] at hholds hstore
    obtain ⟨hins, hw, hr⟩ := insert_holds hholds hafter hstore c
    refine ⟨by rw [← List.append_assoc]; exact hins, ?_, ?_, fun _ => hplain, fun hend => ?_⟩
    · rw [hw, hr]
      exact h.has.write
    · rw [hlen]
      exact h.cursor.trans (Nat.le_succ _)
    · rw [hlen, ← Nat.add_assoc] at hend
      rcases hend with hc | hc | hc
      · exact absurd hc hnew
      · exact hm.line (Or.inr hc)
      · exact absurd hc (hm.fills hpos htext)
  · obtain rfl : posoffset = 0 := by omega
    rw [if_neg fun hc => hpos hc.2]
    refine ⟨?_, h.has.write, Nat.zero_le _, fun _ => hplain, fun _ => rfl⟩
    rw [l.before_zero, l.after_zero]
    exact store_holds h.has.holds hstore c

/-- **A key of `consoleintr`** edits the line as the editor does. -/
theorem Input.Edits.keyintr (h : s.Edits posoffset l) (hm : s.Meets posoffset l d c) :
    (s.keyintr d posoffset c).1.Edits (s.keyintr d posoffset c).2 (l.edit posoffset d c) := by
  unfold Input.keyintr Line.edit
  by_cases hP : c = ctrlP
  · rw [if_pos hP, if_pos hP]
    exact ⟨h.has, Nat.zero_le _, h.full⟩
  rw [if_neg hP, if_neg hP]
  by_cases hU : c = ctrlU
  · rw [if_pos hU, if_pos hU]
    have hrounds := (edit_sub h.has.holds h.has.write).ge
    obtain ⟨hk, hw, hr⟩ := killLine_holds _ hrounds h.has.holds h.has.write h.has.plain
    refine ⟨⟨?_, ?_, List.not_mem_nil, h.has.taken⟩, ?_, fun _ => rfl⟩
    · rwa [List.append_nil]
    · rw [hw, hr]
      exact h.has.write
    · rw [hm.line (Or.inl hU)]
      exact Nat.zero_le _
  rw [if_neg hU, if_neg hU]
  by_cases hB : c = ctrlH ∨ c = delete
  · rw [if_pos hB, if_pos hB]
    have hsplit := l.before_append_after posoffset
    have hafter := Line.length_after h.cursor
    have hroom := h.room
    rcases List.eq_nil_or_concat (l.before posoffset) with hnil | ⟨A, x, hA⟩
    · -- the cursor is before the line
      rw [hnil, List.nil_append] at hsplit
      rw [hsplit] at hafter
      have hstart : s.e - BitVec.ofNat 32 posoffset = s.w := by
        rw [edit_eq h.has.holds h.has.write, hafter]
        exact BitVec.add_sub_cancel _ _
      rw [if_neg (not_not_intro hstart), hnil, List.dropLast_nil, List.nil_append, hsplit]
      exact h
    · rw [List.concat_eq_append] at hA
      rw [hA, List.append_assoc, List.singleton_append] at hsplit
      have hlen := congrArg List.length hsplit
      rw [List.length_append, List.length_cons] at hlen
      have hinside : s.e - BitVec.ofNat 32 posoffset ≠ s.w := fun he => by
        have hend := edit_eq h.has.holds h.has.write
        have hword : BitVec.ofNat 32 posoffset = BitVec.ofNat 32 l.pending.length := by
          rw [hend] at he
          grind
        have hnat := congrArg BitVec.toNat hword
        rw [BitVec.toNat_ofNat, BitVec.toNat_ofNat, Nat.mod_eq_of_lt (lt_of_le_of_lt (by omega) size_lt),
          Nat.mod_eq_of_lt (lt_of_le_of_lt (by omega) size_lt)] at hnat
        omega
      have hholds := h.has.holds
      rw [← hsplit, ← List.append_assoc] at hholds
      obtain ⟨hdel, hw, hr⟩ := delete_holds hholds hafter
      have hplain := h.has.plain
      rw [← hsplit] at hplain
      rw [if_pos hinside, hA, List.dropLast_concat]
      rw [List.append_assoc] at hdel
      refine ⟨⟨hdel, ?_, fun hmem => hplain ?_, h.has.taken⟩, ?_, fun hfull => ?_⟩
      · rw [hw, hr]
        exact h.has.write
      · rcases List.mem_append.1 hmem with hmem | hmem
        · exact List.mem_append_left _ hmem
        · exact List.mem_append_right _ (List.mem_cons_of_mem _ hmem)
      · show posoffset ≤ (A ++ l.after posoffset).length
        rw [List.length_append, hafter]
        exact Nat.le_add_left _ _
      · have hfull' : l.unread.length + (A ++ l.after posoffset).length = INPUT_BUF := hfull
        rw [List.length_append] at hfull'
        omega
  rw [if_neg hB, if_neg hB]
  have hlen := h.has.length
  by_cases hdrop : c = 0 ∨ INPUT_BUF ≤ l.unread.length + l.pending.length
  · rw [if_pos hdrop, if_neg fun hc => hdrop.elim hc.1 fun hfull => by omega]
    exact h
  rw [if_neg hdrop, if_pos ⟨fun hc => hdrop (Or.inl hc), by omega⟩]
  have hroom : l.unread.length + l.pending.length < INPUT_BUF := Nat.lt_of_not_le fun hc => hdrop (Or.inr hc)
  dsimp only
  by_cases hcar : c = carriage
  · rw [if_pos hcar]
    have hm' : s.Meets posoffset l d newline := by
      refine ⟨fun hc => absurd hc (by decide), fun _ hc => absurd hc (by decide), fun hne => absurd ?_ hne,
        fun hne => absurd ?_ hne⟩ <;> cases d <;> rfl
    exact (h.put hroom hm' (Or.inl rfl)).commit h.has.taken
  · rw [if_neg hcar]
    refine (h.put hroom hm ?_).commit h.has.taken
    unfold isText noText
    grind

/-- A key changes neither what has been taken nor how much. -/
theorem Line.edit_taken (l : Line) (posoffset : Nat) (d : Display) (c : UInt8) (h : l.taken ≤ l.committed.length) :
    (l.edit posoffset d c).taken = l.taken ∧ (l.edit posoffset d c).committed.take l.taken = l.committed.take l.taken := by
  have hcommit (c : UInt8) (p : List UInt8) : (l.commit c p).taken = l.taken ∧
      (l.commit c p).committed.take l.taken = l.committed.take l.taken := by
    unfold Line.commit
    split
    · exact ⟨rfl, List.take_append_of_le_length h⟩
    · exact ⟨rfl, rfl⟩
  unfold Line.edit
  split
  · exact ⟨rfl, rfl⟩
  · split
    · exact ⟨rfl, rfl⟩
    · split
      · exact ⟨rfl, rfl⟩
      · split
        · exact ⟨rfl, rfl⟩
        · exact hcommit _ _

end Keys

/-! ## Runs -/

namespace Input

/-- `n` bytes from the index `i` on. -/
def bytes (s : Input) (i : BitVec 32) (n : Nat) : List UInt8 :=
  (List.range n).map fun k => s.buf ((i + BitVec.ofNat 32 k).toNat % INPUT_BUF)

/-- `buf[r..w)`: what can be read. -/
def readable (s : Input) : List UInt8 := s.bytes s.r (s.w - s.r).toNat

/-- `buf[w..e)`: the line that is edited. -/
def edited (s : Input) : List UInt8 := s.bytes s.w (s.e - s.w).toNat

variable {s : Input} {l : Line}

theorem bytes_eq {A B C : List UInt8} (h : s.ring.Holds (A ++ (B ++ C))) :
    s.bytes (s.r + BitVec.ofNat 32 A.length) B.length = B := by
  have hlen : (s.bytes (s.r + BitVec.ofNat 32 A.length) B.length).length = B.length := by simp [bytes]
  refine List.ext_getElem hlen fun i _ hi => ?_
  have hcell := h.cell (A.length + i) (by simp only [List.length_append]; omega)
  have hat : s.r + BitVec.ofNat 32 A.length + BitVec.ofNat 32 i = s.r + BitVec.ofNat 32 (A.length + i) := by
    rw [BitVec.ofNat_add, BitVec.add_assoc]
  simp only [bytes, List.getElem_map, List.getElem_range]
  rw [Ring.index_mod size_dvd hat]
  refine hcell.trans ?_
  rw [List.getElem_append_right (Nat.le_add_right _ _)]
  simp [List.getElem_append_left hi]

theorem Has.readable_eq (h : s.Has l) : s.readable = l.unread := by
  unfold readable
  rw [h.write_sub]
  simpa using bytes_eq (A := []) h.holds

theorem Has.edited_eq (h : s.Has l) : s.edited = l.pending := by
  unfold edited
  rw [edit_sub h.holds h.write, h.write]
  exact bytes_eq (C := []) (by rw [List.append_nil]; exact h.holds)

end Input

/-- What holds between two keys; the reads do not look at `posoffset`. -/
structure Tty.Edits {Proc : Type} (s : Tty Proc) : Prop where
  good : Tty.Good { s with posoffset := 0 }
  edits : s.input.Edits s.posoffset s.line

section

variable {Proc : Type} [DecidableEq Proc] {s t : Tty Proc}

/-- A round of a read changes neither the line that is edited nor the cursor. -/
theorem Tty.consoleread_edited {p : Proc} {x : Reader} (ht : s.consoleread p x = some t) :
    t.posoffset = s.posoffset ∧ t.line.pending = s.line.pending ∧ t.line.unread.length ≤ s.line.unread.length ∧
    Tty.consoleread { s with posoffset := 0 } p x = some { t with posoffset := 0 } := by
  have hdrop : (s.line.committed.drop (s.line.taken + 1)).length ≤ (s.line.committed.drop s.line.taken).length := by
    rw [List.length_drop, List.length_drop]
    omega
  unfold Tty.consoleread at ht ⊢
  dsimp only at ht ⊢
  by_cases hn : 0 < x.n
  · rw [if_pos hn] at ht ⊢
    by_cases hrw : s.input.r = s.input.w
    · rw [if_pos hrw] at ht ⊢
      by_cases hk : s.killed p
      · rw [if_pos hk] at ht ⊢
        cases ht
        exact ⟨rfl, rfl, Nat.le_refl _, rfl⟩
      · rw [if_neg hk] at ht
        cases ht
    · rw [if_neg hrw] at ht ⊢
      by_cases hD : s.input.buf (s.input.r.toNat % INPUT_BUF) = ctrlD
      · rw [if_pos hD] at ht ⊢
        by_cases hlt : x.n < x.target
        · rw [if_pos hlt] at ht ⊢
          cases ht
          exact ⟨rfl, rfl, Nat.le_refl _, rfl⟩
        · rw [if_neg hlt] at ht ⊢
          cases ht
          exact ⟨rfl, rfl, hdrop, rfl⟩
      · rw [if_neg hD] at ht ⊢
        by_cases hnew : s.input.buf (s.input.r.toNat % INPUT_BUF) = newline
        · rw [if_pos hnew] at ht ⊢
          cases ht
          exact ⟨rfl, rfl, hdrop, rfl⟩
        · rw [if_neg hnew] at ht ⊢
          cases ht
          exact ⟨rfl, rfl, hdrop, rfl⟩
  · rw [if_neg hn] at ht ⊢
    cases ht
    exact ⟨rfl, rfl, Nat.le_refl _, rfl⟩

theorem Tty.Edits.press (h : s.Edits) {a : Press Proc} (hm : s.Meets a) (ht : s.press a = some t) : t.Edits := by
  cases a with
  | key c d =>
    cases ht
    have hkey := h.edits.keyintr hm
    obtain ⟨htaken, htake⟩ := s.line.edit_taken s.posoffset d c h.edits.has.taken
    refine ⟨⟨hkey.has, rfl, ?_, ?_, h.good.reader, h.good.returned⟩, hkey⟩
    · dsimp only
      rw [htaken, htake]
      exact h.good.delivered
    · dsimp only
      rw [htaken, htake]
      exact h.good.eofs
  | read p n =>
    simp only [Tty.press, Tty.step] at ht
    split at ht
    · cases ht
      refine ⟨h.good.step (a := .read p n) ?_, h.edits⟩
      simp only [Tty.step, *]
    · cases ht
  | go p =>
    simp only [Tty.press, Tty.step] at ht
    split at ht
    · cases ht
    · rename_i x hx
      obtain ⟨hpos, hpending, hunread, hround⟩ := Tty.consoleread_edited ht
      have hgood := h.good.consoleread hx hround
      refine ⟨hgood, hgood.has, ?_, fun hfull => ?_⟩
      · rw [hpos, hpending]
        exact h.edits.cursor
      · rw [hpending] at hfull ⊢
        have hroom := h.edits.room
        exact h.edits.full (by omega)
  | kill p =>
    cases ht
    exact ⟨h.good.step (a := .kill p) rfl, h.edits⟩

/-- **Editing at the cursor.** After keys and reads that meet the condition the indices are in order, the cursor is in the
line, the line is what the edits give, every byte that was committed is delivered or can be read, and the buffer has
room or there is something to read. -/
theorem keys_right (tr : List (Press Proc)) (s : Tty Proc) (h : Path Tty.press Tty.Meets .boot tr s) :
    (s.input.w - s.input.r).toNat ≤ (s.input.e - s.input.r).toNat ∧ (s.input.e - s.input.r).toNat ≤ INPUT_BUF ∧
    s.posoffset ≤ (s.input.e - s.input.w).toNat ∧ s.input.edited = s.line.pending ∧
    s.line.committed = s.line.committed.take s.line.taken ++ s.input.readable ∧
    s.delivered = (s.line.committed.take s.line.taken).filter (· ≠ ctrlD) ∧
    ((s.input.e - s.input.r).toNat < INPUT_BUF ∨ s.input.readable ≠ []) := by
  have hboot : (Tty.boot : Tty Proc).Edits := ⟨Tty.boot_good, Tty.boot_good.has, Nat.zero_le _, fun _ => rfl⟩
  have hedits := h.invariant Tty.Edits hboot fun _ _ _ hs hc ha => hs.press hc ha
  have hhas := hedits.edits.has
  have hlen := hhas.length
  have hroom := hedits.edits.room
  refine ⟨?_, ?_, ?_, hhas.edited_eq, ?_, hedits.good.delivered, ?_⟩
  · rw [hhas.write_sub, hlen]
    exact Nat.le_add_right _ _
  · rw [hlen]
    exact hroom
  · rw [edit_sub hhas.holds hhas.write]
    exact hedits.edits.cursor
  · rw [hhas.readable_eq]
    exact (List.take_append_drop _ _).symm
  · rw [hlen, hhas.readable_eq]
    rcases Nat.lt_or_eq_of_le hroom with hlt | hfull
    · exact Or.inl hlt
    · right
      rintro hnil
      rw [hedits.edits.full hfull, hnil] at hfull
      exact absurd hfull (by decide)

end

/-- `b`, the left key, `a` and Enter are read, and the up key recalls the line. -/
def keyLine : List (Press Unit) :=
  [.key 0x62 .neither, .key 0xe4 (.history ⟨[], by decide⟩), .key 0x61 .neither, .key carriage .neither, .read () 10,
    .go (), .go (), .go (), .key 0xe2 (.history ⟨[0x61, 0x62], by decide⟩)]

theorem keys_right_line : ∃ s : Tty Unit, Path Tty.press Tty.Meets .boot keyLine s ∧
    s.delivered = [0x61, 0x62, newline] ∧ s.posoffset ≤ (s.input.e - s.input.w).toNat ∧
    s.input.edited = s.line.pending ∧ s.line.pending = [0x61, 0x62] := by
  have h : (run (fun (s : Tty Unit) a => if s.Meets a then s.press a else none) .boot keyLine).any
      (fun s => decide (s.delivered = [0x61, 0x62, newline] ∧ s.line.pending = [0x61, 0x62])) = true := by
    decide +kernel
  obtain ⟨s, hs, hd⟩ := (Option.any_eq_true _ _).1 h
  have hpath : Path Tty.press Tty.Meets .boot keyLine s := Path.of_run hs
  have hright := keys_right keyLine s hpath
  have hd := of_decide_eq_true hd
  exact ⟨s, hpath, hd.1, hright.2.2.1, hright.2.2.2.1, hd.2⟩

/-- `a`, the left key, and `C('U')`: the line is empty, and the cursor one byte before its end. -/
theorem keys_cleared : ∃ s : Tty Unit,
    run Tty.press .boot [.key 0x61 .neither, .key 0xe4 (.history ⟨[], by decide⟩), .key ctrlU .neither] = some s ∧
    s.input.e = s.input.w ∧ ¬s.posoffset ≤ (s.input.e - s.input.w).toNat := by
  refine ⟨_, rfl, ?_, ?_⟩ <;> decide +kernel

end NewXv6.Console
