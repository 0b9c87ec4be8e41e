import NewXv6.Console.Serial

/-!
# Editing at the cursor (`consoleintr(getc, 1)`)

From the keyboard a line is edited `posoffset` bytes before its end, and `cgaputc` moves the cursor, recalls lines of the
history and completes commands. What it does with an arrow key depends on what it shows and on the history: `Display` has
what it finds, and any display may be found at any key.

`Line.edit` is the editor itself, and `Tty.press` has it take each key beside the buffer. The reads are those of the serial
line.
-/

namespace NewXv6.Console

open Lib

/-- Characters of the screen, or of a line of the history. `cgaputc` never puts a newline on the screen, and a line of the
history ends before it. -/
abbrev Text : Type := { t : List UInt8 // newline ∉ t }

/-- What `cgaputc` finds: it shows the rest of a command, it is in the history with a row of `bufarray`, or neither. -/
inductive Display
  | command (shown : Text)
  | history (row : Text)
  | neither

/-- The line that the up and down keys recall. -/
def Display.recalled : Display → UInt8 → List UInt8
  | .history row, c => if c = 0xe2 ∨ c = 0xe3 then row.1 else []
  | _, _ => []

/-- The rest of a command that the right key takes. -/
def Display.completed : Display → UInt8 → List UInt8
  | .command shown, c => if c = 0xe5 then shown.1 else []
  | _, _ => []

namespace Input

/-- The loop that drops the line for one of the history, at most `rounds` times. -/
def clearLine : Nat → Input → Input
  | 0, s => s
  | rounds + 1, s =>
    if s.w < s.e then
      clearLine rounds { s with buf := Function.update s.buf ((s.e - 1).toNat % INPUT_BUF) 0, e := s.e - 1 }
    else s

/-- A line of the history becomes the line that is edited. -/
def recallLine (s : Input) (row : List UInt8) : Input := row.foldl store (clearLine (s.e - s.w).toNat s)

/-- The loop that opens a gap for a byte, from `i` on. -/
def openGap (posoffset : Nat) : Nat → Input → Input
  | 0, s => s
  | k + 1, s =>
    let i := BitVec.ofNat 32 (posoffset - (k + 1))
    openGap posoffset k
      { s with buf := Function.update s.buf ((s.e - i).toNat % INPUT_BUF) (s.buf ((s.e - i - 1).toNat % INPUT_BUF)) }

/-- A byte at the cursor. -/
def insert (s : Input) (posoffset : Nat) (c : UInt8) : Input :=
  let s := openGap posoffset posoffset s
  { s with buf := Function.update s.buf ((s.e - BitVec.ofNat 32 posoffset).toNat % INPUT_BUF) c, e := s.e + 1 }

/-- What `cgaputc` does to the input and to `posoffset`. -/
def cgaputc (d : Display) (s : Input) (posoffset : Nat) (c : UInt8) : Input × Nat :=
  if c = newline then (s, 0)
  else if c = 0xe2 ∨ c = 0xe3 then
    match d with
    | .history row => if row.1 ≠ [] then (s.recallLine row.1, 0) else (s, posoffset)
    | _ => (s, posoffset)
  else if c = 0xe4 then
    match d with
    | .history _ => if s.w + BitVec.ofNat 32 posoffset < s.e then (s, posoffset + 1) else (s, posoffset)
    | _ => (s, posoffset)
  else if c = 0xe5 then
    match d with
    | .command shown => (shown.1.foldl store s, posoffset)
    | .history _ => if 0 < posoffset then (s, posoffset - 1) else (s, posoffset)
    | .neither => (s, posoffset)
  else (s, posoffset)

/-- The end of a line makes it readable. -/
def commit (s : Input) (c : UInt8) : Input :=
  if c = newline ∨ c = ctrlD ∨ s.e = s.r + BitVec.ofNat 32 INPUT_BUF then { s with w := s.e } else s

/-- A byte is put into the line, and `cgaputc` follows. -/
def put (d : Display) (s : Input) (posoffset : Nat) (c : UInt8) : Input × Nat :=
  let s := if isArrow c then s else if c ≠ newline ∧ 0 < posoffset then s.insert posoffset c else s.store c
  s.cgaputc d posoffset c

/-- One byte of `consoleintr(getc, 1)`. -/
def keyintr (d : Display) (s : Input) (posoffset : Nat) (c : UInt8) : Input × Nat :=
  -- the listing of `procdump` has newlines
  if c = ctrlP then (s, 0)
  else if c = ctrlU then (killLine (s.e - s.w).toNat s, posoffset)
  else if c = ctrlH ∨ c = delete then
    if s.e - BitVec.ofNat 32 posoffset ≠ s.w then (closeGap posoffset posoffset { s with e := s.e - 1 }, posoffset)
    else (s, posoffset)
  else if c ≠ 0 ∧ (s.e - s.r).toNat < INPUT_BUF then
    let c := if c = carriage then newline else c
    let r := s.put d posoffset c
    (r.1.commit c, r.2)
  else (s, posoffset)

end Input

/-! ## The editor -/

namespace Line

/-- The line before the cursor, and after it. -/
def before (l : Line) (posoffset : Nat) : List UInt8 := l.pending.take (l.pending.length - posoffset)
def after (l : Line) (posoffset : Nat) : List UInt8 := l.pending.drop (l.pending.length - posoffset)

/-- What is typed goes to the cursor, and a newline to the end; a recalled line takes the place of the line. -/
def typed (l : Line) (posoffset : Nat) (d : Display) (c : UInt8) : List UInt8 :=
  if c = newline then l.pending ++ [c]
  else if isArrow c then
    if d.recalled c ≠ [] then d.recalled c else l.before posoffset ++ d.completed c ++ l.after posoffset
  else l.before posoffset ++ c :: l.after posoffset

def commit (l : Line) (c : UInt8) (p : List UInt8) : Line :=
  if c = newline ∨ c = ctrlD ∨ l.unread.length + p.length = INPUT_BUF then
    { l with committed := l.committed ++ p, pending := [] }
  else { l with pending := p }

/-- The edit of a key, `posoffset` bytes before the end of the line. -/
def edit (l : Line) (posoffset : Nat) (d : Display) (c : UInt8) : Line :=
  if c = ctrlP then l
  else if c = ctrlU then { l with pending := [] }
  else if c = ctrlH ∨ c = delete then { l with pending := (l.before posoffset).dropLast ++ l.after posoffset }
  else if c = 0 ∨ INPUT_BUF ≤ l.unread.length + l.pending.length then l
  else
    let c := if c = carriage then newline else c
    l.commit c (l.typed posoffset d c)

end Line

/-- The buffer has what the editor has, the cursor is in the line, and a full buffer has been committed. -/
structure Input.Edits (s : Input) (posoffset : Nat) (l : Line) : Prop where
  has : s.Has l
  cursor : posoffset ≤ l.pending.length
  full : l.unread.length + l.pending.length = INPUT_BUF → l.pending = []

/-- A byte that is put in at the cursor. -/
def isText (c : UInt8) : Bool := c ∉ [ctrlP, ctrlU, ctrlH, delete, newline, carriage] ∧ noText c = false

/-- Away from the end of the line, the line is not dropped, and neither `C('D')` nor a byte that fills the buffer is put
in; a line is recalled if `w` and `e` are in order and it fits, and a command is completed at the end of the line if its
rest fits. -/
structure Input.Meets (s : Input) (posoffset : Nat) (l : Line) (d : Display) (c : UInt8) : Prop where
  line : c = ctrlU ∨ c = ctrlD → posoffset = 0
  fills : 0 < posoffset → isText c = true → l.unread.length + l.pending.length + 1 ≠ INPUT_BUF
  recalls : d.recalled c ≠ [] → l.unread.length + l.pending.length < INPUT_BUF →
    s.w ≤ s.e ∧ l.unread.length + (d.recalled c).length ≤ INPUT_BUF
  completes : d.completed c ≠ [] → l.unread.length + l.pending.length < INPUT_BUF →
    posoffset = 0 ∧ l.unread.length + l.pending.length + (d.completed c).length ≤ INPUT_BUF

instance {s : Input} {posoffset : Nat} {l : Line} {d : Display} {c : UInt8} : Decidable (s.Meets posoffset l d c) :=
  decidable_of_iff
    ((c = ctrlU ∨ c = ctrlD → posoffset = 0) ∧
      (0 < posoffset → isText c = true → l.unread.length + l.pending.length + 1 ≠ INPUT_BUF) ∧
      (d.recalled c ≠ [] → l.unread.length + l.pending.length < INPUT_BUF →
        s.w ≤ s.e ∧ l.unread.length + (d.recalled c).length ≤ INPUT_BUF) ∧
      (d.completed c ≠ [] → l.unread.length + l.pending.length < INPUT_BUF →
        posoffset = 0 ∧ l.unread.length + l.pending.length + (d.completed c).length ≤ INPUT_BUF))
    ⟨fun h => ⟨h.1, h.2.1, h.2.2.1, h.2.2.2⟩, fun h => ⟨h.line, h.fills, h.recalls, h.completes⟩⟩

inductive Press (Proc : Type)
  | key (c : UInt8) (d : Display)
  | read (p : Proc) (n : Int)
  | go (p : Proc)
  | kill (p : Proc)

namespace Tty

variable {Proc : Type} [DecidableEq Proc]

def press (s : Tty Proc) : Press Proc → Option (Tty Proc)
  | .key c d =>
    let r := s.input.keyintr d s.posoffset c
    some { s with input := r.1, posoffset := r.2, line := s.line.edit s.posoffset d c }
  | .read p n => s.step (.read p n)
  | .go p => s.step (.go p)
  | .kill p => s.step (.kill p)

def Meets (s : Tty Proc) : Press Proc → Prop
  | .key c d => s.input.Meets s.posoffset s.line d c
  | _ => True

instance (s : Tty Proc) (a : Press Proc) : Decidable (s.Meets a) :=
  match a with
  | .key c d => inferInstanceAs (Decidable (s.input.Meets s.posoffset s.line d c))
  | .read _ _ | .go _ | .kill _ => isTrue trivial

end Tty

/-! ## The loops -/

section Loops

variable {s : Input} {A B : List UInt8} {x : UInt8}

/-- **The gap of a deleted byte** is closed. -/
theorem closeGap_holds (posoffset k : Nat) : ∀ (s : Input) (A B : List UInt8) (x : UInt8),
    B.length = k → k ≤ posoffset →
    (⟨s.buf, s.r, s.e + 1⟩ : Ring UInt8 INPUT_BUF 32).Holds (A ++ x :: B) →
    ∃ y, (⟨(s.closeGap posoffset k).buf, s.r, s.e + 1⟩ : Ring UInt8 INPUT_BUF 32).Holds (A ++ B ++ [y]) ∧
      (s.closeGap posoffset k).r = s.r ∧ (s.closeGap posoffset k).w = s.w ∧ (s.closeGap posoffset k).e = s.e := by
  induction k with
  | zero =>
    intro s A B x hB _ h
    obtain rfl := List.length_eq_zero_iff.1 hB
    exact ⟨x, by rwa [List.append_nil], rfl, rfl, rfl⟩
  | succ k ih =>
    intro s A B x hB hk h
    obtain ⟨b, B, rfl⟩ := List.exists_cons_of_length_pos (by omega : 0 < B.length)
    rw [List.length_cons] at hB
    have hcount : s.e + 1 = s.r + BitVec.ofNat 32 (A ++ x :: b :: B).length := h.count
    have he : s.e = s.r + BitVec.ofNat 32 (A.length + (k + 1)) := by
      have : (A ++ x :: b :: B).length = A.length + (k + 1) + 1 := by
        simp only [List.length_append, List.length_cons]
        omega
      rw [this, BitVec.ofNat_add, ← BitVec.add_assoc] at hcount
      exact (BitVec.add_left_inj 1).1 hcount
    have hi : s.e - BitVec.ofNat 32 posoffset + BitVec.ofNat 32 (posoffset - (k + 1)) = s.r + BitVec.ofNat 32 A.length := by
      have hpos : BitVec.ofNat 32 posoffset = BitVec.ofNat 32 (posoffset - (k + 1)) + BitVec.ofNat 32 (k + 1) := by
        rw [← BitVec.ofNat_add]
        congr 1
        omega
      rw [he, hpos, BitVec.ofNat_add]
      generalize BitVec.ofNat 32 (posoffset - (k + 1)) = u
      generalize BitVec.ofNat 32 (k + 1) = v
      generalize BitVec.ofNat 32 A.length = w
      grind
    have hread : s.buf ((s.r + BitVec.ofNat 32 A.length + 1).toNat % INPUT_BUF) = b := by
      have hcell := h.cell (A.length + 1) (by simp)
      have hnext : s.r + BitVec.ofNat 32 A.length + 1 = s.r + BitVec.ofNat 32 (A.length + 1) := by
        rw [BitVec.ofNat_add, ← BitVec.add_assoc]
        rfl
      rw [Ring.index_mod size_dvd hnext]
      refine hcell.trans ?_
      simp
    rw [Input.closeGap]
    rw [hi, hread, Ring.index_mod size_dvd rfl]
    have hset := h.set b
    dsimp only at hset
    obtain ⟨y, hy, hr, hw, he'⟩ := ih
      { s with buf := Function.update s.buf ((s.r.toNat + A.length) % INPUT_BUF) b } (A ++ [b]) B b (by omega) (by omega)
      (by rw [List.append_assoc]; exact hset)
    exact ⟨y, by rw [List.append_assoc A] at hy; exact hy, hr, hw, he'⟩

/-- **The gap for a byte** is opened. -/
theorem openGap_holds (posoffset k : Nat) : ∀ (s : Input) (A B T : List UInt8) (x : UInt8),
    B.length = k → k ≤ posoffset →
    T.length = posoffset - k → (⟨s.buf, s.r, s.e + 1⟩ : Ring UInt8 INPUT_BUF 32).Holds (A ++ (B ++ x :: T)) →
    ∃ y, (⟨(s.openGap posoffset k).buf, s.r, s.e + 1⟩ : Ring UInt8 INPUT_BUF 32).Holds (A ++ y :: (B ++ T)) ∧
      (s.openGap posoffset k).r = s.r ∧ (s.openGap posoffset k).w = s.w ∧ (s.openGap posoffset k).e = s.e := by
  induction k with
  | zero =>
    intro s A B T x hB _ _ h
    obtain rfl := List.length_eq_zero_iff.1 hB
    exact ⟨x, h, rfl, rfl, rfl⟩
  | succ k ih =>
    intro s A B T x hB hk hT h
    obtain ⟨B', b, rfl⟩ : ∃ B' b, B = B' ++ [b] := by
      rcases List.eq_nil_or_concat B with rfl | ⟨B', b, rfl⟩
      · cases hB
      · exact ⟨B', b, List.concat_eq_append⟩
    rw [List.length_append, List.length_singleton] at hB
    have hcount : s.e + 1 = s.r + BitVec.ofNat 32 (A ++ (B' ++ [b] ++ x :: T)).length := h.count
    have he : s.e = s.r + BitVec.ofNat 32 (A.length + (k + 1) + (posoffset - (k + 1))) := by
      have : (A ++ (B' ++ [b] ++ x :: T)).length = A.length + (k + 1) + (posoffset - (k + 1)) + 1 := by
        simp only [List.length_append, List.length_cons, List.length_nil]
        omega
      rw [this, BitVec.ofNat_add, ← BitVec.add_assoc] at hcount
      exact (BitVec.add_left_inj 1).1 hcount
    have hi : s.e - BitVec.ofNat 32 (posoffset - (k + 1)) = s.r + BitVec.ofNat 32 (A.length + (k + 1)) := by
      rw [he, BitVec.ofNat_add, ← BitVec.add_assoc, BitVec.add_sub_cancel]
    have hlast : s.r + BitVec.ofNat 32 (A.length + (k + 1)) - 1 = s.r + BitVec.ofNat 32 (A.length + k) := by
      rw [← Nat.add_assoc, BitVec.ofNat_add, ← BitVec.add_assoc]
      exact BitVec.add_sub_cancel _ _
    have hread : s.buf ((s.r + BitVec.ofNat 32 (A.length + k)).toNat % INPUT_BUF) = b := by
      have hcell := h.cell (A.length + k) (by simp; omega)
      rw [Ring.index_mod size_dvd rfl]
      refine hcell.trans ?_
      rw [List.getElem_append_right (by omega)]
      simp [show A.length + k - A.length = B'.length by omega]
    rw [Input.openGap]
    rw [hi, hlast, hread, Ring.index_mod size_dvd rfl]
    have hsplit : A ++ (B' ++ [b] ++ x :: T) = (A ++ (B' ++ [b])) ++ x :: T := by simp
    rw [hsplit] at h
    have hset := h.set b
    dsimp only at hset
    rw [show (A ++ (B' ++ [b])).length = A.length + (k + 1) by simp; omega] at hset
    obtain ⟨y, hy, hr, hw, he'⟩ := ih
      { s with buf := Function.update s.buf ((s.r.toNat + (A.length + (k + 1))) % INPUT_BUF) b } A B' (b :: T) b (by omega)
      (by omega) (by rw [List.length_cons, hT]; omega) (by
        have : A ++ (B' ++ b :: b :: T) = A ++ (B' ++ [b]) ++ b :: T := by simp
        rw [this]
        exact hset)
    exact ⟨y, by simpa using hy, hr, hw, he'⟩

/-- A text at the end of the line. -/
theorem foldl_store_holds (row : List UInt8) : ∀ (s : Input) (q : List UInt8), s.ring.Holds q →
    (q ++ row).length ≤ INPUT_BUF → (row.foldl Input.store s).ring.Holds (q ++ row) ∧
      (row.foldl Input.store s).w = s.w ∧ (row.foldl Input.store s).r = s.r := by
  induction row with
  | nil => exact fun s q h _ => ⟨by rwa [List.append_nil], rfl, rfl⟩
  | cons c row ih =>
    intro s q h hroom
    have hlt : q.length < INPUT_BUF := by
      rw [List.length_append, List.length_cons] at hroom
      omega
    have hsplit : q ++ c :: row = q ++ [c] ++ row := by simp
    rw [hsplit] at hroom ⊢
    exact ih (s.store c) (q ++ [c]) (h.put size_dvd hlt c) hroom

/-- The line is dropped for one of the history, unless an index has wrapped. -/
theorem clearLine_holds (rounds : Nat) : ∀ (s : Input) (u p : List UInt8),
    p.length ≤ rounds → s.ring.Holds (u ++ p) → s.w = s.r + BitVec.ofNat 32 u.length → s.w ≤ s.e →
    (s.clearLine rounds).ring.Holds u ∧ (s.clearLine rounds).w = s.w ∧ (s.clearLine rounds).r = s.r := by
  induction rounds with
  | zero =>
    intro s u p hp h _ _
    obtain rfl := List.length_eq_zero_iff.1 (Nat.le_zero.1 hp)
    rw [List.append_nil] at h
    exact ⟨h, rfl, rfl⟩
  | succ rounds ih =>
    intro s u p hp h hwrite hle
    rw [Input.clearLine]
    rcases List.eq_nil_or_concat p with rfl | ⟨p', a, rfl⟩
    · have hew : s.e = s.w := (edit_eq_iff h hwrite).2 rfl
      rw [if_neg (by rw [hew]; exact BitVec.lt_irrefl _)]
      rw [List.append_nil] at h
      exact ⟨h, rfl, rfl⟩
    · rw [List.concat_eq_append] at h hp
      have hne : s.e ≠ s.w := fun he => by
        have := (edit_eq_iff h hwrite).1 he
        simp at this
      have hlt : s.w < s.e := by
        have : s.w ≠ s.e := Ne.symm hne
        bv_omega
      rw [List.length_append, List.length_singleton] at hp
      -- the cell of the last byte is not one of the rest
      rw [← List.append_assoc] at h
      have hlast : s.e - 1 = s.r + BitVec.ofNat 32 (u ++ p').length := by
        have hcount : s.e = s.r + BitVec.ofNat 32 (u ++ p' ++ [a]).length := h.count
        rw [hcount, List.length_append, List.length_singleton, BitVec.ofNat_add, ← BitVec.add_assoc]
        exact BitVec.add_sub_cancel _ _
      have hset := h.set 0
      dsimp only [Input.ring] at hset
      rw [← Ring.index_mod size_dvd hlast] at hset
      have hrest := (hset.unput size_dvd).2
      rw [if_pos hlt]
      exact ih _ u p' (by omega) hrest hwrite (by bv_omega)

/-- **A byte is put in at the cursor.** -/
theorem insert_holds {posoffset : Nat} (h : s.ring.Holds (A ++ B)) (hB : B.length = posoffset)
    (hroom : (A ++ B).length < INPUT_BUF) (c : UInt8) : (s.insert posoffset c).ring.Holds (A ++ c :: B) ∧
      (s.insert posoffset c).w = s.w ∧ (s.insert posoffset c).r = s.r := by
  have hput := h.put size_dvd hroom (s.buf (s.e.toNat % INPUT_BUF))
  have hwide : (⟨s.buf, s.r, s.e + 1⟩ : Ring UInt8 INPUT_BUF 32).Holds
      (A ++ (B ++ s.buf (s.e.toNat % INPUT_BUF) :: [])) := by
    have hsame : Function.update s.buf (s.e.toNat % INPUT_BUF) (s.buf (s.e.toNat % INPUT_BUF)) = s.buf :=
      Function.update_eq_self _ _
    unfold Ring.put Input.ring at hput
    dsimp only at hput
    rw [hsame] at hput
    rw [← List.append_assoc]
    exact hput
  obtain ⟨y, hy, hr, hw, he⟩ := openGap_holds posoffset posoffset s A B [] _ hB (Nat.le_refl _) (by simp) hwide
  rw [List.append_nil] at hy
  have hcursor : s.e - BitVec.ofNat 32 posoffset = s.r + BitVec.ofNat 32 A.length := by
    have hcount : s.e = s.r + BitVec.ofNat 32 (A ++ B).length := h.count
    rw [hcount, List.length_append, hB, BitVec.ofNat_add, ← BitVec.add_assoc]
    exact BitVec.add_sub_cancel _ _
  have hset := hy.set c
  dsimp only at hset
  unfold Input.insert
  refine ⟨?_, hw, hr⟩
  dsimp only [Input.ring]
  rw [hr, he, Ring.index_mod size_dvd hcursor]
  exact hset

/-- **The byte before the cursor is deleted.** -/
theorem delete_holds {posoffset : Nat} (h : s.ring.Holds (A ++ x :: B)) (hB : B.length = posoffset) :
    (Input.closeGap posoffset posoffset { s with e := s.e - 1 }).ring.Holds (A ++ B) ∧
      (Input.closeGap posoffset posoffset { s with e := s.e - 1 }).w = s.w ∧
      (Input.closeGap posoffset posoffset { s with e := s.e - 1 }).r = s.r := by
  have hback : s.e - 1 + 1 = s.e := BitVec.sub_add_cancel _ _
  obtain ⟨y, hy, hr, hw, he⟩ := closeGap_holds posoffset posoffset { s with e := s.e - 1 } A B x hB (Nat.le_refl _)
    (by dsimp only; rw [hback]; exact h)
  have hrest := (hy.unput size_dvd).2
  refine ⟨?_, hw, hr⟩
  unfold Ring.unput at hrest
  dsimp only at hrest
  rw [BitVec.add_sub_cancel] at hrest
  unfold Input.ring
  rw [hr, he]
  exact hrest

end Loops

end NewXv6.Console
