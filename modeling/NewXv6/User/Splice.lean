import NewXv6.Lib.Buffer
import NewXv6.User.Copy

/-!
# splice (`splice.c`)

The program takes what a `read` gave as a string: a chunk is written up to its first 0, and the buffer is cleared as far. The
destination is new, every `open` succeeds and every source is read to its end; each `read` gives a chunk. A run that reads or
clears a byte outside `buf` gives `none`.
-/

namespace NewXv6.User

open Lib

/-- `sizeof(buf)`. -/
abbrev SPLICE_SIZE : Nat := 512

structure Splice where
  buf : Nat → UInt8
  /-- The bytes of the destination, which are all in front of its offset. -/
  dst : List UInt8

namespace Splice

def start : Splice := ⟨fun _ => 0, []⟩

/-- The string in `buf`. -/
def text (s : Splice) : Option (List UInt8) := Buffer.scan (· == 0) s.buf SPLICE_SIZE 0

/-- `write` at the end of the destination: nothing where `writei` refuses the size. -/
def write (s : Splice) (src : List UInt8) : Splice :=
  if LIMIT < s.dst.length + src.length then s else { s with dst := s.dst ++ src }

/-- `memset(buf, 0, strlen(buf))`. -/
def clear (s : Splice) : Option Splice :=
  s.text.map fun w => { s with buf := Buffer.store s.buf 0 (List.replicate w.length 0) }

def read (s : Splice) (chunk : List UInt8) : Splice := { s with buf := Buffer.store s.buf 0 chunk }

/-- A round of the loop. -/
def round (s : Splice) (chunk : List UInt8) : Option Splice :=
  (s.read chunk).text.bind fun w => ((s.read chunk).write w).clear

def copyLoop (s : Splice) : List (List UInt8) → Option Splice
  | [] => some s
  | chunk :: reads => (s.round chunk).bind fun s => s.copyLoop reads

def write_bet_fds (s : Splice) (reads : List (List UInt8)) : Option Splice := s.clear.bind fun s => s.copyLoop reads

def splice (s : Splice) : List (List (List UInt8)) → Option Splice
  | [] => some s
  | reads :: sources => (s.write_bet_fds reads).bind fun s => s.splice sources

/-- A `write` of the program is one of the file system. -/
theorem write_tree {t : Tree} {j : Nat} (s : Splice) (src : List UInt8) (h : t.file j = some s.dst) :
    (t.write j s.dst.length src).1.file j = some (s.write src).dst := by
  unfold Tree.write write
  rw [h]
  show (if s.dst.length < s.dst.length then _ else _ : Tree × Nat).1.file j = _
  rw [if_neg (Nat.lt_irrefl _)]
  split
  · exact h
  · rw [Tree.file_setFile h, if_pos rfl, List.take_length, List.drop_eq_nil_of_le (Nat.le_add_right _ _), List.append_nil]

variable {s t : Splice} {chunk w : List UInt8} {reads : List (List UInt8)} {sources : List (List (List UInt8))}

/-! ## The destination -/

theorem text_chars (h : s.text = some w) : 0 ∉ w := by
  intro hzero
  obtain ⟨j, hj, hget⟩ := List.mem_iff_getElem.1 hzero
  obtain ⟨-, hall, -⟩ := Buffer.scan_eq_some.1 h
  have hne := (hall j hj).2
  rw [hget] at hne
  exact absurd hne (by decide)

/-- What the destination never is: longer than a file, or with a 0 in it. -/
def Fit (s : Splice) : Prop := s.dst.length ≤ LIMIT ∧ 0 ∉ s.dst

theorem Fit.write (h : s.Fit) (hw : 0 ∉ w) : (s.write w).Fit := by
  unfold Splice.write
  split
  next => exact h
  next hroom =>
    refine ⟨?_, ?_⟩
    · rw [List.length_append]
      exact Nat.le_of_not_lt hroom
    · rw [List.mem_append, not_or]
      exact ⟨h.2, hw⟩

theorem Fit.clear (h : s.Fit) (hrun : s.clear = some t) : t.Fit := by
  obtain ⟨w, -, rfl⟩ := Option.map_eq_some_iff.1 hrun
  exact h

theorem Fit.copyLoop (h : s.Fit) (hrun : s.copyLoop reads = some t) : t.Fit := by
  induction reads generalizing s with
  | nil =>
    cases hrun
    exact h
  | cons chunk reads ih =>
    obtain ⟨u, hround, hrun⟩ := Option.bind_eq_some_iff.1 hrun
    obtain ⟨w, htext, hclear⟩ := Option.bind_eq_some_iff.1 hround
    have hfit : (s.read chunk).Fit := h
    exact ih ((hfit.write (text_chars htext)).clear hclear) hrun

theorem Fit.splice (h : s.Fit) (hrun : s.splice sources = some t) : t.Fit := by
  induction sources generalizing s with
  | nil =>
    cases hrun
    exact h
  | cons reads sources ih =>
    obtain ⟨v, hfile, hrun⟩ := Option.bind_eq_some_iff.1 hrun
    obtain ⟨u, hclear, hloop⟩ := Option.bind_eq_some_iff.1 hfile
    exact ih ((h.clear hclear).copyLoop hloop) hrun

/-! ## The buffer -/

/-- The buffer is cleared. -/
def Blank (s : Splice) : Prop := ∀ i < SPLICE_SIZE, s.buf i = 0

theorem Blank.clear (h : s.Blank) : s.clear = some s := by
  have htext : s.text = some [] :=
    Buffer.scan_eq_some.2 ⟨by decide, fun j hj => absurd hj (Nat.not_lt_zero j), by rw [h _ (by decide)]; rfl⟩
  unfold Splice.clear
  rw [htext]
  rfl

/-- A chunk is written if it has no 0 and leaves room for one. -/
theorem Blank.round (h : s.Blank) (hchars : 0 ∉ chunk) (hlen : chunk.length < SPLICE_SIZE) :
    ∃ t, s.round chunk = some t ∧ t.Blank ∧ t.dst = (s.write chunk).dst := by
  have htext : ∀ u : Splice, u.buf = Buffer.store s.buf 0 chunk → u.text = some chunk := by
    intro u hu
    refine Buffer.scan_eq_some.2 ⟨hlen, fun j hj => ⟨?_, ?_⟩, ?_⟩
    · rw [hu, Buffer.store_add hj]
    · rw [beq_eq_false_iff_ne]
      rintro hzero
      exact hchars (hzero ▸ List.getElem_mem hj)
    · rw [hu, Buffer.store_of_le (Nat.le_refl _), Nat.zero_add, h _ hlen]
      rfl
  have hbuf : ∀ u : Splice, (u.write chunk).buf = u.buf := by
    intro u
    unfold Splice.write
    split <;> rfl
  refine ⟨{ (s.read chunk).write chunk with buf := Buffer.store (s.read chunk).buf 0 (List.replicate chunk.length 0) }, ?_,
    fun i hi => ?_, ?_⟩
  · unfold Splice.round Splice.clear
    rw [htext _ rfl, Option.bind_some, htext _ (hbuf _), hbuf]
    rfl
  · show Buffer.store (Buffer.store s.buf 0 chunk) 0 (List.replicate chunk.length 0) i = 0
    rcases Nat.lt_or_ge i chunk.length with hi' | hi'
    · have hadd := @Buffer.store_add _ (s.read chunk).buf (List.replicate chunk.length 0) 0 i
        (by rw [List.length_replicate]; exact hi')
      rw [Nat.zero_add, List.getElem_replicate] at hadd
      exact hadd
    · rw [Buffer.store_of_le (by rw [List.length_replicate, Nat.zero_add]; exact hi'),
        Buffer.store_of_le (by rw [Nat.zero_add]; exact hi')]
      exact h i hi
  · show ((s.read chunk).write chunk).dst = (s.write chunk).dst
    unfold Splice.write
    show (if LIMIT < s.dst.length + chunk.length then s.read chunk else _ : Splice).dst = _
    split <;> rfl

/-- A chunk that fills the buffer has no end there. -/
theorem round_none (hchars : 0 ∉ chunk) (hlen : SPLICE_SIZE ≤ chunk.length) : s.round chunk = none := by
  have htext : (s.read chunk).text = none := by
    refine Buffer.scan_eq_none.2 fun j hj => ?_
    have hj' := Nat.lt_of_lt_of_le hj hlen
    show (Buffer.store s.buf 0 chunk (0 + j) == 0) = false
    rw [beq_eq_false_iff_ne, Buffer.store_add hj']
    exact fun hzero => hchars (hzero ▸ List.getElem_mem hj')
  unfold round
  rw [htext]
  rfl

/-! ## The program -/

/-- The chunks that are copied. -/
def Short (reads : List (List UInt8)) : Prop := ∀ chunk ∈ reads, chunk.length < SPLICE_SIZE

theorem Blank.copyLoop (h : s.Blank) (hchars : 0 ∉ reads.flatten) (hshort : Short reads) :
    ∃ t, s.copyLoop reads = some t ∧ t.Blank ∧
      (s.dst.length + reads.flatten.length ≤ LIMIT → t.dst = s.dst ++ reads.flatten) := by
  induction reads generalizing s with
  | nil => exact ⟨s, rfl, h, fun _ => (List.append_nil _).symm⟩
  | cons chunk reads ih =>
    rw [List.flatten_cons, List.mem_append, not_or] at hchars
    obtain ⟨u, hround, hu, hdst⟩ := h.round hchars.1 (hshort chunk List.mem_cons_self)
    obtain ⟨t, hrun, ht, hall⟩ := ih hu hchars.2 fun c hc => hshort c (List.mem_cons_of_mem _ hc)
    refine ⟨t, Option.bind_eq_some_iff.2 ⟨u, hround, hrun⟩, ht, fun hroom => ?_⟩
    rw [List.flatten_cons, List.length_append, ← Nat.add_assoc] at hroom
    have hwrite : u.dst = s.dst ++ chunk := by
      rw [hdst]
      unfold Splice.write
      rw [if_neg (by omega)]
    have hlen : u.dst.length = s.dst.length + chunk.length := by rw [hwrite, List.length_append]
    rw [hall (by omega), hwrite, List.append_assoc, List.flatten_cons]

theorem Blank.short (h : s.Blank) (hchars : 0 ∉ reads.flatten) (hrun : s.copyLoop reads = some t) : Short reads := by
  induction reads generalizing s with
  | nil => exact fun c hc => absurd hc List.not_mem_nil
  | cons chunk reads ih =>
    rw [List.flatten_cons, List.mem_append, not_or] at hchars
    have hchunk : chunk.length < SPLICE_SIZE := by
      by_contra hlong
      obtain ⟨u, hround, -⟩ := Option.bind_eq_some_iff.1 hrun
      rw [round_none hchars.1 (Nat.le_of_not_lt hlong)] at hround
      cases hround
    obtain ⟨u, hround, hu, -⟩ := h.round hchars.1 hchunk
    obtain ⟨u', hround', hrun⟩ := Option.bind_eq_some_iff.1 hrun
    rw [hround] at hround'
    cases hround'
    intro c hc
    rcases List.mem_cons.1 hc with rfl | hc
    · exact hchunk
    · exact ih hu hchars.2 hrun c hc

theorem copyLoop_append (s : Splice) (reads more : List (List UInt8)) :
    s.copyLoop (reads ++ more) = (s.copyLoop reads).bind fun s => s.copyLoop more := by
  induction reads generalizing s with
  | nil => rfl
  | cons chunk reads ih =>
    show (s.round chunk).bind (fun s => s.copyLoop (reads ++ more)) =
      ((s.round chunk).bind fun s => s.copyLoop reads).bind fun s => s.copyLoop more
    rw [Option.bind_assoc]
    exact congrArg _ (funext fun u => ih u)

/-- While there are no zeros the sources are one. -/
theorem Blank.splice (h : s.Blank) (hchars : 0 ∉ sources.flatten.flatten) : s.splice sources = s.copyLoop sources.flatten := by
  induction sources generalizing s with
  | nil => rfl
  | cons reads sources ih =>
    rw [List.flatten_cons, List.flatten_append, List.mem_append, not_or] at hchars
    show ((s.clear).bind fun s => s.copyLoop reads).bind (fun s => s.splice sources) = s.copyLoop (reads ++ sources.flatten)
    rw [h.clear, Option.bind_some, copyLoop_append]
    cases hrun : s.copyLoop reads with
    | none => rfl
    | some t =>
      obtain ⟨t', hrun', ht, -⟩ := h.copyLoop hchars.1 (h.short hchars.1 hrun)
      rw [hrun] at hrun'
      cases hrun'
      exact ih ht hchars.2

theorem blank_start : start.Blank := fun _ _ => rfl

/-- **splice** leaves the concatenation if and only if the chunks are strings that fit in the buffer, and it fits in a
file. -/
theorem splice_concat (sources : List (List (List UInt8))) :
    (start.splice sources).map dst = some sources.flatten.flatten ↔
      (∀ chunk ∈ sources.flatten, 0 ∉ chunk ∧ chunk.length < SPLICE_SIZE) ∧ sources.flatten.flatten.length ≤ LIMIT := by
  constructor
  · intro h
    obtain ⟨t, hrun, hdst⟩ := Option.map_eq_some_iff.1 h
    have hfit : t.Fit := Fit.splice (s := start) ⟨Nat.zero_le _, List.not_mem_nil⟩ hrun
    rw [Fit, hdst] at hfit
    rw [blank_start.splice hfit.2] at hrun
    have hshort := blank_start.short hfit.2 hrun
    exact ⟨fun chunk hc => ⟨fun hzero => hfit.2 (List.mem_flatten.2 ⟨chunk, hc, hzero⟩), hshort chunk hc⟩, hfit.1⟩
  · rintro ⟨hall, hlen⟩
    have hchars : 0 ∉ sources.flatten.flatten := by
      intro hzero
      obtain ⟨chunk, hc, hzero⟩ := List.mem_flatten.1 hzero
      exact (hall chunk hc).1 hzero
    obtain ⟨t, hrun, -, hdst⟩ := blank_start.copyLoop hchars fun chunk hc => (hall chunk hc).2
    have hstart : start.dst.length + sources.flatten.flatten.length ≤ LIMIT := by
      rw [show start.dst.length = 0 from rfl, Nat.zero_add]
      exact hlen
    rw [blank_start.splice hchars, hrun, Option.map_some, hdst hstart]
    rfl

/-- A 0 ends what is copied of a chunk. -/
theorem splice_zero : ¬∀ sources : List (List (List UInt8)),
    (start.splice sources).map dst = some sources.flatten.flatten := by
  intro h
  have hzero := h [[[97, 0, 98]]]
  revert hzero
  decide

end Splice

end NewXv6.User
