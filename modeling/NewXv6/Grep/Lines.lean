import NewXv6.Grep.Match
import NewXv6.Lib.Buffer

/-!
# The lines of `grep` (`grep.c`)

`grep` reads behind what is left of a line, and looks for newlines with `strchr`, which ends at a 0 but not at the end of
what was read: behind that stand bytes of earlier reads.
-/

namespace NewXv6.Grep

open Lib

/-- `sizeof(buf)`. -/
abbrev SIZE : Nat := 1024

def newline : UInt8 := 10

/-! ## The program -/

structure State where
  buf : Nat → UInt8
  m : Int
  /-- What is written. -/
  out : List UInt8

/-- What `strchr` passes from `p` on: it ends at a newline or a 0, and gives none where it leaves `buf`. -/
def strchr (buf : Nat → UInt8) (p : Nat) : Option (List UInt8) :=
  Buffer.scan (fun b => b == newline || b == 0) buf (SIZE - p) p

/-- The inner loop from `p` on: the buffer, `p` and what is written when it ends. The first number bounds the rounds. -/
def lines (pattern : List UInt8) : Nat → (Nat → UInt8) → Nat → List UInt8 → Option ((Nat → UInt8) × Nat × List UInt8)
  | 0, _, _, _ => none
  | n + 1, buf, p, out =>
    (strchr buf p).bind fun w =>
      if buf (p + w.length) = newline then
        if match_ pattern w = true then lines pattern n buf (p + w.length + 1) (out ++ (w ++ [newline]))
        else lines pattern n (Function.update buf (p + w.length) 0) (p + w.length + 1) out
      else some (buf, p, out)

/-- The part of the loop behind the lines. -/
def keep (m : Int) (buf : Nat → UInt8) (p : Nat) (out : List UInt8) : State :=
  if p = 0 then ⟨buf, 0, out⟩
  else if 0 < m then ⟨Buffer.store buf 0 (Buffer.load buf p (m - p).toNat), m - p, out⟩
  else ⟨buf, m, out⟩

/-- A round of the loop; none where `read` writes outside `buf`, or `strchr` leaves it. -/
def State.round (pattern : List UInt8) (s : State) (chunk : List UInt8) : Option State :=
  if s.m < 0 ∨ SIZE < s.m + chunk.length then none
  else
    (lines pattern (SIZE + 1) (Buffer.store s.buf s.m.toNat chunk) 0 s.out).map fun r =>
      keep (s.m + chunk.length) r.1 r.2.1 r.2.2

def grep (pattern : List UInt8) (s : State) : List (List UInt8) → Option State
  | [] => some s
  | chunk :: chunks => (s.round pattern chunk).bind fun s => grep pattern s chunks

/-! ## The lines of a text -/

/-- The lines that end with a newline, and what is behind them. -/
def splitLines : List UInt8 → List (List UInt8) × List UInt8
  | [] => ([], [])
  | c :: text =>
    if c = newline then ([] :: (splitLines text).1, (splitLines text).2)
    else
      match splitLines text with
      | ([], rest) => ([], c :: rest)
      | (line :: ls, rest) => ((c :: line) :: ls, rest)

/-- The lines that match, each with its newline. -/
def report (pattern text : List UInt8) : List UInt8 :=
  ((splitLines text).1.filter fun line => match_ pattern line).flatMap fun line => line ++ [newline]

/-- What is behind the last newline. -/
def rest (text : List UInt8) : List UInt8 := (splitLines text).2

section Split

variable {pattern text w : List UInt8}

theorem splitLines_of_not_mem (h : newline ∉ text) : splitLines text = ([], text) := by
  induction text with
  | nil => rfl
  | cons c text ih =>
    rw [List.mem_cons, not_or] at h
    rw [splitLines, if_neg (Ne.symm h.1), ih h.2]

theorem splitLines_line (h : newline ∉ w) (text : List UInt8) :
    splitLines (w ++ newline :: text) = (w :: (splitLines text).1, (splitLines text).2) := by
  induction w with
  | nil =>
    rw [List.nil_append, splitLines, if_pos rfl]
  | cons c w ih =>
    rw [List.mem_cons, not_or] at h
    rw [List.cons_append, splitLines, if_neg (Ne.symm h.1), ih h.2]

/-- Induction on the lines of a text. -/
theorem line_induction {P : List UInt8 → Prop} (last : ∀ text, newline ∉ text → P text)
    (line : ∀ w text, newline ∉ w → P text → P (w ++ newline :: text)) (text : List UInt8) : P text := by
  induction hlen : text.length using Nat.strong_induction_on generalizing text with
  | _ n ih =>
    by_cases h : newline ∈ text
    · obtain ⟨w, more, rfl, hw⟩ := List.eq_append_cons_of_mem h
      refine line w more hw (ih more.length ?_ more rfl)
      rw [← hlen, List.length_append, List.length_cons]
      omega
    · exact last text h

theorem report_of_not_mem (h : newline ∉ text) : report pattern text = [] := by
  unfold report
  rw [splitLines_of_not_mem h]
  rfl

theorem report_line (h : newline ∉ w) (text : List UInt8) : report pattern (w ++ newline :: text) =
    (if match_ pattern w = true then w ++ [newline] else []) ++ report pattern text := by
  unfold report
  rw [splitLines_line h, List.filter_cons]
  split <;> rfl

theorem rest_of_not_mem (h : newline ∉ text) : rest text = text := by
  unfold rest
  rw [splitLines_of_not_mem h]

theorem rest_line (h : newline ∉ w) (text : List UInt8) : rest (w ++ newline :: text) = rest text := by
  unfold rest
  rw [splitLines_line h]

theorem not_mem_rest (text : List UInt8) : newline ∉ rest text := by
  induction text using line_induction with
  | last text h => rwa [rest_of_not_mem h]
  | line w text h ih => rwa [rest_line h]

/-- The rest is the end of the text. -/
theorem rest_suffix (text : List UInt8) : rest text <:+ text := by
  induction text using line_induction with
  | last text h => rw [rest_of_not_mem h]
  | line w text h ih =>
    rw [rest_line h]
    exact ih.trans ⟨w ++ [newline], by rw [List.append_assoc]; rfl⟩

theorem rest_lt (h : newline ∈ text) : (rest text).length < text.length := by
  refine Nat.lt_of_le_of_ne (rest_suffix text).length_le fun heq => not_mem_rest text ?_
  rw [(rest_suffix text).eq_of_length heq]
  exact h

/-- The lines of two pieces: those of the first, and those of its rest and the second. -/
theorem report_append (pattern text more : List UInt8) :
    report pattern (text ++ more) = report pattern text ++ report pattern (rest text ++ more) := by
  induction text using line_induction with
  | last text h => rw [report_of_not_mem h, rest_of_not_mem h, List.nil_append]
  | line w text h ih =>
    rw [List.append_assoc, List.cons_append, report_line h, report_line h, rest_line h, ih, List.append_assoc]

end Split

/-! ## The inner loop -/

section Inner

variable {pattern d w out : List UInt8} {buf : Nat → UInt8} {p q n : Nat}

/-- `strchr` finds the newline behind a line. -/
theorem strchr_line (h : Buffer.At buf p (w ++ newline :: d)) (hw : newline ∉ w) (hzero : 0 ∉ w) (hroom : p + w.length < SIZE) :
    strchr buf p = some w ∧ buf (p + w.length) = newline := by
  obtain ⟨hline, hmore⟩ := Buffer.at_append.1 h
  have hend : buf (p + w.length) = newline := hmore 0 (Nat.succ_pos _)
  refine ⟨Buffer.scan_of_at hline (fun c hc => ?_) ?_ (by omega), hend⟩
  · rw [Bool.or_eq_false_iff, beq_eq_false_iff_ne, beq_eq_false_iff_ne]
    exact ⟨fun heq => hw (heq ▸ hc), fun heq => hzero (heq ▸ hc)⟩
  · rw [hend]
    rfl

/-- The loop has ended lines with a 0, at most. -/
def Ended (buf buf' : Nat → UInt8) (p q : Nat) : Prop :=
  ∀ i, buf' i = buf i ∨ buf i = newline ∧ buf' i = 0 ∧ p ≤ i ∧ i < q

theorem lines_line (h : strchr buf p = some w) (hend : buf (p + w.length) = newline) : lines pattern (n + 1) buf p out =
    if match_ pattern w = true then lines pattern n buf (p + w.length + 1) (out ++ (w ++ [newline]))
    else lines pattern n (Function.update buf (p + w.length) 0) (p + w.length + 1) out := by
  rw [lines, h, Option.bind_some, if_pos hend]

theorem lines_end (h : strchr buf p = some w) (hend : buf (p + w.length) ≠ newline) :
    lines pattern (n + 1) buf p out = some (buf, p, out) := by
  rw [lines, h, Option.bind_some, if_neg hend]

/-- The loop over a text that stands in `buf`. -/
theorem lines_text (pattern out : List UInt8) (hdata : Buffer.At buf p d) (hzero : 0 ∉ d) (hroom : p + d.length ≤ SIZE)
    (hfuel : SIZE < n + p) : ∃ buf' n', SIZE < n' + (p + (d.length - (rest d).length)) ∧
      lines pattern n buf p out = lines pattern n' buf' (p + (d.length - (rest d).length)) (out ++ report pattern d) ∧
      Ended buf buf' p (p + (d.length - (rest d).length)) := by
  induction d using line_induction generalizing buf p n out with
  | last d h =>
    refine ⟨buf, n, ?_, ?_, fun i => Or.inl rfl⟩
    · rw [rest_of_not_mem h, Nat.sub_self]
      exact hfuel
    · rw [rest_of_not_mem h, Nat.sub_self, report_of_not_mem h, List.append_nil]
      rfl
  | line w d h ih =>
    rw [List.mem_append, List.mem_cons, not_or, not_or] at hzero
    have hlen : (w ++ newline :: d).length = w.length + 1 + d.length := by
      rw [List.length_append, List.length_cons]
      omega
    have hrest := (rest_suffix d).length_le
    rw [hlen] at hroom
    obtain ⟨n, rfl⟩ := Nat.exists_eq_add_of_le' (show 1 ≤ n by omega)
    obtain ⟨hfind, hend⟩ := strchr_line hdata h hzero.1 (by omega)
    have hmore : Buffer.At buf (p + w.length + 1) d := by
      have hcons := (Buffer.at_append.1 hdata).2
      exact (Buffer.at_append.1 (show Buffer.At buf (p + w.length) ([newline] ++ d) from hcons)).2
    have hp : p + w.length + 1 + (d.length - (rest d).length) = p + (w.length + 1 + d.length - (rest d).length) := by omega
    rw [lines_line hfind hend, report_line h, rest_line h, hlen]
    split
    next hmatch =>
      obtain ⟨buf', n', hfuel', hlines, hended⟩ :=
        ih (out ++ (w ++ [newline])) (n := n) hmore hzero.2.2 (by omega) (by omega)
      rw [hp] at hfuel' hlines hended
      refine ⟨buf', n', hfuel', ?_, fun i => ?_⟩
      · rw [hlines, List.append_assoc]
      · rcases hended i with hi | ⟨hnl, h0, hlow, hhigh⟩
        · exact Or.inl hi
        · exact Or.inr ⟨hnl, h0, by omega, hhigh⟩
    next hmatch =>
      have hmore' : Buffer.At (Function.update buf (p + w.length) 0) (p + w.length + 1) d :=
        hmore.congr fun j _ => Function.update_of_ne (by omega) ..
      obtain ⟨buf', n', hfuel', hlines, hended⟩ := ih out (n := n) hmore' hzero.2.2 (by omega) (by omega)
      rw [hp] at hfuel' hlines hended
      refine ⟨buf', n', hfuel', by rw [hlines, List.nil_append], fun i => ?_⟩
      by_cases hi : i = p + w.length
      · subst hi
        rcases hended (p + w.length) with hi | ⟨hnl, -⟩
        · rw [Function.update_self] at hi
          exact Or.inr ⟨hend, hi, by omega, by omega⟩
        · rw [Function.update_self] at hnl
          exact absurd hnl (by decide)
      · have hended := hended i
        rw [Function.update_of_ne hi] at hended
        rcases hended with hi | ⟨hnl, h0, hlow, hhigh⟩
        · exact Or.inl hi
        · exact Or.inr ⟨hnl, h0, by omega, hhigh⟩

/-- Behind what was read a 0 comes before any newline, and before the end of `buf`. -/
def Clear (buf : Nat → UInt8) (l : Nat) : Prop := ∃ k, l + k < SIZE ∧ buf (l + k) = 0 ∧ ∀ j < k, buf (l + j) ≠ newline

/-- Where the rest of a text is followed by a 0 the loop ends. -/
theorem strchr_clear (hdata : Buffer.At buf p d) (hnl : newline ∉ d) (hclear : Clear buf (p + d.length)) :
    ∃ w, strchr buf p = some w ∧ buf (p + w.length) ≠ newline := by
  obtain ⟨k, hk, h0, hbefore⟩ := hclear
  cases hfind : strchr buf p with
  | none =>
    have hnone := Buffer.scan_eq_none.1 hfind (d.length + k) (by omega)
    rw [← Nat.add_assoc, h0] at hnone
    exact absurd hnone (by decide)
  | some w =>
    refine ⟨w, rfl, fun hend => ?_⟩
    obtain ⟨hw, hall, -, -⟩ := Buffer.at_of_scan hfind
    rcases Nat.lt_or_ge w.length d.length with hlt | hge
    · rw [hdata _ hlt] at hend
      exact hnl (hend ▸ List.getElem_mem hlt)
    · rcases Nat.lt_or_ge w.length (d.length + k) with hlt' | hge'
      · refine hbefore (w.length - d.length) (by omega) ?_
        rw [← hend]
        congr 1
        omega
      · rcases Nat.lt_or_eq_of_le hge' with hlt'' | heq
        · have h := hw (d.length + k) hlt''
          rw [← Nat.add_assoc, h0] at h
          have hfalse := hall _ (List.getElem_mem hlt'')
          rw [← h] at hfalse
          exact absurd hfalse (by decide)
        · rw [← heq, ← Nat.add_assoc, h0] at hend
          exact absurd hend (by decide)

/-- The loop over all that was read. -/
theorem lines_clear (pattern out : List UInt8) (hdata : Buffer.At buf 0 d) (hzero : 0 ∉ d) (hclear : Clear buf d.length) :
    ∃ buf', lines pattern (SIZE + 1) buf 0 out = some (buf', d.length - (rest d).length, out ++ report pattern d) ∧
      Ended buf buf' 0 (d.length - (rest d).length) := by
  obtain ⟨k, hk, h0, hbefore⟩ := id hclear
  obtain ⟨buf', n, hfuel, hlines, hended⟩ := lines_text (n := SIZE + 1) pattern out hdata hzero (by omega) (by omega)
  rw [Nat.zero_add] at hfuel hlines hended
  obtain ⟨front, hfront⟩ := rest_suffix d
  have hlen : d.length = front.length + (rest d).length := by rw [← List.length_append, hfront]
  have hsame : ∀ i, d.length - (rest d).length ≤ i → buf' i = buf i := by
    intro i hi
    rcases hended i with h | ⟨-, -, -, hlt⟩
    · exact h
    · omega
  have hrest : Buffer.At buf' (d.length - (rest d).length) (rest d) := by
    rw [← hfront] at hdata
    have h := (Buffer.at_append.1 hdata).2
    rw [Nat.zero_add, show front.length = d.length - (rest d).length by omega] at h
    exact h.congr fun j _ => hsame _ (Nat.le_add_right _ _)
  have hbehind : d.length - (rest d).length + (rest d).length = d.length := by omega
  have hclear' : Clear buf' (d.length - (rest d).length + (rest d).length) := by
    rw [hbehind]
    refine ⟨k, hk, ?_, fun j hj => ?_⟩
    · rw [hsame _ (by omega), h0]
    · rw [hsame _ (by omega)]
      exact hbefore j hj
  obtain ⟨w, hfind, hend⟩ := strchr_clear hrest (not_mem_rest d) hclear'
  obtain ⟨n, rfl⟩ := Nat.exists_eq_add_of_le' (show 1 ≤ n by omega)
  exact ⟨buf', by rw [hlines, lines_end hfind hend], hended⟩

end Inner

/-! ## A round -/

/-- Every read meets this: behind what is then in `buf` a 0 comes before any newline that an earlier read left, and if there
is no newline in the read, there is none in the reads after it. The first argument is `buf` with every newline kept, the
second what is left of a line. -/
def Good (buf : Nat → UInt8) (pending : List UInt8) : List (List UInt8) → Prop
  | [] => True
  | chunk :: chunks =>
    Clear (Buffer.store buf 0 (pending ++ chunk)) (pending ++ chunk).length ∧
      if newline ∈ chunk then
        Good (Buffer.store (Buffer.store buf 0 (pending ++ chunk)) 0 (rest (pending ++ chunk))) (rest (pending ++ chunk)) chunks
      else newline ∉ chunks.flatten ∧ Good (Buffer.store buf 0 (pending ++ chunk)) [] chunks

/-- The beginning of a line is at the front of `buf`. -/
structure State.Pending (s : State) (pending : List UInt8) : Prop where
  m : s.m = pending.length
  front : Buffer.At s.buf 0 pending
  line : newline ∉ pending
  string : 0 ∉ pending

/-- The state after a round that took the text `d`. -/
def after (buf : Nat → UInt8) (d out : List UInt8) : State :=
  if newline ∈ d then ⟨Buffer.store buf 0 (rest d), (rest d).length, out⟩ else ⟨buf, 0, out⟩

section Round

variable {pattern pending chunk d out : List UInt8} {buf buf' raw : Nat → UInt8} {s t : State} {chunks : List (List UInt8)}

theorem keep_text (hrest : Buffer.At buf (d.length - (rest d).length) (rest d)) :
    keep d.length buf (d.length - (rest d).length) out = after buf d out := by
  unfold keep after
  by_cases h : newline ∈ d
  · have hlt := rest_lt h
    have hm : ((d.length : Int) - ((d.length - (rest d).length : Nat) : Int)) = (rest d).length := by omega
    rw [if_neg (by omega), if_pos (by omega), if_pos h, hm, Int.toNat_natCast, hrest.load]
  · rw [rest_of_not_mem h, Nat.sub_self, if_pos rfl, if_neg h]

theorem after_out (buf : Nat → UInt8) (d out : List UInt8) : (after buf d out).out = out := by
  unfold after
  split <;> rfl

theorem State.Pending.store (h : s.Pending pending) (chunk : List UInt8) :
    Buffer.store s.buf s.m.toNat chunk = Buffer.store s.buf 0 (pending ++ chunk) := by
  have happend : Buffer.store s.buf (0 + pending.length) chunk = Buffer.store s.buf 0 (pending ++ chunk) :=
    Buffer.store_append h.front
  rw [Nat.zero_add] at happend
  rw [h.m, Int.toNat_natCast, happend]

/-- The rest of the text is where the inner loop ends. -/
theorem at_rest (hdata : Buffer.At buf 0 d) (hended : Ended buf buf' 0 (d.length - (rest d).length)) :
    Buffer.At buf' (d.length - (rest d).length) (rest d) := by
  obtain ⟨front, hfront⟩ := rest_suffix d
  have hlen : d.length = front.length + (rest d).length := by rw [← List.length_append, hfront]
  have hat : Buffer.At buf (d.length - (rest d).length) (rest d) := by
    rw [← hfront] at hdata
    have h := (Buffer.at_append.1 hdata).2
    rwa [Nat.zero_add, show front.length = d.length - (rest d).length by omega] at h
  refine hat.congr fun j _ => ?_
  rcases hended (d.length - (rest d).length + j) with h | ⟨-, -, -, hlt⟩
  · exact h
  · omega

/-- A round where the inner loop ends behind the lines of the text. -/
theorem State.Pending.round (h : s.Pending pending) (hd : d = pending ++ chunk) (hroom : d.length ≤ SIZE)
    (hlines : lines pattern (SIZE + 1) (Buffer.store s.buf 0 d) 0 s.out = some (buf', d.length - (rest d).length, out))
    (hended : Ended (Buffer.store s.buf 0 d) buf' 0 (d.length - (rest d).length)) :
    s.round pattern chunk = some (after buf' d out) := by
  have hm : s.m + chunk.length = d.length := by
    rw [h.m, hd, List.length_append, Int.natCast_add]
  have hpos := h.m
  unfold State.round
  rw [h.store, ← hd, hm, if_neg (by omega), hlines, Option.map_some]
  exact congrArg some (keep_text (at_rest Buffer.at_store hended))

theorem State.Pending.after (h : s.Pending pending) (hd : d = pending ++ chunk) (hzero : 0 ∉ chunk) (buf' : Nat → UInt8)
    (out : List UInt8) : (after buf' d out).Pending (if newline ∈ chunk then rest d else []) := by
  have hmem : newline ∈ d ↔ newline ∈ chunk := by
    rw [hd, List.mem_append]
    exact or_iff_right h.line
  unfold Grep.after
  by_cases hnl : newline ∈ d
  · rw [if_pos hnl, if_pos (hmem.1 hnl)]
    have hfront : Buffer.At (Buffer.store buf' 0 (rest d)) 0 (rest d) := Buffer.at_store
    refine ⟨rfl, hfront, not_mem_rest d, fun h0 => ?_⟩
    have h0 := (rest_suffix d).subset h0
    rw [hd, List.mem_append] at h0
    exact h0.elim h.string hzero
  · rw [if_neg hnl, if_neg (fun hc => hnl (hmem.2 hc))]
    exact ⟨rfl, Buffer.at_nil, List.not_mem_nil, List.not_mem_nil⟩

/-- The bytes of `buf` and of `raw` are the same but for newlines. -/
def Kept (raw buf : Nat → UInt8) : Prop := ∀ i, buf i = raw i ∨ raw i = newline ∧ buf i = 0

theorem Kept.store (h : Kept raw buf) (i : Nat) (d : List UInt8) : Kept (Buffer.store raw i d) (Buffer.store buf i d) := by
  intro j
  rcases Nat.lt_or_ge j i with hlt | hge
  · rw [Buffer.store_of_lt hlt, Buffer.store_of_lt hlt]
    exact h j
  · obtain ⟨j, rfl⟩ := Nat.exists_eq_add_of_le hge
    rcases Nat.lt_or_ge j d.length with hj | hj
    · rw [Buffer.store_add hj, Buffer.store_add hj]
      exact Or.inl rfl
    · rw [Buffer.store_of_le (by omega), Buffer.store_of_le (by omega)]
      exact h _

theorem Kept.ended (h : Kept raw buf) {p q : Nat} (hended : Ended buf buf' p q) : Kept raw buf' := by
  intro i
  rcases hended i with hi | ⟨hnl, h0, -⟩
  · rw [hi]
    exact h i
  · rcases h i with hraw | ⟨hraw, -⟩
    · exact Or.inr ⟨hraw ▸ hnl, h0⟩
    · exact Or.inr ⟨hraw, h0⟩

theorem Kept.clear (h : Kept raw buf) {l : Nat} (hclear : Clear raw l) : Clear buf l := by
  obtain ⟨k, hk, h0, hbefore⟩ := hclear
  refine ⟨k, hk, ?_, fun j hj hnl => ?_⟩
  · rcases h (l + k) with hraw | ⟨-, hzero⟩
    · rw [hraw, h0]
    · exact hzero
  · rcases h (l + j) with hraw | ⟨-, hzero⟩
    · exact hbefore j hj (hraw ▸ hnl)
    · rw [hzero] at hnl
      exact absurd hnl (by decide)

/-- A round that meets the condition writes the lines. -/
theorem State.Pending.round_clear (h : s.Pending pending) (hd : d = pending ++ chunk) (hzero : 0 ∉ chunk)
    (hclear : Clear (Buffer.store s.buf 0 d) d.length) (pattern : List UInt8) :
    ∃ buf', s.round pattern chunk = some (Grep.after buf' d (s.out ++ report pattern d)) ∧
      lines pattern (SIZE + 1) (Buffer.store s.buf 0 d) 0 s.out =
        some (buf', d.length - (rest d).length, s.out ++ report pattern d) ∧
      Ended (Buffer.store s.buf 0 d) buf' 0 (d.length - (rest d).length) := by
  have hstring : 0 ∉ d := by
    rw [hd, List.mem_append, not_or]
    exact ⟨h.string, hzero⟩
  obtain ⟨k, hk, -⟩ := id hclear
  obtain ⟨buf', hlines, hended⟩ := lines_clear pattern s.out Buffer.at_store hstring hclear
  exact ⟨buf', h.round hd (by omega) hlines hended, hlines, hended⟩

/-- **Runs** whose reads meet the condition write the lines that match. -/
theorem grep_good (pattern : List UInt8) (h : s.Pending pending) (hkept : Kept raw s.buf) (hgood : Good raw pending chunks)
    (hzero : 0 ∉ chunks.flatten) :
    ∃ t, grep pattern s chunks = some t ∧ t.out = s.out ++ report pattern (pending ++ chunks.flatten) := by
  induction chunks generalizing s pending raw with
  | nil =>
    refine ⟨s, rfl, ?_⟩
    rw [List.flatten_nil, List.append_nil, report_of_not_mem h.line, List.append_nil]
  | cons chunk chunks ih =>
    obtain ⟨hclear, hrest⟩ := hgood
    rw [List.flatten_cons, List.mem_append, not_or] at hzero
    have hkept' := hkept.store 0 (pending ++ chunk)
    obtain ⟨buf', hround, -, hended⟩ := h.round_clear rfl hzero.1 (hkept'.clear hclear) pattern
    have hafter := h.after rfl hzero.1 buf' (s.out ++ report pattern (pending ++ chunk))
    have hnl : newline ∈ pending ++ chunk ↔ newline ∈ chunk := by
      rw [List.mem_append]
      exact or_iff_right h.line
    have hstep : ∀ t, grep pattern (Grep.after buf' (pending ++ chunk) (s.out ++ report pattern (pending ++ chunk))) chunks =
        some t → grep pattern s (chunk :: chunks) = some t := by
      intro t ht
      unfold grep
      rw [hround, Option.bind_some, ht]
    by_cases hchunk : newline ∈ chunk
    · rw [if_pos hchunk] at hrest hafter
      have hbuf : Kept (Buffer.store (Buffer.store raw 0 (pending ++ chunk)) 0 (rest (pending ++ chunk)))
          (Grep.after buf' (pending ++ chunk) (s.out ++ report pattern (pending ++ chunk))).buf := by
        unfold Grep.after
        rw [if_pos (hnl.2 hchunk)]
        exact (hkept'.ended hended).store 0 _
      obtain ⟨t, ht, hout⟩ := ih hafter hbuf hrest hzero.2
      refine ⟨t, hstep t ht, ?_⟩
      rw [hout, after_out, List.flatten_cons, ← List.append_assoc pending, report_append pattern (pending ++ chunk),
        List.append_assoc]
    · rw [if_neg hchunk] at hrest hafter
      obtain ⟨hnone, hrest⟩ := hrest
      have hbuf : Kept (Buffer.store raw 0 (pending ++ chunk))
          (Grep.after buf' (pending ++ chunk) (s.out ++ report pattern (pending ++ chunk))).buf := by
        unfold Grep.after
        rw [if_neg (fun hc => hchunk (hnl.1 hc))]
        exact hkept'.ended hended
      obtain ⟨t, ht, hout⟩ := ih hafter hbuf hrest hzero.2
      refine ⟨t, hstep t ht, ?_⟩
      have hall : newline ∉ pending ++ (chunk :: chunks).flatten := by
        rw [List.flatten_cons, ← List.append_assoc, List.mem_append, not_or]
        exact ⟨fun hc => hchunk (hnl.1 hc), hnone⟩
      rw [hout, after_out, List.nil_append, report_of_not_mem hnone, report_of_not_mem hall,
        report_of_not_mem fun hc => hchunk (hnl.1 hc), List.append_nil]

end Round

end NewXv6.Grep
