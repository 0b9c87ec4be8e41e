import NewXv6.ShellGui.Model

/-!
# The prompt

The read loop looks for `init_string` in what one `read` gave. Where that is a single byte it looks at the byte in front of
`read_buf`, and a prompt whose bytes come in two reads is not seen.
-/

namespace NewXv6.ShellGui.Reader

open Lib

variable {s : Reader} {chunk : List UInt8} {reads : List (List UInt8)}

/-- The shell has written this: the prompt is its end, and is not in it before. -/
def Output (out : List UInt8) : Prop := init_string <:+ out ∧ ¬init_string <:+: out.dropLast

/-- The loop has ended after all the reads, which have been printed, and has looked at bytes only that the last read filled. -/
def Done (s : Reader) (reads : List (List UInt8)) : Prop :=
  (s.readLoop reads).2 = some [] ∧ (s.readLoop reads).1.printer = s.printer.string_printer reads.flatten ∧
    ∀ p ∈ (s.readLoop reads).1.looked, 0 ≤ p.1 ∧ p.1 < p.2

/-! ## One read -/

theorem suffix_iff {a b : UInt8} (h : 2 ≤ chunk.length) :
    [a, b] <:+ chunk ↔ chunk[chunk.length - 2] = a ∧ chunk[chunk.length - 1] = b := by
  rw [List.suffix_iff_eq_drop]
  have hdrop : chunk.drop (chunk.length - 2) = [chunk[chunk.length - 2], chunk[chunk.length - 1]] := by
    rw [List.drop_eq_getElem_cons (by omega), List.drop_eq_getElem_cons (by omega), List.drop_eq_nil_of_le (by omega)]
    congr 3
    omega
  show [a, b] = chunk.drop (chunk.length - 2) ↔ _
  rw [hdrop]
  constructor
  · intro hab
    cases hab
    exact ⟨rfl, rfl⟩
  · rintro ⟨rfl, rfl⟩
    rfl

theorem at_take {j : Nat} (h : j < chunk.length) : (s.take chunk).at_ j = chunk[j] := by
  show (if (j : Int) < 0 then s.front else Buffer.store s.read_buf 0 chunk (j : Int).toNat) = chunk[j]
  have hadd := @Buffer.store_add _ s.read_buf chunk 0 j h
  rw [Nat.zero_add] at hadd
  rw [if_neg (Int.not_lt.2 (Int.natCast_nonneg j)), Int.toNat_natCast, hadd]

/-- After a read of two bytes or more the loop ends if the prompt is their end. -/
theorem test_take (h : 2 ≤ chunk.length) : ((s.take chunk).test chunk.length).2 = true ↔ init_string <:+ chunk := by
  have htwo : (chunk.length : Int) - 2 = ((chunk.length - 2 : Nat) : Int) := by omega
  have hone : (chunk.length : Int) - 1 = ((chunk.length - 1 : Nat) : Int) := by omega
  unfold test init_string
  rw [suffix_iff h, htwo, hone, at_take (by omega), at_take (by omega)]
  split
  next hdollar => simp [hdollar]
  next hdollar => simp [hdollar]

/-- Every test looks at the byte that is two in front of the end. -/
theorem mem_test (s : Reader) (n : Nat) : ((n : Int) - 2, n) ∈ (s.test n).1.looked := by
  unfold test
  split
  · exact List.mem_append_right _ List.mem_cons_self
  · exact List.mem_append_right _ List.mem_cons_self

theorem test_looked {n : Nat} {p : Int × Nat} (h : p ∈ (s.test n).1.looked) :
    p ∈ s.looked ∨ p = ((n : Int) - 2, n) ∨ p = ((n : Int) - 1, n) := by
  unfold test at h
  split at h
  · simpa using h
  · rcases List.mem_append.1 h with h | h
    · exact Or.inl h
    · exact Or.inr (Or.inl (List.mem_singleton.1 h))

theorem looked_test {n : Nat} {p : Int × Nat} (h : p ∈ s.looked) : p ∈ (s.test n).1.looked := by
  unfold test
  split
  · exact List.mem_append_left _ h
  · exact List.mem_append_left _ h

theorem printer_test (n : Nat) : (s.test n).1.printer = s.printer := by
  unfold test
  split <;> rfl

theorem readLoop_cons (h : chunk ≠ []) : s.readLoop (chunk :: reads) =
    if ((s.take chunk).test chunk.length).2 = true then (((s.take chunk).test chunk.length).1, some reads)
    else ((s.take chunk).test chunk.length).1.readLoop reads := by
  cases chunk with
  | nil => exact absurd rfl h
  | cons c chunk =>
    rw [readLoop]
    · split
      next t htest => rw [htest, if_pos rfl]
      next t htest => rw [htest, if_neg Bool.false_ne_true]
    · exact fun hnil => List.cons_ne_nil _ _ hnil

/-! ## The loop -/

/-- What the loop has looked at stays. -/
theorem looked_readLoop {p : Int × Nat} (hreads : ∀ chunk ∈ reads, chunk ≠ []) (h : p ∈ s.looked) :
    p ∈ (s.readLoop reads).1.looked := by
  induction reads generalizing s with
  | nil => exact h
  | cons chunk reads ih =>
    rw [readLoop_cons (hreads chunk List.mem_cons_self)]
    have hstep : p ∈ ((s.take chunk).test chunk.length).1.looked := looked_test h
    split
    · exact hstep
    · exact ih (fun c hc => hreads c (List.mem_cons_of_mem _ hc)) hstep

/-- If the loop takes all the reads, it has looked two in front of the end of each. -/
theorem mem_readLoop (hreads : ∀ chunk ∈ reads, chunk ≠ []) (hend : (s.readLoop reads).2 = some []) (h : chunk ∈ reads) :
    ((chunk.length : Int) - 2, chunk.length) ∈ (s.readLoop reads).1.looked := by
  induction reads generalizing s with
  | nil => exact absurd h List.not_mem_nil
  | cons first reads ih =>
    rw [readLoop_cons (hreads first List.mem_cons_self)] at hend ⊢
    have hrest := fun c hc => hreads c (List.mem_cons_of_mem _ hc)
    split
    next htest =>
      rw [if_pos htest] at hend
      have hnil : reads = [] := Option.some.inj hend
      rw [hnil, List.mem_singleton] at h
      rw [h]
      exact mem_test _ _
    next htest =>
      rw [if_neg htest] at hend
      rcases List.mem_cons.1 h with rfl | h
      · exact looked_readLoop hrest (mem_test _ _)
      · exact ih hrest hend h

theorem Output.rest (h : Output (chunk ++ reads.flatten)) (hlen : 2 ≤ reads.flatten.length) : Output reads.flatten := by
  obtain ⟨hend, honce⟩ := h
  have hne : reads.flatten ≠ [] := List.ne_nil_of_length_pos (Nat.lt_of_lt_of_le Nat.zero_lt_two hlen)
  rw [List.dropLast_append_of_ne_nil hne] at honce
  refine ⟨?_, fun hin => honce (hin.trans (List.suffix_append _ _).isInfix)⟩
  exact List.suffix_of_suffix_length_le hend (List.suffix_append _ _) hlen

theorem Output.not_suffix (h : Output (chunk ++ reads.flatten)) (hne : reads.flatten ≠ []) : ¬init_string <:+ chunk := by
  intro hend
  have honce := h.2
  rw [List.dropLast_append_of_ne_nil hne] at honce
  exact honce (hend.isInfix.trans (List.prefix_append _ _).isInfix)

/-- With two bytes or more in every read the loop ends at the prompt. -/
theorem readLoop_output (hlen : ∀ chunk ∈ reads, 2 ≤ chunk.length) (hout : Output reads.flatten) :
    (s.readLoop reads).2 = some [] ∧ (s.readLoop reads).1.printer = s.printer.string_printer reads.flatten ∧
      ∀ p ∈ (s.readLoop reads).1.looked, p ∈ s.looked ∨ 0 ≤ p.1 ∧ p.1 < p.2 := by
  induction reads generalizing s with
  | nil =>
    obtain ⟨hend, -⟩ := hout
    exact absurd (List.suffix_nil.1 hend) (List.cons_ne_nil _ _)
  | cons chunk reads ih =>
    have hchunk := hlen chunk List.mem_cons_self
    have hne : chunk ≠ [] := List.ne_nil_of_length_pos (Nat.lt_of_lt_of_le Nat.zero_lt_two hchunk)
    have hlooked : ∀ p ∈ ((s.take chunk).test chunk.length).1.looked, p ∈ s.looked ∨ 0 ≤ p.1 ∧ p.1 < p.2 := by
      intro p hp
      rcases test_looked hp with hp | rfl | rfl
      · exact Or.inl hp
      · exact Or.inr ⟨by simp only; omega, by simp only; omega⟩
      · exact Or.inr ⟨by simp only; omega, by simp only; omega⟩
    rw [readLoop_cons hne]
    rw [List.flatten_cons] at hout ⊢
    cases reads with
    | nil =>
      rw [List.flatten_nil, List.append_nil] at hout ⊢
      rw [if_pos ((test_take hchunk).2 hout.1)]
      exact ⟨rfl, printer_test _, hlooked⟩
    | cons next reads =>
      have hnext := hlen next (List.mem_cons_of_mem _ List.mem_cons_self)
      have hrest : 2 ≤ (next :: reads).flatten.length := by
        rw [List.flatten_cons, List.length_append]
        exact Nat.le_add_right_of_le hnext
      have hnot := hout.not_suffix (List.ne_nil_of_length_pos (Nat.lt_of_lt_of_le Nat.zero_lt_two hrest))
      rw [if_neg (fun htest => hnot ((test_take hchunk).1 htest))]
      obtain ⟨hend, hprinter, hall⟩ :=
        ih (s := ((s.take chunk).test chunk.length).1) (fun c hc => hlen c (List.mem_cons_of_mem _ hc)) (hout.rest hrest)
      refine ⟨hend, ?_, fun p hp => ?_⟩
      · rw [hprinter, printer_test]
        exact (List.foldl_append ..).symm
      · rcases hall p hp with hp | hp
        · exact hlooked p hp
        · exact Or.inr hp

/-- **The read loop** ends at the prompt, and looks at bytes of the last read only, if and only if no read gives a single
byte. -/
theorem prompt_found (printer : Printer) (read_buf : Nat → UInt8) (front : UInt8) (reads : List (List UInt8))
    (hreads : ∀ chunk ∈ reads, chunk ≠ []) (hout : Output reads.flatten) :
    Done (start printer read_buf front) reads ↔ ∀ chunk ∈ reads, 2 ≤ chunk.length := by
  constructor
  · rintro ⟨hend, -, hlooked⟩ chunk hchunk
    obtain ⟨hpos, -⟩ := hlooked _ (mem_readLoop hreads hend hchunk)
    simp only at hpos
    omega
  · intro hlen
    obtain ⟨hend, hprinter, hall⟩ := readLoop_output (s := start printer read_buf front) hlen hout
    refine ⟨hend, hprinter, fun p hp => ?_⟩
    rcases hall p hp with hp | hp
    · exact absurd hp List.not_mem_nil
    · exact hp

theorem prompt_found_short : Done (start .init_printer (fun _ => 0) 0) [[104, 105, 10], [36, 32]] :=
  (prompt_found _ _ _ _ (by decide) ⟨⟨[104, 105, 10], rfl⟩, by decide⟩).2 (by decide)

/-- The prompt in two reads of one byte is missed. -/
theorem prompt_missed : ¬∀ (printer : Printer) (read_buf : Nat → UInt8) (front : UInt8) (reads : List (List UInt8)),
    (∀ chunk ∈ reads, chunk ≠ []) → Output reads.flatten → Done (start printer read_buf front) reads := by
  intro h
  have hdone := (h .init_printer (fun _ => 0) 0 [[36], [32]] (by decide) ⟨⟨[], rfl⟩, by decide⟩).1
  revert hdone
  decide

/-- If the shell writes one byte at a time and each is read at once, the loop goes on for ever. -/
theorem readLoop_waits (hreads : ∀ chunk ∈ reads, chunk.length = 1) (hfront : s.front ≠ 36) : (s.readLoop reads).2 = none := by
  induction reads generalizing s with
  | nil => rfl
  | cons chunk reads ih =>
    have hone := hreads chunk List.mem_cons_self
    have htest : (s.take chunk).test chunk.length = ({ s.take chunk with looked := s.looked ++ [((1 : Int) - 2, 1)] }, false) := by
      rw [hone]
      exact if_neg hfront
    rw [readLoop_cons (List.ne_nil_of_length_pos (hone ▸ Nat.one_pos)), htest, if_neg Bool.false_ne_true]
    exact ih (fun c hc => hreads c (List.mem_cons_of_mem _ hc)) hfront

end NewXv6.ShellGui.Reader
