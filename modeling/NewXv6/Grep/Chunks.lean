import NewXv6.Grep.Lines

/-!
# grep over the chunks of `read`

The pattern that matches every line shows what goes wrong: a newline that an earlier read left gives a line more, and `m`
is negative after it; a line whose beginning is dropped is shorter than it should be.
-/

namespace NewXv6.Grep

open Lib

variable {d out out' pending chunk text more : List UInt8} {buf buf' : Nat → UInt8} {s t u : State} {n p q : Nat}
  {chunks : List (List UInt8)}

/-! ## The empty pattern -/

theorem match_nil (text : List UInt8) : match_ [] text = true := by
  have hfrom : matchFrom [] text = true := by
    cases text with
    | nil => rw [matchFrom, matchhere]
    | cons c text => rw [matchFrom, matchhere, Bool.true_or]
  exact hfrom

/-- It reports all but the rest. -/
theorem report_rest (text : List UInt8) : report [] text ++ rest text = text := by
  induction text using line_induction with
  | last text h => rw [report_of_not_mem h, rest_of_not_mem h, List.nil_append]
  | line w text h ih =>
    rw [report_line h, rest_line h, if_pos (match_nil w), List.append_assoc, ih, List.append_assoc]
    rfl

theorem count_report (text : List UInt8) : (report [] text).count newline = text.count newline := by
  have h := congrArg (List.count newline) (report_rest text)
  rwa [List.count_append, List.count_eq_zero_of_not_mem (not_mem_rest text), Nat.add_zero] at h

/-- Without newlines in front no less is reported. -/
theorem report_length (h : newline ∉ text) (more : List UInt8) :
    (report [] more).length ≤ (report [] (text ++ more)).length ∧
      (newline ∈ more → (report [] (text ++ more)).length = text.length + (report [] more).length) := by
  have hmore := congrArg List.length (report_rest more)
  have hall := congrArg List.length (report_rest (text ++ more))
  rw [List.length_append] at hmore hall
  rw [List.length_append] at hall
  by_cases hnl : newline ∈ more
  · obtain ⟨w, last, rfl, hw⟩ := List.eq_append_cons_of_mem hnl
    have hline : newline ∉ text ++ w := by
      rw [List.mem_append, not_or]
      exact ⟨h, hw⟩
    have hrest : rest (text ++ (w ++ newline :: last)) = rest (w ++ newline :: last) := by
      rw [← List.append_assoc, rest_line hline, rest_line hw]
    rw [hrest] at hall
    exact ⟨by omega, fun _ => by omega⟩
  · rw [report_of_not_mem hnl]
    exact ⟨Nat.zero_le _, fun h => absurd h hnl⟩

/-- The inner loop leaves `buf` as it is, and writes a newline if it goes on. -/
theorem lines_all (h : lines [] n buf p out = some (buf', q, out')) :
    buf' = buf ∧ p ≤ q ∧ ∃ extra, out' = out ++ extra ∧ (p < q → newline ∈ extra) := by
  induction n generalizing p out with
  | zero => cases h
  | succ n ih =>
    rw [lines] at h
    obtain ⟨w, hw, h⟩ := Option.bind_eq_some_iff.1 h
    split at h
    next hend =>
      rw [if_pos (match_nil w)] at h
      obtain ⟨rfl, hle, extra, rfl, -⟩ := ih h
      refine ⟨rfl, by omega, w ++ [newline] ++ extra, by rw [List.append_assoc], fun _ => ?_⟩
      exact List.mem_append_left _ (List.mem_append_right _ List.mem_cons_self)
    next hend =>
      cases h
      exact ⟨rfl, Nat.le_refl _, [], (List.append_nil _).symm, fun hlt => absurd hlt (Nat.lt_irrefl _)⟩

/-- Where the condition fails the loop leaves `buf`, or takes a line that is not there. -/
theorem lines_unclear (hdata : Buffer.At buf 0 d) (hzero : 0 ∉ d) (hroom : d.length ≤ SIZE) (hunclear : ¬Clear buf d.length)
    (h : lines [] (SIZE + 1) buf 0 out = some (buf', q, out')) :
    d.length < q ∧ ∃ extra, out' = out ++ report [] d ++ extra ∧ newline ∈ extra := by
  obtain ⟨buf₁, n, hfuel, hlines, hended⟩ := lines_text (n := SIZE + 1) [] out hdata hzero (by omega) (by omega)
  rw [Nat.zero_add] at hfuel hlines hended
  have hrest := at_rest hdata hended
  have hle := (rest_suffix d).length_le
  obtain ⟨hbuf, -⟩ := lines_all h
  rw [hlines] at h
  obtain ⟨rfl, -⟩ := lines_all h
  subst hbuf
  obtain ⟨n, rfl⟩ := Nat.exists_eq_add_of_le' (show 1 ≤ n by omega)
  rw [lines] at h
  obtain ⟨w, hfind, h⟩ := Option.bind_eq_some_iff.1 h
  obtain ⟨hw, hall, hstop, hlen⟩ := Buffer.at_of_scan hfind
  have hbehind : (rest d).length ≤ w.length := by
    by_contra hlt
    have hlt := Nat.lt_of_not_le hlt
    rw [hrest _ hlt, Bool.or_eq_true, beq_iff_eq, beq_iff_eq] at hstop
    rcases hstop with hstop | hstop
    · exact not_mem_rest d (hstop ▸ List.getElem_mem hlt)
    · exact hzero ((rest_suffix d).subset (hstop ▸ List.getElem_mem hlt))
  split at h
  next hend =>
    rw [if_pos (match_nil w)] at h
    obtain ⟨-, hq, extra, rfl, -⟩ := lines_all h
    refine ⟨by omega, w ++ [newline] ++ extra, by simp only [List.append_assoc], ?_⟩
    exact List.mem_append_left _ (List.mem_append_right _ List.mem_cons_self)
  next hend =>
    refine absurd ⟨w.length - (rest d).length, by omega, ?_, fun j hj => ?_⟩ hunclear
    · rw [Bool.or_eq_true, beq_iff_eq, beq_iff_eq] at hstop
      rw [show d.length + (w.length - (rest d).length) = d.length - (rest d).length + w.length by omega]
      exact hstop.resolve_left hend
    · have hj' : (rest d).length + j < w.length := by omega
      rw [show d.length + j = d.length - (rest d).length + ((rest d).length + j) by omega, hw _ hj']
      have hne := hall _ (List.getElem_mem hj')
      rw [Bool.or_eq_false_iff, beq_eq_false_iff_ne] at hne
      exact hne.1

/-! ## A round -/

/-- A round with the empty pattern: it meets the condition, or it writes a line too much and leaves `m` negative. -/
theorem State.Pending.round_all (h : s.Pending pending) (hd : d = pending ++ chunk) (hne : chunk ≠ []) (hzero : 0 ∉ chunk)
    (hround : s.round [] chunk = some t) :
    Clear (Buffer.store s.buf 0 d) d.length ∧ t = Grep.after (Buffer.store s.buf 0 d) d (s.out ++ report [] d) ∨
      ¬Clear (Buffer.store s.buf 0 d) d.length ∧ t.m < 0 ∧ ∃ extra, t.out = s.out ++ report [] d ++ extra ∧ newline ∈ extra := by
  by_cases hclear : Clear (Buffer.store s.buf 0 d) d.length
  · obtain ⟨buf', hround', hlines, -⟩ := h.round_clear hd hzero hclear []
    obtain ⟨rfl, -⟩ := lines_all hlines
    rw [hround] at hround'
    exact Or.inl ⟨hclear, Option.some.inj hround'⟩
  · refine Or.inr ⟨hclear, ?_⟩
    have hm : s.m + chunk.length = d.length := by rw [h.m, hd, List.length_append, Int.natCast_add]
    have hstring : 0 ∉ d := by
      rw [hd, List.mem_append, not_or]
      exact ⟨h.string, hzero⟩
    have hpos : 0 < d.length := by
      rw [hd, List.length_append]
      exact Nat.add_pos_right _ (List.length_pos_of_ne_nil hne)
    unfold State.round at hround
    rw [h.store, ← hd, hm] at hround
    split at hround
    next => cases hround
    next hroom =>
      obtain ⟨⟨buf', q, out'⟩, hlines, rfl⟩ := Option.map_eq_some_iff.1 hround
      obtain ⟨hq, extra, hout, hextra⟩ := lines_unclear Buffer.at_store hstring (by omega) hclear hlines
      have hkeep : keep d.length buf' q out' =
          ⟨Buffer.store buf' 0 (Buffer.load buf' q ((d.length : Int) - q).toNat), d.length - q, out'⟩ := by
        unfold keep
        rw [if_neg (by omega), if_pos (by omega)]
      simp only [hkeep]
      exact ⟨by omega, extra, hout, hextra⟩

/-- With `m` negative the next `read` writes in front of `buf`. -/
theorem grep_negative (hm : s.m < 0) (h : grep [] s chunks = some u) : chunks = [] ∧ u = s := by
  cases chunks with
  | nil =>
    cases h
    exact ⟨rfl, rfl⟩
  | cons chunk chunks =>
    obtain ⟨t, hround, -⟩ := Option.bind_eq_some_iff.1 h
    unfold State.round at hround
    rw [if_pos (Or.inl hm)] at hround
    cases hround

theorem mem_pending (h : s.Pending pending) : newline ∈ pending ++ chunk ↔ newline ∈ chunk := by
  rw [List.mem_append]
  exact or_iff_right h.line

theorem after_buf : (after buf d out).buf = if newline ∈ d then Buffer.store buf 0 (rest d) else buf := by
  unfold after
  split <;> rfl

/-! ## The runs -/

/-- However a run goes on, it writes more newlines than it reads, or no more than it should. -/
theorem grep_bound (h : s.Pending pending) (hne : ∀ chunk ∈ chunks, chunk ≠ []) (hzero : 0 ∉ chunks.flatten)
    (hrun : grep [] s chunks = some u) : ∃ extra, u.out = s.out ++ extra ∧
      (chunks.flatten.count newline < extra.count newline ∨ extra.count newline = chunks.flatten.count newline ∧
        extra.length ≤ (report [] (pending ++ chunks.flatten)).length) := by
  induction chunks generalizing s pending with
  | nil =>
    cases hrun
    exact ⟨[], (List.append_nil _).symm, Or.inr ⟨rfl, Nat.zero_le _⟩⟩
  | cons chunk chunks ih =>
    obtain ⟨t, hround, hrun⟩ := Option.bind_eq_some_iff.1 hrun
    rw [List.flatten_cons, List.mem_append, not_or] at hzero
    have hnone := List.count_eq_zero_of_not_mem h.line
    rcases h.round_all rfl (hne _ List.mem_cons_self) hzero.1 hround with ⟨-, rfl⟩ | ⟨-, hm, extra, hout, hextra⟩
    · have hafter := h.after rfl hzero.1 (Buffer.store s.buf 0 (pending ++ chunk)) (s.out ++ report [] (pending ++ chunk))
      obtain ⟨extra, hout, hextra⟩ := ih hafter (fun c hc => hne c (List.mem_cons_of_mem _ hc)) hzero.2 hrun
      rw [after_out] at hout
      refine ⟨report [] (pending ++ chunk) ++ extra, by rw [hout, List.append_assoc], ?_⟩
      rw [List.count_append, count_report, List.count_append, hnone, Nat.zero_add, List.flatten_cons, List.count_append]
      rcases hextra with hmore | ⟨hcount, hlength⟩
      · exact Or.inl (by omega)
      · refine Or.inr ⟨by omega, ?_⟩
        rw [← List.append_assoc pending, List.length_append]
        split at hlength
        next hchunk =>
          rw [report_append [] (pending ++ chunk), List.length_append]
          omega
        next hchunk =>
          have hline : newline ∉ pending ++ chunk := fun hc => hchunk ((mem_pending h).1 hc)
          have hle := (report_length hline chunks.flatten).1
          rw [report_of_not_mem hline, List.length_nil, Nat.zero_add]
          exact Nat.le_trans hlength hle
    · obtain ⟨rfl, rfl⟩ := grep_negative hm hrun
      refine ⟨report [] (pending ++ chunk) ++ extra, by rw [hout, List.append_assoc], Or.inl ?_⟩
      have hpos := List.count_pos_iff.2 hextra
      rw [List.count_append, count_report, List.count_append, hnone, List.flatten_cons, List.flatten_nil, List.append_nil]
      omega

/-- A run that writes what it should meets the condition. -/
theorem good_of_grep (h : s.Pending pending) (hne : ∀ chunk ∈ chunks, chunk ≠ []) (hzero : 0 ∉ chunks.flatten)
    (hrun : grep [] s chunks = some u) (hout : u.out = s.out ++ report [] (pending ++ chunks.flatten)) :
    Good s.buf pending chunks := by
  induction chunks generalizing s pending with
  | nil => trivial
  | cons chunk chunks ih =>
    obtain ⟨t, hround, hrun⟩ := Option.bind_eq_some_iff.1 hrun
    have hrest := fun c hc => hne c (List.mem_cons_of_mem _ hc)
    rw [List.flatten_cons, List.mem_append, not_or] at hzero
    rw [List.flatten_cons, ← List.append_assoc] at hout
    rcases h.round_all rfl (hne _ List.mem_cons_self) hzero.1 hround with ⟨hclear, rfl⟩ | ⟨-, hm, extra, hmore, hextra⟩
    · refine ⟨hclear, ?_⟩
      have hafter := h.after rfl hzero.1 (Buffer.store s.buf 0 (pending ++ chunk)) (s.out ++ report [] (pending ++ chunk))
      split
      next hchunk =>
        rw [if_pos hchunk] at hafter
        have hgood := ih hafter hrest hzero.2 hrun (by
          rw [hout, after_out, report_append [] (pending ++ chunk), List.append_assoc])
        rwa [after_buf, if_pos ((mem_pending h).2 hchunk)] at hgood
      next hchunk =>
        rw [if_neg hchunk] at hafter
        have hline : newline ∉ pending ++ chunk := fun hc => hchunk ((mem_pending h).1 hc)
        -- what was dropped is missing in a line, if one ends later
        have hnone : newline ∉ chunks.flatten := by
          intro hnl
          obtain ⟨extra, hextra, hbound⟩ := grep_bound hafter hrest hzero.2 hrun
          rw [hout, after_out, report_of_not_mem hline, List.append_nil] at hextra
          have heq := List.append_cancel_left hextra
          have hcount := count_report (pending ++ chunk ++ chunks.flatten)
          rw [heq, List.count_append, List.count_eq_zero_of_not_mem hline] at hcount
          have hlength := (report_length hline chunks.flatten).2 hnl
          rw [heq, List.length_append] at hlength
          have hpos := List.length_pos_of_ne_nil (hne chunk List.mem_cons_self)
          rw [List.nil_append] at hbound
          rcases hbound with hbound | ⟨-, hbound⟩ <;> omega
        refine ⟨hnone, ?_⟩
        have hgood := ih hafter hrest hzero.2 hrun (by
          have hall : newline ∉ pending ++ chunk ++ chunks.flatten := by
            rw [List.mem_append, not_or]
            exact ⟨hline, hnone⟩
          rw [hout, after_out, report_of_not_mem hline, List.append_nil, List.nil_append, report_of_not_mem hnone,
            report_of_not_mem hall])
        rwa [after_buf, if_neg hline] at hgood
    · obtain ⟨rfl, rfl⟩ := grep_negative hm hrun
      rw [hmore, List.flatten_nil, List.append_nil] at hout
      have hnil : extra = [] := List.append_right_eq_self.1 hout
      rw [hnil] at hextra
      exact absurd hextra List.not_mem_nil

/-- The program with `buf` as earlier files left it. -/
def start (buf : Nat → UInt8) : State := ⟨buf, 0, []⟩

/-- **grep** writes the lines that match, for every pattern, if and only if every read meets the condition. -/
theorem grep_right (buf : Nat → UInt8) (chunks : List (List UInt8)) (hne : ∀ chunk ∈ chunks, chunk ≠ [])
    (hzero : 0 ∉ chunks.flatten) :
    (∀ pattern, (grep pattern (start buf) chunks).map State.out = some (report pattern chunks.flatten)) ↔
      Good buf [] chunks := by
  have hstart : (start buf).Pending [] := ⟨rfl, Buffer.at_nil, List.not_mem_nil, List.not_mem_nil⟩
  constructor
  · intro h
    obtain ⟨u, hrun, hout⟩ := Option.map_eq_some_iff.1 (h [])
    exact good_of_grep hstart hne hzero hrun hout
  · intro hgood pattern
    obtain ⟨t, hrun, hout⟩ := grep_good pattern hstart (fun _ => Or.inl rfl) hgood hzero
    rw [hrun, Option.map_some, hout]
    rfl

/-- Three lines in three reads, two of them over the end of a read; the second does not match. -/
theorem grep_right_chunks : (grep [98] (start fun _ => 0) [[97, 98, 10, 99], [100, 10, 98], [98, 10]]).map State.out =
    some [97, 98, 10, 98, 98, 10] := by
  have hgood : Good (fun _ => 0) [] [[97, 98, 10, 99], [100, 10, 98], [98, 10]] := by
    refine ⟨⟨0, by decide, rfl, nofun⟩, ?_⟩
    rw [if_pos (by decide)]
    refine ⟨⟨0, by decide, rfl, nofun⟩, ?_⟩
    rw [if_pos (by decide)]
    refine ⟨⟨1, by decide, rfl, by decide⟩, ?_⟩
    rw [if_pos (by decide)]
    trivial
  have hmatch : ∀ line, match_ [98] line = matchFrom [98] line := fun _ => rfl
  have hcons : ∀ t text, matchhere [98] (t :: text) = fits 98 t := fun t text => by
    rw [matchhere.eq_def]
    show (fits 98 t && matchhere [] text) = _
    rw [matchhere.eq_def]
    exact Bool.and_true _
  have hnil : matchhere [98] [] = false := by
    rw [matchhere.eq_def]
    rfl
  have hreport : report [98] [97, 98, 10, 99, 100, 10, 98, 98, 10] = [97, 98, 10, 98, 98, 10] := by
    unfold report
    simp [splitLines, newline, hmatch, matchFrom, hcons, hnil, fits, dot]
  rw [(grep_right (fun _ => 0) [[97, 98, 10, 99], [100, 10, 98], [98, 10]] (by decide) (by decide)).2 hgood [98]]
  exact congrArg some hreport

/-- A line is found again behind the next read. -/
theorem grep_again : ¬∀ (pattern : List UInt8) (chunks : List (List UInt8)), (∀ chunk ∈ chunks, chunk ≠ []) →
    0 ∉ chunks.flatten → (∀ line ∈ (splitLines chunks.flatten).1, line.length + 1 < SIZE) → (rest chunks.flatten).length < SIZE →
    (grep pattern (start fun _ => 0) chunks).map State.out = some (report pattern chunks.flatten) := by
  intro h
  have hstart : (start fun _ => 0).Pending [] := ⟨rfl, Buffer.at_nil, List.not_mem_nil, List.not_mem_nil⟩
  obtain ⟨u, hrun, hout⟩ := Option.map_eq_some_iff.1 (h [] [[97, 98, 10], [97]] (by decide) (by decide) (by decide) (by decide))
  obtain ⟨-, hgood⟩ := good_of_grep hstart (by decide) (by decide) hrun hout
  rw [if_pos (by decide)] at hgood
  obtain ⟨⟨k, -, hk, hbefore⟩, -⟩ := hgood
  rcases k with _ | _ | k
  · exact absurd hk (by decide)
  · exact absurd hk (by decide)
  · exact hbefore 1 (by omega) rfl

end NewXv6.Grep
