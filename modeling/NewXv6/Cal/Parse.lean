import NewXv6.Cal.Reduce

/-!
# The text of an expression (`split`, `toRPN`)

The operators that wait on the stack are those of the expression's own level and above, with what is below them untouched:
the next operator of the same level takes them all, which is left associativity.
-/

namespace NewXv6.Cal

/-! ## The grammar -/

/-- No literal has more than nine digits, and no operator gives 0. -/
def Expr.Sound : Expr → Prop
  | .lit digits => digits.length < MAXNUM
  | .bin op e f => e.Sound ∧ f.Sound ∧ op.apply e.value f.value ≠ 0

/-- The tokens of an expression, by level: sums are at 0, products at 1, literals and parentheses at 2. An operator takes
its own level on the left and the next one on the right. -/
inductive Parses : Nat → List Str → Expr → Prop
  | lit {digits : Str} (hne : digits ≠ []) (hdigits : ∀ c ∈ digits, isDigit c = true) : Parses 2 [digits] (.lit digits)
  | paren {ts : List Str} {e : Expr} (h : Parses 0 ts e) : Parses 2 (['('] :: (ts ++ [[')']])) e
  | up {ℓ : Nat} {ts : List Str} {e : Expr} (h : Parses (ℓ + 1) ts e) : Parses ℓ ts e
  | bin (op : Op) {ts us : List Str} {e f : Expr} (he : Parses op.level ts e) (hf : Parses (op.level + 1) us f) :
    Parses op.level (ts ++ op.str :: us) (.bin op e f)

/-- The tokens after a leading `-`, which is the sign of the first product. -/
inductive Negated : List Str → Expr → Prop
  | neg {ts : List Str} {e : Expr} (h : Parses 1 ts e) : Negated ts (.bin .sub (.lit ['0']) e)
  | bin (op : Op) (hop : op.level = 0) {ts us : List Str} {e f : Expr} (he : Negated ts e) (hf : Parses 1 us f) :
    Negated (ts ++ op.str :: us) (.bin op e f)

/-- A well-formed text of at most 98 tokens, and its expression. -/
inductive Text : Str → Expr → Prop
  | plain {ts : List Str} {e : Expr} (h : Parses 0 ts e) (hlen : ts.length ≤ 98) : Text ts.flatten e
  | minus {ts : List Str} {e : Expr} (h : Negated ts e) (hlen : ts.length + 1 ≤ 98) : Text ('-' :: ts.flatten) e

section Grammar

variable {ℓ : Nat} {ts us : List Str} {e f : Expr}

theorem Expr.sound_iff (e : Expr) : e.Sound ↔ e.Clean ∧ e.Short := by
  induction e with
  | lit digits => exact ⟨fun h => ⟨trivial, h⟩, fun h => h.2⟩
  | bin op e f ihe ihf =>
    show e.Sound ∧ f.Sound ∧ op.apply e.value f.value ≠ 0 ↔ _
    rw [ihe, ihf]
    exact ⟨fun h => ⟨h, trivial⟩, fun h => h.1⟩

theorem Parses.digit {c : Char} (h : isDigit c = true) : Parses 2 [[c]] (.lit [c]) :=
  Parses.lit (List.cons_ne_nil _ _) fun d hd => by
    rw [List.mem_singleton.1 hd]
    exact h

theorem Parses.literal (h : Parses ℓ ts e) : e.Literal := by
  induction h with
  | lit hne hdigits => exact ⟨hne, hdigits⟩
  | paren _ ih => exact ih
  | up _ ih => exact ih
  | bin op _ _ ihe ihf => exact ⟨ihe, ihf⟩

theorem Parses.rpn_length (h : Parses ℓ ts e) : e.rpn.length ≤ ts.length := by
  induction h with
  | lit _ _ => exact Nat.le_refl 1
  | paren _ ih =>
    rw [List.length_cons, List.length_append]
    omega
  | up _ ih => exact ih
  | bin op _ _ ihe ihf =>
    simp only [Expr.rpn, List.length_append, List.length_cons, List.length_nil]
    omega

/-- The first token is a number or a parenthesis. -/
theorem Parses.head (h : Parses ℓ ts e) : ts ≠ [] ∧ (ts.head?.bind List.head?) ≠ some '-' := by
  induction h with
  | @lit digits hne hdigits =>
    refine ⟨List.cons_ne_nil _ _, ?_⟩
    cases digits with
    | nil => exact absurd rfl hne
    | cons c s =>
      intro hc
      have hc : c = '-' := Option.some.inj hc
      have := hdigits c List.mem_cons_self
      rw [hc] at this
      exact absurd this (by decide)
  | paren _ _ =>
    refine ⟨List.cons_ne_nil _ _, fun h => ?_⟩
    have h : '(' = '-' := Option.some.inj h
    exact absurd h (by decide)
  | up _ ih => exact ih
  | @bin op ts us e f _ _ ihe _ =>
    cases ts with
    | nil => exact absurd rfl ihe.1
    | cons t ts => exact ⟨List.cons_ne_nil _ _, ihe.2⟩

/-- The sign is a difference with 0. -/
theorem Negated.parses (h : Negated ts e) : Parses 0 (['0'] :: ['-'] :: ts) e := by
  induction h with
  | neg h => exact Parses.bin .sub (Parses.digit (by decide)).up.up h
  | @bin op hop ts us e f _ hf ih =>
    have he : Parses op.level (['0'] :: ['-'] :: ts) e := by rw [hop]; exact ih
    have hf : Parses (op.level + 1) us f := by rw [hop]; exact hf
    have h := Parses.bin op he hf
    rw [hop] at h
    exact h

end Grammar

/-! ## Tokens -/

section Tokens

variable {ℓ : Nat} {ts us : List Str} {e f : Expr} {p q : Prop}

/-- The array with the digits of the last number. -/
def flush (ret : List Str) (cur : Str) : List Str := if cur = [] then ret else ret ++ [cur]

/-- No literal has more than ten digits. -/
def Expr.Fits : Expr → Prop
  | .lit digits => digits.length ≤ MAXNUM
  | .bin _ e f => e.Fits ∧ f.Fits

theorem Expr.Sound.fits {e : Expr} (h : e.Sound) : e.Fits := by
  induction e with
  | lit digits => exact Nat.le_of_lt h
  | bin op e f ihe ihf => exact ⟨ihe h.1, ihf h.2.1⟩

theorem splitLoop_char {c : Char} (hc : isDigit c = false) (more : Str) (ret : List Str) (cur : Str)
    (hlen : (flush ret cur).length < MAXCOUNT) : splitLoop (c :: more) ret cur = splitLoop more (flush ret cur ++ [[c]]) [] := by
  rw [splitLoop, hc]
  show (if (flush ret cur).length < MAXCOUNT then _ else none) = _
  rw [if_pos hlen]
  rfl

/-- The digits of a number go into one string, while they fit. -/
theorem splitLoop_digits (more : Str) (ret : List Str) (hret : ret.length < MAXCOUNT) (digits cur : Str)
    (hdigits : ∀ c ∈ digits, isDigit c = true) (hcur : cur.length ≤ MAXNUM) :
    splitLoop (digits ++ more) ret cur =
      if (cur ++ digits).length ≤ MAXNUM then splitLoop more ret (cur ++ digits) else none := by
  induction digits generalizing cur with
  | nil => rw [List.append_nil, if_pos hcur, List.nil_append]
  | cons c digits ih =>
    rw [List.cons_append, splitLoop, hdigits c List.mem_cons_self, if_pos rfl]
    by_cases hlt : cur.length < MAXNUM
    · rw [if_pos ⟨hlt, hret⟩, ih (cur ++ [c]) (fun d hd => hdigits d (List.mem_cons_of_mem _ hd)) (by simp; omega),
        List.append_assoc]
      rfl
    · rw [if_neg fun h => hlt h.1, if_neg]
      rw [List.length_append, List.length_cons]
      omega

/-- The text of tokens is split into them if `p`, and leaves its string if not. -/
def Splits (ts : List Str) (p : Prop) : Prop :=
  ∀ ret more, ret.length + ts.length ≤ MAXCOUNT →
    (p → ∃ ret' cur, splitLoop (ts.flatten ++ more) ret [] = splitLoop more ret' cur ∧ flush ret' cur = ret ++ ts) ∧
    (¬p → splitLoop (ts.flatten ++ more) ret [] = none)

theorem Splits.nil : Splits [] True :=
  fun ret _ _ => ⟨fun _ => ⟨ret, [], rfl, by rw [flush, if_pos rfl, List.append_nil]⟩, fun h => absurd trivial h⟩

theorem Splits.lit {digits : Str} (hne : digits ≠ []) (hdigits : ∀ c ∈ digits, isDigit c = true) :
    Splits [digits] (digits.length ≤ MAXNUM) := by
  intro ret more hlen
  have hrun := splitLoop_digits more ret (by rw [List.length_singleton] at hlen; omega) digits [] hdigits (Nat.zero_le _)
  rw [List.nil_append] at hrun
  rw [List.flatten_singleton]
  refine ⟨fun hfit => ⟨ret, digits, ?_, if_neg hne⟩, fun hfit => ?_⟩
  · rw [hrun, if_pos hfit]
  · rw [hrun, if_neg hfit]

/-- Around a character that is no digit. -/
theorem Splits.sep {c : Char} (hc : isDigit c = false) (h : Splits ts p) (h' : Splits us q) :
    Splits (ts ++ [c] :: us) (p ∧ q) := by
  intro ret more hlen
  rw [List.length_append, List.length_cons] at hlen
  have htext : (ts ++ [c] :: us).flatten ++ more = ts.flatten ++ (c :: (us.flatten ++ more)) := by simp
  obtain ⟨hgood, hbad⟩ := h ret (c :: (us.flatten ++ more)) (by omega)
  rw [htext]
  by_cases hp : p
  · obtain ⟨ret', cur, hrun, hflush⟩ := hgood hp
    have htokens : ret ++ (ts ++ [c] :: us) = ret ++ ts ++ [[c]] ++ us := by simp
    rw [hrun, splitLoop_char hc _ ret' cur (by rw [hflush, List.length_append]; omega), hflush, htokens]
    obtain ⟨hgood', hbad'⟩ := h' (ret ++ ts ++ [[c]]) more (by simp only [List.length_append, List.length_singleton]; omega)
    exact ⟨fun hpq => hgood' hpq.2, fun hpq => hbad' fun hq => hpq ⟨hp, hq⟩⟩
  · exact ⟨fun hpq => absurd hpq.1 hp, fun _ => hbad hp⟩

theorem isDigit_op (op : Op) : isDigit op.char = false := by
  cases op <;> decide

theorem Parses.splits (h : Parses ℓ ts e) : Splits ts e.Fits := by
  induction h with
  | lit hne hdigits => exact Splits.lit hne hdigits
  | paren _ ih =>
    have hopen := Splits.sep (c := '(') (by decide) Splits.nil (Splits.sep (c := ')') (by decide) ih Splits.nil)
    rw [true_and, and_true, List.nil_append] at hopen
    exact hopen
  | up _ ih => exact ih
  | bin op _ _ ihe ihf => exact Splits.sep (isDigit_op op) ihe ihf

theorem Negated.splits (h : Negated ts e) : Splits ts e.Fits := by
  induction h with
  | @neg ts e h =>
    have hfits : (Expr.bin .sub (.lit ['0']) e).Fits ↔ e.Fits := and_iff_right (Nat.le_of_lt (by decide))
    rw [hfits]
    exact h.splits
  | bin op _ _ hf ih => exact Splits.sep (isDigit_op op) ih hf.splits

/-- The end of the text. -/
theorem Splits.run (h : Splits ts p) (hlen : ts.length ≤ MAXCOUNT) :
    (p → splitLoop ts.flatten [] [] = some ts) ∧ (¬p → splitLoop ts.flatten [] [] = none) := by
  obtain ⟨hgood, hbad⟩ := h [] [] (by simpa using hlen)
  rw [List.append_nil] at hgood hbad
  refine ⟨fun hp => ?_, hbad⟩
  obtain ⟨ret', cur, hrun, hflush⟩ := hgood hp
  rw [hrun]
  exact congrArg some hflush

end Tokens

/-! ## Postfix order -/

section Postfix

variable {ℓ : Nat} {ts us more S O P : List Str} {e f : Expr}

/-- The top of the stack waits for a token of level `ℓ`. -/
def Below (ℓ : Nat) (S : List Str) : Prop :=
  ∀ x ∈ S.head?, first x = '(' ∨ ∃ op : Op, x = op.str ∧ op.level < ℓ

/-- Operators of level `ℓ` and above. -/
def Above (ℓ : Nat) (P : List Str) : Prop := ∀ x ∈ P, ∃ op : Op, x = op.str ∧ ℓ ≤ op.level

theorem Below.up (h : Below ℓ S) : Below (ℓ + 1) S := fun x hx =>
  (h x hx).imp id fun ⟨op, heq, hlt⟩ => ⟨op, heq, Nat.lt_succ_of_lt hlt⟩

/-- The table of `precede`. -/
theorem incoming_le (op top : Op) : incoming op.char ≤ onStack (first top.str) ↔ op.level ≤ top.level := by
  cases op <;> cases top <;> decide

theorem popWhile_below (op : Op) (h : Below op.level S) (O : List Str) : popWhile op.char S O = ⟨S, O⟩ := by
  cases S with
  | nil => rfl
  | cons x S =>
    rw [popWhile, if_neg]
    rcases h x rfl with hparen | ⟨top, rfl, hlt⟩
    · rw [hparen]
      cases op <;> decide
    · rw [incoming_le]
      omega

theorem popWhile_above (op : Op) (hP : Above op.level P) (hS : Below op.level S) (O : List Str) :
    popWhile op.char (P ++ S) O = ⟨S, O ++ P⟩ := by
  induction P generalizing O with
  | nil => rw [List.nil_append, popWhile_below op hS, List.append_nil]
  | cons x P ih =>
    obtain ⟨top, rfl, hle⟩ := hP x List.mem_cons_self
    rw [List.cons_append, popWhile, if_pos ((incoming_le op top).2 hle), ih fun y hy => hP y (List.mem_cons_of_mem _ hy),
      List.append_assoc]
    rfl

theorem popToParen_above (hP : Above 0 P) (O : List Str) : popToParen (P ++ ['('] :: S) O = some ⟨S, O ++ P⟩ := by
  induction P generalizing O with
  | nil => rw [List.append_nil]; rfl
  | cons x P ih =>
    obtain ⟨top, rfl, -⟩ := hP x List.mem_cons_self
    have hne : first top.str ≠ '(' := by cases top <;> decide
    rw [List.cons_append, popToParen, if_neg hne, ih fun y hy => hP y (List.mem_cons_of_mem _ hy), List.append_assoc]
    rfl

theorem rpnLoop_cons {s : Rpn} {t : Str} (h : rpnStep s t = some ⟨S, O⟩) (hlen : S.length + O.length + 1 ≤ MAXCOUNT) :
    rpnLoop (t :: more) s = rpnLoop more ⟨S, O⟩ := by
  have hstack : S.length + 1 ≤ MAXCOUNT := by omega
  have hret : O.length ≤ MAXCOUNT := by omega
  rw [rpnLoop, h, Option.bind_some, if_pos ⟨hstack, hret⟩]

theorem rpnStep_op (op : Op) (s : Rpn) : rpnStep s op.str =
    some ⟨op.str :: (popWhile op.char s.stack s.ret).stack, (popWhile op.char s.stack s.ret).ret⟩ := by
  cases op <;> rfl

/-- **The operators of an expression** wait on the stack, and the rest of it is in `ret`. -/
theorem Parses.rpnLoop (h : Parses ℓ ts e) : ∀ S O, Below ℓ S → S.length + O.length + ts.length + 1 ≤ MAXCOUNT →
    ∃ P O', (∀ more, rpnLoop (ts ++ more) ⟨S, O⟩ = rpnLoop more ⟨P ++ S, O'⟩) ∧ O' ++ P = O ++ e.rpn ∧ Above ℓ P := by
  induction h with
  | @lit digits hne hdigits =>
    intro S O _ hlen
    refine ⟨[], O ++ [digits], fun more => ?_, List.append_nil _, fun x hx => absurd hx List.not_mem_nil⟩
    have hfirst : isDigit (first digits) = true := by
      cases digits with
      | nil => exact absurd rfl hne
      | cons c s => exact hdigits c List.mem_cons_self
    have hstep : rpnStep ⟨S, O⟩ digits = some ⟨S, O ++ [digits]⟩ := if_pos hfirst
    refine rpnLoop_cons hstep ?_
    show S.length + (O ++ [digits]).length + 1 ≤ MAXCOUNT
    rw [List.length_append]
    exact hlen
  | @paren ts e h ih =>
    intro S O _ hlen
    simp only [List.length_cons, List.length_append, List.length_nil] at hlen
    obtain ⟨P, O', hrun, hout, hP⟩ := ih (['('] :: S) O (fun x hx => by cases hx; exact Or.inl rfl)
      (by rw [List.length_cons]; omega)
    have hsize : O'.length + P.length = O.length + e.rpn.length := by
      rw [← List.length_append, hout, List.length_append]
    have hrpn := h.rpn_length
    refine ⟨[], O' ++ P, fun more => ?_, by rw [List.append_nil, hout], fun x hx => absurd hx List.not_mem_nil⟩
    have hclose : rpnStep ⟨P ++ ['('] :: S, O'⟩ [')'] = some ⟨S, O' ++ P⟩ := popToParen_above hP O'
    have hopen : rpnStep ⟨S, O⟩ ['('] = some ⟨['('] :: S, O⟩ := rfl
    rw [List.cons_append, List.append_assoc, rpnLoop_cons hopen (by rw [List.length_cons]; omega), hrun]
    refine rpnLoop_cons hclose ?_
    show S.length + (O' ++ P).length + 1 ≤ MAXCOUNT
    rw [List.length_append, hsize]
    omega
  | up _ ih =>
    intro S O hS hlen
    obtain ⟨P, O', hrun, hout, hP⟩ := ih S O hS.up hlen
    exact ⟨P, O', hrun, hout, fun x hx => (hP x hx).imp fun op hop => ⟨hop.1, Nat.le_of_succ_le hop.2⟩⟩
  | @bin op ts us e f he hf ihe ihf =>
    intro S O hS hlen
    simp only [List.length_append, List.length_cons] at hlen
    obtain ⟨P, O', hrun, hout, hP⟩ := ihe S O hS (by omega)
    have hsize : (O' ++ P).length = O.length + e.rpn.length := by rw [hout, List.length_append]
    have hrpn := he.rpn_length
    obtain ⟨P', O'', hrun', hout', hP'⟩ := ihf (op.str :: S) (O' ++ P)
      (fun x hx => by cases hx; exact Or.inr ⟨op, rfl, Nat.lt_succ_self _⟩) (by rw [List.length_cons]; omega)
    refine ⟨P' ++ [op.str], O'', fun more => ?_, ?_, fun x hx => ?_⟩
    · have hstep : rpnStep ⟨P ++ S, O'⟩ op.str = some ⟨op.str :: S, O' ++ P⟩ := by
        rw [rpnStep_op, popWhile_above op hP hS]
      rw [List.append_assoc, hrun, List.cons_append, rpnLoop_cons hstep (by rw [List.length_cons]; omega), hrun',
        List.append_assoc]
      rfl
    · rw [← List.append_assoc, hout', hout]
      simp only [Expr.rpn, List.append_assoc]
    · rcases List.mem_append.1 hx with hx | hx
      · exact (hP' x hx).imp fun op hop => ⟨hop.1, Nat.le_of_succ_le hop.2⟩
      · exact ⟨op, List.mem_singleton.1 hx, Nat.le_refl _⟩

/-- **Postfix order** of an expression. -/
theorem toRPN_parses (h : Parses 0 ts e) (hlen : ts.length < MAXCOUNT) : toRPN ts = some e.rpn := by
  obtain ⟨P, O, hrun, hout, -⟩ := h.rpnLoop [] [] (fun x hx => nomatch hx) (by simpa using Nat.succ_le_of_lt hlen)
  have hall := hrun []
  rw [List.append_nil, List.append_nil] at hall
  rw [List.nil_append] at hout
  have hrpn := h.rpn_length
  rw [toRPN, if_pos hlen, hall]
  show (if (O ++ P).length ≤ MAXCOUNT then some (O ++ P) else none) = _
  rw [hout, if_pos (by omega)]

end Postfix

/-! ## The calculator -/

section Calculator

variable {text : Str} {ts : List Str} {e : Expr}

theorem cal_of_split (hsplit : split text = some ts) (h : Parses 0 ts e) (hlen : ts.length < MAXCOUNT) (hs : e.Small) :
    cal text = some e.value ↔ e.Sound := by
  unfold cal
  rw [hsplit, Option.bind_some, toRPN_parses h hlen, Option.bind_some, caln_rpn h.literal hs, Expr.sound_iff]

theorem cal_of_none (hsplit : splitLoop text [] [] = none) (hfits : ¬e.Fits) : cal text = some e.value ↔ e.Sound := by
  unfold cal split
  rw [hsplit]
  exact iff_of_false nofun fun h => hfits h.fits

theorem split_plain (hrun : splitLoop text [] [] = some ts) (h : Parses 0 ts e) : split text = some ts := by
  unfold split
  rw [hrun, Option.bind_some, if_neg h.head.2]

/-- **The calculator computes** the value of a text if and only if no literal is too long and no operator gives 0. -/
theorem cal_value (h : Text text e) (hs : e.Small) : cal text = some e.value ↔ e.Sound := by
  have hcount : MAXCOUNT = 100 := rfl
  cases h with
  | @plain ts _ h hlen =>
    obtain ⟨hgood, hbad⟩ := h.splits.run (by omega)
    by_cases hfits : e.Fits
    · exact cal_of_split (split_plain (hgood hfits) h) h (by omega) hs
    · exact cal_of_none (hbad hfits) hfits
  | @minus ts _ h hlen =>
    -- the sign is a token of its own
    have hsplits := Splits.sep (c := '-') (by decide) Splits.nil h.splits
    rw [true_and, List.nil_append] at hsplits
    obtain ⟨hgood, hbad⟩ := hsplits.run (by rw [List.length_cons]; omega)
    by_cases hfits : e.Fits
    · have hloop : splitLoop ('-' :: ts.flatten) [] [] = some (['-'] :: ts) := hgood hfits
      have hminus : (['-'] :: ts).head?.bind List.head? = some '-' := rfl
      have hlt : (['-'] :: ts).length < MAXCOUNT := by rw [List.length_cons]; omega
      have hsplit : split ('-' :: ts.flatten) = some (['0'] :: ['-'] :: ts) := by
        rw [split, hloop, Option.bind_some, if_pos hminus, if_pos hlt]
      exact cal_of_split hsplit h.parses (by simp only [List.length_cons]; omega) hs
    · exact cal_of_none (hbad hfits) hfits

end Calculator

/-- `1+2*3` -/
theorem text_seven : Text ['1', '+', '2', '*', '3'] (.bin .add (.lit ['1']) (.bin .mul (.lit ['2']) (.lit ['3']))) := by
  have h1 : Parses 2 [['1']] (.lit ['1']) := Parses.digit (by decide)
  have h2 : Parses 2 [['2']] (.lit ['2']) := Parses.digit (by decide)
  have h3 : Parses 2 [['3']] (.lit ['3']) := Parses.digit (by decide)
  exact Text.plain (Parses.bin .add h1.up.up (Parses.bin .mul h2.up h3)) (by decide)

theorem cal_seven : cal ['1', '+', '2', '*', '3'] = some 7 := by
  have hsmall : (Expr.bin .add (.lit ['1']) (.bin .mul (.lit ['2']) (.lit ['3']))).Small := by
    simp [Expr.Small, Op.apply, Expr.value, digits_to_int, digitValue]
  have hsound : (Expr.bin .add (.lit ['1']) (.bin .mul (.lit ['2']) (.lit ['3']))).Sound := by
    simp [Expr.Sound, Op.apply, Expr.value, digits_to_int, digitValue]
  exact (cal_value text_seven hsmall).2 hsound

/-- `5-5` -/
theorem text_zero : Text ['5', '-', '5'] (.bin .sub (.lit ['5']) (.lit ['5'])) := by
  have h5 : Parses 2 [['5']] (.lit ['5']) := Parses.digit (by decide)
  exact Text.plain (Parses.bin .sub h5.up.up h5.up) (by decide)

/-- The difference 0 is an empty string, and no number is left. -/
theorem cal_zero : Text ['5', '-', '5'] (.bin .sub (.lit ['5']) (.lit ['5'])) ∧
    (Expr.bin .sub (.lit ['5']) (.lit ['5'])).Small ∧ (Expr.bin .sub (.lit ['5']) (.lit ['5'])).value = 0 ∧
    cal ['5', '-', '5'] = none := by
  have hlit : (Expr.lit ['5']).Literal := (Parses.digit (c := '5') (by decide)).literal
  have hshort : (Expr.lit ['5']).Short := show 1 < 10 by decide
  have hsmall : (Expr.bin .sub (.lit ['5']) (.lit ['5'])).Small := by
    simp [Expr.Small, Op.apply, Expr.value, digits_to_int, digitValue]
  refine ⟨text_zero, hsmall, rfl, ?_⟩
  have hv : cal3 ['5'] ['5'] ['-'] = some (int_to_chars 0) := cal3_spec ⟨hlit, hlit⟩ hsmall hshort hshort
  rw [int_to_chars, if_pos rfl] at hv
  show ((cal3 ['5'] ['5'] ['-']).bind fun v => caln 3 [v, [], []]).bind chars_to_int = none
  rw [hv]
  rfl

end NewXv6.Cal
