import NewXv6.Cal.Model

/-!
# The value of an expression (`cal3`, `caln`)

`caln` takes the first operator and the two numbers before it, so a postfix expression is reduced from its innermost left
operand on. The strings that are used up stay in the array as holes.
-/

namespace NewXv6.Cal

/-! ## Expressions -/

inductive Op
  | add
  | sub
  | mul
  | div
  deriving DecidableEq

def Op.char : Op → Char
  | .add => '+'
  | .sub => '-'
  | .mul => '*'
  | .div => '/'

def Op.str (op : Op) : Str := [op.char]

def Op.apply : Op → Int → Int → Int
  | .add, a, b => a + b
  | .sub, a, b => a - b
  | .mul, a, b => a * b
  | .div, a, b => a.tdiv b

/-- `*` and `/` bind tighter. -/
def Op.level : Op → Nat
  | .add => 0
  | .sub => 0
  | .mul => 1
  | .div => 1

inductive Expr
  | lit (digits : Str)
  | bin (op : Op) (e f : Expr)

def Expr.value : Expr → Int
  | .lit digits => digits_to_int digits
  | .bin op e f => op.apply e.value f.value

/-- Every literal and every intermediate value is below 10⁸, and no divisor is zero. -/
def Expr.Small : Expr → Prop
  | .lit digits => digits_to_int digits < 10 ^ 8
  | .bin op e f => e.Small ∧ f.Small ∧ (op.apply e.value f.value).natAbs < 10 ^ 8 ∧ (op = .div → f.value ≠ 0)

/-- A literal with its end in `MAXNUM` bytes. -/
def Expr.Short : Expr → Prop
  | .lit digits => digits.length < MAXNUM
  | .bin _ _ _ => True

/-- No operator gives 0, and its operands that are literals have at most nine digits. -/
def Expr.Clean : Expr → Prop
  | .lit _ => True
  | .bin op e f => (e.Clean ∧ e.Short) ∧ (f.Clean ∧ f.Short) ∧ op.apply e.value f.value ≠ 0

/-- A literal has digits. -/
def Expr.Literal : Expr → Prop
  | .lit digits => digits ≠ [] ∧ ∀ c ∈ digits, isDigit c = true
  | .bin _ e f => e.Literal ∧ f.Literal

def Expr.rpn : Expr → List Str
  | .lit digits => [digits]
  | .bin op e f => e.rpn ++ f.rpn ++ [op.str]

def Expr.ops : Expr → Nat
  | .lit _ => 0
  | .bin _ e f => e.ops + f.ops + 1

/-- The string that an expression is reduced to. -/
def Expr.str : Expr → Str
  | .lit digits => digits
  | .bin op e f =>
    let v := op.apply e.value f.value
    if 0 ≤ v then int_to_chars v.natAbs else '-' :: int_to_chars v.natAbs

/-! ## Numbers and their strings -/

section Numbers

theorem digitValue_digitChar {n : Nat} (hn : n < 10) : digitValue (digitChar n) = n := by
  have h : ∀ n < 10, digitValue (digitChar n) = (n : Int) := by decide
  exact h n hn

theorem isDigit_digitChar {n : Nat} (hn : n < 10) : isDigit (digitChar n) = true := by
  have h : ∀ n < 10, isDigit (digitChar n) = true := by decide
  exact h n hn

theorem digits_to_int_append (s : Str) (c : Char) : digits_to_int (s ++ [c]) = digits_to_int s * 10 + digitValue c := by
  unfold digits_to_int
  rw [List.foldl_append]
  rfl

/-- A number is read back from its digits. -/
theorem int_to_chars_spec (n : Nat) : digits_to_int (int_to_chars n) = n ∧ (∀ c ∈ int_to_chars n, isDigit c = true) ∧
    (int_to_chars n = [] ↔ n = 0) := by
  induction n using Nat.strong_induction_on with
  | _ n ih =>
    rw [int_to_chars]
    by_cases h0 : n = 0
    · rw [if_pos h0]
      exact ⟨by rw [h0]; rfl, fun c hc => absurd hc List.not_mem_nil, iff_of_true rfl h0⟩
    · obtain ⟨hv, hd, -⟩ := ih (n / 10) (by omega)
      have hlt : n % 10 < 10 := Nat.mod_lt _ (by decide)
      rw [if_neg h0]
      refine ⟨?_, fun c hc => ?_, iff_of_false (by simp) h0⟩
      · rw [digits_to_int_append, hv, digitValue_digitChar hlt]
        push_cast
        omega
      · rcases List.mem_append.1 hc with hc | hc
        · exact hd c hc
        · rw [List.mem_singleton.1 hc]
          exact isDigit_digitChar hlt

theorem int_to_chars_length {n k : Nat} (h : n < 10 ^ k) : (int_to_chars n).length ≤ k := by
  induction k generalizing n with
  | zero =>
    obtain rfl : n = 0 := by omega
    rw [int_to_chars]
    exact Nat.le_refl 0
  | succ k ih =>
    rw [int_to_chars]
    split
    · exact Nat.zero_le _
    · rw [List.length_append, List.length_singleton]
      have := ih (n := n / 10) (by rw [pow_succ] at h; omega)
      omega

theorem isDigit_ne {c d : Char} (hc : isDigit c = true) (hd : isDigit d = false) : c ≠ d := by
  rintro rfl
  rw [hc] at hd
  cases hd

/-- The digits of a literal give its value. -/
theorem chars_to_int_digits {s : Str} (hs : ∀ c ∈ s, isDigit c = true) (hlen : s.length < MAXNUM) :
    chars_to_int s = some (digits_to_int s) := by
  unfold chars_to_int
  rw [if_neg (by omega)]
  split
  · rename_i r
    exact absurd (hs '-' List.mem_cons_self) (by decide)
  · rfl

theorem chars_to_int_long {s : Str} (hlen : ¬s.length < MAXNUM) : chars_to_int s = none := by
  unfold chars_to_int
  rw [if_pos (by omega)]

/-- A string of a number: digits, or a sign and digits. -/
theorem isNumber_digits {s : Str} (hs : ∀ c ∈ s, isDigit c = true) (hne : s ≠ []) : isNumber s = true ∧ isOperator s = false := by
  cases s with
  | nil => exact absurd rfl hne
  | cons c s =>
    have hc := hs c List.mem_cons_self
    have hminus : c ≠ '-' := isDigit_ne hc (by decide)
    have hplus : c ≠ '+' := isDigit_ne hc (by decide)
    have hmul : c ≠ '*' := isDigit_ne hc (by decide)
    have hdiv : c ≠ '/' := isDigit_ne hc (by decide)
    constructor
    · unfold isNumber
      split
      · contradiction
      · rename_i heq
        injection heq with h1 h2
        exact absurd h1 hminus
      · rename_i heq
        injection heq with h1 h2
        simp [← h1, hc]
    · simp [isOperator, hplus, hminus, hmul, hdiv]

theorem isNumber_minus {s : Str} (hs : s ≠ []) : isNumber ('-' :: s) = true ∧ isOperator ('-' :: s) = false := by
  cases s with
  | nil => exact absurd rfl hs
  | cons c s => exact ⟨by simp [isNumber], by simp [isOperator]⟩

theorem isOperator_str (op : Op) : isOperator op.str = true ∧ isNumber op.str = false := by
  cases op <;> decide

end Numbers

/-- A token that is a number. -/
def Num (t : Str) : Prop := isNumber t = true ∧ isOperator t = false

theorem Num.ne_nil {t : Str} (h : Num t) : t ≠ [] := by
  rintro rfl
  exact absurd h.1 (by decide)

/-- An expression with a value is reduced to a number. -/
theorem Expr.str_num {e : Expr} (hl : e.Literal) (hc : e.Clean) : Num e.str := by
  cases e with
  | lit digits => exact isNumber_digits hl.2 hl.1
  | bin op e f =>
    have hv : (op.apply e.value f.value).natAbs ≠ 0 := fun h => hc.2.2 (Int.natAbs_eq_zero.1 h)
    obtain ⟨-, hdigits, hnil⟩ := int_to_chars_spec (op.apply e.value f.value).natAbs
    have hne : int_to_chars (op.apply e.value f.value).natAbs ≠ [] := fun h => hv (hnil.1 h)
    unfold Expr.str
    dsimp only
    split
    · exact isNumber_digits hdigits hne
    · exact isNumber_minus hne

/-- The string has the value. -/
theorem Expr.str_value {e : Expr} (hl : e.Literal) (hs : e.Small) (hshort : e.Short) : chars_to_int e.str = some e.value := by
  cases e with
  | lit digits => exact chars_to_int_digits hl.2 hshort
  | bin op e f =>
    obtain ⟨hvalue, hdigits, -⟩ := int_to_chars_spec (op.apply e.value f.value).natAbs
    have hlen := int_to_chars_length (k := 8) hs.2.2.1
    have hmax : MAXNUM = 10 := rfl
    show chars_to_int (if 0 ≤ op.apply e.value f.value then int_to_chars (op.apply e.value f.value).natAbs
      else '-' :: int_to_chars (op.apply e.value f.value).natAbs) = some (op.apply e.value f.value)
    generalize op.apply e.value f.value = v at hvalue hdigits hlen
    split
    · rename_i h0
      rw [chars_to_int_digits hdigits (by omega), hvalue, Int.natAbs_of_nonneg h0]
    · rename_i h0
      unfold chars_to_int
      rw [if_neg (by rw [List.length_cons]; omega)]
      show some (-digits_to_int (int_to_chars _)) = _
      rw [hvalue]
      congr 1
      omega

theorem Expr.str_long {e : Expr} (hshort : ¬e.Short) : chars_to_int e.str = none := by
  cases e with
  | lit digits => exact chars_to_int_long hshort
  | bin op e f => exact absurd trivial hshort

/-- `cal3` gives the string of the operator's value. -/
theorem cal3_spec {op : Op} {e f : Expr} (hl : (Expr.bin op e f).Literal) (hs : (Expr.bin op e f).Small) (he : e.Short)
    (hf : f.Short) : cal3 e.str f.str op.str = some (Expr.bin op e f).str := by
  have hlen := int_to_chars_length (k := 8) hs.2.2.1
  have hmax : MAXNUM = 10 := rfl
  have hres : cal3 e.str f.str op.str =
      if MAXNUM ≤ (int_to_chars (op.apply e.value f.value).natAbs).length then none else some (Expr.bin op e f).str := by
    unfold cal3
    rw [Expr.str_value hl.1 hs.1 he, Expr.str_value hl.2 hs.2.1 hf]
    cases op <;> rfl
  rw [hres, if_neg (by omega)]

theorem cal3_long {op : Op} {e f : Expr} (h : ¬(e.Short ∧ f.Short)) : cal3 e.str f.str op.str = none := by
  unfold cal3
  by_cases he : e.Short
  · rw [Expr.str_long fun hf => h ⟨he, hf⟩]
    cases chars_to_int e.str <;> rfl
  · rw [Expr.str_long he]

/-! ## Reduction -/

/-- The strings that are not empty. -/
def live (src : List Str) : List Str := src.filter (· ≠ [])

section Reduction

variable {src A B C R nums rest : List Str} {x y t : Str} {i n : Nat} {a1 a2 : Option Nat}

theorem live_append (A B : List Str) : live (A ++ B) = live A ++ live B := List.filter_append ..

theorem live_cons (h : t ≠ []) (A : List Str) : live (t :: A) = t :: live A := by
  unfold live
  rw [List.filter_cons_of_pos (by simpa using h)]

theorem live_hole (A : List Str) : live ([] :: A) = live A := rfl

theorem live_of_holes (h : ∀ t ∈ A, t = []) : live A = [] := by
  unfold live
  rw [List.filter_eq_nil_iff]
  intro t ht
  simp [h t ht]

/-- The first live string, with the holes before it. -/
theorem live_eq_cons (h : live src = x :: rest) :
    ∃ B R, src = B ++ x :: R ∧ (∀ t ∈ B, t = []) ∧ live R = rest := by
  obtain ⟨B, R, hsrc, hB, -, hR⟩ := List.filter_eq_cons_iff.1 h
  exact ⟨B, R, hsrc, fun t ht => by simpa using hB t ht, hR⟩

theorem mem_live (h : t ∈ A) : t = [] ∨ t ∈ live A := by
  by_cases ht : t = []
  · exact Or.inl ht
  · exact Or.inr (List.mem_filter.2 ⟨h, by simpa using ht⟩)

theorem scan_holes (h : ∀ t ∈ B, t = []) (i : Nat) (a1 a2 : Option Nat) :
    scan (B ++ R) i a1 a2 = scan R (i + B.length) a1 a2 := by
  induction B generalizing i with
  | nil => rfl
  | cons t B ih =>
    rw [h t List.mem_cons_self, List.cons_append]
    show scan (B ++ R) (i + 1) a1 a2 = _
    rw [ih (fun u hu => h u (List.mem_cons_of_mem _ hu)), List.length_cons, Nat.add_assoc, Nat.add_comm 1]

theorem scan_num (h : Num t) : scan (t :: R) i a1 a2 = scan R (i + 1) a2 (some i) := by
  rw [scan, h.1, h.2]
  rfl

theorem scan_op (op : Op) : scan (op.str :: R) i a1 a2 = (a1, a2, some i) := by
  obtain ⟨hop, hnum⟩ := isOperator_str op
  rw [scan, hop, hnum]
  rfl

/-- Numbers and holes leave the two last numbers. -/
theorem scan_nums (h : ∀ t ∈ A, t = [] ∨ Num t) (i : Nat) (a1 a2 : Option Nat) :
    ∃ b1 b2, scan (A ++ R) i a1 a2 = scan R (i + A.length) b1 b2 := by
  induction A generalizing i a1 a2 with
  | nil => exact ⟨a1, a2, rfl⟩
  | cons t A ih =>
    have hrest := fun u hu => h u (List.mem_cons_of_mem _ hu)
    rw [List.cons_append, List.length_cons, Nat.add_comm A.length, ← Nat.add_assoc]
    rcases h t List.mem_cons_self with rfl | ht
    · exact ih hrest (i + 1) a1 a2
    · rw [scan_num ht]
      exact ih hrest (i + 1) a2 (some i)

theorem getD_mid (A B : List Str) (x : Str) : (A ++ x :: B).getD A.length [] = x := by
  simp [List.getD_eq_getElem?_getD]

theorem set_mid (A B : List Str) (x v : Str) : (A ++ x :: B).set A.length v = A ++ v :: B := by
  simp

/-- The shape of the strings around the first operator and its operands. -/
theorem live_split {op : Op} (h : live src = nums ++ x :: y :: op.str :: rest) (hnums : ∀ t ∈ nums, Num t) :
    ∃ A B C R, src = A ++ x :: (B ++ y :: (C ++ op.str :: R)) ∧ (∀ t ∈ A, t = [] ∨ Num t) ∧ (∀ t ∈ B, t = []) ∧
      (∀ t ∈ C, t = []) ∧ live A = nums ∧ live R = rest := by
  obtain ⟨A, S, rfl, hA, hS⟩ := List.filter_eq_append_iff.1 h
  obtain ⟨A', S', rfl, hA', hS'⟩ := live_eq_cons hS
  obtain ⟨B, S'', rfl, hB, hS''⟩ := live_eq_cons hS'
  obtain ⟨C, R, rfl, hC, hR⟩ := live_eq_cons hS''
  have hlive : live (A ++ A') = nums := by
    rw [live_append, live_of_holes hA', List.append_nil]
    exact hA
  refine ⟨A ++ A', B, C, R, by simp, fun t ht => ?_, hB, hC, hlive, hR⟩
  rcases mem_live ht with h0 | hl
  · exact Or.inl h0
  · rw [hlive] at hl
    exact Or.inr (hnums t hl)

/-- **One reduction.** -/
theorem caln_step {op : Op} (h : live src = nums ++ x :: y :: op.str :: rest) (hnums : ∀ t ∈ nums, Num t) (hx : Num x)
    (hy : Num y) : ∃ left : Str → List Str,
      (∀ n, caln (n + 1) src = (cal3 x y op.str).bind fun v => caln n (left v)) ∧ ∀ v, live (left v) = nums ++ (live [v] ++ rest) := by
  obtain ⟨A, B, C, R, rfl, hA, hB, hC, hlive, hR⟩ := live_split h hnums
  refine ⟨fun v => A ++ v :: (B ++ [] :: (C ++ [] :: R)), fun n => ?_, fun v => ?_⟩
  · obtain ⟨b1, b2, hscan⟩ := scan_nums hA 0 none none (R := x :: (B ++ y :: (C ++ op.str :: R)))
    rw [scan_num hx, scan_holes hB, scan_num hy, scan_holes hC, scan_op, Nat.zero_add] at hscan
    rw [caln, hscan]
    dsimp only
    -- the three strings, and their places
    have h1 := getD_mid A (B ++ y :: (C ++ op.str :: R)) x
    have h2 := getD_mid (A ++ x :: B) (C ++ op.str :: R) y
    have h3 := getD_mid (A ++ x :: (B ++ y :: C)) R op.str
    have e2 : (A ++ x :: B).length = A.length + 1 + B.length := by
      simp only [List.length_append, List.length_cons]
      omega
    have e3 : (A ++ x :: (B ++ y :: C)).length = A.length + 1 + B.length + 1 + C.length := by
      simp only [List.length_append, List.length_cons]
      omega
    simp only [List.append_assoc, List.cons_append] at h2 h3
    rw [e2] at h2
    rw [e3] at h3
    rw [h1, h2, h3]
    congr 1
    funext v
    have s1 := set_mid A (B ++ y :: (C ++ op.str :: R)) x v
    have s2 := set_mid (A ++ v :: B) (C ++ op.str :: R) y []
    have s3 := set_mid (A ++ v :: (B ++ [] :: C)) R op.str []
    have f2 : (A ++ v :: B).length = A.length + 1 + B.length := by
      simp only [List.length_append, List.length_cons]
      omega
    have f3 : (A ++ v :: (B ++ [] :: C)).length = A.length + 1 + B.length + 1 + C.length := by
      simp only [List.length_append, List.length_cons]
      omega
    simp only [List.append_assoc, List.cons_append] at s2 s3
    rw [f2] at s2
    rw [f3] at s3
    rw [s1, s2, s3]
  · rw [live_append, hlive, show v :: (B ++ [] :: (C ++ [] :: R)) = [v] ++ (B ++ [] :: (C ++ [] :: R)) from rfl, live_append,
      live_append, live_of_holes hB, live_hole, live_append, live_of_holes hC, live_hole, hR]
    rfl

theorem result_num {res : Int} {v : Str} (h : (if MAXNUM ≤ (int_to_chars res.natAbs).length then none
    else some (if 0 ≤ res then int_to_chars res.natAbs else '-' :: int_to_chars res.natAbs)) = some v) : v = [] ∨ Num v := by
  obtain ⟨-, hdigits, hnil⟩ := int_to_chars_spec res.natAbs
  split at h
  · cases h
  · cases h
    by_cases h0 : res = 0
    · refine Or.inl ?_
      rw [h0]
      exact (int_to_chars_spec 0).2.2.2 rfl
    · have hne : int_to_chars res.natAbs ≠ [] := fun he => h0 (Int.natAbs_eq_zero.1 (hnil.1 he))
      refine Or.inr ?_
      split
      · exact isNumber_digits hdigits hne
      · exact isNumber_minus hne

/-- The result of `cal3` is a number, or empty. -/
theorem cal3_num {s v : Str} (h : cal3 x y s = some v) : v = [] ∨ Num v := by
  unfold cal3 at h
  split at h
  · exact result_num h
  · cases h

/-- A token of a postfix expression. -/
def Token (t : Str) : Prop := Num t ∨ ∃ op : Op, t = op.str

theorem split_first (h : ∀ t ∈ A, Token t) : (∀ t ∈ A, Num t) ∨ ∃ ns, ∃ op : Op, ∃ rest, A = ns ++ op.str :: rest ∧
    ∀ t ∈ ns, Num t := by
  induction A with
  | nil => exact Or.inl fun t ht => absurd ht List.not_mem_nil
  | cons t A ih =>
    rcases h t List.mem_cons_self with ht | ⟨op, rfl⟩
    · rcases ih fun u hu => h u (List.mem_cons_of_mem _ hu) with hall | ⟨ns, op, rest, rfl, hns⟩
      · exact Or.inl (List.forall_mem_cons.2 ⟨ht, hall⟩)
      · exact Or.inr ⟨t :: ns, op, rest, rfl, List.forall_mem_cons.2 ⟨ht, hns⟩⟩
    · exact Or.inr ⟨[], op, A, rfl, fun t ht => absurd ht List.not_mem_nil⟩

theorem countP_nums (h : ∀ t ∈ A, Num t) : A.countP isNumber = A.length ∧ A.countP isOperator = 0 :=
  ⟨List.countP_eq_length.2 fun t ht => (h t ht).1, List.countP_eq_zero.2 fun t ht => by simp [(h t ht).2]⟩

/-- Without a number more than operators, a reduction leaves the array. -/
theorem caln_deficit (n : Nat) : ∀ src, (∀ t ∈ live src, Token t) →
    (live src).countP isNumber ≤ (live src).countP isOperator → caln n src = none := by
  induction n with
  | zero => exact fun _ _ _ => rfl
  | succ n ih =>
    intro src htok hcount
    rcases split_first htok with hall | ⟨ns, op, rest, hsplit, hns⟩
    · obtain ⟨hnum, hop⟩ := countP_nums hall
      have hnil : live src = [] := List.length_eq_zero_iff.1 (by omega)
      have hholes : ∀ t ∈ src, t = [] := fun t ht => (mem_live ht).resolve_right (by rw [hnil]; exact List.not_mem_nil)
      have hscan := scan_holes (R := []) hholes 0 none none
      rw [List.append_nil] at hscan
      rw [caln, hscan]
      rfl
    · obtain ⟨hnum, hop⟩ := countP_nums hns
      obtain ⟨hopstr, hnumstr⟩ := isOperator_str op
      rcases List.eq_nil_or_concat ns with rfl | ⟨ns', y, rfl⟩
      · obtain ⟨C, R, rfl, hC, -⟩ := live_eq_cons hsplit
        rw [caln, scan_holes hC, scan_op]
      · rw [List.concat_eq_append] at hsplit hns hnum hop
        have hy : Num y := hns y (by simp)
        rcases List.eq_nil_or_concat ns' with rfl | ⟨nums, x, rfl⟩
        · obtain ⟨B, S, rfl, hB, hS⟩ := live_eq_cons hsplit
          obtain ⟨C, R, rfl, hC, -⟩ := live_eq_cons hS
          rw [caln, scan_holes hB, scan_num hy, scan_holes hC, scan_op]
        · rw [List.concat_eq_append] at hsplit hns hnum hop
          have hx : Num x := hns x (by simp)
          have hnums : ∀ t ∈ nums, Num t := fun t ht => hns t (by simp [ht])
          have hlive : live src = nums ++ x :: y :: op.str :: rest := by rw [hsplit]; simp
          obtain ⟨left, hleft, hlive'⟩ := caln_step hlive hnums hx hy
          rw [hleft n]
          cases hv : cal3 x y op.str with
          | none => rfl
          | some v =>
            have hrest : ∀ t ∈ rest, Token t := fun t ht => htok t (by rw [hsplit]; simp [ht])
            obtain ⟨hnum', hop'⟩ := countP_nums hnums
            rw [hlive] at hcount
            simp only [List.countP_append, List.countP_cons, hnum', hop', hx.1, hx.2, hy.1, hy.2, hopstr, hnumstr] at hcount
            refine ih (left v) ?_ ?_
            · rw [hlive' v]
              intro t ht
              rcases List.mem_append.1 ht with ht | ht
              · exact Or.inl (hnums t ht)
              · rcases List.mem_append.1 ht with ht | ht
                · rcases cal3_num hv with rfl | hvn
                  · exact absurd ht List.not_mem_nil
                  · rw [live_cons hvn.ne_nil] at ht
                    rw [List.mem_singleton.1 ht]
                    exact Or.inl hvn
                · exact hrest t ht
            · rw [hlive' v]
              rcases cal3_num hv with rfl | hvn
              · rw [live_hole, show live [] = [] from rfl, List.nil_append]
                simp only [List.countP_append, hnum', hop']
                simp at hcount
                omega
              · rw [live_cons hvn.ne_nil, show live [] = [] from rfl]
                simp only [List.countP_append, List.countP_cons, List.countP_nil, hnum', hop', hvn.1, hvn.2]
                simp at hcount ⊢
                omega

theorem rpn_tokens {e : Expr} (hl : e.Literal) : ∀ t ∈ e.rpn, Token t := by
  induction e with
  | lit digits =>
    intro t ht
    rw [List.mem_singleton.1 ht]
    exact Or.inl (isNumber_digits hl.2 hl.1)
  | bin op e f ihe ihf =>
    intro t ht
    rcases List.mem_append.1 ht with ht | ht
    · rcases List.mem_append.1 ht with ht | ht
      · exact ihe hl.1 t ht
      · exact ihf hl.2 t ht
    · exact Or.inr ⟨op, List.mem_singleton.1 ht⟩

theorem rpn_count {e : Expr} (hl : e.Literal) : e.rpn.countP isNumber = e.ops + 1 ∧ e.rpn.countP isOperator = e.ops := by
  induction e with
  | lit digits =>
    obtain ⟨hn, ho⟩ := isNumber_digits hl.2 hl.1
    simp [Expr.rpn, Expr.ops, hn, ho]
  | bin op e f ihe ihf =>
    obtain ⟨hn, ho⟩ := ihe hl.1
    obtain ⟨hn', ho'⟩ := ihf hl.2
    obtain ⟨hop, hnum⟩ := isOperator_str op
    simp only [Expr.rpn, Expr.ops, List.countP_append, List.countP_cons, List.countP_nil, hn, ho, hn', ho', hop, hnum]
    simp
    omega

/-- **A clean expression** is reduced to its string. -/
theorem caln_reduce {e : Expr} (hl : e.Literal) (hs : e.Small) (hc : e.Clean) : ∀ nums rest src, (∀ t ∈ nums, Num t) →
    live src = nums ++ (e.rpn ++ rest) → ∃ left, (∀ n, caln (n + e.ops) src = caln n left) ∧ live left = nums ++ e.str :: rest := by
  induction e with
  | lit digits => exact fun nums rest src _ h => ⟨src, fun n => rfl, h⟩
  | bin op e f ihe ihf =>
    intro nums rest src hnums h
    obtain ⟨⟨hce, hshorte⟩, ⟨hcf, hshortf⟩, hne⟩ := hc
    have hc : (Expr.bin op e f).Clean := ⟨⟨hce, hshorte⟩, ⟨hcf, hshortf⟩, hne⟩
    obtain ⟨left₁, hrun₁, hlive₁⟩ := ihe hl.1 hs.1 hce nums (f.rpn ++ op.str :: rest) src hnums (by rw [h]; simp [Expr.rpn])
    have hnume := Expr.str_num hl.1 hce
    have hnums' : ∀ t ∈ nums ++ [e.str], Num t := fun t ht => (List.mem_append.1 ht).elim (hnums t) fun ht => by
      rw [List.mem_singleton.1 ht]
      exact hnume
    obtain ⟨left₂, hrun₂, hlive₂⟩ := ihf hl.2 hs.2.1 hcf (nums ++ [e.str]) (op.str :: rest) left₁ hnums' (by rw [hlive₁]; simp)
    rw [List.append_assoc] at hlive₂
    obtain ⟨left, hrun, hlive⟩ := caln_step hlive₂ hnums hnume (Expr.str_num hl.2 hcf)
    refine ⟨left (Expr.bin op e f).str, fun n => ?_, ?_⟩
    · have hops : n + (Expr.bin op e f).ops = n + 1 + f.ops + e.ops := by
        show n + (e.ops + f.ops + 1) = _
        omega
      rw [hops, hrun₁, hrun₂, hrun, cal3_spec hl hs hshorte hshortf]
      rfl
    · rw [hlive, live_cons (Expr.str_num hl hc).ne_nil]
      rfl

/-- **An expression that is not clean** is not reduced. -/
theorem caln_unclean {e : Expr} (hl : e.Literal) (hs : e.Small) (hc : ¬e.Clean) : ∀ nums rest src, (∀ t ∈ nums, Num t) →
    (∀ t ∈ rest, Token t) → nums.length + rest.countP isNumber = rest.countP isOperator →
    live src = nums ++ (e.rpn ++ rest) → ∀ n, caln (n + e.ops) src = none := by
  induction e with
  | lit digits => exact absurd trivial hc
  | bin op e f ihe ihf =>
    intro nums rest src hnums hrest hbalance h n
    obtain ⟨hopstr, hnumstr⟩ := isOperator_str op
    obtain ⟨hnf, hof⟩ := rpn_count hl.2
    have hops : n + (Expr.bin op e f).ops = n + 1 + f.ops + e.ops := by
      show n + (e.ops + f.ops + 1) = _
      omega
    have hsrc : live src = nums ++ (e.rpn ++ (f.rpn ++ op.str :: rest)) := by rw [h]; simp [Expr.rpn]
    have hrest' : ∀ t ∈ op.str :: rest, Token t := List.forall_mem_cons.2 ⟨Or.inr ⟨op, rfl⟩, hrest⟩
    rw [hops]
    by_cases hce : e.Clean
    · obtain ⟨left₁, hrun₁, hlive₁⟩ := caln_reduce hl.1 hs.1 hce nums _ src hnums hsrc
      have hnume := Expr.str_num hl.1 hce
      have hnums' : ∀ t ∈ nums ++ [e.str], Num t := fun t ht => (List.mem_append.1 ht).elim (hnums t) fun ht => by
        rw [List.mem_singleton.1 ht]
        exact hnume
      have hlive₁' : live left₁ = (nums ++ [e.str]) ++ (f.rpn ++ op.str :: rest) := by rw [hlive₁]; simp
      rw [hrun₁]
      by_cases hcf : f.Clean
      · obtain ⟨left₂, hrun₂, hlive₂⟩ := caln_reduce hl.2 hs.2.1 hcf _ _ left₁ hnums' hlive₁'
        rw [List.append_assoc] at hlive₂
        obtain ⟨left, hrun, hlive⟩ := caln_step hlive₂ hnums hnume (Expr.str_num hl.2 hcf)
        rw [hrun₂, hrun]
        by_cases hshort : e.Short ∧ f.Short
        · -- the value is 0, and its string is empty
          have hzero : op.apply e.value f.value = 0 := by
            by_contra hne
            exact hc ⟨⟨hce, hshort.1⟩, ⟨hcf, hshort.2⟩, hne⟩
          have hstr : (Expr.bin op e f).str = [] := by
            show (if 0 ≤ op.apply e.value f.value then int_to_chars (op.apply e.value f.value).natAbs
              else '-' :: int_to_chars (op.apply e.value f.value).natAbs) = []
            rw [hzero]
            exact (int_to_chars_spec 0).2.2.2 rfl
          rw [cal3_spec hl hs hshort.1 hshort.2, hstr]
          refine caln_deficit n _ ?_ ?_
          · rw [hlive []]
            intro t ht
            rcases List.mem_append.1 ht with ht | ht
            · exact Or.inl (hnums t ht)
            · exact hrest t ht
          · rw [hlive []]
            obtain ⟨hn, ho⟩ := countP_nums hnums
            simp only [live_hole, show live [] = [] from rfl, List.nil_append, List.countP_append, hn, ho]
            omega
        · rw [cal3_long hshort]
          rfl
      · refine ihf hl.2 hs.2.1 hcf (nums ++ [e.str]) (op.str :: rest) left₁ hnums' hrest' ?_ hlive₁' (n + 1)
        simp only [List.length_append, List.length_singleton, List.countP_cons, hopstr, hnumstr]
        simp
        omega
    · refine ihe hl.1 hs.1 hce nums (f.rpn ++ op.str :: rest) src hnums (fun t ht => ?_) ?_ hsrc (n + 1 + f.ops)
      · rcases List.mem_append.1 ht with ht | ht
        · exact rpn_tokens hl.2 t ht
        · exact hrest' t ht
      · simp only [List.countP_append, List.countP_cons, hnf, hof, hopstr, hnumstr]
        simp
        omega

/-- One number is the result. -/
theorem caln_last (h : live src = [x]) (hx : Num x) (n : Nat) : caln (n + 1) src = some x := by
  obtain ⟨B, R, rfl, hB, hR⟩ := live_eq_cons h
  have hholes : ∀ t ∈ R, t = [] := fun t ht => (mem_live ht).resolve_right (by rw [hR]; exact List.not_mem_nil)
  have hscan := scan_holes (R := []) hholes (B.length + 1) none (some B.length)
  rw [List.append_nil] at hscan
  rw [caln, scan_holes hB, scan_num hx, Nat.zero_add, hscan]
  show some ((B ++ x :: R).getD B.length []) = some x
  rw [getD_mid]

/-- **The reduction of a postfix expression** gives its value if and only if the expression is clean. -/
theorem caln_rpn {e : Expr} (hl : e.Literal) (hs : e.Small) :
    (caln (e.rpn.length + 1) e.rpn).bind chars_to_int = some e.value ↔ e.Clean ∧ e.Short := by
  have hlive : live e.rpn = [] ++ (e.rpn ++ []) := by
    rw [List.nil_append, List.append_nil]
    refine List.filter_eq_self.2 fun t ht => ?_
    rcases rpn_tokens hl t ht with hn | ⟨op, rfl⟩
    · simpa using hn.ne_nil
    · cases op <;> rfl
  have hlen : e.ops ≤ e.rpn.length := by
    rw [← (rpn_count hl).2]
    exact List.countP_le_length
  obtain ⟨k, hk⟩ : ∃ k, e.rpn.length + 1 = k + 1 + e.ops := ⟨e.rpn.length - e.ops, by omega⟩
  rw [hk]
  by_cases hc : e.Clean
  · obtain ⟨left, hrun, hleft⟩ := caln_reduce hl hs hc [] [] e.rpn (fun t ht => absurd ht List.not_mem_nil) hlive
    rw [hrun, caln_last hleft (Expr.str_num hl hc)]
    show chars_to_int e.str = _ ↔ _
    by_cases hshort : e.Short
    · exact iff_of_true (Expr.str_value hl hs hshort) ⟨hc, hshort⟩
    · rw [Expr.str_long hshort]
      exact iff_of_false nofun fun h => hshort h.2
  · rw [caln_unclean hl hs hc [] [] e.rpn (fun t ht => absurd ht List.not_mem_nil) (fun t ht => absurd ht List.not_mem_nil) rfl
      hlive]
    exact iff_of_false nofun fun h => hc h.1

end Reduction

end NewXv6.Cal
