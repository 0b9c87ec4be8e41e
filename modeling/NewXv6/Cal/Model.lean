import Mathlib.Data.List.Basic
import Mathlib.Tactic.Ring
import Mathlib.Tactic.Linarith

/-!
# The calculator (`cal.c`)

`cal` splits its argument into tokens, puts them into postfix order with a stack of operators, and reduces the first
operator and the two numbers before it until one number is left. A string is the list of its characters; one of ten
characters has no place left for its end. `none` is an index outside an array, or a string without an end that is read.

The numbers are integers without a bound: an expression whose values are below 10⁸ does not overflow an `int`.
-/

namespace NewXv6.Cal

abbrev MAXCOUNT : Nat := 100
abbrev MAXNUM : Nat := 10

/-- A string in `MAXNUM` bytes. -/
abbrev Str : Type := List Char

/-! ## Numbers -/

/-- The number of a digit. -/
def digitValue (c : Char) : Int := (c.toNat : Int) - 48

/-- The digit of a number. -/
def digitChar (n : Nat) : Char := Char.ofNat (48 + n)

/-- The loop of `chars_to_int`. -/
def digits_to_int (src : Str) : Int := src.foldl (fun ret c => ret * 10 + digitValue c) 0

def chars_to_int (src : Str) : Option Int :=
  if MAXNUM ≤ src.length then none
  else
    match src with
    | '-' :: r => some (-digits_to_int r)
    | src => some (digits_to_int src)

/-- The digits of a number from the first one on: none for 0. -/
def int_to_chars (n : Nat) : Str := if n = 0 then [] else int_to_chars (n / 10) ++ [digitChar (n % 10)]

/-- The result of an operator, as a string. -/
def cal3 (a1 a2 s : Str) : Option Str :=
  match chars_to_int a1, chars_to_int a2 with
  | some r1, some r2 =>
    let res : Int :=
      match s.head? with
      | some '+' => r1 + r2
      | some '-' => r1 - r2
      | some '*' => r1 * r2
      | some '/' => r1.tdiv r2
      | _ => 0
    let r := int_to_chars res.natAbs
    if MAXNUM ≤ r.length then none
    else some (if 0 ≤ res then r else '-' :: r)
  | _, _ => none

/-! ## Tokens -/

def isDigit (c : Char) : Bool := '0' ≤ c ∧ c ≤ '9'

/-- The loop of `split`: the tokens before `ret[j]`, and the digits in `ret[j]`. -/
def splitLoop : Str → List Str → Str → Option (List Str)
  | [], ret, cur => some (if cur = [] then ret else ret ++ [cur])
  | c :: src, ret, cur =>
    if isDigit c then
      if cur.length < MAXNUM ∧ ret.length < MAXCOUNT then splitLoop src ret (cur ++ [c]) else none
    else
      let ret := if cur = [] then ret else ret ++ [cur]
      if ret.length < MAXCOUNT then splitLoop src (ret ++ [[c]]) [] else none

/-- The strings of the array up to the last one that is not empty. -/
def split (src : Str) : Option (List Str) :=
  (splitLoop src [] []).bind fun ret =>
    if (ret.head?.bind List.head?) = some '-' then
      -- the strings move up by one, and the last one becomes the first
      if ret.length < MAXCOUNT then some (['0'] :: ret) else none
    else some ret

/-! ## Postfix order -/

/-- The two columns of `precede`. -/
def incoming : Char → Nat
  | '+' => 3
  | '-' => 3
  | '*' => 5
  | '/' => 5
  | '(' => 1
  | ')' => 8
  | _ => 0

def onStack : Char → Nat
  | '+' => 3
  | '-' => 3
  | '*' => 5
  | '/' => 6
  | '(' => 1
  | ')' => 8
  | _ => 0

/-- The first character of a string. -/
def first (s : Str) : Char := s.headD '\x00'

/-- The strings on the stack above `stack[0]`, the last one first, and what is in `ret`. -/
structure Rpn where
  stack : List Str
  ret : List Str

/-- `ret[t2] = stack[t1 - 1]`. -/
def Rpn.pop (s : Rpn) : Rpn :=
  match s.stack with
  | [] => s
  | x :: stack => ⟨stack, s.ret ++ [x]⟩

/-- The loop of `)`. -/
def popToParen : List Str → List Str → Option Rpn
  | [], _ => none
  | x :: stack, ret => if first x = '(' then some ⟨stack, ret⟩ else popToParen stack (ret ++ [x])

/-- The loop of an operator. -/
def popWhile (c : Char) : List Str → List Str → Rpn
  | [], ret => ⟨[], ret⟩
  | x :: stack, ret => if incoming c ≤ onStack (first x) then popWhile c stack (ret ++ [x]) else ⟨x :: stack, ret⟩

/-- A token. -/
def rpnStep (s : Rpn) (t : Str) : Option Rpn :=
  if isDigit (first t) then some { s with ret := s.ret ++ [t] }
  else if first t = '(' then some { s with stack := t :: s.stack }
  else if first t = ')' then popToParen s.stack s.ret
  else
    let r := popWhile (first t) s.stack s.ret
    some { r with stack := t :: r.stack }

def rpnLoop : List Str → Rpn → Option Rpn
  | [], s => some s
  | t :: src, s => (rpnStep s t).bind fun s => if s.stack.length + 1 ≤ MAXCOUNT ∧ s.ret.length ≤ MAXCOUNT then rpnLoop src s else none

def toRPN (src : List Str) : Option (List Str) :=
  if src.length < MAXCOUNT then
    (rpnLoop src ⟨[], []⟩).bind fun s => if (s.ret ++ s.stack).length ≤ MAXCOUNT then some (s.ret ++ s.stack) else none
  else none

/-! ## Reduction -/

def isNumber (t : Str) : Bool :=
  match t with
  | [] => false
  | ['-'] => false
  | c :: _ => isDigit c || c = '-'

def isOperator (t : Str) : Bool := t.head? = some '+' ∨ t = ['-'] ∨ t.head? = some '*' ∨ t.head? = some '/'

/-- `a1`, `a2` and `m` after the loop of `caln` from index `i` on. -/
def scan : List Str → Nat → Option Nat → Option Nat → Option Nat × Option Nat × Option Nat
  | [], _, a1, a2 => (a1, a2, none)
  | t :: src, i, a1, a2 =>
    let a := if isNumber t then (a2, some i) else (a1, a2)
    if isOperator t then (a.1, a.2, some i) else scan src (i + 1) a.1 a.2

/-- At most `rounds` calls. -/
def caln : Nat → List Str → Option Str
  | 0, _ => none
  | rounds + 1, src =>
    match scan src 0 none none with
    | (_, some a2, none) => some (src.getD a2 [])
    | (_, none, none) => none
    | (some a1, some a2, some m) =>
      (cal3 (src.getD a1 []) (src.getD a2 []) (src.getD m [])).bind fun v =>
        caln rounds (((src.set a1 v).set a2 []).set m [])
    | _ => none

def cal (src : Str) : Option Int :=
  (split src).bind fun tokens => (toRPN tokens).bind fun rpn => (caln (rpn.length + 1) rpn).bind chars_to_int

end NewXv6.Cal
