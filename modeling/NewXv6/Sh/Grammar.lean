import NewXv6.Sh.Model
import Mathlib.Logic.Function.Iterate

/-!
# The grammar of the shell

`Tokens s ts`: the line `s` is the tokens `ts`, where words are the maximal runs of characters that are neither blank nor an
operator or a parenthesis. `Derives X ts`: the tokens `ts` derive from `X`, where each symbol of the grammar has the tree that
it stands for. A tokenizer that knows all operators reads the tokens of a line one after the other (`Tokens.next`).
-/

namespace NewXv6.Sh

/-- The operators and parentheses. -/
def operators : List Char := ['<', '|', '>', '&', ';', '(', ')']

/-- Whether a character can be in a word. -/
abbrev inWord (c : Char) : Bool := plain operators c

/-- The tokens of a line. -/
inductive Tokens : List Char → List Token → Prop
  | nil : Tokens [] []
  | blank {c : Char} {s : List Char} {ts : List Token} : c ∈ whitespace → Tokens s ts → Tokens (c :: s) ts
  | append {s : List Char} {ts : List Token} : Tokens s ts → Tokens ('>' :: '>' :: s) (.append :: ts)
  | sym {c : Char} {s : List Char} {ts : List Token} :
      c ∈ operators → (c = '>' → s.head? ≠ some '>') → Tokens s ts → Tokens (c :: s) (.sym c :: ts)
  | word {c : Char} {w s : List Char} {ts : List Token} :
      (∀ x ∈ c :: w, inWord x = true) → (∀ x, s.head? = some x → inWord x = false) → Tokens s ts →
      Tokens ((c :: w) ++ s) (.word (c :: w) :: ts)

/-- The symbols of the grammar: `redirs`, `{word redirs}`, `exec`, `pipe` and `line`. -/
inductive Sym
  | redirs (rs : List Redir)
  | args (argv : List Word) (rs : List Redir)
  | exec (t : Cmd)
  | pipe (t : Cmd)
  | line (t : Cmd)

/-- A command with `n` signs `&` behind it. -/
def backs (n : Nat) (t : Cmd) : Cmd := Cmd.back^[n] t

/-- The tokens that derive from a symbol. -/
inductive Derives : Sym → List Token → Prop
  | noRedirs : Derives (.redirs []) []
  | input {file : Word} {rs : List Redir} {ts : List Token} : Derives (.redirs rs) ts →
      Derives (.redirs (⟨file, .rdonly, 0⟩ :: rs)) (.sym '<' :: .word file :: ts)
  | output {file : Word} {rs : List Redir} {ts : List Token} : Derives (.redirs rs) ts →
      Derives (.redirs (⟨file, .wronlyCreate, 1⟩ :: rs)) (.sym '>' :: .word file :: ts)
  | append {file : Word} {rs : List Redir} {ts : List Token} : Derives (.redirs rs) ts →
      Derives (.redirs (⟨file, .wronlyCreate, 1⟩ :: rs)) (.append :: .word file :: ts)
  | noArgs : Derives (.args [] []) []
  | arg {w : Word} {argv : List Word} {rs rs' : List Redir} {ts ts' : List Token} :
      Derives (.redirs rs) ts → Derives (.args argv rs') ts' →
      Derives (.args (w :: argv) (rs ++ rs')) (.word w :: (ts ++ ts'))
  | exec {argv : List Word} {rs rs' : List Redir} {ts ts' : List Token} :
      Derives (.redirs rs) ts → Derives (.args argv rs') ts' → argv.length < MAXARGS →
      Derives (.exec (wrap (.exec argv) (rs ++ rs'))) (ts ++ ts')
  | block {t : Cmd} {rs : List Redir} {ts ts' : List Token} : Derives (.line t) ts → Derives (.redirs rs) ts' →
      Derives (.exec (wrap t rs)) (.sym '(' :: (ts ++ .sym ')' :: ts'))
  | pipeOne {t : Cmd} {ts : List Token} : Derives (.exec t) ts → Derives (.pipe t) ts
  | pipe {t u : Cmd} {ts ts' : List Token} : Derives (.exec t) ts → Derives (.pipe u) ts' →
      Derives (.pipe (.pipe t u)) (ts ++ .sym '|' :: ts')
  | lineOne {t : Cmd} {n : Nat} {ts : List Token} : Derives (.pipe t) ts →
      Derives (.line (backs n t)) (ts ++ List.replicate n (.sym '&'))
  | line {t u : Cmd} {n : Nat} {ts ts' : List Token} : Derives (.pipe t) ts → Derives (.line u) ts' →
      Derives (.line (.list (backs n t) u)) (ts ++ (List.replicate n (.sym '&') ++ .sym ';' :: ts'))

/-- The line derives from the grammar, with this tree. -/
def Grammar (s : List Char) (t : Cmd) : Prop := ∃ ts, Tokens s ts ∧ Derives (.line t) ts

/-! ## Reading the tokens of a line -/

variable {s : List Char} {ts : List Token} {c : Char}

theorem skip_blank (h : c ∈ whitespace) (s : List Char) : skip (c :: s) = skip s :=
  List.dropWhile_cons_of_pos (List.contains_iff_mem.2 h)

theorem skip_other (h : c ∉ whitespace) (s : List Char) : skip (c :: s) = c :: s :=
  List.dropWhile_cons_of_neg fun hc => h (List.contains_iff_mem.1 hc)

theorem skip_skip (s : List Char) : skip (skip s) = skip s := by
  induction s with
  | nil => rfl
  | cons c s ih =>
    by_cases hc : c ∈ whitespace
    · rw [skip_blank hc]
      exact ih
    · rw [skip_other hc, skip_other hc]

theorem gettoken_skip (ops s : List Char) : gettoken ops (skip s) = gettoken ops s := by
  unfold gettoken
  rw [skip_skip]

theorem contains_false {l : List Char} : l.contains c = false ↔ c ∉ l := by
  rw [Bool.eq_false_iff, ne_eq, List.contains_iff_mem]

theorem operator_not_blank (hc : c ∈ operators) : c ∉ whitespace := by
  revert hc
  unfold operators whitespace
  simp only [List.mem_cons, List.not_mem_nil, or_false]
  rintro (rfl | rfl | rfl | rfl | rfl | rfl | rfl) <;> decide

theorem inWord_iff : inWord c = true ↔ c ∉ whitespace ∧ c ∉ operators := by
  unfold inWord plain
  rw [Bool.and_eq_true, Bool.not_eq_true', Bool.not_eq_true', contains_false, contains_false]

theorem Tokens.skip (h : Tokens s ts) : Tokens (skip s) ts := by
  induction h with
  | nil => exact .nil
  | blank hc _ ih =>
    rw [skip_blank hc]
    exact ih
  | append h _ => exact .append h
  | @sym c s ts hc hnext h _ =>
    rw [skip_other (operator_not_blank hc)]
    exact .sym hc hnext h
  | @word c w s ts hw hs h _ =>
    rw [List.cons_append, skip_other (inWord_iff.1 (hw c List.mem_cons_self)).1]
    exact .word hw hs h

/-- The characters of a word, and what is behind it. -/
theorem takeWhile_word {p : Char → Bool} {w s : List Char} (hw : ∀ x ∈ w, p x = true)
    (hs : ∀ x, s.head? = some x → p x = false) :
    (w ++ s).takeWhile p = w ∧ (w ++ s).dropWhile p = s := by
  induction w with
  | nil =>
    cases s with
    | nil => exact ⟨rfl, rfl⟩
    | cons x s =>
      have hx := hs x rfl
      exact ⟨List.takeWhile_cons_of_neg (by rw [hx]; decide), List.dropWhile_cons_of_neg (by rw [hx]; decide)⟩
  | cons x w ih =>
    obtain ⟨h₁, h₂⟩ := ih fun y hy => hw y (List.mem_cons_of_mem x hy)
    have hx := hw x List.mem_cons_self
    refine ⟨?_, ?_⟩
    · rw [List.cons_append, List.takeWhile_cons_of_pos hx, h₁]
    · rw [List.cons_append, List.dropWhile_cons_of_pos hx, h₂]

/-- **The next token** of a line is what the tokenizer returns. -/
theorem Tokens.next (h : Tokens s ts) : ts = [] ∧ gettoken operators s = (none, []) ∨
    ∃ t r ts', ts = t :: ts' ∧ gettoken operators s = (some t, r) ∧ Tokens r ts' := by
  induction h with
  | nil => exact .inl ⟨rfl, rfl⟩
  | @blank c s ts hc _ ih =>
    have heq : gettoken operators (c :: s) = gettoken operators s := by
      unfold gettoken
      rw [skip_blank hc]
    rw [heq]
    exact ih
  | @append s ts h _ => exact .inr ⟨_, _, _, rfl, rfl, h.skip⟩
  | @sym c s ts hc hnext h _ =>
    refine .inr ⟨_, Sh.skip s, ts, rfl, ?_, h.skip⟩
    unfold gettoken
    rw [skip_other (operator_not_blank hc)]
    dsimp only
    rw [if_neg fun hand => hnext hand.1 hand.2, if_pos (List.contains_iff_mem.2 hc)]
  | @word c w s ts hw hs h _ =>
    obtain ⟨hblank, hop⟩ := inWord_iff.1 (hw c List.mem_cons_self)
    obtain ⟨htake, hdrop⟩ := takeWhile_word (fun x hx => hw x (List.mem_cons_of_mem c hx)) hs
    have hgt : c ≠ '>' := fun he => hop (by rw [he]; decide)
    refine .inr ⟨_, Sh.skip s, ts, rfl, ?_, h.skip⟩
    unfold gettoken
    rw [List.cons_append, skip_other hblank]
    dsimp only
    rw [if_neg fun hand => hgt hand.1, if_neg fun hc => hop (List.contains_iff_mem.1 hc)]
    show (some (Token.word (c :: (w ++ s).takeWhile inWord)), Sh.skip ((w ++ s).dropWhile inWord)) = _
    rw [htake, hdrop]

/-- Whether a token begins with one of the characters. -/
def Token.starts (toks : List Char) : Token → Bool
  | .sym c => toks.contains c
  | .append => toks.contains '>'
  | .word _ => false

/-- Whether the next token does. -/
def starts (toks : List Char) (ts : List Token) : Bool := ts.head?.any (Token.starts toks)

/-- What `peek` sees. -/
theorem Tokens.peek (h : Tokens s ts) {toks : List Char} (htoks : toks.all operators.contains = true) :
    Sh.peek toks s = starts toks ts := by
  unfold Sh.peek
  induction h with
  | nil => rfl
  | @blank c s ts hc _ ih =>
    rw [skip_blank hc]
    exact ih
  | append h _ => rfl
  | @sym c s ts hc hnext h _ =>
    rw [skip_other (operator_not_blank hc)]
    rfl
  | @word c w s ts hw hs h _ =>
    obtain ⟨hblank, hop⟩ := inWord_iff.1 (hw c List.mem_cons_self)
    rw [List.cons_append, skip_other hblank]
    show toks.contains c = false
    exact contains_false.2 fun hc => hop (List.contains_iff_mem.1 (List.all_eq_true.1 htoks c hc))

theorem Tokens.end_iff (h : Tokens s ts) : Sh.skip s = [] ↔ ts = [] := by
  induction h with
  | nil => exact ⟨fun _ => rfl, fun _ => rfl⟩
  | @blank c s ts hc _ ih =>
    rw [skip_blank hc]
    exact ih
  | append h _ => exact ⟨nofun, nofun⟩
  | @sym c s ts hc hnext h _ =>
    rw [skip_other (operator_not_blank hc)]
    exact ⟨nofun, nofun⟩
  | @word c w s ts hw hs h _ =>
    obtain ⟨hblank, hop⟩ := inWord_iff.1 (hw c List.mem_cons_self)
    rw [List.cons_append, skip_other hblank]
    exact ⟨nofun, nofun⟩

theorem starts_disjoint {toks toks' : List Char} (h : starts toks ts = true) (hdisjoint : toks.all (fun c => !toks'.contains c) = true) :
    starts toks' ts = false := by
  have hnot : ∀ c ∈ toks, toks'.contains c = false := fun c hc => by
    have := List.all_eq_true.1 hdisjoint c hc
    rwa [Bool.not_eq_true'] at this
  cases ts with
  | nil => rfl
  | cons t ts =>
    cases t with
    | sym c => exact hnot c (List.contains_iff_mem.1 h)
    | append => exact hnot '>' (List.contains_iff_mem.1 h)
    | word w => rfl

theorem starts_mono {toks toks' : List Char} (h : starts toks ts = true) (hsub : toks.all toks'.contains = true) :
    starts toks' ts = true := by
  cases ts with
  | nil => cases h
  | cons t ts =>
    cases t with
    | sym c => exact List.all_eq_true.1 hsub c (List.contains_iff_mem.1 h)
    | append => exact List.all_eq_true.1 hsub '>' (List.contains_iff_mem.1 h)
    | word w => cases h

theorem Tokens.peek_sym (h : Tokens s (.sym c :: ts)) (hc : c ∈ operators) : Sh.peek [c] s = true :=
  (h.peek (List.all_eq_true.2 fun _ hx => List.contains_iff_mem.2 (List.mem_singleton.1 hx ▸ hc))).trans (List.contains_iff_mem.2 (List.mem_singleton.2 rfl))

/-- The next token is this operator. -/
theorem starts_single (h : starts [c] ts = true) (hc : c ≠ '>') : ∃ ts', ts = .sym c :: ts' := by
  cases ts with
  | nil => cases h
  | cons t ts =>
    cases t with
    | sym x =>
      have hx := List.mem_singleton.1 (List.contains_iff_mem.1 h)
      exact ⟨ts, by rw [hx]⟩
    | append => exact absurd (List.mem_singleton.1 (List.contains_iff_mem.1 h)).symm hc
    | word w => cases h

/-- Every line has its tokens. -/
theorem Tokens.exists (s : List Char) : ∃ ts, Tokens s ts := by
  induction hn : s.length using Nat.strongRecOn generalizing s with
  | ind n ih =>
    subst hn
    cases s with
    | nil => exact ⟨[], .nil⟩
    | cons c s =>
      by_cases hblank : c ∈ whitespace
      · obtain ⟨ts, hts⟩ := ih s.length (Nat.lt_succ_self _) s rfl
        exact ⟨ts, .blank hblank hts⟩
      · by_cases hop : c ∈ operators
        · by_cases hnext : c = '>' ∧ s.head? = some '>'
          · obtain ⟨rfl, hhead⟩ := hnext
            obtain ⟨s', rfl⟩ : ∃ s', s = '>' :: s' := by
              cases s with
              | nil => cases hhead
              | cons x s' =>
                cases hhead
                exact ⟨s', rfl⟩
            obtain ⟨ts, hts⟩ := ih s'.length (by simp only [List.length_cons]; omega) s' rfl
            exact ⟨_, .append hts⟩
          · obtain ⟨ts, hts⟩ := ih s.length (Nat.lt_succ_self _) s rfl
            exact ⟨_, .sym hop (fun hc hh => hnext ⟨hc, hh⟩) hts⟩
        · have hlen : (s.dropWhile inWord).length ≤ s.length := (List.dropWhile_suffix _).length_le
          obtain ⟨ts, hts⟩ := ih (s.dropWhile inWord).length (Nat.lt_succ_of_le hlen) _ rfl
          refine ⟨.word (c :: s.takeWhile inWord) :: ts, ?_⟩
          have hsplit : c :: s = (c :: s.takeWhile inWord) ++ s.dropWhile inWord := by
            rw [List.cons_append, List.takeWhile_append_dropWhile]
          rw [hsplit]
          refine .word (fun x hx => ?_) (fun x hx => ?_) hts
          · rcases List.mem_cons.1 hx with rfl | hx
            · exact inWord_iff.2 ⟨hblank, hop⟩
            · exact List.all_eq_true.1 List.all_takeWhile x hx
          · have := List.head?_dropWhile_not inWord s
            rw [hx] at this
            exact this

end NewXv6.Sh
