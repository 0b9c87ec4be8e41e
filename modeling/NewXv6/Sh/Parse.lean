import NewXv6.Sh.Grammar

/-!
# The parser and the grammar

The parser ends on every line (`Ends`). Over a tokenizer that knows all operators, what it returns derives from the grammar
(`Reads`), and it returns what derives (`Gives`). The tokenizer of the source does not know the parentheses; on lines where
that makes no difference to a token that is read, the source parses its grammar (`parsecmd_right`).
-/

namespace NewXv6.Sh

variable {α β : Type} {s : List Char} {ts : List Token} {n : Nat}

theorem bind_ok {x : Except Err α} {f : α → Except Err β} {b : β} : (x >>= f) = .ok b ↔ ∃ a, x = .ok a ∧ f a = .ok b := by
  cases x with
  | error e => exact ⟨nofun, nofun⟩
  | ok a => exact ⟨fun h => ⟨a, rfl, h⟩, fun ⟨_, ha, h⟩ => by cases ha; exact h⟩

theorem get_bind {ops s : List Char} {f : Option Token × List Char → Except Err β} :
    ((lexer ops).get s >>= f) = f (gettoken ops s) := rfl

theorem drop_bind {ops s : List Char} {f : List Char → Except Err β} :
    ((lexer ops).drop s >>= f) = f (gettoken ops s).2 := rfl

/-! ## The parser ends -/

/-- The parser returned or panicked, and put nothing back into the line. -/
def Ends (x : Except Err (α × List Char)) (len : Nat) : Prop :=
  (∀ e, x = .error e → ∃ p, e = .panic p) ∧ ∀ a r, x = .ok (a, r) → r.length ≤ len

theorem Ends.ok {a : α} {r : List Char} {len : Nat} (h : r.length ≤ len) : Ends (.ok (a, r)) len := by
  refine ⟨nofun, fun a' r' he => ?_⟩
  cases he
  exact h

theorem Ends.panic {p : Panic} {len : Nat} : Ends (.error (.panic p) : Except Err (α × List Char)) len := by
  refine ⟨fun e he => ?_, nofun⟩
  cases he
  exact ⟨p, rfl⟩

theorem Ends.bind {x : Except Err (α × List Char)} {f : α × List Char → Except Err (β × List Char)} {len len' : Nat}
    (h : Ends x len) (hf : ∀ a r, r.length ≤ len → Ends (f (a, r)) len') : Ends (x >>= f) len' := by
  cases x with
  | error e => exact ⟨fun e' he => h.1 e' (by cases he; rfl), nofun⟩
  | ok p => exact hf p.1 p.2 (h.2 p.1 p.2 rfl)

theorem Ends.mono {x : Except Err (α × List Char)} {len len' : Nat} (h : Ends x len) (hle : len ≤ len') : Ends x len' :=
  ⟨h.1, fun a r he => Nat.le_trans (h.2 a r he) hle⟩

theorem skip_length (s : List Char) : (skip s).length ≤ s.length := (List.dropWhile_suffix _).length_le

theorem peek_skip {toks : List Char} (h : peek toks s = true) : skip s ≠ [] := by
  intro hs
  unfold peek at h
  rw [hs] at h
  cases h

/-- A token is taken off the line. -/
theorem gettoken_length (ops s : List Char) :
    (gettoken ops s).2.length ≤ s.length ∧ (skip s ≠ [] → (gettoken ops s).2.length < s.length) := by
  have hs := skip_length s
  unfold gettoken
  split
  · next heq => exact ⟨Nat.zero_le _, fun hne => absurd heq hne⟩
  · next c s' heq =>
    rw [heq, List.length_cons] at hs
    have htail := skip_length s'.tail
    have hself := skip_length s'
    have hword := skip_length (s'.dropWhile (plain ops))
    have hdrop : (s'.dropWhile (plain ops)).length ≤ s'.length := (List.dropWhile_suffix _).length_le
    rw [List.length_tail] at htail
    split
    · exact ⟨by dsimp only; omega, fun _ => by dsimp only; omega⟩
    · split
      · exact ⟨by dsimp only; omega, fun _ => by dsimp only; omega⟩
      · exact ⟨by dsimp only; omega, fun _ => by dsimp only; omega⟩

/-- A token that is there. -/
theorem gettoken_some {ops r : List Char} {t : Token} (h : gettoken ops s = (some t, r)) : r.length < s.length := by
  have hne : skip s ≠ [] := fun hs => by
    unfold gettoken at h
    rw [hs] at h
    cases h
  have := (gettoken_length ops s).2 hne
  rw [h] at this
  exact this

theorem drop_length (ops : List Char) {toks : List Char} (h : peek toks s = true) : (gettoken ops (skip s)).2.length < s.length := by
  rw [gettoken_skip]
  exact (gettoken_length ops s).2 (peek_skip h)

section

variable (ops : List Char)

theorem parseredirs_ends (n : Nat) : ∀ (rs : List Redir) (s : List Char), s.length < n →
    Ends (parseredirs (lexer ops) n rs s) s.length := by
  induction n with
  | zero => exact fun _ _ hn => absurd hn (Nat.not_lt_zero _)
  | succ n ih =>
    intro rs s hn
    rw [parseredirs]
    split
    · next hpeek =>
      have hlt := drop_length ops hpeek
      rw [get_bind]
      rcases hget : gettoken ops (skip s) with ⟨tok, s₁⟩
      rw [hget] at hlt
      dsimp only at hlt ⊢
      rw [get_bind]
      rcases hget₂ : gettoken ops s₁ with ⟨_ | _ | _ | file, s₂⟩
      · exact .panic
      · exact .panic
      · exact .panic
      · have hlt₂ := gettoken_some hget₂
        exact (ih _ s₂ (by omega)).mono (by omega)
    · exact .ok (skip_length s)

theorem parseargs_ends (n : Nat) : ∀ (argv : List Word) (rs : List Redir) (s : List Char), s.length < n →
    Ends (parseargs (lexer ops) n argv rs s) s.length := by
  induction n with
  | zero => exact fun _ _ _ hn => absurd hn (Nat.not_lt_zero _)
  | succ n ih =>
    intro argv rs s hn
    rw [parseargs]
    split
    · exact .ok (skip_length s)
    · rw [get_bind, gettoken_skip]
      rcases hget : gettoken ops s with ⟨_ | _ | _ | w, s₁⟩
      · have := (gettoken_length ops s).1
        rw [hget] at this
        exact .ok this
      · exact .panic
      · exact .panic
      · have hlt := gettoken_some hget
        dsimp only
        split
        · exact .panic
        · refine (parseredirs_ends ops n rs s₁ (by omega)).bind fun rs' s₂ hle => ?_
          exact (ih _ rs' s₂ (by omega)).mono (by omega)

theorem parsebacks_ends (n : Nat) : ∀ (cmd : Cmd) (s : List Char), s.length < n →
    Ends (parsebacks (lexer ops) n cmd s) s.length := by
  induction n with
  | zero => exact fun _ _ hn => absurd hn (Nat.not_lt_zero _)
  | succ n ih =>
    intro cmd s hn
    rw [parsebacks]
    split
    · next hpeek =>
      have hlt := drop_length ops hpeek
      exact (ih (.back cmd) _ (by omega)).mono (Nat.le_of_lt hlt)
    · exact .ok (skip_length s)

theorem parse_ends_all (n : Nat) : ∀ s : List Char,
    (4 * s.length + 5 ≤ n → Ends (parseline (lexer ops) n s) s.length) ∧
    (4 * s.length + 4 ≤ n → Ends (parsepipe (lexer ops) n s) s.length) ∧
    (4 * s.length + 3 ≤ n → Ends (parseexec (lexer ops) n s) s.length) ∧
    (4 * s.length + 2 ≤ n → Ends (parseblock (lexer ops) n s) s.length) := by
  induction n with
  | zero => exact fun s => ⟨by omega, by omega, by omega, by omega⟩
  | succ n ih =>
    intro s
    refine ⟨fun hn => ?_, fun hn => ?_, fun hn => ?_, fun hn => ?_⟩
    · rw [parseline]
      refine ((ih s).2.1 (by omega)).bind fun cmd s₁ h₁ => (parsebacks_ends ops n cmd s₁ (by omega)).bind fun cmd s₂ h₂ => ?_
      dsimp only
      split
      · next hpeek =>
        have hlt := drop_length ops hpeek
        exact ((ih _).1 (by omega)).bind fun right s₃ h₃ => .ok (by dsimp only; omega)
      · have := skip_length s₂
        exact .ok (by omega)
    · rw [parsepipe]
      refine ((ih s).2.2.1 (by omega)).bind fun cmd s₁ h₁ => ?_
      dsimp only
      split
      · next hpeek =>
        have hlt := drop_length ops hpeek
        exact ((ih _).2.1 (by omega)).bind fun right s₃ h₃ => .ok (by dsimp only; omega)
      · have := skip_length s₁
        exact .ok (by omega)
    · rw [parseexec]
      have hskip := skip_length s
      split
      · exact ((ih _).2.2.2 (by omega)).mono hskip
      · refine (parseredirs_ends ops n [] (skip s) (by omega)).bind fun rs s₁ h₁ => ?_
        exact (parseargs_ends ops n [] rs s₁ (by omega)).mono (by omega)
    · rw [parseblock]
      split
      · next hpeek =>
        have hlt := drop_length ops hpeek
        refine Ends.bind ((ih _).1 (by omega)) fun cmd s₁ h₁ => ?_
        dsimp only
        split
        · next hpeek₂ =>
          have hlt₂ := drop_length ops hpeek₂
          exact (parseredirs_ends ops n [] _ (by omega)).bind fun rs s₂ h₂ => .ok (by dsimp only; omega)
        · exact .panic
      · exact .panic

/-- What `parsecmd` returns. -/
theorem parse_ok {L : Lexer} {t : Cmd} :
    parse L s = .ok t ↔ ∃ r, parseline L (4 * s.length + 5) s = .ok (t, r) ∧ skip r = [] := by
  unfold parse
  refine bind_ok.trans ⟨?_, ?_⟩
  · rintro ⟨⟨u, r⟩, hline, h⟩
    dsimp only at h
    split at h
    · next hr =>
      cases h
      exact ⟨r, hline, hr⟩
    · cases h
  · rintro ⟨r, hline, hr⟩
    refine ⟨(t, r), hline, ?_⟩
    dsimp only
    rw [if_pos hr]
    rfl

/-- **The parser always ends.** -/
theorem parse_ends (s : List Char) : (∃ t, parse (lexer ops) s = .ok t) ∨ ∃ p, parse (lexer ops) s = .error (.panic p) := by
  have hline := (parse_ends_all ops (4 * s.length + 5) s).1 (Nat.le_refl _)
  rcases hx : parse (lexer ops) s with e | t
  · unfold parse at hx
    rcases hy : parseline (lexer ops) (4 * s.length + 5) s with e' | ⟨t, r⟩
    · rw [hy] at hx
      cases hx
      obtain ⟨p, rfl⟩ := hline.1 e hy
      exact .inr ⟨p, rfl⟩
    · rw [hy] at hx
      by_cases hr : skip r = []
      · have : (Except.ok t : Except Err Cmd) = .error e := (if_pos hr).symm.trans hx
        cases this
      · have : (Except.error (.panic .badSyntax) : Except Err Cmd) = .error e := (if_neg hr).symm.trans hx
        cases this
        exact .inr ⟨_, rfl⟩
  · exact .inl ⟨t, rfl⟩

end

/-! ## What the calls do with the tokens -/

/-- A tokenizer that knows all operators takes the next token. -/
theorem Tokens.get {t : Token} (h : Tokens s (t :: ts)) : ∃ r, gettoken operators s = (some t, r) ∧ Tokens r ts := by
  rcases h.next with ⟨hnil, -⟩ | ⟨t', r, ts', heq, hget, hr⟩
  · cases hnil
  · cases heq
    exact ⟨r, hget, hr⟩

theorem Tokens.get_nil (h : Tokens s []) : gettoken operators s = (none, []) := by
  rcases h.next with ⟨-, hget⟩ | ⟨t', r, ts', heq, -, -⟩
  · exact hget
  · cases heq

/-- The token that `peek` saw is taken. -/
theorem Tokens.drop {t : Token} (h : Tokens s (t :: ts)) : Tokens (gettoken operators (Sh.skip s)).2 ts := by
  obtain ⟨r, hget, hr⟩ := h.get
  rw [gettoken_skip, hget]
  exact hr

/-- `gettoken` with all operators. -/
abbrev full : Lexer := lexer operators

section

variable {rs rs' : List Redir} {argv : List Word} {k : List Token} {op : Token} {w : Word} {t cmd : Cmd} {r : List Char}

theorem redirs_stop (h : Tokens s ts) (hts : starts ['<', '>'] ts = false) (n : Nat) (rs : List Redir) :
    parseredirs full (n + 1) rs s = .ok (rs, skip s) := by
  rw [parseredirs, h.peek (by decide), hts]
  rfl

theorem redirs_go (h : Tokens s (op :: .word w :: ts)) (hop : op.starts ['<', '>'] = true) :
    ∃ r, Tokens r ts ∧ ∀ n rs, parseredirs full (n + 1) rs s = parseredirs full n (rs ++ redirOf (some op) w) r := by
  obtain ⟨r₁, hget₁, hr₁⟩ := h.get
  obtain ⟨r₂, hget₂, hr₂⟩ := hr₁.get
  refine ⟨r₂, hr₂, fun n rs => ?_⟩
  have hpeek : peek ['<', '>'] s = true := (h.peek (by decide)).trans hop
  rw [parseredirs, if_pos hpeek, get_bind, gettoken_skip, hget₁]
  dsimp only
  rw [get_bind, hget₂]

theorem redirs_bad (h : Tokens s (op :: ts)) (hop : op.starts ['<', '>'] = true) (hts : ∀ w ts', ts ≠ .word w :: ts')
    (n : Nat) (rs : List Redir) : parseredirs full (n + 1) rs s = .error (.panic .missingFile) := by
  obtain ⟨r₁, hget₁, hr₁⟩ := h.get
  have hpeek : peek ['<', '>'] s = true := (h.peek (by decide)).trans hop
  rw [parseredirs, if_pos hpeek, get_bind, gettoken_skip, hget₁]
  dsimp only
  rw [get_bind]
  cases ts with
  | nil =>
    rw [hr₁.get_nil]
  | cons x ts' =>
    obtain ⟨r₂, hget₂, -⟩ := hr₁.get
    rw [hget₂]
    cases x with
    | sym c => rfl
    | append => rfl
    | word w => exact absurd rfl (hts w ts')

/-- A redirection, with the operators that `parseredirs` looks for. -/
theorem Derives.redir (h : Derives (.redirs rs) ts) (hop : op.starts ['<', '>'] = true) :
    Derives (.redirs (redirOf (some op) w ++ rs)) (op :: .word w :: ts) := by
  cases op with
  | sym c =>
    have hc : c = '<' ∨ c = '>' := by
      have := List.contains_iff_mem.1 hop
      simpa using this
    rcases hc with rfl | rfl
    · exact .input h
    · exact .output h
  | append => exact .append h
  | word w => cases hop

theorem redirs_sound (n : Nat) : ∀ {rs rs' : List Redir} {s r : List Char} {ts : List Token},
    parseredirs full n rs s = .ok (rs', r) → Tokens s ts →
    ∃ new ts₁ k, rs' = rs ++ new ∧ ts = ts₁ ++ k ∧ Tokens r k ∧ Derives (.redirs new) ts₁ := by
  induction n with
  | zero => exact nofun
  | succ n ih =>
    intro rs rs' s r ts h hs
    cases hts : starts ['<', '>'] ts with
    | false =>
      rw [redirs_stop hs hts] at h
      cases h
      exact ⟨[], [], ts, (List.append_nil _).symm, rfl, hs.skip, .noRedirs⟩
    | true =>
      cases ts with
      | nil => cases hts
      | cons op ts =>
        by_cases hword : ∃ w ts', ts = .word w :: ts'
        · obtain ⟨w, ts', rfl⟩ := hword
          obtain ⟨r₁, hr₁, heq⟩ := redirs_go hs hts
          rw [heq] at h
          obtain ⟨new, ts₁, k, rfl, rfl, hk, hd⟩ := ih h hr₁
          exact ⟨_, _, k, List.append_assoc .., rfl, hk, hd.redir hts⟩
        · rw [redirs_bad hs hts fun w ts' he => hword ⟨w, ts', he⟩] at h
          cases h

theorem args_stop (h : Tokens s ts) (hts : ts = [] ∨ starts ['|', ')', '&', ';'] ts = true) :
    ∃ r, Tokens r ts ∧ ∀ n argv rs, parseargs full (n + 1) argv rs s = .ok (wrap (.exec argv) rs, r) := by
  rcases hts with rfl | hts
  · refine ⟨[], .nil, fun n argv rs => ?_⟩
    rw [parseargs, h.peek (by decide), get_bind, gettoken_skip, h.get_nil]
    rfl
  · refine ⟨skip s, h.skip, fun n argv rs => ?_⟩
    rw [parseargs, h.peek (by decide), hts]
    rfl

theorem args_go (h : Tokens s (.word w :: ts)) :
    ∃ r, Tokens r ts ∧ ∀ n argv rs, parseargs full (n + 1) argv rs s =
      if argv.length + 1 ≥ MAXARGS then .error (.panic .tooManyArgs)
      else parseredirs full n rs r >>= fun p => parseargs full n (argv ++ [w]) p.1 p.2 := by
  obtain ⟨r, hget, hr⟩ := h.get
  refine ⟨r, hr, fun n argv rs => ?_⟩
  rw [parseargs, h.peek (by decide), get_bind, gettoken_skip, hget]
  rfl

theorem args_bad (h : Tokens s (op :: ts)) (hop : op.starts ['|', ')', '&', ';'] = false) (hword : ∀ w, op ≠ .word w)
    (n : Nat) (argv : List Word) (rs : List Redir) : parseargs full (n + 1) argv rs s = .error (.panic .badSyntax) := by
  obtain ⟨r, hget, hr⟩ := h.get
  have hpeek : peek ['|', ')', '&', ';'] s = false := (h.peek (by decide)).trans hop
  rw [parseargs, hpeek, get_bind, gettoken_skip, hget]
  cases op with
  | sym c => rfl
  | append => rfl
  | word w => exact absurd rfl (hword w)

theorem args_sound (n : Nat) : ∀ {argv : List Word} {rs : List Redir} {s r : List Char} {ts : List Token} {t : Cmd},
    parseargs full n argv rs s = .ok (t, r) → Tokens s ts → argv.length < MAXARGS →
    ∃ new rs' ts₁ k, t = wrap (.exec (argv ++ new)) (rs ++ rs') ∧ ts = ts₁ ++ k ∧ Tokens r k ∧
      Derives (.args new rs') ts₁ ∧ (argv ++ new).length < MAXARGS := by
  induction n with
  | zero => exact nofun
  | succ n ih =>
    intro argv rs s r ts t h hs hlen
    by_cases hstop : ts = [] ∨ starts ['|', ')', '&', ';'] ts = true
    · obtain ⟨r₁, hr₁, heq⟩ := args_stop hs hstop
      rw [heq] at h
      cases h
      exact ⟨[], [], [], ts, by rw [List.append_nil, List.append_nil], rfl, hr₁, .noArgs, by rwa [List.append_nil]⟩
    · rw [not_or, Bool.not_eq_true] at hstop
      cases ts with
      | nil => exact absurd rfl hstop.1
      | cons op ts =>
        by_cases hword : ∃ w, op = .word w
        · obtain ⟨w, rfl⟩ := hword
          obtain ⟨r₁, hr₁, heq⟩ := args_go hs
          rw [heq] at h
          split at h
          · cases h
          · next hmax =>
            obtain ⟨⟨rs₁, s₁⟩, hredirs, h⟩ := bind_ok.1 h
            obtain ⟨new, ts₁, k, rfl, rfl, hk, hd⟩ := redirs_sound n hredirs hr₁
            have hlen' : (argv ++ [w]).length < MAXARGS := by
              rw [List.length_append, List.length_singleton]
              omega
            obtain ⟨new', rs', ts₂, k', rfl, rfl, hk', hd', hmax'⟩ := ih h hk hlen'
            refine ⟨w :: new', new ++ rs', .word w :: (ts₁ ++ ts₂), k', ?_, ?_, hk', .arg hd hd', ?_⟩
            · rw [List.append_assoc, List.append_assoc]
              rfl
            · rw [List.cons_append, List.append_assoc]
            · rwa [List.append_assoc] at hmax'
        · rw [args_bad hs hstop.2 fun w he => hword ⟨w, he⟩] at h
          cases h

theorem backs_go (h : Tokens s (.sym '&' :: ts)) : ∃ r, Tokens r ts ∧ ∀ n cmd,
    parsebacks full (n + 1) cmd s = parsebacks full n (.back cmd) r := by
  refine ⟨_, h.drop, fun n cmd => ?_⟩
  have hpeek : peek ['&'] s = true := h.peek (by decide)
  rw [parsebacks, if_pos hpeek, drop_bind]

theorem backs_stop (h : Tokens s ts) (hts : starts ['&'] ts = false) (n : Nat) (cmd : Cmd) :
    parsebacks full (n + 1) cmd s = .ok (cmd, skip s) := by
  rw [parsebacks, h.peek (by decide), hts]
  rfl

theorem backs_sound (n : Nat) : ∀ {cmd t : Cmd} {s r : List Char} {ts : List Token},
    parsebacks full n cmd s = .ok (t, r) → Tokens s ts →
    ∃ m k, t = backs m cmd ∧ ts = List.replicate m (.sym '&') ++ k ∧ Tokens r k := by
  induction n with
  | zero => exact nofun
  | succ n ih =>
    intro cmd t s r ts h hs
    cases hts : starts ['&'] ts with
    | false =>
      rw [backs_stop hs hts] at h
      cases h
      exact ⟨0, ts, rfl, rfl, hs.skip⟩
    | true =>
      obtain ⟨ts', rfl⟩ := starts_single hts (by decide)
      obtain ⟨r₁, hr₁, heq⟩ := backs_go hs
      rw [heq] at h
      obtain ⟨m, k, rfl, rfl, hk⟩ := ih h hr₁
      exact ⟨m + 1, k, rfl, rfl, hk⟩

/-- What was read derives from the grammar. -/
def Reads (X : Cmd → Sym) (x : Except Err (Cmd × List Char)) (ts : List Token) : Prop :=
  ∀ t r, x = .ok (t, r) → ∃ ts₁ k, ts = ts₁ ++ k ∧ Tokens r k ∧ Derives (X t) ts₁

/-- **Soundness.** -/
theorem parse_reads (n : Nat) : ∀ {s : List Char} {ts : List Token}, Tokens s ts →
    Reads .line (parseline full n s) ts ∧ Reads .pipe (parsepipe full n s) ts ∧ Reads .exec (parseexec full n s) ts ∧
      Reads .exec (parseblock full n s) ts := by
  induction n with
  | zero => exact fun _ => ⟨nofun, nofun, nofun, nofun⟩
  | succ n ih =>
    intro s ts hs
    refine ⟨fun t r h => ?_, fun t r h => ?_, fun t r h => ?_, fun t r h => ?_⟩
    · rw [parseline] at h
      obtain ⟨⟨cmd, s₁⟩, hpipe, h⟩ := bind_ok.1 h
      obtain ⟨ts₁, k₁, rfl, hk₁, hd₁⟩ := (ih hs).2.1 _ _ hpipe
      dsimp only at h
      obtain ⟨⟨cmd', s₂⟩, hbacks, h⟩ := bind_ok.1 h
      obtain ⟨m, k₂, rfl, rfl, hk₂⟩ := backs_sound n hbacks hk₁
      dsimp only at h
      rw [hk₂.peek (by decide)] at h
      split at h
      · next hsemi =>
        obtain ⟨k₃, rfl⟩ := starts_single hsemi (by decide)
        rw [drop_bind] at h
        obtain ⟨⟨u, s₃⟩, hline, h⟩ := bind_ok.1 h
        obtain ⟨ts₂, k, rfl, hk, hd₂⟩ := (ih hk₂.drop).1 _ _ hline
        cases h
        exact ⟨_, k, by simp only [List.append_assoc, List.cons_append], hk, .line hd₁ hd₂⟩
      · cases h
        exact ⟨_, k₂, (List.append_assoc ..).symm, hk₂.skip, .lineOne hd₁⟩
    · rw [parsepipe] at h
      obtain ⟨⟨cmd, s₁⟩, hexec, h⟩ := bind_ok.1 h
      obtain ⟨ts₁, k₁, rfl, hk₁, hd₁⟩ := (ih hs).2.2.1 _ _ hexec
      dsimp only at h
      rw [hk₁.peek (by decide)] at h
      split at h
      · next hbar =>
        obtain ⟨k₃, rfl⟩ := starts_single hbar (by decide)
        rw [drop_bind] at h
        obtain ⟨⟨u, s₃⟩, hpipe, h⟩ := bind_ok.1 h
        obtain ⟨ts₂, k, rfl, hk, hd₂⟩ := (ih hk₁.drop).2.1 _ _ hpipe
        cases h
        exact ⟨_, k, by simp only [List.append_assoc, List.cons_append], hk, .pipe hd₁ hd₂⟩
      · cases h
        exact ⟨_, k₁, rfl, hk₁.skip, .pipeOne hd₁⟩
    · rw [parseexec] at h
      split at h
      · exact (ih hs.skip).2.2.2 _ _ h
      · obtain ⟨⟨rs, s₁⟩, hredirs, h⟩ := bind_ok.1 h
        obtain ⟨new, ts₁, k₁, rfl, rfl, hk₁, hd₁⟩ := redirs_sound n hredirs hs.skip
        obtain ⟨argv, rs', ts₂, k, rfl, rfl, hk, hd₂, hmax⟩ := args_sound n h hk₁ (by decide)
        exact ⟨_, k, (List.append_assoc ..).symm, hk, .exec hd₁ hd₂ hmax⟩
    · rw [parseblock, hs.peek (by decide)] at h
      split at h
      · next hopen =>
        obtain ⟨ts, rfl⟩ := starts_single hopen (by decide)
        rw [drop_bind] at h
        obtain ⟨⟨u, s₁⟩, hline, h⟩ := bind_ok.1 h
        obtain ⟨ts₁, k₁, rfl, hk₁, hd₁⟩ := (ih hs.drop).1 _ _ hline
        dsimp only at h
        rw [hk₁.peek (by decide)] at h
        split at h
        · next hclose =>
          obtain ⟨k₂, rfl⟩ := starts_single hclose (by decide)
          rw [drop_bind] at h
          obtain ⟨⟨rs, s₂⟩, hredirs, h⟩ := bind_ok.1 h
          obtain ⟨new, ts₂, k, rfl, rfl, hk, hd₂⟩ := redirs_sound n hredirs hk₁.drop
          cases h
          exact ⟨_, k, by simp only [List.append_assoc, List.cons_append], hk, .block hd₁ hd₂⟩
        · cases h
      · cases h

/-! ## Completeness -/

/-- The parser returns `a` and leaves the tokens `k`, if the bound on the calls is large enough. -/
def Gives (x : Except Err (α × List Char)) (a : α) (k : List Token) : Prop :=
  x = .error .fuel ∨ ∃ r, x = .ok (a, r) ∧ Tokens r k

theorem Gives.fuel {a : α} : Gives (.error .fuel) a k := .inl rfl

theorem Gives.ok {a : α} {r : List Char} (h : Tokens r k) : Gives (.ok (a, r)) a k := .inr ⟨r, rfl, h⟩

theorem Gives.bind {x : Except Err (α × List Char)} {f : α × List Char → Except Err (β × List Char)} {a : α} {b : β}
    {k k' : List Token} (h : Gives x a k) (hf : ∀ r, Tokens r k → Gives (f (a, r)) b k') : Gives (x >>= f) b k' := by
  rcases h with rfl | ⟨r, rfl, hr⟩
  · exact .inl rfl
  · exact hf r hr

/-- What may stand behind a simple command. -/
def Stop (k : List Token) : Prop := k = [] ∨ starts ['|', ')', '&', ';'] k = true

theorem Stop.not_starts (h : Stop k) {toks : List Char} (hdisjoint : ['|', ')', '&', ';'].all (fun c => !toks.contains c) = true) :
    starts toks k = false := by
  rcases h with rfl | h
  · rfl
  · exact starts_disjoint h hdisjoint

theorem backs_gives (m : Nat) : ∀ (n : Nat) {cmd : Cmd} {s : List Char} {k : List Token},
    Tokens s (List.replicate m (.sym '&') ++ k) → starts ['&'] k = false →
    Gives (parsebacks full n cmd s) (backs m cmd) k := by
  induction m with
  | zero =>
    intro n cmd s k hs hk
    cases n with
    | zero => exact .fuel
    | succ n =>
      rw [backs_stop hs hk]
      exact .ok hs.skip
  | succ m ih =>
    intro n cmd s k hs hk
    cases n with
    | zero => exact .fuel
    | succ n =>
      obtain ⟨r, hr, heq⟩ := backs_go hs
      rw [heq]
      exact ih n hr hk

/-- What the parser does with what derives from a symbol, and what may stand behind it. -/
def Complete : Sym → List Token → Prop
  | .redirs rs, ts => ∀ n acc s k, starts ['<', '>'] k = false → Tokens s (ts ++ k) →
      Gives (parseredirs full n acc s) (acc ++ rs) k
  | .args argv rs, ts => ∀ n acc racc s k, Stop k → acc.length + argv.length < MAXARGS → Tokens s (ts ++ k) →
      Gives (parseargs full n acc racc s) (wrap (.exec (acc ++ argv)) (racc ++ rs)) k
  | .exec t, ts => ∀ n s k, Stop k → Tokens s (ts ++ k) → Gives (parseexec full n s) t k
  | .pipe t, ts => ∀ n s k, Stop k → starts ['|'] k = false → Tokens s (ts ++ k) → Gives (parsepipe full n s) t k
  | .line t, ts => ∀ n s k, k = [] ∨ starts [')'] k = true → Tokens s (ts ++ k) → Gives (parseline full n s) t k

theorem redir_gives {ts : List Token} (ih : Complete (.redirs rs) ts) (hop : op.starts ['<', '>'] = true) :
    Complete (.redirs (redirOf (some op) w ++ rs)) (op :: .word w :: ts) := by
  intro n acc s k hk hs
  cases n with
  | zero => exact .fuel
  | succ n =>
    obtain ⟨r, hr, heq⟩ := redirs_go hs hop
    rw [heq, ← List.append_assoc]
    exact ih n _ r k hk hr

/-- The arguments begin with a word. -/
theorem Derives.args_starts (h : Derives (.args argv rs) ts) (hk : Stop k) {toks : List Char}
    (hdisjoint : ['|', ')', '&', ';'].all (fun c => !toks.contains c) = true) : starts toks (ts ++ k) = false := by
  cases h with
  | noArgs => exact hk.not_starts hdisjoint
  | arg _ _ => rfl

/-- A simple command does not begin with a parenthesis. -/
theorem Derives.redirs_starts (h : Derives (.redirs rs) ts) (hk : starts ['('] k = false) : starts ['('] (ts ++ k) = false := by
  cases h with
  | noRedirs => exact hk
  | input _ => rfl
  | output _ => rfl
  | append _ => rfl

theorem exec_gives {ts ts' : List Token} (hd : Derives (.redirs rs) ts) (hd' : Derives (.args argv rs') ts')
    (ih : Complete (.redirs rs) ts) (ih' : Complete (.args argv rs') ts') (hlen : argv.length < MAXARGS) :
    Complete (.exec (wrap (.exec argv) (rs ++ rs'))) (ts ++ ts') := by
  intro n s k hk hs
  rw [List.append_assoc] at hs
  cases n with
  | zero => exact .fuel
  | succ n =>
    have hopen : peek ['('] s = false :=
      (hs.peek (by decide)).trans (hd.redirs_starts (hd'.args_starts hk (by decide)))
    rw [parseexec, hopen]
    refine (ih n [] _ _ (hd'.args_starts hk (by decide)) hs.skip).bind fun r hr => ?_
    exact ih' n [] rs r k hk (by rw [List.length_nil]; omega) hr

theorem block_gives {t : Cmd} {ts ts' : List Token} (ih : Complete (.line t) ts) (ih' : Complete (.redirs rs) ts') :
    Complete (.exec (wrap t rs)) (.sym '(' :: (ts ++ .sym ')' :: ts')) := by
  intro n s k hk hs
  rw [List.cons_append, List.append_assoc, List.cons_append] at hs
  cases n with
  | zero => exact .fuel
  | succ n =>
    rw [parseexec, if_pos (hs.peek_sym (by decide))]
    cases n with
    | zero => exact .fuel
    | succ n =>
      rw [parseblock, if_pos (hs.skip.peek_sym (by decide)), drop_bind]
      refine (ih n _ _ (.inr rfl) hs.skip.drop).bind fun r hr => ?_
      dsimp only
      rw [if_pos (hr.peek_sym (by decide)), drop_bind]
      exact (ih' n [] _ k (hk.not_starts (by decide)) hr.drop).bind fun r' hr' => .ok hr'

theorem arg_gives {ts ts' : List Token} (hd' : Derives (.args argv rs') ts') (ih : Complete (.redirs rs) ts)
    (ih' : Complete (.args argv rs') ts') : Complete (.args (w :: argv) (rs ++ rs')) (.word w :: (ts ++ ts')) := by
  intro n acc racc s k hk hlen hs
  rw [List.cons_append, List.append_assoc] at hs
  rw [List.length_cons] at hlen
  cases n with
  | zero => exact .fuel
  | succ n =>
    obtain ⟨r, hr, heq⟩ := args_go hs
    rw [heq, if_neg (by omega)]
    refine (ih n racc r _ (hd'.args_starts hk (by decide)) hr).bind fun r' hr' => ?_
    have := ih' n (acc ++ [w]) (racc ++ rs) r' k hk (by rw [List.length_append, List.length_singleton]; omega) hr'
    rwa [List.append_assoc, List.append_assoc] at this

/-- A line up to its `&` signs. -/
theorem pipe_backs_gives {t : Cmd} {m : Nat} {ts k : List Token} (ih : Complete (.pipe t) ts)
    (hk : k = [] ∨ starts [')', ';'] k = true) (n : Nat) (hs : Tokens s (ts ++ (List.replicate m (.sym '&') ++ k)))
    {f : Cmd × List Char → Except Err (Cmd × List Char)} {u : Cmd} {k' : List Token}
    (hf : ∀ r, Tokens r k → Gives (f (backs m t, r)) u k') :
    Gives (parsepipe full n s >>= fun p => parsebacks full n p.1 p.2 >>= f) u k' := by
  have hnot : ∀ toks : List Char, [')', ';'].all (fun c => !toks.contains c) = true → starts toks k = false := by
    intro toks hdisjoint
    rcases hk with rfl | hk
    · rfl
    · exact starts_disjoint hk hdisjoint
  have hbehind : Stop (List.replicate m (.sym '&') ++ k) ∧ starts ['|'] (List.replicate m (.sym '&') ++ k) = false := by
    cases m with
    | zero =>
      refine ⟨?_, hnot ['|'] (by decide)⟩
      rcases hk with rfl | hk
      · exact .inl rfl
      · exact .inr (starts_mono hk (by decide))
    | succ m => exact ⟨.inr rfl, rfl⟩
  refine (ih n s _ hbehind.1 hbehind.2 hs).bind fun r hr => ?_
  exact (backs_gives m n hr (hnot ['&'] (by decide))).bind hf

/-- **Completeness.** -/
theorem Derives.complete {X : Sym} {ts : List Token} (h : Derives X ts) : Complete X ts := by
  induction h with
  | noRedirs =>
    intro n acc s k hk hs
    cases n with
    | zero => exact .fuel
    | succ n =>
      rw [redirs_stop hs hk, List.append_nil]
      exact .ok hs.skip
  | input _ ih => exact redir_gives ih rfl
  | output _ ih => exact redir_gives ih rfl
  | append _ ih => exact redir_gives ih rfl
  | noArgs =>
    intro n acc racc s k hk _ hs
    cases n with
    | zero => exact .fuel
    | succ n =>
      obtain ⟨r, hr, heq⟩ := args_stop hs hk
      rw [heq, List.append_nil, List.append_nil]
      exact .ok hr
  | arg _ hd' ih ih' => exact arg_gives hd' ih ih'
  | exec hd hd' hlen ih ih' => exact exec_gives hd hd' ih ih' hlen
  | block _ _ ih ih' => exact block_gives ih ih'
  | pipeOne _ ih =>
    intro n s k hk hbar hs
    cases n with
    | zero => exact .fuel
    | succ n =>
      rw [parsepipe]
      refine (ih n s k hk hs).bind fun r hr => ?_
      dsimp only
      rw [hr.peek (by decide), hbar]
      exact .ok hr.skip
  | pipe _ _ ih ih' =>
    intro n s k hk hbar hs
    rw [List.append_assoc, List.cons_append] at hs
    cases n with
    | zero => exact .fuel
    | succ n =>
      rw [parsepipe]
      refine (ih n s _ (.inr rfl) hs).bind fun r hr => ?_
      dsimp only
      rw [if_pos (hr.peek_sym (by decide)), drop_bind]
      exact (ih' n _ k hk hbar hr.drop).bind fun r' hr' => .ok hr'
  | lineOne _ ih =>
    intro n s k hk hs
    rw [List.append_assoc] at hs
    cases n with
    | zero => exact .fuel
    | succ n =>
      have hsemi : starts [';'] k = false := by
        rcases hk with rfl | hk
        · rfl
        · exact starts_disjoint hk (by decide)
      rw [parseline]
      have hend : k = [] ∨ starts [')', ';'] k = true := hk.imp id fun hk => starts_mono hk (by decide)
      refine pipe_backs_gives ih hend n hs fun r hr => ?_
      dsimp only
      rw [hr.peek (by decide), hsemi]
      exact .ok hr.skip
  | line _ _ ih ih' =>
    intro n s k hk hs
    rw [List.append_assoc, List.append_assoc, List.cons_append] at hs
    cases n with
    | zero => exact .fuel
    | succ n =>
      rw [parseline]
      refine pipe_backs_gives ih (.inr rfl) n hs fun r hr => ?_
      dsimp only
      rw [if_pos (hr.peek_sym (by decide)), drop_bind]
      exact (ih' n _ k hk hr.drop).bind fun r' hr' => .ok hr'

end

/-- **A tokenizer that knows all operators** makes the parser of the grammar. -/
theorem parse_full (s : List Char) (t : Cmd) : parse full s = .ok t ↔ Grammar s t := by
  rw [parse_ok]
  constructor
  · rintro ⟨r, hline, hend⟩
    obtain ⟨ts, hts⟩ := Tokens.exists s
    obtain ⟨ts₁, k, rfl, hk, hd⟩ := (parse_reads _ hts).1 t r hline
    rw [hk.end_iff.1 hend, List.append_nil] at hts
    exact ⟨ts₁, hts, hd⟩
  · rintro ⟨ts, hts, hd⟩
    rw [← List.append_nil ts] at hts
    rcases hd.complete (4 * s.length + 5) s [] (.inl rfl) hts with hfuel | ⟨r, hline, hr⟩
    · obtain ⟨p, hp⟩ := ((parse_ends_all operators _ s).1 (Nat.le_refl _)).1 _ hfuel
      cases hp
    · exact ⟨r, hline, hr.end_iff.2 rfl⟩

/-! ## The tokenizer of the source -/

/-- The tokenizer of the source, where it and one that knows all operators read the same. -/
def guarded : Lexer where
  get s := if gettoken symbols s = gettoken operators s then .ok (gettoken symbols s) else .error .mismatch
  drop s := if (gettoken symbols s).2 = (gettoken operators s).2 then .ok (gettoken symbols s).2 else .error .mismatch

/-- Two parsers do the same, unless the first one found a difference. -/
def Agree (x y : Except Err α) : Prop := x = .error .mismatch ∨ x = y

theorem Agree.refl (x : Except Err α) : Agree x x := .inr rfl

theorem Agree.bind {x y : Except Err α} {f g : α → Except Err β} (h : Agree x y) (hf : ∀ a, Agree (f a) (g a)) :
    Agree (x >>= f) (y >>= g) := by
  rcases h with rfl | rfl
  · exact .inl rfl
  · cases x with
    | error e => exact .refl _
    | ok a => exact hf a

theorem Agree.ite {c : Prop} [Decidable c] {x y x' y' : Except Err α} (h : Agree x y) (h' : Agree x' y') :
    Agree (if c then x else x') (if c then y else y') := by
  split
  · exact h
  · exact h'

/-- What a tokenizer has to do to agree with another. -/
structure Lexer.Agrees (L M : Lexer) : Prop where
  get : ∀ s, Agree (L.get s) (M.get s)
  drop : ∀ s, Agree (L.drop s) (M.drop s)

theorem guarded_symbols : guarded.Agrees (lexer symbols) := by
  refine ⟨fun s => ?_, fun s => ?_⟩
  · show Agree (if _ then _ else _) _
    split
    · exact .refl _
    · exact .inl rfl
  · show Agree (if _ then _ else _) _
    split
    · exact .refl _
    · exact .inl rfl

theorem guarded_full : guarded.Agrees full := by
  refine ⟨fun s => ?_, fun s => ?_⟩
  · show Agree (if _ then _ else _) _
    split
    · next heq => exact .inr (congrArg Except.ok heq)
    · exact .inl rfl
  · show Agree (if _ then _ else _) _
    split
    · next heq => exact .inr (congrArg Except.ok heq)
    · exact .inl rfl

section

variable {L M : Lexer} (h : L.Agrees M)

include h

theorem parseredirs_agree (n : Nat) : ∀ (rs : List Redir) (s : List Char), Agree (parseredirs L n rs s) (parseredirs M n rs s) := by
  induction n with
  | zero => exact fun _ _ => .refl _
  | succ n ih =>
    intro rs s
    refine .ite ((h.get _).bind fun p => (h.get _).bind fun q => ?_) (.refl _)
    split
    · exact ih _ _
    · exact .refl _

theorem parseargs_agree (n : Nat) : ∀ (argv : List Word) (rs : List Redir) (s : List Char),
    Agree (parseargs L n argv rs s) (parseargs M n argv rs s) := by
  induction n with
  | zero => exact fun _ _ _ => .refl _
  | succ n ih =>
    intro argv rs s
    refine .ite (.refl _) ((h.get _).bind fun p => ?_)
    split
    · exact .refl _
    · exact .ite (.refl _) ((parseredirs_agree h n _ _).bind fun q => ih _ _ _)
    · exact .refl _

theorem parsebacks_agree (n : Nat) : ∀ (cmd : Cmd) (s : List Char), Agree (parsebacks L n cmd s) (parsebacks M n cmd s) := by
  induction n with
  | zero => exact fun _ _ => .refl _
  | succ n ih => exact fun cmd s => .ite ((h.drop _).bind fun r => ih _ _) (.refl _)

theorem parse_agree_all (n : Nat) : ∀ s : List Char,
    Agree (parseline L n s) (parseline M n s) ∧ Agree (parsepipe L n s) (parsepipe M n s) ∧
      Agree (parseexec L n s) (parseexec M n s) ∧ Agree (parseblock L n s) (parseblock M n s) := by
  induction n with
  | zero => exact fun _ => ⟨.refl _, .refl _, .refl _, .refl _⟩
  | succ n ih =>
    intro s
    rw [parseline, parseline, parsepipe, parsepipe, parseexec, parseexec, parseblock, parseblock]
    refine ⟨?_, ?_, ?_, ?_⟩
    · refine (ih s).2.1.bind fun p => (parsebacks_agree h n _ _).bind fun q => ?_
      exact .ite ((h.drop _).bind fun r => (ih _).1.bind fun u => .refl _) (.refl _)
    · refine (ih s).2.2.1.bind fun p => ?_
      exact .ite ((h.drop _).bind fun r => (ih _).2.1.bind fun u => .refl _) (.refl _)
    · exact .ite (ih _).2.2.2 ((parseredirs_agree h n _ _).bind fun p => parseargs_agree h n _ _ _)
    · refine .ite ((h.drop _).bind fun r => (ih _).1.bind fun p => ?_) (.refl _)
      exact .ite ((h.drop _).bind fun r => (parseredirs_agree h n _ _).bind fun q => .refl _) (.refl _)

theorem parse_agree (s : List Char) : Agree (parse L s) (parse M s) :=
  (parse_agree_all h _ s).1.bind fun _ => .refl _

end

/-- What is asked of the parser on a line: it returns the tree of the grammar, and panics if there is none. -/
def ParsesGrammar (s : List Char) : Prop :=
  (∀ t, parsecmd s = .ok t ↔ Grammar s t) ∧ ((∀ t, ¬Grammar s t) → ∃ p, parsecmd s = .error (.panic p))

/-- **The parser of the source** always ends, and parses the grammar on every line where no token that it reads would be
another one if `gettoken` knew the parentheses. -/
theorem parsecmd_right (s : List Char) : ((∃ t, parsecmd s = .ok t) ∨ ∃ p, parsecmd s = .error (.panic p)) ∧
    (parse guarded s ≠ .error .mismatch → ParsesGrammar s) := by
  refine ⟨parse_ends symbols s, fun hguard => ?_⟩
  have hsymbols := (parse_agree guarded_symbols s).resolve_left hguard
  have hfull := (parse_agree guarded_full s).resolve_left hguard
  have heq : parsecmd s = parse full s := hsymbols.symm.trans hfull
  refine ⟨fun t => ?_, fun hnone => ?_⟩
  · rw [heq]
    exact parse_full s t
  · rcases parse_ends symbols s with ⟨t, ht⟩ | hpanic
    · exact absurd ((parse_full s t).1 (heq.symm.trans ht)) (hnone t)
    · exact hpanic

/-- A block with blanks around its parentheses. -/
theorem parsecmd_right_block : ParsesGrammar "( ls ) > f; cat <a b |wc &".toList :=
  (parsecmd_right _).2 (by decide +kernel)

/-- Without the blanks the block is lost: the line is one of the grammar, and the parser panics. -/
theorem not_parsesGrammar : Grammar "(ls)".toList (.exec ["ls".toList]) ∧
    parsecmd "(ls)".toList = .error (.panic .missingParen) ∧ ¬ParsesGrammar "(ls)".toList := by
  have hgrammar : Grammar "(ls)".toList (.exec ["ls".toList]) := (parse_full _ _).1 (by decide +kernel)
  have hpanic : parsecmd "(ls)".toList = .error (.panic .missingParen) := by decide +kernel
  refine ⟨hgrammar, hpanic, fun h => ?_⟩
  have hparse := (h.1 _).2 hgrammar
  rw [hpanic] at hparse
  cases hparse

end NewXv6.Sh
