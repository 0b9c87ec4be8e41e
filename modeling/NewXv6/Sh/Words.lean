import NewXv6.Sh.Parse
import NewXv6.Lib.Buffer
import Mathlib.Data.List.Pairwise

/-!
# The words of a line (`sh.c`)

`gettoken` records a word by its start `q` and its end `eq` in the line, and `nulterminate` writes a NUL at the end of every
word once the line is parsed. A pointer into the line is what is left of the line there, as in the parser. Over the tokenizer
`pointers` the parser records `q` for each word; `eq` is then `wordEnd q`.

A word is recorded between two places of `*ps` (`Recorded`), so that words are apart, and the character at the end of a word is
no character of a word: no NUL is written into a word (`words_survive`).
-/

namespace NewXv6.Sh

open Lib Buffer

/-! ## Pointers -/

/-- The characters from `q` to `eq`. -/
def text (q : Word) : Word := q.takeWhile (plain symbols)

/-- `eq` of the word at `q`. -/
def wordEnd (q : Word) : Word := q.dropWhile (plain symbols)

/-- `gettoken`, with `q` for a word. -/
def gettokenAt (s : List Char) : Option Token × List Char :=
  match gettoken symbols s with
  | (some (.word _), r) => (some (.word (skip s)), r)
  | (tok, r) => (tok, r)

def pointers : Lexer where
  get s := .ok (gettokenAt s)
  drop s := .ok (gettokenAt s).2

/-- The words of a command, in the order of `nulterminate`. -/
def Cmd.words : Cmd → List Word
  | .exec argv => argv
  | .redir cmd r => cmd.words ++ [r.file]
  | .pipe left right => left.words ++ right.words
  | .list left right => left.words ++ right.words
  | .back cmd => cmd.words

section

-- The line, and its address.
variable (line : List Char) (a : Nat)

/-- The address of a pointer into the line. -/
def addr (p : List Char) : Nat := a + (line.length - p.length)

/-- `nulterminate`, over the bytes of the memory. -/
def nulterminate : Cmd → (Nat → Char) → Nat → Char
  | .exec argv, mem => argv.foldl (fun mem q => Function.update mem (addr line a (wordEnd q)) '\x00') mem
  | .redir cmd r, mem => Function.update (nulterminate cmd mem) (addr line a (wordEnd r.file)) '\x00'
  | .pipe left right, mem => nulterminate right (nulterminate left mem)
  | .list left right, mem => nulterminate right (nulterminate left mem)
  | .back cmd, mem => nulterminate cmd mem

end

/-- A string with its NUL stands in memory at `a`. -/
structure CString (mem : Nat → Char) (a : Nat) (w : List Char) : Prop where
  chars : At mem a w
  inside : '\x00' ∉ w
  nul : mem (a + w.length) = '\x00'

/-- The word at `q` ends before `q'`, or at `q'`. -/
def Before (q q' : Word) : Prop := q' <:+ wordEnd q

def Apart (q q' : Word) : Prop := Before q q' ∨ Before q' q

instance : Std.Symm Apart := ⟨fun _ _ => Or.symm⟩

/-- The words of each command are in order, and `argv` has room for its last entry, the 0. -/
def Cmd.Ordered : Cmd → Prop
  | .exec argv => argv.Pairwise Before ∧ argv.length < MAXARGS
  | .redir cmd _ => cmd.Ordered
  | .pipe left right => left.Ordered ∧ right.Ordered
  | .list left right => left.Ordered ∧ right.Ordered
  | .back cmd => cmd.Ordered

variable {s r p q q' : List Char} {w w' : Word} {ws ws' : List Word} {t cmd : Cmd} {rs : List Redir} {mem : Nat → Char}
  {line : List Char} {a i : Nat}

/-! ## A word -/

/-- What is left of the line is always an end of it, so that a place in the line is known by its rest. -/
theorem skip_suffix (s : List Char) : skip s <:+ s := List.dropWhile_suffix _

theorem wordEnd_suffix (q : Word) : wordEnd q <:+ q := List.dropWhile_suffix _

/-- A word and what stands behind it. -/
theorem text_append (q : Word) : text q ++ wordEnd q = q := List.takeWhile_append_dropWhile

theorem dropWhile_head {f : Char → Bool} {c : Char} {cs : List Char} (h : s.dropWhile f = c :: cs) : f c = false := by
  have hne : s.dropWhile f ≠ [] := by
    rw [h]
    exact List.cons_ne_nil _ _
  have hhead := List.head_dropWhile_not f hne
  simp only [h, List.head_cons] at hhead
  exact hhead

/-- A word does not go on behind its end. -/
theorem text_wordEnd (q : Word) : text (wordEnd q) = [] := by
  rcases h : wordEnd q with _ | ⟨c, cs⟩
  · rfl
  · exact List.takeWhile_cons_of_neg (Bool.eq_false_iff.1 (dropWhile_head h))

/-- What `gettoken` does with a word. -/
theorem gettoken_word (h : gettoken symbols s = (some (.word w), r)) :
    w = text (skip s) ∧ w ≠ [] ∧ r = skip (wordEnd (skip s)) := by
  unfold gettoken at h
  split at h
  · cases h
  · next c cs heq =>
    split at h
    · cases h
    · split at h
      · cases h
      · next hsym =>
        cases h
        have hplain : plain symbols c = true := by
          rw [plain, dropWhile_head heq, Bool.eq_false_iff.2 hsym]
          rfl
        rw [heq]
        refine ⟨?_, List.cons_ne_nil _ _, ?_⟩
        · rw [text, List.takeWhile_cons_of_pos hplain]
        · rw [wordEnd, List.dropWhile_cons_of_pos hplain]

/-- `gettoken` goes on in the line. -/
theorem gettoken_suffix (s : List Char) : (gettoken symbols s).2 <:+ s := by
  unfold gettoken
  split
  · exact List.nil_suffix
  · next c cs heq =>
    have hskip : c :: cs <:+ s := heq ▸ skip_suffix s
    have hcs : cs <:+ s := (List.suffix_cons c cs).trans hskip
    split
    · exact ((skip_suffix _).trans (List.tail_suffix cs)).trans hcs
    · split
      · exact (skip_suffix cs).trans hcs
      · exact ((skip_suffix _).trans (List.dropWhile_suffix _)).trans hcs

/-- The parser with places reads the same part of the line. -/
theorem gettokenAt_snd (s : List Char) : (gettokenAt s).2 = (gettoken symbols s).2 := by
  unfold gettokenAt
  split
  · next heq => rw [heq]
  · next heq => rw [heq]

theorem gettokenAt_suffix (s : List Char) : (gettokenAt s).2 <:+ s := gettokenAt_snd s ▸ gettoken_suffix s

/-- The place of a word is in the line, the word is not empty, and the parser goes on behind it. -/
theorem gettokenAt_word (h : gettokenAt s = (some (.word q), r)) : q <:+ s ∧ text q ≠ [] ∧ r <:+ wordEnd q := by
  unfold gettokenAt at h
  split at h
  · next w r' heq =>
    cases h
    obtain ⟨hw, hne, hr⟩ := gettoken_word heq
    exact ⟨skip_suffix s, hw ▸ hne, hr ▸ skip_suffix _⟩
  · next hno heq =>
    cases h
    exact (hno q rfl).elim

/-! ## Words between two places -/

/-- The words `ws` have been recorded between `s` and `r`. -/
structure Recorded (s : List Char) (ws : List Word) (r : List Char) : Prop where
  rest : r <:+ s
  start : ∀ q ∈ ws, q <:+ s
  stop : ∀ q ∈ ws, r <:+ wordEnd q
  word : ∀ q ∈ ws, text q ≠ []
  apart : ws.Pairwise Apart

theorem Recorded.nil (h : r <:+ s) : Recorded s [] r where
  rest := h
  start _ hq := by cases hq
  stop _ hq := by cases hq
  word _ hq := by cases hq
  apart := .nil

theorem Recorded.single (h : gettokenAt s = (some (.word q), r)) : Recorded s [q] r := by
  obtain ⟨hq, hne, hr⟩ := gettokenAt_word h
  refine ⟨(hr.trans (wordEnd_suffix q)).trans hq, ?_, ?_, ?_, List.pairwise_singleton _ _⟩
  · exact List.forall_mem_singleton.2 hq
  · exact List.forall_mem_singleton.2 hr
  · exact List.forall_mem_singleton.2 hne

/-- Words of two parts of the line, one after the other. -/
theorem Recorded.append (h : Recorded s ws r) (h' : Recorded r ws' p) : Recorded s (ws ++ ws') p where
  rest := h'.rest.trans h.rest
  start := List.forall_mem_append.2 ⟨h.start, fun q hq => (h'.start q hq).trans h.rest⟩
  stop := List.forall_mem_append.2 ⟨fun q hq => h'.rest.trans (h.stop q hq), h'.stop⟩
  word := List.forall_mem_append.2 ⟨h.word, h'.word⟩
  apart := List.pairwise_append.2 ⟨h.apart, h'.apart, fun q hq q' hq' => Or.inl ((h'.start q' hq').trans (h.stop q hq))⟩

/-- The order in which words are recorded does not matter. -/
theorem Recorded.perm (h : Recorded s ws r) (hperm : ws.Perm ws') : Recorded s ws' r where
  rest := h.rest
  start q hq := h.start q (hperm.mem_iff.2 hq)
  stop q hq := h.stop q (hperm.mem_iff.2 hq)
  word q hq := h.word q (hperm.mem_iff.2 hq)
  apart := (hperm.pairwise_iff Or.symm).1 h.apart

/-- Words of an end of the line. -/
theorem Recorded.from_suffix (h : Recorded s ws r) (hs : s <:+ p) : Recorded p ws r := (Recorded.nil hs).append h

theorem Recorded.to_suffix (h : Recorded s ws r) (hp : p <:+ r) : Recorded s ws p := by
  have := h.append (.nil hp)
  rwa [List.append_nil] at this

/-! ## The parser -/

theorem at_bind {α : Type} {f : Option Token × List Char → Except Err α} : (pointers.get s >>= f) = f (gettokenAt s) := rfl

theorem at_drop {α : Type} {f : List Char → Except Err α} : (pointers.drop s >>= f) = f (gettokenAt s).2 := rfl

theorem drop_suffix (s : List Char) : (gettokenAt (skip s)).2 <:+ s := (gettokenAt_suffix _).trans (skip_suffix s)

/-- The words of a command with redirections. -/
theorem wrap_words (cmd : Cmd) (rs : List Redir) : (wrap cmd rs).words = cmd.words ++ rs.map Redir.file := by
  induction rs generalizing cmd with
  | nil => exact (List.append_nil _).symm
  | cons r rs ih =>
    show (wrap (.redir cmd r) rs).words = _
    rw [ih, Cmd.words, List.append_assoc]
    rfl

/-- A redirection does not change the order of the arguments. -/
theorem wrap_ordered (cmd : Cmd) (rs : List Redir) : (wrap cmd rs).Ordered ↔ cmd.Ordered := by
  induction rs generalizing cmd with
  | nil => exact Iff.rfl
  | cons r rs ih => exact ih (.redir cmd r)

/-- `>` and its kind record the word behind them, anything else none. -/
theorem redirOf_files (tok : Option Token) (w : Word) :
    (redirOf tok w).map Redir.file = [] ∨ (redirOf tok w).map Redir.file = [w] := by
  cases tok with
  | none => exact Or.inl rfl
  | some tok =>
    cases tok with
    | append => exact Or.inr rfl
    | word _ => exact Or.inl rfl
    | sym c =>
      have hsym : redirOf (some (.sym c)) w =
          if c = '<' then [⟨w, .rdonly, 0⟩] else if c = '>' then [⟨w, .wronlyCreate, 1⟩] else [] := rfl
      rw [hsym]
      split
      · exact Or.inr rfl
      · split
        · exact Or.inr rfl
        · exact Or.inl rfl

/-- `parseredirs` records the files in the order they stand in. -/
theorem redirs_recorded (n : Nat) : ∀ {rs rs' : List Redir} {s r : List Char},
    parseredirs pointers n rs s = .ok (rs', r) →
    ∃ new, rs' = rs ++ new ∧ Recorded s (new.map Redir.file) r := by
  induction n with
  | zero => exact nofun
  | succ n ih =>
    intro rs rs' s r h
    rw [parseredirs] at h
    split at h
    · rw [at_bind] at h
      have hs₁ := drop_suffix s
      rcases hget : gettokenAt (skip s) with ⟨tok, s₁⟩
      rw [hget] at h hs₁
      dsimp only at h hs₁
      rw [at_bind] at h
      rcases hget₂ : gettokenAt s₁ with ⟨_ | _ | _ | file, s₂⟩
      · rw [hget₂] at h
        cases h
      · rw [hget₂] at h
        cases h
      · rw [hget₂] at h
        cases h
      · rw [hget₂] at h
        obtain ⟨new, rfl, hnew⟩ := ih h
        have hfile : Recorded s ((redirOf tok file).map Redir.file) s₂ := by
          have hsingle := (Recorded.single hget₂).from_suffix hs₁
          rcases redirOf_files tok file with hempty | hone
          · rw [hempty]
            exact .nil hsingle.rest
          · rw [hone]
            exact hsingle
        refine ⟨redirOf tok file ++ new, List.append_assoc .., ?_⟩
        rw [List.map_append]
        exact hfile.append hnew
    · cases h
      exact ⟨[], (List.append_nil _).symm, .nil (skip_suffix s)⟩

/-- `parseexec` records arguments and files, the arguments in order. -/
theorem args_recorded (n : Nat) : ∀ {argv : List Word} {rs : List Redir} {s r : List Char} {t : Cmd},
    parseargs pointers n argv rs s = .ok (t, r) → argv.length < MAXARGS →
    ∃ args new, t = wrap (.exec (argv ++ args)) (rs ++ new) ∧ Recorded s (args ++ new.map Redir.file) r ∧
      args.Pairwise Before ∧ (argv ++ args).length < MAXARGS := by
  induction n with
  | zero => exact nofun
  | succ n ih =>
    intro argv rs s r t h hlen
    have hnone : ∀ r', r' <:+ s → ∃ args new, wrap (.exec argv) rs = wrap (.exec (argv ++ args)) (rs ++ new) ∧
        Recorded s (args ++ new.map Redir.file) r' ∧ args.Pairwise Before ∧ (argv ++ args).length < MAXARGS := by
      intro r' hr'
      refine ⟨[], [], ?_, .nil hr', .nil, ?_⟩
      · rw [List.append_nil, List.append_nil]
      · rwa [List.append_nil]
    rw [parseargs] at h
    split at h
    · cases h
      exact hnone _ (skip_suffix s)
    · rw [at_bind] at h
      have hdrop := drop_suffix s
      rcases hget : gettokenAt (skip s) with ⟨_ | _ | _ | q, s₁⟩
      · rw [hget] at h hdrop
        cases h
        exact hnone _ hdrop
      · rw [hget] at h
        cases h
      · rw [hget] at h
        cases h
      · rw [hget] at h
        dsimp only at h
        split at h
        · cases h
        · next hmax =>
          obtain ⟨⟨rs₁, s₂⟩, hredirs, h⟩ := bind_ok.1 h
          obtain ⟨new, rfl, hnew⟩ := redirs_recorded n hredirs
          have hlen' : (argv ++ [q]).length < MAXARGS := by
            rw [List.length_append, List.length_singleton]
            omega
          obtain ⟨args, new', rfl, hargs, hbefore, hroom⟩ := ih h hlen'
          have hq := (Recorded.single hget).from_suffix (skip_suffix s)
          refine ⟨q :: args, new ++ new', ?_, ?_, ?_, ?_⟩
          · rw [List.append_assoc, List.append_assoc]
            rfl
          · refine (hq.append (hnew.append hargs)).perm ?_
            rw [List.map_append, List.singleton_append, List.cons_append]
            exact (List.perm_append_comm_assoc _ _ _).cons q
          · refine List.pairwise_cons.2 ⟨fun q' hq' => ?_, hbefore⟩
            have hstart : q' <:+ s₂ := hargs.start q' (List.mem_append_left _ hq')
            exact (hstart.trans hnew.rest).trans (hq.stop q List.mem_cons_self)
          · rwa [List.append_assoc] at hroom

/-- An `&` has no words. -/
theorem backs_recorded (n : Nat) : ∀ {cmd t : Cmd} {s r : List Char}, parsebacks pointers n cmd s = .ok (t, r) →
    r <:+ s ∧ t.words = cmd.words ∧ (t.Ordered ↔ cmd.Ordered) := by
  induction n with
  | zero => exact nofun
  | succ n ih =>
    intro cmd t s r h
    rw [parsebacks] at h
    split at h
    · rw [at_drop] at h
      obtain ⟨hr, hwords, hordered⟩ := ih h
      exact ⟨hr.trans (drop_suffix s), hwords, hordered⟩
    · cases h
      exact ⟨skip_suffix s, rfl, Iff.rfl⟩

/-- What a call of the parser records. -/
def Parsed (x : Except Err (Cmd × List Char)) (s : List Char) : Prop :=
  ∀ t r, x = .ok (t, r) → Recorded s t.words r ∧ t.Ordered

/-- **Each parser** records words of the part of the line that it takes, by induction on the depth of the parse. -/
theorem parse_recorded (n : Nat) : ∀ s : List Char, Parsed (parseline pointers n s) s ∧ Parsed (parsepipe pointers n s) s ∧
    Parsed (parseexec pointers n s) s ∧ Parsed (parseblock pointers n s) s := by
  induction n with
  | zero => exact fun s => ⟨nofun, nofun, nofun, nofun⟩
  | succ n ih =>
    intro s
    refine ⟨?_, ?_, ?_, ?_⟩
    · intro t r h
      rw [parseline] at h
      obtain ⟨⟨cmd, s₁⟩, hpipe, h⟩ := bind_ok.1 h
      obtain ⟨hcmd, hordered⟩ := (ih s).2.1 cmd s₁ hpipe
      obtain ⟨⟨cmd', s₂⟩, hbacks, h⟩ := bind_ok.1 h
      obtain ⟨hs₂, hwords, hiff⟩ := backs_recorded n hbacks
      have hcmd' : Recorded s cmd'.words s₂ := hwords ▸ hcmd.to_suffix hs₂
      dsimp only at h
      split at h
      · rw [at_drop] at h
        obtain ⟨⟨right, s₃⟩, hline, h⟩ := bind_ok.1 h
        cases h
        obtain ⟨hright, hordered'⟩ := (ih _).1 right s₃ hline
        exact ⟨hcmd'.append (hright.from_suffix (drop_suffix s₂)), hiff.2 hordered, hordered'⟩
      · cases h
        exact ⟨hcmd'.to_suffix (skip_suffix s₂), hiff.2 hordered⟩
    · intro t r h
      rw [parsepipe] at h
      obtain ⟨⟨cmd, s₁⟩, hexec, h⟩ := bind_ok.1 h
      obtain ⟨hcmd, hordered⟩ := (ih s).2.2.1 cmd s₁ hexec
      dsimp only at h
      split at h
      · rw [at_drop] at h
        obtain ⟨⟨right, s₂⟩, hpipe, h⟩ := bind_ok.1 h
        cases h
        obtain ⟨hright, hordered'⟩ := (ih _).2.1 right s₂ hpipe
        exact ⟨hcmd.append (hright.from_suffix (drop_suffix s₁)), hordered, hordered'⟩
      · cases h
        exact ⟨hcmd.to_suffix (skip_suffix s₁), hordered⟩
    · intro t r h
      rw [parseexec] at h
      split at h
      · obtain ⟨hcmd, hordered⟩ := (ih (skip s)).2.2.2 t r h
        exact ⟨hcmd.from_suffix (skip_suffix s), hordered⟩
      · obtain ⟨⟨rs, s₁⟩, hredirs, h⟩ := bind_ok.1 h
        obtain ⟨new, rfl, hnew⟩ := redirs_recorded n hredirs
        obtain ⟨args, new', rfl, hargs, hbefore, hroom⟩ := args_recorded n h (by decide)
        refine ⟨?_, (wrap_ordered _ _).2 ⟨hbefore, hroom⟩⟩
        refine ((hnew.append hargs).from_suffix (skip_suffix s)).perm ?_
        rw [wrap_words, Cmd.words, List.nil_append, List.map_append]
        exact List.perm_append_comm_assoc _ _ _
    · intro t r h
      rw [parseblock] at h
      split at h
      · rw [at_drop] at h
        obtain ⟨⟨cmd, s₁⟩, hline, h⟩ := bind_ok.1 h
        obtain ⟨hcmd, hordered⟩ := (ih _).1 cmd s₁ hline
        dsimp only at h
        split at h
        · rw [at_drop] at h
          obtain ⟨⟨rs, s₂⟩, hredirs, h⟩ := bind_ok.1 h
          obtain ⟨new, rfl, hnew⟩ := redirs_recorded n hredirs
          cases h
          refine ⟨?_, (wrap_ordered _ _).2 hordered⟩
          rw [wrap_words]
          exact (hcmd.from_suffix (drop_suffix s)).append (hnew.from_suffix (drop_suffix s₁))
        · cases h
      · cases h

/-! ## Words and their text -/

def Token.map (f : Word → Word) : Token → Token
  | .sym c => .sym c
  | .append => .append
  | .word w => .word (f w)

def Redir.map (f : Word → Word) (r : Redir) : Redir := { r with file := f r.file }

def Cmd.map (f : Word → Word) : Cmd → Cmd
  | .exec argv => .exec (argv.map f)
  | .redir cmd r => .redir (cmd.map f) (r.map f)
  | .pipe left right => .pipe (left.map f) (right.map f)
  | .list left right => .list (left.map f) (right.map f)
  | .back cmd => .back (cmd.map f)

/-- The token at a place has the text at that place. -/
theorem gettoken_map (s : List Char) :
    gettoken symbols s = ((gettokenAt s).1.map (Token.map text), (gettokenAt s).2) := by
  unfold gettokenAt
  split
  · next w r heq =>
    rw [heq, (gettoken_word heq).1]
    rfl
  · next tok r hno heq =>
    rw [heq]
    rcases tok with _ | _ | _ | w
    · rfl
    · rfl
    · rfl
    · exact (hno w rfl).elim

theorem redirOf_map (tok : Option Token) (w : Word) :
    redirOf (tok.map (Token.map text)) (text w) = (redirOf tok w).map (Redir.map text) := by
  rcases tok with _ | c | _ | _
  · rfl
  · show redirOf (some (.sym c)) (text w) = _
    unfold redirOf
    dsimp only
    split
    · rfl
    · split <;> rfl
  · rfl
  · rfl

theorem wrap_map (cmd : Cmd) (rs : List Redir) : (wrap cmd rs).map text = wrap (cmd.map text) (rs.map (Redir.map text)) := by
  induction rs generalizing cmd with
  | nil => rfl
  | cons r rs ih => exact ih (.redir cmd r)

/-- `parseredirs` with places gives the tree of `parseredirs` with texts. -/
theorem redirs_map (n : Nat) (rs : List Redir) (s : List Char) :
    parseredirs (lexer symbols) n (rs.map (Redir.map text)) s =
      (parseredirs pointers n rs s).map (Prod.map (List.map (Redir.map text)) id) := by
  induction n generalizing rs s with
  | zero => rfl
  | succ n ih =>
    rw [parseredirs, parseredirs]
    split
    · rw [get_bind, at_bind, gettoken_map]
      rcases gettokenAt (skip s) with ⟨tok, s₁⟩
      dsimp only
      rw [get_bind, at_bind, gettoken_map]
      rcases gettokenAt s₁ with ⟨_ | _ | _ | file, s₂⟩
      · rfl
      · rfl
      · rfl
      · show parseredirs (lexer symbols) n (_ ++ redirOf _ (text file)) s₂ = (parseredirs pointers n _ s₂).map _
        rw [redirOf_map, ← List.map_append]
        exact ih (rs ++ redirOf tok file) s₂
    · rfl

/-- `parseexec` does, too. -/
theorem args_map (n : Nat) (argv : List Word) (rs : List Redir) (s : List Char) :
    parseargs (lexer symbols) n (argv.map text) (rs.map (Redir.map text)) s =
      (parseargs pointers n argv rs s).map (Prod.map (Cmd.map text) id) := by
  induction n generalizing argv rs s with
  | zero => rfl
  | succ n ih =>
    rw [parseargs, parseargs]
    split
    · show Except.ok (wrap (Cmd.map text (.exec argv)) _, skip s) = Except.ok ((wrap (.exec argv) rs).map text, skip s)
      rw [wrap_map]
    · rw [get_bind, at_bind, gettoken_map]
      rcases gettokenAt (skip s) with ⟨_ | _ | _ | w, s₁⟩
      · show Except.ok (wrap (Cmd.map text (.exec argv)) _, s₁) = Except.ok ((wrap (.exec argv) rs).map text, s₁)
        rw [wrap_map]
      · rfl
      · rfl
      · show (if (argv.map text).length + 1 ≥ MAXARGS then _ else _) = Except.map _ (if argv.length + 1 ≥ MAXARGS then _ else _)
        rw [List.length_map]
        split
        · rfl
        · rw [redirs_map]
          rcases parseredirs pointers n rs s₁ with e | ⟨rs', s₂⟩
          · rfl
          · show parseargs (lexer symbols) n (argv.map text ++ [text w]) (rs'.map (Redir.map text)) s₂ = _
            rw [← List.map_singleton, ← List.map_append]
            exact ih (argv ++ [w]) rs' s₂

theorem backs_map (n : Nat) (cmd : Cmd) (s : List Char) :
    parsebacks (lexer symbols) n (cmd.map text) s =
      (parsebacks pointers n cmd s).map (Prod.map (Cmd.map text) id) := by
  induction n generalizing cmd s with
  | zero => rfl
  | succ n ih =>
    rw [parsebacks, parsebacks]
    split
    · rw [drop_bind, at_drop, ← gettokenAt_snd]
      exact ih (.back cmd) _
    · rfl

/-- A call of the parser, with the words and with their places. -/
def SameText (x y : Except Err (Cmd × List Char)) : Prop := x = y.map (Prod.map (Cmd.map text) id)

/-- **The parser with places builds the tree of the parser with texts.** -/
theorem parse_same (n : Nat) : ∀ s : List Char,
    SameText (parseline (lexer symbols) n s) (parseline pointers n s) ∧
    SameText (parsepipe (lexer symbols) n s) (parsepipe pointers n s) ∧
    SameText (parseexec (lexer symbols) n s) (parseexec pointers n s) ∧
    SameText (parseblock (lexer symbols) n s) (parseblock pointers n s) := by
  induction n with
  | zero => exact fun _ => ⟨rfl, rfl, rfl, rfl⟩
  | succ n ih =>
    intro s
    refine ⟨?_, ?_, ?_, ?_⟩
    · rw [SameText, parseline, parseline, (ih s).2.1]
      rcases parsepipe pointers n s with e | ⟨cmd, s₁⟩
      · rfl
      · show (parsebacks (lexer symbols) n (cmd.map text) s₁ >>= _) = Except.map _ (parsebacks pointers n cmd s₁ >>= _)
        rw [backs_map]
        rcases parsebacks pointers n cmd s₁ with e | ⟨cmd', s₂⟩
        · rfl
        · show (if peek [';'] s₂ = true then _ else _) = Except.map _ (if peek [';'] s₂ = true then _ else _)
          split
          · rw [id_eq, drop_bind, at_drop, ← gettokenAt_snd, (ih _).1]
            rcases parseline pointers n (gettokenAt (skip s₂)).2 with e | ⟨right, s₃⟩ <;> rfl
          · rfl
    · rw [SameText, parsepipe, parsepipe, (ih s).2.2.1]
      rcases parseexec pointers n s with e | ⟨cmd, s₁⟩
      · rfl
      · show (if peek ['|'] s₁ = true then _ else _) = Except.map _ (if peek ['|'] s₁ = true then _ else _)
        split
        · rw [id_eq, drop_bind, at_drop, ← gettokenAt_snd, (ih _).2.1]
          rcases parsepipe pointers n (gettokenAt (skip s₁)).2 with e | ⟨right, s₂⟩ <;> rfl
        · rfl
    · rw [SameText, parseexec, parseexec]
      split
      · exact (ih (skip s)).2.2.2
      · have hredirs := redirs_map n [] (skip s)
        rw [List.map_nil] at hredirs
        rw [hredirs]
        rcases parseredirs pointers n [] (skip s) with e | ⟨rs, s₁⟩
        · rfl
        · exact args_map n [] rs s₁
    · rw [SameText, parseblock, parseblock]
      split
      · rw [drop_bind, at_drop, ← gettokenAt_snd, (ih _).1]
        rcases parseline pointers n (gettokenAt (skip s)).2 with e | ⟨cmd, s₁⟩
        · rfl
        · show (if peek [')'] s₁ = true then _ else _) = Except.map _ (if peek [')'] s₁ = true then _ else _)
          split
          · have hredirs := redirs_map n [] (gettokenAt (skip s₁)).2
            rw [List.map_nil] at hredirs
            rw [id_eq, drop_bind, at_drop, ← gettokenAt_snd, hredirs]
            rcases parseredirs pointers n [] (gettokenAt (skip s₁)).2 with e | ⟨rs, s₂⟩
            · rfl
            · show Except.ok (wrap (cmd.map text) (rs.map (Redir.map text)), s₂) = Except.ok ((wrap cmd rs).map text, s₂)
              rw [wrap_map]
          · rfl
      · rfl

/-- The words of `parsecmd` are the texts between the recorded places. -/
theorem parsecmd_pointers (line : List Char) : parsecmd line = (parse pointers line).map (Cmd.map text) := by
  have hline := (parse_same (4 * line.length + 5) line).1
  rw [parsecmd, parse, parse, hline]
  rcases parseline pointers (4 * line.length + 5) line with e | ⟨cmd, s⟩
  · rfl
  · show (if skip s = [] then _ else _) = Except.map _ (if skip s = [] then _ else _)
    split <;> rfl

/-! ## The line after `nulterminate` -/

/-- An end of a word that has been cut stays cut. -/
theorem foldl_nul (h : mem i = '\x00' ∨ ∃ q ∈ ws, addr line a (wordEnd q) = i) :
    ws.foldl (fun mem q => Function.update mem (addr line a (wordEnd q)) '\x00') mem i = '\x00' := by
  induction ws generalizing mem with
  | nil =>
    rcases h with h | ⟨q, hq, -⟩
    · exact h
    · cases hq
  | cons q ws ih =>
    refine ih ?_
    rcases h with h | ⟨q', hq', hi⟩
    · by_cases hi : i = addr line a (wordEnd q)
      · exact Or.inl (hi ▸ Function.update_self ..)
      · exact Or.inl ((Function.update_of_ne hi _ _).trans h)
    · rcases List.mem_cons.1 hq' with rfl | hmem
      · exact Or.inl (hi ▸ Function.update_self ..)
      · exact Or.inr ⟨q', hmem, hi⟩

/-- Cutting words writes at their ends only. -/
theorem foldl_other (h : ∀ q ∈ ws, addr line a (wordEnd q) ≠ i) :
    ws.foldl (fun mem q => Function.update mem (addr line a (wordEnd q)) '\x00') mem i = mem i := by
  induction ws generalizing mem with
  | nil => rfl
  | cons q ws ih =>
    refine (ih fun q' hq' => h q' (List.mem_cons_of_mem _ hq')).trans ?_
    exact Function.update_of_ne (Ne.symm (h q List.mem_cons_self)) _ _

/-- A NUL stands at the end of each word. -/
theorem nulterminate_nul (h : mem i = '\x00' ∨ ∃ q ∈ t.words, addr line a (wordEnd q) = i) :
    nulterminate line a t mem i = '\x00' := by
  induction t generalizing mem with
  | exec argv => exact foldl_nul h
  | redir cmd r ih =>
    rw [nulterminate]
    by_cases hi : i = addr line a (wordEnd r.file)
    · exact hi ▸ Function.update_self ..
    · rw [Function.update_of_ne hi]
      refine ih ?_
      rcases h with h | ⟨q, hq, hqi⟩
      · exact Or.inl h
      · rcases List.mem_append.1 hq with hq | hq
        · exact Or.inr ⟨q, hq, hqi⟩
        · exact absurd (List.mem_singleton.1 hq ▸ hqi.symm) hi
  | pipe left right ihl ihr | list left right ihl ihr =>
    refine ihr ?_
    rcases h with h | ⟨q, hq, hqi⟩
    · exact Or.inl (ihl (Or.inl h))
    · rcases List.mem_append.1 hq with hq | hq
      · exact Or.inl (ihl (Or.inr ⟨q, hq, hqi⟩))
      · exact Or.inr ⟨q, hq, hqi⟩
  | back cmd ih => exact ih h

/-- No other byte is written. -/
theorem nulterminate_other (h : ∀ q ∈ t.words, addr line a (wordEnd q) ≠ i) : nulterminate line a t mem i = mem i := by
  induction t generalizing mem with
  | exec argv => exact foldl_other h
  | redir cmd r ih =>
    rw [Cmd.words, List.forall_mem_append] at h
    rw [nulterminate, Function.update_of_ne (Ne.symm (h.2 r.file List.mem_cons_self))]
    exact ih h.1
  | pipe left right ihl ihr | list left right ihl ihr =>
    rw [Cmd.words, List.forall_mem_append] at h
    exact (ihr h.2).trans (ihl h.1)
  | back cmd ih => exact ih h

/-- A later place of the line has a higher address. -/
theorem addr_mono (h : q <:+ p) : addr line a p ≤ addr line a q :=
  Nat.add_le_add_left (Nat.sub_le_sub_left h.length_le _) _

/-- A word is cut behind its last character. -/
theorem addr_wordEnd (h : q <:+ line) : addr line a (wordEnd q) = addr line a q + (text q).length := by
  have hlen : (text q).length + (wordEnd q).length = q.length := by rw [← List.length_append, text_append]
  have hq := h.length_le
  unfold addr
  omega

/-- The next word begins behind the character at the end of a word. -/
theorem addr_before (h : Before q q') (hq : q <:+ line) (hword : text q' ≠ []) :
    addr line a (wordEnd q) < addr line a q' := by
  have hle : q'.length ≤ (wordEnd q).length := List.IsSuffix.length_le h
  have hlen : (wordEnd q).length ≤ line.length := ((wordEnd_suffix q).trans hq).length_le
  have hne : q'.length ≠ (wordEnd q).length := by
    intro heq
    -- the character at the end of a word is in no word
    have hsame : q' = wordEnd q := List.IsSuffix.eq_of_length h heq
    exact hword (hsame ▸ text_wordEnd q)
  unfold addr
  omega

/-- A word is in memory where the line is. -/
theorem at_text (hmem : At mem a line) (hq : q <:+ line) : At mem (addr line a q) (text q) := by
  obtain ⟨pre, rfl⟩ := hq
  have hat := (at_append.1 hmem).2
  rw [← text_append q] at hat
  have haddr : addr (pre ++ q) a q = a + pre.length := by
    rw [addr, List.length_append, Nat.add_sub_cancel_right]
  rw [haddr]
  exact (at_append.1 hat).1

/-- What holds of the line, the recorded words and `nulterminate`. -/
structure Survive (line : List Char) (a : Nat) (mem : Nat → Char) (t : Cmd) : Prop where
  inside : ∀ q ∈ t.words, a ≤ addr line a q ∧ addr line a q < addr line a (wordEnd q) ∧
    addr line a (wordEnd q) ≤ a + line.length
  apart : t.words.Pairwise fun q q' => addr line a (wordEnd q) ≤ addr line a q' ∨ addr line a (wordEnd q') ≤ addr line a q
  frame : ∀ i, i < a ∨ a + line.length < i → nulterminate line a t mem i = mem i
  words : ∀ q ∈ t.words, CString (nulterminate line a t mem) (addr line a q) (text q)
  ordered : t.Ordered

/-- Words that were recorded survive the cutting, since no end of a word is in another word. -/
theorem Recorded.survive (h : Recorded line t.words r) (hordered : t.Ordered) (hmem : CString mem a line) :
    Survive line a mem t := by
  have hinside : ∀ q ∈ t.words, a ≤ addr line a q ∧ addr line a q < addr line a (wordEnd q) ∧
      addr line a (wordEnd q) ≤ a + line.length := by
    intro q hq
    have hlen : 0 < (text q).length := List.length_pos_iff.2 (h.word q hq)
    refine ⟨Nat.le_add_right _ _, ?_, Nat.add_le_add_left (Nat.sub_le _ _) _⟩
    rw [addr_wordEnd (h.start q hq)]
    omega
  refine ⟨hinside, ?_, ?_, ?_, hordered⟩
  · refine h.apart.imp fun hor => ?_
    rcases hor with hor | hor
    · exact Or.inl (addr_mono hor)
    · exact Or.inr (addr_mono hor)
  · intro i hi
    refine nulterminate_other fun q hq heq => ?_
    have := hinside q hq
    omega
  · intro q hq
    have hend := addr_wordEnd (a := a) (h.start q hq)
    constructor
    case chars =>
      refine (at_text hmem.chars (h.start q hq)).congr fun j hj => nulterminate_other fun q' hq' heq => ?_
      by_cases hsame : q' = q
      · rw [hsame] at heq
        omega
      · rcases h.apart.forall hq' hq hsame with hbefore | hbefore
        · have := addr_before (a := a) hbefore (h.start q' hq') (h.word q hq)
          omega
        · have := addr_before (a := a) hbefore (h.start q hq) (h.word q' hq')
          have := (hinside q' hq').2.1
          omega
    case inside =>
      intro hnul
      exact hmem.inside ((h.start q hq).subset (List.takeWhile_subset _ hnul))
    case nul =>
      rw [← hend]
      exact nulterminate_nul (Or.inr ⟨q, hq, rfl⟩)

/-- **The words of a line survive their termination**: in every line that `parsecmd` accepts, the recorded words are apart and
inside the line, and each is a string of its own once `nulterminate` is done. -/
theorem words_survive (line : List Char) (a : Nat) (mem : Nat → Char) (cmd : Cmd) (hmem : CString mem a line)
    (h : parsecmd line = .ok cmd) : ∃ t, parse pointers line = .ok t ∧ t.map text = cmd ∧ Survive line a mem t := by
  rw [parsecmd_pointers] at h
  rcases hparse : parse pointers line with e | t
  · rw [hparse] at h
    cases h
  · rw [hparse] at h
    refine ⟨t, rfl, Except.ok.inj h, ?_⟩
    obtain ⟨r, hline, -⟩ := parse_ok.1 hparse
    obtain ⟨hrecorded, hordered⟩ := (parse_recorded _ line).1 t r hline
    exact hrecorded.survive hordered hmem

/-- A line with a redirection and no blanks. -/
theorem words_survive_redir : ∃ t, parse pointers "a>b".toList = .ok t ∧
    t.map text = .redir (.exec ["a".toList]) ⟨"b".toList, .wronlyCreate, 1⟩ ∧
    Survive "a>b".toList 0 (fun i => "a>b".toList.getD i '\x00') t := by
  refine words_survive _ _ _ _ ⟨fun j hj => ?_, by decide, rfl⟩ (by decide +kernel)
  show "a>b".toList.getD (0 + j) '\x00' = _
  rw [Nat.zero_add, List.getD_eq_getElem _ _ hj]

end NewXv6.Sh
