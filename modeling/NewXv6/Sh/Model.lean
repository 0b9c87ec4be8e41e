import Mathlib.Data.List.Basic

/-!
# The shell's parser (`sh.c`, `shell_sh.c`)

The parser reads the characters of a line up to its NUL; what is left of the line is the pointer `*ps`. It is written over the
tokenizer that it uses: `lexer symbols` is `gettoken` with the symbols of the source.
-/

namespace NewXv6.Sh

abbrev Word : Type := List Char

/-- What `gettoken` returns: an operator, `'+'` for `>>`, or `'a'` with the word from `q` to `eq`. -/
inductive Token
  | sym (c : Char)
  | append
  | word (w : Word)
  deriving DecidableEq, Repr

/-- `O_RDONLY`, or `O_WRONLY|O_CREATE`. -/
inductive Mode
  | rdonly
  | wronlyCreate
  deriving DecidableEq, Repr

/-- `file`, `mode` and `fd` of a `struct redircmd`. -/
structure Redir where
  file : Word
  mode : Mode
  fd : Nat
  deriving DecidableEq, Repr

/-- `struct cmd`. -/
inductive Cmd
  | exec (argv : List Word)
  | redir (cmd : Cmd) (r : Redir)
  | pipe (left right : Cmd)
  | list (left right : Cmd)
  | back (cmd : Cmd)
  deriving DecidableEq, Repr

/-- The panics of the parser: `"missing file for redirection"`, `"parseblock"`, `"syntax - missing )"`, `"syntax"` and
`"too many args"`. -/
inductive Panic
  | missingFile
  | parseblock
  | missingParen
  | badSyntax
  | tooManyArgs
  deriving DecidableEq, Repr

/-- A panic, or the bound on the calls was too small; `mismatch` is left to tokenizers that compare two others. -/
inductive Err
  | panic (p : Panic)
  | fuel
  | mismatch
  deriving DecidableEq, Repr

abbrev MAXARGS : Nat := 10

def whitespace : List Char := [' ', '\t', '\r', '\n', '\x0b']

def symbols : List Char := ['<', '|', '>', '&', ';']

/-- Skip blanks. -/
def skip (s : List Char) : List Char := s.dropWhile whitespace.contains

/-- Whether a character goes on with a word. -/
def plain (ops : List Char) (c : Char) : Bool := !whitespace.contains c && !ops.contains c

/-- `gettoken`, with the operators `ops`. -/
def gettoken (ops : List Char) (s : List Char) : Option Token × List Char :=
  match skip s with
  | [] => (none, [])
  | c :: s =>
    if c = '>' ∧ s.head? = some '>' then (some .append, skip s.tail)
    else if ops.contains c then (some (.sym c), skip s)
    else (some (.word (c :: s.takeWhile (plain ops))), skip (s.dropWhile (plain ops)))

/-- What `peek` returns; the blanks are skipped by its callers. -/
def peek (toks : List Char) (s : List Char) : Bool :=
  match skip s with
  | [] => false
  | c :: _ => toks.contains c

/-- A tokenizer: `gettoken`, and `gettoken` where the token is not looked at. -/
structure Lexer where
  get : List Char → Except Err (Option Token × List Char)
  drop : List Char → Except Err (List Char)

def lexer (ops : List Char) : Lexer where
  get s := .ok (gettoken ops s)
  drop s := .ok (gettoken ops s).2

/-- The redirection that `parseredirs` puts around a command. -/
def redirOf : Option Token → Word → List Redir
  | some (.sym c), file =>
    if c = '<' then [⟨file, .rdonly, 0⟩] else if c = '>' then [⟨file, .wronlyCreate, 1⟩] else []
  | some .append, file => [⟨file, .wronlyCreate, 1⟩]
  | _, _ => []

/-- Redirections around a command, the first innermost. -/
def wrap (cmd : Cmd) (rs : List Redir) : Cmd := rs.foldl .redir cmd

section

variable (L : Lexer)

/-- `parseredirs`, with the redirections that are put around its command. -/
def parseredirs : Nat → List Redir → List Char → Except Err (List Redir × List Char)
  | 0, _, _ => .error .fuel
  | n + 1, rs, s =>
    if peek ['<', '>'] s then do
      let (tok, s) ← L.get (skip s)
      match ← L.get s with
      | (some (.word file), s) => parseredirs n (rs ++ redirOf tok file) s
      | _ => .error (.panic .missingFile)
    else .ok (rs, skip s)

/-- The loop of `parseexec`. The arguments are written into a command that has its redirections around it already: here the
redirections are put around it at the end. -/
def parseargs : Nat → List Word → List Redir → List Char → Except Err (Cmd × List Char)
  | 0, _, _, _ => .error .fuel
  | n + 1, argv, rs, s =>
    if peek ['|', ')', '&', ';'] s then .ok (wrap (.exec argv) rs, skip s)
    else do
      match ← L.get (skip s) with
      | (none, s) => .ok (wrap (.exec argv) rs, s)
      | (some (.word w), s) =>
        if argv.length + 1 ≥ MAXARGS then .error (.panic .tooManyArgs)
        else do
          let (rs, s) ← parseredirs L n rs s
          parseargs n (argv ++ [w]) rs s
      | _ => .error (.panic .badSyntax)

/-- The loop of `parseline`. -/
def parsebacks : Nat → Cmd → List Char → Except Err (Cmd × List Char)
  | 0, _, _ => .error .fuel
  | n + 1, cmd, s =>
    if peek ['&'] s then do
      let s ← L.drop (skip s)
      parsebacks n (.back cmd) s
    else .ok (cmd, skip s)

mutual

def parseline : Nat → List Char → Except Err (Cmd × List Char)
  | 0, _ => .error .fuel
  | n + 1, s => do
    let (cmd, s) ← parsepipe n s
    let (cmd, s) ← parsebacks L n cmd s
    if peek [';'] s then do
      let s ← L.drop (skip s)
      let (right, s) ← parseline n s
      return (.list cmd right, s)
    else return (cmd, skip s)

def parsepipe : Nat → List Char → Except Err (Cmd × List Char)
  | 0, _ => .error .fuel
  | n + 1, s => do
    let (cmd, s) ← parseexec n s
    if peek ['|'] s then do
      let s ← L.drop (skip s)
      let (right, s) ← parsepipe n s
      return (.pipe cmd right, s)
    else return (cmd, skip s)

def parseexec : Nat → List Char → Except Err (Cmd × List Char)
  | 0, _ => .error .fuel
  | n + 1, s =>
    if peek ['('] s then parseblock n (skip s)
    else do
      let (rs, s) ← parseredirs L n [] (skip s)
      parseargs L n [] rs s

def parseblock : Nat → List Char → Except Err (Cmd × List Char)
  | 0, _ => .error .fuel
  | n + 1, s =>
    if peek ['('] s then do
      let s ← L.drop (skip s)
      let (cmd, s) ← parseline n s
      if peek [')'] s then do
        let s ← L.drop (skip s)
        let (rs, s) ← parseredirs L n [] s
        return (wrap cmd rs, s)
      else .error (.panic .missingParen)
    else .error (.panic .parseblock)

end

/-- `parsecmd` up to `nulterminate`. -/
def parse (s : List Char) : Except Err Cmd := do
  let (cmd, s) ← parseline L (4 * s.length + 5) s
  if skip s = [] then return cmd else .error (.panic .badSyntax)

end

/-- `parsecmd` of the source. -/
def parsecmd (s : List Char) : Except Err Cmd := parse (lexer symbols) s

example : parsecmd "( ls ) > f; cat <a b |wc &".toList =
    .ok (.list (.redir (.exec ["ls".toList]) ⟨"f".toList, .wronlyCreate, 1⟩)
      (.back (.pipe (.redir (.exec ["cat".toList, "b".toList]) ⟨"a".toList, .rdonly, 0⟩) (.exec ["wc".toList])))) := by
  decide +kernel

end NewXv6.Sh
