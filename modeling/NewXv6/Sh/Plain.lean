import NewXv6.Sh.Parse

/-!
# The redirections of a command

What the parser returns redirects descriptors 0 and 1 only, which `runcmd` relies on: it closes the descriptor and `open`
takes the lowest that is free (`parsecmd_plain`).
-/

namespace NewXv6.Sh

/-- The redirections are of descriptors 0 and 1. -/
def Cmd.Plain : Cmd → Prop
  | .exec _ => True
  | .redir cmd r => (r.fd = 0 ∨ r.fd = 1) ∧ cmd.Plain
  | .pipe left right => left.Plain ∧ right.Plain
  | .list left right => left.Plain ∧ right.Plain
  | .back cmd => cmd.Plain

/-- What is returned meets `P`. -/
def Yields {α : Type} (P : α → Prop) (x : Except Err (α × List Char)) : Prop := ∀ a r, x = .ok (a, r) → P a

section

variable {α β : Type} {P : α → Prop} {Q : β → Prop}

theorem Yields.ok {a : α} {r : List Char} (h : P a) : Yields P (.ok (a, r)) := by
  rintro _ _ ⟨⟩
  exact h

theorem Yields.error {e : Err} : Yields P (.error e) := by
  rintro _ _ ⟨⟩

theorem Yields.bind {x : Except Err (α × List Char)} {f : α × List Char → Except Err (β × List Char)} (h : Yields P x)
    (hf : ∀ a r, P a → Yields Q (f (a, r))) : Yields Q (x >>= f) := by
  intro b r hb
  obtain ⟨⟨a, r'⟩, hx, hb⟩ := bind_ok.1 hb
  exact hf a r' (h a r' hx) b r hb

theorem Yields.any {x : Except Err α} {f : α → Except Err (β × List Char)} (hf : ∀ a, Yields Q (f a)) :
    Yields Q (x >>= f) := by
  intro b r hb
  obtain ⟨a, -, hb⟩ := bind_ok.1 hb
  exact hf a b r hb

end

/-- Redirections of descriptors 0 and 1. -/
def Plain (rs : List Redir) : Prop := ∀ r ∈ rs, r.fd = 0 ∨ r.fd = 1

theorem plain_nil : Plain [] := fun _ h => absurd h List.not_mem_nil

theorem plain_one {r : Redir} (h : r.fd = 0 ∨ r.fd = 1) : Plain [r] := fun _ hr => List.mem_singleton.1 hr ▸ h

theorem redirOf_plain (tok : Option Token) (file : Word) : Plain (redirOf tok file) := by
  cases tok with
  | none => exact plain_nil
  | some t =>
    cases t with
    | append => exact plain_one (.inr rfl)
    | word w => exact plain_nil
    | sym c =>
      by_cases hin : c = '<'
      · have he : redirOf (some (.sym c)) file = [⟨file, .rdonly, 0⟩] := if_pos hin
        rw [he]
        exact plain_one (.inl rfl)
      · by_cases hout : c = '>'
        · have he : redirOf (some (.sym c)) file = [⟨file, .wronlyCreate, 1⟩] := (if_neg hin).trans (if_pos hout)
          rw [he]
          exact plain_one (.inr rfl)
        · have he : redirOf (some (.sym c)) file = [] := (if_neg hin).trans (if_neg hout)
          rw [he]
          exact plain_nil

theorem wrap_plain {rs : List Redir} (hr : Plain rs) : ∀ {cmd : Cmd}, cmd.Plain → (wrap cmd rs).Plain := by
  induction rs with
  | nil => exact id
  | cons r rs ih =>
    intro cmd hc
    exact ih (fun r' h => hr r' (List.mem_cons_of_mem _ h)) ⟨hr r List.mem_cons_self, hc⟩

variable (L : Lexer)

theorem parseredirs_plain (n : Nat) : ∀ (rs : List Redir) (s : List Char), Plain rs → Yields Plain (parseredirs L n rs s) := by
  induction n with
  | zero => exact fun _ _ _ => .error
  | succ n ih =>
    intro rs s hrs
    rw [parseredirs]
    split
    · refine .any fun p => .any fun q => ?_
      split
      · refine ih _ _ fun r hr => ?_
        obtain hr | hr := List.mem_append.1 hr
        · exact hrs r hr
        · exact redirOf_plain _ _ r hr
      · exact .error
    · exact .ok hrs

theorem parseargs_plain (n : Nat) : ∀ (argv : List Word) (rs : List Redir) (s : List Char), Plain rs →
    Yields Cmd.Plain (parseargs L n argv rs s) := by
  induction n with
  | zero => exact fun _ _ _ _ => .error
  | succ n ih =>
    intro argv rs s hrs
    rw [parseargs]
    split
    · exact .ok (wrap_plain hrs trivial)
    · refine .any fun p => ?_
      split
      · exact .ok (wrap_plain hrs trivial)
      · split
        · exact .error
        · exact (parseredirs_plain L n _ _ hrs).bind fun rs' s' hrs' => ih _ _ _ hrs'
      · exact .error

theorem parsebacks_plain (n : Nat) : ∀ (cmd : Cmd) (s : List Char), cmd.Plain → Yields Cmd.Plain (parsebacks L n cmd s) := by
  induction n with
  | zero => exact fun _ _ _ => .error
  | succ n ih =>
    intro cmd s hc
    rw [parsebacks]
    split
    · exact .any fun s' => ih _ _ hc
    · exact .ok hc

theorem parse_plain (n : Nat) : ∀ s : List Char, Yields Cmd.Plain (parseline L n s) ∧ Yields Cmd.Plain (parsepipe L n s) ∧
    Yields Cmd.Plain (parseexec L n s) ∧ Yields Cmd.Plain (parseblock L n s) := by
  induction n with
  | zero => exact fun _ => ⟨.error, .error, .error, .error⟩
  | succ n ih =>
    intro s
    refine ⟨?_, ?_, ?_, ?_⟩
    · rw [parseline]
      refine (ih s).2.1.bind fun cmd s₁ hc => (parsebacks_plain L n cmd s₁ hc).bind fun cmd s₂ hc => ?_
      dsimp only
      split
      · exact .any fun s₃ => (ih s₃).1.bind fun right s₄ hr => .ok ⟨hc, hr⟩
      · exact .ok hc
    · rw [parsepipe]
      refine (ih s).2.2.1.bind fun cmd s₁ hc => ?_
      dsimp only
      split
      · exact .any fun s₃ => (ih s₃).2.1.bind fun right s₄ hr => .ok ⟨hc, hr⟩
      · exact .ok hc
    · rw [parseexec]
      split
      · exact (ih _).2.2.2
      · exact (parseredirs_plain L n [] _ plain_nil).bind fun rs s₁ hrs => parseargs_plain L n [] rs s₁ hrs
    · rw [parseblock]
      split
      · refine .any fun s₁ => (ih s₁).1.bind fun cmd s₂ hc => ?_
        dsimp only
        split
        · exact .any fun s₃ => (parseredirs_plain L n [] s₃ plain_nil).bind fun rs s₄ hrs => .ok (wrap_plain hrs hc)
        · exact .error
      · exact .error

/-- The parser redirects descriptors 0 and 1 only. -/
theorem parsecmd_plain {line : List Char} {cmd : Cmd} (h : parsecmd line = .ok cmd) : cmd.Plain := by
  obtain ⟨r, hline, -⟩ := parse_ok.1 h
  exact (parse_plain _ _ line).1 cmd r hline

end NewXv6.Sh
