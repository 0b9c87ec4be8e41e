import Mathlib.Computability.Language

/-!
# The matcher of `grep` (`grep.c`)

A string is the list of its characters, and its end is the 0 of the source. `matchhere` and `matchstar` backtrack; both
end, since `matchhere` goes on in the pattern and `matchstar` in the text.

A pattern is a list of items with a flag on each side (`Pattern`), and has a language: `match_` finds a part of the text that
is in it (`match_iff`).
-/

namespace NewXv6.Grep

/-- `'^'`, `'$'`, `'*'` and `'.'`. -/
@[match_pattern] abbrev caret : UInt8 := 94
@[match_pattern] abbrev dollar : UInt8 := 36
@[match_pattern] abbrev asterisk : UInt8 := 42
abbrev dot : UInt8 := 46

/-- A character of the pattern, and one of the text. -/
def fits (c t : UInt8) : Bool := c = dot ∨ c = t

/-! ## The program -/

mutual

/-- Search for `re` at the beginning of the text. -/
def matchhere : List UInt8 → List UInt8 → Bool
  | [], _ => true
  | c :: asterisk :: re, text => matchstar c re text
  | [dollar], text => text.isEmpty
  | c :: re, t :: text => fits c t && matchhere re text
  | _ :: _, [] => false
termination_by re _ => (re.length, 0)

/-- Search for `c*re` at the beginning of the text. -/
def matchstar (c : UInt8) (re : List UInt8) : List UInt8 → Bool
  | [] => matchhere re []
  | t :: text => matchhere re (t :: text) || (fits c t && matchstar c re text)
termination_by text => (re.length, text.length + 1)

end

/-- The loop of `match`. -/
def matchFrom (re : List UInt8) : List UInt8 → Bool
  | [] => matchhere re []
  | t :: text => matchhere re (t :: text) || matchFrom re text

def match_ (re text : List UInt8) : Bool :=
  match re with
  | caret :: re => matchhere re text
  | re => matchFrom re text

/-! ## The patterns -/

/-- A character, or any number of it. -/
inductive Item
  | one (c : UInt8)
  | star (c : UInt8)

structure Pattern where
  /-- It has a `'^'` in front. -/
  first : Bool
  items : List Item
  /-- It has a `'$'` at the end. -/
  last : Bool

/-- The items, and whether there is a `'$'` behind them. -/
def readItems : List UInt8 → List Item × Bool
  | [] => ([], false)
  | c :: asterisk :: re => (.star c :: (readItems re).1, (readItems re).2)
  | [dollar] => ([], true)
  | c :: re => (.one c :: (readItems re).1, (readItems re).2)

def readPattern (re : List UInt8) : Pattern :=
  match re with
  | caret :: re => ⟨true, (readItems re).1, (readItems re).2⟩
  | re => ⟨false, (readItems re).1, (readItems re).2⟩

/-- The texts of one character that `c` stands for. -/
def charLang (c : UInt8) : Language UInt8 := {w | ∃ t, fits c t = true ∧ w = [t]}

/-- The texts of an item. -/
def Item.lang : Item → Language UInt8
  | .one c => charLang c
  | .star c => KStar.kstar (charLang c)

/-- The texts of a list of items. -/
def lang (items : List Item) : Language UInt8 := (items.map Item.lang).prod

/-- The text has a part in the language of the pattern. -/
def Pattern.Matches (p : Pattern) (text : List UInt8) : Prop :=
  ∃ before w after, text = before ++ (w ++ after) ∧ (p.first = true → before = []) ∧ w ∈ lang p.items ∧
    (p.last = true → after = [])

/-! ## The language -/

section Lang

variable {c : UInt8} {items : List Item} {w : List UInt8}

@[simp] theorem mem_lang_nil : w ∈ lang [] ↔ w = [] := Iff.rfl

theorem mem_lang_one : w ∈ lang (.one c :: items) ↔ ∃ t v, w = t :: v ∧ fits c t = true ∧ v ∈ lang items := by
  unfold lang
  rw [List.map_cons, List.prod_cons, Language.mem_mul]
  constructor
  · rintro ⟨_, ⟨t, ht, rfl⟩, v, hv, rfl⟩
    exact ⟨t, v, rfl, ht, hv⟩
  · rintro ⟨t, v, rfl, ht, hv⟩
    exact ⟨[t], ⟨t, ht, rfl⟩, v, hv, rfl⟩

/-- Any number of characters that fit. -/
theorem mem_star : w ∈ Item.lang (.star c) ↔ ∀ t ∈ w, fits c t = true := by
  rw [Item.lang, Language.mem_kstar]
  constructor
  · rintro ⟨ws, rfl, hws⟩ t ht
    obtain ⟨u, hu, htu⟩ := List.mem_flatten.1 ht
    obtain ⟨t', ht', rfl⟩ := hws u hu
    rw [List.mem_singleton.1 htu]
    exact ht'
  · intro h
    refine ⟨w.map fun t => [t], (List.flatMap_singleton' w).symm, fun u hu => ?_⟩
    obtain ⟨t, ht, rfl⟩ := List.mem_map.1 hu
    exact ⟨t, h t ht, rfl⟩

theorem mem_lang_star : w ∈ lang (.star c :: items) ↔
    ∃ u v, w = u ++ v ∧ (∀ t ∈ u, fits c t = true) ∧ v ∈ lang items := by
  unfold lang
  rw [List.map_cons, List.prod_cons, Language.mem_mul]
  constructor
  · rintro ⟨u, hu, v, hv, rfl⟩
    exact ⟨u, v, rfl, mem_star.1 hu, hv⟩
  · rintro ⟨u, v, rfl, hu, hv⟩
    exact ⟨u, mem_star.2 hu, v, hv, rfl⟩

end Lang

/-! ## The matcher -/

section Match

variable {re text : List UInt8} {c : UInt8}

/-- `matchstar` takes some characters that fit, and goes on with the pattern. -/
theorem matchstar_iff (c : UInt8) (re text : List UInt8) : matchstar c re text = true ↔
    ∃ u rest, text = u ++ rest ∧ (∀ t ∈ u, fits c t = true) ∧ matchhere re rest = true := by
  induction text with
  | nil =>
    rw [matchstar]
    constructor
    · exact fun h => ⟨[], [], rfl, fun _ ht => absurd ht List.not_mem_nil, h⟩
    · rintro ⟨u, rest, hnil, -, h⟩
      obtain ⟨rfl, rfl⟩ := List.append_eq_nil_iff.1 hnil.symm
      exact h
  | cons t text ih =>
    rw [matchstar, Bool.or_eq_true, Bool.and_eq_true, ih]
    constructor
    · rintro (h | ⟨ht, u, rest, rfl, hu, h⟩)
      · exact ⟨[], t :: text, rfl, fun _ ht => absurd ht List.not_mem_nil, h⟩
      · refine ⟨t :: u, rest, rfl, fun t' ht' => ?_, h⟩
        rcases List.mem_cons.1 ht' with rfl | ht'
        · exact ht
        · exact hu t' ht'
    · rintro ⟨u, rest, hsplit, hu, h⟩
      cases u with
      | nil =>
        rw [List.nil_append] at hsplit
        rw [← hsplit] at h
        exact Or.inl h
      | cons t' u =>
        obtain ⟨rfl, rfl⟩ := List.cons_eq_cons.1 hsplit
        exact Or.inr ⟨hu t List.mem_cons_self, u, rest, rfl, fun t' ht' => hu t' (List.mem_cons_of_mem _ ht'), h⟩

/-- **`matchhere`** finds a text of the items at the beginning. -/
theorem matchhere_iff (re : List UInt8) : ∀ text, matchhere re text = true ↔
    ∃ w after, text = w ++ after ∧ w ∈ lang (readItems re).1 ∧ ((readItems re).2 = true → after = []) := by
  induction re using readItems.induct with
  | case1 =>
    intro text
    rw [matchhere, readItems]
    exact iff_of_true rfl ⟨[], text, rfl, rfl, nofun⟩
  | case2 c re ih =>
    intro text
    rw [matchhere, readItems, matchstar_iff]
    constructor
    · rintro ⟨u, rest, rfl, hu, h⟩
      obtain ⟨v, after, rfl, hv, hlast⟩ := (ih rest).1 h
      exact ⟨u ++ v, after, by rw [List.append_assoc], mem_lang_star.2 ⟨u, v, rfl, hu, hv⟩, hlast⟩
    · rintro ⟨w, after, rfl, hw, hlast⟩
      obtain ⟨u, v, rfl, hu, hv⟩ := mem_lang_star.1 hw
      exact ⟨u, v ++ after, by rw [List.append_assoc], hu, (ih _).2 ⟨v, after, rfl, hv, hlast⟩⟩
  | case3 =>
    intro text
    rw [matchhere, readItems, List.isEmpty_iff]
    constructor
    · rintro rfl
      exact ⟨[], [], rfl, rfl, fun _ => rfl⟩
    · rintro ⟨w, after, rfl, hw, hlast⟩
      rw [mem_lang_nil.1 hw, hlast rfl]
      rfl
  | case4 c re hstar hdollar ih =>
    intro text
    rw [readItems.eq_4 c re hstar hdollar]
    cases text with
    | nil =>
      rw [matchhere.eq_5 c re hstar hdollar]
      refine iff_of_false Bool.false_ne_true ?_
      rintro ⟨w, after, hnil, hw, -⟩
      obtain ⟨t, v, rfl, -, -⟩ := mem_lang_one.1 hw
      exact List.cons_ne_nil _ _ hnil.symm
    | cons t text =>
      rw [matchhere.eq_4 c re t text hstar hdollar, Bool.and_eq_true, ih]
      constructor
      · rintro ⟨ht, v, after, rfl, hv, hlast⟩
        exact ⟨t :: v, after, rfl, mem_lang_one.2 ⟨t, v, rfl, ht, hv⟩, hlast⟩
      · rintro ⟨w, after, hsplit, hw, hlast⟩
        obtain ⟨t', v, rfl, ht, hv⟩ := mem_lang_one.1 hw
        obtain ⟨rfl, rfl⟩ := List.cons_eq_cons.1 hsplit
        exact ⟨ht, v, after, rfl, hv, hlast⟩

/-- The loop of `match` looks at every position. -/
theorem matchFrom_iff (re text : List UInt8) : matchFrom re text = true ↔
    ∃ before rest, text = before ++ rest ∧ matchhere re rest = true := by
  induction text with
  | nil =>
    rw [matchFrom]
    constructor
    · exact fun h => ⟨[], [], rfl, h⟩
    · rintro ⟨before, rest, hnil, h⟩
      obtain ⟨rfl, rfl⟩ := List.append_eq_nil_iff.1 hnil.symm
      exact h
  | cons t text ih =>
    rw [matchFrom, Bool.or_eq_true, ih]
    constructor
    · rintro (h | ⟨before, rest, rfl, h⟩)
      · exact ⟨[], t :: text, rfl, h⟩
      · exact ⟨t :: before, rest, rfl, h⟩
    · rintro ⟨before, rest, hsplit, h⟩
      cases before with
      | nil =>
        rw [List.nil_append] at hsplit
        rw [← hsplit] at h
        exact Or.inl h
      | cons t' before =>
        obtain ⟨rfl, rfl⟩ := List.cons_eq_cons.1 hsplit
        exact Or.inr ⟨before, rest, rfl, h⟩

/-- **`match`** finds a part of the text that is in the language of the pattern. -/
theorem match_iff (re text : List UInt8) : match_ re text = true ↔ (readPattern re).Matches text := by
  unfold match_ readPattern
  split
  next re =>
    rw [matchhere_iff]
    constructor
    · rintro ⟨w, after, hsplit, hw, hlast⟩
      exact ⟨[], w, after, hsplit, fun _ => rfl, hw, hlast⟩
    · rintro ⟨before, w, after, hsplit, hfirst, hw, hlast⟩
      rw [hfirst rfl, List.nil_append] at hsplit
      exact ⟨w, after, hsplit, hw, hlast⟩
  next =>
    rw [matchFrom_iff]
    constructor
    · rintro ⟨before, rest, rfl, h⟩
      obtain ⟨w, after, rfl, hw, hlast⟩ := (matchhere_iff _ rest).1 h
      exact ⟨before, w, after, rfl, nofun, hw, hlast⟩
    · rintro ⟨before, w, after, rfl, -, hw, hlast⟩
      exact ⟨before, w ++ after, rfl, (matchhere_iff _ _).2 ⟨w, after, rfl, hw, hlast⟩⟩

end Match

end NewXv6.Grep
