import Mathlib.Data.List.Basic

/-!
# File sizes in the Finder (`finder.c`)

`sizeFormat` writes the digits of a size into 12 bytes in the order in which the division gives them: the last digit first
(`putDigits_eq`). It is a size in the usual notation only if the digits are the same read backwards (`sizeFormat_readable`).
-/

namespace NewXv6.Finder

/-- `result[n++] = c;`, or `none` for a write behind the 12 bytes. -/
def put (result : List Char) (c : Char) : Option (List Char) := if result.length < 12 then some (result ++ [c]) else none

/-- `do { result[n++] = (size % 10) + '0'; size /= 10; } while (size != 0);` -/
def putDigits (result : List Char) (size : Nat) : Option (List Char) :=
  (put result (Char.ofNat (size % 10 + 48))).bind fun result =>
    if h : size / 10 = 0 then some result else putDigits result (size / 10)
termination_by size
decreasing_by omega

/-- Several characters, one after the other. -/
def puts : List Char → List Char → Option (List Char)
  | result, [] => some result
  | result, c :: cs => (put result c).bind fun result => puts result cs

/-- The bytes of the string, with its NUL. -/
def sizeFormat (size : Nat) : Option (List Char) :=
  if size > 0x400 then (putDigits [] (size / 0x400)).bind fun result => puts result ['K', 'b', '\x00']
  else (putDigits [] size).bind fun result => puts result ['b', 'y', 't', 'e', '\x00']

/-- The number that is shown. -/
def amount (size : Nat) : Nat := if size ≤ 1024 then size else size / 1024

def unit (size : Nat) : List Char := if size ≤ 1024 then ['b', 'y', 't', 'e'] else ['K', 'b']

/-- The size in the usual notation: the most significant digit first. -/
def readable (size : Nat) : List Char := Nat.toDigits 10 (amount size) ++ unit size

variable {result cs : List Char} {size n : Nat}

theorem put_of_lt (h : result.length < 12) (c : Char) : put result c = some (result ++ [c]) := if_pos h

theorem puts_eq (h : result.length + cs.length ≤ 12) : puts result cs = some (result ++ cs) := by
  induction cs generalizing result with
  | nil => rw [puts, List.append_nil]
  | cons c cs ih =>
    rw [List.length_cons] at h
    rw [puts, put_of_lt (by omega), Option.bind_some, ih, List.append_assoc, List.singleton_append]
    rw [List.length_append, List.length_singleton]
    omega

theorem ofNat_digit (h : n < 10) : Char.ofNat (n + 48) = n.digitChar := by
  revert n
  decide

/-- The digits are written in the order of the division. -/
theorem putDigits_eq (h : result.length + (Nat.toDigits 10 size).length ≤ 12) :
    putDigits result size = some (result ++ (Nat.toDigits 10 size).reverse) := by
  induction size using Nat.strongRecOn generalizing result with
  | ind size ih =>
    have hpos : 0 < (Nat.toDigits 10 size).length := Nat.length_toDigits_pos
    rw [putDigits, put_of_lt (by omega), Option.bind_some, ofNat_digit (Nat.mod_lt size (by decide))]
    split
    · case isTrue hzero =>
      have hlt : size < 10 := by omega
      rw [Nat.mod_eq_of_lt hlt, Nat.toDigits_of_lt_base hlt]
      rfl
    · case isFalse hmore =>
      have hdigits : Nat.toDigits 10 size = Nat.toDigits 10 (size / 10) ++ [(size % 10).digitChar] :=
        Nat.toDigits_of_base_le (by decide) (by omega)
      rw [hdigits, List.length_append, List.length_singleton] at h
      rw [ih (size / 10) (by omega), hdigits, List.reverse_append, List.reverse_singleton, List.append_assoc]
      rw [List.length_append, List.length_singleton]
      omega

/-- A 32-bit size has room with its unit and its NUL. -/
theorem amount_length (h : size < 4294967296) : (Nat.toDigits 10 (amount size)).length ≤ 7 := by
  refine (Nat.length_toDigits_le_iff (by decide) (by decide)).2 ?_
  rw [amount]
  split <;> omega

theorem sizeFormat_eq (h : size < 4294967296) :
    sizeFormat size = some ((Nat.toDigits 10 (amount size)).reverse ++ (unit size ++ ['\x00'])) := by
  have hlen := amount_length h
  rw [sizeFormat, amount, unit] at *
  split
  · case isTrue hlarge =>
    rw [if_neg (by omega)] at hlen ⊢
    rw [if_neg (by omega), putDigits_eq (by rw [List.length_nil]; omega), Option.bind_some, puts_eq]
    · rfl
    · rw [List.nil_append, List.length_reverse]
      simp only [List.length_cons, List.length_nil]
      omega
  · case isFalse hsmall =>
    have hle : size ≤ 1024 := by omega
    have hfour : (Nat.toDigits 10 size).length ≤ 4 := (Nat.length_toDigits_le_iff (by decide) (by decide)).2 (by omega)
    rw [if_pos hle, if_pos hle, putDigits_eq (by rw [List.length_nil]; omega), Option.bind_some, puts_eq]
    · rfl
    · rw [List.nil_append, List.length_reverse]
      simp only [List.length_cons, List.length_nil]
      omega

/-- **Sizes are written within the 12 bytes**, and are readable if and only if their digits are the same read backwards. -/
theorem sizeFormat_readable (size : Nat) (h : size < 4294967296) : (∃ result, sizeFormat size = some result) ∧
    (sizeFormat size = some (readable size ++ ['\x00']) ↔
      (Nat.toDigits 10 (amount size)).reverse = Nat.toDigits 10 (amount size)) := by
  refine ⟨⟨_, sizeFormat_eq h⟩, ?_⟩
  rw [sizeFormat_eq h, readable, Option.some_inj, ← List.append_assoc]
  exact (List.append_left_inj _).trans (List.append_left_inj _)

/-- Sizes whose digits are the same backwards, in bytes and in the larger units, and one whose digits are not. -/
theorem sizeFormat_readable_units : sizeFormat 7 = some (readable 7 ++ ['\x00']) ∧
    sizeFormat 247813 = some (readable 247813 ++ ['\x00']) ∧ sizeFormat 12 ≠ some (readable 12 ++ ['\x00']) :=
  ⟨(sizeFormat_readable 7 (by decide)).2.2 rfl, (sizeFormat_readable 247813 (by decide)).2.2 (by decide),
    fun h => absurd ((sizeFormat_readable 12 (by decide)).2.1 h) (by decide)⟩

/-- A file of 12 bytes is shown with 21. -/
theorem sizeFormat_backwards : ¬∀ size, size < 4294967296 → sizeFormat size = some (readable size ++ ['\x00']) := by
  intro h
  have hdigits := (sizeFormat_readable 12 (by decide)).2.1 (h 12 (by decide))
  revert hdigits
  decide

end NewXv6.Finder
