import NewXv6.Lib.Buffer
import Mathlib.Data.List.InsertIdx

/-!
# The editor (`editor.c`)

A line is a string of its own in memory: `malloc` succeeds and gives every line its own block. `text` has `MAX_LINE_NUMBER`
pointers, null behind the last line; a run that uses another index of it gives `none`.
-/

namespace NewXv6.Editor

open Lib

abbrev MAX_LINE_NUMBER : Nat := 256
abbrev MAX_LINE_LENGTH : Nat := 256

def newline : UInt8 := 10

/-- The lines that the pointers point to; `none` is null. -/
abbrev Text : Type := Nat → Option (List UInt8)

namespace Text

/-- `text[i]`. -/
def at_ (t : Text) (i : Nat) : Option (Option (List UInt8)) := if i < MAX_LINE_NUMBER then some (t i) else none

/-- `text[i]` with a line in it. -/
def set (t : Text) (i : Nat) (line : Option (List UInt8)) : Text := Function.update t i line

/-- The lines in front of the first null pointer. -/
def toNull (t : Text) : Option (List (Option (List UInt8))) := Buffer.scan Option.isNone t MAX_LINE_NUMBER 0

/-! ## The commands -/

/-- `show_text`, which changes nothing. -/
def show_text (t : Text) : Option Text := t.toNull.map fun _ => t

/-- What a command does at its end. -/
def shown (auto_show : Bool) (t : Text) : Option Text := if auto_show then t.show_text else some t

/-- The loop of `get_line_number`, which gives the index of the first null pointer. -/
def firstNull (t : Text) : Nat → Nat → Nat
  | 0, i => i
  | n + 1, i => if t i = none then i else t.firstNull n (i + 1)

def get_line_number (t : Text) : Int := t.firstNull MAX_LINE_NUMBER 0 - 1

/-- The new line: `extra`, or what `gets` reads without its last character. -/
def content (extra typed : List UInt8) : List UInt8 := if extra = [] then typed.dropLast else extra

/-- A round of the loop of `com_ins`; where `text[i]` is null it gets a new block first. -/
def move (t : Text) (i : Nat) : Text :=
  match t (i - 1) with
  | none => t
  | some line => t.set i (some line)

/-- The loop of `com_ins`. -/
def shift (t : Text) (n : Nat) : Nat → Text
  | 0 => t
  | i + 1 => if n < i + 1 then (t.move (i + 1)).shift n i else t

def com_ins (auto_show : Bool) (t : Text) (n : Int) (extra typed : List UInt8) : Option Text :=
  if n < 0 ∨ t.get_line_number + 1 < n then some t
  else
    let t := t.shift n.toNat (MAX_LINE_NUMBER - 1)
    (t.at_ n.toNat).bind fun line =>
      if line = none then
        if n = 0 then none
        else if t (n.toNat - 1) = some [] then
          ((t.set n.toNat (some [])).set (n.toNat - 1) (some (content extra typed))).shown auto_show
        else (t.set n.toNat (some (content extra typed))).shown auto_show
      else (t.set n.toNat (some (content extra typed))).shown auto_show

def com_mod (auto_show : Bool) (t : Text) (n : Int) (extra typed : List UInt8) : Option Text :=
  if n ≤ 0 ∨ t.get_line_number + 1 < n then some t
  else (t.at_ (n.toNat - 1)).bind fun _ => (t.set (n.toNat - 1) (some (content extra typed))).shown auto_show

/-- The loop of `com_del`: `text` and `i` when it ends. The first number bounds the rounds. -/
def close (t : Text) : Nat → Nat → Option (Text × Nat)
  | 0, _ => none
  | n + 1, i =>
    (t.at_ (i + 1)).bind fun line =>
      match line with
      | none => some (t, i)
      | some line => ((t.set i (some line)).set (i + 1) (some [])).close n (i + 1)

def com_del (auto_show : Bool) (t : Text) (n : Int) : Option Text :=
  if n ≤ 0 ∨ t.get_line_number + 1 < n then some t
  else (t.at_ (n.toNat - 1)).bind fun _ =>
    ((t.set (n.toNat - 1) (some [])).close MAX_LINE_NUMBER (n.toNat - 1)).bind fun r =>
      (if r.2 ≠ 0 then r.1.set r.2 none else r.1).shown auto_show

/-! ## The file -/

/-- What `com_save` writes. -/
def com_save (t : Text) : Option (List UInt8) :=
  t.toNull.map fun lines => List.intercalate [newline] (lines.map fun line => line.getD [])

/-- `strcat_n`: a line that would be too long stays as it is. -/
def strcat_n (dest src : List UInt8) : List UInt8 := if MAX_LINE_LENGTH ≤ src.length + dest.length then dest else dest ++ src

end Text

/-- The state of `main` while it reads. -/
structure Load where
  text : Text
  line_number : Nat
  is_full : Bool

namespace Load

def start : Load := ⟨fun i => if i = 0 then some [] else none, 0, false⟩

/-- Copy to the end of the line. -/
def add (s : Load) (piece : List UInt8) : Load :=
  { s with text := s.text.set s.line_number (s.text s.line_number |>.map fun line => Text.strcat_n line piece) }

/-- At a newline. -/
def nextLine (s : Load) : Load :=
  if MAX_LINE_NUMBER - 1 ≤ s.line_number then { s with is_full := true }
  else { s with text := s.text.set (s.line_number + 1) (some []), line_number := s.line_number + 1 }

/-- The loop over what `read` gave, from `next` on. -/
def chunk (s : Load) (bytes : List UInt8) : Load :=
  match _h : bytes.dropWhile (· ≠ newline) with
  | [] => s.add bytes
  | _ :: more =>
    let s := (s.add (bytes.takeWhile (· ≠ newline))).nextLine
    if s.is_full ∨ more = [] then s else s.chunk more
termination_by bytes.length
decreasing_by
  have hle := (List.dropWhile_suffix (l := bytes) (· ≠ newline)).length_le
  rw [_h, List.length_cons] at hle
  omega

/-- The loop over the reads. -/
def load (s : Load) : List (List UInt8) → Load
  | [] => s
  | bytes :: chunks => if (s.chunk bytes).is_full then s.chunk bytes else (s.chunk bytes).load chunks

end Load

end NewXv6.Editor
