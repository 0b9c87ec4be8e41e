import NewXv6.Lib.Buffer

/-!
# The window of the shell (`shell_gui.c`)

The rows of the screen are one array, `printer_buf`, and are drawn as strings. The window reads what the shell writes from
a pipe: `read` gives it in pieces.
-/

namespace NewXv6.ShellGui

open Lib

/-- The number of lines, and of characters in each. -/
abbrev LINES : Nat := 20
abbrev CHARS : Nat := 80

def newline : UInt8 := 10

/-! ## The printer -/

structure Printer where
  /-- Row `i` is the `CHARS` bytes from `CHARS * i` on. -/
  printer_buf : Nat → UInt8
  line_index : Nat
  char_index : Nat
  isFull : Bool

namespace Printer

def init_printer : Printer := ⟨fun _ => 0, 0, 0, false⟩

/-- The step to the next line. -/
def nextLine (s : Printer) : Printer :=
  if LINES ≤ s.line_index + 1 then { s with line_index := 0, isFull := true, char_index := 0 }
  else { s with line_index := s.line_index + 1, char_index := 0 }

/-- The `memset` of the line. -/
def clearLine (s : Printer) : Printer :=
  { s with printer_buf := Buffer.store s.printer_buf (CHARS * s.line_index) (List.replicate CHARS 0) }

def store (s : Printer) (c : UInt8) : Printer :=
  { s with
    printer_buf := Buffer.store s.printer_buf (CHARS * s.line_index + s.char_index) [c]
    char_index := s.char_index + 1 }

/-- A character of `read_buf`. -/
def putChar (s : Printer) (c : UInt8) : Printer :=
  if c = newline then s.nextLine.clearLine
  else if CHARS ≤ (s.store c).char_index then (s.store c).nextLine
  else s.store c

/-- `string_printer` with `len < 0`: delete characters, up to the start of the line. -/
def erase (s : Printer) : Nat → Printer
  | 0 => s
  | n + 1 =>
    if 0 < s.char_index then
      erase { s with
        printer_buf := Buffer.store s.printer_buf (CHARS * s.line_index + (s.char_index - 1)) [0]
        char_index := s.char_index - 1 } n
    else s

/-- `string_printer` with `len ≥ 0`, up to the drawing. -/
def string_printer (s : Printer) (read_buf : List UInt8) : Printer := read_buf.foldl putChar s

/-- The characters that `puts_str` draws for row `i`; `none` where it reads on behind `printer_buf`. -/
def puts_str (s : Printer) (i : Nat) : Option (List UInt8) :=
  Buffer.scan (· == 0) s.printer_buf (CHARS * LINES - CHARS * i) (CHARS * i)

/-- The rows in the order in which `string_printer` draws them. -/
def order (s : Printer) : List Nat :=
  if s.isFull then (List.range LINES).map fun j => (s.line_index + 1 + j) % LINES else List.range (s.line_index + 1)

def drawn (s : Printer) : List (Option (List UInt8)) := s.order.map s.puts_str

end Printer

/-! ## The read loop of `handle_keydown` -/

/-- `init_string`. -/
def init_string : List UInt8 := [36, 32]

structure Reader where
  printer : Printer
  read_buf : Nat → UInt8
  /-- What stands in memory in front of `read_buf`. -/
  front : UInt8
  /-- The indices of `read_buf` the loop has looked at, each with the number of bytes that `read` had given. -/
  looked : List (Int × Nat)

namespace Reader

/-- In front of the loop. -/
def start (printer : Printer) (read_buf : Nat → UInt8) (front : UInt8) : Reader := ⟨printer, read_buf, front, []⟩

/-- `read_buf[i]`. -/
def at_ (s : Reader) (i : Int) : UInt8 := if i < 0 then s.front else s.read_buf i.toNat

/-- `read`, and the printing. -/
def take (s : Reader) (chunk : List UInt8) : Reader :=
  { s with printer := s.printer.string_printer chunk, read_buf := Buffer.store s.read_buf 0 chunk }

/-- The test for `init_string`: whether the loop ends. -/
def test (s : Reader) (n : Nat) : Reader × Bool :=
  if s.at_ ((n : Int) - 2) = 36 then
    ({ s with looked := s.looked ++ [((n : Int) - 2, n), ((n : Int) - 1, n)] }, s.at_ ((n : Int) - 1) = 32)
  else ({ s with looked := s.looked ++ [((n : Int) - 2, n)] }, false)

/-- The loop over what `read` gives, and what is left of that when it ends; `none` while it goes on. -/
def readLoop (s : Reader) : List (List UInt8) → Reader × Option (List (List UInt8))
  | [] => (s, none)
  | [] :: reads => s.readLoop reads
  | chunk :: reads =>
    match (s.take chunk).test chunk.length with
    | (t, true) => (t, some reads)
    | (t, false) => t.readLoop reads

end Reader

end NewXv6.ShellGui
