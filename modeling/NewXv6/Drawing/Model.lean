import Mathlib.Logic.Function.Basic
import Mathlib.Data.Int.Notation

/-!
# Drawing (`drawingAPI.c`)

A context has a buffer of `width * height` pixels. The functions take coordinates as `int` or as `unsigned int` and convert
between them (`toInt`, `toUnsigned`); `draw_point` is the only one that writes, and leaves out the points outside the
window.
-/

namespace NewXv6.Drawing

/-- The number of values of an `unsigned int`. -/
abbrev WORD : Nat := 4294967296

/-- A window's context. Its sizes are positive as `int`s, and its buffer of 2 bytes a pixel is in the address space. -/
structure Context where
  width : Nat
  height : Nat
  width_lt : width < 2147483648
  height_lt : height < 2147483648
  fits : 2 * (width * height) ≤ WORD

/-- An `unsigned int` as an `int`. -/
def toInt (u : Nat) : Int := if u < 2147483648 then u else (u : Int) - 4294967296

/-- An `int` as an `unsigned int`. -/
def toUnsigned (x : Int) : Nat := (x % 4294967296).toNat

abbrev Pixels : Type := Nat → UInt16

section

variable (c : Context)

/-- `draw_point`; `none` is a write outside the buffer. -/
def draw_point (addr : Pixels) (x y : Nat) (color : UInt16) : Option Pixels :=
  if x ≥ c.width then some addr
  else if y ≥ c.height then some addr
  else
    let i := (y * c.width + x) % WORD
    if i < c.width * c.height then some (Function.update addr i color) else none

/-! ## `fill_rect` -/

/-- `for (; x < mx; x++)`; the number bounds the rounds. -/
def fillRow (color : UInt16) (y mx : Int) : Nat → Int → Pixels → Option Pixels
  | 0, _, _ => none
  | n + 1, x, addr =>
    if x < mx then (draw_point c addr (toUnsigned x) (toUnsigned y) color).bind (fillRow color y mx n (x + 1))
    else some addr

/-- `for (; y < my; y++)`, with the row loop from `bx` on. -/
def fillRows (color : UInt16) (bx mx my : Int) : Nat → Int → Pixels → Option Pixels
  | 0, _, _ => none
  | n + 1, y, addr =>
    if y < my then (fillRow c color y mx (WORD + 1) bx addr).bind (fillRows color bx mx my n (y + 1))
    else some addr

/-- The smaller of a size of the window and a wrapped sum, as an `int`. -/
def clip (size sum : Nat) : Int := toInt (if size < sum then size else sum)

/-- `fill_rect`; `none` is a write outside the buffer, or a loop that goes on. -/
def fill_rect (addr : Pixels) (bx bY width height : Nat) (color : UInt16) : Option Pixels :=
  let mx := clip c.width ((bx + width) % WORD)
  let my := clip c.height ((bY + height) % WORD)
  fillRows c color (toInt bx) mx my (WORD + 1) (toInt bY) addr

end

/-! ## `draw_line` -/

/-- The points of the loop of `draw_line`: its rounds, the position and the step, both with 10 bits behind the point. -/
def linePoints : Nat → Int → Int → Int → Int → List (Int × Int)
  | 0, _, _, _, _ => []
  | len + 1, x, y, dx, dy => (x >>> (10 : Nat), y >>> (10 : Nat)) :: linePoints len (x + dx) (y + dy) dx dy

/-- The points that `draw_line` visits. -/
def line (x0 y0 x1 y1 : Int) : List (Int × Int) :=
  let dx := x1 - x0
  let dy := y1 - y0
  let x := x0 * 1024
  let y := y0 * 1024
  let dx := if dx < 0 then -dx else dx
  let dy := if dy < 0 then -dy else dy
  if dx ≥ dy then
    let len := dx + 1
    let dx := if x1 > x0 then 1024 else -1024
    let dy := if y1 ≥ y0 then ((y1 - y0 + 1) * 1024).tdiv len else ((y1 - y0 - 1) * 1024).tdiv len
    linePoints len.toNat x y dx dy
  else
    let len := dy + 1
    let dy := if y1 > y0 then 1024 else -1024
    let dx := if x1 ≥ x0 then ((x1 - x0 + 1) * 1024).tdiv len else ((x1 - x0 - 1) * 1024).tdiv len
    linePoints len.toNat x y dx dy

/-- `draw_line`. -/
def draw_line (c : Context) (addr : Pixels) (x0 y0 x1 y1 : Int) (color : UInt16) : Option Pixels :=
  (line x0 y0 x1 y1).foldlM (fun addr p => draw_point c addr (toUnsigned p.1) (toUnsigned p.2) color) addr

end NewXv6.Drawing
