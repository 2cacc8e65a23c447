import PaskakasaOS.Kernel.Utils.Mem

/-!
# The text terminal of `kernel/utils/text_terminal.c`

The row buffer, the cursor and the processor's interrupt flag, which `scroll`
changes, form one state. Glyphs are drawn by appending to a list of drawing calls.
-/
namespace PaskakasaOS.Kernel.Utils.TextTerminal

open Lib.ByteMemory (Memory)
open Utils.Mem (memset memmoveInto)

/-- `terminal_row_t`. -/
structure Row where
  characters : Memory
  length : UInt32

/-- A call of `render_glyph(glyphs[glyph], x, y)` or `clear_glyph(x, y)`. -/
inductive Draw where
  | render (glyph : Int) (x y : UInt32)
  | clear (x y : UInt32)

/-- `terminal`, the size of a glyph in `header`, the buffer `lines`, the drawing
calls made so far and the interrupt flag. -/
structure Console where
  x : UInt32
  y : UInt32
  height : UInt32
  width : UInt32
  headerHeight : UInt32
  headerWidth : UInt32
  lines : Nat → Row
  draws : List Draw
  interruptFlag : Bool

def clearGlyph (t : Console) (x y : UInt32) : Console :=
  { t with draws := t.draws ++ [.clear (x * t.headerWidth) (y * t.headerHeight)] }

/-- The glyph of a character; `char` is signed. -/
def glyphIndex (c : UInt8) : Int := if c.toInt8 = -61 then 228 else c.toInt8.toInt

def printChar (t : Console) (c : UInt8) (x y : UInt32) : Console :=
  { t with draws := t.draws ++ [.render (glyphIndex c) (x * t.headerWidth) (y * t.headerHeight)] }

/-! ## `scroll` -/

/-- The loop that clears the cells of row `y` on the screen. -/
def clearRow (t : Console) (y : Nat) : Console :=
  (List.range (t.lines y).length.toNat).foldl
    (fun t x => clearGlyph t (UInt32.ofNat x) (UInt32.ofNat y)) t

/-- Row `y` of the buffer becomes a copy of the row below. -/
def shiftRow (t : Console) (y : Nat) : Console :=
  let characters := memset (t.lines y).characters 0 0 (t.lines y).length.toNat
  let characters :=
    memmoveInto characters 0 (t.lines (y + 1)).characters 0 (t.lines (y + 1)).length.toNat
  { t with lines := Function.update t.lines y ⟨characters, (t.lines (y + 1)).length⟩ }

/-- The loop that draws row `y`; `tx` counts along with `b` and `ty` with `y`. -/
def drawRow (t : Console) (y : Nat) : Console :=
  (List.range (t.lines y).length.toNat).foldl
    (fun t b =>
      if (t.lines y).characters b ≠ 0xa then
        printChar t ((t.lines y).characters b) (UInt32.ofNat b) (UInt32.ofNat y)
      else t) t

def scrollRow (t : Console) (y : Nat) : Console := drawRow (shiftRow (clearRow t y) y) y

def cli (t : Console) : Console := { t with interruptFlag := false }
def sti (t : Console) : Console := { t with interruptFlag := true }

def scroll (t : Console) : Console :=
  let t := cli t
  let t := (List.range t.height.toNat).foldl scrollRow t
  sti t

/-! ## `printcount` -/

/-- Move to the next row buffer. -/
def newRow (t : Console) : Console :=
  if t.y + 1 = t.height then scroll t else { t with y := t.y + 1 }

def resetX (t : Console) : Console := { t with x := 0 }

/-- `lines[terminal.y].characters[terminal.x] = c`. -/
def store (t : Console) (c : UInt8) : Console :=
  let row := t.lines t.y.toNat
  let row := { row with characters := Function.update row.characters t.x.toNat c }
  { t with lines := Function.update t.lines t.y.toNat row }

/-- `lines[terminal.y].length++`. -/
def grow (t : Console) : Console :=
  let row := t.lines t.y.toNat
  let row := { row with length := row.length + 1 }
  { t with lines := Function.update t.lines t.y.toNat row }

def advance (t : Console) : Console := { t with x := t.x + 1 }

/-- The rest of the loop body, once there is room in the row. -/
def place (t : Console) (c : UInt8) : Console :=
  advance (grow (store (printChar t c t.x t.y) c))

/-- The body of the loop of `printcount`. -/
def printCharacter (t : Console) (c : UInt8) : Console :=
  if c = 0xa then resetX (newRow t)
  else if t.x = t.width then place (resetX (newRow t)) c
  else place t c

/-- `printcount` on the first `len` characters of its string. -/
def printcount (t : Console) (string : List UInt8) : Console := string.foldl printCharacter t

/-- What `print` passes on of a string: `mem.h` declares `strlen` with an 8-bit result. -/
def counted (str : List UInt8) : List UInt8 := str.take (str.length % 256)

def print (t : Console) (str : List UInt8) : Console := printcount t (counted str)

/-! ## Numbers -/

def digit (i : Nat) : UInt8 := if i < 10 then UInt8.ofNat (i + 0x30) else UInt8.ofNat (i + 0x61 - 10)

/-- The `do` loop of `itoa` and the copy that reverses its digits; a 64-bit value
has at most 64 of them. -/
def itoaLoop (radix : Nat) : Nat → Nat → List UInt8 → List UInt8
  | 0, _, out => out
  | fuel + 1, v, out =>
    if v / radix = 0 then digit (v % radix) :: out
    else itoaLoop radix fuel (v / radix) (digit (v % radix) :: out)

def itoa (value : UInt64) (radix : Nat) : List UInt8 :=
  if radix < 2 ∨ radix > 36 then [] else itoaLoop radix 64 value.toNat []

/-! ## `init_text_terminal` -/

/-- The sizes `init_text_terminal` reads from the mode and from the font. -/
structure Sizes where
  vesaHeight : UInt16
  vesaWidth : UInt16
  headerHeight : UInt32
  headerWidth : UInt32

def initTextTerminal (s : Sizes) (t : Console) : Console :=
  { t with
    x := 0
    y := 0
    height := s.vesaHeight.toUInt32 / s.headerHeight
    width := s.vesaWidth.toUInt32 / s.headerWidth
    headerHeight := s.headerHeight
    headerWidth := s.headerWidth
    lines := (List.range 96).foldl
      (fun lines i =>
        Function.update lines i { characters := memset (lines i).characters 0 0 128, length := 0 })
      t.lines }

end PaskakasaOS.Kernel.Utils.TextTerminal
