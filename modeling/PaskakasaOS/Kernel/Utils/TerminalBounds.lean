import PaskakasaOS.Lib.Runs
import PaskakasaOS.Kernel.Utils.TerminalContents

/-!
# The row buffer is never left

`lines` has 96 rows of 128 characters. The functions with a question mark are
those of the terminal with every access to the buffer checked; they stop at the
first access outside it. The cursor and the row lengths stay such that they
never do.
-/
namespace PaskakasaOS.Kernel.Utils.TerminalBounds

open Lib.ByteMemory Lib.Runs
open Utils.Mem (memset memmoveInto)
open TextTerminal TerminalContents

/-! ## Checked accesses -/

/-- `lines[y]` -/
def row? (t : Console) (y : Nat) : Option Row := if y < 96 then some (t.lines y) else none

/-- `lines[y] = row` -/
def setRow? (t : Console) (y : Nat) (row : Row) : Option Console :=
  if y < 96 then some { t with lines := Function.update t.lines y row } else none

/-- `row.characters[x]` -/
def char? (row : Row) (x : Nat) : Option UInt8 := if x < 128 then some (row.characters x) else none

/-- `row.characters[x] = c` -/
def setChar? (row : Row) (x : Nat) (c : UInt8) : Option Row :=
  if x < 128 then some { row with characters := Function.update row.characters x c } else none

/-- `memset(row.characters, 0, n)` -/
def memset? (row : Row) (n : Nat) : Option Row :=
  if n ≤ 128 then some { row with characters := memset row.characters 0 0 n } else none

/-- `memmove(row.characters, src.characters, n)` -/
def memmove? (row src : Row) (n : Nat) : Option Row :=
  if n ≤ 128 then some { row with characters := memmoveInto row.characters 0 src.characters 0 n }
  else none

/-! ## The terminal with checks -/

def clearRow? (t : Console) (y : Nat) : Option Console := do
  let _ ← row? t y
  some (clearRow t y)

def shiftRow? (t : Console) (y : Nat) : Option Console := do
  let row ← row? t y
  let below ← row? t (y + 1)
  let row ← memset? row row.length.toNat
  let row ← memmove? row below below.length.toNat
  setRow? t y { row with length := below.length }

def drawRow? (t : Console) (y : Nat) : Option Console := do
  let row ← row? t y
  run (fun t b => do
    let row ← row? t y
    let c ← char? row b
    if c ≠ 0xa then some (printChar t c (UInt32.ofNat b) (UInt32.ofNat y)) else some t)
    t (List.range row.length.toNat)

def scrollRow? (t : Console) (y : Nat) : Option Console := do
  let t ← clearRow? t y
  let t ← shiftRow? t y
  drawRow? t y

def scroll? (t : Console) : Option Console := do
  let t ← run scrollRow? (cli t) (List.range t.height.toNat)
  some (sti t)

def newRow? (t : Console) : Option Console :=
  if t.y + 1 = t.height then scroll? t else some { t with y := t.y + 1 }

def store? (t : Console) (c : UInt8) : Option Console := do
  let row ← row? t t.y.toNat
  let row ← setChar? row t.x.toNat c
  setRow? t t.y.toNat row

def grow? (t : Console) : Option Console := do
  let row ← row? t t.y.toNat
  setRow? t t.y.toNat { row with length := row.length + 1 }

def place? (t : Console) (c : UInt8) : Option Console := do
  let t ← store? (printChar t c t.x t.y) c
  let t ← grow? t
  some (advance t)

def printCharacter? (t : Console) (c : UInt8) : Option Console :=
  if c = 0xa then (newRow? t).map resetX
  else if t.x = t.width then (newRow? t).bind fun t => place? (resetX t) c
  else place? t c

def printcount? (t : Console) (string : List UInt8) : Option Console := run printCharacter? t string

/-! ## Scrolling -/

section Scroll

variable {t : Console} {y : Nat}

/-- No row of the buffer is longer than its array. -/
def RowsFit (t : Console) : Prop := ∀ r, r < 96 → (t.lines r).length.toNat ≤ 128

theorem row?_of_lt (hy : y < 96) : row? t y = some (t.lines y) := if_pos hy

theorem clearRow?_eq (hy : y < 96) : clearRow? t y = some (clearRow t y) := by
  rw [clearRow?, row?_of_lt hy]
  rfl

theorem shiftRow?_eq (hy : y + 1 < 96) (hfit : RowsFit t) :
    shiftRow? t y = some (shiftRow t y) := by
  have hrow := hfit y (by omega)
  have hbelow := hfit (y + 1) hy
  have hy' : y < 96 := by omega
  simp [shiftRow?, row?_of_lt hy', row?_of_lt hy, memset?, hrow, memmove?, hbelow, setRow?, hy',
    shiftRow]

theorem drawRow?_eq (hy : y < 96) (hfit : RowsFit t) : drawRow? t y = some (drawRow t y) := by
  rw [drawRow?, row?_of_lt hy, drawRow]
  refine (run_eq_foldl (P := fun _ => True) ?_ trivial).1
  intro t' b hb _
  have hb' : b < 128 := Nat.lt_of_lt_of_le (List.mem_range.mp hb) (hfit y hy)
  refine ⟨?_, trivial⟩
  simp only [row?_of_lt hy, char?, if_pos hb', Option.bind_eq_bind, Option.bind_some]
  split <;> rfl

theorem clearRow_lines (t : Console) (y : Nat) : (clearRow t y).lines = t.lines := by
  obtain ⟨draws, h⟩ := clearRow_draws t y
  rw [h]

theorem drawRow_lines (t : Console) (y : Nat) : (drawRow t y).lines = t.lines := by
  obtain ⟨draws, h⟩ := drawRow_draws t y
  rw [h]

theorem shiftRow_length (t : Console) (y r : Nat) :
    ((shiftRow t y).lines r).length =
      if r = y then (t.lines (y + 1)).length else (t.lines r).length := by
  show (Function.update t.lines y _ r).length = _
  by_cases hr : r = y
  · rw [if_pos hr, hr, Function.update_self]
  · rw [if_neg hr, Function.update_of_ne hr]

theorem RowsFit.shiftRow (hfit : RowsFit t) (hy : y + 1 < 96) : RowsFit (shiftRow t y) := by
  intro r hr
  rw [shiftRow_length]
  split
  · exact hfit (y + 1) hy
  · exact hfit r hr

theorem scrollRow?_eq (hy : y + 1 < 96) (hfit : RowsFit t) :
    scrollRow? t y = some (scrollRow t y) ∧ RowsFit (scrollRow t y) := by
  have hcleared : RowsFit (clearRow t y) := by
    intro r hr
    rw [clearRow_lines]
    exact hfit r hr
  have hshifted := hcleared.shiftRow hy
  constructor
  · rw [scrollRow?, clearRow?_eq (by omega)]
    simp only [Option.bind_eq_bind, Option.bind_some, shiftRow?_eq hy hcleared,
      drawRow?_eq (Nat.lt_of_succ_lt hy) hshifted, scrollRow]
  · intro r hr
    rw [scrollRow, drawRow_lines]
    exact hshifted r hr

theorem scroll?_eq (hheight : t.height.toNat ≤ 95) (hfit : RowsFit t) :
    scroll? t = some (scroll t) := by
  have hloop : run scrollRow? (cli t) (List.range t.height.toNat) =
      some ((List.range t.height.toNat).foldl scrollRow (cli t)) := by
    have hcli : RowsFit (cli t) := hfit
    refine (run_eq_foldl ?_ hcli).1
    intro t' y hy hfit'
    have hlt := List.mem_range.mp hy
    exact scrollRow?_eq (by omega) hfit'
  rw [scroll?, hloop]
  rfl

end Scroll

/-! ## The cursor -/

/-- What holds between two characters. -/
structure Bounded (h w : Nat) (t : Console) : Prop where
  height : t.height.toNat = h
  width : t.width.toNat = w
  cursorX : t.x.toNat ≤ w
  cursorY : t.y.toNat < h
  current : (t.lines t.y.toNat).length = t.x
  below : ∀ r, t.y.toNat < r → r < 96 → (t.lines r).length = 0
  rows : ∀ r, r < 96 → (t.lines r).length.toNat ≤ w

section Step

variable {h w : Nat} {t : Console}

theorem Bounded.full_iff (hb : Bounded h w t) : t.x.toNat = w ↔ t.x = t.width := by
  rw [← UInt32.toNat_inj, hb.width]

/-- There is room in the row, unless the cursor is behind its last column. -/
theorem Bounded.room (hb : Bounded h w t) (hx : t.x ≠ t.width) : t.x.toNat < w :=
  Nat.lt_of_le_of_ne hb.cursorX fun heq => hx (hb.full_iff.mp heq)

theorem Bounded.rowsFit (hb : Bounded h w t) (hw : w ≤ 128) : RowsFit t :=
  fun r hr => (hb.rows r hr).trans hw

theorem length_of_contents {row row' : Row} (h : contents row = contents row') :
    row.length = row'.length := by
  rw [← UInt32.toNat_inj, ← contents_length, h, contents_length]

theorem Bounded.newRow (hb : Bounded h w t) (hh : h ≤ 95) : Bounded h w (resetX (newRow t)) := by
  have hheight := hb.height
  have hy := hb.cursorY
  have hlt := t.height.toNat_lt
  have hnext : (t.y + 1).toNat = t.y.toNat + 1 := toNat_succ (n := h) (by omega) (by omega)
  by_cases hbottom : t.y + 1 = t.height
  · have hfull : t.y.toNat + 1 = h := by rw [← hnext, hbottom, hheight]
    obtain ⟨lines, draws, hscroll, hmoved, hkept⟩ := scroll_spec t
    rw [TextTerminal.newRow, if_pos hbottom, hscroll]
    have hlength : ∀ r, r < h → (lines r).length = (t.lines (r + 1)).length :=
      fun r hr => length_of_contents (hmoved r (by omega))
    refine ⟨hheight, hb.width, Nat.zero_le w, hy, ?_, ?_, ?_⟩
    · show (lines t.y.toNat).length = 0
      rw [hlength _ hy]
      exact hb.below _ (by omega) (by omega)
    · intro r hr hr'
      change t.y.toNat < r at hr
      show (lines r).length = 0
      rw [hkept r (by omega)]
      exact hb.below r hr hr'
    · intro r hr
      show (lines r).length.toNat ≤ w
      by_cases hrh : r < h
      · rw [hlength r hrh]
        exact hb.rows (r + 1) (by omega)
      · rw [hkept r (by omega)]
        exact hb.rows r hr
  · have hroom : t.y.toNat + 1 ≠ h := by
      intro heq
      apply hbottom
      rw [← UInt32.toNat_inj, hnext, hheight, heq]
    rw [TextTerminal.newRow, if_neg hbottom]
    refine ⟨hheight, hb.width, Nat.zero_le w, ?_, ?_, ?_, hb.rows⟩
    · show (t.y + 1).toNat < h
      omega
    · show (t.lines (t.y + 1).toNat).length = 0
      exact hb.below _ (by omega) (by omega)
    · intro r hr hr'
      change (t.y + 1).toNat < r at hr
      exact hb.below r (by omega) hr'

theorem Bounded.place (hb : Bounded h w t) (hw : w ≤ 128)
    (hroom : t.x.toNat < w) (c : UInt8) : Bounded h w (place t c) := by
  have hy := hb.cursorY
  have hx : (t.x + 1).toNat = t.x.toNat + 1 := toNat_succ (n := w) hroom (by omega)
  have hlines := place_lines t c
  refine ⟨hb.height, hb.width, ?_, hy, ?_, ?_, ?_⟩
  · show (t.x + 1).toNat ≤ w
    omega
  · show ((TextTerminal.place t c).lines t.y.toNat).length = t.x + 1
    rw [hlines, Function.update_self, hb.current]
  · intro r hr hr'
    change t.y.toNat < r at hr
    rw [hlines, Function.update_of_ne (by omega)]
    exact hb.below r hr hr'
  · intro r hr
    rw [hlines]
    by_cases hry : r = t.y.toNat
    · rw [hry, Function.update_self, hb.current]
      show (t.x + 1).toNat ≤ w
      omega
    · rw [Function.update_of_ne hry]
      exact hb.rows r hr

theorem Bounded.newRow?_eq (hb : Bounded h w t) (hw : w ≤ 128) (hh : h ≤ 95) :
    newRow? t = some (TextTerminal.newRow t) := by
  have hheight := hb.height
  rw [newRow?, TextTerminal.newRow]
  split
  · exact scroll?_eq (by omega) (hb.rowsFit hw)
  · rfl

theorem Bounded.place?_eq (hb : Bounded h w t) (hw : w ≤ 128) (hh : h ≤ 95)
    (hroom : t.x.toNat < w) (c : UInt8) : place? t c = some (TextTerminal.place t c) := by
  have hy := hb.cursorY
  have hx' : t.x.toNat < 128 := by omega
  have hy' : t.y.toNat < 96 := by omega
  simp [place?, store?, grow?, row?, setRow?, setChar?, printChar, hx', hy', TextTerminal.place,
    store, grow]

theorem Bounded.printCharacter (hb : Bounded h w t) (hw : 1 ≤ w ∧ w ≤ 128) (hh : h ≤ 95)
    (c : UInt8) : printCharacter? t c = some (printCharacter t c) ∧
      Bounded h w (TextTerminal.printCharacter t c) := by
  have hnew := hb.newRow hh
  have hnew? := hb.newRow?_eq hw.2 hh
  rw [printCharacter?, TextTerminal.printCharacter]
  by_cases hc : c = 0xa
  · rw [if_pos hc, if_pos hc, hnew?]
    exact ⟨rfl, hnew⟩
  · rw [if_neg hc, if_neg hc]
    by_cases hx : t.x = t.width
    · have hroom : (resetX (TextTerminal.newRow t)).x.toNat < w := hw.1
      rw [if_pos hx, if_pos hx, hnew?]
      exact ⟨hnew.place?_eq hw.2 hh hroom c, hnew.place hw.2 hroom c⟩
    · have hroom := hb.room hx
      rw [if_neg hx, if_neg hx]
      exact ⟨hb.place?_eq hw.2 hh hroom c, hb.place hw.2 hroom c⟩

theorem Bounded.calls (hb : Bounded h w t) (hw : 1 ≤ w ∧ w ≤ 128) (hh : h ≤ 95)
    (calls : List (List UInt8)) : run printcount? t calls = some (calls.foldl printcount t) ∧
      Bounded h w (calls.foldl printcount t) :=
  run_eq_foldl (fun _ _ _ hb' => run_eq_foldl
    (fun _ c _ hb'' => hb''.printCharacter hw hh c) hb') hb

end Step

/-- The loop of `init_text_terminal` leaves every row of the buffer empty. -/
theorem initTextTerminal_length (s : Sizes) (t : Console) {r : Nat} (hr : r < 96) :
    ((initTextTerminal s t).lines r).length = 0 := by
  have hloop : ∀ k, ∀ r < k, ((List.range k).foldl
      (fun lines i => Function.update lines i
        { characters := memset (lines i).characters 0 0 128, length := 0 }) t.lines r).length = 0 := by
    intro k
    induction k with
    | zero => exact fun r hr => absurd hr (Nat.not_lt_zero r)
    | succ k ih =>
      intro r hr
      rw [List.range_succ, List.foldl_append, List.foldl_cons, List.foldl_nil]
      by_cases hrk : r = k
      · rw [hrk, Function.update_self]
      · rw [Function.update_of_ne hrk]
        exact ih r (by omega)
  exact hloop 96 r hr

theorem bounded_initTextTerminal (s : Sizes) (t : Console)
    (hh : 1 ≤ (initTextTerminal s t).height.toNat ∧ (initTextTerminal s t).height.toNat ≤ 95) :
    Bounded (initTextTerminal s t).height.toNat (initTextTerminal s t).width.toNat
      (initTextTerminal s t) where
  height := rfl
  width := rfl
  cursorX := Nat.zero_le _
  cursorY := hh.1
  current := initTextTerminal_length s t (Nat.zero_lt_succ 95)
  below := fun r _ hr => initTextTerminal_length s t hr
  rows := fun r hr => by
    rw [initTextTerminal_length s t hr]
    exact Nat.zero_le _

/-- After any calls on a fresh terminal, cursor and row lengths are in step, and no
access on the way has left the buffer. -/
theorem printcount_bounded (s : Sizes) (t : Console)
    (hw : 1 ≤ (initTextTerminal s t).width.toNat ∧ (initTextTerminal s t).width.toNat ≤ 128)
    (hh : 1 ≤ (initTextTerminal s t).height.toNat ∧ (initTextTerminal s t).height.toNat ≤ 95)
    (calls : List (List UInt8)) :
    run printcount? (initTextTerminal s t) calls =
      some (calls.foldl printcount (initTextTerminal s t)) ∧
    Bounded (initTextTerminal s t).height.toNat (initTextTerminal s t).width.toNat
      (calls.foldl printcount (initTextTerminal s t)) :=
  (bounded_initTextTerminal s t hh).calls hw hh.2 calls

theorem printcount_bounded_scrolled :
    let t := initTextTerminal sampleSizes zeroConsole
    run printcount? t longCalls = some (longCalls.foldl printcount t) ∧
      Bounded 48 128 (longCalls.foldl printcount t) :=
  printcount_bounded sampleSizes zeroConsole (by decide) (by decide) longCalls

end PaskakasaOS.Kernel.Utils.TerminalBounds
