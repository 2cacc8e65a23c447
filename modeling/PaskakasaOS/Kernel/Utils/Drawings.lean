import Mathlib.Data.List.Basic
import PaskakasaOS.Kernel.Utils.TerminalContents

/-!
# The drawing calls of the terminal

Which calls of `render_glyph` and `clear_glyph` a text makes, as a function of the
row buffer and the cursor before it.
-/
namespace PaskakasaOS.Kernel.Utils.Drawings

open Lib.ByteMemory
open TextTerminal TerminalContents

/-- The call of `print_char`. -/
def charDraw (t : Console) (c : UInt8) (x y : UInt32) : Draw :=
  .render (glyphIndex c) (x * t.headerWidth) (y * t.headerHeight)

/-- The calls that clear the cells of a row of `n` characters. -/
def rowClears (t : Console) (n y : Nat) : List Draw :=
  (List.range n).flatMap fun x =>
    [.clear (UInt32.ofNat x * t.headerWidth) (UInt32.ofNat y * t.headerHeight)]

/-- The calls that draw a row. -/
def rowRenders (t : Console) (row : List UInt8) (y : Nat) : List Draw :=
  (List.range row.length).flatMap fun b =>
    if row.getD b 0 ≠ 0xa then [charDraw t (row.getD b 0) (UInt32.ofNat b) (UInt32.ofNat y)] else []

/-- One round of `scroll`. -/
def scrollRowDraws (t : Console) (y : Nat) : List Draw :=
  rowClears t (t.lines y).length.toNat y ++ rowRenders t (contents (t.lines (y + 1))) y

def scrollDraws (t : Console) : List Draw :=
  (List.range t.height.toNat).flatMap (scrollRowDraws t)

def newRowDraws (t : Console) : List Draw := if t.y + 1 = t.height then scrollDraws t else []

/-- One character of the text. -/
def characterDraws (t : Console) (c : UInt8) : List Draw :=
  if c = 0xa then newRowDraws t
  else if t.x = t.width then newRowDraws t ++ [charDraw t c 0 (newRow t).y]
  else [charDraw t c t.x t.y]

/-- The calls for a text. -/
def drawn : Console → List UInt8 → List Draw
  | _, [] => []
  | t, c :: string => characterDraws t c ++ drawn (printCharacter t c) string

/-! ## Rows -/

/-- A loop that only draws. -/
theorem foldl_draw {X : Type} {g : Console → X → Console} {f : X → List Draw} {t : Console}
    (hg : ∀ draws x, g { t with draws := draws } x = { t with draws := draws ++ f x })
    (xs : List X) : xs.foldl g t = { t with draws := t.draws ++ xs.flatMap f } := by
  have hloop : ∀ draws, xs.foldl g { t with draws := draws } =
      { t with draws := draws ++ xs.flatMap f } := by
    induction xs with
    | nil =>
      intro draws
      rw [List.flatMap_nil, List.append_nil]
      rfl
    | cons x xs ih =>
      intro draws
      rw [List.foldl_cons, hg, ih, List.flatMap_cons, List.append_assoc]
  exact hloop t.draws

theorem clearRow_eq (t : Console) (y : Nat) :
    clearRow t y = { t with draws := t.draws ++ rowClears t (t.lines y).length.toNat y } :=
  foldl_draw (fun _ _ => rfl) _

theorem contents_getD (row : Row) {b : Nat} (hb : b < row.length.toNat) :
    (contents row).getD b 0 = row.characters b := by
  rw [List.getD_eq_getElem _ _ (by rwa [contents_length])]
  simp [contents]

theorem drawRow_eq (t : Console) (y : Nat) :
    drawRow t y = { t with draws := t.draws ++ rowRenders t (contents (t.lines y)) y } := by
  have hloop := foldl_draw (t := t)
    (g := fun t b => if (t.lines y).characters b ≠ 0xa then
      printChar t ((t.lines y).characters b) (UInt32.ofNat b) (UInt32.ofNat y) else t)
    (f := fun b => if (t.lines y).characters b ≠ 0xa then
      [charDraw t ((t.lines y).characters b) (UInt32.ofNat b) (UInt32.ofNat y)] else [])
    (by
      intro draws b
      by_cases hc : (t.lines y).characters b ≠ 0xa
      · rw [if_pos hc, if_pos hc]
        rfl
      · rw [if_neg hc, if_neg hc, List.append_nil])
    (List.range (t.lines y).length.toNat)
  have hrow : rowRenders t (contents (t.lines y)) y =
      (List.range (t.lines y).length.toNat).flatMap fun b => if (t.lines y).characters b ≠ 0xa then
        [charDraw t ((t.lines y).characters b) (UInt32.ofNat b) (UInt32.ofNat y)] else [] := by
    rw [rowRenders, contents_length]
    apply List.flatMap_congr
    intro b hb
    rw [contents_getD _ (List.mem_range.mp hb)]
  rw [hrow]
  exact hloop

theorem scrollRow_draws (t : Console) (y : Nat) :
    (scrollRow t y).draws = t.draws ++ scrollRowDraws t y := by
  rw [scrollRow, drawRow_eq, contents_shiftRow, clearRow_eq, scrollRowDraws, ← List.append_assoc]
  rfl

/-! ## Scrolling -/

theorem scroll_draws (t : Console) : (scroll t).draws = t.draws ++ scrollDraws t := by
  have hloop : ∀ k, ∃ lines draws,
      (List.range k).foldl scrollRow (cli t) = { cli t with lines := lines, draws := draws } ∧
        (∀ r, k ≤ r → lines r = t.lines r) ∧
        draws = t.draws ++ (List.range k).flatMap (scrollRowDraws t) := by
    intro k
    induction k with
    | zero => exact ⟨t.lines, t.draws, rfl, fun _ _ => rfl, (List.append_nil _).symm⟩
    | succ k ih =>
      obtain ⟨lines, draws, hrun, hkept, hdraws⟩ := ih
      obtain ⟨row, draws', hround, _⟩ := scrollRow_spec { cli t with lines := lines, draws := draws } k
      refine ⟨Function.update lines k row, draws', ?_, ?_, ?_⟩
      · rw [List.range_succ, List.foldl_append, hrun]
        exact hround
      · intro r hr
        rw [Function.update_of_ne (by omega)]
        exact hkept r (by omega)
      · -- the rows of this round are still those of the start
        have hsame : scrollRowDraws { cli t with lines := lines, draws := draws } k =
            scrollRowDraws t k := by
          rw [scrollRowDraws, scrollRowDraws]
          show rowClears t (lines k).length.toNat k ++ rowRenders t (contents (lines (k + 1))) k = _
          rw [hkept k (Nat.le_refl k), hkept (k + 1) (Nat.le_succ k)]
        have hdrawn := scrollRow_draws { cli t with lines := lines, draws := draws } k
        rw [hround, hsame] at hdrawn
        rw [List.range_succ, List.flatMap_append, List.flatMap_singleton, ← List.append_assoc,
          ← hdraws]
        exact hdrawn
  obtain ⟨lines, draws, hrun, _, hdraws⟩ := hloop t.height.toNat
  show (sti ((List.range t.height.toNat).foldl scrollRow (cli t))).draws = _
  rw [hrun]
  exact hdraws

/-- Moving to the next row leaves the sizes alone. -/
theorem newRow_sizes (t : Console) : (newRow t).headerWidth = t.headerWidth ∧
    (newRow t).headerHeight = t.headerHeight ∧ (newRow t).height = t.height ∧
    (newRow t).width = t.width := by
  rw [newRow]
  by_cases hbottom : t.y + 1 = t.height
  · obtain ⟨lines, draws, hscroll, _⟩ := scroll_spec t
    rw [if_pos hbottom, hscroll]
    exact ⟨rfl, rfl, rfl, rfl⟩
  · rw [if_neg hbottom]
    exact ⟨rfl, rfl, rfl, rfl⟩

theorem newRow_draws (t : Console) : (newRow t).draws = t.draws ++ newRowDraws t := by
  rw [newRow, newRowDraws]
  by_cases hbottom : t.y + 1 = t.height
  · rw [if_pos hbottom, if_pos hbottom, scroll_draws]
  · rw [if_neg hbottom, if_neg hbottom, List.append_nil]

/-- A glyph of the new row is drawn where the sizes before say. -/
theorem charDraw_newRow (t : Console) (c : UInt8) (y : UInt32) :
    charDraw (resetX (newRow t)) c 0 y = charDraw t c 0 y := by
  obtain ⟨hwidth, hheight, _⟩ := newRow_sizes t
  rw [charDraw, charDraw]
  show Draw.render _ (0 * (newRow t).headerWidth) (y * (newRow t).headerHeight) = _
  rw [hwidth, hheight]

/-! ## Texts -/

theorem place_draws (t : Console) (c : UInt8) :
    (place t c).draws = t.draws ++ [charDraw t c t.x t.y] := rfl

theorem printCharacter_draws (t : Console) (c : UInt8) :
    (printCharacter t c).draws = t.draws ++ characterDraws t c := by
  rw [printCharacter, characterDraws]
  by_cases hc : c = 0xa
  · rw [if_pos hc, if_pos hc]
    exact newRow_draws t
  · rw [if_neg hc, if_neg hc]
    by_cases hx : t.x = t.width
    · rw [if_pos hx, if_pos hx, place_draws, ← List.append_assoc, ← newRow_draws]
      show (newRow t).draws ++ [charDraw (resetX (newRow t)) c 0 (newRow t).y] = _
      rw [charDraw_newRow]
    · rw [if_neg hx, if_neg hx, place_draws]

/-- The calls that a text adds to those made before it. -/
theorem printcount_draws (t : Console) (string : List UInt8) :
    (printcount t string).draws = t.draws ++ drawn t string := by
  induction string generalizing t with
  | nil => exact (List.append_nil _).symm
  | cons c string ih =>
    have hrest := ih (printCharacter t c)
    rw [printCharacter_draws, List.append_assoc] at hrest
    exact hrest

/-! ## Members -/

section Members

variable {t : Console} {d : Draw} {y : Nat}

theorem mem_rowClears {n : Nat} : d ∈ rowClears t n y ↔ ∃ x < n,
    d = .clear (UInt32.ofNat x * t.headerWidth) (UInt32.ofNat y * t.headerHeight) := by
  simp only [rowClears, List.mem_flatMap, List.mem_range, List.mem_singleton]

theorem mem_rowRenders {row : List UInt8} : d ∈ rowRenders t row y ↔ ∃ b < row.length,
    row.getD b 0 ≠ 0xa ∧ d = charDraw t (row.getD b 0) (UInt32.ofNat b) (UInt32.ofNat y) := by
  simp only [rowRenders, List.mem_flatMap, List.mem_range]
  constructor
  · intro h
    obtain ⟨b, hb, hd⟩ := h
    by_cases hc : row.getD b 0 ≠ 0xa
    · rw [if_pos hc] at hd
      exact ⟨b, hb, hc, List.mem_singleton.mp hd⟩
    · rw [if_neg hc] at hd
      exact absurd hd List.not_mem_nil
  · intro h
    obtain ⟨b, hb, hc, hd⟩ := h
    refine ⟨b, hb, ?_⟩
    rw [if_pos hc]
    exact List.mem_singleton.mpr hd

theorem mem_scrollDraws : d ∈ scrollDraws t ↔ ∃ y < t.height.toNat,
    d ∈ rowClears t (t.lines y).length.toNat y ∨ d ∈ rowRenders t (contents (t.lines (y + 1))) y := by
  simp only [scrollDraws, scrollRowDraws, List.mem_flatMap, List.mem_range, List.mem_append]

end Members

end PaskakasaOS.Kernel.Utils.Drawings
