import Mathlib.Data.Nat.Bitwise
import PaskakasaOS.Lib.ByteMemory

/-!
# Glyphs in the framebuffer

Drawing in the mode the bootloader sets: 1024 by 768 pixels of two bytes, with
2048 bytes to a line. `SET_PIXELP` and `CLEAR_PIXELP` store four bytes, so each
also clears the next pixel of the same line, or the first one of the line below.
Addresses are relative to the framebuffer.
-/
namespace PaskakasaOS.Kernel.Utils.Framebuffer

open Lib.ByteMemory

/-! ## Drawing -/

/-- `(y) * vesa_info->pitch + ((x) * (vesa_info->bpp / 8))` -/
def offset (x y : Nat) : Nat := y * 2048 + x * (16 / 8)

/-- `terminal.color` -/
def color : Nat := 0x000f00

/-- `SET_PIXELP(x, y)` -/
def setPixel (m : Memory) (x y : Nat) : Memory := writeLE 4 m (offset x y) color

/-- `CLEAR_PIXELP(x, y)` -/
def clearPixel (m : Memory) (x y : Nat) : Memory := writeLE 4 m (offset x y) 0x0

/-- `row_data & (1 << (7 - col))` -/
def bitAt (rowData : UInt8) (col : Nat) : Bool := rowData.toNat.testBit (7 - col)

/-- The inner loop of `render_glyph`. -/
def renderRow (rowData : UInt8) (m : Memory) (x y : Nat) : Memory :=
  (List.range 8).foldl (fun m col => if bitAt rowData col then setPixel m (x + col) y else m) m

/-- `render_glyph` -/
def renderGlyph (glyph : Nat → UInt8) (m : Memory) (x y : Nat) : Memory :=
  (List.range 16).foldl (fun m row => renderRow (glyph row) m x (y + row)) m

/-- The inner loop of `clear_glyph`. -/
def clearRow (m : Memory) (x y : Nat) : Memory :=
  (List.range 9).foldl (fun m col => clearPixel m (x + col) y) m

/-- `clear_glyph` -/
def clearGlyph (m : Memory) (x y : Nat) : Memory :=
  (List.range 17).foldl (fun m row => clearRow m x (y + row)) m

/-! ## Points -/

/-- The pixel at column `x` of line `y`. -/
def pixel (m : Memory) (x y : Nat) : Nat := readLE 2 m (offset x y)

/-- The `p`-th pixel of the framebuffer, counted line after line. -/
def point (m : Memory) (p : Nat) : Nat := readLE 2 m (2 * p)

theorem offset_eq (x y : Nat) : offset x y = 2 * (1024 * y + x) := by
  rw [offset]
  omega

theorem pixel_eq (m : Memory) (x y : Nat) : pixel m x y = point m (1024 * y + x) := by
  rw [pixel, offset_eq, point]

/-- A store of four bytes whose upper half is zero. -/
theorem point_store {m : Memory} {w : Nat} (hw : w < 65536) (x y p : Nat) :
    point (writeLE 4 m (offset x y) w) p =
      if p = 1024 * y + x then w else if p = 1024 * y + x + 1 then 0 else point m p := by
  rw [offset_eq, point, point]
  by_cases hp : p = 1024 * y + x
  · have hlow := readLE_writeLE_inside (m := m) (a := 2 * (1024 * y + x)) (w := w)
      (show 0 + 2 ≤ 4 by omega)
    rw [if_pos hp, hp]
    rw [Nat.add_zero, Nat.pow_zero, Nat.div_one] at hlow
    rw [hlow]
    exact Nat.mod_eq_of_lt hw
  · rw [if_neg hp]
    by_cases hnext : p = 1024 * y + x + 1
    · have hhigh := readLE_writeLE_inside (m := m) (a := 2 * (1024 * y + x)) (w := w)
        (show 2 + 2 ≤ 4 by omega)
      rw [if_pos hnext, hnext, show 2 * (1024 * y + x + 1) = 2 * (1024 * y + x) + 2 by omega, hhigh,
        Nat.div_eq_of_lt (show w < 256 ^ 2 from hw), Nat.zero_mod]
    · rw [if_neg hnext]
      exact readLE_writeLE_disjoint (by omega)

theorem point_setPixel (m : Memory) (x y p : Nat) :
    point (setPixel m x y) p =
      if p = 1024 * y + x then color else if p = 1024 * y + x + 1 then 0 else point m p :=
  point_store (by decide) x y p

theorem point_clearPixel (m : Memory) (x y p : Nat) :
    point (clearPixel m x y) p =
      if p = 1024 * y + x then 0 else if p = 1024 * y + x + 1 then 0 else point m p :=
  point_store (by decide) x y p

/-! ## Rows of a glyph -/

/-- What drawing the first `n` bits of a line leaves at the `d`-th of its points, which
held `old`: a lit bit also clears the point behind it. -/
def linePoint (bits : Nat → Bool) (n d old : Nat) : Nat :=
  if d < n ∧ bits d then color else if 0 < d ∧ d ≤ n ∧ bits (d - 1) then 0 else old

section Line

variable {bits : Nat → Bool} {n d old : Nat}

theorem linePoint_outside (h : n < d) : linePoint bits n d old = old := by
  rw [linePoint, if_neg (by omega), if_neg (by omega)]

theorem linePoint_zero : linePoint bits 0 d old = old := by
  rw [linePoint, if_neg (by omega), if_neg (by omega)]

theorem linePoint_one :
    linePoint bits 1 d old = if bits 0 then if d = 0 then color else if d = 1 then 0 else old else old := by
  rw [linePoint]
  by_cases hfirst : d = 0
  · subst hfirst
    by_cases hbit : bits 0 <;> simp [hbit]
  · by_cases hnext : d = 1
    · subst hnext
      by_cases hbit : bits 0 <;> simp [hbit]
    · rw [if_neg (by omega), if_neg (by omega), if_neg hfirst, if_neg hnext, ite_self]

/-- Drawing some bits and then the ones behind them. -/
theorem linePoint_add (bits : Nat → Bool) (n l d old : Nat) :
    linePoint bits (n + l) d old =
      if n ≤ d then linePoint (fun j => bits (n + j)) l (d - n) (linePoint bits n d old)
      else linePoint bits n d old := by
  by_cases hle : n ≤ d
  · obtain ⟨e, rfl⟩ := Nat.exists_eq_add_of_le hle
    have hin : n + e < n + l ↔ e < l := by omega
    have hpast : ¬ n + e < n := by omega
    rw [if_pos hle, Nat.add_sub_cancel_left, linePoint, linePoint, linePoint]
    by_cases hfirst : e = 0
    · subst hfirst
      have hin : n < n + l ↔ 0 < l := by omega
      have hlast : n ≤ n + l := Nat.le_add_right n l
      simp only [hlast, hin, Nat.lt_irrefl, Nat.add_zero, Nat.le_refl, false_and, if_false]
    · have hbefore : n + e - 1 = n + (e - 1) := by omega
      have hpos : 0 < n + e ↔ 0 < e := by omega
      have hroom : n + e ≤ n + l ↔ e ≤ l := by omega
      have hbehind : ¬ n + e ≤ n := by omega
      simp only [hin, hbefore, hpos, hroom, hpast, hbehind, false_and, and_false, if_false]
  · have hin : d < n + l ↔ d < n := by omega
    have hroom : d ≤ n + l ↔ d ≤ n := by omega
    rw [if_neg hle, linePoint, linePoint]
    simp only [hin, hroom]

/-- A point is lit by its bit, or was so before and is not behind a lit one. -/
theorem linePoint_ne_zero_iff :
    linePoint bits n d old ≠ 0 ↔
      (d < n ∧ bits d) ∨ ¬ (0 < d ∧ d - 1 < n ∧ bits (d - 1)) ∧ old ≠ 0 := by
  have hnext : 0 < d ∧ d ≤ n ∧ bits (d - 1) ↔ 0 < d ∧ d - 1 < n ∧ bits (d - 1) :=
    and_congr_right fun hpos => and_congr_left fun _ => by omega
  rw [linePoint, ← hnext]
  by_cases hlit : d < n ∧ bits d
  · rw [if_pos hlit]
    exact iff_of_true (by decide) (Or.inl hlit)
  · rw [if_neg hlit, or_iff_right hlit]
    by_cases hbehind : 0 < d ∧ d ≤ n ∧ bits (d - 1)
    · rw [if_pos hbehind]
      exact iff_of_false (fun h => h rfl) fun h => h.1 hbehind
    · rw [if_neg hbehind]
      exact (and_iff_right hbehind).symm

end Line

/-- The loop of `render_glyph` over the columns of a row. -/
theorem point_columns (rowData : UInt8) (m : Memory) (x y n : Nat) :
    let m' := (List.range n).foldl
      (fun m col => if bitAt rowData col then setPixel m (x + col) y else m) m
    (∀ p, p < 1024 * y + x → point m' p = point m p) ∧
      ∀ d, point m' (1024 * y + x + d) =
        linePoint (bitAt rowData) n d (point m (1024 * y + x + d)) := by
  induction n with
  | zero => exact ⟨fun p _ => rfl, fun d => linePoint_zero.symm⟩
  | succ n ih =>
    obtain ⟨habove, hline⟩ := ih
    simp only [List.range_succ, List.foldl_append, List.foldl_cons, List.foldl_nil]
    by_cases hbit : bitAt rowData n
    · rw [if_pos hbit]
      constructor
      · intro p hp
        rw [point_setPixel, if_neg (by omega), if_neg (by omega), habove p hp]
      · intro d
        have hat : 1024 * y + x + d = 1024 * y + (x + n) ↔ d = n := by omega
        have hnext : 1024 * y + x + d = 1024 * y + (x + n) + 1 ↔ d = n + 1 := by omega
        rw [point_setPixel, linePoint_add, linePoint_one, hline]
        by_cases hle : n ≤ d
        · have hat' : d - n = 0 ↔ d = n := by omega
          have hnext' : d - n = 1 ↔ d = n + 1 := by omega
          simp only [hle, hbit, hat, hnext, hat', hnext', Nat.add_zero, if_true]
        · rw [if_neg hle, if_neg (by omega), if_neg (by omega)]
    · rw [if_neg hbit]
      refine ⟨habove, fun d => ?_⟩
      have hnone : ¬ bitAt rowData (n + 0) := hbit
      rw [linePoint_add, linePoint_one, if_neg hnone, ite_self]
      exact hline d

/-- A row of a glyph lights its bits, and each of them clears the point behind it. -/
theorem point_renderRow (rowData : UInt8) (m : Memory) (x y : Nat) :
    (∀ p, p < 1024 * y + x → point (renderRow rowData m x y) p = point m p) ∧
      ∀ d, point (renderRow rowData m x y) (1024 * y + x + d) =
        linePoint (bitAt rowData) 8 d (point m (1024 * y + x + d)) :=
  point_columns rowData m x y 8

/-- A row of nine clearing stores clears ten points. -/
theorem point_clearRow (m : Memory) (x y p : Nat) :
    point (clearRow m x y) p =
      if 1024 * y + x ≤ p ∧ p < 1024 * y + x + 10 then 0 else point m p := by
  have hloop : ∀ n, point ((List.range (n + 1)).foldl
      (fun m col => clearPixel m (x + col) y) m) p =
      if 1024 * y + x ≤ p ∧ p < 1024 * y + x + n + 2 then 0 else point m p := by
    intro n
    induction n with
    | zero =>
      show point (clearPixel m (x + 0) y) p = _
      rw [point_clearPixel]
      split_ifs <;> first | rfl | omega
    | succ n ih =>
      rw [List.range_succ, List.foldl_append, List.foldl_cons, List.foldl_nil, point_clearPixel, ih]
      split_ifs <;> first | rfl | omega
  exact hloop 8

/-! ## Glyphs -/

/-- What `render_glyph` leaves at column `d` of the `k`-th line from its corner on. -/
def glyphPoint (glyph : Nat → UInt8) (old : Nat) (k d : Nat) : Nat :=
  if k < 16 ∧ d < 8 then if bitAt (glyph k) d then color else 0
  else if k < 16 ∧ d = 8 ∧ bitAt (glyph k) 7 then 0
  else old

section Glyph

variable {m : Memory} {x y : Nat}

/-- A drawn glyph, by line and column from its corner on. -/
theorem point_renderGlyph_line (glyph : Nat → UInt8) (m : Memory) (x y : Nat) :
    (∀ p, p < 1024 * y + x → point (renderGlyph glyph m x y) p = point m p) ∧
      ∀ k d, d < 1024 → point (renderGlyph glyph m x y) (1024 * y + x + 1024 * k + d) =
        if k < 16 then
          linePoint (bitAt (glyph k)) 8 d (point m (1024 * y + x + 1024 * k + d))
        else point m (1024 * y + x + 1024 * k + d) := by
  have hloop : ∀ n,
      (∀ p, p < 1024 * y + x → point ((List.range n).foldl
        (fun m row => renderRow (glyph row) m x (y + row)) m) p = point m p) ∧
      ∀ k d, d < 1024 → point ((List.range n).foldl
        (fun m row => renderRow (glyph row) m x (y + row)) m) (1024 * y + x + 1024 * k + d) =
        if k < n then linePoint (bitAt (glyph k)) 8 d (point m (1024 * y + x + 1024 * k + d))
        else point m (1024 * y + x + 1024 * k + d) := by
    intro n
    induction n with
    | zero => exact ⟨fun _ _ => rfl, fun _ _ _ => rfl⟩
    | succ n ih =>
      obtain ⟨habove, hlines⟩ := ih
      rw [List.range_succ, List.foldl_append, List.foldl_cons, List.foldl_nil]
      have hrow := point_renderRow (glyph n) ((List.range n).foldl
        (fun m row => renderRow (glyph row) m x (y + row)) m) x (y + n)
      have hstart : 1024 * (y + n) + x = 1024 * y + x + 1024 * n := by omega
      rw [hstart] at hrow
      constructor
      · intro p hp
        rw [hrow.1 p (by omega), habove p hp]
      · intro k d hd
        rcases Nat.lt_trichotomy k n with hlt | rfl | hgt
        · rw [hrow.1 _ (by omega), hlines k d hd, if_pos hlt, if_pos (by omega)]
        · rw [hrow.2, hlines k d hd, if_neg (Nat.lt_irrefl k), if_pos (Nat.lt_succ_self k)]
        · -- the lines below are too far behind the row
          have hplace : 1024 * y + x + 1024 * k + d =
              1024 * y + x + 1024 * n + (1024 * (k - n) + d) := by omega
          have hbelow := hlines k d hd
          rw [if_neg (by omega), hplace] at hbelow
          rw [if_neg (by omega), hplace, hrow.2, linePoint_outside (by omega), hbelow]
  exact hloop 16

/-- A glyph drawn on blank points. -/
theorem point_renderGlyph {glyph : Nat → UInt8}
    (hblank : ∀ k, k < 16 → ∀ j, j < 8 → point m (1024 * y + x + 1024 * k + j) = 0) :
    (∀ p, p < 1024 * y + x → point (renderGlyph glyph m x y) p = point m p) ∧
      ∀ k d, d < 1024 → point (renderGlyph glyph m x y) (1024 * y + x + 1024 * k + d) =
        glyphPoint glyph (point m (1024 * y + x + 1024 * k + d)) k d := by
  obtain ⟨habove, hlines⟩ := point_renderGlyph_line glyph m x y
  refine ⟨habove, fun k d hd => ?_⟩
  rw [hlines k d hd, glyphPoint]
  by_cases hk : k < 16
  · simp only [hk, if_true, true_and, linePoint]
    by_cases hd8 : d < 8
    · rw [hblank k hk d hd8, ite_self, if_pos hd8]
      simp only [hd8, true_and]
    · have hlast : 0 < d ∧ d ≤ 8 ∧ bitAt (glyph k) (d - 1) ↔ d = 8 ∧ bitAt (glyph k) 7 := by
        constructor
        · intro h
          obtain rfl : d = 8 := by omega
          exact ⟨rfl, h.2.2⟩
        · intro h
          obtain ⟨rfl, hbit⟩ := h
          exact ⟨by omega, Nat.le_refl 8, hbit⟩
      rw [if_neg (fun h => hd8 h.1), if_neg hd8]
      simp only [hlast]
  · rw [if_neg hk, if_neg (fun h => hk h.1), if_neg (fun h => hk h.1)]

theorem point_clearGlyph (m : Memory) (x y : Nat) :
    (∀ p, p < 1024 * y + x → point (clearGlyph m x y) p = point m p) ∧
      ∀ k d, d < 1024 → point (clearGlyph m x y) (1024 * y + x + 1024 * k + d) =
        if k < 17 ∧ d < 10 then 0 else point m (1024 * y + x + 1024 * k + d) := by
  have hloop : ∀ n,
      (∀ p, p < 1024 * y + x → point ((List.range n).foldl
        (fun m row => clearRow m x (y + row)) m) p = point m p) ∧
      ∀ k d, d < 1024 → point ((List.range n).foldl
        (fun m row => clearRow m x (y + row)) m) (1024 * y + x + 1024 * k + d) =
        if k < n ∧ d < 10 then 0 else point m (1024 * y + x + 1024 * k + d) := by
    intro n
    induction n with
    | zero =>
      refine ⟨fun _ _ => rfl, fun k d _ => ?_⟩
      rw [if_neg (by omega)]
      rfl
    | succ n ih =>
      obtain ⟨habove, hrows⟩ := ih
      rw [List.range_succ, List.foldl_append, List.foldl_cons, List.foldl_nil]
      constructor
      · intro p hp
        rw [point_clearRow, if_neg (by omega), habove p hp]
      · intro k d hd
        rw [point_clearRow, hrows k d hd]
        by_cases hk : k = n
        · subst hk
          by_cases hd10 : d < 10
          · rw [if_pos (by omega), if_pos (by omega)]
          · rw [if_neg (by omega), if_neg (by omega), if_neg (by omega)]
        · have hlt : k < n ↔ k < n + 1 := by omega
          rw [if_neg (by omega)]
          simp only [hlt]
  exact hloop 17

end Glyph

/-! ## Text cells -/

/-- Pixel `j` of line `k` in the cell at column `c` of text row `r`. -/
def cellPixel (m : Memory) (r k c j : Nat) : Nat := pixel m (8 * c + j) (16 * r + k)

section Cell

variable {m : Memory} {x y r k c j : Nat}

theorem cellPixel_eq (m : Memory) (r k c j : Nat) :
    cellPixel m r k c j = point m (1024 * (16 * r + k) + (8 * c + j)) := pixel_eq m _ _

/-- A pixel right of the left edge of a cell, or below the cell, by line and column
from the corner of the cell. -/
theorem cellPixel_ahead (m : Memory) (hj : 8 * x ≤ 8 * c + j) (hr : y ≤ r) :
    cellPixel m r k c j =
      point m (1024 * (16 * y) + 8 * x + 1024 * (16 * (r - y) + k) + (8 * c + j - 8 * x)) := by
  rw [cellPixel_eq]
  congr 1
  omega

/-- A pixel left of the cell lies on the line that starts in the cell one line above. -/
theorem cellPixel_behind (m : Memory) (hx : x ≤ 128) (hr : y ≤ r) (hk : 0 < 16 * (r - y) + k) :
    cellPixel m r k c j =
      point m (1024 * (16 * y) + 8 * x + 1024 * (16 * (r - y) + k - 1) +
        (8 * c + j + 1024 - 8 * x)) := by
  rw [cellPixel_eq]
  congr 1
  omega

/-- The cell shows no lit pixel. -/
def BlankCell (m : Memory) (r c : Nat) : Prop := ∀ k, k < 16 → ∀ j, j < 8 → cellPixel m r k c j = 0

theorem BlankCell.points (h : BlankCell m y x) :
    ∀ k, k < 16 → ∀ j, j < 8 → point m (1024 * (16 * y) + 8 * x + 1024 * k + j) = 0 := by
  intro k hk j hj
  rw [← h k hk j hj, cellPixel_eq]
  congr 1
  omega

theorem glyphPoint_outside (glyph : Nat → UInt8) (old k : Nat) {d : Nat} (hd : 8 ≤ d) :
    glyphPoint glyph old k d = if k < 16 ∧ d = 8 ∧ bitAt (glyph k) 7 then 0 else old := by
  rw [glyphPoint, if_neg (by omega)]

variable {glyph : Nat → UInt8}

theorem cellPixel_render_own (hblank : BlankCell m y x) (hk : k < 16) (hj : j < 8) :
    cellPixel (renderGlyph glyph m (8 * x) (16 * y)) y k x j =
      if bitAt (glyph k) j then color else 0 := by
  have hcol : 8 * x + j - 8 * x = j := by omega
  have hline : 16 * (y - y) + k = k := by omega
  rw [cellPixel_ahead _ (Nat.le_add_right _ j) (Nat.le_refl y), hcol, hline,
    (point_renderGlyph hblank.points).2 k j (by omega), glyphPoint, if_pos ⟨hk, hj⟩]

/-- The other cells of the row: the last bit of a line clears the next pixel, which
for the last column is on the line below. -/
theorem cellPixel_render_row (hblank : BlankCell m y x) (hx : x < 128) (hk : k < 16) (hj : j < 8)
    (hc : c < 128) (hcx : c ≠ x) :
    cellPixel (renderGlyph glyph m (8 * x) (16 * y)) y k c j =
      if (c = x + 1 ∧ j = 0 ∧ bitAt (glyph k) 7) ∨
        (x = 127 ∧ c = 0 ∧ j = 0 ∧ 0 < k ∧ bitAt (glyph (k - 1)) 7) then 0
      else cellPixel m y k c j := by
  by_cases hright : x < c
  · have hline : 16 * (y - y) + k = k := by omega
    have hcol : 8 * c + j - 8 * x = 8 ↔ c = x + 1 ∧ j = 0 := by omega
    have hwrap : ¬ (x = 127 ∧ c = 0 ∧ j = 0 ∧ 0 < k ∧ bitAt (glyph (k - 1)) 7) := by omega
    rw [cellPixel_ahead (x := x) _ (by omega) (Nat.le_refl y),
      (point_renderGlyph hblank.points).2 _ _ (by omega), glyphPoint_outside _ _ _ (by omega),
      ← cellPixel_ahead (x := x) _ (by omega) (Nat.le_refl y), hline]
    simp only [hcol, hk, true_and, and_assoc, hwrap, or_false]
  · by_cases hk0 : k = 0
    · have hspill : ¬ ((c = x + 1 ∧ j = 0 ∧ bitAt (glyph k) 7) ∨
          (x = 127 ∧ c = 0 ∧ j = 0 ∧ 0 < k ∧ bitAt (glyph (k - 1)) 7)) := by omega
      rw [if_neg hspill, cellPixel_eq, cellPixel_eq]
      exact (point_renderGlyph hblank.points).1 _ (by omega)
    · have hline : 16 * (y - y) + k - 1 = k - 1 := by omega
      have hcol : 8 * c + j + 1024 - 8 * x = 8 ↔ x = 127 ∧ c = 0 ∧ j = 0 := by omega
      have hk' : k - 1 < 16 := by omega
      have hpos : 0 < k := by omega
      have hnext : ¬ (c = x + 1 ∧ j = 0 ∧ bitAt (glyph k) 7) := by omega
      rw [cellPixel_behind (x := x) _ hx.le (Nat.le_refl y) (by omega),
        (point_renderGlyph hblank.points).2 _ _ (by omega), glyphPoint_outside _ _ _ (by omega),
        ← cellPixel_behind (x := x) _ hx.le (Nat.le_refl y) (by omega), hline]
      simp only [hcol, hk', hpos, true_and, and_assoc, hnext, false_or]

theorem cellPixel_render_above (hblank : BlankCell m y x) (hk : k < 16) (hj : j < 8)
    (hc : c < 128) (hr : r < y) :
    cellPixel (renderGlyph glyph m (8 * x) (16 * y)) r k c j = cellPixel m r k c j := by
  rw [cellPixel_eq, cellPixel_eq]
  exact (point_renderGlyph hblank.points).1 _ (by omega)

/-- Below the row a drawn glyph lights nothing. -/
theorem cellPixel_render_below (hblank : BlankCell m y x) (hx : x < 128) (hj : j < 8)
    (hc : c < 128) (hr : y < r) :
    cellPixel (renderGlyph glyph m (8 * x) (16 * y)) r k c j = 0 ∨
      cellPixel (renderGlyph glyph m (8 * x) (16 * y)) r k c j = cellPixel m r k c j := by
  have hzero : ∀ old k d, 8 ≤ d ∨ 16 ≤ k →
      glyphPoint glyph old k d = 0 ∨ glyphPoint glyph old k d = old := by
    intro old k d h
    rw [glyphPoint, if_neg (by omega)]
    split_ifs
    · exact Or.inl rfl
    · exact Or.inr rfl
  by_cases hright : x ≤ c
  · rw [cellPixel_ahead (x := x) _ (by omega) hr.le, (point_renderGlyph hblank.points).2 _ _ (by omega),
      ← cellPixel_ahead (x := x) _ (by omega) hr.le]
    exact hzero _ _ _ (Or.inr (by omega))
  · rw [cellPixel_behind (x := x) _ hx.le hr.le (by omega),
      (point_renderGlyph hblank.points).2 _ _ (by omega),
      ← cellPixel_behind (x := x) _ hx.le hr.le (by omega)]
    exact hzero _ _ _ (Or.inl (by omega))

/-! ### Clearing -/

theorem cellPixel_clear_own (m : Memory) (hk : k < 16) (hj : j < 8) :
    cellPixel (clearGlyph m (8 * x) (16 * y)) y k x j = 0 := by
  rw [cellPixel_ahead _ (Nat.le_add_right _ j) (Nat.le_refl y),
    (point_clearGlyph m _ _).2 _ _ (by omega), if_pos (by omega)]

theorem cellPixel_clear_above (m : Memory) (hk : k < 16) (hj : j < 8) (hc : c < 128) (hr : r < y) :
    cellPixel (clearGlyph m (8 * x) (16 * y)) r k c j = cellPixel m r k c j := by
  rw [cellPixel_eq, cellPixel_eq]
  exact (point_clearGlyph m _ _).1 _ (by omega)

/-- Clearing lights nothing. -/
theorem cellPixel_clear (m : Memory) (x y r k c j : Nat) :
    cellPixel (clearGlyph m (8 * x) (16 * y)) r k c j = 0 ∨
      cellPixel (clearGlyph m (8 * x) (16 * y)) r k c j = cellPixel m r k c j := by
  by_cases hlow : 1024 * (16 * r + k) + (8 * c + j) < 1024 * (16 * y) + 8 * x
  · rw [cellPixel_eq, cellPixel_eq]
    exact Or.inr ((point_clearGlyph m _ _).1 _ hlow)
  · obtain ⟨k', d, hd, hp⟩ : ∃ k' d, d < 1024 ∧ 1024 * (16 * r + k) + (8 * c + j) =
        1024 * (16 * y) + 8 * x + 1024 * k' + d :=
      ⟨(1024 * (16 * r + k) + (8 * c + j) - (1024 * (16 * y) + 8 * x)) / 1024,
        (1024 * (16 * r + k) + (8 * c + j) - (1024 * (16 * y) + 8 * x)) % 1024, by omega, by omega⟩
    rw [cellPixel_eq, cellPixel_eq, hp, (point_clearGlyph m _ _).2 k' d hd]
    split_ifs
    · exact Or.inl rfl
    · exact Or.inr rfl

end Cell

end PaskakasaOS.Kernel.Utils.Framebuffer
