import PaskakasaOS.Kernel.Utils.Framebuffer
import PaskakasaOS.Kernel.Utils.TerminalBounds

/-!
# What the screen shows of the row buffer

The drawing calls of the terminal are carried out on a framebuffer. A glyph drawn
in the last column clears, for each line whose last bit is set, the first pixel of
the line below, where the first glyph of the same row already stands; everything
else on the screen is what the row buffer says.
-/
namespace PaskakasaOS.Kernel.Utils.Screen

open Lib.ByteMemory Lib.TextLayout
open TextTerminal TerminalContents TerminalBounds
open Framebuffer (color bitAt pixel renderGlyph cellPixel BlankCell)

/-- The bitmaps `glyphs[i][row]`. -/
abbrev Glyphs := Int → Nat → UInt8

def drawCall (glyphs : Glyphs) (m : Memory) : Draw → Memory
  | .render glyph x y => renderGlyph (glyphs glyph) m x.toNat y.toNat
  | .clear x y => Framebuffer.clearGlyph m x.toNat y.toNat

/-- The framebuffer after the calls of a console, from its content `m` on. -/
def screen (glyphs : Glyphs) (m : Memory) (t : Console) : Memory :=
  t.draws.foldl (drawCall glyphs) m

/-! ## Rows of text -/

/-- Bit `j` of line `k` in the glyph drawn for a character. -/
def lit (glyphs : Glyphs) (c : UInt8) (k j : Nat) : Bool := bitAt (glyphs (glyphIndex c) k) j

/-- The pixels that the last glyph of a full row clears in its first one. -/
def Wiped (glyphs : Glyphs) (row : List UInt8) (k c j : Nat) : Prop :=
  row.length = 128 ∧ c = 0 ∧ j = 0 ∧ 0 < k ∧ lit glyphs (row.getD 127 0) (k - 1) 7

instance (glyphs : Glyphs) (row : List UInt8) (k c j : Nat) : Decidable (Wiped glyphs row k c j) :=
  inferInstanceAs (Decidable (_ ∧ _))

def rowPixel (glyphs : Glyphs) (row : List UInt8) (k c j : Nat) : Nat :=
  if c < row.length ∧ lit glyphs (row.getD c 0) k j ∧ ¬ Wiped glyphs row k c j then color else 0

def RowShows (glyphs : Glyphs) (m : Memory) (r : Nat) (row : List UInt8) : Prop :=
  ∀ k, k < 16 → ∀ c, c < 128 → ∀ j, j < 8 → cellPixel m r k c j = rowPixel glyphs row k c j

/-- The cells of text row `r` from column `n` on are blank. -/
def BlankFrom (m : Memory) (r n : Nat) : Prop := ∀ c, n ≤ c → c < 128 → BlankCell m r c

section Row

variable {glyphs : Glyphs} {m m' : Memory} {r y : Nat} {row : List UInt8}

theorem RowShows.blankFrom (h : RowShows glyphs m r row) : BlankFrom m r row.length := by
  intro c hc hc' k hk j hj
  rw [h k hk c hc' j hj, rowPixel, if_neg (by omega)]

theorem rowShows_nil (h : BlankFrom m r 0) : RowShows glyphs m r [] := by
  intro k hk c hc j hj
  rw [h c (Nat.zero_le c) hc k hk j hj, rowPixel, if_neg (by simp)]

theorem RowShows.congr (h : RowShows glyphs m r row)
    (heq : ∀ k, k < 16 → ∀ c, c < 128 → ∀ j, j < 8 → cellPixel m' r k c j = cellPixel m r k c j) :
    RowShows glyphs m' r row :=
  fun k hk c hc j hj => (heq k hk c hc j hj).trans (h k hk c hc j hj)

/-- Drawing that lights nothing in a row keeps its blank cells blank. -/
theorem BlankFrom.of_unlit {n : Nat} (h : BlankFrom m r n)
    (hunlit : ∀ k c j, k < 16 → c < 128 → j < 8 →
      cellPixel m' r k c j = 0 ∨ cellPixel m' r k c j = cellPixel m r k c j) :
    BlankFrom m' r n := by
  intro c hc hc' k hk j hj
  rcases hunlit k c j hk hc' hj with hzero | hsame
  · exact hzero
  · exact hsame.trans (h c hc hc' k hk j hj)

/-- Only a row of 128 characters has a pixel that its last glyph clears. -/
theorem not_wiped_of_short {k c j : Nat} (h : row.length ≠ 128) : ¬ Wiped glyphs row k c j :=
  fun hwiped => h hwiped.1

theorem rowPixel_outside {k c j : Nat} (h : row.length ≤ c) : rowPixel glyphs row k c j = 0 :=
  if_neg fun hlit => absurd hlit.1 (Nat.not_lt.mpr h)

theorem rowPixel_inside {k c j : Nat} (hc : c < row.length) (h : row.length ≠ 128) :
    rowPixel glyphs row k c j = if lit glyphs (row.getD c 0) k j then color else 0 := by
  simp only [rowPixel, hc, not_wiped_of_short h, not_false_eq_true, and_true, true_and]

/-- The pixels of the last of 128 characters. -/
theorem rowPixel_full {k c j : Nat} (hlen : row.length = 127) (ch : UInt8) (hc : c < 127) :
    rowPixel glyphs (row ++ [ch]) k c j =
      if c = 0 ∧ j = 0 ∧ 0 < k ∧ lit glyphs ch (k - 1) 7 then 0 else rowPixel glyphs row k c j := by
  have hget : (row ++ [ch]).getD 127 0 = ch := by
    rw [List.getD_append_right _ _ _ _ hlen.le, hlen]
    rfl
  have hfull : (row ++ [ch]).length = 128 := by simp [hlen]
  have hwiped : Wiped glyphs (row ++ [ch]) k c j ↔
      c = 0 ∧ j = 0 ∧ 0 < k ∧ lit glyphs ch (k - 1) 7 := by
    rw [Wiped, hfull, hget]
    exact and_iff_right rfl
  have hold : rowPixel glyphs row k c j = if lit glyphs (row.getD c 0) k j then color else 0 :=
    rowPixel_inside (by omega) (by omega)
  rw [hold, rowPixel, hfull, List.getD_append _ _ _ _ (by omega)]
  by_cases hspill : c = 0 ∧ j = 0 ∧ 0 < k ∧ lit glyphs ch (k - 1) 7
  · rw [if_pos hspill, if_neg fun h => h.2.2 (hwiped.mpr hspill)]
  · rw [if_neg hspill]
    simp only [hwiped, hspill, not_false_eq_true, and_true, show c < 128 by omega, true_and]

/-- A glyph drawn behind the last one of a row. -/
theorem RowShows.render (h : RowShows glyphs m y row) (hlen : row.length < 128) (ch : UInt8) :
    RowShows glyphs (renderGlyph (glyphs (glyphIndex ch)) m (8 * row.length) (16 * y)) y
      (row ++ [ch]) := by
  have hblank : BlankCell m y row.length := h.blankFrom row.length (Nat.le_refl _) hlen
  have hcount : (row ++ [ch]).length = row.length + 1 := by simp
  intro k hk c hc j hj
  by_cases hcn : c = row.length
  · subst hcn
    have hwiped : ¬ Wiped glyphs (row ++ [ch]) k row.length j := by
      rintro ⟨hfull, hzero, _⟩
      omega
    rw [Framebuffer.cellPixel_render_own hblank hk hj, rowPixel,
      List.getD_append_right _ _ _ _ (Nat.le_refl _), Nat.sub_self]
    simp [hwiped, lit]
  rw [Framebuffer.cellPixel_render_row hblank hlen hk hj hc hcn, h k hk c hc j hj]
  by_cases hlast : row.length = 127
  · have hnext : c ≠ 128 := by omega
    rw [rowPixel_full hlast ch (by omega), hlast]
    simp only [hnext, lit, false_and, false_or, true_and, Nat.reduceAdd]
    exact if_congr Iff.rfl rfl rfl
  · by_cases hin : c < row.length
    · rw [if_neg (by omega), rowPixel_inside hin (by omega), rowPixel_inside (by omega) (by omega),
        List.getD_append _ _ _ _ hin]
    · have hold : rowPixel glyphs row k c j = 0 := rowPixel_outside (by omega)
      rw [hold, rowPixel_outside (by omega), ite_self]

end Row

/-! ## The drawing calls -/

/-- The font and the number of characters fit the mode. -/
structure CellSize (t : Console) : Prop where
  width : t.headerWidth = 8
  height : t.headerHeight = 16

section Calls

variable {glyphs : Glyphs} {m : Memory} {t : Console} {x y : UInt32}

theorem toNat_mul_cell {a b : UInt32} (h : a.toNat * b.toNat < 2 ^ 32) :
    (a * b).toNat = b.toNat * a.toNat := by
  rw [UInt32.toNat_mul, Nat.mod_eq_of_lt h, Nat.mul_comm]

/-- The corner of a character cell, in pixels. -/
theorem CellSize.corner (hsize : CellSize t) (hx : x.toNat < 128) (hy : y.toNat < 48) :
    (x * t.headerWidth).toNat = 8 * x.toNat ∧ (y * t.headerHeight).toNat = 16 * y.toNat := by
  constructor
  · rw [hsize.width]
    exact toNat_mul_cell (show x.toNat * 8 < 2 ^ 32 by omega)
  · rw [hsize.height]
    exact toNat_mul_cell (show y.toNat * 16 < 2 ^ 32 by omega)

theorem screen_printChar (glyphs : Glyphs) (m : Memory) (hsize : CellSize t) (hx : x.toNat < 128)
    (hy : y.toNat < 48) (c : UInt8) :
    screen glyphs m (printChar t c x y) =
      renderGlyph (glyphs (glyphIndex c)) (screen glyphs m t) (8 * x.toNat) (16 * y.toNat) := by
  obtain ⟨hwidth, hheight⟩ := hsize.corner hx hy
  rw [screen, printChar, List.foldl_append, List.foldl_cons, List.foldl_nil, drawCall, hwidth, hheight]
  rfl

theorem screen_clearGlyph (glyphs : Glyphs) (m : Memory) (hsize : CellSize t) (hx : x.toNat < 128)
    (hy : y.toNat < 48) :
    screen glyphs m (clearGlyph t x y) =
      Framebuffer.clearGlyph (screen glyphs m t) (8 * x.toNat) (16 * y.toNat) := by
  obtain ⟨hwidth, hheight⟩ := hsize.corner hx hy
  rw [screen, clearGlyph, List.foldl_append, List.foldl_cons, List.foldl_nil, drawCall, hwidth, hheight]
  rfl

theorem toNat_ofNat_lt {n : Nat} (h : n < 128) : (UInt32.ofNat n).toNat = n := by
  rw [UInt32.toNat_ofNat']
  exact Nat.mod_eq_of_lt (by omega)

/-- `after` differs from `before` by drawing in text row `y`: rows above are as
they were, and below nothing is lit. -/
structure DrawnAt (y : Nat) (before after : Memory) : Prop where
  above : ∀ r k c j, r < y → k < 16 → c < 128 → j < 8 →
    cellPixel after r k c j = cellPixel before r k c j
  below : ∀ r k c j, y < r → k < 16 → c < 128 → j < 8 →
    cellPixel after r k c j = 0 ∨ cellPixel after r k c j = cellPixel before r k c j

theorem DrawnAt.refl (y : Nat) (m : Memory) : DrawnAt y m m :=
  ⟨fun _ _ _ _ _ _ _ _ => rfl, fun _ _ _ _ _ _ _ _ => Or.inr rfl⟩

theorem DrawnAt.trans {y : Nat} {m₁ m₂ m₃ : Memory} (h : DrawnAt y m₁ m₂) (h' : DrawnAt y m₂ m₃) :
    DrawnAt y m₁ m₃ where
  above := fun r k c j hr hk hc hj => (h'.above r k c j hr hk hc hj).trans (h.above r k c j hr hk hc hj)
  below := by
    intro r k c j hr hk hc hj
    rcases h'.below r k c j hr hk hc hj with hzero | hsame
    · exact Or.inl hzero
    · rw [hsame]
      exact h.below r k c j hr hk hc hj

theorem drawnAt_render {glyph : Nat → UInt8} {x y : Nat} (hblank : BlankCell m y x) (hx : x < 128) :
    DrawnAt y m (renderGlyph glyph m (8 * x) (16 * y)) where
  above := fun _ _ _ _ hr hk hc hj => Framebuffer.cellPixel_render_above hblank hk hj hc hr
  below := fun _ _ _ _ hr _ hc hj => Framebuffer.cellPixel_render_below hblank hx hj hc hr

theorem drawnAt_clear (m : Memory) (x y : Nat) :
    DrawnAt y m (Framebuffer.clearGlyph m (8 * x) (16 * y)) where
  above := fun _ _ _ _ hr hk hc hj => Framebuffer.cellPixel_clear_above m hk hj hc hr
  below := fun r k c j _ _ _ _ => Framebuffer.cellPixel_clear m x y r k c j

end Calls

/-! ## Scrolling -/

section Scroll

variable {glyphs : Glyphs} {m : Memory} {t : Console} {y : Nat}

/-- After the clearing loop of a round of `scroll` the row is blank. -/
theorem screen_clearRow (hsize : CellSize t) (hy : y < 48)
    (hlen : (t.lines y).length.toNat ≤ 128)
    (hblank : BlankFrom (screen glyphs m t) y (t.lines y).length.toNat) :
    CellSize (clearRow t y) ∧ BlankFrom (screen glyphs m (clearRow t y)) y 0 ∧
      DrawnAt y (screen glyphs m t) (screen glyphs m (clearRow t y)) := by
  have hloop : ∀ n, n ≤ (t.lines y).length.toNat →
      let t' := (List.range n).foldl
        (fun t x => clearGlyph t (UInt32.ofNat x) (UInt32.ofNat y)) t
      CellSize t' ∧ DrawnAt y (screen glyphs m t) (screen glyphs m t') ∧
        BlankFrom (screen glyphs m t') y (t.lines y).length.toNat ∧
        ∀ c, c < n → BlankCell (screen glyphs m t') y c := by
    intro n hn
    induction n with
    | zero => exact ⟨hsize, DrawnAt.refl y _, hblank, fun c hc => absurd hc (Nat.not_lt_zero c)⟩
    | succ n ih =>
      obtain ⟨hsize', hdrawn, hfrom, hcells⟩ := ih (by omega)
      have hx := toNat_ofNat_lt (n := n) (by omega)
      have hy' := toNat_ofNat_lt (n := y) (by omega)
      have hcleared := screen_clearGlyph glyphs m hsize' (x := UInt32.ofNat n) (y := UInt32.ofNat y)
        (by omega) (by omega)
      rw [hx, hy'] at hcleared
      simp only [List.range_succ, List.foldl_append, List.foldl_cons, List.foldl_nil, hcleared]
      refine ⟨⟨hsize'.width, hsize'.height⟩, hdrawn.trans (drawnAt_clear _ n y), ?_, ?_⟩
      · exact hfrom.of_unlit fun k c j _ _ _ => Framebuffer.cellPixel_clear _ n y y k c j
      · intro c hc k hk j hj
        by_cases hcn : c = n
        · rw [hcn]
          exact Framebuffer.cellPixel_clear_own _ hk hj
        · rcases Framebuffer.cellPixel_clear _ n y y k c j with hzero | hsame
          · exact hzero
          · exact hsame.trans (hcells c (by omega) k hk j hj)
  obtain ⟨hsize', hdrawn, hfrom, hcells⟩ := hloop _ (Nat.le_refl _)
  refine ⟨hsize', ?_, hdrawn⟩
  intro c _ hc
  by_cases hcl : c < (t.lines y).length.toNat
  · exact hcells c hcl
  · exact hfrom c (by omega) hc

/-- The drawing loop of a round shows the row, if the row was blank before. -/
theorem screen_drawRow (hsize : CellSize t) (hy : y < 48)
    (hlen : (t.lines y).length.toNat ≤ 128) (htext : ∀ c ∈ contents (t.lines y), c ≠ 0xa)
    (hblank : BlankFrom (screen glyphs m t) y 0) :
    CellSize (drawRow t y) ∧
      RowShows glyphs (screen glyphs m (drawRow t y)) y (contents (t.lines y)) ∧
      DrawnAt y (screen glyphs m t) (screen glyphs m (drawRow t y)) := by
  have hloop : ∀ n, n ≤ (t.lines y).length.toNat →
      let t' := (List.range n).foldl
        (fun t b =>
          if (t.lines y).characters b ≠ 0xa then
            printChar t ((t.lines y).characters b) (UInt32.ofNat b) (UInt32.ofNat y)
          else t) t
      CellSize t' ∧ t'.lines = t.lines ∧
        RowShows glyphs (screen glyphs m t') y ((List.range n).map (t.lines y).characters) ∧
        DrawnAt y (screen glyphs m t) (screen glyphs m t') := by
    intro n hn
    induction n with
    | zero => exact ⟨hsize, rfl, rowShows_nil hblank, DrawnAt.refl y _⟩
    | succ n ih =>
      obtain ⟨hsize', hlines, hshows, hdrawn⟩ := ih (by omega)
      have hchar : (t.lines y).characters n ≠ 0xa := by
        apply htext
        rw [contents, List.mem_map]
        exact ⟨n, List.mem_range.mpr (by omega), rfl⟩
      have hx := toNat_ofNat_lt (n := n) (by omega)
      have hy' := toNat_ofNat_lt (n := y) (by omega)
      have hprinted := screen_printChar glyphs m hsize' (x := UInt32.ofNat n) (y := UInt32.ofNat y)
        (by omega) (by omega) ((t.lines y).characters n)
      have hcount : ((List.range n).map (t.lines y).characters).length = n := by simp
      rw [hx, hy'] at hprinted
      simp only [List.range_succ, List.foldl_append, List.foldl_cons, List.foldl_nil, hlines,
        if_pos hchar, hprinted, List.map_append, List.map_cons, List.map_nil]
      refine ⟨⟨hsize'.width, hsize'.height⟩, hlines, ?_, hdrawn.trans ?_⟩
      · have hnext := hshows.render (by omega) ((t.lines y).characters n)
        rwa [hcount] at hnext
      · refine drawnAt_render ?_ (by omega)
        exact hshows.blankFrom n hcount.le (by omega)
  obtain ⟨hsize', _, hshows, hdrawn⟩ := hloop _ (Nat.le_refl _)
  exact ⟨hsize', hshows, hdrawn⟩

/-- One round of `scroll`: the row shows what the row below held, the rows above are
left alone and the rows below keep their blank ends. -/
theorem screen_scrollRow (hsize : CellSize t) (hy : y < 48)
    (hfit : RowsFit t) (htext : ∀ c ∈ contents (t.lines (y + 1)), c ≠ 0xa)
    (hblank : BlankFrom (screen glyphs m t) y (t.lines y).length.toNat) :
    CellSize (scrollRow t y) ∧
      RowShows glyphs (screen glyphs m (scrollRow t y)) y (contents (t.lines (y + 1))) ∧
      DrawnAt y (screen glyphs m t) (screen glyphs m (scrollRow t y)) := by
  obtain ⟨hsize', hcleared, hdrawn⟩ := screen_clearRow hsize hy (hfit y (by omega)) hblank
  have hbelow : contents ((shiftRow (clearRow t y) y).lines y) = contents (t.lines (y + 1)) := by
    rw [contents_shiftRow, clearRow_lines]
  have hlen : ((shiftRow (clearRow t y) y).lines y).length.toNat ≤ 128 := by
    rw [← contents_length, hbelow, contents_length]
    exact hfit (y + 1) (by omega)
  have hshifted : CellSize (shiftRow (clearRow t y) y) := ⟨hsize'.width, hsize'.height⟩
  have hblank' : BlankFrom (screen glyphs m (shiftRow (clearRow t y) y)) y 0 := hcleared
  have hdraw := screen_drawRow hshifted hy hlen (by rwa [hbelow]) hblank'
  rw [hbelow] at hdraw
  exact ⟨hdraw.1, hdraw.2.1, hdrawn.trans hdraw.2.2⟩

theorem scrollRow_lines_of_ne (t : Console) {y r : Nat} (h : r ≠ y) :
    (scrollRow t y).lines r = t.lines r := by
  obtain ⟨row, draws, hround, _⟩ := scrollRow_spec t y
  rw [hround]
  exact Function.update_of_ne h _ _

/-- After `scroll` every row of the screen shows what the row below held. -/
theorem screen_scroll (hsize : CellSize t) (hheight : t.height.toNat = 48) (hfit : RowsFit t)
    (htext : ∀ r, r < 96 → ∀ c ∈ contents (t.lines r), c ≠ 0xa)
    (hrows : ∀ r, r < 48 → RowShows glyphs (screen glyphs m t) r (contents (t.lines r))) :
    CellSize (scroll t) ∧ ∀ r, r < 48 →
      RowShows glyphs (screen glyphs m (scroll t)) r (contents (t.lines (r + 1))) := by
  have hloop : ∀ k, k ≤ 48 →
      let s := (List.range k).foldl scrollRow (cli t)
      CellSize s ∧ RowsFit s ∧ (∀ r, k ≤ r → s.lines r = t.lines r) ∧
        (∀ r, r < k → RowShows glyphs (screen glyphs m s) r (contents (t.lines (r + 1)))) ∧
        ∀ r, k ≤ r → r < 48 → BlankFrom (screen glyphs m s) r (t.lines r).length.toNat := by
    intro k hk
    induction k with
    | zero =>
      refine ⟨⟨hsize.width, hsize.height⟩, hfit, fun _ _ => rfl, fun r hr => absurd hr (Nat.not_lt_zero r), ?_⟩
      intro r _ hr
      rw [← contents_length]
      exact (hrows r hr).blankFrom
    | succ k ih =>
      obtain ⟨hsize', hfit', hlines, hdone, hblank⟩ := ih (by omega)
      have hlower := hlines (k + 1) (by omega)
      have hround := screen_scrollRow hsize' (y := k) (by omega) hfit'
        (by rw [hlower]; exact htext (k + 1) (by omega))
        (by rw [hlines k (Nat.le_refl k)]; exact hblank k (Nat.le_refl k) (by omega))
      rw [hlower] at hround
      obtain ⟨hsize'', hshows, hdrawn⟩ := hround
      simp only [List.range_succ, List.foldl_append, List.foldl_cons, List.foldl_nil]
      refine ⟨hsize'', (scrollRow?_eq (by omega) hfit').2, ?_, ?_, ?_⟩
      · intro r hr
        rw [scrollRow_lines_of_ne _ (by omega)]
        exact hlines r (by omega)
      · intro r hr
        by_cases hrk : r = k
        · rw [hrk]
          exact hshows
        · exact (hdone r (by omega)).congr fun k' hk' c hc j hj =>
            hdrawn.above r k' c j (by omega) hk' hc hj
      · intro r hr hr'
        exact (hblank r (by omega) hr').of_unlit fun k' c j hk' hc hj =>
          hdrawn.below r k' c j (by omega) hk' hc hj
  obtain ⟨hsize', _, _, hdone, _⟩ := hloop t.height.toNat hheight.le
  exact ⟨⟨hsize'.width, hsize'.height⟩, fun r hr => hdone r (by omega)⟩

end Scroll

/-! ## Runs of the terminal -/

/-- The screen shows the row buffer of a terminal of 48 rows of 128 characters. -/
structure OnScreen (glyphs : Glyphs) (m : Memory) (t : Console) : Prop where
  size : CellSize t
  bounded : Bounded 48 128 t
  text : ∀ r, r < 96 → ∀ c ∈ contents (t.lines r), c ≠ 0xa ∧ c < 0x80
  rows : ∀ r, r < 48 → RowShows glyphs (screen glyphs m t) r (contents (t.lines r))

section Step

variable {glyphs : Glyphs} {m : Memory} {t : Console}

theorem OnScreen.newRow (h : OnScreen glyphs m t) : OnScreen glyphs m (resetX (newRow t)) := by
  have hbounded := h.bounded.newRow (by omega)
  by_cases hbottom : t.y + 1 = t.height
  · have hfit := h.bounded.rowsFit (Nat.le_refl 128)
    have hscroll := screen_scroll h.size h.bounded.height hfit
      (fun r hr c hc => (h.text r hr c hc).1) h.rows
    obtain ⟨lines, draws, hspec, hmoved, hkept⟩ := scroll_spec t
    rw [h.bounded.height] at hmoved hkept
    rw [TextTerminal.newRow, if_pos hbottom] at hbounded ⊢
    have hlines : (scroll t).lines = lines := by rw [hspec]
    refine ⟨⟨hscroll.1.width, hscroll.1.height⟩, hbounded, ?_, ?_⟩
    · intro r hr c hc
      change c ∈ contents ((scroll t).lines r) at hc
      rw [hlines] at hc
      by_cases hr48 : r < 48
      · rw [hmoved r hr48] at hc
        exact h.text (r + 1) (by omega) c hc
      · rw [hkept r (by omega)] at hc
        exact h.text r hr c hc
    · intro r hr
      show RowShows glyphs (screen glyphs m (scroll t)) r (contents ((scroll t).lines r))
      rw [hlines, hmoved r hr]
      exact hscroll.2 r hr
  · rw [TextTerminal.newRow, if_neg hbottom] at hbounded ⊢
    exact ⟨⟨h.size.width, h.size.height⟩, hbounded, h.text, h.rows⟩

theorem OnScreen.place (h : OnScreen glyphs m t) (hroom : t.x.toNat < 128) {c : UInt8}
    (hc : c ≠ 0xa ∧ c < 0x80) : OnScreen glyphs m (place t c) := by
  have hy := h.bounded.cursorY
  have hlength : (t.lines t.y.toNat).length.toNat = t.x.toNat := by rw [h.bounded.current]
  have hcount : (contents (t.lines t.y.toNat)).length = t.x.toNat := by
    rw [contents_length, hlength]
  have hpush := contents_push (t.lines t.y.toNat) c (by omega)
  rw [hlength] at hpush
  have hprinted := screen_printChar glyphs m h.size hroom hy c
  have hdrawn : DrawnAt t.y.toNat (screen glyphs m t) (screen glyphs m (printChar t c t.x t.y)) := by
    rw [hprinted]
    exact drawnAt_render ((h.rows _ hy).blankFrom _ hcount.le hroom) hroom
  refine ⟨⟨h.size.width, h.size.height⟩, h.bounded.place (Nat.le_refl 128) hroom c, ?_, ?_⟩
  · intro r hr ch hch
    rw [place_lines] at hch
    by_cases hry : r = t.y.toNat
    · rw [hry, Function.update_self, hpush, List.mem_append, List.mem_singleton] at hch
      rcases hch with hold | rfl
      · exact h.text _ (by omega) ch hold
      · exact hc
    · rw [Function.update_of_ne hry] at hch
      exact h.text r hr ch hch
  · intro r hr
    show RowShows glyphs (screen glyphs m (printChar t c t.x t.y)) r _
    rw [place_lines]
    rcases Nat.lt_trichotomy r t.y.toNat with hlt | heq | hgt
    · rw [Function.update_of_ne hlt.ne]
      exact (h.rows r hr).congr fun k hk c hc j hj => hdrawn.above r k c j hlt hk hc hj
    · have hnext := (h.rows _ hy).render (by omega) c
      rw [hcount, ← hprinted] at hnext
      rw [heq, Function.update_self, hpush]
      exact hnext
    · have hempty : contents (t.lines r) = [] := by
        apply List.eq_nil_of_length_eq_zero
        rw [contents_length, h.bounded.below r hgt (by omega)]
        rfl
      have hblank := (h.rows r hr).blankFrom
      rw [hempty] at hblank
      rw [Function.update_of_ne hgt.ne', hempty]
      exact rowShows_nil (hblank.of_unlit fun k c j hk hc hj => hdrawn.below r k c j hgt hk hc hj)

theorem OnScreen.printCharacter (h : OnScreen glyphs m t) {c : UInt8} (hc : c < 0x80) :
    OnScreen glyphs m (printCharacter t c) := by
  rw [TextTerminal.printCharacter]
  by_cases hnewline : c = 0xa
  · rw [if_pos hnewline]
    exact h.newRow
  · rw [if_neg hnewline]
    by_cases hx : t.x = t.width
    · rw [if_pos hx]
      exact h.newRow.place (show (0 : UInt32).toNat < 128 by decide) ⟨hnewline, hc⟩
    · rw [if_neg hx]
      exact h.place (h.bounded.room hx) ⟨hnewline, hc⟩

theorem OnScreen.printcount (h : OnScreen glyphs m t) {string : List UInt8}
    (hstring : ∀ c ∈ string, c < 0x80) : OnScreen glyphs m (printcount t string) := by
  induction string generalizing t with
  | nil => exact h
  | cons c string ih =>
    exact ih (h.printCharacter (hstring c List.mem_cons_self))
      fun c' hc' => hstring c' (List.mem_cons_of_mem c hc')

theorem OnScreen.calls (h : OnScreen glyphs m t) {calls : List (List UInt8)}
    (hcalls : ∀ string ∈ calls, ∀ c ∈ string, c < 0x80) :
    OnScreen glyphs m (calls.foldl TextTerminal.printcount t) := by
  induction calls generalizing t with
  | nil => exact h
  | cons string calls ih =>
    exact ih (h.printcount (hcalls string List.mem_cons_self))
      fun s hs => hcalls s (List.mem_cons_of_mem string hs)

end Step

/-- A blank screen in any memory. -/
def blankScreen (m : Memory) : Memory := fill m 0 (2048 * 768) 0

theorem blankScreen_blankFrom (m : Memory) {r : Nat} (hr : r < 48) (n : Nat) :
    BlankFrom (blankScreen m) r n := by
  intro c _ hc k hk j hj
  rw [cellPixel, pixel, Framebuffer.offset]
  exact readLE_fill_zero (Nat.zero_le _) (by omega)

theorem height_sampleSizes (t : Console) : (initTextTerminal sampleSizes t).height.toNat = 48 := rfl

theorem width_sampleSizes (t : Console) : (initTextTerminal sampleSizes t).width.toNat = 128 := rfl

theorem onScreen_initTextTerminal (glyphs : Glyphs) (m : Memory) (t : Console) :
    OnScreen glyphs (blankScreen m) (initTextTerminal sampleSizes { t with draws := [] }) := by
  have hempty : ∀ r, r < 96 →
      contents ((initTextTerminal sampleSizes { t with draws := [] }).lines r) = [] := by
    intro r hr
    apply List.eq_nil_of_length_eq_zero
    rw [contents_length, initTextTerminal_length _ _ hr]
    rfl
  refine ⟨⟨rfl, rfl⟩, ?_, ?_, ?_⟩
  · exact bounded_initTextTerminal sampleSizes { t with draws := [] }
      (by rw [height_sampleSizes]; decide)
  · intro r hr c hc
    rw [hempty r hr] at hc
    exact absurd hc List.not_mem_nil
  · intro r hr
    rw [hempty r (by omega)]
    exact rowShows_nil (blankScreen_blankFrom m hr 0)

/-! ## What a reader sees -/

/-- Every pixel of every text cell is what the row buffer says. -/
def Agrees (glyphs : Glyphs) (m : Memory) (t : Console) : Prop :=
  ∀ r, r < t.height.toNat → ∀ c, c < t.width.toNat → ∀ k, k < 16 → ∀ j, j < 8 →
    pixel (screen glyphs m t) (8 * c + j) (16 * r + k) =
      if c < (t.lines r).length.toNat ∧ bitAt (glyphs ((t.lines r).characters c).toNat k) j then
        color % 2 ^ 16
      else 0

/-- A full row whose last glyph has the last bit of a line set, and whose first glyph
has the first bit of the next line set. -/
def Conflict (glyphs : Glyphs) (row : List UInt8) : Prop :=
  row.length = 128 ∧ ∃ k, k < 15 ∧ bitAt (glyphs (row.getD 127 0).toNat k) 7 ∧
    bitAt (glyphs (row.getD 0 0).toNat (k + 1)) 0

theorem glyphIndex_ascii {c : UInt8} (hc : c < 0x80) : glyphIndex c = c.toNat := by
  have hlt : c.toNat < 128 := hc
  have hint : c.toInt8.toInt = c.toNat := by
    show c.toBitVec.toInt = c.toNat
    exact BitVec.toInt_eq_toNat_of_lt (by show 2 * c.toNat < 2 ^ 8; omega)
  rw [glyphIndex, if_neg, hint]
  intro heq
  rw [heq] at hint
  have hnegative : (-61 : Int8).toInt = -61 := by decide
  omega

section Agreement

variable {glyphs : Glyphs} {m : Memory} {t : Console}

theorem lit_getD {row : List UInt8} (hascii : ∀ c ∈ row, c < 0x80) {c : Nat} (hc : c < row.length)
    (k j : Nat) : lit glyphs (row.getD c 0) k j = bitAt (glyphs (row.getD c 0).toNat k) j := by
  have hmem : row.getD c 0 ∈ row := by
    rw [List.getD_eq_getElem _ _ hc]
    exact List.getElem_mem hc
  rw [lit, glyphIndex_ascii (hascii _ hmem)]

/-- A row shows its text exactly when its ends do not meet. -/
theorem rowPixel_agrees_iff {row : List UInt8} (hascii : ∀ c ∈ row, c < 0x80) :
    (∀ c, c < 128 → ∀ k, k < 16 → ∀ j, j < 8 → rowPixel glyphs row k c j =
      if c < row.length ∧ bitAt (glyphs (row.getD c 0).toNat k) j then color else 0) ↔
      ¬ Conflict glyphs row := by
  constructor
  · rintro h ⟨hfull, k, hk, hlast, hfirst⟩
    have hpixel := h 0 (by omega) (k + 1) (by omega) 0 (by omega)
    have hwiped : Wiped glyphs row (k + 1) 0 0 := by
      refine ⟨hfull, rfl, rfl, Nat.succ_pos k, ?_⟩
      rw [lit_getD hascii (by omega)]
      exact hlast
    rw [rowPixel, if_neg (fun hcon => hcon.2.2 hwiped), if_pos ⟨by omega, hfirst⟩] at hpixel
    exact absurd hpixel (by decide)
  · intro h c hc k hk j hj
    rw [rowPixel]
    by_cases hin : c < row.length
    · rw [lit_getD hascii hin]
      by_cases hwiped : Wiped glyphs row k c j
      · obtain ⟨hfull, rfl, rfl, hk0, hlast⟩ := hwiped
        rw [lit_getD hascii (by omega)] at hlast
        have hdark : ¬ bitAt (glyphs (row.getD 0 0).toNat k) 0 := by
          intro hfirst
          refine h ⟨hfull, k - 1, by omega, hlast, ?_⟩
          rwa [Nat.sub_add_cancel hk0]
        rw [if_neg (fun hcon => hdark hcon.2.1), if_neg (fun hcon => hdark hcon.2)]
      · simp [hwiped]
    · simp [hin]

/-- A terminal whose screen shows its buffer agrees with it unless a row conflicts. -/
theorem OnScreen.agrees_iff (h : OnScreen glyphs m t) :
    Agrees glyphs m t ↔ ∀ r, r < 48 → ¬ Conflict glyphs (contents (t.lines r)) := by
  have hcell : ∀ r c, c < (t.lines r).length.toNat →
      (contents (t.lines r)).getD c 0 = (t.lines r).characters c := by
    intro r c hc
    rw [List.getD_eq_getElem _ _ (by rwa [contents_length])]
    simp [contents]
  have hexpected : ∀ r c k j, (if c < (t.lines r).length.toNat ∧
      bitAt (glyphs ((t.lines r).characters c).toNat k) j then color % 2 ^ 16 else 0) =
      if c < (contents (t.lines r)).length ∧
        bitAt (glyphs ((contents (t.lines r)).getD c 0).toNat k) j then color else 0 := by
    intro r c k j
    rw [contents_length]
    by_cases hc : c < (t.lines r).length.toNat
    · rw [hcell r c hc]
      rfl
    · simp [hc]
  rw [Agrees, h.bounded.height, h.bounded.width]
  refine forall_congr' fun r => imp_congr_right fun hr => ?_
  rw [← rowPixel_agrees_iff fun c hc => (h.text r (by omega) c hc).2]
  refine forall_congr' fun c => imp_congr_right fun hc => forall_congr' fun k =>
    imp_congr_right fun hk => forall_congr' fun j => imp_congr_right fun hj => ?_
  rw [hexpected, ← h.rows r hr k hk c hc j hj]
  rfl

end Agreement

/-- The buffer after any calls on a fresh terminal. -/
theorem contents_calls (t : Console) (calls : List (List UInt8)) :
    (List.range 48).map (fun r =>
      contents ((calls.foldl printcount (initTextTerminal sampleSizes t)).lines r)) =
      window 48 (layout 128 0xa calls.flatten) :=
  eq_window _ ((shows_initTextTerminal sampleSizes t (by rw [height_sampleSizes]; decide)).calls
    (by rw [width_sampleSizes]; decide) calls).rows

/-- The screen agrees with the row buffer after a sequence of calls exactly when no
row on the screen conflicts with itself. -/
theorem printcount_agrees_iff (glyphs : Glyphs) (m : Memory) (t : Console)
    (calls : List (List UInt8)) (hascii : ∀ string ∈ calls, ∀ c ∈ string, c < 0x80) :
    Agrees glyphs (blankScreen m)
      (calls.foldl printcount (initTextTerminal sampleSizes { t with draws := [] })) ↔
      ∀ row ∈ window 48 (layout 128 0xa calls.flatten), ¬ Conflict glyphs row := by
  have hscreen := (onScreen_initTextTerminal glyphs m t).calls hascii
  rw [hscreen.agrees_iff, ← contents_calls { t with draws := [] }]
  simp only [List.mem_map, List.mem_range, forall_exists_index, and_imp]
  constructor
  · rintro h row r hr rfl
    exact h r hr
  · exact fun h r hr => h _ r hr rfl

/-- A font of solid blocks. -/
def blocks : Glyphs := fun _ _ => 0xFF

/-- The full row has been scrolled away, and no other one conflicts with itself. -/
theorem printcount_agrees_iff_scrolled :
    Agrees blocks (blankScreen fun _ => 0)
      (longCalls.foldl printcount (initTextTerminal sampleSizes { zeroConsole with draws := [] })) := by
  refine (printcount_agrees_iff blocks _ zeroConsole longCalls (by decide +kernel)).mpr
    fun row hrow hconflict => ?_
  rw [window_longCalls] at hrow
  have hshort : ∀ row ∈ [(0x61 : UInt8), 0x61] :: (List.replicate 46 [] ++ [[0x62]]),
      row.length ≠ 128 := by decide
  exact hshort row hrow hconflict.1

/-- A row of 128 blocks loses the left edge of its first one. -/
theorem full_row_not_agrees :
    ¬ Agrees blocks (blankScreen fun _ => 0)
      ([List.replicate 128 0x61].foldl printcount
        (initTextTerminal sampleSizes { zeroConsole with draws := [] })) := by
  have hascii : ∀ string ∈ [List.replicate 128 (0x61 : UInt8)], ∀ c ∈ string, c < 0x80 := by
    intro string hstring c hc
    rw [List.mem_singleton] at hstring
    rw [hstring] at hc
    rw [List.eq_of_mem_replicate hc]
    decide
  have hscreen := (onScreen_initTextTerminal blocks (fun _ => 0) zeroConsole).calls hascii
  have hrow : List.replicate 128 0x61 ∈
      window 48 (layout 128 0xa [List.replicate 128 (0x61 : UInt8)].flatten) := by
    rw [List.flatten_singleton, layout_of_short (by simp) (by simp)]
    simp [window]
  rw [← contents_calls { zeroConsole with draws := [] }, List.mem_map] at hrow
  obtain ⟨r, hr, hcontents⟩ := hrow
  rw [hscreen.agrees_iff]
  intro h
  apply h r (List.mem_range.mp hr)
  rw [hcontents]
  refine ⟨List.length_replicate, 0, by omega, ?_, ?_⟩
  · show bitAt 0xFF 7 = true
    decide
  · show bitAt 0xFF 0 = true
    decide

end PaskakasaOS.Kernel.Utils.Screen
