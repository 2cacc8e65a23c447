import PaskakasaOS.Kernel.Utils.Drawings
import PaskakasaOS.Kernel.Utils.Screen

/-!
# Which drawing leaves the framebuffer

The stores of `render_glyph` and `clear_glyph`, which are four bytes wide and of which
`clear_glyph` makes one row and one column too many. Only the bottom row of the screen
is near enough to the end of the framebuffer: clearing any of its cells leaves it, and
so does the last pixel of a glyph in its last cell.
-/
namespace PaskakasaOS.Kernel.Utils.FramebufferBounds

open Lib.ByteMemory Lib.TextLayout
open TextTerminal TerminalContents TerminalBounds Drawings Screen
open Framebuffer (offset bitAt setPixel clearPixel renderGlyph)

/-! ## Stores -/

/-- The pixels `render_glyph` stores at, in order. -/
def renderStores (glyph : Nat → UInt8) (x y : Nat) : List (Nat × Nat) :=
  (List.range 16).flatMap fun row =>
    (List.range 8).flatMap fun col => if bitAt (glyph row) col then [(x + col, y + row)] else []

/-- The pixels `clear_glyph` stores at, in order. -/
def clearStores (x y : Nat) : List (Nat × Nat) :=
  (List.range 17).flatMap fun row => (List.range 9).flatMap fun col => [(x + col, y + row)]

theorem renderGlyph_eq_stores (glyph : Nat → UInt8) (m : Memory) (x y : Nat) :
    renderGlyph glyph m x y =
      (renderStores glyph x y).foldl (fun m p => setPixel m p.1 p.2) m := by
  have hrow : ∀ row m, Framebuffer.renderRow (glyph row) m x (y + row) =
      ((List.range 8).flatMap fun col =>
        if bitAt (glyph row) col then [(x + col, y + row)] else []).foldl
        (fun m p => setPixel m p.1 p.2) m := by
    intro row m
    rw [Framebuffer.renderRow, List.foldl_flatMap]
    congr 1
    funext m col
    by_cases hbit : bitAt (glyph row) col
    · rw [if_pos hbit, if_pos hbit]
      rfl
    · rw [if_neg hbit, if_neg hbit]
      rfl
  rw [renderGlyph, renderStores, List.foldl_flatMap]
  congr 1
  funext m row
  exact hrow row m

theorem clearGlyph_eq_stores (m : Memory) (x y : Nat) :
    Framebuffer.clearGlyph m x y =
      (clearStores x y).foldl (fun m p => clearPixel m p.1 p.2) m := by
  have hrow : ∀ row m, Framebuffer.clearRow m x (y + row) =
      ((List.range 9).flatMap fun col => [(x + col, y + row)]).foldl
        (fun m p => clearPixel m p.1 p.2) m := by
    intro row m
    rw [Framebuffer.clearRow, List.foldl_flatMap]
    rfl
  rw [Framebuffer.clearGlyph, clearStores, List.foldl_flatMap]
  simp only [hrow]

/-- The four bytes stored for a pixel lie in the framebuffer of 768 lines. -/
def StoreInside (p : Nat × Nat) : Prop := offset p.1 p.2 + 4 ≤ 2048 * 768

/-- Every byte a drawing call stores lies in the framebuffer. -/
def DrawInside (glyphs : Glyphs) : Draw → Prop
  | .render glyph x y => ∀ p ∈ renderStores (glyphs glyph) x.toNat y.toNat, StoreInside p
  | .clear x y => ∀ p ∈ clearStores x.toNat y.toNat, StoreInside p

/-! ## Cells -/

section Cells

variable {glyphs : Glyphs} {glyph : Nat → UInt8} {x y : Nat}

theorem mem_renderStores {p : Nat × Nat} : p ∈ renderStores glyph x y ↔
    ∃ row < 16, ∃ col < 8, bitAt (glyph row) col ∧ p = (x + col, y + row) := by
  simp only [renderStores, List.mem_flatMap, List.mem_range]
  refine exists_congr fun row => and_congr_right fun _ => exists_congr fun col =>
    and_congr_right fun _ => ?_
  by_cases hbit : bitAt (glyph row) col
  · rw [if_pos hbit, List.mem_singleton]
    exact (and_iff_right hbit).symm
  · rw [if_neg hbit]
    exact iff_of_false List.not_mem_nil fun h => hbit h.1

theorem mem_clearStores {p : Nat × Nat} : p ∈ clearStores x y ↔
    ∃ row < 17, ∃ col < 9, p = (x + col, y + row) := by
  simp only [clearStores, List.mem_flatMap, List.mem_range, List.mem_singleton]

/-- Of the glyphs drawn in a cell, only one whose last pixel is lit leaves the
framebuffer, and only from the last cell of the bottom row. -/
theorem render_inside_iff (hx : x < 128) (hy : y < 48) :
    (∀ p ∈ renderStores glyph (8 * x) (16 * y), StoreInside p) ↔
      ¬ (x = 127 ∧ y = 47 ∧ bitAt (glyph 15) 7) := by
  constructor
  · intro hall hlast
    obtain ⟨rfl, rfl, hbit⟩ := hlast
    have hstore := hall _ (mem_renderStores.mpr ⟨15, by omega, 7, by omega, hbit, rfl⟩)
    rw [StoreInside, offset] at hstore
    omega
  · intro hlast p hp
    obtain ⟨row, hrow, col, hcol, hbit, rfl⟩ := mem_renderStores.mp hp
    rw [StoreInside, offset]
    by_contra hout
    have hcorner : x = 127 ∧ y = 47 ∧ row = 15 ∧ col = 7 := by omega
    obtain ⟨rfl, rfl, rfl, rfl⟩ := hcorner
    exact hlast ⟨rfl, rfl, hbit⟩

/-- Clearing leaves the framebuffer from the bottom row. -/
theorem clear_inside_iff (hx : x < 128) (hy : y < 48) :
    (∀ p ∈ clearStores (8 * x) (16 * y), StoreInside p) ↔ y ≠ 47 := by
  constructor
  · intro hall hbottom
    have hstore := hall _ (mem_clearStores.mpr ⟨16, by omega, 0, by omega, rfl⟩)
    rw [StoreInside, offset] at hstore
    omega
  · intro hbottom p hp
    obtain ⟨row, hrow, col, hcol, rfl⟩ := mem_clearStores.mp hp
    rw [StoreInside, offset]
    omega

end Cells

/-! ## The terminal and the page -/

/-- The terminal shows the bottom of a page on the screen of 48 rows of 128 cells. -/
structure Laid (t : Console) (p : Page UInt8) : Prop where
  size : CellSize t
  bounded : Bounded 48 128 t
  shows : Shows 48 128 t p

section Steps

variable {glyphs : Glyphs} {t : Console} {p : Page UInt8}

theorem Laid.newRow (h : Laid t p) : Laid (resetX (newRow t)) p.break := by
  obtain ⟨hwidth, hheight, _⟩ := newRow_sizes t
  exact ⟨⟨hwidth.trans h.size.width, hheight.trans h.size.height⟩, h.bounded.newRow (by omega),
    h.shows.newRow⟩

theorem Laid.place (h : Laid t p) (hroom : t.x.toNat < 128) (c : UInt8) :
    Laid (place t c) (p.append c) := by
  have hlength : p.current.length < 128 := by rwa [← h.shows.cursorX]
  exact ⟨⟨h.size.width, h.size.height⟩, h.bounded.place (Nat.le_refl 128) hroom c,
    h.shows.place hlength c⟩

/-- The terminal is on its last row when the page has 47 finished ones. -/
theorem Laid.bottom_iff (h : Laid t p) : t.y.toNat = 47 ↔ 47 ≤ p.finished.length := by
  have hy := h.shows.cursorY
  rw [rows_length] at hy
  omega

theorem Laid.next_iff (h : Laid t p) : t.y + 1 = t.height ↔ 47 ≤ p.finished.length := by
  have hy := h.bounded.cursorY
  have hnext : (t.y + 1).toNat = t.y.toNat + 1 := toNat_succ (n := 48) (by omega) (by omega)
  rw [← UInt32.toNat_inj, hnext, h.bounded.height, ← h.bottom_iff]
  omega

/-- On a page, no row from the 48th on but the last one holds a character, and a last one
that is full does not end with a lit pixel. -/
def BottomSafe (glyphs : Glyphs) (p : Page UInt8) : Prop :=
  (∀ row ∈ p.finished.drop 47, row = []) ∧
    (47 ≤ p.finished.length → ∀ c, p.current[127]? = some c →
      ¬ bitAt (glyphs (glyphIndex c) 15) 7)

/-- What holds of the drawing calls for a character that is placed. -/
theorem Laid.charDraw_inside_iff (h : Laid t p) (hroom : t.x.toNat < 128) (c : UInt8) :
    (DrawInside glyphs (charDraw t c t.x t.y) ∧ BottomSafe glyphs p) ↔
      BottomSafe glyphs (p.append c) := by
  have hx := h.shows.cursorX
  have hy := h.bounded.cursorY
  obtain ⟨hwidth, hheight⟩ := h.size.corner hroom hy
  have hdraw : DrawInside glyphs (charDraw t c t.x t.y) ↔
      ¬ (t.x.toNat = 127 ∧ t.y.toNat = 47 ∧ bitAt (glyphs (glyphIndex c) 15) 7) := by
    rw [charDraw, DrawInside, hwidth, hheight]
    exact render_inside_iff hroom hy
  have hold : p.current[127]? = none := List.getElem?_eq_none (by omega)
  rw [hdraw, h.bottom_iff, BottomSafe, BottomSafe, hold]
  show _ ↔ (∀ row ∈ p.finished.drop 47, row = []) ∧
    (47 ≤ p.finished.length → ∀ c', (p.current ++ [c])[127]? = some c' → _)
  by_cases hlast : t.x.toNat = 127
  · have hnew : (p.current ++ [c])[127]? = some c := by
      rw [← hlast, hx]
      exact List.getElem?_concat_length
    simp only [hnew, hlast, true_and, Option.some.injEq, forall_eq', reduceCtorEq, false_implies,
      implies_true, and_true, not_and]
    exact and_comm
  · have hnew : (p.current ++ [c])[127]? = none := by
      rw [List.getElem?_eq_none_iff, List.length_append, List.length_singleton]
      omega
    simp only [hnew, hlast, false_and, not_false_eq_true, true_and, reduceCtorEq, false_implies,
      implies_true]

/-- Scrolling stays in the framebuffer when the bottom row is empty. -/
theorem Laid.scroll_inside_iff (h : Laid t p) (hbottom : 47 ≤ p.finished.length) :
    (∀ d ∈ scrollDraws t, DrawInside glyphs d) ↔ p.current = [] := by
  have hheight := h.bounded.height
  have hfit := h.bounded.rows
  have hrow : contents (t.lines 47) = p.current := by
    rw [h.shows.rows 47 (by omega), rows_length]
    exact rows_getD_last p (by rw [rows_length]; omega)
  have hempty : (t.lines 47).length.toNat = 0 ↔ p.current = [] := by
    rw [← contents_length, hrow, List.length_eq_zero_iff]
  constructor
  · intro hall
    rw [← hempty]
    by_contra hfilled
    have hcorner := h.size.corner (x := UInt32.ofNat 0) (y := UInt32.ofNat 47) (by decide) (by decide)
    have hclear := hall _ (mem_scrollDraws.mpr ⟨47, by omega, Or.inl
      (mem_rowClears.mpr ⟨0, Nat.pos_of_ne_zero hfilled, rfl⟩)⟩)
    rw [DrawInside, hcorner.1, hcorner.2] at hclear
    exact (clear_inside_iff (by decide) (by decide)).mp hclear rfl
  · intro hnone d hd
    obtain ⟨y, hy, hd⟩ := mem_scrollDraws.mp hd
    rw [hheight] at hy
    have hy' := toNat_ofNat_lt (n := y) (by omega)
    rcases hd with hclear | hrender
    · obtain ⟨x, hx, rfl⟩ := mem_rowClears.mp hclear
      have hxlt : x < 128 := Nat.lt_of_lt_of_le hx (hfit y (by omega))
      have hx' := toNat_ofNat_lt hxlt
      have hcorner := h.size.corner (x := UInt32.ofNat x) (y := UInt32.ofNat y) (by omega) (by omega)
      have habove : y ≠ 47 := by
        rintro rfl
        rw [hempty.mpr hnone] at hx
        exact Nat.not_lt_zero x hx
      rw [DrawInside, hcorner.1, hcorner.2, hx', hy']
      exact (clear_inside_iff hxlt hy).mpr habove
    · obtain ⟨b, hb, _, rfl⟩ := mem_rowRenders.mp hrender
      have hblt : b < 128 := by
        rw [contents_length] at hb
        exact Nat.lt_of_lt_of_le hb (hfit (y + 1) (by omega))
      have hb' := toNat_ofNat_lt hblt
      have hcorner := h.size.corner (x := UInt32.ofNat b) (y := UInt32.ofNat y) (by omega) (by omega)
      have habove : y ≠ 47 := by
        rintro rfl
        rw [h.shows.below] at hb
        exact Nat.not_lt_zero b hb
      rw [charDraw, DrawInside, hcorner.1, hcorner.2, hb', hy']
      exact (render_inside_iff hblt hy).mpr fun hlast => habove hlast.2.1

/-- What holds of the drawing calls when a new row starts. -/
theorem Laid.newRow_inside_iff (h : Laid t p) :
    ((∀ d ∈ newRowDraws t, DrawInside glyphs d) ∧ BottomSafe glyphs p) ↔
      BottomSafe glyphs p.break := by
  have hnone : ∀ c : UInt8, ([] : List UInt8)[127]? = some c → ¬ bitAt (glyphs (glyphIndex c) 15) 7 :=
    fun c hc => nomatch hc
  have hbreak : BottomSafe glyphs p.break ↔ ∀ row ∈ (p.finished ++ [p.current]).drop 47, row = [] :=
    and_iff_left fun _ => hnone
  rw [hbreak, newRowDraws]
  by_cases hbottom : 47 ≤ p.finished.length
  · rw [if_pos (h.next_iff.mpr hbottom), h.scroll_inside_iff hbottom,
      List.drop_append_of_le_length hbottom]
    simp only [List.mem_append, List.mem_singleton, or_imp, forall_and, forall_eq]
    constructor
    · exact fun hboth => ⟨hboth.2.1, hboth.1⟩
    · intro hboth
      refine ⟨hboth.2, hboth.1, ?_⟩
      rw [hboth.2]
      exact fun _ => hnone
  · have hdrop : (p.finished ++ [p.current]).drop 47 = [] := by
      apply List.drop_eq_nil_of_le
      rw [List.length_append, List.length_singleton]
      omega
    have hdrop' : p.finished.drop 47 = [] := List.drop_eq_nil_of_le (by omega)
    rw [if_neg fun hnext => hbottom (h.next_iff.mp hnext), BottomSafe, hdrop, hdrop']
    refine iff_of_true ⟨fun d hd => absurd hd List.not_mem_nil, fun row hrow => ?_, fun hle => ?_⟩
      fun row hrow => ?_
    · exact absurd hrow List.not_mem_nil
    · exact absurd hle hbottom
    · exact absurd hrow List.not_mem_nil

theorem Laid.printCharacter (h : Laid t p) (c : UInt8) :
    Laid (printCharacter t c) (p.put 128 0xa c) := by
  refine ⟨?_, (h.bounded.printCharacter (by omega) (by omega) c).2, h.shows.printCharacter (by omega) c⟩
  obtain ⟨hwidth, hheight, _⟩ := newRow_sizes t
  have hnew : CellSize (TextTerminal.newRow t) := ⟨hwidth.trans h.size.width, hheight.trans h.size.height⟩
  rw [TextTerminal.printCharacter]
  split
  · exact ⟨hnew.width, hnew.height⟩
  split
  · exact ⟨hnew.width, hnew.height⟩
  · exact ⟨h.size.width, h.size.height⟩

/-- One character of the text. -/
theorem Laid.character_inside_iff (h : Laid t p) (c : UInt8) :
    ((∀ d ∈ characterDraws t c, DrawInside glyphs d) ∧ BottomSafe glyphs p) ↔
      BottomSafe glyphs (p.put 128 0xa c) := by
  have hfull : p.current.length = 128 ↔ t.x = t.width := by
    rw [← h.shows.cursorX, h.bounded.full_iff]
  have hrow : ((∀ d ∈ newRowDraws t, DrawInside glyphs d) ∧ BottomSafe glyphs p) ↔
      BottomSafe glyphs p.break := h.newRow_inside_iff
  rw [characterDraws, Page.put]
  by_cases hnewline : c = 0xa
  · rw [if_pos hnewline, if_pos hnewline, hrow]
  rw [if_neg hnewline, if_neg hnewline]
  by_cases hx : t.x = t.width
  · have hroom : (resetX (TextTerminal.newRow t)).x.toNat < 128 := Nat.zero_lt_succ 127
    have hplace : (DrawInside glyphs (charDraw (resetX (TextTerminal.newRow t)) c 0
        (TextTerminal.newRow t).y) ∧ BottomSafe glyphs p.break) ↔
        BottomSafe glyphs (p.break.append c) := h.newRow.charDraw_inside_iff hroom c
    rw [charDraw_newRow] at hplace
    rw [if_pos hx, if_pos (hfull.mpr hx), ← hplace, ← hrow]
    simp only [List.mem_append, List.mem_singleton, or_imp, forall_and, forall_eq]
    rw [and_comm (b := DrawInside _ _), and_assoc]
  · rw [if_neg hx, if_neg fun heq => hx (hfull.mp heq),
      ← h.charDraw_inside_iff (h.bounded.room hx) c]
    simp only [List.mem_singleton, forall_eq]

/-- A text. -/
theorem Laid.drawn_inside_iff (h : Laid t p) (text : List UInt8) :
    ((∀ d ∈ drawn t text, DrawInside glyphs d) ∧ BottomSafe glyphs p) ↔
      BottomSafe glyphs (text.foldl (Page.put 128 0xa) p) := by
  induction text generalizing t p with
  | nil => exact and_iff_right fun d hd => absurd hd List.not_mem_nil
  | cons c text ih =>
    rw [List.foldl_cons, ← ih (h.printCharacter c), ← h.character_inside_iff c]
    simp only [drawn, List.mem_append, or_imp, forall_and]
    rw [and_comm (a := ∀ d ∈ characterDraws t c, _), and_assoc]

end Steps

/-! ## Runs of the terminal -/

/-- Every byte that the drawing of a run stores lies in the framebuffer. -/
def StoresInside (glyphs : Glyphs) (t : Console) : Prop := ∀ d ∈ t.draws, DrawInside glyphs d

/-- The page of a sequence of `printcount` calls. -/
def pageOf (calls : List (List UInt8)) : Page UInt8 :=
  calls.flatten.foldl (Page.put 128 0xa) Page.empty

theorem laid_initTextTerminal (t : Console) :
    Laid (initTextTerminal sampleSizes { t with draws := [] }) Page.empty where
  size := ⟨rfl, rfl⟩
  bounded := bounded_initTextTerminal sampleSizes _ (by rw [height_sampleSizes]; decide)
  shows := shows_initTextTerminal sampleSizes _ (by rw [height_sampleSizes]; decide)

theorem bottomSafe_empty (glyphs : Glyphs) : BottomSafe glyphs Page.empty :=
  ⟨fun row hrow => absurd hrow List.not_mem_nil, fun hle => absurd hle (by decide)⟩

/-- One call on a fresh terminal. -/
theorem storesInside_printcount_iff (glyphs : Glyphs) (t : Console) (text : List UInt8) :
    StoresInside glyphs (printcount (initTextTerminal sampleSizes { t with draws := [] }) text) ↔
      BottomSafe glyphs (text.foldl (Page.put 128 0xa) Page.empty) := by
  rw [← (laid_initTextTerminal t).drawn_inside_iff, and_iff_left (bottomSafe_empty glyphs),
    StoresInside, printcount_draws]
  rfl

/-- After any calls on a fresh terminal, all stores were in the framebuffer exactly when
the page is safe: whatever reached the bottom row was not followed by another row, and did
not fill it up to a lit last pixel. -/
theorem storesInside_iff (glyphs : Glyphs) (t : Console) (calls : List (List UInt8)) :
    StoresInside glyphs
      (calls.foldl printcount (initTextTerminal sampleSizes { t with draws := [] })) ↔
      BottomSafe glyphs (pageOf calls) := by
  have hcalls : ∀ t : Console, calls.foldl printcount t = printcount t calls.flatten := by
    intro t
    rw [printcount, List.foldl_flatten]
    rfl
  rw [hcalls, storesInside_printcount_iff, pageOf]

/-- A character on the bottom row, and a newline that scrolls it. -/
theorem scroll_not_storesInside :
    ¬ ∀ (glyphs : Glyphs) (t : Console) (calls : List (List UInt8)),
      (∀ string ∈ calls, ∀ c ∈ string, c < 0x80) → StoresInside glyphs
        (calls.foldl printcount (initTextTerminal sampleSizes { t with draws := [] })) := by
  intro h
  have hascii : ∀ c ∈ List.replicate 47 (0xa : UInt8) ++ [0x61, 0xa], c < 0x80 := by
    intro c hc
    rcases List.mem_append.mp hc with hnewline | hlast
    · rw [List.eq_of_mem_replicate hnewline]
      decide
    · rcases List.mem_pair.mp hlast with rfl | rfl <;> decide
  have hinside := h (fun _ _ => 0) zeroConsole [List.replicate 47 0xa ++ [0x61, 0xa]]
    (by simpa only [List.mem_singleton, forall_eq] using hascii)
  rw [List.foldl_cons, List.foldl_nil, storesInside_printcount_iff] at hinside
  have hbottom : ((List.replicate 47 (0xa : UInt8) ++ [0x61, 0xa]).foldl (Page.put 128 0xa)
      Page.empty).finished.drop 47 = [[0x61]] := rfl
  rw [BottomSafe, hbottom] at hinside
  exact absurd (hinside.1 [0x61] List.mem_cons_self) (List.cons_ne_nil _ _)

end PaskakasaOS.Kernel.Utils.FramebufferBounds
