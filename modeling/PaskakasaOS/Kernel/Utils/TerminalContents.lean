import PaskakasaOS.Lib.TextLayout
import PaskakasaOS.Kernel.Utils.TextTerminal

/-!
# What the row buffer holds

The buffer always shows the last rows of the text printed so far, laid out as if
there were no bottom of the screen.
-/
namespace PaskakasaOS.Kernel.Utils.TerminalContents

open Lib.ByteMemory Lib.TextLayout
open Utils.Mem (memset memmoveInto memmoveInto_start)
open TextTerminal

/-- The characters of a row that count. -/
def contents (row : Row) : List UInt8 := (List.range row.length.toNat).map row.characters

theorem contents_length (row : Row) : (contents row).length = row.length.toNat := by
  rw [contents, List.length_map, List.length_range]

/-! ## Scrolling -/

/-- A loop of drawing calls changes nothing else. -/
theorem foldl_draws {X : Type} {f : Console → X → Console}
    (hf : ∀ t x, ∃ draws, f t x = { t with draws := draws }) (xs : List X) (t : Console) :
    ∃ draws, xs.foldl f t = { t with draws := draws } := by
  induction xs generalizing t with
  | nil => exact ⟨t.draws, rfl⟩
  | cons x xs ih =>
    obtain ⟨first, hfirst⟩ := hf t x
    obtain ⟨rest, hrest⟩ := ih (f t x)
    rw [List.foldl_cons, hrest, hfirst]
    exact ⟨rest, rfl⟩

theorem clearRow_draws (t : Console) (y : Nat) : ∃ draws, clearRow t y = { t with draws := draws } :=
  foldl_draws (fun _ _ => ⟨_, rfl⟩) _ t

theorem drawRow_draws (t : Console) (y : Nat) : ∃ draws, drawRow t y = { t with draws := draws } := by
  apply foldl_draws
  intro t' b
  split
  · exact ⟨_, rfl⟩
  · exact ⟨t'.draws, rfl⟩

/-- The row buffer `y` afterwards holds what the one below held. -/
theorem contents_shiftRow (t : Console) (y : Nat) :
    contents ((shiftRow t y).lines y) = contents (t.lines (y + 1)) := by
  show contents (Function.update t.lines y _ y) = _
  rw [Function.update_self, contents, contents]
  apply List.map_congr_left
  intro i hi
  refine (memmoveInto_start (List.mem_range.mp hi)).trans ?_
  rw [Nat.zero_add]

/-- One round of `scroll` moves one row up. -/
theorem scrollRow_spec (t : Console) (y : Nat) :
    ∃ row draws, scrollRow t y = { t with lines := Function.update t.lines y row, draws := draws } ∧
      contents row = contents (t.lines (y + 1)) := by
  obtain ⟨d1, h1⟩ := clearRow_draws t y
  obtain ⟨d2, h2⟩ := drawRow_draws (shiftRow { t with draws := d1 } y) y
  refine ⟨(shiftRow t y).lines y, d2, ?_, contents_shiftRow t y⟩
  rw [scrollRow, h1, h2, shiftRow, shiftRow]
  simp only [Function.update_self]

/-- `scroll` moves every row up, fills in the row below the bottom, and ends with
the interrupt flag set. -/
theorem scroll_spec (t : Console) :
    ∃ lines draws, scroll t = { t with lines := lines, draws := draws, interruptFlag := true } ∧
      (∀ r < t.height.toNat, contents (lines r) = contents (t.lines (r + 1))) ∧
      ∀ r, t.height.toNat ≤ r → lines r = t.lines r := by
  have hloop : ∀ k, ∃ lines draws,
      (List.range k).foldl scrollRow (cli t) = { cli t with lines := lines, draws := draws } ∧
        (∀ r < k, contents (lines r) = contents (t.lines (r + 1))) ∧
        ∀ r, k ≤ r → lines r = t.lines r := by
    intro k
    induction k with
    | zero => exact ⟨t.lines, t.draws, rfl, fun r hr => absurd hr (Nat.not_lt_zero r), fun _ _ => rfl⟩
    | succ k ih =>
      obtain ⟨lines, draws, hrun, hmoved, hkept⟩ := ih
      obtain ⟨row, draws', hround, hrow⟩ := scrollRow_spec { cli t with lines := lines, draws := draws } k
      refine ⟨Function.update lines k row, draws', ?_, ?_, ?_⟩
      · rw [List.range_succ, List.foldl_append, hrun]
        exact hround
      · intro r hr
        by_cases hrk : r = k
        · subst hrk
          rw [Function.update_self, hrow]
          show contents (lines (r + 1)) = _
          rw [hkept (r + 1) (by omega)]
        · rw [Function.update_of_ne hrk]
          exact hmoved r (by omega)
      · intro r hr
        rw [Function.update_of_ne (by omega)]
        exact hkept r (by omega)
  obtain ⟨lines, draws, hrun, hmoved, hkept⟩ := hloop t.height.toNat
  refine ⟨lines, draws, ?_, hmoved, hkept⟩
  show sti ((List.range t.height.toNat).foldl scrollRow (cli t)) = _
  rw [hrun]
  rfl

/-! ## The buffer and the page -/

/-- The console shows the bottom of a page on a screen of `h` rows of `w` characters. -/
structure Shows (h w : Nat) (t : Console) (p : Page UInt8) : Prop where
  height : t.height.toNat = h
  width : t.width.toNat = w
  cursorX : t.x.toNat = p.current.length
  cursorY : t.y.toNat + 1 = min p.rows.length h
  rows : ∀ r < h, contents (t.lines r) = p.rows.getD (p.rows.length - h + r) []
  below : contents (t.lines h) = []
  fits : p.current.length ≤ w

theorem toNat_succ {a : UInt32} {n : Nat} (h : a.toNat + 1 ≤ n) (hn : n < 2 ^ 32) :
    (a + 1).toNat = a.toNat + 1 := by
  rw [UInt32.toNat_add]
  exact Nat.mod_eq_of_lt (by change a.toNat + 1 < 2 ^ 32; omega)

/-- A character stored behind the last one, with the length grown by one. -/
theorem contents_push (row : Row) (c : UInt8) (hlt : row.length.toNat + 1 < 2 ^ 32) :
    contents ⟨Function.update row.characters row.length.toNat c, row.length + 1⟩ =
      contents row ++ [c] := by
  have hgrown : (row.length + 1).toNat = row.length.toNat + 1 := toNat_succ (Nat.le_refl _) hlt
  simp only [contents, hgrown, List.range_succ, List.map_append, List.map_cons, List.map_nil,
    Function.update_self]
  congr 1
  apply List.map_congr_left
  intro i hi
  exact Function.update_of_ne (Nat.ne_of_lt (List.mem_range.mp hi)) _ _

/-- On the bottom row the buffer moves up by one row. -/
theorem Shows.newRow_bottom {h w : Nat} {t : Console} {p : Page UInt8} (hs : Shows h w t p)
    (hbottom : t.y + 1 = t.height) : Shows h w (resetX (newRow t)) p.break := by
  have hheight := hs.height
  have hy := hs.cursorY
  have hlt := t.height.toNat_lt
  have hnext : (t.y + 1).toNat = t.y.toNat + 1 := toNat_succ (n := h) (by omega) (by omega)
  have hfull : t.y.toNat + 1 = h := by rw [← hnext, hbottom, hheight]
  have hlen : p.break.rows.length = p.rows.length + 1 := by simp
  obtain ⟨lines, draws, hscroll, hmoved, hkept⟩ := scroll_spec t
  rw [TextTerminal.newRow, if_pos hbottom, hscroll]
  refine ⟨hheight, hs.width, rfl, ?_, ?_, ?_, Nat.zero_le _⟩
  · rw [hlen]
    show t.y.toNat + 1 = _
    omega
  · intro r hr
    show contents (lines r) = _
    rw [hmoved r (by omega), rows_getD_break, hlen]
    by_cases hlast : r + 1 = h
    · rw [hlast, hs.below, List.getD_eq_default _ _ (by omega)]
    · rw [hs.rows (r + 1) (by omega)]
      congr 1
      omega
  · show contents (lines h) = _
    rw [hkept h (by omega), hs.below]

/-- Above it the cursor moves down to an empty row. -/
theorem Shows.newRow_above {h w : Nat} {t : Console} {p : Page UInt8} (hs : Shows h w t p)
    (hbottom : t.y + 1 ≠ t.height) : Shows h w (resetX (newRow t)) p.break := by
  have hheight := hs.height
  have hy := hs.cursorY
  have hlt := t.height.toNat_lt
  have hnext : (t.y + 1).toNat = t.y.toNat + 1 := toNat_succ (n := h) (by omega) (by omega)
  have hlen : p.break.rows.length = p.rows.length + 1 := by simp
  have hroom : t.y.toNat + 1 ≠ h := by
    intro heq
    apply hbottom
    rw [← UInt32.toNat_inj, hnext, hheight, heq]
  rw [TextTerminal.newRow, if_neg hbottom]
  refine ⟨hheight, hs.width, rfl, ?_, ?_, hs.below, Nat.zero_le _⟩
  · rw [hlen]
    show (t.y + 1).toNat + 1 = _
    omega
  · intro r hr
    show contents (t.lines r) = _
    rw [hs.rows r hr, rows_getD_break, hlen]
    congr 1
    omega

/-- Moving to the next row buffer starts a new row of the page. -/
theorem Shows.newRow {h w : Nat} {t : Console} {p : Page UInt8} (hs : Shows h w t p) :
    Shows h w (resetX (newRow t)) p.break := by
  by_cases hbottom : t.y + 1 = t.height
  · exact hs.newRow_bottom hbottom
  · exact hs.newRow_above hbottom

/-- A placed character is stored under the cursor. -/
theorem place_lines (t : Console) (c : UInt8) :
    (place t c).lines = Function.update t.lines t.y.toNat
      { characters := Function.update (t.lines t.y.toNat).characters t.x.toNat c
        length := (t.lines t.y.toNat).length + 1 } := by
  simp only [place, advance, grow, store, printChar, Function.update_self, Function.update_idem]

/-- A character in a row that is not full ends up at the end of the page. -/
theorem Shows.place {h w : Nat} {t : Console} {p : Page UInt8} (hs : Shows h w t p)
    (hroom : p.current.length < w) (c : UInt8) : Shows h w (place t c) (p.append c) := by
  have hy := hs.cursorY
  have hx := hs.cursorX
  have hwidth := hs.width
  have hwlt := t.width.toNat_lt
  have hh : t.y.toNat < h := by omega
  have hrow := hs.rows t.y.toNat hh
  rw [rows_getD_last p (by omega)] at hrow
  have hlength : (t.lines t.y.toNat).length.toNat = t.x.toNat := by
    rw [← contents_length, hrow, hx]
  have hpush := contents_push (t.lines t.y.toNat) c (by omega)
  rw [hlength, hrow] at hpush
  have hlines := place_lines t c
  have hlen : (p.append c).rows.length = p.rows.length := by
    rw [rows_length, rows_length]
    rfl
  have hcurrent : (p.append c).current = p.current ++ [c] := rfl
  refine ⟨hs.height, hwidth, ?_, ?_, ?_, ?_, ?_⟩
  · have hnext : (t.x + 1).toNat = t.x.toNat + 1 := toNat_succ (n := w) (by omega) (by omega)
    rw [hcurrent, List.length_append, ← hx]
    exact hnext
  · rw [hlen]
    exact hy
  · intro r hr
    rw [hlines, hlen]
    by_cases hrow' : r = t.y.toNat
    · subst hrow'
      rw [Function.update_self, rows_getD_last (p.append c) (by rw [hlen]; omega), hcurrent, hpush]
    · rw [Function.update_of_ne hrow', hs.rows r hr, rows_getD_append p c (by omega)]
  · rw [hlines, Function.update_of_ne (by omega), hs.below]
  · rw [hcurrent, List.length_append]
    show p.current.length + 1 ≤ w
    omega

/-- One character of the text, laid out at the bottom of the screen. -/
theorem Shows.printCharacter {h w : Nat} {t : Console} {p : Page UInt8} (hs : Shows h w t p)
    (hw : 1 ≤ w) (c : UInt8) : Shows h w (printCharacter t c) (p.put w 0xa c) := by
  have hfull : t.x = t.width ↔ p.current.length = w := by
    rw [← UInt32.toNat_inj, hs.cursorX, hs.width]
  rw [TextTerminal.printCharacter, Page.put]
  by_cases hc : c = 0xa
  · rw [if_pos hc, if_pos hc]
    exact hs.newRow
  · rw [if_neg hc, if_neg hc]
    by_cases hx : p.current.length = w
    · rw [if_pos hx, if_pos (hfull.mpr hx)]
      exact hs.newRow.place hw c
    · rw [if_neg hx, if_neg (fun heq => hx (hfull.mp heq))]
      exact hs.place (Nat.lt_of_le_of_ne hs.fits hx) c

theorem Shows.printcount {h w : Nat} {t : Console} {p : Page UInt8} (hs : Shows h w t p)
    (hw : 1 ≤ w) (string : List UInt8) :
    Shows h w (printcount t string) (string.foldl (Page.put w 0xa) p) := by
  induction string generalizing t p with
  | nil => exact hs
  | cons c string ih => exact ih (hs.printCharacter hw c)

theorem Shows.calls {h w : Nat} {t : Console} {p : Page UInt8} (hs : Shows h w t p)
    (hw : 1 ≤ w) (calls : List (List UInt8)) :
    Shows h w (calls.foldl TextTerminal.printcount t) (calls.flatten.foldl (Page.put w 0xa) p) := by
  induction calls generalizing t p with
  | nil => exact hs
  | cons string calls ih =>
    rw [List.flatten_cons, List.foldl_append]
    exact ih (hs.printcount hw string)

/-- A fresh terminal shows an empty page. -/
theorem shows_initTextTerminal (s : Sizes) (t : Console)
    (hh : 1 ≤ (initTextTerminal s t).height.toNat ∧ (initTextTerminal s t).height.toNat ≤ 95) :
    Shows (initTextTerminal s t).height.toNat (initTextTerminal s t).width.toNat
      (initTextTerminal s t) Page.empty := by
  have hblank : ∀ k, ∀ r < k, contents ((List.range k).foldl
      (fun lines i => Function.update lines i
        { characters := memset (lines i).characters 0 0 128, length := 0 }) t.lines r) = [] := by
    intro k
    induction k with
    | zero => exact fun r hr => absurd hr (Nat.not_lt_zero r)
    | succ k ih =>
      intro r hr
      rw [List.range_succ, List.foldl_append, List.foldl_cons, List.foldl_nil]
      by_cases hrk : r = k
      · subst hrk
        rw [Function.update_self]
        rfl
      · rw [Function.update_of_ne hrk]
        exact ih r (by omega)
  refine ⟨rfl, rfl, rfl, ?_, ?_, hblank 96 _ (by omega), Nat.zero_le _⟩
  · show 0 + 1 = min 1 _
    omega
  · intro r hr
    show contents (List.foldl _ t.lines (List.range 96) r) = _
    rw [hblank 96 r (by omega), rows_getD_empty]

/-- However a text is cut into `printcount` calls, the buffer of a fresh terminal
holds the bottom rows of its layout and the cursor stands behind the last one. -/
theorem printcount_layout (s : Sizes) (t : Console)
    (hw : 1 ≤ (initTextTerminal s t).width.toNat ∧ (initTextTerminal s t).width.toNat ≤ 128)
    (hh : 1 ≤ (initTextTerminal s t).height.toNat ∧ (initTextTerminal s t).height.toNat ≤ 95)
    (calls : List (List UInt8)) :
    (List.range (initTextTerminal s t).height.toNat).map
        (fun r => contents ((calls.foldl printcount (initTextTerminal s t)).lines r)) =
      window (initTextTerminal s t).height.toNat
        (layout (initTextTerminal s t).width.toNat 0xa calls.flatten) ∧
    (calls.foldl printcount (initTextTerminal s t)).y.toNat =
      min (layout (initTextTerminal s t).width.toNat 0xa calls.flatten).length
        (initTextTerminal s t).height.toNat - 1 ∧
    (calls.foldl printcount (initTextTerminal s t)).x.toNat =
      ((layout (initTextTerminal s t).width.toNat 0xa calls.flatten).getLastD []).length := by
  have hs := (shows_initTextTerminal s t hh).calls hw.1 calls
  refine ⟨eq_window _ hs.rows, ?_, ?_⟩
  · have hy := hs.cursorY
    rw [layout]
    omega
  · rw [hs.cursorX, layout, Page.rows, List.getLastD_concat]

/-- The mode the bootloader sets, with an 8x16 font. -/
def sampleSizes : Sizes := ⟨768, 1024, 16, 8⟩

/-- A console before `init_text_terminal`. -/
def zeroConsole : Console := ⟨0, 0, 0, 0, 0, 0, fun _ => ⟨fun _ => 0, 0⟩, [], false⟩

/-- Letters that go on in a second row, then as many line feeds as scroll the first row away,
and a letter behind them. -/
def longCalls : List (List UInt8) := [List.replicate 130 0x61, List.replicate 47 0xa ++ [0x62]]

theorem layout_longCalls : layout 128 0xa longCalls.flatten =
    List.replicate 128 0x61 :: [0x61, 0x61] :: (List.replicate 46 [] ++ [[0x62]]) := by
  decide +kernel

theorem window_longCalls : window 48 (layout 128 0xa longCalls.flatten) =
    [0x61, 0x61] :: (List.replicate 46 [] ++ [[0x62]]) := by
  rw [layout_longCalls]
  decide +kernel

theorem printcount_layout_scrolled :
    let t := longCalls.foldl printcount (initTextTerminal sampleSizes zeroConsole)
    (List.range 48).map (fun r => contents (t.lines r)) =
        [0x61, 0x61] :: (List.replicate 46 [] ++ [[0x62]]) ∧
      t.y.toNat = 47 ∧ t.x.toNat = 1 := by
  have hheight : (initTextTerminal sampleSizes zeroConsole).height.toNat = 48 := rfl
  have hwidth : (initTextTerminal sampleSizes zeroConsole).width.toNat = 128 := rfl
  have hlayout := printcount_layout sampleSizes zeroConsole (by decide) (by decide) longCalls
  rw [hheight, hwidth, window_longCalls, layout_longCalls] at hlayout
  exact hlayout

end PaskakasaOS.Kernel.Utils.TerminalContents
