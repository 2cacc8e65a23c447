import PaskakasaOS.Kernel.Utils.Drawings
import PaskakasaOS.Kernel.Utils.TerminalBounds

/-!
# Which strings `print` handles

`print` passes on as many characters as `strlen` counts, modulo 256, and a character
is drawn with the glyph of its signed value. The glyphs of the rows that move up are
drawn again when the text makes the terminal scroll.
-/
namespace PaskakasaOS.Kernel.Utils.PrintStrings

open Lib.ByteMemory Lib.TextLayout
open Utils.Mem (strlen strlen_eq_some_iff)
open TextTerminal TerminalContents TerminalBounds Drawings

/-! ## `print` of a string in memory -/

/-- What `print` passes on: the count of `strlen` has 32 bits, of which `mem.h`
declares 8. -/
def passed (m : Memory) (str : Nat) : Option (List UInt8) :=
  (strlen m (2 ^ 64) str).map fun n =>
    (List.range (UInt32.ofNat n).toUInt8.toNat).map fun i => m (str + i)

/-- `print` of the string at `str`. -/
def printAt (t : Console) (m : Memory) (str : Nat) : Option Console :=
  (passed m str).map (printcount t)

/-- The text stands at `str`, with a NUL behind it. -/
structure StringAt (m : Memory) (str : Nat) (text : List UInt8) : Prop where
  bytes : ∀ (i : Nat) (hi : i < text.length), m (str + i) = text[i]
  nul : m (str + text.length) = 0
  nonzero : ∀ c ∈ text, c ≠ 0
  fits : text.length < 2 ^ 64

theorem StringAt.passed {m : Memory} {str : Nat} {text : List UInt8} (h : StringAt m str text) :
    passed m str = some (counted text) := by
  have hcount : strlen m (2 ^ 64) str = some text.length := by
    refine strlen_eq_some_iff.mpr ⟨h.fits, h.nul, fun k hk => ?_⟩
    rw [h.bytes k hk]
    exact h.nonzero _ (List.getElem_mem hk)
  have hbyte : (UInt32.ofNat text.length).toUInt8.toNat = text.length % 256 := by
    rw [UInt32.toNat_toUInt8, UInt32.toNat_ofNat']
    exact Nat.mod_mod_of_dvd _ (by decide)
  have hle : text.length % 256 ≤ text.length := Nat.mod_le _ _
  rw [PrintStrings.passed, hcount, Option.map_some, hbyte, counted]
  congr 1
  apply List.ext_getElem
  · rw [List.length_map, List.length_range, List.length_take, Nat.min_eq_left hle]
  · intro i h1 h2
    rw [List.length_map, List.length_range] at h1
    rw [List.getElem_map, List.getElem_range, List.getElem_take]
    exact h.bytes i (by omega)

/-- `print` counts right exactly below 256 characters. -/
theorem counted_eq_self_iff (text : List UInt8) : counted text = text ↔ text.length < 256 := by
  rw [counted]
  constructor
  · intro h
    have hlength := congrArg List.length h
    rw [List.length_take] at hlength
    have hlt := Nat.mod_lt text.length (show 256 > 0 by decide)
    omega
  · intro h
    rw [Nat.mod_eq_of_lt h, List.take_length]

/-! ## The glyph table -/

/-- The call reads one of the 256 glyphs, if any. -/
def InTable : Draw → Prop
  | .render glyph _ _ => 0 ≤ glyph ∧ glyph ≤ 255
  | .clear _ _ => True

/-- The character has a glyph in the table. -/
def Drawable (c : UInt8) : Prop := c < 0x80 ∨ c = 0xC3

instance (c : UInt8) : Decidable (Drawable c) := inferInstanceAs (Decidable (_ ∨ _))

theorem drawable_iff (c : UInt8) : Drawable c ↔ 0 ≤ glyphIndex c ∧ glyphIndex c ≤ 255 := by
  have hlt : c.toNat < 256 := c.toNat_lt
  have hint : c.toInt8.toInt = if 2 * c.toNat < 256 then (c.toNat : Int) else c.toNat - 256 :=
    BitVec.toInt_eq_toNat_cond c.toBitVec
  have hsmall : c < 0x80 ↔ c.toNat < 128 := UInt8.lt_iff_toNat_lt
  have hspecial : c = 0xC3 ↔ c.toNat = 195 := by
    rw [← UInt8.toNat_inj]
    rfl
  have hcase : c.toInt8 = -61 ↔ c.toInt8.toInt = -61 := by
    rw [← Int8.toInt_inj]
    rfl
  rw [Drawable, glyphIndex, hsmall, hspecial]
  by_cases h61 : c.toInt8 = -61
  · rw [if_pos h61]
    rw [hcase, hint] at h61
    split at h61 <;> omega
  · rw [if_neg h61, hint]
    rw [hcase, hint] at h61
    split at h61 <;> split <;> omega

theorem inTable_charDraw (t : Console) (c : UInt8) (x y : UInt32) :
    InTable (charDraw t c x y) ↔ Drawable c := (drawable_iff c).symm

/-! ## The rows on the screen -/

section Rows

variable {h w : Nat} {t : Console}

/-- The characters that move up when the terminal scrolls can be drawn. -/
def RowsDrawable (h : Nat) (t : Console) : Prop :=
  ∀ r, 1 ≤ r → r < h → ∀ c ∈ contents (t.lines r), c ≠ 0xa → Drawable c

theorem contents_below (hb : Bounded h w t) {r : Nat} (hr : t.y.toNat < r) (hr' : r < 96) :
    contents (t.lines r) = [] := by
  apply List.eq_nil_of_length_eq_zero
  rw [contents_length, hb.below r hr hr']
  rfl

theorem scrollDraws_inTable_iff (hb : Bounded h w t) (hh : h ≤ 95) :
    (∀ d ∈ scrollDraws t, InTable d) ↔ RowsDrawable h t := by
  have hcursor := hb.cursorY
  constructor
  · intro hall r hr hrh c hc hnewline
    obtain ⟨b, hlt, hget⟩ := List.mem_iff_getElem.mp hc
    have hchar : (contents (t.lines r)).getD b 0 = c := by
      rw [List.getD_eq_getElem _ _ hlt, hget]
    have hrow : r - 1 + 1 = r := by omega
    have hmem : charDraw t c (UInt32.ofNat b) (UInt32.ofNat (r - 1)) ∈ scrollDraws t := by
      refine mem_scrollDraws.mpr ⟨r - 1, by rw [hb.height]; omega, Or.inr ?_⟩
      rw [hrow]
      exact mem_rowRenders.mpr ⟨b, hlt, by rwa [hchar], by rw [hchar]⟩
    exact (inTable_charDraw t c _ _).mp (hall _ hmem)
  · intro hrows d hd
    obtain ⟨y, hy, hd⟩ := mem_scrollDraws.mp hd
    rw [hb.height] at hy
    rcases hd with hclear | hrender
    · obtain ⟨x, _, rfl⟩ := mem_rowClears.mp hclear
      trivial
    · obtain ⟨b, hlt, hnewline, rfl⟩ := mem_rowRenders.mp hrender
      by_cases hlast : y + 1 = h
      · rw [contents_below hb (by omega) (by omega)] at hlt
        exact absurd hlt (Nat.not_lt_zero b)
      · refine (inTable_charDraw t _ _ _).mpr (hrows (y + 1) (by omega) (by omega) _ ?_ hnewline)
        rw [List.getD_eq_getElem _ _ hlt]
        exact List.getElem_mem hlt

/-- What a new row draws again, and what it leaves to be drawn again by `k` more. -/
theorem newRowDraws_inTable_iff (hb : Bounded h w t) (hh : h ≤ 95) (k : Nat) :
    ((∀ d ∈ newRowDraws t, InTable d) ∧
      (h ≤ (resetX (newRow t)).y.toNat + k → RowsDrawable h (resetX (newRow t)))) ↔
      (h ≤ t.y.toNat + (k + 1) → RowsDrawable h t) := by
  have hheight := hb.height
  have hy := hb.cursorY
  have hlt := t.height.toNat_lt
  have hnext : (t.y + 1).toNat = t.y.toNat + 1 := toNat_succ (n := h) (by omega) (by omega)
  by_cases hbottom : t.y + 1 = t.height
  · have hfull : t.y.toNat + 1 = h := by rw [← hnext, hbottom, hheight]
    obtain ⟨lines, draws, hscroll, hmoved, _⟩ := scroll_spec t
    rw [hheight] at hmoved
    have hrows : RowsDrawable h t → RowsDrawable h (resetX (newRow t)) := by
      intro hrows r hr hrh c hc
      rw [newRow, if_pos hbottom, hscroll] at hc
      change c ∈ contents (lines r) at hc
      rw [hmoved r hrh] at hc
      by_cases hlast : r + 1 = h
      · rw [contents_below hb (by omega) (by omega)] at hc
        exact absurd hc List.not_mem_nil
      · exact hrows (r + 1) (by omega) (by omega) c hc
    rw [newRowDraws, if_pos hbottom, scrollDraws_inTable_iff hb hh]
    constructor
    · exact fun hboth _ => hboth.1
    · intro hold
      have hnow := hold (by omega)
      exact ⟨hnow, fun _ => hrows hnow⟩
  · have hmoved : (resetX (newRow t)).y.toNat = t.y.toNat + 1 := by
      rw [newRow, if_neg hbottom]
      exact hnext
    have hrows : RowsDrawable h (resetX (newRow t)) ↔ RowsDrawable h t := by
      rw [newRow, if_neg hbottom]
      rfl
    rw [newRowDraws, if_neg hbottom, hmoved, hrows, Nat.add_assoc, Nat.add_comm 1 k]
    exact and_iff_right fun d hd => absurd hd List.not_mem_nil

theorem rowsDrawable_place (hb : Bounded h w t) (hw : w ≤ 128) (hroom : t.x.toNat < w) {c : UInt8}
    (hc : Drawable c) : RowsDrawable h (place t c) ↔ RowsDrawable h t := by
  have hpush : contents ((place t c).lines t.y.toNat) = contents (t.lines t.y.toNat) ++ [c] := by
    have hlength : (t.lines t.y.toNat).length.toNat = t.x.toNat := by rw [hb.current]
    rw [place_lines, Function.update_self, ← hlength]
    exact contents_push _ c (by omega)
  have hkept : ∀ r, r ≠ t.y.toNat → (place t c).lines r = t.lines r := by
    intro r hr
    rw [place_lines, Function.update_of_ne hr]
  constructor
  · intro hrows r hr hrh ch hch
    refine hrows r hr hrh ch ?_
    by_cases hry : r = t.y.toNat
    · rw [hry] at hch ⊢
      rw [hpush]
      exact List.mem_append_left _ hch
    · rwa [hkept r hry]
  · intro hrows r hr hrh ch hch
    by_cases hry : r = t.y.toNat
    · rw [hry, hpush] at hch
      rcases List.mem_append.mp hch with hold | hnew
      · rw [← hry] at hold
        exact hrows r hr hrh ch hold
      · exact fun _ => List.mem_singleton.mp hnew ▸ hc
    · rw [hkept r hry] at hch
      exact hrows r hr hrh ch hch

/-- What a character draws, and what it leaves to be drawn again by `k` more rows. -/
theorem characterDraws_inTable_iff (hb : Bounded h w t) (hw : 1 ≤ w ∧ w ≤ 128) (hh : h ≤ 95)
    (c : UInt8) (k : Nat) :
    ((∀ d ∈ characterDraws t c, InTable d) ∧
      (h ≤ (printCharacter t c).y.toNat + k → RowsDrawable h (printCharacter t c))) ↔
      (c ≠ 0xa → Drawable c) ∧
        (h ≤ t.y.toNat + (k + if c = 0xa ∨ t.x = t.width then 1 else 0) → RowsDrawable h t) := by
  have hrow := newRowDraws_inTable_iff hb hh k
  rw [characterDraws, printCharacter]
  by_cases hnewline : c = 0xa
  · rw [if_pos hnewline, if_pos hnewline, if_pos (Or.inl hnewline), hrow]
    exact (and_iff_right fun hne => absurd hnewline hne).symm
  rw [if_neg hnewline, if_neg hnewline]
  by_cases hx : t.x = t.width
  · have hplace : Drawable c →
        (RowsDrawable h (place (resetX (newRow t)) c) ↔ RowsDrawable h (resetX (newRow t))) :=
      rowsDrawable_place (hb.newRow hh) hw.2 hw.1
    have hy : (place (resetX (newRow t)) c).y = (resetX (newRow t)).y := rfl
    rw [if_pos hx, if_pos hx, if_pos (Or.inr hx), ← hrow, hy]
    simp only [List.mem_append, List.mem_singleton, or_imp, forall_and, forall_eq,
      inTable_charDraw]
    constructor
    · intro hall
      obtain ⟨⟨hnew, hc⟩, hrows⟩ := hall
      exact ⟨fun _ => hc, hnew, fun hle => (hplace hc).mp (hrows hle)⟩
    · intro hall
      obtain ⟨hc, hnew, hrows⟩ := hall
      exact ⟨⟨hnew, hc hnewline⟩, fun hle => (hplace (hc hnewline)).mpr (hrows hle)⟩
  · have hplace : Drawable c → (RowsDrawable h (place t c) ↔ RowsDrawable h t) :=
      rowsDrawable_place hb hw.2 (hb.room hx)
    have hy : (place t c).y = t.y := rfl
    rw [if_neg hx, if_neg hx, if_neg (not_or.mpr ⟨hnewline, hx⟩), hy, Nat.add_zero]
    simp only [List.mem_singleton, forall_eq, inTable_charDraw]
    constructor
    · intro hall
      exact ⟨fun _ => hall.1, fun hle => (hplace hall.1).mp (hall.2 hle)⟩
    · intro hall
      have hc := hall.1 hnewline
      exact ⟨hc, fun hle => (hplace hc).mpr (hall.2 hle)⟩

/-- The rows that the rest of a text starts. -/
theorem breaks_printCharacter (hb : Bounded h w t) (hw : w ≤ 128) (c : UInt8) (text : List UInt8) :
    breaks w 0xa t.x.toNat (c :: text) = breaks w 0xa (printCharacter t c).x.toNat text +
      if c = 0xa ∨ t.x = t.width then 1 else 0 := by
  have hfull := hb.full_iff
  rw [breaks, printCharacter]
  by_cases hnewline : c = 0xa
  · rw [if_pos hnewline, if_pos hnewline, if_pos (Or.inl hnewline)]
    rfl
  rw [if_neg hnewline, if_neg hnewline]
  by_cases hx : t.x = t.width
  · rw [if_pos (hfull.mpr hx), if_pos hx, if_pos (Or.inr hx)]
    rfl
  · have hroom := hb.room hx
    have hnext : (place t c).x.toNat = t.x.toNat + 1 := toNat_succ (n := w) hroom (by omega)
    rw [if_neg (fun heq => hx (hfull.mp heq)), if_neg hx, if_neg (not_or.mpr ⟨hnewline, hx⟩), hnext]
    rfl

/-- A text is drawn with glyphs of the table exactly when its characters have one and,
if it makes the terminal scroll, so have those on the screen. -/
theorem drawn_inTable_iff (hb : Bounded h w t) (hw : 1 ≤ w ∧ w ≤ 128) (hh : h ≤ 95)
    (text : List UInt8) : (∀ d ∈ drawn t text, InTable d) ↔
      (∀ c ∈ text, c ≠ 0xa → Drawable c) ∧
        (h ≤ t.y.toNat + breaks w 0xa t.x.toNat text → RowsDrawable h t) := by
  induction text generalizing t with
  | nil =>
    have hcursor := hb.cursorY
    refine iff_of_true (fun d hd => absurd hd List.not_mem_nil)
      ⟨fun c hc => absurd hc List.not_mem_nil, fun hscrolls => ?_⟩
    exact absurd hscrolls (Nat.not_le_of_lt hcursor)
  | cons c text ih =>
    have hrest := ih (hb.printCharacter hw hh c).2
    have hfirst := characterDraws_inTable_iff hb hw hh c
      (breaks w 0xa (printCharacter t c).x.toNat text)
    rw [← breaks_printCharacter hb hw.2] at hfirst
    simp only [drawn, List.mem_append, or_imp, forall_and, hrest, List.mem_cons, forall_eq]
    rw [and_left_comm, hfirst, and_left_comm, and_assoc]

/-- A fresh terminal scrolls when the layout of the text has more rows than the screen. -/
theorem scrolls_initTextTerminal_iff (s : Sizes) (t : Console) (h w : Nat) (text : List UInt8) :
    h ≤ (initTextTerminal s t).y.toNat + breaks w 0xa (initTextTerminal s t).x.toNat text ↔
      h < (layout w 0xa text).length := by
  have hrows := rows_length_foldl_put w 0xa text Page.empty
  have hempty : (Page.empty : Page UInt8).rows.length = 1 := rfl
  rw [layout, hrows, hempty]
  show h ≤ 0 + breaks w 0xa 0 text ↔ h < 1 + breaks w 0xa 0 text
  omega

end Rows

/-! ## Strings -/

/-- `print` passes on each character of the text once, in order, and every glyph it reads
is in the table. -/
def Handles (t : Console) (m : Memory) (str : Nat) (text : List UInt8) : Prop :=
  passed m str = some text ∧ ∃ t' draws, printAt t m str = some t' ∧
    t'.draws = t.draws ++ draws ∧ ∀ d ∈ draws, InTable d

theorem handles_iff {t : Console} {m : Memory} {str : Nat} {text : List UInt8}
    (hs : StringAt m str text) :
    Handles t m str text ↔ text.length < 256 ∧ ∀ d ∈ drawn t text, InTable d := by
  rw [Handles, printAt, hs.passed, Option.some.injEq, counted_eq_self_iff]
  refine and_congr_right fun hlength => ?_
  rw [(counted_eq_self_iff text).mpr hlength, Option.map_some]
  constructor
  · intro h
    obtain ⟨t', draws, hprint, hdraws, hall⟩ := h
    rw [← Option.some.inj hprint, printcount_draws] at hdraws
    rw [List.append_cancel_left hdraws]
    exact hall
  · exact fun hall => ⟨_, _, rfl, printcount_draws t text, hall⟩

/-- In every state of the terminal, `print` handles the strings of fewer than 256
characters that all have a glyph, if scrolling redraws nothing without one. -/
theorem print_handles_iff {h w : Nat} {t : Console} (hb : Bounded h w t) (hw : 1 ≤ w ∧ w ≤ 128)
    (hh : h ≤ 95) {m : Memory} {str : Nat} {text : List UInt8} (hs : StringAt m str text) :
    Handles t m str text ↔ text.length < 256 ∧ (∀ c ∈ text, c ≠ 0xa → Drawable c) ∧
      (h ≤ t.y.toNat + breaks w 0xa t.x.toNat text → RowsDrawable h t) := by
  rw [handles_iff hs, drawn_inTable_iff hb hw hh]

/-- A memory with one string at address 0. -/
def stringMemory (text : List UInt8) : Memory := fun a => text.getD a 0

theorem stringAt_stringMemory {text : List UInt8} (hne : ∀ c ∈ text, c ≠ 0)
    (hlen : text.length < 2 ^ 64) : StringAt (stringMemory text) 0 text where
  bytes i hi := by
    rw [stringMemory, Nat.zero_add, List.getD_eq_getElem _ _ hi]
  nul := by
    rw [stringMemory, Nat.zero_add, List.getD_eq_default _ _ (Nat.le_refl _)]
  nonzero := hne
  fits := hlen

theorem bounded_sampleSizes : Bounded 48 128 (initTextTerminal sampleSizes zeroConsole) :=
  bounded_initTextTerminal sampleSizes zeroConsole (by decide)

/-- The text of 178 characters wraps and scrolls. -/
theorem print_handles_iff_scrolled : Handles (initTextTerminal sampleSizes zeroConsole)
    (stringMemory longCalls.flatten) 0 longCalls.flatten := by
  have hstring : StringAt (stringMemory longCalls.flatten) 0 longCalls.flatten :=
    stringAt_stringMemory (by decide +kernel) (by decide +kernel)
  have htop : (initTextTerminal sampleSizes zeroConsole).y.toNat = 0 := rfl
  refine (print_handles_iff bounded_sampleSizes (by decide) (by decide) hstring).mpr
    ⟨by decide +kernel, by decide +kernel, fun _ r hr hr' c hc => ?_⟩
  rw [contents_below bounded_sampleSizes (by omega) (by omega)] at hc
  exact absurd hc List.not_mem_nil

/-- The byte `0x80` is drawn with glyph -128. -/
theorem not_handles : ¬ ∀ t m str text, Bounded 48 128 t → StringAt m str text →
    Handles t m str text := by
  intro h
  have hstring : StringAt (stringMemory [0x80]) 0 [0x80] :=
    stringAt_stringMemory (by simp) (by decide)
  have hall := (handles_iff hstring).mp (h _ _ _ _ bounded_sampleSizes hstring)
  have hdrawn := (drawn_inTable_iff bounded_sampleSizes (by decide) (by decide) [0x80]).mp hall.2
  exact absurd (hdrawn.1 0x80 List.mem_cons_self (by decide)) (by decide)

end PaskakasaOS.Kernel.Utils.PrintStrings
