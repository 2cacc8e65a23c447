import PaskakasaOS.Kernel.Utils.Numbers
import PaskakasaOS.Kernel.Utils.PrintStrings
import PaskakasaOS.Kernel.Utils.Screen

/-!
# Numbers at a position of the screen

`print_int_xy` converts its number as an unsigned one of 64 bits, takes the digits and
whatever follows them in its buffer up to a zero for the text, clears as many pixel
columns as the text has characters, and draws the text over what is left.
-/
namespace PaskakasaOS.Kernel.Utils.PrintXy

open Lib.ByteMemory Lib.Numerals
open TextTerminal TerminalContents TerminalBounds Numbers PrintStrings Drawings Screen
open Utils.Mem (strlen_eq_some_iff)
open Framebuffer (color pixel point cellPixel linePoint)

/-! ## `printxy` and `print_int_xy` -/

/-- `printxy` of the string at `str`. The loop that clears adds its index to the column
in pixels. -/
def printxy? (t : Console) (m : Memory) (str : Nat) (x y : UInt32) : Option Console := do
  let str ← passed m str
  let t := (List.range str.length).foldl
    (fun t i => { t with
      draws := t.draws ++ [.clear (UInt32.ofNat i + x * t.headerWidth) (y * t.headerHeight)] }) t
  some ((List.range str.length).foldl
    (fun t i => printChar t (str.getD i 0) (x + UInt32.ofNat i) y) t)

/-- `print_int_xy`, with what the array of `itoa` and the memory from its buffer on held
before. The conversion to `uint64_t` extends the sign. -/
def printIntXY? (t : Console) (num : Int32) (x y : UInt32) (tmp buffer : Memory) :
    Option Console := do
  let (_, buffer) ← itoa? 40 num.toInt64.toUInt64 10 tmp buffer
  printxy? t buffer 0 x y

/-! ## What it should show -/

/-- The digits of a number. -/
def digits (v : Nat) : List UInt8 := ((numeral 10 v).map digit).reverse

/-- The number in decimal, with a minus sign when negative. -/
def decimal (num : Int32) : List UInt8 :=
  if num < 0 then 0x2d :: digits num.toInt.natAbs else digits num.toInt.natAbs

/-- The cells from `x`, `y` on show the number and nothing else, and no character is drawn
outside of them. -/
def Replaces (glyphs : Glyphs) (m : Memory) (t : Console) (num : Int32) (x y : UInt32)
    (tmp buffer : Memory) : Prop :=
  ∃ t' draws, printIntXY? t num x y tmp buffer = some t' ∧ t'.draws = t.draws ++ draws ∧
    (∀ i < (decimal num).length, ∀ k < 16, ∀ j < 8,
      (cellPixel (screen glyphs m t') y.toNat k (x.toNat + i) j ≠ 0 ↔
        lit glyphs ((decimal num).getD i 0) k j)) ∧
    ∀ glyph px py, .render glyph px py ∈ draws →
      ∃ i < (decimal num).length, px.toNat = 8 * (x.toNat + i) ∧ py.toNat = 16 * y.toNat

/-! ## The drawing calls -/

/-- The calls that clear. -/
def clears (t : Console) (n : Nat) (x y : UInt32) : List Draw :=
  (List.range n).flatMap fun i => [.clear (UInt32.ofNat i + x * t.headerWidth) (y * t.headerHeight)]

/-- The calls that draw the first `n` characters. -/
def renders (t : Console) (s : List UInt8) (n : Nat) (x y : UInt32) : List Draw :=
  (List.range n).flatMap fun i => [charDraw t (s.getD i 0) (x + UInt32.ofNat i) y]

theorem mem_clears {t : Console} {n : Nat} {x y : UInt32} {d : Draw} : d ∈ clears t n x y ↔
    ∃ i < n, d = .clear (UInt32.ofNat i + x * t.headerWidth) (y * t.headerHeight) := by
  simp only [clears, List.mem_flatMap, List.mem_range, List.mem_singleton]

theorem mem_renders {t : Console} {s : List UInt8} {n : Nat} {x y : UInt32} {d : Draw} :
    d ∈ renders t s n x y ↔ ∃ i < n, d = charDraw t (s.getD i 0) (x + UInt32.ofNat i) y := by
  simp only [renders, List.mem_flatMap, List.mem_range, List.mem_singleton]

theorem printxy?_eq {t : Console} {m : Memory} {str : Nat} {s : List UInt8}
    (hs : passed m str = some s) (x y : UInt32) : printxy? t m str x y =
      some { t with draws := t.draws ++ (clears t s.length x y ++ renders t s s.length x y) } := by
  have hclears := foldl_draw (t := t) (g := fun t i => { t with
      draws := t.draws ++ [.clear (UInt32.ofNat i + x * t.headerWidth) (y * t.headerHeight)] })
    (f := fun i => [.clear (UInt32.ofNat i + x * t.headerWidth) (y * t.headerHeight)])
    (fun _ _ => rfl) (List.range s.length)
  have hrenders := foldl_draw (t := { t with draws := t.draws ++ clears t s.length x y })
    (g := fun t i => printChar t (s.getD i 0) (x + UInt32.ofNat i) y)
    (f := fun i => [charDraw t (s.getD i 0) (x + UInt32.ofNat i) y])
    (fun _ _ => rfl) (List.range s.length)
  rw [printxy?, hs]
  simp only [Option.bind_eq_bind, Option.bind_some, hclears]
  rw [← List.append_assoc]
  exact congrArg some hrenders

/-! ## The points of the cells -/

/-- Bit `e` of line `k` in the glyphs of a text, side by side. -/
def textBit (glyphs : Glyphs) (s : List UInt8) (k e : Nat) : Bool :=
  lit glyphs (s.getD (e / 8) 0) k (e % 8)

section Points

variable {glyphs : Glyphs} {t : Console} {x y : UInt32}

theorem linePoint_congr {bits bits' : Nat → Bool} {n d old : Nat} (h : ∀ j < n, bits j = bits' j) :
    linePoint bits n d old = linePoint bits' n d old := by
  have hlit : (d < n ∧ bits d) ↔ d < n ∧ bits' d := and_congr_right fun hd => by rw [h d hd]
  have hnext : (0 < d ∧ d ≤ n ∧ bits (d - 1)) ↔ 0 < d ∧ d ≤ n ∧ bits' (d - 1) :=
    and_congr_right fun hpos => and_congr_right fun hd => by rw [h (d - 1) (by omega)]
  rw [linePoint, linePoint]
  simp only [hlit, hnext]

theorem toNat_add_ofNat {i : Nat} (h : x.toNat + i ≤ 128) (hi : i < 128) :
    (x + UInt32.ofNat i).toNat = x.toNat + i := by
  rw [UInt32.toNat_add, toNat_ofNat_lt hi]
  exact Nat.mod_eq_of_lt (by omega)

/-- The loop that clears reaches nine columns behind the last index. -/
theorem point_clears (hsize : CellSize t) (hx : x.toNat < 128) (hy : y.toNat < 48) (m : Memory)
    {n : Nat} (hn : n ≤ 128) {k e : Nat} (hk : k < 16) (he : e < 1024) :
    point ((clears t n x y).foldl (drawCall glyphs) m)
      (1024 * (16 * y.toNat) + 8 * x.toNat + 1024 * k + e) =
      if 0 < n ∧ e < n + 9 then 0
      else point m (1024 * (16 * y.toNat) + 8 * x.toNat + 1024 * k + e) := by
  obtain ⟨hwidth, hheight⟩ := hsize.corner hx hy
  induction n with
  | zero => rfl
  | succ n ih =>
    have hcolumn : (UInt32.ofNat n + x * t.headerWidth).toNat = n + 8 * x.toNat := by
      rw [UInt32.toNat_add, toNat_ofNat_lt (by omega), hwidth]
      exact Nat.mod_eq_of_lt (by omega)
    have hcleared := Framebuffer.point_clearGlyph ((clears t n x y).foldl (drawCall glyphs) m)
      (n + 8 * x.toNat) (16 * y.toNat)
    rw [clears, List.range_succ, List.flatMap_append, List.flatMap_singleton, List.foldl_append,
      List.foldl_cons, List.foldl_nil, drawCall, hcolumn, hheight, ← clears]
    by_cases hahead : n ≤ e
    · have hplace : 1024 * (16 * y.toNat) + 8 * x.toNat + 1024 * k + e =
          1024 * (16 * y.toNat) + (n + 8 * x.toNat) + 1024 * k + (e - n) := by omega
      have hold := ih (by omega)
      rw [hplace] at hold
      rw [hplace, hcleared.2 k (e - n) (by omega), hold]
      split_ifs <;> first | rfl | omega
    · rw [if_pos (show 0 < n + 1 ∧ e < n + 1 + 9 by omega)]
      rw [if_pos (show 0 < n ∧ e < n + 9 by omega)] at ih
      rw [← ih (by omega)]
      -- the point is left of the square that is cleared
      by_cases hfirst : k = 0
      · exact hcleared.1 _ (by omega)
      · have hplace : 1024 * (16 * y.toNat) + 8 * x.toNat + 1024 * k + e =
            1024 * (16 * y.toNat) + (n + 8 * x.toNat) + 1024 * (k - 1) + (1024 + e - n) := by omega
        rw [hplace, hcleared.2 (k - 1) _ (by omega), if_neg (by omega)]

/-- The loop that draws. -/
theorem point_renders (hsize : CellSize t) (hy : y.toNat < 48) (m : Memory) (s : List UInt8)
    {n : Nat} (hn : n < 127) (hx : x.toNat + n ≤ 128) {k e : Nat} (hk : k < 16) (he : e < 1024) :
    point ((renders t s n x y).foldl (drawCall glyphs) m)
      (1024 * (16 * y.toNat) + 8 * x.toNat + 1024 * k + e) =
      linePoint (textBit glyphs s k) (8 * n) e
        (point m (1024 * (16 * y.toNat) + 8 * x.toNat + 1024 * k + e)) := by
  induction n with
  | zero => exact Framebuffer.linePoint_zero.symm
  | succ n ih =>
    have hcell := toNat_add_ofNat (x := x) (i := n) (by omega) (by omega)
    obtain ⟨hwidth, hheight⟩ := hsize.corner (x := x + UInt32.ofNat n) (by omega) hy
    rw [hcell] at hwidth
    have hdrawn := Framebuffer.point_renderGlyph_line (glyphs (glyphIndex (s.getD n 0)))
      ((renders t s n x y).foldl (drawCall glyphs) m) (8 * (x.toNat + n)) (16 * y.toNat)
    have hglyph : ∀ d old, linePoint (fun j => textBit glyphs s k (8 * n + j)) 8 d old =
        linePoint (Framebuffer.bitAt (glyphs (glyphIndex (s.getD n 0)) k)) 8 d old := fun d old =>
      linePoint_congr fun j hj => by
        rw [textBit, show (8 * n + j) / 8 = n by omega, show (8 * n + j) % 8 = j by omega, lit]
    rw [renders, List.range_succ, List.flatMap_append, List.flatMap_singleton, List.foldl_append,
      List.foldl_cons, List.foldl_nil, charDraw, drawCall, hwidth, hheight, ← renders, Nat.mul_succ,
      Framebuffer.linePoint_add, hglyph]
    by_cases hahead : 8 * n ≤ e
    · have hplace : 1024 * (16 * y.toNat) + 8 * x.toNat + 1024 * k + e =
          1024 * (16 * y.toNat) + 8 * (x.toNat + n) + 1024 * k + (e - 8 * n) := by omega
      have hold := ih (by omega) (by omega)
      rw [hplace] at hold
      rw [if_pos hahead, hplace, hdrawn.2 k (e - 8 * n) (by omega), if_pos hk, hold]
    · rw [if_neg hahead, ← ih (by omega) (by omega)]
      -- the point is left of the glyph that is drawn
      by_cases hfirst : k = 0
      · exact hdrawn.1 _ (by omega)
      · have hplace : 1024 * (16 * y.toNat) + 8 * x.toNat + 1024 * k + e =
            1024 * (16 * y.toNat) + 8 * (x.toNat + n) + 1024 * (k - 1) + (1024 + e - 8 * n) := by
          omega
        rw [hplace, hdrawn.2 (k - 1) _ (by omega), if_pos (by omega),
          Framebuffer.linePoint_outside (by omega)]

end Points

/-- The text lights point `e` of line `k`. -/
def Lights (glyphs : Glyphs) (s : List UInt8) (k e : Nat) : Prop :=
  e < 8 * s.length ∧ textBit glyphs s k e

/-- The point lies in the columns that are cleared for the text, or behind a bit of it. -/
def Clears (glyphs : Glyphs) (s : List UInt8) (k e : Nat) : Prop :=
  (0 < s.length ∧ e < s.length + 9) ∨ (0 < e ∧ Lights glyphs s k (e - 1))

/-- Clearing for the text `s` and drawing it over the screen shows the text `s'` in its
cells. -/
structure Overwrites (glyphs : Glyphs) (screen : Memory) (x y : Nat) (s s' : List UInt8) : Prop where
  drawn : ∀ k < 16, ∀ e < 8 * s'.length, Lights glyphs s k e → Lights glyphs s' k e
  cleared : ∀ k < 16, ∀ e < 8 * s'.length, ¬ Lights glyphs s k e → Clears glyphs s k e →
    ¬ Lights glyphs s' k e
  left : ∀ k < 16, ∀ e < 8 * s'.length, ¬ Lights glyphs s k e → ¬ Clears glyphs s k e →
    (pixel screen (8 * x + e) (16 * y + k) ≠ 0 ↔ Lights glyphs s' k e)

section Texts

variable {glyphs : Glyphs} {t : Console} {m : Memory} {x y : UInt32} {s s' : List UInt8}

/-- What the two loops leave in the cells of the text. -/
theorem pixel_printed (hsize : CellSize t) (hx : x.toNat < 128) (hroom : x.toNat + s.length ≤ 128)
    (hy : y.toNat < 48) (hs : s.length < 127) {k e : Nat} (hk : k < 16) (he : e < 1024) :
    pixel ((clears t s.length x y ++ renders t s s.length x y).foldl (drawCall glyphs) m)
      (8 * x.toNat + e) (16 * y.toNat + k) ≠ 0 ↔
      Lights glyphs s k e ∨
        ¬ Clears glyphs s k e ∧ pixel m (8 * x.toNat + e) (16 * y.toNat + k) ≠ 0 := by
  have hplace : 1024 * (16 * y.toNat + k) + (8 * x.toNat + e) =
      1024 * (16 * y.toNat) + 8 * x.toNat + 1024 * k + e := by omega
  rw [Framebuffer.pixel_eq, Framebuffer.pixel_eq, hplace, List.foldl_append,
    point_renders hsize hy _ s hs hroom hk he, point_clears hsize hx hy m (by omega) hk he,
    Framebuffer.linePoint_ne_zero_iff, Clears, Lights, Lights, not_or, and_assoc]
  refine or_congr_right ?_
  by_cases hcleared : 0 < s.length ∧ e < s.length + 9
  · rw [if_pos hcleared]
    exact iff_of_false (fun h => h.2 rfl) fun h => h.1 hcleared
  · rw [if_neg hcleared, and_iff_right hcleared]

/-- The cells of the text, pixel after pixel. -/
theorem overwrites_iff (hsize : CellSize t) (hroom : x.toNat + s'.length ≤ 128)
    (hy : y.toNat < 48) (hs' : 0 < s'.length ∧ s'.length < 127) (hs : s.length ≤ s'.length) :
    (∀ i < s'.length, ∀ k < 16, ∀ j < 8,
      (cellPixel ((clears t s.length x y ++ renders t s s.length x y).foldl (drawCall glyphs) m)
          y.toNat k (x.toNat + i) j ≠ 0 ↔ lit glyphs (s'.getD i 0) k j)) ↔
      Overwrites glyphs m x.toNat y.toNat s s' := by
  have hpoint : ∀ k e, k < 16 → e < 8 * s'.length →
      (pixel ((clears t s.length x y ++ renders t s s.length x y).foldl (drawCall glyphs) m)
        (8 * x.toNat + e) (16 * y.toNat + k) ≠ 0 ↔ Lights glyphs s k e ∨
        ¬ Clears glyphs s k e ∧ pixel m (8 * x.toNat + e) (16 * y.toNat + k) ≠ 0) :=
    fun k e hk he => pixel_printed hsize (by omega) (by omega) hy (by omega) hk (by omega)
  have hcells : (∀ i < s'.length, ∀ k < 16, ∀ j < 8,
      (cellPixel ((clears t s.length x y ++ renders t s s.length x y).foldl (drawCall glyphs) m)
          y.toNat k (x.toNat + i) j ≠ 0 ↔ lit glyphs (s'.getD i 0) k j)) ↔
      ∀ k < 16, ∀ e < 8 * s'.length, ((Lights glyphs s k e ∨
        ¬ Clears glyphs s k e ∧ pixel m (8 * x.toNat + e) (16 * y.toNat + k) ≠ 0) ↔
        Lights glyphs s' k e) := by
    constructor
    · intro h k hk e he
      have hcell := h (e / 8) (by omega) k hk (e % 8) (Nat.mod_lt e (by decide))
      have hplace : 8 * (x.toNat + e / 8) + e % 8 = 8 * x.toNat + e := by omega
      rw [cellPixel, hplace, hpoint k e hk he] at hcell
      rw [hcell, Lights, textBit]
      exact (and_iff_right he).symm
    · intro h i hi k hk j hj
      have hplace : 8 * (x.toNat + i) + j = 8 * x.toNat + (8 * i + j) := by omega
      have hbit : Lights glyphs s' k (8 * i + j) ↔ lit glyphs (s'.getD i 0) k j := by
        rw [Lights, textBit, show (8 * i + j) / 8 = i by omega, show (8 * i + j) % 8 = j by omega]
        exact and_iff_right (by omega)
      rw [cellPixel, hplace, hpoint k _ hk (by omega), ← hbit]
      exact h k hk (8 * i + j) (by omega)
  rw [hcells]
  constructor
  · intro h
    refine ⟨fun k hk e he hlit => (h k hk e he).mp (Or.inl hlit), fun k hk e he hdark hclear hshown => ?_,
      fun k hk e he hdark hkept => ?_⟩
    · rcases (h k hk e he).mpr hshown with hlit | hold
      · exact hdark hlit
      · exact hold.1 hclear
    · rw [← h k hk e he, or_iff_right hdark]
      exact (and_iff_right hkept).symm
  · intro h k hk e he
    by_cases hlit : Lights glyphs s k e
    · exact iff_of_true (Or.inl hlit) (h.drawn k hk e he hlit)
    rw [or_iff_right hlit]
    by_cases hclear : Clears glyphs s k e
    · exact iff_of_false (fun hold => hold.1 hclear) (h.cleared k hk e he hlit hclear)
    · rw [and_iff_right hclear]
      exact h.left k hk e he hlit hclear

end Texts

/-! ## The text that is drawn -/

/-- The number as `itoa` takes it. -/
def unsigned (num : Int32) : Nat := num.toInt64.toUInt64.toNat

theorem unsigned_eq (num : Int32) :
    (unsigned num : Int) = if num.toInt < 0 then 2 ^ 64 + num.toInt else num.toInt := by
  have hvalue : num.toInt64.toBitVec.toInt = num.toInt := Int32.toInt_toInt64 num
  have hupper := num.toInt_lt
  have hlower := num.le_toInt
  have hbits : unsigned num = num.toInt64.toBitVec.toNat := rfl
  rw [BitVec.toInt_eq_toNat_cond] at hvalue
  rw [hbits]
  split_ifs at hvalue ⊢ <;> omega

theorem digits_nonzero {v : Nat} {c : UInt8} (hc : c ∈ digits v) : c ≠ 0 := by
  have hall : ∀ d < 10, digit d ≠ 0 := by decide
  rw [digits, List.mem_reverse, List.mem_map] at hc
  obtain ⟨d, hd, rfl⟩ := hc
  exact hall d (lt_of_mem_numeral (by decide) hd)

theorem length_digits (v : Nat) : (digits v).length = (numeral 10 v).length := by
  rw [digits, List.length_reverse, List.length_map]

/-- A 32-bit number has at most ten digits. -/
theorem length_decimal (num : Int32) : 0 < (decimal num).length ∧ (decimal num).length ≤ 11 := by
  have hupper := num.toInt_lt
  have hlower := num.le_toInt
  have hten : (digits num.toInt.natAbs).length ≤ 10 := by
    rw [length_digits, length_numeral_le_iff (by decide) (by decide)]
    omega
  have hpos : 0 < (digits num.toInt.natAbs).length := by
    rw [length_digits]
    exact length_numeral_pos 10 _
  rw [decimal]
  split
  · rw [List.length_cons]
    omega
  · omega

theorem decimal_of_nonneg {num : Int32} (h : 0 ≤ num.toInt) : decimal num = digits (unsigned num) := by
  have hvalue := unsigned_eq num
  have hlt : ¬ num < 0 := fun hneg => absurd (Int32.lt_iff_toInt_lt.mp hneg) (not_lt.mpr h)
  rw [if_neg (not_lt.mpr h)] at hvalue
  have hsame : num.toInt.natAbs = unsigned num := by omega
  rw [decimal, if_neg hlt, hsame]

/-- The digits of a number that is not negative are its decimal text, and those of a
negative one are more than its text has. -/
theorem length_decimal_le (num : Int32) : (decimal num).length ≤ (digits (unsigned num)).length := by
  by_cases hneg : num.toInt < 0
  · have hvalue := unsigned_eq num
    have hlower := num.le_toInt
    have hmany : ¬ (digits (unsigned num)).length ≤ 10 := by
      rw [if_pos hneg] at hvalue
      rw [length_digits, length_numeral_le_iff (by decide) (by decide)]
      omega
    exact (length_decimal num).2.trans (by omega)
  · rw [decimal_of_nonneg (not_lt.mp hneg)]

/-- The first zero behind the first `d` bytes of the buffer comes after `k` others. -/
def FirstZero (buffer : Memory) (d k : Nat) : Prop :=
  d + k < 2 ^ 64 ∧ buffer (d + k) = 0 ∧ ∀ i < k, buffer (d + i) ≠ 0

section Buffer

variable {buffer : Memory} {ds : List UInt8}

/-- The string in the buffer is the digits and what follows them up to the zero. -/
theorem passed_digits (hds : ∀ c ∈ ds, c ≠ 0) {k : Nat} (h : FirstZero buffer ds.length k) :
    passed (writeBytes buffer 0 ds) 0 =
      some (counted (ds ++ (List.range k).map fun i => buffer (ds.length + i))) := by
  obtain ⟨hfits, hzero, hbefore⟩ := h
  have hbehind : ∀ i, writeBytes buffer 0 ds (ds.length + i) = buffer (ds.length + i) := fun i =>
    writeBytes_outside (by omega)
  have hlength : (ds ++ (List.range k).map fun i => buffer (ds.length + i)).length =
      ds.length + k := by
    rw [List.length_append, List.length_map, List.length_range]
  refine StringAt.passed ⟨fun i hi => ?_, ?_, fun c hc => ?_, by rwa [hlength]⟩
  · rw [hlength] at hi
    by_cases hdigit : i < ds.length
    · rw [List.getElem_append_left hdigit]
      exact writeBytes_inside hdigit
    · have hplace : 0 + i = ds.length + (i - ds.length) := by omega
      rw [List.getElem_append_right (by omega), List.getElem_map, List.getElem_range, hplace, hbehind]
  · rw [hlength, Nat.zero_add, hbehind]
    exact hzero
  · rcases List.mem_append.mp hc with hdigit | hrest
    · exact hds c hdigit
    · obtain ⟨i, hi, rfl⟩ := List.mem_map.mp hrest
      exact hbefore i (List.mem_range.mp hi)

theorem firstZero_of_passed (hds : ∀ c ∈ ds, c ≠ 0) {s : List UInt8}
    (h : passed (writeBytes buffer 0 ds) 0 = some s) : ∃ k, FirstZero buffer ds.length k := by
  obtain ⟨n, hn, _⟩ := Option.map_eq_some_iff.mp h
  obtain ⟨hfits, hzero, hbefore⟩ := strlen_eq_some_iff.mp hn
  have hpast : ds.length ≤ n := by
    by_contra hlt
    have hbyte : writeBytes buffer 0 ds (0 + n) = ds[n] := writeBytes_inside (by omega)
    exact hds _ (List.getElem_mem (by omega)) (hbyte.symm.trans hzero)
  obtain ⟨k, rfl⟩ := Nat.exists_eq_add_of_le hpast
  refine ⟨k, hfits, ?_, fun i hi => ?_⟩
  · rwa [Nat.zero_add, writeBytes_outside (by omega)] at hzero
  · have hbyte := hbefore (ds.length + i) (by omega)
    rwa [Nat.zero_add, writeBytes_outside (by omega)] at hbyte

theorem length_counted (ds rest : List UInt8) :
    (counted (ds ++ rest)).length = (ds.length + rest.length) % 256 := by
  rw [counted, List.length_take, List.length_append]
  exact Nat.min_eq_left (Nat.mod_le _ _)

end Buffer

theorem printIntXY?_eq (t : Console) (num : Int32) (x y : UInt32) (tmp buffer : Memory) :
    printIntXY? t num x y tmp buffer =
      printxy? t (writeBytes buffer 0 (digits (unsigned num))) 0 x y := by
  have hdenotes : Denotes 10 (itoa num.toInt64.toUInt64 10) num.toInt64.toUInt64.toNat :=
    denotes_itoa (by decide) (lt_pow_of_nine_le (by decide) _)
  rw [printIntXY?, itoa?_of_denotes hdenotes, itoa_eq (by decide)]
  rfl

section Replacement

variable {glyphs : Glyphs} {m : Memory} {t : Console} {num : Int32} {x y : UInt32}
  {tmp buffer : Memory} {s : List UInt8}

/-- The number is shown when its text is long enough for all that is drawn, and drawing
shows it. -/
theorem replaces_iff_of_passed (hsize : CellSize t) (hx : x.toNat + (decimal num).length ≤ 128)
    (hy : y.toNat < 48) (hs : passed (writeBytes buffer 0 (digits (unsigned num))) 0 = some s) :
    Replaces glyphs m t num x y tmp buffer ↔ s.length ≤ (decimal num).length ∧
      Overwrites glyphs (screen glyphs m t) x.toNat y.toNat s (decimal num) := by
  have hlength := length_decimal num
  have hscreen : ∀ draws, screen glyphs m { t with draws := t.draws ++ draws } =
      draws.foldl (drawCall glyphs) (screen glyphs m t) := fun _ => List.foldl_append
  have hcolumn : ∀ i ≤ (decimal num).length,
      ((x + UInt32.ofNat i) * t.headerWidth).toNat = 8 * (x.toNat + i) := by
    intro i hi
    have hcell := toNat_add_ofNat (x := x) (i := i) (by omega) (by omega)
    have hproduct : (x + UInt32.ofNat i).toNat * (8 : UInt32).toNat < 2 ^ 32 := by
      show (x + UInt32.ofNat i).toNat * 8 < 2 ^ 32
      omega
    rw [hsize.width, toNat_mul_cell hproduct, hcell]
    rfl
  rw [Replaces, printIntXY?_eq, printxy?_eq hs]
  constructor
  · intro h
    obtain ⟨t', draws, ht', hdraws, hcells, hrenders⟩ := h
    obtain rfl := Option.some.inj ht'
    obtain rfl := List.append_cancel_left hdraws
    have hle : s.length ≤ (decimal num).length := by
      -- the character behind the number would be drawn
      by_contra hlong
      obtain ⟨i, hi, hpx, _⟩ := hrenders _ _ _ (List.mem_append_right _
        (mem_renders.mpr ⟨(decimal num).length, by omega, rfl⟩))
      rw [hcolumn _ (Nat.le_refl _)] at hpx
      omega
    rw [hscreen, overwrites_iff hsize hx hy (by omega) hle] at hcells
    exact ⟨hle, hcells⟩
  · intro h
    obtain ⟨hle, hover⟩ := h
    refine ⟨_, _, rfl, rfl, ?_, ?_⟩
    · rw [hscreen, overwrites_iff hsize hx hy (by omega) hle]
      exact hover
    · intro glyph px py hmem
      rcases List.mem_append.mp hmem with hclear | hrender
      · obtain ⟨i, _, hdraw⟩ := mem_clears.mp hclear
        exact nomatch hdraw
      · obtain ⟨i, hi, hdraw⟩ := mem_renders.mp hrender
        rw [charDraw, Draw.render.injEq] at hdraw
        obtain ⟨_, rfl, rfl⟩ := hdraw
        exact ⟨i, by omega, hcolumn i (by omega), (hsize.corner (x := x) (by omega) hy).2⟩

/-- A non-negative number with a zero behind its digits replaces what the columns behind
the cleared ones show, unless something else is lit there. -/
theorem replaces_iff_of_nonneg (hsize : CellSize t) (hx : x.toNat + (decimal num).length ≤ 128)
    (hy : y.toNat < 48) (hnum : 0 ≤ num.toInt) (hzero : buffer (decimal num).length = 0) :
    Replaces glyphs m t num x y tmp buffer ↔
      ∀ k < 16, ∀ e < 8 * (decimal num).length, ¬ Lights glyphs (decimal num) k e →
        ¬ Clears glyphs (decimal num) k e →
        pixel (screen glyphs m t) (8 * x.toNat + e) (16 * y.toNat + k) = 0 := by
  have hdigits : digits (unsigned num) = decimal num := (decimal_of_nonneg hnum).symm
  have hfirst : FirstZero buffer (decimal num).length 0 := by
    have hlength := length_decimal num
    exact ⟨by omega, hzero, fun i hi => absurd hi (Nat.not_lt_zero i)⟩
  have hpassed : passed (writeBytes buffer 0 (digits (unsigned num))) 0 = some (decimal num) := by
    have hlength := length_decimal num
    rw [passed_digits (fun c => digits_nonzero) (by rw [hdigits]; exact hfirst), hdigits, List.range_zero,
      List.map_nil, List.append_nil, (counted_eq_self_iff _).mpr (by omega)]
  rw [replaces_iff_of_passed hsize hx hy hpassed, and_iff_right (Nat.le_refl _)]
  constructor
  · intro h k hk e he hdark hkept
    by_contra hlit
    exact hdark ((h.left k hk e he hdark hkept).mp hlit)
  · intro h
    exact ⟨fun k hk e he hlit => hlit, fun k hk e he hdark _ => hdark,
      fun k hk e he hdark hkept => iff_of_false (fun hlit => hlit (h k hk e he hdark hkept)) hdark⟩

end Replacement

/-- The number is shown when a zero follows its digits at the right distance, so that no
more characters are drawn than it has, and the first digits drawn over the screen happen
to show it. -/
theorem printIntXY_replaces_iff (glyphs : Glyphs) (m : Memory) (t : Console) (num : Int32)
    (x y : UInt32) (tmp buffer : Memory) (hsize : CellSize t)
    (hx : x.toNat + (decimal num).length ≤ 128) (hy : y.toNat < 48) :
    Replaces glyphs m t num x y tmp buffer ↔
      ∃ k, FirstZero buffer (digits (unsigned num)).length k ∧
        ((digits (unsigned num)).length + k) % 256 ≤ (decimal num).length ∧
        Overwrites glyphs (screen glyphs m t) x.toNat y.toNat
          ((digits (unsigned num)).take (((digits (unsigned num)).length + k) % 256))
          (decimal num) := by
  have hiff : ∀ k, FirstZero buffer (digits (unsigned num)).length k →
      (Replaces glyphs m t num x y tmp buffer ↔
        ((digits (unsigned num)).length + k) % 256 ≤ (decimal num).length ∧
        Overwrites glyphs (screen glyphs m t) x.toNat y.toNat
          ((digits (unsigned num)).take (((digits (unsigned num)).length + k) % 256))
          (decimal num)) := by
    intro k hk
    have hpassed := passed_digits (fun c => digits_nonzero) hk
    rw [replaces_iff_of_passed hsize hx hy hpassed, length_counted, List.length_map, List.length_range]
    refine and_congr_right fun hle => ?_
    have hfew := hle.trans (length_decimal_le num)
    rw [counted, List.length_append, List.length_map, List.length_range,
      List.take_append_of_le_length hfew]
  constructor
  · intro h
    have hreturns := h
    obtain ⟨t', _, hprinted, _⟩ := hreturns
    rw [printIntXY?_eq, printxy?] at hprinted
    obtain ⟨s, hs, _⟩ := Option.bind_eq_some_iff.mp hprinted
    obtain ⟨k, hk⟩ := firstZero_of_passed (fun c => digits_nonzero) hs
    exact ⟨k, hk, (hiff k hk).mp h⟩
  · intro h
    obtain ⟨k, hk, hshown⟩ := h
    exact (hiff k hk).mpr hshown

/-- A number of one digit on a blank screen, with a zero behind the digit. -/
theorem printIntXY_replaces_iff_seven :
    Replaces blocks (fun _ => 0) (initTextTerminal sampleSizes zeroConsole) 7 0 0 (fun _ => 0)
      (fun _ => 0) := by
  refine (printIntXY_replaces_iff _ _ _ _ _ _ _ _ ⟨rfl, rfl⟩ (by decide) (by decide)).mpr
    ⟨0, ⟨by decide, rfl, fun i hi => absurd hi (Nat.not_lt_zero i)⟩, by decide, ?_⟩
  have hsame : (digits (unsigned 7)).take (((digits (unsigned 7)).length + 0) % 256) = decimal 7 := by
    decide
  rw [hsame]
  exact ⟨fun k _ e _ hlit => hlit, fun k _ e _ hdark _ => hdark,
    fun k _ e _ hdark _ => iff_of_false (fun hlit => hlit rfl) hdark⟩

/-- The text drawn for -1 has twenty characters. -/
theorem not_replaces : ¬ ∀ (glyphs : Glyphs) (m : Memory) (t : Console) (num : Int32)
    (x y : UInt32) (tmp buffer : Memory), CellSize t → x.toNat + (decimal num).length ≤ 128 →
    y.toNat < 48 → Replaces glyphs m t num x y tmp buffer := by
  intro h
  have hsize : CellSize (initTextTerminal sampleSizes zeroConsole) := ⟨rfl, rfl⟩
  have hshown := h blocks (fun _ => 0) _ (-1) 0 0 (fun _ => 0) (fun _ => 0) hsize (by decide) (by decide)
  have hzero : FirstZero (fun _ => 0) (digits (unsigned (-1))).length 0 :=
    ⟨by decide, rfl, fun i hi => absurd hi (Nat.not_lt_zero i)⟩
  have hpassed := passed_digits (fun c => digits_nonzero) hzero
  have hshort := ((replaces_iff_of_passed hsize (by decide) (by decide) hpassed).mp hshown).1
  exact absurd hshort (by decide)

end PaskakasaOS.Kernel.Utils.PrintXy
