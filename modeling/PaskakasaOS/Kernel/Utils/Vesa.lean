import PaskakasaOS.Kernel.Utils.Mem
import PaskakasaOS.Lib.PackedRecord

/-!
# `kernel/utils/vesa.c`

`init_vesa` keeps a copy of the block that the firmware has filled in. `draw_rectangle`
stores four bytes for a pixel, however many it has in the mode, so the last store of a row
runs on behind the rectangle.
-/
namespace PaskakasaOS.Kernel.Utils.Vesa

open Lib.ByteMemory Lib.PackedRecord
open Mem

/-! ## The mode -/

/-- The widths of the fields of `vbe_mode_info_structure_t`, `reserved1` being the last. -/
def vbeWidths : List Nat :=
  [2, 1, 1, 2, 2, 2, 2, 4, 2, 2, 2, 1, 1, 1, 1, 1, 1, 1, 1, 1, 1, 1, 1, 1, 1, 1, 1, 1, 1, 4, 4, 2, 206]

/-- The fields that the kernel reads. -/
structure ModeInfo where
  pitch : UInt16
  width : UInt16
  height : UInt16
  bpp : UInt8
  framebuffer : UInt32

def ModeInfo.packed (m : Memory) (a : Nat) : ModeInfo where
  pitch := UInt16.ofNat (getField vbeWidths m a 8)
  width := UInt16.ofNat (getField vbeWidths m a 9)
  height := UInt16.ofNat (getField vbeWidths m a 10)
  bpp := UInt8.ofNat (getField vbeWidths m a 14)
  framebuffer := UInt32.ofNat (getField vbeWidths m a 29)

/-- `init_vesa`, with the place of the global `info`. -/
def initVesa (m : Memory) (info : UInt64) (p : UInt32) : Memory :=
  (memmove m info p.toUInt64 256).2

/-- `get_framebuffer` -/
def getFramebuffer (m : Memory) (info : UInt64) : UInt32 := (ModeInfo.packed m info.toNat).framebuffer

/-! ## Drawing -/

/-- `SET_PIXEL_COLOR(x, y, c)`, which reads `info` for every pixel; the sum of an `int` and
the `uint32_t` at its end is one of 32 bits. -/
def setPixelColor (info : UInt64) (m : Memory) (x y c : UInt32) : Memory :=
  let i := ModeInfo.packed m info.toNat
  writeLE 4 m (y * i.pitch.toUInt32 + x * (i.bpp / 8).toUInt32 + i.framebuffer).toNat c.toNat

/-- The inner loop of `draw_rectangle`. -/
def drawRow (info : UInt64) (m : Memory) (x y : UInt32) (width : Nat) : Memory :=
  (List.range width).foldl (fun m j => setPixelColor info m (x + UInt32.ofNat j) y 0x00ff00) m

/-- `draw_rectangle`; no round is made for a size below zero. -/
def drawRectangle (info : UInt64) (m : Memory) (x y : UInt32) (width height : Nat) : Memory :=
  (List.range height).foldl (fun m i => drawRow info m x (y + UInt32.ofNat i) width) m

/-- The bytes of a pixel. -/
def ModeInfo.bytes (info : ModeInfo) : Nat := (info.bpp / 8).toNat

/-- Where the pixel at column `x` of line `y` begins. -/
def ModeInfo.address (info : ModeInfo) (x y : Nat) : Nat :=
  y * info.pitch.toNat + x * info.bytes + info.framebuffer.toNat

def pixel (info : ModeInfo) (m : Memory) (x y : Nat) : Nat := readLE info.bytes m (info.address x y)

/-! ## Stores that overlap -/

section Stores

variable {m : Memory} {a b k w i n B d : Nat}

theorem writeLE_byte (hi : i < k) : writeLE k m a w (a + i) = UInt8.ofNat (w / 256 ^ i) := by
  have hread := readLE_writeLE_inside (m := m) (a := a) (w := w) (show i + 1 ≤ k by omega)
  rw [readLE_one, Nat.pow_one] at hread
  apply UInt8.toNat_inj.mp
  rw [hread, UInt8.toNat_ofNat']

/-- Stores of the word `w` at distances `B`, the first at `a`. -/
def spread (m : Memory) (a B w : Nat) : Nat → Memory
  | 0 => m
  | n + 1 => writeLE 4 (spread m a B w n) (a + n * B) w

/-- What the last of the stores that cover it leaves in byte `d`. -/
def spreadByte (B w n d : Nat) : UInt8 := UInt8.ofNat (w / 256 ^ (d - min (d / B) (n - 1) * B))

/-- Stores that leave no gap between them. -/
theorem spread_apply (hB : 1 ≤ B) (hB4 : B ≤ 4) (hn : 0 < n) :
    spread m a B w n b =
      if a ≤ b ∧ b < a + (n - 1) * B + 4 then spreadByte B w n (b - a) else m b := by
  induction n with
  | zero => exact absurd hn (Nat.lt_irrefl 0)
  | succ n ih =>
    rw [spread, Nat.add_sub_cancel]
    by_cases hlast : a + n * B ≤ b ∧ b < a + n * B + 4
    · obtain ⟨k, rfl⟩ := Nat.exists_eq_add_of_le hlast.1
      have hd : a + n * B + k - a = n * B + k := by omega
      have hcount : n ≤ (n * B + k) / B := (Nat.le_div_iff_mul_le hB).mpr (Nat.le_add_right _ _)
      rw [writeLE_byte (by omega), if_pos (by omega), spreadByte, hd, Nat.add_sub_cancel,
        Nat.min_eq_right hcount, Nat.add_sub_cancel_left]
    · rw [writeLE_outside (by omega)]
      by_cases hfirst : n = 0
      · subst hfirst
        rw [spread, if_neg (by omega)]
      · obtain ⟨l, rfl⟩ : ∃ l, n = l + 1 := ⟨n - 1, by omega⟩
        have hnext : (l + 1) * B = l * B + B := Nat.succ_mul l B
        rw [ih (Nat.succ_pos l), Nat.add_sub_cancel]
        by_cases hin : a ≤ b ∧ b < a + l * B + 4
        · have hbefore : b - a < (l + 1) * B := by omega
          have hcount : (b - a) / B ≤ l := Nat.lt_succ_iff.mp ((Nat.div_lt_iff_lt_mul hB).mpr hbefore)
          rw [if_pos hin, if_pos (by omega), spreadByte, spreadByte, Nat.add_sub_cancel,
            Nat.add_sub_cancel, Nat.min_eq_left hcount, Nat.min_eq_left (by omega)]
        · rw [if_neg hin, if_neg (by omega)]

/-- The bytes of one unit below the last show the lower part of the word. -/
theorem spreadByte_inside (hi : i < n) (hk : k < B) :
    spreadByte B w n (i * B + k) = UInt8.ofNat (w / 256 ^ k) := by
  have hcount : (i * B + k) / B = i := by
    rw [Nat.mul_comm, Nat.mul_add_div (by omega), Nat.div_eq_of_lt hk, Nat.add_zero]
  rw [spreadByte, hcount, Nat.min_eq_left (by omega), Nat.add_sub_cancel_left]

/-- Behind the last unit comes the upper part. -/
theorem spreadByte_behind (hB : 1 ≤ B) (hn : 0 < n) :
    spreadByte B w n (n * B + k) = UInt8.ofNat (w / 256 ^ (B + k)) := by
  obtain ⟨l, rfl⟩ : ∃ l, n = l + 1 := ⟨n - 1, by omega⟩
  have hnext : (l + 1) * B = l * B + B := Nat.succ_mul l B
  have hcount : l ≤ ((l + 1) * B + k) / B := (Nat.le_div_iff_mul_le hB).mpr (by omega)
  rw [spreadByte, Nat.add_sub_cancel, Nat.min_eq_right hcount, hnext,
    show l * B + B + k - l * B = B + k by omega]

/-- Rows of such stores at distances `P`. -/
def rows (m : Memory) (a P B w n : Nat) : Nat → Memory
  | 0 => m
  | h + 1 => spread (rows m a P B w n h) (a + h * P) B w n

variable {P h : Nat}

theorem rows_outside (hB : 1 ≤ B) (hB4 : B ≤ 4) (hn : 0 < n)
    (hb : ∀ i < h, b < a + i * P ∨ a + i * P + (n - 1) * B + 4 ≤ b) :
    rows m a P B w n h b = m b := by
  induction h with
  | zero => rfl
  | succ h ih =>
    have hlast := hb h (Nat.lt_succ_self h)
    rw [rows, spread_apply hB hB4 hn, if_neg (by omega)]
    exact ih fun i hi => hb i (Nat.lt_succ_of_lt hi)

/-- A byte shows the last row that reaches it. -/
theorem rows_inside (hB : 1 ≤ B) (hB4 : B ≤ 4) (hn : 0 < n) (hi : i < h)
    (hd : d < (n - 1) * B + 4) (hnext : d < P ∨ i + 1 = h) :
    rows m a P B w n h (a + i * P + d) = spreadByte B w n d := by
  induction h with
  | zero => exact absurd hi (Nat.not_lt_zero i)
  | succ h ih =>
    rw [rows, spread_apply hB hB4 hn]
    rcases Nat.lt_succ_iff_lt_or_eq.mp hi with hlt | rfl
    · have hbelow : (i + 1) * P ≤ h * P := Nat.mul_le_mul_right P hlt
      rw [Nat.succ_mul] at hbelow
      have hbefore : d < P := hnext.resolve_right (by omega)
      rw [if_neg (by omega)]
      exact ih hlt (Or.inl hbefore)
    · rw [if_pos (by omega), Nat.add_sub_cancel_left]

end Stores

/-! ## The rectangle -/

/-- A rectangle that ends inside its lines and below 2^32, with `info` kept apart from it. -/
structure Fits (I : ModeInfo) (info x y width height : Nat) : Prop where
  wide : 0 < width
  least : 1 ≤ I.bytes
  most : I.bytes ≤ 4
  line : width * I.bytes ≤ I.pitch.toNat
  below : I.address (x + width) (y + height) + 4 ≤ 2 ^ 32
  apart : info + 256 ≤ I.framebuffer.toNat ∨ I.address (x + width) (y + height) + 4 ≤ info

/-- What is in memory behind `draw_rectangle`. The last store of a row leaves the upper bytes of
the colour behind the row, unless the next one begins there. -/
structure Drawn (I : ModeInfo) (m m' : Memory) (x y width height : Nat) : Prop where
  inside : ∀ i < height, ∀ j < width, pixel I m' (x + j) (y + i) = 0x00ff00 % 256 ^ I.bytes
  behind : ∀ i < height, ∀ k < 4 - I.bytes,
    (width * I.bytes + k < I.pitch.toNat ∨ i + 1 = height) →
      m' (I.address (x + width) (y + i) + k) = UInt8.ofNat (0x00ff00 / 256 ^ (I.bytes + k))
  outside : ∀ b,
    (∀ i < height, b < I.address x (y + i) ∨ I.address (x + width) (y + i) + (4 - I.bytes) ≤ b) →
      m' b = m b

theorem ModeInfo.address_column (I : ModeInfo) (x y j : Nat) :
    I.address (x + j) y = I.address x y + j * I.bytes := by
  unfold ModeInfo.address
  ring

theorem ModeInfo.address_row (I : ModeInfo) (x y i : Nat) :
    I.address x (y + i) = I.address x y + i * I.pitch.toNat := by
  unfold ModeInfo.address
  ring

theorem ModeInfo.packed_congr {m m' : Memory} {a b : Nat} (h : ∀ k < 256, m (a + k) = m' (b + k)) :
    ModeInfo.packed m a = ModeInfo.packed m' b := by
  have hfield : ∀ i < 33, getField vbeWidths m a i = getField vbeWidths m' b i :=
    fun i hi => getField_congr hi h
  simp only [ModeInfo.packed, hfield, Nat.reduceLT]

variable {I : ModeInfo} {m : Memory} {info : UInt64} {x y : UInt32} {width height i j n : Nat}

/-- A store inside the rectangle, in memory whose `info` has not changed. -/
theorem setPixelColor_eq (hf : Fits I info.toNat x.toNat y.toNat width height)
    (hI : ModeInfo.packed m info.toNat = I) (hi : i < height) (hj : j < width) (c : UInt32) :
    setPixelColor info m (x + UInt32.ofNat j) (y + UInt32.ofNat i) c =
      writeLE 4 m (I.address x.toNat y.toNat + i * I.pitch.toNat + j * I.bytes) c.toNat := by
  have hbelow := hf.below
  rw [ModeInfo.address] at hbelow
  have hpitch : 1 ≤ I.pitch.toNat := hf.least.trans ((Nat.le_mul_of_pos_left _ hf.wide).trans hf.line)
  have hlines : (y.toNat + i) * I.pitch.toNat ≤ (y.toNat + height) * I.pitch.toNat :=
    Nat.mul_le_mul_right _ (by omega)
  have hcolumns : (x.toNat + j) * I.bytes ≤ (x.toNat + width) * I.bytes :=
    Nat.mul_le_mul_right _ (by omega)
  have hy : y.toNat + i ≤ (y.toNat + i) * I.pitch.toNat := Nat.le_mul_of_pos_right _ hpitch
  have hx : x.toNat + j ≤ (x.toNat + j) * I.bytes := Nat.le_mul_of_pos_right _ hf.least
  have hline : (y + UInt32.ofNat i).toNat = y.toNat + i := by
    rw [UInt32.toNat_add, UInt32.toNat_ofNat_of_lt' (show i < 2 ^ 32 by omega),
      Nat.mod_eq_of_lt (by omega)]
  have hcolumn : (x + UInt32.ofNat j).toNat = x.toNat + j := by
    rw [UInt32.toNat_add, UInt32.toNat_ofNat_of_lt' (show j < 2 ^ 32 by omega),
      Nat.mod_eq_of_lt (by omega)]
  have hmul : ((x + UInt32.ofNat j) * (I.bpp / 8).toUInt32).toNat = (x.toNat + j) * I.bytes := by
    rw [UInt32.toNat_mul, hcolumn, UInt8.toNat_toUInt32]
    exact Nat.mod_eq_of_lt (by rw [← ModeInfo.bytes]; omega)
  have hrow : ((y + UInt32.ofNat i) * I.pitch.toUInt32).toNat = (y.toNat + i) * I.pitch.toNat := by
    rw [UInt32.toNat_mul, hline, UInt16.toNat_toUInt32, Nat.mod_eq_of_lt (by omega)]
  have haddress : ((y + UInt32.ofNat i) * I.pitch.toUInt32 +
      (x + UInt32.ofNat j) * (I.bpp / 8).toUInt32 + I.framebuffer).toNat =
        I.address x.toNat y.toNat + i * I.pitch.toNat + j * I.bytes := by
    rw [UInt32.toNat_add, UInt32.toNat_add, hrow, hmul,
      Nat.mod_eq_of_lt (show (y.toNat + i) * I.pitch.toNat + (x.toNat + j) * I.bytes < 2 ^ 32 by omega),
      Nat.mod_eq_of_lt (by omega), ← ModeInfo.address_row, ← ModeInfo.address_column, ModeInfo.address]
  rw [setPixelColor, hI, haddress]

/-- Every store ends before the end that `Fits` speaks of. -/
theorem store_le {x y : Nat} (hi : i < height) (hj : j < width) :
    I.address x y + i * I.pitch.toNat + j * I.bytes + 4 ≤ I.address (x + width) (y + height) + 4 := by
  have hrow : i * I.pitch.toNat ≤ height * I.pitch.toNat := Nat.mul_le_mul_right _ hi.le
  have hcolumn : j * I.bytes ≤ width * I.bytes := Nat.mul_le_mul_right _ hj.le
  rw [ModeInfo.address_row, ModeInfo.address_column]
  omega

theorem packed_store (hf : Fits I info.toNat x.toNat y.toNat width height)
    (hi : i < height) (hj : j < width) (w : Nat) :
    ModeInfo.packed
        (writeLE 4 m (I.address x.toNat y.toNat + i * I.pitch.toNat + j * I.bytes) w) info.toNat =
      ModeInfo.packed m info.toNat := by
  apply ModeInfo.packed_congr
  intro k hk
  have hend := store_le (I := I) (x := x.toNat) (y := y.toNat) hi hj
  have hapart := hf.apart
  have hstart : I.framebuffer.toNat ≤ I.address x.toNat y.toNat := Nat.le_add_left _ _
  exact writeLE_outside (by omega)

/-- The inner loop. -/
theorem drawRow_eq (hf : Fits I info.toNat x.toNat y.toNat width height)
    (hI : ModeInfo.packed m info.toNat = I) (hi : i < height) (hn : n ≤ width) :
    drawRow info m x (y + UInt32.ofNat i) n =
        spread m (I.address x.toNat y.toNat + i * I.pitch.toNat) I.bytes 0x00ff00 n ∧
      ModeInfo.packed (drawRow info m x (y + UInt32.ofNat i) n) info.toNat = I := by
  induction n with
  | zero => exact ⟨rfl, hI⟩
  | succ n ih =>
    obtain ⟨heq, hkept⟩ := ih (Nat.le_of_succ_le hn)
    have hstep : drawRow info m x (y + UInt32.ofNat i) (n + 1) =
        setPixelColor info (drawRow info m x (y + UInt32.ofNat i) n) (x + UInt32.ofNat n)
          (y + UInt32.ofNat i) 0x00ff00 := by
      rw [drawRow, List.range_succ, List.foldl_append]
      rfl
    rw [hstep, setPixelColor_eq hf hkept hi hn]
    exact ⟨by rw [heq]; rfl, by rw [packed_store hf hi hn, hkept]⟩

/-- The outer loop. -/
theorem drawRectangle_eq (hf : Fits I info.toNat x.toNat y.toNat width height)
    (hI : ModeInfo.packed m info.toNat = I) (hn : n ≤ height) :
    drawRectangle info m x y width n =
        rows m (I.address x.toNat y.toNat) I.pitch.toNat I.bytes 0x00ff00 width n ∧
      ModeInfo.packed (drawRectangle info m x y width n) info.toNat = I := by
  induction n with
  | zero => exact ⟨rfl, hI⟩
  | succ n ih =>
    obtain ⟨heq, hkept⟩ := ih (Nat.le_of_succ_le hn)
    obtain ⟨hrow, hafter⟩ := drawRow_eq hf hkept hn (Nat.le_refl width)
    have hstep : drawRectangle info m x y width (n + 1) =
        drawRow info (drawRectangle info m x y width n) x (y + UInt32.ofNat n) width := by
      rw [drawRectangle, List.range_succ, List.foldl_append]
      rfl
    rw [hstep]
    exact ⟨by rw [hrow, heq]; rfl, hafter⟩

/-- What the rows hold, pixel by pixel. -/
theorem drawn_rows {info x y : Nat} (hf : Fits I info x y width height) :
    Drawn I m (rows m (I.address x y) I.pitch.toNat I.bytes 0x00ff00 width height) x y width height := by
  have hsplit : (width - 1) * I.bytes + I.bytes = width * I.bytes := by
    rw [← Nat.succ_mul, Nat.succ_eq_add_one, Nat.sub_add_cancel hf.wide]
  have hleast := hf.least
  have hmost := hf.most
  refine ⟨?_, ?_, ?_⟩
  · intro i hi j hj
    have hbyte : ∀ k < I.bytes,
        rows m (I.address x y) I.pitch.toNat I.bytes 0x00ff00 width height
            (I.address (x + j) (y + i) + k) =
          writeLE I.bytes m (I.address (x + j) (y + i)) 0x00ff00 (I.address (x + j) (y + i) + k) := by
      intro k hk
      have hin : (j + 1) * I.bytes ≤ width * I.bytes := Nat.mul_le_mul_right _ hj
      rw [Nat.succ_mul] at hin
      have hline := hf.line
      have hplace : I.address (x + j) (y + i) + k =
          I.address x y + i * I.pitch.toNat + (j * I.bytes + k) := by
        rw [ModeInfo.address_row, ModeInfo.address_column]
        omega
      rw [writeLE_byte hk, hplace, rows_inside hleast hmost hf.wide hi (by omega) (Or.inl (by omega)),
        spreadByte_inside hj hk]
    rw [pixel, readLE_congr hbyte, readLE_writeLE]
  · intro i hi k hk hnext
    have hplace : I.address (x + width) (y + i) + k =
        I.address x y + i * I.pitch.toNat + (width * I.bytes + k) := by
      rw [ModeInfo.address_row, ModeInfo.address_column]
      omega
    rw [hplace, rows_inside hleast hmost hf.wide hi (by omega) hnext, spreadByte_behind hleast hf.wide]
  · intro b hb
    apply rows_outside hleast hmost hf.wide
    intro i hi
    have houtside := hb i hi
    rw [ModeInfo.address_row, ModeInfo.address_row, ModeInfo.address_column] at houtside
    omega

theorem initVesa_eq (m : Memory) {info : UInt64} (p : UInt32) (hinfo : info.toNat + 256 ≤ 2 ^ 64) :
    initVesa m info p = memmoveInto m info.toNat m p.toNat 256 := by
  have hp : p.toUInt64.toNat + (256 : UInt64).toNat ≤ 2 ^ 64 := by
    have hlt := p.toNat_lt
    rw [UInt32.toNat_toUInt64, show (256 : UInt64).toNat = 256 from rfl]
    omega
  rw [initVesa, memmove_eq_memmoveInto m hinfo hp]
  rfl

/-- The copy says of the mode what the block at `p` says. -/
theorem packed_initVesa (m : Memory) {info : UInt64} (p : UInt32)
    (hinfo : info.toNat + 256 ≤ 2 ^ 64) :
    ModeInfo.packed (initVesa m info p) info.toNat = ModeInfo.packed m p.toNat := by
  apply ModeInfo.packed_congr
  intro k hk
  rw [initVesa_eq m p hinfo]
  exact memmoveInto_inside hk

/-- The rectangle is drawn in the mode whose block the firmware has left at `p`: every pixel of
it has the colour, and besides them only the bytes behind its rows change. -/
theorem drawRectangle_drawn (m : Memory) {info : UInt64} {p x y : UInt32} {width height : Nat}
    (hinfo : info.toNat + 256 ≤ 2 ^ 64)
    (hf : Fits (ModeInfo.packed m p.toNat) info.toNat x.toNat y.toNat width height) :
    Drawn (ModeInfo.packed m p.toNat) (initVesa m info p)
      (drawRectangle info (initVesa m info p) x y width height) x.toNat y.toNat width height := by
  have hcopied := packed_initVesa m p hinfo
  rw [(drawRectangle_eq hf hcopied (Nat.le_refl height)).1]
  exact drawn_rows hf

/-- The block of a mode with three bytes for a pixel, at 0x8000. -/
def trueColorBlock : Memory := fun a =>
  if a = 0x8010 then 0xc0 else if a = 0x8011 then 0x03 else if a = 0x8019 then 24
  else if a = 0x802b then 0xfd else 0

theorem drawRectangle_drawn_trueColor :
    Drawn (ModeInfo.packed trueColorBlock 0x8000) (initVesa trueColorBlock 0x300000 0x8000)
      (drawRectangle 0x300000 (initVesa trueColorBlock 0x300000 0x8000) 150 100 100 100)
      150 100 100 100 :=
  drawRectangle_drawn trueColorBlock (p := 0x8000) (by decide)
    ⟨by decide, by decide, by decide, by decide, by decide, by decide⟩

end PaskakasaOS.Kernel.Utils.Vesa
