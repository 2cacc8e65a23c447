import PaskakasaOS.Lib.ByteMemory

/-!
# Sector reads over the ATA ports

`kernel/storage/ata_pio.c`: the sector number goes to the drive in four 8-bit
registers, and the drive hands the sector back as 256 words on the data port.
-/
namespace PaskakasaOS.Kernel.Storage.AtaPio

open Lib.ByteMemory

/-- The bytes of the drive, sector after sector. -/
abbrev Disk := Memory

def partitionStart : UInt32 := 0x800

/-- The registers `HEAD`, `LBALOW`, `LBAMID` and `LBAHIGH`. -/
structure Registers where
  head : UInt8
  lbaLow : UInt8
  lbaMid : UInt8
  lbaHigh : UInt8

/-- The `outb` calls of `read_sector` that choose the sector. -/
def selectSector (lba : UInt32) : Registers where
  head := ((0xE0 : UInt32) ||| ((lba >>> 24) &&& 0xF)).toUInt8
  lbaLow := (lba &&& 0xFF).toUInt8
  lbaMid := ((lba >>> 8) &&& 0xFF).toUInt8
  lbaHigh := ((lba >>> 16) &&& 0xFF).toUInt8

/-- The sector the drive reads: with 28-bit addressing, which bit 6 of `HEAD` asks
for, the low four bits of `HEAD` are the top of the sector number. -/
def Registers.sector (r : Registers) : Nat :=
  r.lbaLow.toNat + 2 ^ 8 * r.lbaMid.toNat + 2 ^ 16 * r.lbaHigh.toNat + 2 ^ 24 * (r.head.toNat % 16)

/-- The word that the data port gives for bytes `i` and `i + 1` of a sector. -/
def dataWord (disk : Disk) (sector i : Nat) : UInt16 :=
  UInt16.ofNat (readLE 2 disk (512 * sector + i))

/-- The first `n` rounds of the loop of `read_sector`. -/
def readWords (disk : Disk) (sector : Nat) (m : Memory) (data : Nat) : Nat → Memory
  | 0 => m
  | n + 1 =>
    let i := 2 * n
    let val := dataWord disk sector i
    let m := Function.update (readWords disk sector m data n) (data + i) (val &&& 0xFF).toUInt8
    Function.update m (data + i + 1) ((val &&& 0xFF00) >>> 8).toUInt8

/-- `read_sector`: the 512 bytes of sector `lba` go to `data`. -/
def readSector (disk : Disk) (m : Memory) (data : Nat) (lba : UInt32) : Memory :=
  readWords disk (selectSector lba).sector m data 256

private theorem and_byte_mask (n : Nat) : n &&& 255 = n % 2 ^ 8 :=
  Nat.and_two_pow_sub_one_eq_mod n 8

/-- The registers hold 28 of the 32 bits. -/
theorem selectSector_sector (lba : UInt32) : (selectSector lba).sector = lba.toNat % 2 ^ 28 := by
  have hlow : (selectSector lba).lbaLow.toNat = lba.toNat % 2 ^ 8 := by
    simp [selectSector, and_byte_mask]
  have hmid : (selectSector lba).lbaMid.toNat = lba.toNat / 2 ^ 8 % 2 ^ 8 := by
    simp [selectSector, and_byte_mask, Nat.shiftRight_eq_div_pow]
  have hhigh : (selectSector lba).lbaHigh.toNat = lba.toNat / 2 ^ 16 % 2 ^ 8 := by
    simp [selectSector, and_byte_mask, Nat.shiftRight_eq_div_pow]
  have hhead : (selectSector lba).head.toNat % 2 ^ 4 = lba.toNat / 2 ^ 24 % 2 ^ 4 := by
    have hmask : lba.toNat / 2 ^ 24 &&& 15 = lba.toNat / 2 ^ 24 % 2 ^ 4 :=
      Nat.and_two_pow_sub_one_eq_mod _ 4
    have hhead : (selectSector lba).head.toNat = (0xE0 ||| lba.toNat / 2 ^ 24 % 2 ^ 4) % 2 ^ 8 := by
      simp only [selectSector, UInt32.toNat_toUInt8, UInt32.toNat_or, UInt32.toNat_and,
        UInt32.toNat_shiftRight, Nat.shiftRight_eq_div_pow, UInt32.toNat_ofNat]
      rw [show 24 % 2 ^ 32 % 32 = 24 by decide, show 15 % 2 ^ 32 = 15 by decide, hmask]
    rw [hhead, Nat.mod_mod_of_dvd _ (by decide), Nat.or_mod_two_pow, Nat.mod_mod]
    exact Nat.zero_or _
  rw [Registers.sector, hlow, hmid, hhigh]
  omega

example : (selectSector 0x12345678).sector = 0x2345678 := by decide

theorem dataWord_low (disk : Disk) (sector i : Nat) :
    (dataWord disk sector i &&& 0xFF).toUInt8 = disk (512 * sector + i) := by
  apply UInt8.toNat_inj.mp
  simp [dataWord, readLE, and_byte_mask]

theorem dataWord_high (disk : Disk) (sector i : Nat) :
    ((dataWord disk sector i &&& 0xFF00) >>> 8).toUInt8 = disk (512 * sector + i + 1) := by
  have hlow := (disk (512 * sector + i)).toNat_lt
  have hhigh := (disk (512 * sector + i + 1)).toNat_lt
  apply UInt8.toNat_inj.mp
  simp only [dataWord, readLE, UInt16.toNat_toUInt8, UInt16.toNat_shiftRight, UInt16.toNat_and,
    UInt16.toNat_ofNat, UInt16.toNat_ofNat', Nat.shiftRight_and_distrib]
  rw [show 8 % 2 ^ 16 % 16 = 8 by decide, show (65280 % 2 ^ 16) >>> 8 = 255 by decide, and_byte_mask,
    Nat.shiftRight_eq_div_pow]
  omega

variable {disk : Disk} {m : Memory} {data sector n i b : Nat} {lba : UInt32}

theorem readWords_inside (hi : i < 2 * n) :
    readWords disk sector m data n (data + i) = disk (512 * sector + i) := by
  induction n with
  | zero => omega
  | succ n ih =>
    simp only [readWords, dataWord_low, dataWord_high]
    by_cases hodd : i = 2 * n + 1
    · subst hodd
      exact Function.update_self ..
    · rw [Function.update_of_ne (by omega)]
      by_cases heven : i = 2 * n
      · subst heven
        exact Function.update_self ..
      · rw [Function.update_of_ne (by omega)]
        exact ih (by omega)

theorem readWords_outside (hb : b < data ∨ data + 2 * n ≤ b) :
    readWords disk sector m data n b = m b := by
  induction n with
  | zero => rfl
  | succ n ih =>
    unfold readWords
    rw [Function.update_of_ne (by omega), Function.update_of_ne (by omega)]
    exact ih (by omega)

/-- The byte at `data + i` is byte `i` of the sector, of which only 28 bits of the
number count. -/
theorem readSector_inside (hi : i < 512) :
    readSector disk m data lba (data + i) = disk (512 * (lba.toNat % 2 ^ 28) + i) := by
  rw [readSector, readWords_inside (by omega), selectSector_sector]

theorem readSector_outside (hb : b < data ∨ data + 512 ≤ b) :
    readSector disk m data lba b = m b :=
  readWords_outside (by omega)

end PaskakasaOS.Kernel.Storage.AtaPio
