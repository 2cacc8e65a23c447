import PaskakasaOS.Lib.ByteMemory
import PaskakasaOS.Kernel.Storage.AtaPio

/-!
# From `make install` to the loaded stages

`bootloader/Makefile` puts the boot sector and the two stages at fixed places of
the disk image; `bootloader/bootsector.asm` reads fixed numbers of sectors from
these places. Neither looks at the size of a binary.
-/
namespace PaskakasaOS.Boot.Install

open Lib.ByteMemory
open Kernel.Storage.AtaPio (Disk partitionStart)

/-! ## `bootloader/Makefile` -/

/-- `dd conv=notrunc bs=.. seek=.. count=..`, which without a count copies the whole input. -/
def dd (disk : Disk) (input : List UInt8) (bs seek : Nat) (count : Option Nat) : Disk :=
  writeBytes disk (bs * seek)
    (match count with
    | none => input
    | some blocks => input.take (bs * blocks))

def installBootloader (disk : Disk) (bootsector : List UInt8) : Disk := dd disk bootsector 446 0 (some 1)

def installStage1 (disk : Disk) (stage1 : List UInt8) : Disk := dd disk stage1 512 1 none

def installStage2 (disk : Disk) (stage2 : List UInt8) : Disk := dd disk stage2 512 3 none

def install (disk : Disk) (bootsector stage1 stage2 : List UInt8) : Disk :=
  installStage2 (installStage1 (installBootloader disk bootsector) stage1) stage2

/-! ## `bootloader/bootsector.asm` -/

/-- What the BIOS takes the drive for. -/
structure Geometry where
  heads : Nat
  sectorsPerTrack : Nat

/-- The number of a sector given by cylinder, head and sector, the last counted from 1. -/
def Geometry.lba (g : Geometry) (cylinder head sector : Nat) : Nat :=
  (cylinder * g.heads + head) * g.sectorsPerTrack + (sector - 1)

/-- The BIOS stores `count` sectors from `lba` on at `a`. -/
def load (disk : Disk) (m : Memory) (a lba count : Nat) : Memory :=
  fun b => if a ≤ b ∧ b < a + 512 * count then disk (512 * lba + (b - a)) else m b

/-- `int 0x13` with `ah = 2` and `es = 0`. -/
def int13 (g : Geometry) (disk : Disk) (m : Memory) (al ch cl dh bx : Nat) : Memory :=
  load disk m bx (g.lba ch dh cl) al

/-- The BIOS loads the boot sector itself. -/
def loadBootsector (disk : Disk) (m : Memory) : Memory := load disk m 0x7c00 0 1

/-- The two reads of the boot sector, up to `jmp 0x7e00`. -/
def bootsector (g : Geometry) (disk : Disk) (m : Memory) : Memory :=
  let m := int13 g disk m 2 0 2 0 0x7e00
  int13 g disk m 7 0 4 0 0xd000

/-! ## What is on the disk -/

variable {disk : Disk} {m : Memory} {code stage1 stage2 : List UInt8} {a b i lba count : Nat}

theorem load_inside (h : i < 512 * count) : load disk m a lba count (a + i) = disk (512 * lba + i) := by
  rw [load, if_pos (by omega), Nat.add_sub_cancel_left]

theorem load_outside (h : b < a ∨ a + 512 * count ≤ b) : load disk m a lba count b = m b := by
  apply if_neg
  omega

theorem install_code (hi : i < code.length) (hfit : i < 446) :
    install disk code stage1 stage2 i = code[i] := by
  have htake : i < (code.take (446 * 1)).length := by
    rw [List.length_take]
    omega
  have hcode : writeBytes disk (446 * 0) (code.take (446 * 1)) (0 + i) = (code.take (446 * 1))[i] :=
    writeBytes_inside htake
  rw [Nat.zero_add, List.getElem_take] at hcode
  simp only [install, installStage2, installStage1, installBootloader, dd]
  rw [writeBytes_outside (by omega), writeBytes_outside (by omega)]
  exact hcode

theorem install_stage1 (hi : i < stage1.length) (hfit : i < 1024) :
    install disk code stage1 stage2 (512 + i) = stage1[i] := by
  simp only [install, installStage2, installStage1, dd]
  rw [writeBytes_outside (by omega)]
  exact writeBytes_inside hi

theorem install_stage2 (hi : i < stage2.length) :
    install disk code stage1 stage2 (1536 + i) = stage2[i] :=
  writeBytes_inside hi

/-- The rest of the first sector holds the partition table. -/
theorem install_partitionTable (hl : 446 ≤ b) (hu : b < 512) :
    install disk code stage1 stage2 b = disk b := by
  have htake : (code.take (446 * 1)).length ≤ 446 := by
    rw [List.length_take]
    omega
  simp only [install, installStage2, installStage1, installBootloader, dd]
  rw [writeBytes_outside (by omega), writeBytes_outside (by omega), writeBytes_outside (by omega)]

theorem install_beyond (h1 : 512 + stage1.length ≤ b) (h2 : 1536 + stage2.length ≤ b) :
    install disk code stage1 stage2 b = disk b := by
  have htake : (code.take (446 * 1)).length ≤ 446 := by
    rw [List.length_take]
    omega
  simp only [install, installStage2, installStage1, installBootloader, dd]
  rw [writeBytes_outside (by omega), writeBytes_outside (by omega), writeBytes_outside (by omega)]

/-! ## What is in memory -/

theorem bootsector_stage1 (g : Geometry) (hi : i < 1024) :
    bootsector g disk m (0x7e00 + i) = disk (512 + i) := by
  simp only [bootsector, int13, Geometry.lba, Nat.zero_mul, Nat.zero_add]
  rw [load_outside (by omega), load_inside (by omega)]

theorem bootsector_stage2 (g : Geometry) (hi : i < 3584) :
    bootsector g disk m (0xd000 + i) = disk (1536 + i) := by
  simp only [bootsector, int13, Geometry.lba, Nat.zero_mul, Nat.zero_add]
  rw [load_inside (by omega)]

theorem bootsector_outside (g : Geometry) (h1 : b < 0x7e00 ∨ 0x8200 ≤ b)
    (h2 : b < 0xd000 ∨ 0xde00 ≤ b) : bootsector g disk m b = m b := by
  simp only [bootsector, int13]
  rw [load_outside (by omega), load_outside (by omega)]

/-- The machine runs what was installed, and the installation has left the partition
table and every sector behind the two stages, so also the file system. -/
structure Boots (g : Geometry) (disk : Disk) (m : Memory) (code stage1 stage2 : List UInt8)
    (installed : Disk) : Prop where
  codeLoaded : ∀ i (hi : i < code.length), loadBootsector installed m (0x7c00 + i) = code[i]
  stage1Loaded : ∀ i (hi : i < stage1.length),
    bootsector g installed (loadBootsector installed m) (0x7e00 + i) = stage1[i]
  stage2Loaded : ∀ i (hi : i < stage2.length),
    bootsector g installed (loadBootsector installed m) (0xd000 + i) = stage2[i]
  partitionTable : ∀ b, 446 ≤ b → b < 512 → installed b = disk b
  otherSectors : ∀ b, 512 * 10 ≤ b → installed b = disk b

theorem Boots.volume {g : Geometry} {installed : Disk}
    (h : Boots g disk m code stage1 stage2 installed) :
    ∀ b, 512 * partitionStart.toNat ≤ b → installed b = disk b := by
  intro b hb
  have hstart : 512 * partitionStart.toNat = 0x100000 := rfl
  exact h.otherSectors b (by omega)

/-- Installing and booting are inverse to each other exactly for binaries of these
sizes, whatever the disk and the memory held before. -/
theorem boots_iff (g : Geometry) (code stage1 stage2 : List UInt8) :
    (∀ disk m, Boots g disk m code stage1 stage2 (install disk code stage1 stage2)) ↔
      code.length ≤ 446 ∧ stage1.length ≤ 1024 ∧ stage2.length ≤ 3584 := by
  constructor
  · intro h
    refine ⟨?_, ?_, ?_⟩
    · -- byte 446 of the sector is the partition table's
      by_contra hlong
      have hlen : 446 < code.length := by omega
      have hbyte := (h (fun _ => code[446] + 1) (fun _ => 0)).codeLoaded 446 hlen
      rw [loadBootsector, load_inside (by omega), install_partitionTable (by omega) (by omega)] at hbyte
      exact absurd hbyte (by simp)
    · -- the byte behind the two sectors is not loaded
      by_contra hlong
      have hlen : 1024 < stage1.length := by omega
      have hbyte := (h (fun _ => 0) (fun _ => stage1[1024] + 1)).stage1Loaded 1024 hlen
      rw [bootsector_outside g (by omega) (by omega), loadBootsector, load_outside (by omega)] at hbyte
      exact absurd hbyte (by simp)
    · by_contra hlong
      have hlen : 3584 < stage2.length := by omega
      have hbyte := (h (fun _ => 0) (fun _ => stage2[3584] + 1)).stage2Loaded 3584 hlen
      rw [bootsector_outside g (by omega) (by omega), loadBootsector, load_outside (by omega)] at hbyte
      exact absurd hbyte (by simp)
  · intro h disk m
    obtain ⟨hcode, h1, h2⟩ := h
    refine ⟨fun i hi => ?_, fun i hi => ?_, fun i hi => ?_, fun b hl hu => ?_, fun b hb => ?_⟩
    · rw [loadBootsector, load_inside (by omega), Nat.mul_zero, Nat.zero_add]
      exact install_code hi (by omega)
    · rw [bootsector_stage1 g (by omega)]
      exact install_stage1 hi (by omega)
    · rw [bootsector_stage2 g (by omega)]
      exact install_stage2 hi
    · exact install_partitionTable hl hu
    · exact install_beyond (by omega) (by omega)

end PaskakasaOS.Boot.Install
