import PaskakasaOS.Kernel.Storage.Directory
import PaskakasaOS.Lib.Layout

/-!
# FAT32 volumes

Where a volume keeps its directory, its table and its clusters, and what a file
of the root directory consists of, as the format defines them on the bytes of
the drive. The second part relates the numbers the driver computes to these.
-/
namespace PaskakasaOS.Kernel.Storage.Volume

open Lib.ByteMemory AtaPio Fat32 Directory

/-- The `k`-byte field at offset `o` of the boot sector. -/
def bootField (k : Nat) (disk : Disk) (o : Nat) : Nat := readLE k disk (512 * 0x800 + o)

def bytesPerSector (disk : Disk) : Nat := bootField 2 disk 11
def sectorsPerCluster (disk : Disk) : Nat := bootField 1 disk 13
def reservedSectors (disk : Disk) : Nat := bootField 2 disk 14
def numberOfFats (disk : Disk) : Nat := bootField 1 disk 16
def totalSectors (disk : Disk) : Nat := bootField 4 disk 32
def sectorsPerFat (disk : Disk) : Nat := bootField 4 disk 36
def rootCluster (disk : Disk) : Nat := bootField 4 disk 44

def fatSector (disk : Disk) : Nat := 0x800 + reservedSectors disk

/-- The first sector of cluster `c`. -/
def clusterSector (disk : Disk) (c : Nat) : Nat :=
  fatSector disk + numberOfFats disk * sectorsPerFat disk + (c - 2) * sectorsPerCluster disk

/-- The 32 bits the table stores for cluster `c`. -/
def fatEntry (disk : Disk) (c : Nat) : Nat := readLE 4 disk (512 * fatSector disk + 4 * c)

/-- The top four bits of an entry are reserved. -/
def nextCluster (disk : Disk) (c : Nat) : Nat := fatEntry disk c % 2 ^ 28

/-- The root directory, from its first byte on. -/
def rootBytes (disk : Disk) : Memory :=
  fun b => disk (512 * clusterSector disk (rootCluster disk) + b)

/-- The first cluster of the file with directory entry `e`, from its two halves. -/
def firstCluster (disk : Disk) (e : Nat) : Nat :=
  2 ^ 16 * readLE 2 (rootBytes disk) (32 * e + 20) + readLE 2 (rootBytes disk) (32 * e + 26)

def fileSize (disk : Disk) (e : Nat) : Nat := readLE 4 (rootBytes disk) (32 * e + 28)

def clusterBytes (disk : Disk) (c : Nat) : List UInt8 :=
  (List.range (512 * sectorsPerCluster disk)).map (fun i => disk (512 * clusterSector disk c + i))

def fileBytes (disk : Disk) (chain : List Nat) : List UInt8 :=
  chain.flatMap (clusterBytes disk)

/-- Entry `e + 1` of the root directory, after the long entry `e`, is a file whose
clusters are `chain`. -/
structure FileAt (disk : Disk) (e : Nat) (chain : List Nat) : Prop where
  sectorSize : bytesPerSector disk = 512
  root : rootCluster disk = 2
  clusterSize : 0 < sectorsPerCluster disk
  firstSector : e + 1 < 16
  nonzero : ∀ d ≤ e + 1, rootBytes disk (32 * d) ≠ 0
  longUsed : rootBytes disk (32 * e) ≠ entryUnused
  long : rootBytes disk (32 * e + 11) = entryLfn
  regular : Regular (rootBytes disk) (32 * (e + 1))
  first : chain.head? = some (firstCluster disk (e + 1))
  linked : chain.IsChain (fun c d => nextCluster disk c = d)
  ended : ∀ c ∈ chain.getLast?, 0x0FFFFFF8 ≤ nextCluster disk c
  acyclic : chain.Nodup
  inside : ∀ c ∈ chain, 2 ≤ c ∧ 4 * c < 512 * sectorsPerFat disk ∧
    clusterSector disk c + sectorsPerCluster disk ≤ 0x800 + totalSectors disk
  size : fileSize disk (e + 1) ≤ 512 * sectorsPerCluster disk * chain.length

theorem fileBytes_getElem? {disk : Disk} (hspc : 0 < sectorsPerCluster disk) (chain : List Nat)
    (j : Nat) :
    (fileBytes disk chain)[j]? =
      chain[j / (512 * sectorsPerCluster disk)]?.map (fun c =>
        disk (512 * clusterSector disk c + j % (512 * sectorsPerCluster disk))) := by
  have hw : 0 < 512 * sectorsPerCluster disk := by omega
  have hmod : j % (512 * sectorsPerCluster disk) < 512 * sectorsPerCluster disk := Nat.mod_lt _ hw
  rw [fileBytes, Lib.Layout.getElem?_flatMap_blocks hw (fun c => by simp [clusterBytes])]
  cases chain[j / (512 * sectorsPerCluster disk)]? with
  | none => rfl
  | some c =>
    rw [Option.bind_some, Option.map_some, clusterBytes, List.getElem?_map,
      List.getElem?_range hmod, Option.map_some]

/-! ## What the driver reads -/

variable {disk : Disk} {c o k : Nat}

theorem sectorBuffer_eq {lba : UInt32} (ho : o < 512) :
    sectorBuffer disk lba o = disk (512 * (lba.toNat % 2 ^ 28) + o) := by
  have hbyte : readSector disk (fun _ => 0) 0 lba (0 + o) = _ := readSector_inside ho
  rwa [Nat.zero_add] at hbyte

theorem readLE_sectorBuffer {lba : UInt32} (ho : o + k ≤ 512) :
    readLE k (sectorBuffer disk lba) o = readLE k disk (512 * (lba.toNat % 2 ^ 28) + o) := by
  induction k generalizing o with
  | zero => rfl
  | succ k ih =>
    rw [readLE, readLE, sectorBuffer_eq (by omega), ih (by omega)]
    rfl

theorem readLE_bootBuffer (ho : o + k ≤ 512) :
    readLE k (sectorBuffer disk partitionStart) o = bootField k disk o := by
  have hlba : partitionStart.toNat % 2 ^ 28 = 0x800 := by decide
  rw [readLE_sectorBuffer ho, hlba, bootField]

/-- The block that `init_fat` keeps in `bpb`. -/
def volumeBpb (disk : Disk) : Bpb := Bpb.ofBuffer (sectorBuffer disk partitionStart)

theorem volumeBpb_sectorsPerCluster :
    (volumeBpb disk).sectorsPerCluster.toNat = sectorsPerCluster disk := by
  rw [sectorsPerCluster, ← readLE_bootBuffer (by decide), readLE_one, volumeBpb, Bpb.ofBuffer]

theorem volumeBpb_numberOfFats : (volumeBpb disk).numberOfFats.toNat = numberOfFats disk := by
  rw [numberOfFats, ← readLE_bootBuffer (by decide), readLE_one, volumeBpb, Bpb.ofBuffer]

theorem volumeBpb_reserverdSectors :
    (volumeBpb disk).reserverdSectors.toNat = reservedSectors disk := by
  have hlt : bootField 2 disk 14 < 2 ^ 16 := readLE_lt 2 disk _
  rw [volumeBpb, Bpb.ofBuffer, UInt16.toNat_ofNat', readLE_bootBuffer (by decide),
    Nat.mod_eq_of_lt hlt, reservedSectors]

theorem volumeBpb_sectorsPerFat : (volumeBpb disk).sectorsPerFat.toNat = sectorsPerFat disk := by
  have hlt : bootField 4 disk 36 < 2 ^ 32 := readLE_lt 4 disk _
  rw [volumeBpb, Bpb.ofBuffer, UInt32.toNat_ofNat', readLE_bootBuffer (by decide),
    Nat.mod_eq_of_lt hlt, sectorsPerFat]

theorem reservedSectors_lt (disk : Disk) : reservedSectors disk < 2 ^ 16 := readLE_lt 2 disk _

theorem fatLBA_toNat :
    (partitionStart + (volumeBpb disk).reserverdSectors.toUInt32).toNat = fatSector disk := by
  have hlt := reservedSectors_lt disk
  rw [UInt32.toNat_add, UInt16.toNat_toUInt32, volumeBpb_reserverdSectors, fatSector]
  show (0x800 + reservedSectors disk) % 2 ^ 32 = _
  omega

theorem clusterdataLBA_toNat (hc : 2 ≤ c) (hlt : c < 2 ^ 32) (hlba : clusterSector disk c < 2 ^ 28) :
    (clusterdataLBA (volumeBpb disk) (UInt32.ofNat c)).toNat = clusterSector disk c := by
  have hcluster : (UInt32.ofNat c - 2).toNat = c - 2 := by
    have hc' : (UInt32.ofNat c).toNat = c := by rw [UInt32.toNat_ofNat', Nat.mod_eq_of_lt hlt]
    rw [UInt32.toNat_sub_of_le _ _ (UInt32.le_iff_toNat_le.mpr (by rw [hc']; exact hc)), hc']
    rfl
  rw [clusterSector] at hlba ⊢
  rw [clusterdataLBA, UInt32.toNat_add, UInt32.toNat_add, fatLBA_toNat, UInt32.toNat_mul,
    UInt32.toNat_mul, UInt8.toNat_toUInt32, UInt8.toNat_toUInt32, volumeBpb_numberOfFats,
    volumeBpb_sectorsPerFat, volumeBpb_sectorsPerCluster, hcluster]
  omega

/-- The sector that `process_directory_area` reads is where cluster 2 starts. -/
theorem directoryLBA_toNat (hlba : clusterSector disk 2 < 2 ^ 28) :
    (partitionStart + (volumeBpb disk).reserverdSectors.toUInt32 +
      (volumeBpb disk).sectorsPerFat * (volumeBpb disk).numberOfFats.toUInt32).toNat =
      clusterSector disk 2 := by
  rw [clusterSector] at hlba ⊢
  rw [UInt32.toNat_add, fatLBA_toNat, UInt32.toNat_mul, UInt8.toNat_toUInt32, volumeBpb_numberOfFats,
    volumeBpb_sectorsPerFat, Nat.mul_comm (sectorsPerFat disk)]
  omega

end PaskakasaOS.Kernel.Storage.Volume
