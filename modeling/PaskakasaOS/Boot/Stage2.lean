import PaskakasaOS.Kernel.Storage.ReadTrace

/-!
# `bootloader/stage2.c`

The loader has its own copy of the FAT reader. `loader_main` looks `BOOT.BIN` up
in the first sector of the root directory and stores one sector of each cluster,
one after the other, from `KERNEL_ADDR` on.
-/
namespace PaskakasaOS.Boot.Stage2

open Lib.ByteMemory Lib.ByteCopy Lib.Runs
open Kernel.Utils.Mem (byteAt memmoveInto strcmp)
open Kernel.Storage.AtaPio Kernel.Storage.ReadTrace
open Kernel.Storage.Fat32 (Bpb sectorBuffer entryUnused entryLfn entryDir firstClusterOf visited)

def kernelAddr : Nat := 0xFFFFFFFF80000000

/-- The loader's `memmove`, with the pointer it returns. -/
def memmove (m : Memory) (dstptr srcptr size : UInt64) : UInt64 × Memory :=
  let dst := byteAt dstptr
  let src := byteAt srcptr
  if dstptr < srcptr then (dstptr, copyUp m dst src size.toNat)
  else (dstptr, copyDown dst src size.toNat m)

/-! ## The directory -/

/-- `file_t`, which has no long name here. -/
structure File where
  shortName : Memory
  firstCluster : UInt32
  size : Memory

/-- `files[5] = {0}` -/
def zeroFiles : Fin 5 → File := fun _ => ⟨fun _ => 0, 0, fun _ => 0⟩

/-- The three fields stored for the 8.3 entry at `i`. -/
def recordEntry (file : File) (buffer : Memory) (i : Nat) : File where
  firstCluster := firstClusterOf buffer i
  size := memmoveInto file.size 0 buffer (i + 28) 4
  shortName := memmoveInto file.shortName 0 buffer i 11

/-- The loop variables of `process_directory_area`. -/
structure Scan where
  files : Fin 5 → File
  fileIndex : Nat
  foundfile : Bool

/-- The branch that fills slot `fileIndex`. -/
def Scan.store (s : Scan) (hindex : s.fileIndex < 5) (buffer : Memory) (i : Nat) : Scan where
  files := Function.update s.files ⟨s.fileIndex, hindex⟩
    (recordEntry (s.files ⟨s.fileIndex, hindex⟩) buffer i)
  fileIndex := s.fileIndex + 1
  foundfile := false

/-- The body of the loop after the end test; `none` is a store past the table. A long
entry only announces the short one. -/
def processEntry (buffer : Memory) (s : Scan) (i : Nat) : Option Scan :=
  if buffer i = entryUnused then some s
  else if buffer (i + 11) = entryLfn then some { s with foundfile := true }
  else if buffer (i + 11) = entryDir then some s
  else if s.foundfile then
    if hindex : s.fileIndex < 5 then some (s.store hindex buffer i) else none
  else some s

def processDirectoryArea (disk : Disk) (bpb : Bpb) (files : Fin 5 → File) :
    Option (Fin 5 → File) :=
  let buffer := sectorBuffer disk (partitionStart + bpb.reserverdSectors.toUInt32 +
    bpb.sectorsPerFat * bpb.numberOfFats.toUInt32)
  (run (processEntry buffer) ⟨files, 0, false⟩ (visited buffer)).map Scan.files

/-- `"BOOT    BIN"` -/
def bootName : Memory := fun n => [66, 79, 79, 84, 32, 32, 32, 32, 66, 73, 78].getD n 0

/-- The loop over the table; `cluster` is an `int`, and a later match replaces an earlier one. -/
def findCluster (files : Fin 5 → File) : Int32 :=
  (List.finRange 5).foldl (fun cluster i =>
    if strcmp bootName (files i).shortName 11 = 0 then (files i).firstCluster.toInt32 else cluster) 0

/-! ## Sectors -/

/-- The first `n` rounds of the loop of `read_data`. Each byte goes to the physical
address of its virtual one. -/
def storeWords (disk : Disk) (sector : Nat) (phys : Nat → Nat) (m : Memory) (data : Nat) :
    Nat → Memory
  | 0 => m
  | n + 1 =>
    let i := 2 * n
    let val := dataWord disk sector i
    let m := Function.update (storeWords disk sector phys m data n) (phys (data + i))
      (val &&& 0xFF).toUInt8
    Function.update m (phys (data + i + 1)) ((val &&& 0xFF00) >>> 8).toUInt8

/-- `read_data`, which selects the sector as `read_sector` does. -/
def readData (disk : Disk) (phys : Nat → Nat) (m : Memory) (data : Nat) (lba : UInt32) : Memory :=
  storeWords disk (selectSector lba).sector phys m data 256

/-! ## Following the chain -/

/-- `read_nextcluster`; `none` is a read past the 128 entries of `fat`. The counter
`clusters` is never read. -/
def readNextcluster (fattable : Memory) (cluster : UInt32) : Option UInt32 :=
  if cluster.toNat < 128 then
    let next := UInt32.ofNat (readLE 4 fattable (4 * cluster.toNat))
    some (if next = 0xfffffff then 0 else next)
  else none

/-- The sector of the first cluster, whose number is an `int`. -/
def firstClusterLBA (bpb : Bpb) (cluster : Int32) : UInt32 :=
  partitionStart + bpb.reserverdSectors.toUInt32 +
    (bpb.numberOfFats.toUInt32 * bpb.sectorsPerFat) +
    ((cluster - 2) * bpb.sectorsPerCluster.toUInt32.toInt32).toUInt32

def clusterdataLBA (bpb : Bpb) (next : UInt32) : UInt32 :=
  partitionStart + bpb.reserverdSectors.toUInt32 +
    (bpb.numberOfFats.toUInt32 * bpb.sectorsPerFat) + (next - 2) * bpb.sectorsPerCluster.toUInt32

/-- The data reads of a run, and the physical memory it leaves. -/
structure Loading extends Reads where
  mem : Memory

/-- The `while (1)` of `loader_main` with at most `fuel` lookups. The table is on the
loader's own stack, at `fat` in the memory the sectors are stored to. -/
def loadClusters (disk : Disk) (bpb : Bpb) (phys : Nat → Nat) (fat : Nat) :
    Nat → Memory → Nat → UInt32 → Loading
  | 0, m, _, _ => ⟨⟨[], .running⟩, m⟩
  | fuel + 1, m, memIndex, next =>
    match readNextcluster (fun b => m (fat + b)) next with
    | none => ⟨⟨[], .undefined⟩, m⟩
    | some next =>
      if next = 0 then ⟨⟨[], .ended⟩, m⟩
      else if memIndex * 0x200 < 2 ^ 31 then
        let lba := clusterdataLBA bpb next
        let m := readData disk phys m (kernelAddr + memIndex * 0x200) lba
        let rest := loadClusters disk bpb phys fat fuel m (memIndex + 1) next
        ⟨⟨⟨lba, memIndex * 0x200⟩ :: rest.sectors, rest.ending⟩, rest.mem⟩
      else ⟨⟨[], .undefined⟩, m⟩

/-- `loader_main` after the lookup and up to the jump into the kernel. -/
def loadFile (disk : Disk) (bpb : Bpb) (phys : Nat → Nat) (fat : Nat) (m : Memory) (fuel : Nat)
    (cluster : Int32) : Loading :=
  let m := readData disk id m fat (partitionStart + bpb.reserverdSectors.toUInt32)
  let lba := firstClusterLBA bpb cluster
  let m := readData disk phys m kernelAddr lba
  let rest := loadClusters disk bpb phys fat fuel m 1 cluster.toUInt32
  ⟨⟨⟨lba, 0⟩ :: rest.sectors, rest.ending⟩, rest.mem⟩

/-- `loader_main` under the tables of `map_kernel`, which send a virtual address to `phys`
of it; the loader's own data they map to itself. -/
def loaderMain (disk : Disk) (phys : Nat → Nat) (fat : Nat) (m : Memory) (fuel : Nat) :
    Option Loading :=
  let bpb := Bpb.ofBuffer (sectorBuffer disk partitionStart)
  (processDirectoryArea disk bpb zeroFiles).map (fun files =>
    loadFile disk bpb phys fat m fuel (findCluster files))

/-! ## What a sector read stores -/

variable {disk : Disk} {phys : Nat → Nat} {m : Memory} {data sector n b : Nat} {lba : UInt32}

theorem storeWords_outside (hb : ∀ j < 2 * n, phys (data + j) ≠ b) :
    storeWords disk sector phys m data n b = m b := by
  induction n with
  | zero => rfl
  | succ n ih =>
    have hhigh : phys (data + 2 * n + 1) ≠ b := hb (2 * n + 1) (by omega)
    have hlow : phys (data + 2 * n) ≠ b := hb (2 * n) (by omega)
    simp only [storeWords]
    rw [Function.update_of_ne (Ne.symm hhigh), Function.update_of_ne (Ne.symm hlow)]
    exact ih fun j hj => hb j (by omega)

theorem readData_outside (hb : ∀ j < 512, phys (data + j) ≠ b) :
    readData disk phys m data lba b = m b :=
  storeWords_outside hb

/-- Where addresses are physical, the two drivers store the same bytes. -/
theorem readData_id (disk : Disk) (m : Memory) (data : Nat) (lba : UInt32) :
    readData disk id m data lba = readSector disk m data lba := by
  have hwords : ∀ n, storeWords disk (selectSector lba).sector id m data n =
      readWords disk (selectSector lba).sector m data n := by
    intro n
    induction n with
    | zero => rfl
    | succ n ih =>
      unfold storeWords readWords
      rw [ih]
      rfl
  exact hwords 256

/-! ## A round of the loop -/

variable {bpb : Bpb} {fat fuel memIndex : Nat} {next cluster : UInt32}

theorem loadClusters_next (hnext : readNextcluster (fun b => m (fat + b)) next = some cluster)
    (hcluster : cluster ≠ 0) (hindex : memIndex * 0x200 < 2 ^ 31) :
    (loadClusters disk bpb phys fat (fuel + 1) m memIndex next).sectors =
      ⟨clusterdataLBA bpb cluster, memIndex * 0x200⟩ ::
        (loadClusters disk bpb phys fat fuel (readData disk phys m (kernelAddr + memIndex * 0x200)
          (clusterdataLBA bpb cluster)) (memIndex + 1) cluster).sectors := by
  rw [loadClusters, hnext]
  simp only [if_neg hcluster, if_pos hindex]

/-- A round reads nothing, or the sector of the next cluster before the remaining rounds. -/
theorem loadClusters_cases (disk : Disk) (bpb : Bpb) (phys : Nat → Nat) (fat fuel : Nat) (m : Memory)
    (memIndex : Nat) (next : UInt32) :
    (loadClusters disk bpb phys fat (fuel + 1) m memIndex next).sectors = [] ∨
    ∃ cluster, readNextcluster (fun b => m (fat + b)) next = some cluster ∧ cluster ≠ 0 ∧
      (loadClusters disk bpb phys fat (fuel + 1) m memIndex next).sectors =
        ⟨clusterdataLBA bpb cluster, memIndex * 0x200⟩ ::
          (loadClusters disk bpb phys fat fuel (readData disk phys m (kernelAddr + memIndex * 0x200)
            (clusterdataLBA bpb cluster)) (memIndex + 1) cluster).sectors := by
  cases hnext : readNextcluster (fun b => m (fat + b)) next with
  | none =>
    left
    rw [loadClusters, hnext]
  | some cluster =>
    by_cases hend : cluster = 0
    · left
      rw [loadClusters, hnext]
      simp only [if_pos hend]
    by_cases hindex : memIndex * 0x200 < 2 ^ 31
    · exact Or.inr ⟨cluster, rfl, hend, loadClusters_next hnext hend hindex⟩
    · left
      rw [loadClusters, hnext]
      simp only [if_neg hend, if_neg hindex]

end PaskakasaOS.Boot.Stage2
