import Mathlib.Data.List.Range
import PaskakasaOS.Kernel.Storage.AtaPio
import PaskakasaOS.Kernel.Utils.Mem
import PaskakasaOS.Lib.Runs

/-!
# `kernel/storage/fat32.c`

`init_fat` copies the BIOS parameter block and records the files of one
directory sector; `read_file` looks a name up among them and follows the
cluster chain through one sector of the file allocation table.
-/
namespace PaskakasaOS.Kernel.Storage.Fat32

open Lib.ByteMemory Lib.Runs Utils.Mem AtaPio

def entryUnused : UInt8 := 0xe5
def entryLfn : UInt8 := 0x0f
def entryDir : UInt8 := 0x10

/-- The fields of the packed `bpb_t` that the kernel reads. -/
structure Bpb where
  sectorsPerCluster : UInt8
  reserverdSectors : UInt16
  numberOfFats : UInt8
  sectorsPerFat : UInt32

def Bpb.ofBuffer (buffer : Memory) : Bpb where
  sectorsPerCluster := buffer 13
  reserverdSectors := UInt16.ofNat (readLE 2 buffer 14)
  numberOfFats := buffer 16
  sectorsPerFat := UInt32.ofNat (readLE 4 buffer 36)

/-- `file_t`, with its character arrays as memories of their own. -/
structure File where
  name : Memory
  shortName : Memory
  firstCluster : UInt32
  size : Memory

/-- The globals that `init_fat` fills and `read_file` reads. -/
structure Fat where
  bpb : Bpb
  files : Fin 5 → File

/-- What `read_sector` leaves in a 512-byte object of the kernel's own. -/
def sectorBuffer (disk : Disk) (lba : UInt32) : Memory :=
  readSector disk (fun _ => 0) 0 lba

/-! ## The directory -/

/-- `read_filename_from_lfn`, the long entry standing at `i` in the buffer. -/
def readFilenameFromLfn (file : File) (buffer : Memory) (i : Nat) : File :=
  let name := memmoveInto file.name 0 buffer (i + 1) 10
  let name := memmoveInto name 10 buffer (i + 14) 12
  { file with name := memmoveInto name 22 buffer (i + 28) 4 }

/-- The cluster number from an 8.3 entry: `&` binds before `|`. -/
def firstClusterOf (buffer : Memory) (i : Nat) : UInt32 :=
  let clusterHighBits := UInt32.ofNat (readLE 2 buffer (i + 20))
  let clusterLowBits := UInt32.ofNat (readLE 2 buffer (i + 26))
  clusterLowBits ||| ((clusterHighBits <<< 16) &&& 0x00FF)

/-- The three fields stored for the 8.3 entry at `i`. -/
def recordEntry (file : File) (buffer : Memory) (i : Nat) : File :=
  { file with
    firstCluster := firstClusterOf buffer i
    size := memmoveInto file.size 0 buffer (i + 28) 4
    shortName := memmoveInto file.shortName 0 buffer i 11 }

/-- The loop variables of `process_directory_area`. -/
structure Scan where
  files : Fin 5 → File
  fileIndex : Nat
  foundfile : Bool

/-- The branch that fills slot `fileIndex`. -/
def Scan.store (s : Scan) (hindex : s.fileIndex < 5) (buffer : Memory) (i : Nat) : Scan where
  files := Function.update s.files ⟨s.fileIndex, hindex⟩
    (recordEntry (s.files ⟨s.fileIndex, hindex⟩) buffer i)
  fileIndex := s.fileIndex + 1
  foundfile := false

/-- The body of the loop after the end test; `none` is a store past the table. -/
def processEntry (buffer : Memory) (s : Scan) (i : Nat) : Option Scan :=
  if buffer i = entryUnused then some s
  else if buffer (i + 11) = entryLfn then
    some { s with
      files := Function.update s.files 0 (readFilenameFromLfn (s.files 0) buffer i)
      foundfile := true }
  else if buffer (i + 11) = entryDir then some s
  else if s.foundfile then
    if hindex : s.fileIndex < 5 then some (s.store hindex buffer i) else none
  else some s

/-- The offsets the loop visits: it breaks at the first entry that starts with 0. -/
def visited (buffer : Memory) : List Nat :=
  (List.range' 0 16 32).takeWhile (fun i => buffer i ≠ 0)

def processDirectoryArea (disk : Disk) (bpb : Bpb) (files : Fin 5 → File) :
    Option (Fin 5 → File) :=
  let buffer := sectorBuffer disk (partitionStart + bpb.reserverdSectors.toUInt32 +
    bpb.sectorsPerFat * bpb.numberOfFats.toUInt32)
  (run (processEntry buffer) ⟨files, 0, false⟩ (visited buffer)).map Scan.files

def initFat (disk : Disk) (files : Fin 5 → File) : Option Fat :=
  let bpb := Bpb.ofBuffer (sectorBuffer disk partitionStart)
  (processDirectoryArea disk bpb files).map (fun files => ⟨bpb, files⟩)

/-- `files[5] = {0}` -/
def zeroFiles : Fin 5 → File := fun _ => ⟨fun _ => 0, fun _ => 0, 0, fun _ => 0⟩

/-! ## Reading a file -/

/-- `read_nextcluster`; `none` is a read past the 128 entries of the local table. -/
def readNextcluster (fattable : Memory) (cluster : UInt32) : Option UInt32 :=
  if cluster.toNat < 128 then
    let next := UInt32.ofNat (readLE 4 fattable (4 * cluster.toNat))
    some (if next = 0xfffffff then 0 else next)
  else none

def clusterdataLBA (bpb : Bpb) (cluster : UInt32) : UInt32 :=
  partitionStart + bpb.reserverdSectors.toUInt32 + bpb.numberOfFats.toUInt32 * bpb.sectorsPerFat +
    (cluster - 2) * bpb.sectorsPerCluster.toUInt32

/-- How a call of `read_file` goes: it returns a value, it reaches its closing brace,
where no value is returned, it does something the language leaves undefined, or it is
still in its loop when the fuel is spent. -/
inductive Outcome where
  | returns (value : UInt8) (m : Memory)
  | fallsOff (m : Memory)
  | undefined
  | running

/-- The `while (1)` of `read_file`; `memIndex*0x200` is an `int`. -/
def readClusters (disk : Disk) (bpb : Bpb) (fat : Memory) (address : Nat) :
    Nat → Memory → Nat → UInt32 → Outcome
  | 0, _, _, _ => .running
  | fuel + 1, m, memIndex, next =>
    match readNextcluster fat next with
    | none => .undefined
    | some next =>
      if next = 0 then .fallsOff m
      else if memIndex * 0x200 < 2 ^ 31 then
        let dst := address + memIndex * 0x200
        let m := readSector disk m dst (clusterdataLBA bpb next)
        readClusters disk bpb fat address fuel m (memIndex + 1) next
      else .undefined

/-- The first loop of `read_file`: a later match replaces an earlier one. -/
def findCluster (files : Fin 5 → File) (path : Memory) : UInt32 :=
  (List.finRange 5).foldl (fun cluster i =>
    if strcmp (files i).shortName path 11 = 0 then (files i).firstCluster else cluster) 0

def readFile (disk : Disk) (s : Fat) (path : Memory) (address : Nat) (m : Memory) (fuel : Nat) :
    Outcome :=
  let cluster := findCluster s.files path
  if cluster = 0 then .returns 1 m
  else
    let fat := sectorBuffer disk (partitionStart + s.bpb.reserverdSectors.toUInt32)
    let m := readSector disk m address (clusterdataLBA s.bpb cluster)
    readClusters disk s.bpb fat address fuel m 1 cluster

end PaskakasaOS.Kernel.Storage.Fat32
