import PaskakasaOS.Kernel.Storage.Fat32

/-!
# The sector reads of `read_file`

The data sectors that a call reads, in order, with the place each has relative to
the destination, and the way the sequence stops. Performing the reads is what
`read_file` does to the memory.
-/
namespace PaskakasaOS.Kernel.Storage.ReadTrace

open Lib.ByteMemory Utils.Mem AtaPio Fat32

/-- A data sector and its place relative to the destination. -/
structure SectorRead where
  lba : UInt32
  offset : Nat
  deriving DecidableEq

inductive Ending where
  | notFound
  | ended
  | undefined
  | running
  deriving DecidableEq

structure Reads where
  sectors : List SectorRead
  ending : Ending
  deriving DecidableEq

/-- The loop of `read_file` with at most `fuel` lookups. -/
def clusterReads (bpb : Bpb) (fat : Memory) : Nat → Nat → UInt32 → Reads
  | 0, _, _ => ⟨[], .running⟩
  | fuel + 1, memIndex, next =>
    match readNextcluster fat next with
    | none => ⟨[], .undefined⟩
    | some next =>
      if next = 0 then ⟨[], .ended⟩
      else if memIndex * 0x200 < 2 ^ 31 then
        let rest := clusterReads bpb fat fuel (memIndex + 1) next
        ⟨⟨clusterdataLBA bpb next, memIndex * 0x200⟩ :: rest.sectors, rest.ending⟩
      else ⟨[], .undefined⟩

def fileReads (disk : Disk) (s : Fat) (path : Memory) (fuel : Nat) : Reads :=
  let cluster := findCluster s.files path
  if cluster = 0 then ⟨[], .notFound⟩
  else
    let fat := sectorBuffer disk (partitionStart + s.bpb.reserverdSectors.toUInt32)
    let rest := clusterReads s.bpb fat fuel 1 cluster
    ⟨⟨clusterdataLBA s.bpb cluster, 0⟩ :: rest.sectors, rest.ending⟩

/-- The sectors go to their places at `address`, one after the other. -/
def perform (disk : Disk) (address : Nat) (m : Memory) (sectors : List SectorRead) : Memory :=
  sectors.foldl (fun m r => readSector disk m (address + r.offset) r.lba) m

/-- The outcome of a call that performs the reads and stops as they do. -/
def Reads.outcome (t : Reads) (disk : Disk) (address : Nat) (m : Memory) : Outcome :=
  match t.ending with
  | .notFound => .returns 1 (perform disk address m t.sectors)
  | .ended => .fallsOff (perform disk address m t.sectors)
  | .undefined => .undefined
  | .running => .running

theorem readClusters_eq_reads (disk : Disk) (bpb : Bpb) (fat : Memory) (address fuel : Nat)
    (m : Memory) (memIndex : Nat) (next : UInt32) :
    readClusters disk bpb fat address fuel m memIndex next =
      (clusterReads bpb fat fuel memIndex next).outcome disk address m := by
  induction fuel generalizing m memIndex next with
  | zero => rfl
  | succ fuel ih =>
    rw [readClusters, clusterReads]
    cases readNextcluster fat next with
    | none => rfl
    | some cluster =>
      by_cases hend : cluster = 0
      · simp only [if_pos hend]
        rfl
      by_cases hindex : memIndex * 0x200 < 2 ^ 31
      · simp only [if_neg hend, if_pos hindex, ih]
        rfl
      · simp only [if_neg hend, if_neg hindex]
        rfl

/-- A call of `read_file` performs its reads. -/
theorem readFile_eq_reads (disk : Disk) (s : Fat) (path : Memory) (address : Nat) (m : Memory)
    (fuel : Nat) :
    readFile disk s path address m fuel = (fileReads disk s path fuel).outcome disk address m := by
  unfold readFile fileReads
  by_cases hfound : findCluster s.files path = 0
  · simp only [if_pos hfound]
    rfl
  · simp only [if_neg hfound, readClusters_eq_reads]
    rfl

end PaskakasaOS.Kernel.Storage.ReadTrace
