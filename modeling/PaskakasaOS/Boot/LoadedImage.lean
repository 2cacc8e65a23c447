import PaskakasaOS.Boot.LoaderPlacement
import PaskakasaOS.Kernel.Storage.FileReads

/-!
# The kernel that `loader_main` jumps into

Below the loader's stack its reads are those of `read_file` at physical address 0.
The tables of `map_kernel` are still in place when the loop ends, and through them the
bytes of `BOOT.BIN` stand from `KERNEL_ADDR` on.
-/
namespace PaskakasaOS.Boot.LoadedImage

open Lib.ByteMemory Stage2 LoaderAgreement LoaderPlacement MapKernel
open Kernel.Memory.Vmm (entry physicalAddress)
open Kernel.Memory.VmmTree (slot)
open Kernel.Memory.InitPaging (physicalAddress_eq_slots)
open Kernel.Storage.AtaPio Kernel.Storage.ReadTrace Kernel.Storage.Volume
open Kernel.Storage.Fat32 (Bpb Fat initFat)
open Kernel.Storage.ReadFile
open Kernel.Storage.FileReads

variable {disk : Disk} {bpb : Bpb} {phys : Nat → Nat} {a e n k fat fuel memIndex b : Nat}
  {m m' fattable path : Memory} {next : UInt32} {s : Fat} {chain : List Nat}

/-! ## The loader's reads as those of `read_file` -/

/-- The bytes that a read stores are those `read_file` would store at address 0. -/
def Direct (phys : Nat → Nat) (r : SectorRead) : Prop :=
  ∀ j < 512, phys (kernelAddr + r.offset + j) = r.offset + j

theorem storeWords_direct {data sector : Nat} (h : ∀ j < 2 * n, phys (data + j) = a + j) :
    storeWords disk sector phys m data n = readWords disk sector m a n := by
  induction n with
  | zero => rfl
  | succ n ih =>
    have hlow : phys (data + 2 * n) = a + 2 * n := h (2 * n) (by omega)
    have hhigh : phys (data + 2 * n + 1) = a + 2 * n + 1 := h (2 * n + 1) (by omega)
    unfold storeWords readWords
    simp only [hlow, hhigh, ih fun j hj => h j (by omega)]

theorem readData_direct {data : Nat} (lba : UInt32) (h : ∀ j < 512, phys (data + j) = a + j) :
    readData disk phys m data lba = readSector disk m a lba :=
  storeWords_direct h

/-- Between the two copies of the code the sector number is the same. -/
theorem clusterdataLBA_eq (bpb : Bpb) (cluster : UInt32) :
    clusterdataLBA bpb cluster = Kernel.Storage.Fat32.clusterdataLBA bpb cluster := rfl

/-- As long as the sectors of the chain stay clear of the table, the loop makes the reads of
`read_file` and leaves the memory that these leave. -/
theorem loadClusters_eq_reads (disk : Disk) (hfat : Intact m fat fattable)
    (hreads : ∀ r ∈ (clusterReads bpb fattable fuel memIndex next).sectors,
      Clear phys fat r ∧ Direct phys r) :
    loadClusters disk bpb phys fat fuel m memIndex next =
      ⟨clusterReads bpb fattable fuel memIndex next,
        perform disk 0 m (clusterReads bpb fattable fuel memIndex next).sectors⟩ := by
  induction fuel generalizing m memIndex next with
  | zero => rfl
  | succ fuel ih =>
    have hlookup := (hfat.readNextcluster next).trans (LoaderAgreement.readNextcluster_eq next)
    unfold clusterReads at hreads ⊢
    unfold loadClusters
    rw [hlookup]
    cases hnext : Kernel.Storage.Fat32.readNextcluster fattable next with
    | none => rfl
    | some cluster =>
      simp only [hnext] at hreads ⊢
      by_cases hend : cluster = 0
      · simp only [if_pos hend]
        rfl
      by_cases hindex : memIndex * 0x200 < 2 ^ 31
      · simp only [if_neg hend, if_pos hindex] at hreads ⊢
        obtain ⟨hclear, hdirect⟩ := hreads _ List.mem_cons_self
        have hrest := ih (hfat.readData disk hclear) fun r hr => hreads r (List.mem_cons_of_mem _ hr)
        simp only at hrest
        have hdata : readData disk phys m (kernelAddr + memIndex * 0x200)
            (Kernel.Storage.Fat32.clusterdataLBA bpb cluster) =
            readSector disk m (0 + memIndex * 0x200)
              (Kernel.Storage.Fat32.clusterdataLBA bpb cluster) := by
          rw [Nat.zero_add]
          exact readData_direct _ hdirect
        rw [clusterdataLBA_eq, hrest, hdata]
        rfl
      · simp only [if_neg hend, if_neg hindex]
        rfl

theorem loadFile_eq_reads {files : Fin 5 → Kernel.Storage.Fat32.File} {loaded : Fin 5 → File}
    (hsame : SameFiles files loaded)
    (hfound : Kernel.Storage.Fat32.findCluster files bootName ≠ 0)
    (hreads : ∀ r ∈ (fileReads disk ⟨bpb, files⟩ bootName fuel).sectors,
      Clear phys fat r ∧ Direct phys r) :
    loadFile disk bpb phys fat m fuel (findCluster loaded) =
      ⟨fileReads disk ⟨bpb, files⟩ bootName fuel,
        perform disk 0 (readSector disk m fat (partitionStart + bpb.reserverdSectors.toUInt32))
          (fileReads disk ⟨bpb, files⟩ bootName fuel).sectors⟩ := by
  have hcluster := findCluster_agrees hsame
  rw [← hcluster] at hfound
  simp only [fileReads, ← hcluster, if_neg hfound] at hreads ⊢
  obtain ⟨hclear, hdirect⟩ := hreads _ List.mem_cons_self
  have hstored : Intact (readData disk id m fat (partitionStart + bpb.reserverdSectors.toUInt32)) fat
      (Kernel.Storage.Fat32.sectorBuffer disk (partitionStart + bpb.reserverdSectors.toUInt32)) :=
    intact_readData disk m fat _
  have hloop := loadClusters_eq_reads disk (hstored.readData disk hclear) fun r hr =>
    hreads r (List.mem_cons_of_mem _ hr)
  simp only [Nat.add_zero] at hloop
  have hdata : ∀ m lba, readData disk phys m kernelAddr lba = readSector disk m (0 + 0) lba :=
    fun m lba => readData_direct lba hdirect
  simp only [loadFile, firstClusterLBA_eq]
  rw [hloop, hdata, readData_id]
  rfl

theorem loaderMain_eq_reads (hinit : initFat disk Kernel.Storage.Fat32.zeroFiles = some s)
    (hfound : Kernel.Storage.Fat32.findCluster s.files bootName ≠ 0)
    (hreads : ∀ r ∈ (fileReads disk s bootName fuel).sectors, Clear phys fat r ∧ Direct phys r) :
    loaderMain disk phys fat m fuel =
      some ⟨fileReads disk s bootName fuel,
        perform disk 0 (readSector disk m fat (partitionStart + s.bpb.reserverdSectors.toUInt32))
          (fileReads disk s bootName fuel).sectors⟩ := by
  simp only [initFat, Option.map_eq_some_iff] at hinit
  obtain ⟨files, hfiles, rfl⟩ := hinit
  obtain ⟨loaded, hloaded, hsame⟩ := processDirectoryArea_agrees hfiles
  rw [loaderMain, hloaded, Option.map_some, loadFile_eq_reads hsame hfound hreads]

/-! ## The tables during the reads -/

theorem levels_congr {T : BootTables}
    (hsame : ∀ f ∈ T.all, ∀ b, 0x1000 * f ≤ b → b < 0x1000 * f + 0x1000 → m' b = m b)
    (h : Levels (slot m) T) : Levels (slot m') T := by
  have hslot : ∀ f ∈ T.all, ∀ j, slot m' f j = slot m f j := by
    intro f hf j
    have hentry : entry m' (0x1000 * f) j = entry m (0x1000 * f) j := by
      refine readLE_congr fun i hi => ?_
      exact hsame f hf _ (by omega) (by omega)
    rw [slot, slot, hentry]
  simp only [BootTables.all, List.mem_cons, List.not_mem_nil, or_false] at hslot
  constructor
  all_goals
    intro j
    rw [hslot _ (by simp)]
  · exact h.pml4 j
  · exact h.pud j
  · exact h.pmd j
  · exact h.pt j
  · exact h.pudlow j
  · exact h.pmdlow j
  · exact h.ptlow j

/-- A memory in which the tables of `map_kernel` stand untouched translates as they do. -/
theorem physicalAddress_kept {T : BootTables} (boot : Memory)
    (hsame : ∀ f ∈ T.all, ∀ b, 0x1000 * f ≤ b → b < 0x1000 * f + 0x1000 → m b = mapKernel T boot b)
    (v : Nat) :
    physicalAddress m (0x1000 * T.pml4) v = physicalAddress (mapKernel T boot) (0x1000 * T.pml4) v := by
  have hlevels := levels_mapKernel T boot
  rw [physicalAddress_eq_slots, physicalAddress_eq_slots, (levels_congr hsame hlevels).follow,
    hlevels.follow]

/-! ## The image -/

/-- The byte that the CPU reads at `v`. -/
def virtualByte (m : Memory) (pml4 v : Nat) : Option UInt8 := (physicalAddress m pml4 v).map m

/-- What `loader_main` leaves behind when it jumps to `KERNEL_ADDR`. -/
structure Loaded (R : Residents) (disk : Disk) (e : Nat) (chain : List Nat) (boot m : Memory) :
    Prop where
  sectors : ∀ q d, chain[q]? = some d → ∀ i < 512,
    virtualByte m (0x1000 * R.tables.pml4) (kernelAddr + (q * 0x200 + i)) =
      some (disk (512 * clusterSector disk d + i))
  image : sectorsPerCluster disk = 1 ∨ fileSize disk (e + 1) ≤ 512 →
    ∀ j < fileSize disk (e + 1),
      virtualByte m (0x1000 * R.tables.pml4) (kernelAddr + j) = (fileBytes disk chain)[j]?
  tables : ∀ v, physicalAddress m (0x1000 * R.tables.pml4) v = R.translate boot v
  rest : ∀ b, 512 * chain.length ≤ b → b < R.stackLow ∨ 0x5000 ≤ b ∧ b < 0xd000 →
    m b = mapKernel R.tables boot b

/-- Over a chain that ends below the stack, the loop ends with the sectors in place, and it
has stored nothing else but the copy of the table. -/
theorem loaderMain_run (R : Residents) (boot m : Memory)
    (hphys : ∀ v p, R.translate boot v = some p → phys v = p)
    (hfile : FileAt disk e chain) (hexp : Expected disk e chain)
    (hname : ∀ n < 11, bootName n = rootBytes disk (32 * (e + 1) + n))
    (hinit : initFat disk Kernel.Storage.Fat32.zeroFiles = some s)
    (hroom : 512 * chain.length ≤ R.stackLow) :
    ∃ run, (∀ fuel, chain.length ≤ fuel → loaderMain disk phys R.fat m fuel = some run) ∧
      run.ending = .ended ∧ HasFirstSectors disk chain 0 run.mem ∧
      ∀ b, 512 * chain.length ≤ b → b < R.fat ∨ R.fat + 512 ≤ b → run.mem b = m b := by
  have hstack := R.fat_on_stack
  have hcluster := findCluster_fileAt hfile hexp hinit hname
  have hfound : Kernel.Storage.Fat32.findCluster s.files bootName ≠ 0 := by
    rw [hcluster]
    exact ofNat_ne_zero (hexp.addressable hfile _ (List.mem_of_head? hfile.first))
  let copied := readSector disk m R.fat (partitionStart + s.bpb.reserverdSectors.toUInt32)
  have hreads : ∀ fuel, chain.length ≤ fuel →
      fileReads disk s bootName fuel = ⟨readsFrom s.bpb 0 chain, .ended⟩ :=
    fun fuel hfuel => fileReads_chain hfile hexp hinit hname hfuel
  refine ⟨⟨⟨readsFrom s.bpb 0 chain, .ended⟩, perform disk 0 copied (readsFrom s.bpb 0 chain)⟩,
    fun fuel hfuel => ?_, rfl, perform_firstSectors hfile hexp hinit hname 0 copied,
    fun b hb hout => ?_⟩
  · rw [loaderMain_eq_reads hinit hfound, hreads fuel hfuel]
    intro r hr
    rw [hreads fuel hfuel] at hr
    obtain ⟨_, hplace⟩ := readsFrom_offset hr
    refine ⟨clear_below hphys (by omega), fun j hj => ?_⟩
    rw [Nat.add_assoc]
    exact hphys _ _ (translate_kernel R boot (by omega))
  · exact (perform_readsFrom_outside (by omega)).trans (readSector_outside hout)

/-- A `BOOT.BIN` whose chain ends below the stack is loaded: the loop ends at the end of the
chain, and the kernel stands where its entry point is called. -/
theorem loaderMain_loaded (R : Residents) (boot : Memory)
    (hphys : ∀ v p, R.translate boot v = some p → phys v = p)
    (hfile : FileAt disk e chain) (hexp : Expected disk e chain)
    (hname : ∀ n < 11, bootName n = rootBytes disk (32 * (e + 1) + n))
    (hinit : initFat disk Kernel.Storage.Fat32.zeroFiles = some s)
    (hroom : 512 * chain.length ≤ R.stackLow) :
    ∃ run, (∀ fuel, chain.length ≤ fuel →
        loaderMain disk phys R.fat (mapKernel R.tables boot) fuel = some run) ∧
      run.ending = .ended ∧ Loaded R disk e chain boot run.mem := by
  have hstack := R.fat_on_stack
  obtain ⟨run, hrun, hend, hsectors, hkept⟩ :=
    loaderMain_run R boot (mapKernel R.tables boot) hphys hfile hexp hname hinit hroom
  have htables : ∀ v, physicalAddress run.mem (0x1000 * R.tables.pml4) v = R.translate boot v := by
    refine physicalAddress_kept boot fun f hf b hb _ => ?_
    have hlow := (R.tables_in_image f hf).1
    exact hkept b (by omega) (by omega)
  have hbyte : ∀ x < 512 * chain.length,
      virtualByte run.mem (0x1000 * R.tables.pml4) (kernelAddr + x) = some (run.mem x) := by
    intro x hx
    rw [virtualByte, htables, translate_kernel R boot (by omega), Option.map_some]
  refine ⟨run, hrun, hend, ?_, ?_, htables, fun b hb hout => hkept b hb (by omega)⟩
  · intro q d hq i hi
    obtain ⟨hlt, _⟩ := List.getElem?_eq_some_iff.mp hq
    have hfirst := hsectors q d hq i hi
    rw [Nat.zero_add] at hfirst
    rw [hbyte _ (by omega), hfirst]
  · intro hone j hj
    have hsize := hfile.size
    have hpos := List.length_pos_of_mem (List.mem_of_head? hfile.first)
    have hhas := hasFile_of_sectors hfile hone hsectors j hj
    have hlt : j < 512 * chain.length := by
      rcases hone with hone | hsmall
      · rw [hone] at hsize
        omega
      · omega
    rw [hbyte j hlt, hhas, Nat.zero_add]

theorem bootDisk_fileAt : FileAt (bootDisk shortTable) 0 [3, 5] where
  sectorSize := by decide +kernel
  root := by decide +kernel
  clusterSize := by decide +kernel
  firstSector := by decide
  nonzero := by decide +kernel
  longUsed := by decide +kernel
  long := by decide +kernel
  regular := ⟨by decide +kernel, by decide +kernel, by decide +kernel⟩
  first := by decide +kernel
  linked := by decide +kernel
  ended := by decide +kernel
  acyclic := by decide
  inside := by decide +kernel
  size := by decide +kernel

theorem bootDisk_expected : Expected (bootDisk shortTable) 0 [3, 5] where
  lba28 := by decide +kernel
  firstFatSector := by decide
  reservedBits := by decide +kernel
  endMark := by decide +kernel
  uniqueName := by
    have hfirst : ∀ d < 16, rootBytes (bootDisk shortTable) (32 * d + 0) =
        rootBytes (bootDisk shortTable) (32 * 1 + 0) → d = 1 := by decide +kernel
    exact fun d hd _ hname => hfirst d hd (hname 0 (by decide))

/-- The 600 bytes of the sample kernel. -/
theorem loaderMain_loaded_short :
    ∃ run, (∀ fuel, 2 ≤ fuel →
        loaderMain (bootDisk shortTable) samplePhysical 0x4a00 (mapKernel sampleTables (fun _ => 0)) fuel =
          some run) ∧
      run.ending = .ended ∧
      ∀ j < 600, virtualByte run.mem 0x10000 (kernelAddr + j) =
        (fileBytes (bootDisk shortTable) [3, 5])[j]? := by
  have hinit : (initFat (bootDisk shortTable) Kernel.Storage.Fat32.zeroFiles).isSome := by
    decide +kernel
  obtain ⟨s, hinit⟩ := Option.isSome_iff_exists.mp hinit
  obtain ⟨run, hrun, hend, hloaded⟩ := loaderMain_loaded sampleResidents (fun _ => 0)
    samplePhysical_eq bootDisk_fileAt bootDisk_expected (by decide +kernel) hinit (by decide)
  have hsize : fileSize (bootDisk shortTable) (0 + 1) = 600 := by decide +kernel
  have hone : sectorsPerCluster (bootDisk shortTable) = 1 := by decide +kernel
  refine ⟨run, hrun, hend, fun j hj => ?_⟩
  exact hloaded.image (Or.inl hone) j (hsize ▸ hj)

end PaskakasaOS.Boot.LoadedImage
