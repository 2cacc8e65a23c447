import PaskakasaOS.Boot.Stage2

/-!
# The two FAT readers agree

The loader and the kernel go through the same directory sector with different
records and follow the same chain. As long as no sector the loader stores falls on
its copy of the table, it reads what `read_file` reads, sector by sector.
-/
namespace PaskakasaOS.Boot.LoaderAgreement

open Lib.ByteMemory Lib.Runs Stage2
open Kernel.Utils.Mem (strcmp strcmp_eq_zero_iff)
open Kernel.Storage.AtaPio Kernel.Storage.ReadTrace
open Kernel.Storage.Fat32 (Bpb Fat sectorBuffer entryUnused entryLfn entryDir initFat visited)

/-! ## The directory scans -/

/-- The slots of the two tables carry the same short name and cluster number. -/
def SameFiles (files : Fin 5 → Kernel.Storage.Fat32.File) (loaded : Fin 5 → File) : Prop :=
  ∀ i, (files i).shortName = (loaded i).shortName ∧ (files i).firstCluster = (loaded i).firstCluster

/-- The two scans stand at the same entry. -/
structure Alike (k : Kernel.Storage.Fat32.Scan) (l : Scan) : Prop where
  files : SameFiles k.files l.files
  fileIndex : k.fileIndex = l.fileIndex
  foundfile : k.foundfile = l.foundfile

variable {buffer : Memory} {k : Kernel.Storage.Fat32.Scan} {l : Scan} {i : Nat}

theorem Alike.store (h : Alike k l) (hk : k.fileIndex < 5) (hl : l.fileIndex < 5) :
    Alike (k.store hk buffer i) (l.store hl buffer i) where
  files := by
    obtain ⟨files, index, found⟩ := l
    obtain rfl : k.fileIndex = index := h.fileIndex
    intro j
    simp only [Kernel.Storage.Fat32.Scan.store, Scan.store]
    by_cases hj : j = ⟨k.fileIndex, hk⟩
    · subst hj
      have hname := (h.files ⟨k.fileIndex, hk⟩).1
      simp only [Function.update_self, Kernel.Storage.Fat32.recordEntry, recordEntry, hname, and_self]
    · rw [Function.update_of_ne hj, Function.update_of_ne hj]
      exact h.files j
  fileIndex := congrArg (· + 1) h.fileIndex
  foundfile := rfl

/-- A long entry leaves a name behind in the kernel's table, which no lookup reads. -/
theorem Alike.announce (h : Alike k l) (name : Kernel.Storage.Fat32.File)
    (hname : name.shortName = (k.files 0).shortName)
    (hcluster : name.firstCluster = (k.files 0).firstCluster) :
    Alike { k with files := Function.update k.files 0 name, foundfile := true }
      { l with foundfile := true } where
  files := by
    intro j
    by_cases hj : j = 0
    · subst hj
      show (Function.update k.files 0 name 0).shortName = _ ∧
        (Function.update k.files 0 name 0).firstCluster = _
      rw [Function.update_self, hname, hcluster]
      exact h.files 0
    · show (Function.update k.files 0 name j).shortName = _ ∧
        (Function.update k.files 0 name j).firstCluster = _
      rw [Function.update_of_ne hj]
      exact h.files j
  fileIndex := h.fileIndex
  foundfile := rfl

/-- An entry takes both scans on in the same way, or past the end of both tables. -/
theorem processEntry_alike (h : Alike k l) :
    Option.Rel Alike (Kernel.Storage.Fat32.processEntry buffer k i) (processEntry buffer l i) := by
  unfold Kernel.Storage.Fat32.processEntry processEntry
  by_cases hused : buffer i = entryUnused
  · rw [if_pos hused, if_pos hused]
    exact .some h
  rw [if_neg hused, if_neg hused]
  by_cases hlfn : buffer (i + 11) = entryLfn
  · rw [if_pos hlfn, if_pos hlfn]
    exact .some (h.announce _ rfl rfl)
  rw [if_neg hlfn, if_neg hlfn]
  by_cases hdir : buffer (i + 11) = entryDir
  · rw [if_pos hdir, if_pos hdir]
    exact .some h
  rw [if_neg hdir, if_neg hdir]
  by_cases hfound : l.foundfile = true
  · rw [if_pos (h.foundfile.trans hfound), if_pos hfound]
    by_cases hindex : l.fileIndex < 5
    · have hindex' : k.fileIndex < 5 := h.fileIndex ▸ hindex
      rw [dif_pos hindex', dif_pos hindex]
      exact .some (h.store hindex' hindex)
    · have hindex' : ¬ k.fileIndex < 5 := h.fileIndex ▸ hindex
      rw [dif_neg hindex', dif_neg hindex]
      exact .none
  · have hfound' : ¬ k.foundfile = true := h.foundfile ▸ hfound
    rw [if_neg hfound', if_neg hfound]
    exact .some h

theorem scan_alike (buffer : Memory) (is : List Nat) :
    Option.Rel Alike
      (run (Kernel.Storage.Fat32.processEntry buffer) ⟨Kernel.Storage.Fat32.zeroFiles, 0, false⟩ is)
      (run (processEntry buffer) ⟨zeroFiles, 0, false⟩ is) :=
  run_rel (fun _ _ _ h => processEntry_alike h) ⟨fun _ => ⟨rfl, rfl⟩, rfl, rfl⟩

/-- What the kernel's table holds after its scan, the loader's holds after its own. -/
theorem processDirectoryArea_agrees {disk : Disk} {bpb : Bpb}
    {files : Fin 5 → Kernel.Storage.Fat32.File}
    (h : Kernel.Storage.Fat32.processDirectoryArea disk bpb Kernel.Storage.Fat32.zeroFiles =
      some files) :
    ∃ loaded, processDirectoryArea disk bpb zeroFiles = some loaded ∧ SameFiles files loaded := by
  simp only [Kernel.Storage.Fat32.processDirectoryArea, Option.map_eq_some_iff] at h
  simp only [processDirectoryArea]
  generalize sectorBuffer disk _ = buffer at h ⊢
  obtain ⟨scan, hscan, rfl⟩ := h
  have hrel := scan_alike buffer (visited buffer)
  rw [hscan] at hrel
  cases hl : run (processEntry buffer) ⟨zeroFiles, 0, false⟩ (visited buffer) with
  | none =>
    rw [hl] at hrel
    cases hrel
  | some loaded =>
    rw [hl] at hrel
    cases hrel with
    | some hend => exact ⟨loaded.files, rfl, hend.files⟩

/-! ## The lookup -/

theorem strcmp_eq_zero_comm (a b : Memory) (n : Nat) : strcmp a b n = 0 ↔ strcmp b a n = 0 := by
  rw [strcmp_eq_zero_iff, strcmp_eq_zero_iff]
  exact forall₂_congr fun _ _ => eq_comm

theorem findCluster_agrees {files : Fin 5 → Kernel.Storage.Fat32.File} {loaded : Fin 5 → File}
    (h : SameFiles files loaded) :
    (findCluster loaded).toUInt32 = Kernel.Storage.Fat32.findCluster files bootName := by
  unfold findCluster Kernel.Storage.Fat32.findCluster
  have hfold : ∀ (is : List (Fin 5)) (cluster : Int32), (is.foldl (fun cluster i =>
      if strcmp bootName (loaded i).shortName 11 = 0 then (loaded i).firstCluster.toInt32
      else cluster) cluster).toUInt32 =
      is.foldl (fun cluster i =>
        if strcmp (files i).shortName bootName 11 = 0 then (files i).firstCluster else cluster)
        cluster.toUInt32 := by
    intro is
    induction is with
    | nil => exact fun _ => rfl
    | cons i is ih =>
      intro cluster
      rw [List.foldl_cons, List.foldl_cons, ih, (h i).1, (h i).2]
      congr 1
      by_cases hname : strcmp bootName (loaded i).shortName 11 = 0
      · rw [if_pos hname, if_pos ((strcmp_eq_zero_comm _ _ _).mp hname)]
        rfl
      · rw [if_neg hname, if_neg fun hback => hname ((strcmp_eq_zero_comm _ _ _).mp hback)]
  exact hfold _ 0

/-- Between `int` and `uint32_t` only the reading of the top bit differs. -/
theorem firstClusterLBA_eq (bpb : Bpb) (cluster : Int32) :
    firstClusterLBA bpb cluster = Kernel.Storage.Fat32.clusterdataLBA bpb cluster.toUInt32 := rfl

/-! ## The chain -/

/-- The bytes a read stores are not in the 512 bytes at `fat`. -/
def Clear (phys : Nat → Nat) (fat : Nat) (r : SectorRead) : Prop :=
  ∀ j < 512, ∀ b < 512, phys (kernelAddr + r.offset + j) ≠ fat + b

variable {disk : Disk} {bpb : Bpb} {phys : Nat → Nat} {fat fuel memIndex : Nat} {m fattable : Memory}
  {next : UInt32} {s : Fat}

/-- The copy of the table that the loader made stands at `fat`. -/
def Intact (m : Memory) (fat : Nat) (fattable : Memory) : Prop :=
  ∀ b < 512, m (fat + b) = fattable b

theorem Intact.readData {r : SectorRead} (h : Intact m fat fattable) (disk : Disk)
    (hclear : Clear phys fat r) :
    Intact (readData disk phys m (kernelAddr + r.offset) r.lba) fat fattable := by
  intro b hb
  rw [readData_outside fun j hj => hclear j hj b hb]
  exact h b hb

theorem Intact.readNextcluster (h : Intact m fat fattable) (cluster : UInt32) :
    readNextcluster (fun b => m (fat + b)) cluster = readNextcluster fattable cluster := by
  unfold Stage2.readNextcluster
  by_cases hin : cluster.toNat < 128
  · have hentry : readLE 4 (fun b => m (fat + b)) (4 * cluster.toNat) =
        readLE 4 fattable (4 * cluster.toNat) :=
      readLE_congr fun i hi => h (4 * cluster.toNat + i) (by omega)
    rw [if_pos hin, if_pos hin, hentry]
  · rw [if_neg hin, if_neg hin]

/-- The two lookups differ in a counter only. -/
theorem readNextcluster_eq (cluster : UInt32) :
    readNextcluster fattable cluster = Kernel.Storage.Fat32.readNextcluster fattable cluster := rfl

/-- With its table left alone, the loop of `loader_main` is the loop of `read_file`. -/
theorem loadClusters_agrees (hfat : Intact m fat fattable)
    (hclear : ∀ r ∈ (loadClusters disk bpb phys fat fuel m memIndex next).sectors, Clear phys fat r) :
    (loadClusters disk bpb phys fat fuel m memIndex next).toReads =
      clusterReads bpb fattable fuel memIndex next := by
  induction fuel generalizing m memIndex next with
  | zero => rfl
  | succ fuel ih =>
    have hlookup := (hfat.readNextcluster next).trans (readNextcluster_eq next)
    unfold loadClusters at hclear ⊢
    unfold clusterReads
    rw [hlookup] at hclear ⊢
    cases hnext : Kernel.Storage.Fat32.readNextcluster fattable next with
    | none => rfl
    | some cluster =>
      simp only [hnext] at hclear ⊢
      by_cases hend : cluster = 0
      · simp only [if_pos hend]
      by_cases hindex : memIndex * 0x200 < 2 ^ 31
      · simp only [if_neg hend, if_pos hindex] at hclear ⊢
        have hfirst := hclear _ List.mem_cons_self
        have hrest := ih (hfat.readData disk hfirst) fun r hr => hclear r (List.mem_cons_of_mem _ hr)
        rw [← hrest]
        rfl
      · simp only [if_neg hend, if_neg hindex]

/-- The copy that the loader makes before it stores the first sector. -/
theorem intact_readData (disk : Disk) (m : Memory) (fat : Nat) (lba : UInt32) :
    Intact (readData disk id m fat lba) fat (sectorBuffer disk lba) := by
  intro b hb
  have hbuffer : sectorBuffer disk lba (0 + b) = _ := readSector_inside hb
  rw [readData_id, readSector_inside hb, ← hbuffer, Nat.zero_add]

/-! ## The two readers -/

theorem loadFile_agrees {files : Fin 5 → Kernel.Storage.Fat32.File} {loaded : Fin 5 → File}
    (hsame : SameFiles files loaded)
    (hfound : Kernel.Storage.Fat32.findCluster files bootName ≠ 0)
    (hclear : ∀ r ∈ (loadFile disk bpb phys fat m fuel (findCluster loaded)).sectors,
      Clear phys fat r) :
    (loadFile disk bpb phys fat m fuel (findCluster loaded)).toReads =
      fileReads disk ⟨bpb, files⟩ bootName fuel := by
  have hcluster := findCluster_agrees hsame
  rw [← hcluster] at hfound
  unfold loadFile at hclear ⊢
  have hfirst := hclear _ List.mem_cons_self
  have hfat := (intact_readData disk m fat
    (partitionStart + bpb.reserverdSectors.toUInt32)).readData disk hfirst
  have hloop := loadClusters_agrees hfat fun r hr => hclear r (List.mem_cons_of_mem _ hr)
  simp only [fileReads, if_neg hfound, ← hcluster, ← hloop]
  rw [firstClusterLBA_eq]
  rfl

/-- When the file table holds the directory and the file has a first cluster, the loader
reads sector by sector what `read_file` reads, to the same places, and the two stop
together: after every number of lookups, and whatever memory `read_file` is called on. -/
theorem loaderMain_agrees (phys : Nat → Nat) (fat : Nat) (m : Memory) (fuel : Nat)
    (hinit : initFat disk Kernel.Storage.Fat32.zeroFiles = some s)
    (hfound : Kernel.Storage.Fat32.findCluster s.files bootName ≠ 0) :
    ∃ run, loaderMain disk phys fat m fuel = some run ∧
      ((∀ r ∈ run.sectors, Clear phys fat r) →
        run.toReads = fileReads disk s bootName fuel ∧
        ∀ address m', Kernel.Storage.Fat32.readFile disk s bootName address m' fuel =
          run.toReads.outcome disk address m') := by
  simp only [initFat, Option.map_eq_some_iff] at hinit
  obtain ⟨files, hfiles, rfl⟩ := hinit
  obtain ⟨loaded, hloaded, hsame⟩ := processDirectoryArea_agrees hfiles
  refine ⟨_, by rw [loaderMain, hloaded, Option.map_some], fun hclear => ?_⟩
  have hreads := loadFile_agrees hsame hfound hclear
  exact ⟨hreads, fun address m' => by rw [readFile_eq_reads, ← hreads]⟩

/-- The tables of `map_kernel` as far as they reach. -/
def bootPhysical (v : Nat) : Nat := if v < kernelAddr then v else v - kernelAddr

theorem clear_bootPhysical {r : SectorRead} (h : r.offset + 512 ≤ fat) : Clear bootPhysical fat r := by
  intro j hj b _
  have hnot : ¬ kernelAddr + r.offset + j < kernelAddr := by omega
  rw [bootPhysical, if_neg hnot]
  omega

theorem loadClusters_offset {r : SectorRead}
    (hr : r ∈ (loadClusters disk bpb phys fat fuel m memIndex next).sectors) :
    r.offset < (memIndex + fuel) * 0x200 := by
  induction fuel generalizing m memIndex next with
  | zero => cases hr
  | succ fuel ih =>
    rcases loadClusters_cases disk bpb phys fat fuel m memIndex next with hnone | ⟨_, _, _, hsome⟩
    · rw [hnone] at hr
      cases hr
    · rw [hsome, List.mem_cons] at hr
      rcases hr with rfl | hr
      · exact Nat.mul_lt_mul_of_pos_right (by omega) (by decide)
      · have hrest := ih hr
        rwa [Nat.add_assoc, Nat.add_comm 1] at hrest

theorem loaderMain_offset {run : Loading} {r : SectorRead}
    (h : loaderMain disk phys fat m fuel = some run) (hr : r ∈ run.sectors) :
    r.offset < (1 + fuel) * 0x200 := by
  rw [loaderMain, Option.map_eq_some_iff] at h
  obtain ⟨files, _, rfl⟩ := h
  simp only [loadFile, List.mem_cons] at hr
  rcases hr with rfl | hr
  · exact Nat.mul_pos (by omega) (by decide)
  · exact loadClusters_offset hr

/-- A volume of eight sectors whose only file is `BOOT.BIN`, from cluster 3 on: boot sector,
one table, root directory and clusters 3 to 7. -/
def bootBytes : List (Nat × List UInt8) :=
  [(512 * 0x800 + 11, [0, 2, 1, 1, 0, 1]), (512 * 0x800 + 32, [8, 0, 0, 0, 1]),
    (512 * 0x800 + 44, [2]), (512 * 0x802, [0x41]), (512 * 0x802 + 11, [0x0f]),
    (512 * 0x802 + 32, [66, 79, 79, 84, 32, 32, 32, 32, 66, 73, 78, 0x20]),
    (512 * 0x802 + 58, [3, 0, 0x58, 2])]

def bootDisk (table : Memory) : Disk := fun a =>
  if 512 * 0x801 ≤ a ∧ a < 512 * 0x802 then table (a - 512 * 0x801)
  else (bootBytes.findSome? (fun r => if r.1 ≤ a then r.2[a - r.1]? else none)).getD 0

/-- Clusters 3 and 5. -/
def shortTable : Memory := fun b =>
  if b = 12 then 5 else if 20 ≤ b ∧ b < 23 then 0xff else if b = 23 then 0x0f else 0

theorem fileReads_short :
    (initFat (bootDisk shortTable) Kernel.Storage.Fat32.zeroFiles).map (fun s =>
      (Kernel.Storage.Fat32.findCluster s.files bootName,
        fileReads (bootDisk shortTable) s bootName 3)) =
      some (3, ⟨[⟨0x803, 0⟩, ⟨0x805, 0x200⟩], .ended⟩) := by
  decide +kernel

theorem loaderMain_agrees_short :
    ∃ run, loaderMain (bootDisk shortTable) bootPhysical 0x4a00 (fun _ => 0) 3 = some run ∧
      run.toReads = ⟨[⟨0x803, 0⟩, ⟨0x805, 0x200⟩], .ended⟩ := by
  obtain ⟨s, hinit, hs⟩ := Option.map_eq_some_iff.mp fileReads_short
  obtain ⟨hcluster, hreads⟩ := Prod.mk.inj hs
  have hfound : Kernel.Storage.Fat32.findCluster s.files bootName ≠ 0 := by
    rw [hcluster]
    decide
  obtain ⟨run, hrun, hagree⟩ := loaderMain_agrees bootPhysical 0x4a00 (fun _ => 0) 3 hinit hfound
  refine ⟨run, hrun, ?_⟩
  rw [← hreads]
  refine (hagree fun r hr => clear_bootPhysical ?_).1
  have hoffset := loaderMain_offset hrun hr
  omega

end PaskakasaOS.Boot.LoaderAgreement
