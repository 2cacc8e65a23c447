import PaskakasaOS.Boot.LoaderAgreement
import PaskakasaOS.Boot.MapKernel
import PaskakasaOS.Kernel.Storage.ReadFile

/-!
# Where the loader puts the kernel

Sector after sector, `loader_main` fills physical memory from address 0 up, through
the tables of `map_kernel`. Its own stack ends at `0x5000`, the data of the first
stage starts at `0x7e00` and its own image at `0xd000`; the length of the chain is
all that keeps the sectors away from them.
-/
namespace PaskakasaOS.Boot.LoaderPlacement

open Lib.ByteMemory Stage2 LoaderAgreement MapKernel
open Kernel.Memory.Vmm (physicalAddress)
open Kernel.Memory.InitPaging (Canonical kernelStart)
open Kernel.Storage.AtaPio Kernel.Storage.ReadTrace
open Kernel.Storage.Fat32 (Bpb)
open Kernel.Storage.Volume (volumeBpb fatEntry)
open Kernel.Storage.ReadFile (firstFatSector readNextcluster_eq toNat_ofNat_lt)

/-- What the loader and the kernel still need while the sectors are stored: the stack,
which reaches down to `stackLow` and holds `fat`, the data of the first stage, and the
image of the second with the page tables in use. -/
structure Residents where
  stackLow : Nat
  fat : Nat
  stage1End : Nat
  stage2End : Nat
  tables : BootTables
  fat_on_stack : stackLow ≤ fat ∧ fat + 512 ≤ 0x5000
  tables_in_image : ∀ f ∈ tables.all, 0xd000 ≤ 0x1000 * f ∧ 0x1000 * f + 0x1000 ≤ stage2End

def Residents.Holds (R : Residents) (p : Nat) : Prop :=
  (R.stackLow ≤ p ∧ p < 0x5000) ∨ (0x7e00 ≤ p ∧ p < R.stage1End) ∨ (0xd000 ≤ p ∧ p < R.stage2End)

/-- The physical address of a virtual one while the loader runs. -/
def Residents.translate (R : Residents) (boot : Memory) (v : Nat) : Option Nat :=
  physicalAddress (mapKernel R.tables boot) (0x1000 * R.tables.pml4) v

/-- No byte that a data read stores belongs to the residents. -/
def Spares (R : Residents) (boot : Memory) (run : Loading) : Prop :=
  ∀ r ∈ run.sectors, ∀ j < 512, ∀ p,
    R.translate boot (kernelAddr + r.offset + j) = some p → ¬ R.Holds p

/-- Cluster `n` of the chain from `first` on, when the chain in the table is that long. -/
def chainAt (fattable : Memory) : Nat → UInt32 → Option UInt32
  | 0, first => some first
  | n + 1, first => ((readNextcluster fattable first).filter (· ≠ 0)).bind (chainAt fattable n)

variable {R : Residents} {boot m fattable : Memory} {disk : Disk} {bpb : Bpb} {phys : Nat → Nat}
  {fat fuel memIndex n : Nat} {next first : UInt32}

theorem chainAt_succ (h : (chainAt fattable (n + 1) first).isSome) :
    ∃ cluster, readNextcluster fattable first = some cluster ∧ cluster ≠ 0 ∧
      (chainAt fattable n cluster).isSome := by
  obtain ⟨last, hlast⟩ := Option.isSome_iff_exists.mp h
  rw [chainAt, Option.bind_eq_some_iff] at hlast
  obtain ⟨cluster, hcluster, hrest⟩ := hlast
  obtain ⟨hnext, hnonzero⟩ := Option.filter_eq_some_iff.mp hcluster
  exact ⟨cluster, hnext, of_decide_eq_true hnonzero, Option.isSome_iff_exists.mpr ⟨last, hrest⟩⟩

theorem chainAt_of_next {cluster : UInt32} (hnext : readNextcluster fattable first = some cluster)
    (hcluster : cluster ≠ 0) : chainAt fattable (n + 1) first = chainAt fattable n cluster := by
  rw [chainAt, hnext, Option.filter_some, if_pos (decide_eq_true hcluster), Option.bind_some]

/-- A chain with a cluster `n` has all the clusters before. -/
theorem chainAt_le {i : Nat} (hi : i ≤ n) (h : (chainAt fattable n first).isSome) :
    (chainAt fattable i first).isSome := by
  induction i generalizing n first with
  | zero => rfl
  | succ i ih =>
    obtain ⟨n, rfl⟩ := Nat.exists_eq_add_one.mpr (Nat.zero_lt_of_lt hi)
    obtain ⟨cluster, hnext, hcluster, hrest⟩ := chainAt_succ h
    rw [chainAt_of_next hnext hcluster]
    exact ih (Nat.le_of_succ_le_succ hi) hrest

/-! ## The run along the chain -/

/-- While the sectors of the chain stay clear of the table, every sector read has the
place of a cluster of the chain. -/
theorem loadClusters_on_chain (hfat : Intact m fat fattable)
    (hclear : ∀ n r, (chainAt fattable (n + 1) next).isSome → r.offset = (memIndex + n) * 0x200 →
      Clear phys fat r) :
    ∀ r ∈ (loadClusters disk bpb phys fat fuel m memIndex next).sectors,
      ∃ n, (chainAt fattable (n + 1) next).isSome ∧ r.offset = (memIndex + n) * 0x200 := by
  induction fuel generalizing m memIndex next with
  | zero =>
    intro r hr
    cases hr
  | succ fuel ih =>
    intro r hr
    rcases loadClusters_cases disk bpb phys fat fuel m memIndex next with
      hnone | ⟨cluster, hnext, hcluster, hsome⟩
    · rw [hnone] at hr
      cases hr
    rw [hfat.readNextcluster] at hnext
    have hchain : ∀ n, chainAt fattable (n + 1) next = chainAt fattable n cluster :=
      fun n => chainAt_of_next hnext hcluster
    have hfirst : (chainAt fattable (0 + 1) next).isSome := by rw [hchain]; rfl
    rw [hsome, List.mem_cons] at hr
    rcases hr with rfl | hr
    · exact ⟨0, hfirst, rfl⟩
    have hfat' := hfat.readData disk (hclear 0 ⟨clusterdataLBA bpb cluster, memIndex * 0x200⟩ hfirst rfl)
    obtain ⟨n, hn, hoffset⟩ := ih hfat' (fun n r hn hr => hclear (n + 1) r
      (by rwa [hchain]) (by rw [hr]; omega)) r hr
    exact ⟨n + 1, by rwa [hchain], by rw [hoffset]; omega⟩

/-- The loop gets as far along the chain as the sectors before stay clear of the table. -/
theorem loadClusters_reaches (hfat : Intact m fat fattable)
    (hchain : (chainAt fattable (n + 1) next).isSome) (hindex : (memIndex + n) * 0x200 < 2 ^ 31)
    (hclear : ∀ i < n, ∀ r : SectorRead, r.offset = (memIndex + i) * 0x200 → Clear phys fat r) :
    ∃ r ∈ (loadClusters disk bpb phys fat (n + 1) m memIndex next).sectors,
      r.offset = (memIndex + n) * 0x200 := by
  induction n generalizing m memIndex next with
  | zero =>
    obtain ⟨cluster, hnext, hcluster, _⟩ := chainAt_succ hchain
    rw [← hfat.readNextcluster] at hnext
    rw [Nat.add_zero] at hindex ⊢
    rw [loadClusters_next hnext hcluster hindex]
    exact ⟨_, List.mem_cons_self, rfl⟩
  | succ n ih =>
    obtain ⟨cluster, hnext, hcluster, hrest⟩ := chainAt_succ hchain
    rw [← hfat.readNextcluster] at hnext
    have hplace : ∀ i, memIndex + (i + 1) = memIndex + 1 + i := fun i => by omega
    have hfat' := hfat.readData disk
      (hclear 0 (Nat.succ_pos n) ⟨clusterdataLBA bpb cluster, memIndex * 0x200⟩ rfl)
    rw [hplace] at hindex ⊢
    have hnow : memIndex * 0x200 < 2 ^ 31 :=
      Nat.lt_of_le_of_lt (Nat.mul_le_mul_right _ (by omega)) hindex
    obtain ⟨r, hr, hoffset⟩ := ih hfat' hrest hindex fun i hi r hr =>
      hclear (i + 1) (Nat.succ_lt_succ hi) r (by rw [hplace, hr])
    rw [loadClusters_next hnext hcluster hnow]
    exact ⟨r, List.mem_cons_of_mem _ hr, hoffset⟩

theorem loadFile_on_chain {cluster : Int32}
    (hclear : ∀ n r, (chainAt (firstFatSector disk) n cluster.toUInt32).isSome →
      r.offset = n * 0x200 → Clear phys fat r) :
    ∀ r ∈ (loadFile disk (volumeBpb disk) phys fat m fuel cluster).sectors,
      ∃ n, (chainAt (firstFatSector disk) n cluster.toUInt32).isSome ∧ r.offset = n * 0x200 := by
  intro r hr
  simp only [loadFile, List.mem_cons] at hr
  rcases hr with rfl | hr
  · exact ⟨0, rfl, (Nat.zero_mul _).symm⟩
  have hfat := (intact_readData disk m fat (partitionStart + (volumeBpb disk).reserverdSectors.toUInt32)).readData
    disk (hclear 0 ⟨firstClusterLBA (volumeBpb disk) cluster, 0⟩ rfl (Nat.zero_mul _).symm)
  obtain ⟨n, hn, hoffset⟩ := loadClusters_on_chain hfat
    (fun n r hn hr => hclear (n + 1) r hn (by rw [hr, Nat.add_comm 1])) r hr
  exact ⟨n + 1, hn, by rw [hoffset, Nat.add_comm 1]⟩

theorem loadFile_reaches {cluster : Int32}
    (hchain : (chainAt (firstFatSector disk) n cluster.toUInt32).isSome) (hindex : n * 0x200 < 2 ^ 31)
    (hclear : ∀ i < n, ∀ r : SectorRead, r.offset = i * 0x200 → Clear phys fat r) :
    ∃ r ∈ (loadFile disk (volumeBpb disk) phys fat m n cluster).sectors, r.offset = n * 0x200 := by
  simp only [loadFile]
  cases n with
  | zero => exact ⟨_, List.mem_cons_self, (Nat.zero_mul _).symm⟩
  | succ n =>
    have hfat := (intact_readData disk m fat
      (partitionStart + (volumeBpb disk).reserverdSectors.toUInt32)).readData disk
        (hclear 0 (Nat.succ_pos n) ⟨firstClusterLBA (volumeBpb disk) cluster, 0⟩ (Nat.zero_mul _).symm)
    have hplace : ∀ i, 1 + i = i + 1 := fun i => Nat.add_comm 1 i
    obtain ⟨r, hr, hoffset⟩ := loadClusters_reaches hfat hchain (by rwa [hplace]) fun i hi r hr =>
      hclear (i + 1) (Nat.succ_lt_succ hi) r (by rw [hr, hplace])
    exact ⟨r, List.mem_cons_of_mem _ hr, by rw [hoffset, hplace]⟩

/-! ## The bytes that the sectors take -/

theorem translate_kernel (R : Residents) (boot : Memory) {x : Nat} (hx : x < 0x200000) :
    R.translate boot (kernelAddr + x) = some x := by
  have haddr : kernelAddr = kernelStart := rfl
  have hstart : kernelStart = 0xFFFFFFFF80000000 := rfl
  have hcanonical : Canonical (kernelStart + x) := by
    unfold Canonical
    omega
  rw [Residents.translate, haddr, physicalAddress_mapKernel R.tables boot hcanonical, bootIntended,
    if_neg (by omega), if_pos (by omega), Nat.add_sub_cancel_left]

/-- The sectors before the stack leave the table alone. -/
theorem clear_below (hphys : ∀ v p, R.translate boot v = some p → phys v = p) {r : SectorRead}
    (hr : r.offset + 512 ≤ R.stackLow) : Clear phys R.fat r := by
  intro j hj b _
  have hstack := R.fat_on_stack
  rw [Nat.add_assoc, hphys _ _ (translate_kernel R boot (by omega))]
  omega

/-- A sector below the stack is a sector clear of everything above. -/
theorem spares_below {run : Loading} (h : ∀ r ∈ run.sectors, r.offset + 512 ≤ R.stackLow) :
    Spares R boot run := by
  intro r hr j hj p hp
  have hstack := R.fat_on_stack
  have hplace := h r hr
  rw [Nat.add_assoc, translate_kernel R boot (by omega)] at hp
  obtain rfl := Option.some.inj hp
  unfold Residents.Holds
  omega

/-- A sector that starts below the stack and is spared ends below it. -/
theorem below_of_spares {run : Loading} {r : SectorRead} (h : Spares R boot run)
    (hr : r ∈ run.sectors) (hplace : r.offset ≤ R.stackLow) : r.offset + 512 ≤ R.stackLow := by
  by_contra hover
  have hstack := R.fat_on_stack
  have hbyte := h r hr (R.stackLow - r.offset) (by omega) R.stackLow
  rw [Nat.add_assoc, Nat.add_sub_cancel' hplace] at hbyte
  exact hbyte (translate_kernel R boot (by omega)) (Or.inl ⟨Nat.le_refl _, by omega⟩)

theorem loadFile_spares_iff (R : Residents) (boot m : Memory) (cluster : Int32)
    (hphys : ∀ v p, R.translate boot v = some p → phys v = p) :
    (∀ fuel, Spares R boot (loadFile disk (volumeBpb disk) phys R.fat m fuel cluster)) ↔
      ∀ n, (chainAt (firstFatSector disk) n cluster.toUInt32).isSome → 512 * (n + 1) ≤ R.stackLow := by
  have hstack := R.fat_on_stack
  constructor
  · intro hspares n
    induction n using Nat.strong_induction_on with
    | _ n ih =>
      intro hn
      -- the sectors before have left the table alone, so the loop gets here
      have hbefore : ∀ i < n, 512 * (i + 1) ≤ R.stackLow := fun i hi =>
        ih i hi (chainAt_le (by omega) hn)
      have hplace : n * 0x200 ≤ R.stackLow := by
        cases n with
        | zero => omega
        | succ n =>
          have hlast := hbefore n (Nat.lt_succ_self n)
          omega
      have hclear : ∀ i < n, ∀ r : SectorRead, r.offset = i * 0x200 → Clear phys R.fat r := by
        intro i hi r hr
        have hroom := hbefore i hi
        exact clear_below hphys (by omega)
      obtain ⟨r, hr, hoffset⟩ := loadFile_reaches (m := m) hn (by omega) hclear
      have hbelow := below_of_spares (hspares n) hr (by omega)
      omega
  · intro hchain fuel
    have hclear : ∀ n r, (chainAt (firstFatSector disk) n cluster.toUInt32).isSome →
        r.offset = n * 0x200 → Clear phys R.fat r := by
      intro n r hn hr
      have hroom := hchain n hn
      exact clear_below hphys (by omega)
    apply spares_below
    intro r hr
    obtain ⟨n, hn, hoffset⟩ := loadFile_on_chain hclear r hr
    have hroom := hchain n hn
    omega

/-- The loader spares its stack, the tables it runs on and the data it passes on exactly
when every cluster of the chain has its sector below the stack: a chain of `k` clusters
when `512 * k` is at most the lowest address of the stack. -/
theorem loaderMain_spares_iff (R : Residents) (boot m : Memory)
    (hphys : ∀ v p, R.translate boot v = some p → phys v = p) {files : Fin 5 → File}
    (hscan : processDirectoryArea disk (volumeBpb disk) zeroFiles = some files) :
    (∀ fuel run, loaderMain disk phys R.fat m fuel = some run → Spares R boot run) ↔
      ∀ n, (chainAt (firstFatSector disk) n (findCluster files).toUInt32).isSome →
        512 * (n + 1) ≤ R.stackLow := by
  rw [← loadFile_spares_iff R boot m (findCluster files) hphys]
  refine forall_congr' fun fuel => ?_
  rw [volumeBpb] at hscan ⊢
  rw [loaderMain, hscan, Option.map_some]
  exact ⟨fun h => h _ rfl, fun h run hrun => Option.some.inj hrun ▸ h⟩

/-- A loader of 40960 bytes whose stack takes 2 KiB. -/
def sampleResidents : Residents where
  stackLow := 0x4800
  fat := 0x4a00
  stage1End := 0x8200
  stage2End := 0x17000
  tables := sampleTables
  fat_on_stack := by decide
  tables_in_image := by decide

/-- The addresses as the tables have them. -/
def samplePhysical (v : Nat) : Nat := (sampleResidents.translate (fun _ => 0) v).getD 0

theorem samplePhysical_eq (v p : Nat) (h : sampleResidents.translate (fun _ => 0) v = some p) :
    samplePhysical v = p := by
  rw [samplePhysical, h, Option.getD_some]

/-- Clusters 3 to 43. -/
def longTable : Memory := fun b =>
  if b = 172 then 0xff else if b = 173 then 0xff else if b = 174 then 0xff else if b = 175 then 0x0f
  else if b % 4 = 0 ∧ 12 ≤ b ∧ b < 172 then UInt8.ofNat (b / 4 + 1) else 0

theorem bootDisk_short :
    (processDirectoryArea (bootDisk shortTable) (volumeBpb (bootDisk shortTable)) zeroFiles).map
        findCluster = some 3 ∧
      chainAt (firstFatSector (bootDisk shortTable)) 2 3 = none := by
  decide +kernel

theorem bootDisk_long :
    (processDirectoryArea (bootDisk longTable) (volumeBpb (bootDisk longTable)) zeroFiles).map
        findCluster = some 3 := by
  decide +kernel

theorem fatEntry_long : ∀ c < 43, 3 ≤ c → fatEntry (bootDisk longTable) c = c + 1 := by
  decide +kernel

theorem chainAt_long {c : Nat} (hc : 3 ≤ c) (hn : c + n ≤ 43) :
    (chainAt (firstFatSector (bootDisk longTable)) n (UInt32.ofNat c)).isSome := by
  induction n generalizing c with
  | zero => rfl
  | succ n ih =>
    have hentry := fatEntry_long c (by omega) hc
    have hnext := readNextcluster_eq (bootDisk longTable) (by omega : c < 128)
    rw [hentry, if_neg (by omega)] at hnext
    have hcluster : UInt32.ofNat (c + 1) ≠ 0 := by
      intro hzero
      have hnat := congrArg UInt32.toNat hzero
      rw [toNat_ofNat_lt (by omega)] at hnat
      exact absurd hnat (Nat.succ_ne_zero c)
    rw [chainAt_of_next hnext hcluster]
    exact ih (by omega) (by omega)

theorem loaderMain_spares_short :
    ∃ files, processDirectoryArea (bootDisk shortTable) (volumeBpb (bootDisk shortTable)) zeroFiles =
        some files ∧
      ∀ fuel run, loaderMain (bootDisk shortTable) samplePhysical 0x4a00 (fun _ => 0) fuel = some run →
        Spares sampleResidents (fun _ => 0) run := by
  obtain ⟨hscan, hend⟩ := bootDisk_short
  obtain ⟨files, hscan, hcluster⟩ := Option.map_eq_some_iff.mp hscan
  refine ⟨files, hscan, (loaderMain_spares_iff sampleResidents (fun _ => 0) (fun _ => 0)
    samplePhysical_eq hscan).mpr fun n hn => ?_⟩
  rw [hcluster] at hn
  by_contra hover
  have htwo : 2 ≤ n := by
    by_contra hlt
    have hstack : sampleResidents.stackLow = 0x4800 := rfl
    omega
  have hsome := chainAt_le htwo hn
  rw [show (3 : Int32).toUInt32 = 3 from rfl, hend] at hsome
  cases hsome

/-- With a kernel of 41 sectors the stack is overwritten. -/
theorem loaderMain_long_not_spared :
    ¬ ∀ fuel run, loaderMain (bootDisk longTable) samplePhysical 0x4a00 (fun _ => 0) fuel = some run →
      Spares sampleResidents (fun _ => 0) run := by
  intro hspares
  obtain ⟨files, hscan, hcluster⟩ := Option.map_eq_some_iff.mp bootDisk_long
  rw [volumeBpb] at hscan
  have hfile := (loadFile_spares_iff sampleResidents (fun _ => 0) (fun _ => 0) 3
    samplePhysical_eq).mp (fun fuel => hspares fuel _ (by
      rw [loaderMain, hscan, Option.map_some, hcluster]
      rfl)) 40
  have hplace := hfile (chainAt_long (Nat.le_refl 3) (Nat.le_refl 43))
  exact absurd hplace (by decide)

end PaskakasaOS.Boot.LoaderPlacement
