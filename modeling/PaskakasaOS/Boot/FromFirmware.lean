import PaskakasaOS.Boot.HandOff
import PaskakasaOS.Boot.LoadedImage
import PaskakasaOS.Boot.SetupPmode
import PaskakasaOS.Kernel.Memory.PoolSelection
import PaskakasaOS.Kernel.Utils.Vesa

/-!
# From the firmware to the kernel

The memory map and the mode block lie in the data of the first stage. Before `init_pmm`
and `init_vesa` read them there, two sets of page tables have been filled, the loader has
copied the table of the volume to its stack, and the kernel has been stored from address 0 up.
-/
namespace PaskakasaOS.Boot.FromFirmware

open Lib.ByteMemory Stage2 MapKernel SetupPmode
open HandOff (Machine64 handOff handOff_frame startArguments Outside identityMap1gb_outside
  setEntry_outside clearEntries_outside)
open LoadedImage (loaderMain_run bootDisk_fileAt bootDisk_expected)
open LoaderPlacement (Residents sampleResidents)
open LoaderAgreement (bootDisk shortTable)
open Kernel.Memory.InitPmm
open Kernel.Memory.PoolSelection (twoRegions)
open Kernel.Memory.Vmm (setEntry)
open Kernel.Storage.AtaPio Kernel.Storage.ReadTrace Kernel.Storage.Volume
open Kernel.Storage.Fat32 (Fat initFat)
open Kernel.Storage.ReadFile
open Kernel.Utils.Vesa Kernel.Utils.Mem

/-- The data of the first stage: the 512 bytes of `system_info`, `entries` behind them, and
the page tables somewhere between the stack and the loader. -/
structure FirstStage where
  tables : SetupLongmode.Tables
  systemInfo : Nat
  inside : 0x7e00 ≤ systemInfo ∧ systemInfo + 512 + entriesSize ≤ 0xd000
  apart : ∀ b, systemInfo ≤ b → b < systemInfo + 512 + entriesSize → Outside tables b
  behind : ∀ f ∈ tables.all, 0x5000 ≤ 0x1000 * f

def FirstStage.entries (S : FirstStage) : Nat := S.systemInfo + 512

/-- The machine that `loader_main` is called on. The stack is the one of the boot sector. -/
def FirstStage.handOff (S : FirstStage) (m : Memory) (map : MemoryMap) (locals ebp : Nat)
    (rets : Nat → Nat) : Machine64 :=
  HandOff.handOff S.tables S.systemInfo S.entries locals ebp rets
    ⟨collected m S.entries map, 0x5000⟩

/-- `loader_main` there: `map_kernel`, and what follows it. -/
def load (R : Residents) (disk : Disk) (phys : Nat → Nat) (l : Machine64) (fuel : Nat) :
    Option Loading :=
  loaderMain disk phys R.fat (mapKernel R.tables l.mem) fuel

/-- `start` gets the two addresses, and finds there what the firmware has left. -/
structure Delivered (S : FirstStage) (m : Memory) (map : MemoryMap) (l : Machine64) (m' : Memory) :
    Prop where
  arguments : startArguments l = (S.entries, S.systemInfo)
  scanned : processed (e820Entry m' (startArguments l).1) 50 0 = map.entries
  pool : ∀ kernel g, initPmm kernel m' (startArguments l).1 g =
    initPmm kernel (map.place m S.entries) S.entries g
  mode : ∀ info : UInt64, info.toNat + 256 ≤ 2 ^ 64 →
    ModeInfo.packed (initVesa m' info (UInt32.ofNat (startArguments l).2)) info.toNat =
      ModeInfo.packed m S.systemInfo

/-! ## The tables among the rest -/

theorem mapKernel_outside {T : BootTables} {m : Memory} {b : Nat}
    (hb : ∀ f ∈ T.all, b < 0x1000 * f ∨ 0x1000 * f + 0x1000 ≤ b) : mapKernel T m b = m b := by
  have hset : ∀ f ∈ T.all, ∀ (m : Memory) (i e : Nat), i < 512 →
      setEntry m (0x1000 * f) i e b = m b := fun f hf m i e hi => setEntry_outside hi (hb f hf)
  have hfill : ∀ i ∈ List.finRange 512, ∀ m, fillEntries T m i b = m b := by
    intro i _ m
    rw [fillEntries, hset T.ptlow (by simp [BootTables.all]) _ _ _ i.isLt,
      hset T.pt (by simp [BootTables.all]) _ _ _ i.isLt]
  have hlink : ∀ m, linkTables T m b = m b := by
    intro m
    simp only [linkTables]
    rw [hset T.pmdlow (by simp [BootTables.all]) _ _ _ (by decide),
      hset T.pmd (by simp [BootTables.all]) _ _ _ (by decide),
      hset T.pud (by simp [BootTables.all]) _ _ _ (by decide),
      hset T.pudlow (by simp [BootTables.all]) _ _ _ (by decide),
      hset T.pml4 (by simp [BootTables.all]) _ _ _ (by decide),
      hset T.pml4 (by simp [BootTables.all]) _ _ _ (by decide)]
  rw [mapKernel, foldl_outside hfill, hlink, foldl_outside fun i _ _ => clearEntries_outside i hb]

theorem collected_outside {m : Memory} {entries b : Nat} {map : MemoryMap}
    (hmap : map.entries.length ≤ 4) (hb : b < entries ∨ entries + entriesSize ≤ b) :
    collected m entries map b = m b := by
  have hsize : entriesSize = 120 := rfl
  rw [collected, loop_fst, storeEntries_outside (by omega)]
  exact fill_outside 0 hb

/-! ## The whole way -/

section Way

variable {S : FirstStage} {R : Residents} {m : Memory} {map : MemoryMap} {locals ebp b : Nat}
  {rets : Nat → Nat}

theorem FirstStage.arguments (hlocals : locals + 44 ≤ 0x5000) :
    startArguments (S.handOff m map locals ebp rets) = (S.entries, S.systemInfo) := by
  have hinside := S.inside
  have hsize : entriesSize = 120 := rfl
  exact (handOff_frame S.tables S.systemInfo S.entries ebp rets (by omega)
    (by rw [FirstStage.entries]; omega) hlocals S.behind).1

/-- The first stage's data is as it was collected when `map_kernel` has run. -/
theorem FirstStage.kept (hlocals : locals + 44 ≤ 0x5000) (hlow : S.systemInfo ≤ b)
    (hhigh : b < S.entries + entriesSize) :
    mapKernel R.tables (S.handOff m map locals ebp rets).mem b = collected m S.entries map b := by
  have hinside := S.inside
  have hsize : entriesSize = 120 := rfl
  have hentries : S.entries = S.systemInfo + 512 := rfl
  obtain ⟨_, _, m', habove, hmem⟩ := handOff_frame S.tables S.systemInfo S.entries
    (s := ⟨collected m S.entries map, 0x5000⟩) ebp rets (by omega) (by omega) hlocals S.behind
  rw [mapKernel_outside fun f hf => Or.inl ?_]
  · refine (hmem b (by show 0x5000 ≤ b; omega)).trans ?_
    rw [identityMap1gb_outside (S.apart b hlow (by omega))]
    exact habove b (by show 0x5000 ≤ b; omega)
  · have htables := (R.tables_in_image f hf).1
    omega

/-- Memory that agrees with the first stage's data delivers it. -/
theorem delivered_of_data {m' : Memory} (hlocals : locals + 44 ≤ 0x5000)
    (hmap : map.entries.length ≤ 4)
    (hdata : ∀ b, S.systemInfo ≤ b → b < S.entries + entriesSize → m' b = collected m S.entries map b) :
    Delivered S m map (S.handOff m map locals ebp rets) m' := by
  have hinside := S.inside
  have hsize : entriesSize = 120 := rfl
  have hentries : S.entries = S.systemInfo + 512 := rfl
  have hentry : ∀ i ≤ 4, e820Entry m' S.entries i = e820Entry (collected m S.entries map) S.entries i :=
    fun i hi => e820Entry_congr fun b _ _ => hdata b (by omega) (by omega)
  have hscanned : processed (e820Entry m' S.entries) 50 0 = map.entries := by
    have hall : map.entries.take 50 = map.entries := List.take_of_length_le (by omega)
    rw [← hall]
    refine processed_eq_take (fun i hi => ?_) ?_ map.nonzero 50
    · rw [Nat.zero_add, hentry i (by omega), collected, loop_fst, e820Entry_storeEntries _ _ _ hi]
    · rw [Nat.zero_add, hentry _ hmap]
      exact e820Entry_after hmap
  refine ⟨FirstStage.arguments hlocals, ?_, fun kernel g => ?_, fun info hinfo => ?_⟩
  · rw [FirstStage.arguments hlocals]
    exact hscanned
  · have htake : map.entries.take 50 = map.entries := List.take_of_length_le (by omega)
    rw [FirstStage.arguments hlocals]
    simp only [initPmm, initPmmSearch, initPmmLoop_eq, hscanned, processed_place, htake]
  · have hp : (UInt32.ofNat S.systemInfo).toNat = S.systemInfo := toNat_ofNat_lt (by omega)
    rw [FirstStage.arguments hlocals, packed_initVesa m' _ hinfo, hp]
    refine ModeInfo.packed_congr fun k hk => ?_
    rw [hdata _ (by omega) (by omega), collected_outside hmap (Or.inl (by omega))]

end Way

variable {disk : Disk} {phys : Nat → Nat} {e : Nat} {chain : List Nat} {s : Fat}

/-- The records of the BIOS and its mode block reach the kernel: while the loader runs, their
place is needed for nothing else. -/
theorem firmware_delivered (S : FirstStage) (R : Residents) (m : Memory) (map : MemoryMap)
    {locals : Nat} (ebp : Nat) (rets : Nat → Nat) (hlocals : locals + 44 ≤ 0x5000)
    (hmap : map.entries.length ≤ 4)
    (hphys : ∀ v p, R.translate (S.handOff m map locals ebp rets).mem v = some p → phys v = p)
    (hfile : FileAt disk e chain) (hexp : Expected disk e chain)
    (hname : ∀ n < 11, bootName n = rootBytes disk (32 * (e + 1) + n))
    (hinit : initFat disk Kernel.Storage.Fat32.zeroFiles = some s)
    (hroom : 512 * chain.length ≤ R.stackLow) :
    ∃ run, (∀ fuel, chain.length ≤ fuel →
        load R disk phys (S.handOff m map locals ebp rets) fuel = some run) ∧
      run.ending = .ended ∧ Delivered S m map (S.handOff m map locals ebp rets) run.mem := by
  have hinside := S.inside
  have hstack := R.fat_on_stack
  obtain ⟨run, hrun, hend, _, hkept⟩ := loaderMain_run R _
    (mapKernel R.tables (S.handOff m map locals ebp rets).mem) hphys hfile hexp hname hinit hroom
  refine ⟨run, hrun, hend, delivered_of_data hlocals hmap fun b hlow hhigh => ?_⟩
  rw [hkept b (by omega) (by omega)]
  exact FirstStage.kept hlocals hlow hhigh

/-- The mode the loader asks for, in the block at 0x7f00. -/
def modeBytes : List (Nat × List UInt8) :=
  [(0x7f10, [0, 8, 0, 4, 0, 3]), (0x7f19, [16]), (0x7f2b, [0xfd])]

def modeBlock : Memory := fun a =>
  (modeBytes.findSome? (fun r => if r.1 ≤ a then r.2[a - r.1]? else none)).getD 0

def sampleFirstStage : FirstStage where
  tables := SetupLongmode.sampleFirstTables
  systemInfo := 0x7f00
  inside := by decide
  apart := by
    intro b _ hb f hf
    have hall : ∀ f ∈ SetupLongmode.sampleFirstTables.all, 9 ≤ f := by decide
    have hsize : entriesSize = 120 := rfl
    have hlow := hall f hf
    omega
  behind := by decide

/-- The machine of the sample at the entry of the loader. -/
def sampleMachine : Machine64 :=
  sampleFirstStage.handOff modeBlock twoRegions 24 0 (fun _ => 0x7e00)

def sampleAddress (v : Nat) : Nat :=
  (sampleResidents.translate sampleMachine.mem v).getD 0

theorem sampleAddress_eq (v p : Nat) (h : sampleResidents.translate sampleMachine.mem v = some p) :
    sampleAddress v = p := by
  rw [sampleAddress, h, Option.getD_some]

theorem firmware_delivered_two :
    ∃ run, (∀ fuel, 2 ≤ fuel →
        load sampleResidents (bootDisk shortTable) sampleAddress sampleMachine fuel = some run) ∧
      run.ending = .ended ∧
      Delivered sampleFirstStage modeBlock twoRegions sampleMachine run.mem := by
  have hinit : (initFat (bootDisk shortTable) Kernel.Storage.Fat32.zeroFiles).isSome := by
    decide +kernel
  obtain ⟨s, hinit⟩ := Option.isSome_iff_exists.mp hinit
  exact firmware_delivered sampleFirstStage sampleResidents modeBlock twoRegions 0
    (fun _ => 0x7e00) (by decide) (by decide) sampleAddress_eq bootDisk_fileAt bootDisk_expected
    (by decide +kernel) hinit (by decide)

end PaskakasaOS.Boot.FromFirmware
