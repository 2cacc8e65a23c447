import PaskakasaOS.Boot.FromFirmware
import PaskakasaOS.Kernel.Interrupts.Idt
import PaskakasaOS.Kernel.Memory.PoolSelection
import PaskakasaOS.Kernel.Utils.InstallFont

/-!
# `start` of `kernel/start.c`, up to its own page tables

The pool comes from the firmware's memory map, the mode from its mode block, the font from
the volume the loader has read the kernel from. Until `init_paging` has loaded its tables the
kernel runs on those of the loader, which reach up to 2 MiB.
-/
namespace PaskakasaOS.Kernel.Start

open Lib.ByteMemory
open Boot.Stage2 (bootName kernelAddr)
open Boot.LoadedImage (virtualByte loaderMain_run physicalAddress_kept)
open Boot.LoaderPlacement (Residents translate_kernel)
open Boot.HandOff (startArguments)
open Boot.FromFirmware
open Boot.MapKernel (mapKernel)
open Interrupts.Idt (setupInterrupts setupInterrupts_eq rounds_outside gateAt gateAt_rounds gateAt_congr
  kernelGate)
open Memory.Pmm Memory.Vmm Memory.InitPaging Memory.InitPmm Memory.PoolSelection
open Memory.LastFrames (resize resize_mem)
open Memory.FrameOwnership (initPaging_resize)
open Storage.AtaPio Storage.Fat32 Storage.Volume Storage.ReadFile
open Utils.InstallFont Utils.Vesa
open Utils.TextTerminal (Console Sizes initTextTerminal)
open Utils.TerminalContents (zeroConsole)

/-- The kernel's image, and where it has the globals that `start` fills. -/
structure Places where
  image : KernelImage
  info : UInt64
  idt : Nat
  header : UInt64
  glyphs : UInt64
  vector0Handler : UInt64

/-- The globals with their sizes. -/
def Places.globals (K : Places) : List (Nat × Nat) :=
  [(K.header.toNat, 32), (K.glyphs.toNat, 4096), (K.info.toNat, 256), (K.idt, 4096)]

/-- The globals do not overlap and lie below the pool. -/
structure Places.Apart (K : Places) (base : Nat) : Prop where
  below : ∀ o ∈ K.globals, o.1 + o.2 ≤ base
  disjoint : K.globals.Pairwise (fun o p => o.1 + o.2 ≤ p.1 ∨ p.1 + p.2 ≤ o.1)

/-- An address that belongs to none of them. -/
def Places.Spares (K : Places) (b : Nat) : Prop := ∀ o ∈ K.globals, b < o.1 ∨ o.1 + o.2 ≤ b

/-- `"FONT    PSF"` -/
def fontName : Memory := fun n => [70, 79, 78, 84, 32, 32, 32, 32, 80, 83, 70].getD n 0

/-- The memory behind a call of `read_file`, whose value `start` does not look at. -/
def afterCall : Outcome → Option Memory
  | .returns _ m => some m
  | .fallsOff m => some m
  | .undefined => none
  | .running => none

/-- The sizes that `init_text_terminal` finds in `info` and `header`. -/
def Places.sizes (K : Places) (m : Memory) : Sizes where
  vesaHeight := (ModeInfo.packed m K.info.toNat).height
  vesaWidth := (ModeInfo.packed m K.info.toNat).width
  headerHeight := (PSFv2.packed m K.header.toNat).height
  headerWidth := (PSFv2.packed m K.header.toNat).width

/-- `start` up to the end of `init_paging`; `none` also stands for a division by zero. -/
def start (K : Places) (disk : Disk) (fuel : Nat) (m : Memory) (terminal : Console)
    (memorymaps vesa : Nat) : Option (Vm × Console) := do
  let g := initPmm K.image m memorymaps zeroGlobals
  let m := initVesa m K.info (UInt32.ofNat vesa)
  let m := (setupInterrupts m K.idt K.vector0Handler).1
  let (font, pool) ← pmmAllocate g.pool
  let fat ← initFat disk zeroFiles
  let m ← afterCall (readFile disk fat fontName font m fuel)
  let m := installFont m K.header K.glyphs (UInt64.ofNat font)
  if (K.sizes m).headerHeight = 0 ∨ (K.sizes m).headerWidth = 0 then none
  else
    let terminal := initTextTerminal (K.sizes m) terminal
    let vm ← initPaging m pool (getFramebuffer m K.info).toNat
    some (vm, terminal)

/-- What the kernel has when it runs on its own tables. -/
structure Started (K : Places) (F : Font) (I : ModeInfo) (base : Nat) (m : Memory) (vm : Vm) :
    Prop where
  font : Installed F vm.mem K.header K.glyphs
  mode : ModeInfo.packed vm.mem K.info.toNat = I
  gate : ∀ n < 256, gateAt vm.mem (K.idt + 16 * n) =
    kernelGate (K.vector0Handler + UInt64.ofNat n * 16).toNat
  mapped : ∀ v, Canonical v → physicalAddress vm.mem vm.pml v = intended I.framebuffer.toNat v
  kept : ∀ b, K.Spares b → b < base ∨ base + 0x1000 * 49 ≤ b → vm.mem b = m b

theorem firstFree_fresh {pool : Pool} (hfresh : pool.bitmap = Vector.replicate 100 0)
    (hpages : 0 < pool.pages) : firstFree pool = 0 := by
  have hfree : IsFree pool 0 := ⟨hpages, by rw [hfresh]; rfl⟩
  have hpos : 0 < freeFrames pool := by
    rw [freeFrames_fresh hfresh]
    omega
  obtain ⟨_, htaken⟩ := firstFree_spec hpos
  by_contra hne
  exact htaken 0 (Nat.pos_of_ne_zero hne) hfree

variable {disk : Disk} {e : Nat} {chain : List Nat} {fat : Fat} {I : ModeInfo} {P : Pool}

/-- The pool `P` as if it ended behind the frames that `start` takes at most. -/
structure Narrowed (P Q : Pool) : Prop where
  whole : Q.resize P.pages = P
  base : Q.base = P.base
  pages : Q.pages = 49
  framed : Framed Q
  free : freeFrames Q = 49
  first : PAGESIZE * frameNumber Q (firstFree Q) = Q.base

theorem narrowed (hfresh : P.bitmap = Vector.replicate 100 0) (hf : Framed P) (hpages : 49 ≤ P.pages) :
    Narrowed P (P.resize 49) where
  whole := rfl
  base := rfl
  pages := rfl
  framed := hf.resize hpages
  free := freeFrames_fresh hfresh
  first := by
    have haligned : P.base % PAGESIZE = 0 := hf.aligned
    have hfirst : firstFree (P.resize 49) = 0 := firstFree_fresh hfresh (Nat.zero_lt_succ 48)
    have hbase : (P.resize 49).base = P.base := rfl
    rw [hfirst, frameNumber, hbase]
    rw [PAGESIZE] at *
    omega

theorem start_spec (K : Places) (F : Font) (m : Memory) (terminal : Console) (memorymaps vesa : Nat)
    (hfile : FileAt disk e chain) (hexp : Expected disk e chain)
    (hinit : initFat disk zeroFiles = some fat)
    (hpath : ∀ n < 11, fontName n = rootBytes disk (32 * (e + 1) + n))
    (hone : sectorsPerCluster disk = 1)
    (hbytes : ∀ j < 4128, (fileBytes disk chain)[j]? = some (F.byte j))
    (hglyph : F.header.height ≠ 0 ∧ F.header.width ≠ 0)
    (hpool : (initPmm K.image m memorymaps zeroGlobals).pool = P)
    (hmode : ModeInfo.packed (initVesa m K.info (UInt32.ofNat vesa)) K.info.toNat = I)
    (hf : Framed P) (hpages : 49 ≤ P.pages) (hK : K.Apart P.base)
    (hal : I.framebuffer.toNat % 4096 = 0) (hend : I.framebuffer.toNat + 6400 * 4096 ≤ 2 ^ 32) :
    ∃ vm, (∀ fuel, chain.length ≤ fuel → start K disk fuel m terminal memorymaps vesa = some (vm,
        initTextTerminal ⟨I.height, I.width, F.header.height, F.header.width⟩ terminal)) ∧
      Started K F I P.base m vm := by
  have hfresh : P.bitmap = Vector.replicate 100 0 := by
    rw [← hpool]
    rfl
  have hneed := framesNeeded_le hend
  obtain ⟨hwhole, hbase49, hpages49, hf, hfree, hbase⟩ := narrowed hfresh hf hpages
  generalize P.resize 49 = Q at hwhole hbase49 hpages49 hf hfree hbase
  rw [← hbase49] at hK ⊢
  have hphys := hf.physical
  have hbelow := hK.below
  have hapart := hK.disjoint
  simp only [Places.globals, List.mem_cons, List.not_mem_nil, or_false, forall_eq_or_imp, forall_eq,
    List.pairwise_cons, List.Pairwise.nil] at hbelow hapart
  obtain ⟨hheader, hglyphs, hinfo, hidt⟩ := hbelow
  obtain ⟨⟨hheaderGlyphs, hheaderInfo, hheaderIdt⟩, ⟨hglyphsInfo, hglyphsIdt⟩, hinfoIdt, _⟩ := hapart
  -- memory behind `setup_interrupts`
  generalize hm2 : Interrupts.Idt.rounds (initVesa m K.info (UInt32.ofNat vesa)) K.idt
    K.vector0Handler 256 = m2
  have hvesa : ∀ b, b < K.idt ∨ K.idt + 16 * 256 ≤ b →
      m2 b = initVesa m K.info (UInt32.ofNat vesa) b := by
    intro b hb
    rw [← hm2]
    exact rounds_outside (Nat.le_refl 256) hb
  have hgates : ∀ n < 256, gateAt m2 (K.idt + 16 * n) =
      kernelGate (K.vector0Handler + UInt64.ofNat n * 16).toNat := by
    intro n hn
    rw [← hm2]
    exact gateAt_rounds (Nat.le_refl 256) hn
  obtain ⟨pool', m', ha, _, hcount, hread, hinstalled, hstored⟩ := font_stored F fontName m2 hfile
    hexp hinit hpath hone hbytes hf ⟨hheader, hglyphs, hheaderGlyphs⟩ (by omega)
  rw [hbase] at ha hread hinstalled hstored
  have hlater := pmmAllocate_later ha
  have hwide := pmmAllocate_resize (by omega) (hpages49.trans_le hpages) ha
  rw [hwhole] at hwide
  have hlength := hexp.length_le hfile
  -- memory behind `install_font`
  generalize hm4 : installFont m' K.header K.glyphs (UInt64.ofNat Q.base) = m4 at hinstalled hstored
  have hinfo4 : ModeInfo.packed m4 K.info.toNat = I := by
    rw [← hmode]
    refine ModeInfo.packed_congr fun k hk => ?_
    rw [hstored _ (by omega) (by omega) (by omega), hvesa _ (by omega)]
  have hsizes : K.sizes m4 = ⟨I.height, I.width, F.header.height, F.header.width⟩ := by
    rw [Places.sizes, hinfo4, hinstalled.header]
  obtain ⟨vm, hvm, hwhole, hmap⟩ := initPaging_resize m4 (hlater.framed hf) hal hend (by omega)
    (hlater.pages.trans_le (hpages49.trans_le hpages))
  have hkept : ∀ b, b < Q.base ∨ Q.base + PAGESIZE * 49 ≤ b → (resize vm P.pages).mem b = m4 b := by
    intro b hb
    rw [← hpages49] at hb
    rw [resize_mem]
    exact initPaging_kept hlater hf (by omega) hvm hb
  refine ⟨resize vm P.pages, fun fuel hfuel => ?_, ?_, ?_, fun n hn => ?_, hmap, fun b hspares hb => ?_⟩
  · unfold start
    simp only [hpool, hwide, hinit, Option.bind_eq_bind, Option.bind_some, setupInterrupts_eq, hm2,
      hread fuel hfuel, afterCall, hm4, getFramebuffer, hinfo4, hsizes, hwhole]
    rw [if_neg (not_or.mpr hglyph)]
  · exact hinstalled.congr (fun k hk => hkept _ (by omega)) fun k hk => hkept _ (by omega)
  · rw [← hinfo4]
    exact ModeInfo.packed_congr fun k hk => hkept _ (by omega)
  · rw [← hgates n hn]
    refine gateAt_congr fun k hk => ?_
    rw [hkept _ (by omega), hstored _ (by omega) (by omega) (by omega)]
  · simp only [Places.Spares, Places.globals, List.mem_cons, List.not_mem_nil, or_false,
      forall_eq_or_imp, forall_eq] at hspares
    obtain ⟨h1, h2, h3, h4⟩ := hspares
    rw [hkept b (by rw [PAGESIZE]; omega), hstored b h1 h2 (by omega), hvesa b (by omega),
      initVesa_eq m _ (by omega), Utils.Mem.memmoveInto_outside h3]

/-! ## From the firmware on -/

/-- The volume the machine starts from, with the files of the loader and of the kernel. -/
structure SystemVolume (disk : Disk) (F : Font) where
  bootEntry : Nat
  bootChain : List Nat
  boot : FileAt disk bootEntry bootChain
  bootExpected : Expected disk bootEntry bootChain
  bootNamed : ∀ n < 11, bootName n = rootBytes disk (32 * (bootEntry + 1) + n)
  fontEntry : Nat
  fontChain : List Nat
  font : FileAt disk fontEntry fontChain
  fontExpected : Expected disk fontEntry fontChain
  fontNamed : ∀ n < 11, fontName n = rootBytes disk (32 * (fontEntry + 1) + n)
  fontBytes : ∀ j < 4128, (fileBytes disk fontChain)[j]? = some (F.byte j)
  glyphSize : F.header.height ≠ 0 ∧ F.header.width ≠ 0
  oneSector : sectorsPerCluster disk = 1
  fat : Fat
  table : initFat disk zeroFiles = some fat

/-- The record of the memory map that becomes the pool leaves it the 49 frames that `start` takes
at most, where the loader's tables reach, and these lie below, apart from the globals. -/
structure PoolSuits (K : Places) (R : Residents) (entry : E820Entry) : Prop where
  aligned : poolBase K.image entry % 0x1000 = 0
  pages : 49 ≤ poolLength K.image entry / 0x1000
  mapped : poolBase K.image entry + 0x1000 * 49 ≤ 0x200000
  globals : K.Apart (poolBase K.image entry)
  below : ∀ f ∈ R.tables.all, 0x1000 * f + 0x1000 ≤ poolBase K.image entry
  tables : ∀ f ∈ R.tables.all, ∀ b, 0x1000 * f ≤ b → b < 0x1000 * f + 0x1000 → K.Spares b

theorem Started.within {K : Places} {F : Font} {base b : Nat} {m : Memory} {vm : Vm}
    (h : Started K F I base m vm) (hK : K.Apart base) (hb : base + 0x1000 * 49 ≤ b) :
    vm.mem b = m b := by
  refine h.kept b (fun o ho => ?_) (Or.inr hb)
  have hbelow := hK.below o ho
  omega

/-- The kernel's own tables show what stands in low memory at its link address. -/
theorem Started.virtualByte {K : Places} {F : Font} {base j : Nat} {m : Memory} {vm : Vm}
    (h : Started K F I base m vm) (hj : j < base) (hlow : j < 6400 * 4096) (hspares : K.Spares j) :
    virtualByte vm.mem vm.pml (kernelAddr + j) = some (m j) := by
  have haddr : kernelAddr = kernelStart := rfl
  have hstart : kernelStart = 0xFFFFFFFF80000000 := rfl
  have hcanonical : Canonical (kernelStart + j) := by
    unfold Canonical
    omega
  rw [Boot.LoadedImage.virtualByte, haddr, h.mapped _ hcanonical, intended, if_pos (by omega),
    Nat.add_sub_cancel_left, Option.map_some, h.kept j hspares (Or.inl hj)]

/-- From the answers of the BIOS and the volume to the kernel's own tables: the pool is the one
of the firmware's first usable record, the terminal has the font of the file and the mode of
the block, every byte that has changed is one the loader's tables still map, and besides the
globals the kernel is the file that was loaded. -/
theorem start_boots {disk : Disk} {F : Font} (V : SystemVolume disk F) (S : FirstStage)
    (R : Residents) (K : Places) (m : Memory) (map : MemoryMap) {entry : E820Entry} {locals : Nat}
    (ebp : Nat) (rets : Nat → Nat) (terminal : Console) {phys : Nat → Nat}
    (hlocals : locals + 44 ≤ 0x5000)
    (hphys : ∀ v p, R.translate (S.handOff m map locals ebp rets).mem v = some p → phys v = p)
    (hroom : 512 * V.bootChain.length ≤ R.stackLow) (hmap : map.entries.length ≤ 4)
    (hchosen : chosen map.entries = some entry) (hsuits : PoolSuits K R entry)
    (hal : (ModeInfo.packed m S.systemInfo).framebuffer.toNat % 4096 = 0)
    (hend : (ModeInfo.packed m S.systemInfo).framebuffer.toNat + 6400 * 4096 ≤ 2 ^ 32) :
    let l := S.handOff m map locals ebp rets
    let I := ModeInfo.packed m S.systemInfo
    ∃ run vm, (∀ fuel, V.bootChain.length ≤ fuel → load R disk phys l fuel = some run) ∧
      run.ending = .ended ∧
      (∀ fuel, V.fontChain.length ≤ fuel →
        start K disk fuel run.mem terminal (startArguments l).1 (startArguments l).2 = some (vm,
          initTextTerminal ⟨I.height, I.width, F.header.height, F.header.width⟩ terminal)) ∧
      Started K F I (poolBase K.image entry) run.mem vm ∧
      (∀ b, vm.mem b ≠ run.mem b →
        physicalAddress vm.mem (0x1000 * R.tables.pml4) (kernelAddr + b) = some b) ∧
      ∀ j x, (fileBytes disk V.bootChain)[j]? = some x → K.Spares j →
        virtualByte vm.mem vm.pml (kernelAddr + j) = some x := by
  intro l I
  have hstack := R.fat_on_stack
  obtain ⟨run, hrun, hended, hsectors, hkept⟩ := loaderMain_run R _ (mapKernel R.tables l.mem) hphys
    V.boot V.bootExpected V.bootNamed V.table hroom
  have hinside := S.inside
  have hdelivered : Delivered S m map l run.mem := by
    refine delivered_of_data hlocals hmap fun b hlow hhigh => ?_
    rw [hkept b (by omega) (by omega)]
    exact FirstStage.kept hlocals hlow hhigh
  have htake : map.entries.take 50 = map.entries := List.take_of_length_le (by omega)
  obtain ⟨_, hbase, hpages⟩ := initPmm_some K.image map m S.entries zeroGlobals
    (htake.symm ▸ hchosen)
  rw [← hdelivered.pool] at hbase hpages
  have haligned := hsuits.aligned
  have hmapped := hsuits.mapped
  have hcount := hsuits.pages
  have hbehind : 0xd000 ≤ poolBase K.image entry := by
    have hpml4 : R.tables.pml4 ∈ R.tables.all := by simp [Boot.MapKernel.BootTables.all]
    have himage := (R.tables_in_image _ hpml4).1
    have hbelow := hsuits.below _ hpml4
    omega
  have hinfo := hsuits.globals.below (K.info.toNat, 256) (by simp [Places.globals])
  obtain ⟨vm, hstart, hstarted⟩ := start_spec K F run.mem terminal (startArguments l).1
    (startArguments l).2 V.font V.fontExpected V.table V.fontNamed V.oneSector V.fontBytes V.glyphSize rfl
    (hdelivered.mode K.info (by omega)) ⟨by rw [hbase, PAGESIZE]; exact haligned, by
      rw [hbase, PAGESIZE]; omega⟩ (hpages ▸ hcount) (hbase ▸ hsuits.globals) hal hend
  rw [hbase] at hstarted
  refine ⟨run, vm, hrun, hended, hstart, hstarted, fun b hb => ?_, fun j x hj hspares => ?_⟩
  · have hlow : b < 0x200000 := by
      by_contra hhigh
      exact hb (hstarted.within hsuits.globals (by omega))
    rw [physicalAddress_kept l.mem fun f hf b hb hb' => ?_]
    · exact translate_kernel R l.mem hlow
    · have himage := (R.tables_in_image f hf).1
      have hbelow := hsuits.below f hf
      rw [hstarted.kept b (hsuits.tables f hf b hb hb') (Or.inl (by omega)),
        hkept b (by omega) (by omega)]
  · have hbyte := fileBytes_of_sectors V.boot V.oneSector hsectors hj
    rw [Nat.zero_add] at hbyte
    have hlength : j < 512 * V.bootChain.length := by
      rw [fileBytes_getElem? V.boot.clusterSize, V.oneSector, Nat.mul_one] at hj
      obtain ⟨d, hd, _⟩ := Option.map_eq_some_iff.mp hj
      obtain ⟨hlt, _⟩ := List.getElem?_eq_some_iff.mp hd
      omega
    rw [hstarted.virtualByte (by omega) (by omega) hspares, hbyte]

/-- The volume of `fontVolume` with a second file, `BOOT.BIN` in clusters 12 and 13. -/
def systemBytes : List (Nat × List UInt8) :=
  fontVolume ++ [(512 * 0x801 + 48, [13, 0, 0, 0, 0xff, 0xff, 0xff, 0x0f]),
    (512 * 0x802 + 64, [0x41]), (512 * 0x802 + 75, [0x0f]),
    (512 * 0x802 + 96, [66, 79, 79, 84, 32, 32, 32, 32, 66, 73, 78, 0x20]),
    (512 * 0x802 + 122, [12, 0, 0x58, 2]), (512 * 0x80c, [0xeb, 0xfe])]

def systemDisk : Disk := fun a =>
  (systemBytes.findSome? (fun r => if r.1 ≤ a then r.2[a - r.1]? else none)).getD 0

theorem systemDisk_blank {a : Nat} (ha : 512 * 0x803 + 29 ≤ a) (hend : a < 512 * 0x80c) :
    systemDisk a = 0 := by
  have hnone : ∀ r ∈ systemBytes, (if r.1 ≤ a then r.2[a - r.1]? else none) = none := by
    intro r hr
    have hall : ∀ r ∈ systemBytes, r.1 + r.2.length ≤ 512 * 0x803 + 29 ∨ 512 * 0x80c ≤ r.1 := by
      decide
    rcases hall r hr with hbefore | hbehind
    · rw [if_pos (by omega), List.getElem?_eq_none (by omega)]
    · rw [if_neg (by omega)]
  rw [systemDisk, List.findSome?_eq_none_iff.mpr hnone, Option.getD_none]

theorem systemDisk_first : ∀ d < 16, ∀ e < 4,
    rootBytes systemDisk (32 * d) = rootBytes systemDisk (32 * e) → e = 1 ∨ e = 3 → d = e := by
  decide +kernel

theorem systemDisk_font : FileAt systemDisk 0 fontChain where
  sectorSize := by decide +kernel
  root := by decide +kernel
  clusterSize := by decide +kernel
  firstSector := by decide
  nonzero := by decide +kernel
  longUsed := by decide +kernel
  long := by decide +kernel
  regular := ⟨by decide +kernel, by decide +kernel, by decide +kernel⟩
  first := by decide +kernel
  linked := by decide +kernel
  ended := by decide +kernel
  acyclic := by decide
  inside := by decide +kernel
  size := by decide +kernel

theorem systemDisk_boot : FileAt systemDisk 2 [12, 13] where
  sectorSize := by decide +kernel
  root := by decide +kernel
  clusterSize := by decide +kernel
  firstSector := by decide
  nonzero := by decide +kernel
  longUsed := by decide +kernel
  long := by decide +kernel
  regular := ⟨by decide +kernel, by decide +kernel, by decide +kernel⟩
  first := by decide +kernel
  linked := by decide +kernel
  ended := by decide +kernel
  acyclic := by decide
  inside := by decide +kernel
  size := by decide +kernel

theorem systemDisk_fontExpected : Expected systemDisk 0 fontChain where
  lba28 := by decide +kernel
  firstFatSector := by decide
  reservedBits := by decide +kernel
  endMark := by decide +kernel
  uniqueName := fun d hd _ hname => systemDisk_first d hd 1 (by decide) (hname 0 (by decide)) (Or.inl rfl)

theorem systemDisk_bootExpected : Expected systemDisk 2 [12, 13] where
  lba28 := by decide +kernel
  firstFatSector := by decide
  reservedBits := by decide +kernel
  endMark := by decide +kernel
  uniqueName := fun d hd _ hname => systemDisk_first d hd 3 (by decide) (hname 0 (by decide)) (Or.inr rfl)

def samplePlaces : Places where
  image := kernel64K
  info := 0x90100
  idt := 0x92000
  header := 0x90000
  glyphs := 0x91000
  vector0Handler := 0xFFFFFFFF80003010

theorem samplePlaces_suits :
    PoolSuits samplePlaces Boot.LoaderPlacement.sampleResidents ⟨0x100000, 0x7EE0000, 1, 0⟩ where
  aligned := by decide
  pages := by decide
  mapped := by decide
  globals := ⟨by decide, by decide⟩
  below := by decide
  tables := by
    intro f hf b _ hb o ho
    have hframe : ∀ f ∈ Boot.LoaderPlacement.sampleResidents.tables.all, f < 0x17 := by decide
    have hglobal : ∀ o ∈ samplePlaces.globals, 0x90000 ≤ o.1 := by decide
    have hf := hframe f hf
    have ho := hglobal o ho
    omega

/-- A machine with 127 MiB and a kernel of one jump to itself. -/
theorem start_boots_sample :
    ∃ run vm, (∀ fuel, 2 ≤ fuel →
        load Boot.LoaderPlacement.sampleResidents systemDisk sampleAddress sampleMachine fuel =
          some run) ∧
      (∀ fuel, 9 ≤ fuel →
        start samplePlaces systemDisk fuel run.mem zeroConsole (startArguments sampleMachine).1
          (startArguments sampleMachine).2 =
            some (vm, initTextTerminal ⟨768, 1024, 16, 8⟩ zeroConsole)) ∧
      Started samplePlaces blankFont (ModeInfo.packed modeBlock 0x7f00) 0x111000 run.mem vm ∧
      virtualByte vm.mem vm.pml 0xFFFFFFFF80000000 = some 0xeb := by
  have hinit : (initFat systemDisk zeroFiles).isSome := by decide +kernel
  obtain ⟨fat, hfat⟩ := Option.isSome_iff_exists.mp hinit
  have hone : sectorsPerCluster systemDisk = 1 := by decide +kernel
  let V : SystemVolume systemDisk blankFont :=
    { bootEntry := 2
      bootChain := [12, 13]
      boot := systemDisk_boot
      bootExpected := systemDisk_bootExpected
      bootNamed := by decide +kernel
      fontEntry := 0
      fontChain := fontChain
      font := systemDisk_font
      fontExpected := systemDisk_fontExpected
      fontNamed := by decide +kernel
      fontBytes := fun j hj => blankFont_bytes (by omega) hone (by decide +kernel) (by decide +kernel)
        (fun a ha hend => systemDisk_blank ha hend) hj
      glyphSize := by decide
      oneSector := hone
      fat := fat
      table := hfat }
  have hroom : 512 * 2 ≤ Boot.LoaderPlacement.sampleResidents.stackLow := by decide
  obtain ⟨run, vm, hrun, _, hstart, hstarted, _, himage⟩ := start_boots V sampleFirstStage
    Boot.LoaderPlacement.sampleResidents samplePlaces modeBlock twoRegions 0 (fun _ => 0x7e00)
    zeroConsole (by decide) sampleAddress_eq hroom (by decide) (by decide) samplePlaces_suits
    (by decide) (by decide)
  have hfirst : (fileBytes systemDisk [12, 13])[0]? = some 0xeb := by decide +kernel
  have hspares : ∀ o ∈ samplePlaces.globals, 0 < o.1 := by decide
  exact ⟨run, vm, hrun, hstart, hstarted, himage 0 _ hfirst fun o ho => Or.inl (hspares o ho)⟩

end PaskakasaOS.Kernel.Start
