import PaskakasaOS.Kernel.Memory.FrameOwnership
import PaskakasaOS.Kernel.Storage.FileReads
import PaskakasaOS.Kernel.Utils.Screen
import PaskakasaOS.Lib.PackedRecord

/-!
# The font, from the volume to the glyph table

`start` takes one frame for `FONT.PSF` and has the file read to it. A font with 256
glyphs is longer than a frame, so its end lies in the next frame, which the pool still
counts as free and may hand out as `pml`. By then `install_font` has copied the header and
the bitmaps into arrays of the kernel. The pointers of the source are those of the
higher half; addresses here are the physical ones below them.
-/
namespace PaskakasaOS.Kernel.Utils.InstallFont

open Lib.ByteMemory Lib.PackedRecord
open Kernel.Memory.Pmm Kernel.Memory.Vmm Kernel.Memory.InitPaging
open Kernel.Memory.FrameOwnership (initPaging_contents)
open Kernel.Memory.LastFrames (mapPage_onward)
open Storage.AtaPio Storage.Fat32 Storage.Volume Storage.ReadFile
open Storage.FileReads (readFile_placed)
open Mem

/-! ## The format -/

/-- `PSFv2_t`. -/
@[ext] structure PSFv2 where
  magic : UInt32
  version : UInt32
  headersize : UInt32
  flags : UInt32
  numglyphs : UInt32
  bytesperglyph : UInt32
  height : UInt32
  width : UInt32

def psfWidths : List Nat := [4, 4, 4, 4, 4, 4, 4, 4]

/-- The fields of the structure at `a`. -/
def PSFv2.packed (m : Memory) (a : Nat) : PSFv2 :=
  let f := fun i => UInt32.ofNat (getField psfWidths m a i)
  { magic := f 0
    version := f 1
    headersize := f 2
    flags := f 3
    numglyphs := f 4
    bytesperglyph := f 5
    height := f 6
    width := f 7 }

def PSFv2.values (h : PSFv2) : List Nat :=
  [h.magic.toNat, h.version.toNat, h.headersize.toNat, h.flags.toNat, h.numglyphs.toNat,
    h.bytesperglyph.toNat, h.height.toNat, h.width.toNat]

/-- A font: its header, and row `r` of glyph `i`. -/
structure Font where
  header : PSFv2
  bitmap : Nat → Nat → UInt8

/-- Byte `j` of the file that holds the font. -/
def Font.byte (F : Font) (j : Nat) : UInt8 :=
  if j < 32 then storeFields psfWidths (fun _ => 0) 0 F.header.values 8 j
  else F.bitmap ((j - 32) / 16) ((j - 32) % 16)

/-! ## `install_font` -/

/-- The first `n` rounds of the loop. -/
def copyGlyphs (m : Memory) (glyphs ptr : UInt64) (n : Nat) : Memory :=
  (List.range n).foldl
    (fun m i => (memmove m (glyphs + UInt64.ofNat (16 * i)) (ptr + UInt64.ofNat (i * 16)) 16).2) m

/-- `install_font`, with the places of the globals `header` and `glyphs`. -/
def installFont (m : Memory) (header glyphs font : UInt64) : Memory :=
  let m := (memmove m header font 32).2
  let ptr := font + 32
  copyGlyphs m glyphs ptr 256

/-- The array `glyphs`, as `render_glyph` reads it. -/
def glyphTable (m : Memory) (glyphs : Nat) : Screen.Glyphs :=
  fun i row => m (((glyphs : Int) + 16 * i).toNat + row)

/-- The two globals lie below `limit` and do not overlap. -/
structure Objects (header glyphs : UInt64) (limit : Nat) : Prop where
  headerBelow : header.toNat + 32 ≤ limit
  glyphsBelow : glyphs.toNat + 4096 ≤ limit
  apart : header.toNat + 32 ≤ glyphs.toNat ∨ glyphs.toNat + 4096 ≤ header.toNat

section Install

variable {m m' : Memory} {header glyphs ptr font : UInt64} {n i r a b : Nat}

theorem copyGlyphs_succ : copyGlyphs m glyphs ptr (n + 1) =
    (memmove (copyGlyphs m glyphs ptr n) (glyphs + UInt64.ofNat (16 * n))
      (ptr + UInt64.ofNat (n * 16)) 16).2 := by
  rw [copyGlyphs, List.range_succ, List.foldl_append]
  rfl

theorem glyph_toNat {p : UInt64} (hp : p.toNat + 4096 ≤ 2 ^ 64) (hn : n < 256) :
    (p + UInt64.ofNat (16 * n)).toNat = p.toNat + 16 * n := by
  rw [UInt64.toNat_add, UInt64.toNat_ofNat']
  omega

/-- One round copies one bitmap. -/
theorem copyGlyphs_round (hglyphs : glyphs.toNat + 4096 ≤ 2 ^ 64) (hptr : ptr.toNat + 4096 ≤ 2 ^ 64)
    (hn : n < 256) : copyGlyphs m glyphs ptr (n + 1) =
      memmoveInto (copyGlyphs m glyphs ptr n) (glyphs.toNat + 16 * n) (copyGlyphs m glyphs ptr n)
        (ptr.toNat + 16 * n) 16 := by
  have hdst := glyph_toNat hglyphs hn
  have hsrc := glyph_toNat hptr hn
  rw [copyGlyphs_succ, Nat.mul_comm n 16,
    memmove_eq_memmoveInto _ (by rw [hdst]; show _ + 16 ≤ _; omega) (by rw [hsrc]; show _ + 16 ≤ _; omega),
    hdst, hsrc]
  rfl

theorem copyGlyphs_outside (hglyphs : glyphs.toNat + 4096 ≤ 2 ^ 64)
    (hptr : ptr.toNat + 4096 ≤ 2 ^ 64) (hn : n ≤ 256)
    (hb : b < glyphs.toNat ∨ glyphs.toNat + 16 * n ≤ b) : copyGlyphs m glyphs ptr n b = m b := by
  induction n with
  | zero => rfl
  | succ n ih =>
    rw [copyGlyphs_round hglyphs hptr (by omega), memmoveInto_outside (by omega)]
    exact ih (by omega) (by omega)

/-- The bitmaps are copied from behind the array, so none is overwritten before its round. -/
theorem copyGlyphs_inside (hptr : ptr.toNat + 4096 ≤ 2 ^ 64)
    (hbehind : glyphs.toNat + 4096 ≤ ptr.toNat) (hn : n ≤ 256) (hi : i < n) (hr : r < 16) :
    copyGlyphs m glyphs ptr n (glyphs.toNat + 16 * i + r) = m (ptr.toNat + 16 * i + r) := by
  have hglyphs : glyphs.toNat + 4096 ≤ 2 ^ 64 := by omega
  induction n with
  | zero => exact absurd hi (Nat.not_lt_zero i)
  | succ n ih =>
    rw [copyGlyphs_round hglyphs hptr (by omega)]
    rcases Nat.lt_succ_iff_lt_or_eq.mp hi with hlt | rfl
    · rw [memmoveInto_outside (by omega)]
      exact ih (by omega) hlt
    · rw [memmoveInto_inside hr]
      exact copyGlyphs_outside hglyphs hptr (by omega) (by omega)

theorem packed_congr (h : ∀ k < 32, m (a + k) = m' (b + k)) : PSFv2.packed m a = PSFv2.packed m' b := by
  have hfield : ∀ i < 8, getField psfWidths m a i = getField psfWidths m' b i :=
    fun i hi => getField_congr hi h
  simp (disch := decide) only [PSFv2.packed, hfield]

/-- The header is read back from the file as it is. -/
theorem packed_byte (F : Font) (h : ∀ k < 32, m (a + k) = F.byte k) : PSFv2.packed m a = F.header := by
  have hstored : ∀ k < 32, m (a + k) = storeFields psfWidths (fun _ => 0) 0 F.header.values 8 (0 + k) := by
    intro k hk
    rw [h k hk, Font.byte, if_pos hk, Nat.zero_add]
  have hfield : ∀ i < 8, ∀ x : UInt32, F.header.values.getD i 0 = x.toNat → psfWidths.getD i 0 = 4 →
      UInt32.ofNat (getField psfWidths (storeFields psfWidths (fun _ => 0) 0 F.header.values 8) 0 i) =
        x := by
    intro i hi x hx hw
    rw [getField_storeFields (Nat.le_refl 8) hi, hx, hw,
      Nat.mod_eq_of_lt (show _ < 256 ^ 4 from x.toNat_lt), UInt32.ofNat_toNat]
  rw [packed_congr hstored]
  exact PSFv2.ext (hfield 0 (by decide) _ rfl rfl) (hfield 1 (by decide) _ rfl rfl)
    (hfield 2 (by decide) _ rfl rfl) (hfield 3 (by decide) _ rfl rfl) (hfield 4 (by decide) _ rfl rfl)
    (hfield 5 (by decide) _ rfl rfl) (hfield 6 (by decide) _ rfl rfl) (hfield 7 (by decide) _ rfl rfl)

/-- The globals hold the font, as the terminal uses it. -/
structure Installed (F : Font) (m : Memory) (header glyphs : UInt64) : Prop where
  header : PSFv2.packed m header.toNat = F.header
  glyph : ∀ i : Nat, i < 256 → ∀ r < 16, glyphTable m glyphs.toNat i r = F.bitmap i r

theorem installFont_eq (m : Memory) (hheader : header.toNat + 32 ≤ 2 ^ 64)
    (hfont : font.toNat + 32 ≤ 2 ^ 64) :
    installFont m header glyphs font =
      copyGlyphs (memmoveInto m header.toNat m font.toNat 32) glyphs (font + 32) 256 := by
  have hmove : (memmove m header font 32).2 = memmoveInto m header.toNat m font.toNat 32 :=
    memmove_eq_memmoveInto m hheader hfont
  rw [installFont, hmove]

theorem font_add (font : UInt64) (hfont : font.toNat + 32 < 2 ^ 64) : (font + 32).toNat = font.toNat + 32 := by
  rw [UInt64.toNat_add]
  exact Nat.mod_eq_of_lt hfont

theorem installFont_installed (F : Font) (hobjects : Objects header glyphs font.toNat)
    (hfont : font.toNat + 4128 ≤ 2 ^ 64) (hbytes : ∀ j < 4128, m (font.toNat + j) = F.byte j) :
    Installed F (installFont m header glyphs font) header glyphs := by
  obtain ⟨hheader, hglyphs, hapart⟩ := hobjects
  have hptr := font_add font (by omega)
  rw [installFont_eq m (by omega) (by omega)]
  constructor
  · refine packed_byte F fun k hk => ?_
    rw [copyGlyphs_outside (by omega) (by omega) (Nat.le_refl 256) (by omega), memmoveInto_inside hk]
    exact hbytes k (by omega)
  · intro i hi r hr
    have haddr : ((glyphs.toNat : Int) + 16 * (i : Int)).toNat = glyphs.toNat + 16 * i := by omega
    rw [glyphTable, haddr, copyGlyphs_inside (by omega) (by omega) (Nat.le_refl 256) hi hr, hptr,
      memmoveInto_outside (by omega), show font.toNat + 32 + 16 * i + r = font.toNat + (32 + 16 * i + r)
        by omega, hbytes _ (by omega), Font.byte, if_neg (by omega)]
    congr 1 <;> omega

theorem installFont_outside (hobjects : Objects header glyphs font.toNat)
    (hfont : font.toNat + 4128 ≤ 2 ^ 64) (hheader : b < header.toNat ∨ header.toNat + 32 ≤ b)
    (hglyphs : b < glyphs.toNat ∨ glyphs.toNat + 4096 ≤ b) :
    installFont m header glyphs font b = m b := by
  have hbelow := hobjects.headerBelow
  have hbelow' := hobjects.glyphsBelow
  have hptr := font_add font (by omega)
  rw [installFont_eq m (by omega) (by omega),
    copyGlyphs_outside (by omega) (by omega) (Nat.le_refl 256) (by omega), memmoveInto_outside hheader]

theorem Installed.congr {F : Font} (h : Installed F m header glyphs)
    (hheader : ∀ k < 32, m' (header.toNat + k) = m (header.toNat + k))
    (hglyphs : ∀ k < 4096, m' (glyphs.toNat + k) = m (glyphs.toNat + k)) :
    Installed F m' header glyphs := by
  refine ⟨(packed_congr hheader).trans h.header, fun i hi r hr => ?_⟩
  have haddr : ((glyphs.toNat : Int) + 16 * (i : Int)).toNat = glyphs.toNat + 16 * i := by omega
  rw [← h.glyph i hi r hr, glyphTable, glyphTable, haddr, Nat.add_assoc]
  exact hglyphs _ (by omega)

end Install

/-! ## What `start` does with it -/

/-- `start` from the first frame it takes to `init_paging`; `path` is `"FONT    PSF"`. -/
def startFont (disk : Disk) (fat : Fat) (path : Memory) (header glyphs : UInt64) (framebuffer fuel : Nat)
    (m : Memory) (pool : Pool) : Option Vm := do
  let (font, pool) ← pmmAllocate pool
  match readFile disk fat path font m fuel with
  | .returns _ m => initPaging (installFont m header glyphs (UInt64.ofNat font)) pool framebuffer
  | .fallsOff m => initPaging (installFont m header glyphs (UInt64.ofNat font)) pool framebuffer
  | .undefined => none
  | .running => none

variable {disk : Disk} {e : Nat} {chain : List Nat} {fat : Fat}

/-- With clusters of one sector the whole chain is in place. -/
theorem fileBytes_of_sectors {address j : Nat} {m : Memory} (hfile : FileAt disk e chain)
    (hone : sectorsPerCluster disk = 1) (hsectors : HasFirstSectors disk chain address m) {x : UInt8}
    (hj : (fileBytes disk chain)[j]? = some x) : m (address + j) = x := by
  rw [fileBytes_getElem? hfile.clusterSize, hone, Nat.mul_one] at hj
  obtain ⟨d, hd, hx⟩ := Option.map_eq_some_iff.mp hj
  have hbyte := hsectors (j / 512) d hd (j % 512) (Nat.mod_lt j (by decide))
  rw [Nat.add_assoc, Nat.mul_comm (j / 512), Nat.div_add_mod] at hbyte
  rw [hbyte, ← hx]

/-- `pml` is the first frame that `init_paging` takes. -/
theorem initPaging_pml {m : Memory} {pool pool' : Pool} {framebuffer pml : Nat} {vm : Vm}
    (ha : pmmAllocate pool = some (pml, pool')) (h : initPaging m pool framebuffer = some vm) :
    vm.pml = pml := by
  rw [initPaging_eq_run framebuffer ha] at h
  refine Lib.Runs.run_invariant (P := fun s => s.pml = pml) (C := fun _ _ => True) ?_ rfl
    (Lib.Runs.along_of_forall fun _ _ _ => trivial) h
  intro s c s' hs _ hstep
  exact (mapPage_onward hstep).pml.trans hs

theorem Objects.mono {limit limit' : Nat} {header glyphs : UInt64} (h : Objects header glyphs limit)
    (hle : limit ≤ limit') : Objects header glyphs limit' :=
  ⟨h.headerBelow.trans hle, h.glyphsBelow.trans hle, h.apart⟩

/-- The first free frame of the pool, the file read to it, and the font installed from there. -/
theorem font_stored (F : Font) (path : Memory) {header glyphs : UInt64} (m : Memory) {pool : Pool}
    (hfile : FileAt disk e chain) (hexp : Expected disk e chain)
    (hinit : initFat disk zeroFiles = some fat)
    (hpath : ∀ n < 11, path n = rootBytes disk (32 * (e + 1) + n))
    (hone : sectorsPerCluster disk = 1)
    (hbytes : ∀ j < 4128, (fileBytes disk chain)[j]? = some (F.byte j))
    (hf : Framed pool) (hobjects : Objects header glyphs pool.base) (hpos : 0 < freeFrames pool) :
    let font := PAGESIZE * frameNumber pool (firstFree pool)
    ∃ pool' m', pmmAllocate pool = some (font, pool') ∧
      (∀ k, IsFree pool' k ↔ IsFree pool k ∧ k ≠ firstFree pool) ∧
      freeFrames pool' + 1 = freeFrames pool ∧
      (∀ fuel, chain.length ≤ fuel → readFile disk fat path font m fuel = .fallsOff m') ∧
      Installed F (installFont m' header glyphs (UInt64.ofNat font)) header glyphs ∧
      ∀ b, b < header.toNat ∨ header.toNat + 32 ≤ b → b < glyphs.toNat ∨ glyphs.toNat + 4096 ≤ b →
        b < font ∨ font + 512 * chain.length ≤ b →
        installFont m' header glyphs (UInt64.ofNat font) b = m b := by
  intro font
  obtain ⟨hfree, htaken⟩ := firstFree_spec hpos
  obtain ⟨pool', ha, hmark, hcount⟩ := pmmAllocate_at hf hfree htaken
  obtain ⟨_, hnumber⟩ := hf.address hfree
  obtain ⟨m', hread, hsectors, hkept⟩ := readFile_placed hfile hexp hinit hpath font m
  have hal := hf.aligned
  have hbase : pool.base ≤ font := by
    show pool.base ≤ PAGESIZE * (pool.base / PAGESIZE + firstFree pool)
    rw [PAGESIZE] at *
    omega
  have hfont : (UInt64.ofNat font).toNat = font := by
    rw [UInt64.toNat_ofNat']
    refine Nat.mod_eq_of_lt ?_
    show 4096 * frameNumber pool (firstFree pool) < 2 ^ 64
    omega
  have hroom : font + 4128 ≤ 2 ^ 64 := by
    show 4096 * frameNumber pool (firstFree pool) + 4128 ≤ 2 ^ 64
    omega
  have hobjects' := hobjects.mono hbase
  rw [← hfont] at hroom hobjects'
  refine ⟨pool', m', ha, hmark, hcount, hread, installFont_installed F hobjects' hroom fun k hk => ?_,
    fun b hheader hglyphs hb => ?_⟩
  · rw [hfont]
    exact fileBytes_of_sectors hfile hone hsectors (hbytes k hk)
  · rw [installFont_outside hobjects' hroom hheader hglyphs]
    exact hkept b hb

/-- `init_paging` leaves everything outside the frames of the pool. -/
theorem initPaging_kept {pool pool' : Pool} {framebuffer b : Nat} {m : Memory} {vm : Vm}
    (hlater : Later pool pool') (hf : Framed pool) (hfree : framesNeeded framebuffer ≤ freeFrames pool')
    (h : initPaging m pool' framebuffer = some vm)
    (hb : b < pool.base ∨ pool.base + PAGESIZE * pool.pages ≤ b) : vm.mem b = m b := by
  refine initPaging_contents (hlater.framed hf) hfree h fun j hj heq => ?_
  have hal := hf.aligned
  have hpages := (hlater.free j hj).1
  rw [hlater.number, frameNumber] at heq
  rw [PAGESIZE] at *
  omega

/-- Once the kernel runs on its own tables, the terminal has the font of the file, although
the end of the buffer is `pml` if the second page that is handed out follows the first. -/
theorem startFont_installed (F : Font) (path : Memory) (header glyphs : UInt64) (framebuffer : Nat)
    (m : Memory) {pool : Pool} (hfile : FileAt disk e chain) (hexp : Expected disk e chain)
    (hinit : initFat disk zeroFiles = some fat)
    (hpath : ∀ n < 11, path n = rootBytes disk (32 * (e + 1) + n))
    (hone : sectorsPerCluster disk = 1)
    (hbytes : ∀ j < 4128, (fileBytes disk chain)[j]? = some (F.byte j))
    (hf : Framed pool) (hobjects : Objects header glyphs pool.base)
    (hal : framebuffer % 4096 = 0) (hend : framebuffer + 6400 * 4096 ≤ 2 ^ 32)
    (hfree : framesNeeded framebuffer + 1 ≤ freeFrames pool) :
    ∃ vm, (∀ fuel, chain.length ≤ fuel →
        startFont disk fat path header glyphs framebuffer fuel m pool = some vm) ∧
      Installed F vm.mem header glyphs ∧
      (∀ v, Canonical v → physicalAddress vm.mem vm.pml v = intended framebuffer v) ∧
      ∀ font rest, pmmAllocate pool = some (font, rest) →
        (IsFree pool (firstFree pool + 1) → vm.pml = font + 0x1000) := by
  obtain ⟨pool', m', ha, hmark, hcount, hread, hinstalled, _⟩ :=
    font_stored F path m hfile hexp hinit hpath hone hbytes hf hobjects (by omega)
  have hlater := pmmAllocate_later ha
  have hfree' : framesNeeded framebuffer ≤ freeFrames pool' := by omega
  generalize hfont : PAGESIZE * frameNumber pool (firstFree pool) = font at ha hread hinstalled
  obtain ⟨vm, hvm, hmap, _⟩ :=
    initPaging_spec (installFont m' header glyphs (UInt64.ofNat font)) (hlater.framed hf) hal hend hfree'
  have hkept : ∀ b < pool.base, vm.mem b = installFont m' header glyphs (UInt64.ofNat font) b :=
    fun b hb => initPaging_kept hlater hf hfree' hvm (Or.inl hb)
  have hheader := hobjects.headerBelow
  have hglyphs := hobjects.glyphsBelow
  refine ⟨vm, fun fuel hfuel => ?_, hinstalled.congr (fun k hk => hkept _ (by omega))
    (fun k hk => hkept _ (by omega)), hmap, fun font' rest hfirst hnext => ?_⟩
  · rw [startFont, ha, Option.bind_eq_bind, Option.bind_some]
    simp only [hread fuel hfuel]
    exact hvm
  · rw [ha] at hfirst
    obtain ⟨rfl, rfl⟩ := Prod.mk.inj (Option.some.inj hfirst)
    have hnext' : IsFree pool' (firstFree pool + 1) := (hmark _).mpr ⟨hnext, by omega⟩
    have htaken : Taken pool' (firstFree pool + 1) := by
      intro i hi hfree
      obtain ⟨hfree, hne⟩ := (hmark i).mp hfree
      exact (firstFree_spec (show 0 < freeFrames pool by omega)).2 i (by omega) hfree
    obtain ⟨pool'', ha', _⟩ := pmmAllocate_at (hlater.framed hf) hnext' htaken
    rw [initPaging_pml ha' hvm, hlater.number, ← hfont, frameNumber, frameNumber, PAGESIZE]
    omega

/-- A volume whose `FONT.PSF` has 4128 bytes, a header and blank glyphs, in clusters 3 to 11. -/
def fontVolume : List (Nat × List UInt8) :=
  [(512 * 0x800 + 11, [0, 2, 1, 1, 0, 1]), (512 * 0x800 + 32, [16, 0, 0, 0, 1]),
    (512 * 0x800 + 44, [2]),
    (512 * 0x801 + 12, [4, 0, 0, 0, 5, 0, 0, 0, 6, 0, 0, 0, 7, 0, 0, 0, 8, 0, 0, 0, 9, 0, 0, 0,
      10, 0, 0, 0, 11, 0, 0, 0, 0xff, 0xff, 0xff, 0x0f]),
    (512 * 0x802, [0x41]), (512 * 0x802 + 11, [0x0f]),
    (512 * 0x802 + 32, [70, 79, 78, 84, 32, 32, 32, 32, 80, 83, 70, 0x20]),
    (512 * 0x802 + 58, [3, 0, 0x20, 0x10]),
    (512 * 0x803, [0x72, 0xb5, 0x4a, 0x86, 0, 0, 0, 0, 32, 0, 0, 0, 0, 0, 0, 0, 0, 1, 0, 0, 16, 0, 0, 0,
      16, 0, 0, 0, 8])]

def fontDisk : Disk := fun a =>
  (fontVolume.findSome? (fun r => if r.1 ≤ a then r.2[a - r.1]? else none)).getD 0

def fontChain : List Nat := [3, 4, 5, 6, 7, 8, 9, 10, 11]

def blankFont : Font := ⟨⟨0x864ab572, 0, 32, 0, 256, 16, 16, 8⟩, fun _ _ => 0⟩

theorem fontDisk_fileAt : FileAt fontDisk 0 fontChain where
  sectorSize := by decide +kernel
  root := by decide +kernel
  clusterSize := by decide +kernel
  firstSector := by decide
  nonzero := by decide +kernel
  longUsed := by decide +kernel
  long := by decide +kernel
  regular := ⟨by decide +kernel, by decide +kernel, by decide +kernel⟩
  first := by decide +kernel
  linked := by decide +kernel
  ended := by decide +kernel
  acyclic := by decide
  inside := by decide +kernel
  size := by decide +kernel

theorem fontDisk_expected : Expected fontDisk 0 fontChain where
  lba28 := by decide +kernel
  firstFatSector := by decide
  reservedBits := by decide +kernel
  endMark := by decide +kernel
  uniqueName := by
    have hfirst : ∀ d < 16, rootBytes fontDisk (32 * d + 0) = rootBytes fontDisk (32 * 1 + 0) →
        d = 1 := by decide +kernel
    exact fun d hd _ hname => hfirst d hd (hname 0 (by decide))

/-- Behind the header there are zeros. -/
theorem fontDisk_blank {a : Nat} (ha : 512 * 0x803 + 29 ≤ a) : fontDisk a = 0 := by
  have hnone : ∀ r ∈ fontVolume, (if r.1 ≤ a then r.2[a - r.1]? else none) = none := by
    intro r hr
    have hend : r.1 + r.2.length ≤ 512 * 0x803 + 29 := by
      have hall : ∀ r ∈ fontVolume, r.1 + r.2.length ≤ 512 * 0x803 + 29 := by decide
      exact hall r hr
    rw [if_pos (by omega), List.getElem?_eq_none (by omega)]
  rw [fontDisk, List.findSome?_eq_none_iff.mpr hnone, Option.getD_none]

/-- A volume that is blank behind the header of the file. -/
theorem blankFont_bytes (hspc : 0 < sectorsPerCluster disk) (hone : sectorsPerCluster disk = 1)
    (hsector : ∀ q < 9, clusterSector disk (3 + q) = 0x803 + q)
    (hheader : ∀ j < 32, disk (512 * 0x803 + j) = blankFont.byte j)
    (hblank : ∀ a, 512 * 0x803 + 29 ≤ a → a < 512 * 0x80c → disk a = 0) {j : Nat} (hj : j < 4128) :
    (fileBytes disk fontChain)[j]? = some (blankFont.byte j) := by
  have hcluster : ∀ q < 9, fontChain[q]? = some (3 + q) := by decide
  rw [fileBytes_getElem? hspc, hone, Nat.mul_one, hcluster _ (by omega), Option.map_some,
    hsector _ (by omega)]
  have hplace : 512 * (0x803 + j / 512) + j % 512 = 512 * 0x803 + j := by omega
  rw [hplace]
  by_cases hin : j < 32
  · rw [hheader j hin]
  · rw [hblank _ (by omega) (by omega), Font.byte, if_neg hin]
    rfl

/-- A pool in the 2 MiB that the loader's tables map. -/
def lowPool : Pool := ⟨0x100000, 0xE0000, 224, Vector.replicate 100 0⟩

theorem startFont_installed_blank :
    ∃ fat, initFat fontDisk zeroFiles = some fat ∧
      ∃ vm, (∀ fuel, 9 ≤ fuel →
          startFont fontDisk fat samplePath 0x90000 0x91000 0xFD000000 fuel (fun _ => 0) lowPool = some vm) ∧
        Installed blankFont vm.mem 0x90000 0x91000 ∧ vm.pml = 0x101000 := by
  have hinit : (initFat fontDisk zeroFiles).isSome := by decide +kernel
  obtain ⟨fat, hfat⟩ := Option.isSome_iff_exists.mp hinit
  have hneed : framesNeeded 0xFD000000 ≤ 47 := framesNeeded_le (by decide)
  have hframed : Framed lowPool := ⟨by decide, by decide⟩
  have hfree : freeFrames lowPool = 100 := freeFrames_fresh rfl
  have hone : sectorsPerCluster fontDisk = 1 := by decide +kernel
  obtain ⟨vm, hvm, hinstalled, _, hpml⟩ := startFont_installed blankFont samplePath 0x90000 0x91000
    0xFD000000 (fun _ => 0) fontDisk_fileAt fontDisk_expected hfat (by decide +kernel)
    hone (fun j hj => blankFont_bytes (by omega) hone (by decide +kernel) (by decide +kernel)
      (fun a ha _ => fontDisk_blank ha) hj) hframed
    ⟨by decide, by decide, by decide⟩ (by decide) (by decide) (by omega)
  have hfirst : pmmAllocate lowPool =
      some (0x100000, { lowPool with bitmap := lowPool.bitmap.setIfInBounds 0 1 }) := by
    decide +kernel
  exact ⟨fat, hfat, vm, hvm, hinstalled, hpml _ _ hfirst ⟨by decide, by decide +kernel⟩⟩

end PaskakasaOS.Kernel.Utils.InstallFont
