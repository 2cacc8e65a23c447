import Mathlib.Data.List.FinRange
import PaskakasaOS.Kernel.Memory.InitPaging

/-!
# The bootloader's page tables and the switch to the kernel's

`map_kernel` of `bootloader/stage2.c` fills seven static tables by index. They
map the first 2 MiB of physical memory twice, at address 0 and at the kernel's
link address; `init_paging` maps both ranges to the same frames.
-/
namespace PaskakasaOS.Boot.MapKernel

open Lib.ByteMemory Lib.TableTree Lib.Runs
open Kernel.Memory.Pmm Kernel.Memory.Vmm Kernel.Memory.VmmTree
open Kernel.Memory.PageRuns (pml4Index_eq pudIndex_eq pmdIndex_eq ptIndex_eq)
open Kernel.Memory.AddressSpace (samplePool samplePool_framed samplePool_free)
open Kernel.Memory.InitPaging

/-- The frames of the seven static arrays, each `aligned(4096)` and 4096 bytes long. -/
structure BootTables where
  pml4 : Nat
  pud : Nat
  pmd : Nat
  pt : Nat
  pudlow : Nat
  pmdlow : Nat
  ptlow : Nat
  distinct : [pml4, pud, pmd, pt, pudlow, pmdlow, ptlow].Nodup
  physical : ∀ f ∈ [pml4, pud, pmd, pt, pudlow, pmdlow, ptlow], f < 2 ^ 40

def BootTables.all (T : BootTables) : List Nat :=
  [T.pml4, T.pud, T.pmd, T.pt, T.pudlow, T.pmdlow, T.ptlow]

/-- The body of the first loop: entry `i` of every table is zeroed. -/
def clearEntries (tables : List Nat) (m : Memory) (i : Fin 512) : Memory :=
  tables.foldl (fun m t => setEntry m (0x1000 * t) i 0) m

/-- The body of the last loop. -/
def fillEntries (T : BootTables) (m : Memory) (i : Fin 512) : Memory :=
  let m := setEntry m (0x1000 * T.pt) i ((i * 0x1000) ||| 0b10000011)
  setEntry m (0x1000 * T.ptlow) i ((i * 0x1000) ||| 0b10000011)

/-- An entry for the table in frame `f`. -/
def tableEntry (f : Nat) : Nat := ((0x1000 * f) &&& 0xFFFFFFFFFF000) ||| 3

/-- The six writes between the two loops. -/
def linkTables (T : BootTables) (m : Memory) : Memory :=
  let m := setEntry m (0x1000 * T.pml4) 511 (tableEntry T.pud)
  let m := setEntry m (0x1000 * T.pml4) 0 (tableEntry T.pudlow)
  let m := setEntry m (0x1000 * T.pudlow) 0 (tableEntry T.pmdlow)
  let m := setEntry m (0x1000 * T.pud) 510 (tableEntry T.pmd)
  let m := setEntry m (0x1000 * T.pmd) 0 (tableEntry T.pt)
  setEntry m (0x1000 * T.pmdlow) 0 (tableEntry T.ptlow)

def mapKernel (T : BootTables) (m : Memory) : Memory :=
  let m := (List.finRange 512).foldl (clearEntries T.all) m
  let m := linkTables T m
  (List.finRange 512).foldl (fillEntries T) m

/-! ## The slots of the boot tables -/

theorem slot_clearEntries (tables : List Nat) (m : Memory) (i : Fin 512) (f : Nat) (j : Fin 512) :
    slot (clearEntries tables m i) f j = if f ∈ tables ∧ j = i then none else slot m f j := by
  induction tables generalizing m with
  | nil => simp [clearEntries]
  | cons t tables ih =>
    have hrest := ih (setEntry m (4096 * t) i 0)
    rw [slot_setEntry] at hrest
    show slot (clearEntries tables (setEntry m (4096 * t) i 0) i) f j = _
    rw [hrest, setSlot]
    by_cases hin : f ∈ tables ∧ j = i
    · rw [if_pos hin, if_pos ⟨List.mem_cons_of_mem t hin.1, hin.2⟩]
    · rw [if_neg hin]
      by_cases ht : f = t ∧ j = i
      · rw [if_pos ht, if_pos ⟨ht.1 ▸ List.mem_cons_self, ht.2⟩]
        rfl
      · rw [if_neg ht, if_neg]
        rintro ⟨hmem, hji⟩
        rcases List.mem_cons.mp hmem with rfl | hmem
        · exact ht ⟨rfl, hji⟩
        · exact hin ⟨hmem, hji⟩

theorem slot_clearLoop (tables : List Nat) (is : List (Fin 512)) (m : Memory) (f : Nat) (j : Fin 512) :
    slot (is.foldl (clearEntries tables) m) f j =
      if f ∈ tables ∧ j ∈ is then none else slot m f j := by
  induction is generalizing m with
  | nil => simp
  | cons i is ih =>
    rw [List.foldl_cons, ih, slot_clearEntries]
    by_cases hf : f ∈ tables <;> by_cases hj : j ∈ is <;> by_cases hi : j = i <;> simp [hf, hj, hi]

theorem decode_page (i : Fin 512) : decode ((i.val * 0x1000) ||| 0b10000011) = some i.val := by
  rw [decode_flags _ _ (by decide) (by decide)]
  congr 1
  omega

theorem slot_fillLoop (T : BootTables) (is : List (Fin 512)) (m : Memory) (f : Nat) (j : Fin 512) :
    slot (is.foldl (fillEntries T) m) f j =
      if (f = T.pt ∨ f = T.ptlow) ∧ j ∈ is then some j.val else slot m f j := by
  induction is generalizing m with
  | nil => simp
  | cons i is ih =>
    rw [List.foldl_cons, ih, fillEntries, slot_setEntry, setSlot, slot_setEntry, setSlot, decode_page]
    by_cases hi : j = i
    · subst hi
      by_cases h1 : f = T.pt <;> by_cases h2 : f = T.ptlow <;> by_cases hj : j ∈ is <;>
        simp [h1, h2, hj]
    · by_cases h1 : f = T.pt <;> by_cases h2 : f = T.ptlow <;> by_cases hj : j ∈ is <;>
        simp [h1, h2, hj, hi]

theorem decode_tableEntry {f : Nat} (hf : f < 2 ^ 40) : decode (tableEntry f) = some f := by
  have hmask : (0x1000 * f) &&& 0xFFFFFFFFFF000 = 4096 * (0x1000 * f / 4096 % 2 ^ 40) :=
    and_address_mask _
  rw [tableEntry, hmask, decode_flags _ _ (by decide) (by decide)]
  congr 1
  omega

theorem slot_linkEntry (m : Memory) (t n : Nat) {i : Fin 512} {f : Nat} (hn : i.val = n)
    (hf : f < 2 ^ 40) :
    slot (setEntry m (0x1000 * t) n (tableEntry f)) = setSlot (slot m) t i (some f) := by
  subst hn
  rw [slot_setEntry, decode_tableEntry hf]

theorem slot_linkTables (T : BootTables) (m : Memory) :
    slot (linkTables T m) =
      setSlot (setSlot (setSlot (setSlot (setSlot (setSlot (slot m) T.pml4 511 (some T.pud))
        T.pml4 0 (some T.pudlow)) T.pudlow 0 (some T.pmdlow)) T.pud 510 (some T.pmd))
        T.pmd 0 (some T.pt)) T.pmdlow 0 (some T.ptlow) := by
  have hp := T.physical
  rw [linkTables, slot_linkEntry _ T.pmdlow 0 (i := 0) rfl (hp T.ptlow (by simp)),
    slot_linkEntry _ T.pmd 0 (i := 0) rfl (hp T.pt (by simp)),
    slot_linkEntry _ T.pud 510 (i := 510) rfl (hp T.pmd (by simp)),
    slot_linkEntry _ T.pudlow 0 (i := 0) rfl (hp T.pmdlow (by simp)),
    slot_linkEntry _ T.pml4 0 (i := 0) rfl (hp T.pudlow (by simp)),
    slot_linkEntry _ T.pml4 511 (i := 511) rfl (hp T.pud (by simp))]

theorem slot_mapKernel (T : BootTables) (m : Memory) {f : Nat} (hf : f ∈ T.all) (j : Fin 512) :
    slot (mapKernel T m) f j =
      if f = T.pt ∨ f = T.ptlow then some j.val
      else if f = T.pmdlow ∧ j = 0 then some T.ptlow
      else if f = T.pmd ∧ j = 0 then some T.pt
      else if f = T.pud ∧ j = 510 then some T.pmd
      else if f = T.pudlow ∧ j = 0 then some T.pmdlow
      else if f = T.pml4 ∧ j = 0 then some T.pudlow
      else if f = T.pml4 ∧ j = 511 then some T.pud
      else none := by
  have hclear := slot_clearLoop T.all (List.finRange 512) m f j
  rw [if_pos ⟨hf, List.mem_finRange j⟩] at hclear
  rw [mapKernel, slot_fillLoop, slot_linkTables]
  simp only [List.mem_finRange, and_true, setSlot, hclear]

theorem BootTables.ne (T : BootTables) :
    (T.pml4 ≠ T.pud ∧ T.pml4 ≠ T.pmd ∧ T.pml4 ≠ T.pt ∧ T.pml4 ≠ T.pudlow ∧ T.pml4 ≠ T.pmdlow ∧
      T.pml4 ≠ T.ptlow) ∧
    (T.pud ≠ T.pmd ∧ T.pud ≠ T.pt ∧ T.pud ≠ T.pudlow ∧ T.pud ≠ T.pmdlow ∧ T.pud ≠ T.ptlow) ∧
    (T.pmd ≠ T.pt ∧ T.pmd ≠ T.pudlow ∧ T.pmd ≠ T.pmdlow ∧ T.pmd ≠ T.ptlow) ∧
    (T.pt ≠ T.pudlow ∧ T.pt ≠ T.pmdlow ∧ T.pt ≠ T.ptlow) ∧
    (T.pudlow ≠ T.pmdlow ∧ T.pudlow ≠ T.ptlow) ∧ T.pmdlow ≠ T.ptlow := by
  simpa using T.distinct

/-- The levels of the boot tables, as a store of slots. -/
structure Levels (σ : Nat → Fin 512 → Option Nat) (T : BootTables) : Prop where
  pml4 : ∀ j, σ T.pml4 j = if j = 511 then some T.pud else if j = 0 then some T.pudlow else none
  pud : ∀ j, σ T.pud j = if j = 510 then some T.pmd else none
  pmd : ∀ j, σ T.pmd j = if j = 0 then some T.pt else none
  pt : ∀ j, σ T.pt j = some j.val
  pudlow : ∀ j, σ T.pudlow j = if j = 0 then some T.pmdlow else none
  pmdlow : ∀ j, σ T.pmdlow j = if j = 0 then some T.ptlow else none
  ptlow : ∀ j, σ T.ptlow j = some j.val

theorem levels_mapKernel (T : BootTables) (m : Memory) : Levels (slot (mapKernel T m)) T := by
  obtain ⟨h1, h2, h3, h4, h5, h6⟩ := T.ne
  have hslot : ∀ f ∈ T.all, ∀ j, slot (mapKernel T m) f j = _ :=
    fun f hf j => slot_mapKernel T m hf j
  simp only [BootTables.all, List.mem_cons, List.not_mem_nil, or_false] at hslot
  constructor
  all_goals
    intro j
    rw [hslot _ (by simp)]
    grind

/-! ## The address space of the boot tables -/

/-- Every canonical address the boot tables map, and nothing else. -/
def bootIntended (v : Nat) : Option Nat :=
  if v < 0x200000 then some v
  else if kernelStart ≤ v ∧ v < kernelStart + 0x200000 then some (v - kernelStart)
  else none

theorem Levels.follow {σ : Nat → Fin 512 → Option Nat} {T : BootTables} (h : Levels σ T) (v : Nat) :
    Lib.TableTree.follow σ T.pml4 (path v) =
      if (pml4Index v = 511 ∧ pudIndex v = 510 ∨ pml4Index v = 0 ∧ pudIndex v = 0) ∧
        pmdIndex v = 0 then some (ptIndex v) else none := by
  simp only [path, Lib.TableTree.follow, run_cons, run_nil, h.pml4, Fin.ext_iff]
  by_cases hhigh : pml4Index v = 511
  · by_cases h3 : pudIndex v = 510 <;> by_cases h2 : pmdIndex v = 0 <;>
      simp [hhigh, h3, h2, h.pud, h.pmd, h.pt, Fin.ext_iff]
  · by_cases hlow : pml4Index v = 0
    · by_cases h3 : pudIndex v = 0 <;> by_cases h2 : pmdIndex v = 0 <;>
        simp [hlow, h3, h2, h.pudlow, h.pmdlow, h.ptlow, Fin.ext_iff]
    · simp [hhigh, hlow]

theorem physicalAddress_mapKernel (T : BootTables) (m : Memory) {v : Nat} (hv : Canonical v) :
    physicalAddress (mapKernel T m) (0x1000 * T.pml4) v = bootIntended v := by
  rw [physicalAddress_eq_slots, (levels_mapKernel T m).follow, bootIntended, pml4Index_eq, pudIndex_eq, pmdIndex_eq,
    ptIndex_eq]
  unfold Canonical at hv
  by_cases hlow : v < 0x200000
  · rw [if_pos hlow, if_pos (by omega), Option.map_some]
    refine congrArg some ?_
    omega
  · rw [if_neg hlow]
    by_cases hk : kernelStart ≤ v ∧ v < kernelStart + 0x200000
    · rw [if_pos hk]
      unfold kernelStart at hk ⊢
      rw [if_pos (by omega), Option.map_some]
      refine congrArg some ?_
      omega
    · rw [if_neg hk]
      unfold kernelStart at hk
      rw [if_neg (by omega), Option.map_none]

/-- Whatever the boot tables map, the tables `init_paging` loads map to the same
physical address. -/
theorem initPaging_extends_boot (T : BootTables) (boot m : Memory) {pool : Pool} {framebuffer : Nat}
    (hf : Framed pool) (hal : framebuffer % 4096 = 0) (hend : framebuffer + 6400 * 4096 ≤ 2 ^ 32)
    (hfree : framesNeeded framebuffer ≤ freeFrames pool) :
    ∃ s, initPaging m pool framebuffer = some s ∧
      ∀ v p, physicalAddress (mapKernel T boot) (0x1000 * T.pml4) v = some p →
        physicalAddress s.mem s.pml v = some p := by
  obtain ⟨s, hs, hmap, _⟩ := initPaging_spec m hf hal hend hfree
  refine ⟨s, hs, ?_⟩
  intro v p hboot
  obtain ⟨w, hw, hsame⟩ := exists_canonical v
  rw [hsame, physicalAddress_mapKernel T boot hw] at hboot
  have hk : kernelStart = 0xFFFFFFFF80000000 := rfl
  rw [hsame, hmap w hw, intended]
  rw [bootIntended] at hboot
  split at hboot
  · next hlow =>
    rw [if_neg (by omega), if_pos (by omega), hboot]
  · split at hboot
    · next hhigh =>
      rw [if_pos ⟨hhigh.1, hhigh.2.trans (Nat.add_lt_add_left (by decide) _)⟩, hboot]
    · cases hboot

/-- Seven consecutive frames after the loader's code. -/
def sampleTables : BootTables where
  pml4 := 0x10
  pud := 0x11
  pmd := 0x12
  pt := 0x13
  pudlow := 0x14
  pmdlow := 0x15
  ptlow := 0x16
  distinct := by decide
  physical := by decide

theorem initPaging_extends_boot_high :
    ∃ s, initPaging (fun _ => 0) samplePool 0xE0000000 = some s ∧
      ∀ v p,
        physicalAddress (mapKernel sampleTables (fun _ => 0)) (0x1000 * sampleTables.pml4) v = some p →
        physicalAddress s.mem s.pml v = some p :=
  initPaging_extends_boot sampleTables (fun _ => 0) (fun _ => 0) samplePool_framed (by decide)
    (by decide) ((framesNeeded_le (by decide)).trans (by rw [samplePool_free]; decide))

end PaskakasaOS.Boot.MapKernel
