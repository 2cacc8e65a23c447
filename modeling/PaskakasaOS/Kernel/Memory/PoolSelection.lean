import PaskakasaOS.Kernel.Memory.InitPmm

/-!
# The region `init_pmm` chooses

The first usable record that does not start at zero becomes the pool. When it
starts inside the kernel image the base moves past the kernel, over a guard page
and up to a page boundary, but the length only shrinks by the kernel: the last
pages of the pool can lie past the end of the region.
-/
namespace PaskakasaOS.Kernel.Memory.PoolSelection

open Lib.ByteMemory Pmm InitPmm

/-- A record `init_pmm` can choose. -/
def Usable (entry : E820Entry) : Prop := entry.regionType = 0x1 ∧ entry.base ≠ 0x0

instance (entry : E820Entry) : Decidable (Usable entry) := inferInstanceAs (Decidable (_ ∧ _))

def chosen (entries : List E820Entry) : Option E820Entry := entries.find? (Usable ·)

/-- The first page boundary at least one page past the kernel image. -/
def kernelTop (kernel : KernelImage) : Nat :=
  maskPage ((kphysStart + kernel.klength + 0x1000 + 0xFFF) % 2 ^ 64)

def poolBase (kernel : KernelImage) (entry : E820Entry) : Nat :=
  if StartsInKernel kernel entry then kernelTop kernel else entry.base.toNat

def poolLength (kernel : KernelImage) (entry : E820Entry) : Nat :=
  if StartsInKernel kernel entry then (entry.regionLength.toNat + 2 ^ 64 - kernel.klength) % 2 ^ 64
  else entry.regionLength.toNat

/-! ## The loop -/

theorem startsInKernel_base_ne {kernel : KernelImage} {entry : E820Entry}
    (h : StartsInKernel kernel entry) : entry.base ≠ 0x0 := by
  intro hzero
  have hlow := h.1
  rw [hzero] at hlow
  exact absurd hlow (by decide)

section Loop

variable (kernel : KernelImage) {s : Search} {entry : E820Entry}

theorem initPmmEntry_found (entry : E820Entry) (h : s.foundMemoryArea ≠ 0) :
    (initPmmEntry kernel s entry).base = s.base ∧
      (initPmmEntry kernel s entry).length = s.length ∧
      (initPmmEntry kernel s entry).foundMemoryArea = s.foundMemoryArea := by
  unfold initPmmEntry
  by_cases htype : entry.regionType = 0x1 <;> simp [htype, h]

theorem initPmmEntry_skip (s : Search) (h : ¬ Usable entry) :
    (initPmmEntry kernel s entry).base = s.base ∧
      (initPmmEntry kernel s entry).length = s.length ∧
      (initPmmEntry kernel s entry).foundMemoryArea = s.foundMemoryArea := by
  unfold initPmmEntry
  by_cases htype : entry.regionType = 0x1
  · have hbase : entry.base = 0x0 := by
      by_contra hne
      exact h ⟨htype, hne⟩
    have hstart : ¬ StartsInKernel kernel entry := fun hs => startsInKernel_base_ne hs hbase
    simp [htype, hbase, hstart]
  · simp [htype]

theorem initPmmEntry_take (h : Usable entry) (hs : s.foundMemoryArea = 0) :
    (initPmmEntry kernel s entry).base = poolBase kernel entry ∧
      (initPmmEntry kernel s entry).length = poolLength kernel entry ∧
      (initPmmEntry kernel s entry).foundMemoryArea = 1 := by
  obtain ⟨htype, hbase⟩ := h
  unfold initPmmEntry poolBase poolLength
  by_cases hstart : StartsInKernel kernel entry
  · simp [htype, hstart, hs, kernelTop]
  · simp [htype, hstart, hs, hbase]

theorem foldl_found (entries : List E820Entry) (h : s.foundMemoryArea ≠ 0) :
    (entries.foldl (initPmmEntry kernel) s).base = s.base ∧
      (entries.foldl (initPmmEntry kernel) s).length = s.length ∧
      (entries.foldl (initPmmEntry kernel) s).foundMemoryArea = s.foundMemoryArea := by
  induction entries generalizing s with
  | nil => exact ⟨rfl, rfl, rfl⟩
  | cons entry entries ih =>
    obtain ⟨hbase, hlength, hfound⟩ := initPmmEntry_found kernel entry h
    obtain ⟨ihbase, ihlength, ihfound⟩ := ih (s := initPmmEntry kernel s entry) (hfound ▸ h)
    rw [List.foldl_cons, ihbase, ihlength, ihfound]
    exact ⟨hbase, hlength, hfound⟩

/-- The loop takes the region of the first usable record; without one it finds nothing. -/
theorem foldl_chosen (entries : List E820Entry) (hs : s.foundMemoryArea = 0) :
    match chosen entries with
    | none => (entries.foldl (initPmmEntry kernel) s).foundMemoryArea = 0
    | some entry => (entries.foldl (initPmmEntry kernel) s).base = poolBase kernel entry ∧
        (entries.foldl (initPmmEntry kernel) s).length = poolLength kernel entry ∧
        (entries.foldl (initPmmEntry kernel) s).foundMemoryArea = 1 := by
  induction entries generalizing s with
  | nil => exact hs
  | cons entry entries ih =>
    by_cases husable : Usable entry
    · obtain ⟨hbase, hlength, hfound⟩ := initPmmEntry_take kernel husable hs
      have hrest := foldl_found kernel (s := initPmmEntry kernel s entry) entries
        (by omega)
      simp only [chosen, List.find?_cons, husable, decide_true, List.foldl_cons]
      rw [hrest.1, hrest.2.1, hrest.2.2]
      exact ⟨hbase, hlength, hfound⟩
    · obtain ⟨_, _, hfound⟩ := initPmmEntry_skip kernel s husable
      have hrest := ih (s := initPmmEntry kernel s entry) (hfound.trans hs)
      simpa only [chosen, List.find?_cons, husable, decide_false, List.foldl_cons] using hrest

end Loop

section Pool

variable (kernel : KernelImage) (map : MemoryMap) (m : Memory) (e820map : Nat) (g : Globals)

theorem initPmmSearch_place :
    initPmmSearch kernel (map.place m e820map) e820map g =
      (map.entries.take 50).foldl (initPmmEntry kernel)
        ⟨g.pool.base, g.pool.length, g.totalMemory, 0⟩ := by
  rw [initPmmSearch, initPmmLoop_eq, processed_place]

theorem initPmm_none (h : chosen (map.entries.take 50) = none) :
    (initPmmSearch kernel (map.place m e820map) e820map g).foundMemoryArea = 0 := by
  have hfold := foldl_chosen kernel (map.entries.take 50)
    (s := ⟨g.pool.base, g.pool.length, g.totalMemory, 0⟩) rfl
  rw [h] at hfold
  rw [initPmmSearch_place]
  exact hfold

theorem initPmm_some {entry : E820Entry} (h : chosen (map.entries.take 50) = some entry) :
    (initPmmSearch kernel (map.place m e820map) e820map g).foundMemoryArea = 1 ∧
      (initPmm kernel (map.place m e820map) e820map g).pool.base = poolBase kernel entry ∧
      (initPmm kernel (map.place m e820map) e820map g).pool.pages =
        poolLength kernel entry / 0x1000 := by
  have hfold := foldl_chosen kernel (map.entries.take 50)
    (s := ⟨g.pool.base, g.pool.length, g.totalMemory, 0⟩) rfl
  rw [h] at hfold
  simp only [initPmm, initPmmSearch_place, hfold, and_self]

end Pool

/-! ## Soundness of the pages -/

/-- The page at `a` lies inside one usable region of the list. -/
def InsideRegion (entries : List E820Entry) (a : Nat) : Prop :=
  ∃ entry ∈ entries, entry.regionType = 0x1 ∧ entry.base.toNat ≤ a ∧
    a + PAGESIZE ≤ entry.base.toNat + entry.regionLength.toNat

/-- What the page frame at `a` of a sound pool must satisfy. -/
structure SoundPage (kernel : KernelImage) (entries : List E820Entry) (a : Nat) : Prop where
  inside : InsideRegion entries a
  aligned : a % PAGESIZE = 0
  disjoint : ∀ b, a ≤ b → b < a + PAGESIZE → b < kphysStart ∨ kphysStart + kernel.klength ≤ b

/-- If a pool was chosen, every page of it is sound. -/
def PoolSound (kernel : KernelImage) (map : MemoryMap) (m : Memory) (e820map : Nat)
    (g : Globals) : Prop :=
  (initPmmSearch kernel (map.place m e820map) e820map g).foundMemoryArea ≠ 0 →
    ∀ j, j < (initPmm kernel (map.place m e820map) e820map g).pool.pages →
      SoundPage kernel map.entries
        ((initPmm kernel (map.place m e820map) e820map g).pool.base + PAGESIZE * j)

/-- The record makes a sound pool: past the kernel, the pages that stick out of
it are those of another usable record; elsewhere, it is aligned and its whole
pages miss the kernel, or it has no whole page. -/
def RegionSuits (kernel : KernelImage) (entries : List E820Entry) (entry : E820Entry) : Prop :=
  if StartsInKernel kernel entry then
    ∀ j, j < poolLength kernel entry / PAGESIZE →
      entry.base.toNat + entry.regionLength.toNat < kernelTop kernel + PAGESIZE * (j + 1) →
      InsideRegion entries (kernelTop kernel + PAGESIZE * j)
  else
    entry.regionLength.toNat < PAGESIZE ∨ (entry.base.toNat % PAGESIZE = 0 ∧
      (entry.base.toNat + entry.regionLength.toNat / PAGESIZE * PAGESIZE ≤ kphysStart ∨
        kphysStart + kernel.klength ≤ entry.base.toNat ∨ kernel.klength = 0))

section Page

variable {kernel : KernelImage} {entries : List E820Entry} {entry : E820Entry}

theorem kernelTop_bounds (kernel : KernelImage) :
    kernelTop kernel % PAGESIZE = 0 ∧ kphysStart + kernel.klength + 0x1000 ≤ kernelTop kernel := by
  have hlinked := kernel.linked
  simp only [kernelTop, maskPage, kphysStart, PAGESIZE, InitPaging.kernelStart] at *
  omega

/-- Past the kernel, a page is sound once a region holds it. -/
theorem soundPage_kernelTop {j : Nat}
    (h : InsideRegion entries (kernelTop kernel + PAGESIZE * j)) :
    SoundPage kernel entries (kernelTop kernel + PAGESIZE * j) := by
  obtain ⟨haligned, hpast⟩ := kernelTop_bounds kernel
  refine ⟨h, ?_, fun b hb _ => Or.inr ?_⟩
  · rw [Nat.add_mul_mod_self_left, haligned]
  · omega

theorem insideRegion_of_le (hmem : entry ∈ entries) (htype : entry.regionType = 0x1) {a : Nat}
    (hl : entry.base.toNat ≤ a)
    (hu : a + PAGESIZE ≤ entry.base.toNat + entry.regionLength.toNat) :
    InsideRegion entries a :=
  ⟨entry, hmem, htype, hl, hu⟩

theorem sound_of_startsInKernel (hmem : entry ∈ entries) (husable : Usable entry)
    (hstart : StartsInKernel kernel entry) :
    (∀ j, j < poolLength kernel entry / PAGESIZE →
      SoundPage kernel entries (kernelTop kernel + PAGESIZE * j)) ↔
      RegionSuits kernel entries entry := by
  rw [RegionSuits, if_pos hstart]
  constructor
  · intro h j hj _
    exact (h j hj).inside
  · intro h j hj
    apply soundPage_kernelTop
    by_cases hout : entry.base.toNat + entry.regionLength.toNat <
        kernelTop kernel + PAGESIZE * (j + 1)
    · exact h j hj hout
    · have hlow : entry.base.toNat ≤ kphysStart + kernel.klength :=
        hstart.2.trans (Nat.mod_le _ _)
      have hpast := (kernelTop_bounds kernel).2
      rw [Nat.mul_succ] at hout
      exact insideRegion_of_le hmem husable.1 (by omega) (by omega)

/-- The kernel range misses every page of a run of pages exactly when it misses their union. -/
theorem pages_miss_kernel {a n : Nat} (hn : 0 < n) :
    (∀ j, j < n → ∀ b, a + PAGESIZE * j ≤ b → b < a + PAGESIZE * j + PAGESIZE →
      b < kphysStart ∨ kphysStart + kernel.klength ≤ b) ↔
      (a + n * PAGESIZE ≤ kphysStart ∨ kphysStart + kernel.klength ≤ a ∨ kernel.klength = 0) := by
  constructor
  · intro h
    by_contra hcon
    push Not at hcon
    obtain ⟨hend, hbegin, hlength⟩ := hcon
    -- the first byte of the pages that is not below the kernel
    have hbyte : max a kphysStart < a + n * PAGESIZE := by
      simp only [PAGESIZE, kphysStart] at *
      omega
    have hpage := Nat.div_add_mod (max a kphysStart - a) PAGESIZE
    have hmod := Nat.mod_lt (max a kphysStart - a) (show 0 < PAGESIZE by decide)
    have hj : (max a kphysStart - a) / PAGESIZE < n := by
      rw [Nat.div_lt_iff_lt_mul (by decide)]
      omega
    have hmiss := h _ hj (max a kphysStart) (by omega) (by omega)
    omega
  · intro h j hj b hb hb'
    have hlast : PAGESIZE * j + PAGESIZE ≤ n * PAGESIZE := by
      rw [← Nat.mul_succ, Nat.mul_comm]
      exact Nat.mul_le_mul_right PAGESIZE hj
    omega

theorem sound_of_not_startsInKernel (hmem : entry ∈ entries) (husable : Usable entry)
    (hstart : ¬ StartsInKernel kernel entry) :
    (∀ j, j < entry.regionLength.toNat / PAGESIZE →
      SoundPage kernel entries (entry.base.toNat + PAGESIZE * j)) ↔
      RegionSuits kernel entries entry := by
  rw [RegionSuits, if_neg hstart]
  by_cases hsmall : entry.regionLength.toNat < PAGESIZE
  · have hnone : entry.regionLength.toNat / PAGESIZE = 0 := Nat.div_eq_of_lt hsmall
    simp [hsmall, hnone]
  · have hpos : 0 < entry.regionLength.toNat / PAGESIZE :=
      Nat.div_pos (by omega) (by decide)
    rw [or_iff_right hsmall, ← pages_miss_kernel hpos]
    constructor
    · intro h
      have hfirst := (h 0 hpos).aligned
      rw [Nat.mul_zero, Nat.add_zero] at hfirst
      exact ⟨hfirst, fun j hj => (h j hj).disjoint⟩
    · rintro ⟨haligned, hmiss⟩ j hj
      have hfit : PAGESIZE * j + PAGESIZE ≤ entry.regionLength.toNat := by
        rw [← Nat.mul_succ, Nat.mul_comm]
        exact (Nat.mul_le_mul_right PAGESIZE hj).trans (Nat.div_mul_le_self _ _)
      refine ⟨insideRegion_of_le hmem husable.1 (by omega) (by omega), ?_, hmiss j hj⟩
      rw [Nat.add_mul_mod_self_left, haligned]

end Page

/-- The pages of the pool are sound exactly when the record `init_pmm` chooses suits. -/
theorem initPmm_sound_iff (kernel : KernelImage) (map : MemoryMap) (m : Memory) (e820map : Nat)
    (g : Globals) :
    PoolSound kernel map m e820map g ↔
      ∀ entry, chosen (map.entries.take 50) = some entry →
        RegionSuits kernel map.entries entry := by
  rw [PoolSound]
  cases hchosen : chosen (map.entries.take 50) with
  | none => simp [initPmm_none kernel map m e820map g hchosen]
  | some entry =>
    obtain ⟨hfound, hbase, hpages⟩ := initPmm_some kernel map m e820map g hchosen
    have hmem : entry ∈ map.entries := List.mem_of_mem_take (List.mem_of_find?_eq_some hchosen)
    have husable : Usable entry := by simpa using List.find?_some hchosen
    rw [hfound, hbase, hpages]
    simp only [ne_eq, one_ne_zero, not_false_eq_true, true_imp_iff, Option.some.injEq,
      forall_eq']
    by_cases hstart : StartsInKernel kernel entry
    · rw [poolBase, if_pos hstart]
      exact sound_of_startsInKernel hmem husable hstart
    · rw [poolBase, poolLength, if_neg hstart, if_neg hstart]
      exact sound_of_not_startsInKernel hmem husable hstart

/-- Conventional memory below 640 KiB and 126.9 MiB from 1 MiB on. -/
def twoRegions : MemoryMap where
  entries := [⟨0, 0x9FC00, 1, 0⟩, ⟨0x100000, 0x7EE0000, 1, 0⟩]
  nonzero := by decide

def kernel64K : KernelImage where
  klength := 0x10000
  linked := by decide

/-- The globals of a freshly loaded kernel. -/
def zeroGlobals : Globals := ⟨⟨0, 0, 0, Vector.replicate 100 0⟩, 0⟩

/-- With this memory map the last page of the pool starts where usable memory ends. -/
theorem initPmm_not_sound : ¬ PoolSound kernel64K twoRegions (fun _ => 0) 0x9000 zeroGlobals := by
  intro h
  have hchosen : chosen (twoRegions.entries.take 50) = some ⟨0x100000, 0x7EE0000, 1, 0⟩ := by decide
  obtain ⟨hfound, hbase, hpages⟩ :=
    initPmm_some kernel64K twoRegions (fun _ => 0) 0x9000 zeroGlobals hchosen
  have hlast := h (by rw [hfound]; decide) 0x7ECF (by rw [hpages]; decide)
  rw [hbase] at hlast
  obtain ⟨entry, hmem, _, hlow, hend⟩ := hlast.inside
  have haddress : poolBase kernel64K ⟨0x100000, 0x7EE0000, 1, 0⟩ + PAGESIZE * 0x7ECF = 0x7FE0000 := by
    decide
  rw [haddress] at hlow hend
  simp only [twoRegions, List.mem_cons, List.not_mem_nil, or_false] at hmem
  obtain rfl | rfl := hmem
  · exact absurd hend (by decide)
  · exact absurd hend (by decide)

end PaskakasaOS.Kernel.Memory.PoolSelection
