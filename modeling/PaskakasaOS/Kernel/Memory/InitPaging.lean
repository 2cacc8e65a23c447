import Mathlib.Order.Interval.Finset.Nat
import PaskakasaOS.Kernel.Memory.PageRuns

/-!
# The address space `init_paging` builds

The loop interleaves three ranges: the kernel image at its link address, the
same physical pages at their own address, and the framebuffer at its own
address. The first two never meet; the framebuffer range can overlap the second,
where both map a page to itself.
-/
namespace PaskakasaOS.Kernel.Memory.InitPaging

open Lib.ByteMemory Lib.TableTree Lib.Runs
open Utils.Mem (memset)
open Pmm Vmm VmmTree MapPage AddressSpace PageRuns

/-- `kernel_start` of the linker script. -/
def kernelStart : Nat := 0xFFFFFFFF80000000

/-- One iteration of the loop of `init_paging`; `framebuffer` is a `uint32_t`. -/
def initPagingStep (framebuffer : Nat) (s : Vm) (i : Nat) : Option Vm := do
  let s ← mapPage s ((kernelStart + i * 0x1000) % 2 ^ 64) (i * 0x1000)
  let s ← mapPage s (i * 0x1000) (i * 0x1000)
  mapPage s ((framebuffer + i * 0x1000) % 2 ^ 32) ((framebuffer + i * 0x1000) % 2 ^ 32)

/-- `init_paging`, up to the address `set_cr3` gets. -/
def initPaging (m : Memory) (pool : Pool) (framebuffer : Nat) : Option Vm := do
  let (pml, pool) ← pmmAllocate pool
  run (initPagingStep framebuffer) ⟨memset m pml 0 0x1000, pool, pml⟩ (List.range 6400)

/-- The frames `start` takes: one for the font file, then those of `init_paging`. -/
def startPaging (m : Memory) (pool : Pool) (framebuffer : Nat) : Option Vm := do
  let (_, pool) ← pmmAllocate pool
  initPaging m pool framebuffer

/-! ## The intended address space -/

def Canonical (v : Nat) : Prop := v < 2 ^ 47 ∨ (2 ^ 64 - 2 ^ 47 ≤ v ∧ v < 2 ^ 64)

/-- The address space `init_paging` is for. -/
def intended (framebuffer v : Nat) : Option Nat :=
  if kernelStart ≤ v ∧ v < kernelStart + 6400 * 4096 then some (v - kernelStart)
  else if v < 6400 * 4096 ∨ (framebuffer ≤ v ∧ v < framebuffer + 6400 * 4096) then some v
  else none

/-! ## The loop as one run of calls -/

def stepCalls (framebuffer i : Nat) : List Call :=
  [((kernelStart + i * 0x1000) % 2 ^ 64, i * 0x1000), (i * 0x1000, i * 0x1000),
    ((framebuffer + i * 0x1000) % 2 ^ 32, (framebuffer + i * 0x1000) % 2 ^ 32)]

def calls (framebuffer : Nat) : List Call := (List.range 6400).flatMap (stepCalls framebuffer)

theorem initPagingStep_eq (framebuffer : Nat) (s : Vm) (i : Nat) :
    initPagingStep framebuffer s i = run mapCall s (stepCalls framebuffer i) := by
  simp [initPagingStep, stepCalls, run, mapCall]

theorem mem_calls {framebuffer : Nat} (hend : framebuffer + 6400 * 4096 ≤ 2 ^ 32) (c : Call) :
    c ∈ calls framebuffer ↔ ∃ i < 6400, c = (kernelStart + i * 4096, i * 4096) ∨
      c = (i * 4096, i * 4096) ∨ c = (framebuffer + i * 4096, framebuffer + i * 4096) := by
  simp only [calls, List.mem_flatMap, List.mem_range]
  refine exists_congr fun i => and_congr_right fun hi => ?_
  have hk : (kernelStart + i * 0x1000) % 2 ^ 64 = kernelStart + i * 4096 := by
    rw [kernelStart]
    omega
  have hf : (framebuffer + i * 0x1000) % 2 ^ 32 = framebuffer + i * 4096 := by omega
  rw [stepCalls, hk, hf]
  simp

/-- The frames `init_paging` needs: `pml` and one for each table of its pages. -/
def framesNeeded (framebuffer : Nat) : Nat := 1 + (tablePaths (calls framebuffer)).card

theorem framesNeeded_le {framebuffer : Nat} (hend : framebuffer + 6400 * 4096 ≤ 2 ^ 32) :
    framesNeeded framebuffer ≤ 47 := by
  have hregions : ∀ c ∈ calls framebuffer,
      c.1 / 2 ^ 39 ∈ ({kernelStart / 2 ^ 39, 0} : Finset Nat) ∧
      c.1 / 2 ^ 30 ∈ {kernelStart / 2 ^ 30, 0} ∪
        Finset.Icc (framebuffer / 2 ^ 30) (framebuffer / 2 ^ 30 + 1) ∧
      c.1 / 2 ^ 21 ∈ Finset.Icc (kernelStart / 2 ^ 21) (kernelStart / 2 ^ 21 + 12) ∪ Finset.Icc 0 12 ∪
        Finset.Icc (framebuffer / 2 ^ 21) (framebuffer / 2 ^ 21 + 13) := by
    intro c hc
    obtain ⟨i, hi, rfl | rfl | rfl⟩ := (mem_calls hend c).mp hc
    all_goals
      simp only [kernelStart, Finset.mem_insert, Finset.mem_singleton, Finset.mem_union,
        Finset.mem_Icc]
      omega
  have hcard := tablePaths_card_le hregions
  have hB := Finset.card_union_le {kernelStart / 2 ^ 30, 0}
    (Finset.Icc (framebuffer / 2 ^ 30) (framebuffer / 2 ^ 30 + 1))
  have hC := Finset.card_union_le
    (Finset.Icc (kernelStart / 2 ^ 21) (kernelStart / 2 ^ 21 + 12) ∪ Finset.Icc 0 12)
    (Finset.Icc (framebuffer / 2 ^ 21) (framebuffer / 2 ^ 21 + 13))
  have hC' := Finset.card_union_le (Finset.Icc (kernelStart / 2 ^ 21) (kernelStart / 2 ^ 21 + 12))
    (Finset.Icc 0 12)
  have hA2 : ({kernelStart / 2 ^ 39, 0} : Finset Nat).card ≤ 2 := Finset.card_le_two
  have hB2 : ({kernelStart / 2 ^ 30, 0} : Finset Nat).card ≤ 2 := Finset.card_le_two
  simp only [Nat.card_Icc] at hB hC hC'
  rw [framesNeeded]
  omega

/-! ## What the calls say about each address -/

/-- Canonical addresses share a path exactly when they share their page. -/
theorem path_eq_canonical {v w : Nat} (hv : Canonical v) (hw : Canonical w) :
    path v = path w ↔ v / 4096 = w / 4096 := by
  rw [path_eq_iff]
  unfold Canonical at hv hw
  omega

/-- The walk ignores the top 16 bits: every address translates like a canonical one. -/
theorem exists_canonical (v : Nat) :
    ∃ w, Canonical w ∧ ∀ m pml, physicalAddress m pml v = physicalAddress m pml w := by
  have hsame : ∀ w, v / 2 ^ 12 % 2 ^ 36 = w / 2 ^ 12 % 2 ^ 36 → v % 0x1000 = w % 0x1000 →
      ∀ m pml, physicalAddress m pml v = physicalAddress m pml w := by
    intro w hpage hoffset m pml
    rw [physicalAddress, physicalAddress, walk_eq_follow, walk_eq_follow, (path_eq_iff v w).mpr hpage, hoffset]
  by_cases hbit : v % 2 ^ 48 < 2 ^ 47
  · exact ⟨v % 2 ^ 48, Or.inl hbit, hsame _ (by omega) (by omega)⟩
  · refine ⟨v % 2 ^ 48 + (2 ^ 64 - 2 ^ 48), Or.inr ?_, hsame _ ?_ ?_⟩ <;> omega

theorem canonical_call {framebuffer : Nat} (hend : framebuffer + 6400 * 4096 ≤ 2 ^ 32) {c : Call}
    (hc : c ∈ calls framebuffer) : Canonical c.1 := by
  obtain ⟨i, hi, rfl | rfl | rfl⟩ := (mem_calls hend c).mp hc
  all_goals
    simp only [kernelStart, Canonical]
    omega

section Lookup

variable {framebuffer v : Nat}

/-- A call counts for `v` exactly when it is for the page of `v`. -/
theorem call_path (hend : framebuffer + 6400 * 4096 ≤ 2 ^ 32) (hv : Canonical v) {c : Call}
    (hc : c ∈ calls framebuffer) : path c.1 = path v ↔ c.1 / 4096 = v / 4096 :=
  path_eq_canonical (canonical_call hend hc) hv

theorem lookup_calls_kernel (hal : framebuffer % 4096 = 0)
    (hend : framebuffer + 6400 * 4096 ≤ 2 ^ 32) (hv : Canonical v)
    (hk : kernelStart ≤ v ∧ v < kernelStart + 6400 * 4096) :
    lookup (calls framebuffer) v = some ((v - kernelStart) / 4096) := by
  have hmem : (kernelStart + (v - kernelStart) / 4096 * 4096, (v - kernelStart) / 4096 * 4096) ∈
      calls framebuffer :=
    (mem_calls hend _).mpr ⟨(v - kernelStart) / 4096, by omega, Or.inl rfl⟩
  apply lookup_of_mem hmem
  · rw [call_path hend hv hmem, kernelStart]
    unfold kernelStart at hk
    omega
  · intro c hc hpath
    rw [call_path hend hv hc] at hpath
    unfold kernelStart at hk ⊢
    obtain ⟨i, hi, rfl | rfl | rfl⟩ := (mem_calls hend c).mp hc
    all_goals
      simp only [kernelStart] at hpath ⊢
      omega

/-- Low memory and the framebuffer are mapped to themselves, wherever they meet. -/
theorem lookup_calls_self (hal : framebuffer % 4096 = 0)
    (hend : framebuffer + 6400 * 4096 ≤ 2 ^ 32) (hv : Canonical v)
    (hself : v < 6400 * 4096 ∨ (framebuffer ≤ v ∧ v < framebuffer + 6400 * 4096)) :
    lookup (calls framebuffer) v = some (v / 4096) := by
  have hmem : (v / 4096 * 4096, v / 4096 * 4096) ∈ calls framebuffer := by
    rw [mem_calls hend]
    rcases hself with hlow | hfb
    · exact ⟨v / 4096, by omega, Or.inr (Or.inl rfl)⟩
    · refine ⟨(v - framebuffer) / 4096, by omega, Or.inr (Or.inr ?_)⟩
      have heq : v / 4096 * 4096 = framebuffer + (v - framebuffer) / 4096 * 4096 := by omega
      rw [heq]
  apply lookup_of_mem hmem
  · rw [call_path hend hv hmem]
    omega
  · intro c hc hpath
    rw [call_path hend hv hc] at hpath
    obtain ⟨i, hi, rfl | rfl | rfl⟩ := (mem_calls hend c).mp hc
    all_goals
      simp only [kernelStart] at hpath ⊢
      omega

theorem lookup_calls_none (hal : framebuffer % 4096 = 0)
    (hend : framebuffer + 6400 * 4096 ≤ 2 ^ 32) (hv : Canonical v)
    (hk : ¬ (kernelStart ≤ v ∧ v < kernelStart + 6400 * 4096))
    (hself : ¬ (v < 6400 * 4096 ∨ (framebuffer ≤ v ∧ v < framebuffer + 6400 * 4096))) :
    lookup (calls framebuffer) v = none := by
  apply lookup_of_not_mem
  intro c hc
  rw [Ne, call_path hend hv hc]
  unfold kernelStart at hk
  obtain ⟨i, hi, rfl | rfl | rfl⟩ := (mem_calls hend c).mp hc
  all_goals
    simp only [kernelStart]
    omega

theorem lookup_calls (hal : framebuffer % 4096 = 0) (hend : framebuffer + 6400 * 4096 ≤ 2 ^ 32)
    (hv : Canonical v) :
    (lookup (calls framebuffer) v).map (fun f => 4096 * f + v % 4096) = intended framebuffer v := by
  by_cases hk : kernelStart ≤ v ∧ v < kernelStart + 6400 * 4096
  · rw [lookup_calls_kernel hal hend hv hk, intended, if_pos hk, Option.map_some]
    refine congrArg some ?_
    unfold kernelStart at hk ⊢
    omega
  · rw [intended, if_neg hk]
    by_cases hself : v < 6400 * 4096 ∨ (framebuffer ≤ v ∧ v < framebuffer + 6400 * 4096)
    · rw [lookup_calls_self hal hend hv hself, if_pos hself, Option.map_some]
      refine congrArg some ?_
      omega
    · rw [lookup_calls_none hal hend hv hk hself, if_neg hself, Option.map_none]

end Lookup

theorem physicalAddress_eq_slots (m : Memory) (r v : Nat) :
    physicalAddress m (4096 * r) v = (follow (slot m) r (path v)).map (fun f => 4096 * f + v % 4096) := by
  rw [physicalAddress, walk_eq_slots, Option.map_map]
  rfl

/-- The loop after the first frame, for any rounds: with the 6400 of the source in its
place, the kernel would unfold them. -/
theorem allocate_then_rounds {m : Memory} {pool pool' : Pool} {pml : Nat} (framebuffer : Nat)
    (rounds : List Nat) (ha : pmmAllocate pool = some (pml, pool')) :
    (do let (pml, pool) ← pmmAllocate pool
        run (initPagingStep framebuffer) ⟨memset m pml 0 0x1000, pool, pml⟩ rounds) =
      run mapCall ⟨memset m pml 0 0x1000, pool', pml⟩ (rounds.flatMap (stepCalls framebuffer)) := by
  rw [ha, ← run_flatMap (initPagingStep_eq framebuffer)]
  rfl

/-- `init_paging` is a run of the calls from a cleared `pml`. -/
theorem initPaging_eq_run {m : Memory} {pool pool' : Pool} {pml : Nat} (framebuffer : Nat)
    (ha : pmmAllocate pool = some (pml, pool')) :
    initPaging m pool framebuffer =
      run mapCall ⟨memset m pml 0 0x1000, pool', pml⟩ (calls framebuffer) :=
  allocate_then_rounds framebuffer (List.range 6400) ha

/-- Calls on a cleared `pml` map each address as the first call for its page says, with
one frame for the `pml` and one for each table. -/
theorem run_zeroed (m : Memory) {pool : Pool} {calls : List Call} (hf : Framed pool)
    (hfree : 1 + (tablePaths calls).card ≤ freeFrames pool) :
    ∃ pml pool' s, pmmAllocate pool = some (pml, pool') ∧
      run mapCall ⟨memset m pml 0 0x1000, pool', pml⟩ calls = some s ∧
      (∀ v, physicalAddress s.mem s.pml v = (lookup calls v).map (fun f => 4096 * f + v % 4096)) ∧
      freeFrames s.pool + (1 + (tablePaths calls).card) = freeFrames pool := by
  obtain ⟨r, pool', ha, hinv, hcount⟩ := treeInv_zeroed m hf (by omega)
  have hempty : ∀ q : Path, q ≠ [] →
      follow (slot (memset m (4096 * r) 0 0x1000)) r q = none := by
    intro q hq
    obtain ⟨i, p, rfl⟩ := List.exists_cons_of_ne_nil hq
    rw [Utils.Mem.memset_eq_fill, slot_fill, follow_clear_root]
  have hzero : Counted ⟨memset m (4096 * r) 0 0x1000, pool', 4096 * r⟩ r ∅ (freeFrames pool') := by
    refine ⟨?_, by simp⟩
    intro q h1 _
    have hq : q ≠ [] := by
      rintro rfl
      simp at h1
    simp [hempty q hq]
  have hfits : (∅ ∪ tablePaths calls).card ≤ freeFrames pool' := by
    rw [Finset.empty_union]
    omega
  obtain ⟨s, hrun, hinv', hcounted, hwalk⟩ := run_mapCall hinv hzero hfits
  have hframes := hcounted.frames
  rw [Finset.empty_union] at hframes
  refine ⟨4096 * r, pool', s, ha, hrun, ?_, by omega⟩
  intro v
  rw [hinv'.root, physicalAddress_eq_slots, hwalk v, hempty _ (by simp [path]), Option.none_or]

/-- With the frames it needs, `init_paging` builds exactly the intended address
space and takes exactly those frames. -/
theorem initPaging_spec (m : Memory) {pool : Pool} {framebuffer : Nat} (hf : Framed pool)
    (hal : framebuffer % 4096 = 0) (hend : framebuffer + 6400 * 4096 ≤ 2 ^ 32)
    (hfree : framesNeeded framebuffer ≤ freeFrames pool) :
    ∃ s, initPaging m pool framebuffer = some s ∧
      (∀ v, Canonical v → physicalAddress s.mem s.pml v = intended framebuffer v) ∧
      freeFrames s.pool + framesNeeded framebuffer = freeFrames pool := by
  obtain ⟨pml, pool', s, ha, hrun, hwalk, hframes⟩ := run_zeroed m hf hfree
  refine ⟨s, (initPaging_eq_run framebuffer ha).trans hrun, ?_, hframes⟩
  intro v hv
  rw [hwalk, lookup_calls hal hend hv]

theorem allocate_then {pool pool' : Pool} {frame : Nat} (next : Pool → Option Vm)
    (ha : pmmAllocate pool = some (frame, pool')) :
    (do let (_, pool) ← pmmAllocate pool
        next pool) = next pool' := by
  rw [ha]
  rfl

theorem startPaging_eq {m : Memory} {pool pool' : Pool} {font : Nat} (framebuffer : Nat)
    (ha : pmmAllocate pool = some (font, pool')) :
    startPaging m pool framebuffer = initPaging m pool' framebuffer :=
  allocate_then (fun pool => initPaging m pool framebuffer) ha

/-- The boot sequence never scans past the bitmap: at most 49 of its entries are used. -/
theorem startPaging_spec (m : Memory) {pool : Pool} {framebuffer : Nat} (hf : Framed pool)
    (hzero : pool.bitmap = Vector.replicate 100 0) (hpages : 49 ≤ pool.pages)
    (hal : framebuffer % 4096 = 0) (hend : framebuffer + 6400 * 4096 ≤ 2 ^ 32) :
    ∃ s, startPaging m pool framebuffer = some s ∧
      min pool.pages 100 ≤ freeFrames s.pool + 49 := by
  have hneed := framesNeeded_le hend
  have hall := freeFrames_fresh hzero
  have hsome : 0 < freeFrames pool := by omega
  obtain ⟨j, pool', ha, _, _, hcount, hbase, hpages'⟩ := pmmAllocate_of_free hsome
  have hf' : Framed pool' := ⟨hbase ▸ hf.aligned, hbase ▸ hpages' ▸ hf.physical⟩
  obtain ⟨s, hs, _, hframes⟩ := initPaging_spec m hf' hal hend (by omega)
  exact ⟨s, (startPaging_eq framebuffer ha).trans hs, by omega⟩

/-- `init_paging` builds exactly the intended address space from at most 48
frames, so that the boot sequence stays within the bitmap. -/
theorem initPaging_address_space (m : Memory) {pool : Pool} {framebuffer : Nat} (hf : Framed pool)
    (hal : framebuffer % 4096 = 0) (hend : framebuffer + 6400 * 4096 ≤ 2 ^ 32)
    (hfree : framesNeeded framebuffer ≤ freeFrames pool) :
    (∃ s, initPaging m pool framebuffer = some s ∧
      (∀ v, Canonical v → physicalAddress s.mem s.pml v = intended framebuffer v) ∧
      freeFrames s.pool + framesNeeded framebuffer = freeFrames pool) ∧
    framesNeeded framebuffer ≤ 48 ∧
    ∀ boot : Pool, Framed boot → boot.bitmap = Vector.replicate 100 0 → 49 ≤ boot.pages →
      ∃ s, startPaging m boot framebuffer = some s ∧
        min boot.pages 100 ≤ freeFrames s.pool + 49 :=
  ⟨initPaging_spec m hf hal hend hfree, (framesNeeded_le hend).trans (by decide),
    fun _ hboot hzero hpages => startPaging_spec m hboot hzero hpages hal hend⟩

/-- A framebuffer at the top of the 32-bit space and the sample pool. -/
theorem initPaging_address_space_high :
    (∃ s, initPaging (fun _ => 0) samplePool 0xE0000000 = some s ∧
      (∀ v, Canonical v → physicalAddress s.mem s.pml v = intended 0xE0000000 v) ∧
      freeFrames s.pool + framesNeeded 0xE0000000 = freeFrames samplePool) ∧
    framesNeeded 0xE0000000 ≤ 48 ∧
    ∀ boot : Pool, Framed boot → boot.bitmap = Vector.replicate 100 0 → 49 ≤ boot.pages →
      ∃ s, startPaging (fun _ => 0) boot 0xE0000000 = some s ∧
        min boot.pages 100 ≤ freeFrames s.pool + 49 :=
  initPaging_address_space (fun _ => 0) samplePool_framed (by decide) (by decide)
    ((framesNeeded_le (by decide)).trans (by rw [samplePool_free]; decide))

end PaskakasaOS.Kernel.Memory.InitPaging
