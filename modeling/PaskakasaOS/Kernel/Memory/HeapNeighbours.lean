import PaskakasaOS.Kernel.Memory.HeapExtent
import PaskakasaOS.Kernel.Memory.PoolSelection

/-!
# The heap, the boot stack and the frame pool

The linker script puts the boot stack 64 KiB behind `kernel_end`, and `init_pmm` starts
the frame pool 1 MiB and a page behind the kernel. The heap starts at the page behind
`kernel_end` and its words take 1 MiB.
-/
namespace PaskakasaOS.Kernel.Memory.HeapNeighbours

open Lib.ByteMemory Lib.Runs
open InitPaging (kernelStart intended Canonical framesNeeded initPaging initPaging_spec)
open Vmm (physicalAddress)
open Pmm InitPmm PoolSelection
open Alloc HeapList HeapContainment HeapExtent

/-- The address of a word of the heap. -/
def wordAt (kernelEnd words : Nat) : Nat := (kernelEnd + 0x1000) / 0x1000 * 0x1000 + 8 * words

theorem wordAt_installHeap (image : Image) (m : Memory) (words : Nat) :
    (installHeap image m).heapStart + 8 * words = wordAt image.kernelEnd words := by
  rw [installHeap_heapStart, wordAt]

/-! ## The boot stack -/

def stackBottom (kernelEnd : Nat) : Nat := (kernelEnd + 0x10000 + 0x3FFF) / 0x4000 * 0x4000
def stackTop (kernelEnd : Nat) : Nat := stackBottom kernelEnd + 0x20000

/-- No byte of the range lies on the boot stack. -/
def OffStack (kernelEnd a len : Nat) : Prop :=
  ∀ b, a ≤ b → b < a + len → b < stackBottom kernelEnd ∨ stackTop kernelEnd ≤ b

theorem offStack_iff {kernelEnd a len : Nat} (hlen : 0 < len) :
    OffStack kernelEnd a len ↔ a + len ≤ stackBottom kernelEnd ∨ stackTop kernelEnd ≤ a := by
  rw [OffStack, stackTop]
  constructor
  · intro hoff
    by_contra hcon
    push Not at hcon
    obtain ⟨hend, hbegin⟩ := hcon
    -- the first byte of the range that is not below the stack
    have hbyte := hoff (max a (stackBottom kernelEnd)) (by omega) (by omega)
    omega
  · intro hside b hb hb'
    omega

/-- A request for `n` words is refused, or its block lies behind the stack, or the
bytes of the request end below the stack and the next header on neither part of it. -/
def SparesStack (kernelEnd words n : Nat) : Prop :=
  128 * 1024 ≤ words + n ∨ stackTop kernelEnd ≤ wordAt kernelEnd words ∨
    (wordAt kernelEnd words + sizeofBlock + n ≤ stackBottom kernelEnd ∧
      (wordAt kernelEnd (words + n) + sizeofBlock ≤ stackBottom kernelEnd ∨
        stackTop kernelEnd ≤ wordAt kernelEnd (words + n)))

theorem sparesStack_iff {kernelEnd words n : Nat} (hn : 0 < n) (hserved : words + n < 128 * 1024) :
    SparesStack kernelEnd words n ↔ OffStack kernelEnd (wordAt kernelEnd words) sizeofBlock ∧
      OffStack kernelEnd (wordAt kernelEnd (words + n)) sizeofBlock ∧
      OffStack kernelEnd (wordAt kernelEnd words + sizeofBlock) n := by
  have hpos : 0 < sizeofBlock := by decide
  rw [offStack_iff hpos, offStack_iff hpos, offStack_iff hn, SparesStack,
    or_iff_right (by omega), stackTop, wordAt, wordAt]
  omega

/-- Every request is refused or spares the stack: then, and only then, do the headers
and the ranges returned miss it. -/
theorem heap_offStack_iff (image : Image) (m : Memory) (requests : List Int32)
    (hfour : ∀ n ∈ requests, 4 ≤ n.toInt) :
    RunWithin (OffStack image.kernelEnd) image m requests ↔
      ∀ k n, requests[k]? = some n →
        SparesStack image.kernelEnd (wordsServed (requests.take k)) (toU64 n) := by
  apply runWithin_iff_forall image m (fun n hn => by have := hfour n hn; omega)
  · rw [offStack_iff (by decide), installHeap_heapStart, stackBottom, sizeofBlock]
    omega
  · exact fun words n hrefused => Or.inl hrefused
  · intro words n hn hserved
    rw [wordAt_installHeap, wordAt_installHeap, sparesStack_iff hn hserved]

/-- Two blocks of 16 KiB before the stack, and a large one over it. -/
theorem heap_offStack_iff_three :
    RunWithin (OffStack HeapRuns.sampleImage.kernelEnd) HeapRuns.sampleImage (fun _ => 0)
        [0x400, 0x400, 0x8000] ↔
      ∀ k n, ([0x400, 0x400, 0x8000] : List Int32)[k]? = some n →
        SparesStack HeapRuns.sampleImage.kernelEnd
          (wordsServed (([0x400, 0x400, 0x8000] : List Int32).take k)) (toU64 n) :=
  heap_offStack_iff HeapRuns.sampleImage (fun _ => 0) [0x400, 0x400, 0x8000] (by simp)

/-- The block for the stack of the first process ends inside the boot stack. -/
theorem kalloc_stack_on_boot_stack :
    ¬ RunWithin (OffStack HeapRuns.sampleImage.kernelEnd) HeapRuns.sampleImage (fun _ => 0) [0x4000] := by
  intro h
  rw [runWithin_iff HeapRuns.sampleImage (fun _ => 0) (by simp)] at h
  have hback := (h.2 0 0x4000 rfl (by decide)).2.1
  rw [wordAt_installHeap] at hback
  exact absurd ((offStack_iff (by decide)).mp hback) (by decide)

/-! ## The frame pool -/

/-- The kernel image as `init_pmm` measures it. -/
def kernelImage (image : Image) : KernelImage where
  klength := image.kernelEnd - kernelStart
  linked := by
    have hlinked := image.linked
    have hfits := image.fits
    omega

/-- The frame of a kernel address. -/
def physical (v : Nat) : Nat := v - kernelStart

/-- `init_paging` maps the kernel addresses it covers so. -/
theorem initPaging_physical (m : Memory) {pool : Pool} {framebuffer : Nat} (hf : Framed pool)
    (hal : framebuffer % 4096 = 0) (hend : framebuffer + 6400 * 4096 ≤ 2 ^ 32)
    (hfree : framesNeeded framebuffer ≤ freeFrames pool) :
    ∃ s, initPaging m pool framebuffer = some s ∧
      ∀ v, kernelStart ≤ v → v < kernelStart + 6400 * 4096 →
        physicalAddress s.mem s.pml v = some (physical v) := by
  obtain ⟨s, hs, hspec, _⟩ := initPaging_spec m hf hal hend hfree
  refine ⟨s, hs, fun v hlow hhigh => ?_⟩
  have hcanonical : Canonical v := by
    rw [Canonical]
    rw [kernelStart] at hlow hhigh
    omega
  rw [hspec v hcanonical, intended, if_pos ⟨hlow, hhigh⟩, physical]

/-- Every byte of the range lies below the pool. -/
def BelowPool (base a len : Nat) : Prop := ∀ b, a ≤ b → b < a + len → physical b < base

/-- So none of them is in a frame that the pool hands out. -/
theorem BelowPool.outside_frame {pool pool' : Pool} {a len frame b : Nat}
    (h : BelowPool pool.base a len) (hf : Framed pool)
    (hframe : pmmAllocate pool = some (frame, pool')) (hfree : 0 < freeFrames pool)
    (hb : a ≤ b) (hb' : b < a + len) : physical b < frame := by
  obtain ⟨j, pool'', heq, hj, _⟩ := pmmAllocate_of_free hfree
  rw [hframe] at heq
  obtain ⟨rfl, _⟩ := Prod.mk.inj (Option.some.inj heq)
  rw [(hf.address hj).1, frameNumber]
  have hbelow := h b hb hb'
  have haligned := hf.aligned
  simp only [PAGESIZE] at *
  omega

theorem belowPool_iff {base a len : Nat} (hlow : kernelStart ≤ a) (hlen : 0 < len) :
    BelowPool base a len ↔ physical a + len ≤ base := by
  rw [physical]
  constructor
  · intro hbelow
    have hlast := hbelow (a + len - 1) (by omega) (by omega)
    rw [physical] at hlast
    omega
  · intro hend b hb hb'
    rw [physical]
    omega

section Pool

variable (image : Image)

theorem kernelImage_klength : (kernelImage image).klength = image.kernelEnd - kernelStart := rfl

theorem kernelStart_le_wordAt (words : Nat) : kernelStart ≤ wordAt image.kernelEnd words := by
  have hlinked := image.linked
  rw [wordAt]
  rw [kernelStart] at hlinked ⊢
  omega

theorem physical_wordAt (words : Nat) : physical (wordAt image.kernelEnd words) =
    ((kernelImage image).klength + 0x1000) / 0x1000 * 0x1000 + 8 * words := by
  have hlinked := image.linked
  rw [kernelImage_klength, physical, wordAt]
  rw [kernelStart] at hlinked ⊢
  omega

/-- The pool starts at the first page boundary a megabyte and a page behind the kernel. -/
theorem kernelTop_kernelImage : kernelTop (kernelImage image) =
    ((kernelImage image).klength + 0x1000 + 0xFFF) / 0x1000 * 0x1000 + kphysStart := by
  have hlinked := (kernelImage image).linked
  rw [kernelStart] at hlinked
  rw [kernelTop, maskPage, kphysStart]
  omega

/-- A request is refused or leaves three words, or the kernel ends inside a page. -/
def SparesPool (klength words n : Nat) : Prop :=
  128 * 1024 ≤ words + n ∨ words + n + 3 ≤ 128 * 1024 ∨ klength % 0x1000 ≠ 0

theorem sparesPool_iff {words n : Nat} (hn : 0 < n) (hserved : words + n < 128 * 1024) :
    SparesPool (kernelImage image).klength words n ↔
      BelowPool (kernelTop (kernelImage image)) (wordAt image.kernelEnd words) sizeofBlock ∧
      BelowPool (kernelTop (kernelImage image)) (wordAt image.kernelEnd (words + n)) sizeofBlock ∧
      BelowPool (kernelTop (kernelImage image)) (wordAt image.kernelEnd words + sizeofBlock) n := by
  have hlow := kernelStart_le_wordAt image words
  have hpos : 0 < sizeofBlock := by decide
  have hrange : physical (wordAt image.kernelEnd words + sizeofBlock) =
      physical (wordAt image.kernelEnd words) + sizeofBlock := by
    rw [physical, physical]
    omega
  rw [belowPool_iff hlow hpos, belowPool_iff (kernelStart_le_wordAt image _) hpos,
    belowPool_iff (Nat.le_add_right_of_le hlow) hn, hrange, physical_wordAt, physical_wordAt,
    kernelTop_kernelImage, sizeofBlock, kphysStart, SparesPool, or_iff_right (by omega)]
  omega

/-- Only the header behind the last block can lie in the first frame of the pool, and
only with a kernel that ends on a page boundary. -/
theorem heap_belowPool_iff (m : Memory) (map : MemoryMap) (memory : Memory) (e820map : Nat)
    (g : Globals) (entry : E820Entry) (hchosen : chosen (map.entries.take 50) = some entry)
    (hstart : StartsInKernel (kernelImage image) entry) (requests : List Int32)
    (hfour : ∀ n ∈ requests, 4 ≤ n.toInt) :
    RunWithin (BelowPool (initPmm (kernelImage image) (map.place memory e820map) e820map g).pool.base)
        image m requests ↔
      ∀ k n, requests[k]? = some n →
        SparesPool (kernelImage image).klength (wordsServed (requests.take k)) (toU64 n) := by
  obtain ⟨_, hbase, _⟩ := initPmm_some (kernelImage image) map memory e820map g hchosen
  rw [hbase, poolBase, if_pos hstart]
  apply runWithin_iff_forall image m (fun n hn => by have := hfour n hn; omega)
  · have hzero := wordAt_installHeap image m 0
    rw [Nat.mul_zero, Nat.add_zero] at hzero
    rw [hzero]
    exact ((sparesPool_iff image (show 0 < 3 by decide) (by decide)).mp
      (Or.inr (Or.inl (by decide)))).1
  · exact fun words n hrefused => Or.inl hrefused
  · intro words n hn hserved
    rw [wordAt_installHeap, wordAt_installHeap, sparesPool_iff image hn hserved]

/-- The first two processes of a kernel of 128 KiB. -/
theorem heap_belowPool_iff_two :
    RunWithin (BelowPool (initPmm (kernelImage HeapRuns.sampleImage)
        (twoRegions.place (fun _ => 0) 0x9000) 0x9000 zeroGlobals).pool.base)
        HeapRuns.sampleImage (fun _ => 0) [0x4000, 0x4000] ↔
      ∀ k n, ([0x4000, 0x4000] : List Int32)[k]? = some n →
        SparesPool (kernelImage HeapRuns.sampleImage).klength
          (wordsServed (([0x4000, 0x4000] : List Int32).take k)) (toU64 n) :=
  heap_belowPool_iff HeapRuns.sampleImage (fun _ => 0) twoRegions (fun _ => 0) 0x9000 zeroGlobals
    ⟨0x100000, 0x7EE0000, 1, 0⟩ (by decide) (by decide) [0x4000, 0x4000] (by simp)

/-- A request that leaves one word puts its last header into the first frame. -/
theorem kalloc_header_in_pool :
    ¬ RunWithin (BelowPool (initPmm (kernelImage HeapRuns.sampleImage)
        (twoRegions.place (fun _ => 0) 0x9000) 0x9000 zeroGlobals).pool.base)
        HeapRuns.sampleImage (fun _ => 0) [0x1FFFF] := by
  intro h
  have hchosen : chosen (twoRegions.entries.take 50) = some ⟨0x100000, 0x7EE0000, 1, 0⟩ := by decide
  obtain ⟨_, hbase, _⟩ := initPmm_some (kernelImage HeapRuns.sampleImage) twoRegions (fun _ => 0)
    0x9000 zeroGlobals hchosen
  rw [hbase, poolBase, if_pos (by decide), runWithin_iff HeapRuns.sampleImage (fun _ => 0) (by simp)] at h
  have hback := h.2 0 0x1FFFF rfl (by decide)
  rw [wordAt_installHeap, wordAt_installHeap,
    ← sparesPool_iff HeapRuns.sampleImage (by decide) (by decide)] at hback
  exact absurd hback (by unfold SparesPool; decide)

end Pool

end PaskakasaOS.Kernel.Memory.HeapNeighbours
