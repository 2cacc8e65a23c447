import PaskakasaOS.Kernel.Memory.HeapExtent

/-!
# Whether the block list ends

A block of no word is linked to itself, and behind a block of two words the list goes
on at the address that was a size. A block of one word keeps the list, but its header
overlaps the next one, so that the block behind it must not be split.
-/
namespace PaskakasaOS.Kernel.Memory.HeapTermination

open Lib.ByteMemory Lib.Layout Lib.Runs
open Alloc HeapList HeapContainment HeapExtent

/-- What the requests alone say about the list. -/
inductive ListShape where
  /-- The list ends in a free block of `free` words, `words` words into the heap. -/
  | whole (words free : Nat)
  /-- So it does, but its last header lies in the link of the one before. -/
  | overlapped (free : Nat)
  /-- No block is free. -/
  | full
  deriving DecidableEq

/-- The shape after a request on a heap at `start`; `none` when the request overwrites a
link with something else than the address of a block. -/
def reshape (start : Nat) : ListShape → Int32 → Option ListShape
  | .whole words free, n =>
    if free ≤ toU64 n then some (.whole words free)
    else if toU64 n = 1 then
      if (start + 8 * words + 8) % 256 = 0 then some (.overlapped ((free - 1) / 256 * 256 + 1))
      else some .full
    else if 3 ≤ toU64 n then some (.whole (words + toU64 n) (free - toU64 n))
    else none
  | .overlapped free, n => if free ≤ toU64 n then some (.overlapped free) else none
  | .full, _ => some .full

/-- The list that starts at `heap_start` is null-terminated and has no cycle. -/
def ListEnds (h : Heap) : Prop := ∃ fuel bs, blocksFrom h.mem fuel h.heapStart = some bs ∧ bs.Nodup

/-- Every call of the run ends, and so does the list after it and any call made then. -/
def RunEnds (image : Image) (m : Memory) (requests : List Int32) : Prop :=
  ∀ k, ∃ h, run heapStep (installHeap image m) (requests.take k) = some h ∧ ListEnds h ∧
    ∀ n, (kalloc h n).isSome

/-- The heap has a list of that shape, and `free_ptr` points to its last block. -/
def Shaped (start : Nat) (h : Heap) : ListShape → Prop
  | .whole words free => h.heapStart = start ∧ ∃ used, used.sum = words ∧ Chained h used free
  | .overlapped free => h.heapStart = start ∧
      ∃ used, Ended h used free BLOCK_FREE ∧ h.freePtr = h.heapStart + 8 * used.sum
  | .full => h.heapStart = start ∧ ∃ used size status, Ended h used size status ∧
      status ≠ BLOCK_FREE ∧ h.freePtr = h.heapStart + 8 * used.sum

section Shape

variable {h : Heap} {start : Nat} {used : List Nat} {size status free : Nat} {n : Int32}

theorem listEnds_of_ended (he : Ended h used size status) : ListEnds h := by
  refine ⟨_, _, he.blocksFrom 1, ?_⟩
  have hpos : ∀ x ∈ layout 8 h.heapStart (used ++ [1]), 1 ≤ x.2 := by
    intro x hx
    rcases List.mem_append.mp (mem_sizes hx) with hmem | hmem
    · exact he.large _ hmem
    · exact (List.mem_singleton.mp hmem).ge
  rw [List.Nodup, List.pairwise_map]
  refine layout_pairwise.imp_of_mem fun {x y} hx _ hxy => ?_
  have hone := hpos x hx
  omega

theorem kalloc_isSome_of_ended (he : Ended h used size status) (n : Int32) : (kalloc h n).isSome := by
  rw [kalloc]
  split
  · rfl
  · rw [firstFit, he.search n]
    split <;> simp_all

theorem Shaped.ended {s : ListShape} (hs : Shaped start h s) :
    ∃ used size status, Ended h used size status := by
  cases s with
  | whole words free =>
    obtain ⟨_, used, _, hc⟩ := hs
    exact ⟨used, free, BLOCK_FREE, hc.ended⟩
  | overlapped free =>
    obtain ⟨_, used, he, _⟩ := hs
    exact ⟨used, free, BLOCK_FREE, he⟩
  | full =>
    obtain ⟨_, used, size, status, he, _⟩ := hs
    exact ⟨used, size, status, he⟩

/-- A list whose last block does not serve the request stays as it is. -/
theorem heapStep_of_ended (he : Ended h used size status) (hptr : h.freePtr = h.heapStart + 8 * used.sum)
    (hlast : ¬ (status = BLOCK_FREE ∧ toU64 n < size)) : heapStep h n = some h := by
  have hfast : ¬ Fits h.mem h.freePtr n := by
    rwa [Fits, hptr, he.last.status, he.last.size]
  exact heapStep_of_refused (refused_of_ended he hfast hlast).2

theorem Shaped.step {s s' : ListShape} (hs : Shaped start h s) (hn : reshape start s n = some s') :
    ∃ h', heapStep h n = some h' ∧ Shaped start h' s' := by
  cases s with
  | whole words free =>
    obtain ⟨hstart, used, rfl, hc⟩ := hs
    rw [reshape] at hn
    by_cases hlt : free ≤ toU64 n
    · rw [if_pos hlt] at hn
      obtain rfl := Option.some.inj hn
      exact ⟨h, heapStep_of_refused (refused_of_chained hc hlt).2, hstart, used, rfl, hc⟩
    · have hserved : heapStep h n = some (splitBlock h h.freePtr n) := by
        rw [heapStep, hc.kalloc n, if_pos (by omega)]
        rfl
      rw [if_neg hlt] at hn
      refine ⟨_, hserved, ?_⟩
      split_ifs at hn with hone hzero hthree
      · obtain rfl := Option.some.inj hn
        obtain ⟨he, hptr⟩ := split_one_of_chained hc hone (by omega)
        rw [hstart, hzero] at he
        exact ⟨hstart, _, he, hptr⟩
      · obtain rfl := Option.some.inj hn
        obtain ⟨he, hptr⟩ := split_one_of_chained hc hone (by omega)
        rw [hstart] at he
        exact ⟨hstart, _, _, _, he, hzero, hptr⟩
      · obtain rfl := Option.some.inj hn
        exact ⟨hstart, used ++ [toU64 n], by simp, hc.split hthree (by omega)⟩
  | overlapped free =>
    obtain ⟨hstart, used, he, hptr⟩ := hs
    rw [reshape] at hn
    split_ifs at hn with hlt
    obtain rfl := Option.some.inj hn
    exact ⟨h, heapStep_of_ended he hptr (by omega), hstart, used, he, hptr⟩
  | full =>
    obtain ⟨hstart, used, size, status, he, hbusy, hptr⟩ := hs
    obtain rfl := Option.some.inj hn
    exact ⟨h, heapStep_of_ended he hptr (fun hfree => hbusy hfree.1), hstart, used, size, status, he,
      hbusy, hptr⟩

end Shape

/-- In a run of which no request overwrites a link, every call ends. -/
theorem kalloc_ends (image : Image) (m : Memory) (requests : List Int32)
    (hclear : (run (reshape (installHeap image m).heapStart) (.whole 0 (128 * 1024)) requests).isSome) :
    RunEnds image m requests := by
  intro k
  obtain ⟨s, hs⟩ := run_take_of_isSome hclear k
  have hfirst : Shaped (installHeap image m).heapStart (installHeap image m) (.whole 0 (128 * 1024)) :=
    ⟨rfl, [], rfl, (listed_installHeap image m).chained⟩
  have hstep : ∀ h s n s', Shaped (installHeap image m).heapStart h s →
      reshape (installHeap image m).heapStart s n = some s' →
      ∃ h', heapStep h n = some h' ∧ Shaped (installHeap image m).heapStart h' s' :=
    fun _ _ _ _ hs hn => hs.step hn
  obtain ⟨h, hrun, hshape⟩ := run_simulates hstep hfirst hs
  obtain ⟨used, size, status, he⟩ := hshape.ended
  exact ⟨h, hrun, listEnds_of_ended he, kalloc_isSome_of_ended he⟩

/-- Negative requests are refused, and a block of one word is the last one. -/
theorem kalloc_ends_five : RunEnds HeapRuns.sampleImage (fun _ => 0) [0x4000, -5, 3, 1, 0] :=
  kalloc_ends HeapRuns.sampleImage (fun _ => 0) [0x4000, -5, 3, 1, 0] (by decide)

/-! ## A request for no word -/

section Zero

variable {h : Heap} {used : List Nat} {free ptr : Nat} {n : Int32}

/-- Its block is linked to itself. -/
theorem splitBlock_zero (h : Heap) (hn : toU64 n = 0) (hptr : ptr < 2 ^ 64) :
    blockStatus (splitBlock h ptr n).mem ptr = BLOCK_USED ∧
      blockNext (splitBlock h ptr n).mem ptr = ptr := by
  have hnew : (ptr + 8 * 0) % 2 ^ 64 = ptr := Nat.mod_eq_of_lt hptr
  rw [splitBlock, hn, hnew]
  simp (disch := omega) [BLOCK_USED]

theorem search_self {m : Memory} {b : Nat} (k : Int32) (hb : b ≠ 0)
    (hbusy : blockStatus m b = BLOCK_USED) (hself : blockNext m b = b) (fuel : Nat) :
    search m k fuel b = none := by
  have hfits : ¬ Fits m b k := by
    intro hfits
    exact absurd (hbusy.symm.trans hfits.1) (by decide)
  induction fuel with
  | zero => rfl
  | succ fuel ih => rw [search, if_neg hb, if_neg hfits, hself, ih]

/-- The call is served, and no call after it ends. -/
theorem kalloc_hangs_of_zero (hc : Chained h used free) (hn : toU64 n = 0) :
    heapStep h n = some (splitBlock h h.freePtr n) ∧ ∀ k, kalloc (splitBlock h h.freePtr n) k = none := by
  have hrest := hc.rest
  have hpos := hc.nonnull
  have hw := hc.ended.window
  have hptr := hc.freePtr
  rw [sizeofBlock] at hw
  have hlen := List.length_le_sum_of_one_le used hc.ended.large
  have hfree : (splitBlock h h.freePtr n).freePtr = h.freePtr := by
    show (h.freePtr + 8 * toU64 n) % 2 ^ 64 = _
    omega
  obtain ⟨hbusy, hself⟩ := splitBlock_zero h hn (show h.freePtr < 2 ^ 64 by omega)
  refine ⟨by rw [heapStep, hc.kalloc n, if_pos (by omega)]; rfl, fun k => ?_⟩
  have hfast : ¬ Fits (splitBlock h h.freePtr n).mem (splitBlock h h.freePtr n).freePtr k := by
    intro hfits
    rw [hfree] at hfits
    exact absurd (hbusy.symm.trans hfits.1) (by decide)
  obtain ⟨fuel, hfuel⟩ := Nat.exists_eq_add_of_le (show used.length ≤ 2 ^ 64 by omega)
  have hsearch : search (splitBlock h h.freePtr n).mem k (2 ^ 64)
      (splitBlock h h.freePtr n).heapStart = none := by
    change search _ k (2 ^ 64) h.heapStart = none
    rw [hfuel, search_used k fuel hpos (hc.blocks_split (by omega)), ← hptr,
      search_self k (by omega) hbusy hself]
  rw [kalloc, if_neg hfast, firstFit, hsearch]

/-- The first request is one for no word. -/
theorem kalloc_zero_not_ends : ¬ RunEnds HeapRuns.sampleImage (fun _ => 0) [0] := by
  intro hends
  have hc := (listed_installHeap HeapRuns.sampleImage (fun _ => 0)).chained
  obtain ⟨hstep, hhangs⟩ := kalloc_hangs_of_zero hc (n := 0) (by decide)
  obtain ⟨h, hrun, _, hsome⟩ := hends 1
  rw [List.take_of_length_le (by decide), run_cons, hstep] at hrun
  obtain rfl := Option.some.inj hrun
  have hnone := hsome 8
  rw [hhangs 8] at hnone
  cases hnone

end Zero

end PaskakasaOS.Kernel.Memory.HeapTermination
