import PaskakasaOS.Lib.Layout
import PaskakasaOS.Kernel.Memory.Alloc

/-!
# The block list of the heap

In a well-formed heap the used blocks follow one another from `heap_start` on,
and the rest of the heap is one free block, the one `free_ptr` points to.
A `kalloc` of at least four words cuts its block off the front of the free one.
-/
namespace PaskakasaOS.Kernel.Memory.HeapList

open Lib.ByteMemory Lib.Layout
open VmmTree (and_page_mask)
open InitPaging (kernelStart)
open Alloc

/-! ## Block headers -/

section Fields

variable (m : Memory) {a b v : Nat}

@[simp] theorem blockSize_setSize (h : v < 2 ^ 64) : blockSize (setSize m b v) b = v :=
  readLE_writeLE_of_lt h

@[simp] theorem blockSize_setStatus : blockSize (setStatus m b v) b = blockSize m b :=
  readLE_writeLE_disjoint (by omega)

@[simp] theorem blockSize_setNext : blockSize (setNext m b v) b = blockSize m b :=
  readLE_writeLE_disjoint (by omega)

@[simp] theorem blockStatus_setSize : blockStatus (setSize m b v) b = blockStatus m b :=
  readLE_writeLE_disjoint (by omega)

@[simp] theorem blockStatus_setStatus (h : v < 256) : blockStatus (setStatus m b v) b = v :=
  readLE_writeLE_of_lt h

@[simp] theorem blockStatus_setNext : blockStatus (setNext m b v) b = blockStatus m b :=
  readLE_writeLE_disjoint (by omega)

@[simp] theorem blockNext_setSize : blockNext (setSize m b v) b = blockNext m b :=
  readLE_writeLE_disjoint (by omega)

@[simp] theorem blockNext_setStatus : blockNext (setStatus m b v) b = blockNext m b :=
  readLE_writeLE_disjoint (by omega)

@[simp] theorem blockNext_setNext (h : v < 2 ^ 64) : blockNext (setNext m b v) b = v :=
  readLE_writeLE_of_lt h

variable {m}

theorem setSize_outside (h : a < b ∨ b + sizeofBlock ≤ a) : setSize m b v a = m a :=
  writeLE_outside (by rw [sizeofBlock] at h; omega)

theorem setStatus_outside (h : a < b ∨ b + sizeofBlock ≤ a) : setStatus m b v a = m a :=
  writeLE_outside (by rw [sizeofBlock] at h; omega)

theorem setNext_outside (h : a < b ∨ b + sizeofBlock ≤ a) : setNext m b v a = m a :=
  writeLE_outside (by rw [sizeofBlock] at h; omega)

end Fields

/-- What the 24 bytes of a block header say. -/
structure Header (m : Memory) (b size status next : Nat) : Prop where
  size : blockSize m b = size
  status : blockStatus m b = status
  next : blockNext m b = next

theorem Header.congr {m m' : Memory} {b size status next : Nat} (h : Header m b size status next)
    (heq : ∀ a, b ≤ a → a < b + sizeofBlock → m' a = m a) : Header m' b size status next := by
  have hread : ∀ k o, o + k ≤ sizeofBlock → readLE k m' (b + o) = readLE k m (b + o) := by
    intro k o hk
    apply readLE_congr
    intro i hi
    exact heq _ (by omega) (by omega)
  refine ⟨?_, ?_, ?_⟩
  · exact (hread 8 0 (by decide)).trans h.size
  · exact (hread 1 8 (by decide)).trans h.status
  · exact (hread 8 16 (by decide)).trans h.next

/-! ## The well-formed heap -/

theorem toU64_lt (n : Int32) : toU64 n < 2 ^ 64 := by
  rw [toU64]
  omega

theorem toU64_of_nonneg {n : Int32} (h : 0 ≤ n.toInt) : (toU64 n : Int) = n.toInt := by
  have hlt := n.toInt_lt
  rw [toU64]
  omega

/-- The used blocks `used`, in words, are followed by one free block of `free` words. -/
structure Listed (h : Heap) (used : List Nat) (free : Nat) : Prop where
  nonnull : 0 < h.heapStart
  window : h.heapStart + 8 * h.heapSize + sizeofBlock ≤ 2 ^ 64
  total : used.sum + free = h.heapSize
  large : ∀ s ∈ used, 4 ≤ s
  rest : 0 < free
  blocks : ∀ x ∈ layout 8 h.heapStart used, Header h.mem x.1 x.2 BLOCK_USED (x.1 + 8 * x.2)
  last : Header h.mem (h.heapStart + 8 * used.sum) free BLOCK_FREE 0
  freePtr : h.freePtr = h.heapStart + 8 * used.sum

/-- The same without a place for payloads: only the headers do not overlap. -/
structure Chained (h : Heap) (used : List Nat) (free : Nat) : Prop where
  nonnull : 0 < h.heapStart
  window : h.heapStart + 8 * h.heapSize + sizeofBlock ≤ 2 ^ 64
  total : used.sum + free = h.heapSize
  large : ∀ s ∈ used, 3 ≤ s
  rest : 0 < free
  blocks : ∀ x ∈ layout 8 h.heapStart used, Header h.mem x.1 x.2 BLOCK_USED (x.1 + 8 * x.2)
  last : Header h.mem (h.heapStart + 8 * used.sum) free BLOCK_FREE 0
  freePtr : h.freePtr = h.heapStart + 8 * used.sum

theorem Listed.chained {h : Heap} {used : List Nat} {free : Nat} (hl : Listed h used free) :
    Chained h used free :=
  ⟨hl.nonnull, hl.window, hl.total, fun s hs => Nat.le_of_succ_le (hl.large s hs), hl.rest, hl.blocks,
    hl.last, hl.freePtr⟩

theorem Chained.listed {h : Heap} {used : List Nat} {free : Nat} (hc : Chained h used free)
    (hlarge : ∀ s ∈ used, 4 ≤ s) : Listed h used free :=
  ⟨hc.nonnull, hc.window, hc.total, hlarge, hc.rest, hc.blocks, hc.last, hc.freePtr⟩

theorem installHeap_start (image : Image) (m : Memory) :
    0 < (installHeap image m).heapStart ∧
      (installHeap image m).heapStart + 8 * (installHeap image m).heapSize + sizeofBlock ≤ 2 ^ 64 := by
  have hmask : (0xFFFFFFFFFFFFF000 : Nat) = 2 ^ 12 * (2 ^ 52 - 1) := by decide
  have hl := image.linked
  have hu := image.fits
  have hk : kernelStart = 0xFFFFFFFF80000000 := rfl
  rw [hk] at hl
  rw [sizeofBlock] at hu
  rw [installHeap, hmask, and_page_mask, sizeofBlock]
  constructor
  · show 0 < 4096 * _
    omega
  · show 4096 * _ + 8 * (128 * 1024) + 24 ≤ _
    omega

theorem installHeap_low (image : Image) (m : Memory) :
    kernelStart ≤ (installHeap image m).heapStart := by
  have hmask : (0xFFFFFFFFFFFFF000 : Nat) = 2 ^ 12 * (2 ^ 52 - 1) := by decide
  have hl := image.linked
  have hu := image.fits
  have hk : kernelStart = 0xFFFFFFFF80000000 := rfl
  rw [hk] at hl ⊢
  rw [sizeofBlock] at hu
  rw [installHeap, hmask, and_page_mask]
  show _ ≤ 4096 * _
  omega

theorem listed_installHeap (image : Image) (m : Memory) :
    Listed (installHeap image m) [] (128 * 1024) := by
  obtain ⟨hpos, hfit⟩ := installHeap_start image m
  refine ⟨hpos, hfit, rfl, ?_, by decide, ?_, ?_, rfl⟩
  · intro s hs
    cases hs
  · intro x hx
    cases hx
  · rw [installHeap]
    constructor <;> simp [BLOCK_FREE]

/-! ## Splitting a block -/

/-- A split writes its two headers and nothing else. -/
theorem splitBlock_outside (h : Heap) {ptr new a : Nat} {n : Int32}
    (hnew : (ptr + 8 * toU64 n) % 2 ^ 64 = new) (hptr : a < ptr ∨ ptr + sizeofBlock ≤ a)
    (ha : a < new ∨ new + sizeofBlock ≤ a) : (splitBlock h ptr n).mem a = h.mem a := by
  rw [splitBlock, hnew]
  simp only [setSize_outside hptr, setStatus_outside hptr, setNext_outside hptr, setSize_outside ha,
    setStatus_outside ha, setNext_outside ha]

/-- Where the headers do not overlap, both are written as intended. -/
theorem splitBlock_headers (h : Heap) {ptr new size next : Nat} {n : Int32}
    (hnew : (ptr + 8 * toU64 n) % 2 ^ 64 = new) (hgap : ptr + sizeofBlock ≤ new)
    (hold : Header h.mem ptr size BLOCK_FREE next) (hn : toU64 n ≤ size) :
    Header (splitBlock h ptr n).mem ptr (toU64 n) BLOCK_USED new ∧
      Header (splitBlock h ptr n).mem new (size - toU64 n) BLOCK_FREE next := by
  have hsize : size < 2 ^ 64 := hold.size ▸ readLE_lt 8 _ _
  have hnext : next < 2 ^ 64 := hold.next ▸ readLE_lt 8 _ _
  have hrest : (size + (2 ^ 64 - toU64 n)) % 2 ^ 64 = size - toU64 n := by
    have hlt := toU64_lt n
    omega
  have hread : blockNext (setSize h.mem new (size - toU64 n)) ptr = next := by
    rw [← hold.next]
    exact readLE_writeLE_disjoint (by rw [sizeofBlock] at hgap; omega)
  rw [splitBlock, hnew, hold.size, hrest, hread]
  constructor
  · have hlt : new < 2 ^ 64 := hnew ▸ Nat.mod_lt _ (by decide)
    have hn64 := toU64_lt n
    constructor <;> simp (disch := omega) [BLOCK_USED]
  · have hnewHeader : Header (setStatus (setNext (setSize h.mem new (size - toU64 n)) new next) new
        BLOCK_FREE) new (size - toU64 n) BLOCK_FREE next := by
      constructor <;> simp (disch := omega) [BLOCK_FREE]
    apply hnewHeader.congr
    intro a hl _
    have hout : a < ptr ∨ ptr + sizeofBlock ≤ a := Or.inr (by omega)
    simp only [setNext_outside hout, setStatus_outside hout, setSize_outside hout]

section Split

variable {h : Heap} {used : List Nat} {free : Nat} {n : Int32}

theorem Chained.new_lt (hc : Chained h used free) (hn : toU64 n < free) :
    (h.freePtr + 8 * toU64 n) % 2 ^ 64 = h.heapStart + 8 * used.sum + 8 * toU64 n := by
  have hw := hc.window
  have ht := hc.total
  rw [sizeofBlock] at hw
  rw [hc.freePtr]
  exact Nat.mod_eq_of_lt (by omega)

/-- A split leaves the headers of the used blocks as they are. -/
theorem Chained.blocks_split (hc : Chained h used free) (hn : toU64 n < free) :
    ∀ x ∈ layout 8 h.heapStart used,
      Header (splitBlock h h.freePtr n).mem x.1 x.2 BLOCK_USED (x.1 + 8 * x.2) := by
  intro x hx
  have hnew := hc.new_lt hn
  have hptr := hc.freePtr
  apply (hc.blocks x hx).congr
  intro a _ hb
  have hbound := (layout_bounds hx).2
  have hthree := hc.large x.2 (mem_sizes hx)
  rw [sizeofBlock] at hb
  exact splitBlock_outside h hnew (Or.inl (by omega)) (Or.inl (by omega))

/-- A split of at least three words keeps the headers apart. -/
theorem Chained.split (hc : Chained h used free) (hlarge : 3 ≤ toU64 n) (hn : toU64 n < free) :
    Chained (splitBlock h h.freePtr n) (used ++ [toU64 n]) (free - toU64 n) := by
  have hnew := hc.new_lt hn
  have hptr := hc.freePtr
  have hgap : h.freePtr + sizeofBlock ≤ h.heapStart + 8 * used.sum + 8 * toU64 n := by
    rw [hptr, sizeofBlock]
    omega
  obtain ⟨hused, hfree⟩ := splitBlock_headers h hnew hgap (hptr ▸ hc.last) hn.le
  have hsum : (used ++ [toU64 n]).sum = used.sum + toU64 n := by simp
  refine ⟨hc.nonnull, hc.window, ?_, ?_, by omega, ?_, ?_, ?_⟩
  · have ht := hc.total
    rw [hsum]
    show used.sum + toU64 n + (free - toU64 n) = h.heapSize
    omega
  · intro s hs
    rcases List.mem_append.mp hs with hs | hs
    · exact hc.large s hs
    · rw [List.mem_singleton.mp hs]
      exact hlarge
  · intro x hx
    change x ∈ layout 8 h.heapStart _ at hx
    rw [layout_snoc, List.mem_append, List.mem_singleton] at hx
    rcases hx with hx | rfl
    · exact hc.blocks_split hn x hx
    · rw [hptr] at hused ⊢
      exact hused
  · rw [hsum, Nat.mul_add, ← Nat.add_assoc]
    exact hfree
  · rw [hsum, Nat.mul_add, ← Nat.add_assoc]
    exact hnew

/-- A split of at least four words keeps the heap well-formed. -/
theorem Listed.split (hl : Listed h used free) (hlarge : 4 ≤ toU64 n) (hn : toU64 n < free) :
    Listed (splitBlock h h.freePtr n) (used ++ [toU64 n]) (free - toU64 n) := by
  refine (hl.chained.split (by omega) hn).listed ?_
  intro s hs
  rcases List.mem_append.mp hs with hs | hs
  · exact hl.large s hs
  · rw [List.mem_singleton.mp hs]
    exact hlarge

end Split

/-! ## Searching the list -/

theorem Chained.fits_last {h : Heap} {used : List Nat} {free : Nat} (hc : Chained h used free)
    (n : Int32) : Fits h.mem h.freePtr n ↔ toU64 n < free := by
  rw [Fits, hc.freePtr, hc.last.status, hc.last.size]
  exact and_iff_right rfl

/-- The search passes over used blocks. -/
theorem search_used {m : Memory} {b : Nat} {used : List Nat} (n : Int32) (fuel : Nat) (hb : 0 < b)
    (hblocks : ∀ x ∈ layout 8 b used, Header m x.1 x.2 BLOCK_USED (x.1 + 8 * x.2)) :
    search m n (used.length + fuel) b = search m n fuel (b + 8 * used.sum) := by
  induction used generalizing b with
  | nil => simp
  | cons s used ih =>
    have hhead := hblocks (b, s) List.mem_cons_self
    have hbusy : ¬ Fits m b n := by
      intro hfits
      have hstatus := hfits.1
      rw [hhead.status] at hstatus
      cases hstatus
    have htail := ih (b := b + 8 * s) (by omega)
      (fun x hx => hblocks x (List.mem_cons_of_mem _ hx))
    rw [List.length_cons, show used.length + 1 + fuel = used.length + fuel + 1 by omega, search,
      if_neg (by omega), if_neg hbusy, hhead.next, htail, List.sum_cons]
    congr 1
    omega

/-- The list is used blocks `used` and one last block of any size and status. -/
structure Ended (h : Heap) (used : List Nat) (size status : Nat) : Prop where
  nonnull : 0 < h.heapStart
  window : h.heapStart + 8 * used.sum + sizeofBlock ≤ 2 ^ 64
  large : ∀ s ∈ used, 1 ≤ s
  blocks : ∀ x ∈ layout 8 h.heapStart used, Header h.mem x.1 x.2 BLOCK_USED (x.1 + 8 * x.2)
  last : Header h.mem (h.heapStart + 8 * used.sum) size status 0

theorem Chained.ended {h : Heap} {used : List Nat} {free : Nat} (hc : Chained h used free) :
    Ended h used free BLOCK_FREE where
  nonnull := hc.nonnull
  window := by
    have hw := hc.window
    have ht := hc.total
    omega
  large := fun s hs => Nat.le_of_add_left_le (hc.large s hs)
  blocks := hc.blocks
  last := hc.last

/-- The search ends at the last block when it is free and large enough, and at the end
of the list otherwise. -/
theorem Ended.search {h : Heap} {used : List Nat} {size status : Nat} (he : Ended h used size status)
    (n : Int32) : search h.mem n (2 ^ 64) h.heapStart =
      some (if status = BLOCK_FREE ∧ toU64 n < size then h.heapStart + 8 * used.sum else 0) := by
  have hpos := he.nonnull
  have hw := he.window
  have hlen := List.length_le_sum_of_one_le used he.large
  have hfits : Fits h.mem (h.heapStart + 8 * used.sum) n ↔ status = BLOCK_FREE ∧ toU64 n < size := by
    rw [Fits, he.last.status, he.last.size]
  rw [sizeofBlock] at hw
  obtain ⟨fuel, hfuel⟩ := Nat.exists_eq_add_of_le (show used.length + 2 ≤ 2 ^ 64 by omega)
  rw [hfuel, Nat.add_assoc, search_used n _ hpos he.blocks, Nat.add_comm 2 fuel, Alloc.search,
    if_neg (by omega)]
  by_cases hn : status = BLOCK_FREE ∧ toU64 n < size
  · rw [if_pos (hfits.mpr hn), if_pos hn]
  · rw [if_neg (fun hf => hn (hfits.mp hf)), if_neg hn, he.last.next, Alloc.search, if_pos rfl]

/-- The search ends at the free block when it is large enough, and at the end of
the list otherwise. -/
theorem Chained.search {h : Heap} {used : List Nat} {free : Nat} (hc : Chained h used free) (n : Int32) :
    search h.mem n (2 ^ 64) h.heapStart = some (if toU64 n < free then h.freePtr else 0) := by
  rw [hc.ended.search n, hc.freePtr]
  simp

/-- First fit takes the free block when it is large enough, and fails otherwise. -/
theorem Chained.firstFit {h : Heap} {used : List Nat} {free : Nat} (hc : Chained h used free)
    (n : Int32) :
    firstFit h n = some (if toU64 n < free then take h h.freePtr n else (0, h)) := by
  rw [Alloc.firstFit, hc.search n]
  by_cases hn : toU64 n < free
  · have hpos := hc.nonnull
    have hptr := hc.freePtr
    obtain ⟨b, hb⟩ := Nat.exists_eq_succ_of_ne_zero (show h.freePtr ≠ 0 by omega)
    rw [if_pos hn, if_pos hn, hb]
    rfl
  · rw [if_neg hn, if_neg hn]
    rfl

/-- The `free_ptr` fast path and the list search take the same block. -/
theorem Chained.kalloc {h : Heap} {used : List Nat} {free : Nat} (hc : Chained h used free)
    (n : Int32) : kalloc h n = some (if toU64 n < free then take h h.freePtr n else (0, h)) := by
  rw [Alloc.kalloc, hc.firstFit n]
  by_cases hn : toU64 n < free
  · rw [if_pos ((hc.fits_last n).mpr hn), if_pos hn]
  · rw [if_neg (fun hf => hn ((hc.fits_last n).mp hf))]

/-! ## The blocks on the list -/

/-- The blocks found by following `next` from `ptr`, when the list ends. -/
def blocksFrom (m : Memory) : Nat → Nat → Option (List Nat)
  | 0, _ => none
  | fuel + 1, ptr =>
    if ptr = 0 then some [] else (blocksFrom m fuel (blockNext m ptr)).map (ptr :: ·)

/-- The blocks on the list, which need not end. -/
inductive OnList (m : Memory) (start : Nat) : Nat → Prop
  | first (h : start ≠ 0) : OnList m start start
  | next {b : Nat} (h : OnList m start b) (hb : blockNext m b ≠ 0) : OnList m start (blockNext m b)

theorem OnList.cons {m : Memory} {start b : Nat} (hs : start ≠ 0)
    (h : OnList m (blockNext m start) b) : OnList m start b := by
  induction h with
  | first hn => exact (OnList.first hs).next hn
  | next _ hb ih => exact ih.next hb

theorem OnList.tail {m : Memory} {start b : Nat} (h : OnList m start b) :
    b = start ∨ OnList m (blockNext m start) b := by
  induction h with
  | first _ => exact Or.inl rfl
  | next _ hb ih =>
    rcases ih with rfl | ih
    · exact Or.inr (OnList.first hb)
    · exact Or.inr (ih.next hb)

theorem OnList.ne_zero {m : Memory} {start b : Nat} (h : OnList m start b) : start ≠ 0 := by
  induction h with
  | first h => exact h
  | next _ _ ih => exact ih

/-- A list that ends is the list of its blocks. -/
theorem onList_iff_mem {m : Memory} {fuel start : Nat} {bs : List Nat}
    (h : blocksFrom m fuel start = some bs) (b : Nat) : OnList m start b ↔ b ∈ bs := by
  induction fuel generalizing start bs with
  | zero => cases h
  | succ fuel ih =>
    rw [blocksFrom] at h
    split at h
    · next hs =>
      obtain rfl : [] = bs := Option.some.inj h
      exact ⟨fun hb => absurd hs hb.ne_zero, fun hb => by cases hb⟩
    · next hs =>
      obtain ⟨rest, hrest, rfl⟩ := Option.map_eq_some_iff.mp h
      rw [List.mem_cons, ← ih hrest]
      constructor
      · exact OnList.tail
      · rintro (rfl | hb)
        · exact OnList.first hs
        · exact hb.cons hs

/-- The headers of the blocks on the list decide the list. -/
theorem OnList.congr {m m' : Memory} {start b : Nat} (h : OnList m start b)
    (heq : ∀ b, OnList m start b → ∀ a, b ≤ a → a < b + sizeofBlock → m' a = m a) :
    OnList m' start b := by
  induction h with
  | first h => exact OnList.first h
  | @next b hb hn ih =>
    have hnext : blockNext m' b = blockNext m b := by
      apply readLE_congr
      intro i hi
      exact heq b hb _ (by omega) (by rw [sizeofBlock]; omega)
    rw [← hnext] at hn ⊢
    exact ih.next hn

theorem blocksFrom_used {m : Memory} {b free : Nat} {used : List Nat} (fuel : Nat) (hb : 0 < b)
    (hblocks : ∀ x ∈ layout 8 b used, Header m x.1 x.2 BLOCK_USED (x.1 + 8 * x.2))
    (hlast : blockNext m (b + 8 * used.sum) = 0) :
    blocksFrom m (used.length + fuel + 2) b = some ((layout 8 b (used ++ [free])).map Prod.fst) := by
  induction used generalizing b with
  | nil =>
    change blockNext m b = 0 at hlast
    simp [blocksFrom, hlast, Nat.pos_iff_ne_zero.mp hb]
  | cons s used ih =>
    have hhead := hblocks (b, s) List.mem_cons_self
    rw [List.sum_cons, Nat.mul_add, ← Nat.add_assoc] at hlast
    have htail := ih (by omega) (fun x hx => hblocks x (List.mem_cons_of_mem _ hx)) hlast
    rw [List.length_cons, show used.length + 1 + fuel + 2 = used.length + fuel + 2 + 1 by omega,
      blocksFrom, if_neg (by omega), hhead.next, htail]
    rfl

/-- Following `next` visits the blocks one after the other. -/
theorem Ended.blocksFrom {h : Heap} {used : List Nat} {size status : Nat}
    (he : Ended h used size status) (free : Nat) :
    blocksFrom h.mem (used.length + 2) h.heapStart =
      some ((layout 8 h.heapStart (used ++ [free])).map Prod.fst) :=
  blocksFrom_used 0 he.nonnull he.blocks he.last.next

theorem Chained.blocksFrom {h : Heap} {used : List Nat} {free : Nat} (hc : Chained h used free) :
    blocksFrom h.mem (used.length + 2) h.heapStart =
      some ((layout 8 h.heapStart (used ++ [free])).map Prod.fst) :=
  hc.ended.blocksFrom free

end PaskakasaOS.Kernel.Memory.HeapList
