import PaskakasaOS.Kernel.Memory.HeapRuns

/-!
# Where the heap ends

`heap_size` is meant in bytes, but sizes count words of eight bytes: the free block
says it reaches eight times as far as the heap. A request stays inside as long as
the header of the block after it does. A request for one or two words moves that
header into the one before it; what becomes of the two is followed here until
`kalloc` walks the list they have damaged.
-/
namespace PaskakasaOS.Kernel.Memory.HeapContainment

open Lib.ByteMemory Lib.Layout Lib.Runs
open InitPaging (kernelStart)
open Alloc HeapList

/-! ## What a call writes and returns -/

/-- The block that `kalloc(n)` splits. -/
def splitTarget (h : Heap) (n : Int32) : Option Nat :=
  if Fits h.mem h.freePtr n then some h.freePtr
  else match search h.mem n (2 ^ 64) h.heapStart with
    | some (b + 1) => some (b + 1)
    | _ => none

/-- The headers that `split_block` writes for the call. -/
def headersWritten (h : Heap) (n : Int32) : List Nat :=
  match splitTarget h n with
  | none => []
  | some ptr => [(ptr + 8 * toU64 n) % 2 ^ 64, ptr]

/-- The `len` bytes from `a` on lie inside the heap, counted in bytes. -/
def Inside (h : Heap) (a len : Nat) : Prop :=
  h.heapStart ≤ a ∧ a + len ≤ h.heapStart + h.heapSize

structure Contained (h : Heap) (n : Int32) : Prop where
  headers : ∀ b ∈ headersWritten h n, Inside h b sizeofBlock
  range : ∀ p h', kalloc h n = some (p, h') → p ≠ 0 → Inside h p (toU64 n)

def heapStep (h : Heap) (n : Int32) : Option Heap := (kalloc h n).map Prod.snd

/-- The header of `install_heap` and everything that the calls write and return. -/
def RunContained (image : Image) (m : Memory) (requests : List Int32) : Prop :=
  Inside (installHeap image m) (installHeap image m).heapStart sizeofBlock ∧
    ∀ k n, requests[k]? = some n →
      ∃ h, run heapStep (installHeap image m) (requests.take k) = some h ∧ Contained h n

/-- A refused call writes and returns nothing. -/
theorem contained_of_refused {h : Heap} {n : Int32} (htarget : splitTarget h n = none)
    (hnull : kalloc h n = some (0, h)) : Contained h n where
  headers := by
    rw [headersWritten, htarget]
    exact fun b hb => absurd hb List.not_mem_nil
  range := by
    intro p h' heq hp
    rw [hnull] at heq
    obtain ⟨rfl, rfl⟩ := Prod.mk.inj (Option.some.inj heq)
    exact absurd rfl hp

/-! ## The free block -/

/-- The heap that `install_heap` set up. -/
structure Installed (h : Heap) (start : Nat) : Prop where
  heapStart : h.heapStart = start
  heapSize : h.heapSize = 128 * 1024
  low : kernelStart ≤ start
  high : start + 8 * (128 * 1024) + sizeofBlock ≤ 2 ^ 64

/-- `free_ptr` points to a free block of `free` words, `words` words into the heap. -/
structure FreeAt (h : Heap) (words free : Nat) : Prop where
  freePtr : h.freePtr = h.heapStart + 8 * words
  size : blockSize h.mem h.freePtr = free
  status : blockStatus h.mem h.freePtr = BLOCK_FREE
  room : 8 * words + sizeofBlock ≤ 128 * 1024

section Free

variable {h : Heap} {start words free : Nat} {n : Int32}

theorem FreeAt.fits (hf : FreeAt h words free) (hn : toU64 n < free) : Fits h.mem h.freePtr n :=
  ⟨hf.status, by rwa [hf.size]⟩

theorem FreeAt.kalloc (hf : FreeAt h words free) (hn : toU64 n < free) :
    kalloc h n = some (take h h.freePtr n) := by
  rw [Alloc.kalloc, if_pos (hf.fits hn)]

theorem FreeAt.heapStep (hf : FreeAt h words free) (hn : toU64 n < free) :
    heapStep h n = some (splitBlock h h.freePtr n) := by
  rw [HeapContainment.heapStep, hf.kalloc hn]
  rfl

theorem heapStep_of_refused (hnull : Alloc.kalloc h n = some (0, h)) : heapStep h n = some h := by
  rw [heapStep, hnull]
  rfl

theorem Installed.splitBlock (hi : Installed h start) (ptr : Nat) (n : Int32) :
    Installed (splitBlock h ptr n) start :=
  ⟨hi.heapStart, hi.heapSize, hi.low, hi.high⟩

/-- A served call is contained exactly when the header behind it is. -/
theorem FreeAt.contained_iff (hi : Installed h start) (hf : FreeAt h words free)
    (hpos : 1 ≤ n.toInt) (hn : toU64 n < free) :
    Contained h n ↔ 8 * (words + toU64 n) + sizeofBlock ≤ 128 * 1024 := by
  have htarget : splitTarget h n = some h.freePtr := if_pos (hf.fits hn)
  have hptr := hf.freePtr
  have hroom := hf.room
  have hsize := hi.heapSize
  have hlow := hi.low
  have hhigh := hi.high
  have hstart := hi.heapStart
  have hint := toU64_of_nonneg (n := n) (by omega)
  have hintlt := n.toInt_lt
  rw [kernelStart] at hlow
  rw [sizeofBlock] at hroom hhigh ⊢
  constructor
  · intro hc
    have hnew := hc.headers ((h.freePtr + 8 * toU64 n) % 2 ^ 64) (by
      rw [headersWritten, htarget]
      exact List.mem_cons_self)
    obtain ⟨hl, hu⟩ := hnew
    rw [sizeofBlock] at hu
    omega
  · intro hfit
    constructor
    · intro b hb
      rw [headersWritten, htarget] at hb
      simp only [List.mem_cons, List.not_mem_nil, or_false] at hb
      rw [Inside, sizeofBlock]
      rcases hb with rfl | rfl
      · omega
      · omega
    · intro p h' heq _
      rw [hf.kalloc hn, take] at heq
      obtain ⟨rfl, _⟩ := Prod.mk.inj (Option.some.inj heq)
      rw [Inside, sizeofBlock]
      omega

/-- A block of three words or more is cut off like any other. -/
theorem FreeAt.split (hi : Installed h start) (hf : FreeAt h words free) (hthree : 3 ≤ toU64 n)
    (hn : toU64 n < free) (hfit : 8 * (words + toU64 n) + sizeofBlock ≤ 128 * 1024) :
    FreeAt (splitBlock h h.freePtr n) (words + toU64 n) (free - toU64 n) := by
  have hptr := hf.freePtr
  have hhigh := hi.high
  have hstart := hi.heapStart
  rw [sizeofBlock] at hhigh hfit
  have hnew : (h.freePtr + 8 * toU64 n) % 2 ^ 64 = h.heapStart + 8 * (words + toU64 n) := by omega
  have hold : Header h.mem h.freePtr free BLOCK_FREE (blockNext h.mem h.freePtr) :=
    ⟨hf.size, hf.status, rfl⟩
  obtain ⟨_, hfree⟩ := splitBlock_headers h hnew (by rw [sizeofBlock]; omega) hold hn.le
  have hptr' : (splitBlock h h.freePtr n).freePtr = h.heapStart + 8 * (words + toU64 n) := hnew
  refine ⟨hptr', ?_, ?_, hfit⟩
  · rw [hptr']
    exact hfree.size
  · rw [hptr']
    exact hfree.status

end Free

/-! ## Overlapping headers -/

section Overlap

variable {h : Heap} {ptr size next : Nat} {n : Int32}

/-- A block of one word: the status of the old header lies in the size of the new
one, and its link in the new status. -/
theorem splitBlock_one (hold : Header h.mem ptr size BLOCK_FREE next) (hn : toU64 n = 1)
    (hlt : 1 < size) (hptr : ptr + 8 < 2 ^ 64) :
    Header (splitBlock h ptr n).mem ptr 1 BLOCK_USED (ptr + 8) ∧
      Header (splitBlock h ptr n).mem (ptr + 8) ((size - 1) / 256 * 256 + 1) ((ptr + 8) % 256) next := by
  have hsize : size < 2 ^ 64 := hold.size ▸ readLE_lt 8 _ _
  have hnext : next < 2 ^ 64 := hold.next ▸ readLE_lt 8 _ _
  have hnew : (ptr + 8 * 1) % 2 ^ 64 = ptr + 8 := by omega
  have hrest : (size + (2 ^ 64 - 1)) % 2 ^ 64 = size - 1 := by omega
  have hread : blockNext (setSize h.mem (ptr + 8) (size - 1)) ptr = next := by
    rw [← hold.next]
    exact readLE_writeLE_disjoint (by omega)
  rw [splitBlock, hn, hnew, hold.size, hrest, hread]
  simp only [setSize, setStatus, setNext]
  refine ⟨⟨?_, ?_, ?_⟩, ⟨?_, ?_, ?_⟩⟩
  · rw [blockSize, readLE_writeLE_disjoint (by omega), readLE_writeLE_disjoint (by omega),
      readLE_writeLE_of_lt (by decide)]
  · rw [blockStatus, readLE_writeLE_disjoint (by omega), readLE_writeLE_of_lt (by decide)]
  · rw [blockNext, readLE_writeLE_of_lt (by omega)]
  · -- the low byte of the new size is the old status
    have hlow : ∀ m : Memory, (writeLE 1 m (ptr + 8) BLOCK_USED (ptr + 8)).toNat = 1 := by
      intro m
      rw [← readLE_one, readLE_writeLE_of_lt (by decide)]
      rfl
    have hhigh := readLE_writeLE_inside (m := h.mem) (a := ptr + 8) (w := size - 1)
      (show 1 + 7 ≤ 8 by omega)
    rw [blockSize, readLE_writeLE_disjoint (by omega), readLE, hlow,
      readLE_writeLE_disjoint (by omega), readLE_writeLE_disjoint (by omega),
      readLE_writeLE_disjoint (by omega), readLE_writeLE_disjoint (by omega), hhigh]
    omega
  · rw [blockStatus, show ptr + 8 + 8 = ptr + 16 by omega, readLE_writeLE_low (by omega),
      Nat.pow_one]
  · rw [blockNext, readLE_writeLE_disjoint (by omega), readLE_writeLE_disjoint (by omega),
      readLE_writeLE_disjoint (by omega), readLE_writeLE_disjoint (by omega),
      readLE_writeLE_of_lt hnext]

/-- A block of two words: the link of the old header is the size of the new one. -/
theorem splitBlock_two (h : Heap) (hn : toU64 n = 2) (hptr : ptr + 16 < 2 ^ 64) :
    blockSize (splitBlock h ptr n).mem (ptr + 16) = ptr + 16 ∧
      blockStatus (splitBlock h ptr n).mem (ptr + 16) = BLOCK_FREE := by
  have hnew : (ptr + 8 * 2) % 2 ^ 64 = ptr + 16 := by omega
  rw [splitBlock, hn, hnew]
  simp only [setSize, setStatus, setNext]
  constructor
  · rw [blockSize, readLE_writeLE_of_lt hptr]
  · rw [blockStatus, readLE_writeLE_disjoint (by omega), readLE_writeLE_disjoint (by omega),
      readLE_writeLE_disjoint (by omega), readLE_writeLE_of_lt (by decide)]

end Overlap

/-! ## Accounting -/

/-- What the requests alone say about the heap. -/
inductive Account where
  /-- The list is whole and ends in a free block of `free` words, `words` words into the heap. -/
  | whole (words free : Nat)
  /-- Only `free_ptr` still points to a free block: a header on the list was overwritten. -/
  | loose (words free : Nat)
  /-- The list is whole and has no free block. -/
  | dead
  /-- A header on the list was overwritten, and `free_ptr` points to no free block. -/
  | broken
  deriving DecidableEq

/-- The account after a request on a heap at `start`; `none` when `kalloc` walks a list
with an overwritten header. -/
def serve (start : Nat) : Account → Int32 → Option Account
  | .whole words free, n =>
    if free ≤ toU64 n then some (.whole words free)
    else if toU64 n = 1 then
      if (start + 8 * words + 8) % 256 = 0 then some (.loose (words + 1) ((free - 1) / 256 * 256 + 1))
      else some .dead
    else if toU64 n = 2 then some (.loose (words + 2) (start + 8 * words + 16))
    else some (.whole (words + toU64 n) (free - toU64 n))
  | .loose words free, n =>
    if free ≤ toU64 n then none
    else if toU64 n = 1 then
      if (start + 8 * words + 8) % 256 = 0 then some (.loose (words + 1) ((free - 1) / 256 * 256 + 1))
      else some .broken
    else if toU64 n = 2 then some (.loose (words + 2) (start + 8 * words + 16))
    else some (.loose (words + toU64 n) (free - toU64 n))
  | .dead, _ => some .dead
  | .broken, _ => none

def account (start : Nat) (requests : List Int32) : Option Account :=
  run (serve start) (.whole 0 (128 * 1024)) requests

/-- A request that is served leaves room, in bytes, for the header behind its block. -/
def Room : Account → Int32 → Prop
  | .whole words free, n | .loose words free, n =>
    free ≤ toU64 n ∨ 8 * (words + toU64 n) + sizeofBlock ≤ 128 * 1024
  | .dead, _ | .broken, _ => True

/-- The heap is as its account says. -/
def Matches (h : Heap) : Account → Prop
  | .whole words free => FreeAt h words free ∧ ∃ used, used.sum = words ∧ Chained h used free
  | .loose words free => FreeAt h words free
  | .dead => ∀ n, splitTarget h n = none ∧ kalloc h n = some (0, h)
  | .broken => True

section Step

variable {h : Heap} {start words free : Nat} {used : List Nat} {n : Int32}

theorem splitTarget_none (hfast : ¬ Fits h.mem h.freePtr n)
    (hsearch : search h.mem n (2 ^ 64) h.heapStart = some 0) :
    splitTarget h n = none ∧ kalloc h n = some (0, h) := by
  constructor
  · rw [splitTarget, if_neg hfast, hsearch]
  · rw [Alloc.kalloc, if_neg hfast, firstFit, hsearch]
    rfl

theorem refused_of_chained (hc : Chained h used free) (hn : free ≤ toU64 n) :
    splitTarget h n = none ∧ kalloc h n = some (0, h) := by
  apply splitTarget_none
  · rw [hc.fits_last]
    omega
  · rw [hc.search n, if_neg (by omega)]

/-- A block of one word is cut off like any other, but what is left of the free block
takes its status from an address. -/
theorem split_one_of_chained (hc : Chained h used free) (hn : toU64 n = 1) (hlt : 1 < free) :
    Ended (splitBlock h h.freePtr n) (used ++ [1]) ((free - 1) / 256 * 256 + 1)
        ((h.heapStart + 8 * used.sum + 8) % 256) ∧
      (splitBlock h h.freePtr n).freePtr = h.heapStart + 8 * (used ++ [1]).sum := by
  have hptr := hc.freePtr
  have hw := hc.window
  have ht := hc.total
  rw [sizeofBlock] at hw
  obtain ⟨hold, hnew⟩ := splitBlock_one (hptr ▸ hc.last) hn hlt (by omega)
  have hend : (used ++ [1]).sum = used.sum + 1 := by simp
  refine ⟨⟨hc.nonnull, ?_, ?_, ?_, ?_⟩, ?_⟩
  · rw [hend, sizeofBlock]
    show h.heapStart + 8 * (used.sum + 1) + 24 ≤ 2 ^ 64
    omega
  · intro s hs
    rcases List.mem_append.mp hs with hs | hs
    · have hthree := hc.large s hs
      omega
    · rw [List.mem_singleton.mp hs]
  · intro x hx
    change x ∈ layout 8 h.heapStart _ at hx
    rw [layout_snoc, List.mem_append, List.mem_singleton] at hx
    rcases hx with hx | rfl
    · exact hc.blocks_split (by omega) x hx
    · rw [← hptr]
      exact hold
  · rw [hend, Nat.mul_add, ← Nat.add_assoc]
    show Header _ (h.heapStart + 8 * used.sum + 8) _ _ _
    rw [← hptr]
    exact hnew
  · rw [hend]
    show (h.freePtr + 8 * toU64 n) % 2 ^ 64 = _
    omega

/-- Where no block on the list is free and large enough, `kalloc` returns a null pointer. -/
theorem refused_of_ended {size status : Nat} (he : Ended h used size status)
    (hfast : ¬ Fits h.mem h.freePtr n) (hlast : ¬ (status = BLOCK_FREE ∧ toU64 n < size)) :
    splitTarget h n = none ∧ kalloc h n = some (0, h) :=
  splitTarget_none hfast (by rw [he.search n, if_neg hlast])

/-- The word of a one-word block that is not free ends the heap. -/
theorem dead_of_chained (hi : Installed h start) (hc : Chained h used free) (hn : toU64 n = 1)
    (hlt : 1 < free) (hstatus : (start + 8 * used.sum + 8) % 256 ≠ 0) (k : Int32) :
    splitTarget (splitBlock h h.freePtr n) k = none ∧
      kalloc (splitBlock h h.freePtr n) k = some (0, splitBlock h h.freePtr n) := by
  obtain ⟨he, hptr⟩ := split_one_of_chained hc hn hlt
  rw [hi.heapStart] at he
  apply refused_of_ended he
  · intro hfits
    rw [hptr, Fits] at hfits
    exact hstatus (he.last.status.symm.trans hfits.1)
  · exact fun hfree => hstatus hfree.1

/-- One-word and two-word blocks cut off the free block. -/
theorem FreeAt.split_one (hi : Installed h start) (hf : FreeAt h words free)
    (hroom : 8 * words + 8 + sizeofBlock ≤ 128 * 1024) (hn : toU64 n = 1) (hlt : 1 < free)
    (hstatus : (start + 8 * words + 8) % 256 = 0) :
    FreeAt (splitBlock h h.freePtr n) (words + 1) ((free - 1) / 256 * 256 + 1) := by
  have hptr := hf.freePtr
  have hhigh := hi.high
  have hstart := hi.heapStart
  rw [sizeofBlock] at hhigh
  have hold : Header h.mem h.freePtr free BLOCK_FREE (blockNext h.mem h.freePtr) :=
    ⟨hf.size, hf.status, rfl⟩
  obtain ⟨_, hnew⟩ := splitBlock_one hold hn hlt (by omega)
  have hfree : (splitBlock h h.freePtr n).freePtr = h.freePtr + 8 := by
    show (h.freePtr + 8 * toU64 n) % 2 ^ 64 = _
    omega
  refine ⟨?_, ?_, ?_, by omega⟩
  · rw [hfree]
    show h.freePtr + 8 = h.heapStart + 8 * (words + 1)
    omega
  · rw [hfree]
    exact hnew.size
  · rw [hfree, hnew.status, BLOCK_FREE]
    omega

theorem FreeAt.split_two (hi : Installed h start) (hf : FreeAt h words free)
    (hroom : 8 * words + 16 + sizeofBlock ≤ 128 * 1024) (hn : toU64 n = 2) :
    FreeAt (splitBlock h h.freePtr n) (words + 2) (start + 8 * words + 16) := by
  have hptr := hf.freePtr
  have hhigh := hi.high
  have hstart := hi.heapStart
  rw [sizeofBlock] at hhigh
  obtain ⟨hsize, hstatus⟩ := splitBlock_two h hn (show h.freePtr + 16 < 2 ^ 64 by omega)
  have hfree : (splitBlock h h.freePtr n).freePtr = h.freePtr + 16 := by
    show (h.freePtr + 8 * toU64 n) % 2 ^ 64 = _
    omega
  refine ⟨?_, ?_, ?_, by omega⟩
  · rw [hfree]
    show h.freePtr + 16 = h.heapStart + 8 * (words + 2)
    omega
  · rw [hfree, hsize]
    omega
  · rw [hfree, hstatus]

theorem toU64_pos (hpos : 1 ≤ n.toInt) : 1 ≤ toU64 n := by
  have hint := toU64_of_nonneg (n := n) (by omega)
  omega

theorem freeAt_of_chained (hc : Chained h used free)
    (hroom : 8 * used.sum + sizeofBlock ≤ 128 * 1024) : FreeAt h used.sum free := by
  refine ⟨hc.freePtr, ?_, ?_, hroom⟩
  · rw [hc.freePtr]
    exact hc.last.size
  · rw [hc.freePtr]
    exact hc.last.status

/-- The call is contained exactly when it leaves room. -/
theorem Matches.contained_iff {a a' : Account} (hi : Installed h start) (hm : Matches h a)
    (hpos : 1 ≤ n.toInt) (hs : serve start a n = some a') : Contained h n ↔ Room a n := by
  cases a with
  | whole words free =>
    obtain ⟨hf, used, rfl, hc⟩ := hm
    by_cases hn : toU64 n < free
    · rw [hf.contained_iff hi hpos hn, Room, or_iff_right (by omega)]
    · obtain ⟨htarget, hnull⟩ := refused_of_chained hc (n := n) (by omega)
      exact iff_of_true (contained_of_refused htarget hnull) (Or.inl (by omega))
  | loose words free =>
    have hn : toU64 n < free := by
      by_contra hn
      rw [serve, if_pos (by omega)] at hs
      cases hs
    rw [FreeAt.contained_iff hi hm hpos hn, Room, or_iff_right (by omega)]
  | dead => exact iff_of_true (contained_of_refused (hm n).1 (hm n).2) trivial
  | broken => cases hs

/-- The account of the blocks that a free block gives, when the call leaves room. -/
theorem FreeAt.step (hi : Installed h start) (hf : FreeAt h words free) (hn : toU64 n < free)
    (hroom : 8 * (words + toU64 n) + sizeofBlock ≤ 128 * 1024) :
    (toU64 n = 1 → (start + 8 * words + 8) % 256 = 0 →
      FreeAt (splitBlock h h.freePtr n) (words + 1) ((free - 1) / 256 * 256 + 1)) ∧
    (toU64 n = 2 → FreeAt (splitBlock h h.freePtr n) (words + 2) (start + 8 * words + 16)) ∧
    (3 ≤ toU64 n →
      FreeAt (splitBlock h h.freePtr n) (words + toU64 n) (free - toU64 n)) :=
  ⟨fun hone hstatus => hf.split_one hi (by omega) hone (by omega) hstatus,
    fun htwo => hf.split_two hi (by omega) htwo,
    fun hthree => hf.split hi hthree hn hroom⟩

theorem Matches.step {a a' : Account} (hi : Installed h start) (hm : Matches h a)
    (hpos : 1 ≤ n.toInt) (hs : serve start a n = some a') (hroom : Room a n) :
    ∃ h', heapStep h n = some h' ∧ Installed h' start ∧ Matches h' a' := by
  have hword := toU64_pos hpos
  cases a with
  | whole words free =>
    obtain ⟨hf, used, rfl, hc⟩ := hm
    rw [serve] at hs
    by_cases hn : free ≤ toU64 n
    · rw [if_pos hn] at hs
      obtain rfl := Option.some.inj hs
      exact ⟨h, heapStep_of_refused (refused_of_chained hc hn).2, hi, hf, used, rfl, hc⟩
    · have hroom' := hroom.resolve_left hn
      obtain ⟨hone, htwo, hthree⟩ := hf.step hi (n := n) (by omega) hroom'
      rw [if_neg hn] at hs
      refine ⟨splitBlock h h.freePtr n, hf.heapStep (by omega), hi.splitBlock _ n, ?_⟩
      split_ifs at hs with h1 hstatus h2
      · obtain rfl := Option.some.inj hs
        exact hone h1 hstatus
      · obtain rfl := Option.some.inj hs
        exact dead_of_chained hi hc h1 (by omega) hstatus
      · obtain rfl := Option.some.inj hs
        exact htwo h2
      · obtain rfl := Option.some.inj hs
        refine ⟨hthree (by omega), used ++ [toU64 n], by simp, ?_⟩
        exact hc.split (by omega) (by omega)
  | loose words free =>
    rw [serve] at hs
    by_cases hn : free ≤ toU64 n
    · rw [if_pos hn] at hs
      cases hs
    · have hf : FreeAt h words free := hm
      have hroom' := hroom.resolve_left hn
      obtain ⟨hone, htwo, hthree⟩ := hf.step hi (n := n) (by omega) hroom'
      rw [if_neg hn] at hs
      refine ⟨splitBlock h h.freePtr n, hf.heapStep (by omega), hi.splitBlock _ n, ?_⟩
      split_ifs at hs with h1 hstatus h2
      · obtain rfl := Option.some.inj hs
        exact hone h1 hstatus
      · obtain rfl := Option.some.inj hs
        trivial
      · obtain rfl := Option.some.inj hs
        exact htwo h2
      · obtain rfl := Option.some.inj hs
        exact hthree (by omega)
  | dead =>
    obtain rfl := Option.some.inj hs
    exact ⟨h, heapStep_of_refused (hm n).2, hi, hm⟩
  | broken => cases hs

end Step

/-! ## Runs -/

theorem installed_installHeap (image : Image) (m : Memory) :
    Installed (installHeap image m) (installHeap image m).heapStart where
  heapStart := rfl
  heapSize := rfl
  low := (installHeap_low image m)
  high := (installHeap_start image m).2

theorem matches_installHeap (image : Image) (m : Memory) :
    Matches (installHeap image m) (.whole 0 (128 * 1024)) := by
  have hc := (listed_installHeap image m).chained
  exact ⟨freeAt_of_chained hc (by decide), [], rfl, hc⟩

/-- Requests for three words or more keep the list whole. -/
theorem account_of_three_le (start : Nat) {requests : List Int32}
    (hthree : ∀ n ∈ requests, 3 ≤ n.toInt) :
    ∃ words free, account start requests = some (.whole words free) := by
  induction requests using List.reverseRecOn with
  | nil => exact ⟨0, 128 * 1024, rfl⟩
  | append_singleton requests n ih =>
    obtain ⟨words, free, ha⟩ := ih (fun n' hn' => hthree n' (List.mem_append_left _ hn'))
    have hn := hthree n (List.mem_append_right _ List.mem_cons_self)
    have hint := toU64_of_nonneg (n := n) (by omega)
    rw [account] at ha
    rw [account, run_snoc_of ha, serve, if_neg (show ¬ toU64 n = 1 by omega),
      if_neg (show ¬ toU64 n = 2 by omega)]
    split
    · exact ⟨words, free, rfl⟩
    · exact ⟨words + toU64 n, free - toU64 n, rfl⟩

/-- The heap is as the account says while the requests leave room. -/
theorem run_matches (image : Image) (m : Memory) {requests : List Int32}
    (hpos : ∀ n ∈ requests, 1 ≤ n.toInt)
    (hclear : (account (installHeap image m).heapStart requests).isSome) (k : Nat)
    (hroom : ∀ j n, j < k → requests[j]? = some n → ∀ a,
      account (installHeap image m).heapStart (requests.take j) = some a → Room a n) :
    ∃ h a, account (installHeap image m).heapStart (requests.take k) = some a ∧
      run heapStep (installHeap image m) (requests.take k) = some h ∧
      Installed h (installHeap image m).heapStart ∧ Matches h a := by
  induction k with
  | zero =>
    exact ⟨_, _, rfl, rfl, installed_installHeap image m, matches_installHeap image m⟩
  | succ k ih =>
    obtain ⟨h, a, ha, hrun, hi, hm⟩ := ih (fun j n hj => hroom j n (Nat.lt_succ_of_lt hj))
    cases hk : requests[k]? with
    | none =>
      rw [List.take_add_one, hk, Option.toList_none, List.append_nil]
      exact ⟨h, a, ha, hrun, hi, hm⟩
    | some n =>
      obtain ⟨a', hserve⟩ := step_of_isSome hclear hk ha
      obtain ⟨h', hstep, hi', hm'⟩ := hm.step hi (hpos n (List.mem_of_getElem? hk)) hserve
        (hroom k n (Nat.lt_succ_self k) hk a ha)
      rw [account] at ha
      refine ⟨h', a', ?_, ?_, hi', hm'⟩
      · rw [account, run_take_succ hk, ha, Option.bind_some, hserve]
      · rw [run_take_succ hk, hrun, Option.bind_some, hstep]

/-- On requests that never make `kalloc` walk a list with an overwritten header, all
headers and ranges lie inside the heap exactly when every request leaves room. -/
theorem kalloc_contained_iff (image : Image) (m : Memory) (requests : List Int32)
    (hpos : ∀ n ∈ requests, 1 ≤ n.toInt)
    (hclear : (account (installHeap image m).heapStart requests).isSome) :
    RunContained image m requests ↔ ∀ k n, requests[k]? = some n → ∀ a,
      account (installHeap image m).heapStart (requests.take k) = some a → Room a n := by
  constructor
  · rintro ⟨_, hcontained⟩ k
    induction k using Nat.strong_induction_on with
    | h k ih =>
      intro n hk a ha
      obtain ⟨h, b, hb, hrun, hi, hm⟩ :=
        run_matches image m hpos hclear k (fun j n' hj => ih j hj n')
      obtain ⟨h', hrun', hcont⟩ := hcontained k n hk
      rw [hrun] at hrun'
      obtain rfl := Option.some.inj hrun'
      rw [ha] at hb
      obtain rfl := Option.some.inj hb
      obtain ⟨a', hserve⟩ := step_of_isSome hclear hk ha
      exact (hm.contained_iff hi (hpos n (List.mem_of_getElem? hk)) hserve).mp hcont
  · intro hroom
    refine ⟨⟨Nat.le_refl _, Nat.add_le_add_left (show sizeofBlock ≤ 128 * 1024 by decide) _⟩, ?_⟩
    intro k n hk
    obtain ⟨h, a, ha, hrun, hi, hm⟩ :=
      run_matches image m hpos hclear k (fun j n' _ => hroom j n')
    obtain ⟨a', hserve⟩ := step_of_isSome hclear hk ha
    exact ⟨h, hrun, (hm.contained_iff hi (hpos n (List.mem_of_getElem? hk)) hserve).mpr
      (hroom k n hk a ha)⟩

/-- A small block, a large one and a block of one word, after which nothing is served. -/
theorem kalloc_contained_iff_four :
    RunContained HeapRuns.sampleImage (fun _ => 0) [3, 0x2000, 1, 8] ↔
      ∀ k n, ([3, 0x2000, 1, 8] : List Int32)[k]? = some n → ∀ a,
        account (installHeap HeapRuns.sampleImage (fun _ => 0)).heapStart
          (([3, 0x2000, 1, 8] : List Int32).take k) = some a → Room a n :=
  kalloc_contained_iff HeapRuns.sampleImage (fun _ => 0) [3, 0x2000, 1, 8] (by simp) (by decide)

/-- The stack of the first process is 16384 bytes, and the block for it 131072. -/
theorem kalloc_stack_not_contained :
    ¬ RunContained HeapRuns.sampleImage (fun _ => 0) [0x4000] := by
  intro h
  obtain ⟨h', hrun, hcont⟩ := h.2 0 0x4000 rfl
  obtain rfl : installHeap HeapRuns.sampleImage (fun _ => 0) = h' := Option.some.inj hrun
  have hf := (matches_installHeap HeapRuns.sampleImage (fun _ => 0)).1
  have hfit := (hf.contained_iff (installed_installHeap HeapRuns.sampleImage (fun _ => 0))
    (by decide) (by decide)).mp hcont
  exact absurd hfit (by decide)

end PaskakasaOS.Kernel.Memory.HeapContainment
