import PaskakasaOS.Lib.ByteMemory
import PaskakasaOS.Kernel.Memory.InitPaging

/-!
# The kernel heap of `kernel/memory/alloc.c`

Block headers live in raw memory and are read and written byte for byte, in the
order of the source, so that overlapping headers keep their exact meaning. Sizes
count 8-byte words: `split_block` places the next header by `uint64_t` pointer
arithmetic.
-/
namespace PaskakasaOS.Kernel.Memory.Alloc

open Lib.ByteMemory
open InitPaging (kernelStart)

def BLOCK_FREE : Nat := 0
def BLOCK_USED : Nat := 1

/-- `sizeof(block_t)`: the size at 0, the status byte at 8 and the pointer at 16. -/
def sizeofBlock : Nat := 24

def blockSize (m : Memory) (b : Nat) : Nat := readLE 8 m b
def blockStatus (m : Memory) (b : Nat) : Nat := readLE 1 m (b + 8)
def blockNext (m : Memory) (b : Nat) : Nat := readLE 8 m (b + 16)

def setSize (m : Memory) (b size : Nat) : Memory := writeLE 8 m b size
def setStatus (m : Memory) (b status : Nat) : Memory := writeLE 1 m (b + 8) status
def setNext (m : Memory) (b next : Nat) : Memory := writeLE 8 m (b + 16) next

/-- An `int` where the source mixes it with a `uint64_t`. -/
def toU64 (n : Int32) : Nat := (n.toInt % 2 ^ 64).toNat

/-- The linker's `kernel_end`; the words of the heap behind it all have an address. -/
structure Image where
  kernelEnd : Nat
  linked : kernelStart ≤ kernelEnd
  fits : kernelEnd + 0x1000 + 8 * (128 * 1024) + sizeofBlock ≤ 2 ^ 64

structure Heap where
  mem : Memory
  freePtr : Nat
  heapStart : Nat
  heapSize : Nat

def installHeap (image : Image) (m : Memory) : Heap :=
  let start := (image.kernelEnd + 0x1000) % 2 ^ 64 &&& 0xFFFFFFFFFFFFF000
  let size := 128 * 1024
  let m := setSize m start size
  let m := setNext m start 0
  let m := setStatus m start BLOCK_FREE
  { mem := m, freePtr := start, heapStart := start, heapSize := size }

def splitBlock (h : Heap) (ptr : Nat) (n : Int32) : Heap :=
  let new := (ptr + 8 * toU64 n) % 2 ^ 64
  let m := setSize h.mem new ((blockSize h.mem ptr + (2 ^ 64 - toU64 n)) % 2 ^ 64)
  let m := setNext m new (blockNext m ptr)
  let m := setStatus m new BLOCK_FREE
  let m := setSize m ptr (toU64 n)
  let m := setStatus m ptr BLOCK_USED
  let m := setNext m ptr new
  { h with mem := m, freePtr := new }

/-- The tests of `kalloc` on a block. -/
def Fits (m : Memory) (b : Nat) (n : Int32) : Prop :=
  blockStatus m b = BLOCK_FREE ∧ toU64 n < blockSize m b

instance (m : Memory) (b : Nat) (n : Int32) : Decidable (Fits m b n) :=
  inferInstanceAs (Decidable (_ ∧ _))

/-- The `while` loop of `kalloc`: the block it stops at, `0` at the end of the
list. There are fewer than `2 ^ 64` blocks, so a loop of that many rounds never ends. -/
def search (m : Memory) (n : Int32) : Nat → Nat → Option Nat
  | 0, _ => none
  | fuel + 1, ptr =>
    if ptr = 0 then some 0
    else if Fits m ptr n then some ptr
    else search m n fuel (blockNext m ptr)

/-- `split_block(ptr, n)+1`. -/
def take (h : Heap) (ptr : Nat) (n : Int32) : Nat × Heap :=
  ((ptr + sizeofBlock) % 2 ^ 64, splitBlock h ptr n)

/-- The list search of `kalloc`; `none` when the list never ends. -/
def firstFit (h : Heap) (n : Int32) : Option (Nat × Heap) :=
  match search h.mem n (2 ^ 64) h.heapStart with
  | none => none
  | some 0 => some (0, h)
  | some ptr => some (take h ptr n)

def kalloc (h : Heap) (n : Int32) : Option (Nat × Heap) :=
  if Fits h.mem h.freePtr n then some (take h h.freePtr n) else firstFit h n

end PaskakasaOS.Kernel.Memory.Alloc
